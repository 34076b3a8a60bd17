import Pergrep.Regex.Contained
/-!
# LookBehind — a look-behind and its negation

Both look for a start from which the body leads to the position.  The starts are scanned from a floor on: byte by byte
before the record, rune by rune inside it (`scanStarts`).  The floor of a negated look-behind is never before the record,
even where the text to the left is available, so the two disagree when only starts before the record lead to the position
(`lookBehind_complement_iff`).
-/
namespace Pergrep

open Throw

section
variable {icu : Icu} {c : VerifierContext}

def scanStarts (c : VerifierContext) (pos : Nat) : Nat → Nat → List Nat
  | 0, _ => []
  | fuel + 1, p =>
    if pos < p then [] else if p = pos then [p] else p :: scanStarts c pos fuel (stepStart c p)

def lookBehindStarts (c : VerifierContext) (negative : Bool) (pos : Nat) : List Nat :=
  scanStarts c pos (pos - lookBehindFloor c negative pos + 1) (lookBehindFloor c negative pos)

/-- The body leads from `p` to the position of the state. -/
def LeadsTo (f : VmState → Eval (List VmState)) (s : VmState) (p : Nat) : Prop :=
  ∃ v, f { s with pos := p } = .ok v ∧ ∃ z ∈ v, z.pos = s.pos

/-! ## The two scans -/

theorem leadsTo_iff {f : VmState → Eval (List VmState)} {s : VmState} {p : Nat} {v : List VmState}
    (h : f { s with pos := p } = .ok v) : LeadsTo f s p ↔ ∃ z ∈ v, z.pos = s.pos := by
  constructor
  · rintro ⟨w, hw, hz⟩
    rw [h] at hw
    cases hw
    exact hz
  · exact fun hz => ⟨v, h, hz⟩

/-- **A look-behind yields a state** when a scanned start leads to its position. -/
theorem lookBehindAll_iff {f : VmState → Eval (List VmState)} {s : VmState} : ∀ {fuel p : Nat} {out : List VmState},
    lookBehindAll c f s fuel p = .ok out → (out ≠ [] ↔ ∃ q ∈ scanStarts c s.pos fuel p, LeadsTo f s q)
  | 0, p, out, h => by
    cases h
    simp [scanStarts]
  | fuel + 1, p, out, h => by
    rw [lookBehindAll] at h
    rw [scanStarts]
    split at h
    · rename_i hlt
      cases h
      simp [hlt]
    · rename_i hlt
      rw [if_neg hlt]
      obtain ⟨v, hv, h⟩ := bind_ok h
      have hhere : v.filter (fun z => z.pos == s.pos) ≠ [] ↔ LeadsTo f s p := by
        rw [leadsTo_iff hv, ← List.length_pos_iff, List.length_filter_pos_iff]
        simp only [beq_iff_eq]
      dsimp only at h
      split at h
      · rename_i heq
        cases h
        rw [if_pos heq, hhere]
        simp only [List.mem_singleton, exists_eq_left]
      · rename_i hne
        obtain ⟨rest, hrest, h⟩ := bind_ok h
        cases h
        rw [if_neg hne, ne_eq, List.append_eq_nil_iff, not_and_or, ← ne_eq, ← ne_eq, hhere, lookBehindAll_iff hrest]
        simp only [List.mem_cons, exists_eq_or_imp]

/-- **A negated look-behind stops** at the first scanned start that leads to its position. -/
theorem lookBehindAny_iff {f : VmState → Eval (List VmState)} {s : VmState} : ∀ {fuel p : Nat} {b : Bool},
    lookBehindAny c f s fuel p = .ok b → (b = true ↔ ∃ q ∈ scanStarts c s.pos fuel p, LeadsTo f s q)
  | 0, p, b, h => by
    cases h
    simp [scanStarts]
  | fuel + 1, p, b, h => by
    rw [lookBehindAny] at h
    rw [scanStarts]
    split at h
    · rename_i hlt
      cases h
      simp [hlt]
    · rename_i hlt
      rw [if_neg hlt]
      obtain ⟨v, hv, h⟩ := bind_ok h
      have hhere : v.any (fun z => z.pos == s.pos) = true ↔ LeadsTo f s p := by
        rw [leadsTo_iff hv, List.any_eq_true]
        simp only [beq_iff_eq]
      split at h
      · rename_i hany
        cases h
        refine iff_of_true rfl ⟨p, ?_, hhere.1 hany⟩
        split
        · exact List.mem_singleton.2 rfl
        · exact List.mem_cons_self
      · rename_i hany
        rw [hhere] at hany
        split at h
        · rename_i heq
          cases h
          rw [if_pos heq]
          simp only [Bool.false_eq_true, List.mem_singleton, exists_eq_left, false_iff]
          exact hany
        · rename_i hne
          rw [if_neg hne, lookBehindAny_iff h]
          simp only [List.mem_cons, exists_eq_or_imp]
          rw [or_iff_right hany]

/-! ## The starts before the record -/

theorem stepStart_before {p : Nat} (h : p < c.recordBegin) : stepStart c p = p + 1 := by
  have hnone : contextRuneAt c p = none := by
    unfold contextRuneAt
    rw [decide_eq_true h, Bool.or_true, Bool.true_or, Bool.true_or, if_pos rfl]
  rw [stepStart, hnone]
  rfl

/-- Before the record every byte is a start; then come the starts of the record. -/
theorem mem_scanStarts_before {pos q : Nat} : ∀ {n p : Nat}, p + n = c.recordBegin → ∀ fuel,
    (q ∈ scanStarts c pos (fuel + n) p ↔
      (p ≤ q ∧ q < c.recordBegin ∧ q ≤ pos) ∨ q ∈ scanStarts c pos fuel c.recordBegin)
  | 0, p, h, fuel => by
    obtain rfl : p = c.recordBegin := h
    rw [Nat.add_zero, or_iff_right]
    omega
  | n + 1, p, h, fuel => by
    have hstep := stepStart_before (c := c) (p := p) (by omega)
    rw [← Nat.add_assoc, scanStarts, hstep]
    have hrecord : pos < c.recordBegin → scanStarts c pos fuel c.recordBegin = [] := by
      intro hlt
      cases fuel with
      | zero => rfl
      | succ fuel => rw [scanStarts, if_pos hlt]
    by_cases hlt : pos < p
    · rw [if_pos hlt, hrecord (by omega)]
      simp only [List.not_mem_nil, or_false, false_iff]
      omega
    · rw [if_neg hlt]
      by_cases heq : p = pos
      · rw [if_pos heq, hrecord (by omega), List.mem_singleton]
        simp only [List.not_mem_nil, or_false]
        omega
      · rw [if_neg heq, List.mem_cons, mem_scanStarts_before (n := n) (by omega) fuel, ← or_assoc]
        refine or_congr_left ?_
        omega

theorem scanStarts_fuel {pos : Nat} : ∀ {f g p : Nat}, pos < p + f → pos < p + g → scanStarts c pos f p = scanStarts c pos g p
  | 0, 0, _, _, _ => rfl
  | 0, g + 1, p, h, _ => by rw [scanStarts, scanStarts, if_pos (by omega)]
  | f + 1, 0, p, _, h => by rw [scanStarts, scanStarts, if_pos (by omega)]
  | f + 1, g + 1, p, hf, hg => by
    have hstep := stepStart_gt c p
    rw [scanStarts, scanStarts, scanStarts_fuel (f := f) (g := g) (by omega) (by omega)]

theorem lookBehindFloor_eq (negative : Bool) (pos : Nat) : lookBehindFloor c negative pos =
    max (if negative || !c.leftContextAvailable then c.recordBegin else c.sourceBegin) (pos - vmLookBehindWindow) := by
  unfold lookBehindFloor
  dsimp only
  split
  · rfl
  · omega

/-- The starts of a look-behind that its negation does not try. -/
def StartsBefore (c : VerifierContext) (pos p : Nat) : Prop :=
  c.leftContextAvailable = true ∧ c.sourceBegin ≤ p ∧ pos - vmLookBehindWindow ≤ p ∧ p < c.recordBegin ∧ p ≤ pos

/-- **A look-behind tries the starts of its negation, and with the text to the left those before the record.** -/
theorem mem_lookBehindStarts (hv : c.Valid) {pos p : Nat} :
    p ∈ lookBehindStarts c false pos ↔ StartsBefore c pos p ∨ p ∈ lookBehindStarts c true pos := by
  have hge := hv.record_ge
  unfold lookBehindStarts
  rw [lookBehindFloor_eq, lookBehindFloor_eq, Bool.false_or, Bool.true_or, if_pos rfl]
  unfold StartsBefore
  cases hleft : c.leftContextAvailable with
  | false =>
    rw [Bool.not_false, if_pos rfl, or_iff_right]
    exact fun h => Bool.false_ne_true h.1
  | true =>
    rw [Bool.not_true, if_neg Bool.false_ne_true, and_iff_right rfl]
    rcases Nat.lt_or_ge (max c.sourceBegin (pos - vmLookBehindWindow)) c.recordBegin with hlo | hlo
    · -- the scan starts before the record and comes to its first byte
      have hfloor : max c.recordBegin (pos - vmLookBehindWindow) = c.recordBegin := by omega
      have hfuel : pos < max c.sourceBegin (pos - vmLookBehindWindow) +
          (pos - c.recordBegin + 1 + (c.recordBegin - max c.sourceBegin (pos - vmLookBehindWindow))) := by omega
      rw [hfloor, scanStarts_fuel (by omega) hfuel,
        mem_scanStarts_before (n := c.recordBegin - max c.sourceBegin (pos - vmLookBehindWindow)) (by omega)]
      refine or_congr_left ?_
      omega
    · -- the window, or the text, starts inside the record
      have hfloor : max c.recordBegin (pos - vmLookBehindWindow) = max c.sourceBegin (pos - vmLookBehindWindow) := by omega
      rw [hfloor, or_iff_right]
      omega

/-! ## The law -/

/-- **Just one of a look-behind and its negation yields a state**, unless the body leads to the position from a start before
the record alone. -/
theorem lookBehind_complement_iff (hv : c.Valid) (body : RegexNode) (f f' : NodeFlags) (depth : Nat) (s : VmState)
    {pos neg : List VmState} (hpos : eval icu (.lookBehind f false body) c depth s = .ok pos)
    (hneg : eval icu (.lookBehind f' true body) c depth s = .ok neg) :
    ((pos ≠ [] ∧ neg = []) ∨ (pos = [] ∧ neg ≠ [])) ↔
      ((∃ p, StartsBefore c s.pos p ∧ LeadsTo (eval icu body (lookBehindContext c) (depth + 1)) s p) →
        ∃ p ∈ lookBehindStarts c true s.pos, LeadsTo (eval icu body (lookBehindContext c) (depth + 1)) s p) := by
  rw [eval] at hpos hneg
  split at hpos
  · cases hpos
  rename_i hdepth
  rw [if_neg hdepth] at hneg
  dsimp only at hpos hneg
  rw [if_neg Bool.false_ne_true] at hpos
  rw [if_pos rfl] at hneg
  obtain ⟨b, hb, hneg⟩ := bind_ok hneg
  have hp := lookBehindAll_iff hpos
  have hn := lookBehindAny_iff hb
  have hnegs : neg = [] ↔ b = true := by
    cases hneg
    cases b with
    | true => exact iff_of_true rfl rfl
    | false => exact iff_of_false (List.cons_ne_nil _ _) Bool.false_ne_true
  have hsplit : (∃ q ∈ scanStarts c s.pos (s.pos - lookBehindFloor c false s.pos + 1) (lookBehindFloor c false s.pos),
        LeadsTo (eval icu body (lookBehindContext c) (depth + 1)) s q) ↔
      (∃ p, StartsBefore c s.pos p ∧ LeadsTo (eval icu body (lookBehindContext c) (depth + 1)) s p) ∨
        ∃ p ∈ lookBehindStarts c true s.pos, LeadsTo (eval icu body (lookBehindContext c) (depth + 1)) s p := by
    rw [← exists_or]
    refine exists_congr (fun q => ?_)
    rw [← or_and_right]
    exact and_congr_left (fun _ => mem_lookBehindStarts hv)
  rw [hsplit] at hp
  rw [← hnegs] at hn
  by_cases hin : ∃ p ∈ lookBehindStarts c true s.pos, LeadsTo (eval icu body (lookBehindContext c) (depth + 1)) s p
  · exact iff_of_true (Or.inl ⟨hp.2 (Or.inr hin), hn.2 hin⟩) (fun _ => hin)
  · have hne : neg ≠ [] := fun h => hin (hn.1 h)
    constructor
    · rintro (⟨-, h⟩ | ⟨h, -⟩)
      · exact absurd h hne
      · exact fun hout => absurd h (hp.2 (Or.inl hout))
    · intro h
      refine Or.inr ⟨?_, hne⟩
      by_contra hyield
      rcases hp.1 hyield with hout | hrec
      · exact hin (h hout)
      · exact hin hrec

/-- No start is before the record where the text to the left is not available, or there is none, or where the window ends in
the record: there the law holds of every body. -/
theorem not_startsBefore {p pos : Nat} (h : c.leftContextAvailable = false ∨ c.recordBegin ≤ c.sourceBegin ∨
    c.recordBegin + vmLookBehindWindow ≤ pos) : ¬ StartsBefore c pos p := by
  rintro ⟨hleft, h1, h2, h3, h4⟩
  rcases h with h | h | h
  · rw [hleft] at h
    cases h
  · omega
  · omega

end

/-! ## A record with text to its left -/

def besideContext : VerifierContext :=
  { source := [0x61, 0x62], sourceEnd := 2, recordBegin := 1, recordEnd := 2, candidateBegin := 1, candidateEnd := 2
    leftContextAvailable := true }

theorem besideContext_valid : besideContext.Valid := (VerifierContext.validate_iff _).1 (by decide +kernel)

theorem beside_lookBehind :
    eval asciiIcu (.lookBehind {} false (.literal {} [0x61])) besideContext 0 { pos := 1 } = .ok [{ pos := 1 }] := by
  decide +kernel

theorem beside_negated :
    eval asciiIcu (.lookBehind {} true (.literal {} [0x61])) besideContext 0 { pos := 1 } = .ok [{ pos := 1 }] := by
  decide +kernel

/-- The look-behinds of `b`, in the record: neither start leads to it. -/
theorem lookBehind_complement_beside :
    ((([] : List VmState) ≠ [] ∧ [({ pos := 1 } : VmState)] = []) ∨ (([] : List VmState) = [] ∧ [({ pos := 1 } : VmState)] ≠ [])) ↔
      ((∃ p, StartsBefore besideContext 1 p ∧
          LeadsTo (eval asciiIcu (.literal {} [0x62]) (lookBehindContext besideContext) 1) { pos := 1 } p) →
        ∃ p ∈ lookBehindStarts besideContext true 1,
          LeadsTo (eval asciiIcu (.literal {} [0x62]) (lookBehindContext besideContext) 1) { pos := 1 } p) :=
  lookBehind_complement_iff besideContext_valid (.literal {} [0x62]) {} {} 0 { pos := 1 } (by decide +kernel) (by decide +kernel)

/-- **Both yield a state** where the text to the left has what the record has not. -/
theorem not_lookBehind_complement :
    ¬ ∀ (icu : Icu) (c : VerifierContext) (body : RegexNode) (f f' : NodeFlags) (depth : Nat) (s : VmState)
      (pos neg : List VmState), c.Valid → eval icu (.lookBehind f false body) c depth s = .ok pos →
      eval icu (.lookBehind f' true body) c depth s = .ok neg →
      (pos ≠ [] ∧ neg = []) ∨ (pos = [] ∧ neg ≠ []) := by
  intro h
  have hboth := h asciiIcu besideContext (.literal {} [0x61]) {} {} 0 { pos := 1 } _ _ besideContext_valid beside_lookBehind
    beside_negated
  exact absurd hboth (by decide)

end Pergrep
