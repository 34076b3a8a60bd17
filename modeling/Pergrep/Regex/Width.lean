import Mathlib.Algebra.Order.BigOperators.Group.List
import Mathlib.Algebra.Order.Ring.Nat
import Pergrep.Regex.Analysis
import Pergrep.Regex.Contained
import Pergrep.Regex.NfaSearch
import Pergrep.Regex.Reach
/-!
# Width — the widths in runes are right

`RegexAnalysis.Allows` is what an analysis says of a match of `k` runes: `k` is between its finite bounds, and zero only
where it is nullable.  Every span of a tree (`spans_width`), every state `eval` leads to (`eval_width`) and every match
of `nfa_search` (`nfaSearch_width`) is so many runes wide.  The bounds go through 64-bit arithmetic that answers
`unbounded` where it would wrap (`RegexBound.add_finite`, `RegexBound.mul_finite`).
-/
namespace Pergrep

open Throw Steps

/-! ## The arithmetic of the bounds -/

namespace RegexBound

theorem add_finite {a b : Nat} (hb : b ≤ uint64Max) :
    (finite a).add (finite b) = if a + b ≤ uint64Max then finite (a + b) else unbounded := by
  rw [add]
  by_cases h : a + b ≤ uint64Max
  · rw [if_pos h, if_neg (by omega)]
  · rw [if_neg h, if_pos (by omega)]

theorem mul_finite (a n : Nat) : (finite a).mul n = if a * n ≤ uint64Max then finite (a * n) else unbounded := by
  unfold mul
  split
  · rename_i hn
    rw [hn, Nat.mul_zero, if_pos (Nat.zero_le _)]
  · rename_i hn
    have hdiv : uint64Max / n < a ↔ uint64Max < a * n := Nat.div_lt_iff_lt_mul (Nat.pos_of_ne_zero hn)
    change (if _ then _ else _) = _
    by_cases h : a * n ≤ uint64Max
    · rw [if_pos h, if_neg (by omega)]
    · rw [if_neg h, if_pos (by omega)]

theorem add_eq_finite {x y : RegexBound} {v : Nat} (h : x.add y = finite v) :
    ∃ a b, x = finite a ∧ y = finite b ∧ v = a + b := by
  cases x with
  | finite a =>
    cases y with
    | finite b =>
      rw [add] at h
      split at h
      · cases h
      · cases h
        exact ⟨a, b, rfl, rfl, rfl⟩
    | unknown => cases h
    | unbounded => cases h
  | unknown => cases y <;> cases h
  | unbounded => cases y <;> cases h

theorem mul_eq_finite {x : RegexBound} {n v : Nat} (h : x.mul n = finite v) :
    n = 0 ∧ v = 0 ∨ ∃ a, x = finite a ∧ v = a * n := by
  unfold mul at h
  split at h
  · rename_i hn
    cases h
    exact Or.inl ⟨hn, rfl⟩
  · cases x with
    | finite a =>
      dsimp only at h
      split at h
      · cases h
      · cases h
        exact Or.inr ⟨a, rfl, rfl⟩
    | unknown => cases h
    | unbounded => cases h

theorem max_eq_finite {x y : RegexBound} {v : Nat} (h : x.max_ y = finite v) :
    ∃ a b, x = finite a ∧ y = finite b ∧ v = max a b := by
  cases x with
  | finite a =>
    cases y with
    | finite b =>
      cases h
      exact ⟨a, b, rfl, rfl, rfl⟩
    | unknown => cases h
    | unbounded => cases h
  | unknown => cases y <;> cases h
  | unbounded => cases y <;> cases h

theorem min_eq_finite {x y : RegexBound} {v : Nat} (h : x.min_ y = finite v) :
    ∃ a b, x = finite a ∧ y = finite b ∧ v = min a b := by
  cases x with
  | finite a =>
    cases y with
    | finite b =>
      cases h
      exact ⟨a, b, rfl, rfl, rfl⟩
    | unknown => cases h
    | unbounded => cases h
  | unknown => cases y <;> cases h
  | unbounded => cases y <;> cases h

end RegexBound

/-! ## What an analysis allows -/

namespace RegexAnalysis

/-- A match of `k` runes is within the bounds. -/
structure Allows (o : RegexAnalysis) (k : Nat) : Prop where
  lower : ∀ v, o.runeLower = .finite v → v ≤ k
  upper : ∀ v, o.runeUpper = .finite v → k ≤ v
  empty : k = 0 → o.nullable = true ∨ o.nullableKnown = false

/-- `k` is the width of `j` matches in a row. -/
def Copies (P : Nat → Prop) (j k : Nat) : Prop := ∃ ws : List Nat, ws.length = j ∧ (∀ w ∈ ws, P w) ∧ ws.sum = k

variable {o c : RegexAnalysis} {a b : Nat}

theorem Allows.zero (hl : o.runeLower = .finite 0) (hn : o.nullable = true) : o.Allows 0 where
  lower v h := by
    rw [hl] at h
    cases h
    exact Nat.le_refl _
  upper v h := Nat.zero_le v
  empty _ := Or.inl hn

theorem Allows.concatStep (ho : o.Allows a) (hc : c.Allows b) : (concatStep o c).Allows (a + b) where
  lower v h := by
    obtain ⟨x, y, hx, hy, rfl⟩ := RegexBound.add_eq_finite (show o.runeLower.add c.runeLower = .finite v from h)
    exact Nat.add_le_add (ho.lower x hx) (hc.lower y hy)
  upper v h := by
    obtain ⟨x, y, hx, hy, rfl⟩ := RegexBound.add_eq_finite (show o.runeUpper.add c.runeUpper = .finite v from h)
    exact Nat.add_le_add (ho.upper x hx) (hc.upper y hy)
  empty h := by
    obtain ⟨rfl, rfl⟩ := Nat.add_eq_zero_iff.1 h
    change (o.nullable && c.nullable) = true ∨ (o.nullableKnown && c.nullableKnown) = false
    rcases ho.empty rfl with h1 | h1
    · rcases hc.empty rfl with h2 | h2
      · exact Or.inl (by rw [h1, h2]; rfl)
      · exact Or.inr (by rw [h2, Bool.and_false])
    · exact Or.inr (by rw [h1, Bool.false_and])

theorem Allows.altFirst (hc : c.Allows a) : (altFirst c).Allows a := ⟨hc.lower, hc.upper, hc.empty⟩

theorem Allows.altStep_left (ho : o.Allows a) : (altStep o c).Allows a where
  lower v h := by
    obtain ⟨x, y, hx, -, rfl⟩ := RegexBound.min_eq_finite (show o.runeLower.min_ c.runeLower = .finite v from h)
    exact (Nat.min_le_left x y).trans (ho.lower x hx)
  upper v h := by
    obtain ⟨x, y, hx, -, rfl⟩ := RegexBound.max_eq_finite (show o.runeUpper.max_ c.runeUpper = .finite v from h)
    exact (ho.upper x hx).trans (Nat.le_max_left x y)
  empty h := by
    change (o.nullable || c.nullable) = true ∨ (o.nullableKnown && c.nullableKnown) = false
    rcases ho.empty h with h1 | h1
    · exact Or.inl (by rw [h1, Bool.true_or])
    · exact Or.inr (by rw [h1, Bool.false_and])

theorem Allows.altStep_right (hc : c.Allows a) : (altStep o c).Allows a where
  lower v h := by
    obtain ⟨x, y, -, hy, rfl⟩ := RegexBound.min_eq_finite (show o.runeLower.min_ c.runeLower = .finite v from h)
    exact (Nat.min_le_right x y).trans (hc.lower y hy)
  upper v h := by
    obtain ⟨x, y, -, hy, rfl⟩ := RegexBound.max_eq_finite (show o.runeUpper.max_ c.runeUpper = .finite v from h)
    exact (hc.upper y hy).trans (Nat.le_max_right x y)
  empty h := by
    change (o.nullable || c.nullable) = true ∨ (o.nullableKnown && c.nullableKnown) = false
    rcases hc.empty h with h1 | h1
    · exact Or.inl (by rw [h1, Bool.or_true])
    · exact Or.inr (by rw [h1, Bool.and_false])

/-- **A repetition** is as wide as its copies together. -/
theorem Allows.repeat_ {mn mx j k : Nat} (hk : Copies c.Allows j k) (hmn : mn ≤ j) (hmx : mx = sizeMax ∨ j ≤ mx) :
    (repeat_ c mn mx).Allows k := by
  obtain ⟨ws, rfl, hws, rfl⟩ := hk
  have hlower : (RegexAnalysis.repeat_ c mn mx).runeLower = c.runeLower.mul mn := by
    unfold RegexAnalysis.repeat_
    dsimp only
    split
    · rfl
    · rfl
  have hupper : (RegexAnalysis.repeat_ c mn mx).runeUpper =
      if mx = sizeMax then .unbounded else c.runeUpper.mul mx := by
    unfold RegexAnalysis.repeat_
    dsimp only
    split
    · rfl
    · rfl
  have hnull : (RegexAnalysis.repeat_ c mn mx).nullable = (mn == 0 || c.nullable) ∧
      (RegexAnalysis.repeat_ c mn mx).nullableKnown = c.nullableKnown := by
    unfold RegexAnalysis.repeat_
    dsimp only
    split
    · exact ⟨rfl, rfl⟩
    · exact ⟨rfl, rfl⟩
  refine ⟨fun v h => ?_, fun v h => ?_, fun h => ?_⟩
  · rw [hlower] at h
    rcases RegexBound.mul_eq_finite h with ⟨-, rfl⟩ | ⟨x, hx, rfl⟩
    · exact Nat.zero_le _
    · have hsum : ws.length * x ≤ ws.sum := List.card_nsmul_le_sum ws x (fun w hw => (hws w hw).lower x hx)
      rw [Nat.mul_comm] at hsum
      exact (Nat.mul_le_mul_left x hmn).trans hsum
  · rw [hupper] at h
    split at h
    · cases h
    · rename_i hfin
      have hle := hmx.resolve_left hfin
      rcases RegexBound.mul_eq_finite h with ⟨h0, rfl⟩ | ⟨x, hx, rfl⟩
      · rw [h0, Nat.le_zero, List.length_eq_zero_iff] at hle
        rw [hle]
        exact Nat.le_refl _
      · have hsum : ws.sum ≤ ws.length * x := List.sum_le_card_nsmul ws x (fun w hw => (hws w hw).upper x hx)
        rw [Nat.mul_comm] at hsum
        exact hsum.trans (Nat.mul_le_mul_left x hle)
  · rw [hnull.1, hnull.2]
    cases ws with
    | nil => exact Or.inl (by rw [Nat.le_zero.1 hmn]; rfl)
    | cons w ws =>
      rw [List.sum_cons] at h
      rcases (hws w List.mem_cons_self).empty (by omega) with h1 | h1
      · exact Or.inl (by rw [h1, Bool.or_true])
      · exact Or.inr h1

end RegexAnalysis

/-! ## Runes read -/

/-- `k` runes, as `read` decodes them, from `p` to `q`. -/
def runeSteps (read : Nat → Option Rune) : Nat → Nat → Nat → Prop :=
  iterSpan (fun p q => ∃ r, read p = some r ∧ r.next = q)

theorem runeSteps_unique {read : Nat → Option Rune} (hread : ∀ p r, read p = some r → p < r.next) {a b p q : Nat}
    (ha : runeSteps read a p q) (hb : runeSteps read b p q) : a = b := by
  refine iterSpan_unique ?_ ?_ ha hb
  · rintro p _ ⟨r, hr, rfl⟩
    exact hread p r hr
  · rintro p _ _ ⟨r, hr, rfl⟩ ⟨r', hr', rfl⟩
    rw [hr] at hr'
    cases hr'
    rfl

/-- So many runes from `p` to `q`, a number with the property. -/
def Reads (read : Nat → Option Rune) (P : Nat → Prop) (p q : Nat) : Prop := ∃ k, runeSteps read k p q ∧ P k

section
variable {read : Nat → Option Rune} {P Q R : Nat → Prop} {p m q : Nat}

theorem Reads.mono (h : Reads read P p q) (hPQ : ∀ k, P k → Q k) : Reads read Q p q := by
  obtain ⟨k, hk, hP⟩ := h
  exact ⟨k, hk, hPQ k hP⟩

theorem Reads.zero (hP : P 0) : Reads read P p p := ⟨0, rfl, hP⟩

theorem Reads.one {r : Rune} (hr : read p = some r) (hP : P 1) : Reads read P p r.next :=
  ⟨1, ⟨r.next, ⟨r, hr, rfl⟩, rfl⟩, hP⟩

theorem Reads.trans (h1 : Reads read P p m) (h2 : Reads read Q m q) (hPQ : ∀ a b, P a → Q b → R (a + b)) :
    Reads read R p q := by
  obtain ⟨a, ha, hP⟩ := h1
  obtain ⟨b, hb, hQ⟩ := h2
  exact ⟨a + b, iterSpan_trans ha hb, hPQ a b hP hQ⟩

theorem Copies.succ {j a b : Nat} (ha : RegexAnalysis.Copies P j a) (hb : P b) :
    RegexAnalysis.Copies P (j + 1) (a + b) := by
  obtain ⟨ws, rfl, hws, rfl⟩ := ha
  refine ⟨ws ++ [b], by simp, fun w hw => ?_, by simp⟩
  rcases List.mem_append.1 hw with hw | hw
  · exact hws w hw
  · rw [List.mem_singleton.1 hw]
    exact hb

end

/-! ## Spans -/

open RegexAnalysis

section
variable {icu : Icu} {c : VerifierContext}

theorem literalSpan_width {f : NodeFlags} : ∀ {xs : List Nat} {p q : Nat}, literalSpan icu c f xs p q →
    runeSteps (contextRuneAtValidated c) xs.length p q
  | [], _, _, h => h
  | _ :: _, _, _, ⟨r, hr, _, h⟩ => ⟨r.next, ⟨r, hr, rfl⟩, literalSpan_width h⟩

theorem iterSpan_width {A : Nat → Prop} {R : Nat → Nat → Prop}
    (hR : ∀ p q, R p q → Reads (contextRuneAtValidated c) A p q) :
    ∀ {j i p₀ p q : Nat}, Reads (contextRuneAtValidated c) (Copies A i) p₀ p → iterSpan R j p q →
      Reads (contextRuneAtValidated c) (Copies A (i + j)) p₀ q
  | 0, _, _, _, _, h0, h => by
    rw [← show _ = _ from h]
    exact h0
  | j + 1, i, _, _, _, h0, ⟨m, hm, h⟩ => by
    rw [Nat.add_comm j 1, ← Nat.add_assoc]
    exact iterSpan_width hR (h0.trans (hR _ _ hm) (fun _ _ => Copies.succ)) h

theorem literal_allows (f : NodeFlags) (l : Bytes) : (RegexAnalysis.literal f l).Allows (runes l).length where
  lower v h := by
    cases h
    exact Nat.le_refl _
  upper v h := by
    cases h
    exact Nat.le_refl _
  empty h := by
    left
    cases l with
    | nil => rfl
    | cons b l =>
      -- the first byte starts a rune
      obtain ⟨r, hr⟩ := @runeAt_isSome (b :: l) 0 (Nat.succ_pos _)
      rw [runes, List.length_cons, runesFrom, hr] at h
      cases h

theorem one_allows : RegexAnalysis.one.Allows 1 where
  lower v h := by
    cases h
    exact Nat.le_refl _
  upper v h := by
    cases h
    exact Nat.le_refl _
  empty h := by cases h

theorem assert_allows (f : NodeFlags) (k : AssertKind) : (RegexAnalysis.assert f k).Allows 0 := by
  cases k <;> exact Allows.zero rfl rfl

theorem analyzeAltRest_allows : ∀ (ns : List RegexNode) {o : RegexAnalysis} {k : Nat}, o.Allows k →
    (analyzeAltRest ns o).Allows k
  | [], _, _, h => h
  | _ :: ns, _, _, h => analyzeAltRest_allows ns h.altStep_left

/-- **A span of a tree is within its width.** -/
theorem spans_width (n : RegexNode) : ∀ {p q : Nat}, spans icu c n p q →
    Reads (contextRuneAtValidated c) (analyzeRegex n).Allows p q := by
  induction n using RegexNode.recChildren with
  | empty f =>
    rintro p q rfl
    exact Reads.zero (Allows.zero rfl rfl)
  | literal f l =>
    intro p q h
    exact ⟨_, literalSpan_width h, literal_allows f l⟩
  | dot f =>
    rintro p q ⟨r, hr, -, rfl⟩
    exact Reads.one hr one_allows
  | cls f s =>
    rintro p q ⟨r, hr, -, rfl⟩
    exact Reads.one hr one_allows
  | assert f k =>
    rintro p q ⟨-, rfl⟩
    exact Reads.zero (assert_allows f k)
  | concat f cs ih =>
    have hall : ∀ (cs : List RegexNode) (o : RegexAnalysis) (p₀ p q : Nat),
        (∀ n ∈ cs, ∀ {p q : Nat}, spans icu c n p q → Reads (contextRuneAtValidated c) (analyzeRegex n).Allows p q) →
          Reads (contextRuneAtValidated c) o.Allows p₀ p → spansAll icu c cs p q →
            Reads (contextRuneAtValidated c) (analyzeConcat cs o).Allows p₀ q := by
      intro cs
      induction cs with
      | nil =>
        rintro o p₀ p q - ho rfl
        exact ho
      | cons n cs ihs =>
        rintro o p₀ p q ih ho ⟨m, hm, h⟩
        obtain ⟨hn, ih⟩ := List.forall_mem_cons.1 ih
        exact ihs _ p₀ m q ih (ho.trans (hn hm) (fun _ _ => Allows.concatStep)) h
    intro p q h
    exact hall cs _ p p q ih (Reads.zero (Allows.zero rfl rfl)) h
  | alt f cs ih =>
    have hany : ∀ (cs : List RegexNode) (o : RegexAnalysis) (p q : Nat),
        (∀ n ∈ cs, ∀ {p q : Nat}, spans icu c n p q → Reads (contextRuneAtValidated c) (analyzeRegex n).Allows p q) →
          spansAny icu c cs p q → Reads (contextRuneAtValidated c) (analyzeAltRest cs o).Allows p q := by
      intro cs
      induction cs with
      | nil => exact fun o p q _ h => h.elim
      | cons n cs ihs =>
        intro o p q ih h
        obtain ⟨hn, ih⟩ := List.forall_mem_cons.1 ih
        rcases h with h | h
        · exact (hn h).mono (fun k hk => analyzeAltRest_allows cs hk.altStep_right)
        · exact ihs _ p q ih h
    intro p q h
    cases cs with
    | nil => exact h.elim
    | cons n cs =>
      obtain ⟨hn, ih⟩ := List.forall_mem_cons.1 ih
      rcases h with h | h
      · exact (hn h).mono (fun k hk => analyzeAltRest_allows cs hk.altFirst)
      · exact hany cs _ p q ih h
  | repeat_ f mn mx g n ih =>
    rintro p q ⟨j, hmn, hmx, h⟩
    have h0 : Reads (contextRuneAtValidated c) (Copies (analyzeRegex n).Allows 0) p p :=
      Reads.zero ⟨[], rfl, fun w hw => (by cases hw), rfl⟩
    have hj := iterSpan_width (fun p q => ih) h0 h
    rw [Nat.zero_add] at hj
    exact hj.mono (fun k hk => Allows.repeat_ hk hmn hmx)
  | group f g nm n ih => exact fun h => ih h
  | backRef f g => exact fun h => h.elim
  | lookAhead f neg n ih => exact fun h => h.elim
  | lookBehind f neg n ih => exact fun h => h.elim

end

/-! ## The backtracking engine -/

/-- What `f` leads to from a state is so many runes on. -/
def Widens (read : Nat → Option Rune) (A : Nat → Prop) (f : VmState → Eval (List VmState)) : Prop :=
  ∀ s v, f s = .ok v → ∀ z ∈ v, Reads read A s.pos z.pos

section
variable {read : Nat → Option Rune} {A P Q : Nat → Prop} {f : VmState → Eval (List VmState)} {p : Nat}

theorem expandAll_width (hf : Widens read A f) (hPQ : ∀ a b, P a → A b → Q (a + b)) : ∀ {cur next v : List VmState},
    (∀ z ∈ cur, Reads read P p z.pos) → (∀ z ∈ next, Reads read Q p z.pos) → expandAll f cur next = .ok v →
      ∀ z ∈ v, Reads read Q p z.pos
  | [], _, _, _, hnext, h => by
    cases h
    exact hnext
  | st :: cur, next, v, hcur, hnext, h => by
    rw [expandAll] at h
    obtain ⟨w, hw, h⟩ := bind_ok h
    obtain ⟨out, hout, h⟩ := bind_ok h
    obtain rfl := limitStates_ok hout
    obtain ⟨hst, hcur⟩ := List.forall_mem_cons.1 hcur
    refine expandAll_width hf hPQ hcur (fun z hz => ?_) h
    rcases List.mem_append.1 hz with hz | hz
    · exact hnext z hz
    · exact hst.trans (hf st w hw z hz) hPQ

theorem repeatNext_width (hf : Widens read A f) {j : Nat} : ∀ {cur v : List VmState},
    (∀ z ∈ cur, Reads read (Copies A j) p z.pos) → repeatNext f cur = .ok v →
      ∀ z ∈ v, Reads read (Copies A (j + 1)) p z.pos
  | [], _, _, h => by
    cases h
    exact fun z hz => by cases hz
  | st :: cur, v, hcur, h => by
    rw [repeatNext] at h
    obtain ⟨w, hw, h⟩ := bind_ok h
    obtain ⟨rest, hrest, h⟩ := bind_ok h
    cases h
    obtain ⟨hst, hcur⟩ := List.forall_mem_cons.1 hcur
    intro z hz
    rcases List.mem_append.1 hz with hz | hz
    · exact hst.trans (hf st w hw z (List.mem_of_mem_filter hz)) (fun _ _ => Copies.succ)
    · exact repeatNext_width hf hcur hrest z hz

theorem repeatLevels_width (hf : Widens read A f) : ∀ {limit total j : Nat} {cur : List VmState}
    {levels : List (List VmState)}, (∀ z ∈ cur, Reads read (Copies A j) p z.pos) →
      repeatLevels f limit cur total = .ok levels →
        levels.length ≤ limit ∧ ∀ i l, levels[i]? = some l → ∀ z ∈ l, Reads read (Copies A (j + 1 + i)) p z.pos
  | 0, _, _, _, _, _, h => by
    cases h
    exact ⟨Nat.le_refl _, fun i l hl => by cases hl⟩
  | limit + 1, total, j, cur, levels, hcur, h => by
    rw [repeatLevels] at h
    obtain ⟨next, hnext, h⟩ := bind_ok h
    have hwidth := repeatNext_width hf hcur hnext
    split at h
    · cases h
      exact ⟨Nat.zero_le _, fun i l hl => by cases hl⟩
    split at h
    · cases h
    · obtain ⟨rest, hrest, h⟩ := bind_ok h
      cases h
      obtain ⟨hlen, hlevels⟩ := repeatLevels_width hf hwidth hrest
      refine ⟨Nat.succ_le_succ hlen, fun i l hl => ?_⟩
      cases i with
      | zero =>
        cases hl
        exact hwidth
      | succ i =>
        have := hlevels i l hl
        rwa [Nat.add_right_comm (j + 1) 1 i] at this

end

section
variable {icu : Icu} {c : VerifierContext}

theorem contextLiteralAt_width {lit : Bytes} {icase : Bool} : ∀ {fuel k tp lp e : Nat}, lit.length - lp < fuel →
    lit.length - lp ≤ k → contextLiteralAt icu c lit icase fuel tp lp = some e →
      runeSteps (contextRuneAt c) (runesFrom lit k lp).length tp e
  | 0, _, _, _, _, hfuel, _, _ => absurd hfuel (Nat.not_lt_zero _)
  | fuel + 1, 0, tp, lp, e, _, hk, h => by
    rw [contextLiteralAt, if_neg (by omega)] at h
    exact Option.some.inj h
  | fuel + 1, k + 1, tp, lp, e, hfuel, hk, h => by
    rw [contextLiteralAt] at h
    rw [runesFrom]
    split at h
    · split at h
      · rename_i a b ha hb
        have := (runeAt_next hb).1
        rw [hb]
        split at h
        · exact ⟨a.next, ⟨a, ha, rfl⟩, contextLiteralAt_width (by omega) (by omega) h⟩
        · cases h
      · cases h
    · rename_i hend
      have hnone : runeAt lit lp = none := by
        cases hr : runeAt lit lp with
        | none => rfl
        | some r =>
          have := runeAt_next hr
          omega
      rw [hnone]
      exact Option.some.inj h

theorem evalLiteral_width {lit : Bytes} {icase : Bool} {s : VmState} :
    ∀ z ∈ evalLiteral icu c lit icase s, runeSteps (contextRuneAt c) (runes lit).length s.pos z.pos := by
  unfold evalLiteral
  split
  · rename_i e he
    intro z hz
    rw [List.mem_singleton.1 hz]
    exact contextLiteralAt_width (by omega) (by omega) he
  · exact fun z hz => by cases hz

theorem evalRune_width {test : Nat → Bool} {s : VmState} :
    ∀ z ∈ evalRune c test s, Reads (contextRuneAt c) RegexAnalysis.one.Allows s.pos z.pos := by
  unfold evalRune
  split
  · rename_i r hr
    split
    · intro z hz
      rw [List.mem_singleton.1 hz]
      exact Reads.one hr one_allows
    · exact fun z hz => by cases hz
  · exact fun z hz => by cases hz

theorem backRef_allows (k : Nat) : RegexAnalysis.backRef.Allows k where
  lower v h := by cases h
  upper v h := by cases h
  empty _ := Or.inr rfl

mutual
/-- **What `eval` leads to is within the width.** -/
theorem eval_width {icu : Icu} {c : VerifierContext} : ∀ (n : RegexNode) (depth : Nat),
    Widens (contextRuneAt c) (analyzeRegex n).Allows (eval icu n c depth)
  | n, depth, s, v, h => by
    rw [eval.eq_def] at h
    dsimp only at h
    split at h
    · cases h
    match n with
    | .empty _ =>
      cases h
      exact List.forall_mem_singleton.2 (Reads.zero (Allows.zero rfl rfl))
    | .literal f l =>
      cases h
      exact fun z hz => ⟨_, evalLiteral_width z hz, literal_allows f l⟩
    | .dot f =>
      cases h
      exact evalRune_width
    | .cls f cls =>
      cases h
      exact evalRune_width
    | .assert f k =>
      cases h
      intro z hz
      split at hz
      · rw [List.mem_singleton.1 hz]
        exact Reads.zero (assert_allows f k)
      · cases hz
    | .concat _ cs =>
      exact evalConcat_width cs _ _ (List.forall_mem_singleton.2 (Reads.zero (Allows.zero rfl rfl))) h
    | .alt _ cs =>
      cases cs with
      | nil =>
        cases h
        exact fun z hz => by cases hz
      | cons n cs =>
        dsimp only at h
        rw [evalAlt] at h
        obtain ⟨w, hw, hout⟩ := bind_ok h
        obtain ⟨out, hlim, hrest⟩ := bind_ok hout
        rw [limitStates_ok hlim, List.nil_append] at hrest
        refine evalAlt_width cs _ _ (fun z hz => ?_) hrest
        exact (eval_width n _ s w hw z hz).mono (fun k hk => analyzeAltRest_allows cs hk.altFirst)
    | .group _ g _ ch =>
      obtain ⟨w, hw, h⟩ := bind_ok h
      cases h
      intro z hz
      obtain ⟨z', hz', rfl⟩ := List.mem_map.1 hz
      exact eval_width ch _ s w hw z' hz'
    | .backRef f g =>
      dsimp only at h
      split at h
      · cases h
        exact fun z hz => ⟨_, evalLiteral_width z hz, backRef_allows _⟩
      · cases h
        exact fun z hz => by cases hz
    | .lookAhead _ negative ch =>
      obtain ⟨w, -, h⟩ := bind_ok h
      have hzero : Reads (contextRuneAt c) (RegexAnalysis.lookAhead (analyzeRegex ch)).Allows s.pos s.pos :=
        Reads.zero (Allows.zero rfl rfl)
      split at h
      · cases h
        intro z hz
        split at hz
        · rw [List.mem_singleton.1 hz]
          exact hzero
        · cases hz
      · cases h
        intro z hz
        obtain ⟨z', -, rfl⟩ := List.mem_map.1 hz
        exact hzero
    | .lookBehind _ negative ch =>
      have hzero : Reads (contextRuneAt c) (RegexAnalysis.lookBehind (analyzeRegex ch)).Allows s.pos s.pos :=
        Reads.zero (Allows.zero rfl rfl)
      dsimp only at h
      split at h
      · obtain ⟨ok, -, h⟩ := bind_ok h
        cases h
        intro z hz
        split at hz
        · cases hz
        · rw [List.mem_singleton.1 hz]
          exact hzero
      · intro z hz
        rw [lookBehindAll_pos h z hz]
        exact hzero
    | .repeat_ _ mn mx greedy ch =>
      obtain ⟨rest, hrest, h⟩ := bind_ok h
      have hstart : ∀ z ∈ [s], Reads (contextRuneAt c) (Copies (analyzeRegex ch).Allows 0) s.pos z.pos :=
        List.forall_mem_singleton.2 (Reads.zero ⟨[], rfl, fun w hw => (by cases hw), rfl⟩)
      obtain ⟨hlen, hlevels⟩ := repeatLevels_width (eval_width ch _) hstart hrest
      -- a level that is kept is as many copies as its index, which is in the bounds
      have hkept : ∀ l ∈ ([s] :: rest).drop mn, ∀ z ∈ l,
          Reads (contextRuneAt c) (RegexAnalysis.repeat_ (analyzeRegex ch) mn mx).Allows s.pos z.pos := by
        intro l hl z hz
        obtain ⟨i, hi⟩ := List.mem_iff_getElem?.1 hl
        rw [List.getElem?_drop] at hi
        have hmx : mx = sizeMax ∨ mn + i ≤ mx := by
          have hlt := (List.getElem?_eq_some_iff.1 hi).1
          rw [List.length_cons] at hlt
          by_cases hm : mx = sizeMax
          · exact Or.inl hm
          · rw [repeatLimit, if_neg hm] at hlen
            exact Or.inr (by omega)
        have hcopies : Reads (contextRuneAt c) (Copies (analyzeRegex ch).Allows (mn + i)) s.pos z.pos := by
          cases hj : mn + i with
          | zero =>
            rw [hj] at hi
            cases hi
            exact hstart z hz
          | succ j =>
            rw [hj] at hi
            have := hlevels j l hi z hz
            rwa [Nat.zero_add, Nat.add_comm 1 j] at this
        exact hcopies.mono (fun k hk => Allows.repeat_ hk (Nat.le_add_right mn i) hmx)
      rw [limitStates_ok h]
      intro z hz
      split at hz
      · obtain ⟨l, hl, hz⟩ := List.mem_flatten.1 hz
        exact hkept l (List.mem_reverse.1 hl) z hz
      · obtain ⟨l, hl, hz⟩ := List.mem_flatten.1 hz
        exact hkept l hl z hz

theorem evalConcat_width {icu : Icu} {c : VerifierContext} {p : Nat} : ∀ (ns : List RegexNode) (depth : Nat)
    {o : RegexAnalysis} (cur : List VmState) {v : List VmState}, (∀ z ∈ cur, Reads (contextRuneAt c) o.Allows p z.pos) →
      evalConcat icu ns c depth cur = .ok v → ∀ z ∈ v, Reads (contextRuneAt c) (analyzeConcat ns o).Allows p z.pos
  | [], _, _, _, _, hcur, h => by
    cases h
    exact hcur
  | n :: ns, depth, o, cur, v, hcur, h => by
    rw [evalConcat] at h
    obtain ⟨next, hnext, h⟩ := bind_ok h
    split at h
    · cases h
      exact fun z hz => by cases hz
    · exact evalConcat_width ns depth next
        (expandAll_width (eval_width n depth) (fun _ _ => Allows.concatStep) hcur (fun z hz => by cases hz) hnext) h

theorem evalAlt_width {icu : Icu} {c : VerifierContext} {s : VmState} : ∀ (ns : List RegexNode) (depth : Nat)
    {o : RegexAnalysis} (out : List VmState) {v : List VmState},
      (∀ z ∈ out, Reads (contextRuneAt c) (analyzeAltRest ns o).Allows s.pos z.pos) →
        evalAlt icu ns c depth s out = .ok v → ∀ z ∈ v, Reads (contextRuneAt c) (analyzeAltRest ns o).Allows s.pos z.pos
  | [], _, _, _, _, hout, h => by
    cases h
    exact hout
  | n :: ns, depth, o, out, v, hout, h => by
    rw [evalAlt] at h
    obtain ⟨w, hw, h⟩ := bind_ok h
    obtain ⟨out', hout', h⟩ := bind_ok h
    obtain rfl := limitStates_ok hout'
    refine evalAlt_width ns depth _ (fun z hz => ?_) h
    rcases List.mem_append.1 hz with hz | hz
    · exact hout z hz
    · exact (eval_width n depth s w hw z hz).mono (fun k hk => analyzeAltRest_allows ns hk.altStep_right)
end

/-! ## The simulation -/

theorem contextLiteralAtValidated_width : ∀ {lit : List Nat} {pos e : Nat},
    contextLiteralAtValidated icu c lit pos = some e → runeSteps (contextRuneAtValidated c) lit.length pos e
  | [], _, _, h => Option.some.inj h
  | x :: lit, pos, e, h => by
    rw [contextLiteralAtValidated] at h
    split at h
    · rename_i r hr
      split at h
      · exact ⟨r.next, ⟨r, hr, rfl⟩, contextLiteralAtValidated_width h⟩
      · cases h
    · cases h

/-- **A match of `nfa_search` is within the width**, wherever the prefixes made it jump. -/
theorem nfaSearch_width {p : RegexProgram} (hp : Regular icu p) {fileId : Nat} {r : Match}
    (h : nfaSearch icu p c fileId = some r) :
    Reads (contextRuneAtValidated c) (analyzeRegex p.ast).Allows r.start r.stop := by
  obtain ⟨start, m, hl, hspan⟩ := hp.loaded
  unfold nfaSearch at h
  split at h
  · cases h
  rename_i hlive
  rw [Bool.or_eq_true, not_or, Bool.not_eq_true', Bool.not_eq_false] at hlive
  have hv := (VerifierContext.validate_iff c).1 hlive.1
  split at h
  · rename_i hscan
    obtain ⟨f, l, hast, hi, -⟩ := usesLiteralScan_iff hscan
    obtain ⟨⟨s, e⟩, hse, rfl⟩ := Option.map_eq_some_iff.1 h
    obtain ⟨-, -, hread, -⟩ := literalScan_some hv (Nat.min_le_right _ _) _ hv.candidate_ge hse
    have hsteps := contextLiteralAtValidated_width hread
    rw [hp.icaseLiteral f l hast hi, List.length_map] at hsteps
    rw [hast]
    exact ⟨_, hsteps, literal_allows f l⟩
  · obtain ⟨t, ht, rfl⟩ := Option.map_eq_some_iff.1 h
    have hinit : AllGot icu p c start m (simInit p c) := ⟨fun t ht => (by cases ht), fun t ht => (by cases ht)⟩
    exact spans_width p.ast ((hspan c _ _).1 ((simLoop_got hl (simFuel c) hinit).best t ht))

end

/-! ## The analysis -/

/-- A match from `p` to `q`, decoded by `read`, has the width the analysis says. -/
structure WidthIs (read : Nat → Option Rune) (o : RegexAnalysis) (p q : Nat) : Prop where
  runes : ∃ k, runeSteps read k p q
  lower : ∀ k v, runeSteps read k p q → o.runeLower = .finite v → v ≤ k
  upper : ∀ k v, runeSteps read k p q → o.runeUpper = .finite v → k ≤ v
  empty : p = q → o.nullable = true ∨ o.nullableKnown = false

theorem WidthIs.of_reads {read : Nat → Option Rune} (hread : ∀ p r, read p = some r → p < r.next) {o : RegexAnalysis}
    {p q : Nat} (h : Reads read o.Allows p q) : WidthIs read o p q := by
  obtain ⟨k, hk, hallows⟩ := h
  refine ⟨⟨k, hk⟩, fun j v hj hv => ?_, fun j v hj hv => ?_, fun hpq => hallows.empty ?_⟩
  · rw [← runeSteps_unique hread hk hj]
    exact hallows.lower v hv
  · rw [← runeSteps_unique hread hk hj]
    exact hallows.upper v hv
  · exact runeSteps_unique hread hk (show runeSteps read 0 p q from hpq)

/-- **The width analysis is sound.**  From whatever state `eval` starts, on any tree, and wherever `nfa_search` jumps in
a parsed pattern: as many runes as the finite bounds allow, and none only where the tree is nullable.  The bounds never
wrap. -/
theorem analyzeRegex_sound :
    (∀ (icu : Icu) (c : VerifierContext) (n : RegexNode) (depth : Nat) (s : VmState) (v : List VmState),
      eval icu n c depth s = .ok v → ∀ z ∈ v, WidthIs (contextRuneAt c) (analyzeRegex n) s.pos z.pos) ∧
    (∀ (icu : Icu) (c : VerifierContext) (pattern : Bytes) (opt : PatternOptions) (p : RegexProgram) (ir : QueryIR)
      (fileId : Nat) (m : Match), parseRegex icu pattern opt = .ok p →
        nfaSearch icu { p with queryIr := ir } c fileId = some m →
          WidthIs (contextRuneAtValidated c) (analyzeRegex p.ast) m.start m.stop) ∧
    (∀ a b : Nat, a ≤ RegexBound.uint64Max → b ≤ RegexBound.uint64Max →
      (RegexBound.finite a).add (.finite b) = (if a + b < 2 ^ 64 then .finite (a + b) else .unbounded) ∧
        (RegexBound.finite a).mul b = (if a * b < 2 ^ 64 then .finite (a * b) else .unbounded)) := by
  have hmax : ∀ x, x < 2 ^ 64 ↔ x ≤ RegexBound.uint64Max := fun x => by
    rw [RegexBound.uint64Max]
    omega
  refine ⟨fun icu c n depth s v h z hz => ?_, fun icu c pattern opt p ir fileId m hp hm => ?_, fun a b _ hb => ⟨?_, ?_⟩⟩
  · exact .of_reads (fun _ _ => contextRuneAt_next) (eval_width n depth s v h z hz)
  · have hval : c.validate = true := by
      by_contra hno
      simp [nfaSearch, hno] at hm
    have hv := (VerifierContext.validate_iff c).1 hval
    have hx : p.extended = false := by
      cases hx : p.extended with
      | false => rfl
      | true =>
        -- an extended program has nothing to run
        have hstart : p.nfaStart = none := (parseRegex_extended hp) hx
        simp [nfaSearch, hstart] at hm
    exact .of_reads (fun _ _ hr => (contextRuneAtValidated_next hv hr).2.2.1)
      (nfaSearch_width ((parseRegex_regular hp hx).withQuery ir) hm)
  · rw [RegexBound.add_finite hb]
    simp only [hmax]
  · rw [RegexBound.mul_finite]
    simp only [hmax]

/-- `(a|é){2}` takes two runes; `(?=a)` takes none. -/
theorem analyzeRegex_sound_pair :
    (let n := .repeat_ {} 2 2 true (.group {} 1 [] (.alt {} [.literal {} [0x61], .literal {} [0xC3, 0xA9]]))
     let c : VerifierContext := { source := [0xC3, 0xA9, 0x61], sourceEnd := 3, recordEnd := 3, candidateEnd := 4 }
     (analyzeRegex n).runeLower = .finite 2 ∧ (analyzeRegex n).runeUpper = .finite 2 ∧
       WidthIs (contextRuneAt c) (analyzeRegex n) 0 3) ∧
    (let n := .lookAhead {} false (.literal {} [0x61])
     let c : VerifierContext := { source := [0x61], sourceEnd := 1, recordEnd := 1, candidateEnd := 2 }
     WidthIs (contextRuneAt c) (analyzeRegex n) 0 0) := by
  refine ⟨⟨by decide, by decide, ?_⟩, ?_⟩
  · exact analyzeRegex_sound.1 asciiIcu _ _ 0 { pos := 0, caps := [] }
      [{ pos := 3, caps := [(none, none), (some 2, some 3)] }] (by decide +kernel) _ List.mem_cons_self
  · exact analyzeRegex_sound.1 asciiIcu _ _ 0 { pos := 0, caps := [] } [{ pos := 0, caps := [] }] (by decide +kernel) _
      List.mem_cons_self

end Pergrep
