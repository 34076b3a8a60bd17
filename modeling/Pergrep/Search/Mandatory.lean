import Pergrep.Regex.Ways
import Pergrep.Search.Clip
import Pergrep.Search.Cover
/-!
# Mandatory — what every match needs stands in the file

The optimizer asks the index for the literals a tree cannot match without (`queryMandatory`).  An engine reads runes, though, and
reads a byte that is part of no well-formed sequence as the rune of its value: `Verbatim` says of a literal and a file that the
literal is read only where its bytes are.  For text outside U+0080 to U+00FF it is so in every file (`verbatim_utf8`).  Then every
mandatory literal of a tree stands in the file that the tree matches in, whichever engine finds the match
(`regexSearch_mandatory`): both cut a match up along the tree (`Puts`).
-/
namespace Pergrep

open Throw Steps
open Substr (occursAt occursAt_append)

/-! ## Literals read off bytes -/

/-- The code points are read one after another. -/
def spells (data : Bytes) : List Nat → Nat → Nat → Prop
  | [], p, q => p = q
  | x :: xs, p, q => ∃ r, runeAt data p = some r ∧ r.cp = x ∧ spells data xs r.next q

/-- The literal stands at the position; an empty one does anywhere. -/
def Stands (data l : Bytes) (x : Nat) : Prop := l = [] ∨ occursAt data l x = true

/-- The literal is read only where its bytes are. -/
def Verbatim (data l : Bytes) : Prop := ∀ p q, spells data (runes l) p q → Stands data l p ∧ q = p + l.length

theorem Stands.append {data l l' : Bytes} {x : Nat} (h : Stands data l x) (h' : Stands data l' (x + l.length)) :
    Stands data (l ++ l') x := by
  rcases h with rfl | h
  · exact h'
  rcases h' with rfl | h'
  · rw [List.append_nil]
    exact Or.inr h
  · exact Or.inr ((occursAt_append _ _ _ _).2 ⟨h, h'⟩)

/-- **A text outside U+0080 to U+00FF is read verbatim**, in every file. -/
theorem verbatim_utf8 {cs : List Char} (h : ∀ c ∈ cs, c.toNat < 0x80 ∨ 0x100 ≤ c.toNat) (data : Bytes) :
    Verbatim data (Utf.utf8 cs) := by
  intro p q hq
  rw [runes_utf8] at hq
  induction cs generalizing p with
  | nil => exact ⟨Or.inl rfl, (show p = q from hq).symm⟩
  | cons c cs ih =>
    obtain ⟨r, hr, hcp, hq⟩ := hq
    obtain ⟨h1, h2⟩ := List.forall_mem_cons.1 h
    rw [← hcp] at h1
    obtain ⟨hform, hnext⟩ := runeAt_form hr h1
    obtain ⟨hrest, rfl⟩ := ih h2 r.next hq
    have hp : p ≤ data.length := (runeAt_next hr).1.le.trans (runeAt_next hr).2.1
    rw [hcp] at hform hnext
    rw [hnext] at hrest
    rw [utf8_cons, List.length_append, hnext]
    exact ⟨Stands.append (Or.inr ((Substr.occursAt_iff _ _ _).2 ⟨hp, hform⟩)) hrest, by omega⟩

mutual
def RegexNode.sensitiveLiterals : RegexNode → List Bytes
  | .literal f l => if f.icase then [] else [l]
  | .concat _ cs | .alt _ cs => RegexNode.sensitiveLiteralsAll cs
  | .repeat_ _ _ _ _ c | .group _ _ _ c | .lookAhead _ _ c | .lookBehind _ _ c => c.sensitiveLiterals
  | .empty _ | .dot _ | .cls _ _ | .assert _ _ | .backRef _ _ => []

def RegexNode.sensitiveLiteralsAll : List RegexNode → List Bytes
  | [] => []
  | c :: cs => c.sensitiveLiterals ++ RegexNode.sensitiveLiteralsAll cs
end

/-- The literals of the tree are read verbatim. -/
def RegexNode.VerbatimIn (n : RegexNode) (data : Bytes) : Prop := ∀ l ∈ n.sensitiveLiterals, Verbatim data l

theorem RegexNode.mem_sensitiveLiteralsAll {l : Bytes} : ∀ {cs : List RegexNode} {c : RegexNode}, c ∈ cs →
    l ∈ c.sensitiveLiterals → l ∈ RegexNode.sensitiveLiteralsAll cs
  | d :: cs, c, hc, hl => by
    rw [RegexNode.sensitiveLiteralsAll]
    rcases List.mem_cons.1 hc with rfl | hc
    · exact List.mem_append_left _ hl
    · exact List.mem_append_right _ (RegexNode.mem_sensitiveLiteralsAll hc hl)

theorem RegexNode.VerbatimIn.child {data : Bytes} {f : NodeFlags} {cs : List RegexNode}
    (h : (RegexNode.concat f cs).VerbatimIn data) {c : RegexNode} (hc : c ∈ cs) : c.VerbatimIn data :=
  fun l hl => h l (RegexNode.mem_sensitiveLiteralsAll hc hl)

/-! ## Along a tree -/

/-- A relation of trees and positions that needs the parts of a tree where the tree matches, and has the literals stand. -/
structure Puts (data : Bytes) (R : RegexNode → Nat → Nat → Prop) : Prop where
  literal : ∀ f l s e, f.icase = false → R (.literal f l) s e → Stands data l s ∧ e = s + l.length
  concat : ∀ f cs s e, R (.concat f cs) s e → spanChain R cs s e
  alt : ∀ f cs s e, R (.alt f cs) s e → ∃ c ∈ cs, R c s e
  repeat_ : ∀ f mn mx g c s e, mn ≠ 0 → R (.repeat_ f mn mx g c) s e → ∃ p q, R c p q
  group : ∀ f g nm c s e, R (.group f g nm c) s e → R c s e
  lookAhead : ∀ f c s e, R (.lookAhead f false c) s e → ∃ p q, R c p q
  lookBehind : ∀ f c s e, R (.lookBehind f false c) s e → ∃ p q, R c p q

def InFile (data l : Bytes) : Prop := l ≠ [] ∧ ∃ x, occursAt data l x = true

section
variable {data : Bytes} {R : RegexNode → Nat → Nat → Prop} (hR : Puts data R)
include hR

theorem Puts.concat_mandatory {cs : List RegexNode}
    (ih : ∀ c ∈ cs, ∀ s e, R c s e → ∀ l ∈ queryMandatory c, InFile data l) :
    ∀ {run : Bytes} {s₀ s e : Nat}, s₀ + run.length = s → Stands data run s₀ → spanChain R cs s e →
      ∀ l ∈ queryMandatoryConcat cs run, InFile data l := by
  have hrun : ∀ {run : Bytes} {s₀ : Nat}, Stands data run s₀ → ∀ l ∈ (if run.isEmpty then [] else [run]), InFile data l := by
    intro run s₀ hrun l hl
    split at hl
    · cases hl
    · rename_i hempty
      obtain rfl := List.mem_singleton.1 hl
      have hne : l ≠ [] := fun h => hempty (by rw [h]; rfl)
      exact ⟨hne, s₀, hrun.resolve_left hne⟩
  induction cs with
  | nil =>
    intro run s₀ s e _ hst _ l hl
    rw [queryMandatoryConcat] at hl
    exact hrun hst l hl
  | cons c cs ihs =>
    rintro run s₀ s e hs hst ⟨m, h1, h2⟩ l hl
    have hrest := @ihs (fun d hd => ih d (List.mem_cons_of_mem _ hd))
    rw [queryMandatoryConcat] at hl
    cases hc : c.sensitiveLiteral with
    | some lit =>
      -- the run goes on
      obtain ⟨f, rfl, hf⟩ : ∃ f, c = .literal f lit ∧ f.icase = false := by
        unfold RegexNode.sensitiveLiteral at hc
        split at hc
        · rename_i f l'
          split at hc
          · cases hc
          · rename_i hf
            cases hc
            exact ⟨f, rfl, Bool.eq_false_of_not_eq_true hf⟩
        · cases hc
      rw [hc] at hl
      obtain ⟨hlit, rfl⟩ := hR.literal f lit s m hf h1
      exact hrest (by rw [List.length_append]; omega) (hst.append (hs ▸ hlit)) h2 l hl
    | none =>
      rw [hc] at hl
      rcases List.mem_append.1 hl with hl | hl
      · rcases List.mem_append.1 hl with hl | hl
        · exact hrun hst l hl
        · exact ih c List.mem_cons_self s m h1 l hl
      · exact @hrest [] m m e rfl (Or.inl rfl) h2 l hl

/-- **Every mandatory literal is in the file.** -/
theorem Puts.mandatory (n : RegexNode) : ∀ s e, R n s e → ∀ l ∈ queryMandatory n, InFile data l := by
  induction n using RegexNode.recChildren with
  | empty f => exact fun s e _ l hl => (by cases hl)
  | assert f k => exact fun s e _ l hl => (by cases hl)
  | literal f lit =>
    intro s e h l hl
    rw [queryMandatory] at hl
    split at hl
    · cases hl
    · rename_i hsensitive
      rw [Bool.or_eq_true, not_or] at hsensitive
      obtain rfl := List.mem_singleton.1 hl
      have hne : l ≠ [] := fun h => hsensitive.1 (by rw [h]; rfl)
      exact ⟨hne, s, (hR.literal f l s e (Bool.eq_false_of_not_eq_true hsensitive.2) h).1.resolve_left hne⟩
  | dot f => exact fun s e _ l hl => (by cases hl)
  | cls f k => exact fun s e _ l hl => (by cases hl)
  | concat f cs ih =>
    intro s e h l hl
    exact hR.concat_mandatory ih (show s + ([] : Bytes).length = s from rfl) (Or.inl rfl) (hR.concat f cs s e h) l hl
  | alt f cs ih =>
    intro s e h l hl
    obtain ⟨c, hc, h⟩ := hR.alt f cs s e h
    exact ih c hc s e h l (queryMandatoryAlt_mem hl c hc)
  | repeat_ f mn mx g c ih =>
    intro s e h l hl
    rw [queryMandatory] at hl
    split at hl
    · cases hl
    · rename_i hmn
      obtain ⟨p, q, h⟩ := hR.repeat_ f mn mx g c s e hmn h
      exact ih p q h l hl
  | group f g nm c ih => exact fun s e h => ih s e (hR.group f g nm c s e h)
  | backRef f g => exact fun s e _ l hl => (by cases hl)
  | lookAhead f neg c ih =>
    intro s e h l hl
    rw [queryMandatory] at hl
    cases neg with
    | true => cases hl
    | false =>
      obtain ⟨p, q, h⟩ := hR.lookAhead f c s e h
      exact ih p q h l hl
  | lookBehind f neg c ih =>
    intro s e h l hl
    rw [queryMandatory] at hl
    cases neg with
    | true => cases hl
    | false =>
      obtain ⟨p, q, h⟩ := hR.lookBehind f c s e h
      exact ih p q h l hl

/-- What the wrappers of the line and word modes match, the tree under them matches a part of. -/
theorem Puts.unwrap {opt : PatternOptions} {n : RegexNode} {s e : Nat} (h : R (wrap opt n) s e) : ∃ p q, R n p q := by
  have hmiddle : ∀ {f g : NodeFlags} {k k' : AssertKind}, R (.concat f [.assert g k, n, .assert g k']) s e → ∃ p q, R n p q := by
    intro f g k k' h
    obtain ⟨p, -, q, hpq, -⟩ := hR.concat _ _ _ _ h
    exact ⟨p, q, hpq⟩
  unfold wrap at h
  dsimp only at h
  split at h
  · exact hmiddle h
  split at h
  · exact hmiddle h
  · exact ⟨s, e, h⟩

theorem Puts.ungroup (n : RegexNode) : ∀ {s e : Nat}, R n s e → R (ungroup n) s e := by
  induction n using ungroup.induct with
  | case1 f g nm c ih => exact fun h => ih (hR.group f g nm c _ _ h)
  | case2 n hn =>
    rw [Pergrep.ungroup]
    · exact id
    · exact hn

omit hR in
theorem ne_nil_of_mem_branch {n : RegexNode} {branch : List Bytes} (h : branch ∈ queryBranchMandatory n) : branch ≠ [] := by
  unfold queryBranchMandatory at h
  split at h
  · split at h
    · cases h
    · rename_i cs _ hall
      obtain ⟨c, hc, rfl⟩ := List.mem_map.1 h
      exact fun hnil => hall (List.any_eq_true.2 ⟨c, hc, List.isEmpty_iff.2 hnil⟩)
  · cases h

/-- **Where a tree has branches, all the literals of one of them are in the file.** -/
theorem Puts.branch {n : RegexNode} {s e : Nat} (h : R n s e) (hb : (queryBranchMandatory n).isEmpty = false) :
    ∃ branch ∈ queryBranchMandatory n, branch ≠ [] ∧ ∀ l ∈ branch, InFile data l := by
  obtain ⟨f, cs, hcs, heq⟩ := queryBranchMandatory_eq hb
  have hroot := hR.ungroup n h
  rw [hcs] at hroot
  obtain ⟨c, hc, hr⟩ := hR.alt f cs s e hroot
  have hmem : queryMandatory c ∈ queryBranchMandatory n := by
    rw [heq]
    exact List.mem_map.2 ⟨c, hc, rfl⟩
  exact ⟨queryMandatory c, hmem, ne_nil_of_mem_branch hmem, hR.mandatory c s e hr⟩

end

/-! ## The engines put the literals into the file -/

section
variable {icu : Icu} {data : Bytes}

/-- The context reads the file. -/
structure VerifierContext.Of (c : VerifierContext) (data : Bytes) : Prop where
  source : c.source = data
  origin : c.sourceBegin = 0

theorem sourceRuneAt_of {c : VerifierContext} (hc : c.Of data) {pos : Nat} {r : Rune} (h : sourceRuneAt c pos = some r) :
    runeAt data pos = some r := by
  obtain ⟨r', hr, rfl⟩ := Option.map_eq_some_iff.1 h
  rw [hc.source, hc.origin, Nat.sub_zero] at hr
  rw [hc.origin]
  exact hr

theorem contextRuneAt_of {c : VerifierContext} (hc : c.Of data) {pos : Nat} {r : Rune} (h : contextRuneAt c pos = some r) :
    runeAt data pos = some r := by
  unfold contextRuneAt at h
  split at h
  · cases h
  · split at h
    · rename_i r' hr
      split at h
      · cases h
      · cases h
        exact sourceRuneAt_of hc hr
    · cases h

theorem contextRuneAtValidated_of {c : VerifierContext} (hc : c.Of data) (hv : c.Valid) (hb : c.boundedRegion = false) {pos : Nat}
    {r : Rune} (h : contextRuneAtValidated c pos = some r) : runeAt data pos = some r := by
  rw [contextRuneAtValidated_eq hv hb] at h
  exact contextRuneAt_of hc h

theorem literalSpan_spells {c : VerifierContext} (hc : c.Of data) (hv : c.Valid) (hb : c.boundedRegion = false) {f : NodeFlags}
    (hf : f.icase = false) : ∀ {xs : List Nat} {p q : Nat}, literalSpan icu c f xs p q → spells data xs p q
  | [], _, _, h => h
  | x :: xs, p, q, ⟨r, hr, heq, h⟩ => by
    rw [hf, Icu.cpEq, if_neg Bool.false_ne_true, beq_iff_eq] at heq
    exact ⟨r, contextRuneAtValidated_of hc hv hb hr, heq, literalSpan_spells hc hv hb hf h⟩

theorem iterSpan_some {R : Nat → Nat → Prop} {k s e : Nat} (hk : k ≠ 0) (h : iterSpan R k s e) : ∃ p q, R p q := by
  cases k with
  | zero => exact absurd rfl hk
  | succ k =>
    obtain ⟨m, h1, -⟩ := h
    exact ⟨s, m, h1⟩

/-- **The spans of a tree** put its literals into the file. -/
theorem spans_puts {c : VerifierContext} (hc : c.Of data) (hv : c.Valid) (hb : c.boundedRegion = false) :
    Puts data (fun n s e => n.VerbatimIn data ∧ spans icu c n s e) where
  literal f l s e hf h := by
    obtain ⟨hverb, h⟩ := h
    have hmem : l ∈ (RegexNode.literal f l).sensitiveLiterals := by
      rw [RegexNode.sensitiveLiterals, hf, if_neg Bool.false_ne_true]
      exact List.mem_singleton_self l
    exact hverb l hmem s e (literalSpan_spells hc hv hb hf h)
  concat f cs s e h := by
    have hverb : ∀ c ∈ cs, c.VerbatimIn data := fun c hcm => h.1.child hcm
    have hall : spansAll icu c cs s e := h.2
    clear h
    induction cs generalizing s with
    | nil => exact hall
    | cons n cs ih =>
      obtain ⟨m, h1, h2⟩ := hall
      exact ⟨m, ⟨hverb n List.mem_cons_self, h1⟩, ih m (fun d hd => hverb d (List.mem_cons_of_mem _ hd)) h2⟩
  alt f cs s e h := by
    have hverb : ∀ c ∈ cs, c.VerbatimIn data := fun c hcm => RegexNode.VerbatimIn.child (f := f) h.1 hcm
    have hany : spansAny icu c cs s e := h.2
    clear h
    induction cs with
    | nil => exact hany.elim
    | cons n cs ih =>
      rcases hany with h | h
      · exact ⟨n, List.mem_cons_self, hverb n List.mem_cons_self, h⟩
      · obtain ⟨d, hd, h⟩ := ih (fun d hd => hverb d (List.mem_cons_of_mem _ hd)) h
        exact ⟨d, List.mem_cons_of_mem _ hd, h⟩
  repeat_ f mn mx g n s e hmn h := by
    obtain ⟨hverb, k, hk, -, h⟩ := h
    obtain ⟨p, q, hpq⟩ := iterSpan_some (by omega) h
    exact ⟨p, q, hverb, hpq⟩
  group _ _ _ _ _ _ h := h
  lookAhead _ _ _ _ h := h.2.elim
  lookBehind _ _ _ _ h := h.2.elim

def LeadsFrom (f : VmState → Eval (List VmState)) (st z : VmState) : Prop := ∃ v, f st = .ok v ∧ z ∈ v

theorem expandAll_leads {f : VmState → Eval (List VmState)} : ∀ {cur next v : List VmState}, expandAll f cur next = .ok v →
    ∀ z ∈ v, z ∈ next ∨ ∃ st ∈ cur, LeadsFrom f st z
  | [], _, _, h, z, hz => by
    cases h
    exact Or.inl hz
  | st :: cur, next, v, h, z, hz => by
    rw [expandAll] at h
    obtain ⟨w, hw, h⟩ := bind_ok h
    obtain ⟨out, hout, h⟩ := bind_ok h
    obtain rfl := limitStates_ok hout
    rcases expandAll_leads h z hz with hz | ⟨st', hst, hz⟩
    · rcases List.mem_append.1 hz with hz | hz
      · exact Or.inl hz
      · exact Or.inr ⟨st, List.mem_cons_self, w, hw, hz⟩
    · exact Or.inr ⟨st', List.mem_cons_of_mem _ hst, hz⟩

theorem repeatNext_leads {f : VmState → Eval (List VmState)} : ∀ {cur v : List VmState}, repeatNext f cur = .ok v →
    ∀ z ∈ v, ∃ st, LeadsFrom f st z
  | [], _, h, z, hz => by
    cases h
    cases hz
  | st :: cur, v, h, z, hz => by
    rw [repeatNext] at h
    obtain ⟨w, hw, h⟩ := bind_ok h
    obtain ⟨rest, hrest, h⟩ := bind_ok h
    cases h
    rcases List.mem_append.1 hz with hz | hz
    · exact ⟨st, w, hw, List.mem_of_mem_filter hz⟩
    · exact repeatNext_leads hrest z hz

theorem repeatLevels_leads {f : VmState → Eval (List VmState)} : ∀ {limit total : Nat} {cur : List VmState}
    {rest : List (List VmState)}, repeatLevels f limit cur total = .ok rest → ∀ l ∈ rest, ∀ z ∈ l, ∃ st, LeadsFrom f st z
  | 0, _, _, _, h, l, hl, _, _ => by
    cases h
    cases hl
  | limit + 1, total, cur, rest, h, l, hl, z, hz => by
    rw [repeatLevels] at h
    obtain ⟨next, hnext, h⟩ := bind_ok h
    split at h
    · cases h
      cases hl
    split at h
    · cases h
    · obtain ⟨rest', hrest, h⟩ := bind_ok h
      cases h
      rcases List.mem_cons.1 hl with rfl | hl
      · exact repeatNext_leads hnext z hz
      · exact repeatLevels_leads hrest l hl z hz

theorem lookBehindAll_leads {c : VerifierContext} {f : VmState → Eval (List VmState)} {s : VmState} : ∀ {fuel p : Nat}
    {out : List VmState}, lookBehindAll c f s fuel p = .ok out → ∀ z ∈ out, ∃ st, LeadsFrom f st z
  | 0, _, _, h, z, hz => by
    cases h
    cases hz
  | fuel + 1, p, out, h, z, hz => by
    rw [lookBehindAll] at h
    split at h
    · cases h
      cases hz
    · obtain ⟨v, hv, h⟩ := bind_ok h
      dsimp only at h
      split at h
      · cases h
        exact ⟨_, v, hv, List.mem_of_mem_filter hz⟩
      · obtain ⟨rest, hrest, h⟩ := bind_ok h
        cases h
        rcases List.mem_append.1 hz with hz | hz
        · exact ⟨_, v, hv, List.mem_of_mem_filter hz⟩
        · exact lookBehindAll_leads hrest z hz

variable (icu data) in
/-- The tree is read verbatim, and in some context of the file `eval` leads from one position to the other. -/
def EvalLeads (n : RegexNode) (s e : Nat) : Prop :=
  n.VerbatimIn data ∧ ∃ (c : VerifierContext) (depth : Nat) (st z : VmState), c.Of data ∧
    LeadsFrom (eval icu n c depth) st z ∧ st.pos = s ∧ z.pos = e

theorem literalWay_spells {c : VerifierContext} (hc : c.Of data) : ∀ {xs : List Nat} {p q : Nat},
    literalWay icu c false xs p q → spells data xs p q
  | [], _, _, h => h
  | x :: xs, p, q, ⟨r, hr, heq, h⟩ => by
    rw [Icu.cpEq, if_neg Bool.false_ne_true, beq_iff_eq] at heq
    exact ⟨r, contextRuneAt_of hc hr, heq, literalWay_spells hc h⟩

theorem evalConcat_leads {c : VerifierContext} (hc : c.Of data) {depth : Nat} : ∀ {cs : List RegexNode}
    {cur v : List VmState}, (∀ n ∈ cs, n.VerbatimIn data) → evalConcat icu cs c depth cur = .ok v → ∀ z ∈ v,
      ∃ st ∈ cur, spanChain (EvalLeads icu data) cs st.pos z.pos
  | [], cur, v, _, h, z, hz => by
    rw [evalConcat] at h
    cases h
    exact ⟨z, hz, rfl⟩
  | n :: cs, cur, v, hverb, h, z, hz => by
    rw [evalConcat] at h
    obtain ⟨next, hnext, h⟩ := bind_ok h
    split at h
    · cases h
      cases hz
    · obtain ⟨m, hm, hchain⟩ := evalConcat_leads hc (fun d hd => hverb d (List.mem_cons_of_mem _ hd)) h z hz
      obtain ⟨st, hst, hlead⟩ := (expandAll_leads hnext m hm).resolve_left (fun h => by cases h)
      exact ⟨st, hst, m.pos, ⟨hverb n List.mem_cons_self, c, depth, st, m, hc, hlead, rfl, rfl⟩, hchain⟩

theorem evalAlt_leads {c : VerifierContext} {depth : Nat} {s : VmState} : ∀ {cs : List RegexNode} {out v : List VmState},
    evalAlt icu cs c depth s out = .ok v → ∀ z ∈ v, z ∈ out ∨ ∃ n ∈ cs, LeadsFrom (eval icu n c depth) s z
  | [], out, v, h, z, hz => by
    rw [evalAlt] at h
    cases h
    exact Or.inl hz
  | n :: cs, out, v, h, z, hz => by
    rw [evalAlt] at h
    obtain ⟨w, hw, h⟩ := bind_ok h
    obtain ⟨out', hout, h⟩ := bind_ok h
    obtain rfl := limitStates_ok hout
    rcases evalAlt_leads h z hz with hz | ⟨d, hd, hz⟩
    · rcases List.mem_append.1 hz with hz | hz
      · exact Or.inl hz
      · exact Or.inr ⟨n, List.mem_cons_self, w, hw, hz⟩
    · exact Or.inr ⟨d, List.mem_cons_of_mem _ hd, hz⟩

/-- **What `eval` leads to** puts the literals of the tree into the file. -/
theorem eval_puts : Puts data (EvalLeads icu data) where
  literal f l s e hf h := by
    obtain ⟨hverb, c, depth, st, z, hc, ⟨v, hv, hz⟩, rfl, rfl⟩ := h
    have hmem : l ∈ (RegexNode.literal f l).sensitiveLiterals := by
      rw [RegexNode.sensitiveLiterals, hf, if_neg Bool.false_ne_true]
      exact List.mem_singleton_self l
    have hd := eval_depth hv
    rw [eval, if_neg hd] at hv
    cases hv
    have hway := evalLiteral_pos.1 ⟨z, hz, rfl⟩
    rw [hf] at hway
    exact hverb l hmem _ _ (literalWay_spells hc hway)
  concat f cs s e h := by
    obtain ⟨hverb, c, depth, st, z, hc, ⟨v, hv, hz⟩, rfl, rfl⟩ := h
    have hd := eval_depth hv
    rw [eval, if_neg hd] at hv
    obtain ⟨st', hst, hchain⟩ := evalConcat_leads hc (fun n hn => hverb.child hn) hv z hz
    rw [List.mem_singleton.1 hst] at hchain
    exact hchain
  alt f cs s e h := by
    obtain ⟨hverb, c, depth, st, z, hc, ⟨v, hv, hz⟩, rfl, rfl⟩ := h
    have hd := eval_depth hv
    rw [eval, if_neg hd] at hv
    obtain ⟨n, hn, hlead⟩ := (evalAlt_leads hv z hz).resolve_left (fun h => by cases h)
    exact ⟨n, hn, RegexNode.VerbatimIn.child (f := f) hverb hn, c, _, st, z, hc, hlead, rfl, rfl⟩
  repeat_ f mn mx g n s e hmn h := by
    obtain ⟨hverb, c, depth, st, z, hc, ⟨v, hv, hz⟩, rfl, rfl⟩ := h
    have hd := eval_depth hv
    rw [eval, if_neg hd] at hv
    obtain ⟨rest, hrest, hv⟩ := bind_ok hv
    obtain rfl := limitStates_ok hv
    obtain ⟨l, hl, hzl⟩ : ∃ l ∈ ([st] :: rest).drop mn, z ∈ l := by
      split at hz
      · obtain ⟨l, hl, hz⟩ := List.mem_flatten.1 hz
        exact ⟨l, List.mem_reverse.1 hl, hz⟩
      · exact List.mem_flatten.1 hz
    -- the level zero is dropped
    obtain ⟨k, rfl⟩ := Nat.exists_eq_succ_of_ne_zero hmn
    obtain ⟨st', hlead⟩ := repeatLevels_leads hrest l (List.mem_of_mem_drop hl) z hzl
    exact ⟨st'.pos, z.pos, hverb, c, _, st', z, hc, hlead, rfl, rfl⟩
  group f g nm n s e h := by
    obtain ⟨hverb, c, depth, st, z, hc, ⟨v, hv, hz⟩, rfl, rfl⟩ := h
    have hd := eval_depth hv
    rw [eval, if_neg hd] at hv
    obtain ⟨w, hw, hv⟩ := bind_ok hv
    cases hv
    obtain ⟨z', hz', rfl⟩ := List.mem_map.1 hz
    exact ⟨hverb, c, _, st, z', hc, ⟨w, hw, hz'⟩, rfl, rfl⟩
  lookAhead f n s e h := by
    obtain ⟨hverb, c, depth, st, z, hc, ⟨v, hv, hz⟩, rfl, rfl⟩ := h
    have hd := eval_depth hv
    rw [eval, if_neg hd] at hv
    obtain ⟨w, hw, hv⟩ := bind_ok hv
    rw [if_neg Bool.false_ne_true] at hv
    cases hv
    obtain ⟨z', hz', rfl⟩ := List.mem_map.1 hz
    exact ⟨_, _, hverb, c, _, st, z', hc, ⟨w, hw, hz'⟩, rfl, rfl⟩
  lookBehind f n s e h := by
    obtain ⟨hverb, c, depth, st, z, hc, ⟨v, hv, hz⟩, rfl, rfl⟩ := h
    have hd := eval_depth hv
    rw [eval, if_neg hd, if_neg Bool.false_ne_true] at hv
    obtain ⟨st', hlead⟩ := lookBehindAll_leads hv z hz
    exact ⟨_, _, hverb, lookBehindContext c, _, st', z, ⟨hc.source, hc.origin⟩, hlead, rfl, rfl⟩

theorem evalSearch_leads {re : RegexProgram} {c : VerifierContext} {fid : Nat} {m : Match} : ∀ {fuel st : Nat},
    evalSearch icu re c fid fuel st = .ok (some m) → ∃ st z, LeadsFrom (eval icu re.ast c 0) st z
  | 0, _, h => by cases h
  | fuel + 1, st, h => by
    rw [evalSearch] at h
    split at h
    · obtain ⟨v, hv, h⟩ := bind_ok h
      split at h
      · rename_i z v
        exact ⟨_, z, _, hv, List.mem_cons_self⟩
      · split at h
        · cases h
        · exact evalSearch_leads h
    · cases h

/-- What the optimizer asks for: the mandatory literals of the tree, and where it has branches all those of one of them. -/
structure QueryIR.InFile (q : QueryIR) (data : Bytes) : Prop where
  mandatory : ∀ l ∈ q.mandatory, Pergrep.InFile data l
  branch : q.branchMandatory.isEmpty = false →
    ∃ branch ∈ q.branchMandatory, branch ≠ [] ∧ ∀ l ∈ branch, Pergrep.InFile data l

theorem Puts.query {R : RegexNode → Nat → Nat → Prop} (hR : Puts data R) {opt : PatternOptions} {n : RegexNode} {s e : Nat}
    (h : R (wrap opt n) s e) (extended : Bool) : (analyzeQuery n extended).InFile data := by
  obtain ⟨p, q, hpq⟩ := hR.unwrap h
  exact ⟨fun l hl => hR.mandatory n p q hpq l (mem_sortUnique ((List.mem_insertionSort _).1 hl)), hR.branch hpq⟩

/-- **Whatever a search finds**, what the optimizer asks for is in the file. -/
theorem regexSearch_mandatory {pattern : Bytes} {opt : PatternOptions} {re : RegexProgram}
    (hp : parseRegex icu pattern opt = .ok re) {c : VerifierContext} (hc : c.Of data) (hb : c.boundedRegion = false)
    (hverb : re.ast.VerbatimIn data) {fid : Nat} {m : Match} (h : regexSearch icu re c fid = .ok (some m)) :
    re.queryIr.InFile data := by
  obtain ⟨r, -, hast, -, hext, -, hir, -, -⟩ := parseRegex_ok hp
  have hval : c.validate = true := by
    by_contra hno
    rw [Bool.not_eq_true] at hno
    simp [regexSearch, hno] at h
  have hv := (VerifierContext.validate_iff c).1 hval
  unfold regexSearch at h
  rw [hval, Bool.not_true, if_neg Bool.false_ne_true] at h
  rw [hir]
  cases hx : re.extended with
  | true =>
    rw [hx, if_neg (by decide)] at h
    obtain ⟨st, z, hlead⟩ := evalSearch_leads h
    have hroot : EvalLeads icu data re.ast st.pos z.pos := ⟨hverb, c, 0, st, z, hc, hlead, rfl, rfl⟩
    rw [hast] at hroot
    exact eval_puts.query hroot r.extended
  | false =>
    rw [hx, if_pos (by decide)] at h
    cases hlit : usesLiteralScan re with
    | true =>
      -- a literal without its case asks for nothing
      obtain ⟨f, l, hl, hi, -, -⟩ := usesLiteralScan_iff hlit
      rw [hast] at hl
      rw [wrap_literal hl]
      have hnone : queryMandatory (.literal f l) = [] := by rw [queryMandatory, hi, Bool.or_true, if_pos rfl]
      refine ⟨fun l' hl' => ?_, fun hne => by cases hne⟩
      rw [analyzeQuery] at hl'
      have hmem := mem_sortUnique ((List.mem_insertionSort _).1 hl')
      rw [hnone] at hmem
      cases hmem
    | false =>
      have hspan := (parseRegex_regular hp hx).nfaSearch_span hlit (Except.ok.inj h)
      have hroot : re.ast.VerbatimIn data ∧ spans icu c re.ast m.start m.stop := ⟨hverb, hspan⟩
      rw [hast] at hroot
      exact (spans_puts hc hv hb).query hroot r.extended

end

end Pergrep
