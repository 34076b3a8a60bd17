import Pergrep.Lib.Substr
import Pergrep.Regex.Width
/-!
# Decompose — byte spans cut up along a tree

What the widths and the mandatory literals of a tree are about: a span decomposes along a tree when its literals stand there
verbatim, each dot and class takes one to four bytes, assertions take none and a repetition as many copies as it may
(`Decomposes`).  A span that decomposes is no wider than the tree's upper bound (`Decomposes.width`) and has every mandatory
literal in it (`Decomposes.mandatory`).
-/
namespace Pergrep

open Steps (iterSpan iterSpan_le)
open Substr (occursAt occursAt_append occursAt_le)

section
variable (data : Bytes)

mutual
/-- The span from `s` to `e` is made of the tree's parts. -/
def Decomposes : RegexNode → Nat → Nat → Prop
  | .empty _, s, e | .assert _ _, s, e => s = e
  | .literal _ l, s, e => occursAt data l s = true ∧ e = s + l.length
  | .dot _, s, e | .cls _ _, s, e => s + 1 ≤ e ∧ e ≤ s + 4
  | .concat _ cs, s, e => DecomposesAll cs s e
  | .alt _ cs, s, e => DecomposesAny cs s e
  | .repeat_ _ mn mx _ c, s, e => ∃ k, mn ≤ k ∧ (mx = sizeMax ∨ k ≤ mx) ∧ iterSpan (fun p q => Decomposes c p q) k s e
  | .group _ _ _ c, s, e => Decomposes c s e
  | .backRef _ _, _, _ | .lookAhead _ _ _, _, _ | .lookBehind _ _ _, _, _ => False

def DecomposesAll : List RegexNode → Nat → Nat → Prop
  | [], s, e => s = e
  | c :: cs, s, e => ∃ m, Decomposes c s m ∧ DecomposesAll cs m e

def DecomposesAny : List RegexNode → Nat → Nat → Prop
  | [], _, _ => False
  | c :: cs, s, e => Decomposes c s e ∨ DecomposesAny cs s e
end

variable {data}

theorem decomposesAny_iff : ∀ {cs : List RegexNode} {s e : Nat}, DecomposesAny data cs s e ↔ ∃ c ∈ cs, Decomposes data c s e
  | [], s, e => iff_of_false id (fun ⟨_, hc, _⟩ => by cases hc)
  | c :: cs, s, e => by
    rw [DecomposesAny, decomposesAny_iff]
    exact ⟨fun h => h.elim (fun h => ⟨c, List.mem_cons_self, h⟩) (fun ⟨d, hd, h⟩ => ⟨d, List.mem_cons_of_mem _ hd, h⟩),
      fun ⟨d, hd, h⟩ => (List.mem_cons.1 hd).elim (fun he => Or.inl (he ▸ h)) (fun hd => Or.inr ⟨d, hd, h⟩)⟩

/-! ## Widths -/

theorem Decomposes.le (n : RegexNode) : ∀ {s e : Nat}, Decomposes data n s e → s ≤ e := by
  induction n using RegexNode.recChildren with
  | empty f => exact fun h => Nat.le_of_eq h
  | assert f k => exact fun h => Nat.le_of_eq h
  | literal f l => exact fun h => h.2 ▸ Nat.le_add_right _ _
  | dot f => exact fun h => Nat.le_of_succ_le h.1
  | cls f k => exact fun h => Nat.le_of_succ_le h.1
  | concat f cs ih =>
    change ∀ {s e : Nat}, DecomposesAll data cs s e → s ≤ e
    induction cs with
    | nil => exact fun h => Nat.le_of_eq h
    | cons c cs ihs =>
      rintro s e ⟨m, h1, h2⟩
      exact (ih c List.mem_cons_self h1).trans (ihs (fun d hd => ih d (List.mem_cons_of_mem _ hd)) h2)
  | alt f cs ih =>
    intro s e h
    obtain ⟨c, hc, h⟩ := decomposesAny_iff.1 h
    exact ih c hc h
  | repeat_ f mn mx g c ih => exact fun ⟨k, _, _, h⟩ => iterSpan_le (fun _ _ => ih) h
  | group f g nm c ih => exact ih
  | backRef f g => exact fun h => h.elim
  | lookAhead f neg c ih => exact fun h => h.elim
  | lookBehind f neg c ih => exact fun h => h.elim

def UpTo (b : RegexBound) (w : Nat) : Prop := ∀ v, b = .finite v → w ≤ v

theorem UpTo.add {a b : RegexBound} {v w : Nat} (ha : UpTo a v) (hb : UpTo b w) : UpTo (a.add b) (v + w) := by
  intro z h
  obtain ⟨x, y, hx, hy, rfl⟩ := RegexBound.add_eq_finite h
  exact Nat.add_le_add (ha x hx) (hb y hy)

theorem UpTo.max_left {a b : RegexBound} {v : Nat} (ha : UpTo a v) : UpTo (a.max_ b) v := by
  intro z h
  obtain ⟨x, y, hx, -, rfl⟩ := RegexBound.max_eq_finite h
  exact (ha x hx).trans (Nat.le_max_left x y)

theorem UpTo.max_right {a b : RegexBound} {v : Nat} (hb : UpTo b v) : UpTo (a.max_ b) v := by
  intro z h
  obtain ⟨x, y, -, hy, rfl⟩ := RegexBound.max_eq_finite h
  exact (hb y hy).trans (Nat.le_max_right x y)

theorem UpTo.copies {a : RegexBound} {R : Nat → Nat → Prop} (hle : ∀ p q, R p q → p ≤ q) (hR : ∀ p q, R p q → UpTo a (q - p)) :
    ∀ {k s e : Nat}, iterSpan R k s e → ∀ x, a = .finite x → e - s ≤ k * x
  | 0, s, e, h, x, _ => by
    rw [show s = e from h, Nat.sub_self]
    exact Nat.zero_le _
  | k + 1, s, e, ⟨m, h1, h2⟩, x, hx => by
    have hm := hle _ _ h1
    have hfirst := hR _ _ h1 x hx
    have hrest := UpTo.copies hle hR h2 x hx
    have he := iterSpan_le hle h2
    rw [Nat.succ_mul]
    omega

theorem UpTo.repeat_ {a : RegexAnalysis} {R : Nat → Nat → Prop} (hle : ∀ p q, R p q → p ≤ q)
    (hR : ∀ p q, R p q → UpTo a.byteUpper (q - p)) {mn mx k s e : Nat} (hmx : mx = sizeMax ∨ k ≤ mx)
    (h : iterSpan R k s e) : UpTo (RegexAnalysis.repeat_ a mn mx).byteUpper (e - s) := by
  have hupper : (RegexAnalysis.repeat_ a mn mx).byteUpper = if mx = sizeMax then .unbounded else a.byteUpper.mul mx := by
    unfold RegexAnalysis.repeat_
    dsimp only
    split
    · rfl
    · rfl
  rw [hupper]
  intro v hv
  split at hv
  · cases hv
  rename_i hfin
  have hk := hmx.resolve_left hfin
  rcases RegexBound.mul_eq_finite hv with ⟨rfl, rfl⟩ | ⟨x, hx, rfl⟩
  · obtain rfl := Nat.le_zero.1 hk
    rw [show s = e from h, Nat.sub_self]
  · rw [Nat.mul_comm]
    exact (UpTo.copies hle hR h x hx).trans (Nat.mul_le_mul_right x hk)

/-- Spans of the members of a list, one after another. -/
def spanChain (R : RegexNode → Nat → Nat → Prop) : List RegexNode → Nat → Nat → Prop
  | [], s, e => s = e
  | c :: cs, s, e => ∃ m, R c s m ∧ spanChain R cs m e

/-- A relation of trees and spans that cuts the span of a tree up into spans of its parts, no leaf wider than its bound. -/
structure Cuts (R : RegexNode → Nat → Nat → Prop) : Prop where
  le : ∀ n s e, R n s e → s ≤ e
  empty : ∀ f s e, R (.empty f) s e → s = e
  assert : ∀ f k s e, R (.assert f k) s e → s = e
  literal : ∀ f l s e, R (.literal f l) s e → f.icase = false → e - s ≤ l.length
  dot : ∀ f s e, R (.dot f) s e → e - s ≤ 4
  cls : ∀ f k s e, R (.cls f k) s e → e - s ≤ 4
  concat : ∀ f cs s e, R (.concat f cs) s e → spanChain R cs s e
  alt : ∀ f cs s e, R (.alt f cs) s e → ∃ c ∈ cs, R c s e
  repeat_ : ∀ f mn mx g c s e, R (.repeat_ f mn mx g c) s e →
    ∃ k, (mx = sizeMax ∨ k ≤ mx) ∧ iterSpan (fun p q => R c p q) k s e
  group : ∀ f g nm c s e, R (.group f g nm c) s e → R c s e
  backRef : ∀ f g s e, ¬ R (.backRef f g) s e
  lookAhead : ∀ f neg c s e, ¬ R (.lookAhead f neg c) s e
  lookBehind : ∀ f neg c s e, ¬ R (.lookBehind f neg c) s e

section
variable {R : RegexNode → Nat → Nat → Prop}

theorem analyzeConcat_upTo (hR : Cuts R) {cs : List RegexNode}
    (ih : ∀ c ∈ cs, ∀ s e, R c s e → UpTo (analyzeRegex c).byteUpper (e - s)) :
    ∀ {o : RegexAnalysis} {s₀ s e : Nat}, s₀ ≤ s → UpTo o.byteUpper (s - s₀) → spanChain R cs s e →
      UpTo (analyzeConcat cs o).byteUpper (e - s₀) := by
  induction cs with
  | nil =>
    intro o s₀ s e _ ho h
    obtain rfl : s = e := h
    exact ho
  | cons c cs ihs =>
    rintro o s₀ s e hs ho ⟨m, h1, h2⟩
    have hm := hR.le c s m h1
    refine ihs (fun d hd => ih d (List.mem_cons_of_mem _ hd)) (hs.trans hm) ?_ h2
    rw [show m - s₀ = (s - s₀) + (m - s) by omega]
    exact ho.add (ih c List.mem_cons_self s m h1)

theorem analyzeAltRest_upTo_left {w : Nat} : ∀ {cs : List RegexNode} {o : RegexAnalysis}, UpTo o.byteUpper w →
    UpTo (analyzeAltRest cs o).byteUpper w
  | [], _, h => h
  | c :: cs, o, h => @analyzeAltRest_upTo_left _ cs (RegexAnalysis.altStep o (analyzeRegex c)) (UpTo.max_left h)

theorem analyzeAltRest_upTo {w : Nat} {cs : List RegexNode} {c : RegexNode} (hc : c ∈ cs)
    (h : UpTo (analyzeRegex c).byteUpper w) (o : RegexAnalysis) : UpTo (analyzeAltRest cs o).byteUpper w := by
  induction cs generalizing o with
  | nil => cases hc
  | cons d cs ih =>
    rw [analyzeAltRest]
    rcases List.mem_cons.1 hc with rfl | hc
    · exact analyzeAltRest_upTo_left (UpTo.max_right h)
    · exact ih hc _

theorem Cuts.width (hR : Cuts R) (n : RegexNode) : ∀ s e, R n s e → UpTo (analyzeRegex n).byteUpper (e - s) := by
  have hzero : ∀ {s e : Nat} {b : RegexBound}, s = e → UpTo b (e - s) := by
    rintro s e b rfl v -
    rw [Nat.sub_self]
    exact Nat.zero_le v
  induction n using RegexNode.recChildren with
  | empty f => exact fun s e h => hzero (hR.empty f s e h)
  | assert f k => exact fun s e h => hzero (hR.assert f k s e h)
  | literal f l =>
    intro s e h v hv
    rw [analyzeRegex, RegexAnalysis.literal] at hv
    dsimp only at hv
    split at hv
    · cases hv
    · rename_i hf
      cases hv
      exact hR.literal f l s e h (Bool.eq_false_of_not_eq_true hf)
  | dot f =>
    intro s e h v hv
    cases hv
    exact hR.dot f s e h
  | cls f k =>
    intro s e h v hv
    cases hv
    exact hR.cls f k s e h
  | concat f cs ih =>
    intro s e h
    exact analyzeConcat_upTo hR ih (Nat.le_refl s) (fun v _ => by rw [Nat.sub_self]; exact Nat.zero_le v)
      (hR.concat f cs s e h)
  | alt f cs ih =>
    intro s e h
    obtain ⟨c, hc, h⟩ := hR.alt f cs s e h
    have hw := ih c hc s e h
    cases cs with
    | nil => cases hc
    | cons d cs =>
      rw [analyzeRegex, analyzeAlt]
      rcases List.mem_cons.1 hc with rfl | hc
      · exact analyzeAltRest_upTo_left hw
      · exact analyzeAltRest_upTo hc hw _
  | repeat_ f mn mx g c ih =>
    intro s e h
    obtain ⟨k, hk, h⟩ := hR.repeat_ f mn mx g c s e h
    exact UpTo.repeat_ (hR.le c) ih hk h
  | group f g nm c ih => exact fun s e h => ih s e (hR.group f g nm c s e h)
  | backRef f g => exact fun s e h => absurd h (hR.backRef f g s e)
  | lookAhead f neg c ih => exact fun s e h => absurd h (hR.lookAhead f neg c s e)
  | lookBehind f neg c ih => exact fun s e h => absurd h (hR.lookBehind f neg c s e)

end

theorem decomposesAll_chain : ∀ {cs : List RegexNode} {s e : Nat}, DecomposesAll data cs s e →
    spanChain (Decomposes data) cs s e
  | [], _, _, h => h
  | _ :: _, _, _, ⟨m, h1, h2⟩ => ⟨m, h1, decomposesAll_chain h2⟩

theorem decomposes_cuts : Cuts (Decomposes data) where
  le n _ _ := Decomposes.le n
  empty _ _ _ h := h
  assert _ _ _ _ h := h
  literal f l s e h _ := by
    obtain ⟨-, rfl⟩ := h
    omega
  dot f s e h := by
    obtain ⟨h1, h2⟩ := h
    omega
  cls f k s e h := by
    obtain ⟨h1, h2⟩ := h
    omega
  concat _ _ _ _ h := decomposesAll_chain h
  alt _ _ _ _ h := decomposesAny_iff.1 h
  repeat_ _ _ _ _ _ _ _ h := by
    obtain ⟨k, -, hk, h⟩ := h
    exact ⟨k, hk, h⟩
  group _ _ _ _ _ _ h := h
  backRef _ _ _ _ h := h
  lookAhead _ _ _ _ _ h := h
  lookBehind _ _ _ _ _ h := h

/-- **A span is no wider than the upper bound of its tree.** -/
theorem Decomposes.width (n : RegexNode) : ∀ s e, Decomposes data n s e → UpTo (analyzeRegex n).byteUpper (e - s) :=
  decomposes_cuts.width n

/-! ## Mandatory literals -/

variable (data) in
/-- The literal stands somewhere in the span. -/
def Holds (l : Bytes) (s e : Nat) : Prop := ∃ x, s ≤ x ∧ x + l.length ≤ e ∧ occursAt data l x = true

theorem Holds.mono {l : Bytes} {s s' e e' : Nat} (h : Holds data l s e) (hs : s' ≤ s) (he : e ≤ e') : Holds data l s' e' := by
  obtain ⟨x, h1, h2, h3⟩ := h
  exact ⟨x, hs.trans h1, h2.trans he, h3⟩

theorem queryMandatoryAlt_some : ∀ {cs : List RegexNode} {acc : List Bytes} {l : Bytes},
    l ∈ queryMandatoryAlt cs (some acc) → l ∈ acc ∧ ∀ c ∈ cs, l ∈ queryMandatory c
  | [], _, _, h => ⟨h, fun _ hc => by cases hc⟩
  | c :: cs, acc, l, h => by
    rw [queryMandatoryAlt] at h
    obtain ⟨h1, h2⟩ := queryMandatoryAlt_some h
    obtain ⟨h3, h4⟩ := List.mem_filter.1 h1
    exact ⟨h3, List.forall_mem_cons.2 ⟨List.contains_iff_mem.1 h4, h2⟩⟩

theorem queryMandatoryAlt_mem {cs : List RegexNode} {l : Bytes} (h : l ∈ queryMandatoryAlt cs none) :
    ∀ c ∈ cs, l ∈ queryMandatory c := by
  cases cs with
  | nil => exact fun _ hc => (by cases hc)
  | cons c cs =>
    rw [queryMandatoryAlt] at h
    obtain ⟨h1, h2⟩ := queryMandatoryAlt_some h
    exact List.forall_mem_cons.2 ⟨h1, h2⟩

/-- The literal text since the last other child stands before the span of the children to come. -/
theorem queryMandatoryConcat_holds {cs : List RegexNode}
    (ih : ∀ c ∈ cs, ∀ s e, Decomposes data c s e → ∀ l ∈ queryMandatory c, l ≠ [] ∧ Holds data l s e) :
    ∀ {run : Bytes} {s₀ s e : Nat}, s₀ + run.length = s → (run = [] ∨ occursAt data run s₀ = true) →
      DecomposesAll data cs s e → ∀ l ∈ queryMandatoryConcat cs run, l ≠ [] ∧ Holds data l s₀ e := by
  have hrun : ∀ {run : Bytes} {s₀ s e : Nat}, s₀ + run.length = s → s ≤ e → (run = [] ∨ occursAt data run s₀ = true) →
      ∀ l ∈ (if run.isEmpty then [] else [run]), l ≠ [] ∧ Holds data l s₀ e := by
    intro run s₀ s e hs he hocc l hl
    split at hl
    · cases hl
    · rename_i hempty
      obtain rfl := List.mem_singleton.1 hl
      have hne : l ≠ [] := fun h => hempty (by rw [h]; rfl)
      exact ⟨hne, s₀, Nat.le_refl _, hs ▸ he, hocc.resolve_left hne⟩
  induction cs with
  | nil =>
    intro run s₀ s e hs hocc h l hl
    rw [queryMandatoryConcat] at hl
    exact hrun hs (Nat.le_of_eq h) hocc l hl
  | cons c cs ihs =>
    rintro run s₀ s e hs hocc ⟨m, h1, h2⟩ l hl
    have hm := Decomposes.le c h1
    have hme : m ≤ e := Decomposes.le (.concat {} cs) h2
    have hrest := @ihs (fun d hd => ih d (List.mem_cons_of_mem _ hd))
    rw [queryMandatoryConcat] at hl
    cases hc : c.sensitiveLiteral with
    | some lit =>
      rw [hc] at hl
      -- the run goes on
      obtain ⟨f, rfl⟩ : ∃ f, c = .literal f lit := by
        unfold RegexNode.sensitiveLiteral at hc
        split at hc
        · rename_i f l'
          split at hc
          · cases hc
          · cases hc
            exact ⟨f, rfl⟩
        · cases hc
      obtain ⟨hlit, rfl⟩ := h1
      refine hrest (by rw [List.length_append]; omega) (Or.inr ?_) h2 l hl
      rcases hocc with rfl | hocc
      · rwa [List.nil_append, show s₀ = s from hs]
      · exact (occursAt_append _ _ _ _).2 ⟨hocc, by rwa [hs]⟩
    | none =>
      rw [hc] at hl
      rcases List.mem_append.1 hl with hl | hl
      · rcases List.mem_append.1 hl with hl | hl
        · exact hrun hs (hm.trans hme) hocc l hl
        · obtain ⟨hne, hin⟩ := ih c List.mem_cons_self s m h1 l hl
          exact ⟨hne, hin.mono (by omega) hme⟩
      · obtain ⟨hne, hin⟩ := @hrest [] m m e rfl (Or.inl rfl) h2 l hl
        exact ⟨hne, hin.mono (by omega) (Nat.le_refl _)⟩

/-- **Every mandatory literal stands in a span that decomposes.** -/
theorem Decomposes.mandatory (n : RegexNode) : ∀ s e, Decomposes data n s e → ∀ l ∈ queryMandatory n,
    l ≠ [] ∧ Holds data l s e := by
  induction n using RegexNode.recChildren with
  | empty f => exact fun s e _ l hl => (by cases hl)
  | assert f k => exact fun s e _ l hl => (by cases hl)
  | literal f lit =>
    rintro s e ⟨hocc, rfl⟩ l hl
    rw [queryMandatory] at hl
    split at hl
    · cases hl
    · rename_i hempty
      obtain rfl := List.mem_singleton.1 hl
      refine ⟨fun h => hempty (by rw [h]; rfl), s, Nat.le_refl _, Nat.le_refl _, hocc⟩
  | dot f => exact fun s e _ l hl => (by cases hl)
  | cls f k => exact fun s e _ l hl => (by cases hl)
  | concat f cs ih =>
    intro s e h l hl
    exact queryMandatoryConcat_holds ih (show s + ([] : Bytes).length = s from rfl) (Or.inl rfl) h l hl
  | alt f cs ih =>
    intro s e h l hl
    obtain ⟨c, hc, h⟩ := decomposesAny_iff.1 h
    exact ih c hc s e h l (queryMandatoryAlt_mem hl c hc)
  | repeat_ f mn mx g c ih =>
    rintro s e ⟨k, hk, -, h⟩ l hl
    rw [queryMandatory] at hl
    split at hl
    · cases hl
    · cases k with
      | zero => omega
      | succ k =>
        obtain ⟨m, h1, h2⟩ := h
        obtain ⟨hne, hin⟩ := ih s m h1 l hl
        exact ⟨hne, hin.mono (Nat.le_refl _) (iterSpan_le (fun _ _ => Decomposes.le c) h2)⟩
  | group f g nm c ih => exact ih
  | backRef f g => exact fun s e h => h.elim
  | lookAhead f neg c ih => exact fun s e h => h.elim
  | lookBehind f neg c ih => exact fun s e h => h.elim

end

end Pergrep
