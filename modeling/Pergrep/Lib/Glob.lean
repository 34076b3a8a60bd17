import Mathlib.Data.List.Basic
import Mathlib.Data.List.Count
import Mathlib.Tactic.Common
/-!
# Glob — patterns that are lists of tokens

A pattern is a list of tokens, and a token takes a piece off the front of a text: `ends t text` lists what it can leave.  A
text is accepted when the tokens, one after the other, can leave nothing (`accepts`), which is when it can be cut into pieces
for them (`accepts_iff`).  What each token says of its piece holds of all of them (`Run.forall₂`), so that letters can be
counted (`Run.count_le`, `Run.count_taken_iff`); what some token says of its on some way is found along the way
(`passes_iff`).
-/
namespace Glob

variable {τ α : Type*} (ends : τ → List α → List (List α))

def accepts : List τ → List α → Bool
  | [], text => text.isEmpty
  | t :: ts, text => (ends t text).any (accepts ts)

/-- The tokens take the pieces, one each, and the whole text. -/
inductive Run : List τ → List α → List (List α) → Prop
  | nil : Run [] [] []
  | cons {t ts piece rest ps} : rest ∈ ends t (piece ++ rest) → Run ts rest ps → Run (t :: ts) (piece ++ rest) (piece :: ps)

def FromFront : Prop := ∀ t text, ∀ rest ∈ ends t text, rest <:+ text

variable {ends}

/-- **A text is accepted when it can be cut into pieces for the tokens.** -/
theorem accepts_iff (h : FromFront ends) (ts : List τ) : ∀ text, accepts ends ts text = true ↔ ∃ ps, Run ends ts text ps := by
  induction ts with
  | nil =>
    intro text
    rw [accepts, List.isEmpty_iff]
    constructor
    · rintro rfl
      exact ⟨[], Run.nil⟩
    · rintro ⟨_, hrun⟩
      cases hrun
      rfl
  | cons t ts ih =>
    intro text
    rw [accepts, List.any_eq_true]
    constructor
    · rintro ⟨rest, hrest, hacc⟩
      obtain ⟨piece, rfl⟩ := h t text rest hrest
      obtain ⟨ps, hps⟩ := (ih rest).1 hacc
      exact ⟨piece :: ps, Run.cons hrest hps⟩
    · rintro ⟨_, hrun⟩
      cases hrun with
      | cons hrest hps => exact ⟨_, hrest, (ih _).2 ⟨_, hps⟩⟩

/-- What holds of a token and a piece it takes out of the text holds of all the tokens and their pieces. -/
theorem Run.forall₂ {P : τ → List α → Prop} {ts : List τ} {text : List α} {ps : List (List α)} (h : Run ends ts text ps)
    (hP : ∀ t ∈ ts, ∀ piece rest, piece ++ rest <:+ text → rest ∈ ends t (piece ++ rest) → P t piece) :
    List.Forall₂ P ts ps := by
  induction h with
  | nil => exact List.Forall₂.nil
  | @cons t ts piece rest ps hrest _ ih =>
    refine List.Forall₂.cons (hP t List.mem_cons_self piece rest List.suffix_rfl hrest) (ih (fun u hu q r hq hr => ?_))
    exact hP u (List.mem_cons_of_mem t hu) q r (hq.trans (List.suffix_append _ _)) hr

theorem Run.letters {ts us : List τ} {xs rest : List α} {ps : List (List α)}
    (h : List.Forall₂ (fun t x => ∀ rest, rest ∈ ends t (x :: rest)) ts xs) (hrun : Run ends us rest ps) :
    Run ends (ts ++ us) (xs ++ rest) (xs.map (fun x => [x]) ++ ps) := by
  induction h with
  | nil => exact hrun
  | @cons t x ts xs hx _ ih => exact @Run.cons _ _ ends t _ [x] _ _ (hx _) ih

/-! ## Somewhere on a way -/

/-- On some way through the text a token leaves what `marked` lists for it. -/
def passes (ends marked : τ → List α → List (List α)) : List τ → List α → Bool
  | [], _ => false
  | t :: ts, text => (marked t text).any (accepts ends ts) || (ends t text).any (passes ends marked ts)

/-- **A marked step is passed** when the text can be cut so that some token gets a marked piece. -/
theorem passes_iff (h : FromFront ends) {marked : τ → List α → List (List α)} (hm : FromFront marked)
    {P : τ → List α → Prop} : ∀ (ts : List τ) (text : List α),
      (∀ t ∈ ts, ∀ piece rest, rest ∈ marked t (piece ++ rest) ↔ rest ∈ ends t (piece ++ rest) ∧ P t piece) →
      (passes ends marked ts text = true ↔
        ∃ ps, Run ends ts text ps ∧ ¬ List.Forall₂ (fun t piece => ¬ P t piece) ts ps)
  | [], text, _ => by
    refine ⟨fun hp => (nomatch hp), ?_⟩
    rintro ⟨ps, hrun, hps⟩
    cases hrun
    exact absurd List.Forall₂.nil hps
  | t :: ts, text, hP => by
    have ih := fun rest => passes_iff h hm (P := P) ts rest (fun u hu => hP u (List.mem_cons_of_mem t hu))
    rw [passes, Bool.or_eq_true, List.any_eq_true, List.any_eq_true]
    constructor
    · rintro (⟨rest, hrest, hacc⟩ | ⟨rest, hrest, hpass⟩)
      · obtain ⟨piece, rfl⟩ := hm t text rest hrest
        obtain ⟨ps, hps⟩ := (accepts_iff h ts rest).1 hacc
        have hmark := (hP t List.mem_cons_self piece rest).1 hrest
        exact ⟨piece :: ps, Run.cons hmark.1 hps, fun hall => (List.forall₂_cons.1 hall).1 hmark.2⟩
      · obtain ⟨piece, rfl⟩ := h t text rest hrest
        obtain ⟨ps, hps, hmark⟩ := (ih rest).1 hpass
        exact ⟨piece :: ps, Run.cons hrest hps, fun hall => hmark (List.forall₂_cons.1 hall).2⟩
    · rintro ⟨_, hrun, hmark⟩
      cases hrun with
      | @cons _ _ piece rest ps hrest hps =>
        by_cases hpiece : P t piece
        · exact Or.inl ⟨rest, (hP t List.mem_cons_self piece rest).2 ⟨hrest, hpiece⟩, (accepts_iff h ts rest).2 ⟨ps, hps⟩⟩
        · exact Or.inr ⟨rest, hrest, (ih rest).2 ⟨ps, hps, fun hall => hmark (List.Forall₂.cons hpiece hall)⟩⟩

/-! ## Counting a letter -/

def taken (p : τ → Bool) : List τ → List (List α) → List α
  | t :: ts, piece :: ps => (if p t then piece else []) ++ taken p ts ps
  | _, _ => []

variable [BEq α]

theorem Run.count_le {a : α} {k : Nat} {ts : List τ} {text : List α} {ps : List (List α)} (h : Run ends ts text ps)
    (hk : ∀ t ∈ ts, ∀ piece rest, rest ∈ ends t (piece ++ rest) → piece.count a ≤ k) : text.count a ≤ k * ts.length := by
  induction h with
  | nil => exact Nat.le_refl _
  | @cons t ts piece rest ps hrest _ ih =>
    have hpiece := hk t List.mem_cons_self piece rest hrest
    have htail := ih (fun u hu => hk u (List.mem_cons_of_mem t hu))
    rw [List.count_append, List.length_cons, Nat.mul_add, Nat.mul_one]
    omega

/-- A letter that the other tokens do not take is taken by those in `p`, each time it occurs. -/
theorem Run.count_taken_iff {a : α} (p : τ → Bool) {ts : List τ} {text : List α} {ps : List (List α)}
    (h : Run ends ts text ps) :
    text.count a = (taken p ts ps).count a ↔ List.Forall₂ (fun t piece => p t = false → piece.count a = 0) ts ps := by
  have hle : ∀ {ts : List τ} {text : List α} {ps : List (List α)}, Run ends ts text ps →
      (taken p ts ps).count a ≤ text.count a := by
    intro ts text ps h
    induction h with
    | nil => exact Nat.le_refl _
    | @cons t ts piece rest ps _ _ ih =>
      rw [taken, List.count_append, List.count_append]
      split
      · omega
      · rw [List.count_nil]
        omega
  induction h with
  | nil => exact ⟨fun _ => List.Forall₂.nil, fun _ => rfl⟩
  | @cons t ts piece rest ps _ hrun ih =>
    have hrest := hle hrun
    rw [List.forall₂_cons, taken, List.count_append, List.count_append]
    cases p t with
    | true =>
      rw [if_pos rfl]
      exact ⟨fun h => ⟨fun hf => (nomatch hf), ih.1 (by omega)⟩, fun h => by rw [ih.2 h.2]⟩
    | false =>
      rw [if_neg Bool.false_ne_true, List.count_nil]
      exact ⟨fun h => ⟨fun _ => by omega, ih.1 (by omega)⟩, fun h => by rw [h.1 rfl, ih.2 h.2]⟩

end Glob
