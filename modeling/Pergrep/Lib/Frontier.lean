import Mathlib.Data.List.Basic
import Mathlib.Order.Preorder.Finite
import Mathlib.Order.WithBot
import Mathlib.Tactic.Common
/-!
# Frontier — what nothing of a list is below

Every element of a list is measured in an order; `Beaten` says that something of the list is strictly below it.  A list is finite,
so what is beaten is beaten by something that is not (`exists_unbeaten`).  `split` puts each element on one of two sides, and
`leastFrom` is the first of the least, found by one pass.
-/
namespace Frontier

variable {α β : Type*}

section Order

variable [Preorder β] (f : α → β)

/-- Something of the list is strictly below. -/
def Beaten (l : List α) (a : α) : Prop := ∃ b ∈ l, f b < f a

/-- **What is beaten is beaten by something that is not.** -/
theorem exists_unbeaten {l : List α} {a : α} (h : Beaten f l a) : ∃ b ∈ l, ¬ Beaten f l b ∧ f b < f a := by
  obtain ⟨c, hc, hca⟩ := h
  have hfinite : {x | ∃ b ∈ l, f b = x}.Finite := (List.finite_toSet l).image f
  obtain ⟨x, hxc, ⟨b, hb, rfl⟩, hmin⟩ := hfinite.exists_le_minimal (a := f c) ⟨c, hc, rfl⟩
  refine ⟨b, hb, ?_, hxc.trans_lt hca⟩
  rintro ⟨d, hd, hdb⟩
  exact hdb.not_ge (hmin ⟨d, hd, rfl⟩ hdb.le)

theorem exists_unbeaten_of_mem {l : List α} {a : α} (ha : a ∈ l) : ∃ b ∈ l, ¬ Beaten f l b := by
  by_cases h : Beaten f l a
  · obtain ⟨b, hb, hnot, -⟩ := exists_unbeaten f h
    exact ⟨b, hb, hnot⟩
  · exact ⟨a, ha, h⟩

end Order

/-! ## Measures compared one by one -/

/-- Two measures are compared index by index: a greater one ends the comparison, and a smaller one is remembered. -/
def compare {ι : Type*} [LT β] [DecidableLT β] (x y : ι → β) : List ι → Bool → Bool
  | [], better => better
  | i :: is, better => if y i < x i then false else compare x y is (if x i < y i then true else better)

theorem compare_iff {ι : Type*} [LinearOrder β] (x y : ι → β) : ∀ (is : List ι) (better : Bool),
    compare x y is better = true ↔ (∀ i ∈ is, x i ≤ y i) ∧ (better = true ∨ ∃ i ∈ is, x i < y i)
  | [], better => by simp [compare]
  | i :: is, better => by
    rw [compare, List.forall_mem_cons, List.exists_mem_cons_iff]
    by_cases hgt : y i < x i
    · rw [if_pos hgt]
      exact iff_of_false Bool.false_ne_true (fun h => absurd h.1.1 (not_le.2 hgt))
    · rw [if_neg hgt, compare_iff x y is]
      by_cases hlt : x i < y i
      · rw [if_pos hlt]
        simp [not_lt.1 hgt, hlt]
      · rw [if_neg hlt]
        simp [not_lt.1 hgt, hlt]

/-- **The comparison is the strict order of the measures.** -/
theorem compare_iff_lt {ι : Type*} [LinearOrder β] {is : List ι} (hall : ∀ i, i ∈ is) (x y : ι → β) :
    compare x y is false = true ↔ x < y := by
  rw [compare_iff, Pi.lt_def, Pi.le_def]
  simp [hall]

/-! ## Sides -/

def split {γ : Type*} (p : α → Bool) (f g : α → γ) (l : List α) : List γ × List γ :=
  l.foldl (fun acc a => if p a then (acc.1 ++ [f a], acc.2) else (acc.1, acc.2 ++ [g a])) ([], [])

theorem split_eq {γ : Type*} (p : α → Bool) (f g : α → γ) (l : List α) :
    split p f g l = ((l.filter p).map f, (l.filter (fun a => !p a)).map g) := by
  have hfold : ∀ (l : List α) (xs ys : List γ),
      l.foldl (fun acc a => if p a then (acc.1 ++ [f a], acc.2) else (acc.1, acc.2 ++ [g a])) (xs, ys) =
        (xs ++ (l.filter p).map f, ys ++ (l.filter (fun a => !p a)).map g) := by
    intro l
    induction l with
    | nil => intro xs ys; simp
    | cons a l ih =>
      intro xs ys
      rw [List.foldl_cons]
      cases hp : p a with
      | true => rw [if_pos rfl, ih]; simp [hp]
      | false => rw [if_neg Bool.false_ne_true, ih]; simp [hp]
  have hall := hfold l [] []
  rwa [List.nil_append, List.nil_append] at hall

theorem mem_map_fst_filter {p : α × Nat → Bool} {q : α → Prop} {l : List α} (h : ∀ c ∈ l.zipIdx, p c = true ↔ q c.1) {a : α} :
    a ∈ (l.zipIdx.filter p).map Prod.fst ↔ a ∈ l ∧ q a := by
  rw [List.mem_map]
  constructor
  · rintro ⟨c, hc, rfl⟩
    obtain ⟨hmem, hp⟩ := List.mem_filter.1 hc
    exact ⟨List.fst_mem_of_mem_zipIdx hmem, (h c hmem).1 hp⟩
  · rintro ⟨ha, hq⟩
    obtain ⟨i, hi⟩ := List.getElem?_of_mem ha
    have hmem : (a, i) ∈ l.zipIdx := List.mk_mem_zipIdx_iff_getElem?.2 hi
    exact ⟨(a, i), List.mem_filter.2 ⟨hmem, (h (a, i) hmem).2 hq⟩, rfl⟩

/-! ## The first of the least -/

/-- The least value and its index, as a pass with strict comparisons finds them; `⊤` before there is one. -/
def leastFrom [LT β] [DecidableLT β] : List β → Nat → WithTop β → Nat → WithTop β × Nat
  | [], _, best, bestIdx => (best, bestIdx)
  | x :: xs, i, best, bestIdx => if (x : WithTop β) < best then leastFrom xs (i + 1) x i else leastFrom xs (i + 1) best bestIdx

/-- Of the values so far, the least and where it stands. -/
def Least [LinearOrder β] (l : List β) (best : WithTop β) (bestIdx : Nat) : Prop :=
  (l = [] ∧ best = ⊤) ∨ ∃ x, l[bestIdx]? = some x ∧ best = x ∧ ∀ y ∈ l, x ≤ y

theorem least_append_singleton [LinearOrder β] {l : List β} {best : WithTop β} {bestIdx : Nat} {x : β} (h : Least l best bestIdx) :
    if (x : WithTop β) < best then Least (l ++ [x]) x l.length else Least (l ++ [x]) best bestIdx := by
  rcases h with ⟨rfl, rfl⟩ | ⟨m, hm, rfl, hmin⟩
  · rw [if_pos (WithTop.coe_lt_top x)]
    exact Or.inr ⟨x, rfl, rfl, fun y hy => (List.mem_singleton.1 hy).ge⟩
  · by_cases hx : x < m
    · rw [if_pos (WithTop.coe_lt_coe.2 hx)]
      refine Or.inr ⟨x, List.getElem?_concat_length, rfl, fun y hy => ?_⟩
      rcases List.mem_append.1 hy with hy | hy
      · exact hx.le.trans (hmin y hy)
      · exact (List.mem_singleton.1 hy).ge
    · rw [if_neg (fun hlt => hx (WithTop.coe_lt_coe.1 hlt))]
      refine Or.inr ⟨m, ?_, rfl, fun y hy => ?_⟩
      · rw [List.getElem?_append_left (List.getElem?_eq_some_iff.1 hm).1, hm]
      · rcases List.mem_append.1 hy with hy | hy
        · exact hmin y hy
        · exact (List.mem_singleton.1 hy) ▸ not_lt.1 hx

/-- **The pass keeps the least of what it has seen.** -/
theorem leastFrom_least [LinearOrder β] : ∀ (xs l : List β) (best : WithTop β) (bestIdx : Nat), Least l best bestIdx →
    Least (l ++ xs) (leastFrom xs l.length best bestIdx).1 (leastFrom xs l.length best bestIdx).2
  | [], l, best, bestIdx, h => by rwa [List.append_nil]
  | x :: xs, l, best, bestIdx, h => by
    have hstep := least_append_singleton (x := x) h
    rw [leastFrom, List.append_cons]
    split
    · rename_i hlt
      rw [if_pos hlt] at hstep
      have ih := leastFrom_least xs (l ++ [x]) x l.length hstep
      rwa [List.length_append, List.length_singleton] at ih
    · rename_i hlt
      rw [if_neg hlt] at hstep
      have ih := leastFrom_least xs (l ++ [x]) best bestIdx hstep
      rwa [List.length_append, List.length_singleton] at ih

theorem leastFrom_eq_some [LinearOrder β] (xs : List β) (hne : xs ≠ []) :
    ∃ x, xs[(leastFrom xs 0 ⊤ 0).2]? = some x ∧ ∀ y ∈ xs, x ≤ y := by
  rcases leastFrom_least xs [] ⊤ 0 (Or.inl ⟨rfl, rfl⟩) with ⟨hnil, -⟩ | ⟨x, hx, -, hmin⟩
  · exact absurd hnil hne
  · exact ⟨x, hx, hmin⟩

end Frontier
