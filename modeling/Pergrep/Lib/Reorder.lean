import Mathlib.Data.List.Sort
import Mathlib.Order.Lattice
/-!
# Reorder — what the order of a list does not decide

A sort by a strict order may do as it likes with elements the order does not tell apart (`Sorter`): it forgets the order of
its argument, whichever sort it is, when there are no two of them (`sorters_agree_iff`).  The first of the least elements
comes from the order when there are several (`least_first`), the number of pairs in a symmetric relation never does
(`countPairs_perm`).
-/
namespace Reorder

variable {α κ : Type*}

/-! ## Strict orders with ties -/

/-- A strict order in which being tied is transitive. -/
structure WeakOrder (lt : α → α → Prop) : Prop where
  asymm : ∀ {x y}, lt x y → ¬ lt y x
  trans : ∀ {x y z}, ¬ lt y x → ¬ lt z y → ¬ lt z x

def thenBy [DecidableEq κ] [LT κ] (key : α → κ) (lt : α → α → Prop) (x y : α) : Prop :=
  if key x ≠ key y then key x < key y else lt x y

theorem WeakOrder.thenBy [DecidableEq κ] [LT κ] [LE κ] [Std.IsLinearOrder κ] [Std.LawfulOrderLT κ]
    {lt : α → α → Prop} (h : WeakOrder lt) (key : α → κ) : WeakOrder (thenBy key lt) where
  asymm {x y} hxy := by
    unfold Reorder.thenBy at *
    by_cases hkey : key x = key y
    · rw [if_neg (not_not.2 hkey)] at hxy
      rw [if_neg (not_not.2 hkey.symm)]
      exact h.asymm hxy
    · rw [if_pos hkey] at hxy
      rw [if_pos (Ne.symm hkey)]
      exact fun hyx => Std.lt_irrefl (Std.lt_trans hxy hyx)
  trans {x y z} hyx hzy := by
    unfold Reorder.thenBy at *
    by_cases hxy : key y = key x
    · rw [if_neg (not_not.2 hxy)] at hyx
      rw [hxy] at hzy
      by_cases hz : key z = key x
      · rw [if_neg (not_not.2 hz)] at hzy ⊢
        exact h.trans hyx hzy
      · rw [if_pos hz] at hzy ⊢
        exact hzy
    · rw [if_pos hxy] at hyx
      have hlt : key x < key y := Std.lt_of_le_of_ne (Std.not_lt.1 hyx) (Ne.symm hxy)
      have hle : key y ≤ key z := by
        by_cases hz : key z = key y
        · rw [hz]
          exact Std.le_refl _
        · rw [if_pos hz] at hzy
          exact Std.not_lt.1 hzy
      have hxz : key x < key z := Std.lt_of_lt_of_le hlt hle
      rw [if_pos (fun h => Std.lt_irrefl (h ▸ hxz))]
      exact fun hzx => Std.lt_irrefl (Std.lt_trans hxz hzx)

/-! ## Sorts -/

/-- A sort: of the elements of its argument, none comes before a smaller one. -/
structure Sorter (lt : α → α → Prop) where
  sort : List α → List α
  perm : ∀ xs, (sort xs).Perm xs
  sorted : ∀ xs, (sort xs).Pairwise (fun x y => ¬ lt y x)

def Tells (lt : α → α → Prop) (xs : List α) : Prop := ∀ x ∈ xs, ∀ y ∈ xs, ¬ lt x y → ¬ lt y x → x = y

instance [DecidableEq α] (lt : α → α → Prop) [DecidableRel lt] (xs : List α) : Decidable (Tells lt xs) :=
  inferInstanceAs (Decidable (∀ x ∈ xs, ∀ y ∈ xs, ¬ lt x y → ¬ lt y x → x = y))

def stable {lt : α → α → Prop} [DecidableRel lt] (h : WeakOrder lt) : Sorter lt where
  sort xs := xs.insertionSort (fun x y => ¬ lt y x)
  perm xs := List.perm_insertionSort _ xs
  sorted xs := by
    have : Std.Total (fun x y => ¬ lt y x) := ⟨fun x y => by
      by_cases hyx : lt y x
      · exact Or.inr (h.asymm hyx)
      · exact Or.inl hyx⟩
    have : IsTrans α (fun x y => ¬ lt y x) := ⟨fun x y z hyx hzy => h.trans hyx hzy⟩
    exact List.pairwise_insertionSort _ xs

theorem stable_ties {lt : α → α → Prop} [DecidableRel lt] (h : WeakOrder lt) (x : α) (xs : List α) :
    ((stable h).sort xs).filter (fun y => ¬ lt x y ∧ ¬ lt y x) = xs.filter (fun y => ¬ lt x y ∧ ¬ lt y x) := by
  have hties : (xs.filter (fun y => ¬ lt x y ∧ ¬ lt y x)).Pairwise (fun y z => ¬ lt z y) :=
    List.pairwise_of_forall_mem_list (fun y hy z hz => by
      have hy := of_decide_eq_true (List.mem_filter.1 hy).2
      have hz := of_decide_eq_true (List.mem_filter.1 hz).2
      exact h.trans hy.1 hz.2)
  have hsub := (List.sublist_insertionSort hties (List.filter_sublist)).filter (fun y => ¬ lt x y ∧ ¬ lt y x)
  rw [List.filter_filter, List.filter_congr (fun _ _ => Bool.and_self _)] at hsub
  exact (hsub.eq_of_length (((stable h).perm xs).filter _).length_eq.symm).symm

theorem Sorter.eq_of_tells {lt : α → α → Prop} (S : Sorter lt) {xs ys : List α} (hperm : ys.Perm xs) (h : Tells lt xs) :
    S.sort ys = S.sort xs := by
  have hp : (S.sort ys).Perm (S.sort xs) := (S.perm ys).trans (hperm.trans (S.perm xs).symm)
  refine List.Perm.eq_of_pairwise (fun x y hx hy hyx hxy => ?_) (S.sorted ys) (S.sorted xs) hp
  exact h x ((S.perm xs).mem_iff.1 (hp.mem_iff.1 hx)) y ((S.perm xs).mem_iff.1 hy) hxy hyx

theorem exists_perm_cons_cons {x y : α} {xs : List α} (hx : x ∈ xs) (hy : y ∈ xs) (hne : x ≠ y) :
    ∃ zs, (x :: y :: zs).Perm xs := by
  obtain ⟨s, t, rfl⟩ := List.append_of_mem hx
  have hy : y ∈ s ++ t := by
    rw [List.mem_append, List.mem_cons] at hy
    rw [List.mem_append]
    rcases hy with hy | rfl | hy
    · exact Or.inl hy
    · exact absurd rfl hne
    · exact Or.inr hy
  obtain ⟨u, v, huv⟩ := List.append_of_mem hy
  exact ⟨u ++ v, (List.Perm.cons x (List.perm_middle.symm.trans (by rw [huv]))).trans List.perm_middle.symm⟩

/-- **Every sort forgets the order of its argument when no two elements are tied**, and only then. -/
theorem sorters_agree_iff {lt : α → α → Prop} [DecidableRel lt] (h : WeakOrder lt) (xs : List α) :
    (∀ S : Sorter lt, ∀ ys, ys.Perm xs → S.sort ys = S.sort xs) ↔ Tells lt xs := by
  constructor
  · intro hagree x hx y hy hxy hyx
    by_contra hne
    obtain ⟨zs, hzs⟩ := exists_perm_cons_cons hx hy hne
    have hswap := (hagree (stable h) _ hzs).trans (hagree (stable h) _ ((List.Perm.swap x y zs).trans hzs)).symm
    have hties := congrArg (List.filter (fun z => ¬ lt x z ∧ ¬ lt z x)) hswap
    have hxx : ¬ lt x x := fun hlt => h.asymm hlt hlt
    rw [stable_ties, stable_ties] at hties
    have hx := decide_eq_true (And.intro hxx hxx)
    have hy := decide_eq_true (And.intro hxy hyx)
    rw [List.filter_cons, if_pos hx, @List.filter_cons _ y (x :: zs), if_pos hy] at hties
    exact hne (List.cons.inj hties).1
  · intro ht S ys hperm
    exact S.eq_of_tells hperm ht

/-! ## The first of the least -/

variable {F : Type*} [LinearOrder F] (cost : α → F)

/-- `x`, or the first of the elements that cost the least when they cost less. -/
def least (x : α) (xs : List α) : α := xs.foldl (fun best y => if cost y < cost best then y else best) x

/-- `y` costs less than `x` and no more than any of the elements. -/
def IsLeast (x : α) (xs : List α) (y : α) : Prop := y ∈ xs ∧ cost y < cost x ∧ ∀ z ∈ xs, cost y ≤ cost z

theorem least_cons (x y : α) (xs : List α) :
    least cost x (y :: xs) = least cost (if cost y < cost x then y else x) xs := rfl

theorem least_le (xs : List α) : ∀ x, cost (least cost x xs) ≤ cost x ∧ ∀ z ∈ xs, cost (least cost x xs) ≤ cost z := by
  induction xs with
  | nil => exact fun x => ⟨le_refl _, fun z hz => nomatch hz⟩
  | cons y xs ih =>
    intro x
    rw [least_cons]
    have hboth : cost (if cost y < cost x then y else x) ≤ cost x ∧ cost (if cost y < cost x then y else x) ≤ cost y := by
      split
      · rename_i hlt
        exact ⟨le_of_lt hlt, le_refl _⟩
      · rename_i hlt
        exact ⟨le_refl _, not_lt.1 hlt⟩
    obtain ⟨hle, hall⟩ := ih (if cost y < cost x then y else x)
    refine ⟨hle.trans hboth.1, fun z hz => ?_⟩
    rcases List.mem_cons.1 hz with rfl | hz
    · exact hle.trans hboth.2
    · exact hall z hz

theorem least_mem (xs : List α) : ∀ x, least cost x xs = x ∨ (least cost x xs ∈ xs ∧ cost (least cost x xs) < cost x) := by
  induction xs with
  | nil => exact fun x => Or.inl rfl
  | cons y xs ih =>
    intro x
    rw [least_cons]
    by_cases hlt : cost y < cost x
    · rw [if_pos hlt]
      rcases ih y with h | ⟨h, hy⟩
      · rw [h]
        exact Or.inr ⟨List.mem_cons_self, hlt⟩
      · exact Or.inr ⟨List.mem_cons_of_mem y h, hy.trans hlt⟩
    · rw [if_neg hlt]
      rcases ih x with h | ⟨h, hx⟩
      · exact Or.inl h
      · exact Or.inr ⟨List.mem_cons_of_mem y h, hx⟩

theorem least_first {x y : α} {xs : List α} (h : IsLeast cost x (y :: xs) y) : least cost x (y :: xs) = y := by
  rw [least_cons, if_pos h.2.1]
  rcases least_mem cost xs y with hy | ⟨hmem, hlt⟩
  · exact hy
  · exact absurd hlt (not_lt.2 (h.2.2 _ (List.mem_cons_of_mem y hmem)))

theorem IsLeast.perm {x y : α} {xs ys : List α} (hperm : ys.Perm xs) (h : IsLeast cost x xs y) : IsLeast cost x ys y :=
  ⟨hperm.mem_iff.2 h.1, h.2.1, fun z hz => h.2.2 z (hperm.mem_iff.1 hz)⟩

/-- **What is read of the least element does not depend on the order when it is the same for all of them**, and only
then. -/
theorem least_agree_iff {β : Type*} (p : α → Bool) (f : α → β) (x : α) (xs : List α) :
    (∀ ys : List α, ys.Perm xs → f (least cost x (ys.filter p)) = f (least cost x (xs.filter p))) ↔
      ∀ y z, IsLeast cost x (xs.filter p) y → IsLeast cost x (xs.filter p) z → f y = f z := by
  constructor
  · intro h
    have hfirst : ∀ y, IsLeast cost x (xs.filter p) y → f y = f (least cost x (xs.filter p)) := by
      intro y hy
      obtain ⟨hmem, hp⟩ := List.mem_filter.1 hy.1
      obtain ⟨s, t, rfl⟩ := List.append_of_mem hmem
      have hperm : (y :: (s ++ t)).Perm (s ++ y :: t) := List.perm_middle.symm
      have hleast := hy.perm cost (hperm.filter p)
      rw [List.filter_cons, if_pos hp] at hleast
      rw [← h _ hperm, List.filter_cons, if_pos hp, least_first cost hleast]
    exact fun y z hy hz => (hfirst y hy).trans (hfirst z hz).symm
  · intro h ys hperm
    have hfilter := hperm.filter p
    obtain ⟨hle, hall⟩ := least_le cost (xs.filter p) x
    obtain ⟨hle', hall'⟩ := least_le cost (ys.filter p) x
    rcases least_mem cost (xs.filter p) x with hx | ⟨hmem, hlt⟩
    · rcases least_mem cost (ys.filter p) x with hy | ⟨hmem', hlt'⟩
      · rw [hx, hy]
      · have hno := hall _ (hfilter.mem_iff.1 hmem')
        rw [hx] at hno
        exact absurd hlt' (not_lt.2 hno)
    · rcases least_mem cost (ys.filter p) x with hy | ⟨hmem', hlt'⟩
      · have hno := hall' _ (hfilter.mem_iff.2 hmem)
        rw [hy] at hno
        exact absurd hlt (not_lt.2 hno)
      · exact h _ _ (IsLeast.perm cost hfilter.symm ⟨hmem', hlt', hall'⟩) ⟨hmem, hlt, hall⟩

/-! ## Pairs -/

/-- The pairs of places of the list, the first before the second, that are in the relation. -/
def countPairs (r : α → α → Bool) : List α → Nat
  | [] => 0
  | x :: xs => xs.countP (r x) + countPairs r xs

/-- **The pairs in a symmetric relation** do not depend on the order. -/
theorem countPairs_perm {r : α → α → Bool} (hr : ∀ x y, r x y = r y x) {xs ys : List α} (h : xs.Perm ys) :
    countPairs r xs = countPairs r ys := by
  induction h with
  | nil => rfl
  | cons x h ih => rw [countPairs, countPairs, h.countP_eq, ih]
  | swap x y l =>
    simp only [countPairs, List.countP_cons, hr y x]
    omega
  | trans _ _ ih ih' => rw [ih, ih']

end Reorder
