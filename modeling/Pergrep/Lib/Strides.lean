import Mathlib.Data.List.Basic
import Mathlib.Tactic.Common
/-!
# Strides — indices taken in order, each of which may pass over some after it

A loop goes through the indices, takes those it wants, and after one it has taken goes on at an index it is told (`walk`).  What
it takes is known without the loop: a wanted index that none taken before passes over (`mem_walk_iff`).  Where an index that
is taken stands for the indices up to another, every wanted index is stood for exactly when none is passed over beyond that
(`covered_iff`), and gaps are told by the indices alone exactly when nothing wanted follows it at once (`gaps_iff`).
-/
namespace Strides

variable (want : Nat → Bool) (reach : Nat → Nat)

/-- The indices that are taken; `skip` is where the loop goes on. -/
def walk : List Nat → Nat → List Nat
  | [], _ => []
  | i :: is, skip =>
    if i < skip then walk is skip
    else if !want i then walk is skip
    else i :: walk is (max skip (reach i))

/-- The index is wanted, and none that opens before it passes over it. -/
def Opens (i : Nat) : Prop := want i = true ∧ ∀ k, (h : k < i) → Opens k → reach k ≤ i
termination_by i

variable {want reach}

theorem opens_iff {i : Nat} : Opens want reach i ↔ want i = true ∧ ∀ k < i, Opens want reach k → reach k ≤ i := by
  rw [Opens]

theorem walk_sublist : ∀ (is : List Nat) (skip : Nat), (walk want reach is skip).Sublist is
  | [], _ => List.Sublist.slnil
  | i :: is, skip => by
    rw [walk]
    split
    · exact (walk_sublist is skip).cons i
    · split
      · exact (walk_sublist is skip).cons i
      · exact (walk_sublist is _).cons_cons i

/-- What the loop has taken tells where it goes on. -/
def Reached (want : Nat → Bool) (reach : Nat → Nat) (s skip : Nat) : Prop :=
  ∀ i, s ≤ i → (i < skip ↔ ∃ k < s, Opens want reach k ∧ i < reach k)

theorem reached_succ_of_not {s skip : Nat} (h : Reached want reach s skip) (hs : ¬ Opens want reach s) :
    Reached want reach (s + 1) skip := by
  intro i hi
  rw [h i (by omega)]
  constructor
  · rintro ⟨k, hk, hopen, hlt⟩
    exact ⟨k, by omega, hopen, hlt⟩
  · rintro ⟨k, hk, hopen, hlt⟩
    rcases Nat.lt_succ_iff_lt_or_eq.1 hk with hk | rfl
    · exact ⟨k, hk, hopen, hlt⟩
    · exact absurd hopen hs

theorem reached_succ_of_opens {s skip : Nat} (h : Reached want reach s skip) (hs : Opens want reach s) :
    Reached want reach (s + 1) (max skip (reach s)) := by
  intro i hi
  have hmax : i < max skip (reach s) ↔ i < skip ∨ i < reach s := by omega
  rw [hmax, h i (by omega)]
  constructor
  · rintro (⟨k, hk, hopen, hlt⟩ | hlt)
    · exact ⟨k, by omega, hopen, hlt⟩
    · exact ⟨s, by omega, hs, hlt⟩
  · rintro ⟨k, hk, hopen, hlt⟩
    rcases Nat.lt_succ_iff_lt_or_eq.1 hk with hk | rfl
    · exact Or.inl ⟨k, hk, hopen, hlt⟩
    · exact Or.inr hlt

theorem mem_walk_range' : ∀ (m s skip : Nat), Reached want reach s skip → ∀ i,
    i ∈ walk want reach (List.range' s m) skip ↔ (s ≤ i ∧ i < s + m) ∧ Opens want reach i
  | 0, s, skip, _, i => by
    refine iff_of_false List.not_mem_nil ?_
    rintro ⟨⟨h1, h2⟩, -⟩
    omega
  | m + 1, s, skip, hreached, i => by
    have hrange : ∀ {P : Prop}, (s = i → ¬ P) → (((s + 1 ≤ i ∧ i < s + 1 + m) ∧ P) ↔ ((s ≤ i ∧ i < s + (m + 1)) ∧ P)) := by
      intro P hne
      refine and_congr_left (fun hP => ?_)
      have hsi : s ≠ i := fun heq => hne heq hP
      omega
    -- an index is passed over by one that was taken, or is not wanted, or is taken
    have hpast : s < skip → ¬ Opens want reach s := by
      intro hlt hopen
      obtain ⟨k, hk, hk', hlt'⟩ := (hreached s (Nat.le_refl s)).1 hlt
      exact absurd ((opens_iff.1 hopen).2 k hk hk') (by omega)
    rw [List.range'_succ, walk]
    split
    · rename_i hlt
      have hnot := hpast hlt
      rw [mem_walk_range' m (s + 1) skip (reached_succ_of_not hreached hnot) i]
      exact hrange (fun heq => heq ▸ hnot)
    · rename_i hge
      split
      · rename_i hwant
        have hnot : ¬ Opens want reach s := by
          intro hopen
          rw [(opens_iff.1 hopen).1] at hwant
          cases hwant
        rw [mem_walk_range' m (s + 1) skip (reached_succ_of_not hreached hnot) i]
        exact hrange (fun heq => heq ▸ hnot)
      · rename_i hwant
        rw [Bool.not_eq_true, Bool.not_eq_false'] at hwant
        have hopen : Opens want reach s := by
          refine opens_iff.2 ⟨hwant, fun k hk hk' => ?_⟩
          by_contra hlt
          exact hge ((hreached s (Nat.le_refl s)).2 ⟨k, hk, hk', by omega⟩)
        rw [List.mem_cons, mem_walk_range' m (s + 1) _ (reached_succ_of_opens hreached hopen) i]
        constructor
        · rintro (rfl | ⟨hi, hi'⟩)
          · exact ⟨by omega, hopen⟩
          · exact ⟨by omega, hi'⟩
        · rintro ⟨hi, hi'⟩
          rcases Nat.lt_or_eq_of_le hi.1 with hlt | heq
          · exact Or.inr ⟨by omega, hi'⟩
          · exact Or.inl heq.symm

/-- **What is taken is what opens.** -/
theorem mem_walk_iff {n i : Nat} : i ∈ walk want reach (List.range n) 0 ↔ i < n ∧ Opens want reach i := by
  have hreached : Reached want reach 0 0 := by
    intro i _
    refine iff_of_false (Nat.not_lt_zero i) ?_
    rintro ⟨k, hk, -⟩
    exact Nat.not_lt_zero k hk
  rw [List.range_eq_range', mem_walk_range' n 0 0 hreached i, Nat.zero_add, and_iff_right (Nat.zero_le i)]

theorem walk_pairwise (n : Nat) : (walk want reach (List.range n) 0).Pairwise (· < ·) :=
  List.pairwise_lt_range.sublist (walk_sublist _ _)

/-! ## Neighbours -/

section Neighbours

variable {n k x y : Nat}

theorem walk_next_lt (hx : (walk want reach (List.range n) 0)[k]? = some x)
    (hy : (walk want reach (List.range n) 0)[k + 1]? = some y) : x < y := by
  obtain ⟨hk, rfl⟩ := List.getElem?_eq_some_iff.1 hx
  obtain ⟨hk', rfl⟩ := List.getElem?_eq_some_iff.1 hy
  exact List.pairwise_iff_getElem.1 (walk_pairwise n) k (k + 1) hk hk' (Nat.lt_succ_self k)

theorem exists_next (hx : (walk want reach (List.range n) 0)[k]? = some x) (hy : Opens want reach y) (hxy : x < y)
    (hyn : y < n) (hfirst : ∀ z, x < z → z < y → ¬ Opens want reach z) :
    (walk want reach (List.range n) 0)[k + 1]? = some y := by
  obtain ⟨j, hj, rfl⟩ := List.getElem_of_mem (mem_walk_iff.2 ⟨hyn, hy⟩)
  obtain ⟨hk, rfl⟩ := List.getElem?_eq_some_iff.1 hx
  have hsorted := List.pairwise_iff_getElem.1 (@walk_pairwise want reach n)
  have hkj : k < j := by
    by_contra hle
    rcases Nat.lt_or_eq_of_le (Nat.not_lt.1 hle) with hlt | heq
    · exact absurd (hsorted j k hj hk hlt) (by omega)
    · subst heq
      exact Nat.lt_irrefl _ hxy
  rcases Nat.lt_or_eq_of_le (Nat.succ_le_of_lt hkj) with hlt | heq
  · have hk' : k + 1 < (walk want reach (List.range n) 0).length := by omega
    refine absurd (mem_walk_iff.1 (List.getElem_mem hk')).2 (hfirst _ ?_ ?_)
    · exact hsorted k (k + 1) hk hk' (Nat.lt_succ_self k)
    · exact hsorted (k + 1) j hk' hj hlt
  · subst heq
    exact List.getElem?_eq_getElem hj

end Neighbours

/-! ## What is stood for -/

section Stands

variable {shown : Nat → Nat} {n : Nat}

/-- An index stands for itself and for those up to another, and what it passes over goes at least as far. -/
structure Stands (want : Nat → Bool) (reach shown : Nat → Nat) : Prop where
  self : ∀ i, i ≤ shown i
  reach : ∀ i, shown i < max (i + 1) (reach i)

theorem shown_lt (hstands : Stands want reach shown) {x y : Nat} (hx : Opens want reach x) (hy : Opens want reach y)
    (hxy : x < y) : shown x < y := by
  have hle := (opens_iff.1 hy).2 x hxy hx
  have hlt := hstands.reach x
  omega

/-- Nothing that is needed is passed over beyond what is stood for. -/
def Kept (want : Nat → Bool) (reach shown : Nat → Nat) (n : Nat) (need : Nat → Prop) : Prop :=
  ∀ i, Opens want reach i → ∀ j, shown i < j → j < reach i → j < n → ¬ need j

/-- **Every index that is needed is stood for** exactly when none is passed over beyond that. -/
theorem covered_iff (hstands : Stands want reach shown) {need : Nat → Prop} (hneed : ∀ j, need j → want j = true) :
    (∀ j < n, need j → ∃ i ∈ walk want reach (List.range n) 0, i ≤ j ∧ j ≤ shown i) ↔ Kept want reach shown n need := by
  constructor
  · intro h i hi j hij hj hjn hwant
    obtain ⟨x, hx, hxj, hjx⟩ := h j hjn hwant
    have hopen := (mem_walk_iff.1 hx).2
    rcases Nat.lt_trichotomy x i with hlt | rfl | hgt
    · have hlt' := shown_lt hstands hopen hi hlt
      have hself := hstands.self i
      omega
    · omega
    · have hle := (opens_iff.1 hopen).2 i hgt hi
      omega
  · intro h j hjn hj
    by_cases hopen : Opens want reach j
    · exact ⟨j, mem_walk_iff.2 ⟨hjn, hopen⟩, Nat.le_refl j, hstands.self j⟩
    · rw [opens_iff, not_and] at hopen
      have hpast := hopen (hneed j hj)
      simp only [not_forall, Nat.not_le] at hpast
      obtain ⟨k, hk, hkopen, hlt⟩ := hpast
      refine ⟨k, mem_walk_iff.2 ⟨by omega, hkopen⟩, Nat.le_of_lt hk, ?_⟩
      by_contra hnot
      exact h k hkopen j (by omega) hlt hjn hj

/-- Nothing wanted follows at once what an index stands for beyond itself. -/
def Apart (want : Nat → Bool) (reach shown : Nat → Nat) (n : Nat) : Prop :=
  ∀ i, Opens want reach i → i < shown i → shown i + 1 < n → want (shown i + 1) = false

/-- **Gaps are told by the indices alone** exactly when nothing wanted follows at once what is stood for, if nothing is lost. -/
theorem gaps_iff (hstands : Stands want reach shown) (hkept : Kept want reach shown n (fun j => want j = true)) :
    (∀ k x y, (walk want reach (List.range n) 0)[k]? = some x → (walk want reach (List.range n) 0)[k + 1]? = some y →
      (x + 1 < y ↔ shown x + 1 < y)) ↔ Apart want reach shown n := by
  constructor
  · intro h i hi hlong hn
    by_contra hwant
    rw [Bool.not_eq_false] at hwant
    have hreach : reach i ≤ shown i + 1 := by
      by_contra hgt
      exact hkept i hi (shown i + 1) (Nat.lt_succ_self _) (by omega) hn hwant
    have hfar := hstands.reach i
    -- what follows is taken next, since what opens before it has been passed over
    have hbetween : ∀ z, i < z → z < shown i + 1 → ¬ Opens want reach z := by
      intro z hiz hz hopen
      have hle := (opens_iff.1 hopen).2 i hiz hi
      omega
    have hopen : Opens want reach (shown i + 1) := by
      refine opens_iff.2 ⟨hwant, fun k hk hkopen => ?_⟩
      rcases Nat.lt_trichotomy k i with hlt | rfl | hgt
      · have hle := (opens_iff.1 hi).2 k hlt hkopen
        omega
      · exact hreach
      · exact absurd hkopen (hbetween k hgt hk)
    obtain ⟨k, hk, hget⟩ := List.getElem_of_mem (mem_walk_iff.2 ⟨by omega, hi⟩ : i ∈ walk want reach (List.range n) 0)
    have hx : (walk want reach (List.range n) 0)[k]? = some i := by rw [List.getElem?_eq_getElem hk, hget]
    have hy := exists_next hx hopen (by omega) hn hbetween
    have hgap := (h k i (shown i + 1) hx hy).1 (by omega)
    exact Nat.lt_irrefl _ hgap
  · intro h k x y hx hy
    have hxopen := (mem_walk_iff.1 (List.mem_of_getElem? hx)).2
    obtain ⟨hyn, hyopen⟩ := mem_walk_iff.1 (List.mem_of_getElem? hy)
    have hlt := walk_next_lt hx hy
    have hshown := shown_lt hstands hxopen hyopen hlt
    have hself := hstands.self x
    constructor
    · intro hgap
      by_contra hnot
      have heq : y = shown x + 1 := by omega
      have hwant := h x hxopen (by omega) (by omega)
      rw [← heq, (opens_iff.1 hyopen).1] at hwant
      cases hwant
    · intro hgap
      omega

end Stands

end Strides
