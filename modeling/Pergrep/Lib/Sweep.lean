import Mathlib.Algebra.BigOperators.Group.Finset.Basic
import Mathlib.Algebra.Order.Ring.Nat
import Mathlib.Data.Finset.Prod
import Mathlib.Data.List.Sort
import Mathlib.Order.Interval.Finset.Nat
/-!
# Sweep — the size of a union of intervals, in one pass

`sweep` goes over half-open intervals in the order of their starts with one interval open, which it closes when the next
starts past its end.  What it adds up is the number of points of the union (`sweep_eq`), which does not depend on the order the
intervals came in (`union_perm`).
-/
namespace Sweep

def union (xs : List (Nat × Nat)) : Finset Nat := xs.foldr (fun x points => Finset.Ico x.1 x.2 ∪ points) ∅

theorem mem_union {xs : List (Nat × Nat)} {p : Nat} : p ∈ union xs ↔ ∃ x ∈ xs, x.1 ≤ p ∧ p < x.2 := by
  induction xs with
  | nil => simp [union]
  | cons x xs ih =>
    change p ∈ Finset.Ico x.1 x.2 ∪ union xs ↔ _
    rw [Finset.mem_union, Finset.mem_Ico, ih]
    simp

theorem union_cons (x : Nat × Nat) (xs : List (Nat × Nat)) : union (x :: xs) = Finset.Ico x.1 x.2 ∪ union xs := rfl

theorem union_perm {xs ys : List (Nat × Nat)} (h : xs.Perm ys) : union xs = union ys := by
  ext p
  rw [mem_union, mem_union]
  exact exists_congr (fun x => and_congr_left (fun _ => h.mem_iff))

def sweep : List (Nat × Nat) → Nat → Nat → Nat
  | [], b, e => e - b
  | x :: xs, b, e =>
    if e < x.1 then (e - b) + sweep xs x.1 x.2
    else if e < x.2 then sweep xs b x.2
    else sweep xs b e

/-- **The pass counts the points** of the open interval and of those to come. -/
theorem sweep_eq : ∀ {xs : List (Nat × Nat)} {b e : Nat}, xs.Pairwise (fun x y => x.1 ≤ y.1) → (∀ x ∈ xs, b ≤ x.1) →
    sweep xs b e = (Finset.Ico b e ∪ union xs).card
  | [], b, e, _, _ => by
    rw [sweep, union, List.foldr_nil, Finset.union_empty, Nat.card_Ico]
  | x :: xs, b, e, hs, hb => by
    obtain ⟨hx, hs⟩ := List.pairwise_cons.1 hs
    have hbx := hb x List.mem_cons_self
    rw [sweep, union_cons]
    split
    · -- nothing to come starts before the next interval
      rename_i hlt
      have hdisjoint : Disjoint (Finset.Ico b e) (Finset.Ico x.1 x.2 ∪ union xs) := by
        rw [Finset.disjoint_left]
        intro p hp hq
        rw [Finset.mem_Ico] at hp
        rw [Finset.mem_union, Finset.mem_Ico, mem_union] at hq
        rcases hq with hq | ⟨y, hy, hq⟩
        · omega
        · have := hx y hy
          omega
      rw [Finset.card_union_of_disjoint hdisjoint, Nat.card_Ico, sweep_eq hs hx]
    split
    · have hjoin : Finset.Ico b e ∪ (Finset.Ico x.1 x.2 ∪ union xs) = Finset.Ico b x.2 ∪ union xs := by
        rw [← Finset.union_assoc]
        congr 1
        ext p
        rw [Finset.mem_union, Finset.mem_Ico, Finset.mem_Ico, Finset.mem_Ico]
        omega
      rw [hjoin, sweep_eq hs (fun y hy => hb y (List.mem_cons_of_mem x hy))]
    · have hjoin : Finset.Ico b e ∪ (Finset.Ico x.1 x.2 ∪ union xs) = Finset.Ico b e ∪ union xs := by
        rw [← Finset.union_assoc]
        congr 1
        ext p
        rw [Finset.mem_union, Finset.mem_Ico, Finset.mem_Ico]
        omega
      rw [hjoin, sweep_eq hs (fun y hy => hb y (List.mem_cons_of_mem x hy))]

end Sweep
