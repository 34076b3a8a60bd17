import Mathlib.Order.MinMax
import Mathlib.Tactic.Common
/-!
# Intervals — lists of half-open intervals, and what two of them share

The ends of the intervals of a list go up along it (`Rising`), but the intervals may overlap.  `common` walks two such lists
with two fingers and gives the overlaps it meets; every point of both lists lies in one of them (`covers_common`), and they
are rising again.
-/
namespace Intervals

variable {α : Type*} [LinearOrder α]

def Rising (xs : List (α × α)) : Prop := xs.Pairwise (fun x y => x.1 ≤ y.1 ∧ x.2 ≤ y.2)

def Covers (xs : List (α × α)) (s : α) : Prop := ∃ x ∈ xs, x.1 ≤ s ∧ s < x.2

/-- The overlaps of two lists: of the two intervals at hand the one that ends first is left behind. -/
def common : Nat → List (α × α) → List (α × α) → List (α × α)
  | 0, _, _ => []
  | _, [], _ => []
  | _, _, [] => []
  | fuel + 1, x :: xs, y :: ys =>
    (if max x.1 y.1 < min x.2 y.2 then [(max x.1 y.1, min x.2 y.2)] else []) ++
      (if x.2 < y.2 then common fuel xs (y :: ys) else common fuel (x :: xs) ys)

theorem mem_common : ∀ {fuel : Nat} {xs ys : List (α × α)} {z : α × α}, z ∈ common fuel xs ys →
    ∃ x ∈ xs, ∃ y ∈ ys, z = (max x.1 y.1, min x.2 y.2)
  | 0, _, _, _, h => by cases h
  | _ + 1, [], _, _, h => by cases h
  | _ + 1, _ :: _, [], _, h => by cases h
  | fuel + 1, x :: xs, y :: ys, z, h => by
    rw [common] at h
    rcases List.mem_append.1 h with h | h
    · split at h
      · exact ⟨x, List.mem_cons_self, y, List.mem_cons_self, List.mem_singleton.1 h⟩
      · cases h
    · split at h
      · obtain ⟨x', hx, y', hy, hz⟩ := mem_common h
        exact ⟨x', List.mem_cons_of_mem _ hx, y', hy, hz⟩
      · obtain ⟨x', hx, y', hy, hz⟩ := mem_common h
        exact ⟨x', hx, y', List.mem_cons_of_mem _ hy, hz⟩

theorem Rising.head_le {x x' : α × α} {xs : List (α × α)} (h : Rising (x :: xs)) (hx : x' ∈ x :: xs) :
    x.1 ≤ x'.1 ∧ x.2 ≤ x'.2 := by
  rcases List.mem_cons.1 hx with rfl | hx
  · exact ⟨le_refl _, le_refl _⟩
  · exact List.rel_of_pairwise_cons h hx

/-- **The overlaps are rising.** -/
theorem Rising.common : ∀ {fuel : Nat} {xs ys : List (α × α)}, Rising xs → Rising ys → Rising (common fuel xs ys)
  | 0, _, _, _, _ => List.Pairwise.nil
  | _ + 1, [], _, _, _ => List.Pairwise.nil
  | _ + 1, _ :: _, [], _, _ => List.Pairwise.nil
  | fuel + 1, x :: xs, y :: ys, hx, hy => by
    rw [Intervals.common, Rising, List.pairwise_append]
    refine ⟨?_, ?_, fun z hz z' hz' => ?_⟩
    · split
      · exact List.pairwise_singleton _ _
      · exact List.Pairwise.nil
    · split
      · exact Rising.common hx.tail hy
      · exact Rising.common hx hy.tail
    · have hz : z = (max x.1 y.1, min x.2 y.2) := by
        split at hz
        · exact List.mem_singleton.1 hz
        · cases hz
      obtain ⟨x', hx', y', hy', rfl⟩ : ∃ x' ∈ x :: xs, ∃ y' ∈ y :: ys, z' = (max x'.1 y'.1, min x'.2 y'.2) := by
        split at hz'
        · obtain ⟨x', h1, h2⟩ := mem_common hz'
          exact ⟨x', List.mem_cons_of_mem _ h1, h2⟩
        · obtain ⟨x', h1, y', h2, h3⟩ := mem_common hz'
          exact ⟨x', h1, y', List.mem_cons_of_mem _ h2, h3⟩
      have h1 := hx.head_le hx'
      have h2 := hy.head_le hy'
      rw [hz]
      exact ⟨max_le_max h1.1 h2.1, min_le_min h1.2 h2.2⟩

/-- **A point of both lists lies in an overlap.** -/
theorem covers_common : ∀ {fuel : Nat} {xs ys : List (α × α)} {s : α}, xs.length + ys.length ≤ fuel → Rising xs →
    Rising ys → Covers xs s → Covers ys s → Covers (common fuel xs ys) s
  | _, [], _, _, _, _, _, ⟨_, hx, _⟩, _ => by cases hx
  | _, _ :: _, [], _, _, _, _, _, ⟨_, hy, _⟩ => by cases hy
  | 0, _ :: _, _ :: _, _, hfuel, _, _, _, _ => by
    rw [List.length_cons] at hfuel
    omega
  | fuel + 1, x :: xs, y :: ys, s, hfuel, hx, hy, ⟨x', hx', hx1, hx2⟩, ⟨y', hy', hy1, hy2⟩ => by
    rw [List.length_cons, List.length_cons] at hfuel
    have hxs := (hx.head_le hx').1.trans hx1
    have hys := (hy.head_le hy').1.trans hy1
    rw [common]
    -- where both intervals at hand have the point, their overlap has it
    by_cases hboth : s < x.2 ∧ s < y.2
    · have hlo : max x.1 y.1 ≤ s := max_le hxs hys
      have hhi : s < min x.2 y.2 := lt_min hboth.1 hboth.2
      refine ⟨(max x.1 y.1, min x.2 y.2), List.mem_append_left _ ?_, hlo, hhi⟩
      rw [if_pos (hlo.trans_lt hhi)]
      exact List.mem_singleton_self _
    · obtain ⟨z, hz, hzs⟩ : Covers (if x.2 < y.2 then common fuel xs (y :: ys) else common fuel (x :: xs) ys) s := by
        split
        · rename_i hlt
          have hne : ¬ s < x.2 := fun h => hboth ⟨h, h.trans hlt⟩
          rcases List.mem_cons.1 hx' with rfl | hx'
          · exact absurd hx2 hne
          · exact covers_common (by rw [List.length_cons]; omega) hx.tail hy ⟨x', hx', hx1, hx2⟩ ⟨y', hy', hy1, hy2⟩
        · rename_i hle
          have hne : ¬ s < y.2 := fun h => hboth ⟨h.trans_le (not_lt.1 hle), h⟩
          rcases List.mem_cons.1 hy' with rfl | hy'
          · exact absurd hy2 hne
          · exact covers_common (by rw [List.length_cons]; omega) hx hy.tail ⟨x', hx', hx1, hx2⟩ ⟨y', hy', hy1, hy2⟩
      exact ⟨z, List.mem_append_right _ hz, hzs⟩

end Intervals
