import Mathlib.Algebra.BigOperators.Group.Finset.Basic
import Mathlib.Algebra.Order.Ring.Nat
import Mathlib.Data.Finset.Card
import Mathlib.Logic.Function.Basic
/-!
# Marks — counting each element once, with marks that are never cleared

An element is counted when its mark is not that of the round, which it then gets.  A round counts each element it keeps
once, however often it comes (`foldl_mark`); when no two rounds have one mark, all rounds together count what each of them
would alone (`foldl_rounds`).
-/
namespace Marks

variable {α β : Type*} [DecidableEq α]

/-- An element of the round `g`: the marks, and how many were counted. -/
def mark (keep : α → Bool) (g : Nat) (st : (α → Nat) × Nat) (x : α) : (α → Nat) × Nat :=
  if keep x && st.1 x != g then (Function.update st.1 x g, st.2 + 1) else st

/-- **A round counts each element it keeps once.** -/
theorem foldl_mark (keep : α → Bool) (g : Nat) : ∀ (xs : List α) (marks : α → Nat) (n : Nat),
    (xs.foldl (mark keep g) (marks, n)).2 = n + (xs.toFinset.filter (fun y => keep y = true ∧ marks y ≠ g)).card ∧
      ∀ y, (xs.foldl (mark keep g) (marks, n)).1 y = if y ∈ xs ∧ keep y = true then g else marks y
  | [], marks, n => by simp
  | x :: xs, marks, n => by
    rw [List.foldl_cons, List.toFinset_cons]
    by_cases hx : keep x = true ∧ marks x ≠ g
    · have hmark : mark keep g (marks, n) x = (Function.update marks x g, n + 1) := by
        unfold mark
        rw [hx.1, Bool.true_and, if_pos (bne_iff_ne.2 hx.2)]
      obtain ⟨hcount, hmarks⟩ := foldl_mark keep g xs (Function.update marks x g) (n + 1)
      rw [hmark]
      constructor
      · have hset : (insert x xs.toFinset).filter (fun y => keep y = true ∧ marks y ≠ g) =
            insert x (xs.toFinset.filter (fun y => keep y = true ∧ Function.update marks x g y ≠ g)) := by
          ext y
          rw [Finset.mem_filter, Finset.mem_insert, Finset.mem_insert, Finset.mem_filter]
          by_cases hy : y = x
          · subst hy
            exact iff_of_true ⟨Or.inl rfl, hx⟩ (Or.inl rfl)
          · rw [Function.update_of_ne hy, or_iff_right hy, or_iff_right hy]
        have hnew : x ∉ xs.toFinset.filter (fun y => keep y = true ∧ Function.update marks x g y ≠ g) := by
          rw [Finset.mem_filter, Function.update_self]
          exact fun h => h.2.2 rfl
        rw [hcount, hset, Finset.card_insert_of_notMem hnew]
        omega
      · intro y
        rw [hmarks]
        by_cases hy : y = x
        · subst hy
          rw [Function.update_self, ite_self, if_pos ⟨List.mem_cons_self, hx.1⟩]
        · simp only [Function.update_of_ne hy, List.mem_cons, hy, false_or]
    · have hmark : mark keep g (marks, n) x = (marks, n) := by
        unfold mark
        rw [if_neg]
        rw [Bool.and_eq_true, bne_iff_ne]
        exact hx
      obtain ⟨hcount, hmarks⟩ := foldl_mark keep g xs marks n
      rw [hmark, Finset.filter_insert, if_neg hx]
      refine ⟨hcount, fun y => ?_⟩
      rw [hmarks]
      by_cases hy : y = x
      · subst hy
        by_cases hk : keep y = true
        · have hg : marks y = g := by
            by_contra hne
            exact hx ⟨hk, hne⟩
          rw [hg, ite_self, ite_self]
        · rw [if_neg (fun h => hk h.2), if_neg (fun h => hk h.2)]
      · simp only [List.mem_cons, hy, false_or]

/-- **Rounds with marks of their own** count what each would count alone. -/
theorem foldl_rounds (items : β → List α) (keep : β → α → Bool) (gen : β → Nat) : ∀ (rounds : List β) (marks : α → Nat) (n : Nat),
    (rounds.map gen).Nodup → (∀ r ∈ rounds, ∀ y, marks y ≠ gen r) →
      (rounds.foldl (fun st r => (items r).foldl (mark (keep r) (gen r)) st) (marks, n)).2 =
        n + (rounds.map (fun r => ((items r).toFinset.filter (fun y => keep r y = true)).card)).sum
  | [], _, _, _, _ => rfl
  | r :: rounds, marks, n, hnodup, hfresh => by
    obtain ⟨hr, hnodup⟩ := List.nodup_cons.1 hnodup
    obtain ⟨hcount, hmarks⟩ := foldl_mark (keep r) (gen r) (items r) marks n
    have hfresh' : ∀ q ∈ rounds, ∀ y, ((items r).foldl (mark (keep r) (gen r)) (marks, n)).1 y ≠ gen q := by
      intro q hq y
      rw [hmarks]
      split
      · exact fun heq => hr (List.mem_map.2 ⟨q, hq, heq.symm⟩)
      · exact hfresh q (List.mem_cons_of_mem r hq) y
    have hround : (items r).toFinset.filter (fun y => keep r y = true ∧ marks y ≠ gen r) =
        (items r).toFinset.filter (fun y => keep r y = true) :=
      Finset.filter_congr (fun y _ => and_iff_left (hfresh r List.mem_cons_self y))
    have hstate : (items r).foldl (mark (keep r) (gen r)) (marks, n) =
        (((items r).foldl (mark (keep r) (gen r)) (marks, n)).1,
          n + ((items r).toFinset.filter (fun y => keep r y = true)).card) := by
      rw [← hround, ← hcount]
    rw [List.foldl_cons, hstate, foldl_rounds items keep gen rounds _ _ hnodup hfresh', List.map_cons, List.sum_cons,
      Nat.add_assoc]

end Marks
