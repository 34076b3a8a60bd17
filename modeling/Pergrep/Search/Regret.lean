import Mathlib.Algebra.Order.Ring.Rat
import Mathlib.Tactic.Linarith
import Mathlib.Tactic.NormNum
import Pergrep.Lib.Reorder
import Pergrep.Index.Data
/-!
# Regret — the report of a chosen plan

`compute_plan_regret` puts the plan a search chose against the candidates it had: the candidates in a canonical order, the
plan that turned out the cheapest among those observed, and how many pairs of them were predicted the wrong way round.  The
report is to be independent of the order the candidates come in.  It is, unless two candidates that differ are tied in the
canonical order, or two plans are the cheapest (`computePlanRegret_order_iff`).
-/
namespace Pergrep

open Reorder

inductive VerifierKind
  | fixedRareByte | fixedPositional | regexChunk | regexBruteForce
  deriving DecidableEq, Repr

def VerifierKind.toNat : VerifierKind → Nat
  | .fixedRareByte => 0
  | .fixedPositional => 1
  | .regexChunk => 2
  | .regexBruteForce => 3

inductive ObservationStatus
  | unobserved | observed | counterfactualEstimate
  deriving DecidableEq, Repr

/-- Arithmetic on costs.  `F` holds the doubles that compare with each other, `R` the results, which may be any doubles. -/
structure Doubles (F R : Type) where
  sub : F → F → R
  div : R → F → R
  abs : R → R
  lt : R → R → Bool
  zero : R
  epsilon : F
  tolerance : R

/-- `std::abs(a - b) > 1e-6` -/
def Doubles.apart {F R : Type} (A : Doubles F R) (a b : F) : Bool := A.lt A.tolerance (A.abs (A.sub a b))

/-- What the report needs of the arithmetic: a difference changes its sign with its arguments, and is nothing between
equals. -/
structure Doubles.Lawful {F R : Type} (A : Doubles F R) : Prop where
  abs_sub_comm : ∀ a b, A.abs (A.sub a b) = A.abs (A.sub b a)
  not_apart_self : ∀ a, A.apart a a = false

structure PlanCandidateMetrics (F R : Type) where
  name : Bytes
  verifier : VerifierKind := .fixedRareByte
  predictedCost : F
  predictedSelectivity : R
  actualCost : F
  actualTimeMs : R
  actualVerifiedBytes : Nat := 0
  actualCandidateChunks : Nat := 0
  actualCandidateBlocks : Nat := 0
  isFallback : Bool := false
  chosen : Bool := false
  actualObserved : Bool := false
  observation : ObservationStatus := .unobserved
  actualIndexProbeBytes : Nat := 0
  actualIndexProbeOperations : Nat := 0
  actualVerificationBytes : Nat := 0
  actualVerifierCpuNs : Nat := 0
  actualAllocationCount : Nat := 0
  actualAllocationBytes : Nat := 0
  actualPageFaults : Nat := 0
  allocationMetricsAvailable : Bool := false
  pageFaultMetricsAvailable : Bool := false
  deriving DecidableEq, Repr

structure PlanRegret (F R : Type) where
  candidateCount : Nat
  observedCandidateCount : Nat
  observedFallbackLoss : Bool := false
  queryName : Bytes
  chosenPlan : Bytes
  optimalPlan : Bytes
  chosenVerifier : VerifierKind
  optimalVerifier : VerifierKind
  predictedCost : F
  actualCost : F
  optimalActualCost : F
  absoluteRegret : R
  relativeRegret : R
  predictionError : R
  isSuboptimal : Bool
  isFallback : Bool
  rankInversions : Nat
  candidates : List (PlanCandidateMetrics F R)
  deriving DecidableEq, Repr

section
variable {F R : Type} [LinearOrder F] (A : Doubles F R)

def canonicalLt (a b : PlanCandidateMetrics F R) : Prop :=
  if a.verifier.toNat ≠ b.verifier.toNat then a.verifier.toNat < b.verifier.toNat
  else if a.name ≠ b.name then a.name < b.name
  else if a.predictedCost ≠ b.predictedCost then a.predictedCost < b.predictedCost
  else a.chosen = true ∧ b.chosen = false

instance : DecidableRel (canonicalLt (F := F) (R := R)) := fun a b => by
  unfold canonicalLt
  infer_instance

def isObservedOther (chosen cand : PlanCandidateMetrics F R) : Bool :=
  !(cand.name == chosen.name && cand.verifier == chosen.verifier) &&
    (cand.actualObserved || cand.observation == .observed)

/-- `std::max(0.0, chosen.actual_cost - best->actual_cost)` -/
def absoluteRegret (chosen best : PlanCandidateMetrics F R) : R :=
  if A.lt A.zero (A.sub chosen.actualCost best.actualCost) then A.sub chosen.actualCost best.actualCost else A.zero

def isInversion (a b : PlanCandidateMetrics F R) : Bool :=
  (decide (a.predictedCost < b.predictedCost) != decide (a.actualCost < b.actualCost)) &&
    A.apart a.predictedCost b.predictedCost && A.apart a.actualCost b.actualCost

def computePlanRegret (S : Sorter (canonicalLt (F := F) (R := R))) (chosen : PlanCandidateMetrics F R)
    (candidates : List (PlanCandidateMetrics F R)) (queryName : Bytes) : PlanRegret F R :=
  let sorted := S.sort candidates
  let observed := chosen :: candidates.filter (isObservedOther chosen)
  let predictionError := A.div (A.abs (A.sub chosen.predictedCost chosen.actualCost)) (max chosen.actualCost A.epsilon)
  if observed.length < 2 then
    { candidateCount := sorted.length
      observedCandidateCount := observed.length
      queryName := queryName
      chosenPlan := chosen.name
      optimalPlan := chosen.name
      chosenVerifier := chosen.verifier
      optimalVerifier := chosen.verifier
      predictedCost := chosen.predictedCost
      actualCost := chosen.actualCost
      optimalActualCost := chosen.actualCost
      absoluteRegret := A.zero
      relativeRegret := A.zero
      predictionError := predictionError
      isSuboptimal := false
      isFallback := chosen.isFallback
      rankInversions := 0
      candidates := sorted }
  else
    let best := least PlanCandidateMetrics.actualCost chosen observed
    let isSuboptimal := A.lt A.tolerance (absoluteRegret A chosen best)
    { candidateCount := sorted.length
      observedCandidateCount := observed.length
      observedFallbackLoss := isSuboptimal && !chosen.isFallback && best.isFallback
      queryName := queryName
      chosenPlan := chosen.name
      optimalPlan := best.name
      chosenVerifier := chosen.verifier
      optimalVerifier := best.verifier
      predictedCost := chosen.predictedCost
      actualCost := chosen.actualCost
      optimalActualCost := best.actualCost
      absoluteRegret := absoluteRegret A chosen best
      relativeRegret := A.div (A.sub chosen.actualCost best.actualCost) (max best.actualCost A.epsilon)
      predictionError := predictionError
      isSuboptimal := isSuboptimal
      isFallback := chosen.isFallback
      rankInversions := countPairs (isInversion A) observed
      candidates := sorted }

/-! ## What the order decides -/

/-- What the report says of the plan it takes for the cheapest, besides its cost. -/
def reportedOf (chosen best : PlanCandidateMetrics F R) : Bytes × VerifierKind × Bool :=
  (best.name, best.verifier,
    A.lt A.tolerance (absoluteRegret A chosen best) && !chosen.isFallback && best.isFallback)

/-- The observed candidates, other than the chosen plan, that cost the least, when they cost less than it. -/
def IsOptimum (chosen : PlanCandidateMetrics F R) (candidates : List (PlanCandidateMetrics F R))
    (x : PlanCandidateMetrics F R) : Prop :=
  IsLeast PlanCandidateMetrics.actualCost chosen (candidates.filter (isObservedOther chosen)) x

/-- All of them read the same in the report. -/
def OneOptimum (chosen : PlanCandidateMetrics F R) (candidates : List (PlanCandidateMetrics F R)) : Prop :=
  ∀ x y, IsOptimum chosen candidates x → IsOptimum chosen candidates y → reportedOf A chosen x = reportedOf A chosen y

variable {A}

theorem isInversion_comm (hA : A.Lawful) (a b : PlanCandidateMetrics F R) : isInversion A a b = isInversion A b a := by
  have hcomm : ∀ a b, A.apart a b = A.apart b a := fun a b => by
    unfold Doubles.apart
    rw [hA.abs_sub_comm]
  have hne : ∀ {a b}, A.apart a b = true → a ≠ b := by
    rintro a _ h rfl
    rw [hA.not_apart_self] at h
    exact Bool.false_ne_true h
  have hflip : ∀ {a b : F}, a ≠ b → decide (b < a) = !decide (a < b) := by
    intro a b h
    rcases lt_or_gt_of_ne h with hlt | hgt
    · rw [decide_eq_true hlt, decide_eq_false (not_lt_of_gt hlt)]
      rfl
    · rw [decide_eq_true hgt, decide_eq_false (not_lt_of_gt hgt)]
      rfl
  unfold isInversion
  rw [hcomm b.predictedCost, hcomm b.actualCost]
  cases hp : A.apart a.predictedCost b.predictedCost with
  | false => rw [Bool.and_false, Bool.and_false]
  | true =>
    cases ha : A.apart a.actualCost b.actualCost with
    | false => rw [Bool.and_false, Bool.and_false]
    | true =>
      rw [hflip (hne hp), hflip (hne ha)]
      cases decide (a.predictedCost < b.predictedCost) <;> cases decide (a.actualCost < b.actualCost) <;> rfl

theorem canonicalLt_weak : WeakOrder (canonicalLt (F := F) (R := R)) := by
  have hlast : WeakOrder (fun a b : PlanCandidateMetrics F R => a.chosen = true ∧ b.chosen = false) :=
    ⟨by grind, by grind⟩
  exact ((hlast.thenBy PlanCandidateMetrics.predictedCost).thenBy PlanCandidateMetrics.name).thenBy
    (fun a : PlanCandidateMetrics F R => a.verifier.toNat)

theorem least_observed (chosen : PlanCandidateMetrics F R) (others : List (PlanCandidateMetrics F R)) :
    least PlanCandidateMetrics.actualCost chosen (chosen :: others) = least PlanCandidateMetrics.actualCost chosen others := by
  rw [least_cons, if_neg (lt_irrefl _)]

theorem reported_least (S : Sorter (canonicalLt (F := F) (R := R))) (chosen : PlanCandidateMetrics F R)
    (candidates : List (PlanCandidateMetrics F R)) (q : Bytes) :
    ((computePlanRegret A S chosen candidates q).optimalPlan, (computePlanRegret A S chosen candidates q).optimalVerifier,
        (computePlanRegret A S chosen candidates q).observedFallbackLoss) =
      reportedOf A chosen
        (least PlanCandidateMetrics.actualCost chosen (candidates.filter (isObservedOther chosen))) := by
  unfold computePlanRegret
  dsimp only
  rw [least_observed]
  cases candidates.filter (isObservedOther chosen) with
  | nil =>
    rw [if_pos (show [chosen].length < 2 from Nat.one_lt_two), reportedOf]
    change (chosen.name, chosen.verifier, false) = (chosen.name, chosen.verifier, _ && !chosen.isFallback && chosen.isFallback)
    cases chosen.isFallback with
    | false => rw [Bool.and_false]
    | true => rw [Bool.not_true, Bool.and_false, Bool.false_and]
  | cons x xs =>
    rw [if_neg (by rw [List.length_cons, List.length_cons]; omega)]
    rfl

theorem candidates_eq (S : Sorter (canonicalLt (F := F) (R := R))) (chosen : PlanCandidateMetrics F R)
    (candidates : List (PlanCandidateMetrics F R)) (q : Bytes) :
    (computePlanRegret A S chosen candidates q).candidates = S.sort candidates := by
  unfold computePlanRegret
  dsimp only
  split <;> rfl

/-- **The report is independent of the order of the candidates**, whichever way the sort treats ties, when no two candidates
are tied in the canonical order and all that cost the least read the same, and only then. -/
theorem computePlanRegret_order_iff (hA : A.Lawful) (chosen : PlanCandidateMetrics F R)
    (candidates : List (PlanCandidateMetrics F R)) (q : Bytes) :
    (∀ S ys, ys.Perm candidates → computePlanRegret A S chosen ys q = computePlanRegret A S chosen candidates q) ↔
      Tells canonicalLt candidates ∧ OneOptimum A chosen candidates := by
  constructor
  · intro h
    constructor
    · refine (sorters_agree_iff canonicalLt_weak candidates).1 (fun S ys hperm => ?_)
      rw [← candidates_eq (A := A) S chosen ys q, h S ys hperm, candidates_eq]
    · refine (least_agree_iff _ (isObservedOther chosen) (reportedOf A chosen) chosen candidates).1 (fun ys hperm => ?_)
      rw [← reported_least (stable canonicalLt_weak) chosen ys q, h _ ys hperm, reported_least]
  · rintro ⟨htells, hone⟩ S ys hperm
    have hsort := S.eq_of_tells hperm htells
    have hothers := hperm.filter (isObservedOther chosen)
    have hbest := (least_agree_iff PlanCandidateMetrics.actualCost (isObservedOther chosen)
      (fun best => (reportedOf A chosen best, best.actualCost)) chosen candidates).2
      (fun x y hx hy => Prod.ext (hone x y hx hy) (le_antisymm (hx.2.2 y hy.1) (hy.2.2 x hx.1))) ys hperm
    have hpairs := countPairs_perm (isInversion_comm hA) (hothers.cons chosen)
    have hlength := (hothers.cons chosen).length_eq
    unfold computePlanRegret absoluteRegret
    dsimp only
    rw [hsort, hlength, hpairs, least_observed, least_observed]
    unfold reportedOf absoluteRegret at hbest
    simp only [Prod.mk.injEq] at hbest
    obtain ⟨⟨hname, hverifier, hloss⟩, hcost⟩ := hbest
    rw [hcost] at hloss ⊢
    rw [hname, hverifier, hloss]
end

/-! ## Three plans -/

/-- Exact arithmetic, which is that of doubles on small integers. -/
def ratDoubles : Doubles ℚ ℚ where
  sub := (· - ·)
  div := (· / ·)
  abs x := if x < 0 then -x else x
  lt x y := decide (x < y)
  zero := 0
  epsilon := 1 / 1000000000
  tolerance := 1 / 1000000

theorem ratDoubles_lawful : ratDoubles.Lawful where
  abs_sub_comm a b := by
    change (if a - b < 0 then -(a - b) else a - b) = if b - a < 0 then -(b - a) else b - a
    split <;> split <;> linarith
  not_apart_self a := by
    change decide ((1 / 1000000 : ℚ) < if a - a < 0 then -(a - a) else a - a) = false
    rw [sub_self]
    norm_num

def observedPlan (name : Bytes) (cost : ℚ) : PlanCandidateMetrics ℚ ℚ :=
  { name := name
    verifier := .regexChunk
    predictedCost := cost
    predictedSelectivity := 1
    actualCost := cost
    actualTimeMs := cost
    actualObserved := true
    observation := .observed }

/-- The plans `a` and `b` were found to cost 1 and 3, the chosen plan `c` 2. -/
theorem computePlanRegret_order_three :
    computePlanRegret ratDoubles (stable canonicalLt_weak) (observedPlan [0x63] 2)
        [observedPlan [0x62] 3, observedPlan [0x61] 1] [] =
      computePlanRegret ratDoubles (stable canonicalLt_weak) (observedPlan [0x63] 2)
        [observedPlan [0x61] 1, observedPlan [0x62] 3] [] := by
  refine (computePlanRegret_order_iff ratDoubles_lawful (observedPlan [0x63] 2)
    [observedPlan [0x61] 1, observedPlan [0x62] 3] []).2 ⟨by decide +kernel, ?_⟩ _ _ (List.Perm.swap _ _ _)
  have hcheap : ∀ x, IsOptimum (observedPlan [0x63] 2) [observedPlan [0x61] 1, observedPlan [0x62] 3] x →
      x = observedPlan [0x61] 1 := by
    rintro x ⟨hmem, hlt, -⟩
    rcases List.mem_cons.1 (List.mem_filter.1 hmem).1 with rfl | hmem
    · rfl
    · rw [List.mem_singleton.1 hmem] at hlt
      exact absurd hlt (by decide +kernel)
  intro x y hx hy
  rw [hcheap x hx, hcheap y hy]

/-- Both cost 1: the first of them is reported. -/
theorem not_computePlanRegret_order :
    ¬ ∀ (chosen : PlanCandidateMetrics ℚ ℚ) (candidates ys : List (PlanCandidateMetrics ℚ ℚ)) (q : Bytes),
      ys.Perm candidates → computePlanRegret ratDoubles (stable canonicalLt_weak) chosen ys q =
        computePlanRegret ratDoubles (stable canonicalLt_weak) chosen candidates q := by
  intro h
  have hplan := congrArg PlanRegret.optimalPlan (h (observedPlan [0x63] 2) _ _ []
    (List.Perm.swap (observedPlan [0x61] 1) (observedPlan [0x62] 1) []))
  revert hplan
  decide +kernel

end Pergrep
