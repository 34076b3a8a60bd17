import Pergrep.Tuning.Explore
/-!
# Platform — the comparison of two explorations

The gate compares two results of the exploration, of two machines or of one.  Both go through the same combinations in the same
order, and what works on one works on the other, so they differ in their length at most: the gate passes exactly when the lengths
are the same, or when they may differ and both runs, or neither, found something that works
(`evaluatePlatformReproducibility_runs`).
-/
namespace Pergrep

open PlainText (ascii decimal)
open Double (roundDouble printFixed)

structure PlatformTolerances where
  /-- `0.10`, as it is rounded. -/
  scoreRelativeTolerance : ℚ := roundDouble (1 / 10)
  requireExactConfigOrder : Bool := true

structure PlatformComparisonReport where
  passed : Bool := true
  platformA : Bytes
  platformB : Bytes
  evaluatedCountA : Nat
  evaluatedCountB : Nat
  configSequenceMatched : Bool := true
  bestConfigMatched : Bool := true
  bestScoreDeltaPct : ℚ := 0
  warnings : List Bytes := []
  errors : List Bytes := []
  detailedLog : Bytes := []

def layoutsDiffer (a b : IndexOptions) : Bool :=
  a.chunkBytes != b.chunkBytes || a.chunkOverlap != b.chunkOverlap ||
    a.positionalBlockBytes != b.positionalBlockBytes || a.plannedQgrams != b.plannedQgrams

/-- The first place at which the sequences differ, counted from `i`. -/
def divergesAt : Nat → List TunedCandidate → List TunedCandidate → Option Nat
  | i, a :: as, b :: bs => if layoutsDiffer a.options b.options then some i else divergesAt (i + 1) as bs
  | _, _, _ => none

def countMismatch (a b : Nat) : Bytes := ascii "Evaluated candidate count mismatch: " ++ decimal a ++ ascii " vs " ++ decimal b

def sequenceDiverged (i : Nat) : Bytes := ascii "Candidate sequence diverged at index " ++ decimal i

def oneFailed : Bytes := ascii "One platform failed to produce a valid best configuration"

def differentBest : Bytes := ascii "Platform decision chose different best layout (hardware/compiler trade-off)"

/-- A double that is not negative, in percent, as `std::to_string` prints it. -/
def percentText (q : ℚ) : Bytes := printFixed 6 (.finite false (roundDouble (q * 100)))

def deltaExceeds (delta tolerance : ℚ) : Bytes :=
  ascii "Score relative delta exceeds tolerance (" ++ percentText delta ++ ascii "% > " ++ percentText tolerance ++ ascii "%)"

namespace PlatformComparisonReport

def checkSequence (rep : PlatformComparisonReport) (runA runB : SearchResult) : PlatformComparisonReport :=
  if runA.evaluated.length != runB.evaluated.length then
    { rep with
      configSequenceMatched := false
      errors := rep.errors ++ [countMismatch runA.evaluated.length runB.evaluated.length] }
  else
    match divergesAt 0 runA.evaluated runB.evaluated with
    | none   => rep
    | some i => { rep with configSequenceMatched := false, errors := rep.errors ++ [sequenceDiverged i] }

def scoreDelta (scoreA scoreB : ℚ) : ℚ :=
  roundDouble (roundDouble |scoreA - scoreB| / max (min scoreA scoreB) (roundDouble (1 / 10 ^ 6)))

def compareBest (rep : PlatformComparisonReport) (tolerances : PlatformTolerances) (a b : TunedCandidate) :
    PlatformComparisonReport :=
  let rep := if layoutsDiffer a.options b.options then
      { rep with bestConfigMatched := false, warnings := rep.warnings ++ [differentBest] }
    else rep
  let delta := scoreDelta a.score b.score
  let rep := { rep with bestScoreDeltaPct := delta }
  if tolerances.scoreRelativeTolerance < delta then
    { rep with warnings := rep.warnings ++ [deltaExceeds delta tolerances.scoreRelativeTolerance] }
  else rep

def checkBest (rep : PlatformComparisonReport) (tolerances : PlatformTolerances) (runA runB : SearchResult) :
    PlatformComparisonReport :=
  match runA.best, runB.best with
  | some a, some b => rep.compareBest tolerances a b
  | none, none     => rep
  | _, _           => { rep with errors := rep.errors ++ [oneFailed], bestConfigMatched := false }

def yesNo (b : Bool) : Bytes := if b then ascii "YES" else ascii "NO"

def listing (title : String) (texts : List Bytes) : Bytes :=
  if texts.isEmpty then [] else ascii title ++ texts.flatMap (fun t => ascii "  - " ++ t ++ ascii "\n")

def log (rep : PlatformComparisonReport) : Bytes :=
  ascii "=== Platform Reproducibility Gate Evaluation ===\n" ++
    ascii "Platform A: " ++ rep.platformA ++ ascii " (" ++ decimal rep.evaluatedCountA ++ ascii " evaluated)\n" ++
    ascii "Platform B: " ++ rep.platformB ++ ascii " (" ++ decimal rep.evaluatedCountB ++ ascii " evaluated)\n" ++
    ascii "Sequence Matched: " ++ yesNo rep.configSequenceMatched ++ ascii "\n" ++
    ascii "Best Config Matched: " ++ yesNo rep.bestConfigMatched ++ ascii "\n" ++
    ascii "Best Score Delta: " ++ printFixed 2 (.finite false (roundDouble (rep.bestScoreDeltaPct * 100))) ++ ascii "%\n" ++
    ascii "Gate Result: " ++ (if rep.passed then ascii "PASS" else ascii "FAIL") ++ ascii "\n" ++
    listing "Warnings:\n" rep.warnings ++ listing "Errors:\n" rep.errors

end PlatformComparisonReport

def evaluatePlatformReproducibility (runA runB : SearchResult) (tolerances : PlatformTolerances) : PlatformComparisonReport :=
  let rep : PlatformComparisonReport :=
    { platformA := runA.toolchainInfo, platformB := runB.toolchainInfo
      evaluatedCountA := runA.evaluated.length, evaluatedCountB := runB.evaluated.length }
  let rep := if tolerances.requireExactConfigOrder then rep.checkSequence runA runB else rep
  let rep := rep.checkBest tolerances runA runB
  let rep := { rep with passed := rep.errors.isEmpty }
  { rep with detailedLog := rep.log }

/-! ## Two explorations of the same bounds -/

open PlatformComparisonReport

theorem layoutsDiffer_self (opt : IndexOptions) : layoutsDiffer opt opt = false := by simp [layoutsDiffer]

theorem divergesAt_eq_none (as bs : List TunedCandidate) (i : Nat) (h : as.map (·.options) = bs.map (·.options)) :
    divergesAt i as bs = none := by
  induction as generalizing bs i with
  | nil => rfl
  | cons a as ih =>
    cases bs with
    | nil => rfl
    | cons b bs =>
      simp only [List.map_cons, List.cons.injEq] at h
      rw [divergesAt, h.1, layoutsDiffer_self, if_neg Bool.false_ne_true]
      exact ih bs (i + 1) h.2

theorem compareBest_errors (rep : PlatformComparisonReport) (tolerances : PlatformTolerances) (a b : TunedCandidate) :
    (rep.compareBest tolerances a b).errors = rep.errors := by
  unfold compareBest
  dsimp only
  split <;> split <;> rfl

theorem checkBest_errors (rep : PlatformComparisonReport) (tolerances : PlatformTolerances) (runA runB : SearchResult) :
    (rep.checkBest tolerances runA runB).errors =
      rep.errors ++ (if runA.best.isSome = runB.best.isSome then [] else [oneFailed]) := by
  unfold checkBest
  cases runA.best <;> cases runB.best <;> simp [compareBest_errors]

theorem evaluate_errors (runA runB : SearchResult) (tolerances : PlatformTolerances)
    (h : runA.evaluated.length = runB.evaluated.length → divergesAt 0 runA.evaluated runB.evaluated = none) :
    (evaluatePlatformReproducibility runA runB tolerances).errors =
      (if tolerances.requireExactConfigOrder = true ∧ runA.evaluated.length ≠ runB.evaluated.length then
          [countMismatch runA.evaluated.length runB.evaluated.length]
        else []) ++
      (if runA.best.isSome = runB.best.isSome then [] else [oneFailed]) := by
  unfold evaluatePlatformReproducibility
  dsimp only
  rw [checkBest_errors]
  congr 1
  cases tolerances.requireExactConfigOrder with
  | false => simp
  | true =>
    rw [if_pos rfl, checkSequence]
    by_cases hlen : runA.evaluated.length = runB.evaluated.length
    · simp [hlen, h hlen]
    · simp [hlen]

/-- **What makes the gate fail**: the lengths or the sequences where the order is required, or a best of one run alone. -/
theorem passed_iff (runA runB : SearchResult) (tolerances : PlatformTolerances) :
    (evaluatePlatformReproducibility runA runB tolerances).passed = true ↔
      (tolerances.requireExactConfigOrder = true →
        runA.evaluated.length = runB.evaluated.length ∧ divergesAt 0 runA.evaluated runB.evaluated = none) ∧
      runA.best.isSome = runB.best.isSome := by
  unfold evaluatePlatformReproducibility
  dsimp only
  rw [List.isEmpty_iff, checkBest_errors, List.append_eq_nil_iff]
  refine and_congr ?_ (by split <;> simp_all)
  cases tolerances.requireExactConfigOrder with
  | false => simp
  | true =>
    rw [if_pos rfl, checkSequence]
    cases hlen : runA.evaluated.length != runB.evaluated.length with
    | true => simp [bne_iff_ne.1 hlen]
    | false =>
      rw [bne_eq_false_iff_eq] at hlen
      cases hdiv : divergesAt 0 runA.evaluated runB.evaluated <;> simp [hlen]

section
variable (icu : Icu) (plan : Planner) (corpus : List Document) (queries : List Pattern) (bounds : ParameterBounds)

theorem exploreParameterSpace_reads (operatorPolicy : Bytes) (obs : Observations) :
    ∃ n ≤ (scheduled bounds).length,
      (exploreParameterSpace icu plan corpus queries operatorPolicy bounds obs).evaluated =
        measured icu plan corpus queries operatorPolicy obs ((scheduled bounds).take n) ∧
      (exploreParameterSpace icu plan corpus queries operatorPolicy bounds obs).best.isSome =
        (exploreParameterSpace icu plan corpus queries operatorPolicy bounds obs).evaluated.any (·.valid) ∧
      ((∀ i < bounds.maxEvaluations, obs.elapsedMs i < bounds.maxSearchTimeBudgetMs) →
        n = if corpus = [] then 0 else min bounds.maxEvaluations (scheduled bounds).length) := by
  by_cases hcorpus : corpus = []
  · subst hcorpus
    exact ⟨0, Nat.zero_le _, rfl, rfl, fun _ => rfl⟩
  · have hexplored : ∃ n, Explored icu plan corpus queries operatorPolicy bounds obs
        (exploreParameterSpace icu plan corpus queries operatorPolicy bounds obs) n := exists_explored hcorpus
    obtain ⟨n, h⟩ := hexplored
    refine ⟨n, h.le, h.evaluated, ?_, fun htime => ?_⟩
    · rw [h.best, Bool.eq_iff_iff, Option.isSome_iff_ne_none, Ne, List.argmin_eq_none, List.filter_eq_nil_iff,
        List.any_eq_true]
      push Not
      rfl
    · rw [if_neg hcorpus]
      exact h.inTime_length htime

/-- **The gate on two explorations** of the same bounds: it passes exactly when they have the same length, or when the order is
not required and both, or neither, found a candidate that works; of the sequences it finds the length alone to differ.  Two
explorations that the time does not stop pass. -/
theorem evaluatePlatformReproducibility_runs (policyA policyB : Bytes) (obsA obsB : Observations) (tolerances : PlatformTolerances) :
    let runA := exploreParameterSpace icu plan corpus queries policyA bounds obsA
    let runB := exploreParameterSpace icu plan corpus queries policyB bounds obsB
    ((evaluatePlatformReproducibility runA runB tolerances).passed = true ↔
      runA.evaluated.length = runB.evaluated.length ∨
        tolerances.requireExactConfigOrder = false ∧ runA.evaluated.any (·.valid) = runB.evaluated.any (·.valid)) ∧
    (evaluatePlatformReproducibility runA runB tolerances).errors =
      (if tolerances.requireExactConfigOrder = true ∧ runA.evaluated.length ≠ runB.evaluated.length then
          [countMismatch runA.evaluated.length runB.evaluated.length]
        else []) ++
      (if runA.evaluated.any (·.valid) = runB.evaluated.any (·.valid) then [] else [oneFailed]) ∧
    ((∀ i < bounds.maxEvaluations, obsA.elapsedMs i < bounds.maxSearchTimeBudgetMs) →
      (∀ i < bounds.maxEvaluations, obsB.elapsedMs i < bounds.maxSearchTimeBudgetMs) →
      (evaluatePlatformReproducibility runA runB tolerances).passed = true) := by
  intro runA runB
  obtain ⟨m, hm, hA, hbestA, htimeA⟩ := exploreParameterSpace_reads icu plan corpus queries bounds policyA obsA
  obtain ⟨n, hn, hB, hbestB, htimeB⟩ := exploreParameterSpace_reads icu plan corpus queries bounds policyB obsB
  have hlenA : runA.evaluated.length = m := by rw [hA, measured_length, List.length_take, Nat.min_eq_left hm]
  have hlenB : runB.evaluated.length = n := by rw [hB, measured_length, List.length_take, Nat.min_eq_left hn]
  -- of the same length, they went through the same combinations
  have hdiverges : runA.evaluated.length = runB.evaluated.length → divergesAt 0 runA.evaluated runB.evaluated = none := by
    intro hlen
    have hmn : m = n := by rw [← hlenA, hlen, hlenB]
    exact divergesAt_eq_none _ _ _ (by rw [hA, hB, measured_options, measured_options, hmn])
  have hpassed : (evaluatePlatformReproducibility runA runB tolerances).passed = true ↔
      runA.evaluated.length = runB.evaluated.length ∨
        tolerances.requireExactConfigOrder = false ∧ runA.evaluated.any (·.valid) = runB.evaluated.any (·.valid) := by
    rw [passed_iff, hbestA, hbestB]
    constructor
    · rintro ⟨hsequence, hbest⟩
      cases horder : tolerances.requireExactConfigOrder with
      | true => exact .inl (hsequence horder).1
      | false => exact .inr ⟨rfl, hbest⟩
    · rintro (hlen | ⟨horder, hbest⟩)
      · have hmn : m = n := by rw [← hlenA, hlen, hlenB]
        refine ⟨fun _ => ⟨hlen, hdiverges hlen⟩, ?_⟩
        rw [hA, hB, measured_any_valid, measured_any_valid, hmn]
      · exact ⟨fun h => absurd (horder.symm.trans h) Bool.false_ne_true, hbest⟩
  refine ⟨hpassed, ?_, fun hA hB => hpassed.2 (.inl ?_)⟩
  · rw [evaluate_errors runA runB tolerances hdiverges, hbestA, hbestB]
  · rw [hlenA, hlenB, htimeA hA, htimeB hB]

end

/-- Two machines in time pass, and one that takes five seconds for an evaluation does not pass with one in time. -/
theorem evaluatePlatformReproducibility_runs_paces :
    let run := fun pace => exploreParameterSpace asciiIcu (fun _ _ => none) lineAndNothing twoQueries (ascii "default")
      fewEvaluations (atPace pace)
    (evaluatePlatformReproducibility (run 100) (run 3000) {}).passed = true ∧
      (evaluatePlatformReproducibility (run 100) (run 5000) {}).passed = false := by
  intro run
  have hall : (scheduled fewEvaluations).length = 4 := by decide +kernel
  have hintime : ∀ pace : Nat, pace ≤ 3000 → ∀ i < 3, ((atPace pace).elapsedMs i : ℚ) < 10000 := by
    intro pace hpace i hi
    have hle : pace * i ≤ 3000 * 2 := Nat.mul_le_mul hpace (by omega)
    calc ((pace : ℚ) * i) ≤ (3000 * 2 : Nat) := by exact_mod_cast hle
      _ < 10000 := by norm_num
  refine ⟨(evaluatePlatformReproducibility_runs _ _ _ _ _ _ _ _ _ _).2.2 (hintime 100 (by decide))
    (hintime 3000 (by decide)), ?_⟩
  rw [Bool.eq_false_iff, ne_eq, (evaluatePlatformReproducibility_runs _ _ _ _ _ _ _ _ _ _).1]
  have hthree : (run 100).evaluated.length = 3 := by
    have hexplored : ∃ n, Explored asciiIcu (fun _ _ => none) lineAndNothing twoQueries (ascii "default") fewEvaluations
        (atPace 100) (run 100) n := exists_explored (List.cons_ne_nil _ _)
    obtain ⟨n, h⟩ := hexplored
    rw [h.length, h.inTime_length (hintime 100 (by decide)), hall]
    rfl
  have htwo : (run 5000).evaluated.length < 3 := by
    have hexplored : ∃ n, Explored asciiIcu (fun _ _ => none) lineAndNothing twoQueries (ascii "default") fewEvaluations
        (atPace 5000) (run 5000) n := exists_explored (List.cons_ne_nil _ _)
    obtain ⟨n, h⟩ := hexplored
    rw [h.length]
    by_contra hlt
    have htime : (5000 : ℚ) * (2 : Nat) < 10000 := h.inTime 2 (by omega)
    norm_num at htime
  rintro (hlen | ⟨horder, -⟩)
  · have hlen : (run 100).evaluated.length = (run 5000).evaluated.length := hlen
    omega
  · exact absurd horder (by decide)

end Pergrep
