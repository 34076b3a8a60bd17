import Pergrep.Index.Data
import Pergrep.Lib.Double
import Pergrep.Lib.Frontier
/-!
# Pareto — which of the configurations is taken

Candidates that exceed a limit are rejected; of the others those that no other dominates are the frontier, and of the frontier one
of the least loss is taken.  `selectOptimalConfiguration_selects` says so of one run, whose frontier is that of
`computeParetoFrontier` with the losses filled in.
-/
namespace Pergrep

open PlainText (ascii decimal)

/-- What was measured of a configuration; the costs are exact. -/
structure WorkloadMetrics (Cost : Type) where
  buildTimeMs : Cost
  indexSizeBytes : Nat := 0
  peakRssBytes : Nat := 0
  coldP50Ms : Cost
  warmP50Ms : Cost
  p95Ms : Cost
  verifiedBytes : Nat := 0
  touchedBytes : Nat := 0
  fallbackRate : Cost

structure HardConstraintBounds where
  maxBuildTimeMs : Double := .finite false 30000
  maxIndexSizeBytes : Nat := 512 * 1024 * 1024
  maxPeakRssBytes : Nat := 1024 * 1024 * 1024
  maxColdP50Ms : Double := .finite false 200
  maxWarmP50Ms : Double := .finite false 25
  maxP95Ms : Double := .finite false 50
  maxFallbackRate : Double := .finite false (15 / 100)

def violation (name : String) (value limit : Bytes) : Bytes :=
  ascii name ++ ascii " (" ++ value ++ ascii " > " ++ limit ++ ascii ")"

def ratText (q : ℚ) : Bytes := (Double.ofRat q).printFixed 6

def HardConstraintBounds.checkSatisfaction (b : HardConstraintBounds) (m : WorkloadMetrics ℚ) : Except Bytes Unit :=
  if b.maxBuildTimeMs.ltRat m.buildTimeMs then
    .error (violation "build_time_ms" (ratText m.buildTimeMs) (b.maxBuildTimeMs.printFixed 6))
  else if b.maxIndexSizeBytes < m.indexSizeBytes then
    .error (violation "index_size_bytes" (decimal m.indexSizeBytes) (decimal b.maxIndexSizeBytes))
  else if b.maxPeakRssBytes < m.peakRssBytes then
    .error (violation "peak_rss_bytes" (decimal m.peakRssBytes) (decimal b.maxPeakRssBytes))
  else if b.maxColdP50Ms.ltRat m.coldP50Ms then
    .error (violation "cold_p50_ms" (ratText m.coldP50Ms) (b.maxColdP50Ms.printFixed 6))
  else if b.maxWarmP50Ms.ltRat m.warmP50Ms then
    .error (violation "warm_p50_ms" (ratText m.warmP50Ms) (b.maxWarmP50Ms.printFixed 6))
  else if b.maxP95Ms.ltRat m.p95Ms then
    .error (violation "p95_ms" (ratText m.p95Ms) (b.maxP95Ms.printFixed 6))
  else if b.maxFallbackRate.ltRat m.fallbackRate then
    .error (violation "fallback_rate" (ratText m.fallbackRate) (b.maxFallbackRate.printFixed 6))
  else .ok ()

structure ObjectiveWeights where
  weightBuildTime : ℚ := 5 / 100
  weightIndexSize : ℚ := 15 / 100
  weightPeakRss : ℚ := 10 / 100
  weightColdLatency : ℚ := 15 / 100
  weightWarmLatency : ℚ := 35 / 100
  weightP95Latency : ℚ := 10 / 100
  weightVerifiedBytes : ℚ := 5 / 100
  weightFallbackRate : ℚ := 5 / 100

def ObjectiveWeights.normalize (w : ObjectiveWeights) : ObjectiveWeights :=
  let total := w.weightBuildTime + w.weightIndexSize + w.weightPeakRss + w.weightColdLatency + w.weightWarmLatency +
    w.weightP95Latency + w.weightVerifiedBytes + w.weightFallbackRate
  let total := if total ≤ 0 then 1 else total
  { weightBuildTime := w.weightBuildTime / total
    weightIndexSize := w.weightIndexSize / total
    weightPeakRss := w.weightPeakRss / total
    weightColdLatency := w.weightColdLatency / total
    weightWarmLatency := w.weightWarmLatency / total
    weightP95Latency := w.weightP95Latency / total
    weightVerifiedBytes := w.weightVerifiedBytes / total
    weightFallbackRate := w.weightFallbackRate / total }

/-- A cost against that of the baseline, if the latter is positive; against infinity it is nothing. -/
def ratio (val : ℚ) : Double → ℚ
  | .finite negative magnitude =>
    let b := if negative then -magnitude else magnitude
    if 0 < b then val / b else val
  | .infinite negative => if negative then val else 0
  | .nan _ => val

def ObjectiveWeights.computeLoss (w : ObjectiveWeights) (m : WorkloadMetrics ℚ) (base : WorkloadMetrics Double) : ℚ :=
  let fallbackBase := if base.fallbackRate.ltRat (1 / 100) then .finite false (1 / 100) else base.fallbackRate
  w.weightBuildTime * ratio m.buildTimeMs base.buildTimeMs +
    w.weightIndexSize * ratio m.indexSizeBytes (.finite false base.indexSizeBytes) +
    w.weightPeakRss * ratio m.peakRssBytes (.finite false base.peakRssBytes) +
    w.weightColdLatency * ratio m.coldP50Ms base.coldP50Ms +
    w.weightWarmLatency * ratio m.warmP50Ms base.warmP50Ms +
    w.weightP95Latency * ratio m.p95Ms base.p95Ms +
    w.weightVerifiedBytes * ratio m.verifiedBytes (.finite false base.verifiedBytes) +
    w.weightFallbackRate * ratio m.fallbackRate fallbackBase

/-- The costs in which configurations are compared. -/
inductive Measure where
  | buildTimeMs | indexSizeBytes | peakRssBytes | coldP50Ms | warmP50Ms | p95Ms | verifiedBytes | fallbackRate

def Measure.all : List Measure :=
  [buildTimeMs, indexSizeBytes, peakRssBytes, coldP50Ms, warmP50Ms, p95Ms, verifiedBytes, fallbackRate]

theorem Measure.mem_all (i : Measure) : i ∈ Measure.all := by cases i <;> simp [Measure.all]

def WorkloadMetrics.cost (m : WorkloadMetrics ℚ) : Measure → ℚ
  | .buildTimeMs => m.buildTimeMs
  | .indexSizeBytes => m.indexSizeBytes
  | .peakRssBytes => m.peakRssBytes
  | .coldP50Ms => m.coldP50Ms
  | .warmP50Ms => m.warmP50Ms
  | .p95Ms => m.p95Ms
  | .verifiedBytes => m.verifiedBytes
  | .fallbackRate => m.fallbackRate

def paretoDominates (a b : WorkloadMetrics ℚ) : Bool := Frontier.compare a.cost b.cost Measure.all false

structure CandidateEvaluation where
  candidateId : Bytes
  options : IndexOptions := {}
  operatorPolicy : Bytes := ascii "default"
  metrics : WorkloadMetrics ℚ
  satisfiesHardLimits : Bool := true
  hardLimitViolation : Bytes := []
  weightedLoss : ℚ := 0

structure ProductTuningProfile where
  profileName : Bytes := []
  description : Bytes := []
  hardBounds : HardConstraintBounds := {}
  weights : ObjectiveWeights := {}
  baseline : WorkloadMetrics Double

structure ParetoSelectionResult where
  chosenCandidateId : Bytes := []
  selected : Option CandidateEvaluation := none
  paretoFrontier : List CandidateEvaluation := []
  rejectedHardLimits : List CandidateEvaluation := []
  dominatedCandidates : List CandidateEvaluation := []
  rationaleReport : Bytes := []

def exceeds (b : HardConstraintBounds) (c : CandidateEvaluation) : Bool :=
  match b.checkSatisfaction c.metrics with
  | .ok () => false
  | .error _ => true

def accept (c : CandidateEvaluation) : CandidateEvaluation := { c with satisfiesHardLimits := true }

def reject (b : HardConstraintBounds) (c : CandidateEvaluation) : CandidateEvaluation :=
  match b.checkSatisfaction c.metrics with
  | .ok () => c
  | .error msg => { c with satisfiesHardLimits := false, hardLimitViolation := msg }

/-- The inner loop of both frontiers: another candidate dominates the one at an index. -/
def dominatedAt (valid : List CandidateEvaluation) (c : CandidateEvaluation × Nat) : Bool :=
  valid.zipIdx.any (fun d => decide (c.2 ≠ d.2) && paretoDominates d.1.metrics c.1.metrics)

def computeParetoFrontier (candidates : List CandidateEvaluation) (hardBounds : HardConstraintBounds) :
    List CandidateEvaluation :=
  let valid := (candidates.filter (fun c => !exceeds hardBounds c)).map accept
  (valid.zipIdx.filter (fun c => !dominatedAt valid c)).map Prod.fst

def rejectedLine (c : CandidateEvaluation) : Bytes :=
  ascii "  - [" ++ c.candidateId ++ ascii "] REJECTED: " ++ c.hardLimitViolation ++ ascii "\n"

def frontierLine (c : CandidateEvaluation) : Bytes :=
  ascii "  * [" ++ c.candidateId ++ ascii "] loss=" ++ (Double.ofRat c.weightedLoss).printFixed 4 ++ ascii " warm_p50=" ++
    (Double.ofRat c.metrics.warmP50Ms).printFixed 4 ++ ascii "ms index_bytes=" ++ decimal c.metrics.indexSizeBytes ++ ascii "\n"

def lossText : WithTop ℚ → Bytes
  | ⊤ => (Double.infinite false).printFixed 4
  | (q : ℚ) => (Double.ofRat q).printFixed 4

def rationaleReport (profile : ProductTuningProfile) (total : Nat) (frontier rejected dominated : List CandidateEvaluation)
    (chosen : Bytes) (bestLoss : WithTop ℚ) : Bytes :=
  ascii "=== Pareto Configuration Selection Audit ===\n" ++
    ascii "Profile: " ++ profile.profileName ++ ascii " (" ++ profile.description ++ ascii ")\n" ++
    ascii "Total Candidates Evaluated: " ++ decimal total ++ ascii "\n" ++
    ascii "Rejected (Hard Limit Violations): " ++ decimal rejected.length ++ ascii "\n" ++ rejected.flatMap rejectedLine ++
    ascii "Dominated Candidates Filtered: " ++ decimal dominated.length ++ ascii "\n" ++
    ascii "Pareto Frontier Size: " ++ decimal frontier.length ++ ascii "\n" ++ frontier.flatMap frontierLine ++
    ascii "\nSELECTED OPTIMAL CANDIDATE: " ++ chosen ++ ascii "\n" ++
    ascii "Rationale: Satisfies all hard limits; belongs to non-dominated Pareto frontier; " ++
    ascii "achieved minimal normalized weighted loss (" ++ lossText bestLoss ++ ascii ") according to profile priorities.\n"

def weigh (profile : ProductTuningProfile) (c : CandidateEvaluation) : CandidateEvaluation :=
  { c with weightedLoss := profile.weights.normalize.computeLoss c.metrics profile.baseline }

def selectOptimalConfiguration (candidates : List CandidateEvaluation) (profile : ProductTuningProfile) :
    ParetoSelectionResult :=
  let (rejected, valid) := Frontier.split (exceeds profile.hardBounds) (reject profile.hardBounds) accept candidates
  if valid.isEmpty then
    { rejectedHardLimits := rejected
      rationaleReport := ascii "Error: All candidate configurations violated hard product constraints." }
  else
    let (dominated, frontier) := Frontier.split (dominatedAt valid) Prod.fst Prod.fst valid.zipIdx
    let frontier := frontier.map (weigh profile)
    let best := Frontier.leastFrom (frontier.map CandidateEvaluation.weightedLoss) 0 ⊤ 0
    let selected := frontier[best.2]?
    let chosen := (selected.map CandidateEvaluation.candidateId).getD []
    { chosenCandidateId := chosen
      selected
      paretoFrontier := frontier
      rejectedHardLimits := rejected
      dominatedCandidates := dominated
      rationaleReport := rationaleReport profile candidates.length frontier rejected dominated chosen best.1 }

/-! ## Limits -/

/-- No cost is above its limit. -/
structure HardConstraintBounds.Meets (b : HardConstraintBounds) (m : WorkloadMetrics ℚ) : Prop where
  buildTimeMs : b.maxBuildTimeMs.ltRat m.buildTimeMs = false
  indexSizeBytes : m.indexSizeBytes ≤ b.maxIndexSizeBytes
  peakRssBytes : m.peakRssBytes ≤ b.maxPeakRssBytes
  coldP50Ms : b.maxColdP50Ms.ltRat m.coldP50Ms = false
  warmP50Ms : b.maxWarmP50Ms.ltRat m.warmP50Ms = false
  p95Ms : b.maxP95Ms.ltRat m.p95Ms = false
  fallbackRate : b.maxFallbackRate.ltRat m.fallbackRate = false

theorem checkSatisfaction_eq_ok_iff {b : HardConstraintBounds} {m : WorkloadMetrics ℚ} :
    b.checkSatisfaction m = .ok () ↔ b.Meets m := by
  unfold HardConstraintBounds.checkSatisfaction
  constructor
  · intro h
    split at h
    · cases h
    rename_i h1
    split at h
    · cases h
    rename_i h2
    split at h
    · cases h
    rename_i h3
    split at h
    · cases h
    rename_i h4
    split at h
    · cases h
    rename_i h5
    split at h
    · cases h
    rename_i h6
    split at h
    · cases h
    rename_i h7
    exact ⟨Bool.eq_false_iff.2 h1, Nat.not_lt.1 h2, Nat.not_lt.1 h3, Bool.eq_false_iff.2 h4, Bool.eq_false_iff.2 h5,
      Bool.eq_false_iff.2 h6, Bool.eq_false_iff.2 h7⟩
  · intro h
    rw [if_neg (Bool.eq_false_iff.1 h.buildTimeMs), if_neg (Nat.not_lt.2 h.indexSizeBytes), if_neg (Nat.not_lt.2 h.peakRssBytes),
      if_neg (Bool.eq_false_iff.1 h.coldP50Ms), if_neg (Bool.eq_false_iff.1 h.warmP50Ms), if_neg (Bool.eq_false_iff.1 h.p95Ms),
      if_neg (Bool.eq_false_iff.1 h.fallbackRate)]

theorem exceeds_eq_false_iff {b : HardConstraintBounds} {c : CandidateEvaluation} :
    exceeds b c = false ↔ b.Meets c.metrics := by
  rw [← checkSatisfaction_eq_ok_iff]
  unfold exceeds
  cases b.checkSatisfaction c.metrics with
  | ok u => exact iff_of_true rfl rfl
  | error msg => exact iff_of_false (fun h => by cases h) (fun h => by cases h)

/-! ## Dominance -/

/-- **Dominance is the strict order of the costs.** -/
theorem paretoDominates_iff (a b : WorkloadMetrics ℚ) : paretoDominates a b = true ↔ a.cost < b.cost :=
  Frontier.compare_iff_lt Measure.mem_all a.cost b.cost

def costs (c : CandidateEvaluation) : Measure → ℚ := c.metrics.cost

/-- A candidate does not dominate itself, so the indices are compared for nothing. -/
theorem dominatedAt_iff {valid : List CandidateEvaluation} {c : CandidateEvaluation × Nat} (hc : c ∈ valid.zipIdx) :
    dominatedAt valid c = true ↔ Frontier.Beaten costs valid c.1 := by
  unfold dominatedAt
  simp only [List.any_eq_true, Bool.and_eq_true, decide_eq_true_eq, paretoDominates_iff]
  constructor
  · rintro ⟨d, hd, -, hlt⟩
    exact ⟨d.1, List.fst_mem_of_mem_zipIdx hd, hlt⟩
  · rintro ⟨d, hd, hlt⟩
    obtain ⟨j, hj⟩ := List.getElem?_of_mem hd
    refine ⟨(d, j), List.mk_mem_zipIdx_iff_getElem?.2 hj, ?_, hlt⟩
    rintro rfl
    have hsame : c.1 = d := Option.some.inj ((List.mem_zipIdx_iff_getElem?.1 hc).symm.trans hj)
    exact lt_irrefl _ (hsame ▸ hlt)

/-! ## Selecting -/

variable {candidates : List CandidateEvaluation} {profile : ProductTuningProfile} {c : CandidateEvaluation}

def validOf (b : HardConstraintBounds) (candidates : List CandidateEvaluation) : List CandidateEvaluation :=
  (candidates.filter (fun c => !exceeds b c)).map accept

theorem mem_computeParetoFrontier {b : HardConstraintBounds} :
    c ∈ computeParetoFrontier candidates b ↔ c ∈ validOf b candidates ∧ ¬ Frontier.Beaten costs (validOf b candidates) c := by
  refine Frontier.mem_map_fst_filter (q := fun d => ¬ Frontier.Beaten costs (validOf b candidates) d)
    (p := fun d => !dominatedAt (validOf b candidates) d) (fun d hd => ?_)
  rw [Bool.not_eq_true', ← Bool.not_eq_true, not_iff_not]
  exact dominatedAt_iff hd

theorem meets_of_mem_validOf {b : HardConstraintBounds} (h : c ∈ validOf b candidates) : b.Meets c.metrics := by
  obtain ⟨d, hd, rfl⟩ := List.mem_map.1 h
  have hd' := (List.mem_filter.1 hd).2
  rw [Bool.not_eq_true'] at hd'
  exact exceeds_eq_false_iff.1 hd'

theorem rejected_eq (candidates : List CandidateEvaluation) (profile : ProductTuningProfile) :
    (selectOptimalConfiguration candidates profile).rejectedHardLimits =
      (candidates.filter (exceeds profile.hardBounds)).map (reject profile.hardBounds) := by
  unfold selectOptimalConfiguration
  rw [Frontier.split_eq]
  dsimp only
  split
  · rfl
  · rfl

/-- **Both frontiers are one**, apart from the losses. -/
theorem paretoFrontier_eq (candidates : List CandidateEvaluation) (profile : ProductTuningProfile) :
    (selectOptimalConfiguration candidates profile).paretoFrontier =
      (computeParetoFrontier candidates profile.hardBounds).map (weigh profile) := by
  unfold selectOptimalConfiguration computeParetoFrontier
  rw [Frontier.split_eq]
  dsimp only
  split
  · rename_i hempty
    rw [List.isEmpty_iff.1 hempty]
    rfl
  · rw [Frontier.split_eq]

theorem dominated_eq (candidates : List CandidateEvaluation) (profile : ProductTuningProfile) :
    (selectOptimalConfiguration candidates profile).dominatedCandidates =
      ((validOf profile.hardBounds candidates).zipIdx.filter (dominatedAt (validOf profile.hardBounds candidates))).map Prod.fst := by
  unfold selectOptimalConfiguration validOf
  rw [Frontier.split_eq]
  dsimp only
  split
  · rename_i hempty
    rw [List.isEmpty_iff.1 hempty]
    rfl
  · rw [Frontier.split_eq]

theorem selected_eq (candidates : List CandidateEvaluation) (profile : ProductTuningProfile) :
    (selectOptimalConfiguration candidates profile).selected =
      (selectOptimalConfiguration candidates profile).paretoFrontier[(Frontier.leastFrom
        ((selectOptimalConfiguration candidates profile).paretoFrontier.map CandidateEvaluation.weightedLoss) 0 ⊤ 0).2]? := by
  unfold selectOptimalConfiguration
  rw [Frontier.split_eq]
  dsimp only
  split
  · rfl
  · rfl

theorem mem_dominated :
    c ∈ (selectOptimalConfiguration candidates profile).dominatedCandidates ↔
      c ∈ validOf profile.hardBounds candidates ∧ Frontier.Beaten costs (validOf profile.hardBounds candidates) c := by
  rw [dominated_eq]
  exact Frontier.mem_map_fst_filter (fun d hd => dominatedAt_iff hd)

theorem mem_paretoFrontier :
    c ∈ (selectOptimalConfiguration candidates profile).paretoFrontier ↔ ∃ d ∈ validOf profile.hardBounds candidates,
      ¬ Frontier.Beaten costs (validOf profile.hardBounds candidates) d ∧ weigh profile d = c := by
  rw [paretoFrontier_eq, List.mem_map]
  constructor
  · rintro ⟨d, hd, rfl⟩
    obtain ⟨hvalid, hnot⟩ := mem_computeParetoFrontier.1 hd
    exact ⟨d, hvalid, hnot, rfl⟩
  · rintro ⟨d, hvalid, hnot, rfl⟩
    exact ⟨d, mem_computeParetoFrontier.2 ⟨hvalid, hnot⟩, rfl⟩

def configuration (c : CandidateEvaluation) : Bytes × IndexOptions × Bytes × WorkloadMetrics ℚ :=
  (c.candidateId, c.options, c.operatorPolicy, c.metrics)

/-- **Each candidate is put in one place.** -/
theorem configuration_perm (candidates : List CandidateEvaluation) (profile : ProductTuningProfile) :
    (((selectOptimalConfiguration candidates profile).rejectedHardLimits ++
      (selectOptimalConfiguration candidates profile).paretoFrontier ++
      (selectOptimalConfiguration candidates profile).dominatedCandidates).map configuration).Perm
      (candidates.map configuration) := by
  have hreject : configuration ∘ reject profile.hardBounds = configuration := by
    funext c
    simp only [Function.comp_apply, reject]
    split
    · rfl
    · rfl
  -- the valid candidates, as the frontier and what is dominated
  have hvalid : ((selectOptimalConfiguration candidates profile).paretoFrontier.map configuration ++
      (selectOptimalConfiguration candidates profile).dominatedCandidates.map configuration).Perm
      ((validOf profile.hardBounds candidates).map configuration) := by
    rw [paretoFrontier_eq, dominated_eq, List.map_map]
    have hperm := ((List.filter_append_perm (dominatedAt (validOf profile.hardBounds candidates))
      (validOf profile.hardBounds candidates).zipIdx).map Prod.fst).map configuration
    rw [List.zipIdx_map_fst, List.map_append, List.map_append] at hperm
    exact List.perm_append_comm.trans hperm
  have hsides := (List.filter_append_perm (exceeds profile.hardBounds) candidates).map configuration
  rw [List.map_append] at hsides
  rw [List.append_assoc, List.map_append, List.map_append, rejected_eq, List.map_map, hreject]
  refine (List.Perm.append_left _ hvalid).trans ?_
  rw [validOf, List.map_map]
  exact hsides

/-- What a selection promises. -/
structure Selects (candidates : List CandidateEvaluation) (profile : ProductTuningProfile) (res : ParetoSelectionResult) : Prop where
  placed : ((res.rejectedHardLimits ++ res.paretoFrontier ++ res.dominatedCandidates).map configuration).Perm
    (candidates.map configuration)
  rejected : ∀ c ∈ res.rejectedHardLimits, ¬ profile.hardBounds.Meets c.metrics
  kept : ∀ c ∈ res.paretoFrontier ++ res.dominatedCandidates, profile.hardBounds.Meets c.metrics
  antichain : ∀ c ∈ res.paretoFrontier, ∀ d ∈ res.paretoFrontier, paretoDominates d.metrics c.metrics = false
  dominated : ∀ c ∈ res.dominatedCandidates, ∃ d ∈ res.paretoFrontier, paretoDominates d.metrics c.metrics = true
  nonempty : (∃ c ∈ candidates, profile.hardBounds.Meets c.metrics) → res.paretoFrontier ≠ []
  agrees : res.paretoFrontier = (computeParetoFrontier candidates profile.hardBounds).map (weigh profile)
  chosen : res.paretoFrontier ≠ [] → ∃ c, res.selected = some c ∧ c ∈ res.paretoFrontier ∧ c.candidateId = res.chosenCandidateId ∧
    ∀ d ∈ res.paretoFrontier, c.weightedLoss ≤ d.weightedLoss
  unchosen : res.paretoFrontier = [] → res.selected = none

theorem chosenCandidateId_eq (candidates : List CandidateEvaluation) (profile : ProductTuningProfile) :
    (selectOptimalConfiguration candidates profile).chosenCandidateId =
      ((selectOptimalConfiguration candidates profile).selected.map CandidateEvaluation.candidateId).getD [] := by
  unfold selectOptimalConfiguration
  rw [Frontier.split_eq]
  dsimp only
  split
  · rfl
  · rfl

theorem mem_rejected (h : c ∈ (selectOptimalConfiguration candidates profile).rejectedHardLimits) :
    ¬ profile.hardBounds.Meets c.metrics := by
  rw [rejected_eq] at h
  obtain ⟨d, hd, rfl⟩ := List.mem_map.1 h
  have hmetrics : (reject profile.hardBounds d).metrics = d.metrics := by
    unfold reject
    split
    · rfl
    · rfl
  rw [hmetrics, ← exceeds_eq_false_iff, (List.mem_filter.1 hd).2]
  exact fun h => by cases h

/-- **One of the least losses is taken.** -/
theorem selected_least (hne : (selectOptimalConfiguration candidates profile).paretoFrontier ≠ []) :
    ∃ c, (selectOptimalConfiguration candidates profile).selected = some c ∧
      c ∈ (selectOptimalConfiguration candidates profile).paretoFrontier ∧
      ∀ d ∈ (selectOptimalConfiguration candidates profile).paretoFrontier, c.weightedLoss ≤ d.weightedLoss := by
  rw [selected_eq]
  obtain ⟨x, hx, hmin⟩ := Frontier.leastFrom_eq_some ((selectOptimalConfiguration candidates profile).paretoFrontier.map
    CandidateEvaluation.weightedLoss) (fun hnil => hne (List.map_eq_nil_iff.1 hnil))
  rw [List.getElem?_map] at hx
  obtain ⟨c, hc, rfl⟩ := Option.map_eq_some_iff.1 hx
  exact ⟨c, hc, List.mem_of_getElem? hc, fun d hd => hmin _ (List.mem_map_of_mem hd)⟩

/-- **Every run of the selection keeps its promises.** -/
theorem selectOptimalConfiguration_selects (candidates : List CandidateEvaluation) (profile : ProductTuningProfile) :
    Selects candidates profile (selectOptimalConfiguration candidates profile) := by
  refine {
    placed := configuration_perm candidates profile
    rejected := fun c hc => mem_rejected hc
    kept := fun c hc => ?_
    antichain := fun c hc d hd => ?_
    dominated := fun c hc => ?_
    nonempty := ?_
    agrees := paretoFrontier_eq candidates profile
    chosen := fun hne => ?_
    unchosen := fun hnil => ?_ }
  · rcases List.mem_append.1 hc with hc | hc
    · obtain ⟨d, hd, -, rfl⟩ := mem_paretoFrontier.1 hc
      have hmeets := meets_of_mem_validOf hd
      exact hmeets
    · exact meets_of_mem_validOf (mem_dominated.1 hc).1
  · obtain ⟨c', -, hnot, rfl⟩ := mem_paretoFrontier.1 hc
    obtain ⟨d', hd', -, rfl⟩ := mem_paretoFrontier.1 hd
    rw [← Bool.not_eq_true, paretoDominates_iff]
    exact fun hlt => hnot ⟨d', hd', hlt⟩
  · obtain ⟨d, hd, hnot, hlt⟩ := Frontier.exists_unbeaten costs (mem_dominated.1 hc).2
    exact ⟨weigh profile d, mem_paretoFrontier.2 ⟨d, hd, hnot, rfl⟩, (paretoDominates_iff _ _).2 hlt⟩
  · rintro ⟨c, hc, hmeets⟩
    have hvalid : accept c ∈ validOf profile.hardBounds candidates :=
      List.mem_map_of_mem (List.mem_filter.2 ⟨hc, by rw [exceeds_eq_false_iff.2 hmeets]; rfl⟩)
    obtain ⟨d, hd, hnot⟩ := Frontier.exists_unbeaten_of_mem costs hvalid
    exact List.ne_nil_of_mem (mem_paretoFrontier.2 ⟨d, hd, hnot, rfl⟩)
  · obtain ⟨c, hc, hmem, hmin⟩ := selected_least hne
    exact ⟨c, hc, hmem, by rw [chosenCandidateId_eq, hc]; rfl, hmin⟩
  · rw [selected_eq, hnil]
    rfl

/-- A candidate whose costs are all one, under the default weights. -/
def unitCandidate : CandidateEvaluation := { candidateId := ascii "a", metrics := ⟨1, 1, 1, 1, 1, 1, 1, 1, 0⟩ }

def plainProfile : ProductTuningProfile :=
  { baseline := ⟨.finite false 0, 0, 0, .finite false 0, .finite false 0, .finite false 0, 0, 0, .finite false 0⟩ }

/-- One frontier has the losses and the other does not. -/
theorem selectOptimalConfiguration_ne : (selectOptimalConfiguration [unitCandidate] plainProfile).paretoFrontier ≠
    computeParetoFrontier [unitCandidate] plainProfile.hardBounds := by
  intro h
  have hloss := congrArg (List.map CandidateEvaluation.weightedLoss) h
  revert hloss
  decide +kernel

end Pergrep
