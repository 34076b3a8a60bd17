import Mathlib.Data.List.MinMax
import Pergrep.Lib.Double
import Pergrep.Search.Find
/-!
# Explore — the exploration of the parameters

`exploreParameterSpace` goes through the combinations of the candidates in the order of its loops, leaves out those that no index
can have, and stops at a number of evaluations or at a time.  What it has at the end (`explore_explored`): the first so many of
the combinations (`scheduled`), each as it was measured, and the first of the least score among those that work.

What is measured is an `Observations`; whether a combination works is not measured but computed (`works`).
-/
namespace Pergrep

open PlainText (ascii decimal)
open Double (roundDouble)

/-! ## The exploration -/

structure ParameterBounds where
  chunkBytesCandidates : List Nat := [8192, 16384, 32768, 65536]
  chunkOverlapCandidates : List Nat := [64, 128, 256]
  positionalBlockBytesCandidates : List Nat := [128, 256, 512]
  /-- 0.25, 0.5 and 0.75, by their bits. -/
  positionalBudgetRatioCandidates : List BudgetRatio := [⟨0x3fd0000000000000⟩, ⟨0x3fe0000000000000⟩, ⟨0x3fe8000000000000⟩]
  plannedQgramsCandidates : List Nat := [0, 1, 2, 4]
  maxEvaluations : Nat := 50
  maxSearchTimeBudgetMs : ℚ := 10000

structure TunedCandidate where
  options : IndexOptions
  toolchain : Bytes
  operatorPolicy : Bytes
  buildBytes : Nat := 0
  buildTimeMs : ℚ := 0
  searchP50Ms : ℚ := 0
  searchP95Ms : ℚ := 0
  score : ℚ := 0
  valid : Bool := true
  terminatedEarly : Bool := false
  terminationReason : Bytes := ascii "completed"

structure SearchResult where
  evaluated : List TunedCandidate := []
  best : Option TunedCandidate := none
  toolchainInfo : Bytes
  totalConfigurationsExplored : Nat := 0
  invalidConfigurationsSkipped : Nat := 0
  budgetExhausted : Bool := false

/-- What is measured of one evaluation: the times are doubles that are not negative. -/
structure Measurement where
  buildTimeMs : ℚ := 0
  /-- `index.index_bytes()` -/
  buildBytes : Nat := 0
  /-- The time of each search. -/
  latencyMs : Nat → ℚ := fun _ => 0

/-- What the machine shows: the time before an evaluation, by how many there were, and what it measures. -/
structure Observations where
  toolchain : Bytes
  elapsedMs : Nat → ℚ
  measurement : Nat → Measurement

def percentileMs (latencies : List ℚ) (index : Nat) : ℚ := (latencies.insertionSort (· ≤ ·)).getD index 0

def TunedCandidate.withLatencies (c : TunedCandidate) (latencies : List ℚ) : TunedCandidate :=
  if latencies.isEmpty then c
  else
    { c with
      searchP50Ms := percentileMs latencies (latencies.length / 2)
      searchP95Ms := percentileMs latencies ⌊roundDouble (latencies.length * roundDouble (95 / 100))⌋₊ }

def TunedCandidate.withScore (c : TunedCandidate) : TunedCandidate :=
  { c with
    score := roundDouble (roundDouble (roundDouble (roundDouble (c.searchP50Ms * 100) + roundDouble (c.searchP95Ms * 20)) +
      roundDouble (roundDouble c.buildBytes / (1024 * 1024))) + roundDouble (c.buildTimeMs * roundDouble (5 / 100)))
    valid := true }

def TunedCandidate.terminated (c : TunedCandidate) (what : String) : TunedCandidate :=
  { c with valid := false, terminatedEarly := true, terminationReason := ascii what }

def runQueries (icu : Icu) (plan : Planner) (I : IndexData) : List Pattern → Eval Unit
  | [] => .ok ()
  | q :: queries => do
    let _ ← find icu I plan q {}
    runQueries icu plan I queries

section
variable (icu : Icu) (plan : Planner) (corpus : List Document) (queries : List Pattern) (operatorPolicy : Bytes)

def evaluateCandidate (toolchain : Bytes) (opt : IndexOptions) (m : Measurement) : TunedCandidate :=
  let cand : TunedCandidate := { options := opt, toolchain := toolchain, operatorPolicy := operatorPolicy }
  match fromDocuments corpus opt with
  | .error what => cand.terminated what
  | .ok I =>
    let cand := { cand with buildTimeMs := m.buildTimeMs, buildBytes := m.buildBytes }
    match runQueries icu plan I queries with
    | .error what => cand.terminated what
    | .ok () => (cand.withLatencies ((List.range queries.length).map m.latencyMs)).withScore

/-- The loops: a combination, or one that is skipped with all that would follow from it. -/
def combinations (b : ParameterBounds) : List (Option IndexOptions) :=
  b.chunkBytesCandidates.flatMap fun chunkBytes =>
    b.chunkOverlapCandidates.flatMap fun overlap =>
      if chunkBytes ≤ overlap then [none]
      else
        b.positionalBlockBytesCandidates.flatMap fun blockBytes =>
          if chunkBytes < blockBytes then [none]
          else
            b.positionalBudgetRatioCandidates.flatMap fun budgetRatio =>
              b.plannedQgramsCandidates.map fun plannedQ => some
                { chunkBytes := chunkBytes, chunkOverlap := overlap, positionalBlockBytes := blockBytes
                  positionalBudgetRatio := budgetRatio, plannedQgrams := plannedQ }

def SearchResult.add (r : SearchResult) (cand : TunedCandidate) : SearchResult :=
  { r with
    totalConfigurationsExplored := r.totalConfigurationsExplored + 1
    best := if cand.valid then
        match r.best with
        | none      => some cand
        | some best => if cand.score < best.score then some cand else some best
      else r.best
    evaluated := r.evaluated ++ [cand] }

variable (bounds : ParameterBounds) (obs : Observations)

/-- The body of the loops, from the combinations that are left. -/
def exploreFrom : List (Option IndexOptions) → SearchResult → SearchResult
  | [], r => r
  | none :: steps, r => exploreFrom steps { r with invalidConfigurationsSkipped := r.invalidConfigurationsSkipped + 1 }
  | some opt :: steps, r =>
    if bounds.maxEvaluations ≤ r.evaluated.length then { r with budgetExhausted := true }
    else if bounds.maxSearchTimeBudgetMs ≤ obs.elapsedMs r.evaluated.length then { r with budgetExhausted := true }
    else exploreFrom steps (r.add (evaluateCandidate icu plan corpus queries operatorPolicy r.toolchainInfo opt
      (obs.measurement r.evaluated.length)))

def exploreParameterSpace : SearchResult :=
  if corpus.isEmpty then { toolchainInfo := obs.toolchain }
  else exploreFrom icu plan corpus queries operatorPolicy bounds obs (combinations bounds) { toolchainInfo := obs.toolchain }

/-! ## What an exploration has at its end -/

/-- The combinations in the order of the loops, without those that are skipped. -/
def scheduled (b : ParameterBounds) : List IndexOptions := (combinations b).filterMap id

def measured (opts : List IndexOptions) : List TunedCandidate :=
  opts.mapIdx fun i opt => evaluateCandidate icu plan corpus queries operatorPolicy obs.toolchain opt (obs.measurement i)

def works (opt : IndexOptions) : Bool :=
  match fromDocuments corpus opt with
  | .error _ => false
  | .ok I => (runQueries icu plan I queries).isOk

/-- What the loops come by before the combination that follows the first `n` they evaluate. -/
def visited : Nat → List (Option IndexOptions) → List (Option IndexOptions)
  | _, [] => []
  | n, none :: steps => none :: visited n steps
  | 0, some _ :: _ => []
  | n + 1, some opt :: steps => some opt :: visited n steps

/-- What is true of a result between two combinations: the ones before are `done`. -/
structure Upto (done : List (Option IndexOptions)) (r : SearchResult) : Prop where
  toolchain : r.toolchainInfo = obs.toolchain
  evaluated : r.evaluated = measured icu plan corpus queries operatorPolicy obs (done.filterMap id)
  within : r.evaluated.length ≤ bounds.maxEvaluations
  inTime : ∀ i < r.evaluated.length, obs.elapsedMs i < bounds.maxSearchTimeBudgetMs
  best : r.best = (r.evaluated.filter (·.valid)).argmin (·.score)
  explored : r.totalConfigurationsExplored = r.evaluated.length
  skipped : r.invalidConfigurationsSkipped = done.count none

/-- What is true of a result at the end, with `n` evaluations. -/
structure Explored (r : SearchResult) (n : Nat) : Prop where
  le : n ≤ (scheduled bounds).length
  evaluated : r.evaluated = measured icu plan corpus queries operatorPolicy obs ((scheduled bounds).take n)
  within : n ≤ bounds.maxEvaluations
  inTime : ∀ i < n, obs.elapsedMs i < bounds.maxSearchTimeBudgetMs
  stopped : n < (scheduled bounds).length → n = bounds.maxEvaluations ∨ bounds.maxSearchTimeBudgetMs ≤ obs.elapsedMs n
  exhausted : r.budgetExhausted = decide (n < (scheduled bounds).length)
  best : r.best = (r.evaluated.filter (·.valid)).argmin (·.score)
  explored : r.totalConfigurationsExplored = n
  skipped : r.invalidConfigurationsSkipped = (visited n (combinations bounds)).count none

variable {icu plan corpus queries operatorPolicy bounds obs}

theorem measured_length (opts : List IndexOptions) :
    (measured icu plan corpus queries operatorPolicy obs opts).length = opts.length := List.length_mapIdx

theorem measured_concat (opts : List IndexOptions) (opt : IndexOptions) :
    measured icu plan corpus queries operatorPolicy obs (opts ++ [opt]) =
      measured icu plan corpus queries operatorPolicy obs opts ++
        [evaluateCandidate icu plan corpus queries operatorPolicy obs.toolchain opt (obs.measurement opts.length)] :=
  List.mapIdx_concat

theorem withLatencies_options (c : TunedCandidate) (latencies : List ℚ) : (c.withLatencies latencies).options = c.options := by
  unfold TunedCandidate.withLatencies
  split <;> rfl

theorem evaluateCandidate_options (toolchain : Bytes) (opt : IndexOptions) (m : Measurement) :
    (evaluateCandidate icu plan corpus queries operatorPolicy toolchain opt m).options = opt := by
  unfold evaluateCandidate
  cases fromDocuments corpus opt with
  | error what => rfl
  | ok I =>
    dsimp only
    cases runQueries icu plan I queries with
    | error what => rfl
    | ok u => exact withLatencies_options _ _

theorem evaluateCandidate_valid (toolchain : Bytes) (opt : IndexOptions) (m : Measurement) :
    (evaluateCandidate icu plan corpus queries operatorPolicy toolchain opt m).valid = works icu plan corpus queries opt := by
  unfold evaluateCandidate works
  cases fromDocuments corpus opt with
  | error what => rfl
  | ok I =>
    dsimp only
    cases runQueries icu plan I queries <;> rfl

theorem map_measured {α : Type} {g : TunedCandidate → α} {f : IndexOptions → α} (opts : List IndexOptions)
    (hg : ∀ toolchain opt m, g (evaluateCandidate icu plan corpus queries operatorPolicy toolchain opt m) = f opt) :
    (measured icu plan corpus queries operatorPolicy obs opts).map g = opts.map f := by
  refine List.ext_getElem? fun i => ?_
  rw [List.getElem?_map, measured, List.getElem?_mapIdx, List.getElem?_map, Option.map_map]
  exact congrArg (Option.map · opts[i]?) (funext fun opt => hg _ opt _)

theorem measured_options (opts : List IndexOptions) :
    (measured icu plan corpus queries operatorPolicy obs opts).map (·.options) = opts := by
  rw [map_measured opts evaluateCandidate_options, List.map_id']

theorem measured_any_valid (opts : List IndexOptions) :
    (measured icu plan corpus queries operatorPolicy obs opts).any (·.valid) = opts.any (works icu plan corpus queries) := by
  have hvalid : (measured icu plan corpus queries operatorPolicy obs opts).map (·.valid) =
      opts.map (works icu plan corpus queries) := map_measured opts evaluateCandidate_valid
  have hany := congrArg (List.any · id) hvalid
  rwa [List.any_map, List.any_map] at hany

theorem best_add {r : SearchResult} (h : r.best = (r.evaluated.filter (·.valid)).argmin (·.score)) (cand : TunedCandidate) :
    (r.add cand).best = ((r.add cand).evaluated.filter (·.valid)).argmin (·.score) := by
  simp only [SearchResult.add, List.filter_append, h]
  cases hvalid : cand.valid with
  | false => simp [hvalid]
  | true =>
    rw [List.filter_cons_of_pos hvalid, List.filter_nil, List.argmin_concat]
    cases (r.evaluated.filter (·.valid)).argmin (·.score) <;> rfl

theorem visited_append : ∀ (done steps : List (Option IndexOptions)),
    visited (done.filterMap id).length (done ++ steps) = done ++ visited 0 steps
  | [], _ => rfl
  | none :: done, steps => by
    rw [List.cons_append, visited, List.filterMap_cons_none rfl, visited_append done steps, List.cons_append]
  | some opt :: done, steps => by
    change visited ((done.filterMap id).length + 1) (some opt :: (done ++ steps)) = _
    rw [visited, visited_append done steps, List.cons_append]

section

variable {done : List (Option IndexOptions)} {r : SearchResult}

theorem Upto.length (h : Upto icu plan corpus queries operatorPolicy bounds obs done r) :
    r.evaluated.length = (done.filterMap id).length := by rw [h.evaluated, measured_length]

theorem scheduled_eq {steps : List (Option IndexOptions)} (h : combinations bounds = done ++ steps) :
    scheduled bounds = done.filterMap id ++ steps.filterMap id := by rw [scheduled, h, List.filterMap_append]

theorem Upto.take (h : Upto icu plan corpus queries operatorPolicy bounds obs done r) {steps : List (Option IndexOptions)}
    (hsteps : combinations bounds = done ++ steps) : (scheduled bounds).take r.evaluated.length = done.filterMap id := by
  rw [scheduled_eq hsteps, h.length, List.take_left]

theorem Upto.skip (h : Upto icu plan corpus queries operatorPolicy bounds obs done r) :
    Upto icu plan corpus queries operatorPolicy bounds obs (done ++ [none])
      { r with invalidConfigurationsSkipped := r.invalidConfigurationsSkipped + 1 } where
  toolchain := h.toolchain
  evaluated := by simpa using h.evaluated
  within := h.within
  inTime := h.inTime
  best := h.best
  explored := h.explored
  skipped := by simp [h.skipped]

theorem Upto.add (h : Upto icu plan corpus queries operatorPolicy bounds obs done r) (opt : IndexOptions)
    (hmax : r.evaluated.length < bounds.maxEvaluations)
    (htime : obs.elapsedMs r.evaluated.length < bounds.maxSearchTimeBudgetMs) :
    Upto icu plan corpus queries operatorPolicy bounds obs (done ++ [some opt])
      (r.add (evaluateCandidate icu plan corpus queries operatorPolicy r.toolchainInfo opt
        (obs.measurement r.evaluated.length))) where
  toolchain := h.toolchain
  evaluated := by
    rw [List.filterMap_append, show [some opt].filterMap id = [opt] from rfl, measured_concat, ← h.evaluated, ← h.length,
      ← h.toolchain]
    rfl
  within := by
    rw [SearchResult.add, List.length_append]
    exact hmax
  inTime i hi := by
    rcases Nat.lt_succ_iff_lt_or_eq.1 (by simpa [SearchResult.add] using hi) with hlt | rfl
    · exact h.inTime i hlt
    · exact htime
  best := best_add h.best _
  explored := by simp [SearchResult.add, h.explored]
  skipped := by simp [SearchResult.add, h.skipped]

theorem exploreFrom_explored (steps : List (Option IndexOptions)) (r : SearchResult) (done : List (Option IndexOptions))
    (hsteps : combinations bounds = done ++ steps) (hrunning : r.budgetExhausted = false)
    (h : Upto icu plan corpus queries operatorPolicy bounds obs done r) :
    ∃ n, Explored icu plan corpus queries operatorPolicy bounds obs
      (exploreFrom icu plan corpus queries operatorPolicy bounds obs steps r) n := by
  induction steps generalizing r done with
  | nil =>
    have hn : r.evaluated.length = (scheduled bounds).length := by rw [h.length, scheduled_eq hsteps]; simp
    refine ⟨r.evaluated.length, ?_⟩
    exact {
      le := Nat.le_of_eq hn
      evaluated := by rw [h.take hsteps]; exact h.evaluated
      within := h.within
      inTime := h.inTime
      stopped := fun hlt => absurd hn (Nat.ne_of_lt hlt)
      exhausted := by rw [hn, decide_eq_false (Nat.lt_irrefl _)]; exact hrunning
      best := h.best
      explored := h.explored
      skipped := by
        rw [h.length, hsteps, visited_append, visited, List.append_nil]
        exact h.skipped }
  | cons step steps ih =>
    cases step with
    | none =>
      rw [exploreFrom]
      exact ih _ (done ++ [none]) (by rw [hsteps, List.append_assoc]; rfl) hrunning h.skip
    | some opt =>
      have hlt : r.evaluated.length < (scheduled bounds).length := by rw [h.length, scheduled_eq hsteps]; simp
      -- the budgets stop the loops in the same way
      have hstop (hcause : r.evaluated.length = bounds.maxEvaluations ∨
          bounds.maxSearchTimeBudgetMs ≤ obs.elapsedMs r.evaluated.length) :
          Explored icu plan corpus queries operatorPolicy bounds obs { r with budgetExhausted := true }
            r.evaluated.length := {
        le := Nat.le_of_lt hlt
        evaluated := by rw [h.take hsteps]; exact h.evaluated
        within := h.within
        inTime := h.inTime
        stopped := fun _ => hcause
        exhausted := (decide_eq_true hlt).symm
        best := h.best
        explored := h.explored
        skipped := by
          rw [h.length, hsteps, visited_append, visited, List.append_nil]
          exact h.skipped }
      rw [exploreFrom]
      split
      · rename_i hmax
        exact ⟨_, hstop (.inl (Nat.le_antisymm h.within hmax))⟩
      · split
        · rename_i htime
          exact ⟨_, hstop (.inr htime)⟩
        · rename_i hmax htime
          exact ih _ (done ++ [some opt]) (by rw [hsteps, List.append_assoc]; rfl) hrunning
            (h.add opt (Nat.lt_of_not_le hmax) (lt_of_not_ge htime))

end

theorem exists_explored (hcorpus : corpus ≠ []) :
    ∃ n, Explored icu plan corpus queries operatorPolicy bounds obs
      (exploreParameterSpace icu plan corpus queries operatorPolicy bounds obs) n := by
  unfold exploreParameterSpace
  rw [if_neg (by simpa using hcorpus)]
  exact exploreFrom_explored (combinations bounds) _ [] rfl rfl {
    toolchain := rfl
    evaluated := rfl
    within := Nat.zero_le _
    inTime := fun i hi => absurd hi (Nat.not_lt_zero i)
    best := rfl
    explored := rfl
    skipped := rfl }

theorem Explored.length {r : SearchResult} {n : Nat} (h : Explored icu plan corpus queries operatorPolicy bounds obs r n) :
    r.evaluated.length = n := by rw [h.evaluated, measured_length, List.length_take, Nat.min_eq_left h.le]

/-- **An exploration**: the first so many of the combinations in the order of the loops, as many as the two budgets let it,
each as it was measured; the best of it is the first of the least score among those that work, and what it counts as skipped
is what the loops skipped before they stopped. -/
theorem explore_explored (hcorpus : corpus ≠ []) :
    Explored icu plan corpus queries operatorPolicy bounds obs
      (exploreParameterSpace icu plan corpus queries operatorPolicy bounds obs)
      (exploreParameterSpace icu plan corpus queries operatorPolicy bounds obs).evaluated.length := by
  have hexplored : ∃ n, Explored icu plan corpus queries operatorPolicy bounds obs
      (exploreParameterSpace icu plan corpus queries operatorPolicy bounds obs) n := exists_explored hcorpus
  obtain ⟨n, h⟩ := hexplored
  rw [h.length]
  exact h

theorem Explored.inTime_length {r : SearchResult} {n : Nat}
    (h : Explored icu plan corpus queries operatorPolicy bounds obs r n)
    (htime : ∀ i < bounds.maxEvaluations, obs.elapsedMs i < bounds.maxSearchTimeBudgetMs) :
    n = min bounds.maxEvaluations (scheduled bounds).length := by
  refine Nat.le_antisymm (Nat.le_min.2 ⟨h.within, h.le⟩) ?_
  rcases Nat.lt_or_ge n (scheduled bounds).length with hlt | hge
  · rcases Nat.lt_or_eq_of_le h.within with hfew | rfl
    · rcases h.stopped hlt with rfl | hlate
      · exact absurd hfew (Nat.lt_irrefl _)
      · exact absurd (htime n hfew) (not_lt_of_ge hlate)
    · exact Nat.min_le_left _ _
  · exact Nat.le_trans (Nat.min_le_right _ _) hge

/-- Four combinations and three that are skipped, before, between and after them; three evaluations are asked for. -/
def fewEvaluations : ParameterBounds :=
  { chunkBytesCandidates := [16, 64, 128], chunkOverlapCandidates := [32], positionalBlockBytesCandidates := [16, 256]
    positionalBudgetRatioCandidates := [⟨0x3fe0000000000000⟩], plannedQgramsCandidates := [0, 2], maxEvaluations := 3 }

/-- A machine on which an evaluation takes `pace` milliseconds. -/
def atPace (pace : Nat) : Observations :=
  { toolchain := ascii "gcc-13.2-x86_64-linux", elapsedMs := fun i => pace * i
    measurement := fun i => { buildTimeMs := pace, buildBytes := 4096, latencyMs := fun _ => i + 1 } }

def lineAndNothing : List Document := [{ path := [0x66], content := [0x61, 0x0A, 0x62] }, { path := [0x67], content := [] }]

def twoQueries : List Pattern := [{ expr := [0x61], opt := { kind := .fixed } }, { expr := [0x62, 0x63], opt := { kind := .fixed } }]

/-- At five seconds each the time is up before the third evaluation, after two of the three combinations to skip. -/
theorem explore_explored_slow :
    let r := exploreParameterSpace asciiIcu (fun _ _ => none) lineAndNothing twoQueries (ascii "default") fewEvaluations (atPace 5000)
    Explored asciiIcu (fun _ _ => none) lineAndNothing twoQueries (ascii "default") fewEvaluations (atPace 5000) r 2 ∧
      r.invalidConfigurationsSkipped = 2 := by
  intro r
  have h : Explored asciiIcu (fun _ _ => none) lineAndNothing twoQueries (ascii "default") fewEvaluations (atPace 5000) r
      r.evaluated.length := explore_explored (List.cons_ne_nil _ _)
  generalize r.evaluated.length = n at h
  have hall : (scheduled fewEvaluations).length = 4 := by decide +kernel
  have htwo : n = 2 := by
    have hle : n ≤ 2 := by
      by_contra hlt
      have htime : (5000 : ℚ) * (2 : Nat) < 10000 := h.inTime 2 (by omega)
      norm_num at htime
    rcases h.stopped (by omega) with hmax | hlate
    · exact absurd (hmax.symm.trans_le hle) (by decide)
    · have hlate : (10000 : ℚ) ≤ 5000 * n := hlate
      have : (2 : ℚ) ≤ n := by linarith
      exact Nat.le_antisymm hle (by exact_mod_cast this)
  rw [htwo] at h
  exact ⟨h, h.skipped.trans (by decide +kernel)⟩

end

end Pergrep
