import Pergrep.Search.ScopeLaw
/-!
# Bounds — `max_matches`, the first hit and the first file

A scan that pushes its matches one at a time and asks the bound after each gives the first of them, as many as the bound
allows.  The verifier of a regex takes a record at a time and asks the bound after each record: a number of matches still
gives the first of them (`find_max`), but the first-hit objective stops it after the first record, whether or not that has a
match.  So the first hit is the first match exactly when the first record taken has a match or none has
(`find_first_iff`), and the first file of a first-hit query the first of the list under the same condition, file by file
(`files_first_iff`).  A number of matches also turns the guarded dispatch off, so the blocks must show what it finds
(`find_max_iff`), and what it gives first.
-/
namespace Pergrep

open Emit Throw

def SearchOptions.bounded (opt : SearchOptions) (objective : SearchObjective) (k : Nat) : SearchOptions :=
  { opt with objective := objective, maxMatches := k }

theorem resultBoundReached_max (opt : SearchOptions) {k : Nat} (hk : 0 < k) :
    resultBoundReached (opt.bounded .exhaustive k) = fun out => decide (k ≤ out.length) := by
  funext out
  have hne : k ≠ 0 := by omega
  unfold resultBoundReached SearchOptions.bounded
  dsimp only
  rw [decide_eq_true hne, Bool.true_and]
  rfl

theorem resultBoundReached_first (opt : SearchOptions) (k : Nat) :
    resultBoundReached (opt.bounded .firstHit k) = fun _ => true := by
  funext out
  simp [resultBoundReached, SearchOptions.bounded]

/-! ## The verifier of a record -/

section
variable (icu : Icu) (re : RegexProgram)

theorem findAllLoop_max {c : VerifierContext} {overlapping : Bool} {fid k : Nat} : ∀ {fuel count count₀ pos : Nat}
    {ms : List Match}, count < k → findAllLoop icu re c overlapping fid 0 fuel count₀ pos = .ok ms →
      findAllLoop icu re c overlapping fid k fuel count pos = .ok (ms.take (k - count))
  | 0, _, _, _, _, _, h => by
    cases h
    rw [List.take_nil]
    rfl
  | fuel + 1, count, count₀, pos, ms, hk, h => by
    rw [findAllLoop] at h ⊢
    split
    · rename_i hlt
      rw [if_pos hlt] at h
      obtain ⟨r, hr, h⟩ := bind_ok h
      rw [hr]
      cases r with
      | none =>
        cases h
        rw [List.take_nil]
        rfl
      | some m =>
        dsimp only at h
        rw [if_neg (fun h => h.1 rfl)] at h
        obtain ⟨rest, hrest, h⟩ := bind_ok h
        cases h
        change (if k ≠ 0 ∧ k ≤ count + 1 then _ else _) = _
        by_cases hstop : k ≤ count + 1
        · rw [if_pos ⟨by omega, hstop⟩, show k - count = 1 by omega]
          rfl
        · rw [if_neg (fun h => hstop h.2), findAllLoop_max (by omega) hrest, show k - count = (k - (count + 1)) + 1 by omega,
            List.take_succ_cons]
          rfl
    · rename_i hlt
      rw [if_neg hlt] at h
      cases h
      rw [List.take_nil]

/-- **The verifier under a number of matches** pushes what it finds under it. -/
theorem verifyContext_max (opt : SearchOptions) {c : VerifierContext} {fid k : Nat} {ms out : List Match} (hout : out.length < k)
    (h : regexFindAll icu re c opt.overlapping fid 0 = .ok ms) :
    verifyContext icu re (opt.bounded .exhaustive k) fid c out =
      .ok (pushAll (fun out => decide (k ≤ out.length)) out ms) := by
  have hremain : remain (opt.bounded .exhaustive k) out = k - out.length := by
    have hne : k ≠ 0 := by omega
    simp [remain, SearchOptions.bounded, hne]
  have hrun : regexFindAll icu re c opt.overlapping fid (k - out.length) = .ok (ms.take (k - out.length)) :=
    @findAllLoop_max icu re c opt.overlapping fid (k - out.length) _ 0 0 _ ms (by omega) h
  have htake : out ++ ms.take (k - out.length) = (out ++ ms).take k := by
    rw [List.take_append, List.take_of_length_le hout.le]
  rw [verifyContext, hremain, show (opt.bounded .exhaustive k).overlapping = opt.overlapping from rfl, hrun,
    resultBoundReached_max opt (by omega)]
  refine congrArg Except.ok (Prod.ext ?_ ?_)
  · exact htake.trans (pushAll_length ms out hout).symm
  · change decide (k ≤ (out ++ ms.take (k - out.length)).length) = _
    rw [pushAll_length_snd ms out hout, htake, List.length_take]
    by_cases hle : k ≤ (out ++ ms).length
    · rw [Nat.min_eq_left hle, decide_eq_true hle, decide_eq_true (Nat.le_refl k)]
    · rw [Nat.min_eq_right (by omega)]

/-- **The verifier of a first hit** stops after its record. -/
theorem verifyContext_first (opt : SearchOptions) {c : VerifierContext} {fid : Nat} {ms out : List Match}
    (h : regexFindAll icu re c opt.overlapping fid 0 = .ok ms) (k : Nat) :
    verifyContext icu re (opt.bounded .firstHit k) fid c out = .ok (out ++ ms.take 1, true) := by
  have hrun : regexFindAll icu re c opt.overlapping fid 1 = .ok (ms.take 1) :=
    @findAllLoop_max icu re c opt.overlapping fid 1 _ 0 0 _ ms (by omega) h
  have hremain : remain (opt.bounded .firstHit k) out = 1 := rfl
  rw [verifyContext, hremain, show (opt.bounded .firstHit k).overlapping = opt.overlapping from rfl, hrun,
    resultBoundReached_first]
  rfl

end

/-! ## The records a regex is tried on -/

section
variable (icu : Icu) (I : IndexData) (p : Pattern) (re : RegexProgram) (opt : SearchOptions)

/-- The records of a file for the full verifier; none where the short literal is missing. -/
def regexContexts (lit : Bytes) (fid : Nat) : List VerifierContext :=
  if skipsBinary I opt fid then []
  else if !lit.isEmpty ∧ lit.length < 4 ∧ p.opt.caseMode = .sensitive ∧ Substr.findFrom (I.data fid) lit 0 = none then []
  else (regexRecords p opt (I.data fid)).map (recordContext p.opt.crlf opt.recordSeparator (I.data fid))

def regionContexts (a : RegexAnalysis) (fid : Nat) : List VerifierContext :=
  if skipsBinary I opt fid then [] else boundedContexts p re opt a (I.data fid)

/-- The candidate files of a regex, and what the verifier is run on in a file. -/
def verifierFiles : List Nat × (Nat → List VerifierContext) :=
  let records := regexContexts I p opt (mandatoryLiteral p re)
  let files := candidateFiles I (regexCandidates I p re opt)
  if boundedRegionRequested re p.opt then
    match boundedRegexEligible re p.opt with
    | some a => (files, if (boundedBranches re).isEmpty then records else regionContexts I p re opt a)
    | none => (candidateFiles I ((List.range I.chunks.length).filter (fun ci =>
        ((I.chunks[ci]?).map (fun z => allows I opt.eligibleFileIds z.fileId)).getD false)), records)
  else (files, records)

def verifierRuns : List (Nat × VerifierContext) :=
  (verifierFiles I p re opt).1.flatMap (fun fid => ((verifierFiles I p re opt).2 fid).map (fun c => (fid, c)))

/-- **The regex branch is the verifier over its runs.** -/
theorem findRegexBranch_eq : findRegexBranch icu I p re opt =
    eachE (fun run => verifyContext icu re opt run.1 run.2) (verifierRuns I p re opt) [] := by
  have hfiles : ∀ {contexts : Nat → List VerifierContext} {body : Nat → List Match → Eval (List Match × Bool)},
      (∀ fid out, body fid out = eachE (verifyContext icu re opt fid) (contexts fid) out) → ∀ files,
        eachE body files [] = eachE (fun run => verifyContext icu re opt run.1 run.2)
          (files.flatMap (fun fid => (contexts fid).map (fun c => (fid, c)))) [] := by
    intro contexts body hbody files
    rw [eachE_flatMap]
    refine eachE_congr (fun fid _ out => ?_) []
    rw [hbody, eachE_map]
  have hrecords : ∀ (lit : Bytes) (cv : List Nat), findRegex icu I p re opt lit cv =
      eachE (fun run => verifyContext icu re opt run.1 run.2)
        ((candidateFiles I cv).flatMap (fun fid => (regexContexts I p opt lit fid).map (fun c => (fid, c)))) [] := by
    intro lit cv
    refine hfiles (fun fid out => ?_) _
    unfold regexContexts
    dsimp only
    split
    · rfl
    · split
      · rfl
      · rfl
  unfold findRegexBranch verifierRuns verifierFiles
  dsimp only
  cases boundedRegionRequested re p.opt with
  | false => exact hrecords _ _
  | true =>
    rw [if_pos rfl, if_pos rfl]
    cases boundedRegexEligible re p.opt with
    | none => exact hrecords _ _
    | some a =>
      dsimp only
      cases (boundedBranches re).isEmpty with
      | true => exact hrecords _ _
      | false =>
        refine hfiles (fun fid out => ?_) _
        rw [if_neg Bool.false_ne_true, regionContexts]
        split
        · rfl
        · rfl

def runMatches (run : Nat × VerifierContext) : Eval (List Match) := regexFindAll icu re run.2 opt.overlapping run.1 0

theorem findRegexBranch_never (hobj : opt.objective = .exhaustive) (hmax : opt.maxMatches = 0) :
    findRegexBranch icu I p re opt =
      (concatE (runMatches icu re opt) (verifierRuns I p re opt)).map (fun ms => ([] ++ ms, false)) := by
  rw [findRegexBranch_eq]
  exact eachE_concat (fun run _ out => verifyContext_never icu re opt hobj hmax run.1 run.2 out) []

variable {icu I p re opt} {ms : List Match} (h : concatE (runMatches icu re opt) (verifierRuns I p re opt) = .ok ms)
include h

theorem findRegexBranch_max {k : Nat} (hk : 0 < k) : findRegexBranch icu I p re (opt.bounded .exhaustive k) =
    .ok (pushAll (fun out => decide (k ≤ out.length)) [] ms) := by
  obtain ⟨hall, rfl⟩ := concatE_eq_ok.1 h
  rw [findRegexBranch_eq]
  exact eachE_pushAll (fun bs out hout hcut => length_of_pushAll hout hcut)
    (fun run hrun out hout => verifyContext_max icu re opt hout (hall run hrun)) [] hk

theorem findRegexBranch_first (k : Nat) : ∃ stopped, findRegexBranch icu I p re (opt.bounded .firstHit k) =
    .ok ((((verifierRuns I p re opt).head?.map (fun run => value (runMatches icu re opt run))).getD []).take 1, stopped) := by
  obtain ⟨hall, -⟩ := concatE_eq_ok.1 h
  rw [findRegexBranch_eq, show verifierRuns I p re (opt.bounded .firstHit k) = verifierRuns I p re opt from rfl]
  cases hruns : verifierRuns I p re opt with
  | nil => exact ⟨false, rfl⟩
  | cons run runs =>
    have hrun := hall run (by rw [hruns]; exact List.mem_cons_self)
    refine ⟨true, ?_⟩
    rw [eachE, verifyContext_first icu re opt hrun]
    rfl

end

/-! ## Scans that push -/

section
variable (icu : Icu) (I : IndexData) (p : Pattern) (opt : SearchOptions)

theorem findFixed_bounded (objective : SearchObjective) (k : Nat) : ∃ bs, ∀ full,
    findFixed icu I p opt none full = pushAll full [] bs ∧
      findFixed icu I p (opt.bounded objective k) none full = pushAll full [] bs := by
  have hsame : ∀ full, findFixed icu I p (opt.bounded objective k) none full = findFixed icu I p opt none full :=
    fun full => rfl
  have hpushes : ∃ bs, ∀ full, findFixed icu I p opt none full = pushAll full [] bs := by
    unfold findFixed
    split
    · obtain ⟨s, hwhole⟩ := findWholeFile_pushes icu I p opt
      exact ⟨_, fun full => (hwhole full []).1⟩
    split
    · exact ⟨_, fun full => ((Pushes.each _ (fun ci _ s => scanChunk_emits icu I p opt _ _ ci s) _) full []).1⟩
    split
    · exact ⟨_, fun full => ((Pushes.each _ (fun b _ s => scanBlock_emits icu I p opt b s) _) full []).1⟩
    · exact ⟨_, fun full => ((Pushes.each _ (fun ci _ s => scanLong_emits icu I p opt ci s) _) full []).1⟩
  obtain ⟨bs, hbs⟩ := hpushes
  exact ⟨bs, fun full => ⟨hbs full, (hsame full).trans (hbs full)⟩⟩

theorem findInvert_bounded (hobj : opt.objective = .exhaustive) (hmax : opt.maxMatches = 0) {r : List Match × Bool}
    (h : findInvert icu I p opt = .ok r) (objective : SearchObjective) (k : Nat) :
    findInvert icu I p (opt.bounded objective k) = .ok (pushAll (resultBoundReached (opt.bounded objective k)) [] r.1) := by
  rw [findInvert_never icu I p opt hobj hmax, ← concatE_skip
    (f := fun fid => if allows I opt.eligibleFileIds fid then invertedFile icu I p opt fid else .ok []) (fun _ _ => rfl)] at h
  obtain ⟨ms, hms, rfl⟩ := map_ok h
  obtain ⟨hall, rfl⟩ := concatE_eq_ok.1 hms
  refine @eachE_pushAll _ _ _ _ _ (fun _ => True) _ (fun _ _ _ _ => trivial) _ (fun fid hfid out _ => ?_) [] trivial
  have hfile := hall fid hfid
  change (if !allows I opt.eligibleFileIds fid || skipsBinary I opt fid then _ else _) = _
  cases hallow : allows I opt.eligibleFileIds fid with
  | false => rfl
  | true =>
    rw [hallow, if_pos rfl] at hfile
    rw [if_pos rfl]
    unfold invertedFile at hfile ⊢
    cases hskip : skipsBinary I opt fid with
    | true => rfl
    | false =>
      rw [hskip, if_neg Bool.false_ne_true] at hfile
      obtain ⟨hrecords, hlist⟩ := concatE_eq_ok.1 hfile
      rw [if_neg Bool.false_ne_true, hlist]
      refine @eachE_pushAll _ _ _ _ _ (fun _ => True) _ (fun _ _ _ _ => trivial) _ (fun r hr out _ => ?_) out trivial
      obtain ⟨b, hb, hrecord⟩ := map_ok (hrecords r hr)
      rw [invertRecord, show recordMatched icu I p (opt.bounded objective k) fid r = .ok b from hb, ← hrecord]
      cases b with
      | true => rfl
      | false =>
        have hpush : ∀ full : List Match → Bool, ∀ m, pushAll full out [m] = (out ++ [m], full (out ++ [m])) := by
          intro full m
          rw [pushAll]
          cases full (out ++ [m]) with
          | true => rfl
          | false => rfl
        exact congrArg Except.ok (hpush _ _).symm

/-! ## `find` under a bound -/

variable {icu I p opt}

/-- The program of a pattern that is searched record by record: not inverted, no literal. -/
def recordLoop (p : Pattern) (opt : SearchOptions) : Option RegexProgram :=
  if opt.invertMatch then none else p.re.filter (fun re => !rewritesToFixed p re opt)

theorem find_eq (plan : Planner) {r : List Match × Bool} (h : findRaw icu I plan p opt = .ok r) :
    find icu I plan p opt =
      .ok (if opt.maxMatches ≠ 0 ∧ opt.maxMatches < r.1.length then r.1.take opt.maxMatches else r.1) := by
  unfold find
  rw [h]
  rfl

/-- The guarded dispatch gives what the fixed branch gives. -/
def Unguarded (icu : Icu) (I : IndexData) (plan : Planner) (p : Pattern) (opt : SearchOptions) : Prop :=
  p.re = none → ∀ full, findFixed icu I p opt (guardedOperator I plan p opt) full = findFixed icu I p opt none full

variable (plan : Planner)

theorem unguarded_of_off (hoff : fixedGuardEligible I p opt = false) : Unguarded icu I plan p opt := by
  intro _ full
  rw [guardedOperator, hoff, if_neg Bool.false_ne_true]

theorem unguarded_max (hmax : opt.maxMatches ≠ 0) : Unguarded icu I plan p opt :=
  unguarded_of_off plan (by simp [fixedGuardEligible, hmax])

theorem unguarded_scoped (hscope : opt.eligibleFileIds ≠ []) : Unguarded icu I plan p opt :=
  unguarded_of_off plan (by simp [fixedGuardEligible, List.isEmpty_eq_false_iff.2 hscope])

theorem PlanShows.unguarded (hI : Laid I) (h : PlanShows I plan p opt (fun _ => true)) : Unguarded icu I plan p opt := by
  intro hre full
  unfold guardedOperator
  cases hguard : fixedGuardEligible I p opt with
  | false => rw [if_neg Bool.false_ne_true]
  | true =>
    have hplain := plain_of_guard hguard
    rw [if_pos rfl, hplain.findFixed_shown hI, hplain.findFixed_shown hI]
    cases hop : plan p opt with
    | none => rfl
    | some op =>
      have heq := (shownMatches_scope_iff hI hplain.nonempty op (fun _ => true)).2 (h hre hguard op hop)
      rw [List.filter_true, List.filter_true] at heq
      rw [Option.getD_some, Option.getD_none, heq]

variable (hobj : opt.objective = .exhaustive) (hmax : opt.maxMatches = 0)
include hobj hmax

theorem findRaw_bounded (hloop : recordLoop p opt = none) {r : List Match × Bool} (h : findRaw icu I plan p opt = .ok r)
    (objective : SearchObjective) (k : Nat) (hu : Unguarded icu I plan p opt)
    (hu' : Unguarded icu I plan p (opt.bounded objective k)) : findRaw icu I plan p (opt.bounded objective k) =
      .ok (pushAll (resultBoundReached (opt.bounded objective k)) [] r.1) := by
  unfold findRaw at h ⊢
  change (if opt.invertMatch then _ else _) = _
  unfold recordLoop at hloop
  cases hinv : opt.invertMatch with
  | true =>
    rw [hinv, if_pos rfl] at h
    rw [if_pos rfl]
    exact findInvert_bounded icu I p opt hobj hmax h objective k
  | false =>
    rw [hinv, if_neg Bool.false_ne_true] at h hloop
    rw [if_neg Bool.false_ne_true]
    cases hre : p.re with
    | none =>
      rw [hre] at h
      cases h
      obtain ⟨bs, hbs⟩ := findFixed_bounded icu I p opt objective k
      have hplanned := hu hre (resultBoundReached opt)
      have hplanned' := hu' hre (resultBoundReached (opt.bounded objective k))
      unfold guardedOperator at hplanned hplanned'
      dsimp only
      rw [hplanned, hplanned', (hbs _).2, (hbs _).1, resultBoundReached_never hobj hmax, pushAll_never]
      rfl
    | some re =>
      rw [hre] at h hloop
      have hrew : rewritesToFixed p re opt = true := by simpa using hloop
      dsimp only at h ⊢
      rw [hrew, if_pos rfl] at h
      rw [show rewritesToFixed p re (opt.bounded objective k) = true from hrew, if_pos rfl]
      cases h
      obtain ⟨bs, hbs⟩ := findFixed_bounded icu I { expr := re.queryIr.exactLiteral, opt := { p.opt with kind := .fixed } } opt
        objective k
      rw [(hbs _).2, (hbs _).1, resultBoundReached_never hobj hmax, pushAll_never]
      rfl

omit hobj hmax in
theorem findRaw_loop {re : RegexProgram} (hloop : recordLoop p opt = some re) :
    findRaw icu I plan p opt = findRegexBranch icu I p re opt := by
  unfold recordLoop at hloop
  cases hinv : opt.invertMatch with
  | true =>
    rw [hinv, if_pos rfl] at hloop
    cases hloop
  | false =>
    rw [hinv, if_neg Bool.false_ne_true, Option.filter_eq_some_iff] at hloop
    obtain ⟨hre, hrew⟩ := hloop
    rw [Bool.not_eq_true'] at hrew
    unfold findRaw
    rw [hinv, if_neg Bool.false_ne_true, hre]
    dsimp only
    rw [hrew, if_neg Bool.false_ne_true]

theorem find_ok {ms : List Match} (h : find icu I plan p opt = .ok ms) : ∃ r, findRaw icu I plan p opt = .ok r ∧ r.1 = ms ∧
    ∀ re, recordLoop p opt = some re → concatE (runMatches icu re opt) (verifierRuns I p re opt) = .ok ms := by
  obtain ⟨r, hr, h⟩ := bind_ok h
  rw [hmax, if_neg (fun h => h.1 rfl)] at h
  cases h
  refine ⟨r, hr, rfl, fun re hloop => ?_⟩
  rw [findRaw_loop plan hloop, findRegexBranch_never icu I p re opt hobj hmax] at hr
  obtain ⟨ms, hms, rfl⟩ := map_ok hr
  exact hms

/-- **A search for so many matches gives the first matches.** -/
theorem find_max (hu : Unguarded icu I plan p opt) {ms : List Match} (h : find icu I plan p opt = .ok ms) {k : Nat} (hk : 0 < k) :
    find icu I plan p (opt.bounded .exhaustive k) = .ok (ms.take k) := by
  obtain ⟨r, hr, rfl, hruns⟩ := find_ok plan hobj hmax h
  have hraw : findRaw icu I plan p (opt.bounded .exhaustive k) = .ok (pushAll (fun out => decide (k ≤ out.length)) [] r.1) := by
    cases hloop : recordLoop p opt with
    | none =>
      rw [findRaw_bounded plan hobj hmax hloop hr _ _ hu (unguarded_max plan (by simp [SearchOptions.bounded]; omega)),
        resultBoundReached_max opt hk]
    | some re =>
      rw [findRaw_loop plan (show recordLoop p (opt.bounded .exhaustive k) = some re from hloop)]
      exact findRegexBranch_max (hruns re hloop) hk
  rw [find_eq plan hraw, pushAll_length r.1 [] hk, List.nil_append]
  refine congrArg Except.ok ?_
  split
  · exact List.take_take.trans (congrArg (r.1.take ·) (Nat.min_self k))
  · rfl

theorem find_first_push (hloop : recordLoop p opt = none) (hu : Unguarded icu I plan p opt)
    (hu' : Unguarded icu I plan p (opt.bounded .firstHit 0)) {ms : List Match} (h : find icu I plan p opt = .ok ms) :
    find icu I plan p (opt.bounded .firstHit 0) = .ok (ms.take 1) := by
  obtain ⟨r, hr, rfl, -⟩ := find_ok plan hobj hmax h
  rw [find_eq plan (findRaw_bounded plan hobj hmax hloop hr .firstHit 0 hu hu'), resultBoundReached_first, pushAll_always]
  rfl

theorem find_first_loop {re : RegexProgram} (hloop : recordLoop p opt = some re) {ms : List Match}
    (h : find icu I plan p opt = .ok ms) : find icu I plan p (opt.bounded .firstHit 0) =
      .ok ((((verifierRuns I p re opt).head?.map (fun run => value (runMatches icu re opt run))).getD []).take 1) := by
  obtain ⟨r, -, rfl, hruns⟩ := find_ok plan hobj hmax h
  obtain ⟨stopped, hfirst⟩ := findRegexBranch_first (hruns re hloop) 0
  rw [← findRaw_loop plan (show recordLoop p (opt.bounded .firstHit 0) = some re from hloop)] at hfirst
  rw [find_eq plan hfirst]
  rfl

end

/-! ## The first hit -/

def runFinds (icu : Icu) (re : RegexProgram) (opt : SearchOptions) (run : Nat × VerifierContext) : Bool :=
  !(value (runMatches icu re opt run)).isEmpty

theorem head_take_iff {α β : Type} (g : α → List β) (as : List α) :
    ((as.head?.map g).getD []).take 1 = (as.flatMap g).take 1 ↔
      as.head?.any (fun a => !(g a).isEmpty) = as.any (fun a => !(g a).isEmpty) := by
  cases as with
  | nil => simp
  | cons a as =>
    cases hg : g a with
    | nil =>
      have hrest : (as.flatMap g).take 1 = [] ↔ ∀ b ∈ as, g b = [] := by
        rw [List.take_eq_nil_iff, List.flatMap_eq_nil_iff]
        simp
      simp only [List.head?_cons, Option.map_some, Option.getD_some, hg, List.take_nil, List.flatMap_cons, List.nil_append,
        Option.any_some, List.isEmpty_nil, Bool.not_true, List.any_cons, Bool.false_or]
      rw [eq_comm, hrest, eq_comm, List.any_eq_false]
      simp
    | cons b bs => simp [hg]

section
variable (icu : Icu) (I : IndexData) (p : Pattern) (opt : SearchOptions)

/-- The first record the verifier takes has a match, or none has. -/
def FirstRunLaw : Prop := ∀ re, recordLoop p opt = some re →
  (verifierRuns I p re opt).head?.any (runFinds icu re opt) = (verifierRuns I p re opt).any (runFinds icu re opt)

/-- Where the guard holds, the blocks show the first match of the operator planned for a first hit. -/
def FirstShows (I : IndexData) (plan : Planner) (p : Pattern) (opt : SearchOptions) : Prop :=
  p.re = none → fixedGuardEligible I p opt = true → ∀ op, plan p (opt.bounded .firstHit 0) = some op →
    ∀ fid x, firstShown I p.expr op = some (fid, x) → x ∈ shown I p.expr .positionalBlock fid

variable {icu I p opt} (hI : Laid I) (plan : Planner) (hobj : opt.objective = .exhaustive) (hmax : opt.maxMatches = 0)
include hI hobj hmax

/-- A scan that pushes gives its first match first, exactly when the blocks show what the operator for a first hit gives. -/
theorem find_first_push_iff (hloop : recordLoop p opt = none) (hu : Unguarded icu I plan p opt) {ms : List Match}
    (h : find icu I plan p opt = .ok ms) :
    find icu I plan p (opt.bounded .firstHit 0) = .ok (ms.take 1) ↔ FirstShows I plan p opt := by
  have hguard : fixedGuardEligible I p (opt.bounded .firstHit 0) = fixedGuardEligible I p opt := by
    unfold fixedGuardEligible
    rw [hmax]
    rfl
  have hoff : ¬ (p.re = none ∧ fixedGuardEligible I p opt = true) →
      (find icu I plan p (opt.bounded .firstHit 0) = .ok (ms.take 1) ↔ FirstShows I plan p opt) := by
    intro hnot
    refine iff_of_true (find_first_push plan hobj hmax hloop hu (fun hre => ?_) h) (fun hre hg => absurd ⟨hre, hg⟩ hnot)
    exact unguarded_of_off plan (by rw [hguard]; exact Bool.eq_false_iff.2 (fun hg => hnot ⟨hre, hg⟩)) hre
  by_cases hon : p.re = none ∧ fixedGuardEligible I p opt = true
  swap
  · exact hoff hon
  obtain ⟨hre, hg⟩ := hon
  have hplain := plain_of_guard hg
  have hinv : opt.invertMatch = false := by
    simp only [fixedGuardEligible, Bool.and_eq_true, Bool.not_eq_true'] at hg
    tauto
  -- the exhaustive search gives what the blocks show
  have hms : ms = shownMatches I p.expr .positionalBlock := by
    obtain ⟨r, hr, rfl, -⟩ := find_ok plan hobj hmax h
    have hplanned := hu hre (resultBoundReached opt)
    rw [guardedOperator, hplain.findFixed_shown hI icu none, resultBoundReached_never hobj hmax, pushAll_never] at hplanned
    rw [findRaw, hinv, if_neg Bool.false_ne_true, hre] at hr
    dsimp only at hr
    rw [resultBoundReached_never hobj hmax, hplanned] at hr
    cases hr
    rfl
  have hplain' : Plain I p (opt.bounded .firstHit 0) := plain_of_guard (hguard.trans hg)
  have hraw : findRaw icu I plan p (opt.bounded .firstHit 0) = .ok (pushAll (fun _ => true) []
      (shownMatches I p.expr ((plan p (opt.bounded .firstHit 0)).getD .positionalBlock))) := by
    rw [findRaw, show (opt.bounded .firstHit 0).invertMatch = false from hinv, if_neg Bool.false_ne_true, hre]
    dsimp only
    rw [hguard, hg, if_pos rfl, hplain'.findFixed_shown hI, resultBoundReached_first]
  rw [find_eq plan hraw, pushAll_always, hms]
  change Except.ok ([] ++ _) = _ ↔ _
  rw [List.nil_append, Except.ok.injEq]
  cases hop : plan p (opt.bounded .firstHit 0) with
  | none =>
    refine iff_of_true rfl (fun _ _ op h => ?_)
    rw [hop] at h
    cases h
  | some op =>
    refine (shownMatches_first_iff hI hplain.nonempty op).trans ⟨fun hall _ _ o ho => ?_, fun hall => hall hre hg op hop⟩
    cases hop.symm.trans ho
    exact hall

omit hI hobj hmax in
theorem Built.first_shows (hI : Built I) : FirstShows I plan p opt := by
  intro hre hguard op _ fid x hfirst
  obtain ⟨hlt, hhead, -⟩ := firstShown_eq_some.1 hfirst
  rw [← head_apart p.expr.length] at hhead
  exact hI.blocks_show (fun _ _ => some op) p opt (fun _ => true) hre hguard op rfl fid hlt rfl x (List.mem_of_mem_head? hhead)

/-- **The first hit is the first match** exactly when the first record taken has a match or none has, and the blocks show
what the guarded dispatch gives first. -/
theorem find_first_iff (hu : Unguarded icu I plan p opt) {ms : List Match} (h : find icu I plan p opt = .ok ms) :
    find icu I plan p (opt.bounded .firstHit 0) = .ok (ms.take 1) ↔ FirstRunLaw icu I p opt ∧ FirstShows I plan p opt := by
  cases hloop : recordLoop p opt with
  | none =>
    have hlaw : FirstRunLaw icu I p opt := fun re hre => by
      rw [hloop] at hre
      cases hre
    rw [find_first_push_iff hI plan hobj hmax hloop hu h, and_iff_right hlaw]
  | some re =>
    have hshows : FirstShows I plan p opt := fun hre => by
      unfold recordLoop at hloop
      rw [hre] at hloop
      split at hloop
      · cases hloop
      · cases hloop
    obtain ⟨r, -, rfl, hruns⟩ := find_ok plan hobj hmax h
    obtain ⟨-, hms⟩ := concatE_eq_ok.1 (hruns re hloop)
    rw [and_iff_left hshows, find_first_loop plan hobj hmax hloop h, hms, Except.ok.injEq, head_take_iff]
    exact ⟨fun heq re' hre => by rw [hloop] at hre; cases hre; exact heq, fun hlaw => hlaw re hloop⟩

/-- **A search for so many matches gives the first matches**, whatever the number, exactly when the blocks show what the
guarded dispatch finds. -/
theorem find_max_iff {ms : List Match} (h : find icu I plan p opt = .ok ms) :
    (∀ k, 0 < k → find icu I plan p (opt.bounded .exhaustive k) = .ok (ms.take k)) ↔
      PlanShows I plan p opt (fun _ => true) := by
  constructor
  · intro hall hre hg
    have hinv : opt.invertMatch = false := by
      simp only [fixedGuardEligible, Bool.and_eq_true, Bool.not_eq_true'] at hg
      tauto
    refine (guarded_scope_iff hI icu plan opt hre (fun _ => true)).1 ?_ hre hg
    rw [List.filter_true, List.filter_true]
    obtain ⟨r, hr, rfl, -⟩ := find_ok plan hobj hmax h
    rw [findRaw, hinv, if_neg Bool.false_ne_true, hre] at hr
    dsimp only at hr
    rw [resultBoundReached_never hobj hmax] at hr
    cases hr
    change _ = (findFixed icu I p opt (if fixedGuardEligible I p opt then plan p opt else none) (fun _ => false)).1
    -- a bound beyond both lists
    generalize (findFixed icu I p opt (if fixedGuardEligible I p opt then plan p opt else none) (fun _ => false)).1 = ms at hall ⊢
    obtain ⟨bs, hbs⟩ := findFixed_bounded icu I p opt .exhaustive (ms.length + (findFixed icu I p opt none (fun _ => false)).1.length + 1)
    have hnone := (hbs (fun _ => false)).1
    rw [pushAll_never, List.nil_append] at hnone
    rw [hnone] at hbs ⊢
    have hk := hall (ms.length + bs.length + 1) (Nat.succ_pos _)
    have hraw : findRaw icu I plan p (opt.bounded .exhaustive (ms.length + bs.length + 1)) =
        .ok (pushAll (fun out => decide (ms.length + bs.length + 1 ≤ out.length)) [] bs) := by
      have hbounded := (hbs (fun out => decide (ms.length + bs.length + 1 ≤ out.length))).2
      have hplanned := @unguarded_max icu I p (opt.bounded .exhaustive (ms.length + bs.length + 1)) plan (Nat.succ_ne_zero _) hre
        (fun out => decide (ms.length + bs.length + 1 ≤ out.length))
      unfold guardedOperator at hplanned
      rw [findRaw, show (opt.bounded .exhaustive (ms.length + bs.length + 1)).invertMatch = false from hinv,
        if_neg Bool.false_ne_true, hre]
      dsimp only
      rw [resultBoundReached_max opt (Nat.succ_pos _), hplanned]
      exact congrArg Except.ok hbounded
    rw [find_eq plan hraw, pushAll_length bs [] (Nat.succ_pos _), List.nil_append, List.take_of_length_le (by omega : bs.length ≤ _),
      List.take_of_length_le (by omega : ms.length ≤ _), Except.ok.injEq] at hk
    rw [← hk]
    split
    · rw [List.take_of_length_le]
      change bs.length ≤ ms.length + bs.length + 1
      omega
    · rfl
  · exact fun hshows k hk => find_max plan hobj hmax (hshows.unguarded plan hI) h hk

omit hI hobj hmax in
theorem mem_take_one {α : Type} {a : α} {as : List α} : a ∈ as.take 1 ↔ as.head? = some a := by
  cases as with
  | nil => simp
  | cons b bs => simp [eq_comm]

/-- **The first hit is the first match**, where the law holds, and none where it does not. -/
theorem find_first_mem (hu : Unguarded icu I plan p opt) (hshows : FirstShows I plan p opt) {ms : List Match} (h : find icu I plan p opt = .ok ms) :
    ∃ ms', find icu I plan p (opt.bounded .firstHit 0) = .ok ms' ∧
      ∀ m, m ∈ ms' ↔ FirstRunLaw icu I p opt ∧ ms.head? = some m := by
  by_cases hlaw : FirstRunLaw icu I p opt
  · exact ⟨_, (find_first_iff hI plan hobj hmax hu h).2 ⟨hlaw, hshows⟩, fun m => by rw [mem_take_one, and_iff_right hlaw]⟩
  · obtain ⟨re, hloop, hrun⟩ : ∃ re, recordLoop p opt = some re ∧
        (verifierRuns I p re opt).head?.any (runFinds icu re opt) ≠ (verifierRuns I p re opt).any (runFinds icu re opt) := by
      simpa [FirstRunLaw] using hlaw
    refine ⟨_, find_first_loop plan hobj hmax hloop h, fun m => iff_of_false ?_ (fun h => hlaw h.1)⟩
    cases hruns : verifierRuns I p re opt with
    | nil => simp
    | cons run runs =>
      rw [hruns, List.head?_cons, Option.any_some, List.any_cons] at hrun
      have hnone : (value (runMatches icu re opt run)).isEmpty = true := by
        cases hb : runFinds icu re opt run with
        | true =>
          rw [hb] at hrun
          exact absurd rfl hrun
        | false => simpa [runFinds] using hb
      rw [List.head?_cons, Option.map_some, Option.getD_some, List.isEmpty_iff.1 hnone]
      simp

/-! ## The first file -/

omit hobj hmax

def SearchOptions.onFile (opt : SearchOptions) (fid : Nat) : SearchOptions :=
  { opt with eligibleFileIds := [fid], filesWithMatches := false, filesWithoutMatch := false, maxMatches := 0 }

def fileRuns (I : IndexData) (p : Pattern) (re : RegexProgram) (opt : SearchOptions) (fid : Nat) : List (Nat × VerifierContext) :=
  (verifierRuns I p re opt).filter (fun run => run.1 == fid)

/-- Whether a scope has a file; the empty scope has all. -/
def scopeHas (scope : List Nat) (fid : Nat) : Bool := scope.isEmpty || scope.contains fid

omit hI in
theorem unscoped_of_nil (h : opt.eligibleFileIds = []) : opt.unscoped = opt := by
  cases opt
  cases h
  rfl

theorem verifierFiles_scope (re : RegexProgram) (opt : SearchOptions) : (verifierFiles I p re opt).1 =
    (verifierFiles I p re opt.unscoped).1.filter (scopeHas opt.eligibleFileIds) := by
  by_cases hscope : opt.eligibleFileIds = []
  · have hall : scopeHas opt.eligibleFileIds = fun _ => true := by
      funext fid
      rw [scopeHas, hscope]
      rfl
    rw [hall, List.filter_true, unscoped_of_nil hscope]
  have hin : scopeHas opt.eligibleFileIds = (opt.eligibleFileIds.contains ·) := by
    funext fid
    rw [scopeHas, List.isEmpty_eq_false_iff.2 hscope, Bool.false_or]
  have hcv := regexCandidates_scope hI hscope p re
  have hfiles := candidateFiles_scope opt hI (regexCandidates_sorted hI p re opt.unscoped)
  unfold verifierFiles
  dsimp only
  rw [hin, hcv, hfiles]
  cases boundedRegionRequested re p.opt with
  | false => rfl
  | true =>
    rw [if_pos rfl, if_pos rfl]
    cases boundedRegexEligible re p.opt with
    | some a => rfl
    | none =>
      -- all chunks, the candidates of a literal that says nothing
      have hall := hI.chunkCandidates_scope hscope []
      have hlist : ∀ scope, chunkCandidates I scope [] = (List.range I.chunks.length).filter (chunkAllowed I scope) :=
        fun scope => if_pos (Or.inl (by decide))
      rw [hlist, hlist] at hall
      have hall' := candidateFiles_scope opt hI ((@List.pairwise_lt_range I.chunks.length).filter (chunkAllowed I []))
      rw [← hall] at hall'
      exact hall'

omit hI in
theorem filter_scopeHas {α : Type} {scope : List Nat} {fid : Nat} (h : scopeHas scope fid = true) (k : α → Nat) (as : List α) :
    as.filter (fun a => scopeHas [fid] (k a)) = (as.filter (fun a => scopeHas scope (k a))).filter (fun a => k a == fid) := by
  rw [List.filter_filter]
  refine List.filter_congr (fun a _ => ?_)
  have hone : scopeHas [fid] (k a) = (k a == fid) := (List.contains_cons).trans (Bool.or_false _)
  rw [hone]
  by_cases hk : k a = fid
  · rw [hk, h, Bool.and_true]
  · rw [beq_false_of_ne hk, Bool.false_and]

theorem verifierRuns_onFile (re : RegexProgram) {fid : Nat} (h : scopeHas opt.eligibleFileIds fid = true) :
    verifierRuns I p re (opt.onFile fid) = fileRuns I p re opt fid := by
  have hsame : (verifierFiles I p re (opt.onFile fid)).2 = (verifierFiles I p re opt).2 := by
    unfold verifierFiles
    dsimp only
    split
    · split
      · rfl
      · rfl
    · rfl
  have hfiles : (verifierFiles I p re (opt.onFile fid)).1 = (verifierFiles I p re opt).1.filter (fun g => g == fid) := by
    rw [verifierFiles_scope hI re (opt.onFile fid), verifierFiles_scope hI re opt]
    exact filter_scopeHas h id _
  unfold fileRuns verifierRuns
  rw [hfiles, hsame]
  refine (filter_flatMap_key (k := id) (fun g => g == fid) (fun g _ run hrun => ?_)).symm
  obtain ⟨c, -, rfl⟩ := List.mem_map.1 hrun
  rfl

omit hI in
theorem concatE_fileId {α : Type} {g : α → Eval (List Match)} {k : α → Nat} {as : List α} {ms : List Match}
    (hg : ∀ a ms, g a = .ok ms → ∀ m ∈ ms, m.fileId = k a) (h : concatE g as = .ok ms) (P : Nat → Bool) :
    concatE g (as.filter (fun a => P (k a))) = .ok (ms.filter (fun m => P m.fileId)) := by
  obtain ⟨hall, rfl⟩ := concatE_eq_ok.1 h
  refine concatE_eq_ok.2 ⟨fun a ha => hall a (List.mem_of_mem_filter ha), ?_⟩
  exact filter_flatMap_key P (fun a ha m hm => hg a _ (hall a ha) m hm)

theorem findFixed_scopeHas (p : Pattern) (opt : SearchOptions) : (findFixed icu I p opt none (fun _ => false)).1 =
    (findFixed icu I p opt.unscoped none (fun _ => false)).1.filter (fun m => scopeHas opt.eligibleFileIds m.fileId) := by
  by_cases hscope : opt.eligibleFileIds = []
  · have hall : (fun m : Match => scopeHas opt.eligibleFileIds m.fileId) = fun _ => true := by
      funext m
      rw [scopeHas, hscope]
      rfl
    rw [hall, List.filter_true, unscoped_of_nil hscope]
  · have hin : (fun m : Match => scopeHas opt.eligibleFileIds m.fileId) = fun m => opt.eligibleFileIds.contains m.fileId := by
      funext m
      rw [scopeHas, List.isEmpty_eq_false_iff.2 hscope, Bool.false_or]
    rw [hin]
    exact findFixed_scope icu p opt hI hscope

theorem findFixed_onFile (p : Pattern) {fid : Nat} (h : scopeHas opt.eligibleFileIds fid = true) :
    (findFixed icu I p (opt.onFile fid) none (fun _ => false)).1 =
      (findFixed icu I p opt none (fun _ => false)).1.filter (fun m => m.fileId == fid) := by
  rw [findFixed_scopeHas hI p opt, findFixed_scopeHas hI p (opt.onFile fid)]
  exact filter_scopeHas h Match.fileId _

theorem findInvert_onFile (hobj : opt.objective = .exhaustive) (hmax : opt.maxMatches = 0) {fid : Nat}
    (h : scopeHas opt.eligibleFileIds fid = true) {r : List Match × Bool}
    (hr : findInvert icu I p opt = .ok r) :
    findInvert icu I p (opt.onFile fid) = .ok (r.1.filter (fun m => m.fileId == fid), false) := by
  rw [findInvert_never icu I p opt hobj hmax] at hr
  obtain ⟨ms, hms, rfl⟩ := map_ok hr
  have hallows : ∀ scope : List Nat, ∀ g < I.loaded.length, allows I scope g = scopeHas scope g := by
    intro scope g hg
    by_cases hscope : scope = []
    · rw [hscope, allows_nil]
      rfl
    · rw [hI.allows_eq hscope hg, scopeHas, List.isEmpty_eq_false_iff.2 hscope, Bool.false_or]
  have hfiles : (List.range I.loaded.length).filter (allows I [fid]) =
      ((List.range I.loaded.length).filter (allows I opt.eligibleFileIds)).filter (fun g => g == fid) := by
    have hcongr : ∀ scope : List Nat, (List.range I.loaded.length).filter (allows I scope) =
        (List.range I.loaded.length).filter (fun g => scopeHas scope g) :=
      fun scope => List.filter_congr (fun g hg => hallows scope g (List.mem_range.1 hg))
    rw [hcongr, hcongr]
    exact filter_scopeHas h id _
  have hone : concatE (invertedFile icu I p opt)
      (((List.range I.loaded.length).filter (allows I opt.eligibleFileIds)).filter (fun g => g == fid)) =
        .ok (ms.filter (fun m => m.fileId == fid)) :=
    @concatE_fileId _ _ id _ _ (fun g ms hg => invertedFile_fileId icu I p opt hg) hms (fun g => g == fid)
  rw [findInvert_never icu I p (opt.onFile fid) hobj rfl]
  change (concatE (invertedFile icu I p opt) ((List.range I.loaded.length).filter (allows I [fid]))).map _ = _
  rw [hfiles, hone]
  rfl

/-- **A search in one file of the scope** gives the matches of the file. -/
theorem find_onFile (plan : Planner) (hu : Unguarded icu I plan p opt) (hobj : opt.objective = .exhaustive)
    (hmax : opt.maxMatches = 0) {fid : Nat} (hfid : scopeHas opt.eligibleFileIds fid = true) {ms : List Match} (h : find icu I plan p opt = .ok ms) :
    find icu I plan p (opt.onFile fid) = .ok (ms.filter (fun m => m.fileId == fid)) := by
  obtain ⟨r, hr, rfl, hruns⟩ := find_ok plan hobj hmax h
  have hraw : ∃ b, findRaw icu I plan p (opt.onFile fid) = .ok (r.1.filter (fun m => m.fileId == fid), b) := by
    cases hloop : recordLoop p opt with
    | some re =>
      rw [findRaw_loop plan (show recordLoop p (opt.onFile fid) = some re from hloop),
        findRegexBranch_never icu I p re (opt.onFile fid) hobj rfl, verifierRuns_onFile hI re hfid]
      have hone : concatE (runMatches icu re (opt.onFile fid)) (fileRuns I p re opt fid) =
          .ok (r.1.filter (fun m => m.fileId == fid)) :=
        concatE_fileId (fun run ms hrun => findAllLoop_fileId icu hrun) (hruns re hloop) (fun g => g == fid)
      rw [hone]
      exact ⟨false, rfl⟩
    | none =>
      have hnever : resultBoundReached (opt.onFile fid) = fun _ => false := @resultBoundReached_never (opt.onFile fid) hobj rfl
      unfold findRaw at hr ⊢
      unfold recordLoop at hloop
      cases hinv : opt.invertMatch with
      | true =>
        rw [hinv, if_pos rfl] at hr
        rw [show (opt.onFile fid).invertMatch = true from hinv, if_pos rfl]
        exact ⟨false, findInvert_onFile hI hobj hmax hfid hr⟩
      | false =>
        rw [hinv, if_neg Bool.false_ne_true] at hr hloop
        rw [show (opt.onFile fid).invertMatch = false from hinv, if_neg Bool.false_ne_true]
        cases hre : p.re with
        | none =>
          rw [hre] at hr
          cases hr
          have hplanned := hu hre (resultBoundReached opt)
          have hplanned' := @unguarded_scoped icu I p (opt.onFile fid) plan (List.cons_ne_nil _ _) hre
            (resultBoundReached (opt.onFile fid))
          unfold guardedOperator at hplanned hplanned'
          dsimp only
          rw [hplanned, hplanned', resultBoundReached_never hobj hmax, hnever, ← findFixed_onFile hI p hfid]
          exact ⟨_, rfl⟩
        | some re =>
          rw [hre] at hr hloop
          have hrew : rewritesToFixed p re opt = true := by simpa using hloop
          dsimp only at hr ⊢
          rw [hrew, if_pos rfl] at hr
          rw [show rewritesToFixed p re (opt.onFile fid) = true from hrew, if_pos rfl]
          cases hr
          rw [resultBoundReached_never hobj hmax, hnever, ← findFixed_onFile hI _ hfid]
          exact ⟨_, rfl⟩
  obtain ⟨b, hraw⟩ := hraw
  rw [find_eq plan hraw]
  rfl

omit hI in
theorem filesFirst_eq (plan : Planner) {g : Nat → List Match} : ∀ {fids : List Nat},
    (∀ fid ∈ fids, fileListed I opt fid = true → find icu I plan p ((opt.onFile fid).bounded .firstHit 0) = .ok (g fid)) →
      filesFirst icu I plan p (opt.bounded .firstHit 0) fids = .ok
        (((fids.filter (fileListed I opt)).find? (fun fid => (!(g fid).isEmpty) != opt.filesWithoutMatch)).toList)
  | [], _ => rfl
  | fid :: fids, hg => by
    have hrest := filesFirst_eq plan (fun f hf => hg f (List.mem_cons_of_mem _ hf))
    rw [filesFirst, List.filter_cons]
    cases hlisted : fileListed I opt fid with
    | false =>
      rw [show fileListed I (opt.bounded .firstHit 0) fid = false from hlisted, if_neg Bool.false_ne_true,
        if_neg Bool.false_ne_true, hrest]
    | true =>
      rw [show fileListed I (opt.bounded .firstHit 0) fid = true from hlisted, if_pos rfl, if_pos rfl]
      change (find icu I plan p ((opt.onFile fid).bounded .firstHit 0) >>= _) = _
      rw [hg fid List.mem_cons_self hlisted, List.find?_cons]
      change (if (g fid).isEmpty = opt.filesWithoutMatch then _ else _) = _
      cases hempty : (g fid).isEmpty <;> cases hwithout : opt.filesWithoutMatch
      · rfl
      · exact hrest.trans (by rw [hwithout]; rfl)
      · exact hrest.trans (by rw [hwithout]; rfl)
      · rfl

omit hI in
theorem toList_eq_iff {α : Type} {a b : Option α} : a.toList = b.toList ↔ a = b := by
  cases a with
  | none => cases b <;> simp
  | some a => cases b <;> simp

omit hI in
theorem isEmpty_take_one {α : Type} (as : List α) : (as.take 1).isEmpty = as.isEmpty := by
  cases as with
  | nil => rfl
  | cons a as => rfl

omit hI in
theorem isEmpty_filter {α : Type} (q : α → Bool) (as : List α) : (!(as.filter q).isEmpty) = as.any q := by
  rw [Bool.eq_iff_iff, Bool.not_eq_true', List.isEmpty_eq_false_iff, Ne, List.filter_eq_nil_iff, List.any_eq_true]
  simp

omit hI in
theorem isEmpty_flatMap {α β : Type} (g : α → List β) (as : List α) :
    (!(as.flatMap g).isEmpty) = as.any (fun a => !(g a).isEmpty) := by
  rw [Bool.eq_iff_iff, Bool.not_eq_true', List.isEmpty_eq_false_iff, Ne, List.flatMap_eq_nil_iff, List.any_eq_true]
  simp

def listedFiles (I : IndexData) (opt : SearchOptions) : List Nat := (List.range I.infos.length).filter (fileListed I opt)

/-- The first file listed is the same whether it is the first record of a file that counts or all. -/
def FirstFileLaw (icu : Icu) (I : IndexData) (p : Pattern) (opt : SearchOptions) : Prop := ∀ re, recordLoop p opt = some re →
  (listedFiles I opt).find? (fun fid => ((fileRuns I p re opt fid).head?.any (runFinds icu re opt)) != opt.filesWithoutMatch) =
    (listedFiles I opt).find? (fun fid => ((fileRuns I p re opt fid).any (runFinds icu re opt)) != opt.filesWithoutMatch)

omit hI in
theorem files_exhaustive (plan : Planner) (hobj : opt.objective = .exhaustive) (hmax : opt.maxMatches = 0) {ms : List Match}
    (h : find icu I plan p opt = .ok ms) : files icu I plan p opt = .ok
      ((listedFiles I opt).filter (fun fid => (ms.any (fun m => m.fileId == fid)) != opt.filesWithoutMatch)) := by
  have hopt : { opt with objective := .exhaustive, maxMatches := 0 } = opt := by
    rw [← hobj, ← hmax]
  unfold files
  rw [hobj, if_neg (by decide), hopt, h]
  change Except.ok (if opt.maxMatches ≠ 0 then _ else _) = _
  rw [if_neg (fun h => h hmax), listedFiles, List.filter_filter]
  simp only [Bool.and_comm]

/-- **The first file of a first-hit query is the first of the list** exactly when the law holds file by file. -/
theorem files_first_iff (plan : Planner) (hu : Unguarded icu I plan p opt) (hobj : opt.objective = .exhaustive)
    (hmax : opt.maxMatches = 0) {ms : List Match}
    (h : find icu I plan p opt = .ok ms) {fs : List Nat} (hfs : files icu I plan p opt = .ok fs) :
    files icu I plan p (opt.bounded .firstHit 0) = .ok (fs.take 1) ↔ FirstFileLaw icu I p opt := by
  rw [files_exhaustive plan hobj hmax h, Except.ok.injEq] at hfs
  subst hfs
  rw [List.take_one, List.head?_filter]
  have hone : ∀ {fid : Nat}, fileListed I opt fid = true →
      find icu I plan p (opt.onFile fid) = .ok (ms.filter (fun m => m.fileId == fid)) :=
    fun hlisted => find_onFile hI plan hu hobj hmax (Bool.and_eq_true_iff.1 hlisted).1 h
  change filesFirst icu I plan p (opt.bounded .firstHit 0) (List.range I.infos.length) = _ ↔ _
  cases hloop : recordLoop p opt with
  | none =>
    have hlaw : FirstFileLaw icu I p opt := fun re hre => by
      rw [hloop] at hre
      cases hre
    refine iff_of_true ?_ hlaw
    have hfirst : ∀ fid ∈ List.range I.infos.length, fileListed I opt fid = true →
        find icu I plan p ((opt.onFile fid).bounded .firstHit 0) = .ok ((ms.filter (fun m => m.fileId == fid)).take 1) :=
      fun fid _ hlisted => @find_first_push icu I p (opt.onFile fid) plan hobj rfl hloop
        (unguarded_scoped plan (List.cons_ne_nil _ _)) (unguarded_scoped plan (List.cons_ne_nil _ _)) _ (hone hlisted)
    rw [filesFirst_eq plan hfirst]
    refine congrArg (fun o => Except.ok (Option.toList o)) (congrArg (List.find? · _) (funext fun fid => ?_))
    rw [isEmpty_take_one, isEmpty_filter]
  | some re =>
    have hruns : ∀ {fid : Nat}, fileListed I opt fid = true → verifierRuns I p re (opt.onFile fid) = fileRuns I p re opt fid :=
      fun hlisted => verifierRuns_onFile hI re (Bool.and_eq_true_iff.1 hlisted).1
    have hany : ∀ fid ∈ listedFiles I opt,
        ms.any (fun m => m.fileId == fid) = (fileRuns I p re opt fid).any (runFinds icu re opt) := by
      intro fid hfid
      obtain ⟨r, -, hr, hconcat⟩ := @find_ok icu I p (opt.onFile fid) plan hobj rfl _ (hone (List.mem_filter.1 hfid).2)
      have hflat := (concatE_eq_ok.1 (hconcat re hloop)).2
      rw [hruns (List.mem_filter.1 hfid).2] at hflat
      rw [← isEmpty_filter, hflat, isEmpty_flatMap]
      rfl
    have hfirst : ∀ fid ∈ List.range I.infos.length, fileListed I opt fid = true →
        find icu I plan p ((opt.onFile fid).bounded .firstHit 0) =
          .ok ((((fileRuns I p re opt fid).head?.map (fun run => value (runMatches icu re opt run))).getD []).take 1) := by
      intro fid _ hlisted
      rw [← hruns hlisted]
      exact @find_first_loop icu I p (opt.onFile fid) plan hobj rfl re hloop _ (hone hlisted)
    have hhead : ∀ fid, (!((((fileRuns I p re opt fid).head?.map (fun run => value (runMatches icu re opt run))).getD []).take
        1).isEmpty) = (fileRuns I p re opt fid).head?.any (runFinds icu re opt) := by
      intro fid
      rw [isEmpty_take_one]
      cases (fileRuns I p re opt fid).head? with
      | none => rfl
      | some run => rfl
    have hlist : (listedFiles I opt).find? (fun fid => ms.any (fun m => m.fileId == fid) != opt.filesWithoutMatch) =
        (listedFiles I opt).find? (fun fid => (fileRuns I p re opt fid).any (runFinds icu re opt) != opt.filesWithoutMatch) := by
      rw [← List.head?_filter, ← List.head?_filter, List.filter_congr (fun fid hfid => by rw [hany fid hfid])]
    rw [filesFirst_eq plan hfirst, Except.ok.injEq, toList_eq_iff, hlist]
    simp only [hhead]
    exact ⟨fun heq re' hre => by rw [hloop] at hre; cases hre; exact heq, fun hlaw => hlaw re hloop⟩

end

/-! ## The laws of bounds -/

/-- What a search and a file query under a bound owe to the same without: the matches `ms`, the files `fs`. -/
structure BoundLaws (icu : Icu) (I : IndexData) (plan : Planner) (p : Pattern) (opt : SearchOptions) (ms : List Match)
    (fs : List Nat) : Prop where
  count : ∀ k, 0 < k → find icu I plan p (opt.bounded .exhaustive k) = .ok (ms.take k)
  firstHit : find icu I plan p (opt.bounded .firstHit 0) = .ok (ms.take 1)
  firstFile : files icu I plan p (opt.bounded .firstHit 0) = .ok (fs.take 1)

/-- **A bound gives the first results** exactly when the first record of a regex, and of each file, does not hide the rest,
and the blocks show what the guarded dispatch finds. -/
theorem find_bounds {I : IndexData} (hI : Made I) (icu : Icu) (plan : Planner) (p : Pattern) {opt : SearchOptions}
    (hobj : opt.objective = .exhaustive) (hmax : opt.maxMatches = 0) {ms : List Match} {fs : List Nat}
    (hfind : find icu I plan p opt = .ok ms) (hfiles : files icu I plan p opt = .ok fs) :
    BoundLaws icu I plan p opt ms fs ↔ FirstRunLaw icu I p opt ∧ FirstFileLaw icu I p opt ∧
      PlanShows I plan p opt (fun _ => true) ∧ FirstShows I plan p opt := by
  have hlaid := hI.laid
  have hcount := find_max_iff hlaid plan hobj hmax hfind
  constructor
  · intro hlaws
    have hshows := hcount.1 hlaws.count
    have hu : Unguarded icu I plan p opt := hshows.unguarded plan hlaid
    obtain ⟨hrun, hfirst⟩ := (find_first_iff hlaid plan hobj hmax hu hfind).1 hlaws.firstHit
    exact ⟨hrun, (files_first_iff hlaid plan hu hobj hmax hfind hfiles).1 hlaws.firstFile, hshows, hfirst⟩
  · rintro ⟨hrun, hfile, hshows, hfirst⟩
    have hu : Unguarded icu I plan p opt := hshows.unguarded plan hlaid
    exact ⟨hcount.2 hshows, (find_first_iff hlaid plan hobj hmax hu hfind).2 ⟨hrun, hfirst⟩,
      (files_first_iff hlaid plan hu hobj hmax hfind hfiles).2 hfile⟩

def secondLine : List Document := [{ path := [0x66], content := [0x61, 0x0A, 0x62, 0x0A] }]

theorem secondLine_first : ∃ I p ms fs, fromDocuments secondLine smallChunks = .ok I ∧
    Pattern.compile asciiIcu [0x5B, 0x62, 0x5D] {} = .ok p ∧ find asciiIcu I (fun _ _ => none) p {} = .ok ms ∧
    files asciiIcu I (fun _ _ => none) p {} = .ok fs ∧ ms.take 1 ≠ [] ∧
    find asciiIcu I (fun _ _ => none) p { objective := .firstHit } = .ok [] := by
  obtain ⟨I, hI, h⟩ := returns_iff.1 (show returns (fromDocuments secondLine smallChunks) (fun I =>
    returns (Pattern.compile asciiIcu [0x5B, 0x62, 0x5D] {}) (fun p =>
      returns (find asciiIcu I (fun _ _ => none) p {}) (fun ms => !(ms.take 1).isEmpty) &&
      returns (files asciiIcu I (fun _ _ => none) p {}) (fun _ => true) &&
      returns (find asciiIcu I (fun _ _ => none) p { objective := .firstHit }) List.isEmpty)) = true by decide +kernel)
  obtain ⟨p, hp, h⟩ := returns_iff.1 h
  simp only [Bool.and_eq_true] at h
  obtain ⟨⟨hms, hfs⟩, hfirst⟩ := h
  obtain ⟨ms, hms, hsome⟩ := returns_iff.1 hms
  obtain ⟨fs, hfs, -⟩ := returns_iff.1 hfs
  obtain ⟨found, hfirst, hempty⟩ := returns_iff.1 hfirst
  rw [List.isEmpty_iff.1 hempty] at hfirst
  rw [Bool.not_eq_true', List.isEmpty_eq_false_iff] at hsome
  exact ⟨I, p, ms, fs, hI, hp, hms, hfs, hsome, hfirst⟩

theorem find_bounds_secondLine : ∃ I p ms fs, fromDocuments secondLine smallChunks = .ok I ∧
    Pattern.compile asciiIcu [0x5B, 0x62, 0x5D] {} = .ok p ∧
    (BoundLaws asciiIcu I (fun _ _ => none) p {} ms fs ↔ FirstRunLaw asciiIcu I p {} ∧ FirstFileLaw asciiIcu I p {} ∧
      PlanShows I (fun _ _ => none) p {} (fun _ => true) ∧ FirstShows I (fun _ _ => none) p {}) := by
  obtain ⟨I, p, ms, fs, hI, hp, hms, hfs, -⟩ := secondLine_first
  exact ⟨I, p, ms, fs, hI, hp, find_bounds (.built (fromDocuments_built hI).1) asciiIcu _ p rfl rfl hms hfs⟩

/-- The first hit of `[b]` is looked for in the first line only. -/
theorem not_find_bounds : ¬ ∀ (icu : Icu) (I : IndexData) (plan : Planner) (e : Bytes) (o : PatternOptions) (p : Pattern)
    (opt : SearchOptions) (ms : List Match) (fs : List Nat), Made I → Pattern.compile icu e o = .ok p →
      opt.objective = .exhaustive → opt.maxMatches = 0 → find icu I plan p opt = .ok ms → files icu I plan p opt = .ok fs →
      BoundLaws icu I plan p opt ms fs := by
  intro h
  obtain ⟨I, p, ms, fs, hI, hp, hms, hfs, hsome, hfirst⟩ := secondLine_first
  have hlaws := h asciiIcu I (fun _ _ => none) [0x5B, 0x62, 0x5D] {} p {} ms fs (.built (fromDocuments_built hI).1) hp rfl rfl hms hfs
  have hhit : find asciiIcu I (fun _ _ => none) p { objective := .firstHit } = .ok (ms.take 1) := hlaws.firstHit
  rw [hfirst] at hhit
  exact hsome (Except.ok.inj hhit).symm

end Pergrep
