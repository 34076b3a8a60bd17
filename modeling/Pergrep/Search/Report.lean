import Pergrep.Search.Clip
import Pergrep.Search.Find
import Pergrep.Search.Regret
/-!
# Report — the operator a search says it ran

`find` writes `physical_operator` and `guarded_dispatch_used` before it scans anything, from the estimate of the cost model,
and some branches write the operator again.  The branch that then runs is `executed`, by which `find` can be told again
(`findRaw_scan`).  The report names that branch unless a regex is searched inverted, or is rewritten to a literal whose
estimate the guarded dispatch, which is off for it, would have followed (`report_names_iff`).
-/
namespace Pergrep

/-! ## The estimate -/

def VerifierKind.name : VerifierKind → String
  | .fixedRareByte => "FixedRareByte"
  | .fixedPositional => "FixedPositional"
  | .regexChunk => "RegexChunk"
  | .regexBruteForce => "RegexBruteForce"

/-- The costs of the three operators, in whatever numbers the cost model counts. -/
structure FixedPlanCosts (F : Type) where
  positional : F
  chunk : F
  wholeFile : F

/-- What `find` reads of an estimate. -/
structure QueryCost where
  verifier : VerifierKind := .fixedRareByte
  fixedOperator : FixedPhysicalOperator := .wholeFile
  guardedDispatch : Bool := false
  deriving DecidableEq, Repr

section
variable {F : Type} (lt : F → F → Bool) (costs : Pattern → SearchOptions → FixedPlanCosts F)

/-- The cheapest operator; ties go to the positional one, then to the chunks. -/
def FixedPlanCosts.cheapest (c : FixedPlanCosts F) : FixedPhysicalOperator :=
  if lt c.wholeFile c.chunk && lt c.wholeFile c.positional then .wholeFile
  else if lt c.chunk c.positional then .chunk
  else .positionalBlock

def costPlan : Planner := fun p opt => some ((costs p opt).cheapest lt)

variable (icu : Icu) (I : IndexData)

def estimateFixed (p : Pattern) (opt : SearchOptions) : QueryCost :=
  if fixedGuardEligible I p opt then
    match (costs p opt).cheapest lt with
    | .wholeFile => { verifier := .fixedRareByte, fixedOperator := .wholeFile, guardedDispatch := true }
    | .chunk => { verifier := .fixedRareByte, fixedOperator := .chunk, guardedDispatch := true }
    | .positionalBlock => { verifier := .fixedPositional, fixedOperator := .positionalBlock, guardedDispatch := true }
  else if I.opt.chunkOverlap < p.expr.length then { verifier := .fixedRareByte, fixedOperator := .wholeFile }
  else if p.icase ∨ p.opt.word ∨ p.opt.line then { verifier := .fixedRareByte, fixedOperator := .chunk }
  else if p.expr.length ≤ 64 then { verifier := .fixedPositional, fixedOperator := .positionalBlock }
  else { verifier := .fixedRareByte, fixedOperator := .chunk }

def Pattern.rewritten (p : Pattern) (re : RegexProgram) : Pattern :=
  { expr := re.queryIr.exactLiteral, opt := { p.opt with kind := .fixed } }

def estimateCost (p : Pattern) (opt : SearchOptions) : QueryCost :=
  if p.opt.kind = .fixed then estimateFixed lt costs I p opt
  else
    match Pattern.compile icu p.expr p.opt with
    | .error _ => { verifier := .regexBruteForce }
    | .ok tmp =>
      match tmp.re with
      | none => { verifier := .regexBruteForce }
      | some re =>
        if rewritesToFixed p re opt then estimateFixed lt costs I (p.rewritten re) opt
        else if !re.queryIr.branchMandatory.isEmpty || !re.queryIr.mandatory.isEmpty then { verifier := .regexChunk }
        else { verifier := .regexBruteForce }

/-! ## The report -/

/-- The fields of `SearchStats` that say what ran. -/
structure OperatorReport where
  physicalOperator : String
  guardedDispatchUsed : Bool
  deriving DecidableEq, Repr

/-- What `find` writes before it scans; `suppressed` is the flag of the thread. -/
def upfrontReport (suppressed : Bool) (p : Pattern) (opt : SearchOptions) : OperatorReport :=
  let qc := estimateCost lt costs icu I p opt
  let isFixed := decide (p.opt.kind = .fixed)
  { physicalOperator :=
      if !isFixed then qc.verifier.name
      else if opt.invertMatch then "FixedRecordWrapper"
      else if qc.fixedOperator = .positionalBlock then "FixedPositional"
      else if qc.fixedOperator = .chunk then "FixedChunk"
      else "FixedRareByteWholeFile"
    guardedDispatchUsed := !suppressed && isFixed && qc.guardedDispatch && fixedGuardEligible I p opt }

/-- The report after `find`: a rewritten regex is searched by `find` again, with the guarded dispatch suppressed. -/
def findReport (p : Pattern) (opt : SearchOptions) : OperatorReport :=
  let upfront := upfrontReport lt costs icu I false p opt
  if opt.invertMatch then upfront
  else
    match p.re with
    | none => upfront
    | some re =>
      if rewritesToFixed p re opt then upfrontReport lt costs icu I true (p.rewritten re) opt
      else if boundedRegionRequested re p.opt then
        match boundedRegexEligible re p.opt with
        | some _ =>
          if (boundedBranches re).isEmpty then upfront else { upfront with physicalOperator := "RegexBoundedRegion" }
        | none => { upfront with physicalOperator := "RegexBruteForce" }
      else upfront

/-! ## What runs -/

inductive Branch
  | recordWrapper | wholeFile | chunk | positionalBlock | boundedRegion | fullRegex
  deriving DecidableEq, Repr

/-- The branch that scans, and whether the guarded dispatch chose it. -/
structure Execution where
  branch : Branch
  guarded : Bool
  deriving DecidableEq, Repr

def fixedBranch (guarded : Option FixedPhysicalOperator) (p : Pattern) : Branch :=
  if I.opt.chunkOverlap < p.expr.length ∨ guarded = some .wholeFile then .wholeFile
  else if p.icase ∨ p.opt.word ∨ p.opt.line ∨ guarded = some .chunk then .chunk
  else if p.expr.length ≤ 64 then .positionalBlock
  else .chunk

def executed (p : Pattern) (opt : SearchOptions) : Execution :=
  if opt.invertMatch then { branch := .recordWrapper, guarded := false }
  else
    match p.re with
    | none =>
      let guarded := if fixedGuardEligible I p opt then costPlan lt costs p opt else none
      { branch := fixedBranch I guarded p, guarded := guarded.isSome }
    | some re =>
      if rewritesToFixed p re opt then { branch := fixedBranch I none (p.rewritten re), guarded := false }
      else if (boundedRegionRequested re p.opt && (boundedRegexEligible re p.opt).isSome) && !(boundedBranches re).isEmpty then
        { branch := .boundedRegion, guarded := false }
      else { branch := .fullRegex, guarded := false }

def Pattern.scanned (p : Pattern) (opt : SearchOptions) : Pattern :=
  match p.re with
  | none => p
  | some re => if rewritesToFixed p re opt then p.rewritten re else p

/-- The chunks the full verifier is put to: all in scope after a region plan was refused. -/
def fullCandidates (p : Pattern) (re : RegexProgram) (opt : SearchOptions) : List Nat :=
  if boundedRegionRequested re p.opt && (boundedRegexEligible re p.opt).isNone then
    (List.range I.chunks.length).filter (fun ci => ((I.chunks[ci]?).map (fun z => allows I opt.eligibleFileIds z.fileId)).getD false)
  else regexCandidates I p re opt

def Branch.scan (b : Branch) (p : Pattern) (opt : SearchOptions) : Eval (List Match × Bool) :=
  let q := p.scanned opt
  let full := resultBoundReached opt
  match b with
  | .recordWrapper => findInvert icu I p opt
  | .wholeFile => .ok (findWholeFile icu I q opt full []).2
  | .chunk =>
    if q.icase ∨ q.opt.word ∨ q.opt.line ∨ q.expr.length ≤ 64 then .ok (findChunk icu I q opt full []).2
    else .ok (findLong icu I q opt full []).2
  | .positionalBlock => .ok (findBlocks icu I q opt full []).2
  | .boundedRegion =>
    match p.re with
    | none => .ok ([], false)
    | some re => findBounded icu I p re opt (analyzeRegex re.ast) (regexCandidates I p re opt)
  | .fullRegex =>
    match p.re with
    | none => .ok ([], false)
    | some re => findRegex icu I p re opt (mandatoryLiteral p re) (fullCandidates I p re opt)

/-! ## The branches are those of `find` -/

theorem fixedGuardEligible_fits {I : IndexData} {p : Pattern} {opt : SearchOptions} (h : fixedGuardEligible I p opt = true) :
    p.opt.kind = .fixed ∧ p.expr.length ≤ 64 ∧ p.expr.length ≤ I.opt.chunkOverlap ∧ p.icase = false ∧ p.opt.word = false ∧
      p.opt.line = false ∧ opt.invertMatch = false := by
  simp only [fixedGuardEligible, Bool.and_eq_true, decide_eq_true_eq, Bool.not_eq_true', and_assoc] at h
  obtain ⟨h1, -, h2, h3, h4, h5, h6, -, -, -, -, -, -, h7, -⟩ := h
  refine ⟨h1, h2, h3, ?_, h5, h6, h7⟩
  rw [Pattern.icase, h4]
  rfl

def FixedPhysicalOperator.branch : FixedPhysicalOperator → Branch
  | .wholeFile => .wholeFile
  | .chunk => .chunk
  | .positionalBlock => .positionalBlock

theorem fixedBranch_guarded {I : IndexData} {p : Pattern} {opt : SearchOptions} (h : fixedGuardEligible I p opt = true)
    (op : FixedPhysicalOperator) : fixedBranch I (some op) p = op.branch := by
  obtain ⟨-, hlen, hoverlap, hicase, hword, hline, -⟩ := fixedGuardEligible_fits h
  unfold fixedBranch
  rw [hicase, hword, hline]
  cases op with
  | wholeFile => exact if_pos (Or.inr rfl)
  | chunk =>
    rw [if_neg (by rintro (h | h); exacts [absurd hoverlap (Nat.not_le.2 h), nomatch h])]
    exact if_pos (Or.inr (Or.inr (Or.inr rfl)))
  | positionalBlock =>
    rw [if_neg (by rintro (h | h); exacts [absurd hoverlap (Nat.not_le.2 h), nomatch h]),
      if_neg (by rintro (h | h | h | h) <;> exact nomatch h), if_pos hlen]
    rfl

theorem fixedBranch_unguarded {I : IndexData} {p : Pattern} {opt : SearchOptions} (h : fixedGuardEligible I p opt = true) :
    fixedBranch I none p = .positionalBlock := by
  obtain ⟨-, hlen, hoverlap, hicase, hword, hline, -⟩ := fixedGuardEligible_fits h
  unfold fixedBranch
  rw [hicase, hword, hline, if_neg (by rintro (h | h); exacts [absurd hoverlap (Nat.not_le.2 h), nomatch h]),
    if_neg (by rintro (h | h | h | h) <;> exact nomatch h), if_pos hlen]

theorem findFixed_scan {I : IndexData} {p q : Pattern} {opt : SearchOptions} (hq : p.scanned opt = q)
    {guarded : Option FixedPhysicalOperator} (hshort : guarded = some .chunk → q.expr.length ≤ 64) :
    .ok (findFixed icu I q opt guarded (resultBoundReached opt)) = (fixedBranch I guarded q).scan icu I p opt := by
  unfold findFixed fixedBranch
  split
  · rw [Branch.scan, hq]
  split
  · rename_i h
    rw [Branch.scan, hq, if_pos]
    rcases h with h | h | h | h
    · exact Or.inl h
    · exact Or.inr (Or.inl h)
    · exact Or.inr (Or.inr (Or.inl h))
    · exact Or.inr (Or.inr (Or.inr (hshort h)))
  rename_i h
  simp only [not_or] at h
  split
  · rw [Branch.scan, hq]
  · rename_i hlong
    rw [Branch.scan, hq, if_neg]
    rintro (hc | hc | hc | hc)
    · exact h.1 hc
    · exact h.2.1 hc
    · exact h.2.2.1 hc
    · exact hlong hc

/-- **`find` scans by the branch that `executed` names.** -/
theorem findRaw_scan (p : Pattern) (opt : SearchOptions) :
    findRaw icu I (costPlan lt costs) p opt = (executed lt costs I p opt).branch.scan icu I p opt := by
  unfold findRaw executed
  split
  · rfl
  cases hre : p.re with
  | none =>
    dsimp only
    refine findFixed_scan icu (by rw [Pattern.scanned, hre]) (fun hchunk => ?_)
    split at hchunk
    · exact (fixedGuardEligible_fits ‹_›).2.1
    · exact nomatch hchunk
  | some re =>
    dsimp only
    split
    · rename_i hrewrite
      exact findFixed_scan icu (by rw [Pattern.scanned, hre]; exact if_pos hrewrite) (fun h => nomatch h)
    · rw [findRegexBranch]
      by_cases hrequested : boundedRegionRequested re p.opt = true
      · cases helig : boundedRegexEligible re p.opt with
        | none =>
          have hall : fullCandidates I p re opt = (List.range I.chunks.length).filter (fun ci =>
              ((I.chunks[ci]?).map (fun z => allows I opt.eligibleFileIds z.fileId)).getD false) := by
            rw [fullCandidates, hrequested, helig]
            rfl
          rw [hrequested, if_pos rfl, Option.isSome_none, Bool.and_false, Bool.false_and, if_neg Bool.false_ne_true]
          change _ = (match p.re with | none => _ | some re => _)
          rw [hre]
          dsimp only
          rw [hall]
        | some a =>
          have ha : analyzeRegex re.ast = a := (boundedRegexEligible_ok helig).1.symm
          have hcv : fullCandidates I p re opt = regexCandidates I p re opt := by
            rw [fullCandidates, hrequested, helig]
            rfl
          rw [hrequested, if_pos rfl, Option.isSome_some, Bool.and_true, Bool.true_and]
          cases hempty : (boundedBranches re).isEmpty with
          | true =>
            rw [Bool.not_true, if_neg Bool.false_ne_true]
            change _ = (match p.re with | none => _ | some re => _)
            rw [hre]
            dsimp only
            rw [hcv]
            rfl
          | false =>
            rw [Bool.not_false, if_pos rfl]
            change _ = (match p.re with | none => _ | some re => _)
            rw [hre]
            dsimp only
            rw [ha]
            rfl
      · rw [Bool.not_eq_true] at hrequested
        have hcv : fullCandidates I p re opt = regexCandidates I p re opt := by
          rw [fullCandidates, hrequested]
          rfl
        rw [hrequested, if_neg Bool.false_ne_true, Bool.false_and, Bool.false_and, if_neg Bool.false_ne_true]
        change _ = (match p.re with | none => _ | some re => _)
        rw [hre]
        dsimp only
        rw [hcv]

/-! ## What the report names -/

def Branch.labels : Branch → List String
  | .recordWrapper => ["FixedRecordWrapper"]
  | .wholeFile => ["FixedRareByteWholeFile"]
  | .chunk => ["FixedChunk"]
  | .positionalBlock => ["FixedPositional"]
  | .boundedRegion => ["RegexBoundedRegion"]
  | .fullRegex => ["RegexChunk", "RegexBruteForce"]

/-- **The report names what ran**: the branch, and whether the guarded dispatch chose it. -/
def OperatorReport.Names (r : OperatorReport) (e : Execution) : Prop :=
  r.physicalOperator ∈ e.branch.labels ∧ r.guardedDispatchUsed = e.guarded

theorem compile_again {e : Bytes} {o : PatternOptions} {p : Pattern} (h : Pattern.compile icu e o = .ok p) :
    Pattern.compile icu p.expr p.opt = .ok p := by
  have hcase : resolveCase icu e o ≠ .smart := by
    by_cases hsmart : o.caseMode = .smart
    · rw [resolveCase, if_pos hsmart]
      split_ifs <;> decide
    · rw [resolveCase, if_neg hsmart]
      exact hsmart
  have hagain : resolveCase icu e { o with caseMode := resolveCase icu e o } = resolveCase icu e o := by
    rw [resolveCase]
    exact if_neg hcase
  unfold Pattern.compile at h ⊢
  dsimp only at h
  split at h
  · rename_i hkind
    obtain ⟨re, hre, h⟩ := Throw.bind_ok h
    cases h
    dsimp only
    rw [hagain, if_pos hkind, hre]
    rfl
  · rename_i hkind
    cases h
    dsimp only
    rw [hagain, if_neg hkind]
    rfl

theorem compile_kind {e : Bytes} {o : PatternOptions} {p : Pattern} (h : Pattern.compile icu e o = .ok p) :
    p.opt.kind = .fixed ↔ p.re = none := by
  unfold Pattern.compile at h
  dsimp only at h
  split at h
  · rename_i hkind
    obtain ⟨re, hre, h⟩ := Throw.bind_ok h
    cases h
    exact iff_of_false (fun hf => nomatch hf.symm.trans hkind) nofun
  · rename_i hkind
    cases h
    refine iff_of_true ?_ rfl
    cases hk : o.kind with
    | fixed => rfl
    | regex => exact absurd hk hkind

/-- The operator an estimate names: what the guarded dispatch would choose, else the branch of the options. -/
theorem estimateFixed_operator (p : Pattern) (opt : SearchOptions) :
    (estimateFixed lt costs I p opt).fixedOperator.branch =
      if fixedGuardEligible I p opt then ((costs p opt).cheapest lt).branch else fixedBranch I none p := by
  have hnone : ∀ {op : FixedPhysicalOperator}, ¬ (none : Option FixedPhysicalOperator) = some op := nofun
  unfold estimateFixed fixedBranch
  split
  · cases (costs p opt).cheapest lt <;> rfl
  simp only [hnone, or_false]
  split
  · rfl
  split
  · rfl
  split <;> rfl

theorem estimateFixed_guarded (p : Pattern) (opt : SearchOptions) :
    (estimateFixed lt costs I p opt).guardedDispatch = fixedGuardEligible I p opt := by
  unfold estimateFixed
  split
  · rename_i h
    rw [h]
    cases (costs p opt).cheapest lt <;> rfl
  · rename_i h
    rw [Bool.not_eq_true] at h
    rw [h]
    split
    · rfl
    split
    · rfl
    split <;> rfl

theorem operator_label (op : FixedPhysicalOperator) (b : Branch) :
    (if op = .positionalBlock then "FixedPositional" else if op = .chunk then "FixedChunk" else "FixedRareByteWholeFile") ∈
      b.labels ↔ b = op.branch := by
  cases op <;> cases b <;> decide

theorem upfrontReport_fixed (suppressed : Bool) {p : Pattern} {opt : SearchOptions} (hfixed : p.opt.kind = .fixed)
    (hinvert : opt.invertMatch = false) (e : Execution) :
    (upfrontReport lt costs icu I suppressed p opt).Names e ↔
      e.branch = (if fixedGuardEligible I p opt then ((costs p opt).cheapest lt).branch else fixedBranch I none p) ∧
        e.guarded = (!suppressed && fixedGuardEligible I p opt) := by
  have hqc : estimateCost lt costs icu I p opt = estimateFixed lt costs I p opt := if_pos hfixed
  rw [OperatorReport.Names, upfrontReport, hqc, hfixed, decide_eq_true rfl, hinvert]
  dsimp only
  rw [Bool.not_true, if_neg Bool.false_ne_true, if_neg Bool.false_ne_true, operator_label, estimateFixed_operator,
    estimateFixed_guarded, Bool.and_true, Bool.and_assoc, Bool.and_self, eq_comm (a := e.guarded)]

/-- The labels of the verifiers are of the full verifier, when the pattern is not rewritten. -/
theorem estimateCost_regex {e : Bytes} {o : PatternOptions} {p : Pattern} (h : Pattern.compile icu e o = .ok p)
    {opt : SearchOptions} {re : RegexProgram} (hre : p.re = some re) (hrewrite : rewritesToFixed p re opt = false) :
    (estimateCost lt costs icu I p opt).verifier.name ∈ Branch.fullRegex.labels := by
  have hkind : ¬ p.opt.kind = .fixed := fun hf => nomatch ((compile_kind icu h).1 hf).symm.trans hre
  rw [estimateCost, if_neg hkind, compile_again icu h]
  dsimp only
  rw [hre]
  dsimp only
  rw [hrewrite, if_neg Bool.false_ne_true]
  split
  · exact List.mem_cons_self
  · exact List.mem_cons_of_mem _ List.mem_cons_self

theorem verifier_not_wrapper (v : VerifierKind) : v.name ∉ Branch.recordWrapper.labels := by
  cases v <;> decide

def InvertedRegex (p : Pattern) (opt : SearchOptions) : Prop := p.re.isSome = true ∧ opt.invertMatch = true

/-- A regex is searched as a literal which the guard admits and another operator than the blocks is the cheapest for. -/
def RewrittenPastGuard (p : Pattern) (opt : SearchOptions) : Prop :=
  ∃ re, p.re = some re ∧ rewritesToFixed p re opt = true ∧ fixedGuardEligible I (p.rewritten re) opt = true ∧
    (costs (p.rewritten re) opt).cheapest lt ≠ .positionalBlock

/-- **The report names what ran exactly when** no regex is searched inverted, and none is rewritten to a literal that the
guarded dispatch, were it on, would not scan for block by block.  What ran is what `find` is. -/
theorem report_names_iff {e : Bytes} {o : PatternOptions} {p : Pattern} (h : Pattern.compile icu e o = .ok p)
    (opt : SearchOptions) :
    findRaw icu I (costPlan lt costs) p opt = (executed lt costs I p opt).branch.scan icu I p opt ∧
      ((findReport lt costs icu I p opt).Names (executed lt costs I p opt) ↔
        ¬ InvertedRegex p opt ∧ ¬ RewrittenPastGuard lt costs I p opt) := by
  refine ⟨findRaw_scan lt costs icu I p opt, ?_⟩
  have hkind := compile_kind icu h
  cases hre : p.re with
  | none =>
    have hfixed := hkind.2 hre
    have hnot : ¬ InvertedRegex p opt ∧ ¬ RewrittenPastGuard lt costs I p opt := by
      refine ⟨fun hi => ?_, fun ⟨re, hr, _⟩ => nomatch hre.symm.trans hr⟩
      rw [InvertedRegex, hre] at hi
      exact nomatch hi.1
    refine iff_of_true ?_ hnot
    unfold findReport executed
    rw [hre]
    dsimp only
    cases hinvert : opt.invertMatch with
    | true =>
      rw [if_pos rfl, if_pos rfl]
      have hguard : fixedGuardEligible I p opt = false := by
        rw [Bool.eq_false_iff]
        exact fun hg => nomatch (fixedGuardEligible_fits hg).2.2.2.2.2.2.symm.trans hinvert
      rw [OperatorReport.Names, upfrontReport, hfixed, hinvert, hguard, Bool.and_false]
      exact ⟨List.mem_cons_self, rfl⟩
    | false =>
      rw [if_neg Bool.false_ne_true, if_neg Bool.false_ne_true, upfrontReport_fixed lt costs icu I false hfixed hinvert]
      dsimp only
      cases hguard : fixedGuardEligible I p opt with
      | true =>
        rw [if_pos rfl, if_pos rfl]
        exact ⟨fixedBranch_guarded hguard _, rfl⟩
      | false => exact ⟨rfl, rfl⟩
  | some re =>
    have hregex : ¬ p.opt.kind = .fixed := fun hf => nomatch (hkind.1 hf).symm.trans hre
    unfold findReport executed
    rw [hre]
    dsimp only
    cases hinvert : opt.invertMatch with
    | true =>
      -- the label is that of a verifier, and the records are scanned
      have hbad : InvertedRegex p opt := ⟨by rw [hre]; rfl, hinvert⟩
      refine iff_of_false (fun hn => ?_) (fun hn => hn.1 hbad)
      rw [if_pos rfl, if_pos rfl, OperatorReport.Names, upfrontReport, decide_eq_false hregex] at hn
      exact verifier_not_wrapper _ hn.1
    | false =>
      have hnoinvert : ¬ InvertedRegex p opt := fun hi => nomatch hi.2.symm.trans hinvert
      rw [if_neg Bool.false_ne_true, if_neg Bool.false_ne_true, and_iff_right hnoinvert]
      cases hrewrite : rewritesToFixed p re opt with
      | true =>
        rw [if_pos rfl, if_pos rfl, upfrontReport_fixed lt costs icu I true rfl hinvert]
        dsimp only
        have hpast : RewrittenPastGuard lt costs I p opt ↔ fixedGuardEligible I (p.rewritten re) opt = true ∧
            (costs (p.rewritten re) opt).cheapest lt ≠ .positionalBlock := by
          constructor
          · rintro ⟨re', hre', -, hg, hc⟩
            obtain rfl := Option.some.inj (hre.symm.trans hre')
            exact ⟨hg, hc⟩
          · rintro ⟨hg, hc⟩
            exact ⟨re, hre, hrewrite, hg, hc⟩
        rw [hpast]
        cases hguard : fixedGuardEligible I (p.rewritten re) opt with
        | true =>
          rw [if_pos rfl, fixedBranch_unguarded hguard]
          cases (costs (p.rewritten re) opt).cheapest lt <;> decide
        | false => exact iff_of_true ⟨rfl, rfl⟩ (fun hn => nomatch hn.1)
      | false =>
        have hnone : ¬ RewrittenPastGuard lt costs I p opt := by
          rintro ⟨re', hre', hr, -⟩
          obtain rfl := Option.some.inj (hre.symm.trans hre')
          exact nomatch hr.symm.trans hrewrite
        refine iff_of_true ?_ hnone
        have hlabel := estimateCost_regex lt costs icu I h hre hrewrite
        have hguarded : (upfrontReport lt costs icu I false p opt).guardedDispatchUsed = false := by
          rw [upfrontReport, decide_eq_false hregex]
          rfl
        have hup : (upfrontReport lt costs icu I false p opt).physicalOperator =
            (estimateCost lt costs icu I p opt).verifier.name := by
          rw [upfrontReport, decide_eq_false hregex]
          rfl
        rw [if_neg Bool.false_ne_true, if_neg Bool.false_ne_true]
        cases hrequested : boundedRegionRequested re p.opt with
        | false =>
          rw [if_neg Bool.false_ne_true, Bool.false_and, Bool.false_and, if_neg Bool.false_ne_true]
          exact ⟨hup ▸ hlabel, hguarded⟩
        | true =>
          rw [if_pos rfl, Bool.true_and]
          cases helig : boundedRegexEligible re p.opt with
          | none => exact ⟨List.mem_cons_of_mem _ List.mem_cons_self, hguarded⟩
          | some a =>
            rw [Option.isSome_some, Bool.true_and]
            dsimp only
            cases hempty : (boundedBranches re).isEmpty with
            | true =>
              rw [if_pos rfl, Bool.not_true, if_neg Bool.false_ne_true]
              exact ⟨hup ▸ hlabel, hguarded⟩
            | false =>
              rw [if_neg Bool.false_ne_true, Bool.not_false, if_pos rfl]
              exact ⟨List.mem_cons_self, hguarded⟩

end

def abcdDocuments : List Document := [{ path := [0x61], content := [0x78, 0x61, 0x62, 0x63, 0x64, 0x78] }]

/-- The costs of `abcd` in it: six bytes in one chunk, which has one block, and one row to ask for. -/
def abcdCosts : Pattern → SearchOptions → FixedPlanCosts Nat := fun _ _ => { positional := 221, chunk := 32868, wholeFile := 106 }

theorem report_names_abcd : ∃ I p, fromDocuments abcdDocuments {} = .ok I ∧
    Pattern.compile asciiIcu [0x61, 0x62, 0x63, 0x64] { kind := .fixed } = .ok p ∧
      (findReport (fun a b => decide (a < b)) abcdCosts asciiIcu I p {}).Names
        (executed (fun a b => decide (a < b)) abcdCosts I p {}) := by
  cases hI : fromDocuments abcdDocuments {} with
  | error e =>
    have hok : (fromDocuments abcdDocuments {}).toBool = true := by decide +kernel
    rw [hI] at hok
    exact nomatch hok
  | ok I =>
    refine ⟨I, _, rfl, rfl, (@report_names_iff Nat _ abcdCosts asciiIcu I [0x61, 0x62, 0x63, 0x64] { kind := .fixed } _ rfl {}).2.2
      ⟨fun h => (nomatch h.1), fun ⟨re, hre, _⟩ => (nomatch hre)⟩⟩

/-- The regex `abcd`: inverted, the records are scanned and the report names the blocks; else the blocks are scanned and the
report names the whole file. -/
theorem not_report_names : ∃ I p, fromDocuments abcdDocuments {} = .ok I ∧
    Pattern.compile asciiIcu [0x61, 0x62, 0x63, 0x64] {} = .ok p ∧
    (findReport (fun a b => decide (a < b)) abcdCosts asciiIcu I p { invertMatch := true } = ⟨"FixedPositional", false⟩ ∧
      executed (fun a b => decide (a < b)) abcdCosts I p { invertMatch := true } = ⟨.recordWrapper, false⟩ ∧
      ¬ (findReport (fun a b => decide (a < b)) abcdCosts asciiIcu I p { invertMatch := true }).Names
        (executed (fun a b => decide (a < b)) abcdCosts I p { invertMatch := true })) ∧
    (findReport (fun a b => decide (a < b)) abcdCosts asciiIcu I p {} = ⟨"FixedRareByteWholeFile", false⟩ ∧
      executed (fun a b => decide (a < b)) abcdCosts I p {} = ⟨.positionalBlock, false⟩ ∧
      ¬ (findReport (fun a b => decide (a < b)) abcdCosts asciiIcu I p {}).Names
        (executed (fun a b => decide (a < b)) abcdCosts I p {})) := by
  have hall : ((fromDocuments abcdDocuments {}).toOption.bind (fun I =>
      (Pattern.compile asciiIcu [0x61, 0x62, 0x63, 0x64] {}).toOption.map (fun p =>
        [{ invertMatch := true }, ({} : SearchOptions)].map (fun opt =>
          (findReport (fun a b => decide (a < b)) abcdCosts asciiIcu I p opt,
            executed (fun a b => decide (a < b)) abcdCosts I p opt))))) =
      some [(⟨"FixedPositional", false⟩, ⟨.recordWrapper, false⟩), (⟨"FixedRareByteWholeFile", false⟩, ⟨.positionalBlock, false⟩)] := by
    decide +kernel
  cases hI : fromDocuments abcdDocuments {} with
  | error e =>
    rw [hI] at hall
    exact nomatch hall
  | ok I =>
    cases hp : Pattern.compile asciiIcu [0x61, 0x62, 0x63, 0x64] {} with
    | error e =>
      rw [hI, hp] at hall
      exact nomatch hall
    | ok p =>
      rw [hI, hp] at hall
      have hpair := Option.some.inj hall
      obtain ⟨h1, hrest⟩ := List.cons.inj hpair
      obtain ⟨h2, -⟩ := List.cons.inj hrest
      obtain ⟨r1, e1⟩ := Prod.mk.inj h1
      obtain ⟨r2, e2⟩ := Prod.mk.inj h2
      refine ⟨I, p, rfl, rfl, ⟨r1, e1, ?_⟩, r2, e2, ?_⟩
      · rw [r1, e1, OperatorReport.Names]
        decide
      · rw [r2, e2, OperatorReport.Names]
        decide

end Pergrep
