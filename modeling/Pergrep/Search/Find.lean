import Pergrep.Lib.Throw
import Pergrep.Regex.Vm
import Pergrep.Search.Fixed
import Pergrep.Search.Regions
/-!
# Find — `Pattern::compile`, `Searcher::find` and `Searcher::files`

`find` runs one of: the record scan of an inverted search, the fixed branch, the bounded regions of a regex, or its full
verifier.  What the cost model chooses for a guarded fixed search is a parameter, `plan`; a search that is never
cancelled is modelled, and one that throws is an error.
-/
namespace Pergrep

open Throw (eachE)

/-! ## Patterns -/

section
variable (icu : Icu)

def anyUpper (e : Bytes) : Nat → Nat → Bool
  | 0, _ => false
  | fuel + 1, pos =>
    if pos < e.length then
      match u8Next (e.drop pos) with
      | some (cp, w) => icu.isUpper cp || anyUpper e fuel (pos + w)
      | none         => anyUpper e fuel (pos + 1)
    else false

def resolveCase (e : Bytes) (o : PatternOptions) : CaseMode :=
  if o.caseMode = .smart then
    if (if o.unicode then anyUpper icu e e.length 0 else e.any isUpperByte) then .sensitive else .insensitive
  else o.caseMode

def Pattern.compile (e : Bytes) (o : PatternOptions) : Eval Pattern := do
  let opt := { o with caseMode := resolveCase icu e o }
  if o.kind = .regex then
    let re ← parseRegex icu e opt
    return { expr := e, opt := opt, re := some re }
  else return { expr := e, opt := opt }

end

/-! ## Records -/

/-- `--logical_e` before a carriage return. -/
def trimCr (crlf : Bool) (sep : UInt8) (data : Bytes) (b e : Nat) : Nat :=
  if crlf ∧ sep = 0x0A ∧ b < e ∧ data[e - 1]? = some 0x0D then e - 1 else e

/-- The records of a file from `b` on: where each begins, and where its text ends. -/
def recordsFrom (crlf : Bool) (sep : UInt8) (data : Bytes) : Nat → Nat → List (Nat × Nat)
  | 0, _ => []
  | fuel + 1, b =>
    if b < data.length ∨ (b = 0 ∧ data.isEmpty) then
      match memchr data sep b data.length with
      | some e => (b, trimCr crlf sep data b e) :: recordsFrom crlf sep data fuel (e + 1)
      | none   => [(b, trimCr crlf sep data b data.length)]
    else []

def records (crlf : Bool) (sep : UInt8) (data : Bytes) : List (Nat × Nat) :=
  recordsFrom crlf sep data (data.length + 1) 0

def recordContext (crlf : Bool) (sep : UInt8) (data : Bytes) (r : Nat × Nat) : VerifierContext :=
  { source := data, sourceBegin := 0, sourceEnd := data.length, recordBegin := r.1, recordEnd := r.2,
    candidateBegin := r.1, candidateEnd := r.2 + 1, separator := sep, crlf := crlf }

/-- The records a regex is tried on: the file as a whole under `multiline`. -/
def regexRecords (p : Pattern) (opt : SearchOptions) (data : Bytes) : List (Nat × Nat) :=
  if p.opt.multiline then [(0, data.length)] else records p.opt.crlf opt.recordSeparator data

/-! ## `find` -/

def resultBoundReached (opt : SearchOptions) (out : List Match) : Bool :=
  decide (opt.objective = .firstHit) || (decide (opt.maxMatches ≠ 0) && decide (opt.maxMatches ≤ out.length))

def fixedGuardEligible (I : IndexData) (p : Pattern) (opt : SearchOptions) : Bool :=
  let po := p.opt
  decide (po.kind = .fixed) && decide (4 ≤ p.expr.length) && decide (p.expr.length ≤ 64) &&
    decide (p.expr.length ≤ I.opt.chunkOverlap) &&
    decide (po.caseMode = .sensitive) && !po.word && !po.line && !po.multiline && !po.dotall && !po.crlf && po.unicode &&
    decide (po.engine = .default_) &&
    !opt.overlapping && !opt.invertMatch && !opt.filesWithMatches && !opt.filesWithoutMatch && decide (opt.maxMatches = 0) &&
    decide (opt.recordSeparator = 0x0A) && !opt.includeBinary && opt.eligibleFileIds.isEmpty &&
    I.plannerStatsReady && decide (I.posBlock ≠ 0) && decide (I.posDesc.length = I.chunks.length) && !I.pos.isEmpty &&
    !I.infos.any FileInfo.binary

/-- A choice of the physical operator, where the guarded dispatch applies. -/
abbrev Planner := Pattern → SearchOptions → Option FixedPhysicalOperator

section
variable (icu : Icu) (I : IndexData)

/-- One pass of the loop of `fixed_match_in_record`: whether the occurrence passes, and where to go on. -/
def fixedRecordStep (p : Pattern) (rec : Bytes) (pos : Nat) : Option (Bool × Nat) :=
  let maxPos := rec.length + (if p.expr.isEmpty then 1 else 0)
  if pos < maxPos then
    match anchorFind icu rec p.expr (chooseRareByte I p.expr) pos maxPos p.icase with
    | none => none
    | some (x, e) =>
      some ((!p.opt.word || wordOk icu p.opt.unicode rec x e) && (!p.opt.line || (decide (x = 0) && decide (e = rec.length))),
        x + max 1 (e - x))
  else none

def fixedRecordLoop (p : Pattern) (rec : Bytes) : Nat → Nat → Bool
  | 0, _ => false
  | fuel + 1, pos =>
    match fixedRecordStep icu I p rec pos with
    | none => false
    | some (true, _) => true
    | some (false, pos) => fixedRecordLoop p rec fuel pos

def fixedMatchInRecord (p : Pattern) (rec : Bytes) : Bool := fixedRecordLoop icu I p rec (rec.length + 2) 0

def recordMatched (p : Pattern) (opt : SearchOptions) (fid : Nat) (r : Nat × Nat) : Eval Bool :=
  match p.re with
  | none => .ok (fixedMatchInRecord icu I p (slice (I.data fid) r.1 r.2))
  | some re => do
    let m ← regexSearch icu re (recordContext p.opt.crlf opt.recordSeparator (I.data fid) r) fid
    return m.isSome

def invertRecord (p : Pattern) (opt : SearchOptions) (fid : Nat) (r : Nat × Nat) (out : List Match) :
    Eval (List Match × Bool) := do
  if ← recordMatched icu I p opt fid r then return (out, false)
  else
    let out := out ++ [{ fileId := fid, start := r.1, stop := r.2 }]
    return (out, resultBoundReached opt out)

def findInvert (p : Pattern) (opt : SearchOptions) : Eval (List Match × Bool) :=
  eachE (fun fid out =>
      if !allows I opt.eligibleFileIds fid || skipsBinary I opt fid then .ok (out, false)
      else eachE (invertRecord icu I p opt fid) (records p.opt.crlf opt.recordSeparator (I.data fid)) out)
    (List.range I.loaded.length) []

def remain (opt : SearchOptions) (out : List Match) : Nat :=
  if opt.objective = .firstHit then 1 else if opt.maxMatches ≠ 0 then opt.maxMatches - out.length else 0

/-- The verifier on one context; the bound is put to the list after each, whether or not there was a match. -/
def verifyContext (re : RegexProgram) (opt : SearchOptions) (fid : Nat) (c : VerifierContext) (out : List Match) :
    Eval (List Match × Bool) := do
  let ms ← regexFindAll icu re c opt.overlapping fid (remain opt out)
  return (out ++ ms, resultBoundReached opt (out ++ ms))

def boundedContexts (p : Pattern) (re : RegexProgram) (opt : SearchOptions) (a : RegexAnalysis) (data : Bytes) :
    List VerifierContext :=
  (regexRecords p opt data).flatMap (fun r =>
    (recordRegions (boundedBranches re) a (slice data r.1 r.2) r.1 r.2).map (fun b =>
      { recordContext p.opt.crlf opt.recordSeparator data r with
        candidateBegin := b.candidateBegin, candidateEnd := b.candidateEnd
        regionBegin := b.regionBegin, regionEnd := b.regionEnd, boundedRegion := true }))

/-- The bounded execution of a regex, over the files of the candidate chunks. -/
def findBounded (p : Pattern) (re : RegexProgram) (opt : SearchOptions) (a : RegexAnalysis) (cv : List Nat) :
    Eval (List Match × Bool) :=
  eachE (fun fid out =>
      if skipsBinary I opt fid then .ok (out, false)
      else eachE (verifyContext icu re opt fid) (boundedContexts p re opt a (I.data fid)) out)
    (candidateFiles I cv) []

/-- The full verifier; a short literal that every match needs is looked for in the file first. -/
def findRegex (p : Pattern) (re : RegexProgram) (opt : SearchOptions) (lit : Bytes) (cv : List Nat) :
    Eval (List Match × Bool) :=
  eachE (fun fid out =>
      let data := I.data fid
      if skipsBinary I opt fid then .ok (out, false)
      else if !lit.isEmpty ∧ lit.length < 4 ∧ p.opt.caseMode = .sensitive ∧ Substr.findFrom data lit 0 = none then
        .ok (out, false)
      else
        eachE (verifyContext icu re opt fid)
          ((regexRecords p opt data).map (recordContext p.opt.crlf opt.recordSeparator data)) out)
    (candidateFiles I cv) []

/-- The literal the candidates of a regex are chosen by, when it has no branches of its own. -/
def mandatoryLiteral (p : Pattern) (re : RegexProgram) : Bytes :=
  if p.opt.caseMode = .insensitive ∨ !re.queryIr.branchMandatory.isEmpty then [] else longestLiteral re.queryIr.mandatory

def regexCandidates (p : Pattern) (re : RegexProgram) (opt : SearchOptions) : List Nat :=
  if p.opt.caseMode ≠ .insensitive ∧ !re.queryIr.branchMandatory.isEmpty then
    sortDistinct (re.queryIr.branchMandatory.flatMap (fun branch =>
      let best := longestLiteral branch
      if best.isEmpty then [] else chunkCandidates I opt.eligibleFileIds best))
  else chunkCandidates I opt.eligibleFileIds (mandatoryLiteral p re)

def findRegexBranch (p : Pattern) (re : RegexProgram) (opt : SearchOptions) : Eval (List Match × Bool) :=
  let cv := regexCandidates I p re opt
  let lit := mandatoryLiteral p re
  if boundedRegionRequested re p.opt then
    match boundedRegexEligible re p.opt with
    | some a =>
      if (boundedBranches re).isEmpty then findRegex icu I p re opt lit cv else findBounded icu I p re opt a cv
    | none =>
      findRegex icu I p re opt lit ((List.range I.chunks.length).filter (fun ci =>
        ((I.chunks[ci]?).map (fun z => allows I opt.eligibleFileIds z.fileId)).getD false))
  else findRegex icu I p re opt lit cv

def rewritesToFixed (p : Pattern) (re : RegexProgram) (opt : SearchOptions) : Bool :=
  re.queryIr.isPureLiteral && decide (re.groups = 0) && decide (p.opt.caseMode ≠ .insensitive) && !re.extended &&
    (p.opt.multiline || !re.queryIr.exactLiteral.contains opt.recordSeparator)

/-- The scan of a search, before the list is cut to `max_matches`. -/
def findRaw (plan : Planner) (p : Pattern) (opt : SearchOptions) : Eval (List Match × Bool) :=
  if opt.invertMatch then findInvert icu I p opt
  else
    match p.re with
    | none =>
      let guarded := if fixedGuardEligible I p opt then plan p opt else none
      .ok (findFixed icu I p opt guarded (resultBoundReached opt))
    | some re =>
      if rewritesToFixed p re opt then
        -- the dispatch of the rewritten pattern is not guarded
        let fixed : Pattern := { expr := re.queryIr.exactLiteral, opt := { p.opt with kind := .fixed } }
        .ok (findFixed icu I fixed opt none (resultBoundReached opt))
      else findRegexBranch icu I p re opt

def find (plan : Planner) (p : Pattern) (opt : SearchOptions) : Eval (List Match) := do
  let r ← findRaw icu I plan p opt
  return if opt.maxMatches ≠ 0 ∧ opt.maxMatches < r.1.length then r.1.take opt.maxMatches else r.1

/-! ## `files` -/

def fileListed (opt : SearchOptions) (fid : Nat) : Bool :=
  (opt.eligibleFileIds.isEmpty || opt.eligibleFileIds.contains fid) && !skipsBinary I opt fid

def filesFirst (plan : Planner) (p : Pattern) (opt : SearchOptions) : List Nat → Eval (List Nat)
  | [] => .ok []
  | fid :: fids =>
    if fileListed I opt fid then do
      let one := { opt with eligibleFileIds := [fid], filesWithMatches := false, filesWithoutMatch := false, maxMatches := 0 }
      let ms ← find icu I plan p one
      if ms.isEmpty = opt.filesWithoutMatch then return [fid] else filesFirst plan p opt fids
    else filesFirst plan p opt fids

def files (plan : Planner) (p : Pattern) (opt : SearchOptions) : Eval (List Nat) :=
  if opt.objective = .firstHit then filesFirst icu I plan p opt (List.range I.infos.length)
  else do
    let ms ← find icu I plan p { opt with objective := .exhaustive, maxMatches := 0 }
    let listed := (List.range I.infos.length).filter (fun fid =>
      fileListed I opt fid && (ms.any (fun m => m.fileId == fid) != opt.filesWithoutMatch))
    return if opt.maxMatches ≠ 0 then listed.take opt.maxMatches else listed

end

end Pergrep
