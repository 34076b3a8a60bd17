import Pergrep.Lib.Emit
import Pergrep.Regex.Sim
import Pergrep.Search.Candidates
import Pergrep.Search.Scan
/-!
# Fixed — the literal branches of `Searcher::find`

Four ways to scan for a literal: whole files (`wholeFileStep`), and windows of them, a chunk or a block at a time
(`windowStep`).  All push their matches through `Emit` and stop where the caller's bound says.
-/
namespace Pergrep

inductive SearchObjective where | exhaustive | firstHit | orderedPrefix
  deriving DecidableEq, Repr

structure SearchOptions where
  overlapping : Bool := false
  invertMatch : Bool := false
  filesWithMatches : Bool := false
  filesWithoutMatch : Bool := false
  includeBinary : Bool := false
  maxMatches : Nat := 0
  recordSeparator : UInt8 := 0x0A
  eligibleFileIds : List Nat := []
  objective : SearchObjective := .exhaustive
  deriving DecidableEq, Repr

structure Pattern where
  expr : Bytes
  opt : PatternOptions
  /-- The program; `none` for a fixed pattern. -/
  re : Option RegexProgram := none

inductive FixedPhysicalOperator where | wholeFile | chunk | positionalBlock
  deriving DecidableEq, Repr

/-- `!opt.include_binary && infos[fid].binary` -/
def skipsBinary (I : IndexData) (opt : SearchOptions) (fid : Nat) : Bool :=
  !opt.includeBinary && ((I.infos[fid]?).map FileInfo.binary).getD false

def advanceBy (overlapping : Bool) (x e : Nat) : Nat := if overlapping then 1 else max 1 (e - x)

section
variable (icu : Icu) (I : IndexData) (p : Pattern) (opt : SearchOptions)

def Pattern.icase : Bool := p.opt.caseMode == .insensitive

def candidateFiles (cv : List Nat) : List Nat :=
  (cv.filterMap (fun ci => (I.chunks[ci]?).map Chunk.fileId)).foldl
    (fun files fid => if files.getLast? = some fid then files else files ++ [fid]) []

def wholeFileStep (fid : Nat) (pos : Nat) : Option (Option Match × Nat) :=
  let data := I.data fid
  let maxPos := data.length + (if p.expr.isEmpty then 1 else 0)
  if pos < maxPos then
    match anchorFind icu data p.expr (chooseRareByte I p.expr) pos maxPos p.icase with
    | none => none
    | some (x, e) =>
      some (if boundaryOk icu p.opt opt.recordSeparator data x e then some { fileId := fid, start := x, stop := e } else none,
        x + advanceBy opt.overlapping x e)
  else none

/-- The whole-file branch: the files of the candidate chunks, each from its first byte. -/
def findWholeFile (full : List Match → Bool) (out : List Match) : Nat × List Match × Bool :=
  Emit.each (fun fid _ out =>
      if skipsBinary I opt fid then (0, out, false)
      else Emit.loop full (wholeFileStep icu I p opt fid) ((I.data fid).length + 2) 0 out)
    (candidateFiles I (chunkCandidates I opt.eligibleFileIds p.expr)) 0 out

/-- One pass over the window `v` of a file, at an offset into it: `base` is where the window starts, `maxStart` the end
of its core, and `next` the offset in each file before which nothing more is taken. -/
def windowStep (fid base : Nat) (v : Bytes) (maxStart : Nat) (icase : Bool) (ok : Nat → Nat → Bool)
    (s : Nat × (Nat → Nat)) : Option (Option Match × Nat × (Nat → Nat)) :=
  if s.1 < maxStart then
    match anchorFind icu v p.expr (chooseRareByte I p.expr) s.1 maxStart icase with
    | none => none
    | some (x, e) =>
      if ok (base + x) (base + e) then
        let m : Match := { fileId := fid, start := base + x, stop := base + e }
        if opt.overlapping then some (some m, x + 1, s.2)
        else if base + x < s.2 fid then some (none, x + 1, s.2)
        else some (some m, x + max 1 (e - x), Function.update s.2 fid (base + x + max 1 (e - x)))
      else some (none, x + advanceBy opt.overlapping x e, s.2)
  else none

def scanWindow (full : List Match → Bool) (fid base : Nat) (v : Bytes) (maxStart : Nat) (icase : Bool)
    (ok : Nat → Nat → Bool) (next : Nat → Nat) (out : List Match) : (Nat → Nat) × List Match × Bool :=
  let r := Emit.loop full (windowStep icu I p opt fid base v maxStart icase ok) (maxStart + 1) (0, next) out
  (r.1.2, r.2)

/-- One chunk: its core is scanned, with the bytes after it in view. -/
def scanChunk (full : List Match → Bool) (icase : Bool) (ok : Nat → Nat → Nat → Bool) (ci : Nat) (next : Nat → Nat)
    (out : List Match) : (Nat → Nat) × List Match × Bool :=
  match I.chunks[ci]? with
  | none => (next, out, false)
  | some z =>
    if skipsBinary I opt z.fileId then (next, out, false)
    else
      scanWindow icu I p opt full z.fileId z.coreBegin (I.view z)
        (z.coreEnd - z.coreBegin + (if p.expr.isEmpty then 1 else 0)) icase (ok z.fileId) next out

/-- The chunk branch; `done_chunks` never refuses one, since the candidates are distinct. -/
def findChunk (full : List Match → Bool) (out : List Match) : (Nat → Nat) × List Match × Bool :=
  Emit.each (scanChunk icu I p opt full p.icase (fun fid => boundaryOk icu p.opt opt.recordSeparator (I.data fid)))
    (chunkCandidates I opt.eligibleFileIds (if p.icase then [] else p.expr)) (fun _ => 0) out

/-- One block of a chunk, with up to 64 bytes after it in view. -/
def scanBlock (full : List Match → Bool) (b : Nat × Nat) (next : Nat → Nat) (out : List Match) :
    (Nat → Nat) × List Match × Bool :=
  match I.chunks[b.1]? with
  | none => (next, out, false)
  | some z =>
    if skipsBinary I opt z.fileId then (next, out, false)
    else
      let rb := b.2 * I.posBlock
      if z.coreEnd - z.coreBegin ≤ rb ∧ ¬ (p.expr.isEmpty ∧ rb = 0 ∧ z.coreEnd = z.coreBegin) then (next, out, false)
      else
        let core := min I.posBlock (z.coreEnd - z.coreBegin - rb)
        let re := min (z.extEnd - z.coreBegin) (rb + I.posBlock + 64)
        scanWindow icu I p opt full z.fileId (z.coreBegin + rb) (slice (I.data z.fileId) (z.coreBegin + rb) (z.coreBegin + re))
          (core + (if p.expr.isEmpty then 1 else 0)) false (fun _ _ => true) next out

def findBlocks (full : List Match → Bool) (out : List Match) : (Nat → Nat) × List Match × Bool :=
  Emit.each (scanBlock icu I p opt full) (fixedCandidateBlocks I opt.eligibleFileIds p.expr) (fun _ => 0) out

def scanLong (full : List Match → Bool) (ci : Nat) (next : Nat → Nat) (out : List Match) :
    (Nat → Nat) × List Match × Bool :=
  match I.chunks[ci]? with
  | none => (next, out, false)
  | some z =>
    if skipsBinary I opt z.fileId then (next, out, false)
    else
      scanWindow icu I p opt full z.fileId z.coreBegin (I.view z) (z.coreEnd - z.coreBegin) false (fun _ _ => true) next out

def findLong (full : List Match → Bool) (out : List Match) : (Nat → Nat) × List Match × Bool :=
  Emit.each (scanLong icu I p opt full) (chunkCandidates I opt.eligibleFileIds p.expr) (fun _ => 0) out

/-- The fixed branch: `guarded` is the operator of the guarded dispatch, `none` when that does not apply. -/
def findFixed (guarded : Option FixedPhysicalOperator) (full : List Match → Bool) : List Match × Bool :=
  if I.opt.chunkOverlap < p.expr.length ∨ guarded = some .wholeFile then (findWholeFile icu I p opt full []).2
  else if p.icase ∨ p.opt.word ∨ p.opt.line ∨ guarded = some .chunk then (findChunk icu I p opt full []).2
  else if p.expr.length ≤ 64 then (findBlocks icu I p opt full []).2
  else (findLong icu I p opt full []).2

end

end Pergrep
