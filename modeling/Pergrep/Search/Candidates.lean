import Pergrep.Index.Build
/-!
# Candidates — which chunks and blocks may hold a literal

`plannedHashes` picks the q-grams to ask for, rarest first, within the budget of the index; `chunkCandidates` and
`fixedCandidateBlocks` intersect the filter rows they select.  A literal the filters say nothing about has every chunk
as a candidate.
-/
namespace Pergrep

open BitWords

/-- `StatsRecorder::allows`: the scope of the search, everything when it is empty. -/
def allows (I : IndexData) (scope : List Nat) (fid : Nat) : Bool :=
  scope.isEmpty || I.infos.isEmpty || (decide (fid < I.infos.length) && scope.contains fid)

/-! ## The planner -/

def adaptiveK (I : IndexData) (q : Bytes) : Nat :=
  let available := (qgrams q).dedup.length
  if I.opt.plannedQgrams = 0 then available else min I.opt.plannedQgrams available

def windowRank (I : IndexData) (w : Bytes) : Nat × Nat :=
  let hash := hash4 w
  let exactChunks :=
    if I.plannerStatsReady then
      match I.exactQgrams.find? (fun e => e.1 == qgram4Key w) with
      | some e => e.2.chunkFrequency
      | none   => I.chunks.length
    else I.chunks.length
  let bucketChunks := if I.plannerStatsReady then I.hashChunkFreq (hash % 65536) else I.chunks.length
  (hash, max exactChunks bucketChunks)

/-- The order of the planner: rarest first, then by hash. -/
def rankLe (a b : Nat × Nat) : Prop := a.2 < b.2 ∨ (a.2 = b.2 ∧ a.1 ≤ b.1)

instance : DecidableRel rankLe := fun a b => inferInstanceAs (Decidable (a.2 < b.2 ∨ (a.2 = b.2 ∧ a.1 ≤ b.1)))

def uniqueRanked : List (Nat × Nat) → List (Nat × Nat) → List (Nat × Nat)
  | kept, [] => kept
  | kept, x :: xs => if kept.any (fun k => k.1 == x.1) then uniqueRanked kept xs else uniqueRanked (kept ++ [x]) xs

def plannedHashes (I : IndexData) (q : Bytes) : List Nat :=
  let ranked := ((windows q).map (windowRank I)).insertionSort rankLe
  ((uniqueRanked [] ranked).map Prod.fst).take (adaptiveK I q)

/-! ## Chunks -/

def wordRows (wm : Nat × Nat) : List Nat := (bitsOf 64 wm.2).map (fun bit => wm.1 * 64 + bit)

/-- The words of `c` after the rows of a class; `none` once no chunk is left. -/
def intersectRows (g : Group) : QueryClass → List Nat → Option (List Nat)
  | [], c => some c
  | wm :: rest, c =>
    let c := (wordRows wm).foldl (fun c row => andRow g.bits g.words row c) c
    if c.any (· != 0) then intersectRows g rest c else none

/-- All chunks of a group: the last word is cut to the number of chunks. -/
def allBits (g : Group) : List Nat :=
  if g.gids.length % 64 = 0 then List.replicate g.words (2 ^ 64 - 1)
  else List.replicate (g.words - 1) (2 ^ 64 - 1) ++ [2 ^ (g.gids.length % 64) - 1]

def groupCandidates (I : IndexData) (scope : List Nat) (g : Group) (q : QueryDesc) : List Nat :=
  let keep := fun ci => ((I.chunks[ci]?).map (fun z => allows I scope z.fileId)).getD false
  if g.gids.isEmpty then []
  else
    let qc := q.classes.getD (g.lg - 9) []
    if qc.isEmpty then g.gids.filter keep
    else
      match intersectRows g qc (allBits g) with
      | none => []
      | some c =>
        ((positions 64 c).filterMap (g.gids[·]?)).filter keep

/-- The order of the candidates: by file, then by offset. -/
def chunkLe (I : IndexData) (a b : Nat) : Prop :=
  match I.chunks[a]?, I.chunks[b]? with
  | some x, some y =>
    if x.fileId ≠ y.fileId then x.fileId < y.fileId
    else if x.coreBegin ≠ y.coreBegin then x.coreBegin < y.coreBegin
    else a ≤ b
  | _, _ => a ≤ b

instance (I : IndexData) : DecidableRel (chunkLe I) := fun a b => by
  unfold chunkLe
  exact match I.chunks[a]?, I.chunks[b]? with
    | some _, some _ => inferInstance
    | some _, none => inferInstance
    | none, some _ => inferInstance
    | none, none => inferInstance

def chunkCandidates (I : IndexData) (scope : List Nat) (lit : Bytes) : List Nat :=
  if lit.length < 4 ∨ I.opt.chunkOverlap < lit.length then
    (List.range I.chunks.length).filter (fun ci => ((I.chunks[ci]?).map (fun z => allows I scope z.fileId)).getD false)
  else
    let q := compileQgramQuery (plannedHashes I lit)
    ((I.groups.flatMap (fun g => groupCandidates I scope g q)).insertionSort (chunkLe I)).dedup

/-! ## Blocks -/

/-- The mask bytes of `bm` after the rows; `none` once no block is left. -/
def intersectBlocks (pos : List Nat) (d : PosDesc) : List Nat → List Nat → Option (List Nat)
  | [], bm => some bm
  | r :: rows, bm =>
    let bm := andRow (pos.drop d.off) d.maskBytes r bm
    if bm.any (· != 0) then intersectBlocks pos d rows bm else none

def allBlocks (d : PosDesc) : List Nat :=
  if d.blocks % 8 = 0 then List.replicate d.maskBytes 0xFF
  else List.replicate (d.maskBytes - 1) 0xFF ++ [2 ^ (d.blocks % 8) - 1]

def chunkBlocks (I : IndexData) (hs : List Nat) (ci : Nat) : List (Nat × Nat) :=
  match I.posDesc[ci]? with
  | none => []
  | some d =>
    if d.blocks = 0 ∨ d.maskBytes = 0 then []
    else
      match intersectBlocks I.pos d (sortDistinct (hs.map (fun h => h &&& (d.m - 1)))) (allBlocks d) with
      | none => []
      | some bm =>
        ((positions 8 bm).filter (· < d.blocks)).map (fun bi => (ci, bi))

def fixedCandidateBlocks (I : IndexData) (scope : List Nat) (q : Bytes) : List (Nat × Nat) :=
  if q.isEmpty then
    ((List.range I.chunks.length).filter (fun ci =>
      ((I.chunks[ci]?).map (fun z => allows I scope z.fileId)).getD false)).map (fun ci => (ci, 0))
  else (chunkCandidates I scope q).flatMap (chunkBlocks I (plannedHashes I q))

end Pergrep
