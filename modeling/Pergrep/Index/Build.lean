import Pergrep.Index.Data
/-!
# Build — `Index::from_documents`

The documents in path order become the files; each file is cut into chunks (`chunkLoop`); the planner statistics, the
group filters and the positional filters are filled from the chunks' texts (`materializeIndexFilters`).
-/
namespace Pergrep

open BitWords

structure Document where
  path : Bytes
  content : Bytes
  deriving DecidableEq, Repr

def maxCorpusBytes : Nat := 2 ^ 30
def plannerCorpusCap : Nat := 128 * 1024 * 1024
def plannerDistinctQgramCap : Nat := 2 ^ 20

def looksBinary (s : Bytes) : Bool := (s.take 8192).contains 0

def validateIndexOptions (opt : IndexOptions) : Except String Unit :=
  if opt.chunkBytes < 64 ∨ 2 ^ 30 < opt.chunkBytes then
    .error "pergrep: chunk_bytes out of range [64, 1073741824]"
  else if opt.positionalBlockBytes < 16 ∨ 2 ^ 20 < opt.positionalBlockBytes then
    .error "pergrep: positional_block_bytes out of range [16, 1048576]"
  else if opt.chunkBytes / 2 < opt.chunkOverlap then
    .error "pergrep: chunk_overlap must be <= chunk_bytes / 2"
  else if 64 < opt.plannedQgrams then
    .error "pergrep: planned_qgrams out of range [0, 64]"
  else if !opt.positionalBudgetRatio.inRange then
    .error "pergrep: positional_budget_ratio out of range [0.0, 10.0]"
  else .ok ()

/-! ## Chunks -/

def chunkLoop (opt : IndexOptions) (fid n : Nat) : Nat → Nat → List Chunk
  | 0, _ => []
  | fuel + 1, b =>
    if b < n then
      let e := min n (b + opt.chunkBytes)
      { fileId := fid, coreBegin := b, coreEnd := e, extEnd := min n (e + opt.chunkOverlap) } ::
        chunkLoop opt fid n fuel (b + opt.chunkBytes)
    else []

/-- The chunks of a file; an empty file has one empty chunk. -/
def fileChunks (opt : IndexOptions) (fid n : Nat) : List Chunk :=
  if n = 0 then [{ fileId := fid, coreBegin := 0, coreEnd := 0, extEnd := 0 }] else chunkLoop opt fid n n 0

def chunksFrom (opt : IndexOptions) : Nat → List Bytes → List Chunk
  | _, [] => []
  | fid, s :: ss => fileChunks opt fid s.length ++ chunksFrom opt (fid + 1) ss

/-! ## Planner statistics -/

/-- The windows of one file, counted; `none` when the table would pass its cap. -/
def countWindows : List UInt32 → QgramTable → Option QgramTable
  | [], t => some t
  | key :: keys, t =>
    let bump := fun (q : QgramStats) => { q with occurrenceFrequency := q.occurrenceFrequency + 1 }
    if t.any (fun e => e.1 == key) then countWindows keys (t.update key bump)
    else if plannerDistinctQgramCap ≤ t.length then none
    else countWindows keys (t ++ [(key, bump {})])

def countFiles : Nat → List Bytes → QgramTable → Option QgramTable
  | _, [], t => some t
  | fid, s :: ss, t => do
    let keys := (windows s).map qgram4Key
    let t ← countWindows keys t
    countFiles (fid + 1) ss (keys.dedup.foldl (fun t key => t.update key (fun q =>
      { q with documentFrequency := q.documentFrequency + 1, documentIds := q.documentIds ++ [fid] })) t)

/-- One chunk's share of the statistics; a chunk outside its file has none. -/
def countChunk (I : IndexData) (ci : Nat) (c : Chunk) : IndexData :=
  let size := (I.data c.fileId).length
  if I.loaded.length ≤ c.fileId ∨ size < c.coreBegin ∨ c.extEnd < c.coreBegin ∨ size < c.extEnd then I
  else
    let keys := ((windows (I.view c)).map qgram4Key).dedup
    let buckets := ((qgrams (I.view c)).map (· % 65536)).dedup
    { I with
      exactQgrams := keys.foldl (fun t key => t.update key (fun q =>
        { q with chunkFrequency := q.chunkFrequency + 1, chunkIds := q.chunkIds ++ [ci] })) I.exactQgrams
      hashChunkFreq := fun h => if buckets.contains h then I.hashChunkFreq h + 1 else I.hashChunkFreq h
      hashChunkIds := fun h => if buckets.contains h then I.hashChunkIds h ++ [ci] else I.hashChunkIds h }

def rebuildPlannerStats (I : IndexData) : IndexData :=
  let I := { I with exactQgrams := [], hashChunkFreq := fun _ => 0, hashChunkIds := fun _ => [],
                    plannerStatsReady := false }
  if plannerCorpusCap < I.corpBytes then I
  else
    match countFiles 0 I.loaded [] with
    | none => I
    | some t =>
      let I := I.chunks.zipIdx.foldl (fun I c => countChunk I c.2 c.1) { I with exactQgrams := t }
      { I with plannerStatsReady := true }

/-! ## The group filters -/

def chunkLg (c : Chunk) : Nat := lgFor (c.extEnd - c.coreBegin)

/-- The empty group of class `k + 9`, with room for its chunks. -/
def emptyGroup (chunks : List Chunk) (k : Nat) : Group :=
  let words := (chunks.countP (fun c => chunkLg c == k + 9) + 63) / 64
  { lg := k + 9, m := 2 ^ (k + 9), words := words, bits := List.replicate (2 ^ (k + 9) * words) 0 }

/-- The bits of a chunk with local number `li`: one in the row of each window. -/
def groupBits (g : Group) (li : Nat) (v : Bytes) : List (Nat × Nat) :=
  (qgrams v).map (fun h => ((h &&& (g.m - 1)) * g.words + li / 64, li % 64))

def Group.addChunk (g : Group) (ci : Nat) (v : Bytes) : Group :=
  { g with gids := g.gids ++ [ci], bits := setBits g.bits (groupBits g g.gids.length v) }

def buildGroups (I : IndexData) : List Group :=
  I.chunks.zipIdx.foldl (fun gs c => gs.modify (chunkLg c.1 - 9) (fun g => g.addChunk c.2 (I.view c.1)))
    ((List.range 8).map (emptyGroup I.chunks))

/-! ## The positional filters -/

def positionalOverlap : Nat := 64

def chooseMLoop (want : Nat) : Nat → Nat → Nat
  | 0, m => m
  | fuel + 1, m => if m < 1024 ∧ m * 2 ≤ want then chooseMLoop want fuel (m * 2) else m

/-- `choose_m`: the number of rows, a power of two from 64 to 1024. -/
def chooseM (opt : IndexOptions) (coreLen maskBytes : Nat) : Nat :=
  chooseMLoop (max 64 (opt.positionalBudgetRatio.budget coreLen / max 1 maskBytes)) 4 64

def posDescOf (I : IndexData) (off : Nat) (z : Chunk) : PosDesc :=
  let coreLen := z.coreEnd - z.coreBegin
  let blocks := max 1 ((coreLen + I.posBlock - 1) / I.posBlock)
  let maskBytes := (blocks + 7) / 8
  { off := off, m := chooseM I.opt coreLen maskBytes, maskBytes := maskBytes, blocks := blocks }

/-- The descriptors of the chunks, one after another, and the length of all their rows. -/
def posDescs (I : IndexData) : Nat → List Chunk → List PosDesc × Nat
  | total, [] => ([], total)
  | total, z :: zs =>
    let d := posDescOf I total z
    let rest := posDescs I (total + d.m * d.maskBytes) zs
    (d :: rest.1, rest.2)

/-- The bits of one block: one in the row of each window that starts in it or shortly after. -/
def blockBits (I : IndexData) (z : Chunk) (d : PosDesc) (bi : Nat) : List (Nat × Nat) :=
  let rb := bi * I.posBlock
  let chunkLen := z.extEnd - z.coreBegin
  if chunkLen ≤ rb then []
  else
    let re := min chunkLen (rb + I.posBlock + positionalOverlap)
    (qgrams (slice (I.data z.fileId) (z.coreBegin + rb) (z.coreBegin + re))).map
      (fun h => (d.off + (h &&& (d.m - 1)) * d.maskBytes + bi / 8, bi % 8))

def buildPos (I : IndexData) (descs : List PosDesc) (total : Nat) : List Nat :=
  setBits (List.replicate total 0)
    ((I.chunks.zip descs).flatMap (fun c => (List.range c.2.blocks).flatMap (blockBits I c.1 c.2)))

/-! ## The index -/

def materializeIndexFilters (I : IndexData) : IndexData :=
  let I := { I with chunks := chunksFrom I.opt 0 I.loaded }
  let I := rebuildPlannerStats I
  let I := { I with groups := buildGroups I }
  let descs := posDescs I 0 I.chunks
  { I with posDesc := descs.1, pos := buildPos I descs.1 descs.2 }

/-- A file joins the index, unless the corpus would pass its limit. -/
def pushFile (I : IndexData) (fi : FileInfo) (s : Bytes) : Except String IndexData :=
  if maxCorpusBytes - min I.corpBytes maxCorpusBytes < s.length then
    .error "index corpus exceeds 1 GiB limit"
  else
    .ok { I with
      corpBytes := I.corpBytes + s.length
      byteFreq := fun c => I.byteFreq c + s.count c
      qgramFreq := fun h => min (I.qgramFreq h + (qgrams s).countP (fun x => x % 65536 == h)) (2 ^ 32 - 1)
      infos := I.infos ++ [fi]
      loaded := I.loaded ++ [s] }

def fileInfo (d : Document) : FileInfo := { path := d.path, size := d.content.length, binary := looksBinary d.content }

def addDocument (I : IndexData) (d : Document) : Except String IndexData := pushFile I (fileInfo d) d.content

def corpusSize (ds : List Document) : Nat := (ds.map (fun d => d.content.length)).sum

/-- The order the documents are put in; those of one path stay as they were given, which the sort of the source does not promise. -/
def byPath (documents : List Document) : List Document := documents.insertionSort (fun a b => ¬ b.path < a.path)

def fromDocuments (documents : List Document) (opt : IndexOptions) : Except String IndexData := do
  validateIndexOptions opt
  let I ← (byPath documents).foldlM addDocument { opt := opt, posBlock := opt.positionalBlockBytes, ephemeral := true }
  return materializeIndexFilters I

end Pergrep
