import Pergrep.Index.Build
import Pergrep.Index.Codec
import Pergrep.Index.Tree
import Pergrep.Lib.Reader
import Pergrep.Lib.Substr
/-!
# Snapshot — `Index::save` and `Index::load_impl`

A snapshot is the magic, the version, a manifest, the index's tables section by section and the checksum of all that; an
index that persists its corpus carries the files' contents too.  The loader takes the sections off the stream one by one
and checks each against what came before; a source-backed snapshot is only loaded over a tree that has the identity the
manifest states.
-/
namespace Pergrep

open Reader (Rd reject remaining many loop)

/-- A `runtime_error`: its text, and the path it ends with. -/
structure Thrown where
  text : String
  path : Bytes := []
  deriving DecidableEq, Repr

/-- The trees by the paths of their roots. -/
abbrev World := Bytes → Option Tree

structure CacheManifest where
  schemaVersion : Option Nat := none
  sourceIdentity : Option Nat := none
  sourceRoot : Option Bytes := none
  selectorIdentity : Option Nat := none
  indexOptions : Option IndexOptions := none
  transformIdentity : Option Nat := none
  corpusFiles : Option Nat := none
  corpusBytes : Option Nat := none
  generation : Option Nat := none

/-- A manifest as a snapshot has it: with all its fields. -/
structure StoredManifest where
  schemaVersion : Nat
  sourceIdentity : Nat
  sourceRoot : Bytes
  selectorIdentity : Nat
  indexOptions : IndexOptions
  transformIdentity : Nat
  corpusFiles : Nat
  corpusBytes : Nat
  generation : Nat
  deriving DecidableEq, Repr

def manifestMagic : Nat := 0x4d414e4946455354
def manifestSchema : Nat := 2
def portableIndexVersion : Nat := 7
def featurePersistedCorpus : Nat := 1
def featureIntegrityChecksum : Nat := 2
def maxSnapshotBytes : Nat := maxCorpusBytes + 256 * 1024 * 1024
def maxManifestFiles : Nat := 1000000
def maxManifestMetadataBytes : Nat := 256 * 1024 * 1024
def maxString : Nat := 16 * 1024 * 1024
def maxFiles : Nat := 10000000
def maxChunks : Nat := 100000000
def maxPosDesc : Nat := 100000000
def maxVectorElems : Nat := 200000000

/-- `PERGREP\0` -/
def magic : Bytes := [80, 69, 82, 71, 82, 69, 80, 0]

def sameOptions (a b : IndexOptions) : Bool :=
  a.chunkBytes == b.chunkBytes && a.chunkOverlap == b.chunkOverlap &&
    a.positionalBlockBytes == b.positionalBlockBytes && a.positionalBudgetRatio.same b.positionalBudgetRatio &&
    a.plannedQgrams == b.plannedQgrams && a.includeHidden == b.includeHidden &&
    a.followSymlinks == b.followSymlinks && a.persistCorpus == b.persistCorpus

def validIndexOptions (o : IndexOptions) : Bool :=
  decide (64 ≤ o.chunkBytes) && decide (o.chunkBytes ≤ 2 ^ 30) &&
    decide (16 ≤ o.positionalBlockBytes) && decide (o.positionalBlockBytes ≤ 2 ^ 20) &&
    decide (o.chunkOverlap ≤ o.chunkBytes / 2) && decide (o.plannedQgrams ≤ 64) &&
    o.positionalBudgetRatio.isFinite && o.positionalBudgetRatio.inRange

/-! ## Paths -/

def components : Bytes → List Bytes
  | [] => [[]]
  | b :: bs =>
    if b = slash ∨ b = 92 then [] :: components bs
    else
      match components bs with
      | [] => [[b]]
      | n :: ns => (b :: n) :: ns

/-- `std::isalpha` -/
def isAlpha (b : UInt8) : Bool := (65 ≤ b && b ≤ 90) || (97 ≤ b && b ≤ 122)

/-- `unsafe_file_info_path`: absolute, with a drive, or with a component `..`. -/
def unsafeFileInfoPath (path : Bytes) : Bool :=
  match path with
  | [] => false
  | b :: bs => b == slash || b == 92 || (isAlpha b && bs.head? == some 58) || (components path).contains [46, 46]

/-- What the system finds for a relative path: it ends at a zero byte, empty components and `.` lead nowhere, and a file is
not found with a slash after its name. -/
def resolve (t : Tree) (path : Bytes) : Option FileState :=
  let ns := (path.takeWhile (· != 0)).splitOn slash
  if ns.getLast? = some [] ∨ ns.getLast? = some [46] then none
  else statFrom t 0 (ns.filter (fun n => n != [] && n != [46]))

/-- Where a snapshot is kept: the directory, empty when the path has none, and the name in it. -/
structure Place where
  parent : Bytes := []
  name : Bytes
  deriving DecidableEq, Repr

def Place.path (p : Place) : Bytes := if p.parent = [] then p.name else p.parent ++ slash :: p.name

/-- The files of a directory by their names. -/
abbrev Dir := Bytes → Option Bytes

/-- `.tmp.` -/
def tempPattern : Bytes := [46, 116, 109, 112, 46]

/-- Whether the loader takes a file for an orphan; without a directory there is nothing to clean. -/
def Place.orphan (p : Place) (name : Bytes) : Bool := p.parent != [] && (Substr.findFrom name tempPattern 0).isSome

def cleanupOrphans (p : Place) (dir : Dir) : Dir := fun name => if p.orphan name then none else dir name

/-! ## The identity of a source -/

abbrev Entry := Bytes × Nat × Int64

def entryLt (a b : Entry) : Bool :=
  decide (a.1 < b.1) || (decide (a.1 = b.1) && (decide (a.2.1 < b.2.1) || (decide (a.2.1 = b.2.1) && decide (a.2.2 < b.2.2))))

/-- The walk's files as `source_identity` collects them: `count` of them so far, with `metadata` bytes of paths and `corpus`
bytes of content. -/
def collectEntries : List Found → Nat → Nat → Nat → Option (List Entry)
  | [], _, _, _ => some []
  | f :: fs, count, metadata, corpus =>
    let rel := f.path
    let size := f.state.content.length
    if maxManifestFiles ≤ count ∨ maxManifestMetadataBytes < metadata ∨ maxManifestMetadataBytes - metadata < rel.length ∨
        maxCorpusBytes - min corpus maxCorpusBytes < size then none
    else (collectEntries fs (count + 1) (metadata + rel.length) (corpus + size)).map
      (fun es => (rel, size, f.state.mtimeNs) :: es)

/-- The sorted files of a source, unless it is no directory or too big. -/
def sourceEntries (world : World) (root : Bytes) (opt : IndexOptions) : Option (List Entry) :=
  (world root).bind (fun t => (collectEntries (walk t opt) 0 0 0).map (fun es => es.insertionSort (fun a b => ¬ entryLt b a)))

def sourceIdentity (world : World) (root : Bytes) (opt : IndexOptions) : UInt64 :=
  match sourceEntries world root opt with
  | none => 0
  | some es =>
    es.foldl (fun h e => fnvMixWord (fnvMixWord (fnvMix h e.1) e.2.1) e.2.2.toUInt64.toNat) (fnvMix 1469598103934665603 root)

/-! ## Writing -/

/-- `Writer::string` -/
def putString (s : Bytes) : Bytes := putLe 8 s.length ++ s

def putVector (k : Nat) (v : List Nat) : Bytes := putLe 8 v.length ++ v.flatMap (putLe k)

def putBool (b : Bool) : Bytes := putLe 1 (if b then 1 else 0)

def putI64 (x : Int64) : Bytes := putLe 8 x.toUInt64.toNat

def putOptions (o : IndexOptions) : Bytes :=
  putLe 8 o.chunkBytes ++ (putLe 8 o.chunkOverlap ++ (putLe 8 o.positionalBlockBytes ++
    (putLe 8 o.positionalBudgetRatio.bits.toNat ++ (putLe 8 o.plannedQgrams ++ (putBool o.includeHidden ++
      putBool o.followSymlinks)))))

def putManifest (m : StoredManifest) (persisted : Bool) : Bytes :=
  putLe 4 m.schemaVersion ++ (putLe 4 ((if persisted then featurePersistedCorpus else 0) ||| featureIntegrityChecksum) ++
    (putLe 8 m.sourceIdentity ++ (putString m.sourceRoot ++ (putLe 8 m.selectorIdentity ++
      (putOptions m.indexOptions ++ (putBool m.indexOptions.persistCorpus ++ (putLe 8 m.transformIdentity ++
        (putLe 8 m.corpusFiles ++ (putLe 8 m.corpusBytes ++ putLe 8 m.generation)))))))))

def putFile (f : FileInfo) : Bytes := putString f.path ++ (putLe 8 f.size ++ (putI64 f.mtimeNs ++ putBool f.binary))

def putChunk (c : Chunk) : Bytes :=
  putLe 4 c.fileId ++ (putLe 8 c.coreBegin ++ (putLe 8 c.coreEnd ++ putLe 8 c.extEnd))

def putGroup (g : Group) : Bytes :=
  putLe 1 g.lg ++ (putLe 4 g.m ++ (putLe 4 g.words ++ (putVector 4 g.gids ++ putVector 8 g.bits)))

def putPosDesc (d : PosDesc) : Bytes := putLe 8 d.off ++ (putLe 2 d.m ++ (putLe 4 d.maskBytes ++ putLe 4 d.blocks))

def putTables (I : IndexData) : Bytes :=
  (List.range 256).flatMap (fun c => putLe 8 (I.byteFreq (UInt8.ofNat c))) ++
    (List.range 65536).flatMap (fun h => putLe 4 (I.qgramFreq h))

def putHeader (I : IndexData) : Bytes :=
  putString I.root ++ (putOptions I.opt ++ (putLe 8 I.corpBytes ++ putI64 I.rootMtimeNs))

def putRecords {α : Type} (put : α → Bytes) (as : List α) : Bytes := putLe 8 as.length ++ as.flatMap put

def putSections (I : IndexData) : Bytes :=
  putHeader I ++ (putTables I ++ (putLe 4 I.posBlock ++ (putRecords putFile I.infos ++ (putRecords putChunk I.chunks ++
    (I.groups.flatMap putGroup ++ (putRecords putPosDesc I.posDesc ++ (putVector 1 I.pos ++
      (if I.opt.persistCorpus then I.loaded.flatMap putString else []))))))))

def snapshotBody (m : StoredManifest) (I : IndexData) : Bytes :=
  magic ++ (putLe 4 portableIndexVersion ++ (putLe 8 manifestMagic ++ (putManifest m I.opt.persistCorpus ++ putSections I)))

def checkPayloadTotal : List Bytes → Nat → Except Thrown Unit
  | [], _ => .ok ()
  | s :: ss, total =>
    if maxCorpusBytes - min total maxCorpusBytes < s.length then .error { text := "index corpus exceeds 1 GiB limit" }
    else checkPayloadTotal ss (total + s.length)

/-- The payload of an index that persists its corpus, checked before it is written. -/
def checkPayload (I : IndexData) : Except Thrown Unit :=
  if I.loaded.length ≠ I.infos.length then .error { text := "invalid v6 corpus payload" }
  else checkPayloadTotal I.loaded 0

/-- The manifest that is stored: what was asked for, and the index's own values for the rest. -/
def manifestOf (world : World) (I : IndexData) (requested : CacheManifest) : StoredManifest where
  schemaVersion := requested.schemaVersion.getD manifestSchema
  sourceIdentity := requested.sourceIdentity.getD (sourceIdentity world I.root I.opt).toNat
  sourceRoot := requested.sourceRoot.getD I.root
  selectorIdentity := requested.selectorIdentity.getD 0
  indexOptions := requested.indexOptions.getD I.opt
  transformIdentity := requested.transformIdentity.getD 0
  corpusFiles := requested.corpusFiles.getD I.infos.length
  corpusBytes := requested.corpusBytes.getD I.corpBytes
  generation := requested.generation.getD I.rootMtimeNs.toUInt64.toNat

/-- `Index::save` by the process `pid`: its temporary is gone, and the target is the snapshot. -/
def save (world : World) (pid : Bytes) (dir : Dir) (file : Place) (I : IndexData) (requested : CacheManifest := {}) :
    Except Thrown Dir := do
  if I.ephemeral then throw { text := "cannot persist an in-memory pergrep index" }
  if maxCorpusBytes < I.corpBytes then throw { text := "index corpus exceeds 1 GiB limit" }
  if I.opt.persistCorpus then checkPayload I
  if requested.schemaVersion.any (· != manifestSchema) then throw { text := "unsupported cache manifest schema" }
  if requested.indexOptions.any (fun o => !sameOptions o I.opt) then
    throw { text := "cache manifest index options do not match index" }
  let body := snapshotBody (manifestOf world I requested) I
  return Function.update (Function.update dir (file.name ++ tempPattern ++ pid) none) file.name (some (body ++ trailer body))

/-! ## Reading -/

abbrev Loader (α : Type) := Rd UInt8 Thrown α

def truncated : Thrown := { text := "pergrep index: truncated" }

def getBytes (n : Nat) : Loader Bytes := fun s =>
  if (s.take n).length < n then .error truncated else .ok (s.take n, s.drop n)

def getScalar (k : Nat) : Loader Nat := do
  let b ← getBytes k
  return getLe b

def getBool : Loader Bool := do
  let x ← getScalar 1
  return x != 0

def getI64 : Loader Int64 := do
  let x ← getScalar 8
  return (UInt64.ofNat x).toInt64

def getCount (e : Thrown) (limit width : Nat) : Loader Nat := do
  let n ← getScalar 8
  reject (limit < n) e
  let left ← remaining
  reject (left / width < n) e
  return n

/-- `Reader::string` -/
def getString : Loader Bytes := do
  let n ← getCount truncated maxString 1
  getBytes n

def getVector (k : Nat) : Loader (List Nat) := do
  let n ← getCount truncated maxVectorElems k
  many (getScalar k) n

def getOptions (persisted : Bool) : Loader IndexOptions := do
  let chunkBytes ← getScalar 8
  let chunkOverlap ← getScalar 8
  let positionalBlockBytes ← getScalar 8
  let ratio ← getScalar 8
  let plannedQgrams ← getScalar 8
  let includeHidden ← getBool
  let followSymlinks ← getBool
  return { chunkBytes := chunkBytes, chunkOverlap := chunkOverlap, positionalBlockBytes := positionalBlockBytes
           positionalBudgetRatio := { bits := UInt64.ofNat ratio }, plannedQgrams := plannedQgrams
           includeHidden := includeHidden, followSymlinks := followSymlinks, persistCorpus := persisted }

def invalidOptions : Thrown := { text := "pergrep index: invalid index options" }

/-- The feature flags of a portable snapshot: whether it persists its corpus. -/
def getFlags : Loader Bool := do
  let flags ← getScalar 4
  reject (4 ≤ flags) { text := "incompatible pergrep index schema: unknown feature section" }
  reject (flags &&& featureIntegrityChecksum = 0) { text := "incompatible pergrep index schema: missing integrity checksum" }
  return flags &&& featurePersistedCorpus != 0

def getManifest (portable : Bool) (persisted : Bool) : Loader (StoredManifest × Bool) := do
  let schema ← getScalar 4
  reject (schema ≠ if portable then manifestSchema else 1)
    { text := "incompatible pergrep index schema: unsupported manifest schema" }
  let persisted ← if portable then getFlags else pure persisted
  let identity ← getScalar 8
  let root ← getString
  let selector ← getScalar 8
  let options ← getOptions false
  let persist ← getBool
  let options := { options with persistCorpus := persist }
  reject (validIndexOptions options = false) invalidOptions
  let transform ← getScalar 8
  let files ← getScalar 8
  let bytes ← getScalar 8
  let generation ← getScalar 8
  return ({ schemaVersion := schema, sourceIdentity := identity, sourceRoot := root, selectorIdentity := selector
            indexOptions := options, transformIdentity := transform, corpusFiles := files, corpusBytes := bytes
            generation := generation }, persisted)

def stale (what : String) : Thrown := { text := "stale cache manifest: " ++ what }

def mismatch (bad : Bool) (what : String) : Except Thrown Unit := if bad then .error (stale what) else .ok ()

def checkExpected (expected : CacheManifest) (m : StoredManifest) : Except Thrown Unit := do
  mismatch (expected.schemaVersion.any (· != m.schemaVersion)) "schema"
  mismatch (expected.sourceIdentity.any (· != m.sourceIdentity)) "source identity"
  mismatch (expected.sourceRoot.any (· != m.sourceRoot)) "source root"
  mismatch (expected.selectorIdentity.any (· != m.selectorIdentity)) "selector"
  mismatch (expected.indexOptions.any (fun o => !sameOptions o m.indexOptions)) "index options"
  mismatch (expected.transformIdentity.any (· != m.transformIdentity)) "transform"
  mismatch (expected.corpusFiles.any (· != m.corpusFiles)) "corpus files"
  mismatch (expected.corpusBytes.any (· != m.corpusBytes)) "corpus bytes"
  mismatch (expected.generation.any (· != m.generation)) "generation"

def checkSource (world : World) (m : StoredManifest) : Except Thrown Unit :=
  let actual := (sourceIdentity world m.sourceRoot m.indexOptions).toNat
  mismatch (actual == 0 || actual != m.sourceIdentity) "source changed or disappeared"

def getFile : Loader FileInfo := do
  let path ← getString
  let size ← getScalar 8
  let mtimeNs ← getI64
  let binary ← getBool
  reject (unsafeFileInfoPath path = true) { text := "pergrep index: invalid FileInfo path" }
  return { path := path, size := size, mtimeNs := mtimeNs, binary := binary }

def getChunk : Loader Chunk := do
  let fileId ← getScalar 4
  let coreBegin ← getScalar 8
  let coreEnd ← getScalar 8
  let extEnd ← getScalar 8
  return { fileId := fileId, coreBegin := coreBegin, coreEnd := coreEnd, extEnd := extEnd }

/-- Where the chunk loop is: the chunks so far, the next core of each file, which files it saw, and the last. -/
structure ChunkScan where
  chunks : List Chunk := []
  nextCore : Nat → Nat := fun _ => 0
  fileSeen : Nat → Bool := fun _ => false
  previousFile : Nat := 0

/-- A chunk that does not fit its file, the options or the chunk before. -/
def badChunk (opt : IndexOptions) (infos : List FileInfo) (st : ChunkScan) (c : Chunk) : Bool :=
  let size := (infos.map FileInfo.size).getD c.fileId 0
  decide (infos.length ≤ c.fileId) || decide (c.coreEnd < c.coreBegin) || decide (c.extEnd < c.coreEnd) ||
    decide (size < c.extEnd) || decide (opt.chunkBytes < c.coreEnd - c.coreBegin) ||
    (decide (2 ^ 64 - 1 - opt.chunkOverlap < c.coreEnd) || decide (min size (c.coreEnd + opt.chunkOverlap) < c.extEnd)) ||
    (!st.chunks.isEmpty && decide (c.fileId < st.previousFile)) || c.coreBegin != st.nextCore c.fileId ||
    (c.coreBegin == c.coreEnd && size != 0)

def chunkStep (opt : IndexOptions) (infos : List FileInfo) (st : ChunkScan) : Loader ChunkScan := do
  let c ← getChunk
  reject (badChunk opt infos st c = true) { text := "pergrep index: invalid chunk geometry" }
  reject (st.chunks ≠ [] ∧ st.previousFile < c.fileId ∧
      st.nextCore st.previousFile ≠ (infos.map FileInfo.size).getD st.previousFile 0)
    { text := "pergrep index: invalid chunk relationships" }
  return { chunks := st.chunks ++ [c], nextCore := Function.update st.nextCore c.fileId c.coreEnd
           fileSeen := Function.update st.fileSeen c.fileId true, previousFile := c.fileId }

def getChunks (opt : IndexOptions) (infos : List FileInfo) : Loader (List Chunk) := do
  let nc ← getCount truncated maxChunks 28
  let st ← loop (chunkStep opt infos) nc {}
  reject (∃ fid, fid < infos.length ∧
      (st.fileSeen fid = false ∨ st.nextCore fid ≠ (infos.map FileInfo.size).getD fid 0))
    { text := "pergrep index: invalid chunk relationships" }
  return st.chunks

/-- The chunks of a group, each in no other: `grouped` are those of the groups before. -/
def checkGids (chunks : List Chunk) (lg : Nat) : List Nat → (Nat → Bool) → Except Thrown (Nat → Bool)
  | [], grouped => .ok grouped
  | gid :: gids, grouped =>
    if chunks.length ≤ gid ∨ grouped gid = true ∨ (chunks.map chunkLg).getD gid 0 ≠ lg then
      .error { text := "pergrep index: invalid qgram group reference" }
    else checkGids chunks lg gids (Function.update grouped gid true)

/-- The groups so far, and the chunks in them. -/
structure GroupScan where
  groups : List Group := []
  grouped : Nat → Bool := fun _ => false

def groupStep (chunks : List Chunk) (st : GroupScan) : Loader GroupScan := do
  let lg ← getScalar 1
  let m ← getScalar 4
  let words ← getScalar 4
  let gids ← getVector 4
  let bits ← getVector 8
  reject (lg < 9 ∨ 16 < lg ∨ m ≠ 2 ^ lg ∨ words ≠ (gids.length + 63) / 64 ∨ bits.length ≠ 2 ^ lg * words)
    { text := "pergrep index: invalid qgram group" }
  let grouped ← Reader.lift (checkGids chunks lg gids st.grouped)
  return { groups := st.groups ++ [{ lg := lg, m := m, words := words, gids := gids, bits := bits }], grouped := grouped }

def getGroups (chunks : List Chunk) : Loader (List Group) := do
  let st ← loop (groupStep chunks) 8 {}
  reject (∃ ci, ci < chunks.length ∧ st.grouped ci = false) { text := "pergrep index: incomplete qgram groups" }
  return st.groups

def getPosDesc : Loader PosDesc := do
  let off ← getScalar 8
  let m ← getScalar 2
  let maskBytes ← getScalar 4
  let blocks ← getScalar 4
  return { off := off, m := m, maskBytes := maskBytes, blocks := blocks }

def invalidDescriptors : Thrown := { text := "pergrep index: invalid positional descriptors" }

def getPosDescs (nc : Nat) : Loader (List PosDesc) := do
  let npd ← getCount invalidDescriptors maxPosDesc 18
  reject (npd ≠ nc) invalidDescriptors
  many getPosDesc npd

/-- A descriptor against its chunk, whose rows must start at `posEnd` and lie in the `size` bytes of the rows. -/
def badPosDesc (posBlock size posEnd : Nat) (c : Chunk) (d : PosDesc) : Bool :=
  let expectedBlocks := max 1 ((c.coreEnd - c.coreBegin + posBlock - 1) / posBlock)
  decide (d.m < 64) || decide (1024 < d.m) || d.m &&& (d.m - 1) != 0 || d.blocks != expectedBlocks ||
    d.maskBytes != (expectedBlocks + 7) / 8 || d.off != posEnd ||
    decide ((size - min posEnd size) / d.m < d.maskBytes) || decide (2 ^ 64 - 1 - d.m * d.maskBytes < posEnd)

/-- The descriptors, one after another; where the last one's rows end. -/
def checkPosDescs (posBlock size : Nat) : List (PosDesc × Chunk) → Nat → Except Thrown Nat
  | [], posEnd => .ok posEnd
  | (d, c) :: rest, posEnd =>
    if badPosDesc posBlock size posEnd c d then .error invalidDescriptors
    else checkPosDescs posBlock size rest (posEnd + d.m * d.maskBytes)

/-- `CorpusProvider::mapped`: what the file at a path is now, if its size is the one expected and its time is, unless that
is 0. -/
def mapped (path : Bytes) (s : Option FileState) (size : Nat) (mtimeNs : Int64) : Except Thrown Bytes :=
  match s with
  | none => .error { text := "indexed source changed or disappeared: ", path := path }
  | some s =>
    if s.content.length ≠ size then .error { text := "indexed source changed or disappeared: ", path := path }
    else if mtimeNs ≠ 0 ∧ s.mtimeNs ≠ mtimeNs then .error { text := "indexed source changed: ", path := path }
    else if size = 0 then .ok []
    else if s.readable then .ok s.content
    else .error { text := "indexed source disappeared: ", path := path }

def mapSources (world : World) (root : Bytes) (infos : List FileInfo) : Except Thrown (List Bytes) :=
  infos.mapM (fun f => mapped (root ++ slash :: f.path) ((world root).bind (fun t => resolve t f.path)) f.size f.mtimeNs)

def checkSourceTotal : List FileInfo → Nat → Except Thrown Unit
  | [], _ => .ok ()
  | f :: fs, total =>
    if maxCorpusBytes - total < f.size then .error { text := "indexed source corpus exceeds 1 GiB limit" }
    else checkSourceTotal fs (total + f.size)

def invalidTotals : Thrown := { text := "pergrep index: invalid corpus totals" }

def sumSizes : List FileInfo → Nat → Except Thrown Nat
  | [], total => .ok total
  | f :: fs, total => if 2 ^ 64 - 1 - total < f.size then .error invalidTotals else sumSizes fs (total + f.size)

def getPayload : List FileInfo → Nat → Loader (List Bytes × Nat)
  | [], total => pure ([], total)
  | f :: fs, total => do
    let n ← getScalar 8
    reject (maxCorpusBytes - total < n) { text := "v6 corpus payload exceeds 1 GiB limit" }
    reject (n ≠ f.size ∨ 2 ^ 64 - 1 - total < n) { text := "pergrep index: invalid corpus payload" }
    let left ← remaining
    reject (left < n) { text := "pergrep index: invalid corpus payload" }
    let data ← getBytes n
    let rest ← getPayload fs (total + n)
    return (data :: rest.1, rest.2)

def getHeader (persisted : Bool) (manifest : Option StoredManifest) : Loader IndexData := do
  let root ← getString
  let opt ← getOptions persisted
  let corpBytes ← getScalar 8
  let rootMtimeNs ← getI64
  reject (validIndexOptions opt = false) invalidOptions
  reject (manifest.any (fun m => !sameOptions opt m.indexOptions || opt.persistCorpus != persisted) = true)
    (stale "index options")
  reject (manifest.any (fun m => root != m.sourceRoot) = true) (stale "source root")
  reject (manifest.any (fun m => corpBytes != m.corpusBytes) = true) (stale "corpus bytes")
  return { opt := opt, root := root, corpBytes := corpBytes, rootMtimeNs := rootMtimeNs }

def getTables : Loader ((UInt8 → Nat) × (Nat → Nat)) := do
  let byteFreq ← many (getScalar 8) 256
  let qgramFreq ← many (getScalar 4) 65536
  return (fun c => byteFreq.getD c.toNat 0, fun h => qgramFreq.getD h 0)

def getFiles (corpBytes : Nat) (manifest : Option StoredManifest) : Loader (List FileInfo) := do
  let nf ← getCount truncated maxFiles 25
  reject (manifest.any (fun m => nf != m.corpusFiles) = true) (stale "corpus files")
  let infos ← many getFile nf
  let total ← Reader.lift (sumSizes infos 0)
  reject (total ≠ corpBytes) invalidTotals
  reject (manifest.any (fun m => total != m.corpusBytes) = true) (stale "corpus bytes")
  reject (maxCorpusBytes < corpBytes) { text := "index corpus exceeds 1 GiB limit" }
  return infos

/-- The contents of the files, from the snapshot or from the source. -/
def getContents (world : World) (persisted : Bool) (manifest : Option StoredManifest) (I : IndexData) :
    Loader (List Bytes) :=
  if persisted then do
    let payload ← getPayload I.infos 0
    reject (payload.2 ≠ I.corpBytes ∨ manifest.any (fun m => payload.2 != m.corpusBytes) = true)
      { text := "pergrep index: invalid corpus payload totals" }
    return payload.1
  else do
    let _ ← Reader.lift (checkSourceTotal I.infos 0)
    Reader.lift (mapSources world I.root I.infos)

/-- The index's sections, from the header on; `trail` bytes must be left. -/
def getIndex (world : World) (persisted : Bool) (manifest : Option StoredManifest) (trail : Nat) : Loader IndexData := do
  let I ← getHeader persisted manifest
  let tables ← getTables
  let posBlock ← getScalar 4
  reject (posBlock ≠ I.opt.positionalBlockBytes) { text := "pergrep index: positional block mismatch" }
  let infos ← getFiles I.corpBytes manifest
  let chunks ← getChunks I.opt infos
  let groups ← getGroups chunks
  let posDesc ← getPosDescs chunks.length
  let pos ← getVector 1
  let posEnd ← Reader.lift (checkPosDescs posBlock pos.length (posDesc.zip chunks) 0)
  reject (posEnd ≠ pos.length) { text := "pergrep index: invalid positional data" }
  let I := { I with byteFreq := tables.1, qgramFreq := tables.2, posBlock := posBlock, infos := infos, chunks := chunks
                    groups := groups, posDesc := posDesc, pos := pos }
  let loaded ← getContents world persisted manifest I
  let left ← remaining
  reject (left ≠ trail) { text := "pergrep index: unexpected trailing data" }
  return rebuildPlannerStats { I with loaded := loaded }

/-- What follows the version of a portable snapshot, or of one of the legacy formats; `persisted` is what the version says of
the corpus. -/
def getSnapshot (world : World) (expected : CacheManifest) (manifestAware portable persisted : Bool) : Loader IndexData :=
  fun s => (do
    let marker ← getScalar 8
    reject (portable = true ∧ marker ≠ manifestMagic)
      { text := "incompatible pergrep index schema: missing manifest" }
    if marker = manifestMagic then
      let m ← getManifest portable persisted
      let _ ← Reader.lift (checkExpected expected m.1)
      let _ ← Reader.lift (if m.2 then .ok () else checkSource world m.1)
      getIndex world m.2 (some m.1) (if portable then 8 else 0)
    else
      reject (manifestAware = true) { text := "cache manifest missing" }
      -- the marker was no marker: it is read again
      set s
      getIndex world persisted none 0 : Loader IndexData) s

def loadSnapshot (world : World) (expected : CacheManifest) (manifestAware : Bool) (bytes : Bytes) : Except Thrown IndexData :=
  if bytes.length < 12 then .error truncated
  else if maxSnapshotBytes < bytes.length then .error { text := "pergrep index: exceeds size limit" }
  else if bytes.take 8 ≠ magic then .error truncated
  else
    let ver := getLe ((bytes.drop 8).take 4)
    if ver = portableIndexVersion then
      if bytes.length < 20 then .error truncated
      else if getLe (bytes.drop (bytes.length - 8)) ≠ (bodyChecksum (bytes.take (bytes.length - 8))).toNat then
        .error { text := "pergrep index: checksum mismatch" }
      else (getSnapshot world expected manifestAware true false (bytes.drop 12)).map Prod.fst
    else if ver = 5 ∨ ver = 6 then
      (getSnapshot world expected manifestAware false (ver = 6) (bytes.drop 12)).map Prod.fst
    else .error { text := "unsupported pergrep index version" }

/-- `load_impl`: the directory is cleaned before the target is read. -/
def loadImpl (world : World) (dir : Dir) (file : Place) (expected : CacheManifest) (manifestAware : Bool) :
    Except Thrown IndexData :=
  match cleanupOrphans file dir file.name with
  | none => .error { text := "cannot stat index: ", path := file.path }
  | some bytes => loadSnapshot world expected manifestAware bytes

def load (world : World) (dir : Dir) (file : Place) : Except Thrown IndexData := loadImpl world dir file {} false

end Pergrep
