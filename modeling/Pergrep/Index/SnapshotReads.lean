import Pergrep.Index.Snapshot
/-!
# SnapshotReads — the loader's readers on what the writer wrote

Each reader reads what its writer wrote as the value that was written (`Reads`), as long as the value fits its field; a
string, a vector and a list of records must also keep the loader's own limits.
-/
namespace Pergrep

open Reader

variable {rest : Bytes}

theorem reads_bytes (b : Bytes) : Reads rest (getBytes b.length) b True b := by
  refine ⟨fun _ => ?_, fun h => absurd trivial h⟩
  rw [getBytes, List.take_left', List.drop_left', if_neg (Nat.lt_irrefl _)]
  · rfl
  · rfl

theorem reads_scalar {k x : Nat} (hx : x < 256 ^ k) : Reads rest (getScalar k) (putLe k x) True x := by
  have h := @reads_bytes rest (putLe k x)
  rw [length_putLe] at h
  have := h.map (g := getLe)
  rwa [getLe_putLe hx] at this

theorem reads_bool (b : Bool) : Reads rest getBool (putBool b) True b := by
  have h := (@reads_scalar rest 1 (if b then 1 else 0) (by split <;> decide)).map (g := (· != 0))
  cases b with
  | true  => exact h
  | false => exact h

theorem reads_i64 (x : Int64) : Reads rest getI64 (putI64 x) True x := by
  have h := (@reads_scalar rest 8 _ x.toUInt64.toNat_lt).map (g := fun n => (UInt64.ofNat n).toInt64)
  rwa [UInt64.ofNat_toNat, Int64.toInt64_toUInt64] at h

/-- **A list of records**: the count keeps its limit, and the records are there. -/
theorem reads_count {β : Type} {e : Thrown} {limit width n : Nat} {f : Nat → Loader β} {b : Bytes} {Q : Prop} {d : β}
    (hn : n < 2 ^ 64) (hwidth : 0 < width) (hb : n * width ≤ b.length) (hf : Reads rest (f n) b Q d) :
    Reads rest (getCount e limit width >>= f) (putLe 8 n ++ b) (n ≤ limit ∧ Q) d := by
  have hmany : ¬ (b ++ rest).length / width < n := by
    rw [Nat.not_lt, Nat.le_div_iff_mul_le hwidth, List.length_append]
    omega
  have hbody : Reads rest (do reject (limit < n) e; let left ← remaining; reject (left / width < n) e; f n) b
      (¬ limit < n ∧ Q) d := Reads.check (fun _ => Reads.remaining (Reads.passed hmany hf))
  have h := Reads.andThen (f := fun n => do
    reject (limit < n) e; let left ← remaining; reject (left / width < n) e; f n) (reads_scalar (k := 8) hn) hbody
  rw [Nat.not_lt] at h
  have heq : (getCount e limit width >>= f) = (getScalar 8 >>= fun n => do
      reject (limit < n) e; let left ← remaining; reject (left / width < n) e; f n) := by
    simp only [getCount, bind_assoc, pure_bind]
  rwa [heq]

theorem reads_string {s : Bytes} (hs : s.length < 2 ^ 64) :
    Reads rest getString (putString s) (s.length ≤ maxString) s :=
  (reads_count hs Nat.one_pos (by omega) (reads_bytes s)).congr (and_iff_left trivial)

theorem width_le_flatMap {α : Type} {put : α → Bytes} {w : Nat} (hw : ∀ a, w ≤ (put a).length) : ∀ as : List α,
    as.length * w ≤ (as.flatMap put).length
  | [] => by simp
  | a :: as => by
    have := hw a
    have := width_le_flatMap hw as
    rw [List.flatMap_cons, List.length_append, List.length_cons, Nat.succ_mul]
    omega

theorem length_flatMap_putLe (k : Nat) (v : List Nat) : (v.flatMap (putLe k)).length = v.length * k := by
  simp [List.length_flatMap]

theorem reads_vector {k : Nat} {v : List Nat} (hk : 0 < k) (hlen : v.length < 2 ^ 64) (hv : ∀ x ∈ v, x < 256 ^ k) :
    Reads rest (getVector k) (putVector k v) (v.length ≤ maxVectorElems) v := by
  have hmany := Reads.many (P := fun _ => True) rest (fun x hx rest => @reads_scalar rest k x (hv x hx))
  exact (reads_count hlen hk (length_flatMap_putLe k v).ge hmany).congr (and_iff_left (by simp))

/-- Options whose numbers fit their fields. -/
structure OptionsFit (o : IndexOptions) : Prop where
  chunkBytes : o.chunkBytes < 2 ^ 64
  chunkOverlap : o.chunkOverlap < 2 ^ 64
  positionalBlockBytes : o.positionalBlockBytes < 2 ^ 64
  plannedQgrams : o.plannedQgrams < 2 ^ 64

theorem reads_options {o : IndexOptions} (ho : OptionsFit o) (persisted : Bool) :
    Reads rest (getOptions persisted) (putOptions o) True { o with persistCorpus := persisted } := by
  unfold getOptions putOptions
  refine (reads_scalar ho.chunkBytes).andThen ?_
  refine (reads_scalar ho.chunkOverlap).andThen ?_
  refine (reads_scalar ho.positionalBlockBytes).andThen ?_
  refine (reads_scalar o.positionalBudgetRatio.bits.toNat_lt).andThen ?_
  refine (reads_scalar ho.plannedQgrams).andThen ?_
  refine (reads_bool o.includeHidden).andThen ?_
  rw [UInt64.ofNat_toNat]
  exact (reads_bool o.followSymlinks).map

theorem reads_flags (persisted : Bool) : Reads rest getFlags
    (putLe 4 ((if persisted then featurePersistedCorpus else 0) ||| featureIntegrityChecksum)) True persisted := by
  unfold getFlags
  cases persisted with
  | true  =>
    exact ((reads_scalar (by decide)).finish (fun _ =>
      Reads.passed (by decide) (Reads.passed (by decide) (Reads.pure true)))).congr (and_iff_left trivial)
  | false =>
    exact ((reads_scalar (by decide)).finish (fun _ =>
      Reads.passed (by decide) (Reads.passed (by decide) (Reads.pure false)))).congr (and_iff_left trivial)

theorem reads_file {f : FileInfo} (hp : f.path.length < 2 ^ 64) (hs : f.size < 2 ^ 64) :
    Reads rest getFile (putFile f) (f.path.length ≤ maxString ∧ unsafeFileInfoPath f.path = false) f := by
  have hend : Reads rest (do
      reject (unsafeFileInfoPath f.path = true) { text := "pergrep index: invalid FileInfo path" }
      return { path := f.path, size := f.size, mtimeNs := f.mtimeNs, binary := f.binary } : Loader FileInfo) []
      (unsafeFileInfoPath f.path = false) f :=
    (Reads.check (fun _ => Reads.pure f)).congr (by simp)
  unfold getFile putFile
  refine (reads_string hp).bind (fun _ => ?_)
  refine (reads_scalar hs).andThen ?_
  refine (reads_i64 f.mtimeNs).andThen ?_
  exact ((reads_bool f.binary).finish (fun _ => hend)).congr (by rw [true_and])

/-- A chunk whose numbers fit their fields. -/
structure ChunkFits (z : Chunk) : Prop where
  fileId : z.fileId < 2 ^ 32
  coreBegin : z.coreBegin < 2 ^ 64
  coreEnd : z.coreEnd < 2 ^ 64
  extEnd : z.extEnd < 2 ^ 64

theorem reads_chunk {z : Chunk} (hz : ChunkFits z) : Reads rest getChunk (putChunk z) True z := by
  unfold getChunk putChunk
  refine (reads_scalar hz.fileId).andThen ?_
  refine (reads_scalar hz.coreBegin).andThen ?_
  refine (reads_scalar hz.coreEnd).andThen ?_
  exact (reads_scalar hz.extEnd).map

/-- A descriptor whose numbers fit their fields. -/
structure DescFits (d : PosDesc) : Prop where
  off : d.off < 2 ^ 64
  m : d.m < 2 ^ 16
  maskBytes : d.maskBytes < 2 ^ 32
  blocks : d.blocks < 2 ^ 32

theorem reads_posDesc {d : PosDesc} (hd : DescFits d) : Reads rest getPosDesc (putPosDesc d) True d := by
  unfold getPosDesc putPosDesc
  refine (reads_scalar hd.off).andThen ?_
  refine (reads_scalar hd.m).andThen ?_
  refine (reads_scalar hd.maskBytes).andThen ?_
  exact (reads_scalar hd.blocks).map

/-- A manifest whose numbers fit their fields. -/
structure ManifestFits (m : StoredManifest) : Prop where
  schemaVersion : m.schemaVersion = manifestSchema
  sourceIdentity : m.sourceIdentity < 2 ^ 64
  sourceRoot : m.sourceRoot.length < 2 ^ 64
  selectorIdentity : m.selectorIdentity < 2 ^ 64
  indexOptions : OptionsFit m.indexOptions
  transformIdentity : m.transformIdentity < 2 ^ 64
  corpusFiles : m.corpusFiles < 2 ^ 64
  corpusBytes : m.corpusBytes < 2 ^ 64
  generation : m.generation < 2 ^ 64

theorem reads_manifest {m : StoredManifest} (hm : ManifestFits m) (persisted : Bool) :
    Reads rest (getManifest true false) (putManifest m persisted)
      (m.sourceRoot.length ≤ maxString ∧ validIndexOptions m.indexOptions = true) (m, persisted) := by
  have hend : Reads rest (do
      let transform ← getScalar 8
      let files ← getScalar 8
      let bytes ← getScalar 8
      let generation ← getScalar 8
      return ({ m with transformIdentity := transform, corpusFiles := files, corpusBytes := bytes
                       generation := generation }, persisted) : Loader (StoredManifest × Bool))
      (putLe 8 m.transformIdentity ++ (putLe 8 m.corpusFiles ++ (putLe 8 m.corpusBytes ++ putLe 8 m.generation)))
      True (m, persisted) := by
    refine (reads_scalar hm.transformIdentity).andThen ?_
    refine (reads_scalar hm.corpusFiles).andThen ?_
    refine (reads_scalar hm.corpusBytes).andThen ?_
    exact (reads_scalar hm.generation).map
  unfold getManifest putManifest
  simp only [if_true]
  refine (reads_scalar (hm.schemaVersion ▸ by decide)).andThen (Reads.passed (not_not.2 hm.schemaVersion) ?_)
  refine (reads_flags persisted).andThen ?_
  refine (reads_scalar hm.sourceIdentity).andThen ?_
  refine (reads_string hm.sourceRoot).bind (fun _ => ?_)
  refine (reads_scalar hm.selectorIdentity).andThen ?_
  refine (reads_options hm.indexOptions false).andThen ?_
  refine (reads_bool m.indexOptions.persistCorpus).andThen ?_
  exact (Reads.check (fun _ => hend)).congr (by simp)

end Pergrep
