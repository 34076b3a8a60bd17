import Pergrep.Index.SnapshotBuilt
/-!
# RoundTrip — a saved index, loaded again

What `load` makes of the bytes `save` wrote: it returns when the snapshot keeps the loader's own limits and the source is
still the one that was fingerprinted (`Loadable`), and then it returns the index that was saved (`load_saved`).  `build` and
`save` check none of these limits, so the round trip is not unconditional (`roundTrip_iff`).
-/
namespace Pergrep

open Reader

variable {rest : Bytes}

/-! ## Sections -/

def IndexData.header (I : IndexData) : IndexData :=
  { opt := I.opt, root := I.root, corpBytes := I.corpBytes, rootMtimeNs := I.rootMtimeNs }

/-- A manifest that says of its index what the index says of itself. -/
structure Agrees (m : StoredManifest) (I : IndexData) : Prop where
  options : sameOptions I.opt m.indexOptions = true
  root : m.sourceRoot = I.root
  files : m.corpusFiles = I.infos.length
  bytes : m.corpusBytes = I.corpBytes

/-- Lengths that fit their fields. -/
structure Small (I : IndexData) : Prop where
  root : I.root.length < 2 ^ 64
  files : I.infos.length < 2 ^ 32
  paths : ∀ f ∈ I.infos, f.path.length < 2 ^ 64
  chunks : I.chunks.length < 2 ^ 32
  pos : I.pos.length < 2 ^ 64

theorem reads_header (m : StoredManifest) {I : IndexData} (hI : Stored I) (hroot : I.root.length < 2 ^ 64) :
    Reads rest (getHeader I.opt.persistCorpus (some m)) (putHeader I)
      (I.root.length ≤ maxString ∧ I.opt.positionalBudgetRatio.isFinite = true ∧
        sameOptions I.opt m.indexOptions = true ∧ m.sourceRoot = I.root ∧ m.corpusBytes = I.corpBytes) I.header := by
  have hcorpus := hI.corpus
  have hmax : maxCorpusBytes = 2 ^ 30 := rfl
  unfold getHeader putHeader
  refine (reads_string hroot).bind (fun _ => ?_)
  refine (reads_options (optionsFit hI.options) I.opt.persistCorpus).andThen ?_
  refine (reads_scalar (by omega)).andThen ?_
  refine ((reads_i64 I.rootMtimeNs).finish (fun _ =>
    Reads.check (fun _ => Reads.check (fun _ => Reads.check (fun _ => Reads.check (fun _ =>
      Reads.pure I.header)))))).congr ?_
  rw [Bool.not_eq_false, validIndexOptions_iff hI.options]
  simp only [Option.any_some, bne_self_eq_false, Bool.or_false, Bool.not_eq_true', Bool.not_eq_false, bne_iff_ne, ne_eq,
    not_not, true_and, and_true]
  rw [@eq_comm _ I.root, @eq_comm _ I.corpBytes]

theorem reads_tables {I : IndexData} (hI : Stored I) : Reads rest getTables (putTables I) True (I.byteFreq, I.qgramFreq) := by
  have hmax : maxCorpusBytes = 2 ^ 30 := rfl
  have hbytes := @Reads.many _ _ _ (getScalar 8) (putLe 8) (fun _ => True)
    ((List.range 256).map (fun c => I.byteFreq (UInt8.ofNat c)))
    ((List.range 65536).flatMap (fun h => putLe 4 (I.qgramFreq h)) ++ rest) (fun x hx rest => by
      obtain ⟨c, -, rfl⟩ := List.mem_map.1 hx
      have h1 := hI.byteFreq (UInt8.ofNat c)
      have h2 := hI.corpus
      exact reads_scalar (by omega))
  have hgrams := @Reads.many _ _ _ (getScalar 4) (putLe 4) (fun _ => True) ((List.range 65536).map I.qgramFreq) rest
    (fun x hx rest => by
      obtain ⟨h, -, rfl⟩ := List.mem_map.1 hx
      exact reads_scalar (hI.qgramFreq h))
  rw [List.length_map, List.length_range, List.flatMap_map] at hbytes hgrams
  have hvalue : (fun c : UInt8 => ((List.range 256).map (fun c => I.byteFreq (UInt8.ofNat c))).getD c.toNat 0,
      fun h => ((List.range 65536).map I.qgramFreq).getD h 0) = (I.byteFreq, I.qgramFreq) := by
    refine Prod.ext (funext fun c => ?_) (funext fun h => ?_)
    · have hc : c.toNat < 256 := c.toNat_lt
      simp only [List.getD_eq_getElem?_getD, List.getElem?_map, List.getElem?_range hc, Option.map_some, Option.getD_some,
        UInt8.ofNat_toNat]
    · rcases Nat.lt_or_ge h 65536 with hh | hh
      · simp only [List.getD_eq_getElem?_getD, List.getElem?_map, List.getElem?_range hh, Option.map_some, Option.getD_some]
      · have hnone : (List.range 65536)[h]? = none := List.getElem?_eq_none (by rwa [List.length_range])
        simp only [List.getD_eq_getElem?_getD, List.getElem?_map, hnone, Option.map_none, Option.getD_none]
        exact (hI.qgramFreq_zero h hh).symm
  rw [← hvalue]
  unfold getTables putTables
  exact (hbytes.congr (by simp)).andThen ((hgrams.congr (by simp)).map)

theorem sumSizes_pass : ∀ (infos : List FileInfo) {total : Nat}, total + (infos.map FileInfo.size).sum < 2 ^ 64 →
    sumSizes infos total = .ok (total + (infos.map FileInfo.size).sum)
  | [], _, _ => rfl
  | f :: fs, total, h => by
    rw [List.map_cons, List.sum_cons] at h ⊢
    rw [sumSizes, if_neg (by omega), sumSizes_pass fs (by omega), Nat.add_assoc]

theorem reads_files {m : StoredManifest} {I : IndexData} (hI : Stored I) (hsmall : Small I)
    (hbytes : m.corpusBytes = I.corpBytes) :
    Reads rest (getFiles I.corpBytes (some m)) (putRecords putFile I.infos)
      (I.infos.length ≤ maxFiles ∧ m.corpusFiles = I.infos.length ∧
        ∀ f ∈ I.infos, f.path.length ≤ maxString ∧ unsafeFileInfoPath f.path = false) I.infos := by
  have hmax : maxCorpusBytes = 2 ^ 30 := rfl
  have hcorpus := hI.corpus
  have hsum : (I.infos.map FileInfo.size).sum = I.corpBytes := by rw [hI.sizes, hI.total]
  have hsize : ∀ f ∈ I.infos, f.size < 2 ^ 64 := fun f hf => by
    have hle : f.size ≤ (I.infos.map FileInfo.size).sum := List.le_sum_of_mem (List.mem_map_of_mem hf)
    omega
  have hmany := @Reads.many _ _ _ getFile putFile
    (fun f => f.path.length ≤ maxString ∧ unsafeFileInfoPath f.path = false) I.infos rest
    (fun f hf rest => reads_file (hsmall.paths f hf) (hsize f hf))
  have htotal : sumSizes I.infos 0 = .ok I.corpBytes := by
    rw [sumSizes_pass I.infos (by omega), Nat.zero_add, hsum]
  have hwidth := @width_le_flatMap _ putFile 25 (fun f => by
    simp only [putFile, putString, putI64, putBool, List.length_append, length_putLe]
    omega) I.infos
  unfold getFiles putRecords
  refine reads_count (by have := hsmall.files; omega) (by decide) hwidth ((Reads.check (fun _ =>
    (hmany.finish (fun _ => Reads.lift htotal ?_)).congr (and_iff_left trivial))).congr ?_)
  · refine Reads.passed (not_not.2 rfl) (Reads.passed (by simp [hbytes]) (Reads.passed (by omega) (Reads.pure _)))
  · rw [Option.any_some, bne_iff_ne, not_not, @eq_comm Nat m.corpusFiles]

theorem reads_posDescs {nc : Nat} {descs : List PosDesc} (hnc : descs.length = nc) (hlen : descs.length < 2 ^ 64)
    (hfit : ∀ d ∈ descs, DescFits d) :
    Reads rest (getPosDescs nc) (putRecords putPosDesc descs) (descs.length ≤ maxPosDesc) descs := by
  have hmany := @Reads.many _ _ _ getPosDesc putPosDesc (fun _ => True) descs rest
    (fun d hd rest => reads_posDesc (hfit d hd))
  have hwidth := @width_le_flatMap _ putPosDesc 18 (fun d => by simp [putPosDesc]) descs
  unfold getPosDescs putRecords
  exact (reads_count hlen (by decide) hwidth (Reads.passed (not_not.2 hnc) hmany)).congr (by simp)

theorem reads_payload : ∀ {infos : List FileInfo} {loaded : List Bytes} {total : Nat},
    infos.map FileInfo.size = loaded.map List.length → total + (loaded.map List.length).sum ≤ maxCorpusBytes →
      Reads rest (getPayload infos total) (loaded.flatMap putString) True (loaded, total + (loaded.map List.length).sum)
  | [], [], total, _, _ => Reads.pure _
  | f :: fs, s :: ss, total, hsize, htotal => by
    rw [List.map_cons, List.map_cons, List.cons.injEq] at hsize
    rw [List.map_cons, List.sum_cons] at htotal ⊢
    have hmax : maxCorpusBytes = 2 ^ 30 := rfl
    have hrest := reads_payload hsize.2 (show total + s.length + _ ≤ _ by omega)
    rw [Nat.add_assoc] at hrest
    rw [List.flatMap_cons, putString, List.append_assoc]
    unfold getPayload
    refine (reads_scalar (by omega)).andThen ?_
    refine Reads.passed (by omega) (Reads.passed (by omega) (Reads.remaining (Reads.passed ?_ ?_)))
    · rw [List.length_append, List.length_append]
      omega
    · exact (reads_bytes s).andThen hrest.map

theorem checkSourceTotal_pass : ∀ (infos : List FileInfo) {total : Nat},
    total + (infos.map FileInfo.size).sum ≤ maxCorpusBytes → checkSourceTotal infos total = .ok ()
  | [], _, _ => rfl
  | f :: fs, total, h => by
    rw [List.map_cons, List.sum_cons] at h
    rw [checkSourceTotal, if_neg (by omega), checkSourceTotal_pass fs (by omega)]

def contentsOf (world : World) (I : IndexData) : Except Thrown (List Bytes) :=
  if I.opt.persistCorpus then .ok I.loaded else mapSources world I.root I.infos

theorem reads_contents {world : World} {m : StoredManifest} {I J : IndexData} (hI : Stored I)
    (hbytes : m.corpusBytes = I.corpBytes) (hJ : J.infos = I.infos ∧ J.root = I.root ∧ J.corpBytes = I.corpBytes) :
    Reads rest (getContents world I.opt.persistCorpus (some m) J)
      (if I.opt.persistCorpus then I.loaded.flatMap putString else []) (∃ l, contentsOf world I = .ok l)
      ((contentsOf world I).toOption.getD []) := by
  unfold getContents contentsOf
  rw [hJ.1, hJ.2.1, hJ.2.2]
  cases I.opt.persistCorpus with
  | true  =>
    have htotal : 0 + (I.loaded.map List.length).sum = I.corpBytes := (Nat.zero_add _).trans hI.total
    have hpayload := @reads_payload rest _ _ 0 hI.sizes (htotal ▸ hI.corpus)
    rw [htotal] at hpayload
    simp only [↓reduceIte]
    refine (hpayload.finish (Q := True) (fun _ => Reads.passed ?_ (Reads.pure I.loaded))).congr (by simp)
    simp [hbytes]
  | false =>
    have htotal : checkSourceTotal I.infos 0 = .ok () :=
      checkSourceTotal_pass _ (by rw [hI.sizes, hI.total, Nat.zero_add]; exact hI.corpus)
    simp only [Bool.false_eq_true, ↓reduceIte]
    exact Reads.lift htotal (Reads.ofExcept _ [])

/-! ## The index -/

/-- **The loader's own limits**, which `build` and `save` do not check. -/
structure WithinLimits (I : IndexData) : Prop where
  finite : I.opt.positionalBudgetRatio.isFinite = true
  root : I.root.length ≤ maxString
  files : I.infos.length ≤ maxFiles
  paths : ∀ f ∈ I.infos, f.path.length ≤ maxString ∧ unsafeFileInfoPath f.path = false
  chunks : I.chunks.length ≤ maxChunks
  groups : ∀ g ∈ I.groups, g.gids.length ≤ maxVectorElems ∧ g.bits.length ≤ maxVectorElems
  pos : I.pos.length ≤ maxVectorElems

def restored (world : World) (I : IndexData) : IndexData :=
  rebuildPlannerStats { I.header with
    byteFreq := I.byteFreq, qgramFreq := I.qgramFreq, posBlock := I.posBlock, infos := I.infos, chunks := I.chunks
    groups := I.groups, posDesc := I.posDesc, pos := I.pos, loaded := (contentsOf world I).toOption.getD [] }

theorem reads_index {world : World} (m : StoredManifest) {I : IndexData} (hI : Stored I) (hsmall : Small I) :
    Reads rest (getIndex world I.opt.persistCorpus (some m) rest.length) (putSections I)
      (WithinLimits I ∧ Agrees m I ∧ ∃ l, contentsOf world I = .ok l) (restored world I) := by
  have hblock := (validateIndexOptions_ok hI.options).2.1
  have hpb := hI.posBlock
  have hchunks := hsmall.chunks
  have hdescs := hI.posDesc_length
  refine Reads.congr (P := (I.root.length ≤ maxString ∧ I.opt.positionalBudgetRatio.isFinite = true ∧
      sameOptions I.opt m.indexOptions = true ∧ m.sourceRoot = I.root ∧ m.corpusBytes = I.corpBytes) ∧
    (I.infos.length ≤ maxFiles ∧ m.corpusFiles = I.infos.length ∧
      ∀ f ∈ I.infos, f.path.length ≤ maxString ∧ unsafeFileInfoPath f.path = false) ∧
    I.chunks.length ≤ maxChunks ∧ (∀ g ∈ I.groups, g.gids.length ≤ maxVectorElems ∧ g.bits.length ≤ maxVectorElems) ∧
    I.posDesc.length ≤ maxPosDesc ∧ I.pos.length ≤ maxVectorElems ∧ ∃ l, contentsOf world I = .ok l) ?_ ?_
  · unfold getIndex putSections
    refine (reads_header m hI hsmall.root).bind (fun hhead => ?_)
    have hbytes := hhead.2.2.2.2
    refine (reads_tables hI).andThen ?_
    refine (reads_scalar (by omega)).andThen (Reads.passed (not_not.2 hpb) ?_)
    refine (reads_files hI hsmall hbytes).bind (fun _ => ?_)
    refine (reads_chunks (by omega) (hI.chunk_fits hsmall.files) hI.chunks_pass).bind (fun _ => ?_)
    refine (reads_groups hI.groups_length (hI.groups_pass hchunks) hI.groups_all).bind (fun _ => ?_)
    refine (reads_posDescs hdescs (by omega) (hI.desc_fits hsmall.pos)).bind (fun _ => ?_)
    refine (reads_vector (by decide) hsmall.pos hI.bytes).bind (fun _ => ?_)
    refine Reads.lift (hI.rows hsmall.pos) (Reads.passed (not_not.2 rfl) ?_)
    refine ((reads_contents hI hbytes ⟨rfl, rfl, rfl⟩).finish (fun _ => ?_)).congr (and_iff_left trivial)
    exact Reads.remaining (Reads.passed (not_not.2 rfl) (Reads.pure _))
  · constructor
    · rintro ⟨⟨h1, h2, h9, h10, h11⟩, ⟨h3, h12, h4⟩, h5, h6, -, h7, h8⟩
      exact ⟨⟨h2, h1, h3, h4, h5, h6, h7⟩, ⟨h9, h10, h12, h11⟩, h8⟩
    · rintro ⟨h, hm, h8⟩
      exact ⟨⟨h.root, h.finite, hm.options, hm.root, hm.bytes⟩, ⟨h.files, hm.files, h.paths⟩, h.chunks, h.groups,
        hdescs ▸ h.chunks, h.pos, h8⟩

/-! ## The snapshot -/

/-- The source of a source-backed snapshot is the one its manifest states. -/
def SourceStated (world : World) (m : StoredManifest) (I : IndexData) : Prop :=
  I.opt.persistCorpus = true ∨ (sourceIdentity world m.sourceRoot m.indexOptions ≠ 0 ∧
    (sourceIdentity world m.sourceRoot m.indexOptions).toNat = m.sourceIdentity)

theorem checkSource_iff (world : World) (m : StoredManifest) (I : IndexData) :
    (∃ u, (if I.opt.persistCorpus then .ok () else checkSource world m) = .ok u) ↔ SourceStated world m I := by
  cases hp : I.opt.persistCorpus with
  | true  => simp [SourceStated, hp]
  | false =>
    have hzero : ∀ x : UInt64, x.toNat = 0 ↔ x = 0 := fun x => by rw [← UInt64.toNat_inj]; rfl
    rw [checkSource, mismatch]
    simp only [SourceStated, hp, Bool.false_eq_true, if_false, false_or, Bool.or_eq_true, beq_iff_eq, bne_iff_ne, hzero]
    split
    · rename_i h
      exact iff_of_false (by simp) (fun hs => h.elim hs.1 (fun hne => hne hs.2))
    · rename_i h
      exact iff_of_true ⟨(), rfl⟩ (by simpa only [not_or, not_not, ne_eq] using h)

/-- **What the loader asks of a snapshot**: of its manifest, of its index and of the source. -/
structure Accepted (world : World) (expected : CacheManifest) (m : StoredManifest) (I : IndexData) : Prop where
  expected : checkExpected expected m = .ok ()
  valid : validIndexOptions m.indexOptions = true
  source : SourceStated world m I
  limits : WithinLimits I
  agrees : Agrees m I
  contents : ∃ l, contentsOf world I = .ok l

theorem reads_snapshot {world : World} {expected : CacheManifest} {aware : Bool} {m : StoredManifest} {I : IndexData}
    (hI : Stored I) (hsmall : Small I) (hfits : ManifestFits m) (hrest : rest.length = 8) :
    Reads rest (getSnapshot world expected aware true false)
      (putLe 8 manifestMagic ++ (putManifest m I.opt.persistCorpus ++ putSections I))
      (Accepted world expected m I) (restored world I) := by
  have hindex := @reads_index rest world m _ hI hsmall
  rw [hrest] at hindex
  have hbody : ∀ s : Bytes, Reads rest (do
      let marker ← getScalar 8
      reject (true = true ∧ marker ≠ manifestMagic) { text := "incompatible pergrep index schema: missing manifest" }
      if marker = manifestMagic then
        let m ← getManifest true false
        let _ ← Reader.lift (checkExpected expected m.1)
        let _ ← Reader.lift (if m.2 then .ok () else checkSource world m.1)
        getIndex world m.2 (some m.1) (if true = true then 8 else 0)
      else
        reject (aware = true) { text := "cache manifest missing" }
        set s
        getIndex world false none 0 : Loader IndexData)
      (putLe 8 manifestMagic ++ (putManifest m I.opt.persistCorpus ++ putSections I))
      (Accepted world expected m I) (restored world I) := fun s => by
    refine (reads_scalar (by decide)).andThen (Reads.passed (by simp) ?_)
    rw [if_pos rfl, if_pos rfl]
    refine ((reads_manifest hfits I.opt.persistCorpus).bind (fun _ =>
      Reads.tryLift (fun _ _ => Reads.tryLift (fun _ _ => hindex)))).congr ?_
    rw [checkSource_iff]
    constructor
    · rintro ⟨⟨-, h1⟩, ⟨_, h2⟩, h3, h4, h5, h6⟩
      exact ⟨h2, h1, h3, h4, h5, h6⟩
    · rintro ⟨h2, h1, h3, h4, h5, h6⟩
      exact ⟨⟨h5.root ▸ h4.root, h1⟩, ⟨(), h2⟩, h3, h4, h5, h6⟩
  exact ⟨(hbody _).ok, (hbody _).throws⟩

/-! ## The size of a snapshot -/

def snapshotSize (I : IndexData) : Nat :=
  12 + 8 + (107 + I.root.length) + (66 + I.root.length) + (256 * 8 + 65536 * 4) + 4 +
    (8 + (I.infos.map (fun f => 25 + f.path.length)).sum) + (8 + 28 * I.chunks.length) +
    (I.groups.map (fun g => 25 + 4 * g.gids.length + 8 * g.bits.length)).sum + (8 + 18 * I.posDesc.length) +
    (8 + I.pos.length) + (if I.opt.persistCorpus then (I.loaded.map (fun s => 8 + s.length)).sum else 0) + 8

@[simp] theorem length_putString (s : Bytes) : (putString s).length = 8 + s.length := by simp [putString]

@[simp] theorem length_putBool (b : Bool) : (putBool b).length = 1 := length_putLe 1 _

@[simp] theorem length_putI64 (x : Int64) : (putI64 x).length = 8 := length_putLe 8 _

@[simp] theorem length_putOptions (o : IndexOptions) : (putOptions o).length = 42 := by simp [putOptions]

@[simp] theorem length_putVector (k : Nat) (v : List Nat) : (putVector k v).length = 8 + v.length * k := by
  rw [putVector, List.length_append, length_putLe, length_flatMap_putLe]

theorem length_putSections (I : IndexData) : (putSections I).length + 20 + (107 + I.root.length) + 8 = snapshotSize I := by
  have hfiles : (I.infos.flatMap putFile).length = (I.infos.map (fun f => 25 + f.path.length)).sum := by
    rw [List.length_flatMap]
    refine congrArg List.sum (List.map_congr_left (fun f _ => ?_))
    simp only [putFile, List.length_append, length_putString, length_putLe, length_putI64, length_putBool]
    omega
  have hgroups : (I.groups.flatMap putGroup).length =
      (I.groups.map (fun g => 25 + 4 * g.gids.length + 8 * g.bits.length)).sum := by
    rw [List.length_flatMap]
    refine congrArg List.sum (List.map_congr_left (fun g _ => ?_))
    simp only [putGroup, List.length_append, length_putVector, length_putLe]
    omega
  have hpayload : (if I.opt.persistCorpus then I.loaded.flatMap putString else []).length =
      if I.opt.persistCorpus then (I.loaded.map (fun s => 8 + s.length)).sum else 0 := by
    split
    · rw [List.length_flatMap]
      exact congrArg List.sum (List.map_congr_left (fun s _ => length_putString s))
    · rfl
  have htable : ∀ (n k : Nat) (f : Nat → Nat), ((List.range n).flatMap (fun c => putLe k (f c))).length = n * k := by
    intro n k f
    simp [List.length_flatMap]
  have hbytes := htable 256 8 (fun c => I.byteFreq (UInt8.ofNat c))
  have hgrams := htable 65536 4 I.qgramFreq
  have hchunks : (I.chunks.flatMap putChunk).length = 28 * I.chunks.length := by
    simp [List.length_flatMap, putChunk, Nat.mul_comm]
  have hdescs : (I.posDesc.flatMap putPosDesc).length = 18 * I.posDesc.length := by
    simp [List.length_flatMap, putPosDesc, Nat.mul_comm]
  simp only [putSections, putHeader, putTables, putRecords, List.length_append, length_putString, length_putOptions,
    length_putLe, length_putI64, length_putVector, hfiles, hgroups, hpayload, hbytes, hgrams, hchunks, hdescs, snapshotSize]
  omega

theorem length_snapshot (m : StoredManifest) (I : IndexData) :
    (snapshotBody m I).length = (putSections I).length + 20 + (107 + m.sourceRoot.length) := by
  simp only [snapshotBody, putManifest, List.length_append, length_putString, length_putOptions, length_putLe, length_putBool]
  have : magic.length = 8 := rfl
  omega

/-- **A snapshot within its limit is small.** -/
theorem small_of_size {I : IndexData} (h : (putSections I).length ≤ maxSnapshotBytes) : Small I := by
  have hmax : maxSnapshotBytes = 2 ^ 30 + 2 ^ 28 := rfl
  have hlen : I.infos.length * 25 ≤ (I.infos.map (fun f => 25 + f.path.length)).sum := by
    have := @width_le_flatMap _ putFile 25 (fun f => by
      simp only [putFile, List.length_append, length_putString, length_putLe, length_putI64, length_putBool]
      omega) I.infos
    rw [List.length_flatMap] at this
    refine this.trans (Nat.le_of_eq (congrArg List.sum (List.map_congr_left (fun f _ => ?_))))
    simp only [putFile, List.length_append, length_putString, length_putLe, length_putI64, length_putBool]
    omega
  have hsections := length_putSections I
  unfold snapshotSize at hsections
  refine ⟨by omega, by omega, fun f hf => ?_, by omega, by omega⟩
  have hf' : 25 + f.path.length ≤ (I.infos.map (fun f => 25 + f.path.length)).sum :=
    List.le_sum_of_mem (List.mem_map_of_mem (f := fun f => 25 + f.path.length) hf)
  omega

/-! ## Loading it -/

/-- **What the loader makes of a snapshot** with any manifest: it is loaded when it is accepted, and then it is the index
that was saved. -/
theorem loadSnapshot_iff {world : World} {expected : CacheManifest} {aware : Bool} {m : StoredManifest} {I J : IndexData}
    (hI : Stored I) (hfits : Small I → ManifestFits m) :
    loadSnapshot world expected aware (snapshotBody m I ++ trailer (snapshotBody m I)) = .ok J ↔
      ((snapshotBody m I).length + 8 ≤ maxSnapshotBytes ∧ Accepted world expected m I) ∧ J = restored world I := by
  have hlen := length_snapshot m I
  have hbody : snapshotBody m I = magic ++ (putLe 4 portableIndexVersion ++ (putLe 8 manifestMagic ++
    (putManifest m I.opt.persistCorpus ++ putSections I))) := rfl
  generalize snapshotBody m I = body at hlen hbody ⊢
  have htrail : (trailer body).length = 8 := length_putLe 8 _
  have htotal : (body ++ trailer body).length = body.length + 8 := by rw [List.length_append, htrail]
  have hsum : getLe (trailer body) = (bodyChecksum body).toNat := getLe_putLe (UInt64.toNat_lt _)
  have hmagic : (body ++ trailer body).take 8 = magic := by
    rw [hbody, List.append_assoc]
    exact List.take_left' rfl
  have hver : getLe (((body ++ trailer body).drop 8).take 4) = portableIndexVersion := by
    rw [hbody, List.append_assoc, show (8 : Nat) = magic.length from rfl, List.drop_left, List.append_assoc]
    exact congrArg getLe (List.take_left' (length_putLe 4 _))
  have hrest : (body ++ trailer body).drop 12 = putLe 8 manifestMagic ++
      (putManifest m I.opt.persistCorpus ++ putSections I) ++ trailer body := by
    rw [hbody, ← List.append_assoc magic, List.append_assoc]
    exact List.drop_left' (by rw [List.length_append, length_putLe]; rfl)
  unfold loadSnapshot
  rw [htotal, Nat.add_sub_cancel, List.take_left, List.drop_left, hmagic, hver, hrest, hsum]
  rw [if_neg (by omega)]
  by_cases hsize : body.length + 8 ≤ maxSnapshotBytes
  · rw [if_neg (Nat.not_lt.2 hsize), if_neg (not_not.2 rfl)]
    dsimp only
    rw [if_pos rfl, if_neg (by omega), if_neg (not_not.2 rfl)]
    have hsmall : Small I := small_of_size (by omega)
    have hreads := @reads_snapshot (trailer body) world expected aware m I hI hsmall (hfits hsmall) htrail
    constructor
    · intro h
      by_cases hP : Accepted world expected m I
      · rw [hreads.ok hP] at h
        exact ⟨⟨hsize, hP⟩, (Except.ok.inj h).symm⟩
      · obtain ⟨e, he⟩ := hreads.throws hP
        rw [he] at h
        cases h
    · rintro ⟨⟨-, hP⟩, rfl⟩
      rw [hreads.ok hP]
      rfl
  · rw [if_pos (Nat.lt_of_not_le hsize)]
    exact iff_of_false (fun h => by cases h) (fun h => hsize h.1.1)

/-- A source-backed snapshot is loaded over the source it was saved over. -/
def SameSource (world world' : World) (I : IndexData) : Prop :=
  I.opt.persistCorpus = true ∨ (sourceIdentity world' I.root I.opt ≠ 0 ∧
    sourceIdentity world' I.root I.opt = sourceIdentity world I.root I.opt)

/-- What `save` asks of the manifest it is given. -/
structure Savable (requested : CacheManifest) (I : IndexData) : Prop where
  schemaVersion : ∀ v ∈ requested.schemaVersion, v = manifestSchema
  indexOptions : ∀ o ∈ requested.indexOptions, sameOptions o I.opt = true

theorem Savable.unset (I : IndexData) : Savable {} I := ⟨fun _ h => (by cases h), fun _ h => (by cases h)⟩

/-- The numbers of a requested manifest, which are of 64 bits. -/
structure CacheManifest.Fits (requested : CacheManifest) : Prop where
  sourceIdentity : ∀ v ∈ requested.sourceIdentity, v < 2 ^ 64
  sourceRoot : ∀ v ∈ requested.sourceRoot, v.length < 2 ^ 64
  selectorIdentity : ∀ v ∈ requested.selectorIdentity, v < 2 ^ 64
  transformIdentity : ∀ v ∈ requested.transformIdentity, v < 2 ^ 64
  corpusFiles : ∀ v ∈ requested.corpusFiles, v < 2 ^ 64
  corpusBytes : ∀ v ∈ requested.corpusBytes, v < 2 ^ 64
  generation : ∀ v ∈ requested.generation, v < 2 ^ 64

theorem CacheManifest.Fits.unset : CacheManifest.Fits {} := by
  constructor <;> exact fun _ h => (by cases h)

theorem forall_getD {α : Type} {P : α → Prop} {a : α} (ha : P a) : ∀ {o : Option α}, (∀ v ∈ o, P v) → P (o.getD a)
  | none, _ => ha
  | some v, h => h v rfl

theorem sameOptions_iff {a b : IndexOptions} : sameOptions a b = true ↔
    (a.chunkBytes = b.chunkBytes ∧ a.chunkOverlap = b.chunkOverlap ∧ a.positionalBlockBytes = b.positionalBlockBytes ∧
      a.plannedQgrams = b.plannedQgrams) ∧ a.positionalBudgetRatio.same b.positionalBudgetRatio = true ∧
      a.includeHidden = b.includeHidden ∧ a.followSymlinks = b.followSymlinks ∧ a.persistCorpus = b.persistCorpus := by
  simp only [sameOptions, Bool.and_eq_true, beq_iff_eq]
  tauto

/-- **The manifest that is stored fits its fields.** -/
theorem manifestOf_fits (world : World) {requested : CacheManifest} {I : IndexData} (hI : Stored I) (hsmall : Small I)
    (hfits : requested.Fits) (hreq : Savable requested I) : ManifestFits (manifestOf world I requested) := by
  have hcorpus := hI.corpus
  have hmax : maxCorpusBytes = 2 ^ 30 := rfl
  have hfiles := hsmall.files
  have hopt := optionsFit hI.options
  refine ⟨?_, ?_, ?_, ?_, ?_, ?_, ?_, ?_, ?_⟩
  · exact @forall_getD _ (· = manifestSchema) manifestSchema rfl requested.schemaVersion hreq.schemaVersion
  · exact forall_getD (P := (· < 2 ^ 64)) (UInt64.toNat_lt _) hfits.sourceIdentity
  · exact forall_getD (P := (List.length · < 2 ^ 64)) hsmall.root hfits.sourceRoot
  · exact forall_getD (P := (· < 2 ^ 64)) (Nat.two_pow_pos 64) hfits.selectorIdentity
  · refine forall_getD hopt (fun o ho => ?_)
    obtain ⟨⟨h1, h2, h3, h4⟩, -⟩ := sameOptions_iff.1 (hreq.indexOptions o ho)
    exact ⟨h1 ▸ hopt.chunkBytes, h2 ▸ hopt.chunkOverlap, h3 ▸ hopt.positionalBlockBytes, h4 ▸ hopt.plannedQgrams⟩
  · exact forall_getD (P := (· < 2 ^ 64)) (Nat.two_pow_pos 64) hfits.transformIdentity
  · exact forall_getD (P := (· < 2 ^ 64)) (by omega) hfits.corpusFiles
  · exact forall_getD (P := (· < 2 ^ 64)) (by omega) hfits.corpusBytes
  · exact forall_getD (P := (· < 2 ^ 64)) (UInt64.toNat_lt _) hfits.generation

/-- **What `load` makes of a snapshot**: it is loaded when it is within the limits, the source is the same and its files
are there, and then it is the index that was saved. -/
theorem loadSnapshot_saved {world world' : World} {I J : IndexData} (hI : Stored I) :
    loadSnapshot world' {} false (snapshotBody (manifestOf world I {}) I ++ trailer (snapshotBody (manifestOf world I {}) I)) =
        .ok J ↔
      (snapshotSize I ≤ maxSnapshotBytes ∧ WithinLimits I ∧ SameSource world world' I ∧ ∃ l, contentsOf world' I = .ok l) ∧
        J = restored world' I := by
  have hsize : (snapshotBody (manifestOf world I {}) I).length + 8 = snapshotSize I := by
    rw [length_snapshot, ← length_putSections]
    rfl
  have hsource : SourceStated world' (manifestOf world I {}) I ↔ SameSource world world' I :=
    or_congr_right (and_congr_right' UInt64.toNat_inj)
  rw [loadSnapshot_iff hI (fun hsmall => manifestOf_fits world hI hsmall .unset (.unset I)), hsize]
  refine and_congr_left (fun _ => and_congr_right (fun _ => ⟨fun h => ⟨h.limits, hsource.1 h.source, h.contents⟩, ?_⟩))
  rintro ⟨h1, h2, h3⟩
  exact ⟨rfl, (validIndexOptions_iff hI.options).2 h1.finite, hsource.2 h2, h1, ⟨sameOptions_self h1.finite, rfl, rfl, rfl⟩, h3⟩

end Pergrep
