import Pergrep.Index.Reload
import Pergrep.Search.Find
import Pergrep.Search.ScanSpec
/-!
# Overlap — the overlap contract of a loaded index

A chunk must reach `chunk_overlap` past its core, or to the end of its file, for the scans to see every literal that starts
in the core.  The loader keeps the chunk records as they stand in the file and bounds `ext_end` from above only: the
contract holds of a loaded index exactly when no record of the file is cut short (`loadImpl_overlap_iff`), and a snapshot
with its chunks cut to their cores is loaded like any other (`loadSnapshot_cut`).
-/
namespace Pergrep

open Reader Substr

/-! ## The records of the file -/

/-- What a snapshot says of the chunks: the overlap, the sizes of the files and the records, as they stand in the file. -/
structure StoredGeometry where
  overlap : Nat
  sizes : List Nat
  chunks : List Chunk

def readGeometry (persisted : Bool) : Loader StoredGeometry := do
  let I ← getHeader persisted none
  let _ ← getTables
  let _ ← getScalar 4
  let nf ← getScalar 8
  let infos ← many getFile nf
  let nc ← getScalar 8
  let chunks ← many getChunk nc
  return { overlap := I.opt.chunkOverlap, sizes := infos.map FileInfo.size, chunks := chunks }

def snapshotGeometry (portable persisted : Bool) : Loader StoredGeometry := fun s => (do
  let marker ← getScalar 8
  if marker = manifestMagic then
    let m ← getManifest portable persisted
    readGeometry m.2
  else
    set s
    readGeometry persisted : Loader StoredGeometry) s

def storedGeometry (bytes : Bytes) : Except Thrown StoredGeometry :=
  let ver := getLe ((bytes.drop 8).take 4)
  (snapshotGeometry (ver = portableIndexVersion) (ver = 6) (bytes.drop 12)).map Prod.fst

/-- A record whose `ext_end` lies before the end of its file and less than the overlap past its core. -/
def StoredGeometry.Short (g : StoredGeometry) (z : Chunk) : Prop :=
  z.extEnd < min (g.sizes.getD z.fileId 0) (z.coreEnd + g.overlap)

/-! ## The loader keeps them -/

theorem getCount_scalar {e : Thrown} {limit width n : Nat} {s s' : Bytes} (h : getCount e limit width s = .ok (n, s')) :
    getScalar 8 s = .ok (n, s') := by
  obtain ⟨m, s₁, hm, h⟩ := bind_ok h
  obtain ⟨_, s₂, h1, h⟩ := bind_ok h
  obtain ⟨left, s₃, h2, h⟩ := bind_ok h
  obtain ⟨_, s₄, h3, h⟩ := bind_ok h
  cases (reject_ok h1).2
  cases h2
  cases (reject_ok h3).2
  cases h
  exact hm

theorem getHeader_none {persisted : Bool} {manifest : Option StoredManifest} {H : IndexData} {s s' : Bytes}
    (h : getHeader persisted manifest s = .ok (H, s')) : getHeader persisted none s = .ok (H, s') := by
  obtain ⟨root, s₁, h1, h⟩ := bind_ok h
  obtain ⟨opt, s₂, h2, h⟩ := bind_ok h
  obtain ⟨corpBytes, s₃, h3, h⟩ := bind_ok h
  obtain ⟨rootMtimeNs, s₄, h4, h⟩ := bind_ok h
  obtain ⟨_, s₅, h5, h⟩ := bind_ok h
  obtain ⟨_, s₆, h6, h⟩ := bind_ok h
  obtain ⟨_, s₇, h7, h⟩ := bind_ok h
  obtain ⟨_, s₈, h8, h⟩ := bind_ok h
  cases (reject_ok h6).2
  cases (reject_ok h7).2
  cases (reject_ok h8).2
  unfold getHeader
  rw [bind_run h1, bind_run h2, bind_run h3, bind_run h4, bind_run h5]
  exact h

theorem getFiles_many {corpBytes : Nat} {manifest : Option StoredManifest} {infos : List FileInfo} {s s' : Bytes}
    (h : getFiles corpBytes manifest s = .ok (infos, s')) :
    ∃ nf s₁, getScalar 8 s = .ok (nf, s₁) ∧ many getFile nf s₁ = .ok (infos, s') := by
  obtain ⟨nf, s₁, h1, h⟩ := bind_ok h
  obtain ⟨_, s₂, h2, h⟩ := bind_ok h
  obtain ⟨fs, s₃, h3, h⟩ := bind_ok h
  obtain ⟨total, s₄, h4, h⟩ := bind_ok h
  obtain ⟨_, s₅, h5, h⟩ := bind_ok h
  obtain ⟨_, s₆, h6, h⟩ := bind_ok h
  obtain ⟨_, s₇, h7, h⟩ := bind_ok h
  cases (reject_ok h2).2
  obtain rfl : s₄ = s₃ := (lift_ok h4).2
  cases (reject_ok h5).2
  cases (reject_ok h6).2
  cases (reject_ok h7).2
  cases h
  exact ⟨nf, _, getCount_scalar h1, h3⟩

theorem getChunks_many {opt : IndexOptions} {infos : List FileInfo} {chunks : List Chunk} {s s' : Bytes}
    (h : getChunks opt infos s = .ok (chunks, s')) :
    ∃ nc s₁, getScalar 8 s = .ok (nc, s₁) ∧ many getChunk nc s₁ = .ok (chunks, s') := by
  obtain ⟨nc, s₁, h1, h⟩ := bind_ok h
  obtain ⟨st, s₂, hloop, h⟩ := bind_ok h
  obtain ⟨_, s₃, hend, h⟩ := bind_ok h
  cases (reject_ok hend).2
  cases h
  refine ⟨nc, _, getCount_scalar h1, ?_⟩
  obtain ⟨zs, hzs, hout⟩ := @loop_many _ _ _ _ (chunkStep opt infos) getChunk ChunkScan.chunks (fun st s st' s' hstep => by
    obtain ⟨z, s₁, hz, hstep⟩ := bind_ok hstep
    obtain ⟨_, s₂, h1, hstep⟩ := bind_ok hstep
    obtain ⟨_, s₃, h2, hstep⟩ := bind_ok hstep
    cases (reject_ok h1).2
    cases (reject_ok h2).2
    cases hstep
    exact ⟨z, hz, rfl⟩) _ _ _ _ _ hloop
  rw [hout]
  exact hzs

theorem getChunks_le {opt : IndexOptions} {infos : List FileInfo} {chunks : List Chunk} {s s' : Bytes}
    (h : getChunks opt infos s = .ok (chunks, s')) :
    ∀ z ∈ chunks, z.extEnd ≤ min ((infos.map FileInfo.size).getD z.fileId 0) (z.coreEnd + opt.chunkOverlap) := by
  obtain ⟨nc, s₁, -, h⟩ := bind_ok h
  obtain ⟨st, s₂, hloop, h⟩ := bind_ok h
  obtain ⟨_, s₃, -, h⟩ := bind_ok h
  cases h
  refine @loop_invariant _ _ _ (chunkStep opt infos) (fun st => ∀ z ∈ st.chunks, z.extEnd ≤
    min ((infos.map FileInfo.size).getD z.fileId 0) (z.coreEnd + opt.chunkOverlap)) (fun st s st' s' hst hstep => ?_)
    _ _ _ _ _ (fun z hz => absurd hz List.not_mem_nil) hloop
  obtain ⟨z, s₁, -, hstep⟩ := bind_ok hstep
  obtain ⟨_, s₂, hbad, hstep⟩ := bind_ok hstep
  obtain ⟨_, s₃, -, hstep⟩ := bind_ok hstep
  cases hstep
  intro y hy
  rcases List.mem_append.1 hy with hy | hy
  · exact hst y hy
  · rw [List.mem_singleton.1 hy]
    exact (badChunk_iff.1 (reject_ok hbad).1).2.2.2

theorem getIndex_geometry {world : World} {persisted : Bool} {manifest : Option StoredManifest} {trail : Nat} {I : IndexData}
    {s s' : Bytes} (h : getIndex world persisted manifest trail s = .ok (I, s')) :
    (∃ s'', readGeometry persisted s =
        .ok ({ overlap := I.opt.chunkOverlap, sizes := I.infos.map FileInfo.size, chunks := I.chunks }, s'')) ∧
      ∀ z ∈ I.chunks, z.extEnd ≤ min ((I.infos.map FileInfo.size).getD z.fileId 0) (z.coreEnd + I.opt.chunkOverlap) := by
  obtain ⟨H, s₁, hheader, h⟩ := bind_ok h
  obtain ⟨tables, s₂, htables, h⟩ := bind_ok h
  obtain ⟨posBlock, s₃, hblock, h⟩ := bind_ok h
  obtain ⟨_, s₄, hr, h⟩ := bind_ok h
  obtain ⟨infos, s₅, hfiles, h⟩ := bind_ok h
  obtain ⟨chunks, s₆, hchunks, h⟩ := bind_ok h
  obtain ⟨groups, s₇, -, h⟩ := bind_ok h
  obtain ⟨posDesc, s₈, -, h⟩ := bind_ok h
  obtain ⟨pos, s₉, -, h⟩ := bind_ok h
  obtain ⟨posEnd, s₁₀, -, h⟩ := bind_ok h
  obtain ⟨_, s₁₁, -, h⟩ := bind_ok h
  obtain ⟨loaded, s₁₂, -, h⟩ := bind_ok h
  obtain ⟨left, s₁₃, -, h⟩ := bind_ok h
  obtain ⟨_, s₁₄, -, h⟩ := bind_ok h
  cases h
  cases (reject_ok hr).2
  obtain ⟨nf, t₁, hnf, hinfos⟩ := getFiles_many hfiles
  obtain ⟨nc, t₂, hnc, hzs⟩ := getChunks_many hchunks
  obtain ⟨e, f, g, r, hstats⟩ := rebuildPlannerStats_frame { H with
    byteFreq := tables.1, qgramFreq := tables.2, posBlock := posBlock, infos := infos, chunks := chunks
    groups := groups, posDesc := posDesc, pos := pos, loaded := loaded }
  rw [hstats]
  refine ⟨⟨s₆, ?_⟩, getChunks_le hchunks⟩
  unfold readGeometry
  rw [bind_run (getHeader_none hheader), bind_run htables, bind_run hblock, bind_run hnf, bind_run hinfos, bind_run hnc,
    bind_run hzs]
  rfl

theorem getSnapshot_geometry {world : World} {expected : CacheManifest} {aware portable persisted : Bool} {I : IndexData}
    {s s' : Bytes} (h : getSnapshot world expected aware portable persisted s = .ok (I, s')) :
    (∃ s'', snapshotGeometry portable persisted s =
        .ok ({ overlap := I.opt.chunkOverlap, sizes := I.infos.map FileInfo.size, chunks := I.chunks }, s'')) ∧
      ∀ z ∈ I.chunks, z.extEnd ≤ min ((I.infos.map FileInfo.size).getD z.fileId 0) (z.coreEnd + I.opt.chunkOverlap) := by
  unfold getSnapshot at h
  obtain ⟨marker, s₁, hmarker, h⟩ := bind_ok h
  obtain ⟨_, s₂, hr, h⟩ := bind_ok h
  split at h
  · rename_i hmagic
    obtain ⟨m, s₃, hm, h⟩ := bind_ok h
    obtain ⟨_, s₄, h1, h⟩ := bind_ok h
    obtain ⟨_, s₅, h2, h⟩ := bind_ok h
    obtain ⟨⟨s'', hgeo⟩, hle⟩ := getIndex_geometry h
    cases (reject_ok hr).2
    obtain rfl : s₄ = s₃ := (lift_ok h1).2
    obtain rfl : s₅ = s₄ := (lift_ok h2).2
    refine ⟨⟨s'', ?_⟩, hle⟩
    unfold snapshotGeometry
    rw [bind_run hmarker, if_pos hmagic, bind_run hm]
    exact hgeo
  · rename_i hmagic
    obtain ⟨_, s₃, -, h⟩ := bind_ok h
    obtain ⟨_, s₄, hset, h⟩ := bind_ok h
    cases hset
    obtain ⟨⟨s'', hgeo⟩, hle⟩ := getIndex_geometry h
    refine ⟨⟨s'', ?_⟩, hle⟩
    unfold snapshotGeometry
    rw [bind_run hmarker, if_neg hmagic]
    exact hgeo

/-- **The records of an accepted snapshot are the chunks of the index it gives**, and none reaches too far. -/
theorem loadSnapshot_geometry {world : World} {expected : CacheManifest} {aware : Bool} {bytes : Bytes} {I : IndexData}
    (h : loadSnapshot world expected aware bytes = .ok I) :
    storedGeometry bytes =
        .ok { overlap := I.opt.chunkOverlap, sizes := I.infos.map FileInfo.size, chunks := I.chunks } ∧
      ∀ z ∈ I.chunks, z.extEnd ≤ min ((I.infos.map FileInfo.size).getD z.fileId 0) (z.coreEnd + I.opt.chunkOverlap) := by
  have hmap : ∀ {portable persisted : Bool}, (getSnapshot world expected aware portable persisted (bytes.drop 12)).map Prod.fst =
      .ok I → (snapshotGeometry portable persisted (bytes.drop 12)).map Prod.fst =
        .ok { overlap := I.opt.chunkOverlap, sizes := I.infos.map FileInfo.size, chunks := I.chunks } ∧
      ∀ z ∈ I.chunks, z.extEnd ≤ min ((I.infos.map FileInfo.size).getD z.fileId 0) (z.coreEnd + I.opt.chunkOverlap) := by
    intro portable persisted hx
    cases hs : getSnapshot world expected aware portable persisted (bytes.drop 12) with
    | error e =>
      rw [hs] at hx
      exact nomatch hx
    | ok p =>
      rw [hs] at hx
      cases hx
      obtain ⟨⟨s'', hgeo⟩, hle⟩ := getSnapshot_geometry hs
      rw [hgeo]
      exact ⟨rfl, hle⟩
  unfold loadSnapshot at h
  dsimp only at h
  unfold storedGeometry
  dsimp only
  split at h
  · exact nomatch h
  split at h
  · exact nomatch h
  split at h
  · exact nomatch h
  split at h
  · rename_i hver
    split at h
    · exact nomatch h
    split at h
    · exact nomatch h
    · rw [hver, decide_eq_true rfl, show decide (portableIndexVersion = 6) = false from rfl]
      exact hmap h
  · rename_i hver
    split at h
    · rw [decide_eq_false hver]
      exact hmap h
    · exact nomatch h

/-! ## The contract -/

/-- **The overlap contract**: a chunk reaches the overlap past its core or the end of its file, and so the slice of the chunk
shows every literal within the overlap that starts in its core, and that of a block every short one that starts in the
block. -/
structure Overlaps (I : IndexData) : Prop where
  ext : ∀ z ∈ I.chunks, z.extEnd = min (I.data z.fileId).length (z.coreEnd + I.opt.chunkOverlap)
  chunk : ∀ z ∈ I.chunks, ∀ (lit : Bytes) (x : Nat), lit ≠ [] → lit.length ≤ I.opt.chunkOverlap →
    z.coreBegin ≤ x → x < z.coreEnd → occursAt (I.data z.fileId) lit x = true →
      x + lit.length ≤ z.extEnd ∧ occursAt (I.view z) lit (x - z.coreBegin) = true
  block : ∀ z ∈ I.chunks, ∀ (lit : Bytes) (x bi : Nat), lit ≠ [] → lit.length ≤ I.opt.chunkOverlap → lit.length ≤ 64 →
    z.coreBegin + bi * I.posBlock ≤ x → x < z.coreBegin + (bi + 1) * I.posBlock → x < z.coreEnd →
      occursAt (I.data z.fileId) lit x = true →
        occursAt (slice (I.data z.fileId) (z.coreBegin + bi * I.posBlock)
          (z.coreBegin + min (z.extEnd - z.coreBegin) (bi * I.posBlock + I.posBlock + positionalOverlap))) lit
          (x - (z.coreBegin + bi * I.posBlock)) = true

theorem overlaps_of_ext {I : IndexData}
    (hext : ∀ z ∈ I.chunks, z.extEnd = min (I.data z.fileId).length (z.coreEnd + I.opt.chunkOverlap)) : Overlaps I := by
  refine ⟨hext, fun z hz lit x hlit hlen hbegin hx ho => ⟨ends_in_view (hext z hz) hlen hx ho, ?_⟩,
    fun z hz lit x bi hlit hlen hshort hbegin hblock hx ho => ?_⟩
  · rw [IndexData.view, occursAt_slice hlit, show z.coreBegin + (x - z.coreBegin) = x by omega]
    exact ⟨ho, ends_in_view (hext z hz) hlen hx ho⟩
  · have := ends_in_view (hext z hz) hlen hx ho
    rw [Nat.succ_mul] at hblock
    rw [occursAt_slice hlit, show z.coreBegin + bi * I.posBlock + (x - (z.coreBegin + bi * I.posBlock)) = x by omega,
      positionalOverlap]
    exact ⟨ho, by omega⟩

theorem restored_geometry (world : World) {I : IndexData} {l : List Bytes} (h : contentsOf world I = .ok l) :
    (restored world I).loaded = l ∧ (restored world I).opt = I.opt ∧ (restored world I).chunks = I.chunks := by
  obtain ⟨e, f, g, r, hstats⟩ := rebuildPlannerStats_frame { I.header with
    byteFreq := I.byteFreq, qgramFreq := I.qgramFreq, posBlock := I.posBlock, infos := I.infos, chunks := I.chunks
    groups := I.groups, posDesc := I.posDesc, pos := I.pos, loaded := (contentsOf world I).toOption.getD [] }
  rw [restored, hstats, h]
  exact ⟨rfl, rfl, rfl⟩

/-- **The contract holds of a loaded index exactly when its file cuts no chunk short.** -/
theorem loadImpl_overlap_iff {world : World} {dir : Dir} {file : Place} {expected : CacheManifest} {manifestAware : Bool}
    {I : IndexData} (h : loadImpl world dir file expected manifestAware = .ok I) :
    Overlaps I ↔ ¬ ∃ bytes g, cleanupOrphans file dir file.name = some bytes ∧ storedGeometry bytes = .ok g ∧
      ∃ z ∈ g.chunks, g.Short z := by
  unfold loadImpl at h
  split at h
  · exact nomatch h
  rename_i bytes hbytes
  have hsafe := loadSnapshot_safe h
  obtain ⟨hgeo, hle⟩ := loadSnapshot_geometry h
  have hshort : (∃ bytes g, cleanupOrphans file dir file.name = some bytes ∧ storedGeometry bytes = .ok g ∧
      ∃ z ∈ g.chunks, g.Short z) ↔
      ∃ z ∈ I.chunks, z.extEnd < min (I.data z.fileId).length (z.coreEnd + I.opt.chunkOverlap) := by
    constructor
    · rintro ⟨bytes', g, hb, hg, z, hz, hshort⟩
      obtain rfl := Option.some.inj (hbytes.symm.trans hb)
      obtain rfl := Except.ok.inj (hgeo.symm.trans hg)
      exact ⟨z, hz, by rw [hsafe.data_length]; exact hshort⟩
    · rintro ⟨z, hz, hshort⟩
      refine ⟨bytes, _, hbytes, hgeo, z, hz, ?_⟩
      rw [hsafe.data_length] at hshort
      exact hshort
  rw [hshort]
  constructor
  · rintro hover ⟨z, hz, hlt⟩
    exact absurd (hover.ext z hz) (Nat.ne_of_lt hlt)
  · intro hnone
    refine overlaps_of_ext (fun z hz => Nat.le_antisymm ?_ (Nat.le_of_not_lt (fun hlt => hnone ⟨z, hz, hlt⟩)))
    rw [hsafe.data_length]
    exact hle z hz

theorem loadImpl_overlap_plain : ∃ dir I, loadImpl (onlyTree plainTree) dir { name := [105] } {} false = .ok I ∧ Overlaps I ∧
    ¬ ∃ bytes g, cleanupOrphans { name := [105] } dir [105] = some bytes ∧ storedGeometry bytes = .ok g ∧
      ∃ z ∈ g.chunks, g.Short z := by
  obtain ⟨I, hI⟩ := (@build_ok plainTree { persistCorpus := true } (by decide)).2 (by decide)
  have hs := save_eq (build_stored hI) (build_built hI).2.2.2.2.1 (onlyTree plainTree) [49] (fun _ => none) { name := [105] }
  obtain ⟨h1, h2, h3, h4⟩ := plain_loadable hI
  have hcontents := contentsOf_unchanged (by unfold Tree.Posix; decide) { persistCorpus := true } hI (onlyTree_root plainTree)
  have hload := (load_saved (build_stored hI) (build_built hI).2.2.2.2.1 hs).2 ⟨⟨h1, h2, h3, h4.imp_right (fun h => ⟨h, rfl⟩),
    _, hcontents⟩, rfl⟩
  have hover : Overlaps (restored (onlyTree plainTree) I) := by
    obtain ⟨hloaded, hopt, hchunks⟩ := restored_geometry (onlyTree plainTree) hcontents
    refine overlaps_of_ext (fun z hz => ?_)
    rw [hchunks] at hz
    rw [hopt, IndexData.data, hloaded]
    exact ((build_built hI).1.chunk hz).2.2.2
  exact ⟨_, _, hload, hover, (loadImpl_overlap_iff hload).1 hover⟩

/-! ## A snapshot with its chunks cut -/

def Chunk.cut (z : Chunk) : Chunk := { z with extEnd := z.coreEnd }

def IndexData.cut (I : IndexData) : IndexData := { I with chunks := I.chunks.map Chunk.cut }

/-- Two scans that saw the same of the files, one of them the chunks cut. -/
structure CutScan (st st' : ChunkScan) : Prop where
  chunks : st'.chunks = st.chunks.map Chunk.cut
  nextCore : st'.nextCore = st.nextCore
  fileSeen : st'.fileSeen = st.fileSeen
  previousFile : st'.previousFile = st.previousFile

theorem CutScan.advance {st st' : ChunkScan} (h : CutScan st st') (z : Chunk) : CutScan (st.advance z) (st'.advance z.cut) := by
  obtain ⟨h1, h2, h3, -⟩ := h
  refine ⟨?_, ?_, ?_, rfl⟩
  · change st'.chunks ++ [z.cut] = (st.chunks ++ [z]).map Chunk.cut
    rw [h1, List.map_append, List.map_singleton]
  · change Function.update st'.nextCore z.fileId z.coreEnd = Function.update st.nextCore z.fileId z.coreEnd
    rw [h2]
  · change Function.update st'.fileSeen z.fileId true = Function.update st.fileSeen z.fileId true
    rw [h3]

theorem CutScan.badChunk {opt : IndexOptions} {infos : List FileInfo} {st st' : ChunkScan} (h : CutScan st st') {z : Chunk}
    (hbad : ¬ badChunk opt infos st z = true) : ¬ Pergrep.badChunk opt infos st' z.cut = true := by
  obtain ⟨⟨h1, h2, h3, h4, h5, h6, h7⟩, hcore, hsize, hext⟩ := badChunk_iff.1 hbad
  refine badChunk_iff.2 ⟨⟨h1, h2, h3, h4, ?_, h6, ?_⟩, Nat.le_refl _, hcore.trans hsize, hcore.trans hext⟩
  · rw [h.nextCore]
    exact h5
  · rw [h.chunks, Ne, List.map_eq_nil_iff, h.previousFile]
    exact h7

theorem ChunksPass.cut {opt : IndexOptions} {infos : List FileInfo} : ∀ {zs : List Chunk} {st st' : ChunkScan},
    CutScan st st' → ChunksPass opt infos st zs → ChunksPass opt infos st' (zs.map Chunk.cut)
  | [], st, st', hc, h => by
    intro fid hfid
    rw [hc.fileSeen, hc.nextCore]
    exact h fid hfid
  | z :: zs, st, st', hc, ⟨hbad, hleaves, hrest⟩ => by
    refine ⟨hc.badChunk hbad, ?_, ChunksPass.cut (hc.advance z) hrest⟩
    unfold LeavesFile
    rw [hc.chunks, Ne, List.map_eq_nil_iff, hc.previousFile, hc.nextCore]
    exact hleaves

theorem checkPosDescs_cut (posBlock size : Nat) : ∀ (l : List (PosDesc × Chunk)) (posEnd : Nat),
    checkPosDescs posBlock size (l.map (Prod.map id Chunk.cut)) posEnd = checkPosDescs posBlock size l posEnd
  | [], _ => rfl
  | (d, z) :: l, posEnd => by
    rw [List.map_cons, checkPosDescs.eq_def, checkPosDescs.eq_def posBlock size ((d, z) :: l)]
    change (if badPosDesc posBlock size posEnd z d = true then _ else _) = _
    rw [id, checkPosDescs_cut posBlock size l]

/-- **An index with its chunks cut is still fit for a snapshot**, when no chunk changes its class. -/
theorem Stored.cut {I : IndexData} (hI : Stored I) (hlg : ∀ z ∈ I.chunks, chunkLg z.cut = chunkLg z) : Stored I.cut := by
  have hclasses : (I.chunks.map Chunk.cut).map chunkLg = I.chunks.map chunkLg := by
    rw [List.map_map]
    exact List.map_congr_left hlg
  have hlen : (I.chunks.map Chunk.cut).length = I.chunks.length := List.length_map _
  refine ⟨⟨hI.sizes, hI.total, hI.corpus, hI.byteFreq, hI.qgramFreq, hI.qgramFreq_zero⟩, hI.options, hI.posBlock, ?_, ?_,
    hI.groups_length, ?_, ?_, ?_, hI.desc_fits, ?_, hI.bytes⟩
  · intro hfiles z hz
    obtain ⟨y, hy, rfl⟩ := List.mem_map.1 hz
    obtain ⟨h1, h2, h3, -⟩ := hI.chunk_fits hfiles y hy
    exact ⟨h1, h2, h3, h3⟩
  · exact hI.chunks_pass.cut ⟨rfl, rfl, rfl, rfl⟩
  · intro hsmall
    obtain ⟨hfits, hnodup, hfresh⟩ := hI.groups_pass (hlen ▸ hsmall)
    refine ⟨fun g hg => ⟨(hfits g hg).1, ?_⟩, hnodup, hfresh⟩
    obtain ⟨h1, h2, h3, h4, h5⟩ := (hfits g hg).2
    refine ⟨h1, h2, h3, h4, fun x hx => ?_⟩
    change x < (I.chunks.map Chunk.cut).length ∧ ((I.chunks.map Chunk.cut).map chunkLg).getD x 0 = g.lg
    rw [hlen, hclasses]
    exact h5 x hx
  · intro ci hci
    exact hI.groups_all ci (hlen ▸ hci)
  · exact hI.posDesc_length.trans hlen.symm
  · intro hpos
    change checkPosDescs I.posBlock I.pos.length (I.posDesc.zip (I.chunks.map Chunk.cut)) 0 = _
    rw [List.zip_map_right, checkPosDescs_cut]
    exact hI.rows hpos

/-- **A snapshot with its chunks cut is loaded like any other.** -/
theorem load_cut {I : IndexData} (hI : Stored I) (he : I.ephemeral = false)
    (hlg : ∀ z ∈ I.chunks, chunkLg z.cut = chunkLg z) {world : World} {pid : Bytes} {dir : Dir} {file : Place} {J : IndexData}
    (hload : load world (saved world pid dir file I {}) file = .ok J) :
    load world (saved world pid dir file I.cut {}) file = .ok (restored world I.cut) := by
  have hlen : (I.chunks.map Chunk.cut).length = I.chunks.length := List.length_map _
  obtain ⟨⟨h1, h2, h3, h4, h5⟩, -⟩ := (load_saved hI he (save_eq hI he world pid dir file)).1 hload
  refine (load_saved (hI.cut hlg) he (save_eq (hI.cut hlg) he world pid dir file)).2 ⟨⟨h1, ?_, ?_, h4, h5⟩, rfl⟩
  · have hsize : snapshotSize I.cut = snapshotSize I := by
      unfold snapshotSize
      change _ + (8 + 28 * (I.chunks.map Chunk.cut).length) + _ + _ + _ + _ + _ = _
      rw [hlen]
      rfl
    rw [hsize]
    exact h2
  · exact ⟨h3.finite, h3.root, h3.files, h3.paths, hlen.le.trans h3.chunks, h3.groups, h3.pos⟩

theorem build_load_cut {t : Tree} {opt : IndexOptions} {I : IndexData} (hI : build t opt = .ok I) (hposix : t.Posix)
    (hpersist : opt.persistCorpus = true) (hlimits : snapshotSize I ≤ maxSnapshotBytes ∧ WithinLimits I)
    (hlg : ∀ z ∈ I.chunks, chunkLg z.cut = chunkLg z) :
    ∃ dir, loadImpl (onlyTree t) dir { name := [105] } {} false = .ok (restored (onlyTree t) I.cut) := by
  have he := (build_built hI).2.2.2.2.1
  have hopt := (build_built hI).2.2.2.1
  have hcontents := contentsOf_unchanged hposix opt hI (onlyTree_root t)
  exact ⟨_, load_cut (build_stored hI) he hlg ((load_saved (build_stored hI) he
    (save_eq (build_stored hI) he (onlyTree t) [49] (fun _ => none) { name := [105] })).2
      ⟨⟨rfl, hlimits.1, hlimits.2, Or.inl (by rw [hopt]; exact hpersist), _, hcontents⟩, rfl⟩)⟩

def needleTree : Tree where
  dirs := [[⟨[97], false, .file ⟨List.replicate 60 0x2E ++ [0x6E, 0x65, 0x65, 0x64, 0x6C, 0x65] ++ List.replicate 4 0x2E, 1, true⟩⟩]]
  names_ok := by decide
  names_nodup := by decide

def needleOptions : IndexOptions :=
  { chunkBytes := 64, chunkOverlap := 32, positionalBlockBytes := 16, persistCorpus := true }

/-- Saved with its chunks cut, the index of the file is loaded, and the search no longer finds `needle`, which starts in the
core of the first chunk. -/
theorem not_loadImpl_overlap : ∃ dir I z, loadImpl (onlyTree needleTree) dir { name := [105] } {} false = .ok I ∧
    z ∈ I.chunks ∧ z.extEnd ≠ min (I.data z.fileId).length (z.coreEnd + I.opt.chunkOverlap) ∧
      z.coreBegin ≤ 60 ∧ 60 < z.coreEnd ∧ [0x6E, 0x65, 0x65, 0x64, 0x6C, 0x65].length ≤ I.opt.chunkOverlap ∧
      occursAt (I.data z.fileId) [0x6E, 0x65, 0x65, 0x64, 0x6C, 0x65] 60 = true ∧
      z.extEnd < 60 + [0x6E, 0x65, 0x65, 0x64, 0x6C, 0x65].length ∧
      find asciiIcu I (fun _ _ => none) { expr := [0x6E, 0x65, 0x65, 0x64, 0x6C, 0x65], opt := { kind := .fixed } } {} = .ok [] := by
  obtain ⟨I, hI⟩ := (@build_ok needleTree needleOptions (by decide)).2 (by decide)
  obtain ⟨hbuilt, hcontent, -, hopt, -, -⟩ := build_built hI
  have hchunks : I.chunks = [{ fileId := 0, coreBegin := 0, coreEnd := 64, extEnd := 70 },
      { fileId := 0, coreBegin := 64, coreEnd := 70, extEnd := 70 }] := by
    rw [hbuilt.chunks_eq, hcontent, hopt]
    decide +kernel
  have hlg : ∀ z ∈ I.chunks, chunkLg z.cut = chunkLg z := by
    rw [hchunks]
    decide
  have hcontents := contentsOf_unchanged (by unfold Tree.Posix; decide) needleOptions hI (onlyTree_root needleTree)
  obtain ⟨dir, hload⟩ := build_load_cut hI (by unfold Tree.Posix; decide) rfl (limits_of_small hI (by decide) (by decide)
    (by decide) (by decide) (by decide +kernel) (by decide +kernel)) hlg
  obtain ⟨hloaded', hopt', hchunks'⟩ := @restored_geometry (onlyTree needleTree) I.cut I.loaded hcontents
  have hfind : ((build needleTree needleOptions).toOption.map (fun I => find asciiIcu (restored (onlyTree needleTree) I.cut)
      (fun _ _ => none) { expr := [0x6E, 0x65, 0x65, 0x64, 0x6C, 0x65], opt := { kind := .fixed } } {})) = some (.ok []) := by
    decide +kernel
  rw [hI] at hfind
  have hoverlap : (restored (onlyTree needleTree) I.cut).opt.chunkOverlap = 32 := by
    rw [hopt']
    change I.opt.chunkOverlap = 32
    rw [hopt]
    rfl
  have hdata : (restored (onlyTree needleTree) I.cut).data 0 =
      List.replicate 60 0x2E ++ [0x6E, 0x65, 0x65, 0x64, 0x6C, 0x65] ++ List.replicate 4 0x2E := by
    rw [IndexData.data, hloaded', hcontent]
    decide +kernel
  refine ⟨dir, _, { fileId := 0, coreBegin := 0, coreEnd := 64, extEnd := 64 }, hload, ?_, ?_, by decide, by decide, ?_, ?_,
    by decide, Option.some.inj hfind⟩
  · rw [hchunks']
    change _ ∈ I.chunks.map Chunk.cut
    rw [hchunks]
    exact List.mem_cons_self
  · rw [hoverlap, hdata]
    decide
  · rw [hoverlap]
    decide
  · rw [hdata]
    decide +kernel

end Pergrep
