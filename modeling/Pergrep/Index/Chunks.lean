import Pergrep.Index.Build
import Pergrep.Lib.Greedy
import Pergrep.Lib.PathOrder
import Pergrep.Lib.Throw
/-!
# Chunks — the geometry of a built index

The cores of a file's chunks tile it (`Tiles`), so the occurrences of a literal are those of the cores, one after
another (`Tiles.flatMap_occs`).  `Built` is the invariant of an index made from documents (`fromDocuments_built`), and
`Laid` what is left of it where only the layout counts: the chunks lie in their files and stand by file, then by offset
(`Laid.chunks_sorted`).
-/
namespace Pergrep

open Substr Throw

/-! ## Tilings -/

/-- The chunks' cores tile `[b, n)`, and each chunk shows `overlap` bytes past its core. -/
def Tiles (overlap fid n : Nat) : Nat → List Chunk → Prop
  | b, [] => n ≤ b
  | b, z :: zs => z.fileId = fid ∧ z.coreBegin = b ∧ b ≤ z.coreEnd ∧ z.coreEnd ≤ n ∧
      z.extEnd = min n (z.coreEnd + overlap) ∧ Tiles overlap fid n z.coreEnd zs

theorem chunkLoop_stop (opt : IndexOptions) (fid : Nat) {n b : Nat} (h : n ≤ b) : ∀ fuel, chunkLoop opt fid n fuel b = []
  | 0 => rfl
  | fuel + 1 => by rw [chunkLoop, if_neg (by omega)]

/-- **The loop tiles what is left of the file.** -/
theorem chunkLoop_tiles {opt : IndexOptions} (hpos : 0 < opt.chunkBytes) (fid n : Nat) : ∀ (fuel b : Nat), n - b ≤ fuel →
    Tiles opt.chunkOverlap fid n b (chunkLoop opt fid n fuel b)
  | 0, b, h => show n ≤ b by omega
  | fuel + 1, b, h => by
    rw [chunkLoop]
    by_cases hb : b < n
    · rw [if_pos hb]
      refine ⟨rfl, rfl, by dsimp only; omega, by dsimp only; omega, rfl, ?_⟩
      rcases Nat.le_total (b + opt.chunkBytes) n with hin | hin
      · rw [Nat.min_eq_right hin]
        exact chunkLoop_tiles hpos fid n fuel _ (by dsimp only; omega)
      · -- the last chunk: the loop goes past the end and stops
        rw [Nat.min_eq_left hin, chunkLoop_stop opt fid hin]
        exact Nat.le_refl n
    · rw [if_neg hb]
      exact Nat.le_of_not_lt hb

theorem fileChunks_tiles {opt : IndexOptions} (hpos : 0 < opt.chunkBytes) (fid n : Nat) :
    Tiles opt.chunkOverlap fid n 0 (fileChunks opt fid n) := by
  unfold fileChunks
  split
  · rename_i hn
    subst hn
    exact ⟨rfl, rfl, Nat.le_refl 0, Nat.le_refl 0, by simp, Nat.le_refl 0⟩
  · exact chunkLoop_tiles hpos fid n n 0 (by omega)

theorem Tiles.mem {overlap fid n : Nat} : ∀ {zs : List Chunk} {b : Nat}, Tiles overlap fid n b zs → ∀ {z}, z ∈ zs →
    z.fileId = fid ∧ b ≤ z.coreBegin ∧ z.coreBegin ≤ z.coreEnd ∧ z.coreEnd ≤ n ∧ z.extEnd = min n (z.coreEnd + overlap)
  | [], _, _, _, hz => absurd hz List.not_mem_nil
  | y :: ys, b, h, z, hz => by
    obtain ⟨h1, h2, h3, h4, h5, h6⟩ := h
    rcases List.mem_cons.1 hz with rfl | hz
    · exact ⟨h1, by omega, by omega, h4, h5⟩
    · obtain ⟨i1, i2, i3⟩ := h6.mem hz
      exact ⟨i1, by omega, i3⟩

theorem Tiles.sorted {overlap fid n : Nat} : ∀ {zs : List Chunk} {b : Nat}, Tiles overlap fid n b zs →
    zs.Pairwise (fun a c => a.coreEnd ≤ c.coreBegin)
  | [], _, _ => List.Pairwise.nil
  | y :: ys, b, h => by
    obtain ⟨h1, h2, h3, h4, h5, h6⟩ := h
    refine List.pairwise_cons.2 ⟨fun c hc => ?_, h6.sorted⟩
    have := (h6.mem hc).2.1
    omega

/-- **The occurrences of a file are those of the cores.** -/
theorem Tiles.flatMap_occs {overlap fid n : Nat} (s q : Bytes) : ∀ {zs : List Chunk} {b : Nat},
    Tiles overlap fid n b zs → b ≤ n → zs.flatMap (fun z => occs s q z.coreBegin z.coreEnd) = occs s q b n
  | [], b, h, hb => (occs_eq_nil (show n ≤ b from h)).symm
  | y :: ys, b, h, hb => by
    obtain ⟨h1, h2, h3, h4, h5, h6⟩ := h
    rw [List.flatMap_cons, h6.flatMap_occs s q h4, h2, occs_append s q h3 h4]

/-! ## All chunks -/

theorem chunksFrom_eq (opt : IndexOptions) : ∀ (ss : List Bytes) (fid : Nat),
    chunksFrom opt fid ss = (List.range ss.length).flatMap (fun k => fileChunks opt (fid + k) (ss.getD k []).length)
  | [], _ => rfl
  | s :: ss, fid => by
    rw [chunksFrom, chunksFrom_eq opt ss, List.length_cons, List.range_succ_eq_map, List.flatMap_cons, List.flatMap_map]
    simp only [Nat.add_zero, List.getD_cons_zero, List.getD_cons_succ, Nat.succ_eq_add_one, Nat.add_assoc, Nat.add_comm 1]

/-- What holds of an index made from documents. -/
structure Built (I : IndexData) : Prop where
  chunkBytes_pos : 0 < I.opt.chunkBytes
  posBlock_pos : 0 < I.posBlock
  infos_length : I.infos.length = I.loaded.length
  chunks_eq : I.chunks = chunksFrom I.opt 0 I.loaded
  groups_eq : I.groups = buildGroups I
  posDesc_eq : I.posDesc = (posDescs I 0 I.chunks).1
  pos_eq : I.pos = buildPos I I.posDesc (posDescs I 0 I.chunks).2

/-- The layout of an index: every chunk lies in its file, and the cores stand by file, then by offset, apart. -/
structure Laid (I : IndexData) : Prop where
  infos_length : I.infos.length = I.loaded.length
  chunk : ∀ z ∈ I.chunks, z.fileId < I.loaded.length ∧ z.coreBegin ≤ z.coreEnd ∧ z.coreEnd ≤ z.extEnd ∧
    z.extEnd ≤ (I.data z.fileId).length
  cores : I.chunks.Pairwise (fun a c => a.fileId < c.fileId ∨ (a.fileId = c.fileId ∧ a.coreEnd ≤ c.coreBegin))

/-- **The chunks stand by file, then by offset.** -/
theorem Laid.chunks_sorted {I : IndexData} (hI : Laid I) :
    I.chunks.Pairwise (fun a c => a.fileId < c.fileId ∨ (a.fileId = c.fileId ∧ a.coreBegin ≤ c.coreBegin)) :=
  hI.cores.imp_of_mem (fun ha _ h => h.imp id (fun h => ⟨h.1, (hI.chunk _ ha).2.1.trans h.2⟩))

def IndexData.chunksOf (I : IndexData) (fid : Nat) : List Chunk := fileChunks I.opt fid (I.data fid).length

/-- A chunk that reaches past its core by the overlap holds a literal no longer, wherever in the core it starts. -/
theorem ends_in_view {I : IndexData} {z : Chunk} (hext : z.extEnd = min (I.data z.fileId).length (z.coreEnd + I.opt.chunkOverlap))
    {lit : Bytes} (hlen : lit.length ≤ I.opt.chunkOverlap) {x : Nat} (hx : x < z.coreEnd)
    (ho : occursAt (I.data z.fileId) lit x = true) : x + lit.length ≤ z.extEnd := by
  have := occursAt_le ho
  omega

section
variable {I : IndexData} (hI : Built I)
include hI

theorem Built.chunks_flatMap : I.chunks = (List.range I.loaded.length).flatMap I.chunksOf := by
  rw [hI.chunks_eq, chunksFrom_eq]
  simp only [Nat.zero_add]
  rfl

theorem Built.tiles (fid : Nat) : Tiles I.opt.chunkOverlap fid (I.data fid).length 0 (I.chunksOf fid) :=
  fileChunks_tiles hI.chunkBytes_pos fid _

theorem Built.chunk {z : Chunk} (hz : z ∈ I.chunks) :
    z.fileId < I.loaded.length ∧ z.coreBegin ≤ z.coreEnd ∧ z.coreEnd ≤ (I.data z.fileId).length ∧
      z.extEnd = min (I.data z.fileId).length (z.coreEnd + I.opt.chunkOverlap) := by
  rw [hI.chunks_flatMap] at hz
  obtain ⟨fid, hfid, hz⟩ := List.mem_flatMap.1 hz
  obtain ⟨rfl, -, h3, h4, h5⟩ := (hI.tiles fid).mem hz
  exact ⟨List.mem_range.1 hfid, h3, h4, h5⟩

theorem Built.in_view {lit : Bytes} (hlen : lit.length ≤ I.opt.chunkOverlap) {z : Chunk} (hz : z ∈ I.chunks) {x : Nat}
    (hx : x < z.coreEnd) (ho : occursAt (I.data z.fileId) lit x = true) : x + lit.length ≤ z.extEnd :=
  ends_in_view (hI.chunk hz).2.2.2 hlen hx ho

/-- **A built index is laid out.** -/
theorem Built.laid : Laid I := by
  refine ⟨hI.infos_length, fun z hz => ?_, ?_⟩
  · obtain ⟨h1, h2, h3, h4⟩ := hI.chunk hz
    exact ⟨h1, h2, by omega, by omega⟩
  · rw [hI.chunks_flatMap, List.pairwise_flatMap]
    constructor
    · intro fid _
      refine (hI.tiles fid).sorted.imp_of_mem (fun ha hc h => Or.inr ⟨?_, h⟩)
      rw [((hI.tiles fid).mem ha).1, ((hI.tiles fid).mem hc).1]
    · refine List.pairwise_lt_range.imp (fun {f g} hfg a ha c hc => Or.inl ?_)
      rw [((hI.tiles f).mem ha).1, ((hI.tiles g).mem hc).1]
      exact hfg

end

/-! ## `from_documents` -/

theorem countChunk_frame (I : IndexData) (ci : Nat) (c : Chunk) :
    ∃ e f g, countChunk I ci c = { I with exactQgrams := e, hashChunkFreq := f, hashChunkIds := g } := by
  unfold countChunk
  simp only
  split
  · exact ⟨_, _, _, rfl⟩
  · exact ⟨_, _, _, rfl⟩

theorem countChunks_frame : ∀ (cs : List (Chunk × Nat)) (I : IndexData),
    ∃ e f g, cs.foldl (fun I c => countChunk I c.2 c.1) I = { I with exactQgrams := e, hashChunkFreq := f, hashChunkIds := g }
  | [], I => ⟨_, _, _, rfl⟩
  | c :: cs, I => by
    obtain ⟨e, f, g, h⟩ := countChunk_frame I c.2 c.1
    obtain ⟨e', f', g', h'⟩ := countChunks_frame cs (countChunk I c.2 c.1)
    rw [List.foldl_cons, h', h]
    exact ⟨e', f', g', rfl⟩

theorem rebuildPlannerStats_frame (I : IndexData) :
    ∃ e f g r, rebuildPlannerStats I =
      { I with exactQgrams := e, hashChunkFreq := f, hashChunkIds := g, plannerStatsReady := r } := by
  unfold rebuildPlannerStats
  simp only
  split
  · exact ⟨_, _, _, _, rfl⟩
  · split
    · exact ⟨_, _, _, _, rfl⟩
    · rename_i t _
      obtain ⟨e, f, g, h⟩ := countChunks_frame I.chunks.zipIdx
        { I with exactQgrams := t, hashChunkFreq := fun _ => 0, hashChunkIds := fun _ => [], plannerStatsReady := false }
      exact ⟨e, f, g, true, by rw [h]⟩

theorem posDescs_congr {I J : IndexData} (h1 : I.opt = J.opt) (h2 : I.posBlock = J.posBlock) : ∀ (zs : List Chunk) (total : Nat),
    posDescs I total zs = posDescs J total zs
  | [], _ => rfl
  | z :: zs, total => by
    have hz : posDescOf I total z = posDescOf J total z := by rw [posDescOf, posDescOf, h1, h2]
    rw [posDescs, posDescs, hz, posDescs_congr h1 h2 zs]

theorem materializeIndexFilters_built {I : IndexData} (h1 : 0 < I.opt.chunkBytes) (h2 : 0 < I.posBlock)
    (h3 : I.infos.length = I.loaded.length) :
    Built (materializeIndexFilters I) ∧ (materializeIndexFilters I).loaded = I.loaded ∧
      (materializeIndexFilters I).infos = I.infos ∧ (materializeIndexFilters I).opt = I.opt := by
  obtain ⟨e, f, g, r, h⟩ := rebuildPlannerStats_frame { I with chunks := chunksFrom I.opt 0 I.loaded }
  unfold materializeIndexFilters
  dsimp only
  generalize rebuildPlannerStats { I with chunks := chunksFrom I.opt 0 I.loaded } = J at h ⊢
  obtain ⟨ho, hp, hi, hl, hc⟩ : J.opt = I.opt ∧ J.posBlock = I.posBlock ∧ J.infos = I.infos ∧ J.loaded = I.loaded ∧
      J.chunks = chunksFrom I.opt 0 I.loaded := by
    rw [h]
    exact ⟨rfl, rfl, rfl, rfl, rfl⟩
  refine ⟨⟨by rw [ho]; exact h1, by rw [hp]; exact h2, by rw [hi, hl]; exact h3, by rw [hc, ho, hl], rfl, ?_, ?_⟩, hl, hi, ho⟩
  · refine congrArg Prod.fst (posDescs_congr ?_ ?_ J.chunks 0)
    · rfl
    · rfl
  · refine congrArg (buildPos { J with groups := buildGroups J } _) (congrArg Prod.snd (posDescs_congr ?_ ?_ J.chunks 0))
    · rfl
    · rfl

theorem materializeIndexFilters_frame (I : IndexData) :
    (materializeIndexFilters I).segmentCount = I.segmentCount ∧ (materializeIndexFilters I).ephemeral = I.ephemeral ∧
      (materializeIndexFilters I).root = I.root ∧ (materializeIndexFilters I).posBlock = I.posBlock := by
  obtain ⟨e, f, g, r, h⟩ := rebuildPlannerStats_frame { I with chunks := chunksFrom I.opt 0 I.loaded }
  unfold materializeIndexFilters
  dsimp only
  rw [h]
  exact ⟨rfl, rfl, rfl, rfl⟩

/-- **Files join in order**; nothing else of the index changes but its totals. -/
theorem foldlM_pushFile : ∀ (fs : List (FileInfo × Bytes)) {I J : IndexData},
    fs.foldlM (fun I f => pushFile I f.1 f.2) I = .ok J →
      J.loaded = I.loaded ++ fs.map Prod.snd ∧ J.infos = I.infos ++ fs.map Prod.fst ∧ J.opt = I.opt ∧
        J.posBlock = I.posBlock ∧ J.segmentCount = I.segmentCount ∧ J.ephemeral = I.ephemeral ∧ J.root = I.root
  | [], I, J, h => by
    cases h
    simp
  | f :: fs, I, J, h => by
    rw [List.foldlM_cons, pushFile] at h
    split at h
    · cases h
    · obtain ⟨h1, h2, h3⟩ := foldlM_pushFile fs h
      refine ⟨?_, ?_, h3⟩
      · rw [h1, List.map_cons, List.append_assoc, List.singleton_append]
      · rw [h2, List.map_cons, List.append_assoc, List.singleton_append]

/-- **They all join when the corpus stays within its limit.** -/
theorem foldlM_pushFile_ok : ∀ (fs : List (FileInfo × Bytes)) {I : IndexData}, I.corpBytes ≤ maxCorpusBytes →
    ((∃ J, fs.foldlM (fun I f => pushFile I f.1 f.2) I = .ok J) ↔
      I.corpBytes + (fs.map (fun f => f.2.length)).sum ≤ maxCorpusBytes)
  | [], I, hI => by
    simp only [List.map_nil, List.sum_nil, Nat.add_zero, hI, iff_true]
    exact ⟨I, rfl⟩
  | f :: fs, I, hI => by
    rw [List.foldlM_cons, pushFile, List.map_cons, List.sum_cons, min_eq_left hI]
    by_cases hf : maxCorpusBytes - I.corpBytes < f.2.length
    · rw [if_pos hf]
      constructor
      · rintro ⟨J, hJ⟩
        cases hJ
      · omega
    · rw [if_neg hf, ← Nat.add_assoc]
      exact foldlM_pushFile_ok fs (by dsimp only; omega)

theorem foldlM_addDocument (ds : List Document) (I : IndexData) :
    ds.foldlM addDocument I = (ds.map (fun d => (fileInfo d, d.content))).foldlM (fun I f => pushFile I f.1 f.2) I := by
  rw [List.foldlM_map]
  rfl

theorem validateIndexOptions_default : validateIndexOptions {} = .ok () := by decide

theorem validateIndexOptions_ok {opt : IndexOptions} (h : validateIndexOptions opt = .ok ()) :
    (64 ≤ opt.chunkBytes ∧ opt.chunkBytes ≤ 2 ^ 30) ∧ (16 ≤ opt.positionalBlockBytes ∧ opt.positionalBlockBytes ≤ 2 ^ 20) ∧
      opt.chunkOverlap ≤ opt.chunkBytes / 2 ∧ opt.plannedQgrams ≤ 64 ∧ opt.positionalBudgetRatio.inRange = true := by
  unfold validateIndexOptions at h
  split at h
  · cases h
  split at h
  · cases h
  split at h
  · cases h
  split at h
  · cases h
  split at h
  · cases h
  · rename_i h1 h2 h3 h4 h5
    exact ⟨by omega, by omega, by omega, by omega, by simpa using h5⟩

theorem byPath_perm (documents : List Document) : (byPath documents).Perm documents := List.perm_insertionSort _ _

theorem byPath_sorted (documents : List Document) : ((byPath documents).map Document.path).Pairwise (· ≤ ·) :=
  PathOrder.insertionSort_key_sorted Document.path documents

/-- **An index made from documents**: its files are the documents, by path. -/
theorem fromDocuments_built {documents : List Document} {opt : IndexOptions} {I : IndexData}
    (h : fromDocuments documents opt = .ok I) :
    Built I ∧ I.loaded = (byPath documents).map Document.content ∧ I.infos = (byPath documents).map fileInfo ∧
      I.opt = opt := by
  obtain ⟨u, hv, h⟩ := bind_ok h
  obtain ⟨J, hJ, h⟩ := bind_ok h
  cases h
  rw [foldlM_addDocument] at hJ
  obtain ⟨h1, h2, h3, h4, -⟩ := foldlM_pushFile _ hJ
  rw [List.map_map] at h1 h2
  obtain ⟨⟨p1, -⟩, ⟨p2, -⟩, -⟩ := validateIndexOptions_ok hv
  obtain ⟨hb, e1, e2, e3⟩ := materializeIndexFilters_built (I := J) (by rw [h3]; exact Nat.lt_of_lt_of_le (by decide) p1)
    (by rw [h4]; exact Nat.lt_of_lt_of_le (by decide) p2)
    (by rw [h1, h2]; simp)
  exact ⟨hb, by rw [e1, h1]; rfl, by rw [e2, h2]; rfl, by rw [e3, h3]⟩

/-- **An index is made unless the corpus is too big.** -/
theorem fromDocuments_ok (documents : List Document) {opt : IndexOptions} (hv : validateIndexOptions opt = .ok ()) :
    (∃ I, fromDocuments documents opt = .ok I) ↔ corpusSize documents ≤ maxCorpusBytes := by
  have hsize : corpusSize (byPath documents) = corpusSize documents := ((byPath_perm documents).map _).sum_nat
  have hok := foldlM_pushFile_ok ((byPath documents).map (fun d => (fileInfo d, d.content)))
    (show ({ opt := opt, posBlock := opt.positionalBlockBytes, ephemeral := true } : IndexData).corpBytes ≤ _ from
      Nat.zero_le _)
  rw [← foldlM_addDocument, List.map_map] at hok
  rw [← hsize]
  refine Iff.trans ?_ (hok.trans (by rw [Nat.zero_add]; rfl))
  rw [fromDocuments, hv]
  constructor
  · rintro ⟨I, h⟩
    obtain ⟨J, hJ, -⟩ := bind_ok (x := (byPath documents).foldlM addDocument _) h
    exact ⟨J, hJ⟩
  · rintro ⟨J, hJ⟩
    refine ⟨materializeIndexFilters J, ?_⟩
    rw [hJ]
    rfl

theorem fromDocuments_frame {documents : List Document} {opt : IndexOptions} {I : IndexData}
    (h : fromDocuments documents opt = .ok I) : I.segmentCount = 0 ∧ I.posBlock = opt.positionalBlockBytes := by
  obtain ⟨u, -, h⟩ := bind_ok h
  obtain ⟨J, hJ, h⟩ := bind_ok h
  rw [foldlM_addDocument] at hJ
  obtain ⟨-, -, -, hp, hs, -⟩ := foldlM_pushFile _ hJ
  obtain rfl : materializeIndexFilters J = I := Except.ok.inj h
  obtain ⟨e1, -, -, e2⟩ := materializeIndexFilters_frame J
  exact ⟨by rw [e1, hs], by rw [e2, hp]⟩

end Pergrep
