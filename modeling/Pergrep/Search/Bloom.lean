import Pergrep.Index.Fresh
import Pergrep.Search.Scope
/-!
# Bloom — what the filters say of a literal

The filters leave no chunk out that has the literal, and no block, whatever the budget of the planner; the candidates they
leave stand in the order of the files, the chunks and the blocks (`Built.no_false_negatives`).
-/
namespace Pergrep

open Substr BitWords

/-! ## The order of the candidates -/

def BlockBefore (I : IndexData) (a b : Nat × Nat) : Prop :=
  fileOf I a.1 < fileOf I b.1 ∨ (fileOf I a.1 = fileOf I b.1 ∧ (a.1 < b.1 ∨ (a.1 = b.1 ∧ a.2 < b.2)))

theorem BlockBefore.ne {I : IndexData} {a b : Nat × Nat} (h : BlockBefore I a b) : a ≠ b := by
  rintro rfl
  unfold BlockBefore at h
  omega

section
variable {I : IndexData} (hI : Built I)
include hI

theorem Built.fileOf_mono {a b : Nat} (hb : b < I.chunks.length) (hab : a < b) : fileOf I a ≤ fileOf I b := by
  have ha : a < I.chunks.length := hab.trans hb
  have hsorted := List.pairwise_iff_getElem.1 hI.laid.chunks_sorted a b ha hb hab
  rw [fileOf, fileOf, List.getElem?_eq_getElem ha, List.getElem?_eq_getElem hb]
  change I.chunks[a].fileId ≤ I.chunks[b].fileId
  omega

theorem Built.chunkCandidates_ordered (scope : List Nat) (lit : Bytes) :
    (chunkCandidates I scope lit).Pairwise (fun a b => fileOf I a ≤ fileOf I b ∧ a < b) := by
  refine (hI.laid.chunkCandidates_sorted scope lit).imp_of_mem (fun {a b} _ hb hab => ⟨?_, hab⟩)
  exact hI.fileOf_mono (chunkAllowed_lt (hI.laid.chunkCandidates_allowed hb)) hab

theorem Built.chunkBlocks_ordered (hs : List Nat) {ci : Nat} (hci : ci < I.chunks.length) :
    (chunkBlocks I hs ci).Pairwise (fun a b => a.2 < b.2) ∧ ∀ b ∈ chunkBlocks I hs ci, b.1 = ci := by
  obtain ⟨off, hd⟩ := hI.posDesc_of (List.getElem?_eq_getElem hci)
  rw [chunkBlocks_eq I hs hd, List.pairwise_map]
  refine ⟨List.Pairwise.filter _ List.pairwise_lt_range, fun b hb => ?_⟩
  obtain ⟨bi, -, rfl⟩ := List.mem_map.1 hb
  rfl

theorem Built.fixedCandidateBlocks_ordered (scope : List Nat) {lit : Bytes} (hlit : lit ≠ []) :
    (fixedCandidateBlocks I scope lit).Pairwise (BlockBefore I) := by
  have hempty : lit.isEmpty = false := by simpa using hlit
  unfold fixedCandidateBlocks
  rw [hempty, if_neg Bool.false_ne_true, List.pairwise_flatMap]
  constructor
  · intro ci hci
    obtain ⟨hsorted, hfst⟩ := hI.chunkBlocks_ordered (plannedHashes I lit) (chunkAllowed_lt (hI.laid.chunkCandidates_allowed hci))
    refine hsorted.imp_of_mem (fun {a b} ha hb hab => ?_)
    rw [BlockBefore, hfst a ha, hfst b hb]
    exact Or.inr ⟨rfl, Or.inr ⟨rfl, hab⟩⟩
  · refine (hI.chunkCandidates_ordered scope lit).imp_of_mem (fun {ci cj} hci hcj h a ha b hb => ?_)
    obtain ⟨-, hfst⟩ := hI.chunkBlocks_ordered (plannedHashes I lit) (chunkAllowed_lt (hI.laid.chunkCandidates_allowed hci))
    obtain ⟨-, hfst'⟩ := hI.chunkBlocks_ordered (plannedHashes I lit) (chunkAllowed_lt (hI.laid.chunkCandidates_allowed hcj))
    rw [BlockBefore, hfst a ha, hfst' b hb]
    rcases Nat.lt_or_eq_of_le h.1 with hlt | heq
    · exact Or.inl hlt
    · exact Or.inr ⟨heq, Or.inl h.2⟩

/-! ## No false negatives -/

theorem Built.chunk_not_missed {lit : Bytes} (hlit : lit ≠ []) (hlen : lit.length ≤ I.opt.chunkOverlap) {scope : List Nat}
    {ci x : Nat} {z : Chunk} (hz : I.chunks[ci]? = some z) (hscope : allows I scope z.fileId = true)
    (hcore : z.coreBegin ≤ x ∧ x < z.coreEnd) (ho : occursAt (I.data z.fileId) lit x = true) :
    ci ∈ chunkCandidates I scope lit := by
  have hview : occursAt (I.view z) lit (x - z.coreBegin) = true := by
    rw [IndexData.view, occursAt_slice hlit, show z.coreBegin + (x - z.coreBegin) = x by omega]
    exact ⟨ho, hI.in_view hlen (List.mem_of_getElem? hz) hcore.2 ho⟩
  exact hI.chunkCandidates_complete hz (by rw [chunkAllowed_eq hz]; exact hscope) hview

theorem Built.block_not_missed {lit : Bytes} (hlit : lit ≠ []) (hlen : lit.length ≤ I.opt.chunkOverlap)
    (hshort : lit.length ≤ 64) {scope : List Nat} {ci bi x : Nat} {z : Chunk} (hz : I.chunks[ci]? = some z)
    (hscope : allows I scope z.fileId = true) (hcore : z.coreBegin ≤ x ∧ x < z.coreEnd)
    (hblock : z.coreBegin + bi * I.posBlock ≤ x ∧ x < z.coreBegin + (bi + 1) * I.posBlock)
    (ho : occursAt (I.data z.fileId) lit x = true) : (ci, bi) ∈ fixedCandidateBlocks I scope lit := by
  have hempty : lit.isEmpty = false := by simpa using hlit
  have hview := hI.in_view hlen (List.mem_of_getElem? hz) hcore.2 ho
  have hpos := List.length_pos_iff.2 hlit
  obtain ⟨off, hd⟩ := hI.posDesc_of hz
  -- the core has the block
  have hbi : bi < (posDescOf I off z).blocks := by
    have hpb := hI.posBlock_pos
    refine Nat.lt_of_lt_of_le ?_ (Nat.le_max_right _ _)
    rw [Nat.lt_iff_add_one_le, Nat.le_div_iff_mul_le hpb, Nat.succ_mul]
    omega
  rw [Nat.succ_mul] at hblock
  -- the block shows the literal, so it has its windows
  have hwindow : occursAt (slice (I.data z.fileId) (z.coreBegin + bi * I.posBlock)
      (z.coreBegin + min (z.extEnd - z.coreBegin) (bi * I.posBlock + I.posBlock + positionalOverlap))) lit
      (x - (z.coreBegin + bi * I.posBlock)) = true := by
    rw [occursAt_slice hlit, show z.coreBegin + bi * I.posBlock + (x - (z.coreBegin + bi * I.posBlock)) = x by omega,
      positionalOverlap]
    exact ⟨ho, by omega⟩
  unfold fixedCandidateBlocks
  rw [hempty, if_neg Bool.false_ne_true]
  exact List.mem_flatMap.2 ⟨ci, hI.chunk_not_missed hlit hlen hz hscope hcore ho,
    hI.chunkBlocks_complete _ hz hd hbi (by omega) (fun h hh => qgrams_of_occursAt hwindow (mem_plannedHashes hh))⟩

/-- **The filters have no false negatives.**  A literal that starts in the core of a chunk, and in that of one of its blocks,
has the chunk among the candidates, and a short one the block; the candidates are in order, and none comes twice. -/
theorem Built.no_false_negatives (scope : List Nat) {lit : Bytes} (hlong : 4 ≤ lit.length)
    (hlen : lit.length ≤ I.opt.chunkOverlap) :
    (∀ (ci x : Nat) (z : Chunk), I.chunks[ci]? = some z → allows I scope z.fileId = true →
      z.coreBegin ≤ x ∧ x < z.coreEnd → occursAt (I.data z.fileId) lit x = true →
        ci ∈ chunkCandidates I scope lit ∧
        (lit.length ≤ 64 → ∀ bi, z.coreBegin + bi * I.posBlock ≤ x ∧ x < z.coreBegin + (bi + 1) * I.posBlock →
          (ci, bi) ∈ fixedCandidateBlocks I scope lit)) ∧
      (chunkCandidates I scope lit).Pairwise (fun a b => fileOf I a ≤ fileOf I b ∧ a < b) ∧
      (chunkCandidates I scope lit).Nodup ∧
      (fixedCandidateBlocks I scope lit).Pairwise (BlockBefore I) ∧ (fixedCandidateBlocks I scope lit).Nodup := by
  have hlit : lit ≠ [] := List.length_pos_iff.1 (by omega)
  have hblocks := hI.fixedCandidateBlocks_ordered scope hlit
  refine ⟨fun ci x z hz hscope hcore ho => ⟨hI.chunk_not_missed hlit hlen hz hscope hcore ho, fun hshort bi hblock =>
    hI.block_not_missed hlit hlen hshort hz hscope hcore hblock ho⟩, hI.chunkCandidates_ordered scope lit,
    (hI.chunkCandidates_ordered scope lit).imp (fun h => Nat.ne_of_lt h.2), hblocks, hblocks.imp BlockBefore.ne⟩

end

/-- `aaaa` starts in the first chunk of its file and ends in the second. -/
theorem no_false_negatives_straddling : ∃ I, fromDocuments straddlingDocuments smallChunks = .ok I ∧
    1 ∈ chunkCandidates I [] [0x61, 0x61, 0x61, 0x61] ∧ (1, 3) ∈ fixedCandidateBlocks I [] [0x61, 0x61, 0x61, 0x61] := by
  obtain ⟨I, h⟩ := straddling_built
  obtain ⟨hI, hloaded, -, hopt⟩ := fromDocuments_built h
  have hblock : I.posBlock = 16 := (fromDocuments_frame h).2
  have hz : I.chunks[1]? = some { fileId := 1, coreBegin := 0, coreEnd := 64, extEnd := 67 } := by
    rw [hI.chunks_eq, hloaded, hopt]
    decide +kernel
  have hfound : occursAt (I.data 1) [0x61, 0x61, 0x61, 0x61] 62 = true := by
    rw [IndexData.data, hloaded]
    decide +kernel
  obtain ⟨hchunk, hblocks⟩ := (@Built.no_false_negatives I hI [] [0x61, 0x61, 0x61, 0x61] (by decide)
    (by rw [hopt]; decide)).1 1 62 _ hz rfl (by decide) hfound
  exact ⟨I, h, hchunk, hblocks (by decide) 3 (by rw [hblock]; decide)⟩

end Pergrep
