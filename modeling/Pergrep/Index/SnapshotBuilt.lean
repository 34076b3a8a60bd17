import Mathlib.Tactic.IntervalCases
import Pergrep.Index.Fresh
import Pergrep.Index.SnapshotSpec
/-!
# SnapshotBuilt — the tables of a built index as the loader sees them

`Stored` is what holds of an index that `build` returned and that bears on its snapshot: its tables are built, its totals
add up and its frequencies fit their fields (`build_stored`).  Of such an index the chunks, the groups and the positional
descriptors fit their fields and pass the loader's checks.
-/
namespace Pergrep

open BitWords

/-! ## Groups -/

theorem Built.groups_map {I : IndexData} (hI : Built I) : I.groups = (List.range 8).map (groupOf I) := by
  refine List.ext_getElem? (fun k => ?_)
  rw [hI.groups_eq, buildGroups_getElem?, List.getElem?_map]
  split
  · rename_i hk
    rw [List.getElem?_range hk]
    rfl
  · rename_i hk
    rw [List.getElem?_eq_none (by simpa using hk)]
    rfl

theorem groupOf_gids (I : IndexData) (k : Nat) :
    (groupOf I k).gids = (I.chunks.zipIdx.filter (fun c => chunkLg c.1 - 9 == k)).map Prod.snd := by
  rw [groupOf, (Group.addChunks_spec I _ _).2.2.2.1]
  rfl

theorem mem_groupOf_gids {I : IndexData} {k ci : Nat} :
    ci ∈ (groupOf I k).gids ↔ ∃ z, I.chunks[ci]? = some z ∧ chunkLg z - 9 = k := by
  rw [groupOf_gids, List.mem_map]
  constructor
  · rintro ⟨⟨z, i⟩, hz, rfl⟩
    obtain ⟨h1, h2⟩ := List.mem_filter.1 hz
    exact ⟨z, List.mem_zipIdx_iff_getElem?.1 h1, by simpa using h2⟩
  · rintro ⟨z, hz, hk⟩
    exact ⟨(z, ci), List.mem_filter.2 ⟨List.mem_zipIdx_iff_getElem?.2 hz, by simpa using hk⟩, rfl⟩

theorem groupOf_gids_nodup (I : IndexData) (k : Nat) : (groupOf I k).gids.Nodup := by
  rw [groupOf_gids]
  refine List.Nodup.sublist (List.filter_sublist.map _) ?_
  rw [List.zipIdx_map_snd]
  exact List.nodup_range'

theorem groupOf_shape (I : IndexData) {k : Nat} (hk : k < 8) : GroupShape I.chunks (groupOf I k) := by
  have hok := groupOf_ok I hk
  obtain ⟨hlg, -, hwords, -, hbits, -⟩ := Group.addChunks_spec I (I.chunks.zipIdx.filter (fun c => chunkLg c.1 - 9 == k))
    (emptyGroup I.chunks k)
  change (groupOf I k).lg = k + 9 at hlg
  refine ⟨hok.lg_range, hok.m_eq, hok.words_eq, ?_, fun x hx => ?_⟩
  · rw [hlg]
    refine hbits.trans ?_
    rw [show (groupOf I k).words = (emptyGroup I.chunks k).words from hwords]
    simp [emptyGroup]
  · obtain ⟨z, hz, hclass⟩ := mem_groupOf_gids.1 hx
    have hrange := chunkLg_range z
    refine ⟨(List.getElem?_eq_some_iff.1 hz).1, ?_⟩
    rw [List.getD_eq_getElem?_getD, List.getElem?_map, hz, hlg]
    simp only [Option.map_some, Option.getD_some]
    omega

theorem groups_nodup (I : IndexData) : (((List.range 8).map (groupOf I)).flatMap Group.gids).Nodup := by
  rw [List.flatMap_map, List.nodup_flatMap]
  refine ⟨fun k _ => groupOf_gids_nodup I k, List.pairwise_lt_range.imp (fun {j k} hjk x hx hx' => ?_)⟩
  obtain ⟨z, hz, hj⟩ := mem_groupOf_gids.1 hx
  obtain ⟨y, hy, hk⟩ := mem_groupOf_gids.1 hx'
  obtain rfl : z = y := Option.some.inj (hz.symm.trans hy)
  omega

theorem addChunks_bits_lt (I : IndexData) : ∀ (cs : List (Chunk × Nat)) (g : Group), (∀ x ∈ g.bits, x < 2 ^ 64) →
    ∀ x ∈ (g.addChunks I cs).bits, x < 2 ^ 64
  | [], _, h => h
  | c :: cs, g, h => by
    refine addChunks_bits_lt I cs _ (setBits_lt h (fun p hp => ?_))
    obtain ⟨x, -, rfl⟩ := List.mem_map.1 hp
    exact Nat.mod_lt _ (by decide)

theorem groupOf_size (I : IndexData) {k : Nat} (hk : k < 8) : (groupOf I k).gids.length ≤ I.chunks.length ∧
    (groupOf I k).bits.length ≤ 2 ^ 16 * ((I.chunks.length + 63) / 64) := by
  have hs := groupOf_shape I hk
  have hsub : (groupOf I k).gids.length ≤ (List.range I.chunks.length).length :=
    (List.subperm_of_subset (groupOf_gids_nodup I k) (fun x hx => List.mem_range.2 (hs.gids x hx).1)).length_le
  rw [List.length_range] at hsub
  refine ⟨hsub, ?_⟩
  rw [hs.bits, hs.words]
  exact Nat.mul_le_mul (Nat.pow_le_pow_right (by decide) hs.lg.2) (Nat.div_le_div_right (by omega))

section
variable {I : IndexData} (hI : Built I)
include hI

/-- **The groups fit their fields and pass.** -/
theorem Built.groups_pass (hsmall : I.chunks.length < 2 ^ 32) : GroupsPass I.chunks {} I.groups := by
  rw [hI.groups_map]
  refine ⟨fun g hg => ?_, groups_nodup I, fun x _ => rfl⟩
  obtain ⟨k, hk, rfl⟩ := List.mem_map.1 hg
  have hs := groupOf_shape I (List.mem_range.1 hk)
  obtain ⟨hgids, hbits⟩ := groupOf_size I (List.mem_range.1 hk)
  have hlg : 2 ^ (groupOf I k).lg ≤ 2 ^ 16 := Nat.pow_le_pow_right (by decide) hs.lg.2
  have hwords := hs.words
  refine ⟨⟨by have := hs.lg; omega, by rw [hs.m]; omega, by omega,
    ⟨by omega, fun x hx => Nat.lt_trans (hs.gids x hx).1 hsmall⟩, by omega, ?_⟩, hs⟩
  refine addChunks_bits_lt I _ _ (fun x hx => ?_)
  rw [List.eq_of_mem_replicate hx]
  decide

theorem Built.groups_all : ∀ ci, ci < I.chunks.length → ci ∈ I.groups.flatMap Group.gids := fun ci hci => by
  obtain ⟨g, hg, li, hli⟩ := hI.mem_group hci
  exact List.mem_flatMap.2 ⟨g, hg, List.mem_of_getElem? hli⟩

end

/-! ## Positional descriptors -/

theorem chooseMLoop_pow (want : Nat) : ∀ (fuel j : Nat), j ≤ 10 → ∃ i, j ≤ i ∧ i ≤ 10 ∧ chooseMLoop want fuel (2 ^ j) = 2 ^ i
  | 0, j, hj => ⟨j, Nat.le_refl j, hj, rfl⟩
  | fuel + 1, j, hj => by
    rw [chooseMLoop]
    split
    · rename_i h
      have hlt : j < 10 := (Nat.pow_lt_pow_iff_right (by decide)).1 h.1
      obtain ⟨i, h1, h2, h3⟩ := chooseMLoop_pow want fuel (j + 1) hlt
      exact ⟨i, by omega, h2, h3⟩
    · exact ⟨j, Nat.le_refl j, hj, rfl⟩

theorem chooseM_pow (opt : IndexOptions) (coreLen maskBytes : Nat) :
    ∃ i, 6 ≤ i ∧ i ≤ 10 ∧ chooseM opt coreLen maskBytes = 2 ^ i :=
  chooseMLoop_pow _ 4 6 (by decide)

theorem chooseM_range (opt : IndexOptions) (coreLen maskBytes : Nat) :
    64 ≤ chooseM opt coreLen maskBytes ∧ chooseM opt coreLen maskBytes ≤ 1024 ∧
      chooseM opt coreLen maskBytes &&& (chooseM opt coreLen maskBytes - 1) = 0 := by
  obtain ⟨i, h1, h2, h3⟩ := chooseM_pow opt coreLen maskBytes
  rw [h3]
  interval_cases i <;> decide

/-- **The descriptors pass, one after another.** -/
theorem checkPosDescs_built (I : IndexData) {size : Nat} (hsize : size < 2 ^ 64) : ∀ (zs : List Chunk) (total : Nat),
    (posDescs I total zs).2 ≤ size →
      checkPosDescs I.posBlock size ((posDescs I total zs).1.zip zs) total = .ok (posDescs I total zs).2
  | [], total, _ => rfl
  | z :: zs, total, h => by
    rw [posDescs] at h ⊢
    dsimp only at h ⊢
    obtain ⟨-, hle, -⟩ := posDescs_spec I zs (total + (posDescOf I total z).m * (posDescOf I total z).maskBytes)
    have hok : ¬ badPosDesc I.posBlock size total z (posDescOf I total z) = true := by
      obtain ⟨h1, h2, h3⟩ : 64 ≤ (posDescOf I total z).m ∧ (posDescOf I total z).m ≤ 1024 ∧
          (posDescOf I total z).m &&& ((posDescOf I total z).m - 1) = 0 := chooseM_range ..
      have hmask : (posDescOf I total z).maskBytes ≤ (size - min total size) / (posDescOf I total z).m := by
        rw [Nat.le_div_iff_mul_le (Nat.lt_of_lt_of_le (by decide) h1), Nat.mul_comm]
        omega
      simp only [badPosDesc, Bool.or_eq_true, decide_eq_true_eq, bne_iff_ne, not_or, ne_eq, not_not, Nat.not_lt]
      exact ⟨⟨⟨⟨⟨⟨⟨h1, h2⟩, h3⟩, rfl⟩, rfl⟩, rfl⟩, hmask⟩, by omega⟩
    rw [List.zip_cons_cons, checkPosDescs, if_neg hok]
    exact checkPosDescs_built I hsize zs _ h

theorem buildPos_length (I : IndexData) (descs : List PosDesc) (total : Nat) : (buildPos I descs total).length = total := by
  rw [buildPos, length_setBits, List.length_replicate]

theorem buildPos_lt (I : IndexData) (descs : List PosDesc) (total : Nat) : ∀ x ∈ buildPos I descs total, x < 256 := by
  refine setBits_lt (w := 8) (fun x hx => by rw [List.eq_of_mem_replicate hx]; decide) (fun p hp => ?_)
  obtain ⟨c, -, hp⟩ := List.mem_flatMap.1 hp
  obtain ⟨bi, -, hp⟩ := List.mem_flatMap.1 hp
  unfold blockBits at hp
  dsimp only at hp
  split at hp
  · cases hp
  · obtain ⟨h, -, rfl⟩ := List.mem_map.1 hp
    exact Nat.mod_lt _ (by decide)

/-! ## Totals -/

/-- What the files of an index add up to. -/
structure Totals (I : IndexData) : Prop where
  sizes : I.infos.map FileInfo.size = I.loaded.map List.length
  total : (I.loaded.map List.length).sum = I.corpBytes
  corpus : I.corpBytes ≤ maxCorpusBytes
  byteFreq : ∀ c, I.byteFreq c ≤ I.corpBytes
  qgramFreq : ∀ h, I.qgramFreq h < 2 ^ 32
  qgramFreq_zero : ∀ h, 65536 ≤ h → I.qgramFreq h = 0

theorem Totals.push {I J : IndexData} {fi : FileInfo} {s : Bytes} (hI : Totals I) (hfi : fi.size = s.length)
    (h : pushFile I fi s = .ok J) : Totals J := by
  have hcorpus := hI.corpus
  unfold pushFile at h
  split at h
  · cases h
  · rename_i hfit
    cases h
    refine ⟨?_, ?_, ?_, fun c => ?_, fun x => ?_, fun x hx => ?_⟩
    · rw [List.map_append, List.map_append, hI.sizes, List.map_singleton, List.map_singleton, hfi]
    · rw [List.map_append, List.sum_append, hI.total, List.map_singleton, List.sum_singleton]
    · dsimp only
      omega
    · exact Nat.add_le_add (hI.byteFreq c) List.count_le_length
    · dsimp only
      omega
    · have hnone : (qgrams s).countP (fun y => y % 65536 == x) = 0 := by
        rw [List.countP_eq_zero]
        intro y _ hy
        have : y % 65536 < 65536 := Nat.mod_lt _ (by decide)
        rw [beq_iff_eq] at hy
        omega
      dsimp only
      rw [hI.qgramFreq_zero x hx, hnone]
      rfl

theorem Totals.pushAll : ∀ (fs : List (FileInfo × Bytes)) {I J : IndexData}, Totals I → (∀ f ∈ fs, f.1.size = f.2.length) →
    fs.foldlM (fun I f => pushFile I f.1 f.2) I = .ok J → Totals J
  | [], I, J, hI, _, h => by
    cases h
    exact hI
  | f :: fs, I, J, hI, hf, h => by
    rw [List.foldlM_cons] at h
    obtain ⟨K, hK, h⟩ := Throw.bind_ok h
    exact Totals.pushAll fs (hI.push (hf f List.mem_cons_self) hK) (fun g hg => hf g (List.mem_cons_of_mem f hg)) h

theorem Totals.materialize {I : IndexData} (h : Totals I) : Totals (materializeIndexFilters I) := by
  obtain ⟨e, f, g, r, hstats⟩ := rebuildPlannerStats_frame { I with chunks := chunksFrom I.opt 0 I.loaded }
  unfold materializeIndexFilters
  dsimp only
  rw [hstats]
  exact ⟨h.sizes, h.total, h.corpus, h.byteFreq, h.qgramFreq, h.qgramFreq_zero⟩

/-! ## Options -/

theorem validIndexOptions_iff {opt : IndexOptions} (h : validateIndexOptions opt = .ok ()) :
    validIndexOptions opt = true ↔ opt.positionalBudgetRatio.isFinite = true := by
  obtain ⟨⟨h1, h2⟩, ⟨h3, h4⟩, h5, h6, h7⟩ := validateIndexOptions_ok h
  simp only [validIndexOptions, Bool.and_eq_true, decide_eq_true_eq]
  exact ⟨fun hv => hv.1.2, fun hf => ⟨⟨⟨⟨⟨⟨⟨h1, h2⟩, h3⟩, h4⟩, h5⟩, h6⟩, hf⟩, h7⟩⟩

theorem isNaN_eq_false {r : BudgetRatio} (h : r.isFinite = true) : r.isNaN = false := by
  simp only [BudgetRatio.isFinite, bne_iff_ne] at h
  simp [BudgetRatio.isNaN, h]

theorem sameOptions_self {opt : IndexOptions} (h : opt.positionalBudgetRatio.isFinite = true) : sameOptions opt opt = true := by
  simp [sameOptions, BudgetRatio.same, isNaN_eq_false h]

theorem optionsFit {opt : IndexOptions} (h : validateIndexOptions opt = .ok ()) : OptionsFit opt := by
  obtain ⟨h1, h2, h3, h4, -⟩ := validateIndexOptions_ok h
  exact ⟨by omega, by omega, by omega, by omega⟩

/-! ## What a snapshot is taken of -/

section
variable {I : IndexData} (hI : Built I) (hT : Totals I)

include hT in
theorem Totals.data_length_le (fid : Nat) : (I.data fid).length ≤ maxCorpusBytes := by
  rw [IndexData.data, List.getD_eq_getElem?_getD]
  cases hf : I.loaded[fid]? with
  | none => exact Nat.zero_le _
  | some s =>
    have hle : s.length ≤ (I.loaded.map List.length).sum :=
      List.le_sum_of_mem (List.mem_map_of_mem (List.mem_of_getElem? hf))
    exact hle.trans (hT.total ▸ hT.corpus)

include hI

theorem Built.posDesc_length : I.posDesc.length = I.chunks.length := by
  rw [hI.posDesc_eq]
  exact (posDescs_spec I I.chunks 0).1

theorem Built.pos_length : I.pos.length = (posDescs I 0 I.chunks).2 := by
  rw [hI.pos_eq]
  exact buildPos_length ..

include hT

theorem Built.chunk_fits (hfiles : I.infos.length < 2 ^ 32) : ∀ z ∈ I.chunks, ChunkFits z := by
  intro z hz
  obtain ⟨h1, h2, h3, h4⟩ := hI.chunk hz
  have hlen := hT.data_length_le z.fileId
  have hmax : maxCorpusBytes = 2 ^ 30 := rfl
  have hfile := hI.infos_length
  exact ⟨by omega, by omega, by omega, by omega⟩

/-- **The chunks pass.** -/
theorem Built.chunks_pass (hopt : validateIndexOptions I.opt = .ok ()) : ChunksPass I.opt I.infos {} I.chunks := by
  obtain ⟨h1, -, h2, -⟩ := validateIndexOptions_ok hopt
  rw [hI.chunks_eq]
  refine chunksFrom_pass (by omega) (by omega) I.loaded 0 {} (fun i => ?_) (by rw [Nat.zero_add, hI.infos_length])
    (fun s hs => ?_) ⟨fun f hf => absurd hf (Nat.not_lt_zero f), rfl, fun _ _ => rfl, fun h => absurd rfl h⟩
  · rw [Nat.zero_add, hT.sizes]
  · have hle : s.length ≤ (I.loaded.map List.length).sum := List.le_sum_of_mem (List.mem_map_of_mem hs)
    have := hT.total
    have := hT.corpus
    have hmax : maxCorpusBytes = 2 ^ 30 := rfl
    omega

theorem Built.desc_fits (hopt : validateIndexOptions I.opt = .ok ()) (hblock : I.posBlock = I.opt.positionalBlockBytes)
    (hpos : I.pos.length < 2 ^ 64) : ∀ d ∈ I.posDesc, DescFits d := by
  intro d hd
  obtain ⟨i, hi, rfl⟩ := List.mem_iff_getElem.1 hd
  have hi' : i < I.chunks.length := hI.posDesc_length ▸ hi
  obtain ⟨h1, -, h3⟩ := posDescs_spec I I.chunks 0
  have hget : (posDescs I 0 I.chunks).1[i]? = some I.posDesc[i] := by
    rw [← hI.posDesc_eq]
    exact List.getElem?_eq_getElem hi
  obtain ⟨heq, hle⟩ := h3 i _ _ hget (List.getElem?_eq_getElem hi')
  rw [← hI.pos_length] at hle
  generalize I.posDesc[i] = d at heq hle
  have hlen := hT.data_length_le I.chunks[i].fileId
  obtain ⟨-, h4, h5, -⟩ := hI.chunk (List.getElem_mem hi')
  have hmax : maxCorpusBytes = 2 ^ 30 := rfl
  have hrange := (validateIndexOptions_ok hopt).2.1
  rw [← hblock] at hrange
  have hblocks : d.blocks < 2 ^ 32 := by
    rw [heq]
    have hdiv := Nat.div_le_self (I.chunks[i].coreEnd - I.chunks[i].coreBegin + I.posBlock - 1) I.posBlock
    change max 1 ((I.chunks[i].coreEnd - I.chunks[i].coreBegin + I.posBlock - 1) / I.posBlock) < 2 ^ 32
    omega
  have hmask : d.maskBytes = (d.blocks + 7) / 8 := by
    rw [heq]
    rfl
  have hm : d.m ≤ 1024 := by
    rw [heq]
    exact (chooseM_range ..).2.1
  exact ⟨by omega, by omega, by omega, hblocks⟩

end

/-- **What holds of an index that can be saved**: its totals add up, and its tables fit their fields and pass the loader's
checks. -/
structure Stored (I : IndexData) : Prop extends Totals I where
  options : validateIndexOptions I.opt = .ok ()
  posBlock : I.posBlock = I.opt.positionalBlockBytes
  chunk_fits : I.infos.length < 2 ^ 32 → ∀ z ∈ I.chunks, ChunkFits z
  chunks_pass : ChunksPass I.opt I.infos {} I.chunks
  groups_length : I.groups.length = 8
  groups_pass : I.chunks.length < 2 ^ 32 → GroupsPass I.chunks {} I.groups
  groups_all : ∀ ci, ci < I.chunks.length → ci ∈ I.groups.flatMap Group.gids
  posDesc_length : I.posDesc.length = I.chunks.length
  desc_fits : I.pos.length < 2 ^ 64 → ∀ d ∈ I.posDesc, DescFits d
  rows : I.pos.length < 2 ^ 64 → checkPosDescs I.posBlock I.pos.length (I.posDesc.zip I.chunks) 0 = .ok I.pos.length
  bytes : ∀ x ∈ I.pos, x < 256

theorem Stored.length_eq {I : IndexData} (hI : Stored I) : I.infos.length = I.loaded.length := by
  have h := congrArg List.length hI.sizes
  rwa [List.length_map, List.length_map] at h

/-- **An index `build` returns is fit for a snapshot.** -/
theorem build_stored {t : Tree} {opt : IndexOptions} {I : IndexData} (h : build t opt = .ok I) : Stored I := by
  obtain ⟨hbuilt, -, -, hopt, -, -, hblock⟩ := build_built h
  obtain ⟨u, hv, h⟩ := Throw.bind_ok h
  obtain ⟨J, hJ, h⟩ := Throw.bind_ok h
  obtain rfl : materializeIndexFilters J = I := Except.ok.inj h
  have hJ' : ((sources t opt).map (fun f => (sourceInfo f, f.state.content))).foldlM (fun I f => pushFile I f.1 f.2)
      { opt := opt, posBlock := opt.positionalBlockBytes, root := t.root, rootMtimeNs := t.rootMtimeNs } = .ok J := by
    rw [List.foldlM_map]
    exact hJ
  have hT : Totals (materializeIndexFilters J) := by
    refine (Totals.pushAll _ ?_ (fun p hp => ?_) hJ').materialize
    · exact ⟨rfl, rfl, Nat.zero_le _, fun _ => Nat.le_refl _, fun _ => Nat.two_pow_pos 32, fun _ _ => rfl⟩
    · obtain ⟨f, -, rfl⟩ := List.mem_map.1 hp
      rfl
  have hv' : validateIndexOptions (materializeIndexFilters J).opt = .ok () := by
    rw [hopt]
    exact hv
  have hblock' : (materializeIndexFilters J).posBlock = (materializeIndexFilters J).opt.positionalBlockBytes := by
    rw [hblock, hopt]
  generalize materializeIndexFilters J = I at hbuilt hT hv' hblock'
  refine ⟨hT, hv', hblock', hbuilt.chunk_fits hT, hbuilt.chunks_pass hT hv', ?_, hbuilt.groups_pass, hbuilt.groups_all,
    hbuilt.posDesc_length, hbuilt.desc_fits hT hv' hblock', fun hpos => ?_, ?_⟩
  · rw [hbuilt.groups_map, List.length_map, List.length_range]
  · have hrows := checkPosDescs_built I hpos I.chunks 0 hbuilt.pos_length.ge
    rwa [← hbuilt.pos_length, ← hbuilt.posDesc_eq] at hrows
  · rw [hbuilt.pos_eq]
    exact buildPos_lt _ _ _

end Pergrep
