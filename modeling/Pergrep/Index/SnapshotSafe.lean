import Mathlib.Algebra.Order.BigOperators.Group.List
import Mathlib.Algebra.Order.Ring.Nat
import Pergrep.Index.Snapshot
import Pergrep.Index.Chunks
import Pergrep.Lib.Throw
/-!
# SnapshotSafe — what every loaded index satisfies

Whatever bytes the loader is given, an index it returns has the geometry the search relies on (`Safe`): each section's
reader leaves its part of it, and what a loop checks turn by turn holds of all its turns.
-/
namespace Pergrep

open Reader

/-! ## The geometry -/

/-- Cores that follow one another from `b` to `e`. -/
def Cores : Nat → Nat → List Chunk → Prop
  | b, e, [] => b = e
  | b, e, z :: zs => z.coreBegin = b ∧ b ≤ z.coreEnd ∧ Cores z.coreEnd e zs

theorem Cores.snoc : ∀ {zs : List Chunk} {b e : Nat} {z : Chunk}, Cores b e zs → z.coreBegin = e → e ≤ z.coreEnd →
    Cores b z.coreEnd (zs ++ [z])
  | [], b, e, z, h, h1, h2 => by
    obtain rfl : b = e := h
    exact ⟨h1, h2, rfl⟩
  | y :: ys, b, e, z, ⟨h3, h4, h5⟩, h1, h2 => ⟨h3, h4, h5.snoc h1 h2⟩

theorem Cores.mem : ∀ {zs : List Chunk} {b e : Nat}, Cores b e zs → ∀ z ∈ zs, b ≤ z.coreBegin ∧ z.coreBegin ≤ z.coreEnd
  | [], _, _, _, z, hz => absurd hz List.not_mem_nil
  | y :: ys, b, e, ⟨h1, h2, h3⟩, z, hz => by
    rcases List.mem_cons.1 hz with rfl | hz
    · exact ⟨h1.ge, h1 ▸ h2⟩
    · obtain ⟨h4, h5⟩ := h3.mem z hz
      exact ⟨h2.trans h4, h5⟩

theorem Cores.apart : ∀ {zs : List Chunk} {b e : Nat}, Cores b e zs → zs.Pairwise (fun a c => a.coreEnd ≤ c.coreBegin)
  | [], _, _, _ => List.Pairwise.nil
  | _ :: _, _, _, ⟨_, _, h⟩ => List.pairwise_cons.2 ⟨fun c hc => (h.mem c hc).1, h.apart⟩

def IndexData.sizeOf (I : IndexData) (fid : Nat) : Nat := (I.infos.map FileInfo.size).getD fid 0

/-- **What the search relies on** when it reads the tables and the texts. -/
structure Safe (I : IndexData) : Prop where
  file : ∀ z ∈ I.chunks, z.fileId < I.infos.length
  cores : ∀ fid, fid < I.infos.length → Cores 0 (I.sizeOf fid) (I.chunks.filter (fun z => z.fileId = fid))
  ext : ∀ z ∈ I.chunks, z.coreEnd ≤ z.extEnd ∧ z.extEnd ≤ I.sizeOf z.fileId
  order : I.chunks.Pairwise (fun a c => a.fileId ≤ c.fileId)
  grouped : ∀ ci, ci < I.chunks.length → (I.groups.flatMap Group.gids).count ci = 1
  group : ∀ g ∈ I.groups, ∀ ci ∈ g.gids, ∃ z, I.chunks[ci]? = some z ∧ g.lg = lgFor (z.extEnd - z.coreBegin)
  words : ∀ g ∈ I.groups, g.m = 2 ^ g.lg ∧ g.words = (g.gids.length + 63) / 64
  bits : ∀ g ∈ I.groups, g.bits.length = 2 ^ g.lg * g.words
  descs : I.posDesc.length = I.chunks.length
  rows : ∀ d ∈ I.posDesc, ∀ row, row < d.m → d.off + row * d.maskBytes + d.maskBytes ≤ I.pos.length
  masks : ∀ d ∈ I.posDesc, d.blocks ≤ 8 * d.maskBytes
  contents : I.loaded.map List.length = I.infos.map FileInfo.size
  offsets : ∀ d ∈ I.posDesc, ∀ bi, bi < d.blocks → bi * I.posBlock + I.posBlock + 64 < 2 ^ 32

/-! ## Sections -/

theorem sumSizes_ok : ∀ {infos : List FileInfo} {total r : Nat}, sumSizes infos total = .ok r →
    r = total + (infos.map FileInfo.size).sum
  | [], total, r, h => by
    cases h
    simp
  | f :: fs, total, r, h => by
    rw [sumSizes] at h
    split at h
    · cases h
    · rw [sumSizes_ok h, List.map_cons, List.sum_cons, Nat.add_assoc]

theorem getFiles_ok {corpBytes : Nat} {manifest : Option StoredManifest} {infos : List FileInfo} {s s' : Bytes}
    (h : getFiles corpBytes manifest s = .ok (infos, s')) :
    (infos.map FileInfo.size).sum = corpBytes ∧ corpBytes ≤ maxCorpusBytes := by
  obtain ⟨nf, s₁, -, h⟩ := bind_ok h
  obtain ⟨_, s₂, -, h⟩ := bind_ok h
  obtain ⟨fs, s₃, -, h⟩ := bind_ok h
  obtain ⟨total, s₄, htotal, h⟩ := bind_ok h
  obtain ⟨_, s₅, h1, h⟩ := bind_ok h
  obtain ⟨_, s₆, -, h⟩ := bind_ok h
  obtain ⟨_, s₇, h2, h⟩ := bind_ok h
  cases h
  have hsum := sumSizes_ok (lift_ok htotal).1
  rw [Nat.zero_add] at hsum
  exact ⟨hsum ▸ not_not.1 (reject_ok h1).1, Nat.le_of_not_lt (reject_ok h2).1⟩

/-- What the chunk loop keeps: the chunks of each file follow one another up to its next core. -/
structure ChunkInv (infos : List FileInfo) (st : ChunkScan) : Prop where
  file : ∀ z ∈ st.chunks, z.fileId < infos.length
  cores : ∀ fid, Cores 0 (st.nextCore fid) (st.chunks.filter (fun z => z.fileId = fid))
  ext : ∀ z ∈ st.chunks, z.coreEnd ≤ z.extEnd ∧ z.extEnd ≤ (infos.map FileInfo.size).getD z.fileId 0
  order : st.chunks.Pairwise (fun a c => a.fileId ≤ c.fileId)
  previous : ∀ z ∈ st.chunks, z.fileId ≤ st.previousFile

theorem badChunk_iff {opt : IndexOptions} {infos : List FileInfo} {st : ChunkScan} {z : Chunk} :
    ¬ badChunk opt infos st z = true ↔
      (z.fileId < infos.length ∧ z.coreBegin ≤ z.coreEnd ∧ z.coreEnd - z.coreBegin ≤ opt.chunkBytes ∧
        z.coreEnd ≤ 2 ^ 64 - 1 - opt.chunkOverlap ∧ z.coreBegin = st.nextCore z.fileId ∧
        ¬ (z.coreBegin = z.coreEnd ∧ (infos.map FileInfo.size).getD z.fileId 0 ≠ 0) ∧
        ¬ (st.chunks ≠ [] ∧ z.fileId < st.previousFile)) ∧
      z.coreEnd ≤ z.extEnd ∧ z.extEnd ≤ (infos.map FileInfo.size).getD z.fileId 0 ∧
        z.extEnd ≤ min ((infos.map FileInfo.size).getD z.fileId 0) (z.coreEnd + opt.chunkOverlap) := by
  simp only [badChunk, Bool.or_eq_true, Bool.and_eq_true, Bool.not_eq_true', decide_eq_true_eq, bne_iff_ne, beq_iff_eq,
    List.isEmpty_eq_false_iff, not_or, Nat.not_lt, Nat.not_le, ne_eq, not_not]
  constructor
  · rintro ⟨⟨⟨⟨⟨⟨⟨⟨h1, h2⟩, h3⟩, h4⟩, h5⟩, h6, h7⟩, h8⟩, h9⟩, h10⟩
    exact ⟨⟨h1, h2, h5, h6, h9, h10, h8⟩, h3, h4, h7⟩
  · rintro ⟨⟨h1, h2, h5, h6, h9, h10, h8⟩, h3, h4, h7⟩
    exact ⟨⟨⟨⟨⟨⟨⟨⟨h1, h2⟩, h3⟩, h4⟩, h5⟩, h6, h7⟩, h8⟩, h9⟩, h10⟩

theorem chunkStep_ok {opt : IndexOptions} {infos : List FileInfo} {st st' : ChunkScan} {s s' : Bytes}
    (hinv : ChunkInv infos st) (h : chunkStep opt infos st s = .ok (st', s')) : ChunkInv infos st' := by
  obtain ⟨z, s₁, -, h⟩ := bind_ok h
  obtain ⟨_, s₂, hbad, h⟩ := bind_ok h
  obtain ⟨_, s₃, -, h⟩ := bind_ok h
  cases h
  obtain ⟨⟨h1, h2, -, -, h5, -, h6⟩, h3, h4, -⟩ := badChunk_iff.1 (reject_ok hbad).1
  have hprevious : ∀ y ∈ st.chunks, y.fileId ≤ z.fileId := fun y hy =>
    (hinv.previous y hy).trans (Nat.le_of_not_lt (fun hlt => h6 ⟨List.ne_nil_of_mem hy, hlt⟩))
  refine ⟨fun y hy => ?_, fun fid => ?_, fun y hy => ?_, ?_, fun y hy => ?_⟩
  · rcases List.mem_append.1 hy with hy | hy
    · exact hinv.file y hy
    · rwa [List.mem_singleton.1 hy]
  · dsimp only
    rw [List.filter_append]
    by_cases hz : z.fileId = fid
    · subst hz
      rw [Function.update_self, List.filter_cons_of_pos (by simp), List.filter_nil]
      exact (hinv.cores z.fileId).snoc h5 (h5 ▸ h2)
    · rw [Function.update_of_ne (fun h => hz h.symm), List.filter_cons_of_neg (by simpa using hz), List.filter_nil,
        List.append_nil]
      exact hinv.cores fid
  · rcases List.mem_append.1 hy with hy | hy
    · exact hinv.ext y hy
    · rw [List.mem_singleton.1 hy]
      exact ⟨h3, h4⟩
  · refine List.pairwise_append.2 ⟨hinv.order, List.pairwise_singleton _ _, fun y hy c hc => ?_⟩
    rw [List.mem_singleton.1 hc]
    exact hprevious y hy
  · rcases List.mem_append.1 hy with hy | hy
    · exact hprevious y hy
    · rw [List.mem_singleton.1 hy]

theorem getChunks_ok {opt : IndexOptions} {infos : List FileInfo} {chunks : List Chunk} {s s' : Bytes}
    (h : getChunks opt infos s = .ok (chunks, s')) : ∃ st : ChunkScan, st.chunks = chunks ∧ ChunkInv infos st ∧
      ∀ fid, fid < infos.length → st.nextCore fid = (infos.map FileInfo.size).getD fid 0 := by
  obtain ⟨nc, s₁, -, h⟩ := bind_ok h
  obtain ⟨st, s₂, hloop, h⟩ := bind_ok h
  obtain ⟨_, s₃, hend, h⟩ := bind_ok h
  cases h
  refine ⟨st, rfl, ?_, fun fid hfid => ?_⟩
  · refine loop_invariant (fun _ _ _ _ (hst : ChunkInv infos _) => chunkStep_ok hst) ?_ hloop
    exact ⟨by simp, fun _ => rfl, by simp, List.Pairwise.nil, by simp⟩
  · by_contra hne
    exact (reject_ok hend).1 ⟨fid, hfid, Or.inr hne⟩

theorem checkGids_ok {chunks : List Chunk} {lg : Nat} : ∀ {gids : List Nat} {grouped grouped' : Nat → Bool},
    checkGids chunks lg gids grouped = .ok grouped' → gids.Nodup ∧
      (∀ gid ∈ gids, gid < chunks.length ∧ grouped gid = false ∧ (chunks.map chunkLg).getD gid 0 = lg) ∧
      ∀ x, grouped' x = true ↔ grouped x = true ∨ x ∈ gids
  | [], grouped, grouped', h => by
    cases h
    simp
  | gid :: gids, grouped, grouped', h => by
    rw [checkGids] at h
    split at h
    · cases h
    · rename_i hbad
      simp only [not_or, Nat.not_le, Bool.not_eq_true, ne_eq, not_not] at hbad
      obtain ⟨h1, h2, h3⟩ := checkGids_ok h
      have hne : ∀ x ∈ gids, x ≠ gid := by
        rintro x hx rfl
        have := (h2 x hx).2.1
        rw [Function.update_self] at this
        cases this
      refine ⟨List.nodup_cons.2 ⟨fun hx => hne gid hx rfl, h1⟩, List.forall_mem_cons.2 ⟨hbad, fun x hx => ?_⟩, fun x => ?_⟩
      · have := h2 x hx
        rwa [Function.update_of_ne (hne x hx)] at this
      · rw [h3 x, List.mem_cons]
        by_cases hx : x = gid
        · subst hx
          simp
        · rw [Function.update_of_ne hx]
          simp [hx]

/-- What the group loop keeps. -/
structure GroupInv (chunks : List Chunk) (st : GroupScan) : Prop where
  nodup : (st.groups.flatMap Group.gids).Nodup
  grouped : ∀ ci, st.grouped ci = true ↔ ci ∈ st.groups.flatMap Group.gids
  group : ∀ g ∈ st.groups, (∀ ci ∈ g.gids, ci < chunks.length ∧ (chunks.map chunkLg).getD ci 0 = g.lg) ∧
    g.m = 2 ^ g.lg ∧ g.words = (g.gids.length + 63) / 64 ∧ g.bits.length = 2 ^ g.lg * g.words

theorem groupStep_ok {chunks : List Chunk} {st st' : GroupScan} {s s' : Bytes} (hinv : GroupInv chunks st)
    (h : groupStep chunks st s = .ok (st', s')) : GroupInv chunks st' := by
  obtain ⟨lg, s₁, -, h⟩ := bind_ok h
  obtain ⟨m, s₂, -, h⟩ := bind_ok h
  obtain ⟨words, s₃, -, h⟩ := bind_ok h
  obtain ⟨gids, s₄, -, h⟩ := bind_ok h
  obtain ⟨bits, s₅, -, h⟩ := bind_ok h
  obtain ⟨_, s₆, hbad, h⟩ := bind_ok h
  obtain ⟨grouped, s₇, hgids, h⟩ := bind_ok h
  cases h
  obtain ⟨h1, h2, h3⟩ := checkGids_ok (lift_ok hgids).1
  have hok := (reject_ok hbad).1
  simp only [not_or, ne_eq, not_not] at hok
  obtain ⟨-, -, hm, hw, hb⟩ := hok
  have hflat : ∀ g : Group, (st.groups ++ [g]).flatMap Group.gids = st.groups.flatMap Group.gids ++ g.gids := fun g => by
    rw [List.flatMap_append, List.flatMap_singleton]
  refine ⟨?_, fun ci => ?_, fun g hg => ?_⟩
  · dsimp only
    rw [hflat, List.nodup_append]
    refine ⟨hinv.nodup, h1, ?_⟩
    rintro a ha b hb rfl
    have hnew := (h2 a hb).2.1
    rw [(hinv.grouped a).2 ha] at hnew
    cases hnew
  · dsimp only
    rw [hflat, List.mem_append, ← hinv.grouped, h3]
  · rcases List.mem_append.1 hg with hg | hg
    · exact hinv.group g hg
    · rw [List.mem_singleton.1 hg]
      exact ⟨fun ci hci => ⟨(h2 ci hci).1, (h2 ci hci).2.2⟩, hm, hw, hb⟩

theorem getGroups_ok {chunks : List Chunk} {groups : List Group} {s s' : Bytes} (h : getGroups chunks s = .ok (groups, s')) :
    ∃ st : GroupScan, st.groups = groups ∧ GroupInv chunks st ∧ ∀ ci, ci < chunks.length → st.grouped ci = true := by
  obtain ⟨st, s₁, hloop, h⟩ := bind_ok h
  obtain ⟨_, s₂, hend, h⟩ := bind_ok h
  cases h
  refine ⟨st, rfl, ?_, fun ci hci => ?_⟩
  · refine loop_invariant (fun _ _ _ _ (hst : GroupInv chunks _) => groupStep_ok hst) ?_ hloop
    exact ⟨List.nodup_nil, by simp, by simp⟩
  · by_contra hne
    exact (reject_ok hend).1 ⟨ci, hci, Bool.eq_false_iff.2 hne⟩

/-- A descriptor's rows lie in the array, and its blocks are those of its chunk. -/
structure DescOk (posBlock size : Nat) (z : Chunk) (d : PosDesc) : Prop where
  blocks : d.blocks = max 1 ((z.coreEnd - z.coreBegin + posBlock - 1) / posBlock)
  masks : d.maskBytes = (d.blocks + 7) / 8
  rows : d.off + d.m * d.maskBytes ≤ size

theorem badPosDesc_false {posBlock size posEnd : Nat} {z : Chunk} {d : PosDesc}
    (h : ¬ badPosDesc posBlock size posEnd z d = true) : DescOk posBlock size z d := by
  simp only [badPosDesc, Bool.or_eq_true, decide_eq_true_eq, bne_iff_ne, not_or, ne_eq, not_not, Nat.not_lt] at h
  obtain ⟨⟨⟨⟨⟨⟨⟨h1, -⟩, -⟩, h2⟩, h3⟩, h4⟩, h5⟩, -⟩ := h
  refine ⟨h2, by rw [h3, h2], ?_⟩
  have hpos : 0 < d.maskBytes := by
    rw [h3]
    omega
  have hfit : d.m * d.maskBytes ≤ size - min posEnd size :=
    (Nat.mul_le_mul_left _ h5).trans (Nat.mul_div_le _ _)
  have hrow : 1 * 1 ≤ d.m * d.maskBytes := Nat.mul_le_mul (by omega) hpos
  omega

theorem checkPosDescs_ok {posBlock size : Nat} : ∀ {l : List (PosDesc × Chunk)} {posEnd r : Nat},
    checkPosDescs posBlock size l posEnd = .ok r → ∀ p ∈ l, DescOk posBlock size p.2 p.1
  | [], _, _, _ => by simp
  | (d, z) :: l, posEnd, r, h => by
    rw [checkPosDescs] at h
    split at h
    · cases h
    · rename_i hbad
      exact List.forall_mem_cons.2 ⟨badPosDesc_false hbad, checkPosDescs_ok h⟩

theorem getPosDescs_ok {nc : Nat} {descs : List PosDesc} {s s' : Bytes} (h : getPosDescs nc s = .ok (descs, s')) :
    descs.length = nc := by
  obtain ⟨npd, s₁, -, h⟩ := bind_ok h
  obtain ⟨_, s₂, hne, h⟩ := bind_ok h
  rw [many_length h]
  exact not_not.1 (reject_ok hne).1

theorem getPayload_ok : ∀ {infos : List FileInfo} {total : Nat} {r : List Bytes × Nat} {s s' : Bytes},
    getPayload infos total s = .ok (r, s') → r.1.map List.length = infos.map FileInfo.size
  | [], total, r, s, s', h => by
    cases h
    rfl
  | f :: fs, total, r, s, s', h => by
    obtain ⟨n, s₁, -, h⟩ := bind_ok h
    obtain ⟨_, s₂, -, h⟩ := bind_ok h
    obtain ⟨_, s₃, hn, h⟩ := bind_ok h
    obtain ⟨left, s₄, -, h⟩ := bind_ok h
    obtain ⟨_, s₅, -, h⟩ := bind_ok h
    obtain ⟨data, s₆, hdata, h⟩ := bind_ok h
    obtain ⟨rest, s₇, hrest, h⟩ := bind_ok h
    cases h
    have hlen : data.length = n := by
      unfold getBytes at hdata
      split at hdata
      · cases hdata
      · cases hdata
        have := List.length_take_le n s₅
        omega
    have hf := (reject_ok hn).1
    simp only [not_or, ne_eq, not_not] at hf
    rw [List.map_cons, List.map_cons, getPayload_ok hrest, hlen, hf.1]

theorem mapped_ok {path : Bytes} {st : Option FileState} {size : Nat} {mtimeNs : Int64} {s : Bytes}
    (h : mapped path st size mtimeNs = .ok s) : s.length = size := by
  unfold mapped at h
  cases st with
  | none => cases h
  | some f =>
    dsimp only at h
    split at h
    · cases h
    rename_i hsize
    split at h
    · cases h
    split at h
    · rename_i hz
      cases h
      exact hz.symm
    split at h
    · cases h
      exact not_not.1 hsize
    · cases h

theorem mapSources_ok {world : World} {root : Bytes} : ∀ {infos : List FileInfo} {loaded : List Bytes},
    mapSources world root infos = .ok loaded → loaded.map List.length = infos.map FileInfo.size
  | [], loaded, h => by
    cases h
    rfl
  | f :: fs, loaded, h => by
    rw [mapSources, List.mapM_cons] at h
    obtain ⟨s, hs, h⟩ := Throw.bind_ok h
    obtain ⟨ss, hss, h⟩ := Throw.bind_ok h
    cases h
    rw [List.map_cons, List.map_cons, mapped_ok hs, mapSources_ok hss]

theorem getContents_ok {world : World} {persisted : Bool} {manifest : Option StoredManifest} {I : IndexData}
    {loaded : List Bytes} {s s' : Bytes} (h : getContents world persisted manifest I s = .ok (loaded, s')) :
    loaded.map List.length = I.infos.map FileInfo.size := by
  unfold getContents at h
  split at h
  · obtain ⟨payload, s₁, hp, h⟩ := bind_ok h
    obtain ⟨_, s₂, -, h⟩ := bind_ok h
    cases h
    exact getPayload_ok hp
  · obtain ⟨_, s₁, -, h⟩ := bind_ok h
    exact mapSources_ok (lift_ok h).1

theorem getHeader_ok {persisted : Bool} {manifest : Option StoredManifest} {I : IndexData} {s s' : Bytes}
    (h : getHeader persisted manifest s = .ok (I, s')) : validIndexOptions I.opt = true := by
  obtain ⟨root, s₁, -, h⟩ := bind_ok h
  obtain ⟨opt, s₂, -, h⟩ := bind_ok h
  obtain ⟨corpBytes, s₃, -, h⟩ := bind_ok h
  obtain ⟨rootMtimeNs, s₄, -, h⟩ := bind_ok h
  obtain ⟨_, s₅, hv, h⟩ := bind_ok h
  obtain ⟨_, s₆, -, h⟩ := bind_ok h
  obtain ⟨_, s₇, -, h⟩ := bind_ok h
  obtain ⟨_, s₈, -, h⟩ := bind_ok h
  cases h
  exact Bool.eq_true_of_not_eq_false (reject_ok hv).1

/-! ## The index -/

theorem Safe.rebuild {I : IndexData} (h : Safe I) : Safe (rebuildPlannerStats I) := by
  obtain ⟨e, f, g, r, hstats⟩ := rebuildPlannerStats_frame I
  rw [hstats]
  exact ⟨h.file, h.cores, h.ext, h.order, h.grouped, h.group, h.words, h.bits, h.descs, h.rows, h.masks, h.contents, h.offsets⟩

theorem blockOffset_lt {posBlock size : Nat} {z : Chunk} {d : PosDesc} (hd : DescOk posBlock size z d) (h1 : 16 ≤ posBlock)
    (h2 : posBlock ≤ 2 ^ 20) (hz : z.coreEnd - z.coreBegin ≤ maxCorpusBytes) {bi : Nat} (hbi : bi < d.blocks) :
    bi * posBlock + posBlock + 64 < 2 ^ 32 := by
  have hle : bi * posBlock ≤ z.coreEnd - z.coreBegin := by
    rcases Nat.eq_zero_or_pos bi with rfl | hpos
    · omega
    · have hb : bi + 1 ≤ (z.coreEnd - z.coreBegin + posBlock - 1) / posBlock := by
        have := hd.blocks
        omega
      have := (Nat.le_div_iff_mul_le (by omega)).1 hb
      rw [Nat.add_mul] at this
      omega
  have : maxCorpusBytes = 2 ^ 30 := rfl
  omega

theorem getIndex_ok {world : World} {persisted : Bool} {manifest : Option StoredManifest} {trail : Nat} {I : IndexData}
    {s s' : Bytes} (h : getIndex world persisted manifest trail s = .ok (I, s')) : Safe I := by
  obtain ⟨H, s₁, hheader, h⟩ := bind_ok h
  obtain ⟨tables, s₂, -, h⟩ := bind_ok h
  obtain ⟨posBlock, s₃, -, h⟩ := bind_ok h
  obtain ⟨_, s₄, hblock, h⟩ := bind_ok h
  obtain ⟨infos, s₅, hfiles, h⟩ := bind_ok h
  obtain ⟨chunks, s₆, hchunks, h⟩ := bind_ok h
  obtain ⟨groups, s₇, hgroups, h⟩ := bind_ok h
  obtain ⟨posDesc, s₈, hdescs, h⟩ := bind_ok h
  obtain ⟨pos, s₉, -, h⟩ := bind_ok h
  obtain ⟨posEnd, s₁₀, hcheck, h⟩ := bind_ok h
  obtain ⟨_, s₁₁, -, h⟩ := bind_ok h
  obtain ⟨loaded, s₁₂, hcontents, h⟩ := bind_ok h
  obtain ⟨left, s₁₃, -, h⟩ := bind_ok h
  obtain ⟨_, s₁₄, -, h⟩ := bind_ok h
  cases h
  refine Safe.rebuild ?_
  obtain ⟨hsum, hmax⟩ := getFiles_ok hfiles
  obtain ⟨st, rfl, hchunk, hnext⟩ := getChunks_ok hchunks
  obtain ⟨gst, rfl, hgroup, hall⟩ := getGroups_ok hgroups
  have hlen := getPosDescs_ok hdescs
  have hdesc := checkPosDescs_ok (lift_ok hcheck).1
  have hpb : posBlock = H.opt.positionalBlockBytes := not_not.1 (reject_ok hblock).1
  have hvalid := getHeader_ok hheader
  simp only [validIndexOptions, Bool.and_eq_true, decide_eq_true_eq] at hvalid
  obtain ⟨⟨⟨⟨⟨⟨-, h16⟩, h20⟩, -⟩, -⟩, -⟩, -⟩ := hvalid
  have hsize : ∀ fid, (infos.map FileInfo.size).getD fid 0 ≤ maxCorpusBytes := fun fid => by
    rw [List.getD_eq_getElem?_getD]
    cases hf : (infos.map FileInfo.size)[fid]? with
    | none => exact Nat.zero_le _
    | some n => exact (List.le_sum_of_mem (List.mem_of_getElem? hf)).trans (hsum ▸ hmax)
  have hpair : ∀ d ∈ posDesc, ∃ z ∈ st.chunks, DescOk posBlock pos.length z d := fun d hd => by
    obtain ⟨i, hi, rfl⟩ := List.mem_iff_getElem.1 hd
    exact ⟨st.chunks[i], List.getElem_mem _, hdesc (posDesc[i], st.chunks[i])
      (List.mem_iff_getElem.2 ⟨i, by simp; omega, by simp⟩)⟩
  refine ⟨hchunk.file, fun fid hfid => ?_, hchunk.ext, hchunk.order, fun ci hci => ?_, fun g hg ci hci => ?_,
    fun g hg => ⟨((hgroup.group g hg).2).1, (hgroup.group g hg).2.2.1⟩, fun g hg => (hgroup.group g hg).2.2.2, hlen,
    fun d hd row hrow => ?_, fun d hd => ?_, getContents_ok hcontents, fun d hd bi hbi => ?_⟩
  · have hcores := hchunk.cores fid
    rw [hnext fid hfid] at hcores
    exact hcores
  · exact List.count_eq_one_of_mem hgroup.nodup ((hgroup.grouped ci).1 (hall ci hci))
  · obtain ⟨hlt, hlg⟩ := (hgroup.group g hg).1 ci hci
    refine ⟨st.chunks[ci], List.getElem?_eq_getElem hlt, ?_⟩
    rw [← hlg, List.getD_eq_getElem?_getD, List.getElem?_map, List.getElem?_eq_getElem hlt]
    rfl
  · obtain ⟨z, -, hok⟩ := hpair d hd
    calc d.off + row * d.maskBytes + d.maskBytes
        = d.off + (row + 1) * d.maskBytes := by rw [Nat.add_mul, Nat.one_mul, Nat.add_assoc]
      _ ≤ d.off + d.m * d.maskBytes := Nat.add_le_add_left (Nat.mul_le_mul_right _ hrow) _
      _ ≤ pos.length := hok.rows
  · obtain ⟨z, -, hok⟩ := hpair d hd
    have := hok.masks
    omega
  · obtain ⟨z, hz, hok⟩ := hpair d hd
    have h1 := (hchunk.ext z hz).1
    have h2 := (hchunk.ext z hz).2
    have h3 := hsize z.fileId
    exact blockOffset_lt hok (hpb ▸ h16) (hpb ▸ h20) (by omega) hbi

theorem getSnapshot_ok {world : World} {expected : CacheManifest} {manifestAware portable persisted : Bool} {I : IndexData}
    {s s' : Bytes} (h : getSnapshot world expected manifestAware portable persisted s = .ok (I, s')) : Safe I := by
  unfold getSnapshot at h
  obtain ⟨marker, s₁, -, h⟩ := bind_ok h
  obtain ⟨_, s₂, -, h⟩ := bind_ok h
  split at h
  · obtain ⟨m, s₃, -, h⟩ := bind_ok h
    obtain ⟨_, s₄, -, h⟩ := bind_ok h
    obtain ⟨_, s₅, -, h⟩ := bind_ok h
    exact getIndex_ok h
  · obtain ⟨_, s₃, -, h⟩ := bind_ok h
    obtain ⟨_, s₄, -, h⟩ := bind_ok h
    exact getIndex_ok h

/-- **Whatever the bytes, the tree behind them and the manifest asked for, a loaded index is safe to search.** -/
theorem loadSnapshot_safe {world : World} {expected : CacheManifest} {manifestAware : Bool} {bytes : Bytes} {I : IndexData}
    (h : loadSnapshot world expected manifestAware bytes = .ok I) : Safe I := by
  have hmap : ∀ {x : Except Thrown (IndexData × Bytes)}, x.map Prod.fst = .ok I → ∃ s', x = .ok (I, s') := fun {x} hx => by
    cases x with
    | error e => cases hx
    | ok p =>
      cases hx
      exact ⟨p.2, rfl⟩
  unfold loadSnapshot at h
  dsimp only at h
  repeat' split at h
  all_goals first
    | cases h
    | (obtain ⟨s', hs⟩ := hmap h
       exact getSnapshot_ok hs)

/-! ## The layout -/

theorem Safe.data_length {I : IndexData} (h : Safe I) (fid : Nat) : (I.data fid).length = I.sizeOf fid := by
  rw [IndexData.sizeOf, ← h.contents, IndexData.data, List.getD_eq_getElem?_getD, List.getD_eq_getElem?_getD,
    List.getElem?_map]
  cases I.loaded[fid]? <;> rfl

/-- **An index that is safe to search is laid out.** -/
theorem Safe.laid {I : IndexData} (h : Safe I) : Laid I := by
  have hlength : I.infos.length = I.loaded.length := by
    have := congrArg List.length h.contents
    simpa using this.symm
  have hcores : ∀ z ∈ I.chunks, Cores 0 (I.sizeOf z.fileId) (I.chunks.filter (fun y => y.fileId = z.fileId)) :=
    fun z hz => h.cores z.fileId (h.file z hz)
  refine ⟨hlength, fun z hz => ⟨hlength ▸ h.file z hz, ?_, (h.ext z hz).1, ?_⟩, ?_⟩
  · exact ((hcores z hz).mem z (List.mem_filter.2 ⟨hz, by simp⟩)).2
  · rw [h.data_length]
    exact (h.ext z hz).2
  · rw [List.pairwise_iff_forall_sublist]
    intro a c hac
    have ha : a ∈ I.chunks := hac.subset List.mem_cons_self
    rcases Nat.lt_or_eq_of_le (List.pairwise_iff_forall_sublist.1 h.order hac) with hlt | heq
    · exact Or.inl hlt
    · -- both are chunks of one file, whose cores follow one another
      refine Or.inr ⟨heq, List.pairwise_iff_forall_sublist.1 (hcores a ha).apart ?_⟩
      have hboth := hac.filter (fun y => decide (y.fileId = a.fileId))
      rwa [List.filter_cons_of_pos (by simp), List.filter_cons_of_pos (by simp [heq]), List.filter_nil] at hboth

end Pergrep
