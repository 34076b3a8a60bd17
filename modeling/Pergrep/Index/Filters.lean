import Pergrep.Index.Chunks
/-!
# Filters — the filters have every window they were filled from

A group's filter has a bit for each window of each of its chunks (`GroupOk.bit`); a chunk's positional filter has a
bit for each window of each of its blocks (`Built.pos_bit`).  A filter is never asked about anything else, so it loses
nothing: see `CandidatesSpec`.
-/
namespace Pergrep

open BitWords Substr

/-! ## Windows -/

theorem mem_windows {s w : Bytes} : w ∈ windows s ↔ ∃ j, j + 4 ≤ s.length ∧ (s.drop j).take 4 = w := by
  rw [windows, List.mem_map]
  constructor
  · rintro ⟨j, hj, rfl⟩
    rw [List.mem_range] at hj
    exact ⟨j, by omega, rfl⟩
  · rintro ⟨j, hj, rfl⟩
    exact ⟨j, List.mem_range.2 (by omega), rfl⟩

theorem mem_qgrams {s : Bytes} {h : Nat} : h ∈ qgrams s ↔ ∃ w ∈ windows s, hash4 w = h := List.mem_map

theorem windows_of_occursAt {s q w : Bytes} {x : Nat} (h : occursAt s q x = true) (hw : w ∈ windows q) : w ∈ windows s := by
  obtain ⟨j, hj, rfl⟩ := mem_windows.1 hw
  have hle := occursAt_le h
  refine mem_windows.2 ⟨x + j, by omega, List.ext_getElem? (fun i => ?_)⟩
  rw [List.getElem?_take, List.getElem?_take]
  split
  · rw [List.getElem?_drop, List.getElem?_drop, Nat.add_assoc]
    exact ((occursAt_iff_getElem s q x).1 h).2 (j + i) (by omega)
  · rfl

theorem qgrams_of_occursAt {s q : Bytes} {x h : Nat} (ho : occursAt s q x = true) (hh : h ∈ qgrams q) : h ∈ qgrams s := by
  obtain ⟨w, hw, rfl⟩ := mem_qgrams.1 hh
  exact mem_qgrams.2 ⟨w, windows_of_occursAt ho hw, rfl⟩

/-! ## Size classes -/

theorem lgLoop_range (want : Nat) : ∀ (fuel b lg : Nat), lg ≤ lgLoop want fuel b lg ∧ lgLoop want fuel b lg ≤ lg + fuel
  | 0, _, _ => ⟨Nat.le_refl _, Nat.le_refl _⟩
  | fuel + 1, b, lg => by
    rw [lgLoop]
    split
    · obtain ⟨h1, h2⟩ := lgLoop_range want fuel (b * 2) (lg + 1)
      exact ⟨by omega, by omega⟩
    · exact ⟨Nat.le_refl _, by omega⟩

theorem chunkLg_range (c : Chunk) : 9 ≤ chunkLg c ∧ chunkLg c ≤ 16 := lgLoop_range _ 7 512 9

/-! ## Groups -/

def Group.addChunks (I : IndexData) (g : Group) (cs : List (Chunk × Nat)) : Group :=
  cs.foldl (fun g c => g.addChunk c.2 (I.view c.1)) g

theorem foldl_modify {α β : Type*} (key : α → Nat) (f : β → α → β) : ∀ (as : List α) (gs : List β) (k : Nat),
    (as.foldl (fun gs a => gs.modify (key a) (fun g => f g a)) gs)[k]? =
      (gs[k]?).map (fun g => (as.filter (fun a => key a == k)).foldl f g)
  | [], gs, k => by simp
  | a :: as, gs, k => by
    rw [List.foldl_cons, foldl_modify key f as, List.getElem?_modify]
    by_cases hk : key a = k
    · rw [List.filter_cons_of_pos (by simpa using hk)]
      cases gs[k]? with
      | none   => simp
      | some g => simp [hk]
    · rw [List.filter_cons_of_neg (by simpa using hk)]
      cases gs[k]? with
      | none   => simp
      | some g => simp [hk]

/-- **What a group is after its chunks joined.** -/
theorem Group.addChunks_spec (I : IndexData) : ∀ (cs : List (Chunk × Nat)) (g : Group),
    (g.addChunks I cs).lg = g.lg ∧ (g.addChunks I cs).m = g.m ∧ (g.addChunks I cs).words = g.words ∧
      (g.addChunks I cs).gids = g.gids ++ cs.map Prod.snd ∧ (g.addChunks I cs).bits.length = g.bits.length ∧
      (∀ j l, getBit g.bits j l = true → getBit (g.addChunks I cs).bits j l = true) ∧
      ∀ i c, cs[i]? = some c → ∀ h ∈ qgrams (I.view c.1),
        (h &&& (g.m - 1)) * g.words + (g.gids.length + i) / 64 < g.bits.length →
          getBit (g.addChunks I cs).bits ((h &&& (g.m - 1)) * g.words + (g.gids.length + i) / 64)
            ((g.gids.length + i) % 64) = true
  | [], g => by simp [Group.addChunks]
  | c :: cs, g => by
    obtain ⟨h1, h2, h3, h4, h5, h6, h7⟩ := Group.addChunks_spec I cs (g.addChunk c.2 (I.view c.1))
    rw [show g.addChunks I (c :: cs) = (g.addChunk c.2 (I.view c.1)).addChunks I cs from rfl]
    simp only [Group.addChunk, length_setBits, List.length_append, List.length_singleton] at h1 h2 h3 h4 h5 h6 h7 ⊢
    refine ⟨h1, h2, h3, ?_, h5, fun j l h => h6 j l ((getBit_setBits _ _ _ _).2 (Or.inl h)), fun i d hi h hh hlt => ?_⟩
    · rw [h4, List.map_cons, List.append_assoc, List.singleton_append]
    · cases i with
      | zero =>
        obtain rfl : c = d := by simpa using hi
        refine h6 _ _ ((getBit_setBits _ _ _ _).2 (Or.inr ⟨?_, hlt⟩))
        exact List.mem_map.2 ⟨h, hh, rfl⟩
      | succ i =>
        rw [List.getElem?_cons_succ] at hi
        have := h7 i d hi h hh
        rw [show g.gids.length + 1 + i = g.gids.length + (i + 1) by omega] at this
        exact this hlt

def groupOf (I : IndexData) (k : Nat) : Group :=
  (emptyGroup I.chunks k).addChunks I (I.chunks.zipIdx.filter (fun c => chunkLg c.1 - 9 == k))

/-- What holds of a group of a built index. -/
structure GroupOk (I : IndexData) (g : Group) : Prop where
  words_eq : g.words = (g.gids.length + 63) / 64
  lg_range : 9 ≤ g.lg ∧ g.lg ≤ 16
  m_eq : g.m = 2 ^ g.lg
  chunk : ∀ {li ci : Nat}, g.gids[li]? = some ci → ci < I.chunks.length
  bit : ∀ {li ci : Nat} {z : Chunk} {h : Nat}, g.gids[li]? = some ci → I.chunks[ci]? = some z → h ∈ qgrams (I.view z) →
    getBit g.bits ((h &&& (g.m - 1)) * g.words + li / 64) (li % 64) = true

theorem groupOf_ok (I : IndexData) {k : Nat} (hk : k < 8) : GroupOk I (groupOf I k) := by
  unfold groupOf
  obtain ⟨h1, h2, h3, h4, h5, h6, h7⟩ := Group.addChunks_spec I (I.chunks.zipIdx.filter (fun c => chunkLg c.1 - 9 == k))
    (emptyGroup I.chunks k)
  generalize (emptyGroup I.chunks k).addChunks I (I.chunks.zipIdx.filter (fun c => chunkLg c.1 - 9 == k)) = g
    at h1 h2 h3 h4 h5 h6 h7 ⊢
  simp only [emptyGroup, List.nil_append, List.length_replicate, List.length_nil, Nat.zero_add] at h1 h2 h3 h4 h5 h6 h7
  have hcount : I.chunks.countP (fun c => chunkLg c == k + 9) = g.gids.length := by
    have hfst := List.countP_map (p := fun c => chunkLg c == k + 9) (f := Prod.fst) (l := I.chunks.zipIdx)
    rw [List.zipIdx_map_fst] at hfst
    rw [hfst, h4, List.length_map, List.countP_eq_length_filter]
    congr 1
    refine List.filter_congr (fun c _ => ?_)
    have := chunkLg_range c.1
    rw [Function.comp_apply, Bool.eq_iff_iff, beq_iff_eq, beq_iff_eq]
    omega
  rw [hcount] at h3 h5 h7
  refine ⟨h3, by omega, by rw [h2, h1], fun {li ci} hli => ?_, fun {li ci z h} hli hz hh => ?_⟩
  · rw [h4, List.getElem?_map, Option.map_eq_some_iff] at hli
    obtain ⟨c, hc, rfl⟩ := hli
    have hmem := (List.mem_filter.1 (List.mem_of_getElem? hc)).1
    have := List.mem_zipIdx hmem
    omega
  · have hlt : li < g.gids.length := (List.getElem?_eq_some_iff.1 hli).1
    have hget := hli
    rw [h4, List.getElem?_map, Option.map_eq_some_iff] at hget
    obtain ⟨c, hc, rfl⟩ := hget
    have hmem := List.mem_zipIdx_iff_getElem?.1 (List.mem_filter.1 (List.mem_of_getElem? hc)).1
    obtain rfl : c.1 = z := by simpa [hz] using hmem.symm
    rw [h2, h3]
    refine h7 li c hc h hh ?_
    -- the row is one of the rows, the word one of its words
    have hrow : h &&& (2 ^ (k + 9) - 1) < 2 ^ (k + 9) :=
      Nat.lt_of_le_of_lt Nat.and_le_right (Nat.sub_lt (Nat.two_pow_pos _) (Nat.zero_lt_one))
    have hword : li / 64 < (g.gids.length + 63) / 64 := by omega
    calc (h &&& (2 ^ (k + 9) - 1)) * ((g.gids.length + 63) / 64) + li / 64
        < ((h &&& (2 ^ (k + 9) - 1)) + 1) * ((g.gids.length + 63) / 64) := by rw [Nat.succ_mul]; omega
      _ ≤ 2 ^ (k + 9) * ((g.gids.length + 63) / 64) := Nat.mul_le_mul_right _ hrow

theorem buildGroups_getElem? (I : IndexData) (k : Nat) :
    (buildGroups I)[k]? = if k < 8 then some (groupOf I k) else none := by
  unfold buildGroups
  rw [foldl_modify (fun c : Chunk × Nat => chunkLg c.1 - 9) (fun (g : Group) c => g.addChunk c.2 (I.view c.1))]
  rw [List.getElem?_map]
  split
  · rename_i hk
    rw [List.getElem?_range hk]
    rfl
  · rename_i hk
    rw [List.getElem?_eq_none (by simpa using hk)]
    rfl

section
variable {I : IndexData} (hI : Built I)
include hI

/-- **Every group is in order.** -/
theorem Built.groupOk {g : Group} (hg : g ∈ I.groups) : GroupOk I g := by
  rw [hI.groups_eq] at hg
  obtain ⟨k, hk⟩ := List.mem_iff_getElem?.1 hg
  rw [buildGroups_getElem?] at hk
  split at hk
  · cases hk
    exact groupOf_ok I ‹_›
  · cases hk

/-- **Every chunk is in a group.** -/
theorem Built.mem_group {ci : Nat} (hci : ci < I.chunks.length) : ∃ g ∈ I.groups, ∃ li : Nat, g.gids[li]? = some ci := by
  have hz : I.chunks[ci]? = some I.chunks[ci] := List.getElem?_eq_getElem hci
  have hrange := chunkLg_range I.chunks[ci]
  refine ⟨groupOf I (chunkLg I.chunks[ci] - 9), ?_, ?_⟩
  · rw [hI.groups_eq]
    refine List.mem_of_getElem? (i := chunkLg I.chunks[ci] - 9) ?_
    rw [buildGroups_getElem?, if_pos (by omega)]
  · have hmem : (I.chunks[ci], ci) ∈ I.chunks.zipIdx.filter (fun c => chunkLg c.1 - 9 == chunkLg I.chunks[ci] - 9) :=
      List.mem_filter.2 ⟨List.mem_zipIdx_iff_getElem?.2 hz, by simp⟩
    rw [groupOf, (Group.addChunks_spec I _ _).2.2.2.1]
    exact List.mem_iff_getElem?.1 (List.mem_append_right _ (List.mem_map.2 ⟨_, hmem, rfl⟩))

end

/-! ## The positional filters -/

theorem chooseMLoop_ge (want : Nat) : ∀ (fuel m : Nat), m ≤ chooseMLoop want fuel m
  | 0, _ => Nat.le_refl _
  | fuel + 1, m => by
    rw [chooseMLoop]
    split
    · exact Nat.le_trans (by omega) (chooseMLoop_ge want fuel (m * 2))
    · exact Nat.le_refl _

theorem posDescs_spec (I : IndexData) : ∀ (zs : List Chunk) (total : Nat),
    (posDescs I total zs).1.length = zs.length ∧ total ≤ (posDescs I total zs).2 ∧
      ∀ (i : Nat) (d : PosDesc) (z : Chunk), (posDescs I total zs).1[i]? = some d → zs[i]? = some z →
        d = posDescOf I d.off z ∧ d.off + d.m * d.maskBytes ≤ (posDescs I total zs).2
  | [], total => by simp [posDescs]
  | z :: zs, total => by
    obtain ⟨h1, h2, h3⟩ := posDescs_spec I zs (total + (posDescOf I total z).m * (posDescOf I total z).maskBytes)
    rw [posDescs]
    refine ⟨by simpa using h1, by dsimp only; omega, fun i d y hd hy => ?_⟩
    cases i with
    | zero =>
      obtain rfl : posDescOf I total z = d := by simpa using hd
      obtain rfl : z = y := by simpa using hy
      exact ⟨rfl, h2⟩
    | succ i => exact h3 i d y hd hy

section
variable {I : IndexData} (hI : Built I)
include hI

theorem Built.posDesc_of {ci : Nat} {z : Chunk} (hz : I.chunks[ci]? = some z) :
    ∃ off, I.posDesc[ci]? = some (posDescOf I off z) := by
  obtain ⟨h1, -, h3⟩ := posDescs_spec I I.chunks 0
  rw [hI.posDesc_eq]
  have hlt : ci < (posDescs I 0 I.chunks).1.length := by
    rw [h1]
    exact (List.getElem?_eq_some_iff.1 hz).1
  obtain ⟨hd, -⟩ := h3 ci _ z (List.getElem?_eq_getElem hlt) hz
  exact ⟨_, (List.getElem?_eq_getElem hlt).trans (congrArg some hd)⟩

/-- **The positional filter has the windows of every block.** -/
theorem Built.pos_bit {ci : Nat} {z : Chunk} {d : PosDesc} (hz : I.chunks[ci]? = some z) (hd : I.posDesc[ci]? = some d)
    {bi h : Nat} (hbi : bi < d.blocks) (hrb : bi * I.posBlock < z.extEnd - z.coreBegin)
    (hh : h ∈ qgrams (slice (I.data z.fileId) (z.coreBegin + bi * I.posBlock)
      (z.coreBegin + min (z.extEnd - z.coreBegin) (bi * I.posBlock + I.posBlock + positionalOverlap)))) :
    getBit I.pos (d.off + (h &&& (d.m - 1)) * d.maskBytes + bi / 8) (bi % 8) = true := by
  rw [hI.pos_eq, buildPos, getBit_setBits]
  refine Or.inr ⟨?_, ?_⟩
  · -- the bit is one of those set for the block
    refine List.mem_flatMap.2 ⟨(z, d), List.mem_of_getElem? (i := ci) ?_, List.mem_flatMap.2 ⟨bi, List.mem_range.2 hbi, ?_⟩⟩
    · rw [List.getElem?_zip_eq_some]
      exact ⟨hz, hd⟩
    · rw [blockBits]
      simp only
      rw [if_neg (Nat.not_le.2 hrb)]
      exact List.mem_map.2 ⟨h, hh, rfl⟩
  · -- its word is in the array
    rw [List.length_replicate]
    obtain ⟨-, -, h3⟩ := posDescs_spec I I.chunks 0
    rw [hI.posDesc_eq] at hd
    obtain ⟨heq, hle⟩ := h3 ci d z hd hz
    have hm : 0 < d.m := by
      rw [heq]
      exact Nat.lt_of_lt_of_le (by decide : 0 < 64) (chooseMLoop_ge _ 4 64)
    have hmask : d.maskBytes = (d.blocks + 7) / 8 := by
      rw [heq]
      rfl
    have hrow : h &&& (d.m - 1) < d.m := Nat.lt_of_le_of_lt Nat.and_le_right (Nat.sub_lt hm Nat.zero_lt_one)
    have hword : bi / 8 < d.maskBytes := by omega
    refine Nat.lt_of_lt_of_le ?_ hle
    calc d.off + (h &&& (d.m - 1)) * d.maskBytes + bi / 8
        < d.off + ((h &&& (d.m - 1)) + 1) * d.maskBytes := by rw [Nat.succ_mul]; omega
      _ ≤ d.off + d.m * d.maskBytes := Nat.add_le_add_left (Nat.mul_le_mul_right _ hrow) _

end

end Pergrep
