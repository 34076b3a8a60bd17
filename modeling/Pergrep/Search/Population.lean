import Pergrep.Index.Planner
import Pergrep.Lib.Marks
import Pergrep.Search.Bloom
/-!
# Population — how many chunks a row of the filters has

The planner estimates how many chunks a window leaves from the buckets of its hash: `scopedHashChunks` goes over the eight
sizes of the group filters, over all buckets that share the row of the hash at that size, and over the chunks noted for them.
The number it gets is that of the chunks in scope whose bit is set in the row of their group (`population_exact`), so the
candidates for a literal are no more than it says for any of the hashes asked for.
-/
namespace Pergrep

open Substr BitWords Throw

/-! ## The count -/

/-- `scope_contains`: all files when the scope is empty; else `binary_search`, which looks at the first id that is not
less. -/
def scopeContains (scope : List Nat) (fid : Nat) : Bool :=
  scope.isEmpty || (scope.dropWhile (fun x => decide (x < fid))).head? == some fid

def scopedChunkCount (I : IndexData) (scope : List Nat) : Nat :=
  if scope.isEmpty then I.chunks.length else I.chunks.countP (fun c => scopeContains scope c.fileId)

def countsChunk (I : IndexData) (scope : List Nat) (lg ci : Nat) : Bool :=
  match I.chunks[ci]? with
  | some z => scopeContains scope z.fileId && chunkLg z == lg
  | none   => false

/-- A chunk of a bucket: the marks of the chunks, and how many were marked. -/
def markChunk (I : IndexData) (scope : List Nat) (lg : Nat) (st : (Nat → Nat) × Nat) (ci : Nat) : (Nat → Nat) × Nat :=
  if countsChunk I scope lg ci && st.1 ci != lg - 8 then (Function.update st.1 ci (lg - 8), st.2 + 1) else st

/-- The buckets that share the row of `bucket` at the size `lg`. -/
def bucketsAt (bucket lg : Nat) : List Nat :=
  (List.range 65536).filter (fun b => b &&& (2 ^ lg - 1) == bucket &&& (2 ^ lg - 1))

def scopedHashChunks (I : IndexData) (bucket : Nat) (scope : List Nat) : Nat :=
  if !I.plannerStatsReady then I.chunks.length
  else
    let result := (List.range' 9 8).foldl (fun st lg =>
      (bucketsAt bucket lg).foldl (fun st b => (I.hashChunkIds b).foldl (markChunk I scope lg) st) st) ((fun _ => 0), 0)
    min result.2 (scopedChunkCount I scope)

/-! ## The rows -/

/-- The bit of a chunk is set in the row of its group for a hash. -/
def hasRow (I : IndexData) (h ci : Nat) : Bool :=
  I.groups.any (fun g => (List.range g.gids.length).any (fun li =>
    g.gids[li]? == some ci && getBit g.bits ((h &&& (g.m - 1)) * g.words + li / 64) (li % 64)))

def population (I : IndexData) (scope : List Nat) (h : Nat) : Nat :=
  (List.range I.chunks.length).countP (fun ci => (scope.isEmpty || scope.contains (fileOf I ci)) && hasRow I h ci)

theorem Group.addChunks_bit (I : IndexData) (j l : Nat) : ∀ (cs : List (Chunk × Nat)) (g : Group),
    getBit (g.addChunks I cs).bits j l = true ↔ getBit g.bits j l = true ∨ (j < g.bits.length ∧
      ∃ i c, cs[i]? = some c ∧ ∃ h ∈ qgrams (I.view c.1),
        j = (h &&& (g.m - 1)) * g.words + (g.gids.length + i) / 64 ∧ l = (g.gids.length + i) % 64)
  | [], g => by
    refine ⟨Or.inl, fun h => h.elim id ?_⟩
    rintro ⟨-, i, c, hc, -⟩
    exact nomatch hc
  | c :: cs, g => by
    have ih := Group.addChunks_bit I j l cs (g.addChunk c.2 (I.view c.1))
    rw [show g.addChunks I (c :: cs) = (g.addChunk c.2 (I.view c.1)).addChunks I cs from rfl, ih]
    simp only [Group.addChunk, length_setBits, List.length_append, List.length_singleton, getBit_setBits]
    constructor
    · rintro ((h | ⟨h, hj⟩) | ⟨hj, i, d, hd, hh⟩)
      · exact Or.inl h
      · obtain ⟨x, hx, he⟩ := List.mem_map.1 h
        obtain ⟨rfl, rfl⟩ := Prod.mk.inj he
        exact Or.inr ⟨hj, 0, c, rfl, x, hx, rfl, rfl⟩
      · refine Or.inr ⟨hj, i + 1, d, hd, ?_⟩
        rw [show g.gids.length + (i + 1) = g.gids.length + 1 + i by omega]
        exact hh
    · rintro (h | ⟨hj, i, d, hd, x, hx, hrow, hcol⟩)
      · exact Or.inl (Or.inl h)
      · cases i with
        | zero =>
          obtain rfl : c = d := Option.some.inj hd
          exact Or.inl (Or.inr ⟨List.mem_map.2 ⟨x, hx, Prod.ext hrow.symm hcol.symm⟩, hj⟩)
        | succ i =>
          refine Or.inr ⟨hj, i, d, hd, x, hx, ?_⟩
          rw [show g.gids.length + 1 + i = g.gids.length + (i + 1) by omega]
          exact ⟨hrow, hcol⟩

theorem row_unique {w a b i k : Nat} (hi : i / 64 < w) (hk : k / 64 < w) (h : a * w + i / 64 = b * w + k / 64)
    (hmod : i % 64 = k % 64) : a = b ∧ i = k := by
  have hab : a = b := by
    rcases Nat.lt_trichotomy a b with hlt | heq | hlt
    · have := Nat.mul_le_mul_right w (Nat.succ_le_of_lt hlt)
      rw [Nat.succ_mul] at this
      omega
    · exact heq
    · have := Nat.mul_le_mul_right w (Nat.succ_le_of_lt hlt)
      rw [Nat.succ_mul] at this
      omega
  subst hab
  exact ⟨rfl, by omega⟩

/-- What the bits of a group say, and of which size its chunks are. -/
structure GroupExact (I : IndexData) (g : Group) : Prop where
  lg_eq : ∀ {li ci : Nat} {z : Chunk}, g.gids[li]? = some ci → I.chunks[ci]? = some z → chunkLg z = g.lg
  bit_iff : ∀ {li ci : Nat} {z : Chunk}, g.gids[li]? = some ci → I.chunks[ci]? = some z → ∀ h,
    (getBit g.bits ((h &&& (g.m - 1)) * g.words + li / 64) (li % 64) = true ↔
      ∃ x ∈ qgrams (I.view z), x &&& (g.m - 1) = h &&& (g.m - 1))

theorem groupOf_exact (I : IndexData) {k : Nat} (hk : k < 8) : GroupExact I (groupOf I k) := by
  have hok := groupOf_ok I hk
  have hbits := fun j l => Group.addChunks_bit I j l (I.chunks.zipIdx.filter (fun c => chunkLg c.1 - 9 == k)) (emptyGroup I.chunks k)
  obtain ⟨h1, h2, h3, h4, -⟩ := Group.addChunks_spec I (I.chunks.zipIdx.filter (fun c => chunkLg c.1 - 9 == k))
    (emptyGroup I.chunks k)
  rw [← groupOf] at hbits h1 h2 h3 h4
  have hmember : ∀ {li ci : Nat} {z : Chunk}, (groupOf I k).gids[li]? = some ci → I.chunks[ci]? = some z →
      (I.chunks.zipIdx.filter (fun c => chunkLg c.1 - 9 == k))[li]? = some (z, ci) := by
    intro li ci z hli hz
    rw [h4] at hli
    change (List.map Prod.snd _)[li]? = some ci at hli
    rw [List.getElem?_map, Option.map_eq_some_iff] at hli
    obtain ⟨c, hc, rfl⟩ := hli
    have hmem := List.mem_zipIdx_iff_getElem?.1 (List.mem_filter.1 (List.mem_of_getElem? hc)).1
    obtain rfl : c.1 = z := Option.some.inj (hmem.symm.trans hz)
    exact hc
  refine ⟨fun {li ci z} hli hz => ?_, fun {li ci z} hli hz h => ?_⟩
  · have hkey := (List.mem_filter.1 (List.mem_of_getElem? (hmember hli hz))).2
    have hrange := chunkLg_range z
    have := eq_of_beq hkey
    rw [h1]
    change chunkLg z = k + 9
    dsimp only at this
    omega
  · have hlt : ∀ {li : Nat}, li < (groupOf I k).gids.length → li / 64 < (groupOf I k).words := by
      intro li hli
      rw [hok.words_eq]
      omega
    constructor
    · intro hbit
      rcases (hbits _ _).1 hbit with hbit | ⟨-, i, c, hc, x, hx, hrow, hcol⟩
      · rw [show (emptyGroup I.chunks k).bits = List.replicate _ 0 from rfl, getBit, List.getD_eq_getElem?_getD,
          List.getElem?_replicate] at hbit
        split at hbit <;> exact absurd hbit (by rw [Option.getD, Nat.zero_testBit]; exact Bool.false_ne_true)
      · change _ = (x &&& ((emptyGroup I.chunks k).m - 1)) * (emptyGroup I.chunks k).words + (0 + i) / 64 at hrow
        change _ = (0 + i) % 64 at hcol
        rw [Nat.zero_add, ← h2, ← h3] at hrow
        rw [Nat.zero_add] at hcol
        have hi : i < (groupOf I k).gids.length := by
          rw [h4]
          change i < (List.map Prod.snd _).length
          rw [List.length_map]
          exact (List.getElem?_eq_some_iff.1 hc).1
        obtain ⟨hsame, rfl⟩ := row_unique (hlt (List.getElem?_eq_some_iff.1 hli).1) (hlt hi) hrow hcol
        obtain rfl := Option.some.inj ((hmember hli hz).symm.trans hc)
        exact ⟨x, hx, hsame.symm⟩
    · rintro ⟨x, hx, hrow⟩
      rw [← hrow]
      exact hok.bit hli hz hx

section
variable {I : IndexData} (hI : Built I)
include hI

theorem Built.groupExact {g : Group} (hg : g ∈ I.groups) : GroupExact I g := by
  rw [hI.groups_eq] at hg
  obtain ⟨k, hk⟩ := List.mem_iff_getElem?.1 hg
  rw [buildGroups_getElem?] at hk
  split at hk
  · cases hk
    exact groupOf_exact I ‹_›
  · cases hk

/-- **The bit of a chunk says whether it has a window whose hash ends like the one asked for**, at the size of its group. -/
theorem Built.hasRow_iff {ci : Nat} {z : Chunk} (hz : I.chunks[ci]? = some z) (h : Nat) :
    hasRow I h ci = true ↔ ∃ x ∈ qgrams (I.view z), x % 2 ^ chunkLg z = h % 2 ^ chunkLg z := by
  have hmod : ∀ {g : Group}, g ∈ I.groups → g.lg = chunkLg z → ∀ a, a &&& (g.m - 1) = a % 2 ^ chunkLg z := by
    intro g hg hlg a
    rw [(hI.groupOk hg).m_eq, hlg, Nat.and_two_pow_sub_one_eq_mod]
  constructor
  · intro hrow
    obtain ⟨g, hg, hrow⟩ := List.any_eq_true.1 hrow
    obtain ⟨li, -, hrow⟩ := List.any_eq_true.1 hrow
    obtain ⟨hli, hbit⟩ := Bool.and_eq_true .. ▸ hrow
    have hli := eq_of_beq hli
    obtain ⟨x, hx, hsame⟩ := ((hI.groupExact hg).bit_iff hli hz h).1 hbit
    have hlg := ((hI.groupExact hg).lg_eq hli hz).symm
    rw [hmod hg hlg, hmod hg hlg] at hsame
    exact ⟨x, hx, hsame⟩
  · rintro ⟨x, hx, hsame⟩
    obtain ⟨g, hg, li, hli⟩ := hI.mem_group (List.getElem?_eq_some_iff.1 hz).1
    have hlg := ((hI.groupExact hg).lg_eq hli hz).symm
    rw [← hmod hg hlg, ← hmod hg hlg] at hsame
    have hbit := ((hI.groupExact hg).bit_iff hli hz h).2 ⟨x, hx, hsame⟩
    refine List.any_eq_true.2 ⟨g, hg, List.any_eq_true.2 ⟨li, List.mem_range.2 (List.getElem?_eq_some_iff.1 hli).1, ?_⟩⟩
    rw [hli, hbit, Bool.and_true]
    exact beq_self_eq_true _

end

/-! ## The planner's statistics -/

/-- The buckets of the statistics hold the chunks with a window of that bucket. -/
def BucketsExact (I : IndexData) : Prop :=
  ∀ b ci, ci ∈ I.hashChunkIds b ↔ ∃ z, I.chunks[ci]? = some z ∧ ∃ x ∈ qgrams (I.view z), x % 65536 = b

theorem rebuildPlannerStats_buckets {I : IndexData} (hin : ∀ z ∈ I.chunks, z.InFile I)
    (hready : (rebuildPlannerStats I).plannerStatsReady = true) : BucketsExact (rebuildPlannerStats I) := by
  intro b ci
  obtain ⟨e, f, g, r, hframe⟩ := rebuildPlannerStats_frame I
  have hsame : (rebuildPlannerStats I).chunks = I.chunks ∧ (rebuildPlannerStats I).view = I.view := by
    rw [hframe]
    exact ⟨rfl, rfl⟩
  rw [(rebuildPlannerStats_get hin hready).2.1 b, hsame.1, hsame.2]
  constructor
  · intro hci
    obtain ⟨⟨z, i⟩, hmem, rfl⟩ := List.mem_map.1 hci
    obtain ⟨hz, hbucket⟩ := List.mem_filter.1 hmem
    obtain ⟨x, hx, hxb⟩ := List.any_eq_true.1 hbucket
    exact ⟨z, List.mem_zipIdx_iff_getElem?.1 hz, x, hx, beq_iff_eq.1 hxb⟩
  · rintro ⟨z, hz, x, hx, hxb⟩
    have hbucket : inBucket I b z = true := List.any_eq_true.2 ⟨x, hx, beq_iff_eq.2 hxb⟩
    exact List.mem_map.2 ⟨(z, ci), List.mem_filter.2 ⟨List.mem_zipIdx_iff_getElem?.2 hz, hbucket⟩, rfl⟩

theorem materializeIndexFilters_buckets {I : IndexData} (hI : Built (materializeIndexFilters I))
    (hready : (materializeIndexFilters I).plannerStatsReady = true) : BucketsExact (materializeIndexFilters I) := by
  obtain ⟨e, f, g, r, h⟩ := rebuildPlannerStats_frame { I with chunks := chunksFrom I.opt 0 I.loaded }
  have hin : ∀ z ∈ chunksFrom I.opt 0 I.loaded, z.InFile { I with chunks := chunksFrom I.opt 0 I.loaded } := by
    intro z hz
    have hchunks : (materializeIndexFilters I).chunks = chunksFrom I.opt 0 I.loaded := by
      unfold materializeIndexFilters
      dsimp only
      rw [h]
    have hloaded : (materializeIndexFilters I).loaded = I.loaded := by
      unfold materializeIndexFilters
      dsimp only
      rw [h]
    obtain ⟨h1, h2, h3, h4⟩ := hI.chunk (show z ∈ (materializeIndexFilters I).chunks by rw [hchunks]; exact hz)
    unfold IndexData.data at h3 h4
    rw [hloaded] at h1 h3 h4
    refine ⟨h1, ?_, ?_⟩
    · rw [h4]
      omega
    · rw [h4]
      exact Nat.min_le_left _ _
  exact rebuildPlannerStats_buckets hin hready

/-- **Every index made from documents or built from a tree has exact statistics**, when they are ready. -/
theorem index_buckets {I : IndexData}
    (h : (∃ documents opt, fromDocuments documents opt = .ok I) ∨ ∃ t opt, build t opt = .ok I)
    (hready : I.plannerStatsReady = true) : Built I ∧ BucketsExact I := by
  rcases h with ⟨documents, opt, h⟩ | ⟨t, opt, h⟩
  · have hI := (fromDocuments_built h).1
    obtain ⟨u, -, h⟩ := bind_ok h
    obtain ⟨J, -, h⟩ := bind_ok h
    obtain rfl : materializeIndexFilters J = I := Except.ok.inj h
    exact ⟨hI, materializeIndexFilters_buckets hI hready⟩
  · have hI := (build_built h).1
    obtain ⟨u, -, h⟩ := bind_ok h
    obtain ⟨J, -, h⟩ := bind_ok h
    obtain rfl : materializeIndexFilters J = I := Except.ok.inj h
    exact ⟨hI, materializeIndexFilters_buckets hI hready⟩

/-! ## The count is exact -/

theorem scopeContains_sorted : ∀ {scope : List Nat}, scope.Pairwise (· ≤ ·) → ∀ fid,
    scopeContains scope fid = (scope.isEmpty || scope.contains fid)
  | [], _, _ => rfl
  | x :: scope, hsorted, fid => by
    obtain ⟨hx, hsorted⟩ := List.pairwise_cons.1 hsorted
    have ih := scopeContains_sorted hsorted fid
    rw [scopeContains, List.isEmpty_cons, Bool.false_or, Bool.false_or, List.contains_cons]
    rcases Nat.lt_trichotomy x fid with hlt | rfl | hgt
    · rw [List.dropWhile_cons, if_pos (decide_eq_true hlt), beq_false_of_ne (Nat.ne_of_gt hlt), Bool.false_or]
      cases scope with
      | nil => rfl
      | cons y scope => exact ih
    · rw [List.dropWhile_cons, decide_eq_false (Nat.lt_irrefl x), if_neg Bool.false_ne_true, beq_self_eq_true, Bool.true_or]
      exact beq_self_eq_true _
    · rw [List.dropWhile_cons, decide_eq_false (Nat.not_lt.2 (Nat.le_of_lt hgt)), if_neg Bool.false_ne_true]
      have hnot : (x :: scope).contains fid = false := by
        rw [Bool.eq_false_iff, Ne, List.contains_iff_mem, List.mem_cons, not_or]
        exact ⟨Nat.ne_of_lt hgt, fun h => absurd (hx fid h) (Nat.not_le.2 hgt)⟩
      rw [← List.contains_cons, hnot, List.head?_cons]
      exact beq_false_of_ne (fun he => Nat.ne_of_gt hgt (Option.some.inj he))

def lgOf (I : IndexData) (ci : Nat) : Nat := ((I.chunks[ci]?).map chunkLg).getD 0

theorem lgOf_range {I : IndexData} {ci : Nat} (hci : ci < I.chunks.length) : lgOf I ci ∈ List.range' 9 8 := by
  have := chunkLg_range I.chunks[ci]
  rw [lgOf, List.getElem?_eq_getElem hci]
  exact List.mem_range'_1.2 (by change 9 ≤ chunkLg _ ∧ chunkLg _ < 17; omega)

/-- The buckets that share the row of a hash at the size of a chunk hold it when its bit is set. -/
theorem Built.mem_bucketsAt {I : IndexData} (hI : Built I) (hB : BucketsExact I) {ci : Nat} {z : Chunk}
    (hz : I.chunks[ci]? = some z) (h : Nat) :
    ci ∈ (bucketsAt (h &&& 65535) (chunkLg z)).flatMap I.hashChunkIds ↔ hasRow I h ci = true := by
  have hlg := chunkLg_range z
  have hmask : ∀ a, (a % 65536) % 2 ^ chunkLg z = a % 2 ^ chunkLg z := fun a =>
    Nat.mod_mod_of_dvd a (Nat.pow_dvd_pow 2 (show chunkLg z ≤ 16 by omega))
  have hbucket : h &&& 65535 = h % 65536 := Nat.and_two_pow_sub_one_eq_mod h 16
  rw [hI.hasRow_iff hz, List.mem_flatMap]
  constructor
  · rintro ⟨b, hb, hci⟩
    obtain ⟨z', hz', x, hx, rfl⟩ := (hB b ci).1 hci
    obtain rfl := Option.some.inj (hz.symm.trans hz')
    have hrow := eq_of_beq (List.mem_filter.1 hb).2
    rw [hbucket, Nat.and_two_pow_sub_one_eq_mod, Nat.and_two_pow_sub_one_eq_mod, hmask, hmask] at hrow
    exact ⟨x, hx, hrow⟩
  · rintro ⟨x, hx, hrow⟩
    refine ⟨x % 65536, List.mem_filter.2 ⟨List.mem_range.2 (Nat.mod_lt x (by decide)), ?_⟩, (hB _ ci).2 ⟨z, hz, x, hx, rfl⟩⟩
    rw [hbucket, Nat.and_two_pow_sub_one_eq_mod, Nat.and_two_pow_sub_one_eq_mod, hmask, hmask, hrow]
    exact beq_self_eq_true _

theorem population_le (I : IndexData) {scope : List Nat} (hscope : scope.Pairwise (· ≤ ·)) (h : Nat) :
    population I scope h ≤ scopedChunkCount I scope := by
  have hcount : (List.range I.chunks.length).countP (fun ci => scope.isEmpty || scope.contains (fileOf I ci)) =
      scopedChunkCount I scope := by
    have hfiles : (List.range I.chunks.length).map (fileOf I) = I.chunks.map Chunk.fileId :=
      List.ext_getElem (by rw [List.length_map, List.length_map, List.length_range]) (fun i _ hi => by
        rw [List.length_map] at hi
        rw [List.getElem_map, List.getElem_map, List.getElem_range, fileOf, List.getElem?_eq_getElem hi]
        rfl)
    rw [scopedChunkCount]
    split
    · rename_i hempty
      rw [hempty, show (fun ci => true || scope.contains (fileOf I ci)) = fun _ => true from rfl, List.countP_true, List.length_range]
    · have hmap := congrArg (List.countP (fun fid => scope.isEmpty || scope.contains fid)) hfiles
      rw [List.countP_map, List.countP_map] at hmap
      rw [show (fun ci => scope.isEmpty || scope.contains (fileOf I ci)) =
        (fun fid => scope.isEmpty || scope.contains fid) ∘ fileOf I from rfl, hmap]
      exact congrArg (List.countP · I.chunks) (funext fun z => (scopeContains_sorted hscope z.fileId).symm)
  rw [← hcount, population]
  exact List.countP_mono_left (fun ci _ h => (Bool.and_eq_true .. ▸ h).1)

section
variable {I : IndexData} (hI : Built I) (hB : BucketsExact I)
include hI hB

theorem Built.counted_eq {scope : List Nat} (hscope : scope.Pairwise (· ≤ ·)) (h lg : Nat) :
    ((bucketsAt (h &&& 65535) lg).flatMap I.hashChunkIds).toFinset.filter (fun ci => countsChunk I scope lg ci = true) =
      ((Finset.range I.chunks.length).filter (fun ci =>
        ((scope.isEmpty || scope.contains (fileOf I ci)) && hasRow I h ci) = true)).filter (fun ci => lgOf I ci = lg) := by
  ext ci
  rw [Finset.mem_filter, List.mem_toFinset, Finset.mem_filter, Finset.mem_filter, Finset.mem_range, Bool.and_eq_true]
  cases hz : I.chunks[ci]? with
  | none =>
    have hge := List.getElem?_eq_none_iff.1 hz
    rw [countsChunk, hz]
    constructor
    · exact fun hc => absurd hc.2 Bool.false_ne_true
    · exact fun hc => absurd hc.1.1 (Nat.not_lt.2 hge)
  | some z =>
    have hlt := (List.getElem?_eq_some_iff.1 hz).1
    rw [countsChunk, hz, fileOf, hz, lgOf, hz]
    change _ ∧ (scopeContains scope z.fileId && chunkLg z == lg) = true ↔
      (_ ∧ (scope.isEmpty || scope.contains z.fileId) = true ∧ _) ∧ chunkLg z = lg
    rw [scopeContains_sorted hscope, Bool.and_eq_true, beq_iff_eq]
    constructor
    · rintro ⟨hci, hs, rfl⟩
      exact ⟨⟨hlt, hs, (hI.mem_bucketsAt hB hz h).1 hci⟩, rfl⟩
    · rintro ⟨⟨-, hs, hrow⟩, rfl⟩
      exact ⟨(hI.mem_bucketsAt hB hz h).2 hrow, hs, rfl⟩

theorem Built.rounds_eq {scope : List Nat} (hscope : scope.Pairwise (· ≤ ·)) (h : Nat) :
    ((List.range' 9 8).foldl (fun st lg => (bucketsAt (h &&& 65535) lg).foldl
      (fun st b => (I.hashChunkIds b).foldl (markChunk I scope lg) st) st) ((fun _ => 0), 0)).2 = population I scope h := by
  have hflat : (fun (st : (Nat → Nat) × Nat) lg => (bucketsAt (h &&& 65535) lg).foldl
      (fun st b => (I.hashChunkIds b).foldl (markChunk I scope lg) st) st) =
      (fun st lg => ((bucketsAt (h &&& 65535) lg).flatMap I.hashChunkIds).foldl
        (Marks.mark (countsChunk I scope lg) (lg - 8)) st) := by
    funext st lg
    rw [List.foldl_flatMap]
    rfl
  have hfresh : ∀ lg ∈ List.range' 9 8, ∀ _ : Nat, 0 ≠ lg - 8 := fun lg hlg _ => by
    have := (List.mem_range'_1.1 hlg).1
    omega
  have hpopulation : population I scope h = ((Finset.range I.chunks.length).filter (fun ci =>
      ((scope.isEmpty || scope.contains (fileOf I ci)) && hasRow I h ci) = true)).card := by
    rw [population, List.countP_eq_length_filter, ← List.toFinset_card_of_nodup (List.nodup_range.filter _)]
    congr 1
    ext ci
    rw [List.mem_toFinset, List.mem_filter, Finset.mem_filter, List.mem_range, Finset.mem_range]
  rw [hflat, Marks.foldl_rounds (fun lg => (bucketsAt (h &&& 65535) lg).flatMap I.hashChunkIds) (countsChunk I scope)
    (fun lg => lg - 8) (List.range' 9 8) _ 0 (by decide) hfresh, Nat.zero_add, hpopulation,
    ← List.sum_toFinset _ List.nodup_range', Finset.card_eq_sum_card_fiberwise (t := (List.range' 9 8).toFinset) (f := lgOf I)]
  · exact Finset.sum_congr rfl (fun lg _ => by rw [hI.counted_eq hB hscope])
  · intro ci hci
    exact Finset.mem_coe.2 (List.mem_toFinset.2 (lgOf_range (Finset.mem_range.1 (Finset.mem_filter.1 (Finset.mem_coe.1 hci)).1)))

end

/-! ## The candidates -/

theorem mem_rows_of_packRow {v : QueryClass} {x r : Nat} (h : r ∈ v.flatMap wordRows ∨ r = x) :
    r ∈ (packRow v x).flatMap wordRows := by
  have hnew : x ∈ wordRows (x / 64, 1 <<< (x % 64)) :=
    mem_wordRows.2 ⟨rfl, by rw [Nat.one_shiftLeft, Nat.testBit_two_pow_self]⟩
  have hopened : r ∈ (v ++ [(x / 64, 1 <<< (x % 64))]).flatMap wordRows := by
    rw [List.flatMap_append, List.mem_append, List.flatMap_singleton]
    exact h.imp id (fun he : r = x => he ▸ hnew)
  unfold packRow
  split
  · rename_i w mask hlast
    split
    · rename_i hw
      have hsplit : v.flatMap wordRows = v.dropLast.flatMap wordRows ++ wordRows (w, mask) := by
        conv_lhs => rw [← List.dropLast_append_getLast? (w, mask) hlast]
        rw [List.flatMap_append, List.flatMap_singleton]
      rw [hsplit, List.mem_append] at h
      rw [List.flatMap_append, List.mem_append, List.flatMap_singleton, mem_wordRows, testBit_or_shift]
      rcases h with (h | h) | rfl
      · exact Or.inl h
      · obtain ⟨h1, h2⟩ := mem_wordRows.1 h
        exact Or.inr ⟨h1, Or.inl h2⟩
      · exact Or.inr ⟨hw.symm, Or.inr rfl⟩
    · exact hopened
  · exact hopened

theorem mem_rows_of_queryClass {hashes : List Nat} {x : Nat} (hx : x ∈ hashes) (lg : Nat) :
    (x &&& (2 ^ lg - 1)) ∈ (queryClass hashes lg).flatMap wordRows := by
  have hfold : ∀ (xs : List Nat) (v : QueryClass) (r : Nat), r ∈ v.flatMap wordRows ∨ r ∈ xs →
      r ∈ (xs.foldl packRow v).flatMap wordRows := by
    intro xs
    induction xs with
    | nil => exact fun v r h => h.elim id (fun h => nomatch h)
    | cons y ys ih =>
      intro v r h
      refine ih _ r ?_
      rcases h with h | h
      · exact Or.inl (mem_rows_of_packRow (Or.inl h))
      · rcases List.mem_cons.1 h with h | h
        · exact Or.inl (mem_rows_of_packRow (Or.inr h))
        · exact Or.inr h
  exact hfold _ [] _ (Or.inr (mem_sortDistinct.2 (List.mem_map.2 ⟨x, hx, rfl⟩)))

theorem intersectRows_sound (g : Group) {j l : Nat} : ∀ (qc : QueryClass) (c c' : List Nat),
    intersectRows g qc c = some c' → getBit c' j l = true → getBit c j l = true ∧
      ∀ r ∈ qc.flatMap wordRows, getBit g.bits (r * g.words + j) l = true
  | [], c, c', h, hbit => by
    obtain rfl : c = c' := Option.some.inj h
    exact ⟨hbit, fun r hr => absurd hr List.not_mem_nil⟩
  | wm :: qc, c, c', h, hbit => by
    rw [intersectRows] at h
    split at h
    · obtain ⟨hbit, hrest⟩ := intersectRows_sound g qc _ c' h hbit
      obtain ⟨hbit, hrows⟩ := (getBit_andRows _ _ _ _ _ _).1 hbit
      refine ⟨hbit, fun r hr => ?_⟩
      rw [List.flatMap_cons, List.mem_append] at hr
      exact hr.elim (hrows r) (hrest r)
    · cases h

theorem groupCandidates_rows {I : IndexData} {scope : List Nat} {g : Group} (hg : g ∈ I.groups) (hok : GroupOk I g)
    {hashes : List Nat} {ci h : Nat} (hh : h ∈ hashes) (hci : ci ∈ groupCandidates I scope g (compileQgramQuery hashes)) :
    hasRow I h ci = true := by
  have hrow := mem_rows_of_queryClass hh g.lg
  unfold groupCandidates at hci
  simp only [compileQgramQuery_class hok.lg_range] at hci
  split at hci
  · cases hci
  split at hci
  · rename_i hnone
    rw [List.isEmpty_iff.1 hnone] at hrow
    cases hrow
  split at hci
  · cases hci
  · rename_i c hc
    obtain ⟨li, hli, hget⟩ := List.mem_filterMap.1 (List.mem_filter.1 hci).1
    have hbit := (intersectRows_sound g _ _ _ hc ((mem_positions (by decide)).1 hli)).2 _ hrow
    rw [← hok.m_eq] at hbit
    refine List.any_eq_true.2 ⟨g, hg, List.any_eq_true.2 ⟨li, List.mem_range.2 (List.getElem?_eq_some_iff.1 hget).1, ?_⟩⟩
    rw [hget, hbit, Bool.and_true]
    exact beq_self_eq_true _

theorem uniqueRanked_ne_nil : ∀ {kept xs : List (Nat × Nat)}, kept ≠ [] ∨ xs ≠ [] → uniqueRanked kept xs ≠ []
  | kept, [], h => h.elim id (fun h => absurd rfl h)
  | kept, x :: xs, h => by
    rw [uniqueRanked]
    split
    · rename_i hany
      obtain ⟨k, hk, -⟩ := List.any_eq_true.1 hany
      exact uniqueRanked_ne_nil (Or.inl (List.ne_nil_of_mem hk))
    · exact uniqueRanked_ne_nil (Or.inl (List.append_ne_nil_of_right_ne_nil kept (List.cons_ne_nil x [])))

theorem plannedHashes_ne_nil (I : IndexData) {lit : Bytes} (hlong : 4 ≤ lit.length) : plannedHashes I lit ≠ [] := by
  have hwindows : windows lit ≠ [] := by
    rw [windows, Ne, List.map_eq_nil_iff, List.range_eq_nil]
    omega
  have hone : 0 < adaptiveK I lit := by
    have hdedup : 0 < (qgrams lit).dedup.length := by
      rw [List.length_pos_iff, Ne, List.dedup_eq_nil, qgrams, List.map_eq_nil_iff]
      exact hwindows
    unfold adaptiveK
    dsimp only
    split <;> omega
  unfold plannedHashes
  rw [Ne, List.take_eq_nil_iff, List.map_eq_nil_iff, not_or]
  refine ⟨Nat.ne_of_gt hone, uniqueRanked_ne_nil (Or.inr ?_)⟩
  rw [Ne, ← List.length_eq_zero_iff, List.length_insertionSort, List.length_map, List.length_eq_zero_iff]
  exact hwindows

theorem Built.candidates_le_population {I : IndexData} (hI : Built I) (scope : List Nat) {lit : Bytes} (hlong : 4 ≤ lit.length)
    (hlen : lit.length ≤ I.opt.chunkOverlap) {h : Nat} (hh : h ∈ plannedHashes I lit) :
    (chunkCandidates I scope lit).length ≤ population I scope h := by
  rw [population, List.countP_eq_length_filter]
  refine (List.subperm_of_subset ((hI.laid.chunkCandidates_sorted scope lit).imp Nat.ne_of_lt) (fun ci hci => ?_)).length_le
  have hallowed := hI.laid.chunkCandidates_allowed hci
  have hlt := chunkAllowed_lt hallowed
  refine List.mem_filter.2 ⟨List.mem_range.2 hlt, Bool.and_eq_true _ _ ▸ ⟨?_, ?_⟩⟩
  · by_cases hscope : scope = []
    · subst hscope
      rfl
    · rw [← hI.laid.chunkAllowed_contains hscope hlt, hallowed, Bool.or_true]
  · unfold chunkCandidates at hci
    rw [if_neg (by omega)] at hci
    dsimp only at hci
    rw [hI.laid.insertionSort_chunkLe, mem_sortDistinct] at hci
    obtain ⟨g, hg, hci⟩ := List.mem_flatMap.1 hci
    exact groupCandidates_rows hg (hI.groupOk hg) hh hci

/-- **The bucket count is the population of the row**: the planner counts, for each hash and scope, the chunks in scope whose
bit is set, and so no literal has more candidates than the least of the counts of the hashes asked for.  A scope is sorted,
as `binary_search` asks. -/
theorem population_exact {I : IndexData}
    (h : (∃ documents opt, fromDocuments documents opt = .ok I) ∨ ∃ t opt, build t opt = .ok I)
    (hready : I.plannerStatsReady = true) {scope : List Nat} (hscope : scope.Pairwise (· ≤ ·)) :
    (∀ hash, scopedHashChunks I (hash &&& 65535) scope = population I scope hash) ∧
      ∀ lit : Bytes, 4 ≤ lit.length → lit.length ≤ I.opt.chunkOverlap →
        plannedHashes I lit ≠ [] ∧ ∀ hash ∈ plannedHashes I lit,
          (chunkCandidates I scope lit).length ≤ scopedHashChunks I (hash &&& 65535) scope := by
  obtain ⟨hI, hB⟩ := index_buckets h hready
  have hexact : ∀ hash, scopedHashChunks I (hash &&& 65535) scope = population I scope hash := by
    intro hash
    have hle : population I scope hash ≤ scopedChunkCount I scope := population_le I hscope hash
    rw [scopedHashChunks, hready, Bool.not_true, if_neg Bool.false_ne_true]
    dsimp only
    rw [hI.rounds_eq hB hscope, Nat.min_eq_left hle]
  refine ⟨hexact, fun lit hlong hlen => ⟨plannedHashes_ne_nil I hlong, fun hash hh => ?_⟩⟩
  rw [hexact]
  exact hI.candidates_le_population scope hlong hlen hh

/-- `aaaa` in the file that has it. -/
theorem population_straddling : ∃ I, fromDocuments straddlingDocuments smallChunks = .ok I ∧
    (∀ hash, scopedHashChunks I (hash &&& 65535) [1] = population I [1] hash) ∧
      ∀ hash ∈ plannedHashes I [0x61, 0x61, 0x61, 0x61],
        (chunkCandidates I [1] [0x61, 0x61, 0x61, 0x61]).length ≤ scopedHashChunks I (hash &&& 65535) [1] := by
  obtain ⟨I, h⟩ := straddling_built
  obtain ⟨-, -, -, hopt⟩ := fromDocuments_built h
  have hready : I.plannerStatsReady = true := by
    have hdecide : (fromDocuments straddlingDocuments smallChunks).toOption.map IndexData.plannerStatsReady = some true := by
      decide +kernel
    rw [h] at hdecide
    exact Option.some.inj hdecide
  obtain ⟨hexact, hle⟩ := @population_exact I (Or.inl ⟨_, _, h⟩) hready [1] (by decide)
  exact ⟨I, h, hexact, (hle [0x61, 0x61, 0x61, 0x61] (by decide) (by rw [hopt]; decide)).2⟩

end Pergrep
