import Pergrep.Index.Filters
import Pergrep.Index.SnapshotReads
import Pergrep.Index.SnapshotSafe
/-!
# SnapshotSpec — a built index passes the loader's checks

The geometry checks of `load_impl` are all true of the tables of a built index: of its chunks (`chunksFrom_pass`), of its
groups (`Built.groups_pass`) and of its positional descriptors (`checkPosDescs_built`).
-/
namespace Pergrep

open Reader BitWords

/-! ## Chunks -/

def ChunkScan.advance (st : ChunkScan) (z : Chunk) : ChunkScan where
  chunks := st.chunks ++ [z]
  nextCore := Function.update st.nextCore z.fileId z.coreEnd
  fileSeen := Function.update st.fileSeen z.fileId true
  previousFile := z.fileId

/-- A chunk starts a file before the last one ended. -/
def LeavesFile (infos : List FileInfo) (st : ChunkScan) (z : Chunk) : Prop :=
  st.chunks ≠ [] ∧ st.previousFile < z.fileId ∧ st.nextCore st.previousFile ≠ (infos.map FileInfo.size).getD st.previousFile 0

/-- The checks of the chunk loop, and those after it. -/
def ChunksPass (opt : IndexOptions) (infos : List FileInfo) : ChunkScan → List Chunk → Prop
  | st, [] => ∀ fid, fid < infos.length → st.fileSeen fid = true ∧ st.nextCore fid = (infos.map FileInfo.size).getD fid 0
  | st, z :: zs => ¬ badChunk opt infos st z = true ∧ ¬ LeavesFile infos st z ∧ ChunksPass opt infos (st.advance z) zs

theorem advances_chunks : ∀ (zs : List Chunk) (st : ChunkScan), (zs.foldl ChunkScan.advance st).chunks = st.chunks ++ zs
  | [], st => (List.append_nil _).symm
  | z :: zs, st => by
    rw [List.foldl_cons, advances_chunks zs, ChunkScan.advance, List.append_assoc, List.singleton_append]

theorem ChunksPass.done {opt : IndexOptions} {infos : List FileInfo} : ∀ {zs : List Chunk} {st : ChunkScan},
    ChunksPass opt infos st zs → ∀ fid, fid < infos.length →
      (zs.foldl ChunkScan.advance st).fileSeen fid = true ∧
        (zs.foldl ChunkScan.advance st).nextCore fid = (infos.map FileInfo.size).getD fid 0
  | [], _, h => h
  | _ :: _, _, h => by
    have hrest := ChunksPass.done h.2.2
    exact hrest

/-- The scan is in file `fid`, whose cores it has up to `b`. -/
structure Within (infos : List FileInfo) (fid b : Nat) (st : ChunkScan) : Prop where
  before : ∀ f, f < fid → st.fileSeen f = true ∧ st.nextCore f = (infos.map FileInfo.size).getD f 0
  here : st.nextCore fid = b
  after : ∀ f, fid < f → st.nextCore f = 0
  last : st.chunks ≠ [] → st.previousFile ≤ fid

section
variable {infos : List FileInfo} {fid b : Nat} {st : ChunkScan}

theorem Within.advance (h : Within infos fid b st) {z : Chunk} (hz : z.fileId = fid) :
    Within infos fid z.coreEnd (st.advance z) ∧ (st.advance z).fileSeen fid = true := by
  subst hz
  refine ⟨⟨fun f hf => ?_, Function.update_self .., fun f hf => ?_, fun _ => Nat.le_refl _⟩, Function.update_self ..⟩
  · have hne : f ≠ z.fileId := Nat.ne_of_lt hf
    dsimp only [ChunkScan.advance]
    rw [Function.update_of_ne hne, Function.update_of_ne hne]
    exact h.before f hf
  · dsimp only [ChunkScan.advance]
    rw [Function.update_of_ne (Nat.ne_of_gt hf)]
    exact h.after f hf

theorem Within.next (h : Within infos fid b st) (hseen : st.fileSeen fid = true)
    (hb : b = (infos.map FileInfo.size).getD fid 0) : Within infos (fid + 1) 0 st := by
  refine ⟨fun f hf => ?_, h.after _ (Nat.lt_succ_self _), fun f hf => h.after f (by omega), fun hne => ?_⟩
  · rcases Nat.lt_succ_iff_lt_or_eq.1 hf with hf | rfl
    · exact h.before f hf
    · exact ⟨hseen, h.here.trans hb⟩
  · exact (h.last hne).trans (Nat.le_succ _)

theorem Within.chunk_pass (h : Within infos fid b st) (opt : IndexOptions) {z : Chunk} (hz : z.fileId = fid)
    (hfid : fid < infos.length) (hbegin : z.coreBegin = b) (hcore : b ≤ z.coreEnd) (hext : z.coreEnd ≤ z.extEnd)
    (hfit : z.extEnd ≤ (infos.map FileInfo.size).getD fid 0) (hlen : z.coreEnd - b ≤ opt.chunkBytes)
    (hover : z.extEnd ≤ z.coreEnd + opt.chunkOverlap) (hsmall : z.coreEnd + opt.chunkOverlap < 2 ^ 64)
    (hempty : b = z.coreEnd → (infos.map FileInfo.size).getD fid 0 = 0) :
    ¬ badChunk opt infos st z = true ∧ ¬ LeavesFile infos st z := by
  subst hz
  constructor
  · simp only [badChunk, Bool.or_eq_true, Bool.and_eq_true, decide_eq_true_eq, bne_iff_ne, beq_iff_eq, Bool.not_eq_true',
      List.isEmpty_eq_false_iff, h.here, hbegin]
    rintro ((((((((h1 | h1) | h1) | h1) | h1) | h1 | h1) | ⟨h1, h2⟩) | h1) | ⟨h1, h2⟩)
    · omega
    · omega
    · omega
    · omega
    · omega
    · omega
    · omega
    · exact absurd (h.last h1) (Nat.not_le.2 h2)
    · exact h1 rfl
    · exact h2 (hempty h1)
  · rintro ⟨-, hlt, hne⟩
    exact hne (h.before _ hlt).2

end

section
variable {opt : IndexOptions} {infos : List FileInfo} (hbytes : 0 < opt.chunkBytes) (hoverlap : opt.chunkOverlap < 2 ^ 32)
include hbytes hoverlap

theorem chunkLoop_pass {fid n : Nat} (hfid : fid < infos.length) (hn : (infos.map FileInfo.size).getD fid 0 = n)
    (hsmall : n < 2 ^ 32) {rest : List Chunk}
    (hrest : ∀ st, Within infos fid n st → st.fileSeen fid = true → ChunksPass opt infos st rest) :
    ∀ (fuel b : Nat) (st : ChunkScan), n - b ≤ fuel → b < n → Within infos fid b st →
      ChunksPass opt infos st (chunkLoop opt fid n fuel b ++ rest)
  | 0, b, st, hfuel, hb, _ => absurd hfuel (by omega)
  | fuel + 1, b, st, hfuel, hb, h => by
    rw [chunkLoop, if_pos hb]
    dsimp only
    obtain ⟨hadv, hseen⟩ := h.advance (z := { fileId := fid, coreBegin := b, coreEnd := min n (b + opt.chunkBytes)
                                              extEnd := min n (min n (b + opt.chunkBytes) + opt.chunkOverlap) }) rfl
    obtain ⟨h1, h2⟩ := h.chunk_pass opt (z := { fileId := fid, coreBegin := b, coreEnd := min n (b + opt.chunkBytes)
                                                extEnd := min n (min n (b + opt.chunkBytes) + opt.chunkOverlap) })
      rfl hfid rfl (by dsimp only; omega) (by dsimp only; omega) (by rw [hn]; exact Nat.min_le_left _ _)
      (by dsimp only; omega) (Nat.min_le_right _ _) (by dsimp only; omega) (by dsimp only; omega)
    refine ⟨h1, h2, ?_⟩
    rcases Nat.lt_or_ge (b + opt.chunkBytes) n with hin | hin
    · rw [Nat.min_eq_right (Nat.le_of_lt hin)] at hadv ⊢
      exact chunkLoop_pass hfid hn hsmall hrest fuel _ _ (by omega) hin hadv
    · -- the last chunk of the file
      rw [Nat.min_eq_left hin] at hadv hseen ⊢
      rw [chunkLoop_stop opt fid hin]
      exact hrest _ hadv hseen

/-- **The chunks of all files pass.** -/
theorem chunksFrom_pass : ∀ (ss : List Bytes) (fid : Nat) (st : ChunkScan),
    (∀ i, (infos.map FileInfo.size).getD (fid + i) 0 = (ss.map List.length).getD i 0) → infos.length = fid + ss.length →
      (∀ s ∈ ss, s.length < 2 ^ 32) → Within infos fid 0 st → ChunksPass opt infos st (chunksFrom opt fid ss)
  | [], fid, st, _, hlen, _, h => fun f hf => h.before f (by simpa [hlen] using hf)
  | s :: ss, fid, st, hsize, hlen, hsmall, h => by
    have hn : (infos.map FileInfo.size).getD fid 0 = s.length := hsize 0
    have hfid : fid < infos.length := by
      rw [hlen, List.length_cons]
      omega
    have hnext : ∀ st, Within infos fid s.length st → st.fileSeen fid = true →
        ChunksPass opt infos st (chunksFrom opt (fid + 1) ss) := fun st hst hseen => by
      refine chunksFrom_pass ss (fid + 1) st (fun i => ?_) (by rw [hlen, List.length_cons]; omega)
        (fun t ht => hsmall t (List.mem_cons_of_mem s ht)) (hst.next hseen hn.symm)
      have := hsize (i + 1)
      rw [show fid + (i + 1) = fid + 1 + i by omega] at this
      exact this
    rw [chunksFrom, fileChunks]
    split
    · rename_i hzero
      rw [List.singleton_append]
      obtain ⟨hadv, hseen⟩ := h.advance (z := { fileId := fid, coreBegin := 0, coreEnd := 0, extEnd := 0 }) rfl
      obtain ⟨h1, h2⟩ := h.chunk_pass opt (z := { fileId := fid, coreBegin := 0, coreEnd := 0, extEnd := 0 }) rfl hfid
        rfl (Nat.le_refl _) (Nat.le_refl _) (Nat.zero_le _) (Nat.zero_le _) (Nat.zero_le _) (by dsimp only; omega)
        (fun _ => hn.trans hzero)
      exact ⟨h1, h2, hnext _ (by rwa [hzero]) hseen⟩
    · exact chunkLoop_pass hbytes hoverlap hfid hn (hsmall s List.mem_cons_self) hnext _ 0 st (by omega) (by omega) h

end

/-- **Chunks that pass are read.** -/
theorem reads_chunks {rest : Bytes} {opt : IndexOptions} {infos : List FileInfo} {chunks : List Chunk}
    (hlen : chunks.length < 2 ^ 64) (hfit : ∀ z ∈ chunks, ChunkFits z) (hpass : ChunksPass opt infos {} chunks) :
    Reads rest (getChunks opt infos) (putRecords putChunk chunks) (chunks.length ≤ maxChunks) chunks := by
  have hstep : ∀ (st : ChunkScan) (z : Chunk) (zs : List Chunk) (rest : Bytes),
      (ChunksPass opt infos st (z :: zs) ∧ ∀ y ∈ z :: zs, ChunkFits y) →
        Reads rest (chunkStep opt infos st) (putChunk z) True (st.advance z) ∧
          (ChunksPass opt infos (st.advance z) zs ∧ ∀ y ∈ zs, ChunkFits y) := by
    rintro st z zs rest ⟨⟨h1, h2, h3⟩, hf⟩
    refine ⟨?_, h3, fun y hy => hf y (List.mem_cons_of_mem z hy)⟩
    unfold chunkStep
    refine ((reads_chunk (hf z List.mem_cons_self)).finish (fun _ => Reads.passed h1 ?_)).congr (and_iff_left trivial)
    refine Reads.passed ?_ (Reads.pure _)
    exact h2
  have hloop := @Reads.loop _ _ _ _ (chunkStep opt infos) putChunk (fun _ => True) ChunkScan.advance
    (fun st zs => ChunksPass opt infos st zs ∧ ∀ y ∈ zs, ChunkFits y) hstep chunks {} rest ⟨hpass, hfit⟩
  have hdone : ¬ ∃ fid, fid < infos.length ∧ ((chunks.foldl ChunkScan.advance {}).fileSeen fid = false ∨
      (chunks.foldl ChunkScan.advance {}).nextCore fid ≠ (infos.map FileInfo.size).getD fid 0) := by
    rintro ⟨fid, hfid, h⟩
    obtain ⟨h1, h2⟩ := hpass.done fid hfid
    rcases h with h | h
    · rw [h1] at h
      cases h
    · exact h h2
  have hwidth := @width_le_flatMap _ putChunk 28 (fun z => by simp [putChunk]) chunks
  have hend : Reads rest (do
      reject (∃ fid, fid < infos.length ∧ ((chunks.foldl ChunkScan.advance {}).fileSeen fid = false ∨
        (chunks.foldl ChunkScan.advance {}).nextCore fid ≠ (infos.map FileInfo.size).getD fid 0))
        { text := "pergrep index: invalid chunk relationships" }
      return (chunks.foldl ChunkScan.advance {}).chunks : Loader (List Chunk)) [] True chunks := by
    refine Reads.passed hdone ?_
    rw [advances_chunks, List.nil_append]
    exact Reads.pure chunks
  unfold getChunks
  exact (reads_count hlen (by decide) hwidth (hloop.finish (fun _ => hend))).congr (by simp)

/-! ## Groups -/

/-- A group whose numbers fit their fields. -/
structure GroupFits (g : Group) : Prop where
  lg : g.lg < 2 ^ 8
  m : g.m < 2 ^ 32
  words : g.words < 2 ^ 32
  gids : g.gids.length < 2 ^ 64 ∧ ∀ x ∈ g.gids, x < 2 ^ 32
  bits : g.bits.length < 2 ^ 64 ∧ ∀ x ∈ g.bits, x < 2 ^ 64

/-- What the loader checks of a group in itself. -/
structure GroupShape (chunks : List Chunk) (g : Group) : Prop where
  lg : 9 ≤ g.lg ∧ g.lg ≤ 16
  m : g.m = 2 ^ g.lg
  words : g.words = (g.gids.length + 63) / 64
  bits : g.bits.length = 2 ^ g.lg * g.words
  gids : ∀ x ∈ g.gids, x < chunks.length ∧ (chunks.map chunkLg).getD x 0 = g.lg

def GroupScan.advance (st : GroupScan) (g : Group) : GroupScan where
  groups := st.groups ++ [g]
  grouped := g.gids.foldl (fun grouped x => Function.update grouped x true) st.grouped

theorem grouped_foldl : ∀ (xs : List Nat) (grouped : Nat → Bool) (x : Nat),
    xs.foldl (fun grouped x => Function.update grouped x true) grouped x = true ↔ grouped x = true ∨ x ∈ xs
  | [], grouped, x => by simp
  | y :: ys, grouped, x => by
    rw [List.foldl_cons, grouped_foldl ys, List.mem_cons]
    by_cases hx : x = y
    · subst hx
      simp
    · rw [Function.update_of_ne hx]
      simp [hx]

theorem advances_grouped : ∀ (gs : List Group) (st : GroupScan),
    (gs.foldl GroupScan.advance st).groups = st.groups ++ gs ∧
      ∀ x, (gs.foldl GroupScan.advance st).grouped x = true ↔ st.grouped x = true ∨ x ∈ gs.flatMap Group.gids
  | [], st => by simp
  | g :: gs, st => by
    obtain ⟨h1, h2⟩ := advances_grouped gs (st.advance g)
    rw [List.foldl_cons]
    refine ⟨by rw [h1, GroupScan.advance, List.append_assoc, List.singleton_append], fun x => ?_⟩
    rw [h2 x, GroupScan.advance, grouped_foldl, List.flatMap_cons, List.mem_append, or_assoc]

theorem checkGids_pass {chunks : List Chunk} {lg : Nat} : ∀ {gids : List Nat} {grouped : Nat → Bool}, gids.Nodup →
    (∀ x ∈ gids, x < chunks.length ∧ grouped x = false ∧ (chunks.map chunkLg).getD x 0 = lg) →
      checkGids chunks lg gids grouped = .ok (gids.foldl (fun grouped x => Function.update grouped x true) grouped)
  | [], _, _, _ => rfl
  | x :: xs, grouped, hnd, h => by
    obtain ⟨h1, h2, h3⟩ := h x List.mem_cons_self
    have hok : ¬ (chunks.length ≤ x ∨ grouped x = true ∨ (chunks.map chunkLg).getD x 0 ≠ lg) := by
      rw [h2, h3]
      simpa using h1
    rw [checkGids, if_neg hok]
    refine checkGids_pass (List.nodup_cons.1 hnd).2 (fun y hy => ?_)
    have hne : y ≠ x := by
      rintro rfl
      exact (List.nodup_cons.1 hnd).1 hy
    rw [Function.update_of_ne hne]
    exact h y (List.mem_cons_of_mem x hy)

/-- The groups still to come fit, and their chunks are new. -/
structure GroupsPass (chunks : List Chunk) (st : GroupScan) (gs : List Group) : Prop where
  fits : ∀ g ∈ gs, GroupFits g ∧ GroupShape chunks g
  nodup : (gs.flatMap Group.gids).Nodup
  fresh : ∀ x ∈ gs.flatMap Group.gids, st.grouped x = false

theorem reads_group {rest : Bytes} {chunks : List Chunk} {st : GroupScan} {g : Group} {gs : List Group}
    (h : GroupsPass chunks st (g :: gs)) : Reads rest (groupStep chunks st) (putGroup g)
      (g.gids.length ≤ maxVectorElems ∧ g.bits.length ≤ maxVectorElems) (st.advance g) := by
  obtain ⟨hf, hs⟩ := h.fits g List.mem_cons_self
  obtain ⟨hnd, -⟩ := List.nodup_append.1 h.nodup
  have hgids : checkGids chunks g.lg g.gids st.grouped =
      .ok (g.gids.foldl (fun grouped x => Function.update grouped x true) st.grouped) :=
    checkGids_pass hnd (fun x hx => ⟨(hs.gids x hx).1, h.fresh x (List.mem_append_left _ hx), (hs.gids x hx).2⟩)
  have hshape : ¬ (g.lg < 9 ∨ 16 < g.lg ∨ g.m ≠ 2 ^ g.lg ∨ g.words ≠ (g.gids.length + 63) / 64 ∨
      g.bits.length ≠ 2 ^ g.lg * g.words) := by
    rintro (h | h | h | h | h)
    · exact absurd hs.lg.1 (Nat.not_le.2 h)
    · exact absurd hs.lg.2 (Nat.not_le.2 h)
    · exact h hs.m
    · exact h hs.words
    · exact h hs.bits
  unfold groupStep putGroup
  refine (reads_scalar hf.lg).andThen ?_
  refine (reads_scalar hf.m).andThen ?_
  refine (reads_scalar hf.words).andThen ?_
  refine (reads_vector (by decide) hf.gids.1 hf.gids.2).bind (fun _ => ?_)
  refine ((reads_vector (by decide) hf.bits.1 hf.bits.2).finish (fun _ => ?_)).congr (and_iff_left trivial)
  exact Reads.passed hshape (Reads.lift hgids (Reads.pure _))

theorem GroupsPass.advance {chunks : List Chunk} {st : GroupScan} {g : Group} {gs : List Group}
    (h : GroupsPass chunks st (g :: gs)) : GroupsPass chunks (st.advance g) gs := by
  obtain ⟨-, hnd, hdisj⟩ := List.nodup_append.1 h.nodup
  refine ⟨fun g' hg' => h.fits g' (List.mem_cons_of_mem g hg'), hnd, fun x hx => Bool.eq_false_iff.2 (fun htrue => ?_)⟩
  rcases (grouped_foldl g.gids st.grouped x).1 htrue with hold | hin
  · have hfresh := h.fresh x (List.mem_append_right _ hx)
    rw [hold] at hfresh
    cases hfresh
  · exact hdisj x hin x hx rfl

/-- **Groups that pass are read.** -/
theorem reads_groups {rest : Bytes} {chunks : List Chunk} {gs : List Group} (hlen : gs.length = 8)
    (hpass : GroupsPass chunks {} gs) (hall : ∀ ci, ci < chunks.length → ci ∈ gs.flatMap Group.gids) :
    Reads rest (getGroups chunks) (gs.flatMap putGroup)
      (∀ g ∈ gs, g.gids.length ≤ maxVectorElems ∧ g.bits.length ≤ maxVectorElems) gs := by
  have hloop := @Reads.loop _ _ _ _ (groupStep chunks) putGroup
    (fun g => g.gids.length ≤ maxVectorElems ∧ g.bits.length ≤ maxVectorElems) GroupScan.advance (GroupsPass chunks)
    (fun st g gs rest h => ⟨reads_group h, h.advance⟩) gs {} rest hpass
  obtain ⟨hgroups, hgrouped⟩ := advances_grouped gs {}
  have hdone : ¬ ∃ ci, ci < chunks.length ∧ (gs.foldl GroupScan.advance {}).grouped ci = false := by
    rintro ⟨ci, hci, h⟩
    rw [(hgrouped ci).2 (Or.inr (hall ci hci))] at h
    cases h
  have hend : Reads rest (do
      reject (∃ ci, ci < chunks.length ∧ (gs.foldl GroupScan.advance {}).grouped ci = false)
        { text := "pergrep index: incomplete qgram groups" }
      return (gs.foldl GroupScan.advance {}).groups : Loader (List Group)) [] True gs := by
    refine Reads.passed hdone ?_
    rw [hgroups, List.nil_append]
    exact Reads.pure gs
  rw [hlen] at hloop
  exact (hloop.finish (fun _ => hend)).congr (and_iff_left trivial)

end Pergrep
