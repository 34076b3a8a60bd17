import Pergrep.Search.CandidatesSpec
import Pergrep.Search.ScanSpec
/-!
# FixedSpec — what the literal branches push

A branch that goes from chunk to chunk pushes, file by file, what its chunks push (`Built.each_chunks`), whichever
chunks its candidates leave out, as long as those push nothing.  For a literal whose case matters and without word or
line mode every branch pushes the same: in each file the occurrences of the literal, non-overlapping ones chosen
greedily (`Built.findFixed_pushes`).
-/
namespace Pergrep

open Substr Emit

/-! ## From chunk to chunk -/

theorem chunkAllowed_eq {I : IndexData} {scope : List Nat} {ci : Nat} {z : Chunk} (hz : I.chunks[ci]? = some z) :
    chunkAllowed I scope ci = allows I scope z.fileId := by
  rw [chunkAllowed, hz]
  rfl

def inScope (I : IndexData) (scope : List Nat) (e : Chunk → Nat → List Match × Nat) (z : Chunk) (n : Nat) : List Match × Nat :=
  if allows I scope z.fileId then e z n else ([], n)

theorem atKey_nil {k : Chunk → Nat} {e : Chunk → Nat → List Match × Nat} {z : Chunk} {s : Nat → Nat}
    (h : e z (s (k z)) = ([], s (k z))) : atKey k e z s = ([], s) := by
  rw [atKey, h, Function.update_eq_self]

section
variable {I : IndexData} (hI : Built I)
include hI

theorem Built.emits_chunks (e : Chunk → Nat → List Match × Nat) :
    (emits (atKey Chunk.fileId e) I.chunks (fun _ => 0)).1 =
      (List.range I.loaded.length).flatMap (fun fid => (emits e (I.chunksOf fid) 0).1) := by
  rw [hI.chunks_flatMap, emits_flatMap,
    emits_congr (f := atKey id (fun fid => emits e (I.chunksOf fid))) (fun fid _ s => emits_atKey (fun z hz =>
      ((hI.tiles fid).mem hz).1) s)]
  exact emits_keys List.nodup_range

theorem Built.emits_inScope (scope : List Nat) (e : Chunk → Nat → List Match × Nat) :
    (emits (atKey Chunk.fileId (inScope I scope e)) I.chunks (fun _ => 0)).1 =
      (List.range I.loaded.length).flatMap (fun fid => if allows I scope fid then (emits e (I.chunksOf fid) 0).1 else []) := by
  rw [hI.emits_chunks]
  refine List.flatMap_congr (fun fid _ => ?_)
  split
  · rename_i ha
    refine congrArg Prod.fst (emits_congr (fun z hz n => ?_) 0)
    rw [inScope, ((hI.tiles fid).mem hz).1, if_pos ha]
  · rename_i ha
    rw [← emits_filter (inScope I scope e) (fun _ => false) (I.chunksOf fid) (fun z hz _ n => by
      rw [inScope, ((hI.tiles fid).mem hz).1, if_neg ha]), List.filter_false]
    rfl

/-- **A branch over chunks pushes what the chunks of each file push.** -/
theorem Built.each_chunks {body : (List Match → Bool) → Nat → (Nat → Nat) → List Match → (Nat → Nat) × List Match × Bool}
    {e : Chunk → Nat → List Match × Nat} {scope cands : List Nat} {P : Nat → Bool}
    (hcands : cands = ((List.range I.chunks.length).filter (chunkAllowed I scope)).filter P)
    (hbody : ∀ ci z, I.chunks[ci]? = some z → ∀ s,
      Pushes (fun full out => body full ci s out) (atKey Chunk.fileId e z s).1 (atKey Chunk.fileId e z s).2)
    (hskip : ∀ ci z, I.chunks[ci]? = some z → chunkAllowed I scope ci = true → P ci = false → ∀ n, e z n = ([], n)) :
    ∃ s, Pushes (fun full out => Emit.each (body full) cands (fun _ => 0) out)
      ((List.range I.loaded.length).flatMap
        (fun fid => if allows I scope fid then (emits e (I.chunksOf fid) 0).1 else [])) s := by
  -- the candidates push what all chunks push
  have hrun : emits (atIndex I.chunks (atKey Chunk.fileId (inScope I scope e))) cands (fun _ => 0) =
      emits (atKey Chunk.fileId (inScope I scope e)) I.chunks (fun _ => 0) := by
    rw [hcands, emits_filter, emits_filter, emits_atIndex]
    · intro ci _ hci s
      cases hz : I.chunks[ci]? with
      | none   => rw [atIndex, hz]; rfl
      | some z =>
        rw [chunkAllowed_eq hz] at hci
        rw [atIndex, hz]
        exact atKey_nil (by rw [inScope, hci]; rfl)
    · intro ci hci hP s
      cases hz : I.chunks[ci]? with
      | none   => rw [atIndex, hz]; rfl
      | some z =>
        rw [atIndex, hz]
        refine atKey_nil ?_
        rw [inScope, hskip ci z hz (List.mem_filter.1 hci).2 hP, ite_self]
  rw [← hI.emits_inScope, ← hrun]
  refine ⟨_, Pushes.each cands (fun ci hci s => ?_) (fun _ => 0)⟩
  rw [hcands] at hci
  have ha := (List.mem_filter.1 (List.mem_filter.1 hci).1).2
  obtain ⟨z, hz⟩ : ∃ z, I.chunks[ci]? = some z := ⟨_, List.getElem?_eq_getElem (chunkAllowed_lt ha)⟩
  have hat : atIndex I.chunks (atKey Chunk.fileId (inScope I scope e)) ci s = atKey Chunk.fileId e z s := by
    rw [chunkAllowed_eq hz] at ha
    rw [atIndex, hz, Option.elim_some, atKey, atKey, inScope, if_pos ha]
  rw [hat]
  exact hbody ci z hz s

end

/-! ## What a chunk holds -/

section
variable (icu : Icu) (I : IndexData) (p : Pattern) (opt : SearchOptions)

/-- What is chosen of the occurrences that start in `[lo, hi)` of a file that is searched. -/
def takeRange (fid lo hi n : Nat) : List Match × Nat :=
  if skipsBinary I opt fid then ([], n)
  else
    ((chosen opt.overlapping p.expr.length n (occs (I.data fid) p.expr lo hi)).1.map (literalMatch fid p.expr.length),
      (chosen opt.overlapping p.expr.length n (occs (I.data fid) p.expr lo hi)).2)

theorem takeRange_nil {fid lo hi : Nat} (h : occs (I.data fid) p.expr lo hi = []) (n : Nat) :
    takeRange I p opt fid lo hi n = ([], n) := by
  rw [takeRange]
  split
  · rfl
  · rw [h, chosen_nil]
    rfl

theorem emits_takeRange {α : Type*} (fid : Nat) (f : α → Nat × Nat) : ∀ (as : List α) (lo hi n : Nat),
    as.flatMap (fun a => occs (I.data fid) p.expr (f a).1 (f a).2) = occs (I.data fid) p.expr lo hi →
      emits (fun a => takeRange I p opt fid (f a).1 (f a).2) as n = takeRange I p opt fid lo hi n := by
  intro as lo hi n h
  unfold takeRange
  rw [← h]
  clear h
  split
  · rw [emits_stateless (fun _ => []) as n, List.flatMap_eq_nil_iff.2 (fun _ _ => rfl)]
  · induction as generalizing n with
    | nil => rw [List.flatMap_nil, chosen_nil]; rfl
    | cons a as ih => rw [List.flatMap_cons, chosen_append, emits, ih, List.map_append]

theorem pushes_skip {z : Chunk} (hbin : skipsBinary I opt z.fileId = true) (s : Nat → Nat) :
    Pushes (fun _ out => (s, out, false))
      (atKey Chunk.fileId (fun z => takeRange I p opt z.fileId z.coreBegin z.coreEnd) z s).1
      (atKey Chunk.fileId (fun z => takeRange I p opt z.fileId z.coreBegin z.coreEnd) z s).2 := by
  rw [atKey_nil (by rw [takeRange, if_pos hbin])]
  exact Pushes.nil s

variable {I} (hI : Built I)
include hI

theorem Built.emits_chunksOf (fid n : Nat) :
    emits (fun z => takeRange I p opt z.fileId z.coreBegin z.coreEnd) (I.chunksOf fid) n =
      takeRange I p opt fid 0 (I.data fid).length n := by
  rw [emits_congr (f := fun z => takeRange I p opt fid z.coreBegin z.coreEnd)
    (fun z hz _ => by rw [((hI.tiles fid).mem hz).1])]
  exact emits_takeRange I p opt fid (fun z : Chunk => (z.coreBegin, z.coreEnd)) _ _ _ n
    ((hI.tiles fid).flatMap_occs (I.data fid) p.expr (Nat.zero_le _))

theorem Built.occurs_in_view (hq : p.expr ≠ []) (hlen : p.expr.length ≤ I.opt.chunkOverlap) {z : Chunk} (hz : z ∈ I.chunks)
    {x : Nat} (hx : x ∈ occs (I.data z.fileId) p.expr z.coreBegin z.coreEnd) :
    occursAt (I.view z) p.expr (x - z.coreBegin) = true := by
  obtain ⟨h1, h2, h3⟩ := mem_occs.1 hx
  rw [IndexData.view, occursAt_slice hq, show z.coreBegin + (x - z.coreBegin) = x by omega]
  exact ⟨h3, hI.in_view hlen hz h2 h3⟩

/-- **A chunk that is no candidate holds nothing.** -/
theorem Built.takeRange_skip (hq : p.expr ≠ []) (hlen : p.expr.length ≤ I.opt.chunkOverlap) (scope : List Nat) {ci : Nat}
    {z : Chunk} (hz : I.chunks[ci]? = some z) (hallow : chunkAllowed I scope ci = true)
    (hnot : (chunkCandidates I scope p.expr).contains ci = false) (n : Nat) :
    takeRange I p opt z.fileId z.coreBegin z.coreEnd n = ([], n) := by
  refine takeRange_nil I p opt ?_ n
  rw [List.eq_nil_iff_forall_not_mem]
  intro x hx
  have hc := hI.chunkCandidates_complete hz hallow (hI.occurs_in_view p hq hlen (List.mem_of_getElem? hz) hx)
  rw [← List.contains_iff_mem, hnot] at hc
  cases hc

/-! ## The branches over chunks -/

theorem Built.scanWindow_chunk (hq : p.expr ≠ []) (hlen : p.expr.length ≤ I.opt.chunkOverlap) {z : Chunk}
    (hz : z ∈ I.chunks) (hbin : skipsBinary I opt z.fileId = false) {ok : Nat → Nat → Bool}
    (hok : ∀ x, ok x (x + p.expr.length) = true) (s : Nat → Nat) :
    Pushes (fun full out => scanWindow icu I p opt full z.fileId z.coreBegin (I.view z) (z.coreEnd - z.coreBegin) false ok s out)
      (atKey Chunk.fileId (fun z => takeRange I p opt z.fileId z.coreBegin z.coreEnd) z s).1
      (atKey Chunk.fileId (fun z => takeRange I p opt z.fileId z.coreBegin z.coreEnd) z s).2 := by
  have h := scanWindow_pushes icu I p opt hq z.fileId z.coreBegin (I.view z) (z.coreEnd - z.coreBegin) ok hok s
  obtain ⟨-, hle, -, -⟩ := hI.chunk hz
  have hw : windowOccs (I.view z) p.expr z.coreBegin 0 (z.coreEnd - z.coreBegin) =
      occs (I.data z.fileId) p.expr z.coreBegin z.coreEnd := by
    rw [IndexData.view, windowOccs_slice hq (fun x _ hx ho => hI.in_view hlen hz (by omega) ho)]
    rw [show z.coreBegin + (z.coreEnd - z.coreBegin) = z.coreEnd by omega]
  rw [hw] at h
  rw [atKey, takeRange, if_neg (by rw [hbin]; decide)]
  exact h

/-- **The chunk branch**, when the word and line tests refuse nothing. -/
theorem Built.findChunk_pushes (hq : p.expr ≠ []) (hlen : p.expr.length ≤ I.opt.chunkOverlap) (hcase : p.icase = false)
    (hok : ∀ fid x, boundaryOk icu p.opt opt.recordSeparator (I.data fid) x (x + p.expr.length) = true) :
    ∃ s, Pushes (findChunk icu I p opt)
      ((List.range I.loaded.length).flatMap
        (fun fid => if allows I opt.eligibleFileIds fid then (takeRange I p opt fid 0 (I.data fid).length 0).1 else [])) s := by
  have hempty : p.expr.isEmpty = false := by simpa using hq
  simp only [← hI.emits_chunksOf]
  refine hI.each_chunks (P := fun ci => (chunkCandidates I opt.eligibleFileIds p.expr).contains ci) ?_ ?_ ?_
  · simp only [hcase, Bool.false_eq_true, if_false]
    exact hI.laid.chunkCandidates_eq _ _
  · intro ci z hz s
    simp only [scanChunk, hz, hempty, hcase, Bool.false_eq_true, if_false, Nat.add_zero]
    cases hbin : skipsBinary I opt z.fileId with
    | true  => exact pushes_skip I p opt hbin s
    | false => exact hI.scanWindow_chunk icu p opt hq hlen (List.mem_of_getElem? hz) hbin (hok z.fileId) s
  · exact fun ci z hz hallow hnot n => hI.takeRange_skip p opt hq hlen _ hz hallow hnot n

/-- **The branch for long literals.** -/
theorem Built.findLong_pushes (hq : p.expr ≠ []) (hlen : p.expr.length ≤ I.opt.chunkOverlap) :
    ∃ s, Pushes (findLong icu I p opt)
      ((List.range I.loaded.length).flatMap
        (fun fid => if allows I opt.eligibleFileIds fid then (takeRange I p opt fid 0 (I.data fid).length 0).1 else [])) s := by
  simp only [← hI.emits_chunksOf]
  refine hI.each_chunks (P := fun ci => (chunkCandidates I opt.eligibleFileIds p.expr).contains ci)
    (hI.laid.chunkCandidates_eq _ _) ?_ ?_
  · intro ci z hz s
    simp only [scanLong, hz]
    cases hbin : skipsBinary I opt z.fileId with
    | true  => exact pushes_skip I p opt hbin s
    | false => exact hI.scanWindow_chunk icu p opt hq hlen (List.mem_of_getElem? hz) hbin (fun _ => rfl) s
  · exact fun ci z hz hallow hnot n => hI.takeRange_skip p opt hq hlen _ hz hallow hnot n

/-! ## The positional branch -/

omit hI in
theorem blocks_flatMap_occs (s q : Bytes) (b L pb : Nat) : ∀ k,
    (List.range k).flatMap (fun bi => occs s q (b + bi * pb) (b + min ((bi + 1) * pb) L)) =
      occs s q b (b + min (k * pb) L)
  | 0 => by simp [occs_eq_nil]
  | k + 1 => by
    have hk : (k + 1) * pb = k * pb + pb := Nat.succ_mul k pb
    rw [List.range_succ, List.flatMap_append, blocks_flatMap_occs s q b L pb k, List.flatMap_singleton]
    rcases Nat.le_total (k * pb) L with hle | hle
    · rw [Nat.min_eq_left hle]
      exact occs_append s q (Nat.le_add_right _ _) (by omega)
    · rw [Nat.min_eq_right hle, Nat.min_eq_right (by omega : L ≤ (k + 1) * pb),
        occs_eq_nil (by omega : b + L ≤ b + k * pb), List.append_nil]

theorem Built.scanBlock_pushes (hq : p.expr ≠ []) (hlen : p.expr.length ≤ I.opt.chunkOverlap) (hshort : p.expr.length ≤ 64)
    {ci bi : Nat} {z : Chunk} (hz : I.chunks[ci]? = some z) (s : Nat → Nat) :
    Pushes (fun full out => scanBlock icu I p opt full (ci, bi) s out)
      (atKey (fun _ : Nat => z.fileId) (fun bi => takeRange I p opt z.fileId (z.coreBegin + bi * I.posBlock)
        (z.coreBegin + min ((bi + 1) * I.posBlock) (z.coreEnd - z.coreBegin))) bi s).1
      (atKey (fun _ : Nat => z.fileId) (fun bi => takeRange I p opt z.fileId (z.coreBegin + bi * I.posBlock)
        (z.coreBegin + min ((bi + 1) * I.posBlock) (z.coreEnd - z.coreBegin))) bi s).2 := by
  have hempty : p.expr.isEmpty = false := by simpa using hq
  have hsucc : (bi + 1) * I.posBlock = bi * I.posBlock + I.posBlock := Nat.succ_mul bi I.posBlock
  simp only [scanBlock, hz, hempty, Bool.false_eq_true, if_false, Nat.add_zero, false_and, not_false_eq_true, and_true]
  cases hbin : skipsBinary I opt z.fileId with
  | true =>
    simp only [if_true, atKey, takeRange, hbin, Function.update_eq_self]
    exact Pushes.nil s
  | false =>
    simp only [Bool.false_eq_true, if_false]
    by_cases hrb : z.coreEnd - z.coreBegin ≤ bi * I.posBlock
    · -- a block past the core
      simp only [if_pos hrb]
      have hnil := takeRange_nil I p opt (occs_eq_nil (s := I.data z.fileId) (q := p.expr)
        (by omega : z.coreBegin + min ((bi + 1) * I.posBlock) (z.coreEnd - z.coreBegin) ≤ z.coreBegin + bi * I.posBlock))
        (s z.fileId)
      simp only [atKey, hnil, Function.update_eq_self]
      exact Pushes.nil s
    · simp only [if_neg hrb]
      have h := scanWindow_pushes icu I p opt hq z.fileId (z.coreBegin + bi * I.posBlock)
        (slice (I.data z.fileId) (z.coreBegin + bi * I.posBlock)
          (z.coreBegin + min (z.extEnd - z.coreBegin) (bi * I.posBlock + I.posBlock + 64)))
        (min I.posBlock (z.coreEnd - z.coreBegin - bi * I.posBlock)) (fun _ _ => true) (fun _ => rfl) s
      rw [windowOccs_slice hq] at h
      · rw [show z.coreBegin + bi * I.posBlock + min I.posBlock (z.coreEnd - z.coreBegin - bi * I.posBlock) =
          z.coreBegin + min ((bi + 1) * I.posBlock) (z.coreEnd - z.coreBegin) by omega] at h
        simp only [atKey, takeRange, hbin, Bool.false_eq_true, if_false]
        exact h
      · intro x _ hx ho
        have := hI.in_view hlen (List.mem_of_getElem? hz) (by omega : x < z.coreEnd) ho
        omega

theorem Built.takeRange_block_skip (hq : p.expr ≠ []) (hlen : p.expr.length ≤ I.opt.chunkOverlap)
    (hshort : p.expr.length ≤ 64) {ci bi : Nat} {z : Chunk} {d : PosDesc} (hz : I.chunks[ci]? = some z)
    (hd : I.posDesc[ci]? = some d) (hbi : bi < d.blocks)
    (hnot : (chunkBlocks I (plannedHashes I p.expr) ci).contains (ci, bi) = false) (n : Nat) :
    takeRange I p opt z.fileId (z.coreBegin + bi * I.posBlock)
      (z.coreBegin + min ((bi + 1) * I.posBlock) (z.coreEnd - z.coreBegin)) n = ([], n) := by
  have hsucc : (bi + 1) * I.posBlock = bi * I.posBlock + I.posBlock := Nat.succ_mul bi I.posBlock
  refine takeRange_nil I p opt ?_ n
  rw [List.eq_nil_iff_forall_not_mem]
  intro x hx
  obtain ⟨h1, h2, h3⟩ := mem_occs.1 hx
  have hview := hI.in_view hlen (List.mem_of_getElem? hz) (by omega : x < z.coreEnd) h3
  have hpos := List.length_pos_iff.2 hq
  -- the block shows the occurrence, so it has its windows
  have ho : occursAt (slice (I.data z.fileId) (z.coreBegin + bi * I.posBlock)
      (z.coreBegin + min (z.extEnd - z.coreBegin) (bi * I.posBlock + I.posBlock + positionalOverlap))) p.expr
      (x - (z.coreBegin + bi * I.posBlock)) = true := by
    rw [occursAt_slice hq, show z.coreBegin + bi * I.posBlock + (x - (z.coreBegin + bi * I.posBlock)) = x by omega]
    rw [positionalOverlap]
    exact ⟨h3, by omega⟩
  have hc := hI.chunkBlocks_complete (plannedHashes I p.expr) hz hd hbi (by omega)
    (fun h hh => qgrams_of_occursAt ho (mem_plannedHashes hh))
  rw [← List.contains_iff_mem, hnot] at hc
  cases hc

/-- **The positional branch.** -/
theorem Built.findBlocks_pushes (hq : p.expr ≠ []) (hlen : p.expr.length ≤ I.opt.chunkOverlap) (hshort : p.expr.length ≤ 64) :
    ∃ s, Pushes (findBlocks icu I p opt)
      ((List.range I.loaded.length).flatMap
        (fun fid => if allows I opt.eligibleFileIds fid then (takeRange I p opt fid 0 (I.data fid).length 0).1 else [])) s := by
  have hempty : p.expr.isEmpty = false := by simpa using hq
  simp only [← hI.emits_chunksOf]
  unfold findBlocks
  simp only [fixedCandidateBlocks, hempty, Bool.false_eq_true, if_false, each_flatMap]
  refine hI.each_chunks (P := fun ci => (chunkCandidates I opt.eligibleFileIds p.expr).contains ci)
    (hI.laid.chunkCandidates_eq _ _) ?_ ?_
  · intro ci z hz s
    obtain ⟨off, hd⟩ := hI.posDesc_of hz
    generalize hdd : posDescOf I off z = d at hd
    have hcover : z.coreEnd - z.coreBegin ≤ d.blocks * I.posBlock := by
      have hpb := hI.posBlock_pos
      have hdiv := Nat.div_add_mod (z.coreEnd - z.coreBegin + I.posBlock - 1) I.posBlock
      have hmod := Nat.mod_lt (z.coreEnd - z.coreBegin + I.posBlock - 1) hpb
      rw [Nat.mul_comm] at hdiv
      calc z.coreEnd - z.coreBegin ≤ (z.coreEnd - z.coreBegin + I.posBlock - 1) / I.posBlock * I.posBlock := by omega
        _ ≤ d.blocks * I.posBlock := Nat.mul_le_mul_right _ (by rw [← hdd]; exact Nat.le_max_right _ _)
    obtain ⟨-, hle, -, -⟩ := hI.chunk (List.mem_of_getElem? hz)
    let e : Nat → Nat → List Match × Nat := fun bi => takeRange I p opt z.fileId (z.coreBegin + bi * I.posBlock)
      (z.coreBegin + min ((bi + 1) * I.posBlock) (z.coreEnd - z.coreBegin))
    have hrun : emits (atKey (fun _ : Nat => z.fileId) e)
        ((List.range d.blocks).filter (fun bi => (chunkBlocks I (plannedHashes I p.expr) ci).contains (ci, bi))) s =
          atKey Chunk.fileId (fun z => takeRange I p opt z.fileId z.coreBegin z.coreEnd) z s := by
      rw [emits_atKey (fun _ _ => rfl), emits_filter e _ _ (fun bi hbi hnot n =>
        hI.takeRange_block_skip p opt hq hlen hshort hz hd (List.mem_range.1 hbi) hnot n)]
      rw [emits_takeRange I p opt z.fileId (fun bi => (z.coreBegin + bi * I.posBlock,
        z.coreBegin + min ((bi + 1) * I.posBlock) (z.coreEnd - z.coreBegin))) _ z.coreBegin z.coreEnd]
      · rfl
      · rw [blocks_flatMap_occs, Nat.min_eq_right hcover, show z.coreBegin + (z.coreEnd - z.coreBegin) = z.coreEnd by omega]
    have heq := chunkBlocks_eq I (plannedHashes I p.expr) hd
    generalize (List.range d.blocks).filter (fun bi => (chunkBlocks I (plannedHashes I p.expr) ci).contains (ci, bi)) = L
      at heq hrun
    rw [← hrun, heq, ← emits_map (fun b : Nat × Nat => atKey (fun _ : Nat => z.fileId) e b.2) (fun bi => (ci, bi))]
    refine Pushes.each _ (fun b hb s => ?_) s
    obtain ⟨bi, -, rfl⟩ := List.mem_map.1 hb
    exact hI.scanBlock_pushes icu p opt hq hlen hshort hz s
  · exact fun ci z hz hallow hnot n => hI.takeRange_skip p opt hq hlen _ hz hallow hnot n

/-! ## The whole-file branch -/

omit hI in
theorem joinNeighbours : ∀ (l acc : List Nat), l.Pairwise (· ≤ ·) → acc.Pairwise (· < ·) →
    (∀ a ∈ acc, ∀ x ∈ l, a ≤ x) →
      let r := l.foldl (fun files fid => if files.getLast? = some fid then files else files ++ [fid]) acc
      r.Pairwise (· < ·) ∧ ∀ x, x ∈ r ↔ x ∈ acc ∨ x ∈ l
  | [], acc, _, hacc, _ => ⟨hacc, fun x => by simp⟩
  | y :: l, acc, hl, hacc, hle => by
    obtain ⟨hy, hl'⟩ := List.pairwise_cons.1 hl
    rw [List.foldl_cons]
    split
    · rename_i hlast
      have hmem := List.mem_of_getLast? hlast
      obtain ⟨h1, h2⟩ := joinNeighbours l acc hl' hacc (fun a ha x hx => hle a ha x (List.mem_cons_of_mem y hx))
      refine ⟨h1, fun x => ?_⟩
      rw [h2 x, List.mem_cons]
      constructor
      · rintro (h | h)
        · exact Or.inl h
        · exact Or.inr (Or.inr h)
      · rintro (h | rfl | h)
        · exact Or.inl h
        · exact Or.inl hmem
        · exact Or.inr h
    · rename_i hlast
      -- what is kept so far is below `y`
      have hlt : ∀ a ∈ acc, a < y := by
        intro a ha
        refine Nat.lt_of_le_of_ne (hle a ha y List.mem_cons_self) ?_
        rintro rfl
        obtain ⟨init, last, rfl⟩ : ∃ init last, acc = init ++ [last] :=
          ⟨acc.dropLast, acc.getLast (List.ne_nil_of_mem ha), (List.dropLast_append_getLast _).symm⟩
        rw [List.getLast?_append_of_ne_nil _ (by simp)] at hlast
        rcases List.mem_append.1 ha with ha | ha
        · have h1 := (List.pairwise_append.1 hacc).2.2 a ha last (by simp)
          have h2 := hle last (by simp) a List.mem_cons_self
          omega
        · simp at ha hlast
          exact hlast ha.symm
      have hacc' : (acc ++ [y]).Pairwise (· < ·) :=
        List.pairwise_append.2 ⟨hacc, List.pairwise_singleton _ _, fun a ha b hb => by
          rw [List.mem_singleton.1 hb]
          exact hlt a ha⟩
      obtain ⟨h1, h2⟩ := joinNeighbours l (acc ++ [y]) hl' hacc' (fun a ha x hx => by
        rcases List.mem_append.1 ha with ha | ha
        · exact hle a ha x (List.mem_cons_of_mem y hx)
        · rw [List.mem_singleton.1 ha]
          exact hy x hx)
      refine ⟨h1, fun x => ?_⟩
      rw [h2 x, List.mem_append, List.mem_singleton, List.mem_cons, or_assoc]

omit hI in
theorem Laid.candidateFiles_spec {I : IndexData} (hI : Laid I) {cv : List Nat} (hcv : cv.Pairwise (· < ·)) :
    (candidateFiles I cv).Pairwise (· < ·) ∧
      ∀ fid, fid ∈ candidateFiles I cv ↔ ∃ ci ∈ cv, ∃ z, I.chunks[ci]? = some z ∧ z.fileId = fid := by
  have hsorted : (cv.filterMap (fun ci => (I.chunks[ci]?).map Chunk.fileId)).Pairwise (· ≤ ·) := by
    rw [List.pairwise_filterMap]
    refine hcv.imp (fun {a b} hab f hf g hg => ?_)
    obtain ⟨x, hx, rfl⟩ := Option.map_eq_some_iff.1 hf
    obtain ⟨y, hy, rfl⟩ := Option.map_eq_some_iff.1 hg
    obtain ⟨ha, rfl⟩ := List.getElem?_eq_some_iff.1 hx
    obtain ⟨hb, rfl⟩ := List.getElem?_eq_some_iff.1 hy
    have := List.pairwise_iff_getElem.1 hI.chunks_sorted a b ha hb hab
    omega
  obtain ⟨h1, h2⟩ := joinNeighbours _ [] hsorted List.Pairwise.nil (fun a ha => absurd ha List.not_mem_nil)
  refine ⟨h1, fun fid => ?_⟩
  rw [candidateFiles, h2 fid, List.mem_filterMap]
  simp only [List.not_mem_nil, false_or, Option.map_eq_some_iff]

theorem Built.chunk_of_occurrence (q : Bytes) {fid x : Nat} (hfid : fid < I.loaded.length)
    (hx : x ∈ occs (I.data fid) q 0 (I.data fid).length) :
    ∃ (ci : Nat) (z : Chunk), I.chunks[ci]? = some z ∧ z.fileId = fid ∧ x ∈ occs (I.data fid) q z.coreBegin z.coreEnd := by
  rw [← (hI.tiles fid).flatMap_occs (I.data fid) q (Nat.zero_le _)] at hx
  obtain ⟨z, hz, hx⟩ := List.mem_flatMap.1 hx
  have hmem : z ∈ I.chunks := by
    rw [hI.chunks_flatMap]
    exact List.mem_flatMap.2 ⟨fid, List.mem_range.2 hfid, hz⟩
  obtain ⟨ci, hci⟩ := List.mem_iff_getElem?.1 hmem
  exact ⟨ci, z, hci, ((hI.tiles fid).mem hz).1, hx⟩

/-- **No file with the literal is missed.** -/
theorem Built.candidateFiles_complete (hq : p.expr ≠ []) {scope : List Nat} {fid x : Nat} (hfid : fid < I.loaded.length)
    (hallow : allows I scope fid = true) (hx : x ∈ occs (I.data fid) p.expr 0 (I.data fid).length) :
    fid ∈ candidateFiles I (chunkCandidates I scope p.expr) := by
  obtain ⟨ci, z, hz, rfl, hx⟩ := hI.chunk_of_occurrence p.expr hfid hx
  have hci : chunkAllowed I scope ci = true := by rw [chunkAllowed_eq hz, hallow]
  refine ((hI.laid.candidateFiles_spec (hI.laid.chunkCandidates_sorted scope p.expr)).2 _).2 ⟨ci, ?_, z, hz, rfl⟩
  by_cases hlen : p.expr.length ≤ I.opt.chunkOverlap
  · exact hI.chunkCandidates_complete hz hci (hI.occurs_in_view p hq hlen (List.mem_of_getElem? hz) hx)
  · rw [chunkCandidates, if_pos (by omega)]
    exact List.mem_filter.2 ⟨List.mem_range.2 (List.getElem?_eq_some_iff.1 hz).1, hci⟩

/-- What the scan of a whole file takes: of the occurrences it comes to, those that pass the test. -/
def wholeFileTake (icu : Icu) (I : IndexData) (p : Pattern) (opt : SearchOptions) (fid : Nat) : List Match :=
  if skipsBinary I opt fid then []
  else
    ((chosen opt.overlapping p.expr.length 0 (occs (I.data fid) p.expr 0 (I.data fid).length)).1.filter
      (fun x => boundaryOk icu p.opt opt.recordSeparator (I.data fid) x (x + p.expr.length))).map
        (literalMatch fid p.expr.length)

/-- **The whole-file branch.** -/
theorem Built.findWholeFile_pushes (hq : p.expr ≠ []) (hcase : p.icase = false) :
    ∃ s, Pushes (findWholeFile icu I p opt)
      ((List.range I.loaded.length).flatMap
        (fun fid => if allows I opt.eligibleFileIds fid then wholeFileTake icu I p opt fid else [])) s := by
  obtain ⟨hsorted, hmem⟩ := hI.laid.candidateFiles_spec (hI.laid.chunkCandidates_sorted opt.eligibleFileIds p.expr)
  -- the files of candidates are the files in scope, less some without the literal
  have hfiles : candidateFiles I (chunkCandidates I opt.eligibleFileIds p.expr) =
      ((List.range I.loaded.length).filter (allows I opt.eligibleFileIds)).filter
        (fun fid => (candidateFiles I (chunkCandidates I opt.eligibleFileIds p.expr)).contains fid) := by
    refine sorted_ext hsorted (List.Pairwise.filter _ (List.Pairwise.filter _ List.pairwise_lt_range)) (fun fid => ?_)
    rw [List.mem_filter, List.mem_filter, List.mem_range, List.contains_iff_mem]
    refine ⟨fun h => ⟨?_, h⟩, fun h => h.2⟩
    obtain ⟨ci, hci, z, hz, rfl⟩ := (hmem fid).1 h
    have hallow := hI.laid.chunkCandidates_allowed hci
    rw [chunkAllowed_eq hz] at hallow
    exact ⟨(hI.chunk (List.mem_of_getElem? hz)).1, hallow⟩
  have hlist : (candidateFiles I (chunkCandidates I opt.eligibleFileIds p.expr)).flatMap (wholeFileTake icu I p opt) =
      (List.range I.loaded.length).flatMap
        (fun fid => if allows I opt.eligibleFileIds fid then wholeFileTake icu I p opt fid else []) := by
    rw [hfiles, flatMap_filter_of_nil, ← flatMap_filter_of_nil _ (allows I opt.eligibleFileIds) (List.range I.loaded.length)]
    · refine List.flatMap_congr (fun fid hfid => ?_)
      rw [if_pos (List.mem_filter.1 hfid).2]
    · intro fid _ hfid
      rw [hfid]
      rfl
    · intro fid hfid hnot
      obtain ⟨hr, ha⟩ := List.mem_filter.1 hfid
      have hnil : occs (I.data fid) p.expr 0 (I.data fid).length = [] := by
        rw [List.eq_nil_iff_forall_not_mem]
        intro x hx
        have hc := hI.candidateFiles_complete p hq (List.mem_range.1 hr) ha hx
        rw [← List.contains_iff_mem, hnot] at hc
        cases hc
      rw [wholeFileTake, hnil, chosen_nil]
      simp
  let e : Nat → Nat → List Match × Nat := fun fid _ =>
    (wholeFileTake icu I p opt fid,
      if skipsBinary I opt fid then 0 else loopEnd (wholeFileStep icu I p opt fid) ((I.data fid).length + 2) 0)
  rw [← hlist, ← @emits_indep _ _ _ e (wholeFileTake icu I p opt) (fun _ _ => rfl) _ 0]
  refine ⟨_, Pushes.each _ (fun fid _ s => ?_) 0⟩
  simp only [e, wholeFileTake]
  cases skipsBinary I opt fid with
  | true  => exact Pushes.nil 0
  | false =>
    have h := loop_pushes (wholeFileStep icu I p opt fid) ((I.data fid).length + 2) 0
    rw [wholeFileLoop icu I p opt hq hcase fid _ 0 (by omega)] at h
    exact h

/-! ## All branches -/

/-- **Every branch pushes the same**: for a literal whose case matters, when no test refuses an occurrence. -/
theorem Built.findFixed_pushes (hq : p.expr ≠ []) (hcase : p.icase = false) (hword : p.opt.word = false)
    (hline : p.opt.line = false) (guarded : Option FixedPhysicalOperator) (full : List Match → Bool) :
    findFixed icu I p opt guarded full = pushAll full []
      ((List.range I.loaded.length).flatMap
        (fun fid => if allows I opt.eligibleFileIds fid then (takeRange I p opt fid 0 (I.data fid).length 0).1 else [])) := by
  have hok : ∀ fid x, boundaryOk icu p.opt opt.recordSeparator (I.data fid) x (x + p.expr.length) = true := by
    intro fid x
    rw [boundaryOk, hword, hline]
    rfl
  have htake : ∀ fid, wholeFileTake icu I p opt fid = (takeRange I p opt fid 0 (I.data fid).length 0).1 := by
    intro fid
    rw [wholeFileTake, takeRange]
    split
    · rfl
    · rw [List.filter_eq_self.2 (fun x _ => hok fid x)]
  unfold findFixed
  split
  · obtain ⟨s, hs⟩ := hI.findWholeFile_pushes icu p opt hq hcase
    simp only [htake] at hs
    exact (hs full []).1
  · rename_i hbranch
    have hlen : p.expr.length ≤ I.opt.chunkOverlap := by omega
    split
    · obtain ⟨s, hs⟩ := hI.findChunk_pushes icu p opt hq hlen hcase hok
      exact (hs full []).1
    · split
      · obtain ⟨s, hs⟩ := hI.findBlocks_pushes icu p opt hq hlen ‹_›
        exact (hs full []).1
      · obtain ⟨s, hs⟩ := hI.findLong_pushes icu p opt hq hlen
        exact (hs full []).1

end

end Pergrep
