import Pergrep.Index.Filters
import Pergrep.Search.Candidates
/-!
# CandidatesSpec — the candidates miss no occurrence

The planner asks only for windows of the literal, so a chunk that has the literal has every row it is asked for:
`Built.chunkCandidates_complete` for chunks, `Built.chunkBlocks_complete` for blocks.  Candidates come in order and
once each, so they are the chunks in scope less some without the literal (`Laid.chunkCandidates_eq`).
-/
namespace Pergrep

open BitWords Substr

/-! ## Rows -/

theorem mem_uniqueRanked {x : Nat × Nat} : ∀ {xs kept : List (Nat × Nat)}, x ∈ uniqueRanked kept xs → x ∈ kept ∨ x ∈ xs
  | [], _, h => Or.inl h
  | y :: ys, kept, h => by
    rw [uniqueRanked] at h
    split at h
    · exact (mem_uniqueRanked h).imp id (List.mem_cons_of_mem y)
    · rcases mem_uniqueRanked h with h | h
      · rcases List.mem_append.1 h with h | h
        · exact Or.inl h
        · exact Or.inr (List.mem_cons.2 (Or.inl (List.mem_singleton.1 h)))
      · exact Or.inr (List.mem_cons_of_mem y h)

theorem mem_plannedHashes {I : IndexData} {q : Bytes} {h : Nat} (hh : h ∈ plannedHashes I q) : h ∈ qgrams q := by
  unfold plannedHashes at hh
  obtain ⟨x, hx, rfl⟩ := List.mem_map.1 (List.mem_of_mem_take hh)
  rcases mem_uniqueRanked hx with hx | hx
  · cases hx
  · rw [List.mem_insertionSort] at hx
    obtain ⟨w, hw, rfl⟩ := List.mem_map.1 hx
    exact List.mem_map.2 ⟨w, hw, rfl⟩

theorem mem_wordRows {wm : Nat × Nat} {r : Nat} : r ∈ wordRows wm ↔ r / 64 = wm.1 ∧ wm.2.testBit (r % 64) = true := by
  unfold wordRows
  rw [List.mem_map]
  constructor
  · rintro ⟨b, hb, rfl⟩
    obtain ⟨hlt, hbit⟩ := mem_bitsOf.1 hb
    have h1 : (wm.1 * 64 + b) / 64 = wm.1 := by omega
    have h2 : (wm.1 * 64 + b) % 64 = b := by omega
    rw [h1, h2]
    exact ⟨rfl, hbit⟩
  · rintro ⟨h1, h2⟩
    exact ⟨r % 64, mem_bitsOf.2 ⟨Nat.mod_lt r (by decide), h2⟩, by omega⟩

theorem testBit_or_shift {mask k b : Nat} : (mask ||| 1 <<< k).testBit b = true ↔ mask.testBit b = true ∨ b = k := by
  rw [Nat.testBit_or, Nat.one_shiftLeft, Nat.testBit_two_pow, Bool.or_eq_true, decide_eq_true_eq, eq_comm (a := k)]

theorem mem_rows_packRow {v : QueryClass} {x r : Nat} (h : r ∈ (packRow v x).flatMap wordRows) :
    r ∈ v.flatMap wordRows ∨ r = x := by
  have hnew : r ∈ wordRows (x / 64, 1 <<< (x % 64)) → r = x := fun hr => by
    obtain ⟨h1, h2⟩ := mem_wordRows.1 hr
    rw [Nat.one_shiftLeft, Nat.testBit_two_pow, decide_eq_true_eq] at h2
    dsimp only at h1
    omega
  unfold packRow at h
  split at h
  · rename_i w mask hlast
    split at h
    · rename_i hw
      rw [List.flatMap_append, List.mem_append] at h
      rcases h with h | h
      · obtain ⟨wm, hwm, hr⟩ := List.mem_flatMap.1 h
        exact Or.inl (List.mem_flatMap.2 ⟨wm, List.mem_of_mem_dropLast hwm, hr⟩)
      · rw [List.flatMap_singleton] at h
        obtain ⟨h1, h2⟩ := mem_wordRows.1 h
        rcases testBit_or_shift.1 h2 with h2 | h2
        · exact Or.inl (List.mem_flatMap.2 ⟨(w, mask), List.mem_of_getLast? hlast, mem_wordRows.2 ⟨h1, h2⟩⟩)
        · dsimp only at h1
          exact Or.inr (by omega)
    · rw [List.flatMap_append, List.mem_append, List.flatMap_singleton] at h
      exact h.imp id hnew
  · rw [List.flatMap_append, List.mem_append, List.flatMap_singleton] at h
    exact h.imp id hnew

theorem mem_rows_queryClass {hashes : List Nat} {lg r : Nat} (h : r ∈ (queryClass hashes lg).flatMap wordRows) :
    ∃ x ∈ hashes, r = x &&& (2 ^ lg - 1) := by
  have hfold : ∀ (xs : List Nat) (v : QueryClass), r ∈ (xs.foldl packRow v).flatMap wordRows →
      r ∈ v.flatMap wordRows ∨ r ∈ xs := by
    intro xs
    induction xs with
    | nil => exact fun v hr => Or.inl hr
    | cons x xs ih =>
      intro v hr
      rcases ih _ hr with hr | hr
      · exact (mem_rows_packRow hr).imp id (fun he => List.mem_cons.2 (Or.inl he))
      · exact Or.inr (List.mem_cons_of_mem x hr)
  rcases hfold _ _ h with h | h
  · cases h
  · obtain ⟨x, hx, rfl⟩ := List.mem_map.1 (mem_sortDistinct.1 h)
    exact ⟨x, hx, rfl⟩

/-! ## Chunks -/

theorem intersectRows_complete (g : Group) {j l : Nat} : ∀ (qc : QueryClass) (c : List Nat), getBit c j l = true →
    (∀ r ∈ qc.flatMap wordRows, getBit g.bits (r * g.words + j) l = true) →
      ∃ c', intersectRows g qc c = some c' ∧ getBit c' j l = true
  | [], c, h, _ => ⟨c, rfl, h⟩
  | wm :: qc, c, h, hrows => by
    have hc : getBit ((wordRows wm).foldl (fun c row => andRow g.bits g.words row c) c) j l = true :=
      (getBit_andRows _ _ _ _ _ _).2 ⟨h, fun r hr => hrows r (List.mem_flatMap.2 ⟨wm, List.mem_cons_self, hr⟩)⟩
    rw [intersectRows, if_pos (any_of_getBit hc)]
    refine intersectRows_complete g qc _ hc (fun r hr => ?_)
    obtain ⟨wm', hwm', hr'⟩ := List.mem_flatMap.1 hr
    exact hrows r (List.mem_flatMap.2 ⟨wm', List.mem_cons_of_mem wm hwm', hr'⟩)

def chunkAllowed (I : IndexData) (scope : List Nat) (ci : Nat) : Bool :=
  ((I.chunks[ci]?).map (fun z => allows I scope z.fileId)).getD false

theorem chunkAllowed_lt {I : IndexData} {scope : List Nat} {ci : Nat} (h : chunkAllowed I scope ci = true) :
    ci < I.chunks.length := by
  unfold chunkAllowed at h
  cases hz : I.chunks[ci]? with
  | none   => simp [hz] at h
  | some z => exact (List.getElem?_eq_some_iff.1 hz).1

theorem groupCandidates_allowed {I : IndexData} {scope : List Nat} {g : Group} {q : QueryDesc} {ci : Nat}
    (h : ci ∈ groupCandidates I scope g q) : chunkAllowed I scope ci = true := by
  unfold groupCandidates at h
  simp only at h
  split at h
  · cases h
  · split at h
    · exact (List.mem_filter.1 h).2
    · split at h
      · cases h
      · exact (List.mem_filter.1 h).2

section
variable {I : IndexData}

theorem compileQgramQuery_class {lg : Nat} (hlg : 9 ≤ lg ∧ lg ≤ 16) (hashes : List Nat) :
    (compileQgramQuery hashes).classes.getD (lg - 9) [] = queryClass hashes lg := by
  rw [compileQgramQuery, List.getD_eq_getElem?_getD, List.getElem?_map, List.getElem?_range (by omega)]
  change queryClass hashes (lg - 9 + 9) = _
  rw [show lg - 9 + 9 = lg by omega]

/-- **A chunk of a group that has every selected window is a candidate.** -/
theorem groupCandidates_complete {scope : List Nat} {g : Group} (hg : GroupOk I g) {hashes : List Nat} {li ci : Nat}
    {z : Chunk} (hli : g.gids[li]? = some ci) (hz : I.chunks[ci]? = some z) (hallow : chunkAllowed I scope ci = true)
    (hhash : ∀ h ∈ hashes, h ∈ qgrams (I.view z)) :
    ci ∈ groupCandidates I scope g (compileQgramQuery hashes) := by
  have hlt : li < g.gids.length := (List.getElem?_eq_some_iff.1 hli).1
  have hempty : g.gids.isEmpty = false := by
    rw [List.isEmpty_eq_false_iff]
    rintro he
    simp [he] at hlt
  unfold groupCandidates
  simp only [hempty, compileQgramQuery_class hg.lg_range]
  rw [if_neg (by decide)]
  split
  · exact List.mem_filter.2 ⟨List.mem_of_getElem? hli, hallow⟩
  · -- every row has the chunk's bit, and so has the mask at the start
    have hall : getBit (allBits g) (li / 64) (li % 64) = true := by
      rw [allBits, hg.words_eq]
      exact getBit_ones (by decide) hlt
    obtain ⟨c, hc, hbit⟩ := intersectRows_complete g (queryClass hashes g.lg) (allBits g) hall (fun r hr => by
      obtain ⟨h, hh, rfl⟩ := mem_rows_queryClass hr
      rw [← hg.m_eq]
      exact hg.bit hli hz (hhash h hh))
    rw [hc]
    refine List.mem_filter.2 ⟨List.mem_filterMap.2 ⟨li, (mem_positions (by decide)).2 hbit, hli⟩, hallow⟩

variable (hI : Laid I)
include hI

theorem Laid.chunkLe_iff (a b : Nat) : chunkLe I a b ↔ a ≤ b := by
  unfold chunkLe
  split
  · rename_i x y hx hy
    obtain ⟨ha, rfl⟩ := List.getElem?_eq_some_iff.1 hx
    obtain ⟨hb, rfl⟩ := List.getElem?_eq_some_iff.1 hy
    have hsorted := List.pairwise_iff_getElem.1 hI.chunks_sorted
    rcases Nat.lt_trichotomy a b with hab | rfl | hab
    · have := hsorted a b ha hb hab
      constructor
      · intro _
        omega
      · intro _
        split
        · omega
        · split <;> omega
    · simp
    · have := hsorted b a hb ha hab
      constructor
      · intro h
        split at h
        · omega
        · split at h <;> omega
      · intro h
        omega
  · exact Iff.rfl

theorem Laid.insertionSort_chunkLe (l : List Nat) : (l.insertionSort (chunkLe I)).dedup = sortDistinct l := by
  have hrel : chunkLe I = (· ≤ ·) := by
    funext a b
    exact propext (hI.chunkLe_iff a b)
  unfold sortDistinct
  congr 1
  simp only [hrel]

theorem Laid.chunkCandidates_sorted (scope : List Nat) (lit : Bytes) : (chunkCandidates I scope lit).Pairwise (· < ·) := by
  unfold chunkCandidates
  split
  · exact List.Pairwise.filter _ List.pairwise_lt_range
  · simp only
    rw [hI.insertionSort_chunkLe]
    exact sortDistinct_sorted _

theorem Laid.chunkCandidates_allowed {scope : List Nat} {lit : Bytes} {ci : Nat} (h : ci ∈ chunkCandidates I scope lit) :
    chunkAllowed I scope ci = true := by
  unfold chunkCandidates at h
  split at h
  · exact (List.mem_filter.1 h).2
  · simp only at h
    rw [hI.insertionSort_chunkLe, mem_sortDistinct] at h
    obtain ⟨g, -, hg⟩ := List.mem_flatMap.1 h
    exact groupCandidates_allowed hg

theorem Laid.chunkCandidates_eq (scope : List Nat) (lit : Bytes) :
    chunkCandidates I scope lit =
      ((List.range I.chunks.length).filter (chunkAllowed I scope)).filter (fun ci => (chunkCandidates I scope lit).contains ci) := by
  refine sorted_ext (hI.chunkCandidates_sorted scope lit)
    (List.Pairwise.filter _ (List.Pairwise.filter _ List.pairwise_lt_range)) (fun ci => ?_)
  rw [List.mem_filter, List.mem_filter, List.mem_range, List.contains_iff_mem]
  exact ⟨fun h => ⟨⟨chunkAllowed_lt (hI.chunkCandidates_allowed h), hI.chunkCandidates_allowed h⟩, h⟩, fun h => h.2⟩

end

/-- **No chunk with the literal is missed.** -/
theorem Built.chunkCandidates_complete {I : IndexData} (hI : Built I) {scope : List Nat} {lit : Bytes} {ci x : Nat} {z : Chunk}
    (hz : I.chunks[ci]? = some z) (hallow : chunkAllowed I scope ci = true) (ho : occursAt (I.view z) lit x = true) :
    ci ∈ chunkCandidates I scope lit := by
  have hlt : ci < I.chunks.length := (List.getElem?_eq_some_iff.1 hz).1
  unfold chunkCandidates
  split
  · exact List.mem_filter.2 ⟨List.mem_range.2 hlt, hallow⟩
  · simp only
    rw [hI.laid.insertionSort_chunkLe, mem_sortDistinct]
    obtain ⟨g, hg, li, hli⟩ := hI.mem_group hlt
    exact List.mem_flatMap.2 ⟨g, hg, groupCandidates_complete (hI.groupOk hg) hli hz hallow
      (fun h hh => qgrams_of_occursAt ho (mem_plannedHashes hh))⟩

/-! ## Blocks -/

theorem getBit_drop (a : List Nat) (off j l : Nat) : getBit (a.drop off) j l = getBit a (off + j) l := by
  unfold getBit
  rw [List.getD_eq_getElem?_getD, List.getD_eq_getElem?_getD, List.getElem?_drop]

theorem intersectBlocks_complete (pos : List Nat) (d : PosDesc) {j l : Nat} : ∀ (rows bm : List Nat),
    getBit bm j l = true → (∀ r ∈ rows, getBit pos (d.off + r * d.maskBytes + j) l = true) →
      ∃ bm', intersectBlocks pos d rows bm = some bm' ∧ getBit bm' j l = true
  | [], bm, h, _ => ⟨bm, rfl, h⟩
  | r :: rows, bm, h, hrows => by
    have hbm : getBit (andRow (pos.drop d.off) d.maskBytes r bm) j l = true := by
      rw [getBit_andRow, getBit_drop, ← Nat.add_assoc]
      exact ⟨h, hrows r List.mem_cons_self⟩
    rw [intersectBlocks, if_pos (any_of_getBit hbm)]
    exact intersectBlocks_complete pos d rows _ hbm (fun r' hr' => hrows r' (List.mem_cons_of_mem r hr'))

theorem chunkBlocks_eq (I : IndexData) (hs : List Nat) {ci : Nat} {d : PosDesc} (hd : I.posDesc[ci]? = some d) :
    chunkBlocks I hs ci =
      ((List.range d.blocks).filter (fun bi => (chunkBlocks I hs ci).contains (ci, bi))).map (fun bi => (ci, bi)) := by
  obtain ⟨L, hL, hsorted, hlt⟩ : ∃ L : List Nat, chunkBlocks I hs ci = L.map (fun bi => (ci, bi)) ∧
      L.Pairwise (· < ·) ∧ ∀ bi ∈ L, bi < d.blocks := by
    unfold chunkBlocks
    simp only [hd]
    split
    · exact ⟨[], rfl, List.Pairwise.nil, fun bi h => absurd h List.not_mem_nil⟩
    · split
      · exact ⟨[], rfl, List.Pairwise.nil, fun bi h => absurd h List.not_mem_nil⟩
      · exact ⟨_, rfl, List.Pairwise.filter _ (positions_sorted _ _), fun bi h => by simpa using (List.mem_filter.1 h).2⟩
  rw [hL]
  congr 1
  refine sorted_ext hsorted (List.Pairwise.filter _ List.pairwise_lt_range) (fun bi => ?_)
  rw [List.mem_filter, List.mem_range, List.contains_iff_mem, List.mem_map]
  constructor
  · exact fun h => ⟨hlt bi h, bi, h, rfl⟩
  · rintro ⟨-, bi', h, he⟩
    cases he
    exact h

/-- **No block with the literal is missed.** -/
theorem Built.chunkBlocks_complete {I : IndexData} (hI : Built I) (hs : List Nat) {ci : Nat} {z : Chunk} {d : PosDesc}
    (hz : I.chunks[ci]? = some z) (hd : I.posDesc[ci]? = some d) {bi : Nat} (hbi : bi < d.blocks)
    (hrb : bi * I.posBlock < z.extEnd - z.coreBegin)
    (hhs : ∀ h ∈ hs, h ∈ qgrams (slice (I.data z.fileId) (z.coreBegin + bi * I.posBlock)
      (z.coreBegin + min (z.extEnd - z.coreBegin) (bi * I.posBlock + I.posBlock + positionalOverlap)))) :
    (ci, bi) ∈ chunkBlocks I hs ci := by
  have hmask : d.maskBytes = (d.blocks + 7) / 8 := by
    obtain ⟨off, hoff⟩ := hI.posDesc_of hz
    obtain rfl : posDescOf I off z = d := by simpa [hd] using hoff.symm
    rfl
  have hall : getBit (allBlocks d) (bi / 8) (bi % 8) = true := by
    rw [allBlocks, hmask]
    exact getBit_ones (by decide : 0 < 8) hbi
  obtain ⟨bm, hbm, hbit⟩ := intersectBlocks_complete I.pos d (sortDistinct (hs.map (fun h => h &&& (d.m - 1)))) (allBlocks d)
    hall (fun r hr => by
      obtain ⟨h, hh, rfl⟩ := List.mem_map.1 (mem_sortDistinct.1 hr)
      exact hI.pos_bit hz hd hbi hrb (hhs h hh))
  unfold chunkBlocks
  simp only [hd, hbm]
  rw [if_neg (by omega)]
  exact List.mem_map.2 ⟨bi, List.mem_filter.2 ⟨(mem_positions (by decide)).2 hbit, by simpa using hbi⟩, rfl⟩

end Pergrep
