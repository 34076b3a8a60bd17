import Pergrep.Search.Bloom
import Pergrep.Search.Cover
import Pergrep.Search.Records
/-!
# Ascending — matches come in the order of the files

Every branch of `find` goes through the files in order, and through a file by parts that lie apart: cores of chunks, blocks,
records, the candidate starts of merged regions.  What a part gives starts in it (`Zone`), in order.  So the list has its
matches in ascending order, and no start of a file twice, whatever the pattern, the bound and the operator
(`find_ascending`).
-/
namespace Pergrep

open Throw Emit

def Match.Before (a b : Match) : Prop := a.fileId < b.fileId ∨ (a.fileId = b.fileId ∧ a.start < b.start)

/-- Starts in a file. -/
structure Zone where
  fileId : Nat
  lo : Nat
  hi : Nat

structure Zone.Has (z : Zone) (m : Match) : Prop where
  file : m.fileId = z.fileId
  low : z.lo ≤ m.start
  high : m.start < z.hi

/-- The first zone ends before the other begins. -/
def Zone.Before (z z' : Zone) : Prop := z.fileId < z'.fileId ∨ (z.fileId = z'.fileId ∧ z.hi ≤ z'.lo)

theorem Zone.Before.matches {z z' : Zone} (h : z.Before z') (a b : Match) (ha : z.Has a) (hb : z'.Has b) : a.Before b := by
  unfold Match.Before
  rw [ha.file, hb.file]
  rcases h with h | ⟨hf, h⟩
  · exact Or.inl h
  · exact Or.inr ⟨hf, Nat.lt_of_lt_of_le ha.high (h.trans hb.low)⟩

/-- The matches start in the zone, in order. -/
structure Zone.Ascends (z : Zone) (ms : List Match) : Prop where
  has : ∀ m ∈ ms, z.Has m
  starts : ms.Pairwise (fun a b => a.start < b.start)

theorem Zone.Ascends.before {z : Zone} {ms : List Match} (h : z.Ascends ms) : ms.Pairwise Match.Before :=
  h.starts.imp_of_mem (fun ha hb hlt => Or.inr ⟨((h.has _ ha).file).trans (h.has _ hb).file.symm, hlt⟩)

theorem Zone.ascends_nil (z : Zone) : z.Ascends [] := ⟨fun _ hm => absurd hm List.not_mem_nil, List.Pairwise.nil⟩

/-! ## Scans -/

section
variable {icu : Icu}

theorem icaseLoop_range {s q : Bytes} {maxStart : Nat} : ∀ {fuel p x e : Nat}, icaseLoop icu s q maxStart fuel p = some (x, e) →
    p ≤ x ∧ x < maxStart
  | 0, _, _, _, h => by cases h
  | fuel + 1, p, x, e, h => by
    rw [icaseLoop] at h
    split at h
    · rename_i hp
      split at h
      · cases h
        exact ⟨Nat.le_refl _, hp.2⟩
      · have hnext : p ≤ ((runeAt s p).map Rune.next).getD (p + 1) := by
          cases hr : runeAt s p with
          | none => exact Nat.le_succ p
          | some r => exact Nat.le_of_lt (runeAt_next hr).1
        obtain ⟨h1, h2⟩ := icaseLoop_range h
        exact ⟨hnext.trans h1, h2⟩
    · cases h

variable {I : IndexData} {p : Pattern} {opt : SearchOptions} (hq : p.expr ≠ [])
include hq

theorem anchorFind_range {s : Bytes} {start maxStart : Nat} {icase : Bool} {x e : Nat}
    (h : anchorFind icu s p.expr (chooseRareByte I p.expr) start maxStart icase = some (x, e)) : start ≤ x ∧ x < maxStart := by
  cases icase with
  | false => exact ((anchorFind_spec icu hq (chooseRareByte_lt I hq) start maxStart).1 x e h).2.2
  | true =>
    rw [anchorFind, if_neg (fun hempty => hq (List.isEmpty_iff.1 hempty)), if_neg (by simp), if_pos rfl] at h
    exact icaseLoop_range h

/-- **A window is scanned in order.** -/
theorem windowEmits_ascends {fid base : Nat} {v : Bytes} {maxStart : Nat} {icase : Bool} {ok : Nat → Nat → Bool} {n : Nat} :
    Zone.Ascends { fileId := fid, lo := base, hi := base + maxStart }
      (windowEmits icu I p opt fid base v maxStart icase ok n).1 where
  has m hm := by
    have hstart := windowEmits_forall (P := fun m => base ≤ m.start ∧ m.start < base + maxStart)
      (fun start x e h => ⟨Nat.le_add_right _ _, Nat.add_lt_add_left (anchorFind_range hq h).2 base⟩) m hm
    exact ⟨windowEmits_fileId icu I p opt n m hm, hstart.1, hstart.2⟩
  starts := by
    refine (loopEmits_ascending (fun s => base + s.1) Match.start (fun s b s' h => ?_) _ _).2
    unfold fileStep windowStep at h
    dsimp only at h
    split at h
    · split at h
      · cases h
      rename_i x e hfind
      have hx := (anchorFind_range hq hfind).1
      split at h
      · split at h
        · cases h
          dsimp only
          exact ⟨by omega, fun m hm => by cases hm; dsimp only; omega⟩
        split at h
        · cases h
          dsimp only
          exact ⟨by omega, fun m hm => by cases hm⟩
        · cases h
          dsimp only
          exact ⟨by omega, fun m hm => by cases hm; dsimp only; omega⟩
      · cases h
        dsimp only
        exact ⟨by omega, fun m hm => by cases hm⟩
    · cases h

theorem wholeFileEmits_ascends (fid : Nat) :
    Zone.Ascends { fileId := fid, lo := 0, hi := (I.data fid).length } (wholeFileEmits icu I p opt fid) := by
  have hempty : p.expr.isEmpty = false := List.isEmpty_eq_false_iff.2 hq
  have hstep : ∀ (s : Nat) b s', wholeFileStep icu I p opt fid s = some (b, s') →
      s ≤ s' ∧ ∀ m, b = some m → m.fileId = fid ∧ m.start < (I.data fid).length ∧ s ≤ m.start ∧ m.start < s' := by
    intro s b s' h
    unfold wholeFileStep at h
    dsimp only at h
    rw [hempty, if_neg Bool.false_ne_true, Nat.add_zero] at h
    split at h
    · split at h
      · cases h
      rename_i x e hfind
      obtain ⟨h1, h2⟩ := anchorFind_range hq hfind
      have hadvance : 0 < advanceBy opt.overlapping x e := by
        unfold advanceBy
        split <;> omega
      cases h
      refine ⟨by omega, fun m hm => ?_⟩
      split at hm
      · cases hm
        exact ⟨rfl, h2, h1, Nat.lt_add_of_pos_right hadvance⟩
      · cases hm
    · cases h
  unfold wholeFileEmits
  split
  · exact Zone.ascends_nil _
  · refine ⟨fun m hm => ?_, (loopEmits_ascending id Match.start (fun s b s' h => ?_) _ _).2⟩
    · obtain ⟨s, s', h⟩ := mem_loopEmits hm
      obtain ⟨h1, h2, -⟩ := (hstep s _ s' h).2 m rfl
      exact ⟨h1, Nat.zero_le _, h2⟩
    · exact ⟨(hstep s b s' h).1, fun m hm => ((hstep s b s' h).2 m hm).2.2⟩

end

/-! ## Chunks and blocks -/

theorem Tiles.apart {overlap fid n : Nat} : ∀ {zs : List Chunk} {b : Nat}, Tiles overlap fid n b zs →
    zs.Pairwise (fun y z => y.coreEnd ≤ z.coreBegin)
  | [], _, _ => List.Pairwise.nil
  | y :: ys, b, h => by
    obtain ⟨-, -, -, -, -, hrest⟩ := h
    exact List.pairwise_cons.2 ⟨fun z hz => (hrest.mem hz).2.1, hrest.apart⟩

variable (I : IndexData) in
def coreZone (ci : Nat) : Zone :=
  { fileId := fileOf I ci, lo := ((I.chunks[ci]?).map Chunk.coreBegin).getD 0, hi := ((I.chunks[ci]?).map Chunk.coreEnd).getD 0 }

variable (I : IndexData) in
def blockZone (b : Nat × Nat) : Zone :=
  { fileId := fileOf I b.1, lo := (coreZone I b.1).lo + b.2 * I.posBlock,
    hi := min (coreZone I b.1).hi ((coreZone I b.1).lo + (b.2 + 1) * I.posBlock) }

section
variable {I : IndexData} (hI : Built I)
include hI

/-- **The cores of the chunks lie apart.** -/
theorem Built.cores_apart {a b : Nat} (hb : b < I.chunks.length) (hab : a < b) : (coreZone I a).Before (coreZone I b) := by
  have hpairs : I.chunks.Pairwise (fun y z => y.fileId < z.fileId ∨ (y.fileId = z.fileId ∧ y.coreEnd ≤ z.coreBegin)) := by
    rw [hI.chunks_flatMap, List.pairwise_flatMap]
    constructor
    · intro fid _
      refine (hI.tiles fid).apart.imp_of_mem (fun hy hz h => Or.inr ⟨?_, h⟩)
      rw [((hI.tiles fid).mem hy).1, ((hI.tiles fid).mem hz).1]
    · refine List.pairwise_lt_range.imp (fun {f g} hfg y hy z hz => Or.inl ?_)
      rw [((hI.tiles f).mem hy).1, ((hI.tiles g).mem hz).1]
      exact hfg
  have ha : a < I.chunks.length := hab.trans hb
  unfold Zone.Before coreZone
  rw [fileOf, fileOf, List.getElem?_eq_getElem ha, List.getElem?_eq_getElem hb]
  exact List.pairwise_iff_getElem.1 hpairs a b ha hb hab

/-- **The blocks lie apart.** -/
theorem Built.blocks_apart {a b : Nat × Nat} (hb : b.1 < I.chunks.length) (h : BlockBefore I a b) :
    (blockZone I a).Before (blockZone I b) := by
  have hmono : ∀ x y : Nat × Nat, x.1 = y.1 → x.2 < y.2 → (x.2 + 1) * I.posBlock ≤ y.2 * I.posBlock :=
    fun x y _ hlt => Nat.mul_le_mul_right _ hlt
  rcases h with h | ⟨hf, h | ⟨h1, h2⟩⟩
  · exact Or.inl h
  · -- of two chunks
    rcases hI.cores_apart hb h with hlt | ⟨-, hle⟩
    · exact Or.inl hlt
    · exact Or.inr ⟨hf, (Nat.min_le_left _ _).trans (hle.trans (Nat.le_add_right _ _))⟩
  · refine Or.inr ⟨hf, (Nat.min_le_right _ _).trans ?_⟩
    have hm := hmono a b h1 h2
    unfold blockZone
    dsimp only
    rw [h1]
    exact Nat.add_le_add_left hm _

variable {icu : Icu} {p : Pattern} {opt : SearchOptions} (hq : p.expr ≠ [])

omit hI in
theorem onChunk_ascends {e : Chunk → Nat → List Match × Nat} {zone : Zone} {ci n : Nat}
    (he : ∀ z, I.chunks[ci]? = some z → zone.Ascends (e z n).1) : zone.Ascends (onChunk I opt e ci n).1 := by
  unfold onChunk
  cases hz : I.chunks[ci]? with
  | none => exact Zone.ascends_nil _
  | some z =>
    dsimp only
    split
    · exact Zone.ascends_nil _
    · exact he z hz

include hq

theorem viewWindow_ascends {icase : Bool} {ok : Nat → Nat → Bool} {ci n : Nat} {z : Chunk} (hz : I.chunks[ci]? = some z) :
    (coreZone I ci).Ascends
      (windowEmits icu I p opt z.fileId z.coreBegin (I.view z) (z.coreEnd - z.coreBegin) icase ok n).1 := by
  have hcore := (hI.chunk (List.mem_of_getElem? hz)).2.1
  have hzone : coreZone I ci = { fileId := z.fileId, lo := z.coreBegin, hi := z.coreBegin + (z.coreEnd - z.coreBegin) } := by
    rw [coreZone, fileOf_of I hz, hz, Nat.add_sub_cancel' hcore]
    rfl
  rw [hzone]
  exact windowEmits_ascends hq

theorem blockEmits_ascends (b : Nat × Nat) (n : Nat) : (blockZone I b).Ascends (blockEmits icu I p opt b n).1 := by
  have hempty : p.expr.isEmpty = false := List.isEmpty_eq_false_iff.2 hq
  refine onChunk_ascends (fun z hz => ?_)
  obtain ⟨-, hcore, -⟩ := hI.chunk (List.mem_of_getElem? hz)
  unfold blockWindow
  dsimp only
  rw [hempty]
  split
  · exact Zone.ascends_nil _
  · rename_i hin
    have hlt : b.2 * I.posBlock < z.coreEnd - z.coreBegin := Nat.lt_of_not_le (fun hle => hin ⟨hle, fun h => by cases h.1⟩)
    have hzone : blockZone I b =
        ⟨z.fileId, z.coreBegin + b.2 * I.posBlock,
          z.coreBegin + b.2 * I.posBlock + min I.posBlock (z.coreEnd - z.coreBegin - b.2 * I.posBlock)⟩ := by
      rw [blockZone, coreZone, fileOf_of I hz, hz]
      have hsucc : (b.2 + 1) * I.posBlock = b.2 * I.posBlock + I.posBlock := Nat.succ_mul _ _
      congr 1
      change min z.coreEnd (z.coreBegin + (b.2 + 1) * I.posBlock) = _
      omega
    rw [hzone]
    exact windowEmits_ascends hq

/-- **The fixed branch gives its matches in order**, whatever the operator and the bound. -/
theorem findFixed_ascending (guarded : Option FixedPhysicalOperator) (full : List Match → Bool) :
    (findFixed icu I p opt guarded full).1.Pairwise Match.Before := by
  have hempty : p.expr.isEmpty = false := List.isEmpty_eq_false_iff.2 hq
  have hpushed : ∀ {bs : List Match} {r : List Match × Bool}, r = pushAll full [] bs → bs.Pairwise Match.Before →
      r.1.Pairwise Match.Before := by
    rintro bs r rfl hbs
    exact hbs.sublist (pushAll_begins full bs []).sublist
  have hcores : ∀ scope lit, (chunkCandidates I scope lit).Pairwise
      (fun a b => ∀ m m', (coreZone I a).Has m → (coreZone I b).Has m' → m.Before m') := by
    intro scope lit
    refine (hI.laid.chunkCandidates_sorted scope lit).imp_of_mem (fun _ hb hab => ?_)
    exact (hI.cores_apart (chunkAllowed_lt (hI.laid.chunkCandidates_allowed hb)) hab).matches
  unfold findFixed
  split
  · obtain ⟨s, hwhole⟩ := findWholeFile_pushes icu I p opt
    refine hpushed (hwhole full []).1 ?_
    rw [List.pairwise_flatMap]
    refine ⟨fun fid _ => (wholeFileEmits_ascends hq fid).before, ?_⟩
    refine (hI.laid.candidateFiles_spec (hI.laid.chunkCandidates_sorted _ _)).1.imp (fun {f g} hfg a ha b hb => Or.inl ?_)
    rw [((wholeFileEmits_ascends hq f).has a ha).file, ((wholeFileEmits_ascends hq g).has b hb).file]
    exact hfg
  split
  · refine hpushed ((Pushes.each _ (fun ci _ s => scanChunk_emits icu I p opt _ _ ci s) _) full []).1 ?_
    refine emits_pairwise (fun ci => (coreZone I ci).Has) (hcores _ _) (fun ci _ s => ?_) _
    have hasc : (coreZone I ci).Ascends (atKey (fileOf I) (chunkEmits icu I p opt p.icase
        (fun fid => boundaryOk icu p.opt opt.recordSeparator (I.data fid))) ci s).1 := by
      refine onChunk_ascends (fun z hz => ?_)
      rw [hempty, if_neg Bool.false_ne_true, Nat.add_zero]
      exact viewWindow_ascends hI hq hz
    exact ⟨hasc.before, hasc.has⟩
  split
  · refine hpushed ((Pushes.each _ (fun b _ s => scanBlock_emits icu I p opt b s) _) full []).1 ?_
    refine emits_pairwise (fun b => (blockZone I b).Has) ?_ (fun b _ s => ?_) _
    · refine (hI.fixedCandidateBlocks_ordered _ hq).imp_of_mem (fun {a b} _ hb h => (hI.blocks_apart ?_ h).matches)
      unfold fixedCandidateBlocks at hb
      rw [hempty, if_neg Bool.false_ne_true] at hb
      obtain ⟨ci, hci, hb⟩ := List.mem_flatMap.1 hb
      have hlt := chunkAllowed_lt (hI.laid.chunkCandidates_allowed hci)
      rw [(hI.chunkBlocks_ordered _ hlt).2 b hb]
      exact hlt
    · have hasc : (blockZone I b).Ascends (atKey (fun b => fileOf I b.1) (blockEmits icu I p opt) b s).1 :=
        blockEmits_ascends hI hq b _
      exact ⟨hasc.before, hasc.has⟩
  · refine hpushed ((Pushes.each _ (fun ci _ s => scanLong_emits icu I p opt ci s) _) full []).1 ?_
    refine emits_pairwise (fun ci => (coreZone I ci).Has) (hcores _ _) (fun ci _ s => ?_) _
    have hasc : (coreZone I ci).Ascends (atKey (fileOf I) (longEmits icu I p opt) ci s).1 :=
      onChunk_ascends (fun z hz => viewWindow_ascends hI hq hz)
    exact ⟨hasc.before, hasc.has⟩

end

/-! ## Records and regions -/

section
variable {recordBegin recordEnd : Nat}

/-- The candidates of the region are starts of the record. -/
def BoundedRegexRegion.Inside (recordBegin recordEnd : Nat) (r : BoundedRegexRegion) : Prop :=
  recordBegin ≤ r.candidateBegin ∧ r.candidateEnd ≤ recordEnd + 1

theorem mergeRegion_inside {acc : List BoundedRegexRegion} {next : BoundedRegexRegion}
    (hacc : ∀ r ∈ acc, r.Inside recordBegin recordEnd) (hnext : next.Inside recordBegin recordEnd) :
    ∀ r ∈ mergeRegion acc next, r.Inside recordBegin recordEnd := by
  have happend : ∀ r ∈ acc ++ [next], r.Inside recordBegin recordEnd :=
    List.forall_mem_append.2 ⟨hacc, List.forall_mem_singleton.2 hnext⟩
  unfold mergeRegion
  split
  · rename_i cur hcur
    have hlast := hacc cur (List.mem_of_getLast? hcur)
    split
    · refine List.forall_mem_append.2 ⟨fun r hr => hacc r (List.mem_of_mem_dropLast hr), List.forall_mem_singleton.2 ?_⟩
      exact ⟨hlast.1, Nat.max_le.2 ⟨hlast.2, hnext.2⟩⟩
    · exact happend
  · exact happend

theorem foldl_mergeRegion_inside : ∀ {regions acc : List BoundedRegexRegion}, (∀ r ∈ acc, r.Inside recordBegin recordEnd) →
    (∀ r ∈ regions, r.Inside recordBegin recordEnd) → ∀ r ∈ regions.foldl mergeRegion acc, r.Inside recordBegin recordEnd
  | [], _, hacc, _ => hacc
  | next :: regions, acc, hacc, h => by
    obtain ⟨hnext, hrest⟩ := List.forall_mem_cons.1 h
    exact @foldl_mergeRegion_inside regions (mergeRegion acc next) (mergeRegion_inside hacc hnext) hrest

theorem joinIntervals_inside : ∀ {fuel : Nat} {xs ys : List (Nat × Nat)}, (∀ x ∈ xs, recordBegin ≤ x.1 ∧ x.2 ≤ recordEnd + 1) →
    ∀ x ∈ joinIntervals fuel xs ys, recordBegin ≤ x.1 ∧ x.2 ≤ recordEnd + 1
  | 0, _, _, _, x, hx => by
    rw [joinIntervals] at hx
    cases hx
  | fuel + 1, [], _, _, x, hx => by cases hx
  | fuel + 1, y :: ys, [], _, x, hx => by cases hx
  | fuel + 1, y :: ys, z :: zs, h, x, hx => by
    obtain ⟨hy, hys⟩ := List.forall_mem_cons.1 h
    rw [joinIntervals] at hx
    rcases List.mem_append.1 hx with hx | hx
    · split at hx
      · rw [List.mem_singleton.1 hx]
        exact ⟨hy.1.trans (Nat.le_max_left _ _), (Nat.min_le_left _ _).trans hy.2⟩
      · cases hx
    · split at hx
      · exact joinIntervals_inside hys x hx
      · exact joinIntervals_inside h x hx

theorem joinConstraints_inside {record : Bytes} : ∀ {ks : List LiteralOffsetConstraint} {joined : Option (List (Nat × Nat))}
    {out : List (Nat × Nat)}, (∀ xs ∈ joined, ∀ x ∈ xs, recordBegin ≤ x.1 ∧ x.2 ≤ recordEnd + 1) →
      joinConstraints record recordBegin recordEnd ks joined = some out → ∀ x ∈ out, recordBegin ≤ x.1 ∧ x.2 ≤ recordEnd + 1
  | [], _, out, hjoined, h => hjoined out h
  | k :: ks, joined, out, hjoined, h => by
    have hcurrent : ∀ x ∈ (occurrences record k.literal (record.length + 1) 0).filterMap
        (constraintInterval recordBegin recordEnd k), recordBegin ≤ x.1 ∧ x.2 ≤ recordEnd + 1 := by
      intro x hx
      obtain ⟨i, -, hi⟩ := List.mem_filterMap.1 hx
      unfold constraintInterval at hi
      dsimp only at hi
      obtain ⟨-, hi⟩ := Option.ite_none_right_eq_some.1 hi
      obtain ⟨-, hi⟩ := Option.ite_none_right_eq_some.1 hi
      rw [← Option.some.inj hi]
      refine ⟨?_, Nat.min_le_left _ _⟩
      dsimp only
      split
      · exact Nat.le_max_left _ _
      · exact Nat.le_refl _
    rw [joinConstraints] at h
    split at h
    · cases h
    dsimp only at h
    split at h
    · cases h
    split at h
    · exact joinConstraints_inside (fun xs hxs => by cases hxs; exact hcurrent) h
    · split at h
      · cases h
      · exact joinConstraints_inside (fun xs hxs => by cases hxs; exact joinIntervals_inside (hjoined _ rfl)) h

/-- **The regions of a branch stay in the record.** -/
theorem branchRegions_inside {a : RegexAnalysis} {record : Bytes} (b : BoundedBranch) :
    ∀ r ∈ branchRegions b a record recordBegin recordEnd, r.Inside recordBegin recordEnd := by
  unfold branchRegions
  split
  · unfold boundedRegexRegionsJoined
    split
    · exact fun r hr => absurd hr List.not_mem_nil
    · refine foldl_mergeRegion_inside (fun r hr => absurd hr List.not_mem_nil) (fun r hr => ?_)
      obtain ⟨x, hx, hr⟩ := List.mem_filterMap.1 hr
      cases hj : joinConstraints record recordBegin recordEnd b.constraints none with
      | none =>
        rw [hj] at hx
        cases hx
      | some xs =>
        rw [hj] at hx
        have hin := joinConstraints_inside (fun xs hxs => by cases hxs) hj x hx
        unfold regionOf at hr
        dsimp only at hr
        obtain ⟨-, hr⟩ := Option.ite_none_right_eq_some.1 hr
        rw [← Option.some.inj hr]
        exact hin
  · unfold boundedRegexRegions
    split
    · exact fun r hr => absurd hr List.not_mem_nil
    · refine foldl_mergeRegion_inside (fun r hr => absurd hr List.not_mem_nil) (fun r hr => ?_)
      obtain ⟨i, -, hr⟩ := List.mem_filterMap.1 hr
      unfold regionAround at hr
      dsimp only at hr
      obtain ⟨-, hr⟩ := Option.ite_none_right_eq_some.1 hr
      rw [← Option.some.inj hr]
      refine ⟨?_, Nat.min_le_left _ _⟩
      dsimp only
      split
      · exact Nat.le_max_left _ _
      · exact Nat.le_refl _

/-- **Merging leaves regions that lie apart.** -/
theorem foldl_mergeRegion_apart : ∀ {regions acc : List BoundedRegexRegion}, FirstFirst regions →
    (∀ r ∈ regions, ∀ cur ∈ acc.getLast?, cur.candidateBegin ≤ r.candidateBegin) →
      acc.Pairwise (fun r r' => r.candidateEnd < r'.candidateBegin) →
        (regions.foldl mergeRegion acc).Pairwise (fun r r' => r.candidateEnd < r'.candidateBegin)
  | [], _, _, _, hacc => hacc
  | next :: regions, acc, hsorted, hlast, hacc => by
    obtain ⟨-, hlast'⟩ := mergeRegion_sub (hlast next List.mem_cons_self)
    have hmerged : (mergeRegion acc next).Pairwise (fun r r' => r.candidateEnd < r'.candidateBegin) := by
      unfold mergeRegion
      split
      · rename_i cur hcur
        have hsplit : acc = acc.dropLast ++ [cur] := (List.dropLast_append_getLast? cur hcur).symm
        rw [hsplit] at hacc
        obtain ⟨hinit, -, hend⟩ := List.pairwise_append.1 hacc
        have hbefore := fun r hr => hend r hr cur (List.mem_singleton_self cur)
        split
        · exact List.pairwise_append.2 ⟨hinit, List.pairwise_singleton _ _, fun r hr r' hr' => by
            rw [List.mem_singleton.1 hr']
            exact hbefore r hr⟩
        · rename_i hgap
          have hcurnext := hlast next List.mem_cons_self cur hcur
          rw [hsplit]
          refine List.pairwise_append.2 ⟨hacc, List.pairwise_singleton _ _, fun r hr r' hr' => ?_⟩
          rw [List.mem_singleton.1 hr']
          rcases List.mem_append.1 hr with hr | hr
          · exact Nat.lt_of_lt_of_le (hbefore r hr) hcurnext
          · rw [List.mem_singleton.1 hr]
            exact Nat.lt_of_not_le hgap
      · rename_i hnone
        rw [List.getLast?_eq_none_iff.1 hnone]
        exact List.pairwise_singleton _ _
    exact @foldl_mergeRegion_apart regions (mergeRegion acc next) hsorted.tail
      (fun q hq cur hcur => (hlast' cur hcur).trans (List.rel_of_pairwise_cons hsorted hq)) hmerged

/-- **The regions of a record** are in it, and lie apart. -/
theorem recordRegions_apart (branches : List BoundedBranch) (a : RegexAnalysis) (record : Bytes) :
    (∀ r ∈ recordRegions branches a record recordBegin recordEnd, r.Inside recordBegin recordEnd) ∧
      (recordRegions branches a record recordBegin recordEnd).Pairwise (fun r r' => r.candidateEnd < r'.candidateBegin) := by
  unfold recordRegions
  refine ⟨foldl_mergeRegion_inside (fun r hr => absurd hr List.not_mem_nil) (fun r hr => ?_),
    foldl_mergeRegion_apart (regions_sorted _) (fun r _ cur hcur => by cases hcur) List.Pairwise.nil⟩
  rw [List.mem_insertionSort] at hr
  obtain ⟨b, -, hr⟩ := List.mem_flatMap.1 hr
  exact branchRegions_inside b r hr

end

/-- **The records a regex is tried on** lie apart. -/
theorem regexRecords_apart (p : Pattern) (opt : SearchOptions) (data : Bytes) :
    (∀ r ∈ regexRecords p opt data, r.1 ≤ r.2) ∧ (regexRecords p opt data).Pairwise (fun r r' => r.2 < r'.1) := by
  unfold regexRecords
  split
  · exact ⟨List.forall_mem_singleton.2 (Nat.zero_le _), List.pairwise_singleton _ _⟩
  · refine ⟨fun r hr => ?_, recordsFrom_apart⟩
    obtain ⟨e, he⟩ := mem_records hr
    exact he.bounds.1

def runZone (run : Nat × VerifierContext) : Zone := ⟨run.1, run.2.candidateBegin, run.2.candidateEnd⟩

section
variable {icu : Icu} {I : IndexData} {p : Pattern} {re : RegexProgram} {opt : SearchOptions}

theorem recordRuns_apart (lit : Bytes) (fid : Nat) :
    (regexContexts I p opt lit fid).Pairwise (fun c c' => c.candidateEnd ≤ c'.candidateBegin) := by
  unfold regexContexts
  split
  · exact List.Pairwise.nil
  split
  · exact List.Pairwise.nil
  · exact List.pairwise_map.2 ((regexRecords_apart p opt (I.data fid)).2.imp (fun h => h))

theorem regionRuns_apart (a : RegexAnalysis) (fid : Nat) :
    (regionContexts I p re opt a fid).Pairwise (fun c c' => c.candidateEnd ≤ c'.candidateBegin) := by
  unfold regionContexts boundedContexts
  split
  · exact List.Pairwise.nil
  rw [List.pairwise_flatMap]
  obtain ⟨hle, hrecords⟩ := regexRecords_apart p opt (I.data fid)
  constructor
  · intro r hr
    refine List.pairwise_map.2 ((recordRegions_apart _ a _).2.imp (fun h => Nat.le_of_lt h))
  · refine hrecords.imp (fun {r r'} hlt c hc c' hc' => ?_)
    obtain ⟨b, hb, rfl⟩ := List.mem_map.1 hc
    obtain ⟨b', hb', rfl⟩ := List.mem_map.1 hc'
    have h1 := ((recordRegions_apart _ a _).1 b hb).2
    have h2 := ((recordRegions_apart _ a _).1 b' hb').1
    dsimp only
    omega

/-- **The runs of the verifier lie apart.** -/
theorem verifierRuns_apart (hI : Built I) :
    (verifierRuns I p re opt).Pairwise (fun run run' => (runZone run).Before (runZone run')) := by
  have hpairs : ∀ {files : List Nat} {contexts : Nat → List VerifierContext}, files.Pairwise (· < ·) →
      (∀ fid, (contexts fid).Pairwise (fun c c' => c.candidateEnd ≤ c'.candidateBegin)) →
        (files.flatMap (fun fid => (contexts fid).map (fun c => (fid, c)))).Pairwise
          (fun run run' => (runZone run).Before (runZone run')) := by
    intro files contexts hfiles hcontexts
    rw [List.pairwise_flatMap]
    constructor
    · exact fun fid _ => List.pairwise_map.2 ((hcontexts fid).imp (fun h => Or.inr ⟨rfl, h⟩))
    · refine hfiles.imp (fun {f g} hfg run hrun run' hrun' => Or.inl ?_)
      obtain ⟨c, -, rfl⟩ := List.mem_map.1 hrun
      obtain ⟨c', -, rfl⟩ := List.mem_map.1 hrun'
      exact hfg
  have hcandidates := (hI.laid.candidateFiles_spec (regexCandidates_sorted hI.laid p re opt)).1
  unfold verifierRuns verifierFiles
  dsimp only
  split
  · split
    · dsimp only
      split
      · exact hpairs hcandidates (recordRuns_apart _)
      · exact hpairs hcandidates (regionRuns_apart _)
    · exact hpairs (hI.laid.candidateFiles_spec (List.pairwise_lt_range.filter _)).1 (recordRuns_apart _)
  · exact hpairs hcandidates (recordRuns_apart _)

/-- **The regex branch gives its matches in order**, whatever the bound. -/
theorem findRegexBranch_ascending (hI : Built I) {r : List Match × Bool} (h : findRegexBranch icu I p re opt = .ok r) :
    r.1.Pairwise Match.Before := by
  rw [findRegexBranch_eq] at h
  refine eachE_pairwise (fun run => (runZone run).Has) ((verifierRuns_apart hI).imp (fun h => h.matches)) (fun run _ out r h => ?_) h
    List.Pairwise.nil (fun b hb => absurd hb List.not_mem_nil)
  obtain ⟨ms, hms, h⟩ := bind_ok h
  cases h
  have hord := findAllLoop_ordered hms
  have hasc : (runZone run).Ascends ms :=
    ⟨fun m hm => ⟨findAllLoop_fileId icu hms m hm, (hord.range m hm).1, (hord.range m hm).2.1⟩, hord.starts⟩
  exact ⟨ms, rfl, hasc.before, hasc.has⟩

/-! ## Records without a match -/

variable (I p opt) in
def invertRuns : List (Nat × (Nat × Nat)) :=
  (List.range I.loaded.length).flatMap (fun fid =>
    (if !allows I opt.eligibleFileIds fid || skipsBinary I opt fid then []
      else records p.opt.crlf opt.recordSeparator (I.data fid)).map (fun r => (fid, r)))

theorem findInvert_eq : findInvert icu I p opt = eachE (fun run => invertRecord icu I p opt run.1 run.2) (invertRuns I p opt) [] := by
  unfold findInvert invertRuns
  rw [eachE_flatMap]
  refine eachE_congr (fun fid _ out => ?_) []
  rw [eachE_map]
  split
  · rfl
  · rfl

theorem invertRuns_apart : (invertRuns I p opt).Pairwise (fun run run' =>
    Zone.Before ⟨run.1, run.2.1, run.2.1 + 1⟩ ⟨run'.1, run'.2.1, run'.2.1 + 1⟩) := by
  unfold invertRuns
  rw [List.pairwise_flatMap]
  constructor
  · intro fid _
    split
    · exact List.Pairwise.nil
    · refine List.pairwise_map.2 (recordsFrom_apart.imp_of_mem (fun {r r'} hr _ hlt => Or.inr ⟨rfl, ?_⟩))
      obtain ⟨e, he⟩ := mem_recordsFrom hr
      have := he.bounds.1
      dsimp only
      omega
  · refine List.pairwise_lt_range.imp (fun {f g} hfg run hrun run' hrun' => Or.inl ?_)
    obtain ⟨r, -, rfl⟩ := List.mem_map.1 hrun
    obtain ⟨r', -, rfl⟩ := List.mem_map.1 hrun'
    exact hfg

/-- **An inverted search gives its records in order**, whatever the bound. -/
theorem findInvert_ascending {r : List Match × Bool} (h : findInvert icu I p opt = .ok r) : r.1.Pairwise Match.Before := by
  rw [findInvert_eq] at h
  refine eachE_pairwise (fun run => (Zone.mk run.1 run.2.1 (run.2.1 + 1)).Has) (invertRuns_apart.imp (fun h => h.matches))
    (fun run _ out r h => ?_) h List.Pairwise.nil (fun b hb => absurd hb List.not_mem_nil)
  unfold invertRecord at h
  obtain ⟨b, -, h⟩ := bind_ok h
  split at h
  · cases h
    exact ⟨[], (List.append_nil out).symm, List.Pairwise.nil, fun b hb => absurd hb List.not_mem_nil⟩
  · cases h
    exact ⟨_, rfl, List.pairwise_singleton _ _, List.forall_mem_singleton.2 ⟨rfl, Nat.le_refl _, Nat.lt_succ_self _⟩⟩

/-! ## The whole search -/

variable {e : Bytes} {o : PatternOptions}

theorem rewritten_ne_nil (hp : Pattern.compile icu e o = .ok p) (hre : p.re = some re) (hrw : rewritesToFixed p re opt = true) :
    re.queryIr.exactLiteral ≠ [] := by
  obtain ⟨r, hparse, -, -, -, -, hir, -⟩ := parseRegex_ok (compile_regex hp hre).2
  have hne := Parser.parse_pureLiteral hparse
  rw [rewritesToFixed] at hrw
  simp only [Bool.and_eq_true] at hrw
  obtain ⟨⟨⟨⟨hpure, -⟩, -⟩, -⟩, -⟩ := hrw
  intro hnil
  rw [hir, analyzeQuery] at hpure hnil
  dsimp only at hpure hnil
  split at hpure
  · cases hpure
  · rename_i hx
    rw [if_neg hx] at hnil
    obtain ⟨l, hl⟩ := Option.isSome_iff_exists.1 hpure
    rw [hl] at hnil hne
    exact hne (congrArg some hnil)

/-- **The matches of a search ascend**: by file, and in a file by start, none twice.  So it is under every bound and with every
operator, of an inverted search too; of a fixed pattern that is not empty. -/
theorem find_ascending (hI : Built I) (hp : Pattern.compile icu e o = .ok p) (hfixed : p.re = none → p.expr ≠ []) (plan : Planner)
    {ms : List Match} (h : find icu I plan p opt = .ok ms) : ms.Pairwise Match.Before := by
  obtain ⟨r, hr, h⟩ := bind_ok h
  have hraw : r.1.Pairwise Match.Before := by
    unfold findRaw at hr
    split at hr
    · exact findInvert_ascending hr
    cases hre : p.re with
    | none =>
      rw [hre] at hr
      cases hr
      exact findFixed_ascending hI (hfixed hre) _ _
    | some re =>
      rw [hre] at hr
      dsimp only at hr
      split at hr
      · rename_i hrw
        cases hr
        exact findFixed_ascending hI (rewritten_ne_nil hp hre hrw) _ _
      · exact findRegexBranch_ascending hI hr
  split at h
  · cases h
    exact hraw.sublist (List.take_sublist _ _)
  · cases h
    exact hraw

theorem find_ascending_secondLine : ∃ I p ms, fromDocuments secondLine smallChunks = .ok I ∧
    Pattern.compile asciiIcu [0x5B, 0x62, 0x5D] {} = .ok p ∧ find asciiIcu I (fun _ _ => none) p {} = .ok ms ∧
    ms ≠ [] ∧ ms.Pairwise Match.Before := by
  obtain ⟨I, p, ms, -, hI, hp, hms, -, hne, -⟩ := secondLine_first
  have hfixed : p.re = none → p.expr ≠ [] := fun hnone => by
    unfold Pattern.compile at hp
    rw [if_pos (by decide)] at hp
    obtain ⟨re, -, hp⟩ := bind_ok hp
    cases hp
    cases hnone
  refine ⟨I, p, ms, hI, hp, hms, fun hnil => ?_, find_ascending (fromDocuments_built hI).1 hp hfixed _ hms⟩
  rw [hnil] at hne
  exact hne rfl

def blankLine : List Document := [{ path := [0x66], content := List.replicate 65 0x20 }]

/-- **The empty literal** is found twice where two chunks meet, in the overlapping mode. -/
theorem not_find_ascending : ¬ ∀ (icu : Icu) (I : IndexData) (plan : Planner) (e : Bytes) (o : PatternOptions) (p : Pattern)
    (opt : SearchOptions) (ms : List Match), Built I → Pattern.compile icu e o = .ok p → find icu I plan p opt = .ok ms →
      ms.Pairwise Match.Before := by
  intro hall
  obtain ⟨I, hI, h⟩ := returns_iff.1 (show returns (fromDocuments blankLine smallChunks) (fun I =>
    returns (Pattern.compile asciiIcu [] { kind := .fixed, caseMode := .insensitive }) (fun p =>
      returns (find asciiIcu I (fun _ _ => none) p { overlapping := true })
        (fun ms => decide (ms.drop 64 = [literalMatch 0 0 64, literalMatch 0 0 64, literalMatch 0 0 65])))) = true
    by decide +kernel)
  obtain ⟨p, hp, h⟩ := returns_iff.1 h
  obtain ⟨ms, hms, h⟩ := returns_iff.1 h
  have hasc := (hall asciiIcu I (fun _ _ => none) _ _ p _ ms (fromDocuments_built hI).1 hp hms).sublist (List.drop_sublist 64 ms)
  rw [of_decide_eq_true h] at hasc
  rcases List.rel_of_pairwise_cons hasc List.mem_cons_self with hfile | ⟨-, hstart⟩
  · exact Nat.lt_irrefl _ hfile
  · exact Nat.lt_irrefl _ hstart

end

end Pergrep
