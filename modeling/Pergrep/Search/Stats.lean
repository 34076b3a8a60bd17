import Pergrep.Lib.Sweep
import Pergrep.Search.Candidates
/-!
# Stats — the bytes a search accounts for

`StatsRecorder::touch` notes each range of a file that is read, and `finish` merges the ranges of each file in one pass over
them.  The counters are 64 bits wide: what they hold is the number of bytes touched, with repetition and without, less the
multiples of 2^64 (`finish_bytes`).
-/
namespace Pergrep

def addU64 (a b : Nat) : Nat := (a + b) % 2 ^ 64

/-- The fields of `SearchStats` that `touch` and `finish` write. -/
structure SearchStats where
  physicallyTouchedBytes : Nat := 0
  verifiedBytes : Nat := 0
  logicalUniqueBytes : Nat := 0
  candidateFiles : Nat := 0
  deriving DecidableEq, Repr

/-- A call of `touch`. -/
structure Touch where
  fileId : Nat
  begin : Nat
  stop : Nat
  deriving DecidableEq, Repr

def Touch.range (t : Touch) : Nat × Nat := (t.begin, t.stop)

structure StatsRecorder where
  stats : Option SearchStats
  index : IndexData
  scope : List Nat
  touched : List (List (Nat × Nat))
  candidateFileIds : List Nat := []

/-- The constructor: a list of ranges for each file, when there are stats. -/
def StatsRecorder.create (stats : Option SearchStats) (index : IndexData) (scope : List Nat) : StatsRecorder :=
  { stats := stats, index := index, scope := scope
    touched := if stats.isSome then List.replicate index.infos.length [] else [] }

def StatsRecorder.touch (rec : StatsRecorder) (t : Touch) : StatsRecorder :=
  match rec.stats with
  | none => rec
  | some s =>
    if !allows rec.index rec.scope t.fileId || decide (t.stop ≤ t.begin) || decide (rec.touched.length ≤ t.fileId) then rec
    else
      { rec with
        stats := some { s with
          physicallyTouchedBytes := addU64 s.physicallyTouchedBytes (t.stop - t.begin)
          verifiedBytes := addU64 s.verifiedBytes (t.stop - t.begin) }
        touched := rec.touched.modify t.fileId (· ++ [t.range]) }

def rangeLe (x y : Nat × Nat) : Prop := x.1 < y.1 ∨ (x.1 = y.1 ∧ x.2 ≤ y.2)

instance : DecidableRel rangeLe := fun x y => inferInstanceAs (Decidable (x.1 < y.1 ∨ (x.1 = y.1 ∧ x.2 ≤ y.2)))

/-- The loop of `finish` over the ranges of a file, with one open. -/
def finishRanges (logical : Nat) : List (Nat × Nat) → Nat → Nat → Nat
  | [], begin, stop => addU64 logical (stop - begin)
  | x :: xs, begin, stop =>
    if stop < x.1 then finishRanges (addU64 logical (stop - begin)) xs x.1 x.2
    else if stop < x.2 then finishRanges logical xs begin x.2
    else finishRanges logical xs begin stop

def finishFile (logical : Nat) (ranges : List (Nat × Nat)) : Nat :=
  match ranges.insertionSort rangeLe with
  | [] => logical
  | x :: xs => finishRanges logical xs x.1 x.2

def StatsRecorder.finish (rec : StatsRecorder) : StatsRecorder :=
  { rec with stats := rec.stats.map (fun s => { s with
      logicalUniqueBytes := rec.touched.foldl finishFile s.logicalUniqueBytes
      candidateFiles := rec.candidateFileIds.dedup.length }) }

/-! ## What is accounted for -/

/-- The calls that note a range: it is not empty, and of a file in scope. -/
def recorded (I : IndexData) (scope : List Nat) (ts : List Touch) : List Touch :=
  ts.filter (fun t => allows I scope t.fileId && decide (t.begin < t.stop) && decide (t.fileId < I.infos.length))

/-- The bytes of the files in some range, each as its file and its offset. -/
def uniqueBytes (ts : List Touch) : Finset (Nat × Nat) :=
  ts.toFinset.biUnion (fun t => {t.fileId} ×ˢ Finset.Ico t.begin t.stop)

def touchedBytes (ts : List Touch) : Nat := (ts.map (fun t => t.stop - t.begin)).sum

def fileRanges (ts : List Touch) (fid : Nat) : List (Nat × Nat) :=
  (ts.filter (fun t => t.fileId == fid)).map Touch.range

theorem mem_uniqueBytes {ts : List Touch} {p : Nat × Nat} :
    p ∈ uniqueBytes ts ↔ ∃ t ∈ ts, p.1 = t.fileId ∧ t.begin ≤ p.2 ∧ p.2 < t.stop := by
  rw [uniqueBytes, Finset.mem_biUnion]
  constructor
  · rintro ⟨t, ht, hp⟩
    rw [Finset.mem_product, Finset.mem_singleton, Finset.mem_Ico] at hp
    exact ⟨t, List.mem_toFinset.1 ht, hp⟩
  · rintro ⟨t, ht, hp⟩
    refine ⟨t, List.mem_toFinset.2 ht, ?_⟩
    rw [Finset.mem_product, Finset.mem_singleton, Finset.mem_Ico]
    exact hp

theorem mem_union_fileRanges {ts : List Touch} {fid o : Nat} :
    o ∈ Sweep.union (fileRanges ts fid) ↔ (fid, o) ∈ uniqueBytes ts := by
  rw [Sweep.mem_union, mem_uniqueBytes]
  constructor
  · rintro ⟨x, hx, ho⟩
    obtain ⟨t, ht, rfl⟩ := List.mem_map.1 hx
    obtain ⟨ht, hfid⟩ := List.mem_filter.1 ht
    exact ⟨t, ht, (eq_of_beq hfid).symm, ho⟩
  · rintro ⟨t, ht, hfid, ho⟩
    exact ⟨t.range, List.mem_map.2 ⟨t, List.mem_filter.2 ⟨ht, by rw [← hfid]; exact beq_self_eq_true _⟩, rfl⟩, ho⟩

theorem card_uniqueBytes {ts : List Touch} {n : Nat} (hn : ∀ t ∈ ts, t.fileId < n) :
    (uniqueBytes ts).card = ((List.range n).map (fun fid => (Sweep.union (fileRanges ts fid)).card)).sum := by
  have hmaps : Set.MapsTo Prod.fst (↑(uniqueBytes ts) : Set (Nat × Nat)) (↑(Finset.range n) : Set Nat) := by
    intro p hp
    obtain ⟨t, ht, hfid, -⟩ := mem_uniqueBytes.1 hp
    rw [Finset.coe_range, Set.mem_Iio, hfid]
    exact hn t ht
  have hfiber : ∀ fid, ((uniqueBytes ts).filter (fun p => p.1 = fid)).card = (Sweep.union (fileRanges ts fid)).card := by
    intro fid
    have himage : (uniqueBytes ts).filter (fun p => p.1 = fid) =
        (Sweep.union (fileRanges ts fid)).map ⟨fun o => (fid, o), fun _ _ h => (Prod.mk.inj h).2⟩ := by
      ext ⟨f, o⟩
      rw [Finset.mem_filter, Finset.mem_map]
      constructor
      · rintro ⟨hp, rfl⟩
        exact ⟨o, mem_union_fileRanges.2 hp, rfl⟩
      · rintro ⟨o', ho, h⟩
        cases h
        exact ⟨mem_union_fileRanges.1 ho, rfl⟩
    rw [himage, Finset.card_map]
  rw [Finset.card_eq_sum_card_fiberwise hmaps, Finset.sum_congr rfl (fun fid _ => hfiber fid)]
  rfl

/-! ## The pass of `finish` -/

theorem addU64_assoc (a b c : Nat) : addU64 (addU64 a b) c = addU64 a (b + c) := by
  unfold addU64
  omega

theorem finishRanges_eq : ∀ (xs : List (Nat × Nat)) (logical b e : Nat),
    finishRanges logical xs b e = addU64 logical (Sweep.sweep xs b e)
  | [], _, _, _ => rfl
  | x :: xs, logical, b, e => by
    rw [finishRanges, Sweep.sweep]
    split
    · rw [finishRanges_eq xs, addU64_assoc]
    split
    · exact finishRanges_eq xs logical b x.2
    · exact finishRanges_eq xs logical b e

theorem addU64_lt (a b : Nat) : addU64 a b < 2 ^ 64 := Nat.mod_lt _ (by decide)

theorem rangeLe_pairwise (ranges : List (Nat × Nat)) :
    (ranges.insertionSort rangeLe).Pairwise (fun x y => x.1 ≤ y.1) := by
  have : Std.Total rangeLe := ⟨fun x y => by unfold rangeLe; omega⟩
  have : IsTrans (Nat × Nat) rangeLe := ⟨fun x y z hxy hyz => by unfold rangeLe at *; omega⟩
  refine (List.pairwise_insertionSort rangeLe ranges).imp (fun {x y} h => ?_)
  unfold rangeLe at h
  omega

theorem finishFile_eq {logical : Nat} (h : logical < 2 ^ 64) (ranges : List (Nat × Nat)) :
    finishFile logical ranges = addU64 logical (Sweep.union ranges).card := by
  have hsort := rangeLe_pairwise ranges
  have hperm := Sweep.union_perm (List.perm_insertionSort rangeLe ranges)
  rw [finishFile, ← hperm]
  cases hr : ranges.insertionSort rangeLe with
  | nil =>
    change logical = (logical + 0) % 2 ^ 64
    rw [Nat.add_zero, Nat.mod_eq_of_lt h]
  | cons x xs =>
    rw [hr] at hsort
    obtain ⟨hx, hxs⟩ := List.pairwise_cons.1 hsort
    change finishRanges logical xs x.1 x.2 = _
    rw [finishRanges_eq, Sweep.sweep_eq hxs hx, ← Sweep.union_cons]

theorem foldl_finishFile (touched : List (List (Nat × Nat))) : ∀ {logical : Nat}, logical < 2 ^ 64 →
    touched.foldl finishFile logical =
      addU64 logical (touched.map (fun ranges => (Sweep.union ranges).card)).sum := by
  induction touched with
  | nil =>
    intro logical h
    change logical = (logical + 0) % 2 ^ 64
    rw [Nat.add_zero, Nat.mod_eq_of_lt h]
  | cons ranges touched ih =>
    intro logical h
    rw [List.foldl_cons, finishFile_eq h, ih (addU64_lt _ _), addU64_assoc, List.map_cons, List.sum_cons]

/-! ## The calls of `touch` -/

/-- What the recorder holds after the calls `ts`, when the counters started at 0. -/
structure Recorded (I : IndexData) (scope : List Nat) (ts : List Touch) (rec : StatsRecorder) : Prop where
  index_eq : rec.index = I
  scope_eq : rec.scope = scope
  touched_eq : rec.touched = (List.range I.infos.length).map (fileRanges (recorded I scope ts))
  stats_eq : ∃ s, rec.stats = some s ∧ s.physicallyTouchedBytes = touchedBytes (recorded I scope ts) % 2 ^ 64 ∧
    s.logicalUniqueBytes = 0

theorem recorded_append (I : IndexData) (scope : List Nat) (ts us : List Touch) :
    recorded I scope (ts ++ us) = recorded I scope ts ++ recorded I scope us := List.filter_append ..

theorem touchedBytes_append (ts us : List Touch) : touchedBytes (ts ++ us) = touchedBytes ts + touchedBytes us := by
  rw [touchedBytes, touchedBytes, touchedBytes, List.map_append, List.sum_append]

theorem fileRanges_snoc (ts : List Touch) (t : Touch) (fid : Nat) :
    fileRanges (ts ++ [t]) fid = if t.fileId = fid then fileRanges ts fid ++ [t.range] else fileRanges ts fid := by
  unfold fileRanges
  rw [List.filter_append, List.map_append]
  split
  · rename_i h
    rw [List.filter_cons_of_pos (by rw [h]; exact beq_self_eq_true _)]
    rfl
  · rename_i h
    rw [List.filter_cons_of_neg (by simpa using h)]
    exact List.append_nil _

theorem Recorded.create (I : IndexData) (scope : List Nat) :
    Recorded I scope [] (StatsRecorder.create (some {}) I scope) where
  index_eq := rfl
  scope_eq := rfl
  touched_eq := by
    change List.replicate I.infos.length [] = (List.range I.infos.length).map (fun _ => [])
    rw [List.map_const', List.length_range]
  stats_eq := ⟨{}, rfl, rfl, rfl⟩

/-- **One call** notes its range, or leaves everything as it is. -/
theorem Recorded.touch {I : IndexData} {scope : List Nat} {ts : List Touch} {rec : StatsRecorder}
    (h : Recorded I scope ts rec) (t : Touch) : Recorded I scope (ts ++ [t]) (rec.touch t) := by
  obtain ⟨s, hs, hphysical, hlogical⟩ := h.stats_eq
  have hlength : rec.touched.length = I.infos.length := by
    rw [h.touched_eq, List.length_map, List.length_range]
  have hguard : (!allows rec.index rec.scope t.fileId || decide (t.stop ≤ t.begin) ||
      decide (rec.touched.length ≤ t.fileId)) =
      !(allows I scope t.fileId && decide (t.begin < t.stop) && decide (t.fileId < I.infos.length)) := by
    rw [h.index_eq, h.scope_eq, hlength, Bool.not_and, Bool.not_and, ← decide_not, ← decide_not]
    simp only [Nat.not_lt]
  unfold StatsRecorder.touch
  rw [hs]
  simp only [hguard]
  cases hkeep : allows I scope t.fileId && decide (t.begin < t.stop) && decide (t.fileId < I.infos.length) with
  | false =>
    have hrec : recorded I scope (ts ++ [t]) = recorded I scope ts := by
      rw [recorded_append, recorded, recorded, List.filter_cons_of_neg (by rw [hkeep]; decide)]
      exact List.append_nil _
    rw [Bool.not_false, if_pos rfl]
    exact ⟨h.index_eq, h.scope_eq, by rw [hrec]; exact h.touched_eq, s, hs, by rw [hrec]; exact hphysical, hlogical⟩
  | true =>
    have hrec : recorded I scope (ts ++ [t]) = recorded I scope ts ++ [t] := by
      rw [recorded_append]
      congr 1
      exact List.filter_cons_of_pos (l := []) (a := t) hkeep
    rw [Bool.not_true, if_neg Bool.false_ne_true]
    refine ⟨h.index_eq, h.scope_eq, ?_, _, rfl, ?_, hlogical⟩
    · change rec.touched.modify t.fileId (· ++ [t.range]) = _
      rw [h.touched_eq, hrec]
      refine List.ext_getElem? (fun fid => ?_)
      rw [List.getElem?_modify, List.getElem?_map, List.getElem?_map]
      by_cases hfid : fid < I.infos.length
      · rw [List.getElem?_range hfid, Option.map_some, Option.map_some, fileRanges_snoc]
        split <;> rfl
      · rw [List.getElem?_eq_none (by rw [List.length_range]; omega)]
        split <;> rfl
    · change addU64 s.physicallyTouchedBytes (t.stop - t.begin) = _
      rw [hphysical, hrec, touchedBytes_append]
      unfold addU64
      rw [Nat.mod_add_mod]
      rfl

theorem Recorded.run {I : IndexData} {scope : List Nat} (us : List Touch) : ∀ {ts : List Touch} {rec : StatsRecorder},
    Recorded I scope ts rec → Recorded I scope (ts ++ us) (us.foldl StatsRecorder.touch rec) := by
  induction us with
  | nil =>
    intro ts rec h
    rw [List.append_nil]
    exact h
  | cons u us ih =>
    intro ts rec h
    have := ih (h.touch u)
    rwa [List.append_assoc] at this

/-! ## At the end -/

/-- **The counters after `finish`**, which are 64 bits wide. -/
theorem finish_bytes (I : IndexData) (scope : List Nat) (ts : List Touch) :
    ∃ s, (ts.foldl StatsRecorder.touch (StatsRecorder.create (some {}) I scope)).finish.stats = some s ∧
      s.physicallyTouchedBytes = touchedBytes (recorded I scope ts) % 2 ^ 64 ∧
      s.logicalUniqueBytes = (uniqueBytes (recorded I scope ts)).card % 2 ^ 64 := by
  have hrun := Recorded.run ts (Recorded.create I scope)
  rw [List.nil_append] at hrun
  obtain ⟨s, hs, hphysical, hlogical⟩ := hrun.stats_eq
  have hfiles : ∀ t ∈ recorded I scope ts, t.fileId < I.infos.length := by
    intro t ht
    have hkeep := (List.mem_filter.1 ht).2
    rw [Bool.and_eq_true, decide_eq_true_eq] at hkeep
    exact hkeep.2
  rw [StatsRecorder.finish]
  dsimp only
  rw [hs, Option.map_some]
  refine ⟨_, rfl, hphysical, ?_⟩
  dsimp only
  rw [hlogical, hrun.touched_eq, foldl_finishFile _ (by decide), List.map_map, card_uniqueBytes hfiles, addU64, Nat.zero_add]
  rfl

theorem card_uniqueBytes_le (ts : List Touch) : (uniqueBytes ts).card ≤ touchedBytes ts := by
  induction ts with
  | nil => exact Nat.le_of_eq (Finset.card_eq_zero.2 rfl)
  | cons t ts ih =>
    have hcons : uniqueBytes (t :: ts) = ({t.fileId} ×ˢ Finset.Ico t.begin t.stop) ∪ uniqueBytes ts := by
      rw [uniqueBytes, List.toFinset_cons, Finset.biUnion_insert]
      rfl
    have hsum : touchedBytes (t :: ts) = (t.stop - t.begin) + touchedBytes ts := rfl
    have hcard : (({t.fileId} : Finset Nat) ×ˢ Finset.Ico t.begin t.stop).card = t.stop - t.begin := by
      rw [Finset.card_product, Finset.card_singleton, Nat.one_mul, Nat.card_Ico]
    rw [hcons, hsum, ← hcard]
    exact (Finset.card_union_le _ _).trans (Nat.add_le_add_left ih _)

/-- **What a search accounts for.**  The counters hold the number of bytes touched, once each and with repetition, up to
multiples of 2^64; when the lengths together stay below 2^64 they are these numbers, and the first is no more than the
second. -/
theorem touch_finish_bytes (I : IndexData) (scope : List Nat) (ts : List Touch) :
    ∃ s, (ts.foldl StatsRecorder.touch (StatsRecorder.create (some {}) I scope)).finish.stats = some s ∧
      s.physicallyTouchedBytes = touchedBytes (recorded I scope ts) % 2 ^ 64 ∧
      s.logicalUniqueBytes = (uniqueBytes (recorded I scope ts)).card % 2 ^ 64 ∧
      (touchedBytes (recorded I scope ts) < 2 ^ 64 →
        s.physicallyTouchedBytes = touchedBytes (recorded I scope ts) ∧
        s.logicalUniqueBytes = (uniqueBytes (recorded I scope ts)).card ∧
        s.logicalUniqueBytes ≤ s.physicallyTouchedBytes) := by
  obtain ⟨s, hs, hphysical, hlogical⟩ := finish_bytes I scope ts
  refine ⟨s, hs, hphysical, hlogical, fun hsum => ?_⟩
  have hle := card_uniqueBytes_le (recorded I scope ts)
  rw [Nat.mod_eq_of_lt hsum] at hphysical
  rw [Nat.mod_eq_of_lt (by omega)] at hlogical
  exact ⟨hphysical, hlogical, by omega⟩

/-- Two calls that note the same 2^64 - 1 bytes wrap the first counter, and not the second. -/
theorem not_touch_finish_bytes :
    ¬ ∀ (I : IndexData) (scope : List Nat) (ts : List Touch) (s : SearchStats),
      (ts.foldl StatsRecorder.touch (StatsRecorder.create (some {}) I scope)).finish.stats = some s →
      s.logicalUniqueBytes = (uniqueBytes (recorded I scope ts)).card ∧
      s.logicalUniqueBytes ≤ s.physicallyTouchedBytes ∧
      s.physicallyTouchedBytes = touchedBytes (recorded I scope ts) := by
  intro h
  have hle := (h { opt := {}, infos := [{ path := [0x61], size := 2 ^ 64 - 1, binary := false }] } []
    [⟨0, 0, 2 ^ 64 - 1⟩, ⟨0, 0, 2 ^ 64 - 1⟩] _ rfl).2.1
  revert hle
  decide +kernel

end Pergrep
