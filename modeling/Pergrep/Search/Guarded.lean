import Pergrep.Search.Scope
/-!
# Guarded — what the operators of the guarded dispatch show

Where the guard holds, each operator scans windows of the files, one after another: whole files, chunks or blocks
(`windowsOf`).  It finds the occurrences that start in the core of a window and end in what the window shows (`shown`), and
takes of those of a file the leftmost that do not overlap (`findFixed_shown`).  Whole files show everything a chunk shows,
and a chunk everything its blocks show (`shown_blocks`); so an operator gives what the blocks give exactly when the blocks
show each of its matches (`shownMatches_scope_iff`).  In a built index they do (`Built.blocks_show`), in a loaded one whose
chunks are cut short they need not.
-/
namespace Pergrep

open Substr Emit

/-! ## Windows -/

/-- A window of a file: its core `[lo, hi)`, and the end of what it shows. -/
structure Window where
  fid : Nat
  lo : Nat
  hi : Nat
  ext : Nat
  deriving DecidableEq, Repr

def Chunk.window (z : Chunk) : Window := { fid := z.fileId, lo := z.coreBegin, hi := z.coreEnd, ext := z.extEnd }

def Chunk.block (posBlock : Nat) (z : Chunk) (bi : Nat) : Window :=
  { fid := z.fileId
    lo := z.coreBegin + bi * posBlock
    hi := z.coreBegin + min ((bi + 1) * posBlock) (z.coreEnd - z.coreBegin)
    ext := z.coreBegin + min (z.extEnd - z.coreBegin) (bi * posBlock + posBlock + positionalOverlap) }

def windowsOf (I : IndexData) (q : Bytes) : FixedPhysicalOperator → List Window
  | .wholeFile => (candidateFiles I (chunkCandidates I [] q)).map (fun fid =>
      { fid := fid, lo := 0, hi := (I.data fid).length, ext := (I.data fid).length })
  | .chunk => (chunkCandidates I [] q).filterMap (fun ci => (I.chunks[ci]?).map Chunk.window)
  | .positionalBlock => (fixedCandidateBlocks I [] q).filterMap (fun b => (I.chunks[b.1]?).map (fun z => z.block I.posBlock b.2))

/-- Whether a window shows what stands in `[x, x + len)` of a file and starts in its core. -/
def Window.shows (fid len x : Nat) (w : Window) : Bool :=
  decide (w.fid = fid ∧ w.lo ≤ x ∧ x < w.hi ∧ x + len ≤ w.ext)

theorem Window.shows_iff {fid len x : Nat} {w : Window} :
    w.shows fid len x = true ↔ w.fid = fid ∧ w.lo ≤ x ∧ x < w.hi ∧ x + len ≤ w.ext := decide_eq_true_iff

def shownBy (I : IndexData) (q : Bytes) (ws : List Window) (fid : Nat) : List Nat :=
  (occs (I.data fid) q 0 (I.data fid).length).filter (fun x => ws.any (Window.shows fid q.length x))

def shown (I : IndexData) (q : Bytes) (op : FixedPhysicalOperator) (fid : Nat) : List Nat := shownBy I q (windowsOf I q op) fid

def shownMatches (I : IndexData) (q : Bytes) (op : FixedPhysicalOperator) : List Match :=
  (List.range I.loaded.length).flatMap (fun fid => (apart q.length 0 (shown I q op fid)).map (literalMatch fid q.length))

theorem mem_shownBy {I : IndexData} {q : Bytes} (hq : q ≠ []) {ws : List Window} {fid x : Nat} :
    x ∈ shownBy I q ws fid ↔ occursAt (I.data fid) q x = true ∧ ∃ w ∈ ws, w.shows fid q.length x = true := by
  rw [shownBy, List.mem_filter, mem_occs, List.any_eq_true]
  constructor
  · exact fun ⟨⟨_, _, ho⟩, h⟩ => ⟨ho, h⟩
  · rintro ⟨ho, h⟩
    have hle := occursAt_le ho
    have hpos := List.length_pos_iff.2 hq
    exact ⟨⟨Nat.zero_le x, by omega, ho⟩, h⟩

theorem shownBy_sorted (I : IndexData) (q : Bytes) (ws : List Window) (fid : Nat) : (shownBy I q ws fid).Pairwise (· < ·) :=
  (occs_sorted _ _ _ _).filter _

/-! ## Windows one after another -/

/-- Windows in the order of their files, and in a file one after another. -/
def WindowsInOrder (ws : List Window) : Prop := ws.Pairwise (fun v w => v.fid < w.fid ∨ (v.fid = w.fid ∧ v.hi ≤ w.lo))

def Window.occs (I : IndexData) (q : Bytes) (w : Window) : List Nat :=
  (Substr.occs (I.data w.fid) q w.lo w.hi).filter (fun x => x + q.length ≤ w.ext)

/-- What is taken of a window, from the offset its file has come to. -/
def Window.take (I : IndexData) (q : Bytes) (w : Window) (n : Nat) : List Match × Nat :=
  ((apart q.length n (w.occs I q)).map (literalMatch w.fid q.length), apartEnd q.length n (w.occs I q))

theorem emits_take (I : IndexData) (q : Bytes) {fid : Nat} : ∀ {ws : List Window}, (∀ w ∈ ws, w.fid = fid) → ∀ n,
    (emits (Window.take I q) ws n).1 =
      (apart q.length n (ws.flatMap (Window.occs I q))).map (literalMatch fid q.length)
  | [], _, _ => rfl
  | w :: ws, h, n => by
    have ih := emits_take I q (fun v hv => h v (List.mem_cons_of_mem w hv)) (apartEnd q.length n (w.occs I q))
    rw [emits, List.flatMap_cons, apart_append, List.map_append, ← ih, ← h w List.mem_cons_self]
    rfl

theorem flatMap_occs_shown {I : IndexData} {q : Bytes} (hq : q ≠ []) {ws : List Window} (hws : WindowsInOrder ws) (fid : Nat) :
    (ws.filter (fun w => w.fid = fid)).flatMap (Window.occs I q) = shownBy I q ws fid := by
  have hfid : ∀ w ∈ ws.filter (fun w => w.fid = fid), w.fid = fid := fun w hw => by simpa using (List.mem_filter.1 hw).2
  refine sorted_ext ?_ (shownBy_sorted I q ws fid) (fun x => ?_)
  · refine List.pairwise_flatMap.2 ⟨fun w _ => (occs_sorted _ _ _ _).filter _, ?_⟩
    refine (hws.sublist List.filter_sublist).imp_of_mem (fun {v w} hv hw hvw x hx y hy => ?_)
    have hx := (mem_occs.1 (List.mem_of_mem_filter hx)).2.1
    have hy := (mem_occs.1 (List.mem_of_mem_filter hy)).1
    have hv := hfid v hv
    have hw := hfid w hw
    omega
  · rw [mem_shownBy hq, List.mem_flatMap]
    simp only [Window.occs, Window.shows_iff, List.mem_filter, mem_occs, decide_eq_true_eq]
    constructor
    · rintro ⟨w, ⟨hw, rfl⟩, ⟨h1, h2, ho⟩, h3⟩
      exact ⟨ho, w, hw, rfl, h1, h2, h3⟩
    · rintro ⟨ho, w, hw, rfl, h1, h2, h3⟩
      exact ⟨w, ⟨hw, rfl⟩, ⟨h1, h2, ho⟩, h3⟩

/-- **A run over windows in order** takes of each file the leftmost of what they show. -/
theorem emits_windows {I : IndexData} {q : Bytes} (hq : q ≠ []) {ws : List Window} (hws : WindowsInOrder ws)
    (hfile : ∀ w ∈ ws, w.fid < I.loaded.length) :
    (emits (atKey Window.fid (Window.take I q)) ws (fun _ => 0)).1 =
      (List.range I.loaded.length).flatMap (fun fid => (apart q.length 0 (shownBy I q ws fid)).map (literalMatch fid q.length)) := by
  have hsorted : ws.Pairwise (fun v w => v.fid ≤ w.fid) := hws.imp (fun h => by omega)
  rw [emits_sorted hsorted hfile]
  refine List.flatMap_congr (fun fid _ => ?_)
  rw [← flatMap_occs_shown hq hws fid]
  exact emits_take I q (fun w hw => by simpa using (List.mem_filter.1 hw).2) 0

/-! ## The windows of the operators -/

section
variable {I : IndexData} (hI : Laid I)
include hI

theorem Laid.chunk_getElem {ci : Nat} {z : Chunk} (hz : I.chunks[ci]? = some z) :
    z.fileId < I.loaded.length ∧ z.coreBegin ≤ z.coreEnd ∧ z.coreEnd ≤ z.extEnd ∧ z.extEnd ≤ (I.data z.fileId).length :=
  hI.chunk z (List.mem_of_getElem? hz)

theorem Laid.chunks_apart {ci cj : Nat} {y z : Chunk} (hy : I.chunks[ci]? = some y) (hz : I.chunks[cj]? = some z) (h : ci < cj) :
    y.fileId < z.fileId ∨ (y.fileId = z.fileId ∧ y.coreEnd ≤ z.coreBegin) := by
  obtain ⟨hi, rfl⟩ := List.getElem?_eq_some_iff.1 hy
  obtain ⟨hj, rfl⟩ := List.getElem?_eq_some_iff.1 hz
  exact List.pairwise_iff_getElem.1 hI.cores ci cj hi hj h

omit hI in
theorem mem_windowsOf_chunk {q : Bytes} {w : Window} : w ∈ windowsOf I q .chunk ↔
    ∃ ci ∈ chunkCandidates I [] q, ∃ z, I.chunks[ci]? = some z ∧ z.window = w := by
  simp only [windowsOf, List.mem_filterMap, Option.map_eq_some_iff]

omit hI in
theorem mem_windowsOf_block {q : Bytes} {w : Window} : w ∈ windowsOf I q .positionalBlock ↔
    ∃ b ∈ fixedCandidateBlocks I [] q, ∃ z, I.chunks[b.1]? = some z ∧ z.block I.posBlock b.2 = w := by
  simp only [windowsOf, List.mem_filterMap, Option.map_eq_some_iff]

theorem Laid.blocks_sorted {q : Bytes} (hq : q ≠ []) :
    (fixedCandidateBlocks I [] q).Pairwise (fun a b => a.1 < b.1 ∨ (a.1 = b.1 ∧ a.2 < b.2)) ∧
      ∀ b ∈ fixedCandidateBlocks I [] q, b.1 ∈ chunkCandidates I [] q := by
  have hempty : q.isEmpty = false := by simpa using hq
  have hblocks : ∀ hs ci, ∃ L : List Nat, chunkBlocks I hs ci = L.map (fun bi => (ci, bi)) ∧ L.Pairwise (· < ·) := by
    intro hs ci
    cases hd : I.posDesc[ci]? with
    | none => exact ⟨[], by rw [chunkBlocks, hd]; rfl, List.Pairwise.nil⟩
    | some d => exact ⟨_, chunkBlocks_eq I hs hd, List.pairwise_lt_range.filter _⟩
  rw [fixedCandidateBlocks, hempty, if_neg Bool.false_ne_true]
  constructor
  · refine List.pairwise_flatMap.2 ⟨fun ci _ => ?_, ?_⟩
    · obtain ⟨L, hL, hsorted⟩ := hblocks (plannedHashes I q) ci
      rw [hL, List.pairwise_map]
      exact hsorted.imp (fun h => Or.inr ⟨rfl, h⟩)
    · refine (hI.chunkCandidates_sorted [] q).imp (fun {ci cj} h a ha b hb => Or.inl ?_)
      obtain ⟨L, hL, -⟩ := hblocks (plannedHashes I q) ci
      obtain ⟨M, hM, -⟩ := hblocks (plannedHashes I q) cj
      rw [hL] at ha
      rw [hM] at hb
      obtain ⟨_, -, rfl⟩ := List.mem_map.1 ha
      obtain ⟨_, -, rfl⟩ := List.mem_map.1 hb
      exact h
  · intro b hb
    obtain ⟨ci, hci, hb⟩ := List.mem_flatMap.1 hb
    obtain ⟨L, hL, -⟩ := hblocks (plannedHashes I q) ci
    rw [hL] at hb
    obtain ⟨_, -, rfl⟩ := List.mem_map.1 hb
    exact hci

/-- **Every operator scans its windows in order.** -/
theorem Laid.windowsOf_inOrder {q : Bytes} (hq : q ≠ []) : ∀ op, WindowsInOrder (windowsOf I q op)
  | .wholeFile => by
    rw [windowsOf, WindowsInOrder, List.pairwise_map]
    exact (hI.candidateFiles_spec (hI.chunkCandidates_sorted [] q)).1.imp Or.inl
  | .chunk => by
    rw [windowsOf, WindowsInOrder, List.pairwise_filterMap]
    refine (hI.chunkCandidates_sorted [] q).imp (fun h v hv w hw => ?_)
    obtain ⟨y, hy, rfl⟩ := Option.map_eq_some_iff.1 hv
    obtain ⟨z, hz, rfl⟩ := Option.map_eq_some_iff.1 hw
    exact hI.chunks_apart hy hz h
  | .positionalBlock => by
    rw [windowsOf, WindowsInOrder, List.pairwise_filterMap]
    refine (hI.blocks_sorted hq).1.imp (fun {a b} h v hv w hw => ?_)
    obtain ⟨y, hy, rfl⟩ := Option.map_eq_some_iff.1 hv
    obtain ⟨z, hz, rfl⟩ := Option.map_eq_some_iff.1 hw
    have hle := (hI.chunk_getElem hy).2.1
    dsimp only [Chunk.block]
    rcases h with h | ⟨h, hb⟩
    · have := hI.chunks_apart hy hz h
      omega
    · -- two blocks of one chunk
      rw [h] at hy
      cases hy.symm.trans hz
      have := Nat.mul_le_mul_right I.posBlock (show a.2 + 1 ≤ b.2 from hb)
      omega

theorem Laid.windowsOf_file {q : Bytes} : ∀ op, ∀ w ∈ windowsOf I q op, w.fid < I.loaded.length
  | .wholeFile, w, hw => by
    obtain ⟨fid, hfid, rfl⟩ := List.mem_map.1 hw
    obtain ⟨ci, -, z, hz, rfl⟩ := ((hI.candidateFiles_spec (hI.chunkCandidates_sorted [] q)).2 fid).1 hfid
    exact (hI.chunk_getElem hz).1
  | .chunk, w, hw => by
    obtain ⟨ci, -, z, hz, rfl⟩ := mem_windowsOf_chunk.1 hw
    exact (hI.chunk_getElem hz).1
  | .positionalBlock, w, hw => by
    obtain ⟨b, -, z, hz, rfl⟩ := mem_windowsOf_block.1 hw
    exact (hI.chunk_getElem hz).1

/-- **What a candidate block shows every operator shows.** -/
theorem Laid.shown_blocks {q : Bytes} (hq : q ≠ []) (op : FixedPhysicalOperator) {fid x : Nat}
    (hx : x ∈ shown I q .positionalBlock fid) : x ∈ shown I q op fid := by
  obtain ⟨ho, w, hw, hshows⟩ := (mem_shownBy hq).1 hx
  obtain ⟨b, hb, z, hz, rfl⟩ := mem_windowsOf_block.1 hw
  have hb := (hI.blocks_sorted hq).2 b hb
  obtain ⟨hfid, h1, h2, h3⟩ := Window.shows_iff.1 hshows
  have hlast := occursAt_le ho
  have hpos := List.length_pos_iff.2 hq
  dsimp only [Chunk.block] at hfid h1 h2 h3
  subst hfid
  refine (mem_shownBy hq).2 ⟨ho, ?_⟩
  cases op with
  | positionalBlock => exact ⟨_, hw, hshows⟩
  | chunk =>
    exact ⟨z.window, mem_windowsOf_chunk.2 ⟨b.1, hb, z, hz, rfl⟩, Window.shows_iff.2
      ⟨rfl, by dsimp only [Chunk.window]; omega, by dsimp only [Chunk.window]; omega, by dsimp only [Chunk.window]; omega⟩⟩
  | wholeFile =>
    have hfile := ((hI.candidateFiles_spec (hI.chunkCandidates_sorted [] q)).2 z.fileId).2 ⟨b.1, hb, z, hz, rfl⟩
    exact ⟨_, List.mem_map.2 ⟨z.fileId, hfile, rfl⟩, Window.shows_iff.2 ⟨rfl, Nat.zero_le x, by dsimp only; omega, hlast⟩⟩

end

/-! ## The branches -/

/-- What the guard asks for, as far as the scans depend on it. -/
structure Plain (I : IndexData) (p : Pattern) (opt : SearchOptions) : Prop where
  nonempty : p.expr ≠ []
  short : p.expr.length ≤ 64
  overlap : p.expr.length ≤ I.opt.chunkOverlap
  case_ : p.icase = false
  word : p.opt.word = false
  line : p.opt.line = false
  disjoint : opt.overlapping = false
  searched : ∀ fid, skipsBinary I opt fid = false
  unscoped : opt.eligibleFileIds = []

theorem plain_of_guard {I : IndexData} {p : Pattern} {opt : SearchOptions} (h : fixedGuardEligible I p opt = true) :
    Plain I p opt := by
  simp only [fixedGuardEligible, Bool.and_eq_true, decide_eq_true_eq, Bool.not_eq_true', List.isEmpty_iff] at h
  refine ⟨?_, by tauto, by tauto, ?_, by tauto, by tauto, by tauto, fun fid => ?_, by tauto⟩
  · rintro hq
    rw [hq] at h
    simp at h
  · rw [Pattern.icase, show p.opt.caseMode = .sensitive by tauto]
    rfl
  · rw [skipsBinary]
    cases hf : I.infos[fid]? with
    | none => exact Bool.and_false _
    | some f =>
      have hnone : I.infos.any FileInfo.binary = false := by tauto
      rw [Option.map_some, Option.getD_some, Bool.eq_false_iff.2 (List.any_eq_false.1 hnone f (List.mem_of_getElem? hf))]
      exact Bool.and_false _

section
variable {I : IndexData} (hI : Laid I) (icu : Icu) {p : Pattern} {opt : SearchOptions} (h : Plain I p opt)
include h

theorem Plain.scanWindow_pushes {w : Window} {m : Nat} (hm : m = w.hi - w.lo) (hlo : w.lo ≤ w.hi) {ok : Nat → Nat → Bool}
    (hok : ∀ x, ok x (x + p.expr.length) = true) (s : Nat → Nat) :
    Pushes (fun full out => scanWindow icu I p opt full w.fid w.lo (slice (I.data w.fid) w.lo w.ext) m false ok s out)
      (atKey Window.fid (Window.take I p.expr) w s).1 (atKey Window.fid (Window.take I p.expr) w s).2 := by
  have hrun := Pergrep.scanWindow_pushes icu I p opt h.nonempty w.fid w.lo (slice (I.data w.fid) w.lo w.ext) m ok hok s
  rw [windowOccs_slice_filter w.lo w.ext m h.nonempty, hm, show w.lo + (w.hi - w.lo) = w.hi by omega, h.disjoint] at hrun
  rw [hm]
  exact hrun

include hI

theorem Plain.findWholeFile_shown : ∃ s, Pushes (findWholeFile icu I p opt) (shownMatches I p.expr .wholeFile) s := by
  obtain ⟨s, hpushes⟩ := findWholeFile_pushes icu I p opt
  rw [h.unscoped] at hpushes
  obtain ⟨hsorted, hmem⟩ := hI.candidateFiles_spec (hI.chunkCandidates_sorted [] p.expr)
  refine ⟨s, ?_⟩
  have hfile : ∀ fid, wholeFileEmits icu I p opt fid = (apart p.expr.length 0
      (occs (I.data fid) p.expr 0 (I.data fid).length)).map (literalMatch fid p.expr.length) := by
    intro fid
    have hok : ∀ x, boundaryOk icu p.opt opt.recordSeparator (I.data fid) x (x + p.expr.length) = true := by
      intro x
      rw [boundaryOk, h.word, h.line]
      rfl
    rw [wholeFileEmits, h.searched, if_neg Bool.false_ne_true, wholeFileLoop icu I p opt h.nonempty h.case_ fid _ 0 (by omega),
      List.filter_eq_self.2 (fun x _ => hok x), h.disjoint]
    rfl
  have hshown : ∀ fid, shown I p.expr .wholeFile fid =
      if (candidateFiles I (chunkCandidates I [] p.expr)).contains fid then occs (I.data fid) p.expr 0 (I.data fid).length else [] := by
    intro fid
    have hany : ∀ x ∈ occs (I.data fid) p.expr 0 (I.data fid).length,
        (windowsOf I p.expr .wholeFile).any (Window.shows fid p.expr.length x) =
          (candidateFiles I (chunkCandidates I [] p.expr)).contains fid := by
      intro x hx
      have hx := (mem_occs.1 hx).2
      have hle := occursAt_le hx.2
      rw [Bool.eq_iff_iff, List.any_eq_true, List.contains_iff_mem]
      constructor
      · rintro ⟨w, hw, hshows⟩
        obtain ⟨g, hg, rfl⟩ := List.mem_map.1 hw
        obtain ⟨rfl, -⟩ := Window.shows_iff.1 hshows
        exact hg
      · exact fun hfid => ⟨_, List.mem_map.2 ⟨fid, hfid, rfl⟩, Window.shows_iff.2 ⟨rfl, Nat.zero_le x, hx.1, hle⟩⟩
    rw [shown, shownBy, List.filter_congr hany]
    split
    · rename_i hc
      rw [hc, List.filter_true]
    · rename_i hc
      rw [Bool.not_eq_true] at hc
      rw [hc, List.filter_false]
  have hlist : (candidateFiles I (chunkCandidates I [] p.expr)).flatMap (wholeFileEmits icu I p opt) =
      shownMatches I p.expr .wholeFile := by
    have hfiles : candidateFiles I (chunkCandidates I [] p.expr) =
        (List.range I.loaded.length).filter (fun fid => (candidateFiles I (chunkCandidates I [] p.expr)).contains fid) := by
      refine sorted_ext hsorted (List.pairwise_lt_range.filter _) (fun fid => ?_)
      rw [List.mem_filter, List.mem_range, List.contains_iff_mem]
      refine ⟨fun hfid => ⟨?_, hfid⟩, fun hfid => hfid.2⟩
      obtain ⟨ci, -, z, hz, rfl⟩ := (hmem fid).1 hfid
      exact (hI.chunk_getElem hz).1
    conv_lhs => rw [hfiles]
    rw [shownMatches]
    simp only [hshown]
    rw [← flatMap_filter_of_nil _ (fun fid => (candidateFiles I (chunkCandidates I [] p.expr)).contains fid)
      (List.range I.loaded.length)]
    · refine List.flatMap_congr (fun fid hfid => ?_)
      rw [hfile, if_pos (List.mem_filter.1 hfid).2]
    · intro fid _ hfid
      rw [hfid]
      rfl
  rwa [hlist] at hpushes

theorem Plain.each_shown {α : Type} {body : (List Match → Bool) → α → (Nat → Nat) → List Match → (Nat → Nat) × List Match × Bool}
    {as : List α} {f : α → Option Window} {op : FixedPhysicalOperator} (hws : windowsOf I p.expr op = as.filterMap f)
    (hbody : ∀ a ∈ as, ∀ s, ∃ w, f a = some w ∧ Pushes (fun full out => body full a s out)
      (atKey Window.fid (Window.take I p.expr) w s).1 (atKey Window.fid (Window.take I p.expr) w s).2) :
    ∃ s, Pushes (fun full out => Emit.each (body full) as (fun _ => 0) out) (shownMatches I p.expr op) s := by
  have hrun := emits_windows h.nonempty (hI.windowsOf_inOrder h.nonempty op) (fun w hw => hI.windowsOf_file op w hw)
  rw [hws, emits_filterMap, ← hws] at hrun
  change _ = shownMatches I p.expr op at hrun
  rw [← hrun]
  refine ⟨_, Pushes.each as (fun a ha s => ?_) (fun _ => 0)⟩
  obtain ⟨w, hw, hpushes⟩ := hbody a ha s
  rw [hw]
  exact hpushes

theorem Plain.findChunk_shown : ∃ s, Pushes (findChunk icu I p opt) (shownMatches I p.expr .chunk) s := by
  have hempty : p.expr.isEmpty = false := by simpa using h.nonempty
  unfold findChunk
  rw [h.case_, if_neg Bool.false_ne_true, h.unscoped]
  refine h.each_shown hI rfl (fun ci hci s => ?_)
  obtain ⟨z, hz⟩ : ∃ z, I.chunks[ci]? = some z := ⟨_, List.getElem?_eq_getElem (chunkAllowed_lt (hI.chunkCandidates_allowed hci))⟩
  refine ⟨z.window, by rw [hz]; rfl, ?_⟩
  simp only [scanChunk, hz, hempty, h.searched, Bool.false_eq_true, if_false, Nat.add_zero]
  refine h.scanWindow_pushes icu (w := z.window) rfl (hI.chunk_getElem hz).2.1 (fun x => ?_) s
  rw [boundaryOk, h.word, h.line]
  rfl

theorem Plain.findBlocks_shown : ∃ s, Pushes (findBlocks icu I p opt) (shownMatches I p.expr .positionalBlock) s := by
  have hempty : p.expr.isEmpty = false := by simpa using h.nonempty
  unfold findBlocks
  rw [h.unscoped]
  refine h.each_shown hI rfl (fun b hb s => ?_)
  have hci := (hI.blocks_sorted h.nonempty).2 b hb
  obtain ⟨z, hz⟩ : ∃ z, I.chunks[b.1]? = some z := ⟨_, List.getElem?_eq_getElem (chunkAllowed_lt (hI.chunkCandidates_allowed hci))⟩
  have hsucc : (b.2 + 1) * I.posBlock = b.2 * I.posBlock + I.posBlock := Nat.succ_mul b.2 I.posBlock
  refine ⟨z.block I.posBlock b.2, by rw [hz]; rfl, ?_⟩
  simp only [scanBlock, hz, hempty, h.searched, Bool.false_eq_true, if_false, Nat.add_zero, false_and, not_false_eq_true, and_true]
  by_cases hrb : z.coreEnd - z.coreBegin ≤ b.2 * I.posBlock
  · -- a block past the core
    have hnil : (z.block I.posBlock b.2).occs I p.expr = [] := by
      rw [Window.occs, occs_eq_nil (by dsimp only [Chunk.block]; omega)]
      rfl
    simp only [if_pos hrb, atKey, Window.take, hnil, apart, apartEnd, Function.update_eq_self]
    exact Pushes.nil s
  · simp only [if_neg hrb]
    exact h.scanWindow_pushes icu (w := z.block I.posBlock b.2) (by dsimp only [Chunk.block]; omega)
      (by dsimp only [Chunk.block]; omega) (fun _ => rfl) s

/-- **An operator of the guarded dispatch gives what it shows**; without one the blocks are scanned. -/
theorem Plain.findFixed_shown (guarded : Option FixedPhysicalOperator) (full : List Match → Bool) :
    findFixed icu I p opt guarded full = pushAll full [] (shownMatches I p.expr (guarded.getD .positionalBlock)) := by
  obtain ⟨s₁, h₁⟩ := h.findWholeFile_shown hI icu
  obtain ⟨s₂, h₂⟩ := h.findChunk_shown hI icu
  obtain ⟨s₃, h₃⟩ := h.findBlocks_shown hI icu
  have hoverlap : ¬ I.opt.chunkOverlap < p.expr.length := Nat.not_lt.2 h.overlap
  unfold findFixed
  simp only [hoverlap, h.case_, h.word, h.line, if_pos h.short, Bool.false_eq_true, false_or]
  cases guarded with
  | none => exact (h₃ full []).1
  | some op =>
    cases op with
    | wholeFile => exact (h₁ full []).1
    | chunk => exact (h₂ full []).1
    | positionalBlock => exact (h₃ full []).1

end

/-! ## The operator and the blocks -/

theorem filter_shownMatches (I : IndexData) (q : Bytes) (op : FixedPhysicalOperator) (P : Nat → Bool) :
    (shownMatches I q op).filter (fun m => P m.fileId) = ((List.range I.loaded.length).filter P).flatMap
      (fun fid => (apart q.length 0 (shown I q op fid)).map (literalMatch fid q.length)) :=
  filter_flatMap_key (k := id) P (fun fid _ m hm => by
    obtain ⟨x, -, rfl⟩ := List.mem_map.1 hm
    rfl)

/-- **An operator gives in some files what the blocks give** exactly when the blocks show each of its matches there. -/
theorem shownMatches_scope_iff {I : IndexData} (hI : Laid I) {q : Bytes} (hq : q ≠ []) (op : FixedPhysicalOperator)
    (P : Nat → Bool) :
    (shownMatches I q .positionalBlock).filter (fun m => P m.fileId) = (shownMatches I q op).filter (fun m => P m.fileId) ↔
      ∀ fid < I.loaded.length, P fid = true → ∀ x ∈ apart q.length 0 (shown I q op fid), x ∈ shown I q .positionalBlock fid := by
  have hblocks : ∀ fid, shown I q .positionalBlock fid =
      (shown I q op fid).filter (fun x => (shown I q .positionalBlock fid).contains x) := fun fid => by
    refine sorted_ext (shownBy_sorted _ _ _ _) ((shownBy_sorted _ _ _ _).filter _) (fun x => ?_)
    rw [List.mem_filter, List.contains_iff_mem]
    exact ⟨fun hx => ⟨hI.shown_blocks hq op hx, hx⟩, fun hx => hx.2⟩
  constructor
  · intro heq fid hfid hP x hx
    have hfile := congrArg (List.filter (fun m : Match => m.fileId == fid)) heq
    have hone : ((List.range I.loaded.length).filter P).filter (fun g => g == fid) = [fid] := by
      refine sorted_ext ((List.pairwise_lt_range.filter _).filter _) (List.pairwise_singleton _ _) (fun g => ?_)
      rw [List.mem_filter, List.mem_filter, List.mem_range, List.mem_singleton, beq_iff_eq]
      refine ⟨fun h => h.2, ?_⟩
      rintro rfl
      exact ⟨⟨hfid, hP⟩, rfl⟩
    have hkey : ∀ o, ((shownMatches I q o).filter (fun m => P m.fileId)).filter (fun m => m.fileId == fid) =
        (apart q.length 0 (shown I q o fid)).map (literalMatch fid q.length) := by
      intro o
      have hids : ∀ g ∈ (List.range I.loaded.length).filter P,
          ∀ m ∈ (apart q.length 0 (shown I q o g)).map (literalMatch g q.length), m.fileId = id g := by
        intro g _ m hm
        obtain ⟨x, -, rfl⟩ := List.mem_map.1 hm
        rfl
      rw [filter_shownMatches, filter_flatMap_key (fun g => g == fid) hids]
      change (((List.range I.loaded.length).filter P).filter (fun g => g == fid)).flatMap _ = _
      rw [hone, List.flatMap_singleton]
    rw [hkey, hkey] at hfile
    obtain ⟨y, hy, hyx⟩ := List.mem_map.1 (hfile ▸ List.mem_map_of_mem hx)
    have hstart := congrArg Match.start hyx
    change y = x at hstart
    exact hstart ▸ (apart_sub hy).1
  · intro hall
    rw [filter_shownMatches, filter_shownMatches]
    refine List.flatMap_congr (fun fid hfid => ?_)
    obtain ⟨hlt, hP⟩ := List.mem_filter.1 hfid
    rw [hblocks, apart_kept (fun x hx => List.contains_iff_mem.2 (hall fid (List.mem_range.1 hlt) hP x hx))]

/-- The first occurrence an operator shows, in the first file where it shows one. -/
def firstShown (I : IndexData) (q : Bytes) (op : FixedPhysicalOperator) : Option (Nat × Nat) :=
  (List.range I.loaded.length).findSome? (fun fid => (shown I q op fid).head?.map (fun x => (fid, x)))

theorem head_le_of_mem {xs : List Nat} (hsorted : xs.Pairwise (· < ·)) {x y : Nat} (hhead : xs.head? = some x) (hy : y ∈ xs) :
    x ≤ y := by
  cases xs with
  | nil => cases hy
  | cons z zs =>
    cases hhead
    rcases List.mem_cons.1 hy with rfl | hy
    · exact Nat.le_refl _
    · exact Nat.le_of_lt ((List.pairwise_cons.1 hsorted).1 y hy)

theorem head_of_subset {xs ys : List Nat} (hxs : xs.Pairwise (· < ·)) (hys : ys.Pairwise (· < ·)) (hsub : ∀ y ∈ ys, y ∈ xs)
    {x : Nat} (hhead : xs.head? = some x) (hx : x ∈ ys) : ys.head? = some x := by
  obtain ⟨y, hy⟩ := Option.isSome_iff_exists.1 (List.isSome_head?.2 (List.ne_nil_of_mem hx))
  have hyx := head_le_of_mem hys hy hx
  have hxy := head_le_of_mem hxs hhead (hsub y (List.mem_of_mem_head? hy))
  rw [hy, Nat.le_antisymm hyx hxy]

theorem head_apart (len : Nat) : ∀ xs : List Nat, (apart len 0 xs).head? = xs.head?
  | [] => rfl
  | x :: xs => by rw [apart, if_neg (Nat.not_lt_zero x), List.head?_cons, List.head?_cons]

theorem shownMatches_head (I : IndexData) (q : Bytes) (op : FixedPhysicalOperator) :
    (shownMatches I q op).head? = (firstShown I q op).map (fun fx => literalMatch fx.1 q.length fx.2) := by
  have hlist : ∀ fids : List Nat,
      (fids.flatMap (fun fid => (apart q.length 0 (shown I q op fid)).map (literalMatch fid q.length))).head? =
        (fids.findSome? (fun fid => (shown I q op fid).head?.map (fun x => (fid, x)))).map
          (fun fx => literalMatch fx.1 q.length fx.2) := by
    intro fids
    induction fids with
    | nil => rfl
    | cons fid fids ih =>
      rw [List.flatMap_cons, List.head?_append, List.head?_map, head_apart, List.findSome?_cons, ih]
      cases (shown I q op fid).head? with
      | none => rfl
      | some x => rfl
  exact hlist _

theorem firstShown_eq_some {I : IndexData} {q : Bytes} {op : FixedPhysicalOperator} {fid x : Nat} :
    firstShown I q op = some (fid, x) ↔ fid < I.loaded.length ∧ (shown I q op fid).head? = some x ∧
      ∀ g < fid, shown I q op g = [] := by
  have hlist : ∀ (n lo : Nat), (List.range' lo n).findSome? (fun fid => (shown I q op fid).head?.map (fun x => (fid, x))) =
      some (fid, x) ↔ lo ≤ fid ∧ fid < lo + n ∧ (shown I q op fid).head? = some x ∧ ∀ g, lo ≤ g → g < fid → shown I q op g = [] := by
    intro n
    induction n with
    | zero =>
      intro lo
      constructor
      · intro h
        cases h
      · omega
    | succ n ih =>
      intro lo
      rw [List.range'_succ, List.findSome?_cons]
      cases hx : (shown I q op lo).head? with
      | none =>
        rw [Option.map_none]
        dsimp only
        rw [ih (lo + 1)]
        constructor
        · rintro ⟨h1, h2, h3, h4⟩
          refine ⟨by omega, by omega, h3, fun g hg hlt => ?_⟩
          rcases Nat.eq_or_lt_of_le hg with rfl | hg
          · exact List.head?_eq_none_iff.1 hx
          · exact h4 g hg hlt
        · rintro ⟨h1, h2, h3, h4⟩
          have hne : lo ≠ fid := by
            rintro rfl
            rw [hx] at h3
            cases h3
          exact ⟨by omega, by omega, h3, fun g hg hlt => h4 g (by omega) hlt⟩
      | some y =>
        rw [Option.map_some]
        dsimp only
        constructor
        · intro h
          cases h
          exact ⟨Nat.le_refl _, by omega, hx, fun g hg hlt => absurd hlt (Nat.not_lt.2 hg)⟩
        · rintro ⟨h1, h2, h3, h4⟩
          rcases Nat.eq_or_lt_of_le h1 with rfl | hlt
          · rw [hx] at h3
            cases h3
            rfl
          · rw [h4 lo (Nat.le_refl lo) hlt] at hx
            cases hx
  rw [firstShown, List.range_eq_range', hlist]
  simp

/-- **An operator gives first what the blocks give first** exactly when the blocks show its first occurrence. -/
theorem shownMatches_first_iff {I : IndexData} (hI : Laid I) {q : Bytes} (hq : q ≠ []) (op : FixedPhysicalOperator) :
    (shownMatches I q op).take 1 = (shownMatches I q .positionalBlock).take 1 ↔
      ∀ fid x, firstShown I q op = some (fid, x) → x ∈ shown I q .positionalBlock fid := by
  have hnil : ∀ {fid}, shown I q op fid = [] → shown I q .positionalBlock fid = [] := fun {fid} h => by
    refine List.eq_nil_iff_forall_not_mem.2 (fun x hx => ?_)
    have hx := hI.shown_blocks hq op hx
    rw [h] at hx
    cases hx
  rw [List.take_one, List.take_one, shownMatches_head, shownMatches_head]
  constructor
  · intro heq fid x hfirst
    rw [hfirst] at heq
    cases hblock : firstShown I q .positionalBlock with
    | none =>
      rw [hblock] at heq
      cases heq
    | some fx =>
      obtain ⟨g, y⟩ := fx
      rw [hblock, Option.map_some, Option.map_some, Option.toList_some, Option.toList_some, List.cons.injEq] at heq
      have hfid := congrArg Match.fileId heq.1
      have hstart := congrArg Match.start heq.1
      change fid = g at hfid
      change x = y at hstart
      subst hfid hstart
      exact List.mem_of_mem_head? (firstShown_eq_some.1 hblock).2.1
  · intro hall
    cases hfirst : firstShown I q op with
    | none =>
      have hblock : firstShown I q .positionalBlock = none := by
        rw [firstShown, List.findSome?_eq_none_iff] at hfirst ⊢
        intro fid hfid
        have hempty := hfirst fid hfid
        rw [Option.map_eq_none_iff, List.head?_eq_none_iff] at hempty ⊢
        exact hnil hempty
      rw [hblock]
    | some fx =>
      obtain ⟨fid, x⟩ := fx
      obtain ⟨h1, h2, h3⟩ := firstShown_eq_some.1 hfirst
      have hx := hall fid x hfirst
      have hblock : firstShown I q .positionalBlock = some (fid, x) := by
        refine firstShown_eq_some.2 ⟨h1, ?_, fun g hg => hnil (h3 g hg)⟩
        exact head_of_subset (shownBy_sorted I q (windowsOf I q op) fid) (shownBy_sorted I q (windowsOf I q .positionalBlock) fid)
          (fun _ hy => hI.shown_blocks hq op hy) h2 hx
      rw [hblock]

/-- Where the guard holds, the blocks show each match of the planned operator in the files `P`. -/
def PlanShows (I : IndexData) (plan : Planner) (p : Pattern) (opt : SearchOptions) (P : Nat → Bool) : Prop :=
  p.re = none → fixedGuardEligible I p opt = true → ∀ op, plan p opt = some op → ∀ fid < I.loaded.length, P fid = true →
    ∀ x ∈ apart p.expr.length 0 (shown I p.expr op fid), x ∈ shown I p.expr .positionalBlock fid

/-- The operator of the guarded dispatch, `none` where the guard fails. -/
def guardedOperator (I : IndexData) (plan : Planner) (p : Pattern) (opt : SearchOptions) : Option FixedPhysicalOperator :=
  if fixedGuardEligible I p opt then plan p opt else none

/-- **The guarded dispatch changes nothing in some files** exactly when the blocks show what it finds there. -/
theorem guarded_scope_iff {I : IndexData} (hI : Laid I) (icu : Icu) (plan : Planner) {p : Pattern} (opt : SearchOptions)
    (hre : p.re = none) (P : Nat → Bool) :
    (findFixed icu I p opt none (fun _ => false)).1.filter (fun m => P m.fileId) =
        (findFixed icu I p opt (guardedOperator I plan p opt) (fun _ => false)).1.filter (fun m => P m.fileId) ↔
      PlanShows I plan p opt P := by
  unfold guardedOperator PlanShows
  cases hguard : fixedGuardEligible I p opt with
  | false =>
    rw [if_neg Bool.false_ne_true]
    exact iff_of_true rfl (fun _ h => absurd h Bool.false_ne_true)
  | true =>
    have hplain := plain_of_guard hguard
    rw [if_pos rfl]
    cases hop : plan p opt with
    | none => exact iff_of_true rfl (fun _ _ op h => absurd h (by simp))
    | some op =>
      rw [hplain.findFixed_shown hI icu none, hplain.findFixed_shown hI icu (some op), pushAll_never, pushAll_never]
      refine (shownMatches_scope_iff hI hplain.nonempty op P).trans ⟨fun h _ _ o ho => ?_, fun h => h hre rfl op rfl⟩
      cases ho
      exact h

theorem Built.blocks_show {I : IndexData} (hI : Built I) (plan : Planner) (p : Pattern) (opt : SearchOptions) (P : Nat → Bool) :
    PlanShows I plan p opt P := by
  intro hre hguard op hop
  have hplain := plain_of_guard hguard
  refine (shownMatches_scope_iff hI.laid hplain.nonempty op P).1 (congrArg (List.filter _) ?_)
  have hsame : findFixed asciiIcu I p opt none (fun _ => false) = findFixed asciiIcu I p opt (some op) (fun _ => false) := by
    rw [hI.findFixed_pushes asciiIcu p opt hplain.nonempty hplain.case_ hplain.word hplain.line,
      hI.findFixed_pushes asciiIcu p opt hplain.nonempty hplain.case_ hplain.word hplain.line]
  rw [hplain.findFixed_shown hI.laid, hplain.findFixed_shown hI.laid, pushAll_never, pushAll_never] at hsame
  exact congrArg Prod.fst hsame

end Pergrep
