import Pergrep.Search.FindLiteral
/-!
# WordLine — a literal in word or line mode

`boundaryMatches` says what a search for a literal in word or line mode is to return: in each eligible file the leftmost
non-overlapping ones of the occurrences that pass the test.  `find` scans windows of a file (`scanWindows`), the whole file
or the cores of its chunks, and after an occurrence that fails the test goes on behind all of it.  So it returns what it
should exactly when in each window no occurrence that fails hides one that is wanted (`find_boundary_iff`).
-/
namespace Pergrep

open Substr Emit

section
variable (icu : Icu) (p : Pattern) (opt : SearchOptions)

/-- The test of the word and line modes at an offset of a file. -/
def passes (data : Bytes) (x : Nat) : Bool := boundaryOk icu p.opt opt.recordSeparator data x (x + p.expr.length)

/-- What is wanted of a file: the greedy leftmost ones of the occurrences that pass. -/
def wanted (data : Bytes) : List Nat :=
  apart p.expr.length 0 ((occs data p.expr 0 data.length).filter (passes icu p opt data))

/-- The matches of a literal in word or line mode, file by file. -/
def boundaryMatches (documents : List Document) : List Match :=
  (byPath documents).zipIdx.flatMap (fun d =>
    if documentSearched opt d.2 d.1 then (wanted icu p opt d.1.content).map (literalMatch d.2 p.expr.length) else [])

/-- The ranges of a file that are scanned one by one: all of it for a literal longer than the overlap of the chunks, the
cores of the chunks otherwise. -/
def scanWindows (I : IndexData) (q : Bytes) (fid : Nat) : List (Nat × Nat) :=
  if I.opt.chunkOverlap < q.length then [(0, (I.data fid).length)]
  else (I.chunksOf fid).map (fun z => (z.coreBegin, z.coreEnd))

/-- In no window of the file does an occurrence that fails the test hide a wanted one. -/
def NothingHidden (I : IndexData) (fid : Nat) : Prop :=
  ∀ w ∈ scanWindows I p.expr fid, ∀ y ∈ wanted icu p opt (I.data fid), w.1 ≤ y → y < w.2 → ∀ r,
    ¬ Hides (I.data fid) p.expr p.expr.length (passes icu p opt (I.data fid)) 0 0 w r y

end

/-! ## The scan of a file -/

theorem consecutive_chunks {overlap fid n : Nat} : ∀ {zs : List Chunk} {b : Nat}, Tiles overlap fid n b zs → b ≤ n →
    Consecutive b n (zs.map (fun z => (z.coreBegin, z.coreEnd)))
  | [], b, h, hb => by
    rw [Tiles] at h
    exact Nat.le_antisymm hb h
  | z :: zs, b, h, hb => by
    rw [Tiles] at h
    obtain ⟨-, h2, h3, h4, -, h6⟩ := h
    exact ⟨h2, h3, consecutive_chunks h6 h4⟩

theorem Built.consecutive_windows {I : IndexData} (hI : Built I) (q : Bytes) (fid : Nat) :
    Consecutive 0 (I.data fid).length (scanWindows I q fid) := by
  rw [scanWindows]
  split
  · exact ⟨rfl, Nat.zero_le _, rfl⟩
  · exact consecutive_chunks (hI.tiles fid) (Nat.zero_le _)

section
variable (icu : Icu) (I : IndexData) (p : Pattern) (opt : SearchOptions)

/-- What a scan of `[lo, hi)` takes; with overlaps, all that passes. -/
def scanRange (fid lo hi n : Nat) : List Match × Nat :=
  if skipsBinary I opt fid then ([], n)
  else
    let r :=
      if opt.overlapping then ((occs (I.data fid) p.expr lo hi).filter (passes icu p opt (I.data fid)), n)
      else scan p.expr.length (passes icu p opt (I.data fid)) lo n (occs (I.data fid) p.expr lo hi)
    (r.1.map (literalMatch fid p.expr.length), r.2)

def taken (fid : Nat) : List Nat :=
  if opt.overlapping then (occs (I.data fid) p.expr 0 (I.data fid).length).filter (passes icu p opt (I.data fid))
  else windowsScan (I.data fid) p.expr p.expr.length (passes icu p opt (I.data fid)) (scanWindows I p.expr fid) 0

theorem scanRange_nil {fid lo hi : Nat} (h : occs (I.data fid) p.expr lo hi = []) (n : Nat) :
    scanRange icu I p opt fid lo hi n = ([], n) := by
  rw [scanRange, h]
  split
  · rfl
  · cases opt.overlapping <;> rfl

theorem emits_scanRange {fid : Nat} (hbin : skipsBinary I opt fid = false) (hov : opt.overlapping = false) :
    ∀ (ws : List (Nat × Nat)) (n : Nat), (emits (fun w => scanRange icu I p opt fid w.1 w.2) ws n).1 =
      (windowsScan (I.data fid) p.expr p.expr.length (passes icu p opt (I.data fid)) ws n).map (literalMatch fid p.expr.length)
  | [], _ => rfl
  | w :: ws, n => by
    rw [emits, emits_scanRange hbin hov ws, windowsScan, List.map_append, scanRange, hbin, hov]
    rfl

theorem emits_scanRange_overlapping {fid : Nat} (hbin : skipsBinary I opt fid = false) (hov : opt.overlapping = true)
    (ws : List (Nat × Nat)) (n : Nat) : (emits (fun w => scanRange icu I p opt fid w.1 w.2) ws n).1 =
      ((ws.flatMap (fun w => occs (I.data fid) p.expr w.1 w.2)).filter (passes icu p opt (I.data fid))).map
        (literalMatch fid p.expr.length) := by
  have hone : ∀ (w : Nat × Nat) (n : Nat), (scanRange icu I p opt fid w.1 w.2 n).1 =
      ((occs (I.data fid) p.expr w.1 w.2).filter (passes icu p opt (I.data fid))).map (literalMatch fid p.expr.length) := by
    intro w n
    rw [scanRange, hbin, hov]
    rfl
  rw [emits_indep hone, List.filter_flatMap, List.map_flatMap]

variable {I} (hI : Built I)
include hI

/-- **The scan of a chunk** under the test. -/
theorem Built.scanWindow_scanRange (hq : p.expr ≠ []) (hlen : p.expr.length ≤ I.opt.chunkOverlap) {z : Chunk}
    (hz : z ∈ I.chunks) (hbin : skipsBinary I opt z.fileId = false) (s : Nat → Nat) :
    Pushes (fun full out => scanWindow icu I p opt full z.fileId z.coreBegin (I.view z) (z.coreEnd - z.coreBegin) false
        (boundaryOk icu p.opt opt.recordSeparator (I.data z.fileId)) s out)
      (atKey Chunk.fileId (fun z => scanRange icu I p opt z.fileId z.coreBegin z.coreEnd) z s).1
      (atKey Chunk.fileId (fun z => scanRange icu I p opt z.fileId z.coreBegin z.coreEnd) z s).2 := by
  intro full out
  obtain ⟨h1, h2⟩ := loop_pushes (windowStep icu I p opt z.fileId z.coreBegin (I.view z) (z.coreEnd - z.coreBegin) false
    (boundaryOk icu p.opt opt.recordSeparator (I.data z.fileId))) (z.coreEnd - z.coreBegin + 1) (0, s) full out
  obtain ⟨-, hle, -, -⟩ := hI.chunk hz
  have hw : windowOccs (I.view z) p.expr z.coreBegin 0 (z.coreEnd - z.coreBegin) =
      occs (I.data z.fileId) p.expr z.coreBegin z.coreEnd := by
    rw [IndexData.view, windowOccs_slice hq (fun x _ hx ho => hI.in_view hlen hz (by omega) ho)]
    rw [show z.coreBegin + (z.coreEnd - z.coreBegin) = z.coreEnd by omega]
  cases hov : opt.overlapping with
  | false =>
    obtain ⟨e1, e2⟩ := windowLoop icu I p opt hq hov z.fileId z.coreBegin (I.view z) (z.coreEnd - z.coreBegin)
      (boundaryOk icu p.opt opt.recordSeparator (I.data z.fileId)) (z.coreEnd - z.coreBegin + 1) 0 s (by omega)
    rw [hw, Nat.add_zero] at e1 e2
    rw [e1] at h1 h2
    rw [atKey, scanRange, if_neg (by rw [hbin]; decide), hov]
    exact ⟨h1, fun hf => (congrArg Prod.snd (h2 hf)).trans e2⟩
  | true =>
    obtain ⟨e1, e2⟩ := windowLoop_overlapping icu I p opt hq hov z.fileId z.coreBegin (I.view z) (z.coreEnd - z.coreBegin)
      (boundaryOk icu p.opt opt.recordSeparator (I.data z.fileId)) (z.coreEnd - z.coreBegin + 1) 0 s (by omega)
    rw [hw] at e1
    rw [e1] at h1 h2
    rw [atKey, scanRange, if_neg (by rw [hbin]; decide), hov]
    refine ⟨h1, fun hf => (congrArg Prod.snd (h2 hf)).trans ?_⟩
    rw [e2]
    exact (Function.update_eq_self _ _).symm

/-- **The chunk branch** takes, file by file, what the windows of its chunks take. -/
theorem Built.findChunk_scan (hq : p.expr ≠ []) (hlen : p.expr.length ≤ I.opt.chunkOverlap) (hcase : p.icase = false) :
    ∃ s, Pushes (findChunk icu I p opt)
      ((List.range I.loaded.length).flatMap (fun fid => if allows I opt.eligibleFileIds fid then
        (emits (fun z => scanRange icu I p opt z.fileId z.coreBegin z.coreEnd) (I.chunksOf fid) 0).1 else [])) s := by
  have hempty : p.expr.isEmpty = false := by simpa using hq
  refine hI.each_chunks (P := fun ci => (chunkCandidates I opt.eligibleFileIds p.expr).contains ci) ?_ ?_ ?_
  · simp only [hcase, Bool.false_eq_true, if_false]
    exact hI.laid.chunkCandidates_eq _ _
  · intro ci z hz s
    simp only [scanChunk, hz, hempty, hcase, Bool.false_eq_true, if_false, Nat.add_zero]
    cases hbin : skipsBinary I opt z.fileId with
    | true  =>
      rw [atKey_nil (by rw [scanRange, if_pos hbin])]
      exact Pushes.nil s
    | false => exact hI.scanWindow_scanRange icu p opt hq hlen (List.mem_of_getElem? hz) hbin s
  · intro ci z hz hallow hnot n
    refine scanRange_nil icu I p opt ?_ n
    rw [List.eq_nil_iff_forall_not_mem]
    intro x hx
    have hc := hI.chunkCandidates_complete hz hallow (hI.occurs_in_view p hq hlen (List.mem_of_getElem? hz) hx)
    rw [← List.contains_iff_mem, hnot] at hc
    cases hc

theorem Built.emits_chunksOf_taken (hlen : p.expr.length ≤ I.opt.chunkOverlap) {fid : Nat} (hbin : skipsBinary I opt fid = false) :
    (emits (fun z => scanRange icu I p opt z.fileId z.coreBegin z.coreEnd) (I.chunksOf fid) 0).1 =
      (taken icu I p opt fid).map (literalMatch fid p.expr.length) := by
  have hwindows : scanWindows I p.expr fid = (I.chunksOf fid).map (fun z => (z.coreBegin, z.coreEnd)) := if_neg (by omega)
  rw [emits_congr (f := fun z => scanRange icu I p opt fid z.coreBegin z.coreEnd)
      (fun z hz _ => by rw [((hI.tiles fid).mem hz).1]),
    ← emits_map (fun w : Nat × Nat => scanRange icu I p opt fid w.1 w.2) (fun z : Chunk => (z.coreBegin, z.coreEnd)), ← hwindows]
  cases hov : opt.overlapping with
  | false =>
    rw [emits_scanRange icu I p opt hbin hov, taken, hov]
    rfl
  | true =>
    rw [emits_scanRange_overlapping icu I p opt hbin hov, taken, hov, if_pos rfl, hwindows, List.flatMap_map]
    rw [(hI.tiles fid).flatMap_occs (I.data fid) p.expr (Nat.zero_le _)]

theorem Built.taken_chosen (hok : ∀ fid x, passes icu p opt (I.data fid) x = true) (fid : Nat) :
    taken icu I p opt fid = (chosen opt.overlapping p.expr.length 0 (occs (I.data fid) p.expr 0 (I.data fid).length)).1 := by
  have hall := List.filter_eq_self.2 (fun x (_ : x ∈ occs (I.data fid) p.expr 0 (I.data fid).length) => hok fid x)
  rw [taken]
  cases opt.overlapping with
  | true => rw [if_pos rfl, hall]; rfl
  | false =>
    have hnone : ∀ w r y, ¬ Hides (I.data fid) p.expr p.expr.length (passes icu p opt (I.data fid)) 0 0 w r y :=
      fun w r y h => Bool.false_ne_true (h.2.1.symm.trans (hok fid r))
    rw [if_neg Bool.false_ne_true, (windows_iff (hI.consecutive_windows p.expr fid)).2 (fun w _ y _ _ _ r => hnone w r y), hall]
    rfl

/-- **What the fixed branch pushes** for a literal whose case matters: what is taken of each file. -/
theorem Built.findFixed_taken (hq : p.expr ≠ []) (hcase : p.icase = false) (full : List Match → Bool) :
    findFixed icu I p opt none full = pushAll full []
      ((List.range I.loaded.length).flatMap (fun fid => if allows I opt.eligibleFileIds fid && !skipsBinary I opt fid then
        (taken icu I p opt fid).map (literalMatch fid p.expr.length) else [])) := by
  by_cases hmode : p.opt.word = true ∨ p.opt.line = true
  · rw [findFixed]
    by_cases hlen : I.opt.chunkOverlap < p.expr.length
    · obtain ⟨s, hs⟩ := hI.findWholeFile_pushes icu p opt hq hcase
      rw [if_pos (Or.inl hlen), (hs full []).1]
      refine congrArg (pushAll full []) (List.flatMap_congr (fun fid _ => ?_))
      cases hbin : skipsBinary I opt fid with
      | true => cases allows I opt.eligibleFileIds fid <;> simp [wholeFileTake, hbin]
      | false =>
        have htake : (chosen opt.overlapping p.expr.length 0 (occs (I.data fid) p.expr 0 (I.data fid).length)).1.filter
            (fun x => boundaryOk icu p.opt opt.recordSeparator (I.data fid) x (x + p.expr.length)) = taken icu I p opt fid := by
          rw [taken, scanWindows, if_pos hlen]
          cases opt.overlapping with
          | true => rfl
          | false =>
            rw [if_neg Bool.false_ne_true, windowsScan, windowsScan, List.append_nil, (scan_tried (occs_sorted _ _ _ _)).1,
              tried_all (Nat.le_refl 0) (occs_sorted _ _ _ _)]
            rfl
        rw [wholeFileTake, hbin, if_neg Bool.false_ne_true, htake, Bool.not_false, Bool.and_true]
    · have hlen : p.expr.length ≤ I.opt.chunkOverlap := Nat.le_of_not_lt hlen
      obtain ⟨s, hs⟩ := hI.findChunk_scan icu p opt hq hlen hcase
      have hno : ¬ (I.opt.chunkOverlap < p.expr.length ∨ (none : Option FixedPhysicalOperator) = some .wholeFile) := by
        simp [hlen]
      rw [if_neg hno, if_pos (Or.inr (hmode.elim Or.inl (fun h => Or.inr (Or.inl h)))), (hs full []).1]
      refine congrArg (pushAll full []) (List.flatMap_congr (fun fid _ => ?_))
      cases hbin : skipsBinary I opt fid with
      | true =>
        have hnil : ∀ (z : Chunk) (n : Nat), (scanRange icu I p opt fid z.coreBegin z.coreEnd n).1 = [] := fun z n => by
          rw [scanRange, if_pos hbin]
        rw [emits_congr (f := fun z => scanRange icu I p opt fid z.coreBegin z.coreEnd)
          (fun z hz _ => by rw [((hI.tiles fid).mem hz).1]), emits_indep hnil, List.flatMap_eq_nil_iff.2 (fun _ _ => rfl)]
        simp
      | false => rw [hI.emits_chunksOf_taken icu p opt hlen hbin, Bool.not_false, Bool.and_true]
  · simp only [not_or, Bool.not_eq_true] at hmode
    have hok : ∀ fid x, passes icu p opt (I.data fid) x = true := by
      intro fid x
      rw [passes, boundaryOk, hmode.1, hmode.2]
      rfl
    rw [hI.findFixed_pushes icu p opt hq hcase hmode.1 hmode.2]
    refine congrArg (pushAll full []) (List.flatMap_congr (fun fid _ => ?_))
    rw [hI.taken_chosen icu p opt hok, takeRange]
    cases allows I opt.eligibleFileIds fid with
    | false => rfl
    | true => cases skipsBinary I opt fid <;> rfl

end

/-! ## The result -/

theorem flatMap_range_inj {n : Nat} {f g : Nat → List Match} (hf : ∀ i, ∀ m ∈ f i, m.fileId = i)
    (hg : ∀ i, ∀ m ∈ g i, m.fileId = i) :
    (List.range n).flatMap f = (List.range n).flatMap g ↔ ∀ i < n, f i = g i := by
  constructor
  · intro h i hi
    have hone : ∀ k : Nat → List Match, (∀ i, ∀ m ∈ k i, m.fileId = i) →
        ((List.range n).flatMap k).filter (fun m => m.fileId == i) = k i := fun k hk => by
      rw [filter_flatMap_key (k := id) (f := Match.fileId) (g := k) (fun c => c == i) (fun a _ b hb => hk a b hb)]
      have hfilter : (List.range n).filter (fun a => id a == i) = [i] := by
        refine sorted_ext (List.Pairwise.filter _ List.pairwise_lt_range) (List.pairwise_singleton _ _) (fun x => ?_)
        rw [List.mem_filter, List.mem_range, List.mem_singleton, beq_iff_eq, id]
        exact ⟨fun hx => hx.2, fun hx => ⟨hx ▸ hi, hx⟩⟩
      rw [hfilter, List.flatMap_singleton]
    rw [← hone f hf, h, hone g hg]
  · exact fun h => List.flatMap_congr (fun i hi => h i (List.mem_range.1 hi))

theorem literalMatch_inj {fid len : Nat} {xs ys : List Nat} :
    xs.map (literalMatch fid len) = ys.map (literalMatch fid len) ↔ xs = ys := by
  refine List.map_inj_right (fun x y h => ?_)
  exact congrArg Match.start h

variable (icu : Icu)

theorem boundaryMatches_eq {documents : List Document} {iopt : IndexOptions} {I : IndexData}
    (h : fromDocuments documents iopt = .ok I) (p : Pattern) (opt : SearchOptions) :
    boundaryMatches icu p opt documents = (List.range I.loaded.length).flatMap (fun fid =>
      if allows I opt.eligibleFileIds fid && !skipsBinary I opt fid then
        (wanted icu p opt (I.data fid)).map (literalMatch fid p.expr.length)
      else []) := by
  obtain ⟨-, hl, -, -⟩ := fromDocuments_built h
  rw [boundaryMatches, flatMap_zipIdx, hl, List.length_map]
  refine List.flatMap_congr (fun fid hfid => ?_)
  have hd := List.getElem?_eq_getElem (List.mem_range.1 hfid)
  rw [hd, Option.elim_some, Nat.zero_add, ← fromDocuments_searched h opt hd, ← fromDocuments_data h hd]

/-- **A search in word or line mode returns what it should exactly when nothing wanted is hidden** in a file it
searches. -/
theorem find_boundary_iff {documents : List Document} {iopt : IndexOptions} {I : IndexData}
    (h : fromDocuments documents iopt = .ok I) (plan : Planner) {p : Pattern} (hfixed : p.re = none) (hq : p.expr ≠ [])
    (hcase : p.icase = false) (hmode : p.opt.word = true ∨ p.opt.line = true) {opt : SearchOptions}
    (hobj : opt.objective = .exhaustive) (hinvert : opt.invertMatch = false) (hov : opt.overlapping = false)
    (hmax : opt.maxMatches = 0) :
    find icu I plan p opt = .ok (boundaryMatches icu p opt documents) ↔
      ∀ fid d, (byPath documents)[fid]? = some d → documentSearched opt fid d = true → NothingHidden icu p opt I fid := by
  obtain ⟨hI, hl, -, -⟩ := fromDocuments_built h
  -- word and line mode have no guarded dispatch
  have hguard : fixedGuardEligible I p opt = false := by
    rcases hmode with hm | hm
    · simp [fixedGuardEligible, hm]
    · simp [fixedGuardEligible, hm]
  have hraw : findRaw icu I plan p opt = .ok (findFixed icu I p opt none (fun _ => false)) := by
    rw [findRaw, hinvert, hfixed, hguard, resultBoundReached_never hobj hmax]
    rfl
  have hfind : find icu I plan p opt = .ok (findFixed icu I p opt none (fun _ => false)).1 := by
    rw [find, hraw, hmax]
    rfl
  have hkey : ∀ (b : Bool) (i : Nat) (xs : List Nat), ∀ m ∈ (if b then xs.map (literalMatch i p.expr.length) else []),
      m.fileId = i := fun b i xs m hm => by
    cases b with
    | false => cases hm
    | true =>
      obtain ⟨x, -, rfl⟩ := List.mem_map.1 hm
      rfl
  have htaken : ∀ fid, taken icu I p opt fid =
      windowsScan (I.data fid) p.expr p.expr.length (passes icu p opt (I.data fid)) (scanWindows I p.expr fid) 0 := by
    intro fid
    rw [taken, hov]
    rfl
  rw [hfind, Except.ok.injEq, hI.findFixed_taken icu p opt hq hcase, pushAll_never, List.nil_append, boundaryMatches_eq icu h,
    flatMap_range_inj (fun i => hkey _ i _) (fun i => hkey _ i _), hl, List.length_map]
  constructor
  · intro hall fid d hd hsearched
    have hfid := (List.getElem?_eq_some_iff.1 hd).1
    have heq := hall fid hfid
    rw [fromDocuments_searched h opt hd, hsearched, if_pos rfl, if_pos rfl, literalMatch_inj, htaken] at heq
    exact (windows_iff (hI.consecutive_windows p.expr fid)).1 heq
  · intro hnone fid hfid
    have hd := List.getElem?_eq_getElem hfid
    rw [fromDocuments_searched h opt hd]
    cases hsearched : documentSearched opt fid (byPath documents)[fid] with
    | false => rfl
    | true  =>
      rw [if_pos rfl, if_pos rfl, literalMatch_inj, htaken]
      exact (windows_iff (hI.consecutive_windows p.expr fid)).2 (hnone fid _ hd hsearched)

theorem find_boundary_iff_straddling : ∃ I, fromDocuments straddlingDocuments smallChunks = .ok I ∧
    (find asciiIcu I (fun _ _ => none) { expr := [0x61, 0x61], opt := { kind := .fixed, word := true } } {} =
        .ok (boundaryMatches asciiIcu { expr := [0x61, 0x61], opt := { kind := .fixed, word := true } } {} straddlingDocuments) ↔
      ∀ fid d, (byPath straddlingDocuments)[fid]? = some d → documentSearched {} fid d = true →
        NothingHidden asciiIcu { expr := [0x61, 0x61], opt := { kind := .fixed, word := true } } {} I fid) := by
  obtain ⟨I, hI⟩ := straddling_built
  exact ⟨I, hI, find_boundary_iff asciiIcu hI _ rfl (by decide) (by decide) (Or.inl rfl) rfl rfl rfl rfl⟩

/-- `ba a a`: the first `a a` starts inside a word and hides the second. -/
def hidingDocuments : List Document := [{ path := [0x61], content := [0x62, 0x61, 0x20, 0x61, 0x20, 0x61] }]

theorem hiding_found : (fromDocuments hidingDocuments {}).toOption.map (fun I =>
    (find asciiIcu I (fun _ _ => none) { expr := [0x61, 0x20, 0x61], opt := { kind := .fixed, word := true } } {}).toOption) =
      some (some []) := by decide +kernel

theorem not_find_boundary_hiding : ¬ ∀ (icu : Icu) (documents : List Document) (iopt : IndexOptions) (I : IndexData)
    (plan : Planner) (p : Pattern) (opt : SearchOptions), fromDocuments documents iopt = .ok I → p.re = none → p.expr ≠ [] →
      p.icase = false → (p.opt.word = true ∨ p.opt.line = true) → opt.objective = .exhaustive → opt.invertMatch = false →
        opt.overlapping = false → opt.maxMatches = 0 → find icu I plan p opt = .ok (boundaryMatches icu p opt documents) := by
  intro hall
  have hfound := hiding_found
  cases h : fromDocuments hidingDocuments {} with
  | error e =>
    rw [h] at hfound
    cases hfound
  | ok I =>
    have hwanted := hall asciiIcu hidingDocuments {} I (fun _ _ => none)
      { expr := [0x61, 0x20, 0x61], opt := { kind := .fixed, word := true } } {} h rfl (by decide) rfl (Or.inl rfl) rfl rfl rfl rfl
    have hone : boundaryMatches asciiIcu { expr := [0x61, 0x20, 0x61], opt := { kind := .fixed, word := true } } {}
        hidingDocuments = [literalMatch 0 3 3] := by decide +kernel
    rw [h, Except.toOption, Option.map_some, hwanted, hone] at hfound
    cases hfound

end Pergrep
