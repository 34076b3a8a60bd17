import Mathlib.Data.List.Pairwise
import Pergrep.Search.Mandatory
import Pergrep.Search.Ascending
/-!
# Exact — the filters of a regex search lose nothing

A regex is put to the files the index leaves: those with a chunk that may hold its longest mandatory literal, less those a
short literal is missing from.  Where the literals of the tree are read verbatim, these are all the files that it matches in.
So the search gives what the verifier gives on every file in scope (`find_exact`), and an inverted search, which asks no
filter, gives the records that no match of the plain search is in (`find_invert_complement`).
-/
namespace Pergrep

open Throw Emit
open Substr (occursAt mem_occs sorted_ext)

/-! ## The longest literal -/

theorem foldl_longest_mem : ∀ {ls : List Bytes} {best : Bytes},
    ls.foldl (fun best l => if best.length < l.length then l else best) best ∈ best :: ls
  | [], best => List.mem_singleton_self best
  | l :: ls, best => by
    rw [List.foldl_cons]
    split
    · exact List.mem_cons_of_mem _ foldl_longest_mem
    · rcases List.mem_cons.1 (@foldl_longest_mem ls best) with h | h
      · rw [h]
        exact List.mem_cons_self
      · exact List.mem_cons_of_mem _ (List.mem_cons_of_mem _ h)

theorem foldl_longest_length : ∀ {ls : List Bytes} {best l : Bytes}, l ∈ best :: ls →
    l.length ≤ (ls.foldl (fun best l => if best.length < l.length then l else best) best).length
  | [], best, l, h => by
    rw [List.mem_singleton.1 h]
    exact Nat.le_refl _
  | x :: ls, best, l, h => by
    rw [List.foldl_cons]
    split
    · rename_i hlt
      rcases List.mem_cons.1 h with rfl | h
      · exact (Nat.le_of_lt hlt).trans (foldl_longest_length List.mem_cons_self)
      · exact foldl_longest_length h
    · rename_i hge
      rcases List.mem_cons.1 h with rfl | h
      · exact foldl_longest_length List.mem_cons_self
      rcases List.mem_cons.1 h with rfl | h
      · exact (Nat.le_of_not_lt hge).trans (foldl_longest_length List.mem_cons_self)
      · exact foldl_longest_length (List.mem_cons_of_mem _ h)

theorem longestLiteral_inFile {data : Bytes} {ls : List Bytes} (hne : ls ≠ []) (h : ∀ l ∈ ls, InFile data l) :
    InFile data (longestLiteral ls) := by
  rcases List.mem_cons.1 (@foldl_longest_mem ls []) with hnil | hmem
  · obtain ⟨l, hl⟩ := List.exists_mem_of_ne_nil ls hne
    have hlen : l.length ≤ (longestLiteral ls).length := foldl_longest_length (List.mem_cons_of_mem _ hl)
    rw [longestLiteral, hnil, List.length_nil] at hlen
    exact absurd (List.length_eq_zero_iff.1 (Nat.le_zero.1 hlen)) (h l hl).1
  · exact h _ hmem

/-! ## No file is filtered out -/

section
variable {I : IndexData} (hI : Built I) {fid : Nat} (hfid : fid < I.loaded.length)
include hI hfid

theorem Built.chunk_of_file : ∃ (ci : Nat) (z : Chunk), I.chunks[ci]? = some z ∧ z.fileId = fid := by
  have hne : I.chunksOf fid ≠ [] := by
    intro hnil
    have htiles := hI.tiles fid
    rw [hnil] at htiles
    have hzero : (I.data fid).length = 0 := Nat.le_zero.1 htiles
    rw [IndexData.chunksOf, fileChunks, if_pos hzero] at hnil
    cases hnil
  obtain ⟨z, hz⟩ := List.exists_mem_of_ne_nil _ hne
  have hmem : z ∈ I.chunks := by
    rw [hI.chunks_flatMap]
    exact List.mem_flatMap.2 ⟨fid, List.mem_range.2 hfid, hz⟩
  obtain ⟨ci, hci⟩ := List.mem_iff_getElem?.1 hmem
  exact ⟨ci, z, hci, ((hI.tiles fid).mem hz).1⟩

variable {scope : List Nat} (hallow : allows I scope fid = true)
include hallow

/-- A file with a literal has a candidate chunk for it; any file has one for the empty literal. -/
theorem Built.candidate_of_file {lit : Bytes} (hlit : lit = [] ∨ InFile (I.data fid) lit) :
    ∃ ci ∈ chunkCandidates I scope lit, ∃ z, I.chunks[ci]? = some z ∧ z.fileId = fid := by
  have hall : lit.length < 4 ∨ I.opt.chunkOverlap < lit.length → ∀ {ci z}, I.chunks[ci]? = some z → z.fileId = fid →
      ci ∈ chunkCandidates I scope lit := by
    rintro hshort ci z hz rfl
    rw [chunkCandidates, if_pos hshort]
    refine List.mem_filter.2 ⟨List.mem_range.2 (List.getElem?_eq_some_iff.1 hz).1, ?_⟩
    rw [hz]
    exact hallow
  rcases hlit with rfl | ⟨hne, x, hx⟩
  · obtain ⟨ci, z, hz, hzf⟩ := hI.chunk_of_file hfid
    exact ⟨ci, hall (Or.inl (by decide)) hz hzf, z, hz, hzf⟩
  · have hlen : 0 < lit.length := List.length_pos_iff.2 hne
    have hin := Substr.occursAt_le hx
    obtain ⟨ci, z, hz, hzf, hocc⟩ := hI.chunk_of_occurrence lit hfid (mem_occs.2 ⟨Nat.zero_le x, by omega, hx⟩)
    refine ⟨ci, ?_, z, hz, hzf⟩
    by_cases hshort : lit.length < 4 ∨ I.opt.chunkOverlap < lit.length
    · exact hall hshort hz hzf
    · have hci : chunkAllowed I scope ci = true := by rw [chunkAllowed_eq hz, hzf, hallow]
      subst hzf
      exact hI.chunkCandidates_complete hz hci
        (hI.occurs_in_view { expr := lit, opt := {} } hne (by dsimp only; omega) (List.mem_of_getElem? hz) hocc)

end

theorem mandatoryLiteral_inFile {data : Bytes} (p : Pattern) {re : RegexProgram} (hq : re.queryIr.InFile data) :
    mandatoryLiteral p re = [] ∨ InFile data (mandatoryLiteral p re) := by
  unfold mandatoryLiteral
  split
  · exact Or.inl rfl
  · by_cases hnil : re.queryIr.mandatory = []
    · rw [hnil]
      exact Or.inl rfl
    · exact Or.inr (longestLiteral_inFile hnil hq.mandatory)

section
variable {icu : Icu} {I : IndexData} (hI : Built I) {p : Pattern} {re : RegexProgram} {opt : SearchOptions}

variable (I opt) in
def scopeFiles : List Nat := (List.range I.loaded.length).filter (allows I opt.eligibleFileIds)

theorem mem_scopeFiles {fid : Nat} : fid ∈ scopeFiles I opt ↔ fid < I.loaded.length ∧ allows I opt.eligibleFileIds fid = true := by
  rw [scopeFiles, List.mem_filter, List.mem_range]

variable (I re opt) in
/-- Candidate chunks that lose no file with what the optimizer asks for. -/
structure Keeps (cv : List Nat) : Prop where
  sorted : cv.Pairwise (· < ·)
  allowed : ∀ ci ∈ cv, chunkAllowed I opt.eligibleFileIds ci = true
  complete : ∀ fid ∈ scopeFiles I opt, re.queryIr.InFile (I.data fid) → ∃ ci ∈ cv, ∃ z, I.chunks[ci]? = some z ∧ z.fileId = fid

include hI

/-- **The candidates of a regex lose no file.** -/
theorem Built.regexCandidates_keeps : Keeps I re opt (regexCandidates I p re opt) where
  sorted := regexCandidates_sorted hI.laid p re opt
  allowed ci hci := by
    unfold regexCandidates at hci
    split at hci
    · obtain ⟨branch, -, hci⟩ := List.mem_flatMap.1 (mem_sortDistinct.1 hci)
      dsimp only at hci
      split at hci
      · cases hci
      · exact hI.laid.chunkCandidates_allowed hci
    · exact hI.laid.chunkCandidates_allowed hci
  complete fid hfile hq := by
    obtain ⟨hfid, hallow⟩ := mem_scopeFiles.1 hfile
    unfold regexCandidates
    split
    · rename_i hbranches
      obtain ⟨branch, hmem, hne, hin⟩ := hq.branch (by simpa using hbranches.2)
      have hbest := longestLiteral_inFile hne hin
      obtain ⟨ci, hci, hz⟩ := hI.candidate_of_file hfid hallow (Or.inr hbest)
      refine ⟨ci, mem_sortDistinct.2 (List.mem_flatMap.2 ⟨branch, hmem, ?_⟩), hz⟩
      dsimp only
      rw [if_neg (fun h => hbest.1 (List.isEmpty_iff.1 h))]
      exact hci
    · exact hI.candidate_of_file hfid hallow (mandatoryLiteral_inFile p hq)

theorem Built.allChunks_keeps : Keeps I re opt (chunkCandidates I opt.eligibleFileIds []) where
  sorted := hI.laid.chunkCandidates_sorted _ _
  allowed _ hci := hI.laid.chunkCandidates_allowed hci
  complete _ hfile _ := hI.candidate_of_file (mem_scopeFiles.1 hfile).1 (mem_scopeFiles.1 hfile).2 (Or.inl rfl)

/-- The files of such candidates are files in scope, in order, less some without what the optimizer asks for. -/
theorem Keeps.files {cv : List Nat} (h : Keeps I re opt cv) :
    candidateFiles I cv = (scopeFiles I opt).filter (fun fid => (candidateFiles I cv).contains fid) := by
  obtain ⟨hsorted, hmem⟩ := hI.laid.candidateFiles_spec h.sorted
  refine sorted_ext hsorted ((List.pairwise_lt_range.filter _).filter _) (fun fid => ?_)
  rw [List.mem_filter, List.contains_iff_mem, mem_scopeFiles]
  refine ⟨fun hfile => ⟨?_, hfile⟩, fun hfile => hfile.2⟩
  obtain ⟨ci, hci, z, hz, rfl⟩ := (hmem fid).1 hfile
  have hallow := h.allowed ci hci
  rw [chunkAllowed_eq hz] at hallow
  exact ⟨(hI.chunk (List.mem_of_getElem? hz)).1, hallow⟩

omit hI in
/-- The verifier is put to records, not to the regions around literals. -/
def Unbounded (p : Pattern) (re : RegexProgram) : Prop :=
  boundedRegionRequested re p.opt = true → ∀ a, boundedRegexEligible re p.opt = some a → (boundedBranches re).isEmpty = true

variable (icu opt) in
theorem Built.findRegexBranch_keeps (hplain : Unbounded p re) :
    ∃ cv, Keeps I re opt cv ∧ findRegexBranch icu I p re opt = findRegex icu I p re opt (mandatoryLiteral p re) cv := by
  unfold findRegexBranch
  dsimp only
  cases hregion : boundedRegionRequested re p.opt with
  | false =>
    rw [if_neg Bool.false_ne_true]
    exact ⟨_, hI.regexCandidates_keeps, rfl⟩
  | true =>
    rw [if_pos rfl]
    cases ha : boundedRegexEligible re p.opt with
    | none =>
      refine ⟨_, hI.allChunks_keeps, ?_⟩
      rw [chunkCandidates, if_pos (Or.inl (by decide))]
    | some a =>
      dsimp only
      rw [hplain hregion a ha, if_pos rfl]
      exact ⟨_, hI.regexCandidates_keeps, rfl⟩

omit hI
variable {pattern : Bytes} (hp : parseRegex icu pattern p.opt = .ok re)
include hp

/-- A record that the verifier finds something in is of a file with what the optimizer asks for. -/
theorem regexFindAll_inFile {data : Bytes} (hverb : re.ast.VerbatimIn data) {r : Nat × Nat} {crlf : Bool} {sep : UInt8}
    {overlapping : Bool} {fid mx : Nat} {ms : List Match}
    (h : regexFindAll icu re (recordContext crlf sep data r) overlapping fid mx = .ok ms) (hne : ms ≠ []) :
    re.queryIr.InFile data := by
  have hall : ∀ m ∈ ms, re.queryIr.InFile data :=
    findAllLoop_forall (P := fun _ => re.queryIr.InFile data)
      (fun pos m hm => regexSearch_mandatory hp ⟨rfl, rfl⟩ rfl hverb hm) h
  obtain ⟨m, hm⟩ := List.exists_mem_of_ne_nil _ hne
  exact hall m hm

/-- **A file without what the optimizer asks for gives nothing.** -/
theorem regexFile_inFile {fid : Nat} (hverb : re.ast.VerbatimIn (I.data fid)) {ms : List Match}
    (h : regexFile icu I p re opt [] fid = .ok ms) (hne : ms ≠ []) : re.queryIr.InFile (I.data fid) := by
  unfold regexFile at h
  split at h
  · cases h
    exact absurd rfl hne
  split at h
  · cases h
    exact absurd rfl hne
  · obtain ⟨hall, rfl⟩ := concatE_eq_ok.1 h
    obtain ⟨m, hm⟩ := List.exists_mem_of_ne_nil _ hne
    obtain ⟨c, hc, hm⟩ := List.mem_flatMap.1 hm
    have hok := hall c hc
    obtain ⟨r, -, rfl⟩ := List.mem_map.1 hc
    exact regexFindAll_inFile hp hverb hok (List.ne_nil_of_mem hm)

omit hp in
theorem regexFile_eq_of_inFile {fid : Nat} (hq : re.queryIr.InFile (I.data fid)) :
    regexFile icu I p re opt (mandatoryLiteral p re) fid = regexFile icu I p re opt [] fid := by
  unfold regexFile
  split
  · rfl
  rw [if_neg, if_neg (fun h => by cases h.1)]
  rintro ⟨hne, -, -, hnone⟩
  rcases mandatoryLiteral_inFile p hq with hnil | ⟨-, x, hx⟩
  · rw [hnil] at hne
    cases hne
  · rw [Substr.findFrom_eq_none.1 hnone x (Nat.zero_le x)] at hx
    cases hx

theorem regexFile_short {fid : Nat} (hverb : re.ast.VerbatimIn (I.data fid)) {ms : List Match}
    (h : regexFile icu I p re opt [] fid = .ok ms) : regexFile icu I p re opt (mandatoryLiteral p re) fid = .ok ms := by
  by_cases hne : ms = []
  · subst hne
    unfold regexFile at h ⊢
    split
    · rfl
    split
    · rfl
    · rw [if_neg ‹_›, if_neg (fun h => by cases h.1)] at h
      exact h
  · rw [regexFile_eq_of_inFile (regexFile_inFile hp hverb h hne), h]

variable (icu I p re opt) in
omit hp in
/-- What the verifier gives on every file in scope, whatever the index says. -/
def fullScan : Eval (List Match) := concatE (regexFile icu I p re opt []) (scopeFiles I opt)

variable (hverb : ∀ fid < I.loaded.length, re.ast.VerbatimIn (I.data fid))
include hI hverb

theorem Keeps.findRegex_eq {cv : List Nat} (hcv : Keeps I re opt cv) (hobj : opt.objective = .exhaustive)
    (hmax : opt.maxMatches = 0) {ms : List Match} (h : fullScan icu I p re opt = .ok ms) :
    findRegex icu I p re opt (mandatoryLiteral p re) cv = .ok (ms, false) := by
  obtain ⟨hall, rfl⟩ := concatE_eq_ok.1 h
  have hin := (hI.laid.candidateFiles_spec hcv.sorted).2
  have hsome : ∀ fid ∈ scopeFiles I opt, regexFile icu I p re opt (mandatoryLiteral p re) fid =
      .ok (value (regexFile icu I p re opt [] fid)) := fun fid hfile =>
    regexFile_short hp (hverb fid (mem_scopeFiles.1 hfile).1) (hall fid hfile)
  have hconcat : concatE (regexFile icu I p re opt (mandatoryLiteral p re)) (candidateFiles I cv) =
      .ok ((scopeFiles I opt).flatMap (fun fid => value (regexFile icu I p re opt [] fid))) := by
    rw [hcv.files hI]
    refine concatE_eq_ok.2 ⟨fun fid hfile => ?_, ?_⟩
    · have := hsome fid (List.mem_of_mem_filter hfile)
      rw [this]
      rfl
    · rw [← flatMap_filter_of_nil _ (fun fid => (candidateFiles I cv).contains fid)]
      · refine List.flatMap_congr (fun fid hfile => ?_)
        rw [hsome fid (List.mem_of_mem_filter hfile)]
        rfl
      · intro fid hfile hno
        by_contra hne
        have hq := regexFile_inFile hp (hverb fid (mem_scopeFiles.1 hfile).1) (hall fid hfile) hne
        have hmem := (hin fid).2 (hcv.complete fid hfile hq)
        rw [← List.contains_iff_mem] at hmem
        rw [hmem] at hno
        cases hno
  rw [findRegex_never icu I p re opt hobj hmax, hconcat]
  rfl

end

/-! ## The search is exact -/

section
variable {icu : Icu} {I : IndexData} {e : Bytes} {o : PatternOptions} {p : Pattern} {re : RegexProgram} {opt : SearchOptions}

theorem recordLoop_re (hloop : recordLoop p opt = some re) : p.re = some re ∧ rewritesToFixed p re opt = false := by
  unfold recordLoop at hloop
  split at hloop
  · cases hloop
  · rw [Option.filter_eq_some_iff] at hloop
    exact ⟨hloop.1, by simpa using hloop.2⟩

/-- **A regex search gives what the verifier gives on every file in scope.** -/
theorem find_exact (hI : Built I) (hp : Pattern.compile icu e o = .ok p) (hloop : recordLoop p opt = some re)
    (hplain : Unbounded p re) (hverb : ∀ fid < I.loaded.length, re.ast.VerbatimIn (I.data fid))
    (hobj : opt.objective = .exhaustive) (hmax : opt.maxMatches = 0) (plan : Planner) {ms : List Match}
    (h : fullScan icu I p re opt = .ok ms) : find icu I plan p opt = .ok ms := by
  obtain ⟨hre, -⟩ := recordLoop_re hloop
  obtain ⟨-, hparse⟩ := compile_regex hp hre
  obtain ⟨cv, hcv, hbranch⟩ := hI.findRegexBranch_keeps icu opt hplain
  have hraw : findRaw icu I plan p opt = .ok (ms, false) := by
    rw [findRaw_loop plan hloop, hbranch]
    exact hcv.findRegex_eq hI hparse hverb hobj hmax h
  rw [find_eq plan hraw, hmax, if_neg (fun h => h.1 rfl)]

/-! ## Records without a match -/

theorem record_unique {crlf : Bool} {sep : UInt8} {data : Bytes} {r r' : Nat × Nat} {x : Nat}
    (hr : r ∈ records crlf sep data) (hr' : r' ∈ records crlf sep data) (h : r.1 ≤ x ∧ x ≤ r.2) (h' : r'.1 ≤ x ∧ x ≤ r'.2) :
    r = r' := by
  by_contra hne
  have hsymm : Std.Symm (fun a b : Nat × Nat => a.2 < b.1 ∨ b.2 < a.1) := ⟨fun _ _ hlt => hlt.symm⟩
  have happart : r.2 < r'.1 ∨ r'.2 < r.1 :=
    (recordsFrom_apart.imp (fun {a b : Nat × Nat} (hlt : a.2 < b.1) => (Or.inl hlt : a.2 < b.1 ∨ b.2 < a.1))).forall hr hr' hne
  omega

def Match.startsIn (m : Match) (r : Nat × Nat) : Bool := decide (r.1 ≤ m.start) && decide (m.start ≤ r.2)

theorem Match.startsIn_iff {m : Match} {r : Nat × Nat} : m.startsIn r = true ↔ r.1 ≤ m.start ∧ m.start ≤ r.2 := by
  rw [startsIn, Bool.and_eq_true, decide_eq_true_eq, decide_eq_true_eq]

theorem regexFindAll_head {c : VerifierContext} (hlt : c.candidateBegin < c.candidateEnd) {overlapping : Bool} {fid : Nat}
    {ms : List Match} (h : regexFindAll icu re c overlapping fid 0 = .ok ms) : regexSearch icu re c fid = .ok ms.head? := by
  rw [regexFindAll, findAllLoop, if_pos hlt] at h
  obtain ⟨r, hr, h⟩ := bind_ok h
  cases r with
  | none =>
    cases h
    exact hr
  | some m =>
    dsimp only at h
    rw [if_neg (fun h => h.1 rfl)] at h
    obtain ⟨rest, -, h⟩ := bind_ok h
    cases h
    exact hr

theorem regexFindAll_none {c : VerifierContext} (hlt : c.candidateBegin < c.candidateEnd) {overlapping : Bool} {fid : Nat}
    (h : regexSearch icu re c fid = .ok none) : regexFindAll icu re c overlapping fid 0 = .ok [] := by
  rw [regexFindAll, findAllLoop, if_pos hlt]
  exact congrArg (· >>= _) h

section
variable {fid : Nat} {r : Nat × Nat}

theorem recordContext_live (hr : r ∈ records p.opt.crlf opt.recordSeparator (I.data fid)) :
    (recordContext p.opt.crlf opt.recordSeparator (I.data fid) r).candidateBegin <
      (recordContext p.opt.crlf opt.recordSeparator (I.data fid) r).candidateEnd := by
  obtain ⟨e, he⟩ := mem_records hr
  exact Nat.lt_succ_of_le he.bounds.1

theorem recordMatched_eq (hre : p.re = some re) : recordMatched icu I p opt fid r =
    (regexSearch icu re (recordContext p.opt.crlf opt.recordSeparator (I.data fid) r) fid).map Option.isSome := by
  unfold recordMatched
  rw [hre]
  dsimp only
  generalize regexSearch icu re (recordContext p.opt.crlf opt.recordSeparator (I.data fid) r) fid = x
  cases x with
  | error e => rfl
  | ok m => rfl

end

section
variable (hre : p.re = some re) (hmulti : p.opt.multiline = false)
include hre hmulti

theorem recordMatched_any {fid : Nat} (hskip : skipsBinary I opt fid = false) {ms : List Match}
    (h : regexFile icu I p re opt [] fid = .ok ms) {r : Nat × Nat}
    (hr : r ∈ records p.opt.crlf opt.recordSeparator (I.data fid)) :
    recordMatched icu I p opt fid r = .ok (ms.any (·.startsIn r)) := by
  unfold regexFile at h
  rw [hskip, if_neg Bool.false_ne_true, if_neg (fun h => by cases h.1), regexRecords, hmulti, if_neg Bool.false_ne_true] at h
  obtain ⟨hall, rfl⟩ := concatE_eq_ok.1 h
  rw [List.forall_mem_map] at hall
  have hok := hall r hr
  rw [recordMatched_eq hre, regexFindAll_head (recordContext_live hr) hok]
  refine congrArg Except.ok ?_
  rw [Bool.eq_iff_iff, List.any_eq_true]
  constructor
  · intro hsome
    obtain ⟨m, hm⟩ := Option.isSome_iff_exists.1 hsome
    have hmem := List.mem_of_mem_head? hm
    obtain ⟨h1, h2, -⟩ := (findAllLoop_ordered hok).range m hmem
    exact ⟨m, List.mem_flatMap.2 ⟨_, List.mem_map.2 ⟨r, hr, rfl⟩, hmem⟩, Match.startsIn_iff.2 ⟨h1, Nat.le_of_lt_succ h2⟩⟩
  · rintro ⟨m, hm, hin⟩
    obtain ⟨c, hc, hm⟩ := List.mem_flatMap.1 hm
    obtain ⟨r', hr', rfl⟩ := List.mem_map.1 hc
    obtain ⟨h1, h2, -⟩ := (findAllLoop_ordered (hall r' hr')).range m hm
    obtain rfl := record_unique hr hr' (Match.startsIn_iff.1 hin) ⟨h1, Nat.le_of_lt_succ h2⟩
    exact List.isSome_head?.2 (List.ne_nil_of_mem hm)

def unmatchedRecords (I : IndexData) (p : Pattern) (opt : SearchOptions) (ms : List Match) (fid : Nat) : List Match :=
  ((records p.opt.crlf opt.recordSeparator (I.data fid)).filter (fun r => !ms.any (fun m => m.fileId == fid && m.startsIn r))).map
    (fun r => { fileId := fid, start := r.1, stop := r.2 })

/-- **What an inverted search gives of a file** are the records that no match of the file is in. -/
theorem invertedFile_eq {fid : Nat} (hskip : skipsBinary I opt fid = false) {ms : List Match}
    (h : regexFile icu I p re opt [] fid = .ok ms) {all : List Match} (hall : all.filter (fun m => m.fileId == fid) = ms) :
    invertedFile icu I p opt fid = .ok (unmatchedRecords I p opt all fid) := by
  have hrecord : ∀ r ∈ records p.opt.crlf opt.recordSeparator (I.data fid), invertedRecord icu I p opt fid r =
      .ok (if all.any (fun m => m.fileId == fid && m.startsIn r) then [] else [{ fileId := fid, start := r.1, stop := r.2 }]) := by
    intro r hr
    rw [invertedRecord, recordMatched_any hre hmulti hskip h hr, ← hall, List.any_filter]
    rfl
  unfold invertedFile
  rw [hskip, if_neg Bool.false_ne_true]
  refine concatE_eq_ok.2 ⟨fun r hr => by rw [hrecord r hr]; rfl, ?_⟩
  have hnil : ∀ r ∈ records p.opt.crlf opt.recordSeparator (I.data fid),
      (!all.any (fun m => m.fileId == fid && m.startsIn r)) = false → value (invertedRecord icu I p opt fid r) = [] := by
    intro r hr hany
    rw [Bool.not_eq_false'] at hany
    rw [hrecord r hr, hany]
    rfl
  rw [unmatchedRecords, List.map_eq_flatMap, ← flatMap_filter_of_nil _ _ _ hnil]
  refine List.flatMap_congr (fun r hr => ?_)
  obtain ⟨hr, hany⟩ := List.mem_filter.1 hr
  rw [Bool.not_eq_true'] at hany
  rw [hrecord r hr, hany]
  rfl

omit hre in
/-- A file that an inverted search goes through, and that lacks what the optimizer asks for, gives nothing. -/
theorem regexFile_of_inverted {pattern : Bytes} (hparse : parseRegex icu pattern p.opt = .ok re) (hre : p.re = some re)
    {fid : Nat} (hverb : re.ast.VerbatimIn (I.data fid)) (hq : ¬ re.queryIr.InFile (I.data fid)) {ms : List Match}
    (h : invertedFile icu I p opt fid = .ok ms) : regexFile icu I p re opt [] fid = .ok [] := by
  unfold invertedFile at h
  unfold regexFile
  cases hskip : skipsBinary I opt fid with
  | true => rw [if_pos rfl]
  | false =>
    rw [hskip, if_neg Bool.false_ne_true] at h
    rw [if_neg Bool.false_ne_true, if_neg (fun h => by cases h.1), regexRecords, hmulti, if_neg Bool.false_ne_true]
    obtain ⟨hall, -⟩ := concatE_eq_ok.1 h
    have hnone : ∀ c ∈ (records p.opt.crlf opt.recordSeparator (I.data fid)).map
        (recordContext p.opt.crlf opt.recordSeparator (I.data fid)), regexFindAll icu re c opt.overlapping fid 0 = .ok [] := by
      rw [List.forall_mem_map]
      intro r hr
      have hrecord := hall r hr
      rw [invertedRecord, recordMatched_eq hre] at hrecord
      obtain ⟨b, hb, -⟩ := map_ok hrecord
      obtain ⟨found, hfound, -⟩ := map_ok hb
      cases found with
      | none => exact regexFindAll_none (recordContext_live hr) hfound
      | some m => exact absurd (regexSearch_mandatory hparse ⟨rfl, rfl⟩ rfl hverb hfound) hq
    refine concatE_eq_ok.2 ⟨fun c hc => by rw [hnone c hc]; rfl, ?_⟩
    rw [eq_comm, List.flatMap_eq_nil_iff]
    intro c hc
    rw [hnone c hc]
    rfl

end

/-- **An inverted search is the complement of the plain one**: where both return, it gives the records of the files in scope
that no match of the plain search starts in. -/
theorem find_invert_complement (hI : Built I) (hp : Pattern.compile icu e o = .ok p) (hloop : recordLoop p opt = some re)
    (hplain : Unbounded p re) (hverb : ∀ fid < I.loaded.length, re.ast.VerbatimIn (I.data fid))
    (hobj : opt.objective = .exhaustive) (hmax : opt.maxMatches = 0) (hmulti : p.opt.multiline = false) (plan : Planner)
    {ms inv : List Match} (h : find icu I plan p opt = .ok ms)
    (hinv : find icu I plan p { opt with invertMatch := true } = .ok inv) :
    inv = ((scopeFiles I opt).filter (fun fid => !skipsBinary I opt fid)).flatMap (unmatchedRecords I p opt ms) := by
  obtain ⟨hre, -⟩ := recordLoop_re hloop
  obtain ⟨-, hparse⟩ := compile_regex hp hre
  obtain ⟨cv, hcv, hbranch⟩ := hI.findRegexBranch_keeps icu opt hplain
  -- what both searches went through
  have hplainRun : concatE (regexFile icu I p re opt (mandatoryLiteral p re)) (candidateFiles I cv) = .ok ms := by
    obtain ⟨r, hr, rfl, -⟩ := find_ok plan hobj hmax h
    rw [findRaw_loop plan hloop, hbranch, findRegex_never icu I p re opt hobj hmax] at hr
    obtain ⟨ms, hms, rfl⟩ := map_ok hr
    exact hms
  have hinvRun : concatE (invertedFile icu I p opt) (scopeFiles I opt) = .ok inv := by
    have hobj' : ({ opt with invertMatch := true } : SearchOptions).objective = .exhaustive := hobj
    have hmax' : ({ opt with invertMatch := true } : SearchOptions).maxMatches = 0 := hmax
    obtain ⟨r, hr, rfl, -⟩ := find_ok plan hobj' hmax' hinv
    rw [findRaw, if_pos rfl, findInvert_never icu I p _ hobj' hmax'] at hr
    obtain ⟨out, hout, rfl⟩ := map_ok hr
    exact hout
  obtain ⟨hfound, -⟩ := concatE_eq_ok.1 hplainRun
  obtain ⟨hrecords, rfl⟩ := concatE_eq_ok.1 hinvRun
  have hfull : ∀ fid ∈ scopeFiles I opt, regexFile icu I p re opt [] fid = .ok (value (regexFile icu I p re opt [] fid)) := by
    intro fid hfile
    by_cases hq : re.queryIr.InFile (I.data fid)
    · rw [← regexFile_eq_of_inFile hq]
      exact hfound fid (((hI.laid.candidateFiles_spec hcv.sorted).2 fid).2 (hcv.complete fid hfile hq))
    · rw [regexFile_of_inverted hmulti hparse hre (hverb fid (mem_scopeFiles.1 hfile).1) hq (hrecords fid hfile)]
      rfl
  obtain rfl : ms = (scopeFiles I opt).flatMap (fun fid => value (regexFile icu I p re opt [] fid)) := by
    have hscan : fullScan icu I p re opt = .ok _ := concatE_eq_ok.2 ⟨hfull, rfl⟩
    have := hcv.findRegex_eq hI hparse hverb hobj hmax hscan
    rw [findRegex_never icu I p re opt hobj hmax, hplainRun] at this
    exact congrArg Prod.fst (Except.ok.inj this)
  have hfile : ∀ fid ∈ scopeFiles I opt, ((scopeFiles I opt).flatMap (fun fid => value (regexFile icu I p re opt [] fid))).filter
      (fun m => m.fileId == fid) = value (regexFile icu I p re opt [] fid) := by
    intro fid hfile
    have hnodup : (scopeFiles I opt).Nodup := List.nodup_range.filter _
    rw [filter_flatMap_key (k := id) (f := Match.fileId) (· == fid)
      (fun fid' hfile' m hm => regexFile_fileId icu I p re opt (hfull fid' hfile') m hm)]
    rw [show (scopeFiles I opt).filter (fun a => id a == fid) = [fid] by
      rw [show (fun a => id a == fid) = (· == fid) from rfl, List.filter_beq, List.count_eq_one_of_mem hnodup hfile]
      rfl]
    exact List.flatMap_singleton _ _
  rw [← flatMap_filter_of_nil _ (fun fid => !skipsBinary I opt fid)]
  · refine List.flatMap_congr (fun fid hmem => ?_)
    obtain ⟨hmem, hskip⟩ := List.mem_filter.1 hmem
    rw [Bool.not_eq_true'] at hskip
    rw [invertedFile_eq hre hmulti hskip (hfull fid hmem) (hfile fid hmem)]
    rfl
  · intro fid _ hskip
    rw [Bool.not_eq_false'] at hskip
    rw [invertedFile, hskip, if_pos rfl]
    rfl

def twoFiles : List Document :=
  [{ path := [0x66], content := [0x7A, 0x0A, 0x61, 0x62, 0x63, 0x0A] }, { path := [0x67], content := [0x61, 0x7A] }]

theorem twoFiles_found : ∃ I p re ms inv, fromDocuments twoFiles smallChunks = .ok I ∧
    Pattern.compile asciiIcu [0x61, 0x62, 0x2E] {} = .ok p ∧ recordLoop p {} = some re ∧
    boundedRegionRequested re p.opt = false ∧ p.opt.multiline = false ∧ re.ast.sensitiveLiterals = [[0x61, 0x62]] ∧
    fullScan asciiIcu I p re {} = .ok ms ∧ ms.map Match.start = [2] ∧
    find asciiIcu I (fun _ _ => none) p { invertMatch := true } = .ok inv ∧ inv.map Match.stop = [1, 2] := by
  obtain ⟨I, hI, h⟩ := returns_iff.1 (show returns (fromDocuments twoFiles smallChunks) (fun I =>
    returns (Pattern.compile asciiIcu [0x61, 0x62, 0x2E] {}) (fun p =>
      (recordLoop p {}).any (fun re => !boundedRegionRequested re p.opt && !p.opt.multiline &&
        decide (re.ast.sensitiveLiterals = [[0x61, 0x62]]) &&
        returns (fullScan asciiIcu I p re {}) (fun ms => decide (ms.map Match.start = [2])) &&
        returns (find asciiIcu I (fun _ _ => none) p { invertMatch := true })
          (fun inv => decide (inv.map Match.stop = [1, 2]))))) = true by decide +kernel)
  obtain ⟨p, hp, h⟩ := returns_iff.1 h
  obtain ⟨re, hre, h⟩ := (Option.any_eq_true _ _).1 h
  simp only [Bool.and_eq_true, Bool.not_eq_true', decide_eq_true_eq] at h
  obtain ⟨⟨⟨⟨hregion, hmulti⟩, hlits⟩, hscan⟩, hinv⟩ := h
  obtain ⟨ms, hms, hscan⟩ := returns_iff.1 hscan
  obtain ⟨inv, hok, hinv⟩ := returns_iff.1 hinv
  exact ⟨I, p, re, ms, inv, hI, hp, hre, hregion, hmulti, hlits, hms, of_decide_eq_true hscan, hok, of_decide_eq_true hinv⟩

theorem verbatim_ab {n : RegexNode} (h : n.sensitiveLiterals = [[0x61, 0x62]]) (data : Bytes) : n.VerbatimIn data := by
  intro l hl
  rw [h, List.mem_singleton] at hl
  rw [hl, show ([0x61, 0x62] : Bytes) = Utf.utf8 ['a', 'b'] by decide +kernel]
  exact verbatim_utf8 (List.forall_mem_cons.2 ⟨Or.inl (by decide +kernel), List.forall_mem_singleton.2 (Or.inl (by decide +kernel))⟩) data

theorem find_exact_twoFiles : ∃ I p ms, fromDocuments twoFiles smallChunks = .ok I ∧
    Pattern.compile asciiIcu [0x61, 0x62, 0x2E] {} = .ok p ∧ ms.map Match.start = [2] ∧
    find asciiIcu I (fun _ _ => none) p {} = .ok ms := by
  obtain ⟨I, p, re, ms, -, hI, hp, hre, hregion, -, hlits, hms, hstart, -⟩ := twoFiles_found
  have hplain : Unbounded p re := fun h => by
    rw [hregion] at h
    cases h
  exact ⟨I, p, ms, hI, hp, hstart, find_exact (fromDocuments_built hI).1 hp hre hplain (fun fid _ => verbatim_ab hlits _) rfl rfl _ hms⟩

theorem find_invert_complement_twoFiles : ∃ I p ms inv, fromDocuments twoFiles smallChunks = .ok I ∧
    Pattern.compile asciiIcu [0x61, 0x62, 0x2E] {} = .ok p ∧ find asciiIcu I (fun _ _ => none) p {} = .ok ms ∧
    inv.map Match.stop = [1, 2] ∧
    inv = ((scopeFiles I {}).filter (fun fid => !skipsBinary I {} fid)).flatMap (unmatchedRecords I p {} ms) := by
  obtain ⟨I, p, re, ms, inv, hI, hp, hre, hregion, hmulti, hlits, hms, -, hinv, hstop⟩ := twoFiles_found
  have hplain : Unbounded p re := fun h => by
    rw [hregion] at h
    cases h
  have hbuilt := (fromDocuments_built hI).1
  have hverb : ∀ fid < I.loaded.length, re.ast.VerbatimIn (I.data fid) := fun fid _ => verbatim_ab hlits _
  obtain ⟨cv, hcv, hbranch⟩ := hbuilt.findRegexBranch_keeps asciiIcu {} hplain
  have hfind : find asciiIcu I (fun _ _ => none) p {} = .ok ms := by
    have hraw : findRaw asciiIcu I (fun _ _ => none) p {} = .ok (ms, false) := by
      rw [findRaw_loop _ hre, hbranch]
      exact hcv.findRegex_eq hbuilt (compile_regex hp (recordLoop_re hre).1).2 hverb rfl rfl hms
    rw [find_eq _ hraw]
    rfl
  exact ⟨I, p, ms, inv, hI, hp, hfind, hstop, find_invert_complement hbuilt hp hre hplain hverb rfl rfl hmulti _ hfind hinv⟩

def latinFile : List Document := [{ path := [0x66], content := [0x7A, 0xE9] }]

/-- **Where a literal is not read verbatim**, the filter loses the file: `.é` on a byte E9. -/
theorem not_find_exact : ¬ ∀ (icu : Icu) (I : IndexData) (plan : Planner) (e : Bytes) (o : PatternOptions) (p : Pattern)
    (re : RegexProgram) (opt : SearchOptions) (ms : List Match), Built I → Pattern.compile icu e o = .ok p →
      recordLoop p opt = some re → Unbounded p re → opt.objective = .exhaustive → opt.maxMatches = 0 →
        fullScan icu I p re opt = .ok ms → find icu I plan p opt = .ok ms := by
  intro hall
  obtain ⟨I, hI, h⟩ := returns_iff.1 (show returns (fromDocuments latinFile smallChunks) (fun I =>
    returns (Pattern.compile asciiIcu [0x2E, 0xC3, 0xA9] {}) (fun p =>
      (recordLoop p {}).any (fun re => !boundedRegionRequested re p.opt &&
        returns (fullScan asciiIcu I p re {}) (fun ms => !ms.isEmpty) &&
        returns (find asciiIcu I (fun _ _ => none) p {}) List.isEmpty))) = true by decide +kernel)
  obtain ⟨p, hp, h⟩ := returns_iff.1 h
  obtain ⟨re, hre, h⟩ := (Option.any_eq_true _ _).1 h
  simp only [Bool.and_eq_true, Bool.not_eq_true'] at h
  obtain ⟨⟨hregion, hscan⟩, hfind⟩ := h
  obtain ⟨ms, hms, hne⟩ := returns_iff.1 hscan
  obtain ⟨found, hfound, hempty⟩ := returns_iff.1 hfind
  have hplain : Unbounded p re := fun h => by
    rw [hregion] at h
    cases h
  have hexact := hall asciiIcu I (fun _ _ => none) _ _ p re {} ms (fromDocuments_built hI).1 hp hre hplain rfl rfl hms
  rw [hfound] at hexact
  rw [Except.ok.inj hexact] at hempty
  rw [hempty] at hne
  cases hne

end

end Pergrep
