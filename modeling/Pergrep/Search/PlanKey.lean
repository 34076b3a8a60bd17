import Pergrep.Lib.Fnv
import Pergrep.Lib.Greedy
import Pergrep.Lib.PlainText
import Pergrep.Search.Report
/-!
# PlanKey — what a plan is made for

`makePlanKey` takes what a search depends on from the pattern, the options of the search and those of the index, the scope as the
set it is.  Searches with one key give one result (`find_of_planKey`), when the cost model reads the key only, as it does.

`hash` mixes the words of the key one after the other.  They give the key back (`words_injective`), although the pattern and the
scope have no bound, and so keys that differ in one word have different hashes (`hash_eq_iff`).
-/
namespace Pergrep

structure PlanKey where
  patternExpression : Bytes
  patternOptions : PatternOptions
  overlapping : Bool := false
  invertMatch : Bool := false
  filesWithMatches : Bool := false
  filesWithoutMatch : Bool := false
  includeBinary : Bool := false
  maxMatches : Nat := 0
  recordSeparator : UInt8 := 0x0A
  /-- sorted, deduped -/
  eligibleFileIds : List Nat := []
  indexOptions : IndexOptions := {}
  transformedInputIdentity : UInt64 := 0
  objective : SearchObjective := .exhaustive
  deriving DecidableEq

def makePlanKey (p : Pattern) (opt : SearchOptions) (indexOptions : IndexOptions) (transformedInputIdentity : UInt64) : PlanKey where
  patternExpression := p.expr
  patternOptions := p.opt
  objective := opt.objective
  overlapping := opt.overlapping
  invertMatch := opt.invertMatch
  filesWithMatches := opt.filesWithMatches
  filesWithoutMatch := opt.filesWithoutMatch
  includeBinary := opt.includeBinary
  maxMatches := opt.maxMatches
  recordSeparator := opt.recordSeparator
  indexOptions := indexOptions
  transformedInputIdentity := transformedInputIdentity
  eligibleFileIds := sortDistinct opt.eligibleFileIds

/-! ## The hash -/

def SearchObjective.word : SearchObjective → UInt64
  | .exhaustive => 0
  | .firstHit => 1
  | .orderedPrefix => 2

def PatternKind.word : PatternKind → UInt64
  | .regex => 0
  | .fixed => 1

def CaseMode.word : CaseMode → UInt64
  | .sensitive => 0
  | .insensitive => 1
  | .smart => 2

def Engine.word : Engine → UInt64
  | .default_ => 0
  | .pcre2Compat => 1
  | .auto => 2

def boolWord (b : Bool) : UInt64 := if b then 1 else 0

namespace PlanKey

/-- The options of the pattern and of the search, up to the scope. -/
def optionWords (k : PlanKey) : List UInt64 :=
  [k.patternOptions.kind.word, k.patternOptions.caseMode.word, k.patternOptions.engine.word, boolWord k.patternOptions.word,
    boolWord k.patternOptions.line, boolWord k.patternOptions.multiline, boolWord k.patternOptions.dotall,
    boolWord k.patternOptions.unicode, boolWord k.patternOptions.crlf, boolWord k.overlapping, boolWord k.invertMatch,
    boolWord k.filesWithMatches, boolWord k.filesWithoutMatch, boolWord k.includeBinary, UInt64.ofNat k.maxMatches,
    k.recordSeparator.toUInt64]

def indexWords (k : PlanKey) : List UInt64 :=
  [UInt64.ofNat k.indexOptions.chunkBytes, UInt64.ofNat k.indexOptions.chunkOverlap,
    UInt64.ofNat k.indexOptions.positionalBlockBytes, k.indexOptions.positionalBudgetRatio.bits,
    UInt64.ofNat k.indexOptions.plannedQgrams, boolWord k.indexOptions.includeHidden, boolWord k.indexOptions.followSymlinks,
    boolWord k.indexOptions.persistCorpus, k.transformedInputIdentity]

/-- The words in the order they are mixed in; the text of the pattern ends with `0xFF`. -/
def words (k : PlanKey) : List UInt64 :=
  k.objective.word :: (k.patternExpression.map UInt8.toUInt64 ++ 0xFF :: (k.optionWords ++
    UInt64.ofNat k.eligibleFileIds.length :: (k.eligibleFileIds.map UInt64.ofNat ++ k.indexWords)))

def finish (h : UInt64) : UInt64 :=
  let h := h ^^^ h >>> 33
  let h := h * 0xff51afd7ed558ccd
  let h := h ^^^ h >>> 33
  let h := h * 0xc4ceb9fe1a85ec53
  h ^^^ h >>> 33

def hash (k : PlanKey) : UInt64 := finish (k.words.foldl (Fnv.step 1099511628211) 14695981039346656037)

end PlanKey

def semanticModeKey (k : PlanKey) : Bytes := PlainText.ascii "plan-key:" ++ PlainText.decimal k.hash.toNat

/-! ## Searches with one key -/

/-- The planner of `find`: the cost model is given the key. -/
def keyedPlanner (estimate : PlanKey → Option FixedPhysicalOperator) (I : IndexData) : Planner := fun p opt =>
  estimate (makePlanKey p opt I.opt 0)

def SearchOptions.rescoped (opt : SearchOptions) (scope : List Nat) : SearchOptions := { opt with eligibleFileIds := scope }

theorem sortDistinct_eq_iff {s t : List Nat} : sortDistinct s = sortDistinct t ↔ ∀ fid, fid ∈ s ↔ fid ∈ t := by
  constructor
  · intro h fid
    rw [← mem_sortDistinct, h, mem_sortDistinct]
  · intro h
    exact Substr.sorted_ext (sortDistinct_sorted s) (sortDistinct_sorted t) (fun fid => by
      rw [mem_sortDistinct, mem_sortDistinct, h])

section
variable {s t : List Nat} (h : ∀ fid, fid ∈ s ↔ fid ∈ t)
include h

theorem isEmpty_of_mem_iff : s.isEmpty = t.isEmpty := by
  rw [Bool.eq_iff_iff, List.isEmpty_iff, List.isEmpty_iff, List.eq_nil_iff_forall_not_mem, List.eq_nil_iff_forall_not_mem]
  exact forall_congr' fun fid => not_congr (h fid)

theorem contains_of_mem_iff (fid : Nat) : s.contains fid = t.contains fid := by
  rw [Bool.eq_iff_iff, List.contains_iff_mem, List.contains_iff_mem, h]

theorem allows_congr (I : IndexData) (fid : Nat) : allows I s fid = allows I t fid := by
  rw [allows, allows, isEmpty_of_mem_iff h, contains_of_mem_iff h]

theorem chunkCandidates_congr (I : IndexData) (lit : Bytes) : chunkCandidates I s lit = chunkCandidates I t lit := by
  simp only [chunkCandidates, groupCandidates, allows_congr h]

theorem fixedCandidateBlocks_congr (I : IndexData) (q : Bytes) : fixedCandidateBlocks I s q = fixedCandidateBlocks I t q := by
  simp only [fixedCandidateBlocks, allows_congr h, chunkCandidates_congr h]

variable (icu : Icu) (I : IndexData) (p : Pattern) (opt : SearchOptions)

theorem findFixed_congr (guarded : Option FixedPhysicalOperator) (full : List Match → Bool) :
    findFixed icu I p (opt.rescoped s) guarded full = findFixed icu I p (opt.rescoped t) guarded full := by
  simp only [findFixed, findWholeFile, findChunk, findBlocks, findLong, SearchOptions.rescoped, chunkCandidates_congr h,
    fixedCandidateBlocks_congr h]
  rfl

theorem findInvert_congr : findInvert icu I p (opt.rescoped s) = findInvert icu I p (opt.rescoped t) := by
  simp only [findInvert, SearchOptions.rescoped, allows_congr h]
  rfl

theorem findRegexBranch_congr (re : RegexProgram) :
    findRegexBranch icu I p re (opt.rescoped s) = findRegexBranch icu I p re (opt.rescoped t) := by
  simp only [findRegexBranch, regexCandidates, SearchOptions.rescoped, allows_congr h, chunkCandidates_congr h]
  rfl

theorem fixedGuardEligible_congr : fixedGuardEligible I p (opt.rescoped s) = fixedGuardEligible I p (opt.rescoped t) := by
  simp only [fixedGuardEligible, SearchOptions.rescoped, isEmpty_of_mem_iff h]
  rfl

theorem find_congr {plan : Planner} (hplan : plan p (opt.rescoped s) = plan p (opt.rescoped t)) :
    find icu I plan p (opt.rescoped s) = find icu I plan p (opt.rescoped t) := by
  have hraw : findRaw icu I plan p (opt.rescoped s) = findRaw icu I plan p (opt.rescoped t) := by
    simp only [findRaw, findInvert_congr h, findRegexBranch_congr h, fixedGuardEligible_congr h, hplan, findFixed_congr h]
    rfl
  rw [find, hraw]
  rfl

theorem fileListed_congr (fid : Nat) : fileListed I (opt.rescoped s) fid = fileListed I (opt.rescoped t) fid := by
  simp only [fileListed, SearchOptions.rescoped, isEmpty_of_mem_iff h, contains_of_mem_iff h]
  rfl

theorem filesFirst_congr (plan : Planner) (fids : List Nat) :
    filesFirst icu I plan p (opt.rescoped s) fids = filesFirst icu I plan p (opt.rescoped t) fids := by
  induction fids with
  | nil => rfl
  | cons fid fids ih =>
    rw [filesFirst, filesFirst, fileListed_congr h, ih]
    rfl

theorem files_congr {plan : Planner} (hplan : ∀ o : SearchOptions, plan p (o.rescoped s) = plan p (o.rescoped t)) :
    files icu I plan p (opt.rescoped s) = files icu I plan p (opt.rescoped t) := by
  unfold files
  rw [show (opt.rescoped s).objective = opt.objective from rfl, show (opt.rescoped t).objective = opt.objective from rfl]
  split
  · exact filesFirst_congr h icu I p opt plan _
  · have hfind := find_congr h icu I p { opt with objective := .exhaustive, maxMatches := 0 } (hplan _)
    simp only [SearchOptions.rescoped] at hfind
    simp only [fileListed_congr h]
    simp only [SearchOptions.rescoped, hfind]
    rfl

end

theorem compile_unique {icu : Icu} {e e' : Bytes} {o o' : PatternOptions} {p p' : Pattern} (hp : Pattern.compile icu e o = .ok p)
    (hp' : Pattern.compile icu e' o' = .ok p') (hexpr : p.expr = p'.expr) (hopt : p.opt = p'.opt) : p = p' := by
  have h := compile_again icu hp
  rw [hexpr, hopt, compile_again icu hp'] at h
  exact (Except.ok.inj h).symm

/-- **Searches with one plan key give one result**, whatever the cost model makes of the key: the matches are the same, and so
are the files. -/
theorem find_of_planKey {icu : Icu} (I : IndexData) (estimate : PlanKey → Option FixedPhysicalOperator) {e e' : Bytes}
    {o o' : PatternOptions} {p p' : Pattern} (hp : Pattern.compile icu e o = .ok p) (hp' : Pattern.compile icu e' o' = .ok p')
    {opt opt' : SearchOptions} {t t' : UInt64} (hkey : makePlanKey p opt I.opt t = makePlanKey p' opt' I.opt t') :
    find icu I (keyedPlanner estimate I) p opt = find icu I (keyedPlanner estimate I) p' opt' ∧
      files icu I (keyedPlanner estimate I) p opt = files icu I (keyedPlanner estimate I) p' opt' := by
  obtain rfl : p = p' := compile_unique hp hp' (congrArg PlanKey.patternExpression hkey) (congrArg PlanKey.patternOptions hkey)
  have hmem := sortDistinct_eq_iff.1 (congrArg PlanKey.eligibleFileIds hkey)
  have hopt : opt' = opt.rescoped opt'.eligibleFileIds := by
    simp only [makePlanKey, PlanKey.mk.injEq] at hkey
    cases opt
    cases opt'
    simp_all [SearchOptions.rescoped]
  have hplan (o : SearchOptions) : keyedPlanner estimate I p (o.rescoped opt.eligibleFileIds) =
      keyedPlanner estimate I p (o.rescoped opt'.eligibleFileIds) :=
    congrArg estimate (by simp only [makePlanKey, SearchOptions.rescoped, sortDistinct_eq_iff.2 hmem])
  rw [hopt]
  exact ⟨find_congr hmem icu I p opt (hplan opt), files_congr hmem icu I p opt hplan⟩

def scopedIndex : IndexData :=
  let opt := { chunkBytes := 64, chunkOverlap := 32, positionalBlockBytes := 16 }
  match fromDocuments [{ path := [0x66], content := [0x61] }, { path := [0x67], content := [0x62, 0x61] }] opt with
  | .ok I    => I
  | .error _ => { opt }

/-- Ids in any order and as often as they like make one scope. -/
theorem find_of_planKey_scope :
    find asciiIcu scopedIndex (keyedPlanner (fun _ => some .chunk) scopedIndex) { expr := [0x61], opt := { kind := .fixed } }
        { eligibleFileIds := [1, 0, 1] } =
      find asciiIcu scopedIndex (keyedPlanner (fun _ => some .chunk) scopedIndex) { expr := [0x61], opt := { kind := .fixed } }
        { eligibleFileIds := [0, 1] } ∧
    Throw.returns (find asciiIcu scopedIndex (keyedPlanner (fun _ => some .chunk) scopedIndex) { expr := [0x61], opt := { kind := .fixed } }
        { eligibleFileIds := [0, 1] })
      (fun ms => ms.map (fun m => (m.fileId, m.start, m.stop)) == [(0, 0, 1), (1, 1, 2)]) = true := by
  have hp : Pattern.compile asciiIcu [0x61] { kind := .fixed } = .ok { expr := [0x61], opt := { kind := .fixed } } := rfl
  have hids : sortDistinct [1, 0, 1] = sortDistinct [0, 1] := by decide
  have hkey : makePlanKey { expr := [0x61], opt := { kind := .fixed } } { eligibleFileIds := [1, 0, 1] } scopedIndex.opt 0 =
      makePlanKey { expr := [0x61], opt := { kind := .fixed } } { eligibleFileIds := [0, 1] } scopedIndex.opt 0 := by
    simp only [makePlanKey, hids]
  exact ⟨(find_of_planKey scopedIndex _ hp hp hkey).1, by decide +kernel⟩

/-! ## Keys with one hash -/

namespace PlanKey

/-- The fields of the key are words, and its scope ascends. -/
structure Fits (k : PlanKey) : Prop where
  ascending : k.eligibleFileIds.Pairwise (· < ·)
  ids : ∀ fid ∈ k.eligibleFileIds, fid < 2 ^ 32
  count : k.eligibleFileIds.length < 2 ^ 64
  maxMatches : k.maxMatches < 2 ^ 64
  chunkBytes : k.indexOptions.chunkBytes < 2 ^ 64
  chunkOverlap : k.indexOptions.chunkOverlap < 2 ^ 64
  positionalBlockBytes : k.indexOptions.positionalBlockBytes < 2 ^ 64
  plannedQgrams : k.indexOptions.plannedQgrams < 2 ^ 64

theorem ofNat_inj {m n : Nat} (hm : m < 2 ^ 64) (hn : n < 2 ^ 64) (h : UInt64.ofNat m = UInt64.ofNat n) : m = n := by
  have h' := congrArg UInt64.toNat h
  rwa [UInt64.toNat_ofNat_of_lt' hm, UInt64.toNat_ofNat_of_lt' hn] at h'

theorem boolWord_inj {a b : Bool} (h : boolWord a = boolWord b) : a = b := by
  cases a <;> cases b <;> first | rfl | cases h

theorem optionWords_small (k : PlanKey) : ∀ w ∈ k.optionWords.take 14, w.toNat ≤ 2 := by
  have hbool (b : Bool) : (boolWord b).toNat ≤ 2 := by cases b <;> decide
  have hkind : k.patternOptions.kind.word.toNat ≤ 2 := by cases k.patternOptions.kind <;> decide
  have hcase : k.patternOptions.caseMode.word.toNat ≤ 2 := by cases k.patternOptions.caseMode <;> decide
  have hengine : k.patternOptions.engine.word.toNat ≤ 2 := by cases k.patternOptions.engine <;> decide
  simp [optionWords, hbool, hkind, hcase, hengine]

theorem optionWords_at (k : PlanKey) {j : Nat} (hj : j < 14) : ∃ w, k.optionWords[j]? = some w ∧ w.toNat ≤ 2 := by
  have hlt : j < (k.optionWords.take 14).length := hj
  refine ⟨_, ?_, optionWords_small k _ (List.getElem_mem hlt)⟩
  rw [List.getElem_take]
  exact List.getElem?_eq_getElem _

theorem words_after (k : PlanKey) (j : Nat) : k.words[1 + k.patternExpression.length + j]? =
    (0xFF :: (k.optionWords ++ UInt64.ofNat k.eligibleFileIds.length ::
      (k.eligibleFileIds.map UInt64.ofNat ++ k.indexWords)))[j]? := by
  rw [words, Nat.add_assoc, Nat.add_comm 1, List.getElem?_cons_succ,
    List.getElem?_append_right (by rw [List.length_map]; exact Nat.le_add_right _ _), List.length_map, Nat.add_sub_cancel_left]

theorem words_option (k : PlanKey) {j : Nat} (hj : j < 16) :
    k.words[1 + k.patternExpression.length + (1 + j)]? = k.optionWords[j]? := by
  rw [words_after, Nat.add_comm 1, List.getElem?_cons_succ, List.getElem?_append_left hj]

theorem words_count (k : PlanKey) :
    k.words[1 + k.patternExpression.length + 17]? = some (UInt64.ofNat k.eligibleFileIds.length) := by
  rw [words_after]
  rfl

theorem words_id (k : PlanKey) {j : Nat} (hj : j < k.eligibleFileIds.length) :
    k.words[1 + k.patternExpression.length + (18 + j)]? = some (UInt64.ofNat k.eligibleFileIds[j]) := by
  rw [words_after, show 18 + j = j + 1 + 16 + 1 by omega, List.getElem?_cons_succ,
    List.getElem?_append_right (show k.optionWords.length ≤ j + 1 + 16 from Nat.le_add_left _ _),
    show j + 1 + 16 - k.optionWords.length = j + 1 from rfl, List.getElem?_cons_succ,
    List.getElem?_append_left (by rwa [List.length_map]), List.getElem?_map, List.getElem?_eq_getElem hj]
  rfl

theorem words_length (k : PlanKey) : k.words.length = k.patternExpression.length + k.eligibleFileIds.length + 28 := by
  simp only [words, optionWords, indexWords, List.length_cons, List.length_append, List.length_map, List.length_nil]
  omega

theorem le_getElem_of_ascending {l : List Nat} (h : l.Pairwise (· < ·)) {j : Nat} (hj : j < l.length) : j ≤ l[j] := by
  induction j with
  | zero => exact Nat.zero_le _
  | succ j ih => exact Nat.lt_of_le_of_lt (ih (Nat.lt_of_succ_lt hj)) (List.pairwise_iff_getElem.1 h _ _ _ hj (Nat.lt_succ_self j))

/-- **A longer pattern has other words**: what the one has as options, as the count or as ids the other would have as text, as the
end of it, or as options. -/
theorem words_ne_of_lt {k k' : PlanKey} (hk : k.Fits) (hlt : k.patternExpression.length < k'.patternExpression.length) :
    k.words ≠ k'.words := by
  intro h
  obtain ⟨d, hd⟩ := Nat.exists_eq_add_of_lt hlt
  have hlen := congrArg List.length h
  rw [words_length, words_length] at hlen
  have hids : d + 1 ≤ k.eligibleFileIds.length := by omega
  rcases Nat.lt_or_ge d 14 with h14 | h14
  · -- an option is the byte after the text
    obtain ⟨w, hw, hsmall⟩ := optionWords_at k h14
    have hat := words_option k (show d < 16 by omega)
    rw [hw, h, show 1 + k.patternExpression.length + (1 + d) = 1 + k'.patternExpression.length + 0 by omega, words_after] at hat
    cases hat
    exact absurd hsmall (by decide)
  rcases Nat.lt_or_ge d 16 with h16 | h16
  · -- the count is an option
    obtain ⟨w, hw, hsmall⟩ := optionWords_at k' (show 15 - d < 14 by omega)
    have hat := words_option k' (show 15 - d < 16 by omega)
    rw [hw, ← h, show 1 + k'.patternExpression.length + (1 + (15 - d)) = 1 + k.patternExpression.length + 17 by omega,
      words_count] at hat
    rw [← Option.some.inj hat, UInt64.toNat_ofNat_of_lt' hk.count] at hsmall
    omega
  · -- an id is an option, and there are too many before it
    obtain ⟨w, hw, hsmall⟩ := optionWords_at k' (show 3 < 14 by omega)
    have hat := words_option k' (show 3 < 16 by omega)
    have hj : d - 13 < k.eligibleFileIds.length := by omega
    rw [hw, ← h, show 1 + k'.patternExpression.length + (1 + 3) = 1 + k.patternExpression.length + (18 + (d - 13)) by omega,
      words_id k hj] at hat
    have hid := hk.ids _ (List.getElem_mem hj)
    have hge := le_getElem_of_ascending hk.ascending hj
    rw [← Option.some.inj hat, UInt64.toNat_ofNat_of_lt' (Nat.lt_trans hid (by decide))] at hsmall
    omega

theorem map_ofNat_inj : ∀ {l l' : List Nat}, (∀ n ∈ l, n < 2 ^ 64) → (∀ n ∈ l', n < 2 ^ 64) →
    l.map UInt64.ofNat = l'.map UInt64.ofNat → l = l'
  | [], [], _, _, _ => rfl
  | [], _ :: _, _, _, h => by cases h
  | _ :: _, [], _, _, h => by cases h
  | a :: l, b :: l', hl, hl', h => by
    rw [List.forall_mem_cons] at hl hl'
    simp only [List.map_cons, List.cons.injEq] at h
    rw [ofNat_inj hl.1 hl'.1 h.1, map_ofNat_inj hl.2 hl'.2 h.2]

section
variable {k k' : PlanKey} (hk : k.Fits) (hk' : k'.Fits)
include hk hk'

theorem optionWords_inj (h : k.optionWords = k'.optionWords) : k.patternOptions = k'.patternOptions ∧
    k.overlapping = k'.overlapping ∧ k.invertMatch = k'.invertMatch ∧ k.filesWithMatches = k'.filesWithMatches ∧
    k.filesWithoutMatch = k'.filesWithoutMatch ∧ k.includeBinary = k'.includeBinary ∧ k.maxMatches = k'.maxMatches ∧
    k.recordSeparator = k'.recordSeparator := by
  have hkind {a b : PatternKind} (h : a.word = b.word) : a = b := by cases a <;> cases b <;> first | rfl | cases h
  have hcase {a b : CaseMode} (h : a.word = b.word) : a = b := by cases a <;> cases b <;> first | rfl | cases h
  have hengine {a b : Engine} (h : a.word = b.word) : a = b := by cases a <;> cases b <;> first | rfl | cases h
  simp only [optionWords, List.cons.injEq] at h
  obtain ⟨h1, h2, h3, h4, h5, h6, h7, h8, h9, h10, h11, h12, h13, h14, h15, h16, -⟩ := h
  refine ⟨?_, boolWord_inj h10, boolWord_inj h11, boolWord_inj h12, boolWord_inj h13, boolWord_inj h14,
    ofNat_inj hk.maxMatches hk'.maxMatches h15, UInt8.toUInt64_inj.1 h16⟩
  have hext (a b : PatternOptions) (hs : a.kind = b.kind ∧ a.caseMode = b.caseMode ∧ a.engine = b.engine ∧ a.word = b.word ∧
      a.line = b.line ∧ a.multiline = b.multiline ∧ a.dotall = b.dotall ∧ a.unicode = b.unicode ∧ a.crlf = b.crlf) : a = b := by
    cases a
    cases b
    simp_all
  exact hext _ _ ⟨hkind h1, hcase h2, hengine h3, boolWord_inj h4, boolWord_inj h5, boolWord_inj h6, boolWord_inj h7,
    boolWord_inj h8, boolWord_inj h9⟩

theorem indexWords_inj (h : k.indexWords = k'.indexWords) : k.indexOptions = k'.indexOptions ∧
    k.transformedInputIdentity = k'.transformedInputIdentity := by
  simp only [indexWords, List.cons.injEq] at h
  obtain ⟨h1, h2, h3, h4, h5, h6, h7, h8, h9, -⟩ := h
  refine ⟨?_, h9⟩
  have hext (a b : IndexOptions) (hs : a.chunkBytes = b.chunkBytes ∧ a.chunkOverlap = b.chunkOverlap ∧
      a.positionalBlockBytes = b.positionalBlockBytes ∧ a.positionalBudgetRatio.bits = b.positionalBudgetRatio.bits ∧
      a.plannedQgrams = b.plannedQgrams ∧ a.includeHidden = b.includeHidden ∧ a.followSymlinks = b.followSymlinks ∧
      a.persistCorpus = b.persistCorpus) : a = b := by
    obtain ⟨_, _, _, ⟨_⟩, _, _, _, _⟩ := a
    obtain ⟨_, _, _, ⟨_⟩, _, _, _, _⟩ := b
    simp_all
  exact hext _ _ ⟨ofNat_inj hk.chunkBytes hk'.chunkBytes h1, ofNat_inj hk.chunkOverlap hk'.chunkOverlap h2,
    ofNat_inj hk.positionalBlockBytes hk'.positionalBlockBytes h3, h4, ofNat_inj hk.plannedQgrams hk'.plannedQgrams h5,
    boolWord_inj h6, boolWord_inj h7, boolWord_inj h8⟩

/-- **The words of a key give it back.** -/
theorem words_injective (h : k.words = k'.words) : k = k' := by
  -- the texts are of one length, and so the parts are in the same places
  have hlen : k.patternExpression.length = k'.patternExpression.length := by
    rcases Nat.lt_trichotomy k.patternExpression.length k'.patternExpression.length with hlt | heq | hgt
    · exact absurd h (words_ne_of_lt hk hlt)
    · exact heq
    · exact absurd h.symm (words_ne_of_lt hk' hgt)
  have hobjective {a b : SearchObjective} (h : a.word = b.word) : a = b := by cases a <;> cases b <;> first | rfl | cases h
  simp only [words, List.cons.injEq] at h
  obtain ⟨hobj, h⟩ := h
  obtain ⟨hexpr, h⟩ := List.append_inj h (by rw [List.length_map, List.length_map, hlen])
  obtain ⟨hopts, h⟩ := List.append_inj (List.cons.inj h).2 rfl
  have hcount := ofNat_inj hk.count hk'.count (List.cons.inj h).1
  obtain ⟨hids, hindex⟩ := List.append_inj (List.cons.inj h).2 (by rw [List.length_map, List.length_map, hcount])
  have hwide : (2 : Nat) ^ 32 < 2 ^ 64 := by decide
  have hids := map_ofNat_inj (fun n hn => Nat.lt_trans (hk.ids n hn) hwide) (fun n hn => Nat.lt_trans (hk'.ids n hn) hwide) hids
  have hexpr := List.map_injective_iff.2 (fun _ _ => UInt8.toUInt64_inj.1) hexpr
  have hopts := optionWords_inj hk hk' hopts
  have hindex := indexWords_inj hk hk' hindex
  have hobj := hobjective hobj
  cases k
  cases k'
  simp_all

end

theorem finish_injective : Function.Injective finish := by
  have hshift : Function.Injective (fun h : UInt64 => h ^^^ h >>> 33) := fun x y hxy => by
    have hbits := congrArg UInt64.toBitVec hxy
    simp only [UInt64.toBitVec_xor, UInt64.toBitVec_shiftRight] at hbits
    exact UInt64.toBitVec_inj.1 ((Fnv.xorShift_involutive (show 64 ≤ 33 + 33 by decide)).injective hbits)
  have h1 : (0xff51afd7ed558ccd : UInt64) * 5725274745694666757 = 1 := by decide
  have h2 : (0xc4ceb9fe1a85ec53 : UInt64) * 11291846944257947611 = 1 := by decide
  exact hshift.comp ((Fnv.mul_injective h2).comp (hshift.comp ((Fnv.mul_injective h1).comp hshift)))

/-- **Keys that differ in one word have different hashes**, and print as different keys. -/
theorem hash_eq_iff {k k' : PlanKey} (hk : k.Fits) (hk' : k'.Fits) {i : Nat} {w : UInt64} (h : k'.words = k.words.set i w) :
    (k'.hash = k.hash ↔ k' = k) ∧ (semanticModeKey k' = semanticModeKey k ↔ k' = k) := by
  have hhash : k'.hash = k.hash → k' = k := by
    intro hhash
    refine words_injective hk' hk ?_
    rw [h]
    by_cases hi : i < k.words.length
    · by_cases hw : w = k.words[i]
      · rw [hw, List.set_getElem_self]
      · have hmixed := finish_injective hhash
        rw [h] at hmixed
        exact absurd hmixed
          (Fnv.mix_set_ne (Fnv.step_injective Fnv.prime_inverse) (Fnv.step_word_injective Fnv.prime_inverse) hi hw _)
    · exact List.set_eq_of_length_le (Nat.le_of_not_lt hi)
  refine ⟨⟨hhash, fun heq => by rw [heq]⟩, ⟨fun hprint => hhash ?_, fun heq => by rw [heq]⟩⟩
  have hdigits := congrArg PlainText.digitsValue (List.append_cancel_left hprint)
  rw [PlainText.digitsValue_decimal, PlainText.digitsValue_decimal] at hdigits
  exact UInt64.toNat_inj.1 hdigits

/-- Two files are searched for `a` and a byte that looks like the end of the text. -/
def scopedIndexKey (overlapping : Bool) : PlanKey :=
  { patternExpression := [0x61, 0xFF], patternOptions := {}, overlapping := overlapping, eligibleFileIds := [3, 5] }

theorem scopedIndexKey_fits (overlapping : Bool) : (scopedIndexKey overlapping).Fits := by
  cases overlapping <;> constructor <;> decide

theorem hash_ne_overlapping : (scopedIndexKey true).hash ≠ (scopedIndexKey false).hash := fun heq =>
  have h := hash_eq_iff (scopedIndexKey_fits false) (scopedIndexKey_fits true) (i := 13) (w := 1) (by decide)
  absurd (congrArg PlanKey.overlapping (h.1.1 heq)) (by decide)

end PlanKey

end Pergrep
