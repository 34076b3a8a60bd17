import Pergrep.Search.Guarded
import Pergrep.Search.Overlap
/-!
# ScopeLaw — `find` in a scope

A scope turns the guarded dispatch off, and every other branch gives in a scope what it gives in all files, less the other
files (`Search.Scope`).  So `find` in a scope is `find` less the other files exactly when the blocks show what the operator
of the guarded dispatch finds in the files of the scope (`find_scope_iff`).  In an index made from documents they do; in a
loaded one whose chunks are cut short a scope may lose matches (`not_find_scope`).
-/
namespace Pergrep

open Substr Emit Throw

/-- The indexes there are: made from documents or a tree, or loaded. -/
inductive Made (I : IndexData) : Prop where
  | built (h : Built I)
  | loaded {world : World} {dir : Dir} {file : Place} {expected : CacheManifest} {manifestAware : Bool}
      (h : loadImpl world dir file expected manifestAware = .ok I)

theorem Made.laid {I : IndexData} : Made I → Laid I
  | .built h => h.laid
  | .loaded h => by
    unfold loadImpl at h
    split at h
    · exact nomatch h
    · exact (loadSnapshot_safe h).laid

section
variable {I : IndexData} (hI : Made I) (icu : Icu) (p : Pattern) {opt : SearchOptions} (hscope : opt.eligibleFileIds ≠ [])
  (hobj : opt.objective = .exhaustive) (hmax : opt.maxMatches = 0)
include hI hscope hobj hmax

/-- **A search in a scope is the search in all files, less the matches of the others**, exactly when the blocks show what the
guarded dispatch finds in the scope. -/
theorem find_scope_iff (plan : Planner) {ms all : List Match} (h : find icu I plan p opt = .ok ms)
    (hall : find icu I plan p { opt with eligibleFileIds := [] } = .ok all) :
    ms = all.filter (fun m => opt.eligibleFileIds.contains m.fileId) ↔
      PlanShows I plan p { opt with eligibleFileIds := [] } (opt.eligibleFileIds.contains ·) := by
  have hlaid := hI.laid
  obtain ⟨r, hr, h⟩ := bind_ok h
  obtain ⟨r₀, hr₀, hall⟩ := bind_ok hall
  simp only [hmax, ne_eq, not_true_eq_false, false_and, if_false] at h hall
  cases h
  cases hall
  change findRaw icu I plan p opt.unscoped = .ok r₀ at hr₀
  change _ ↔ PlanShows I plan p opt.unscoped _
  rw [findRaw] at hr hr₀
  rw [show opt.unscoped.invertMatch = opt.invertMatch from rfl] at hr₀
  cases hinv : opt.invertMatch with
  | true =>
    rw [hinv, if_pos rfl] at hr hr₀
    refine iff_of_true (findInvert_scope hlaid hscope icu p hobj hmax hr hr₀) (fun _ hguard => ?_)
    simp [fixedGuardEligible, show opt.unscoped.invertMatch = true from hinv] at hguard
  | false =>
    rw [hinv, if_neg (by decide)] at hr hr₀
    rw [resultBoundReached_never hobj hmax] at hr
    rw [@resultBoundReached_never opt.unscoped hobj hmax] at hr₀
    cases hre : p.re with
    | none =>
      rw [hre] at hr hr₀
      cases hr
      cases hr₀
      -- a scope turns the guarded dispatch off
      have hoff : fixedGuardEligible I p opt = false := by
        have : opt.eligibleFileIds.isEmpty = false := by rwa [List.isEmpty_eq_false_iff]
        simp [fixedGuardEligible, this]
      rw [hoff, if_neg (by decide), findFixed_scope icu p opt hlaid hscope]
      exact guarded_scope_iff hlaid icu plan opt.unscoped hre (opt.eligibleFileIds.contains ·)
    | some re =>
      refine iff_of_true ?_ (fun hnone => absurd (hre.symm.trans hnone) (by simp))
      rw [hre] at hr hr₀
      dsimp only at hr hr₀
      have hsame : rewritesToFixed p re opt.unscoped = rewritesToFixed p re opt := rfl
      cases hrew : rewritesToFixed p re opt with
      | true =>
        rw [hrew, if_pos rfl] at hr
        rw [hsame, hrew, if_pos rfl] at hr₀
        cases hr
        cases hr₀
        exact findFixed_scope icu _ opt hlaid hscope
      | false =>
        rw [hrew, if_neg (by decide)] at hr
        rw [hsame, hrew, if_neg (by decide)] at hr₀
        exact findRegexBranch_scope hlaid hscope icu p hobj hmax re hr hr₀

end

/-- The second of two files, named twice beside one that is not there. -/
theorem find_scope_iff_straddling : ∃ I, fromDocuments straddlingDocuments smallChunks = .ok I ∧
    find asciiIcu I (fun _ _ => some .wholeFile) { expr := [0x61, 0x61, 0x61, 0x61], opt := { kind := .fixed } }
      { eligibleFileIds := [1, 7, 1] } = .ok [literalMatch 1 4 62] := by
  obtain ⟨I, hI⟩ := straddling_built
  refine ⟨I, hI, ?_⟩
  have hbuilt := (fromDocuments_built hI).1
  have hall : find asciiIcu I (fun _ _ => some .wholeFile) { expr := [0x61, 0x61, 0x61, 0x61], opt := { kind := .fixed } } {} =
      .ok [literalMatch 1 4 62] := by
    have h := findFixed_literal asciiIcu hI (p := { expr := [0x61, 0x61, 0x61, 0x61], opt := { kind := .fixed } }) (by decide)
      (by decide) rfl rfl {} (if fixedGuardEligible I { expr := [0x61, 0x61, 0x61, 0x61], opt := { kind := .fixed } } {}
        then some .wholeFile else none) (fun _ => false)
    rw [pushAll_never] at h
    exact congrArg Except.ok ((congrArg Prod.fst h).trans (by decide +kernel))
  obtain ⟨ms, hms⟩ : ∃ ms, find asciiIcu I (fun _ _ => some .wholeFile)
      { expr := [0x61, 0x61, 0x61, 0x61], opt := { kind := .fixed } } { eligibleFileIds := [1, 7, 1] } = .ok ms := ⟨_, rfl⟩
  rw [hms, (find_scope_iff (.built hbuilt) asciiIcu _ (by decide) rfl rfl _ hms hall).2 (hbuilt.blocks_show _ _ _ _)]
  exact congrArg Except.ok (by decide)

/-- A file with `abcde` at 10, across the end of its first chunk, and at 80. -/
def fencedTree : Tree where
  dirs := [[⟨[97], false, .file ⟨List.replicate 10 0x2E ++ [0x61, 0x62, 0x63, 0x64, 0x65] ++ List.replicate 47 0x2E ++
    [0x61, 0x62, 0x63, 0x64, 0x65] ++ List.replicate 13 0x2E ++ [0x61, 0x62, 0x63, 0x64, 0x65] ++ List.replicate 15 0x2E, 1, true⟩⟩]]
  names_ok := by decide
  names_nodup := by decide

/-- Loaded with its chunks cut, the index of the file gives the three when whole files are scanned, and two when the search is
confined to the file. -/
theorem fenced_finds : ∃ dir I, loadImpl (onlyTree fencedTree) dir { name := [105] } {} false = .ok I ∧
    find asciiIcu I (fun _ _ => some .wholeFile) { expr := [0x61, 0x62, 0x63, 0x64, 0x65], opt := { kind := .fixed } } {} =
      .ok [literalMatch 0 5 10, literalMatch 0 5 62, literalMatch 0 5 80] ∧
    find asciiIcu I (fun _ _ => some .wholeFile) { expr := [0x61, 0x62, 0x63, 0x64, 0x65], opt := { kind := .fixed } }
      { eligibleFileIds := [0] } = .ok [literalMatch 0 5 10, literalMatch 0 5 80] := by
  obtain ⟨I, hI⟩ := (@build_ok fencedTree needleOptions (by decide)).2 (by decide)
  obtain ⟨hbuilt, hcontent, -, hopt, -⟩ := build_built hI
  have hlg : ∀ z ∈ I.chunks, chunkLg z.cut = chunkLg z := by
    rw [hbuilt.chunks_eq, hcontent, hopt]
    decide +kernel
  obtain ⟨dir, hload⟩ := build_load_cut hI (by unfold Tree.Posix; decide) rfl (limits_of_small hI (by decide) (by decide)
    (by decide) (by decide) (by decide +kernel) (by decide +kernel)) hlg
  have hfind : ((build fencedTree needleOptions).toOption.map (fun I =>
      (find asciiIcu (restored (onlyTree fencedTree) I.cut) (fun _ _ => some .wholeFile)
          { expr := [0x61, 0x62, 0x63, 0x64, 0x65], opt := { kind := .fixed } } {},
        find asciiIcu (restored (onlyTree fencedTree) I.cut) (fun _ _ => some .wholeFile)
          { expr := [0x61, 0x62, 0x63, 0x64, 0x65], opt := { kind := .fixed } } { eligibleFileIds := [0] }))) =
      some (.ok [literalMatch 0 5 10, literalMatch 0 5 62, literalMatch 0 5 80],
        .ok [literalMatch 0 5 10, literalMatch 0 5 80]) := by
    decide +kernel
  rw [hI] at hfind
  obtain ⟨h1, h2⟩ := Prod.mk.inj (Option.some.inj hfind)
  exact ⟨dir, _, hload, h1, h2⟩

/-- A scope loses the match that the cut chunk does not show. -/
theorem not_find_scope : ¬ ∀ (icu : Icu) (I : IndexData) (plan : Planner) (p : Pattern) (opt : SearchOptions)
    (ms all : List Match), Made I → opt.eligibleFileIds ≠ [] → opt.objective = .exhaustive → opt.maxMatches = 0 →
      find icu I plan p opt = .ok ms → find icu I plan p { opt with eligibleFileIds := [] } = .ok all →
        ms = all.filter (fun m => opt.eligibleFileIds.contains m.fileId) := by
  intro h
  obtain ⟨dir, I, hload, hall, hms⟩ := fenced_finds
  have hlaw := h asciiIcu I (fun _ _ => some .wholeFile) _ { eligibleFileIds := [0] } _ _ (.loaded hload) (by decide) rfl rfl
    hms hall
  exact absurd hlaw (by decide)

end Pergrep
