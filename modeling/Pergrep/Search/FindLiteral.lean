import Pergrep.Search.Find
import Pergrep.Search.FixedSpec
/-!
# FindLiteral — a search for a literal finds its occurrences

`literalMatches` says what a search for a literal is to return, in terms of the documents alone: in each eligible file,
in order, the occurrences of its bytes, the leftmost ones that do not overlap or all of them.  `find` returns that
(`find_literal`), whatever the chunk, overlap and block sizes, the filters' budgets and the operator the planner picks.
-/
namespace Pergrep

open Substr Emit

/-- Whether a document is searched: in scope, and not binary unless that is asked for. -/
def documentSearched (opt : SearchOptions) (fid : Nat) (d : Document) : Bool :=
  (opt.eligibleFileIds.isEmpty || opt.eligibleFileIds.contains fid) && (opt.includeBinary || !looksBinary d.content)

/-- The matches of a literal: file by file, the greedy leftmost occurrences, or all when overlaps are wanted. -/
def literalMatches (documents : List Document) (q : Bytes) (opt : SearchOptions) : List Match :=
  (byPath documents).zipIdx.flatMap (fun d =>
    if documentSearched opt d.2 d.1 then
      (chosen opt.overlapping q.length 0 (occs d.1.content q 0 d.1.content.length)).1.map (literalMatch d.2 q.length)
    else [])

/-! ## Files and documents -/

theorem flatMap_zipIdx {α β : Type*} (g : α × Nat → List β) : ∀ (as : List α) (k : Nat),
    (as.zipIdx k).flatMap g = (List.range as.length).flatMap (fun i => (as[i]?).elim [] (fun a => g (a, k + i)))
  | [], _ => rfl
  | a :: as, k => by
    rw [List.zipIdx_cons, List.flatMap_cons, flatMap_zipIdx g as, List.length_cons, List.range_succ_eq_map,
      List.flatMap_cons, List.flatMap_map]
    simp only [List.getElem?_cons_zero, Option.elim_some, Nat.add_zero, List.getElem?_cons_succ, Nat.succ_eq_add_one,
      Nat.add_assoc, Nat.add_comm 1]

section
variable {documents : List Document} {iopt : IndexOptions} {I : IndexData} (h : fromDocuments documents iopt = .ok I)
include h

theorem fromDocuments_data {fid : Nat} {d : Document} (hd : (byPath documents)[fid]? = some d) : I.data fid = d.content := by
  obtain ⟨-, hl, -, -⟩ := fromDocuments_built h
  rw [IndexData.data, List.getD_eq_getElem?_getD, hl, List.getElem?_map, hd]
  rfl

theorem fromDocuments_searched (opt : SearchOptions) {fid : Nat} {d : Document} (hd : (byPath documents)[fid]? = some d) :
    (allows I opt.eligibleFileIds fid && !skipsBinary I opt fid) = documentSearched opt fid d := by
  obtain ⟨-, -, hi, -⟩ := fromDocuments_built h
  have hlt := (List.getElem?_eq_some_iff.1 hd).1
  have hempty : I.infos.isEmpty = false := by
    rw [hi, List.isEmpty_eq_false_iff]
    intro hnil
    rw [List.map_eq_nil_iff.1 hnil] at hlt
    exact absurd hlt (Nat.not_lt_zero _)
  have hlen : fid < I.infos.length := by
    rw [hi, List.length_map]
    exact hlt
  have hinfo : I.infos[fid]? = some (fileInfo d) := by
    rw [hi, List.getElem?_map, hd]
    rfl
  rw [allows, skipsBinary, documentSearched, hempty, hinfo, Bool.or_false, decide_eq_true hlen, Bool.true_and, Bool.not_and,
    Bool.not_not]
  rfl

end

/-! ## The result -/

theorem resultBoundReached_never {opt : SearchOptions} (hobj : opt.objective = .exhaustive) (hmax : opt.maxMatches = 0) :
    resultBoundReached opt = fun _ => false := by
  funext out
  rw [resultBoundReached, hobj, hmax]
  rfl

variable (icu : Icu)

/-- **The fixed branch pushes the literal's matches**, as far as the bound lets it. -/
theorem findFixed_literal {documents : List Document} {iopt : IndexOptions} {I : IndexData}
    (h : fromDocuments documents iopt = .ok I) {p : Pattern} (hq : p.expr ≠ []) (hcase : p.icase = false)
    (hword : p.opt.word = false) (hline : p.opt.line = false) (opt : SearchOptions)
    (guarded : Option FixedPhysicalOperator) (full : List Match → Bool) :
    findFixed icu I p opt guarded full = pushAll full [] (literalMatches documents p.expr opt) := by
  obtain ⟨hI, hl, -, -⟩ := fromDocuments_built h
  rw [hI.findFixed_pushes icu p opt hq hcase hword hline guarded full, literalMatches, flatMap_zipIdx, hl, List.length_map]
  congr 1
  refine List.flatMap_congr (fun fid hfid => ?_)
  have hd := List.getElem?_eq_getElem (List.mem_range.1 hfid)
  rw [hd, Option.elim_some, Nat.zero_add, ← fromDocuments_searched h opt hd, ← fromDocuments_data h hd, takeRange]
  cases allows I opt.eligibleFileIds fid with
  | false => rfl
  | true  =>
    cases skipsBinary I opt fid with
    | false => rfl
    | true  => rfl

/-- **A search for a literal returns its occurrences**, for every geometry of the index and every plan. -/
theorem find_literal {documents : List Document} {iopt : IndexOptions} {I : IndexData}
    (h : fromDocuments documents iopt = .ok I) (plan : Planner) {p : Pattern} (hfixed : p.re = none) (hq : p.expr ≠ [])
    (hcase : p.icase = false) (hword : p.opt.word = false) (hline : p.opt.line = false) {opt : SearchOptions}
    (hobj : opt.objective = .exhaustive) (hinvert : opt.invertMatch = false) (hmax : opt.maxMatches = 0) :
    find icu I plan p opt = .ok (literalMatches documents p.expr opt) := by
  have hraw : findRaw icu I plan p opt = .ok (literalMatches documents p.expr opt, false) := by
    rw [findRaw, hinvert, hfixed]
    simp only [Bool.false_eq_true, if_false]
    rw [findFixed_literal icu h hq hcase hword hline, resultBoundReached_never hobj hmax, pushAll_never, List.nil_append]
  rw [find, hraw, hmax]
  rfl

def straddlingDocuments : List Document :=
  [{ path := [0x62], content := List.replicate 62 0x2E ++ [0x61, 0x61, 0x61, 0x61, 0x61] },
   { path := [0x61], content := [0x61, 0x61, 0x62] }]

def smallChunks : IndexOptions := { chunkBytes := 64, chunkOverlap := 32, positionalBlockBytes := 16 }

theorem straddling_built : ∃ I, fromDocuments straddlingDocuments smallChunks = .ok I := by
  cases h : fromDocuments straddlingDocuments smallChunks with
  | ok I => exact ⟨I, rfl⟩
  | error e =>
    have hok : (fromDocuments straddlingDocuments smallChunks).toBool = true := by decide +kernel
    rw [h] at hok
    cases hok

theorem find_literal_straddling : ∃ I, fromDocuments straddlingDocuments smallChunks = .ok I ∧
    find asciiIcu I (fun _ _ => none) { expr := [0x61, 0x61], opt := { kind := .fixed } } {} =
      .ok [literalMatch 0 2 0, literalMatch 1 2 62, literalMatch 1 2 64] := by
  obtain ⟨I, hI⟩ := straddling_built
  refine ⟨I, hI, (find_literal asciiIcu hI _ rfl (by decide) (by decide) rfl rfl rfl rfl rfl).trans ?_⟩
  exact congrArg Except.ok (by decide +kernel)

end Pergrep
