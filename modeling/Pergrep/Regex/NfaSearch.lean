import Pergrep.Regex.LiteralScan
import Pergrep.Regex.ParserSpec
import Pergrep.Regex.Thompson
/-!
# NfaSearch — what `nfa_search` answers, in terms of spans

`parseRegex_ok` reads `parse_regex` back: `Regular` is what it makes of a pattern without back-references and
look-arounds.  With no prefixes to jump by, `nfaSearch` answers exactly when a candidate start has a span
(`Regular.nfaSearch_isSome`), and what it answers is one (`Regular.nfaSearch_span`), on the fast path and in the
simulation alike.
-/
namespace Pergrep

open Wiring NfaCompiler Throw

/-! ## What `parse_regex` makes -/

theorem wrap_wf {opt : PatternOptions} {n : RegexNode} (h : n.wf = true) : (wrap opt n).wf = true := by
  unfold wrap
  simp only
  split
  · simp [RegexNode.wf, RegexNode.wfAll, h]
  · split
    · simp [RegexNode.wf, RegexNode.wfAll, h]
    · exact h

section
variable (icu : Icu) (p : RegexProgram)

/-- A program of a regular pattern, whatever its query representation. -/
structure Regular : Prop where
  wf : p.ast.wf = true
  tables : p.Tables
  compiled : ∃ start, p.nfaStart = some start ∧ compile p.ast = .ok (p.nfa, start)
  icaseLiteral : ∀ f l, p.ast = .literal f l → f.icase = true → p.icaseLiteral = (runes l).map icu.foldCase

variable {icu p}

/-- **What a successful `parse_regex` returns.** -/
theorem parseRegex_ok {pattern : Bytes} {opt : PatternOptions} (h : parseRegex icu pattern opt = .ok p) :
    ∃ r, Parser.parse icu pattern opt = .ok r ∧ p.ast = wrap opt r.ast ∧ p.groups = r.groups ∧ p.extended = r.extended ∧
      p.icaseLiteral = icaseLiteralOf icu r.ast r.extended ∧ p.queryIr = analyzeQuery r.ast r.extended ∧ p.Tables ∧
      (p.extended = false → ∃ start, p.nfaStart = some start ∧ compile p.ast = .ok (p.nfa, start)) := by
  unfold parseRegex at h
  obtain ⟨r, h1, h2⟩ := bind_ok h
  clear h
  dsimp only at h2
  split at h2
  · cases h2
  · split at h2
    · rename_i hx
      cases h2
      exact ⟨r, h1, rfl, rfl, rfl, rfl, rfl, rfl, fun hf => absurd hx (by simpa using hf)⟩
    · obtain ⟨⟨nfa, start⟩, h3, h4⟩ := bind_ok h2
      cases h4
      exact ⟨r, h1, rfl, rfl, rfl, rfl, rfl, rfl, fun _ => ⟨start, rfl, h3⟩⟩

theorem wrap_literal {opt : PatternOptions} {n : RegexNode} {f : NodeFlags} {l : Bytes} (h : wrap opt n = .literal f l) :
    n = .literal f l := by
  unfold wrap at h
  simp only at h
  split at h
  · cases h
  · split at h
    · cases h
    · exact h

theorem parseRegex_regular {pattern : Bytes} {opt : PatternOptions} (h : parseRegex icu pattern opt = .ok p)
    (hx : p.extended = false) : Regular icu p := by
  obtain ⟨r, h1, hast, -, hext, hlit, -, htab, hcomp⟩ := parseRegex_ok h
  refine ⟨by rw [hast]; exact wrap_wf (Parser.parse_wf h1), htab, hcomp hx, fun f l hl hi => ?_⟩
  rw [hast] at hl
  rw [hlit, wrap_literal hl, icaseLiteralOf, ← hext, hx]
  simp [hi]

theorem parseRegex_extended {pattern : Bytes} {opt : PatternOptions} (h : parseRegex icu pattern opt = .ok p)
    (hx : p.extended = true) : p.nfaStart = none := by
  unfold parseRegex at h
  obtain ⟨r, -, h⟩ := bind_ok h
  dsimp only at h
  split at h
  · cases h
  · split at h
    · cases h
      rfl
    · rename_i hr
      obtain ⟨⟨nfa, start⟩, -, h⟩ := bind_ok h
      cases h
      exact absurd hx hr

theorem Regular.withQuery (h : Regular icu p) (ir : QueryIR) : Regular icu { p with queryIr := ir } :=
  ⟨h.wf, h.tables, h.compiled, h.icaseLiteral⟩

/-! ## The program and its spans -/

/-- **A path from the start to the match is a span of the tree.** -/
theorem Regular.loaded (h : Regular icu p) : ∃ start m, Loaded p start m ∧
    ∀ (c : VerifierContext) (s e : Nat), CReach icu p c (start, s) (m, e) ↔ spans icu c p.ast s e := by
  obtain ⟨start, hstart, hcomp⟩ := h.compiled
  have hc := compile_spec h.wf hcomp
  obtain ⟨m, hlt, hm, hpath⟩ := hc.accept
  refine ⟨start, m, ⟨h.tables, hstart, hc.start_lt, hm, hlt⟩, fun c s e => ?_⟩
  rw [creach_iff_path, spans_iff_lang]
  unfold langSpan
  exact exists_congr (fun w => and_congr_left' (hpath w))

/-- **The compiled program is the tree.**  The words along the paths from `nfa_start` to a `Match` instruction are the
language of the tree, and an instruction that can be reached has every successor it reads, inside the program. -/
theorem compiled_paths {pattern : Bytes} {opt : PatternOptions} (hp : parseRegex icu pattern opt = .ok p)
    (hx : p.extended = false) : ∃ start, p.nfaStart = some start ∧
      (∀ w, (∃ m i, p.nfa[m]? = some i ∧ i.op = .match_ ∧ WordPath (wiring p.nfa) start w m) ↔ w ∈ lang p.ast) ∧
      ∀ n, Relation.ReflTransGen (Step (wiring p.nfa)) start n → n < p.nfa.length ∧
        ∀ y, (wiring p.nfa).edge n y ≠ none → ∃ t, (wiring p.nfa).succ n y = some t ∧ t < p.nfa.length := by
  have h := parseRegex_regular hp hx
  obtain ⟨start, hstart, hcomp⟩ := h.compiled
  have hc := compile_spec h.wf hcomp
  obtain ⟨m, hlt, hm, hpath⟩ := hc.accept
  refine ⟨start, hstart, fun w => ?_, fun n hn => ⟨?_, hc.closed n hn⟩⟩
  · rw [← hpath w]
    constructor
    · rintro ⟨k, i, hi, hop, hw⟩
      rwa [(hm k i hi).1 hop] at hw
    · intro hw
      have hi := List.getElem?_eq_getElem hlt
      exact ⟨m, _, hi, (hm m _ hi).2 rfl, hw⟩
  · induction hn with
    | refl => exact hc.start_lt
    | tail hk hstep _ =>
      obtain ⟨y, l, he, hs⟩ := hstep
      obtain ⟨t, ht, hlt⟩ := hc.closed _ hk y (by simp [he])
      rw [hs] at ht
      cases ht
      exact hlt

/-! ## The answer -/

theorem usesLiteralScan_iff (h : usesLiteralScan p = true) :
    ∃ f l, p.ast = .literal f l ∧ f.icase = true ∧ l ≠ [] ∧ p.icaseLiteral ≠ [] := by
  unfold usesLiteralScan at h
  split at h
  · rename_i f l hl
    simp only [Bool.and_eq_true, Bool.not_eq_true', List.isEmpty_eq_false_iff] at h
    exact ⟨f, l, hl, h.1.1.2, h.1.2, h.2⟩
  · cases h

/-- **`nfa_search` finds a span when there is one, and only spans.** -/
theorem Regular.nfaSearch_spec (hf : icu.FoldsAscii) (h : Regular icu p) (hp : p.queryIr.prefixes = [])
    {c : VerifierContext} (hv : c.Valid) (fileId : Nat) :
    (∀ r, nfaSearch icu p c fileId = some r → CandidateStart c r.start ∧ spans icu c p.ast r.start r.stop) ∧
      (nfaSearch icu p c fileId = none → ∀ s e, CandidateStart c s → ¬ spans icu c p.ast s e) := by
  obtain ⟨start, m, hl, hspan⟩ := h.loaded
  have hlive : ¬ ((!c.validate || p.nfaStart.isNone) = true) := by
    rw [(VerifierContext.validate_iff c).2 hv, hl.start_eq]
    simp
  unfold nfaSearch
  rw [if_neg hlive]
  by_cases hlit : usesLiteralScan p = true
  · obtain ⟨f, l, hast, hi, -, hne⟩ := usesLiteralScan_iff hlit
    have hrunes := h.icaseLiteral f l hast hi
    have hle : min c.candidateEnd c.recordEnd ≤ c.recordEnd := Nat.min_le_right _ _
    have hread : ∀ s e, contextLiteralAtValidated icu c p.icaseLiteral s = some e ↔ spans icu c p.ast s e := by
      intro s e
      rw [hrunes, contextLiteralAtValidated_iff hf hi, hast, spans]
    rw [if_pos hlit]
    constructor
    · intro r hr
      obtain ⟨⟨s, e⟩, hscan, rfl⟩ := Option.map_eq_some_iff.1 hr
      obtain ⟨h1, h2, h3, -⟩ := literalScan_some hv hle _ hv.candidate_ge hscan
      exact ⟨⟨h1, Nat.lt_of_lt_of_le h2 (Nat.min_le_left _ _)⟩, (hread s e).1 h3⟩
    · intro hnone s e hs hspan'
      have hscan : literalScan icu c p.icaseLiteral (min c.candidateEnd c.recordEnd) (simFuel c) c.candidateBegin = none := by
        simpa using hnone
      have hs' := (hread s e).2 hspan'
      have := literalScan_none hv hne hle (simFuel c) hv.candidate_ge (by unfold simFuel; omega) hscan s hs.1
        (Nat.lt_min.2 ⟨hs.2, contextLiteralAtValidated_lt hv hne hs'⟩)
      rw [hs'] at this
      cases this
  · rw [if_neg hlit]
    constructor
    · intro r hr
      obtain ⟨t, ht, rfl⟩ := Option.map_eq_some_iff.1 hr
      have hsound : Sound icu p c start m (RChain c c.candidateBegin) (simInit p c) :=
        ⟨.refl, fun t ht => absurd ht List.not_mem_nil, fun t ht => by cases ht⟩
      obtain ⟨h1, h2, h3⟩ := simLoop_sound hl (JumpSafe.of_nil hp _) (fun _ _ hq hs => hq.tail hs) (simFuel c)
        simInit_inv hsound t ht
      exact ⟨⟨h1, h2⟩, (hspan c _ _).1 h3⟩
    · intro hnone s e hs hsp
      have hbest : (simLoop icu p c (simFuel c) (simInit p c)).best = none := by simpa using hnone
      exact simLoop_complete hv hl hp (simFuel c) (searching_init hv) (by simp only [simInit, simFuel]; omega) hbest s e hs
        ((hspan c s e).2 hsp)

/-- **Existence and soundness of the simulation.**  A program of a regular pattern, with no prefixes to jump by, finds a
match exactly when a candidate start has a span in the tree's denotation, and what it reports is such a span. -/
theorem nfaSearch_finds_spans (hf : icu.FoldsAscii) {pattern : Bytes} {opt : PatternOptions}
    (hp : parseRegex icu pattern opt = .ok p) (hx : p.extended = false) {ir : QueryIR} (hir : ir.prefixes = [])
    {c : VerifierContext} (hv : c.validate = true) (fileId : Nat) :
    ((nfaSearch icu { p with queryIr := ir } c fileId).isSome = true ↔
        ∃ s e, CandidateStart c s ∧ spans icu c p.ast s e) ∧
      ∀ r, nfaSearch icu { p with queryIr := ir } c fileId = some r →
        CandidateStart c r.start ∧ spans icu c p.ast r.start r.stop := by
  obtain ⟨hsound, hcomplete⟩ :=
    ((parseRegex_regular hp hx).withQuery ir).nfaSearch_spec hf hir ((VerifierContext.validate_iff c).1 hv) fileId
  refine ⟨⟨fun h => ?_, fun ⟨s, e, hs, hspan⟩ => ?_⟩, hsound⟩
  · obtain ⟨r, hr⟩ := Option.isSome_iff_exists.1 h
    exact ⟨r.start, r.stop, hsound r hr⟩
  · by_contra hno
    exact hcomplete (by simpa using hno) s e hs hspan

end

/-! ## On a text -/

def parsesTo (icu : Icu) (pattern : Bytes) (opt : PatternOptions) (test : RegexProgram → Bool) : Bool :=
  match parseRegex icu pattern opt with
  | .ok p    => test p
  | .error _ => false

theorem parsesTo_iff {icu : Icu} {pattern : Bytes} {opt : PatternOptions} {test : RegexProgram → Bool} :
    parsesTo icu pattern opt test = true ↔ ∃ p, parseRegex icu pattern opt = .ok p ∧ test p = true := by
  unfold parsesTo
  cases parseRegex icu pattern opt <;> simp

/-- The context of a text that is one record, without its line feed. -/
def textContext (text : Bytes) : VerifierContext :=
  { source := text, sourceEnd := text.length, recordEnd := text.length, candidateEnd := text.length + 1 }

/-- `(a|b*?)+` -/
theorem compiled_paths_nested : ∃ p, parseRegex asciiIcu [0x28, 0x61, 0x7C, 0x62, 0x2A, 0x3F, 0x29, 0x2B] {} = .ok p ∧
    ∃ start, p.nfaStart = some start ∧
      (∀ w, (∃ m i, p.nfa[m]? = some i ∧ i.op = .match_ ∧ WordPath (wiring p.nfa) start w m) ↔ w ∈ lang p.ast) := by
  obtain ⟨p, hp, ht⟩ := parsesTo_iff.1
    (show parsesTo asciiIcu [0x28, 0x61, 0x7C, 0x62, 0x2A, 0x3F, 0x29, 0x2B] {} (fun p => !p.extended) = true by decide +kernel)
  obtain ⟨start, hstart, hpaths, -⟩ := compiled_paths hp (by simpa using ht)
  exact ⟨p, hp, start, hstart, hpaths⟩

theorem nfaSearch_finds_spans_dot : ∃ p, parseRegex asciiIcu [0x2E] {} = .ok p ∧
    ((nfaSearch asciiIcu p (textContext [0x0A, 0x61]) 0).isSome = true ↔
      ∃ s e, CandidateStart (textContext [0x0A, 0x61]) s ∧ spans asciiIcu (textContext [0x0A, 0x61]) p.ast s e) := by
  obtain ⟨p, hp, ht⟩ := parsesTo_iff.1
    (show parsesTo asciiIcu [0x2E] {} (fun p => !p.extended && p.queryIr.prefixes.isEmpty) = true by decide +kernel)
  simp only [Bool.and_eq_true, Bool.not_eq_true', List.isEmpty_iff] at ht
  exact ⟨p, hp, (nfaSearch_finds_spans asciiIcu_foldsAscii hp ht.1 ht.2 (by decide) 0).1⟩

end Pergrep
