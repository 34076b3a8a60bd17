import Pergrep.Cli.Quiet
import Pergrep.Search.FindLiteral
/-!
# Status — the exit status of a search for literals

From the arguments and the documents to the status, with nothing of the index in between: a search for literals ends with 0
when one of them stands in a file that is allowed, at a place that counts, and with 1 when none does, unless its input, its
types or its order let it die (`main_literal`); `--files-without-match` asks for a file in which none does.
-/
namespace Pergrep.Cli

open Substr

/-- What the arguments of a plain search for literals say. -/
structure Args.Literal (a : Args) : Prop where
  fixed : a.popt.kind = .fixed
  sensitive : a.popt.caseMode = .sensitive
  word : a.popt.word = false
  line : a.popt.line = false
  invert : a.sopt.invertMatch = false
  loud : a.quiet = false
  limit : (a.maxCountSet && decide (a.maxCount = 0)) = false
  some : a.patterns ≠ []
  nonempty : [] ∉ a.patterns
  json : (a.json && (a.filesMode || a.filesWith || a.filesWithout || a.count || a.countMatches)) = false
  search : reachesSearch a = true

/-- A literal stands in the file, at a place that counts. -/
def StandsIn (a : Args) (explicitFile : Bool) (content : Bytes) : Prop :=
  ∃ q ∈ a.patterns, ∃ s, occursAt content q s = true ∧ counts a explicitFile content { start := s } = true

/-- A file that is allowed, with its document. -/
def Allowed (documents : List Document) (c : Corpus) (fid : Nat) (d : Document) : Prop :=
  c.allows fid = true ∧ (byPath documents)[fid]? = some d

section
variable {documents : List Document} {iopt : IndexOptions} {c : Corpus} {a : Args}

theorem counts_earlier {explicitFile : Bool} {content : Bytes} {m m' : Match} (hle : m'.start ≤ m.start)
    (h : counts a explicitFile content m = true) : counts a explicitFile content m' = true := by
  have hkept : kept a content m = true → kept a content m' = true := by
    unfold kept
    cases binaryCut a content with
    | none => exact id
    | some nul => exact fun hlt => decide_eq_true (lt_of_le_of_lt hle (of_decide_eq_true hlt))
  have hline : countsLine a content m = true → countsLine a content m' = true := by
    unfold countsLine
    rw [Bool.and_eq_true_iff, Bool.and_eq_true_iff]
    exact fun ⟨h, hdata⟩ => ⟨hkept h, hdata⟩
  unfold counts at h ⊢
  split at h
  · rename_i hfiles
    rw [if_pos hfiles]
    exact hline h
  · rename_i hfiles
    rw [if_neg hfiles]
    split at h
    · rename_i hcount
      rw [if_pos hcount]
      rw [Bool.and_eq_true_iff] at h ⊢
      exact ⟨hkept h.1, h.2⟩
    · rename_i hcount
      rw [if_neg hcount]
      rw [Bool.or_eq_true_iff] at h ⊢
      exact h.imp_left hline

theorem exists_chosen {overlapping : Bool} {len n : Nat} {xs : List Nat} {P : Nat → Prop} (hsorted : xs.Pairwise (· < ·))
    (hn : ∀ x ∈ xs, n ≤ x) (hP : ∀ x y, x ≤ y → P y → P x) :
    (∃ x ∈ (chosen overlapping len n xs).1, P x) ↔ ∃ x ∈ xs, P x := by
  unfold chosen
  cases overlapping with
  | true => exact Iff.rfl
  | false =>
    rw [if_neg Bool.false_ne_true]
    constructor
    · rintro ⟨x, hx, hp⟩
      exact ⟨x, (apart_sub hx).1, hp⟩
    · rintro ⟨x, hx, hp⟩
      cases xs with
      | nil => cases hx
      | cons y ys =>
        refine ⟨y, ?_, hP y x ?_ hp⟩
        · rw [apart, if_neg (not_lt.2 (hn y List.mem_cons_self))]
          exact List.mem_cons_self
        · rcases List.mem_cons.1 hx with rfl | hx
          · exact le_rfl
          · exact Nat.le_of_lt (List.rel_of_pairwise_cons hsorted hx)

variable (icu : Icu) (plan : Planner)

theorem compile_literal (ha : a.Literal) (q : Bytes) : Pattern.compile icu q a.popt = .ok { expr := q, opt := a.popt } := by
  have hcase : resolveCase icu q a.popt = .sensitive := by
    rw [resolveCase, ha.sensitive, if_neg nofun]
  have hopt : { a.popt with caseMode := resolveCase icu q a.popt } = a.popt := by
    rw [hcase, ← ha.sensitive]
  unfold Pattern.compile
  rw [hopt, ha.fixed]
  rfl

theorem find_patterns (h : fromDocuments documents iopt = .ok c.index) (ha : a.Literal) : ∀ {pats : List Bytes},
    [] ∉ pats → searchPatterns icu plan a c pats =
      .ok (pats.map (fun q => literalMatches documents q (coreOptions a c)))
  | [], _ => rfl
  | q :: pats, hne => by
    rw [List.mem_cons, not_or] at hne
    have hobj : (coreOptions a c).objective = .exhaustive := by
      rw [coreOptions, ha.loud]
      rfl
    have hfind : find icu c.index plan { expr := q, opt := a.popt } (coreOptions a c) =
        .ok (literalMatches documents q (coreOptions a c)) :=
      find_literal icu h plan rfl (Ne.symm hne.1) (by rw [Pattern.icase, ha.sensitive]; rfl) ha.word ha.line hobj rfl rfl
    rw [searchPatterns, compile_literal icu ha]
    show (do
      let ms ← find icu c.index plan { expr := q, opt := a.popt } (coreOptions a c)
      let others ← searchPatterns icu plan a c pats
      return ms :: others) = _
    rw [hfind, find_patterns h ha hne.2]
    rfl

theorem mem_literalMatches {q : Bytes} {opt : SearchOptions} {m : Match} : m ∈ literalMatches documents q opt ↔
    ∃ fid d, (byPath documents)[fid]? = some d ∧ documentSearched opt fid d = true ∧
      ∃ s ∈ (chosen opt.overlapping q.length 0 (occs d.content q 0 d.content.length)).1, literalMatch fid q.length s = m := by
  unfold literalMatches
  rw [List.mem_flatMap]
  constructor
  · rintro ⟨⟨d, fid⟩, hd, hm⟩
    dsimp only at hm
    split at hm
    · rename_i hs
      exact ⟨fid, d, List.mem_zipIdx_iff_getElem?.1 hd, hs, List.mem_map.1 hm⟩
    · cases hm
  · rintro ⟨fid, d, hd, hs, hm⟩
    refine ⟨(d, fid), List.mem_zipIdx_iff_getElem?.2 hd, ?_⟩
    dsimp only
    rw [if_pos hs]
    exact List.mem_map.2 hm

theorem documentSearched_core {fid : Nat} (hallow : c.allows fid = true) (d : Document) :
    documentSearched (coreOptions a c) fid d = true := by
  have hmem : fid ∈ c.eligible :=
    List.mem_filter.2 ⟨List.mem_range.2 (Corpus.lt_of_allows hallow), hallow⟩
  unfold documentSearched
  rw [Bool.and_eq_true_iff]
  exact ⟨Bool.or_eq_true_iff.2 (Or.inr (List.contains_iff_mem.2 hmem)), rfl⟩

theorem exists_allowed (h : fromDocuments documents iopt = .ok c.index) {fid : Nat} (hallow : c.allows fid = true) :
    ∃ d, Allowed documents c fid d := by
  obtain ⟨-, -, hi, -⟩ := fromDocuments_built h
  have hlt := Corpus.lt_of_allows hallow
  rw [hi, List.length_map] at hlt
  exact ⟨_, hallow, List.getElem?_eq_getElem hlt⟩

/-- **A file has a match that counts exactly when a literal stands in it where it counts.** -/
theorem exists_counted (h : fromDocuments documents iopt = .ok c.index) (ha : a.Literal) {fid : Nat} {d : Document}
    (hd : Allowed documents c fid d) :
    (∃ m ∈ (a.patterns.map (fun q => literalMatches documents q (coreOptions a c))).flatten,
      Counted a c m ∧ m.fileId = fid) ↔ StandsIn a (c.explicitFile fid) d.content := by
  obtain ⟨hallow, hdoc⟩ := hd
  have hdata := fromDocuments_data h hdoc
  have hiff : ∀ q, (∃ m ∈ literalMatches documents q (coreOptions a c), Counted a c m ∧ m.fileId = fid) ↔
      ∃ s ∈ (chosen (coreOptions a c).overlapping q.length 0 (occs d.content q 0 d.content.length)).1,
        counts a (c.explicitFile fid) d.content { start := s } = true := by
    intro q
    simp only [mem_literalMatches]
    constructor
    · rintro ⟨m, ⟨fid', d', hd', -, s, hs, rfl⟩, ⟨-, hcount⟩, rfl⟩
      cases hdoc.symm.trans hd'
      refine ⟨s, hs, ?_⟩
      rw [← hdata]
      exact hcount
    · rintro ⟨s, hs, hcount⟩
      refine ⟨literalMatch fid q.length s, ⟨fid, d, hdoc, documentSearched_core hallow d, s, hs, rfl⟩, ⟨hallow, ?_⟩, rfl⟩
      rw [← hdata] at hcount
      exact hcount
  have hstands : ∀ q ∈ a.patterns, (∃ m ∈ literalMatches documents q (coreOptions a c), Counted a c m ∧ m.fileId = fid) ↔
      ∃ s, occursAt d.content q s = true ∧ counts a (c.explicitFile fid) d.content { start := s } = true := by
    intro q hq
    rw [hiff, exists_chosen (P := fun s => counts a (c.explicitFile fid) d.content { start := s } = true)
      (occs_sorted _ _ _ _) (fun x hx => Nat.zero_le x) (fun x y hle => counts_earlier hle)]
    refine exists_congr (fun s => and_congr_left (fun _ => ?_))
    rw [mem_occs, and_iff_right (Nat.zero_le s), and_iff_right_iff_imp]
    intro hocc
    have hle := occursAt_le hocc
    have hpos : 0 < q.length := List.length_pos_of_ne_nil (fun hnil => ha.nonempty (hnil ▸ hq))
    omega
  unfold StandsIn
  constructor
  · rintro ⟨m, hm, hcounted⟩
    obtain ⟨ms, hms, hm⟩ := List.mem_flatten.1 hm
    obtain ⟨q, hq, rfl⟩ := List.mem_map.1 hms
    exact ⟨q, hq, (hstands q hq).1 ⟨m, hm, hcounted⟩⟩
  · rintro ⟨q, hq, hs⟩
    obtain ⟨m, hm, hcounted⟩ := (hstands q hq).2 hs
    exact ⟨m, List.mem_flatten_of_mem (List.mem_map_of_mem hq) hm, hcounted⟩

/-- A run that comes to its search, and finds what it is to find, dies of its input, its types or its order, or ends as its
loop over the files does. -/
theorem main_literal_eq (ha : a.Literal) {perpat : List (List Match)} (hperpat : perPattern icu plan a c = .ok perpat) :
    main icu plan a c = (do
      c.input
      let _ ← effectiveTypes a
      sortFiles a c
      return exitLoop a c perpat c.order false) := by
  have hsearch := ha.search
  simp only [reachesSearch, Bool.and_eq_true, Bool.not_eq_true'] at hsearch
  obtain ⟨⟨⟨hinfo, hgen⟩, htype⟩, hmode⟩ := hsearch
  have hsome : a.patterns.isEmpty = false := by
    rw [List.isEmpty_eq_false_iff]
    exact ha.some
  have hjson := ha.json
  rw [hmode] at hjson
  unfold main
  rw [hinfo, if_neg Bool.false_ne_true, hgen, Bool.not_true, if_neg Bool.false_ne_true, htype, if_neg Bool.false_ne_true,
    hsome, Bool.false_and, if_neg Bool.false_ne_true, hmode, if_neg Bool.false_ne_true, hperpat]
  dsimp only [Bind.bind, Except.bind]
  rw [hjson, if_neg Bool.false_ne_true]

/-- **The exit status of a search for literals.**  The run dies when it dies of its input, of its types or of its order; else it
ends with 0 or 1. -/
theorem main_literal (h : fromDocuments documents iopt = .ok c.index) (ha : a.Literal) :
    (main icu plan a c).toBool = (c.input.toBool && (effectiveTypes a).toBool && (sortFiles a c).toBool) ∧
    ∀ status, main icu plan a c = .ok status → status ≤ 1 ∧ (status = 0 ↔
      if a.filesWithout && !a.filesWith then
        ∃ fid d, Allowed documents c fid d ∧ ¬ StandsIn a (c.explicitFile fid) d.content
      else ∃ fid d, Allowed documents c fid d ∧ StandsIn a (c.explicitFile fid) d.content) := by
  have hquiet : a.withQuiet false = a := by
    rw [Args.withQuiet, ← ha.loud]
  obtain ⟨perpat, hperpat, hcounted⟩ : ∃ perpat, perPattern icu plan a c = .ok perpat ∧
      ∀ fid d, Allowed documents c fid d →
        ((∃ m ∈ perpat.flatten, Counted a c m ∧ m.fileId = fid) ↔ StandsIn a (c.explicitFile fid) d.content) := by
    unfold perPattern
    cases hsearches : searches a c with
    | true => exact ⟨_, (if_pos rfl).trans (find_patterns icu plan h ha ha.nonempty), fun fid d hd => exists_counted h ha hd⟩
    | false =>
      refine ⟨[], if_neg Bool.false_ne_true, fun fid d hd => ?_⟩
      rw [searches, ha.limit, Bool.not_false, Bool.and_true, Bool.not_eq_false', List.isEmpty_iff] at hsearches
      have hmem : fid ∈ c.eligible := List.mem_filter.2 ⟨List.mem_range.2 (Corpus.lt_of_allows hd.1), hd.1⟩
      rw [hsearches] at hmem
      cases hmem
  classical
  have hsome := someAnswer_iff (c := c) ha.invert ha.limit false perpat
  rw [hquiet] at hsome
  rw [main_literal_eq icu plan ha hperpat, exitLoop_order]
  refine ⟨?_, fun status hmain => ?_⟩
  · cases c.input with
    | error _ => rfl
    | ok _ =>
      cases effectiveTypes a with
      | error _ => rfl
      | ok _ => cases sortFiles a c <;> rfl
  obtain ⟨-, -, hmain⟩ := Throw.bind_ok hmain
  obtain ⟨-, -, hmain⟩ := Throw.bind_ok hmain
  obtain ⟨-, -, hmain⟩ := Throw.bind_ok hmain
  cases hmain
  refine ⟨?_, ?_⟩
  · split <;> decide
  have hzero : (if SomeAnswer c a perpat then 0 else 1) = 0 ↔ SomeAnswer c a perpat := by
    split
    · rename_i hs
      exact iff_of_true rfl hs
    · rename_i hs
      exact iff_of_false nofun hs
  rw [hzero, hsome]
  cases a.filesWithout && !a.filesWith with
  | true =>
    rw [if_pos rfl, if_pos rfl]
    constructor
    · rintro ⟨fid, -, hallow, hno⟩
      obtain ⟨d, hd⟩ := exists_allowed h hallow
      exact ⟨fid, d, hd, fun hs => hno ((hcounted fid d hd).2 hs)⟩
    · rintro ⟨fid, d, hd, hno⟩
      exact ⟨fid, Corpus.lt_of_allows hd.1, hd.1, fun hm => hno ((hcounted fid d hd).1 hm)⟩
  | false =>
    rw [if_neg Bool.false_ne_true, if_neg Bool.false_ne_true]
    constructor
    · rintro ⟨m, hm, hcount⟩
      obtain ⟨d, hd⟩ := exists_allowed h hcount.1
      exact ⟨m.fileId, d, hd, (hcounted m.fileId d hd).1 ⟨m, hm, hcount, rfl⟩⟩
    · rintro ⟨fid, d, hd, hs⟩
      obtain ⟨m, hm, hcount, -⟩ := (hcounted fid d hd).2 hs
      exact ⟨m, hm, hcount⟩

end

theorem secondIndex_documents : fromDocuments secondLine smallChunks = .ok secondCorpus.index := by
  show _ = Except.ok secondIndex
  unfold secondIndex
  cases h : fromDocuments secondLine smallChunks with
  | ok I => rfl
  | error e =>
    have hok : (fromDocuments secondLine smallChunks).toBool = true := by decide +kernel
    rw [h] at hok
    cases hok

def literalArgs : Args := { patterns := [[0x7A], [0x62]], popt := { kind := .fixed }, sort := PlainText.ascii "modified" }

/-- One of them is on the second line. -/
theorem main_literal_second : main asciiIcu (fun _ _ => none) literalArgs secondCorpus = .ok 0 := by
  have ha : literalArgs.Literal :=
    { fixed := rfl, sensitive := rfl, word := rfl, line := rfl, invert := rfl, loud := rfl, limit := rfl
      some := List.cons_ne_nil _ _, nonempty := by decide, json := rfl, search := rfl }
  obtain ⟨hreturns, hstatus⟩ := main_literal asciiIcu (fun _ _ => none) secondIndex_documents ha
  have hlives : (secondCorpus.input.toBool && (effectiveTypes literalArgs).toBool &&
      (sortFiles literalArgs secondCorpus).toBool) = true := by decide +kernel
  rw [hlives] at hreturns
  cases hmain : main asciiIcu (fun _ _ => none) literalArgs secondCorpus with
  | error e =>
    rw [hmain] at hreturns
    cases hreturns
  | ok status =>
    rw [(hstatus status hmain).2.2]
    show ∃ fid d, Allowed secondLine secondCorpus fid d ∧ StandsIn literalArgs (secondCorpus.explicitFile fid) d.content
    exact ⟨0, { path := [0x66], content := [0x61, 0x0A, 0x62, 0x0A] }, ⟨rfl, rfl⟩, [0x62], by decide, 2, by decide +kernel,
      by decide +kernel⟩

end Pergrep.Cli
