import Pergrep.Cli.Options
/-!
# OptionsSpec — what a command line can say

Each short option but `-h` is a long one in short (`longNames`), so a command line means what its long spelling means
(`parse_spell`).  What the options and the operands keep of `Args` holds at the end of each command line that is accepted
(`parse_settled`): of the four summaries at most one is chosen, the numbers fit their types, and what excludes each other is not
set together.
-/
namespace Pergrep.Cli

open Getopt (Action Grammar)
open PlainText (ascii digitsValue)

/-! ## Short options are long ones -/

/-- What the short options stand for; `-h` alone has no long form. -/
def longNames : List (Char × String) :=
  [('A', "after-context"), ('B', "before-context"), ('C', "context"), ('a', "text"), ('b', "byte-offset"), ('c', "count"),
   ('0', "null"), ('d', "max-depth"), ('E', "encoding"), ('e', "regexp"), ('f', "file"), ('F', "fixed-strings"),
   ('g', "glob"), ('H', "with-filename"), ('I', "no-filename"), ('i', "ignore-case"), ('j', "threads"),
   ('l', "files-with-matches"), ('L', "follow"), ('m', "max-count"), ('M', "max-columns"), ('n', "line-number"),
   ('N', "no-line-number"), ('o', "only-matching"), ('p', "pretty"), ('P', "pcre2"), ('q', "quiet"), ('r', "replace"),
   ('s', "case-sensitive"), ('S', "smart-case"), ('t', "type"), ('T', "type-not"), ('u', "unrestricted"),
   ('U', "multiline"), ('v', "invert-match"), ('V', "version"), ('w', "word-regexp"), ('x', "line-regexp"),
   ('z', "search-zip")]

def longName (c : UInt8) : Option Bytes :=
  (longNames.find? (fun e => e.1.toNat == c.toNat)).map (fun e => ascii e.2)

theorem longName_eq_some {c : UInt8} {n : Bytes} (h : longName c = some n) :
    ∃ e ∈ longNames, e.1.toNat = c.toNat ∧ n = ascii e.2 := by
  obtain ⟨e, he, rfl⟩ := Option.map_eq_some_iff.1 h
  have hc := List.find?_some (p := fun e : Char × String => e.1.toNat == c.toNat) he
  exact ⟨e, List.mem_of_find?_eq_some he, eq_of_beq hc, rfl⟩

/-- Where the long option stands in its table, and the short one in its own. -/
def places : List (Nat × Nat) :=
  [(0, 0), (1, 1), (2, 2), (130, 3), (7, 4), (16, 5), (97, 6), (66, 7), (22, 8), (117, 9), (118, 10), (29, 11), (34, 12),
   (144, 14), (145, 15), (45, 16), (132, 17), (27, 18), (31, 19), (65, 20), (62, 21), (58, 22), (59, 23), (103, 24),
   (113, 25), (108, 26), (114, 27), (119, 28), (9, 29), (122, 30), (136, 31), (137, 32), (141, 33), (70, 34), (52, 35),
   (142, 36), (146, 37), (60, 38), (120, 39)]

theorem places_longNames : ∀ e ∈ longNames, ∃ p ∈ places,
    longOptions.findIdx? (fun o => ascii o.1 == ascii e.2) = some p.1 ∧
      shortOptions.findIdx? (fun o => o.1.toNat == e.1.toNat) = some p.2 := by
  decide +kernel

theorem places_same : ∀ p ∈ places, longOptions[p.1]?.map Prod.snd = shortOptions[p.2]?.map Prod.snd := by
  simp only [places, List.forall_mem_cons, List.not_mem_nil, false_implies, implies_true, and_true]
  and_intros <;> rfl

theorem long_eq_short {c : UInt8} {n : Bytes} (h : longName c = some n) : grammar.long n = grammar.short c := by
  obtain ⟨e, he, hc, rfl⟩ := longName_eq_some h
  obtain ⟨p, hp, hlong, hshort⟩ := places_longNames e he
  have hlong' : grammar.long (ascii e.2) = longOptions[p.1]?.map Prod.snd := by
    show Option.map Prod.snd (longOptions.find? (fun o => ascii o.1 == ascii e.2)) = _
    rw [List.find?_eq_bind_findIdx?_getElem?, hlong, Option.bind_some]
  have hshort' : grammar.short c = shortOptions[p.2]?.map Prod.snd := by
    show Option.map Prod.snd (shortOptions.find? (fun o => o.1.toNat == c.toNat)) = _
    rw [List.find?_eq_bind_findIdx?_getElem?, ← hc, hshort, Option.bind_some]
  rw [hlong', hshort', places_same p hp]

/-- An option with no long name takes no value, and sets nothing but that the help is wanted. -/
theorem shortOptions_named : ∀ o ∈ shortOptions, (longNames.find? (fun e => e.1.toNat == o.1.toNat)).isSome = true ∨
    o.2 = .flag fun a => { a with shortHelp := true } := by
  simp only [shortOptions, List.forall_mem_cons, List.not_mem_nil, false_implies, implies_true, and_true]
  and_intros
  all_goals first
    | exact Or.inl rfl
    | exact Or.inr trivial

theorem grammar_names : grammar.Names longName where
  dash := rfl
  ne_nil h := by
    obtain ⟨e, he, -, rfl⟩ := longName_eq_some h
    exact (show ∀ e ∈ longNames, ascii e.2 ≠ [] by decide +kernel) e he
  equals h := by
    obtain ⟨e, he, -, rfl⟩ := longName_eq_some h
    exact (show ∀ e ∈ longNames, (61 : UInt8) ∉ ascii e.2 by decide +kernel) e he
  same := long_eq_short
  values {c act} h hn := by
    obtain ⟨o, ho, hact⟩ := Option.map_eq_some_iff.1 h
    have hc := List.find?_some (p := fun o : Char × Action CommandArgs Bytes => o.1.toNat == c.toNat) ho
    rcases shortOptions_named o (List.mem_of_find?_eq_some ho) with hsome | hflag
    · rw [eq_of_beq hc, Option.map_eq_none_iff.1 hn] at hsome
      cases hsome
    · rw [hact] at hflag
      cases hflag

/-- The command line with each option long and with its value attached. -/
def longSpelling (argv : List Bytes) : List Bytes := grammar.spell longName argv

/-- **A command line means what its long spelling means**: the one is accepted where the other is, with the same `Args`, and
then each word up to `--` is an operand, a long option that leaves the next word alone, or `-h`. -/
theorem parse_longSpelling (sh : Shell) (argv : List Bytes) (a : CommandArgs) :
    (parse sh (longSpelling argv) = .ok a ↔ parse sh argv = .ok a) ∧
      (parse sh argv = .ok a → grammar.Spelled longName (longSpelling argv)) := by
  have hrun := grammar.run_spell grammar_names argv {}
  unfold parse longSpelling
  refine ⟨?_, fun h => ?_⟩
  · cases hx : grammar.run {} false argv <;> cases hy : grammar.run {} false (grammar.spell longName argv) <;>
      rw [hx, hy] at hrun
    · exact iff_of_false nofun nofun
    · cases hrun
    · cases hrun
    · rw [Option.some.inj hrun]
  · obtain ⟨a', ha', -⟩ := Throw.bind_ok h
    exact grammar.spelled_spell grammar_names argv ha'

/-! ## What the options keep -/

def engineText : Engine → Bytes
  | .default_    => ascii "default"
  | .pcre2Compat => ascii "pcre2"
  | .auto        => ascii "auto"

/-- What no option breaks. -/
structure CommandArgs.Coherent (a : CommandArgs) : Prop where
  /-- At most one summary. -/
  summary : [a.count, a.countMatches, a.filesWith, a.filesWithout].count true ≤ 1
  wordLine : (a.popt.word && a.popt.line) = false
  filename : (a.withFilename && a.noFilename) = false
  lineEnd : (a.nullData && a.popt.crlf) = false
  multiline : (a.stopOnNonmatch && a.popt.multiline) = false
  engine : a.engine = engineText a.popt.engine
  context : a.afterExplicit = false → a.beforeExplicit = false → a.after = a.before
  maxCount : a.maxCountSet = false → a.maxCount = 0
  after_lt : a.after < 2 ^ 31
  before_lt : a.before < 2 ^ 31
  threads_lt : a.threads < 2 ^ 31
  maxColumns_lt : a.maxColumns < 2 ^ 31
  maxDepth_le : -1 ≤ a.maxDepth
  maxDepth_lt : a.maxDepth < 2 ^ 31
  maxCount_lt : a.maxCount < 2 ^ 64
  maxFilesize_lt : a.maxFilesize < 2 ^ 64

/-- While the words are read. -/
structure CommandArgs.Reading (a : CommandArgs) : Prop extends a.Coherent where
  sopt : a.sopt = { invertMatch := a.sopt.invertMatch }
  haystack : a.stdinHaystack = false

/-- When all is read. -/
structure CommandArgs.Settled (a : CommandArgs) : Prop extends a.Coherent where
  passthru : (a.passthru && a.contextSeen) = false
  counted : (a.onlyMatching && a.count) = false
  paths : a.paths ≠ []
  haystack : a.stdinHaystack = true → a.paths = [ascii "-"]
  sopt : a.sopt =
    { invertMatch := a.sopt.invertMatch, filesWithMatches := a.filesWith, filesWithoutMatch := a.filesWithout
      includeBinary := a.text || a.binary || decide (3 ≤ a.unrestricted) }

theorem num_lt {s : Bytes} {n : Nat} (h : num s = .ok n) : n < 2 ^ 64 := by
  unfold num at h
  dsimp only at h
  split at h
  · cases h
  · rename_i hfit
    split at h
    · cases h
    · rename_i hmult
      cases h
      rw [not_or, not_or, not_le] at hfit
      rw [not_and, not_lt] at hmult
      rcases Nat.lt_or_ge 1 (numSuffix s).1 with hbig | hsmall
      · have hle := Nat.mul_le_of_le_div _ _ _ (hmult hbig)
        omega
      · calc digitsValue (numSuffix s).2 * (numSuffix s).1 ≤ digitsValue (numSuffix s).2 * 1 := Nat.mul_le_mul_left _ hsmall
          _ < 2 ^ 64 := by rw [Nat.mul_one]; exact hfit.2.2

theorem numInt_lt {s : Bytes} {n : Nat} (h : numInt s = .ok n) : n < 2 ^ 31 := by
  obtain ⟨v, -, h⟩ := Throw.bind_ok h
  split at h
  · cases h
  · rename_i hlt
    cases h
    exact not_le.1 hlt

theorem int_keeps {P : CommandArgs → Prop} {act : CommandArgs → Nat → CommandArgs}
    (h : ∀ a n, n < 2 ^ 31 → P a → P (act a n)) : (int act).Keeps P := by
  intro a v a' hact ha
  obtain ⟨n, hn, rfl⟩ := Throw.map_ok hact
  exact h a n (numInt_lt hn) ha

theorem number_keeps {P : CommandArgs → Prop} {act : CommandArgs → Nat → CommandArgs}
    (h : ∀ a n, n < 2 ^ 64 → P a → P (act a n)) : (number act).Keeps P := by
  intro a v a' hact ha
  obtain ⟨n, hn, rfl⟩ := Throw.map_ok hact
  exact h a n (num_lt hn) ha

theorem text_keeps {P : CommandArgs → Prop} {act : CommandArgs → Bytes → CommandArgs} (h : ∀ a v, P a → P (act a v)) :
    (text act).Keeps P := by
  intro a v a' hact ha
  cases hact
  exact h a v ha

theorem summary_keeps {count countMatches filesWith filesWithout : Bool}
    (h : [count, countMatches, filesWith, filesWithout].count true ≤ 1) (a : CommandArgs) (ha : a.Reading) :
    (summary count countMatches filesWith filesWithout a).Reading := by
  unfold summary
  split
  · exact ha
  · exact { ha with summary := h }

theorem context_keeps (a : CommandArgs) (z : Nat) (hz : z < 2 ^ 31) (ha : a.Reading) : (context a z).Reading where
  toCoherent :=
    { ha with
      context := fun hafter hbefore => by
        show (if a.afterExplicit then a.after else z) = (if a.beforeExplicit then a.before else z)
        rw [show a.afterExplicit = false from hafter, show a.beforeExplicit = false from hbefore]
        rfl
      after_lt := by
        show (if a.afterExplicit then a.after else z) < 2 ^ 31
        split
        · exact ha.after_lt
        · exact hz
      before_lt := by
        show (if a.beforeExplicit then a.before else z) < 2 ^ 31
        split
        · exact ha.before_lt
        · exact hz }
  sopt := ha.sopt
  haystack := ha.haystack

theorem engine_keeps : Action.Keeps CommandArgs.Reading (.value engine) := by
  intro a v a' hact ha
  unfold engine at hact
  split at hact
  · rename_i hv
    cases hact
    exact { ha with engine := hv }
  · split at hact
    · rename_i hv
      cases hact
      exact { ha with engine := hv }
    · split at hact
      · rename_i hv
        cases hact
        exact { ha with engine := hv }
      · cases hact

theorem sopt_invert {s : SearchOptions} (h : s = { invertMatch := s.invertMatch }) (b : Bool) :
    { s with invertMatch := b } = { invertMatch := b } := by rw [h]

theorem depth_fits {n : Nat} (h : n < 2 ^ 31) : -1 ≤ (n : Int) ∧ (n : Int) < 2 ^ 31 :=
  ⟨by omega, by exact_mod_cast h⟩

/-- **Each long option keeps what the others have made.** -/
theorem longOptions_keep : ∀ o ∈ longOptions, o.2.Keeps CommandArgs.Reading := by
  simp only [longOptions, List.forall_mem_cons, List.not_mem_nil, false_implies, implies_true, and_true]
  and_intros
  -- most options set nothing that is asked about
  all_goals first
    | exact fun _ ha => { ha with }
    | exact text_keeps fun _ _ ha => { ha with }
    | exact fun _ ha => { ha with wordLine := rfl }
    | exact fun _ ha => { ha with wordLine := Bool.and_false _ }
    | exact fun _ ha => { ha with filename := rfl }
    | exact fun _ ha => { ha with lineEnd := rfl }
    | exact fun _ ha => { ha with lineEnd := Bool.and_false _ }
    | exact fun _ ha => { ha with multiline := rfl }
    | exact fun _ ha => { ha with multiline := Bool.and_false _ }
    | exact fun _ ha => { ha with engine := rfl }
    | exact fun _ ha => { ha with sopt := sopt_invert ha.sopt _ }
    | exact summary_keeps (by decide)
    | exact engine_keeps
    | exact int_keeps fun _ _ hn ha => { ha with context := nofun, after_lt := hn }
    | exact int_keeps fun _ _ hn ha => { ha with context := nofun, before_lt := hn }
    | exact int_keeps context_keeps
    | exact int_keeps fun _ _ hn ha => { ha with threads_lt := hn }
    | exact int_keeps fun _ _ hn ha => { ha with maxColumns_lt := hn }
    | exact int_keeps fun _ _ hn ha => { ha with maxDepth_le := (depth_fits hn).1, maxDepth_lt := (depth_fits hn).2 }
    | exact number_keeps fun _ _ hn ha => { ha with maxCount := nofun, maxCount_lt := hn }
    | exact number_keeps fun _ _ hn ha => { ha with maxFilesize_lt := hn }

theorem short_keeps (c : UInt8) (act : Action CommandArgs Bytes) (h : grammar.short c = some act) :
    act.Keeps CommandArgs.Reading := by
  cases hn : longName c with
  | some n =>
    obtain ⟨o, ho, rfl⟩ := Option.map_eq_some_iff.1 ((long_eq_short hn).trans h)
    exact longOptions_keep o (List.mem_of_find?_eq_some ho)
  | none =>
    obtain ⟨o, ho, rfl⟩ := Option.map_eq_some_iff.1 h
    have hc := List.find?_some (p := fun o : Char × Action CommandArgs Bytes => o.1.toNat == c.toNat) ho
    rcases shortOptions_named o (List.mem_of_find?_eq_some ho) with hsome | hhelp
    · rw [eq_of_beq hc, Option.map_eq_none_iff.1 hn] at hsome
      cases hsome
    · rw [hhelp]
      exact fun _ ha => { ha with }

theorem operand_keeps (a : CommandArgs) (x : Bytes) (ha : a.Reading) : (operand a x).Reading := by
  unfold operand
  split
  · exact { ha with }
  · split
    · exact { ha with }
    · exact { ha with }

theorem reading_default : CommandArgs.Reading {} where
  summary := by decide
  wordLine := rfl
  filename := rfl
  lineEnd := rfl
  multiline := rfl
  engine := rfl
  context := fun _ _ => rfl
  maxCount := fun _ => rfl
  after_lt := by decide
  before_lt := by decide
  threads_lt := by decide
  maxColumns_lt := by decide
  maxDepth_le := by decide
  maxDepth_lt := by decide
  maxCount_lt := by decide
  maxFilesize_lt := by decide
  sopt := rfl
  haystack := rfl

/-- `--only-matching` makes matches of the lines that are counted. -/
theorem summary_counted : ∀ onlyMatching count countMatches filesWith filesWithout : Bool,
    [count, countMatches, filesWith, filesWithout].count true ≤ 1 →
      [if onlyMatching && count then false else count, if onlyMatching && count then true else countMatches, filesWith,
        filesWithout].count true ≤ 1 := by
  decide

theorem settle_settled (sh : Shell) (read : List Bytes) {a : CommandArgs} (ha : a.Reading) : (settle sh read a).Settled where
  toCoherent := { ha with summary := summary_counted a.onlyMatching _ _ _ _ ha.summary }
  passthru := by
    show ((if a.contextSeen then false else a.passthru) && a.contextSeen) = false
    cases a.contextSeen with
    | false => exact Bool.and_false _
    | true  => rfl
  counted := by
    show (a.onlyMatching && if a.onlyMatching && a.count then false else a.count) = false
    cases a.onlyMatching <;> cases a.count <;> rfl
  paths := by
    show (if a.paths.isEmpty then (if sh.tty then [ascii "."] else [ascii "-"]) else a.paths) ≠ []
    split
    · split <;> exact List.cons_ne_nil _ _
    · rename_i hne
      rwa [List.isEmpty_iff] at hne
  haystack := by
    show (if a.paths.isEmpty && !sh.tty then true else a.stdinHaystack) = true →
      (if a.paths.isEmpty then (if sh.tty then [ascii "."] else [ascii "-"]) else a.paths) = [ascii "-"]
    rw [ha.haystack]
    cases a.paths.isEmpty <;> cases sh.tty
    · exact nofun
    · exact nofun
    · exact fun _ => rfl
    · exact nofun
  sopt := by
    show { a.sopt with
      includeBinary := a.text || a.binary || decide (3 ≤ a.unrestricted)
      filesWithMatches := if a.filesWith then true else a.sopt.filesWithMatches
      filesWithoutMatch := if a.filesWithout then true else a.sopt.filesWithoutMatch } =
      { invertMatch := a.sopt.invertMatch, filesWithMatches := a.filesWith, filesWithoutMatch := a.filesWithout
        includeBinary := a.text || a.binary || decide (3 ≤ a.unrestricted) }
    rw [ha.sopt]
    cases a.filesWith <;> cases a.filesWithout <;> rfl

theorem settled_of_parse {sh : Shell} {argv : List Bytes} {a : CommandArgs} (h : parse sh argv = .ok a) : a.Settled := by
  obtain ⟨a', ha', h⟩ := Throw.bind_ok h
  obtain ⟨read, -, h⟩ := Throw.bind_ok h
  cases h
  refine settle_settled sh read (grammar.run_keeps ?_ short_keeps operand_keeps argv ha' reading_default)
  intro n act hact
  obtain ⟨o, ho, rfl⟩ := Option.map_eq_some_iff.1 hact
  exact longOptions_keep o (List.mem_of_find?_eq_some ho)

/-- **A command line that is accepted says nothing that contradicts itself.** -/
theorem parse_settled {sh : Shell} {argv : List Bytes} {a : CommandArgs} (h : parse sh argv = .ok a) : a.Settled :=
  settled_of_parse h

/-- **Nor does one with the words of a configuration before it.** -/
theorem parseWithConfig_settled {sh : Shell} {argv : List Bytes} {a : CommandArgs} (h : parseWithConfig sh argv = .ok a) :
    a.Settled := by
  unfold parseWithConfig at h
  split at h
  · exact settled_of_parse h
  · split at h
    · cases h
    · exact settled_of_parse h

def bareShell : Shell where
  file := fun _ => none
  stdin := []
  tty := true
  config := []

/-- `-ocwC4 -A 3 x`: the lines are not counted but the matches, and the context after a line is that of `-A`. -/
theorem parse_settled_context : ∃ a, parse bareShell [ascii "-ocwC4", ascii "-A", ascii "3", ascii "x"] = .ok a ∧
    (a.count = false ∧ a.countMatches = true ∧ a.after = 3 ∧ a.before = 4) ∧ a.Settled := by
  obtain ⟨a, ha, hfields⟩ := Throw.returns_iff.1 (show Throw.returns
    (parse bareShell [ascii "-ocwC4", ascii "-A", ascii "3", ascii "x"])
      (fun a => !a.count && a.countMatches && a.after == 3 && a.before == 4) = true by decide +kernel)
  simp only [Bool.and_eq_true, Bool.not_eq_true', beq_iff_eq, and_assoc] at hfields
  exact ⟨a, ha, hfields, parse_settled ha⟩

end Pergrep.Cli
