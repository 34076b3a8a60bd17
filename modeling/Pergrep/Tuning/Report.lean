import Pergrep.Lib.Double
import Pergrep.Lib.KeyText
import Pergrep.Utf8
/-!
# Report — `BenchmarkReport`

The writer puts strings between quotation marks as they are, and the reader looks for the first place of each key and reads every
number as a double.  What comes back is the report exactly when no string has a quotation mark, every whole number is a double,
and no query looks like a status (`fromJson_toJson_iff`).
-/
namespace Pergrep

open PlainText (ascii decimal isDigit)
open KeyText (Item pattern after render extractStr extractRun IsKey)

inductive EvidenceKind where
  | correctnessSmoke
  | performanceEvidence
  deriving DecidableEq, Repr

/-- `to_string` -/
def EvidenceKind.text : EvidenceKind → Bytes
  | correctnessSmoke => ascii "correctness_smoke"
  | performanceEvidence => ascii "performance_evidence"

structure QueryExecutionRecord where
  patternExpression : Bytes
  queryFamily : Bytes
  p50LatencyMs : Double := .finite false 0
  p95LatencyMs : Double := .finite false 0
  matchCount : UInt64 := 0
  verifiedBytes : UInt64 := 0
  candidateChunks : UInt64 := 0
  candidateBlocks : UInt64 := 0

structure BenchmarkReport where
  reportId : Bytes := []
  schemaVersion : Bytes := ascii "pergrep-bench-report-v1"
  engineVersion : Bytes := ascii "0.1.0"
  timestampIso : Bytes := []
  evidenceKind : EvidenceKind := .performanceEvidence
  osName : Bytes := []
  compilerName : Bytes := []
  architecture : Bytes := []
  hardwareConcurrency : UInt64 := 1
  profileId : Bytes := []
  corpusSeed : UInt64 := 0
  corpusFiles : UInt64 := 0
  corpusBytes : UInt64 := 0
  cacheState : Bytes := ascii "cold"
  iterationCount : UInt64 := 1
  buildTimeMs : Double := .finite false 0
  loadTimeMs : Double := .finite false 0
  indexBytes : UInt64 := 0
  peakRssBytes : UInt64 := 0
  pageFaults : UInt64 := 0
  aggregateSearchP50Ms : Double := .finite false 0
  aggregateSearchP95Ms : Double := .finite false 0
  fallbackRate : Double := .finite false 0
  correctnessStatus : Bool := true
  queries : List QueryExecutionRecord := []

def quoted (indent key : String) (value : Bytes) (tail : String) : Item := ⟨ascii indent, ascii key, true, value, ascii tail⟩

def plain (indent key : String) (value : Bytes) (tail : String) : Item := ⟨ascii indent, ascii key, false, value, ascii tail⟩

namespace QueryExecutionRecord

def rows (q : QueryExecutionRecord) : List Item :=
  [quoted "      " "pattern" q.patternExpression ",\n",
    quoted "      " "family" q.queryFamily ",\n",
    plain "      " "p50_ms" (q.p50LatencyMs.printFixed 2) ",\n",
    plain "      " "p95_ms" (q.p95LatencyMs.printFixed 2) ",\n",
    plain "      " "matches" (decimal q.matchCount.toNat) ",\n",
    plain "      " "verified_bytes" (decimal q.verifiedBytes.toNat) ",\n",
    plain "      " "candidate_chunks" (decimal q.candidateChunks.toNat) ",\n",
    plain "      " "candidate_blocks" (decimal q.candidateBlocks.toNat) "\n"]

/-- The loop over the queries; all but the last have a comma after them. -/
def toJson : List QueryExecutionRecord → Bytes
  | [] => []
  | q :: qs =>
    ascii "    \x7b\n" ++ (render q.rows ++ (ascii "    \x7d" ++ (if qs = [] then [] else ascii ",") ++ ascii "\n" ++ toJson qs))

end QueryExecutionRecord

namespace BenchmarkReport

def rows (r : BenchmarkReport) : List Item :=
  [quoted "  " "report_id" r.reportId ",\n",
    quoted "  " "schema_version" r.schemaVersion ",\n",
    quoted "  " "engine_version" r.engineVersion ",\n",
    quoted "  " "timestamp_iso" r.timestampIso ",\n",
    quoted "  " "evidence_kind" r.evidenceKind.text ",\n",
    plain "  " "environment" (ascii "\x7b") "\n",
    quoted "    " "os" r.osName ",\n",
    quoted "    " "compiler" r.compilerName ",\n",
    quoted "    " "architecture" r.architecture ",\n",
    plain "    " "hardware_concurrency" (decimal r.hardwareConcurrency.toNat) "\n  \x7d,\n",
    plain "  " "workload" (ascii "\x7b") "\n",
    quoted "    " "profile_id" r.profileId ",\n",
    plain "    " "corpus_seed" (decimal r.corpusSeed.toNat) ",\n",
    plain "    " "corpus_files" (decimal r.corpusFiles.toNat) ",\n",
    plain "    " "corpus_bytes" (decimal r.corpusBytes.toNat) ",\n",
    quoted "    " "cache_state" r.cacheState ",\n",
    plain "    " "iteration_count" (decimal r.iterationCount.toNat) "\n  \x7d,\n",
    plain "  " "measurements" (ascii "\x7b") "\n",
    plain "    " "build_time_ms" (r.buildTimeMs.printFixed 2) ",\n",
    plain "    " "load_time_ms" (r.loadTimeMs.printFixed 2) ",\n",
    plain "    " "index_bytes" (decimal r.indexBytes.toNat) ",\n",
    plain "    " "peak_rss_bytes" (decimal r.peakRssBytes.toNat) ",\n",
    plain "    " "page_faults" (decimal r.pageFaults.toNat) ",\n",
    plain "    " "search_p50_ms" (r.aggregateSearchP50Ms.printFixed 2) ",\n",
    plain "    " "search_p95_ms" (r.aggregateSearchP95Ms.printFixed 2) ",\n",
    plain "    " "fallback_rate" (r.fallbackRate.printFixed 2) ",\n"]

def statusRow (r : BenchmarkReport) : Item :=
  plain "    " "correctness_status" (if r.correctnessStatus then ascii "true" else ascii "false") "\n  \x7d,\n"

def queriesRow : Item := plain "  " "queries" (ascii "[") "\n"

def toJson (r : BenchmarkReport) : Bytes :=
  ascii "\x7b\n" ++ render r.rows ++
    (r.statusRow.text ++ (queriesRow.text ++ (QueryExecutionRecord.toJson r.queries ++ ascii "  ]\n\x7d\n")))

def isNumber (b : UInt8) : Bool := isDigit b || b == 46 || b == 45

/-- `extract_num`; where there is no number, zero. -/
def extractNum (text key : Bytes) : Double := ((extractRun isNumber text key).bind Double.stod).getD (.finite false 0)

def extractWord (text key : Bytes) : Option UInt64 := (extractNum text key).toUnsigned.map UInt64.ofNat

/-- `from_json`; `none` where a cast is undefined. -/
def fromJson (text : Bytes) : Option BenchmarkReport := do
  let hardwareConcurrency ← extractWord text (ascii "hardware_concurrency")
  let corpusSeed ← extractWord text (ascii "corpus_seed")
  let corpusFiles ← extractWord text (ascii "corpus_files")
  let corpusBytes ← extractWord text (ascii "corpus_bytes")
  let iterationCount ← extractWord text (ascii "iteration_count")
  let indexBytes ← extractWord text (ascii "index_bytes")
  let peakRssBytes ← extractWord text (ascii "peak_rss_bytes")
  let pageFaults ← extractWord text (ascii "page_faults")
  some {
    reportId := extractStr text (ascii "report_id")
    schemaVersion := extractStr text (ascii "schema_version")
    engineVersion := extractStr text (ascii "engine_version")
    timestampIso := extractStr text (ascii "timestamp_iso")
    evidenceKind :=
      if extractStr text (ascii "evidence_kind") = ascii "correctness_smoke" then .correctnessSmoke else .performanceEvidence
    osName := extractStr text (ascii "os")
    compilerName := extractStr text (ascii "compiler")
    architecture := extractStr text (ascii "architecture")
    hardwareConcurrency
    profileId := extractStr text (ascii "profile_id")
    corpusSeed
    corpusFiles
    corpusBytes
    cacheState := extractStr text (ascii "cache_state")
    iterationCount
    buildTimeMs := extractNum text (ascii "build_time_ms")
    loadTimeMs := extractNum text (ascii "load_time_ms")
    indexBytes
    peakRssBytes
    pageFaults
    aggregateSearchP50Ms := extractNum text (ascii "search_p50_ms")
    aggregateSearchP95Ms := extractNum text (ascii "search_p95_ms")
    fallbackRate := extractNum text (ascii "fallback_rate")
    correctnessStatus := (Substr.findFrom text (ascii "\"correctness_status\": true") 0).isSome }

/-! ## The round trip -/

/-- The strings of the report, its environment and its workload. -/
def strings (r : BenchmarkReport) : List Bytes :=
  [r.reportId, r.schemaVersion, r.engineVersion, r.timestampIso, r.osName, r.compilerName, r.architecture, r.profileId,
    r.cacheState]

def words (r : BenchmarkReport) : List UInt64 :=
  [r.hardwareConcurrency, r.corpusSeed, r.corpusFiles, r.corpusBytes, r.iterationCount, r.indexBytes, r.peakRssBytes,
    r.pageFaults]

structure Restored (r r' : BenchmarkReport) : Prop where
  strings : r'.strings = r.strings
  words : r'.words = r.words
  evidenceKind : r'.evidenceKind = r.evidenceKind
  correctnessStatus : r'.correctnessStatus = r.correctnessStatus

def stringKeys : List Bytes :=
  [ascii "report_id", ascii "schema_version", ascii "engine_version", ascii "timestamp_iso", ascii "os", ascii "compiler",
    ascii "architecture", ascii "profile_id", ascii "cache_state"]

def wordKeys : List Bytes :=
  [ascii "hardware_concurrency", ascii "corpus_seed", ascii "corpus_files", ascii "corpus_bytes", ascii "iteration_count",
    ascii "index_bytes", ascii "peak_rss_bytes", ascii "page_faults"]

def RoundTrip (r : BenchmarkReport) : Prop := ∃ r', fromJson (toJson r) = some r' ∧ Restored r r'

/-- The reader's status, looked for in a query between its quotation marks. -/
def LooksPassed (v : Bytes) : Prop := ascii "\"correctness_status\": true" <:+: 34 :: v

/-- What can be read back: nothing is escaped, and whole numbers go through doubles. -/
structure Restorable (r : BenchmarkReport) : Prop where
  strings : ∀ v ∈ r.strings, (34 : UInt8) ∉ v
  words : ∀ n ∈ r.words, Double.IsDouble n.toNat
  queries : r.correctnessStatus = false → ∀ q ∈ r.queries, ¬ LooksPassed q.patternExpression ∧ ¬ LooksPassed q.queryFamily

/-! ## What is written -/

theorem notMem_printFixed (k : Nat) (d : Double) : (34 : UInt8) ∉ d.printFixed k := by
  have hsign : ∀ b, (34 : UInt8) ∉ Double.sign b := by decide
  have hdigits := fun n => PlainText.notMem_decimal (b := 34) rfl n
  have hlast := Double.notMem_lastDigits (b := 34) rfl
  cases d with
  | finite negative magnitude => simp [Double.printFixed, hsign, hdigits, hlast]
  | infinite negative => simp only [Double.printFixed, List.mem_append, hsign, false_or]; decide
  | nan negative => simp only [Double.printFixed, List.mem_append, hsign, false_or]; decide

theorem keys_nodup (r : BenchmarkReport) : ((rows r).map Item.key).Nodup := by
  have hsame : (rows r).map Item.key = (rows {}).map Item.key := rfl
  rw [hsame]
  decide +kernel

theorem rows_formed (r : BenchmarkReport) : KeyText.Formed (rows r) := by
  have hframed : (rows r).all Item.framed = true := rfl
  have hdigits := fun n => PlainText.notMem_decimal (b := 34) rfl n
  have hplain : ∀ i ∈ rows r, i.quoted = false → i.Clean := by
    simp only [rows, List.forall_mem_cons, quoted, plain, Item.Clean, hdigits, notMem_printFixed, not_false_eq_true, implies_true,
      reduceCtorEq, false_implies, true_and, and_true, List.not_mem_nil]
    decide
  exact ⟨fun i hi => Item.Formed.of_framed (List.all_eq_true.1 hframed i hi) (hplain i hi), keys_nodup r⟩

theorem notMem_kind (k : EvidenceKind) : (34 : UInt8) ∉ k.text := by
  cases k with
  | correctnessSmoke => decide
  | performanceEvidence => decide

theorem clean_iff (r : BenchmarkReport) : (∀ i ∈ rows r, i.Clean) ↔ ∀ v ∈ r.strings, (34 : UInt8) ∉ v := by
  have hdigits := fun n => PlainText.notMem_decimal (b := 34) rfl n
  have hopen : (34 : UInt8) ∉ ascii "\x7b" := by decide
  simp only [rows, strings, List.forall_mem_cons, quoted, plain, Item.Clean, hdigits, notMem_printFixed, notMem_kind, hopen,
    not_false_eq_true, true_and, and_true, List.not_mem_nil, false_implies, implies_true]

section Reading

variable {r : BenchmarkReport} {text : Bytes}

theorem fromJson_read {r' : BenchmarkReport} (h : fromJson text = some r') :
    stringKeys.map (extractStr text) = r'.strings ∧ wordKeys.map (extractWord text) = r'.words.map some ∧
      (r'.evidenceKind =
        if extractStr text (ascii "evidence_kind") = ascii "correctness_smoke" then .correctnessSmoke
        else .performanceEvidence) ∧
      r'.correctnessStatus = (Substr.findFrom text (ascii "\"correctness_status\": true") 0).isSome := by
  simp only [fromJson, Option.bind_eq_bind, Option.bind_eq_some_iff, Option.some.injEq] at h
  obtain ⟨_, h1, _, h2, _, h3, _, h4, _, h5, _, h6, _, h7, _, h8, rfl⟩ := h
  refine ⟨rfl, ?_, rfl, rfl⟩
  simp only [wordKeys, words, List.map_cons, List.map_nil, h1, h2, h3, h4, h5, h6, h7, h8]

theorem exists_fromJson {ws : List UInt64} (h : wordKeys.map (extractWord text) = ws.map some) :
    ∃ r', fromJson text = some r' := by
  have hsome : ∀ k ∈ wordKeys, ∃ w, extractWord text k = some w := by
    intro k hk
    have hmem := List.mem_map_of_mem (f := extractWord text) hk
    rw [h] at hmem
    obtain ⟨w, -, hw⟩ := List.mem_map.1 hmem
    exact ⟨w, hw.symm⟩
  simp only [wordKeys, List.forall_mem_cons] at hsome
  obtain ⟨⟨_, h1⟩, ⟨_, h2⟩, ⟨_, h3⟩, ⟨_, h4⟩, ⟨_, h5⟩, ⟨_, h6⟩, ⟨_, h7⟩, ⟨_, h8⟩, -⟩ := hsome
  unfold fromJson
  rw [h1, h2, h3, h4, h5, h6, h7, h8]
  exact ⟨_, rfl⟩

theorem notMem_head : (34 : UInt8) ∉ ascii "\x7b\n" := by decide

theorem extractStr_row (hclean : ∀ i ∈ rows r, i.Clean) (n : Nat) {i : Item} (hi : (rows r)[n]? = some i) (hq : i.quoted = true) :
    extractStr (toJson r) i.key = i.value :=
  KeyText.extractStr_of_clean notMem_head (rows_formed r) hclean (List.mem_of_getElem? hi) hq

theorem extractRun_row (hclean : ∀ i ∈ rows r, i.Clean) (n : Nat) {i : Item} (hi : (rows r)[n]? = some i)
    (hq : i.quoted = false) (hvalue : ∀ b ∈ i.value, isNumber b = true) : extractRun isNumber (toJson r) i.key = some i.value :=
  KeyText.extractRun_of_clean notMem_head (rows_formed r) hclean (List.mem_of_getElem? hi) hq hvalue rfl rfl

/-- **A whole number is read back exactly when it is a double.** -/
theorem extractWord_row_iff (hclean : ∀ i ∈ rows r, i.Clean) (n : Nat) {indent key tail : String} {w : UInt64}
    (hi : (rows r)[n]? = some (plain indent key (decimal w.toNat) tail)) :
    extractWord (toJson r) (ascii key) = some w ↔ Double.IsDouble w.toNat := by
  have hnumber : ∀ b ∈ decimal w.toNat, isNumber b = true := fun b hb => by
    rw [isNumber, PlainText.isDigit_of_mem hb, Bool.true_or, Bool.true_or]
  have hrun := extractRun_row hclean n hi rfl hnumber
  simp only [plain] at hrun
  have hnum : extractNum (toJson r) (ascii key) = .finite false (Double.roundDouble w.toNat) := by
    rw [extractNum, hrun, Option.bind_some, Double.stod_decimal w.toNat_lt, Option.getD_some]
  rw [← Double.toUnsigned_stod_iff w.toNat_lt, Double.stod_decimal w.toNat_lt, Option.bind_some, extractWord, hnum]
  constructor
  · intro h
    obtain ⟨m, hm, hw⟩ := Option.map_eq_some_iff.1 h
    rw [hm, ← hw, UInt64.toNat_ofNat', Nat.mod_eq_of_lt (Double.toUnsigned_lt hm)]
  · intro h
    rw [h, Option.map_some, UInt64.ofNat_toNat]

theorem strings_read (hclean : ∀ i ∈ rows r, i.Clean) : stringKeys.map (extractStr (toJson r)) = r.strings := by
  have h0 := extractStr_row hclean 0 rfl rfl
  have h1 := extractStr_row hclean 1 rfl rfl
  have h2 := extractStr_row hclean 2 rfl rfl
  have h3 := extractStr_row hclean 3 rfl rfl
  have h6 := extractStr_row hclean 6 rfl rfl
  have h7 := extractStr_row hclean 7 rfl rfl
  have h8 := extractStr_row hclean 8 rfl rfl
  have h11 := extractStr_row hclean 11 rfl rfl
  have h15 := extractStr_row hclean 15 rfl rfl
  simp only [quoted] at h0 h1 h2 h3 h6 h7 h8 h11 h15
  simp only [stringKeys, strings, List.map_cons, List.map_nil, h0, h1, h2, h3, h6, h7, h8, h11, h15]

theorem clean_of_strings_read (h : stringKeys.map (extractStr (toJson r)) = r.strings) : ∀ i ∈ rows r, i.Clean := by
  suffices hread : ∀ i ∈ rows r, i.Clean ∨ extractStr (toJson r) i.key = i.value from
    KeyText.clean_of_extractStr notMem_head (rows_formed r) hread
  generalize toJson r = text at h ⊢
  simp only [stringKeys, strings, List.map_cons, List.map_nil, List.cons.injEq, and_true] at h
  obtain ⟨h1, h2, h3, h4, h5, h6, h7, h8, h9⟩ := h
  have hdigits := fun n => PlainText.notMem_decimal (b := 34) rfl n
  have hopen : (34 : UInt8) ∉ ascii "\x7b" := by decide
  simp only [rows, List.forall_mem_cons, quoted, plain, Item.Clean, hdigits, notMem_printFixed, notMem_kind, hopen, h1, h2, h3, h4, h5, h6,
    h7, h8, h9, not_false_eq_true, true_or, or_true, and_true, List.not_mem_nil, false_implies, implies_true]

theorem words_read_iff (hclean : ∀ i ∈ rows r, i.Clean) :
    wordKeys.map (extractWord (toJson r)) = r.words.map some ↔ ∀ n ∈ r.words, Double.IsDouble n.toNat := by
  have h9 := extractWord_row_iff hclean 9 rfl
  have h12 := extractWord_row_iff hclean 12 rfl
  have h13 := extractWord_row_iff hclean 13 rfl
  have h14 := extractWord_row_iff hclean 14 rfl
  have h16 := extractWord_row_iff hclean 16 rfl
  have h20 := extractWord_row_iff hclean 20 rfl
  have h21 := extractWord_row_iff hclean 21 rfl
  have h22 := extractWord_row_iff hclean 22 rfl
  simp only [wordKeys, words, List.map_cons, List.map_nil, List.cons.injEq, List.forall_mem_cons, h9, h12, h13, h14, h16, h20,
    h21, h22, List.not_mem_nil, false_implies, implies_true]

theorem evidenceKind_read (hclean : ∀ i ∈ rows r, i.Clean) :
    (if extractStr (toJson r) (ascii "evidence_kind") = ascii "correctness_smoke" then .correctnessSmoke
      else .performanceEvidence) = r.evidenceKind := by
  have h4 := extractStr_row hclean 4 rfl rfl
  simp only [quoted] at h4
  rw [h4]
  cases r.evidenceKind with
  | correctnessSmoke => rfl
  | performanceEvidence => rfl

end Reading

/-! ## The status -/

def passed : Bytes := pattern (ascii "correctness_status") (ascii "true")

theorem passed_eq : passed = ascii "\"correctness_status\": true" := by decide

theorem isKey_status : IsKey (ascii "correctness_status") := by
  refine ⟨by decide, by decide, fun b hb => ?_⟩
  have hc : (99 : UInt8) = b := Option.some.inj hb
  rw [← hc]
  decide

theorem queryRows_formed (q : QueryExecutionRecord) : ∀ i ∈ q.rows, i.Formed ∧ ascii "correctness_status" ≠ i.key := by
  have hframed : q.rows.all Item.framed = true := rfl
  have hdigits := fun n => PlainText.notMem_decimal (b := 34) rfl n
  have hplain : ∀ i ∈ q.rows, i.quoted = false → i.Clean := by
    simp only [QueryExecutionRecord.rows, List.forall_mem_cons, quoted, plain, Item.Clean, hdigits, notMem_printFixed,
      not_false_eq_true, implies_true, reduceCtorEq, false_implies, true_and, List.not_mem_nil]
  have hkey : ascii "correctness_status" ∉ q.rows.map Item.key := by
    have hsame : q.rows.map Item.key = (QueryExecutionRecord.rows ⟨[], [], .nan false, .nan false, 0, 0, 0, 0⟩).map Item.key := rfl
    rw [hsame]
    decide
  exact fun i hi => ⟨Item.Formed.of_framed (List.all_eq_true.1 hframed i hi) (hplain i hi),
    fun heq => hkey (heq ▸ List.mem_map_of_mem hi)⟩

theorem infix_queries_iff : ∀ (qs : List QueryExecutionRecord) (s : Bytes),
    passed <:+: QueryExecutionRecord.toJson qs ++ s ↔
      (∃ q ∈ qs, LooksPassed q.patternExpression ∨ LooksPassed q.queryFamily) ∨ passed <:+: s
  | [], s => by simp [QueryExecutionRecord.toJson]
  | q :: qs, s => by
    have hopen : (34 : UInt8) ∉ ascii "    \x7b\n" := by decide
    have hclose : (34 : UInt8) ∉ ascii "    \x7d" ++ (if qs = [] then [] else ascii ",") ++ ascii "\n" := by
      split
      · decide
      · decide
    have htext : QueryExecutionRecord.toJson (q :: qs) ++ s = ascii "    \x7b\n" ++ (render q.rows ++
        (ascii "    \x7d" ++ (if qs = [] then [] else ascii ",") ++ ascii "\n" ++ (QueryExecutionRecord.toJson qs ++ s))) := by
      rw [QueryExecutionRecord.toJson]
      simp only [List.append_assoc]
    have hrows : (∃ i ∈ q.rows, i.quoted = true ∧ passed <:+: 34 :: i.value) ↔
        LooksPassed q.patternExpression ∨ LooksPassed q.queryFamily := by
      simp only [QueryExecutionRecord.rows, List.exists_mem_cons_iff, quoted, plain, LooksPassed, passed_eq, true_and,
        Bool.false_eq_true, false_and, or_false, List.not_mem_nil, exists_false]
    have ih := infix_queries_iff qs s
    unfold passed at hrows ih ⊢
    rw [htext, KeyText.infix_skip_iff _ hopen,
      KeyText.infix_render_iff isKey_status (by decide) _ (queryRows_formed q), hrows, KeyText.infix_skip_iff _ hclose, ih,
      ← or_assoc, List.exists_mem_cons_iff]

theorem statusRow_formed (r : BenchmarkReport) : r.statusRow.Formed ∧ r.statusRow.Clean := by
  have hclean : r.statusRow.Clean := by
    unfold statusRow plain Item.Clean
    dsimp only
    split
    · decide
    · decide
  exact ⟨Item.Formed.of_framed rfl (fun _ => hclean), hclean⟩

theorem infix_statusRow_iff (r : BenchmarkReport) (s : Bytes) :
    passed <:+: r.statusRow.text ++ s ↔ r.correctnessStatus = true ∨ passed <:+: s := by
  obtain ⟨hform, hclean⟩ := statusRow_formed r
  rw [← KeyText.isSome_after]
  cases hs : r.correctnessStatus with
  | true =>
    have hvalue : r.statusRow.body ++ r.statusRow.tail ++ s = ascii "true" ++ (r.statusRow.tail ++ s) := by
      unfold statusRow plain Item.body
      simp only [hs, Bool.false_eq_true, if_false, if_true, List.append_assoc]
    have hown : after passed (r.statusRow.text ++ s) = some (r.statusRow.tail ++ s) := KeyText.after_own hform hvalue
    rw [hown]
    exact iff_of_true rfl (Or.inl rfl)
  | false =>
    have hvalue : ¬ ascii "true" <+: r.statusRow.body ++ r.statusRow.tail ++ s := by
      unfold statusRow plain Item.body
      simp only [hs, Bool.false_eq_true, if_false, List.append_assoc]
      exact fun h => absurd (List.cons_prefix_cons.1 h).1 (by decide)
    have hother : after passed (r.statusRow.text ++ s) = after passed s := KeyText.after_other hform hclean hvalue
    rw [hother, KeyText.isSome_after, or_iff_right (by decide)]

/-- **What stands before the queries says only the status.** -/
theorem infix_toJson_iff {r : BenchmarkReport} (hclean : ∀ i ∈ rows r, i.Clean) :
    passed <:+: toJson r ↔
      r.correctnessStatus = true ∨ ∃ q ∈ r.queries, LooksPassed q.patternExpression ∨ LooksPassed q.queryFamily := by
  have hkey : ascii "correctness_status" ∉ (rows r).map Item.key := by
    have hsame : (rows r).map Item.key = (rows {}).map Item.key := rfl
    rw [hsame]
    decide
  have hbefore : ∀ i ∈ rows r, i.Formed ∧ i.Clean ∧ ascii "correctness_status" ≠ i.key :=
    fun i hi => ⟨(rows_formed r).item i hi, hclean i hi, fun heq => hkey (heq ▸ List.mem_map_of_mem hi)⟩
  have hplain : queriesRow.Clean := show (34 : UInt8) ∉ ascii "[" by decide
  have hqueries : queriesRow.Formed := Item.Formed.of_framed rfl (fun _ => hplain)
  have hend : ¬ passed <:+: ascii "  ]\n\x7d\n" := by decide
  have hskip : passed <:+: toJson r ↔ passed <:+: r.statusRow.text ++ (queriesRow.text ++
      (QueryExecutionRecord.toJson r.queries ++ ascii "  ]\n\x7d\n")) := by
    unfold passed toJson
    rw [List.append_assoc, KeyText.infix_skip_iff _ notMem_head, ← KeyText.isSome_after,
      KeyText.after_render isKey_status _ hbefore, KeyText.isSome_after]
  have hheading : ∀ s, passed <:+: queriesRow.text ++ s ↔ passed <:+: s := by
    intro s
    unfold passed
    rw [← KeyText.isSome_after, KeyText.after_item isKey_status hqueries hplain (by decide), KeyText.isSome_after]
  rw [hskip, infix_statusRow_iff, hheading, infix_queries_iff, or_iff_left hend]

/-! ## When a report comes back -/

theorem restorable_of_roundTrip {r : BenchmarkReport} (h : RoundTrip r) : Restorable r := by
  obtain ⟨r', hread, hrestored⟩ := h
  obtain ⟨hstrings, hwords, -, hstatus⟩ := fromJson_read hread
  have hclean : ∀ i ∈ rows r, i.Clean := clean_of_strings_read (hstrings.trans hrestored.strings)
  refine ⟨(clean_iff r).1 hclean, (words_read_iff hclean).1 (by rw [hwords, hrestored.words]), fun hfalse q hq => ?_⟩
  rw [hrestored.correctnessStatus, hfalse, ← passed_eq] at hstatus
  have hnot : ¬ passed <:+: toJson r := by
    rw [← Substr.findFrom_isSome_iff_infix, ← hstatus]
    exact Bool.false_ne_true
  rw [infix_toJson_iff hclean, not_or] at hnot
  exact ⟨fun hp => hnot.2 ⟨q, hq, Or.inl hp⟩, fun hf => hnot.2 ⟨q, hq, Or.inr hf⟩⟩

theorem roundTrip_of_restorable {r : BenchmarkReport} (h : Restorable r) : RoundTrip r := by
  have hclean : ∀ i ∈ rows r, i.Clean := (clean_iff r).2 h.strings
  have hwords := (words_read_iff hclean).2 h.words
  obtain ⟨r', hread⟩ := exists_fromJson hwords
  obtain ⟨hstrings, hwords', hkind, hstatus⟩ := fromJson_read hread
  refine ⟨r', hread, hstrings.symm.trans (strings_read hclean), ?_, hkind.trans (evidenceKind_read hclean), ?_⟩
  · rw [hwords] at hwords'
    exact (List.map_injective_iff.2 (Option.some_injective _) hwords').symm
  · rw [hstatus, Bool.eq_iff_iff, Substr.findFrom_isSome_iff_infix, ← passed_eq, infix_toJson_iff hclean, or_iff_left_iff_imp]
    rintro ⟨q, hq, hlooks⟩
    by_contra hnot
    have hfree := h.queries (Bool.eq_false_iff.2 hnot) q hq
    exact hlooks.elim hfree.1 hfree.2

/-- **What is written is read back exactly when** no string has a quotation mark, every whole number is a double, and a report
that did not pass has no query that says it did. -/
theorem fromJson_toJson_iff (r : BenchmarkReport) : RoundTrip r ↔ Restorable r :=
  ⟨restorable_of_roundTrip, roundTrip_of_restorable⟩

/-- A seed with a bit too many, and a name that is cut. -/
theorem not_roundTrip : ¬ RoundTrip { corpusSeed := 9007199254740993 } ∧ ¬ RoundTrip { reportId := ascii "a\"b" } := by
  constructor
  · intro h
    have hdouble := (restorable_of_roundTrip h).words 9007199254740993 (by decide)
    exact absurd (hdouble.lt_of_odd (by decide)) (by decide)
  · intro h
    exact absurd (by decide) ((restorable_of_roundTrip h).strings (ascii "a\"b") (by decide))

end BenchmarkReport

end Pergrep
