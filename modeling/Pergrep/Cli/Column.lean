import Pergrep.Cli.Replace
import Pergrep.Search.InFile
/-!
# Column — the column printed before a line

With `--column`, `--vimgrep` or `-o` a line, or a match, is printed with the column its match starts in, counted from the
first byte of the line.  `fileRows` are the rows of a file that have a column.  A match that is printed for itself starts on
the line it is printed with; the first match of a line may start on an earlier line, and then the subtraction wraps around
(`fileRows_column_iff`).
-/
namespace Pergrep.Cli

open Throw

/-- What is printed with a column: the line it is on, the match the column is of, and the column. -/
structure Row where
  line : Nat
  first : Match
  column : Nat
deriving Repr, DecidableEq

def columnAt (start begin : Nat) : Nat := (start + 2 ^ 64 - begin + 1) % 2 ^ 64

/-- The rows of `-o` and `--vimgrep`, one for each match that starts on a selected line. -/
def matchRows (lines : List LineRecord) (selected : List Bool) (ms : List Match) : List Row :=
  ms.filterMap (fun m =>
    let li := lineForOffset lines m.start
    if selected.getD li false then
      (lines[li]?).map (fun line => { line := li, first := m, column := columnAt m.start line.begin })
    else none)

/-- The row of a selected line, where a match is listed under it. -/
def lineRow (lines : List LineRecord) (ms : List Match) (i : Nat) : Option Row :=
  (lines[i]?).bind (fun line => ((matchesByLine lines ms).getD i []).head?.map (fun first =>
    { line := i, first := first, column := columnAt first.start line.begin }))

/-- The printing of the lines, as `printLines` goes through them. -/
def lineRows (a : Args) (lines : List LineRecord) (selected : List Bool) (ms : List Match) : List Nat → Nat → List Row
  | [], _ => []
  | i :: rest, skipUntil =>
    if i < skipUntil then lineRows a lines selected ms rest skipUntil
    else if !emitsLine a selected i then lineRows a lines selected ms rest skipUntil
    else
      let matchLine := selected.getD i false
      let skipUntil := if matchLine then skipAfter a lines ms i skipUntil else skipUntil
      (if matchLine then (lineRow lines ms i).toList else []) ++ lineRows a lines selected ms rest skipUntil

/-- The rows of a file that are printed with a column; `column` is `--column`. -/
def fileRows (a : Args) (column : Bool) (data : Bytes) (found : List Match) : List Row :=
  let ms := keptMatches a data found
  let lines := splitLines data (if a.nullData then 0 else 0x0A)
  let selected := selectedLines a lines ms
  let hit := decide (selected.count true ≠ 0)
  if a.filesWith || a.filesWithout then []
  else if a.quiet && hit then []
  else if a.count || a.countMatches then []
  else if !hit && !a.passthru && decide (a.after = 0) && decide (a.before = 0) && !a.json then []
  else if a.json then []
  else if a.onlyMatching then if a.sopt.invertMatch || !column then [] else matchRows lines selected ms
  else if a.vimgrep then if a.sopt.invertMatch then [] else matchRows lines selected ms
  else if column then lineRows a lines selected ms (List.range lines.length) 0
  else []

/-! ## The arithmetic -/

/-- **The column is one plus the distance to the first byte matched on the line** when the match does not start before the
line, and only then. -/
theorem columnAt_eq_iff {start begin : Nat} (hstart : start < 2 ^ 64 - 1) (hbegin : begin < 2 ^ 64) :
    columnAt start begin = max start begin - begin + 1 ↔ begin ≤ start := by
  unfold columnAt
  omega

/-! ## Lines and offsets -/

section
variable {data : Bytes} {sep : UInt8} {lines : List LineRecord}

/-- The line of an offset is the last that begins at it or before it, past the end of the text too. -/
theorem Partitions.le_lineForOffset (h : Partitions data sep 0 lines) {i off : Nat} {line : LineRecord}
    (hline : lines[i]? = some line) : i ≤ lineForOffset lines off ↔ line.begin ≤ off := by
  have hin := h.within line (List.mem_of_getElem? hline)
  have hinside : ∀ {off : Nat}, off < data.length → (i ≤ lineForOffset lines off ↔ line.begin ≤ off) := by
    intro off hoff
    obtain ⟨l, hl, hbegin, hend⟩ := h.exists_line hoff
    constructor
    · intro hle
      rcases Nat.lt_or_eq_of_le hle with hlt | heq
      · have := h.termEnd_le_begin hline hl hlt
        omega
      · rw [← heq, hline] at hl
        cases hl
        exact hbegin
    · intro hle
      by_contra hlt
      have := h.termEnd_le_begin hl hline (Nat.lt_of_not_le hlt)
      omega
  by_cases hoff : off < data.length
  · exact hinside hoff
  · -- past the end: the line of the last byte, or a later one
    have hlast := (@hinside (data.length - 1) (by omega)).2 (by omega)
    exact iff_of_true (Nat.le_trans hlast (lineForOffset_mono (by omega))) (by omega)

theorem Partitions.covers_iff (h : Partitions data sep 0 lines) {m : Match} {i : Nat} {line : LineRecord}
    (hline : lines[i]? = some line) (hstart : m.start < line.begin) :
    (matchLines lines m).1 ≤ i ∧ i ≤ (matchLines lines m).2 ↔ line.begin < m.stop := by
  have hin := h.within line (List.mem_of_getElem? hline)
  have hfirst : (matchLines lines m).1 ≤ i := by
    obtain ⟨l, hl, hbegin, -⟩ := h.exists_line (show m.start < data.length by omega)
    by_contra hlt
    have := h.termEnd_le_begin hline hl (Nat.lt_of_not_le hlt)
    omega
  rw [and_iff_right hfirst, matchLines]
  dsimp only
  rw [h.le_lineForOffset hline]
  split
  · omega
  · omega

theorem matchesByLine_getD (ms : List Match) {i : Nat} (hi : i < lines.length) : (matchesByLine lines ms).getD i [] =
    ms.filter (fun m => decide ((matchLines lines m).1 ≤ i ∧ i ≤ (matchLines lines m).2)) := by
  rw [matchesByLine_eq, List.getD_eq_getElem?_getD, List.getElem?_map, List.getElem?_range hi]
  rfl

/-- **The first match of a line starts before it** when some match starts before it and ends after its first byte. -/
theorem Partitions.first_before_iff (h : Partitions data sep 0 lines) {ms : List Match} (hsorted : ms.Pairwise spanLe) {i : Nat}
    {line : LineRecord} (hline : lines[i]? = some line) {first : Match}
    (hfirst : ((matchesByLine lines ms).getD i []).head? = some first) :
    first.start < line.begin ↔ ∃ m ∈ ms, m.start < line.begin ∧ line.begin < m.stop := by
  obtain ⟨hi, -⟩ := List.getElem?_eq_some_iff.1 hline
  rw [matchesByLine_getD ms hi] at hfirst
  obtain ⟨hmem, hcov⟩ := List.mem_filter.1 (List.mem_of_head? hfirst)
  constructor
  · intro hlt
    exact ⟨first, hmem, hlt, (h.covers_iff hline hlt).1 (of_decide_eq_true hcov)⟩
  · rintro ⟨m, hm, hlt, hstop⟩
    have hon : m ∈ ms.filter (fun m => decide ((matchLines lines m).1 ≤ i ∧ i ≤ (matchLines lines m).2)) :=
      List.mem_filter.2 ⟨hm, decide_eq_true ((h.covers_iff hline hlt).2 hstop)⟩
    obtain ⟨rest, hrest⟩ := List.head?_eq_some_iff.1 hfirst
    have hpair := hsorted.filter (fun m => decide ((matchLines lines m).1 ≤ i ∧ i ≤ (matchLines lines m).2))
    rw [hrest] at hon hpair
    rcases List.mem_cons.1 hon with rfl | hrest
    · exact hlt
    · have hle := (List.pairwise_cons.1 hpair).1 m hrest
      unfold spanLe at hle
      split at hle
      · omega
      · omega

/-! ## The rows -/

theorem mem_matchRows {selected : List Bool} {ms : List Match} {row : Row} (h : row ∈ matchRows lines selected ms) :
    row.first ∈ ms ∧ row.line = lineForOffset lines row.first.start ∧
      ∃ line, lines[row.line]? = some line ∧ row.column = columnAt row.first.start line.begin := by
  obtain ⟨m, hm, h⟩ := List.mem_filterMap.1 h
  dsimp only at h
  split at h
  · obtain ⟨line, hline, rfl⟩ := Option.map_eq_some_iff.1 h
    exact ⟨hm, rfl, line, hline, rfl⟩
  · cases h

theorem mem_lineRows {a : Args} {selected : List Bool} {ms : List Match} {row : Row} : ∀ {is : List Nat} {skipUntil : Nat},
    row ∈ lineRows a lines selected ms is skipUntil → ∃ i, lineRow lines ms i = some row
  | [], _, h => absurd h List.not_mem_nil
  | i :: is, skipUntil, h => by
    rw [lineRows] at h
    split at h
    · exact mem_lineRows h
    split at h
    · exact mem_lineRows h
    · rcases List.mem_append.1 h with h | h
      · split at h
        · exact ⟨i, Option.mem_toList.1 h⟩
        · exact absurd h List.not_mem_nil
      · exact mem_lineRows h

theorem lineRow_eq_some {ms : List Match} {i : Nat} {row : Row} (h : lineRow lines ms i = some row) : row.line = i ∧
    ((matchesByLine lines ms).getD i []).head? = some row.first ∧
      ∃ line, lines[i]? = some line ∧ row.column = columnAt row.first.start line.begin := by
  obtain ⟨line, hline, h⟩ := Option.bind_eq_some_iff.1 h
  obtain ⟨first, hfirst, rfl⟩ := Option.map_eq_some_iff.1 h
  exact ⟨rfl, hfirst, line, hline, rfl⟩

end

theorem mem_fileRows {a : Args} {column : Bool} {data : Bytes} {found : List Match} {row : Row}
    (h : row ∈ fileRows a column data found) :
    if a.onlyMatching || a.vimgrep then
      ∃ selected, row ∈ matchRows (splitLines data (if a.nullData then 0 else 0x0A)) selected (keptMatches a data found)
    else ∃ i, lineRow (splitLines data (if a.nullData then 0 else 0x0A)) (keptMatches a data found) i = some row := by
  unfold fileRows at h
  dsimp only at h
  generalize (if a.nullData = true then (0 : UInt8) else 0x0A) = sep at h ⊢
  iterate 5
    split at h
    · exact absurd h List.not_mem_nil
  split at h
  · rename_i honly
    rw [if_pos (by rw [honly]; rfl)]
    split at h
    · exact absurd h List.not_mem_nil
    · exact ⟨_, h⟩
  · rename_i honly
    split at h
    · rename_i hvim
      rw [if_pos (by rw [hvim, Bool.or_true])]
      split at h
      · exact absurd h List.not_mem_nil
      · exact ⟨_, h⟩
    · rename_i hvim
      rw [if_neg (by rw [Bool.or_eq_true, not_or]; exact ⟨honly, hvim⟩)]
      split at h
      · exact mem_lineRows h
      · exact absurd h List.not_mem_nil

/-! ## The columns of a run -/

section
variable {icu : Icu} {plan : Planner} {a : Args} {c : Corpus} {perpat : List (List Match)}
  (h : perPattern icu plan a c = .ok perpat)
include h

theorem perPattern_holds : ∀ m ∈ perpat.flatten, c.index.Holds m := by
  unfold perPattern at h
  split at h
  · intro m hm
    obtain ⟨ps, -, p, ms, -, hms, hm⟩ := ((searchPatterns_ok icu plan a c h).2 m).1 hm
    exact find_holds c.built plan rfl hms m hm
  · cases h
    exact fun m hm => absurd hm List.not_mem_nil

theorem keptMatches_holds (fid : Nat) : ∀ m ∈ keptMatches a (c.index.data fid) (byFile c perpat fid),
    m.start ≤ m.stop ∧ m.stop ≤ (c.index.data fid).length := by
  intro m hm
  have hbyFile : m ∈ byFile c perpat fid := by
    rw [keptMatches_eq] at hm
    exact List.mem_of_mem_filter hm
  have hsorted : m ∈ (perpat.flatten.filter (fun m => c.allows m.fileId && m.fileId == fid)).insertionSort spanLe := by
    unfold byFile uniqueSpans at hbyFile
    split at hbyFile
    · exact absurd hbyFile List.not_mem_nil
    · rename_i x xs hxs
      rw [hxs]
      exact ((uniqueFrom_sublist x xs).cons_cons x).subset hbyFile
  rw [List.mem_insertionSort] at hsorted
  obtain ⟨hmem, hfile⟩ := List.mem_filter.1 hsorted
  rw [Bool.and_eq_true, beq_iff_eq] at hfile
  have hin := perPattern_holds h m hmem
  rw [← hfile.2]
  exact hin

/-- **A column is right** when its match is printed for itself, or when no match of the file starts before the line and ends
after its first byte; otherwise the subtraction is negative, and wraps around.  A file is far shorter than the bound
(`kMaxCorpusBytes`). -/
theorem fileRows_column_iff (column : Bool) (fid : Nat) (hsize : (c.index.data fid).length < 2 ^ 64 - 1) :
    ∀ row ∈ fileRows a column (c.index.data fid) (byFile c perpat fid), ∃ line,
      (splitLines (c.index.data fid) (if a.nullData then 0 else 0x0A))[row.line]? = some line ∧
      row.first ∈ keptMatches a (c.index.data fid) (byFile c perpat fid) ∧
      (if a.onlyMatching || a.vimgrep then
        row.line = lineForOffset (splitLines (c.index.data fid) (if a.nullData then 0 else 0x0A)) row.first.start
      else
        ((matchesByLine (splitLines (c.index.data fid) (if a.nullData then 0 else 0x0A))
          (keptMatches a (c.index.data fid) (byFile c perpat fid))).getD row.line []).head? = some row.first) ∧
      (row.column = max row.first.start line.begin - line.begin + 1 ↔ line.begin ≤ row.first.start) ∧
      (line.begin ≤ row.first.start ↔ (a.onlyMatching || a.vimgrep) = true ∨
        ∀ m ∈ keptMatches a (c.index.data fid) (byFile c perpat fid), ¬ (m.start < line.begin ∧ line.begin < m.stop)) := by
  intro row hrow
  have hparts := splitLines_partitions (c.index.data fid) (if a.nullData then 0 else 0x0A)
  have hkind := mem_fileRows hrow
  have hcol : ∀ {line : LineRecord}, row.first ∈ keptMatches a (c.index.data fid) (byFile c perpat fid) →
      line ∈ splitLines (c.index.data fid) (if a.nullData then 0 else 0x0A) →
      (columnAt row.first.start line.begin = max row.first.start line.begin - line.begin + 1 ↔
        line.begin ≤ row.first.start) := by
    intro line hfirst hline
    have hspan := keptMatches_holds h fid row.first hfirst
    have hin := hparts.within line hline
    exact columnAt_eq_iff (by omega) (by omega)
  by_cases hown : (a.onlyMatching || a.vimgrep) = true
  · rw [if_pos hown] at hkind
    obtain ⟨selected, hmem⟩ := hkind
    obtain ⟨hfirst, hline, line, hget, hcolumn⟩ := mem_matchRows hmem
    refine ⟨line, hget, hfirst, by rw [if_pos hown]; exact hline, ?_, ?_⟩
    · rw [hcolumn]
      exact hcol hfirst (List.mem_of_getElem? hget)
    · exact iff_of_true ((hparts.le_lineForOffset hget).1 (Nat.le_of_eq hline)) (Or.inl hown)
  · rw [if_neg hown] at hkind
    obtain ⟨i, hrowi⟩ := hkind
    obtain ⟨rfl, hhead, line, hget, hcolumn⟩ := lineRow_eq_some hrowi
    obtain ⟨hi, -⟩ := List.getElem?_eq_some_iff.1 hget
    have hfirst : row.first ∈ keptMatches a (c.index.data fid) (byFile c perpat fid) := by
      have hmem := List.mem_of_head? hhead
      rw [matchesByLine_getD _ hi] at hmem
      exact List.mem_of_mem_filter hmem
    refine ⟨line, hget, hfirst, by rw [if_neg hown]; exact hhead, ?_, ?_⟩
    · rw [hcolumn]
      exact hcol hfirst (List.mem_of_getElem? hget)
    · rw [or_iff_right hown, ← Nat.not_lt,
        hparts.first_before_iff (keptMatches_sorted a _ (byFile_sorted c perpat fid)) hget hhead]
      simp only [not_exists, not_and]

end

/-! ## A match over two lines -/

def acrossIndex : IndexData :=
  match fromDocuments [{ path := [0x66], content := [0x61, 0x0A, 0x62] }] smallChunks with
  | .ok I    => I
  | .error _ => { opt := smallChunks }

theorem acrossIndex_built : Built acrossIndex := by
  cases h : fromDocuments [{ path := [0x66], content := [0x61, 0x0A, 0x62] }] smallChunks with
  | ok I =>
    rw [acrossIndex, h]
    exact (fromDocuments_built h).1
  | error e =>
    have hok : (fromDocuments [{ path := [0x66], content := [0x61, 0x0A, 0x62] }] smallChunks).toBool = true := by
      decide +kernel
    rw [h] at hok
    cases hok

theorem acrossIndex_files : acrossIndex.infos.length = 1 := by decide +kernel

def acrossCorpus : Corpus where
  index := acrossIndex
  built := acrossIndex_built
  allowed := [true]
  allowed_length := acrossIndex_files.symm
  order := [0]
  order_perm := by
    rw [acrossIndex_files]
    exact List.Perm.refl _

/-- The pattern `a`, a line feed, `b`, searched over line ends. -/
def acrossArgs : Args := { patterns := [[0x61, 0x0A, 0x62]], popt := { multiline := true } }

theorem acrossArgs_perPattern : ∃ perpat, perPattern asciiIcu (fun _ _ => none) acrossArgs acrossCorpus = .ok perpat ∧
    fileRows acrossArgs true (acrossCorpus.index.data 0) (byFile acrossCorpus perpat 0) =
      [⟨0, ⟨0, 0, 3, []⟩, 1⟩, ⟨1, ⟨0, 0, 3, []⟩, 2 ^ 64 - 1⟩] := by
  obtain ⟨perpat, hok, hcheck⟩ := returns_iff.1 (show returns
      (perPattern asciiIcu (fun _ _ => none) acrossArgs acrossCorpus) (fun perpat => decide (
        fileRows acrossArgs true (acrossCorpus.index.data 0) (byFile acrossCorpus perpat 0) =
          [⟨0, ⟨0, 0, 3, []⟩, 1⟩, ⟨1, ⟨0, 0, 3, []⟩, 2 ^ 64 - 1⟩])) = true by decide +kernel)
  exact ⟨perpat, hok, of_decide_eq_true hcheck⟩

/-- The row of the second line. -/
theorem fileRows_column_across : ∃ perpat, perPattern asciiIcu (fun _ _ => none) acrossArgs acrossCorpus = .ok perpat ∧
    ∃ line, (splitLines (acrossCorpus.index.data 0) 0x0A)[1]? = some line ∧
      (2 ^ 64 - 1 = max 0 line.begin - line.begin + 1 ↔ line.begin ≤ 0) := by
  obtain ⟨perpat, hok, hrows⟩ := acrossArgs_perPattern
  obtain ⟨line, hline, -, -, hcol, -⟩ := fileRows_column_iff hok true 0 (by decide +kernel)
    ⟨1, ⟨0, 0, 3, []⟩, 2 ^ 64 - 1⟩ (by rw [hrows]; exact List.mem_cons_of_mem _ List.mem_cons_self)
  exact ⟨perpat, hok, line, hline, hcol⟩

/-- The match starts on the first line, and the second is printed with a column of twenty digits. -/
theorem not_fileRows_column :
    ¬ ∀ (icu : Icu) (plan : Planner) (a : Args) (c : Corpus) (perpat : List (List Match)) (column : Bool) (fid : Nat),
      perPattern icu plan a c = .ok perpat → (c.index.data fid).length < 2 ^ 64 - 1 →
      ∀ row ∈ fileRows a column (c.index.data fid) (byFile c perpat fid), ∀ line,
        (splitLines (c.index.data fid) (if a.nullData then 0 else 0x0A))[row.line]? = some line →
        row.column = max row.first.start line.begin - line.begin + 1 := by
  intro h
  obtain ⟨perpat, hok, hrows⟩ := acrossArgs_perPattern
  have hline : (splitLines (acrossCorpus.index.data 0) 0x0A)[1]? = some ⟨2, 3, 3⟩ := by decide +kernel
  have hcol := h asciiIcu (fun _ _ => none) acrossArgs acrossCorpus perpat true 0 hok (by decide +kernel)
    ⟨1, ⟨0, 0, 3, []⟩, 2 ^ 64 - 1⟩ (by rw [hrows]; exact List.mem_cons_of_mem _ List.mem_cons_self) ⟨2, 3, 3⟩ hline
  exact absurd hcol (by decide)

end Pergrep.Cli
