import Pergrep.Cli.Pieces
import Pergrep.Lib.Strides
/-!
# Context — the lines around those that are selected

The last printing mode of `main` goes through the lines of a file and prints the selected ones with their context.  A replacement
that goes over the end of its line takes the lines up to the end of its match with it; the loop then passes over the lines of every
match that starts on the line, replaced or not, and remembers the first line of what it has printed where it should remember the
last.  A line is shown where each of its bytes is printed or a replacement stands for it (`ShowsLine`).  Each line is shown once
and the separators stand in the gaps exactly when no replacement leaves bytes out and neither of the two matters
(`fileItems_shown_iff`).
-/
namespace Pergrep.Cli

/-- What the printing of a line depends on besides the search. -/
structure LineStyle where
  trim : Bool := false
  maxColumns : Nat := 0
  maxColumnsPreview : Bool := false
  contextSepDisabled : Bool := false

/-- What is printed for a line: whether the context separator stands before it, its index, and its text. -/
structure Item where
  separator : Bool
  line : Nat
  text : Bytes
deriving Repr, DecidableEq

def lineEnd (a : Args) : UInt8 := if a.nullData then 0 else 0x0A

def endsLine (s : Bytes) : Bool := s.getLast?.any (fun b => b == 0x0A || b == 0)

/-- `rendered`, once it has been trimmed and cut to its columns and has an end. -/
def printedText (a : Args) (style : LineStyle) (rendered : Bytes) : Bytes :=
  let rendered := if style.trim then rendered.dropWhile (fun b => b == 0x20 || b == 0x09) else rendered
  let contentLen := if endsLine rendered then rendered.length - 1 else rendered.length
  let rendered :=
    if 0 < style.maxColumns ∧ style.maxColumns < contentLen then
      if style.maxColumnsPreview then rendered.take style.maxColumns ++ [lineEnd a]
      else "[Omitted long matching line]".toUTF8.data.toList ++ [lineEnd a]
    else rendered
  if endsLine rendered then rendered else rendered ++ [lineEnd a]

def replaces (a : Args) (selected : List Bool) (i : Nat) : Bool :=
  selected.getD i false && !a.replacement.isEmpty && !a.sopt.invertMatch

def renderedLine (a : Args) (data : Bytes) (lines : List LineRecord) (selected : List Bool) (ms : List Match) (i : Nat) : Bytes :=
  match lines[i]? with
  | none => []
  | some line =>
    if replaces a selected i then replaceLine data line ms a.replacement lines i else slice data line.begin line.termEnd

/-- Separators are printed: context is asked for, and not every line is printed anyway. -/
def separatesContext (a : Args) (style : LineStyle) : Bool :=
  !a.passthru && (decide (0 < a.after) || decide (0 < a.before)) && !style.contextSepDisabled

/-- The printing of the lines, as `printLines` goes through them; `previous` is the last index that was printed. -/
def contextItems (a : Args) (style : LineStyle) (data : Bytes) (lines : List LineRecord) (selected : List Bool)
    (ms : List Match) : List Nat → Nat → Option Nat → List Item
  | [], _, _ => []
  | i :: rest, skipUntil, previous =>
    if i < skipUntil then contextItems a style data lines selected ms rest skipUntil previous
    else if !emitsLine a selected i then contextItems a style data lines selected ms rest skipUntil previous
    else
      { separator := separatesContext a style && previous.any (fun previousIndex => decide (previousIndex + 1 < i))
        line := i
        text := printedText a style (renderedLine a data lines selected ms i) } ::
      contextItems a style data lines selected ms rest
        (if selected.getD i false then skipAfter a lines ms i skipUntil else skipUntil) (some i)

/-! ## What is shown -/

/-- The last line of what is printed for a line: that of the replaced match which goes over its end. -/
def shownThrough (a : Args) (lines : List LineRecord) (selected : List Bool) (ms : List Match) (i : Nat) : Nat :=
  if replaces a selected i then
    match lines[i]? with
    | none => i
    | some line =>
      match crossingFrom line ms line.begin with
      | none => i
      | some m => (matchLines lines m).2
  else i

/-- The pieces that are printed for a line: its bytes, or what `replace_line` puts together. -/
def linePieces (a : Args) (lines : List LineRecord) (selected : List Bool) (ms : List Match) (i : Nat) : List LinePiece :=
  match lines[i]? with
  | none => []
  | some line =>
    if replaces a selected i then piecesFrom line lines ms line.begin else [.copied line.begin line.termEnd]

/-- What is printed for the line `i` shows the line `j`: each byte of it, or a replacement that stands for the byte. -/
def ShowsLine (a : Args) (lines : List LineRecord) (selected : List Bool) (ms : List Match) (i j : Nat) : Prop :=
  ∃ line, lines[j]? = some line ∧
    ∀ p, line.begin ≤ p → p < line.termEnd → ∃ q ∈ linePieces a lines selected ms i, q.Shows p

/-- The replacements on the line leave some of its bytes out. -/
def loses (a : Args) (lines : List LineRecord) (selected : List Bool) (ms : List Match) (i : Nat) : Bool :=
  replaces a selected i && (lines[i]?).any (fun line => losesFrom line ms line.begin)

/-- The line is within `before` lines above a selected one or `after` lines below. -/
def InWindow (a : Args) (selected : List Bool) (j : Nat) : Prop :=
  ∃ i, selected.getD i false = true ∧ i ≤ j + a.before ∧ j ≤ i + a.after

theorem lt_length_of_getD {bits : List Bool} {i : Nat} (h : bits.getD i false = true) : i < bits.length := by
  by_contra hge
  rw [List.getD_eq_default _ _ (by omega)] at h
  cases h

theorem emitsLine_iff {a : Args} {selected : List Bool} {j : Nat} :
    emitsLine a selected j = true ↔ a.passthru = true ∨ InWindow a selected j := by
  unfold emitsLine InWindow
  simp only [Bool.or_eq_true, List.any_eq_true, List.mem_range, Bool.and_eq_true, decide_eq_true_eq]
  refine or_congr_right (exists_congr (fun i => ?_))
  constructor
  · rintro ⟨-, ⟨hsel, hlow⟩, hhigh⟩
    exact ⟨hsel, by omega, by omega⟩
  · rintro ⟨hsel, hlow, hhigh⟩
    exact ⟨lt_length_of_getD hsel, ⟨hsel, by omega⟩, by omega⟩

/-! ## Where the loop goes on -/

/-- Where the loop goes on after a line it has printed, if not at the next. -/
def reach (a : Args) (lines : List LineRecord) (selected : List Bool) (ms : List Match) (i : Nat) : Nat :=
  if selected.getD i false then skipAfter a lines ms i 0 else 0

theorem foldl_max_eq (g : Match → Nat) : ∀ (ms : List Match) (s : Nat),
    ms.foldl (fun s m => max s (g m)) s = max s (ms.foldl (fun s m => max s (g m)) 0)
  | [], s => (Nat.max_eq_left (Nat.zero_le s)).symm
  | m :: ms, s => by
    rw [List.foldl_cons, List.foldl_cons, foldl_max_eq g ms (max s (g m)), foldl_max_eq g ms (max 0 (g m))]
    omega

theorem le_foldl_max (g : Match → Nat) : ∀ {ms : List Match} {m : Match}, m ∈ ms → g m ≤ ms.foldl (fun s m => max s (g m)) 0
  | x :: ms, m, hm => by
    rw [List.foldl_cons, foldl_max_eq]
    rcases List.mem_cons.1 hm with rfl | hm
    · omega
    · have ih := le_foldl_max g hm
      omega

def passesOver (lines : List LineRecord) (line : LineRecord) (i : Nat) (m : Match) : Nat :=
  if (line.begin ≤ m.start ∧ m.start < line.termEnd ∧ line.termEnd < m.stop) ∧ i < (matchLines lines m).2 then
    (matchLines lines m).2 + 1
  else 0

section

variable {a : Args} {lines : List LineRecord} {selected : List Bool} {ms : List Match} {i : Nat}

theorem skipAfter_eq {line : LineRecord} (hline : lines[i]? = some line) (hrepl : (a.replacement.isEmpty || a.sopt.invertMatch) = false)
    (skipUntil : Nat) : skipAfter a lines ms i skipUntil = ms.foldl (fun s m => max s (passesOver lines line i m)) skipUntil := by
  unfold skipAfter
  rw [hrepl, if_neg Bool.false_ne_true, hline]
  dsimp only
  congr 1
  funext s m
  unfold passesOver
  by_cases hon : line.begin ≤ m.start ∧ m.start < line.termEnd ∧ line.termEnd < m.stop
  · rw [if_pos hon]
    by_cases hlast : i < (matchLines lines m).2
    · rw [if_pos hlast, if_pos ⟨hon, hlast⟩]
    · rw [if_neg hlast, if_neg (fun h => hlast h.2), Nat.max_zero]
  · rw [if_neg hon, if_neg (fun h => hon h.1), Nat.max_zero]

theorem skipAfter_max (skipUntil : Nat) : skipAfter a lines ms i skipUntil = max skipUntil (skipAfter a lines ms i 0) := by
  cases hrepl : a.replacement.isEmpty || a.sopt.invertMatch with
  | true =>
    unfold skipAfter
    rw [hrepl, if_pos rfl, if_pos rfl, Nat.max_zero]
  | false =>
    cases hline : lines[i]? with
    | none =>
      unfold skipAfter
      rw [hrepl, if_neg Bool.false_ne_true, if_neg Bool.false_ne_true, hline]
      exact (Nat.max_zero _).symm
    | some line =>
      rw [skipAfter_eq hline hrepl, skipAfter_eq hline hrepl, foldl_max_eq]

/-- **What is printed for a line** ends before the loop goes on. -/
theorem stands {data : Bytes} {sep : UInt8} (hpart : Partitions data sep 0 lines) :
    Strides.Stands (emitsLine a selected) (reach a lines selected ms) (shownThrough a lines selected ms) := by
  have hshown : ∀ i, shownThrough a lines selected ms i = i ∨ (i < shownThrough a lines selected ms i ∧
      shownThrough a lines selected ms i < reach a lines selected ms i) := by
    intro i
    unfold shownThrough
    split
    · rename_i hrepl
      split
      · exact Or.inl rfl
      · rename_i line hline
        split
        · exact Or.inl rfl
        · rename_i m hcross
          obtain ⟨hmem, hbegin, hend, hstop⟩ := crossingFrom_spec hcross
          rcases Nat.lt_or_eq_of_le (le_matchLines hpart hline hbegin hend) with hlt | heq
          · refine Or.inr ⟨hlt, ?_⟩
            simp only [replaces, Bool.and_eq_true, Bool.not_eq_true'] at hrepl
            obtain ⟨⟨hsel, hne⟩, hinv⟩ := hrepl
            have hpasses : passesOver lines line i m = (matchLines lines m).2 + 1 := if_pos ⟨⟨hbegin, hend, hstop⟩, hlt⟩
            have hle := le_foldl_max (passesOver lines line i) hmem
            rw [reach, if_pos hsel, skipAfter_eq hline (by rw [hne, hinv]; rfl)]
            omega
          · exact Or.inl heq.symm
    · exact Or.inl rfl
  constructor
  · intro i
    rcases hshown i with h | h
    · omega
    · omega
  · intro i
    rcases hshown i with h | h
    · omega
    · omega

end

/-! ## The items -/

section

variable {a : Args} {style : LineStyle} {data : Bytes} {lines : List LineRecord} {selected : List Bool} {ms : List Match}

/-- **The lines that are printed** are those of the walk. -/
theorem contextItems_lines : ∀ (is : List Nat) (skipUntil : Nat) (previous : Option Nat),
    (contextItems a style data lines selected ms is skipUntil previous).map Item.line =
      Strides.walk (emitsLine a selected) (reach a lines selected ms) is skipUntil
  | [], _, _ => rfl
  | i :: is, skipUntil, previous => by
    rw [contextItems, Strides.walk]
    split
    · exact contextItems_lines is skipUntil previous
    · split
      · exact contextItems_lines is skipUntil previous
      · have hskip : (if selected.getD i false then skipAfter a lines ms i skipUntil else skipUntil) =
            max skipUntil (reach a lines selected ms i) := by
          unfold reach
          split
          · exact skipAfter_max skipUntil
          · exact (Nat.max_zero _).symm
        rw [List.map_cons, contextItems_lines is _ (some i), hskip]

theorem contextItems_text : ∀ {is : List Nat} {skipUntil : Nat} {previous : Option Nat} {x : Item},
    x ∈ contextItems a style data lines selected ms is skipUntil previous →
      x.text = printedText a style (renderedLine a data lines selected ms x.line)
  | [], _, _, _, h => by cases h
  | i :: is, skipUntil, previous, x, h => by
    rw [contextItems] at h
    split at h
    · exact contextItems_text h
    · split at h
      · exact contextItems_text h
      · rcases List.mem_cons.1 h with rfl | h
        · rfl
        · exact contextItems_text h

theorem head_separator : ∀ {is : List Nat} {skipUntil : Nat} {previous : Option Nat} {y : Item},
    (contextItems a style data lines selected ms is skipUntil previous)[0]? = some y →
      y.separator = (separatesContext a style && previous.any (fun previousIndex => decide (previousIndex + 1 < y.line)))
  | [], _, _, _, h => by cases h
  | i :: is, skipUntil, previous, y, h => by
    rw [contextItems] at h
    split at h
    · exact head_separator h
    · split at h
      · exact head_separator h
      · rw [List.getElem?_cons_zero] at h
        cases h
        rfl

/-- **A separator stands** where an index is passed over after the last that was printed. -/
theorem next_separator : ∀ {is : List Nat} {skipUntil : Nat} {previous : Option Nat} {k : Nat} {x y : Item},
    (contextItems a style data lines selected ms is skipUntil previous)[k]? = some x →
    (contextItems a style data lines selected ms is skipUntil previous)[k + 1]? = some y →
      y.separator = (separatesContext a style && decide (x.line + 1 < y.line))
  | [], _, _, _, _, _, h, _ => by cases h
  | i :: is, skipUntil, previous, k, x, y, hx, hy => by
    rw [contextItems] at hx hy
    split at hx
    · rename_i hlt
      rw [if_pos hlt] at hy
      exact next_separator hx hy
    rename_i hlt
    rw [if_neg hlt] at hy
    split at hx
    · rename_i hnot
      rw [if_pos hnot] at hy
      exact next_separator hx hy
    rename_i hnot
    rw [if_neg hnot] at hy
    cases k with
    | zero =>
      rw [List.getElem?_cons_zero] at hx
      rw [List.getElem?_cons_succ] at hy
      cases hx
      exact head_separator hy
    | succ k =>
      rw [List.getElem?_cons_succ] at hx hy
      exact next_separator hx hy

end

/-! ## The lines an item shows -/

section

variable {a : Args} {data : Bytes} {sep : UInt8} {lines : List LineRecord} {selected : List Bool} {ms : List Match} {i j : Nat}
  (hpart : Partitions data sep 0 lines)
include hpart

/-- **The text of an item** is that of its pieces. -/
theorem renderedLine_eq_pieces : renderedLine a data lines selected ms i =
    (linePieces a lines selected ms i).flatMap (LinePiece.text data a.replacement) := by
  unfold renderedLine linePieces
  cases hline : lines[i]? with
  | none => rfl
  | some line =>
    dsimp only
    split
    · exact replaceFrom_eq_pieces hpart hline (Nat.le_refl _)
    · rw [List.flatMap_singleton]
      rfl

theorem le_of_lt_termEnd {line other : LineRecord} {p : Nat} (hline : lines[i]? = some line) (hother : lines[j]? = some other)
    (hp : other.begin ≤ p) (hend : p < line.termEnd) : j ≤ i := by
  by_contra hlt
  have := hpart.termEnd_le_begin hline hother (by omega)
  omega

/-- The lines an item shows are its own and those after it up to the last of the match that goes over its end. -/
theorem ShowsLine.bounds (h : ShowsLine a lines selected ms i j) : i ≤ j ∧ j ≤ shownThrough a lines selected ms i := by
  obtain ⟨other, hother, hall⟩ := h
  have hnonempty := (hpart.within other (List.mem_of_getElem? hother)).2.2.1
  obtain ⟨q, hq, hshows⟩ := hall other.begin (Nat.le_refl _) hnonempty
  unfold linePieces at hq
  unfold shownThrough
  cases hline : lines[i]? with
  | none =>
    rw [hline] at hq
    cases hq
  | some line =>
    rw [hline] at hq
    dsimp only at hq ⊢
    have hself : ∀ {p : Nat}, line.begin ≤ p → p < other.termEnd → i ≤ j :=
      fun hp hend => le_of_lt_termEnd hpart hother hline hp hend
    split at hq
    · rename_i hrepl
      rw [if_pos hrepl]
      obtain ⟨hle, hend⟩ := bounds_of_shows hshows hq
      refine ⟨hself hle hnonempty, ?_⟩
      rcases hend with hend | ⟨m, hcross, hend⟩
      · have hji := le_of_lt_termEnd hpart hline hother (Nat.le_refl _) hend
        cases hcross : crossingFrom line ms line.begin with
        | none => exact hji
        | some m =>
          obtain ⟨-, hbegin, hstart, -⟩ := crossingFrom_spec hcross
          exact hji.trans (le_matchLines hpart hline hbegin hstart)
      · obtain ⟨-, hbegin, hstart, hstop⟩ := crossingFrom_spec hcross
        rw [hcross]
        dsimp only
        rcases hend with hend | hend
        · have hmono : lineForOffset lines other.begin ≤ lineForOffset lines (m.stop - 1) := lineForOffset_mono (by omega)
          rw [hpart.lineForOffset_eq hother (Nat.le_refl _) hnonempty] at hmono
          unfold matchLines
          rwa [if_pos (by omega)]
        · obtain ⟨last, hlast, hmatch, -⟩ := exists_lastLine hpart hline hbegin hstart
          rw [hmatch] at hend
          exact le_of_lt_termEnd hpart hlast hother (Nat.le_refl _) hend
    · rename_i hrepl
      rw [if_neg hrepl]
      rw [List.mem_singleton.1 hq] at hshows
      exact ⟨hself hshows.1 hnonempty, le_of_lt_termEnd hpart hline hother (Nat.le_refl _) hshows.2⟩

/-- **An item that loses nothing** shows all of them. -/
theorem showsLine_of_not_loses (hi : i < lines.length) (hj : j < lines.length) (hkeeps : loses a lines selected ms i = false)
    (hle : i ≤ j) (hshown : j ≤ shownThrough a lines selected ms i) : ShowsLine a lines selected ms i j := by
  obtain ⟨line, hline⟩ : ∃ line, lines[i]? = some line := ⟨_, List.getElem?_eq_getElem hi⟩
  obtain ⟨other, hother⟩ : ∃ other, lines[j]? = some other := ⟨_, List.getElem?_eq_getElem hj⟩
  refine ⟨other, hother, fun p hp hend => ?_⟩
  unfold loses at hkeeps
  unfold shownThrough at hshown
  unfold linePieces
  rw [hline, Option.any_some] at hkeeps
  rw [hline] at hshown ⊢
  dsimp only at hshown ⊢
  have hbegin : line.begin ≤ p := by
    rcases Nat.lt_or_eq_of_le hle with hlt | rfl
    · have h := hpart.termEnd_le_begin hline hother hlt
      have h' := (hpart.within line (List.mem_of_getElem? hline)).2.2.1
      omega
    · rw [hline] at hother
      cases hother
      exact hp
  have hself : j = i → p < line.termEnd := by
    rintro rfl
    rw [hline] at hother
    cases hother
    exact hend
  split
  · rename_i hrepl
    rw [hrepl, Bool.true_and] at hkeeps
    rw [if_pos hrepl] at hshown
    refine shows_of_not_loses hkeeps hbegin ?_
    cases hcross : crossingFrom line ms line.begin with
    | none =>
      rw [hcross] at hshown
      exact Or.inl (hself (Nat.le_antisymm hshown hle))
    | some m =>
      rw [hcross] at hshown
      dsimp only at hshown
      obtain ⟨-, hle, hstart, -⟩ := crossingFrom_spec hcross
      obtain ⟨last, hlast, hmatch, -⟩ := exists_lastLine hpart hline hle hstart
      refine Or.inr ⟨m, rfl, ?_⟩
      rw [hmatch]
      rcases Nat.lt_or_eq_of_le hshown with hlt | heq
      · have h := hpart.termEnd_le_begin hother hlast hlt
        have h' := (hpart.within last (List.mem_of_getElem? hlast)).2.2.1
        omega
      · rw [← heq, hother] at hlast
        cases hlast
        exact hend
  · rename_i hrepl
    rw [if_neg hrepl] at hshown
    exact ⟨_, List.mem_singleton.2 rfl, hbegin, hself (Nat.le_antisymm hshown hle)⟩

theorem not_showsLine_of_loses (hms : ∀ m ∈ ms, m.start ≤ m.stop) (h : loses a lines selected ms i = true) :
    ¬ ShowsLine a lines selected ms i i := by
  unfold loses at h
  obtain ⟨hrepl, h⟩ := Bool.and_eq_true_iff.1 h
  rw [Option.any_eq_true] at h
  obtain ⟨line, hline, h⟩ := h
  have hnonempty := (hpart.within line (List.mem_of_getElem? hline)).2.2.1
  obtain ⟨p, hp, hend, hlost⟩ :
      ∃ p, line.begin ≤ p ∧ p < line.termEnd ∧ ∀ q ∈ piecesFrom line lines ms line.begin, ¬ q.Shows p :=
    exists_lost hms h hnonempty
  rintro ⟨other, hother, hall⟩
  rw [hline] at hother
  cases hother
  obtain ⟨q, hq, hshows⟩ := hall p hp hend
  unfold linePieces at hq
  rw [hline] at hq
  dsimp only at hq
  rw [if_pos hrepl] at hq
  exact hlost q hq hshows

end

/-! ## Each line once, and separators in the gaps -/

/-- The items print what they are made of; the lines around the selected ones are shown once, in order, with the separator in
the gaps. -/
structure ContextShown (a : Args) (style : LineStyle) (data : Bytes) (lines : List LineRecord) (selected : List Bool)
    (ms : List Match) (items : List Item) : Prop where
  text : ∀ x ∈ items, x.text =
    printedText a style ((linePieces a lines selected ms x.line).flatMap (LinePiece.text data a.replacement))
  once : ∀ j < lines.length, InWindow a selected j → ∃! x, x ∈ items ∧ ShowsLine a lines selected ms x.line j
  ascending : items.Pairwise (fun x y => x.line < y.line ∧
    ∀ j k, ShowsLine a lines selected ms x.line j → ShowsLine a lines selected ms y.line k → j < k)
  separator : ∀ (k : Nat) (x y : Item), items[k]? = some x → items[k + 1]? = some y →
    (y.separator = true ↔ separatesContext a style = true ∧ ∃ j < lines.length,
      (∀ l, ShowsLine a lines selected ms x.line l → l < j) ∧ (∀ l, ShowsLine a lines selected ms y.line l → j < l))

/-- No replacement leaves bytes of its line out, no line around a selected one is passed over beyond a replacement, and none
follows a replacement over a line's end at once where separators are printed. -/
structure ContextKept (a : Args) (style : LineStyle) (lines : List LineRecord) (selected : List Bool) (ms : List Match) :
    Prop where
  whole : ∀ i, Strides.Opens (emitsLine a selected) (reach a lines selected ms) i → loses a lines selected ms i = false
  kept : ∀ i, Strides.Opens (emitsLine a selected) (reach a lines selected ms) i →
    ∀ j, shownThrough a lines selected ms i < j → j < reach a lines selected ms i → j < lines.length → ¬ InWindow a selected j
  apart : separatesContext a style = true → ∀ i, Strides.Opens (emitsLine a selected) (reach a lines selected ms) i →
    i < shownThrough a lines selected ms i → shownThrough a lines selected ms i + 1 < lines.length →
      ¬ InWindow a selected (shownThrough a lines selected ms i + 1)

section

variable (a : Args) (style : LineStyle) (data : Bytes) (sep : UInt8) (selected : List Bool) (ms : List Match)

def fileItems : List Item :=
  contextItems a style data (splitLines data sep) selected ms (List.range (splitLines data sep).length) 0 none

theorem fileItems_lines : (fileItems a style data sep selected ms).map Item.line =
    Strides.walk (emitsLine a selected) (reach a (splitLines data sep) selected ms) (List.range (splitLines data sep).length) 0 :=
  contextItems_lines _ 0 none

theorem fileItems_ascending : (fileItems a style data sep selected ms).Pairwise
    (fun x y => shownThrough a (splitLines data sep) selected ms x.line < y.line) := by
  rw [← List.pairwise_map (f := Item.line) (R := fun x y => shownThrough a (splitLines data sep) selected ms x < y), fileItems_lines]
  refine (Strides.walk_pairwise _).imp_of_mem (fun {x y} hx hy hlt => ?_)
  exact Strides.shown_lt (@stands a _ selected ms data sep (splitLines_partitions data sep)) (Strides.mem_walk_iff.1 hx).2
    (Strides.mem_walk_iff.1 hy).2 hlt

theorem existsUnique_item_iff (j : Nat) :
    (∃! x, x ∈ fileItems a style data sep selected ms ∧ x.line ≤ j ∧ j ≤ shownThrough a (splitLines data sep) selected ms x.line) ↔
      ∃ i ∈ Strides.walk (emitsLine a selected) (reach a (splitLines data sep) selected ms) (List.range (splitLines data sep).length) 0,
        i ≤ j ∧ j ≤ shownThrough a (splitLines data sep) selected ms i := by
  rw [← fileItems_lines a style data sep selected ms]
  constructor
  · rintro ⟨x, ⟨hx, hle, hle'⟩, -⟩
    exact ⟨x.line, List.mem_map_of_mem hx, hle, hle'⟩
  · rintro ⟨i, hi, hle, hle'⟩
    obtain ⟨x, hx, rfl⟩ := List.mem_map.1 hi
    refine ⟨x, ⟨hx, hle, hle'⟩, ?_⟩
    rintro y ⟨hy, hley, hley'⟩
    have hsorted := List.pairwise_iff_getElem.1 (fileItems_ascending a style data sep selected ms)
    obtain ⟨p, hp, rfl⟩ := List.getElem_of_mem hx
    obtain ⟨q, hq, rfl⟩ := List.getElem_of_mem hy
    rcases Nat.lt_trichotomy p q with hlt | rfl | hgt
    · have := hsorted p q hp hq hlt
      omega
    · rfl
    · have := hsorted q p hq hp hgt
      omega

theorem fileItems_once_iff : (∀ j < (splitLines data sep).length, InWindow a selected j →
      ∃! x, x ∈ fileItems a style data sep selected ms ∧ x.line ≤ j ∧
        j ≤ shownThrough a (splitLines data sep) selected ms x.line) ↔
    Strides.Kept (emitsLine a selected) (reach a (splitLines data sep) selected ms) (shownThrough a (splitLines data sep) selected ms)
      (splitLines data sep).length (InWindow a selected) := by
  rw [← Strides.covered_iff (@stands a _ selected ms data sep (splitLines_partitions data sep))
    (fun j hj => emitsLine_iff.2 (Or.inr hj))]
  exact forall_congr' (fun j => forall_congr' (fun _ => forall_congr' (fun _ => existsUnique_item_iff a style data sep selected ms j)))

theorem fileItems_separator_iff (hkept : Strides.Kept (emitsLine a selected) (reach a (splitLines data sep) selected ms)
      (shownThrough a (splitLines data sep) selected ms) (splitLines data sep).length (InWindow a selected)) :
    (∀ (k : Nat) (x y : Item), (fileItems a style data sep selected ms)[k]? = some x →
      (fileItems a style data sep selected ms)[k + 1]? = some y → (y.separator = true ↔ separatesContext a style = true ∧
        shownThrough a (splitLines data sep) selected ms x.line + 1 < y.line)) ↔
    (separatesContext a style = true → ∀ i, Strides.Opens (emitsLine a selected) (reach a (splitLines data sep) selected ms) i →
      i < shownThrough a (splitLines data sep) selected ms i →
        shownThrough a (splitLines data sep) selected ms i + 1 < (splitLines data sep).length →
          ¬ InWindow a selected (shownThrough a (splitLines data sep) selected ms i + 1)) := by
  have hnext : ∀ {k : Nat} {x y : Item}, (fileItems a style data sep selected ms)[k]? = some x →
      (fileItems a style data sep selected ms)[k + 1]? = some y →
        y.separator = (separatesContext a style && decide (x.line + 1 < y.line)) := next_separator
  cases hsep : separatesContext a style with
  | false =>
    refine iff_of_true (fun k x y hx hy => ?_) (fun h => by cases h)
    rw [hnext hx hy, hsep, Bool.false_and]
    exact iff_of_false Bool.false_ne_true (fun h => Bool.false_ne_true h.1)
  | true =>
    -- where separators are printed, what is printed is the windows
    have hpass : a.passthru = false := by
      unfold separatesContext at hsep
      cases hp : a.passthru with
      | false => rfl
      | true =>
        rw [hp] at hsep
        cases hsep
    have hwant : ∀ j, emitsLine a selected j = true ↔ InWindow a selected j := by
      intro j
      rw [emitsLine_iff, hpass]
      exact or_iff_right Bool.false_ne_true
    have hlines := fileItems_lines a style data sep selected ms
    have hgaps := Strides.gaps_iff (@stands a _ selected ms data sep (splitLines_partitions data sep))
      (n := (splitLines data sep).length) (fun i hi j hij hj hjn hwantj => hkept i hi j hij hj hjn ((hwant j).1 hwantj))
    have hapart : Strides.Apart (emitsLine a selected) (reach a (splitLines data sep) selected ms)
        (shownThrough a (splitLines data sep) selected ms) (splitLines data sep).length ↔
        ∀ i, Strides.Opens (emitsLine a selected) (reach a (splitLines data sep) selected ms) i →
          i < shownThrough a (splitLines data sep) selected ms i →
            shownThrough a (splitLines data sep) selected ms i + 1 < (splitLines data sep).length →
              ¬ InWindow a selected (shownThrough a (splitLines data sep) selected ms i + 1) := by
      refine forall_congr' (fun i => forall_congr' (fun _ => forall_congr' (fun _ => forall_congr' (fun _ => ?_))))
      rw [← hwant, Bool.not_eq_true]
    rw [forall_prop_of_true rfl, ← hapart, ← hgaps, ← hlines]
    constructor
    · intro h k x y hx hy
      rw [List.getElem?_map, Option.map_eq_some_iff] at hx hy
      obtain ⟨X, hX, rfl⟩ := hx
      obtain ⟨Y, hY, rfl⟩ := hy
      have hiff := h k X Y hX hY
      rw [hnext hX hY, hsep, Bool.true_and, decide_eq_true_eq, and_iff_right rfl] at hiff
      exact hiff
    · intro h k X Y hX hY
      have hiff := h k X.line Y.line (by rw [List.getElem?_map, hX]; rfl) (by rw [List.getElem?_map, hY]; rfl)
      rw [hnext hX hY, hsep, Bool.true_and, decide_eq_true_eq, and_iff_right rfl]
      exact hiff

theorem fileItems_opens {x : Item} (hx : x ∈ fileItems a style data sep selected ms) :
    x.line < (splitLines data sep).length ∧
      Strides.Opens (emitsLine a selected) (reach a (splitLines data sep) selected ms) x.line := by
  have hmem := List.mem_map_of_mem (f := Item.line) hx
  rw [fileItems_lines] at hmem
  exact Strides.mem_walk_iff.1 hmem

theorem shownThrough_lt {i : Nat} (hi : i < (splitLines data sep).length) :
    shownThrough a (splitLines data sep) selected ms i < (splitLines data sep).length := by
  have hne : splitLines data sep ≠ [] := List.ne_nil_of_length_pos (by omega)
  unfold shownThrough
  split
  · split
    · exact hi
    · split
      · exact hi
      · exact lineForOffset_lt hne _
  · exact hi

theorem fileItems_shows_iff
    (hwhole : ∀ i, Strides.Opens (emitsLine a selected) (reach a (splitLines data sep) selected ms) i →
      loses a (splitLines data sep) selected ms i = false)
    {x : Item} (hx : x ∈ fileItems a style data sep selected ms) {j : Nat} (hj : j < (splitLines data sep).length) :
    ShowsLine a (splitLines data sep) selected ms x.line j ↔
      x.line ≤ j ∧ j ≤ shownThrough a (splitLines data sep) selected ms x.line := by
  obtain ⟨hi, hopens⟩ := fileItems_opens a style data sep selected ms hx
  have hpart := splitLines_partitions data sep
  exact ⟨fun h => h.bounds hpart, fun h => showsLine_of_not_loses hpart hi hj (hwhole _ hopens) h.1 h.2⟩

/-- **Each line around the selected ones is shown once** when no replacement leaves bytes out and none passes over a line. -/
theorem fileItems_shown_once_iff (hms : ∀ m ∈ ms, m.start ≤ m.stop) :
    (∀ j < (splitLines data sep).length, InWindow a selected j →
      ∃! x, x ∈ fileItems a style data sep selected ms ∧ ShowsLine a (splitLines data sep) selected ms x.line j) ↔
    (∀ i, Strides.Opens (emitsLine a selected) (reach a (splitLines data sep) selected ms) i →
        loses a (splitLines data sep) selected ms i = false) ∧
      Strides.Kept (emitsLine a selected) (reach a (splitLines data sep) selected ms)
        (shownThrough a (splitLines data sep) selected ms) (splitLines data sep).length (InWindow a selected) := by
  have hpart := splitLines_partitions data sep
  constructor
  · intro h
    have honce : ∀ j < (splitLines data sep).length, InWindow a selected j →
        ∃! x, x ∈ fileItems a style data sep selected ms ∧ x.line ≤ j ∧
          j ≤ shownThrough a (splitLines data sep) selected ms x.line := by
      intro j hj hwindow
      obtain ⟨x, ⟨hx, hshows⟩, -⟩ := h j hj hwindow
      refine (existsUnique_item_iff a style data sep selected ms j).2 ⟨x.line, ?_, hshows.bounds hpart⟩
      rw [← fileItems_lines a style data sep selected ms]
      exact List.mem_map_of_mem hx
    refine ⟨fun i hopens => ?_, (fileItems_once_iff a style data sep selected ms).1 honce⟩
    by_contra hloses
    rw [Bool.not_eq_false] at hloses
    -- the line is selected, so that it is to be shown, and no other item can show it
    have hi : i < (splitLines data sep).length := by
      by_contra hge
      unfold loses at hloses
      rw [List.getElem?_eq_none (Nat.not_lt.1 hge), Option.any_none, Bool.and_false] at hloses
      cases hloses
    have hselected : selected.getD i false = true := by
      unfold loses replaces at hloses
      simp only [Bool.and_eq_true] at hloses
      exact hloses.1.1.1
    have hwindow : InWindow a selected i := ⟨i, hselected, by omega, by omega⟩
    obtain ⟨x, ⟨hx, hshows⟩, -⟩ := h i hi hwindow
    have hmem := Strides.mem_walk_iff.2 ⟨hi, hopens⟩
    rw [← fileItems_lines a style data sep selected ms] at hmem
    obtain ⟨y, hy, hline⟩ := List.mem_map.1 hmem
    have hself := (@stands a _ selected ms data sep hpart).self i
    have hxy := (honce i hi hwindow).unique ⟨hx, hshows.bounds hpart⟩ ⟨hy, hline.le, by rw [hline]; exact hself⟩
    rw [hxy, hline] at hshows
    exact not_showsLine_of_loses hpart hms hloses hshows
  · rintro ⟨hwhole, hkept⟩ j hj hwindow
    obtain ⟨x, ⟨hx, hcover⟩, honly⟩ := (fileItems_once_iff a style data sep selected ms).2 hkept j hj hwindow
    refine ⟨x, ⟨hx, (fileItems_shows_iff a style data sep selected ms hwhole hx hj).2 hcover⟩, ?_⟩
    rintro y ⟨hy, hshows⟩
    exact honly y ⟨hy, hshows.bounds hpart⟩

theorem fileItems_gap_iff
    (hwhole : ∀ i, Strides.Opens (emitsLine a selected) (reach a (splitLines data sep) selected ms) i →
      loses a (splitLines data sep) selected ms i = false)
    {x y : Item} (hx : x ∈ fileItems a style data sep selected ms) (hy : y ∈ fileItems a style data sep selected ms) :
    (∃ j < (splitLines data sep).length, (∀ l, ShowsLine a (splitLines data sep) selected ms x.line l → l < j) ∧
        ∀ l, ShowsLine a (splitLines data sep) selected ms y.line l → j < l) ↔
      shownThrough a (splitLines data sep) selected ms x.line + 1 < y.line := by
  have hpart := splitLines_partitions data sep
  obtain ⟨hxn, -⟩ := fileItems_opens a style data sep selected ms hx
  obtain ⟨hyn, -⟩ := fileItems_opens a style data sep selected ms hy
  have hself := (@stands a _ selected ms data sep hpart).self
  constructor
  · rintro ⟨j, -, hafter, hbefore⟩
    have hlast := hafter _ ((fileItems_shows_iff a style data sep selected ms hwhole hx
      (shownThrough_lt a data sep selected ms hxn)).2 ⟨hself _, Nat.le_refl _⟩)
    have hfirst := hbefore _ ((fileItems_shows_iff a style data sep selected ms hwhole hy hyn).2 ⟨Nat.le_refl _, hself _⟩)
    omega
  · intro hgap
    refine ⟨shownThrough a (splitLines data sep) selected ms x.line + 1, by omega, fun l hl => ?_, fun l hl => ?_⟩
    · have := (hl.bounds hpart).2
      omega
    · have := (hl.bounds hpart).1
      omega

/-- **Each line around the selected ones is shown once, with separators in the gaps**, exactly when no replacement leaves bytes of
its line out, no line is lost behind one, and none follows one over the end of a line at once. -/
theorem fileItems_shown_iff (hms : ∀ m ∈ ms, m.start ≤ m.stop) :
    ContextShown a style data (splitLines data sep) selected ms (fileItems a style data sep selected ms) ↔
      ContextKept a style (splitLines data sep) selected ms := by
  have hpart := splitLines_partitions data sep
  have hseparator : ∀ (hwhole : ∀ i, Strides.Opens (emitsLine a selected) (reach a (splitLines data sep) selected ms) i →
        loses a (splitLines data sep) selected ms i = false) (k : Nat) (x y : Item),
      (fileItems a style data sep selected ms)[k]? = some x → (fileItems a style data sep selected ms)[k + 1]? = some y →
        ((∃ j < (splitLines data sep).length, (∀ l, ShowsLine a (splitLines data sep) selected ms x.line l → l < j) ∧
          ∀ l, ShowsLine a (splitLines data sep) selected ms y.line l → j < l) ↔
        shownThrough a (splitLines data sep) selected ms x.line + 1 < y.line) :=
    fun hwhole _ _ _ hx hy => fileItems_gap_iff a style data sep selected ms hwhole (List.mem_of_getElem? hx)
      (List.mem_of_getElem? hy)
  constructor
  · intro h
    obtain ⟨hwhole, hkept⟩ := (fileItems_shown_once_iff a style data sep selected ms hms).1 h.once
    refine ⟨hwhole, hkept, (fileItems_separator_iff a style data sep selected ms hkept).1 (fun k x y hx hy => ?_)⟩
    rw [h.separator k x y hx hy, hseparator hwhole k x y hx hy]
  · intro h
    refine ⟨fun x hx => ?_, (fileItems_shown_once_iff a style data sep selected ms hms).2 ⟨h.whole, h.kept⟩, ?_,
      fun k x y hx hy => ?_⟩
    · rw [contextItems_text hx, renderedLine_eq_pieces hpart]
    · refine (fileItems_ascending a style data sep selected ms).imp (fun {x y} hlt => ⟨?_, fun j l hj hl => ?_⟩)
      · have := (@stands a _ selected ms data sep hpart).self x.line
        omega
      · have hj := (hj.bounds hpart).2
        have hl := (hl.bounds hpart).1
        omega
    · rw [(fileItems_separator_iff a style data sep selected ms h.kept).2 h.apart k x y hx hy,
        hseparator h.whole k x y hx hy]

end

/-! ## Two replacements -/

/-- `--replace x -A 1` -/
def replaceArgs : Args := { replacement := [0x78], after := 1 }

/-- A replacement over the end of the first line, with the third line after it: a separator stands where no line is between.  Two
matches that overlap, of which the second is not replaced: the second line is lost.  Two that overlap on the second line: what
the second match takes of the third line is in no item. -/
theorem not_fileItems_shown :
    ¬ ContextShown replaceArgs {} [0x61, 0x0A, 0x62, 0x0A, 0x63, 0x0A] (splitLines [0x61, 0x0A, 0x62, 0x0A, 0x63, 0x0A] 0x0A)
      [true, true, false] [{ start := 0, stop := 3 }]
      (fileItems replaceArgs {} [0x61, 0x0A, 0x62, 0x0A, 0x63, 0x0A] 0x0A [true, true, false] [{ start := 0, stop := 3 }]) ∧
    ¬ ContextShown replaceArgs {} [0x61, 0x62, 0x0A, 0x63, 0x64, 0x0A] (splitLines [0x61, 0x62, 0x0A, 0x63, 0x64, 0x0A] 0x0A)
      [true, true] [{ start := 0, stop := 2 }, { start := 1, stop := 5 }]
      (fileItems replaceArgs {} [0x61, 0x62, 0x0A, 0x63, 0x64, 0x0A] 0x0A [true, true]
        [{ start := 0, stop := 2 }, { start := 1, stop := 5 }]) ∧
    ¬ ContextShown replaceArgs {} [0x61, 0x0A, 0x62, 0x0A, 0x63, 0x0A] (splitLines [0x61, 0x0A, 0x62, 0x0A, 0x63, 0x0A] 0x0A)
      [true, true, true] [{ start := 0, stop := 3 }, { start := 2, stop := 5 }]
      (fileItems replaceArgs {} [0x61, 0x0A, 0x62, 0x0A, 0x63, 0x0A] 0x0A [true, true, true]
        [{ start := 0, stop := 3 }, { start := 2, stop := 5 }]) := by
  refine ⟨fun h => ?_, fun h => ?_, fun h => ?_⟩
  · have hpart := splitLines_partitions [0x61, 0x0A, 0x62, 0x0A, 0x63, 0x0A] 0x0A
    obtain ⟨-, j, -, hafter, hbefore⟩ :=
      (h.separator 0 ⟨false, 0, [0x78, 0x0A]⟩ ⟨true, 2, [0x63, 0x0A]⟩ (by decide) (by decide)).1 rfl
    have hfirst := hafter 1 (showsLine_of_not_loses hpart (by decide) (by decide) (by decide) (by decide) (by decide))
    have hthird := hbefore 2 (showsLine_of_not_loses hpart (by decide) (by decide) (by decide) (by decide) (by decide))
    omega
  · obtain ⟨x, ⟨hx, hshows⟩, -⟩ := h.once 1 (by decide) ⟨1, by decide, by decide, by decide⟩
    have hitems : fileItems replaceArgs {} [0x61, 0x62, 0x0A, 0x63, 0x64, 0x0A] 0x0A [true, true]
        [{ start := 0, stop := 2 }, { start := 1, stop := 5 }] = [⟨false, 0, [0x78, 0x0A]⟩] := by decide
    rw [hitems, List.mem_singleton] at hx
    subst hx
    exact absurd (hshows.bounds (splitLines_partitions _ _)).2 (by decide)
  · obtain ⟨x, ⟨hx, hshows⟩, -⟩ := h.once 2 (by decide) ⟨2, by decide, by decide, by decide⟩
    have hitems : fileItems replaceArgs {} [0x61, 0x0A, 0x62, 0x0A, 0x63, 0x0A] 0x0A [true, true, true]
        [{ start := 0, stop := 3 }, { start := 2, stop := 5 }] = [⟨false, 0, [0x78, 0x0A]⟩, ⟨true, 2, [0x0A]⟩] := by decide
    rw [hitems, List.mem_cons, List.mem_singleton] at hx
    rcases hx with rfl | rfl
    · exact absurd (hshows.bounds (splitLines_partitions _ _)).2 (by decide)
    · exact not_showsLine_of_loses (splitLines_partitions _ _) (by decide) (by decide) hshows

/-- `--replace x -B 1` -/
def aboveArgs : Args := { replacement := [0x78], before := 1 }

def fiveLines : Bytes := [0x61, 0x0A, 0x62, 0x0A, 0x63, 0x0A, 0x64, 0x0A, 0x65, 0x0A]

/-- A match over the end of the first line, and one on the last. -/
def fiveMatches : List Match := [{ start := 0, stop := 3 }, { start := 8, stop := 9 }]

theorem contextKept_five : ContextKept aboveArgs {} (splitLines fiveLines 0x0A) [true, true, false, false, true] fiveMatches := by
  -- the second line does not open, and the lines after the last are not selected
  have hfirst : Strides.Opens (emitsLine aboveArgs [true, true, false, false, true])
      (reach aboveArgs (splitLines fiveLines 0x0A) [true, true, false, false, true] fiveMatches) 0 :=
    Strides.opens_iff.2 ⟨by decide, fun k hk => absurd hk (Nat.not_lt_zero k)⟩
  have hsecond : ¬ Strides.Opens (emitsLine aboveArgs [true, true, false, false, true])
      (reach aboveArgs (splitLines fiveLines 0x0A) [true, true, false, false, true] fiveMatches) 1 :=
    fun h => absurd ((Strides.opens_iff.1 h).2 0 Nat.one_pos hfirst) (by decide)
  have hpast : ∀ i, 5 ≤ i → [true, true, false, false, true].getD i false = false := fun i hi =>
    List.getD_eq_default _ _ hi
  have hreplaces : ∀ i, 5 ≤ i → replaces aboveArgs [true, true, false, false, true] i = false := fun i hi => by
    rw [replaces, hpast i hi, Bool.false_and, Bool.false_and]
  constructor
  · intro i hopens
    rcases Nat.lt_or_ge i 5 with hlt | hge
    · have hcases : ∀ i < 5, i ≠ 1 →
          loses aboveArgs (splitLines fiveLines 0x0A) [true, true, false, false, true] fiveMatches i = false := by decide
      exact hcases i hlt (fun h => hsecond (h ▸ hopens))
    · rw [loses, hreplaces i hge, Bool.false_and]
  · intro i hopens j hshown hreach
    rcases Nat.lt_or_ge i 5 with hlt | hge
    · have hcases : ∀ i < 5, i ≠ 1 → reach aboveArgs (splitLines fiveLines 0x0A) [true, true, false, false, true] fiveMatches i ≤
          shownThrough aboveArgs (splitLines fiveLines 0x0A) [true, true, false, false, true] fiveMatches i + 1 := by decide
      have := hcases i hlt (fun h => hsecond (h ▸ hopens))
      omega
    · rw [reach, hpast i hge, if_neg Bool.false_ne_true] at hreach
      exact absurd hreach (Nat.not_lt_zero j)
  · intro _ i hopens hshown _ hwindow
    rcases Nat.lt_or_ge i 5 with hlt | hge
    · have hcases : ∀ i < 5, i ≠ 1 →
          i < shownThrough aboveArgs (splitLines fiveLines 0x0A) [true, true, false, false, true] fiveMatches i →
          emitsLine aboveArgs [true, true, false, false, true]
            (shownThrough aboveArgs (splitLines fiveLines 0x0A) [true, true, false, false, true] fiveMatches i + 1) = false := by
        decide
      have hemits := hcases i hlt (fun h => hsecond (h ▸ hopens)) hshown
      rw [emitsLine_iff.2 (Or.inr hwindow)] at hemits
      cases hemits
    · rw [shownThrough, hreplaces i hge, if_neg Bool.false_ne_true] at hshown
      exact absurd hshown (Nat.lt_irrefl i)

/-- The first two lines are shown by the replacement, then a separator, the fourth line and the fifth. -/
theorem fileItems_shown_five :
    ContextShown aboveArgs {} fiveLines (splitLines fiveLines 0x0A) [true, true, false, false, true] fiveMatches
      (fileItems aboveArgs {} fiveLines 0x0A [true, true, false, false, true] fiveMatches) :=
  (fileItems_shown_iff aboveArgs {} fiveLines 0x0A [true, true, false, false, true] fiveMatches (by decide)).2 contextKept_five

end Pergrep.Cli
