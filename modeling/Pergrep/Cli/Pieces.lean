import Pergrep.Cli.Replace
/-!
# Pieces — what `replace_line` puts together

A line with its matches replaced is made of pieces: bytes of the file that are copied, and replacements that stand for the
bytes of their matches (`replaceFrom_eq_pieces`).  The last match may go over the end of the line, and the rest of the line it
ends on comes after it.  A match that starts before the end of an earlier one is not replaced, and where it ends later no piece
shows the bytes up to its end: when there is no such match the pieces show all of the line (`shows_of_not_loses`), else not
(`exists_lost`).
-/
namespace Pergrep.Cli

/-- Bytes of the file, or what stands for a match. -/
inductive LinePiece
  | copied (start stop : Nat)
  | replaced (m : Match)

def LinePiece.text (data repl : Bytes) : LinePiece → Bytes
  | .copied start stop => slice data start stop
  | .replaced m => interpolateReplacement repl data m

/-- The piece is, or stands for, the byte of the file at an offset. -/
def LinePiece.Shows (p : Nat) : LinePiece → Prop
  | .copied start stop => start ≤ p ∧ p < stop
  | .replaced m => m.start ≤ p ∧ p < m.stop

def matchEnd (lines : List LineRecord) (m : Match) : Nat :=
  (lines[(matchLines lines m).2]?).elim m.stop LineRecord.termEnd

def piecesFrom (line : LineRecord) (lines : List LineRecord) : List Match → Nat → List LinePiece
  | [], cursor => [.copied cursor line.termEnd]
  | m :: ms, cursor =>
    if m.stop < cursor then piecesFrom line lines ms cursor
    else if line.termEnd ≤ m.start then [.copied cursor line.termEnd]
    else if m.start < cursor then
      if line.termEnd ≤ max cursor m.stop then [] else piecesFrom line lines ms (max cursor m.stop)
    else
      .copied cursor m.start :: .replaced m ::
        (if line.termEnd < m.stop then [.copied m.stop (matchEnd lines m)]
        else if line.termEnd ≤ m.stop then []
        else piecesFrom line lines ms m.stop)

/-- The match that is replaced and ends on a later line; the loop of `replace_line` ends with it. -/
def crossingFrom (line : LineRecord) : List Match → Nat → Option Match
  | [], _ => none
  | m :: ms, cursor =>
    if m.stop < cursor then crossingFrom line ms cursor
    else if line.termEnd ≤ m.start then none
    else if m.start < cursor then
      if line.termEnd ≤ max cursor m.stop then none else crossingFrom line ms (max cursor m.stop)
    else if line.termEnd < m.stop then some m
    else if line.termEnd ≤ m.stop then none
    else crossingFrom line ms m.stop

/-- Some match starts before the cursor and ends after it, so that the bytes between are not printed. -/
def losesFrom (line : LineRecord) : List Match → Nat → Bool
  | [], _ => false
  | m :: ms, cursor =>
    if m.stop < cursor then losesFrom line ms cursor
    else if line.termEnd ≤ m.start then false
    else if m.start < cursor then decide (cursor < m.stop) || losesFrom line ms cursor
    else if line.termEnd ≤ m.stop then false
    else losesFrom line ms m.stop

theorem crossingFrom_spec {line : LineRecord} : ∀ {ms : List Match} {cursor : Nat} {m : Match},
    crossingFrom line ms cursor = some m → m ∈ ms ∧ cursor ≤ m.start ∧ m.start < line.termEnd ∧ line.termEnd < m.stop
  | [], _, _, h => by cases h
  | m :: ms, cursor, x, h => by
    rw [crossingFrom] at h
    split at h
    · obtain ⟨hmem, hrest⟩ := crossingFrom_spec h
      exact ⟨List.mem_cons_of_mem m hmem, hrest⟩
    split at h
    · cases h
    split at h
    · split at h
      · cases h
      · obtain ⟨hmem, hle, hrest⟩ := crossingFrom_spec h
        exact ⟨List.mem_cons_of_mem m hmem, by omega, hrest⟩
    split at h
    · cases h
      exact ⟨List.mem_cons_self, by omega, by omega, by omega⟩
    split at h
    · cases h
    · obtain ⟨hmem, hle, hrest⟩ := crossingFrom_spec h
      exact ⟨List.mem_cons_of_mem m hmem, by omega, hrest⟩

/-! ## The text of the pieces -/

section

variable {data : Bytes} {line : LineRecord} {repl : Bytes} {lines : List LineRecord} {lineIdx : Nat} {sep : UInt8}

theorem afterMatch_of_le {m : Match} (h : m.stop ≤ line.termEnd) : afterMatch data line lines lineIdx m = ([], m.stop) := by
  unfold afterMatch
  rw [decide_eq_false (Nat.not_lt.2 h), Bool.false_and, Bool.false_and, if_neg Bool.false_ne_true]

variable (hpart : Partitions data sep 0 lines) (hline : lines[lineIdx]? = some line)
include hpart hline

theorem le_matchLines {m : Match} (hbegin : line.begin ≤ m.start) (hend : m.start < line.termEnd) :
    lineIdx ≤ (matchLines lines m).2 := by
  have hle := @matchLines_le lines m
  have hfirst : (matchLines lines m).1 = lineIdx := hpart.lineForOffset_eq hline hbegin hend
  rwa [hfirst] at hle

theorem exists_lastLine {m : Match} (hbegin : line.begin ≤ m.start) (hend : m.start < line.termEnd) :
    ∃ last, lines[(matchLines lines m).2]? = some last ∧ matchEnd lines m = last.termEnd ∧ line.termEnd ≤ last.termEnd := by
  obtain ⟨hidx, -⟩ := List.getElem?_eq_some_iff.1 hline
  have hne : lines ≠ [] := List.ne_nil_of_length_pos (by omega)
  obtain ⟨last, hlast⟩ : ∃ last, lines[(matchLines lines m).2]? = some last :=
    ⟨_, List.getElem?_eq_getElem (lineForOffset_lt hne _)⟩
  refine ⟨last, hlast, by rw [matchEnd, hlast]; rfl, ?_⟩
  rcases Nat.lt_or_eq_of_le (le_matchLines hpart hline hbegin hend) with hlt | heq
  · have hsep := hpart.termEnd_le_begin hline hlast hlt
    have hin := (hpart.within last (List.mem_of_getElem? hlast)).2.2.1
    omega
  · rw [← heq, hline] at hlast
    cases hlast
    exact Nat.le_refl _

theorem afterMatch_of_lt {m : Match} (hbegin : line.begin ≤ m.start) (hend : m.start < line.termEnd) (h : line.termEnd < m.stop) :
    afterMatch data line lines lineIdx m = (slice data m.stop (matchEnd lines m), matchEnd lines m) := by
  obtain ⟨hidx, -⟩ := List.getElem?_eq_some_iff.1 hline
  obtain ⟨last, hlast, hmatch, -⟩ := exists_lastLine hpart hline hbegin hend
  have hnonempty : (!lines.isEmpty) = true := by simp [List.ne_nil_of_length_pos (Nat.zero_lt_of_lt hidx)]
  unfold afterMatch
  rw [decide_eq_true h, hnonempty, decide_eq_true hidx, Bool.true_and, Bool.true_and, if_pos rfl, hlast, hmatch]
  dsimp only
  split
  · rfl
  · rename_i hstop
    rw [slice_self (Nat.not_lt.1 hstop)]

/-- **What `replace_line` puts out** is the text of the pieces, one after the other. -/
theorem replaceFrom_eq_pieces : ∀ {ms : List Match} {cursor : Nat}, line.begin ≤ cursor →
    replaceFrom data line repl lines lineIdx ms cursor = (piecesFrom line lines ms cursor).flatMap (LinePiece.text data repl)
  | [], cursor, _ => by
    rw [replaceFrom, piecesFrom, restOfLine_eq, List.flatMap_singleton]
    rfl
  | m :: ms, cursor, hcursor => by
    rw [replaceFrom, piecesFrom]
    split
    · exact replaceFrom_eq_pieces hcursor
    split
    · rw [restOfLine_eq, List.flatMap_singleton]
      rfl
    split
    · split
      · rename_i hend
        rw [restOfLine_eq, slice_self hend]
        rfl
      · exact replaceFrom_eq_pieces (by omega)
    rw [List.flatMap_cons, List.flatMap_cons]
    dsimp only [LinePiece.text]
    by_cases hcross : line.termEnd < m.stop
    · obtain ⟨last, -, hmatch, hle⟩ := exists_lastLine hpart hline (m := m) (by omega) (by omega)
      rw [afterMatch_of_lt hpart hline (by omega) (by omega) hcross, if_pos hcross, hmatch]
      dsimp only
      rw [if_pos hle, restOfLine_eq, slice_self hle, List.append_nil, List.flatMap_singleton, List.append_assoc]
      rfl
    · rw [afterMatch_of_le (Nat.not_lt.1 hcross), if_neg hcross]
      dsimp only
      rw [List.append_nil, List.append_assoc]
      congr 2
      split
      · rename_i hend
        rw [restOfLine_eq, slice_self hend]
        rfl
      · exact replaceFrom_eq_pieces (by omega)

end

/-! ## The bytes the pieces show -/

section

variable {line : LineRecord} {lines : List LineRecord}

/-- Pieces show bytes from the cursor on, of the line or of those of the match that goes over its end. -/
theorem bounds_of_shows {p : Nat} {q : LinePiece} (hq : q.Shows p) : ∀ {ms : List Match} {cursor : Nat},
    q ∈ piecesFrom line lines ms cursor →
      cursor ≤ p ∧ (p < line.termEnd ∨ ∃ m, crossingFrom line ms cursor = some m ∧ (p < m.stop ∨ p < matchEnd lines m))
  | [], cursor, h => by
    rw [List.mem_singleton.1 h] at hq
    exact ⟨hq.1, Or.inl hq.2⟩
  | m :: ms, cursor, h => by
    rw [piecesFrom] at h
    rw [crossingFrom]
    split at h
    · rename_i hskip
      rw [if_pos hskip]
      exact bounds_of_shows hq h
    rename_i hskip
    rw [if_neg hskip]
    split at h
    · rw [List.mem_singleton.1 h] at hq
      exact ⟨hq.1, Or.inl hq.2⟩
    rename_i hafter
    rw [if_neg hafter]
    split at h
    · rename_i hinside
      rw [if_pos hinside]
      split at h
      · cases h
      · rename_i hend
        rw [if_neg hend]
        obtain ⟨hle, hlt⟩ := bounds_of_shows hq h
        exact ⟨by omega, hlt⟩
    rename_i hinside
    rw [if_neg hinside]
    rcases List.mem_cons.1 h with rfl | h
    · obtain ⟨hle, hlt⟩ := hq
      exact ⟨hle, Or.inl (by omega)⟩
    rcases List.mem_cons.1 h with rfl | h
    · obtain ⟨hle, hlt⟩ := hq
      refine ⟨by omega, ?_⟩
      by_cases hcross : line.termEnd < m.stop
      · rw [if_pos hcross]
        exact Or.inr ⟨m, rfl, Or.inl hlt⟩
      · exact Or.inl (by omega)
    split at h
    · rename_i hcross
      rw [if_pos hcross]
      rw [List.mem_singleton.1 h] at hq
      obtain ⟨hle, hlt⟩ := hq
      exact ⟨by omega, Or.inr ⟨m, rfl, Or.inr hlt⟩⟩
    rename_i hcross
    rw [if_neg hcross]
    split at h
    · cases h
    · rename_i hend
      rw [if_neg hend]
      obtain ⟨hle, hlt⟩ := bounds_of_shows hq h
      exact ⟨by omega, hlt⟩

/-- **No byte is lost** of the line, nor of the lines of the match that goes over its end, when no match starts before the
cursor and ends after it. -/
theorem shows_of_not_loses {p : Nat} : ∀ {ms : List Match} {cursor : Nat}, losesFrom line ms cursor = false → cursor ≤ p →
    (p < line.termEnd ∨ ∃ m, crossingFrom line ms cursor = some m ∧ p < matchEnd lines m) →
      ∃ q ∈ piecesFrom line lines ms cursor, q.Shows p
  | [], cursor, _, hle, hp => by
    rcases hp with hp | ⟨_, h, -⟩
    · exact ⟨_, List.mem_singleton.2 rfl, hle, hp⟩
    · cases h
  | m :: ms, cursor, hkeeps, hle, hp => by
    rw [losesFrom] at hkeeps
    rw [crossingFrom] at hp
    rw [piecesFrom]
    split
    · rename_i hskip
      rw [if_pos hskip] at hkeeps hp
      exact shows_of_not_loses hkeeps hle hp
    rename_i hskip
    rw [if_neg hskip] at hkeeps hp
    split
    · rename_i hafter
      rw [if_pos hafter] at hp
      rcases hp with hp | ⟨_, h, -⟩
      · exact ⟨_, List.mem_singleton.2 rfl, hle, hp⟩
      · cases h
    rename_i hafter
    rw [if_neg hafter] at hkeeps hp
    split
    · -- the match ends at the cursor
      rename_i hinside
      rw [if_pos hinside, Bool.or_eq_false_iff, decide_eq_false_iff_not] at hkeeps
      rw [if_pos hinside] at hp
      have hmax : max cursor m.stop = cursor := by omega
      rw [hmax] at hp ⊢
      split
      · rename_i hend
        rw [if_pos hend] at hp
        rcases hp with hp | ⟨_, h, -⟩
        · omega
        · cases h
      · rename_i hend
        rw [if_neg hend] at hp
        exact shows_of_not_loses hkeeps.2 hle hp
    rename_i hinside
    rw [if_neg hinside] at hkeeps hp
    -- before the match, in it, or after it
    rcases Nat.lt_or_ge p m.start with hlt | hstart
    · exact ⟨_, List.mem_cons_self, hle, hlt⟩
    rcases Nat.lt_or_ge p m.stop with hlt | hstop
    · exact ⟨_, List.mem_cons_of_mem _ List.mem_cons_self, hstart, hlt⟩
    suffices h : ∃ q ∈ (if line.termEnd < m.stop then [LinePiece.copied m.stop (matchEnd lines m)]
        else if line.termEnd ≤ m.stop then [] else piecesFrom line lines ms m.stop), q.Shows p by
      obtain ⟨q, hq, hshows⟩ := h
      exact ⟨q, List.mem_cons_of_mem _ (List.mem_cons_of_mem _ hq), hshows⟩
    split
    · rename_i hcross
      rw [if_pos hcross] at hp
      rcases hp with hp | ⟨_, h, hp⟩
      · omega
      · cases h
        exact ⟨_, List.mem_singleton.2 rfl, hstop, hp⟩
    rename_i hcross
    rw [if_neg hcross] at hp
    split
    · rename_i hend
      rw [if_pos hend] at hp
      rcases hp with hp | ⟨_, h, -⟩
      · omega
      · cases h
    · rename_i hend
      rw [if_neg hend] at hkeeps hp
      exact shows_of_not_loses hkeeps hstop hp

/-- **A byte of the line is lost** when some match does. -/
theorem exists_lost : ∀ {ms : List Match} {cursor : Nat}, (∀ m ∈ ms, m.start ≤ m.stop) → losesFrom line ms cursor = true →
    cursor < line.termEnd → ∃ p, cursor ≤ p ∧ p < line.termEnd ∧ ∀ q ∈ piecesFrom line lines ms cursor, ¬ q.Shows p
  | [], _, _, h, _ => nomatch h
  | m :: ms, cursor, hms, h, hcursor => by
    have hspan := hms m List.mem_cons_self
    have hms : ∀ m ∈ ms, m.start ≤ m.stop := fun x hx => hms x (List.mem_cons_of_mem m hx)
    rw [losesFrom] at h
    rw [piecesFrom]
    split at h
    · rename_i hskip
      rw [if_pos hskip]
      exact exists_lost hms h hcursor
    rename_i hskip
    rw [if_neg hskip]
    split at h
    · cases h
    rename_i hafter
    rw [if_neg hafter]
    split at h
    · rename_i hinside
      rw [if_pos hinside]
      by_cases hlost : cursor < m.stop
      · -- the pieces after it start where the match ends
        refine ⟨cursor, Nat.le_refl _, hcursor, fun q hq hshows => ?_⟩
        split at hq
        · cases hq
        · have := (bounds_of_shows hshows hq).1
          omega
      · have hmax : max cursor m.stop = cursor := by omega
        rw [decide_eq_false hlost, Bool.false_or] at h
        rw [hmax, if_neg (Nat.not_le.2 hcursor)]
        exact exists_lost hms h hcursor
    rename_i hinside
    rw [if_neg hinside]
    split at h
    · cases h
    · rename_i hend
      rw [if_neg (by omega), if_neg hend]
      obtain ⟨p, hle, hlt, hlost⟩ := exists_lost hms h (Nat.not_le.1 hend)
      refine ⟨p, by omega, hlt, fun q hq hshows => ?_⟩
      rcases List.mem_cons.1 hq with rfl | hq
      · have := hshows.2
        omega
      rcases List.mem_cons.1 hq with rfl | hq
      · have := hshows.2
        omega
      · exact hlost q hq hshows

end

end Pergrep.Cli
