import Pergrep.Regex.Sim
/-!
# Lines — the lines of a file, and the matches on them

`splitLines` cuts a text after each separator; `lineForOffset` is the last line that begins at an offset or before it;
`matchesByLine` puts each match on the lines it covers (`matchesByLine_eq`).  The lines of a text partition it
(`splitLines_partitions`), so the line of an offset is the one that has it, and the lines of a match are those it meets
(`splitLines_law`).
-/
namespace Pergrep.Cli

/-- `LineRecord` -/
structure LineRecord where
  begin   : Nat
  stop    : Nat
  termEnd : Nat
deriving Repr, DecidableEq

/-- The loop of `split_lines`: a line from `begin` on, its text read up to `i`. -/
def splitLinesFrom (sep : UInt8) : Bytes → Nat → Nat → List LineRecord
  | [], begin, i => if begin < i then [{ begin := begin, stop := i, termEnd := i }] else []
  | b :: bs, begin, i =>
    if b = sep then { begin := begin, stop := i, termEnd := i + 1 } :: splitLinesFrom sep bs (i + 1) (i + 1)
    else splitLinesFrom sep bs begin (i + 1)

def splitLines (data : Bytes) (sep : UInt8) : List LineRecord := splitLinesFrom sep data 0 0

def lineForOffset (lines : List LineRecord) (off : Nat) : Nat :=
  -- upper_bound: the first line that begins after the offset
  let it := lines.findIdx (fun line => off < line.begin)
  if lines.isEmpty ∨ it = 0 then 0 else min (it - 1) (lines.length - 1)

def matchLines (lines : List LineRecord) (m : Match) : Nat × Nat :=
  (lineForOffset lines m.start, lineForOffset lines (if m.start < m.stop then m.stop - 1 else m.start))

def matchesByLine (lines : List LineRecord) (ms : List Match) : List (List Match) :=
  ms.foldl (fun out m => out.mapIdx (fun i onLine =>
      if (matchLines lines m).1 ≤ i ∧ i ≤ (matchLines lines m).2 then onLine ++ [m] else onLine))
    (List.replicate lines.length [])

/-! ## Lines -/

theorem splitLinesFrom_nil {sep : UInt8} : ∀ {bs : Bytes} {begin i : Nat}, begin ≤ i →
    (splitLinesFrom sep bs begin i = [] ↔ bs = [] ∧ begin = i)
  | [], begin, i, h => by
    rw [splitLinesFrom]
    split
    · simp; omega
    · simp; omega
  | b :: bs, begin, i, h => by
    rw [splitLinesFrom]
    split
    · simp
    · rw [splitLinesFrom_nil (by omega)]
      simp; omega

theorem splitLines_nil {data : Bytes} {sep : UInt8} : splitLines data sep = [] ↔ data = [] := by
  rw [splitLines, splitLinesFrom_nil (Nat.le_refl 0), and_iff_left rfl]

section
variable {lines : List LineRecord}

theorem lineForOffset_lt (h : lines ≠ []) (off : Nat) : lineForOffset lines off < lines.length := by
  have hlen := List.length_pos_iff.2 h
  unfold lineForOffset
  dsimp only
  split
  · exact hlen
  · omega

theorem findIdx_mono {α : Type} {q r : α → Bool} (hqr : ∀ a, r a = true → q a = true) : ∀ as : List α,
    as.findIdx q ≤ as.findIdx r
  | [] => Nat.le_refl 0
  | a :: as => by
    rw [List.findIdx_cons, List.findIdx_cons]
    cases hr : r a with
    | true =>
      rw [hqr a hr]
      exact Nat.le_refl 0
    | false =>
      cases q a with
      | true  => exact Nat.zero_le _
      | false => exact Nat.succ_le_succ (findIdx_mono hqr as)

theorem lineForOffset_mono {a b : Nat} (h : a ≤ b) : lineForOffset lines a ≤ lineForOffset lines b := by
  have hidx : lines.findIdx (fun line => decide (a < line.begin)) ≤ lines.findIdx (fun line => decide (b < line.begin)) :=
    findIdx_mono (fun line hline => decide_eq_true (by have := of_decide_eq_true hline; omega)) lines
  unfold lineForOffset
  dsimp only
  split
  · exact Nat.zero_le _
  · rename_i hne
    rw [if_neg (fun h => hne (h.imp_right (fun h => by omega)))]
    omega

theorem matchLines_le (m : Match) : (matchLines lines m).1 ≤ (matchLines lines m).2 := by
  unfold matchLines
  dsimp only
  split
  · exact lineForOffset_mono (by omega)
  · exact Nat.le_refl _

theorem mapIdx_map_range {α β : Type} (f : Nat → α → β) (g : Nat → α) (n : Nat) :
    ((List.range n).map g).mapIdx f = (List.range n).map (fun i => f i (g i)) :=
  List.ext_getElem (by simp) (fun i h1 h2 => by simp)

/-- **The matches of a line are those that cover it**, in their order. -/
theorem matchesByLine_eq (ms : List Match) : matchesByLine lines ms = (List.range lines.length).map (fun i =>
    ms.filter (fun m => decide ((matchLines lines m).1 ≤ i ∧ i ≤ (matchLines lines m).2))) := by
  have hfold : ∀ (ms : List Match) (g : Nat → List Match),
      ms.foldl (fun out m => out.mapIdx (fun i onLine =>
        if (matchLines lines m).1 ≤ i ∧ i ≤ (matchLines lines m).2 then onLine ++ [m] else onLine))
        ((List.range lines.length).map g) = (List.range lines.length).map (fun i =>
          g i ++ ms.filter (fun m => decide ((matchLines lines m).1 ≤ i ∧ i ≤ (matchLines lines m).2))) := by
    intro ms
    induction ms with
    | nil =>
      intro g
      simp
    | cons m ms ih =>
      intro g
      rw [List.foldl_cons, mapIdx_map_range, ih]
      refine List.map_congr_left (fun i _ => ?_)
      rw [List.filter_cons]
      by_cases h : (matchLines lines m).1 ≤ i ∧ i ≤ (matchLines lines m).2
      · rw [if_pos h, decide_eq_true h, if_pos rfl, List.append_assoc]
        rfl
      · rw [if_neg h, decide_eq_false h, if_neg Bool.false_ne_true]
  have hnone : List.replicate lines.length ([] : List Match) = (List.range lines.length).map (fun _ => []) := by
    rw [List.map_const', List.length_range]
  rw [matchesByLine, hnone, hfold]
  rfl

end

/-! ## The lines partition the text -/

/-- The lines are the text from offset `a` on, cut after each separator. -/
structure Partitions (data : Bytes) (sep : UInt8) (a : Nat) (lines : List LineRecord) : Prop where
  within  : ∀ line ∈ lines, a ≤ line.begin ∧ line.begin ≤ line.stop ∧ line.begin < line.termEnd ∧
    line.termEnd ≤ data.length
  ends    : ∀ line ∈ lines, (line.termEnd = line.stop + 1 ∧ data[line.stop]? = some sep) ∨
    (line.termEnd = line.stop ∧ line.stop = data.length)
  text    : ∀ line ∈ lines, ∀ x, line.begin ≤ x → x < line.stop → data[x]? ≠ some sep
  ordered : lines.Pairwise (fun l m => l.termEnd ≤ m.begin)
  covers  : ∀ off, a ≤ off → off < data.length → ∃ line ∈ lines, line.begin ≤ off ∧ off < line.termEnd

section
variable {data : Bytes} {sep : UInt8} {a : Nat} {lines : List LineRecord}

theorem Partitions.nil (h : data.length ≤ a) : Partitions data sep a [] where
  within  := fun _ hl => absurd hl List.not_mem_nil
  ends    := fun _ hl => absurd hl List.not_mem_nil
  text    := fun _ hl => absurd hl List.not_mem_nil
  ordered := List.Pairwise.nil
  covers  := fun off ha hoff => absurd hoff (by omega)

theorem Partitions.cons {line : LineRecord} (hstop : line.begin ≤ line.stop) (hlt : line.begin < line.termEnd)
    (hle : line.termEnd ≤ data.length)
    (hends : (line.termEnd = line.stop + 1 ∧ data[line.stop]? = some sep) ∨
      (line.termEnd = line.stop ∧ line.stop = data.length))
    (htext : ∀ x, line.begin ≤ x → x < line.stop → data[x]? ≠ some sep)
    (h : Partitions data sep line.termEnd lines) : Partitions data sep line.begin (line :: lines) where
  within  := List.forall_mem_cons.2 ⟨⟨Nat.le_refl _, hstop, hlt, hle⟩, fun l hl =>
    ⟨by have := (h.within l hl).1; omega, (h.within l hl).2⟩⟩
  ends    := List.forall_mem_cons.2 ⟨hends, h.ends⟩
  text    := List.forall_mem_cons.2 ⟨htext, h.text⟩
  ordered := List.pairwise_cons.2 ⟨fun l hl => (h.within l hl).1, h.ordered⟩
  covers  := fun off ha hoff => by
    by_cases hin : off < line.termEnd
    · exact ⟨line, List.mem_cons_self, ha, hin⟩
    · obtain ⟨l, hl, hcov⟩ := h.covers off (by omega) hoff
      exact ⟨l, List.mem_cons_of_mem _ hl, hcov⟩

/-- **What the loop returns is a partition**, whatever it has read of the line it stands in. -/
theorem splitLinesFrom_partitions : ∀ {bs : Bytes} {begin i : Nat}, bs = data.drop i → begin ≤ i → i ≤ data.length →
    (∀ x, begin ≤ x → x < i → data[x]? ≠ some sep) → Partitions data sep begin (splitLinesFrom sep bs begin i)
  | [], begin, i, hbs, hbegin, hi, htext => by
    have hlen : data.length ≤ i := List.drop_eq_nil_iff.1 hbs.symm
    rw [splitLinesFrom]
    by_cases hlt : begin < i
    · rw [if_pos hlt]
      exact @Partitions.cons data sep _ { begin := begin, stop := i, termEnd := i } hbegin hlt hi
        (Or.inr ⟨rfl, Nat.le_antisymm hi hlen⟩) htext (Partitions.nil hlen)
    · rw [if_neg hlt]
      exact Partitions.nil (by omega)
  | b :: bs, begin, i, hbs, hbegin, hi, htext => by
    have hlt : i < data.length := by
      by_contra hge
      rw [List.drop_eq_nil_of_le (by omega)] at hbs
      cases hbs
    have hget : data[i]? = some b := by
      rw [← List.head?_drop, ← hbs, List.head?_cons]
    have hrest : bs = data.drop (i + 1) := by
      rw [← List.drop_drop, ← hbs, List.drop_one, List.tail_cons]
    rw [splitLinesFrom]
    by_cases hb : b = sep
    · rw [if_pos hb]
      exact @Partitions.cons data sep _ { begin := begin, stop := i, termEnd := i + 1 } hbegin (Nat.lt_succ_of_le hbegin) hlt
        (Or.inl ⟨rfl, by rw [hget, hb]⟩) htext
        (splitLinesFrom_partitions hrest (Nat.le_refl _) hlt (fun x hx hx' => absurd hx' (Nat.not_lt_of_le hx)))
    · rw [if_neg hb]
      have htext' : ∀ x, begin ≤ x → x < i + 1 → data[x]? ≠ some sep := by
        intro x hx hx'
        by_cases hxi : x = i
        · rw [hxi, hget]
          exact fun h => hb (Option.some.inj h)
        · exact htext x hx (by omega)
      exact splitLinesFrom_partitions hrest (Nat.le_succ_of_le hbegin) hlt htext'

theorem splitLines_partitions (data : Bytes) (sep : UInt8) : Partitions data sep 0 (splitLines data sep) :=
  splitLinesFrom_partitions rfl (Nat.le_refl 0) (Nat.zero_le _) (fun x _ hx => absurd hx (Nat.not_lt_zero x))

/-! ## The line of an offset -/

theorem Partitions.termEnd_le_begin (h : Partitions data sep a lines) {i j : Nat} {l m : LineRecord} (hl : lines[i]? = some l)
    (hm : lines[j]? = some m) (hij : i < j) : l.termEnd ≤ m.begin := by
  obtain ⟨hi, rfl⟩ := List.getElem?_eq_some_iff.1 hl
  obtain ⟨hj, rfl⟩ := List.getElem?_eq_some_iff.1 hm
  exact List.pairwise_iff_getElem.1 h.ordered i j hi hj hij

/-- **An offset is on the line that `lineForOffset` names.** -/
theorem Partitions.lineForOffset_eq (h : Partitions data sep a lines) {i off : Nat} {line : LineRecord}
    (hline : lines[i]? = some line) (hbegin : line.begin ≤ off) (hend : off < line.termEnd) : lineForOffset lines off = i := by
  obtain ⟨hi, hget⟩ := List.getElem?_eq_some_iff.1 hline
  have hidx : lines.findIdx (fun l => decide (off < l.begin)) = i + 1 := by
    have hbefore : ∀ j (hj : j < lines.length), j ≤ i → decide (off < lines[j].begin) = false := by
      intro j hj hji
      refine decide_eq_false (Nat.not_lt_of_le ?_)
      rcases Nat.lt_or_eq_of_le hji with hlt | rfl
      · have hsep := h.termEnd_le_begin (List.getElem?_eq_getElem hj) hline hlt
        have hin := (h.within _ (List.getElem_mem hj)).2.2.1
        omega
      · rw [hget]
        exact hbegin
    by_cases hlast : i + 1 < lines.length
    · refine (List.findIdx_eq hlast).2 ⟨decide_eq_true ?_, fun j hj => hbefore j _ (by omega)⟩
      have hsep := h.termEnd_le_begin hline (List.getElem?_eq_getElem hlast) (Nat.lt_succ_self i)
      omega
    · have hlen : lines.length = i + 1 := by omega
      rw [← hlen]
      refine List.findIdx_eq_length_of_false (fun l hl => ?_)
      obtain ⟨j, hj, rfl⟩ := List.getElem_of_mem hl
      exact hbefore j hj (by omega)
  have hne : ¬ (lines.isEmpty = true ∨ i + 1 = 0) := by
    rw [List.isEmpty_iff]
    rintro (rfl | h0)
    · exact Nat.not_lt_zero _ hi
    · cases h0
  rw [lineForOffset, hidx, if_neg hne]
  omega

theorem Partitions.exists_line (h : Partitions data sep 0 lines) {off : Nat} (hoff : off < data.length) :
    ∃ line, lines[lineForOffset lines off]? = some line ∧ line.begin ≤ off ∧ off < line.termEnd := by
  obtain ⟨line, hmem, hbegin, hend⟩ := h.covers off (Nat.zero_le off) hoff
  obtain ⟨i, hi, hget⟩ := List.getElem_of_mem hmem
  have hline : lines[i]? = some line := by
    rw [List.getElem?_eq_getElem hi, hget]
  exact ⟨line, by rw [h.lineForOffset_eq hline hbegin hend, hline], hbegin, hend⟩

/-! ## The lines of a match -/

/-- Two ranges of offsets have one in common. -/
def Meets (a b c d : Nat) : Prop := ∃ x, a ≤ x ∧ x < b ∧ c ≤ x ∧ x < d

theorem meets_iff {a b c d : Nat} : Meets a b c d ↔ max a c < min b d := by
  constructor
  · rintro ⟨x, hx⟩
    omega
  · intro h
    exact ⟨max a c, by omega⟩

instance (a b c d : Nat) : Decidable (Meets a b c d) := decidable_of_iff _ meets_iff.symm

/-- **A match is on the lines it meets**: an empty one on the line of its offset. -/
theorem Partitions.matchLines_iff (h : Partitions data sep 0 lines) {m : Match} (hstart : m.start < data.length)
    (hle : m.start ≤ m.stop) (hstop : m.stop ≤ data.length) {i : Nat} {line : LineRecord} (hline : lines[i]? = some line) :
    (matchLines lines m).1 ≤ i ∧ i ≤ (matchLines lines m).2 ↔
      Meets m.start (max m.stop (m.start + 1)) line.begin line.termEnd := by
  obtain ⟨last, hlast, hlastEq⟩ : ∃ last, last < data.length ∧ (if m.start < m.stop then m.stop - 1 else m.start) = last ∧
      max m.stop (m.start + 1) = last + 1 := by
    by_cases hlt : m.start < m.stop
    · exact ⟨m.stop - 1, by omega, if_pos hlt, by omega⟩
    · exact ⟨m.start, hstart, if_neg hlt, by omega⟩
  obtain ⟨l1, hl1, hb1, he1⟩ := h.exists_line hstart
  obtain ⟨l2, hl2, hb2, he2⟩ := h.exists_line hlast
  have hin := h.within line (List.mem_of_getElem? hline)
  rw [matchLines, hlastEq.1, hlastEq.2, meets_iff]
  dsimp only
  constructor
  · rintro ⟨hfst, hsnd⟩
    have hlow : m.start < line.termEnd := by
      rcases Nat.lt_or_eq_of_le hfst with hlt | heq
      · have := h.termEnd_le_begin hl1 hline hlt
        omega
      · rw [heq, hline] at hl1
        cases hl1
        exact he1
    have hhigh : line.begin ≤ last := by
      rcases Nat.lt_or_eq_of_le hsnd with hlt | heq
      · have := h.termEnd_le_begin hline hl2 hlt
        omega
      · rw [← heq, hline] at hl2
        cases hl2
        exact hb2
    omega
  · intro hmeet
    constructor
    · by_contra hlt
      have := h.termEnd_le_begin hline hl1 (Nat.lt_of_not_le hlt)
      omega
    · by_contra hlt
      have := h.termEnd_le_begin hl2 hline (Nat.lt_of_not_le hlt)
      omega

/-- **The line map of a text**: its lines partition it, each offset is on the line that is named for it and on no other,
and a line lists the matches that meet it, in their order. -/
theorem splitLines_law (data : Bytes) (sep : UInt8) : Partitions data sep 0 (splitLines data sep) ∧
    (∀ off < data.length, ∃ line, (splitLines data sep)[lineForOffset (splitLines data sep) off]? = some line ∧
      line.begin ≤ off ∧ off < line.termEnd ∧
      ∀ (i : Nat) (other : LineRecord), (splitLines data sep)[i]? = some other → other.begin ≤ off → off < other.termEnd →
        i = lineForOffset (splitLines data sep) off) ∧
    (∀ ms : List Match, (∀ m ∈ ms, m.start < data.length ∧ m.start ≤ m.stop ∧ m.stop ≤ data.length) →
      ∀ (i : Nat) (line : LineRecord), (splitLines data sep)[i]? = some line → (matchesByLine (splitLines data sep) ms)[i]? =
        some (ms.filter (fun m => decide (Meets m.start (max m.stop (m.start + 1)) line.begin line.termEnd)))) := by
  have h := splitLines_partitions data sep
  refine ⟨h, fun off hoff => ?_, fun ms hms i line hline => ?_⟩
  · obtain ⟨line, hline, hbegin, hend⟩ := h.exists_line hoff
    exact ⟨line, hline, hbegin, hend, fun i other ho hb he => (h.lineForOffset_eq ho hb he).symm⟩
  · obtain ⟨hi, -⟩ := List.getElem?_eq_some_iff.1 hline
    rw [matchesByLine_eq, List.getElem?_map, List.getElem?_range hi, Option.map_some]
    refine congrArg some (List.filter_congr (fun m hm => decide_eq_decide.2 ?_))
    exact h.matchLines_iff (hms m hm).1 (hms m hm).2.1 (hms m hm).2.2 hline

end

/-- A match over the end of the first line is under the second too. -/
theorem splitLines_law_two : (matchesByLine (splitLines [0x61, 0x0A, 0x62] 0x0A) [{ start := 1, stop := 3 }])[1]? =
    some [{ start := 1, stop := 3 }] := by
  have h := (splitLines_law [0x61, 0x0A, 0x62] 0x0A).2.2 [{ start := 1, stop := 3 }] (by decide) 1 ⟨2, 3, 3⟩ (by decide)
  exact h.trans (by decide)

end Pergrep.Cli
