import Pergrep.Cli.Main
import Pergrep.Search.Bounds
/-!
# Quiet — the exit status with `--quiet` and without

A file answers with its lines, with its count or with a notice; without inversion it does exactly when one of its matches
counts (`fileAnswer_eq`), and whether a match counts is a matter of the file and of where the match starts.  So a quiet run
ends as the loud one exactly when its first hits, as they are found, count where any match does (`quiet_exit_iff`).
-/
namespace Pergrep.Cli

open Throw

/-! ## The lines that stay selected -/

/-- The bits before a place, none after it. -/
def CutAt (n : Nat) (bits' bits : List Bool) : Prop := ∀ i, bits'.getD i false = (decide (i < n) && bits.getD i false)

theorem CutAt.cons {n : Nat} {bits' bits : List Bool} (h : CutAt n bits' bits) (b : Bool) :
    CutAt (n + 1) (b :: bits') (b :: bits) := by
  intro i
  cases i with
  | zero => simp
  | succ i => simpa using h i

theorem CutAt.trans {n k : Nat} {bits bits' bits'' : List Bool} (h : CutAt n bits'' bits') (h' : CutAt k bits' bits) :
    CutAt (min n k) bits'' bits := by
  intro i
  rw [h, h', ← Bool.and_assoc, ← Bool.decide_and]
  congr 2
  exact propext (by omega)

theorem cutAt_self (bits : List Bool) : CutAt bits.length bits bits := by
  intro i
  by_cases hi : i < bits.length
  · rw [decide_eq_true hi, Bool.true_and]
  · rw [List.getD_eq_default _ _ (by omega), Bool.and_false]

theorem stopAfter_cut : ∀ (bits : List Bool) (seen : Bool), ∃ n, CutAt n (stopAfter seen bits) bits
  | [], seen => ⟨0, fun i => by cases seen <;> rfl⟩
  | true :: bits, seen => by
    obtain ⟨n, h⟩ := stopAfter_cut bits true
    exact ⟨n + 1, by cases seen <;> exact h.cons true⟩
  | false :: bits, true => by
    refine ⟨0, fun i => ?_⟩
    have hnone : (List.replicate (bits.length + 1) false).getD i false = false := by
      rw [List.getD_eq_getElem?_getD, List.getElem?_replicate]
      split <;> rfl
    exact hnone
  | false :: bits, false => by
    obtain ⟨n, h⟩ := stopAfter_cut bits false
    exact ⟨n + 1, h.cons false⟩

theorem mem_stopAfter : ∀ {bits : List Bool}, true ∈ bits → true ∈ stopAfter false bits
  | true :: bits, _ => List.mem_cons_self
  | false :: bits, h => by
    rcases List.mem_cons.1 h with h | h
    · cases h
    · exact List.mem_cons_of_mem _ (mem_stopAfter h)

theorem limitSelected_none {maxCount : Nat} : ∀ {bits : List Bool} {seen : Nat}, maxCount ≤ seen →
    ∀ i, (limitSelected maxCount seen bits).getD i false = false
  | [], _, _, i => rfl
  | true :: bits, seen, h, i => by
    rw [limitSelected, if_pos h]
    cases i with
    | zero => rfl
    | succ i => exact limitSelected_none h i
  | false :: bits, seen, h, i => by
    rw [limitSelected]
    cases i with
    | zero => rfl
    | succ i => exact limitSelected_none h i

theorem limitSelected_cut (maxCount : Nat) : ∀ (bits : List Bool) (seen : Nat),
    ∃ n, CutAt n (limitSelected maxCount seen bits) bits
  | [], _ => ⟨0, fun _ => rfl⟩
  | true :: bits, seen => by
    by_cases h : maxCount ≤ seen
    · exact ⟨0, fun i => limitSelected_none h i⟩
    · obtain ⟨n, hn⟩ := limitSelected_cut maxCount bits (seen + 1)
      rw [limitSelected, if_neg h]
      exact ⟨n + 1, hn.cons true⟩
  | false :: bits, seen => by
    obtain ⟨n, hn⟩ := limitSelected_cut maxCount bits seen
    exact ⟨n + 1, hn.cons false⟩

theorem mem_limitSelected {maxCount : Nat} (hmax : 0 < maxCount) : ∀ {bits : List Bool}, true ∈ bits →
    true ∈ limitSelected maxCount 0 bits
  | true :: bits, _ => by
    rw [limitSelected, if_neg (by omega)]
    exact List.mem_cons_self
  | false :: bits, h => by
    rcases List.mem_cons.1 h with h | h
    · cases h
    · exact List.mem_cons_of_mem _ (mem_limitSelected hmax h)

theorem mem_iff_getD {bits : List Bool} : true ∈ bits ↔ ∃ i, bits.getD i false = true := by
  rw [List.mem_iff_getElem?]
  refine exists_congr (fun i => ?_)
  rw [List.getD_eq_getElem?_getD]
  cases bits[i]? <;> simp

section
variable {a : Args} {lines : List LineRecord} {ms : List Match}

theorem selectedLines_cut : ∃ n, CutAt n (selectedLines a lines ms) (matchedLines a lines ms) := by
  unfold selectedLines
  dsimp only
  have hstop : ∃ n, CutAt n (if a.stopOnNonmatch then stopAfter false (matchedLines a lines ms) else matchedLines a lines ms)
      (matchedLines a lines ms) := by
    split
    · exact stopAfter_cut _ false
    · exact ⟨_, cutAt_self _⟩
  obtain ⟨k, hk⟩ := hstop
  split
  · obtain ⟨n, hn⟩ := limitSelected_cut a.maxCount
      (if a.stopOnNonmatch then stopAfter false (matchedLines a lines ms) else matchedLines a lines ms) 0
    exact ⟨_, hn.trans hk⟩
  · exact ⟨k, hk⟩

theorem mem_selectedLines (hmax : (a.maxCountSet && decide (a.maxCount = 0)) = false) :
    true ∈ selectedLines a lines ms ↔ true ∈ matchedLines a lines ms := by
  constructor
  · intro h
    obtain ⟨n, hn⟩ := @selectedLines_cut a lines ms
    obtain ⟨i, hi⟩ := mem_iff_getD.1 h
    rw [hn] at hi
    exact mem_iff_getD.2 ⟨i, (Bool.and_eq_true_iff.1 hi).2⟩
  · intro h
    unfold selectedLines
    dsimp only
    have hstop : true ∈ (if a.stopOnNonmatch then stopAfter false (matchedLines a lines ms) else matchedLines a lines ms) := by
      split
      · exact mem_stopAfter h
      · exact h
    split
    · rename_i hset
      rw [hset, Bool.true_and, decide_eq_false_iff_not] at hmax
      exact mem_limitSelected (by omega) hstop
    · exact hstop

theorem selectedLines_lt {i : Nat} (h : (selectedLines a lines ms).getD i false = true) : i < lines.length := by
  obtain ⟨n, hn⟩ := @selectedLines_cut a lines ms
  rw [hn, Bool.and_eq_true_iff] at h
  by_contra hge
  have hlen : (matchedLines a lines ms).length = lines.length := by
    rw [matchedLines, matchesByLine_eq, List.length_map, List.length_map, List.length_range]
  rw [List.getD_eq_default _ _ (by omega)] at h
  cases h.2

variable (hinv : a.sopt.invertMatch = false)
include hinv

theorem matchedLines_getD {i : Nat} : (matchedLines a lines ms).getD i false = true ↔
    i < lines.length ∧ ∃ m ∈ ms, (matchLines lines m).1 ≤ i ∧ i ≤ (matchLines lines m).2 := by
  rw [matchedLines, matchesByLine_eq, List.getD_eq_getElem?_getD, hinv, List.map_map, List.getElem?_map]
  by_cases hi : i < lines.length
  · simp [hi]
  · simp [hi]

theorem mem_matchedLines : true ∈ matchedLines a lines ms ↔ ms ≠ [] ∧ lines ≠ [] := by
  rw [mem_iff_getD]
  constructor
  · rintro ⟨i, hi⟩
    obtain ⟨hlt, m, hm, -⟩ := (matchedLines_getD hinv).1 hi
    exact ⟨List.ne_nil_of_mem hm, List.ne_nil_of_length_pos (by omega)⟩
  · rintro ⟨hms, hlines⟩
    obtain ⟨m, hm⟩ := List.exists_mem_of_ne_nil ms hms
    exact ⟨_, (matchedLines_getD hinv).2 ⟨lineForOffset_lt hlines m.start, m, hm, Nat.le_refl _, matchLines_le m⟩⟩

theorem any_onSelected : ms.any (onSelected lines (selectedLines a lines ms)) = decide (true ∈ selectedLines a lines ms) := by
  rw [Bool.eq_iff_iff, List.any_eq_true, decide_eq_true_iff]
  constructor
  · rintro ⟨m, -, hm⟩
    exact mem_iff_getD.2 ⟨_, hm⟩
  · intro h
    obtain ⟨i, hi⟩ := mem_iff_getD.1 h
    obtain ⟨n, hn⟩ := @selectedLines_cut a lines ms
    rw [hn, Bool.and_eq_true_iff, decide_eq_true_iff] at hi
    obtain ⟨hlt, m, hm, hfirst, -⟩ := (matchedLines_getD hinv).1 hi.2
    refine ⟨m, hm, ?_⟩
    rw [onSelected, hn, Bool.and_eq_true_iff, decide_eq_true_iff]
    change (matchLines lines m).1 < n ∧ _
    exact ⟨by omega, (matchedLines_getD hinv).2 ⟨by change (matchLines lines m).1 < _; omega, m, hm, Nat.le_refl _,
      matchLines_le m⟩⟩

end

/-! ## What is printed -/

section
variable {a : Args} {lines : List LineRecord} {selected : List Bool} {ms : List Match}

theorem printLines_true : ∀ (is : List Nat) (skipUntil : Nat), printLines a lines selected ms is skipUntil true = true
  | [], _ => rfl
  | i :: is, skipUntil => by
    rw [printLines]
    split
    · exact printLines_true is skipUntil
    split
    · exact printLines_true is skipUntil
    · exact printLines_true is _

theorem emitsLine_selected {i : Nat} (h : selected.getD i false = true) : emitsLine a selected i = true := by
  have hlt : i < selected.length := by
    by_contra hge
    rw [List.getD_eq_default _ _ (by omega)] at h
    cases h
  rw [emitsLine, Bool.or_eq_true_iff]
  refine Or.inr (List.any_eq_true.2 ⟨i, List.mem_range.2 hlt, ?_⟩)
  rw [h, decide_eq_true (by omega), decide_eq_true (by omega)]
  rfl

/-- **A selected line is seen** when the lines are printed: no line is stepped over before the first. -/
theorem printLines_eq : ∀ (is : List Nat) (skipUntil : Nat), (∀ i ∈ is, selected.getD i false = true → skipUntil ≤ i) →
    printLines a lines selected ms is skipUntil false = is.any (fun i => selected.getD i false)
  | [], _, _ => rfl
  | i :: is, skipUntil, h => by
    have hrest := fun j hj => h j (List.mem_cons_of_mem i hj)
    rw [printLines, List.any_cons]
    cases hsel : selected.getD i false with
    | true =>
      have hle := h i List.mem_cons_self hsel
      rw [if_neg (by omega), emitsLine_selected hsel, if_neg (by simp)]
      exact printLines_true is _
    | false =>
      split
      · exact printLines_eq is skipUntil hrest
      split
      · exact printLines_eq is skipUntil hrest
      · exact printLines_eq is skipUntil hrest

end

/-! ## What a file answers -/

section
variable (a : Args) (explicitFile : Bool) (data : Bytes) (found : List Match)

/-- The answer of a file: the run ends with 0, or will. -/
def fileAnswer : Bool := (fileStep a explicitFile data found).getD true

def fileSelected : List Bool :=
  selectedLines a (splitLines data (if a.nullData then 0 else 0x0A)) (keptMatches a data found)

/-- `hit` -/
def fileHits : Bool := decide ((fileSelected a data found).count true ≠ 0)

def bare : Bool := !a.passthru && decide (a.after = 0) && decide (a.before = 0) && !a.json

/-- The mode of `--vimgrep`, inverted: what is selected is not printed. -/
def vimgrepInvert : Bool :=
  !(a.filesWith || a.filesWithout) && !(a.count || a.countMatches) && !a.json && !a.onlyMatching && a.vimgrep &&
    a.sopt.invertMatch

theorem fileHits_eq : fileHits a data found = decide (true ∈ fileSelected a data found) := by
  rw [fileHits, decide_eq_decide, Ne, List.count_eq_zero, not_not]

def fileEmits : Bool := if a.filesWith then fileHits a data found else !fileHits a data found

/-- What a file adds to `any`, where it is not the file that is listed. -/
def fileAdds : Bool :=
  let ms := keptMatches a data found
  let lines := splitLines data (if a.nullData then 0 else 0x0A)
  let selected := fileSelected a data found
  if a.count || a.countMatches then decide (0 < fileCount a lines selected ms)
  else if !fileHits a data found && bare a then
    binaryNotice a explicitFile data found && searchSuppress a explicitFile data
  else if a.json then fileHits a data found
  else if a.onlyMatching then
    fileHits a data found || (!a.sopt.invertMatch && ms.any (onSelected lines selected))
  else if a.vimgrep then !a.sopt.invertMatch && ms.any (onSelected lines selected)
  else printLines a lines selected ms (List.range lines.length) 0 false || binaryNotice a explicitFile data found

/-- **What a file answers**: by its place on a list, else by a quiet hit or by what it adds. -/
theorem fileAnswer_step : fileAnswer a explicitFile data found =
    if a.filesWith || a.filesWithout then fileEmits a data found
    else (a.quiet && fileHits a data found) || fileAdds a explicitFile data found := by
  have hif : ∀ (b : Bool) (x y : Bool), (if b then some x else some y) = some (if b then x else y) := fun b x y => by
    cases b <;> rfl
  have hstep : fileStep a explicitFile data found =
      if a.filesWith || a.filesWithout then
        (if fileEmits a data found then (if a.quiet then none else some true) else some false)
      else if a.quiet && fileHits a data found then none else some (fileAdds a explicitFile data found) := by
    unfold fileAdds
    dsimp only
    simp only [← hif]
    unfold bare
    simp only [← Bool.and_assoc]
    rfl
  rw [fileAnswer, hstep]
  cases a.filesWith || a.filesWithout with
  | true =>
    cases fileEmits a data found with
    | true => cases a.quiet <;> rfl
    | false => rfl
  | false =>
    cases a.quiet && fileHits a data found with
    | true => rfl
    | false => rfl

theorem mem_fileSelected : true ∈ fileSelected a data found ↔ fileHits a data found = true := by
  rw [fileHits_eq, decide_eq_true_iff]

theorem printLines_hit : printLines a (splitLines data (if a.nullData then 0 else 0x0A)) (fileSelected a data found)
    (keptMatches a data found) (List.range (splitLines data (if a.nullData then 0 else 0x0A)).length) 0 false =
      fileHits a data found := by
  rw [printLines_eq _ _ (fun _ _ _ => Nat.zero_le _), Bool.eq_iff_iff, ← mem_fileSelected, mem_iff_getD, List.any_eq_true]
  exact ⟨fun ⟨i, _, hi⟩ => ⟨i, hi⟩, fun ⟨i, hi⟩ => ⟨i, List.mem_range.2 (selectedLines_lt hi), hi⟩⟩

theorem any_onSelected_hit (hinv : a.sopt.invertMatch = false) : (keptMatches a data found).any
    (onSelected (splitLines data (if a.nullData then 0 else 0x0A)) (fileSelected a data found)) = fileHits a data found := by
  rw [fileHits_eq]
  exact any_onSelected hinv

theorem keptMatches_of_hit (hinv : a.sopt.invertMatch = false) (h : fileHits a data found = true) :
    keptMatches a data found ≠ [] := by
  rw [← any_onSelected_hit a data found hinv, List.any_eq_true] at h
  obtain ⟨m, hm, -⟩ := h
  exact List.ne_nil_of_mem hm

/-- The count is there with the hit, but where all matches are counted whatever their lines. -/
theorem fileCount_pos : decide (0 < fileCount a (splitLines data (if a.nullData then 0 else 0x0A)) (fileSelected a data found)
    (keptMatches a data found)) =
      if a.countMatches && !a.sopt.invertMatch && !a.maxCountSet then !(keptMatches a data found).isEmpty
      else fileHits a data found := by
  unfold fileCount
  cases hmatches : a.countMatches && !a.sopt.invertMatch with
  | false =>
    rw [if_neg Bool.false_ne_true, Bool.false_and, if_neg Bool.false_ne_true, fileHits, decide_eq_decide, Nat.pos_iff_ne_zero]
  | true =>
    rw [if_pos rfl, Bool.true_and]
    cases a.maxCountSet with
    | true =>
      have hinv : a.sopt.invertMatch = false := by simpa using (Bool.and_eq_true_iff.1 hmatches).2
      rw [if_pos rfl, Bool.not_true, if_neg Bool.false_ne_true, ← any_onSelected_hit a data found hinv, Bool.eq_iff_iff,
        decide_eq_true_iff, List.countP_pos_iff, List.any_eq_true]
    | false =>
      rw [if_neg Bool.false_ne_true, Bool.not_false, if_pos rfl, Bool.eq_iff_iff, decide_eq_true_iff, Bool.not_eq_true',
        List.isEmpty_eq_false_iff, List.length_pos_iff]

/-- A file with a selected line adds its answer, but for the inverted mode of `--vimgrep`. -/
theorem fileAdds_hit (hfiles : (a.filesWith || a.filesWithout) = false) (hvim : vimgrepInvert a = false)
    (h : fileHits a data found = true) : fileAdds a explicitFile data found = true := by
  unfold fileAdds
  dsimp only
  rw [fileCount_pos, printLines_hit, h]
  split
  · split
    · rename_i hmatches
      have hinv : a.sopt.invertMatch = false := by
        simp only [Bool.and_eq_true, Bool.not_eq_true'] at hmatches
        exact hmatches.1.2
      rw [List.isEmpty_eq_false_iff.2 (keptMatches_of_hit a data found hinv h)]
      rfl
    · rfl
  · rename_i hcount
    rw [Bool.not_true, Bool.false_and, if_neg Bool.false_ne_true, Bool.true_or, Bool.true_or]
    split
    · rfl
    · rename_i hjson
      split
      · rfl
      · rename_i honly
        split
        · rename_i hvimgrep
          have hinv : a.sopt.invertMatch = false := by
            simpa [vimgrepInvert, hfiles, hcount, hjson, honly, hvimgrep] using hvim
          rw [any_onSelected_hit a data found hinv, hinv, h]
          rfl
        · rfl

/-! ## The matches that count -/

def kept (m : Match) : Bool :=
  match binaryCut a data with
  | none     => true
  | some nul => decide (m.start < nul)

def countsLine (m : Match) : Bool := kept a data m && !data.isEmpty

/-- **The match counts** for the answer of its file. -/
def counts (m : Match) : Bool :=
  if a.filesWith || a.filesWithout then countsLine a data m
  else if a.count || a.countMatches then kept a data m && (a.countMatches && !a.maxCountSet || !data.isEmpty)
  else countsLine a data m ||
    (searchSuppress a explicitFile data && (bare a || (!a.json && !a.onlyMatching && !a.vimgrep)))

theorem keptMatches_eq : keptMatches a data found = found.filter (kept a data) := by
  unfold keptMatches kept
  cases binaryCut a data with
  | none => exact (List.filter_true found).symm
  | some nul => rfl

theorem any_or_const {α : Type} (q : α → Bool) (b : Bool) (as : List α) :
    as.any (fun m => q m || b) = (as.any q || (b && !as.isEmpty)) := by
  induction as with
  | nil => simp
  | cons m as ih =>
    rw [List.any_cons, List.any_cons, ih]
    cases q m <;> cases b <;> cases as.any q <;> rfl

theorem any_and_const {α : Type} (q : α → Bool) (b : Bool) (as : List α) :
    as.any (fun m => q m && b) = (as.any q && b) := by
  cases b with
  | true => simp
  | false => simp

theorem binaryNotice_eq : binaryNotice a explicitFile data found =
    ((autoBinary a explicitFile data && found.any (kept a data)) || (searchSuppress a explicitFile data && !found.isEmpty)) := by
  unfold binaryNotice kept autoBinary searchSuppress
  cases binaryCut a data with
  | none => rfl
  | some nul =>
    have hsome : (found.any (fun m => decide (m.start < nul)) || found.any (fun m => !decide (m.start < nul))) =
        !found.isEmpty := by
      rw [Bool.eq_iff_iff, Bool.or_eq_true_iff, List.any_eq_true, List.any_eq_true, Bool.not_eq_true',
        List.isEmpty_eq_false_iff_exists_mem]
      constructor
      · rintro (⟨m, hm, -⟩ | ⟨m, hm, -⟩)
        · exact ⟨m, hm⟩
        · exact ⟨m, hm⟩
      · rintro ⟨m, hm⟩
        cases hlt : decide (m.start < nul) with
        | true => exact Or.inl ⟨m, hm, hlt⟩
        | false => exact Or.inr ⟨m, hm, by rw [hlt]; rfl⟩
    dsimp only
    rw [hsome]

theorem autoBinary_data (h : autoBinary a explicitFile data = true) : data.isEmpty = false := by
  unfold autoBinary binaryCut firstNul at h
  cases data with
  | nil => simp at h
  | cons b bs => rfl

variable (hinv : a.sopt.invertMatch = false) (hmax : (a.maxCountSet && decide (a.maxCount = 0)) = false)
include hinv hmax

theorem fileHits_any : fileHits a data found = found.any (countsLine a data) := by
  rw [fileHits_eq]
  unfold fileSelected countsLine
  rw [any_and_const, Bool.eq_iff_iff, decide_eq_true_iff, mem_selectedLines hmax, mem_matchedLines hinv, keptMatches_eq,
    Ne, Ne, splitLines_nil, ← List.isEmpty_iff, ← List.isEmpty_iff, ← isEmpty_filter]
  simp

/-- **A file adds its answer when a match counts.** -/
theorem fileAdds_any (hfiles : (a.filesWith || a.filesWithout) = false) :
    fileAdds a explicitFile data found = found.any (counts a explicitFile data) := by
  have hhit := fileHits_any a data found hinv hmax
  have hcounts : counts a explicitFile data = fun m =>
      if a.count || a.countMatches then kept a data m && (a.countMatches && !a.maxCountSet || !data.isEmpty)
      else countsLine a data m ||
        (searchSuppress a explicitFile data && (bare a || (!a.json && !a.onlyMatching && !a.vimgrep))) := by
    funext m
    rw [counts, hfiles, if_neg Bool.false_ne_true]
  unfold fileAdds
  dsimp only
  rw [fileCount_pos, printLines_hit, any_onSelected_hit a data found hinv, hinv, hcounts, Bool.not_false, Bool.true_and,
    Bool.and_true, Bool.or_self]
  cases a.count || a.countMatches with
  | true =>
    simp only [if_true]
    rw [any_and_const, keptMatches_eq, isEmpty_filter]
    cases a.countMatches && !a.maxCountSet with
    | true => rw [if_pos rfl, Bool.true_or, Bool.and_true]
    | false => rw [if_neg Bool.false_ne_true, Bool.false_or, hhit, ← any_and_const]; rfl
  | false =>
    simp only [Bool.false_eq_true, if_false]
    rw [any_or_const, ← hhit, binaryNotice_eq]
    -- a notice of a text cut at its NUL comes with a match before it
    have hauto : fileHits a data found = false → (autoBinary a explicitFile data && found.any (kept a data)) = false := by
      intro hno
      cases h : autoBinary a explicitFile data with
      | false => rfl
      | true =>
        rw [hhit] at hno
        unfold countsLine at hno
        rwa [any_and_const, autoBinary_data a explicitFile data h, Bool.not_false, Bool.and_true] at hno
    cases hh : fileHits a data found with
    | true => cases a.json <;> cases a.onlyMatching <;> cases a.vimgrep <;> rfl
    | false =>
      rw [hauto hh, Bool.not_false, Bool.true_and, Bool.false_or, Bool.false_or, Bool.false_or]
      cases searchSuppress a explicitFile data with
      | false => simp
      | true =>
        cases bare a with
        | true => simp
        | false => cases a.json <;> cases a.onlyMatching <;> cases a.vimgrep <;> simp

end

/-! ## The matches of a file -/

theorem any_uniqueFrom (q : Nat → Bool) : ∀ (ms : List Match) (last : Match),
    (q last.start || (uniqueFrom last ms).any (fun m => q m.start)) = (q last.start || ms.any (fun m => q m.start))
  | [], _ => rfl
  | m :: ms, last => by
    rw [uniqueFrom]
    split
    · rename_i h
      rw [any_uniqueFrom q ms last, List.any_cons, ← h.1, ← Bool.or_assoc, Bool.or_self]
    · rw [List.any_cons, List.any_cons, any_uniqueFrom q ms m]

theorem any_uniqueSpans (q : Nat → Bool) : ∀ ms : List Match,
    (uniqueSpans ms).any (fun m => q m.start) = ms.any (fun m => q m.start)
  | [] => rfl
  | m :: ms => by rw [uniqueSpans, List.any_cons, List.any_cons, any_uniqueFrom]

section
variable (c : Corpus)

/-- What is asked of the starts of the matches of a file is asked of all matches in the file. -/
theorem any_byFile (perpat : List (List Match)) (fid : Nat) (q : Nat → Bool) :
    (byFile c perpat fid).any (fun m => q m.start) = true ↔
      ∃ m ∈ perpat.flatten, c.allows fid = true ∧ m.fileId = fid ∧ q m.start = true := by
  rw [byFile, any_uniqueSpans, List.any_eq_true]
  refine exists_congr (fun m => ?_)
  rw [List.mem_insertionSort, List.mem_filter, Bool.and_eq_true_iff, beq_iff_eq, and_assoc, and_assoc]
  refine and_congr_right (fun _ => ?_)
  constructor
  · rintro ⟨hallow, rfl, hq⟩
    exact ⟨hallow, rfl, hq⟩
  · rintro ⟨hallow, rfl, hq⟩
    exact ⟨hallow, rfl, hq⟩

/-! ## The run -/

variable (a : Args)

def Answers (perpat : List (List Match)) (fid : Nat) : Prop :=
  c.allows fid = true ∧ fileAnswer a (c.explicitFile fid) (c.index.data fid) (byFile c perpat fid) = true

instance (perpat : List (List Match)) (fid : Nat) : Decidable (Answers c a perpat fid) := inferInstanceAs (Decidable (_ ∧ _))

/-- **The run ends with 0** when a file answers. -/
theorem exitLoop_eq (perpat : List (List Match)) : ∀ (fids : List Nat) (any : Bool),
    exitLoop a c perpat fids any = if any = true ∨ ∃ fid ∈ fids, Answers c a perpat fid then 0 else 1
  | [], any => by
    rw [exitLoop]
    simp
  | fid :: fids, any => by
    rw [exitLoop]
    cases hallow : c.allows fid with
    | false =>
      have hno : ¬ Answers c a perpat fid := fun h => by
        rw [Answers, hallow] at h
        cases h.1
      rw [Bool.not_false, if_pos rfl, exitLoop_eq perpat fids any]
      simp only [List.mem_cons, exists_eq_or_imp, hno, false_or]
    | true =>
      rw [Bool.not_true, if_neg Bool.false_ne_true]
      have hanswer : Answers c a perpat fid ↔
          (fileStep a (c.explicitFile fid) (c.index.data fid) (byFile c perpat fid)).getD true = true := by
        rw [Answers, hallow, and_iff_right rfl]
        rfl
      simp only [List.mem_cons, exists_eq_or_imp, hanswer]
      cases fileStep a (c.explicitFile fid) (c.index.data fid) (byFile c perpat fid) with
      | none => simp
      | some b =>
        dsimp only
        rw [exitLoop_eq perpat fids (any || b)]
        simp only [Bool.or_eq_true, Option.getD_some, or_assoc]

def SomeAnswer (perpat : List (List Match)) : Prop := ∃ fid < c.index.infos.length, Answers c a perpat fid

theorem exitLoop_order (perpat : List (List Match)) [Decidable (SomeAnswer c a perpat)] :
    exitLoop a c perpat c.order false = if SomeAnswer c a perpat then 0 else 1 := by
  have hiff : (false = true ∨ ∃ fid ∈ c.order, Answers c a perpat fid) ↔ SomeAnswer c a perpat := by
    simp [SomeAnswer, c.order_perm.mem_iff]
  rw [exitLoop_eq]
  exact if_congr hiff rfl rfl

end

/-- The arguments with `--quiet`, or without. -/
def Args.withQuiet (a : Args) (quiet : Bool) : Args := { a with quiet := quiet }

section
variable (icu : Icu) (plan : Planner) (a : Args) (c : Corpus)

theorem searchPatterns_ok : ∀ {pats : List Bytes} {perpat : List (List Match)}, searchPatterns icu plan a c pats = .ok perpat →
    (∀ ps ∈ pats, ∃ p ms, Pattern.compile icu ps a.popt = .ok p ∧ find icu c.index plan p (coreOptions a c) = .ok ms) ∧
      ∀ m, m ∈ perpat.flatten ↔ ∃ ps ∈ pats, ∃ p ms, Pattern.compile icu ps a.popt = .ok p ∧
        find icu c.index plan p (coreOptions a c) = .ok ms ∧ m ∈ ms
  | [], _, h => by
    cases h
    simp
  | ps :: pats, _, h => by
    obtain ⟨p, hp, h⟩ := bind_ok h
    obtain ⟨ms, hms, h⟩ := bind_ok h
    obtain ⟨others, hothers, h⟩ := bind_ok h
    cases h
    obtain ⟨hall, hmem⟩ := searchPatterns_ok hothers
    refine ⟨List.forall_mem_cons.2 ⟨⟨p, ms, hp, hms⟩, hall⟩, fun m => ?_⟩
    rw [List.flatten_cons, List.mem_append, hmem]
    simp [hp, hms]

def Finds (m : Match) : Prop := ∃ ps ∈ a.patterns, ∃ p ms, Pattern.compile icu ps a.popt = .ok p ∧
  find icu c.index plan p (coreOptions (a.withQuiet false) c) = .ok ms ∧ m ∈ ms

/-- The match is the first of a pattern, whose first record does not hide it. -/
def FindsFirst (m : Match) : Prop := ∃ ps ∈ a.patterns, ∃ p ms, Pattern.compile icu ps a.popt = .ok p ∧
  find icu c.index plan p (coreOptions (a.withQuiet false) c) = .ok ms ∧
    FirstRunLaw icu c.index p (coreOptions (a.withQuiet false) c) ∧ ms.head? = some m

theorem coreOptions_quiet (hinv : a.sopt.invertMatch = false) :
    coreOptions (a.withQuiet true) c = (coreOptions (a.withQuiet false) c).bounded .firstHit 0 := by
  unfold coreOptions SearchOptions.bounded Args.withQuiet
  dsimp only
  rw [hinv]
  rfl

theorem coreOptions_inverted (hinv : a.sopt.invertMatch = true) :
    coreOptions (a.withQuiet true) c = coreOptions (a.withQuiet false) c := by
  unfold coreOptions Args.withQuiet
  dsimp only
  rw [hinv]
  rfl

theorem searchPatterns_congr {a a' : Args} (hcore : coreOptions a c = coreOptions a' c) (hopt : a.popt = a'.popt) :
    ∀ pats : List Bytes, searchPatterns icu plan a c pats = searchPatterns icu plan a' c pats
  | [] => rfl
  | ps :: pats => by
    rw [searchPatterns, searchPatterns, searchPatterns_congr hcore hopt pats, hcore, hopt]

/-- **The matches of a quiet run** are the first hits. -/
theorem searchPatterns_quiet (hinv : a.sopt.invertMatch = false) {perpat perpat' : List (List Match)}
    (h : searchPatterns icu plan (a.withQuiet false) c a.patterns = .ok perpat)
    (h' : searchPatterns icu plan (a.withQuiet true) c a.patterns = .ok perpat') (m : Match) :
    m ∈ perpat'.flatten ↔ FindsFirst icu plan a c m := by
  obtain ⟨hall, -⟩ := searchPatterns_ok icu plan _ c h
  rw [(searchPatterns_ok icu plan _ c h').2]
  refine exists_congr (fun ps => and_congr_right (fun hps => exists_congr (fun p => ?_)))
  obtain ⟨p₀, ms₀, hp₀, hms₀⟩ := hall ps hps
  obtain ⟨ms₁, hms₁, hmem⟩ := find_first_mem c.built.laid plan rfl rfl
    ((c.built.blocks_show plan _ _ _).unguarded plan c.built.laid) (c.built.first_shows plan) hms₀
  rw [← coreOptions_quiet a c hinv] at hms₁
  constructor
  · rintro ⟨ms, hp, hms, hm⟩
    cases hp₀.symm.trans hp
    cases hms₁.symm.trans hms
    obtain ⟨hlaw, hhead⟩ := (hmem m).1 hm
    exact ⟨ms₀, hp, hms₀, hlaw, hhead⟩
  · rintro ⟨ms, hp, hms, hlaw, hhead⟩
    cases hp₀.symm.trans hp
    cases hms₀.symm.trans hms
    exact ⟨ms₁, hp, hms₁, (hmem m).2 ⟨hlaw, hhead⟩⟩

end

/-! ## The law of quiet runs -/

section
variable (icu : Icu) (plan : Planner) (a : Args) (c : Corpus)

/-- A match that counts, in a file that is allowed. -/
def Counted (m : Match) : Prop :=
  c.allows m.fileId = true ∧ counts a (c.explicitFile m.fileId) (c.index.data m.fileId) m = true

def Selected (perpat : List (List Match)) (fid : Nat) : Prop :=
  c.allows fid = true ∧ fileHits a (c.index.data fid) (byFile c perpat fid) = true

/-- A file without a selected line whose matches are announced. -/
def Announced (perpat : List (List Match)) (fid : Nat) : Prop :=
  c.allows fid = true ∧ (!fileHits a (c.index.data fid) (byFile c perpat fid) && bare a &&
    (binaryNotice a (c.explicitFile fid) (c.index.data fid) (byFile c perpat fid) &&
      searchSuppress a (c.explicitFile fid) (c.index.data fid))) = true

/-- Where `--vimgrep` does not print the lines selected: none is, or a file is announced. -/
def InvertLaw : Prop := vimgrepInvert a = true → ∀ perpat, perPattern icu plan (a.withQuiet false) c = .ok perpat →
  (∃ fid < c.index.infos.length, Selected a c perpat fid) → ∃ fid < c.index.infos.length, Announced a c perpat fid

/-- A file has no match that counts, or all have a first hit that does. -/
def AbsentLaw : Prop :=
  (∃ fid < c.index.infos.length, c.allows fid = true ∧ ¬ ∃ m, Finds icu plan a c m ∧ Counted a c m ∧ m.fileId = fid) ∨
    ∀ fid < c.index.infos.length, c.allows fid = true → ∃ m, FindsFirst icu plan a c m ∧ Counted a c m ∧ m.fileId = fid

def PresentLaw : Prop := (∃ m, Finds icu plan a c m ∧ Counted a c m) → ∃ m, FindsFirst icu plan a c m ∧ Counted a c m

/-- What a search must meet for a quiet run to end as the loud one. -/
def QuietLaw : Prop := searches a c = true →
  if a.sopt.invertMatch then InvertLaw icu plan a c
  else if a.filesWithout && !a.filesWith then AbsentLaw icu plan a c
  else PresentLaw icu plan a c

def reachesSearch : Bool :=
  !(a.help || a.shortHelp || a.version || a.pcre2Version) && a.generate.isEmpty && !a.typeList && !a.filesMode

variable {icu plan a c}

theorem FindsFirst.finds {m : Match} (h : FindsFirst icu plan a c m) : Finds icu plan a c m := by
  obtain ⟨ps, hps, p, ms, hp, hms, -, hhead⟩ := h
  exact ⟨ps, hps, p, ms, hp, hms, List.mem_of_head? hhead⟩

theorem Corpus.lt_of_allows {fid : Nat} (h : c.allows fid = true) : fid < c.index.infos.length := by
  rw [← c.allowed_length]
  by_contra hge
  rw [Corpus.allows, List.getD_eq_default _ _ (by omega)] at h
  cases h

theorem fileAnswer_any (explicitFile : Bool) (data : Bytes) (found : List Match) (hinv : a.sopt.invertMatch = false)
    (hmax : (a.maxCountSet && decide (a.maxCount = 0)) = false) : fileAnswer a explicitFile data found =
      if a.filesWithout && !a.filesWith then !found.any (counts a explicitFile data)
      else found.any (counts a explicitFile data) := by
  rw [fileAnswer_step]
  cases hfiles : a.filesWith || a.filesWithout with
  | true =>
    have hcounts : counts a explicitFile data = countsLine a data := by
      funext m
      rw [counts, hfiles, if_pos rfl]
    rw [if_pos rfl, fileEmits, fileHits_any a data found hinv hmax, hcounts]
    cases hwith : a.filesWith with
    | true => simp
    | false =>
      have hwithout : a.filesWithout = true := by simpa [hwith] using hfiles
      rw [hwithout]
      rfl
  | false =>
    have hwithout : a.filesWithout = false := (Bool.or_eq_false_iff.1 hfiles).2
    have hvim : vimgrepInvert a = false := by
      rw [vimgrepInvert, hinv, Bool.and_false]
    rw [hwithout, Bool.false_and, if_neg Bool.false_ne_true, if_neg Bool.false_ne_true,
      ← fileAdds_any a explicitFile data found hinv hmax hfiles]
    cases hhit : fileHits a data found with
    | true => rw [fileAdds_hit a explicitFile data found hfiles hvim hhit, Bool.or_true]
    | false => rw [Bool.and_false, Bool.false_or]

theorem answers_iff (hinv : a.sopt.invertMatch = false) (hmax : (a.maxCountSet && decide (a.maxCount = 0)) = false) (quiet : Bool)
    (perpat : List (List Match)) (fid : Nat) : Answers c (a.withQuiet quiet) perpat fid ↔ c.allows fid = true ∧
      if a.filesWithout && !a.filesWith then ¬ ∃ m ∈ perpat.flatten, Counted a c m ∧ m.fileId = fid
      else ∃ m ∈ perpat.flatten, Counted a c m ∧ m.fileId = fid := by
  refine and_congr_right (fun hallow => ?_)
  have hany : (byFile c perpat fid).any (counts a (c.explicitFile fid) (c.index.data fid)) = true ↔
      ∃ m ∈ perpat.flatten, Counted a c m ∧ m.fileId = fid := by
    refine (any_byFile c perpat fid (fun s => counts a (c.explicitFile fid) (c.index.data fid) { start := s })).trans ?_
    refine exists_congr (fun m => and_congr_right (fun _ => ?_))
    constructor
    · rintro ⟨hallow, rfl, hq⟩
      exact ⟨⟨hallow, hq⟩, rfl⟩
    · rintro ⟨⟨hallow, hq⟩, rfl⟩
      exact ⟨hallow, rfl, hq⟩
  rw [@fileAnswer_any (a.withQuiet quiet) _ _ _ hinv hmax]
  change (if a.filesWithout && !a.filesWith then !(byFile c perpat fid).any (counts a _ _)
    else (byFile c perpat fid).any (counts a _ _)) = true ↔ _
  cases a.filesWithout && !a.filesWith with
  | true => rw [if_pos rfl, if_pos rfl, Bool.not_eq_true', ← Bool.not_eq_true, hany]
  | false => rw [if_neg Bool.false_ne_true, if_neg Bool.false_ne_true, hany]

theorem someAnswer_iff (hinv : a.sopt.invertMatch = false) (hmax : (a.maxCountSet && decide (a.maxCount = 0)) = false)
    (quiet : Bool) (perpat : List (List Match)) : SomeAnswer c (a.withQuiet quiet) perpat ↔
      if a.filesWithout && !a.filesWith then ∃ fid < c.index.infos.length, c.allows fid = true ∧
        ¬ ∃ m ∈ perpat.flatten, Counted a c m ∧ m.fileId = fid
      else ∃ m ∈ perpat.flatten, Counted a c m := by
  unfold SomeAnswer
  simp only [answers_iff hinv hmax]
  cases a.filesWithout && !a.filesWith with
  | true => simp only [if_true]
  | false =>
    simp only [Bool.false_eq_true, if_false]
    constructor
    · rintro ⟨fid, -, -, m, hm, hcounted, -⟩
      exact ⟨m, hm, hcounted⟩
    · rintro ⟨m, hm, hcounted⟩
      exact ⟨m.fileId, Corpus.lt_of_allows hcounted.1, hcounted.1, m, hm, hcounted, rfl⟩

theorem fileHits_limited (data : Bytes) (found : List Match) (hmax : (a.maxCountSet && decide (a.maxCount = 0)) = true) :
    fileHits a data found = false := by
  rw [Bool.and_eq_true_iff, decide_eq_true_iff] at hmax
  rw [fileHits_eq, decide_eq_false_iff_not]
  intro h
  obtain ⟨i, hi⟩ := mem_iff_getD.1 h
  unfold fileSelected selectedLines at hi
  dsimp only at hi
  rw [hmax.1, if_pos rfl, limitSelected_none (by omega)] at hi
  cases hi

theorem fileAdds_withQuiet (quiet : Bool) (explicitFile : Bool) (data : Bytes) (found : List Match) :
    fileAdds (a.withQuiet quiet) explicitFile data found = fileAdds a explicitFile data found := by
  unfold fileAdds
  dsimp only
  rw [printLines_hit, printLines_hit]
  rfl

theorem fileAnswer_withQuiet (quiet : Bool) (explicitFile : Bool) (data : Bytes) (found : List Match) :
    fileAnswer (a.withQuiet quiet) explicitFile data found =
      if a.filesWith || a.filesWithout then fileEmits a data found
      else (quiet && fileHits a data found) || fileAdds a explicitFile data found := by
  rw [fileAnswer_step, fileAdds_withQuiet]
  rfl

/-- A quiet file answers as the loud one does, unless it is the inverted mode of `--vimgrep` and a line is selected. -/
theorem fileAnswer_quiet (explicitFile : Bool) (data : Bytes) (found : List Match)
    (h : vimgrepInvert a = false ∨ fileHits a data found = false) :
    fileAnswer (a.withQuiet true) explicitFile data found = fileAnswer (a.withQuiet false) explicitFile data found := by
  rw [fileAnswer_withQuiet, fileAnswer_withQuiet, Bool.true_and, Bool.false_and, Bool.false_or]
  cases hfiles : a.filesWith || a.filesWithout with
  | true => rfl
  | false =>
    rw [if_neg Bool.false_ne_true, if_neg Bool.false_ne_true]
    cases hhit : fileHits a data found with
    | false => exact Bool.false_or _
    | true =>
      rcases h with hvim | hno
      · rw [fileAdds_hit a explicitFile data found hfiles hvim hhit]
        rfl
      · rw [hhit] at hno
        cases hno

theorem someAnswer_quiet {perpat : List (List Match)}
    (h : vimgrepInvert a = false ∨ ∀ fid, ¬ Selected a c perpat fid) :
    SomeAnswer c (a.withQuiet true) perpat ↔ SomeAnswer c (a.withQuiet false) perpat := by
  refine exists_congr (fun fid => and_congr_right (fun _ => and_congr_right (fun hallow => ?_)))
  rw [fileAnswer_quiet]
  refine h.imp_right (fun hnone => ?_)
  rw [← Bool.not_eq_true]
  exact fun hhit => hnone fid ⟨hallow, hhit⟩

/-- In the inverted mode of `--vimgrep` a loud file is announced or does not answer. -/
theorem someAnswer_vimgrep (hvim : vimgrepInvert a = true) (perpat : List (List Match)) :
    (SomeAnswer c (a.withQuiet false) perpat ↔ ∃ fid < c.index.infos.length, Announced a c perpat fid) ∧
      (SomeAnswer c (a.withQuiet true) perpat ↔
        ∃ fid < c.index.infos.length, Selected a c perpat fid ∨ Announced a c perpat fid) := by
  simp only [vimgrepInvert, Bool.and_eq_true, Bool.not_eq_true'] at hvim
  obtain ⟨⟨⟨⟨⟨hfiles, hcount⟩, hjson⟩, honly⟩, hvimgrep⟩, hinv⟩ := hvim
  have hadds : ∀ fid, fileAdds a (c.explicitFile fid) (c.index.data fid) (byFile c perpat fid) =
      (!fileHits a (c.index.data fid) (byFile c perpat fid) && bare a &&
        (binaryNotice a (c.explicitFile fid) (c.index.data fid) (byFile c perpat fid) &&
          searchSuppress a (c.explicitFile fid) (c.index.data fid))) := by
    intro fid
    unfold fileAdds
    dsimp only
    rw [hcount, if_neg Bool.false_ne_true, hjson, if_neg Bool.false_ne_true, honly, if_neg Bool.false_ne_true, hvimgrep,
      if_pos rfl, hinv, Bool.not_true, Bool.false_and]
    cases !fileHits a (c.index.data fid) (byFile c perpat fid) && bare a with
    | true => exact (Bool.true_and _).symm
    | false => rfl
  have hanswer : ∀ (quiet : Bool) fid, Answers c (a.withQuiet quiet) perpat fid ↔
      (quiet = true ∧ Selected a c perpat fid) ∨ Announced a c perpat fid := by
    intro quiet fid
    unfold Answers Selected Announced
    rw [fileAnswer_withQuiet, hfiles, if_neg Bool.false_ne_true, hadds, Bool.or_eq_true_iff, Bool.and_eq_true_iff]
    tauto
  constructor
  · simp [SomeAnswer, hanswer]
  · simp [SomeAnswer, hanswer]

variable (icu plan a c)

/-- **The answers of the runs agree** exactly when the law holds. -/
theorem someAnswer_law {perpat perpat' : List (List Match)} (h : perPattern icu plan (a.withQuiet false) c = .ok perpat)
    (h' : perPattern icu plan (a.withQuiet true) c = .ok perpat') :
    (SomeAnswer c (a.withQuiet true) perpat' ↔ SomeAnswer c (a.withQuiet false) perpat) ↔ QuietLaw icu plan a c := by
  unfold QuietLaw
  cases hsearch : searches a c with
  | false =>
    refine iff_of_true ?_ (fun h => by cases h)
    unfold perPattern at h h'
    rw [show searches (a.withQuiet false) c = false from hsearch, if_neg Bool.false_ne_true] at h
    rw [show searches (a.withQuiet true) c = false from hsearch, if_neg Bool.false_ne_true] at h'
    cases h
    cases h'
    refine someAnswer_quiet (Or.inr (fun fid hsel => ?_))
    rcases Bool.and_eq_false_iff.1 hsearch with hno | hno
    · -- no file is allowed
      have hmem : fid ∈ c.eligible := List.mem_filter.2 ⟨List.mem_range.2 (Corpus.lt_of_allows hsel.1), hsel.1⟩
      rw [Bool.not_eq_false', List.isEmpty_iff] at hno
      rw [hno] at hmem
      cases hmem
    · rw [Bool.not_eq_false'] at hno
      have hhit := hsel.2
      rw [fileHits_limited _ _ hno] at hhit
      cases hhit
  | true =>
    have hmax : (a.maxCountSet && decide (a.maxCount = 0)) = false := by
      simpa only [Bool.not_eq_true'] using (Bool.and_eq_true_iff.1 hsearch).2
    rw [imp_iff_right rfl]
    cases hinv : a.sopt.invertMatch with
    | true =>
      rw [if_pos rfl]
      have hsame : perPattern icu plan (a.withQuiet true) c = perPattern icu plan (a.withQuiet false) c := by
        unfold perPattern
        rw [searchPatterns_congr icu plan c (coreOptions_inverted a c hinv) rfl]
        rfl
      rw [hsame, h] at h'
      cases h'
      cases hvim : vimgrepInvert a with
      | false =>
        refine iff_of_true (someAnswer_quiet (Or.inl hvim)) (fun htrue => ?_)
        rw [hvim] at htrue
        cases htrue
      | true =>
        obtain ⟨hloud, hquiet⟩ := someAnswer_vimgrep hvim perpat
        rw [hloud, hquiet]
        constructor
        · rintro hiff - perpat₁ hperpat ⟨fid, hfid, hsel⟩
          cases h.symm.trans hperpat
          exact hiff.1 ⟨fid, hfid, Or.inl hsel⟩
        · intro hlaw
          constructor
          · rintro ⟨fid, hfid, hsel | hann⟩
            · exact hlaw hvim perpat h ⟨fid, hfid, hsel⟩
            · exact ⟨fid, hfid, hann⟩
          · rintro ⟨fid, hfid, hann⟩
            exact ⟨fid, hfid, Or.inr hann⟩
    | false =>
      rw [if_neg Bool.false_ne_true, someAnswer_iff hinv hmax, someAnswer_iff hinv hmax]
      have hpatterns : ∀ {quiet : Bool} {perpat : List (List Match)}, perPattern icu plan (a.withQuiet quiet) c = .ok perpat →
          searchPatterns icu plan (a.withQuiet quiet) c a.patterns = .ok perpat := by
        intro quiet perpat h
        unfold perPattern at h
        rwa [show searches (a.withQuiet quiet) c = true from hsearch, if_pos rfl] at h
      have hfirst := searchPatterns_quiet icu plan a c hinv (hpatterns h) (hpatterns h')
      have hall : ∀ m, m ∈ perpat.flatten ↔ Finds icu plan a c m := (searchPatterns_ok icu plan _ c (hpatterns h)).2
      simp only [hfirst, hall]
      cases a.filesWithout && !a.filesWith with
      | true =>
        rw [if_pos rfl, if_pos rfl, if_pos rfl, AbsentLaw]
        constructor
        · intro hiff
          by_cases hsome : ∃ fid < c.index.infos.length, c.allows fid = true ∧
              ¬ ∃ m, FindsFirst icu plan a c m ∧ Counted a c m ∧ m.fileId = fid
          · exact Or.inl (hiff.1 hsome)
          · refine Or.inr (fun fid hfid hallow => ?_)
            by_contra hno
            exact hsome ⟨fid, hfid, hallow, hno⟩
        · rintro (⟨fid, hfid, hallow, hno⟩ | hcovered)
          · refine iff_of_true ⟨fid, hfid, hallow, fun ⟨m, hm, hrest⟩ => hno ⟨m, hm.finds, hrest⟩⟩ ⟨fid, hfid, hallow, hno⟩
          · refine iff_of_false (fun ⟨fid, hfid, hallow, hno⟩ => hno (hcovered fid hfid hallow)) ?_
            rintro ⟨fid, hfid, hallow, hno⟩
            obtain ⟨m, hm, hrest⟩ := hcovered fid hfid hallow
            exact hno ⟨m, hm.finds, hrest⟩
      | false =>
        rw [if_neg Bool.false_ne_true, if_neg Bool.false_ne_true, if_neg Bool.false_ne_true, PresentLaw]
        exact ⟨fun hiff => hiff.2, fun hlaw => ⟨fun ⟨m, hm, hc⟩ => ⟨m, hm.finds, hc⟩, hlaw⟩⟩

variable {icu plan a c}

theorem main_informs (h : reachesSearch a = false) :
    main icu plan (a.withQuiet true) c = main icu plan (a.withQuiet false) c := by
  unfold main
  change (if a.help || a.shortHelp || a.version || a.pcre2Version then _ else if !a.generate.isEmpty then _
    else if a.typeList then _ else if a.patterns.isEmpty && !a.filesMode then _ else _) =
      (if a.help || a.shortHelp || a.version || a.pcre2Version then _ else if !a.generate.isEmpty then _
    else if a.typeList then _ else if a.patterns.isEmpty && !a.filesMode then _ else _)
  unfold reachesSearch at h
  cases hinfo : a.help || a.shortHelp || a.version || a.pcre2Version with
  | true => rfl
  | false =>
    cases hgen : a.generate.isEmpty with
    | false => rfl
    | true =>
      cases htype : a.typeList with
      | true => rfl
      | false =>
        have hmode : a.filesMode = true := by simpa [hinfo, hgen, htype] using h
        have hfiles : ∀ quiet, (a.withQuiet quiet).filesMode = true := fun _ => hmode
        rw [hfiles, hfiles]
        rfl

theorem main_search (h : reachesSearch a = true) {status : Nat} (hmain : main icu plan a c = .ok status) :
    ∃ perpat, perPattern icu plan a c = .ok perpat ∧ status = exitLoop a c perpat c.order false := by
  simp only [reachesSearch, Bool.and_eq_true, Bool.not_eq_true'] at h
  obtain ⟨⟨⟨hinfo, hgen⟩, htype⟩, hmode⟩ := h
  unfold main at hmain
  rw [hinfo, if_neg Bool.false_ne_true, hgen, Bool.not_true, if_neg Bool.false_ne_true, htype, if_neg Bool.false_ne_true,
    hmode, Bool.not_false, Bool.and_true] at hmain
  split at hmain
  · cases hmain
  · obtain ⟨-, -, hmain⟩ := bind_ok hmain
    obtain ⟨-, -, hmain⟩ := bind_ok hmain
    rw [if_neg Bool.false_ne_true] at hmain
    obtain ⟨perpat, hperpat, hmain⟩ := bind_ok hmain
    refine ⟨perpat, hperpat, ?_⟩
    obtain ⟨-, -, hmain⟩ := bind_ok hmain
    split at hmain
    · cases hmain
    · cases hmain
      rfl

/-- **A quiet run ends as the loud one** exactly when the law holds, if it comes to the search at all. -/
theorem quiet_exit_iff {status status' : Nat} (hloud : main icu plan (a.withQuiet false) c = .ok status)
    (hquiet : main icu plan (a.withQuiet true) c = .ok status') :
    status' = status ↔ (reachesSearch a = true → QuietLaw icu plan a c) := by
  cases hreach : reachesSearch a with
  | false =>
    rw [main_informs hreach, hloud] at hquiet
    cases hquiet
    exact iff_of_true rfl (fun h => by cases h)
  | true =>
    obtain ⟨perpat, hperpat, rfl⟩ := @main_search icu plan (a.withQuiet false) c hreach _ hloud
    obtain ⟨perpat', hperpat', rfl⟩ := @main_search icu plan (a.withQuiet true) c hreach _ hquiet
    rw [imp_iff_right rfl, ← someAnswer_law icu plan a c hperpat hperpat']
    classical
    rw [exitLoop_order, exitLoop_order]
    by_cases hq : SomeAnswer c (a.withQuiet true) perpat' <;> by_cases hl : SomeAnswer c (a.withQuiet false) perpat <;>
      simp [hq, hl]

end

def secondIndex : IndexData :=
  match fromDocuments secondLine smallChunks with
  | .ok I    => I
  | .error _ => { opt := smallChunks }

theorem secondIndex_built : Built secondIndex := by
  cases h : fromDocuments secondLine smallChunks with
  | ok I =>
    rw [secondIndex, h]
    exact (fromDocuments_built h).1
  | error e =>
    have hok : (fromDocuments secondLine smallChunks).toBool = true := by decide +kernel
    rw [h] at hok
    cases hok

theorem secondIndex_files : secondIndex.infos.length = 1 := by decide +kernel

def secondCorpus : Corpus where
  index := secondIndex
  built := secondIndex_built
  allowed := [true]
  allowed_length := secondIndex_files.symm
  order := [0]
  order_perm := by
    rw [secondIndex_files]
    exact List.Perm.refl _

/-- `[b]` -/
def classArgs : Args := { patterns := [[0x5B, 0x62, 0x5D]] }

theorem secondCorpus_main : main asciiIcu (fun _ _ => none) (classArgs.withQuiet false) secondCorpus = .ok 0 ∧
    main asciiIcu (fun _ _ => none) (classArgs.withQuiet true) secondCorpus = .ok 1 := by
  have hloud : returns (main asciiIcu (fun _ _ => none) (classArgs.withQuiet false) secondCorpus) (· == 0) = true := by
    decide +kernel
  have hquiet : returns (main asciiIcu (fun _ _ => none) (classArgs.withQuiet true) secondCorpus) (· == 1) = true := by
    decide +kernel
  obtain ⟨s, hs, h0⟩ := returns_iff.1 hloud
  obtain ⟨s', hs', h1⟩ := returns_iff.1 hquiet
  rw [hs, hs', eq_of_beq h0, eq_of_beq h1]
  exact ⟨rfl, rfl⟩

theorem quiet_exit_iff_second : 1 = 0 ↔
    (reachesSearch classArgs = true → QuietLaw asciiIcu (fun _ _ => none) classArgs secondCorpus) :=
  quiet_exit_iff secondCorpus_main.1 secondCorpus_main.2

/-- `[b]` is on the second line: the loud run ends with 0, the quiet one with 1. -/
theorem not_quiet_exit : ¬ ∀ (icu : Icu) (plan : Planner) (a : Args) (c : Corpus) (status status' : Nat),
    main icu plan (a.withQuiet false) c = .ok status → main icu plan (a.withQuiet true) c = .ok status' →
      status' = status := by
  intro h
  cases h asciiIcu (fun _ _ => none) classArgs secondCorpus 0 1 secondCorpus_main.1 secondCorpus_main.2

end Pergrep.Cli
