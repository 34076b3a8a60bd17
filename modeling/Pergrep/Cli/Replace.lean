import Pergrep.Cli.Quiet
/-!
# Replace — the replacement of the matches on a line

`replace_line` copies a line and puts a replacement in the place of each match.  A match that starts before the end of an
earlier one is not replaced: where it ends later the bytes up to its end are left out, though no replacement stands for them.
With `$0` for the replacement, which stands for the match itself, the line comes out as it is when no match does that, and
only then (`replaceLine_identity_iff`).
-/
namespace Pergrep.Cli

open Throw

/-! ## The replacement -/

def dollar : UInt8 := 0x24

def captureNum (data : Bytes) (m : Match) (i : Nat) : Bytes :=
  if i = 0 then slice data m.start m.stop
  else
    match m.captures[i]? with
    | some g => if g.matched then slice data g.start g.stop else []
    | none   => []

def captureName (data : Bytes) (m : Match) (name : Bytes) : Bytes :=
  match m.captures.find? (fun g => g.matched && g.name == name) with
  | some g => slice data g.start g.stop
  | none   => []

def keyNumber (key : Bytes) : Nat := key.foldl (fun n c => (n * 10 + (c.toNat - 0x30)) % 2 ^ 64) 0

/-- The loop of `interpolate_replacement`, on what is left of the replacement. -/
def interpolateFrom (data : Bytes) (m : Match) : Nat → Bytes → Bytes
  | _, [] => []
  | 0, _ :: _ => []
  | n + 1, b :: rest =>
    if b != dollar then b :: interpolateFrom data m n rest
    else if rest.isEmpty then dollar :: interpolateFrom data m n rest
    else if rest.head? == some dollar then dollar :: interpolateFrom data m n rest.tail
    else
      let braced := rest.head? == some 0x7B
      let body := if braced then rest.tail else rest
      let key := body.takeWhile (fun c => isAlnumByte c || c == 0x5F)
      let after := body.dropWhile (fun c => isAlnumByte c || c == 0x5F)
      if key.isEmpty then dollar :: interpolateFrom data m n rest
      else if braced && after.head? != some 0x7D then dollar :: interpolateFrom data m n rest
      else
        (if key.all isDigitByte then captureNum data m (keyNumber key) else captureName data m key) ++
          interpolateFrom data m n (if braced then after.tail else after)

def interpolateReplacement (repl data : Bytes) (m : Match) : Bytes := interpolateFrom data m repl.length repl

/-! ## The line -/

def restOfLine (data : Bytes) (line : LineRecord) (cursor : Nat) : Bytes :=
  if cursor < line.termEnd then slice data cursor line.termEnd else []

/-- Where the copying goes on after a match: one that ends on a later line takes the rest of that line with it. -/
def afterMatch (data : Bytes) (line : LineRecord) (lines : List LineRecord) (lineIdx : Nat) (m : Match) : Bytes × Nat :=
  if decide (line.termEnd < m.stop) && !lines.isEmpty && decide (lineIdx < lines.length) then
    match lines[(matchLines lines m).2]? with
    | some last => (if m.stop < last.termEnd then slice data m.stop last.termEnd else [], last.termEnd)
    | none      => ([], m.stop)
  else ([], m.stop)

def replaceFrom (data : Bytes) (line : LineRecord) (repl : Bytes) (lines : List LineRecord) (lineIdx : Nat) :
    List Match → Nat → Bytes
  | [], cursor => restOfLine data line cursor
  | m :: ms, cursor =>
    if m.stop < cursor then replaceFrom data line repl lines lineIdx ms cursor
    else if line.termEnd ≤ m.start then restOfLine data line cursor
    else if m.start < cursor then
      if line.termEnd ≤ max cursor m.stop then restOfLine data line (max cursor m.stop)
      else replaceFrom data line repl lines lineIdx ms (max cursor m.stop)
    else
      let next := afterMatch data line lines lineIdx m
      slice data cursor m.start ++ interpolateReplacement repl data m ++ next.1 ++
        if line.termEnd ≤ next.2 then restOfLine data line next.2
        else replaceFrom data line repl lines lineIdx ms next.2

def replaceLine (data : Bytes) (line : LineRecord) (ms : List Match) (repl : Bytes) (lines : List LineRecord)
    (lineIdx : Nat) : Bytes := replaceFrom data line repl lines lineIdx ms line.begin

/-! ## The replacement that stands for the match -/

/-- `$0` -/
def wholeMatch : Bytes := [dollar, 0x30]

theorem interpolate_wholeMatch (data : Bytes) (m : Match) :
    interpolateReplacement wholeMatch data m = slice data m.start m.stop := by
  change captureNum data m (keyNumber [0x30]) ++ [] = _
  rw [List.append_nil]
  rfl

/-- The match is on the line, or before it or after it. -/
def OnLineOrOff (line : LineRecord) (m : Match) : Prop :=
  m.start ≤ m.stop ∧ (m.stop ≤ line.begin ∨ line.termEnd ≤ m.start ∨ (line.begin ≤ m.start ∧ m.stop ≤ line.termEnd))

instance (line : LineRecord) (m : Match) : Decidable (OnLineOrOff line m) := inferInstanceAs (Decidable (_ ∧ _))

def StartsOn (line : LineRecord) (m : Match) : Prop := line.begin ≤ m.start ∧ m.start < line.termEnd

instance (line : LineRecord) (m : Match) : Decidable (StartsOn line m) := inferInstanceAs (Decidable (_ ∧ _))

/-- After the matches `before`: a match on the line that starts before the end of an earlier match ends no later than some
earlier match. -/
def EndsInEarlier (line : LineRecord) : List Match → List Match → Prop
  | _, [] => True
  | before, m :: after =>
    (StartsOn line m → (∃ e ∈ before, m.start < e.stop) → ∃ e ∈ before, m.stop ≤ e.stop) ∧
      EndsInEarlier line (before ++ [m]) after

theorem endsInEarlier_of_forall {line : LineRecord} : ∀ {before after : List Match},
    (∀ m ∈ after, StartsOn line m → ∃ e ∈ before, m.stop ≤ e.stop) → EndsInEarlier line before after
  | _, [], _ => trivial
  | before, m :: after, h => by
    refine ⟨fun hm _ => h m List.mem_cons_self hm, endsInEarlier_of_forall (fun x hx hstart => ?_)⟩
    obtain ⟨e, he, hstop⟩ := h x (List.mem_cons_of_mem m hx) hstart
    exact ⟨e, List.mem_append_left _ he, hstop⟩

theorem slice_append {s : Bytes} {a b c : Nat} (hab : a ≤ b) (hbc : b ≤ c) : slice s a b ++ slice s b c = slice s a c := by
  have hsplit : s.take c = s.take b ++ (s.take c).drop b := by
    have htake := List.take_append_drop b (s.take c)
    rw [List.take_take, Nat.min_eq_left hbc] at htake
    exact htake.symm
  unfold slice
  conv => rhs; rw [hsplit, List.drop_append]
  congr 1
  rw [List.length_take]
  by_cases hlen : b ≤ s.length
  · rw [Nat.min_eq_left hlen, Nat.sub_eq_zero_of_le hab]
    rfl
  · rw [List.drop_drop, List.drop_eq_nil_of_le (by rw [List.length_take]; omega),
      List.drop_eq_nil_of_le (by rw [List.length_take]; omega)]

theorem slice_self {s : Bytes} {a b : Nat} (h : b ≤ a) : slice s a b = [] :=
  List.drop_eq_nil_of_le (by rw [List.length_take]; omega)

theorem restOfLine_eq (data : Bytes) (line : LineRecord) (cursor : Nat) :
    restOfLine data line cursor = slice data cursor line.termEnd := by
  unfold restOfLine
  split
  · rfl
  · rename_i h
    rw [slice_self (Nat.not_lt.1 h)]

/-- **From a cursor that earlier matches have reached** the rest of the line comes out, or less of it when a match on it ends
past all those before. -/
theorem replaceFrom_wholeMatch {data : Bytes} {line : LineRecord} (hline : line.termEnd ≤ data.length)
    (lines : List LineRecord) (lineIdx : Nat) : ∀ (after before : List Match) (cursor : Nat),
    after.Pairwise spanLe → (∀ m ∈ after, OnLineOrOff line m) → line.begin ≤ cursor → cursor ≤ line.termEnd →
    (∀ e ∈ before, e.stop ≤ cursor) → (cursor = line.begin ∨ ∃ e ∈ before, e.stop = cursor) →
    (replaceFrom data line wholeMatch lines lineIdx after cursor).length ≤ line.termEnd - cursor ∧
      (replaceFrom data line wholeMatch lines lineIdx after cursor = slice data cursor line.termEnd ↔
        EndsInEarlier line before after)
  | [], before, cursor, _, _, _, _, _, _ => by
    rw [replaceFrom, restOfLine_eq]
    refine ⟨by rw [length_slice]; omega, iff_of_true rfl trivial⟩
  | m :: after, before, cursor, hsorted, hon, hbegin, hend, hreach, hcursor => by
    obtain ⟨hm, hsorted⟩ := List.pairwise_cons.1 hsorted
    obtain ⟨hspan, hplace⟩ := hon m List.mem_cons_self
    have hon' : ∀ m ∈ after, OnLineOrOff line m := fun x hx => hon x (List.mem_cons_of_mem m hx)
    have hreach' : ∀ {c : Nat}, cursor ≤ c → m.stop ≤ c → ∀ e ∈ before ++ [m], e.stop ≤ c := by
      intro c hc hmc e he
      rcases List.mem_append.1 he with he | he
      · exact (hreach e he).trans hc
      · rw [List.mem_singleton.1 he]
        exact hmc
    have hrest : ∀ {c : Nat}, (restOfLine data line c).length ≤ line.termEnd - c := by
      intro c
      rw [restOfLine_eq, length_slice]
      omega
    rw [replaceFrom]
    split
    · -- the match ends before the cursor, which is the end of an earlier match
      rename_i hskip
      have hcursor' : cursor = line.begin ∨ ∃ e ∈ before ++ [m], e.stop = cursor :=
        hcursor.imp_right (fun ⟨e, he, h⟩ => ⟨e, List.mem_append_left _ he, h⟩)
      obtain ⟨hlength, hiff⟩ := replaceFrom_wholeMatch hline lines lineIdx after (before ++ [m]) cursor hsorted hon' hbegin
        hend (hreach' (Nat.le_refl _) (Nat.le_of_lt hskip)) hcursor'
      refine ⟨hlength, hiff.trans ?_⟩
      rw [EndsInEarlier, and_iff_right]
      intro hstart _
      obtain ⟨hstart, -⟩ := hstart
      obtain ⟨e, he, h⟩ := hcursor.resolve_left (by omega)
      exact ⟨e, he, by omega⟩
    split
    · -- the match starts after the line, and so do all that come after it
      rename_i hafter
      refine ⟨hrest, iff_of_true (restOfLine_eq _ _ _) (endsInEarlier_of_forall (fun x hx hstart => ?_))⟩
      obtain ⟨-, hstart⟩ := hstart
      rcases List.mem_cons.1 hx with rfl | hx
      · omega
      · have hle := hm x hx
        unfold spanLe at hle
        split at hle <;> omega
    rename_i hskip hafter
    have hstop : m.stop ≤ line.termEnd := by omega
    -- from the end of the match on
    have hgo : ((if line.termEnd ≤ m.stop then restOfLine data line m.stop
          else replaceFrom data line wholeMatch lines lineIdx after m.stop).length ≤ line.termEnd - m.stop) ∧
        ((if line.termEnd ≤ m.stop then restOfLine data line m.stop
          else replaceFrom data line wholeMatch lines lineIdx after m.stop) = slice data m.stop line.termEnd ↔
          EndsInEarlier line (before ++ [m]) after) := by
      have hlast : m ∈ before ++ [m] := List.mem_append_right _ List.mem_cons_self
      split
      · refine ⟨hrest, iff_of_true (restOfLine_eq _ _ _) (endsInEarlier_of_forall (fun x hx hstart => ?_))⟩
        obtain ⟨-, hplace⟩ := hon' x hx
        obtain ⟨hstart, hlt⟩ := hstart
        exact ⟨m, hlast, by omega⟩
      · exact replaceFrom_wholeMatch hline lines lineIdx after (before ++ [m]) m.stop hsorted hon' (by omega) hstop
          (hreach' (Nat.not_lt.1 hskip) (Nat.le_refl _)) (Or.inr ⟨m, hlast, rfl⟩)
    split
    · -- the match starts before the cursor, which goes to its end
      rename_i hinside
      rw [Nat.max_eq_right (Nat.not_lt.1 hskip)]
      refine ⟨hgo.1.trans (by omega), ?_⟩
      rw [EndsInEarlier]
      rcases Nat.lt_or_eq_of_le (Nat.not_lt.1 hskip) with hlt | heq
      · obtain ⟨e, he, hcursor⟩ := hcursor.resolve_left (by omega)
        refine iff_of_false (fun h => ?_) (fun h => ?_)
        · have hlength := hgo.1
          rw [h, length_slice] at hlength
          omega
        · obtain ⟨e', he', hstop'⟩ := h.1 ⟨by omega, by omega⟩ ⟨e, he, by omega⟩
          have := hreach e' he'
          omega
      · rw [← heq] at hgo ⊢
        rw [hgo.2, and_iff_right]
        intro hstart _
        obtain ⟨hstart, -⟩ := hstart
        obtain ⟨e, he, h⟩ := hcursor.resolve_left (by omega)
        exact ⟨e, he, by omega⟩
    · -- the match is copied
      rename_i hcopy
      have hnext : afterMatch data line lines lineIdx m = ([], m.stop) := by
        unfold afterMatch
        rw [decide_eq_false (Nat.not_lt.2 hstop), Bool.false_and, Bool.false_and, if_neg Bool.false_ne_true]
      rw [hnext]
      dsimp only
      rw [interpolate_wholeMatch, List.append_nil, slice_append (Nat.not_lt.1 hcopy) hspan,
        ← slice_append (Nat.not_lt.1 hskip) hstop]
      refine ⟨?_, ?_⟩
      · have := hgo.1
        rw [List.length_append, length_slice]
        omega
      · rw [List.append_cancel_left_eq, hgo.2, EndsInEarlier, and_iff_right]
        rintro - ⟨e, he, hlt⟩
        have := hreach e he
        omega

/-! ## The lists of `main` -/

theorem uniqueFrom_sublist (last : Match) : ∀ ms : List Match, (uniqueFrom last ms).Sublist ms
  | [] => List.Sublist.refl _
  | m :: ms => by
    rw [uniqueFrom]
    split
    · exact (uniqueFrom_sublist last ms).cons m
    · exact (uniqueFrom_sublist m ms).cons_cons m

theorem byFile_sorted (c : Corpus) (perpat : List (List Match)) (fid : Nat) : (byFile c perpat fid).Pairwise spanLe := by
  have : Std.Total spanLe := ⟨fun x y => by unfold spanLe; split <;> split <;> omega⟩
  have : IsTrans Match spanLe := ⟨fun x y z hxy hyz => by unfold spanLe at *; split <;> split at hxy <;> split at hyz <;> omega⟩
  have hsort := List.pairwise_insertionSort spanLe
    (perpat.flatten.filter (fun m => c.allows m.fileId && m.fileId == fid))
  unfold byFile
  cases hms : (perpat.flatten.filter (fun m => c.allows m.fileId && m.fileId == fid)).insertionSort spanLe with
  | nil => exact List.Pairwise.nil
  | cons m ms =>
    rw [hms] at hsort
    exact hsort.sublist ((uniqueFrom_sublist m ms).cons_cons m)

theorem keptMatches_sorted (a : Args) (data : Bytes) {ms : List Match} (h : ms.Pairwise spanLe) :
    (keptMatches a data ms).Pairwise spanLe := by
  unfold keptMatches
  split
  · exact h
  · exact h.filter _

theorem splitLines_le {data : Bytes} {sep : UInt8} {line : LineRecord} (h : line ∈ splitLines data sep) :
    line.termEnd ≤ data.length := ((splitLines_partitions data sep).within line h).2.2.2

theorem splitLines_begin_le {data : Bytes} {sep : UInt8} {line : LineRecord} (h : line ∈ splitLines data sep) :
    line.begin ≤ line.termEnd := Nat.le_of_lt ((splitLines_partitions data sep).within line h).2.2.1

/-- **A line with its matches replaced by themselves comes out as it is** when each match on it that starts before the end of
an earlier one ends no later than some earlier one, and only then. -/
theorem replaceLine_identity_iff (a : Args) (c : Corpus) (perpat : List (List Match)) (fid : Nat)
    {i : Nat} {line : LineRecord}
    (hline : (splitLines (c.index.data fid) (if a.nullData then 0 else 0x0A))[i]? = some line)
    (hon : ∀ m ∈ keptMatches a (c.index.data fid) (byFile c perpat fid), OnLineOrOff line m) :
    replaceLine (c.index.data fid) line (keptMatches a (c.index.data fid) (byFile c perpat fid)) wholeMatch
        (splitLines (c.index.data fid) (if a.nullData then 0 else 0x0A)) i =
      slice (c.index.data fid) line.begin line.termEnd ↔
    EndsInEarlier line [] (keptMatches a (c.index.data fid) (byFile c perpat fid)) := by
  have hmem := List.mem_of_getElem? hline
  exact (replaceFrom_wholeMatch (splitLines_le hmem) _ i _ [] line.begin (keptMatches_sorted a _ (byFile_sorted c perpat fid))
    hon (Nat.le_refl _) (splitLines_begin_le hmem) (fun e he => nomatch he) (Or.inl rfl)).2

/-! ## Two patterns on a line -/

def abcIndex : IndexData :=
  match fromDocuments [{ path := [0x66], content := [0x61, 0x62, 0x63] }] smallChunks with
  | .ok I    => I
  | .error _ => { opt := smallChunks }

theorem abcIndex_built : Built abcIndex := by
  cases h : fromDocuments [{ path := [0x66], content := [0x61, 0x62, 0x63] }] smallChunks with
  | ok I =>
    rw [abcIndex, h]
    exact (fromDocuments_built h).1
  | error e =>
    have hok : (fromDocuments [{ path := [0x66], content := [0x61, 0x62, 0x63] }] smallChunks).toBool = true := by
      decide +kernel
    rw [h] at hok
    cases hok

theorem abcIndex_files : abcIndex.infos.length = 1 := by decide +kernel

def abcCorpus : Corpus where
  index := abcIndex
  built := abcIndex_built
  allowed := [true]
  allowed_length := abcIndex_files.symm
  order := [0]
  order_perm := by
    rw [abcIndex_files]
    exact List.Perm.refl _

def abcLine : LineRecord := { begin := 0, stop := 3, termEnd := 3 }

theorem abcLine_eq : (splitLines (abcCorpus.index.data 0) 0x0A)[0]? = some abcLine := by decide +kernel

/-- The matches of `ab`, `b` and `c`: the second lies in the first, the third begins where the first ends. -/
def nestedMatches : List (List Match) := [[{ start := 0, stop := 2 }], [{ start := 1, stop := 2 }], [{ start := 2, stop := 3 }]]

theorem replaceLine_identity_nested : replaceLine (abcCorpus.index.data 0) abcLine
      (keptMatches {} (abcCorpus.index.data 0) (byFile abcCorpus nestedMatches 0)) wholeMatch
      (splitLines (abcCorpus.index.data 0) 0x0A) 0 = slice (abcCorpus.index.data 0) 0 3 :=
  (replaceLine_identity_iff {} abcCorpus nestedMatches 0 abcLine_eq (by decide +kernel)).2
    (by
      have hms : keptMatches {} (abcCorpus.index.data 0) (byFile abcCorpus nestedMatches 0) = nestedMatches.flatten := by
        decide +kernel
      rw [hms]
      refine ⟨fun _ ⟨_, he, _⟩ => (nomatch he), fun _ _ => ⟨_, List.mem_cons_self, Nat.le_refl _⟩, ?_, trivial⟩
      rintro _ ⟨e, he, hlt⟩
      simp only [List.nil_append, List.cons_append, List.mem_cons, List.not_mem_nil, or_false] at he
      rcases he with rfl | rfl <;> exact absurd hlt (by decide))

/-- The patterns `ab` and `bc`: the second match starts in the first, and the line loses its `c`. -/
theorem not_replaceLine_identity :
    ¬ ∀ (icu : Icu) (plan : Planner) (a : Args) (c : Corpus) (perpat : List (List Match)) (fid i : Nat) (line : LineRecord),
      perPattern icu plan a c = .ok perpat →
      (splitLines (c.index.data fid) (if a.nullData then 0 else 0x0A))[i]? = some line →
      (∀ m ∈ keptMatches a (c.index.data fid) (byFile c perpat fid), OnLineOrOff line m) →
      replaceLine (c.index.data fid) line (keptMatches a (c.index.data fid) (byFile c perpat fid)) wholeMatch
          (splitLines (c.index.data fid) (if a.nullData then 0 else 0x0A)) i =
        slice (c.index.data fid) line.begin line.termEnd := by
  intro h
  obtain ⟨perpat, hok, hcheck⟩ := returns_iff.1 (show returns
      (perPattern asciiIcu (fun _ _ => none) { patterns := [[0x61, 0x62], [0x62, 0x63]] } abcCorpus)
      (fun perpat => decide ((∀ m ∈ keptMatches {} (abcCorpus.index.data 0) (byFile abcCorpus perpat 0), OnLineOrOff abcLine m) ∧
        replaceLine (abcCorpus.index.data 0) abcLine (keptMatches {} (abcCorpus.index.data 0) (byFile abcCorpus perpat 0))
          wholeMatch (splitLines (abcCorpus.index.data 0) 0x0A) 0 ≠ slice (abcCorpus.index.data 0) 0 3)) = true by
    decide +kernel)
  obtain ⟨hon, hne⟩ := of_decide_eq_true hcheck
  exact hne (h asciiIcu (fun _ _ => none) { patterns := [[0x61, 0x62], [0x62, 0x63]] } abcCorpus perpat 0 0 abcLine hok
    abcLine_eq hon)

end Pergrep.Cli
