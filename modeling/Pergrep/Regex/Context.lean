import Pergrep.Regex.Syntax
/-!
# Context — `VerifierContext` and what a verifier reads of it

A verifier never touches the text but through the functions of this module: the rune at a position, the rune before
it, the byte there, and the position assertions.  All positions are source bytes; byte zero of `source` is
`sourceBegin`.
-/
namespace Pergrep

structure VerifierContext where
  source : Bytes
  sourceBegin : Nat := 0
  sourceEnd : Nat := 0
  recordBegin : Nat := 0
  recordEnd : Nat := 0
  candidateBegin : Nat := 0
  candidateEnd : Nat := 0
  leftContextAvailable : Bool := false
  rightContextAvailable : Bool := false
  separator : UInt8 := 0x0A
  crlf : Bool := false
  regionBegin : Nat := 0
  regionEnd : Nat := 0
  boundedRegion : Bool := false
  deriving DecidableEq, Repr

namespace VerifierContext

/-- The bounds `validate` checks. -/
structure Valid (c : VerifierContext) : Prop where
  source_le : c.sourceBegin ≤ c.sourceEnd
  source_size : c.sourceEnd - c.sourceBegin = c.source.length
  record_ge : c.sourceBegin ≤ c.recordBegin
  record_le : c.recordBegin ≤ c.recordEnd
  record_end : c.recordEnd ≤ c.sourceEnd
  candidate_ge : c.recordBegin ≤ c.candidateBegin
  candidate_le : c.candidateBegin ≤ c.candidateEnd
  record_max : c.recordEnd ≠ sizeMax
  candidate_end : c.candidateEnd ≤ c.recordEnd + 1
  region : c.boundedRegion = true →
    c.sourceBegin ≤ c.regionBegin ∧ c.regionBegin ≤ c.regionEnd ∧ c.regionEnd ≤ c.sourceEnd

def validate (c : VerifierContext) : Bool :=
  if c.sourceEnd < c.sourceBegin ∨ c.sourceEnd - c.sourceBegin ≠ c.source.length then false
  else if c.recordBegin < c.sourceBegin ∨ c.recordEnd < c.recordBegin ∨ c.sourceEnd < c.recordEnd then false
  else if c.candidateBegin < c.recordBegin ∨ c.candidateEnd < c.candidateBegin then false
  else if c.recordEnd = sizeMax then false
  else if c.recordEnd + 1 < c.candidateEnd then false
  else if c.boundedRegion ∧
    (c.regionBegin < c.sourceBegin ∨ c.regionEnd < c.regionBegin ∨ c.sourceEnd < c.regionEnd) then false
  else true

theorem validate_iff (c : VerifierContext) : c.validate = true ↔ c.Valid := by
  unfold validate
  constructor
  · intro h
    repeat' split at h
    all_goals try exact absurd h Bool.false_ne_true
    rename_i h1 h2 h3 h4 h5 h6
    exact ⟨by omega, by omega, by omega, by omega, by omega, by omega, by omega, h4, by omega,
      fun hb => by rw [and_iff_right hb] at h6; omega⟩
  · rintro ⟨h1, h2, h3, h4, h5, h6, h7, h8, h9, h10⟩
    rw [if_neg (by omega), if_neg (by omega), if_neg (by omega), if_neg (by omega), if_neg (by omega), if_neg]
    rintro ⟨hb, h⟩
    have := h10 hb
    omega

def contains (c : VerifierContext) (absolute : Nat) : Bool :=
  decide (c.sourceBegin ≤ absolute ∧ absolute < c.sourceEnd)

def regionContains (c : VerifierContext) (absolute : Nat) : Bool :=
  if c.boundedRegion then decide (c.regionBegin ≤ absolute ∧ absolute < c.regionEnd) else c.contains absolute

end VerifierContext

open VerifierContext

def sourceRuneAt (c : VerifierContext) (pos : Nat) : Option Rune :=
  (runeAt c.source (pos - c.sourceBegin)).map (fun r => { r with next := r.next + c.sourceBegin })

def contextRuneAt (c : VerifierContext) (pos : Nat) : Option Rune :=
  if !c.validate || decide (pos < c.recordBegin) || decide (c.recordEnd ≤ pos) || !c.regionContains pos then none
  else
    match sourceRuneAt c pos with
    | some r => if c.boundedRegion ∧ c.regionEnd < r.next then none else some r
    | none   => none

/-- `context_rune_at_validated`: the ASCII byte is read without the decoder. -/
def contextRuneAtValidated (c : VerifierContext) (pos : Nat) : Option Rune :=
  if pos < c.recordBegin ∨ c.recordEnd ≤ pos then none
  else
    let general :=
      match sourceRuneAt c pos with
      | some r => if c.boundedRegion ∧ c.regionEnd < r.next then none else some r
      | none   => none
    match c.source[pos - c.sourceBegin]? with
    | some b =>
      if b < 0x80 then
        if !c.boundedRegion ∨ pos + 1 ≤ c.regionEnd then some ⟨b.toNat, pos + 1⟩ else none
      else general
    | none => general

def contextRuneBefore (c : VerifierContext) (pos : Nat) : Option Rune :=
  if !c.validate || decide (pos ≤ c.sourceBegin) || (decide (pos ≤ c.recordBegin) && !c.leftContextAvailable) ||
      decide (c.recordEnd < pos) then none
  else (runeBefore c.source (pos - c.sourceBegin)).map (fun r => { r with next := r.next + c.sourceBegin })

def contextRuneRight (c : VerifierContext) (pos : Nat) : Option Rune :=
  if !c.validate || decide (pos < c.recordBegin) || decide (c.recordEnd < pos) then none
  else if pos = c.recordEnd ∧ (!c.rightContextAvailable ∨ c.sourceEnd ≤ pos) then none
  else sourceRuneAt c pos

def contextByte (c : VerifierContext) (pos : Nat) : UInt8 :=
  if !c.validate || decide (pos < c.sourceBegin) || decide (c.sourceEnd ≤ pos) then 0
  else c.source.getD (pos - c.sourceBegin) 0

/-! ## The assertions

`assert_begin`, …, `assert_word_end_half` of the NFA and the cases of `eval` are the same tests; `f` is the flags of the
instruction or of the node. -/

def crlfAt (f : NodeFlags) (c : VerifierContext) (pos : Nat) : Bool :=
  f.crlf && c.separator == 0x0A && contextByte c pos == 0x0D && contextByte c (pos + 1) == 0x0A

def assertBegin (f : NodeFlags) (c : VerifierContext) (pos : Nat) : Bool :=
  pos == c.recordBegin || (f.multiline && decide (c.sourceBegin < pos) && contextByte c (pos - 1) == c.separator)

def assertEndNewline (f : NodeFlags) (c : VerifierContext) (pos : Nat) : Bool :=
  pos == c.recordEnd || (pos + 1 == c.recordEnd && contextByte c pos == c.separator) ||
    (pos + 2 == c.recordEnd && crlfAt f c pos)

def assertEnd (f : NodeFlags) (c : VerifierContext) (pos : Nat) : Bool :=
  if f.multiline then
    pos == c.recordEnd || (decide (pos < c.recordEnd) && contextByte c pos == c.separator) ||
      (decide (pos + 1 < c.recordEnd) && crlfAt f c pos)
  else assertEndNewline f c pos

def assertWord (icu : Icu) (f : NodeFlags) (negative : Bool) (c : VerifierContext) (pos : Nat) : Bool :=
  let ok := icu.isWordAt f.unicode (contextRuneBefore c pos) != icu.isWordAt f.unicode (contextRuneRight c pos)
  if negative then !ok else ok

def assertWordStartHalf (icu : Icu) (f : NodeFlags) (c : VerifierContext) (pos : Nat) : Bool :=
  !icu.isWordAt f.unicode (contextRuneBefore c pos)

def assertWordEndHalf (icu : Icu) (f : NodeFlags) (c : VerifierContext) (pos : Nat) : Bool :=
  !icu.isWordAt f.unicode (contextRuneRight c pos)

def assertAt (icu : Icu) (k : AssertKind) (f : NodeFlags) (c : VerifierContext) (pos : Nat) : Bool :=
  match k with
  | .begin_ => assertBegin f c pos
  | .end_ => assertEnd f c pos
  | .absBegin => pos == c.recordBegin
  | .absEnd => pos == c.recordEnd
  | .endNewline => assertEndNewline f c pos
  | .wordBoundary negative => assertWord icu f negative c pos
  | .wordStartHalf => assertWordStartHalf icu f c pos
  | .wordEndHalf => assertWordEndHalf icu f c pos

/-! ## What the readers agree on -/

theorem sourceRuneAt_next {c : VerifierContext} {pos : Nat} {r : Rune} (hp : c.sourceBegin ≤ pos)
    (h : sourceRuneAt c pos = some r) :
    pos < r.next ∧ r.next ≤ c.sourceBegin + c.source.length ∧ r.next ≤ pos + 4 := by
  unfold sourceRuneAt at h
  rw [Option.map_eq_some_iff] at h
  obtain ⟨r0, h0, rfl⟩ := h
  obtain ⟨h1, h2, h3⟩ := runeAt_next h0
  simp only
  omega

theorem runeAt_ascii {s : Bytes} {pos : Nat} {b : UInt8} (hb : s[pos]? = some b) (h : b < 0x80) :
    runeAt s pos = some ⟨b.toNat, pos + 1⟩ := by
  obtain ⟨hlt, he⟩ := List.getElem?_eq_some_iff.1 hb
  unfold runeAt
  rw [List.drop_eq_getElem_cons hlt, he]
  simp [u8Next, h]

/-- **The validated reader is the plain one.** -/
theorem contextRuneAtValidated_eq {c : VerifierContext} (hv : c.Valid) (hr : c.boundedRegion = false) (pos : Nat) :
    contextRuneAtValidated c pos = contextRuneAt c pos := by
  have hval := (validate_iff c).2 hv
  unfold contextRuneAtValidated contextRuneAt regionContains
  simp only [hval, hr, Bool.not_true, Bool.false_or, Bool.false_eq_true, if_false, false_and, Bool.not_false, true_or,
    if_true]
  by_cases hout : pos < c.recordBegin ∨ c.recordEnd ≤ pos
  · rw [if_pos hout, if_pos]
    rcases hout with h | h <;> simp [h]
  · rw [if_neg hout, if_neg]
    · cases hb : c.source[pos - c.sourceBegin]? with
      | none => rfl
      | some b =>
        simp only
        split
        · rename_i hlt
          have := hv.record_ge
          simp only [sourceRuneAt, runeAt_ascii hb hlt, Option.map_some]
          rw [show pos - c.sourceBegin + 1 + c.sourceBegin = pos + 1 by omega]
        · rfl
    · have h1 := hv.record_ge
      have h2 := hv.record_end
      simp only [contains, Bool.or_eq_true, decide_eq_true_eq, Bool.not_eq_true', decide_eq_false_iff_not]
      omega

theorem contextRuneAtValidated_isSome {c : VerifierContext} (hv : c.Valid) (hr : c.boundedRegion = false) {pos : Nat}
    (h1 : c.recordBegin ≤ pos) (h2 : pos < c.recordEnd) : ∃ r, contextRuneAtValidated c pos = some r := by
  have hs := hv.source_size
  have hb := hv.record_ge
  have he := hv.record_end
  obtain ⟨r, hrune⟩ := @runeAt_isSome c.source (pos - c.sourceBegin) (by omega)
  unfold contextRuneAtValidated
  rw [if_neg (by omega)]
  simp only [hr, sourceRuneAt, hrune, Option.map_some, Bool.false_eq_true, false_and, if_false, Bool.not_false, true_or,
    if_true]
  cases c.source[pos - c.sourceBegin]? with
  | none => exact ⟨_, rfl⟩
  | some b =>
    simp only
    split
    · exact ⟨_, rfl⟩
    · exact ⟨_, rfl⟩

theorem contextRuneAtValidated_next {c : VerifierContext} (hv : c.Valid) {pos : Nat} {r : Rune}
    (h : contextRuneAtValidated c pos = some r) :
    c.recordBegin ≤ pos ∧ pos < c.recordEnd ∧ pos < r.next ∧ r.next ≤ c.sourceEnd := by
  have hs := hv.source_size
  have hb := hv.record_ge
  have hle := hv.source_le
  unfold contextRuneAtValidated at h
  split at h
  · cases h
  · rename_i hin
    have general : ∀ {r : Rune}, (match sourceRuneAt c pos with
        | some r => if c.boundedRegion ∧ c.regionEnd < r.next then none else some r
        | none   => none) = some r → pos < r.next ∧ r.next ≤ c.sourceEnd := by
      intro r hg
      split at hg
      · rename_i r' hr'
        split at hg
        · cases hg
        · cases hg
          have := sourceRuneAt_next (by omega) hr'
          omega
      · cases hg
    refine ⟨by omega, by omega, ?_⟩
    simp only at h
    split at h
    · rename_i b hb'
      split at h
      · split at h
        · cases h
          have := (List.getElem?_eq_some_iff.1 hb').1
          simp only
          omega
        · cases h
      · exact general h
    · exact general h

theorem contextRuneAtValidated_region {c : VerifierContext} (hb : c.boundedRegion = true) {pos : Nat} {r : Rune}
    (h : contextRuneAtValidated c pos = some r) : r.next ≤ c.regionEnd := by
  unfold contextRuneAtValidated at h
  split at h
  · cases h
  · have general : ∀ {r : Rune}, (match sourceRuneAt c pos with
        | some r => if c.boundedRegion ∧ c.regionEnd < r.next then none else some r
        | none   => none) = some r → r.next ≤ c.regionEnd := by
      intro r hg
      split at hg
      · split at hg
        · cases hg
        · rename_i hreg
          cases hg
          rw [and_iff_right hb] at hreg
          omega
      · cases hg
    simp only at h
    split at h
    · split at h
      · split at h
        · rename_i hreg
          cases h
          simp only [hb, Bool.not_true, Bool.false_eq_true, false_or] at hreg
          exact hreg
        · cases h
      · exact general h
    · exact general h

end Pergrep
