import Pergrep.Lib.Utf
import Pergrep.Utf8
/-!
# Transcode — UTF-16 input made UTF-8, and the UTF-8 test

`decodeUtf16Bytes` turns the bytes of a UTF-16 file into the bytes the engine searches, `validUtf8` decides which of the
two forms of a JSON string a byte string is printed in.  `validUtf8_iff`: the test accepts the UTF-8 form of a text and
nothing else.  The decoder writes U+FFFD for a low surrogate that ends no pair and the surrogate itself for a high one
that opens none, so its output is well formed just when the input has no such unit.
-/
namespace Pergrep.Cli

open Utf (utf8 utf16 WellFormed IsHigh IsLow UnpairedHigh)

/-! ## The decoder -/

/-- `unit`: a byte of the higher eight bits after one of the lower eight (`little`), or before it. -/
def utf16Unit (little : Bool) (a b : UInt8) : Nat :=
  if little then a.toNat + b.toNat * 256 else a.toNat * 256 + b.toNat

/-- The units at the offsets `i`, `i + 2`, … that the loop reads: an odd last byte is in none. -/
def utf16Units (little : Bool) : Bytes → List Nat
  | a :: b :: rest => utf16Unit little a b :: utf16Units little rest
  | _ => []

/-- The loop of `decode_utf16_bytes`; `emit` writes the bytes of `U8_APPEND_UNSAFE`. -/
def decodeUnits : List Nat → Bytes
  | [] => []
  | [w] => if IsLow w then appendUtf8 0xFFFD else appendUtf8 w
  | w :: w2 :: rest =>
    if IsHigh w ∧ IsLow w2 then appendUtf8 (0x10000 + (w - 0xD800) * 1024 + (w2 - 0xDC00)) ++ decodeUnits rest
    else (if IsLow w then appendUtf8 0xFFFD else appendUtf8 w) ++ decodeUnits (w2 :: rest)

/-- Does the input begin with a byte-order mark, of whichever order? -/
def startsWithBom : Bytes → Bool
  | a :: b :: _ => (a == 0xFF && b == 0xFE) || (a == 0xFE && b == 0xFF)
  | _ => false

def decodeUtf16Bytes (input : Bytes) (little bomAllowed : Bool) : Bytes :=
  let i := if bomAllowed && startsWithBom input then 2 else 0
  decodeUnits (utf16Units little (input.drop i))

/-! ## The test -/

/-- The first byte of a sequence: how long it is, and the bits of the code point it gives.  The masks of the source are
the leading bits of the byte. -/
def utf8Lead (c : UInt8) : Option (Nat × Nat) :=
  if c.toNat < 0x80 then some (1, c.toNat)
  else if c.toNat / 32 = 6 then if c.toNat % 32 < 2 then none else some (2, c.toNat % 32)
  else if c.toNat / 16 = 14 then some (3, c.toNat % 16)
  else if c.toNat / 8 = 30 then if 4 < c.toNat % 8 then none else some (4, c.toNat % 8)
  else none

/-- The loop over the `n - 1` bytes that follow; a string that ends before them is refused. -/
def utf8Trail : Nat → Nat → Bytes → Option Nat
  | 0, cp, _ => some cp
  | n + 1, cp, d :: s => if d.toNat / 64 = 2 then utf8Trail n (cp * 64 + d.toNat % 64) s else none
  | _ + 1, _, [] => none

/-- One round of `valid_utf8`: the width of the sequence it accepts. -/
def utf8Round (c : UInt8) (s : Bytes) : Option Nat :=
  match utf8Lead c with
  | none => none
  | some (n, bits) =>
    match utf8Trail (n - 1) bits s with
    | none => none
    | some cp =>
      if (n = 3 ∧ cp < 0x800) ∨ (n = 4 ∧ cp < 0x10000) ∨ 0x10FFFF < cp ∨ (0xD800 ≤ cp ∧ cp ≤ 0xDFFF) then none
      else some n

/-- The loop of `valid_utf8`, which ends within the fuel of the string's length (`validUtf8From_fuel`). -/
def validUtf8From : Nat → Bytes → Bool
  | _, [] => true
  | 0, _ :: _ => false
  | fuel + 1, c :: s =>
    match utf8Round c s with
    | none => false
    | some n => validUtf8From fuel ((c :: s).drop n)

def validUtf8 (s : Bytes) : Bool := validUtf8From s.length s

/-! ## What the test accepts -/

theorem utf8Lead_one {k : Nat} (h : k < 0x80) : utf8Lead (UInt8.ofNat k) = some (1, k) := by
  have hk : (UInt8.ofNat k).toNat = k := UInt8.toNat_ofNat_of_lt' (by simp only [UInt8.size]; omega)
  rw [utf8Lead, hk, if_pos h]

theorem utf8Lead_two {k : Nat} (h2 : 2 ≤ k) (h : k < 0x20) : utf8Lead (UInt8.ofNat (0xC0 + k)) = some (2, k) := by
  have hk : (UInt8.ofNat (0xC0 + k)).toNat = 0xC0 + k := UInt8.toNat_ofNat_of_lt' (by simp only [UInt8.size]; omega)
  rw [utf8Lead, hk, if_neg (by omega), if_pos (by omega), if_neg (by omega), show (0xC0 + k) % 32 = k by omega]

theorem utf8Lead_three {k : Nat} (h : k < 0x10) : utf8Lead (UInt8.ofNat (0xE0 + k)) = some (3, k) := by
  have hk : (UInt8.ofNat (0xE0 + k)).toNat = 0xE0 + k := UInt8.toNat_ofNat_of_lt' (by simp only [UInt8.size]; omega)
  rw [utf8Lead, hk, if_neg (by omega), if_neg (by omega), if_pos (by omega), show (0xE0 + k) % 16 = k by omega]

theorem utf8Lead_four {k : Nat} (h : k ≤ 4) : utf8Lead (UInt8.ofNat (0xF0 + k)) = some (4, k) := by
  have hk : (UInt8.ofNat (0xF0 + k)).toNat = 0xF0 + k := UInt8.toNat_ofNat_of_lt' (by simp only [UInt8.size]; omega)
  rw [utf8Lead, hk, if_neg (by omega), if_neg (by omega), if_neg (by omega), if_pos (by omega), if_neg (by omega),
    show (0xF0 + k) % 8 = k by omega]

theorem utf8Trail_ofNat (n cp : Nat) {k : Nat} (h : k < 0x40) (s : Bytes) :
    utf8Trail (n + 1) cp (UInt8.ofNat (0x80 + k) :: s) = utf8Trail n (cp * 64 + k) s := by
  have hk : (UInt8.ofNat (0x80 + k)).toNat = 0x80 + k := UInt8.toNat_ofNat_of_lt' (by simp only [UInt8.size]; omega)
  rw [utf8Trail, hk, if_pos (by omega), show (0x80 + k) % 64 = k by omega]

/-- **A sequence the decoder can write is accepted when its code point is a scalar value**, and it is accepted whole. -/
theorem utf8Round_appendUtf8 {cp : Nat} (h : cp < 0x110000) (t : Bytes) : ∃ c s, appendUtf8 cp ++ t = c :: s ∧
    utf8Round c s = if cp.isValidChar then some (appendUtf8 cp).length else none := by
  unfold appendUtf8
  by_cases h1 : cp < 0x80
  · rw [if_pos h1]
    refine ⟨_, _, rfl, ?_⟩
    rw [utf8Round, utf8Lead_one h1]
    dsimp only
    rw [utf8Trail, if_pos (Or.inl (by omega))]
    exact if_neg (by omega)
  · rw [if_neg h1]
    by_cases h2 : cp < 0x800
    · rw [if_pos h2, List.cons_append, List.cons_append, List.nil_append]
      refine ⟨_, _, rfl, ?_⟩
      rw [utf8Round, utf8Lead_two (by omega) (by omega)]
      dsimp only
      rw [utf8Trail_ofNat 0 _ (by omega), utf8Trail, show cp / 64 * 64 + cp % 64 = cp by omega,
        if_pos (Or.inl (by omega))]
      exact if_neg (by omega)
    · rw [if_neg h2]
      by_cases h3 : cp < 0x10000
      · rw [if_pos h3, List.cons_append, List.cons_append, List.cons_append, List.nil_append]
        refine ⟨_, _, rfl, ?_⟩
        rw [utf8Round, utf8Lead_three (by omega)]
        dsimp only
        rw [utf8Trail_ofNat 1 _ (by omega), utf8Trail_ofNat 0 _ (by omega), utf8Trail,
          show (cp / 4096 * 64 + cp / 64 % 64) * 64 + cp % 64 = cp by omega]
        dsimp only
        by_cases hv : cp.isValidChar
        · rw [if_pos hv]
          rcases hv with hv | hv
          · exact if_neg (by omega)
          · exact if_neg (by omega)
        · rw [if_neg hv]
          unfold Nat.isValidChar at hv
          exact if_pos (by omega)
      · rw [if_neg h3, if_pos (Or.inr (by omega)), List.cons_append, List.cons_append, List.cons_append, List.cons_append,
          List.nil_append]
        refine ⟨_, _, rfl, ?_⟩
        rw [utf8Round, utf8Lead_four (by omega)]
        dsimp only
        rw [utf8Trail_ofNat 2 _ (by omega),
          utf8Trail_ofNat 1 _ (by omega), utf8Trail_ofNat 0 _ (by omega), utf8Trail,
          show ((cp / 262144 * 64 + cp / 4096 % 64) * 64 + cp / 64 % 64) * 64 + cp % 64 = cp by omega]
        exact if_neg (by omega)

theorem utf8Trail_some {n bits cp : Nat} {s : Bytes} (h : utf8Trail (n + 1) bits s = some cp) :
    ∃ k t, k < 64 ∧ s = UInt8.ofNat (0x80 + k) :: t ∧ utf8Trail n (bits * 64 + k) t = some cp := by
  cases s with
  | nil => cases h
  | cons d t =>
    rw [utf8Trail] at h
    split at h
    · rename_i hd
      have hlt := d.toNat_lt
      refine ⟨d.toNat % 64, t, by omega, ?_, h⟩
      rw [show 0x80 + d.toNat % 64 = d.toNat by omega, UInt8.ofNat_toNat]
    · cases h

theorem utf8Lead_some {c : UInt8} {n bits : Nat} (h : utf8Lead c = some (n, bits)) :
    (n = 1 ∧ bits < 0x80 ∧ c = UInt8.ofNat bits) ∨ (n = 2 ∧ 2 ≤ bits ∧ bits < 32 ∧ c = UInt8.ofNat (0xC0 + bits)) ∨
    (n = 3 ∧ bits < 16 ∧ c = UInt8.ofNat (0xE0 + bits)) ∨ (n = 4 ∧ bits ≤ 4 ∧ c = UInt8.ofNat (0xF0 + bits)) := by
  have hlt := c.toNat_lt
  have hc := UInt8.ofNat_toNat (x := c)
  unfold utf8Lead at h
  repeat' split at h
  all_goals cases h
  · exact Or.inl ⟨rfl, by omega, hc.symm⟩
  · exact Or.inr (Or.inl ⟨rfl, by omega, by omega, by rw [show 0xC0 + c.toNat % 32 = c.toNat by omega, hc]⟩)
  · exact Or.inr (Or.inr (Or.inl ⟨rfl, by omega, by rw [show 0xE0 + c.toNat % 16 = c.toNat by omega, hc]⟩))
  · exact Or.inr (Or.inr (Or.inr ⟨rfl, by omega, by rw [show 0xF0 + c.toNat % 8 = c.toNat by omega, hc]⟩))

/-- **A round accepts the form of a scalar value**, and skips it. -/
theorem utf8Round_some {c : UInt8} {s : Bytes} {n : Nat} (h : utf8Round c s = some n) :
    ∃ cp t, cp.isValidChar ∧ c :: s = appendUtf8 cp ++ t ∧ (appendUtf8 cp).length = n := by
  unfold utf8Round at h
  split at h
  · cases h
  · rename_i m bits hlead
    split at h
    · cases h
    · rename_i cp htrail
      split at h
      · cases h
      · rename_i hok
        cases h
        have hcp : cp.isValidChar := by
          unfold Nat.isValidChar
          omega
        refine ⟨cp, ?_⟩
        unfold appendUtf8
        rcases utf8Lead_some hlead with ⟨rfl, hb, rfl⟩ | ⟨rfl, hb2, hb, rfl⟩ | ⟨rfl, hb, rfl⟩ | ⟨rfl, hb, rfl⟩
        · cases htrail
          exact ⟨s, hcp, by rw [if_pos hb]; rfl, by rw [if_pos hb]; rfl⟩
        · obtain ⟨k, t, hk, rfl, h1⟩ := utf8Trail_some htrail
          cases h1
          rw [if_neg (by omega), if_pos (by omega), show (bits * 64 + k) / 64 = bits by omega,
            show (bits * 64 + k) % 64 = k by omega]
          exact ⟨t, hcp, rfl, rfl⟩
        · obtain ⟨k, t, hk, rfl, h1⟩ := utf8Trail_some htrail
          obtain ⟨l, t, hl, rfl, h2⟩ := utf8Trail_some h1
          cases h2
          rw [if_neg (by omega), if_neg (by omega), if_pos (by omega), show ((bits * 64 + k) * 64 + l) / 4096 = bits by omega,
            show ((bits * 64 + k) * 64 + l) / 64 % 64 = k by omega, show ((bits * 64 + k) * 64 + l) % 64 = l by omega]
          exact ⟨t, hcp, rfl, rfl⟩
        · obtain ⟨k, t, hk, rfl, h1⟩ := utf8Trail_some htrail
          obtain ⟨l, t, hl, rfl, h2⟩ := utf8Trail_some h1
          obtain ⟨m, t, hm, rfl, h3⟩ := utf8Trail_some h2
          cases h3
          rw [if_neg (by omega), if_neg (by omega), if_neg (by omega),
            show (((bits * 64 + k) * 64 + l) * 64 + m) / 262144 = bits by omega,
            show (((bits * 64 + k) * 64 + l) * 64 + m) / 4096 % 64 = k by omega,
            show (((bits * 64 + k) * 64 + l) * 64 + m) / 64 % 64 = l by omega,
            show (((bits * 64 + k) * 64 + l) * 64 + m) % 64 = m by omega]
          exact ⟨t, hcp, rfl, rfl⟩

theorem validUtf8From_fuel : ∀ {f g : Nat} {s : Bytes}, s.length ≤ f → s.length ≤ g → validUtf8From f s = validUtf8From g s
  | f, g, [], _, _ => by rw [validUtf8From, validUtf8From]
  | 0, _, _ :: _, h, _ => absurd h (Nat.not_succ_le_zero _)
  | _, 0, _ :: _, _, h => absurd h (Nat.not_succ_le_zero _)
  | f + 1, g + 1, c :: s, hf, hg => by
    rw [validUtf8From, validUtf8From]
    cases hr : utf8Round c s with
    | none => rfl
    | some n =>
      obtain ⟨cp, t, -, -, hn⟩ := utf8Round_some hr
      have hpos := length_appendUtf8_pos cp
      have hlen : ((c :: s).drop n).length ≤ s.length := by
        rw [List.length_drop, List.length_cons]
        omega
      exact validUtf8From_fuel (Nat.le_trans hlen (Nat.le_of_succ_le_succ hf)) (Nat.le_trans hlen (Nat.le_of_succ_le_succ hg))

theorem validUtf8_appendUtf8 {cp : Nat} (h : cp < 0x110000) (t : Bytes) :
    validUtf8 (appendUtf8 cp ++ t) = (decide cp.isValidChar && validUtf8 t) := by
  obtain ⟨c, s, hcs, hround⟩ := utf8Round_appendUtf8 h t
  unfold validUtf8
  rw [hcs, List.length_cons, validUtf8From, hround]
  by_cases hv : cp.isValidChar
  · rw [if_pos hv, decide_eq_true hv, Bool.true_and]
    dsimp only
    rw [← hcs, List.drop_left]
    have hlen := congrArg List.length hcs
    have hpos := length_appendUtf8_pos cp
    rw [List.length_append, List.length_cons] at hlen
    exact validUtf8From_fuel (by omega) (Nat.le_refl _)
  · rw [if_neg hv, decide_eq_false hv, Bool.false_and]

/-- **The test accepts the UTF-8 form of a text, and nothing else.** -/
theorem validUtf8_iff (s : Bytes) : validUtf8 s = true ↔ WellFormed s := by
  constructor
  · generalize hn : s.length = n
    induction n using Nat.strongRecOn generalizing s with
    | ind n ih =>
      intro h
      cases s with
      | nil => exact ⟨[], rfl⟩
      | cons c s =>
        have hround := h
        unfold validUtf8 at hround
        rw [List.length_cons, validUtf8From] at hround
        cases hr : utf8Round c s with
        | none =>
          rw [hr] at hround
          cases hround
        | some w =>
          obtain ⟨cp, t, hcp, hcs, hw⟩ := utf8Round_some hr
          rw [hcs] at h hn ⊢
          rw [validUtf8_appendUtf8 (by unfold Nat.isValidChar at hcp; omega), Bool.and_eq_true] at h
          have hpos := length_appendUtf8_pos cp
          rw [List.length_append] at hn
          obtain ⟨cs, rfl⟩ := ih t.length (by omega) t rfl h.2
          have hchar : (Char.ofNatAux cp hcp).toNat = cp := rfl
          refine ⟨Char.ofNatAux cp hcp :: cs, ?_⟩
          rw [utf8_cons, hchar]
  · rintro ⟨cs, rfl⟩
    induction cs with
    | nil => rfl
    | cons c cs ih =>
      rw [utf8_cons, validUtf8_appendUtf8 (Utf.toNat_lt c), ih, Bool.and_true]
      exact decide_eq_true c.valid

/-! ## What the decoder writes -/

theorem decodeUnits_cons {w : Nat} {us : List Nat} (h : IsHigh w → ∀ v, us.head? = some v → ¬ IsLow v) :
    decodeUnits (w :: us) = (if IsLow w then appendUtf8 0xFFFD else appendUtf8 w) ++ decodeUnits us := by
  cases us with
  | nil => rw [decodeUnits, decodeUnits, List.append_nil]
  | cons w2 rest => rw [decodeUnits, if_neg (fun hw => h hw.1 w2 rfl hw.2)]

theorem validUtf8_unit {w : Nat} (hw : w < 0x10000) (t : Bytes) :
    validUtf8 ((if IsLow w then appendUtf8 0xFFFD else appendUtf8 w) ++ t) = (decide (¬ IsHigh w) && validUtf8 t) := by
  by_cases hlow : IsLow w
  · rw [if_pos hlow, validUtf8_appendUtf8 (by decide), decide_eq_true (Utf.not_high_of_low hlow)]
    rfl
  · rw [if_neg hlow, validUtf8_appendUtf8 (by omega)]
    have hiff : w.isValidChar ↔ ¬ IsHigh w := by
      unfold Nat.isValidChar IsHigh
      unfold IsLow at hlow
      omega
    rw [decide_eq_decide.2 hiff]

/-- **Only a high surrogate that opens no pair spoils the output.** -/
theorem validUtf8_decodeUnits : ∀ us : List Nat, (∀ u ∈ us, u < 0x10000) →
    (validUtf8 (decodeUnits us) = true ↔ ¬ UnpairedHigh us)
  | [], _ => iff_of_true rfl Utf.not_unpairedHigh_nil
  | [w], hus => by
    rw [decodeUnits_cons (fun _ v hv => by cases hv), validUtf8_unit (hus w (List.mem_singleton.2 rfl)),
      Utf.unpairedHigh_cons, or_iff_left Utf.not_unpairedHigh_nil, and_iff_left (fun v hv => by cases hv)]
    exact (Bool.and_true _).symm ▸ decide_eq_true_iff
  | w :: w2 :: rest, hus => by
    have hw := hus w List.mem_cons_self
    have hw2 := hus w2 (List.mem_cons_of_mem _ List.mem_cons_self)
    by_cases hpair : IsHigh w ∧ IsLow w2
    · have hcp : (0x10000 + (w - 0xD800) * 1024 + (w2 - 0xDC00)).isValidChar ∧
          0x10000 + (w - 0xD800) * 1024 + (w2 - 0xDC00) < 0x110000 := by
        unfold IsHigh IsLow at hpair
        unfold Nat.isValidChar
        omega
      rw [decodeUnits, if_pos hpair, validUtf8_appendUtf8 hcp.2, decide_eq_true hcp.1, Bool.true_and,
        validUtf8_decodeUnits rest (fun u hu => hus u (List.mem_cons_of_mem _ (List.mem_cons_of_mem _ hu))),
        Utf.unpairedHigh_pair hpair.2]
    · rw [decodeUnits_cons (fun hh v hv hl => hpair ⟨hh, by cases hv; exact hl⟩), validUtf8_unit hw, Bool.and_eq_true,
        decide_eq_true_iff, validUtf8_decodeUnits (w2 :: rest) (fun u hu => hus u (List.mem_cons_of_mem _ hu)),
        Utf.unpairedHigh_cons (u := w), not_or, not_and]
      exact and_congr_left (fun _ => ⟨fun hh h => absurd h hh, fun hh h => hh h (fun v hv hl => hpair ⟨h, by cases hv; exact hl⟩)⟩)

theorem utf16Unit_lt (little : Bool) (a b : UInt8) : utf16Unit little a b < 0x10000 := by
  have ha := a.toNat_lt
  have hb := b.toNat_lt
  unfold utf16Unit
  split <;> omega

theorem lt_of_mem_utf16Units {little : Bool} : ∀ {input : Bytes} {u : Nat}, u ∈ utf16Units little input → u < 0x10000
  | [], _, h => absurd h List.not_mem_nil
  | [_], _, h => absurd h List.not_mem_nil
  | a :: b :: rest, u, h => by
    rw [utf16Units] at h
    rcases List.mem_cons.1 h with rfl | h
    · exact utf16Unit_lt little a b
    · exact lt_of_mem_utf16Units h

theorem decodeUtf16Bytes_eq (input : Bytes) (little bomAllowed : Bool) :
    decodeUtf16Bytes input little bomAllowed = decodeUnits
      ((utf16Units little input).drop (if bomAllowed && startsWithBom input then 1 else 0)) := by
  unfold decodeUtf16Bytes
  dsimp only
  by_cases hb : (bomAllowed && startsWithBom input) = true
  · rw [if_pos hb, if_pos hb]
    rw [Bool.and_eq_true] at hb
    rcases input with _ | ⟨a, _ | ⟨b, rest⟩⟩
    · cases hb.2
    · cases hb.2
    · rfl
  · rw [if_neg hb, if_neg hb]
    rfl

/-- **Well-formed input comes out as the text it spells.** -/
theorem decodeUnits_utf16 : ∀ cs : List Char, decodeUnits (utf16 cs) = utf8 cs
  | [] => rfl
  | c :: cs => by
    have ih := decodeUnits_utf16 cs
    have hvalid := c.valid
    have hval : c.val.toNat = c.toNat := rfl
    have hunits : utf16 (c :: cs) = Utf.units c ++ utf16 cs := rfl
    rw [hunits, utf8_cons, ← ih]
    unfold UInt32.isValidChar Nat.isValidChar at hvalid
    rw [hval] at hvalid
    unfold Utf.units
    split
    · have hlow : ¬ IsLow c.toNat := by
        unfold IsLow
        omega
      have hhigh : ¬ IsHigh c.toNat := by
        unfold IsHigh
        omega
      rw [List.singleton_append, decodeUnits_cons (fun h => absurd h hhigh), if_neg hlow]
    · have hpair : IsHigh (0xD800 + (c.toNat - 0x10000) / 0x400) ∧ IsLow (0xDC00 + (c.toNat - 0x10000) % 0x400) := by
        unfold IsHigh IsLow
        omega
      have hcp : 0x10000 + (0xD800 + (c.toNat - 0x10000) / 0x400 - 0xD800) * 1024 +
          (0xDC00 + (c.toNat - 0x10000) % 0x400 - 0xDC00) = c.toNat := by omega
      rw [List.cons_append, List.singleton_append, decodeUnits, if_pos hpair, hcp]

theorem utf16Units_unitBytes (little : Bool) {u : Nat} (h : u < 0x10000) (rest : Bytes) :
    utf16Units little (Utf.unitBytes little u ++ rest) = u :: utf16Units little rest := by
  have hlo : (UInt8.ofNat (u % 256)).toNat = u % 256 := UInt8.toNat_ofNat_of_lt' (by simp only [UInt8.size]; omega)
  have hhi : (UInt8.ofNat (u / 256)).toNat = u / 256 := UInt8.toNat_ofNat_of_lt' (by simp only [UInt8.size]; omega)
  cases little with
  | true =>
    refine congrArg (· :: _) ?_
    rw [utf16Unit, if_pos rfl, hlo, hhi]
    omega
  | false =>
    refine congrArg (· :: _) ?_
    rw [utf16Unit, if_neg Bool.false_ne_true, hlo, hhi]
    omega

theorem utf16Units_flatMap (little : Bool) : ∀ us : List Nat, (∀ u ∈ us, u < 0x10000) →
    utf16Units little (us.flatMap (Utf.unitBytes little)) = us
  | [], _ => rfl
  | u :: us, h => by
    rw [List.flatMap_cons, utf16Units_unitBytes little (h u List.mem_cons_self),
      utf16Units_flatMap little us (fun v hv => h v (List.mem_cons_of_mem _ hv))]

theorem startsWithBom_unitBytes (little : Bool) {u : Nat} (h : u < 0x10000) (rest : Bytes) :
    startsWithBom (Utf.unitBytes little u ++ rest) = decide (u = 0xFEFF ∨ u = 0xFFFE) := by
  have hlo : (UInt8.ofNat (u % 256)).toNat = u % 256 := UInt8.toNat_ofNat_of_lt' (by simp only [UInt8.size]; omega)
  have hhi : (UInt8.ofNat (u / 256)).toNat = u / 256 := UInt8.toNat_ofNat_of_lt' (by simp only [UInt8.size]; omega)
  have hbom : ∀ a b : UInt8, startsWithBom (a :: b :: rest) =
      decide (a.toNat = 0xFF ∧ b.toNat = 0xFE ∨ a.toNat = 0xFE ∧ b.toNat = 0xFF) := by
    intro a b
    rw [startsWithBom, Bool.eq_iff_iff, decide_eq_true_iff]
    simp only [Bool.or_eq_true, Bool.and_eq_true, beq_iff_eq, ← UInt8.toNat_inj, UInt8.reduceToNat]
  cases little with
  | true =>
    refine (hbom _ _).trans (decide_eq_decide.2 ?_)
    rw [hlo, hhi]
    omega
  | false =>
    refine (hbom _ _).trans (decide_eq_decide.2 ?_)
    rw [hlo, hhi]
    omega

/-- The bytes of a text in UTF-16, in either order, with a byte-order mark before it (`bom`) or with none. -/
def utf16Bytes (little bom : Bool) (cs : List Char) : Bytes :=
  ((if bom then [0xFEFF] else []) ++ utf16 cs).flatMap (Utf.unitBytes little)

theorem length_utf8_cons (c : Char) (cs : List Char) : (utf8 cs).length < (utf8 (c :: cs)).length := by
  have hpos := length_appendUtf8_pos c.toNat
  rw [utf8_cons, List.length_append]
  omega

/-- **A text comes out as it is, but for what is read as its mark.** -/
theorem decodeUtf16Bytes_utf16Bytes (little bom : Bool) (cs : List Char) :
    decodeUtf16Bytes (utf16Bytes little bom cs) little true = utf8 cs ↔
      bom = true ∨ ∀ c, cs.head? = some c → c.toNat ≠ 0xFEFF ∧ c.toNat ≠ 0xFFFE := by
  rw [decodeUtf16Bytes_eq, Bool.true_and]
  unfold utf16Bytes
  cases bom with
  | true =>
    have hbytes : ∀ u ∈ [0xFEFF] ++ utf16 cs, u < 0x10000 := by
      intro u hu
      rcases List.mem_cons.1 hu with rfl | hu
      · decide
      · exact Utf.lt_of_mem_utf16 hu
    rw [if_pos rfl, utf16Units_flatMap little _ hbytes, List.singleton_append, List.flatMap_cons,
      startsWithBom_unitBytes little (by decide), if_pos (by decide)]
    exact iff_of_true (decodeUnits_utf16 cs) (Or.inl rfl)
  | false =>
    rw [if_neg Bool.false_ne_true, List.nil_append, utf16Units_flatMap little _ (fun u hu => Utf.lt_of_mem_utf16 hu),
      or_iff_right Bool.false_ne_true]
    cases cs with
    | nil => exact iff_of_true rfl (fun c hc => by cases hc)
    | cons c cs =>
      have hunits : utf16 (c :: cs) = Utf.units c ++ utf16 cs := rfl
      rw [hunits]
      have hhead : (∀ d, (c :: cs).head? = some d → d.toNat ≠ 0xFEFF ∧ d.toNat ≠ 0xFFFE) ↔
          ¬ (c.toNat = 0xFEFF ∨ c.toNat = 0xFFFE) :=
        ⟨fun h hc => by have := h c rfl; omega, fun h d hd => by cases hd; omega⟩
      rw [hhead]
      obtain ⟨u, us, hu, hmark⟩ : ∃ u us, Utf.units c = u :: us ∧
          ((u = 0xFEFF ∨ u = 0xFFFE) ↔ (c.toNat = 0xFEFF ∨ c.toNat = 0xFFFE)) := by
        have := Utf.toNat_lt c
        unfold Utf.units
        split
        · exact ⟨_, _, rfl, Iff.rfl⟩
        · exact ⟨_, _, rfl, by omega⟩
      have hu16 : u < 0x10000 := Utf.lt_of_mem_units (c := c) (by rw [hu]; exact List.mem_cons_self)
      rw [hu, List.cons_append, List.flatMap_cons, startsWithBom_unitBytes little hu16, ← List.cons_append, ← hu, ← hunits]
      by_cases hmk : u = 0xFEFF ∨ u = 0xFFFE
      · -- the mark is the first code point: what is left is the text after it
        have hone : Utf.units c = [c.toNat] := if_pos (by have := hmark.1 hmk; omega)
        rw [decide_eq_true hmk, if_pos rfl, hunits, hone, List.singleton_append, List.drop_one, List.tail_cons,
          decodeUnits_utf16]
        refine iff_of_false (fun h => ?_) (fun h => h (hmark.1 hmk))
        have hlt := length_utf8_cons c cs
        rw [h] at hlt
        exact Nat.lt_irrefl _ hlt
      · rw [decide_eq_false hmk, if_neg Bool.false_ne_true, List.drop_zero, decodeUnits_utf16]
        exact iff_of_true rfl (fun h => hmk (hmark.2 h))

theorem utf16Units_of_bom (little : Bool) {input : Bytes} (h : startsWithBom input = true) :
    ∃ u us, utf16Units little input = u :: us ∧ ¬ IsHigh u := by
  rcases input with _ | ⟨a, _ | ⟨b, rest⟩⟩
  · cases h
  · cases h
  · refine ⟨_, _, rfl, ?_⟩
    simp only [startsWithBom, Bool.or_eq_true, Bool.and_eq_true, beq_iff_eq] at h
    rcases h with ⟨rfl, rfl⟩ | ⟨rfl, rfl⟩
    · cases little <;> decide
    · cases little <;> decide

/-- **UTF-16 input becomes the UTF-8 of its text**: the output passes the test unless a high surrogate opens no pair,
and a text comes out as it is, its mark cut off.  Only a text that begins with what reads as a mark, and has no mark
before it, loses its first code point. -/
theorem decodeUtf16Bytes_law (little : Bool) (input : Bytes) (bomAllowed : Bool) (bom : Bool) (cs : List Char) :
    (validUtf8 (decodeUtf16Bytes input little bomAllowed) = true ↔ ¬ UnpairedHigh (utf16Units little input)) ∧
    (decodeUtf16Bytes (utf16Bytes little bom cs) little true = utf8 cs ↔
      bom = true ∨ ∀ c, cs.head? = some c → c.toNat ≠ 0xFEFF ∧ c.toNat ≠ 0xFFFE) := by
  refine ⟨?_, decodeUtf16Bytes_utf16Bytes little bom cs⟩
  rw [decodeUtf16Bytes_eq, validUtf8_decodeUnits _ (fun u hu => lt_of_mem_utf16Units (List.mem_of_mem_drop hu))]
  by_cases hb : (bomAllowed && startsWithBom input) = true
  · rw [if_pos hb]
    rw [Bool.and_eq_true] at hb
    obtain ⟨u, us, hu, hhigh⟩ := utf16Units_of_bom little hb.2
    rw [hu, List.drop_one, List.tail_cons, Utf.unpairedHigh_cons_of_not_high hhigh]
  · rw [if_neg hb, List.drop_zero]

/-- A lone high surrogate is written as it is. -/
theorem decodeUtf16Bytes_lone_high : validUtf8 (decodeUtf16Bytes [0x00, 0xD8] true true) = false := by decide

end Pergrep.Cli
