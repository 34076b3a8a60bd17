import Mathlib.Data.List.Basic
import Mathlib.Data.List.TakeWhile
import Mathlib.Data.UInt
import Mathlib.Tactic.Common
/-!
# PlainText — literals and numbers as bytes

`decimal` writes a number as an output stream does, digit by digit; `readUnsigned` reads one as `std::stoull` does: white
space, a sign, digits, and what follows them is left alone.  `readUnsigned_decimal`: a number that fits is read back.
-/
namespace PlainText

def ascii (s : String) : List UInt8 := s.toList.map (fun c => UInt8.ofNat c.toNat)

/-- `std::isdigit` -/
def isDigit (b : UInt8) : Bool := 48 ≤ b && b ≤ 57

/-- `std::isspace` -/
def isSpace (b : UInt8) : Bool := b == 32 || (9 ≤ b && b ≤ 13)

def decimal (n : Nat) : List UInt8 := (Nat.toDigits 10 n).map (fun c => UInt8.ofNat c.toNat)

def digitsValue (s : List UInt8) : Nat := s.foldl (fun v b => 10 * v + (b.toNat - 48)) 0

def readSign : List UInt8 → Bool × List UInt8
  | 45 :: s => (true, s)
  | 43 :: s => (false, s)
  | s => (false, s)

/-- `std::stoull`, of `bits` bits: it throws where there is no digit or the number does not fit; a minus sign is taken of the
number that was read, which wraps. -/
def readUnsigned (bits : Nat) (s : List UInt8) : Option Nat :=
  let signed := readSign (s.dropWhile isSpace)
  let digits := signed.2.takeWhile isDigit
  if digits = [] then none
  else if 2 ^ bits ≤ digitsValue digits then none
  else some (if signed.1 then (2 ^ bits - digitsValue digits) % 2 ^ bits else digitsValue digits)

/-! ## Digits -/

theorem decimal_ne_nil (n : Nat) : decimal n ≠ [] := by
  unfold decimal
  rw [Ne, List.map_eq_nil_iff]
  exact Nat.toDigits_ne_nil

theorem isDigit_of_mem {n : Nat} {b : UInt8} (h : b ∈ decimal n) : isDigit b = true := by
  obtain ⟨c, hc, rfl⟩ := List.mem_map.1 h
  have hdigit := Nat.isDigit_of_mem_toDigits (by decide) (by decide) hc
  simp only [Char.isDigit, Bool.and_eq_true, decide_eq_true_eq] at hdigit
  have hlo : 48 ≤ c.toNat := hdigit.1
  have hhi : c.toNat ≤ 57 := hdigit.2
  simp only [isDigit, Bool.and_eq_true, decide_eq_true_eq, UInt8.le_iff_toNat_le, UInt8.toNat_ofNat']
  rw [Nat.mod_eq_of_lt (by omega)]
  exact ⟨hlo, hhi⟩

theorem notMem_decimal {b : UInt8} (h : isDigit b = false) (n : Nat) : b ∉ decimal n := fun hb => by
  rw [isDigit_of_mem hb] at h
  cases h

theorem digitsValue_decimal (n : Nat) : digitsValue (decimal n) = n := by
  have hfold : ∀ (cs : List Char), (∀ c ∈ cs, c.isDigit = true) → ∀ v,
      (cs.map (fun c => UInt8.ofNat c.toNat)).foldl (fun v b => 10 * v + (b.toNat - 48)) v = Nat.ofDigitChars 10 cs v := by
    intro cs
    induction cs with
    | nil => exact fun _ v => (Nat.ofDigitChars_nil).symm
    | cons c cs ih =>
      intro h v
      have hc := h c (List.mem_cons_self ..)
      simp only [Char.isDigit, Bool.and_eq_true, decide_eq_true_eq] at hc
      have hlt : c.toNat < 256 := by
        have : c.toNat ≤ 57 := hc.2
        omega
      rw [List.map_cons, List.foldl_cons, Nat.ofDigitChars_cons, UInt8.toNat_ofNat', Nat.mod_eq_of_lt hlt]
      exact ih (fun d hd => h d (List.mem_cons_of_mem _ hd)) _
  unfold digitsValue decimal
  rw [hfold _ (fun c hc => Nat.isDigit_of_mem_toDigits (by decide) (by decide) hc) 0]
  exact Nat.ofDigitChars_ten_toDigits

theorem takeWhile_decimal {n : Nat} {rest : List UInt8} (h : ∀ b, rest.head? = some b → isDigit b = false) :
    (decimal n ++ rest).takeWhile isDigit = decimal n := by
  rw [List.takeWhile_append_of_pos (fun b hb => isDigit_of_mem hb)]
  cases rest with
  | nil => simp
  | cons b rest => rw [List.takeWhile_cons_of_neg (by simp [h b rfl]), List.append_nil]

theorem readSign_dropWhile {d : UInt8} {s : List UInt8} (h : isDigit d = true) :
    readSign ((d :: s).dropWhile isSpace) = (false, d :: s) := by
  simp only [isDigit, Bool.and_eq_true, decide_eq_true_eq] at h
  have hlo : 48 ≤ d.toNat := UInt8.le_iff_toNat_le.1 h.1
  have hspace : isSpace d = false := by
    rw [isSpace, Bool.or_eq_false_iff, Bool.and_eq_false_imp]
    refine ⟨beq_eq_false_iff_ne.2 (fun hd => ?_), fun _ => decide_eq_false (fun hd => ?_)⟩
    · rw [hd] at hlo
      exact absurd hlo (by decide)
    · have := UInt8.le_iff_toNat_le.1 hd
      exact absurd (Nat.le_trans hlo this) (by decide)
  rw [List.dropWhile_cons_of_neg (by simp [hspace])]
  unfold readSign
  split
  · rename_i heq
    cases heq
    exact absurd hlo (by decide)
  · rename_i heq
    cases heq
    exact absurd hlo (by decide)
  · rfl

/-- **A number that fits is read back.** -/
theorem readUnsigned_decimal {bits n : Nat} (h : n < 2 ^ bits) : readUnsigned bits (decimal n) = some n := by
  have htake := @takeWhile_decimal n [] (fun b hb => by cases hb)
  rw [List.append_nil] at htake
  obtain ⟨d, s, hs⟩ := List.exists_cons_of_ne_nil (decimal_ne_nil n)
  have hd : isDigit d = true := isDigit_of_mem (n := n) (by rw [hs]; exact List.mem_cons_self ..)
  have hsign : readSign ((decimal n).dropWhile isSpace) = (false, decimal n) := by
    rw [hs]
    exact readSign_dropWhile hd
  unfold readUnsigned
  simp only [hsign, htake, if_neg (decimal_ne_nil n), digitsValue_decimal]
  rw [if_neg (by omega)]
  rfl

end PlainText
