import Mathlib.Data.Int.Log
import Mathlib.Data.Rat.Floor
import Mathlib.Tactic.Linarith
import Mathlib.Tactic.NormNum
import Pergrep.Lib.PlainText
/-!
# Double — doubles as the numbers they are

A finite double is its sign and its magnitude.  `roundDouble` is the rounding to 53 bits, to the nearest and to even;
a whole number is itself a double exactly when it is one of 53 bits times a power of two (`roundDouble_natCast_iff`).
`printFixed` is the output with digits after the point, and `stod` reads digits, a point and a sign.
-/

open PlainText (ascii decimal isDigit digitsValue)

inductive Double where
  | finite (negative : Bool) (magnitude : ℚ)
  | infinite (negative : Bool)
  | nan (negative : Bool)
  deriving DecidableEq

namespace Double

def roundEven (q : ℚ) : ℕ :=
  let k := ⌊q⌋₊
  if q - k < 1 / 2 then k else if 1 / 2 < q - k then k + 1 else k + k % 2

/-- The number of 53 bits nearest to a number that is not negative, at any exponent. -/
def roundDouble (q : ℚ) : ℚ :=
  if q = 0 then 0 else roundEven (q / 2 ^ (Int.log 2 q - 52)) * 2 ^ (Int.log 2 q - 52)

def sign (negative : Bool) : List UInt8 := if negative then [45] else []

def lastDigits : ℕ → ℕ → List UInt8
  | 0, _ => []
  | k + 1, n => lastDigits k (n / 10) ++ decimal (n % 10)

/-- `operator<<` under `std::fixed` with a precision that is not zero; `std::to_string` has precision 6. -/
def printFixed (precision : ℕ) : Double → List UInt8
  | finite negative magnitude =>
    let n := roundEven (magnitude * 10 ^ precision)
    sign negative ++ decimal (n / 10 ^ precision) ++ 46 :: lastDigits precision n
  | infinite negative => sign negative ++ ascii "inf"
  | nan negative => sign negative ++ ascii "nan"

def ofRat (q : ℚ) : Double := finite (decide (q < 0)) |q|

/-- `d < q` -/
def ltRat : Double → ℚ → Bool
  | finite negative magnitude, q => decide ((if negative then -magnitude else magnitude) < q)
  | infinite negative, _ => negative
  | nan _, _ => false

/-- `std::stod` on a text of digits, points and minus signs: it throws where there is no digit or where the number is not
normal, and leaves alone what follows the number. -/
def stod (s : List UInt8) : Option Double :=
  let negative := s.head? == some 45
  let body := if negative then s.drop 1 else s
  let whole := body.takeWhile isDigit
  let rest := body.drop whole.length
  let fraction := if rest.head? = some 46 then (rest.drop 1).takeWhile isDigit else []
  if whole = [] ∧ fraction = [] then none
  else
    let q : ℚ := digitsValue (whole ++ fraction) / 10 ^ fraction.length
    let v := roundDouble q
    if 2 ^ 1024 ≤ v ∨ (q ≠ 0 ∧ q < 2 ^ (-1022 : ℤ)) then none else some (finite negative v)

/-- `static_cast<std::uint64_t>`: the fraction is dropped; `none` where the behaviour is undefined. -/
def toUnsigned : Double → Option ℕ
  | finite false magnitude => if magnitude < 2 ^ 64 then some ⌊magnitude⌋₊ else none
  | finite true magnitude => if magnitude < 1 then some 0 else none
  | infinite _ => none
  | nan _ => none

def IsDouble (n : ℕ) : Prop := ∃ m k, m < 2 ^ 53 ∧ n = m * 2 ^ k

theorem IsDouble.lt_of_odd {n : ℕ} (h : IsDouble n) (hodd : n % 2 = 1) : n < 2 ^ 53 := by
  obtain ⟨m, k, hm, rfl⟩ := h
  cases k with
  | zero => rwa [pow_zero, Nat.mul_one]
  | succ k =>
    rw [Nat.pow_succ, ← Nat.mul_assoc, Nat.mul_mod_left] at hodd
    cases hodd

theorem notMem_lastDigits {b : UInt8} (h : isDigit b = false) : ∀ k n : ℕ, b ∉ lastDigits k n
  | 0, _ => List.not_mem_nil
  | k + 1, n => by
    rw [lastDigits, List.mem_append, not_or]
    exact ⟨notMem_lastDigits h k (n / 10), PlainText.notMem_decimal h _⟩

/-! ## Rounding -/

theorem roundEven_natCast (n : ℕ) : roundEven n = n := by
  unfold roundEven
  rw [Nat.floor_natCast]
  dsimp only
  rw [sub_self]
  exact if_pos (by norm_num)

theorem roundEven_le {q : ℚ} (hq : 0 ≤ q) : (roundEven q : ℚ) ≤ q + 1 := by
  have hfloor : (⌊q⌋₊ : ℚ) ≤ q := Nat.floor_le hq
  have hmod : ((⌊q⌋₊ % 2 : ℕ) : ℚ) ≤ 1 := by exact_mod_cast Nat.lt_succ_iff.1 (Nat.mod_lt ⌊q⌋₊ two_pos)
  unfold roundEven
  dsimp only
  split
  · linarith
  · split
    · push_cast
      linarith
    · push_cast at hmod ⊢
      linarith

theorem floor_le_roundEven (q : ℚ) : ⌊q⌋₊ ≤ roundEven q := by
  unfold roundEven
  dsimp only
  split
  · exact le_rfl
  · split
    · exact Nat.le_succ _
    · exact Nat.le_add_right _ _

theorem roundEven_le_floor (q : ℚ) : roundEven q ≤ ⌊q⌋₊ + 1 := by
  unfold roundEven
  dsimp only
  split
  · exact Nat.le_succ _
  · split
    · exact le_rfl
    · exact Nat.add_le_add_left (Nat.lt_succ_iff.1 (Nat.mod_lt _ two_pos)) _

theorem roundEven_mono {p q : ℚ} (h : p ≤ q) : roundEven p ≤ roundEven q := by
  rcases (Nat.floor_mono h).lt_or_eq with hlt | heq
  · exact (roundEven_le_floor p).trans (hlt.trans_le (floor_le_roundEven q))
  · unfold roundEven
    dsimp only
    rw [heq]
    split
    · split
      · exact le_rfl
      · split
        · exact Nat.le_succ _
        · exact Nat.le_add_right _ _
    · rename_i hlow
      rw [if_neg (show ¬ q - ⌊q⌋₊ < 1 / 2 by linarith)]
      split
      · rename_i hhigh
        rw [if_pos (show 1 / 2 < q - ⌊q⌋₊ by linarith)]
      · split
        · exact Nat.add_le_add_left (Nat.lt_succ_iff.1 (Nat.mod_lt _ two_pos)) _
        · exact le_rfl

theorem abs_roundEven_sub {q : ℚ} (hq : 0 ≤ q) : |(roundEven q : ℚ) - q| ≤ 1 / 2 := by
  have hfloor : (⌊q⌋₊ : ℚ) ≤ q := Nat.floor_le hq
  have hlt : q < ⌊q⌋₊ + 1 := Nat.lt_floor_add_one q
  rw [abs_le]
  unfold roundEven
  dsimp only
  split
  · constructor <;> linarith
  · split
    · push_cast
      constructor <;> linarith
    · -- halfway: the even one of the two
      rcases Nat.mod_two_eq_zero_or_one ⌊q⌋₊ with hmod | hmod
      · rw [hmod]
        push_cast
        constructor <;> linarith
      · rw [hmod]
        push_cast
        constructor <;> linarith

def ulp (q : ℚ) : ℚ := 2 ^ (Int.log 2 q - 52)

theorem ulp_pos (q : ℚ) : 0 < ulp q := zpow_pos two_pos _

theorem roundDouble_eq {q : ℚ} (hq : 0 < q) : roundDouble q = roundEven (q / ulp q) * ulp q := by
  rw [roundDouble, if_neg hq.ne', ulp]

theorem ulp_le {q : ℚ} (hq : 0 < q) : ulp q ≤ q / 2 ^ 52 := by
  have hpow : (2 : ℚ) ^ Int.log 2 q ≤ q := by exact_mod_cast Int.zpow_log_le_self one_lt_two hq
  rw [ulp, zpow_sub₀ two_ne_zero, zpow_ofNat]
  exact div_le_div_of_nonneg_right hpow (by positivity)

/-- **The relative error of a rounding** is half of the last place at most. -/
theorem abs_roundDouble_sub {q : ℚ} (hq : 0 < q) : |roundDouble q - q| ≤ q / 2 ^ 53 := by
  have hulp := ulp_pos q
  have hdiv : 0 ≤ q / ulp q := div_nonneg hq.le hulp.le
  calc |roundDouble q - q| = |((roundEven (q / ulp q) : ℚ) - q / ulp q) * ulp q| := by
        rw [roundDouble_eq hq, sub_mul, div_mul_cancel₀ _ hulp.ne']
    _ = |(roundEven (q / ulp q) : ℚ) - q / ulp q| * ulp q := by rw [abs_mul, abs_of_pos hulp]
    _ ≤ 1 / 2 * ulp q := mul_le_mul_of_nonneg_right (abs_roundEven_sub hdiv) hulp.le
    _ ≤ 1 / 2 * (q / 2 ^ 52) := mul_le_mul_of_nonneg_left (ulp_le hq) (by norm_num)
    _ = q / 2 ^ 53 := by ring

theorem zpow_le_roundDouble {q : ℚ} (hq : 0 < q) : 2 ^ Int.log 2 q ≤ roundDouble q := by
  have hone : ((2 ^ 52 : ℕ) : ℚ) ≤ q / ulp q := by
    rw [le_div_iff₀ (ulp_pos q)]
    calc ((2 ^ 52 : ℕ) : ℚ) * ulp q ≤ ((2 ^ 52 : ℕ) : ℚ) * (q / 2 ^ 52) := mul_le_mul_of_nonneg_left (ulp_le hq) (Nat.cast_nonneg _)
      _ = q := by push_cast; ring
  have hmono := roundEven_mono hone
  rw [roundEven_natCast] at hmono
  rw [roundDouble_eq hq]
  calc (2 : ℚ) ^ Int.log 2 q = ((2 ^ 52 : ℕ) : ℚ) * ulp q := by
        rw [ulp, zpow_sub₀ two_ne_zero]
        push_cast
        field_simp
    _ ≤ roundEven (q / ulp q) * ulp q := mul_le_mul_of_nonneg_right (by exact_mod_cast hmono) (ulp_pos q).le

theorem roundDouble_le_zpow {q : ℚ} (hq : 0 < q) : roundDouble q ≤ 2 ^ (Int.log 2 q + 1) := by
  have hlt : q < 2 ^ (Int.log 2 q + 1) := by exact_mod_cast Int.lt_zpow_succ_log_self one_lt_two q
  have htop : ((2 ^ 53 : ℕ) : ℚ) * ulp q = 2 ^ (Int.log 2 q + 1) := by
    rw [ulp, zpow_sub₀ two_ne_zero, zpow_add₀ two_ne_zero]
    push_cast
    field_simp
    norm_num
  have hle : q / ulp q ≤ ((2 ^ 53 : ℕ) : ℚ) := by
    rw [div_le_iff₀ (ulp_pos q), htop]
    exact hlt.le
  have hmono := roundEven_mono hle
  rw [roundEven_natCast] at hmono
  rw [roundDouble_eq hq, ← htop]
  exact mul_le_mul_of_nonneg_right (by exact_mod_cast hmono) (ulp_pos q).le

/-- **Rounding to doubles keeps the order.** -/
theorem roundDouble_mono {p q : ℚ} (hp : 0 ≤ p) (h : p ≤ q) : roundDouble p ≤ roundDouble q := by
  rcases hp.eq_or_lt with rfl | hp
  · rw [roundDouble, if_pos rfl]
    rcases h.eq_or_lt with rfl | hq
    · rw [roundDouble, if_pos rfl]
    · exact (zpow_nonneg two_pos.le _).trans (zpow_le_roundDouble hq)
  have hq : 0 < q := hp.trans_le h
  have hlog : Int.log 2 p ≤ Int.log 2 q := Int.log_mono_right hp h
  rcases hlog.eq_or_lt with heq | hlt
  · have hulp : ulp p = ulp q := by rw [ulp, heq, ulp]
    rw [roundDouble_eq hp, roundDouble_eq hq, hulp]
    refine mul_le_mul_of_nonneg_right ?_ (ulp_pos q).le
    exact_mod_cast roundEven_mono (div_le_div_of_nonneg_right h (ulp_pos q).le)
  · calc roundDouble p ≤ 2 ^ (Int.log 2 p + 1) := roundDouble_le_zpow hp
      _ ≤ 2 ^ Int.log 2 q := zpow_le_zpow_right₀ one_le_two hlt
      _ ≤ roundDouble q := zpow_le_roundDouble hq

theorem roundDouble_lt {p q : ℚ} (hp : 0 < p) (h : p * (1 + 1 / 2 ^ 53) < q * (1 - 1 / 2 ^ 53)) :
    roundDouble p < roundDouble q := by
  have hq : 0 < q := by linarith
  have hpe := (abs_le.1 (abs_roundDouble_sub hp)).2
  have hqe := (abs_le.1 (abs_roundDouble_sub hq)).1
  linarith

/-- **A whole number is rounded to itself exactly when it is a double.** -/
theorem roundDouble_natCast_iff (n : ℕ) : roundDouble n = n ↔ IsDouble n := by
  rcases Nat.eq_zero_or_pos n with rfl | hn
  · refine iff_of_true ?_ ⟨0, 0, by norm_num, rfl⟩
    rw [Nat.cast_zero, roundDouble, if_pos rfl]
  have hq : (n : ℚ) ≠ 0 := Nat.cast_ne_zero.2 (Nat.pos_iff_ne_zero.1 hn)
  have htwo : (2 : ℚ) ≠ 0 := by norm_num
  rw [roundDouble, if_neg hq, Int.log_natCast]
  constructor
  · intro h
    rcases Nat.lt_or_ge (Nat.log 2 n) 53 with hsmall | hlarge
    · exact ⟨n, 0, Nat.lt_pow_of_log_lt (by norm_num) hsmall, by rw [pow_zero, Nat.mul_one]⟩
    · -- the exponent is a natural number, and the factor fits in 53 bits as `n` fits in one more than its logarithm
      obtain ⟨k, hk⟩ : ∃ k, Nat.log 2 n = k + 52 := ⟨Nat.log 2 n - 52, by omega⟩
      rw [hk, show ((k + 52 : ℕ) : ℤ) - 52 = (k : ℤ) by push_cast; ring, zpow_natCast] at h
      have hnat : roundEven ((n : ℚ) / 2 ^ k) * 2 ^ k = n := by exact_mod_cast h
      refine ⟨roundEven ((n : ℚ) / 2 ^ k), k, ?_, hnat.symm⟩
      have hlt : n < 2 ^ (k + 53) := Nat.lt_pow_of_log_lt (by norm_num) (by omega)
      rw [← hnat, Nat.pow_add, Nat.mul_comm (2 ^ k)] at hlt
      exact Nat.lt_of_mul_lt_mul_right hlt
  · rintro ⟨m, k, hm, rfl⟩
    have hlog : Nat.log 2 (m * 2 ^ k) < k + 53 := by
      refine Nat.log_lt_of_lt_pow (Nat.pos_iff_ne_zero.1 hn) ?_
      rw [Nat.pow_add, Nat.mul_comm (2 ^ k)]
      exact Nat.mul_lt_mul_of_pos_right hm (Nat.two_pow_pos k)
    obtain ⟨j, hj⟩ : ∃ j : ℕ, (k : ℤ) - ((Nat.log 2 (m * 2 ^ k) : ℕ) - 52 : ℤ) = j :=
      Int.eq_ofNat_of_zero_le (by omega)
    have hexact : ((m * 2 ^ k : ℕ) : ℚ) / 2 ^ (((Nat.log 2 (m * 2 ^ k) : ℕ) : ℤ) - 52) = ((m * 2 ^ j : ℕ) : ℚ) := by
      push_cast
      rw [mul_div_assoc, ← zpow_natCast (2 : ℚ) k, ← zpow_sub₀ htwo, hj, zpow_natCast]
    rw [hexact, roundEven_natCast, ← hexact, div_mul_cancel₀]
    exact zpow_ne_zero _ htwo

theorem roundDouble_natCast_eq (n : ℕ) : ∃ m : ℕ, roundDouble n = m := by
  by_cases hn : IsDouble n
  · exact ⟨n, (roundDouble_natCast_iff n).2 hn⟩
  · have hlarge : 53 ≤ Nat.log 2 n := by
      by_contra hsmall
      exact hn ⟨n, 0, Nat.lt_pow_of_log_lt (by norm_num) (by omega), by rw [pow_zero, Nat.mul_one]⟩
    obtain ⟨k, hk⟩ : ∃ k, Nat.log 2 n = k + 52 := ⟨Nat.log 2 n - 52, by omega⟩
    have hq : (n : ℚ) ≠ 0 := by
      rw [Nat.cast_ne_zero]
      rintro rfl
      exact absurd hlarge (by norm_num)
    refine ⟨roundEven ((n : ℚ) / 2 ^ k) * 2 ^ k, ?_⟩
    rw [roundDouble, if_neg hq, Int.log_natCast, hk, show ((k + 52 : ℕ) : ℤ) - 52 = (k : ℤ) by push_cast; ring, zpow_natCast]
    push_cast
    rfl

theorem roundDouble_natCast_le (n : ℕ) : roundDouble n ≤ 2 * n := by
  rcases Nat.eq_zero_or_pos n with rfl | hn
  · rw [Nat.cast_zero, roundDouble, if_pos rfl, mul_zero]
  have hq : (n : ℚ) ≠ 0 := Nat.cast_ne_zero.2 (Nat.pos_iff_ne_zero.1 hn)
  have hulp : (2 : ℚ) ^ (Int.log 2 (n : ℚ) - 52) ≤ n := by
    refine le_trans (zpow_le_zpow_right₀ (by norm_num) (sub_le_self _ (by norm_num))) (Int.zpow_log_le_self (by norm_num) ?_)
    exact_mod_cast hn
  have hpos : (0 : ℚ) < 2 ^ (Int.log 2 (n : ℚ) - 52) := zpow_pos (by norm_num) _
  rw [roundDouble, if_neg hq]
  calc (roundEven ((n : ℚ) / 2 ^ (Int.log 2 (n : ℚ) - 52)) : ℚ) * 2 ^ (Int.log 2 (n : ℚ) - 52)
      ≤ ((n : ℚ) / 2 ^ (Int.log 2 (n : ℚ) - 52) + 1) * 2 ^ (Int.log 2 (n : ℚ) - 52) :=
        mul_le_mul_of_nonneg_right (roundEven_le (div_nonneg (Nat.cast_nonneg n) hpos.le)) hpos.le
    _ = n + 2 ^ (Int.log 2 (n : ℚ) - 52) := by rw [add_mul, one_mul, div_mul_cancel₀ _ hpos.ne']
    _ ≤ 2 * n := by linarith

/-! ## A whole number through its text -/

theorem stod_decimal {n : ℕ} (h : n < 2 ^ 64) : stod (decimal n) = some (finite false (roundDouble n)) := by
  have htake := @PlainText.takeWhile_decimal n [] (fun b hb => by cases hb)
  rw [List.append_nil] at htake
  have hhead : ((decimal n).head? == some 45) = false := by
    obtain ⟨d, s, hs⟩ := List.exists_cons_of_ne_nil (PlainText.decimal_ne_nil n)
    rw [hs, List.head?_cons, beq_eq_false_iff_ne]
    intro hd
    have hmem : (45 : UInt8) ∈ decimal n := by
      rw [hs, ← Option.some.inj hd]
      exact List.mem_cons_self
    exact PlainText.notMem_decimal rfl n hmem
  have hrange : ¬ ((2 : ℚ) ^ 1024 ≤ roundDouble n ∨ ((n : ℚ) ≠ 0 ∧ (n : ℚ) < 2 ^ (-1022 : ℤ))) := by
    rintro (hbig | ⟨hne, hsmall⟩)
    · have hle := hbig.trans (roundDouble_natCast_le n)
      have hlt : (2 * n : ℚ) < 2 ^ 65 := by
        have h' : 2 * n < 2 ^ 65 := by omega
        exact_mod_cast h'
      exact absurd (hle.trans_lt hlt) (not_lt.2 (pow_le_pow_right₀ (by norm_num) (by norm_num)))
    · have hone : (1 : ℚ) ≤ n := by exact_mod_cast Nat.one_le_iff_ne_zero.2 (fun h0 => hne (by rw [h0, Nat.cast_zero]))
      have hle : (2 : ℚ) ^ (-1022 : ℤ) ≤ 1 := zpow_le_one_of_nonpos₀ (by norm_num) (by norm_num)
      linarith
  unfold stod
  simp only [hhead, Bool.false_eq_true, if_false, htake, List.drop_length, List.head?_nil, reduceCtorEq, List.append_nil,
    PlainText.decimal_ne_nil, false_and, PlainText.digitsValue_decimal, List.length_nil, pow_zero, div_one, if_neg hrange]

theorem toUnsigned_lt {d : Double} {n : ℕ} (h : toUnsigned d = some n) : n < 2 ^ 64 := by
  cases d with
  | finite negative magnitude =>
    cases negative with
    | false =>
      rw [toUnsigned] at h
      split at h
      · rename_i hlt
        rw [← Option.some.inj h]
        exact (Nat.floor_lt' (by norm_num)).2 (by exact_mod_cast hlt)
      · cases h
    | true =>
      rw [toUnsigned] at h
      split at h
      · rw [← Option.some.inj h]
        norm_num
      · cases h
  | infinite negative => cases h
  | nan negative => cases h

/-- **A whole number comes back through a double exactly when it is one.** -/
theorem toUnsigned_stod_iff {n : ℕ} (h : n < 2 ^ 64) : (stod (decimal n)).bind toUnsigned = some n ↔ IsDouble n := by
  rw [stod_decimal h, Option.bind_some, toUnsigned, ← roundDouble_natCast_iff]
  obtain ⟨m, hm⟩ := roundDouble_natCast_eq n
  rw [hm, Nat.floor_natCast, Nat.cast_inj]
  constructor
  · intro heq
    split at heq
    · exact Option.some.inj heq
    · cases heq
  · rintro rfl
    rw [if_pos]
    exact_mod_cast h

end Double
