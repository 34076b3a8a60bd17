import Pergrep.Cli.Transcode
import Pergrep.Lib.JsonText
/-!
# JsonData — a byte string as a JSON value

`jsonData` prints a byte string as an object of one member: its text, when it is UTF-8, or its base64.  `jsonData_reads`:
a JSON reader gets the byte string back from either, and the object is itself UTF-8, as a JSON text must be.
-/
namespace Pergrep.Cli

open Utf (utf8 WellFormed)
open JsonText (Spells readChars readEscape readUnicode readHex4 hexValue)

def jsonEscapeByte (c : UInt8) : Bytes :=
  if c = 0x22 then [0x5C, 0x22]
  else if c = 0x5C then [0x5C, 0x5C]
  else if c = 0x0A then [0x5C, 0x6E]
  else if c = 0x0D then [0x5C, 0x72]
  else if c = 0x09 then [0x5C, 0x74]
  else if c < 0x20 then [0x5C, 0x75, 0x30, 0x30, hexDigit (c.toNat / 16), hexDigit (c.toNat % 16)]
  else [c]
where
  /-- `%x` -/
  hexDigit (n : Nat) : UInt8 := if n < 10 then UInt8.ofNat (0x30 + n) else UInt8.ofNat (0x61 + (n - 10))

def jsonEscape (s : Bytes) : Bytes := s.flatMap jsonEscapeByte

def base64Table : Bytes :=
  (List.range 26).map (fun i => UInt8.ofNat (0x41 + i)) ++ (List.range 26).map (fun i => UInt8.ofNat (0x61 + i)) ++
    (List.range 10).map (fun i => UInt8.ofNat (0x30 + i)) ++ [0x2B, 0x2F]

def base64Digit (v : Nat) : UInt8 := base64Table.getD (v % 64) 0

/-- `base64`: three bytes a round, the last round of one or two. -/
def base64 : Bytes → Bytes
  | [] => []
  | [a] =>
    let v := a.toNat * 65536
    [base64Digit (v / 262144), base64Digit (v / 4096), 0x3D, 0x3D]
  | [a, b] =>
    let v := a.toNat * 65536 + b.toNat * 256
    [base64Digit (v / 262144), base64Digit (v / 4096), base64Digit (v / 64), 0x3D]
  | a :: b :: c :: rest =>
    let v := a.toNat * 65536 + b.toNat * 256 + c.toNat
    [base64Digit (v / 262144), base64Digit (v / 4096), base64Digit (v / 64), base64Digit v] ++ base64 rest

/-- `"text"` -/
def textKey : Bytes := [0x74, 0x65, 0x78, 0x74]

/-- `"bytes"` -/
def bytesKey : Bytes := [0x62, 0x79, 0x74, 0x65, 0x73]

/-- `{"key":"value"}` -/
def jsonMember (key value : Bytes) : Bytes :=
  [0x7B, 0x22] ++ key ++ [0x22, 0x3A, 0x22] ++ value ++ [0x22, 0x7D]

def jsonData (s : Bytes) : Bytes :=
  if validUtf8 s then jsonMember textKey (jsonEscape s) else jsonMember bytesKey (base64 s)

/-! ## What is written is read -/

theorem spells_self {c : UInt8} (hq : c ≠ 0x22) (hb : c ≠ 0x5C) (hc : ¬ c < 0x20) : Spells [c] [c] := by
  refine ⟨by simp, fun fuel rest => ?_⟩
  rw [List.singleton_append, readChars, if_neg hq, if_neg hb, if_neg hc]
  cases readChars fuel rest <;> rfl

theorem spells_escape {w c : Bytes} (h : ∀ rest, readEscape (w ++ rest) = some (c, rest)) : Spells (0x5C :: w) c := by
  refine ⟨by simp, fun fuel rest => ?_⟩
  rw [List.cons_append, readChars, if_neg (by decide), if_pos rfl, h]
  change (readChars fuel rest).bind (fun q => some (c ++ q.1, q.2)) = _
  cases readChars fuel rest <;> rfl

theorem readUnicode_control : ∀ n < 32, ∀ rest : Bytes,
    readUnicode (0x30 :: 0x30 :: jsonEscapeByte.hexDigit (n / 16) :: jsonEscapeByte.hexDigit (n % 16) :: rest) =
      some ([UInt8.ofNat n], rest) := by
  intro n hn rest
  have hhex : readHex4 (0x30 :: 0x30 :: jsonEscapeByte.hexDigit (n / 16) :: jsonEscapeByte.hexDigit (n % 16) :: rest) =
      some (n, rest) := by
    have hdigit : ∀ k < 16, hexValue (jsonEscapeByte.hexDigit k) = some k := by decide
    rw [readHex4, hdigit _ (by omega), hdigit _ (by omega)]
    change some (((0 * 16 + 0) * 16 + n / 16) * 16 + n % 16, rest) = _
    rw [show ((0 * 16 + 0) * 16 + n / 16) * 16 + n % 16 = n by omega]
  have hutf : ∀ k < 32, utf8 [Char.ofNat k] = [UInt8.ofNat k] := by decide
  rw [readUnicode, hhex]
  change (if Utf.IsHigh n then _ else if Utf.IsLow n then none else some (utf8 [Char.ofNat n], rest)) = _
  rw [if_neg (by unfold Utf.IsHigh; omega), if_neg (by unfold Utf.IsLow; omega), hutf n hn]

/-- **Each byte of an escaped string is read back as itself.** -/
theorem spells_jsonEscapeByte (c : UInt8) : Spells (jsonEscapeByte c) [c] := by
  unfold jsonEscapeByte
  split
  · rename_i h
    subst h
    exact spells_escape (fun rest => rfl)
  · rename_i hquote
    split
    · rename_i h
      subst h
      exact spells_escape (fun rest => rfl)
    · rename_i hback
      split
      · rename_i h
        subst h
        exact spells_escape (fun rest => rfl)
      · split
        · rename_i h
          subst h
          exact spells_escape (fun rest => rfl)
        · split
          · rename_i h
            subst h
            exact spells_escape (fun rest => rfl)
          · split
            · rename_i hctl
              have hlt : c.toNat < 32 := by
                rw [UInt8.lt_iff_toNat_lt] at hctl
                exact hctl
              refine spells_escape (fun rest => ?_)
              have h := readUnicode_control c.toNat hlt rest
              rw [UInt8.ofNat_toNat] at h
              exact h
            · rename_i hctl
              exact spells_self hquote hback hctl

theorem value_base64Digit : ∀ v < 64, Base64.value (base64Digit v) = some v := by decide

theorem base64Digit_mod (v : Nat) : base64Digit (v % 64) = base64Digit v := by
  rw [base64Digit, base64Digit, Nat.mod_mod]

theorem value_digit (v : Nat) : Base64.value (base64Digit v) = some (v % 64) := by
  rw [← base64Digit_mod]
  exact value_base64Digit _ (Nat.mod_lt _ (by decide))

theorem base64Digit_ne_pad (v : Nat) : base64Digit v ≠ 0x3D := by
  have h : ∀ v < 64, base64Digit v ≠ 0x3D := by decide
  rw [← base64Digit_mod]
  exact h _ (Nat.mod_lt _ (by decide))

theorem ofNat_eq (a : UInt8) {n : Nat} (h : n = a.toNat) : UInt8.ofNat n = a := by
  rw [h, UInt8.ofNat_toNat]

/-- **Base64 is read back**, whatever the length leaves for the last round. -/
theorem decode_base64 : ∀ s : Bytes, Base64.decode (base64 s) = some s
  | [] => rfl
  | [a] => by
    have ha := a.toNat_lt
    rw [base64, Base64.decode, value_digit, value_digit]
    simp only [Option.bind_eq_bind, Option.bind_some]
    rw [if_pos ⟨trivial, trivial, trivial⟩, ofNat_eq a (by omega)]
  | [a, b] => by
    have ha := a.toNat_lt
    have hb := b.toNat_lt
    rw [base64, Base64.decode, value_digit, value_digit, value_digit]
    simp only [Option.bind_eq_bind, Option.bind_some]
    rw [if_neg (fun h => base64Digit_ne_pad _ h.1), if_pos ⟨trivial, trivial⟩, ofNat_eq a (by omega), ofNat_eq b (by omega)]
  | a :: b :: c :: rest => by
    have ha := a.toNat_lt
    have hb := b.toNat_lt
    have hc := c.toNat_lt
    rw [base64, List.cons_append, List.cons_append, List.cons_append, List.cons_append, List.nil_append, Base64.decode,
      value_digit, value_digit, value_digit, value_digit, decode_base64 rest]
    simp only [Option.bind_eq_bind, Option.bind_some]
    rw [if_neg (fun h => base64Digit_ne_pad _ h.1), if_neg (fun h => base64Digit_ne_pad _ h.1), ofNat_eq a (by omega),
      ofNat_eq b (by omega), ofNat_eq c (by omega)]

/-! ## The object -/

theorem textKey_escape : textKey.flatMap jsonEscapeByte = textKey := by decide

theorem bytesKey_escape : bytesKey.flatMap jsonEscapeByte = bytesKey := by decide

theorem jsonEscape_base64 : ∀ s : Bytes, jsonEscape (base64 s) = base64 s := by
  have hdigit : ∀ v, jsonEscapeByte (base64Digit v) = [base64Digit v] := by
    have h : ∀ v < 64, jsonEscapeByte (base64Digit v) = [base64Digit v] := by decide
    intro v
    rw [← base64Digit_mod]
    exact h _ (Nat.mod_lt _ (by decide))
  have hpad : jsonEscapeByte 0x3D = [0x3D] := by decide
  intro s
  fun_induction base64 s with
  | case1 => rfl
  | case2 a v => simp only [jsonEscape, List.flatMap_cons, List.flatMap_nil, hdigit, hpad, List.singleton_append]
  | case3 a b v => simp only [jsonEscape, List.flatMap_cons, List.flatMap_nil, hdigit, hpad, List.singleton_append]
  | case4 a b c rest v ih =>
    rw [jsonEscape] at ih ⊢
    rw [List.flatMap_append, ih]
    simp only [List.flatMap_cons, List.flatMap_nil, hdigit, List.singleton_append]

theorem decode_jsonMember {key : Bytes} (hkey : key.flatMap jsonEscapeByte = key) (s : Bytes) :
    JsonText.decode (jsonMember key (jsonEscape s)) = some [(key, s)] := by
  have h := JsonText.decode_single spells_jsonEscapeByte spells_jsonEscapeByte key s
  rw [hkey] at h
  rw [← h, jsonMember]
  simp only [List.append_assoc, List.cons_append, List.nil_append, jsonEscape]

/-- The byte string a data field stands for: the text value, or the bytes value out of base64. -/
def dataValue (doc : Bytes) : Option Bytes :=
  match JsonText.decode doc with
  | some [(key, value)] =>
    if key = textKey then some value else if key = bytesKey then Base64.decode value else none
  | _ => none

/-! ## UTF-8 -/

theorem wellFormed_char (c : Char) : WellFormed (appendUtf8 c.toNat) := by
  refine ⟨[c], ?_⟩
  rw [utf8_cons]
  exact (List.append_nil _).symm

theorem wellFormed_ascii : ∀ {s : Bytes}, (∀ b ∈ s, b < 0x80) → WellFormed s
  | [], _ => ⟨[], rfl⟩
  | b :: s, h => by
    have hb : b.toNat < 0x80 := UInt8.lt_iff_toNat_lt.1 (h b List.mem_cons_self)
    have hvalid : b.toNat.isValidChar := Or.inl (by omega)
    have hhead : [b] = appendUtf8 (Char.ofNatAux b.toNat hvalid).toNat := by
      change [b] = appendUtf8 b.toNat
      rw [appendUtf8, if_pos hb, UInt8.ofNat_toNat]
    have h1 := wellFormed_char (Char.ofNatAux b.toNat hvalid)
    rw [← hhead] at h1
    exact h1.append (wellFormed_ascii (fun x hx => h x (List.mem_cons_of_mem _ hx)))

theorem jsonEscapeByte_ascii {c : UInt8} (h : c < 0x80) : ∀ b ∈ jsonEscapeByte c, b < 0x80 := by
  have hall : ∀ n < 128, ∀ b ∈ jsonEscapeByte (UInt8.ofNat n), b < 0x80 := by decide +kernel
  have hc := hall c.toNat (UInt8.lt_iff_toNat_lt.1 h)
  rwa [UInt8.ofNat_toNat] at hc

theorem jsonEscapeByte_self {c : UInt8} (h : 0x80 ≤ c.toNat) : jsonEscapeByte c = [c] := by
  have hne : ∀ k : UInt8, k.toNat < 0x80 → c ≠ k := by
    rintro k hk rfl
    omega
  have hctl : ¬ c < 0x20 := by
    rw [UInt8.lt_iff_toNat_lt]
    exact Nat.not_lt_of_le (Nat.le_trans (by decide) h)
  rw [jsonEscapeByte, if_neg (hne _ (by decide)), if_neg (hne _ (by decide)), if_neg (hne _ (by decide)),
    if_neg (hne _ (by decide)), if_neg (hne _ (by decide)), if_neg hctl]

theorem le_of_mem_appendUtf8 {cp : Nat} (h : 0x80 ≤ cp) (hlt : cp < 0x110000) {b : UInt8} (hb : b ∈ appendUtf8 cp) :
    0x80 ≤ b.toNat := by
  have hof : ∀ n, 0x80 ≤ n → n < 0x100 → b = UInt8.ofNat n → 0x80 ≤ b.toNat := by
    intro n hn hn' hbn
    rw [hbn, UInt8.toNat_ofNat_of_lt' (by simp only [UInt8.size]; omega)]
    exact hn
  unfold appendUtf8 at hb
  rw [if_neg (by omega)] at hb
  repeat' split at hb
  all_goals simp only [List.mem_cons, List.not_mem_nil, or_false] at hb
  · rcases hb with hb | hb
    · exact hof _ (by omega) (by omega) hb
    · exact hof _ (by omega) (by omega) hb
  · rcases hb with hb | hb | hb
    · exact hof _ (by omega) (by omega) hb
    · exact hof _ (by omega) (by omega) hb
    · exact hof _ (by omega) (by omega) hb
  · rcases hb with hb | hb | hb | hb
    · exact hof _ (by omega) (by omega) hb
    · exact hof _ (by omega) (by omega) hb
    · exact hof _ (by omega) (by omega) hb
    · exact hof _ (by omega) (by omega) hb

/-- **Escapes leave UTF-8 what it is.** -/
theorem wellFormed_jsonEscape {s : Bytes} (h : WellFormed s) : WellFormed (jsonEscape s) := by
  obtain ⟨cs, rfl⟩ := h
  induction cs with
  | nil => exact ⟨[], rfl⟩
  | cons c cs ih =>
    rw [utf8_cons, jsonEscape, List.flatMap_append]
    refine WellFormed.append ?_ ih
    by_cases hc : c.toNat < 0x80
    · refine wellFormed_ascii (fun b hb => ?_)
      rw [appendUtf8, if_pos hc, List.flatMap_singleton] at hb
      refine jsonEscapeByte_ascii ?_ b hb
      rw [UInt8.lt_iff_toNat_lt, UInt8.toNat_ofNat_of_lt' (by simp only [UInt8.size]; omega)]
      exact hc
    · have hself : (appendUtf8 c.toNat).flatMap jsonEscapeByte = appendUtf8 c.toNat := by
        rw [List.flatMap_congr (g := fun b => [b])
          (fun b hb => jsonEscapeByte_self (le_of_mem_appendUtf8 (by omega) (Utf.toNat_lt c) hb))]
        exact List.flatMap_singleton' _
      rw [hself]
      exact wellFormed_char c

theorem ascii_of_all {s : Bytes} (h : s.all (fun b => decide (b < 0x80)) = true) : ∀ b ∈ s, b < 0x80 :=
  fun b hb => of_decide_eq_true (List.all_eq_true.1 h b hb)

theorem wellFormed_jsonMember {key value : Bytes} (hkey : ∀ b ∈ key, b < 0x80) (hvalue : WellFormed value) :
    WellFormed (jsonMember key value) :=
  ((((wellFormed_ascii (ascii_of_all rfl)).append (wellFormed_ascii hkey)).append (wellFormed_ascii (ascii_of_all rfl))).append
    hvalue).append (wellFormed_ascii (ascii_of_all rfl))

theorem base64_ascii : ∀ s : Bytes, ∀ b ∈ base64 s, b < 0x80 := by
  have hdigit : ∀ v, base64Digit v < 0x80 := by
    have h : ∀ v < 64, base64Digit v < 0x80 := by decide
    intro v
    rw [← base64Digit_mod]
    exact h _ (Nat.mod_lt _ (by decide))
  intro s
  fun_induction base64 s with
  | case1 => exact fun b hb => absurd hb List.not_mem_nil
  | case2 a v => simp [hdigit]
  | case3 a b v => simp [hdigit]
  | case4 a b c rest v ih => simpa [hdigit] using ih

/-- **A JSON reader gets the byte string back**, and the test that picks the form accepts just the well-formed. -/
theorem jsonData_reads :
    (∀ s : Bytes, validUtf8 s = true ↔ WellFormed s) ∧
    (∀ s : Bytes, WellFormed (jsonData s) ∧ dataValue (jsonData s) = some s ∧
      JsonText.decode (jsonData s) = some (if validUtf8 s then [(textKey, s)] else [(bytesKey, base64 s)])) := by
  refine ⟨validUtf8_iff, fun s => ?_⟩
  unfold jsonData
  by_cases hs : validUtf8 s = true
  · have hdec := decode_jsonMember textKey_escape s
    rw [if_pos hs, if_pos hs, dataValue, hdec]
    exact ⟨wellFormed_jsonMember (ascii_of_all rfl) (wellFormed_jsonEscape ((validUtf8_iff s).1 hs)), if_pos rfl, rfl⟩
  · have hdec := decode_jsonMember bytesKey_escape (base64 s)
    rw [jsonEscape_base64] at hdec
    rw [if_neg hs, if_neg hs, dataValue, hdec]
    refine ⟨wellFormed_jsonMember (ascii_of_all rfl) (wellFormed_ascii (base64_ascii s)), ?_, rfl⟩
    exact (if_neg (by decide)).trans ((if_pos rfl).trans (decode_base64 s))

end Pergrep.Cli
