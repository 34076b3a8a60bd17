import Mathlib.Data.List.Basic
import Mathlib.Tactic.Common
import Mathlib.Data.UInt
/-!
# Utf — the encoding forms of a text

A text is a list of `Char`s, the scalar values of Unicode.  `utf8` and `utf16` are its two encoding forms, in bytes and
in 16-bit units; `WellFormed` are the byte strings that encode a text, and `UnpairedHigh` the unit strings with a high
surrogate that opens no pair.
-/
namespace Utf

def utf8 (cs : List Char) : List UInt8 := cs.flatMap String.utf8EncodeChar

/-- The byte strings that are the UTF-8 form of a text. -/
def WellFormed (s : List UInt8) : Prop := ∃ cs : List Char, s = utf8 cs

theorem utf8_append (cs ds : List Char) : utf8 (cs ++ ds) = utf8 cs ++ utf8 ds := List.flatMap_append

theorem WellFormed.append {s t : List UInt8} (hs : WellFormed s) (ht : WellFormed t) : WellFormed (s ++ t) := by
  obtain ⟨cs, rfl⟩ := hs
  obtain ⟨ds, rfl⟩ := ht
  exact ⟨cs ++ ds, (utf8_append cs ds).symm⟩

/-! ## 16-bit units -/

def IsHigh (u : Nat) : Prop := 0xD800 ≤ u ∧ u ≤ 0xDBFF

def IsLow (u : Nat) : Prop := 0xDC00 ≤ u ∧ u ≤ 0xDFFF

instance (u : Nat) : Decidable (IsHigh u) := inferInstanceAs (Decidable (_ ∧ _))

instance (u : Nat) : Decidable (IsLow u) := inferInstanceAs (Decidable (_ ∧ _))

/-- The units of a scalar value: itself, or a surrogate pair. -/
def units (c : Char) : List Nat :=
  if c.toNat < 0x10000 then [c.toNat]
  else [0xD800 + (c.toNat - 0x10000) / 0x400, 0xDC00 + (c.toNat - 0x10000) % 0x400]

def utf16 (cs : List Char) : List Nat := cs.flatMap units

/-- The two bytes of a unit, the lower eight bits first (`little`) or the higher. -/
def unitBytes (little : Bool) (u : Nat) : List UInt8 :=
  if little then [UInt8.ofNat (u % 256), UInt8.ofNat (u / 256)] else [UInt8.ofNat (u / 256), UInt8.ofNat (u % 256)]

/-- A high surrogate, and no low surrogate after it. -/
def UnpairedHigh (us : List Nat) : Prop := ∃ i u, us[i]? = some u ∧ IsHigh u ∧ ∀ v, us[i + 1]? = some v → ¬ IsLow v

theorem toNat_lt (c : Char) : c.toNat < 0x110000 := by
  rcases c.valid with h | h
  · exact Nat.lt_trans h (by decide)
  · exact h.2

theorem lt_of_mem_units {c : Char} {u : Nat} (h : u ∈ units c) : u < 0x10000 := by
  have hc := toNat_lt c
  unfold units at h
  split at h
  · rw [List.mem_singleton.1 h]
    assumption
  · rcases List.mem_cons.1 h with h | h
    · omega
    · have := List.mem_singleton.1 h
      omega

theorem lt_of_mem_utf16 {cs : List Char} {u : Nat} (h : u ∈ utf16 cs) : u < 0x10000 := by
  obtain ⟨c, -, hc⟩ := List.mem_flatMap.1 h
  exact lt_of_mem_units hc

theorem not_high_of_low {u : Nat} (h : IsLow u) : ¬ IsHigh u := by
  unfold IsLow at h
  unfold IsHigh
  omega

theorem not_unpairedHigh_nil : ¬ UnpairedHigh [] := by
  rintro ⟨i, u, hu, -⟩
  rw [List.getElem?_nil] at hu
  cases hu

theorem unpairedHigh_cons {u : Nat} {us : List Nat} :
    UnpairedHigh (u :: us) ↔ (IsHigh u ∧ ∀ v, us.head? = some v → ¬ IsLow v) ∨ UnpairedHigh us := by
  constructor
  · rintro ⟨i, w, hw, hh, hnext⟩
    cases i with
    | zero =>
      cases hw
      rw [List.head?_eq_getElem?]
      exact Or.inl ⟨hh, hnext⟩
    | succ i => exact Or.inr ⟨i, w, hw, hh, hnext⟩
  · rintro (⟨hh, hnext⟩ | ⟨i, w, hw, hh, hnext⟩)
    · rw [List.head?_eq_getElem?] at hnext
      exact ⟨0, u, rfl, hh, hnext⟩
    · exact ⟨i + 1, w, hw, hh, hnext⟩

theorem unpairedHigh_cons_of_not_high {u : Nat} {us : List Nat} (h : ¬ IsHigh u) :
    UnpairedHigh (u :: us) ↔ UnpairedHigh us := by
  rw [unpairedHigh_cons, or_iff_right (fun hu => h hu.1)]

theorem unpairedHigh_pair {u v : Nat} {us : List Nat} (hv : IsLow v) :
    UnpairedHigh (u :: v :: us) ↔ UnpairedHigh us := by
  rw [unpairedHigh_cons, or_iff_right (fun hu => hu.2 v rfl hv), unpairedHigh_cons_of_not_high (not_high_of_low hv)]

end Utf
