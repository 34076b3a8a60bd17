import Mathlib.Data.List.Basic
import Mathlib.Tactic.Common
import Mathlib.Data.UInt
import Pergrep.Lib.Utf
/-!
# JsonText — objects of strings, read as JSON, and base64

`decode` reads a JSON text that is an object whose values are strings: its members in order, each name and value as the
bytes of the text it spells.  `Base64.decode` reads base64 with padding.  Both are readers only; what writes such texts
is proved against them.
-/
namespace JsonText

open Utf (utf8 IsHigh IsLow)

def isSpace (b : UInt8) : Bool := b == 0x20 || b == 0x09 || b == 0x0A || b == 0x0D

def skipSpace (s : List UInt8) : List UInt8 := s.dropWhile isSpace

def hexValue (b : UInt8) : Option Nat :=
  if 0x30 ≤ b ∧ b ≤ 0x39 then some (b.toNat - 0x30)
  else if 0x41 ≤ b ∧ b ≤ 0x46 then some (b.toNat - 0x41 + 10)
  else if 0x61 ≤ b ∧ b ≤ 0x66 then some (b.toNat - 0x61 + 10)
  else none

def readHex4 : List UInt8 → Option (Nat × List UInt8)
  | a :: b :: c :: d :: rest => do
    let a ← hexValue a
    let b ← hexValue b
    let c ← hexValue c
    let d ← hexValue d
    some (((a * 16 + b) * 16 + c) * 16 + d, rest)
  | _ => none

/-- The rest of a `\u` escape: a unit of its own, or the first of a surrogate pair. -/
def readUnicode (s : List UInt8) : Option (List UInt8 × List UInt8) := do
  let (u, rest) ← readHex4 s
  if IsHigh u then
    match rest with
    | 0x5C :: 0x75 :: rest =>
      let (v, rest) ← readHex4 rest
      if IsLow v then some (utf8 [Char.ofNat (0x10000 + (u - 0xD800) * 0x400 + (v - 0xDC00))], rest) else none
    | _ => none
  else if IsLow u then none
  else some (utf8 [Char.ofNat u], rest)

def readEscape : List UInt8 → Option (List UInt8 × List UInt8)
  | [] => none
  | b :: rest =>
    if b = 0x22 ∨ b = 0x5C ∨ b = 0x2F then some ([b], rest)
    else if b = 0x62 then some ([0x08], rest)
    else if b = 0x66 then some ([0x0C], rest)
    else if b = 0x6E then some ([0x0A], rest)
    else if b = 0x72 then some ([0x0D], rest)
    else if b = 0x74 then some ([0x09], rest)
    else if b = 0x75 then readUnicode rest
    else none

/-- The characters of a string up to its closing quote, and what follows that.  A control character does not stand in a
string unescaped.  The fuel is the number of bytes left. -/
def readChars : Nat → List UInt8 → Option (List UInt8 × List UInt8)
  | _, [] => none
  | 0, _ :: _ => none
  | fuel + 1, b :: rest =>
    if b = 0x22 then some ([], rest)
    else if b = 0x5C then do
      let (c, rest) ← readEscape rest
      let (cs, rest) ← readChars fuel rest
      some (c ++ cs, rest)
    else if b < 0x20 then none
    else do
      let (cs, rest) ← readChars fuel rest
      some (b :: cs, rest)

def expect (b : UInt8) (s : List UInt8) : Option (List UInt8) :=
  match skipSpace s with
  | c :: rest => if c = b then some rest else none
  | [] => none

def readString (s : List UInt8) : Option (List UInt8 × List UInt8) := do
  let rest ← expect 0x22 s
  readChars rest.length rest

def readMember (s : List UInt8) : Option ((List UInt8 × List UInt8) × List UInt8) := do
  let (name, rest) ← readString s
  let rest ← expect 0x3A rest
  let (value, rest) ← readString rest
  some ((name, value), rest)

def readMembers : Nat → List UInt8 → Option (List (List UInt8 × List UInt8) × List UInt8)
  | 0, _ => none
  | fuel + 1, s => do
    let (m, rest) ← readMember s
    match expect 0x2C rest with
    | some rest =>
      let (ms, rest) ← readMembers fuel rest
      some (m :: ms, rest)
    | none =>
      let rest ← expect 0x7D rest
      some ([m], rest)

def decode (s : List UInt8) : Option (List (List UInt8 × List UInt8)) := do
  let rest ← expect 0x7B s
  match expect 0x7D rest with
  | some rest => if skipSpace rest = [] then some [] else none
  | none =>
    let (ms, rest) ← readMembers rest.length rest
    if skipSpace rest = [] then some ms else none

/-! ## Writing a string so that it is read -/

/-- The bytes that spell `c`, wherever they stand. -/
def Spells (w c : List UInt8) : Prop := w ≠ [] ∧ ∀ fuel rest,
  readChars (fuel + 1) (w ++ rest) = (readChars fuel rest).map (fun q => (c ++ q.1, q.2))

theorem readChars_fuel {f g : Nat} {s : List UInt8} {r : List UInt8 × List UInt8} (h : readChars f s = some r)
    (hfg : f ≤ g) : readChars g s = some r := by
  induction f generalizing s g r with
  | zero =>
    cases s with
    | nil => cases h
    | cons b s => cases h
  | succ f ih =>
    cases s with
    | nil => cases h
    | cons b rest =>
      obtain ⟨g, rfl⟩ : ∃ g', g = g' + 1 := ⟨g - 1, by omega⟩
      rw [readChars] at h ⊢
      split at h
      · rename_i hb
        rw [if_pos hb]
        exact h
      · rename_i hb
        rw [if_neg hb]
        split at h
        · rename_i hc
          rw [if_pos hc]
          obtain ⟨⟨c, s'⟩, he, h⟩ := Option.bind_eq_some_iff.1 h
          obtain ⟨⟨cs, s''⟩, hcs, h⟩ := Option.bind_eq_some_iff.1 h
          exact Option.bind_eq_some_iff.2 ⟨_, he, Option.bind_eq_some_iff.2 ⟨_, ih hcs (by omega), h⟩⟩
        · rename_i hc
          rw [if_neg hc]
          split at h
          · cases h
          · rename_i hctl
            rw [if_neg hctl]
            obtain ⟨⟨cs, s''⟩, hcs, h⟩ := Option.bind_eq_some_iff.1 h
            exact Option.bind_eq_some_iff.2 ⟨_, ih hcs (by omega), h⟩

/-- **What is spelled a byte at a time is read whole**: the string ends at the quote after it. -/
theorem readChars_flatMap {spell : UInt8 → List UInt8} (h : ∀ b, Spells (spell b) [b]) (rest : List UInt8) :
    ∀ s : List UInt8, readChars (s.length + 1) (s.flatMap spell ++ 0x22 :: rest) = some (s, rest)
  | [] => by
    rw [List.flatMap_nil, List.nil_append, readChars, if_pos rfl]
  | b :: s => by
    rw [List.length_cons, List.flatMap_cons, List.append_assoc, (h b).2, readChars_flatMap h rest s]
    rfl

theorem length_le_flatMap {spell : UInt8 → List UInt8} (h : ∀ b, Spells (spell b) [b]) :
    ∀ s : List UInt8, s.length ≤ (s.flatMap spell).length
  | [] => Nat.le_refl 0
  | b :: s => by
    have hpos := List.length_pos_iff.2 (h b).1
    have ih := length_le_flatMap h s
    rw [List.flatMap_cons, List.length_append, List.length_cons]
    omega

theorem expect_cons {b : UInt8} (h : isSpace b = false) (rest : List UInt8) : expect b (b :: rest) = some rest := by
  rw [expect, skipSpace, List.dropWhile_cons_of_neg (by rw [h]; exact Bool.false_ne_true)]
  exact if_pos rfl

theorem expect_cons_ne {b c : UInt8} (h : isSpace c = false) (hc : c ≠ b) (rest : List UInt8) :
    expect b (c :: rest) = none := by
  rw [expect, skipSpace, List.dropWhile_cons_of_neg (by rw [h]; exact Bool.false_ne_true)]
  exact if_neg hc

theorem readString_flatMap {spell : UInt8 → List UInt8} (h : ∀ b, Spells (spell b) [b]) (s rest : List UInt8) :
    readString (0x22 :: (s.flatMap spell ++ 0x22 :: rest)) = some (s, rest) := by
  rw [readString, expect_cons (by decide)]
  refine readChars_fuel (readChars_flatMap h rest s) ?_
  have := length_le_flatMap h s
  rw [List.length_append, List.length_cons]
  omega

/-- **An object of one member is read as that member**, where both strings are spelled a byte at a time. -/
theorem decode_single {spell spell' : UInt8 → List UInt8} (h : ∀ b, Spells (spell b) [b])
    (h' : ∀ b, Spells (spell' b) [b]) (name value : List UInt8) :
    decode (0x7B :: 0x22 :: (name.flatMap spell ++ 0x22 :: 0x3A :: 0x22 :: (value.flatMap spell' ++ 0x22 :: [0x7D]))) =
      some [(name, value)] := by
  rw [decode, expect_cons (by decide)]
  dsimp only [bind, Option.bind]
  rw [expect_cons_ne (by decide) (by decide)]
  dsimp only
  rw [List.length_cons, readMembers]
  dsimp only [bind, Option.bind]
  have hmember : readMember (0x22 :: (name.flatMap spell ++ 0x22 :: 0x3A :: 0x22 :: (value.flatMap spell' ++
      0x22 :: [0x7D]))) = some ((name, value), [0x7D]) := by
    rw [readMember, readString_flatMap h]
    dsimp only [bind, Option.bind]
    rw [expect_cons (by decide)]
    dsimp only
    rw [readString_flatMap h']
  rw [hmember]
  dsimp only
  rw [expect_cons_ne (by decide) (by decide)]
  dsimp only
  rw [expect_cons (by decide)]
  dsimp only
  rw [if_pos (by decide)]

end JsonText

namespace Base64

def value (b : UInt8) : Option Nat :=
  if 0x41 ≤ b ∧ b ≤ 0x5A then some (b.toNat - 0x41)
  else if 0x61 ≤ b ∧ b ≤ 0x7A then some (b.toNat - 0x61 + 26)
  else if 0x30 ≤ b ∧ b ≤ 0x39 then some (b.toNat - 0x30 + 52)
  else if b = 0x2B then some 62
  else if b = 0x2F then some 63
  else none

/-- Four digits stand for three bytes; only the last four may end with `=` (two bytes) or `==` (one). -/
def decode : List UInt8 → Option (List UInt8)
  | [] => some []
  | a :: b :: c :: d :: rest => do
    let a ← value a
    let b ← value b
    if c = 0x3D ∧ d = 0x3D ∧ rest = [] then some [UInt8.ofNat ((a * 64 + b) / 16)]
    else do
      let c ← value c
      if d = 0x3D ∧ rest = [] then
        let v := ((a * 64 + b) * 64 + c) / 4
        some [UInt8.ofNat (v / 256), UInt8.ofNat (v % 256)]
      else do
        let d ← value d
        let v := ((a * 64 + b) * 64 + c) * 64 + d
        let bs ← decode rest
        some (UInt8.ofNat (v / 65536) :: UInt8.ofNat (v / 256 % 256) :: UInt8.ofNat (v % 256) :: bs)
  | _ => none

end Base64
