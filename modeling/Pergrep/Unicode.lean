import Pergrep.Utf8
/-!
# Unicode — the character data the engine asks ICU for

ICU is not part of the repository: `Icu` is the record of the functions it is asked for (`u_foldCase`, `u_charType`,
`u_hasBinaryProperty`, the script lookups), and everything below is stated over an arbitrary one.  What a result needs
of it is a named hypothesis (`Icu.FoldsAscii`).  The byte classes of the C locale (`isalnum`, `isspace`, …) are not
parameters: they are the ASCII ones.
-/
namespace Pergrep

/-- `UCharCategory` -/
inductive UCharCategory where
  | unassigned | uppercaseLetter | lowercaseLetter | titlecaseLetter | modifierLetter | otherLetter
  | nonSpacingMark | enclosingMark | combiningSpacingMark | decimalDigitNumber | letterNumber | otherNumber
  | spaceSeparator | lineSeparator | paragraphSeparator | controlChar | formatChar | privateUseChar | surrogate
  | dashPunctuation | startPunctuation | endPunctuation | connectorPunctuation | otherPunctuation | mathSymbol
  | currencySymbol | modifierSymbol | otherSymbol | initialPunctuation | finalPunctuation
  deriving DecidableEq, Repr

/-- The `UProperty` values a pattern can name. -/
inductive UProperty where
  | alphabetic | asciiHexDigit | bidiControl | defaultIgnorableCodePoint | deprecated | diacritic | extender
  | graphemeBase | graphemeExtend | hexDigit | idContinue | idStart | ideographic | joinControl
  | logicalOrderException | lowercase | math | noncharacterCodePoint | quotationMark | radical | softDotted
  | terminalPunctuation | unifiedIdeograph | uppercase | xidContinue | xidStart | cased | caseIgnorable
  | changesWhenLowercased | changesWhenUppercased | changesWhenTitlecased | changesWhenCasefolded
  | changesWhenCasemapped
  deriving DecidableEq, Repr

/-- What the engine asks of ICU, by code point. -/
structure Icu where
  foldCase : Nat → Nat
  toLower : Nat → Nat
  toUpper : Nat → Nat
  toTitle : Nat → Nat
  isAlnum : Nat → Bool
  isUpper : Nat → Bool
  isUWhiteSpace : Nat → Bool
  charType : Nat → UCharCategory
  hasBinaryProperty : Nat → UProperty → Bool
  /-- `uscript_getScript`, `none` on an error code. -/
  getScript : Nat → Option Nat
  /-- The first code of `uscript_getCode`, `none` on an error code or an empty answer. -/
  scriptCode : Bytes → Option Nat

/-! ## The byte classes of the C locale -/

def isDigitByte (b : UInt8) : Bool := 0x30 ≤ b && b ≤ 0x39
def isUpperByte (b : UInt8) : Bool := 0x41 ≤ b && b ≤ 0x5A
def isLowerByte (b : UInt8) : Bool := 0x61 ≤ b && b ≤ 0x7A
def isAlphaByte (b : UInt8) : Bool := isUpperByte b || isLowerByte b
def isAlnumByte (b : UInt8) : Bool := isAlphaByte b || isDigitByte b
def isSpaceByte (b : UInt8) : Bool := b == 0x20 || (0x09 ≤ b && b ≤ 0x0D)
def toLowerByte (b : UInt8) : UInt8 := if isUpperByte b then b + 0x20 else b

def asciiWord (b : UInt8) : Bool := isAlnumByte b || b == 0x5F

/-- `is_word_at` under `unicode = false`: a code point below 128 that is an ASCII word byte. -/
def asciiWordCp (cp : Nat) : Bool := decide (cp < 128) && asciiWord (UInt8.ofNat cp)

def asciiLower (cp : Nat) : Nat := if 0x41 ≤ cp ∧ cp ≤ 0x5A then cp + 0x20 else cp

namespace Icu

variable (icu : Icu)

/-- `u_foldCase` maps an ASCII code point to its lower case (`CaseFolding.txt`, the default, non-Turkic table). -/
def FoldsAscii : Prop := ∀ cp < 0x80, icu.foldCase cp = asciiLower cp

def unicodeWord (cp : Nat) : Bool :=
  icu.isAlnum cp ||
  icu.charType cp == .connectorPunctuation ||
  icu.hasBinaryProperty cp .joinControl ||
  icu.charType cp == .nonSpacingMark ||
  icu.charType cp == .combiningSpacingMark ||
  icu.charType cp == .enclosingMark

def foldedCpEq (cp foldedExpected : Nat) : Bool :=
  if cp < 0x80 then
    if 0x80 ≤ foldedExpected then false
    else asciiLower cp == foldedExpected
  else icu.foldCase cp == foldedExpected

def cpEq (a b : Nat) (icase : Bool) : Bool :=
  if icase then icu.foldCase a == icu.foldCase b else a == b

/-- `is_word_at` on a decoded rune: the neighbour that is absent is no word character. -/
def isWordAt (unicode : Bool) (r : Option Rune) : Bool :=
  match r with
  | none   => false
  | some r => if unicode then icu.unicodeWord r.cp else asciiWordCp r.cp

/-- **The ASCII shortcut of `folded_cp_eq` is the comparison of the folded code points.** -/
theorem foldedCpEq_eq (h : icu.FoldsAscii) (cp x : Nat) :
    icu.foldedCpEq cp (icu.foldCase x) = icu.cpEq cp x true := by
  unfold foldedCpEq cpEq
  simp only [if_true]
  split
  · rename_i hcp
    rw [h cp hcp]
    split
    · rename_i hx
      have hne : asciiLower cp ≠ icu.foldCase x := by
        unfold asciiLower
        split <;> omega
      simp [hne]
    · rfl
  · rfl

end Icu

/-- A concrete `Icu` that knows ASCII only, for evaluating the model on examples. -/
def asciiIcu : Icu where
  foldCase := asciiLower
  toLower := asciiLower
  toUpper cp := if 0x61 ≤ cp ∧ cp ≤ 0x7A then cp - 0x20 else cp
  toTitle cp := if 0x61 ≤ cp ∧ cp ≤ 0x7A then cp - 0x20 else cp
  isAlnum cp := decide (cp < 128) && isAlnumByte (UInt8.ofNat cp)
  isUpper cp := decide (0x41 ≤ cp ∧ cp ≤ 0x5A)
  isUWhiteSpace cp := decide (cp < 128) && isSpaceByte (UInt8.ofNat cp)
  charType cp := if cp = 0x5F then .connectorPunctuation else .otherSymbol
  hasBinaryProperty _ _ := false
  getScript _ := none
  scriptCode _ := none

theorem asciiIcu_foldsAscii : asciiIcu.FoldsAscii := fun _ _ => rfl

end Pergrep
