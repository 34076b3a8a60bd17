import Pergrep.Regex.Syntax
/-!
# Property — the Unicode properties a pattern can name

`property_from_name`: the name between the braces of `\p{…}`, or the one byte after `\p`.  The chain of comparisons
of the source is the table `propertyNames`, in its order.
-/
namespace Pergrep

def asciiBytes (s : String) : Bytes := s.toList.map (fun c => UInt8.ofNat c.toNat)

/-- Pattern bytes inside an error text, one character a byte. -/
def bytesText (b : Bytes) : String := String.ofList (b.map (fun c => Char.ofNat c.toNat))

/-- The names compared with the normalised one, and what each stands for. -/
def propertyNames : List (List String × PropertyKind) := [
  (["any"], .any),
  (["ascii"], .ascii),
  (["assigned"], .assigned),
  (["word"], .word),
  (["l", "letter"], .generalGroup .letter),
  (["m", "mark", "combiningmark"], .generalGroup .mark),
  (["n", "number"], .generalGroup .number),
  (["p", "punctuation", "punct"], .generalGroup .punctuation),
  (["s", "symbol"], .generalGroup .symbol),
  (["z", "separator"], .generalGroup .separator),
  (["c", "other"], .generalGroup .other),
  (["lu", "uppercaseletter"], .generalCategory .uppercaseLetter),
  (["ll", "lowercaseletter"], .generalCategory .lowercaseLetter),
  (["lt", "titlecaseletter"], .generalCategory .titlecaseLetter),
  (["lm", "modifierletter"], .generalCategory .modifierLetter),
  (["lo", "otherletter"], .generalCategory .otherLetter),
  (["mn", "nonspacingmark"], .generalCategory .nonSpacingMark),
  (["mc", "spacingmark", "combiningspacingmark"], .generalCategory .combiningSpacingMark),
  (["me", "enclosingmark"], .generalCategory .enclosingMark),
  (["nd", "decimalnumber", "digit", "decimaldigit"], .decimalDigit),
  (["nl", "letternumber"], .generalCategory .letterNumber),
  (["no", "othernumber"], .generalCategory .otherNumber),
  (["pc", "connectorpunctuation"], .generalCategory .connectorPunctuation),
  (["pd", "dashpunctuation"], .generalCategory .dashPunctuation),
  (["ps", "openpunctuation"], .generalCategory .startPunctuation),
  (["pe", "closepunctuation"], .generalCategory .endPunctuation),
  (["pi", "initialpunctuation"], .generalCategory .initialPunctuation),
  (["pf", "finalpunctuation"], .generalCategory .finalPunctuation),
  (["po", "otherpunctuation"], .generalCategory .otherPunctuation),
  (["sm", "mathsymbol"], .generalCategory .mathSymbol),
  (["sc", "currencysymbol"], .generalCategory .currencySymbol),
  (["sk", "modifiersymbol"], .generalCategory .modifierSymbol),
  (["so", "othersymbol"], .generalCategory .otherSymbol),
  (["zs", "spaceseparator"], .generalCategory .spaceSeparator),
  (["zl", "lineseparator"], .generalCategory .lineSeparator),
  (["zp", "paragraphseparator"], .generalCategory .paragraphSeparator),
  (["cc", "control", "cntrl"], .generalCategory .controlChar),
  (["cf", "format"], .generalCategory .formatChar),
  (["cs", "surrogate"], .generalCategory .surrogate),
  (["co", "privateuse"], .generalCategory .privateUseChar),
  (["cn", "unassigned"], .generalCategory .unassigned),
  (["alphabetic", "alpha"], .alphabetic),
  (["whitespace", "space"], .whiteSpace),
  (["asciihexdigit", "ahex"], .binary .asciiHexDigit),
  (["hexdigit", "hex"], .binary .hexDigit),
  (["bidicontrol"], .binary .bidiControl),
  (["cased"], .binary .cased),
  (["caseignorable"], .binary .caseIgnorable),
  (["changeswhencasefolded"], .binary .changesWhenCasefolded),
  (["changeswhencasemapped"], .binary .changesWhenCasemapped),
  (["changeswhenlowercased"], .binary .changesWhenLowercased),
  (["changeswhentitlecased"], .binary .changesWhenTitlecased),
  (["changeswhenuppercased"], .binary .changesWhenUppercased),
  (["defaultignorablecodepoint"], .binary .defaultIgnorableCodePoint),
  (["deprecated"], .binary .deprecated),
  (["diacritic"], .binary .diacritic),
  (["extender"], .binary .extender),
  (["graphemebase"], .binary .graphemeBase),
  (["graphemeextend"], .binary .graphemeExtend),
  (["idcontinue", "idc"], .binary .idContinue),
  (["idstart", "ids"], .binary .idStart),
  (["ideographic", "ideo"], .binary .ideographic),
  (["joincontrol"], .binary .joinControl),
  (["logicalorderexception"], .binary .logicalOrderException),
  (["lowercase", "lower"], .binary .lowercase),
  (["math"], .binary .math),
  (["noncharactercodepoint"], .binary .noncharacterCodePoint),
  (["quotationmark", "qmark"], .binary .quotationMark),
  (["radical"], .binary .radical),
  (["softdotted"], .binary .softDotted),
  (["terminalpunctuation"], .binary .terminalPunctuation),
  (["unifiedideograph"], .binary .unifiedIdeograph),
  (["uppercase", "upper"], .binary .uppercase),
  (["xidcontinue", "xidc"], .binary .xidContinue),
  (["xidstart", "xids"], .binary .xidStart)]

/-- `trim` of `property_from_name`: the name without blanks at its ends. -/
def trimBlanks (s : Bytes) : Bytes :=
  let blank (c : UInt8) : Bool := c == 0x20 || c == 0x09 || c == 0x0D || c == 0x0A
  ((s.dropWhile blank).reverse.dropWhile blank).reverse

def normName (s : Bytes) : Bytes :=
  (s.filter (fun c => c != 0x5F && c != 0x2D && c != 0x20)).map toLowerByte

/-- `property_from_name`; a `gc=` value is looked up again, and the fuel is the length of the name, which the value
is shorter than. -/
def propertyFromName (icu : Icu) : Nat → Bytes → Bool → Except String UnicodeProperty
  | 0, _, _ => .error "pergrep regex: unknown Unicode property: "
  | fuel + 1, name, negated =>
    let name := trimBlanks name
    let isEq (c : UInt8) : Bool := c == 0x3D || c == 0x3A
    let script (v : Bytes) : Option UnicodeProperty :=
      (icu.scriptCode (v.takeWhile (· != 0))).map (fun code => ⟨.script code, negated⟩)
    let plain (name : Bytes) : Except String UnicodeProperty :=
      match propertyNames.find? (fun row => row.1.any (fun n => asciiBytes n == normName name)) with
      | some row => .ok ⟨row.2, negated⟩
      | none =>
        match script name with
        | some p => .ok p
        | none   => .error ("pergrep regex: unknown Unicode property: " ++ bytesText name)
    if name.any isEq then
      let rawKey := trimBlanks (name.takeWhile (fun c => !isEq c))
      let rawVal := trimBlanks ((name.dropWhile (fun c => !isEq c)).drop 1)
      if ["sc", "script", "scx", "scriptextensions"].any (fun n => asciiBytes n == normName rawKey) then
        match script rawVal with
        | some p => .ok p
        | none   => .error ("pergrep regex: unknown Unicode script: " ++ bytesText rawVal)
      else if ["gc", "generalcategory", "category"].any (fun n => asciiBytes n == normName rawKey) then
        propertyFromName icu fuel rawVal negated
      else plain rawVal
    else plain name

end Pergrep
