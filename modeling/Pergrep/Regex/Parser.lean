import Pergrep.Regex.Property
/-!
# Parser — `Parser` of `regex.cpp`

A recursive-descent parser over the pattern's bytes: `alt`, `concat`, `repeat` and `atom` call one another, `escaped`
and `charClass` read what follows a backslash or a bracket.  The state is the parser object's fields.  An inline flag
group `(?flags)` changes the options in place and nothing restores them but the end of a `(?flags: … )` group, as in
the source.

The mutually recursive functions take fuel, one unit a call; `parseFuel n` is enough for `n` bytes (`parse_fueled`).
-/
namespace Pergrep
namespace Parser

/-- The fields of `Parser`; `s_` never changes and is a parameter of the functions. -/
structure PState where
  i : Nat := 0
  opt : PatternOptions
  groups : Nat := 0
  extended : Bool := false
  groupNames : List Bytes := [[]]
  ignoreWs : Bool := false
  swapGreed : Bool := false
  deriving DecidableEq, Repr

abbrev P (α : Type) := StateT PState (Except String) α

section
variable (icu : Icu) (s : Bytes)

def fail {α : Type} (m : String) : P α := do
  throw ("pergrep regex: " ++ m ++ " at byte " ++ toString (← get).i)

def peek : P (Option UInt8) := do return s[(← get).i]?

def advance (k : Nat) : P Unit := modify (fun st => { st with i := st.i + k })

def eat (c : UInt8) : P Bool := do
  if (← peek s) = some c then
    advance 1
    return true
  return false

/-- `get` -/
def getByte : P UInt8 := do
  match ← peek s with
  | some c =>
    advance 1
    return c
  | none => fail "unexpected end of pattern"

/-- The number of bytes `skip_ignored` steps over: white space, and comments with the line feed that ends them. -/
def ignoredPrefix : Bytes → Bool → Nat
  | [], _ => 0
  | b :: t, true  => if b = 0x0A then 1 + ignoredPrefix t false else 1 + ignoredPrefix t true
  | b :: t, false =>
    if isSpaceByte b then 1 + ignoredPrefix t false
    else if b = 0x23 then 1 + ignoredPrefix t true
    else 0

def skipIgnored : P Unit := do
  let st ← get
  if st.ignoreWs then advance (ignoredPrefix (s.drop st.i) false)

def nodeFlags : P NodeFlags := do
  let o := (← get).opt
  return { icase := o.caseMode == .insensitive, dotall := o.dotall, multiline := o.multiline, unicode := o.unicode,
           crlf := o.crlf }

def numberLoop : Bytes → Nat → P Nat
  | [], x => return x
  | b :: t, x => do
    if isDigitByte b then
      advance 1
      let d := b.toNat - 0x30
      if (sizeMax - d) / 10 < x then fail "repetition overflow"
      else numberLoop t (x * 10 + d)
    else return x

def number : P Nat := do
  match ← peek s with
  | some b => if isDigitByte b then numberLoop (s.drop (← get).i) 0 else fail "expected number"
  | none   => fail "expected number"

def patternRune : P Nat := do
  let i := (← get).i
  match s.drop i with
  | [] => fail "unexpected end of pattern"
  | b :: t =>
    match u8Next (b :: t) with
    | some (cp, w) =>
      advance w
      return cp
    | none =>
      advance 1
      return b.toNat

def nameLoop : Bytes → P Bytes
  | [] => return []
  | c :: t => do
    if c = 0x3E then return []
    advance 1
    if isAlnumByte c || c == 0x5F then
      return c :: (← nameLoop t)
    else fail "bad capture name"

def captureName : P Bytes := do
  let name ← nameLoop (s.drop (← get).i)
  if name.isEmpty then fail "bad named capture"
  if ← eat s 0x3E then return name
  else fail "bad named capture"

def setFlag (f : UInt8) (val : Bool) : P Unit :=
  modify (fun st =>
    if f = 0x69 then { st with opt := { st.opt with caseMode := if val then .insensitive else .sensitive } }
    else if f = 0x6D then { st with opt := { st.opt with multiline := val } }
    else if f = 0x73 then { st with opt := { st.opt with dotall := val } }
    else if f = 0x78 then { st with ignoreWs := val }
    else if f = 0x55 then { st with swapGreed := val }
    else { st with opt := { st.opt with unicode := val } })

/-- The flags up to the `:` or `)`; the answer is `seen`. -/
def flagsLoop : Bytes → Bool → Bool → P Bool
  | [], seen, _ => return seen
  | f :: t, seen, unset => do
    if f = 0x2D then
      advance 1
      flagsLoop t seen true
    else if f = 0x3A ∨ f = 0x29 then return seen
    else if [0x69, 0x6D, 0x73, 0x55, 0x78, 0x75].contains f then
      advance 1
      setFlag f (!unset)
      flagsLoop t true unset
    else fail "unsupported inline flag"

/-- `hex` -/
def hexVal (h : UInt8) : Option Nat :=
  if isDigitByte h then some (h.toNat - 0x30)
  else if 0x61 ≤ h ∧ h ≤ 0x66 then some (h.toNat - 0x61 + 10)
  else if 0x41 ≤ h ∧ h ≤ 0x46 then some (h.toNat - 0x41 + 10)
  else none

def hexEscape : P UInt8 := do
  match s.drop (← get).i with
  | h :: l :: _ =>
    advance 2
    match hexVal h, hexVal l with
    | some a, some b => return UInt8.ofNat (a * 16 + b)
    | _, _ => fail "bad hex escape"
  | _ => fail "short hex escape"

def propertyName : P Bytes := do
  if ← eat s 0x7B then
    let name := (s.drop (← get).i).takeWhile (· != 0x7D)
    advance name.length
    if ← eat s 0x7D then return name
    else fail "unclosed Unicode property"
  else
    match ← peek s with
    | some c =>
      advance 1
      return [c]
    | none => fail "missing Unicode property"

def property (negated : Bool) : P UnicodeProperty := do
  let name ← propertyName s
  match propertyFromName icu (name.length + 1) name negated with
  | .ok p => return p
  | .error e => throw e

/-- `\d`, `\w`, `\s` and their negations: the property of the letter. -/
def perlClass (c : UInt8) : P UnicodeProperty := do
  let unicode := (← get).opt.unicode
  let lc := toLowerByte c
  let kind : PropertyKind :=
    if unicode then
      if lc = 0x64 then .decimalDigit else if lc = 0x77 then .word else .whiteSpace
    else
      if lc = 0x64 then .asciiDigit else if lc = 0x77 then .asciiWord else .asciiSpace
  return ⟨kind, isUpperByte c⟩

def isPerlClass (c : UInt8) : Bool := [0x64, 0x44, 0x77, 0x57, 0x73, 0x53].contains c

/-- The escapes that stand for one control character, and it; `\0` only outside a class. -/
def controlEscape (c : UInt8) : Option UInt8 :=
  if c = 0x6E then some 0x0A
  else if c = 0x72 then some 0x0D
  else if c = 0x74 then some 0x09
  else if c = 0x66 then some 0x0C
  else if c = 0x76 then some 0x0B
  else if c = 0x61 then some 0x07
  else if c = 0x65 then some 0x1B
  else none

def escaped : P RegexNode := do
  let c ← getByte s
  if 0x31 ≤ c ∧ c ≤ 0x39 then
    modify (fun st => { st with extended := true })
    return .backRef (← nodeFlags) (c.toNat - 0x30)
  else if c = 0x62 then return .assert (← nodeFlags) (.wordBoundary false)
  else if c = 0x42 then return .assert (← nodeFlags) (.wordBoundary true)
  else if c = 0x41 then return .assert (← nodeFlags) .absBegin
  else if c = 0x7A then return .assert (← nodeFlags) .absEnd
  else if c = 0x5A then return .assert (← nodeFlags) .endNewline
  else if c = 0x70 ∨ c = 0x50 then
    let p ← property icu s (c == 0x50)
    return .cls (← nodeFlags) { properties := [p] }
  else if isPerlClass c then
    let p ← perlClass c
    return .cls (← nodeFlags) { properties := [p] }
  else
    match controlEscape c with
    | some b => return .literal (← nodeFlags) [b]
    | none =>
      if c = 0x30 then return .literal (← nodeFlags) [0]
      else if c = 0x78 then
        let b ← hexEscape s
        return .literal (← nodeFlags) [b]
      else if isAlnumByte c then fail ("unrecognized escape sequence: \\" ++ bytesText [c])
      else return .literal (← nodeFlags) [c]

def classRune : P Nat := do
  if ← eat s 0x5C then
    let e ← getByte s
    match controlEscape e with
    | some b => return b.toNat
    | none =>
      if e = 0x78 then
        let b ← hexEscape s
        return b.toNat
      else if isAlnumByte e then
        fail ("unrecognized escape sequence inside character class: \\" ++ bytesText [e])
      else return e.toNat
  else patternRune s

/-- The items of a bracket expression; `prev` is the code point a `-` after it would start a range from. -/
def classLoop : Nat → Bool → Option Nat → CharClassSpec → P CharClassSpec
  | 0, _, _, _ => fail "unclosed character class"
  | fuel + 1, first, prev, spec => do
    let i := (← get).i
    match s[i]? with
    | none => fail "unclosed character class"
    | some c =>
      if c = 0x5D ∧ !first then
        advance 1
        return spec
      else
        let e := if c = 0x5C then s[i + 1]? else none
        if e = some 0x70 ∨ e = some 0x50 then
          advance 2
          let p ← property icu s (e == some 0x50)
          classLoop fuel false none { spec with properties := spec.properties ++ [p] }
        else if e.any isPerlClass then
          advance 2
          let p ← perlClass (e.getD 0)
          classLoop fuel false none { spec with properties := spec.properties ++ [p] }
        else
          match prev with
          | some lo =>
            if c = 0x2D ∧ i + 1 < s.length ∧ s[i + 1]? ≠ some 0x5D then
              advance 1
              let hi ← classRune s
              if hi < lo then fail "descending class range"
              else classLoop fuel false none { spec with ranges := spec.ranges.dropLast ++ [(lo, hi)] }
            else
              let cp ← classRune s
              classLoop fuel false (some cp) { spec with ranges := spec.ranges ++ [(cp, cp)] }
          | none =>
            let cp ← classRune s
            classLoop fuel false (some cp) { spec with ranges := spec.ranges ++ [(cp, cp)] }

def charClass : P RegexNode := do
  let f ← nodeFlags
  let negated ← eat s 0x5E
  let spec ← classLoop icu s (s.length + 1) true none { negated := negated }
  return .cls f spec

/-- One more item of a concatenation: a literal joins the literal before it when both have the same case mode. -/
def pushMerged (acc : List RegexNode) (x : RegexNode) : List RegexNode :=
  match acc, x with
  | .literal f a :: t, .literal g b => if f.icase = g.icase then .literal f (a ++ b) :: t else x :: acc
  | _, _ => x :: acc

/-- The items of a concatenation with neighbouring literals joined. -/
def mergeLiterals (xs : List RegexNode) : List RegexNode := (xs.foldl pushMerged []).reverse

/-- The quantifier after an atom: its bounds, `none` when there is none. -/
def quantifier : P (Option (Nat × Nat)) := do
  if ← eat s 0x2A then return some (0, sizeMax)
  else if ← eat s 0x2B then return some (1, sizeMax)
  else if ← eat s 0x3F then return some (0, 1)
  else if ← eat s 0x7B then
    let mn ← number s
    let mx ←
      (do if ← eat s 0x2C then
            match ← peek s with
            | some c => if c != 0x7D then number s else pure sizeMax
            | none => pure sizeMax
          else pure mn)
    if !(← eat s 0x7D) then fail "unclosed repetition"
    if mx ≠ sizeMax ∧ mx < mn then fail "invalid repetition range"
    return some (mn, mx)
  else return none

def expectClose (m : String) : P Unit := do
  if !(← eat s 0x29) then fail m

mutual

def alt : Nat → P RegexNode
  | 0 => throw "out of fuel"
  | fuel + 1 => do
    let x ← concat fuel
    let xs ← altRest fuel
    if xs.isEmpty then return x
    else return .alt (← nodeFlags) (x :: xs)

/-- `while (eat('|')) xs.push_back(concat())` -/
def altRest : Nat → P (List RegexNode)
  | 0 => throw "out of fuel"
  | fuel + 1 => do
    if ← eat s 0x7C then
      let x ← concat fuel
      let xs ← altRest fuel
      return x :: xs
    else return []

def concat : Nat → P RegexNode
  | 0 => throw "out of fuel"
  | fuel + 1 => do
    let xs ← concatItems fuel
    match mergeLiterals xs with
    | []  => return .empty (← nodeFlags)
    | [y] => return y
    | ys  => return .concat (← nodeFlags) ys

def concatItems : Nat → P (List RegexNode)
  | 0 => throw "out of fuel"
  | fuel + 1 => do
    skipIgnored s
    match ← peek s with
    | none => return []
    | some c =>
      if c = 0x29 ∨ c = 0x7C then return []
      else
        let x ← «repeat» fuel
        let xs ← concatItems fuel
        return x :: xs

def «repeat» : Nat → P RegexNode
  | 0 => throw "out of fuel"
  | fuel + 1 => do
    let a ← atom fuel
    match ← quantifier s with
    | none => return a
    | some (mn, mx) =>
      let f ← nodeFlags
      let lazy ← eat s 0x3F
      let swap := (← get).swapGreed
      return .repeat_ f mn mx (if swap then lazy else !lazy) a

def atom : Nat → P RegexNode
  | 0 => throw "out of fuel"
  | fuel + 1 => do
    if ← eat s 0x5E then return .assert (← nodeFlags) .begin_
    else if ← eat s 0x24 then return .assert (← nodeFlags) .end_
    else if ← eat s 0x2E then return .dot (← nodeFlags)
    else if ← eat s 0x5B then charClass icu s
    else if ← eat s 0x28 then groupBody fuel
    else if ← eat s 0x5C then escaped icu s
    else
      let cp ← patternRune s
      return .literal (← nodeFlags) (appendUtf8 cp)

def groupBody : Nat → P RegexNode
  | 0 => throw "out of fuel"
  | fuel + 1 => do
    if ← eat s 0x3F then
      if ← eat s 0x50 then
        if ← eat s 0x3C then
          let name ← captureName s
          capture fuel name
        else fail "expected < after ?P"
      else if ← eat s 0x3A then
        let x ← alt fuel
        expectClose s "unclosed group"
        return x
      else if ← eat s 0x3D then look fuel false false
      else if ← eat s 0x21 then look fuel false true
      else if ← eat s 0x3C then
        if ← eat s 0x3D then look fuel true false
        else if ← eat s 0x21 then look fuel true true
        else
          let name ← captureName s
          capture fuel name
      else
        let saved ← get
        let seen ← flagsLoop (s.drop saved.i) false false
        if !seen then fail "unknown group extension"
        if ← eat s 0x29 then return .empty (← nodeFlags)
        else if ← eat s 0x3A then
          let x ← alt fuel
          skipIgnored s
          expectClose s "unclosed flagged group"
          modify (fun st => { st with opt := saved.opt, ignoreWs := saved.ignoreWs, swapGreed := saved.swapGreed })
          return x
        else fail "malformed inline flags"
    else capture fuel []

/-- A look-around: `behind` and `negative` are what its opening says. -/
def look : Nat → Bool → Bool → P RegexNode
  | 0, _, _ => throw "out of fuel"
  | fuel + 1, behind, negative => do
    modify (fun st => { st with extended := true })
    let f ← nodeFlags
    let x ← alt fuel
    expectClose s (if behind then "unclosed lookbehind" else "unclosed lookahead")
    return if behind then .lookBehind f negative x else .lookAhead f negative x

def capture : Nat → Bytes → P RegexNode
  | 0, _ => throw "out of fuel"
  | fuel + 1, name => do
    modify (fun st => { st with groups := st.groups + 1, groupNames := st.groupNames ++ [name] })
    let g := (← get).groups
    let f ← nodeFlags
    let x ← alt fuel
    expectClose s "unclosed group"
    return .group f g name x

end

end

/-- Fuel for a pattern of `n` bytes: between two calls of one function at least a byte is read. -/
def parseFuel (n : Nat) : Nat := 8 * n + 8

/-- What `parse` reads off the pattern before any analysis. -/
structure Parsed where
  ast : RegexNode
  groups : Nat
  extended : Bool
  groupNames : List Bytes
  deriving Repr

/-- `Parser::parse`, up to the extraction of `icase_literal` and the query representation. -/
def parse (icu : Icu) (s : Bytes) (opt : PatternOptions) : Except String Parsed := do
  let (n, st) ← (alt icu s (parseFuel s.length)).run { opt := opt }
  if st.i ≠ s.length then
    throw ("pergrep regex: unexpected trailing input at byte " ++ toString st.i)
  return ⟨n, st.groups, st.extended, st.groupNames⟩

end Parser
end Pergrep
