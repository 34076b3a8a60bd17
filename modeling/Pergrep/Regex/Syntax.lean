import Pergrep.Unicode
/-!
# Syntax — pattern options, character classes and the regex tree

`PatternOptions` of `pergrep.hpp`; `CharClassSpec`, `RegexNode`, `NfaInst` and `RegexProgram`'s parts of
`internal.hpp`.  The one `RegexNode` struct of the source, with a `kind` tag and the fields every kind may use, is an
inductive type here: each constructor carries the fields its kind reads, and all of them the five mode flags that
`Parser::node` stamps on a node.  The eight position assertions differ in nothing but the test they make, so they are
one constructor over `AssertKind`.
-/
namespace Pergrep

inductive PatternKind where | regex | fixed
  deriving DecidableEq, Repr

inductive CaseMode where | sensitive | insensitive | smart
  deriving DecidableEq, Repr

inductive Engine where | default_ | pcre2Compat | auto
  deriving DecidableEq, Repr

structure PatternOptions where
  kind : PatternKind := .regex
  caseMode : CaseMode := .sensitive
  engine : Engine := .default_
  word : Bool := false
  line : Bool := false
  multiline : Bool := false
  dotall : Bool := false
  unicode : Bool := true
  crlf : Bool := false
  deriving DecidableEq, Repr

def sizeMax : Nat := 2 ^ 64 - 1

/-! ## Character classes -/

/-- The general-category masks `U_GC_L_MASK`, …, `U_GC_C_MASK`. -/
inductive GcGroup where | letter | mark | number | punctuation | symbol | separator | other
  deriving DecidableEq, Repr

/-- The categories of a mask: `U_GET_GC_MASK(cp) & mask` is non-zero for these. -/
def GcGroup.categories : GcGroup → List UCharCategory
  | .letter => [.uppercaseLetter, .lowercaseLetter, .titlecaseLetter, .modifierLetter, .otherLetter]
  | .mark => [.nonSpacingMark, .enclosingMark, .combiningSpacingMark]
  | .number => [.decimalDigitNumber, .letterNumber, .otherNumber]
  | .punctuation => [.dashPunctuation, .startPunctuation, .endPunctuation, .connectorPunctuation, .otherPunctuation,
      .initialPunctuation, .finalPunctuation]
  | .symbol => [.mathSymbol, .currencySymbol, .modifierSymbol, .otherSymbol]
  | .separator => [.spaceSeparator, .lineSeparator, .paragraphSeparator]
  | .other => [.unassigned, .controlChar, .formatChar, .privateUseChar, .surrogate]

/-- `UnicodeProperty::Kind` with its value; the `Binary` values −1, −2 and −3 are `any`, `ascii` and `assigned`. -/
inductive PropertyKind where
  | generalCategory (c : UCharCategory)
  | generalGroup (g : GcGroup)
  | script (code : Nat)
  | any
  | ascii
  | assigned
  | binary (p : UProperty)
  | alphabetic
  | whiteSpace
  | word
  | decimalDigit
  | asciiDigit
  | asciiWord
  | asciiSpace
  deriving DecidableEq, Repr

structure UnicodeProperty where
  kind : PropertyKind
  negated : Bool := false
  deriving DecidableEq, Repr

structure CharClassSpec where
  ranges : List (Nat × Nat) := []
  properties : List UnicodeProperty := []
  negated : Bool := false
  deriving DecidableEq, Repr

section
variable (icu : Icu)

def propertyMatch (p : UnicodeProperty) (cp : Nat) : Bool :=
  let hit : Bool :=
    match p.kind with
    | .any => true
    | .ascii => decide (cp ≤ 127)
    | .assigned => icu.charType cp != .unassigned
    | .binary u => icu.hasBinaryProperty cp u
    | .alphabetic => icu.hasBinaryProperty cp .alphabetic
    | .whiteSpace => icu.isUWhiteSpace cp
    | .word => icu.unicodeWord cp
    | .decimalDigit => icu.charType cp == .decimalDigitNumber
    | .asciiDigit => decide (0x30 ≤ cp ∧ cp ≤ 0x39)
    | .asciiWord => asciiWordCp cp
    | .asciiSpace => cp == 0x20 || cp == 0x09 || cp == 0x0A || cp == 0x0D || cp == 0x0C || cp == 0x0B
    | .generalGroup g => g.categories.contains (icu.charType cp)
    | .generalCategory c => icu.charType cp == c
    | .script code => icu.getScript cp == some code
  if p.negated then !hit else hit

/-- One range of `match_raw`: as written and, under `icase`, folded, lowered and raised at both ends. -/
def rangeMatch (icase : Bool) (x : Nat) (r : Nat × Nat) : Bool :=
  let within (f : Nat → Nat) : Bool := decide (f r.1 ≤ f r.2) && decide (f r.1 ≤ f x) && decide (f x ≤ f r.2)
  (decide (r.1 ≤ x) && decide (x ≤ r.2)) ||
    (icase && (within icu.foldCase || within icu.toLower || within icu.toUpper))

def matchRaw (cls : CharClassSpec) (icase : Bool) (x : Nat) : Bool :=
  cls.ranges.any (rangeMatch icu icase x) || cls.properties.any (fun p => propertyMatch icu p x)

def classMatch (cls : CharClassSpec) (cp : Nat) (icase : Bool) : Bool :=
  let hit :=
    matchRaw icu cls icase cp ||
      (icase && [icu.foldCase cp, icu.toLower cp, icu.toUpper cp, icu.toTitle cp].any
        (fun v => v != cp && matchRaw icu cls icase v))
  if cls.negated then !hit else hit

end

/-! ## The tree -/

/-- The mode flags `Parser::node` stamps on every node. -/
structure NodeFlags where
  icase : Bool := false
  dotall : Bool := false
  multiline : Bool := false
  unicode : Bool := true
  crlf : Bool := false
  deriving DecidableEq, Repr

inductive AssertKind where
  | begin_
  | end_
  | absBegin
  | absEnd
  | endNewline
  | wordBoundary (negative : Bool)
  | wordStartHalf
  | wordEndHalf
  deriving DecidableEq, Repr

inductive RegexNode where
  | empty (f : NodeFlags)
  | literal (f : NodeFlags) (literal : Bytes)
  | dot (f : NodeFlags)
  | cls (f : NodeFlags) (charClass : CharClassSpec)
  | assert (f : NodeFlags) (k : AssertKind)
  | concat (f : NodeFlags) (children : List RegexNode)
  | alt (f : NodeFlags) (children : List RegexNode)
  | repeat_ (f : NodeFlags) (min max : Nat) (greedy : Bool) (child : RegexNode)
  | group (f : NodeFlags) (group : Nat) (name : Bytes) (child : RegexNode)
  | backRef (f : NodeFlags) (group : Nat)
  | lookAhead (f : NodeFlags) (negative : Bool) (child : RegexNode)
  | lookBehind (f : NodeFlags) (negative : Bool) (child : RegexNode)
  deriving Repr

mutual
/-- No back-reference and no look-around below: what the NFA compiler accepts. -/
def RegexNode.regular : RegexNode → Bool
  | .empty _ | .literal _ _ | .dot _ | .cls _ _ | .assert _ _ => true
  | .concat _ cs | .alt _ cs => RegexNode.regularAll cs
  | .repeat_ _ _ _ _ c | .group _ _ _ c => c.regular
  | .backRef _ _ | .lookAhead _ _ _ | .lookBehind _ _ _ => false

def RegexNode.regularAll : List RegexNode → Bool
  | [] => true
  | c :: cs => c.regular && RegexNode.regularAll cs
end

theorem RegexNode.regularAll_iff : ∀ {cs : List RegexNode}, RegexNode.regularAll cs = true ↔ ∀ c ∈ cs, c.regular = true
  | [] => by simp [RegexNode.regularAll]
  | c :: cs => by simp [RegexNode.regularAll, @RegexNode.regularAll_iff cs]

/-- A structural induction on the tree in which every member of a list of children carries the hypothesis. -/
theorem RegexNode.recChildren {P : RegexNode → Prop}
    (empty : ∀ f, P (.empty f)) (literal : ∀ f l, P (.literal f l)) (dot : ∀ f, P (.dot f))
    (cls : ∀ f s, P (.cls f s)) (assert : ∀ f k, P (.assert f k))
    (concat : ∀ f cs, (∀ c ∈ cs, P c) → P (.concat f cs))
    (alt : ∀ f cs, (∀ c ∈ cs, P c) → P (.alt f cs))
    (repeat_ : ∀ f mn mx g c, P c → P (.repeat_ f mn mx g c))
    (group : ∀ f g nm c, P c → P (.group f g nm c))
    (backRef : ∀ f g, P (.backRef f g))
    (lookAhead : ∀ f neg c, P c → P (.lookAhead f neg c))
    (lookBehind : ∀ f neg c, P c → P (.lookBehind f neg c)) (n : RegexNode) : P n :=
  @RegexNode.rec P (fun cs => ∀ c ∈ cs, P c)
    empty literal dot cls assert concat alt repeat_ group backRef lookAhead lookBehind
    (fun _ h => absurd h List.not_mem_nil)
    (fun _ _ hc hcs _ h => (List.mem_cons.1 h).elim (fun e => e ▸ hc) (hcs _)) n

end Pergrep
