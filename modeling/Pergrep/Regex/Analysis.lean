import Pergrep.Regex.Syntax
import Pergrep.Utf8
/-!
# Analysis — `analyze_regex`: the widths of a tree

`RegexBound` is a width with 64-bit saturation to `unbounded`; `RegexAnalysis` keeps what the planner and the bounded
execution read: widths in bytes and runes, how far assertions look, and which constructs rule a bounded region out.
-/
namespace Pergrep

inductive RegexBound where
  | finite (value : Nat)
  | unknown
  | unbounded
  deriving DecidableEq, Repr

namespace RegexBound

def uint64Max : Nat := 2 ^ 64 - 1

def isFinite : RegexBound → Bool
  | .finite _ => true
  | _ => false

def value : RegexBound → Nat
  | .finite n => n
  | _ => 0

def add : RegexBound → RegexBound → RegexBound
  | .unbounded, _ | _, .unbounded => .unbounded
  | .unknown, _ | _, .unknown => .unknown
  | .finite a, .finite b => if uint64Max - b < a then .unbounded else .finite (a + b)

def mul (a : RegexBound) (n : Nat) : RegexBound :=
  if n = 0 then .finite 0
  else
    match a with
    | .unbounded => .unbounded
    | .unknown => .unknown
    | .finite v => if uint64Max / n < v then .unbounded else .finite (v * n)

def max_ : RegexBound → RegexBound → RegexBound
  | .unbounded, _ | _, .unbounded => .unbounded
  | .unknown, _ | _, .unknown => .unknown
  | .finite a, .finite b => .finite (max a b)

def min_ : RegexBound → RegexBound → RegexBound
  | .finite a, .finite b => .finite (min a b)
  | _, _ => .unknown

end RegexBound

structure RegexAnalysis where
  byteLower : RegexBound := .finite 0
  byteUpper : RegexBound := .finite 0
  runeLower : RegexBound := .finite 0
  runeUpper : RegexBound := .finite 0
  forwardLookaheadBytes : RegexBound := .finite 0
  forwardLookaheadRunes : RegexBound := .finite 0
  backwardLookbehindBytes : RegexBound := .finite 0
  backwardLookbehindRunes : RegexBound := .finite 0
  nullable : Bool := false
  nullableKnown : Bool := true
  hasBackreference : Bool := false
  hasLookahead : Bool := false
  hasLookbehind : Bool := false
  hasUnboundedRepeat : Bool := false
  repeatLimitApplied : Bool := false
  lookbehindLimitApplied : Bool := false
  deriving DecidableEq, Repr

namespace RegexAnalysis

/-- `merge_analysis`: how far assertions look, and the flags. -/
def merge (d s : RegexAnalysis) : RegexAnalysis :=
  { d with
    forwardLookaheadBytes := d.forwardLookaheadBytes.max_ s.forwardLookaheadBytes
    forwardLookaheadRunes := d.forwardLookaheadRunes.max_ s.forwardLookaheadRunes
    backwardLookbehindBytes := d.backwardLookbehindBytes.max_ s.backwardLookbehindBytes
    backwardLookbehindRunes := d.backwardLookbehindRunes.max_ s.backwardLookbehindRunes
    hasBackreference := d.hasBackreference || s.hasBackreference
    hasLookahead := d.hasLookahead || s.hasLookahead
    hasLookbehind := d.hasLookbehind || s.hasLookbehind
    hasUnboundedRepeat := d.hasUnboundedRepeat || s.hasUnboundedRepeat
    repeatLimitApplied := d.repeatLimitApplied || s.repeatLimitApplied
    lookbehindLimitApplied := d.lookbehindLimitApplied || s.lookbehindLimitApplied }

def one : RegexAnalysis :=
  { byteLower := .finite 1, byteUpper := .finite 4, runeLower := .finite 1, runeUpper := .finite 1 }

/-- A literal; folding may change its width in bytes. -/
def literal (f : NodeFlags) (l : Bytes) : RegexAnalysis :=
  { runeLower := .finite (runes l).length, runeUpper := .finite (runes l).length
    byteLower := if f.icase then .unknown else .finite l.length
    byteUpper := if f.icase then .unknown else .finite l.length
    nullable := l.isEmpty }

/-- An assertion takes nothing; it looks back, ahead, or both. -/
def assert (f : NodeFlags) : AssertKind → RegexAnalysis
  | .begin_ =>
    { nullable := true, backwardLookbehindBytes := .finite (if f.crlf then 2 else 1), backwardLookbehindRunes := .finite 1 }
  | .end_ | .endNewline =>
    { nullable := true, forwardLookaheadBytes := .finite (if f.crlf then 2 else 1), forwardLookaheadRunes := .finite 1 }
  | .absBegin | .absEnd => { nullable := true }
  | .wordBoundary _ =>
    { nullable := true, backwardLookbehindBytes := .finite 4, backwardLookbehindRunes := .finite 1
      forwardLookaheadBytes := .finite 4, forwardLookaheadRunes := .finite 1 }
  | .wordStartHalf => { nullable := true, backwardLookbehindBytes := .finite 4, backwardLookbehindRunes := .finite 1 }
  | .wordEndHalf => { nullable := true, forwardLookaheadBytes := .finite 4, forwardLookaheadRunes := .finite 1 }

def concatStep (o c : RegexAnalysis) : RegexAnalysis :=
  { o.merge c with
    byteLower := o.byteLower.add c.byteLower, byteUpper := o.byteUpper.add c.byteUpper
    runeLower := o.runeLower.add c.runeLower, runeUpper := o.runeUpper.add c.runeUpper
    nullable := o.nullable && c.nullable, nullableKnown := o.nullableKnown && c.nullableKnown }

def altFirst (c : RegexAnalysis) : RegexAnalysis :=
  merge { byteLower := c.byteLower, byteUpper := c.byteUpper, runeLower := c.runeLower, runeUpper := c.runeUpper
          nullable := c.nullable, nullableKnown := c.nullableKnown } c

def altStep (o c : RegexAnalysis) : RegexAnalysis :=
  { o.merge c with
    byteLower := o.byteLower.min_ c.byteLower, byteUpper := o.byteUpper.max_ c.byteUpper
    runeLower := o.runeLower.min_ c.runeLower, runeUpper := o.runeUpper.max_ c.runeUpper
    nullable := o.nullable || c.nullable, nullableKnown := o.nullableKnown && c.nullableKnown }

/-- A repetition; past the iteration limit of the engine the width is computed all the same. -/
def repeat_ (c : RegexAnalysis) (mn mx : Nat) : RegexAnalysis :=
  let o := { merge {} c with
    nullable := mn == 0 || c.nullable, nullableKnown := c.nullableKnown
    byteLower := c.byteLower.mul mn, runeLower := c.runeLower.mul mn }
  if mx = sizeMax then
    { o with hasUnboundedRepeat := true, repeatLimitApplied := true, byteUpper := .unbounded, runeUpper := .unbounded }
  else
    { o with
      repeatLimitApplied := o.repeatLimitApplied || decide (10000 < mx)
      byteUpper := c.byteUpper.mul mx, runeUpper := c.runeUpper.mul mx }

def backRef : RegexAnalysis :=
  { hasBackreference := true, nullableKnown := false, byteLower := .unknown, runeLower := .unknown
    byteUpper := .unbounded, runeUpper := .unbounded }

def lookAhead (c : RegexAnalysis) : RegexAnalysis :=
  merge
    { nullable := true, hasLookahead := true
      forwardLookaheadBytes := c.byteUpper.add c.forwardLookaheadBytes
      forwardLookaheadRunes := c.runeUpper.add c.forwardLookaheadRunes
      backwardLookbehindBytes := c.backwardLookbehindBytes
      backwardLookbehindRunes := c.backwardLookbehindRunes } c

def lookBehind (c : RegexAnalysis) : RegexAnalysis :=
  merge
    { nullable := true, hasLookbehind := true, lookbehindLimitApplied := true
      backwardLookbehindBytes := c.byteUpper.add c.backwardLookbehindBytes
      backwardLookbehindRunes := c.runeUpper.add c.backwardLookbehindRunes
      forwardLookaheadBytes := c.forwardLookaheadBytes
      forwardLookaheadRunes := c.forwardLookaheadRunes } c

end RegexAnalysis

open RegexAnalysis

mutual
/-- `analyze_regex`; the separator it is given only shows in fields that are reported. -/
def analyzeRegex : RegexNode → RegexAnalysis
  | .empty _ => { nullable := true }
  | .literal f l => RegexAnalysis.literal f l
  | .dot _ | .cls _ _ => one
  | .assert f k => RegexAnalysis.assert f k
  | .group _ _ _ c => analyzeRegex c
  | .concat _ cs => analyzeConcat cs { nullable := true }
  | .alt _ cs => analyzeAlt cs
  | .repeat_ _ mn mx _ c => RegexAnalysis.repeat_ (analyzeRegex c) mn mx
  | .backRef _ _ => RegexAnalysis.backRef
  | .lookAhead _ _ c => RegexAnalysis.lookAhead (analyzeRegex c)
  | .lookBehind _ _ c => RegexAnalysis.lookBehind (analyzeRegex c)

def analyzeConcat : List RegexNode → RegexAnalysis → RegexAnalysis
  | [], o => o
  | c :: cs, o => analyzeConcat cs (concatStep o (analyzeRegex c))

/-- The first branch gives the widths; one without branches is empty. -/
def analyzeAlt : List RegexNode → RegexAnalysis
  | [] => { nullable := true }
  | c :: cs => analyzeAltRest cs (altFirst (analyzeRegex c))

def analyzeAltRest : List RegexNode → RegexAnalysis → RegexAnalysis
  | [], o => o
  | c :: cs, o => analyzeAltRest cs (altStep o (analyzeRegex c))
end

end Pergrep
