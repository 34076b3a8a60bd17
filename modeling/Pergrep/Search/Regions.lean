import Pergrep.Lib.Substr
import Pergrep.Regex.Analysis
import Pergrep.Regex.Program
/-!
# Regions — where a bounded pattern may match

A pattern of finite width whose branches have mandatory literals need only be tried near those literals.
`boundedRegexEligible` is the test; `literalOffsets` says how far from a match's start each literal stands;
`boundedRegexRegions` gives the regions around one literal, `boundedRegexRegionsJoined` those where all literals of a
branch stand together.
-/
namespace Pergrep

/-! ## The tree -/

def topLevelBranches (root : RegexNode) : List RegexNode :=
  match ungroup root with
  | .alt _ cs => cs
  | n => [n]

mutual
/-- `regex_has_region_fallback_construct`: a repeat without a finite limit of at most 10000, a back-reference or a
look-around. -/
def hasRegionFallbackConstruct : RegexNode → Bool
  | .empty _ | .literal _ _ | .dot _ | .cls _ _ | .assert _ _ => false
  | .concat _ cs | .alt _ cs => anyRegionFallbackConstruct cs
  | .repeat_ _ _ mx _ c => decide (10000 < mx) || hasRegionFallbackConstruct c
  | .group _ _ _ c => hasRegionFallbackConstruct c
  | .backRef _ _ | .lookAhead _ _ _ | .lookBehind _ _ _ => true

def anyRegionFallbackConstruct : List RegexNode → Bool
  | [] => false
  | c :: cs => hasRegionFallbackConstruct c || anyRegionFallbackConstruct cs
end

/-- `bounded_regex_eligible`: the analysis, when the pattern may run region by region. -/
def boundedRegexEligible (re : RegexProgram) (opt : PatternOptions) : Option RegexAnalysis :=
  let ir := re.queryIr
  let multiMandatory := decide (2 ≤ ir.mandatory.length)
  let branches := topLevelBranches re.ast
  let branchMultiMandatory :=
    (!ir.branchMandatory.isEmpty && ir.branchMandatory.all (fun b => 2 ≤ b.length)) ||
      (decide (1 < branches.length) && branches.all (fun b => 2 ≤ (queryMandatory b).length))
  let a := analyzeRegex re.ast
  if re.extended ∨ 1 < re.groups ∨ (!multiMandatory ∧ !branchMultiMandatory) ∨ opt.caseMode ≠ .sensitive then none
  else if !a.byteUpper.isFinite ∨ a.byteUpper.value = 0 ∨ 2 ^ 20 < a.byteUpper.value then none
  else if !a.runeUpper.isFinite ∨ !a.forwardLookaheadBytes.isFinite ∨ !a.backwardLookbehindBytes.isFinite ∨
      a.repeatLimitApplied ∨ a.lookbehindLimitApplied then none
  else if a.hasBackreference ∨ a.hasLookahead ∨ a.hasLookbehind ∨ a.hasUnboundedRepeat then none
  else if ir.mandatory.isEmpty ∧ !branchMultiMandatory then none
  else if ir.mandatory.any (fun l => l.isEmpty || decide (a.byteUpper.value < l.length)) then none
  else some a

/-! ## Regions -/

structure BoundedRegexRegion where
  candidateBegin : Nat := 0
  candidateEnd : Nat := 0
  regionBegin : Nat := 0
  regionEnd : Nat := 0
  deriving DecidableEq, Repr

def mergeRegion (regions : List BoundedRegexRegion) (next : BoundedRegexRegion) : List BoundedRegexRegion :=
  match regions.getLast? with
  | some cur =>
    if next.candidateBegin ≤ cur.candidateEnd then
      regions.dropLast ++
        [{ cur with candidateEnd := max cur.candidateEnd next.candidateEnd
                    regionBegin := min cur.regionBegin next.regionBegin
                    regionEnd := max cur.regionEnd next.regionEnd }]
    else regions ++ [next]
  | none => regions ++ [next]

/-- The occurrences of a literal in a record, as `find` and `find(literal, at + 1)` give them. -/
def occurrences (record literal : Bytes) : Nat → Nat → List Nat
  | 0, _ => []
  | fuel + 1, pos =>
    match Substr.findFrom record literal pos with
    | none => []
    | some i => i :: (if record.length - literal.length < i then [] else occurrences record literal fuel (i + 1))

def regionAround (recordBegin recordEnd : Nat) (literal : Bytes) (a : RegexAnalysis) (i : Nat) : Option BoundedRegexRegion :=
  let width := a.byteUpper.value
  let absolute := recordBegin + i
  let startSlack := width - literal.length
  let cb := if startSlack < absolute then max recordBegin (absolute - startSlack) else recordBegin
  let ce := min (recordEnd + 1) (absolute + 1)
  let extension := width + a.forwardLookaheadBytes.value
  -- `record_end - end` is unsigned
  let re := if recordEnd < ce then ce + extension else if recordEnd - ce < extension then recordEnd else ce + extension
  if cb < ce ∧ cb < re then some { candidateBegin := cb, candidateEnd := ce, regionBegin := cb, regionEnd := re } else none

def boundedRegexRegions (record : Bytes) (recordBegin recordEnd : Nat) (literal : Bytes) (a : RegexAnalysis) :
    List BoundedRegexRegion :=
  if literal.isEmpty ∨ record.isEmpty ∨ a.byteUpper.value < literal.length then []
  else
    ((occurrences record literal (record.length + 1) 0).filterMap (regionAround recordBegin recordEnd literal a)).foldl
      mergeRegion []

/-! ## Literals at known distances -/

structure LiteralOffsetConstraint where
  literal : Bytes
  minStart : Nat := 0
  maxStart : Nat := 0
  deriving DecidableEq, Repr

structure LiteralOffsetSummary where
  minWidth : Nat := 0
  maxWidth : Nat := 0
  finite : Bool := true
  literals : List LiteralOffsetConstraint := []
  deriving DecidableEq, Repr

def satAdd (a b : Nat) : Nat := min (a + b) sizeMax
def satMul (a b : Nat) : Nat := min (a * b) sizeMax

mutual
def literalOffsets : RegexNode → LiteralOffsetSummary
  | .empty _ | .assert _ _ => {}
  | .literal f l =>
    { minWidth := l.length, maxWidth := l.length, literals := if !l.isEmpty && !f.icase then [{ literal := l }] else [] }
  | .dot _ | .cls _ _ => { minWidth := 1, maxWidth := 4 }
  | .group _ _ _ c => literalOffsets c
  | .concat _ cs => literalOffsetsConcat cs {}
  | .alt _ cs => literalOffsetsAlt cs none
  | .repeat_ _ mn mx _ c =>
    let part := literalOffsets c
    let maxWidth := if mx = sizeMax then sizeMax else satMul part.maxWidth mx
    { minWidth := satMul part.minWidth mn, maxWidth := maxWidth, finite := part.finite && decide (mx ≠ sizeMax)
      literals :=
        if mn = 0 ∨ mx = sizeMax then []
        else part.literals.map (fun l => { l with minStart := 0, maxStart := maxWidth - l.literal.length }) }
  | .backRef _ _ | .lookAhead _ _ _ | .lookBehind _ _ _ => { finite := false }

/-- The loop over a concatenation; `o` has the widths so far. -/
def literalOffsetsConcat : List RegexNode → LiteralOffsetSummary → LiteralOffsetSummary
  | [], o => o
  | c :: cs, o =>
    let part := literalOffsets c
    literalOffsetsConcat cs
      { minWidth := satAdd o.minWidth part.minWidth, maxWidth := satAdd o.maxWidth part.maxWidth
        finite := o.finite && part.finite
        literals := o.literals ++ part.literals.map (fun l =>
          { l with minStart := satAdd o.minWidth l.minStart, maxStart := satAdd o.maxWidth l.maxStart }) }

/-- The loop over an alternation; nothing before the first branch. -/
def literalOffsetsAlt : List RegexNode → Option LiteralOffsetSummary → LiteralOffsetSummary
  | [], o => o.getD {}
  | c :: cs, none =>
    let part := literalOffsets c
    literalOffsetsAlt cs (some { minWidth := part.minWidth, maxWidth := part.maxWidth, finite := part.finite })
  | c :: cs, some o =>
    let part := literalOffsets c
    literalOffsetsAlt cs (some { minWidth := min o.minWidth part.minWidth, maxWidth := max o.maxWidth part.maxWidth
                                 finite := o.finite && part.finite })
end

/-- The starts of a match that an occurrence of a constrained literal allows. -/
def constraintInterval (recordBegin recordEnd : Nat) (k : LiteralOffsetConstraint) (i : Nat) : Option (Nat × Nat) :=
  let absolute := recordBegin + i
  if k.minStart ≤ i then
    let low := if k.maxStart < absolute then max recordBegin (absolute - k.maxStart) else recordBegin
    let high := min (recordEnd + 1) (satAdd (absolute - k.minStart) 1)
    if low < high then some (low, high) else none
  else none

/-- The common starts of two lists of intervals, as the two-finger walk of the source meets them. -/
def joinIntervals : Nat → List (Nat × Nat) → List (Nat × Nat) → List (Nat × Nat)
  | 0, _, _ => []
  | _, [], _ => []
  | _, _, [] => []
  | fuel + 1, x :: xs, y :: ys =>
    (if max x.1 y.1 < min x.2 y.2 then [(max x.1 y.1, min x.2 y.2)] else []) ++
      (if x.2 < y.2 then joinIntervals fuel xs (y :: ys) else joinIntervals fuel (x :: xs) ys)

/-- The loop over the constraints; `none` once no start is left. -/
def joinConstraints (record : Bytes) (recordBegin recordEnd : Nat) :
    List LiteralOffsetConstraint → Option (List (Nat × Nat)) → Option (List (Nat × Nat))
  | [], joined => joined
  | k :: ks, joined =>
    if k.literal.isEmpty then none
    else
      let current :=
        (occurrences record k.literal (record.length + 1) 0).filterMap (constraintInterval recordBegin recordEnd k)
      if current.isEmpty then none
      else
        match joined with
        | none => joinConstraints record recordBegin recordEnd ks (some current)
        | some xs =>
          let next := joinIntervals (xs.length + current.length) xs current
          if next.isEmpty then none else joinConstraints record recordBegin recordEnd ks (some next)

def regionOf (recordBegin recordEnd : Nat) (a : RegexAnalysis) (x : Nat × Nat) : Option BoundedRegexRegion :=
  let back := a.backwardLookbehindBytes.value
  let rb := if back < x.1 then max recordBegin (x.1 - back) else recordBegin
  let re := min recordEnd (satAdd x.2 (satAdd a.byteUpper.value a.forwardLookaheadBytes.value))
  if x.1 < x.2 ∧ rb < re then some { candidateBegin := x.1, candidateEnd := x.2, regionBegin := rb, regionEnd := re }
  else none

def boundedRegexRegionsJoined (record : Bytes) (recordBegin recordEnd : Nat) (constraints : List LiteralOffsetConstraint)
    (a : RegexAnalysis) : List BoundedRegexRegion :=
  if constraints.isEmpty ∨ record.isEmpty then []
  else
    (((joinConstraints record recordBegin recordEnd constraints none).getD []).filterMap
      (regionOf recordBegin recordEnd a)).foldl mergeRegion []

/-! ## The branches of a pattern -/

structure BoundedBranch where
  anchor : Bytes
  constraints : List LiteralOffsetConstraint := []
  joined : Bool := false
  deriving DecidableEq, Repr

def longestLiteral (ls : List Bytes) : Bytes := ls.foldl (fun best l => if best.length < l.length then l else best) []

/-- Each required literal takes the first constraint with its bytes that is still free. -/
def assignConstraints : List Bytes → List LiteralOffsetConstraint → Option (List LiteralOffsetConstraint)
  | [], _ => some []
  | l :: ls, free =>
    match free.find? (fun k => k.literal == l) with
    | none   => none
    | some k => (assignConstraints ls (free.eraseP (fun k => k.literal == l))).map (k :: ·)

/-- One branch, from its required literals and its tree; none without a literal. -/
def boundedBranch (required : List Bytes) (branch : RegexNode) : Option BoundedBranch :=
  let anchor := longestLiteral required
  if anchor.isEmpty then none
  else
    let summary := literalOffsets branch
    if summary.finite ∧ 2 ≤ required.length then
      match assignConstraints required summary.literals with
      | some ks => some { anchor := anchor, constraints := ks, joined := true }
      | none    => some { anchor := anchor }
    else some { anchor := anchor }

/-- The required literals of each branch, when the pattern splits into branches. -/
def branchLists (re : RegexProgram) : List (List Bytes) :=
  let branches := topLevelBranches re.ast
  if re.queryIr.branchMandatory.isEmpty then (if 1 < branches.length then branches.map queryMandatory else [])
  else re.queryIr.branchMandatory

def splitBranches (re : RegexProgram) : Bool :=
  !(branchLists re).isEmpty && (branchLists re).length == (topLevelBranches re.ast).length

def boundedBranches (re : RegexProgram) : List BoundedBranch :=
  let branches := topLevelBranches re.ast
  if splitBranches re then ((branchLists re).zip branches).filterMap (fun x => boundedBranch x.1 x.2)
  else (boundedBranch re.queryIr.mandatory (branches.headD re.ast)).toList

def boundedRegionRequested (re : RegexProgram) (opt : PatternOptions) : Bool :=
  decide (2 ≤ re.queryIr.mandatory.length) ||
    (re.extended || opt.caseMode != .sensitive || hasRegionFallbackConstruct re.ast) ||
    (splitBranches re && (branchLists re).all (fun b => 2 ≤ b.length))

/-- The regions of a record: those of all branches, sorted and merged. -/
def recordRegions (branches : List BoundedBranch) (a : RegexAnalysis) (record : Bytes) (recordBegin recordEnd : Nat) :
    List BoundedRegexRegion :=
  ((branches.flatMap (fun b =>
      if b.joined then boundedRegexRegionsJoined record recordBegin recordEnd b.constraints a
      else boundedRegexRegions record recordBegin recordEnd b.anchor a)).insertionSort
    (fun x y => if x.candidateBegin ≠ y.candidateBegin then x.candidateBegin < y.candidateBegin
      else x.candidateEnd ≤ y.candidateEnd)).foldl mergeRegion []

end Pergrep
