import Mathlib.Data.List.Sort
import Pergrep.Lib.Substr
import Pergrep.Regex.Syntax
/-!
# Query — what the optimizer reads off a tree

`FilterExpr`, the filter algebra of `internal.hpp`, with its simplifier, and the extraction helpers of `analyze_query`:
the literals every match must hold (`queryMandatory`), per branch (`queryBranchMandatory`), the literals a match can
start with (`queryPrefixes`), and whether the tree is one literal.
-/
namespace Pergrep

inductive FilterExpr where
  | true_
  | atom (literal : Bytes)
  | and_ (terms : List FilterExpr)
  | or_ (terms : List FilterExpr)
  deriving Repr

namespace FilterExpr

/-- `FilterExpr::atom` -/
def mkAtom (literal : Bytes) : FilterExpr := if literal.isEmpty then .true_ else .atom literal

/-- `candidate.find(literal) != npos` -/
def holds (candidate literal : Bytes) : Bool := (Substr.findFrom candidate literal 0).isSome

mutual
/-- `FilterExpr::matches` -/
def «matches» (candidate : Bytes) : FilterExpr → Bool
  | .true_ => true
  | .atom l => holds candidate l
  | .and_ ts => matchesAll candidate ts
  | .or_ ts => matchesAny candidate ts

def matchesAll (candidate : Bytes) : List FilterExpr → Bool
  | [] => true
  | t :: ts => t.matches candidate && matchesAll candidate ts

def matchesAny (candidate : Bytes) : List FilterExpr → Bool
  | [] => false
  | t :: ts => t.matches candidate || matchesAny candidate ts
end

mutual
/-- `filter_equal`: equal up to the order of terms; each term of the left takes the first free equal one of the right. -/
def filterEqual : FilterExpr → FilterExpr → Bool
  | .true_, .true_ => true
  | .atom a, .atom b => a == b
  | .and_ xs, .and_ ys => xs.length == ys.length && filterEqualAll xs ys
  | .or_ xs, .or_ ys => xs.length == ys.length && filterEqualAll xs ys
  | _, _ => false

def filterEqualAll : List FilterExpr → List FilterExpr → Bool
  | [], _ => true
  | x :: xs, ys =>
    ys.any (fun y => filterEqual x y) && filterEqualAll xs (ys.eraseP (fun y => filterEqual x y))
end

def andContains (expr term : FilterExpr) : Bool :=
  match expr with
  | .and_ ts => ts.any (fun t => filterEqual t term)
  | _ => false

def filterSubsumes (lhs rhs : FilterExpr) : Bool :=
  if filterEqual lhs rhs then true
  else
    match lhs, rhs with
    | .atom left, .atom right => holds right left
    | _, _ => andContains rhs lhs

def uniqueTerms (terms : List FilterExpr) : List FilterExpr :=
  terms.foldl (fun unique t => if unique.any (fun prior => filterEqual prior t) then unique else unique ++ [t]) []

/-- The inner loop of the absorption: term `i` drops the others it subsumes, and its index moves with them. -/
def absorbInner : Nat → List FilterExpr → Nat → Nat → List FilterExpr × Nat
  | 0, u, i, _ => (u, i)
  | fuel + 1, u, i, j =>
    if j < u.length then
      if i ≠ j ∧ filterSubsumes (u.getD i .true_) (u.getD j .true_) then
        absorbInner fuel (u.eraseIdx j) (if j < i then i - 1 else i) j
      else absorbInner fuel u i (j + 1)
    else (u, i)

def absorbOuter : Nat → List FilterExpr → Nat → List FilterExpr
  | 0, u, _ => u
  | fuel + 1, u, i =>
    if i < u.length then
      let (u, i) := absorbInner u.length u i 0
      absorbOuter fuel u (i + 1)
    else u

def mkAnd (terms : List FilterExpr) : FilterExpr :=
  match uniqueTerms terms with
  | [] => .true_
  | [t] => t
  | ts => .and_ ts

def mkOr (terms : List FilterExpr) : FilterExpr :=
  let unique := uniqueTerms terms
  match absorbOuter unique.length unique 0 with
  | [] => .true_
  | [t] => t
  | ts => .or_ ts

mutual
def simplified : FilterExpr → FilterExpr
  | .true_ => .true_
  | .atom l => mkAtom l
  | .and_ ts => mkAnd (simplifiedAnd ts)
  | .or_ ts =>
    match simplifiedOr ts with
    | none => .true_
    | some terms => mkOr terms

/-- The simplified children of a conjunction, nested ones spliced in, the always-true ones left out. -/
def simplifiedAnd : List FilterExpr → List FilterExpr
  | [] => []
  | t :: ts =>
    (match t.simplified with
      | .true_ => []
      | .and_ us => us
      | u => [u]) ++ simplifiedAnd ts

/-- The simplified children of a disjunction; `none` once one of them is always true. -/
def simplifiedOr : List FilterExpr → Option (List FilterExpr)
  | [] => some []
  | t :: ts =>
    match t.simplified with
    | .true_ => none
    | .or_ us => (simplifiedOr ts).map (us ++ ·)
    | u => (simplifiedOr ts).map (u :: ·)
end

end FilterExpr

/-! ## The extraction helpers -/

mutual
def queryFilter : RegexNode → FilterExpr
  | .literal f l => if !l.isEmpty && !f.icase then .mkAtom l else .true_
  | .group _ _ _ c => queryFilter c
  | .lookAhead _ negative c | .lookBehind _ negative c => if negative then .true_ else queryFilter c
  | .repeat_ _ mn _ _ c => if mn = 0 then .true_ else queryFilter c
  | .concat _ cs => .and_ (queryFilterAll cs)
  | .alt _ cs => .or_ (queryFilterAll cs)
  | .empty _ | .dot _ | .cls _ _ | .assert _ _ | .backRef _ _ => .true_

def queryFilterAll : List RegexNode → List FilterExpr
  | [] => []
  | c :: cs => queryFilter c :: queryFilterAll cs
end

def RegexNode.sensitiveLiteral : RegexNode → Option Bytes
  | .literal f l => if f.icase then none else some l
  | _ => none

mutual
def queryMandatory : RegexNode → List Bytes
  | .literal f l => if l.isEmpty || f.icase then [] else [l]
  | .group _ _ _ c => queryMandatory c
  | .lookAhead _ negative c | .lookBehind _ negative c => if negative then [] else queryMandatory c
  | .repeat_ _ mn _ _ c => if mn = 0 then [] else queryMandatory c
  | .concat _ cs => queryMandatoryConcat cs []
  | .alt _ cs => queryMandatoryAlt cs none
  | .empty _ | .dot _ | .cls _ _ | .assert _ _ | .backRef _ _ => []

/-- The loop over a concatenation; `run` is the literal text since the last other child. -/
def queryMandatoryConcat : List RegexNode → Bytes → List Bytes
  | [], run => if run.isEmpty then [] else [run]
  | c :: cs, run =>
    match c.sensitiveLiteral with
    | some l => queryMandatoryConcat cs (run ++ l)
    | none => (if run.isEmpty then [] else [run]) ++ queryMandatory c ++ queryMandatoryConcat cs []

/-- The intersection over the branches; `none` before the first. -/
def queryMandatoryAlt : List RegexNode → Option (List Bytes) → List Bytes
  | [], acc => acc.getD []
  | c :: cs, none => queryMandatoryAlt cs (some (queryMandatory c))
  | c :: cs, some acc => queryMandatoryAlt cs (some (acc.filter (fun a => (queryMandatory c).contains a)))
end

def bytesLe : Bytes → Bytes → Bool
  | [], _ => true
  | _ :: _, [] => false
  | a :: s, b :: t => decide (a < b) || (a == b && bytesLe s t)

/-- `std::unique` with `erase`: of equal neighbours the first stays. -/
def uniqueNeighbours : List Bytes → List Bytes
  | [] => []
  | [a] => [a]
  | a :: b :: t => if a = b then uniqueNeighbours (b :: t) else a :: uniqueNeighbours (b :: t)

def sortUnique (l : List Bytes) : List Bytes := uniqueNeighbours (l.insertionSort (fun a b => bytesLe a b = true))

mutual
def queryPrefixes : RegexNode → List Bytes
  | .literal f l => if !l.isEmpty && !f.icase then [l] else []
  | .group _ _ _ c => queryPrefixes c
  | .repeat_ _ mn _ _ c => if mn > 0 then queryPrefixes c else []
  | .concat _ cs => queryPrefixesFirst cs
  | .alt _ cs =>
    match queryPrefixesAlt cs with
    | none => []
    | some out => sortUnique out
  | .empty _ | .dot _ | .cls _ _ | .assert _ _ | .backRef _ _ | .lookAhead _ _ _ | .lookBehind _ _ _ => []

def queryPrefixesFirst : List RegexNode → List Bytes
  | [] => []
  | c :: _ => queryPrefixes c

/-- The prefixes of all branches; `none` once a branch has none. -/
def queryPrefixesAlt : List RegexNode → Option (List Bytes)
  | [] => some []
  | c :: cs => if (queryPrefixes c).isEmpty then none else (queryPrefixesAlt cs).map (queryPrefixes c ++ ·)
end

def ungroup : RegexNode → RegexNode
  | .group _ _ _ c => ungroup c
  | n => n

def queryBranchMandatory (n : RegexNode) : List (List Bytes) :=
  match ungroup n with
  | .alt _ cs => if cs.any (fun c => (queryMandatory c).isEmpty) then [] else cs.map queryMandatory
  | _ => []

mutual
/-- `query_is_pure_literal`: the literal the tree is, if it is one. -/
def queryIsPureLiteral : RegexNode → Option Bytes
  | .literal f l => if !f.icase then some l else none
  | .group _ _ _ c => queryIsPureLiteral c
  | .concat _ cs => queryIsPureLiteralAll cs
  | .empty _ | .dot _ | .cls _ _ | .assert _ _ | .alt _ _ | .repeat_ _ _ _ _ _ | .backRef _ _ | .lookAhead _ _ _
  | .lookBehind _ _ _ => none

def queryIsPureLiteralAll : List RegexNode → Option Bytes
  | [] => some []
  | c :: cs =>
    match queryIsPureLiteral c with
    | none => none
    | some sub => (queryIsPureLiteralAll cs).map (sub ++ ·)
end

structure QueryIR where
  filter : FilterExpr := .true_
  mandatory : List Bytes := []
  branchMandatory : List (List Bytes) := []
  prefixes : List Bytes := []
  isPureLiteral : Bool := false
  exactLiteral : Bytes := []
  deriving Repr

/-- `analyze_query`; the second sort is by length, longest first. -/
def analyzeQuery (ast : RegexNode) (extended : Bool) : QueryIR :=
  let pure := if extended then none else queryIsPureLiteral ast
  { filter := (queryFilter ast).simplified
    mandatory := (sortUnique (queryMandatory ast)).insertionSort (fun a b => b.length ≤ a.length)
    prefixes := queryPrefixes ast
    branchMandatory := queryBranchMandatory ast
    isPureLiteral := pure.isSome
    exactLiteral := pure.getD [] }

end Pergrep
