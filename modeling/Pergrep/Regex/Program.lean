import Pergrep.Lib.Worklist
import Pergrep.Regex.Parser
import Pergrep.Regex.Nfa
import Pergrep.Regex.Query
/-!
# Program — `RegexProgram`, the closure tables and `parse_regex`

A program is what a pattern is compiled to: the tree (with the wrappers of the word and line modes), the NFA, the
query representation of the tree without the wrappers, and, for small programs without captures and assertions, the
table of what each instruction expands to.
-/
namespace Pergrep

structure RegexProgram where
  ast : RegexNode
  groups : Nat := 0
  groupNames : List Bytes := [[]]
  extended : Bool := false
  icaseLiteral : List Nat := []
  queryIr : QueryIR := {}
  nfa : Prog := []
  nfaStart : Option Nat := none
  /-- `nfa_closure_offsets` and `nfa_closure_pcs`, both empty when the tables were not built. -/
  closureOffsets : List Nat := []
  closurePcs : List Nat := []
  deriving Repr

/-! ## The closure tables -/

def maxClosurePcs : Nat := 256
def maxClosureEntries : Nat := 16384

def pcKey (nfa : Prog) (pc : Option Nat) : Option Nat := pc.filter (fun k => decide (k < nfa.length))

/-- What the closure search expands an instruction to; the other operations are entries. -/
def closureNext (nfa : Prog) (pc : Option Nat) : Option (List (Option Nat)) :=
  match pc.bind (nfa[·]?) with
  | none => some []
  | some i =>
    match i.op with
    | .split => some [i.x, i.y]
    | .jmp => some [i.x]
    | _ => none

/-- Fuel for an expansion: an instruction is expanded once, to two at most. -/
def expandFuel (nfa : Prog) : Nat := 2 * nfa.length + 2

/-- The entries of one instruction, in the order of the search. -/
def closureRow (nfa : Prog) (source : Nat) : List Nat :=
  (Worklist.run (pcKey nfa) (closureNext nfa) (fun visited k => visited.getD k false) (fun visited k => visited.set k true)
    (expandFuel nfa) [some source] (List.replicate nfa.length false) []).2.filterMap id

/-- The loop over the instructions; it gives up when the entries do not fit. -/
def closureRows (nfa : Prog) : List Nat → List Nat → List Nat → Option (List Nat × List Nat)
  | [], offsets, pcs => some (offsets, pcs)
  | source :: rest, offsets, pcs =>
    let pcs := pcs ++ closureRow nfa source
    if maxClosureEntries < pcs.length then none
    else closureRows nfa rest (offsets ++ [pcs.length]) pcs

def NfaOp.tabled : NfaOp → Bool
  | .rune _ | .any | .cls _ | .split | .jmp | .match_ => true
  | .saveStart _ | .saveEnd _ | .assert _ => false

def buildNfaClosures (groups : Nat) (nfa : Prog) : List Nat × List Nat :=
  if groups ≠ 0 ∨ nfa.isEmpty ∨ maxClosurePcs < nfa.length then ([], [])
  else if !nfa.all (fun i => i.op.tabled) then ([], [])
  else (closureRows nfa (List.range nfa.length) [0] []).getD ([], [])

/-! ## `parse_regex` -/

section
variable (icu : Icu)

/-- `icase_literal`: the folded runes of a tree that is one case-insensitive literal. -/
def icaseLiteralOf (ast : RegexNode) (extended : Bool) : List Nat :=
  match ast with
  | .literal f l => if !extended && f.icase then (runes l).map icu.foldCase else []
  | _ => []

def wrapperFlags (opt : PatternOptions) (multiline : Bool) : NodeFlags :=
  { icase := opt.caseMode == .insensitive, dotall := opt.dotall, multiline := multiline, unicode := opt.unicode,
    crlf := opt.crlf }

def wrap (opt : PatternOptions) (ast : RegexNode) : RegexNode :=
  let f := wrapperFlags opt false
  if opt.line then
    .concat f [.assert (wrapperFlags opt true) .begin_, ast, .assert (wrapperFlags opt true) .end_]
  else if opt.word then .concat f [.assert f .wordStartHalf, ast, .assert f .wordEndHalf]
  else ast

def parseRegex (pattern : Bytes) (opt : PatternOptions) : Except String RegexProgram := do
  let p ← Parser.parse icu pattern opt
  if p.extended ∧ opt.engine = .default_ then
    throw "pergrep regex: backreferences/look-around require -P/--pcre2"
  let ast := wrap opt p.ast
  let (nfa, start) ←
    if p.extended then pure (([] : Prog), (none : Option Nat))
    else do
      let (nfa, start) ← NfaCompiler.compile ast
      pure (nfa, some start)
  let tables := buildNfaClosures p.groups nfa
  return { ast := ast, groups := p.groups, groupNames := p.groupNames, extended := p.extended,
           icaseLiteral := icaseLiteralOf icu p.ast p.extended, queryIr := analyzeQuery p.ast p.extended,
           nfa := nfa, nfaStart := start, closureOffsets := tables.1, closurePcs := tables.2 }

end

end Pergrep
