import Pergrep.Regex.Syntax
/-!
# Nfa — the instructions and `NfaCompiler`

A program is a list of instructions.  The compiler appends to it; a fragment is the index of its first instruction
and the list of the successor fields still unset, which `patch` points at what comes next.  A successor of −1 is
`none`.
-/
namespace Pergrep

/-- `NfaInst::Op`, with the fields one operation alone reads. -/
inductive NfaOp where
  | rune (cp : Nat)
  | any
  | cls (charClass : CharClassSpec)
  | split
  | jmp
  | saveStart (group : Nat)
  | saveEnd (group : Nat)
  | assert (k : AssertKind)
  | match_
  deriving DecidableEq, Repr

structure NfaInst where
  op : NfaOp
  flags : NodeFlags := {}
  x : Option Nat := none
  y : Option Nat := none
  deriving DecidableEq, Repr

/-- The successor fields by name: `y` when the flag is set, `x` otherwise. -/
def NfaInst.succ (i : NfaInst) (y : Bool) : Option Nat := if y then i.y else i.x

def NfaInst.setSucc (i : NfaInst) (y : Bool) (target : Nat) : NfaInst :=
  if y then { i with y := some target } else { i with x := some target }

abbrev Prog := List NfaInst

/-- `PatchRef`: the instruction, and whether its `y` field is meant. -/
abbrev PatchRef := Nat × Bool

structure Frag where
  start : Nat
  out : List PatchRef
  deriving DecidableEq, Repr

namespace NfaCompiler

def maxInstructions : Nat := 1000000

def emit (p : Prog) (i : NfaInst) : Except String (Prog × Nat) :=
  if maxInstructions ≤ p.length then .error "pergrep regex: compiled program too large"
  else .ok (p ++ [i], p.length)

theorem emit_ok {p q : Prog} {i : NfaInst} {pc : Nat} (h : emit p i = .ok (q, pc)) :
    q = p ++ [i] ∧ pc = p.length ∧ p.length < maxInstructions := by
  unfold emit at h
  split at h
  · cases h
  · cases h; exact ⟨rfl, rfl, by omega⟩

def set (p : Prog) (r : PatchRef) (target : Nat) : Prog := p.modify r.1 (fun i => i.setSucc r.2 target)

def patch (p : Prog) (v : List PatchRef) (target : Nat) : Prog := v.foldl (fun p r => set p r target) p

def one (p : Prog) (i : NfaInst) : Except String (Prog × Frag) := do
  let (p, pc) ← emit p i
  return (p, ⟨pc, [(pc, false)]⟩)

def epsilon (p : Prog) : Except String (Prog × Frag) := one p { op := .jmp }

def concat (p : Prog) (a b : Frag) : Prog × Frag := (patch p a.out b.start, ⟨a.start, b.out⟩)

/-- The loop of `build_literal`; `all` is `none` until a rune was read. -/
def runeChain (f : NodeFlags) : List Nat → Prog → Option Frag → Except String (Prog × Option Frag)
  | [], p, all => .ok (p, all)
  | cp :: cps, p, all => do
    let (p, fr) ← one p { op := .rune cp, flags := f }
    match all with
    | none => runeChain f cps p (some fr)
    | some a =>
      let (p, a) := concat p a fr
      runeChain f cps p (some a)

/-- `build_literal`: its first `epsilon` stays behind unused when the literal has a rune. -/
def buildLiteral (f : NodeFlags) (literal : Bytes) (p : Prog) : Except String (Prog × Frag) := do
  let (p, _) ← epsilon p
  let (p, all) ← runeChain f (runes literal) p none
  match all with
  | some a => return (p, a)
  | none   => epsilon p

def buildCopies (b : Prog → Except String (Prog × Frag)) : Nat → Prog → Frag → Except String (Prog × Frag)
  | 0, p, res => .ok (p, res)
  | k + 1, p, res => do
    let (p, c) ← b p
    let (p, res) := concat p res c
    buildCopies b k p res

/-- The split of a repetition: the body is preferred when it is greedy. -/
def splitInst (f : NodeFlags) (greedy : Bool) (body : Nat) : NfaInst :=
  { op := .split, flags := f : NfaInst }.setSucc (!greedy) body

/-- The copies between `min` and a finite `max`: each may be left out with all after it. -/
def buildOptional (b : Prog → Except String (Prog × Frag)) (f : NodeFlags) (greedy : Bool) :
    Nat → Prog → Frag → List PatchRef → Except String (Prog × Frag)
  | 0, p, res, exits => .ok (p, ⟨res.start, exits ++ res.out⟩)
  | k + 1, p, res, exits => do
    let (p, c) ← b p
    let (p, pc) ← emit p (splitInst f greedy c.start)
    let p := patch p res.out pc
    buildOptional b f greedy k p ⟨res.start, c.out⟩ (exits ++ [(pc, greedy)])

def buildRepeat (f : NodeFlags) (min max : Nat) (greedy : Bool) (b : Prog → Except String (Prog × Frag)) (p : Prog) :
    Except String (Prog × Frag) := do
  let (p, res) ← epsilon p
  let (p, res) ← buildCopies b min p res
  if max = min then return (p, res)
  else if max = sizeMax then
    let (p, c) ← b p
    let (p, pc) ← emit p (splitInst f greedy c.start)
    let p := patch p c.out pc
    let p := patch p res.out pc
    return (p, ⟨res.start, [(pc, greedy)]⟩)
  else buildOptional b f greedy (max - min) p res []

mutual

def build : RegexNode → Prog → Except String (Prog × Frag)
  | .empty _, p => epsilon p
  | .literal f l, p => buildLiteral f l p
  | .dot f, p => one p { op := .any, flags := f }
  | .cls f s, p => one p { op := .cls s, flags := f }
  | .assert f k, p => one p { op := .assert k, flags := f }
  | .group f g _ c, p => do
    let (p, cf) ← build c p
    let (p, a) ← emit p { op := .saveStart g, flags := f, x := some cf.start }
    let (p, b) ← emit p { op := .saveEnd g, flags := f }
    return (patch p cf.out b, ⟨a, [(b, false)]⟩)
  | .concat _ cs, p => do
    let (p, r) ← epsilon p
    buildAll cs p r
  | .alt f cs, p => buildAlt f cs p none
  | .repeat_ f mn mx greedy c, p => buildRepeat f mn mx greedy (fun p => build c p) p
  | .backRef _ _, _ | .lookAhead _ _ _, _ | .lookBehind _ _ _, _ =>
    .error "pergrep regex: non-regular construct in default NFA"

def buildAll : List RegexNode → Prog → Frag → Except String (Prog × Frag)
  | [], p, r => .ok (p, r)
  | c :: cs, p, r => do
    let (p, b) ← build c p
    let (p, r) := concat p r b
    buildAll cs p r

/-- The loop over the branches of an alternation; `r` is what the branches so far make, `none` before the first. -/
def buildAlt (f : NodeFlags) : List RegexNode → Prog → Option Frag → Except String (Prog × Frag)
  | [], p, none => epsilon p
  | [], p, some r => .ok (p, r)
  | c :: cs, p, none => do
    let (p, b) ← build c p
    buildAlt f cs p (some b)
  | c :: cs, p, some r => do
    let (p, b) ← build c p
    let (p, pc) ← emit p { op := .split, flags := f, x := some r.start, y := some b.start }
    buildAlt f cs p (some ⟨pc, r.out ++ b.out⟩)

end

/-- `compile`: the program and `nfa_start`. -/
def compile (root : RegexNode) : Except String (Prog × Nat) := do
  let (p, f) ← build root []
  let (p, m) ← emit p { op := .match_ }
  return (patch p f.out m, f.start)

end NfaCompiler
end Pergrep
