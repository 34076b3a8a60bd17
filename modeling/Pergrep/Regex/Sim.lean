import Pergrep.Regex.Context
import Pergrep.Regex.Program
/-!
# Sim — the Pike simulation: `add_nfa_thread`, `nfa_consume` and `nfa_search`

Threads in order of preference, one step of the text at a time.  `addNfaThread` expands a thread to the instructions
that wait for a rune or accept, from the tables when the program has them and the thread carries no captures, by
`Worklist.run` otherwise; an instruction marked with the current generation is not entered again.  The generation is
32 bits wide and the marks are cleared when it wraps.

`SimState` is what the loop of `nfa_search` carries; `simStep` is its body, with a `break` an answer of `none`.
-/
namespace Pergrep

structure Capture where
  start : Nat := 0
  stop : Nat := 0
  matched : Bool := false
  name : Bytes := []
  deriving DecidableEq, Repr

structure Match where
  fileId : Nat := 0
  start : Nat := 0
  stop : Nat := 0
  captures : List Capture := []
  deriving DecidableEq, Repr

/-- The capture positions of a thread; `SIZE_MAX` is `none`. -/
abbrev Caps := List (Option Nat × Option Nat)

structure NfaThread where
  pc : Option Nat
  start : Nat
  caps : Caps := []
  deriving DecidableEq, Repr

namespace NfaThread

def goto (t : NfaThread) (pc : Option Nat) : NfaThread := { t with pc := pc }

def saveStart (t : NfaThread) (g pos : Nat) : NfaThread :=
  { t with caps := t.caps.modify g (fun p => (some pos, p.2)) }

def saveEnd (t : NfaThread) (g pos : Nat) : NfaThread :=
  { t with caps := t.caps.modify g (fun p => (p.1, some pos)) }

@[simp] theorem goto_pc (t : NfaThread) (pc : Option Nat) : (t.goto pc).pc = pc := rfl
@[simp] theorem goto_start (t : NfaThread) (pc : Option Nat) : (t.goto pc).start = t.start := rfl
@[simp] theorem saveStart_start (t : NfaThread) (g pos : Nat) : (t.saveStart g pos).start = t.start := rfl
@[simp] theorem saveEnd_start (t : NfaThread) (g pos : Nat) : (t.saveEnd g pos).start = t.start := rfl

end NfaThread

section
variable (icu : Icu) (p : RegexProgram) (c : VerifierContext)

def NfaThread.inst (t : NfaThread) : Option NfaInst := t.pc.bind (p.nfa[·]?)

/-- The index a thread stands at, when it is one of the program. -/
def threadKey (t : NfaThread) : Option Nat := pcKey p.nfa t.pc

/-- What a thread expands to at a position: `none` when it waits for a rune or accepts. -/
def threadNext (pos : Nat) (t : NfaThread) : Option (List NfaThread) :=
  match t.inst p with
  | none => some []
  | some i =>
    match i.op with
    | .jmp => some [t.goto i.x]
    | .split => some [t.goto i.x, t.goto i.y]
    | .saveStart g => some [(t.saveStart g pos).goto i.x]
    | .saveEnd g => some [(t.saveEnd g pos).goto i.x]
    | .assert k => some (if assertAt icu k i.flags c pos then [t.goto i.x] else [])
    | .rune _ | .any | .cls _ | .match_ => none

/-- One entry of a closure table: a thread there, unless the instruction was entered in this generation. -/
def addEntry (seed : NfaThread) (generation : Nat) (s : List NfaThread × List Nat) (pc : Nat) :
    List NfaThread × List Nat :=
  if s.2.getD pc 0 == generation then s
  else (s.1 ++ [{ pc := some pc, start := seed.start }], s.2.set pc generation)

/-- `add_nfa_thread`: the list and the marks after it. -/
def addNfaThread (pos : Nat) (seed : NfaThread) (generation : Nat) (list : List NfaThread) (seen : List Nat) :
    List NfaThread × List Nat :=
  match pcKey p.nfa seed.pc with
  | some pc =>
    if p.closureOffsets.length == p.nfa.length + 1 && seed.caps.isEmpty then
      let lo := p.closureOffsets.getD pc 0
      let hi := p.closureOffsets.getD (pc + 1) 0
      ((p.closurePcs.take hi).drop lo).foldl (addEntry seed generation) (list, seen)
    else
      let (seen, list) := Worklist.run (threadKey p) (threadNext icu p c pos)
        (fun seen k => seen.getD k 0 == generation) (fun seen k => seen.set k generation) (expandFuel p.nfa) [seed] seen list
      (list, seen)
  | none => (list, seen)

def nfaConsume (i : NfaInst) (cp : Nat) : Bool :=
  match i.op with
  | .rune x => icu.cpEq cp x i.flags.icase
  | .any => i.flags.dotall || cp != c.separator.toNat
  | .cls s => classMatch icu s cp i.flags.icase
  | _ => false

/-! ## The case-insensitive literal -/

/-- `context_literal_at_validated`: the end of the folded literal at a position. -/
def contextLiteralAtValidated : List Nat → Nat → Option Nat
  | [], pos => some pos
  | x :: xs, pos =>
    match contextRuneAtValidated c pos with
    | some r => if icu.foldedCpEq r.cp x then contextLiteralAtValidated xs r.next else none
    | none   => none

/-- The inner loop of the fast path: over the ASCII bytes, when the literal's first rune is not ASCII. -/
def skipAscii (scanEnd : Nat) : Nat → Nat → Nat
  | 0, pos => pos
  | fuel + 1, pos =>
    if pos < scanEnd ∧ (!c.boundedRegion ∨ pos < c.regionEnd) then
      match c.source[pos - c.sourceBegin]? with
      | none   => pos
      | some b => if 0x80 ≤ b then pos else skipAscii scanEnd fuel (pos + 1)
    else pos

/-- The scan of the fast path, from a position: the span of the first occurrence. -/
def literalScan (lit : List Nat) (scanEnd : Nat) : Nat → Nat → Option (Nat × Nat)
  | 0, _ => none
  | fuel + 1, pos =>
    if pos < scanEnd then
      let nonAscii := decide (0x80 ≤ lit.headD 0)
      let pos := if nonAscii then skipAscii c scanEnd (scanEnd - pos) pos else pos
      if nonAscii ∧ (scanEnd ≤ pos ∨ (c.boundedRegion ∧ c.regionEnd ≤ pos)) then none
      else
        match contextLiteralAtValidated icu c lit pos with
        | some e => some (pos, e)
        | none =>
          match contextRuneAtValidated c pos with
          | some r => literalScan lit scanEnd fuel r.next
          | none   => none
    else none

def usesLiteralScan : Bool :=
  match p.ast with
  | .literal f l => !p.extended && f.icase && !l.isEmpty && !p.icaseLiteral.isEmpty
  | _ => false

/-! ## The simulation -/

structure SimState where
  pos : Nat
  cur : List NfaThread := []
  seen : List Nat
  currentGeneration : Nat := 1
  nextGeneration : Nat := 2
  best : Option NfaThread := none
  bestEnd : Nat := 0
  deriving DecidableEq, Repr

def nextJump (pos : Nat) : Option Nat :=
  p.queryIr.prefixes.foldl (fun next pref =>
    match Substr.findFrom c.source pref (pos - c.sourceBegin) with
    | none => next
    | some cand =>
      match next with
      | none   => some cand
      | some n => if cand < n then some cand else some n) none

/-- The jump to the next prefix, when no thread is alive: the position, `none` to stop. -/
def simJump (s : SimState) : Option Nat :=
  if s.cur.isEmpty && s.best.isNone && !p.queryIr.prefixes.isEmpty && decide (s.pos < c.recordEnd) then
    match nextJump p c s.pos with
    | none => none
    | some j => if c.candidateEnd ≤ c.sourceBegin + j then none else some (c.sourceBegin + j)
  else some s.pos

def seedThread (pos : Nat) : NfaThread :=
  { pc := p.nfaStart, start := pos,
    caps := if 0 < p.groups then List.replicate (p.groups + 1) (none, none) else [] }

/-- The start thread of a candidate position joins the list, last. -/
def simSeed (s : SimState) : SimState :=
  if s.pos < c.candidateEnd then
    let r := addNfaThread icu p c s.pos (seedThread p s.pos) s.currentGeneration s.cur s.seen
    { s with cur := r.1, seen := r.2 }
  else s

def NfaThread.accepts (t : NfaThread) : Bool := (t.inst p).any (fun i => i.op == .match_)

/-- The first accepting thread is the best so far, and the list is cut before it. -/
def simMatch (s : SimState) : SimState :=
  match s.cur.findIdx? (fun t => t.accepts p) with
  | none => s
  | some k => { s with best := s.cur[k]?, bestEnd := s.pos, cur := s.cur.take k }

def advanceThread (r : Rune) (generation : Nat) (a : List NfaThread × List Nat) (t : NfaThread) :
    List NfaThread × List Nat :=
  match t.inst p with
  | some i => if nfaConsume icu c i r.cp then addNfaThread icu p c r.next (t.goto i.x) generation a.1 a.2 else a
  | none => a

def simAdvance (s : SimState) (r : Rune) : SimState :=
  let next := s.cur.foldl (advanceThread icu p c r s.nextGeneration) ([], s.seen)
  -- the generation counter is a `uint32_t`
  if (s.nextGeneration + 1) % 2 ^ 32 = 0 then
    { s with pos := r.next, cur := next.1, seen := List.replicate next.2.length 0, currentGeneration := 1,
             nextGeneration := 2 }
  else
    { s with pos := r.next, cur := next.1, seen := next.2, currentGeneration := s.nextGeneration,
             nextGeneration := s.nextGeneration + 1 }

/-- The loop of `nfa_search`, one pass a unit of fuel: the state it ends in. -/
def simLoop : Nat → SimState → SimState
  | 0, s => s
  | fuel + 1, s =>
    if s.cur.isEmpty && s.best.isNone && decide (c.candidateEnd ≤ s.pos) then s
    else
      match simJump p c s with
      | none => s
      | some pos =>
        let s := simMatch p (simSeed icu p c { s with pos := pos })
        if s.best.isSome && s.cur.isEmpty then s
        else if c.recordEnd ≤ s.pos then s
        else
          match contextRuneAtValidated c s.pos with
          | none => s
          | some r =>
            let s := simAdvance icu p c s r
            if s.cur.isEmpty && s.best.isSome then s
            else simLoop fuel s

def simInit : SimState := { pos := c.candidateBegin, seen := List.replicate p.nfa.length 0 }

/-- Fuel for the loop: every pass but the last moves on inside the record. -/
def simFuel : Nat := c.recordEnd - c.candidateBegin + 2

def matchCaptures (start stop : Nat) (caps : Caps) : List Capture :=
  { start := start, stop := stop, matched := true } ::
    (List.range p.groups).map (fun g =>
      match caps[g + 1]? with
      | some (some a, some b) => { start := a, stop := b, matched := true, name := p.groupNames.getD (g + 1) [] }
      | _ => {})

def nfaSearch (fileId : Nat) : Option Match :=
  if !c.validate || p.nfaStart.isNone then none
  else if usesLiteralScan p then
    let scanEnd := min c.candidateEnd c.recordEnd
    (literalScan icu c p.icaseLiteral scanEnd (simFuel c) c.candidateBegin).map (fun se =>
      { fileId := fileId, start := se.1, stop := se.2,
        captures := { start := se.1, stop := se.2, matched := true } :: List.replicate p.groups {} })
  else
    let s := simLoop icu p c (simFuel c) (simInit p c)
    s.best.map (fun t =>
      { fileId := fileId, start := t.start, stop := s.bestEnd, captures := matchCaptures p t.start s.bestEnd t.caps })

end

end Pergrep
