import Pergrep.Regex.Sim
/-!
# Vm — the backtracking engine: `eval`, `regex_search` and `regex_find_all`

`eval` gives every way a tree matches from a state, in order of preference, or throws at one of its limits.  The loops
of its cases are definitions of their own, over the evaluation `f` of the child: `expandAll` over a list of states,
`repeatLevels` level by level, `lookBehindAll` and `lookBehindAny` over the starts of a look-behind.
-/
namespace Pergrep

structure VmState where
  pos : Nat := 0
  caps : Caps := []
  deriving DecidableEq, Repr

abbrev Eval := Except String

def vmStateLimit : Nat := 50000
def vmDepthLimit : Nat := 10000
def vmRepeatLimit : Nat := 10000
def vmLookBehindWindow : Nat := 8192

def stateLimitError : String := "pergrep regex: VM state limit exceeded"

def limitStates (out : List VmState) : Eval (List VmState) :=
  if vmStateLimit < out.length then .error stateLimitError else .ok out

/-- `z.caps.g[group] = {base, z.pos}`, with the list made long enough. -/
def VmState.setGroup (z : VmState) (g base : Nat) : VmState :=
  { z with caps := (z.caps ++ List.replicate (g + 1 - z.caps.length) (none, none)).set g (some base, some z.pos) }

/-- Every state goes on by `f`; what they lead to, one after another. -/
def expandAll (f : VmState → Eval (List VmState)) : List VmState → List VmState → Eval (List VmState)
  | [], next => .ok next
  | st :: rest, next => do
    let v ← f st
    let next ← limitStates (next ++ v)
    expandAll f rest next

/-- One level of a repetition: what the states lead to by an iteration that moves. -/
def repeatNext (f : VmState → Eval (List VmState)) : List VmState → Eval (List VmState)
  | [] => .ok []
  | st :: rest => do
    let v ← f st
    let w ← repeatNext f rest
    return v.filter (fun z => z.pos != st.pos) ++ w

/-- The levels of a repetition after `levels`; `total` states so far. -/
def repeatLevels (f : VmState → Eval (List VmState)) : Nat → List VmState → Nat → Eval (List (List VmState))
  | 0, _, _ => .ok []
  | limit + 1, levels, total => do
    let next ← repeatNext f levels
    if next.isEmpty then return []
    else if vmStateLimit < next.length ∨ vmStateLimit < total + next.length then throw stateLimitError
    else
      let rest ← repeatLevels f limit next (total + next.length)
      return next :: rest

section
variable (icu : Icu)

/-- `context_literal_at`: the end of the literal (from `lp` on) at a position. -/
def contextLiteralAt (c : VerifierContext) (lit : Bytes) (icase : Bool) : Nat → Nat → Nat → Option Nat
  | 0, tp, _ => some tp
  | fuel + 1, tp, lp =>
    if lp < lit.length then
      match contextRuneAt c tp, runeAt lit lp with
      | some a, some b => if icu.cpEq a.cp b.cp icase then contextLiteralAt c lit icase fuel a.next b.next else none
      | _, _ => none
    else some tp

def evalLiteral (c : VerifierContext) (lit : Bytes) (icase : Bool) (s : VmState) : List VmState :=
  match contextLiteralAt icu c lit icase (lit.length + 1) s.pos 0 with
  | some e => [{ s with pos := e }]
  | none   => []

def evalRune (c : VerifierContext) (test : Nat → Bool) (s : VmState) : List VmState :=
  match contextRuneAt c s.pos with
  | some r => if test r.cp then [{ s with pos := r.next }] else []
  | none   => []

/-- The text of a group, if it has matched inside the record. -/
def backRefText (c : VerifierContext) (s : VmState) (g : Nat) : Option Bytes :=
  match s.caps[g]? with
  | some (some a, some b) =>
    if b < a ∨ c.recordEnd < b then none
    else some ((c.source.drop (a - c.sourceBegin)).take (b - a))
  | _ => none

def stepStart (c : VerifierContext) (p : Nat) : Nat := ((contextRuneAt c p).map Rune.next).getD (p + 1)

def lookBehindAny (c : VerifierContext) (f : VmState → Eval (List VmState)) (s : VmState) : Nat → Nat → Eval Bool
  | 0, _ => .ok false
  | fuel + 1, p =>
    if s.pos < p then .ok false
    else do
      let v ← f { s with pos := p }
      if v.any (fun z => z.pos == s.pos) then return true
      else if p = s.pos then return false
      else lookBehindAny c f s fuel (stepStart c p)

def lookBehindAll (c : VerifierContext) (f : VmState → Eval (List VmState)) (s : VmState) :
    Nat → Nat → Eval (List VmState)
  | 0, _ => .ok []
  | fuel + 1, p =>
    if s.pos < p then .ok []
    else do
      let v ← f { s with pos := p }
      let here := v.filter (fun z => z.pos == s.pos)
      if p = s.pos then return here
      else
        let rest ← lookBehindAll c f s fuel (stepStart c p)
        return here ++ rest

def lookBehindContext (c : VerifierContext) : VerifierContext :=
  { c with recordBegin := if c.leftContextAvailable then c.sourceBegin else c.recordBegin
           recordEnd := if c.rightContextAvailable then c.sourceEnd else c.recordEnd }

def lookBehindFloor (c : VerifierContext) (negative : Bool) (pos : Nat) : Nat :=
  let floor := if negative || !c.leftContextAvailable then c.recordBegin else c.sourceBegin
  if vmLookBehindWindow < pos then max floor (pos - vmLookBehindWindow) else floor

def repeatLimit (c : VerifierContext) (mx pos : Nat) : Nat :=
  let hard := if pos ≤ c.recordEnd then c.recordEnd - pos + 1 else 0
  if mx = sizeMax then min hard vmRepeatLimit else min mx vmRepeatLimit

mutual
def eval : RegexNode → VerifierContext → Nat → VmState → Eval (List VmState)
  | n, c, depth, s =>
    if vmDepthLimit < depth then .error "pergrep regex: recursion depth exceeded"
    else
      match n with
      | .empty _ => .ok [s]
      | .literal f l => .ok (evalLiteral icu c l f.icase s)
      | .dot f => .ok (evalRune c (fun cp => f.dotall || cp != c.separator.toNat) s)
      | .cls f cls => .ok (evalRune c (fun cp => classMatch icu cls cp f.icase) s)
      | .assert f k => .ok (if assertAt icu k f c s.pos then [s] else [])
      | .concat _ cs => evalConcat cs c (depth + 1) [s]
      | .alt _ cs => evalAlt cs c (depth + 1) s []
      | .group _ g _ ch => do
        let v ← eval ch c (depth + 1) s
        return v.map (fun z => z.setGroup g s.pos)
      | .backRef f g =>
        match backRefText c s g with
        | some text => .ok (evalLiteral icu c text f.icase s)
        | none      => .ok []
      | .lookAhead _ negative ch => do
        let v ← eval ch c (depth + 1) s
        if negative then return if v.isEmpty then [s] else []
        else return v.map (fun z => { z with pos := s.pos })
      | .lookBehind _ negative ch =>
        let f := eval ch (lookBehindContext c) (depth + 1)
        let lo := lookBehindFloor c negative s.pos
        if negative then do
          let ok ← lookBehindAny c f s (s.pos - lo + 1) lo
          return if ok then [] else [s]
        else lookBehindAll c f s (s.pos - lo + 1) lo
      | .repeat_ _ mn mx greedy ch => do
        let rest ← repeatLevels (eval ch c (depth + 1)) (repeatLimit c mx s.pos) [s] 1
        let kept := ([s] :: rest).drop mn
        limitStates (if greedy then kept.reverse.flatten else kept.flatten)

def evalConcat : List RegexNode → VerifierContext → Nat → List VmState → Eval (List VmState)
  | [], _, _, cur => .ok cur
  | ch :: cs, c, depth, cur => do
    let next ← expandAll (eval ch c depth) cur []
    if next.isEmpty then return [] else evalConcat cs c depth next

def evalAlt : List RegexNode → VerifierContext → Nat → VmState → List VmState → Eval (List VmState)
  | [], _, _, _, out => .ok out
  | ch :: cs, c, depth, s, out => do
    let v ← eval ch c depth s
    let out ← limitStates (out ++ v)
    evalAlt cs c depth s out
end

/-! ## `regex_search` and `regex_find_all` -/

section
variable (p : RegexProgram)

def evalSearch (c : VerifierContext) (fileId : Nat) : Nat → Nat → Eval (Option Match)
  | 0, _ => .ok none
  | fuel + 1, st =>
    if st < c.candidateEnd then do
      let v ← eval icu p.ast c 0 { pos := st, caps := List.replicate (p.groups + 1) (none, none) }
      match v with
      | z :: _ =>
        return some { fileId := fileId, start := st, stop := z.pos, captures := matchCaptures p st z.pos z.caps }
      | [] => if c.recordEnd ≤ st then return none else evalSearch c fileId fuel (stepStart c st)
    else .ok none

def regexSearch (c : VerifierContext) (fileId : Nat) : Eval (Option Match) :=
  if !c.validate then .ok none
  else if !p.extended then .ok (nfaSearch icu p c fileId)
  else evalSearch icu p c fileId (c.candidateEnd - c.candidateBegin + 1) c.candidateBegin

def afterMatch (c : VerifierContext) (overlapping : Bool) (m : Match) : Nat :=
  if !overlapping ∧ m.start < m.stop then m.stop else stepStart c m.start

/-- The loop of `regex_find_all`, from a position; `count` matches so far, at most `maxMatches` unless that is zero. -/
def findAllLoop (c : VerifierContext) (overlapping : Bool) (fileId maxMatches : Nat) : Nat → Nat → Nat → Eval (List Match)
  | 0, _, _ => .ok []
  | fuel + 1, count, pos =>
    if pos < c.candidateEnd then do
      match ← regexSearch icu p { c with candidateBegin := pos } fileId with
      | none => return []
      | some m =>
        if maxMatches ≠ 0 ∧ maxMatches ≤ count + 1 then return [m]
        else
          let rest ← findAllLoop c overlapping fileId maxMatches fuel (count + 1) (afterMatch c overlapping m)
          return m :: rest
    else .ok []

def regexFindAll (c : VerifierContext) (overlapping : Bool) (fileId maxMatches : Nat) : Eval (List Match) :=
  findAllLoop icu p c overlapping fileId maxMatches (c.candidateEnd - c.candidateBegin + 1) 0 c.candidateBegin

end

end

end Pergrep
