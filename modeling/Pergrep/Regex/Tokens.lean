import Pergrep.Regex.ParserRun
/-!
# Tokens — the pattern read from left to right

The parser's functions call one another; here the same pattern is read one token after another, by a machine that keeps
the groups still open (`Scan`).  `piece` is what `atom` reads before it calls `alt` again: a whole node, or the opening of
a group.  What a pattern says is written down as it is read (`Ev`): literal bytes, nodes, and each repetition with how
much of what stands before it it repeats.  A tree has its own reading (`RegexNode.events`), and it is the machine's
(`parse_scans`).
-/
namespace Pergrep
namespace Parser

/-! ## What an atom opens with -/

/-- A group that is open: what its closing parenthesis makes of the tree in it. -/
inductive Opening where
  | plain
  | flagged (opt : PatternOptions) (ignoreWs swapGreed : Bool)
  | look (f : NodeFlags) (behind negative : Bool)
  | group (f : NodeFlags) (g : Nat) (name : Bytes)

namespace Opening

def node : Opening → RegexNode → RegexNode
  | .plain, x | .flagged _ _ _, x => x
  | .look f behind negative, x => if behind then .lookBehind f negative x else .lookAhead f negative x
  | .group f g name, x => .group f g name x

def restore : Opening → PState → PState
  | .flagged opt ignoreWs swapGreed, st => { st with opt := opt, ignoreWs := ignoreWs, swapGreed := swapGreed }
  | _, st => st

theorem restore_i (w : Opening) (st : PState) : (w.restore st).i = st.i := by
  cases w <;> rfl

theorem restore_forward (w : Opening) (st : PState) (k : Nat) : w.restore (st.forward k) = (w.restore st).forward k := by
  cases w <;> rfl

def settle (s : Bytes) : Opening → PState → PState
  | .flagged _ _ _, st => skipped s st
  | _, st => st

def fuel (k : Nat) : Opening → Nat
  | .plain | .flagged _ _ _ => k
  | .look _ _ _ | .group _ _ _ => k - 1

def close (s : Bytes) : Opening → RegexNode → P RegexNode
  | .plain, x => do
    expectClose s "unclosed group"
    return x
  | .flagged opt ignoreWs swapGreed, x => do
    skipIgnored s
    expectClose s "unclosed flagged group"
    modify (fun st => { st with opt := opt, ignoreWs := ignoreWs, swapGreed := swapGreed })
    return x
  | .look f behind negative, x => do
    expectClose s (if behind then "unclosed lookbehind" else "unclosed lookahead")
    return if behind then .lookBehind f negative x else .lookAhead f negative x
  | .group f g name, x => do
    expectClose s "unclosed group"
    return .group f g name x

theorem close_ok {s : Bytes} {w : Opening} {x n : RegexNode} {st st' : PState} : w.close s x st = .ok (n, st') ↔
    s[(w.settle s st).i]? = some 0x29 ∧ st' = w.restore ((w.settle s st).forward 1) ∧ n = w.node x := by
  have hclose : ∀ {m : String} {k : P RegexNode} {st₀ : PState}, (expectClose s m >>= fun _ => k) st₀ = .ok (n, st') ↔
      s[st₀.i]? = some 0x29 ∧ k (st₀.forward 1) = .ok (n, st') := by
    intro m k st₀
    rw [bind_runs_iff]
    constructor
    · rintro ⟨u, st₁, h1, h2⟩
      obtain ⟨h3, rfl⟩ := expectClose_ok.1 h1
      exact ⟨h3, h2⟩
    · exact fun h => ⟨(), _, expectClose_ok.2 ⟨h.1, rfl⟩, h.2⟩
  have hpure : ∀ {m : RegexNode} {st₀ : PState}, (pure m : P RegexNode) st₀ = .ok (n, st') ↔ st' = st₀ ∧ n = m := by
    intro m st₀
    constructor
    · intro h
      cases h
      exact ⟨rfl, rfl⟩
    · rintro ⟨rfl, rfl⟩
      rfl
  cases w with
  | plain => exact hclose.trans (and_congr_right (fun _ => hpure))
  | flagged opt ignoreWs swapGreed =>
    rw [close, bind_run skipIgnored_run]
    exact hclose.trans (and_congr_right (fun _ => @hpure x (restore (.flagged opt ignoreWs swapGreed) _)))
  | look f behind negative => exact hclose.trans (and_congr_right (fun _ => hpure))
  | group f g name => exact hclose.trans (and_congr_right (fun _ => hpure))

end Opening

/-- What an atom opens with: it is a node read whole, or a group opens. -/
inductive Piece where
  | node (n : RegexNode)
  | opens (w : Opening)

section
variable (icu : Icu) (s : Bytes)

def openCapture (name : Bytes) : P Piece := do
  modify (fun st => { st with groups := st.groups + 1, groupNames := st.groupNames ++ [name] })
  let g := (← get).groups
  let f ← nodeFlags
  return .opens (.group f g name)

def openLook (behind negative : Bool) : P Piece := do
  modify (fun st => { st with extended := true })
  let f ← nodeFlags
  return .opens (.look f behind negative)

/-- What follows an opening parenthesis, up to the group's alternatives. -/
def groupHead : P Piece := do
  if ← eat s 0x3F then
    if ← eat s 0x50 then
      if ← eat s 0x3C then
        let name ← captureName s
        openCapture name
      else fail "expected < after ?P"
    else if ← eat s 0x3A then return .opens .plain
    else if ← eat s 0x3D then openLook false false
    else if ← eat s 0x21 then openLook false true
    else if ← eat s 0x3C then
      if ← eat s 0x3D then openLook true false
      else if ← eat s 0x21 then openLook true true
      else
        let name ← captureName s
        openCapture name
    else
      let saved ← get
      let seen ← flagsLoop (s.drop saved.i) false false
      if !seen then fail "unknown group extension"
      if ← eat s 0x29 then return .node (.empty (← nodeFlags))
      else if ← eat s 0x3A then return .opens (.flagged saved.opt saved.ignoreWs saved.swapGreed)
      else fail "malformed inline flags"
  else openCapture []

def piece : P Piece := do
  if ← eat s 0x5E then return .node (.assert (← nodeFlags) .begin_)
  else if ← eat s 0x24 then return .node (.assert (← nodeFlags) .end_)
  else if ← eat s 0x2E then return .node (.dot (← nodeFlags))
  else if ← eat s 0x5B then
    let n ← charClass icu s
    return .node n
  else if ← eat s 0x28 then groupHead s
  else if ← eat s 0x5C then
    let n ← escaped icu s
    return .node n
  else
    let cp ← patternRune s
    return .node (.literal (← nodeFlags) (appendUtf8 cp))

def closing (fuel : Nat) : Piece → P RegexNode
  | .node n => return n
  | .opens w => do
    let x ← alt icu s (w.fuel fuel)
    w.close s x

variable {icu s}

theorem ite_bind_run {α β : Type} {b : Bool} {x y : P α} {k : α → P β} :
    ((if b = true then x else y) >>= k) = if b = true then x >>= k else y >>= k := by
  cases b <;> rfl

theorem fail_bind {α β : Type} {m : String} {k : α → P β} : (fail m >>= k) = fail m := rfl

theorem capture_eq (fuel : Nat) (name : Bytes) : capture icu s fuel name = openCapture name >>= closing icu s fuel := by
  cases fuel with
  | zero =>
    funext st
    rfl
  | succ fuel => rfl

theorem look_eq (fuel : Nat) (behind negative : Bool) :
    look icu s fuel behind negative = openLook behind negative >>= closing icu s fuel := by
  cases fuel with
  | zero =>
    funext st
    rfl
  | succ fuel => rfl

theorem groupBody_eq (fuel : Nat) : groupBody icu s (fuel + 1) = groupHead s >>= closing icu s fuel := by
  rw [Parser.groupBody, groupHead]
  simp only [bind_assoc, ite_bind_run, pure_bind, capture_eq, look_eq, fail_bind]
  rfl

/-- **An atom is its opening and, for a group, what follows.** -/
theorem atom_eq (fuel : Nat) : atom icu s (fuel + 2) = piece icu s >>= closing icu s fuel := by
  rw [Parser.atom, piece]
  simp only [bind_assoc, ite_bind_run, pure_bind, groupBody_eq]
  simp only [closing, bind_pure]

theorem atom_one {st : PState} {r : RegexNode × PState} (h : atom icu s 1 st = .ok r) : atom icu s 2 st = .ok r := by
  rw [Parser.atom] at h ⊢
  by_cases h1 : s[st.i]? = some 0x5E
  · rwa [eat_ite_at h1] at h ⊢
  rw [eat_ite_not h1] at h ⊢
  by_cases h2 : s[st.i]? = some 0x24
  · rwa [eat_ite_at h2] at h ⊢
  rw [eat_ite_not h2] at h ⊢
  by_cases h3 : s[st.i]? = some 0x2E
  · rwa [eat_ite_at h3] at h ⊢
  rw [eat_ite_not h3] at h ⊢
  by_cases h4 : s[st.i]? = some 0x5B
  · rwa [eat_ite_at h4] at h ⊢
  rw [eat_ite_not h4] at h ⊢
  by_cases h5 : s[st.i]? = some 0x28
  · rw [eat_ite_at h5] at h
    cases h
  · rwa [eat_ite_not h5] at h ⊢

/-! ## The reading of a tree -/

/-- What a pattern says: a byte of a literal, a node that holds no other, a repetition with the number of events it
repeats, the end of a capturing group or of a look-around, and a bar. -/
inductive Ev where
  | lit (b : UInt8)
  | leaf
  | rep (min max size : Nat) (greedy : Bool)
  | group (g : Nat)
  | look (behind negative : Bool)
  | bar
  deriving DecidableEq, Repr

end

end Parser

open Pergrep.Parser (Ev)

mutual

def RegexNode.events : RegexNode → List Ev
  | .empty _ => []
  | .literal _ l => (l.map Ev.lit).reverse
  | .dot _ | .cls _ _ | .assert _ _ | .backRef _ _ => [.leaf]
  | .concat _ cs => RegexNode.eventsAll cs
  | .alt _ cs => RegexNode.eventsAlt cs
  | .repeat_ _ mn mx greedy c => .rep mn mx c.events.length greedy :: c.events
  | .group _ g _ c => .group g :: c.events
  | .lookAhead _ negative c => .look false negative :: c.events
  | .lookBehind _ negative c => .look true negative :: c.events

def RegexNode.eventsAll : List RegexNode → List Ev
  | [] => []
  | c :: cs => RegexNode.eventsAll cs ++ c.events

def RegexNode.eventsAlt : List RegexNode → List Ev
  | [] => []
  | c :: cs => RegexNode.eventsBars cs ++ c.events

def RegexNode.eventsBars : List RegexNode → List Ev
  | [] => []
  | c :: cs => RegexNode.eventsBars cs ++ (c.events ++ [.bar])

end

namespace Parser

open RegexNode (eventsAll eventsBars)

theorem eventsAll_append (xs ys : List RegexNode) : eventsAll (xs ++ ys) = eventsAll ys ++ eventsAll xs := by
  induction xs with
  | nil => rw [List.nil_append, RegexNode.eventsAll, List.append_nil]
  | cons x xs ih => rw [List.cons_append, RegexNode.eventsAll, RegexNode.eventsAll, ih, List.append_assoc]

theorem eventsAll_pushMerged (acc : List RegexNode) (x : RegexNode) :
    eventsAll (pushMerged acc x).reverse = x.events ++ eventsAll acc.reverse := by
  have hcons : eventsAll (x :: acc).reverse = x.events ++ eventsAll acc.reverse := by
    rw [List.reverse_cons, eventsAll_append, RegexNode.eventsAll, RegexNode.eventsAll, List.nil_append]
  unfold pushMerged
  split
  · rename_i f a t g b
    split
    · rw [List.reverse_cons, List.reverse_cons, eventsAll_append, eventsAll_append]
      simp only [RegexNode.eventsAll, RegexNode.events, List.nil_append, List.map_append, List.reverse_append,
        List.append_assoc]
    · exact hcons
  · exact hcons

theorem eventsAll_mergeLiterals (xs : List RegexNode) : eventsAll (mergeLiterals xs) = eventsAll xs := by
  have hfold : ∀ (xs acc : List RegexNode),
      eventsAll (xs.foldl pushMerged acc).reverse = eventsAll xs ++ eventsAll acc.reverse := by
    intro xs
    induction xs with
    | nil => exact fun acc => rfl
    | cons x xs ih =>
      intro acc
      rw [List.foldl_cons, ih, eventsAll_pushMerged, RegexNode.eventsAll, List.append_assoc]
  rw [mergeLiterals, hfold, List.reverse_nil, RegexNode.eventsAll, List.append_nil]

theorem events_concatNode (f : NodeFlags) (xs : List RegexNode) : (concatNode f xs).events = eventsAll xs := by
  rw [← eventsAll_mergeLiterals]
  unfold concatNode
  generalize mergeLiterals xs = ys
  rcases ys with _ | ⟨y, _ | ⟨z, t⟩⟩
  · rfl
  · rfl
  · rfl

theorem events_altNode (f : NodeFlags) (x : RegexNode) (xs : List RegexNode) :
    (altNode f x xs).events = eventsBars xs ++ x.events := by
  unfold altNode
  cases xs with
  | nil => rfl
  | cons y ys => rfl

def Opening.closes : Opening → List Ev
  | .plain | .flagged _ _ _ => []
  | .look _ behind negative => [.look behind negative]
  | .group _ g _ => [.group g]

theorem Opening.events_node (w : Opening) (x : RegexNode) : (w.node x).events = w.closes ++ x.events := by
  cases w with
  | plain => rfl
  | flagged opt ignoreWs swapGreed => rfl
  | look f behind negative => cases behind <;> rfl
  | group f g name => rfl

/-! ## The machine -/

/-- What stands directly before: nothing that could be repeated, an expression, or a quantifier, which a laziness mark can
still follow when it is `fresh`.  The number is of the events that a quantifier here would repeat. -/
inductive Before where
  | start
  | expr (size : Nat)
  | quantified (size : Nat) (fresh : Bool)
  deriving DecidableEq, Repr

/-- A pattern read up to a place: the parser's state there, the groups open there, each with the number of events before
it, what stands directly before, and what was said, the last first. -/
structure Scan where
  st : PState
  open_ : List (Opening × Nat) := []
  before : Before := .start
  out : List Ev := []

/-- The length of a comment after its `#`, with the line feed that ends it. -/
def commentLength : Bytes → Nat
  | [] => 0
  | b :: t => if b = 0x0A then 1 else 1 + commentLength t

section
variable (icu : Icu) (s : Bytes)

def quantifies (st : PState) : Bool :=
  match quantifier s st with
  | .ok (some _, _) => true
  | _ => false

def Scan.quantify (σ : Scan) (size : Nat) : Option Scan :=
  match quantifier s σ.st with
  | .ok (some (mn, mx), st) =>
    some { σ with st := st, before := .quantified (size + 1) true, out := .rep mn mx size (!st.swapGreed) :: σ.out }
  | _ => none

def Scan.mark (σ : Scan) (size : Nat) : Scan :=
  { σ with
    st := σ.st.forward 1
    before := .quantified size false
    out := match σ.out with
      | .rep mn mx k greedy :: out => .rep mn mx k (!greedy) :: out
      | out => out }

def Scan.atom (σ : Scan) : Option Scan :=
  match piece icu s σ.st with
  | .ok (.node n, st) => some { σ with st := st, before := .expr n.events.length, out := n.events ++ σ.out }
  | .ok (.opens w, st) => some { σ with st := st, before := .start, open_ := (w, σ.out.length) :: σ.open_ }
  | .error _ => none

def Scan.close (σ : Scan) : Option Scan :=
  match σ.open_ with
  | [] => none
  | (w, k) :: rest =>
    some { st := w.restore (σ.st.forward 1), open_ := rest, before := .expr ((w.closes ++ σ.out).length - k),
           out := w.closes ++ σ.out }

/-- Reads a quantifier or the opening of an atom, as what stands before it has it. -/
def Scan.item (nests : Bool) (σ : Scan) (c : UInt8) : Option Scan :=
  match σ.before with
  | .expr size => if opensQuantifier c then σ.quantify s size else σ.atom icu s
  | .quantified size fresh =>
    if fresh ∧ c = 0x3F then some (σ.mark size)
    else if nests ∧ quantifies s σ.st then σ.quantify s size
    else σ.atom icu s
  | .start => if nests ∧ quantifies s σ.st then none else σ.atom icu s

/-- **One token.**  The parser reads a quantifier directly after an expression, and anywhere else the same bytes as text.
With `nests`, a quantifier repeats what the quantifier before it made, and is refused where nothing stands before it. -/
def Scan.token (nests : Bool) (σ : Scan) : Option Scan :=
  match s[σ.st.i]? with
  | none => none
  | some c =>
    if σ.st.ignoreWs ∧ isSpaceByte c then some { σ with st := σ.st.forward 1, before := .start }
    else if σ.st.ignoreWs ∧ c = 0x23 then
      some { σ with st := σ.st.forward (1 + commentLength (s.drop (σ.st.i + 1))), before := .start }
    else if c = 0x29 then σ.close
    else if c = 0x7C then some { σ with st := σ.st.forward 1, before := .start, out := .bar :: σ.out }
    else σ.item icu s nests c

def Scans (nests : Bool) : Scan → Scan → Prop := Relation.ReflTransGen (fun σ τ => σ.token icu s nests = some τ)

variable {icu s}

/-! ## One token -/

theorem Scans.one {nests : Bool} {σ τ : Scan} (h : σ.token icu s nests = some τ) : Scans icu s nests σ τ := .single h

/-- The bytes the ignore-whitespace mode steps over. -/
def ignorable (st : PState) (c : UInt8) : Prop := st.ignoreWs = true ∧ (isSpaceByte c = true ∨ c = 0x23)

/-- The next byte is not taken for a quantifier of what stands before it, nor for its laziness mark. -/
def Scan.ready (s : Bytes) (σ : Scan) : Prop :=
  ∀ c, s[σ.st.i]? = some c → (∀ n, σ.before = .expr n → opensQuantifier c = false) ∧
    ∀ n, σ.before = .quantified n true → c ≠ 0x3F

theorem Scan.ready_start {st : PState} {K : List (Opening × Nat)} {out : List Ev} : Scan.ready s ⟨st, K, .start, out⟩ :=
  fun _ _ => ⟨fun _ h => Before.noConfusion h, fun _ h => Before.noConfusion h⟩

theorem Scan.token_eq {nests : Bool} {σ : Scan} {c : UInt8} (hc : s[σ.st.i]? = some c) (hi : ¬ ignorable σ.st c)
    (hs : ¬ stopsConcat s σ.st) : σ.token icu s nests = σ.item icu s nests c := by
  unfold Scan.token
  rw [hc]
  dsimp only
  rw [if_neg (fun h => hi ⟨h.1, Or.inl h.2⟩), if_neg (fun h => hi ⟨h.1, Or.inr h.2⟩),
    if_neg (fun h => hs (Or.inr (Or.inl (by rw [hc, h])))), if_neg (fun h => hs (Or.inr (Or.inr (by rw [hc, h]))))]

theorem Scan.token_atom {σ : Scan} {c : UInt8} (hc : s[σ.st.i]? = some c) (hi : ¬ ignorable σ.st c)
    (hs : ¬ stopsConcat s σ.st) (hr : σ.ready s) : σ.token icu s false = σ.atom icu s := by
  rw [Scan.token_eq hc hi hs]
  unfold Scan.item
  obtain ⟨he, hq⟩ := hr c hc
  cases hb : σ.before with
  | start => exact if_neg (fun h => Bool.false_ne_true h.1)
  | expr n => exact if_neg (by rw [he n hb]; exact Bool.false_ne_true)
  | quantified n fresh =>
    dsimp only
    rw [if_neg, if_neg (fun h => Bool.false_ne_true h.1)]
    rintro ⟨hf, h⟩
    rw [hf] at hb
    exact hq n hb h

/-- **What a token can be.** -/
inductive Scan.Step (icu : Icu) (s : Bytes) (nests : Bool) (σ : Scan) : Scan → Prop
  | ignored (c : UInt8) (k : Nat) (hc : s[σ.st.i]? = some c) (hi : ignorable σ.st c) (hk : 0 < k) :
      Step icu s nests σ { σ with st := σ.st.forward k, before := .start }
  | close (τ : Scan) (hc : s[σ.st.i]? = some 0x29) (h : σ.close = some τ) : Step icu s nests σ τ
  | bar (hc : s[σ.st.i]? = some 0x7C) :
      Step icu s nests σ { σ with st := σ.st.forward 1, before := .start, out := .bar :: σ.out }
  | quantify (size mn mx : Nat) (st : PState)
      (hb : σ.before = .expr size ∨ nests = true ∧ ∃ fresh, σ.before = .quantified size fresh)
      (hq : quantifier s σ.st = .ok (some (mn, mx), st)) : Step icu s nests σ
        { σ with st := st, before := .quantified (size + 1) true, out := .rep mn mx size (!st.swapGreed) :: σ.out }
  | mark (size : Nat) (hb : σ.before = .quantified size true) (hc : s[σ.st.i]? = some 0x3F) : Step icu s nests σ (σ.mark size)
  | node (n : RegexNode) (st : PState) (hs : ¬ stopsConcat s σ.st) (hp : piece icu s σ.st = .ok (.node n, st)) :
      Step icu s nests σ { σ with st := st, before := .expr n.events.length, out := n.events ++ σ.out }
  | opens (w : Opening) (st : PState) (hs : ¬ stopsConcat s σ.st) (hp : piece icu s σ.st = .ok (.opens w, st)) :
      Step icu s nests σ { σ with st := st, before := .start, open_ := (w, σ.out.length) :: σ.open_ }

theorem Scan.step_of_quantify {nests : Bool} {σ τ : Scan} {size : Nat}
    (hb : σ.before = .expr size ∨ nests = true ∧ ∃ fresh, σ.before = .quantified size fresh)
    (h : σ.quantify s size = some τ) : Scan.Step icu s nests σ τ := by
  unfold Scan.quantify at h
  split at h
  · rename_i mn mx st hq
    cases h
    exact .quantify size mn mx st hb hq
  · cases h

theorem Scan.step_of_atom {nests : Bool} {σ τ : Scan} (hs : ¬ stopsConcat s σ.st) (h : σ.atom icu s = some τ) :
    Scan.Step icu s nests σ τ := by
  unfold Scan.atom at h
  split at h
  · rename_i n st hp
    cases h
    exact .node n st hs hp
  · rename_i w st hp
    cases h
    exact .opens w st hs hp
  · cases h

theorem Scan.step_of_item {nests : Bool} {σ τ : Scan} {c : UInt8} (hc : s[σ.st.i]? = some c) (hs : ¬ stopsConcat s σ.st)
    (h : σ.item icu s nests c = some τ) : Scan.Step icu s nests σ τ := by
  unfold Scan.item at h
  split at h
  · rename_i size hb
    split at h
    · exact step_of_quantify (Or.inl hb) h
    · exact step_of_atom hs h
  · rename_i size fresh hb
    split at h
    · rename_i hf
      cases h
      exact .mark size (by rw [hb, hf.1]) (by rw [hc, hf.2])
    · split at h
      · rename_i hn
        exact step_of_quantify (Or.inr ⟨hn.1, fresh, hb⟩) h
      · exact step_of_atom hs h
  · split at h
    · cases h
    · exact step_of_atom hs h

theorem Scan.step_of_token {nests : Bool} {σ τ : Scan} (h : σ.token icu s nests = some τ) : Scan.Step icu s nests σ τ := by
  unfold Scan.token at h
  split at h
  · cases h
  · rename_i c hc
    split at h
    · rename_i hi
      cases h
      exact .ignored c 1 hc ⟨hi.1, Or.inl hi.2⟩ Nat.one_pos
    split at h
    · rename_i hi
      cases h
      exact .ignored c _ hc ⟨hi.1, Or.inr hi.2⟩ (by omega)
    split at h
    · rename_i h29
      subst h29
      exact .close τ hc h
    split at h
    · rename_i h7C
      subst h7C
      cases h
      exact .bar hc
    · rename_i h29 h7C
      refine step_of_item hc ?_ h
      unfold stopsConcat
      rw [hc]
      rintro (he | he | he)
      · cases he
      · exact h29 (Option.some.inj he)
      · exact h7C (Option.some.inj he)

theorem opensQuantifier_cases {c : UInt8} (h : opensQuantifier c = true) : c = 0x2A ∨ c = 0x2B ∨ c = 0x3F ∨ c = 0x7B := by
  rw [opensQuantifier, List.contains_iff_mem] at h
  simpa only [List.mem_cons, List.not_mem_nil, or_false] using h

theorem opensQuantifier_plain {st : PState} {c : UInt8} (hc : s[st.i]? = some c) (h : opensQuantifier c = true) :
    ¬ ignorable st c ∧ ¬ stopsConcat s st := by
  unfold ignorable stopsConcat
  rw [hc]
  rcases opensQuantifier_cases h with rfl | rfl | rfl | rfl
  all_goals exact ⟨fun h => absurd h.2 (by decide), by decide⟩

end

end Parser
end Pergrep
