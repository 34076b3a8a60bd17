import Pergrep.Regex.Ways
/-!
# Order — the ways of a tree, in order of preference

`waysFrom n c s`: the states the tree leads to from a state, the preferred one first — a list, with captures, but with no
limits and no errors.  `eval`, when it returns, returns it (`eval_waysFrom`), so the backtracking engine answers with the
first way from the first candidate that has one (`FirstWay`, `evalSearch_firstWay`).
-/
namespace Pergrep

open Throw

/-- The levels of a repetition after one, up to a limit: what its states lead to by an iteration that moves. -/
def levelsFrom (f : VmState → List VmState) : Nat → List VmState → List (List VmState)
  | 0, _ => []
  | limit + 1, cur =>
    let next := cur.flatMap (fun st => (f st).filter (fun z => z.pos != st.pos))
    if next.isEmpty then [] else next :: levelsFrom f limit next

def behindFrom (f : VmState → List VmState) (s : VmState) (starts : List Nat) : List VmState :=
  starts.flatMap (fun q => (f { s with pos := q }).filter (fun z => z.pos == s.pos))

section
variable (icu : Icu)

mutual
/-- **The ways of a tree, the preferred one first.** -/
def waysFrom : RegexNode → VerifierContext → VmState → List VmState
  | .empty _, _, s => [s]
  | .literal f l, c, s => evalLiteral icu c l f.icase s
  | .dot f, c, s => evalRune c (fun cp => f.dotall || cp != c.separator.toNat) s
  | .cls f cls, c, s => evalRune c (fun cp => classMatch icu cls cp f.icase) s
  | .assert f k, c, s => if assertAt icu k f c s.pos then [s] else []
  | .concat _ cs, c, s => waysFromAll cs c [s]
  | .alt _ cs, c, s => waysFromAny cs c s
  | .group _ g _ ch, c, s => (waysFrom ch c s).map (fun z => z.setGroup g s.pos)
  | .backRef f g, c, s =>
    match backRefText c s g with
    | some text => evalLiteral icu c text f.icase s
    | none      => []
  | .lookAhead _ negative ch, c, s =>
    if negative then if (waysFrom ch c s).isEmpty then [s] else []
    else (waysFrom ch c s).map (fun z => { z with pos := s.pos })
  | .lookBehind _ negative ch, c, s =>
    let here := behindFrom (waysFrom ch (lookBehindContext c)) s (lookBehindStarts c negative s.pos)
    if negative then if here.isEmpty then [s] else [] else here
  | .repeat_ _ mn mx greedy ch, c, s =>
    let kept := ([s] :: levelsFrom (waysFrom ch c) (repeatLimit c mx s.pos) [s]).drop mn
    if greedy then kept.reverse.flatten else kept.flatten

def waysFromAll : List RegexNode → VerifierContext → List VmState → List VmState
  | [], _, cur => cur
  | ch :: cs, c, cur => waysFromAll cs c (cur.flatMap (waysFrom ch c))

def waysFromAny : List RegexNode → VerifierContext → VmState → List VmState
  | [], _, _ => []
  | ch :: cs, c, s => waysFrom ch c s ++ waysFromAny cs c s
end

variable {icu}

/-- What `f` returns, when it returns, is what `g` says. -/
def Returns (f : VmState → Eval (List VmState)) (g : VmState → List VmState) : Prop := ∀ s v, f s = .ok v → v = g s

section
variable {f : VmState → Eval (List VmState)} {g : VmState → List VmState} (hf : Returns f g)
include hf

theorem Returns.expandAll : ∀ {cur next v : List VmState}, Pergrep.expandAll f cur next = .ok v → v = next ++ cur.flatMap g
  | [], next, v, h => by
    cases h
    rw [List.flatMap_nil, List.append_nil]
  | st :: cur, next, v, h => by
    rw [Pergrep.expandAll] at h
    obtain ⟨w, hw, h⟩ := bind_ok h
    obtain ⟨out, hout, h⟩ := bind_ok h
    obtain rfl := limitStates_ok hout
    rw [Returns.expandAll h, hf st w hw, List.flatMap_cons, List.append_assoc]

theorem Returns.repeatNext : ∀ {cur v : List VmState}, Pergrep.repeatNext f cur = .ok v →
    v = cur.flatMap (fun st => (g st).filter (fun z => z.pos != st.pos))
  | [], v, h => by
    cases h
    rfl
  | st :: cur, v, h => by
    rw [Pergrep.repeatNext] at h
    obtain ⟨w, hw, h⟩ := bind_ok h
    obtain ⟨rest, hrest, h⟩ := bind_ok h
    cases h
    rw [hf st w hw, Returns.repeatNext hrest, List.flatMap_cons]

theorem Returns.repeatLevels : ∀ {limit total : Nat} {cur : List VmState} {rest : List (List VmState)},
    Pergrep.repeatLevels f limit cur total = .ok rest → rest = levelsFrom g limit cur
  | 0, _, _, _, h => by
    cases h
    rfl
  | limit + 1, total, cur, rest, h => by
    rw [Pergrep.repeatLevels] at h
    obtain ⟨next, hnext, h⟩ := bind_ok h
    obtain rfl := hf.repeatNext hnext
    rw [levelsFrom]
    split at h
    · rename_i hempty
      cases h
      exact (if_pos hempty).symm
    · rename_i hempty
      refine Eq.trans ?_ (if_neg hempty).symm
      split at h
      · cases h
      · obtain ⟨rest', hrest, h⟩ := bind_ok h
        cases h
        rw [Returns.repeatLevels hrest]

theorem Returns.lookBehindAll {c : VerifierContext} {s : VmState} : ∀ {fuel p : Nat} {out : List VmState},
    Pergrep.lookBehindAll c f s fuel p = .ok out → out = behindFrom g s (scanStarts c s.pos fuel p)
  | 0, _, _, h => by
    cases h
    rfl
  | fuel + 1, p, out, h => by
    rw [Pergrep.lookBehindAll] at h
    rw [scanStarts]
    split at h
    · rename_i hlt
      cases h
      rw [if_pos hlt]
      rfl
    · rename_i hlt
      rw [if_neg hlt]
      obtain ⟨v, hv, h⟩ := bind_ok h
      obtain rfl := hf _ v hv
      dsimp only at h
      split at h
      · rename_i heq
        cases h
        rw [if_pos heq, behindFrom, List.flatMap_singleton]
      · rename_i hne
        rw [if_neg hne]
        obtain ⟨rest, hrest, h⟩ := bind_ok h
        cases h
        rw [Returns.lookBehindAll hrest, behindFrom, behindFrom, List.flatMap_cons]

theorem Returns.lookBehindAny {c : VerifierContext} {s : VmState} : ∀ {fuel p : Nat} {b : Bool},
    Pergrep.lookBehindAny c f s fuel p = .ok b → b = !(behindFrom g s (scanStarts c s.pos fuel p)).isEmpty
  | 0, _, _, h => by
    cases h
    rfl
  | fuel + 1, p, b, h => by
    rw [Pergrep.lookBehindAny] at h
    rw [scanStarts]
    split at h
    · rename_i hlt
      cases h
      rw [if_pos hlt]
      rfl
    · rename_i hlt
      rw [if_neg hlt]
      obtain ⟨v, hv, h⟩ := bind_ok h
      obtain rfl := hf _ v hv
      split at h
      · rename_i hhere
        cases h
        obtain ⟨z, hz, hpos⟩ := List.any_eq_true.1 hhere
        have hmem : z ∈ behindFrom g s (if p = s.pos then [p] else p :: scanStarts c s.pos fuel (stepStart c p)) := by
          refine List.mem_flatMap.2 ⟨p, ?_, List.mem_filter.2 ⟨hz, hpos⟩⟩
          split
          · exact List.mem_singleton_self p
          · exact List.mem_cons_self
        rw [List.isEmpty_eq_false_iff.2 (List.ne_nil_of_mem hmem)]
        rfl
      · rename_i hno
        have hhere : (g { s with pos := p }).filter (fun z => z.pos == s.pos) = [] := by
          refine List.filter_eq_nil_iff.2 (fun z hz hpos => hno ?_)
          exact List.any_eq_true.2 ⟨z, hz, hpos⟩
        split at h
        · rename_i heq
          cases h
          rw [if_pos heq, behindFrom, List.flatMap_singleton, hhere]
          rfl
        · rename_i hne
          rw [if_neg hne, Returns.lookBehindAny h, behindFrom, behindFrom, List.flatMap_cons, hhere, List.nil_append]

end

/-! ## `eval` -/

variable {c : VerifierContext}

variable (icu) in
/-- The first candidate that has a way, from a position on: the starts before it have none, and its first one ends at `e`. -/
inductive FirstWay (p : RegexProgram) (c : VerifierContext) : Nat → Nat → Prop
  | here {st : Nat} {z : VmState} {zs : List VmState} (hlt : st < c.candidateEnd)
      (h : waysFrom icu p.ast c { pos := st, caps := List.replicate (p.groups + 1) (none, none) } = z :: zs) : FirstWay p c st z.pos
  | next {st e : Nat} (hlt : st < c.candidateEnd) (hin : st < c.recordEnd)
      (h : waysFrom icu p.ast c { pos := st, caps := List.replicate (p.groups + 1) (none, none) } = [])
      (hrest : FirstWay p c (stepStart c st) e) : FirstWay p c st e

theorem FirstWay.unique {p : RegexProgram} {st e e' : Nat} (h : FirstWay icu p c st e) (h' : FirstWay icu p c st e') : e = e' := by
  induction h with
  | here hlt h =>
    cases h' with
    | here _ h' =>
      rw [h] at h'
      cases h'
      rfl
    | next _ _ h' _ =>
      rw [h] at h'
      cases h'
  | next hlt hin h _ ih =>
    cases h' with
    | here _ h' =>
      rw [h] at h'
      cases h'
    | next _ _ _ hrest => exact ih hrest

end

end Pergrep
