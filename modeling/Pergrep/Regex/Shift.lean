import Pergrep.Lib.Throw
import Pergrep.Regex.Vm
/-!
# Shift — where the source begins does not matter

`VerifierContext.shift b` is the same text with every coordinate `b` further on.  Each reader, each assertion and each
loop of both engines commutes with it: positions come out `b` further on, and what is thrown is the same
(`eval_shift`, `simLoop_shift`, `regexFindAll_shift`).  Only `validate` looks at a coordinate as such, which is why the
source must end below `SIZE_MAX`.
-/
namespace Pergrep

open Throw

/-! ## Shifted data -/

def Rune.shift (b : Nat) (r : Rune) : Rune := { r with next := r.next + b }

def VerifierContext.shift (b : Nat) (c : VerifierContext) : VerifierContext :=
  { c with sourceBegin := c.sourceBegin + b, sourceEnd := c.sourceEnd + b, recordBegin := c.recordBegin + b,
           recordEnd := c.recordEnd + b, candidateBegin := c.candidateBegin + b, candidateEnd := c.candidateEnd + b,
           regionBegin := c.regionBegin + b, regionEnd := c.regionEnd + b }

def slotShift (b : Nat) (q : Option Nat × Option Nat) : Option Nat × Option Nat := (q.1.map (· + b), q.2.map (· + b))

def VmState.shift (b : Nat) (s : VmState) : VmState := { pos := s.pos + b, caps := s.caps.map (slotShift b) }

def NfaThread.shift (b : Nat) (t : NfaThread) : NfaThread :=
  { t with start := t.start + b, caps := t.caps.map (slotShift b) }

def Capture.shift (b : Nat) (k : Capture) : Capture :=
  if k.matched then { k with start := k.start + b, stop := k.stop + b } else k

def Match.shift (b : Nat) (m : Match) : Match :=
  { m with start := m.start + b, stop := m.stop + b, captures := m.captures.map (Capture.shift b) }

/-! ## The readers -/

section
variable {b : Nat} {c : VerifierContext}

theorem validate_shift (hb : c.sourceEnd + b < sizeMax) : (c.shift b).validate = c.validate := by
  have hiff : (c.shift b).Valid ↔ c.Valid := by
    constructor
    · rintro ⟨h1, h2, h3, h4, h5, h6, h7, h8, h9, h10⟩
      dsimp only [VerifierContext.shift] at *
      exact ⟨by omega, by omega, by omega, by omega, by omega, by omega, by omega, by omega, by omega,
        fun h => by have := h10 h; omega⟩
    · rintro ⟨h1, h2, h3, h4, h5, h6, h7, h8, h9, h10⟩
      dsimp only [VerifierContext.shift]
      constructor
      all_goals dsimp only
      all_goals try omega
      exact fun h => by have := h10 h; omega
  rw [Bool.eq_iff_iff, VerifierContext.validate_iff, VerifierContext.validate_iff, hiff]

theorem sourceRuneAt_shift (pos : Nat) :
    sourceRuneAt (c.shift b) (pos + b) = (sourceRuneAt c pos).map (Rune.shift b) := by
  simp only [sourceRuneAt, VerifierContext.shift, Nat.add_sub_add_right, Option.map_map]
  congr 1
  funext r
  simp only [Function.comp, Rune.shift, Nat.add_assoc]

theorem regionContains_shift (pos : Nat) : (c.shift b).regionContains (pos + b) = c.regionContains pos := by
  simp only [VerifierContext.regionContains, VerifierContext.contains, VerifierContext.shift, Nat.add_le_add_iff_right,
    Nat.add_lt_add_iff_right]

theorem regionClip_shift (pos : Nat) :
    (match sourceRuneAt (c.shift b) (pos + b) with
      | some r => if (c.shift b).boundedRegion ∧ (c.shift b).regionEnd < r.next then none else some r
      | none   => none) =
    (match sourceRuneAt c pos with
      | some r => if c.boundedRegion ∧ c.regionEnd < r.next then none else some r
      | none   => none : Option Rune).map (Rune.shift b) := by
  rw [sourceRuneAt_shift]
  cases sourceRuneAt c pos with
  | none => rfl
  | some r =>
    simp only [Option.map_some, VerifierContext.shift, Rune.shift, Nat.add_lt_add_iff_right]
    split
    · rfl
    · rfl

theorem contextRuneAt_shift (hb : c.sourceEnd + b < sizeMax) (pos : Nat) :
    contextRuneAt (c.shift b) (pos + b) = (contextRuneAt c pos).map (Rune.shift b) := by
  have hlo : pos + b < (c.shift b).recordBegin ↔ pos < c.recordBegin := Nat.add_lt_add_iff_right
  have hhi : (c.shift b).recordEnd ≤ pos + b ↔ c.recordEnd ≤ pos := Nat.add_le_add_iff_right
  unfold contextRuneAt
  simp only [validate_shift hb, regionContains_shift, hlo, hhi]
  split
  · rfl
  · exact regionClip_shift pos

theorem contextRuneAtValidated_shift (pos : Nat) :
    contextRuneAtValidated (c.shift b) (pos + b) = (contextRuneAtValidated c pos).map (Rune.shift b) := by
  have hlo : pos + b < (c.shift b).recordBegin ↔ pos < c.recordBegin := Nat.add_lt_add_iff_right
  have hhi : (c.shift b).recordEnd ≤ pos + b ↔ c.recordEnd ≤ pos := Nat.add_le_add_iff_right
  have hbyte : (c.shift b).source[pos + b - (c.shift b).sourceBegin]? = c.source[pos - c.sourceBegin]? :=
    congrArg (c.source[·]?) (Nat.add_sub_add_right _ _ _)
  have hregion : (!(c.shift b).boundedRegion ∨ pos + b + 1 ≤ (c.shift b).regionEnd) ↔
      (!c.boundedRegion ∨ pos + 1 ≤ c.regionEnd) := by
    dsimp only [VerifierContext.shift]
    rw [Nat.add_right_comm, Nat.add_le_add_iff_right]
  unfold contextRuneAtValidated
  simp only [hlo, hhi, hbyte, hregion]
  split
  · rfl
  · split
    · split
      · split
        · simp only [Option.map_some, Rune.shift, Nat.add_right_comm]
        · rfl
      · exact regionClip_shift pos
    · exact regionClip_shift pos

theorem contextByte_shift (hb : c.sourceEnd + b < sizeMax) (pos : Nat) :
    contextByte (c.shift b) (pos + b) = contextByte c pos := by
  unfold contextByte
  rw [validate_shift hb]
  simp only [VerifierContext.shift, Nat.add_lt_add_iff_right, Nat.add_le_add_iff_right, Nat.add_sub_add_right]

theorem contextRuneBefore_shift (hb : c.sourceEnd + b < sizeMax) (pos : Nat) :
    contextRuneBefore (c.shift b) (pos + b) = (contextRuneBefore c pos).map (Rune.shift b) := by
  unfold contextRuneBefore
  rw [validate_shift hb]
  simp only [VerifierContext.shift, Nat.add_lt_add_iff_right, Nat.add_le_add_iff_right, Nat.add_sub_add_right]
  split
  · rfl
  · rw [Option.map_map]
    congr 1
    funext r
    simp only [Function.comp, Rune.shift, Nat.add_assoc]

theorem contextRuneRight_shift (hb : c.sourceEnd + b < sizeMax) (pos : Nat) :
    contextRuneRight (c.shift b) (pos + b) = (contextRuneRight c pos).map (Rune.shift b) := by
  have hsource := @sourceRuneAt_shift b c pos
  unfold contextRuneRight
  rw [validate_shift hb, hsource]
  simp only [VerifierContext.shift, Nat.add_lt_add_iff_right, Nat.add_le_add_iff_right, Nat.add_right_cancel_iff]
  split
  · rfl
  · split
    · rfl
    · rfl

theorem isWordAt_shift (icu : Icu) (unicode : Bool) (r : Option Rune) :
    icu.isWordAt unicode (r.map (Rune.shift b)) = icu.isWordAt unicode r := by
  cases r with
  | none => rfl
  | some r => rfl

/-! ## The assertions -/

theorem crlfAt_shift (hb : c.sourceEnd + b < sizeMax) (f : NodeFlags) (pos : Nat) :
    crlfAt f (c.shift b) (pos + b) = crlfAt f c pos := by
  unfold crlfAt
  rw [contextByte_shift hb, Nat.add_right_comm, contextByte_shift hb]
  rfl

theorem assertEndNewline_shift (hb : c.sourceEnd + b < sizeMax) (f : NodeFlags) (pos : Nat) :
    assertEndNewline f (c.shift b) (pos + b) = assertEndNewline f c pos := by
  have hend : ∀ k, (pos + b + k == c.recordEnd + b) = (pos + k == c.recordEnd) := fun k => by
    rw [Bool.eq_iff_iff, beq_iff_eq, beq_iff_eq]
    omega
  have hend0 := hend 0
  simp only [Nat.add_zero] at hend0
  unfold assertEndNewline
  rw [contextByte_shift hb, crlfAt_shift hb]
  simp only [VerifierContext.shift, hend, hend0]

theorem assertEnd_shift (hb : c.sourceEnd + b < sizeMax) (f : NodeFlags) (pos : Nat) :
    assertEnd f (c.shift b) (pos + b) = assertEnd f c pos := by
  have hend : (pos + b == c.recordEnd + b) = (pos == c.recordEnd) := by
    rw [Bool.eq_iff_iff, beq_iff_eq, beq_iff_eq]
    omega
  have hone : pos + b + 1 < c.recordEnd + b ↔ pos + 1 < c.recordEnd := by omega
  unfold assertEnd
  rw [contextByte_shift hb, crlfAt_shift hb, assertEndNewline_shift hb]
  simp only [VerifierContext.shift, hend, hone, Nat.add_lt_add_iff_right]

theorem assertBegin_shift (hb : c.sourceEnd + b < sizeMax) (f : NodeFlags) (pos : Nat) :
    assertBegin f (c.shift b) (pos + b) = assertBegin f c pos := by
  have hbegin : (pos + b == c.recordBegin + b) = (pos == c.recordBegin) := by
    rw [Bool.eq_iff_iff, beq_iff_eq, beq_iff_eq]
    omega
  unfold assertBegin
  -- the byte before is only read when there is one
  by_cases hpos : c.sourceBegin < pos
  · rw [show pos + b - 1 = pos - 1 + b by omega, contextByte_shift hb]
    simp only [VerifierContext.shift, hbegin, Nat.add_lt_add_iff_right]
  · simp only [VerifierContext.shift, hbegin, Nat.add_lt_add_iff_right, hpos, decide_false, Bool.and_false,
      Bool.false_and]

theorem assertAt_shift (hb : c.sourceEnd + b < sizeMax) (icu : Icu) (k : AssertKind) (f : NodeFlags) (pos : Nat) :
    assertAt icu k f (c.shift b) (pos + b) = assertAt icu k f c pos := by
  have hat : ∀ x, (pos + b == x + b) = (pos == x) := fun x => by
    rw [Bool.eq_iff_iff, beq_iff_eq, beq_iff_eq]
    omega
  cases k with
  | begin_ => exact assertBegin_shift hb f pos
  | end_ => exact assertEnd_shift hb f pos
  | absBegin => exact hat c.recordBegin
  | absEnd => exact hat c.recordEnd
  | endNewline => exact assertEndNewline_shift hb f pos
  | wordBoundary negative =>
    simp only [assertAt, assertWord, contextRuneBefore_shift hb, contextRuneRight_shift hb, isWordAt_shift]
  | wordStartHalf => simp only [assertAt, assertWordStartHalf, contextRuneBefore_shift hb, isWordAt_shift]
  | wordEndHalf => simp only [assertAt, assertWordEndHalf, contextRuneRight_shift hb, isWordAt_shift]

end

/-! ## The backtracking engine -/

@[simp] theorem VmState.shift_pos (b : Nat) (s : VmState) : (s.shift b).pos = s.pos + b := rfl

theorem VmState.shift_goto (b pos : Nat) (s : VmState) :
    ({ s.shift b with pos := pos + b } : VmState) = ({ s with pos := pos } : VmState).shift b := rfl

theorem VmState.shift_setGroup (b : Nat) (z : VmState) (g base : Nat) :
    (z.shift b).setGroup g (base + b) = (z.setGroup g base).shift b := by
  simp only [VmState.setGroup, VmState.shift, List.length_map, List.map_set, List.map_append, List.map_replicate,
    slotShift, Option.map_some, Option.map_none]

theorem beq_shift (b x y : Nat) : (x + b == y + b) = (x == y) := by
  rw [Bool.eq_iff_iff, beq_iff_eq, beq_iff_eq, Nat.add_right_cancel_iff]

/-- `g` does on the shifted text what `f` does. -/
def Shifts (b : Nat) (f g : VmState → Eval (List VmState)) : Prop :=
  ∀ s, g (s.shift b) = (f s).map (List.map (VmState.shift b))

section
variable {b : Nat}

theorem limitStates_shift (out : List VmState) :
    limitStates (out.map (VmState.shift b)) = (limitStates out).map (List.map (VmState.shift b)) := by
  simp only [limitStates, List.length_map]
  split
  · rfl
  · rfl

theorem filter_shift (P : Nat → Nat → Bool) (hP : ∀ x y, P (x + b) (y + b) = P x y) (v : List VmState) (pos : Nat) :
    (v.map (VmState.shift b)).filter (fun z => P z.pos (pos + b)) =
      (v.filter (fun z => P z.pos pos)).map (VmState.shift b) := by
  rw [List.filter_map]
  congr 1
  refine List.filter_congr (fun z _ => ?_)
  exact hP z.pos pos

section
variable {f g : VmState → Eval (List VmState)} (hfg : Shifts b f g)
include hfg

theorem expandAll_shift : ∀ cur next : List VmState,
    expandAll g (cur.map (VmState.shift b)) (next.map (VmState.shift b)) =
      (expandAll f cur next).map (List.map (VmState.shift b))
  | [], _ => rfl
  | st :: cur, next => by
    rw [List.map_cons, expandAll, expandAll, hfg st]
    refine bind_of_map (fun v => ?_)
    rw [← List.map_append, limitStates_shift]
    exact bind_of_map (fun next => expandAll_shift cur next)

theorem repeatNext_shift : ∀ cur : List VmState,
    repeatNext g (cur.map (VmState.shift b)) = (repeatNext f cur).map (List.map (VmState.shift b))
  | [] => rfl
  | st :: cur => by
    rw [List.map_cons, repeatNext, repeatNext, hfg st]
    refine bind_of_map (fun v => ?_)
    rw [repeatNext_shift cur]
    refine bind_of_map (fun w => ?_)
    have hmoved := filter_shift (fun x y => x != y) (fun x y => congrArg Bool.not (beq_shift b x y)) v st.pos
    exact congrArg Except.ok (by rw [List.map_append, ← hmoved, VmState.shift_pos])

theorem repeatLevels_shift : ∀ (limit : Nat) (levels : List VmState) (total : Nat),
    repeatLevels g limit (levels.map (VmState.shift b)) total =
      (repeatLevels f limit levels total).map (List.map (List.map (VmState.shift b)))
  | 0, _, _ => rfl
  | limit + 1, levels, total => by
    rw [repeatLevels, repeatLevels, repeatNext_shift hfg]
    refine bind_of_map (fun next => ?_)
    simp only [List.isEmpty_map, List.length_map]
    split
    · rfl
    split
    · rfl
    · rw [repeatLevels_shift limit next]
      exact bind_of_map (fun rest => rfl)

variable {c : VerifierContext} (hb : c.sourceEnd + b < sizeMax)
include hb

omit hfg in
theorem stepStart_shift (p : Nat) : stepStart (c.shift b) (p + b) = stepStart c p + b := by
  unfold stepStart
  rw [contextRuneAt_shift hb]
  cases contextRuneAt c p with
  | none => exact Nat.add_right_comm p b 1
  | some r => rfl

theorem lookBehindAny_shift (s : VmState) : ∀ fuel p : Nat,
    lookBehindAny (c.shift b) g (s.shift b) fuel (p + b) = lookBehindAny c f s fuel p
  | 0, _ => rfl
  | fuel + 1, p => by
    rw [lookBehindAny, lookBehindAny, VmState.shift_goto, hfg]
    simp only [VmState.shift_pos, Nat.add_lt_add_iff_right, Nat.add_right_cancel_iff]
    split
    · rfl
    · cases f { s with pos := p } with
      | error e => rfl
      | ok v =>
        have hany : (v.map (VmState.shift b)).any (fun z => z.pos == s.pos + b) = v.any (fun z => z.pos == s.pos) := by
          rw [List.any_map]
          congr 1
          funext z
          exact beq_shift b z.pos s.pos
        simp only [Except.map, bind, Except.bind, hany]
        rw [stepStart_shift hb, lookBehindAny_shift s fuel (stepStart c p)]

theorem lookBehindAll_shift (s : VmState) : ∀ fuel p : Nat,
    lookBehindAll (c.shift b) g (s.shift b) fuel (p + b) = (lookBehindAll c f s fuel p).map (List.map (VmState.shift b))
  | 0, _ => rfl
  | fuel + 1, p => by
    rw [lookBehindAll, lookBehindAll, VmState.shift_goto, hfg]
    simp only [VmState.shift_pos, Nat.add_lt_add_iff_right, Nat.add_right_cancel_iff]
    split
    · rfl
    · refine bind_of_map (fun v => ?_)
      have hhere := filter_shift (fun x y => x == y) (beq_shift b) v s.pos
      simp only [hhere]
      split
      · rfl
      · rw [stepStart_shift hb, lookBehindAll_shift s fuel (stepStart c p)]
        exact bind_of_map (fun rest => congrArg Except.ok List.map_append.symm)

end

section
variable {icu : Icu} {c : VerifierContext} (hb : c.sourceEnd + b < sizeMax)
include hb

theorem contextLiteralAt_shift (lit : Bytes) (icase : Bool) : ∀ fuel tp lp : Nat,
    contextLiteralAt icu (c.shift b) lit icase fuel (tp + b) lp =
      (contextLiteralAt icu c lit icase fuel tp lp).map (· + b)
  | 0, _, _ => rfl
  | fuel + 1, tp, lp => by
    rw [contextLiteralAt, contextLiteralAt, contextRuneAt_shift hb]
    split
    · cases contextRuneAt c tp with
      | none => rfl
      | some r =>
        cases runeAt lit lp with
        | none => rfl
        | some x =>
          dsimp only [Option.map_some, Rune.shift]
          split
          · exact contextLiteralAt_shift lit icase fuel r.next x.next
          · rfl
    · rfl

theorem evalLiteral_shift (lit : Bytes) (icase : Bool) (s : VmState) :
    evalLiteral icu (c.shift b) lit icase (s.shift b) = (evalLiteral icu c lit icase s).map (VmState.shift b) := by
  unfold evalLiteral
  rw [VmState.shift_pos, contextLiteralAt_shift hb]
  cases contextLiteralAt icu c lit icase (lit.length + 1) s.pos 0 with
  | none => rfl
  | some e => rfl

theorem evalRune_shift (test : Nat → Bool) (s : VmState) :
    evalRune (c.shift b) test (s.shift b) = (evalRune c test s).map (VmState.shift b) := by
  unfold evalRune
  rw [VmState.shift_pos, contextRuneAt_shift hb]
  cases contextRuneAt c s.pos with
  | none => rfl
  | some r =>
    dsimp only [Option.map_some, Rune.shift]
    split
    · rfl
    · rfl

end

section
variable {c : VerifierContext}

theorem backRefText_shift (s : VmState) (g : Nat) : backRefText (c.shift b) (s.shift b) g = backRefText c s g := by
  unfold backRefText
  rw [VmState.shift, List.getElem?_map]
  rcases s.caps[g]? with _ | ⟨_ | x, _ | y⟩
  · rfl
  · rfl
  · rfl
  · rfl
  · simp only [Option.map_some, slotShift, VerifierContext.shift, Nat.add_lt_add_iff_right, Nat.add_sub_add_right]

theorem lookBehindContext_shift : lookBehindContext (c.shift b) = (lookBehindContext c).shift b := by
  simp only [lookBehindContext, VerifierContext.shift]
  congr 1
  · exact (apply_ite (· + b) _ _ _).symm
  · exact (apply_ite (· + b) _ _ _).symm

/-- The window is cut at the same start: where it is not cut, the start it would be cut at is before all others. -/
theorem lookBehindFloor_shift (negative : Bool) (pos : Nat) :
    lookBehindFloor (c.shift b) negative (pos + b) = lookBehindFloor c negative pos + b := by
  have hfloor :
      (if negative || !(c.shift b).leftContextAvailable then (c.shift b).recordBegin else (c.shift b).sourceBegin) =
        (if negative || !c.leftContextAvailable then c.recordBegin else c.sourceBegin) + b :=
    (apply_ite (· + b) _ _ _).symm
  unfold lookBehindFloor
  simp only [hfloor]
  generalize (if negative || !c.leftContextAvailable then c.recordBegin else c.sourceBegin) = floor
  unfold vmLookBehindWindow
  split
  · split
    · omega
    · omega
  · split
    · omega
    · rfl

theorem repeatLimit_shift (mx pos : Nat) : repeatLimit (c.shift b) mx (pos + b) = repeatLimit c mx pos := by
  simp only [repeatLimit, VerifierContext.shift, Nat.add_le_add_iff_right, Nat.add_sub_add_right]

end

mutual
/-- **`eval` on the shifted text.** -/
theorem eval_shift {icu : Icu} : ∀ (n : RegexNode) {c : VerifierContext} (_ : c.sourceEnd + b < sizeMax) (depth : Nat),
    Shifts b (eval icu n c depth) (eval icu n (c.shift b) depth)
  | n, c, hb, depth, s => by
    rw [eval.eq_def, eval.eq_def]
    dsimp only
    split
    · rfl
    match n with
    | .empty _ => rfl
    | .literal f l => exact congrArg Except.ok (evalLiteral_shift hb l f.icase s)
    | .dot f => exact congrArg Except.ok (evalRune_shift hb _ s)
    | .cls f cls => exact congrArg Except.ok (evalRune_shift hb _ s)
    | .assert f k =>
      refine congrArg Except.ok ?_
      rw [VmState.shift_pos, assertAt_shift hb]
      split
      · rfl
      · rfl
    | .concat _ cs => exact evalConcat_shift cs hb (depth + 1) [s]
    | .alt _ cs => exact evalAlt_shift cs hb (depth + 1) s []
    | .group _ g _ ch =>
      dsimp only
      rw [eval_shift ch hb (depth + 1) s]
      refine bind_of_map (fun v => congrArg Except.ok ?_)
      rw [List.map_map, List.map_map]
      exact List.map_congr_left (fun z _ => VmState.shift_setGroup b z g s.pos)
    | .backRef f g =>
      dsimp only
      rw [backRefText_shift]
      cases backRefText c s g with
      | none => rfl
      | some text => exact congrArg Except.ok (evalLiteral_shift hb text f.icase s)
    | .lookAhead _ negative ch =>
      dsimp only
      rw [eval_shift ch hb (depth + 1) s]
      refine bind_of_map (fun v => ?_)
      rw [List.isEmpty_map]
      split
      · split
        · rfl
        · rfl
      · refine congrArg Except.ok ?_
        rw [List.map_map, List.map_map]
        rfl
    | .lookBehind _ negative ch =>
      have hctx : (lookBehindContext c).sourceEnd + b < sizeMax := hb
      have hch := @eval_shift icu ch _ hctx (depth + 1)
      dsimp only
      rw [lookBehindContext_shift, VmState.shift_pos, lookBehindFloor_shift, Nat.add_sub_add_right,
        lookBehindAny_shift hch hb, lookBehindAll_shift hch hb]
      split
      · generalize lookBehindAny c (eval icu ch (lookBehindContext c) (depth + 1)) s _ _ = found
        cases found with
        | error e => rfl
        | ok ok =>
          cases ok with
          | true  => rfl
          | false => rfl
      · rfl
    | .repeat_ _ mn mx greedy ch =>
      dsimp only
      rw [VmState.shift_pos, repeatLimit_shift]
      have hrest := repeatLevels_shift (@eval_shift icu ch _ hb (depth + 1)) (repeatLimit c mx s.pos) [s] 1
      rw [List.map_cons, List.map_nil] at hrest
      rw [hrest]
      refine bind_of_map (fun rest => ?_)
      have hlevels : [s.shift b] :: rest.map (List.map (VmState.shift b)) =
          ([s] :: rest).map (List.map (VmState.shift b)) := rfl
      rw [hlevels, ← List.map_drop, ← limitStates_shift]
      split
      · rw [← List.map_reverse, List.map_flatten]
      · rw [List.map_flatten]

theorem evalConcat_shift {icu : Icu} : ∀ (ns : List RegexNode) {c : VerifierContext} (_ : c.sourceEnd + b < sizeMax)
    (depth : Nat) (cur : List VmState),
      evalConcat icu ns (c.shift b) depth (cur.map (VmState.shift b)) =
        (evalConcat icu ns c depth cur).map (List.map (VmState.shift b))
  | [], _, _, _, _ => rfl
  | n :: ns, c, hb, depth, cur => by
    rw [evalConcat, evalConcat, ← List.map_nil (f := VmState.shift b), expandAll_shift (eval_shift n hb depth)]
    refine bind_of_map (fun next => ?_)
    rw [List.isEmpty_map]
    split
    · rfl
    · exact evalConcat_shift ns hb depth next

theorem evalAlt_shift {icu : Icu} : ∀ (ns : List RegexNode) {c : VerifierContext} (_ : c.sourceEnd + b < sizeMax)
    (depth : Nat) (s : VmState) (out : List VmState),
      evalAlt icu ns (c.shift b) depth (s.shift b) (out.map (VmState.shift b)) =
        (evalAlt icu ns c depth s out).map (List.map (VmState.shift b))
  | [], _, _, _, _, _ => rfl
  | n :: ns, c, hb, depth, s, out => by
    rw [evalAlt, evalAlt, eval_shift n hb depth s]
    refine bind_of_map (fun v => ?_)
    rw [← List.map_append, limitStates_shift]
    exact bind_of_map (fun out => evalAlt_shift ns hb depth s out)
end

end

/-! ## The simulation -/

theorem map_modify_slot {b : Nat} {f f' : Option Nat × Option Nat → Option Nat × Option Nat}
    (h : ∀ q, f' (slotShift b q) = slotShift b (f q)) :
    ∀ (caps : Caps) (g : Nat), (caps.map (slotShift b)).modify g f' = (caps.modify g f).map (slotShift b)
  | [], g => by simp
  | q :: caps, 0 => by simp [h q]
  | q :: caps, g + 1 => by
    have ih := map_modify_slot h caps g
    simpa using ih

theorem NfaThread.shift_saveStart (b : Nat) (t : NfaThread) (g pos : Nat) :
    (t.shift b).saveStart g (pos + b) = (t.saveStart g pos).shift b := by
  have hcaps := @map_modify_slot b (fun q => (some pos, q.2)) (fun q => (some (pos + b), q.2)) (fun _ => rfl) t.caps g
  simp only [NfaThread.saveStart, NfaThread.shift, hcaps]

theorem NfaThread.shift_saveEnd (b : Nat) (t : NfaThread) (g pos : Nat) :
    (t.shift b).saveEnd g (pos + b) = (t.saveEnd g pos).shift b := by
  have hcaps := @map_modify_slot b (fun q => (q.1, some pos)) (fun q => (q.1, some (pos + b))) (fun _ => rfl) t.caps g
  simp only [NfaThread.saveEnd, NfaThread.shift, hcaps]

/-- `bestEnd` is not looked at before there is a best thread. -/
def SimState.shift (b : Nat) (s : SimState) : SimState :=
  { s with pos := s.pos + b, cur := s.cur.map (NfaThread.shift b), best := s.best.map (NfaThread.shift b),
           bestEnd := if s.best.isSome then s.bestEnd + b else s.bestEnd }

section
variable {b : Nat} {icu : Icu} {p : RegexProgram} {c : VerifierContext} (hb : c.sourceEnd + b < sizeMax)
include hb

theorem threadNext_shift (pos : Nat) (t : NfaThread) :
    threadNext icu p (c.shift b) (pos + b) (t.shift b) =
      (threadNext icu p c pos t).map (List.map (NfaThread.shift b)) := by
  have hinst : (t.shift b).inst p = t.inst p := rfl
  unfold threadNext
  rw [hinst]
  cases t.inst p with
  | none => rfl
  | some i =>
    dsimp only
    cases i.op with
    | saveStart g => exact congrArg (fun u => some [NfaThread.goto u i.x]) (NfaThread.shift_saveStart b t g pos)
    | saveEnd g => exact congrArg (fun u => some [NfaThread.goto u i.x]) (NfaThread.shift_saveEnd b t g pos)
    | assert k =>
      dsimp only
      rw [assertAt_shift hb]
      split
      · rfl
      · rfl
    | jmp => rfl
    | split => rfl
    | rune x => rfl
    | any => rfl
    | cls s => rfl
    | match_ => rfl

theorem addNfaThread_shift (pos : Nat) (seed : NfaThread) (generation : Nat) (list : List NfaThread) (seen : List Nat) :
    addNfaThread icu p (c.shift b) (pos + b) (seed.shift b) generation (list.map (NfaThread.shift b)) seen =
      ((addNfaThread icu p c pos seed generation list seen).1.map (NfaThread.shift b),
        (addNfaThread icu p c pos seed generation list seen).2) := by
  have hpc : (seed.shift b).pc = seed.pc := rfl
  have hcaps : (seed.shift b).caps.isEmpty = seed.caps.isEmpty := List.isEmpty_map
  unfold addNfaThread
  rw [hpc, hcaps]
  cases pcKey p.nfa seed.pc with
  | none => rfl
  | some pc =>
    dsimp only
    split
    · generalize (p.closurePcs.take _).drop _ = row
      induction row generalizing list seen with
      | nil => rfl
      | cons k row ih =>
        rw [List.foldl_cons, List.foldl_cons, addEntry, addEntry]
        dsimp only
        split
        · exact ih list seen
        · rw [← ih, List.map_append]
          rfl
    · have hrun := @Worklist.run_map _ _ (List Nat) (threadKey p) (threadKey p) (threadNext icu p c pos)
        (threadNext icu p (c.shift b) (pos + b)) (fun seen k => seen.getD k 0 == generation)
        (fun seen k => seen.set k generation) (NfaThread.shift b) (fun _ => rfl) (threadNext_shift hb pos)
        (expandFuel p.nfa) [seed] seen list
      rw [List.map_cons, List.map_nil] at hrun
      rw [hrun]

omit hb in
theorem seedThread_shift (pos : Nat) : seedThread p (pos + b) = (seedThread p pos).shift b := by
  simp only [seedThread, NfaThread.shift]
  congr 1
  split
  · rw [List.map_replicate]
    rfl
  · rfl

theorem simSeed_shift (s : SimState) : simSeed icu p (c.shift b) (s.shift b) = (simSeed icu p c s).shift b := by
  have hin : (s.shift b).pos < (c.shift b).candidateEnd ↔ s.pos < c.candidateEnd := Nat.add_lt_add_iff_right
  unfold simSeed
  simp only [hin]
  split
  · have hadd := @addNfaThread_shift b icu p c hb s.pos (seedThread p s.pos) s.currentGeneration s.cur s.seen
    rw [← seedThread_shift] at hadd
    simp only [SimState.shift] at hadd ⊢
    rw [hadd]
  · rfl

omit hb in
theorem simMatch_shift (s : SimState) : simMatch p (s.shift b) = (simMatch p s).shift b := by
  have hidx : (s.shift b).cur.findIdx? (fun t => t.accepts p) = s.cur.findIdx? (fun t => t.accepts p) := by
    simp only [SimState.shift, List.findIdx?_map]
    rfl
  unfold simMatch
  rw [hidx]
  cases hk : s.cur.findIdx? (fun t => t.accepts p) with
  | none => rfl
  | some k =>
    obtain ⟨hlt, -⟩ := List.findIdx?_eq_some_iff_getElem.1 hk
    simp only [SimState.shift, List.getElem?_map, List.map_take, List.getElem?_eq_getElem hlt, Option.map_some,
      Option.isSome_some, if_true]

theorem advanceThread_shift (r : Rune) (generation : Nat) (a : List NfaThread × List Nat) (t : NfaThread) :
    advanceThread icu p (c.shift b) (r.shift b) generation (a.1.map (NfaThread.shift b), a.2) (t.shift b) =
      ((advanceThread icu p c r generation a t).1.map (NfaThread.shift b),
        (advanceThread icu p c r generation a t).2) := by
  have hinst : (t.shift b).inst p = t.inst p := rfl
  unfold advanceThread
  rw [hinst]
  cases t.inst p with
  | none => rfl
  | some i =>
    have hconsume : nfaConsume icu (c.shift b) i (r.shift b).cp = nfaConsume icu c i r.cp := rfl
    dsimp only
    rw [hconsume]
    split
    · exact addNfaThread_shift hb r.next (t.goto i.x) generation a.1 a.2
    · rfl

theorem simAdvance_shift (s : SimState) (r : Rune) :
    simAdvance icu p (c.shift b) (s.shift b) (r.shift b) = (simAdvance icu p c s r).shift b := by
  have hfold : ∀ (cur : List NfaThread) (a : List NfaThread × List Nat),
      (cur.map (NfaThread.shift b)).foldl (advanceThread icu p (c.shift b) (r.shift b) s.nextGeneration)
          (a.1.map (NfaThread.shift b), a.2) =
        ((cur.foldl (advanceThread icu p c r s.nextGeneration) a).1.map (NfaThread.shift b),
          (cur.foldl (advanceThread icu p c r s.nextGeneration) a).2) := by
    intro cur
    induction cur with
    | nil => exact fun a => rfl
    | cons t cur ih =>
      intro a
      rw [List.map_cons, List.foldl_cons, List.foldl_cons, advanceThread_shift hb]
      exact ih _
  have hnext := hfold s.cur ([], s.seen)
  have hgen : (s.shift b).nextGeneration = s.nextGeneration := rfl
  unfold simAdvance
  dsimp only
  rw [hgen, show (s.shift b).cur.foldl _ ([], (s.shift b).seen) = _ from hnext]
  by_cases hwrap : (s.nextGeneration + 1) % 2 ^ 32 = 0
  · rw [if_pos hwrap, if_pos hwrap]
    rfl
  · rw [if_neg hwrap, if_neg hwrap]
    rfl

omit hb in
theorem simJump_shift (s : SimState) : simJump p (c.shift b) (s.shift b) = (simJump p c s).map (· + b) := by
  have hjump : nextJump p (c.shift b) (s.shift b).pos = nextJump p c s.pos := by
    simp only [nextJump, VerifierContext.shift, SimState.shift, Nat.add_sub_add_right]
  have hpos : (s.shift b).pos < (c.shift b).recordEnd ↔ s.pos < c.recordEnd := Nat.add_lt_add_iff_right
  have hcond : (s.shift b).cur.isEmpty = s.cur.isEmpty := List.isEmpty_map
  have hbest : (s.shift b).best.isNone = s.best.isNone := Option.isNone_map
  unfold simJump
  simp only [hjump, hpos, hcond, hbest]
  split
  · cases nextJump p c s.pos with
    | none => rfl
    | some j =>
      have hend : (c.shift b).candidateEnd ≤ (c.shift b).sourceBegin + j ↔ c.candidateEnd ≤ c.sourceBegin + j := by
        dsimp only [VerifierContext.shift]
        omega
      simp only [hend]
      split
      · rfl
      · exact congrArg some (Nat.add_right_comm _ _ _)
  · rfl

theorem simLoop_shift : ∀ (fuel : Nat) (s : SimState),
    simLoop icu p (c.shift b) fuel (s.shift b) = (simLoop icu p c fuel s).shift b
  | 0, _ => rfl
  | fuel + 1, s => by
    have hempty : ∀ s : SimState, (s.shift b).cur.isEmpty = s.cur.isEmpty := fun s => List.isEmpty_map
    have hnone : ∀ s : SimState, (s.shift b).best.isNone = s.best.isNone := fun s => Option.isNone_map
    have hsome : ∀ s : SimState, (s.shift b).best.isSome = s.best.isSome := fun s => Option.isSome_map
    have hend : (c.shift b).candidateEnd ≤ (s.shift b).pos ↔ c.candidateEnd ≤ s.pos := Nat.add_le_add_iff_right
    rw [simLoop, simLoop]
    simp only [hempty, hnone, hend, simJump_shift]
    split
    · rfl
    · cases simJump p c s with
      | none => rfl
      | some pos =>
        have hstate : ({ s.shift b with pos := pos + b } : SimState) = ({ s with pos := pos } : SimState).shift b := rfl
        dsimp only [Option.map_some]
        rw [hstate, simSeed_shift hb, simMatch_shift]
        generalize simMatch p (simSeed icu p c { s with pos := pos }) = s'
        have hrec : (c.shift b).recordEnd ≤ (s'.shift b).pos ↔ c.recordEnd ≤ s'.pos := Nat.add_le_add_iff_right
        have hrune : contextRuneAtValidated (c.shift b) (s'.shift b).pos =
            (contextRuneAtValidated c s'.pos).map (Rune.shift b) := contextRuneAtValidated_shift s'.pos
        simp only [hempty, hsome, hrec, hrune]
        split
        · rfl
        split
        · rfl
        · cases contextRuneAtValidated c s'.pos with
          | none => rfl
          | some r =>
            dsimp only [Option.map_some]
            rw [simAdvance_shift hb]
            simp only [hempty, hsome]
            split
            · rfl
            · exact simLoop_shift fuel (simAdvance icu p c s' r)

omit hb in
theorem contextLiteralAtValidated_shift : ∀ (lit : List Nat) (pos : Nat),
    contextLiteralAtValidated icu (c.shift b) lit (pos + b) = (contextLiteralAtValidated icu c lit pos).map (· + b)
  | [], _ => rfl
  | x :: lit, pos => by
    rw [contextLiteralAtValidated, contextLiteralAtValidated, contextRuneAtValidated_shift]
    cases contextRuneAtValidated c pos with
    | none => rfl
    | some r =>
      dsimp only [Option.map_some, Rune.shift]
      split
      · exact contextLiteralAtValidated_shift lit r.next
      · rfl

omit hb in
theorem skipAscii_shift (scanEnd : Nat) : ∀ fuel pos : Nat,
    skipAscii (c.shift b) (scanEnd + b) fuel (pos + b) = skipAscii c scanEnd fuel pos + b
  | 0, _ => rfl
  | fuel + 1, pos => by
    have hbyte : (c.shift b).source[pos + b - (c.shift b).sourceBegin]? = c.source[pos - c.sourceBegin]? :=
      congrArg (c.source[·]?) (Nat.add_sub_add_right _ _ _)
    have hin : (pos + b < scanEnd + b ∧ (!(c.shift b).boundedRegion ∨ pos + b < (c.shift b).regionEnd)) ↔
        pos < scanEnd ∧ (!c.boundedRegion ∨ pos < c.regionEnd) := by
      dsimp only [VerifierContext.shift]
      rw [Nat.add_lt_add_iff_right, Nat.add_lt_add_iff_right]
    rw [skipAscii, skipAscii]
    simp only [hbyte, hin]
    split
    · split
      · rfl
      · split
        · rfl
        · rw [Nat.add_right_comm, skipAscii_shift scanEnd fuel (pos + 1)]
    · rfl

omit hb in
theorem literalScan_shift (lit : List Nat) (scanEnd : Nat) : ∀ fuel pos : Nat,
    literalScan icu (c.shift b) lit (scanEnd + b) fuel (pos + b) =
      (literalScan icu c lit scanEnd fuel pos).map (fun se => (se.1 + b, se.2 + b))
  | 0, _ => rfl
  | fuel + 1, pos => by
    have hscan : (if decide (0x80 ≤ lit.headD 0) = true then
        skipAscii (c.shift b) (scanEnd + b) (scanEnd + b - (pos + b)) (pos + b) else pos + b) =
        (if decide (0x80 ≤ lit.headD 0) = true then skipAscii c scanEnd (scanEnd - pos) pos else pos) + b := by
      rw [Nat.add_sub_add_right, skipAscii_shift]
      exact (apply_ite (· + b) _ _ _).symm
    rw [literalScan, literalScan]
    simp only [hscan]
    generalize (if decide (0x80 ≤ lit.headD 0) = true then skipAscii c scanEnd (scanEnd - pos) pos else pos) = at_
    have hout : ((c.shift b).boundedRegion = true ∧ (c.shift b).regionEnd ≤ at_ + b) ↔
        (c.boundedRegion = true ∧ c.regionEnd ≤ at_) := by
      dsimp only [VerifierContext.shift]
      rw [Nat.add_le_add_iff_right]
    simp only [Nat.add_lt_add_iff_right, Nat.add_le_add_iff_right, hout, contextLiteralAtValidated_shift,
      contextRuneAtValidated_shift]
    split
    · split
      · rfl
      · cases contextLiteralAtValidated icu c lit at_ with
        | some e => rfl
        | none =>
          cases contextRuneAtValidated c at_ with
          | none => rfl
          | some r => exact literalScan_shift lit scanEnd fuel r.next
    · rfl

/-! ## The searches -/

omit hb in
theorem matchCaptures_shift (start stop : Nat) (caps : Caps) :
    matchCaptures p (start + b) (stop + b) (caps.map (slotShift b)) =
      (matchCaptures p start stop caps).map (Capture.shift b) := by
  rw [matchCaptures, matchCaptures, List.map_cons, List.map_map]
  congr 1
  refine List.map_congr_left (fun g _ => ?_)
  rw [List.getElem?_map, Function.comp]
  rcases caps[g + 1]? with _ | ⟨_ | x, _ | y⟩
  · rfl
  · rfl
  · rfl
  · rfl
  · rfl

theorem nfaSearch_shift (fid : Nat) :
    nfaSearch icu p (c.shift b) fid = (nfaSearch icu p c fid).map (Match.shift b) := by
  have hfuel : simFuel (c.shift b) = simFuel c := by
    simp only [simFuel, VerifierContext.shift, Nat.add_sub_add_right]
  have hscan : min (c.shift b).candidateEnd (c.shift b).recordEnd = min c.candidateEnd c.recordEnd + b := by
    dsimp only [VerifierContext.shift]
    omega
  have hinit : simLoop icu p (c.shift b) (simFuel c) (simInit p (c.shift b)) =
      (simLoop icu p c (simFuel c) (simInit p c)).shift b := simLoop_shift hb (simFuel c) (simInit p c)
  unfold nfaSearch
  rw [validate_shift hb]
  split
  · rfl
  split
  · have hbegin : (c.shift b).candidateBegin = c.candidateBegin + b := rfl
    dsimp only
    rw [hfuel, hscan, hbegin, literalScan_shift, Option.map_map, Option.map_map]
    congr 1
    funext se
    simp only [Function.comp, Match.shift, List.map_cons, List.map_replicate]
    rfl
  · dsimp only
    rw [hfuel, hinit]
    generalize simLoop icu p c (simFuel c) (simInit p c) = s
    dsimp only [SimState.shift]
    cases s.best with
    | none => rfl
    | some t =>
      simp only [Option.map_some, Option.isSome_some, if_true, Match.shift, ← matchCaptures_shift]
      rfl

theorem evalSearch_shift (fid : Nat) : ∀ fuel st : Nat,
    evalSearch icu p (c.shift b) fid fuel (st + b) = (evalSearch icu p c fid fuel st).map (Option.map (Match.shift b))
  | 0, _ => rfl
  | fuel + 1, st => by
    have hin : st + b < (c.shift b).candidateEnd ↔ st < c.candidateEnd := Nat.add_lt_add_iff_right
    have hout : (c.shift b).recordEnd ≤ st + b ↔ c.recordEnd ≤ st := Nat.add_le_add_iff_right
    have hstart : ({ pos := st + b, caps := List.replicate (p.groups + 1) (none, none) } : VmState) =
        ({ pos := st, caps := List.replicate (p.groups + 1) (none, none) } : VmState).shift b := by
      simp only [VmState.shift, List.map_replicate, slotShift, Option.map_none]
    rw [evalSearch, evalSearch]
    simp only [hin, hout]
    split
    · rw [hstart, eval_shift p.ast hb]
      refine bind_of_map (fun v => ?_)
      rw [stepStart_shift hb, evalSearch_shift fid fuel (stepStart c st)]
      cases v with
      | cons z v =>
        exact congrArg (fun ks => Except.ok (some (Match.mk fid (st + b) (z.pos + b) ks)))
          (matchCaptures_shift st z.pos z.caps)
      | nil =>
        by_cases hend : c.recordEnd ≤ st
        · simp only [List.map_nil, if_pos hend]
          rfl
        · simp only [List.map_nil, if_neg hend]
    · rfl

theorem regexSearch_shift (fid : Nat) :
    regexSearch icu p (c.shift b) fid = (regexSearch icu p c fid).map (Option.map (Match.shift b)) := by
  unfold regexSearch
  rw [validate_shift hb]
  split
  · rfl
  split
  · exact congrArg Except.ok (nfaSearch_shift hb fid)
  · have hsearch := @evalSearch_shift b icu p c hb fid (c.candidateEnd - c.candidateBegin + 1) c.candidateBegin
    rw [← hsearch]
    simp only [VerifierContext.shift, Nat.add_sub_add_right]

theorem afterMatch_shift (overlapping : Bool) (m : Match) :
    afterMatch (c.shift b) overlapping (m.shift b) = afterMatch c overlapping m + b := by
  have hin : (m.shift b).start < (m.shift b).stop ↔ m.start < m.stop := Nat.add_lt_add_iff_right
  have hstep : stepStart (c.shift b) (m.shift b).start = stepStart c m.start + b := stepStart_shift hb m.start
  unfold afterMatch
  simp only [hin, hstep]
  exact (apply_ite (· + b) _ _ _).symm

omit hb in
theorem findAllLoop_shift (overlapping : Bool) (fid maxMatches : Nat) : ∀ (fuel count pos : Nat) {c : VerifierContext},
    c.sourceEnd + b < sizeMax →
      findAllLoop icu p (c.shift b) overlapping fid maxMatches fuel count (pos + b) =
        (findAllLoop icu p c overlapping fid maxMatches fuel count pos).map (List.map (Match.shift b))
  | 0, _, _, _, _ => rfl
  | fuel + 1, count, pos, c, hb => by
    have hin : pos + b < (c.shift b).candidateEnd ↔ pos < c.candidateEnd := Nat.add_lt_add_iff_right
    have hctx : ({ c.shift b with candidateBegin := pos + b } : VerifierContext) =
        ({ c with candidateBegin := pos } : VerifierContext).shift b := rfl
    rw [findAllLoop, findAllLoop]
    simp only [hin]
    split
    · rw [hctx, regexSearch_shift (c := { c with candidateBegin := pos }) hb]
      refine bind_of_map (fun r => ?_)
      cases r with
      | none => rfl
      | some m =>
        dsimp only [Option.map_some]
        split
        · rfl
        · rw [afterMatch_shift hb, findAllLoop_shift overlapping fid maxMatches fuel (count + 1) _ hb]
          exact bind_of_map (fun rest => rfl)
    · rfl

end

/-- **Where the source begins does not matter.**  With every coordinate `b` further on, `regex_find_all` throws what it
threw, and gives the same matches with every position `b` further on. -/
theorem regexFindAll_shift (icu : Icu) (p : RegexProgram) (c : VerifierContext) (overlapping : Bool)
    (fid maxMatches b : Nat) (hb : c.sourceEnd + b < sizeMax) :
    regexFindAll icu p (c.shift b) overlapping fid maxMatches =
      (regexFindAll icu p c overlapping fid maxMatches).map (List.map (Match.shift b)) := by
  have hloop := @findAllLoop_shift b icu p overlapping fid maxMatches (c.candidateEnd - c.candidateBegin + 1) 0
    c.candidateBegin c hb
  unfold regexFindAll
  rw [← hloop]
  simp only [VerifierContext.shift, Nat.add_sub_add_right]

/-- `(.)(?<=a)\1` on `aa`, 100 bytes further on. -/
theorem regexFindAll_shift_far :
    regexFindAll asciiIcu
        { ast := .concat {} [.group {} 1 [] (.dot {}), .lookBehind {} false (.literal {} [0x61]), .backRef {} 1],
          groups := 1, extended := true }
        (VerifierContext.shift 100 { source := [0x61, 0x61], sourceEnd := 2, recordEnd := 2, candidateEnd := 3 })
        false 0 0 =
      .ok [{ start := 100, stop := 102,
             captures := [{ start := 100, stop := 102, matched := true },
                          { start := 100, stop := 101, matched := true }] }] := by
  rw [regexFindAll_shift _ _ _ _ _ _ 100 (by decide)]
  decide +kernel

end Pergrep
