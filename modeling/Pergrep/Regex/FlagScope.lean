import Pergrep.Regex.ParserRun
/-!
# FlagScope — how far an inline flag group reaches

`(?flags)` changes the parser's settings where it stands.  Only a `(?flags: … )` group puts back what it found: out of every
other group, whatever its opening, the flags leak into what is parsed after it.  A parse is traced (`altMarks`): the flag
groups and the groups it meets, with the settings in force at each group's parentheses; the trace accounts for every
change of the settings (`Accounted`), and from it comes when every group restores them (`flagScope_iff`).
-/
namespace Pergrep

open Throw (bind_ok)

namespace Parser

/-! ## The trace of a parse -/

/-- What an inline flag can change. -/
structure Settings where
  caseMode : CaseMode
  multiline : Bool
  dotall : Bool
  unicode : Bool
  ignoreWs : Bool
  swapGreed : Bool
  deriving DecidableEq, Repr

def PState.settings (st : PState) : Settings where
  caseMode := st.opt.caseMode
  multiline := st.opt.multiline
  dotall := st.opt.dotall
  unicode := st.opt.unicode
  ignoreWs := st.ignoreWs
  swapGreed := st.swapGreed

/-- A letter of a flag group, and whether it is set. -/
abbrev FlagOp := UInt8 × Bool

def Settings.set (o : Settings) (op : FlagOp) : Settings :=
  if op.1 = 0x69 then { o with caseMode := if op.2 then .insensitive else .sensitive }
  else if op.1 = 0x6D then { o with multiline := op.2 }
  else if op.1 = 0x73 then { o with dotall := op.2 }
  else if op.1 = 0x78 then { o with ignoreWs := op.2 }
  else if op.1 = 0x55 then { o with swapGreed := op.2 }
  else { o with unicode := op.2 }

def Settings.setAll (o : Settings) (ops : List FlagOp) : Settings := ops.foldl Settings.set o

def flagOps : Bytes → Bool → List FlagOp
  | [], _ => []
  | f :: t, unset =>
    if f = 0x2D then flagOps t true
    else if f = 0x3A ∨ f = 0x29 then []
    else (f, !unset) :: flagOps t unset

/-- A flag group `(?flags)`, or any other group, with the flags a `(?flags: … )` group starts with, the settings just before
its opening parenthesis and just after its closing one, and what is in it. -/
inductive Mark where
  | flags (ops : List FlagOp)
  | group (head : Option (List FlagOp)) (before after : Settings) (body : List Mark)

section
variable (icu : Icu) (s : Bytes)

mutual

def altMarks : Nat → P (List Mark)
  | 0 => throw "out of fuel"
  | fuel + 1 => do
    let ms ← concatMarks fuel
    let ms' ← altRestMarks fuel
    return ms ++ ms'

def altRestMarks : Nat → P (List Mark)
  | 0 => throw "out of fuel"
  | fuel + 1 => do
    if ← eat s 0x7C then
      let ms ← concatMarks fuel
      let ms' ← altRestMarks fuel
      return ms ++ ms'
    else return []

def concatMarks : Nat → P (List Mark)
  | 0 => throw "out of fuel"
  | fuel + 1 => concatItemsMarks fuel

def concatItemsMarks : Nat → P (List Mark)
  | 0 => throw "out of fuel"
  | fuel + 1 => do
    skipIgnored s
    match ← peek s with
    | none => return []
    | some c =>
      if c = 0x29 ∨ c = 0x7C then return []
      else
        let ms ← repeatMarks fuel
        let ms' ← concatItemsMarks fuel
        return ms ++ ms'

def repeatMarks : Nat → P (List Mark)
  | 0 => throw "out of fuel"
  | fuel + 1 => do
    let ms ← atomMarks fuel
    match ← quantifier s with
    | none => return ms
    | some _ =>
      let _ ← eat s 0x3F
      return ms

def atomMarks : Nat → P (List Mark)
  | 0 => throw "out of fuel"
  | fuel + 1 => do
    let before := (← get).settings
    if ← eat s 0x5E then return []
    else if ← eat s 0x24 then return []
    else if ← eat s 0x2E then return []
    else if ← eat s 0x5B then
      let _ ← charClass icu s
      return []
    else if ← eat s 0x28 then groupBodyMarks fuel before
    else if ← eat s 0x5C then
      let _ ← escaped icu s
      return []
    else
      let _ ← patternRune s
      return []

def groupBodyMarks : Nat → Settings → P (List Mark)
  | 0, _ => throw "out of fuel"
  | fuel + 1, before => do
    if ← eat s 0x3F then
      if ← eat s 0x50 then
        if ← eat s 0x3C then
          let name ← captureName s
          captureMarks fuel before name
        else fail "expected < after ?P"
      else if ← eat s 0x3A then
        let ms ← altMarks fuel
        expectClose s "unclosed group"
        return [.group none before (← get).settings ms]
      else if ← eat s 0x3D then lookMarks fuel before false
      else if ← eat s 0x21 then lookMarks fuel before false
      else if ← eat s 0x3C then
        if ← eat s 0x3D then lookMarks fuel before true
        else if ← eat s 0x21 then lookMarks fuel before true
        else
          let name ← captureName s
          captureMarks fuel before name
      else
        let saved ← get
        let ops := flagOps (s.drop saved.i) false
        let seen ← flagsLoop (s.drop saved.i) false false
        if !seen then fail "unknown group extension"
        if ← eat s 0x29 then return [.flags ops]
        else if ← eat s 0x3A then
          let ms ← altMarks fuel
          skipIgnored s
          expectClose s "unclosed flagged group"
          modify (fun st => { st with opt := saved.opt, ignoreWs := saved.ignoreWs, swapGreed := saved.swapGreed })
          return [.group (some ops) before (← get).settings ms]
        else fail "malformed inline flags"
    else captureMarks fuel before []

def lookMarks : Nat → Settings → Bool → P (List Mark)
  | 0, _, _ => throw "out of fuel"
  | fuel + 1, before, behind => do
    modify (fun st => { st with extended := true })
    let ms ← altMarks fuel
    expectClose s (if behind then "unclosed lookbehind" else "unclosed lookahead")
    return [.group none before (← get).settings ms]

def captureMarks : Nat → Settings → Bytes → P (List Mark)
  | 0, _, _ => throw "out of fuel"
  | fuel + 1, before, name => do
    modify (fun st => { st with groups := st.groups + 1, groupNames := st.groupNames ++ [name] })
    let ms ← altMarks fuel
    expectClose s "unclosed group"
    return [.group none before (← get).settings ms]

end

end

/-! ## What a trace says of the settings -/

mutual

/-- What a mark makes of the settings: the flags of a `(?flags: … )` group stay in it, those of any other group do not. -/
def Mark.leak : Mark → Settings → Settings
  | .flags ops, o => o.setAll ops
  | .group none _ _ body, o => leaks body o
  | .group (some _) _ _ _, o => o

def leaks : List Mark → Settings → Settings
  | [], o => o
  | m :: ms, o => leaks ms (m.leak o)

end

mutual

def Mark.restores : Mark → Bool
  | .flags _ => true
  | .group _ before after body => after == before && restoresAll body

def restoresAll : List Mark → Bool
  | [] => true
  | m :: ms => m.restores && restoresAll ms

end

mutual

/-- What leaks out of each group makes no difference, read with the settings `o`. -/
def Mark.neutral : Mark → Settings → Bool
  | .flags _, _ => true
  | .group none _ _ body, o => leaks body o == o && neutralAll body o
  | .group (some ops) _ _ body, o => neutralAll body (o.setAll ops)

def neutralAll : List Mark → Settings → Bool
  | [], _ => true
  | m :: ms, o => m.neutral o && neutralAll ms (m.leak o)

end

theorem leaks_append : ∀ (ms ms' : List Mark) (o : Settings), leaks (ms ++ ms') o = leaks ms' (leaks ms o)
  | [], _, _ => rfl
  | m :: ms, ms', o => by
    rw [List.cons_append, leaks, leaks, leaks_append ms ms']

theorem restoresAll_append : ∀ ms ms' : List Mark, restoresAll (ms ++ ms') = (restoresAll ms && restoresAll ms')
  | [], _ => rfl
  | m :: ms, ms' => by
    rw [List.cons_append, restoresAll, restoresAll, restoresAll_append ms ms', Bool.and_assoc]

theorem neutralAll_append : ∀ (ms ms' : List Mark) (o : Settings),
    neutralAll (ms ++ ms') o = (neutralAll ms o && neutralAll ms' (leaks ms o))
  | [], _, _ => rfl
  | m :: ms, ms', o => by
    rw [List.cons_append, neutralAll, neutralAll, neutralAll_append ms ms', Bool.and_assoc, leaks]

/-- **A trace accounts for the settings**: what leaks is what changed them, and the groups restored them where what leaked
made no difference. -/
structure Accounted (o : Settings) (ms : List Mark) (o' : Settings) : Prop where
  after : o' = leaks ms o
  restores : restoresAll ms = neutralAll ms o

theorem Accounted.nil (o : Settings) : Accounted o [] o := ⟨rfl, rfl⟩

theorem Accounted.append {o o' o'' : Settings} {ms ms' : List Mark} (h : Accounted o ms o') (h' : Accounted o' ms' o'') :
    Accounted o (ms ++ ms') o'' := by
  refine ⟨?_, ?_⟩
  · rw [leaks_append, ← h.after]
    exact h'.after
  · rw [restoresAll_append, neutralAll_append, h.restores, h'.restores, h.after]

theorem Accounted.flags (o : Settings) (ops : List FlagOp) : Accounted o [.flags ops] (o.setAll ops) := ⟨rfl, rfl⟩

theorem Accounted.group {o o' : Settings} {ms : List Mark} (h : Accounted o ms o') :
    Accounted o [.group none o o' ms] o' := by
  refine ⟨by rw [leaks, leaks, Mark.leak, h.after], ?_⟩
  rw [restoresAll, restoresAll, Mark.restores, neutralAll, neutralAll, Mark.neutral, h.restores, h.after]

theorem Accounted.restored {o o' : Settings} {ops : List FlagOp} {ms : List Mark} (h : Accounted (o.setAll ops) ms o') :
    Accounted o [.group (some ops) o o ms] o := by
  refine ⟨rfl, ?_⟩
  rw [restoresAll, restoresAll, Mark.restores, neutralAll, neutralAll, Mark.neutral, h.restores, beq_self_eq_true, Bool.true_and]

/-! ## Actions that leave the settings alone -/

/-- The action does not change the settings. -/
def Still {α : Type} (x : P α) : Prop := ∀ st a st', x st = .ok (a, st') → st'.settings = st.settings

theorem Still.pure {α : Type} (a : α) : Still (pure a) := by
  intro st b st' h
  cases h
  rfl

theorem Still.throw {α : Type} {e : String} : Still (throw e : P α) := by
  intro st b st' h
  cases h

theorem Still.get : Still (get : P PState) := by
  intro st b st' h
  cases h
  rfl

theorem Still.modify {f : PState → PState} (hf : ∀ st, (f st).settings = st.settings) : Still (modify f : P Unit) := by
  intro st b st' h
  cases h
  exact hf st

theorem Still.bind {α β : Type} {x : P α} {k : α → P β} (hx : Still x) (hk : ∀ a, Still (k a)) : Still (x >>= k) := by
  intro st b st' h
  obtain ⟨a, st₁, h1, h2⟩ := bind_runs h
  exact (hk a st₁ b st' h2).trans (hx st a st₁ h1)

theorem Still.ite {α : Type} {b : Prop} [Decidable b] {x y : P α} (hx : Still x) (hy : Still y) :
    Still (if b then x else y) := by
  split
  · exact hx
  · exact hy

theorem Still.fail {α : Type} (m : String) : Still (fail m : P α) := Still.get.bind (fun _ => Still.throw)

section
variable (icu : Icu) (s : Bytes)

theorem peek_still : Still (peek s) := Still.get.bind (fun _ => Still.pure _)

theorem advance_still (k : Nat) : Still (advance k) := Still.modify (fun _ => rfl)

theorem eat_still (c : UInt8) : Still (eat s c) :=
  (peek_still s).bind (fun _ => Still.ite ((advance_still 1).bind (fun _ => Still.pure _)) (Still.pure _))

theorem nodeFlags_still : Still nodeFlags := Still.get.bind (fun _ => Still.pure _)

theorem skipIgnored_still : Still (skipIgnored s) :=
  Still.get.bind (fun _ => Still.ite (advance_still _) (Still.pure _))

theorem expectClose_still (m : String) : Still (expectClose s m) :=
  (eat_still s _).bind (fun _ => Still.ite (Still.fail m) (Still.pure _))

theorem getByte_still : Still (getByte s) := by
  refine (peek_still s).bind (fun c => ?_)
  split
  · exact (advance_still 1).bind (fun _ => Still.pure _)
  · exact Still.fail _

theorem numberLoop_still : ∀ (t : Bytes) (x : Nat), Still (numberLoop t x)
  | [], x => Still.pure x
  | b :: t, x => by
    unfold numberLoop
    exact Still.ite ((advance_still 1).bind (fun _ => Still.ite (Still.fail _) (numberLoop_still t _))) (Still.pure x)

theorem number_still : Still (number s) := by
  refine (peek_still s).bind (fun c => ?_)
  split
  · exact Still.ite (Still.get.bind (fun _ => numberLoop_still _ _)) (Still.fail _)
  · exact Still.fail _

theorem patternRune_still : Still (patternRune s) := by
  refine Still.get.bind (fun st => ?_)
  dsimp only
  split
  · exact Still.fail _
  · split
    · exact (advance_still _).bind (fun _ => Still.pure _)
    · exact (advance_still _).bind (fun _ => Still.pure _)

theorem nameLoop_still : ∀ t : Bytes, Still (nameLoop t)
  | [] => Still.pure _
  | c :: t => by
    unfold nameLoop
    refine Still.ite (Still.pure _) ((advance_still 1).bind (fun _ => Still.ite ?_ (Still.fail _)))
    exact (nameLoop_still t).bind (fun _ => Still.pure _)

theorem captureName_still : Still (captureName s) := by
  refine Still.get.bind (fun st => (nameLoop_still _).bind (fun name => ?_))
  exact Still.ite ((Still.fail _).bind (fun _ => (eat_still s _).bind (fun _ => Still.ite (Still.pure _) (Still.fail _))))
    ((eat_still s _).bind (fun _ => Still.ite (Still.pure _) (Still.fail _)))

theorem hexEscape_still : Still (hexEscape s) := by
  refine Still.get.bind (fun st => ?_)
  split
  · refine (advance_still 2).bind (fun _ => ?_)
    split
    · exact Still.pure _
    · exact Still.fail _
  · exact Still.fail _

theorem propertyName_still : Still (propertyName s) := by
  refine (eat_still s _).bind (fun b => Still.ite ?_ ?_)
  · exact Still.get.bind (fun st => (advance_still _).bind (fun _ => (eat_still s _).bind (fun _ =>
      Still.ite (Still.pure _) (Still.fail _))))
  · refine (peek_still s).bind (fun c => ?_)
    split
    · exact (advance_still 1).bind (fun _ => Still.pure _)
    · exact Still.fail _

theorem property_still (negated : Bool) : Still (property icu s negated) := by
  refine (propertyName_still s).bind (fun name => ?_)
  split
  · exact Still.pure _
  · exact Still.throw

theorem perlClass_still (c : UInt8) : Still (perlClass c) := Still.get.bind (fun _ => Still.pure _)

theorem classRune_still : Still (classRune s) := by
  refine (eat_still s _).bind (fun b => Still.ite ?_ (patternRune_still s))
  refine (getByte_still s).bind (fun e => ?_)
  split
  · exact Still.pure _
  · exact Still.ite ((hexEscape_still s).bind (fun _ => Still.pure _)) (Still.ite (Still.fail _) (Still.pure _))

theorem classLoop_still : ∀ (fuel : Nat) (first : Bool) (prev : Option Nat) (spec : CharClassSpec),
    Still (classLoop icu s fuel first prev spec)
  | 0, _, _, _ => Still.fail _
  | fuel + 1, first, prev, spec => by
    have hloop := classLoop_still fuel
    unfold classLoop
    refine Still.get.bind (fun st => ?_)
    dsimp only
    split
    · exact Still.fail _
    · refine Still.ite ((advance_still 1).bind (fun _ => Still.pure _)) (Still.ite ?_ (Still.ite ?_ ?_))
      · exact (advance_still 2).bind (fun _ => (property_still icu s _).bind (fun _ => hloop _ _ _))
      · exact (advance_still 2).bind (fun _ => (perlClass_still _).bind (fun _ => hloop _ _ _))
      · split
        · refine Still.ite ((advance_still 1).bind (fun _ => (classRune_still s).bind (fun _ => ?_))) ?_
          · exact Still.ite (Still.fail _) (hloop _ _ _)
          · exact (classRune_still s).bind (fun _ => hloop _ _ _)
        · exact (classRune_still s).bind (fun _ => hloop _ _ _)

theorem charClass_still : Still (charClass icu s) :=
  nodeFlags_still.bind (fun _ => (eat_still s _).bind (fun _ => (classLoop_still icu s _ _ _ _).bind (fun _ => Still.pure _)))

theorem quantifier_still : Still (quantifier s) := by
  unfold quantifier
  refine (eat_still s _).bind (fun b => Still.ite (Still.pure _) ?_)
  refine (eat_still s _).bind (fun b => Still.ite (Still.pure _) ?_)
  refine (eat_still s _).bind (fun b => Still.ite (Still.pure _) ?_)
  refine (eat_still s _).bind (fun b => Still.ite ?_ (Still.pure _))
  refine (number_still s).bind (fun mn => Still.bind ?_ (fun mx => (eat_still s _).bind (fun b => ?_)))
  -- the upper bound of the range
  · refine (eat_still s _).bind (fun b => Still.ite ((peek_still s).bind (fun c => ?_)) (Still.pure _))
    split
    · exact Still.ite (number_still s) (Still.pure _)
    · exact Still.pure _
  have hend : Still (do
      if mx ≠ sizeMax ∧ mx < mn then fail "invalid repetition range"
      return some (mn, mx) : P (Option (Nat × Nat))) :=
    Still.ite ((Still.fail _).bind (fun _ => Still.pure _)) (Still.pure _)
  exact Still.ite ((Still.fail _).bind (fun _ => hend)) hend

theorem escaped_still : Still (escaped icu s) := by
  have hnode : ∀ f : NodeFlags → RegexNode, Still (do return f (← nodeFlags)) := fun f =>
    nodeFlags_still.bind (fun _ => Still.pure _)
  unfold escaped
  refine (getByte_still s).bind (fun c => ?_)
  refine Still.ite ((Still.modify (f := fun st => { st with extended := true }) (fun _ => rfl)).bind (fun _ => hnode _)) ?_
  refine Still.ite (hnode _) (Still.ite (hnode _) (Still.ite (hnode _) (Still.ite (hnode _) (Still.ite (hnode _) ?_))))
  refine Still.ite ((property_still icu s _).bind (fun _ => hnode _)) ?_
  refine Still.ite ((perlClass_still c).bind (fun _ => hnode _)) ?_
  split
  · exact hnode _
  · refine Still.ite (hnode _) (Still.ite ((hexEscape_still s).bind (fun _ => hnode _)) ?_)
    exact Still.ite (Still.fail _) (hnode _)

end

/-! ## The trace accounts for the settings -/

def Looks {α : Type} (x : P α) : Prop := ∀ st a st', x st = .ok (a, st') → st' = st

theorem Looks.pure {α : Type} (a : α) : Looks (pure a) := by
  intro st b st' h
  cases h
  rfl

theorem Looks.node (f : NodeFlags → RegexNode) : Looks (do return f (← nodeFlags)) := by
  intro st b st' h
  cases h
  rfl

/-- The traced action runs like the action, from the settings `b`, and its marks account for what happens to them. -/
def Traced (b : Settings) {α : Type} (x : P α) (m : P (List Mark)) : Prop :=
  ∀ st a st', st.settings = b → x st = .ok (a, st') → ∃ ms, m st = .ok (ms, st') ∧ Accounted b ms st'.settings

section
variable {α β γ : Type} {b : Settings} {x : P α} {m m' : P (List Mark)}

theorem Traced.throw {e : String} : Traced b (throw e : P α) m := by
  intro st a st' _ h
  cases h

theorem Traced.fail {t : String} : Traced b (fail t : P α) m := by
  intro st a st' _ h
  cases h

theorem Traced.nil (hx : Looks x) : Traced b x (pure []) := by
  intro st a st' hb h
  obtain rfl := hx st a st' h
  exact ⟨[], rfl, hb ▸ Accounted.nil _⟩

theorem Traced.ite {c : Prop} [Decidable c] {y : P α} (hx : Traced b x m) (hy : Traced b y m') :
    Traced b (if c then x else y) (if c then m else m') := by
  split
  · exact hx
  · exact hy

theorem Traced.still {k : α → P β} {k' : α → P (List Mark)} (hx : Still x) (hk : ∀ a, Traced b (k a) (k' a)) :
    Traced b (x >>= k) (x >>= k') := by
  intro st c st' hb h
  obtain ⟨a, st₁, h1, h2⟩ := bind_runs h
  obtain ⟨ms, h3, h4⟩ := hk a st₁ c st' ((hx st a st₁ h1).trans hb) h2
  exact ⟨ms, (bind_run h1).trans h3, h4⟩

theorem Traced.leaf (hx : Still x) : Traced b x (do let _ ← x; return []) := by
  intro st a st' hb h
  refine ⟨[], bind_run h, ?_⟩
  rw [hx st a st' h, hb]
  exact Accounted.nil b

theorem Traced.skip {k : α → P β} (hx : Looks x) (hk : ∀ a, Traced b (k a) m) : Traced b (x >>= k) m := by
  intro st c st' hb h
  obtain ⟨a, st₁, h1, h2⟩ := bind_runs h
  obtain rfl := hx st a st₁ h1
  exact hk a st₁ c st' hb h2

theorem Traced.last {k : α → P β} (hx : Traced b x m) (hk : ∀ a, Looks (k a)) : Traced b (x >>= k) m := by
  intro st c st' hb h
  obtain ⟨a, st₁, h1, h2⟩ := bind_runs h
  obtain rfl := hk a st₁ c st' h2
  exact hx st a st' hb h1

theorem Traced.before {k : PState → P (List Mark)} (hk : ∀ st, st.settings = b → Traced b x (k st)) :
    Traced b x (get >>= k) :=
  fun st a st' hb h => hk st hb st a st' hb h

/-- **One traced action after another.** -/
theorem Traced.seq {k : α → P β} (hx : Traced b x m) (hk : ∀ a b', Traced b' (k a) m') :
    Traced b (x >>= k) (do let ms ← m; let ms' ← m'; return ms ++ ms') := by
  intro st c st' hb h
  obtain ⟨a, st₁, h1, h2⟩ := bind_runs h
  obtain ⟨ms, h3, h4⟩ := hx st a st₁ hb h1
  obtain ⟨ms', h5, h6⟩ := hk a _ st₁ c st' rfl h2
  exact ⟨ms ++ ms', (bind_run h3).trans (bind_run h5), h4.append h6⟩

/-- **A group that restores nothing**: its alternatives, then its closing parenthesis. -/
theorem Traced.group {c : P Unit} {k : α → P β} (hx : Traced b x m) (hc : Still c) (hk : ∀ a, Looks (k a)) :
    Traced b (do let a ← x; c; k a) (do let ms ← m; c; return [.group none b (← get).settings ms]) := by
  intro st r st' hb h
  obtain ⟨a, st₁, h1, h2⟩ := bind_runs h
  obtain ⟨u, st₂, h3, h4⟩ := bind_runs h2
  obtain rfl := hk a st₂ r st' h4
  obtain ⟨ms, h5, h6⟩ := hx st a st₁ hb h1
  refine ⟨_, (bind_run h5).trans (bind_run h3), ?_⟩
  rw [hc st₁ u st' h3]
  exact h6.group

/-- **A group that restores the settings**, which its head had changed from `o`. -/
theorem Traced.restored {o : Settings} {ops : List FlagOp} {saved : PState} {w c : P Unit} (hx : Traced (o.setAll ops) x m)
    (hsaved : saved.settings = o) (st : PState) (hst : st.settings = o.setAll ops) {a : α} {st' : PState}
    (h : (do
      let a ← x
      w
      c
      modify (fun st => { st with opt := saved.opt, ignoreWs := saved.ignoreWs, swapGreed := saved.swapGreed })
      return a : P α) st = .ok (a, st')) :
    ∃ ms, (do
      let ms ← m
      w
      c
      modify (fun st => { st with opt := saved.opt, ignoreWs := saved.ignoreWs, swapGreed := saved.swapGreed })
      return [.group (some ops) o (← get).settings ms] : P (List Mark)) st = .ok (ms, st') ∧
        Accounted o ms st'.settings := by
  obtain ⟨a₁, st₁, h1, h2⟩ := bind_runs h
  obtain ⟨u, st₂, h3, h4⟩ := bind_runs h2
  obtain ⟨v, st₃, h5, h6⟩ := bind_runs h4
  obtain ⟨ms, h7, h8⟩ := hx st a₁ st₁ hst h1
  cases h6
  subst hsaved
  exact ⟨_, (bind_run h7).trans ((bind_run h3).trans ((bind_run h5).trans rfl)), h8.restored⟩

end

/-! ## Flag groups -/

theorem setFlag_settings (f : UInt8) (val : Bool) (st : PState) :
    ∃ st', setFlag f val st = .ok ((), st') ∧ st'.settings = st.settings.set (f, val) := by
  refine ⟨_, rfl, ?_⟩
  simp only [Settings.set]
  split_ifs <;> rfl

theorem flagsLoop_settings : ∀ (t : Bytes) (seen unset : Bool) {st : PState} {r : Bool} {st' : PState},
    flagsLoop t seen unset st = .ok (r, st') → st'.settings = st.settings.setAll (flagOps t unset)
  | [], _, _, _, _, _, h => by
    cases h
    rfl
  | f :: t, seen, unset, st, r, st', h => by
    unfold flagsLoop at h
    rw [flagOps]
    split at h
    · rename_i hf
      rw [if_pos hf]
      obtain ⟨u, st₁, h1, h2⟩ := bind_runs h
      rw [flagsLoop_settings t _ _ h2, advance_still 1 st u st₁ h1]
    rename_i hf
    rw [if_neg hf]
    split at h
    · rename_i hc
      rw [if_pos hc]
      cases h
      rfl
    rename_i hc
    rw [if_neg hc]
    split at h
    · obtain ⟨u, st₁, h1, h2⟩ := bind_runs h
      obtain ⟨v, st₂, h3, h4⟩ := bind_runs h2
      obtain ⟨st₃, h5, h6⟩ := setFlag_settings f (!unset) st₁
      rw [h5] at h3
      cases h3
      rw [flagsLoop_settings t _ _ h4, h6, advance_still 1 st u st₁ h1]
      rfl
    · cases h

section
variable (icu : Icu) (s : Bytes)

/-- What the induction carries, for one amount of fuel. -/
structure AllTraced (fuel : Nat) : Prop where
  alt : ∀ b, Traced b (alt icu s fuel) (altMarks icu s fuel)
  altRest : ∀ b, Traced b (altRest icu s fuel) (altRestMarks icu s fuel)
  concat : ∀ b, Traced b (concat icu s fuel) (concatMarks icu s fuel)
  concatItems : ∀ b, Traced b (concatItems icu s fuel) (concatItemsMarks icu s fuel)
  «repeat» : ∀ b, Traced b («repeat» icu s fuel) (repeatMarks icu s fuel)
  atom : ∀ b, Traced b (atom icu s fuel) (atomMarks icu s fuel)
  groupBody : ∀ b, Traced b (groupBody icu s fuel) (groupBodyMarks icu s fuel b)
  look : ∀ b behind negative, Traced b (look icu s fuel behind negative) (lookMarks icu s fuel b behind)
  capture : ∀ b name, Traced b (capture icu s fuel name) (captureMarks icu s fuel b name)

variable {icu s} {fuel : Nat} (h : AllTraced icu s fuel) (b : Settings)
include h

theorem alt_traced : Traced b (alt icu s (fuel + 1)) (altMarks icu s (fuel + 1)) := by
  unfold alt altMarks
  refine (h.concat b).seq (fun x b' => (h.altRest b').last (fun xs => ?_))
  split
  · exact Looks.pure x
  · exact Looks.node _

theorem altRest_traced : Traced b (altRest icu s (fuel + 1)) (altRestMarks icu s (fuel + 1)) := by
  unfold altRest altRestMarks
  refine Traced.still (eat_still s _) (fun _ => Traced.ite ?_ (Traced.nil (Looks.pure _)))
  exact (h.concat b).seq (fun x b' => (h.altRest b').last (fun xs => Looks.pure _))

theorem concat_traced : Traced b (concat icu s (fuel + 1)) (concatMarks icu s (fuel + 1)) := by
  unfold concat concatMarks
  refine (h.concatItems b).last (fun xs => ?_)
  split
  · exact Looks.node _
  · exact Looks.pure _
  · exact Looks.node _

theorem concatItems_traced : Traced b (concatItems icu s (fuel + 1)) (concatItemsMarks icu s (fuel + 1)) := by
  unfold concatItems concatItemsMarks
  refine Traced.still (skipIgnored_still s) (fun _ => Traced.still (peek_still s) (fun c => ?_))
  cases c with
  | none   => exact Traced.nil (Looks.pure _)
  | some c =>
    refine Traced.ite (Traced.nil (Looks.pure _)) ?_
    exact (h.repeat b).seq (fun x b' => (h.concatItems b').last (fun xs => Looks.pure _))

theorem atom_traced : Traced b (atom icu s (fuel + 1)) (atomMarks icu s (fuel + 1)) := by
  unfold atom atomMarks
  refine Traced.before (fun st hst => ?_)
  rw [hst]
  refine Traced.still (eat_still s _) (fun _ => Traced.ite (Traced.nil (Looks.node _)) ?_)
  refine Traced.still (eat_still s _) (fun _ => Traced.ite (Traced.nil (Looks.node _)) ?_)
  refine Traced.still (eat_still s _) (fun _ => Traced.ite (Traced.nil (Looks.node _)) ?_)
  refine Traced.still (eat_still s _) (fun _ => Traced.ite (Traced.leaf (charClass_still icu s)) ?_)
  refine Traced.still (eat_still s _) (fun _ => Traced.ite (h.groupBody b) ?_)
  refine Traced.still (eat_still s _) (fun _ => Traced.ite (Traced.leaf (escaped_still icu s)) ?_)
  exact Traced.still (patternRune_still s) (fun cp => Traced.nil (Looks.node _))

theorem look_traced (behind negative : Bool) :
    Traced b (look icu s (fuel + 1) behind negative) (lookMarks icu s (fuel + 1) b behind) := by
  unfold look lookMarks
  refine Traced.still (Still.modify (fun _ => rfl)) (fun _ => Traced.skip (x := nodeFlags) ?_ (fun f => ?_))
  · intro st a st' hr
    cases hr
    rfl
  · exact (h.alt b).group (expectClose_still s _) (fun x => Looks.pure _)

theorem capture_traced (name : Bytes) :
    Traced b (capture icu s (fuel + 1) name) (captureMarks icu s (fuel + 1) b name) := by
  unfold capture captureMarks
  refine Traced.still (Still.modify (fun _ => rfl)) (fun _ => Traced.skip (x := get) ?_ (fun st =>
    Traced.skip (x := nodeFlags) ?_ (fun f => ?_)))
  · intro st a st' hr
    cases hr
    rfl
  · intro st a st' hr
    cases hr
    rfl
  · exact (h.alt b).group (expectClose_still s _) (fun x => Looks.pure _)

theorem repeat_traced : Traced b («repeat» icu s (fuel + 1)) (repeatMarks icu s (fuel + 1)) := by
  unfold «repeat» repeatMarks
  intro st r st' hb hr
  obtain ⟨a, st₁, h1, h2⟩ := bind_runs hr
  obtain ⟨q, st₂, h3, h4⟩ := bind_runs h2
  obtain ⟨ms, h5, h6⟩ := h.atom b st a st₁ hb h1
  rw [← quantifier_still s st₁ q st₂ h3] at h6
  cases q with
  | none =>
    cases h4
    exact ⟨ms, (bind_run h5).trans (bind_run h3), h6⟩
  | some q =>
    obtain ⟨f, st₃, hf, h4⟩ := bind_runs h4
    cases hf
    obtain ⟨lazy, st₄, h7, h8⟩ := bind_runs h4
    cases h8
    rw [← eat_still s _ st₂ lazy _ h7] at h6
    exact ⟨ms, (bind_run h5).trans ((bind_run h3).trans (bind_run h7)), h6⟩

theorem groupBody_traced : Traced b (groupBody icu s (fuel + 1)) (groupBodyMarks icu s (fuel + 1) b) := by
  unfold groupBody groupBodyMarks
  refine Traced.still (eat_still s _) (fun _ => Traced.ite ?_ (h.capture b []))
  -- `?P<name>`
  refine Traced.still (eat_still s _) (fun _ => Traced.ite (Traced.still (eat_still s _) (fun _ => Traced.ite
    (Traced.still (captureName_still s) (fun name => h.capture b name)) Traced.fail)) ?_)
  -- `?:`
  refine Traced.still (eat_still s _) (fun _ => Traced.ite
    ((h.alt b).group (expectClose_still s _) (fun x => Looks.pure x)) ?_)
  -- `?=` and `?!`
  refine Traced.still (eat_still s _) (fun _ => Traced.ite (h.look b _ _) ?_)
  refine Traced.still (eat_still s _) (fun _ => Traced.ite (h.look b _ _) ?_)
  -- `?<=`, `?<!` and `?<name>`
  refine Traced.still (eat_still s _) (fun _ => Traced.ite ?_ ?_)
  · refine Traced.still (eat_still s _) (fun _ => Traced.ite (h.look b _ _) ?_)
    refine Traced.still (eat_still s _) (fun _ => Traced.ite (h.look b _ _) ?_)
    exact Traced.still (captureName_still s) (fun name => h.capture b name)
  -- inline flags
  intro st r st' hb hr
  obtain ⟨saved, st₀, h1, h2⟩ := bind_runs hr
  cases h1
  obtain ⟨seen, st₁, h3, h4⟩ := bind_runs h2
  have hflags := flagsLoop_settings _ _ _ h3
  rw [hb] at hflags
  cases seen with
  | false => cases h4
  | true  =>
    obtain ⟨close, st₂, h5, h6⟩ := bind_runs h4
    have hclose := (eat_still s _ st₁ close st₂ h5).trans hflags
    cases close with
    | true =>
      cases h6
      refine ⟨_, (bind_run (x := get) rfl).trans ((bind_run h3).trans (bind_run h5)), ?_⟩
      rw [hclose]
      exact Accounted.flags b _
    | false =>
      obtain ⟨colon, st₃, h7, h8⟩ := bind_runs h6
      cases colon with
      | false => cases h8
      | true  =>
        have hcolon := (eat_still s _ st₂ _ st₃ h7).trans hclose
        obtain ⟨ms, h9, h10⟩ := (h.alt _).restored hb st₃ hcolon h8
        exact ⟨ms, (bind_run (x := get) rfl).trans ((bind_run h3).trans ((bind_run h5).trans ((bind_run h7).trans h9))), h10⟩

end

theorem allTraced (icu : Icu) (s : Bytes) : ∀ fuel, AllTraced icu s fuel
  | 0 => ⟨fun _ => Traced.throw, fun _ => Traced.throw, fun _ => Traced.throw, fun _ => Traced.throw, fun _ => Traced.throw,
      fun _ => Traced.throw, fun _ => Traced.throw, fun _ _ _ => Traced.throw, fun _ _ => Traced.throw⟩
  | fuel + 1 =>
    have h := allTraced icu s fuel
    ⟨alt_traced h, altRest_traced h, concat_traced h, concatItems_traced h, repeat_traced h, atom_traced h,
      groupBody_traced h, look_traced h, capture_traced h⟩

/-! ## The contract -/

/-- The marks of a pattern that the parser accepts, in their order. -/
def parseMarks (icu : Icu) (s : Bytes) (opt : PatternOptions) : Except String (List Mark) :=
  ((altMarks icu s (parseFuel s.length)).run { opt := opt }).map Prod.fst

def initialSettings (opt : PatternOptions) : Settings := PState.settings { opt := opt }

/-- **When inline flags stay in their group**: every group of an accepted pattern has, just after its closing parenthesis, the
settings it had just before its opening one, exactly when the flags that leak out of each group but the `(?flags: … )` ones
leave them as they were. -/
theorem flagScope_iff (icu : Icu) (s : Bytes) (opt : PatternOptions) (r : Parsed) (h : parse icu s opt = .ok r) :
    ∃ ms, parseMarks icu s opt = .ok ms ∧
      (restoresAll ms = true ↔ neutralAll ms (initialSettings opt) = true) := by
  obtain ⟨⟨n, st⟩, h1, -⟩ := bind_ok h
  obtain ⟨ms, h2, h3⟩ := (allTraced icu s (parseFuel s.length)).alt _ _ n st rfl h1
  refine ⟨ms, ?_, by rw [h3.restores]; rfl⟩
  rw [parseMarks, StateT.run, h2]
  rfl

theorem ok_of_toBool {ε α : Type} : ∀ {x : Except ε α}, x.toBool = true → ∃ a, x = .ok a
  | .ok a, _ => ⟨a, rfl⟩
  | .error _, h => by cases h

/-- `(?i:a)b` -/
theorem flagScope_flagged : ∃ ms, parseMarks asciiIcu [0x28, 0x3F, 0x69, 0x3A, 0x61, 0x29, 0x62] {} = .ok ms ∧
    (restoresAll ms = true ↔ neutralAll ms (initialSettings {}) = true) := by
  obtain ⟨r, hr⟩ : ∃ r, parse asciiIcu [0x28, 0x3F, 0x69, 0x3A, 0x61, 0x29, 0x62] {} = .ok r :=
    ok_of_toBool (by decide +kernel)
  exact flagScope_iff _ _ _ r hr

/-- `(?:(?i)a)b` is parsed, and `b` without regard to case. -/
theorem not_flagScope_plain : ¬ ∀ (icu : Icu) (s : Bytes) (opt : PatternOptions) (r : Parsed) (ms : List Mark),
    parse icu s opt = .ok r → parseMarks icu s opt = .ok ms → restoresAll ms = true := by
  intro hall
  obtain ⟨r, hr⟩ : ∃ r, parse asciiIcu [0x28, 0x3F, 0x3A, 0x28, 0x3F, 0x69, 0x29, 0x61, 0x29, 0x62] {} = .ok r :=
    ok_of_toBool (by decide +kernel)
  have hbad : (parseMarks asciiIcu [0x28, 0x3F, 0x3A, 0x28, 0x3F, 0x69, 0x29, 0x61, 0x29, 0x62] {}).toOption.map restoresAll =
      some false := by decide +kernel
  cases hms : parseMarks asciiIcu [0x28, 0x3F, 0x3A, 0x28, 0x3F, 0x69, 0x29, 0x61, 0x29, 0x62] {} with
  | error e =>
    rw [hms] at hbad
    cases hbad
  | ok ms =>
    rw [hms] at hbad
    have hgood := hall _ _ _ r ms hr hms
    rw [Except.toOption, Option.map_some, hgood] at hbad
    cases hbad

end Parser
end Pergrep
