import Pergrep.Lib.KeyLines
import Pergrep.Lib.Throw
/-!
# Getopt — the words of a command line

A grammar says what the options of a program do to a state, and `run` takes the words of a command line in their order.  A
long option has its value after a `=` or in the next word; short ones may share a word, and the one that takes a value has
it in what is left of the word, or in the next one.  After `--` no word is an option.

`spell` writes each short option as the long one it stands for, and each value into the word of its option: the run is the
same (`run_spell`).  `run_keeps` is the invariant rule.
-/
namespace Getopt

open KeyLines (cut)

abbrev Word := List UInt8

/-- What an option does. -/
inductive Action (σ ε : Type) where
  | flag (act : σ → σ)
  | value (act : σ → Word → Except ε σ)

/-- The option keeps a property of the state. -/
def Action.Keeps {σ ε : Type} (P : σ → Prop) : Action σ ε → Prop
  | .flag act  => ∀ s, P s → P (act s)
  | .value act => ∀ s v s', act s v = .ok s' → P s → P s'

structure Grammar (σ ε : Type) where
  long : Word → Option (Action σ ε)
  short : UInt8 → Option (Action σ ε)
  /-- A word that is no option. -/
  operand : σ → Word → σ
  /-- The option has no value. -/
  missing : Word → ε
  unknown : Word → ε

namespace Grammar

variable {σ ε : Type} (g : Grammar σ ε)

/-- The value of an option: what is attached to it, or the next word. -/
def need (option : Word) : Option Word → List Word → Except ε (Word × List Word)
  | some v, ws => .ok (v, ws)
  | none, w :: ws => .ok (w, ws)
  | none, [] => .error (g.missing option)

def give (act : σ → Word → Except ε σ) (s : σ) (option : Word) (attached : Option Word) (ws : List Word) :
    Except ε (σ × List Word) := do
  let v ← g.need option attached ws
  let s ← act s v.1
  return (s, v.2)

def parts (arg : Word) : Word × Option Word :=
  match cut arg with
  | some nv => (nv.1, some nv.2)
  | none    => (arg, none)

def runLong (s : σ) (arg : Word) (ws : List Word) : Except ε (σ × List Word) :=
  let option := 45 :: 45 :: (parts arg).1
  match g.long (parts arg).1 with
  | none => .error (g.unknown option)
  | some (.flag act) => .ok (act s, ws)
  | some (.value act) => g.give act s option (parts arg).2 ws

def runShort : σ → Word → List Word → Except ε (σ × List Word)
  | s, [], ws => .ok (s, ws)
  | s, c :: cs, ws =>
    match g.short c with
    | none => .error (g.unknown [45, c])
    | some (.flag act) => runShort (act s) cs ws
    | some (.value act) => g.give act s [45, c] (if cs = [] then none else some cs) ws

/-! ## What is left of the words -/

theorem need_length {option : Word} {attached : Option Word} {ws : List Word} {r : Word × List Word}
    (h : g.need option attached ws = .ok r) : r.2.length ≤ ws.length := by
  unfold need at h
  split at h
  · cases h
    exact le_rfl
  · cases h
    exact Nat.le_succ _
  · cases h

theorem give_length {act : σ → Word → Except ε σ} {s : σ} {option : Word} {attached : Option Word} {ws : List Word}
    {r : σ × List Word} (h : g.give act s option attached ws = .ok r) : r.2.length ≤ ws.length := by
  obtain ⟨v, hv, h⟩ := Throw.bind_ok h
  obtain ⟨s', -, h⟩ := Throw.bind_ok h
  cases h
  exact g.need_length hv

theorem runLong_length {s : σ} {arg : Word} {ws : List Word} {r : σ × List Word} (h : g.runLong s arg ws = .ok r) :
    r.2.length ≤ ws.length := by
  unfold runLong at h
  dsimp only at h
  split at h
  · cases h
  · cases h
    exact le_rfl
  · exact g.give_length h

theorem runShort_length : ∀ {cs : Word} {s : σ} {ws : List Word} {r : σ × List Word}, g.runShort s cs ws = .ok r →
    r.2.length ≤ ws.length
  | [], _, _, _, h => by
    cases h
    exact le_rfl
  | c :: cs, _, _, _, h => by
    rw [runShort] at h
    split at h
    · cases h
    · exact runShort_length h
    · exact g.give_length h

/-- What a word is before `--`. -/
inductive Kind where
  | ends
  | long (arg : Word)
  | short (cs : Word)
  | operand

def kind : Word → Kind
  | [45, 45] => .ends
  | 45 :: 45 :: arg => .long arg
  | 45 :: c :: cs => .short (c :: cs)
  | _ => .operand

/-- The words from the left; `operands` says that `--` was one of them. -/
def run (s : σ) (operands : Bool) : List Word → Except ε σ
  | [] => .ok s
  | w :: ws =>
    if operands then run (g.operand s w) true ws
    else
      match kind w with
      | .ends => run s true ws
      | .long arg =>
        match h : g.runLong s arg ws with
        | .error e => .error e
        | .ok r    => have := g.runLong_length h; run r.1 false r.2
      | .short cs =>
        match h : g.runShort s cs ws with
        | .error e => .error e
        | .ok r    => have := g.runShort_length h; run r.1 false r.2
      | .operand => run (g.operand s w) false ws
  termination_by ws => ws.length
  decreasing_by all_goals (rw [List.length_cons]; omega)

/-! ## The spelling -/

section
variable (name : UInt8 → Option Word)

def withValue (n v : Word) : Word := 45 :: 45 :: (n ++ 61 :: v)

/-- A short option that takes no value, in a word of its own. -/
def flagWord (c : UInt8) : Word :=
  match name c with
  | none   => [45, c]
  | some n => 45 :: 45 :: n

/-- The options of a word, one word each, and what is left of the words: `none` where an option is unknown or has no
value, or takes one and has no long name. -/
def spellShort : Word → List Word → Option (List Word × List Word)
  | [], ws => some ([], ws)
  | c :: cs, ws =>
    match g.short c, name c with
    | none, _ => none
    | some (.flag _), _ => (spellShort cs ws).map (fun r => (flagWord name c :: r.1, r.2))
    | some (.value _), none => none
    | some (.value _), some n =>
      if cs = [] then
        match ws with
        | []      => none
        | v :: ws => some ([withValue n v], ws)
      else some ([withValue n cs], ws)

/-- A long option and the words after it: its value attached, where it takes one from the next word. -/
def spellLong (arg : Word) (ws : List Word) : Word × List Word :=
  match cut arg, g.long arg, ws with
  | none, some (.value _), v :: ws => (withValue arg v, ws)
  | _, _, _ => (45 :: 45 :: arg, ws)

theorem spellShort_length : ∀ {cs : Word} {ws : List Word} {r : List Word × List Word}, g.spellShort name cs ws = some r →
    r.2.length ≤ ws.length
  | [], _, _, h => by
    cases h
    exact le_rfl
  | c :: cs, ws, _, h => by
    rw [spellShort] at h
    split at h
    · cases h
    · obtain ⟨r, hr, rfl⟩ := Option.map_eq_some_iff.1 h
      exact spellShort_length (r := r) hr
    · cases h
    · split at h
      · split at h
        · cases h
        · cases h
          exact Nat.le_succ _
      · cases h
        exact le_rfl

theorem spellLong_length (arg : Word) (ws : List Word) : (g.spellLong arg ws).2.length ≤ ws.length := by
  unfold spellLong
  split
  · exact Nat.le_succ _
  · exact le_rfl

/-- Each option long, where it has a long name, and each value in the word of its option.  A word with an unknown option is
left with all that follows it. -/
def spell : List Word → List Word
  | [] => []
  | w :: ws =>
    match kind w with
    | .ends => w :: ws
    | .long arg =>
      have := g.spellLong_length arg ws
      (g.spellLong arg ws).1 :: spell (g.spellLong arg ws).2
    | .short cs =>
      match h : g.spellShort name cs ws with
      | none   => w :: ws
      | some r => have := g.spellShort_length name h; r.1 ++ spell r.2
    | .operand => w :: spell ws
  termination_by ws => ws.length
  decreasing_by all_goals (rw [List.length_cons]; omega)

/-- The names are those of long options that do the same. -/
structure Names : Prop where
  dash : g.short 45 = none
  ne_nil : ∀ {c n}, name c = some n → n ≠ []
  equals : ∀ {c n}, name c = some n → (61 : UInt8) ∉ n
  same : ∀ {c n}, name c = some n → g.long n = g.short c
  values : ∀ {c act}, g.short c = some (.value act) → name c ≠ none

end

/-- The option leaves the next word alone: it has a value attached, or takes none. -/
def Alone (arg : Word) : Prop := cut arg = none → ∀ act, g.long arg ≠ some (.value act)

/-- An option is a long one that leaves the next word alone, or a short one that takes no value and has no long name. -/
def SpelledWord (name : UInt8 → Option Word) (w : Word) : Prop :=
  match kind w with
  | .long arg => g.Alone arg
  | .short cs => ∃ c act, cs = [c] ∧ name c = none ∧ g.short c = some (.flag act)
  | .ends => True
  | .operand => True

/-- Each word up to `--` is spelled. -/
def Spelled (name : UInt8 → Option Word) : List Word → Prop
  | [] => True
  | w :: ws => g.SpelledWord name w ∧ (kind w = .ends ∨ Spelled name ws)

/-! ## One word -/

theorem cut_of_notMem {arg : Word} (h : (61 : UInt8) ∉ arg) : cut arg = none := by
  unfold cut
  rw [List.findIdx?_eq_none_iff.2, Option.map_none]
  intro b hb
  rw [beq_eq_false_iff_ne]
  rintro rfl
  exact h hb

theorem notMem_of_cut {arg : Word} (h : cut arg = none) : (61 : UInt8) ∉ arg := by
  intro hmem
  have hnone := List.findIdx?_eq_none_iff.1 (Option.map_eq_none_iff.1 h) 61 hmem
  cases hnone

theorem parts_of_notMem {arg : Word} (h : (61 : UInt8) ∉ arg) : parts arg = (arg, none) := by
  rw [parts, cut_of_notMem h]

theorem parts_append {n : Word} (v : Word) (h : (61 : UInt8) ∉ n) : parts (n ++ 61 :: v) = (n, some v) := by
  rw [parts, KeyLines.cut_line h]

theorem kind_long {arg : Word} (h : arg ≠ []) : kind (45 :: 45 :: arg) = .long arg := by
  cases arg with
  | nil => exact absurd rfl h
  | cons b arg => rfl

theorem kind_withValue (n v : Word) : kind (withValue n v) = .long (n ++ 61 :: v) :=
  kind_long (List.append_ne_nil_of_right_ne_nil n (List.cons_ne_nil 61 v))

theorem kind_short {c : UInt8} (h : c ≠ 45) (cs : Word) : kind (45 :: c :: cs) = .short (c :: cs) := by
  unfold kind
  split
  · rename_i heq
    cases heq
    exact absurd rfl h
  · rename_i heq
    cases heq
    exact absurd rfl h
  · rename_i heq
    cases heq
    rfl
  · rename_i hno
    exact absurd rfl (hno c cs)

theorem kind_eq_long {w arg : Word} (h : kind w = .long arg) : w = 45 :: 45 :: arg := by
  unfold kind at h
  split at h <;> cases h
  rfl

/-! ## One step of the run -/

theorem run_ends {w : Word} (h : kind w = .ends) (s : σ) (ws : List Word) : g.run s false (w :: ws) = g.run s true ws := by
  rw [run, if_neg Bool.false_ne_true, h]

theorem run_long {w arg : Word} (h : kind w = .long arg) (s : σ) (ws : List Word) :
    g.run s false (w :: ws) = g.runLong s arg ws >>= fun r => g.run r.1 false r.2 := by
  rw [run, if_neg Bool.false_ne_true, h]
  dsimp only
  split
  · rename_i heq
    rw [heq]
    rfl
  · rename_i heq
    rw [heq]
    rfl

theorem run_short {w cs : Word} (h : kind w = .short cs) (s : σ) (ws : List Word) :
    g.run s false (w :: ws) = g.runShort s cs ws >>= fun r => g.run r.1 false r.2 := by
  rw [run, if_neg Bool.false_ne_true, h]
  dsimp only
  split
  · rename_i heq
    rw [heq]
    rfl
  · rename_i heq
    rw [heq]
    rfl

theorem run_operand {w : Word} (h : kind w = .operand) (s : σ) (ws : List Word) :
    g.run s false (w :: ws) = g.run (g.operand s w) false ws := by
  rw [run, if_neg Bool.false_ne_true, h]

theorem give_attached (act : σ → Word → Except ε σ) (s : σ) (option v : Word) (ws : List Word) :
    g.give act s option (some v) ws = (act s v).map (fun s => (s, ws)) := by
  show (act s v >>= fun s => pure (s, ws)) = _
  cases act s v <;> rfl

theorem give_next (act : σ → Word → Except ε σ) (s : σ) (option v : Word) (ws : List Word) :
    g.give act s option none (v :: ws) = (act s v).map (fun s => (s, ws)) := by
  show (act s v >>= fun s => pure (s, ws)) = _
  cases act s v <;> rfl

theorem runLong_flag {n : Word} {act : σ → σ} (hn : (61 : UInt8) ∉ n) (h : g.long n = some (.flag act)) (s : σ)
    (ws : List Word) : g.runLong s n ws = .ok (act s, ws) := by
  rw [runLong, parts_of_notMem hn, h]

theorem runLong_value {n : Word} {act : σ → Word → Except ε σ} (hn : (61 : UInt8) ∉ n)
    (h : g.long n = some (.value act)) (s : σ) (v : Word) (ws : List Word) :
    g.runLong s (n ++ 61 :: v) ws = (act s v).map (fun s => (s, ws)) := by
  rw [runLong, parts_append v hn, h]
  exact g.give_attached act s _ v ws

/-! ## The spelling changes nothing -/

section
variable {name : UInt8 → Option Word} (hnames : g.Names name)
include hnames

theorem run_flagWord {c : UInt8} {act : σ → σ} (h : g.short c = some (.flag act)) (s : σ) (ws : List Word) :
    g.run s false (flagWord name c :: ws) = g.run (act s) false ws := by
  unfold flagWord
  cases hn : name c with
  | none =>
    have hc : c ≠ 45 := by
      rintro rfl
      rw [hnames.dash] at h
      cases h
    rw [g.run_short (kind_short hc []), runShort, h]
    rfl
  | some n =>
    rw [g.run_long (kind_long (hnames.ne_nil hn)), g.runLong_flag (hnames.equals hn) ((hnames.same hn).trans h)]
    rfl

theorem run_withValue {c : UInt8} {n : Word} {act : σ → Word → Except ε σ} (h : g.short c = some (.value act))
    (hn : name c = some n) (s : σ) (v : Word) (ws : List Word) :
    g.run s false (withValue n v :: ws) = act s v >>= fun s => g.run s false ws := by
  rw [g.run_long (kind_withValue n v), g.runLong_value (hnames.equals hn) ((hnames.same hn).trans h)]
  cases act s v <;> rfl

/-- **The options of a word do what they do in words of their own.** -/
theorem run_spellShort : ∀ {cs : Word} {ws : List Word} {r : List Word × List Word}, g.spellShort name cs ws = some r →
    ∀ (s : σ) (rest : List Word), ∃ x : Except ε σ, g.runShort s cs ws = x.map (fun s => (s, r.2)) ∧
      g.run s false (r.1 ++ rest) = x >>= fun s => g.run s false rest
  | [], ws, _, h, s, rest => by
    cases h
    exact ⟨.ok s, rfl, rfl⟩
  | c :: cs, ws, _, h, s, rest => by
    rw [spellShort] at h
    split at h
    · cases h
    · rename_i act hact
      obtain ⟨r, hr, rfl⟩ := Option.map_eq_some_iff.1 h
      obtain ⟨x, hx, hrun⟩ := run_spellShort hr (act s) rest
      refine ⟨x, ?_, ?_⟩
      · rw [runShort, hact]
        exact hx
      · rw [List.cons_append, g.run_flagWord hnames hact]
        exact hrun
    · cases h
    · rename_i act n hact hn
      split at h
      · rename_i hcs
        split at h
        · cases h
        · rename_i v ws
          cases h
          refine ⟨act s v, ?_, g.run_withValue hnames hact hn s v rest⟩
          rw [runShort, hact]
          dsimp only
          rw [if_pos hcs, give_next]
      · rename_i hcs
        cases h
        refine ⟨act s cs, ?_, g.run_withValue hnames hact hn s cs rest⟩
        rw [runShort, hact]
        dsimp only
        rw [if_neg hcs, give_attached]

end

theorem runLong_alone {arg : Word} (h : g.Alone arg) (s : σ) : ∃ x : Except ε σ, ∀ ws,
    g.runLong s arg ws = x.map (fun s => (s, ws)) := by
  unfold runLong
  dsimp only
  cases hact : g.long (parts arg).1 with
  | none => exact ⟨.error (g.unknown (45 :: 45 :: (parts arg).1)), fun _ => rfl⟩
  | some act =>
    cases act with
    | flag act => exact ⟨.ok (act s), fun _ => rfl⟩
    | value act =>
      cases hcut : cut arg with
      | none =>
        rw [parts, hcut] at hact
        exact absurd hact (h hcut act)
      | some nv =>
        rw [parts, hcut]
        exact ⟨act s nv.2, fun ws => g.give_attached act s _ nv.2 ws⟩

/-- What is made of a long option: it reads its value from its own word, or there is no next one. -/
theorem spellLong_cases (arg : Word) (ws : List Word) :
    (∃ act v ws', ws = v :: ws' ∧ cut arg = none ∧ g.long arg = some (.value act) ∧ g.spellLong arg ws = (withValue arg v, ws')) ∨
      (g.spellLong arg ws = (45 :: 45 :: arg, ws) ∧ (g.Alone arg ∨ ws = [])) := by
  cases ws with
  | nil =>
    unfold spellLong
    split
    · rename_i heq
      cases heq
    · exact Or.inr ⟨rfl, Or.inr rfl⟩
  | cons v ws' =>
    unfold spellLong
    split
    · rename_i act v ws' hcut hact heq
      cases heq
      exact Or.inl ⟨act, v, ws', rfl, hcut, hact, rfl⟩
    · rename_i hno
      exact Or.inr ⟨rfl, Or.inl (fun hcut act hact => hno act v ws' hcut hact rfl)⟩

section
variable {name : UInt8 → Option Word} (hnames : g.Names name)
include hnames

/-- **A command line does what its spelling does**: it is accepted when that is, with the same state at the end. -/
theorem run_spell (ws : List Word) (s : σ) : (g.run s false (g.spell name ws)).toOption = (g.run s false ws).toOption := by
  induction hlen : ws.length using Nat.strong_induction_on generalizing ws s with
  | _ n ih =>
    subst hlen
    cases ws with
    | nil => rw [spell]
    | cons w ws =>
      rw [spell]
      cases hw : kind w with
      | ends => rfl
      | operand =>
        dsimp only
        rw [g.run_operand hw, g.run_operand hw]
        exact ih ws.length (Nat.lt_succ_self _) ws _ rfl
      | short cs =>
        dsimp only
        split
        · rfl
        · rename_i r hr
          obtain ⟨x, hx, hrun⟩ := g.run_spellShort hnames hr s (g.spell name r.2)
          rw [hrun, g.run_short hw, hx]
          cases x with
          | error e => rfl
          | ok s' => exact ih r.2.length (Nat.lt_succ_of_le (g.spellShort_length name hr)) r.2 s' rfl
      | long arg =>
        dsimp only
        rw [g.run_long hw]
        rcases g.spellLong_cases arg ws with ⟨act, v, ws', rfl, hcut, hact, heq⟩ | ⟨heq, halone⟩
        · have hmem := notMem_of_cut hcut
          have hread : g.runLong s arg (v :: ws') = (act s v).map (fun s => (s, ws')) := by
            rw [runLong, parts_of_notMem hmem, hact]
            exact g.give_next act s _ v ws'
          rw [heq, g.run_long (kind_withValue arg v), g.runLong_value hmem hact, hread]
          cases act s v with
          | error e => rfl
          | ok s' => exact ih ws'.length (Nat.lt_succ_of_lt (Nat.lt_succ_self _)) ws' s' rfl
        · rw [heq, ← kind_eq_long hw, g.run_long hw]
          rcases halone with halone | rfl
          · obtain ⟨x, hx⟩ := g.runLong_alone halone s
            rw [hx, hx]
            cases x with
            | error e => rfl
            | ok s' => exact ih ws.length (Nat.lt_succ_self _) ws s' rfl
          · rw [spell]

/-! ## What is spelled -/

theorem spelledWord_flagWord {c : UInt8} {act : σ → σ} (h : g.short c = some (.flag act)) :
    g.SpelledWord name (flagWord name c) := by
  unfold flagWord
  cases hn : name c with
  | none =>
    have hc : c ≠ 45 := by
      rintro rfl
      rw [hnames.dash] at h
      cases h
    rw [SpelledWord, kind_short hc]
    exact ⟨c, act, rfl, hn, h⟩
  | some n =>
    rw [SpelledWord, kind_long (hnames.ne_nil hn)]
    intro _ act' hact
    rw [hnames.same hn, h] at hact
    cases hact

omit hnames in
theorem spelledWord_withValue {n : Word} (v : Word) : g.SpelledWord name (withValue n v) := by
  rw [SpelledWord, kind_withValue]
  intro hcut
  exact absurd (List.mem_append_right n List.mem_cons_self) (notMem_of_cut hcut)

theorem spelledWord_of_mem : ∀ {cs : Word} {ws : List Word} {r : List Word × List Word}, g.spellShort name cs ws = some r →
    ∀ w ∈ r.1, g.SpelledWord name w
  | [], _, _, h, w, hw => by
    cases h
    cases hw
  | c :: cs, ws, _, h, w, hw => by
    rw [spellShort] at h
    split at h
    · cases h
    · rename_i act hact
      obtain ⟨r, hr, rfl⟩ := Option.map_eq_some_iff.1 h
      rcases List.mem_cons.1 hw with rfl | hw
      · exact g.spelledWord_flagWord hnames hact
      · exact spelledWord_of_mem hr w hw
    · cases h
    · rename_i act n hact hn
      split at h
      · split at h
        · cases h
        · cases h
          rw [List.mem_singleton.1 hw]
          exact g.spelledWord_withValue _
      · cases h
        rw [List.mem_singleton.1 hw]
        exact g.spelledWord_withValue _

theorem spellShort_of_runShort : ∀ {cs : Word} {s : σ} {ws : List Word} {r : σ × List Word}, g.runShort s cs ws = .ok r →
    g.spellShort name cs ws ≠ none
  | [], _, _, _, _ => nofun
  | c :: cs, s, ws, r, h => by
    rw [runShort] at h
    rw [spellShort]
    cases hact : g.short c with
    | none =>
      rw [hact] at h
      cases h
    | some act =>
      rw [hact] at h
      cases act with
      | flag act =>
        dsimp only at h ⊢
        rw [Ne, Option.map_eq_none_iff]
        exact spellShort_of_runShort h
      | value act =>
        cases hn : name c with
        | none => exact absurd hn (hnames.values hact)
        | some _ =>
          dsimp only at h ⊢
          split
          · rename_i hcs
            rw [if_pos hcs] at h
            cases ws with
            | nil => cases h
            | cons v ws => exact nofun
          · exact nofun

omit hnames in
theorem spelled_append {xs ys : List Word} (hx : ∀ w ∈ xs, g.SpelledWord name w) (hy : g.Spelled name ys) :
    g.Spelled name (xs ++ ys) := by
  induction xs with
  | nil => exact hy
  | cons w xs ih => exact ⟨hx w List.mem_cons_self, Or.inr (ih (fun w' hw' => hx w' (List.mem_cons_of_mem w hw')))⟩

/-- **The spelling of a command line that is accepted is spelled to its end.** -/
theorem spelled_spell (ws : List Word) {s s' : σ} (h : g.run s false ws = .ok s') : g.Spelled name (g.spell name ws) := by
  induction hlen : ws.length using Nat.strong_induction_on generalizing ws s with
  | _ n ih =>
    subst hlen
    cases ws with
    | nil =>
      rw [spell]
      trivial
    | cons w ws =>
      rw [spell]
      cases hw : kind w with
      | ends =>
        refine ⟨?_, Or.inl hw⟩
        rw [SpelledWord, hw]
        trivial
      | operand =>
        rw [g.run_operand hw] at h
        refine ⟨?_, Or.inr (ih ws.length (Nat.lt_succ_self _) ws h rfl)⟩
        rw [SpelledWord, hw]
        trivial
      | short cs =>
        rw [g.run_short hw] at h
        obtain ⟨r, hr, h⟩ := Throw.bind_ok h
        dsimp only
        split
        · rename_i hnone
          exact absurd hnone (g.spellShort_of_runShort hnames hr)
        · rename_i r' hr'
          obtain ⟨x, hx, -⟩ := g.run_spellShort hnames hr' s []
          have heq : r.2 = r'.2 := by
            rw [hx] at hr
            obtain ⟨_, -, rfl⟩ := Throw.map_ok hr
            rfl
          rw [heq] at h
          refine g.spelled_append (g.spelledWord_of_mem hnames hr') ?_
          exact ih r'.2.length (Nat.lt_succ_of_le (g.spellShort_length name hr')) r'.2 h rfl
      | long arg =>
        rw [g.run_long hw] at h
        obtain ⟨r, hr, h⟩ := Throw.bind_ok h
        dsimp only
        rcases g.spellLong_cases arg ws with ⟨act, v, ws', rfl, hcut, hact, heq⟩ | ⟨heq, halone⟩
        · have hmem := notMem_of_cut hcut
          rw [runLong, parts_of_notMem hmem, hact] at hr
          obtain ⟨s₁, -, rfl⟩ := Throw.map_ok ((g.give_next act s _ v ws').symm.trans hr)
          rw [heq]
          exact ⟨g.spelledWord_withValue v, Or.inr (ih ws'.length (Nat.lt_succ_of_lt (Nat.lt_succ_self _)) ws' h rfl)⟩
        · rw [heq, ← kind_eq_long hw]
          have hal : g.Alone arg := by
            rcases halone with halone | rfl
            · exact halone
            · intro hcut act hact
              rw [runLong, parts_of_notMem (notMem_of_cut hcut), hact] at hr
              cases hr
          obtain ⟨x, hx⟩ := g.runLong_alone hal s
          rw [hx] at hr
          obtain ⟨s₁, -, rfl⟩ := Throw.map_ok hr
          refine ⟨?_, Or.inr (ih ws.length (Nat.lt_succ_self _) ws h rfl)⟩
          rw [SpelledWord, hw]
          exact hal

end

/-! ## Invariants -/

section
variable {P : σ → Prop} (hlong : ∀ n act, g.long n = some act → act.Keeps P)
  (hshort : ∀ c act, g.short c = some act → act.Keeps P) (hoperand : ∀ s w, P s → P (g.operand s w))

omit hlong hshort hoperand in
theorem give_keeps {act : σ → Word → Except ε σ} (h : Action.Keeps P (.value act)) {s : σ} {option : Word}
    {attached : Option Word} {ws : List Word} {r : σ × List Word} (hr : g.give act s option attached ws = .ok r) (hs : P s) :
    P r.1 := by
  obtain ⟨v, -, hr⟩ := Throw.bind_ok hr
  obtain ⟨s', hs', hr⟩ := Throw.bind_ok hr
  cases hr
  exact h s v.1 s' hs' hs

include hlong in
theorem runLong_keeps {s : σ} {arg : Word} {ws : List Word} {r : σ × List Word} (h : g.runLong s arg ws = .ok r) (hs : P s) :
    P r.1 := by
  unfold runLong at h
  dsimp only at h
  split at h
  · cases h
  · rename_i act hact
    cases h
    exact hlong _ _ hact s hs
  · rename_i act hact
    exact g.give_keeps (hlong _ _ hact) h hs

include hshort in
theorem runShort_keeps : ∀ {cs : Word} {s : σ} {ws : List Word} {r : σ × List Word}, g.runShort s cs ws = .ok r → P s → P r.1
  | [], _, _, _, h, hs => by
    cases h
    exact hs
  | c :: cs, s, _, _, h, hs => by
    rw [runShort] at h
    split at h
    · cases h
    · rename_i act hact
      exact runShort_keeps h (hshort c _ hact s hs)
    · rename_i act hact
      exact g.give_keeps (hshort c _ hact) h hs

include hlong hshort hoperand in
/-- **What each option and each operand keeps, a command line keeps.** -/
theorem run_keeps (ws : List Word) {s s' : σ} {operands : Bool} (h : g.run s operands ws = .ok s') (hs : P s) : P s' := by
  induction hlen : ws.length using Nat.strong_induction_on generalizing ws s operands with
  | _ n ih =>
    subst hlen
    cases ws with
    | nil =>
      rw [run] at h
      cases h
      exact hs
    | cons w ws =>
      cases operands with
      | true =>
        rw [run, if_pos rfl] at h
        exact ih ws.length (Nat.lt_succ_self _) ws h (hoperand s w hs) rfl
      | false =>
        cases hw : kind w with
        | ends =>
          rw [g.run_ends hw] at h
          exact ih ws.length (Nat.lt_succ_self _) ws h hs rfl
        | operand =>
          rw [g.run_operand hw] at h
          exact ih ws.length (Nat.lt_succ_self _) ws h (hoperand s w hs) rfl
        | long arg =>
          rw [g.run_long hw] at h
          obtain ⟨r, hr, h⟩ := Throw.bind_ok h
          exact ih r.2.length (Nat.lt_succ_of_le (g.runLong_length hr)) r.2 h (g.runLong_keeps hlong hr hs) rfl
        | short cs =>
          rw [g.run_short hw] at h
          obtain ⟨r, hr, h⟩ := Throw.bind_ok h
          exact ih r.2.length (Nat.lt_succ_of_le (g.runShort_length hr)) r.2 h (g.runShort_keeps hshort hr hs) rfl

end

end Grammar
end Getopt
