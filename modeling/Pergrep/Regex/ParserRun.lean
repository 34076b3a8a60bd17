import Pergrep.Regex.ParserSpec
/-!
# ParserRun — what one action of the parser does to its state

An equation for each reading action at a state, by what byte stands there: `eat` takes it or leaves the state alone,
`skipIgnored` does nothing outside the ignore-whitespace mode, `quantifier` finds none at a byte that opens none.
-/
namespace Pergrep
namespace Parser

def PState.flags (st : PState) : NodeFlags :=
  { icase := st.opt.caseMode == .insensitive, dotall := st.opt.dotall, multiline := st.opt.multiline,
    unicode := st.opt.unicode, crlf := st.opt.crlf }

def PState.forward (st : PState) (k : Nat) : PState := { st with i := st.i + k }

@[simp] theorem PState.forward_i (st : PState) (k : Nat) : (st.forward k).i = st.i + k := rfl
@[simp] theorem PState.forward_flags (st : PState) (k : Nat) : (st.forward k).flags = st.flags := rfl
@[simp] theorem PState.forward_ignoreWs (st : PState) (k : Nat) : (st.forward k).ignoreWs = st.ignoreWs := rfl
@[simp] theorem PState.forward_zero (st : PState) : st.forward 0 = st := rfl

theorem PState.forward_forward (st : PState) (j k : Nat) : (st.forward j).forward k = st.forward (j + k) := by
  simp only [forward, Nat.add_assoc]

theorem bind_run {α β : Type} {x : P α} {k : α → P β} {st st' : PState} {a : α} (h : x st = .ok (a, st')) :
    (x >>= k) st = k a st' := by
  change (x st >>= fun y => k y.1 y.2) = _
  rw [h]
  rfl

theorem bind_runs {α β : Type} {x : P α} {k : α → P β} {st st' : PState} {c : β} (h : (x >>= k) st = .ok (c, st')) :
    ∃ a st₁, x st = .ok (a, st₁) ∧ k a st₁ = .ok (c, st') := by
  obtain ⟨⟨a, st₁⟩, h1, h2⟩ := Throw.bind_ok (x := x st) (f := fun y => k y.1 y.2) h
  exact ⟨a, st₁, h1, h2⟩

theorem bind_runs_iff {α β : Type} {x : P α} {k : α → P β} {st st' : PState} {c : β} :
    (x >>= k) st = .ok (c, st') ↔ ∃ a st₁, x st = .ok (a, st₁) ∧ k a st₁ = .ok (c, st') :=
  ⟨bind_runs, fun ⟨_, _, h1, h2⟩ => (bind_run h1).trans h2⟩

theorem get_run (st : PState) : (get : P PState) st = .ok (st, st) := rfl

theorem advance_run (k : Nat) (st : PState) : advance k st = .ok ((), st.forward k) := rfl

theorem nodeFlags_run (st : PState) : nodeFlags st = .ok (st.flags, st) := rfl

variable {s : Bytes} {st : PState}

theorem peek_run : peek s st = .ok (s[st.i]?, st) := rfl

theorem eat_at {c : UInt8} (h : s[st.i]? = some c) : eat s c st = .ok (true, st.forward 1) := by
  unfold eat
  rw [bind_run peek_run, if_pos h]
  rfl

theorem eat_not {c : UInt8} (h : s[st.i]? ≠ some c) : eat s c st = .ok (false, st) := by
  unfold eat
  rw [bind_run peek_run, if_neg h]
  rfl

theorem eat_ite_not {α : Type} {c : UInt8} {x y : P α} (h : s[st.i]? ≠ some c) :
    (do if ← eat s c then x else y : P α) st = y st := bind_run (eat_not h)

theorem eat_ite_at {α : Type} {c : UInt8} {x y : P α} (h : s[st.i]? = some c) :
    (do if ← eat s c then x else y : P α) st = x (st.forward 1) := bind_run (eat_at h)

theorem getByte_run {c : UInt8} (h : s[st.i]? = some c) : getByte s st = .ok (c, st.forward 1) := by
  unfold getByte
  rw [bind_run peek_run, h]
  rfl

theorem getByte_ok {c : UInt8} {st' : PState} : getByte s st = .ok (c, st') ↔ s[st.i]? = some c ∧ st' = st.forward 1 := by
  constructor
  · intro hg
    cases hb : s[st.i]? with
    | none =>
      unfold getByte at hg
      rw [bind_run peek_run, hb] at hg
      cases hg
    | some c =>
      rw [getByte_run hb] at hg
      cases hg
      exact ⟨rfl, rfl⟩
  · rintro ⟨hb, rfl⟩
    exact getByte_run hb

theorem skipIgnored_off (h : st.ignoreWs = false) : skipIgnored s st = .ok ((), st) := by
  unfold skipIgnored
  rw [bind_run (get_run st), h]
  rfl

def opensQuantifier (b : UInt8) : Bool := [0x2A, 0x2B, 0x3F, 0x7B].contains b

theorem quantifier_none (h : ∀ b, s[st.i]? = some b → opensQuantifier b = false) :
    quantifier s st = .ok (none, st) := by
  have hne : ∀ b, opensQuantifier b = true → s[st.i]? ≠ some b := by
    intro b hb he
    rw [h b he] at hb
    cases hb
  unfold quantifier
  rw [eat_ite_not (hne 0x2A rfl), eat_ite_not (hne 0x2B rfl), eat_ite_not (hne 0x3F rfl), eat_ite_not (hne 0x7B rfl)]
  rfl

theorem patternRune_run {cp w : Nat} (h : u8Next (s.drop st.i) = some (cp, w)) :
    patternRune s st = .ok (cp, st.forward w) := by
  unfold patternRune
  rw [bind_run (get_run st)]
  cases hd : s.drop st.i with
  | nil =>
    rw [hd] at h
    cases h
  | cons b t =>
    rw [hd] at h
    dsimp only
    rw [h]
    rfl

theorem eat_ok {c : UInt8} {b : Bool} {st' : PState} :
    eat s c st = .ok (b, st') ↔ (s[st.i]? = some c ∧ b = true ∧ st' = st.forward 1) ∨ (s[st.i]? ≠ some c ∧ b = false ∧ st' = st) := by
  by_cases h : s[st.i]? = some c
  · rw [eat_at h]
    constructor
    · intro he
      cases he
      exact Or.inl ⟨h, rfl, rfl⟩
    · rintro (⟨-, rfl, rfl⟩ | ⟨hn, -⟩)
      · rfl
      · exact absurd h hn
  · rw [eat_not h]
    constructor
    · intro he
      cases he
      exact Or.inr ⟨h, rfl, rfl⟩
    · rintro (⟨hs, -⟩ | ⟨-, rfl, rfl⟩)
      · exact absurd hs h
      · rfl

theorem expectClose_ok {m : String} {st' : PState} :
    expectClose s m st = .ok ((), st') ↔ s[st.i]? = some 0x29 ∧ st' = st.forward 1 := by
  by_cases h : s[st.i]? = some 0x29
  · unfold expectClose
    rw [bind_run (eat_at h)]
    constructor
    · intro he
      cases he
      exact ⟨h, rfl⟩
    · rintro ⟨-, rfl⟩
      rfl
  · unfold expectClose
    rw [bind_run (eat_not h)]
    constructor
    · intro he
      cases he
    · exact fun he => absurd he.1 h

/-! ## What a successful run of each function was -/

def skipped (s : Bytes) (st : PState) : PState :=
  if st.ignoreWs then st.forward (ignoredPrefix (s.drop st.i) false) else st

theorem skipIgnored_run : skipIgnored s st = .ok ((), skipped s st) := by
  unfold skipIgnored skipped
  rw [bind_run (get_run st)]
  split <;> rfl

theorem captureName_ok {st' : PState} {name : Bytes} : captureName s st = .ok (name, st') ↔ ∃ st₁,
    nameLoop (s.drop st.i) st = .ok (name, st₁) ∧ name.isEmpty = false ∧ s[st₁.i]? = some 0x3E ∧ st' = st₁.forward 1 := by
  unfold captureName
  rw [bind_run (get_run st), bind_runs_iff]
  constructor
  · rintro ⟨a, st₁, h1, h2⟩
    split at h2
    · cases h2
    · rename_i hn
      dsimp only at h2
      by_cases hc : s[st₁.i]? = some 0x3E
      · rw [eat_ite_at hc] at h2
        cases h2
        exact ⟨st₁, h1, (Bool.not_eq_true _).mp hn, hc, rfl⟩
      · rw [eat_ite_not hc] at h2
        cases h2
  · rintro ⟨st₁, h1, hn, hc, rfl⟩
    refine ⟨name, st₁, h1, ?_⟩
    rw [hn]
    exact eat_ite_at hc

theorem number_ok {st' : PState} {n : Nat} : number s st = .ok (n, st') ↔
    (∃ b, s[st.i]? = some b ∧ isDigitByte b = true) ∧ numberLoop (s.drop st.i) 0 st = .ok (n, st') := by
  unfold number
  rw [bind_run peek_run]
  cases hb : s[st.i]? with
  | none =>
    constructor
    · intro hr
      cases hr
    · rintro ⟨⟨b, hs, -⟩, -⟩
      cases hs
  | some b =>
    dsimp only
    by_cases hd : isDigitByte b = true
    · rw [if_pos hd, bind_run (get_run st)]
      exact ⟨fun hr => ⟨⟨b, rfl, hd⟩, hr⟩, And.right⟩
    · rw [if_neg hd]
      constructor
      · intro hr
        cases hr
      · rintro ⟨⟨b', hs, hd'⟩, -⟩
        cases hs
        exact absurd hd' hd

theorem hexEscape_ok {st' : PState} {b : UInt8} : hexEscape s st = .ok (b, st') ↔ ∃ u l x y, s[st.i]? = some u ∧
    s[st.i + 1]? = some l ∧ hexVal u = some x ∧ hexVal l = some y ∧ b = UInt8.ofNat (x * 16 + y) ∧ st' = st.forward 2 := by
  have hget : ∀ j, (s.drop st.i)[j]? = s[st.i + j]? := fun j => List.getElem?_drop
  have h0 := hget 0
  have h1 := hget 1
  unfold hexEscape
  rw [bind_run (get_run st)]
  rw [Nat.add_zero] at h0
  rw [← h0, ← h1]
  rcases s.drop st.i with _ | ⟨u, _ | ⟨l, t⟩⟩
  · constructor
    · intro hr
      cases hr
    · rintro ⟨u, l, x, y, hu, -⟩
      cases hu
  · constructor
    · intro hr
      cases hr
    · rintro ⟨u, l, x, y, -, hl, -⟩
      cases hl
  · constructor
    · intro hr
      dsimp only at hr
      rw [bind_run (advance_run 2 st)] at hr
      cases hu : hexVal u with
      | none =>
        rw [hu] at hr
        cases hr
      | some x =>
        cases hl : hexVal l with
        | none =>
          rw [hu, hl] at hr
          cases hr
        | some y =>
          rw [hu, hl] at hr
          cases hr
          exact ⟨u, l, x, y, rfl, rfl, hu, hl, rfl, rfl⟩
    · rintro ⟨u', l', x, y, hu, hl, hx, hy, rfl, rfl⟩
      cases hu
      cases hl
      dsimp only
      rw [bind_run (advance_run 2 st), hx, hy]
      rfl

theorem propertyName_ok {st' : PState} {name : Bytes} : propertyName s st = .ok (name, st') ↔
    (s[st.i]? = some 0x7B ∧ name = (s.drop (st.i + 1)).takeWhile (· != 0x7D) ∧ s[st.i + 1 + name.length]? = some 0x7D ∧
      st' = st.forward (1 + name.length + 1)) ∨
    (s[st.i]? ≠ some 0x7B ∧ ∃ c, s[st.i]? = some c ∧ name = [c] ∧ st' = st.forward 1) := by
  unfold propertyName
  by_cases hb : s[st.i]? = some 0x7B
  · rw [eat_ite_at hb, bind_run (get_run _), bind_run (advance_run _ _), PState.forward_forward, PState.forward_i]
    generalize (s.drop (st.i + 1)).takeWhile (· != 0x7D) = l
    have hi : (st.forward (1 + l.length)).i = st.i + 1 + l.length := (Nat.add_assoc _ _ _).symm
    by_cases hc : s[st.i + 1 + l.length]? = some 0x7D
    · rw [eat_ite_at (by rw [hi]; exact hc), PState.forward_forward]
      constructor
      · intro hr
        cases hr
        exact Or.inl ⟨hb, rfl, hc, rfl⟩
      · rintro (⟨-, rfl, -, rfl⟩ | ⟨hn, -⟩)
        · rfl
        · exact absurd hb hn
    · rw [eat_ite_not (by rw [hi]; exact hc)]
      constructor
      · intro hr
        cases hr
      · rintro (⟨-, rfl, hc', -⟩ | ⟨hn, -⟩)
        · exact absurd hc' hc
        · exact absurd hb hn
  · rw [eat_ite_not hb, bind_run peek_run]
    cases hc : s[st.i]? with
    | none =>
      constructor
      · intro hr
        cases hr
      · rintro (⟨hn, -⟩ | ⟨-, c, hs, -⟩)
        · cases hn
        · cases hs
    | some c =>
      constructor
      · intro hr
        cases hr
        exact Or.inr ⟨fun he => hb (hc.trans he), c, rfl, rfl, rfl⟩
      · rintro (⟨hn, -⟩ | ⟨-, c, hs, rfl, rfl⟩)
        · exact absurd (hc.trans hn) hb
        · cases hs
          rfl

theorem patternRune_ok {st' : PState} {cp : Nat} : patternRune s st = .ok (cp, st') ↔
    (∃ w, u8Next (s.drop st.i) = some (cp, w) ∧ st' = st.forward w) ∨
    (u8Next (s.drop st.i) = none ∧ ∃ b, s[st.i]? = some b ∧ cp = b.toNat ∧ st' = st.forward 1) := by
  have hget : s[st.i]? = (s.drop st.i)[0]? := by rw [List.getElem?_drop, Nat.add_zero]
  unfold patternRune
  rw [bind_run (get_run st), hget]
  cases s.drop st.i with
  | nil =>
    constructor
    · intro hr
      cases hr
    · rintro (⟨w, hw, -⟩ | ⟨-, b, hb, -⟩)
      · cases hw
      · cases hb
  | cons b t =>
    dsimp only
    cases hu : u8Next (b :: t) with
    | some r =>
      obtain ⟨cp', w⟩ := r
      constructor
      · intro hr
        cases hr
        exact Or.inl ⟨w, rfl, rfl⟩
      · rintro (⟨w', hw, rfl⟩ | ⟨hn, -⟩)
        · cases hw
          rfl
        · cases hn
    | none =>
      constructor
      · intro hr
        cases hr
        exact Or.inr ⟨rfl, b, rfl, rfl, rfl⟩
      · rintro (⟨w', hw, -⟩ | ⟨-, b', hb', rfl, rfl⟩)
        · cases hw
        · cases hb'
          rfl

/-- What ends a concatenation: the end of the pattern, a closing parenthesis or a bar. -/
def stopsConcat (s : Bytes) (st : PState) : Prop :=
  s[st.i]? = none ∨ s[st.i]? = some 0x29 ∨ s[st.i]? = some 0x7C

def altNode (f : NodeFlags) (x : RegexNode) (xs : List RegexNode) : RegexNode :=
  if xs.isEmpty then x else .alt f (x :: xs)

def concatNode (f : NodeFlags) (xs : List RegexNode) : RegexNode :=
  match mergeLiterals xs with
  | [] => .empty f
  | [y] => y
  | ys => .concat f ys

variable {icu : Icu} {fuel : Nat} {st' : PState}

theorem alt_ok {n : RegexNode} : alt icu s (fuel + 1) st = .ok (n, st') ↔ ∃ x st₁ xs,
    concat icu s fuel st = .ok (x, st₁) ∧ altRest icu s fuel st₁ = .ok (xs, st') ∧ n = altNode st'.flags x xs := by
  unfold Parser.alt
  rw [bind_runs_iff]
  refine exists_congr (fun x => exists_congr (fun st₁ => ?_))
  rw [bind_runs_iff]
  constructor
  · rintro ⟨h1, xs, st₂, h2, h3⟩
    unfold altNode
    split at h3
    · rename_i he
      cases h3
      exact ⟨xs, h1, h2, by rw [if_pos he]⟩
    · rename_i he
      cases h3
      exact ⟨xs, h1, h2, by rw [if_neg he]; rfl⟩
  · rintro ⟨xs, h1, h2, rfl⟩
    refine ⟨h1, xs, st', h2, ?_⟩
    unfold altNode
    split <;> rfl

theorem altRest_ok {xs : List RegexNode} : altRest icu s (fuel + 1) st = .ok (xs, st') ↔
    (s[st.i]? ≠ some 0x7C ∧ xs = [] ∧ st' = st) ∨ (s[st.i]? = some 0x7C ∧ ∃ x st₁ ys,
      concat icu s fuel (st.forward 1) = .ok (x, st₁) ∧ altRest icu s fuel st₁ = .ok (ys, st') ∧ xs = x :: ys) := by
  rw [Parser.altRest]
  by_cases h : s[st.i]? = some 0x7C
  · rw [eat_ite_at h, bind_runs_iff]
    constructor
    · rintro ⟨x, st₁, h1, h2⟩
      obtain ⟨ys, st₂, h3, h4⟩ := bind_runs h2
      cases h4
      exact Or.inr ⟨h, x, st₁, ys, h1, h3, rfl⟩
    · rintro (⟨hn, -⟩ | ⟨-, x, st₁, ys, h1, h2, rfl⟩)
      · exact absurd h hn
      · exact ⟨x, st₁, h1, (bind_run h2).trans rfl⟩
  · rw [eat_ite_not h]
    constructor
    · intro he
      cases he
      exact Or.inl ⟨h, rfl, rfl⟩
    · rintro (⟨-, rfl, rfl⟩ | ⟨hs, -⟩)
      · rfl
      · exact absurd hs h

theorem concat_ok {n : RegexNode} : concat icu s (fuel + 1) st = .ok (n, st') ↔
    ∃ xs, concatItems icu s fuel st = .ok (xs, st') ∧ n = concatNode st'.flags xs := by
  unfold Parser.concat concatNode
  rw [bind_runs_iff]
  refine exists_congr (fun xs => ?_)
  generalize mergeLiterals xs = ys
  constructor
  · rintro ⟨st₁, h1, h2⟩
    rcases ys with _ | ⟨y, _ | ⟨z, t⟩⟩
    all_goals
      cases h2
      exact ⟨h1, rfl⟩
  · rintro ⟨h1, rfl⟩
    refine ⟨st', h1, ?_⟩
    rcases ys with _ | ⟨y, _ | ⟨z, t⟩⟩
    all_goals rfl

theorem concatItems_ok {xs : List RegexNode} : concatItems icu s (fuel + 1) st = .ok (xs, st') ↔
    (stopsConcat s (skipped s st) ∧ xs = [] ∧ st' = skipped s st) ∨ (¬ stopsConcat s (skipped s st) ∧ ∃ x st₁ ys,
      «repeat» icu s fuel (skipped s st) = .ok (x, st₁) ∧ concatItems icu s fuel st₁ = .ok (ys, st') ∧ xs = x :: ys) := by
  rw [Parser.concatItems, bind_run skipIgnored_run, bind_run peek_run]
  generalize skipped s st = st₀
  have hseq : («repeat» icu s fuel >>= fun x => concatItems icu s fuel >>= fun xs => pure (x :: xs)) st₀ = .ok (xs, st') ↔
      ∃ x st₁ ys, «repeat» icu s fuel st₀ = .ok (x, st₁) ∧ concatItems icu s fuel st₁ = .ok (ys, st') ∧ xs = x :: ys := by
    rw [bind_runs_iff]
    refine exists_congr (fun x => exists_congr (fun st₁ => ?_))
    rw [bind_runs_iff]
    constructor
    · rintro ⟨h1, ys, st₂, h2, h3⟩
      cases h3
      exact ⟨ys, h1, h2, rfl⟩
    · rintro ⟨ys, h1, h2, rfl⟩
      exact ⟨h1, ys, st', h2, rfl⟩
  have hnil : (pure [] : P (List RegexNode)) st₀ = .ok (xs, st') ↔ xs = [] ∧ st' = st₀ := by
    constructor
    · intro h
      cases h
      exact ⟨rfl, rfl⟩
    · rintro ⟨rfl, rfl⟩
      rfl
  cases hb : s[st₀.i]? with
  | none =>
    have hstop : stopsConcat s st₀ := Or.inl hb
    dsimp only
    rw [hnil]
    simp only [hstop, true_and, not_true_eq_false, false_and, or_false]
  | some c =>
    dsimp only
    by_cases hc : c = 0x29 ∨ c = 0x7C
    · have hstop : stopsConcat s st₀ := Or.inr (by rw [hb]; exact hc.imp (congrArg some) (congrArg some))
      rw [if_pos hc, hnil]
      simp only [hstop, true_and, not_true_eq_false, false_and, or_false]
    · have hstop : ¬ stopsConcat s st₀ := by
        rintro (h | h | h)
        · rw [hb] at h
          cases h
        · exact hc (Or.inl (Option.some.inj (hb.symm.trans h)))
        · exact hc (Or.inr (Option.some.inj (hb.symm.trans h)))
      rw [if_neg hc, hseq]
      simp only [hstop, false_and, not_false_eq_true, true_and, false_or]

theorem repeat_ok {n : RegexNode} : «repeat» icu s (fuel + 1) st = .ok (n, st') ↔ ∃ a st₁ q st₂,
    atom icu s fuel st = .ok (a, st₁) ∧ quantifier s st₁ = .ok (q, st₂) ∧
      ((q = none ∧ n = a ∧ st' = st₂) ∨ ∃ mn mx b, q = some (mn, mx) ∧ eat s 0x3F st₂ = .ok (b, st') ∧
        n = .repeat_ st₂.flags mn mx (if st'.swapGreed then b else !b) a) := by
  unfold Parser.repeat
  rw [bind_runs_iff]
  refine exists_congr (fun a => exists_congr (fun st₁ => ?_))
  rw [bind_runs_iff]
  constructor
  · rintro ⟨h1, q, st₂, h2, h3⟩
    refine ⟨q, st₂, h1, h2, ?_⟩
    cases q with
    | none =>
      cases h3
      exact Or.inl ⟨rfl, rfl, rfl⟩
    | some m =>
      obtain ⟨mn, mx⟩ := m
      dsimp only at h3
      rw [bind_run (nodeFlags_run st₂)] at h3
      obtain ⟨b, st₃, h4, h5⟩ := bind_runs h3
      cases h5
      exact Or.inr ⟨mn, mx, b, rfl, h4, rfl⟩
  · rintro ⟨q, st₂, h1, h2, h3⟩
    refine ⟨h1, q, st₂, h2, ?_⟩
    rcases h3 with ⟨rfl, rfl, rfl⟩ | ⟨mn, mx, b, rfl, h4, rfl⟩
    · rfl
    · dsimp only
      rw [bind_run (nodeFlags_run st₂), bind_run h4]
      rfl

end Parser
end Pergrep
