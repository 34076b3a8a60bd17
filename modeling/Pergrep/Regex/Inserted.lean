import Pergrep.Regex.TokensSpec
/-!
# Inserted — reading a pattern with something put into it

`Inserted s s' k d`: `s'` is `s` with `d` bytes put in at `k`, the first of them blank.  A reading action that stays in
front of the place does the same on both (`Carries.before`), one that begins behind it does the same `d` bytes further
(`Carries.after`), and none goes back (`Carries.mono`).
-/
namespace Pergrep
namespace Parser

def blankByte (b : UInt8) : Prop := isSpaceByte b = true ∨ b = 0x23

instance (b : UInt8) : Decidable (blankByte b) := inferInstanceAs (Decidable (_ ∨ _))

theorem blankByte_not_trail {b : UInt8} (hb : blankByte b) : isTrail b = false := by
  have hlt : b < 0x80 := by
    rcases hb with hb | rfl
    · unfold isSpaceByte at hb
      rw [Bool.or_eq_true, beq_iff_eq, Bool.and_eq_true, decide_eq_true_eq, decide_eq_true_eq] at hb
      rcases hb with rfl | ⟨-, hle⟩
      · decide
      · exact UInt8.lt_of_le_of_lt hle (by decide)
    · decide
  unfold isTrail
  rw [Bool.and_eq_false_iff]
  left
  rw [decide_eq_false_iff_not]
  exact UInt8.not_le.2 hlt

structure Inserted (s s' : Bytes) (k d : Nat) : Prop where
  lt : k < s.length
  same : ∀ i < k, s'[i]? = s[i]?
  moved : ∀ i, k ≤ i → s'[i + d]? = s[i]?
  blank : ∃ b, s'[k]? = some b ∧ blankByte b

theorem Inserted.drop {s s' : Bytes} {k d i : Nat} (h : Inserted s s' k d) (hi : k ≤ i) : s'.drop (i + d) = s.drop i := by
  apply List.ext_getElem?
  intro j
  rw [List.getElem?_drop, List.getElem?_drop, Nat.add_right_comm, h.moved (i + j) (Nat.le_trans hi (Nat.le_add_right i j))]

theorem Inserted.ne {s s' : Bytes} {k d : Nat} (h : Inserted s s' k d) {c : UInt8} (hc : ¬ blankByte c) :
    s'[k]? ≠ some c := by
  obtain ⟨b, hb, hblank⟩ := h.blank
  rw [hb]
  rintro ⟨⟩
  exact hc hblank

theorem PState.forward_comm (st : PState) (j d : Nat) : (st.forward j).forward d = (st.forward d).forward j := by
  rw [forward_forward, forward_forward, Nat.add_comm]

section
variable {s s' : Bytes} {k d : Nat} {α β : Type}

def Forth (x : P α) : Prop := ∀ {st a st₁}, x st = .ok (a, st₁) → st.i ≤ st₁.i

def ReadsOn (x : P α) : Prop := ∀ {st a st₁}, x st = .ok (a, st₁) → st.i < st₁.i

/-- One action on the pattern and on what was made of it. -/
structure Carries (k d : Nat) (x x' : P α) : Prop where
  mono : Forth x
  before : ∀ {st a st₁}, x st = .ok (a, st₁) → st₁.i ≤ k → x' st = .ok (a, st₁)
  after : ∀ {st a st₁}, x st = .ok (a, st₁) → k ≤ st.i → x' (st.forward d) = .ok (a, st₁.forward d)

theorem Carries.pure (a : α) : Carries k d (pure a) (pure a) where
  mono h := by
    cases h
    exact Nat.le_refl _
  before h _ := h
  after h _ := by
    cases h
    rfl

theorem Carries.throw {e : String} {x' : P α} : Carries k d (throw e) x' where
  mono h := by cases h
  before h _ := by cases h
  after h _ := by cases h

theorem Carries.bind {x x' : P α} {f f' : α → P β} (hx : Carries k d x x') (hf : ∀ a, Carries k d (f a) (f' a)) :
    Carries k d (x >>= f) (x' >>= f') where
  mono h := by
    obtain ⟨a, st₁, h1, h2⟩ := bind_runs h
    exact Nat.le_trans (hx.mono h1) ((hf a).mono h2)
  before h hk := by
    obtain ⟨a, st₁, h1, h2⟩ := bind_runs h
    exact (bind_run (hx.before h1 (Nat.le_trans ((hf a).mono h2) hk))).trans ((hf a).before h2 hk)
  after h hk := by
    obtain ⟨a, st₁, h1, h2⟩ := bind_runs h
    exact (bind_run (hx.after h1 hk)).trans ((hf a).after h2 (Nat.le_trans hk (hx.mono h1)))

theorem Carries.ite {c : Prop} [Decidable c] {x x' y y' : P α} (hx : c → Carries k d x x') (hy : ¬ c → Carries k d y y') :
    Carries k d (if c then x else y) (if c then x' else y') := by
  split
  · exact hx ‹_›
  · exact hy ‹_›

theorem Carries.state {x : P α} (g : PState → α) (u : PState → PState) (hx : ∀ st, x st = .ok (g st, u st))
    (hu : ∀ st, (u st).i = st.i) (hg : ∀ st, g (st.forward d) = g st) (hc : ∀ st, u (st.forward d) = (u st).forward d) :
    Carries k d x x where
  mono h := by
    rw [hx] at h
    cases h
    exact Nat.le_of_eq (hu _).symm
  before h _ := h
  after h _ := by
    rw [hx] at h ⊢
    cases h
    rw [hg, hc]

theorem Carries.advance (n : Nat) : Carries k d (advance n) (advance n) where
  mono h := by
    cases h
    exact Nat.le_add_right _ _
  before h _ := h
  after h _ := by
    cases h
    exact congrArg (fun st => Except.ok ((), st)) (PState.forward_comm _ _ _)

theorem Carries.fail {m : String} {x' : P α} : Carries k d (fail m) x' where
  mono h := by cases h
  before h _ := by cases h
  after h _ := by cases h

theorem Carries.nodeFlags : Carries k d nodeFlags nodeFlags :=
  .state PState.flags id (fun _ => rfl) (fun _ => rfl) (fun _ => rfl) (fun _ => rfl)

theorem Carries.node (f : NodeFlags → α) : Carries k d (do return f (← Parser.nodeFlags)) (do return f (← Parser.nodeFlags)) :=
  Carries.nodeFlags.bind (fun _ => Carries.pure _)

variable (h : Inserted s s' k d)
include h

theorem Carries.eat {c : UInt8} (hc : ¬ blankByte c) : Carries k d (eat s c) (eat s' c) where
  mono he := by
    rcases eat_ok.1 he with ⟨-, -, rfl⟩ | ⟨-, -, rfl⟩
    · exact Nat.le_succ _
    · exact Nat.le_refl _
  before {st a st₁} he hk := by
    rcases eat_ok.1 he with ⟨h1, rfl, rfl⟩ | ⟨h1, rfl, rfl⟩
    · exact eat_at ((h.same _ hk).trans h1)
    · refine eat_not ?_
      rcases Nat.lt_or_eq_of_le hk with hlt | heq
      · rw [h.same _ hlt]
        exact h1
      · rw [heq]
        exact h.ne hc
  after {st a st₁} he hk := by
    rcases eat_ok.1 he with ⟨h1, rfl, rfl⟩ | ⟨h1, rfl, rfl⟩
    · have hbyte : s'[(st.forward d).i]? = some c := (h.moved _ hk).trans h1
      rw [eat_at hbyte, PState.forward_comm]
    · have hbyte : s'[(st₁.forward d).i]? ≠ some c := by
        rw [PState.forward_i, h.moved _ hk]
        exact h1
      exact eat_not hbyte

theorem Carries.getByte : Carries k d (getByte s) (getByte s') := by
  refine ⟨fun hg => ?_, fun hg hk => ?_, fun hg hk => ?_⟩
  · rw [(getByte_ok.1 hg).2]
    exact Nat.le_succ _
  · obtain ⟨hb, rfl⟩ := getByte_ok.1 hg
    exact getByte_ok.2 ⟨(h.same _ hk).trans hb, rfl⟩
  · obtain ⟨hb, rfl⟩ := getByte_ok.1 hg
    exact getByte_ok.2 ⟨(h.moved _ hk).trans hb, PState.forward_comm _ _ _⟩

omit h

/-! ## Loops over what is left of the pattern -/

/-- An action on a pattern and on what was made of it, as far as the first ends in front of the place. -/
structure CarriesLt (k d : Nat) (x x' : P α) : Prop where
  mono : Forth x
  before : ∀ {st a st₁}, x st = .ok (a, st₁) → st₁.i < k → x' st = .ok (a, st₁)
  after : ∀ {st a st₁}, x st = .ok (a, st₁) → k ≤ st.i → x' (st.forward d) = .ok (a, st₁.forward d)

theorem Carries.weaken {x x' : P α} (h : Carries k d x x') : CarriesLt k d x x' :=
  ⟨h.mono, fun hr hk => h.before hr (Nat.le_of_lt hk), h.after⟩

theorem CarriesLt.bind {x x' : P α} {f f' : α → P β} (hx : CarriesLt k d x x') (hf : ∀ a, CarriesLt k d (f a) (f' a)) :
    CarriesLt k d (x >>= f) (x' >>= f') where
  mono h := by
    obtain ⟨a, st₁, h1, h2⟩ := bind_runs h
    exact Nat.le_trans (hx.mono h1) ((hf a).mono h2)
  before h hk := by
    obtain ⟨a, st₁, h1, h2⟩ := bind_runs h
    exact (bind_run (hx.before h1 (Nat.lt_of_le_of_lt ((hf a).mono h2) hk))).trans ((hf a).before h2 hk)
  after h hk := by
    obtain ⟨a, st₁, h1, h2⟩ := bind_runs h
    exact (bind_run (hx.after h1 hk)).trans ((hf a).after h2 (Nat.le_trans hk (hx.mono h1)))

/-- A loop over the bytes ahead reads what it steps over and the byte behind that. -/
def LoopsOn (d : Nat) (F : Bytes → P α) (t : Bytes) : Prop := ∀ st a st₁, F t st = .ok (a, st₁) → st.i ≤ st₁.i ∧
  (∀ {t' : Bytes} {m : Nat}, st₁.i < st.i + m → m ≤ t.length → t'.take m = t.take m → F t' st = .ok (a, st₁)) ∧
    F t (st.forward d) = .ok (a, st₁.forward d)

def Loops (d : Nat) (F : Bytes → P α) : Prop := ∀ t, LoopsOn d F t

theorem Inserted.take (h : Inserted s s' k d) {i : Nat} (hi : i ≤ k) : (s'.drop i).take (k - i) = (s.drop i).take (k - i) := by
  apply List.ext_getElem?
  intro j
  rw [List.getElem?_take, List.getElem?_take]
  split
  · rw [List.getElem?_drop, List.getElem?_drop, h.same (i + j) (by omega)]
  · rfl

theorem Loops.carriesLt {F : Bytes → P α} (hF : Loops d F) (h : Inserted s s' k d) :
    CarriesLt k d (do F (s.drop (← get).i)) (do F (s'.drop (← get).i)) where
  mono hr := (hF _ _ _ _ hr).1
  before {st a st₁} hr hk := by
    obtain ⟨hi, hahead, -⟩ := hF _ _ _ _ hr
    have hlt := h.lt
    refine hahead (m := k - st.i) (by omega) ?_ (h.take (by omega))
    rw [List.length_drop]
    omega
  after {st a st₁} hr hk := by
    change F (s'.drop (st.i + d)) (st.forward d) = _
    rw [h.drop hk]
    exact (hF _ _ _ _ hr).2.2

theorem take_cons_of {c : UInt8} {t t' : Bytes} {m : Nat} (hm : m ≤ (c :: t).length) (h0 : 0 < m)
    (ht : t'.take m = (c :: t).take m) : ∃ t'', t' = c :: t'' ∧ m - 1 ≤ t.length ∧ t''.take (m - 1) = t.take (m - 1) := by
  obtain ⟨m, rfl⟩ := Nat.exists_eq_add_of_lt h0
  rw [Nat.zero_add] at *
  cases t' with
  | nil =>
    rw [List.take_nil, List.take_succ_cons] at ht
    cases ht
  | cons b t'' =>
    rw [List.take_succ_cons, List.take_succ_cons] at ht
    obtain ⟨rfl, htl⟩ := List.cons.inj ht
    exact ⟨t'', rfl, Nat.le_of_succ_le_succ hm, htl⟩

theorem LoopsOn.nil {F : Bytes → P α} {a : α} (h : F [] = Pure.pure a) : LoopsOn d F [] := by
  intro st b st₁ hr
  rw [h] at hr ⊢
  cases hr
  refine ⟨Nat.le_refl _, fun hlt hm _ => ?_, rfl⟩
  rw [Nat.le_zero.1 hm] at hlt
  exact absurd hlt (Nat.lt_irrefl _)

theorem LoopsOn.fail {t : Bytes} {m : String} : LoopsOn d (fun _ => fail m : Bytes → P α) t := fun _ _ _ hr => by cases hr

theorem LoopsOn.stop {F : Bytes → P α} {a : α} {c : UInt8} {t : Bytes} (h : ∀ t', F (c :: t') = Pure.pure a) :
    LoopsOn d F (c :: t) := by
  intro st b st₁ hr
  rw [h] at hr ⊢
  cases hr
  refine ⟨Nat.le_refl _, fun hlt hm ht => ?_, rfl⟩
  obtain ⟨t'', rfl, -⟩ := take_cons_of hm (by omega) ht
  rw [h]
  rfl

theorem LoopsOn.step {F G : Bytes → P α} {c : UInt8} {t : Bytes} (h : ∀ t', F (c :: t') = advance 1 >>= fun _ => G t')
    (hG : LoopsOn d G t) : LoopsOn d F (c :: t) := by
  intro st b st₁ hr
  rw [h, bind_run (advance_run 1 st)] at hr
  obtain ⟨h1, h2, h3⟩ := hG _ _ _ hr
  rw [PState.forward_i] at h1
  refine ⟨by omega, fun hlt hm ht => ?_, ?_⟩
  · obtain ⟨t'', rfl, hm', ht'⟩ := take_cons_of hm (by omega) ht
    rw [h, bind_run (advance_run 1 st)]
    exact h2 (by rw [PState.forward_i]; omega) hm' ht'
  · rw [h, bind_run (advance_run 1 _), ← PState.forward_comm]
    exact h3

theorem LoopsOn.map {G : Bytes → P β} {t : Bytes} (f : β → α) (hG : LoopsOn d G t) :
    LoopsOn d (fun t => G t >>= fun r => Pure.pure (f r)) t := by
  intro st b st₁ hr
  obtain ⟨r, st₂, h1, h2⟩ := bind_runs hr
  cases h2
  obtain ⟨hi, hahead, hafter⟩ := hG _ _ _ h1
  refine ⟨hi, fun hlt hm ht => ?_, ?_⟩
  · exact (bind_run (hahead hlt hm ht)).trans rfl
  · exact (bind_run hafter).trans rfl

theorem LoopsOn.set {G : Bytes → P α} {t : Bytes} {x : P Unit} {u : PState → PState} (hx : ∀ st, x st = .ok ((), u st))
    (hi : ∀ st, (u st).i = st.i) (hu : ∀ st, u (st.forward d) = (u st).forward d) (hG : LoopsOn d G t) :
    LoopsOn d (fun t => x >>= fun _ => G t) t := by
  intro st b st₁ hr
  dsimp only at hr ⊢
  rw [bind_run (hx st)] at hr
  obtain ⟨h1, h2, h3⟩ := hG _ _ _ hr
  rw [hi] at h1
  refine ⟨h1, fun hlt hm ht => ?_, ?_⟩
  · rw [bind_run (hx st)]
    exact h2 (by rw [hi]; exact hlt) hm ht
  · rw [bind_run (hx _), hu]
    exact h3

theorem numberLoop_loops (d : Nat) : ∀ t x, LoopsOn d (fun t => numberLoop t x) t
  | [], x => .nil rfl
  | b :: t, x => by
    by_cases hd : isDigitByte b = true
    · refine .step (G := fun t => if (sizeMax - (b.toNat - 0x30)) / 10 < x then fail "repetition overflow"
        else numberLoop t (x * 10 + (b.toNat - 0x30))) (fun t' => ?_) ?_
      · rw [numberLoop, if_pos hd]
      · split
        · exact .fail
        · exact numberLoop_loops d t _
    · exact .stop (fun t' => by rw [numberLoop, if_neg hd])

theorem nameLoop_loops (d : Nat) : Loops d nameLoop
  | [] => .nil rfl
  | c :: t => by
    by_cases hend : c = 0x3E
    · exact .stop (fun t' => by rw [nameLoop, if_pos hend])
    · refine .step (G := fun t => if (isAlnumByte c || c == 0x5F) = true then nameLoop t >>= fun r => pure (c :: r)
        else fail "bad capture name") (fun t' => ?_) ?_
      · rw [nameLoop, if_neg hend]
      · split
        · exact (nameLoop_loops d t).map _
        · exact .fail

theorem flagsLoop_loops (d : Nat) : ∀ t seen unset, LoopsOn d (fun t => flagsLoop t seen unset) t
  | [], seen, unset => .nil rfl
  | f :: t, seen, unset => by
    by_cases hdash : f = 0x2D
    · exact .step (fun t' => by rw [flagsLoop, if_pos hdash]) (flagsLoop_loops d t seen true)
    by_cases hend : f = 0x3A ∨ f = 0x29
    · exact .stop (fun t' => by rw [flagsLoop, if_neg hdash, if_pos hend])
    by_cases hflag : [0x69, 0x6D, 0x73, 0x55, 0x78, 0x75].contains f = true
    · refine .step (G := fun t => setFlag f (!unset) >>= fun _ => flagsLoop t true unset) (fun t' => ?_) ?_
      · rw [flagsLoop, if_neg hdash, if_neg hend, if_pos hflag]
      · refine .set (fun _ => rfl) (fun st => ?_) (fun st => ?_) (flagsLoop_loops d t true unset)
        all_goals
          dsimp only
          split_ifs <;> rfl
    · intro st a st₁ hr
      dsimp only at hr
      rw [flagsLoop, if_neg hdash, if_neg hend, if_neg hflag] at hr
      cases hr

/-! ## What reads on -/

theorem ReadsOn.forth {x : P α} (h : ReadsOn x) : Forth x := fun hr => Nat.le_of_lt (h hr)

theorem ReadsOn.bind {x : P α} {f : α → P β} (hx : ReadsOn x) (hf : ∀ a, Forth (f a)) : ReadsOn (x >>= f) := by
  intro st b st₂ h
  obtain ⟨a, st₁, h1, h2⟩ := bind_runs h
  exact Nat.lt_of_lt_of_le (hx h1) (hf a h2)

theorem Forth.then {x : P α} {f : α → P β} (hx : Forth x) (hf : ∀ a, ReadsOn (f a)) : ReadsOn (x >>= f) := by
  intro st b st₂ h
  obtain ⟨a, st₁, h1, h2⟩ := bind_runs h
  exact Nat.lt_of_le_of_lt (hx h1) (hf a h2)

theorem CarriesLt.then {x x' : P α} {f f' : α → P β} (hx : CarriesLt k d x x')
    (hf : ∀ a, Carries k d (f a) (f' a) ∧ ReadsOn (f a)) : Carries k d (x >>= f) (x' >>= f') ∧ ReadsOn (x >>= f) := by
  refine ⟨⟨fun h => ?_, fun h hk => ?_, fun h hk => ?_⟩, Forth.then hx.mono (fun a => (hf a).2)⟩
  · obtain ⟨a, st₁, h1, h2⟩ := bind_runs h
    exact Nat.le_trans (hx.mono h1) ((hf a).1.mono h2)
  · obtain ⟨a, st₁, h1, h2⟩ := bind_runs h
    exact (bind_run (hx.before h1 (Nat.lt_of_lt_of_le ((hf a).2 h2) hk))).trans ((hf a).1.before h2 hk)
  · obtain ⟨a, st₁, h1, h2⟩ := bind_runs h
    exact (bind_run (hx.after h1 hk)).trans ((hf a).1.after h2 (Nat.le_trans hk (hx.mono h1)))

theorem ReadsOn.fail {m : String} : ReadsOn (fail m : P α) := fun h => by cases h

theorem ReadsOn.eat {c : UInt8} {f : Bool → P α} (ht : Forth (f true)) (hf : ReadsOn (f false)) :
    ReadsOn (Parser.eat s c >>= f) := by
  intro st a st₁ h
  by_cases hc : s[st.i]? = some c
  · rw [bind_run (eat_at hc)] at h
    exact ht h
  · rw [bind_run (eat_not hc)] at h
    exact hf h

end

end Parser
end Pergrep
