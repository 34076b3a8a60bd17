import Pergrep.Regex.Inserted
/-!
# InsertedReaders — what reads a token of the parser does so in front of and behind the place

Each of the parser's readers, up to what an atom opens with (`piece`) and the quantifier after it, carries over to a
pattern with something blank put into it.
-/
namespace Pergrep
namespace Parser

/-! ## The readers -/

def bounds (s : Bytes) : P (Option (Nat × Nat)) := do
  let mn ← number s
  let mx ←
    (do if ← eat s 0x2C then
          match ← peek s with
          | some c => if c != 0x7D then number s else pure sizeMax
          | none => pure sizeMax
        else pure mn)
  if !(← eat s 0x7D) then fail "unclosed repetition"
  if mx ≠ sizeMax ∧ mx < mn then fail "invalid repetition range"
  return some (mn, mx)

section
variable {icu : Icu} {s s' : Bytes} {k d : Nat} (h : Inserted s s' k d)
include h

theorem Carries.eatIte {α : Type} {c : UInt8} {x x' y y' : P α} (hc : ¬ blankByte c) (hx : Carries k d x x')
    (hy : Carries k d y y') : Carries k d (do if ← Parser.eat s c then x else y) (do if ← Parser.eat s' c then x' else y') :=
  (Carries.eat h hc).bind (fun _ => Carries.ite (fun _ => hx) (fun _ => hy))

theorem captureName_carries : Carries k d (captureName s) (captureName s') where
  mono hr := by
    obtain ⟨st₁, h1, -, -, rfl⟩ := captureName_ok.1 hr
    exact Nat.le_succ_of_le (nameLoop_loops d _ _ _ _ h1).1
  before hr hk := by
    obtain ⟨st₁, h1, hn, hc, rfl⟩ := captureName_ok.1 hr
    exact captureName_ok.2 ⟨st₁, (Loops.carriesLt (nameLoop_loops d) h).before h1 hk, hn, (h.same _ hk).trans hc, rfl⟩
  after hr hk := by
    obtain ⟨st₁, h1, hn, hc, rfl⟩ := captureName_ok.1 hr
    exact captureName_ok.2 ⟨st₁.forward d, (Loops.carriesLt (nameLoop_loops d) h).after h1 hk, hn,
      (h.moved _ (Nat.le_trans hk (nameLoop_loops d _ _ _ _ h1).1)).trans hc, PState.forward_comm _ _ _⟩

theorem hexEscape_carries : Carries k d (hexEscape s) (hexEscape s') where
  mono hr := by
    obtain ⟨u, l, x, y, -, -, -, -, -, rfl⟩ := hexEscape_ok.1 hr
    exact Nat.le_add_right _ _
  before hr hk := by
    obtain ⟨u, l, x, y, hu, hl, hx, hy, hb, rfl⟩ := hexEscape_ok.1 hr
    rw [PState.forward_i] at hk
    exact hexEscape_ok.2 ⟨u, l, x, y, (h.same _ (by omega)).trans hu, (h.same _ (by omega)).trans hl, hx, hy, hb, rfl⟩
  after {st a st₁} hr hk := by
    obtain ⟨u, l, x, y, hu, hl, hx, hy, hb, rfl⟩ := hexEscape_ok.1 hr
    refine hexEscape_ok.2 ⟨u, l, x, y, (h.moved _ hk).trans hu, ?_, hx, hy, hb, PState.forward_comm _ _ _⟩
    rw [PState.forward_i, Nat.add_right_comm, h.moved _ (Nat.le_succ_of_le hk)]
    exact hl

theorem Inserted.u8Next_none {i : Nat} (hi : i < k) (hn : u8Next (s.drop i) = none) : u8Next (s'.drop i) = none := by
  cases hu : u8Next (s'.drop i) with
  | none => rfl
  | some r =>
    exfalso
    obtain ⟨cp, w⟩ := r
    obtain ⟨l, t, hl, hw, htrail, hany⟩ := u8Next_split hu
    rcases Nat.lt_or_ge (k - i) l.length with hlt | hle
    · -- the blank byte would be one of its trail bytes
      obtain ⟨b, hb, hblank⟩ := h.blank
      have hmem : b ∈ l.tail := by
        refine List.mem_of_getElem? (i := k - i - 1) ?_
        rw [List.getElem?_tail, Nat.sub_add_cancel (by omega), ← @List.getElem?_append_left _ l t _ hlt, ← hl,
          List.getElem?_drop, Nat.add_sub_cancel' (Nat.le_of_lt hi)]
        exact hb
      exact absurd (htrail b hmem) (by rw [blankByte_not_trail hblank]; exact Bool.false_ne_true)
    · have htake : (s.drop i).take l.length = l := by
        have ht := congrArg (List.take l.length) (h.take (Nat.le_of_lt hi))
        rw [List.take_take, List.take_take, Nat.min_eq_left hle, hl, List.take_left] at ht
        exact ht.symm
      rw [← List.take_append_drop l.length (s.drop i), htake, hany] at hn
      cases hn

theorem patternRune_carries : Carries k d (patternRune s) (patternRune s') where
  mono hr := by
    rcases patternRune_ok.1 hr with ⟨w, -, rfl⟩ | ⟨-, b, -, -, rfl⟩
    · exact Nat.le_add_right _ _
    · exact Nat.le_add_right _ _
  before {st a st₁} hr hk := by
    rcases patternRune_ok.1 hr with ⟨w, hw, rfl⟩ | ⟨hn, b, hb, rfl, rfl⟩
    · rw [PState.forward_i] at hk
      obtain ⟨l, t, hl, hlen, -, hany⟩ := u8Next_split hw
      refine patternRune_ok.2 (Or.inl ⟨w, ?_, rfl⟩)
      have htake : (s'.drop st.i).take w = l := by
        have ht := congrArg (List.take w) (h.take (Nat.le_trans (Nat.le_add_right _ w) hk))
        rw [List.take_take, List.take_take, Nat.min_eq_left (by omega), hl, ← hlen, List.take_left, hlen] at ht
        exact ht
      rw [← List.take_append_drop w (s'.drop st.i), htake]
      exact hany _
    · exact patternRune_ok.2 (Or.inr ⟨h.u8Next_none hk hn, b, (h.same _ hk).trans hb, rfl, rfl⟩)
  after {st a st₁} hr hk := by
    have hdrop : s'.drop (st.forward d).i = s.drop st.i := h.drop hk
    rcases patternRune_ok.1 hr with ⟨w, hw, rfl⟩ | ⟨hn, b, hb, rfl, rfl⟩
    · exact patternRune_ok.2 (Or.inl ⟨w, by rw [hdrop]; exact hw, PState.forward_comm _ _ _⟩)
    · exact patternRune_ok.2 (Or.inr ⟨by rw [hdrop]; exact hn, b, (h.moved _ hk).trans hb, rfl, PState.forward_comm _ _ _⟩)

omit h in
theorem takeWhile_ahead {p : UInt8 → Bool} {t : Bytes} : ∀ {t' : Bytes} {m : Nat}, (t.takeWhile p).length < m →
    m ≤ t.length → t'.take m = t.take m → t'.takeWhile p = t.takeWhile p := by
  induction t with
  | nil => exact fun h1 h2 _ => absurd (Nat.lt_of_lt_of_le h1 h2) (Nat.lt_irrefl _)
  | cons c t ih =>
    intro t' m h1 h2 h3
    obtain ⟨t'', rfl, h4, h5⟩ := take_cons_of h2 (Nat.zero_lt_of_lt h1) h3
    by_cases hc : p c = true
    · rw [List.takeWhile_cons_of_pos hc] at h1
      rw [List.length_cons] at h1
      rw [List.takeWhile_cons_of_pos hc, List.takeWhile_cons_of_pos hc, ih (by omega) h4 h5]
    · rw [List.takeWhile_cons_of_neg hc, List.takeWhile_cons_of_neg hc]

theorem propertyName_carries : Carries k d (propertyName s) (propertyName s') where
  mono hr := by
    rcases propertyName_ok.1 hr with ⟨-, -, -, rfl⟩ | ⟨-, c, -, -, rfl⟩
    · exact Nat.le_add_right _ _
    · exact Nat.le_add_right _ _
  before {st a st₁} hr hk := by
    rcases propertyName_ok.1 hr with ⟨hb, hname, hc, rfl⟩ | ⟨hb, c, hc, hname, rfl⟩
    · rw [PState.forward_i] at hk
      have hlt := h.lt
      have hahead : (s'.drop (st.i + 1)).takeWhile (· != 0x7D) = (s.drop (st.i + 1)).takeWhile (· != 0x7D) :=
        takeWhile_ahead (m := k - (st.i + 1)) (by rw [← hname]; omega) (by rw [List.length_drop]; omega) (h.take (by omega))
      exact propertyName_ok.2 (Or.inl ⟨(h.same _ (by omega)).trans hb, hname.trans hahead.symm,
        (h.same _ (by omega)).trans hc, rfl⟩)
    · exact propertyName_ok.2 (Or.inr ⟨by rw [h.same _ hk]; exact hb, c, (h.same _ hk).trans hc, hname, rfl⟩)
  after {st a st₁} hr hk := by
    rcases propertyName_ok.1 hr with ⟨hb, hname, hc, rfl⟩ | ⟨hb, c, hc, hname, rfl⟩
    · refine propertyName_ok.2 (Or.inl ⟨(h.moved _ hk).trans hb, ?_, ?_, PState.forward_comm _ _ _⟩)
      · rw [PState.forward_i, Nat.add_right_comm, h.drop (Nat.le_succ_of_le hk)]
        exact hname
      · rw [PState.forward_i, show st.i + d + 1 + a.length = st.i + 1 + a.length + d by omega, h.moved _ (by omega)]
        exact hc
    · exact propertyName_ok.2 (Or.inr ⟨by rw [PState.forward_i, h.moved _ hk]; exact hb, c, (h.moved _ hk).trans hc, hname,
        PState.forward_comm _ _ _⟩)

theorem property_carries (negated : Bool) : Carries k d (property icu s negated) (property icu s' negated) := by
  unfold property
  refine (propertyName_carries h).bind (fun name => ?_)
  split
  · exact Carries.pure _
  · exact Carries.throw

omit h in
theorem perlClass_carries (c : UInt8) : Carries k d (perlClass c) (perlClass c) where
  mono hr := by
    cases hr
    exact Nat.le_refl _
  before hr _ := hr
  after hr _ := by
    cases hr
    rfl

theorem number_carriesLt : CarriesLt k d (number s) (number s') where
  mono hr := (numberLoop_loops d _ _ _ _ _ (number_ok.1 hr).2).1
  before hr hk := by
    obtain ⟨⟨b, hb, hd⟩, h1⟩ := number_ok.1 hr
    have hloop := Loops.carriesLt (fun t => numberLoop_loops d t 0) h
    exact number_ok.2 ⟨⟨b, (h.same _ (Nat.lt_of_le_of_lt (hloop.mono h1) hk)).trans hb, hd⟩, hloop.before h1 hk⟩
  after hr hk := by
    obtain ⟨⟨b, hb, hd⟩, h1⟩ := number_ok.1 hr
    exact number_ok.2 ⟨⟨b, (h.moved _ hk).trans hb, hd⟩, (Loops.carriesLt (fun t => numberLoop_loops d t 0) h).after h1 hk⟩

theorem peek_carriesLt : CarriesLt k d (peek s) (peek s') where
  mono hr := by
    cases hr
    exact Nat.le_refl _
  before hr hk := by
    cases hr
    exact congrArg (fun b => Except.ok (b, _)) (h.same _ hk)
  after hr hk := by
    cases hr
    exact congrArg (fun b => Except.ok (b, _)) (h.moved _ hk)

theorem bounds_carries : Carries k d (bounds s) (bounds s') ∧ ReadsOn (bounds s) := by
  unfold bounds
  -- the numbers end in front of the brace that closes them
  refine (number_carriesLt h).then (fun mn => CarriesLt.then ?_ (fun mx => ⟨?_, ?_⟩))
  · refine (Carries.eat h (by decide)).weaken.bind (fun comma => ?_)
    split
    · refine (peek_carriesLt h).bind (fun c => ?_)
      split
      · split
        · exact number_carriesLt h
        · exact (Carries.pure _).weaken
      · exact (Carries.pure _).weaken
    · exact (Carries.pure _).weaken
  · refine (Carries.eat h (by decide)).bind (fun close => Carries.ite (fun _ => Carries.fail) (fun _ => ?_))
    exact Carries.ite (fun _ => Carries.fail) (fun _ => Carries.pure _)
  · refine ReadsOn.eat (fun hr => ?_) (fun hr => ?_)
    · change (if mx ≠ sizeMax ∧ mx < mn then _ else pure (some (mn, mx)) : P (Option (Nat × Nat))) _ = _ at hr
      split at hr
      · cases hr
      · cases hr
        exact Nat.le_refl _
    · cases hr

theorem quantifier_carries : Carries k d (quantifier s) (quantifier s') := by
  refine Carries.eatIte h (by decide) (Carries.pure _) (Carries.eatIte h (by decide) (Carries.pure _)
    (Carries.eatIte h (by decide) (Carries.pure _) (Carries.eatIte h (by decide) ?_ (Carries.pure _))))
  exact (bounds_carries h).1

theorem quantifier_lt {st st' : PState} {m : Nat × Nat} (hq : quantifier s st = .ok (some m, st')) : st.i < st'.i := by
  obtain ⟨c, hc, ho⟩ := quantifier_ok_some hq
  have hne : ∀ d : UInt8, d ≠ c → s[st.i]? ≠ some d := fun d hd he => hd (Option.some.inj (he.symm.trans hc))
  unfold quantifier at hq
  rcases opensQuantifier_cases ho with rfl | rfl | rfl | rfl
  · rw [eat_ite_at hc] at hq
    cases hq
    exact Nat.lt_succ_self _
  · rw [eat_ite_not (hne 0x2A (by decide)), eat_ite_at hc] at hq
    cases hq
    exact Nat.lt_succ_self _
  · rw [eat_ite_not (hne 0x2A (by decide)), eat_ite_not (hne 0x2B (by decide)), eat_ite_at hc] at hq
    cases hq
    exact Nat.lt_succ_self _
  · rw [eat_ite_not (hne 0x2A (by decide)), eat_ite_not (hne 0x2B (by decide)), eat_ite_not (hne 0x3F (by decide)),
      eat_ite_at hc] at hq
    have hlt := (bounds_carries h).2 hq
    rw [PState.forward_i] at hlt
    omega

theorem escaped_carries : Carries k d (escaped icu s) (escaped icu s') := by
  unfold escaped
  refine (Carries.getByte h).bind (fun c => ?_)
  refine Carries.ite (fun _ => ?_) (fun _ => ?_)
  · exact Carries.bind (Carries.state _ _ (fun _ => rfl) (fun _ => rfl) (fun _ => rfl) (fun _ => rfl)) (fun _ => Carries.node _)
  refine Carries.ite (fun _ => Carries.node _) (fun _ => ?_)
  refine Carries.ite (fun _ => Carries.node _) (fun _ => ?_)
  refine Carries.ite (fun _ => Carries.node _) (fun _ => ?_)
  refine Carries.ite (fun _ => Carries.node _) (fun _ => ?_)
  refine Carries.ite (fun _ => Carries.node _) (fun _ => ?_)
  refine Carries.ite (fun _ => (property_carries h _).bind (fun _ => Carries.node _)) (fun _ => ?_)
  refine Carries.ite (fun _ => (perlClass_carries c).bind (fun _ => Carries.node _)) (fun _ => ?_)
  split
  · exact Carries.node _
  · refine Carries.ite (fun _ => Carries.node _) (fun _ => ?_)
    refine Carries.ite (fun _ => (hexEscape_carries h).bind (fun _ => Carries.node _)) (fun _ => ?_)
    exact Carries.ite (fun _ => Carries.fail) (fun _ => Carries.node _)

omit h in
theorem patternRune_readsOn : ReadsOn (patternRune s) := by
  intro st a st₁ hr
  rcases patternRune_ok.1 hr with ⟨w, hw, rfl⟩ | ⟨-, b, -, -, rfl⟩
  · exact Nat.lt_add_of_pos_right (u8Next_width hw).1
  · exact Nat.lt_succ_self _

theorem Carries.eatOn {α : Type} {c : UInt8} {f f' : Bool → P α} (hc : ¬ blankByte c) (ht : Carries k d (f true) (f' true))
    (hf : Carries k d (f false) (f' false) ∧ ReadsOn (f false)) :
    Carries k d (Parser.eat s c >>= f) (Parser.eat s' c >>= f') ∧ ReadsOn (Parser.eat s c >>= f) := by
  refine ⟨(Carries.eat h hc).bind (fun b => ?_), ReadsOn.eat ht.mono hf.2⟩
  cases b with
  | true => exact ht
  | false => exact hf.1

theorem classRune_carries : Carries k d (classRune s) (classRune s') ∧ ReadsOn (classRune s) := by
  unfold classRune
  refine Carries.eatOn h (by decide) ((Carries.getByte h).bind (fun e => ?_)) ⟨patternRune_carries h, patternRune_readsOn⟩
  split
  · exact Carries.pure _
  · refine Carries.ite (fun _ => (hexEscape_carries h).bind (fun _ => Carries.pure _)) (fun _ => ?_)
    exact Carries.ite (fun _ => Carries.fail) (fun _ => Carries.pure _)

end

/-! ## Bracket expressions -/

/-- What one round of `classLoop` reads when it is not the closing bracket: `c` and `next` are the bytes ahead. -/
def classItem (icu : Icu) (s : Bytes) (c : UInt8) (next : Option UInt8) (prev : Option Nat) (spec : CharClassSpec) :
    P (Option Nat × CharClassSpec) := do
  let e := if c = 0x5C then next else none
  if e = some 0x70 ∨ e = some 0x50 then
    advance 2
    let p ← property icu s (e == some 0x50)
    return (none, { spec with properties := spec.properties ++ [p] })
  else if e.any isPerlClass then
    advance 2
    let p ← perlClass (e.getD 0)
    return (none, { spec with properties := spec.properties ++ [p] })
  else
    match prev with
    | some lo =>
      if c = 0x2D ∧ next.isSome ∧ next ≠ some 0x5D then
        advance 1
        let hi ← classRune s
        if hi < lo then fail "descending class range"
        else return (none, { spec with ranges := spec.ranges.dropLast ++ [(lo, hi)] })
      else
        let cp ← classRune s
        return (some cp, { spec with ranges := spec.ranges ++ [(cp, cp)] })
    | none =>
      let cp ← classRune s
      return (some cp, { spec with ranges := spec.ranges ++ [(cp, cp)] })

section
variable {icu : Icu} {s s' : Bytes} {k d : Nat}

theorem classLoop_none {fuel : Nat} {first : Bool} {prev : Option Nat} {spec : CharClassSpec} {st : PState}
    (hc : s[st.i]? = none) : classLoop icu s fuel first prev spec st = fail "unclosed character class" st := by
  cases fuel with
  | zero => rfl
  | succ fuel =>
    rw [classLoop, bind_run (get_run st)]
    dsimp only
    rw [hc]

theorem classLoop_end {fuel : Nat} {first : Bool} {prev : Option Nat} {spec : CharClassSpec} {st : PState}
    (hc : s[st.i]? = some 0x5D) (hfirst : first = false) :
    classLoop icu s (fuel + 1) first prev spec st = .ok (spec, st.forward 1) := by
  rw [classLoop, bind_run (get_run st)]
  dsimp only
  rw [hc]
  dsimp only
  rw [if_pos ⟨rfl, by rw [hfirst]; rfl⟩]
  rfl

/-- A pass of the loop that does not end it reads an item. -/
theorem classLoop_item {fuel : Nat} {first : Bool} {prev : Option Nat} {spec : CharClassSpec} {st : PState} {c : UInt8}
    (hc : s[st.i]? = some c) (hend : ¬ (c = 0x5D ∧ first = false)) : classLoop icu s (fuel + 1) first prev spec st =
      (classItem icu s c s[st.i + 1]? prev spec >>= fun q => classLoop icu s fuel false q.1 q.2) st := by
  have hlen : st.i + 1 < s.length ↔ s[st.i + 1]?.isSome = true := by
    rw [Option.isSome_iff_ne_none, Ne, List.getElem?_eq_none_iff, Nat.not_le]
  rw [classLoop, bind_run (get_run st)]
  dsimp only
  rw [hc]
  dsimp only
  rw [if_neg (fun h => hend ⟨h.1, by simpa using h.2⟩)]
  unfold classItem
  dsimp only
  generalize (if c = 0x5C then s[st.i + 1]? else none) = e
  by_cases h1 : e = some 0x70 ∨ e = some 0x50
  · rw [if_pos h1, if_pos h1]
    simp only [bind_assoc, pure_bind]
  rw [if_neg h1, if_neg h1]
  by_cases h2 : e.any isPerlClass = true
  · rw [if_pos h2, if_pos h2]
    simp only [bind_assoc, pure_bind]
  rw [if_neg h2, if_neg h2]
  cases prev with
  | none => simp only [bind_assoc, pure_bind]
  | some lo =>
    dsimp only
    by_cases h3 : c = 0x2D ∧ s[st.i + 1]?.isSome = true ∧ s[st.i + 1]? ≠ some 0x5D
    · rw [if_pos ⟨h3.1, hlen.2 h3.2.1, h3.2.2⟩, if_pos h3, bind_assoc]
      refine congrFun (bind_congr (fun _ => ?_)) st
      rw [bind_assoc]
      refine bind_congr (fun hi => ?_)
      by_cases hlo : hi < lo
      · rw [if_pos hlo, if_pos hlo]
        rfl
      · rw [if_neg hlo, if_neg hlo, pure_bind]
    · rw [if_neg (fun h => h3 ⟨h.1, hlen.1 h.2.1, h.2.2⟩), if_neg h3]
      simp only [bind_assoc, pure_bind]

theorem classLoop_ok {fuel : Nat} {first : Bool} {prev : Option Nat} {spec r : CharClassSpec} {st st' : PState} :
    classLoop icu s (fuel + 1) first prev spec st = .ok (r, st') ↔ ∃ c, s[st.i]? = some c ∧
      ((c = 0x5D ∧ first = false ∧ r = spec ∧ st' = st.forward 1) ∨ (¬ (c = 0x5D ∧ first = false) ∧ ∃ q st₁,
        classItem icu s c s[st.i + 1]? prev spec st = .ok (q, st₁) ∧ classLoop icu s fuel false q.1 q.2 st₁ = .ok (r, st'))) := by
  cases hc : s[st.i]? with
  | none =>
    rw [classLoop_none hc]
    constructor
    · intro hr
      cases hr
    · rintro ⟨c, hs, -⟩
      cases hs
  | some c =>
    by_cases hend : c = 0x5D ∧ first = false
    · rw [classLoop_end (hend.1 ▸ hc) hend.2]
      constructor
      · intro hr
        cases hr
        exact ⟨c, rfl, Or.inl ⟨hend.1, hend.2, rfl, rfl⟩⟩
      · rintro ⟨c', hs, (⟨-, -, rfl, rfl⟩ | ⟨hn, -⟩)⟩
        · rfl
        · cases hs
          exact absurd hend hn
    · rw [classLoop_item hc hend, bind_runs_iff]
      constructor
      · rintro ⟨q, st₁, h1, h2⟩
        exact ⟨c, rfl, Or.inr ⟨hend, q, st₁, h1, h2⟩⟩
      · rintro ⟨c', hs, (⟨h1, h2, -⟩ | ⟨-, h⟩)⟩
        · cases hs
          exact absurd ⟨h1, h2⟩ hend
        · cases hs
          exact h

variable (h : Inserted s s' k d)
include h

variable (icu) in
theorem classItem_carries (c : UInt8) (next : Option UInt8) (prev : Option Nat) (spec : CharClassSpec) :
    Carries k d (classItem icu s c next prev spec) (classItem icu s' c next prev spec) ∧
      ReadsOn (classItem icu s c next prev spec) := by
  have hadvance : ∀ {n : Nat}, 0 < n → ReadsOn (advance n) := by
    intro n hn st a st₁ hr
    cases hr
    exact Nat.lt_add_of_pos_right hn
  -- an action that reads on, and what is made of its answer
  have hbind : ∀ {α β : Type} {x x' : P α} {f f' : α → P β}, Carries k d x x' ∧ ReadsOn x →
      (∀ a, Carries k d (f a) (f' a)) → Carries k d (x >>= f) (x' >>= f') ∧ ReadsOn (x >>= f) :=
    fun hx hf => ⟨hx.1.bind hf, ReadsOn.bind hx.2 (fun a => (hf a).mono)⟩
  have hrune : ∀ {β : Type} {f : Nat → P β}, (∀ a, Carries k d (f a) (f a)) →
      Carries k d (classRune s >>= f) (classRune s' >>= f) ∧ ReadsOn (classRune s >>= f) := hbind (classRune_carries h)
  unfold classItem
  dsimp only
  generalize (if c = 0x5C then next else none) = e
  by_cases h1 : e = some 0x70 ∨ e = some 0x50
  · rw [if_pos h1, if_pos h1]
    exact hbind ⟨Carries.advance 2, hadvance (by omega)⟩ (fun _ => (property_carries h _).bind (fun _ => Carries.pure _))
  rw [if_neg h1, if_neg h1]
  by_cases h2 : e.any isPerlClass = true
  · rw [if_pos h2, if_pos h2]
    exact hbind ⟨Carries.advance 2, hadvance (by omega)⟩ (fun _ => (perlClass_carries _).bind (fun _ => Carries.pure _))
  rw [if_neg h2, if_neg h2]
  cases prev with
  | none => exact hrune (fun _ => Carries.pure _)
  | some lo =>
    dsimp only
    by_cases h3 : c = 0x2D ∧ next.isSome = true ∧ next ≠ some 0x5D
    · rw [if_pos h3, if_pos h3]
      exact hbind ⟨Carries.advance 1, hadvance (by omega)⟩ (fun _ => (classRune_carries h).1.bind (fun hi =>
        Carries.ite (fun _ => Carries.fail) (fun _ => Carries.pure _)))
    · rw [if_neg h3, if_neg h3]
      exact hrune (fun _ => Carries.pure _)

theorem classLoop_carries (fuel : Nat) : ∀ {fuel' : Nat}, fuel ≤ fuel' → ∀ first prev spec,
    Carries k d (classLoop icu s fuel first prev spec) (classLoop icu s' fuel' first prev spec) ∧
      ReadsOn (classLoop icu s fuel first prev spec) := by
  induction fuel with
  | zero =>
    intro fuel' _ first prev spec
    exact ⟨Carries.fail, ReadsOn.fail⟩
  | succ fuel ih =>
    intro fuel' hle first prev spec
    obtain ⟨fuel', rfl⟩ := Nat.exists_eq_add_of_le' (Nat.le_trans (Nat.le_add_left 1 fuel) hle)
    have ih' := ih (Nat.le_of_succ_le_succ hle)
    have hon : ReadsOn (classLoop icu s (fuel + 1) first prev spec) := by
      intro st r st₁ hr
      obtain ⟨c, -, ⟨-, -, -, rfl⟩ | ⟨-, q, st₂, h1, h2⟩⟩ := classLoop_ok.1 hr
      · exact Nat.lt_succ_self _
      · exact Nat.lt_trans ((classItem_carries icu h c _ prev spec).2 h1) ((ih' false q.1 q.2).2 h2)
    refine ⟨⟨hon.forth, fun {st r st₁} hr hk => ?_, fun {st r st₁} hr hk => ?_⟩, hon⟩
    · obtain ⟨c, hc, ⟨h1, h2, rfl, rfl⟩ | ⟨hne, q, st₂, h1, h2⟩⟩ := classLoop_ok.1 hr
      · exact classLoop_ok.2 ⟨c, (h.same _ hk).trans hc, Or.inl ⟨h1, h2, rfl, rfl⟩⟩
      · -- the byte after `c` is still in front of the place: the expression is closed after it
        obtain ⟨hitem, hitemOn⟩ := classItem_carries icu h c s[st.i + 1]? prev spec
        have hlt₁ := hitemOn h1
        have hlt₂ := (ih' false q.1 q.2).2 h2
        refine classLoop_ok.2 ⟨c, (h.same _ (by omega)).trans hc, Or.inr ⟨hne, q, st₂, ?_, (ih' false q.1 q.2).1.before h2 hk⟩⟩
        rw [h.same _ (by omega)]
        exact hitem.before h1 (by omega)
    · obtain ⟨c, hc, ⟨h1, h2, rfl, rfl⟩ | ⟨hne, q, st₂, h1, h2⟩⟩ := classLoop_ok.1 hr
      · exact classLoop_ok.2 ⟨c, (h.moved _ hk).trans hc, Or.inl ⟨h1, h2, rfl, PState.forward_comm _ _ _⟩⟩
      · obtain ⟨hitem, hitemOn⟩ := classItem_carries icu h c s[st.i + 1]? prev spec
        refine classLoop_ok.2 ⟨c, (h.moved _ hk).trans hc, Or.inr ⟨hne, q, st₂.forward d, ?_,
          (ih' false q.1 q.2).1.after h2 (Nat.le_trans hk (Nat.le_of_lt (hitemOn h1)))⟩⟩
        rw [PState.forward_i, Nat.add_right_comm, h.moved _ (Nat.le_succ_of_le hk)]
        exact hitem.after h1 hk

theorem Inserted.length : s'.length = s.length + d := by
  have hlt := h.lt
  have h1 := congrArg List.length (h.drop (Nat.le_refl k))
  rw [List.length_drop, List.length_drop] at h1
  omega

theorem charClass_carries : Carries k d (charClass icu s) (charClass icu s') := by
  unfold charClass
  refine Carries.nodeFlags.bind (fun f => (Carries.eat h (by decide)).bind (fun negated => ?_))
  exact (classLoop_carries h _ (by rw [h.length]; omega) true none _).1.bind (fun _ => Carries.pure _)

end

/-! ## What an atom opens with -/

section
variable {icu : Icu} {s s' : Bytes} {k d : Nat}

theorem openCapture_carries (name : Bytes) : Carries k d (openCapture name) (openCapture name) :=
  Carries.state (fun st => Piece.opens (.group st.flags (st.groups + 1) name))
    (fun st => { st with groups := st.groups + 1, groupNames := st.groupNames ++ [name] }) (fun _ => rfl) (fun _ => rfl)
    (fun _ => rfl) (fun _ => rfl)

theorem openLook_carries (behind negative : Bool) : Carries k d (openLook behind negative) (openLook behind negative) :=
  Carries.state (fun st => Piece.opens (.look st.flags behind negative)) (fun st => { st with extended := true })
    (fun _ => rfl) (fun _ => rfl) (fun _ => rfl) (fun _ => rfl)

variable (h : Inserted s s' k d)
include h

theorem Loops.saved {α β : Type} {F : Bytes → P α} (hF : Loops d F) {f f' : PState → α → P β}
    (hf : ∀ saved a, Carries k d (f saved a) (f' saved a) ∧ ReadsOn (f saved a))
    (hd : ∀ saved a, f' (saved.forward d) a = f' saved a) : Carries k d (do
      let saved ← get
      let a ← F (s.drop saved.i)
      f saved a) (do
      let saved ← get
      let a ← F (s'.drop saved.i)
      f' saved a) := by
  have hloop := hF.carriesLt h
  refine ⟨fun {st b st₁} hr => ?_, fun {st b st₁} hr hk => ?_, fun {st b st₁} hr hk => ?_⟩
  all_goals
    rw [bind_run (get_run st)] at hr
    obtain ⟨a, st₂, h1, h2⟩ := bind_runs hr
    obtain ⟨hcarries, hon⟩ := hf st a
  · exact Nat.le_trans (hloop.mono h1) (hcarries.mono h2)
  · rw [bind_run (get_run st)]
    exact (bind_run (hloop.before h1 (Nat.lt_of_lt_of_le (hon h2) hk))).trans (hcarries.before h2 hk)
  · rw [bind_run (get_run _)]
    refine (bind_run (hloop.after h1 hk)).trans ?_
    rw [hd]
    exact hcarries.after h2 (Nat.le_trans hk (hloop.mono h1))

theorem groupHead_carries : Carries k d (groupHead s) (groupHead s') := by
  have hname : Carries k d (captureName s >>= openCapture) (captureName s' >>= openCapture) :=
    (captureName_carries h).bind openCapture_carries
  unfold groupHead
  refine Carries.eatIte h (by decide) ?_ (openCapture_carries [])
  refine Carries.eatIte h (by decide) (Carries.eatIte h (by decide) hname Carries.fail) ?_
  refine Carries.eatIte h (by decide) (Carries.pure _) ?_
  refine Carries.eatIte h (by decide) (openLook_carries _ _) ?_
  refine Carries.eatIte h (by decide) (openLook_carries _ _) ?_
  refine Carries.eatIte h (by decide) (Carries.eatIte h (by decide) (openLook_carries _ _)
    (Carries.eatIte h (by decide) (openLook_carries _ _) hname)) ?_
  -- inline flags: the settings before them are those a flag group ends with
  refine Loops.saved h (fun t => flagsLoop_loops d t false false) (fun saved seen => ?_) (fun saved seen => rfl)
  cases seen with
  | false => exact ⟨Carries.fail, ReadsOn.fail⟩
  | true =>
    exact Carries.eatOn h (by decide) (Carries.node _)
      (Carries.eatOn h (by decide) (Carries.pure _) ⟨Carries.fail, ReadsOn.fail⟩)

variable (icu) in
theorem piece_carries : Carries k d (piece icu s) (piece icu s') ∧ ReadsOn (piece icu s) := by
  unfold piece
  refine Carries.eatOn h (by decide) (Carries.node _) ?_
  refine Carries.eatOn h (by decide) (Carries.node _) ?_
  refine Carries.eatOn h (by decide) (Carries.node _) ?_
  refine Carries.eatOn h (by decide) ((charClass_carries h).bind (fun _ => Carries.pure _)) ?_
  refine Carries.eatOn h (by decide) (groupHead_carries h) ?_
  refine Carries.eatOn h (by decide) ((escaped_carries h).bind (fun _ => Carries.pure _)) ?_
  exact ⟨(patternRune_carries h).bind (fun _ => Carries.node _),
    ReadsOn.bind patternRune_readsOn (fun _ => (Carries.node (k := k) (d := d) _).mono)⟩

end

end Parser
end Pergrep
