import Pergrep.Regex.Layout
/-!
# Fuel — the parser has enough

A parse never ends for want of fuel (`parse_fueled`), so `parseFuel` stands for no limit of the source's.  Between two calls of
one function a byte is read, and a function takes at most eight calls until then.  The loop of a bracket expression does the
same with more fuel than it is given (`classLoop_congr`).
-/
namespace Pergrep
namespace Parser

/-- The action does not end for want of fuel. -/
def Fueled {α : Type} (x : P α) (st : PState) : Prop := x st ≠ .error "out of fuel"

/-- It needs no fuel at all. -/
def Unfueled {α : Type} (x : P α) : Prop := ∀ st, Fueled x st

section
variable {α β : Type} {s : Bytes} {st : PState}

/-- Every message of the parser begins with the name of the program. -/
theorem message_ne {p : String} (hp : p.toList.head? = some 'p') (m : String) : p ++ m ≠ "out of fuel" := by
  intro h
  have hfirst := congrArg (fun t => t.toList.head?) h
  rw [String.toList_append, List.head?_append, hp, Option.some_or] at hfirst
  exact absurd hfirst (by decide)

theorem Fueled.bind {x : P α} {f : α → P β} (hx : Fueled x st) (hf : ∀ a st₁, x st = .ok (a, st₁) → Fueled (f a) st₁) :
    Fueled (x >>= f) st := by
  unfold Fueled at hx ⊢
  change (x st >>= fun y => f y.1 y.2) ≠ _
  cases h : x st with
  | error e => exact fun he => hx (h.trans (congrArg _ (Except.error.inj he)))
  | ok y => exact hf y.1 y.2 h

theorem Unfueled.bind {x : P α} {f : α → P β} (hx : Unfueled x) (hf : ∀ a, Unfueled (f a)) : Unfueled (x >>= f) :=
  fun st => (hx st).bind (fun a st₁ _ => hf a st₁)

theorem Unfueled.ite {b : Prop} [Decidable b] {x y : P α} (hx : Unfueled x) (hy : Unfueled y) : Unfueled (if b then x else y) := by
  split
  · exact hx
  · exact hy

theorem Unfueled.pure (a : α) : Unfueled (pure a : P α) := fun _ h => nomatch h

/-- An action that always succeeds. -/
theorem Unfueled.state {x : P α} (h : ∀ st, ∃ r, x st = .ok r) : Unfueled x := by
  intro st he
  obtain ⟨r, hr⟩ := h st
  cases hr.symm.trans he

theorem Unfueled.fail (m : String) : Unfueled (fail m : P α) := by
  intro st he
  have h := Except.error.inj he
  rw [String.append_assoc, String.append_assoc] at h
  exact message_ne (by decide) _ h

variable (icu : Icu) (s : Bytes)

theorem Unfueled.get : Unfueled (get : P PState) := Unfueled.state (fun st => ⟨_, get_run st⟩)

theorem Unfueled.peek : Unfueled (peek s) := Unfueled.state (fun _ => ⟨_, peek_run⟩)

theorem Unfueled.advance (k : Nat) : Unfueled (advance k) := Unfueled.state (fun st => ⟨_, advance_run k st⟩)

theorem Unfueled.modify (f : PState → PState) : Unfueled (modify f : P Unit) := Unfueled.state (fun _ => ⟨_, rfl⟩)

theorem Unfueled.nodeFlags : Unfueled nodeFlags := Unfueled.state (fun st => ⟨_, nodeFlags_run st⟩)

theorem Unfueled.skipIgnored : Unfueled (skipIgnored s) := Unfueled.state (fun _ => ⟨_, skipIgnored_run⟩)

theorem Unfueled.eat (c : UInt8) : Unfueled (eat s c) := by
  refine Unfueled.state (fun st => ?_)
  by_cases h : s[st.i]? = some c
  · exact ⟨_, eat_at h⟩
  · exact ⟨_, eat_not h⟩

theorem Unfueled.eatIte (c : UInt8) {x y : P α} (hx : Unfueled x) (hy : Unfueled y) :
    Unfueled (Parser.eat s c >>= fun b => if b = true then x else y) :=
  (Unfueled.eat s c).bind (fun _ => Unfueled.ite hx hy)

theorem Unfueled.node (f : NodeFlags → α) : Unfueled (do return f (← Parser.nodeFlags)) :=
  Unfueled.nodeFlags.bind (fun _ => Unfueled.pure _)

/-! ## What reads bytes takes no fuel -/

theorem getByte_unfueled : Unfueled (getByte s) := by
  refine (Unfueled.peek s).bind (fun c => ?_)
  cases c with
  | some c => exact (Unfueled.advance 1).bind (fun _ => Unfueled.pure c)
  | none => exact Unfueled.fail _

theorem numberLoop_unfueled : ∀ (t : Bytes) (x : Nat), Unfueled (numberLoop t x)
  | [], x => Unfueled.pure x
  | b :: t, x => by
    rw [numberLoop]
    refine Unfueled.ite ((Unfueled.advance 1).bind (fun _ => ?_)) (Unfueled.pure x)
    exact Unfueled.ite (Unfueled.fail _) (numberLoop_unfueled t _)

theorem number_unfueled : Unfueled (number s) := by
  refine (Unfueled.peek s).bind (fun c => ?_)
  cases c with
  | some b =>
    exact Unfueled.ite (Unfueled.get.bind (fun _ => numberLoop_unfueled _ _)) (Unfueled.fail _)
  | none => exact Unfueled.fail _

theorem patternRune_unfueled : Unfueled (patternRune s) := by
  refine Unfueled.get.bind (fun st => ?_)
  dsimp only
  cases s.drop st.i with
  | nil => exact Unfueled.fail _
  | cons b t =>
    dsimp only
    cases u8Next (b :: t) with
    | some r => exact (Unfueled.advance r.2).bind (fun _ => Unfueled.pure r.1)
    | none => exact (Unfueled.advance 1).bind (fun _ => Unfueled.pure b.toNat)

theorem nameLoop_unfueled : ∀ t : Bytes, Unfueled (nameLoop t)
  | [] => Unfueled.pure []
  | c :: t => by
    rw [nameLoop]
    refine Unfueled.ite (Unfueled.pure []) ((Unfueled.advance 1).bind (fun _ => ?_))
    exact Unfueled.ite ((nameLoop_unfueled t).bind (fun _ => Unfueled.pure _)) (Unfueled.fail _)

theorem captureName_unfueled : Unfueled (captureName s) := by
  refine Unfueled.get.bind (fun st => (nameLoop_unfueled _).bind (fun name => ?_))
  have hclose : Unfueled (eat s 0x3E >>= fun b => if b = true then Pure.pure name else fail "bad named capture") :=
    Unfueled.eatIte s 0x3E (Unfueled.pure name) (Unfueled.fail _)
  exact Unfueled.ite ((Unfueled.fail _).bind (fun _ => hclose)) hclose

theorem flagsLoop_unfueled : ∀ (t : Bytes) (seen unset : Bool), Unfueled (flagsLoop t seen unset)
  | [], seen, _ => Unfueled.pure seen
  | f :: t, seen, unset => by
    rw [flagsLoop]
    refine Unfueled.ite ((Unfueled.advance 1).bind (fun _ => flagsLoop_unfueled t seen true))
      (Unfueled.ite (Unfueled.pure seen) (Unfueled.ite ?_ (Unfueled.fail _)))
    exact (Unfueled.advance 1).bind (fun _ => (Unfueled.modify _).bind (fun _ => flagsLoop_unfueled t true unset))

theorem hexEscape_unfueled : Unfueled (hexEscape s) := by
  refine Unfueled.get.bind (fun st => ?_)
  rcases s.drop st.i with _ | ⟨h, _ | ⟨l, t⟩⟩
  · exact Unfueled.fail _
  · exact Unfueled.fail _
  · refine (Unfueled.advance 2).bind (fun _ => ?_)
    cases hexVal h <;> cases hexVal l <;> first | exact Unfueled.pure _ | exact Unfueled.fail _

theorem propertyName_unfueled : Unfueled (propertyName s) := by
  refine Unfueled.eatIte s 0x7B (Unfueled.get.bind (fun st => (Unfueled.advance _).bind (fun _ => ?_)))
    ((Unfueled.peek s).bind (fun c => ?_))
  · exact Unfueled.eatIte s 0x7D (Unfueled.pure _) (Unfueled.fail _)
  · cases c with
    | some c => exact (Unfueled.advance 1).bind (fun _ => Unfueled.pure [c])
    | none => exact Unfueled.fail _

theorem propertyFromName_error : ∀ (fuel : Nat) (name : Bytes) (negated : Bool),
    propertyFromName icu fuel name negated ≠ .error "out of fuel"
  | 0, _, _ => fun h => absurd (Except.error.inj h) (by decide)
  | fuel + 1, name, negated => by
    have hok : ∀ p : UnicodeProperty, (Except.ok p : Except String UnicodeProperty) ≠ .error "out of fuel" := by
      rintro p ⟨⟩
    have herror : ∀ {t : String}, t.toList.head? = some 'p' → ∀ m : String,
        (Except.error (t ++ m) : Except String UnicodeProperty) ≠ .error "out of fuel" :=
      fun ht m h => message_ne ht m (Except.error.inj h)
    rw [propertyFromName]
    dsimp only
    split
    · split
      · split
        · exact hok _
        · exact herror (by decide) _
      · split
        · exact propertyFromName_error fuel _ negated
        · split
          · exact hok _
          · split
            · exact hok _
            · exact herror (by decide) _
    · split
      · exact hok _
      · split
        · exact hok _
        · exact herror (by decide) _

theorem property_unfueled (negated : Bool) : Unfueled (property icu s negated) := by
  refine (propertyName_unfueled s).bind (fun name => ?_)
  cases h : propertyFromName icu (name.length + 1) name negated with
  | ok p => exact Unfueled.pure p
  | error e => exact fun st he => propertyFromName_error icu _ name negated (h.trans (congrArg _ (Except.error.inj he)))

theorem perlClass_unfueled (c : UInt8) : Unfueled (perlClass c) := Unfueled.get.bind (fun _ => Unfueled.pure _)

theorem escaped_unfueled : Unfueled (escaped icu s) := by
  refine (getByte_unfueled s).bind (fun c => ?_)
  refine Unfueled.ite ((Unfueled.modify _).bind (fun _ => Unfueled.node _)) ?_
  refine Unfueled.ite (Unfueled.node _) (Unfueled.ite (Unfueled.node _) (Unfueled.ite (Unfueled.node _)
    (Unfueled.ite (Unfueled.node _) (Unfueled.ite (Unfueled.node _) ?_))))
  refine Unfueled.ite ((property_unfueled icu s _).bind (fun p => Unfueled.node _))
    (Unfueled.ite ((perlClass_unfueled c).bind (fun p => Unfueled.node _)) ?_)
  cases controlEscape c with
  | some b => exact Unfueled.node _
  | none =>
    refine Unfueled.ite (Unfueled.node _) (Unfueled.ite ((hexEscape_unfueled s).bind (fun b => Unfueled.node _)) ?_)
    exact Unfueled.ite (Unfueled.fail _) (Unfueled.node _)

theorem classRune_unfueled : Unfueled (classRune s) := by
  refine Unfueled.eatIte s 0x5C ((getByte_unfueled s).bind (fun e => ?_)) (patternRune_unfueled s)
  cases controlEscape e with
  | some b => exact Unfueled.pure _
  | none =>
    refine Unfueled.ite ((hexEscape_unfueled s).bind (fun b => Unfueled.pure _)) ?_
    exact Unfueled.ite (Unfueled.fail _) (Unfueled.pure _)

theorem classItem_unfueled (c : UInt8) (next : Option UInt8) (prev : Option Nat) (spec : CharClassSpec) :
    Unfueled (classItem icu s c next prev spec) := by
  have hrune : ∀ {β : Type} {f : Nat → P β}, (∀ a, Unfueled (f a)) → Unfueled (classRune s >>= f) := (classRune_unfueled s).bind
  unfold classItem
  dsimp only
  refine Unfueled.ite ((Unfueled.advance 2).bind (fun _ => (property_unfueled icu s _).bind (fun _ => Unfueled.pure _)))
    (Unfueled.ite ((Unfueled.advance 2).bind (fun _ => (perlClass_unfueled _).bind (fun _ => Unfueled.pure _))) ?_)
  cases prev with
  | none => exact hrune (fun _ => Unfueled.pure _)
  | some lo =>
    refine Unfueled.ite ((Unfueled.advance 1).bind (fun _ => hrune (fun hi => ?_))) (hrune (fun _ => Unfueled.pure _))
    exact Unfueled.ite (Unfueled.fail _) (Unfueled.pure _)

theorem classLoop_unfueled : ∀ (fuel : Nat) (first : Bool) (prev : Option Nat) (spec : CharClassSpec),
    Unfueled (classLoop icu s fuel first prev spec)
  | 0, _, _, _ => Unfueled.fail _
  | fuel + 1, first, prev, spec => by
    intro st
    unfold Fueled
    cases hc : s[st.i]? with
    | none =>
      rw [classLoop_none hc]
      exact Unfueled.fail _ st
    | some c =>
      by_cases hend : c = 0x5D ∧ first = false
      · rw [classLoop_end (hend.1 ▸ hc) hend.2]
        exact fun h => nomatch h
      · rw [classLoop_item hc hend]
        exact (classItem_unfueled icu s c _ prev spec).bind (fun q => classLoop_unfueled fuel false q.1 q.2) st

/-- **More fuel changes nothing in a bracket expression**: there is a unit for each byte that is left. -/
theorem classLoop_congr : ∀ {fuel fuel' : Nat} {first : Bool} {prev : Option Nat} {spec : CharClassSpec} {st : PState},
    s.length - st.i ≤ fuel → s.length - st.i ≤ fuel' →
      classLoop icu s fuel first prev spec st = classLoop icu s fuel' first prev spec st := by
  intro fuel
  induction fuel with
  | zero =>
    intro fuel' first prev spec st h _
    have hc : s[st.i]? = none := List.getElem?_eq_none (by omega)
    rw [classLoop_none hc, classLoop_none hc]
  | succ fuel ih =>
    intro fuel' first prev spec st h h'
    cases hc : s[st.i]? with
    | none => rw [classLoop_none hc, classLoop_none hc]
    | some c =>
      have hlt := (List.getElem?_eq_some_iff.1 hc).1
      obtain ⟨fuel', rfl⟩ := Nat.exists_eq_add_one_of_ne_zero (show fuel' ≠ 0 by omega)
      by_cases hend : c = 0x5D ∧ first = false
      · rw [classLoop_end (hend.1 ▸ hc) hend.2, classLoop_end (hend.1 ▸ hc) hend.2]
      · rw [classLoop_item hc hend, classLoop_item hc hend]
        -- an item takes a byte or more
        change (classItem icu s c _ prev spec st >>= fun y => classLoop icu s fuel false y.1.1 y.1.2 y.2) =
          (classItem icu s c _ prev spec st >>= fun y => classLoop icu s fuel' false y.1.1 y.1.2 y.2)
        cases hitem : classItem icu s c s[st.i + 1]? prev spec st with
        | error e => rfl
        | ok y =>
          have hon := (classItem_carries icu (Inserted.front hc) c _ prev spec).2 hitem
          exact ih (by omega) (by omega)

theorem charClass_unfueled : Unfueled (charClass icu s) :=
  Unfueled.nodeFlags.bind (fun _ => (Unfueled.eat s _).bind (fun _ =>
    (classLoop_unfueled icu s _ _ _ _).bind (fun _ => Unfueled.pure _)))

theorem openCapture_unfueled (name : Bytes) : Unfueled (openCapture name) :=
  (Unfueled.modify _).bind (fun _ => Unfueled.get.bind (fun _ => Unfueled.node _))

theorem openLook_unfueled (behind negative : Bool) : Unfueled (openLook behind negative) :=
  (Unfueled.modify _).bind (fun _ => Unfueled.node _)

theorem groupHead_unfueled : Unfueled (groupHead s) := by
  have hname : Unfueled (captureName s >>= openCapture) := (captureName_unfueled s).bind openCapture_unfueled
  refine Unfueled.eatIte s _ (Unfueled.eatIte s _ (Unfueled.eatIte s _ hname (Unfueled.fail _)) ?_) (openCapture_unfueled [])
  refine Unfueled.eatIte s _ (Unfueled.pure _) (Unfueled.eatIte s _ (openLook_unfueled _ _)
    (Unfueled.eatIte s _ (openLook_unfueled _ _) (Unfueled.eatIte s _ ?_ ?_)))
  · exact Unfueled.eatIte s _ (openLook_unfueled _ _) (Unfueled.eatIte s _ (openLook_unfueled _ _) hname)
  · refine Unfueled.get.bind (fun saved => (flagsLoop_unfueled _ _ _).bind (fun seen => ?_))
    have hrest : Unfueled (eat s 0x29 >>= fun b => if b = true then (do return .node (.empty (← nodeFlags)))
        else eat s 0x3A >>= fun b => if b = true then
          Pure.pure (Piece.opens (.flagged saved.opt saved.ignoreWs saved.swapGreed)) else fail "malformed inline flags") :=
      Unfueled.eatIte s _ (Unfueled.node _) (Unfueled.eatIte s _ (Unfueled.pure _) (Unfueled.fail _))
    exact Unfueled.ite ((Unfueled.fail _).bind (fun _ => hrest)) hrest

theorem piece_unfueled : Unfueled (piece icu s) := by
  refine Unfueled.eatIte s _ (Unfueled.node _) (Unfueled.eatIte s _ (Unfueled.node _) (Unfueled.eatIte s _ (Unfueled.node _) ?_))
  refine Unfueled.eatIte s _ ((charClass_unfueled icu s).bind (fun _ => Unfueled.pure _))
    (Unfueled.eatIte s _ (groupHead_unfueled s) ?_)
  exact Unfueled.eatIte s _ ((escaped_unfueled icu s).bind (fun _ => Unfueled.pure _))
    ((patternRune_unfueled s).bind (fun _ => Unfueled.node _))

theorem bounds_unfueled : Unfueled (bounds s) := by
  refine (number_unfueled s).bind (fun mn => Unfueled.bind ?_ (fun mx => (Unfueled.eat s _).bind (fun close => ?_)))
  · refine Unfueled.eatIte s _ ((Unfueled.peek s).bind (fun c => ?_)) (Unfueled.pure mn)
    cases c with
    | some c => exact Unfueled.ite (number_unfueled s) (Unfueled.pure _)
    | none => exact Unfueled.pure _
  · refine Unfueled.ite ((Unfueled.fail _).bind (fun _ => ?_)) ?_
    all_goals exact Unfueled.ite ((Unfueled.fail _).bind (fun _ => Unfueled.pure _)) (Unfueled.pure _)

theorem quantifier_unfueled : Unfueled (quantifier s) :=
  Unfueled.eatIte s _ (Unfueled.pure _) (Unfueled.eatIte s _ (Unfueled.pure _) (Unfueled.eatIte s _ (Unfueled.pure _)
    (Unfueled.eatIte s _ (bounds_unfueled s) (Unfueled.pure _))))

theorem expectClose_unfueled (m : String) : Unfueled (expectClose s m) :=
  (Unfueled.eat s _).bind (fun _ => Unfueled.ite (Unfueled.fail m) (Unfueled.pure _))

theorem close_unfueled (w : Opening) (x : RegexNode) : Unfueled (w.close s x) := by
  cases w with
  | plain => exact (expectClose_unfueled s _).bind (fun _ => Unfueled.pure x)
  | flagged opt ignoreWs swapGreed =>
    exact (Unfueled.skipIgnored s).bind (fun _ => (expectClose_unfueled s _).bind (fun _ =>
      (Unfueled.modify _).bind (fun _ => Unfueled.pure x)))
  | look f behind negative => exact (expectClose_unfueled s _).bind (fun _ => Unfueled.pure _)
  | group f g name => exact (expectClose_unfueled s _).bind (fun _ => Unfueled.pure _)

end

/-! ## The functions that call one another -/

section
variable {icu : Icu} {s : Bytes}

theorem Opening.fuel_ge (w : Opening) (k : Nat) : k - 1 ≤ w.fuel k := by
  cases w with
  | plain => exact Nat.sub_le k 1
  | flagged opt ignoreWs swapGreed => exact Nat.sub_le k 1
  | look f behind negative => exact Nat.le_refl _
  | group f g name => exact Nat.le_refl _

/-- An atom reads on. -/
theorem atom_lt {fuel : Nat} {st st' : PState} {n : RegexNode} (h : atom icu s fuel st = .ok (n, st')) : st.i < st'.i := by
  obtain ⟨f, -, hrun, -⟩ := atom_runs h
  obtain ⟨p, st₁, h1, h2⟩ := bind_runs hrun
  have hlt : st.i < st₁.i := by
    cases hc : s[st.i]? with
    | some c => exact (piece_carries icu (Inserted.front hc)).2 h1
    | none =>
      have hne : ∀ c : UInt8, s[st.i]? ≠ some c := fun c he => nomatch hc.symm.trans he
      have hnil : s.drop st.i = [] := List.drop_eq_nil_of_le (List.getElem?_eq_none_iff.1 hc)
      unfold piece at h1
      rw [eat_ite_not (hne _), eat_ite_not (hne _), eat_ite_not (hne _), eat_ite_not (hne _), eat_ite_not (hne _),
        eat_ite_not (hne _)] at h1
      obtain ⟨cp, st₂, h3, -⟩ := bind_runs h1
      unfold patternRune at h3
      rw [bind_run (get_run st), hnil] at h3
      cases h3
  cases p with
  | node m =>
    cases h2
    exact hlt
  | opens w =>
    obtain ⟨x, st₂, h3, h4⟩ := bind_runs h2
    obtain ⟨m, hs⟩ := ((allScan _).alt h3).2 [] []
    have hle := scans_le hs
    obtain ⟨-, rfl, -⟩ := Opening.close_ok.1 h4
    have hsettle : st₂.i ≤ (w.settle s st₂).i := by
      cases w with
      | flagged opt ignoreWs swapGreed => exact skipped_le s st₂
      | plain => exact Nat.le_refl _
      | look f behind negative => exact Nat.le_refl _
      | group f g name => exact Nat.le_refl _
    rw [Opening.restore_i, PState.forward_i]
    exact Nat.lt_succ_of_le (Nat.le_trans (Nat.le_of_lt hlt) (Nat.le_trans hle hsettle))

theorem repeat_lt {fuel : Nat} {st st' : PState} {n : RegexNode} (h : «repeat» icu s (fuel + 1) st = .ok (n, st')) :
    st.i < st'.i := by
  obtain ⟨a, st₁, q, st₂, h1, h2, h3⟩ := repeat_ok.1 h
  have hlt := atom_lt h1
  rcases h3 with ⟨rfl, -, rfl⟩ | ⟨mn, mx, b, rfl, h4, -⟩
  · rw [(quantifier_ok_none h2).1]
    exact hlt
  · obtain ⟨c, hc, -⟩ := quantifier_ok_some h2
    have hq := quantifier_lt (Inserted.front hc) h2
    rcases eat_ok.1 h4 with ⟨-, -, rfl⟩ | ⟨-, -, rfl⟩
    · rw [PState.forward_i]
      omega
    · omega

/-- What each function needs where so many bytes are left. -/
structure AllFueled (icu : Icu) (s : Bytes) (fuel : Nat) : Prop where
  alt : ∀ {st : PState}, 8 * (s.length - st.i) + 8 ≤ fuel → Fueled (alt icu s fuel) st
  altRest : ∀ {st : PState}, 8 * (s.length - st.i) + 7 ≤ fuel → Fueled (altRest icu s fuel) st
  concat : ∀ {st : PState}, 8 * (s.length - st.i) + 6 ≤ fuel → Fueled (concat icu s fuel) st
  concatItems : ∀ {st : PState}, 8 * (s.length - st.i) + 5 ≤ fuel → Fueled (concatItems icu s fuel) st
  «repeat» : ∀ {st : PState}, st.i < s.length → 8 * (s.length - st.i) + 4 ≤ fuel → Fueled («repeat» icu s fuel) st
  atom : ∀ {st : PState}, st.i < s.length → 8 * (s.length - st.i) + 3 ≤ fuel → Fueled (atom icu s fuel) st

theorem concat_le {fuel : Nat} {st st' : PState} {n : RegexNode} (h : concat icu s fuel st = .ok (n, st')) : st.i ≤ st'.i := by
  obtain ⟨m, hs⟩ := ((allScan fuel).concat h).2 [] []
  exact scans_le hs

theorem alt_fueled {fuel : Nat} (h : AllFueled icu s fuel) {st : PState} (hf : 8 * (s.length - st.i) + 8 ≤ fuel + 1) :
    Fueled (alt icu s (fuel + 1)) st := by
  rw [Parser.alt]
  refine (h.concat (by omega)).bind (fun x st₁ h1 => ?_)
  have hle := concat_le h1
  refine (h.altRest (by omega)).bind (fun xs st₂ _ => ?_)
  exact Unfueled.ite (Unfueled.pure x) (Unfueled.node _) st₂

theorem altRest_fueled {fuel : Nat} (h : AllFueled icu s fuel) {st : PState} (hf : 8 * (s.length - st.i) + 7 ≤ fuel + 1) :
    Fueled (altRest icu s (fuel + 1)) st := by
  rw [Parser.altRest]
  unfold Fueled
  by_cases hbar : s[st.i]? = some 0x7C
  · have hlt := (List.getElem?_eq_some_iff.1 hbar).1
    rw [eat_ite_at hbar]
    refine (h.concat (by rw [PState.forward_i]; omega)).bind (fun x st₁ h1 => ?_)
    have hle := concat_le h1
    rw [PState.forward_i] at hle
    exact (h.altRest (by omega)).bind (fun xs st₂ _ => Unfueled.pure _ st₂)
  · rw [eat_ite_not hbar]
    exact Unfueled.pure _ st

theorem concat_fueled {fuel : Nat} (h : AllFueled icu s fuel) {st : PState} (hf : 8 * (s.length - st.i) + 6 ≤ fuel + 1) :
    Fueled (concat icu s (fuel + 1)) st := by
  rw [Parser.concat]
  refine (h.concatItems (by omega)).bind (fun xs st₁ _ => ?_)
  rcases mergeLiterals xs with _ | ⟨y, _ | ⟨z, t⟩⟩
  · exact Unfueled.node _ st₁
  · exact Unfueled.pure _ st₁
  · exact Unfueled.node _ st₁

theorem concatItems_fueled {fuel : Nat} (h : AllFueled icu s fuel) {st : PState}
    (hf : 8 * (s.length - st.i) + 5 ≤ fuel + 1) : Fueled (concatItems icu s (fuel + 1)) st := by
  rw [Parser.concatItems]
  unfold Fueled
  have hskip := skipped_le s st
  rw [bind_run skipIgnored_run, bind_run peek_run]
  cases hc : s[(skipped s st).i]? with
  | none => exact Unfueled.pure _ _
  | some c =>
    have hlt := (List.getElem?_eq_some_iff.1 hc).1
    dsimp only
    split
    · exact Unfueled.pure _ _
    · refine (h.repeat hlt (by omega)).bind (fun x st₁ h1 => ?_)
      have hon : (skipped s st).i < st₁.i := by
        cases fuel with
        | zero => cases h1
        | succ fuel => exact repeat_lt h1
      exact (h.concatItems (by omega)).bind (fun ys st₂ _ => Unfueled.pure _ st₂)

theorem repeat_fueled {fuel : Nat} (h : AllFueled icu s fuel) {st : PState} (hlt : st.i < s.length)
    (hf : 8 * (s.length - st.i) + 4 ≤ fuel + 1) : Fueled («repeat» icu s (fuel + 1)) st := by
  rw [Parser.repeat]
  refine (h.atom hlt (by omega)).bind (fun a st₁ _ => (quantifier_unfueled s st₁).bind (fun q st₂ _ => ?_))
  cases q with
  | none => exact Unfueled.pure a st₂
  | some m =>
    exact (Unfueled.nodeFlags.bind (fun _ => (Unfueled.eat s _).bind (fun _ => Unfueled.get.bind (fun _ => Unfueled.pure _)))) st₂

theorem atom_fueled {fuel : Nat} (h : ∀ f < fuel, AllFueled icu s f) {st : PState} (hlt : st.i < s.length)
    (hf : 8 * (s.length - st.i) + 3 ≤ fuel) : Fueled (atom icu s fuel) st := by
  obtain ⟨f, rfl⟩ := Nat.exists_eq_add_of_le' (show 2 ≤ fuel by omega)
  rw [atom_eq]
  refine (piece_unfueled icu s st).bind (fun p st₁ h1 => ?_)
  have hon := (piece_carries icu (Inserted.front (List.getElem?_eq_getElem hlt))).2 h1
  cases p with
  | node n => exact Unfueled.pure n st₁
  | opens w =>
    have hge := w.fuel_ge f
    have hle := w.fuel_le f
    refine ((h (w.fuel f) (by omega)).alt (by omega)).bind (fun x st₂ _ => close_unfueled s w x st₂)

theorem allFueled (fuel : Nat) : AllFueled icu s fuel := by
  induction fuel using Nat.strongRecOn with
  | ind fuel ih =>
    cases fuel with
    | zero => exact ⟨fun h => absurd h (by omega), fun h => absurd h (by omega), fun h => absurd h (by omega),
        fun h => absurd h (by omega), fun _ h => absurd h (by omega), fun _ h => absurd h (by omega)⟩
    | succ fuel =>
      have h := ih fuel (Nat.lt_succ_self fuel)
      exact ⟨alt_fueled h, altRest_fueled h, concat_fueled h, concatItems_fueled h, repeat_fueled h, atom_fueled ih⟩

/-- **A parse never ends for want of fuel.** -/
theorem parse_fueled (icu : Icu) (s : Bytes) (opt : PatternOptions) : parse icu s opt ≠ .error "out of fuel" := by
  have halt : Fueled (alt icu s (parseFuel s.length)) { opt := opt } := (allFueled _).alt (Nat.le_refl _)
  unfold parse
  change (alt icu s (parseFuel s.length) { opt := opt } >>= fun y => _) ≠ _
  cases h : alt icu s (parseFuel s.length) { opt := opt } with
  | error e => exact fun he => halt (h.trans (congrArg _ (Except.error.inj he)))
  | ok y =>
    change (if y.2.i ≠ s.length then _ else _ : Except String Parsed) ≠ _
    split
    · exact fun he => message_ne (by decide) _ (Except.error.inj he)
    · exact fun he => nomatch he

end

end Parser
end Pergrep
