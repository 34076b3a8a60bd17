import Pergrep.Cli.Wildcard
import Pergrep.Lib.Inclusion
/-!
# Remainder — what the rest of a wildcard pattern accepts

After a letter of a path, `wildcard_path_match` is left with tokens of the pattern.  A `?` makes more of it: the character it
takes may go on, and where the path ends before the character does, the `?` takes its first byte alone.  So a `Remainder` says
how many letters are still to be skipped, and how many may come at most.  There are finitely many of them for a pattern, and
`Remainder.step` says what a letter makes of one: the pattern is an automaton (`steps_remainders`).
-/
namespace Pergrep.Cli

/-- `skip` letters come first, there are `within` at most, and the tokens take those after the first. -/
structure Remainder where
  skip : Nat
  within : Option Nat
  tokens : List GlobToken
  deriving DecidableEq, Repr

def Remainder.Takes (ci : Bool) (p : Remainder) (text : Bytes) : Prop :=
  p.skip ≤ text.length ∧ (∀ n ∈ p.within, text.length ≤ n) ∧
    Glob.accepts (tokenEnds (wildcardSyntax ci)) p.tokens (text.drop p.skip) = true

def Remainder.atEnd (ci : Bool) (p : Remainder) : Bool :=
  p.skip == 0 && Glob.accepts (tokenEnds (wildcardSyntax ci)) p.tokens []

def letterSteps (ci : Bool) (b : UInt8) : List GlobToken → List Remainder
  | [] => []
  | .literal c :: ts => if eqByte ci c b then [⟨0, none, ts⟩] else []
  | .charClass body :: ts => if b != slash && classTakes (wildcardSyntax ci) body b then [⟨0, none, ts⟩] else []
  | .anyChar :: ts =>
    -- the character goes on, or the path ends before it does
    if b == slash then []
    else ⟨utf8CharLen b - 1, none, ts⟩ :: (if utf8CharLen b = 1 then [] else [⟨0, some (utf8CharLen b - 2), ts⟩])
  | .star :: ts => (if b == slash then [] else [⟨0, none, .star :: ts⟩]) ++ letterSteps ci b ts
  | .deep :: ts => ⟨0, none, .deep :: ts⟩ :: letterSteps ci b ts
  | .deepDir :: ts =>
    -- directories and a slash
    ⟨0, none, .deep :: .literal slash :: ts⟩ :: ((if b == slash then [⟨0, none, ts⟩] else []) ++ letterSteps ci b ts)

def Remainder.atMost : Option Nat → Remainder → Remainder
  | none, p => p
  | some n, p => { p with within := some (p.within.elim n (min n)) }

def Remainder.step (ci : Bool) (b : UInt8) (p : Remainder) : List Remainder :=
  let within := p.within.map (· - 1)
  if p.within = some 0 then []
  else if p.skip = 0 then (letterSteps ci b p.tokens).map (Remainder.atMost within)
  else [{ p with skip := p.skip - 1, within := within }]

/-! ## A letter -/

theorem tokenEnds_star (ci : Bool) (b : UInt8) (t : Bytes) : tokenEnds (wildcardSyntax ci) .star (b :: t) =
    (b :: t) :: (if b == slash then [] else tokenEnds (wildcardSyntax ci) .star t) := by
  rw [tokenEnds, List.length_cons, starSteps]
  change _ :: (if (false || !(b == slash)) = true then t :: _ else []) = _
  cases b == slash <;> rfl

theorem tokenEnds_deep (ci : Bool) (b : UInt8) (t : Bytes) : tokenEnds (wildcardSyntax ci) .deep (b :: t) =
    (b :: t) :: tokenEnds (wildcardSyntax ci) .deep t := rfl

theorem eqByte_slash (ci : Bool) (b : UInt8) : eqByte ci slash b = (b == slash) := by
  cases ci with
  | false => exact Bool.beq_comm
  | true =>
    have hbytes : ∀ n < 256, (toLowerByte slash == toLowerByte (UInt8.ofNat n)) = (UInt8.ofNat n == slash) := by
      decide +kernel
    have hb := hbytes b.toNat b.toNat_lt
    rwa [UInt8.ofNat_toNat] at hb

theorem accepts_literal {ci : Bool} {c b : UInt8} {ts : List GlobToken} {t : Bytes} :
    Glob.accepts (tokenEnds (wildcardSyntax ci)) (.literal c :: ts) (b :: t) =
      (eqByte ci c b && Glob.accepts (tokenEnds (wildcardSyntax ci)) ts t) := by
  rw [Glob.accepts, tokenEnds, afterHead]
  change List.any (if eqByte ci c b = true then [t] else []) _ = _
  cases eqByte ci c b with
  | false => rfl
  | true => exact Bool.or_false _

/-- A `**/` takes nothing, or what a `**` takes and a slash. -/
theorem accepts_deepDir (ci : Bool) (ts : List GlobToken) : ∀ text : Bytes,
    Glob.accepts (tokenEnds (wildcardSyntax ci)) (.deepDir :: ts) text =
      (Glob.accepts (tokenEnds (wildcardSyntax ci)) ts text ||
        Glob.accepts (tokenEnds (wildcardSyntax ci)) (.deep :: .literal slash :: ts) text) := by
  intro text
  change (Glob.accepts _ ts text || (dirSteps (wildcardSyntax ci) text.length text).any _) = _
  congr 1
  induction text with
  | nil => rfl
  | cons b t ih =>
    rw [Glob.accepts, tokenEnds_deep, List.any_cons, accepts_literal, eqByte_slash, List.length_cons, dirSteps, List.any_append]
    change (List.any (if (b == slash) = true then [t] else []) _ || (dirSteps _ t.length t).any _) = _
    rw [ih, Glob.accepts]
    congr 1
    cases b == slash with
    | false => rfl
    | true => exact Bool.or_false _

theorem takes_plain {ci : Bool} {ts : List GlobToken} {text : Bytes} :
    Remainder.Takes ci ⟨0, none, ts⟩ text ↔ Glob.accepts (tokenEnds (wildcardSyntax ci)) ts text = true :=
  ⟨fun h => h.2.2, fun h => ⟨Nat.zero_le _, fun _ h => (nomatch h), h⟩⟩

theorem utf8CharLen_mem (b : UInt8) : 1 ≤ utf8CharLen b ∧ utf8CharLen b ≤ 4 := by
  unfold utf8CharLen
  repeat' split
  all_goals decide

theorem accepts_anyChar {ci : Bool} {b : UInt8} {t : Bytes} {ts : List GlobToken} :
    Glob.accepts (tokenEnds (wildcardSyntax ci)) ts ((b :: t).drop (charLen (b :: t))) = true ↔
      Remainder.Takes ci ⟨utf8CharLen b - 1, none, ts⟩ t ∨
        utf8CharLen b ≠ 1 ∧ Remainder.Takes ci ⟨0, some (utf8CharLen b - 2), ts⟩ t := by
  obtain ⟨hpos, -⟩ := utf8CharLen_mem b
  unfold Remainder.Takes charLen
  simp only [Option.mem_def, Option.some.injEq, forall_eq', reduceCtorEq, false_implies, implies_true, true_and,
    Nat.zero_le, List.drop_zero]
  by_cases hlong : utf8CharLen b > t.length + 1
  · rw [if_pos hlong, List.drop_succ_cons, List.drop_zero]
    exact ⟨fun h => Or.inr ⟨by omega, by omega, h⟩, fun h => h.elim (fun h => absurd h.1 (by omega)) (fun h => h.2.2)⟩
  · obtain ⟨n, hn⟩ := Nat.exists_eq_add_of_le' hpos
    rw [if_neg hlong, hn, List.drop_succ_cons]
    exact ⟨fun h => Or.inl ⟨by omega, h⟩, fun h => h.elim (fun h => h.2) (fun h => absurd h.2.1 (by omega))⟩

theorem not_exists_nil {P : Remainder → Prop} : ¬ ∃ q ∈ ([] : List Remainder), P q := by
  rintro ⟨q, hq, -⟩
  exact List.not_mem_nil hq

theorem exists_single {P : Remainder → Prop} {p : Remainder} : (∃ q ∈ [p], P q) ↔ P p := by
  simp only [List.mem_singleton, exists_eq_left]

/-- **A letter and the tokens.** -/
theorem accepts_cons (ci : Bool) (b : UInt8) (t : Bytes) : ∀ ts : List GlobToken,
    Glob.accepts (tokenEnds (wildcardSyntax ci)) ts (b :: t) = true ↔ ∃ q ∈ letterSteps ci b ts, q.Takes ci t := by
  have hone : ∀ {c : Bool} {ts : List GlobToken},
      (c && Glob.accepts (tokenEnds (wildcardSyntax ci)) ts t) = true ↔
        ∃ q ∈ (if c then [⟨0, none, ts⟩] else [] : List Remainder), q.Takes ci t := by
    intro c ts
    cases c with
    | false => exact iff_of_false Bool.false_ne_true not_exists_nil
    | true => rw [Bool.true_and, if_pos rfl, ← takes_plain, exists_single]
  have happend : ∀ {xs ys : List Remainder},
      (∃ q ∈ xs ++ ys, q.Takes ci t) ↔ (∃ q ∈ xs, q.Takes ci t) ∨ ∃ q ∈ ys, q.Takes ci t := by
    intro xs ys
    simp only [List.mem_append, or_and_right, exists_or]
  have hcons : ∀ {q : Remainder} {ys : List Remainder},
      (∃ p ∈ q :: ys, p.Takes ci t) ↔ q.Takes ci t ∨ ∃ p ∈ ys, p.Takes ci t := by
    intro q ys
    simp only [List.mem_cons, exists_eq_or_imp]
  intro ts
  induction ts with
  | nil => exact iff_of_false Bool.false_ne_true not_exists_nil
  | cons token ts ih =>
    cases token with
    | literal c => rw [accepts_literal, letterSteps, hone]
    | charClass body =>
      rw [letterSteps, ← hone, Glob.accepts, tokenEnds, afterHead]
      change List.any (if (b != slash && _) = true then [t] else []) _ = true ↔ _
      cases b != slash && classTakes (wildcardSyntax ci) body b with
      | false => exact Iff.rfl
      | true => exact Eq.congr_left (Bool.or_false _)
    | star =>
      rw [letterSteps, happend, ← ih, Glob.accepts, tokenEnds_star, List.any_cons, Bool.or_eq_true, or_comm]
      refine or_congr_left ?_
      cases b == slash with
      | true => exact iff_of_false Bool.false_ne_true not_exists_nil
      | false =>
        have hnext := @hone true (.star :: ts)
        rw [Bool.true_and] at hnext
        exact hnext
    | deep =>
      rw [letterSteps, hcons, ← ih, Glob.accepts, tokenEnds_deep, List.any_cons, Bool.or_eq_true, or_comm, takes_plain]
      exact Iff.rfl
    | deepDir =>
      rw [letterSteps, hcons, happend, ← ih, accepts_deepDir, Bool.or_eq_true, or_comm, takes_plain, ← hone, ← or_assoc]
      refine or_congr_left ?_
      rw [Glob.accepts, tokenEnds_deep, List.any_cons, accepts_literal, eqByte_slash, Bool.or_eq_true, or_comm]
      exact Iff.rfl
    | anyChar =>
      rw [letterSteps, Glob.accepts, tokenEnds, afterHead]
      change List.any (if (!(b == slash)) = true then [(b :: t).drop (charLen (b :: t))] else []) _ = true ↔ _
      cases b == slash with
      | true => exact iff_of_false Bool.false_ne_true not_exists_nil
      | false =>
        refine (Eq.congr_left (Bool.or_false _)).trans (accepts_anyChar.trans ?_)
        rw [if_neg Bool.false_ne_true, hcons]
        refine or_congr_right ?_
        by_cases hlen : utf8CharLen b = 1
        · rw [if_pos hlen]
          exact iff_of_false (fun h => h.1 hlen) not_exists_nil
        · rw [if_neg hlen, and_iff_right hlen, exists_single]

theorem takes_atMost {ci : Bool} (w : Option Nat) (p : Remainder) (text : Bytes) :
    (p.atMost w).Takes ci text ↔ (∀ n ∈ w, text.length ≤ n) ∧ p.Takes ci text := by
  cases w with
  | none => exact ⟨fun h => ⟨fun _ hn => (nomatch hn), h⟩, fun h => h.2⟩
  | some n =>
    unfold Remainder.Takes Remainder.atMost
    dsimp only
    cases hwithin : p.within with
    | none =>
      simp only [Option.elim_none, Option.mem_def, Option.some.injEq, forall_eq', reduceCtorEq, false_implies,
        implies_true, true_and]
      exact and_left_comm
    | some m =>
      simp only [Option.elim_some, Option.mem_def, Option.some.injEq, forall_eq', le_min_iff]
      rw [and_assoc]
      exact and_left_comm

/-- **A letter and a remainder.** -/
theorem takes_cons (ci : Bool) (p : Remainder) (b : UInt8) (t : Bytes) :
    p.Takes ci (b :: t) ↔ ∃ q ∈ p.step ci b, q.Takes ci t := by
  obtain ⟨skip, within, ts⟩ := p
  unfold Remainder.step
  dsimp only
  by_cases hnone : within = some 0
  · rw [if_pos hnone, hnone]
    exact ⟨fun h => absurd (h.2.1 0 rfl) (by rw [List.length_cons]; omega), fun ⟨_, h, _⟩ => nomatch h⟩
  rw [if_neg hnone]
  -- one letter fewer may come
  have hwithin : (∀ n ∈ within, (b :: t).length ≤ n) ↔ ∀ n ∈ within.map (· - 1), t.length ≤ n := by
    cases within with
    | none => exact ⟨fun _ _ h => (nomatch h), fun _ _ h => nomatch h⟩
    | some n =>
      have hn : n ≠ 0 := fun h => hnone (by rw [h])
      simp only [Option.map_some, Option.mem_def, Option.some.injEq, forall_eq', List.length_cons]
      omega
  cases skip with
  | zero =>
    rw [if_pos rfl]
    simp only [List.mem_map, exists_exists_and_eq_and, takes_atMost]
    rw [Remainder.Takes, hwithin, List.drop_zero, accepts_cons]
    constructor
    · rintro ⟨-, hw, q, hq, hacc⟩
      exact ⟨q, hq, hw, hacc⟩
    · rintro ⟨q, hq, hw, hacc⟩
      exact ⟨Nat.zero_le _, hw, q, hq, hacc⟩
  | succ k =>
    rw [if_neg (Nat.succ_ne_zero k)]
    simp only [List.mem_singleton, exists_eq_left]
    rw [Remainder.Takes, Remainder.Takes, hwithin, List.length_cons, Nat.add_sub_cancel, Nat.add_le_add_iff_right,
      List.drop_succ_cons]

theorem takes_nil (ci : Bool) (p : Remainder) : p.Takes ci [] ↔ p.atEnd ci = true := by
  unfold Remainder.Takes Remainder.atEnd
  rw [Bool.and_eq_true, beq_iff_eq, List.drop_nil]
  exact ⟨fun h => ⟨Nat.le_zero.1 h.1, h.2.2⟩, fun h => ⟨h.1.le, fun _ _ => Nat.zero_le _, h.2⟩⟩

/-! ## All the remainders of a pattern -/

def follow : List GlobToken → List (List GlobToken)
  | [] => [[]]
  | token :: ts =>
    (token :: ts) :: ((if token = .deepDir then [.deep :: .literal slash :: ts, .literal slash :: ts] else []) ++ follow ts)

def remainders (ts : List GlobToken) : List Remainder :=
  (follow ts).flatMap (fun us => (List.range 4).flatMap (fun skip =>
    [none, some 0, some 1, some 2].map (fun within => ⟨skip, within, us⟩)))

/-- A remainder with few letters to skip, and few to come where there is a bound. -/
def Remainder.Among (tails : List (List GlobToken)) (p : Remainder) : Prop :=
  p.tokens ∈ tails ∧ p.skip ≤ 3 ∧ ∀ n ∈ p.within, n ≤ 2

theorem mem_remainders {ts : List GlobToken} {p : Remainder} : p ∈ remainders ts ↔ p.Among (follow ts) := by
  obtain ⟨skip, within, us⟩ := p
  unfold remainders Remainder.Among
  simp only [List.mem_flatMap, List.mem_range, List.mem_map, Remainder.mk.injEq]
  have hwithin : within ∈ [none, some 0, some 1, some 2] ↔ ∀ n ∈ within, n ≤ 2 := by
    cases within with
    | none => simp
    | some n =>
      simp only [List.mem_cons, reduceCtorEq, Option.some.injEq, List.not_mem_nil, Option.mem_def, forall_eq', or_false,
        false_or]
      omega
  rw [← hwithin]
  constructor
  · rintro ⟨_, hus, _, hskip, _, hmem, rfl, rfl, rfl⟩
    exact ⟨hus, by omega, hmem⟩
  · rintro ⟨hus, hskip, hmem⟩
    exact ⟨us, hus, skip, by omega, within, hmem, rfl, rfl, rfl⟩

theorem mem_follow_self (ts : List GlobToken) : ts ∈ follow ts := by
  cases ts with
  | nil => exact List.mem_singleton.2 rfl
  | cons token ts => exact List.mem_cons_self

theorem mem_follow_cons {us ts : List GlobToken} (token : GlobToken) (h : us ∈ follow ts) : us ∈ follow (token :: ts) :=
  List.mem_cons_of_mem _ (List.mem_append_right _ h)

theorem follow_trans : ∀ {ts us vs : List GlobToken}, us ∈ follow ts → vs ∈ follow us → vs ∈ follow ts
  | [], us, vs, hus, hvs => by rwa [List.mem_singleton.1 hus] at hvs
  | token :: ts, us, vs, hus, hvs => by
    rcases List.mem_cons.1 hus with rfl | hus
    · exact hvs
    rcases List.mem_append.1 hus with hus | hus
    · split at hus
      · rename_i hdir
        -- the slash of a `**/`, and what it is after
        have hslash : vs ∈ follow (.literal slash :: ts) → vs ∈ follow (token :: ts) := fun h => by
          rcases List.mem_cons.1 h with rfl | h
          · rw [follow, if_pos hdir]
            exact List.mem_cons_of_mem _ (List.mem_cons_of_mem _ List.mem_cons_self)
          · rw [if_neg (by decide), List.nil_append] at h
            exact mem_follow_cons token h
        rcases List.mem_cons.1 hus with rfl | hus
        · rcases List.mem_cons.1 hvs with rfl | hvs
          · rw [follow, if_pos hdir]
            exact List.mem_cons_of_mem _ List.mem_cons_self
          · rw [if_neg (by decide), List.nil_append] at hvs
            exact hslash hvs
        · rw [List.mem_singleton.1 hus] at hvs
          exact hslash hvs
      · exact nomatch hus
    · exact mem_follow_cons token (follow_trans hus hvs)

theorem Remainder.Among.mono {ts us : List (List GlobToken)} {p : Remainder} (h : p.Among ts)
    (hsub : ∀ vs ∈ ts, vs ∈ us) : p.Among us := ⟨hsub _ h.1, h.2⟩

theorem among_plain {tails : List (List GlobToken)} {ts : List GlobToken} (h : ts ∈ tails) :
    Remainder.Among tails ⟨0, none, ts⟩ := ⟨h, Nat.zero_le 3, fun _ hn => nomatch hn⟩

theorem letterSteps_among (ci : Bool) (b : UInt8) : ∀ ts, ∀ q ∈ letterSteps ci b ts, q.Among (follow ts)
  | [], _, h => nomatch h
  | token :: ts, q, h => by
    have htail : ts ∈ follow (token :: ts) := mem_follow_cons token (mem_follow_self ts)
    have hone : ∀ {c : Prop} [Decidable c], q ∈ (if c then [⟨0, none, ts⟩] else [] : List Remainder) →
        q.Among (follow (token :: ts)) := by
      intro c _ hq
      split at hq
      · rw [List.mem_singleton.1 hq]
        exact among_plain htail
      · exact nomatch hq
    have hrest : q ∈ letterSteps ci b ts → q.Among (follow (token :: ts)) := fun hq =>
      (letterSteps_among ci b ts q hq).mono (fun _ hvs => mem_follow_cons token hvs)
    cases token with
    | literal c => exact hone h
    | charClass body => exact hone h
    | star =>
      rcases List.mem_append.1 h with h | h
      · split at h
        · exact nomatch h
        · rw [List.mem_singleton.1 h]
          exact among_plain (mem_follow_self _)
      · exact hrest h
    | deep =>
      rcases List.mem_cons.1 h with rfl | h
      · exact among_plain (mem_follow_self _)
      · exact hrest h
    | deepDir =>
      rcases List.mem_cons.1 h with rfl | h
      · refine among_plain ?_
        rw [follow, if_pos rfl]
        exact List.mem_cons_of_mem _ List.mem_cons_self
      · exact (List.mem_append.1 h).elim hone hrest
    | anyChar =>
      have hlen := (utf8CharLen_mem b).2
      rw [letterSteps] at h
      split at h
      · exact nomatch h
      rcases List.mem_cons.1 h with rfl | h
      · exact ⟨htail, by dsimp only; omega, fun _ hn => nomatch hn⟩
      · split at h
        · exact nomatch h
        · rw [List.mem_singleton.1 h]
          refine ⟨htail, Nat.zero_le 3, fun n hn => ?_⟩
          rw [← Option.some.inj hn]
          omega

theorem step_among {ci : Bool} {b : UInt8} {ts : List GlobToken} {p : Remainder} (h : p.Among (follow ts)) :
    ∀ q ∈ p.step ci b, q.Among (follow ts) := by
  intro q hq
  have hwithin : ∀ n ∈ p.within.map (· - 1), n ≤ 2 := by
    intro n hn
    obtain ⟨m, hm, rfl⟩ := Option.map_eq_some_iff.1 hn
    have := h.2.2 m hm
    omega
  unfold Remainder.step at hq
  dsimp only at hq
  generalize p.within.map (· - 1) = w at hq hwithin
  split at hq
  · exact nomatch hq
  split at hq
  · obtain ⟨r, hr, rfl⟩ := List.mem_map.1 hq
    have hr := (letterSteps_among ci b p.tokens r hr).mono (fun _ hvs => follow_trans h.1 hvs)
    cases w with
    | none => exact hr
    | some n =>
      refine ⟨hr.1, hr.2.1, fun m hm => ?_⟩
      have hn := hwithin n rfl
      rw [← Option.some.inj hm]
      cases r.within with
      | none => exact hn
      | some k => exact (min_le_left n k).trans hn
  · rw [List.mem_singleton.1 hq]
    have := h.2.1
    exact ⟨h.1, by dsimp only; omega, hwithin⟩

/-- **The remainders of a pattern are an automaton.** -/
theorem steps_remainders (ci : Bool) (ts : List GlobToken) :
    Inclusion.Steps (fun b => Remainder.step ci b) (Remainder.atEnd ci) (remainders ts) (Remainder.Takes ci) where
  atEnd := takes_nil ci
  cons := takes_cons ci
  closed _ hp _ q hq := mem_remainders.2 (step_among (mem_remainders.1 hp) q hq)

end Pergrep.Cli
