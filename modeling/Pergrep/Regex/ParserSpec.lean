import Pergrep.Lib.Throw
import Pergrep.Regex.Denotation
import Pergrep.Regex.Nfa
import Pergrep.Regex.Parser
import Pergrep.Regex.Query
/-!
# ParserSpec — what holds of every tree the parser builds

`Yields x Q`: whenever the parser action `x` succeeds, its answer satisfies `Q`, whatever the state.  A property of trees
that the parser's own ways to build one keep (`BuildRules`) holds of every tree it returns (`parse_builds`): the induction
is on the fuel, over the eight mutually recursive functions at once; what reads bytes but builds no tree yields anything.
The trees are well formed (`parse_wf`), and none that is but a literal is an empty one (`parse_pureLiteral`).
-/
namespace Pergrep

open Throw (bind_ok)

namespace Parser

def Yields {α : Type} (x : P α) (Q : α → Prop) : Prop := ∀ st a st', x st = .ok (a, st') → Q a

theorem Yields.any {α : Type} (x : P α) : Yields x (fun _ => True) := fun _ _ _ _ => trivial

theorem Yields.pure {α : Type} {Q : α → Prop} {a : α} (h : Q a) : Yields (pure a) Q := by
  intro st b st' hr
  cases hr
  exact h

theorem Yields.throw {α : Type} {Q : α → Prop} {e : String} : Yields (throw e) Q := by
  intro st b st' hr
  cases hr

theorem Yields.bind {α β : Type} {x : P α} {f : α → P β} {Q : α → Prop} {R : β → Prop} (hx : Yields x Q)
    (hf : ∀ a, Q a → Yields (f a) R) : Yields (x >>= f) R := by
  intro st b st' hr
  obtain ⟨⟨a, st₁⟩, h1, h2⟩ := bind_ok (x := x st) (f := fun y => f y.1 y.2) hr
  exact hf a (hx st a st₁ h1) st₁ b st' h2

theorem Yields.seq {α β : Type} {x : P α} {f : α → P β} {R : β → Prop} (hf : ∀ a, Yields (f a) R) :
    Yields (x >>= f) R :=
  (Yields.any x).bind (fun a _ => hf a)

theorem Yields.ite {α : Type} {b : Prop} [Decidable b] {x y : P α} {Q : α → Prop} (hx : b → Yields x Q)
    (hy : ¬ b → Yields y Q) : Yields (if b then x else y) Q := by
  split
  · exact hx ‹_›
  · exact hy ‹_›

theorem Yields.fail {α : Type} {Q : α → Prop} {m : String} : Yields (fail m) Q := Yields.seq (fun _ => Yields.throw)

/-! ## What a tree is built from -/

/-- The ways the parser makes a tree keep `Q`. -/
structure BuildRules (Q : RegexNode → Prop) : Prop where
  empty : ∀ f, Q (.empty f)
  assert : ∀ f k, Q (.assert f k)
  dot : ∀ f, Q (.dot f)
  cls : ∀ f spec, Q (.cls f spec)
  backRef : ∀ f g, Q (.backRef f g)
  literal : ∀ f l, l ≠ [] → Q (.literal f l)
  join : ∀ f g a b, Q (.literal f a) → Q (.literal g b) → Q (.literal f (a ++ b))
  alt : ∀ f x xs, (∀ n ∈ x :: xs, Q n) → Q (.alt f (x :: xs))
  concat : ∀ f ns, ns ≠ [] → (∀ n ∈ ns, Q n) → Q (.concat f ns)
  repeat_ : ∀ f mn mx greedy n, mx = sizeMax ∨ mn ≤ mx → Q n → Q (.repeat_ f mn mx greedy n)
  group : ∀ f g name n, Q n → Q (.group f g name n)
  lookAhead : ∀ f negative n, Q n → Q (.lookAhead f negative n)
  lookBehind : ∀ f negative n, Q n → Q (.lookBehind f negative n)

theorem appendUtf8_ne_nil (cp : Nat) : appendUtf8 cp ≠ [] := by
  unfold appendUtf8
  repeat' split
  all_goals exact List.cons_ne_nil _ _

section
variable (icu : Icu) (s : Bytes) {Q : RegexNode → Prop} (hQ : BuildRules Q)
include hQ

/-! ## The leaves -/

theorem charClass_builds : Yields (charClass icu s) Q :=
  Yields.seq (fun _ => Yields.seq (fun _ => Yields.seq (fun _ => Yields.pure (hQ.cls _ _))))

theorem escaped_builds : Yields (escaped icu s) Q := by
  unfold escaped
  refine Yields.seq (fun c => ?_)
  repeat' refine Yields.ite (fun _ => ?_) (fun _ => ?_)
  case _ => exact Yields.seq (fun _ => Yields.seq (fun _ => Yields.pure (hQ.backRef _ _)))
  case _ => exact Yields.seq (fun _ => Yields.pure (hQ.assert _ _))
  case _ => exact Yields.seq (fun _ => Yields.pure (hQ.assert _ _))
  case _ => exact Yields.seq (fun _ => Yields.pure (hQ.assert _ _))
  case _ => exact Yields.seq (fun _ => Yields.pure (hQ.assert _ _))
  case _ => exact Yields.seq (fun _ => Yields.pure (hQ.assert _ _))
  case _ => exact Yields.seq (fun _ => Yields.seq (fun _ => Yields.pure (hQ.cls _ _)))
  case _ => exact Yields.seq (fun _ => Yields.seq (fun _ => Yields.pure (hQ.cls _ _)))
  case _ =>
    have hbyte : ∀ f (b : UInt8), Q (.literal f [b]) := fun f b => hQ.literal f [b] (List.cons_ne_nil b [])
    split
    · exact Yields.seq (fun _ => Yields.pure (hbyte _ _))
    · repeat' refine Yields.ite (fun _ => ?_) (fun _ => ?_)
      · exact Yields.seq (fun _ => Yields.pure (hbyte _ _))
      · exact Yields.seq (fun _ => Yields.seq (fun _ => Yields.pure (hbyte _ _)))
      · exact Yields.fail
      · exact Yields.seq (fun _ => Yields.pure (hbyte _ _))

omit hQ in
theorem quantifier_ordered :
    Yields (quantifier s) (fun q => ∀ mn mx, q = some (mn, mx) → mx = sizeMax ∨ mn ≤ mx) := by
  unfold quantifier
  refine Yields.seq (fun star => Yields.ite (fun _ => Yields.pure ?_) (fun _ => ?_))
  · rintro mn mx ⟨⟩
    exact Or.inl rfl
  refine Yields.seq (fun plus => Yields.ite (fun _ => Yields.pure ?_) (fun _ => ?_))
  · rintro mn mx ⟨⟩
    exact Or.inl rfl
  refine Yields.seq (fun opt => Yields.ite (fun _ => Yields.pure ?_) (fun _ => ?_))
  · rintro mn mx ⟨⟩
    exact Or.inr (Nat.zero_le 1)
  refine Yields.seq (fun brace => Yields.ite (fun _ => ?_) (fun _ => Yields.pure (fun _ _ h => by cases h)))
  refine Yields.seq (fun mn => Yields.seq (fun mx => Yields.seq (fun close => ?_)))
  -- the two checks that end in an error come before the answer
  refine Yields.ite (fun _ => Yields.seq (fun _ => ?_)) (fun _ => ?_)
  all_goals
    refine Yields.ite (fun _ => Yields.bind (Q := fun _ => False) Yields.fail (fun _ h => h.elim)) (fun hord => Yields.pure ?_)
    rintro mn' mx' h
    cases h
    omega

/-! ## Concatenations -/

theorem pushMerged_builds {acc : List RegexNode} {x : RegexNode} (ha : ∀ n ∈ acc, Q n) (hx : Q x) :
    ∀ n ∈ pushMerged acc x, Q n := by
  have hcons : ∀ n ∈ x :: acc, Q n := List.forall_mem_cons.2 ⟨hx, ha⟩
  unfold pushMerged
  split
  · split
    · exact List.forall_mem_cons.2 ⟨hQ.join _ _ _ _ (ha _ List.mem_cons_self) hx, fun n hn => ha n (List.mem_cons_of_mem _ hn)⟩
    · exact hcons
  · exact hcons

theorem mergeLiterals_builds {xs : List RegexNode} (h : ∀ n ∈ xs, Q n) : ∀ n ∈ mergeLiterals xs, Q n := by
  have hfold : ∀ (xs acc : List RegexNode), (∀ n ∈ xs, Q n) → (∀ n ∈ acc, Q n) → ∀ n ∈ xs.foldl pushMerged acc, Q n := by
    intro xs
    induction xs with
    | nil => exact fun _ _ ha => ha
    | cons x xs ih =>
      intro acc hxs ha
      exact ih _ (fun n hn => hxs n (List.mem_cons_of_mem _ hn)) (pushMerged_builds hQ ha (hxs x List.mem_cons_self))
  intro n hn
  exact hfold xs [] h (fun _ hn => absurd hn List.not_mem_nil) n (List.mem_reverse.1 hn)

/-! ## The recursion -/

/-- What the induction carries, for one amount of fuel. -/
structure AllBuild (Q : RegexNode → Prop) (fuel : Nat) : Prop where
  alt : Yields (alt icu s fuel) Q
  altRest : Yields (altRest icu s fuel) (fun xs => ∀ n ∈ xs, Q n)
  concat : Yields (concat icu s fuel) Q
  concatItems : Yields (concatItems icu s fuel) (fun xs => ∀ n ∈ xs, Q n)
  «repeat» : Yields («repeat» icu s fuel) Q
  atom : Yields (atom icu s fuel) Q
  groupBody : Yields (groupBody icu s fuel) Q
  look : ∀ behind negative, Yields (look icu s fuel behind negative) Q
  capture : ∀ name, Yields (capture icu s fuel name) Q

variable {icu s} {fuel : Nat} (h : AllBuild icu s Q fuel)
include h

theorem alt_builds : Yields (alt icu s (fuel + 1)) Q := by
  unfold Parser.alt
  refine h.concat.bind (fun x hx => h.altRest.bind (fun xs hxs => ?_))
  refine Yields.ite (fun _ => Yields.pure hx) (fun _ => Yields.seq (fun f => Yields.pure ?_))
  exact hQ.alt f x xs (List.forall_mem_cons.2 ⟨hx, hxs⟩)

omit hQ in
theorem altRest_builds : Yields (altRest icu s (fuel + 1)) (fun xs => ∀ n ∈ xs, Q n) := by
  unfold Parser.altRest
  refine Yields.seq (fun b => Yields.ite (fun _ => ?_) (fun _ => Yields.pure (fun _ hn => absurd hn List.not_mem_nil)))
  exact h.concat.bind (fun x hx => h.altRest.bind (fun xs hxs => Yields.pure (List.forall_mem_cons.2 ⟨hx, hxs⟩)))

theorem concat_builds : Yields (concat icu s (fuel + 1)) Q := by
  unfold Parser.concat
  refine h.concatItems.bind (fun xs hxs => ?_)
  have hm := mergeLiterals_builds hQ hxs
  split
  · exact Yields.seq (fun f => Yields.pure (hQ.empty f))
  · rename_i y hy
    exact Yields.pure (hm y (by rw [hy]; exact List.mem_singleton_self y))
  · rename_i hne _
    exact Yields.seq (fun f => Yields.pure (hQ.concat f _ hne hm))

omit hQ in
theorem concatItems_builds : Yields (concatItems icu s (fuel + 1)) (fun xs => ∀ n ∈ xs, Q n) := by
  have hnil : ∀ n ∈ ([] : List RegexNode), Q n := fun _ hn => absurd hn List.not_mem_nil
  unfold Parser.concatItems
  refine Yields.seq (fun _ => Yields.seq (fun c => ?_))
  split
  · exact Yields.pure hnil
  · refine Yields.ite (fun _ => Yields.pure hnil) (fun _ => ?_)
    exact h.repeat.bind (fun x hx => h.concatItems.bind (fun xs hxs => Yields.pure (List.forall_mem_cons.2 ⟨hx, hxs⟩)))

theorem repeat_builds : Yields («repeat» icu s (fuel + 1)) Q := by
  unfold Parser.repeat
  refine h.atom.bind (fun a ha => (quantifier_ordered s).bind (fun q hq => ?_))
  split
  · exact Yields.pure ha
  · rename_i mn mx
    refine Yields.seq (fun f => Yields.seq (fun lazy => Yields.seq (fun st => Yields.pure ?_)))
    exact hQ.repeat_ _ _ _ _ _ (hq mn mx rfl) ha

theorem atom_builds : Yields (atom icu s (fuel + 1)) Q := by
  unfold Parser.atom
  refine Yields.seq (fun _ => Yields.ite (fun _ => Yields.seq (fun _ => Yields.pure (hQ.assert _ _))) (fun _ => ?_))
  refine Yields.seq (fun _ => Yields.ite (fun _ => Yields.seq (fun _ => Yields.pure (hQ.assert _ _))) (fun _ => ?_))
  refine Yields.seq (fun _ => Yields.ite (fun _ => Yields.seq (fun _ => Yields.pure (hQ.dot _))) (fun _ => ?_))
  refine Yields.seq (fun _ => Yields.ite (fun _ => charClass_builds icu s hQ) (fun _ => ?_))
  refine Yields.seq (fun _ => Yields.ite (fun _ => h.groupBody) (fun _ => ?_))
  refine Yields.seq (fun _ => Yields.ite (fun _ => escaped_builds icu s hQ) (fun _ => ?_))
  exact Yields.seq (fun cp => Yields.seq (fun f => Yields.pure (hQ.literal _ _ (appendUtf8_ne_nil cp))))

theorem groupBody_builds : Yields (groupBody icu s (fuel + 1)) Q := by
  unfold Parser.groupBody
  refine Yields.seq (fun _ => Yields.ite (fun _ => ?_) (fun _ => h.capture _))
  -- `?P<name>`
  refine Yields.seq (fun _ => Yields.ite (fun _ => Yields.seq (fun _ => Yields.ite
    (fun _ => Yields.seq (fun name => h.capture name)) (fun _ => Yields.fail))) (fun _ => ?_))
  -- `?:`
  refine Yields.seq (fun _ => Yields.ite (fun _ => h.alt.bind (fun x hx => Yields.seq (fun _ => Yields.pure hx)))
    (fun _ => ?_))
  -- `?=` and `?!`
  refine Yields.seq (fun _ => Yields.ite (fun _ => h.look _ _) (fun _ => ?_))
  refine Yields.seq (fun _ => Yields.ite (fun _ => h.look _ _) (fun _ => ?_))
  -- `?<=`, `?<!` and `?<name>`
  refine Yields.seq (fun _ => Yields.ite (fun _ => ?_) (fun _ => ?_))
  · refine Yields.seq (fun _ => Yields.ite (fun _ => h.look _ _) (fun _ => ?_))
    refine Yields.seq (fun _ => Yields.ite (fun _ => h.look _ _) (fun _ => ?_))
    exact Yields.seq (fun name => h.capture name)
  -- inline flags
  · have hflags : ∀ saved : PState, Yields (do
        if ← eat s 0x29 then return .empty (← nodeFlags)
        else if ← eat s 0x3A then
          let x ← alt icu s fuel
          skipIgnored s
          expectClose s "unclosed flagged group"
          modify (fun st => { st with opt := saved.opt, ignoreWs := saved.ignoreWs, swapGreed := saved.swapGreed })
          return x
        else fail "malformed inline flags") Q := by
      intro saved
      refine Yields.seq (fun _ => Yields.ite (fun _ => Yields.seq (fun _ => Yields.pure (hQ.empty _))) (fun _ => ?_))
      refine Yields.seq (fun _ => Yields.ite (fun _ => ?_) (fun _ => Yields.fail))
      exact h.alt.bind (fun x hx => Yields.seq (fun _ => Yields.seq (fun _ => Yields.seq (fun _ => Yields.pure hx))))
    refine Yields.seq (fun saved => Yields.seq (fun seen => Yields.ite (fun _ => Yields.seq (fun _ => ?_)) (fun _ => ?_)))
    · exact hflags saved
    · exact hflags saved

theorem look_builds (behind negative : Bool) : Yields (look icu s (fuel + 1) behind negative) Q := by
  unfold Parser.look
  refine Yields.seq (fun _ => Yields.seq (fun f => h.alt.bind (fun x hx => Yields.seq (fun _ => Yields.pure ?_))))
  cases behind with
  | true  => exact hQ.lookBehind f negative x hx
  | false => exact hQ.lookAhead f negative x hx

theorem capture_builds (name : Bytes) : Yields (capture icu s (fuel + 1) name) Q := by
  unfold Parser.capture
  exact Yields.seq (fun _ => Yields.seq (fun g => Yields.seq (fun f =>
    h.alt.bind (fun x hx => Yields.seq (fun _ => Yields.pure (hQ.group _ _ _ _ hx))))))

omit h

theorem allBuild : ∀ fuel, AllBuild icu s Q fuel
  | 0 => ⟨Yields.throw, Yields.throw, Yields.throw, Yields.throw, Yields.throw, Yields.throw, Yields.throw,
      fun _ _ => Yields.throw, fun _ => Yields.throw⟩
  | fuel + 1 =>
    have h := allBuild fuel
    ⟨alt_builds hQ h, altRest_builds h, concat_builds hQ h, concatItems_builds h, repeat_builds hQ h, atom_builds hQ h,
      groupBody_builds hQ h, look_builds hQ h, capture_builds hQ h⟩

/-- **What the parser's ways to build a tree keep holds of the tree it returns.** -/
theorem parse_builds {opt : PatternOptions} {r : Parsed} (h : parse icu s opt = .ok r) : Q r.ast := by
  unfold parse at h
  obtain ⟨⟨n, st⟩, h1, h2⟩ := bind_ok h
  have hn := (allBuild hQ (parseFuel s.length)).alt _ n st h1
  dsimp only at h2
  split at h2
  · cases h2
  · cases h2
    exact hn

end

/-! ## Two properties of the trees -/

theorem wf_rules : BuildRules (fun n => n.wf = true) where
  empty := fun _ => rfl
  assert := fun _ _ => rfl
  dot := fun _ => rfl
  cls := fun _ _ => rfl
  backRef := fun _ _ => rfl
  literal := fun _ _ _ => rfl
  join := fun _ _ _ _ _ _ => rfl
  alt := fun f x xs h => by
    rw [RegexNode.wf, List.isEmpty_cons, Bool.not_false, Bool.true_and, RegexNode.wfAll_iff]
    exact h
  concat := fun f ns _ h => by
    rw [RegexNode.wf, RegexNode.wfAll_iff]
    exact h
  repeat_ := fun f mn mx greedy n hord hn => by
    rw [RegexNode.wf, hn, Bool.and_true, Bool.or_eq_true, decide_eq_true_eq, decide_eq_true_eq]
    exact hord
  group := fun _ _ _ _ h => h
  lookAhead := fun _ _ _ h => h
  lookBehind := fun _ _ _ h => h

theorem pureLiteral_rules : BuildRules (fun n => queryIsPureLiteral n ≠ some []) where
  empty := fun _ h => by cases h
  assert := fun _ _ h => by cases h
  dot := fun _ h => by cases h
  cls := fun _ _ h => by cases h
  backRef := fun _ _ h => by cases h
  literal := fun f l hl h => by
    rw [queryIsPureLiteral] at h
    split at h
    · exact hl (Option.some.inj h)
    · cases h
  join := fun f g a b ha _ h => by
    rw [queryIsPureLiteral] at h ha
    split at h
    · rename_i hf
      rw [if_pos hf] at ha
      exact ha (congrArg some (List.append_eq_nil_iff.1 (Option.some.inj h)).1)
    · cases h
  alt := fun _ _ _ _ h => by cases h
  concat := fun f ns hne hns h => by
    rw [queryIsPureLiteral] at h
    obtain ⟨c, cs, rfl⟩ := List.exists_cons_of_ne_nil hne
    rw [queryIsPureLiteralAll] at h
    split at h
    · cases h
    · rename_i sub hsub
      obtain ⟨rest, -, hrest⟩ := Option.map_eq_some_iff.1 h
      rw [(List.append_eq_nil_iff.1 hrest).1] at hsub
      exact hns c List.mem_cons_self hsub
  repeat_ := fun _ _ _ _ _ _ _ h => by cases h
  group := fun _ _ _ _ h => h
  lookAhead := fun _ _ _ _ h => by cases h
  lookBehind := fun _ _ _ _ h => by cases h

variable {icu : Icu} {s : Bytes} {opt : PatternOptions} {r : Parsed}

/-- **A tree the parser returns is well formed.** -/
theorem parse_wf (h : parse icu s opt = .ok r) : r.ast.wf = true := parse_builds wf_rules h

/-- **A pattern that is but a literal is not an empty one.** -/
theorem parse_pureLiteral (h : parse icu s opt = .ok r) : queryIsPureLiteral r.ast ≠ some [] :=
  parse_builds pureLiteral_rules h

end Parser
end Pergrep
