import Mathlib.Data.Finset.Prod
import Mathlib.Data.Fintype.Card
import Mathlib.Data.List.Sublists
import Mathlib.Logic.Relation
/-!
# Inclusion — whether one automaton accepts all that another does

`allGood` goes through what can be reached by `next` and asks of each state whether it is good; with more steps than there
are states it answers for all that can be reached (`allGood_iff`).

The automaton asked about has many states at once, and `after` lists those a letter leads to; the other one is in one state
at a time.  A search through the pairs of both decides whether the first accepts every text the second does
(`includes_iff`), since there are but finitely many sets of states.
-/
namespace Inclusion

/-! ## What can be reached -/

section
variable {σ : Type*} [DecidableEq σ] (next : σ → List σ) (good : σ → Bool)

/-- Looks at `n` states at most, of those in `todo` and what can be reached from them, but for the ones in `seen`. -/
def allGood : Nat → List σ → List σ → Bool
  | 0, _, _ => false
  | n + 1, todo, seen =>
    match todo.find? (fun s => !seen.contains s) with
    | none => true
    | some s => good s && allGood n (next s ++ todo) (s :: seen)

def Reaches : σ → σ → Prop := Relation.ReflTransGen (fun s t => t ∈ next s)

variable {next good}

/-- What has been seen is good, and leads to what has been seen or is to be looked at. -/
structure Sound (next : σ → List σ) (good : σ → Bool) (todo seen : List σ) : Prop where
  good : ∀ s ∈ seen, good s = true
  next : ∀ s ∈ seen, ∀ t ∈ next s, t ∈ seen ∨ t ∈ todo

omit [DecidableEq σ] in
theorem Sound.step {todo seen : List σ} {s : σ} (h : Sound next good todo seen) (hs : good s = true) :
    Sound next good (next s ++ todo) (s :: seen) where
  good t ht := by
    rcases List.mem_cons.1 ht with rfl | ht
    · exact hs
    · exact h.good t ht
  next t ht u hu := by
    rcases List.mem_cons.1 ht with rfl | ht
    · exact Or.inr (List.mem_append_left _ hu)
    · exact (h.next t ht u hu).imp (List.mem_cons_of_mem _) (List.mem_append_right _)

theorem good_of_allGood : ∀ {n : Nat} {todo seen : List σ}, Sound next good todo seen → allGood next good n todo seen = true →
    ∀ s ∈ todo, ∀ t, Reaches next s t → good t = true
  | 0, _, _, _, h => nomatch h
  | n + 1, todo, seen, hsound, h => by
    rw [allGood] at h
    cases hfind : todo.find? (fun s => !seen.contains s) with
    | none =>
      have hseen : ∀ s ∈ todo, s ∈ seen := fun s hs => by
        have := List.find?_eq_none.1 hfind s hs
        rwa [Bool.not_eq_true', Bool.not_eq_false, List.contains_iff_mem] at this
      -- what has been seen is closed
      have hclosed : ∀ s t, s ∈ seen → Reaches next s t → t ∈ seen := by
        intro s t hs hreach
        induction hreach with
        | refl => exact hs
        | tail _ hstep ih => exact (hsound.next _ ih _ hstep).elim id (hseen _)
      exact fun s hs t hreach => hsound.good t (hclosed s t (hseen s hs) hreach)
    | some s =>
      rw [hfind] at h
      obtain ⟨hgood, h⟩ := Bool.and_eq_true_iff.1 h
      exact fun t ht => good_of_allGood (hsound.step hgood) h t (List.mem_append_right _ ht)

theorem allGood_of_good {U : Finset σ} (hU : ∀ s ∈ U, ∀ t ∈ next s, t ∈ U) : ∀ {n : Nat} {todo seen : List σ},
    (U \ seen.toFinset).card < n → (∀ s ∈ todo, s ∈ U) → (∀ s ∈ todo, ∀ t, Reaches next s t → good t = true) →
    allGood next good n todo seen = true
  | 0, _, _, hn, _, _ => nomatch hn
  | n + 1, todo, seen, hn, htodo, h => by
    rw [allGood]
    cases hfind : todo.find? (fun s => !seen.contains s) with
    | none => rfl
    | some s =>
      have hs := List.mem_of_find?_eq_some hfind
      have hnew := List.find?_some hfind
      rw [Bool.not_eq_true', ← Bool.not_eq_true, List.contains_iff_mem] at hnew
      have hfewer : (U \ (s :: seen).toFinset).card < (U \ seen.toFinset).card := by
        refine Finset.card_lt_card ⟨Finset.sdiff_subset_sdiff (le_refl U) ?_, fun hsub => ?_⟩
        · exact fun t ht => List.mem_toFinset.2 (List.mem_cons_of_mem s (List.mem_toFinset.1 ht))
        · have hmem := hsub (Finset.mem_sdiff.2 ⟨htodo s hs, fun hin => hnew (List.mem_toFinset.1 hin)⟩)
          exact (Finset.mem_sdiff.1 hmem).2 (List.mem_toFinset.2 List.mem_cons_self)
      refine Bool.and_eq_true_iff.2 ⟨h s hs s Relation.ReflTransGen.refl, ?_⟩
      refine allGood_of_good hU (by omega) (fun t ht => ?_) (fun t ht u hreach => ?_)
      · rcases List.mem_append.1 ht with ht | ht
        · exact hU s (htodo s hs) t ht
        · exact htodo t ht
      · rcases List.mem_append.1 ht with ht | ht
        · exact h s hs u (Relation.ReflTransGen.head ht hreach)
        · exact h t ht u hreach

/-- **The search answers for all that can be reached** when it may look at more states than there are. -/
theorem allGood_iff {U : Finset σ} (hU : ∀ s ∈ U, ∀ t ∈ next s, t ∈ U) {n : Nat} (hn : U.card < n) {s : σ} (hs : s ∈ U) :
    allGood next good n [s] [] = true ↔ ∀ t, Reaches next s t → good t = true := by
  constructor
  · have hsound : Sound next good [s] [] :=
      ⟨fun _ hmem => absurd hmem List.not_mem_nil, fun _ hmem => absurd hmem List.not_mem_nil⟩
    exact fun h => good_of_allGood hsound h s (List.mem_singleton.2 rfl)
  · intro h
    refine allGood_of_good hU ?_ (fun t ht => ?_) (fun t ht => ?_)
    · rwa [List.toFinset_nil, Finset.sdiff_empty]
    · rwa [List.mem_singleton.1 ht]
    · rwa [List.mem_singleton.1 ht]
end

/-! ## Two automata -/

section
variable {σ κ α : Type*} [DecidableEq σ]

/-- The states a letter leads to from those in `S`, in the order of `all`. -/
def after (step : α → σ → List σ) (all S : List σ) (a : α) : List σ :=
  let reached := S.flatMap (step a)
  all.filter (fun q => reached.contains q)

/-- The automaton that is in one state at a time accepts a text. -/
def admits (walk : κ → α → Option κ) (final : κ → Bool) : κ → List α → Bool
  | k, [] => final k
  | k, a :: t => (walk k a).any (fun k' => admits walk final k' t)

variable (walk : κ → α → Option κ) (final : κ → Bool) (step : α → σ → List σ) (atEnd : σ → Bool) (letters : List α)
  (all : List σ)

def pairNext (p : κ × List σ) : List (κ × List σ) :=
  letters.filterMap (fun a => (walk p.1 a).map (fun k => (k, after step all p.2 a)))

def pairGood (p : κ × List σ) : Bool := !final p.1 || p.2.any atEnd

/-- Whether the states in `S` accept all that is admitted from `k`. -/
def includes [DecidableEq κ] (n : Nat) (k : κ) (S : List σ) : Bool :=
  allGood (pairNext walk step letters all) (pairGood final atEnd) n [(k, S)] []

variable {walk final step atEnd letters all} {Takes : σ → List α → Prop}

/-- `Takes` is what the automaton with these steps accepts, and `all` are its states. -/
structure Steps (step : α → σ → List σ) (atEnd : σ → Bool) (all : List σ) (Takes : σ → List α → Prop) : Prop where
  atEnd : ∀ p, Takes p [] ↔ atEnd p = true
  cons : ∀ p a t, Takes p (a :: t) ↔ ∃ q ∈ step a p, Takes q t
  closed : ∀ p ∈ all, ∀ a, ∀ q ∈ step a p, q ∈ all

theorem mem_after {S : List σ} {a : α} {q : σ} : q ∈ after step all S a ↔ q ∈ all ∧ ∃ p ∈ S, q ∈ step a p := by
  unfold after
  dsimp only
  rw [List.mem_filter, List.contains_iff_mem, List.mem_flatMap]

theorem after_sublist (S : List σ) (a : α) : (after step all S a).Sublist all := List.filter_sublist

/-- **One letter**: what the states take is what those it leads to take after it. -/
theorem Steps.takes_after (h : Steps step atEnd all Takes) {S : List σ} (hS : ∀ p ∈ S, p ∈ all) (a : α) (t : List α) :
    (∃ q ∈ after step all S a, Takes q t) ↔ ∃ p ∈ S, Takes p (a :: t) := by
  constructor
  · rintro ⟨q, hq, ht⟩
    obtain ⟨-, p, hp, hstep⟩ := mem_after.1 hq
    exact ⟨p, hp, (h.cons p a t).2 ⟨q, hstep, ht⟩⟩
  · rintro ⟨p, hp, ht⟩
    obtain ⟨q, hstep, ht⟩ := (h.cons p a t).1 ht
    exact ⟨q, mem_after.2 ⟨h.closed p (hS p hp) a q hstep, p, hp, hstep⟩, ht⟩

theorem Steps.takes_foldl (h : Steps step atEnd all Takes) (t : List α) : ∀ (xs : List α) {S : List σ}, (∀ p ∈ S, p ∈ all) →
    ((∃ q ∈ xs.foldl (after step all) S, Takes q t) ↔ ∃ p ∈ S, Takes p (xs ++ t))
  | [], _, _ => Iff.rfl
  | a :: xs, S, hS => by
    rw [List.foldl_cons, h.takes_foldl t xs (fun p hp => (mem_after.1 hp).1), h.takes_after hS]
    rfl

theorem mem_pairNext (hletters : ∀ a, a ∈ letters) {k k' : κ} {S S' : List σ} :
    (k', S') ∈ pairNext walk step letters all (k, S) ↔ ∃ a, walk k a = some k' ∧ S' = after step all S a := by
  unfold pairNext
  rw [List.mem_filterMap]
  constructor
  · rintro ⟨a, -, ha⟩
    obtain ⟨k'', hwalk, hpair⟩ := Option.map_eq_some_iff.1 ha
    obtain ⟨rfl, rfl⟩ := Prod.mk.inj hpair
    exact ⟨a, hwalk, rfl⟩
  · rintro ⟨a, hwalk, rfl⟩
    exact ⟨a, hletters a, by rw [hwalk]; rfl⟩

omit [DecidableEq σ] in
theorem pairGood_iff (h : Steps step atEnd all Takes) (k : κ) (S : List σ) :
    pairGood final atEnd (k, S) = true ↔ (final k = true → ∃ p ∈ S, Takes p []) := by
  unfold pairGood
  rw [Bool.or_eq_true, Bool.not_eq_true', List.any_eq_true, ← Bool.not_eq_true, ← imp_iff_not_or]
  refine imp_congr_right (fun _ => exists_congr (fun p => and_congr_right (fun _ => ?_)))
  exact (h.atEnd p).symm

/-- **All that is admitted is taken** when every pair that can be reached is good. -/
theorem takes_iff_good (h : Steps step atEnd all Takes) (hletters : ∀ a, a ∈ letters) {k : κ} {S : List σ}
    (hS : ∀ p ∈ S, p ∈ all) : (∀ x, admits walk final k x = true → ∃ p ∈ S, Takes p x) ↔
      ∀ q, Reaches (pairNext walk step letters all) (k, S) q → pairGood final atEnd q = true := by
  constructor
  · intro htakes q hreach
    generalize hp : (k, S) = p at hreach
    induction hreach using Relation.ReflTransGen.head_induction_on generalizing k S with
    | refl =>
      subst hp
      exact (pairGood_iff h k S).2 (htakes [])
    | @head p r hstep hrest ih =>
      subst hp
      obtain ⟨k', S'⟩ := r
      obtain ⟨a, hwalk, rfl⟩ := (mem_pairNext hletters).1 hstep
      refine ih (fun p hp => (mem_after.1 hp).1) (fun x hx => ?_) rfl
      refine (h.takes_after hS a x).2 (htakes (a :: x) ?_)
      rw [admits, hwalk]
      exact hx
  · intro hgood x hx
    induction x generalizing k S with
    | nil => exact (pairGood_iff h k S).1 (hgood _ Relation.ReflTransGen.refl) hx
    | cons a x ih =>
      rw [admits, Option.any_eq_true] at hx
      obtain ⟨k', hwalk, hx⟩ := hx
      have hstep : (k', after step all S a) ∈ pairNext walk step letters all (k, S) :=
        (mem_pairNext hletters).2 ⟨a, hwalk, rfl⟩
      refine (h.takes_after hS a x).1 (ih (fun p hp => (mem_after.1 hp).1) (fun q hreach => ?_) hx)
      exact hgood q (Relation.ReflTransGen.head hstep hreach)

/-- **Whether one automaton accepts all that the other does**, for states in the order of `all`. -/
theorem includes_iff [DecidableEq κ] [Fintype κ] (h : Steps step atEnd all Takes) (hletters : ∀ a, a ∈ letters) {n : Nat}
    (hn : Fintype.card κ * 2 ^ all.length < n) (k : κ) {S : List σ} (hS : S.Sublist all) :
    includes walk final step atEnd letters all n k S = true ↔
      ∀ x, admits walk final k x = true → ∃ p ∈ S, Takes p x := by
  rw [takes_iff_good h hletters (fun p hp => hS.subset hp)]
  refine allGood_iff (U := Finset.univ ×ˢ all.sublists.toFinset) ?_ (lt_of_le_of_lt ?_ hn) ?_
  · rintro ⟨k, S⟩ - ⟨k', S'⟩ hstep
    obtain ⟨a, -, rfl⟩ := (mem_pairNext hletters).1 hstep
    exact Finset.mem_product.2 ⟨Finset.mem_univ _, List.mem_toFinset.2 (List.mem_sublists.2 (after_sublist S a))⟩
  · rw [Finset.card_product, Finset.card_univ, ← List.length_sublists]
    exact Nat.mul_le_mul_left _ (List.toFinset_card_le _)
  · exact Finset.mem_product.2 ⟨Finset.mem_univ _, List.mem_toFinset.2 (List.mem_sublists.2 hS)⟩
end

end Inclusion
