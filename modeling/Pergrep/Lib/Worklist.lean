import Mathlib.Data.List.Basic
import Mathlib.Data.List.Nodup
import Mathlib.Data.Set.Insert
import Mathlib.Logic.Relation
import Mathlib.Tactic.Common
/-!
# Worklist — depth-first expansion with a store of visited marks

A task has a key, a number below a bound; `next` says what a task becomes: `none` for a task that is answered as it
is (a leaf), or the tasks to expand in its place, first one first.  `run` pops tasks off a stack, drops the ones with
no key or a marked key, and marks the others.

`Explores` is the run as a relation on the set of marked keys.  Its rules: `Explores.closed` (what is marked at the
end is closed under expansion), `Explores.sound` and `Explores.marks` (what is marked and what is answered), and
`Explores.filter` — expanding under marks that are closed answers what an expansion from no marks answers, less the
leaves that were marked.
-/
namespace Worklist

section run
variable {τ σ : Type*} (key : τ → Option Nat) (next : τ → Option (List τ)) (seen : σ → Nat → Bool)
  (mark : σ → Nat → σ)

def run : Nat → List τ → σ → List τ → σ × List τ
  | 0, _, s, out => (s, out)
  | _ + 1, [], s, out => (s, out)
  | fuel + 1, t :: ts, s, out =>
    match key t with
    | none => run fuel ts s out
    | some k =>
      if seen s k then run fuel ts s out
      else
        match next t with
        | none    => run fuel ts (mark s k) (out ++ [t])
        | some us => run fuel (us ++ ts) (mark s k) out

end run

/-- **An expansion of renamed tasks** is the renamed expansion. -/
theorem run_map {τ τ' σ : Type*} {key : τ → Option Nat} {key' : τ' → Option Nat} {next : τ → Option (List τ)}
    {next' : τ' → Option (List τ')} {seen : σ → Nat → Bool} {mark : σ → Nat → σ} {f : τ → τ'}
    (hkey : ∀ t, key' (f t) = key t) (hnext : ∀ t, next' (f t) = (next t).map (List.map f)) :
    ∀ (fuel : Nat) (stack : List τ) (s : σ) (out : List τ),
      run key' next' seen mark fuel (stack.map f) s (out.map f) =
        ((run key next seen mark fuel stack s out).1, (run key next seen mark fuel stack s out).2.map f)
  | 0, _, _, _ => rfl
  | _ + 1, [], _, _ => rfl
  | fuel + 1, t :: ts, s, out => by
    rw [List.map_cons, run, run, hkey, hnext]
    cases key t with
    | none => exact run_map hkey hnext fuel ts s out
    | some k =>
      dsimp only
      split
      · exact run_map hkey hnext fuel ts s out
      · cases next t with
        | none =>
          have ih := @run_map _ _ _ key key' next next' seen mark f hkey hnext fuel ts (mark s k) (out ++ [t])
          rw [List.map_append] at ih
          exact ih
        | some us =>
          have ih := @run_map _ _ _ key key' next next' seen mark f hkey hnext fuel (us ++ ts) (mark s k) out
          rw [List.map_append] at ih
          exact ih

/-- **What an expansion keeps** of the stack it keeps of the answer. -/
theorem run_forall {τ σ : Type*} {key : τ → Option Nat} {next : τ → Option (List τ)} {seen : σ → Nat → Bool}
    {mark : σ → Nat → σ} {P : τ → Prop} (hnext : ∀ t us, P t → next t = some us → ∀ u ∈ us, P u) :
    ∀ {fuel : Nat} {stack : List τ} {s : σ} {out : List τ}, (∀ t ∈ stack, P t) → (∀ t ∈ out, P t) →
      ∀ t ∈ (run key next seen mark fuel stack s out).2, P t
  | 0, _, _, _, _, hout => hout
  | _ + 1, [], _, _, _, hout => hout
  | fuel + 1, t :: ts, s, out, hstack, hout => by
    obtain ⟨ht, hts⟩ := List.forall_mem_cons.1 hstack
    rw [run]
    split
    · exact run_forall hnext hts hout
    split
    · exact run_forall hnext hts hout
    split
    · refine run_forall hnext hts (fun u hu => ?_)
      rcases List.mem_append.1 hu with hu | hu
      · exact hout u hu
      · rw [List.mem_singleton.1 hu]
        exact ht
    · rename_i us hus
      refine run_forall hnext (fun u hu => ?_) hout
      rcases List.mem_append.1 hu with hu | hu
      · exact hnext t us ht hus u hu
      · exact hts u hu

variable {τ : Type*} {key : τ → Option Nat} {next : τ → Option (List τ)}

/-- One run of the loop: from the marked keys `V` and a stack to the marked keys at the end and the answer. -/
inductive Explores (key : τ → Option Nat) (next : τ → Option (List τ)) : Set Nat → List τ → Set Nat → List τ → Prop
  | nil {V} : Explores key next V [] V []
  | drop {V t ts V' out} : key t = none → Explores key next V ts V' out → Explores key next V (t :: ts) V' out
  | skip {V t k ts V' out} : key t = some k → k ∈ V → Explores key next V ts V' out →
      Explores key next V (t :: ts) V' out
  | leaf {V t k ts V' out} : key t = some k → k ∉ V → next t = none → Explores key next (insert k V) ts V' out →
      Explores key next V (t :: ts) V' (t :: out)
  | node {V t k us ts V' out} : key t = some k → k ∉ V → next t = some us →
      Explores key next (insert k V) (us ++ ts) V' out → Explores key next V (t :: ts) V' out

/-- `t`, which has a key, expands to `u` in one step. -/
def Child (key : τ → Option Nat) (next : τ → Option (List τ)) (t u : τ) : Prop :=
  (∃ k, key t = some k) ∧ ∃ us, next t = some us ∧ u ∈ us

/-! ## The loop runs the relation -/

def unmarked {σ : Type*} (seen : σ → Nat → Bool) (n : Nat) (s : σ) : Nat :=
  ((List.range n).filter (fun k => !seen s k)).length

theorem unmarked_mark {σ : Type*} {seen : σ → Nat → Bool} {n : Nat} {s s' : σ} {k : Nat} (hk : k < n)
    (hnew : seen s k = false) (hs : ∀ j, seen s' j = true ↔ j = k ∨ seen s j = true) :
    unmarked seen n s' + 1 ≤ unmarked seen n s := by
  unfold unmarked
  have hmem : k ∈ (List.range n).filter (fun j => !seen s j) := by
    simp [hk, hnew]
  have hfil : (List.range n).filter (fun j => !seen s' j) = ((List.range n).filter (fun j => !seen s j)).erase k := by
    rw [List.Nodup.erase_eq_filter (List.nodup_range.filter _), List.filter_filter]
    refine List.filter_congr (fun j _ => ?_)
    rw [Bool.eq_iff_iff]
    simp only [Bool.not_eq_true', Bool.and_eq_true, bne_iff_ne, ne_eq]
    rw [← Bool.not_eq_true, hs, ← Bool.not_eq_true]
    tauto
  rw [hfil, List.length_erase_of_mem hmem]
  have := List.length_pos_of_mem hmem
  omega

theorem unmarked_le {σ : Type*} (seen : σ → Nat → Bool) (n : Nat) (s : σ) : unmarked seen n s ≤ n := by
  unfold unmarked
  exact le_trans (List.length_filter_le _ _) (by simp)

variable (key next) in
/-- **With fuel for every pop the loop runs `Explores`**, when a task expands to at most two. -/
theorem run_explores {σ : Type*} (seen : σ → Nat → Bool) (mark : σ → Nat → σ) (Ok : σ → Prop) {n : Nat}
    (hkey : ∀ t k, key t = some k → k < n)
    (hmark : ∀ s k, Ok s → k < n → Ok (mark s k) ∧ ∀ j, seen (mark s k) j = true ↔ j = k ∨ seen s j = true)
    (hnext : ∀ t us, next t = some us → us.length ≤ 2) :
    ∀ (fuel : Nat) (stack : List τ) (s : σ) (out : List τ), Ok s →
      stack.length + 2 * unmarked seen n s < fuel →
      ∃ out', (run key next seen mark fuel stack s out).2 = out ++ out' ∧
        Ok (run key next seen mark fuel stack s out).1 ∧
        Explores key next {k | seen s k = true} stack
          {k | seen (run key next seen mark fuel stack s out).1 k = true} out'
  | 0, _, _, _, _, h => absurd h (Nat.not_lt_zero _)
  | fuel + 1, [], s, out, hok, _ => ⟨[], by simp [run], by simpa [run] using hok, by simpa [run] using Explores.nil⟩
  | fuel + 1, t :: ts, s, out, hok, h => by
    simp only [List.length_cons] at h
    cases hk : key t with
    | none =>
      obtain ⟨out', h1, h2, h3⟩ := run_explores seen mark Ok hkey hmark hnext fuel ts s out hok (by omega)
      refine ⟨out', ?_, ?_, ?_⟩ <;> simp only [run, hk]
      · exact h1
      · exact h2
      · exact .drop hk h3
    | some k =>
      cases hs : seen s k with
      | true =>
        obtain ⟨out', h1, h2, h3⟩ := run_explores seen mark Ok hkey hmark hnext fuel ts s out hok (by omega)
        refine ⟨out', ?_, ?_, ?_⟩ <;> simp only [run, hk, hs, if_true]
        · exact h1
        · exact h2
        · exact .skip hk hs h3
      | false =>
        have hkn := hkey t k hk
        obtain ⟨hok', hj⟩ := hmark s k hok hkn
        have hun := unmarked_mark hkn hs hj
        have hset : {j | seen (mark s k) j = true} = insert k {j | seen s j = true} := by
          ext j
          simp only [Set.mem_ofPred_eq, Set.mem_insert_iff, hj]
        have hnot : k ∉ {j | seen s j = true} := by simp [hs]
        cases hn : next t with
        | none =>
          obtain ⟨out', h1, h2, h3⟩ :=
            run_explores seen mark Ok hkey hmark hnext fuel ts (mark s k) (out ++ [t]) hok' (by omega)
          rw [hset] at h3
          refine ⟨t :: out', ?_, ?_, ?_⟩ <;> simp only [run, hk, hs, hn, Bool.false_eq_true, if_false]
          · rw [h1, List.append_assoc, List.singleton_append]
          · exact h2
          · exact .leaf hk hnot hn h3
        | some us =>
          have hle := hnext t us hn
          obtain ⟨out', h1, h2, h3⟩ := run_explores seen mark Ok hkey hmark hnext fuel (us ++ ts) (mark s k) out hok'
            (by rw [List.length_append]; omega)
          rw [hset] at h3
          refine ⟨out', ?_, ?_, ?_⟩ <;> simp only [run, hk, hs, hn, Bool.false_eq_true, if_false]
          · exact h1
          · exact h2
          · exact .node hk hnot hn h3

variable (key next) in
/-- **Fuel for every pop is fuel enough**: two amounts of it give the same run. -/
theorem run_fuel {σ : Type*} (seen : σ → Nat → Bool) (mark : σ → Nat → σ) (Ok : σ → Prop) {n : Nat}
    (hkey : ∀ t k, key t = some k → k < n)
    (hmark : ∀ s k, Ok s → k < n → Ok (mark s k) ∧ ∀ j, seen (mark s k) j = true ↔ j = k ∨ seen s j = true)
    (hnext : ∀ t us, next t = some us → us.length ≤ 2) :
    ∀ (fuel fuel' : Nat) (stack : List τ) (s : σ) (out : List τ), Ok s → stack.length + 2 * unmarked seen n s < fuel →
      stack.length + 2 * unmarked seen n s < fuel' →
        run key next seen mark fuel stack s out = run key next seen mark fuel' stack s out
  | 0, _, _, _, _, _, h, _ => absurd h (Nat.not_lt_zero _)
  | _, 0, _, _, _, _, _, h => absurd h (Nat.not_lt_zero _)
  | _ + 1, _ + 1, [], _, _, _, _, _ => rfl
  | fuel + 1, fuel' + 1, t :: ts, s, out, hok, h, h' => by
    rw [List.length_cons] at h h'
    rw [run, run]
    cases hk : key t with
    | none => exact run_fuel seen mark Ok hkey hmark hnext fuel fuel' ts s out hok (by omega) (by omega)
    | some k =>
      dsimp only
      cases hs : seen s k with
      | true => exact run_fuel seen mark Ok hkey hmark hnext fuel fuel' ts s out hok (by omega) (by omega)
      | false =>
        obtain ⟨hok', hj⟩ := hmark s k hok (hkey t k hk)
        have hun := unmarked_mark (hkey t k hk) hs hj
        rw [if_neg (by decide), if_neg (by decide)]
        cases hn : next t with
        | none => exact run_fuel seen mark Ok hkey hmark hnext fuel fuel' ts _ _ hok' (by omega) (by omega)
        | some us =>
          have hle := hnext t us hn
          exact run_fuel seen mark Ok hkey hmark hnext fuel fuel' (us ++ ts) _ out hok'
            (by rw [List.length_append]; omega) (by rw [List.length_append]; omega)

/-! ## The rules of the relation -/

/-- **A run is determined by its marks and its stack.** -/
theorem Explores.det {V : Set Nat} {ts : List τ} {V₁ V₂ : Set Nat} {o₁ o₂ : List τ}
    (h₁ : Explores key next V ts V₁ o₁) (h₂ : Explores key next V ts V₂ o₂) : V₁ = V₂ ∧ o₁ = o₂ := by
  induction h₁ generalizing V₂ o₂ with
  | nil => cases h₂; exact ⟨rfl, rfl⟩
  | drop hk _ ih =>
    cases h₂ with
    | drop _ h => exact ih h
    | skip hk' | leaf hk' | node hk' => rw [hk] at hk'; cases hk'
  | skip hk hV _ ih =>
    cases h₂ with
    | drop hk' => rw [hk] at hk'; cases hk'
    | skip _ _ h => exact ih h
    | leaf hk' hV' | node hk' hV' => rw [hk] at hk'; cases hk'; exact absurd hV hV'
  | leaf hk hV hn _ ih =>
    cases h₂ with
    | drop hk' => rw [hk] at hk'; cases hk'
    | skip hk' hV' => rw [hk] at hk'; cases hk'; exact absurd hV' hV
    | leaf hk' _ _ h =>
      rw [hk] at hk'; cases hk'
      obtain ⟨rfl, rfl⟩ := ih h
      exact ⟨rfl, rfl⟩
    | node _ _ hn' => rw [hn] at hn'; cases hn'
  | node hk hV hn _ ih =>
    cases h₂ with
    | drop hk' => rw [hk] at hk'; cases hk'
    | skip hk' hV' => rw [hk] at hk'; cases hk'; exact absurd hV' hV
    | leaf _ _ hn' => rw [hn] at hn'; cases hn'
    | node hk' _ hn' h =>
      rw [hk] at hk'; cases hk'
      rw [hn] at hn'; cases hn'
      exact ih h

theorem Explores.mono {V V' : Set Nat} {ts out : List τ} (h : Explores key next V ts V' out) : V ⊆ V' := by
  induction h with
  | nil => exact fun _ h => h
  | drop _ _ ih | skip _ _ _ ih => exact ih
  | leaf _ _ _ _ ih | node _ _ _ _ ih => exact fun _ h => ih (Set.mem_insert_of_mem _ h)

theorem Explores.stack {V V' : Set Nat} {ts out : List τ} (h : Explores key next V ts V' out) :
    ∀ t ∈ ts, ∀ k, key t = some k → k ∈ V' := by
  induction h with
  | nil => intro t ht; cases ht
  | drop hk h ih =>
    intro t ht k hkt
    rcases List.mem_cons.1 ht with rfl | ht
    · rw [hk] at hkt; cases hkt
    · exact ih t ht k hkt
  | skip hk hV h ih =>
    intro t ht k hkt
    rcases List.mem_cons.1 ht with rfl | ht
    · rw [hk] at hkt; cases hkt; exact h.mono hV
    · exact ih t ht k hkt
  | leaf hk hV hn h ih =>
    intro t ht k hkt
    rcases List.mem_cons.1 ht with rfl | ht
    · rw [hk] at hkt; cases hkt; exact h.mono (Set.mem_insert _ _)
    · exact ih t ht k hkt
  | node hk hV hn h ih =>
    intro t ht k hkt
    rcases List.mem_cons.1 ht with rfl | ht
    · rw [hk] at hkt; cases hkt; exact h.mono (Set.mem_insert _ _)
    · exact ih t (List.mem_append_right _ ht) k hkt

/-- Every answered task is a leaf the stack expands to, and its key was not marked before. -/
theorem Explores.sound {V V' : Set Nat} {ts out : List τ} (h : Explores key next V ts V' out) :
    ∀ u ∈ out, next u = none ∧ (∃ k, key u = some k ∧ k ∉ V ∧ k ∈ V') ∧
      ∃ t ∈ ts, Relation.ReflTransGen (Child key next) t u := by
  induction h with
  | nil => intro u hu; cases hu
  | drop hk _ ih =>
    intro u hu
    obtain ⟨h1, h2, t, ht, hr⟩ := ih u hu
    exact ⟨h1, h2, t, List.mem_cons_of_mem _ ht, hr⟩
  | skip hk hV _ ih =>
    intro u hu
    obtain ⟨h1, h2, t, ht, hr⟩ := ih u hu
    exact ⟨h1, h2, t, List.mem_cons_of_mem _ ht, hr⟩
  | @leaf V t k ts V' out hk hV hn h ih =>
    intro u hu
    rcases List.mem_cons.1 hu with rfl | hu
    · exact ⟨hn, ⟨k, hk, hV, h.mono (Set.mem_insert _ _)⟩, u, List.mem_cons_self, .refl⟩
    · obtain ⟨h1, ⟨j, hj, hjV, hjV'⟩, t', ht, hr⟩ := ih u hu
      exact ⟨h1, ⟨j, hj, fun hm => hjV (Set.mem_insert_of_mem _ hm), hjV'⟩, t', List.mem_cons_of_mem _ ht, hr⟩
  | @node V t k us ts V' out hk hV hn h ih =>
    intro u hu
    obtain ⟨h1, ⟨j, hj, hjV, hjV'⟩, t', ht, hr⟩ := ih u hu
    refine ⟨h1, ⟨j, hj, fun hm => hjV (Set.mem_insert_of_mem _ hm), hjV'⟩, ?_⟩
    rcases List.mem_append.1 ht with ht | ht
    · exact ⟨t, List.mem_cons_self, .head ⟨⟨k, hk⟩, us, hn, ht⟩ hr⟩
    · exact ⟨t', List.mem_cons_of_mem _ ht, hr⟩

theorem Explores.nodup {V V' : Set Nat} {ts out : List τ} (h : Explores key next V ts V' out) :
    (out.map key).Nodup := by
  induction h with
  | nil => exact List.nodup_nil
  | drop _ _ ih | skip _ _ _ ih | node _ _ _ _ ih => exact ih
  | @leaf V t k ts V' out hk hV hn h ih =>
    refine List.nodup_cons.2 ⟨fun hm => ?_, ih⟩
    obtain ⟨u, hu, hku⟩ := List.mem_map.1 hm
    obtain ⟨-, ⟨j, hj, hjV, -⟩, -⟩ := h.sound u hu
    rw [hku, hk] at hj
    cases hj
    exact hjV (Set.mem_insert _ _)

/-- **A run seen through a map of the tasks** that keeps keys and expansions. -/
theorem Explores.map {τ' : Type*} (key' : τ' → Option Nat) (next' : τ' → Option (List τ')) (f : τ → τ')
    (hkey : ∀ t, key' (f t) = key t) (hnext : ∀ t, (∃ k, key t = some k) → next' (f t) = (next t).map (List.map f))
    {V V' : Set Nat} {ts out : List τ} (h : Explores key next V ts V' out) :
    Explores key' next' V (ts.map f) V' (out.map f) := by
  induction h with
  | nil => exact .nil
  | drop hk _ ih => exact .drop (by rw [hkey, hk]) ih
  | skip hk hV _ ih => exact .skip (by rw [hkey, hk]) hV ih
  | leaf hk hV hn _ ih => exact .leaf (by rw [hkey, hk]) hV (by rw [hnext _ ⟨_, hk⟩, hn]; rfl) ih
  | node hk hV hn _ ih =>
    refine .node (by rw [hkey, hk]) hV (by rw [hnext _ ⟨_, hk⟩, hn]; rfl) ?_
    rwa [List.map_append] at ih

/-! ## Closed marks

What a task of a given key expands to has keys that depend on that key only: `succ k`. -/

section closed
variable {succ : Nat → Option (List (Option Nat))}

/-- The keys of an expansion are a function of the key. -/
def KeyGraph (key : τ → Option Nat) (next : τ → Option (List τ)) (succ : Nat → Option (List (Option Nat))) : Prop :=
  ∀ t k, key t = some k → (next t).map (List.map key) = succ k

/-- A set of marks that holds every key its keys expand to. -/
def Closed (succ : Nat → Option (List (Option Nat))) (V : Set Nat) : Prop :=
  ∀ k ∈ V, ∀ ks, succ k = some ks → ∀ j, some j ∈ ks → j ∈ V

theorem Closed.empty : Closed succ ∅ := fun _ h => absurd h (Set.notMem_empty _)

/-- **A run from closed marks ends in closed marks.** -/
theorem Explores.closed (hg : KeyGraph key next succ) {V V' : Set Nat} {ts out : List τ}
    (h : Explores key next V ts V' out) (hV : Closed succ V) : Closed succ V' := by
  -- every child of a marked key is marked or waits on the stack
  suffices hgen : ∀ {V V' : Set Nat} {ts out : List τ}, Explores key next V ts V' out →
      (∀ k ∈ V, ∀ ks, succ k = some ks → ∀ j, some j ∈ ks → j ∈ V ∨ ∃ t ∈ ts, key t = some j) →
      Closed succ V' from hgen h (fun k hk ks hs j hj => Or.inl (hV k hk ks hs j hj))
  intro V V' ts out h
  induction h with
  | nil =>
    intro hp k hk ks hs j hj
    rcases hp k hk ks hs j hj with h | ⟨t, ht, -⟩
    · exact h
    · cases ht
  | drop hkt _ ih =>
    intro hp
    refine ih (fun k hk ks hs j hj => ?_)
    rcases hp k hk ks hs j hj with h | ⟨t, ht, hkey⟩
    · exact Or.inl h
    · rcases List.mem_cons.1 ht with rfl | ht
      · rw [hkt] at hkey; cases hkey
      · exact Or.inr ⟨t, ht, hkey⟩
  | skip hkt hin _ ih =>
    intro hp
    refine ih (fun k hk ks hs j hj => ?_)
    rcases hp k hk ks hs j hj with h | ⟨t, ht, hkey⟩
    · exact Or.inl h
    · rcases List.mem_cons.1 ht with rfl | ht
      · rw [hkt] at hkey; cases hkey; exact Or.inl hin
      · exact Or.inr ⟨t, ht, hkey⟩
  | @leaf V t k' ts V' out hkt hnot hn _ ih =>
    intro hp
    refine ih (fun k hk ks hs j hj => ?_)
    rcases Set.mem_insert_iff.1 hk with rfl | hk
    · have := hg t k hkt
      rw [hn, hs] at this
      cases this
    · rcases hp k hk ks hs j hj with h | ⟨u, hu, hkey⟩
      · exact Or.inl (Set.mem_insert_of_mem _ h)
      · rcases List.mem_cons.1 hu with rfl | hu
        · rw [hkt] at hkey; cases hkey; exact Or.inl (Set.mem_insert _ _)
        · exact Or.inr ⟨u, hu, hkey⟩
  | @node V t k' us ts V' out hkt hnot hn _ ih =>
    intro hp
    refine ih (fun k hk ks hs j hj => ?_)
    rcases Set.mem_insert_iff.1 hk with rfl | hk
    · have := hg t k hkt
      rw [hn, hs] at this
      obtain rfl := Option.some.inj this
      obtain ⟨u, hu, hkey⟩ := List.mem_map.1 hj
      exact Or.inr ⟨u, List.mem_append_left _ hu, hkey⟩
    · rcases hp k hk ks hs j hj with h | ⟨u, hu, hkey⟩
      · exact Or.inl (Set.mem_insert_of_mem _ h)
      · rcases List.mem_cons.1 hu with rfl | hu
        · rw [hkt] at hkey; cases hkey; exact Or.inl (Set.mem_insert _ _)
        · exact Or.inr ⟨u, List.mem_append_right _ hu, hkey⟩

theorem Explores.leaf_mem (hg : KeyGraph key next succ) {V V' : Set Nat} {ts out : List τ}
    (h : Explores key next V ts V' out) : ∀ k ∈ V', succ k = none → k ∈ V ∨ ∃ u ∈ out, key u = some k := by
  induction h with
  | nil => intro k hk _; exact Or.inl hk
  | drop _ _ ih | skip _ _ _ ih => exact ih
  | @leaf V t k' ts V' out hkt hnot hn _ ih =>
    intro k hk hs
    rcases ih k hk hs with hm | ⟨u, hu, hkey⟩
    · rcases Set.mem_insert_iff.1 hm with rfl | hm
      · exact Or.inr ⟨t, List.mem_cons_self, hkt⟩
      · exact Or.inl hm
    · exact Or.inr ⟨u, List.mem_cons_of_mem _ hu, hkey⟩
  | @node V t k' us ts V' out hkt hnot hn _ ih =>
    intro k hk hs
    rcases ih k hk hs with hm | hu
    · rcases Set.mem_insert_iff.1 hm with rfl | hm
      · have := hg t k hkt
        rw [hn, hs] at this
        cases this
      · exact Or.inl hm
    · exact Or.inr hu

/-- **What the stack expands to is marked or answered.** -/
theorem Explores.complete (hg : KeyGraph key next succ) {V V' : Set Nat} {ts out : List τ}
    (h : Explores key next V ts V' out) (hV : Closed succ V) {t u : τ} {k : Nat} (ht : t ∈ ts)
    (hr : Relation.ReflTransGen (Child key next) t u) (hk : key u = some k) (hu : next u = none) :
    k ∈ V ∨ ∃ u' ∈ out, key u' = some k := by
  have hcl := h.closed hg hV
  have hall : ∀ {v : τ}, Relation.ReflTransGen (Child key next) t v → ∀ j, key v = some j → j ∈ V' := by
    intro v hv
    induction hv with
    | refl => exact h.stack t ht
    | @tail a b _ hab ih =>
      intro j hj
      obtain ⟨⟨ka, hka⟩, us, hn, hb⟩ := hab
      have hs := hg a ka hka
      rw [hn] at hs
      exact hcl ka (ih ka hka) _ hs.symm j (List.mem_map.2 ⟨b, hb, hj⟩)
  have hs := hg u k hk
  rw [hu] at hs
  exact h.leaf_mem hg k (hall hr k hk) hs.symm

theorem Explores.of_marked {V V' : Set Nat} {out : List τ} : ∀ {us ts : List τ},
    (∀ u ∈ us, ∀ k, key u = some k → k ∈ V) → Explores key next V (us ++ ts) V' out → Explores key next V ts V' out
  | [], _, _, h => h
  | u :: us, ts, hu, h => by
    have hus : ∀ v ∈ us, ∀ k, key v = some k → k ∈ V := fun v hv => hu v (List.mem_cons_of_mem _ hv)
    cases h with
    | drop _ h => exact Explores.of_marked hus h
    | skip _ _ h => exact Explores.of_marked hus h
    | leaf hk hV => exact absurd (hu u List.mem_cons_self _ hk) hV
    | node hk hV => exact absurd (hu u List.mem_cons_self _ hk) hV

/-- **Under closed marks the answer is the unmarked part of the answer from no marks.** -/
theorem Explores.filter (hg : KeyGraph key next succ) {W : Set Nat} (hW : Closed succ W) {P : τ → Bool}
    (hP : ∀ t k, key t = some k → (P t = true ↔ k ∉ W)) {U U' : Set Nat} {ts out : List τ}
    (h : Explores key next U ts U' out) : Explores key next (W ∪ U) ts (W ∪ U') (out.filter P) := by
  induction h with
  | nil => exact .nil
  | drop hk _ ih => exact .drop hk ih
  | skip hk hU _ ih => exact .skip hk (Or.inr hU) ih
  | @leaf U t k ts U' out hk hU hn _ ih =>
    by_cases hin : k ∈ W
    · rw [Set.union_insert, Set.insert_eq_of_mem (Set.mem_union_left U hin)] at ih
      rw [List.filter_cons_of_neg (fun hp => (hP t k hk).1 hp hin)]
      exact .skip hk (Or.inl hin) ih
    · rw [Set.union_insert] at ih
      rw [List.filter_cons_of_pos ((hP t k hk).2 hin)]
      exact .leaf hk (fun hm => hm.elim hin hU) hn ih
  | @node U t k us ts U' out hk hU hn _ ih =>
    by_cases hin : k ∈ W
    · rw [Set.union_insert, Set.insert_eq_of_mem (Set.mem_union_left U hin)] at ih
      have hs := hg t k hk
      rw [hn] at hs
      have hus : ∀ u ∈ us, ∀ j, key u = some j → j ∈ W ∪ U := fun u hu j hj =>
        Or.inl (hW k hin _ hs.symm j (List.mem_map.2 ⟨u, hu, hj⟩))
      exact .skip hk (Or.inl hin) (Explores.of_marked hus ih)
    · rw [Set.union_insert] at ih
      exact .node hk (fun hm => hm.elim hin hU) hn ih

end closed

end Worklist
