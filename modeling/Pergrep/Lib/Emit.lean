import Mathlib.Data.List.Basic
import Mathlib.Logic.Function.Basic
import Mathlib.Tactic.Common
/-!
# Emit — loops that push results and stop at a bound

A search pushes its results one at a time and, after each, asks a bound whether to stop (`goto done`).  `loop` is a
`while` with such a body, `each` a `for` over a list, `pushAll` the pushing itself.  `Pushes x bs s'` says all there is
to say of a computation of this kind, whatever the bound: it pushes `bs`, in order, cut where the bound says, and a run
that is not cut ends in the state `s'`.  `loop_pushes` and `Pushes.each` compose it.
-/
namespace Emit

variable {α β σ : Type*}

/-- The results, one after another, up to the first that meets the bound; the flag says that one did. -/
def pushAll (full : List β → Bool) : List β → List β → List β × Bool
  | out, []      => (out, false)
  | out, b :: bs => if full (out ++ [b]) then (out ++ [b], true) else pushAll full (out ++ [b]) bs

/-- A `while` loop, a unit of fuel a pass: `none` ends it, `some (b, s)` pushes `b` if there is one and goes on from
`s`. -/
def loop (full : List β → Bool) (step : σ → Option (Option β × σ)) : Nat → σ → List β → σ × List β × Bool
  | 0, s, out => (s, out, false)
  | fuel + 1, s, out =>
    match step s with
    | none => (s, out, false)
    | some (none, s') => loop full step fuel s' out
    | some (some b, s') => if full (out ++ [b]) then (s', out ++ [b], true) else loop full step fuel s' (out ++ [b])

/-- A `for` over a list, left as soon as a body was stopped by the bound. -/
def each (body : α → σ → List β → σ × List β × Bool) : List α → σ → List β → σ × List β × Bool
  | [], s, out => (s, out, false)
  | a :: as, s, out =>
    match body a s out with
    | (s', out', true)  => (s', out', true)
    | (s', out', false) => each body as s' out'

/-! ## What is pushed -/

def loopEmits (step : σ → Option (Option β × σ)) : Nat → σ → List β
  | 0, _ => []
  | fuel + 1, s =>
    match step s with
    | none => []
    | some (b, s') => b.toList ++ loopEmits step fuel s'

def loopEnd (step : σ → Option (Option β × σ)) : Nat → σ → σ
  | 0, s => s
  | fuel + 1, s =>
    match step s with
    | none => s
    | some (_, s') => loopEnd step fuel s'

/-- The computation pushes `bs` and, not cut, ends in `s'`. -/
def Pushes (x : (List β → Bool) → List β → σ × List β × Bool) (bs : List β) (s' : σ) : Prop :=
  ∀ full out, (x full out).2 = pushAll full out bs ∧ ((pushAll full out bs).2 = false → (x full out).1 = s')

theorem pushAll_append (full : List β → Bool) : ∀ (bs cs out : List β),
    pushAll full out (bs ++ cs) =
      if (pushAll full out bs).2 then pushAll full out bs else pushAll full (pushAll full out bs).1 cs
  | [], cs, out => by simp [pushAll]
  | b :: bs, cs, out => by
    rw [List.cons_append, pushAll, pushAll]
    by_cases h : full (out ++ [b]) = true
    · rw [if_pos h, if_pos h, if_pos rfl]
    · rw [if_neg h, if_neg h]
      exact pushAll_append full bs cs _

theorem Pushes.nil (s : σ) : Pushes (fun _ (out : List β) => (s, out, false)) [] s := fun _ _ => ⟨rfl, fun _ => rfl⟩

/-- **A loop pushes what its passes push.** -/
theorem loop_pushes (step : σ → Option (Option β × σ)) : ∀ (fuel : Nat) (s : σ),
    Pushes (fun full out => loop full step fuel s out) (loopEmits step fuel s) (loopEnd step fuel s)
  | 0, s => Pushes.nil s
  | fuel + 1, s => by
    intro full out
    simp only [loop, loopEmits, loopEnd]
    match hs : step s with
    | none => exact ⟨rfl, fun _ => rfl⟩
    | some (none, s') => exact loop_pushes step fuel s' full out
    | some (some b, s') =>
      simp only [Option.toList_some, List.singleton_append, pushAll]
      by_cases h : full (out ++ [b]) = true
      · rw [if_pos h, if_pos h]
        exact ⟨rfl, fun hf => by cases hf⟩
      · rw [if_neg h, if_neg h]
        exact loop_pushes step fuel s' full (out ++ [b])

/-- What a `for` pushes, and where it ends: each element pushes `(e a s).1` and leads from `s` to `(e a s).2`. -/
def emits (e : α → σ → List β × σ) : List α → σ → List β × σ
  | [], s => ([], s)
  | a :: as, s => ((e a s).1 ++ (emits e as (e a s).2).1, (emits e as (e a s).2).2)

/-- **A `for` pushes what its bodies push**, one after another. -/
theorem Pushes.each {body : (List β → Bool) → α → σ → List β → σ × List β × Bool} {e : α → σ → List β × σ} :
    ∀ (as : List α), (∀ a ∈ as, ∀ s, Pushes (fun full out => body full a s out) (e a s).1 (e a s).2) → ∀ s,
      Pushes (fun full out => Emit.each (body full) as s out) (emits e as s).1 (emits e as s).2
  | [], _, s => Pushes.nil s
  | a :: as, h, s => by
    intro full out
    obtain ⟨h1, h2⟩ := h a List.mem_cons_self s full out
    dsimp only at h1 h2
    have ih := Pushes.each as (fun a' ha' => h a' (List.mem_cons_of_mem _ ha')) (e a s).2
    simp only [Emit.each, emits, pushAll_append]
    match hb : body full a s out with
    | (s', out', true) =>
      rw [hb] at h1 h2
      rw [← h1, if_pos rfl]
      exact ⟨rfl, fun hf => by cases hf⟩
    | (s', out', false) =>
      rw [hb] at h1 h2
      rw [← h1] at h2 ⊢
      obtain rfl := h2 rfl
      exact ih full out'

theorem each_append (body : α → σ → List β → σ × List β × Bool) : ∀ (as bs : List α) (s : σ) (out : List β),
    Emit.each body (as ++ bs) s out =
      match Emit.each body as s out with
      | (s', out', true)  => (s', out', true)
      | (s', out', false) => Emit.each body bs s' out'
  | [], _, _, _ => rfl
  | a :: as, bs, s, out => by
    rw [List.cons_append, Emit.each, Emit.each]
    match body a s out with
    | (s', out', true)  => rfl
    | (s', out', false) => exact each_append body as bs s' out'

theorem each_flatMap {γ : Type*} (body : α → σ → List β → σ × List β × Bool) (f : γ → List α) :
    ∀ (cs : List γ) (s : σ) (out : List β),
      Emit.each body (cs.flatMap f) s out = Emit.each (fun c => Emit.each body (f c)) cs s out
  | [], _, _ => rfl
  | c :: cs, s, out => by
    rw [List.flatMap_cons, each_append, Emit.each]
    match Emit.each body (f c) s out with
    | (s', out', true)  => rfl
    | (s', out', false) => exact each_flatMap body f cs s' out'

/-! ## Runs over lists -/

theorem emits_append (e : α → σ → List β × σ) : ∀ (as bs : List α) (s : σ),
    emits e (as ++ bs) s = ((emits e as s).1 ++ (emits e bs (emits e as s).2).1, (emits e bs (emits e as s).2).2)
  | [], _, _ => rfl
  | a :: as, bs, s => by
    simp only [List.cons_append, emits, emits_append e as bs, List.append_assoc]

theorem emits_filter (e : α → σ → List β × σ) (P : α → Bool) : ∀ (as : List α),
    (∀ a ∈ as, P a = false → ∀ s, e a s = ([], s)) → ∀ s, emits e (as.filter P) s = emits e as s
  | [], _, _ => rfl
  | a :: as, h, s => by
    have ih := emits_filter e P as (fun b hb => h b (List.mem_cons_of_mem _ hb))
    cases hP : P a with
    | true  => rw [List.filter_cons_of_pos hP, emits, emits, ih]
    | false =>
      rw [List.filter_cons_of_neg (by simp [hP]), emits, h a List.mem_cons_self hP, ih]
      rfl

theorem emits_congr {e f : α → σ → List β × σ} : ∀ {as : List α}, (∀ a ∈ as, ∀ s, e a s = f a s) → ∀ s,
    emits e as s = emits f as s
  | [], _, _ => rfl
  | a :: as, h, s => by
    rw [emits, emits, h a List.mem_cons_self, emits_congr (fun b hb => h b (List.mem_cons_of_mem _ hb))]

theorem emits_map {γ : Type*} (e : α → σ → List β × σ) (f : γ → α) : ∀ (cs : List γ) (s : σ),
    emits e (cs.map f) s = emits (fun c => e (f c)) cs s
  | [], _ => rfl
  | c :: cs, s => by rw [List.map_cons, emits, emits, emits_map e f cs]

theorem emits_flatMap {γ : Type*} (e : α → σ → List β × σ) (f : γ → List α) : ∀ (cs : List γ) (s : σ),
    emits e (cs.flatMap f) s = emits (fun c => emits e (f c)) cs s
  | [], _ => rfl
  | c :: cs, s => by rw [List.flatMap_cons, emits_append, emits, emits_flatMap e f cs]

theorem emits_filterMap {γ : Type*} (e : α → σ → List β × σ) (f : γ → Option α) : ∀ (cs : List γ) (s : σ),
    emits e (cs.filterMap f) s = emits (fun c s => (f c).elim ([], s) (fun a => e a s)) cs s
  | [], _ => rfl
  | c :: cs, s => by
    rw [List.filterMap_cons]
    cases hc : f c with
    | none =>
      dsimp only
      rw [emits_filterMap e f cs, emits, hc]
      rfl
    | some a =>
      dsimp only
      rw [emits, emits, hc, emits_filterMap e f cs]
      rfl

def atIndex (as : List α) (e : α → σ → List β × σ) (i : Nat) (s : σ) : List β × σ := (as[i]?).elim ([], s) (fun a => e a s)

theorem emits_atIndex (e : α → σ → List β × σ) : ∀ (as : List α) (s : σ),
    emits (atIndex as e) (List.range as.length) s = emits e as s
  | [], _ => rfl
  | a :: as, s => by
    rw [List.length_cons, List.range_succ_eq_map, emits, emits_map, emits, ← emits_atIndex e as]
    rfl

theorem emits_indep {e : α → σ → List β × σ} {f : α → List β} (h : ∀ a s, (e a s).1 = f a) : ∀ (as : List α) (s : σ),
    (emits e as s).1 = as.flatMap f
  | [], _ => rfl
  | a :: as, s => by rw [emits, emits_indep h as, List.flatMap_cons, h]

theorem emits_stateless (f : α → List β) : ∀ (as : List α) (s : σ),
    emits (fun a s => (f a, s)) as s = (as.flatMap f, s)
  | [], _ => rfl
  | a :: as, s => by rw [emits, emits_stateless f as, List.flatMap_cons]

theorem flatMap_filter_of_nil (f : α → List β) (P : α → Bool) (as : List α) (h : ∀ a ∈ as, P a = false → f a = []) :
    (as.filter P).flatMap f = as.flatMap f := by
  have hrun := emits_filter (fun a (s : Unit) => (f a, s)) P as (fun a ha hP s => by rw [h a ha hP]) ()
  rw [emits_stateless, emits_stateless] at hrun
  exact congrArg Prod.fst hrun

/-- **Some keys of a list of lists**: those of the elements with these keys. -/
theorem filter_flatMap_key {κ : Type*} {k : α → κ} {f : β → κ} {g : α → List β} (P : κ → Bool) : ∀ {as : List α},
    (∀ a ∈ as, ∀ b ∈ g a, f b = k a) →
      (as.flatMap g).filter (fun b => P (f b)) = (as.filter (fun a => P (k a))).flatMap g
  | [], _ => rfl
  | a :: as, h => by
    have hkeys : ∀ b ∈ g a, P (f b) = P (k a) := fun b hb => by rw [h a List.mem_cons_self b hb]
    rw [List.flatMap_cons, List.filter_append, List.filter_congr hkeys, List.filter_cons,
      filter_flatMap_key P (fun b hb => h b (List.mem_cons_of_mem a hb))]
    cases P (k a) with
    | true  => rw [if_pos rfl, List.flatMap_cons, List.filter_true]
    | false => rw [if_neg (by decide), List.filter_false, List.nil_append]

section
variable {κ ν : Type*} [DecidableEq κ]

def atKey (k : α → κ) (e : α → ν → List β × ν) (a : α) (s : κ → ν) : List β × (κ → ν) :=
  ((e a (s (k a))).1, Function.update s (k a) (e a (s (k a))).2)

theorem emits_atKey {k : α → κ} {e : α → ν → List β × ν} {c : κ} : ∀ {as : List α}, (∀ a ∈ as, k a = c) → ∀ s,
    emits (atKey k e) as s = ((emits e as (s c)).1, Function.update s c (emits e as (s c)).2)
  | [], _, s => by rw [emits, emits, Function.update_eq_self]
  | a :: as, h, s => by
    obtain rfl : k a = c := h a List.mem_cons_self
    rw [emits, emits_atKey (fun b hb => h b (List.mem_cons_of_mem _ hb)), atKey]
    simp only [Function.update_self, Function.update_idem, emits]

/-- **A run over the elements of some keys** pushes what the whole run pushes for these keys. -/
theorem emits_filter_key {k : α → κ} {f : β → κ} {e : α → ν → List β × ν} (P : κ → Bool) : ∀ {as : List α},
    (∀ a ∈ as, ∀ n, ∀ b ∈ (e a n).1, f b = k a) → ∀ {s s' : κ → ν}, (∀ c, P c = true → s c = s' c) →
      (emits (atKey k e) (as.filter (fun a => P (k a))) s).1 = (emits (atKey k e) as s').1.filter (fun b => P (f b))
  | [], _, _, _, _ => rfl
  | a :: as, h, s, s', hs => by
    have ih := @emits_filter_key k f e P as (fun b hb => h b (List.mem_cons_of_mem a hb))
    have hkeys : ∀ b ∈ (atKey k e a s').1, P (f b) = P (k a) := fun b hb => by rw [h a List.mem_cons_self _ b hb]
    rw [List.filter_cons, emits, List.filter_append, List.filter_congr hkeys]
    cases hP : P (k a) with
    | true  =>
      rw [if_pos rfl, emits, atKey, atKey, hs _ hP, List.filter_true]
      refine congrArg _ (ih (fun c hc => ?_))
      dsimp only
      by_cases hk : c = k a
      · subst hk
        rw [Function.update_self, Function.update_self]
      · rw [Function.update_of_ne hk, Function.update_of_ne hk, hs c hc]
    | false =>
      -- the state of a key that is left out is never looked at
      rw [if_neg (by decide), List.filter_false, List.nil_append]
      refine ih (fun c hc => ?_)
      have hk : c ≠ k a := fun hk => by
        rw [hk, hP] at hc
        cases hc
      rw [atKey]
      dsimp only
      rw [Function.update_of_ne hk, hs c hc]

theorem emits_keys {e : κ → ν → List β × ν} : ∀ {ks : List κ}, ks.Nodup → ∀ {s : κ → ν},
    (emits (atKey id e) ks s).1 = ks.flatMap (fun k => (e k (s k)).1)
  | [], _, _ => rfl
  | k :: ks, h, s => by
    obtain ⟨hk, hks⟩ := List.nodup_cons.1 h
    rw [emits, List.flatMap_cons, emits_keys hks]
    refine congrArg₂ (· ++ ·) rfl (List.flatMap_congr (fun k' hk' => ?_))
    have hne : k' ≠ k := fun he => hk (he ▸ hk')
    simp only [atKey, id, Function.update_of_ne hne]

end

theorem filter_key_lt {k : α → ℕ} : ∀ {as : List α}, as.Pairwise (fun a b => k a ≤ k b) → ∀ n,
    as.filter (fun a => k a < n) = (List.range n).flatMap (fun c => as.filter (fun a => k a = c))
  | as, _, 0 => by simp
  | as, h, n + 1 => by
    rw [List.range_succ, List.flatMap_append, List.flatMap_singleton, ← filter_key_lt h n]
    -- what is below `n` stands before what is at `n`
    induction as with
    | nil => rfl
    | cons a as ih =>
      obtain ⟨ha, has⟩ := List.pairwise_cons.1 h
      rcases Nat.lt_trichotomy (k a) n with hlt | heq | hgt
      · rw [List.filter_cons_of_pos (by simp; omega), List.filter_cons_of_pos (by simpa using hlt),
          List.filter_cons_of_neg (by simp; omega), ih has, List.cons_append]
      · have hnil : as.filter (fun a => k a < n) = [] :=
          List.filter_eq_nil_iff.2 (fun b hb => by have := ha b hb; simp; omega)
        rw [List.filter_cons_of_pos (by simp; omega), List.filter_cons_of_neg (by simp; omega),
          List.filter_cons_of_pos (by simpa using heq), ih has, hnil, List.nil_append, List.nil_append]
      · rw [List.filter_cons_of_neg (by simp; omega), List.filter_cons_of_neg (by simp; omega),
          List.filter_cons_of_neg (by simp; omega), ih has]

/-- **A run over elements in the order of their keys** is a run for each key. -/
theorem emits_sorted {ν : Type*} {k : α → ℕ} {e : α → ν → List β × ν} {as : List α}
    (h : as.Pairwise (fun a b => k a ≤ k b)) {n : ℕ} (hlt : ∀ a ∈ as, k a < n) (s : ℕ → ν) :
    (emits (atKey k e) as s).1 = (List.range n).flatMap (fun c => (emits e (as.filter (fun a => k a = c)) (s c)).1) := by
  have has : as = (List.range n).flatMap (fun c => as.filter (fun a => k a = c)) := by
    rw [← filter_key_lt h n]
    exact (List.filter_eq_self.2 (fun a ha => by simpa using hlt a ha)).symm
  have hkeys : ∀ c, ∀ a ∈ as.filter (fun a => k a = c), k a = c := fun c a ha => by
    simpa using (List.mem_filter.1 ha).2
  rw [← emits_keys List.nodup_range]
  conv_lhs => rw [has]
  rw [emits_flatMap]
  exact congrArg Prod.fst (emits_congr (fun c _ s => emits_atKey (hkeys c) s) s)

/-! ## Where results come from -/

theorem mem_pushAll {full : List β → Bool} {b : β} : ∀ {bs out : List β}, b ∈ (pushAll full out bs).1 → b ∈ out ∨ b ∈ bs
  | [], _, h => Or.inl h
  | x :: bs, out, h => by
    have hout : b ∈ out ++ [x] → b ∈ out ∨ b ∈ x :: bs := fun h => by
      rcases List.mem_append.1 h with h | h
      · exact Or.inl h
      · exact Or.inr (List.mem_cons.2 (Or.inl (List.mem_singleton.1 h)))
    rw [pushAll] at h
    split at h
    · exact hout h
    · rcases mem_pushAll h with h | h
      · exact hout h
      · exact Or.inr (List.mem_cons_of_mem x h)

theorem mem_emits {e : α → σ → List β × σ} {b : β} : ∀ {as : List α} {s : σ}, b ∈ (emits e as s).1 →
    ∃ a ∈ as, ∃ s', b ∈ (e a s').1
  | [], _, h => by cases h
  | a :: as, s, h => by
    rcases List.mem_append.1 h with h | h
    · exact ⟨a, List.mem_cons_self, s, h⟩
    · obtain ⟨a', ha', s', h⟩ := mem_emits h
      exact ⟨a', List.mem_cons_of_mem a ha', s', h⟩

theorem mem_loopEmits {step : σ → Option (Option β × σ)} {b : β} : ∀ {fuel : Nat} {s : σ}, b ∈ loopEmits step fuel s →
    ∃ t t', step t = some (some b, t')
  | 0, _, h => by cases h
  | fuel + 1, s, h => by
    rw [loopEmits] at h
    cases hs : step s with
    | none =>
      rw [hs] at h
      cases h
    | some r =>
      obtain ⟨o, s'⟩ := r
      rw [hs] at h
      rcases List.mem_append.1 h with h | h
      · exact ⟨s, s', by rw [hs, Option.mem_toList.1 h]⟩
      · exact mem_loopEmits h

/-! ## The bounds in use -/

theorem pushAll_never : ∀ (bs out : List β), pushAll (fun _ => false) out bs = (out ++ bs, false)
  | [], out => by simp [pushAll]
  | b :: bs, out => by simp [pushAll, pushAll_never bs]

theorem pushAll_always (bs out : List β) : (pushAll (fun _ => true) out bs).1 = out ++ bs.take 1 := by
  cases bs <;> simp [pushAll]

theorem pushAll_length {k : Nat} : ∀ (bs out : List β), out.length < k →
    (pushAll (fun out => decide (k ≤ out.length)) out bs).1 = (out ++ bs).take k
  | [], out, h => by
    rw [pushAll, List.append_nil, List.take_of_length_le (by omega)]
  | b :: bs, out, h => by
    rw [pushAll]
    by_cases hk : k ≤ (out ++ [b]).length
    · rw [if_pos (by simpa using hk)]
      rw [List.length_append, List.length_singleton] at hk
      have hk' : k = out.length + 1 := by omega
      simp only
      rw [hk', List.take_append, List.take_of_length_le (Nat.le_succ out.length)]
      simp
    · rw [if_neg (by simpa using hk)]
      rw [pushAll_length bs (out ++ [b]) (by omega)]
      simp

theorem pushAll_length_snd {k : Nat} : ∀ (bs out : List β), out.length < k →
    (pushAll (fun out => decide (k ≤ out.length)) out bs).2 = decide (k ≤ (out ++ bs).length)
  | [], out, h => by
    rw [pushAll, List.append_nil, decide_eq_false (by omega)]
  | b :: bs, out, h => by
    rw [pushAll]
    by_cases hk : k ≤ (out ++ [b]).length
    · rw [if_pos (decide_eq_true hk), decide_eq_true]
      rw [List.length_append, List.length_cons]
      rw [List.length_append, List.length_singleton] at hk
      omega
    · rw [if_neg (fun h => hk (of_decide_eq_true h)), pushAll_length_snd bs (out ++ [b]) (by omega), List.append_assoc]
      rfl

theorem length_of_pushAll {k : Nat} : ∀ {bs out : List β}, out.length < k →
    (pushAll (fun out => decide (k ≤ out.length)) out bs).2 = false →
      (pushAll (fun out => decide (k ≤ out.length)) out bs).1.length < k
  | [], _, h, _ => h
  | b :: bs, out, h, hcut => by
    rw [pushAll] at hcut ⊢
    by_cases hk : k ≤ (out ++ [b]).length
    · rw [if_pos (by simpa using hk)] at hcut
      cases hcut
    · rw [if_neg (by simpa using hk)] at hcut ⊢
      exact length_of_pushAll (by omega) hcut

/-! ## In order -/

theorem pushAll_begins (full : List β → Bool) : ∀ bs out : List β, (pushAll full out bs).1 <+: out ++ bs
  | [], out => List.prefix_append out []
  | b :: bs, out => by
    have hcons : out ++ b :: bs = out ++ [b] ++ bs := List.append_cons out b bs
    rw [pushAll, hcons]
    split
    · exact List.prefix_append _ _
    · exact pushAll_begins full bs (out ++ [b])

/-- **A loop that moves on, and pushes what lies between where it was and where it goes**, pushes in order. -/
theorem loopEmits_ascending {step : σ → Option (Option β × σ)} (place : σ → ℕ) (key : β → ℕ)
    (h : ∀ s b s', step s = some (b, s') → place s ≤ place s' ∧ ∀ x, b = some x → place s ≤ key x ∧ key x < place s') :
    ∀ (fuel : ℕ) (s : σ), (∀ b ∈ loopEmits step fuel s, place s ≤ key b) ∧
      (loopEmits step fuel s).Pairwise (fun a b => key a < key b)
  | 0, _ => ⟨fun b hb => absurd hb List.not_mem_nil, List.Pairwise.nil⟩
  | fuel + 1, s => by
    rw [loopEmits]
    cases hs : step s with
    | none => exact ⟨fun b hb => absurd hb List.not_mem_nil, List.Pairwise.nil⟩
    | some r =>
      obtain ⟨b, s'⟩ := r
      obtain ⟨hmove, hkey⟩ := h s b s' hs
      obtain ⟨hlow, hrest⟩ := loopEmits_ascending place key h fuel s'
      cases b with
      | none => exact ⟨fun b hb => Nat.le_trans hmove (hlow b hb), hrest⟩
      | some x =>
        obtain ⟨h1, h2⟩ := hkey x rfl
        refine ⟨List.forall_mem_cons.2 ⟨h1, fun b hb => Nat.le_trans hmove (hlow b hb)⟩, List.pairwise_cons.2 ⟨fun b hb => ?_, hrest⟩⟩
        exact Nat.lt_of_lt_of_le h2 (hlow b hb)

/-- **A `for` whose elements push in order, each in its own zone**, pushes in order when the zones are. -/
theorem emits_pairwise {R : β → β → Prop} (zone : α → β → Prop) {e : α → σ → List β × σ} : ∀ {as : List α},
    as.Pairwise (fun a a' => ∀ b b', zone a b → zone a' b' → R b b') →
      (∀ a ∈ as, ∀ s, (e a s).1.Pairwise R ∧ ∀ b ∈ (e a s).1, zone a b) → ∀ s, (emits e as s).1.Pairwise R
  | [], _, _, _ => List.Pairwise.nil
  | a :: as, hzones, h, s => by
    obtain ⟨hfirst, hrest⟩ := List.pairwise_cons.1 hzones
    obtain ⟨h1, h2⟩ := h a List.mem_cons_self s
    have hall := fun a' ha' => h a' (List.mem_cons_of_mem a ha')
    refine List.pairwise_append.2 ⟨h1, emits_pairwise zone hrest hall _, fun b hb b' hb' => ?_⟩
    obtain ⟨a', ha', s', hb'⟩ := mem_emits hb'
    exact hfirst a' ha' b b' (h2 b hb) ((hall a' ha' s').2 b' hb')

end Emit
