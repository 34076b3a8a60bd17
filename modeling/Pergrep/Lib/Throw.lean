import Pergrep.Lib.Emit
/-!
# Throw — computations that may throw

`bind_ok` takes a computation that returns apart.  `eachE` is a `for` whose body pushes, may stop the loop and may
throw; `concatE` a `for` that collects what its bodies give (`concatE_eq_ok`).  `eachE_concat` and `eachE_pushAll` say
what a loop gives whose bodies never stop, or push under a bound.
-/
namespace Throw

open Emit

universe u v

theorem bind_ok {ε : Type u} {α β : Type v} {x : Except ε α} {f : α → Except ε β} {b : β} (h : (x >>= f) = .ok b) :
    ∃ a, x = .ok a ∧ f a = .ok b := by
  cases x with
  | error e => cases h
  | ok a => exact ⟨a, rfl, h⟩

theorem map_ok {ε : Type u} {α β : Type v} {x : Except ε α} {f : α → β} {b : β} (h : x.map f = .ok b) :
    ∃ a, x = .ok a ∧ f a = b := by
  cases x with
  | error e => cases h
  | ok a => exact ⟨a, rfl, Except.ok.inj h⟩

theorem bind_of_map {ε : Type u} {α α' β β' : Type v} {x : Except ε α} {g : α → α'} {k : α → Except ε β}
    {k' : α' → Except ε β'} {f : β → β'} (h : ∀ a, k' (g a) = (k a).map f) : (x.map g >>= k') = (x >>= k).map f := by
  cases x with
  | error e => rfl
  | ok a => exact h a

variable {ε α β γ : Type*}

/-- The computation returns, and what it returns passes the test. -/
def returns (x : Except ε α) (test : α → Bool) : Bool :=
  match x with
  | .ok a    => test a
  | .error _ => false

theorem returns_iff {x : Except ε α} {test : α → Bool} : returns x test = true ↔ ∃ a, x = .ok a ∧ test a = true := by
  unfold returns
  cases x <;> simp

/-- A `for` whose body pushes, may stop the whole and may throw. -/
def eachE (body : α → List β → Except ε (List β × Bool)) : List α → List β → Except ε (List β × Bool)
  | [], out => .ok (out, false)
  | a :: as, out => do
    let r ← body a out
    if r.2 then return r else eachE body as r.1

theorem eachE_append (body : α → List β → Except ε (List β × Bool)) : ∀ (as bs : List α) (out : List β),
    eachE body (as ++ bs) out = (do
      let r ← eachE body as out
      if r.2 then return r else eachE body bs r.1)
  | [], _, _ => rfl
  | a :: as, bs, out => by
    rw [List.cons_append, eachE, eachE]
    cases body a out with
    | error e => rfl
    | ok r =>
      obtain ⟨out', stop⟩ := r
      cases stop with
      | true  => rfl
      | false => exact eachE_append body as bs out'

theorem eachE_flatMap (body : α → List β → Except ε (List β × Bool)) (f : γ → List α) : ∀ (cs : List γ) (out : List β),
    eachE body (cs.flatMap f) out = eachE (fun c => eachE body (f c)) cs out
  | [], _ => rfl
  | c :: cs, out => by
    rw [List.flatMap_cons, eachE_append, eachE]
    cases eachE body (f c) out with
    | error e => rfl
    | ok r =>
      obtain ⟨out', stop⟩ := r
      cases stop with
      | true  => rfl
      | false => exact eachE_flatMap body f cs out'

theorem eachE_map (body : α → List β → Except ε (List β × Bool)) (f : γ → α) : ∀ (cs : List γ) (out : List β),
    eachE body (cs.map f) out = eachE (fun c => body (f c)) cs out
  | [], _ => rfl
  | c :: cs, out => by
    rw [List.map_cons, eachE, eachE]
    cases body (f c) out with
    | error e => rfl
    | ok r =>
      obtain ⟨out', stop⟩ := r
      cases stop with
      | true  => rfl
      | false => exact eachE_map body f cs out'

theorem eachE_congr {body body' : α → List β → Except ε (List β × Bool)} : ∀ {as : List α},
    (∀ a ∈ as, ∀ out, body a out = body' a out) → ∀ out, eachE body as out = eachE body' as out
  | [], _, _ => rfl
  | a :: as, h, out => by
    rw [eachE, eachE, h a List.mem_cons_self]
    cases body' a out with
    | error e => rfl
    | ok r =>
      obtain ⟨out', stop⟩ := r
      cases stop with
      | true  => rfl
      | false => exact eachE_congr (fun b hb => h b (List.mem_cons_of_mem a hb)) out'

/-- **Bodies that append in order, each in its own zone**, give a list in order when the zones are. -/
theorem eachE_pairwise {R : β → β → Prop} (zone : α → β → Prop) {body : α → List β → Except ε (List β × Bool)} : ∀ {as : List α},
    as.Pairwise (fun a a' => ∀ b b', zone a b → zone a' b' → R b b') →
      (∀ a ∈ as, ∀ out r, body a out = .ok r → ∃ bs, r.1 = out ++ bs ∧ bs.Pairwise R ∧ ∀ b ∈ bs, zone a b) →
        ∀ {out : List β} {r : List β × Bool}, eachE body as out = .ok r → out.Pairwise R →
          (∀ b ∈ out, ∀ a ∈ as, ∀ b', zone a b' → R b b') → r.1.Pairwise R
  | [], _, _, out, r, h, hout, _ => by
    cases h
    exact hout
  | a :: as, hzones, hbody, out, r, h, hout, hlast => by
    obtain ⟨hfirst, hrest⟩ := List.pairwise_cons.1 hzones
    rw [eachE] at h
    obtain ⟨r', hr', h⟩ := bind_ok h
    obtain ⟨bs, hbs, hin, hzone⟩ := hbody a List.mem_cons_self out r' hr'
    have hnow : r'.1.Pairwise R := by
      rw [hbs]
      exact List.pairwise_append.2 ⟨hout, hin, fun b hb b' hb' => hlast b hb a List.mem_cons_self b' (hzone b' hb')⟩
    split at h
    · cases h
      exact hnow
    · refine eachE_pairwise zone hrest (fun a' ha' => hbody a' (List.mem_cons_of_mem a ha')) h hnow (fun b hb a' ha' b' hb' => ?_)
      rw [hbs] at hb
      rcases List.mem_append.1 hb with hb | hb
      · exact hlast b hb a' (List.mem_cons_of_mem a ha') b' hb'
      · exact hfirst a' ha' b b' (hzone b hb) hb'

def value : Except ε (List β) → List β
  | .ok bs => bs
  | .error _ => []

def concatE (f : α → Except ε (List β)) : List α → Except ε (List β)
  | [] => .ok []
  | a :: as => do
    let bs ← f a
    let cs ← concatE f as
    return bs ++ cs

/-- **It returns when all bodies do**, and then what they give, one after another. -/
theorem concatE_eq_ok {f : α → Except ε (List β)} : ∀ {as : List α} {bs : List β},
    concatE f as = .ok bs ↔ (∀ a ∈ as, f a = .ok (value (f a))) ∧ bs = as.flatMap (fun a => value (f a))
  | [], bs => by
    simp only [concatE, Except.ok.injEq, List.not_mem_nil, false_implies, implies_true, List.flatMap_nil, true_and]
    exact eq_comm
  | a :: as, bs => by
    have ih : ∀ {ds : List β}, concatE f as = .ok ds ↔
        (∀ a ∈ as, f a = .ok (value (f a))) ∧ ds = as.flatMap (fun a => value (f a)) := concatE_eq_ok
    rw [List.forall_mem_cons, List.flatMap_cons]
    constructor
    · intro h
      rw [concatE] at h
      cases ha : f a with
      | error e =>
        rw [ha] at h
        cases h
      | ok cs =>
        cases hr : concatE f as with
        | error e =>
          rw [ha, hr] at h
          cases h
        | ok ds =>
          rw [ha, hr] at h
          cases h
          obtain ⟨h1, rfl⟩ := ih.1 hr
          exact ⟨⟨rfl, h1⟩, rfl⟩
    · rintro ⟨⟨h1, h2⟩, rfl⟩
      rw [concatE, h1, ih.2 ⟨h2, rfl⟩]
      rfl

theorem concatE_skip {f : α → Except ε (List β)} {g : α → Except ε (List β)} {P : α → Bool} : ∀ {as : List α},
    (∀ a ∈ as, f a = if P a then g a else .ok []) → concatE f as = concatE g (as.filter P)
  | [], _ => rfl
  | a :: as, h => by
    rw [concatE, h a List.mem_cons_self, concatE_skip (fun b hb => h b (List.mem_cons_of_mem a hb)), List.filter_cons]
    cases P a with
    | true  => rfl
    | false =>
      rw [if_neg (by decide), if_neg (by decide)]
      cases concatE g (as.filter P) with
      | error e => rfl
      | ok bs => rfl

/-- **A `for` over the elements of some keys** collects what the whole collects for these keys, when both return. -/
theorem concatE_filter {κ : Type*} {k : α → κ} {f : β → κ} {g : α → Except ε (List β)} {as : List α} (P : κ → Bool)
    (h : ∀ a ∈ as, ∀ bs, g a = .ok bs → ∀ b ∈ bs, f b = k a) {bs cs : List β}
    (hbs : concatE g (as.filter (fun a => P (k a))) = .ok bs) (hcs : concatE g as = .ok cs) :
    bs = cs.filter (fun b => P (f b)) := by
  obtain ⟨-, rfl⟩ := concatE_eq_ok.1 hbs
  obtain ⟨hall, rfl⟩ := concatE_eq_ok.1 hcs
  exact (filter_flatMap_key P (fun a ha b hb => h a ha _ (hall a ha) b hb)).symm

theorem eachE_concat {body : α → List β → Except ε (List β × Bool)} {f : α → Except ε (List β)} : ∀ {as : List α},
    (∀ a ∈ as, ∀ out, body a out = (f a).map (fun bs => (out ++ bs, false))) → ∀ out,
      eachE body as out = (concatE f as).map (fun bs => (out ++ bs, false))
  | [], _, out => by simp [eachE, concatE, Except.map]
  | a :: as, h, out => by
    rw [eachE, concatE, h a List.mem_cons_self]
    cases f a with
    | error e => rfl
    | ok bs =>
      have ih := eachE_concat (fun b hb => h b (List.mem_cons_of_mem a hb)) (out ++ bs)
      simp only [Except.map, bind, Except.bind, Bool.false_eq_true, if_false] at ih ⊢
      rw [ih]
      cases concatE f as with
      | error e => rfl
      | ok cs => simp [pure, Except.pure]

/-- **Bodies that push under a bound push under it together**, as long as each starts below the bound. -/
theorem eachE_pushAll {body : α → List β → Except ε (List β × Bool)} {full : List β → Bool} {below : List β → Prop}
    {g : α → List β} (hbelow : ∀ bs out, below out → (pushAll full out bs).2 = false → below (pushAll full out bs).1) :
    ∀ {as : List α}, (∀ a ∈ as, ∀ out, below out → body a out = .ok (pushAll full out (g a))) → ∀ out, below out →
      eachE body as out = .ok (pushAll full out (as.flatMap g))
  | [], _, _, _ => rfl
  | a :: as, h, out, hout => by
    rw [eachE, h a List.mem_cons_self out hout, List.flatMap_cons, pushAll_append]
    cases hcut : (pushAll full out (g a)).2 with
    | true  => simp [bind, Except.bind, hcut, pure, Except.pure]
    | false =>
      simp only [bind, Except.bind, hcut, Bool.false_eq_true, if_false]
      exact eachE_pushAll hbelow (fun b hb => h b (List.mem_cons_of_mem a hb)) _ (hbelow _ _ hout hcut)

end Throw
