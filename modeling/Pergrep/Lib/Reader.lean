import Mathlib.Tactic.Common
import Mathlib.Data.List.Basic
/-!
# Reader — programs that read a stream

A reader takes tokens off the front of a stream and may throw.  `bind_ok` takes a reader that returned apart.  `Reads rest
x b P a` says that `x` reads `b`, with `rest` behind it, as `a` when `P` holds and throws otherwise: what is read in two
parts is written in two parts, and needs what both parts need (`Reads.bind`).  `many` reads what was written one after
another; `loop` carries a state from one piece to the next.
-/
namespace Reader

universe u

variable {τ ε α β σ : Type u}

abbrev Rd (τ ε α : Type u) := StateT (List τ) (Except ε) α

theorem bind_ok {x : Rd τ ε α} {f : α → Rd τ ε β} {s : List τ} {r : β × List τ} (h : (x >>= f) s = .ok r) :
    ∃ a s', x s = .ok (a, s') ∧ f a s' = .ok r := by
  change (x s >>= fun p => f p.1 p.2) = .ok r at h
  cases hx : x s with
  | error e =>
    rw [hx] at h
    cases h
  | ok p =>
    rw [hx] at h
    exact ⟨p.1, p.2, rfl, h⟩

theorem bind_run {x : Rd τ ε α} {s s' : List τ} {a : α} (h : x s = .ok (a, s')) (f : α → Rd τ ε β) : (x >>= f) s = f a s' := by
  change (x s >>= fun p => f p.1 p.2) = f a s'
  rw [h]
  rfl

theorem pure_ok {a : α} {s : List τ} {r : α × List τ} (h : (pure a : Rd τ ε α) s = .ok r) : r = (a, s) :=
  (Except.ok.inj h).symm

def reject (bad : Prop) [Decidable bad] (e : ε) : Rd τ ε PUnit := if bad then throw e else pure ⟨⟩

theorem reject_ok {bad : Prop} [Decidable bad] {e : ε} {s : List τ} {r : PUnit × List τ} (h : reject bad e s = .ok r) :
    ¬ bad ∧ r = (⟨⟩, s) := by
  unfold reject at h
  split at h
  · cases h
  · exact ⟨‹_›, pure_ok h⟩

def lift (x : Except ε α) : Rd τ ε α := fun s => x.map (fun a => (a, s))

theorem lift_ok {x : Except ε α} {s : List τ} {r : α × List τ} (h : lift x s = .ok r) : x = .ok r.1 ∧ r.2 = s := by
  unfold lift at h
  cases x with
  | error e => cases h
  | ok a =>
    cases h
    exact ⟨rfl, rfl⟩

def remaining {τ ε : Type} : Rd τ ε Nat := fun s => .ok (s.length, s)

def many (x : Rd τ ε α) : Nat → Rd τ ε (List α)
  | 0 => pure []
  | n + 1 => do
    let a ← x
    let as ← many x n
    pure (a :: as)

/-- A reader used `n` times, each time from the state the last one left. -/
def loop (body : σ → Rd τ ε σ) : Nat → σ → Rd τ ε σ
  | 0, st => pure st
  | n + 1, st => body st >>= loop body n

theorem many_length {x : Rd τ ε α} : ∀ {n : Nat} {s s' : List τ} {as : List α}, many x n s = .ok (as, s') → as.length = n
  | 0, s, s', as, h => by
    cases h
    rfl
  | n + 1, s, s', as, h => by
    obtain ⟨a, s₁, -, h⟩ := bind_ok h
    obtain ⟨bs, s₂, h2, h⟩ := bind_ok h
    cases h
    rw [List.length_cons, many_length h2]

/-- **What each turn keeps the loop keeps.** -/
theorem loop_invariant {body : σ → Rd τ ε σ} {Inv : σ → Prop}
    (hbody : ∀ st s st' s', Inv st → body st s = .ok (st', s') → Inv st') : ∀ {n : Nat} {st st' : σ} {s s' : List τ},
    Inv st → loop body n st s = .ok (st', s') → Inv st'
  | 0, st, st', s, s', hst, h => by
    cases h
    exact hst
  | n + 1, st, st', s, s', hst, h => by
    obtain ⟨st₁, s₁, h1, h⟩ := bind_ok h
    exact loop_invariant hbody (hbody _ _ _ _ hst h1) h

theorem loop_many {body : σ → Rd τ ε σ} {x : Rd τ ε α} {out : σ → List α}
    (hbody : ∀ st s st' s', body st s = .ok (st', s') → ∃ a, x s = .ok (a, s') ∧ out st' = out st ++ [a]) :
    ∀ {n : Nat} {st st' : σ} {s s' : List τ}, loop body n st s = .ok (st', s') →
      ∃ as, many x n s = .ok (as, s') ∧ out st' = out st ++ as
  | 0, st, st', s, s', h => by
    cases h
    exact ⟨[], rfl, (List.append_nil _).symm⟩
  | n + 1, st, st', s, s', h => by
    obtain ⟨st₁, s₁, h1, h⟩ := bind_ok h
    obtain ⟨a, ha, hout⟩ := hbody _ _ _ _ h1
    obtain ⟨as, has, hrest⟩ := loop_many hbody h
    refine ⟨a :: as, ?_, by rw [hrest, hout, List.append_assoc, List.singleton_append]⟩
    rw [many, bind_run ha, bind_run has]
    rfl

/-! ## Reading what was written -/

/-- Before `rest`, `x` reads `b` as `a` when `P` holds, and throws otherwise. -/
structure Reads (rest : List τ) (x : Rd τ ε α) (b : List τ) (P : Prop) (a : α) : Prop where
  ok : P → x (b ++ rest) = .ok (a, rest)
  throws : ¬ P → ∃ e, x (b ++ rest) = .error e

theorem Reads.congr {rest : List τ} {x : Rd τ ε α} {b : List τ} {P Q : Prop} {a : α} (h : Reads rest x b P a)
    (hPQ : P ↔ Q) : Reads rest x b Q a :=
  propext hPQ ▸ h

theorem Reads.pure {rest : List τ} (a : α) : Reads rest (Pure.pure a : Rd τ ε α) [] True a :=
  ⟨fun _ => rfl, fun h => absurd trivial h⟩

theorem Reads.bind {rest : List τ} {x : Rd τ ε α} {f : α → Rd τ ε β} {b c : List τ} {P Q : Prop} {a : α} {d : β}
    (hx : Reads (c ++ rest) x b P a) (hf : P → Reads rest (f a) c Q d) : Reads rest (x >>= f) (b ++ c) (P ∧ Q) d := by
  have hrun : (x >>= f) (b ++ c ++ rest) = (x (b ++ (c ++ rest)) >>= fun p => f p.1 p.2) := by
    rw [List.append_assoc]
    rfl
  constructor
  · rintro ⟨hP, hQ⟩
    rw [hrun, hx.ok hP]
    exact (hf hP).ok hQ
  · intro hPQ
    rw [hrun]
    by_cases hP : P
    · rw [hx.ok hP]
      exact (hf hP).throws (fun hQ => hPQ ⟨hP, hQ⟩)
    · obtain ⟨e, he⟩ := hx.throws hP
      exact ⟨e, by rw [he]; rfl⟩

theorem Reads.andThen {rest : List τ} {x : Rd τ ε α} {f : α → Rd τ ε β} {b c : List τ} {Q : Prop} {a : α} {d : β}
    (hx : Reads (c ++ rest) x b True a) (hf : Reads rest (f a) c Q d) : Reads rest (x >>= f) (b ++ c) Q d :=
  (hx.bind (fun _ => hf)).congr (by rw [true_and])

theorem Reads.finish {rest : List τ} {x : Rd τ ε α} {f : α → Rd τ ε β} {b : List τ} {P Q : Prop} {a : α} {d : β}
    (hx : Reads rest x b P a) (hf : P → Reads rest (f a) [] Q d) : Reads rest (x >>= f) b (P ∧ Q) d := by
  have h := @Reads.bind _ _ _ _ rest x f b [] P Q a d hx hf
  rwa [List.append_nil] at h

theorem Reads.map {rest : List τ} {x : Rd τ ε α} {g : α → β} {b : List τ} {P : Prop} {a : α} (hx : Reads rest x b P a) :
    Reads rest (x >>= fun a => Pure.pure (g a)) b P (g a) := by
  exact (hx.finish (fun _ => Reads.pure (g a))).congr (and_iff_left trivial)

theorem Reads.check {rest : List τ} {bad : Prop} [Decidable bad] {e : ε} {f : PUnit → Rd τ ε β} {c : List τ} {Q : Prop}
    {d : β} (hf : ¬ bad → Reads rest (f ⟨⟩) c Q d) : Reads rest (reject bad e >>= f) c (¬ bad ∧ Q) d := by
  by_cases hbad : bad
  · refine ⟨fun h => absurd hbad h.1, fun _ => ⟨e, ?_⟩⟩
    rw [reject, if_pos hbad]
    rfl
  · rw [reject, if_neg hbad]
    exact (hf hbad).congr (and_iff_right hbad).symm

theorem Reads.passed {rest : List τ} {bad : Prop} [Decidable bad] {e : ε} {f : PUnit → Rd τ ε β} {c : List τ} {Q : Prop}
    {d : β} (hbad : ¬ bad) (hf : Reads rest (f ⟨⟩) c Q d) : Reads rest (reject bad e >>= f) c Q d :=
  (Reads.check (fun _ => hf)).congr (and_iff_right hbad)

theorem Reads.remaining {τ ε β : Type} {rest : List τ} {f : Nat → Rd τ ε β} {c : List τ} {Q : Prop} {d : β}
    (hf : Reads rest (f (c ++ rest).length) c Q d) : Reads rest (Reader.remaining >>= f) c Q d :=
  ⟨hf.ok, hf.throws⟩

theorem Reads.lift {rest : List τ} {x : Except ε α} {f : α → Rd τ ε β} {c : List τ} {Q : Prop} {a : α} {d : β}
    (hx : x = .ok a) (hf : Reads rest (f a) c Q d) : Reads rest (Reader.lift x >>= f) c Q d := by
  subst hx
  exact hf

theorem Reads.tryLift {rest : List τ} {x : Except ε α} {f : α → Rd τ ε β} {c : List τ} {Q : Prop} {d : β}
    (hf : ∀ a, x = .ok a → Reads rest (f a) c Q d) : Reads rest (Reader.lift x >>= f) c ((∃ a, x = .ok a) ∧ Q) d := by
  cases x with
  | error e => exact ⟨fun ⟨⟨_, h⟩, _⟩ => (by cases h), fun _ => ⟨e, rfl⟩⟩
  | ok a    => exact (Reads.lift rfl (hf a rfl)).congr (and_iff_right ⟨a, rfl⟩).symm

theorem Reads.ofExcept {rest : List τ} (x : Except ε α) (d : α) :
    Reads rest (Reader.lift x) [] (∃ a, x = .ok a) (x.toOption.getD d) := by
  cases x with
  | error e => exact ⟨fun ⟨_, h⟩ => (by cases h), fun _ => ⟨e, rfl⟩⟩
  | ok a    => exact ⟨fun _ => rfl, fun h => absurd ⟨a, rfl⟩ h⟩

/-- **What was written one after another is read one after another.** -/
theorem Reads.many {x : Rd τ ε α} {w : α → List τ} {P : α → Prop} : ∀ {as : List α} (rest : List τ),
    (∀ a ∈ as, ∀ rest, Reads rest x (w a) (P a) a) → Reads rest (many x as.length) (as.flatMap w) (∀ a ∈ as, P a) as
  | [], rest, _ => (Reads.pure []).congr (by simp)
  | a :: as, rest, h => by
    have hrest := Reads.many rest (fun b hb => h b (List.mem_cons_of_mem a hb))
    exact ((h a List.mem_cons_self _).bind (fun _ => hrest.map)).congr List.forall_mem_cons.symm

theorem Reads.loop {body : σ → Rd τ ε σ} {w : α → List τ} {P : α → Prop} {f : σ → α → σ} {Inv : σ → List α → Prop}
    (hstep : ∀ st a as rest, Inv st (a :: as) → Reads rest (body st) (w a) (P a) (f st a) ∧ Inv (f st a) as) :
    ∀ {as : List α} {st : σ} (rest : List τ), Inv st as →
      Reads rest (loop body as.length st) (as.flatMap w) (∀ a ∈ as, P a) (as.foldl f st)
  | [], st, _, _ => (Reads.pure st).congr (by simp)
  | a :: as, st, rest, h =>
    ((hstep st a as _ h).1.bind (fun _ => Reads.loop hstep rest (hstep st a as rest h).2)).congr List.forall_mem_cons.symm

end Reader
