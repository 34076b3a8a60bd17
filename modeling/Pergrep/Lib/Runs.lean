import Mathlib.Tactic.Common
/-!
# Runs — machines, and what holds along their runs

A machine is a partial step function on states and actions.  `Run step ok s t` says that steps the machine can take, each
allowed by `ok` in the state it is taken in, lead from `s` to `t`; an action of any party counts, so a run is any
interleaving.  What a step keeps a run keeps (`Run.invariant`).
-/
namespace Runs

variable {σ α : Type*}

/-- Allowed steps lead from the first state to the second. -/
inductive Run (step : σ → α → Option σ) (ok : σ → α → Prop) : σ → σ → Prop
  | refl (s : σ) : Run step ok s s
  | tail {s t u : σ} {a : α} : Run step ok s t → ok t a → step t a = some u → Run step ok s u

/-- **What a step keeps, a run keeps.** -/
theorem Run.invariant {step : σ → α → Option σ} {ok : σ → α → Prop} {Inv : σ → Prop}
    (hstep : ∀ s a t, Inv s → ok s a → step s a = some t → Inv t) {s t : σ} (h : Run step ok s t) (hs : Inv s) : Inv t := by
  induction h with
  | refl => exact hs
  | tail _ hok hst ih => exact hstep _ _ _ ih hok hst

def runAll (step : σ → α → Option σ) : σ → List α → Option σ
  | s, [] => some s
  | s, a :: as => (step s a).bind (fun t => runAll step t as)

theorem Run.trans {step : σ → α → Option σ} {ok : σ → α → Prop} {s t u : σ} (h : Run step ok s t) (h' : Run step ok t u) :
    Run step ok s u := by
  induction h' with
  | refl => exact h
  | tail _ hok hst ih => exact ih.tail hok hst

theorem Run.cons {step : σ → α → Option σ} {ok : σ → α → Prop} {s t u : σ} (a : α) (hok : ok s a)
    (hst : step s a = some t) (h : Run step ok t u) : Run step ok s u :=
  ((Run.refl s).tail hok hst).trans h

theorem Run.of_runAll {step : σ → α → Option σ} {ok : σ → α → Prop} (hok : ∀ s a, ok s a) : ∀ {as : List α} {s t : σ},
    runAll step s as = some t → Run step ok s t
  | [], s, t, h => by
    cases h
    exact Run.refl _
  | a :: as, s, t, h => by
    obtain ⟨u, hu, h⟩ := Option.bind_eq_some_iff.1 h
    exact Run.cons a (hok s a) hu (Run.of_runAll hok h)

end Runs
