import Mathlib.Logic.Function.Basic
import Mathlib.Data.List.Basic
import Mathlib.Tactic.Common
/-!
# Fnv — hashes that mix one word after the other

A hash that takes its words one by one, with steps that lose nothing of the state and nothing of the word, tells two texts
apart that differ in one word (`mix_set_ne`).  The step of FNV is of this kind, for a multiplier that has an inverse
(`step_injective`, `step_word_injective`), and so are the two steps of a finalizer: a shift to the right that is mixed in
(`xorShift_involutive`), and a product (`mul_injective`).
-/
namespace Fnv

variable {σ α : Type*}

section
variable {step : σ → α → σ}

theorem mix_injective (h : ∀ a, Function.Injective (fun s => step s a)) : ∀ l : List α,
    Function.Injective (fun s => l.foldl step s)
  | [], _, _, hst => hst
  | a :: l, _, _, hst => h a (mix_injective h l hst)

/-- **Two texts that differ in one word are told apart.** -/
theorem mix_set_ne (h : ∀ a, Function.Injective (fun s => step s a)) (hword : ∀ s, Function.Injective (step s)) {l : List α}
    {i : Nat} {a : α} (hi : i < l.length) (hne : a ≠ l[i]) (s : σ) : (l.set i a).foldl step s ≠ l.foldl step s := by
  induction l generalizing i s with
  | nil => exact absurd hi (Nat.not_lt_zero i)
  | cons b l ih =>
    cases i with
    | zero => exact fun heq => hne (hword s (mix_injective h l heq))
    | succ i => exact ih (Nat.lt_of_succ_lt_succ hi) hne (step s b)

end

def step (prime h w : UInt64) : UInt64 := (h ^^^ w) * prime

theorem prime_inverse : (1099511628211 : UInt64) * 14886173955864302971 = 1 := by decide

theorem mul_injective {p q : UInt64} (hpq : p * q = 1) : Function.Injective (fun x : UInt64 => x * p) := fun x y hxy => by
  have h := congrArg (· * q) hxy
  simp only [UInt64.mul_assoc, hpq, UInt64.mul_one] at h
  exact h

theorem xor_right_injective (w : UInt64) : Function.Injective (fun h : UInt64 => h ^^^ w) := fun x y hxy => by
  have h := congrArg (· ^^^ w) hxy
  simp only [UInt64.xor_assoc, UInt64.xor_self, UInt64.xor_zero] at h
  exact h

section
variable {p q : UInt64} (hpq : p * q = 1)
include hpq

theorem step_injective (w : UInt64) : Function.Injective (fun h => step p h w) :=
  (mul_injective hpq).comp (xor_right_injective w)

theorem step_word_injective (h : UInt64) : Function.Injective (step p h) := fun x y hxy => by
  rw [step, step, UInt64.xor_comm h x, UInt64.xor_comm h y] at hxy
  exact step_injective hpq h hxy

end

theorem xorShift_involutive {k : Nat} (hk : 64 ≤ k + k) : Function.Involutive (fun x : BitVec 64 => x ^^^ x >>> k) := fun x => by
  show (x ^^^ x >>> k) ^^^ (x ^^^ x >>> k) >>> k = x
  rw [BitVec.ushiftRight_xor_distrib, ← BitVec.shiftRight_add, BitVec.ushiftRight_eq_zero hk, BitVec.xor_zero,
    BitVec.xor_assoc, BitVec.xor_self, BitVec.xor_zero]

end Fnv
