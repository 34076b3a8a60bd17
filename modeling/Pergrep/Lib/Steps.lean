import Mathlib.Logic.Relation
import Mathlib.Tactic.Common
/-!
# Steps — a relation on positions, so many times over

`iterSpan R k p q` is `k` steps of `R` from `p` to `q`.  Of a relation whose steps move on and are determined, two positions
have one number of steps between them (`iterSpan_unique`), and as many steps from further back end further back
(`iterSpan_lt`).  Steps that stay where they are may be left out (`iterSpan_moving`).
-/
namespace Steps

open Relation

/-- A relation on positions, `k` times over. -/
def iterSpan (R : Nat → Nat → Prop) : Nat → Nat → Nat → Prop
  | 0, p, q => p = q
  | k + 1, p, q => ∃ m, R p m ∧ iterSpan R k m q

section
variable {R : Nat → Nat → Prop}

theorem iterSpan_one {p q : Nat} (h : R p q) : iterSpan R 1 p q := ⟨q, h, rfl⟩

theorem iterSpan_trans : ∀ {a b p m q : Nat}, iterSpan R a p m → iterSpan R b m q → iterSpan R (a + b) p q
  | 0, b, _, _, _, h1, h2 => by
    rw [iterSpan] at h1
    rw [h1, Nat.zero_add]
    exact h2
  | a + 1, b, _, _, _, ⟨x, hx, h1⟩, h2 => by
    rw [Nat.succ_add]
    exact ⟨x, hx, iterSpan_trans h1 h2⟩

theorem exists_iterSpan {p q : Nat} (h : ReflTransGen R p q) : ∃ k, iterSpan R k p q := by
  induction h with
  | refl => exact ⟨0, rfl⟩
  | tail _ hs ih =>
    obtain ⟨k, hk⟩ := ih
    exact ⟨k + 1, iterSpan_trans hk (iterSpan_one hs)⟩

theorem iterSpan_le (hR : ∀ p q, R p q → p ≤ q) : ∀ {k s e : Nat}, iterSpan R k s e → s ≤ e
  | 0, _, _, h => Nat.le_of_eq h
  | _ + 1, _, _, ⟨_, h1, h2⟩ => Nat.le_trans (hR _ _ h1) (iterSpan_le hR h2)

theorem iterSpan_bounds {a b : Nat} (hle : ∀ p q, R p q → p ≤ q) : ∀ {k s e : Nat},
    (∀ p q, q ≤ e → R p q → a ≤ q - p ∧ q - p ≤ b) → iterSpan R k s e → k * a ≤ e - s ∧ e - s ≤ k * b
  | 0, s, e, _, h => by
    rw [show s = e from h, Nat.sub_self, Nat.zero_mul, Nat.zero_mul]
    exact ⟨Nat.le_refl 0, Nat.le_refl 0⟩
  | k + 1, s, e, hR, ⟨m, h1, h2⟩ => by
    have hm := hle _ _ h1
    have he := iterSpan_le hle h2
    obtain ⟨h3, h4⟩ := hR _ _ he h1
    obtain ⟨h5, h6⟩ := iterSpan_bounds hle hR h2
    rw [Nat.succ_mul, Nat.succ_mul]
    omega

theorem iterSpan_imp {S : Nat → Nat → Prop} (h : ∀ p q, R p q → S p q) : ∀ {k p q : Nat}, iterSpan R k p q → iterSpan S k p q
  | 0, _, _, he => he
  | _ + 1, _, _, ⟨m, h1, h2⟩ => ⟨m, h _ _ h1, iterSpan_imp h h2⟩

def Moving (R : Nat → Nat → Prop) (p q : Nat) : Prop := R p q ∧ q ≠ p

/-- What so many steps reach, so many or fewer that move reach. -/
theorem iterSpan_moving : ∀ {k p q : Nat}, iterSpan R k p q → ∃ j, j ≤ k ∧ iterSpan (Moving R) j p q
  | 0, _, _, h => ⟨0, Nat.le_refl 0, h⟩
  | k + 1, p, q, ⟨m, h1, h2⟩ => by
    obtain ⟨j, hj, h⟩ := iterSpan_moving h2
    by_cases hm : m = p
    · exact ⟨j, Nat.le_succ_of_le hj, hm ▸ h⟩
    · exact ⟨j + 1, Nat.succ_le_succ hj, m, ⟨h1, hm⟩, h⟩

end

/-! ## Steps that move on and are determined -/

section
variable {R : Nat → Nat → Prop} (hlt : ∀ p q, R p q → p < q) (hdet : ∀ p q q', R p q → R p q' → q = q')
include hlt

theorem iterSpan_lt_of_pos {k s e : Nat} (h : iterSpan R (k + 1) s e) : s < e := by
  obtain ⟨m, h1, h2⟩ := h
  exact Nat.lt_of_lt_of_le (hlt _ _ h1) (iterSpan_le (fun p q hpq => Nat.le_of_lt (hlt p q hpq)) h2)

include hdet

theorem iterSpan_unique : ∀ {a b p q : Nat}, iterSpan R a p q → iterSpan R b p q → a = b
  | 0, 0, _, _, _, _ => rfl
  | 0, b + 1, p, q, ha, hb => by
    have h1 : p = q := ha
    have h2 := iterSpan_lt_of_pos hlt hb
    omega
  | a + 1, 0, p, q, ha, hb => by
    have h1 : p = q := hb
    have h2 := iterSpan_lt_of_pos hlt ha
    omega
  | a + 1, b + 1, _, _, ⟨m, h1, ha⟩, ⟨m', h2, hb⟩ => by
    obtain rfl := hdet _ _ _ h1 h2
    rw [iterSpan_unique ha hb]

theorem iterSpan_split {a b p p' q : Nat} (h : iterSpan R a p q) (h' : iterSpan R b p' q) (hp : ReflTransGen R p p') :
    ∃ k, iterSpan R k p p' ∧ a = k + b := by
  obtain ⟨k, hk⟩ := exists_iterSpan hp
  exact ⟨k, hk, iterSpan_unique hlt hdet h (iterSpan_trans hk h')⟩

omit hlt in
theorem iterSpan_rest : ∀ {a k p q r : Nat}, iterSpan R a p q → iterSpan R (a + k) p r → iterSpan R k q r
  | 0, k, p, q, r, h, h' => by
    rw [Nat.zero_add] at h'
    rwa [← show p = q from h]
  | a + 1, k, p, q, r, ⟨m, h1, h⟩, h' => by
    rw [Nat.succ_add] at h'
    obtain ⟨m', h2, h'⟩ := h'
    obtain rfl := hdet _ _ _ h1 h2
    exact iterSpan_rest h h'

/-- **As many steps from further back end further back.** -/
theorem iterSpan_lt {n p p' q q' : Nat} (h : iterSpan R n p q) (h' : iterSpan R n p' q') (hp : ReflTransGen R p p')
    (hne : p ≠ p') : q < q' := by
  obtain ⟨k, hk⟩ := exists_iterSpan hp
  cases k with
  | zero => exact absurd hk hne
  | succ k =>
    have hall := iterSpan_trans hk h'
    rw [Nat.add_comm] at hall
    exact iterSpan_lt_of_pos hlt (iterSpan_rest hdet h hall)

end

end Steps
