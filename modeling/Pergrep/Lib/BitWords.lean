import Mathlib.Data.List.Basic
import Mathlib.Data.List.Enum
import Mathlib.Data.Nat.Bitwise
import Mathlib.Tactic.Common
/-!
# BitWords — bits kept in an array of words

A filter keeps its bits in a flat array of machine words, a word a natural number.  `setBit a i k` is
`a[i] |= 1 << k` and `getBit a i k` asks for that bit; `setBits` sets many.  A bit is set exactly when it was, or when
it is among those set and its word is in the array (`getBit_setBits`).  `andRow` is the intersection of a row of words
with a mask (`getBit_andRow`); `positions` are the numbers of the bits of a mask, in order.
-/
namespace BitWords

def setBit (a : List Nat) (i k : Nat) : List Nat := a.modify i (· ||| 1 <<< k)

def getBit (a : List Nat) (i k : Nat) : Bool := (a.getD i 0).testBit k

def setBits (a : List Nat) (ps : List (Nat × Nat)) : List Nat := ps.foldl (fun a p => setBit a p.1 p.2) a

@[simp] theorem length_setBit (a : List Nat) (i k : Nat) : (setBit a i k).length = a.length := by simp [setBit]

@[simp] theorem length_setBits : ∀ (ps : List (Nat × Nat)) (a : List Nat), (setBits a ps).length = a.length
  | [], _ => rfl
  | p :: ps, a => by
    rw [setBits, List.foldl_cons]
    exact (length_setBits ps _).trans (length_setBit a p.1 p.2)

theorem getBit_setBit (a : List Nat) (i k j l : Nat) :
    getBit (setBit a i k) j l = true ↔ getBit a j l = true ∨ (j = i ∧ l = k ∧ i < a.length) := by
  unfold getBit setBit
  rw [List.getD_eq_getElem?_getD, List.getD_eq_getElem?_getD, List.getElem?_modify, Option.map_eq_map]
  by_cases hij : i = j
  · subst hij
    by_cases hlen : i < a.length
    · rw [List.getElem?_eq_getElem hlen]
      simp only [if_true, Option.map_some, Option.getD_some, Nat.testBit_or, Nat.one_shiftLeft, Nat.testBit_two_pow,
        Bool.or_eq_true, decide_eq_true_eq, true_and]
      constructor
      · rintro (h | h)
        · exact Or.inl h
        · exact Or.inr ⟨h.symm, hlen⟩
      · rintro (h | h)
        · exact Or.inl h
        · exact Or.inr h.1.symm
    · rw [List.getElem?_eq_none (Nat.le_of_not_lt hlen)]
      simp [hlen]
  · have hji : ¬ j = i := fun h => hij h.symm
    simp [hij, hji]

theorem getBit_setBits : ∀ (ps : List (Nat × Nat)) (a : List Nat) (j l : Nat),
    getBit (setBits a ps) j l = true ↔ getBit a j l = true ∨ ((j, l) ∈ ps ∧ j < a.length)
  | [], a, j, l => by simp [setBits]
  | (i, k) :: ps, a, j, l => by
    have ih := getBit_setBits ps (setBit a i k) j l
    rw [setBits, List.foldl_cons]
    rw [setBits] at ih
    rw [ih, getBit_setBit, length_setBit, List.mem_cons, Prod.mk.injEq]
    constructor
    · rintro ((h | ⟨rfl, rfl, h⟩) | ⟨h1, h2⟩)
      · exact Or.inl h
      · exact Or.inr ⟨Or.inl ⟨rfl, rfl⟩, h⟩
      · exact Or.inr ⟨Or.inr h1, h2⟩
    · rintro (h | ⟨⟨rfl, rfl⟩ | h1, h2⟩)
      · exact Or.inl (Or.inl h)
      · exact Or.inl (Or.inr ⟨rfl, rfl, h2⟩)
      · exact Or.inr ⟨h1, h2⟩

def andRow (a : List Nat) (stride row : Nat) (c : List Nat) : List Nat :=
  c.mapIdx (fun j w => w &&& a.getD (row * stride + j) 0)

theorem setBits_lt {w : Nat} {ps : List (Nat × Nat)} {a : List Nat} (ha : ∀ x ∈ a, x < 2 ^ w) (hp : ∀ p ∈ ps, p.2 < w) :
    ∀ x ∈ setBits a ps, x < 2 ^ w := by
  intro x hx
  obtain ⟨j, hj, rfl⟩ := List.mem_iff_getElem.1 hx
  have hbit : ∀ l, getBit (setBits a ps) j l = (setBits a ps)[j].testBit l := fun l => by
    rw [getBit, List.getD_eq_getElem?_getD, List.getElem?_eq_getElem hj]
    rfl
  refine Nat.lt_pow_two_of_testBit _ (fun l hl => Bool.eq_false_iff.2 (fun htrue => ?_))
  rw [← hbit, getBit_setBits] at htrue
  rcases htrue with h | ⟨h, -⟩
  · have hlt : j < a.length := by rwa [length_setBits] at hj
    have hword := ha a[j] (List.getElem_mem hlt)
    rw [getBit, List.getD_eq_getElem?_getD, List.getElem?_eq_getElem hlt, Option.getD_some,
      Nat.testBit_lt_two_pow (hword.trans_le (Nat.pow_le_pow_right (by decide) hl))] at h
    cases h
  · exact absurd (hp _ h) (Nat.not_lt.2 hl)

@[simp] theorem length_andRow (a : List Nat) (stride row : Nat) (c : List Nat) : (andRow a stride row c).length = c.length := by
  simp [andRow]

theorem getBit_andRow (a : List Nat) (stride row : Nat) (c : List Nat) (j l : Nat) :
    getBit (andRow a stride row c) j l = true ↔ getBit c j l = true ∧ getBit a (row * stride + j) l = true := by
  unfold getBit andRow
  rw [List.getD_eq_getElem?_getD, List.getElem?_mapIdx]
  by_cases hj : j < c.length
  · rw [List.getElem?_eq_getElem hj]
    simp only [Option.map_some, Option.getD_some, Nat.testBit_and, Bool.and_eq_true, List.getD_eq_getElem?_getD,
      List.getElem?_eq_getElem hj]
  · rw [List.getElem?_eq_none (Nat.le_of_not_lt hj), List.getD_eq_getElem?_getD (l := c),
      List.getElem?_eq_none (Nat.le_of_not_lt hj)]
    simp

theorem getBit_andRows (a : List Nat) (stride : Nat) : ∀ (rows c : List Nat) (j l : Nat),
    getBit (rows.foldl (fun c row => andRow a stride row c) c) j l = true ↔
      getBit c j l = true ∧ ∀ row ∈ rows, getBit a (row * stride + j) l = true
  | [], c, j, l => by simp
  | row :: rows, c, j, l => by
    rw [List.foldl_cons, getBit_andRows a stride rows, getBit_andRow, List.forall_mem_cons, and_assoc]

@[simp] theorem length_andRows (a : List Nat) (stride : Nat) (rows c : List Nat) :
    (rows.foldl (fun c row => andRow a stride row c) c).length = c.length := by
  induction rows generalizing c with
  | nil => rfl
  | cons row rows ih => rw [List.foldl_cons, ih, length_andRow]

theorem any_of_getBit {row : List Nat} {j l : Nat} (h : getBit row j l = true) : row.any (· != 0) = true := by
  unfold getBit at h
  rw [List.getD_eq_getElem?_getD] at h
  rw [List.any_eq_true]
  cases hj : row[j]? with
  | none => simp [hj] at h
  | some w =>
    refine ⟨w, List.mem_of_getElem? hj, ?_⟩
    rw [hj, Option.getD_some] at h
    rw [bne_iff_ne]
    rintro rfl
    simp at h

theorem getBit_ones {width n i : Nat} (hw : 0 < width) (hi : i < n) :
    getBit (if n % width = 0 then List.replicate ((n + (width - 1)) / width) (2 ^ width - 1)
      else List.replicate ((n + (width - 1)) / width - 1) (2 ^ width - 1) ++ [2 ^ (n % width) - 1])
      (i / width) (i % width) = true := by
  have hmod := Nat.mod_lt i hw
  have hdiv : i / width ≤ n / width := Nat.div_le_div_right (Nat.le_of_lt hi)
  have hi' := Nat.div_add_mod i width
  have hn := Nat.div_add_mod n width
  unfold getBit
  rw [List.getD_eq_getElem?_getD]
  split
  · rename_i h0
    have hwords : (n + (width - 1)) / width = n / width := by
      refine Nat.div_eq_of_lt_le ?_ ?_
      · rw [Nat.mul_comm]
        omega
      · rw [Nat.succ_mul, Nat.mul_comm]
        omega
    have hlt : i / width < n / width := by
      refine Nat.lt_of_le_of_ne hdiv (fun he => ?_)
      rw [he] at hi'
      omega
    rw [hwords, List.getElem?_replicate, if_pos hlt, Option.getD_some, Nat.testBit_two_pow_sub_one]
    exact decide_eq_true hmod
  · rename_i h0
    have hwords : (n + (width - 1)) / width = n / width + 1 := by
      have := Nat.mod_lt n hw
      refine Nat.div_eq_of_lt_le ?_ ?_
      · rw [Nat.succ_mul, Nat.mul_comm]
        omega
      · rw [Nat.succ_mul, Nat.succ_mul, Nat.mul_comm]
        omega
    rw [hwords, Nat.add_sub_cancel]
    rcases Nat.lt_or_ge (i / width) (n / width) with hlt | hge
    · rw [List.getElem?_append_left (by simpa using hlt), List.getElem?_replicate, if_pos hlt, Option.getD_some,
        Nat.testBit_two_pow_sub_one]
      exact decide_eq_true hmod
    · have he : i / width = n / width := Nat.le_antisymm hdiv hge
      rw [List.getElem?_append_right (by simpa using hge), List.length_replicate, he, Nat.sub_self]
      rw [he] at hi'
      simp only [List.getElem?_cons_zero, Option.getD_some, Nat.testBit_two_pow_sub_one, decide_eq_true_eq]
      omega

/-! ## The bits of a mask -/

/-- The numbers of the set bits of a word, least first, as `countr_zero` takes them off. -/
def bitsOf (width w : Nat) : List Nat := (List.range width).filter (fun k => w.testBit k)

theorem mem_bitsOf {width w k : Nat} : k ∈ bitsOf width w ↔ k < width ∧ w.testBit k = true := by simp [bitsOf]

def positions (width : Nat) (c : List Nat) : List Nat :=
  c.zipIdx.flatMap (fun w => (bitsOf width w.1).map (fun b => w.2 * width + b))

theorem mem_positions {width : Nat} (hw : 0 < width) {row : List Nat} {i : Nat} :
    i ∈ positions width row ↔ getBit row (i / width) (i % width) = true := by
  unfold positions getBit
  rw [List.mem_flatMap, List.getD_eq_getElem?_getD]
  constructor
  · rintro ⟨⟨w, j⟩, hwj, hi⟩
    obtain ⟨b, hb, rfl⟩ := List.mem_map.1 hi
    obtain ⟨hlt, hbit⟩ := mem_bitsOf.1 hb
    have hget := List.mem_zipIdx_iff_getElem?.1 hwj
    rw [Nat.mul_comm, Nat.mul_add_div hw, Nat.div_eq_of_lt hlt, Nat.add_zero, Nat.mul_add_mod, Nat.mod_eq_of_lt hlt, hget]
    exact hbit
  · intro h
    cases hj : row[i / width]? with
    | none => simp [hj] at h
    | some w =>
      rw [hj, Option.getD_some] at h
      refine ⟨(w, i / width), List.mem_zipIdx_iff_getElem?.2 hj, List.mem_map.2 ⟨i % width, mem_bitsOf.2 ⟨Nat.mod_lt i hw, h⟩, ?_⟩⟩
      rw [Nat.mul_comm]
      exact Nat.div_add_mod i width

theorem positions_sorted (width : Nat) (c : List Nat) : (positions width c).Pairwise (· < ·) := by
  unfold positions
  rw [List.pairwise_flatMap]
  constructor
  · intro w _
    refine List.Pairwise.map _ (fun _ _ h => Nat.add_lt_add_left h _) ?_
    exact List.Pairwise.filter _ List.pairwise_lt_range
  · have hidx : c.zipIdx.Pairwise (fun v w => v.2 < w.2) := by
      rw [← List.pairwise_map (f := Prod.snd) (R := (· < ·)), List.zipIdx_map_snd]
      exact List.pairwise_lt_range' 1
    refine hidx.imp (fun {v w} hvw x hx y hy => ?_)
    obtain ⟨b, hb, rfl⟩ := List.mem_map.1 hx
    obtain ⟨d, hd, rfl⟩ := List.mem_map.1 hy
    have hlt := (mem_bitsOf.1 hb).1
    calc v.2 * width + b < (v.2 + 1) * width := by rw [Nat.succ_mul]; omega
      _ ≤ w.2 * width := Nat.mul_le_mul_right width hvw
      _ ≤ w.2 * width + d := Nat.le_add_right _ _

end BitWords
