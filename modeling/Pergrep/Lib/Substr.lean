import Mathlib.Data.List.Basic
import Mathlib.Tactic.Common
/-!
# Substr — occurrences of a list in a list, and the leftmost one from an offset

`occursAt s q x` says `q` stands in `s` at offset `x`; `findFrom s q pos` is the leftmost such offset at or after
`pos`, as `std::basic_string_view::find` computes it (an empty `q` is found at every offset up to the length).
`findFrom_eq_some` and `findFrom_eq_none` are its specification.
-/
namespace Substr

variable {α : Type*} [DecidableEq α]

def occursAt (s q : List α) (x : Nat) : Bool :=
  decide (x ≤ s.length) && q.isPrefixOf (s.drop x)

def findIn (q : List α) : List α → Nat → Option Nat
  | [], off     => if q.isPrefixOf ([] : List α) then some off else none
  | a :: t, off => if q.isPrefixOf (a :: t) then some off else findIn q t (off + 1)

def findFrom (s q : List α) (pos : Nat) : Option Nat :=
  if pos ≤ s.length then findIn q (s.drop pos) pos else none

theorem occursAt_iff (s q : List α) (x : Nat) :
    occursAt s q x = true ↔ x ≤ s.length ∧ q <+: s.drop x := by
  simp [occursAt, List.isPrefixOf_iff_prefix]

theorem occursAt_le {s q : List α} {x : Nat} (h : occursAt s q x = true) : x + q.length ≤ s.length := by
  obtain ⟨hx, hp⟩ := (occursAt_iff s q x).1 h
  have := hp.length_le
  rw [List.length_drop] at this
  omega

theorem occursAt_iff_getElem (s q : List α) (x : Nat) :
    occursAt s q x = true ↔ x ≤ s.length ∧ ∀ i, i < q.length → s[x + i]? = q[i]? := by
  rw [occursAt_iff]
  refine and_congr_right (fun hx => ?_)
  rw [List.prefix_iff_getElem?]
  constructor
  · intro h i hi
    have := h i hi
    rw [List.getElem?_drop] at this
    rw [this, List.getElem?_eq_getElem hi]
  · intro h i hi
    rw [List.getElem?_drop, h i hi, List.getElem?_eq_getElem hi]

theorem occursAt_drop (s q : List α) (k x : Nat) (hk : k ≤ s.length) :
    occursAt (s.drop k) q x = occursAt s q (k + x) := by
  rw [Bool.eq_iff_iff, occursAt_iff, occursAt_iff, List.drop_drop, List.length_drop]
  constructor
  · rintro ⟨h, hp⟩; exact ⟨by omega, hp⟩
  · rintro ⟨h, hp⟩; exact ⟨by omega, hp⟩

theorem occursAt_append (s q r : List α) (x : Nat) :
    occursAt s (q ++ r) x = true ↔ occursAt s q x = true ∧ occursAt s r (x + q.length) = true := by
  simp only [occursAt_iff]
  constructor
  · rintro ⟨hx, t, ht⟩
    rw [List.append_assoc] at ht
    have hlen := congrArg List.length ht
    rw [List.length_append, List.length_drop] at hlen
    refine ⟨⟨hx, _, ht⟩, by omega, t, ?_⟩
    rw [← List.drop_drop, ← ht, List.drop_left]
  · rintro ⟨⟨hx, t, ht⟩, -, u, hu⟩
    rw [← List.drop_drop, ← ht, List.drop_left] at hu
    exact ⟨hx, u, by rw [List.append_assoc, hu, ht]⟩

theorem occursAt_take (s q : List α) (n x : Nat) (hn : x + q.length ≤ n) :
    occursAt (s.take n) q x = occursAt s q x := by
  rw [Bool.eq_iff_iff, occursAt_iff_getElem, occursAt_iff_getElem, List.length_take]
  constructor
  · rintro ⟨hx, h⟩
    refine ⟨by omega, fun i hi => ?_⟩
    have := h i hi
    rwa [List.getElem?_take_of_lt (by omega)] at this
  · rintro ⟨hx, h⟩
    refine ⟨by omega, fun i hi => ?_⟩
    rw [List.getElem?_take_of_lt (by omega)]
    exact h i hi

theorem findIn_spec (q : List α) : ∀ (s : List α) (off : Nat),
    (∀ x, findIn q s off = some x ↔
      ∃ d, x = off + d ∧ d ≤ s.length ∧ q <+: s.drop d ∧ ∀ d' < d, ¬ q <+: s.drop d') ∧
    (findIn q s off = none ↔ ∀ d ≤ s.length, ¬ q <+: s.drop d)
  | [], off => by
    by_cases hq : q.isPrefixOf ([] : List α) = true
    · have hp : q <+: ([] : List α) := List.isPrefixOf_iff_prefix.1 hq
      refine ⟨fun x => ?_, ?_⟩
      · simp only [findIn, hq, if_true, Option.some.injEq]
        constructor
        · rintro rfl
          exact ⟨0, by omega, Nat.le_refl _, by simpa using hp, fun d' hd' => by omega⟩
        · rintro ⟨d, rfl, hd, -, -⟩
          simp only [List.length_nil, Nat.le_zero] at hd
          omega
      · simp only [findIn, hq, if_true, reduceCtorEq, false_iff, not_forall]
        exact ⟨0, Nat.le_refl _, by simpa using hp⟩
    · have hp : ¬ q <+: ([] : List α) := fun h => hq (List.isPrefixOf_iff_prefix.2 h)
      refine ⟨fun x => ?_, ?_⟩
      · simp only [findIn, hq, if_false, reduceCtorEq, false_iff, not_exists, Bool.false_eq_true]
        rintro d ⟨-, -, hd, -⟩
        exact hp (by simpa using hd)
      · simp only [findIn, hq, if_false, true_iff, Bool.false_eq_true]
        intro d _ hd
        exact hp (by simpa using hd)
  | a :: t, off => by
    obtain ⟨ih1, ih2⟩ := findIn_spec q t (off + 1)
    by_cases hq : q.isPrefixOf (a :: t) = true
    · have hp : q <+: a :: t := List.isPrefixOf_iff_prefix.1 hq
      refine ⟨fun x => ?_, ?_⟩
      · simp only [findIn, hq, if_true, Option.some.injEq]
        constructor
        · rintro rfl
          exact ⟨0, by omega, Nat.zero_le _, by simpa using hp, fun d' hd' => by omega⟩
        · rintro ⟨d, rfl, -, -, hmin⟩
          rcases Nat.eq_zero_or_pos d with rfl | hd
          · omega
          · exact absurd (by simpa using hp) (hmin 0 hd)
      · simp only [findIn, hq, if_true, reduceCtorEq, false_iff, not_forall]
        exact ⟨0, Nat.zero_le _, by simpa using hp⟩
    · have hp : ¬ q <+: a :: t := fun h => hq (List.isPrefixOf_iff_prefix.2 h)
      refine ⟨fun x => ?_, ?_⟩
      · simp only [findIn, hq, if_false, Bool.false_eq_true]
        rw [ih1]
        constructor
        · rintro ⟨d, rfl, hd, hpd, hmin⟩
          refine ⟨d + 1, by omega, by simpa using hd, by simpa using hpd, fun d' hd' => ?_⟩
          cases d' with
          | zero => simpa using hp
          | succ d' => simpa using hmin d' (by omega)
        · rintro ⟨d, rfl, hd, hpd, hmin⟩
          cases d with
          | zero => exact absurd (by simpa using hpd) hp
          | succ d =>
            refine ⟨d, by omega, by simpa using hd, by simpa using hpd, fun d' hd' => ?_⟩
            simpa using hmin (d' + 1) (by omega)
      · simp only [findIn, hq, if_false, Bool.false_eq_true]
        rw [ih2]
        constructor
        · intro h d hd
          cases d with
          | zero => simpa using hp
          | succ d => simpa using h d (by simpa using hd)
        · intro h d hd
          simpa using h (d + 1) (by simpa using hd)

/-- **`findFrom` answers the leftmost occurrence at or after its offset.** -/
theorem findFrom_eq_some {s q : List α} {pos x : Nat} :
    findFrom s q pos = some x ↔
      pos ≤ x ∧ occursAt s q x = true ∧ ∀ y, pos ≤ y → y < x → occursAt s q y = false := by
  unfold findFrom
  split
  · rename_i hpos
    rw [(findIn_spec q (s.drop pos) pos).1]
    simp only [List.length_drop, List.drop_drop]
    constructor
    · rintro ⟨d, rfl, hd, hpd, hmin⟩
      refine ⟨by omega, (occursAt_iff _ _ _).2 ⟨by omega, hpd⟩, fun y hy hyx => ?_⟩
      rw [Bool.eq_false_iff]
      intro ho
      have := hmin (y - pos) (by omega)
      rw [show pos + (y - pos) = y by omega] at this
      exact this ((occursAt_iff _ _ _).1 ho).2
    · rintro ⟨hx, ho, hmin⟩
      obtain ⟨hxl, hp⟩ := (occursAt_iff _ _ _).1 ho
      refine ⟨x - pos, by omega, by omega, by rwa [show pos + (x - pos) = x by omega], fun d' hd' hpd => ?_⟩
      have := hmin (pos + d') (by omega) (by omega)
      rw [(occursAt_iff _ _ _).2 ⟨by omega, hpd⟩] at this
      cases this
  · rename_i hpos
    simp only [reduceCtorEq, false_iff, not_and]
    intro hx ho
    have := occursAt_le ho
    omega

/-- **`findFrom` fails exactly when nothing occurs at or after its offset.** -/
theorem findFrom_eq_none {s q : List α} {pos : Nat} :
    findFrom s q pos = none ↔ ∀ y, pos ≤ y → occursAt s q y = false := by
  constructor
  · intro h y hy
    rw [Bool.eq_false_iff]
    intro ho
    have hle : pos ≤ s.length := by have := occursAt_le ho; omega
    rw [findFrom, if_pos hle, (findIn_spec q (s.drop pos) pos).2] at h
    have := h (y - pos) (by rw [List.length_drop]; have := occursAt_le ho; omega)
    rw [List.drop_drop, show pos + (y - pos) = y by omega] at this
    exact this ((occursAt_iff _ _ _).1 ho).2
  · intro h
    cases hf : findFrom s q pos with
    | none => rfl
    | some x =>
      obtain ⟨hx, ho, -⟩ := findFrom_eq_some.1 hf
      rw [h x hx] at ho
      cases ho

theorem findFrom_isSome {s q : List α} {pos : Nat} :
    (findFrom s q pos).isSome = true ↔ ∃ y, pos ≤ y ∧ occursAt s q y = true := by
  cases hf : findFrom s q pos with
  | none =>
    simp only [Option.isSome_none, Bool.false_eq_true, false_iff, not_exists, not_and]
    intro y hy
    simp [findFrom_eq_none.1 hf y hy]
  | some x =>
    obtain ⟨hx, ho, -⟩ := findFrom_eq_some.1 hf
    simp only [Option.isSome_some, true_iff]
    exact ⟨x, hx, ho⟩

theorem findIn_succ (q : List α) : ∀ (s : List α) (off : Nat), findIn q s (off + 1) = (findIn q s off).map (· + 1)
  | [], off => by
    rw [findIn, findIn]
    split <;> rfl
  | a :: t, off => by
    rw [findIn, findIn]
    split
    · rfl
    · exact findIn_succ q t (off + 1)

theorem findFrom_cons (a : α) (s q : List α) :
    findFrom (a :: s) q 0 = if q <+: a :: s then some 0 else (findFrom s q 0).map (· + 1) := by
  rw [findFrom, findFrom, if_pos (Nat.zero_le _), if_pos (Nat.zero_le _), List.drop_zero, List.drop_zero, findIn]
  by_cases h : q <+: a :: s
  · rw [if_pos (List.isPrefixOf_iff_prefix.2 h), if_pos h]
  · rw [if_neg (fun hp => h (List.isPrefixOf_iff_prefix.1 hp)), if_neg h]
    exact findIn_succ q s 0

theorem findFrom_isSome_iff_infix {s q : List α} : (findFrom s q 0).isSome = true ↔ q <:+: s := by
  rw [findFrom_isSome]
  constructor
  · rintro ⟨y, -, hy⟩
    obtain ⟨-, t, ht⟩ := (occursAt_iff s q y).1 hy
    exact ⟨s.take y, t, by rw [List.append_assoc, ht, List.take_append_drop]⟩
  · rintro ⟨u, t, hut⟩
    refine ⟨u.length, Nat.zero_le _, (occursAt_iff s q u.length).2 ⟨?_, t, ?_⟩⟩
    · rw [← hut, List.append_assoc, List.length_append]
      exact Nat.le_add_right ..
    · rw [← hut, List.append_assoc, List.drop_left]

theorem findFrom_singleton {s : List α} {a : α} {pos : Nat} (hpos : pos ≤ s.length) (ha : a ∈ s.drop pos) :
    findFrom s [a] pos = some (pos + ((s.drop pos).takeWhile (· ≠ a)).length) := by
  have hin : ∀ (u : List α) (off : Nat), a ∈ u → findIn [a] u off = some (off + (u.takeWhile (· ≠ a)).length) := by
    intro u
    induction u with
    | nil => exact fun _ h => absurd h List.not_mem_nil
    | cons b u ih =>
      intro off h
      rw [findIn]
      by_cases hb : b = a
      · subst hb
        rw [if_pos (by simp [List.isPrefixOf]), List.takeWhile_cons_of_neg (by simp)]
        rfl
      · rw [if_neg (by simp [List.isPrefixOf, Ne.symm hb]), List.takeWhile_cons_of_pos (by simp [hb]),
          ih (off + 1) ((List.mem_cons.1 h).resolve_left (Ne.symm hb)), List.length_cons]
        congr 1
        omega
  rw [findFrom, if_pos hpos]
  exact hin _ _ ha

end Substr
