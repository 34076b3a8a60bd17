import Mathlib.Data.List.Basic
import Mathlib.Data.List.Nodup
import Mathlib.Data.List.Range
import Mathlib.Tactic.Common
/-!
# Tally — a table of keys with what was counted under each

The entries stand in the order they were made.  `get` is what a key has, a start value where it has no entry; `update` changes
the entry of a key that has one.  A round that updates each of its keys once (`get_rounds`) changes a key's value once if the
round has it.
-/
namespace Tally

variable {κ σ : Type*} [DecidableEq κ]

def get (z : σ) (t : List (κ × σ)) (key : κ) : σ := ((t.find? (fun e => e.1 == key)).map Prod.snd).getD z

def update (t : List (κ × σ)) (key : κ) (f : σ → σ) : List (κ × σ) := t.map (fun e => if e.1 = key then (e.1, f e.2) else e)

def keys (t : List (κ × σ)) : List κ := t.map Prod.fst

omit [DecidableEq κ] in
theorem mem_keys_cons {e : κ × σ} {t : List (κ × σ)} {key : κ} : key ∈ keys (e :: t) ↔ key = e.1 ∨ key ∈ keys t := List.mem_cons

theorem any_iff {t : List (κ × σ)} {key : κ} : t.any (fun e => e.1 == key) = true ↔ key ∈ keys t := by
  rw [List.any_eq_true, keys, List.mem_map]
  exact exists_congr (fun e => and_congr_right (fun _ => beq_iff_eq))

@[simp] theorem keys_update (t : List (κ × σ)) (key : κ) (f : σ → σ) : keys (update t key f) = keys t := by
  unfold keys update
  rw [List.map_map]
  refine List.map_congr_left (fun e _ => ?_)
  simp only [Function.comp]
  split <;> rfl

theorem get_cons (z : σ) (e : κ × σ) (t : List (κ × σ)) (key : κ) :
    get z (e :: t) key = if e.1 = key then e.2 else get z t key := by
  unfold get
  rw [List.find?_cons]
  by_cases he : e.1 = key
  · rw [if_pos he, beq_iff_eq.2 he]
    rfl
  · rw [if_neg he, beq_eq_false_iff_ne.2 he]

theorem get_of_notMem (z : σ) : ∀ {t : List (κ × σ)} {key : κ}, key ∉ keys t → get z t key = z
  | [], _, _ => rfl
  | e :: t, key, h => by
    rw [mem_keys_cons, not_or] at h
    rw [get_cons, if_neg (Ne.symm h.1)]
    exact get_of_notMem z h.2

theorem get_update (z : σ) : ∀ (t : List (κ × σ)) (key : κ) (f : σ → σ) (k : κ),
    get z (update t key f) k = if k = key ∧ key ∈ keys t then f (get z t key) else get z t k
  | [], key, f, k => by
    rw [if_neg (fun h => List.not_mem_nil h.2)]
    rfl
  | e :: t, key, f, k => by
    have ih := get_update z t key f k
    have hcons : update (e :: t) key f = (if e.1 = key then (e.1, f e.2) else e) :: update t key f := rfl
    rw [hcons, get_cons, get_cons, get_cons, ih]
    by_cases he : e.1 = key
    · rw [if_pos he, if_pos he]
      by_cases hk : k = key
      · subst hk
        rw [if_pos he, if_pos ⟨rfl, mem_keys_cons.2 (Or.inl he.symm)⟩]
      · rw [if_neg (fun h => hk (h.symm.trans he)), if_neg (fun h => hk h.1), if_neg (fun h => hk h.1),
          if_neg (fun h => hk (h.symm.trans he))]
    · rw [if_neg he, if_neg he]
      by_cases hek : e.1 = k
      · rw [if_pos hek, if_pos hek, if_neg (fun h => he (hek.trans h.1))]
      · rw [if_neg hek, if_neg hek]
        by_cases hk : k = key ∧ key ∈ keys t
        · rw [if_pos hk, if_pos ⟨hk.1, mem_keys_cons.2 (Or.inr hk.2)⟩]
        · rw [if_neg hk, if_neg (fun h => hk ⟨h.1, (mem_keys_cons.1 h.2).resolve_left (Ne.symm he)⟩)]

theorem get_append (z : σ) (v : σ) : ∀ {t : List (κ × σ)} {key : κ}, key ∉ keys t → ∀ k,
    get z (t ++ [(key, v)]) k = if k = key then v else get z t k
  | [], key, _, k => by
    rw [List.nil_append, get_cons]
    by_cases hk : k = key
    · rw [if_pos hk, if_pos hk.symm]
    · rw [if_neg hk, if_neg (Ne.symm hk)]
  | e :: t, key, h, k => by
    rw [mem_keys_cons, not_or] at h
    rw [List.cons_append, get_cons, get_cons, get_append z v h.2 k]
    by_cases hek : e.1 = k
    · rw [if_pos hek, if_pos hek, if_neg (fun hk => h.1 (hk.symm.trans hek.symm))]
    · rw [if_neg hek, if_neg hek]

/-- **A round over keys that differ** changes what each of them has, once, if it has an entry. -/
theorem get_rounds (z : σ) (f : σ → σ) : ∀ {ks : List κ} (t : List (κ × σ)), ks.Nodup → ∀ k,
    get z (ks.foldl (fun t key => update t key f) t) k = if k ∈ ks ∧ k ∈ keys t then f (get z t k) else get z t k
  | [], t, _, k => by rw [List.foldl_nil, if_neg (fun h => List.not_mem_nil h.1)]
  | key :: ks, t, hnodup, k => by
    obtain ⟨hkey, hnodup⟩ := List.nodup_cons.1 hnodup
    rw [List.foldl_cons, get_rounds z f _ hnodup, keys_update, get_update]
    by_cases hk : k = key
    · subst hk
      simp only [hkey, false_and, if_false, true_and, List.mem_cons, true_or]
    · simp only [hk, false_and, if_false, List.mem_cons, false_or]

theorem keys_rounds (f : σ → σ) : ∀ (ks : List κ) (t : List (κ × σ)), keys (ks.foldl (fun t key => update t key f) t) = keys t
  | [], _ => rfl
  | key :: ks, t => by rw [List.foldl_cons, keys_rounds f ks, keys_update]

theorem filter_zipIdx {α : Type*} (p : α → Bool) : ∀ (l : List α) (k : Nat),
    ((l.zipIdx k).filter (fun e => p e.1)).map Prod.snd = (List.range' k l.length).filter (fun i => l[i - k]?.any p)
  | [], _ => rfl
  | a :: l, k => by
    have ih := filter_zipIdx p l (k + 1)
    have hrest : (List.range' (k + 1) l.length).filter (fun i => l[i - (k + 1)]?.any p) =
        (List.range' (k + 1) l.length).filter (fun i => (a :: l)[i - k]?.any p) :=
      List.filter_congr (fun i hi => by
        obtain ⟨hle, -⟩ := List.mem_range'_1.1 hi
        rw [show i - k = i - (k + 1) + 1 by omega, List.getElem?_cons_succ])
    rw [List.zipIdx_cons, List.length_cons, List.range'_succ, List.filter_cons, List.filter_cons, Nat.sub_self,
      List.getElem?_cons_zero, Option.any_some]
    split
    · rw [List.map_cons, ih, hrest]
    · rw [ih, hrest]

end Tally
