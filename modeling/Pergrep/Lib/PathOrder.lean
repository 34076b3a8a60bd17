import Mathlib.Data.List.Nodup
import Mathlib.Data.List.Sort
import Mathlib.Tactic.Common
/-!
# PathOrder — two orders on paths

A path is a list of names.  One program orders paths name by name, another keeps a path as one string, its names joined
by a separator, and orders it letter by letter.  Names are free of the separator, so the orders agree on two paths
unless one goes through a directory whose name the other prolongs by a letter below the separator (`Clash`), and then
they do not (`lt_or_clash`, `Clash.gt`).  A list in the first order is in the second when no two of its paths clash
(`sorted_join_iff`).
-/
namespace PathOrder

variable {α : Type*}

def join (sep : α) (p : List (List α)) : List α := [sep].intercalate p

/-- A name: not empty, and free of the separator. -/
def IsName (sep : α) (a : List α) : Prop := a ≠ [] ∧ sep ∉ a

instance [DecidableEq α] (sep : α) (a : List α) : Decidable (IsName sep a) := inferInstanceAs (Decidable (_ ∧ _))

@[simp] theorem join_nil (sep : α) : join sep [] = [] := rfl

@[simp] theorem join_singleton (sep : α) (a : List α) : join sep [a] = a := by simp [join]

theorem join_cons (sep : α) (a : List α) {p : List (List α)} (hp : p ≠ []) : join sep (a :: p) = a ++ sep :: join sep p := by
  cases p with
  | nil => exact absurd rfl hp
  | cons b p => simp [join]

theorem exists_join_cons (sep : α) (a : List α) (p : List (List α)) : ∃ t, join sep (a :: p) = a ++ t := by
  cases p with
  | nil => exact ⟨[], by simp⟩
  | cons b p => exact ⟨_, join_cons sep a (by simp)⟩

/-- **A joined path can be taken apart.** -/
theorem splitOn_join [DecidableEq α] {sep : α} {p : List (List α)} (hp : p ≠ []) (hn : ∀ a ∈ p, IsName sep a) :
    (join sep p).splitOn sep = p :=
  List.splitOn_intercalate sep (fun a ha => (hn a ha).2) hp

theorem join_ne_nil {sep : α} {p : List (List α)} (hp : p ≠ []) (hn : ∀ a ∈ p, IsName sep a) : join sep p ≠ [] := by
  cases p with
  | nil => exact absurd rfl hp
  | cons a p =>
    obtain ⟨t, ht⟩ := exists_join_cons sep a p
    rw [ht]
    exact List.append_ne_nil_of_left_ne_nil (hn a List.mem_cons_self).1 t

theorem not_mem_of_mem_splitOn [DecidableEq α] {sep : α} : ∀ {x a : List α}, a ∈ x.splitOn sep → sep ∉ a
  | [], a, h => by
    rw [List.splitOn_nil, List.mem_singleton] at h
    rw [h]
    exact List.not_mem_nil
  | c :: x, a, h => by
    rw [List.splitOn_cons_eq_if_modifyHead] at h
    split at h
    · rcases List.mem_cons.1 h with rfl | h
      · exact List.not_mem_nil
      · exact not_mem_of_mem_splitOn h
    · rename_i hc
      cases hsplit : x.splitOn sep with
      | nil => exact absurd hsplit (List.splitOn_ne_nil sep x)
      | cons b rest =>
        rw [hsplit, List.modifyHead_cons] at h
        have hmem : ∀ d ∈ b :: rest, sep ∉ d := fun d hd => not_mem_of_mem_splitOn (hsplit ▸ hd)
        rcases List.mem_cons.1 h with rfl | h
        · rw [List.mem_cons, not_or]
          exact ⟨fun heq => hc (beq_iff_eq.2 heq.symm), hmem b List.mem_cons_self⟩
        · exact hmem a (List.mem_cons_of_mem b h)

/-- **Some names that are joined** are those between the separators, none of them empty. -/
theorem exists_join_iff [DecidableEq α] {sep : α} {x : List α} :
    (∃ p ≠ [], (∀ a ∈ p, IsName sep a) ∧ x = join sep p) ↔ [] ∉ x.splitOn sep := by
  constructor
  · rintro ⟨p, hp, hn, rfl⟩ hnil
    rw [splitOn_join hp hn] at hnil
    exact (hn [] hnil).1 rfl
  · intro h
    refine ⟨x.splitOn sep, List.splitOn_ne_nil sep x, fun a ha => ⟨fun hnil => h (hnil ▸ ha), not_mem_of_mem_splitOn ha⟩, ?_⟩
    exact (List.intercalate_splitOn sep).symm

/-! ## The orders -/

section
variable [LT α]

/-- The first path goes through a directory whose name the second prolongs by a letter below the separator. -/
def Clash (sep : α) (p q : List (List α)) : Prop :=
  ∃ pre a c s p' q', p = pre ++ a :: p' ∧ p' ≠ [] ∧ q = pre ++ (a ++ c :: s) :: q' ∧ c < sep

theorem Clash.cons {sep : α} {p q : List (List α)} (a : List α) (h : Clash sep p q) : Clash sep (a :: p) (a :: q) := by
  obtain ⟨pre, b, c, s, p', q', rfl, hp', rfl, hc⟩ := h
  exact ⟨a :: pre, b, c, s, p', q', rfl, hp', rfl, hc⟩

theorem lt_cases : ∀ {a b : List α}, a < b →
    (∃ c s, b = a ++ c :: s) ∨ ∃ pre x y s t, a = pre ++ x :: s ∧ b = pre ++ y :: t ∧ x < y
  | [], [], h => absurd h (List.not_lt_nil [])
  | [], c :: s, _ => Or.inl ⟨c, s, rfl⟩
  | x :: a, [], h => absurd h (List.not_lt_nil _)
  | x :: a, y :: b, h => by
    rcases List.cons_lt_cons_iff.1 h with hxy | ⟨rfl, hab⟩
    · exact Or.inr ⟨[], x, y, a, b, rfl, rfl, hxy⟩
    · rcases lt_cases hab with ⟨c, s, rfl⟩ | ⟨pre, u, v, s, t, rfl, rfl, huv⟩
      · exact Or.inl ⟨c, s, rfl⟩
      · exact Or.inr ⟨x :: pre, u, v, s, t, rfl, rfl, huv⟩

theorem append_cons_lt {x y : α} (h : x < y) : ∀ (pre s t : List α), pre ++ x :: s < pre ++ y :: t
  | [], _, _ => List.cons_lt_cons_iff.2 (Or.inl h)
  | _ :: pre, s, t => List.cons_lt_cons_iff.2 (Or.inr ⟨rfl, append_cons_lt h pre s t⟩)

theorem append_lt_append_cons : ∀ (a t : List α) (c : α), a < a ++ c :: t
  | [], t, c => List.nil_lt_cons c t
  | _ :: a, t, c => List.cons_lt_cons_iff.2 (Or.inr ⟨rfl, append_lt_append_cons a t c⟩)

theorem Clash.lt {sep : α} {p q : List (List α)} (h : Clash sep p q) : p < q := by
  obtain ⟨pre, a, c, s, p', q', rfl, -, rfl, -⟩ := h
  exact List.append_left_lt (List.cons_lt_cons_iff.2 (Or.inl (append_lt_append_cons a s c)))

/-- **Where paths clash the orders differ.** -/
theorem Clash.gt {sep : α} {p q : List (List α)} (h : Clash sep p q) : join sep q < join sep p := by
  obtain ⟨pre, a, c, s, p', q', rfl, hp', rfl, hc⟩ := h
  induction pre with
  | nil =>
    obtain ⟨t, ht⟩ := exists_join_cons sep (a ++ c :: s) q'
    rw [List.nil_append, List.nil_append, ht, join_cons sep a hp', List.append_assoc]
    exact append_cons_lt hc a _ _
  | cons b pre ih =>
    rw [List.cons_append, List.cons_append, join_cons sep b (by simp), join_cons sep b (by simp)]
    exact List.append_left_lt (List.cons_lt_cons_iff.2 (Or.inr ⟨rfl, ih⟩))

end

variable [LT α] [LE α] [Std.IsLinearOrder α] [Std.LawfulOrderLT α]

/-- **The orders agree on paths that do not clash.** -/
theorem lt_or_clash {sep : α} : ∀ {p q : List (List α)}, (∀ a ∈ p, IsName sep a) → (∀ a ∈ q, IsName sep a) → p < q →
    join sep p < join sep q ∨ Clash sep p q
  | _, [], _, _, h => absurd h (List.not_lt_nil _)
  | [], b :: q, _, hq, _ => by
    left
    cases hj : join sep (b :: q) with
    | nil => exact absurd hj (join_ne_nil (by simp) hq)
    | cons x t => exact List.nil_lt_cons x t
  | a :: p, b :: q, hp, hq, h => by
    rcases List.cons_lt_cons_iff.1 h with hab | ⟨rfl, hpq⟩
    · obtain ⟨t, ht⟩ := exists_join_cons sep b q
      rcases lt_cases hab with ⟨c, s, rfl⟩ | ⟨pre, x, y, s, u, rfl, rfl, hxy⟩
      · by_cases hp' : p = []
        · left
          rw [hp', join_singleton, ht, List.append_assoc]
          exact append_lt_append_cons a _ c
        · have hc : c ≠ sep := fun e => (hq _ List.mem_cons_self).2 (by simp [e])
          by_cases hlt : c < sep
          · exact Or.inr ⟨[], a, c, s, p, q, rfl, hp', rfl, hlt⟩
          · left
            rw [join_cons sep a hp', ht, List.append_assoc]
            exact append_cons_lt (Std.lt_of_le_of_ne (Std.not_lt.1 hlt) hc.symm) a _ _
      · left
        obtain ⟨v, hv⟩ := exists_join_cons sep (pre ++ x :: s) p
        rw [hv, ht, List.append_assoc, List.append_assoc]
        exact append_cons_lt hxy pre _ _
    · have hq' : q ≠ [] := fun e => List.not_lt_nil p (e ▸ hpq)
      rw [join_cons sep a hq']
      by_cases hp' : p = []
      · rw [hp', join_singleton]
        exact Or.inl (append_lt_append_cons a _ sep)
      · rw [join_cons sep a hp']
        rcases lt_or_clash (fun c hc => hp c (List.mem_cons_of_mem _ hc)) (fun c hc => hq c (List.mem_cons_of_mem _ hc))
          hpq with h | h
        · exact Or.inl (List.append_left_lt (List.cons_lt_cons_iff.2 (Or.inr ⟨rfl, h⟩)))
        · exact Or.inr (h.cons a)

/-- **Sorted by names is sorted by letters when no two paths clash**, and only then. -/
theorem sorted_join_iff {sep : α} {ps : List (List (List α))} (hn : ∀ p ∈ ps, ∀ a ∈ p, IsName sep a) (hnd : ps.Nodup)
    (hs : ps.Pairwise (· ≤ ·)) :
    (ps.map (join sep)).Pairwise (· ≤ ·) ↔ ∀ p ∈ ps, ∀ q ∈ ps, ¬ Clash sep p q := by
  rw [List.pairwise_map]
  constructor
  · intro hj p hp q hq hc
    have hmono : ∀ p ∈ ps, ∀ q ∈ ps, p < q → join sep p ≤ join sep q := fun p hp q hq =>
      List.Pairwise.forall_of_forall_of_flip (R := fun p q => p < q → join sep p ≤ join sep q)
        (fun r _ h => absurd h Std.lt_irrefl) (hj.imp (fun {p q} h (_ : p < q) => h))
        (hs.imp (fun h hlt => absurd hlt (Std.not_lt.2 h))) hp hq
    exact Std.not_lt.2 (hmono p hp q hq hc.lt) hc.gt
  · intro hno
    refine (hs.and hnd).imp_of_mem (fun {p q} hp hq ⟨hle, hne⟩ => ?_)
    rcases lt_or_clash (hn p hp) (hn q hq) (Std.lt_of_le_of_ne hle hne) with h | h
    · exact Std.le_of_lt h
    · exact absurd h (hno p hp q hq)

theorem insertionSort_key_sorted {β : Type*} [DecidableEq α] [DecidableLT α] (key : β → List α) (l : List β) :
    ((l.insertionSort (fun a b => ¬ key b < key a)).map key).Pairwise (· ≤ ·) := by
  have : Std.Total (fun a b : β => ¬ key b < key a) := ⟨fun a b => List.le_total (key a) (key b)⟩
  have : IsTrans β (fun a b => ¬ key b < key a) := ⟨fun a b c h1 h2 => List.le_trans (α := α) h1 h2⟩
  exact List.pairwise_map.2 (List.pairwise_insertionSort _ l)

end PathOrder
