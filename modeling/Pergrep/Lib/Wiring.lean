import Mathlib.Computability.Language
import Mathlib.Logic.Relation
import Mathlib.Tactic.Common
/-!
# Wiring — labelled graphs with open ends

A node has up to two slots; a slot carries a word and leads to a node or is still open.  `pathLang g n S` is the
language of the paths from `n` that leave through a slot of `S`.  `redirect` points slots at a node:
`pathLang_redirect` is the language of the result, in the Kleene algebra of languages — the law by which a graph is
built up by joining and looping fragments.  `pathLang_congr` says that only the nodes a path can reach count.
-/
namespace Wiring

open Computability

/-- Slots of nodes: the word a slot carries, and where it leads. -/
structure SlotGraph (N Λ : Type*) where
  edge : N → Bool → Option (List Λ)
  succ : N → Bool → Option N

variable {N Λ : Type*}

/-- A path from a node that leaves through the slot at the end, and the word it carries. -/
inductive Exits (g : SlotGraph N Λ) : N → List Λ → N × Bool → Prop
  | last {n y l} : g.edge n y = some l → Exits g n l (n, y)
  | step {n y l m w r} : g.edge n y = some l → g.succ n y = some m → Exits g m w r → Exits g n (l ++ w) r

/-- The words of the paths from `n` that leave through a slot of `S`. -/
def pathLang (g : SlotGraph N Λ) (n : N) (S : Set (N × Bool)) : Language Λ := {w | ∃ r ∈ S, Exits g n w r}

def Step (g : SlotGraph N Λ) (n m : N) : Prop := ∃ y l, g.edge n y = some l ∧ g.succ n y = some m

noncomputable def redirect (g : SlotGraph N Λ) (out : Set (N × Bool)) (t : N) : SlotGraph N Λ :=
  open Classical in { g with succ := fun n y => if (n, y) ∈ out then some t else g.succ n y }

theorem mem_pathLang {g : SlotGraph N Λ} {n : N} {S : Set (N × Bool)} {w : List Λ} :
    w ∈ pathLang g n S ↔ ∃ r ∈ S, Exits g n w r := Iff.rfl

theorem pathLang_union (g : SlotGraph N Λ) (n : N) (S T : Set (N × Bool)) :
    pathLang g n (S ∪ T) = pathLang g n S + pathLang g n T := by
  ext w
  simp only [mem_pathLang, Language.mem_add, Set.mem_union]
  constructor
  · rintro ⟨r, hr | hr, h⟩
    · exact Or.inl ⟨r, hr, h⟩
    · exact Or.inr ⟨r, hr, h⟩
  · rintro (⟨r, hr, h⟩ | ⟨r, hr, h⟩)
    · exact ⟨r, Or.inl hr, h⟩
    · exact ⟨r, Or.inr hr, h⟩

theorem Exits.reach {g : SlotGraph N Λ} {n : N} {w : List Λ} {r : N × Bool} (h : Exits g n w r) :
    Relation.ReflTransGen (Step g) n r.1 ∧ g.edge r.1 r.2 ≠ none := by
  induction h with
  | last he => exact ⟨.refl, by simp [he]⟩
  | step he hs _ ih => exact ⟨.head ⟨_, _, he, hs⟩ ih.1, ih.2⟩

theorem pathLang_eq_zero {g : SlotGraph N Λ} {n : N} {S : Set (N × Bool)}
    (h : ∀ r ∈ S, ¬ Relation.ReflTransGen (Step g) n r.1) : pathLang g n S = 0 := by
  ext w
  simp only [mem_pathLang, Language.notMem_zero, iff_false]
  rintro ⟨r, hr, he⟩
  exact h r hr he.reach.1

/-- **Two graphs that agree on a set of nodes no slot leads out of have the same paths there.** -/
theorem pathLang_congr {g g' : SlotGraph N Λ} {A : Set N} {n : N} {S : Set (N × Bool)} (hn : n ∈ A)
    (hedge : ∀ m ∈ A, g.edge m = g'.edge m) (hsucc : ∀ m ∈ A, g.succ m = g'.succ m)
    (hclosed : ∀ m ∈ A, ∀ y t, g.succ m y = some t → t ∈ A) : pathLang g n S = pathLang g' n S := by
  have fwd : ∀ {m w r}, Exits g m w r → m ∈ A → Exits g' m w r := by
    intro m w r h
    induction h with
    | last he => intro hm; exact .last (by rw [← hedge _ hm]; exact he)
    | step he hs _ ih =>
      intro hm
      exact .step (by rw [← hedge _ hm]; exact he) (by rw [← hsucc _ hm]; exact hs) (ih (hclosed _ hm _ _ hs))
  have bwd : ∀ {m w r}, Exits g' m w r → m ∈ A → Exits g m w r := by
    intro m w r h
    induction h with
    | last he => intro hm; exact .last (by rw [hedge _ hm]; exact he)
    | step he hs _ ih =>
      intro hm
      rw [← hsucc _ hm] at hs
      exact .step (by rw [hedge _ hm]; exact he) hs (ih (hclosed _ hm _ _ hs))
  ext w
  exact ⟨fun ⟨r, hr, h⟩ => ⟨r, hr, fwd h hn⟩, fun ⟨r, hr, h⟩ => ⟨r, hr, bwd h hn⟩⟩

/-! ## One node -/

theorem exits_iff {g : SlotGraph N Λ} {n : N} {w : List Λ} {r : N × Bool} :
    Exits g n w r ↔ (r.1 = n ∧ g.edge n r.2 = some w) ∨
      ∃ y l m v, g.edge n y = some l ∧ g.succ n y = some m ∧ Exits g m v r ∧ w = l ++ v := by
  constructor
  · intro h
    cases h with
    | last he => exact Or.inl ⟨rfl, he⟩
    | step he hs h => exact Or.inr ⟨_, _, _, _, he, hs, h, rfl⟩
  · rintro (⟨rfl, he⟩ | ⟨y, l, m, v, he, hs, h, rfl⟩)
    · exact .last he
    · exact .step he hs h

def slotLang (g : SlotGraph N Λ) (n : N) (S : Set (N × Bool)) : Language Λ :=
  {w | ∃ y, (n, y) ∈ S ∧ g.edge n y = some w}

def nextLang (g : SlotGraph N Λ) (n : N) (S : Set (N × Bool)) : Language Λ :=
  {w | ∃ y l m, g.edge n y = some l ∧ g.succ n y = some m ∧ ∃ v ∈ pathLang g m S, w = l ++ v}

theorem pathLang_unfold (g : SlotGraph N Λ) (n : N) (S : Set (N × Bool)) :
    pathLang g n S = slotLang g n S + nextLang g n S := by
  ext w
  rw [Language.mem_add]
  constructor
  · rintro ⟨r, hr, h⟩
    rcases exits_iff.1 h with ⟨rfl, he⟩ | ⟨y, l, m, v, he, hs, hv, rfl⟩
    · exact Or.inl ⟨r.2, hr, he⟩
    · exact Or.inr ⟨y, l, m, he, hs, v, ⟨r, hr, hv⟩, rfl⟩
  · rintro (⟨y, hy, he⟩ | ⟨y, l, m, he, hs, v, ⟨r, hr, h⟩, rfl⟩)
    · exact ⟨(n, y), hy, .last he⟩
    · exact ⟨r, hr, .step he hs h⟩

/-! ## Redirecting slots -/

section redirect

variable {g : SlotGraph N Λ} {out : Set (N × Bool)} {t : N}

theorem redirect_edge (n : N) : (redirect g out t).edge n = g.edge n := rfl

theorem redirect_succ_mem {n : N} {y : Bool} (h : (n, y) ∈ out) : (redirect g out t).succ n y = some t := by
  simp [redirect, h]

theorem redirect_succ_notMem {n : N} {y : Bool} (h : (n, y) ∉ out) :
    (redirect g out t).succ n y = g.succ n y := by
  simp [redirect, h]

theorem redirect_redirect (out' : Set (N × Bool)) :
    redirect (redirect g out t) out' t = redirect g (out ∪ out') t := by
  unfold redirect
  congr 1
  funext n y
  by_cases h : (n, y) ∈ out <;> by_cases h' : (n, y) ∈ out' <;> simp [h, h']

theorem Exits.redirect (hopen : ∀ r ∈ out, g.succ r.1 r.2 = none) {n : N} {w : List Λ} {r : N × Bool}
    (h : Exits g n w r) : Exits (Wiring.redirect g out t) n w r := by
  induction h with
  | last he => exact .last he
  | @step n y l m w r he hs _ ih =>
    refine .step he ?_ ih
    rw [redirect_succ_notMem (fun hm => ?_), hs]
    rw [hopen _ hm] at hs
    cases hs

theorem Exits.trans_redirect (hopen : ∀ r ∈ out, g.succ r.1 r.2 = none) {n : N} {u v : List Λ} {s r : N × Bool}
    (h : Exits g n u s) (hs : s ∈ out) (hv : Exits (Wiring.redirect g out t) t v r) :
    Exits (Wiring.redirect g out t) n (u ++ v) r := by
  induction h with
  | last he => exact .step he (redirect_succ_mem hs) hv
  | @step n y l m w r' he hs' _ ih =>
    rw [List.append_assoc]
    refine .step he ?_ (ih hs)
    rw [redirect_succ_notMem (fun hm => ?_), hs']
    rw [hopen _ hm] at hs'
    cases hs'

/-- **The paths of a graph whose open slots `out` were pointed at `t`**: those there were, and those that leave
through `out`, come round from `t` to `out` any number of times, and go on from `t`. -/
theorem pathLang_redirect (hopen : ∀ r ∈ out, g.succ r.1 r.2 = none) (n : N) (S : Set (N × Bool)) :
    pathLang (redirect g out t) n S =
      pathLang g n S + pathLang g n out * ((pathLang g t out)∗ * pathLang g t S) := by
  apply le_antisymm
  · have key : ∀ {m w r}, Exits (redirect g out t) m w r → r ∈ S →
        w ∈ pathLang g m S + pathLang g m out * ((pathLang g t out)∗ * pathLang g t S) := by
      intro m w r h hr
      induction h with
      | last he => exact Or.inl ⟨_, hr, .last he⟩
      | @step n y l m w r he hs _ ih =>
        by_cases hy : (n, y) ∈ out
        · rw [redirect_succ_mem hy] at hs
          obtain rfl := Option.some.inj hs
          have hround : w ∈ (pathLang g t out)∗ * pathLang g t S := by
            have hle : pathLang g t S + pathLang g t out * ((pathLang g t out)∗ * pathLang g t S) ≤
                (pathLang g t out)∗ * pathLang g t S := by
              rw [← mul_assoc]
              nth_rewrite 1 [← one_mul (pathLang g t S)]
              rw [← add_mul, Language.one_add_self_mul_kstar_eq_kstar]
            exact hle (ih hr)
          exact Or.inr (Language.append_mem_mul ⟨_, hy, .last he⟩ hround)
        · rw [redirect_succ_notMem hy] at hs
          rcases ih hr with ⟨r', hr', h'⟩ | h'
          · exact Or.inl ⟨r', hr', .step he hs h'⟩
          · obtain ⟨a, ⟨r', hr', ha⟩, b, hb, rfl⟩ := Language.mem_mul.1 h'
            rw [← List.append_assoc]
            exact Or.inr (Language.append_mem_mul ⟨r', hr', .step he hs ha⟩ hb)
    rintro w ⟨r, hr, h⟩
    exact key h hr
  · have hround : ∀ (L : List (List Λ)) (v : List Λ), (∀ u ∈ L, u ∈ pathLang g t out) → v ∈ pathLang g t S →
        L.flatten ++ v ∈ pathLang (redirect g out t) t S := by
      intro L v hL hv
      induction L with
      | nil =>
        obtain ⟨r, hr, h⟩ := hv
        exact ⟨r, hr, h.redirect hopen⟩
      | cons u L ih =>
        obtain ⟨s, hs, hu⟩ := hL u List.mem_cons_self
        obtain ⟨r, hr, h⟩ := ih (fun u' hu' => hL u' (List.mem_cons_of_mem _ hu'))
        rw [List.flatten_cons, List.append_assoc]
        exact ⟨r, hr, hu.trans_redirect hopen hs h⟩
    rintro w (⟨r, hr, h⟩ | h)
    · exact ⟨r, hr, h.redirect hopen⟩
    · obtain ⟨u, ⟨s, hs, hu⟩, b, hb, rfl⟩ := Language.mem_mul.1 h
      obtain ⟨c, hc, v, hv, rfl⟩ := Language.mem_mul.1 hb
      obtain ⟨L, rfl, hL⟩ := Language.mem_kstar.1 hc
      obtain ⟨r, hr, h⟩ := hround L v hL hv
      exact ⟨r, hr, hu.trans_redirect hopen hs h⟩

/-- What a redirected graph reaches is what the graph reaches, or reaches from the target. -/
theorem reach_redirect {n m : N} (h : Relation.ReflTransGen (Step (redirect g out t)) n m) :
    Relation.ReflTransGen (Step g) n m ∨ Relation.ReflTransGen (Step g) t m := by
  induction h with
  | refl => exact Or.inl .refl
  | @tail a b _ hab ih =>
    obtain ⟨y, l, he, hs⟩ := hab
    by_cases hy : (a, y) ∈ out
    · rw [redirect_succ_mem hy] at hs
      obtain rfl := Option.some.inj hs
      exact Or.inr .refl
    · rw [redirect_succ_notMem hy] at hs
      exact ih.imp (fun h => h.tail ⟨y, l, he, hs⟩) (fun h => h.tail ⟨y, l, he, hs⟩)

end redirect

/-! ## Paths between nodes -/

/-- A path from a node to a node, and the word it carries. -/
inductive WordPath (g : SlotGraph N Λ) : N → List Λ → N → Prop
  | refl {n} : WordPath g n [] n
  | step {n y l m w k} : g.edge n y = some l → g.succ n y = some m → WordPath g m w k → WordPath g n (l ++ w) k

/-- **The paths to a new end are the paths that left through the slots pointed at it.** -/
theorem path_redirect_iff {g : SlotGraph N Λ} {out : Set (N × Bool)} {t n : N}
    (hopen : ∀ r ∈ out, g.succ r.1 r.2 = none) (hend : ∀ y, g.edge t y = none)
    (hnew : ¬ Relation.ReflTransGen (Step g) n t) (w : List Λ) :
    WordPath (redirect g out t) n w t ↔ w ∈ pathLang g n out := by
  constructor
  · intro h
    have key : ∀ {m w k}, WordPath (redirect g out t) m w k → k = t → ¬ Relation.ReflTransGen (Step g) m t →
        w ∈ pathLang g m out := by
      intro m w k h
      induction h with
      | refl => rintro rfl hnot; exact absurd .refl hnot
      | @step n y l m w k he hs hp ih =>
        rintro rfl hnot
        by_cases hy : (n, y) ∈ out
        · rw [redirect_succ_mem hy] at hs
          obtain rfl := Option.some.inj hs
          -- nothing leads on from the end
          cases hp with
          | refl =>
            rw [List.append_nil]
            exact ⟨_, hy, .last he⟩
          | step he' => rw [redirect_edge, hend] at he'; cases he'
        · rw [redirect_succ_notMem hy] at hs
          obtain ⟨r, hr, h⟩ := ih rfl (fun hm => hnot (.head ⟨y, l, he, hs⟩ hm))
          exact ⟨r, hr, .step he hs h⟩
    exact key h rfl hnew
  · rintro ⟨r, hr, h⟩
    clear hnew
    induction h with
    | last he => simpa using WordPath.step (g := redirect g out t) he (redirect_succ_mem hr) .refl
    | @step n y l m w r he hs _ ih =>
      refine .step he ?_ (ih hr)
      rw [redirect_succ_notMem (fun hm => ?_), hs]
      rw [hopen _ hm] at hs
      cases hs

end Wiring
