import Pergrep.Lib.Throw
import Pergrep.Lib.Wiring
import Pergrep.Regex.Nfa
import Pergrep.Regex.Denotation
/-!
# Thompson — the compiler builds the tree's language

`wiring p` reads a program as a graph of labelled slots.  `Seg p₀ p start out` is what holds of every fragment the
compiler has appended to `p₀`: it touches nothing below, its instructions lead nowhere else, its open successors are
exactly `out`.  `FragSpec` adds the language of its paths.  One lemma for each way a fragment is made (`one`,
`concat`, the split of an alternation, the optional and the unbounded copy, the saves of a group), by
`pathLang_redirect`; `compile_path` is the whole: the words from `nfa_start` to the `Match` instruction are `lang`.
-/
namespace Pergrep

open Wiring Computability Throw

/-- The word of a successor field; an instruction has only the fields its operation reads. -/
def NfaInst.edge (i : NfaInst) (y : Bool) : Option (List Label) :=
  match i.op, y with
  | .rune cp, false => some [.rune i.flags cp]
  | .any, false => some [.any i.flags]
  | .cls s, false => some [.cls i.flags s]
  | .assert k, false => some [.assert i.flags k]
  | .saveStart g, false => some [.saveStart g]
  | .saveEnd g, false => some [.saveEnd g]
  | .jmp, false => some []
  | .split, _ => some []
  | _, _ => none

namespace NfaCompiler

def wiring (p : Prog) : SlotGraph Nat Label where
  edge pc y := (p[pc]?).bind (fun i => i.edge y)
  succ pc y := (p[pc]?).bind (fun i => i.succ y)

/-- The slots of a patch list. -/
abbrev slots (v : List PatchRef) : Set (Nat × Bool) := {r | r ∈ v}

/-! ## Programs as graphs -/

theorem edge_setSucc (i : NfaInst) (y : Bool) (t : Nat) (z : Bool) : (i.setSucc y t).edge z = i.edge z := by
  cases y <;> rfl

theorem succ_setSucc (i : NfaInst) (y : Bool) (t : Nat) (z : Bool) :
    (i.setSucc y t).succ z = if z = y then some t else i.succ z := by
  cases y <;> cases z <;> rfl

theorem wiring_set (p : Prog) (r : PatchRef) (t : Nat) (hr : r.1 < p.length) :
    wiring (set p r t) = redirect (wiring p) {r} t := by
  obtain ⟨pc, y⟩ := r
  simp only at hr
  unfold wiring redirect set
  simp only [SlotGraph.mk.injEq]
  constructor
  · funext n z
    rw [List.getElem?_modify]
    by_cases hn : pc = n
    · subst hn
      simp [List.getElem?_eq_getElem hr, edge_setSucc]
    · simp [hn]
  · funext n z
    rw [List.getElem?_modify]
    by_cases hn : pc = n
    · subst hn
      simp only [List.getElem?_eq_getElem hr, if_true, Option.map_eq_map, Option.map_some, Option.bind_some, succ_setSucc,
        Set.mem_singleton_iff, Prod.mk.injEq, true_and]
    · have : ¬ (n = pc ∧ z = y) := fun h => hn h.1.symm
      simp [hn, this]

@[simp] theorem length_set (p : Prog) (r : PatchRef) (t : Nat) : (set p r t).length = p.length := by
  simp [set]

@[simp] theorem length_patch (v : List PatchRef) (t : Nat) : ∀ p : Prog, (patch p v t).length = p.length := by
  induction v with
  | nil => exact fun _ => rfl
  | cons r v ih => intro p; simpa [patch] using ih (set p r t)

/-- **Patching is redirecting.** -/
theorem wiring_patch (t : Nat) : ∀ (v : List PatchRef) (p : Prog), (∀ r ∈ v, r.1 < p.length) →
    wiring (patch p v t) = redirect (wiring p) (slots v) t
  | [], p, _ => by
    simp [patch, redirect]
  | r :: v, p, h => by
    have hv : ∀ r' ∈ v, r'.1 < (set p r t).length := fun r' hr' => by
      rw [length_set]; exact h r' (List.mem_cons_of_mem _ hr')
    rw [show patch p (r :: v) t = patch (set p r t) v t from rfl, wiring_patch t v _ hv,
      wiring_set p r t (h r List.mem_cons_self), redirect_redirect]
    congr 1
    ext x
    simp

theorem getElem?_set_ne (p : Prog) (r : PatchRef) (t n : Nat) (h : n ≠ r.1) : (set p r t)[n]? = p[n]? := by
  simp [set, Ne.symm h]

theorem getElem?_patch_ne (t n : Nat) : ∀ (v : List PatchRef) (p : Prog), (∀ r ∈ v, n ≠ r.1) →
    (patch p v t)[n]? = p[n]?
  | [], _, _ => rfl
  | r :: v, p, h => by
    rw [show patch p (r :: v) t = patch (set p r t) v t from rfl,
      getElem?_patch_ne t n v _ (fun r' hr' => h r' (List.mem_cons_of_mem _ hr')),
      getElem?_set_ne _ _ _ _ (h r List.mem_cons_self)]

theorem op_patch (t n : Nat) : ∀ (v : List PatchRef) (p : Prog),
    ((patch p v t)[n]?).map NfaInst.op = (p[n]?).map NfaInst.op
  | [], _ => rfl
  | r :: v, p => by
    rw [show patch p (r :: v) t = patch (set p r t) v t from rfl, op_patch t n v]
    simp only [set, List.getElem?_modify]
    split
    · cases p[n]? with
      | none => rfl
      | some i =>
        simp only [Option.map_some, NfaInst.setSucc]
        split <;> rfl
    · simp

theorem wiring_append (p q : Prog) {n : Nat} (h : n < p.length) : (p ++ q)[n]? = p[n]? :=
  List.getElem?_append_left h

theorem wiring_top (p : Prog) (i : NfaInst) :
    (wiring (p ++ [i])).edge p.length = i.edge ∧ (wiring (p ++ [i])).succ p.length = i.succ := by
  constructor <;> funext y <;> simp [wiring]

theorem wiring_of_getElem? {p q : Prog} {n : Nat} (h : q[n]? = p[n]?) :
    (wiring q).edge n = (wiring p).edge n ∧ (wiring q).succ n = (wiring p).succ n := by
  constructor <;> funext y <;> simp [wiring, h]

theorem wiring_succ_lt {p : Prog} {n : Nat} {y : Bool} {t : Nat} (h : (wiring p).succ n y = some t) : n < p.length := by
  by_contra hn
  simp [wiring, List.getElem?_eq_none (Nat.le_of_not_lt hn)] at h

/-! ## Fragments -/

/-- What the compiler has put on top of `p₀`: the fragment that starts at `start` and is open at `out`. -/
structure Seg (p₀ p : Prog) (start : Nat) (out : List PatchRef) : Prop where
  ext : ∀ n < p₀.length, p[n]? = p₀[n]?
  grows : p₀.length < p.length
  start_ge : p₀.length ≤ start
  start_lt : start < p.length
  out_mem : ∀ r ∈ out, p₀.length ≤ r.1 ∧ r.1 < p.length ∧ (wiring p).succ r.1 r.2 = none
  inside : ∀ n y t, p₀.length ≤ n → (wiring p).succ n y = some t → p₀.length ≤ t ∧ t < p.length
  live : ∀ m, Relation.ReflTransGen (Step (wiring p)) start m → ∀ y, (wiring p).edge m y ≠ none →
    (wiring p).succ m y = none → (m, y) ∈ out
  noMatch : ∀ n i, p₀.length ≤ n → p[n]? = some i → i.op ≠ .match_
  nodup : out.Nodup
  fits : p.length ≤ maxInstructions

/-- A fragment and the language of its paths. -/
structure FragSpec (p₀ p : Prog) (fr : Frag) (L : Language Label) : Prop extends Seg p₀ p fr.start fr.out where
  words : pathLang (wiring p) fr.start (slots fr.out) = L

/-- `q` still has the instructions of `p` above `p₀`. -/
def Keeps (p₀ p q : Prog) : Prop := ∀ n, p₀.length ≤ n → n < p.length → q[n]? = p[n]?

theorem Keeps.append (p₀ p : Prog) (r : Prog) : Keeps p₀ p (p ++ r) := fun _ _ h => wiring_append p r h

namespace Seg

variable {p₀ p q : Prog} {start : Nat} {out : List PatchRef}

theorem succ_inside (h : Seg p₀ p start out) (hq : Keeps p₀ p q) {n : Nat} (h1 : p₀.length ≤ n) (h2 : n < p.length)
    {y : Bool} {t : Nat} (hs : (wiring q).succ n y = some t) : p₀.length ≤ t ∧ t < p.length := by
  rw [(wiring_of_getElem? (hq n h1 h2)).2] at hs
  exact h.inside n y t h1 hs

/-- **In a program that keeps the fragment, its nodes reach only its nodes, and by its own steps.** -/
theorem reach (h : Seg p₀ p start out) (hq : Keeps p₀ p q) {n m : Nat} (h1 : p₀.length ≤ n) (h2 : n < p.length)
    (hr : Relation.ReflTransGen (Step (wiring q)) n m) :
    p₀.length ≤ m ∧ m < p.length ∧ Relation.ReflTransGen (Step (wiring p)) n m := by
  induction hr with
  | refl => exact ⟨h1, h2, .refl⟩
  | @tail a b _ hab ih =>
    obtain ⟨ha1, ha2, hra⟩ := ih
    obtain ⟨y, l, he, hs⟩ := hab
    obtain ⟨hb1, hb2⟩ := h.succ_inside hq ha1 ha2 hs
    rw [(wiring_of_getElem? (hq a ha1 ha2)).1] at he
    rw [(wiring_of_getElem? (hq a ha1 ha2)).2] at hs
    exact ⟨hb1, hb2, hra.tail ⟨y, l, he, hs⟩⟩

theorem pathLang_eq (h : Seg p₀ p start out) (hq : Keeps p₀ p q) {n : Nat} (h1 : p₀.length ≤ n) (h2 : n < p.length)
    (S : Set (Nat × Bool)) : pathLang (wiring q) n S = pathLang (wiring p) n S :=
  pathLang_congr (A := {n | p₀.length ≤ n ∧ n < p.length}) ⟨h1, h2⟩
    (fun m hm => (wiring_of_getElem? (hq m hm.1 hm.2)).1) (fun m hm => (wiring_of_getElem? (hq m hm.1 hm.2)).2)
    (fun _ hm _ _ hs => h.succ_inside hq hm.1 hm.2 hs)

theorem pathLang_zero (h : Seg p₀ p start out) (hq : Keeps p₀ p q) {S : Set (Nat × Bool)}
    (hS : ∀ r ∈ S, ¬ (p₀.length ≤ r.1 ∧ r.1 < p.length)) : pathLang (wiring q) start S = 0 :=
  pathLang_eq_zero (fun r hr hreach =>
    have ⟨h1, h2, _⟩ := h.reach hq h.start_ge h.start_lt hreach
    hS r hr ⟨h1, h2⟩)

theorem out_lt (h : Seg p₀ p start out) : ∀ r ∈ out, r.1 < p.length := fun r hr => (h.out_mem r hr).2.1

theorem out_open (h : Seg p₀ p start out) (hq : Keeps p₀ p q) :
    ∀ r ∈ slots out, (wiring q).succ r.1 r.2 = none := by
  intro r hr
  obtain ⟨h1, h2, h3⟩ := h.out_mem r hr
  rw [(wiring_of_getElem? (hq r.1 h1 h2)).2]
  exact h3

end Seg

theorem FragSpec.weaken {p q : Prog} {i : NfaInst} {fr : Frag} {L : Language Label} (hx : i.x = none) (hy : i.y = none)
    (hop : i.op ≠ .match_) (h : FragSpec (p ++ [i]) q fr L) : FragSpec p q fr L := by
  have hlen : (p ++ [i]).length = p.length + 1 := by simp
  have htop : q[p.length]? = some i := by rw [h.ext _ (by omega)]; simp
  refine ⟨⟨fun n hn => ?_, ?_, ?_, h.start_lt, fun r hr => ?_, fun n y t hn hs => ?_, h.live, fun n j hn hj => ?_,
    h.nodup, h.fits⟩, h.words⟩
  · rw [h.ext n (by omega), wiring_append _ _ hn]
  · have := h.grows; omega
  · have := h.start_ge; omega
  · obtain ⟨h1, h2, h3⟩ := h.out_mem r hr
    exact ⟨by omega, h2, h3⟩
  · rcases Nat.eq_or_lt_of_le hn with rfl | hn
    · cases y <;> simp [wiring, htop, NfaInst.succ, hx, hy] at hs
    · have := h.inside n y t (by omega) hs
      omega
  · rcases Nat.eq_or_lt_of_le hn with rfl | hn
    · rw [htop] at hj; cases hj; exact hop
    · exact h.noMatch n j (by omega) hj

/-! ## The ways fragments are made -/

theorem one_spec {p q : Prog} {i : NfaInst} {fr : Frag} {w : List Label} (hx : i.edge false = some w)
    (hy : i.edge true = none) (hsx : i.x = none) (hsy : i.y = none) (hop : i.op ≠ .match_) (h : one p i = .ok (q, fr)) :
    FragSpec p q fr {w} := by
  obtain ⟨⟨q', pc⟩, he, h⟩ := bind_ok h
  obtain ⟨rfl, rfl, hfit⟩ := emit_ok he
  cases h
  obtain ⟨hedge, hsucc⟩ := wiring_top p i
  have hnone : ∀ y, (wiring (p ++ [i])).succ p.length y = none := by
    intro y; rw [hsucc]; cases y <;> simp [NfaInst.succ, hsx, hsy]
  have hstuck : ∀ {m}, Relation.ReflTransGen (Step (wiring (p ++ [i]))) p.length m → m = p.length := by
    intro m hm
    rcases hm.cases_head with rfl | ⟨b, ⟨y, l, -, hs⟩, -⟩
    · rfl
    · rw [hnone] at hs; cases hs
  refine ⟨⟨fun n hn => wiring_append _ _ hn, by simp, Nat.le_refl _, by simp, fun r hr => ?_, fun n y t hn hs => ?_,
    fun m hm y hey _ => ?_, fun n j hn hj => ?_, List.nodup_singleton _, by simp; omega⟩, ?_⟩
  · obtain rfl := List.mem_singleton.1 hr
    exact ⟨Nat.le_refl _, by simp, hnone _⟩
  · have hlt := wiring_succ_lt hs
    simp only [List.length_append, List.length_singleton] at hlt
    obtain rfl : n = p.length := by omega
    rw [hnone] at hs
    cases hs
  · obtain rfl := hstuck hm
    rw [hedge] at hey
    cases y with
    | false => simp
    | true => exact absurd hy hey
  · have hlt := (List.getElem?_eq_some_iff.1 hj).1
    simp only [List.length_append, List.length_singleton] at hlt
    obtain rfl : n = p.length := by omega
    rw [List.getElem?_concat_length] at hj
    cases hj
    exact hop
  · ext v
    rw [mem_pathLang]
    constructor
    · rintro ⟨r, hr, hv⟩
      obtain rfl := List.mem_singleton.1 hr
      rcases exits_iff.1 hv with ⟨-, he⟩ | ⟨y, l, m, v', -, hs, -⟩
      · rw [hedge, hx] at he
        exact (Option.some.inj he).symm
      · rw [hnone] at hs; cases hs
    · rintro rfl
      exact ⟨_, List.mem_singleton_self _, .last (by rw [hedge]; exact hx)⟩

theorem epsilon_spec {p q : Prog} {fr : Frag} (h : epsilon p = .ok (q, fr)) : FragSpec p q fr 1 :=
  one_spec (w := []) rfl rfl rfl rfl (by simp) h

section join

variable {p₀ p₁ p₂ : Prog} {s t : Nat} {A A' B : List PatchRef}

/-- **Some of a fragment's open slots pointed at the fragment made on top of it.** -/
theorem Seg.join (ha : Seg p₀ p₁ s (A ++ A')) (hb : Seg p₁ p₂ t B) : Seg p₀ (patch p₂ A' t) s (A ++ B) := by
  have hka : Keeps p₀ p₁ p₂ := fun n _ h2 => hb.ext n h2
  have hlen := hb.grows
  have hlen₀ := ha.grows
  have hA : ∀ r ∈ A, r ∈ A ++ A' := fun r hr => List.mem_append_left _ hr
  have hA' : ∀ r ∈ A', r ∈ A ++ A' := fun r hr => List.mem_append_right _ hr
  have hout : ∀ r ∈ A', r.1 < p₂.length := fun r hr => by have := ha.out_lt r (hA' r hr); omega
  have hw : wiring (patch p₂ A' t) = redirect (wiring p₂) (slots A') t := wiring_patch t A' p₂ hout
  have hdisj : ∀ r ∈ A, r ∉ A' := fun r hr hr' => (List.nodup_append'.1 ha.nodup).2.2 hr hr'
  have hnot : ∀ r ∈ B, r ∉ A' := fun r hr hr' => by
    have := (hb.out_mem r hr).1
    have := ha.out_lt r (hA' r hr')
    omega
  have hopen : ∀ r ∈ A ++ B, r ∉ slots A' ∧ p₀.length ≤ r.1 ∧ r.1 < p₂.length ∧ (wiring p₂).succ r.1 r.2 = none := by
    intro r hr
    rcases List.mem_append.1 hr with hr | hr
    · obtain ⟨h1, h2, -⟩ := ha.out_mem r (hA r hr)
      exact ⟨hdisj r hr, h1, by omega, ha.out_open hka r (hA r hr)⟩
    · obtain ⟨h1, h2, h3⟩ := hb.out_mem r hr
      exact ⟨hnot r hr, by omega, h2, h3⟩
  refine ⟨fun n hn => ?_, by rw [length_patch]; omega, ha.start_ge, ?_, fun r hr => ?_, fun n y t' hn hs => ?_,
    fun m hm y he hs => ?_, fun n j hn hj => ?_, ?_, by rw [length_patch]; exact hb.fits⟩
  · rw [getElem?_patch_ne _ _ _ _ (fun r hr heq => ?_), hb.ext n (by omega), ha.ext n hn]
    have := (ha.out_mem r (hA' r hr)).1
    omega
  · have := ha.start_lt
    rw [length_patch]
    omega
  · obtain ⟨h1, h2, h3, h4⟩ := hopen r hr
    rw [length_patch, hw, redirect_succ_notMem h1]
    exact ⟨h2, h3, h4⟩
  · rw [length_patch]
    rw [hw] at hs
    by_cases hm : (n, y) ∈ slots A'
    · rw [redirect_succ_mem hm] at hs
      cases hs
      have := hb.start_ge
      have := hb.start_lt
      omega
    · rw [redirect_succ_notMem hm] at hs
      by_cases h1 : n < p₁.length
      · have := ha.succ_inside hka hn h1 hs
        omega
      · have := hb.inside n y t' (by omega) hs
        omega
  · rw [hw] at hm he hs
    rw [redirect_edge] at he
    have hmem : (m, y) ∉ slots A' := fun h => by rw [redirect_succ_mem h] at hs; cases hs
    rw [redirect_succ_notMem hmem] at hs
    rcases reach_redirect hm with hr | hr
    · obtain ⟨h1, h2, hr'⟩ := ha.reach hka ha.start_ge ha.start_lt hr
      rw [(wiring_of_getElem? (hka m h1 h2)).1] at he
      rw [(wiring_of_getElem? (hka m h1 h2)).2] at hs
      rcases List.mem_append.1 (ha.live m hr' y he hs) with h | h
      · exact List.mem_append_left _ h
      · exact absurd h hmem
    · exact List.mem_append_right _ (hb.live m hr y he hs)
  · have hop := op_patch t n A' p₂
    rw [hj, Option.map_some] at hop
    obtain ⟨i, hi, hio⟩ := Option.map_eq_some_iff.1 hop.symm
    rw [← hio]
    by_cases h1 : n < p₁.length
    · rw [hka n hn h1] at hi
      exact ha.noMatch n i hn hi
    · exact hb.noMatch n i (by omega) hi
  · refine List.nodup_append'.2 ⟨(List.nodup_append'.1 ha.nodup).1, hb.nodup, fun r hr hr' => ?_⟩
    have := (hb.out_mem r hr').1
    have := ha.out_lt r (hA r hr)
    omega

/-- The paths of the joined fragment: out through the upper one, or out through a slot that stayed open. -/
theorem Seg.join_words (ha : Seg p₀ p₁ s (A ++ A')) (hb : Seg p₁ p₂ t B) :
    (∀ S ⊆ slots B, pathLang (wiring (patch p₂ A' t)) s S =
        pathLang (wiring p₁) s (slots A') * pathLang (wiring p₂) t S) ∧
      pathLang (wiring (patch p₂ A' t)) s (slots A) = pathLang (wiring p₁) s (slots A) := by
  have hka : Keeps p₀ p₁ p₂ := fun n _ h2 => hb.ext n h2
  have hkb : Keeps p₁ p₂ p₂ := fun _ _ _ => rfl
  have hlen := hb.grows
  have hA' : ∀ r ∈ A', r ∈ A ++ A' := fun r hr => List.mem_append_right _ hr
  have hlow : ∀ r ∈ A ++ A', ¬ (p₁.length ≤ r.1 ∧ r.1 < p₂.length) := fun r hr h => by
    have := ha.out_lt r hr
    omega
  have hhigh : ∀ r ∈ slots B, ¬ (p₀.length ≤ r.1 ∧ r.1 < p₁.length) := fun r hr h => by
    have := (hb.out_mem r hr).1
    omega
  have hw : wiring (patch p₂ A' t) = redirect (wiring p₂) (slots A') t :=
    wiring_patch t A' p₂ (fun r hr => by have := ha.out_lt r (hA' r hr); omega)
  have hopen : ∀ r ∈ slots A', (wiring p₂).succ r.1 r.2 = none := fun r hr => ha.out_open hka r (hA' r hr)
  have hback : pathLang (wiring p₂) t (slots A') = 0 := hb.pathLang_zero hkb (fun r hr => hlow r (hA' r hr))
  rw [hw]
  constructor
  · intro S hS
    rw [pathLang_redirect hopen, ha.pathLang_zero hka (fun r hr => hhigh r (hS hr)), ha.pathLang_eq hka ha.start_ge ha.start_lt, hback,
      kstar_zero, one_mul, zero_add]
  · rw [pathLang_redirect hopen, hb.pathLang_zero (S := slots A) hkb
        (fun r hr => hlow r (List.mem_append_left _ hr)), mul_zero, mul_zero, add_zero,
      ha.pathLang_eq hka ha.start_ge ha.start_lt]

end join

theorem concat_spec {p₀ p₁ p₂ : Prog} {a b : Frag} {L M : Language Label} (ha : FragSpec p₀ p₁ a L)
    (hb : FragSpec p₁ p₂ b M) : FragSpec p₀ (concat p₂ a b).1 (concat p₂ a b).2 (L * M) := by
  have ha' : Seg p₀ p₁ a.start ([] ++ a.out) := ha.toSeg
  refine ⟨ha'.join hb.toSeg, ?_⟩
  rw [← ha.words, ← hb.words]
  exact (ha'.join_words hb.toSeg).1 _ subset_rfl

/-! ### An instruction on top -/

section push

variable {p₀ p : Prog} {s : Nat} {out own : List PatchRef} {i : NfaInst}

/-- **An instruction on top of a fragment**: its set successors lead to the fragment's start, `own` is its open ones. -/
theorem Seg.push (h : Seg p₀ p s out) (hfit : p.length < maxInstructions) (hset : ∀ y t, i.succ y = some t → t = s) (hop : i.op ≠ .match_)
    (hown : ∀ r ∈ own, r.1 = p.length ∧ i.succ r.2 = none) (hnd : own.Nodup)
    (hall : ∀ y, i.edge y ≠ none → i.succ y = none → (p.length, y) ∈ own) :
    Seg p₀ (p ++ [i]) p.length (own ++ out) := by
  have hk := Keeps.append p₀ p [i]
  have hgr := h.grows
  obtain ⟨hedge, hsucc⟩ := wiring_top p i
  refine ⟨fun n hn => ?_, by simp; omega, by omega, by simp, fun r hr => ?_, fun n y t hn hs => ?_,
    fun m hm y he hs => ?_, fun n j hn hj => ?_, ?_, by simp; omega⟩
  · rw [wiring_append _ _ (by omega), h.ext n hn]
  · rw [List.length_append, List.length_singleton]
    rcases List.mem_append.1 hr with hr | hr
    · obtain ⟨h1, h2⟩ := hown r hr
      rw [h1, hsucc]
      exact ⟨by omega, by omega, h2⟩
    · obtain ⟨h1, h2, -⟩ := h.out_mem r hr
      exact ⟨h1, by omega, h.out_open hk r hr⟩
  · have hlt := wiring_succ_lt hs
    rw [List.length_append, List.length_singleton] at hlt ⊢
    by_cases h1 : n < p.length
    · have := h.succ_inside hk hn h1 hs
      omega
    · obtain rfl : n = p.length := by omega
      rw [hsucc] at hs
      obtain rfl := hset y t hs
      have := h.start_ge
      have := h.start_lt
      omega
  · have hcases : m = p.length ∨ Relation.ReflTransGen (Step (wiring (p ++ [i]))) s m := by
      rcases hm.cases_head with rfl | ⟨b, ⟨y, l, -, hb⟩, hbm⟩
      · exact Or.inl rfl
      · rw [hsucc] at hb
        obtain rfl := hset y b hb
        exact Or.inr hbm
    rcases hcases with rfl | hr
    · rw [hedge] at he
      rw [hsucc] at hs
      exact List.mem_append_left _ (hall y he hs)
    · obtain ⟨h1, h2, hr'⟩ := h.reach hk h.start_ge h.start_lt hr
      rw [(wiring_of_getElem? (hk m h1 h2)).1] at he
      rw [(wiring_of_getElem? (hk m h1 h2)).2] at hs
      exact List.mem_append_right _ (h.live m hr' y he hs)
  · have hlt := (List.getElem?_eq_some_iff.1 hj).1
    rw [List.length_append, List.length_singleton] at hlt
    by_cases h1 : n < p.length
    · rw [wiring_append _ _ h1] at hj
      exact h.noMatch n j hn hj
    · obtain rfl : n = p.length := by omega
      rw [List.getElem?_concat_length] at hj
      cases hj
      exact hop
  · refine List.nodup_append'.2 ⟨hnd, h.nodup, fun r hr hr' => ?_⟩
    have := h.out_lt r hr'
    have := (hown r hr).1
    omega

theorem Seg.push_words (h : Seg p₀ p s out) {w : List Label} {z : Bool}
    (hz : i.succ z = some s) (hw : i.edge z = some w) (hone : ∀ y, y ≠ z → i.succ y = none) :
    pathLang (wiring (p ++ [i])) p.length (slots out) = {w} * pathLang (wiring p) s (slots out) := by
  obtain ⟨hedge, hsucc⟩ := wiring_top p i
  rw [← h.pathLang_eq (Keeps.append p₀ p [i]) h.start_ge h.start_lt, pathLang_unfold]
  have hslot : slotLang (wiring (p ++ [i])) p.length (slots out) = 0 := by
    ext v
    simp only [Language.notMem_zero, iff_false]
    rintro ⟨y, hy, -⟩
    have := h.out_lt _ hy
    simp at this
  rw [hslot, zero_add]
  ext v
  rw [Language.mem_mul]
  constructor
  · rintro ⟨y, l, m, he, hs, v', hv, rfl⟩
    rw [hedge] at he
    rw [hsucc] at hs
    obtain rfl : y = z := by
      by_contra hy
      rw [hone y hy] at hs
      cases hs
    rw [hw] at he
    cases he
    rw [hz] at hs
    cases hs
    exact ⟨_, rfl, v', hv, rfl⟩
  · rintro ⟨_, rfl, v', hv, rfl⟩
    exact ⟨z, _, s, by rw [hedge]; exact hw, by rw [hsucc]; exact hz, v', hv, rfl⟩

end push

theorem prefix_spec {p₀ p : Prog} {fr : Frag} {L : Language Label} (h : FragSpec p₀ p fr L)
    (hfit : p.length < maxInstructions) {i : NfaInst} {w : List Label} (hx : i.x = some fr.start) (hy : i.y = none) (hw : i.edge false = some w)
    (hw' : i.edge true = none) (hop : i.op ≠ .match_) : FragSpec p₀ (p ++ [i]) ⟨p.length, fr.out⟩ ({w} * L) := by
  have hset : ∀ y t, i.succ y = some t → t = fr.start := by
    intro y t ht
    cases y with
    | false => simpa [NfaInst.succ, hx] using ht.symm
    | true => simp [NfaInst.succ, hy] at ht
  have hall : ∀ y, i.edge y ≠ none → i.succ y = none → (p.length, y) ∈ ([] : List PatchRef) := by
    intro y he hs
    cases y with
    | false => simp [NfaInst.succ, hx] at hs
    | true => exact absurd hw' he
  have hseg : Seg p₀ (p ++ [i]) p.length ([] ++ fr.out) :=
    h.toSeg.push hfit hset hop (fun r hr => absurd hr List.not_mem_nil) List.nodup_nil hall
  refine ⟨hseg, ?_⟩
  rw [← h.words]
  refine h.toSeg.push_words (z := false) (by simp [NfaInst.succ, hx]) hw (fun y hy' => ?_)
  cases y with
  | false => exact absurd rfl hy'
  | true => simp [NfaInst.succ, hy]

/-! ### Splits -/

theorem splitInst_succ (f : NodeFlags) (greedy : Bool) (body : Nat) (y : Bool) :
    (splitInst f greedy body).succ y = if y = !greedy then some body else none := by
  unfold splitInst
  rw [succ_setSucc]
  cases y <;> rfl

theorem splitInst_edge (f : NodeFlags) (greedy : Bool) (body : Nat) (y : Bool) :
    (splitInst f greedy body).edge y = some [] := by
  unfold splitInst
  rw [edge_setSucc]
  cases y <;> rfl

theorem splitInst_op (f : NodeFlags) (greedy : Bool) (body : Nat) : (splitInst f greedy body).op = .split := by
  cases greedy <;> rfl

/-- **The split of a repetition on top of its body**: out at once by its own slot, or out of the body. -/
theorem split_spec {p₀ p : Prog} {c : Frag} {L : Language Label} (h : FragSpec p₀ p c L)
    (hfit : p.length < maxInstructions) (f : NodeFlags) (greedy : Bool) :
    Seg p₀ (p ++ [splitInst f greedy c.start]) p.length ([(p.length, greedy)] ++ c.out) ∧
      pathLang (wiring (p ++ [splitInst f greedy c.start])) p.length (slots [(p.length, greedy)]) = 1 ∧
      pathLang (wiring (p ++ [splitInst f greedy c.start])) p.length (slots c.out) = L := by
  have hset : ∀ y t, (splitInst f greedy c.start).succ y = some t → t = c.start := by
    intro y t ht
    rw [splitInst_succ] at ht
    split at ht
    · exact (Option.some.inj ht).symm
    · cases ht
  have hown : (splitInst f greedy c.start).succ greedy = none := by
    rw [splitInst_succ]; cases greedy <;> rfl
  have hbody : (splitInst f greedy c.start).succ (!greedy) = some c.start := by
    rw [splitInst_succ, if_pos rfl]
  have hop : (splitInst f greedy c.start).op ≠ .match_ := by rw [splitInst_op]; simp
  refine ⟨h.toSeg.push hfit hset hop ?_ (List.nodup_singleton _) ?_, ?_, ?_⟩
  · intro r hr
    obtain rfl := List.mem_singleton.1 hr
    exact ⟨rfl, hown⟩
  · intro y _ hs
    rw [splitInst_succ] at hs
    split at hs
    · cases hs
    · rename_i hy
      cases y <;> cases greedy <;> simp_all
  · obtain ⟨hedge, hsucc⟩ := wiring_top p (splitInst f greedy c.start)
    rw [pathLang_unfold]
    have hnext : nextLang (wiring (p ++ [splitInst f greedy c.start])) p.length (slots [(p.length, greedy)]) = 0 := by
      ext v
      simp only [Language.notMem_zero, iff_false]
      rintro ⟨y, l, m, -, hs, v', hv, -⟩
      rw [hsucc] at hs
      obtain rfl := hset y m hs
      rw [h.toSeg.pathLang_zero (Keeps.append p₀ p _) (fun r hr hlt => ?_)] at hv
      · exact Language.notMem_zero _ hv
      · obtain rfl := List.mem_singleton.1 hr
        exact absurd hlt.2 (Nat.lt_irrefl _)
    rw [hnext, add_zero]
    ext v
    rw [Language.mem_one]
    constructor
    · rintro ⟨y, -, he⟩
      rw [hedge, splitInst_edge] at he
      exact (Option.some.inj he).symm
    · rintro rfl
      exact ⟨greedy, List.mem_singleton_self _, by rw [hedge, splitInst_edge]⟩
  · have hw := h.toSeg.push_words (i := splitInst f greedy c.start) hbody (splitInst_edge f greedy c.start _) (fun y hy => ?_)
    · rw [hw, h.words]
      exact one_mul L
    · rw [splitInst_succ, if_neg hy]

theorem Seg.loop {p₀ p : Prog} {s : Nat} {A B : List PatchRef} (h : Seg p₀ p s (A ++ B)) :
    Seg p₀ (patch p B s) s A ∧
      pathLang (wiring (patch p B s)) s (slots A) =
        (pathLang (wiring p) s (slots B))∗ * pathLang (wiring p) s (slots A) := by
  have hA : ∀ r ∈ A, r ∈ A ++ B := fun r hr => List.mem_append_left _ hr
  have hB : ∀ r ∈ B, r ∈ A ++ B := fun r hr => List.mem_append_right _ hr
  have hw : wiring (patch p B s) = redirect (wiring p) (slots B) s :=
    wiring_patch s B p (fun r hr => h.out_lt r (hB r hr))
  have hdisj : ∀ r ∈ A, r ∉ slots B := fun r hr hr' => (List.nodup_append'.1 h.nodup).2.2 hr hr'
  refine ⟨⟨fun n hn => ?_, by rw [length_patch]; exact h.grows, h.start_ge, by rw [length_patch]; exact h.start_lt,
    fun r hr => ?_, fun n y t hn hs => ?_, fun m hm y he hs => ?_, fun n j hn hj => ?_,
    (List.nodup_append'.1 h.nodup).1, by rw [length_patch]; exact h.fits⟩, ?_⟩
  · rw [getElem?_patch_ne _ _ _ _ (fun r hr heq => ?_), h.ext n hn]
    have := (h.out_mem r (hB r hr)).1
    omega
  · obtain ⟨h1, h2, h3⟩ := h.out_mem r (hA r hr)
    rw [length_patch, hw, redirect_succ_notMem (hdisj r hr)]
    exact ⟨h1, h2, h3⟩
  · rw [length_patch]
    rw [hw] at hs
    by_cases hm : (n, y) ∈ slots B
    · rw [redirect_succ_mem hm] at hs
      cases hs
      exact ⟨h.start_ge, h.start_lt⟩
    · rw [redirect_succ_notMem hm] at hs
      exact h.inside n y t hn hs
  · rw [hw] at hm he hs
    rw [redirect_edge] at he
    have hmem : (m, y) ∉ slots B := fun hm => by rw [redirect_succ_mem hm] at hs; cases hs
    rw [redirect_succ_notMem hmem] at hs
    have hr : Relation.ReflTransGen (Step (wiring p)) s m := (reach_redirect hm).elim id id
    rcases List.mem_append.1 (h.live m hr y he hs) with h' | h'
    · exact h'
    · exact absurd h' hmem
  · have hop := op_patch s n B p
    rw [hj, Option.map_some] at hop
    obtain ⟨i, hi, hio⟩ := Option.map_eq_some_iff.1 hop.symm
    rw [← hio]
    exact h.noMatch n i hn hi
  · have hopen : ∀ r ∈ slots B, (wiring p).succ r.1 r.2 = none := fun r hr => (h.out_mem r (hB r hr)).2.2
    rw [hw, pathLang_redirect hopen]
    nth_rewrite 1 [← one_mul (pathLang (wiring p) s (slots A))]
    rw [← mul_assoc, ← add_mul, Language.one_add_self_mul_kstar_eq_kstar]

theorem alt_spec {p₀ p₁ p₂ : Prog} {a b : Frag} {L M : Language Label} (ha : FragSpec p₀ p₁ a L)
    (hb : FragSpec p₁ p₂ b M) (hfit : p₂.length < maxInstructions) (f : NodeFlags) :
    FragSpec p₀ (p₂ ++ [{ op := .split, flags := f, x := some a.start, y := some b.start }])
      ⟨p₂.length, a.out ++ b.out⟩ (L + M) := by
  have hlen := hb.grows
  have hlen₀ := ha.grows
  generalize hi : ({ op := .split, flags := f, x := some a.start, y := some b.start } : NfaInst) = i
  have hka : Keeps p₀ p₁ (p₂ ++ [i]) := fun n _ h2 => by rw [wiring_append _ _ (by omega), hb.ext n h2]
  have hkb : Keeps p₁ p₂ (p₂ ++ [i]) := Keeps.append p₁ p₂ [i]
  obtain ⟨hedge, hsucc⟩ := wiring_top p₂ i
  have hie : ∀ y, i.edge y = some [] := by intro y; subst hi; cases y <;> rfl
  have his : ∀ y, i.succ y = some (if y then b.start else a.start) := by intro y; subst hi; cases y <;> rfl
  have hiop : i.op ≠ .match_ := by subst hi; simp
  have hout : ∀ r ∈ a.out ++ b.out, r.1 < p₂.length := by
    intro r hr
    rcases List.mem_append.1 hr with hr | hr
    · have := ha.toSeg.out_lt r hr; omega
    · exact hb.toSeg.out_lt r hr
  refine ⟨⟨fun n hn => ?_, by simp; omega, by simp only; omega, by simp, fun r hr => ?_, fun n y t hn hs => ?_,
    fun m hm y he hs => ?_, fun n j hn hj => ?_, ?_, by simp; omega⟩, ?_⟩
  · rw [wiring_append _ _ (by omega), hb.ext n (by omega), ha.ext n hn]
  · rw [List.length_append, List.length_singleton]
    rcases List.mem_append.1 hr with hr | hr
    · obtain ⟨h1, h2, -⟩ := ha.out_mem r hr
      exact ⟨h1, by omega, ha.toSeg.out_open hka r hr⟩
    · obtain ⟨h1, h2, -⟩ := hb.out_mem r hr
      exact ⟨by omega, by omega, hb.toSeg.out_open hkb r hr⟩
  · have hlt := wiring_succ_lt hs
    rw [List.length_append, List.length_singleton] at hlt ⊢
    by_cases h1 : n < p₁.length
    · have := ha.toSeg.succ_inside hka hn h1 hs
      omega
    · by_cases h2 : n < p₂.length
      · have := hb.toSeg.succ_inside hkb (by omega) h2 hs
        omega
      · obtain rfl : n = p₂.length := by omega
        rw [hsucc, his] at hs
        have := ha.start_ge
        have := ha.start_lt
        have := hb.start_ge
        have := hb.start_lt
        cases y with
        | false =>
          obtain rfl : a.start = t := Option.some.inj hs
          omega
        | true =>
          obtain rfl : b.start = t := Option.some.inj hs
          omega
  · have hcases : m = p₂.length ∨ Relation.ReflTransGen (Step (wiring (p₂ ++ [i]))) a.start m ∨
        Relation.ReflTransGen (Step (wiring (p₂ ++ [i]))) b.start m := by
      rcases hm.cases_head with rfl | ⟨n, ⟨y, l, -, hn⟩, hnm⟩
      · exact Or.inl rfl
      · simp only at hn
        rw [hsucc, his] at hn
        cases y <;> cases hn
        · exact Or.inr (Or.inl hnm)
        · exact Or.inr (Or.inr hnm)
    rcases hcases with rfl | hr | hr
    · rw [hsucc, his] at hs
      cases hs
    · obtain ⟨h1, h2, hr'⟩ := ha.toSeg.reach hka ha.start_ge ha.start_lt hr
      rw [(wiring_of_getElem? (hka m h1 h2)).1] at he
      rw [(wiring_of_getElem? (hka m h1 h2)).2] at hs
      exact List.mem_append_left _ (ha.live m hr' y he hs)
    · obtain ⟨h1, h2, hr'⟩ := hb.toSeg.reach hkb hb.start_ge hb.start_lt hr
      rw [(wiring_of_getElem? (hkb m h1 h2)).1] at he
      rw [(wiring_of_getElem? (hkb m h1 h2)).2] at hs
      exact List.mem_append_right _ (hb.live m hr' y he hs)
  · have hlt := (List.getElem?_eq_some_iff.1 hj).1
    rw [List.length_append, List.length_singleton] at hlt
    by_cases h1 : n < p₁.length
    · rw [hka n hn h1] at hj
      exact ha.noMatch n j hn hj
    · by_cases h2 : n < p₂.length
      · rw [wiring_append _ _ h2] at hj
        exact hb.noMatch n j (by omega) hj
      · obtain rfl : n = p₂.length := by omega
        rw [List.getElem?_concat_length] at hj
        cases hj
        exact hiop
  · refine List.nodup_append'.2 ⟨ha.nodup, hb.nodup, fun r hr hr' => ?_⟩
    have := (hb.out_mem r hr').1
    have := ha.toSeg.out_lt r hr
    omega
  · have hL : pathLang (wiring (p₂ ++ [i])) a.start (slots (a.out ++ b.out)) = L := by
      rw [show slots (a.out ++ b.out) = slots a.out ∪ slots b.out from by ext; simp, pathLang_union,
        ha.toSeg.pathLang_eq hka ha.start_ge ha.start_lt, ha.words, ha.toSeg.pathLang_zero (S := slots b.out) hka,
        add_zero]
      intro r hr h
      have := (hb.out_mem r hr).1
      omega
    have hM : pathLang (wiring (p₂ ++ [i])) b.start (slots (a.out ++ b.out)) = M := by
      rw [show slots (a.out ++ b.out) = slots a.out ∪ slots b.out from by ext; simp, pathLang_union,
        hb.toSeg.pathLang_eq hkb hb.start_ge hb.start_lt (slots b.out), hb.words,
        hb.toSeg.pathLang_zero (S := slots a.out) hkb, zero_add]
      intro r hr h
      have := ha.toSeg.out_lt r hr
      omega
    rw [pathLang_unfold]
    have hslot : slotLang (wiring (p₂ ++ [i])) p₂.length (slots (a.out ++ b.out)) = 0 := by
      ext v
      simp only [Language.notMem_zero, iff_false]
      rintro ⟨y, hy, -⟩
      have := hout _ hy
      simp at this
    simp only [hslot, zero_add]
    rw [← hL, ← hM]
    ext v
    rw [Language.mem_add]
    constructor
    · rintro ⟨y, l, m, he, hs, v', hv, rfl⟩
      rw [hedge, hie] at he
      rw [hsucc, his] at hs
      cases he
      cases y <;> cases hs
      · exact Or.inl hv
      · exact Or.inr hv
    · rintro (hv | hv)
      · exact ⟨false, [], a.start, by rw [hedge, hie], by rw [hsucc, his]; rfl, v, hv, rfl⟩
      · exact ⟨true, [], b.start, by rw [hedge, hie], by rw [hsucc, his]; rfl, v, hv, rfl⟩

/-! ## The builders -/

theorem runeChain_spec (f : NodeFlags) : ∀ (cps : List Nat) {p₀ p q : Prog} {a : Frag} {o : Option Frag}
    {L : Language Label}, FragSpec p₀ p a L → runeChain f cps p (some a) = .ok (q, o) →
    ∃ b, o = some b ∧ FragSpec p₀ q b (L * {cps.map (Label.rune f)})
  | [], p₀, p, q, a, o, L, ha, h => by
    cases h
    exact ⟨a, rfl, by rwa [show ({[].map (Label.rune f)} : Language Label) = 1 from rfl, mul_one]⟩
  | cp :: cps, p₀, p, q, a, o, L, ha, h => by
    obtain ⟨⟨p₁, fr⟩, h1, h⟩ := bind_ok h
    have hone := one_spec (w := [Label.rune f cp]) rfl rfl rfl rfl (by simp) h1
    have hword : ({(cp :: cps).map (Label.rune f)} : Language Label) =
        {[Label.rune f cp]} * {cps.map (Label.rune f)} := by
      ext v
      rw [Language.mem_mul]
      constructor
      · rintro rfl; exact ⟨_, rfl, _, rfl, rfl⟩
      · rintro ⟨_, rfl, _, rfl, rfl⟩; rfl
    rw [hword, ← mul_assoc]
    exact runeChain_spec f cps (concat_spec ha hone) h

theorem buildLiteral_spec {f : NodeFlags} {l : Bytes} {p q : Prog} {fr : Frag} (h : buildLiteral f l p = .ok (q, fr)) :
    FragSpec p q fr {(runes l).map (Label.rune f)} := by
  obtain ⟨⟨p₁, e⟩, h1, h⟩ := bind_ok h
  obtain ⟨⟨p₂, o⟩, h2, h⟩ := bind_ok h
  obtain ⟨⟨p', pc⟩, he, h1⟩ := bind_ok h1
  obtain ⟨rfl, -, -⟩ := emit_ok he
  cases h1
  -- the first jump stays behind, unused
  suffices hs : FragSpec (p ++ [{ op := .jmp }]) q fr {(runes l).map (Label.rune f)} from
    hs.weaken rfl rfl (by simp)
  cases hr : runes l with
  | nil =>
    rw [hr] at h2
    cases h2
    exact epsilon_spec h
  | cons cp cps =>
    rw [hr] at h2
    obtain ⟨⟨p₃, fr₁⟩, h3, h2⟩ := bind_ok h2
    obtain ⟨b, rfl, hb⟩ := runeChain_spec f cps (one_spec (w := [Label.rune f cp]) rfl rfl rfl rfl (by simp) h3) h2
    cases h
    have hword : ({(cp :: cps).map (Label.rune f)} : Language Label) =
        {[Label.rune f cp]} * {cps.map (Label.rune f)} := by
      ext v
      rw [Language.mem_mul]
      constructor
      · rintro rfl; exact ⟨_, rfl, _, rfl, rfl⟩
      · rintro ⟨_, rfl, _, rfl, rfl⟩; rfl
    rw [hword]
    exact hb

/-- What a builder does: it makes a fragment of the language on top of any program. -/
def Builds (b : Prog → Except String (Prog × Frag)) (L : Language Label) : Prop :=
  ∀ p q fr, b p = .ok (q, fr) → FragSpec p q fr L

theorem buildCopies_spec {b : Prog → Except String (Prog × Frag)} {L : Language Label} (hb : Builds b L) :
    ∀ (k : Nat) {p₀ p q : Prog} {a fr : Frag} {M : Language Label}, FragSpec p₀ p a M →
      buildCopies b k p a = .ok (q, fr) → FragSpec p₀ q fr (M * L ^ k)
  | 0, p₀, p, q, a, fr, M, ha, h => by
    cases h
    rwa [pow_zero, mul_one]
  | k + 1, p₀, p, q, a, fr, M, ha, h => by
    obtain ⟨⟨p₁, c⟩, h1, h⟩ := bind_ok h
    rw [pow_succ', ← mul_assoc]
    exact buildCopies_spec hb k (concat_spec ha (hb p p₁ c h1)) h

theorem buildCopies_length {b : Prog → Except String (Prog × Frag)} {L : Language Label} (hb : Builds b L) :
    ∀ (k : Nat) {p q : Prog} {a fr : Frag}, buildCopies b k p a = .ok (q, fr) → p.length + k ≤ q.length
  | 0, p, q, a, fr, h => by cases h; exact Nat.le_refl _
  | k + 1, p, q, a, fr, h => by
    obtain ⟨⟨p₁, c⟩, h1, h⟩ := bind_ok h
    have h2 := buildCopies_length hb k h
    have h3 := (hb p p₁ c h1).grows
    simp only [length_patch] at h2
    omega

def upTo (L : Language Label) (k : Nat) : Language Label := {w | ∃ j ≤ k, w ∈ L ^ j}

theorem upTo_zero (L : Language Label) : upTo L 0 = 1 := by
  ext w
  constructor
  · rintro ⟨j, hj, hw⟩
    obtain rfl : j = 0 := by omega
    exact hw
  · exact fun hw => ⟨0, Nat.le_refl _, hw⟩

theorem upTo_succ (L : Language Label) (k : Nat) : upTo L (k + 1) = 1 + L * upTo L k := by
  ext w
  rw [Language.mem_add]
  constructor
  · rintro ⟨j, hj, hw⟩
    cases j with
    | zero => exact Or.inl hw
    | succ j =>
      rw [pow_succ'] at hw
      obtain ⟨u, hu, v, hv, rfl⟩ := Language.mem_mul.1 hw
      exact Or.inr (Language.append_mem_mul hu ⟨j, by omega, hv⟩)
  · rintro (hw | hw)
    · exact ⟨0, Nat.zero_le _, hw⟩
    · obtain ⟨u, hu, v, ⟨j, hj, hv⟩, rfl⟩ := Language.mem_mul.1 hw
      exact ⟨j + 1, by omega, by rw [pow_succ']; exact Language.append_mem_mul hu hv⟩

/-- The exits so far leave by one of the counts already passed, the open end by the next. -/
theorem buildOptional_spec {b : Prog → Except String (Prog × Frag)} {L : Language Label} (hb : Builds b L)
    (f : NodeFlags) (greedy : Bool) :
    ∀ (k : Nat) {p₀ p q : Prog} {a fr : Frag} {exits : List PatchRef} {E M : Language Label},
      Seg p₀ p a.start (exits ++ a.out) → pathLang (wiring p) a.start (slots exits) = E →
      pathLang (wiring p) a.start (slots a.out) = M → buildOptional b f greedy k p a exits = .ok (q, fr) →
      FragSpec p₀ q fr (E + M * upTo L k)
  | 0, p₀, p, q, a, fr, exits, E, M, hseg, hE, hM, h => by
    cases h
    refine ⟨hseg, ?_⟩
    rw [show slots (exits ++ a.out) = slots exits ∪ slots a.out from by ext; simp, pathLang_union, hE, hM, upTo_zero,
      mul_one]
  | k + 1, p₀, p, q, a, fr, exits, E, M, hseg, hE, hM, h => by
    obtain ⟨⟨p₁, c⟩, h1, h⟩ := bind_ok h
    obtain ⟨⟨p₂, pc⟩, h2, h⟩ := bind_ok h
    obtain ⟨rfl, rfl, hfit⟩ := emit_ok h2
    obtain ⟨hs, hs1, hsL⟩ := split_spec (hb p p₁ c h1) hfit f greedy
    -- the split with its body is one fragment on top of `p`, entered from the open end
    have hjoin := hseg.join hs
    obtain ⟨hhigh, hlow⟩ := hseg.join_words hs
    have hexit := hhigh (slots [(p₁.length, greedy)]) (fun r hr => List.mem_append_left _ hr)
    have hbody := hhigh (slots c.out) (fun r hr => List.mem_append_right _ hr)
    rw [hM, hs1, mul_one] at hexit
    rw [hM, hsL] at hbody
    rw [← List.append_assoc] at hjoin
    have hrest := buildOptional_spec hb f greedy k (a := ⟨a.start, c.out⟩) hjoin rfl hbody h
    rwa [show slots (exits ++ [(p₁.length, greedy)]) = slots exits ∪ slots [(p₁.length, greedy)] from by ext; simp,
      pathLang_union, hlow, hE, hexit, add_assoc, mul_assoc, ← mul_one_add, ← upTo_succ] at hrest

def repeatLang (mn mx : Nat) (L : Language Label) : Language Label :=
  {w | ∃ k, mn ≤ k ∧ (mx = sizeMax ∨ k ≤ mx) ∧ w ∈ L ^ k}

theorem repeatLang_bounded {mn mx : Nat} (h : mn ≤ mx) (hmx : mx ≠ sizeMax) (L : Language Label) :
    repeatLang mn mx L = L ^ mn * upTo L (mx - mn) := by
  ext w
  rw [Language.mem_mul]
  constructor
  · rintro ⟨k, h1, h2, hw⟩
    obtain ⟨j, rfl⟩ := Nat.exists_eq_add_of_le h1
    rw [pow_add] at hw
    obtain ⟨u, hu, v, hv, rfl⟩ := Language.mem_mul.1 hw
    exact ⟨u, hu, v, ⟨j, by omega, hv⟩, rfl⟩
  · rintro ⟨u, hu, v, ⟨j, hj, hv⟩, rfl⟩
    exact ⟨mn + j, by omega, Or.inr (by omega), by rw [pow_add]; exact Language.append_mem_mul hu hv⟩

theorem repeatLang_unbounded (mn : Nat) (L : Language Label) : repeatLang mn sizeMax L = L ^ mn * L∗ := by
  ext w
  rw [Language.mem_mul]
  constructor
  · rintro ⟨k, h1, -, hw⟩
    obtain ⟨j, rfl⟩ := Nat.exists_eq_add_of_le h1
    rw [pow_add] at hw
    obtain ⟨u, hu, v, hv, rfl⟩ := Language.mem_mul.1 hw
    exact ⟨u, hu, v, by rw [Language.kstar_eq_iSup_pow, Language.mem_iSup]; exact ⟨j, hv⟩, rfl⟩
  · rintro ⟨u, hu, v, hv, rfl⟩
    rw [Language.kstar_eq_iSup_pow, Language.mem_iSup] at hv
    obtain ⟨j, hv⟩ := hv
    exact ⟨mn + j, by omega, Or.inl rfl, by rw [pow_add]; exact Language.append_mem_mul hu hv⟩

theorem buildRepeat_spec {b : Prog → Except String (Prog × Frag)} {L : Language Label} (hb : Builds b L)
    {f : NodeFlags} {mn mx : Nat} {greedy : Bool} (hle : mx = sizeMax ∨ mn ≤ mx) {p q : Prog} {fr : Frag}
    (h : buildRepeat f mn mx greedy b p = .ok (q, fr)) : FragSpec p q fr (repeatLang mn mx L) := by
  obtain ⟨⟨p₁, e⟩, h1, h'⟩ := bind_ok h
  obtain ⟨⟨p₂, res⟩, h2, hr⟩ := bind_ok h'
  clear h h'
  have hres := buildCopies_spec hb mn (epsilon_spec h1) h2
  rw [one_mul] at hres
  change (if mx = mn then _ else _) = _ at hr
  by_cases hmn : mx = mn
  · rw [if_pos hmn] at hr
    cases hr
    subst hmn
    by_cases hmax : mx = sizeMax
    · -- that many copies do not fit
      have hcopies := buildCopies_length hb mx h2
      have hfits := hres.fits
      have : maxInstructions < sizeMax := by decide
      omega
    · rwa [repeatLang_bounded (Nat.le_refl _) hmax, Nat.sub_self, upTo_zero, mul_one]
  · rw [if_neg hmn] at hr
    by_cases hmx : mx = sizeMax
    · rw [if_pos hmx] at hr
      subst hmx
      obtain ⟨⟨p₃, c⟩, h3, h⟩ := bind_ok hr
      obtain ⟨⟨p₄, pc⟩, h4, h'⟩ := bind_ok h
      obtain ⟨rfl, rfl, hfit⟩ := emit_ok h4
      cases h'
      obtain ⟨hs, hs1, hsL⟩ := split_spec (hb p₂ p₃ c h3) hfit f greedy
      obtain ⟨hl, hlw⟩ := hs.loop
      rw [hs1, hsL, mul_one] at hlw
      have hloop : FragSpec p₂ _ ⟨p₃.length, [(p₃.length, greedy)]⟩ (L∗) := ⟨hl, hlw⟩
      rw [repeatLang_unbounded]
      exact concat_spec hres hloop
    · rw [if_neg hmx] at hr
      have hseg : Seg p p₂ res.start ([] ++ res.out) := hres.toSeg
      have hnil : pathLang (wiring p₂) res.start (slots []) = 0 := by
        ext w
        simp only [Language.notMem_zero, iff_false]
        rintro ⟨r, hr, -⟩
        exact absurd hr List.not_mem_nil
      have hopt := buildOptional_spec hb f greedy (mx - mn) hseg hnil hres.words hr
      rw [zero_add] at hopt
      rwa [repeatLang_bounded (hle.resolve_left hmx) hmx]

theorem buildAll_spec : ∀ (cs : List RegexNode), (∀ c ∈ cs, Builds (build c) (lang c)) →
    ∀ {p₀ p q : Prog} {r fr : Frag} {L : Language Label}, FragSpec p₀ p r L → buildAll cs p r = .ok (q, fr) →
      FragSpec p₀ q fr (L * langAll cs)
  | [], _, p₀, p, q, r, fr, L, hr, h => by
    cases h
    rwa [langAll, mul_one]
  | c :: cs, hcs, p₀, p, q, r, fr, L, hr, h => by
    obtain ⟨⟨p₁, b⟩, h1, h⟩ := bind_ok h
    rw [langAll, ← mul_assoc]
    exact buildAll_spec cs (fun d hd => hcs d (List.mem_cons_of_mem _ hd))
      (concat_spec hr (hcs c List.mem_cons_self p p₁ b h1)) h

theorem buildAlt_spec (f : NodeFlags) : ∀ (cs : List RegexNode), (∀ c ∈ cs, Builds (build c) (lang c)) →
    ∀ {p₀ p q : Prog} {r fr : Frag} {L : Language Label}, FragSpec p₀ p r L → buildAlt f cs p (some r) = .ok (q, fr) →
      FragSpec p₀ q fr (L + langAny cs)
  | [], _, p₀, p, q, r, fr, L, hr, h => by
    cases h
    rwa [langAny, add_zero]
  | c :: cs, hcs, p₀, p, q, r, fr, L, hr, h => by
    obtain ⟨⟨p₁, b⟩, h1, h⟩ := bind_ok h
    obtain ⟨⟨p₂, pc⟩, h2, h⟩ := bind_ok h
    obtain ⟨rfl, rfl, hfit⟩ := emit_ok h2
    rw [langAny, ← add_assoc]
    exact buildAlt_spec f cs (fun d hd => hcs d (List.mem_cons_of_mem _ hd))
      (alt_spec hr (hcs c List.mem_cons_self p p₁ b h1) hfit f) h

/-- **The compiler builds the language of the tree.** -/
theorem build_spec (n : RegexNode) : n.wf = true → Builds (build n) (lang n) := by
  induction n using RegexNode.recChildren with
  | empty f =>
    intro _ p q fr h
    rw [build] at h
    exact epsilon_spec h
  | literal f l =>
    intro _ p q fr h
    rw [build] at h
    exact buildLiteral_spec h
  | dot f =>
    intro _ p q fr h
    rw [build] at h
    exact one_spec rfl rfl rfl rfl (by simp) h
  | cls f s =>
    intro _ p q fr h
    rw [build] at h
    exact one_spec rfl rfl rfl rfl (by simp) h
  | assert f k =>
    intro _ p q fr h
    rw [build] at h
    exact one_spec rfl rfl rfl rfl (by simp) h
  | concat f cs ih =>
    intro hwf p q fr h
    rw [build] at h
    rw [RegexNode.wf, RegexNode.wfAll_iff] at hwf
    obtain ⟨⟨p₁, r⟩, h1, h⟩ := bind_ok h
    rw [lang, ← one_mul (langAll cs)]
    exact buildAll_spec cs (fun c hc => ih c hc (hwf c hc)) (epsilon_spec h1) h
  | alt f cs ih =>
    intro hwf p q fr h
    rw [build] at h
    simp only [RegexNode.wf, Bool.and_eq_true, RegexNode.wfAll_iff] at hwf
    cases cs with
    | nil => simp at hwf
    | cons c cs =>
      rw [buildAlt] at h
      obtain ⟨⟨p₁, b⟩, h1, h⟩ := bind_ok h
      have hb := ih c List.mem_cons_self (hwf.2 c List.mem_cons_self) p p₁ b h1
      exact buildAlt_spec f cs
        (fun d hd => ih d (List.mem_cons_of_mem _ hd) (hwf.2 d (List.mem_cons_of_mem _ hd))) hb h
  | repeat_ f mn mx g c ih =>
    intro hwf p q fr h
    rw [build] at h
    simp only [RegexNode.wf, Bool.and_eq_true, Bool.or_eq_true, decide_eq_true_eq] at hwf
    exact buildRepeat_spec (ih hwf.2) hwf.1 h
  | group f g nm c ih =>
    intro hwf p q fr h
    rw [build] at h
    rw [RegexNode.wf] at hwf
    obtain ⟨⟨p₁, cf⟩, h1, h'⟩ := bind_ok h
    obtain ⟨⟨p₂, a⟩, h2, h''⟩ := bind_ok h'
    obtain ⟨⟨p₃, b⟩, h3, h4⟩ := bind_ok h''
    clear h h' h''
    obtain ⟨rfl, rfl, hfit⟩ := emit_ok h2
    cases h4
    have hc := ih hwf p p₁ cf h1
    have hsave := prefix_spec hc hfit (i := { op := .saveStart g, flags := f, x := some cf.start })
      (w := [.saveStart g]) rfl rfl rfl rfl (by simp)
    have hend : one (p₁ ++ [{ op := .saveStart g, flags := f, x := some cf.start }])
        { op := .saveEnd g, flags := f } = .ok (p₃, ⟨b, [(b, false)]⟩) := by
      rw [one, h3]
      rfl
    exact concat_spec hsave (one_spec (w := [.saveEnd g]) rfl rfl rfl rfl (by simp) hend)
  | backRef f g => intro _ p q fr h; rw [build] at h; cases h
  | lookAhead f neg c _ => intro _ p q fr h; rw [build] at h; cases h
  | lookBehind f neg c _ => intro _ p q fr h; rw [build] at h; cases h

/-! ## The whole program -/

/-- What the simulation relies on of a compiled program. -/
structure Compiled (p : Prog) (start : Nat) (L : Language Label) : Prop where
  start_lt : start < p.length
  /-- There is one `Match`, and the words that lead to it are the language. -/
  accept : ∃ m < p.length, (∀ n i, p[n]? = some i → (i.op = .match_ ↔ n = m)) ∧ ∀ w, WordPath (wiring p) start w m ↔ w ∈ L
  /-- Every successor of a reachable instruction is in the program. -/
  closed : ∀ n, Relation.ReflTransGen (Step (wiring p)) start n → ∀ y, (wiring p).edge n y ≠ none →
    ∃ t, (wiring p).succ n y = some t ∧ t < p.length

/-- **A compiled tree accepts its language.** -/
theorem compile_spec {n : RegexNode} (hwf : n.wf = true) {p : Prog} {start : Nat} (h : compile n = .ok (p, start)) :
    Compiled p start (lang n) := by
  obtain ⟨⟨p₁, fr⟩, h1, h⟩ := bind_ok h
  obtain ⟨⟨p₂, m⟩, h2, h⟩ := bind_ok h
  obtain ⟨rfl, rfl, -⟩ := emit_ok h2
  cases h
  have hf := build_spec n hwf [] p₁ fr h1
  have hk : Keeps [] p₁ (p₁ ++ [{ op := .match_ }]) := Keeps.append [] p₁ _
  have hw : wiring (patch (p₁ ++ [{ op := .match_ }]) fr.out p₁.length) =
      redirect (wiring (p₁ ++ [{ op := .match_ }])) (slots fr.out) p₁.length :=
    wiring_patch _ _ _ (fun r hr => by have := hf.toSeg.out_lt r hr; simp; omega)
  obtain ⟨hedge, hsucc⟩ := wiring_top p₁ { op := .match_ }
  have hend : ∀ y, (wiring (p₁ ++ [{ op := .match_ }])).edge p₁.length y = none := by
    intro y; rw [hedge]; cases y <;> rfl
  have hnew : ¬ Relation.ReflTransGen (Step (wiring (p₁ ++ [{ op := .match_ }]))) fr.start p₁.length := by
    intro hr
    have := (hf.toSeg.reach hk hf.start_ge hf.start_lt hr).2.1
    omega
  have hopen := hf.toSeg.out_open hk
  refine ⟨by have := hf.start_lt; simp; omega, ⟨p₁.length, by simp, fun k i hi => ?_, fun w => ?_⟩, fun k hr y he => ?_⟩
  · have hop := op_patch p₁.length k fr.out (p₁ ++ [{ op := .match_ }])
    rw [hi, Option.map_some] at hop
    obtain ⟨j, hj, hjo⟩ := Option.map_eq_some_iff.1 hop.symm
    rw [← hjo]
    have hlt := (List.getElem?_eq_some_iff.1 hj).1
    rw [List.length_append, List.length_singleton] at hlt
    by_cases hk' : k < p₁.length
    · rw [wiring_append _ _ hk'] at hj
      have := hf.noMatch k j (Nat.zero_le _) hj
      simp [this]
      omega
    · obtain rfl : k = p₁.length := by omega
      rw [List.getElem?_concat_length] at hj
      cases hj
      simp
  · rw [hw, path_redirect_iff hopen hend hnew, hf.toSeg.pathLang_eq hk hf.start_ge hf.start_lt, hf.words]
  · rw [hw] at hr he ⊢
    rw [length_patch, List.length_append, List.length_singleton]
    rw [redirect_edge] at he
    by_cases hm : (k, y) ∈ slots fr.out
    · exact ⟨p₁.length, redirect_succ_mem hm, by omega⟩
    · rw [redirect_succ_notMem hm]
      rcases reach_redirect hr with hr | hr
      · obtain ⟨h1', h2', hr'⟩ := hf.toSeg.reach hk hf.start_ge hf.start_lt hr
        rw [(wiring_of_getElem? (hk k h1' h2')).1] at he
        rw [(wiring_of_getElem? (hk k h1' h2')).2]
        cases hs : (wiring p₁).succ k y with
        | none => exact absurd (hf.live k hr' y he hs) hm
        | some t =>
          have := (hf.inside k y t h1' hs).2
          exact ⟨t, rfl, by omega⟩
      · rcases hr.cases_head with rfl | ⟨b, ⟨z, l, hz, -⟩, -⟩
        · exact absurd (hend y) he
        · rw [hend] at hz; cases hz

end NfaCompiler
end Pergrep
