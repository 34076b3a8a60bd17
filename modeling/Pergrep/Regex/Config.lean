import Pergrep.Regex.SimLoop
import Pergrep.Regex.Thompson
/-!
# Config — configurations: where a thread can be, and when

`CStep` is one step of the program on the text: a slot of an instruction, its word read off.  `CReach` is what a start
position can reach by such steps.  A step from an instruction that stays takes the rune at its position
(`cstep_stays`), any other step is an expansion of the threads there (`cstep_expand`, `child_cstep`); the words along a
path are the words of the program (`creach_iff_path`).
-/
namespace Pergrep

open Wiring NfaCompiler Worklist

section
variable (icu : Icu) (p : RegexProgram) (c : VerifierContext)

/-- One step of the program: instruction and position. -/
def CStep (a b : Nat × Nat) : Prop :=
  ∃ y l, (wiring p.nfa).edge a.1 y = some l ∧ (wiring p.nfa).succ a.1 y = some b.1 ∧ runs icu c l a.2 b.2

/-- `b` is reached from `a`. -/
abbrev CReach : Nat × Nat → Nat × Nat → Prop := Relation.ReflTransGen (CStep icu p c)

def RStep (q q' : Nat) : Prop := ∃ r, contextRuneAtValidated c q = some r ∧ r.next = q'

/-- Reached by stepping over runes. -/
abbrev RChain : Nat → Nat → Prop := Relation.ReflTransGen (RStep c)

/-- A candidate start: in the candidate range, and reached from its begin by stepping over runes. -/
def CandidateStart (s : Nat) : Prop := RChain c c.candidateBegin s ∧ s < c.candidateEnd

variable {icu p c}

/-! ## Positions -/

theorem RStep.lt (hv : c.Valid) {q q' : Nat} (h : RStep c q q') : q < q' := by
  obtain ⟨r, hr, rfl⟩ := h
  exact (contextRuneAtValidated_next hv hr).2.2.1

theorem RStep.det {q a b : Nat} (h : RStep c q a) (h' : RStep c q b) : a = b := by
  obtain ⟨r, hr, rfl⟩ := h
  obtain ⟨r', hr', rfl⟩ := h'
  rw [hr] at hr'
  cases hr'
  rfl

theorem RChain.le (hv : c.Valid) {q q' : Nat} (h : RChain c q q') : q ≤ q' := by
  induction h with
  | refl => exact Nat.le_refl _
  | tail _ hab ih => exact Nat.le_trans ih (hab.lt hv).le

theorem RChain.total {q a b : Nat} (h : RChain c q a) (h' : RChain c q b) : RChain c a b ∨ RChain c b a :=
  Relation.ReflTransGen.total_of_right_unique (fun _ _ _ h h' => h.det h') h h'

theorem RChain.next {q a : Nat} (h : RChain c q a) (hne : q ≠ a) {q' : Nat} (hs : RStep c q q') : RChain c q' a := by
  rcases h.cases_head with h | ⟨b, hb, hba⟩
  · exact absurd h hne
  · rwa [hs.det hb]

theorem runs_pos {l : List Label} : ∀ {q q' : Nat}, runs icu c l q q' → RChain c q q' := by
  induction l with
  | nil => rintro q q' rfl; exact .refl
  | cons x l ih =>
    rintro q q' ⟨m, hx, hl⟩
    have hm : RChain c q m := by
      cases x with
      | rune | any | cls =>
        obtain ⟨r, hr, -, rfl⟩ := hx
        exact .single ⟨r, hr, rfl⟩
      | assert =>
        obtain ⟨-, rfl⟩ := hx
        exact .refl
      | saveStart | saveEnd =>
        obtain rfl := hx
        exact .refl
    exact hm.trans (ih hl)

/-! ## Steps of the program and expansions of threads -/

theorem cstep_stays {k q k' q' : Nat} (hs : stays p k = true) :
    CStep icu p c (k, q) (k', q') ↔ ∃ i r, p.nfa[k]? = some i ∧ contextRuneAtValidated c q = some r ∧
      nfaConsume icu c i r.cp = true ∧ i.x = some k' ∧ r.next = q' := by
  unfold stays at hs
  split at hs
  · rename_i i hi
    constructor
    · rintro ⟨y, l, he, hsu, hl⟩
      simp only [wiring, hi, Option.bind_some] at he hsu
      have hread : ∃ x, l = [x] ∧ ∀ q q', x.reads icu c q q' →
          ∃ r, contextRuneAtValidated c q = some r ∧ nfaConsume icu c i r.cp = true ∧ q' = r.next := by
        cases y <;> cases hop : i.op <;> simp only [hop, Bool.false_eq_true] at hs <;>
          simp only [NfaInst.edge, hop, Option.some.injEq, reduceCtorEq] at he
        all_goals
          refine ⟨_, he.symm, ?_⟩
          rintro q q' ⟨r, hr, ht, hq⟩
          refine ⟨r, hr, ?_, hq⟩
          rw [nfaConsume, hop]
          exact ht
      obtain ⟨x, rfl, hx⟩ := hread
      obtain ⟨r, hr, ht, rfl⟩ := hx _ _ (runs_singleton.1 hl)
      have hy : y = false := by
        cases y with
        | false => rfl
        | true => cases hop : i.op <;> simp [NfaInst.edge, hop] at he
      subst hy
      exact ⟨i, r, hi, hr, ht, hsu, rfl⟩
    · rintro ⟨i', r, hi', hr, hc, hx, rfl⟩
      rw [hi] at hi'
      cases hi'
      unfold nfaConsume at hc
      split at hc
      · rename_i cp hop
        exact ⟨false, [.rune i.flags cp], by simp [wiring, hi, NfaInst.edge, hop], by simp [wiring, hi, NfaInst.succ, hx],
          runs_singleton.2 ⟨r, hr, hc, rfl⟩⟩
      · rename_i hop
        exact ⟨false, [.any i.flags], by simp [wiring, hi, NfaInst.edge, hop], by simp [wiring, hi, NfaInst.succ, hx],
          runs_singleton.2 ⟨r, hr, hc, rfl⟩⟩
      · rename_i s hop
        exact ⟨false, [.cls i.flags s], by simp [wiring, hi, NfaInst.edge, hop], by simp [wiring, hi, NfaInst.succ, hx],
          runs_singleton.2 ⟨r, hr, hc, rfl⟩⟩
      · cases hc
  · cases hs

theorem cstep_expand {k q k' q' : Nat} (hs : stays p k = false) (h : CStep icu p c (k, q) (k', q')) :
    q' = q ∧ ∀ t : NfaThread, t.pc = some k →
      ∃ u, Child (threadKey p) (threadNext icu p c q) t u ∧ u.pc = some k' := by
  obtain ⟨y, l, he, hsu, hl⟩ := h
  simp only [wiring] at he hsu
  cases hi : p.nfa[k]? with
  | none => rw [hi] at he; cases he
  | some i =>
    rw [hi, Option.bind_some] at he hsu
    have hk : k < p.nfa.length := (List.getElem?_eq_some_iff.1 hi).1
    have hkey : ∀ t : NfaThread, t.pc = some k → threadKey p t = some k ∧ t.inst p = some i := fun t ht =>
      ⟨threadKey_eq_some.2 ⟨ht, hk⟩, by rw [NfaThread.inst, ht, Option.bind_some, hi]⟩
    -- one child a thread at `k` expands to, by the operation
    have hchild : ∀ (f : NfaThread → NfaThread) (us : NfaThread → List NfaThread),
        (∀ t : NfaThread, t.inst p = some i → threadNext icu p c q t = some (us t)) → (∀ t, f t ∈ us t) →
        (∀ t, (f t).pc = some k') → ∀ t : NfaThread, t.pc = some k →
          ∃ u, Child (threadKey p) (threadNext icu p c q) t u ∧ u.pc = some k' := by
      intro f us hn hf hpc t ht
      obtain ⟨h1, h2⟩ := hkey t ht
      exact ⟨f t, ⟨⟨k, h1⟩, us t, hn t h2, hf t⟩, hpc t⟩
    unfold stays at hs
    rw [hi] at hs
    cases hop : i.op with
    | rune | any | cls | match_ => simp only [hop, Bool.true_eq_false] at hs
    | split =>
      have hl' : l = [] := by cases y <;> simpa [NfaInst.edge, hop] using he.symm
      subst hl'
      obtain rfl := hl
      refine ⟨rfl, hchild (fun t => t.goto (i.succ y)) (fun t => [t.goto i.x, t.goto i.y])
        (fun t ht => by simp [threadNext, ht, hop]) (fun t => ?_) (fun t => hsu)⟩
      cases y <;> simp [NfaInst.succ]
    | jmp =>
      cases y <;> simp only [NfaInst.edge, hop, Option.some.injEq, reduceCtorEq] at he
      subst he
      obtain rfl := hl
      exact ⟨rfl, hchild (fun t => t.goto i.x) (fun t => [t.goto i.x])
        (fun t ht => by simp [threadNext, ht, hop]) (fun t => by simp) (fun t => hsu)⟩
    | saveStart g =>
      cases y <;> simp only [NfaInst.edge, hop, Option.some.injEq, reduceCtorEq] at he
      subst he
      obtain rfl := runs_singleton.1 hl
      exact ⟨rfl, hchild (fun t => (t.saveStart g q').goto i.x) (fun t => [(t.saveStart g q').goto i.x])
        (fun t ht => by simp [threadNext, ht, hop]) (fun t => by simp) (fun t => hsu)⟩
    | saveEnd g =>
      cases y <;> simp only [NfaInst.edge, hop, Option.some.injEq, reduceCtorEq] at he
      subst he
      obtain rfl := runs_singleton.1 hl
      exact ⟨rfl, hchild (fun t => (t.saveEnd g q').goto i.x) (fun t => [(t.saveEnd g q').goto i.x])
        (fun t ht => by simp [threadNext, ht, hop]) (fun t => by simp) (fun t => hsu)⟩
    | assert a =>
      cases y <;> simp only [NfaInst.edge, hop, Option.some.injEq, reduceCtorEq] at he
      subst he
      obtain ⟨hass, rfl⟩ := runs_singleton.1 hl
      exact ⟨rfl, hchild (fun t => t.goto i.x) (fun t => [t.goto i.x])
        (fun t ht => by simp [threadNext, ht, hop, hass]) (fun t => by simp) (fun t => hsu)⟩

theorem child_cstep {t u : NfaThread} {k k' pos : Nat} (hk : t.pc = some k) (hk' : u.pc = some k')
    (h : Child (threadKey p) (threadNext icu p c pos) t u) : CStep icu p c (k, pos) (k', pos) := by
  obtain ⟨-, us, hn, hu⟩ := h
  unfold threadNext at hn
  cases hi : t.inst p with
  | none => rw [hi] at hn; cases hn; cases hu
  | some i =>
    have hget : p.nfa[k]? = some i := by rwa [NfaThread.inst, hk, Option.bind_some] at hi
    rw [hi] at hn
    have hstep : ∀ (y : Bool) (l : List Label), i.edge y = some l → i.succ y = some k' → runs icu c l pos pos →
        CStep icu p c (k, pos) (k', pos) := fun y l he hs hl =>
      ⟨y, l, by simp [wiring, hget, he], by simp [wiring, hget, hs], hl⟩
    simp only at hn
    split at hn <;> simp only [Option.some.injEq, reduceCtorEq] at hn <;> subst hn
    · rename_i hop
      obtain rfl := List.mem_singleton.1 hu
      exact hstep false [] (by simp [NfaInst.edge, hop]) hk' rfl
    · rename_i hop
      rcases List.mem_cons.1 hu with rfl | hu
      · exact hstep false [] (by simp [NfaInst.edge, hop]) hk' rfl
      · obtain rfl := List.mem_singleton.1 hu
        exact hstep true [] (by simp [NfaInst.edge, hop]) hk' rfl
    · rename_i g hop
      obtain rfl := List.mem_singleton.1 hu
      exact hstep false [.saveStart g] (by simp [NfaInst.edge, hop]) hk' (runs_singleton.2 rfl)
    · rename_i g hop
      obtain rfl := List.mem_singleton.1 hu
      exact hstep false [.saveEnd g] (by simp [NfaInst.edge, hop]) hk' (runs_singleton.2 rfl)
    · rename_i a hop
      split at hu
      · rename_i hass
        obtain rfl := List.mem_singleton.1 hu
        exact hstep false [.assert i.flags a] (by simp [NfaInst.edge, hop]) hk' (runs_singleton.2 ⟨hass, rfl⟩)
      · cases hu

theorem children_creach {t u : NfaThread} {k k' pos : Nat} (hk : t.pc = some k) (hk' : u.pc = some k')
    (h : Relation.ReflTransGen (Child (threadKey p) (threadNext icu p c pos)) t u) :
    CReach icu p c (k, pos) (k', pos) := by
  induction h generalizing k' with
  | refl => rw [hk] at hk'; cases hk'; exact .refl
  | @tail a b _ hab ih =>
    obtain ⟨j, hj⟩ := hab.1
    have hja := (threadKey_eq_some.1 hj).1
    exact (ih hja).tail (child_cstep hja hk' hab)

theorem creach_pos {a b : Nat × Nat} (h : CReach icu p c a b) : RChain c a.2 b.2 := by
  induction h with
  | refl => exact .refl
  | tail _ hab ih =>
    obtain ⟨y, l, -, -, hl⟩ := hab
    exact ih.trans (runs_pos hl)

theorem cstep_stays_lt (hv : c.Valid) {a b : Nat × Nat} (hs : stays p a.1 = true) (h : CStep icu p c a b) : a.2 < b.2 := by
  obtain ⟨i, r, -, hr, -, -, hn⟩ := (@cstep_stays icu p c a.1 a.2 b.1 b.2 hs).1 h
  rw [← hn]
  exact (contextRuneAtValidated_next hv hr).2.2.1

theorem creach_children (hv : c.Valid) {k k' q : Nat} (h : CReach icu p c (k, q) (k', q)) {t : NfaThread}
    (ht : t.pc = some k) :
    ∃ u, Relation.ReflTransGen (Child (threadKey p) (threadNext icu p c q)) t u ∧ u.pc = some k' := by
  have key : ∀ {b : Nat × Nat}, CReach icu p c (k, q) b → b.2 = q →
      ∃ u, Relation.ReflTransGen (Child (threadKey p) (threadNext icu p c q)) t u ∧ u.pc = some b.1 := by
    intro b hb
    induction hb with
    | refl => exact fun _ => ⟨t, .refl, ht⟩
    | @tail a b hqa hab ih =>
      intro hbq
      have hqle := (creach_pos hqa).le hv
      have hab' : RChain c a.2 b.2 := creach_pos (.single hab)
      have haq : a.2 = q := by
        have := hab'.le hv
        simp only at hqle
        omega
      obtain ⟨u, hu, hpc⟩ := ih haq
      cases hs : stays p a.1 with
      | true => have := cstep_stays_lt hv hs hab; omega
      | false =>
        obtain ⟨-, hex⟩ := @cstep_expand icu p c a.1 a.2 b.1 b.2 hs hab
        rw [haq] at hex
        obtain ⟨v, hv', hpc'⟩ := hex u hpc
        exact ⟨v, hu.tail hv', hpc'⟩
  exact key h rfl

/-- **A path that passes a position of its chain takes the rune there.** -/
theorem creach_cross (hv : c.Valid) {a b : Nat × Nat} {q : Nat} {r : Rune} (hr : contextRuneAtValidated c q = some r)
    (h : CReach icu p c a b) (ha : RChain c a.2 q) (hb : q < b.2) :
    ∃ k k', CReach icu p c a (k, q) ∧ stays p k = true ∧ CStep icu p c (k, q) (k', r.next) ∧
      CReach icu p c (k', r.next) b := by
  induction h using Relation.ReflTransGen.head_induction_on with
  | refl => have := ha.le hv; omega
  | @head a a' haa' ha'b ih =>
    cases hs : stays p a.1 with
    | false =>
      obtain ⟨hpos, -⟩ := @cstep_expand icu p c a.1 a.2 a'.1 a'.2 hs haa'
      obtain ⟨k, k', h1, h2, h3, h4⟩ := ih (by rw [hpos]; exact ha)
      exact ⟨k, k', .head haa' h1, h2, h3, h4⟩
    | true =>
      obtain ⟨i, r', -, hr', -, -, hn⟩ :=
        (@cstep_stays icu p c a.1 a.2 a'.1 a'.2 hs).1 haa'
      by_cases haq : a.2 = q
      · obtain ⟨k, q₀⟩ := a
        obtain ⟨k', q₁⟩ := a'
        simp only at haq hr' hn
        subst haq
        rw [hr] at hr'
        cases hr'
        subst hn
        exact ⟨k, k', .refl, hs, haa', ha'b⟩
      · obtain ⟨k, k', h1, h2, h3, h4⟩ := ih (ha.next haq ⟨r', hr', hn⟩)
        exact ⟨k, k', .head haa' h1, h2, h3, h4⟩

/-! ## Paths, words and spans -/

theorem creach_iff_path {k m q e : Nat} :
    CReach icu p c (k, q) (m, e) ↔ ∃ w, WordPath (wiring p.nfa) k w m ∧ runs icu c w q e := by
  constructor
  · intro h
    have key : ∀ {a : Nat × Nat}, CReach icu p c a (m, e) → ∃ w, WordPath (wiring p.nfa) a.1 w m ∧ runs icu c w a.2 e := by
      intro a h
      induction h using Relation.ReflTransGen.head_induction_on with
      | refl => exact ⟨[], .refl, rfl⟩
      | head hab _ ih =>
        obtain ⟨y, l, he, hs, hl⟩ := hab
        obtain ⟨w, hw, hr⟩ := ih
        exact ⟨l ++ w, .step he hs hw, runs_append.2 ⟨_, hl, hr⟩⟩
    exact key h
  · rintro ⟨w, hw, hr⟩
    induction hw generalizing q with
    | refl => obtain rfl := hr; exact .refl
    | step he hs _ ih =>
      obtain ⟨x, hl, hr⟩ := runs_append.1 hr
      exact .head ⟨_, _, he, hs, hl⟩ (ih hr)

end

end Pergrep
