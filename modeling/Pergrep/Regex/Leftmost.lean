import Pergrep.Regex.SimPass
/-!
# Leftmost — which start the simulation answers with

The loop goes on while its list has threads, whether they can still match or not, and seeds every position it comes to, with
a match stored or not: so a start thread seeded next to a spent list takes over from the match stored.  `PassKeeps` says that no
pass does that, and that no pass leaves a start with a span behind.  `Leads` is what a run then keeps: one start, at or
before every candidate start with a span, whose match is stored or ahead; `Trails` is what it keeps after a pass that does
either.  Together: the answer is leftmost exactly when the passes keep (`simLoop_leftmost_iff`).
-/
namespace Pergrep

open Wiring NfaCompiler Worklist

section
variable (icu : Icu) (p : RegexProgram) (c : VerifierContext)

/-- What a pass from `s` does not do: leave a candidate start behind that has a span, by the jump or, with no match stored
and a list that is spent when the pass ends, by the step; or seed a start that has one next to a spent list, with a match
stored. -/
structure PassKeeps (s : SimState) : Prop where
  jump : ∀ pos, simJump p c s = some pos → ∀ st e, CandidateStart c st → s.pos ≤ st → st < pos → ¬ spans icu c p.ast st e
  step : ∀ pos r, simJump p c s = some pos → contextRuneAtValidated c pos = some r → (simScan icu p c s pos).best = none →
    Spent icu p c (simScan icu p c s pos) → ∀ st e, CandidateStart c st → pos ≤ st → st < r.next → ¬ spans icu c p.ast st e
  seed : s.best ≠ none → Spent icu p c s → s.pos < c.candidateEnd → ∀ e, ¬ spans icu c p.ast s.pos e

variable {icu p c} {start m : Nat}

/-! ## A start that takes over -/

variable (icu p c) in
/-- Whatever can still match started at `lo` or later, and so did the match stored, unless something can. -/
structure Trails (lo : Nat) (s : SimState) : Prop where
  threads : ∀ t ∈ s.cur, Hopeful icu p c s.pos t → lo ≤ t.start
  best : ∀ b, s.best = some b → lo ≤ b.start ∨ ∃ t ∈ s.cur, Hopeful icu p c s.pos t

theorem Trails.seed (ht : p.Tables) {lo : Nat} {s : SimState} (hb : SimBase p s) (hpos : lo ≤ s.pos)
    (h : Trails icu p c lo s) : Trails icu p c lo (simSeed icu p c s) := by
  obtain ⟨-, h2, h3, new, h4, h5⟩ := @simSeed_appends icu p c ht s hb
  refine ⟨fun t htm hh => ?_, fun b hbest => ?_⟩
  · rw [h2] at hh
    rw [h4] at htm
    rcases List.mem_append.1 htm with hin | hin
    · exact h.threads t hin hh
    · rw [(h5 t hin).1]
      exact hpos
  · rw [h3] at hbest
    rw [h2, h4]
    rcases h.best b hbest with hle | ⟨t, htm, hh⟩
    · exact Or.inl hle
    · exact Or.inr ⟨t, List.mem_append_left _ htm, hh⟩

theorem Trails.match_ {lo : Nat} {s : SimState} (h : Trails icu p c lo s) : Trails icu p c lo (simMatch p s) := by
  by_cases hacc : ∀ t ∈ s.cur, t.accepts p = false
  · rw [simMatch_none hacc]
    exact h
  · obtain ⟨t, hacc⟩ := not_forall.1 hacc
    obtain ⟨ht, ha⟩ := Classical.not_imp.1 hacc
    obtain ⟨pre, u, post, hcur, hu, -, hres⟩ := simMatch_some ht (by simpa using ha)
    rw [hres]
    refine ⟨fun v hv => h.threads v (by rw [hcur]; exact List.mem_append_left _ hv), fun b hb => Or.inl ?_⟩
    cases hb
    exact h.threads u (by rw [hcur]; simp) (hopeful_of_accepts hu)

theorem Trails.advance (hv : c.Valid) (hl : Loaded p start m) {lo bound : Nat} {s : SimState} {r : Rune}
    (hq : Queued p bound s) (hrej : ∀ t ∈ s.cur, t.accepts p = false) (hr : contextRuneAtValidated c s.pos = some r)
    (h : Trails icu p c lo s) : Trails icu p c lo (simAdvance icu p c s r) := by
  obtain ⟨-, h2, h3, h4, -⟩ := simAdvance_spec icu c hl.tables hq.base r
  refine ⟨fun u hu hh => ?_, fun b hb => ?_⟩
  · rw [h3] at hh
    rw [h2] at hu
    obtain ⟨t, ht, hst, hh⟩ := nextThreads_back hr hu hh
    rw [← hst]
    exact h.threads t ht hh
  · rw [h4] at hb
    rw [h2, h3]
    rcases h.best b hb with hle | ⟨t, ht, hh⟩
    · exact Or.inl hle
    · obtain ⟨u, hu, -, hh⟩ := nextThreads_forth hv hl hq.sorted hr ht hh (hq.stays t ht) (hrej t ht)
      exact Or.inr ⟨u, hu, hh⟩

theorem Trails.jump {lo pos : Nat} {s : SimState} (hj : simJump p c s = some pos) (h : Trails icu p c lo s) :
    Trails icu p c lo { s with pos := pos } := by
  rcases simJump_cases hj with rfl | ⟨hnil, hnone⟩
  · exact h
  · refine ⟨fun t ht => ?_, fun b hb => ?_⟩
    · rw [show s.cur = [] from hnil] at ht
      cases ht
    · rw [show s.best = none from hnone] at hb
      cases hb

theorem Trails.scan (ht : p.Tables) {lo pos : Nat} {s : SimState} (hq : Queued p s.pos s) (hpos : lo ≤ s.pos)
    (hj : simJump p c s = some pos) (h : Trails icu p c lo s) : Trails icu p c lo (simScan icu p c s pos) := by
  have hge := simJump_ge hj
  exact Trails.match_ (Trails.seed ht (hq.jump hj).base (hpos.trans hge) (h.jump hj))

theorem Trails.step (hv : c.Valid) (hl : Loaded p start m) {lo : Nat} {s s' : SimState} (hstep : SimStep icu p c s s')
    (hq : Queued p s.pos s) (hlo : ∀ pos, simJump p c s = some pos → lo ≤ pos ∧ Trails icu p c lo (simScan icu p c s pos)) :
    lo ≤ s'.pos ∧ Trails icu p c lo s' := by
  cases hstep with
  | @pass pos r _ hj _ hrune _ _ =>
    obtain ⟨hle, hlate⟩ := hlo pos hj
    have hnext := (contextRuneAtValidated_next hv hrune).2.2.1
    refine ⟨by rw [simAdvance_pos]; omega, ?_⟩
    exact hlate.advance hv hl (simScan_queued hl.tables hq hj) (simMatch_rejects _) (by rw [simScan_pos]; exact hrune)

theorem Trails.run (hv : c.Valid) (hl : Loaded p start m) {lo : Nat} {s s' : SimState}
    (hrun : Relation.ReflTransGen (SimStep icu p c) s s') (hq : Queued p s.pos s)
    (h : ∀ pos, simJump p c s = some pos → lo ≤ pos ∧ Trails icu p c lo (simScan icu p c s pos)) :
    ∀ pos, simJump p c s' = some pos → lo ≤ pos ∧ Trails icu p c lo (simScan icu p c s' pos) := by
  have key : Queued p s'.pos s' ∧
      ∀ pos, simJump p c s' = some pos → lo ≤ pos ∧ Trails icu p c lo (simScan icu p c s' pos) := by
    induction hrun with
    | refl => exact ⟨hq, h⟩
    | tail _ hstep ih =>
      obtain ⟨h1, h2⟩ := Trails.step hv hl hstep ih.1 ih.2
      have hq' := (hstep.queued hv hl.tables ih.1).2
      exact ⟨hq', fun pos hj => ⟨h1.trans (simJump_ge hj), h2.scan hl.tables hq' h1 hj⟩⟩
  exact key.2

/-! ## A start that stays first -/

variable (icu p c) in
/-- The match of the start `v` is stored or ahead: what can still match started at `v` or later, and some of it at `v`. -/
structure Leads (v : Nat) (s : SimState) : Prop where
  threads : ∀ t ∈ s.cur, Hopeful icu p c s.pos t → v ≤ t.start
  best : ∀ b, s.best = some b → v ≤ b.start
  ahead : (∃ b, s.best = some b ∧ b.start = v) ∨ ∃ t ∈ s.cur, t.start = v ∧ Hopeful icu p c s.pos t
  first : (∃ t ∈ s.cur, Hopeful icu p c s.pos t) → ∃ t ∈ s.cur, t.start = v ∧ Hopeful icu p c s.pos t

theorem Leads.seed (hl : Loaded p start m) {v : Nat} {s : SimState} (hb : SimBase p s) (hpos : v ≤ s.pos)
    (hseed : Spent icu p c s → s.pos < c.candidateEnd → ¬ CanMatch icu p c start s.pos) (h : Leads icu p c v s) :
    Leads icu p c v (simSeed icu p c s) := by
  obtain ⟨-, h2, h3, new, h4, h5⟩ := @simSeed_appends icu p c hl.tables s hb
  have hold : (∃ t ∈ s.cur, t.start = v ∧ Hopeful icu p c s.pos t) →
      ∃ t ∈ s.cur ++ new, t.start = v ∧ Hopeful icu p c s.pos t :=
    fun ⟨t, ht, hh⟩ => ⟨t, List.mem_append_left _ ht, hh⟩
  refine ⟨fun t ht hh => ?_, fun b hbest => h.best b (h3 ▸ hbest), ?_, ?_⟩
  · rw [h2] at hh
    rw [h4] at ht
    rcases List.mem_append.1 ht with hin | hin
    · exact h.threads t hin hh
    · rw [(h5 t hin).1]
      exact hpos
  · rw [h2, h3, h4]
    exact h.ahead.imp_right hold
  · rw [h2, h4]
    rintro ⟨t, ht, hh⟩
    refine hold (h.first ?_)
    rcases List.mem_append.1 ht with hin | hin
    · exact ⟨t, hin, hh⟩
    · -- a start thread that can match does not come to a spent list
      by_contra hspent
      obtain ⟨-, hlt, k, hk, -, hr⟩ := h5 t hin
      obtain ⟨k', hk', hcan⟩ := hh
      rw [hk] at hk'
      cases hk'
      exact hseed (fun t ht hh => hspent ⟨t, ht, hh⟩) hlt (hcan.of_reach (hr start hl.start_eq))

theorem Leads.match_ {v : Nat} {s : SimState} (hsorted : s.cur.Pairwise (fun a b => a.start ≤ b.start))
    (h : Leads icu p c v s) : Leads icu p c v (simMatch p s) := by
  by_cases hacc : ∀ t ∈ s.cur, t.accepts p = false
  · rw [simMatch_none hacc]
    exact h
  · obtain ⟨t, hacc⟩ := not_forall.1 hacc
    obtain ⟨ht, ha⟩ := Classical.not_imp.1 hacc
    obtain ⟨pre, u, post, hcur, hu, -, hres⟩ := simMatch_some ht (by simpa using ha)
    have hin : u ∈ s.cur := by
      rw [hcur]
      simp
    have huh : Hopeful icu p c s.pos u := hopeful_of_accepts hu
    have hle := h.threads u hin huh
    obtain ⟨w, hw, hwv, hwh⟩ := h.first ⟨u, hin, huh⟩
    have hpre : ∀ t ∈ pre, t ∈ s.cur := fun t ht => by
      rw [hcur]
      exact List.mem_append_left _ ht
    rw [hres]
    rw [hcur] at hw hsorted
    obtain ⟨-, hpost, hbefore⟩ := List.pairwise_append.1 hsorted
    rcases List.mem_append.1 hw with hw | hw
    · -- the thread of `v` stands before the match
      refine ⟨fun t ht => h.threads t (hpre t ht), fun b hb => ?_, Or.inr ⟨w, hw, hwv, hwh⟩, fun _ => ⟨w, hw, hwv, hwh⟩⟩
      cases hb
      exact hle
    · have huw : u.start ≤ v := by
        rw [← hwv]
        rcases List.mem_cons.1 hw with rfl | hw
        · exact Nat.le_refl _
        · exact (List.pairwise_cons.1 hpost).1 w hw
      refine ⟨fun t ht => h.threads t (hpre t ht), fun b hb => ?_, Or.inl ⟨u, rfl, Nat.le_antisymm huw hle⟩, ?_⟩
      · cases hb
        exact hle
      · rintro ⟨t, ht, hh⟩
        have := hbefore t ht u List.mem_cons_self
        have := h.threads t (hpre t ht) hh
        exact ⟨t, ht, by omega, hh⟩

theorem Leads.advance (hv : c.Valid) (hl : Loaded p start m) {v bound : Nat} {s : SimState} {r : Rune}
    (hq : Queued p bound s) (hrej : ∀ t ∈ s.cur, t.accepts p = false) (hr : contextRuneAtValidated c s.pos = some r)
    (h : Leads icu p c v s) : Leads icu p c v (simAdvance icu p c s r) := by
  obtain ⟨-, h2, h3, h4, -⟩ := simAdvance_spec icu c hl.tables hq.base r
  have hback : ∀ u ∈ nextThreads icu p c s.cur r, Hopeful icu p c r.next u → v ≤ u.start := by
    intro u hu hh
    obtain ⟨t, ht, hst, hh⟩ := nextThreads_back hr hu hh
    rw [← hst]
    exact h.threads t ht hh
  have hforth : (∃ t ∈ s.cur, t.start = v ∧ Hopeful icu p c s.pos t) →
      ∃ u ∈ nextThreads icu p c s.cur r, u.start = v ∧ Hopeful icu p c r.next u := by
    rintro ⟨t, ht, hst, hh⟩
    obtain ⟨u, hu, hle, hh⟩ := nextThreads_forth hv hl hq.sorted hr ht hh (hq.stays t ht) (hrej t ht)
    exact ⟨u, hu, Nat.le_antisymm (hst ▸ hle) (hback u hu hh), hh⟩
  refine ⟨?_, fun b hb => h.best b (h4 ▸ hb), ?_, ?_⟩
  · rw [h2, h3]
    exact hback
  · rw [h2, h3, h4]
    exact h.ahead.imp_right hforth
  · rw [h2, h3]
    rintro ⟨u, hu, hh⟩
    obtain ⟨t, ht, -, hh⟩ := nextThreads_back hr hu hh
    exact hforth (h.first ⟨t, ht, hh⟩)

theorem Leads.scan (hl : Loaded p start m) (hspan : ∀ s e, CReach icu p c (start, s) (m, e) ↔ spans icu c p.ast s e)
    {v pos : Nat} {s : SimState} (hq : Queued p s.pos s) (hpos : v ≤ s.pos) (hkeep : PassKeeps icu p c s)
    (hj : simJump p c s = some pos) (h : Leads icu p c v s) : pos = s.pos ∧ Leads icu p c v (simScan icu p c s pos) := by
  have hstay : simJump p c s = some s.pos := by
    refine simJump_stays ?_
    rcases h.ahead with ⟨b, hb, -⟩ | ⟨t, ht, -⟩
    · exact Or.inr (by rw [hb]; exact Option.some_ne_none b)
    · exact Or.inl (List.ne_nil_of_mem ht)
  rw [hstay] at hj
  obtain rfl : s.pos = pos := Option.some.inj hj
  refine ⟨rfl, Leads.match_ (@simSeed_queued icu p c hl.tables s hq).sorted (Leads.seed hl hq.base hpos ?_ h)⟩
  intro hspent hlt hcan
  obtain ⟨e, he⟩ := (canMatch_iff hl).1 hcan
  refine hkeep.seed ?_ hspent hlt e ((hspan _ _).1 he)
  -- next to a spent list the match of `v` is stored
  rcases h.ahead with ⟨b, hb, -⟩ | ⟨t, ht, -, hh⟩
  · rw [hb]
    exact Option.some_ne_none b
  · exact absurd hh (hspent t ht)

theorem Leads.run (hv : c.Valid) (hl : Loaded p start m)
    (hspan : ∀ s e, CReach icu p c (start, s) (m, e) ↔ spans icu c p.ast s e) {v : Nat} {s s' : SimState}
    (hrun : Relation.ReflTransGen (SimStep icu p c) s s') (hq : Queued p s.pos s)
    (hkeep : ∀ x, Relation.ReflTransGen (SimStep icu p c) s x → PassKeeps icu p c x) (hpos : v ≤ s.pos)
    (h : Leads icu p c v s) : Queued p s'.pos s' ∧ v ≤ s'.pos ∧ Leads icu p c v s' := by
  induction hrun with
  | refl => exact ⟨hq, hpos, h⟩
  | @tail x y hx hstep ih =>
    obtain ⟨h1, h2, h3⟩ := ih
    have hmove := hstep.lt hv
    refine ⟨(hstep.queued hv hl.tables h1).2, by omega, ?_⟩
    cases hstep with
    | @pass pos r _ hj _ hrune _ _ =>
      obtain ⟨-, hscan⟩ := h3.scan hl hspan h1 h2 (hkeep x hx) hj
      exact hscan.advance hv hl (simScan_queued hl.tables h1 hj) (simMatch_rejects _) (by rw [simScan_pos]; exact hrune)

variable (icu p c) in
/-- Nothing found, and nothing left behind. -/
structure NoneYet (s : SimState) : Prop where
  best : s.best = none
  spent : Spent icu p c s
  ahead : ∀ st e, CandidateStart c st → spans icu c p.ast st e → s.pos ≤ st

theorem NoneYet.scan (hl : Loaded p start m) {pos : Nat} {s : SimState} (hq : Queued p s.pos s) (hkeep : PassKeeps icu p c s)
    (hj : simJump p c s = some pos) (h : NoneYet icu p c s) :
    (∀ st e, CandidateStart c st → spans icu c p.ast st e → pos ≤ st) ∧
      (NoneYet icu p c (simScan icu p c s pos) ∨ Leads icu p c pos (simScan icu p c s pos)) := by
  have hahead : ∀ st e, CandidateStart c st → spans icu c p.ast st e → pos ≤ st := by
    intro st e hst hse
    by_contra hlt
    exact hkeep.jump pos hj st e hst (h.ahead st e hst hse) (by omega) hse
  refine ⟨hahead, ?_⟩
  have hq' := hq.jump hj
  obtain ⟨-, h2, h3, new, h4, h5⟩ := @simSeed_appends icu p c hl.tables { s with pos := pos } hq'.base
  have hsorted := (@simSeed_queued icu p c hl.tables { s with pos := pos } hq').sorted
  -- what stood in the list before the seed is spent at the new position too
  have hold : ∀ t ∈ s.cur, ¬ Hopeful icu p c pos t := by
    intro t ht
    rcases simJump_cases hj with rfl | ⟨hnil, -⟩
    · exact h.spent t ht
    · rw [hnil] at ht
      cases ht
  by_cases hhope : ∃ t ∈ (simSeed icu p c { s with pos := pos }).cur, Hopeful icu p c pos t
  · refine Or.inr (Leads.match_ hsorted ?_)
    have hnew : ∀ t ∈ (simSeed icu p c { s with pos := pos }).cur, Hopeful icu p c pos t → t.start = pos := by
      intro t ht hh
      rw [h4] at ht
      rcases List.mem_append.1 ht with hin | hin
      · exact absurd hh (hold t hin)
      · exact (h5 t hin).1
    obtain ⟨t, ht, hh⟩ := hhope
    have hlead : ∃ t ∈ (simSeed icu p c { s with pos := pos }).cur, t.start = pos ∧
        Hopeful icu p c (simSeed icu p c { s with pos := pos }).pos t := by
      rw [h2]
      exact ⟨t, ht, hnew t ht hh, hh⟩
    refine ⟨fun t ht hh => ?_, fun b hb => ?_, Or.inr hlead, fun _ => hlead⟩
    · rw [h2] at hh
      exact (hnew t ht hh).ge
    · rw [h3, show ({ s with pos := pos } : SimState).best = none from h.best] at hb
      cases hb
  · have hnone : ∀ t ∈ (simSeed icu p c { s with pos := pos }).cur, t.accepts p = false := by
      intro t ht
      by_contra ha
      exact hhope ⟨t, ht, hopeful_of_accepts (by simpa using ha)⟩
    refine Or.inl ⟨?_, fun t ht hh => ?_, fun st e hst hse => ?_⟩
    · rw [simScan, simMatch_none hnone, h3]
      exact h.best
    · rw [simScan_pos] at hh
      rw [simScan, simMatch_none hnone] at ht
      exact hhope ⟨t, ht, hh⟩
    · rw [simScan_pos]
      exact hahead st e hst hse

/-- **What a run that keeps its starts goes through**: nothing found, or one start that leads. -/
theorem simRun_phase (hv : c.Valid) (hl : Loaded p start m)
    (hspan : ∀ s e, CReach icu p c (start, s) (m, e) ↔ spans icu c p.ast s e)
    (hkeep : ∀ s, SimRun icu p c s → PassKeeps icu p c s) {s : SimState} (h : SimRun icu p c s) :
    NoneYet icu p c s ∨ ∃ v, v ≤ s.pos ∧ (∀ st e, CandidateStart c st → spans icu c p.ast st e → v ≤ st) ∧
      Leads icu p c v s := by
  induction h with
  | refl =>
    refine Or.inl ⟨rfl, fun t ht => (by cases ht), fun st e hst _ => hst.1.le hv⟩
  | @tail x y hx hstep ih =>
    have hq := (SimRun.queued hv hl.tables hx).2
    have hmove := hstep.lt hv
    rcases ih with hbefore | ⟨v, hvx, hfirst, hlead⟩
    · cases hstep with
      | @pass pos r _ hj _ hrune _ _ =>
        have hrune' : contextRuneAtValidated c (simScan icu p c x pos).pos = some r := by
          rw [simScan_pos]
          exact hrune
        have hscan := @simScan_queued icu p c hl.tables x pos hq hj
        obtain ⟨hahead, hb | hlead⟩ := hbefore.scan hl hq (hkeep x hx) hj
        · obtain ⟨-, h2, h3, h4, -⟩ := simAdvance_spec icu c hl.tables hscan.base r
          refine Or.inl ⟨h4.trans hb.best, fun u hu hh => ?_, fun st e hst hse => ?_⟩
          · rw [h3] at hh
            rw [h2] at hu
            obtain ⟨t, ht, -, hh⟩ := nextThreads_back hrune' hu hh
            exact hb.spent t ht hh
          · rw [h3]
            by_contra hlt
            exact (hkeep x hx).step pos r hj hrune hb.best hb.spent st e hst (hahead st e hst hse) (by omega) hse
        · refine Or.inr ⟨pos, ?_, hahead, hlead.advance hv hl hscan (simMatch_rejects _) hrune'⟩
          rw [simAdvance_pos]
          exact (contextRuneAtValidated_next hv hrune).2.2.1.le
    · obtain ⟨-, h2, h3⟩ := hlead.run hv hl hspan (.single hstep) hq
        (fun z hz => hkeep z (Relation.ReflTransGen.trans hx hz)) hvx
      exact Or.inr ⟨v, h2, hfirst, h3⟩

/-! ## The answer -/

theorem SimRun.ge (hv : c.Valid) {s : SimState} (h : SimRun icu p c s) : c.candidateBegin ≤ s.pos := by
  induction h with
  | refl => exact Nat.le_refl _
  | tail _ hstep ih => exact ih.trans (hstep.lt hv).le

theorem SimRun.last (hv : c.Valid) (hl : Loaded p start m) {s : SimState} (h : SimRun icu p c s) {b : NfaThread}
    (hb : (simLoop icu p c (simFuel c) (simInit p c)).best = some b) :
    ∃ s' pos, Relation.ReflTransGen (SimStep icu p c) s s' ∧ simJump p c s' = some pos ∧
      (simScan icu p c s' pos).best = some b ∧ Spent icu p c (simScan icu p c s' pos) := by
  have hge := h.ge hv
  have hinit : (simInit p c).pos = c.candidateBegin := rfl
  rw [simLoop_run hv h (simFuel c) (by rw [simFuel]; omega)] at hb
  exact simLoop_last hv hl (simFuel c) (h.queued hv hl.tables).2 (by rw [simFuel]; omega) b hb

theorem SimRun.late (hv : c.Valid) (hl : Loaded p start m) {s : SimState} (h : SimRun icu p c s) {b : NfaThread}
    (hb : (simLoop icu p c (simFuel c) (simInit p c)).best = some b) (lo : Nat)
    (hlate : ∀ pos, simJump p c s = some pos → lo ≤ pos ∧ Trails icu p c lo (simScan icu p c s pos)) : lo ≤ b.start := by
  obtain ⟨s', pos, hrun, hj, hbest, hspent⟩ := h.last hv hl hb
  obtain ⟨-, hend⟩ := Trails.run hv hl hrun (h.queued hv hl.tables).2 hlate pos hj
  rcases hend.best b hbest with hle | ⟨t, ht, hh⟩
  · exact hle
  · exact absurd hh (hspent t ht)

/-- **The loop answers with a leftmost start, and with no later one than it had stored, exactly when its passes keep.** -/
theorem simLoop_leftmost_iff (hv : c.Valid) (hl : Loaded p start m)
    (hspan : ∀ s e, CReach icu p c (start, s) (m, e) ↔ spans icu c p.ast s e) {b : NfaThread}
    (hb : (simLoop icu p c (simFuel c) (simInit p c)).best = some b) :
    ((∀ st e, CandidateStart c st → st < b.start → ¬ spans icu c p.ast st e) ∧
        ∀ s b', SimRun icu p c s → s.best = some b' → b.start ≤ b'.start) ↔
      ∀ s, SimRun icu p c s → PassKeeps icu p c s := by
  constructor
  · rintro ⟨hleft, hstored⟩ s hs
    obtain ⟨hinv, hq⟩ := hs.queued hv hl.tables
    refine ⟨fun pos hj st e hst hge hlt hse => ?_, fun pos r hj hrune hnone hspent st e hst hge hlt hse => ?_,
      fun hne hspent hlt e hse => ?_⟩
    · -- everything after the jump starts behind `st`
      have hidle : s.cur = [] ∧ s.best = none := (simJump_cases hj).resolve_left (by omega)
      have hlate : Trails icu p c pos { s with pos := pos } := by
        refine ⟨fun t ht => ?_, fun b hb => ?_⟩
        · rw [show s.cur = [] from hidle.1] at ht
          cases ht
        · rw [show s.best = none from hidle.2] at hb
          cases hb
      have hle := hs.late hv hl hb pos (fun q hq' => by
        rw [hj] at hq'
        cases hq'
        exact ⟨Nat.le_refl _, Trails.match_ (Trails.seed hl.tables (hq.jump hj).base (Nat.le_refl _) hlate)⟩)
      exact hleft st e hst (by omega) hse
    · -- the pass stores nothing, so the run goes on, from a spent list
      obtain ⟨s', pos', hrun, hj', hbest, -⟩ := hs.last hv hl hb
      rcases hrun.cases_head with rfl | ⟨x, hstep, hrest⟩
      · rw [hj] at hj'
        cases hj'
        rw [hnone] at hbest
        cases hbest
      · have hx : SimRun icu p c x := Relation.ReflTransGen.tail hs hstep
        have hq' := (hstep.queued hv hl.tables hq).2
        have hlate : r.next ≤ x.pos ∧ Trails icu p c r.next x := by
          cases hstep with
          | @pass q r' _ hjq _ hrune' _ _ =>
            rw [hj] at hjq
            cases hjq
            rw [hrune] at hrune'
            cases hrune'
            obtain ⟨-, h2, h3, h4, -⟩ := simAdvance_spec icu c hl.tables (simScan_queued hl.tables hq hj).base r
            refine ⟨h3.ge, fun u hu hh => ?_, fun b hb => ?_⟩
            · rw [h3] at hh
              rw [h2] at hu
              have hrune' : contextRuneAtValidated c (simScan icu p c s pos).pos = some r := by
                rw [simScan_pos]
                exact hrune
              obtain ⟨t, ht, -, hh⟩ := nextThreads_back hrune' hu hh
              exact absurd hh (hspent t ht)
            · rw [h4, hnone] at hb
              cases hb
        have hle := hx.late hv hl hb r.next (fun q hj =>
          ⟨hlate.1.trans (simJump_ge hj), hlate.2.scan hl.tables hq' hlate.1 hj⟩)
        exact hleft st e hst (by omega) hse
    · -- the start thread takes over from the match stored
      obtain ⟨b', hb'⟩ := Option.ne_none_iff_exists'.1 hne
      have hstay : simJump p c s = some s.pos := simJump_stays (Or.inr hne)
      have hcan : CanMatch icu p c start s.pos := (canMatch_iff hl).2 ⟨e, (hspan _ _).2 hse⟩
      obtain ⟨-, h2, -, new, h4, h5⟩ := @simSeed_appends icu p c hl.tables s hq.base
      have hlate : Trails icu p c s.pos (simSeed icu p c s) := by
        refine ⟨fun t ht hh => ?_, fun b hb => Or.inr ?_⟩
        · rw [h2] at hh
          rw [h4] at ht
          rcases List.mem_append.1 ht with hin | hin
          · exact absurd hh (hspent t hin)
          · exact (h5 t hin).1.ge
        · rw [h2]
          exact simSeed_hopeful hv hl hinv hlt hcan
      have hle := hs.late hv hl hb s.pos (fun q hj => by
        rw [hstay] at hj
        cases hj
        exact ⟨Nat.le_refl _, hlate.match_⟩)
      have := hstored s b' hs hb'
      have := hq.best b' hb'
      omega
  · intro hkeep
    have hfinal : ∀ {s v}, SimRun icu p c s → v ≤ s.pos → Leads icu p c v s → b.start = v := by
      intro s v hs hvs hlead
      obtain ⟨s', pos, hrun, hj, hbest, hspent⟩ := hs.last hv hl hb
      obtain ⟨hq', hvs', hlead'⟩ := hlead.run hv hl hspan hrun (hs.queued hv hl.tables).2
        (fun x hx => hkeep x (Relation.ReflTransGen.trans hs hx)) hvs
      obtain ⟨-, hscan⟩ := hlead'.scan hl hspan hq' hvs' (hkeep s' (Relation.ReflTransGen.trans hs hrun)) hj
      rcases hscan.ahead with ⟨b', hb', hst⟩ | ⟨t, ht, -, hh⟩
      · rw [hbest] at hb'
        cases hb'
        exact hst
      · exact absurd hh (hspent t ht)
    constructor
    · obtain ⟨s', pos, hrun, hj, hbest, hspent⟩ := (show SimRun icu p c (simInit p c) from .refl).last hv hl hb
      have hq' := (SimRun.queued hv hl.tables hrun).2
      have hfirst : ∀ st e, CandidateStart c st → spans icu c p.ast st e → b.start ≤ st := by
        rcases simRun_phase hv hl hspan hkeep hrun with hbefore | ⟨v, hvs, hfirst, hlead⟩
        · obtain ⟨hahead, hscan | hscan⟩ := hbefore.scan hl hq' (hkeep s' hrun) hj
          · rw [hscan.best] at hbest
            cases hbest
          · rcases hscan.ahead with ⟨b', hb', hst⟩ | ⟨t, ht, -, hh⟩
            · rw [hbest] at hb'
              cases hb'
              rw [hst]
              exact hahead
            · exact absurd hh (hspent t ht)
        · rw [hfinal hrun hvs hlead]
          exact hfirst
      intro st e hst hlt hse
      have := hfirst st e hst hse
      omega
    · intro s b' hs hb'
      rcases simRun_phase hv hl hspan hkeep hs with hbefore | ⟨v, hvs, -, hlead⟩
      · rw [hbefore.best] at hb'
        cases hb'
      · rw [hfinal hs hvs hlead]
        exact hlead.best b' hb'

/-- **The leftmost rule of the simulation.**  What `nfa_search` answers starts at or before every candidate start with a
span, and no later than a match the loop had stored, exactly when it scans for a literal or the passes of its loop keep. -/
theorem nfaSearch_leftmost_iff (hf : icu.FoldsAscii) {pattern : Bytes} {opt : PatternOptions}
    (hp : parseRegex icu pattern opt = .ok p) (hx : p.extended = false) (hv : c.validate = true) {fileId : Nat} {r : Match}
    (h : nfaSearch icu p c fileId = some r) :
    ((∀ st e, CandidateStart c st → st < r.start → ¬ spans icu c p.ast st e) ∧
        (usesLiteralScan p = false → ∀ s b, SimRun icu p c s → s.best = some b → r.start ≤ b.start)) ↔
      (usesLiteralScan p = true ∨ ∀ s, SimRun icu p c s → PassKeeps icu p c s) := by
  have hval := (VerifierContext.validate_iff c).1 hv
  have hreg := parseRegex_regular hp hx
  obtain ⟨start, m, hl, hspan⟩ := hreg.loaded
  have hlive : ¬ ((!c.validate || p.nfaStart.isNone) = true) := by
    rw [hv, hl.start_eq]
    simp
  unfold nfaSearch at h
  rw [if_neg hlive] at h
  by_cases hlit : usesLiteralScan p = true
  · rw [if_pos hlit] at h
    refine iff_of_true ⟨fun st e hst hlt hse => ?_, fun hno => ?_⟩ (Or.inl hlit)
    · obtain ⟨⟨s, e'⟩, hscan, rfl⟩ := Option.map_eq_some_iff.1 h
      obtain ⟨f, l, hast, hi, -, -⟩ := usesLiteralScan_iff hlit
      obtain ⟨-, -, -, hnone⟩ := literalScan_some hval (Nat.min_le_right _ _) _ hval.candidate_ge hscan
      have hno := hnone st hst.1 hlt
      rw [hreg.icaseLiteral f l hast hi] at hno
      rw [hast, spans, ← contextLiteralAtValidated_iff hf hi, hno] at hse
      cases hse
    · rw [hlit] at hno
      cases hno
  · rw [if_neg hlit] at h
    obtain ⟨b, hb, rfl⟩ := Option.map_eq_some_iff.1 h
    have hiff := simLoop_leftmost_iff hval hl (hspan c) hb
    rw [or_iff_right hlit, ← hiff]
    exact and_congr_right (fun _ => ⟨fun h => h (by simpa using hlit), fun h _ => h⟩)

end

/-- `abcd|a` -/
def takeoverPattern : Bytes := [0x61, 0x62, 0x63, 0x64, 0x7C, 0x61]

/-- The tree is an alternation of two whose second branch is the byte `a`. -/
def RegexNode.secondIsA : RegexNode → Bool
  | .alt _ [_, .literal f l] => !f.icase && l == [0x61]
  | _ => false

theorem RegexNode.secondIsA_iff {nd : RegexNode} (h : nd.secondIsA = true) :
    ∃ g n f, nd = .alt g [n, .literal f [0x61]] ∧ f.icase = false := by
  unfold RegexNode.secondIsA at h
  split at h
  · rename_i g n f l
    simp only [Bool.and_eq_true, Bool.not_eq_true', beq_iff_eq] at h
    obtain ⟨hf, rfl⟩ := h
    exact ⟨g, n, f, rfl, hf⟩
  · cases h

/-- `abcd|a` on `abca`: the answer is the last byte, though the first is a span. -/
theorem takeover_found : ∃ p r, parseRegex asciiIcu takeoverPattern {} = .ok p ∧ p.extended = false ∧ usesLiteralScan p = false ∧
    nfaSearch asciiIcu p (textContext [0x61, 0x62, 0x63, 0x61]) 0 = some r ∧ r.start = 3 ∧
      spans asciiIcu (textContext [0x61, 0x62, 0x63, 0x61]) p.ast 0 1 := by
  obtain ⟨p, hp, ht⟩ := parsesTo_iff.1 (show parsesTo asciiIcu takeoverPattern {} (fun p => !p.extended && !usesLiteralScan p &&
    p.ast.secondIsA && (nfaSearch asciiIcu p (textContext [0x61, 0x62, 0x63, 0x61]) 0).any (fun r => r.start == 3)) =
      true by decide +kernel)
  simp only [Bool.and_eq_true, Bool.not_eq_true', Option.any_eq_true, beq_iff_eq] at ht
  obtain ⟨⟨⟨hext, hscan⟩, hast⟩, r, hr, hstart⟩ := ht
  refine ⟨p, r, hp, hext, hscan, hr, hstart, ?_⟩
  obtain ⟨g, n, f, heq, hf⟩ := RegexNode.secondIsA_iff hast
  rw [heq]
  refine Or.inr (Or.inl ⟨⟨0x61, 1⟩, by decide, ?_, rfl⟩)
  rw [hf]
  decide

/-- A pass of that search does not keep. -/
theorem nfaSearch_leftmost_iff_abca : ∃ p r, parseRegex asciiIcu takeoverPattern {} = .ok p ∧
    nfaSearch asciiIcu p (textContext [0x61, 0x62, 0x63, 0x61]) 0 = some r ∧ r.start = 3 ∧
      ∃ s, SimRun asciiIcu p (textContext [0x61, 0x62, 0x63, 0x61]) s ∧
        ¬ PassKeeps asciiIcu p (textContext [0x61, 0x62, 0x63, 0x61]) s := by
  obtain ⟨p, r, hp, hext, hscan, hr, hstart, hspan⟩ := takeover_found
  have hiff := nfaSearch_leftmost_iff asciiIcu_foldsAscii hp hext (by decide) hr
  refine ⟨p, r, hp, hr, hstart, ?_⟩
  by_contra hkeeps
  push Not at hkeeps
  exact (hiff.2 (Or.inr hkeeps)).1 0 1 ⟨.refl, by decide⟩ (by omega) hspan

theorem not_nfaSearch_leftmost : ¬ ∀ (icu : Icu) (pattern : Bytes) (opt : PatternOptions) (p : RegexProgram)
    (c : VerifierContext) (fileId : Nat) (r : Match), parseRegex icu pattern opt = .ok p → p.extended = false →
      c.validate = true → nfaSearch icu p c fileId = some r →
        ∀ st e, CandidateStart c st → st < r.start → ¬ spans icu c p.ast st e := by
  intro h
  obtain ⟨p, r, hp, hext, -, hr, hstart, hspan⟩ := takeover_found
  exact h asciiIcu takeoverPattern {} p _ 0 r hp hext (by decide) hr 0 1 ⟨.refl, by decide⟩ (by omega) hspan

end Pergrep
