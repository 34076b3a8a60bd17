import Pergrep.Regex.Config
/-!
# SimRun — the simulation finds a span when there is one, and only spans

A thread in the list is a reached configuration, and so is the best match (`simLoop_sound`).  Until a match is found the
list holds a thread at every configuration that a start seeded so far has at the position (`Searching`, kept by
`searching_advance`): a configuration dropped as a duplicate is still in the list, for another start.  So a run that
ends without a match has seen every configuration of every start, and none accepted (`simLoop_complete`).
-/
namespace Pergrep

open Wiring NfaCompiler Worklist

section
variable (icu : Icu) (p : RegexProgram) (c : VerifierContext) (start m : Nat)

/-- What the run knows of its threads and of its best match: their starts satisfy `I`, and they got where they are. -/
structure Sound (I : Nat → Prop) (s : SimState) : Prop where
  at_pos : I s.pos
  threads : ∀ t ∈ s.cur, ∃ k, t.pc = some k ∧ stays p k = true ∧ I t.start ∧ t.start < c.candidateEnd ∧
    CReach icu p c (start, t.start) (k, s.pos)
  best : ∀ t, s.best = some t → I t.start ∧ t.start < c.candidateEnd ∧ CReach icu p c (start, t.start) (m, s.bestEnd)

/-- The program as the simulation uses it: its tables, its start, and its one accepting instruction. -/
structure Loaded : Prop where
  tables : p.Tables
  start_eq : p.nfaStart = some start
  start_lt : start < p.nfa.length
  accept : ∀ n i, p.nfa[n]? = some i → (i.op = .match_ ↔ n = m)
  accept_lt : m < p.nfa.length

variable {icu p c start m}

theorem accepts_iff (h : Loaded p start m) {t : NfaThread} {k : Nat} (hk : t.pc = some k) :
    t.accepts p = true ↔ k = m := by
  unfold NfaThread.accepts NfaThread.inst
  rw [hk, Option.bind_some]
  cases hi : p.nfa[k]? with
  | none =>
    have hle : p.nfa.length ≤ k := List.getElem?_eq_none_iff.1 hi
    have := h.accept_lt
    simp only [Option.any_none, Bool.false_eq_true, false_iff]
    omega
  | some i => rw [Option.any_some, beq_iff_eq, h.accept k i hi]

theorem Loaded.stays (h : Loaded p start m) : stays p m = true := by
  obtain ⟨i, hi⟩ : ∃ i, p.nfa[m]? = some i := ⟨_, List.getElem?_eq_getElem h.accept_lt⟩
  have hop : i.op = .match_ := (h.accept m i hi).2 rfl
  simp only [Pergrep.stays, hi, hop]

/-! ## Soundness -/

theorem seedThread_pc (h : Loaded p start m) (pos : Nat) : (seedThread p pos).pc = some start := h.start_eq

theorem sound_seed {I : Nat → Prop} (hl : Loaded p start m) {s : SimState} (hi : SimInv icu p c s)
    (h : Sound icu p c start m I s) : Sound icu p c start m I (simSeed icu p c s) := by
  obtain ⟨-, hpos, hbest, hend, hsame, hnew⟩ := simSeed_spec hl.tables hi
  refine ⟨by rw [hpos]; exact h.at_pos, fun t ht => ?_, fun t ht => by rw [hend]; exact h.best t (hbest ▸ ht)⟩
  rw [hpos]
  by_cases hlt : s.pos < c.candidateEnd
  · have hmem : t ∈ s.cur ∨ t ∈ threadClosure icu p c s.pos (seedThread p s.pos) := by
      rcases hnew hlt with hcur | hcur
      · rw [hcur] at ht
        exact mem_enlist ht
      · rw [hcur] at ht
        exact List.mem_append.1 ht
    rcases hmem with ht | ht
    · exact h.threads t ht
    · obtain ⟨k, hpc, -, hs, hst, -, hr⟩ := mem_threadClosure ht
      rw [hst]
      exact ⟨k, hpc, hs, h.at_pos, hlt, children_creach (seedThread_pc hl s.pos) hpc hr⟩
  · rw [hsame (Nat.le_of_not_lt hlt)] at ht
    exact h.threads t ht

theorem sound_match {I : Nat → Prop} (hl : Loaded p start m) {s : SimState} (h : Sound icu p c start m I s) :
    Sound icu p c start m I (simMatch p s) := by
  by_cases hacc : ∀ t ∈ s.cur, t.accepts p = false
  · rw [simMatch_none hacc]
    exact h
  · obtain ⟨t, hacc⟩ := not_forall.1 hacc
    obtain ⟨ht, ha⟩ := Classical.not_imp.1 hacc
    obtain ⟨pre, u, post, hcur, hu, -, hres⟩ := simMatch_some ht (by simpa using ha)
    rw [hres]
    refine ⟨h.at_pos, fun v hv => h.threads v (by rw [hcur]; exact List.mem_append_left _ hv), fun v hv => ?_⟩
    cases hv
    obtain ⟨k, hpc, -, hI, hce, hr⟩ := h.threads u (by rw [hcur]; simp)
    obtain rfl := (accepts_iff hl hpc).1 hu
    exact ⟨hI, hce, hr⟩

theorem wakes_eq_some {cp : Nat} {t u : NfaThread} (h : wakes icu p c cp t = some u) :
    ∃ k i, t.pc = some k ∧ p.nfa[k]? = some i ∧ nfaConsume icu c i cp = true ∧ u = t.goto i.x := by
  unfold wakes NfaThread.inst at h
  obtain ⟨i, hi, h⟩ := Option.bind_eq_some_iff.1 h
  obtain ⟨k, hk, hi⟩ := Option.bind_eq_some_iff.1 hi
  split at h
  · cases h
    exact ⟨k, i, hk, hi, ‹_›, rfl⟩
  · cases h

theorem stays_of_consume {i : NfaInst} {cp k : Nat} (hi : p.nfa[k]? = some i) (h : nfaConsume icu c i cp = true) :
    stays p k = true := by
  unfold nfaConsume at h
  simp only [stays, hi]
  split at h <;> simp_all

theorem wakes_cstep {r : Rune} {pos k k' : Nat} (hr : contextRuneAtValidated c pos = some r) {t u : NfaThread}
    (h : wakes icu p c r.cp t = some u) (hk : t.pc = some k) (hk' : u.pc = some k') :
    CStep icu p c (k, pos) (k', r.next) := by
  obtain ⟨j, i, hj, hi, hc, rfl⟩ := wakes_eq_some h
  rw [hk] at hj
  cases hj
  exact (cstep_stays (stays_of_consume hi hc)).2 ⟨i, r, hi, hr, hc, hk', rfl⟩

theorem sound_advance {I : Nat → Prop} (hl : Loaded p start m) {s : SimState} (hb : SimBase p s)
    (hI : ∀ q q', I q → RStep c q q' → I q') {r : Rune} (hr : contextRuneAtValidated c s.pos = some r)
    (h : Sound icu p c start m I s) : Sound icu p c start m I (simAdvance icu p c s r) := by
  obtain ⟨-, hcur, hpos, hbest, hend⟩ := simAdvance_spec icu c hl.tables hb r
  refine ⟨by rw [hpos]; exact hI _ _ h.at_pos ⟨r, hr, rfl⟩, fun t ht => ?_, fun t ht => by
    rw [hend]; exact h.best t (hbest ▸ ht)⟩
  rw [hcur] at ht
  rw [hpos]
  rcases mem_enlistAll ht with ht | ⟨u, hu, ht⟩
  · cases ht
  · obtain ⟨v, hv, hw⟩ := List.mem_filterMap.1 hu
    obtain ⟨k, hk, hs, hIv, hce, hreach⟩ := h.threads v hv
    obtain ⟨k', hk', -, hs', hst, -, hchild⟩ := mem_threadClosure ht
    have hstart : t.start = v.start := hst.trans (wakes_caps hw).2
    -- the thread that woke stands at an instruction, since its closure is not empty
    obtain ⟨j, hj⟩ : ∃ j, u.pc = some j := by
      rcases hchild.cases_head with rfl | ⟨w, huw, -⟩
      · exact ⟨k', hk'⟩
      · obtain ⟨j, hj⟩ := huw.1
        exact ⟨j, (threadKey_eq_some.1 hj).1⟩
    rw [hstart]
    exact ⟨k', hk', hs', hIv, hce,
      (hreach.tail (wakes_cstep hr hw hk hj)).trans (children_creach hj hk' hchild)⟩

theorem sound_jump {I : Nat → Prop} {s : SimState} {pos : Nat} (hI : I pos) (hj : simJump p c s = some pos)
    (h : Sound icu p c start m I s) : Sound icu p c start m I { s with pos := pos } := by
  refine ⟨hI, fun t ht => ?_, h.best⟩
  unfold simJump at hj
  split at hj
  · rename_i hc
    simp only [Bool.and_eq_true, List.isEmpty_iff] at hc
    rw [show s.cur = [] from hc.1.1.1] at ht
    cases ht
  · cases hj
    exact h.threads t ht

variable (icu p c) in
/-- Jumps keep the bookkeeping and a property of positions. -/
def JumpSafe (I : Nat → Prop) : Prop :=
  ∀ s pos, SimInv icu p c s → I s.pos → simJump p c s = some pos → SimInv icu p c { s with pos := pos } ∧ I pos

theorem simJump_nil (hp : p.queryIr.prefixes = []) (s : SimState) : simJump p c s = some s.pos := by
  simp [simJump, hp]

theorem JumpSafe.of_nil (hp : p.queryIr.prefixes = []) (I : Nat → Prop) : JumpSafe icu p c I := by
  intro s pos hi hs hj
  rw [simJump_nil hp] at hj
  cases hj
  exact ⟨hi, hs⟩

theorem sound_scan {I : Nat → Prop} (hl : Loaded p start m) (hjs : JumpSafe icu p c I) {s : SimState} {pos : Nat}
    (hi : SimInv icu p c s) (hj : simJump p c s = some pos) (h : Sound icu p c start m I s) :
    SimBase p (simScan icu p c s pos) ∧ Sound icu p c start m I (simScan icu p c s pos) := by
  obtain ⟨hi', hpos⟩ := hjs s pos hi h.at_pos hj
  exact ⟨simMatch_base (simSeed_spec hl.tables hi').1, sound_match hl (sound_seed hl hi' (sound_jump hpos hj h))⟩

@[simp] theorem simScan_pos (s : SimState) (pos : Nat) : (simScan icu p c s pos).pos = pos := by
  unfold simScan simSeed
  rw [simMatch_pos]
  split <;> rfl

/-- **The run answers with a reached configuration.** -/
theorem simLoop_sound {I : Nat → Prop} (hl : Loaded p start m) (hjs : JumpSafe icu p c I)
    (hI : ∀ q q', I q → RStep c q q' → I q') : ∀ (fuel : Nat) {s : SimState}, SimInv icu p c s →
      Sound icu p c start m I s → ∀ t, (simLoop icu p c fuel s).best = some t →
        I t.start ∧ t.start < c.candidateEnd ∧ CReach icu p c (start, t.start) (m, (simLoop icu p c fuel s).bestEnd)
  | 0, s, _, h => h.best
  | fuel + 1, s, hi, h => by
    rcases simLoop_cases icu p c fuel s with ⟨hs, -⟩ | ⟨pos, hj, -, hrest⟩
    · rw [hs]
      exact h.best
    · obtain ⟨hb, hs⟩ := sound_scan hl hjs hi hj h
      rcases hrest with ⟨hres, -⟩ | ⟨r, hr, -, -, hres⟩
      · rw [hres]
        exact hs.best
      · have ha := sound_advance hl hb hI (r := r) (by rw [simScan_pos]; exact hr) hs
        rcases hres with ⟨hres, -, -⟩ | hres
        · rw [hres]
          exact ha.best
        · rw [hres]
          exact simLoop_sound hl hjs hI fuel (simAdvance_spec icu c hl.tables hb r).1 ha

/-! ## Completeness -/

variable (icu p c start m) in
/-- A run that has not found a match: it has a thread at every configuration, and passed no accepting one. -/
structure Searching (s : SimState) : Prop where
  inv : SimInv icu p c s
  chain : RChain c c.candidateBegin s.pos
  best : s.best = none
  threads : ∀ st k, CandidateStart c st → st < s.pos → stays p k = true → CReach icu p c (start, st) (k, s.pos) →
    ∃ t ∈ s.cur, t.pc = some k
  passed : ∀ st e, CandidateStart c st → CReach icu p c (start, st) (m, e) → s.pos ≤ e

theorem chain_of_le (hv : c.Valid) {q a b : Nat} (ha : RChain c q a) (hb : RChain c q b) (h : a ≤ b) : RChain c a b := by
  rcases ha.total hb with hab | hba
  · exact hab
  · have := hba.le hv
    obtain rfl : a = b := by omega
    exact .refl

theorem rune_of_chain {a b : Nat} (h : RChain c a b) (hlt : a < b) : ∃ r, contextRuneAtValidated c a = some r := by
  rcases h.cases_head with h | ⟨q, ⟨r, hr, -⟩, -⟩
  · omega
  · exact ⟨r, hr⟩

/-- **A match that ends later has a configuration now.** -/
theorem config_at (hv : c.Valid) {st e pos : Nat} (hst : CandidateStart c st)
    (hpos : RChain c c.candidateBegin pos) (hle : st ≤ pos) (hlt : pos < e)
    (h : CReach icu p c (start, st) (m, e)) :
    ∃ k r, contextRuneAtValidated c pos = some r ∧ stays p k = true ∧ CReach icu p c (start, st) (k, pos) := by
  have hsp := chain_of_le hv hst.1 hpos hle
  have hse : RChain c c.candidateBegin e := hst.1.trans (creach_pos h)
  obtain ⟨r, hr⟩ := rune_of_chain (chain_of_le hv hpos hse hlt.le) hlt
  obtain ⟨k, k', h1, h2, -, -⟩ := creach_cross hv hr h hsp hlt
  exact ⟨k, r, hr, h2, h1⟩

theorem searching_seed (hv : c.Valid) (hl : Loaded p start m) {s : SimState} (h : Searching icu p c start m s) :
    ∀ st k, CandidateStart c st → st ≤ s.pos → stays p k = true → CReach icu p c (start, st) (k, s.pos) →
      ∃ t ∈ (simSeed icu p c s).cur, t.pc = some k := by
  intro st k hst hle hs hr
  obtain ⟨-, -, -, -, hsame, hnew⟩ := simSeed_spec hl.tables h.inv
  -- an old thread stays in the list, and the closure of the seed is in it
  have hin : ∀ t : NfaThread, t ∈ s.cur ∨ (s.pos < c.candidateEnd ∧ t ∈ threadClosure icu p c s.pos (seedThread p s.pos)) →
      ∃ u ∈ (simSeed icu p c s).cur, u.pc = t.pc := by
    intro t ht
    by_cases hlt : s.pos < c.candidateEnd
    · have ht' : t ∈ s.cur ∨ t ∈ threadClosure icu p c s.pos (seedThread p s.pos) := ht.imp_right (·.2)
      rcases hnew hlt with hcur | hcur
      · rw [hcur]
        exact exists_mem_enlist ht'
      · rw [hcur]
        exact ⟨t, List.mem_append.2 ht', rfl⟩
    · rw [hsame (Nat.le_of_not_lt hlt)]
      rcases ht with ht | ht
      · exact ⟨t, ht, rfl⟩
      · exact absurd ht.1 hlt
  rcases Nat.lt_or_eq_of_le hle with hlt | rfl
  · obtain ⟨t, ht, hpc⟩ := h.threads st k hst hlt hs hr
    obtain ⟨u, hu, he⟩ := hin t (Or.inl ht)
    exact ⟨u, hu, he.trans hpc⟩
  · obtain ⟨u, hu, hpc⟩ := creach_children hv hr (seedThread_pc hl s.pos)
    obtain ⟨u', hu', hpc'⟩ := threadClosure_complete hu (threadKey_eq_some.2 ⟨hpc, stays_lt hs⟩) hs
    obtain ⟨w, hw, he⟩ := hin u' (Or.inr ⟨hst.2, hu'⟩)
    exact ⟨w, hw, he.trans hpc'⟩

theorem searching_scan (hv : c.Valid) (hl : Loaded p start m) {s : SimState} (h : Searching icu p c start m s)
    (hnone : (simMatch p (simSeed icu p c s)).best = none) :
    simMatch p (simSeed icu p c s) = simSeed icu p c s ∧
      ∀ st e, CandidateStart c st → CReach icu p c (start, st) (m, e) → s.pos < e := by
  have hacc : ∀ t ∈ (simSeed icu p c s).cur, t.accepts p = false := by
    intro t ht
    by_contra ha
    obtain ⟨pre, u, post, -, -, -, hres⟩ := simMatch_some ht (by simpa using ha)
    rw [hres] at hnone
    cases hnone
  refine ⟨simMatch_none hacc, fun st e hst hr => ?_⟩
  refine Nat.lt_of_le_of_ne (h.passed st e hst hr) ?_
  rintro rfl
  obtain ⟨t, ht, hpc⟩ := searching_seed hv hl h st m hst ((creach_pos hr).le hv) hl.stays hr
  have := hacc t ht
  rw [(accepts_iff hl hpc).2 rfl] at this
  cases this

theorem searching_advance (hv : c.Valid) (hl : Loaded p start m) {s : SimState} (h : Searching icu p c start m s)
    (hnone : (simMatch p (simSeed icu p c s)).best = none) {r : Rune} (hr : contextRuneAtValidated c s.pos = some r) :
    Searching icu p c start m (simAdvance icu p c (simMatch p (simSeed icu p c s)) r) := by
  obtain ⟨hsame, hpassed⟩ := searching_scan hv hl h hnone
  rw [hsame]
  obtain ⟨hb, hpos, hbest, -⟩ := simSeed_spec hl.tables h.inv
  obtain ⟨hinv, hcur', hpos', hbest', -⟩ := simAdvance_spec icu c hl.tables hb r
  have hchain : RChain c c.candidateBegin r.next := h.chain.tail ⟨r, hr, rfl⟩
  refine ⟨hinv, by rw [hpos']; exact hchain, by rw [hbest', hbest, h.best], fun st k hst hlt hs hreach => ?_,
    fun st e hst hreach => ?_⟩
  · rw [hpos'] at hlt hreach
    rw [hcur']
    -- the start is at or before the position just passed
    have hle : st ≤ s.pos := by
      by_contra hgt
      have hc := chain_of_le hv h.chain hst.1 (by omega)
      have := (hc.next (by omega) ⟨r, hr, rfl⟩).le hv
      omega
    have hrun := RStep.lt hv ⟨r, hr, rfl⟩
    obtain ⟨k₁, k₂, h1, h2, h3, h4⟩ := creach_cross hv hr hreach (chain_of_le hv hst.1 h.chain hle) hrun
    obtain ⟨t, ht, hpc⟩ := searching_seed hv hl h st k₁ hst hle h2 h1
    obtain ⟨i, r', hi, hr', hcons, hx, -⟩ := (cstep_stays h2).1 h3
    rw [hr] at hr'
    cases hr'
    have hwake : wakes icu p c r.cp t = some (t.goto i.x) := by
      rw [wakes, NfaThread.inst, hpc, Option.bind_some, hi, Option.bind_some, if_pos hcons]
    obtain ⟨u, hu, hupc⟩ := creach_children hv h4 (t := t.goto i.x) hx
    obtain ⟨u', hu', hpc'⟩ := threadClosure_complete hu (threadKey_eq_some.2 ⟨hupc, stays_lt hs⟩) hs
    obtain ⟨w, hw, he⟩ := @exists_mem_enlistAll icu p c r.next _ [] _
      (Or.inr ⟨_, List.mem_filterMap.2 ⟨t, ht, hwake⟩, hu'⟩)
    exact ⟨w, hw, he.trans hpc'⟩
  · rw [hpos']
    have hlt := hpassed st e hst hreach
    exact ((chain_of_le hv h.chain (hst.1.trans (creach_pos hreach)) hlt.le).next (by omega) ⟨r, hr, rfl⟩).le hv

theorem searching_init (hv : c.Valid) : Searching icu p c start m (simInit p c) where
  inv := simInit_inv
  chain := .refl
  best := rfl
  threads := fun st k hst hlt => by
    have := hst.1.le hv
    simp only [simInit] at hlt
    omega
  passed := fun st e hst hr => RChain.le hv (hst.1.trans (creach_pos hr))

theorem simMatch_best {s : SimState} (h : s.best ≠ none) : (simMatch p s).best ≠ none := by
  unfold simMatch
  split
  · exact h
  · rename_i k hk
    obtain ⟨hlt, -⟩ := List.findIdx?_eq_some_iff_getElem.1 hk
    simp [List.getElem?_eq_getElem hlt]

theorem simScan_best {s : SimState} {pos : Nat} (h : s.best ≠ none) : (simScan icu p c s pos).best ≠ none := by
  unfold simScan
  refine simMatch_best ?_
  unfold simSeed
  split <;> exact h

@[simp] theorem simAdvance_pos (s : SimState) (r : Rune) : (simAdvance icu p c s r).pos = r.next := by
  unfold simAdvance
  simp only
  split <;> rfl

theorem simAdvance_best (s : SimState) (r : Rune) : (simAdvance icu p c s r).best = s.best := by
  unfold simAdvance
  simp only
  split <;> rfl

theorem simAdvance_bestEnd (s : SimState) (r : Rune) : (simAdvance icu p c s r).bestEnd = s.bestEnd := by
  unfold simAdvance
  simp only
  split <;> rfl

theorem simLoop_best : ∀ (fuel : Nat) {s : SimState}, s.best ≠ none → (simLoop icu p c fuel s).best ≠ none
  | 0, _, h => h
  | fuel + 1, s, h => by
    rcases simLoop_cases icu p c fuel s with ⟨hs, -⟩ | ⟨pos, -, -, hrest⟩
    · rw [hs]
      exact h
    · have hadv : ∀ r, (simAdvance icu p c (simScan icu p c s pos) r).best ≠ none := by
        intro r
        rw [simAdvance_best]
        exact simScan_best h
      rcases hrest with ⟨hres, -⟩ | ⟨r, -, -, -, ⟨hres, -⟩ | hres⟩
      · rw [hres]
        exact simScan_best h
      · rw [hres]
        exact hadv r
      · rw [hres]
        exact simLoop_best fuel (hadv r)

/-- **A run without a match has ruled out every start.** -/
theorem simLoop_complete (hv : c.Valid) (hl : Loaded p start m) (hp : p.queryIr.prefixes = []) :
    ∀ (fuel : Nat) {s : SimState}, Searching icu p c start m s → c.recordEnd - s.pos < fuel →
      (simLoop icu p c fuel s).best = none →
      ∀ st e, CandidateStart c st → ¬ CReach icu p c (start, st) (m, e)
  | 0, _, _, hfuel, _ => absurd hfuel (Nat.not_lt_zero _)
  | fuel + 1, s, h, hfuel, hnone => by
    intro st e hst hr
    rcases simLoop_cases icu p c fuel s with ⟨-, hstop⟩ | ⟨pos, hj, -, hrest⟩
    · rw [simJump_nil hp] at hstop
      rcases hstop with ⟨hcur, -, hce⟩ | hstop
      · -- nothing is alive, and no start is left
        have hlt : st < s.pos := Nat.lt_of_lt_of_le hst.2 hce
        have hempty : ∀ k, stays p k = true → ¬ CReach icu p c (start, st) (k, s.pos) := by
          intro k hs hk
          obtain ⟨t, ht, -⟩ := h.threads st k hst hlt hs hk
          rw [hcur] at ht
          cases ht
        rcases Nat.lt_or_eq_of_le (h.passed st e hst hr) with hpos | hpos
        · obtain ⟨k, -, -, hs, hk⟩ := config_at hv hst h.chain hlt.le hpos hr
          exact hempty k hs hk
        · rw [← hpos] at hr
          exact hempty m hl.stays hr
      · cases hstop
    · rw [simJump_nil hp] at hj
      obtain rfl : s.pos = pos := by simpa using hj
      rw [show simScan icu p c s s.pos = simMatch p (simSeed icu p c s) from rfl] at hrest
      have hscan : (simMatch p (simSeed icu p c s)).best = none := by
        by_contra hb
        rcases hrest with ⟨hres, -⟩ | ⟨r, -, -, -, ⟨hres, -⟩ | hres⟩
        · rw [hres] at hnone
          exact hb hnone
        · rw [hres, simAdvance_best] at hnone
          exact hb hnone
        · rw [hres] at hnone
          refine simLoop_best fuel ?_ hnone
          rw [simAdvance_best]
          exact hb
      obtain ⟨-, hpassed⟩ := searching_scan hv hl h hscan
      have hlater := hpassed st e hst hr
      have hrune : ∃ r, contextRuneAtValidated c s.pos = some r :=
        rune_of_chain (chain_of_le hv h.chain (hst.1.trans (creach_pos hr)) hlater.le) hlater
      rcases hrest with ⟨-, hend⟩ | ⟨r, hr', hlt, -, hres⟩
      · obtain ⟨r, hr'⟩ := hrune
        rcases hend with ⟨hb, -⟩ | hend | hend
        · exact hb hscan
        · have := (contextRuneAtValidated_next hv hr').2.1
          omega
        · rw [hr'] at hend
          cases hend
      · have ha := searching_advance hv hl h hscan hr'
        rcases hres with ⟨-, hb, -⟩ | hres
        · exact hb ha.best
        · rw [hres] at hnone
          have hpos : (simAdvance icu p c (simMatch p (simSeed icu p c s)) r).pos = r.next :=
            (simAdvance_spec icu c hl.tables (simMatch_base (simSeed_spec hl.tables h.inv).1) r).2.2.1
          have hmove := RStep.lt hv ⟨r, hr', rfl⟩
          exact simLoop_complete hv hl hp fuel ha (by rw [hpos]; omega) hnone st e hst hr

end

end Pergrep
