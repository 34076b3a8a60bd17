import Pergrep.Regex.NfaSearch
import Pergrep.Regex.Ordered
import Pergrep.Regex.Reach
/-!
# SimPass — passes of the loop, and the threads that can still match

`SimStep` is a pass that goes on and `SimRun` the states a run comes to at the top of the loop, wherever it jumps: the marks
a jump leaves behind only keep threads out (`addNfaThread_appends`), so the list stays in the order of the starts
(`Queued`).  A thread can still match when the program has a way from its instruction to the match on the text ahead; one
that can goes on, or one that starts no later does (`nextThreads_forth`), and a run that answers ends in a pass that stores
the answer and leaves no such thread (`simLoop_last`).
-/
namespace Pergrep

open Wiring NfaCompiler Worklist

section
variable (icu : Icu) (p : RegexProgram) (c : VerifierContext)

/-! ## Runs -/

/-- One pass of the loop that goes on, from its top to its top. -/
inductive SimStep : SimState → SimState → Prop
  | pass {s : SimState} {pos : Nat} {r : Rune} (hlive : ¬ (s.cur = [] ∧ s.best = none ∧ c.candidateEnd ≤ s.pos))
      (hjump : simJump p c s = some pos)
      (hopen : ¬ ((simScan icu p c s pos).best ≠ none ∧ (simScan icu p c s pos).cur = []))
      (hrune : contextRuneAtValidated c pos = some r) (hlt : pos < c.recordEnd)
      (hgo : ¬ ((simAdvance icu p c (simScan icu p c s pos) r).best ≠ none ∧
        (simAdvance icu p c (simScan icu p c s pos) r).cur = [])) :
      SimStep s (simAdvance icu p c (simScan icu p c s pos) r)

/-- The states at the top of the loop, in the run of a search. -/
def SimRun (s : SimState) : Prop := Relation.ReflTransGen (SimStep icu p c) (simInit p c) s

/-- The program has a way to its match from an instruction, on the text from a position on. -/
def CanMatch (k pos : Nat) : Prop := ∃ m i e, p.nfa[m]? = some i ∧ i.op = .match_ ∧ CReach icu p c (k, pos) (m, e)

def Hopeful (pos : Nat) (t : NfaThread) : Prop := ∃ k, t.pc = some k ∧ CanMatch icu p c k pos

def Spent (s : SimState) : Prop := ∀ t ∈ s.cur, ¬ Hopeful icu p c s.pos t

variable {icu p c}

/-! ## A call under any marks -/

/-- **What `add_nfa_thread` appends, whatever is marked**: threads of the same start that stay, reached from where the
added one stands. -/
theorem addNfaThread_appends (ht : p.Tables) {pos : Nat} (generation : Nat) {seed : NfaThread}
    (hcaps : p.groups = 0 → seed.caps = []) (list : List NfaThread) {seen : List Nat} (hlength : seen.length = p.nfa.length) :
    ∃ new, (addNfaThread icu p c pos seed generation list seen).1 = list ++ new ∧
      (∀ u ∈ new, u.start = seed.start ∧ (seed.caps = [] → u.caps = []) ∧
        ∃ k, u.pc = some k ∧ stays p k = true ∧ ∀ j, seed.pc = some j → CReach icu p c (j, pos) (k, pos)) ∧
      (addNfaThread icu p c pos seed generation list seen).2.length = p.nfa.length ∧
      ∀ k, (addNfaThread icu p c pos seed generation list seen).2.getD k 0 = seen.getD k 0 ∨
        (addNfaThread icu p c pos seed generation list seen).2.getD k 0 = generation := by
  cases hkey : pcKey p.nfa seed.pc with
  | none =>
    unfold addNfaThread
    rw [hkey]
    exact ⟨[], (List.append_nil list).symm, fun u hu => (by cases hu), hlength, fun k => Or.inl rfl⟩
  | some pc =>
    obtain ⟨hpc, hlt⟩ := pcKey_eq_some.1 hkey
    by_cases htab : p.tabled = true
    · obtain ⟨hrow, hgroups, hops⟩ := tables_row ht htab hlt
      have hseed := hcaps hgroups
      obtain ⟨hnd, hstays⟩ := closureRow_spec icu c hops pc
      obtain ⟨h1, h2, h3⟩ := foldl_addEntry seed generation (closureRow p.nfa pc) list seen hnd
        (fun k hk => by rw [hlength]; exact stays_lt (hstays k hk))
      have hcond : (p.closureOffsets.length == p.nfa.length + 1 && seed.caps.isEmpty) = true := by
        rw [show (p.closureOffsets.length == p.nfa.length + 1) = true from htab, hseed]
        rfl
      unfold addNfaThread
      rw [hkey]
      dsimp only
      rw [if_pos hcond, hrow]
      refine ⟨_, h1, fun u hu => ?_, by rw [h2, hlength], fun k => ?_⟩
      · obtain ⟨k, hk, rfl⟩ := List.mem_map.1 hu
        have hk := List.mem_of_mem_filter hk
        refine ⟨rfl, fun _ => rfl, k, rfl, hstays k hk, fun j hj => ?_⟩
        -- the entry is a thread of the closure
        have hin : ({ pc := some k, start := seed.start } : NfaThread) ∈ threadClosure icu p c pos seed := by
          rw [threadClosure_row icu c hops pos hseed hpc]
          exact List.mem_map.2 ⟨k, hk, rfl⟩
        obtain ⟨-, -, -, -, -, -, hchild⟩ := mem_threadClosure hin
        exact children_creach hj rfl hchild
      · rw [h3]
        split
        · exact Or.inr rfl
        · exact Or.inl rfl
    · have hcond : ¬ (p.closureOffsets.length == p.nfa.length + 1 && seed.caps.isEmpty) = true := by
        rw [show (p.closureOffsets.length == p.nfa.length + 1) = false from (by simpa using htab : p.tabled = false)]
        simp
      obtain ⟨out, h1, h2, h3, h4⟩ := @addOnline_explores icu p c pos generation seen hlength seed hcond pc hkey list
      refine ⟨out, h1, fun u hu => ?_, h2, h3⟩
      obtain ⟨hnext, ⟨k, hk, -, -⟩, t, hmem, hchild⟩ := h4.sound u hu
      obtain rfl := List.mem_singleton.1 hmem
      have hupc := (threadKey_eq_some.1 hk).1
      exact ⟨(child_start hchild).1, (child_start hchild).2, k, hupc, (threadNext_none_iff hk).1 hnext,
        fun j hj => children_creach hj hupc hchild⟩

/-! ## Threads in the order of their starts -/

variable (p) in
/-- The list is in the order of the starts, all before a bound, and its threads stay. -/
structure Queued (bound : Nat) (s : SimState) : Prop where
  base : SimBase p s
  sorted : s.cur.Pairwise (fun a b => a.start ≤ b.start)
  below : ∀ t ∈ s.cur, t.start < bound
  best : ∀ b, s.best = some b → b.start < bound
  stays : ∀ t ∈ s.cur, ∃ k, t.pc = some k ∧ stays p k = true

theorem simSeed_appends (ht : p.Tables) {s : SimState} (hb : SimBase p s) :
    SimBase p (simSeed icu p c s) ∧ (simSeed icu p c s).pos = s.pos ∧ (simSeed icu p c s).best = s.best ∧
      ∃ new, (simSeed icu p c s).cur = s.cur ++ new ∧ ∀ u ∈ new, u.start = s.pos ∧ s.pos < c.candidateEnd ∧
        ∃ k, u.pc = some k ∧ stays p k = true ∧ ∀ j, p.nfaStart = some j → CReach icu p c (j, s.pos) (k, s.pos) := by
  unfold simSeed
  split
  · rename_i hlt
    have hcaps : p.groups = 0 → (seedThread p s.pos).caps = [] := fun hg => seedThread_caps hg s.pos
    obtain ⟨new, h1, h2, h3, h4⟩ := @addNfaThread_appends icu p c ht s.pos s.currentGeneration _ hcaps s.cur s.seen hb.length
    refine ⟨⟨h3, hb.pos_gen, hb.next_gen, hb.gen_lt, fun k => ?_, fun hg t htm => ?_⟩, rfl, rfl, new, h1, fun u hu => ?_⟩
    · rcases h4 k with h | h
      · simp only [h]
        exact hb.below k
      · simp only [h]
        exact Nat.le_refl _
    · simp only [h1] at htm
      rcases List.mem_append.1 htm with hin | hin
      · exact hb.caps hg t hin
      · exact (h2 t hin).2.1 (hcaps hg)
    · obtain ⟨hst, -, k, hk, hs, hr⟩ := h2 u hu
      exact ⟨hst, hlt, k, hk, hs, hr⟩
  · exact ⟨hb, rfl, rfl, [], (List.append_nil _).symm, fun u hu => (by cases hu)⟩

theorem simSeed_queued (ht : p.Tables) {s : SimState} (h : Queued p s.pos s) :
    Queued p (s.pos + 1) (simSeed icu p c s) := by
  obtain ⟨h1, -, h3, new, h4, h5⟩ := @simSeed_appends icu p c ht s h.base
  have hnew : ∀ u ∈ new, u.start = s.pos := fun u hu => (h5 u hu).1
  refine ⟨h1, ?_, fun t htm => ?_, fun b hb => ?_, fun t htm => ?_⟩
  · rw [h4]
    refine List.pairwise_append.2 ⟨h.sorted, ?_, fun a ha b hb => ?_⟩
    · exact List.pairwise_of_forall_mem_list (fun a ha b hb => by rw [hnew a ha, hnew b hb])
    · rw [hnew b hb]
      exact (h.below a ha).le
  · rw [h4] at htm
    rcases List.mem_append.1 htm with hin | hin
    · exact Nat.lt_succ_of_lt (h.below t hin)
    · rw [hnew t hin]
      exact Nat.lt_succ_self _
  · rw [h3] at hb
    exact Nat.lt_succ_of_lt (h.best b hb)
  · rw [h4] at htm
    rcases List.mem_append.1 htm with hin | hin
    · exact h.stays t hin
    · obtain ⟨-, -, k, hk, hs, -⟩ := h5 t hin
      exact ⟨k, hk, hs⟩

theorem simMatch_queued {bound : Nat} {s : SimState} (h : Queued p bound s) : Queued p bound (simMatch p s) := by
  have hb := simMatch_base h.base
  unfold simMatch at hb ⊢
  split
  · exact h
  · rename_i k hk
    rw [hk] at hb
    exact ⟨hb, h.sorted.sublist (List.take_sublist _ _), fun t ht => h.below t (List.mem_of_mem_take ht),
      fun b hb' => h.below b (List.mem_of_getElem? hb'), fun t ht => h.stays t (List.mem_of_mem_take ht)⟩

theorem enlistAll_sorted {pos : Nat} : ∀ {ts list : List NfaThread}, list.Pairwise (fun a b => a.start ≤ b.start) →
    (∀ x ∈ list, ∀ t ∈ ts, x.start ≤ t.start) → ts.Pairwise (fun a b => a.start ≤ b.start) →
      (enlistAll icu p c pos list ts).Pairwise (fun a b => a.start ≤ b.start)
  | [], _, h, _, _ => h
  | t :: ts, list, hlist, hle, hts => by
    obtain ⟨hhead, htail⟩ := List.pairwise_cons.1 hts
    have hstart : ∀ u ∈ threadClosure icu p c pos t, u.start = t.start := fun u hu => by
      obtain ⟨-, -, -, -, hst, -⟩ := mem_threadClosure hu
      exact hst
    refine @enlistAll_sorted pos ts (enlist list (threadClosure icu p c pos t)) ?_ (fun x hx t' ht' => ?_) htail
    · refine List.pairwise_append.2 ⟨hlist, ?_, fun a ha b hb => ?_⟩
      · exact List.pairwise_of_forall_mem_list (fun a ha b hb => by
          rw [hstart a (List.mem_of_mem_filter ha), hstart b (List.mem_of_mem_filter hb)])
      · rw [hstart b (List.mem_of_mem_filter hb)]
        exact hle a ha t List.mem_cons_self
    · rcases mem_enlist hx with hx | hx
      · exact hle x hx t' (List.mem_cons_of_mem t ht')
      · rw [hstart x hx]
        exact hhead t' ht'

theorem enlistAll_le {pos : Nat} : ∀ {ts list : List NfaThread} {u : NfaThread}, (∀ x ∈ list, ∀ t ∈ ts, x.start ≤ t.start) →
    ts.Pairwise (fun a b => a.start ≤ b.start) → (u ∈ list ∨ ∃ t ∈ ts, u ∈ threadClosure icu p c pos t) →
      ∃ w ∈ enlistAll icu p c pos list ts, w.pc = u.pc ∧ w.start ≤ u.start
  | [], _, u, _, _, h => by
    rcases h with h | ⟨t, ht, -⟩
    · exact ⟨u, h, rfl, Nat.le_refl _⟩
    · cases ht
  | t :: ts, list, u, hle, hts, h => by
    obtain ⟨hhead, htail⟩ := List.pairwise_cons.1 hts
    have hstart : ∀ v ∈ threadClosure icu p c pos t, v.start = t.start := fun v hv => by
      obtain ⟨-, -, -, -, hst, -⟩ := mem_threadClosure hv
      exact hst
    have hle' : ∀ x ∈ enlist list (threadClosure icu p c pos t), ∀ t' ∈ ts, x.start ≤ t'.start := by
      intro x hx t' ht'
      rcases mem_enlist hx with hx | hx
      · exact hle x hx t' (List.mem_cons_of_mem t ht')
      · rw [hstart x hx]
        exact hhead t' ht'
    have ih := fun v => @enlistAll_le pos ts (enlist list (threadClosure icu p c pos t)) v hle' htail
    rcases h with h | ⟨t', ht', hu⟩
    · exact ih u (Or.inl (List.mem_append_left _ h))
    · rcases List.mem_cons.1 ht' with rfl | ht'
      · -- kept, or there already for a thread before it
        by_cases hin : u.pc ∈ list.map NfaThread.pc
        · obtain ⟨v, hv, he⟩ := List.mem_map.1 hin
          obtain ⟨w, hw, hpc, hst⟩ := ih v (Or.inl (List.mem_append_left _ hv))
          exact ⟨w, hw, hpc.trans he, hst.trans (by rw [hstart u hu]; exact hle v hv t' List.mem_cons_self)⟩
        · exact ih u (Or.inl (List.mem_append_right _ (List.mem_filter.2 ⟨hu, by simpa using hin⟩)))
      · exact ih u (Or.inr ⟨t', ht', hu⟩)

theorem wakes_sorted {cur : List NfaThread} (h : cur.Pairwise (fun a b => a.start ≤ b.start)) (cp : Nat) :
    (cur.filterMap (wakes icu p c cp)).Pairwise (fun a b => a.start ≤ b.start) := by
  refine h.filterMap _ (fun a a' hle b hb b' hb' => ?_)
  rw [(wakes_caps hb).2, (wakes_caps hb').2]
  exact hle

theorem simAdvance_queued (ht : p.Tables) {bound : Nat} {s : SimState} (h : Queued p bound s) {r : Rune}
    (hle : bound ≤ r.next) : SimInv icu p c (simAdvance icu p c s r) ∧ Queued p r.next (simAdvance icu p c s r) := by
  obtain ⟨h1, h2, h3, h4, -⟩ := simAdvance_spec icu c ht h.base r
  have hfrom : ∀ u ∈ nextThreads icu p c s.cur r, u.start < bound ∧ ∃ k, u.pc = some k ∧ stays p k = true := by
    intro u hu
    rcases mem_enlistAll hu with hu | ⟨w, hw, hu⟩
    · cases hu
    · obtain ⟨t, htm, hwake⟩ := List.mem_filterMap.1 hw
      obtain ⟨k, hk, -, hs, hst, -⟩ := mem_threadClosure hu
      rw [hst, (wakes_caps hwake).2]
      exact ⟨h.below t htm, k, hk, hs⟩
  refine ⟨h1, h1.toSimBase, ?_, fun t htm => ?_, fun b hb => ?_, fun t htm => ?_⟩
  · rw [h2]
    exact enlistAll_sorted List.Pairwise.nil (fun x hx => (by cases hx)) (wakes_sorted h.sorted r.cp)
  · rw [h2] at htm
    exact Nat.lt_of_lt_of_le (hfrom t htm).1 hle
  · rw [h4] at hb
    exact Nat.lt_of_lt_of_le (h.best b hb) hle
  · rw [h2] at htm
    exact (hfrom t htm).2

/-! ## Threads that can still match -/

variable {start m : Nat}

theorem canMatch_iff (hl : Loaded p start m) {k pos : Nat} :
    CanMatch icu p c k pos ↔ ∃ e, CReach icu p c (k, pos) (m, e) := by
  constructor
  · rintro ⟨n, i, e, hi, hop, h⟩
    obtain rfl := (hl.accept n i hi).1 hop
    exact ⟨e, h⟩
  · rintro ⟨e, h⟩
    obtain ⟨i, hi⟩ : ∃ i, p.nfa[m]? = some i := ⟨_, List.getElem?_eq_getElem hl.accept_lt⟩
    exact ⟨m, i, e, hi, (hl.accept m i hi).2 rfl, h⟩

theorem CanMatch.of_reach {k j pos q : Nat} (hj : CanMatch icu p c j q) (h : CReach icu p c (k, pos) (j, q)) :
    CanMatch icu p c k pos := by
  obtain ⟨n, i, e, hi, hop, hr⟩ := hj
  exact ⟨n, i, e, hi, hop, h.trans hr⟩

/-- A way to the match goes over an instruction that stays here: it accepts, or takes the rune. -/
theorem canMatch_stays (hv : c.Valid) (hl : Loaded p start m) {k pos : Nat} (h : CanMatch icu p c k pos) :
    ∃ j, CReach icu p c (k, pos) (j, pos) ∧ stays p j = true ∧ CanMatch icu p c j pos := by
  obtain ⟨e, he⟩ := (canMatch_iff hl).1 h
  have hchain : RChain c pos e := creach_pos he
  rcases Nat.lt_or_eq_of_le (hchain.le hv) with hlt | rfl
  · obtain ⟨r, hr⟩ := rune_of_chain hchain hlt
    obtain ⟨j, j', h1, h2, h3, h4⟩ := creach_cross hv hr he .refl hlt
    exact ⟨j, h1, h2, (canMatch_iff hl).2 ⟨e, .head h3 h4⟩⟩
  · exact ⟨m, he, hl.stays, (canMatch_iff hl).2 ⟨pos, .refl⟩⟩

theorem Hopeful.closure (hv : c.Valid) (hl : Loaded p start m) {pos : Nat} {t : NfaThread} (h : Hopeful icu p c pos t) :
    ∃ u ∈ threadClosure icu p c pos t, Hopeful icu p c pos u := by
  obtain ⟨k, hk, hcan⟩ := h
  obtain ⟨j, hr, hs, hj⟩ := canMatch_stays hv hl hcan
  obtain ⟨u, hu, hpc⟩ := creach_children hv hr hk
  obtain ⟨w, hw, hpc'⟩ := threadClosure_complete hu (threadKey_eq_some.2 ⟨hpc, stays_lt hs⟩) hs
  exact ⟨w, hw, j, hpc', hj⟩

theorem Hopeful.of_closure {pos : Nat} {t u : NfaThread} (hu : u ∈ threadClosure icu p c pos t)
    (h : Hopeful icu p c pos u) : Hopeful icu p c pos t := by
  obtain ⟨k, hk, hcan⟩ := h
  obtain ⟨-, -, -, -, -, -, hchild⟩ := mem_threadClosure hu
  obtain ⟨j, hj⟩ : ∃ j, t.pc = some j := by
    rcases hchild.cases_head with rfl | ⟨w, htw, -⟩
    · exact ⟨k, hk⟩
    · obtain ⟨j, hj⟩ := htw.1
      exact ⟨j, (threadKey_eq_some.1 hj).1⟩
  exact ⟨j, hj, hcan.of_reach (children_creach hj hk hchild)⟩

theorem hopeful_of_accepts {pos : Nat} {t : NfaThread} (h : t.accepts p = true) : Hopeful icu p c pos t := by
  unfold NfaThread.accepts NfaThread.inst at h
  obtain ⟨i, hi, hop⟩ := (Option.any_eq_true _ _).1 h
  obtain ⟨k, hk, hi⟩ := Option.bind_eq_some_iff.1 hi
  exact ⟨k, hk, k, i, pos, hi, by simpa using hop, .refl⟩

theorem Hopeful.steps (hl : Loaded p start m) {pos : Nat} {t : NfaThread} (h : Hopeful icu p c pos t)
    (hs : ∃ k, t.pc = some k ∧ stays p k = true) (ha : t.accepts p = false) :
    ∃ r u, contextRuneAtValidated c pos = some r ∧ wakes icu p c r.cp t = some u ∧ Hopeful icu p c r.next u := by
  obtain ⟨k, hk, hcan⟩ := h
  obtain ⟨k', hk', hs⟩ := hs
  rw [hk] at hk'
  cases hk'
  obtain ⟨e, he⟩ := (canMatch_iff hl).1 hcan
  rcases he.cases_head with heq | ⟨⟨j, q⟩, hstep, hrest⟩
  · cases heq
    rw [(accepts_iff hl hk).2 rfl] at ha
    cases ha
  · obtain ⟨i, r, hi, hr, hcons, hx, hq⟩ := (cstep_stays hs).1 hstep
    subst hq
    refine ⟨r, t.goto i.x, hr, ?_, j, hx, (canMatch_iff hl).2 ⟨e, hrest⟩⟩
    rw [wakes, NfaThread.inst, hk, Option.bind_some, hi, Option.bind_some, if_pos hcons]

/-- **The start of a span is seeded with a thread that can match**, unless there is one. -/
theorem simSeed_hopeful (hv : c.Valid) (hl : Loaded p start m) {s : SimState} (hi : SimInv icu p c s)
    (hlt : s.pos < c.candidateEnd) (h : CanMatch icu p c start s.pos) :
    ∃ t ∈ (simSeed icu p c s).cur, Hopeful icu p c s.pos t := by
  obtain ⟨u, hu, k, hk, hcan⟩ := Hopeful.closure hv hl (t := seedThread p s.pos) ⟨start, seedThread_pc hl s.pos, h⟩
  obtain ⟨-, -, -, -, -, hnew⟩ := simSeed_spec hl.tables hi
  have hin : ∃ w ∈ (simSeed icu p c s).cur, w.pc = u.pc := by
    rcases hnew hlt with hcur | hcur
    · rw [hcur]
      exact exists_mem_enlist (Or.inr hu)
    · rw [hcur]
      exact ⟨u, List.mem_append_right _ hu, rfl⟩
  obtain ⟨w, hw, hpc⟩ := hin
  exact ⟨w, hw, k, hpc.trans hk, hcan⟩

theorem nextThreads_back {cur : List NfaThread} {pos : Nat} {r : Rune} (hr : contextRuneAtValidated c pos = some r)
    {u : NfaThread} (hu : u ∈ nextThreads icu p c cur r) (h : Hopeful icu p c r.next u) :
    ∃ t ∈ cur, t.start = u.start ∧ Hopeful icu p c pos t := by
  rcases mem_enlistAll hu with hu | ⟨w, hw, hu⟩
  · cases hu
  · obtain ⟨t, ht, hwake⟩ := List.mem_filterMap.1 hw
    obtain ⟨-, -, -, -, hst, -⟩ := mem_threadClosure hu
    obtain ⟨j, hj, hcan⟩ := h.of_closure hu
    obtain ⟨k, i, hk, -, -, -⟩ := wakes_eq_some hwake
    exact ⟨t, ht, (hst.trans (wakes_caps hwake).2).symm, k, hk, hcan.of_reach (.single (wakes_cstep hr hwake hk hj))⟩

theorem nextThreads_forth (hv : c.Valid) (hl : Loaded p start m) {cur : List NfaThread}
    (hsorted : cur.Pairwise (fun a b => a.start ≤ b.start)) {pos : Nat} {r : Rune}
    (hr : contextRuneAtValidated c pos = some r) {t : NfaThread} (ht : t ∈ cur) (h : Hopeful icu p c pos t)
    (hs : ∃ k, t.pc = some k ∧ stays p k = true) (ha : t.accepts p = false) :
    ∃ u ∈ nextThreads icu p c cur r, u.start ≤ t.start ∧ Hopeful icu p c r.next u := by
  obtain ⟨r', w, hr', hwake, hw⟩ := h.steps hl hs ha
  rw [hr] at hr'
  cases hr'
  obtain ⟨v, hv', k, hk, hcan⟩ := hw.closure hv hl
  obtain ⟨-, -, -, -, hst, -⟩ := mem_threadClosure hv'
  obtain ⟨u, hu, hpc, hle⟩ := @enlistAll_le icu p c r.next (cur.filterMap (wakes icu p c r.cp)) [] v
    (fun x hx => (by cases hx)) (wakes_sorted hsorted r.cp) (Or.inr ⟨w, List.mem_filterMap.2 ⟨t, ht, hwake⟩, hv'⟩)
  exact ⟨u, hu, hle.trans (by rw [hst, (wakes_caps hwake).2]), k, hpc.trans hk, hcan⟩

/-! ## The end of a run -/

theorem simJump_cases {s : SimState} {pos : Nat} (h : simJump p c s = some pos) :
    pos = s.pos ∨ (s.cur = [] ∧ s.best = none) := by
  unfold simJump at h
  split at h
  · rename_i hidle
    simp only [Bool.and_eq_true, List.isEmpty_iff, Option.isNone_iff_eq_none] at hidle
    exact Or.inr ⟨hidle.1.1.1, hidle.1.1.2⟩
  · cases h
    exact Or.inl rfl

theorem simJump_stays {s : SimState} (h : s.cur ≠ [] ∨ s.best ≠ none) : simJump p c s = some s.pos := by
  unfold simJump
  rw [if_neg]
  simp only [Bool.and_eq_true, List.isEmpty_iff, Option.isNone_iff_eq_none]
  rintro ⟨⟨⟨h1, h2⟩, -⟩, -⟩
  rcases h with h | h
  · exact h h1
  · exact h h2

theorem Queued.jump {s : SimState} {pos : Nat} (h : Queued p s.pos s) (hj : simJump p c s = some pos) :
    Queued p pos { s with pos := pos } := by
  have hle := simJump_ge hj
  exact ⟨⟨h.base.length, h.base.pos_gen, h.base.next_gen, h.base.gen_lt, h.base.below, h.base.caps⟩, h.sorted,
    fun t ht => Nat.lt_of_lt_of_le (h.below t ht) hle, fun b hb => Nat.lt_of_lt_of_le (h.best b hb) hle, h.stays⟩

theorem simScan_queued (ht : p.Tables) {s : SimState} {pos : Nat} (h : Queued p s.pos s) (hj : simJump p c s = some pos) :
    Queued p (pos + 1) (simScan icu p c s pos) :=
  simMatch_queued (@simSeed_queued icu p c ht { s with pos := pos } (h.jump hj))

theorem simMatch_rejects (s : SimState) : ∀ t ∈ (simMatch p s).cur, t.accepts p = false := by
  by_cases hacc : ∀ t ∈ s.cur, t.accepts p = false
  · rw [simMatch_none hacc]
    exact hacc
  · obtain ⟨t, hacc⟩ := not_forall.1 hacc
    obtain ⟨ht, ha⟩ := Classical.not_imp.1 hacc
    obtain ⟨pre, u, post, -, -, hpre, hres⟩ := simMatch_some ht (by simpa using ha)
    rw [hres]
    exact hpre

theorem SimStep.queued (hv : c.Valid) (ht : p.Tables) {s s' : SimState} (h : SimStep icu p c s s')
    (hq : Queued p s.pos s) : SimInv icu p c s' ∧ Queued p s'.pos s' := by
  cases h with
  | @pass pos r _ hjump _ hrune _ _ =>
    have hnext := (contextRuneAtValidated_next hv hrune).2.2.1
    rw [simAdvance_pos]
    exact simAdvance_queued ht (simScan_queued ht hq hjump) hnext

theorem SimRun.queued (hv : c.Valid) (ht : p.Tables) {s : SimState} (h : SimRun icu p c s) :
    SimInv icu p c s ∧ Queued p s.pos s := by
  induction h with
  | refl =>
    have hinit : SimInv icu p c (simInit p c) := simInit_inv
    exact ⟨hinit, hinit.toSimBase, List.Pairwise.nil, fun t ht => (by cases ht), fun b hb => (by cases hb),
      fun t ht => (by cases ht)⟩
  | tail _ hs ih => exact hs.queued hv ht ih.2

theorem SimStep.lt (hv : c.Valid) {s s' : SimState} (h : SimStep icu p c s s') : s.pos < s'.pos := by
  cases h with
  | pass _ hjump _ hrune _ _ =>
    have := simJump_ge hjump
    have := (contextRuneAtValidated_next hv hrune).2.2.1
    rw [simAdvance_pos]
    omega

theorem simLoop_pass (fuel : Nat) {s : SimState} {pos : Nat} {r : Rune}
    (hlive : ¬ (s.cur = [] ∧ s.best = none ∧ c.candidateEnd ≤ s.pos)) (hj : simJump p c s = some pos)
    (hopen : ¬ ((simScan icu p c s pos).best ≠ none ∧ (simScan icu p c s pos).cur = []))
    (hr : contextRuneAtValidated c pos = some r) (hlt : pos < c.recordEnd) :
    simLoop icu p c (fuel + 1) s =
      if (simAdvance icu p c (simScan icu p c s pos) r).cur.isEmpty && (simAdvance icu p c (simScan icu p c s pos) r).best.isSome
      then simAdvance icu p c (simScan icu p c s pos) r
      else simLoop icu p c fuel (simAdvance icu p c (simScan icu p c s pos) r) := by
  have hidle : ¬ (s.cur.isEmpty && s.best.isNone && decide (c.candidateEnd ≤ s.pos)) = true := by
    simpa [and_assoc] using hlive
  have hopen' : ¬ ((simScan icu p c s pos).best.isSome && (simScan icu p c s pos).cur.isEmpty) = true := by
    simpa [Option.isSome_iff_ne_none] using hopen
  rw [simLoop, if_neg hidle, hj]
  dsimp only
  rw [show simMatch p (simSeed icu p c { s with pos := pos }) = simScan icu p c s pos from rfl, if_neg hopen', simScan_pos,
    if_neg (Nat.not_le.2 hlt), hr]

theorem SimStep.loop {s s' : SimState} (h : SimStep icu p c s s') (fuel : Nat) :
    simLoop icu p c (fuel + 1) s = simLoop icu p c fuel s' := by
  cases h with
  | pass hlive hjump hopen hrune hlt hgo =>
    rw [simLoop_pass fuel hlive hjump hopen hrune hlt, if_neg]
    simpa [Option.isSome_iff_ne_none, and_comm] using hgo

theorem simLoop_run (hv : c.Valid) {s s' : SimState} (h : Relation.ReflTransGen (SimStep icu p c) s s') :
    ∀ fuel, c.recordEnd - s.pos < fuel → simLoop icu p c fuel s = simLoop icu p c fuel s' := by
  induction h using Relation.ReflTransGen.head_induction_on with
  | refl => exact fun _ _ => rfl
  | @head s x hstep _ ih =>
    intro fuel hfuel
    obtain ⟨k, rfl⟩ : ∃ k, fuel = k + 1 := ⟨fuel - 1, by omega⟩
    have hmove := hstep.lt hv
    rw [hstep.loop k, ← ih (k + 1) (by omega)]
    have hend : s.pos < c.recordEnd := by
      cases hstep with
      | pass _ hjump _ hrune hlt _ => exact Nat.lt_of_le_of_lt (simJump_ge hjump) hlt
    exact simLoop_fuel hv k (k + 1) x (by omega) (by omega)

/-- **A run that answers ends in a pass** that stores the answer, and leaves a spent list. -/
theorem simLoop_last (hv : c.Valid) (hl : Loaded p start m) : ∀ (fuel : Nat) {s : SimState}, Queued p s.pos s →
    c.recordEnd - s.pos < fuel → ∀ b, (simLoop icu p c fuel s).best = some b →
      ∃ s' pos, Relation.ReflTransGen (SimStep icu p c) s s' ∧ simJump p c s' = some pos ∧
        (simScan icu p c s' pos).best = some b ∧ Spent icu p c (simScan icu p c s' pos)
  | 0, _, _, h, _, _ => absurd h (Nat.not_lt_zero _)
  | fuel + 1, s, hq, hfuel, b, hb => by
    rcases simLoop_cases icu p c fuel s with ⟨hs, hstop⟩ | ⟨pos, hj, hlive, hrest⟩
    · -- a loop that stops at its top has stored nothing
      rw [hs] at hb
      rcases hstop with ⟨-, hnone, -⟩ | hstop
      · rw [hnone] at hb
        cases hb
      · rw [simJump_stays (Or.inr (by rw [hb]; exact Option.some_ne_none b))] at hstop
        cases hstop
    · have hscan := @simScan_queued icu p c hl.tables s pos hq hj
      -- a thread that can match takes the rune that follows
      have hmoves : ∀ t ∈ (simScan icu p c s pos).cur, Hopeful icu p c pos t → ∃ r, contextRuneAtValidated c pos = some r ∧
          nextThreads icu p c (simScan icu p c s pos).cur r ≠ [] := by
        intro t ht hh
        have ha := simMatch_rejects _ t ht
        obtain ⟨r, -, hr, -, -⟩ := hh.steps hl (hscan.stays t ht) ha
        obtain ⟨u, hu, -, -⟩ := nextThreads_forth hv hl hscan.sorted hr ht hh (hscan.stays t ht) ha
        exact ⟨r, hr, List.ne_nil_of_mem hu⟩
      rcases hrest with ⟨hres, hend⟩ | ⟨r, hr, hlt, hopen, hres⟩
      · rw [hres] at hb
        refine ⟨s, pos, .refl, hj, hb, fun t ht hh => ?_⟩
        rw [simScan_pos] at hh
        obtain ⟨r, hr, -⟩ := hmoves t ht hh
        rcases hend with ⟨-, hnil⟩ | hend | hend
        · rw [hnil] at ht
          cases ht
        · have := (contextRuneAtValidated_next hv hr).2.1
          omega
        · rw [hend] at hr
          cases hr
      · have hadv := simAdvance_spec icu c hl.tables hscan.base r
        by_cases hgo : (simAdvance icu p c (simScan icu p c s pos) r).best ≠ none ∧
            (simAdvance icu p c (simScan icu p c s pos) r).cur = []
        · rw [simLoop_pass fuel hlive hj hopen hr hlt, if_pos (by
            simpa [Option.isSome_iff_ne_none, and_comm] using hgo), simAdvance_best] at hb
          refine ⟨s, pos, .refl, hj, hb, fun t ht hh => ?_⟩
          rw [simScan_pos] at hh
          obtain ⟨r', hr', hne⟩ := hmoves t ht hh
          rw [hr] at hr'
          cases hr'
          exact hne (hadv.2.1 ▸ hgo.2)
        · have hstep : SimStep icu p c s (simAdvance icu p c (simScan icu p c s pos) r) :=
            .pass hlive hj hopen hr hlt hgo
          rw [hres.resolve_left (fun h => hgo h.2)] at hb
          have hmove := hstep.lt hv
          obtain ⟨s', pos', h1, h2⟩ := simLoop_last hv hl fuel (hstep.queued hv hl.tables hq).2 (by
            have := (contextRuneAtValidated_next hv hr).2.1
            have := simJump_ge hj
            omega) b hb
          exact ⟨s', pos', .head hstep h1, h2⟩

end

end Pergrep
