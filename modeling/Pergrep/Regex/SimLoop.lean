import Pergrep.Regex.SimSpec
/-!
# SimLoop — one pass of the loop, in terms of closures

`SimInv` is what the loop keeps of its bookkeeping: the marks of the current generation are those of the thread list,
or there are none, right after the counter wrapped.  Under it a pass is a computation on thread lists alone:
`simSeed_cur` (the closure of the start thread joins), `simMatch` (as it stands) and `simAdvance_cur` (`nextThreads`:
the closures of the threads that take the rune, one after another, without duplicates).
-/
namespace Pergrep

section
variable (icu : Icu) (p : RegexProgram) (c : VerifierContext)

/-- The bookkeeping after any part of a pass. -/
structure SimBase (s : SimState) : Prop where
  length : s.seen.length = p.nfa.length
  pos_gen : 0 < s.currentGeneration
  next_gen : s.nextGeneration = s.currentGeneration + 1
  gen_lt : s.nextGeneration < 2 ^ 32
  below : ∀ k, s.seen.getD k 0 ≤ s.currentGeneration
  caps : p.groups = 0 → ∀ t ∈ s.cur, t.caps = []

/-- The bookkeeping at the top of the loop. -/
structure SimInv (s : SimState) : Prop extends SimBase p s where
  marks : ∃ list, (list = s.cur ∨ list = []) ∧ MarksAt icu p c s.pos s.currentGeneration list s.seen

def wakes (cp : Nat) (t : NfaThread) : Option NfaThread :=
  (t.inst p).bind (fun i => if nfaConsume icu c i cp then some (t.goto i.x) else none)

def enlistAll (pos : Nat) : List NfaThread → List NfaThread → List NfaThread
  | list, [] => list
  | list, t :: ts => enlistAll pos (enlist list (threadClosure icu p c pos t)) ts

def nextThreads (cur : List NfaThread) (r : Rune) : List NfaThread :=
  enlistAll icu p c r.next [] (cur.filterMap (wakes icu p c r.cp))

variable {icu p c}

theorem marksAt_nil {pos generation : Nat} {seen : List Nat} (hlen : seen.length = p.nfa.length)
    (hnone : ∀ k, seen.getD k 0 ≠ generation) : MarksAt icu p c pos generation [] seen where
  length := hlen
  closed := fun _ k hk => absurd hk (hnone k)
  stays := fun k _ => ⟨fun h => absurd h (hnone k), fun ⟨_, ht, _⟩ => absurd ht List.not_mem_nil⟩

theorem simInit_inv : SimInv icu p c (simInit p c) where
  length := by simp [simInit]
  pos_gen := by simp [simInit]
  next_gen := rfl
  gen_lt := by simp [simInit]
  below := fun k => by
    simp only [simInit, List.getD_eq_getElem?_getD, List.getElem?_replicate]
    split <;> simp
  caps := fun _ t ht => absurd ht List.not_mem_nil
  marks := ⟨[], Or.inr rfl, marksAt_nil (by simp [simInit]) (fun k => by
    simp only [simInit, List.getD_eq_getElem?_getD, List.getElem?_replicate]
    split <;> simp)⟩

theorem seedThread_caps (h : p.groups = 0) (pos : Nat) : (seedThread p pos).caps = [] := by
  simp [seedThread, h]

theorem mem_enlist_caps {list new : List NfaThread} (h₁ : ∀ t ∈ list, t.caps = []) (h₂ : ∀ t ∈ new, t.caps = []) :
    ∀ t ∈ enlist list new, t.caps = [] := fun t ht => (mem_enlist ht).elim (h₁ t) (h₂ t)

theorem threadClosure_caps {pos : Nat} {t : NfaThread} (h : t.caps = []) :
    ∀ u ∈ threadClosure icu p c pos t, u.caps = [] := by
  intro u hu
  obtain ⟨-, -, -, -, -, hc, -⟩ := mem_threadClosure hu
  exact hc h

/-- **The start thread's closure joins the list**, in full or less what the list has. -/
theorem simSeed_spec (ht : p.Tables) {s : SimState} (h : SimInv icu p c s) :
    SimBase p (simSeed icu p c s) ∧ (simSeed icu p c s).pos = s.pos ∧ (simSeed icu p c s).best = s.best ∧
      (simSeed icu p c s).bestEnd = s.bestEnd ∧
      (c.candidateEnd ≤ s.pos → (simSeed icu p c s).cur = s.cur) ∧
      (s.pos < c.candidateEnd →
        (simSeed icu p c s).cur = enlist s.cur (threadClosure icu p c s.pos (seedThread p s.pos)) ∨
          (simSeed icu p c s).cur = s.cur ++ threadClosure icu p c s.pos (seedThread p s.pos)) := by
  unfold simSeed
  by_cases hlt : s.pos < c.candidateEnd
  · rw [if_pos hlt]
    obtain ⟨list, hl, hm⟩ := h.marks
    -- the marked part of the list is all of it or nothing
    have hsplit : ∃ pre, s.cur = pre ++ list ∧ (pre = [] ∨ list = []) := by
      rcases hl with rfl | rfl
      · exact ⟨[], rfl, Or.inl rfl⟩
      · exact ⟨s.cur, (List.append_nil _).symm, Or.inr rfl⟩
    obtain ⟨pre, hcur, hpre⟩ := hsplit
    have hcaps : p.groups = 0 → (seedThread p s.pos).caps = [] := fun hg => seedThread_caps hg s.pos
    obtain ⟨h1, h2, h3⟩ := addNfaThread_spec ht hm hcaps pre
    rw [← hcur] at h1 h2 h3
    refine ⟨⟨h2.length, h.pos_gen, h.next_gen, h.gen_lt, fun k => ?_, fun hg t htm => ?_⟩, rfl, rfl, rfl,
      fun hle => absurd hlt (Nat.not_lt.2 hle), fun _ => ?_⟩
    · rcases h3 k with h | h'
      · simp only [h]; exact SimBase.below ‹SimInv icu p c s›.toSimBase k
      · simp only [h']; exact Nat.le_refl _
    · simp only [h1] at htm
      rcases List.mem_append.1 htm with hin | hin
      · exact h.caps hg t (by rw [hcur]; exact List.mem_append_left _ hin)
      · refine mem_enlist_caps (fun u hu => h.caps hg u (by rw [hcur]; exact List.mem_append_right _ hu))
          (threadClosure_caps (hcaps hg)) t hin
    · simp only [h1]
      rcases hpre with rfl | rfl
      · rw [List.nil_append] at hcur
        left
        rw [List.nil_append, hcur]
      · rw [List.append_nil] at hcur
        right
        rw [hcur, enlist, List.nil_append]
        congr 1
        simp
  · rw [if_neg hlt]
    exact ⟨h.toSimBase, rfl, rfl, rfl, fun _ => rfl, fun h => absurd h hlt⟩

theorem simMatch_none {s : SimState} (h : ∀ t ∈ s.cur, t.accepts p = false) : simMatch p s = s := by
  unfold simMatch
  rw [List.findIdx?_eq_none_iff.2 (by simpa using h)]

theorem simMatch_some {s : SimState} {t : NfaThread} (ht : t ∈ s.cur) (ha : t.accepts p = true) :
    ∃ pre u post, s.cur = pre ++ u :: post ∧ u.accepts p = true ∧ (∀ v ∈ pre, v.accepts p = false) ∧
      simMatch p s = { s with best := some u, bestEnd := s.pos, cur := pre } := by
  have hsome : (s.cur.findIdx? (fun t => t.accepts p)).isSome = true := by
    rw [List.findIdx?_isSome, List.any_eq_true]
    exact ⟨t, ht, ha⟩
  obtain ⟨k, hk⟩ := Option.isSome_iff_exists.1 hsome
  obtain ⟨hlt, hacc, hbefore⟩ := List.findIdx?_eq_some_iff_getElem.1 hk
  refine ⟨s.cur.take k, s.cur[k], s.cur.drop (k + 1), ?_, hacc, fun v hv => ?_, ?_⟩
  · rw [← List.drop_eq_getElem_cons hlt, List.take_append_drop]
  · obtain ⟨j, hj, rfl⟩ := List.mem_take_iff_getElem.1 hv
    have := hbefore j (by omega)
    simpa using this
  · unfold simMatch
    rw [hk]
    simp [List.getElem?_eq_getElem hlt]

theorem simMatch_base {s : SimState} (h : SimBase p s) : SimBase p (simMatch p s) := by
  unfold simMatch
  split
  · exact h
  · exact ⟨h.length, h.pos_gen, h.next_gen, h.gen_lt, h.below,
      fun hg t ht => h.caps hg t (List.mem_of_mem_take ht)⟩

@[simp] theorem simMatch_pos (s : SimState) : (simMatch p s).pos = s.pos := by
  unfold simMatch; split <;> rfl

theorem wakes_caps {cp : Nat} {t u : NfaThread} (h : wakes icu p c cp t = some u) : u.caps = t.caps ∧ u.start = t.start := by
  unfold wakes at h
  obtain ⟨i, -, h⟩ := Option.bind_eq_some_iff.1 h
  split at h
  · cases h; exact ⟨rfl, rfl⟩
  · cases h

variable (icu c) in
theorem foldl_advance (ht : p.Tables) (r : Rune) (generation : Nat) :
    ∀ (cur list : List NfaThread) (seen : List Nat), MarksAt icu p c r.next generation list seen →
      (p.groups = 0 → ∀ t ∈ cur, t.caps = []) →
      ∃ seen', cur.foldl (advanceThread icu p c r generation) (list, seen) =
            (enlistAll icu p c r.next list (cur.filterMap (wakes icu p c r.cp)), seen') ∧
        MarksAt icu p c r.next generation (enlistAll icu p c r.next list (cur.filterMap (wakes icu p c r.cp))) seen' ∧
        ∀ k, seen'.getD k 0 = seen.getD k 0 ∨ seen'.getD k 0 = generation
  | [], list, seen, hm, _ => ⟨seen, rfl, hm, fun _ => Or.inl rfl⟩
  | t :: cur, list, seen, hm, hcaps => by
    have hrest : p.groups = 0 → ∀ u ∈ cur, u.caps = [] := fun hg u hu => hcaps hg u (List.mem_cons_of_mem _ hu)
    rw [List.foldl_cons, List.filterMap_cons]
    cases hi : t.inst p with
    | none =>
      have hw : wakes icu p c r.cp t = none := by rw [wakes, hi]; rfl
      have ha : advanceThread icu p c r generation (list, seen) t = (list, seen) := by rw [advanceThread, hi]
      simp only [hw, ha]
      exact foldl_advance ht r generation cur list seen hm hrest
    | some i =>
      by_cases hc : nfaConsume icu c i r.cp = true
      · have hw : wakes icu p c r.cp t = some (t.goto i.x) := by rw [wakes, hi, Option.bind_some, if_pos hc]
        have ha : advanceThread icu p c r generation (list, seen) t =
            addNfaThread icu p c r.next (t.goto i.x) generation list seen := by simp only [advanceThread, hi, hc, if_true]
        simp only [hw, ha]
        obtain ⟨h1, h2, h3⟩ := addNfaThread_spec ht hm
          (show p.groups = 0 → (t.goto i.x).caps = [] from fun hg => hcaps hg t List.mem_cons_self) []
        rw [List.nil_append] at h1 h2 h3
        obtain ⟨seen', h4, h5, h6⟩ := foldl_advance ht r generation cur _ _ h2 hrest
        refine ⟨seen', ?_, h5, fun k => ?_⟩
        · rw [show addNfaThread icu p c r.next (t.goto i.x) generation list seen = (_, _) from Prod.ext h1 rfl]
          exact h4
        · rcases h6 k with h | h
          · rw [h]; exact h3 k
          · exact Or.inr h
      · have hw : wakes icu p c r.cp t = none := by rw [wakes, hi, Option.bind_some, if_neg hc]
        have ha : advanceThread icu p c r generation (list, seen) t = (list, seen) := by
          simp only [advanceThread, hi, hc, if_false, Bool.false_eq_true]
        simp only [hw, ha]
        exact foldl_advance ht r generation cur list seen hm hrest

theorem mem_enlistAll {pos : Nat} : ∀ {ts list : List NfaThread} {u : NfaThread}, u ∈ enlistAll icu p c pos list ts →
    u ∈ list ∨ ∃ t ∈ ts, u ∈ threadClosure icu p c pos t
  | [], _, _, h => Or.inl h
  | t :: ts, list, u, h => by
    rcases @mem_enlistAll pos ts _ _ h with h | ⟨t', ht', hu⟩
    · rcases mem_enlist h with h | h
      · exact Or.inl h
      · exact Or.inr ⟨t, List.mem_cons_self, h⟩
    · exact Or.inr ⟨t', List.mem_cons_of_mem _ ht', hu⟩

theorem exists_mem_enlistAll {pos : Nat} : ∀ {ts list : List NfaThread} {u : NfaThread},
    (u ∈ list ∨ ∃ t ∈ ts, u ∈ threadClosure icu p c pos t) → ∃ u' ∈ enlistAll icu p c pos list ts, u'.pc = u.pc
  | [], _, u, h => by
    rcases h with h | ⟨t, ht, -⟩
    · exact ⟨u, h, rfl⟩
    · cases ht
  | t :: ts, list, u, h => by
    have hjoin : ∀ v, v ∈ list ∨ v ∈ threadClosure icu p c pos t →
        ∃ u' ∈ enlistAll icu p c pos list (t :: ts), u'.pc = v.pc := by
      intro v hv
      obtain ⟨w, hw, he⟩ := exists_mem_enlist hv
      obtain ⟨u', hu', he'⟩ := @exists_mem_enlistAll pos ts (enlist list (threadClosure icu p c pos t)) w
        (Or.inl hw)
      exact ⟨u', hu', he'.trans he⟩
    rcases h with h | ⟨t', ht', hu⟩
    · exact hjoin u (Or.inl h)
    · rcases List.mem_cons.1 ht' with rfl | ht'
      · exact hjoin u (Or.inr hu)
      · exact @exists_mem_enlistAll pos ts _ _ (Or.inr ⟨t', ht', hu⟩)

variable (icu c) in
/-- **A step is `nextThreads`**, and leaves the bookkeeping of the top of the loop. -/
theorem simAdvance_spec (ht : p.Tables) {s : SimState} (h : SimBase p s) (r : Rune) :
    SimInv icu p c (simAdvance icu p c s r) ∧ (simAdvance icu p c s r).cur = nextThreads icu p c s.cur r ∧
      (simAdvance icu p c s r).pos = r.next ∧ (simAdvance icu p c s r).best = s.best ∧
      (simAdvance icu p c s r).bestEnd = s.bestEnd := by
  have hfresh : ∀ k, s.seen.getD k 0 ≠ s.nextGeneration := fun k => by
    have := h.below k
    have := h.next_gen
    omega
  obtain ⟨seen', h1, h2, h3⟩ := foldl_advance icu c ht r s.nextGeneration s.cur [] s.seen
    (marksAt_nil h.length hfresh) h.caps
  have hcaps : p.groups = 0 → ∀ t ∈ nextThreads icu p c s.cur r, t.caps = [] := by
    intro hg t htm
    rcases mem_enlistAll htm with htm | ⟨u, hu, htm⟩
    · cases htm
    · obtain ⟨v, hv, hw⟩ := List.mem_filterMap.1 hu
      exact threadClosure_caps ((wakes_caps hw).1.trans (h.caps hg v hv)) t htm
  unfold simAdvance
  simp only
  rw [h1]
  by_cases hwrap : (s.nextGeneration + 1) % 2 ^ 32 = 0
  · rw [if_pos hwrap]
    have hzero : ∀ k, (List.replicate seen'.length 0).getD k 0 = 0 := by
      intro k
      simp only [List.getD_eq_getElem?_getD, List.getElem?_replicate]
      split <;> rfl
    refine ⟨⟨⟨by simpa using h2.length, by simp, rfl, by simp, fun k => ?_, hcaps⟩, [], Or.inr rfl,
      marksAt_nil (by simpa using h2.length) (fun k => ?_)⟩, rfl, rfl, rfl, rfl⟩
    · simp only [hzero]; omega
    · simp only [hzero]; omega
  · rw [if_neg hwrap]
    refine ⟨⟨⟨h2.length, ?_, rfl, ?_, fun k => ?_, hcaps⟩, _, Or.inl rfl, h2⟩, rfl, rfl, rfl, rfl⟩
    · have := h.pos_gen
      have := h.next_gen
      simp only
      omega
    · have := h.gen_lt
      simp only
      omega
    · simp only
      rcases h3 k with h' | h'
      · rw [h']
        have := h.below k
        have := h.next_gen
        omega
      · rw [h']

/-! ## A pass of the loop -/

variable (icu p c) in
/-- The state after the jump to `pos`, the seed and the look for a match. -/
def simScan (s : SimState) (pos : Nat) : SimState := simMatch p (simSeed icu p c { s with pos := pos })

variable (icu p c) in
/-- **What one pass of the loop does.** -/
theorem simLoop_cases (fuel : Nat) (s : SimState) :
    (simLoop icu p c (fuel + 1) s = s ∧
        ((s.cur = [] ∧ s.best = none ∧ c.candidateEnd ≤ s.pos) ∨ simJump p c s = none)) ∨
      ∃ pos, simJump p c s = some pos ∧ ¬ (s.cur = [] ∧ s.best = none ∧ c.candidateEnd ≤ s.pos) ∧
        ((simLoop icu p c (fuel + 1) s = simScan icu p c s pos ∧
            (((simScan icu p c s pos).best ≠ none ∧ (simScan icu p c s pos).cur = []) ∨ c.recordEnd ≤ pos ∨
              contextRuneAtValidated c pos = none)) ∨
          ∃ r, contextRuneAtValidated c pos = some r ∧ pos < c.recordEnd ∧
            ¬ ((simScan icu p c s pos).best ≠ none ∧ (simScan icu p c s pos).cur = []) ∧
            ((simLoop icu p c (fuel + 1) s = simAdvance icu p c (simScan icu p c s pos) r ∧
                (simAdvance icu p c (simScan icu p c s pos) r).best ≠ none ∧
                (simAdvance icu p c (simScan icu p c s pos) r).cur = []) ∨
              simLoop icu p c (fuel + 1) s = simLoop icu p c fuel (simAdvance icu p c (simScan icu p c s pos) r))) := by
  have hpos : ∀ pos, (simScan icu p c s pos).pos = pos := by
    intro pos
    unfold simScan simSeed
    rw [simMatch_pos]
    split <;> rfl
  have hcond : ∀ (u : SimState), (u.best.isSome && u.cur.isEmpty) = true ↔ u.best ≠ none ∧ u.cur = [] := by
    intro u
    rw [Bool.and_eq_true, List.isEmpty_iff, Option.isSome_iff_ne_none]
  rw [simLoop]
  by_cases hidle : (s.cur.isEmpty && s.best.isNone && decide (c.candidateEnd ≤ s.pos)) = true
  · rw [if_pos hidle]
    simp only [Bool.and_eq_true, List.isEmpty_iff, Option.isNone_iff_eq_none, decide_eq_true_eq] at hidle
    exact Or.inl ⟨rfl, Or.inl ⟨hidle.1.1, hidle.1.2, hidle.2⟩⟩
  · rw [if_neg hidle]
    have hidle' : ¬ (s.cur = [] ∧ s.best = none ∧ c.candidateEnd ≤ s.pos) := by
      rintro ⟨h1, h2, h3⟩
      apply hidle
      simp [h1, h2, h3]
    cases hj : simJump p c s with
    | none => exact Or.inl ⟨rfl, Or.inr rfl⟩
    | some pos =>
      refine Or.inr ⟨pos, rfl, hidle', ?_⟩
      simp only
      rw [show simMatch p (simSeed icu p c { s with pos := pos }) = simScan icu p c s pos from rfl, hpos]
      by_cases hdone : ((simScan icu p c s pos).best.isSome && (simScan icu p c s pos).cur.isEmpty) = true
      · rw [if_pos hdone]
        exact Or.inl ⟨rfl, Or.inl ((hcond _).1 hdone)⟩
      · rw [if_neg hdone]
        by_cases hend : c.recordEnd ≤ pos
        · rw [if_pos hend]
          exact Or.inl ⟨rfl, Or.inr (Or.inl hend)⟩
        · rw [if_neg hend]
          cases hr : contextRuneAtValidated c pos with
          | none => exact Or.inl ⟨rfl, Or.inr (Or.inr rfl)⟩
          | some r =>
            refine Or.inr ⟨r, rfl, by omega, fun h => hdone ((hcond _).2 h), ?_⟩
            simp only
            by_cases hstop : ((simAdvance icu p c (simScan icu p c s pos) r).cur.isEmpty &&
                (simAdvance icu p c (simScan icu p c s pos) r).best.isSome) = true
            · rw [if_pos hstop]
              rw [Bool.and_comm] at hstop
              exact Or.inl ⟨rfl, (hcond _).1 hstop⟩
            · rw [if_neg hstop]
              exact Or.inr rfl

end

end Pergrep
