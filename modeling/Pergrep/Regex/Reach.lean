import Pergrep.Regex.SimRun
/-!
# Reach — wherever the simulation jumps, its threads got where they are

`simLoop_sound` asks that jumps keep the marks right.  Marks only leave threads out, though: a thread in the list is a
reached configuration whatever is marked, and so is the best match, for any prefixes (`simLoop_got`).
-/
namespace Pergrep

open Wiring NfaCompiler Worklist

section
variable (icu : Icu) (p : RegexProgram) (c : VerifierContext) (start : Nat)

/-- The thread got to `pos`, if it stands at an instruction. -/
def Got (pos : Nat) (t : NfaThread) : Prop := ∀ k, t.pc = some k → CReach icu p c (start, t.start) (k, pos)

/-- All threads, and the best match, got where they are. -/
structure AllGot (m : Nat) (s : SimState) : Prop where
  threads : ∀ t ∈ s.cur, Got icu p c start s.pos t
  best : ∀ t, s.best = some t → CReach icu p c (start, t.start) (m, s.bestEnd)

variable {icu p c start}

theorem Got.expand {pos : Nat} {t : NfaThread} {us : List NfaThread} (h : Got icu p c start pos t)
    (hus : threadNext icu p c pos t = some us) : ∀ u ∈ us, Got icu p c start pos u := by
  intro u hu k' hk'
  cases hi : t.inst p with
  | none =>
    unfold threadNext at hus
    rw [hi] at hus
    cases hus
    cases hu
  | some i =>
    obtain ⟨k, hk, hik⟩ := Option.bind_eq_some_iff.1 hi
    have hkey : threadKey p t = some k := threadKey_eq_some.2 ⟨hk, (List.getElem?_eq_some_iff.1 hik).1⟩
    have hchild : Child (threadKey p) (threadNext icu p c pos) t u := ⟨⟨k, hkey⟩, us, hus, hu⟩
    rw [(child_start (.single hchild)).1]
    exact (h k hk).tail (child_cstep hk hk' hchild)

theorem addNfaThread_got (ht : p.Tables) {pos generation : Nat} {seed : NfaThread} (hseed : Got icu p c start pos seed)
    {list : List NfaThread} (hlist : ∀ t ∈ list, Got icu p c start pos t) (seen : List Nat) :
    ∀ t ∈ (addNfaThread icu p c pos seed generation list seen).1, Got icu p c start pos t := by
  unfold addNfaThread
  split
  · rename_i pc hpc
    obtain ⟨hseedpc, hlt⟩ := pcKey_eq_some.1 hpc
    split
    · rename_i htab
      simp only [Bool.and_eq_true] at htab
      obtain ⟨hrow, -, hops⟩ := tables_row ht htab.1 hlt
      have hmem : ∀ k ∈ closureRow p.nfa pc, CReach icu p c (start, seed.start) (k, pos) := by
        intro k hk
        have hk' : some k ∈ (threadClosure icu p c pos seed).map NfaThread.pc := by
          rw [closureRow_eq icu c hops pos seed hseedpc]
          exact List.mem_map_of_mem hk
        obtain ⟨u, hu, hupc⟩ := List.mem_map.1 hk'
        obtain ⟨-, -, -, -, -, -, hreach⟩ := mem_threadClosure hu
        exact (hseed pc hseedpc).trans (children_creach hseedpc hupc hreach)
      dsimp only
      rw [hrow]
      generalize closureRow p.nfa pc = row at hmem
      induction row generalizing list seen with
      | nil => exact hlist
      | cons k row ih =>
        obtain ⟨hk, hmem⟩ := List.forall_mem_cons.1 hmem
        rw [List.foldl_cons, addEntry]
        split
        · exact ih hlist seen hmem
        · refine ih (fun t ht => ?_) _ hmem
          rcases List.mem_append.1 ht with ht | ht
          · exact hlist t ht
          · rw [List.mem_singleton.1 ht]
            intro j hj
            cases hj
            exact hk
    · exact Worklist.run_forall (fun t us ht hus => ht.expand hus) (List.forall_mem_singleton.2 hseed) hlist
  · exact hlist

variable {m : Nat}

theorem simScan_got (hl : Loaded p start m) {s : SimState} {pos : Nat}
    (h : AllGot icu p c start m { s with pos := pos }) : AllGot icu p c start m (simScan icu p c s pos) := by
  have hseed : AllGot icu p c start m (simSeed icu p c { s with pos := pos }) := by
    unfold simSeed
    split
    · refine ⟨addNfaThread_got hl.tables (fun k hk => ?_) h.threads _, h.best⟩
      rw [seedThread_pc hl] at hk
      cases hk
      exact .refl
    · exact h
  unfold simScan
  generalize simSeed icu p c { s with pos := pos } = s' at hseed
  by_cases hacc : ∀ t ∈ s'.cur, t.accepts p = false
  · rw [simMatch_none hacc]
    exact hseed
  · obtain ⟨t, hacc⟩ := not_forall.1 hacc
    obtain ⟨ht, ha⟩ := Classical.not_imp.1 hacc
    obtain ⟨pre, u, post, hcur, hu, -, hres⟩ := simMatch_some ht (by simpa using ha)
    rw [hres]
    refine ⟨fun v hv => hseed.threads v (by rw [hcur]; exact List.mem_append_left _ hv), fun v hv => ?_⟩
    cases hv
    have hgot := hseed.threads u (by rw [hcur]; simp)
    -- an accepting thread stands at the one `Match`
    cases hpc : u.pc with
    | none => simp [NfaThread.accepts, NfaThread.inst, hpc] at hu
    | some k =>
      obtain rfl := (accepts_iff hl hpc).1 hu
      exact hgot _ hpc

theorem simAdvance_got (hl : Loaded p start m) {s : SimState} {r : Rune} (hr : contextRuneAtValidated c s.pos = some r)
    (h : AllGot icu p c start m s) : AllGot icu p c start m (simAdvance icu p c s r) := by
  have hfold : ∀ (cur : List NfaThread) (a : List NfaThread × List Nat), (∀ t ∈ cur, Got icu p c start s.pos t) →
      (∀ t ∈ a.1, Got icu p c start r.next t) →
        ∀ t ∈ (cur.foldl (advanceThread icu p c r s.nextGeneration) a).1, Got icu p c start r.next t := by
    intro cur
    induction cur with
    | nil => exact fun a _ ha => ha
    | cons t cur ih =>
      intro a hcur ha
      obtain ⟨hgot, hcur⟩ := List.forall_mem_cons.1 hcur
      refine ih _ hcur ?_
      unfold advanceThread
      split
      · rename_i i hi
        split
        · rename_i hc
          obtain ⟨k, hk, hik⟩ := Option.bind_eq_some_iff.1 hi
          refine addNfaThread_got hl.tables (fun k' hk' => ?_) ha _
          exact (hgot k hk).tail ((cstep_stays (stays_of_consume hik hc)).2 ⟨i, r, hik, hr, hc, hk', rfl⟩)
        · exact ha
      · exact ha
  have hnext := hfold s.cur ([], s.seen) h.threads (fun t ht => by cases ht)
  unfold simAdvance
  dsimp only
  split
  · exact ⟨hnext, h.best⟩
  · exact ⟨hnext, h.best⟩

/-- **The best match got where it ends.** -/
theorem simLoop_got (hl : Loaded p start m) : ∀ (fuel : Nat) {s : SimState}, AllGot icu p c start m s →
    AllGot icu p c start m (simLoop icu p c fuel s)
  | 0, _, h => h
  | fuel + 1, s, h => by
    rcases simLoop_cases icu p c fuel s with ⟨hs, -⟩ | ⟨pos, hj, -, hrest⟩
    · rw [hs]
      exact h
    · -- a jump is made with no thread alive
      have hjump : AllGot icu p c start m { s with pos := pos } := by
        refine ⟨fun t ht => ?_, h.best⟩
        unfold simJump at hj
        split at hj
        · rename_i hidle
          simp only [Bool.and_eq_true, List.isEmpty_iff] at hidle
          rw [show s.cur = [] from hidle.1.1.1] at ht
          cases ht
        · cases hj
          exact h.threads t ht
      have hscan := simScan_got hl hjump
      rcases hrest with ⟨hs, -⟩ | ⟨r, hr, -, -, hs⟩
      · rw [hs]
        exact hscan
      · have hadv := simAdvance_got hl (by rw [simScan_pos]; exact hr) hscan
        rcases hs with ⟨hs, -⟩ | hs
        · rw [hs]
          exact hadv
        · rw [hs]
          exact simLoop_got hl fuel hadv

end

end Pergrep
