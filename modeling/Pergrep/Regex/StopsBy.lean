import Pergrep.Regex.FastPath
import Pergrep.Regex.SimPass
/-!
# StopsBy — searches that answer by a position

A rune that starts by a position and ends after it is read in one pass of a run at most.  A thread that can still match
after that pass keeps the run going until a match is stored (`simLoop_hopeful`), and that match ends after the position;
without one, nothing is stored from there on (`simLoop_spent`).  So an answer ends by the position exactly when the pass
that reads over it leaves a spent list (`nfaSearchLoop_stops_iff`).
-/
namespace Pergrep

open Wiring NfaCompiler Worklist

section
variable (icu : Icu) (p : RegexProgram) (c : VerifierContext)

/-- No pass of the run reads over the position with a thread in its list that can still match. -/
def StopsBy (re : Nat) : Prop :=
  ∀ s pos r, SimRun icu p c s → simJump p c s = some pos → contextRuneAtValidated c pos = some r → pos ≤ re → re < r.next →
    Spent icu p c (simScan icu p c s pos)

variable {icu p c} {start m : Nat}

/-! ## What a pass stores and keeps -/

theorem simScan_found (s : SimState) (pos : Nat) :
    (simScan icu p c s pos).best = s.best ∧ (simScan icu p c s pos).bestEnd = s.bestEnd ∨
      (simScan icu p c s pos).best ≠ none ∧ (simScan icu p c s pos).bestEnd = pos := by
  have hseed : ∀ s : SimState, (simSeed icu p c s).best = s.best ∧ (simSeed icu p c s).bestEnd = s.bestEnd ∧
      (simSeed icu p c s).pos = s.pos := by
    intro s
    unfold simSeed
    split
    · exact ⟨rfl, rfl, rfl⟩
    · exact ⟨rfl, rfl, rfl⟩
  obtain ⟨hbest, hend, hat⟩ := hseed { s with pos := pos }
  unfold simScan simMatch
  split
  · exact Or.inl ⟨hbest, hend⟩
  · rename_i k hk
    obtain ⟨hlt, -⟩ := List.findIdx?_eq_some_iff_getElem.1 hk
    refine Or.inr ⟨?_, ?_⟩
    · dsimp only
      rw [List.getElem?_eq_getElem hlt]
      exact Option.some_ne_none _
    · exact hat

theorem simScan_spent {s : SimState} {pos : Nat}
    (h : ∀ t ∈ (simSeed icu p c { s with pos := pos }).cur, ¬ Hopeful icu p c pos t) :
    simScan icu p c s pos = simSeed icu p c { s with pos := pos } := by
  refine simMatch_none (fun t ht => ?_)
  cases hacc : t.accepts p with
  | false => rfl
  | true => exact absurd (hopeful_of_accepts hacc) (h t ht)

theorem simScan_hopeful {s : SimState} {pos : Nat} {t : NfaThread}
    (ht : t ∈ (simSeed icu p c { s with pos := pos }).cur) (hh : Hopeful icu p c pos t) :
    ((simScan icu p c s pos).best ≠ none ∧ (simScan icu p c s pos).bestEnd = pos) ∨
      ∃ u ∈ (simScan icu p c s pos).cur, Hopeful icu p c pos u := by
  by_cases hacc : ∀ t ∈ (simSeed icu p c { s with pos := pos }).cur, t.accepts p = false
  · right
    refine ⟨t, ?_, hh⟩
    unfold simScan
    rw [simMatch_none hacc]
    exact ht
  · left
    obtain ⟨u, hacc⟩ := not_forall.1 hacc
    obtain ⟨hu, ha⟩ := Classical.not_imp.1 hacc
    obtain ⟨pre, w, post, -, -, -, hres⟩ := simMatch_some hu (by simpa using ha)
    have hpos : (simSeed icu p c { s with pos := pos }).pos = pos := by
      unfold simSeed
      split <;> rfl
    unfold simScan
    rw [hres]
    exact ⟨Option.some_ne_none w, hpos⟩

theorem mem_simSeed (ht : p.Tables) {s : SimState} (hb : SimBase p s) {t : NfaThread} (h : t ∈ s.cur) :
    t ∈ (simSeed icu p c s).cur := by
  obtain ⟨-, -, -, new, hnew, -⟩ := @simSeed_appends icu p c ht s hb
  rw [hnew]
  exact List.mem_append_left new h

theorem mem_of_simMatch {s : SimState} {t : NfaThread} (h : t ∈ (simMatch p s).cur) : t ∈ s.cur := by
  unfold simMatch at h
  split at h
  · exact h
  · exact List.mem_of_mem_take h

theorem simSeed_idle {s : SimState} (h : c.candidateEnd ≤ s.pos) : simSeed icu p c s = s := by
  unfold simSeed
  rw [if_neg (Nat.not_lt.2 h)]

/-! ## The rest of a run -/

theorem simLoop_kept (hv : c.Valid) : ∀ (fuel : Nat) (s : SimState),
    (simLoop icu p c fuel s).best = s.best ∧ (simLoop icu p c fuel s).bestEnd = s.bestEnd ∨
      (simLoop icu p c fuel s).best ≠ none ∧ s.pos ≤ (simLoop icu p c fuel s).bestEnd
  | 0, s => Or.inl ⟨rfl, rfl⟩
  | fuel + 1, s => by
    rcases simLoop_cases icu p c fuel s with ⟨hs, -⟩ | ⟨pos, hj, -, hrest⟩
    · rw [hs]
      exact Or.inl ⟨rfl, rfl⟩
    · have hpos : s.pos ≤ pos := simJump_ge hj
      have hscan := @simScan_found icu p c s pos
      rcases hrest with ⟨hs, -⟩ | ⟨r, hr, -, -, ⟨hs, -⟩ | hs⟩
      · rw [hs]
        exact hscan.imp id (fun ⟨hbest, hat⟩ => ⟨hbest, hat.symm ▸ hpos⟩)
      · rw [hs, simAdvance_best, simAdvance_bestEnd]
        exact hscan.imp id (fun ⟨hbest, hat⟩ => ⟨hbest, hat.symm ▸ hpos⟩)
      · have hnext := (contextRuneAtValidated_next hv hr).2.2.1
        rw [hs]
        rcases simLoop_kept hv fuel (simAdvance icu p c (simScan icu p c s pos) r) with h | h
        · rw [simAdvance_best, simAdvance_bestEnd] at h
          rw [h.1, h.2]
          exact hscan.imp id (fun ⟨hbest, hat⟩ => ⟨hbest, hat.symm ▸ hpos⟩)
        · rw [simAdvance_pos] at h
          exact Or.inr ⟨h.1, by omega⟩

/-- **A thread that can match is answered**: at the position or after it. -/
theorem simLoop_hopeful (hv : c.Valid) (hl : Loaded p start m) : ∀ (fuel : Nat) {s : SimState} {pos : Nat},
    Queued p s.pos s → c.recordEnd - s.pos < fuel → simJump p c s = some pos →
      (∃ t ∈ (simSeed icu p c { s with pos := pos }).cur, Hopeful icu p c pos t) →
        (simLoop icu p c fuel s).best ≠ none ∧ pos ≤ (simLoop icu p c fuel s).bestEnd
  | 0, _, _, _, h, _, _ => absurd h (Nat.not_lt_zero _)
  | fuel + 1, s, pos, hq, hfuel, hj, ⟨t, ht, hh⟩ => by
    have hscan := @simScan_queued icu p c hl.tables s pos hq hj
    have hge : s.pos ≤ pos := simJump_ge hj
    rcases simLoop_cases icu p c fuel s with ⟨-, hstop⟩ | ⟨pos', hj', hlive, hrest⟩
    · -- a loop that stops at its top has no thread, and seeds none
      rcases hstop with ⟨hnil, -, hcand⟩ | hstop
      · rw [simSeed_idle (show c.candidateEnd ≤ ({ s with pos := pos } : SimState).pos by
          change c.candidateEnd ≤ pos
          omega)] at ht
        rw [show ({ s with pos := pos } : SimState).cur = s.cur from rfl, hnil] at ht
        cases ht
      · rw [hstop] at hj
        cases hj
    · rw [hj] at hj'
      cases hj'
      rcases simScan_hopeful ht hh with ⟨hbest, hend⟩ | ⟨u, hu, hh⟩
      · -- stored here; what is stored later ends later
        rcases hrest with ⟨hs, -⟩ | ⟨r, hr, -, -, ⟨hs, -⟩ | hs⟩
        · rw [hs]
          exact ⟨hbest, hend.ge⟩
        · rw [hs, simAdvance_best, simAdvance_bestEnd]
          exact ⟨hbest, hend.ge⟩
        · have hnext := (contextRuneAtValidated_next hv hr).2.2.1
          rw [hs]
          rcases simLoop_kept hv fuel (simAdvance icu p c (simScan icu p c s pos) r) with h | h
          · rw [simAdvance_best, simAdvance_bestEnd] at h
            rw [h.1, h.2]
            exact ⟨hbest, hend.ge⟩
          · rw [simAdvance_pos] at h
            exact ⟨h.1, by omega⟩
      · -- kept: it takes the rune that follows
        have ha := simMatch_rejects _ u hu
        obtain ⟨r, -, hr, -, -⟩ := hh.steps hl (hscan.stays u hu) ha
        obtain ⟨v, hv', -, hh'⟩ := nextThreads_forth hv hl hscan.sorted hr hu hh (hscan.stays u hu) ha
        obtain ⟨-, hlt, hnext, -⟩ := contextRuneAtValidated_next hv hr
        have hadv := simAdvance_spec icu c hl.tables hscan.base r
        have hmem : v ∈ (simAdvance icu p c (simScan icu p c s pos) r).cur := by
          rw [hadv.2.1]
          exact hv'
        rcases hrest with ⟨-, hend⟩ | ⟨r', hr', -, -, hs⟩
        · rcases hend with ⟨-, hnil⟩ | hend | hend
          · rw [hnil] at hu
            cases hu
          · omega
          · rw [hend] at hr
            cases hr
        · rw [hr] at hr'
          cases hr'
          rcases hs with ⟨-, -, hnil⟩ | hs
          · rw [hnil] at hmem
            cases hmem
          · rw [hs]
            have hq' := (@simAdvance_queued icu p c hl.tables (pos + 1) _ hscan r hnext).2
            have hpos : (simAdvance icu p c (simScan icu p c s pos) r).pos = r.next := simAdvance_pos _ _
            rw [← hpos] at hq' hh'
            obtain ⟨h1, h2⟩ := simLoop_hopeful hv hl fuel hq' (by omega)
              (simJump_stays (Or.inl (List.ne_nil_of_mem hmem))) ⟨v, mem_simSeed hl.tables hq'.base hmem, hh'⟩
            exact ⟨h1, by omega⟩

/-- **Beyond the candidates a spent list stores nothing.** -/
theorem simLoop_spent (hl : Loaded p start m) : ∀ (fuel : Nat) {s : SimState}, SimBase p s →
    c.candidateEnd ≤ s.pos → c.Valid → Spent icu p c s →
      (simLoop icu p c fuel s).best = s.best ∧ (simLoop icu p c fuel s).bestEnd = s.bestEnd
  | 0, _, _, _, _, _ => ⟨rfl, rfl⟩
  | fuel + 1, s, hb, hcand, hv, hspent => by
    rcases simLoop_cases icu p c fuel s with ⟨hs, -⟩ | ⟨pos, hj, hlive, hrest⟩
    · rw [hs]
      exact ⟨rfl, rfl⟩
    · obtain rfl : pos = s.pos := (simJump_cases hj).resolve_right (fun h => hlive ⟨h.1, h.2, hcand⟩)
      have hscan : simScan icu p c s s.pos = s := by
        rw [simScan_spent, simSeed_idle hcand]
        rw [simSeed_idle hcand]
        exact hspent
      rw [hscan] at hrest
      rcases hrest with ⟨hs, -⟩ | ⟨r, hr, -, -, ⟨hs, -⟩ | hs⟩
      · rw [hs]
        exact ⟨rfl, rfl⟩
      · rw [hs, simAdvance_best, simAdvance_bestEnd]
        exact ⟨rfl, rfl⟩
      · have hadv := simAdvance_spec icu c hl.tables hb r
        have hnext := (contextRuneAtValidated_next hv hr).2.2.1
        have hspent' : Spent icu p c (simAdvance icu p c s r) := by
          intro u hu hh
          rw [hadv.2.1] at hu
          rw [hadv.2.2.1] at hh
          obtain ⟨t, ht, -, hh⟩ := nextThreads_back hr hu hh
          exact hspent t ht hh
        obtain ⟨h1, h2⟩ := simLoop_spent hl fuel hadv.1.toSimBase (by rw [simAdvance_pos]; omega) hv hspent'
        rw [hs, h1, h2, simAdvance_best, simAdvance_bestEnd]
        exact ⟨rfl, rfl⟩

/-! ## The pass that reads over the position -/

theorem SimRun.pos_ge (hv : c.Valid) {s : SimState} (h : SimRun icu p c s) : c.candidateBegin ≤ s.pos := by
  induction h with
  | refl => exact Nat.le_refl _
  | tail _ hs ih => exact ih.trans (hs.lt hv).le

theorem simJump_le {re : Nat} (hend : c.candidateEnd ≤ re + 1) {s : SimState} {pos : Nat} (hpos : s.pos ≤ re)
    (hj : simJump p c s = some pos) : pos ≤ re := by
  unfold simJump at hj
  split at hj
  · split at hj
    · cases hj
    · split at hj
      · cases hj
      · rename_i j _ hlt
        cases hj
        have hlt : ¬ c.candidateEnd ≤ c.sourceBegin + j := hlt
        change c.sourceBegin + j ≤ re
        omega
  · cases hj
    exact hpos

theorem simLoop_crosses (hv : c.Valid) (hl : Loaded p start m) {re : Nat} (hend : c.candidateEnd ≤ re + 1) (h : StopsBy icu p c re) :
    ∀ (fuel : Nat) {s : SimState}, SimRun icu p c s → s.pos ≤ re → (s.best ≠ none → s.bestEnd ≤ re) →
      (simLoop icu p c fuel s).best ≠ none → (simLoop icu p c fuel s).bestEnd ≤ re
  | 0, _, _, _, hbest => hbest
  | fuel + 1, s, hrun, hpos, hbest => by
    rcases simLoop_cases icu p c fuel s with ⟨hs, -⟩ | ⟨pos, hj, hlive, hrest⟩
    · rw [hs]
      exact hbest
    · have hin : pos ≤ re := simJump_le hend hpos hj
      have hscan : (simScan icu p c s pos).best ≠ none → (simScan icu p c s pos).bestEnd ≤ re := by
        rcases @simScan_found icu p c s pos with ⟨h1, h2⟩ | ⟨-, h2⟩
        · rw [h1, h2]
          exact hbest
        · rw [h2]
          exact fun _ => hin
      rcases hrest with ⟨hs, -⟩ | ⟨r, hr, hlt, hopen, hs⟩
      · rw [hs]
        exact hscan
      · have hadv : (simAdvance icu p c (simScan icu p c s pos) r).best ≠ none →
            (simAdvance icu p c (simScan icu p c s pos) r).bestEnd ≤ re := by
          rw [simAdvance_best, simAdvance_bestEnd]
          exact hscan
        by_cases hgo : (simAdvance icu p c (simScan icu p c s pos) r).best ≠ none ∧
            (simAdvance icu p c (simScan icu p c s pos) r).cur = []
        · rw [simLoop_pass fuel hlive hj hopen hr hlt, if_pos (by
            simpa [Option.isSome_iff_ne_none, and_comm] using hgo)]
          exact hadv
        · have hstep : SimStep icu p c s (simAdvance icu p c (simScan icu p c s pos) r) :=
            .pass hlive hj hopen hr hlt hgo
          rw [hs.resolve_left (fun h => hgo h.2)]
          by_cases hnext : r.next ≤ re
          · exact simLoop_crosses hv hl hend h fuel (hrun.tail hstep) (by rw [simAdvance_pos]; exact hnext) hadv
          · -- read over, with a list that is spent
            have hq := @simScan_queued icu p c hl.tables s pos (hrun.queued hv hl.tables).2 hj
            have hspec := simAdvance_spec icu c hl.tables hq.base r
            have hspent : Spent icu p c (simAdvance icu p c (simScan icu p c s pos) r) := by
              intro u hu hh
              rw [hspec.2.1] at hu
              rw [hspec.2.2.1] at hh
              obtain ⟨t, ht, -, hh⟩ := nextThreads_back hr hu hh
              exact h s pos r hrun hj hr hin (Nat.not_le.1 hnext) t ht (by rw [simScan_pos]; exact hh)
            obtain ⟨h1, h2⟩ := simLoop_spent (c := c) hl fuel hspec.1.toSimBase (by rw [simAdvance_pos]; omega) hv hspent
            rw [h1, h2]
            exact hadv

/-- **A loop answers by the position exactly when no pass reads over it with a thread that can still match.** -/
theorem simLoop_stops_iff (hv : c.Valid) (hl : Loaded p start m) {re : Nat} (hend : c.candidateEnd ≤ re + 1) :
    ((simLoop icu p c (simFuel c) (simInit p c)).best ≠ none →
      (simLoop icu p c (simFuel c) (simInit p c)).bestEnd ≤ re) ↔ StopsBy icu p c re := by
  have hfuel : ∀ s : SimState, SimRun icu p c s → c.recordEnd - s.pos < simFuel c := by
    intro s hs
    have := SimRun.pos_ge hv hs
    unfold simFuel
    omega
  constructor
  · intro h s pos r hrun hj hr hpos hnext t ht hh
    rw [simScan_pos] at hh
    have hq := (hrun.queued hv hl.tables).2
    have hscan := @simScan_queued icu p c hl.tables s pos hq hj
    have ha := simMatch_rejects _ t ht
    obtain ⟨u, hu, -, hu'⟩ := nextThreads_forth hv hl hscan.sorted hr ht hh (hscan.stays t ht) ha
    have hadv := simAdvance_spec icu c hl.tables hscan.base r
    rw [← hadv.2.1] at hu
    obtain ⟨-, hlt, hgt, -⟩ := contextRuneAtValidated_next hv hr
    have hlive : ¬ (s.cur = [] ∧ s.best = none ∧ c.candidateEnd ≤ s.pos) := by
      rintro ⟨hnil, -, hcand⟩
      have hge : s.pos ≤ pos := simJump_ge hj
      unfold simScan at ht
      rw [simSeed_idle (show c.candidateEnd ≤ ({ s with pos := pos } : SimState).pos from hcand.trans hge)] at ht
      have hin : t ∈ s.cur := @mem_of_simMatch p { s with pos := pos } t ht
      rw [hnil] at hin
      cases hin
    have hstep : SimStep icu p c s (simAdvance icu p c (simScan icu p c s pos) r) :=
      .pass hlive hj (fun h => (List.ne_nil_of_mem ht) h.2) hr hlt (fun h => (List.ne_nil_of_mem hu) h.2)
    have hrun' := hrun.tail hstep
    have hq' := (SimRun.queued hv hl.tables hrun').2
    have hat : (simAdvance icu p c (simScan icu p c s pos) r).pos = r.next := simAdvance_pos _ _
    obtain ⟨hbest, hge⟩ := simLoop_hopeful hv hl (simFuel c) hq' (hfuel _ hrun')
      (simJump_stays (Or.inl (List.ne_nil_of_mem hu))) ⟨u, mem_simSeed hl.tables hq'.base hu, by
        rw [hat]
        exact hu'⟩
    rw [← simLoop_run hv hrun' (simFuel c) (hfuel _ .refl)] at hbest hge
    have := h hbest
    omega
  · intro h
    by_cases hbegin : c.candidateBegin ≤ re
    · exact simLoop_crosses hv hl hend h (simFuel c) .refl hbegin (fun h => absurd rfl h)
    · -- no candidate is left
      have hcand := hv.candidate_le
      intro hbest
      rcases simLoop_cases icu p c (c.recordEnd - c.candidateBegin + 1) (simInit p c) with ⟨hs, -⟩ | ⟨-, -, hlive, -⟩
      · rw [show simFuel c = c.recordEnd - c.candidateBegin + 1 + 1 from rfl, hs] at hbest
        exact absurd rfl hbest
      · exact absurd ⟨rfl, rfl, show c.candidateEnd ≤ c.candidateBegin by omega⟩ hlive

/-! ## The search -/

variable (icu) in
theorem nfaSearchLoop_eq (hv : c.validate = true) (hstart : p.nfaStart.isNone = false) (fileId : Nat) :
    nfaSearchLoop icu p c fileId = (simLoop icu p c (simFuel c) (simInit p c)).best.map (fun t =>
      { fileId := fileId, start := t.start, stop := (simLoop icu p c (simFuel c) (simInit p c)).bestEnd,
        captures := matchCaptures p t.start (simLoop icu p c (simFuel c) (simInit p c)).bestEnd t.caps }) := by
  rw [nfaSearchLoop, hv, hstart]
  rfl

/-- **A search answers by the position exactly when no pass reads over it with a thread that can still match.** -/
theorem nfaSearchLoop_stops_iff (hv : c.Valid) (hl : Loaded p start m) {re : Nat} (hend : c.candidateEnd ≤ re + 1)
    (fileId : Nat) : (∀ r, nfaSearchLoop icu p c fileId = some r → r.stop ≤ re) ↔ StopsBy icu p c re := by
  have hstart : p.nfaStart.isNone = false := by
    rw [hl.start_eq]
    rfl
  rw [nfaSearchLoop_eq icu ((VerifierContext.validate_iff c).2 hv) hstart, ← simLoop_stops_iff hv hl hend]
  generalize simLoop icu p c (simFuel c) (simInit p c) = s
  constructor
  · intro h hbest
    obtain ⟨t, ht⟩ := Option.ne_none_iff_exists'.1 hbest
    exact h _ (by rw [ht]; rfl)
  · intro h r hr
    obtain ⟨t, ht, rfl⟩ := Option.map_eq_some_iff.1 hr
    exact h (by rw [ht]; exact Option.some_ne_none t)

theorem nfaSearchLoop_none_iff (hv : c.Valid) (hl : Loaded p start m) (fileId : Nat) :
    nfaSearchLoop icu p c fileId = none ↔ ∀ s pos, SimRun icu p c s → simJump p c s = some pos →
      ∀ t ∈ (simSeed icu p c { s with pos := pos }).cur, ¬ Hopeful icu p c pos t := by
  have hstart : p.nfaStart.isNone = false := by
    rw [hl.start_eq]
    rfl
  rw [nfaSearchLoop_eq icu ((VerifierContext.validate_iff c).2 hv) hstart, Option.map_eq_none_iff]
  have hfuel : ∀ s : SimState, SimRun icu p c s → c.recordEnd - s.pos < simFuel c := by
    intro s hs
    have := SimRun.pos_ge hv hs
    unfold simFuel
    omega
  constructor
  · intro hnone s pos hrun hj t ht hh
    obtain ⟨hbest, -⟩ := simLoop_hopeful hv hl (simFuel c) (hrun.queued hv hl.tables).2 (hfuel s hrun) hj ⟨t, ht, hh⟩
    rw [← simLoop_run hv hrun (simFuel c) (hfuel _ .refl)] at hbest
    exact hbest hnone
  · intro h
    have hseed : ∀ s : SimState, (simSeed icu p c s).best = s.best := by
      intro s
      unfold simSeed
      split <;> rfl
    have hscan : ∀ s pos, SimRun icu p c s → simJump p c s = some pos → (simScan icu p c s pos).best = s.best := by
      intro s pos hrun hj
      rw [simScan_spent (h s pos hrun hj), hseed]
    have hrest : ∀ s, SimRun icu p c s → s.best = none := by
      intro s hrun
      induction hrun with
      | refl => rfl
      | @tail s s' hrun hstep ih =>
        cases hstep with
        | pass _ hjump _ _ _ _ => rw [simAdvance_best, hscan s _ hrun hjump, ih]
    by_contra hsome
    obtain ⟨b, hb⟩ := Option.ne_none_iff_exists'.1 hsome
    have hinit : SimRun icu p c (simInit p c) := .refl
    obtain ⟨s, pos, hrun, hj, hbest, -⟩ :=
      simLoop_last hv hl (simFuel c) (hinit.queued hv hl.tables).2 (hfuel _ hinit) b hb
    rw [hscan s pos hrun hj, hrest s hrun] at hbest
    cases hbest

end

end Pergrep
