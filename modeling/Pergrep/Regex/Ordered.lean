import Pergrep.Regex.Contained
import Pergrep.Regex.LiteralScan
/-!
# Ordered — `regex_find_all` ends, and its matches stand in order

Every loop below `regex_find_all` moves on, so the fuel it is given is more than it uses (`loopsEnd`, `findAllLoop_fuel`):
two amounts of fuel that cover what a loop has before it give the same answer.  The matches start in the candidate range
and one after another, and without overlaps each starts where the one before it ended or later (`regexFindAll_ordered`).
-/
namespace Pergrep

open Throw

/-! ## Where threads start -/

section
variable {icu : Icu} {p : RegexProgram} {c : VerifierContext}

theorem threadNext_start {pos : Nat} {t : NfaThread} {us : List NfaThread} (h : threadNext icu p c pos t = some us) :
    ∀ u ∈ us, u.start = t.start := by
  unfold threadNext at h
  split at h
  · cases h
    exact fun u hu => by cases hu
  · split at h
    · cases h
      exact List.forall_mem_singleton.2 rfl
    · cases h
      exact List.forall_mem_cons.2 ⟨rfl, List.forall_mem_singleton.2 rfl⟩
    · cases h
      exact List.forall_mem_singleton.2 rfl
    · cases h
      exact List.forall_mem_singleton.2 rfl
    · cases h
      intro u hu
      split at hu
      · rw [List.mem_singleton.1 hu]
        rfl
      · cases hu
    · cases h
    · cases h
    · cases h
    · cases h

theorem addNfaThread_start {hi pos generation : Nat} {seed : NfaThread} (hseed : seed.start < hi) {list : List NfaThread}
    (hlist : ∀ t ∈ list, t.start < hi) (seen : List Nat) :
    ∀ t ∈ (addNfaThread icu p c pos seed generation list seen).1, t.start < hi := by
  unfold addNfaThread
  split
  · split
    · dsimp only
      generalize (p.closurePcs.take _).drop _ = row
      induction row generalizing list seen with
      | nil => exact hlist
      | cons k row ih =>
        rw [List.foldl_cons, addEntry]
        split
        · exact ih hlist seen
        · refine ih (fun t ht => ?_) _
          rcases List.mem_append.1 ht with ht | ht
          · exact hlist t ht
          · rw [List.mem_singleton.1 ht]
            exact hseed
    · exact Worklist.run_forall (fun t us ht hus u hu => by rw [threadNext_start hus u hu]; exact ht)
        (List.forall_mem_singleton.2 hseed) hlist
  · exact hlist

/-- All threads, and the best so far, start before the candidates end. -/
structure SimStarts (c : VerifierContext) (s : SimState) : Prop where
  cur : ∀ t ∈ s.cur, t.start < c.candidateEnd
  best : ∀ t, s.best = some t → t.start < c.candidateEnd

theorem simScan_starts {s : SimState} (h : SimStarts c s) (pos : Nat) : SimStarts c (simScan icu p c s pos) := by
  have hseed : SimStarts c (simSeed icu p c { s with pos := pos }) := by
    unfold simSeed
    split
    · rename_i hlt
      exact ⟨addNfaThread_start hlt h.cur _, h.best⟩
    · exact ⟨h.cur, h.best⟩
  unfold simScan simMatch
  split
  · exact hseed
  · exact ⟨fun t ht => hseed.cur t (List.mem_of_mem_take ht), fun t ht => hseed.cur t (List.mem_of_getElem? ht)⟩

theorem simAdvance_starts {s : SimState} (h : SimStarts c s) (r : Rune) : SimStarts c (simAdvance icu p c s r) := by
  have hcur : ∀ (cur : List NfaThread) (a : List NfaThread × List Nat), (∀ t ∈ cur, t.start < c.candidateEnd) →
      (∀ t ∈ a.1, t.start < c.candidateEnd) →
        ∀ t ∈ (cur.foldl (advanceThread icu p c r s.nextGeneration) a).1, t.start < c.candidateEnd := by
    intro cur
    induction cur with
    | nil => exact fun a _ ha => ha
    | cons t cur ih =>
      intro a hcur ha
      obtain ⟨ht, hcur⟩ := List.forall_mem_cons.1 hcur
      refine ih _ hcur ?_
      unfold advanceThread
      split
      · rename_i i _
        split
        · exact addNfaThread_start (show (t.goto i.x).start < c.candidateEnd from ht) ha _
        · exact ha
      · exact ha
  have hnext := hcur s.cur ([], s.seen) h.cur (fun t ht => by cases ht)
  unfold simAdvance
  dsimp only
  split
  · exact ⟨hnext, h.best⟩
  · exact ⟨hnext, h.best⟩

theorem simLoop_starts : ∀ (fuel : Nat) {s : SimState}, SimStarts c s → SimStarts c (simLoop icu p c fuel s)
  | 0, _, h => h
  | fuel + 1, s, h => by
    rcases simLoop_cases icu p c fuel s with ⟨hs, -⟩ | ⟨pos, -, -, ⟨hs, -⟩ | ⟨r, -, -, -, ⟨hs, -⟩ | hs⟩⟩
    · rw [hs]
      exact h
    · rw [hs]
      exact simScan_starts h pos
    · rw [hs]
      exact simAdvance_starts (simScan_starts h pos) r
    · rw [hs]
      exact simLoop_starts fuel (simAdvance_starts (simScan_starts h pos) r)

/-! ## Matches start at candidates -/

theorem nfaSearch_start (hv : c.Valid) {fid : Nat} {m : Match} (h : nfaSearch icu p c fid = some m) :
    m.start < c.candidateEnd := by
  unfold nfaSearch at h
  split at h
  · cases h
  split at h
  · obtain ⟨⟨s, e⟩, hse, rfl⟩ := Option.map_eq_some_iff.1 h
    have := (literalScan_some hv (Nat.min_le_right _ _) _ hv.candidate_ge hse).2.1
    exact Nat.lt_of_lt_of_le this (Nat.min_le_left _ _)
  · obtain ⟨t, ht, rfl⟩ := Option.map_eq_some_iff.1 h
    have hinit : SimStarts c (simInit p c) := ⟨fun t ht => (by cases ht), fun t ht => (by cases ht)⟩
    exact (simLoop_starts (simFuel c) hinit).best t ht

theorem evalSearch_start {fid : Nat} {m : Match} : ∀ {fuel st : Nat}, evalSearch icu p c fid fuel st = .ok (some m) →
    m.start < c.candidateEnd
  | 0, _, h => by cases h
  | fuel + 1, st, h => by
    rw [evalSearch] at h
    split at h
    · rename_i hst
      obtain ⟨v, -, h⟩ := bind_ok h
      split at h
      · cases h
        exact hst
      · split at h
        · cases h
        · exact evalSearch_start h
    · cases h

/-- **A match of a search**: from a candidate on, and forward. -/
theorem regexSearch_candidate {fid : Nat} {m : Match} (h : regexSearch icu p c fid = .ok (some m)) :
    c.candidateBegin ≤ m.start ∧ m.start < c.candidateEnd ∧ m.start ≤ m.stop := by
  have hval : c.validate = true := by
    by_contra hno
    rw [Bool.not_eq_true] at hno
    simp [regexSearch, hno] at h
  have hv := (VerifierContext.validate_iff c).1 hval
  obtain ⟨⟨h1, h2, -⟩, -⟩ := regexSearch_within hv.reads h
  refine ⟨h1, ?_, h2⟩
  unfold regexSearch at h
  rw [hval, Bool.not_true, if_neg (by decide)] at h
  split at h
  · exact nfaSearch_start hv (Except.ok.inj h)
  · exact evalSearch_start h

/-! ## In order -/

theorem afterMatch_gt {overlapping : Bool} {m : Match} (h : m.start ≤ m.stop) :
    m.start < afterMatch c overlapping m ∧ (overlapping = false → m.stop ≤ afterMatch c overlapping m) := by
  unfold afterMatch
  split
  · rename_i hmove
    exact ⟨hmove.2, fun _ => Nat.le_refl _⟩
  · rename_i hstay
    refine ⟨stepStart_gt c m.start, fun hov => ?_⟩
    -- an empty match
    have hempty : m.start = m.stop := by
      by_contra hne
      exact hstay ⟨by rw [hov]; rfl, by omega⟩
    rw [← hempty]
    exact Nat.le_of_lt (stepStart_gt c m.start)

/-- Matches one after another in the candidate range, from `lo` on. -/
structure InOrder (c : VerifierContext) (overlapping : Bool) (lo : Nat) (ms : List Match) : Prop where
  range : ∀ m ∈ ms, lo ≤ m.start ∧ m.start < c.candidateEnd ∧ m.start ≤ m.stop
  starts : ms.Pairwise (fun a b => a.start < b.start)
  apart : overlapping = false → ms.Pairwise (fun a b => a.stop ≤ b.start)

theorem InOrder.nil {overlapping : Bool} {lo : Nat} : InOrder c overlapping lo [] :=
  ⟨fun m hm => (by cases hm), List.Pairwise.nil, fun _ => List.Pairwise.nil⟩

theorem findAllLoop_ordered {overlapping : Bool} {fid maxMatches : Nat} : ∀ {fuel count pos : Nat} {ms : List Match},
    findAllLoop icu p c overlapping fid maxMatches fuel count pos = .ok ms → InOrder c overlapping pos ms
  | 0, _, _, ms, h => by
    cases h
    exact .nil
  | fuel + 1, count, pos, ms, h => by
    rw [findAllLoop] at h
    split at h
    · obtain ⟨r, hr, h⟩ := bind_ok h
      cases r with
      | none =>
        cases h
        exact .nil
      | some m =>
        obtain ⟨h1, h2, h3⟩ := regexSearch_candidate hr
        dsimp only at h h1 h2
        split at h
        · cases h
          exact ⟨List.forall_mem_singleton.2 ⟨h1, h2, h3⟩, List.pairwise_singleton _ _, fun _ => List.pairwise_singleton _ _⟩
        · obtain ⟨rest, hrest, h⟩ := bind_ok h
          cases h
          obtain ⟨hgt, hge⟩ := @afterMatch_gt c overlapping m h3
          have ih := findAllLoop_ordered hrest
          refine ⟨List.forall_mem_cons.2 ⟨⟨h1, h2, h3⟩, fun b hb => ?_⟩, List.pairwise_cons.2 ⟨fun b hb => ?_, ih.starts⟩,
            fun hov => List.pairwise_cons.2 ⟨fun b hb => ?_, ih.apart hov⟩⟩
          · obtain ⟨i1, i2, i3⟩ := ih.range b hb
            exact ⟨by omega, i2, i3⟩
          · exact Nat.lt_of_lt_of_le hgt (ih.range b hb).1
          · exact (hge hov).trans (ih.range b hb).1
    · cases h
      exact .nil

/-! ## The loops end -/

theorem expand_fuel (pos generation : Nat) (seed : NfaThread) (list : List NfaThread) {seen : List Nat}
    (hseen : seen.length = p.nfa.length) {fuel fuel' : Nat} (h : expandFuel p.nfa ≤ fuel) (h' : expandFuel p.nfa ≤ fuel') :
    Worklist.run (threadKey p) (threadNext icu p c pos) (fun seen k => seen.getD k 0 == generation)
        (fun seen k => seen.set k generation) fuel [seed] seen list =
      Worklist.run (threadKey p) (threadNext icu p c pos) (fun seen k => seen.getD k 0 == generation)
        (fun seen k => seen.set k generation) fuel' [seed] seen list := by
  have hun := Worklist.unmarked_le (fun (seen : List Nat) k => seen.getD k 0 == generation) p.nfa.length seen
  rw [expandFuel] at h h'
  refine Worklist.run_fuel (threadKey p) (threadNext icu p c pos) _ _ (fun seen : List Nat => seen.length = p.nfa.length)
    (fun t k hk => threadKey_lt hk) (fun s k hs hk => ⟨by rw [List.length_set, hs], fun j => ?_⟩)
    (fun t us hus => threadNext_length hus) fuel fuel' [seed] seen list hseen (by rw [List.length_singleton]; omega)
    (by rw [List.length_singleton]; omega)
  -- the mark is in range, so it is set
  simp only [List.getD_eq_getElem?_getD, List.getElem?_set, beq_iff_eq]
  by_cases hj : k = j
  · subst hj
    simp [hs, hk]
  · rw [if_neg hj]
    exact ⟨Or.inr, fun h => h.resolve_left (fun e => hj e.symm)⟩

theorem contextLiteralAt_fuel (lit : Bytes) (icase : Bool) : ∀ (fuel fuel' tp lp : Nat), lit.length - lp < fuel →
    lit.length - lp < fuel' → contextLiteralAt icu c lit icase fuel tp lp = contextLiteralAt icu c lit icase fuel' tp lp
  | 0, _, _, _, h, _ => absurd h (Nat.not_lt_zero _)
  | _, 0, _, _, _, h => absurd h (Nat.not_lt_zero _)
  | fuel + 1, fuel' + 1, tp, lp, h, h' => by
    rw [contextLiteralAt, contextLiteralAt]
    split
    · split
      · rename_i a b _ hb
        have := (runeAt_next hb).1
        split
        · exact contextLiteralAt_fuel lit icase fuel fuel' a.next b.next (by omega) (by omega)
        · rfl
      · rfl
    · rfl

theorem lookBehindAny_fuel (f : VmState → Eval (List VmState)) (s : VmState) : ∀ (fuel fuel' q : Nat), s.pos - q < fuel →
    s.pos - q < fuel' → lookBehindAny c f s fuel q = lookBehindAny c f s fuel' q
  | 0, _, _, h, _ => absurd h (Nat.not_lt_zero _)
  | _, 0, _, _, h => absurd h (Nat.not_lt_zero _)
  | fuel + 1, fuel' + 1, q, h, h' => by
    have hstep := stepStart_gt c q
    rw [lookBehindAny, lookBehindAny]
    split
    · rfl
    · refine bind_congr (fun v => ?_)
      split
      · rfl
      · split
        · rfl
        · exact lookBehindAny_fuel f s fuel fuel' (stepStart c q) (by omega) (by omega)

theorem lookBehindAll_fuel (f : VmState → Eval (List VmState)) (s : VmState) : ∀ (fuel fuel' q : Nat), s.pos - q < fuel →
    s.pos - q < fuel' → lookBehindAll c f s fuel q = lookBehindAll c f s fuel' q
  | 0, _, _, h, _ => absurd h (Nat.not_lt_zero _)
  | _, 0, _, _, h => absurd h (Nat.not_lt_zero _)
  | fuel + 1, fuel' + 1, q, h, h' => by
    have hstep := stepStart_gt c q
    rw [lookBehindAll, lookBehindAll]
    split
    · rfl
    · refine bind_congr (fun v => ?_)
      dsimp only
      split
      · rfl
      · rw [lookBehindAll_fuel f s fuel fuel' (stepStart c q) (by omega) (by omega)]

theorem evalSearch_fuel (fid : Nat) : ∀ (fuel fuel' st : Nat), c.candidateEnd - st < fuel → c.candidateEnd - st < fuel' →
    evalSearch icu p c fid fuel st = evalSearch icu p c fid fuel' st
  | 0, _, _, h, _ => absurd h (Nat.not_lt_zero _)
  | _, 0, _, _, h => absurd h (Nat.not_lt_zero _)
  | fuel + 1, fuel' + 1, st, h, h' => by
    have hstep := stepStart_gt c st
    rw [evalSearch, evalSearch]
    split
    · refine bind_congr (fun v => ?_)
      split
      · rfl
      · split
        · rfl
        · exact evalSearch_fuel fid fuel fuel' (stepStart c st) (by omega) (by omega)
    · rfl

theorem skipAscii_fuel (scanEnd : Nat) : ∀ (fuel fuel' pos : Nat), scanEnd - pos ≤ fuel → scanEnd - pos ≤ fuel' →
    skipAscii c scanEnd fuel pos = skipAscii c scanEnd fuel' pos
  | 0, 0, _, _, _ => rfl
  | 0, fuel' + 1, pos, h, _ => by rw [skipAscii, skipAscii, if_neg (by omega)]
  | fuel + 1, 0, pos, _, h => by rw [skipAscii, skipAscii, if_neg (by omega)]
  | fuel + 1, fuel' + 1, pos, h, h' => by
    rw [skipAscii, skipAscii]
    split
    · split
      · rfl
      · split
        · rfl
        · exact skipAscii_fuel scanEnd fuel fuel' (pos + 1) (by omega) (by omega)
    · rfl

theorem literalScan_fuel (hv : c.Valid) (lit : List Nat) (scanEnd : Nat) : ∀ (fuel fuel' pos : Nat), scanEnd - pos < fuel →
    scanEnd - pos < fuel' → literalScan icu c lit scanEnd fuel pos = literalScan icu c lit scanEnd fuel' pos
  | 0, _, _, h, _ => absurd h (Nat.not_lt_zero _)
  | _, 0, _, _, h => absurd h (Nat.not_lt_zero _)
  | fuel + 1, fuel' + 1, pos, h, h' => by
    have hge : pos ≤ scanPos c lit scanEnd pos := by
      rw [scanPos]
      split
      · exact skipAscii_ge _ _ _
      · exact Nat.le_refl _
    rw [literalScan_succ, literalScan_succ]
    split
    · split
      · rfl
      · split
        · rfl
        · split
          · rename_i r hr
            have := (contextRuneAtValidated_next hv hr).2.2.1
            exact literalScan_fuel hv lit scanEnd fuel fuel' r.next (by omega) (by omega)
          · rfl
    · rfl

theorem simJump_ge {s : SimState} {pos : Nat} (h : simJump p c s = some pos) : s.pos ≤ pos := by
  unfold simJump at h
  split at h
  · split at h
    · cases h
    · rename_i j hj
      have := nextJump_ge hj
      split at h
      · cases h
      · cases h
        omega
  · cases h
    exact Nat.le_refl _

theorem simLoop_fuel (hv : c.Valid) : ∀ (fuel fuel' : Nat) (s : SimState), c.recordEnd - s.pos < fuel →
    c.recordEnd - s.pos < fuel' → simLoop icu p c fuel s = simLoop icu p c fuel' s
  | 0, _, _, h, _ => absurd h (Nat.not_lt_zero _)
  | _, 0, _, _, h => absurd h (Nat.not_lt_zero _)
  | fuel + 1, fuel' + 1, s, h, h' => by
    rw [simLoop, simLoop]
    split
    · rfl
    · split
      · rfl
      · rename_i pos hj
        have hge := simJump_ge hj
        have hpos : (simMatch p (simSeed icu p c { s with pos := pos })).pos = pos := by
          unfold simSeed
          rw [simMatch_pos]
          split
          · rfl
          · rfl
        dsimp only
        rw [hpos]
        split
        · rfl
        · split
          · rfl
          · split
            · rfl
            · rename_i r hr
              have hlt := (contextRuneAtValidated_next hv hr).2.2.1
              have hnext : (simAdvance icu p c (simMatch p (simSeed icu p c { s with pos := pos })) r).pos = r.next := by
                unfold simAdvance
                dsimp only
                split
                · rfl
                · rfl
              split
              · rfl
              · exact simLoop_fuel hv fuel fuel' _ (by rw [hnext]; omega) (by rw [hnext]; omega)

theorem findAllLoop_fuel (overlapping : Bool) (fid maxMatches : Nat) : ∀ (fuel fuel' count pos : Nat),
    c.candidateEnd - pos < fuel → c.candidateEnd - pos < fuel' →
      findAllLoop icu p c overlapping fid maxMatches fuel count pos = findAllLoop icu p c overlapping fid maxMatches fuel' count pos
  | 0, _, _, _, h, _ => absurd h (Nat.not_lt_zero _)
  | _, 0, _, _, _, h => absurd h (Nat.not_lt_zero _)
  | fuel + 1, fuel' + 1, count, pos, h, h' => by
    rw [findAllLoop, findAllLoop]
    split
    · cases hr : regexSearch icu p { c with candidateBegin := pos } fid with
      | error e => rfl
      | ok r =>
        cases r with
        | none => rfl
        | some m =>
          obtain ⟨h1, -, h3⟩ := regexSearch_candidate hr
          have hgt := (@afterMatch_gt c overlapping m h3).1
          dsimp only at h1
          change (if _ then _ else _) = (if _ then _ else _)
          split
          · rfl
          · rw [findAllLoop_fuel overlapping fid maxMatches fuel fuel' (count + 1) (afterMatch c overlapping m) (by omega)
              (by omega)]
    · rfl

end

/-- The loops of both engines on a context: more fuel than they are given changes nothing. -/
structure LoopsEnd (icu : Icu) (p : RegexProgram) (c : VerifierContext) (fid : Nat) : Prop where
  expand : ∀ (pos generation : Nat) (seed : NfaThread) (list : List NfaThread) (seen : List Nat) (fuel : Nat),
    seen.length = p.nfa.length → expandFuel p.nfa ≤ fuel →
    Worklist.run (threadKey p) (threadNext icu p c pos) (fun seen k => seen.getD k 0 == generation)
        (fun seen k => seen.set k generation) fuel [seed] seen list =
      Worklist.run (threadKey p) (threadNext icu p c pos) (fun seen k => seen.getD k 0 == generation)
        (fun seen k => seen.set k generation) (expandFuel p.nfa) [seed] seen list
  sim : c.Valid → ∀ fuel, simFuel c ≤ fuel → simLoop icu p c fuel (simInit p c) = simLoop icu p c (simFuel c) (simInit p c)
  scan : c.Valid → ∀ (lit : List Nat) (fuel : Nat), simFuel c ≤ fuel →
    literalScan icu c lit (min c.candidateEnd c.recordEnd) fuel c.candidateBegin =
      literalScan icu c lit (min c.candidateEnd c.recordEnd) (simFuel c) c.candidateBegin
  skip : ∀ scanEnd pos fuel : Nat, scanEnd - pos ≤ fuel → skipAscii c scanEnd fuel pos = skipAscii c scanEnd (scanEnd - pos) pos
  literal : ∀ (lit : Bytes) (icase : Bool) (pos fuel : Nat), lit.length + 1 ≤ fuel →
    contextLiteralAt icu c lit icase fuel pos 0 = contextLiteralAt icu c lit icase (lit.length + 1) pos 0
  lookBehind : ∀ (f : VmState → Eval (List VmState)) (s : VmState) (lo fuel : Nat), s.pos - lo + 1 ≤ fuel →
    lookBehindAny c f s fuel lo = lookBehindAny c f s (s.pos - lo + 1) lo ∧
      lookBehindAll c f s fuel lo = lookBehindAll c f s (s.pos - lo + 1) lo
  search : ∀ fuel, c.candidateEnd - c.candidateBegin + 1 ≤ fuel →
    evalSearch icu p c fid fuel c.candidateBegin =
      evalSearch icu p c fid (c.candidateEnd - c.candidateBegin + 1) c.candidateBegin

/-- **Every loop below `regex_find_all` ends.** -/
theorem loopsEnd (icu : Icu) (p : RegexProgram) (c : VerifierContext) (fid : Nat) : LoopsEnd icu p c fid where
  expand pos generation seed list seen fuel hseen h := expand_fuel pos generation seed list hseen h (Nat.le_refl _)
  sim hv fuel h := by
    have hpos : (simInit p c).pos = c.candidateBegin := rfl
    rw [simFuel] at h ⊢
    exact simLoop_fuel hv fuel _ _ (by omega) (by omega)
  scan hv lit fuel h := by
    rw [simFuel] at h ⊢
    exact literalScan_fuel hv lit _ fuel _ _ (by omega) (by omega)
  skip scanEnd pos fuel h := skipAscii_fuel scanEnd fuel _ pos h (Nat.le_refl _)
  literal lit icase pos fuel h := contextLiteralAt_fuel lit icase fuel _ pos 0 (by omega) (by omega)
  lookBehind f s lo fuel h :=
    ⟨lookBehindAny_fuel f s fuel _ lo (by omega) (by omega), lookBehindAll_fuel f s fuel _ lo (by omega) (by omega)⟩
  search fuel h := evalSearch_fuel fid fuel _ _ (by omega) (by omega)

/-- **Match enumeration ends and is in order.**  Whatever the program, the context and the mode: all loops end before
their fuel does, and what is returned, no limit thrown, starts at candidates, in order. -/
theorem regexFindAll_ordered (icu : Icu) (p : RegexProgram) (c : VerifierContext) (overlapping : Bool) (fid maxMatches : Nat) :
    (∀ c', LoopsEnd icu p c' fid) ∧
      (∀ fuel, c.candidateEnd - c.candidateBegin + 1 ≤ fuel →
        findAllLoop icu p c overlapping fid maxMatches fuel 0 c.candidateBegin =
          regexFindAll icu p c overlapping fid maxMatches) ∧
      ∀ ms, regexFindAll icu p c overlapping fid maxMatches = .ok ms → InOrder c overlapping c.candidateBegin ms :=
  ⟨fun c' => loopsEnd icu p c' fid,
    fun fuel h => findAllLoop_fuel overlapping fid maxMatches fuel _ 0 _ (by omega) (by omega),
    fun _ h => findAllLoop_ordered h⟩

end Pergrep
