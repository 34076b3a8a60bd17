import Pergrep.Lib.Throw
import Pergrep.Regex.SimLoop
import Pergrep.Regex.Vm
/-!
# Contained — matches lie in their record

Both engines compare the start of a rune with the end of the record, not its end.  They read nothing past `hi` when no
rune of the record ends there (`VerifierContext.Reads`), which is the end of the record where no rune straddles it
(`VerifierContext.Fits`): what `eval` leads to stays in the record (`eval_ahead`), the
threads of the simulation do, with all they saved (`simLoop_within`), and so do the matches (`regexSearch_within`).  What
a match of the simulation captures never ends after it.
-/
namespace Pergrep

open Throw

/-- No rune that starts in the record ends after it. -/
def VerifierContext.Fits (c : VerifierContext) : Prop :=
  ∀ pos r, c.recordBegin ≤ pos → pos < c.recordEnd → sourceRuneAt c pos = some r → r.next ≤ c.recordEnd

/-- The runes that start in the record, and the record, end at or before `hi`. -/
structure VerifierContext.Reads (c : VerifierContext) (hi : Nat) : Prop where
  recordEnd_le : c.recordEnd ≤ hi
  next_le : ∀ pos r, c.recordBegin ≤ pos → pos < c.recordEnd → sourceRuneAt c pos = some r → r.next ≤ hi

theorem VerifierContext.Fits.reads {c : VerifierContext} (h : c.Fits) : c.Reads c.recordEnd := ⟨Nat.le_refl _, h⟩

theorem VerifierContext.Valid.reads {c : VerifierContext} (hv : c.Valid) : c.Reads c.sourceEnd := by
  refine ⟨hv.record_end, fun pos r hlo _ hr => ?_⟩
  have h1 := hv.record_ge
  have h2 := hv.source_size
  have h3 := hv.source_le
  have := (sourceRuneAt_next (by omega) hr).2.1
  omega

/-! ## Runes -/

section
variable {hi : Nat}

theorem contextRuneAt_reads {c : VerifierContext} (hc : c.Reads hi) {pos : Nat} {r : Rune} (h : contextRuneAt c pos = some r) :
    pos < r.next ∧ r.next ≤ hi := by
  unfold contextRuneAt at h
  split at h
  · cases h
  · rename_i hin
    simp only [Bool.or_eq_true, Bool.not_eq_true', decide_eq_true_eq, not_or, Bool.not_eq_false, Nat.not_lt,
      Nat.not_le] at hin
    obtain ⟨⟨⟨hval, hlo⟩, hhi⟩, -⟩ := hin
    have hv := (VerifierContext.validate_iff c).1 hval
    have hsb := hv.record_ge
    split at h
    · rename_i r' hr
      split at h
      · cases h
      · cases h
        exact ⟨(sourceRuneAt_next (by omega) hr).1, hc.next_le pos r hlo hhi hr⟩
    · cases h

theorem contextRuneAt_next {c : VerifierContext} {pos : Nat} {r : Rune} (h : contextRuneAt c pos = some r) : pos < r.next := by
  have hv : c.validate = true := by
    by_contra hno
    simp [contextRuneAt, hno] at h
  exact (contextRuneAt_reads ((VerifierContext.validate_iff c).1 hv).reads h).1

theorem contextRuneAtValidated_reads {c : VerifierContext} (hv : c.Valid) (hc : c.Reads hi) {pos : Nat} {r : Rune}
    (h : contextRuneAtValidated c pos = some r) : c.recordBegin ≤ pos ∧ pos < r.next ∧ r.next ≤ hi := by
  obtain ⟨h1, h2, h3, -⟩ := contextRuneAtValidated_next hv h
  refine ⟨h1, h3, ?_⟩
  unfold contextRuneAtValidated at h
  rw [if_neg (by omega)] at h
  dsimp only at h
  have general : ∀ {x y : Rune}, sourceRuneAt c pos = some x →
      (if c.boundedRegion ∧ c.regionEnd < x.next then none else some x) = some y → y.next ≤ hi := by
    intro x y hx hg
    split at hg
    · cases hg
    · cases hg
      exact hc.next_le pos x h1 h2 hx
  have ascii : ∀ {q : Prop} [Decidable q] {b : Nat} {y : Rune},
      (if q then some (⟨b, pos + 1⟩ : Rune) else none) = some y → y.next ≤ hi := by
    intro q _ b y hy
    split at hy
    · cases hy
      exact Nat.le_trans h2 hc.recordEnd_le
    · cases hy
  cases hs : sourceRuneAt c pos with
  | none =>
    rw [hs] at h
    split at h
    · split at h
      · exact ascii h
      · cases h
    · cases h
  | some x =>
    rw [hs] at h
    split at h
    · split at h
      · exact ascii h
      · exact general hs h
    · exact general hs h

/-! ## The backtracking engine -/

/-- The state is not before `p`, nor past the record. -/
def Ahead (hi p : Nat) (z : VmState) : Prop := p ≤ z.pos ∧ z.pos ≤ hi

theorem Ahead.trans {hi p : Nat} {s z : VmState} (hs : Ahead hi p s) (hz : Ahead hi s.pos z) :
    Ahead hi p z := ⟨hs.1.trans hz.1, hz.2⟩

/-- A computation that goes ahead from each state of the record. -/
def GoesAhead (hi : Nat) (f : VmState → Eval (List VmState)) : Prop :=
  ∀ s v, s.pos ≤ hi → f s = .ok v → ∀ z ∈ v, Ahead hi s.pos z

theorem limitStates_ok {out v : List VmState} (h : limitStates out = .ok v) : v = out := by
  unfold limitStates at h
  split at h
  · cases h
  · cases h
    rfl

section
variable {hi : Nat} {f : VmState → Eval (List VmState)} {p : Nat} (hf : GoesAhead hi f)
include hf

theorem expandAll_ahead : ∀ {cur next v : List VmState}, (∀ z ∈ cur, Ahead hi p z) → (∀ z ∈ next, Ahead hi p z) →
    expandAll f cur next = .ok v → ∀ z ∈ v, Ahead hi p z
  | [], _, _, _, hnext, h => by
    cases h
    exact hnext
  | st :: cur, next, v, hcur, hnext, h => by
    rw [expandAll] at h
    obtain ⟨w, hw, h⟩ := bind_ok h
    obtain ⟨out, hout, h⟩ := bind_ok h
    obtain rfl := limitStates_ok hout
    obtain ⟨hst, hcur⟩ := List.forall_mem_cons.1 hcur
    refine expandAll_ahead hcur (fun z hz => ?_) h
    rcases List.mem_append.1 hz with hz | hz
    · exact hnext z hz
    · exact hst.trans (hf st w hst.2 hw z hz)

theorem repeatNext_ahead : ∀ {cur v : List VmState}, (∀ z ∈ cur, Ahead hi p z) → repeatNext f cur = .ok v →
    ∀ z ∈ v, Ahead hi p z
  | [], _, _, h => by
    cases h
    exact fun z hz => by cases hz
  | st :: cur, v, hcur, h => by
    rw [repeatNext] at h
    obtain ⟨w, hw, h⟩ := bind_ok h
    obtain ⟨rest, hrest, h⟩ := bind_ok h
    cases h
    obtain ⟨hst, hcur⟩ := List.forall_mem_cons.1 hcur
    intro z hz
    rcases List.mem_append.1 hz with hz | hz
    · exact hst.trans (hf st w hst.2 hw z (List.mem_of_mem_filter hz))
    · exact repeatNext_ahead hcur hrest z hz

theorem repeatLevels_ahead : ∀ {limit total : Nat} {cur : List VmState} {levels : List (List VmState)},
    (∀ z ∈ cur, Ahead hi p z) → repeatLevels f limit cur total = .ok levels → ∀ l ∈ levels, ∀ z ∈ l, Ahead hi p z
  | 0, _, _, _, _, h => by
    cases h
    exact fun l hl => by cases hl
  | limit + 1, total, cur, levels, hcur, h => by
    rw [repeatLevels] at h
    obtain ⟨next, hnext, h⟩ := bind_ok h
    have hahead := repeatNext_ahead hf hcur hnext
    split at h
    · cases h
      exact fun l hl => by cases hl
    split at h
    · cases h
    · obtain ⟨rest, hrest, h⟩ := bind_ok h
      cases h
      exact List.forall_mem_cons.2 ⟨hahead, repeatLevels_ahead hahead hrest⟩

end

theorem lookBehindAll_pos {c : VerifierContext} {f : VmState → Eval (List VmState)} {s : VmState} :
    ∀ {fuel p : Nat} {v : List VmState}, lookBehindAll c f s fuel p = .ok v → ∀ z ∈ v, z.pos = s.pos
  | 0, _, _, h => by
    cases h
    exact fun z hz => by cases hz
  | fuel + 1, p, v, h => by
    rw [lookBehindAll] at h
    split at h
    · cases h
      exact fun z hz => by cases hz
    · obtain ⟨w, -, h⟩ := bind_ok h
      have hhere : ∀ z ∈ w.filter (fun z => z.pos == s.pos), z.pos = s.pos := fun z hz => by
        simpa using (List.mem_filter.1 hz).2
      dsimp only at h
      split at h
      · cases h
        exact hhere
      · obtain ⟨rest, hrest, h⟩ := bind_ok h
        cases h
        intro z hz
        rcases List.mem_append.1 hz with hz | hz
        · exact hhere z hz
        · exact lookBehindAll_pos hrest z hz

section
variable {icu : Icu} {c : VerifierContext} (hc : c.Reads hi)
include hc

theorem contextLiteralAt_ahead {lit : Bytes} {icase : Bool} : ∀ {fuel tp lp e : Nat}, tp ≤ hi →
    contextLiteralAt icu c lit icase fuel tp lp = some e → tp ≤ e ∧ e ≤ hi
  | 0, tp, _, e, htp, h => by
    cases h
    exact ⟨Nat.le_refl _, htp⟩
  | fuel + 1, tp, lp, e, htp, h => by
    rw [contextLiteralAt] at h
    split at h
    · split at h
      · rename_i a b ha hb
        obtain ⟨h1, h2⟩ := contextRuneAt_reads hc ha
        split at h
        · obtain ⟨h3, h4⟩ := contextLiteralAt_ahead h2 h
          exact ⟨by omega, h4⟩
        · cases h
      · cases h
    · cases h
      exact ⟨Nat.le_refl _, htp⟩

theorem evalLiteral_ahead {lit : Bytes} {icase : Bool} {s : VmState} (hs : s.pos ≤ hi) :
    ∀ z ∈ evalLiteral icu c lit icase s, Ahead hi s.pos z := by
  unfold evalLiteral
  split
  · rename_i e he
    intro z hz
    rw [List.mem_singleton.1 hz]
    exact contextLiteralAt_ahead hc hs he
  · exact fun z hz => by cases hz

theorem evalRune_ahead {test : Nat → Bool} {s : VmState} : ∀ z ∈ evalRune c test s, Ahead hi s.pos z := by
  unfold evalRune
  split
  · rename_i r hr
    obtain ⟨h1, h2⟩ := contextRuneAt_reads hc hr
    split
    · intro z hz
      rw [List.mem_singleton.1 hz]
      exact ⟨Nat.le_of_lt h1, h2⟩
    · exact fun z hz => by cases hz
  · exact fun z hz => by cases hz

end

theorem ahead_self {s : VmState} (hs : s.pos ≤ hi) : Ahead hi s.pos s :=
  ⟨Nat.le_refl _, hs⟩

mutual
/-- **What `eval` leads to lies ahead, in the record.** -/
theorem eval_ahead {icu : Icu} {c : VerifierContext} (hc : c.Reads hi) : ∀ (n : RegexNode) (depth : Nat),
    GoesAhead hi (eval icu n c depth)
  | n, depth, s, v, hs, h => by
    rw [eval.eq_def] at h
    dsimp only at h
    split at h
    · cases h
    match n with
    | .empty _ =>
      cases h
      exact List.forall_mem_singleton.2 (ahead_self hs)
    | .literal f l =>
      cases h
      exact evalLiteral_ahead hc hs
    | .dot f =>
      cases h
      exact evalRune_ahead hc
    | .cls f cls =>
      cases h
      exact evalRune_ahead hc
    | .assert f k =>
      cases h
      intro z hz
      split at hz
      · rw [List.mem_singleton.1 hz]
        exact ahead_self hs
      · cases hz
    | .concat _ cs => exact evalConcat_ahead hc cs _ _ _ (List.forall_mem_singleton.2 (ahead_self hs)) h
    | .alt _ cs => exact evalAlt_ahead hc cs _ _ _ hs (fun z hz => by cases hz) h
    | .group _ g _ ch =>
      obtain ⟨w, hw, h⟩ := bind_ok h
      cases h
      intro z hz
      obtain ⟨z', hz', rfl⟩ := List.mem_map.1 hz
      exact eval_ahead hc ch _ s w hs hw z' hz'
    | .backRef f g =>
      dsimp only at h
      split at h
      · cases h
        exact evalLiteral_ahead hc hs
      · cases h
        exact fun z hz => by cases hz
    | .lookAhead _ negative ch =>
      obtain ⟨w, -, h⟩ := bind_ok h
      split at h
      · cases h
        intro z hz
        split at hz
        · rw [List.mem_singleton.1 hz]
          exact ahead_self hs
        · cases hz
      · cases h
        intro z hz
        obtain ⟨z', -, rfl⟩ := List.mem_map.1 hz
        exact ahead_self hs
    | .lookBehind _ negative ch =>
      dsimp only at h
      split at h
      · obtain ⟨ok, -, h⟩ := bind_ok h
        cases h
        intro z hz
        split at hz
        · cases hz
        · rw [List.mem_singleton.1 hz]
          exact ahead_self hs
      · intro z hz
        have := lookBehindAll_pos h z hz
        exact ⟨by omega, by omega⟩
    | .repeat_ _ mn mx greedy ch =>
      obtain ⟨rest, hrest, h⟩ := bind_ok h
      have hstart : ∀ z ∈ [s], Ahead hi s.pos z := List.forall_mem_singleton.2 (ahead_self hs)
      have hlevels : ∀ l ∈ ([s] :: rest).drop mn, ∀ z ∈ l, Ahead hi s.pos z := fun l hl =>
        List.forall_mem_cons.2 ⟨hstart, repeatLevels_ahead (eval_ahead hc ch _) hstart hrest⟩ l (List.mem_of_mem_drop hl)
      rw [limitStates_ok h]
      intro z hz
      split at hz
      · obtain ⟨l, hl, hz⟩ := List.mem_flatten.1 hz
        exact hlevels l (List.mem_reverse.1 hl) z hz
      · obtain ⟨l, hl, hz⟩ := List.mem_flatten.1 hz
        exact hlevels l hl z hz

theorem evalConcat_ahead {icu : Icu} {c : VerifierContext} (hc : c.Reads hi) {p : Nat} : ∀ (ns : List RegexNode) (depth : Nat)
    (cur v : List VmState), (∀ z ∈ cur, Ahead hi p z) → evalConcat icu ns c depth cur = .ok v → ∀ z ∈ v, Ahead hi p z
  | [], _, _, _, hcur, h => by
    cases h
    exact hcur
  | n :: ns, depth, cur, v, hcur, h => by
    rw [evalConcat] at h
    obtain ⟨next, hnext, h⟩ := bind_ok h
    split at h
    · cases h
      exact fun z hz => by cases hz
    · exact evalConcat_ahead hc ns depth next v
        (expandAll_ahead (eval_ahead hc n depth) hcur (fun z hz => by cases hz) hnext) h

theorem evalAlt_ahead {icu : Icu} {c : VerifierContext} (hc : c.Reads hi) {s : VmState} : ∀ (ns : List RegexNode) (depth : Nat)
    (out v : List VmState), s.pos ≤ hi → (∀ z ∈ out, Ahead hi s.pos z) → evalAlt icu ns c depth s out = .ok v →
      ∀ z ∈ v, Ahead hi s.pos z
  | [], _, _, _, _, hout, h => by
    cases h
    exact hout
  | n :: ns, depth, out, v, hs, hout, h => by
    rw [evalAlt] at h
    obtain ⟨w, hw, h⟩ := bind_ok h
    obtain ⟨out', hout', h⟩ := bind_ok h
    obtain rfl := limitStates_ok hout'
    refine evalAlt_ahead hc ns depth _ v hs (fun z hz => ?_) h
    rcases List.mem_append.1 hz with hz | hz
    · exact hout z hz
    · exact eval_ahead hc n depth s w hs hw z hz
end

/-! ## The simulation -/

/-- A capture position, if there is one, lies in `[lo, hi]`. -/
def Saved (lo hi : Nat) (q : Option Nat × Option Nat) : Prop := ∀ a, q.1 = some a ∨ q.2 = some a → lo ≤ a ∧ a ≤ hi

/-- A thread that started, and saved, in `[lo, hi]`. -/
structure ThreadWithin (lo hi : Nat) (t : NfaThread) : Prop where
  start : lo ≤ t.start ∧ t.start ≤ hi
  caps : ∀ q ∈ t.caps, Saved lo hi q

theorem ThreadWithin.mono {lo hi hi' : Nat} {t : NfaThread} (h : ThreadWithin lo hi t) (hle : hi ≤ hi') : ThreadWithin lo hi' t :=
  ⟨⟨h.start.1, h.start.2.trans hle⟩, fun q hq a ha => ⟨(h.caps q hq a ha).1, (h.caps q hq a ha).2.trans hle⟩⟩

theorem ThreadWithin.goto {lo hi : Nat} {t : NfaThread} (h : ThreadWithin lo hi t) (pc : Option Nat) : ThreadWithin lo hi (t.goto pc) :=
  ⟨h.start, h.caps⟩

theorem mem_modify {α : Type*} {f : α → α} {b : α} : ∀ {l : List α} {g : Nat}, b ∈ l.modify g f → b ∈ l ∨ ∃ a ∈ l, b = f a
  | [], _, h => by simp at h
  | a :: l, 0, h => by
    rcases List.mem_cons.1 h with rfl | h
    · exact Or.inr ⟨a, List.mem_cons_self, rfl⟩
    · exact Or.inl (List.mem_cons_of_mem a h)
  | a :: l, g + 1, h => by
    rcases List.mem_cons.1 h with rfl | h
    · exact Or.inl List.mem_cons_self
    · rcases mem_modify h with h | ⟨a', ha', rfl⟩
      · exact Or.inl (List.mem_cons_of_mem a h)
      · exact Or.inr ⟨a', List.mem_cons_of_mem a ha', rfl⟩

theorem ThreadWithin.saveStart {lo hi pos : Nat} {t : NfaThread} (h : ThreadWithin lo hi t) (hpos : lo ≤ pos ∧ pos ≤ hi) (g : Nat) :
    ThreadWithin lo hi (t.saveStart g pos) := by
  refine ⟨h.start, fun q hq => ?_⟩
  rcases mem_modify hq with hq | ⟨q', hq', rfl⟩
  · exact h.caps q hq
  · rintro a (ha | ha)
    · cases ha
      exact hpos
    · exact h.caps q' hq' a (Or.inr ha)

theorem ThreadWithin.saveEnd {lo hi pos : Nat} {t : NfaThread} (h : ThreadWithin lo hi t) (hpos : lo ≤ pos ∧ pos ≤ hi) (g : Nat) :
    ThreadWithin lo hi (t.saveEnd g pos) := by
  refine ⟨h.start, fun q hq => ?_⟩
  rcases mem_modify hq with hq | ⟨q', hq', rfl⟩
  · exact h.caps q hq
  · rintro a (ha | ha)
    · exact h.caps q' hq' a (Or.inl ha)
    · cases ha
      exact hpos

section
variable {icu : Icu} {p : RegexProgram} {c : VerifierContext}

theorem threadNext_within {lo hi pos : Nat} (hpos : lo ≤ pos ∧ pos ≤ hi) {t : NfaThread} {us : List NfaThread}
    (ht : ThreadWithin lo hi t) (h : threadNext icu p c pos t = some us) : ∀ u ∈ us, ThreadWithin lo hi u := by
  unfold threadNext at h
  split at h
  · cases h
    exact fun u hu => by cases hu
  · split at h
    · cases h
      exact List.forall_mem_singleton.2 (ht.goto _)
    · cases h
      exact List.forall_mem_cons.2 ⟨ht.goto _, List.forall_mem_singleton.2 (ht.goto _)⟩
    · cases h
      exact List.forall_mem_singleton.2 ((ht.saveStart hpos _).goto _)
    · cases h
      exact List.forall_mem_singleton.2 ((ht.saveEnd hpos _).goto _)
    · cases h
      intro u hu
      split at hu
      · rw [List.mem_singleton.1 hu]
        exact ht.goto _
      · cases hu
    · cases h
    · cases h
    · cases h
    · cases h

/-- **A thread that is added stays within the bounds**, with all it expands to. -/
theorem addNfaThread_within {lo hi pos generation : Nat} (hpos : lo ≤ pos ∧ pos ≤ hi) {seed : NfaThread}
    (hseed : ThreadWithin lo hi seed) {list : List NfaThread} (hlist : ∀ t ∈ list, ThreadWithin lo hi t) (seen : List Nat) :
    ∀ t ∈ (addNfaThread icu p c pos seed generation list seen).1, ThreadWithin lo hi t := by
  unfold addNfaThread
  split
  · split
    · -- the entries of a table carry the seed's start and no captures
      dsimp only
      generalize (p.closurePcs.take _).drop _ = row
      induction row generalizing list seen with
      | nil => exact hlist
      | cons k row ih =>
        rw [List.foldl_cons, addEntry]
        split
        · exact ih hlist seen
        · refine ih (fun t ht => ?_) _
          rcases List.mem_append.1 ht with ht | ht
          · exact hlist t ht
          · rw [List.mem_singleton.1 ht]
            exact ⟨hseed.start, fun q hq => by cases hq⟩
    · exact Worklist.run_forall (fun t us ht => threadNext_within hpos ht) (List.forall_mem_singleton.2 hseed) hlist
  · exact hlist

/-- The threads and the best so far started, and saved, between `lo` and the position. -/
structure SimWithin (lo hi : Nat) (s : SimState) : Prop where
  pos : lo ≤ s.pos ∧ s.pos ≤ hi
  cur : ∀ t ∈ s.cur, ThreadWithin lo s.pos t
  best : ∀ t, s.best = some t → ThreadWithin lo s.bestEnd t ∧ s.bestEnd ≤ hi

theorem simSeed_within {lo hi : Nat} {s : SimState} (h : SimWithin lo hi s) : SimWithin lo hi (simSeed icu p c s) := by
  unfold simSeed
  split
  · refine ⟨h.pos, addNfaThread_within ⟨h.pos.1, Nat.le_refl _⟩ ⟨⟨h.pos.1, Nat.le_refl _⟩, fun q hq => ?_⟩ h.cur _, h.best⟩
    dsimp only [seedThread] at hq
    split at hq
    · rw [List.eq_of_mem_replicate hq]
      rintro a (ha | ha)
      · cases ha
      · cases ha
    · cases hq
  · exact h

theorem simMatch_within {lo hi : Nat} {s : SimState} (h : SimWithin lo hi s) : SimWithin lo hi (simMatch p s) := by
  unfold simMatch
  split
  · exact h
  · refine ⟨h.pos, fun t ht => h.cur t (List.mem_of_mem_take ht), fun t ht => ⟨h.cur t (List.mem_of_getElem? ht), h.pos.2⟩⟩

theorem simAdvance_within {lo hi : Nat} {s : SimState} (h : SimWithin lo hi s) {r : Rune} (hlt : s.pos < r.next)
    (hle : r.next ≤ hi) : SimWithin lo hi (simAdvance icu p c s r) := by
  have hpos : lo ≤ r.next ∧ r.next ≤ r.next := ⟨h.pos.1.trans (Nat.le_of_lt hlt), Nat.le_refl _⟩
  have hcur : ∀ (cur : List NfaThread) (a : List NfaThread × List Nat), (∀ t ∈ cur, ThreadWithin lo s.pos t) →
      (∀ t ∈ a.1, ThreadWithin lo r.next t) →
        ∀ t ∈ (cur.foldl (advanceThread icu p c r s.nextGeneration) a).1, ThreadWithin lo r.next t := by
    intro cur
    induction cur with
    | nil => exact fun a _ ha => ha
    | cons t cur ih =>
      intro a hcur ha
      obtain ⟨ht, hcur⟩ := List.forall_mem_cons.1 hcur
      refine ih _ hcur ?_
      unfold advanceThread
      split
      · split
        · exact addNfaThread_within hpos ((ht.mono (Nat.le_of_lt hlt)).goto _) ha _
        · exact ha
      · exact ha
  have hnext := hcur s.cur ([], s.seen) h.cur (fun t ht => by cases ht)
  unfold simAdvance
  dsimp only
  split
  · exact ⟨⟨hpos.1, hle⟩, hnext, h.best⟩
  · exact ⟨⟨hpos.1, hle⟩, hnext, h.best⟩

theorem nextJump_ge {pos j : Nat} (h : nextJump p c pos = some j) : pos - c.sourceBegin ≤ j := by
  unfold nextJump at h
  -- what the scan of the prefixes keeps: the least offset so far is not before the position
  refine List.foldlRecOn (motive := fun n => ∀ k, n = some k → pos - c.sourceBegin ≤ k) p.queryIr.prefixes _
    (fun k hk => by cases hk) (fun n hn pref _ k hk => ?_) j h
  split at hk
  · exact hn k hk
  · rename_i cand hcand
    have hge := (Substr.findFrom_eq_some.1 hcand).1
    split at hk
    · cases hk
      exact hge
    · rename_i m
      split at hk
      · cases hk
        exact hge
      · cases hk
        exact hn _ rfl

theorem simJump_within (hv : c.Valid) (hhi : c.recordEnd ≤ hi) {lo : Nat} {s : SimState}
    (h : SimWithin lo hi s) {pos : Nat} (hj : simJump p c s = some pos) :
    SimWithin lo hi { s with pos := pos } := by
  unfold simJump at hj
  split at hj
  · rename_i hidle
    simp only [Bool.and_eq_true, List.isEmpty_iff] at hidle
    split at hj
    · cases hj
    · rename_i j hnext
      split at hj
      · cases hj
      · cases hj
        have hge := nextJump_ge hnext
        have hpos := h.pos
        have hend := hv.candidate_end
        refine ⟨⟨?_, ?_⟩, fun t ht => ?_, h.best⟩
        · dsimp only
          omega
        · dsimp only
          omega
        · dsimp only at ht
          rw [hidle.1.1.1] at ht
          cases ht
  · cases hj
    exact h

/-- **A run of the simulation stays in the record.** -/
theorem simLoop_within (hv : c.Valid) (hc : c.Reads hi) {lo : Nat} : ∀ (fuel : Nat) {s : SimState},
    SimWithin lo hi s → SimWithin lo hi (simLoop icu p c fuel s)
  | 0, _, h => h
  | fuel + 1, s, h => by
    rcases simLoop_cases icu p c fuel s with ⟨hs, -⟩ | ⟨pos, hj, -, hrest⟩
    · rw [hs]
      exact h
    · have hscan : SimWithin lo hi (simScan icu p c s pos) :=
        simMatch_within (simSeed_within (simJump_within hv hc.recordEnd_le h hj))
      have hpos : (simScan icu p c s pos).pos = pos := by
        unfold simScan simSeed
        rw [simMatch_pos]
        split
        · rfl
        · rfl
      rcases hrest with ⟨hs, -⟩ | ⟨r, hr, -, -, hs⟩
      · rw [hs]
        exact hscan
      · obtain ⟨-, h1, h2⟩ := contextRuneAtValidated_reads hv hc hr
        have hadv := @simAdvance_within icu p c lo hi _ hscan r (by rw [hpos]; exact h1) h2
        rcases hs with ⟨hs, -⟩ | hs
        · rw [hs]
          exact hadv
        · rw [hs]
          exact simLoop_within hv hc fuel hadv

/-! ## The literal scan -/

theorem contextLiteralAtValidated_ahead (hv : c.Valid) (hc : c.Reads hi) : ∀ {lit : List Nat} {pos e : Nat}, lit ≠ [] →
    contextLiteralAtValidated icu c lit pos = some e → pos ≤ e ∧ e ≤ hi
  | [], _, _, hne, _ => absurd rfl hne
  | x :: xs, pos, e, _, h => by
    rw [contextLiteralAtValidated] at h
    split at h
    · rename_i r hr
      obtain ⟨-, h1, h2⟩ := contextRuneAtValidated_reads hv hc hr
      split at h
      · cases xs with
        | nil =>
          cases h
          exact ⟨Nat.le_of_lt h1, h2⟩
        | cons y ys =>
          obtain ⟨h3, h4⟩ := contextLiteralAtValidated_ahead hv hc (List.cons_ne_nil y ys) h
          exact ⟨by omega, h4⟩
      · cases h
    · cases h

theorem skipAscii_ge (scanEnd : Nat) : ∀ (fuel pos : Nat), pos ≤ skipAscii c scanEnd fuel pos
  | 0, _ => Nat.le_refl _
  | fuel + 1, pos => by
    rw [skipAscii]
    split
    · split
      · exact Nat.le_refl _
      · split
        · exact Nat.le_refl _
        · exact (Nat.le_succ pos).trans (skipAscii_ge scanEnd fuel (pos + 1))
    · exact Nat.le_refl _

theorem literalScan_within (hv : c.Valid) (hc : c.Reads hi) {lit : List Nat} (hne : lit ≠ []) {scanEnd : Nat} :
    ∀ {fuel pos : Nat} {se : Nat × Nat}, literalScan icu c lit scanEnd fuel pos = some se →
      pos ≤ se.1 ∧ se.1 ≤ se.2 ∧ se.2 ≤ hi
  | 0, _, _, h => by cases h
  | fuel + 1, pos, se, h => by
    rw [literalScan] at h
    dsimp only at h
    generalize hq : (if (decide (128 ≤ lit.headD 0)) = true then skipAscii c scanEnd (scanEnd - pos) pos else pos) = q at h
    have hge : pos ≤ q := by
      rw [← hq]
      split
      · exact skipAscii_ge _ _ _
      · exact Nat.le_refl _
    split at h
    · split at h
      · cases h
      · split at h
        · rename_i e he
          cases h
          obtain ⟨h1, h2⟩ := contextLiteralAtValidated_ahead hv hc hne he
          exact ⟨hge, h1, h2⟩
        · split at h
          · rename_i r hr
            obtain ⟨-, h1, -⟩ := contextRuneAtValidated_reads hv hc hr
            obtain ⟨h2, h3, h4⟩ := literalScan_within hv hc hne h
            exact ⟨by omega, h3, h4⟩
          · cases h
    · cases h

/-! ## Matches -/

/-- A match of a record, from `lo` on, with all its captures. -/
structure Match.Within (lo hi : Nat) (m : Match) : Prop where
  start : lo ≤ m.start
  le : m.start ≤ m.stop
  stop : m.stop ≤ hi

def Match.CapturesWithin (lo hi : Nat) (m : Match) : Prop :=
  ∀ g ∈ m.captures, g.matched = true → (lo ≤ g.start ∧ g.start ≤ hi) ∧ lo ≤ g.stop ∧ g.stop ≤ hi

theorem matchCaptures_within {lo hi s e : Nat} (hs : lo ≤ s ∧ s ≤ hi) (he : lo ≤ e ∧ e ≤ hi) {caps : Caps}
    (hcaps : ∀ q ∈ caps, Saved lo hi q) :
    ∀ g ∈ matchCaptures p s e caps, g.matched = true → (lo ≤ g.start ∧ g.start ≤ hi) ∧ lo ≤ g.stop ∧ g.stop ≤ hi := by
  refine List.forall_mem_cons.2 ⟨fun _ => ⟨hs, he⟩, fun g hg hm => ?_⟩
  obtain ⟨k, -, rfl⟩ := List.mem_map.1 hg
  split at hm
  · rename_i a b hab
    have hsaved := hcaps _ (List.mem_of_getElem? hab)
    exact ⟨hsaved a (Or.inl rfl), hsaved b (Or.inr rfl)⟩
  · cases hm

theorem nfaSearch_within (hv : c.Valid) (hc : c.Reads hi) {fid : Nat} {m : Match} (h : nfaSearch icu p c fid = some m) :
    m.Within c.candidateBegin hi ∧ m.CapturesWithin c.candidateBegin m.stop := by
  unfold nfaSearch at h
  split at h
  · cases h
  split at h
  · rename_i hlit
    have hne : p.icaseLiteral ≠ [] := by
      unfold usesLiteralScan at hlit
      split at hlit
      · simp only [Bool.and_eq_true, Bool.not_eq_true', List.isEmpty_eq_false_iff] at hlit
        exact hlit.2
      · cases hlit
    obtain ⟨se, hse, rfl⟩ := Option.map_eq_some_iff.1 h
    obtain ⟨h1, h2, h3⟩ := literalScan_within hv hc hne hse
    refine ⟨⟨h1, h2, h3⟩, List.forall_mem_cons.2 ⟨fun _ => ⟨⟨h1, h2⟩, h1.trans h2, Nat.le_refl _⟩, fun g hg hm => ?_⟩⟩
    rw [List.eq_of_mem_replicate hg] at hm
    cases hm
  · obtain ⟨t, ht, rfl⟩ := Option.map_eq_some_iff.1 h
    -- a search that starts past the record's end finds nothing
    rcases Nat.lt_or_ge c.recordEnd c.candidateBegin with hout | hin
    · have hidle : (simLoop icu p c (simFuel c) (simInit p c)).best = none := by
        have hle := hv.candidate_le
        have hend := hv.candidate_end
        have hpos : c.candidateEnd ≤ c.candidateBegin := by omega
        rw [simFuel, simLoop]
        simp [simInit, hpos]
      rw [hidle] at ht
      cases ht
    · have hinit : SimWithin c.candidateBegin hi (simInit p c) :=
        ⟨⟨Nat.le_refl _, hin.trans hc.recordEnd_le⟩, fun t ht => (by cases ht), fun t ht => (by cases ht)⟩
      obtain ⟨hw, hend⟩ := (simLoop_within hv hc (simFuel c) hinit).best t ht
      have hstop := hw.start.1.trans hw.start.2
      exact ⟨⟨hw.start.1, hw.start.2, hend⟩, matchCaptures_within hw.start ⟨hstop, Nat.le_refl _⟩ hw.caps⟩

theorem stepStart_gt (c : VerifierContext) (pos : Nat) : pos < stepStart c pos := by
  unfold stepStart
  cases hr : contextRuneAt c pos with
  | none => exact Nat.lt_succ_self pos
  | some r => exact contextRuneAt_next hr

theorem evalSearch_within (hv : c.Valid) (hc : c.Reads hi) {fid : Nat} {m : Match} : ∀ {fuel st : Nat},
    evalSearch icu p c fid fuel st = .ok (some m) → m.Within st hi
  | 0, _, h => by cases h
  | fuel + 1, st, h => by
    rw [evalSearch] at h
    split at h
    · rename_i hst
      obtain ⟨v, hev, h⟩ := bind_ok h
      have hend := hv.candidate_end
      have hle := hc.recordEnd_le
      split at h
      · rename_i z zs
        cases h
        obtain ⟨h1, h2⟩ := eval_ahead hc p.ast 0 _ _ (by dsimp only; omega) hev z List.mem_cons_self
        exact ⟨Nat.le_refl _, h1, h2⟩
      · split at h
        · cases h
        · obtain ⟨h1, h2, h3⟩ := evalSearch_within hv hc h
          exact ⟨(Nat.le_of_lt (stepStart_gt c st)).trans h1, h2, h3⟩
    · cases h

theorem regexSearch_within (hc : c.Reads hi) {fid : Nat} {m : Match} (h : regexSearch icu p c fid = .ok (some m)) :
    m.Within c.candidateBegin hi ∧ (p.extended = false → m.CapturesWithin c.candidateBegin m.stop) := by
  unfold regexSearch at h
  split at h
  · cases h
  rename_i hval
  have hv := (VerifierContext.validate_iff c).1 (by simpa using hval)
  split at h
  · obtain ⟨h1, h2⟩ := nfaSearch_within hv hc (Except.ok.inj h)
    exact ⟨h1, fun _ => h2⟩
  · rename_i hx
    exact ⟨evalSearch_within hv hc h, fun hreg => absurd (by rw [hreg]; rfl) hx⟩

end

end

end Pergrep
