import Pergrep.Regex.Decompose
import Pergrep.Regex.StopsBy
import Pergrep.Search.Regions
/-!
# Clip — a search clipped to a region

A bounded region changes one thing: a rune that ends after the region is not read (`contextRuneAtValidated_clip`).  Up
to the first such rune the clipped simulation and the plain one make the same steps, and from there on the plain one can
only find a match that ends after the region (`simLoop_late`).  So a clipped search answers as the plain one unless the
plain one's match ends after the region (`nfaSearch_clip_iff`), which takes a pass that reads over its end with a thread
that can still match (`nfaSearch_region_iff`): a span wider than the byte bound of its tree, or one that ends after its
record.
-/
namespace Pergrep

open Steps (iterSpan iterSpan_le)
open Wiring NfaCompiler

namespace VerifierContext

def clip (c : VerifierContext) (regionBegin regionEnd : Nat) : VerifierContext :=
  { c with boundedRegion := true, regionBegin := regionBegin, regionEnd := regionEnd }

/-- The end of the region for the candidates of a context: as far as a match from the last of them reads. -/
def clipEnd (c : VerifierContext) (a : RegexAnalysis) : Nat :=
  min c.recordEnd (c.candidateEnd + a.byteUpper.value + a.forwardLookaheadBytes.value)

end VerifierContext

/-! ## One step -/

section
variable (icu : Icu) (p : RegexProgram) {c : VerifierContext} {rb re : Nat}

theorem contextRuneAtValidated_clip (hc : c.boundedRegion = false) (pos : Nat) :
    contextRuneAtValidated (c.clip rb re) pos = (contextRuneAtValidated c pos).filter (fun r => decide (r.next ≤ re)) := by
  have hsource : sourceRuneAt (c.clip rb re) pos = sourceRuneAt c pos := rfl
  unfold contextRuneAtValidated
  rw [hsource]
  simp only [VerifierContext.clip, hc, Bool.not_true, Bool.not_false, Bool.false_eq_true, false_or, true_or, true_and,
    false_and, if_false, if_true]
  split
  · rfl
  · have hgeneral : ∀ r : Rune, (if re < r.next then none else some r) =
        Option.filter (fun r : Rune => decide (r.next ≤ re)) (some r) := by
      intro r
      rw [Option.filter_some]
      by_cases h : r.next ≤ re
      · rw [if_neg (Nat.not_lt.2 h), if_pos (decide_eq_true h)]
      · rw [if_pos (Nat.not_le.1 h), if_neg (fun h' => h (of_decide_eq_true h'))]
    have hascii : ∀ b : UInt8, (if pos + 1 ≤ re then some (⟨b.toNat, pos + 1⟩ : Rune) else none) =
        Option.filter (fun r : Rune => decide (r.next ≤ re)) (some ⟨b.toNat, pos + 1⟩) := by
      intro b
      rw [Option.filter_some]
      by_cases h : pos + 1 ≤ re
      · rw [if_pos h, if_pos (decide_eq_true h)]
      · rw [if_neg h, if_neg (fun h' => h (of_decide_eq_true h'))]
    cases sourceRuneAt c pos with
    | none =>
      cases c.source[pos - c.sourceBegin]? with
      | none => rfl
      | some b =>
        dsimp only
        split
        · exact hascii b
        · rfl
    | some r =>
      cases c.source[pos - c.sourceBegin]? with
      | none => exact hgeneral r
      | some b =>
        dsimp only
        split
        · exact hascii b
        · exact hgeneral r

variable (hv : c.validate = true) (hr : (c.clip rb re).validate = true)
include hv hr

theorem assertAt_clip (k : AssertKind) (f : NodeFlags) (pos : Nat) : assertAt icu k f (c.clip rb re) pos = assertAt icu k f c pos := by
  have hbyte : contextByte (c.clip rb re) = contextByte c := by
    funext q
    unfold contextByte
    rw [hv, hr]
    rfl
  have hbefore : contextRuneBefore (c.clip rb re) pos = contextRuneBefore c pos := by
    unfold contextRuneBefore
    rw [hv, hr]
    rfl
  have hright : contextRuneRight (c.clip rb re) pos = contextRuneRight c pos := by
    unfold contextRuneRight
    rw [hv, hr]
    rfl
  have hnewline : assertEndNewline f (c.clip rb re) pos = assertEndNewline f c pos := by
    unfold assertEndNewline crlfAt
    rw [hbyte]
    rfl
  cases k with
  | begin_ =>
    unfold assertAt assertBegin
    rw [hbyte]
    rfl
  | end_ =>
    unfold assertAt assertEnd crlfAt
    rw [hnewline, hbyte]
    rfl
  | absBegin => rfl
  | absEnd => rfl
  | endNewline => exact hnewline
  | wordBoundary negative =>
    unfold assertAt assertWord
    rw [hbefore, hright]
  | wordStartHalf =>
    unfold assertAt assertWordStartHalf
    rw [hbefore]
  | wordEndHalf =>
    unfold assertAt assertWordEndHalf
    rw [hright]

theorem addNfaThread_clip (pos : Nat) (seed : NfaThread) (generation : Nat) (list : List NfaThread) (seen : List Nat) :
    addNfaThread icu p (c.clip rb re) pos seed generation list seen = addNfaThread icu p c pos seed generation list seen := by
  have hnext : threadNext icu p (c.clip rb re) pos = threadNext icu p c pos := by
    funext t
    unfold threadNext
    simp only [assertAt_clip icu hv hr]
  unfold addNfaThread
  rw [hnext]

theorem simScan_clip (s : SimState) (pos : Nat) : simScan icu p (c.clip rb re) s pos = simScan icu p c s pos := by
  unfold simScan simSeed
  rw [addNfaThread_clip icu p hv hr]
  rfl

theorem simAdvance_clip (s : SimState) (r : Rune) : simAdvance icu p (c.clip rb re) s r = simAdvance icu p c s r := by
  have hstep : advanceThread icu p (c.clip rb re) r s.nextGeneration = advanceThread icu p c r s.nextGeneration := by
    funext a t
    unfold advanceThread
    simp only [addNfaThread_clip icu p hv hr]
    rfl
  unfold simAdvance
  rw [hstep]

end

/-! ## The loop -/

section
variable {icu : Icu} {p : RegexProgram} {c : VerifierContext} {re : Nat}

/-- Either the answer so far stands, or a later one ends after the region. -/
def Late (re : Nat) (s s' : SimState) : Prop :=
  s'.best = s.best ∧ s'.bestEnd = s.bestEnd ∨ s'.best ≠ none ∧ re < s'.bestEnd

theorem Late.trans {s s' s'' : SimState} (h : Late re s s') (h' : Late re s' s'') : Late re s s'' := by
  rcases h' with ⟨hb, he⟩ | h'
  · rcases h with ⟨hb', he'⟩ | ⟨hb', he'⟩
    · exact Or.inl ⟨hb.trans hb', he.trans he'⟩
    · exact Or.inr ⟨hb ▸ hb', he ▸ he'⟩
  · exact Or.inr h'

/-- **What is found after the region ends after it.** -/
theorem simLoop_late (hv : c.Valid) (fuel : Nat) (s : SimState) (h : re < s.pos) : Late re s (simLoop icu p c fuel s) :=
  (simLoop_kept hv fuel s).imp id (fun ⟨hbest, hend⟩ => ⟨hbest, h.trans_le hend⟩)

/-- **The clipped loop and the plain one**: the same answer, unless the plain one's ends after the region. -/
theorem simLoop_clip {rb : Nat} (hv : c.Valid) (hc : c.boundedRegion = false) (hr : (c.clip rb re).validate = true) :
    ∀ (fuel : Nat) (s : SimState), Late re (simLoop icu p (c.clip rb re) fuel s) (simLoop icu p c fuel s)
  | 0, s => Or.inl ⟨rfl, rfl⟩
  | fuel + 1, s => by
    have hval := (VerifierContext.validate_iff c).2 hv
    have hjump : simJump p (c.clip rb re) s = simJump p c s := rfl
    rw [simLoop, simLoop, hjump]
    change Late re (if s.cur.isEmpty && s.best.isNone && decide (c.candidateEnd ≤ s.pos) then s else _) _
    split
    · exact Or.inl ⟨rfl, rfl⟩
    · cases hj : simJump p c s with
      | none => exact Or.inl ⟨rfl, rfl⟩
      | some pos =>
        have hscan := simScan_clip icu p hval hr s pos
        unfold simScan at hscan
        dsimp only
        rw [hscan, contextRuneAtValidated_clip hc]
        change Late re (if _ then _ else if c.recordEnd ≤ _ then _ else _) _
        generalize simMatch p (simSeed icu p c { s with pos := pos }) = s'
        split
        · exact Or.inl ⟨rfl, rfl⟩
        · split
          · exact Or.inl ⟨rfl, rfl⟩
          · cases hrune : contextRuneAtValidated c s'.pos with
            | none => exact Or.inl ⟨rfl, rfl⟩
            | some r =>
              by_cases hin : r.next ≤ re
              · rw [Option.filter_some, if_pos (decide_eq_true hin)]
                dsimp only
                rw [simAdvance_clip icu p hval hr]
                split
                · exact Or.inl ⟨rfl, rfl⟩
                · exact simLoop_clip hv hc hr fuel _
              · -- the region ends here; what the plain loop still finds ends after it
                rw [Option.filter_some, if_neg (by simpa using hin)]
                dsimp only
                have hadv : Late re s' (simAdvance icu p c s' r) := Or.inl ⟨simAdvance_best _ _, simAdvance_bestEnd _ _⟩
                split
                · exact hadv
                · exact hadv.trans (simLoop_late hv fuel _ (by rw [simAdvance_pos]; omega))

theorem simLoop_inside {rb : Nat} (hend : c.candidateEnd ≤ re + 1) : ∀ (fuel : Nat) (s : SimState), s.pos ≤ re →
    (s.best ≠ none → s.bestEnd ≤ re) → (simLoop icu p (c.clip rb re) fuel s).best ≠ none →
      (simLoop icu p (c.clip rb re) fuel s).bestEnd ≤ re
  | 0, _, _, hbest => hbest
  | fuel + 1, s, hpos, hbest => by
    rcases simLoop_cases icu p (c.clip rb re) fuel s with ⟨hs, -⟩ | ⟨pos, hj, -, hrest⟩
    · rw [hs]
      exact hbest
    · have hin : pos ≤ re := @simJump_le p (c.clip rb re) re hend s pos hpos hj
      have hscan : (simScan icu p (c.clip rb re) s pos).best ≠ none →
          (simScan icu p (c.clip rb re) s pos).bestEnd ≤ re := by
        rcases @simScan_found icu p (c.clip rb re) s pos with ⟨h1, h2⟩ | ⟨-, h2⟩
        · rw [h1, h2]
          exact hbest
        · rw [h2]
          exact fun _ => hin
      rcases hrest with ⟨hs, -⟩ | ⟨r, hr, -, -, hs⟩
      · rw [hs]
        exact hscan
      · have hnext : r.next ≤ re := @contextRuneAtValidated_region (c.clip rb re) rfl pos r hr
        rcases hs with ⟨hs, -⟩ | hs
        · rw [hs, simAdvance_best, simAdvance_bestEnd]
          exact hscan
        · rw [hs]
          exact simLoop_inside hend fuel _ (by rw [simAdvance_pos]; exact hnext)
            (by rw [simAdvance_best, simAdvance_bestEnd]; exact hscan)

/-! ## The search -/

/-- **A clipped search answers as the plain one** exactly when the plain one's match, if any, ends in the region. -/
theorem nfaSearch_clip_iff {rb : Nat} (hv : c.Valid) (hc : c.boundedRegion = false) (hr : (c.clip rb re).validate = true)
    (hlit : usesLiteralScan p = false) (hbegin : c.candidateBegin ≤ re) (hend : c.candidateEnd ≤ re + 1) (fileId : Nat) :
    nfaSearch icu p (c.clip rb re) fileId = nfaSearch icu p c fileId ↔
      ∀ m, nfaSearch icu p c fileId = some m → m.stop ≤ re := by
  cases hstart : p.nfaStart.isNone with
  | true =>
    have hnone : ∀ c : VerifierContext, nfaSearch icu p c fileId = none := by
      intro c
      unfold nfaSearch
      rw [hstart, Bool.or_true, if_pos rfl]
    rw [hnone, hnone]
    exact iff_of_true rfl (fun m hm => by cases hm)
  | false =>
    have hloop := @simLoop_clip icu p c re rb hv hc hr (simFuel c) (simInit p c)
    have hinside := @simLoop_inside icu p c re rb hend (simFuel c) (simInit p c) hbegin (fun h => absurd rfl h)
    have hfuel : simFuel (c.clip rb re) = simFuel c := rfl
    have hinit : simInit p (c.clip rb re) = simInit p c := rfl
    rw [nfaSearch_loop hlit, nfaSearch_loop hlit, nfaSearchLoop_eq icu hr hstart,
      nfaSearchLoop_eq icu ((VerifierContext.validate_iff c).2 hv) hstart, hfuel, hinit]
    generalize simLoop icu p (c.clip rb re) (simFuel c) (simInit p c) = clipped at hloop hinside
    generalize simLoop icu p c (simFuel c) (simInit p c) = plain at hloop
    constructor
    · intro heq m hm
      rw [← heq] at hm
      obtain ⟨t, ht, rfl⟩ := Option.map_eq_some_iff.1 hm
      exact hinside (by rw [ht]; exact Option.some_ne_none t)
    · intro hstop
      rcases hloop with ⟨hbest, hend⟩ | ⟨hbest, hlate⟩
      · rw [hbest, hend]
      · obtain ⟨t, ht⟩ := Option.ne_none_iff_exists'.1 hbest
        exact absurd (hstop _ (by rw [ht]; rfl)) (Nat.not_le.2 hlate)

theorem nfaSearch_idle (h : c.candidateEnd ≤ c.candidateBegin) (fileId : Nat) : nfaSearch icu p c fileId = none := by
  cases hm : nfaSearch icu p c fileId with
  | none => rfl
  | some m =>
    have hv : c.validate = true := by
      by_contra hv
      unfold nfaSearch at hm
      rw [Bool.eq_false_of_not_eq_true hv] at hm
      cases hm
    have hval := (VerifierContext.validate_iff c).1 hv
    have h1 := (nfaSearch_within hval hval.reads hm).1.start
    have h2 := nfaSearch_start hval hm
    omega

theorem Regular.nfaSearch_span (h : Regular icu p) (hlit : usesLiteralScan p = false) {fileId : Nat} {m : Match}
    (hm : nfaSearch icu p c fileId = some m) : spans icu c p.ast m.start m.stop := by
  obtain ⟨start, accept, hl, hspan⟩ := h.loaded
  unfold nfaSearch at hm
  rw [hlit] at hm
  split at hm
  · cases hm
  · obtain ⟨t, ht, rfl⟩ := Option.map_eq_some_iff.1 hm
    have hinit : AllGot icu p c start accept (simInit p c) := ⟨fun t ht => (by cases ht), fun t ht => (by cases ht)⟩
    exact (hspan c _ _).1 ((simLoop_got hl (simFuel c) hinit).best t ht)

/-! ## Widths in bytes -/

/-- The runes of a literal, written out, take no more bytes than it has.  A byte that is no part of a well-formed sequence
takes more: its code point is matched by the two bytes of its UTF-8 form as well. -/
def exactLiteral (l : Bytes) : Bool := decide (((runes l).flatMap appendUtf8).length ≤ l.length)

mutual
def RegexNode.exactLiterals : RegexNode → Bool
  | .empty _ | .dot _ | .cls _ _ | .assert _ _ | .backRef _ _ => true
  | .literal _ l => exactLiteral l
  | .concat _ cs | .alt _ cs => RegexNode.exactLiteralsAll cs
  | .repeat_ _ _ _ _ c | .group _ _ _ c | .lookAhead _ _ c | .lookBehind _ _ c => c.exactLiterals

def RegexNode.exactLiteralsAll : List RegexNode → Bool
  | [] => true
  | c :: cs => c.exactLiterals && RegexNode.exactLiteralsAll cs
end

theorem iterSpan_mono {R S : Nat → Nat → Prop} (h : ∀ p q, R p q → S p q) : ∀ {k s e : Nat}, iterSpan R k s e → iterSpan S k s e
  | 0, _, _, he => he
  | _ + 1, _, _, ⟨m, h1, h2⟩ => ⟨m, h _ _ h1, iterSpan_mono h h2⟩

theorem contextRuneAtValidated_bytes (hv : c.Valid) (hc : c.boundedRegion = false) {pos : Nat} {r : Rune}
    (h : contextRuneAtValidated c pos = some r) : r.next ≤ pos + (appendUtf8 r.cp).length ∧ r.next ≤ pos + 4 := by
  have hpos := (contextRuneAtValidated_next hv h).1
  have hsource := hv.record_ge
  rw [contextRuneAtValidated_eq hv hc] at h
  unfold contextRuneAt at h
  split at h
  · cases h
  · split at h
    · rename_i r' hr
      split at h
      · cases h
      · cases h
        refine ⟨?_, (sourceRuneAt_next (hsource.trans hpos) hr).2.2⟩
        obtain ⟨r0, h0, rfl⟩ := Option.map_eq_some_iff.1 hr
        have := runeAt_le_appendUtf8 h0
        dsimp only
        omega
    · cases h

theorem literalSpan_bytes (hv : c.Valid) (hc : c.boundedRegion = false) {f : NodeFlags} (hf : f.icase = false) :
    ∀ {xs : List Nat} {s e : Nat}, literalSpan icu c f xs s e → e ≤ s + (xs.flatMap appendUtf8).length
  | [], s, e, h => by
    rw [show s = e from h]
    exact Nat.le_add_right _ _
  | x :: xs, s, e, ⟨r, hr, heq, h⟩ => by
    have hrest := literalSpan_bytes hv hc hf h
    have hfirst := (contextRuneAtValidated_bytes hv hc hr).1
    rw [hf, Icu.cpEq, if_neg Bool.false_ne_true, beq_iff_eq] at heq
    rw [heq] at hfirst
    rw [List.flatMap_cons, List.length_append]
    omega

theorem spans_le (hv : c.Valid) (n : RegexNode) {s e : Nat} (h : spans icu c n s e) : s ≤ e := by
  obtain ⟨k, hk, -⟩ := spans_width n h
  exact iterSpan_le (fun _ _ ⟨_, hr, hq⟩ => hq ▸ (contextRuneAtValidated_next hv hr).2.2.1.le) hk

theorem iterSpan_le_of {R : Nat → Nat → Prop} {hi : Nat} (hR : ∀ p q, R p q → q ≤ hi) : ∀ {k s e : Nat}, s ≤ hi →
    iterSpan R k s e → e ≤ hi
  | 0, s, e, hs, h => by
    rw [← show s = e from h]
    exact hs
  | _ + 1, _, _, _, ⟨m, h1, h2⟩ => iterSpan_le_of hR (hR _ _ h1) h2

theorem spans_le_recordEnd (hv : c.Valid) (hfits : c.Fits) (n : RegexNode) {s e : Nat} (hs : s ≤ c.recordEnd)
    (h : spans icu c n s e) : e ≤ c.recordEnd := by
  obtain ⟨k, hk, -⟩ := spans_width n h
  exact iterSpan_le_of (fun _ _ ⟨_, hr, hq⟩ => hq ▸ (contextRuneAtValidated_reads hv hfits.reads hr).2.2) hs hk

theorem RegexNode.exactLiteralsAll_iff : ∀ {cs : List RegexNode},
    RegexNode.exactLiteralsAll cs = true ↔ ∀ c ∈ cs, c.exactLiterals = true
  | [] => by simp [RegexNode.exactLiteralsAll]
  | c :: cs => by simp [RegexNode.exactLiteralsAll, @RegexNode.exactLiteralsAll_iff cs]

theorem spans_cuts (hv : c.Valid) (hc : c.boundedRegion = false) :
    Cuts (fun n s e => n.exactLiterals = true ∧ spans icu c n s e) where
  le n _ _ h := spans_le hv n h.2
  empty _ _ _ h := h.2
  assert _ _ _ _ h := h.2.2.symm
  literal f l s e h hf := by
    have hlen := of_decide_eq_true h.1
    have := literalSpan_bytes hv hc hf h.2
    omega
  dot f s e h := by
    obtain ⟨-, r, hr, -, rfl⟩ := h
    have := (contextRuneAtValidated_bytes hv hc hr).2
    omega
  cls f k s e h := by
    obtain ⟨-, r, hr, -, rfl⟩ := h
    have := (contextRuneAtValidated_bytes hv hc hr).2
    omega
  concat f cs s e h := by
    have hexact := RegexNode.exactLiteralsAll_iff.1 h.1
    have hall : spansAll icu c cs s e := h.2
    clear h
    induction cs generalizing s with
    | nil => exact hall
    | cons n cs ih =>
      obtain ⟨m, h1, h2⟩ := hall
      obtain ⟨hn, hcs⟩ := List.forall_mem_cons.1 hexact
      exact ⟨m, ⟨hn, h1⟩, ih m hcs h2⟩
  alt f cs s e h := by
    have hexact := RegexNode.exactLiteralsAll_iff.1 h.1
    have hany : spansAny icu c cs s e := h.2
    clear h
    induction cs with
    | nil => exact hany.elim
    | cons n cs ih =>
      obtain ⟨hn, hcs⟩ := List.forall_mem_cons.1 hexact
      rcases hany with h | h
      · exact ⟨n, List.mem_cons_self, hn, h⟩
      · obtain ⟨d, hd, h⟩ := ih hcs h
        exact ⟨d, List.mem_cons_of_mem _ hd, h⟩
  repeat_ f mn mx g n s e h := by
    obtain ⟨hexact, k, -, hk, h⟩ := h
    exact ⟨k, hk, iterSpan_mono (fun p q hpq => ⟨hexact, hpq⟩) h⟩
  group _ _ _ _ _ _ h := h
  backRef _ _ _ _ h := h.2
  lookAhead _ _ _ _ _ h := h.2
  lookBehind _ _ _ _ _ h := h.2

end

/-! ## The region of `find` -/

section
variable (icu : Icu) (p : RegexProgram) (c : VerifierContext) (regionBegin regionEnd : Nat)

/-- The region holds what the plain run reads: it begins in the source, or no pass comes to a thread that can match; and
no pass reads over its end with a thread that can still match. -/
structure RegionHolds : Prop where
  source : regionBegin < c.sourceBegin → ∀ s pos, SimRun icu p c s → simJump p c s = some pos →
    ∀ t ∈ (simSeed icu p c { s with pos := pos }).cur, ¬ Hopeful icu p c pos t
  stops : StopsBy icu p c regionEnd

variable {icu p c regionBegin}

theorem boundedRegexEligible_ok {opt : PatternOptions} {a : RegexAnalysis} (h : boundedRegexEligible p opt = some a) :
    a = analyzeRegex p.ast ∧ p.extended = false ∧ ∃ v, a.byteUpper = .finite v := by
  unfold boundedRegexEligible at h
  dsimp only at h
  split at h
  · cases h
  rename_i h1
  split at h
  · cases h
  rename_i h2
  repeat' split at h
  all_goals cases h
  refine ⟨rfl, ?_, ?_⟩
  · simpa using (not_or.1 h1).1
  · have hfinite := (not_or.1 h2).1
    cases hb : (analyzeRegex p.ast).byteUpper with
    | finite v  => exact ⟨v, rfl⟩
    | unknown   => simp [hb, RegexBound.isFinite] at hfinite
    | unbounded => simp [hb, RegexBound.isFinite] at hfinite

theorem boundedRegexEligible_scan {opt : PatternOptions} {a : RegexAnalysis} (h : boundedRegexEligible p opt = some a) :
    usesLiteralScan p = false := by
  obtain ⟨rfl, -, w, hw⟩ := boundedRegexEligible_ok h
  by_contra hscan
  obtain ⟨f, l, hast, hi, -⟩ := usesLiteralScan_iff (by simpa using hscan)
  rw [hast, analyzeRegex, RegexAnalysis.literal] at hw
  dsimp only at hw
  rw [if_pos hi] at hw
  cases hw

theorem candidateBegin_le_clipEnd (hv : c.Valid) (hin : c.candidateBegin ≤ c.recordEnd) {a : RegexAnalysis} :
    c.candidateBegin ≤ c.clipEnd a := by
  have hcand := hv.candidate_le
  exact Nat.le_min.2 ⟨hin, by omega⟩

theorem candidateEnd_le_clipEnd (hv : c.Valid) {a : RegexAnalysis} : c.candidateEnd ≤ c.clipEnd a + 1 := by
  have hend := hv.candidate_end
  have : c.candidateEnd - 1 ≤ c.clipEnd a := Nat.le_min.2 ⟨by omega, by omega⟩
  omega

theorem clip_validate (hv : c.Valid) (hsource : c.sourceBegin ≤ regionBegin) (hbegin : regionBegin ≤ c.candidateBegin)
    (hin : c.candidateBegin ≤ c.recordEnd) {a : RegexAnalysis} : (c.clip regionBegin (c.clipEnd a)).validate = true := by
  refine (VerifierContext.validate_iff _).2 { hv with region := fun _ => ⟨hsource, ?_, ?_⟩ }
  · exact hbegin.trans (candidateBegin_le_clipEnd hv hin)
  · exact (Nat.min_le_left _ _).trans hv.record_end

theorem nfaSearch_invalid (h : ¬ c.validate = true) (fileId : Nat) : nfaSearch icu p c fileId = none := by
  unfold nfaSearch
  rw [Bool.eq_false_of_not_eq_true h]
  rfl

/-- **Clipping to the region of `find` changes nothing** exactly when the region holds what the plain run reads; it does
when the literals of the pattern are exact and no rune straddles the end of the record. -/
theorem nfaSearch_region_iff {pattern : Bytes} {opt : PatternOptions} (hp : parseRegex icu pattern opt = .ok p)
    {a : RegexAnalysis} (ha : boundedRegexEligible p opt = some a) (hv : c.validate = true) (hc : c.boundedRegion = false)
    (hbegin : regionBegin ≤ c.candidateBegin) (fileId : Nat) :
    (nfaSearch icu p (c.clip regionBegin (c.clipEnd a)) fileId = nfaSearch icu p c fileId ↔
        RegionHolds icu p c regionBegin (c.clipEnd a)) ∧
      (c.sourceBegin ≤ regionBegin → p.ast.exactLiterals = true → c.Fits →
        RegionHolds icu p c regionBegin (c.clipEnd a)) := by
  have hlit := boundedRegexEligible_scan ha
  obtain ⟨rfl, hext, w, hw⟩ := boundedRegexEligible_ok ha
  have hreg := parseRegex_regular hp hext
  obtain ⟨start, accept, hl, -⟩ := hreg.loaded
  have hval := (VerifierContext.validate_iff c).1 hv
  have hcand := hval.candidate_le
  have hcend := hval.candidate_end
  have hstops := @nfaSearchLoop_stops_iff icu p c start accept hval hl (c.clipEnd (analyzeRegex p.ast))
    (candidateEnd_le_clipEnd hval) fileId
  have hnone := @nfaSearchLoop_none_iff icu p c start accept hval hl fileId
  rw [← nfaSearch_loop hlit] at hstops hnone
  refine ⟨⟨fun heq => ⟨fun hsource => ?_, ?_⟩, fun h => ?_⟩, fun hsource hexact hfits => ⟨fun hlt => ?_, ?_⟩⟩
  · -- a region that begins before the source makes the context one no search accepts
    refine hnone.1 ?_
    rw [← heq]
    refine nfaSearch_invalid (fun hr => ?_) fileId
    exact absurd (((VerifierContext.validate_iff _).1 hr).region rfl).1 (Nat.not_le.2 hsource)
  · refine hstops.1 (fun m hm => ?_)
    by_cases hr : (c.clip regionBegin (c.clipEnd (analyzeRegex p.ast))).validate = true
    · have hin : c.candidateBegin ≤ c.recordEnd := by
        have h1 := nfaSearch_start hval hm
        have h2 := (nfaSearch_within hval hval.reads hm).1.start
        omega
      exact (nfaSearch_clip_iff hval hc hr hlit (candidateBegin_le_clipEnd hval hin) (candidateEnd_le_clipEnd hval)
        fileId).1 heq m hm
    · rw [nfaSearch_invalid hr, hm] at heq
      cases heq
  · rcases Nat.lt_or_ge c.recordEnd c.candidateBegin with hpast | hin
    · -- no candidate is left
      rw [nfaSearch_idle (show c.candidateEnd ≤ c.candidateBegin by omega),
        nfaSearch_idle (show (c.clip regionBegin _).candidateEnd ≤ (c.clip regionBegin _).candidateBegin by
          change c.candidateEnd ≤ c.candidateBegin
          omega)]
    · by_cases hr : (c.clip regionBegin (c.clipEnd (analyzeRegex p.ast))).validate = true
      · exact (nfaSearch_clip_iff hval hc hr hlit (candidateBegin_le_clipEnd hval hin) (candidateEnd_le_clipEnd hval)
          fileId).2 (hstops.2 h.stops)
      · have hsource : regionBegin < c.sourceBegin :=
          Nat.not_le.1 (fun hle => hr (clip_validate hval hle hbegin hin))
        rw [nfaSearch_invalid hr, hnone.2 (h.source hsource)]
  · omega
  · refine hstops.1 (fun m hm => ?_)
    have hspan := hreg.nfaSearch_span hlit hm
    have hstart := nfaSearch_start hval hm
    have hwidth := (spans_cuts hval hc).width p.ast m.start m.stop ⟨hexact, hspan⟩ w hw
    have hrecord := spans_le_recordEnd hval hfits p.ast (by omega) hspan
    refine Nat.le_min.2 ⟨hrecord, ?_⟩
    rw [hw]
    change m.stop ≤ c.candidateEnd + w + _
    omega

end

/-- `abxcabxc` and U+00E9, in a record that ends between its two bytes. -/
def straddledContext : VerifierContext :=
  { source := [0x61, 0x62, 0x78, 0x63, 0x61, 0x62, 0x78, 0x63, 0xC3, 0xA9], sourceEnd := 10, recordEnd := 9,
    candidateEnd := 6 }

/-- The second `ab.c.` reads over the end of the region, but the search is done with the first. -/
theorem nfaSearch_region_first : ∃ p a, parseRegex asciiIcu [0x61, 0x62, 0x2E, 0x63, 0x2E] {} = .ok p ∧
    boundedRegexEligible p {} = some a ∧ straddledContext.clipEnd a = 9 ∧
    RegionHolds asciiIcu p straddledContext 0 (straddledContext.clipEnd a) := by
  obtain ⟨p, hp, ht⟩ := parsesTo_iff.1
    (show parsesTo asciiIcu [0x61, 0x62, 0x2E, 0x63, 0x2E] {} (fun p => match boundedRegexEligible p {} with
      | some a => decide (straddledContext.clipEnd a = 9 ∧
          nfaSearch asciiIcu p (straddledContext.clip 0 (straddledContext.clipEnd a)) 0 =
            nfaSearch asciiIcu p straddledContext 0)
      | none   => false) = true by decide +kernel)
  cases ha : boundedRegexEligible p {} with
  | none => simp [ha] at ht
  | some a =>
    simp only [ha, decide_eq_true_eq] at ht
    have hv : straddledContext.validate = true := by decide
    exact ⟨p, a, hp, ha, ht.1, (nfaSearch_region_iff hp ha hv rfl (Nat.le_refl 0) 0).1.1 ht.2⟩

/-- `.ab.` and eight times `\xE9`: eighteen bytes by its bounds. -/
def hexPattern : Bytes := [0x2E, 0x61, 0x62, 0x2E] ++ (List.replicate 8 [0x5C, 0x78, 0x45, 0x39]).flatten

def hexContext : VerifierContext :=
  { source := [0x78, 0x61, 0x62, 0x78] ++ (List.replicate 8 [0xC3, 0xA9]).flatten, sourceEnd := 20, recordEnd := 20,
    candidateEnd := 1 }

/-- Each `\xE9` counts one byte and takes two: the plain search matches 20 bytes, the region ends at 19. -/
theorem not_nfaSearch_region : ¬ ∀ (icu : Icu) (pattern : Bytes) (opt : PatternOptions) (p : RegexProgram) (a : RegexAnalysis)
    (c : VerifierContext) (regionBegin fileId : Nat), parseRegex icu pattern opt = .ok p → boundedRegexEligible p opt = some a →
      c.validate = true → c.boundedRegion = false → c.sourceBegin ≤ regionBegin → regionBegin ≤ c.candidateBegin →
      nfaSearch icu p (c.clip regionBegin (c.clipEnd a)) fileId = nfaSearch icu p c fileId := by
  intro h
  obtain ⟨p, hp, ht⟩ := parsesTo_iff.1
    (show parsesTo asciiIcu hexPattern {} (fun p => match boundedRegexEligible p {} with
      | some a => decide (nfaSearch asciiIcu p (hexContext.clip 0 (hexContext.clipEnd a)) 0 ≠ nfaSearch asciiIcu p hexContext 0)
      | none   => false) = true by decide +kernel)
  cases ha : boundedRegexEligible p {} with
  | none => simp [ha] at ht
  | some a =>
    simp only [ha, decide_eq_true_eq] at ht
    exact ht (h asciiIcu hexPattern {} p a hexContext 0 0 hp ha (by decide) rfl (Nat.le_refl 0) (Nat.le_refl 0))

end Pergrep
