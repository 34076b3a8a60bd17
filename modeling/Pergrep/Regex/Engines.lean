import Pergrep.Regex.Ways
/-!
# Engines — the backtracking engine finds what the simulation finds

The ways of a regular tree are its spans where a repetition with a least number of iterations has a body that takes something
(`ways_iff_spans`).  So on such a tree the two engines find a match from the same records (`engines_agree`), and the backtracking
engine, whatever its tree, answers with the leftmost start there is (`evalSearch_leftmost`).
-/
namespace Pergrep

open Throw Steps

mutual
/-- A repetition that has to iterate has a body that takes something. -/
def RegexNode.steady : RegexNode → Bool
  | .empty _ | .literal _ _ | .dot _ | .cls _ _ | .assert _ _ | .backRef _ _ => true
  | .concat _ cs | .alt _ cs => RegexNode.steadyAll cs
  | .repeat_ _ mn _ _ c => (decide (mn = 0) || ((analyzeRegex c).nullableKnown && !(analyzeRegex c).nullable)) && c.steady
  | .group _ _ _ c | .lookAhead _ _ c | .lookBehind _ _ c => c.steady

def RegexNode.steadyAll : List RegexNode → Bool
  | [] => true
  | c :: cs => c.steady && RegexNode.steadyAll cs
end

theorem RegexNode.steadyAll_iff : ∀ {cs : List RegexNode}, RegexNode.steadyAll cs = true ↔ ∀ c ∈ cs, c.steady = true
  | [] => by simp [RegexNode.steadyAll]
  | c :: cs => by simp [RegexNode.steadyAll, @RegexNode.steadyAll_iff cs]

theorem RegexNode.unreferenced_of_regular (n : RegexNode) : n.regular = true → n.unreferenced = true := by
  induction n using RegexNode.recChildren with
  | empty f => exact fun _ => rfl
  | literal f l => exact fun _ => rfl
  | dot f => exact fun _ => rfl
  | cls f s => exact fun _ => rfl
  | assert f k => exact fun _ => rfl
  | concat f cs ih =>
    exact fun h => RegexNode.unreferencedAll_iff.2 (fun c hc => ih c hc (RegexNode.regularAll_iff.1 h c hc))
  | alt f cs ih =>
    exact fun h => RegexNode.unreferencedAll_iff.2 (fun c hc => ih c hc (RegexNode.regularAll_iff.1 h c hc))
  | repeat_ f mn mx g n ih => exact ih
  | group f g nm n ih => exact ih
  | backRef f g => exact fun h => by cases h
  | lookAhead f neg n _ => exact fun h => by cases h
  | lookBehind f neg n _ => exact fun h => by cases h

section
variable {icu : Icu} {c : VerifierContext} (hv : c.Valid) (hb : c.boundedRegion = false)
include hv hb

omit hb in
theorem not_spans_self {n : RegexNode} (hn : ((analyzeRegex n).nullableKnown && !(analyzeRegex n).nullable) = true) (p : Nat) :
    ¬ spans icu c n p p := by
  intro h
  obtain ⟨k, hk, hallows⟩ := spans_width n h
  rw [Bool.and_eq_true, Bool.not_eq_true'] at hn
  have hzero : k = 0 := runeSteps_unique (fun _ _ hr => (contextRuneAtValidated_next hv hr).2.2.1) hk
    (show runeSteps (contextRuneAtValidated c) 0 p p from rfl)
  rcases hallows.empty hzero with h | h
  · rw [hn.2] at h
    cases h
  · rw [hn.1] at h
    cases h

omit hv hb in
theorem literalWay_iff (hread : contextRuneAtValidated c = contextRuneAt c) {f : NodeFlags} : ∀ {xs : List Nat} {p q : Nat},
    literalWay icu c f.icase xs p q ↔ literalSpan icu c f xs p q
  | [], _, _ => Iff.rfl
  | x :: xs, p, q => by
    rw [literalWay, literalSpan, hread]
    exact exists_congr (fun r => and_congr_right (fun _ => and_congr_right (fun _ => literalWay_iff hread)))

/-- **The ways of a steady regular tree are its spans.** -/
theorem ways_iff_spans (n : RegexNode) : n.regular = true → n.steady = true → ∀ p q, ways icu n c p q ↔ spans icu c n p q := by
  have hread : contextRuneAtValidated c = contextRuneAt c := funext (contextRuneAtValidated_eq hv hb)
  induction n using RegexNode.recChildren with
  | empty f => exact fun _ _ p q => Iff.rfl
  | literal f l => exact fun _ _ p q => literalWay_iff hread
  | dot f =>
    intro _ _ p q
    rw [ways, spans, hread]
  | cls f s =>
    intro _ _ p q
    rw [ways, spans, hread]
  | assert f k => exact fun _ _ p q => Iff.rfl
  | concat f cs ih =>
    intro hr hs p q
    replace hr := RegexNode.regularAll_iff.1 hr
    replace hs := RegexNode.steadyAll_iff.1 hs
    rw [ways, spans]
    induction cs generalizing p with
    | nil => exact Iff.rfl
    | cons n ns ihs =>
      rw [waysAll, spansAll]
      refine exists_congr (fun m => and_congr
        (ih n List.mem_cons_self (hr n List.mem_cons_self) (hs n List.mem_cons_self) p m) ?_)
      exact ihs (fun d hd => ih d (List.mem_cons_of_mem _ hd)) m (fun d hd => hr d (List.mem_cons_of_mem _ hd))
        (fun d hd => hs d (List.mem_cons_of_mem _ hd))
  | alt f cs ih =>
    intro hr hs p q
    replace hr := RegexNode.regularAll_iff.1 hr
    replace hs := RegexNode.steadyAll_iff.1 hs
    rw [ways, spans]
    induction cs with
    | nil => exact Iff.rfl
    | cons n ns ihs =>
      rw [waysAny, spansAny]
      refine or_congr (ih n List.mem_cons_self (hr n List.mem_cons_self) (hs n List.mem_cons_self) p q) ?_
      exact ihs (fun d hd => ih d (List.mem_cons_of_mem _ hd)) (fun d hd => hr d (List.mem_cons_of_mem _ hd))
        (fun d hd => hs d (List.mem_cons_of_mem _ hd))
  | repeat_ f mn mx g n ih =>
    intro hr hs p q
    obtain ⟨hbody, hs⟩ := Bool.and_eq_true_iff.1 hs
    have hR : (fun p q => ways icu n c p q) = fun p q => spans icu c n p q := by
      funext p q
      exact propext (ih hr hs p q)
    rw [ways, spans, hR]
    constructor
    · rintro ⟨k, h1, h2, h⟩
      exact ⟨k, h1, h2, iterSpan_imp (fun _ _ hpq => hpq.1) h⟩
    · rintro ⟨k, h1, h2, h⟩
      rcases Bool.or_eq_true_iff.1 hbody with hmn | hbody
      · -- the iterations that take nothing are left out
        obtain ⟨j, hj, h⟩ := iterSpan_moving h
        rw [decide_eq_true_eq] at hmn
        exact ⟨j, by omega, h2.imp_right (hj.trans ·), h⟩
      · refine ⟨k, h1, h2, iterSpan_imp (fun x y hxy => ⟨hxy, fun heq => ?_⟩) h⟩
        rw [heq] at hxy
        exact not_spans_self hv hbody x hxy
  | group f g nm n ih => exact ih
  | backRef f g => exact fun h => by cases h
  | lookAhead f neg n _ => exact fun h => by cases h
  | lookBehind f neg n _ => exact fun h => by cases h

/-! ## The search -/

omit hv hb in
theorem Computes.nonempty {f : VmState → Eval (List VmState)} {R : Nat → Nat → Prop} (hf : Computes f R) {s : VmState}
    {v : List VmState} (h : f s = .ok v) : v ≠ [] ↔ ∃ e, R s.pos e := by
  simp only [← hf s v h]
  constructor
  · intro hne
    obtain ⟨z, hz⟩ := List.exists_mem_of_ne_nil v hne
    exact ⟨z.pos, z, hz, rfl⟩
  · rintro ⟨e, z, hz, -⟩
    exact List.ne_nil_of_mem hz

theorem stepStart_rune {p : Nat} (h1 : c.recordBegin ≤ p) (h2 : p < c.recordEnd) : RStep c p (stepStart c p) := by
  obtain ⟨r, hr⟩ := contextRuneAtValidated_isSome hv hb h1 h2
  refine ⟨r, hr, ?_⟩
  rw [stepStart, ← contextRuneAtValidated_eq hv hb, hr]
  rfl

/-- **The backtracking search answers with the leftmost start** that has a way, and one of its ways. -/
theorem evalSearch_leftmost {p : RegexProgram} (hn : p.ast.unreferenced = true) (hshort : c.Short) {fid : Nat} :
    ∀ {fuel st : Nat} {r : Option Match}, c.candidateEnd - st < fuel → c.recordBegin ≤ st → evalSearch icu p c fid fuel st = .ok r →
      (r = none → ∀ q e, RChain c st q → q < c.candidateEnd → ¬ ways icu p.ast c q e) ∧
      ∀ m, r = some m → RChain c st m.start ∧ m.start < c.candidateEnd ∧ ways icu p.ast c m.start m.stop ∧
        ∀ q e, RChain c st q → q < m.start → ¬ ways icu p.ast c q e
  | 0, _, _, hfuel, _, _ => absurd hfuel (Nat.not_lt_zero _)
  | fuel + 1, st, r, hfuel, hst, h => by
    have hend := hv.candidate_end
    rw [evalSearch] at h
    split at h
    · rename_i hlt
      obtain ⟨v, hv', h⟩ := bind_ok h
      have hcomp := @eval_ways icu p.ast hn c hshort 0
      have hnon := hcomp.nonempty hv'
      split at h
      · rename_i z v
        cases h
        refine ⟨fun h => (by cases h), fun m hm => ?_⟩
        cases hm
        refine ⟨.refl, hlt, (hcomp _ _ hv' _).1 ⟨z, List.mem_cons_self, rfl⟩, fun q e hq hlt' => ?_⟩
        have := hq.le hv
        dsimp only at hlt'
        omega
      · -- no way from here
        have hnone : ∀ e, ¬ ways icu p.ast c st e := fun e he => hnon.2 ⟨e, he⟩ rfl
        split at h
        · rename_i hrec
          cases h
          refine ⟨fun _ q e hq hq' => ?_, fun m hm => by cases hm⟩
          rcases hq.cases_head with rfl | ⟨b, ⟨r, hr, -⟩, -⟩
          · exact hnone e
          · have := (contextRuneAtValidated_next hv hr).2.1
            omega
        · rename_i hrec
          have hstep := stepStart_rune hv hb hst (by omega)
          have hnext := hstep.lt hv
          obtain ⟨h1, h2⟩ := evalSearch_leftmost hn hshort (by omega) (by omega) h
          have hsplit : ∀ {q : Nat}, RChain c st q → q = st ∨ RChain c (stepStart c st) q := by
            intro q hq
            by_cases heq : st = q
            · exact Or.inl heq.symm
            · exact Or.inr (hq.next heq hstep)
          refine ⟨fun hr q e hq hq' => ?_, fun m hm => ?_⟩
          · rcases hsplit hq with rfl | hq
            · exact hnone e
            · exact h1 hr q e hq hq'
          · obtain ⟨h3, h4, h5, h6⟩ := h2 m hm
            refine ⟨.head hstep h3, h4, h5, fun q e hq hq' => ?_⟩
            rcases hsplit hq with rfl | hq
            · exact hnone e
            · exact h6 q e hq hq'
    · cases h
      refine ⟨fun _ q e hq hq' => ?_, fun m hm => by cases hm⟩
      have := hq.le hv
      omega

end

section
variable {icu : Icu} {p : RegexProgram} {c : VerifierContext} {pattern : Bytes} {opt : PatternOptions} {fid : Nat}

/-- **Look-arounds find the leftmost start.**  A search with an extended pattern that refers back to no group, when it returns,
answers with the leftmost candidate start the tree leads somewhere from, and with a place it leads to; with none when there is
no such start. -/
theorem regexSearch_leftmost (hx : p.extended = true) (hn : p.ast.unreferenced = true) (hval : c.validate = true)
    (hb : c.boundedRegion = false) (hshort : c.Short) {r : Option Match} (h : regexSearch icu p c fid = .ok r) :
    (r = none ↔ ∀ st e, CandidateStart c st → ¬ ways icu p.ast c st e) ∧
      ∀ m, r = some m → CandidateStart c m.start ∧ ways icu p.ast c m.start m.stop ∧
        ∀ st e, CandidateStart c st → st < m.start → ¬ ways icu p.ast c st e := by
  have hv := (VerifierContext.validate_iff c).1 hval
  unfold regexSearch at h
  rw [hval, hx, Bool.not_true, if_neg Bool.false_ne_true, if_neg Bool.false_ne_true] at h
  obtain ⟨h1, h2⟩ := evalSearch_leftmost hv hb hn hshort (Nat.lt_succ_self _) hv.candidate_ge h
  refine ⟨⟨fun hr st e hst => h1 hr st e hst.1 hst.2, fun hnone => ?_⟩, fun m hm => ?_⟩
  · cases r with
    | none => rfl
    | some m =>
      obtain ⟨h3, h4, h5, -⟩ := h2 m rfl
      exact absurd h5 (hnone m.start m.stop ⟨h3, h4⟩)
  · obtain ⟨h3, h4, h5, h6⟩ := h2 m hm
    exact ⟨⟨h3, h4⟩, h5, fun st e hst hlt => h6 st e hst.1 hlt⟩

/-- `a(?=b)` on `aab`: the second `a`. -/
theorem regexSearch_leftmost_ahead : ∃ p m, parseRegex asciiIcu [0x61, 0x28, 0x3F, 0x3D, 0x62, 0x29] { engine := .pcre2Compat } =
    .ok p ∧ regexSearch asciiIcu p (textContext [0x61, 0x61, 0x62]) 0 = .ok (some m) ∧ m.start = 1 ∧ m.stop = 2 ∧
      ways asciiIcu p.ast (textContext [0x61, 0x61, 0x62]) 1 2 ∧
      ∀ st e, CandidateStart (textContext [0x61, 0x61, 0x62]) st → st < 1 →
        ¬ ways asciiIcu p.ast (textContext [0x61, 0x61, 0x62]) st e := by
  obtain ⟨p, hp, ht⟩ := parsesTo_iff.1 (show parsesTo asciiIcu [0x61, 0x28, 0x3F, 0x3D, 0x62, 0x29] { engine := .pcre2Compat }
    (fun p => p.extended && p.ast.unreferenced && returns (regexSearch asciiIcu p (textContext [0x61, 0x61, 0x62]) 0)
      (fun r => r.any (fun m => decide (m.start = 1 ∧ m.stop = 2)))) = true by decide +kernel)
  simp only [Bool.and_eq_true, returns_iff, Option.any_eq_true, decide_eq_true_eq] at ht
  obtain ⟨⟨hx, hn⟩, r, hr, m, rfl, hstart, hstop⟩ := ht
  obtain ⟨-, hways, hleft⟩ := (regexSearch_leftmost hx hn (by decide) rfl ⟨by decide, by decide⟩ hr).2 m rfl
  rw [hstart] at hways hleft
  rw [hstop] at hways
  exact ⟨p, m, hp, hr, hstart, hstop, hways, hleft⟩

/-- **The engines agree** on a regular pattern whose repetitions, where they have to iterate, iterate a body that takes something:
on a record no longer than a repetition goes, the backtracking search, when it returns, finds a match exactly when the simulation
does; its start is the leftmost candidate start with a span, its end is the end of a span, and from the start of the simulation's
match `eval`, when it returns, leads to the end of it. -/
theorem engines_agree (hf : icu.FoldsAscii) (hp : parseRegex icu pattern opt = .ok p) (hx : p.extended = false)
    (hregular : p.ast.regular = true) (hsteady : p.ast.steady = true) {ir : QueryIR} (hir : ir.prefixes = [])
    (hval : c.validate = true) (hb : c.boundedRegion = false) (hshort : c.Short) {r : Option Match}
    (h : evalSearch icu p c fid (c.candidateEnd - c.candidateBegin + 1) c.candidateBegin = .ok r) :
    (r.isSome = true ↔ (nfaSearch icu { p with queryIr := ir } c fid).isSome = true) ∧
      (∀ m, r = some m → CandidateStart c m.start ∧ spans icu c p.ast m.start m.stop ∧
        ∀ st e, CandidateStart c st → st < m.start → ¬ spans icu c p.ast st e) ∧
      ∀ m, nfaSearch icu { p with queryIr := ir } c fid = some m → ∀ depth caps v,
        eval icu p.ast c depth { pos := m.start, caps := caps } = .ok v → ∃ z ∈ v, z.pos = m.stop := by
  have hv := (VerifierContext.validate_iff c).1 hval
  have hn := RegexNode.unreferenced_of_regular p.ast hregular
  have hways := @ways_iff_spans icu c hv hb p.ast hregular hsteady
  obtain ⟨h1, h2⟩ := evalSearch_leftmost hv hb hn hshort (Nat.lt_succ_self _) hv.candidate_ge h
  obtain ⟨hfinds, hsound⟩ := nfaSearch_finds_spans hf hp hx hir hval fid
  refine ⟨?_, fun m hm => ?_, fun m hm depth caps v hev => ?_⟩
  · rw [hfinds]
    cases r with
    | none =>
      refine iff_of_false (fun h => by cases h) ?_
      rintro ⟨st, e, hst, hse⟩
      exact h1 rfl st e hst.1 hst.2 ((hways st e).2 hse)
    | some m =>
      obtain ⟨h3, h4, h5, -⟩ := h2 m rfl
      exact iff_of_true rfl ⟨m.start, m.stop, ⟨h3, h4⟩, (hways _ _).1 h5⟩
  · obtain ⟨h3, h4, h5, h6⟩ := h2 m hm
    exact ⟨⟨h3, h4⟩, (hways _ _).1 h5, fun st e hst hlt hse => h6 st e hst.1 hlt ((hways st e).2 hse)⟩
  · exact (eval_ways p.ast hn hshort depth _ v hev m.stop).2 ((hways _ _).2 (hsound m hm).2)

/-- `(a|b)+c` on `cabc`: both find the last three bytes. -/
theorem engines_agree_word : ∃ p m, parseRegex asciiIcu [0x28, 0x61, 0x7C, 0x62, 0x29, 0x2B, 0x63] {} = .ok p ∧
    evalSearch asciiIcu p (textContext [0x63, 0x61, 0x62, 0x63]) 0 6 0 = .ok (some m) ∧ m.start = 1 ∧ m.stop = 4 ∧
      (nfaSearch asciiIcu { p with queryIr := {} } (textContext [0x63, 0x61, 0x62, 0x63]) 0).isSome = true ∧
      spans asciiIcu (textContext [0x63, 0x61, 0x62, 0x63]) p.ast 1 4 := by
  obtain ⟨p, hp, ht⟩ := parsesTo_iff.1 (show parsesTo asciiIcu [0x28, 0x61, 0x7C, 0x62, 0x29, 0x2B, 0x63] {}
    (fun p => !p.extended && p.ast.regular && p.ast.steady &&
      returns (evalSearch asciiIcu p (textContext [0x63, 0x61, 0x62, 0x63]) 0 6 0)
        (fun r => r.any (fun m => decide (m.start = 1 ∧ m.stop = 4)))) = true by decide +kernel)
  simp only [Bool.and_eq_true, Bool.not_eq_true', returns_iff, Option.any_eq_true, decide_eq_true_eq] at ht
  obtain ⟨⟨⟨hx, hregular⟩, hsteady⟩, r, hr, m, rfl, hstart, hstop⟩ := ht
  have hempty : QueryIR.prefixes {} = [] := rfl
  have hagree := engines_agree asciiIcu_foldsAscii hp hx hregular hsteady hempty (by decide) rfl ⟨by decide, by decide⟩ hr
  obtain ⟨-, hspan, -⟩ := hagree.2.1 m rfl
  rw [hstart, hstop] at hspan
  exact ⟨p, m, hp, hr, hstart, hstop, hagree.1.1 rfl, hspan⟩

/-- `(a?){2}` on `a`: the simulation finds it, the backtracking engine does not. -/
theorem not_engines_agree : ∃ p, parseRegex asciiIcu [0x28, 0x61, 0x3F, 0x29, 0x7B, 0x32, 0x7D] {} = .ok p ∧
    evalSearch asciiIcu p (textContext [0x61]) 0 3 0 = .ok none ∧
      (nfaSearch asciiIcu p (textContext [0x61]) 0).isSome = true := by
  obtain ⟨p, hp, ht⟩ := parsesTo_iff.1 (show parsesTo asciiIcu [0x28, 0x61, 0x3F, 0x29, 0x7B, 0x32, 0x7D] {}
    (fun p => returns (evalSearch asciiIcu p (textContext [0x61]) 0 3 0) (fun r => r.isNone) &&
      (nfaSearch asciiIcu p (textContext [0x61]) 0).isSome) = true by decide +kernel)
  rw [Bool.and_eq_true, returns_iff] at ht
  obtain ⟨⟨r, hr, hnone⟩, hfinds⟩ := ht
  rw [Option.isNone_iff_eq_none.1 hnone] at hr
  exact ⟨p, hp, hr, hfinds⟩

end

end Pergrep
