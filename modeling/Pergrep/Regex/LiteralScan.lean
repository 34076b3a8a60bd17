import Pergrep.Regex.SimRun
/-!
# LiteralScan — the fast path of `nfa_search` for a case-insensitive literal

The scan steps over runes and compares folded code points; in front of a literal whose first folded code point is not
ASCII it steps over ASCII bytes without decoding them.  `literalScan_some` and `literalScan_none`: it finds the first
position of the chain at which the literal is, or there is none.
-/
namespace Pergrep

section
variable {icu : Icu} {c : VerifierContext}

/-- **The folded comparison reads the literal**, runes and all. -/
theorem contextLiteralAtValidated_iff (hf : icu.FoldsAscii) {f : NodeFlags} (hi : f.icase = true) :
    ∀ {xs : List Nat} {pos e : Nat},
      contextLiteralAtValidated icu c (xs.map icu.foldCase) pos = some e ↔ literalSpan icu c f xs pos e
  | [], pos, e => by
    rw [List.map_nil, contextLiteralAtValidated, literalSpan, Option.some.injEq]
  | x :: xs, pos, e => by
    have ih := @contextLiteralAtValidated_iff hf f hi xs
    rw [List.map_cons, contextLiteralAtValidated, literalSpan, hi]
    cases hr : contextRuneAtValidated c pos with
    | none => simp
    | some r =>
      simp only [icu.foldedCpEq_eq hf]
      by_cases heq : icu.cpEq r.cp x true = true
      · rw [if_pos heq, ih]
        constructor
        · exact fun h => ⟨r, rfl, heq, h⟩
        · rintro ⟨r', hr', -, h⟩
          cases hr'
          exact h
      · rw [if_neg heq]
        constructor
        · intro h
          cases h
        · rintro ⟨r', hr', h, -⟩
          cases hr'
          exact absurd h heq

theorem contextLiteralAtValidated_lt (hv : c.Valid) {lit : List Nat} (hne : lit ≠ []) {pos e : Nat}
    (h : contextLiteralAtValidated icu c lit pos = some e) : pos < c.recordEnd := by
  obtain ⟨x, xs, rfl⟩ := List.exists_cons_of_ne_nil hne
  rw [contextLiteralAtValidated] at h
  cases hr : contextRuneAtValidated c pos with
  | none =>
    rw [hr] at h
    cases h
  | some r => exact (contextRuneAtValidated_next hv hr).2.1

theorem rune_of_ascii {pos : Nat} {b : UInt8} (hlo : c.recordBegin ≤ pos) (hhi : pos < c.recordEnd)
    (hb : c.source[pos - c.sourceBegin]? = some b) (hascii : b < 0x80)
    (hreg : c.boundedRegion = false ∨ pos < c.regionEnd) :
    contextRuneAtValidated c pos = some ⟨b.toNat, pos + 1⟩ := by
  unfold contextRuneAtValidated
  rw [if_neg (by omega)]
  simp only [hb, if_pos hascii]
  rw [if_pos]
  rcases hreg with h | h
  · left
    simp [h]
  · right
    omega

theorem literal_not_ascii {lit : List Nat} {pos : Nat} {r : Rune} (hhead : 0x80 ≤ lit.headD 0)
    (hr : contextRuneAtValidated c pos = some r) (hascii : r.cp < 0x80) : contextLiteralAtValidated icu c lit pos = none := by
  cases lit with
  | nil => simp at hhead
  | cons x xs =>
    rw [List.headD_cons] at hhead
    rw [contextLiteralAtValidated, hr]
    simp only [Icu.foldedCpEq, if_pos hascii, if_pos hhead, Bool.false_eq_true, if_false]

/-- What the inner loop steps over has no literal, and it stops at a position that is not ASCII or at the end. -/
theorem skipAscii_spec (hv : c.Valid) {scanEnd : Nat} (hse : scanEnd ≤ c.recordEnd) :
    ∀ (fuel : Nat) {pos : Nat}, c.recordBegin ≤ pos →
      pos ≤ skipAscii c scanEnd fuel pos ∧ RChain c pos (skipAscii c scanEnd fuel pos) ∧
        ∀ s, RChain c pos s → s < skipAscii c scanEnd fuel pos →
          ∃ r, contextRuneAtValidated c s = some r ∧ r.cp < 0x80
  | 0, pos, _ => ⟨Nat.le_refl _, .refl, fun s hs hlt => by
      have := RChain.le hv hs
      simp only [skipAscii] at hlt
      omega⟩
  | fuel + 1, pos, hlo => by
    have hstay : ∀ s, RChain c pos s → ¬ s < pos := fun s hs => by
      have := RChain.le hv hs
      omega
    have hsame : skipAscii c scanEnd (fuel + 1) pos = pos →
        pos ≤ skipAscii c scanEnd (fuel + 1) pos ∧ RChain c pos (skipAscii c scanEnd (fuel + 1) pos) ∧
        ∀ s, RChain c pos s → s < skipAscii c scanEnd (fuel + 1) pos →
          ∃ r, contextRuneAtValidated c s = some r ∧ r.cp < 0x80 := by
      intro he
      rw [he]
      exact ⟨Nat.le_refl _, .refl, fun s hs hlt => absurd hlt (hstay s hs)⟩
    by_cases hin : pos < scanEnd ∧ (!c.boundedRegion ∨ pos < c.regionEnd)
    · cases hb : c.source[pos - c.sourceBegin]? with
      | none => exact hsame (by rw [skipAscii, if_pos hin, hb])
      | some b =>
        by_cases hascii : 0x80 ≤ b
        · exact hsame (by rw [skipAscii, if_pos hin, hb]; simp only [if_pos hascii])
        · have hstep : skipAscii c scanEnd (fuel + 1) pos = skipAscii c scanEnd fuel (pos + 1) := by
            rw [skipAscii, if_pos hin, hb]
            simp only [if_neg hascii]
          have hlt : b < 0x80 := by simpa using hascii
          have hr := rune_of_ascii hlo (by omega) hb hlt (by simpa using hin.2)
          obtain ⟨h1, h2, h3⟩ := skipAscii_spec hv hse fuel (show c.recordBegin ≤ pos + 1 by omega)
          rw [hstep]
          refine ⟨by omega, .head ⟨_, hr, rfl⟩ h2, fun s hs hlts => ?_⟩
          by_cases hsp : pos = s
          · subst hsp
            refine ⟨_, hr, ?_⟩
            exact UInt8.lt_iff_toNat_lt.1 hlt
          · exact h3 s (hs.next hsp ⟨_, hr, rfl⟩) hlts
    · exact hsame (by rw [skipAscii, if_neg hin])

def scanPos (c : VerifierContext) (lit : List Nat) (scanEnd pos : Nat) : Nat :=
  if 0x80 ≤ lit.headD 0 then skipAscii c scanEnd (scanEnd - pos) pos else pos

variable (icu) in
theorem scanPos_spec (hv : c.Valid) (lit : List Nat) {scanEnd : Nat} (hse : scanEnd ≤ c.recordEnd)
    {pos : Nat} (hlo : c.recordBegin ≤ pos) :
    RChain c pos (scanPos c lit scanEnd pos) ∧
      ∀ s, RChain c pos s → s < scanPos c lit scanEnd pos → contextLiteralAtValidated icu c lit s = none := by
  unfold scanPos
  split
  · rename_i hhead
    obtain ⟨-, h2, h3⟩ := skipAscii_spec hv hse (scanEnd - pos) hlo
    refine ⟨h2, fun s hs hlt => ?_⟩
    obtain ⟨r, hr, hascii⟩ := h3 s hs hlt
    exact literal_not_ascii hhead hr hascii
  · refine ⟨.refl, fun s hs hlt => ?_⟩
    have := RChain.le hv hs
    omega

theorem literalScan_succ (lit : List Nat) (scanEnd fuel pos : Nat) :
    literalScan icu c lit scanEnd (fuel + 1) pos =
      if pos < scanEnd then
        if 0x80 ≤ lit.headD 0 ∧ (scanEnd ≤ scanPos c lit scanEnd pos ∨
            (c.boundedRegion ∧ c.regionEnd ≤ scanPos c lit scanEnd pos)) then none
        else
          match contextLiteralAtValidated icu c lit (scanPos c lit scanEnd pos) with
          | some e => some (scanPos c lit scanEnd pos, e)
          | none =>
            match contextRuneAtValidated c (scanPos c lit scanEnd pos) with
            | some r => literalScan icu c lit scanEnd fuel r.next
            | none   => none
      else none := by
  have hpos : (if decide (0x80 ≤ lit.headD 0) = true then skipAscii c scanEnd (scanEnd - pos) pos else pos) =
      scanPos c lit scanEnd pos := if_congr decide_eq_true_iff rfl rfl
  rw [literalScan]
  dsimp only
  rw [hpos]
  exact if_congr Iff.rfl (if_congr (and_congr decide_eq_true_iff Iff.rfl) rfl rfl) rfl

/-- **What the scan finds is the first position of the chain where the literal is.** -/
theorem literalScan_some (hv : c.Valid) {lit : List Nat} {scanEnd : Nat} (hse : scanEnd ≤ c.recordEnd) :
    ∀ (fuel : Nat) {pos s e : Nat}, c.recordBegin ≤ pos → literalScan icu c lit scanEnd fuel pos = some (s, e) →
      RChain c pos s ∧ s < scanEnd ∧ contextLiteralAtValidated icu c lit s = some e ∧
        ∀ s', RChain c pos s' → s' < s → contextLiteralAtValidated icu c lit s' = none
  | 0, _, _, _, _, h => by cases h
  | fuel + 1, pos, s, e, hlo, h => by
    obtain ⟨hchain, hskip⟩ := scanPos_spec icu hv lit hse hlo
    have hle := RChain.le hv hchain
    rw [literalScan_succ] at h
    split at h
    · rename_i hpos
      split at h
      · cases h
      · rename_i hend
        cases hl : contextLiteralAtValidated icu c lit (scanPos c lit scanEnd pos) with
        | some e' =>
          rw [hl] at h
          cases h
          refine ⟨hchain, ?_, hl, fun s' hs' hlt => hskip s' hs' hlt⟩
          by_cases hhead : 0x80 ≤ lit.headD 0
          · omega
          · rwa [scanPos, if_neg hhead]
        | none =>
          rw [hl] at h
          cases hr : contextRuneAtValidated c (scanPos c lit scanEnd pos) with
          | none => rw [hr] at h; cases h
          | some r =>
            rw [hr] at h
            have hmove : RStep c (scanPos c lit scanEnd pos) r.next := ⟨r, hr, rfl⟩
            have hlt := RStep.lt hv hmove
            obtain ⟨h1, h2, h3, h4⟩ := literalScan_some hv hse fuel (by omega) h
            refine ⟨(hchain.tail hmove).trans h1, h2, h3, fun s' hs' hlt' => ?_⟩
            rcases Nat.lt_trichotomy s' (scanPos c lit scanEnd pos) with hlt'' | rfl | hgt
            · exact hskip s' hs' hlt''
            · exact hl
            · exact h4 s' ((chain_of_le hv hchain hs' hgt.le).next (by omega) hmove) hlt'
    · cases h

/-- **A scan that finds nothing has looked at every position of the chain.** -/
theorem literalScan_none (hv : c.Valid) {lit : List Nat} (hne : lit ≠ []) {scanEnd : Nat}
    (hse : scanEnd ≤ c.recordEnd) :
    ∀ (fuel : Nat) {pos : Nat}, c.recordBegin ≤ pos → scanEnd - pos < fuel →
      literalScan icu c lit scanEnd fuel pos = none →
      ∀ s, RChain c pos s → s < scanEnd → contextLiteralAtValidated icu c lit s = none
  | 0, _, _, hfuel, _ => absurd hfuel (Nat.not_lt_zero _)
  | fuel + 1, pos, hlo, hfuel, h => by
    intro s hs hlt
    obtain ⟨hchain, hskip⟩ := scanPos_spec icu hv lit hse hlo
    have hle := RChain.le hv hchain
    have hles := RChain.le hv hs
    -- a position with no rune has no literal
    have hdead : contextRuneAtValidated c s = none → contextLiteralAtValidated icu c lit s = none := by
      intro hr
      cases lit with
      | nil => exact absurd rfl hne
      | cons x xs => rw [contextLiteralAtValidated, hr]
    by_cases hbefore : s < scanPos c lit scanEnd pos
    · exact hskip s hs hbefore
    · have hps := chain_of_le hv hchain hs (by omega)
      rw [literalScan_succ, if_pos (by omega)] at h
      split at h
      · rename_i hend
        obtain ⟨-, hend | ⟨hb, hreg⟩⟩ := hend
        · omega
        · refine hdead ?_
          cases hr : contextRuneAtValidated c s with
          | none => rfl
          | some r =>
            have hreg' := contextRuneAtValidated_region hb hr
            have hmove := (contextRuneAtValidated_next hv hr).2.2.1
            omega
      · cases hl : contextLiteralAtValidated icu c lit (scanPos c lit scanEnd pos) with
        | some e =>
          rw [hl] at h
          cases h
        | none =>
          rw [hl] at h
          by_cases hsp : scanPos c lit scanEnd pos = s
          · rw [← hsp]
            exact hl
          · obtain ⟨r, hr⟩ := rune_of_chain hps (by omega)
            rw [hr] at h
            have hmove : RStep c (scanPos c lit scanEnd pos) r.next := ⟨r, hr, rfl⟩
            have := RStep.lt hv hmove
            exact literalScan_none hv hne hse fuel (by omega) (by omega) h s (hps.next hsp hmove) hlt

end

end Pergrep
