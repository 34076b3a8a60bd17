import Pergrep.Regex.FastPath
import Pergrep.Regex.ParserRun
/-!
# Quote — a quoted text is a pattern for itself

`quote` puts a backslash before every ASCII character that is no letter and no digit.  In the quoted form of a text the
parser meets a backslash or a plain byte, so it reads the text a character at a time (`atom_quote`), finds nothing to
repeat, and the literals join to one (`parse_quote`).  The compiler gives every code point an instruction; it refuses
what does not fit in its million (`compile_literal_size`).
-/
namespace Pergrep

open NfaCompiler Steps Wiring
open Throw (bind_ok)
open Utf (utf8)

/-! ## The quoted form -/

def quoteByte (b : UInt8) : Bytes := if b < 0x80 ∧ isAlnumByte b = false then [0x5C, b] else [b]

/-- A backslash before every ASCII character that is not a letter or digit. -/
def quote (s : Bytes) : Bytes := s.flatMap quoteByte

/-- What stands for itself in a pattern: letters, digits, and the bytes of the longer sequences. -/
def plainByte (b : UInt8) : Bool := isAlnumByte b || 0x80 ≤ b

theorem plainByte_iff (b : UInt8) : plainByte b = true ↔ ¬ (b < 0x80 ∧ isAlnumByte b = false) := by
  rw [plainByte, Bool.or_eq_true, decide_eq_true_eq, not_and, Bool.not_eq_false, ← UInt8.not_lt]
  constructor
  · rintro (h | h) hlt
    · exact h
    · exact absurd hlt h
  · intro h
    by_cases hlt : b < 0x80
    · exact Or.inl (h hlt)
    · exact Or.inr hlt

theorem quoteByte_plain {b : UInt8} (h : plainByte b = true) : quoteByte b = [b] := if_neg ((plainByte_iff b).1 h)

theorem quoteByte_of_not_plain {b : UInt8} (h : plainByte b = false) : quoteByte b = [0x5C, b] :=
  if_pos (by
    by_contra hn
    rw [(plainByte_iff b).2 hn] at h
    cases h)

theorem quote_append (s t : Bytes) : quote (s ++ t) = quote s ++ quote t := List.flatMap_append

theorem length_le_quote : ∀ s : Bytes, s.length ≤ (quote s).length
  | [] => Nat.le_refl 0
  | b :: s => by
    have hs := length_le_quote s
    have hb : 1 ≤ (quoteByte b).length := by
      unfold quoteByte
      split <;> simp
    rw [quote, List.flatMap_cons, List.length_append, List.length_cons]
    exact Nat.add_comm _ 1 ▸ Nat.add_le_add hb hs

theorem quote_plain : ∀ {s : Bytes}, (∀ b ∈ s, plainByte b = true) → quote s = s
  | [], _ => rfl
  | b :: s, h => by
    rw [quote, List.flatMap_cons, quoteByte_plain (h b List.mem_cons_self), List.singleton_append]
    exact congrArg _ (quote_plain (fun c hc => h c (List.mem_cons_of_mem _ hc)))

theorem quote_head {s : Bytes} {b : UInt8} (h : (quote s).head? = some b) : b = 0x5C ∨ plainByte b = true := by
  cases s with
  | nil => cases h
  | cons a s =>
    rw [quote, List.flatMap_cons] at h
    cases ha : plainByte a with
    | true =>
      rw [quoteByte_plain ha] at h
      cases h
      exact Or.inr ha
    | false =>
      rw [quoteByte_of_not_plain ha] at h
      cases h
      exact Or.inl rfl

theorem plain_appendUtf8 {cp : Nat} (h : ¬ cp < 0x80) (hlt : cp < 0x110000) : ∀ b ∈ appendUtf8 cp, plainByte b = true := by
  have hbyte : ∀ k, 0x80 ≤ k → k < 0x100 → plainByte (UInt8.ofNat k) = true := by
    intro k h1 h2
    rw [plainByte, Bool.or_eq_true, decide_eq_true_eq, UInt8.le_iff_toNat_le, toNat_ofNat_byte h2]
    exact Or.inr h1
  intro b hb
  unfold appendUtf8 at hb
  rw [if_neg h] at hb
  split_ifs at hb
  all_goals simp only [List.mem_cons, List.not_mem_nil, or_false] at hb
  · rcases hb with rfl | rfl
    all_goals exact hbyte _ (by omega) (by omega)
  · rcases hb with rfl | rfl | rfl
    all_goals exact hbyte _ (by omega) (by omega)
  · rcases hb with rfl | rfl | rfl | rfl
    all_goals exact hbyte _ (by omega) (by omega)

theorem quote_char (c : Char) :
    (quote (appendUtf8 c.toNat) = appendUtf8 c.toNat ∧ ∀ b ∈ appendUtf8 c.toNat, plainByte b = true) ∨
      ∃ b, plainByte b = false ∧ appendUtf8 c.toNat = [b] ∧ quote (appendUtf8 c.toNat) = [0x5C, b] := by
  by_cases hc : c.toNat < 0x80
  · have ha : appendUtf8 c.toNat = [UInt8.ofNat c.toNat] := if_pos hc
    have hq : quote [UInt8.ofNat c.toNat] = quoteByte (UInt8.ofNat c.toNat) := List.flatMap_singleton ..
    rw [ha, hq]
    cases hp : plainByte (UInt8.ofNat c.toNat) with
    | true =>
      refine Or.inl ⟨quoteByte_plain hp, fun b hb => ?_⟩
      rw [List.mem_singleton.1 hb]
      exact hp
    | false => exact Or.inr ⟨_, hp, rfl, quoteByte_of_not_plain hp⟩
  · have hp := plain_appendUtf8 hc (Utf.toNat_lt c)
    exact Or.inl ⟨quote_plain hp, hp⟩

/-! ## Reading it -/

namespace Parser

variable {icu : Icu} {s : Bytes}

theorem plainByte_ne {b c : UInt8} (h : plainByte b = true) (hc : plainByte c = false) : b ≠ c := by
  rintro rfl
  rw [h] at hc
  cases hc

theorem escaped_plain {st : PState} {b : UInt8} (h : s[st.i]? = some b) (hb : plainByte b = false) :
    escaped icu s st = .ok (.literal st.flags [b], st.forward 1) := by
  have hal : isAlnumByte b = false := by
    rw [plainByte, Bool.or_eq_false_iff] at hb
    exact hb.1
  have hne : ∀ c, isAlnumByte c = true → b ≠ c := by
    rintro c hc rfl
    rw [hc] at hal
    cases hal
  have hdigit : ¬ (0x31 ≤ b ∧ b ≤ 0x39) := by
    rintro ⟨h1, h2⟩
    refine absurd hal ?_
    rw [isAlnumByte, isDigitByte, Bool.not_eq_false]
    simp only [UInt8.le_iff_toNat_le, UInt8.reduceToNat] at h1 h2
    simp only [Bool.or_eq_true, Bool.and_eq_true, decide_eq_true_eq, UInt8.le_iff_toNat_le, UInt8.reduceToNat]
    omega
  have hperl : isPerlClass b = false := by
    by_contra hp
    rw [Bool.not_eq_false, isPerlClass, List.contains_iff_mem] at hp
    simp only [List.mem_cons, List.not_mem_nil, or_false] at hp
    rcases hp with h | h | h | h | h | h
    all_goals exact hne _ rfl h
  have hctl : controlEscape b = none := by
    unfold controlEscape
    iterate 7 rw [if_neg (hne _ rfl)]
  unfold escaped
  rw [bind_run (getByte_run h), if_neg hdigit, if_neg (hne _ rfl), if_neg (hne _ rfl), if_neg (hne _ rfl), if_neg (hne _ rfl),
    if_neg (hne _ rfl), if_neg (not_or.2 ⟨hne _ rfl, hne _ rfl⟩), hperl, if_neg Bool.false_ne_true, hctl]
  dsimp only
  rw [if_neg (hne _ rfl), if_neg (hne _ rfl), hal]
  rfl

theorem atom_quote {fuel : Nat} {st : PState} {c : Char} {rest : Bytes}
    (h : s.drop st.i = quote (appendUtf8 c.toNat) ++ rest) :
    atom icu s (fuel + 1) st =
      .ok (.literal st.flags (appendUtf8 c.toNat), st.forward (quote (appendUtf8 c.toNat)).length) := by
  have hget : ∀ k, s[st.i + k]? = (quote (appendUtf8 c.toNat) ++ rest)[k]? := by
    intro k
    rw [← h, List.getElem?_drop]
  unfold Parser.atom
  rcases quote_char c with ⟨hq, hp⟩ | ⟨b, hb, ha, hq⟩
  · -- a plain sequence
    have hdec := u8Next_appendUtf8 (show c.toNat.isValidChar from c.valid) rest
    rw [hq] at h ⊢
    have hne : ∀ d, plainByte d = false → s[st.i]? ≠ some d := by
      intro d hd he
      have hlen := length_appendUtf8_pos c.toNat
      rw [← Nat.add_zero st.i, hget 0, hq, List.getElem?_append_left hlen] at he
      rw [hp d (List.mem_of_getElem? he)] at hd
      cases hd
    rw [eat_ite_not (hne 0x5E rfl), eat_ite_not (hne 0x24 rfl), eat_ite_not (hne 0x2E rfl), eat_ite_not (hne 0x5B rfl),
      eat_ite_not (hne 0x28 rfl), eat_ite_not (hne 0x5C rfl), bind_run (patternRune_run (by rw [h, hdec]))]
    rfl
  · -- an escape
    rw [hq] at hget ⊢
    have h0 : s[st.i]? = some 0x5C := hget 0
    have h1 : s[(st.forward 1).i]? = some b := hget 1
    have hne : ∀ d : UInt8, d ≠ 0x5C → s[st.i]? ≠ some d := by
      intro d hd he
      rw [h0] at he
      exact hd (Option.some.inj he).symm
    rw [eat_ite_not (hne 0x5E (by decide)), eat_ite_not (hne 0x24 (by decide)), eat_ite_not (hne 0x2E (by decide)),
      eat_ite_not (hne 0x5B (by decide)), eat_ite_not (hne 0x28 (by decide)), eat_ite_at h0, escaped_plain h1 hb, ha]
    rfl

theorem quote_opens {st : PState} {t : Bytes} (h : s.drop st.i = quote t) {b : UInt8} (hb : s[st.i]? = some b) :
    opensQuantifier b = false ∧ b ≠ 0x29 ∧ b ≠ 0x7C := by
  rw [← Nat.add_zero st.i, ← List.getElem?_drop, h, ← List.head?_eq_getElem?] at hb
  rcases quote_head hb with rfl | hp
  · decide
  · refine ⟨?_, plainByte_ne hp rfl, plainByte_ne hp rfl⟩
    by_contra hq
    rw [Bool.not_eq_false, opensQuantifier, List.contains_iff_mem] at hq
    simp only [List.mem_cons, List.not_mem_nil, or_false] at hq
    rcases hq with rfl | rfl | rfl | rfl
    all_goals cases hp

theorem repeat_quote (icu : Icu) (fuel : Nat) {st : PState} {c : Char} {cs : List Char} (h : s.drop st.i = quote (utf8 (c :: cs))) :
    «repeat» icu s (fuel + 2) st =
        .ok (.literal st.flags (appendUtf8 c.toNat), st.forward (quote (appendUtf8 c.toNat)).length) ∧
      s.drop (st.forward (quote (appendUtf8 c.toNat)).length).i = quote (utf8 cs) := by
  rw [utf8_cons, quote_append] at h
  have hdrop : s.drop (st.forward (quote (appendUtf8 c.toNat)).length).i = quote (utf8 cs) := by
    rw [PState.forward_i, ← List.drop_drop, h, List.drop_left]
  refine ⟨?_, hdrop⟩
  unfold Parser.repeat
  rw [bind_run (atom_quote h), bind_run (quantifier_none (fun b hb => (quote_opens hdrop hb).1))]
  rfl

theorem concatItems_quote (icu : Icu) (cs : List Char) (fuel : Nat) {st : PState} (h : s.drop st.i = quote (utf8 cs))
    (hws : st.ignoreWs = false) (hf : cs.length + 3 ≤ fuel) : concatItems icu s fuel st =
      .ok (cs.map (fun c => .literal st.flags (appendUtf8 c.toNat)), st.forward (quote (utf8 cs)).length) := by
  induction cs generalizing fuel st with
  | nil =>
    obtain ⟨fuel, rfl⟩ := Nat.exists_eq_add_of_lt (show 0 < fuel by omega)
    have hend : s[st.i]? = none := List.getElem?_eq_none (List.drop_eq_nil_iff.1 h)
    unfold Parser.concatItems
    rw [bind_run (skipIgnored_off hws), bind_run peek_run, hend]
    rfl
  | cons c cs ih =>
    obtain ⟨k, rfl⟩ := Nat.exists_eq_add_of_le' (show 3 ≤ fuel by omega)
    obtain ⟨hrep, hdrop⟩ := repeat_quote icu k h
    have hrest := ih (k + 2) hdrop hws (by rw [List.length_cons] at hf; omega)
    obtain ⟨b, hb⟩ : ∃ b, s[st.i]? = some b := by
      have hpos := Nat.lt_of_lt_of_le (length_appendUtf8_pos c.toNat) (length_le_quote (appendUtf8 c.toNat))
      refine ⟨_, List.getElem?_eq_getElem (Nat.lt_of_not_le (fun hle => ?_))⟩
      rw [List.drop_eq_nil_of_le hle, utf8_cons, quote_append] at h
      rw [(List.append_eq_nil_iff.1 h.symm).1] at hpos
      exact Nat.lt_irrefl 0 hpos
    unfold Parser.concatItems
    rw [bind_run (skipIgnored_off hws), bind_run peek_run, hb]
    dsimp only
    rw [if_neg (not_or.2 (quote_opens h hb).2), bind_run hrep, bind_run hrest, PState.forward_flags, PState.forward_forward,
      utf8_cons, quote_append, List.length_append]
    rfl

/-! ## The tree -/

theorem foldl_pushMerged_literals (f : NodeFlags) : ∀ (ls : List Bytes) (a : Bytes),
    (ls.map (RegexNode.literal f)).foldl pushMerged [.literal f a] = [.literal f (a ++ ls.flatten)]
  | [], a => by rw [List.map_nil, List.foldl_nil, List.flatten_nil, List.append_nil]
  | l :: ls, a => by
    rw [List.map_cons, List.foldl_cons, pushMerged, if_pos rfl, foldl_pushMerged_literals f ls, List.flatten_cons,
      List.append_assoc]

theorem mergeLiterals_literals (f : NodeFlags) {ls : List Bytes} (hne : ls ≠ []) :
    mergeLiterals (ls.map (RegexNode.literal f)) = [.literal f ls.flatten] := by
  cases ls with
  | nil => exact absurd rfl hne
  | cons l ls =>
    change ((ls.map (RegexNode.literal f)).foldl pushMerged [.literal f l]).reverse = _
    rw [foldl_pushMerged_literals, List.flatten_cons]
    rfl

theorem utf8_eq_flatten (cs : List Char) : utf8 cs = (cs.map (fun c => appendUtf8 c.toNat)).flatten := by
  induction cs with
  | nil => rfl
  | cons c cs ih => rw [utf8_cons, List.map_cons, List.flatten_cons, ih]

def optionFlags (opt : PatternOptions) : NodeFlags := PState.flags { opt := opt }

/-- **A quoted text parses to the one literal it is.** -/
theorem parse_quote (icu : Icu) (opt : PatternOptions) {cs : List Char} (hne : cs ≠ []) :
    parse icu (quote (utf8 cs)) opt = .ok ⟨.literal (optionFlags opt) (utf8 cs), 0, false, [[]]⟩ := by
  have hlen : cs.length ≤ (quote (utf8 cs)).length := Nat.le_trans (length_le_utf8 cs) (length_le_quote _)
  obtain ⟨k, hk⟩ := Nat.exists_eq_add_of_le' (show cs.length + 5 ≤ parseFuel (quote (utf8 cs)).length by
    unfold parseFuel
    omega)
  generalize hs : quote (utf8 cs) = s at *
  have hitems := @concatItems_quote s icu cs (k + cs.length + 3) { opt := opt } hs.symm rfl (by omega)
  have hend : s[(PState.forward { opt := opt } s.length).i]? = none :=
    List.getElem?_eq_none (by rw [PState.forward_i, Nat.zero_add])
  rw [hs] at hitems
  have hconcat : concat icu s (k + cs.length + 4) { opt := opt } =
      .ok (.literal (optionFlags opt) (utf8 cs), PState.forward { opt := opt } s.length) := by
    unfold Parser.concat
    rw [bind_run hitems, ← Function.comp_def (RegexNode.literal _), ← List.map_map, mergeLiterals_literals, ← utf8_eq_flatten]
    · rfl
    · exact fun h => hne (List.map_eq_nil_iff.1 h)
  have hrest : altRest icu s (k + cs.length + 4) (PState.forward { opt := opt } s.length) =
      .ok ([], PState.forward { opt := opt } s.length) := by
    unfold Parser.altRest
    exact eat_ite_not (by rw [hend]; exact Option.some_ne_none _ ∘ Eq.symm)
  have halt : alt icu s (parseFuel s.length) { opt := opt } =
      .ok (.literal (optionFlags opt) (utf8 cs), PState.forward { opt := opt } s.length) := by
    rw [show parseFuel s.length = k + cs.length + 4 + 1 by omega]
    unfold Parser.alt
    rw [bind_run hconcat, bind_run hrest]
    rfl
  unfold parse
  change (alt icu s (parseFuel s.length) { opt := opt } >>= fun r => _) = _
  rw [halt]
  exact if_neg (fun h => h (Nat.zero_add _))

end Parser

/-! ## What the compiler makes of it -/

def tooLarge : String := "pergrep regex: compiled program too large"

theorem emit_fits {p : Prog} (h : p.length < maxInstructions) (i : NfaInst) : emit p i = .ok (p ++ [i], p.length) :=
  if_neg (Nat.not_le.2 h)

theorem emit_full {p : Prog} (h : maxInstructions ≤ p.length) (i : NfaInst) : emit p i = .error tooLarge := if_pos h

theorem one_fits {p : Prog} (h : p.length < maxInstructions) (i : NfaInst) :
    one p i = .ok (p ++ [i], ⟨p.length, [(p.length, false)]⟩) := by
  unfold one
  rw [emit_fits h]
  rfl

theorem one_full {p : Prog} (h : maxInstructions ≤ p.length) (i : NfaInst) : one p i = .error tooLarge := by
  unfold one
  rw [emit_full h]
  rfl

/-- One more rune: the program is an instruction longer, and there is a fragment. -/
theorem runeChain_cons (f : NodeFlags) (x : Nat) (xs : List Nat) {p : Prog} (all : Option Frag)
    (h : p.length < maxInstructions) : ∃ q a, q.length = p.length + 1 ∧
      runeChain f (x :: xs) p all = runeChain f xs q (some a) := by
  rw [runeChain, one_fits h]
  cases all with
  | none => exact ⟨_, _, by rw [List.length_append, List.length_singleton], rfl⟩
  | some a => exact ⟨_, _, by rw [length_patch, List.length_append, List.length_singleton], rfl⟩

theorem runeChain_fits (f : NodeFlags) : ∀ (xs : List Nat) (p : Prog) (a : Frag),
    p.length + xs.length ≤ maxInstructions →
      ∃ q b, runeChain f xs p (some a) = .ok (q, some b) ∧ q.length = p.length + xs.length
  | [], p, a, _ => ⟨p, a, rfl, rfl⟩
  | x :: xs, p, a, h => by
    rw [List.length_cons] at h
    obtain ⟨q, b, hlen, heq⟩ := runeChain_cons f x xs (some a) (show p.length < maxInstructions by omega)
    obtain ⟨r, c, hr, hrlen⟩ := runeChain_fits f xs q b (by omega)
    exact ⟨r, c, heq.trans hr, by rw [List.length_cons]; omega⟩

theorem runeChain_full (f : NodeFlags) : ∀ (xs : List Nat) (p : Prog) (all : Option Frag),
    p.length ≤ maxInstructions → maxInstructions < p.length + xs.length → runeChain f xs p all = .error tooLarge
  | [], p, all, h, hlt => absurd hlt (Nat.not_lt.2 h)
  | x :: xs, p, all, h, hlt => by
    rw [List.length_cons] at hlt
    rcases Nat.lt_or_eq_of_le h with hroom | hfull
    · obtain ⟨q, b, hlen, heq⟩ := runeChain_cons f x xs all hroom
      rw [heq]
      exact runeChain_full f xs q (some b) (by omega) (by omega)
    · rw [runeChain, one_full (Nat.le_of_eq hfull.symm)]
      rfl

/-- **A literal compiles when its code points, the instruction in front and the accepting one fit.** -/
theorem compile_literal_size {f : NodeFlags} {l : Bytes} (hne : runes l ≠ []) :
    if (runes l).length + 2 ≤ maxInstructions then ∃ q start, compile (.literal f l) = .ok (q, start)
    else compile (.literal f l) = .error tooLarge := by
  unfold compile
  rw [NfaCompiler.build]
  unfold buildLiteral epsilon
  rw [one_fits (show ([] : Prog).length < maxInstructions by decide)]
  cases hx : runes l with
  | nil => exact absurd hx hne
  | cons x xs =>
    obtain ⟨q, a, hlen, heq⟩ := @runeChain_cons f x xs [{ op := .jmp }] none (by decide)
    rw [List.length_singleton] at hlen
    dsimp only [bind, Except.bind, List.nil_append]
    rw [heq, List.length_cons]
    split_ifs with hfit
    · obtain ⟨r, b, hr, hrlen⟩ := runeChain_fits f xs q a (by omega)
      rw [hr]
      dsimp only [pure, Except.pure]
      rw [emit_fits (by omega)]
      exact ⟨_, _, rfl⟩
    · by_cases hchain : maxInstructions < q.length + xs.length
      · rw [runeChain_full f xs q (some a) (by rw [hlen]; decide) hchain]
      · obtain ⟨r, b, hr, hrlen⟩ := runeChain_fits f xs q a (by omega)
        rw [hr]
        dsimp only [pure, Except.pure]
        rw [emit_full (by omega)]

/-- `parse_regex` of a pattern that parses to a tree without look-around and gets no wrapper. -/
theorem parseRegex_of_parse {icu : Icu} {pattern : Bytes} {opt : PatternOptions} {r : Parser.Parsed}
    (h : Parser.parse icu pattern opt = .ok r) (hx : r.extended = false) (hwrap : wrap opt r.ast = r.ast) :
    parseRegex icu pattern opt = (compile r.ast).map (fun c =>
      { ast := r.ast, groups := r.groups, groupNames := r.groupNames, extended := false,
        icaseLiteral := icaseLiteralOf icu r.ast false, queryIr := analyzeQuery r.ast false, nfa := c.1,
        nfaStart := some c.2, closureOffsets := (buildNfaClosures r.groups c.1).1,
        closurePcs := (buildNfaClosures r.groups c.1).2 }) := by
  unfold parseRegex
  rw [h]
  dsimp only [bind, Except.bind]
  rw [if_neg (fun hc => Bool.false_ne_true (hx.symm.trans hc.1)), hwrap, hx]
  cases compile r.ast <;> rfl

/-- **The quoting law.**  The quoted form of a text parses to the literal of its bytes, which the query representation
reports; where its code points fit in a program, that program denotes the one word of its code points. -/
theorem quote_law (icu : Icu) {opt : PatternOptions} (hcase : opt.caseMode = .sensitive) {s : Bytes} {cs : List Char}
    (hs : s = utf8 cs) (hne : s ≠ []) : ∃ f : NodeFlags, f.icase = false ∧
      Parser.parse icu (quote s) opt = .ok ⟨.literal f s, 0, false, [[]]⟩ ∧
      (analyzeQuery (.literal f s) false).isPureLiteral = true ∧ (analyzeQuery (.literal f s) false).exactLiteral = s ∧
      (opt.word = false → opt.line = false →
        if cs.length + 2 ≤ maxInstructions then
          ∃ p start, parseRegex icu (quote s) opt = .ok p ∧ p.ast = .literal f s ∧
            p.queryIr = analyzeQuery (.literal f s) false ∧ p.nfaStart = some start ∧
            ∀ w, (∃ m i, p.nfa[m]? = some i ∧ i.op = .match_ ∧ WordPath (wiring p.nfa) start w m) ↔
              w = cs.map (fun c => Label.rune f c.toNat)
        else parseRegex icu (quote s) opt = .error tooLarge) := by
  subst hs
  have hcs : cs ≠ [] := fun h => hne (by rw [h]; rfl)
  have hf : (Parser.optionFlags opt).icase = false := by
    change (opt.caseMode == .insensitive) = false
    rw [hcase]
    rfl
  have hparse := Parser.parse_quote icu opt hcs
  have hpure : queryIsPureLiteral (.literal (Parser.optionFlags opt) (utf8 cs)) = some (utf8 cs) := by
    rw [queryIsPureLiteral, hf]
    rfl
  refine ⟨Parser.optionFlags opt, hf, hparse, ?_, ?_, fun hw hl => ?_⟩
  · change (queryIsPureLiteral _).isSome = true
    rw [hpure]
    rfl
  · change (queryIsPureLiteral _).getD [] = _
    rw [hpure]
    rfl
  · have hruns : runes (utf8 cs) = cs.map Char.toNat := runes_utf8 cs
    have hsize := @compile_literal_size (Parser.optionFlags opt) (utf8 cs)
      (by rw [hruns]; exact fun h => hcs (List.map_eq_nil_iff.1 h))
    rw [hruns, List.length_map] at hsize
    have hwrap : wrap opt (.literal (Parser.optionFlags opt) (utf8 cs)) = .literal (Parser.optionFlags opt) (utf8 cs) := by
      unfold wrap
      rw [hl, hw]
      rfl
    have hprog := parseRegex_of_parse hparse rfl hwrap
    by_cases hfit : cs.length + 2 ≤ maxInstructions
    · rw [if_pos hfit] at hsize
      rw [if_pos hfit]
      obtain ⟨q, start, hcomp⟩ := hsize
      rw [hcomp] at hprog
      obtain ⟨start', hstart, hpaths, -⟩ := compiled_paths hprog rfl
      refine ⟨_, start', hprog, rfl, rfl, hstart, fun w => (hpaths w).trans ?_⟩
      rw [lang, hruns, List.map_map]
      exact Iff.rfl
    · rw [if_neg hfit] at hsize
      rw [if_neg hfit, hprog, hsize]
      rfl

/-- `a.é€`, a space and a line feed. -/
theorem quote_law_mixed : ∃ f : NodeFlags, f.icase = false ∧
    Parser.parse asciiIcu (quote [0x61, 0x2E, 0xC3, 0xA9, 0xE2, 0x82, 0xAC, 0x20, 0x0A]) {} =
      .ok ⟨.literal f [0x61, 0x2E, 0xC3, 0xA9, 0xE2, 0x82, 0xAC, 0x20, 0x0A], 0, false, [[]]⟩ := by
  obtain ⟨f, hf, hparse, -⟩ := @quote_law asciiIcu {} rfl [0x61, 0x2E, 0xC3, 0xA9, 0xE2, 0x82, 0xAC, 0x20, 0x0A]
    ['a', '.', 'é', '€', ' ', '\n'] (by decide) (by decide)
  exact ⟨f, hf, hparse⟩

theorem utf8_replicate : ∀ n : Nat, utf8 (List.replicate n 'a') = List.replicate n 0x61
  | 0 => rfl
  | n + 1 => by
    rw [List.replicate_succ, utf8_cons, utf8_replicate n]
    rfl

theorem parseRegex_quote_full (icu : Icu) {n : Nat} (h : maxInstructions < n + 2) :
    parseRegex icu (quote (List.replicate n 0x61)) {} = .error tooLarge := by
  have hcs : List.replicate n 'a' ≠ [] := by
    intro he
    rw [List.replicate_eq_nil_iff] at he
    rw [he] at h
    exact absurd h (by decide)
  have hruns : runes (utf8 (List.replicate n 'a')) = (List.replicate n 'a').map Char.toNat := runes_utf8 _
  have hsize := @compile_literal_size (Parser.optionFlags {}) (utf8 (List.replicate n 'a'))
    (by rw [hruns]; exact fun he => hcs (List.map_eq_nil_iff.1 he))
  rw [hruns, List.length_map, List.length_replicate, if_neg (Nat.not_le.2 h)] at hsize
  rw [← utf8_replicate, parseRegex_of_parse (Parser.parse_quote icu {} hcs) rfl rfl, hsize]
  rfl

/-- A million letters are a literal that does not compile. -/
theorem quote_million : ¬ ∀ s : Bytes, Utf.WellFormed s → s ≠ [] → ∃ p, parseRegex asciiIcu (quote s) {} = .ok p := by
  intro h
  have hne : List.replicate 1000000 (0x61 : UInt8) ≠ [] := mt (List.replicate_eq_nil_iff _).1 (by decide)
  obtain ⟨p, hp⟩ := h (List.replicate 1000000 0x61) ⟨_, (utf8_replicate 1000000).symm⟩ hne
  rw [parseRegex_quote_full asciiIcu (by decide)] at hp
  cases hp

end Pergrep
