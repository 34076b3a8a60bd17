import Mathlib.Data.List.TakeWhile
import Pergrep.Index.Tree
import Pergrep.Lib.Glob
import Pergrep.Unicode
/-!
# Wildcard — the patterns of ignore rules and of `--glob`

`wildcard_path_match` matches ignore rules and `fnmatch` of `platform.hpp` the globs of the command line.  They are the same
search but for the letters that separate names, the comparison of letters and the steps of `*`: `globGo` is the search, with
these as its parameters.

A `?` is to take one character and no separator.  It looks at the first byte, and takes as many as that byte announces: of a
text that is not UTF-8 it may take a separator with them, and so may the `*` of `fnmatch`.  That is all that goes wrong
(`wildcards_keep_slashes_iff`).
-/
namespace Pergrep.Cli

def asterisk : UInt8 := 0x2A
def question : UInt8 := 0x3F
def openBracket : UInt8 := 0x5B
def closeBracket : UInt8 := 0x5D
def backslash : UInt8 := 0x5C

def utf8CharLen (c : UInt8) : Nat :=
  if c &&& 0x80 == 0x00 then 1
  else if c &&& 0xE0 == 0xC0 then 2
  else if c &&& 0xF0 == 0xE0 then 3
  else if c &&& 0xF8 == 0xF0 then 4
  else 1

/-- The length of the character a text starts with, 1 when it would not fit. -/
def charLen : Bytes → Nat
  | [] => 1
  | b :: t => if utf8CharLen b > t.length + 1 then 1 else utf8CharLen b

/-- What the two matchers differ in. -/
structure GlobSyntax where
  sep : UInt8 → Bool
  literal : UInt8 → UInt8 → Bool
  classHit : Bytes → UInt8 → Bool
  step : Bytes → Nat

/-- What can be left after a `*`, which takes a step at a time, or after a `**`, which takes separators too. -/
def starSteps (G : GlobSyntax) (dbl : Bool) : Nat → Bytes → List Bytes
  | 0, _ => []
  | _ + 1, [] => []
  | n + 1, b :: t =>
    if dbl || !G.sep b then
      let next := (b :: t).drop (G.step (b :: t))
      next :: starSteps G dbl n next
    else []

/-- What can be left after a `**` and its separator, when they take some directories. -/
def dirSteps (G : GlobSyntax) : Nat → Bytes → List Bytes
  | 0, _ => []
  | _ + 1, [] => []
  | n + 1, b :: t => (if G.sep b then [t] else []) ++ dirSteps G n ((b :: t).drop (G.step (b :: t)))

/-- The rest of a pattern from after the bracket that closes a class, with what is between. -/
def classBody (pat : Bytes) : Option (Bytes × Bytes) :=
  if pat.contains closeBracket then
    some (pat.takeWhile (· != closeBracket), (pat.dropWhile (· != closeBracket)).tail)
  else none

def classTakes (G : GlobSyntax) (body : Bytes) (b : UInt8) : Bool :=
  match body with
  | [] => G.classHit [] b
  | c :: items => if c == 0x21 || c == 0x5E then !G.classHit items b else G.classHit (c :: items) b

/-- The recursion `go` of both, on what is left of the pattern and of the text. -/
def globGo (G : GlobSyntax) : Nat → Bytes → Bytes → Bool
  | _, [], text => text.isEmpty
  | 0, _ :: _, _ => false
  | n + 1, c :: pat, text =>
    if c == asterisk then
      let dbl := pat.head? == some asterisk
      let rest := if dbl then pat.tail else pat
      if dbl && rest.head?.any G.sep then
        globGo G n rest.tail text || (dirSteps G text.length text).any (globGo G n rest.tail)
      else globGo G n rest text || (starSteps G dbl text.length text).any (globGo G n rest)
    else if c == question then
      match text with
      | [] => false
      | b :: t => !G.sep b && globGo G n pat ((b :: t).drop (charLen (b :: t)))
    else
      match (if c == openBracket then classBody pat else none), text with
      | _, [] => false
      | some (body, rest), b :: t => !G.sep b && classTakes G body b && globGo G n rest t
      | none, b :: t => G.literal c b && globGo G n pat t

/-! ## The two matchers -/

def eqByte (ci : Bool) (a b : UInt8) : Bool := if ci then toLowerByte a == toLowerByte b else a == b

/-- The items of a class: a range compares the letters as signed characters. -/
def wildcardClassHit (ci : Bool) : Bytes → UInt8 → Bool
  | a :: d :: z :: items, c =>
    if d == 0x2D then
      let lower := fun x => if ci then toLowerByte x else x
      (decide ((lower a).toInt8 ≤ (lower c).toInt8) && decide ((lower c).toInt8 ≤ (lower z).toInt8)) ||
        wildcardClassHit ci items c
    else eqByte ci a c || wildcardClassHit ci (d :: z :: items) c
  | a :: items, c => eqByte ci a c || wildcardClassHit ci items c
  | [], _ => false

def wildcardSyntax (ci : Bool) : GlobSyntax where
  sep b := b == slash
  literal := eqByte ci
  classHit := wildcardClassHit ci
  step _ := 1

def wildcardPathMatch (pat text : Bytes) (ci : Bool) : Bool := globGo (wildcardSyntax ci) pat.length pat text

def fnmatchClassHit : Bytes → UInt8 → Bool
  | a :: d :: z :: items, c =>
    if d == 0x2D then (decide (a ≤ c) && decide (c ≤ z)) || fnmatchClassHit items c
    else a == c || fnmatchClassHit (d :: z :: items) c
  | a :: items, c => a == c || fnmatchClassHit items c
  | [], _ => false

def fnmatchSyntax : GlobSyntax where
  sep b := b == slash || b == backslash
  literal a b := if a == slash || a == backslash then b == slash || b == backslash else a == b
  classHit := fnmatchClassHit
  step := charLen

def fnmatch (pat text : Bytes) : Bool := globGo fnmatchSyntax pat.length pat text

/-! ## Tokens -/

inductive GlobToken
  | literal (c : UInt8)
  | anyChar
  | charClass (body : Bytes)
  | star
  | deep
  | deepDir
  deriving DecidableEq, Repr

def GlobToken.isLiteral : GlobToken → Bool
  | .literal _ => true
  | _ => false

theorem classBody_suffix {pat body rest : Bytes} (h : classBody pat = some (body, rest)) : rest <:+ pat := by
  unfold classBody at h
  split at h
  · obtain ⟨rfl, rfl⟩ := Prod.mk.inj (Option.some.inj h)
    exact (List.tail_suffix _).trans (List.dropWhile_suffix _)
  · exact nomatch h

def nextToken (sep : UInt8 → Bool) (c : UInt8) (pat : Bytes) : GlobToken × Bytes :=
  if c == asterisk then
    let dbl := pat.head? == some asterisk
    let rest := if dbl then pat.tail else pat
    if dbl && rest.head?.any sep then (.deepDir, rest.tail) else (if dbl then .deep else .star, rest)
  else if c == question then (.anyChar, pat)
  else
    match if c == openBracket then classBody pat else none with
    | some (body, rest) => (.charClass body, rest)
    | none => (.literal c, pat)

theorem nextToken_suffix (sep : UInt8 → Bool) (c : UInt8) (pat : Bytes) : (nextToken sep c pat).2 <:+ pat := by
  unfold nextToken
  dsimp only
  split
  · have hrest : (if pat.head? == some asterisk then pat.tail else pat) <:+ pat := by
      split
      · exact List.tail_suffix pat
      · exact List.suffix_rfl
    generalize (if pat.head? == some asterisk then pat.tail else pat) = rest at hrest ⊢
    split
    · exact (List.tail_suffix rest).trans hrest
    · exact hrest
  split
  · exact List.suffix_rfl
  split
  · rename_i body rest h
    split at h
    · exact classBody_suffix h
    · exact nomatch h
  · exact List.suffix_rfl

theorem nextToken_length (sep : UInt8 → Bool) (c : UInt8) (pat : Bytes) : (nextToken sep c pat).2.length ≤ pat.length :=
  (nextToken_suffix sep c pat).length_le

/-- A token that takes slashes comes from a `**`. -/
theorem nextToken_deep {sep : UInt8 → Bool} {c : UInt8} {pat : Bytes}
    (h : (nextToken sep c pat).1 = .deep ∨ (nextToken sep c pat).1 = .deepDir) : [asterisk, asterisk] <+: c :: pat := by
  unfold nextToken at h
  dsimp only at h
  split at h
  · rename_i hc
    obtain rfl := eq_of_beq hc
    cases hdbl : pat.head? == some asterisk with
    | true =>
      obtain ⟨rest, rfl⟩ := List.head?_eq_some_iff.1 (eq_of_beq hdbl)
      exact ⟨rest, rfl⟩
    | false =>
      rw [hdbl, Bool.false_and, if_neg Bool.false_ne_true, if_neg Bool.false_ne_true] at h
      exact h.elim (fun h => nomatch h) (fun h => nomatch h)
  split at h
  · exact h.elim (fun h => nomatch h) (fun h => nomatch h)
  split at h
  · exact h.elim (fun h => nomatch h) (fun h => nomatch h)
  · exact h.elim (fun h => nomatch h) (fun h => nomatch h)

/-- What a pattern is made of; a token takes a letter of the pattern at least. -/
def tokensGo (sep : UInt8 → Bool) : Nat → Bytes → List GlobToken
  | _, [] => []
  | 0, _ :: _ => []
  | n + 1, c :: pat => (nextToken sep c pat).1 :: tokensGo sep n (nextToken sep c pat).2

def tokens (sep : UInt8 → Bool) (pat : Bytes) : List GlobToken := tokensGo sep pat.length pat

theorem tokensGo_eq (sep : UInt8 → Bool) : ∀ (n m : Nat) (pat : Bytes), pat.length ≤ n → pat.length ≤ m →
    tokensGo sep n pat = tokensGo sep m pat
  | _, _, [], _, _ => by rw [tokensGo.eq_def, tokensGo.eq_def]
  | 0, _, _ :: _, h, _ => nomatch h
  | _, 0, _ :: _, _, h => nomatch h
  | n + 1, m + 1, c :: pat, hn, hm => by
    have hrest := nextToken_length sep c pat
    rw [List.length_cons] at hn hm
    rw [tokensGo, tokensGo, tokensGo_eq sep n m _ (by omega) (by omega)]

theorem tokens_cons (sep : UInt8 → Bool) (c : UInt8) (pat : Bytes) :
    tokens sep (c :: pat) = (nextToken sep c pat).1 :: tokens sep (nextToken sep c pat).2 := by
  rw [tokens, List.length_cons, tokensGo, tokens,
    tokensGo_eq sep _ _ _ (nextToken_length sep c pat) (Nat.le_refl _)]

/-- A pattern without `**` has no token that takes slashes. -/
theorem tokens_no_deep (sep : UInt8 → Bool) : ∀ (n : Nat) (pat : Bytes), ¬ [asterisk, asterisk] <:+: pat →
    ∀ token ∈ tokensGo sep n pat, token ≠ .deep ∧ token ≠ .deepDir
  | _, [], _, token, h => by
    rw [tokensGo.eq_def] at h
    exact nomatch h
  | 0, _ :: _, _, _, h => nomatch h
  | n + 1, c :: pat, hno, token, h => by
    rw [tokensGo] at h
    rcases List.mem_cons.1 h with rfl | h
    · exact ⟨fun hd => hno (nextToken_deep (Or.inl hd)).isInfix, fun hd => hno (nextToken_deep (Or.inr hd)).isInfix⟩
    · refine tokens_no_deep sep n _ (fun hin => hno ?_) token h
      exact hin.trans ((nextToken_suffix sep c pat).trans (List.suffix_cons c pat)).isInfix

def afterHead (p : UInt8 → Bool) (rest : Bytes → Bytes) : Bytes → List Bytes
  | [] => []
  | b :: t => if p b then [rest (b :: t)] else []

theorem mem_afterHead {p : UInt8 → Bool} {f : Bytes → Bytes} {text rest : Bytes} :
    rest ∈ afterHead p f text ↔ ∃ b t, text = b :: t ∧ p b = true ∧ rest = f (b :: t) := by
  cases text with
  | nil => exact ⟨fun h => (nomatch h), fun ⟨_, _, h, _⟩ => (nomatch h)⟩
  | cons b t =>
    rw [afterHead]
    split
    · rename_i hb
      rw [List.mem_singleton]
      exact ⟨fun h => ⟨b, t, rfl, hb, h⟩, fun ⟨_, _, h, _, hr⟩ => by rw [hr, h]⟩
    · rename_i hb
      exact ⟨fun h => (nomatch h), fun ⟨_, _, h, hp, _⟩ => by
        obtain ⟨rfl, rfl⟩ := List.cons.inj h
        exact absurd hp hb⟩

def tokenEnds (G : GlobSyntax) (token : GlobToken) (text : Bytes) : List Bytes :=
  match token with
  | .literal c => afterHead (G.literal c) List.tail text
  | .anyChar => afterHead (fun b => !G.sep b) (fun x => x.drop (charLen x)) text
  | .charClass body => afterHead (fun b => !G.sep b && classTakes G body b) List.tail text
  | .star => text :: starSteps G false text.length text
  | .deep => text :: starSteps G true text.length text
  | .deepDir => text :: dirSteps G text.length text

/-- **One call of `go`** takes the first token of the pattern. -/
theorem globGo_step (G : GlobSyntax) (n : Nat) (c : UInt8) (pat text : Bytes) :
    globGo G (n + 1) (c :: pat) text =
      (tokenEnds G (nextToken G.sep c pat).1 text).any (globGo G n (nextToken G.sep c pat).2) := by
  rw [globGo.eq_def]
  unfold nextToken
  dsimp only
  by_cases hc : c == asterisk
  · rw [if_pos hc, if_pos hc]
    cases hdbl : pat.head? == some asterisk with
    | false => rfl
    | true =>
      rw [Bool.true_and, if_pos rfl]
      split
      · rfl
      · rfl
  rw [if_neg hc, if_neg hc]
  by_cases hq : c == question
  · rw [if_pos hq, if_pos hq]
    cases text with
    | nil => rfl
    | cons b t =>
      dsimp only
      rw [tokenEnds, afterHead]
      cases G.sep b with
      | false => exact (Bool.or_false _).symm
      | true => rfl
  rw [if_neg hq, if_neg hq]
  cases hbody : (if c == openBracket then classBody pat else none) with
  | none =>
    cases text with
    | nil => rfl
    | cons b t =>
      dsimp only
      rw [tokenEnds, afterHead]
      cases G.literal c b with
      | false => rfl
      | true => exact (Bool.or_false _).symm
  | some p =>
    cases text with
    | nil => rfl
    | cons b t =>
      dsimp only
      rw [tokenEnds, afterHead]
      cases !G.sep b && classTakes G p.1 b with
      | false => rfl
      | true => exact (Bool.or_false _).symm

/-- **The search of the matchers** goes through the tokens of the pattern. -/
theorem globGo_eq (G : GlobSyntax) : ∀ (n : Nat) (pat text : Bytes), pat.length ≤ n →
    globGo G n pat text = Glob.accepts (tokenEnds G) (tokensGo G.sep n pat) text
  | _, [], text, _ => by
    rw [globGo.eq_def, tokensGo.eq_def]
    rfl
  | 0, _ :: _, _, h => nomatch h
  | n + 1, c :: pat, text, h => by
    have hrest := nextToken_length G.sep c pat
    rw [List.length_cons] at h
    have hrec : globGo G n (nextToken G.sep c pat).2 =
        Glob.accepts (tokenEnds G) (tokensGo G.sep n (nextToken G.sep c pat).2) :=
      funext (fun text => globGo_eq G n _ text (by omega))
    rw [globGo_step, tokensGo, Glob.accepts, hrec]

theorem starSteps_suffix (G : GlobSyntax) (dbl : Bool) : ∀ (n : Nat) (text : Bytes), ∀ rest ∈ starSteps G dbl n text, rest <:+ text
  | 0, _, _, h => nomatch h
  | _ + 1, [], _, h => nomatch h
  | n + 1, b :: t, rest, h => by
    rw [starSteps] at h
    split at h
    · rcases List.mem_cons.1 h with rfl | h
      · exact List.drop_suffix _ _
      · exact (starSteps_suffix G dbl n _ rest h).trans (List.drop_suffix _ _)
    · exact nomatch h

theorem dirSteps_suffix (G : GlobSyntax) : ∀ (n : Nat) (text : Bytes), ∀ rest ∈ dirSteps G n text, rest <:+ text
  | 0, _, _, h => nomatch h
  | _ + 1, [], _, h => nomatch h
  | n + 1, b :: t, rest, h => by
    rw [dirSteps, List.mem_append] at h
    rcases h with h | h
    · split at h
      · rw [List.mem_singleton.1 h]
        exact List.suffix_cons b t
      · exact nomatch h
    · exact (dirSteps_suffix G n _ rest h).trans (List.drop_suffix _ _)

theorem tokenEnds_fromFront (G : GlobSyntax) : Glob.FromFront (tokenEnds G) := by
  intro token text rest h
  cases token with
  | literal c =>
    obtain ⟨b, t, htext, -, hrest⟩ := mem_afterHead.1 h
    rw [htext, hrest]
    exact List.suffix_cons b t
  | anyChar =>
    obtain ⟨b, t, htext, -, hrest⟩ := mem_afterHead.1 (show rest ∈ afterHead _ (fun x => x.drop (charLen x)) text from h)
    rw [htext, hrest]
    exact List.drop_suffix _ _
  | charClass body =>
    obtain ⟨b, t, htext, -, hrest⟩ := mem_afterHead.1 h
    rw [htext, hrest]
    exact List.suffix_cons b t
  | star =>
    rcases List.mem_cons.1 h with rfl | h
    · exact List.suffix_rfl
    · exact starSteps_suffix G false _ _ rest h
  | deep =>
    rcases List.mem_cons.1 h with rfl | h
    · exact List.suffix_rfl
    · exact starSteps_suffix G true _ _ rest h
  | deepDir =>
    rcases List.mem_cons.1 h with rfl | h
    · exact List.suffix_rfl
    · exact dirSteps_suffix G _ _ rest h

/-- **A path is accepted when it can be cut into pieces for the tokens of the pattern.** -/
theorem globGo_iff (G : GlobSyntax) (pat text : Bytes) :
    globGo G pat.length pat text = true ↔ ∃ ps, Glob.Run (tokenEnds G) (tokens G.sep pat) text ps := by
  rw [globGo_eq G _ _ _ (Nat.le_refl _), ← tokens, Glob.accepts_iff (tokenEnds_fromFront G)]

/-! ## What the wildcards take -/

/-- However the path is cut into pieces for the tokens, the literals take all of its slashes. -/
def KeepsSlashes (G : GlobSyntax) (pat text : Bytes) : Prop :=
  ∀ ps, Glob.Run (tokenEnds G) (tokens G.sep pat) text ps →
    text.count slash = (Glob.taken GlobToken.isLiteral (tokens G.sep pat) ps).count slash

/-- A step of `f` letters goes over no slash after its first letter. -/
def Narrow (f : Bytes → Nat) (text : Bytes) : Prop := ∀ b t, b :: t <:+ text → slash ∉ t.take (f (b :: t) - 1)

theorem Narrow.suffix {f : Bytes → Nat} {text rest : Bytes} (h : Narrow f text) (hrest : rest <:+ text) : Narrow f rest :=
  fun b t hbt => h b t (hbt.trans hrest)

/-- The path has a byte that announces a character with a slash in it. -/
def swallows : Bytes → Bool
  | [] => false
  | b :: t => (t.take (charLen (b :: t) - 1)).contains slash || swallows t

theorem swallows_eq_false (text : Bytes) : swallows text = false ↔ Narrow charLen text := by
  induction text with
  | nil => exact ⟨fun _ b t h => absurd (List.suffix_nil.1 h) (List.cons_ne_nil b t), fun _ => rfl⟩
  | cons c text ih =>
    rw [swallows, Bool.or_eq_false_iff, ih]
    constructor
    · rintro ⟨hc, htext⟩ b t hbt
      rcases List.suffix_cons_iff.1 hbt with h | h
      · obtain ⟨rfl, rfl⟩ := List.cons.inj h
        rw [← List.contains_iff_mem, hc]
        exact Bool.false_ne_true
      · exact htext b t h
    · intro h
      refine ⟨?_, h.suffix (List.suffix_cons c text)⟩
      rw [← Bool.not_eq_true, List.contains_iff_mem]
      exact h c text List.suffix_rfl

theorem not_mem_take {f : Bytes → Nat} {b : UInt8} {t : Bytes} (hb : b ≠ slash) (h : slash ∉ t.take (f (b :: t) - 1)) :
    slash ∉ (b :: t).take (f (b :: t)) := by
  cases hf : f (b :: t) with
  | zero => rw [List.take_zero]; exact List.not_mem_nil
  | succ n =>
    rw [hf, Nat.add_sub_cancel] at h
    rw [List.take_succ_cons, List.mem_cons, not_or]
    exact ⟨Ne.symm hb, h⟩

theorem starSteps_keeps {G : GlobSyntax} (hsep : G.sep slash = true) : ∀ (n : Nat) (text : Bytes), Narrow G.step text →
    ∀ rest ∈ starSteps G false n text, ∃ piece, text = piece ++ rest ∧ slash ∉ piece
  | 0, _, _, _, h => nomatch h
  | _ + 1, [], _, _, h => nomatch h
  | n + 1, b :: t, hnarrow, rest, h => by
    rw [starSteps, Bool.false_or] at h
    split at h
    · rename_i hb
      have hb : b ≠ slash := by
        rintro rfl
        rw [hsep] at hb
        exact Bool.false_ne_true hb
      have hfirst := not_mem_take hb (hnarrow b t List.suffix_rfl)
      have hsplit := List.take_append_drop (G.step (b :: t)) (b :: t)
      rcases List.mem_cons.1 h with rfl | h
      · exact ⟨_, hsplit.symm, hfirst⟩
      · obtain ⟨piece, hpiece, hslash⟩ := starSteps_keeps hsep n _ (hnarrow.suffix (List.drop_suffix _ _)) rest h
        refine ⟨(b :: t).take (G.step (b :: t)) ++ piece, ?_, ?_⟩
        · rw [List.append_assoc, ← hpiece, hsplit]
        · rw [List.mem_append, not_or]
          exact ⟨hfirst, hslash⟩
    · exact nomatch h

/-- **The piece of a wildcard** other than `**` has no slash in it. -/
theorem wildcard_keeps {G : GlobSyntax} (hsep : G.sep slash = true) {token : GlobToken} (hliteral : token.isLiteral = false)
    (hdeep : token ≠ .deep ∧ token ≠ .deepDir) {piece rest : Bytes} (h : rest ∈ tokenEnds G token (piece ++ rest))
    (hchar : token = .anyChar → Narrow charLen (piece ++ rest)) (hstep : token = .star → Narrow G.step (piece ++ rest)) :
    piece.count slash = 0 := by
  have hne : ∀ b, (!G.sep b) = true → b ≠ slash := by
    rintro b hb rfl
    rw [hsep] at hb
    exact Bool.false_ne_true hb
  rw [List.count_eq_zero]
  cases token with
  | literal c => exact nomatch hliteral
  | deep => exact absurd rfl hdeep.1
  | deepDir => exact absurd rfl hdeep.2
  | anyChar =>
    obtain ⟨b, t, htext, hb, hrest⟩ :=
      mem_afterHead.1 (show rest ∈ afterHead (fun b => !G.sep b) (fun x => x.drop (charLen x)) _ from h)
    have hfirst := not_mem_take (hne b hb) (hchar rfl b t (by rw [htext]))
    have hpiece : piece = (b :: t).take (charLen (b :: t)) := by
      refine List.append_cancel_right (htext.trans ?_)
      conv => rhs; rw [hrest]
      exact (List.take_append_drop _ _).symm
    rw [hpiece]
    exact hfirst
  | charClass body =>
    obtain ⟨b, t, htext, hb, hrest⟩ := mem_afterHead.1 h
    have hpiece : piece = [b] := by
      refine List.append_cancel_right (htext.trans ?_)
      rw [hrest]
      rfl
    rw [hpiece, List.mem_singleton]
    exact Ne.symm (hne b (Bool.and_eq_true .. ▸ hb).1)
  | star =>
    rcases List.mem_cons.1 h with hrest | h
    · have hnil := List.self_eq_append_left.1 hrest
      rw [hnil]
      exact List.not_mem_nil
    · obtain ⟨q, hq, hslash⟩ := starSteps_keeps hsep _ _ (hstep rfl) rest h
      rw [List.append_cancel_right hq]
      exact hslash

/-! ## A pattern that takes a path letter by letter -/

def isSpecial (b : UInt8) : Bool := b == asterisk || b == question || b == openBracket

def quoteByte (b : UInt8) : Bytes := if isSpecial b then [openBracket, b, closeBracket] else [b]

def quoteToken (b : UInt8) : GlobToken := if isSpecial b then .charClass [b] else .literal b

theorem tokens_quoteByte (sep : UInt8 → Bool) (b : UInt8) (pat : Bytes) :
    tokens sep (quoteByte b ++ pat) = quoteToken b :: tokens sep pat := by
  unfold quoteByte quoteToken
  split
  · rename_i hb
    have hclass : classBody (b :: closeBracket :: pat) = some ([b], pat) := by
      have hb : (b != closeBracket) = true := by
        unfold isSpecial at hb
        rw [Bool.or_eq_true, Bool.or_eq_true, beq_iff_eq, beq_iff_eq, beq_iff_eq] at hb
        rcases hb with (rfl | rfl) | rfl <;> decide
      have hclose : (closeBracket != closeBracket) = false := by decide
      unfold classBody
      rw [if_pos (List.contains_iff_mem.2 (List.mem_cons_of_mem b List.mem_cons_self))]
      simp only [List.takeWhile_cons, List.dropWhile_cons, hb, hclose, if_true, Bool.false_eq_true, if_false, List.tail_cons]
    have hnext : nextToken sep openBracket (b :: closeBracket :: pat) = (.charClass [b], pat) := by
      unfold nextToken
      rw [if_neg (by decide), if_neg (by decide), if_pos (by decide), hclass]
    change tokens sep (openBracket :: b :: closeBracket :: pat) = _
    rw [tokens_cons, hnext]
  · rename_i hb
    have hnext : nextToken sep b pat = (.literal b, pat) := by
      unfold isSpecial at hb
      rw [Bool.or_eq_true, Bool.or_eq_true, not_or, not_or] at hb
      unfold nextToken
      rw [if_neg hb.1.1, if_neg hb.1.2, if_neg hb.2]
    change tokens sep (b :: pat) = _
    rw [tokens_cons, hnext]

theorem tokens_quote (sep : UInt8 → Bool) (pat : Bytes) : ∀ text : Bytes,
    tokens sep (text.flatMap quoteByte ++ pat) = text.map quoteToken ++ tokens sep pat
  | [] => rfl
  | b :: text => by
    rw [List.flatMap_cons, List.append_assoc, tokens_quoteByte, tokens_quote sep pat text]
    rfl

/-- What the argument needs of a matcher: letters match themselves, alone and in a class, and separators are letters of
their own that are no wildcards. -/
structure GlobSyntax.Lawful (G : GlobSyntax) : Prop where
  sep_slash : G.sep slash = true
  sep_len : ∀ b, G.sep b = true → utf8CharLen b = 1
  sep_special : ∀ b, G.sep b = true → isSpecial b = false
  literal_self : ∀ b, G.literal b b = true
  class_self : ∀ b, G.classHit [b] b = true

theorem quoteToken_takes {G : GlobSyntax} (hG : G.Lawful) (b : UInt8) (rest : Bytes) :
    rest ∈ tokenEnds G (quoteToken b) (b :: rest) := by
  unfold quoteToken
  split
  · rename_i hb
    change rest ∈ afterHead (fun c => !G.sep c && classTakes G [b] c) List.tail (b :: rest)
    refine mem_afterHead.2 ⟨b, rest, rfl, ?_, rfl⟩
    have hsep : G.sep b = false := by
      cases hs : G.sep b with
      | false => rfl
      | true => rw [hG.sep_special b hs] at hb; exact absurd hb Bool.false_ne_true
    have hhead : (b == 0x21 || b == 0x5E) = false := by
      unfold isSpecial at hb
      rw [Bool.or_eq_true, Bool.or_eq_true, beq_iff_eq, beq_iff_eq, beq_iff_eq] at hb
      rcases hb with (rfl | rfl) | rfl <;> decide
    rw [hsep, classTakes, hhead, if_neg Bool.false_ne_true, hG.class_self]
    rfl
  · exact (mem_afterHead (f := List.tail)).2 ⟨b, rest, rfl, hG.literal_self b, rfl⟩

theorem quote_run {G : GlobSyntax} (hG : G.Lawful) {us : List GlobToken} {rest : Bytes} {ps : List Bytes}
    (text : Bytes) (h : Glob.Run (tokenEnds G) us rest ps) :
    Glob.Run (tokenEnds G) (text.map quoteToken ++ us) (text ++ rest) (text.map (fun b => [b]) ++ ps) := by
  refine Glob.Run.letters ?_ h
  induction text with
  | nil => exact List.Forall₂.nil
  | cons b text ih => exact List.Forall₂.cons (quoteToken_takes hG b) ih

def starsInClasses : Bytes → Bool
  | [] => true
  | c :: pat => (c != asterisk || pat.head? == some closeBracket) && starsInClasses pat

theorem starsInClasses_quoteByte {pat : Bytes} (h : starsInClasses pat = true) (b : UInt8) :
    starsInClasses (quoteByte b ++ pat) = true := by
  unfold quoteByte
  split
  · change ((openBracket != asterisk || _) && ((b != asterisk || closeBracket == closeBracket) &&
      ((closeBracket != asterisk || _) && starsInClasses pat))) = true
    rw [h]
    cases b != asterisk <;> rfl
  · rename_i hb
    have hb : (b != asterisk) = true := by
      unfold isSpecial at hb
      rw [Bool.or_eq_true, Bool.or_eq_true, not_or, not_or] at hb
      rw [bne, Bool.not_eq_true']
      exact Bool.not_eq_true _ ▸ hb.1.1
    change ((b != asterisk || _) && starsInClasses pat) = true
    rw [hb, h]
    rfl

theorem starsInClasses_quote {pat : Bytes} (h : starsInClasses pat = true) : ∀ text : Bytes,
    starsInClasses (text.flatMap quoteByte ++ pat) = true
  | [] => h
  | b :: text => by
    rw [List.flatMap_cons, List.append_assoc]
    exact starsInClasses_quoteByte (starsInClasses_quote h text) b

theorem no_double_star {pat : Bytes} (h : starsInClasses pat = true) : ¬ [asterisk, asterisk] <:+: pat := by
  induction pat with
  | nil => intro hin; exact absurd (List.infix_nil.1 hin) (List.cons_ne_nil _ _)
  | cons c pat ih =>
    rw [starsInClasses, Bool.and_eq_true] at h
    intro hin
    rcases List.infix_cons_iff.1 hin with ⟨t, ht⟩ | hin
    · obtain ⟨rfl, htail⟩ := List.cons.inj ht
      subst htail
      have hfalse : (asterisk != asterisk || some asterisk == some closeBracket) = true := h.1
      exact absurd hfalse (by decide)
    · exact ih h.2 hin

/-! ## A slash taken as part of a character -/

def overstep (G : GlobSyntax) (len : Bytes → Nat) : Bytes → List Bytes
  | [] => []
  | b :: t => if !G.sep b && (t.take (len (b :: t) - 1)).contains slash then [(b :: t).drop (len (b :: t))] else []

/-- What a wildcard other than `**` can leave when it goes over a slash: `?` in its one step, `*` in one of its own. -/
def overstepEnds (G : GlobSyntax) (token : GlobToken) (text : Bytes) : List Bytes :=
  match token with
  | .anyChar => overstep G charLen text
  | .star => (tokenEnds G .star text).flatMap (fun mid => (overstep G G.step mid).flatMap (tokenEnds G .star))
  | _ => []

/-- On some way of the pattern through the path a wildcard stands before a byte that announces a character with a slash
in it. -/
def misreads (G : GlobSyntax) (pat text : Bytes) : Bool :=
  Glob.passes (tokenEnds G) (overstepEnds G) (tokens G.sep pat) text

theorem mem_overstep {G : GlobSyntax} {len : Bytes → Nat} {text rest : Bytes} : rest ∈ overstep G len text ↔
    ∃ b t, text = b :: t ∧ G.sep b = false ∧ slash ∈ t.take (len text - 1) ∧ rest = text.drop (len text) := by
  cases text with
  | nil => exact ⟨fun h => (nomatch h), fun ⟨_, _, h, _⟩ => (nomatch h)⟩
  | cons b t =>
    rw [overstep]
    split
    · rename_i h
      rw [Bool.and_eq_true, Bool.not_eq_true', List.contains_iff_mem] at h
      rw [List.mem_singleton]
      exact ⟨fun hrest => ⟨b, t, rfl, h.1, h.2, hrest⟩, fun ⟨_, _, _, _, _, hrest⟩ => hrest⟩
    · rename_i h
      refine ⟨fun hrest => (nomatch hrest), fun ⟨c, u, htext, hc, hu, _⟩ => ?_⟩
      obtain ⟨rfl, rfl⟩ := List.cons.inj htext
      rw [hc, List.contains_iff_mem.2 hu] at h
      exact absurd rfl h

def StarStep (G : GlobSyntax) (text rest : Bytes) : Prop :=
  ∃ b t, text = b :: t ∧ G.sep b = false ∧ rest = text.drop (G.step text)

/-- **What `*` leaves** is what its steps come to. -/
theorem mem_starEnds {G : GlobSyntax} (hpos : ∀ text, 0 < G.step text) {text rest : Bytes} :
    rest ∈ tokenEnds G .star text ↔ Relation.ReflTransGen (StarStep G) text rest := by
  have hgo : ∀ (n : Nat) (text : Bytes), text.length ≤ n →
      (rest ∈ text :: starSteps G false n text ↔ Relation.ReflTransGen (StarStep G) text rest) := by
    intro n
    induction n with
    | zero =>
      intro text hn
      obtain rfl := List.length_eq_zero_iff.1 (Nat.le_zero.1 hn)
      rw [Relation.ReflTransGen.cases_head_iff, starSteps, List.mem_singleton]
      exact ⟨fun h => Or.inl h.symm, fun h => h.elim Eq.symm (fun ⟨_, ⟨_, _, hnil, _⟩, _⟩ => (nomatch hnil))⟩
    | succ n ih =>
      intro text hn
      rw [Relation.ReflTransGen.cases_head_iff, List.mem_cons, eq_comm]
      refine or_congr_right ?_
      cases text with
      | nil => exact ⟨fun h => (nomatch h), fun ⟨_, ⟨_, _, hnil, _⟩, _⟩ => (nomatch hnil)⟩
      | cons b t =>
        have hnext : ((b :: t).drop (G.step (b :: t))).length ≤ n := by
          have := hpos (b :: t)
          rw [List.length_drop]
          rw [List.length_cons] at hn ⊢
          omega
        rw [starSteps, Bool.false_or]
        cases hb : G.sep b with
        | true =>
          refine ⟨fun h => (nomatch h), fun ⟨_, ⟨c, u, htext, hc, _⟩, _⟩ => ?_⟩
          obtain ⟨rfl, rfl⟩ := List.cons.inj htext
          exact absurd (hb.symm.trans hc) (by decide)
        | false =>
          rw [Bool.not_false, if_pos rfl, ih _ hnext]
          constructor
          · exact fun h => ⟨_, ⟨b, t, rfl, hb, rfl⟩, h⟩
          · rintro ⟨_, ⟨_, _, _, _, rfl⟩, h⟩
            exact h
  exact hgo text.length text (Nat.le_refl _)

theorem mem_overstepStar {G : GlobSyntax} (hsep : G.sep slash = true) (hpos : ∀ text, 0 < G.step text)
    {piece rest : Bytes} : rest ∈ overstepEnds G .star (piece ++ rest) ↔
      rest ∈ tokenEnds G .star (piece ++ rest) ∧ slash ∈ piece := by
  simp only [overstepEnds, List.mem_flatMap, mem_starEnds hpos]
  constructor
  · rintro ⟨mid, hmid, next, hnext, hrest⟩
    obtain ⟨b, t, rfl, hb, hslash, rfl⟩ := mem_overstep.1 hnext
    refine ⟨hmid.trans (Relation.ReflTransGen.head ⟨b, t, rfl, hb, rfl⟩ hrest), ?_⟩
    obtain ⟨before, hbefore⟩ := tokenEnds_fromFront G .star _ _ ((mem_starEnds hpos).2 hmid)
    obtain ⟨after, hafter⟩ := tokenEnds_fromFront G .star _ _ ((mem_starEnds hpos).2 hrest)
    have hpiece : piece = before ++ ((b :: t).take (G.step (b :: t)) ++ after) := by
      refine (List.append_left_inj rest).1 ?_
      rw [List.append_assoc, List.append_assoc, hafter, List.take_append_drop, hbefore]
    rw [hpiece]
    refine List.mem_append_right _ (List.mem_append_left _ ?_)
    obtain ⟨n, hn⟩ := Nat.exists_eq_succ_of_ne_zero (hpos (b :: t)).ne'
    rw [hn, Nat.succ_sub_one] at hslash
    rw [hn, List.take_succ_cons]
    exact List.mem_cons_of_mem b hslash
  · rintro ⟨hrest, hslash⟩
    generalize htext : piece ++ rest = text at hrest ⊢
    induction hrest using Relation.ReflTransGen.head_induction_on generalizing piece with
    | refl =>
      rw [List.append_left_eq_self.1 htext] at hslash
      exact nomatch hslash
    | @head text next hstep hnext ih =>
      have hstep' := hstep
      obtain ⟨b, t, rfl, hb, rfl⟩ := hstep
      by_cases hover : slash ∈ t.take (G.step (b :: t) - 1)
      · exact ⟨_, Relation.ReflTransGen.refl, _, mem_overstep.2 ⟨b, t, rfl, hb, hover, rfl⟩, hnext⟩
      · have hfirst := not_mem_take (fun hbs => by rw [hbs, hsep] at hb; exact nomatch hb) hover
        obtain ⟨after, hafter⟩ := tokenEnds_fromFront G .star _ _ ((mem_starEnds hpos).2 hnext)
        have hpiece : piece = (b :: t).take (G.step (b :: t)) ++ after := by
          refine (List.append_left_inj rest).1 ?_
          rw [List.append_assoc, hafter, List.take_append_drop, htext]
        rw [hpiece, List.mem_append] at hslash
        obtain ⟨mid, hmid, hover⟩ := ih (hslash.resolve_left hfirst) hafter
        exact ⟨mid, Relation.ReflTransGen.head hstep' hmid, hover⟩

theorem mem_overstepAny {G : GlobSyntax} (hsep : G.sep slash = true) {piece rest : Bytes} :
    rest ∈ overstepEnds G .anyChar (piece ++ rest) ↔ rest ∈ tokenEnds G .anyChar (piece ++ rest) ∧ slash ∈ piece := by
  change rest ∈ overstep G charLen _ ↔ rest ∈ afterHead (fun b => !G.sep b) (fun x => x.drop (charLen x)) _ ∧ _
  rw [mem_overstep, mem_afterHead]
  have hpiece : ∀ {b : UInt8} {t : Bytes}, piece ++ rest = b :: t → rest = (b :: t).drop (charLen (b :: t)) →
      piece = (b :: t).take (charLen (b :: t)) := by
    intro b t htext hrest
    refine (List.append_left_inj rest).1 (htext.trans ?_)
    conv => rhs; rw [hrest]
    exact (List.take_append_drop _ _).symm
  constructor
  · rintro ⟨b, t, htext, hb, hslash, hrest⟩
    rw [htext] at hslash hrest
    refine ⟨⟨b, t, htext, by rw [hb]; rfl, hrest⟩, ?_⟩
    rw [hpiece htext hrest]
    obtain ⟨n, hn⟩ : ∃ n, charLen (b :: t) = n + 1 := by
      cases hlen : charLen (b :: t) with
      | zero => rw [hlen] at hslash; exact nomatch hslash
      | succ n => exact ⟨n, rfl⟩
    rw [hn, Nat.add_sub_cancel] at hslash
    rw [hn, List.take_succ_cons]
    exact List.mem_cons_of_mem b hslash
  · rintro ⟨⟨b, t, htext, hb, hrest⟩, hslash⟩
    rw [Bool.not_eq_true'] at hb
    refine ⟨b, t, htext, hb, ?_, by rw [htext]; exact hrest⟩
    by_contra hno
    rw [htext] at hno
    refine not_mem_take (fun hbs => ?_) hno (hpiece htext hrest ▸ hslash)
    rw [hbs, hsep] at hb
    exact nomatch hb

/-- **Where a wildcard other than `**` takes a slash** is where it goes over one. -/
theorem mem_overstepEnds {G : GlobSyntax} (hsep : G.sep slash = true) (hpos : ∀ text, 0 < G.step text) {token : GlobToken}
    (hdeep : token ≠ .deep ∧ token ≠ .deepDir) {piece rest : Bytes} : rest ∈ overstepEnds G token (piece ++ rest) ↔
      rest ∈ tokenEnds G token (piece ++ rest) ∧ (token.isLiteral = false ∧ slash ∈ piece) := by
  cases token with
  | literal c => exact ⟨fun h => (nomatch h), fun h => nomatch h.2.1⟩
  | deep => exact absurd rfl hdeep.1
  | deepDir => exact absurd rfl hdeep.2
  | anyChar => exact (mem_overstepAny hsep).trans (and_congr_right (fun _ => (and_iff_right rfl).symm))
  | star => exact (mem_overstepStar hsep hpos).trans (and_congr_right (fun _ => (and_iff_right rfl).symm))
  | charClass body =>
    refine ⟨fun h => (nomatch h), fun ⟨h, _, hslash⟩ => ?_⟩
    have hkeeps := @wildcard_keeps G hsep (.charClass body) rfl hdeep piece rest h (fun h => nomatch h) (fun h => nomatch h)
    exact absurd hslash (List.count_eq_zero.1 hkeeps)

theorem overstepEnds_fromFront (G : GlobSyntax) : Glob.FromFront (overstepEnds G) := by
  have hover : ∀ {len : Bytes → Nat} {text rest : Bytes}, rest ∈ overstep G len text → rest <:+ text := by
    intro len text rest h
    obtain ⟨_, _, _, _, _, rfl⟩ := mem_overstep.1 h
    exact List.drop_suffix _ _
  intro token text rest h
  cases token with
  | literal c => exact nomatch h
  | charClass body => exact nomatch h
  | deep => exact nomatch h
  | deepDir => exact nomatch h
  | anyChar => exact hover h
  | star =>
    rw [overstepEnds, List.mem_flatMap] at h
    obtain ⟨mid, hmid, h⟩ := h
    rw [List.mem_flatMap] at h
    obtain ⟨next, hnext, hrest⟩ := h
    exact (tokenEnds_fromFront G .star _ _ hrest).trans ((hover hnext).trans (tokenEnds_fromFront G .star _ _ hmid))

/-- **A pattern keeps the slashes of a path** unless it misreads it. -/
theorem keepsSlashes_iff_misreads {G : GlobSyntax} (hsep : G.sep slash = true) (hpos : ∀ text, 0 < G.step text)
    {pat : Bytes} (hno : ¬ [asterisk, asterisk] <:+: pat) (text : Bytes) :
    KeepsSlashes G pat text ↔ misreads G pat text = false := by
  have hpass := Glob.passes_iff (tokenEnds_fromFront G) (overstepEnds_fromFront G)
    (P := fun token piece => token.isLiteral = false ∧ slash ∈ piece) (tokens G.sep pat) text
    (fun token htoken piece rest => mem_overstepEnds hsep hpos (tokens_no_deep G.sep _ pat hno token htoken))
  rw [misreads, Bool.eq_false_iff, ne_eq, hpass, not_exists]
  refine forall_congr' (fun ps => ?_)
  rw [not_and, not_not]
  refine imp_congr_right (fun hrun => ?_)
  rw [hrun.count_taken_iff GlobToken.isLiteral]
  constructor
  · exact fun h => List.Forall₂.imp (fun _ _ hcount ⟨hliteral, hslash⟩ => List.count_eq_zero.1 (hcount hliteral) hslash) h
  · exact fun h => h.imp (fun _ _ hp hliteral => List.count_eq_zero.2 (fun hslash => hp ⟨hliteral, hslash⟩))

/-! ## When the wildcards keep the slashes -/

theorem keepsSlashes_of_narrow {G : GlobSyntax} (hsep : G.sep slash = true) {pat text : Bytes}
    (hno : ¬ [asterisk, asterisk] <:+: pat) (hchar : Narrow charLen text) (hstep : Narrow G.step text) :
    KeepsSlashes G pat text := by
  intro ps hrun
  refine (hrun.count_taken_iff GlobToken.isLiteral).2 (hrun.forall₂ (fun token htoken piece rest hsuffix h hliteral => ?_))
  exact wildcard_keeps hsep hliteral (tokens_no_deep G.sep _ pat hno token htoken) h
    (fun _ => hchar.suffix hsuffix) (fun _ => hstep.suffix hsuffix)

theorem not_narrow {text : Bytes} (h : swallows text = true) :
    ∃ before b t, text = before ++ b :: t ∧ slash ∈ t.take (charLen (b :: t) - 1) := by
  induction text with
  | nil => exact nomatch h
  | cons c text ih =>
    rw [swallows, Bool.or_eq_true] at h
    rcases h with h | h
    · exact ⟨[], c, text, rfl, List.contains_iff_mem.1 h⟩
    · obtain ⟨before, b, t, rfl, hmem⟩ := ih h
      exact ⟨c :: before, b, t, rfl, hmem⟩

theorem exists_not_keepsSlashes {G : GlobSyntax} (hG : G.Lawful) {text : Bytes} (h : swallows text = true) :
    ∃ pat, ¬ [asterisk, asterisk] <:+: pat ∧ globGo G pat.length pat text = true ∧ ¬ KeepsSlashes G pat text := by
  obtain ⟨before, b, t, rfl, hmem⟩ := not_narrow h
  have hwide : charLen (b :: t) ≠ 1 := by
    intro hone
    rw [hone] at hmem
    exact nomatch hmem
  have hsep : G.sep b = false := by
    cases hs : G.sep b with
    | false => rfl
    | true =>
      rw [charLen, hG.sep_len b hs] at hwide
      exact absurd (ite_self 1) hwide
  -- the letters of the path, but for a `?` where the character starts
  have htokens : tokens G.sep (before.flatMap quoteByte ++ question ::
      ((b :: t).drop (charLen (b :: t))).flatMap quoteByte) =
      before.map quoteToken ++ .anyChar :: ((b :: t).drop (charLen (b :: t))).map quoteToken := by
    have hafter := tokens_quote G.sep [] ((b :: t).drop (charLen (b :: t)))
    rw [List.append_nil, show tokens G.sep [] = [] from rfl, List.append_nil] at hafter
    rw [tokens_quote, tokens_cons, ← hafter]
    rfl
  have hafter := quote_run hG ((b :: t).drop (charLen (b :: t))) (show Glob.Run (tokenEnds G) [] [] [] from Glob.Run.nil)
  rw [List.append_nil, List.append_nil, List.append_nil] at hafter
  have hpiece : (b :: t).drop (charLen (b :: t)) ∈ tokenEnds G .anyChar
      ((b :: t).take (charLen (b :: t)) ++ (b :: t).drop (charLen (b :: t))) := by
    rw [List.take_append_drop]
    change _ ∈ afterHead (fun b => !G.sep b) (fun x => x.drop (charLen x)) (b :: t)
    exact mem_afterHead.2 ⟨b, t, rfl, by rw [hsep]; rfl, rfl⟩
  have hrun := quote_run hG before (Glob.Run.cons hpiece hafter)
  rw [List.take_append_drop, ← htokens] at hrun
  refine ⟨_, no_double_star (starsInClasses_quote ?_ before), (globGo_iff G _ _).2 ⟨_, hrun⟩, fun hkeeps => ?_⟩
  · have hquote := @starsInClasses_quote [] rfl ((b :: t).drop (charLen (b :: t)))
    rw [List.append_nil] at hquote
    rw [starsInClasses, hquote]
    rfl
  · have hpieces := (hrun.count_taken_iff GlobToken.isLiteral).1 (hkeeps _ hrun)
    rw [htokens] at hpieces
    have hdrop := List.forall₂_drop before.length hpieces
    rw [List.drop_left' (List.length_map _), List.drop_left' (List.length_map _)] at hdrop
    have hcount := (List.forall₂_cons.1 hdrop).1 rfl
    refine List.count_eq_zero.1 hcount ?_
    obtain ⟨n, hn⟩ : ∃ n, charLen (b :: t) = n + 1 := by
      cases hlen : charLen (b :: t) with
      | zero => rw [hlen] at hmem; exact nomatch hmem
      | succ n => exact ⟨n, rfl⟩
    rw [hn, Nat.add_sub_cancel] at hmem
    rw [hn, List.take_succ_cons]
    exact List.mem_cons_of_mem b hmem

theorem keepsSlashes_iff {G : GlobSyntax} (hG : G.Lawful) (text : Bytes)
    (hstep : Narrow charLen text → Narrow G.step text) :
    (∀ pat, ¬ [asterisk, asterisk] <:+: pat → globGo G pat.length pat text = true → KeepsSlashes G pat text) ↔
      swallows text = false := by
  constructor
  · intro h
    cases hs : swallows text with
    | false => rfl
    | true =>
      obtain ⟨pat, hno, hmatch, hkeeps⟩ := exists_not_keepsSlashes hG hs
      exact absurd (h pat hno hmatch) hkeeps
  · intro h pat hno _
    have hchar := (swallows_eq_false text).1 h
    exact keepsSlashes_of_narrow hG.sep_slash hno hchar (hstep hchar)

theorem isSpecial_slash : isSpecial slash = false := by decide

theorem wildcardSyntax_lawful (ci : Bool) : (wildcardSyntax ci).Lawful where
  sep_slash := beq_self_eq_true slash
  sep_len b hb := by rw [eq_of_beq hb]; rfl
  sep_special b hb := by rw [eq_of_beq hb]; exact isSpecial_slash
  literal_self b := by
    change eqByte ci b b = true
    unfold eqByte
    split <;> exact beq_self_eq_true _
  class_self b := by
    change (eqByte ci b b || false) = true
    unfold eqByte
    rw [Bool.or_false]
    split <;> exact beq_self_eq_true _

theorem fnmatchSyntax_lawful : fnmatchSyntax.Lawful where
  sep_slash := by decide
  sep_len b hb := by
    rcases Bool.or_eq_true .. ▸ hb with hb | hb <;> rw [eq_of_beq hb] <;> rfl
  sep_special b hb := by
    rcases Bool.or_eq_true .. ▸ hb with hb | hb <;> rw [eq_of_beq hb] <;> decide
  literal_self b := by
    change (if b == slash || b == backslash then b == slash || b == backslash else b == b) = true
    split
    · rename_i hb
      exact hb
    · exact beq_self_eq_true b
  class_self b := by
    change (b == b || false) = true
    rw [beq_self_eq_true, Bool.true_or]

theorem charLen_pos (text : Bytes) : 0 < charLen text := by
  cases text with
  | nil => decide
  | cons b t =>
    unfold charLen utf8CharLen
    split <;> repeat' split
    all_goals decide

/-- **On which paths every pattern without `**` keeps the slashes**: those of which no byte announces a character with a
slash in it, UTF-8 among them; on any other some pattern goes wrong. -/
theorem every_pattern_keeps_slashes_iff (text : Bytes) :
    ((∀ pat ci, ¬ [asterisk, asterisk] <:+: pat → wildcardPathMatch pat text ci = true →
        KeepsSlashes (wildcardSyntax ci) pat text) ↔ swallows text = false) ∧
      ((∀ pat, ¬ [asterisk, asterisk] <:+: pat → fnmatch pat text = true → KeepsSlashes fnmatchSyntax pat text) ↔
        swallows text = false) := by
  have hone : ∀ ci, Narrow charLen text → Narrow (wildcardSyntax ci).step text :=
    fun _ _ _ _ _ h => nomatch h
  refine ⟨⟨fun h => ?_, fun h pat ci => ?_⟩, keepsSlashes_iff fnmatchSyntax_lawful text id⟩
  · exact (keepsSlashes_iff (wildcardSyntax_lawful false) text (hone false)).1 (fun pat => h pat false)
  · exact (keepsSlashes_iff (wildcardSyntax_lawful ci) text (hone ci)).2 h pat

/-- **The wildcards of a pattern without `**` take no slash of a path** the pattern does not misread: none stands, on a way
through the path, before a byte that announces a character with a slash in it.  A path without such a byte, as one in UTF-8,
is misread by no pattern. -/
theorem wildcards_keep_slashes_iff {pat : Bytes} (hno : ¬ [asterisk, asterisk] <:+: pat) (text : Bytes) :
    (∀ ci, (wildcardPathMatch pat text ci = true → KeepsSlashes (wildcardSyntax ci) pat text) ↔
        misreads (wildcardSyntax ci) pat text = false) ∧
      ((fnmatch pat text = true → KeepsSlashes fnmatchSyntax pat text) ↔ misreads fnmatchSyntax pat text = false) ∧
      (swallows text = false →
        (∀ ci, misreads (wildcardSyntax ci) pat text = false) ∧ misreads fnmatchSyntax pat text = false) := by
  have hlaw : ∀ {G : GlobSyntax}, G.sep slash = true → (∀ text, 0 < G.step text) →
      ((globGo G pat.length pat text = true → KeepsSlashes G pat text) ↔ misreads G pat text = false) := by
    intro G hsep hpos
    rw [← keepsSlashes_iff_misreads hsep hpos hno]
    -- a path that is not accepted cannot be cut at all
    exact ⟨fun h ps hrun => h ((globGo_iff G pat text).2 ⟨ps, hrun⟩) ps hrun, fun h _ => h⟩
  have hwild : ∀ ci, (wildcardPathMatch pat text ci = true → KeepsSlashes (wildcardSyntax ci) pat text) ↔
      misreads (wildcardSyntax ci) pat text = false :=
    fun ci => hlaw (wildcardSyntax_lawful ci).sep_slash (fun _ => Nat.one_pos)
  have hfn := hlaw fnmatchSyntax_lawful.sep_slash charLen_pos
  refine ⟨hwild, hfn, fun hswallows => ⟨fun ci => ?_, ?_⟩⟩
  · exact (hwild ci).1 ((every_pattern_keeps_slashes_iff text).1.2 hswallows pat ci hno)
  · exact hfn.1 ((every_pattern_keeps_slashes_iff text).2.2 hswallows pat hno)

/-- `[!a]/?` on the bytes C3 2F 62: the class takes the byte that announces the slash, and the `?` the letter after it. -/
theorem wildcards_keep_slashes_class :
    KeepsSlashes (wildcardSyntax false) [openBracket, 0x21, 0x61, closeBracket, slash, question] [0xC3, slash, 0x62] :=
  ((@wildcards_keep_slashes_iff [openBracket, 0x21, 0x61, closeBracket, slash, question] (by decide)
    [0xC3, slash, 0x62]).1 false).2 (by decide +kernel) (by decide +kernel)

/-- The byte C3 announces a character of two bytes: `?` takes it with the slash after it. -/
theorem not_wildcards_keep_slashes :
    ¬ ∀ pat text ci, ¬ [asterisk, asterisk] <:+: pat → wildcardPathMatch pat text ci = true →
      KeepsSlashes (wildcardSyntax ci) pat text := by
  intro h
  have hkeeps := h [question] [0xC3, slash] false (by decide) (by decide +kernel) [[0xC3, slash]]
    (@Glob.Run.cons _ _ (tokenEnds (wildcardSyntax false)) .anyChar [] [0xC3, slash] [] [] (by decide +kernel) Glob.Run.nil)
  revert hkeeps
  decide +kernel

end Pergrep.Cli
