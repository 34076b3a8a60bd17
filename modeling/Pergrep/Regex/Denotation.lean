import Mathlib.Computability.Language
import Pergrep.Lib.Steps
import Pergrep.Regex.Context
/-!
# Denotation — what a regular tree means

`spans icu c n s e`: the tree `n` matches the span `[s, e)` of the text `c` — a relation on positions, by recursion on
the tree, that says nothing of engines, preferences or captures.  `lang n` is the tree's language of labels (runes and
classes consumed, assertions passed, captures saved, in order) and `runs` reads a label word off the text;
`spans_iff_lang` joins them: a span is what some word of the language reads.

Neither says anything of a back-reference or a look-around: `RegexNode.regular` trees have none.
-/
namespace Pergrep

open Computability Steps

/-- One observable step of a match. -/
inductive Label where
  | rune (f : NodeFlags) (cp : Nat)
  | any (f : NodeFlags)
  | cls (f : NodeFlags) (charClass : CharClassSpec)
  | assert (f : NodeFlags) (k : AssertKind)
  | saveStart (group : Nat)
  | saveEnd (group : Nat)
  deriving DecidableEq, Repr

/-! ## The language of a tree -/

mutual
def lang : RegexNode → Language Label
  | .empty _ => 1
  | .literal f l => {(runes l).map (Label.rune f)}
  | .dot f => {[.any f]}
  | .cls f s => {[.cls f s]}
  | .assert f k => {[.assert f k]}
  | .concat _ cs => langAll cs
  | .alt _ cs => langAny cs
  | .repeat_ _ mn mx _ c => {w | ∃ k, mn ≤ k ∧ (mx = sizeMax ∨ k ≤ mx) ∧ w ∈ lang c ^ k}
  | .group _ g _ c => {[.saveStart g]} * lang c * {[.saveEnd g]}
  | .backRef _ _ | .lookAhead _ _ _ | .lookBehind _ _ _ => 0

def langAll : List RegexNode → Language Label
  | [] => 1
  | c :: cs => lang c * langAll cs

def langAny : List RegexNode → Language Label
  | [] => 0
  | c :: cs => lang c + langAny cs
end

/-! ## Well-formed trees -/

mutual
/-- What the parser guarantees of the trees it builds: an alternation has a branch, and the bounds of a repetition are
in order. -/
def RegexNode.wf : RegexNode → Bool
  | .empty _ | .literal _ _ | .dot _ | .cls _ _ | .assert _ _ | .backRef _ _ => true
  | .concat _ cs => RegexNode.wfAll cs
  | .alt _ cs => !cs.isEmpty && RegexNode.wfAll cs
  | .repeat_ _ mn mx _ c => (decide (mx = sizeMax) || decide (mn ≤ mx)) && c.wf
  | .group _ _ _ c | .lookAhead _ _ c | .lookBehind _ _ c => c.wf

def RegexNode.wfAll : List RegexNode → Bool
  | [] => true
  | c :: cs => c.wf && RegexNode.wfAll cs
end

theorem RegexNode.wfAll_iff : ∀ {cs : List RegexNode}, RegexNode.wfAll cs = true ↔ ∀ c ∈ cs, c.wf = true
  | [] => by simp [RegexNode.wfAll]
  | c :: cs => by simp [RegexNode.wfAll, @RegexNode.wfAll_iff cs]

/-! ## Spans -/

section
variable (icu : Icu) (c : VerifierContext)

/-- `nfa_consume` as a relation: the label takes the rune. -/
def Label.takes (sep : UInt8) (cp : Nat) : Label → Bool
  | .rune f x => icu.cpEq cp x f.icase
  | .any f => f.dotall || cp != sep.toNat
  | .cls f s => classMatch icu s cp f.icase
  | _ => false

/-- What a label does at a position: consume the rune there, pass an assertion, or nothing. -/
def Label.reads (l : Label) (p q : Nat) : Prop :=
  match l with
  | .assert f k => assertAt icu k f c p = true ∧ q = p
  | .saveStart _ | .saveEnd _ => q = p
  | l => ∃ r, contextRuneAtValidated c p = some r ∧ l.takes icu c.separator r.cp = true ∧ q = r.next

def runs : List Label → Nat → Nat → Prop
  | [], p, q => p = q
  | l :: w, p, q => ∃ m, l.reads icu c p m ∧ runs w m q

/-- The runes of a literal, one after another. -/
def literalSpan (f : NodeFlags) : List Nat → Nat → Nat → Prop
  | [], p, q => p = q
  | x :: xs, p, q => ∃ r, contextRuneAtValidated c p = some r ∧ icu.cpEq r.cp x f.icase = true ∧
      literalSpan f xs r.next q

mutual
/-- **The spans of a tree on a text.** -/
def spans : RegexNode → Nat → Nat → Prop
  | .empty _, p, q => p = q
  | .literal f l, p, q => literalSpan icu c f (runes l) p q
  | .dot f, p, q => ∃ r, contextRuneAtValidated c p = some r ∧ (f.dotall || r.cp != c.separator.toNat) = true ∧ q = r.next
  | .cls f s, p, q => ∃ r, contextRuneAtValidated c p = some r ∧ classMatch icu s r.cp f.icase = true ∧ q = r.next
  | .assert f k, p, q => assertAt icu k f c p = true ∧ q = p
  | .concat _ cs, p, q => spansAll cs p q
  | .alt _ cs, p, q => spansAny cs p q
  | .repeat_ _ mn mx _ n, p, q => ∃ k, mn ≤ k ∧ (mx = sizeMax ∨ k ≤ mx) ∧ iterSpan (fun p q => spans n p q) k p q
  | .group _ _ _ n, p, q => spans n p q
  | .backRef _ _, _, _ | .lookAhead _ _ _, _, _ | .lookBehind _ _ _, _, _ => False

def spansAll : List RegexNode → Nat → Nat → Prop
  | [], p, q => p = q
  | n :: ns, p, q => ∃ m, spans n p m ∧ spansAll ns m q

def spansAny : List RegexNode → Nat → Nat → Prop
  | [], _, _ => False
  | n :: ns, p, q => spans n p q ∨ spansAny ns p q
end

variable {icu c}

theorem runs_append {u v : List Label} : ∀ {p q : Nat}, runs icu c (u ++ v) p q ↔ ∃ m, runs icu c u p m ∧ runs icu c v m q := by
  induction u with
  | nil => intro p q; simp [runs]
  | cons l u ih =>
    intro p q
    simp only [List.cons_append, runs, ih]
    constructor
    · rintro ⟨m, hl, n, hu, hv⟩; exact ⟨n, ⟨m, hl, hu⟩, hv⟩
    · rintro ⟨n, ⟨m, hl, hu⟩, hv⟩; exact ⟨m, hl, n, hu, hv⟩

theorem runs_singleton {l : Label} {p q : Nat} : runs icu c [l] p q ↔ l.reads icu c p q := by
  simp only [runs]
  constructor
  · rintro ⟨m, h, rfl⟩; exact h
  · exact fun h => ⟨q, h, rfl⟩

theorem literalSpan_iff (f : NodeFlags) : ∀ (xs : List Nat) (p q : Nat),
    literalSpan icu c f xs p q ↔ runs icu c (xs.map (Label.rune f)) p q
  | [], p, q => by simp [literalSpan, runs]
  | x :: xs, p, q => by
    simp only [literalSpan, List.map_cons, runs, Label.reads, Label.takes, literalSpan_iff f xs]
    constructor
    · rintro ⟨r, hr, he, h⟩; exact ⟨r.next, ⟨r, hr, he, rfl⟩, h⟩
    · rintro ⟨m, ⟨r, hr, he, rfl⟩, h⟩; exact ⟨r, hr, he, h⟩

def langSpan (icu : Icu) (c : VerifierContext) (L : Language Label) (p q : Nat) : Prop := ∃ w ∈ L, runs icu c w p q

theorem langSpan_mul {L M : Language Label} {p q : Nat} :
    langSpan icu c (L * M) p q ↔ ∃ m, langSpan icu c L p m ∧ langSpan icu c M m q := by
  constructor
  · rintro ⟨w, hw, h⟩
    obtain ⟨u, hu, v, hv, rfl⟩ := Language.mem_mul.1 hw
    obtain ⟨m, h1, h2⟩ := runs_append.1 h
    exact ⟨m, ⟨u, hu, h1⟩, v, hv, h2⟩
  · rintro ⟨m, ⟨u, hu, h1⟩, v, hv, h2⟩
    exact ⟨u ++ v, Language.append_mem_mul hu hv, runs_append.2 ⟨m, h1, h2⟩⟩

theorem langSpan_add {L M : Language Label} {p q : Nat} :
    langSpan icu c (L + M) p q ↔ langSpan icu c L p q ∨ langSpan icu c M p q := by
  simp only [langSpan, Language.mem_add, or_and_right, exists_or]

theorem langSpan_word {w : List Label} {p q : Nat} :
    langSpan icu c ({w} : Language Label) p q ↔ runs icu c w p q := by
  constructor
  · rintro ⟨_, rfl, h⟩; exact h
  · exact fun h => ⟨w, rfl, h⟩

theorem langSpan_one {p q : Nat} : langSpan icu c 1 p q ↔ p = q := by
  constructor
  · rintro ⟨w, hw, h⟩
    rw [(Language.mem_one w).1 hw] at h
    exact h
  · rintro rfl
    exact ⟨[], Language.nil_mem_one, rfl⟩

theorem langSpan_zero {p q : Nat} : ¬ langSpan icu c 0 p q := fun ⟨w, hw, _⟩ => Language.notMem_zero w hw

theorem langSpan_pow {L : Language Label} : ∀ {k p q : Nat},
    langSpan icu c (L ^ k) p q ↔ iterSpan (langSpan icu c L) k p q
  | 0, p, q => by rw [pow_zero]; exact langSpan_one
  | k + 1, p, q => by
    rw [pow_succ', langSpan_mul]
    simp only [iterSpan, langSpan_pow (k := k)]

/-- **A span of a tree is what some word of its language reads.** -/
theorem spans_iff_lang (n : RegexNode) : ∀ p q, spans icu c n p q ↔ langSpan icu c (lang n) p q := by
  induction n using RegexNode.recChildren with
  | empty f => intro p q; simp only [spans, lang, langSpan_one]
  | literal f l => intro p q; simp only [spans, lang, literalSpan_iff, langSpan_word]
  | dot f => intro p q; simp only [spans, lang, langSpan_word, runs_singleton, Label.reads, Label.takes]
  | cls f s => intro p q; simp only [spans, lang, langSpan_word, runs_singleton, Label.reads, Label.takes]
  | assert f k => intro p q; simp only [spans, lang, langSpan_word, runs_singleton, Label.reads]
  | concat f cs ih =>
    intro p q
    simp only [spans, lang]
    induction cs generalizing p q with
    | nil => simp only [spansAll, langAll, langSpan_one]
    | cons n ns ihs =>
      simp only [spansAll, langAll, langSpan_mul]
      refine exists_congr (fun m => and_congr (ih n List.mem_cons_self p m) ?_)
      exact ihs (fun d hd => ih d (List.mem_cons_of_mem _ hd)) m q
  | alt f cs ih =>
    intro p q
    simp only [spans, lang]
    induction cs generalizing p q with
    | nil => simp only [spansAny, langAny, langSpan_zero]
    | cons n ns ihs =>
      simp only [spansAny, langAny, langSpan_add]
      exact or_congr (ih n List.mem_cons_self p q) (ihs (fun d hd => ih d (List.mem_cons_of_mem _ hd)) p q)
  | repeat_ f mn mx g n ih =>
    intro p q
    have hR : (fun p q => spans icu c n p q) = langSpan icu c (lang n) := by
      funext p q
      exact propext (ih p q)
    simp only [spans, lang, hR, ← langSpan_pow]
    constructor
    · rintro ⟨k, h1, h2, w, hw, h⟩; exact ⟨w, ⟨k, h1, h2, hw⟩, h⟩
    · rintro ⟨w, ⟨k, h1, h2, hw⟩, h⟩; exact ⟨k, h1, h2, w, hw, h⟩
  | group f g nm n ih =>
    intro p q
    simp only [spans, lang, langSpan_mul, langSpan_word, runs_singleton, Label.reads, ih]
    constructor
    · exact fun h => ⟨q, ⟨p, rfl, h⟩, rfl⟩
    · rintro ⟨m, ⟨m', rfl, h⟩, rfl⟩; exact h
  | backRef f g => intro p q; simp only [spans, lang, langSpan_zero]
  | lookAhead f neg n _ => intro p q; simp only [spans, lang, langSpan_zero]
  | lookBehind f neg n _ => intro p q; simp only [spans, lang, langSpan_zero]

end

end Pergrep
