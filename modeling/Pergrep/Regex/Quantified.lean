import Pergrep.Regex.TokensSpec
/-!
# Quantified — when every quantifier is read as one

A pattern is meant to be read with each quantifier repeating what stands directly before it, one after another nesting, and
refused where nothing stands there (`ReadsNesting`).  The parser takes one quantifier after an expression; any other byte
it reads as text.  So the two readings part at the first quantifier that stands at the start of the pattern, of a group or
of a branch, or directly after another (`Scan.dangles`), and never meet again.
-/
namespace Pergrep
namespace Parser

variable {icu : Icu} {s : Bytes}

/-- The pattern read to its end with every quantifier a quantifier says what the tree says. -/
def ReadsNesting (icu : Icu) (s : Bytes) (opt : PatternOptions) (n : RegexNode) : Prop :=
  ∃ τ, Scans icu s true (scanBegin opt) τ ∧ τ.st.i = s.length ∧ τ.open_ = [] ∧ τ.out = n.events

/-- A quantifier stands here, and directly before it nothing, or a quantifier that it is no laziness mark of. -/
def Scan.dangles (s : Bytes) (σ : Scan) : Prop :=
  quantifies s σ.st = true ∧
    (σ.before = .start ∨ ∃ n fresh, σ.before = .quantified n fresh ∧ ¬ (fresh = true ∧ s[σ.st.i]? = some 0x3F))

theorem quantifies_iff {st : PState} : quantifies s st = true ↔ ∃ m st', quantifier s st = .ok (some m, st') := by
  unfold quantifies
  cases quantifier s st with
  | error e => simp
  | ok r =>
    obtain ⟨q, st'⟩ := r
    cases q <;> simp

theorem quantifies_opens {st : PState} (h : quantifies s st = true) :
    ∃ c, s[st.i]? = some c ∧ opensQuantifier c = true := by
  obtain ⟨m, st', hq⟩ := quantifies_iff.1 h
  exact quantifier_ok_some hq

theorem token_agree {σ : Scan} (h : ¬ σ.dangles s) : σ.token icu s true = σ.token icu s false := by
  unfold Scan.token
  cases hc : s[σ.st.i]? with
  | none => rfl
  | some c =>
    have hitem : σ.item icu s true c = σ.item icu s false c := by
      unfold Scan.item
      cases hb : σ.before with
      | expr n => rfl
      | start =>
        have hq : ¬ quantifies s σ.st = true := fun hq => h ⟨hq, Or.inl hb⟩
        dsimp only
        rw [if_neg (fun h => hq h.2), if_neg (fun h => hq h.2)]
      | quantified n fresh =>
        dsimp only
        split
        · rfl
        · rename_i hf
          have hq : ¬ quantifies s σ.st = true := by
            intro hq
            refine h ⟨hq, Or.inr ⟨n, fresh, hb, fun hm => hf ⟨hm.1, ?_⟩⟩⟩
            exact Option.some.inj (hc.symm.trans hm.2)
          rw [if_neg (fun h => hq h.2), if_neg (fun h => hq h.2)]
    dsimp only
    rw [hitem]

theorem scans_agree {a σ : Scan} (h : Scans icu s false a σ) : Scans icu s true a σ ∨
    ∃ τ, Scans icu s false a τ ∧ Scans icu s true a τ ∧ τ.dangles s := by
  induction h with
  | refl => exact Or.inl .refl
  | tail hab hbc ih =>
    rename_i b c
    rcases ih with ih | ih
    · by_cases hd : b.dangles s
      · exact Or.inr ⟨b, hab, ih, hd⟩
      · exact Or.inl (ih.tail ((token_agree hd).trans hbc))
    · exact Or.inr ih

theorem scans_total {nests : Bool} {a b c : Scan} (hb : Scans icu s nests a b) (hc : Scans icu s nests a c) :
    Scans icu s nests b c ∨ Scans icu s nests c b :=
  Relation.ReflTransGen.total_of_right_unique (fun _ _ _ h1 h2 => Option.some.inj (h1.symm.trans h2)) hb hc

/-! ## What was said stays said -/

def Ev.isRep : Ev → Bool
  | .rep _ _ _ _ => true
  | _ => false

def Scan.shape (σ : Scan) : List Bool := σ.out.map Ev.isRep

theorem shape_mark (σ : Scan) (n : Nat) : (σ.mark n).shape = σ.shape := by
  unfold Scan.mark Scan.shape
  dsimp only
  split
  · rename_i h
    rw [h]
    rfl
  · rfl

theorem shape_token {nests : Bool} {σ τ : Scan} (h : σ.token icu s nests = some τ) : σ.shape <:+ τ.shape := by
  have hout : ∀ (τ : Scan) (es : List Ev), τ.out = es ++ σ.out → σ.shape <:+ τ.shape := by
    intro τ es he
    unfold Scan.shape
    rw [he, List.map_append]
    exact List.suffix_append _ _
  cases Scan.step_of_token h with
  | ignored c k hc hi hk => exact hout _ [] rfl
  | close τ hc hcl =>
    unfold Scan.close at hcl
    split at hcl
    · cases hcl
    · cases hcl
      exact hout _ _ rfl
  | bar hc => exact hout _ [.bar] rfl
  | quantify size mn mx st hb hq => exact hout _ [_] rfl
  | mark size hb hc => rw [shape_mark]
  | node n st hs hp => exact hout _ n.events rfl
  | opens w st hs hp => exact hout _ [] rfl

theorem shape_scans {nests : Bool} {σ τ : Scan} (h : Scans icu s nests σ τ) : σ.shape <:+ τ.shape := by
  induction h with
  | refl => exact List.suffix_refl _
  | tail _ hbc ih => exact ih.trans (shape_token hbc)

/-! ## Where the readings part -/

theorem piece_text {st st' : PState} {c : UInt8} {p : Piece} (hc : s[st.i]? = some c) (ho : opensQuantifier c = true)
    (h : piece icu s st = .ok (p, st')) : ∃ cp, p = .node (.literal st'.flags (appendUtf8 cp)) := by
  have hne : ∀ d : UInt8, opensQuantifier d = false → s[st.i]? ≠ some d := by
    intro d hd he
    rw [hc] at he
    cases he
    rw [ho] at hd
    cases hd
  unfold piece at h
  rw [eat_ite_not (hne 0x5E rfl), eat_ite_not (hne 0x24 rfl), eat_ite_not (hne 0x2E rfl), eat_ite_not (hne 0x5B rfl),
    eat_ite_not (hne 0x28 rfl), eat_ite_not (hne 0x5C rfl)] at h
  obtain ⟨cp, st₁, -, h2⟩ := bind_runs h
  cases h2
  exact ⟨cp, rfl⟩

theorem shape_literal {f : NodeFlags} {l : Bytes} (hl : 1 ≤ l.length) (es : List Bool) :
    (false :: es) <:+ ((RegexNode.literal f l).events.map Ev.isRep ++ es) := by
  have hmap : (RegexNode.literal f l).events.map Ev.isRep = List.replicate l.length false := by
    rw [RegexNode.events, List.map_reverse, List.map_map]
    rw [show Ev.isRep ∘ Ev.lit = fun _ => false from rfl, List.map_const', List.reverse_replicate]
  obtain ⟨k, hk⟩ := Nat.exists_eq_add_of_le' hl
  rw [hmap, hk, List.replicate_succ', List.append_assoc]
  exact List.suffix_append _ _

theorem ready_text {σ τ : Scan} {c : UInt8} (hc : s[σ.st.i]? = some c) (ho : opensQuantifier c = true) (hready : σ.ready s)
    (ht : σ.token icu s false = some τ) : (false :: σ.shape) <:+ τ.shape := by
  obtain ⟨hi, hs⟩ := opensQuantifier_plain hc ho
  rw [Scan.token_atom hc hi hs hready] at ht
  cases hp : piece icu s σ.st with
  | error e =>
    unfold Scan.atom at ht
    rw [hp] at ht
    cases ht
  | ok r =>
    obtain ⟨p, st'⟩ := r
    obtain ⟨cp, rfl⟩ := piece_text hc ho hp
    unfold Scan.atom at ht
    rw [hp] at ht
    cases ht
    unfold Scan.shape
    rw [List.map_append]
    exact shape_literal (length_appendUtf8_pos cp) _

theorem dangles_text {σ : Scan} (h : σ.dangles s) {τ : Scan} (ht : σ.token icu s false = some τ) :
    (false :: σ.shape) <:+ τ.shape := by
  obtain ⟨c, hc, ho⟩ := quantifies_opens h.1
  refine ready_text hc ho (fun d hd => ?_) ht
  rw [hc] at hd
  cases hd
  rcases h.2 with hb | ⟨n, fresh, hb, hm⟩
  · rw [hb]
    exact ⟨fun _ he => Before.noConfusion he, fun _ he => Before.noConfusion he⟩
  · rw [hb]
    refine ⟨fun _ he => Before.noConfusion he, fun n' he hq => hm ?_⟩
    cases he
    exact ⟨rfl, by rw [hc, hq]⟩

theorem dangles_nests {σ : Scan} (h : σ.dangles s) {τ : Scan} (ht : σ.token icu s true = some τ) :
    (true :: σ.shape) <:+ τ.shape := by
  obtain ⟨c, hc, ho⟩ := quantifies_opens h.1
  obtain ⟨hi, hs⟩ := opensQuantifier_plain hc ho
  rw [Scan.token_eq hc hi hs] at ht
  unfold Scan.item at ht
  rcases h.2 with hb | ⟨n, fresh, hb, hm⟩
  · rw [hb] at ht
    dsimp only at ht
    rw [if_pos ⟨rfl, h.1⟩] at ht
    cases ht
  · obtain ⟨⟨mn, mx⟩, st', hq⟩ := quantifies_iff.1 h.1
    rw [hb] at ht
    dsimp only at ht
    rw [if_neg (fun hf => hm ⟨hf.1, by rw [hc, hf.2]⟩), if_pos ⟨rfl, h.1⟩, quantify_ok hq] at ht
    cases ht
    exact List.suffix_refl _

theorem shape_apart {σ τ τ' : Scan} (ht : (true :: σ.shape) <:+ τ.shape) (hf : (false :: σ.shape) <:+ τ'.shape) :
    τ.out ≠ τ'.out := by
  intro he
  unfold Scan.shape at hf ht
  rw [← he] at hf
  have heq := (List.suffix_of_suffix_length_le hf ht (Nat.le_refl _)).eq_of_length rfl
  exact Bool.false_ne_true (List.cons.inj heq).1

theorem scans_head {nests : Bool} {σ τ : Scan} (h : Scans icu s nests σ τ) (hne : σ.st.i ≠ τ.st.i) :
    ∃ ρ, σ.token icu s nests = some ρ ∧ Scans icu s nests ρ τ := by
  rcases Relation.ReflTransGen.cases_head h with rfl | hρ
  · exact absurd rfl hne
  · exact hρ

theorem dangles_apart {σ τ τ' : Scan} (h : σ.dangles s) (hτ : Scans icu s false σ τ) (hτ' : Scans icu s true σ τ')
    (hend : τ.st.i = s.length) (hend' : τ'.st.i = s.length) : τ.out ≠ τ'.out := by
  obtain ⟨c, hc, -⟩ := quantifies_opens h.1
  have hlt : σ.st.i < s.length := (List.getElem?_eq_some_iff.1 hc).1
  obtain ⟨ρ, h1, h2⟩ := scans_head hτ (by omega)
  obtain ⟨ρ', h1', h2'⟩ := scans_head hτ' (by omega)
  exact (shape_apart ((dangles_nests h h1').trans (shape_scans h2')) ((dangles_text h h1).trans (shape_scans h2))).symm

theorem scans_to_end {nests : Bool} {a σ τ : Scan} (hσ : Scans icu s nests a σ) (hτ : Scans icu s nests a τ)
    (hend : τ.st.i = s.length) : Scans icu s nests σ τ := by
  rcases scans_total hσ hτ with h | h
  · exact h
  · rcases Relation.ReflTransGen.cases_head h with rfl | ⟨ρ, h1, -⟩
    · exact .refl
    · unfold Scan.token at h1
      rw [List.getElem?_eq_none (Nat.le_of_eq hend.symm)] at h1
      cases h1

/-- A pattern in which a quantifier dangles does not say what it says with every quantifier a quantifier. -/
theorem not_readsNesting {opt : PatternOptions} {r : Parsed} (h : parse icu s opt = .ok r) {σ : Scan}
    (hσ : Scans icu s false (scanBegin opt) σ) (hd : σ.dangles s) : ¬ ReadsNesting icu s opt r.ast := by
  obtain ⟨τ, hτ, hend, -, hout⟩ := parse_scans h
  rintro ⟨τ', hτ', hend', -, hout'⟩
  obtain ⟨ρ, h1, h2, hρ⟩ : ∃ ρ, Scans icu s false (scanBegin opt) ρ ∧ Scans icu s true (scanBegin opt) ρ ∧ ρ.dangles s :=
    (scans_agree hσ).elim (fun hs => ⟨σ, hσ, hs, hd⟩) id
  exact dangles_apart hρ (scans_to_end h1 hτ hend) (scans_to_end h2 hτ' hend') hend hend' (hout.trans hout'.symm)

/-- **When every quantifier is read as one.**  A parsed pattern says what it says with every quantifier a quantifier, just
when none stands where nothing is to be repeated or directly after another. -/
theorem parse_quantifiers_iff {opt : PatternOptions} {r : Parsed} (h : parse icu s opt = .ok r) :
    ReadsNesting icu s opt r.ast ↔ ∀ σ, Scans icu s false (scanBegin opt) σ → ¬ σ.dangles s := by
  refine ⟨fun hn σ hσ hd => not_readsNesting h hσ hd hn, fun hno => ?_⟩
  obtain ⟨τ, hτ, hend, hopen, hout⟩ := parse_scans h
  rcases scans_agree hτ with hs | ⟨σ, h1, -, hd⟩
  · exact ⟨τ, hs, hend, hopen, hout⟩
  · exact absurd hd (hno σ h1)

/-- `a*?(b+|c){2}` -/
theorem parse_quantifiers_iff_placed :
    ∃ r, parse asciiIcu [0x61, 0x2A, 0x3F, 0x28, 0x62, 0x2B, 0x7C, 0x63, 0x29, 0x7B, 0x32, 0x7D] {} = .ok r ∧
      (ReadsNesting asciiIcu [0x61, 0x2A, 0x3F, 0x28, 0x62, 0x2B, 0x7C, 0x63, 0x29, 0x7B, 0x32, 0x7D] {} r.ast ↔
        ∀ σ, Scans asciiIcu [0x61, 0x2A, 0x3F, 0x28, 0x62, 0x2B, 0x7C, 0x63, 0x29, 0x7B, 0x32, 0x7D] false (scanBegin {}) σ →
          ¬ σ.dangles [0x61, 0x2A, 0x3F, 0x28, 0x62, 0x2B, 0x7C, 0x63, 0x29, 0x7B, 0x32, 0x7D]) := by
  obtain ⟨r, hr, -⟩ := Throw.returns_iff.1 (show Throw.returns (parse asciiIcu
    [0x61, 0x2A, 0x3F, 0x28, 0x62, 0x2B, 0x7C, 0x63, 0x29, 0x7B, 0x32, 0x7D] {}) (fun _ => true) = true by decide +kernel)
  exact ⟨r, hr, parse_quantifiers_iff hr⟩

/-- The second star of `a**` is text. -/
theorem parse_second_star : ∃ r, parse asciiIcu [0x61, 0x2A, 0x2A] {} = .ok r ∧
    ¬ ReadsNesting asciiIcu [0x61, 0x2A, 0x2A] {} r.ast := by
  obtain ⟨r, hr, -⟩ := Throw.returns_iff.1
    (show Throw.returns (parse asciiIcu [0x61, 0x2A, 0x2A] {}) (fun _ => true) = true by decide +kernel)
  have h1 : (scanBegin {}).token asciiIcu [0x61, 0x2A, 0x2A] false =
      some ⟨(scanBegin {}).st.forward 1, [], .expr 1, [.lit 0x61]⟩ := rfl
  have h2 : Scan.token asciiIcu [0x61, 0x2A, 0x2A] false ⟨(scanBegin {}).st.forward 1, [], .expr 1, [.lit 0x61]⟩ =
      some ⟨(scanBegin {}).st.forward 2, [], .quantified 2 true, [.rep 0 sizeMax 1 true, .lit 0x61]⟩ := rfl
  exact ⟨r, hr, not_readsNesting hr (.tail (.single h1) h2) ⟨rfl, Or.inr ⟨2, true, rfl, by decide⟩⟩⟩

end Parser
end Pergrep
