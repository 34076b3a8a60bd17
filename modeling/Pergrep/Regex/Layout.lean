import Pergrep.Regex.InsertedReaders
import Pergrep.Regex.Quantified
/-!
# Layout — what white space in a pattern changes

In the ignore-whitespace mode blank text, white space and comments, can stand between any two tokens, but `skip_ignored`
is called only before an item of a concatenation and at the end of a flag group.  A quantifier is looked for directly after
an expression, and its laziness mark directly after it.  So blank text put in between two tokens leaves the tree as it is
just when the token behind it is neither (`parse_blank_iff`).
-/
namespace Pergrep
namespace Parser

open RegexNode (eventsAll eventsBars)

/-- White space, and comments with the line feed that ends them. -/
inductive Blank : Bytes → Prop
  | nil : Blank []
  | space {b : UInt8} {w : Bytes} (hb : isSpaceByte b = true) (hw : Blank w) : Blank (b :: w)
  | comment {c w : Bytes} (hc : ∀ b ∈ c, b ≠ 0x0A) (hw : Blank w) : Blank (0x23 :: (c ++ 0x0A :: w))

theorem ignoredPrefix_line {c : Bytes} (hc : ∀ b ∈ c, b ≠ 0x0A) (t : Bytes) :
    ignoredPrefix (c ++ 0x0A :: t) true = c.length + 1 + ignoredPrefix t false := by
  induction c with
  | nil =>
    rw [List.nil_append, ignoredPrefix, if_pos rfl]
    rfl
  | cons b c ih =>
    rw [List.cons_append, ignoredPrefix, if_neg (hc b List.mem_cons_self), ih (fun x hx => hc x (List.mem_cons_of_mem b hx)),
      List.length_cons]
    omega

theorem Blank.ignored {w : Bytes} (h : Blank w) (t : Bytes) : ignoredPrefix (w ++ t) false = w.length + ignoredPrefix t false := by
  induction h with
  | nil => rw [List.nil_append, List.length_nil, Nat.zero_add]
  | space hb hw ih =>
    rw [List.cons_append, ignoredPrefix, if_pos hb, ih, List.length_cons]
    omega
  | comment hc hw ih =>
    rw [List.cons_append, ignoredPrefix, if_neg (by decide), if_pos rfl, List.append_assoc, List.cons_append,
      ignoredPrefix_line hc, ih, List.length_cons, List.length_append, List.length_cons]
    omega

theorem Blank.head {w : Bytes} (h : Blank w) (hne : w ≠ []) : ∃ b, w[0]? = some b ∧ blankByte b := by
  cases h with
  | nil => exact absurd rfl hne
  | space hb hw => exact ⟨_, rfl, Or.inl hb⟩
  | comment hc hw => exact ⟨_, rfl, Or.inr rfl⟩

/-! ## Every token reads on -/

section
variable {icu : Icu} {s : Bytes}

/-- A blank can stand in front of what is not empty. -/
theorem Inserted.front {i : Nat} {c : UInt8} (hc : s[i]? = some c) : Inserted s (0x20 :: s) 0 1 where
  lt := Nat.lt_of_le_of_lt (Nat.zero_le i) (List.getElem?_eq_some_iff.1 hc).1
  same i hi := absurd hi (Nat.not_lt_zero i)
  moved i _ := rfl
  blank := ⟨0x20, rfl, by decide⟩

theorem token_byte {nests : Bool} {a b : Scan} (ht : a.token icu s nests = some b) : ∃ c, s[a.st.i]? = some c := by
  unfold Scan.token at ht
  split at ht
  · cases ht
  · exact ⟨_, ‹_›⟩

theorem token_lt {nests : Bool} {a b : Scan} (ht : a.token icu s nests = some b) : a.st.i < b.st.i := by
  obtain ⟨c, hc⟩ := token_byte ht
  have hins := Inserted.front hc
  cases Scan.step_of_token ht with
  | ignored c n hc hi hn => exact Nat.lt_add_of_pos_right hn
  | close τ hc hcl =>
    unfold Scan.close at hcl
    split at hcl
    · cases hcl
    · rename_i w n rest _
      cases hcl
      change a.st.i < (w.restore (a.st.forward 1)).i
      rw [Opening.restore_i]
      exact Nat.lt_succ_self _
  | bar hc => exact Nat.lt_succ_self _
  | quantify size mn mx st hb hq => exact quantifier_lt hins hq
  | mark size hb hc => exact Nat.lt_succ_self _
  | node n st hs hp => exact (piece_carries icu hins).2 hp
  | opens w st hs hp => exact (piece_carries icu hins).2 hp

theorem scans_le {nests : Bool} {a b : Scan} (hs : Scans icu s nests a b) : a.st.i ≤ b.st.i := by
  induction hs with
  | refl => exact Nat.le_refl _
  | tail _ ht ih => exact Nat.le_trans ih (Nat.le_of_lt (token_lt ht))

end

/-! ## A place between two tokens -/

/-- The machine is at `σ` in `s`, ignoring white space, and `s'` has `d` blank bytes there. -/
structure Place (icu : Icu) (s s' : Bytes) (opt : PatternOptions) (σ : Scan) (d : Nat) : Prop where
  inserted : Inserted s s' σ.st.i d
  reached : Scans icu s false (scanBegin opt) σ
  ignoring : σ.st.ignoreWs = true
  pos : 0 < d
  ignored : ignoredPrefix (s'.drop σ.st.i) false = d + ignoredPrefix (s.drop σ.st.i) false

section
variable {icu : Icu} {s s' : Bytes} {opt : PatternOptions} {σ : Scan} {d : Nat} (h : Place icu s s' opt σ d)

theorem Place.of_blank {p w t : Bytes} (hσ : Scans icu (p ++ t) false (scanBegin opt) σ) (hi : σ.st.i = p.length)
    (hws : σ.st.ignoreWs = true) (ht : t ≠ []) (hw : Blank w) (hne : w ≠ []) :
    Place icu (p ++ t) (p ++ w ++ t) opt σ w.length := by
  refine ⟨⟨?_, fun i hlt => ?_, fun i hle => ?_, ?_⟩, hσ, hws, List.length_pos_of_ne_nil hne, ?_⟩
  · rw [hi, List.length_append]
    exact Nat.lt_add_of_pos_right (List.length_pos_of_ne_nil ht)
  · rw [hi] at hlt
    rw [List.append_assoc, List.getElem?_append_left hlt, List.getElem?_append_left hlt]
  · rw [hi] at hle
    rw [List.getElem?_append_right (by rw [List.length_append]; omega), List.getElem?_append_right hle, List.length_append]
    congr 1
    omega
  · obtain ⟨b, hb, hblank⟩ := hw.head hne
    refine ⟨b, ?_, hblank⟩
    rw [hi, List.append_assoc, List.getElem?_append_right (Nat.le_refl _), Nat.sub_self,
      List.getElem?_append_left (List.length_pos_of_ne_nil hne)]
    exact hb
  · rw [hi, List.append_assoc, List.drop_left, List.drop_left, hw.ignored]

include h

theorem Place.next {a b : Scan} (ha : Scans icu s false (scanBegin opt) a) (hlt : a.st.i < σ.st.i)
    (ht : a.token icu s false = some b) : b.st.i ≤ σ.st.i := by
  rcases scans_total ha h.reached with hs | hs
  · rcases Relation.ReflTransGen.cases_head hs with rfl | ⟨c, h1, h2⟩
    · exact absurd hlt (Nat.lt_irrefl _)
    · cases h1.symm.trans ht
      exact scans_le h2
  · exact absurd (scans_le hs) (Nat.not_le.2 hlt)

theorem Place.unique {a : Scan} (ha : Scans icu s false (scanBegin opt) a) (hi : a.st.i = σ.st.i) : a = σ := by
  rcases scans_total ha h.reached with hs | hs
  all_goals
    rcases Relation.ReflTransGen.cases_head hs with heq | ⟨c, h1, h2⟩
  · exact heq
  · have hlt := token_lt h1
    have hle := scans_le h2
    omega
  · exact heq.symm
  · have hlt := token_lt h1
    have hle := scans_le h2
    omega

omit h in
theorem commentLength_ahead {t : Bytes} : ∀ {t' : Bytes} {m : Nat}, commentLength t ≤ m → m < t.length →
    t'.take m = t.take m → commentLength t' = commentLength t := by
  induction t with
  | nil => exact fun _ h2 _ => absurd h2 (Nat.not_lt_zero _)
  | cons b t ih =>
    intro t' m h1 h2 h3
    by_cases hb : b = 0x0A
    · rw [commentLength, if_pos hb] at h1
      obtain ⟨t'', rfl, -, -⟩ := take_cons_of (Nat.le_of_lt h2) h1 h3
      rw [commentLength, commentLength, if_pos hb, if_pos hb]
    · rw [commentLength, if_neg hb] at h1
      obtain ⟨t'', rfl, h4, h5⟩ := take_cons_of (Nat.le_of_lt h2) (by omega) h3
      rw [List.length_cons] at h2
      rw [commentLength, commentLength, if_neg hb, if_neg hb, ih (by omega) (by omega) h5]

/-- The state behind the blank text, unless it is in front of the place. -/
def PState.past (k d : Nat) (st : PState) : PState := if st.i < k then st else st.forward d

/-- The state behind the blank text, if it is behind the place. -/
def PState.upTo (k d : Nat) (st : PState) : PState := if st.i ≤ k then st else st.forward d

omit h in
theorem ignoredLength_same {k : Nat} (hins : Inserted s s' k d) {st : PState} {c : UInt8} (hle : st.i + ignoredLength s st c ≤ k) :
    ignoredLength s' st c = ignoredLength s st c := by
  unfold ignoredLength at hle ⊢
  split
  · rfl
  · rename_i hsp
    rw [if_neg hsp] at hle
    have hlt := hins.lt
    rw [commentLength_ahead (m := k - (st.i + 1)) (by omega) (by rw [List.length_drop]; omega) (hins.take (by omega))]

theorem Place.skipped {st : PState} {K : List (Opening × Nat)} {m : Before} {out : List Ev}
    (ha : Scans icu s false (scanBegin opt) ⟨st, K, m, out⟩) (hle : st.i ≤ σ.st.i) :
    Parser.skipped s' st = (Parser.skipped s st).past σ.st.i d := by
  induction hn : σ.st.i - st.i using Nat.strongRecOn generalizing st m with
  | ind n ih =>
    rcases Nat.lt_or_eq_of_le hle with hlt | heq
    · obtain ⟨c, hc⟩ : ∃ c, s[st.i]? = some c := ⟨_, List.getElem?_eq_getElem (Nat.lt_trans hlt h.inserted.lt)⟩
      have hc' : s'[st.i]? = some c := (h.inserted.same _ hlt).trans hc
      by_cases hig : ignorable st c
      · obtain ⟨hskip, htok⟩ := skipped_ignorable icu hc hig
        have hpos := ignoredLength_pos s st c
        have hnext : st.i + ignoredLength s st c ≤ σ.st.i := h.next ha hlt (htok false K m out)
        rw [(skipped_ignorable icu hc' hig).1, ignoredLength_same h.inserted hnext, hskip]
        exact ih _ (by rw [PState.forward_i]; omega) (ha.tail (htok false K m out)) hnext rfl
      · rw [skipped_plain hc hig, skipped_plain hc' hig]
        exact (if_pos hlt).symm
    · have hst : st = σ.st := congrArg Scan.st (h.unique ha heq)
      unfold Parser.skipped PState.past
      rw [hst, if_pos h.ignoring, if_pos h.ignoring, if_neg (by rw [PState.forward_i]; omega), h.ignored,
        PState.forward_forward, Nat.add_comm d]

end

/-! ## Behind the place -/

section
variable {icu : Icu} {s s' : Bytes} {k d : Nat}

/-- A function of the parser, begun behind the place, does the same with the blank text put in. -/
def CarriesAfter {α : Type} (k d fuel : Nat) (F F' : Nat → P α) : Prop := ∀ {st a st₁}, F fuel st = .ok (a, st₁) → k ≤ st.i →
  k ≤ st₁.i ∧ ∀ {fuel'}, fuel < fuel' → F' fuel' (st.forward d) = .ok (a, st₁.forward d)

/-- What the induction carries for one amount of fuel. -/
structure AllAfter (icu : Icu) (s s' : Bytes) (k d fuel : Nat) : Prop where
  alt : CarriesAfter k d fuel (alt icu s) (alt icu s')
  altRest : CarriesAfter k d fuel (altRest icu s) (altRest icu s')
  concat : CarriesAfter k d fuel (concat icu s) (concat icu s')
  concatItems : CarriesAfter k d fuel (concatItems icu s) (concatItems icu s')
  «repeat» : CarriesAfter k d fuel («repeat» icu s) («repeat» icu s')
  atom : CarriesAfter k d fuel (atom icu s) (atom icu s')

theorem alt_after {fuel : Nat} (h : AllAfter icu s s' k d fuel) :
    CarriesAfter k d (fuel + 1) (Parser.alt icu s) (Parser.alt icu s') := by
  intro st n st₁ hr hk
  obtain ⟨x, st₂, xs, h1, h2, rfl⟩ := alt_ok.1 hr
  obtain ⟨hk₂, hx⟩ := h.concat h1 hk
  obtain ⟨hk₁, hxs⟩ := h.altRest h2 hk₂
  refine ⟨hk₁, fun {fuel'} hlt => ?_⟩
  obtain ⟨g, rfl⟩ := Nat.exists_eq_add_one_of_ne_zero (Nat.ne_zero_of_lt hlt)
  have hg : fuel < g := Nat.lt_of_succ_lt_succ hlt
  exact alt_ok.2 ⟨x, st₂.forward d, xs, hx hg, hxs hg, rfl⟩

variable (hins : Inserted s s' k d)
include hins

theorem altRest_after {fuel : Nat} (h : AllAfter icu s s' k d fuel) :
    CarriesAfter k d (fuel + 1) (Parser.altRest icu s) (Parser.altRest icu s') := by
  intro st xs st₁ hr hk
  have hbyte : s'[(st.forward d).i]? = s[st.i]? := hins.moved _ hk
  rcases altRest_ok.1 hr with ⟨hne, rfl, rfl⟩ | ⟨hbar, x, st₂, ys, h1, h2, rfl⟩
  · refine ⟨hk, fun {fuel'} hlt => ?_⟩
    obtain ⟨g, rfl⟩ := Nat.exists_eq_add_one_of_ne_zero (Nat.ne_zero_of_lt hlt)
    exact altRest_ok.2 (Or.inl ⟨by rw [hbyte]; exact hne, rfl, rfl⟩)
  · obtain ⟨hk₂, hx⟩ := h.concat h1 (Nat.le_succ_of_le hk)
    obtain ⟨hk₁, hys⟩ := h.altRest h2 hk₂
    refine ⟨hk₁, fun {fuel'} hlt => ?_⟩
    obtain ⟨g, rfl⟩ := Nat.exists_eq_add_one_of_ne_zero (Nat.ne_zero_of_lt hlt)
    have hg : fuel < g := Nat.lt_of_succ_lt_succ hlt
    refine altRest_ok.2 (Or.inr ⟨hbyte.trans hbar, x, st₂.forward d, ys, ?_, hys hg, rfl⟩)
    rw [← PState.forward_comm]
    exact hx hg

omit hins in
theorem concat_after {fuel : Nat} (h : AllAfter icu s s' k d fuel) :
    CarriesAfter k d (fuel + 1) (Parser.concat icu s) (Parser.concat icu s') := by
  intro st n st₁ hr hk
  obtain ⟨xs, h1, rfl⟩ := concat_ok.1 hr
  obtain ⟨hk₁, hxs⟩ := h.concatItems h1 hk
  refine ⟨hk₁, fun {fuel'} hlt => ?_⟩
  obtain ⟨g, rfl⟩ := Nat.exists_eq_add_one_of_ne_zero (Nat.ne_zero_of_lt hlt)
  exact concat_ok.2 ⟨xs, hxs (Nat.lt_of_succ_lt_succ hlt), rfl⟩

theorem Inserted.skipped {st : PState} (hk : k ≤ st.i) : Parser.skipped s' (st.forward d) = (Parser.skipped s st).forward d := by
  unfold Parser.skipped
  rw [PState.forward_ignoreWs, PState.forward_i, hins.drop hk]
  split
  · exact (PState.forward_comm _ _ _).symm
  · rfl

theorem Inserted.stops {st : PState} (hk : k ≤ st.i) : stopsConcat s' (st.forward d) ↔ stopsConcat s st := by
  unfold stopsConcat
  rw [PState.forward_i, hins.moved _ hk]

omit hins in
theorem skipped_le (s : Bytes) (st : PState) : st.i ≤ (skipped s st).i := by
  unfold skipped
  split
  · exact Nat.le_add_right _ _
  · exact Nat.le_refl _

theorem concatItems_after {fuel : Nat} (h : AllAfter icu s s' k d fuel) :
    CarriesAfter k d (fuel + 1) (Parser.concatItems icu s) (Parser.concatItems icu s') := by
  intro st xs st₁ hr hk
  have hkskip : k ≤ (skipped s st).i := Nat.le_trans hk (skipped_le s st)
  rcases concatItems_ok.1 hr with ⟨hstop, rfl, rfl⟩ | ⟨hstop, x, st₂, ys, h1, h2, rfl⟩
  · refine ⟨hkskip, fun {fuel'} hlt => ?_⟩
    obtain ⟨g, rfl⟩ := Nat.exists_eq_add_one_of_ne_zero (Nat.ne_zero_of_lt hlt)
    refine concatItems_ok.2 (Or.inl ⟨?_, rfl, (hins.skipped hk).symm⟩)
    rw [hins.skipped hk, hins.stops hkskip]
    exact hstop
  · obtain ⟨hk₂, hx⟩ := h.repeat h1 hkskip
    obtain ⟨hk₁, hys⟩ := h.concatItems h2 hk₂
    refine ⟨hk₁, fun {fuel'} hlt => ?_⟩
    obtain ⟨g, rfl⟩ := Nat.exists_eq_add_one_of_ne_zero (Nat.ne_zero_of_lt hlt)
    have hg : fuel < g := Nat.lt_of_succ_lt_succ hlt
    refine concatItems_ok.2 (Or.inr ⟨?_, x, st₂.forward d, ys, ?_, hys hg, rfl⟩)
    · rw [hins.skipped hk, hins.stops hkskip]
      exact hstop
    · rw [hins.skipped hk]
      exact hx hg

theorem quantified_after {n a : RegexNode} {q : Option (Nat × Nat)} {st₁ st₂ st₃ : PState} (hk : k ≤ st₁.i)
    (h2 : quantifier s st₁ = .ok (q, st₂)) (h3 : (q = none ∧ n = a ∧ st₃ = st₂) ∨ ∃ mn mx b, q = some (mn, mx) ∧
      eat s 0x3F st₂ = .ok (b, st₃) ∧ n = .repeat_ st₂.flags mn mx (if st₃.swapGreed then b else !b) a) :
    st₁.i ≤ st₃.i ∧ ∃ q st₂', quantifier s' (st₁.forward d) = .ok (q, st₂') ∧ ((q = none ∧ n = a ∧ st₃.forward d = st₂') ∨
      ∃ mn mx b, q = some (mn, mx) ∧ eat s' 0x3F st₂' = .ok (b, st₃.forward d) ∧
        n = .repeat_ st₂'.flags mn mx (if (st₃.forward d).swapGreed then b else !b) a) := by
  have hle₂ : st₁.i ≤ st₂.i := (quantifier_carries hins).mono h2
  have hq := (quantifier_carries hins).after h2 hk
  rcases h3 with ⟨rfl, rfl, rfl⟩ | ⟨mn, mx, b, rfl, h4, rfl⟩
  · exact ⟨hle₂, none, _, hq, Or.inl ⟨rfl, rfl, rfl⟩⟩
  · have heat := Carries.eat hins (show ¬ blankByte 0x3F by decide)
    exact ⟨Nat.le_trans hle₂ (heat.mono h4), some (mn, mx), _, hq,
      Or.inr ⟨mn, mx, b, rfl, heat.after h4 (Nat.le_trans hk hle₂), rfl⟩⟩

theorem repeat_after {fuel : Nat} (h : AllAfter icu s s' k d fuel) :
    CarriesAfter k d (fuel + 1) (Parser.repeat icu s) (Parser.repeat icu s') := by
  intro st n st₃ hr hk
  obtain ⟨a, st₁, q, st₂, h1, h2, h3⟩ := repeat_ok.1 hr
  obtain ⟨hk₁, ha⟩ := h.atom h1 hk
  obtain ⟨hle₃, q', st₂', hq⟩ := quantified_after hins hk₁ h2 h3
  refine ⟨Nat.le_trans hk₁ hle₃, fun {fuel'} hlt => ?_⟩
  obtain ⟨g, rfl⟩ := Nat.exists_eq_add_one_of_ne_zero (Nat.ne_zero_of_lt hlt)
  exact repeat_ok.2 ⟨a, st₁.forward d, q', st₂', ha (Nat.lt_of_succ_lt_succ hlt), hq⟩

omit hins in
theorem Opening.fuel_lt (w : Opening) {f g : Nat} (h0 : 0 < f) (hlt : f < g) : w.fuel f < w.fuel g := by
  cases w with
  | plain => exact hlt
  | flagged opt ignoreWs swapGreed => exact hlt
  | look f behind negative => exact Nat.sub_lt_sub_right h0 hlt
  | group f g name => exact Nat.sub_lt_sub_right h0 hlt

omit hins in
/-- An atom is its opening and what follows; one that is no group needs one unit of fuel, and does the same with two. -/
theorem atom_runs {fuel : Nat} {st : PState} {r : RegexNode × PState} (hr : Parser.atom icu s fuel st = .ok r) :
    ∃ f < fuel, (piece icu s >>= closing icu s f) st = .ok r ∧ ∀ fuel', fuel < fuel' →
      ∃ g, fuel' = g + 2 ∧ ∀ w : Opening, w.fuel f = 0 ∨ w.fuel f < w.fuel g := by
  rcases fuel with _ | _ | f
  · cases hr
  · refine ⟨0, Nat.one_pos, by rw [← atom_eq]; exact atom_one hr, fun fuel' hlt => ⟨fuel' - 2, by omega, fun w => Or.inl ?_⟩⟩
    cases w <;> rfl
  · refine ⟨f, by omega, by rw [← atom_eq]; exact hr, fun fuel' hlt => ⟨fuel' - 2, by omega, fun w => ?_⟩⟩
    rcases Nat.eq_zero_or_pos f with rfl | hpos
    · left
      cases w <;> rfl
    · exact Or.inr (w.fuel_lt hpos (by omega))

theorem atom_after {fuel : Nat} (h : ∀ f < fuel, AllAfter icu s s' k d f) :
    CarriesAfter k d fuel (Parser.atom icu s) (Parser.atom icu s') := by
  intro st n st₁ hr hk
  obtain ⟨f, hf, hrun, hfuel⟩ := atom_runs hr
  obtain ⟨p, st₂, h1, h2⟩ := bind_runs hrun
  obtain ⟨hpiece, -⟩ := piece_carries icu hins
  have hk₂ : k ≤ st₂.i := Nat.le_trans hk (hpiece.mono h1)
  have hp := hpiece.after h1 hk
  cases p with
  | node n' =>
    cases h2
    refine ⟨hk₂, fun {fuel'} hlt => ?_⟩
    obtain ⟨g, rfl, -⟩ := hfuel fuel' hlt
    rw [atom_eq, bind_run hp]
    rfl
  | opens w =>
    obtain ⟨x, st₃, h3, h4⟩ := bind_runs h2
    obtain ⟨hend, -⟩ := (allScan _).alt h3
    obtain ⟨hk₃, hx⟩ := (h _ (Nat.lt_of_le_of_lt (w.fuel_le f) hf)).alt h3 hk₂
    obtain ⟨h5, rfl, rfl⟩ := Opening.close_ok.1 h4
    rw [settle_end hend] at h5 ⊢
    refine ⟨by rw [Opening.restore_i]; exact Nat.le_succ_of_le hk₃, fun {fuel'} hlt => ?_⟩
    obtain ⟨g, rfl, hg⟩ := hfuel fuel' hlt
    have halt : Parser.alt icu s' (w.fuel g) (st₂.forward d) = .ok (x, st₃.forward d) := by
      rcases hg w with h0 | hlt'
      · rw [h0] at h3
        cases h3
      · exact hx hlt'
    have hend' : s'[(st₃.forward d).i]? = none ∨ s'[(st₃.forward d).i]? = some 0x29 := by
      rw [PState.forward_i, hins.moved _ hk₃]
      exact hend
    rw [atom_eq, bind_run hp]
    refine (bind_run halt).trans (Opening.close_ok.2 ?_)
    rw [settle_end hend']
    refine ⟨(hins.moved _ hk₃).trans h5, ?_, rfl⟩
    rw [← PState.forward_comm, Opening.restore_forward w (st₃.forward 1)]

theorem allAfter (fuel : Nat) : AllAfter icu s s' k d fuel := by
  induction fuel using Nat.strongRecOn with
  | ind fuel ih =>
    cases fuel with
    | zero =>
      refine ⟨?_, ?_, ?_, ?_, ?_, ?_⟩
      all_goals
        intro st n st₁ h
        cases h
    | succ fuel =>
      have h := ih fuel (Nat.lt_succ_self fuel)
      exact ⟨alt_after h, altRest_after hins h, concat_after h, concatItems_after hins h, repeat_after hins h,
        atom_after hins ih⟩

end

/-! ## In front of the place -/

section
variable {icu : Icu} {s s' : Bytes} {opt : PatternOptions} {σ : Scan} {d : Nat}

/-- What the induction carries for one amount of fuel: begun in front of the place, where the machine comes by, a function
of the parser does the same with the blank text put in, as far as it does not end behind it. -/
structure AllBefore (icu : Icu) (s s' : Bytes) (opt : PatternOptions) (k d fuel : Nat) : Prop where
  alt : ∀ {n st st₁}, alt icu s fuel st = .ok (n, st₁) → st.i ≤ k →
    ∀ {K out}, Scans icu s false (scanBegin opt) ⟨st, K, .start, out⟩ →
      ∀ {fuel'}, fuel < fuel' → alt icu s' fuel' st = .ok (n, st₁.past k d)
  altRest : ∀ {xs st st₁}, altRest icu s fuel st = .ok (xs, st₁) → st.i < k → stopsConcat s st →
    ∀ {K m out}, Scans icu s false (scanBegin opt) ⟨st, K, m, out⟩ →
      ∀ {fuel'}, fuel < fuel' → altRest icu s' fuel' st = .ok (xs, st₁.past k d)
  concat : ∀ {n st st₁}, concat icu s fuel st = .ok (n, st₁) → st.i ≤ k →
    ∀ {K out}, Scans icu s false (scanBegin opt) ⟨st, K, .start, out⟩ →
      ∀ {fuel'}, fuel < fuel' → concat icu s' fuel' st = .ok (n, st₁.past k d)
  concatItems : ∀ {xs st st₁}, concatItems icu s fuel st = .ok (xs, st₁) → st.i ≤ k →
    ∀ {K m out}, Scans icu s false (scanBegin opt) ⟨st, K, m, out⟩ → Scan.ready s ⟨st, K, m, out⟩ →
      ∀ {fuel'}, fuel < fuel' → concatItems icu s' fuel' st = .ok (xs, st₁.past k d)
  «repeat» : ∀ {n st st₁}, «repeat» icu s fuel st = .ok (n, st₁) → st.i < k → ¬ stopsConcat s st →
    (∀ c, s[st.i]? = some c → ¬ ignorable st c) →
    ∀ {K m out}, Scans icu s false (scanBegin opt) ⟨st, K, m, out⟩ → Scan.ready s ⟨st, K, m, out⟩ →
      ∀ {fuel'}, fuel < fuel' → «repeat» icu s' fuel' st = .ok (n, st₁.upTo k d)
  atom : ∀ {n st st₁}, atom icu s fuel st = .ok (n, st₁) → st.i < k → ¬ stopsConcat s st →
    (∀ c, s[st.i]? = some c → ¬ ignorable st c) →
    ∀ {K m out}, Scans icu s false (scanBegin opt) ⟨st, K, m, out⟩ → Scan.ready s ⟨st, K, m, out⟩ →
      ∀ {fuel'}, fuel < fuel' → atom icu s' fuel' st = .ok (n, st₁.upTo k d)

theorem PState.past_flags (k d : Nat) (st : PState) : (st.past k d).flags = st.flags := by
  unfold past
  split <;> rfl

theorem PState.past_lt {k : Nat} (d : Nat) {st : PState} (h : st.i < k) : st.past k d = st := if_pos h

theorem PState.past_le {k : Nat} (d : Nat) {st : PState} (h : k ≤ st.i) : st.past k d = st.forward d :=
  if_neg (Nat.not_lt.2 h)

theorem PState.upTo_le {k : Nat} (d : Nat) {st : PState} (h : st.i ≤ k) : st.upTo k d = st := if_pos h

theorem PState.upTo_lt {k : Nat} (d : Nat) {st : PState} (h : k < st.i) : st.upTo k d = st.forward d :=
  if_neg (Nat.not_le.2 h)

variable (h : Place icu s s' opt σ d)
include h

theorem Place.altRest {fuel : Nat} (hb : AllBefore icu s s' opt σ.st.i d fuel) {xs : List RegexNode} {st st₁ : PState}
    (hr : Parser.altRest icu s fuel st = .ok (xs, st₁)) (hstop : stopsConcat s st) {K : List (Opening × Nat)} {m : Before}
    {out : List Ev} (ha : Scans icu s false (scanBegin opt) ⟨st, K, m, out⟩) {fuel' : Nat} (hlt : fuel < fuel') :
    Parser.altRest icu s' fuel' (st.past σ.st.i d) = .ok (xs, st₁.past σ.st.i d) := by
  rcases Nat.lt_or_ge st.i σ.st.i with hi | hi
  · rw [PState.past_lt d hi]
    exact hb.altRest hr hi hstop ha hlt
  · obtain ⟨hk, hx⟩ := (allAfter h.inserted fuel).altRest hr hi
    rw [PState.past_le d hi, PState.past_le d hk]
    exact hx hlt

theorem alt_before {fuel : Nat} (hb : AllBefore icu s s' opt σ.st.i d fuel) {n : RegexNode} {st st₁ : PState}
    (hr : Parser.alt icu s (fuel + 1) st = .ok (n, st₁)) (hk : st.i ≤ σ.st.i) {K : List (Opening × Nat)} {out : List Ev}
    (ha : Scans icu s false (scanBegin opt) ⟨st, K, .start, out⟩) {fuel' : Nat} (hlt : fuel + 1 < fuel') :
    Parser.alt icu s' fuel' st = .ok (n, st₁.past σ.st.i d) := by
  obtain ⟨x, st₂, xs, h1, h2, rfl⟩ := alt_ok.1 hr
  obtain ⟨g, rfl⟩ := Nat.exists_eq_add_one_of_ne_zero (Nat.ne_zero_of_lt hlt)
  have hg : fuel < g := Nat.lt_of_succ_lt_succ hlt
  obtain ⟨hstop, hx⟩ := (allScan fuel).concat h1
  obtain ⟨m, hm⟩ := hx K out
  refine alt_ok.2 ⟨x, st₂.past σ.st.i d, xs, hb.concat h1 hk ha hg, h.altRest hb h2 hstop (ha.trans hm) hg, ?_⟩
  rw [PState.past_flags]

theorem altRest_before {fuel : Nat} (hb : AllBefore icu s s' opt σ.st.i d fuel) {xs : List RegexNode} {st st₁ : PState}
    (hr : Parser.altRest icu s (fuel + 1) st = .ok (xs, st₁)) (hk : st.i < σ.st.i) {K : List (Opening × Nat)} {m : Before}
    {out : List Ev} (ha : Scans icu s false (scanBegin opt) ⟨st, K, m, out⟩) {fuel' : Nat} (hlt : fuel + 1 < fuel') :
    Parser.altRest icu s' fuel' st = .ok (xs, st₁.past σ.st.i d) := by
  obtain ⟨g, rfl⟩ := Nat.exists_eq_add_one_of_ne_zero (Nat.ne_zero_of_lt hlt)
  have hg : fuel < g := Nat.lt_of_succ_lt_succ hlt
  have hbyte := h.inserted.same _ hk
  rcases altRest_ok.1 hr with ⟨hne, rfl, rfl⟩ | ⟨hbar, x, st₂, ys, h1, h2, rfl⟩
  · exact altRest_ok.2 (Or.inl ⟨by rw [hbyte]; exact hne, rfl, PState.past_lt d hk⟩)
  · have hbarred := ha.tail (token_bar hbar)
    obtain ⟨hstop, hx⟩ := (allScan fuel).concat h1
    obtain ⟨m', hm'⟩ := hx K (.bar :: out)
    exact altRest_ok.2 (Or.inr ⟨hbyte.trans hbar, x, st₂.past σ.st.i d, ys, hb.concat h1 hk hbarred hg,
      h.altRest hb h2 hstop (hbarred.trans hm') hg, rfl⟩)

omit h in
theorem concat_before {k fuel : Nat} (hb : AllBefore icu s s' opt k d fuel) {n : RegexNode} {st st₁ : PState}
    (hr : Parser.concat icu s (fuel + 1) st = .ok (n, st₁)) (hk : st.i ≤ k) {K : List (Opening × Nat)} {out : List Ev}
    (ha : Scans icu s false (scanBegin opt) ⟨st, K, .start, out⟩) {fuel' : Nat} (hlt : fuel + 1 < fuel') :
    Parser.concat icu s' fuel' st = .ok (n, st₁.past k d) := by
  obtain ⟨xs, h1, rfl⟩ := concat_ok.1 hr
  obtain ⟨g, rfl⟩ := Nat.exists_eq_add_one_of_ne_zero (Nat.ne_zero_of_lt hlt)
  refine concat_ok.2 ⟨xs, hb.concatItems h1 hk ha Scan.ready_start (Nat.lt_of_succ_lt_succ hlt), ?_⟩
  rw [PState.past_flags]

theorem concatItems_before {fuel : Nat} (hb : AllBefore icu s s' opt σ.st.i d fuel) {xs : List RegexNode} {st st₁ : PState}
    (hr : Parser.concatItems icu s (fuel + 1) st = .ok (xs, st₁)) (hk : st.i ≤ σ.st.i) {K : List (Opening × Nat)}
    {m : Before} {out : List Ev} (ha : Scans icu s false (scanBegin opt) ⟨st, K, m, out⟩)
    (hready : Scan.ready s ⟨st, K, m, out⟩) {fuel' : Nat} (hlt : fuel + 1 < fuel') :
    Parser.concatItems icu s' fuel' st = .ok (xs, st₁.past σ.st.i d) := by
  obtain ⟨g, rfl⟩ := Nat.exists_eq_add_one_of_ne_zero (Nat.ne_zero_of_lt hlt)
  have hg : fuel < g := Nat.lt_of_succ_lt_succ hlt
  obtain ⟨m₁, hs₁, hr₁, hi₁⟩ := ready_skipped icu hready
  have ha₁ := ha.trans hs₁
  have hskip := h.skipped ha hk
  rcases Nat.lt_or_ge (skipped s st).i σ.st.i with hi | hi
  · -- what is skipped ends in front of the place
    rw [PState.past_lt d hi] at hskip
    have hstops : stopsConcat s' (skipped s st) ↔ stopsConcat s (skipped s st) := by
      unfold stopsConcat
      rw [h.inserted.same _ hi]
    rcases concatItems_ok.1 hr with ⟨hstop, rfl, rfl⟩ | ⟨hstop, x, st₂, ys, h1, h2, rfl⟩
    · refine concatItems_ok.2 (Or.inl ⟨by rw [hskip, hstops]; exact hstop, rfl, ?_⟩)
      rw [hskip, PState.past_lt d hi]
    · obtain ⟨m₂, hs₂, hr₂⟩ := (allScan fuel).repeat h1 hstop hi₁ K m₁ out hr₁
      have hx := hb.repeat h1 hi hstop hi₁ ha₁ hr₁ hg
      refine concatItems_ok.2 (Or.inr ⟨by rw [hskip, hstops]; exact hstop, x, st₂.upTo σ.st.i d, ys, by rw [hskip]; exact hx,
        ?_, rfl⟩)
      rcases Nat.lt_or_ge σ.st.i st₂.i with hi₂ | hi₂
      · obtain ⟨hk₁, hys⟩ := (allAfter h.inserted fuel).concatItems h2 (Nat.le_of_lt hi₂)
        rw [PState.upTo_lt d hi₂, PState.past_le d hk₁]
        exact hys hg
      · rw [PState.upTo_le d hi₂]
        exact hb.concatItems h2 hi₂ (ha₁.trans hs₂) hr₂ hg
  · -- the blank text is skipped with it
    rw [PState.past_le d hi] at hskip
    have hstops := h.inserted.stops hi
    rcases concatItems_ok.1 hr with ⟨hstop, rfl, rfl⟩ | ⟨hstop, x, st₂, ys, h1, h2, rfl⟩
    · refine concatItems_ok.2 (Or.inl ⟨by rw [hskip, hstops]; exact hstop, rfl, ?_⟩)
      rw [hskip, PState.past_le d hi]
    · obtain ⟨hk₂, hx⟩ := (allAfter h.inserted fuel).repeat h1 hi
      obtain ⟨hk₁, hys⟩ := (allAfter h.inserted fuel).concatItems h2 hk₂
      refine concatItems_ok.2 (Or.inr ⟨by rw [hskip, hstops]; exact hstop, x, st₂.forward d, ys, by rw [hskip]; exact hx hg,
        ?_, rfl⟩)
      rw [PState.past_le d hk₁]
      exact hys hg

/-- A byte that opens a quantifier directly after an expression is not at the place, nor is a laziness mark at it. -/
theorem Place.lt_of_unready (hready : σ.ready s) {a : Scan} (ha : Scans icu s false (scanBegin opt) a)
    (hle : a.st.i ≤ σ.st.i) (hun : ¬ a.ready s) : a.st.i < σ.st.i := by
  rcases Nat.lt_or_eq_of_le hle with hlt | heq
  · exact hlt
  · rw [h.unique ha heq] at hun
    exact absurd hready hun

theorem repeat_before (hready : σ.ready s) {fuel : Nat} (hb : AllBefore icu s s' opt σ.st.i d fuel) {n : RegexNode}
    {st st₃ : PState} (hr : Parser.repeat icu s (fuel + 1) st = .ok (n, st₃)) (hk : st.i < σ.st.i)
    (hstop : ¬ stopsConcat s st) (hi : ∀ c, s[st.i]? = some c → ¬ ignorable st c) {K : List (Opening × Nat)} {m : Before}
    {out : List Ev} (ha : Scans icu s false (scanBegin opt) ⟨st, K, m, out⟩) (hr₀ : Scan.ready s ⟨st, K, m, out⟩)
    {fuel' : Nat} (hlt : fuel + 1 < fuel') : Parser.repeat icu s' fuel' st = .ok (n, st₃.upTo σ.st.i d) := by
  obtain ⟨a, st₁, q, st₂, h1, h2, h3⟩ := repeat_ok.1 hr
  obtain ⟨g, rfl⟩ := Nat.exists_eq_add_one_of_ne_zero (Nat.ne_zero_of_lt hlt)
  have hatom := hb.atom h1 hk hstop hi ha hr₀ (Nat.lt_of_succ_lt_succ hlt)
  rcases Nat.lt_or_ge σ.st.i st₁.i with hi₁ | hi₁
  · -- the place is inside the atom, and what follows is behind it
    rw [PState.upTo_lt d hi₁] at hatom
    obtain ⟨hle₃, q', st₂', hq⟩ := quantified_after h.inserted (Nat.le_of_lt hi₁) h2 h3
    rw [PState.upTo_lt d (Nat.lt_of_lt_of_le hi₁ hle₃)]
    exact repeat_ok.2 ⟨a, st₁.forward d, q', st₂', hatom, hq⟩
  rw [PState.upTo_le d hi₁] at hatom
  have ha₁ := ha.trans ((allScan fuel).atom h1 hstop hi K m out hr₀)
  rcases h3 with ⟨rfl, rfl, rfl⟩ | ⟨mn, mx, b, rfl, h4, rfl⟩
  · obtain ⟨rfl, hno⟩ := quantifier_ok_none h2
    refine repeat_ok.2 ⟨_, _, none, _, hatom, quantifier_none (fun c hc => ?_), Or.inl ⟨rfl, rfl, PState.upTo_le d hi₁⟩⟩
    rcases Nat.lt_or_eq_of_le hi₁ with hlt₁ | heq
    · exact hno c ((h.inserted.same _ hlt₁).symm.trans hc)
    · -- the blank byte opens none
      by_contra ho
      rw [heq] at hc
      refine h.inserted.ne (c := c) ?_ hc
      rcases opensQuantifier_cases ((Bool.not_eq_false _).mp ho) with rfl | rfl | rfl | rfl
      all_goals decide
  · obtain ⟨c, hc, ho⟩ := quantifier_ok_some h2
    have hlt₁ := h.lt_of_unready hready ha₁ hi₁ (fun hr₁ => by
      rw [(hr₁ c hc).1 _ rfl] at ho
      cases ho)
    obtain ⟨hic, hsc⟩ := opensQuantifier_plain hc ho
    have htok : Scan.token icu s false ⟨st₁, K, .expr a.events.length, a.events ++ out⟩ =
        some ⟨st₂, K, .quantified (a.events.length + 1) true,
          .rep mn mx a.events.length (!st₂.swapGreed) :: (a.events ++ out)⟩ := by
      rw [Scan.token_eq hc hic hsc]
      unfold Scan.item
      dsimp only
      rw [if_pos ho]
      exact quantify_ok h2
    have hle₂ : st₂.i ≤ σ.st.i := h.next ha₁ hlt₁ htok
    have hle₃ : st₃.i ≤ σ.st.i := by
      rcases eat_ok.1 h4 with ⟨hm, rfl, rfl⟩ | ⟨hm, rfl, rfl⟩
      · exact h.lt_of_unready hready (ha₁.tail htok) hle₂ (fun hr₂ => (hr₂ _ hm).2 _ rfl rfl)
      · exact hle₂
    rw [PState.upTo_le d hle₃]
    exact repeat_ok.2 ⟨a, st₁, some (mn, mx), st₂, hatom, (quantifier_carries h.inserted).before h2 hle₂,
      Or.inr ⟨mn, mx, b, rfl, (Carries.eat h.inserted (by decide)).before h4 hle₃, rfl⟩⟩

theorem atom_before {fuel : Nat} (hb : ∀ f < fuel, AllBefore icu s s' opt σ.st.i d f) {n : RegexNode} {st st₁ : PState}
    (hr : Parser.atom icu s fuel st = .ok (n, st₁)) (hk : st.i < σ.st.i) (hstop : ¬ stopsConcat s st)
    (hi : ∀ c, s[st.i]? = some c → ¬ ignorable st c) {K : List (Opening × Nat)} {m : Before} {out : List Ev}
    (ha : Scans icu s false (scanBegin opt) ⟨st, K, m, out⟩) (hready : Scan.ready s ⟨st, K, m, out⟩) {fuel' : Nat}
    (hlt : fuel < fuel') : Parser.atom icu s' fuel' st = .ok (n, st₁.upTo σ.st.i d) := by
  obtain ⟨f, hf, hrun, hfuel⟩ := atom_runs hr
  obtain ⟨g, rfl, hg⟩ := hfuel fuel' hlt
  obtain ⟨p, st₂, h1, h2⟩ := bind_runs hrun
  obtain ⟨c, hc⟩ : ∃ c, s[st.i]? = some c := ⟨_, List.getElem?_eq_getElem (Nat.lt_trans hk h.inserted.lt)⟩
  have htok : Scan.token icu s false ⟨st, K, m, out⟩ = Scan.atom icu s ⟨st, K, m, out⟩ :=
    Scan.token_atom hc (hi c hc) hstop hready
  unfold Scan.atom at htok
  rw [h1] at htok
  cases p with
  | node n' =>
    cases h2
    have hle₁ : st₁.i ≤ σ.st.i := h.next ha hk htok
    rw [atom_eq, bind_run ((piece_carries icu h.inserted).1.before h1 hle₁), PState.upTo_le d hle₁]
    rfl
  | opens w =>
    obtain ⟨x, st₃, h3, h4⟩ := bind_runs h2
    obtain ⟨hend, -⟩ := (allScan _).alt h3
    obtain ⟨h5, rfl, rfl⟩ := Opening.close_ok.1 h4
    rw [settle_end hend] at h5 ⊢
    have hle₂ : st₂.i ≤ σ.st.i := h.next ha hk htok
    have halt : Parser.alt icu s' (w.fuel g) st₂ = .ok (x, st₃.past σ.st.i d) := by
      rcases hg w with h0 | hlt'
      · rw [h0] at h3
        cases h3
      · exact (hb _ (Nat.lt_of_le_of_lt (w.fuel_le f) hf)).alt h3 hle₂ (ha.tail htok) hlt'
    rw [atom_eq, bind_run ((piece_carries icu h.inserted).1.before h1 hle₂)]
    refine (bind_run halt).trans (Opening.close_ok.2 ?_)
    rcases Nat.lt_or_ge st₃.i σ.st.i with hi₃ | hi₃
    · have hbyte := h.inserted.same _ hi₃
      rw [PState.past_lt d hi₃, settle_end (by rw [hbyte]; exact hend), hbyte]
      exact ⟨h5, PState.upTo_le d (by rw [Opening.restore_i]; exact hi₃), rfl⟩
    · have hbyte : s'[(st₃.forward d).i]? = s[st₃.i]? := h.inserted.moved _ hi₃
      rw [PState.past_le d hi₃, settle_end (by rw [hbyte]; exact hend), hbyte]
      refine ⟨h5, ?_, rfl⟩
      rw [PState.upTo_lt d (by rw [Opening.restore_i]; exact Nat.lt_succ_of_le hi₃), ← PState.forward_comm,
        Opening.restore_forward w (st₃.forward 1)]

theorem allBefore (hready : σ.ready s) (fuel : Nat) : AllBefore icu s s' opt σ.st.i d fuel := by
  induction fuel using Nat.strongRecOn with
  | ind fuel ih =>
    cases fuel with
    | zero =>
      refine ⟨?_, ?_, ?_, ?_, ?_, ?_⟩
      all_goals
        intro n st st₁ h
        cases h
    | succ fuel =>
      have hb := ih fuel (Nat.lt_succ_self fuel)
      exact ⟨alt_before h hb, fun hr hk _ _ _ _ ha _ hlt => altRest_before h hb hr hk ha hlt, concat_before hb,
        concatItems_before h hb, repeat_before h hready hb, atom_before h ih⟩

/-- **Blank text put in where the parser skips it leaves the tree as it is.** -/
theorem parse_carries (hready : σ.ready s) {r : Parsed} (hr : parse icu s opt = .ok r) : parse icu s' opt = .ok r := by
  unfold parse at hr ⊢
  obtain ⟨⟨n, st⟩, h1, h2⟩ := Throw.bind_ok hr
  dsimp only at h2
  split at h2
  · cases h2
  · rename_i hend
    cases h2
    have hend := Classical.not_not.1 hend
    have hlt := h.inserted.lt
    have hpos := h.pos
    have hfuel : parseFuel s.length < parseFuel s'.length := by
      rw [h.inserted.length]
      unfold parseFuel
      omega
    have halt := (allBefore h hready _).alt h1 (Nat.zero_le _) .refl hfuel
    rw [PState.past_le d (by omega)] at halt
    change (Parser.alt icu s' _ _ >>= _) = _
    rw [halt]
    refine (if_neg ?_).trans rfl
    rw [Classical.not_not, PState.forward_i, hend, h.inserted.length]

/-! ## Where the blank text is not skipped -/

theorem Place.quantify {a b : Scan} {size : Nat} (ht : a.quantify s size = some b) (hle : b.st.i ≤ σ.st.i) :
    a.quantify s' size = some b := by
  unfold Scan.quantify at ht
  split at ht
  · rename_i mn mx st hq
    cases ht
    exact quantify_ok ((quantifier_carries h.inserted).before hq hle)
  · cases ht

theorem Place.atom {a b : Scan} (ht : a.atom icu s = some b) (hle : b.st.i ≤ σ.st.i) : a.atom icu s' = some b := by
  unfold Scan.atom at ht ⊢
  split at ht
  all_goals
    rename_i hp
    cases ht
  all_goals rw [(piece_carries icu h.inserted).1.before hp hle]

theorem Place.item {a b : Scan} {c : UInt8} (ht : a.item icu s false c = some b) (hle : b.st.i ≤ σ.st.i) :
    a.item icu s' false c = some b := by
  unfold Scan.item at ht ⊢
  cases hb : a.before with
  | start =>
    rw [hb] at ht
    dsimp only at ht ⊢
    rw [if_neg (fun h => Bool.false_ne_true h.1)] at ht ⊢
    exact h.atom ht hle
  | expr n =>
    rw [hb] at ht
    dsimp only at ht ⊢
    split at ht
    · rename_i ho
      rw [if_pos ho]
      exact h.quantify ht hle
    · rename_i ho
      rw [if_neg ho]
      exact h.atom ht hle
  | quantified n fresh =>
    rw [hb] at ht
    dsimp only at ht ⊢
    split at ht
    · rename_i hf
      rw [if_pos hf]
      exact ht
    · rename_i hf
      rw [if_neg hf]
      rw [if_neg (fun h => Bool.false_ne_true h.1)] at ht ⊢
      exact h.atom ht hle

theorem Place.token {a b : Scan} (ht : a.token icu s false = some b) (hle : b.st.i ≤ σ.st.i) :
    a.token icu s' false = some b := by
  have hlt := Nat.lt_of_lt_of_le (token_lt ht) hle
  unfold Scan.token at ht ⊢
  rw [h.inserted.same _ hlt]
  cases hc : s[a.st.i]? with
  | none =>
    rw [hc] at ht
    cases ht
  | some c =>
    rw [hc] at ht
    dsimp only at ht ⊢
    by_cases hsp : a.st.ignoreWs = true ∧ isSpaceByte c = true
    · rw [if_pos hsp] at ht ⊢
      exact ht
    rw [if_neg hsp] at ht ⊢
    by_cases hcom : a.st.ignoreWs = true ∧ c = 0x23
    · rw [if_pos hcom] at ht ⊢
      cases ht
      have hk := h.inserted.lt
      change a.st.i + (1 + commentLength (s.drop (a.st.i + 1))) ≤ σ.st.i at hle
      rw [commentLength_ahead (m := σ.st.i - (a.st.i + 1)) (by omega) (by rw [List.length_drop]; omega)
        (h.inserted.take hlt)]
    rw [if_neg hcom] at ht ⊢
    by_cases h29 : c = 0x29
    · rw [if_pos h29] at ht ⊢
      exact ht
    rw [if_neg h29] at ht ⊢
    by_cases h7C : c = 0x7C
    · rw [if_pos h7C] at ht ⊢
      exact ht
    rw [if_neg h7C] at ht ⊢
    exact h.item ht hle

theorem Place.reached' : Scans icu s' false (scanBegin opt) σ := by
  have hall : ∀ {a : Scan}, Scans icu s false (scanBegin opt) a → a.st.i ≤ σ.st.i → Scans icu s' false (scanBegin opt) a := by
    intro a ha
    induction ha with
    | refl => exact fun _ => .refl
    | tail _ ht ih => exact fun hle => (ih (Nat.le_trans (Nat.le_of_lt (token_lt ht)) hle)).tail (h.token ht hle)
  exact hall h.reached (Nat.le_refl _)

theorem Place.behind {c : UInt8} (hc : s[σ.st.i]? = some c) (ho : opensQuantifier c = true) :
    Scans icu s' false (scanBegin opt) ⟨σ.st.forward d, σ.open_, .start, σ.out⟩ := by
  obtain ⟨m', h1, h2, -⟩ := scans_skipped icu s' false σ.open_ σ.out σ.st σ.before
  have hskip : Parser.skipped s' σ.st = σ.st.forward d := by
    rw [h.skipped h.reached (Nat.le_refl _), skipped_plain hc (opensQuantifier_plain hc ho).1, PState.past_le d (Nat.le_refl _)]
  rw [hskip] at h1 h2
  rcases h2 with ⟨-, heq⟩ | rfl
  · have hi := congrArg PState.i heq
    have hpos := h.pos
    rw [PState.forward_i] at hi
    omega
  · exact h.reached'.trans h1

end

/-! ## What is said for good -/

section
variable {icu : Icu} {s : Bytes}

def Scan.settled (σ : Scan) : List Ev :=
  match σ.before with
  | .quantified _ true => σ.out.tail
  | _ => σ.out

theorem Scan.settled_suffix (σ : Scan) : σ.settled <:+ σ.out := by
  unfold settled
  split
  · exact List.tail_suffix _
  · exact List.suffix_refl _

theorem settled_token {nests : Bool} {σ τ : Scan} (h : σ.token icu s nests = some τ) : σ.settled <:+ τ.settled := by
  have hout : ∀ (τ : Scan) (es : List Ev), τ.out = es ++ σ.out → τ.settled = τ.out → σ.settled <:+ τ.settled := by
    intro τ es he hs
    rw [hs, he]
    exact σ.settled_suffix.trans (List.suffix_append _ _)
  cases Scan.step_of_token h with
  | ignored c k hc hi hk => exact hout _ [] rfl rfl
  | close τ hc hcl =>
    unfold Scan.close at hcl
    split at hcl
    · cases hcl
    · cases hcl
      exact hout _ _ rfl rfl
  | bar hc => exact hout _ [.bar] rfl rfl
  | quantify size mn mx st hb hq => exact σ.settled_suffix
  | mark size hb hc =>
    unfold Scan.settled Scan.mark
    rw [hb]
    dsimp only
    split
    · rename_i ho
      rw [ho]
      exact List.suffix_cons _ _
    · exact List.tail_suffix _
  | node n st hs hp => exact hout _ n.events rfl rfl
  | opens w st hs hp => exact hout _ [] rfl rfl

theorem settled_scans {nests : Bool} {σ τ : Scan} (h : Scans icu s nests σ τ) : σ.settled <:+ τ.settled := by
  induction h with
  | refl => exact List.suffix_refl _
  | tail _ hbc ih => exact ih.trans (settled_token hbc)

theorem fresh_rep {opt : PatternOptions} {σ : Scan} (h : Scans icu s false (scanBegin opt) σ) {n : Nat}
    (hb : σ.before = .quantified n true) : ∃ mn mx size greedy out, σ.out = .rep mn mx size greedy :: out := by
  cases h with
  | refl => cases hb
  | tail _ ht =>
    cases Scan.step_of_token ht with
    | close τ hc hcl =>
      unfold Scan.close at hcl
      split at hcl
      · cases hcl
      · cases hcl
        cases hb
    | quantify size mn mx st hb' hq => exact ⟨mn, mx, size, _, _, rfl⟩
    | ignored c k hc hi hk => cases hb
    | bar hc => cases hb
    | mark size hb' hc => cases hb
    | node n st hs hp => cases hb
    | opens w st hs hp => cases hb

end

/-! ## The theorem -/

theorem said_from {icu : Icu} {s : Bytes} {opt : PatternOptions} {a : Scan} {r : Parsed} (hr : parse icu s opt = .ok r)
    (ha : Scans icu s false (scanBegin opt) a) {c : UInt8} (hc : s[a.st.i]? = some c) :
    ∃ ρ τ, a.token icu s false = some ρ ∧ Scans icu s false ρ τ ∧ τ.out = r.ast.events := by
  obtain ⟨τ, hτ, hend, -, hout⟩ := parse_scans hr
  have hlt : a.st.i < s.length := (List.getElem?_eq_some_iff.1 hc).1
  obtain ⟨ρ, h1, h2⟩ := scans_head (scans_to_end ha hτ hend) (by omega)
  exact ⟨ρ, τ, h1, h2, hout⟩

section
variable {icu : Icu} {s s' : Bytes} {opt : PatternOptions} {σ : Scan} {d : Nat} (h : Place icu s s' opt σ d)
include h

theorem quantifier_apart {r r' : Parsed} (hr : parse icu s opt = .ok r) (hr' : parse icu s' opt = .ok r') {c : UInt8}
    (hc : s[σ.st.i]? = some c) {n : Nat} (hb : σ.before = .expr n) (ho : opensQuantifier c = true) : r'.ast ≠ r.ast := by
  have hc' : s'[(σ.st.forward d).i]? = some c := (h.inserted.moved _ (Nat.le_refl _)).trans hc
  obtain ⟨ρ, τ, h1, h2, hout⟩ := said_from hr h.reached hc
  obtain ⟨ρ', τ', h1', h2', hout'⟩ := said_from hr' (h.behind hc ho) hc'
  have hrep : (true :: σ.shape) <:+ ρ.shape := by
    obtain ⟨hi, hs⟩ := opensQuantifier_plain hc ho
    rw [Scan.token_eq hc hi hs] at h1
    unfold Scan.item at h1
    rw [hb] at h1
    dsimp only at h1
    rw [if_pos ho] at h1
    unfold Scan.quantify at h1
    split at h1
    · cases h1
      exact List.suffix_refl _
    · cases h1
  have htext := ready_text hc' ho Scan.ready_start h1'
  have hne := shape_apart (hrep.trans (shape_scans h2)) (htext.trans (shape_scans h2'))
  intro hast
  rw [hout, hout', hast] at hne
  exact hne rfl

theorem mark_apart {r r' : Parsed} (hr : parse icu s opt = .ok r) (hr' : parse icu s' opt = .ok r')
    (hc : s[σ.st.i]? = some 0x3F) {n : Nat} (hb : σ.before = .quantified n true) : r'.ast ≠ r.ast := by
  have hc' : s'[(σ.st.forward d).i]? = some 0x3F := (h.inserted.moved _ (Nat.le_refl _)).trans hc
  obtain ⟨ρ, τ, h1, h2, hout⟩ := said_from hr h.reached hc
  have hbehind := h.behind hc rfl
  obtain ⟨ρ', τ', h1', h2', hout'⟩ := said_from hr' hbehind hc'
  obtain ⟨mn, mx, size, greedy, out, hrep⟩ := fresh_rep h.reached hb
  -- with the blank text the repetition stays as it was said, without it it was turned
  have hturned : (.rep mn mx size (!greedy) :: out : List Ev) <:+ τ.out := by
    obtain ⟨hi, hs⟩ := opensQuantifier_plain hc rfl
    rw [Scan.token_eq hc hi hs] at h1
    unfold Scan.item at h1
    rw [hb] at h1
    dsimp only at h1
    rw [if_pos ⟨rfl, rfl⟩] at h1
    cases h1
    have hmark := (settled_scans h2).trans τ.settled_suffix
    unfold Scan.settled Scan.mark at hmark
    rw [hrep] at hmark
    exact hmark
  have hstays : (.rep mn mx size greedy :: out : List Ev) <:+ τ'.out := by
    rw [← hrep]
    exact (settled_token h1').trans ((settled_scans h2').trans τ'.settled_suffix)
  intro hast
  rw [hout, ← hast, ← hout'] at hturned
  have heq := (List.suffix_of_suffix_length_le hturned hstays (Nat.le_refl _)).eq_of_length rfl
  have hg := (Ev.rep.inj (List.cons.inj heq).1).2.2.2
  cases greedy <;> cases hg

end

/-- **What white space and comments change.**  In a pattern that is accepted, blank text put in between two tokens where
white space is ignored leaves the tree as it is, just when the next token is neither a quantifier of the expression directly
before it nor the laziness mark of the quantifier directly before it. -/
theorem parse_blank_iff {icu : Icu} {p w t : Bytes} {opt : PatternOptions} {r : Parsed} (hr : parse icu (p ++ t) opt = .ok r)
    {σ : Scan} (hσ : Scans icu (p ++ t) false (scanBegin opt) σ) (hi : σ.st.i = p.length) (hws : σ.st.ignoreWs = true)
    (ht : t ≠ []) (hw : Blank w) (hne : w ≠ []) :
    (∃ r', parse icu (p ++ w ++ t) opt = .ok r' ∧ r'.ast = r.ast) ↔ σ.ready (p ++ t) := by
  have h := Place.of_blank hσ hi hws ht hw hne
  refine ⟨fun ⟨r', hr', hast⟩ => ?_, fun hready => ⟨r, parse_carries h hready hr, rfl⟩⟩
  intro c hc
  refine ⟨fun n hb => ?_, fun n hb hmark => ?_⟩
  · by_contra ho
    exact quantifier_apart h hr hr' hc hb ((Bool.not_eq_false _).mp ho) hast
  · rw [hmark] at hc
    exact mark_apart h hr hr' hc hb hast

/-- ` #x` and a line feed between the letters of `(?x)ab` -/
theorem parse_blank_iff_letters : ∃ r, parse asciiIcu ([0x28, 0x3F, 0x78, 0x29, 0x61] ++ [0x62]) {} = .ok r ∧
    ((∃ r', parse asciiIcu ([0x28, 0x3F, 0x78, 0x29, 0x61] ++ [0x20, 0x23, 0x78, 0x0A] ++ [0x62]) {} = .ok r' ∧
      r'.ast = r.ast) ↔ Scan.ready ([0x28, 0x3F, 0x78, 0x29, 0x61] ++ [0x62])
        ⟨{ i := 5, opt := {}, ignoreWs := true }, [], .expr 1, [.lit 0x61]⟩) := by
  obtain ⟨r, hr, -⟩ := Throw.returns_iff.1 (show Throw.returns
    (parse asciiIcu ([0x28, 0x3F, 0x78, 0x29, 0x61] ++ [0x62]) {}) (fun _ => true) = true by decide +kernel)
  have h1 : (scanBegin {}).token asciiIcu ([0x28, 0x3F, 0x78, 0x29, 0x61] ++ [0x62]) false =
      some ⟨{ i := 4, opt := {}, ignoreWs := true }, [], .expr 0, []⟩ := rfl
  have h2 : Scan.token asciiIcu ([0x28, 0x3F, 0x78, 0x29, 0x61] ++ [0x62]) false
      ⟨{ i := 4, opt := {}, ignoreWs := true }, [], .expr 0, []⟩ =
        some ⟨{ i := 5, opt := {}, ignoreWs := true }, [], .expr 1, [.lit 0x61]⟩ := rfl
  refine ⟨r, hr, parse_blank_iff hr (.tail (.single h1) h2) rfl rfl (List.cons_ne_nil _ _) ?_ (List.cons_ne_nil _ _)⟩
  exact .space rfl (.comment (c := [0x78]) (List.forall_mem_singleton.2 (by decide)) .nil)

/-- The star of `(?x)a *` is text. -/
theorem parse_blank_star : ∃ r σ, parse asciiIcu ([0x28, 0x3F, 0x78, 0x29, 0x61] ++ [0x2A]) {} = .ok r ∧
    Scans asciiIcu ([0x28, 0x3F, 0x78, 0x29, 0x61] ++ [0x2A]) false (scanBegin {}) σ ∧ σ.st.i = 5 ∧ σ.st.ignoreWs = true ∧
    Blank [0x20] ∧
    ¬ ∃ r', parse asciiIcu ([0x28, 0x3F, 0x78, 0x29, 0x61] ++ [0x20] ++ [0x2A]) {} = .ok r' ∧ r'.ast = r.ast := by
  obtain ⟨r, hr, he⟩ := Throw.returns_iff.1 (show Throw.returns
    (parse asciiIcu ([0x28, 0x3F, 0x78, 0x29, 0x61] ++ [0x2A]) {})
      (fun r => decide (r.ast.events = [.rep 0 sizeMax 1 true, .lit 0x61])) = true by decide +kernel)
  obtain ⟨r', hr', he'⟩ := Throw.returns_iff.1 (show Throw.returns
    (parse asciiIcu ([0x28, 0x3F, 0x78, 0x29, 0x61] ++ [0x20] ++ [0x2A]) {})
      (fun r => decide (r.ast.events = [.lit 0x2A, .lit 0x61])) = true by decide +kernel)
  have h1 : (scanBegin {}).token asciiIcu ([0x28, 0x3F, 0x78, 0x29, 0x61] ++ [0x2A]) false =
      some ⟨{ i := 4, opt := {}, ignoreWs := true }, [], .expr 0, []⟩ := rfl
  have h2 : Scan.token asciiIcu ([0x28, 0x3F, 0x78, 0x29, 0x61] ++ [0x2A]) false
      ⟨{ i := 4, opt := {}, ignoreWs := true }, [], .expr 0, []⟩ =
        some ⟨{ i := 5, opt := {}, ignoreWs := true }, [], .expr 1, [.lit 0x61]⟩ := rfl
  refine ⟨r, _, hr, .tail (.single h1) h2, rfl, rfl, .space rfl .nil, ?_⟩
  rintro ⟨r'', hr'', hast⟩
  cases hr'.symm.trans hr''
  rw [hast, of_decide_eq_true he] at he'
  cases of_decide_eq_true he'

end Parser
end Pergrep
