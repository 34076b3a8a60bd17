import Pergrep.Regex.Tokens
/-!
# TokensSpec — the parser reads the pattern the machine's way

Whatever a function of the parser reads and turns into a tree, the machine reads token by token, with the groups around it
untouched, and says what the tree says (`AllScan`).  The induction is on the fuel.
-/
namespace Pergrep
namespace Parser

open RegexNode (eventsAll eventsBars)

variable {icu : Icu} {s : Bytes}

/-! ## What is skipped -/

theorem ignoredPrefix_comment : ∀ t : Bytes,
    ignoredPrefix t true = commentLength t + ignoredPrefix (t.drop (commentLength t)) false
  | [] => rfl
  | b :: t => by
    rw [ignoredPrefix, commentLength]
    split
    · rfl
    · rw [Nat.add_comm 1 (commentLength t), List.drop_succ_cons, ignoredPrefix_comment t]
      omega

theorem drop_cons {st : PState} {c : UInt8} (h : s[st.i]? = some c) : s.drop st.i = c :: s.drop (st.i + 1) := by
  obtain ⟨hlt, rfl⟩ := List.getElem?_eq_some_iff.1 h
  exact List.drop_eq_getElem_cons hlt

theorem skipped_none {st : PState} (h : s[st.i]? = none) : skipped s st = st := by
  unfold skipped
  split
  · rw [List.drop_eq_nil_of_le (List.getElem?_eq_none_iff.1 h)]
    rfl
  · rfl

theorem skipped_plain {st : PState} {c : UInt8} (hc : s[st.i]? = some c) (h : ¬ ignorable st c) : skipped s st = st := by
  unfold skipped
  split
  · rename_i hw
    rw [drop_cons hc, ignoredPrefix, if_neg (fun hs => h ⟨hw, Or.inl hs⟩), if_neg (fun hs => h ⟨hw, Or.inr hs⟩)]
    rfl
  · rfl

/-- The length of the ignored token that begins here with `c`. -/
def ignoredLength (s : Bytes) (st : PState) (c : UInt8) : Nat :=
  if isSpaceByte c then 1 else 1 + commentLength (s.drop (st.i + 1))

theorem ignoredLength_pos (s : Bytes) (st : PState) (c : UInt8) : 0 < ignoredLength s st c := by
  unfold ignoredLength
  split <;> omega

theorem skipped_ignorable (icu : Icu) {st : PState} {c : UInt8} (hc : s[st.i]? = some c) (h : ignorable st c) :
    skipped s st = skipped s (st.forward (ignoredLength s st c)) ∧ ∀ nests K m out,
      Scan.token icu s nests ⟨st, K, m, out⟩ = some ⟨st.forward (ignoredLength s st c), K, .start, out⟩ := by
  obtain ⟨hw, hch⟩ := h
  unfold ignoredLength
  by_cases hsp : isSpaceByte c = true
  · rw [if_pos hsp]
    refine ⟨?_, fun nests K m out => ?_⟩
    · unfold skipped
      rw [if_pos hw, if_pos (show (st.forward 1).ignoreWs = true from hw), drop_cons hc, ignoredPrefix, if_pos hsp,
        PState.forward_forward]
      rfl
    · unfold Scan.token
      rw [hc]
      exact if_pos ⟨hw, hsp⟩
  · have hc23 : c = 0x23 := hch.resolve_left hsp
    rw [if_neg hsp]
    refine ⟨?_, fun nests K m out => ?_⟩
    · unfold skipped
      rw [if_pos hw, if_pos (show (st.forward _).ignoreWs = true from hw), drop_cons hc, ignoredPrefix, if_neg hsp,
        if_pos hc23, ignoredPrefix_comment, PState.forward_forward, PState.forward_i, List.drop_drop]
      congr 1
      rw [Nat.add_assoc st.i]
      omega
    · unfold Scan.token
      rw [hc]
      dsimp only
      rw [if_neg (fun h => hsp h.2), if_pos ⟨hw, hc23⟩]

/-- **What is skipped is ignored token by token.** -/
theorem scans_skipped (icu : Icu) (s : Bytes) (nests : Bool) (K : List (Opening × Nat)) (out : List Ev) (st : PState) (m : Before) :
    ∃ m', Scans icu s nests ⟨st, K, m, out⟩ ⟨skipped s st, K, m', out⟩ ∧ (m' = m ∧ skipped s st = st ∨ m' = .start) ∧
      ∀ c, s[(skipped s st).i]? = some c → ¬ ignorable (skipped s st) c := by
  induction hn : s.length - st.i using Nat.strongRecOn generalizing st m with
  | ind n ih =>
    cases hc : s[st.i]? with
    | none =>
      rw [skipped_none hc]
      exact ⟨m, .refl, Or.inl ⟨rfl, rfl⟩, fun c h => by rw [hc] at h; cases h⟩
    | some c =>
      by_cases hig : ignorable st c
      · obtain ⟨hskip, htok⟩ := skipped_ignorable icu hc hig
        have hlt : st.i < s.length := (List.getElem?_eq_some_iff.1 hc).1
        have hpos := ignoredLength_pos s st c
        obtain ⟨m', h1, h2, h3⟩ := ih (s.length - (st.forward (ignoredLength s st c)).i) (by rw [PState.forward_i]; omega)
          (st.forward (ignoredLength s st c)) .start rfl
        rw [hskip]
        refine ⟨m', .head (htok nests K m out) h1, Or.inr ?_, h3⟩
        exact h2.elim And.left id
      · rw [skipped_plain hc hig]
        refine ⟨m, .refl, Or.inl ⟨rfl, rfl⟩, fun d h => ?_⟩
        rw [hc] at h
        cases h
        exact hig

theorem ready_skipped (icu : Icu) {st : PState} {K : List (Opening × Nat)} {m : Before} {out : List Ev}
    (hready : Scan.ready s ⟨st, K, m, out⟩) : ∃ m', Scans icu s false ⟨st, K, m, out⟩ ⟨skipped s st, K, m', out⟩ ∧
      Scan.ready s ⟨skipped s st, K, m', out⟩ ∧ ∀ c, s[(skipped s st).i]? = some c → ¬ ignorable (skipped s st) c := by
  obtain ⟨m', h1, h2, h3⟩ := scans_skipped icu s false K out st m
  refine ⟨m', h1, ?_, h3⟩
  rcases h2 with ⟨rfl, he⟩ | rfl
  · rw [he]
    exact hready
  · exact Scan.ready_start

/-! ## Quantifiers -/

theorem quantifier_opens {st st' : PState} {c : UInt8} {q : Option (Nat × Nat)} (hc : s[st.i]? = some c)
    (ho : opensQuantifier c = true) (h : quantifier s st = .ok (q, st')) : ∃ mn mx, q = some (mn, mx) := by
  have hne : ∀ d : UInt8, d ≠ c → s[st.i]? ≠ some d := fun d hd he => hd (Option.some.inj (he.symm.trans hc))
  unfold quantifier at h
  rcases opensQuantifier_cases ho with rfl | rfl | rfl | rfl
  · rw [eat_ite_at hc] at h
    cases h
    exact ⟨_, _, rfl⟩
  · rw [eat_ite_not (hne 0x2A (by decide)), eat_ite_at hc] at h
    cases h
    exact ⟨_, _, rfl⟩
  · rw [eat_ite_not (hne 0x2A (by decide)), eat_ite_not (hne 0x2B (by decide)), eat_ite_at hc] at h
    cases h
    exact ⟨_, _, rfl⟩
  · rw [eat_ite_not (hne 0x2A (by decide)), eat_ite_not (hne 0x2B (by decide)), eat_ite_not (hne 0x3F (by decide)),
      eat_ite_at hc] at h
    refine Yields.seq (R := fun q => ∃ mn mx, q = some (mn, mx)) (fun mn => Yields.seq (fun mx => Yields.seq
      (fun close => ?_))) _ q st' h
    refine Yields.ite (fun _ => Yields.seq (fun _ => ?_)) (fun _ => ?_)
    all_goals
      exact Yields.ite (fun _ => Yields.bind (Q := fun _ => False) Yields.fail (fun _ h => h.elim))
        (fun _ => Yields.pure ⟨_, _, rfl⟩)

theorem quantifier_ok_none {st st' : PState} (h : quantifier s st = .ok (none, st')) :
    st' = st ∧ ∀ c, s[st.i]? = some c → opensQuantifier c = false := by
  have hq : ∀ c, s[st.i]? = some c → opensQuantifier c = false := by
    intro c hc
    by_contra ho
    obtain ⟨mn, mx, hq⟩ := quantifier_opens hc ((Bool.not_eq_false _).mp ho) h
    cases hq
  rw [quantifier_none hq] at h
  cases h
  exact ⟨rfl, hq⟩

theorem quantifier_ok_some {st st' : PState} {m : Nat × Nat} (h : quantifier s st = .ok (some m, st')) :
    ∃ c, s[st.i]? = some c ∧ opensQuantifier c = true := by
  by_contra hn
  have hq : ∀ c, s[st.i]? = some c → opensQuantifier c = false := by
    intro c hc
    by_contra ho
    exact hn ⟨c, hc, (Bool.not_eq_false _).mp ho⟩
  rw [quantifier_none hq] at h
  cases h

/-! ## The functions of the parser -/

/-- What the induction carries for one amount of fuel. -/
structure AllScan (icu : Icu) (s : Bytes) (fuel : Nat) : Prop where
  alt : ∀ {n st st'}, alt icu s fuel st = .ok (n, st') → (s[st'.i]? = none ∨ s[st'.i]? = some 0x29) ∧
    ∀ K out, ∃ m, Scans icu s false ⟨st, K, .start, out⟩ ⟨st', K, m, n.events ++ out⟩
  altRest : ∀ {xs st st'}, altRest icu s fuel st = .ok (xs, st') → stopsConcat s st →
    (s[st'.i]? = none ∨ s[st'.i]? = some 0x29) ∧
      ∀ K m out, ∃ m', Scans icu s false ⟨st, K, m, out⟩ ⟨st', K, m', eventsBars xs ++ out⟩
  concat : ∀ {n st st'}, concat icu s fuel st = .ok (n, st') → stopsConcat s st' ∧
    ∀ K out, ∃ m, Scans icu s false ⟨st, K, .start, out⟩ ⟨st', K, m, n.events ++ out⟩
  concatItems : ∀ {xs st st'}, concatItems icu s fuel st = .ok (xs, st') → stopsConcat s st' ∧
    ∀ K m out, Scan.ready s ⟨st, K, m, out⟩ → ∃ m', Scans icu s false ⟨st, K, m, out⟩ ⟨st', K, m', eventsAll xs ++ out⟩
  «repeat» : ∀ {n st st'}, «repeat» icu s fuel st = .ok (n, st') → ¬ stopsConcat s st →
    (∀ c, s[st.i]? = some c → ¬ ignorable st c) → ∀ K m out, Scan.ready s ⟨st, K, m, out⟩ →
      ∃ m', Scans icu s false ⟨st, K, m, out⟩ ⟨st', K, m', n.events ++ out⟩ ∧ Scan.ready s ⟨st', K, m', n.events ++ out⟩
  atom : ∀ {n st st'}, atom icu s fuel st = .ok (n, st') → ¬ stopsConcat s st →
    (∀ c, s[st.i]? = some c → ¬ ignorable st c) → ∀ K m out, Scan.ready s ⟨st, K, m, out⟩ →
      Scans icu s false ⟨st, K, m, out⟩ ⟨st', K, .expr n.events.length, n.events ++ out⟩

theorem alt_scans {fuel : Nat} (h : AllScan icu s fuel) {n : RegexNode} {st st' : PState}
    (hr : Parser.alt icu s (fuel + 1) st = .ok (n, st')) : (s[st'.i]? = none ∨ s[st'.i]? = some 0x29) ∧
      ∀ K out, ∃ m, Scans icu s false ⟨st, K, .start, out⟩ ⟨st', K, m, n.events ++ out⟩ := by
  obtain ⟨x, st₁, xs, h1, h2, rfl⟩ := alt_ok.1 hr
  obtain ⟨hstop, hx⟩ := h.concat h1
  obtain ⟨hend, hxs⟩ := h.altRest h2 hstop
  refine ⟨hend, fun K out => ?_⟩
  obtain ⟨m₁, hm₁⟩ := hx K out
  obtain ⟨m₂, hm₂⟩ := hxs K m₁ (x.events ++ out)
  rw [events_altNode, List.append_assoc]
  exact ⟨m₂, hm₁.trans hm₂⟩

theorem token_bar {nests : Bool} {σ : Scan} (hc : s[σ.st.i]? = some 0x7C) : σ.token icu s nests =
    some { σ with st := σ.st.forward 1, before := .start, out := .bar :: σ.out } := by
  unfold Scan.token
  rw [hc]
  dsimp only
  rw [if_neg (fun h => absurd h.2 (by decide)), if_neg (fun h => absurd h.2 (by decide)), if_neg (by decide), if_pos rfl]

theorem token_close {nests : Bool} {σ : Scan} (hc : s[σ.st.i]? = some 0x29) : σ.token icu s nests = σ.close := by
  unfold Scan.token
  rw [hc]
  dsimp only
  rw [if_neg (fun h => absurd h.2 (by decide)), if_neg (fun h => absurd h.2 (by decide)), if_pos rfl]

theorem altRest_scans {fuel : Nat} (h : AllScan icu s fuel) {xs : List RegexNode} {st st' : PState}
    (hr : Parser.altRest icu s (fuel + 1) st = .ok (xs, st')) (hstop : stopsConcat s st) :
    (s[st'.i]? = none ∨ s[st'.i]? = some 0x29) ∧
      ∀ K m out, ∃ m', Scans icu s false ⟨st, K, m, out⟩ ⟨st', K, m', eventsBars xs ++ out⟩ := by
  rcases altRest_ok.1 hr with ⟨hne, rfl, rfl⟩ | ⟨hbar, x, st₁, ys, h1, h2, rfl⟩
  · refine ⟨hstop.imp_right (fun h => h.resolve_right hne), fun K m out => ⟨m, .refl⟩⟩
  · obtain ⟨hstop₁, hx⟩ := h.concat h1
    obtain ⟨hend, hys⟩ := h.altRest h2 hstop₁
    refine ⟨hend, fun K m out => ?_⟩
    obtain ⟨m₁, hm₁⟩ := hx K (.bar :: out)
    obtain ⟨m₂, hm₂⟩ := hys K m₁ (x.events ++ .bar :: out)
    refine ⟨m₂, .head (token_bar hbar) ?_⟩
    rw [eventsBars, List.append_assoc, List.append_assoc, List.singleton_append]
    exact hm₁.trans hm₂

theorem concat_scans {fuel : Nat} (h : AllScan icu s fuel) {n : RegexNode} {st st' : PState}
    (hr : Parser.concat icu s (fuel + 1) st = .ok (n, st')) : stopsConcat s st' ∧
      ∀ K out, ∃ m, Scans icu s false ⟨st, K, .start, out⟩ ⟨st', K, m, n.events ++ out⟩ := by
  obtain ⟨xs, h1, rfl⟩ := concat_ok.1 hr
  obtain ⟨hstop, hxs⟩ := h.concatItems h1
  refine ⟨hstop, fun K out => ?_⟩
  rw [events_concatNode]
  exact hxs K .start out Scan.ready_start

theorem concatItems_scans {fuel : Nat} (h : AllScan icu s fuel) {xs : List RegexNode} {st st' : PState}
    (hr : Parser.concatItems icu s (fuel + 1) st = .ok (xs, st')) : stopsConcat s st' ∧ ∀ K m out,
      Scan.ready s ⟨st, K, m, out⟩ → ∃ m', Scans icu s false ⟨st, K, m, out⟩ ⟨st', K, m', eventsAll xs ++ out⟩ := by
  rcases concatItems_ok.1 hr with ⟨hstop, rfl, rfl⟩ | ⟨hstop, x, st₁, ys, h1, h2, rfl⟩
  · refine ⟨hstop, fun K m out hready => ?_⟩
    obtain ⟨m', h1, -⟩ := ready_skipped icu hready
    exact ⟨m', h1⟩
  · obtain ⟨hend, hys⟩ := h.concatItems h2
    refine ⟨hend, fun K m out hready => ?_⟩
    obtain ⟨m₁, hs₁, hr₁, hi₁⟩ := ready_skipped icu hready
    obtain ⟨m₂, hs₂, hr₂⟩ := h.repeat h1 hstop hi₁ K m₁ out hr₁
    obtain ⟨m₃, hs₃⟩ := hys K m₂ (x.events ++ out) hr₂
    rw [eventsAll, List.append_assoc]
    exact ⟨m₃, hs₁.trans (hs₂.trans hs₃)⟩

theorem quantify_ok {σ : Scan} {size mn mx : Nat} {st : PState} (h : quantifier s σ.st = .ok (some (mn, mx), st)) :
    σ.quantify s size =
      some { σ with st := st, before := .quantified (size + 1) true, out := .rep mn mx size (!st.swapGreed) :: σ.out } := by
  unfold Scan.quantify
  rw [h]

theorem repeat_scans {fuel : Nat} (h : AllScan icu s fuel) {n : RegexNode} {st st' : PState}
    (hr : Parser.repeat icu s (fuel + 1) st = .ok (n, st')) (hstop : ¬ stopsConcat s st)
    (hi : ∀ c, s[st.i]? = some c → ¬ ignorable st c) (K : List (Opening × Nat)) (m : Before) (out : List Ev)
    (hready : Scan.ready s ⟨st, K, m, out⟩) : ∃ m', Scans icu s false ⟨st, K, m, out⟩ ⟨st', K, m', n.events ++ out⟩ ∧
      Scan.ready s ⟨st', K, m', n.events ++ out⟩ := by
  obtain ⟨a, st₁, q, st₂, h1, h2, h3⟩ := repeat_ok.1 hr
  have ha := h.atom h1 hstop hi K m out hready
  rcases h3 with ⟨rfl, rfl, rfl⟩ | ⟨mn, mx, b, rfl, h4, rfl⟩
  · obtain ⟨rfl, hno⟩ := quantifier_ok_none h2
    refine ⟨_, ha, fun c hc => ⟨fun _ _ => hno c hc, fun _ he => Before.noConfusion he⟩⟩
  · obtain ⟨c, hc, ho⟩ := quantifier_ok_some h2
    obtain ⟨hic, hsc⟩ := opensQuantifier_plain hc ho
    -- the quantifier is a token of its own, and its laziness mark another
    have htok : Scan.token icu s false ⟨st₁, K, .expr a.events.length, a.events ++ out⟩ =
        some ⟨st₂, K, .quantified (a.events.length + 1) true,
          .rep mn mx a.events.length (!st₂.swapGreed) :: (a.events ++ out)⟩ := by
      rw [Scan.token_eq hc hic hsc]
      unfold Scan.item
      dsimp only
      rw [if_pos ho]
      exact quantify_ok h2
    have hq := ha.trans (Scans.one htok)
    rcases eat_ok.1 h4 with ⟨hm, rfl, rfl⟩ | ⟨hm, rfl, rfl⟩
    · obtain ⟨him, hsm⟩ := opensQuantifier_plain hm rfl
      refine ⟨.quantified (a.events.length + 1) false, hq.tail ?_,
        fun c _ => ⟨fun _ he => Before.noConfusion he, fun _ he => by cases he⟩⟩
      rw [Scan.token_eq hm him hsm]
      unfold Scan.item
      dsimp only
      rw [if_pos ⟨rfl, rfl⟩]
      unfold Scan.mark
      dsimp only
      rw [RegexNode.events, Bool.not_not, show (st₂.forward 1).swapGreed = st₂.swapGreed from rfl]
      cases st₂.swapGreed <;> rfl
    · refine ⟨.quantified (a.events.length + 1) true, ?_, fun c hc => ⟨fun _ he => Before.noConfusion he, fun _ _ he => ?_⟩⟩
      · rw [RegexNode.events]
        cases hsw : st'.swapGreed
        · rw [hsw] at hq
          exact hq
        · rw [hsw] at hq
          exact hq
      · rw [he] at hc
        exact hm hc

theorem settle_end {w : Opening} {st : PState} (h : s[st.i]? = none ∨ s[st.i]? = some 0x29) : w.settle s st = st := by
  have hskip : skipped s st = st := by
    rcases h with h | h
    · exact skipped_none h
    · exact skipped_plain h (fun hi => absurd hi.2 (by decide))
  cases w with
  | flagged opt ignoreWs swapGreed => exact hskip
  | plain => rfl
  | look f behind negative => rfl
  | group f g name => rfl

theorem Opening.fuel_le (w : Opening) (k : Nat) : w.fuel k ≤ k := by
  cases w with
  | plain => exact Nat.le_refl k
  | flagged opt ignoreWs swapGreed => exact Nat.le_refl k
  | look f behind negative => exact Nat.sub_le k 1
  | group f g name => exact Nat.sub_le k 1

theorem atom_scans {fuel : Nat} (h : ∀ f < fuel, AllScan icu s f) {n : RegexNode} {st st' : PState}
    (hr : Parser.atom icu s fuel st = .ok (n, st')) (hstop : ¬ stopsConcat s st)
    (hi : ∀ c, s[st.i]? = some c → ¬ ignorable st c) (K : List (Opening × Nat)) (m : Before) (out : List Ev)
    (hready : Scan.ready s ⟨st, K, m, out⟩) :
    Scans icu s false ⟨st, K, m, out⟩ ⟨st', K, .expr n.events.length, n.events ++ out⟩ := by
  -- an atom that is no group needs one unit of fuel, and the same with two
  obtain ⟨f, hf, hr⟩ : ∃ f < fuel, (piece icu s >>= closing icu s f) st = .ok (n, st') := by
    rcases fuel with _ | _ | f
    · cases hr
    · exact ⟨0, Nat.one_pos, by rw [← atom_eq]; exact atom_one hr⟩
    · exact ⟨f, by omega, by rw [← atom_eq]; exact hr⟩
  obtain ⟨c, hc⟩ : ∃ c, s[st.i]? = some c := Option.isSome_iff_exists.1 (by
    by_contra hn
    exact hstop (Or.inl (Option.not_isSome_iff_eq_none.1 hn)))
  have htok : Scan.token icu s false ⟨st, K, m, out⟩ = _ := Scan.token_atom hc (hi c hc) hstop hready
  obtain ⟨p, st₁, h1, h2⟩ := bind_runs hr
  cases p with
  | node n' =>
    cases h2
    refine Scans.one (htok.trans ?_)
    unfold Scan.atom
    rw [h1]
  | opens w =>
    obtain ⟨x, st₂, h3, h4⟩ := bind_runs h2
    obtain ⟨hend, hx⟩ := (h _ (Nat.lt_of_le_of_lt (w.fuel_le f) hf)).alt h3
    obtain ⟨h5, rfl, rfl⟩ := Opening.close_ok.1 h4
    rw [settle_end hend] at h5 ⊢
    obtain ⟨m', hm'⟩ := hx ((w, out.length) :: K) out
    refine .head (b := ⟨st₁, (w, out.length) :: K, .start, out⟩) ?_ (hm'.tail ?_)
    · rw [htok]
      unfold Scan.atom
      rw [h1]
    · rw [token_close h5, Opening.events_node]
      unfold Scan.close
      dsimp only
      rw [List.append_assoc, ← List.append_assoc w.closes, List.length_append, Nat.add_sub_cancel]

theorem allScan (fuel : Nat) : AllScan icu s fuel := by
  induction fuel using Nat.strongRecOn with
  | ind fuel ih =>
    cases fuel with
    | zero =>
      refine ⟨?_, ?_, ?_, ?_, ?_, ?_⟩
      all_goals
        intro n st st' h
        cases h
    | succ fuel =>
      have h := ih fuel (Nat.lt_succ_self fuel)
      exact ⟨alt_scans h, altRest_scans h, concat_scans h, concatItems_scans h, repeat_scans h, atom_scans ih⟩

def scanBegin (opt : PatternOptions) : Scan := { st := { opt := opt } }

/-- **A parsed pattern says what its tree says**, and the machine reads it to its end. -/
theorem parse_scans {opt : PatternOptions} {r : Parsed} (h : parse icu s opt = .ok r) :
    ∃ τ, Scans icu s false (scanBegin opt) τ ∧ τ.st.i = s.length ∧ τ.open_ = [] ∧ τ.out = r.ast.events := by
  unfold parse at h
  obtain ⟨⟨n, st⟩, h1, h2⟩ := Throw.bind_ok h
  dsimp only at h2
  split at h2
  · cases h2
  · rename_i hend
    cases h2
    obtain ⟨m, hm⟩ := ((allScan _).alt h1).2 [] []
    exact ⟨⟨st, [], m, n.events ++ []⟩, hm, Classical.not_not.1 hend, rfl, List.append_nil _⟩

end Parser
end Pergrep
