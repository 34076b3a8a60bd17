import Pergrep.Regex.Query
/-!
# Filter — simplifying a filter keeps its meaning, and is done once

`filterEqual` and `filterSubsumes` imply what they say of every text (`filterEqual_matches`, `filterSubsumes_matches`).
`Normal` is the shape of a simplified filter, hereditarily: nested terms are spliced, no term is always true, no term
repeats an earlier one and no term of a disjunction absorbs another.  The simplifier ends in it (`simplified_normal`)
and does nothing to it (`Normal.simplified_eq`), so it is idempotent; it keeps the meaning where no disjunction is empty.
-/
namespace Pergrep
namespace FilterExpr

theorem recTerms {P : FilterExpr → Prop} (true_ : P .true_) (atom : ∀ l, P (.atom l))
    (and_ : ∀ ts, (∀ t ∈ ts, P t) → P (.and_ ts)) (or_ : ∀ ts, (∀ t ∈ ts, P t) → P (.or_ ts)) (e : FilterExpr) : P e :=
  @FilterExpr.rec P (fun ts => ∀ t ∈ ts, P t) true_ atom and_ or_ (fun _ h => absurd h List.not_mem_nil)
    (fun _ _ ht hts _ h => (List.mem_cons.1 h).elim (fun e => e ▸ ht) (hts _)) e

/-! ## Meaning -/

@[simp] theorem matchesAll_eq (c : Bytes) : ∀ ts : List FilterExpr, matchesAll c ts = ts.all (fun t => t.matches c)
  | [] => rfl
  | t :: ts => by rw [matchesAll, matchesAll_eq c ts, List.all_cons]

@[simp] theorem matchesAny_eq (c : Bytes) : ∀ ts : List FilterExpr, matchesAny c ts = ts.any (fun t => t.matches c)
  | [] => rfl
  | t :: ts => by rw [matchesAny, matchesAny_eq c ts, List.any_cons]

theorem filterEqualAll_matches {c : Bytes} : ∀ {xs ys : List FilterExpr},
    (∀ x ∈ xs, ∀ y, filterEqual x y = true → x.matches c = y.matches c) → xs.length = ys.length →
      filterEqualAll xs ys = true → matchesAll c xs = matchesAll c ys ∧ matchesAny c xs = matchesAny c ys
  | [], ys, _, hlen, _ => by
    rw [List.length_nil] at hlen
    rw [List.eq_nil_of_length_eq_zero hlen.symm]
    exact ⟨rfl, rfl⟩
  | x :: xs, ys, hx, hlen, h => by
    rw [filterEqualAll, Bool.and_eq_true, List.any_eq_true] at h
    obtain ⟨⟨y, hy, hxy⟩, hrest⟩ := h
    -- the first term that is equal is taken out
    obtain ⟨a, l₁, l₂, -, ha, rfl, herase⟩ := List.exists_of_eraseP hy hxy
    rw [herase] at hrest
    rw [List.length_cons, List.length_append, List.length_cons] at hlen
    obtain ⟨ih1, ih2⟩ := filterEqualAll_matches (fun z hz => hx z (List.mem_cons_of_mem x hz))
      (by rw [List.length_append]; omega) hrest
    have hxa := hx x List.mem_cons_self a ha
    simp only [matchesAll_eq, matchesAny_eq] at ih1 ih2 ⊢
    rw [List.all_cons, List.any_cons, ih1, ih2, hxa]
    simp only [List.all_append, List.any_append, List.all_cons, List.any_cons]
    exact ⟨Bool.and_left_comm _ _ _, Bool.or_left_comm _ _ _⟩

/-- **Equal filters mean the same.** -/
theorem filterEqual_matches (c : Bytes) (a : FilterExpr) : ∀ b, filterEqual a b = true → a.matches c = b.matches c := by
  induction a using recTerms with
  | true_ =>
    intro b h
    cases b with
    | true_ => rfl
    | _ => simp [filterEqual] at h
  | atom l =>
    intro b h
    cases b with
    | atom r =>
      rw [filterEqual, beq_iff_eq] at h
      rw [h]
    | _ => simp [filterEqual] at h
  | and_ ts ih =>
    intro b h
    cases b with
    | and_ us =>
      rw [filterEqual, Bool.and_eq_true, beq_iff_eq] at h
      exact (filterEqualAll_matches ih h.1 h.2).1
    | _ => simp [filterEqual] at h
  | or_ ts ih =>
    intro b h
    cases b with
    | or_ us =>
      rw [filterEqual, Bool.and_eq_true, beq_iff_eq] at h
      exact (filterEqualAll_matches ih h.1 h.2).2
    | _ => simp [filterEqual] at h

theorem holds_iff {c l : Bytes} : holds c l = true ↔ l <:+: c := by
  rw [holds, Substr.findFrom_isSome]
  constructor
  · rintro ⟨y, -, ho⟩
    exact ((Substr.occursAt_iff c l y).1 ho).2.isInfix.trans (List.drop_suffix y c).isInfix
  · rintro ⟨u, v, rfl⟩
    refine ⟨u.length, Nat.zero_le _, (Substr.occursAt_iff _ _ _).2 ⟨by simp, ?_⟩⟩
    rw [List.append_assoc, List.drop_left]
    exact List.prefix_append l v

/-- **A filter that is subsumed holds only where the other does.** -/
theorem filterSubsumes_matches {c : Bytes} {a b : FilterExpr} (h : filterSubsumes a b = true) (hb : b.matches c = true) :
    a.matches c = true := by
  -- a conjunction with an equal term
  have hand : andContains b a = true → a.matches c = true := by
    intro h
    cases b with
    | and_ ts =>
      rw [andContains, List.any_eq_true] at h
      obtain ⟨t, ht, hta⟩ := h
      rw [«matches», matchesAll_eq, List.all_eq_true] at hb
      rw [← filterEqual_matches c t a hta, hb t ht]
    | _ => simp [andContains] at h
  unfold filterSubsumes at h
  split at h
  · rw [filterEqual_matches c a b ‹_›, hb]
  · split at h
    · rw [«matches»] at hb ⊢
      exact holds_iff.2 ((holds_iff.1 h).trans (holds_iff.1 hb))
    · exact hand h

/-! ## Duplicates -/

def Distinct (ts : List FilterExpr) : Prop := ts.Pairwise (fun a b => filterEqual a b = false)

theorem unique_step {u : List FilterExpr} {t : FilterExpr} {c : Bytes} :
    ((if u.any (fun prior => filterEqual prior t) then u else u ++ [t]).all (fun t => t.matches c) =
        (u.all (fun t => t.matches c) && t.matches c)) ∧
      (if u.any (fun prior => filterEqual prior t) then u else u ++ [t]).any (fun t => t.matches c) =
        (u.any (fun t => t.matches c) || t.matches c) := by
  split
  · rename_i h
    obtain ⟨a, ha, hat⟩ := List.any_eq_true.1 h
    rw [← filterEqual_matches c a t hat]
    constructor
    · cases hm : a.matches c with
      | true => rw [Bool.and_true]
      | false =>
        rw [Bool.and_false, List.all_eq_false]
        exact ⟨a, ha, by simp [hm]⟩
    · cases hm : a.matches c with
      | false => rw [Bool.or_false]
      | true =>
        rw [Bool.or_true, List.any_eq_true]
        exact ⟨a, ha, hm⟩
  · constructor
    · rw [List.all_append, List.all_cons, List.all_nil, Bool.and_true]
    · rw [List.any_append, List.any_cons, List.any_nil, Bool.or_false]

theorem uniqueTerms_matches (c : Bytes) (ts : List FilterExpr) :
    (uniqueTerms ts).all (fun t => t.matches c) = ts.all (fun t => t.matches c) ∧
      (uniqueTerms ts).any (fun t => t.matches c) = ts.any (fun t => t.matches c) := by
  have hfold : ∀ (ts u : List FilterExpr),
      let r := ts.foldl (fun unique t => if unique.any (fun prior => filterEqual prior t) then unique else unique ++ [t]) u
      r.all (fun t => t.matches c) = (u.all (fun t => t.matches c) && ts.all (fun t => t.matches c)) ∧
        r.any (fun t => t.matches c) = (u.any (fun t => t.matches c) || ts.any (fun t => t.matches c)) := by
    intro ts
    induction ts with
    | nil => exact fun u => ⟨(Bool.and_true _).symm, (Bool.or_false _).symm⟩
    | cons t ts ih =>
      intro u
      obtain ⟨h1, h2⟩ := ih (if u.any (fun prior => filterEqual prior t) then u else u ++ [t])
      obtain ⟨s1, s2⟩ := @unique_step u t c
      rw [s1, Bool.and_assoc] at h1
      rw [s2, Bool.or_assoc] at h2
      exact ⟨h1, h2⟩
  exact hfold ts []

theorem uniqueTerms_distinct (ts : List FilterExpr) : Distinct (uniqueTerms ts) ∧ ∀ t ∈ uniqueTerms ts, t ∈ ts := by
  have hfold : ∀ (ts u : List FilterExpr), Distinct u →
      let r := ts.foldl (fun unique t => if unique.any (fun prior => filterEqual prior t) then unique else unique ++ [t]) u
      Distinct r ∧ ∀ t ∈ r, t ∈ u ∨ t ∈ ts := by
    intro ts
    induction ts with
    | nil => exact fun u hu => ⟨hu, fun t ht => Or.inl ht⟩
    | cons t ts ih =>
      intro u hu
      rw [List.foldl_cons]
      split
      · obtain ⟨h1, h2⟩ := ih u hu
        exact ⟨h1, fun x hx => (h2 x hx).imp id (List.mem_cons_of_mem t)⟩
      · rename_i hnone
        have hnew : Distinct (u ++ [t]) := List.pairwise_append.2 ⟨hu, List.pairwise_singleton _ _, fun a ha b hb => by
          rw [List.mem_singleton.1 hb]
          simp only [List.any_eq_true, not_exists, not_and, Bool.not_eq_true] at hnone
          exact hnone a ha⟩
        obtain ⟨h1, h2⟩ := ih (u ++ [t]) hnew
        refine ⟨h1, fun x hx => ?_⟩
        rcases h2 x hx with hx | hx
        · rcases List.mem_append.1 hx with hx | hx
          · exact Or.inl hx
          · exact Or.inr (List.mem_cons.2 (Or.inl (List.mem_singleton.1 hx)))
        · exact Or.inr (List.mem_cons_of_mem t hx)
  obtain ⟨h1, h2⟩ := hfold ts [] List.Pairwise.nil
  exact ⟨h1, fun t ht => (h2 t ht).resolve_left List.not_mem_nil⟩

theorem uniqueTerms_eq {ts : List FilterExpr} (h : Distinct ts) : uniqueTerms ts = ts := by
  have hfold : ∀ (ts u : List FilterExpr), Distinct (u ++ ts) →
      ts.foldl (fun unique t => if unique.any (fun prior => filterEqual prior t) then unique else unique ++ [t]) u = u ++ ts := by
    intro ts
    induction ts with
    | nil => exact fun u _ => (List.append_nil u).symm
    | cons t ts ih =>
      intro u hu
      have hno : ¬ u.any (fun prior => filterEqual prior t) = true := by
        rw [List.any_eq_true]
        rintro ⟨a, ha, hat⟩
        have := (List.pairwise_append.1 hu).2.2 a ha t List.mem_cons_self
        rw [hat] at this
        cases this
      rw [List.foldl_cons, if_neg hno, ih (u ++ [t]) (by rwa [List.append_assoc, List.singleton_append]), List.append_assoc,
        List.singleton_append]
  exact hfold ts [] h

/-! ## Absorption -/

/-- No term of a disjunction absorbs another. -/
def Unabsorbed (ts : List FilterExpr) : Prop :=
  ts.Pairwise (fun a b => filterSubsumes a b = false ∧ filterSubsumes b a = false)

def spared (t : FilterExpr) (ts : List FilterExpr) : List FilterExpr := ts.filter (fun u => !filterSubsumes t u)

theorem spared_cons (t u : FilterExpr) (ts : List FilterExpr) :
    spared t (u :: ts) = if filterSubsumes t u then spared t ts else u :: spared t ts := by
  rw [spared, List.filter_cons]
  cases filterSubsumes t u <;> rfl

theorem getD_middle (pre post : List FilterExpr) (t d : FilterExpr) : (pre ++ t :: post).getD pre.length d = t := by
  rw [List.getD_eq_getElem?_getD, List.getElem?_append_right (Nat.le_refl _), Nat.sub_self]
  rfl

theorem absorbInner_after (t : FilterExpr) (pre : List FilterExpr) : ∀ (post done : List FilterExpr) (fuel : Nat),
    post.length ≤ fuel →
      absorbInner fuel (pre ++ t :: (done ++ post)) pre.length (pre.length + 1 + done.length) =
        (pre ++ t :: (done ++ spared t post), pre.length)
  | [], done, fuel, _ => by
    have hend : ¬ pre.length + 1 + done.length < (pre ++ t :: (done ++ [])).length := by simp; omega
    cases fuel with
    | zero => rfl
    | succ fuel => rw [absorbInner, if_neg hend]; rfl
  | u :: post, done, fuel, hfuel => by
    obtain ⟨fuel, rfl⟩ : ∃ k, fuel = k + 1 := ⟨fuel - 1, by rw [List.length_cons] at hfuel; omega⟩
    rw [List.length_cons] at hfuel
    have hlt : pre.length + 1 + done.length < (pre ++ t :: (done ++ u :: post)).length := by simp; omega
    have hu : (pre ++ t :: (done ++ u :: post)).getD (pre.length + 1 + done.length) .true_ = u := by
      have h := getD_middle (pre ++ t :: done) post u .true_
      rw [List.length_append, List.length_cons, List.append_assoc, List.cons_append] at h
      rwa [show pre.length + 1 + done.length = pre.length + (done.length + 1) by omega]
    rw [absorbInner, if_pos hlt, getD_middle, hu, spared_cons]
    by_cases hs : filterSubsumes t u = true
    · have herase : (pre ++ t :: (done ++ u :: post)).eraseIdx (pre.length + 1 + done.length) = pre ++ t :: (done ++ post) := by
        rw [List.eraseIdx_append_of_length_le (by omega),
          show pre.length + 1 + done.length - pre.length = done.length + 1 by omega, List.eraseIdx_cons_succ,
          List.eraseIdx_append_of_length_le (Nat.le_refl _), Nat.sub_self, List.eraseIdx_cons_zero]
      rw [if_pos ⟨by omega, hs⟩, if_pos hs, herase, if_neg (by omega)]
      exact absorbInner_after t pre post done fuel (by omega)
    · rw [if_neg (fun h => hs h.2), if_neg hs]
      have ih := absorbInner_after t pre post (done ++ [u]) fuel (by omega)
      rw [List.length_append, List.append_assoc, List.append_assoc] at ih
      exact ih

/-- The inner loop before its term; the index of the term moves with what is dropped. -/
theorem absorbInner_before (t : FilterExpr) (post : List FilterExpr) : ∀ (pre done : List FilterExpr) (fuel : Nat),
    pre.length + post.length + 1 ≤ fuel →
      absorbInner fuel (done ++ pre ++ t :: post) (done ++ pre).length done.length =
        (done ++ spared t pre ++ t :: spared t post, (done ++ spared t pre).length)
  | [], done, fuel, hfuel => by
    obtain ⟨fuel, rfl⟩ : ∃ k, fuel = k + 1 := ⟨fuel - 1, by omega⟩
    rw [List.append_nil, absorbInner, if_pos (by simp), if_neg (fun h => h.1 rfl)]
    have h := absorbInner_after t done post [] fuel (by rw [List.length_nil] at hfuel; omega)
    rw [List.nil_append, List.nil_append, List.length_nil, Nat.add_zero] at h
    rw [h, show spared t [] = [] from rfl, List.append_nil]
  | u :: pre, done, fuel, hfuel => by
    obtain ⟨fuel, rfl⟩ : ∃ k, fuel = k + 1 := ⟨fuel - 1, by omega⟩
    rw [List.length_cons] at hfuel
    have hlt : done.length < (done ++ u :: pre ++ t :: post).length := by simp
    have hu : (done ++ u :: pre ++ t :: post).getD done.length .true_ = u := by
      rw [List.append_assoc, List.cons_append, getD_middle]
    have hne : (done ++ u :: pre).length ≠ done.length := by simp
    rw [absorbInner, if_pos hlt, getD_middle, hu, spared_cons]
    by_cases hs : filterSubsumes t u = true
    · have herase : (done ++ u :: pre ++ t :: post).eraseIdx done.length = done ++ pre ++ t :: post := by
        rw [List.append_assoc, List.eraseIdx_append_of_length_le (Nat.le_refl _), Nat.sub_self, List.cons_append,
          List.eraseIdx_cons_zero, List.append_assoc]
      have hindex : (done ++ u :: pre).length - 1 = (done ++ pre).length := by simp
      rw [if_pos ⟨hne, hs⟩, if_pos hs, herase, if_pos (by simp), hindex]
      exact absorbInner_before t post pre done fuel (by omega)
    · rw [if_neg (fun h => hs h.2), if_neg hs]
      have ih := absorbInner_before t post pre (done ++ [u]) fuel (by omega)
      rw [@List.length_append _ done [u], List.append_assoc, List.append_assoc, List.append_assoc,
        List.append_assoc] at ih
      simpa using ih

/-- **The inner loop drops what its term subsumes.** -/
theorem absorbInner_eq (t : FilterExpr) (pre post : List FilterExpr) :
    absorbInner (pre ++ t :: post).length (pre ++ t :: post) pre.length 0 =
      (spared t pre ++ t :: spared t post, (spared t pre).length) :=
  absorbInner_before t post pre [] _ (by simp only [List.length_append, List.length_cons]; omega)

theorem spared_any {c : Bytes} {t : FilterExpr} (pre post : List FilterExpr) :
    (spared t pre ++ t :: spared t post).any (fun u => u.matches c) = (pre ++ t :: post).any (fun u => u.matches c) := by
  rw [Bool.eq_iff_iff, List.any_eq_true, List.any_eq_true]
  constructor
  · rintro ⟨u, hu, hm⟩
    refine ⟨u, ?_, hm⟩
    rcases List.mem_append.1 hu with hu | hu
    · exact List.mem_append_left _ (List.mem_of_mem_filter hu)
    · rcases List.mem_cons.1 hu with rfl | hu
      · exact List.mem_append_right _ List.mem_cons_self
      · exact List.mem_append_right _ (List.mem_cons_of_mem t (List.mem_of_mem_filter hu))
  · rintro ⟨u, hu, hm⟩
    -- what is dropped holds only where the term does
    by_cases hs : filterSubsumes t u = true
    · exact ⟨t, List.mem_append_right _ List.mem_cons_self, filterSubsumes_matches hs hm⟩
    · have hkeep : ∀ {l : List FilterExpr}, u ∈ l → u ∈ spared t l := fun h => List.mem_filter.2 ⟨h, by simpa using hs⟩
      refine ⟨u, ?_, hm⟩
      rcases List.mem_append.1 hu with hu | hu
      · exact List.mem_append_left _ (hkeep hu)
      · rcases List.mem_cons.1 hu with rfl | hu
        · exact List.mem_append_right _ List.mem_cons_self
        · exact List.mem_append_right _ (List.mem_cons_of_mem t (hkeep hu))

/-- **The absorption**: its result means the same, holds only terms it was given, and no term of it absorbs another. -/
theorem absorbOuter_spec (c : Bytes) : ∀ (fuel : Nat) (pre post : List FilterExpr), post.length ≤ fuel → Unabsorbed pre →
    (∀ x ∈ pre, ∀ y ∈ post, filterSubsumes x y = false) →
      let r := absorbOuter fuel (pre ++ post) pre.length
      Unabsorbed r ∧ List.Sublist r (pre ++ post) ∧ (pre ++ post ≠ [] → r ≠ []) ∧
        r.any (fun u => u.matches c) = (pre ++ post).any (fun u => u.matches c)
  | fuel, pre, [], _, hpre, _ => by
    have hstop : absorbOuter fuel (pre ++ []) pre.length = pre ++ [] := by
      cases fuel with
      | zero => rfl
      | succ fuel => rw [absorbOuter, if_neg (by simp)]
    intro r
    rw [show r = pre ++ [] from hstop, List.append_nil]
    exact ⟨hpre, List.Sublist.refl _, fun h => h, rfl⟩
  | fuel, pre, t :: post, hfuel, hpre, hout => by
    rw [List.length_cons] at hfuel
    obtain ⟨fuel, rfl⟩ : ∃ k, fuel = k + 1 := ⟨fuel - 1, by omega⟩
    have hlt : pre.length < (pre ++ t :: post).length := by simp
    have hstep : absorbOuter (fuel + 1) (pre ++ t :: post) pre.length =
        absorbOuter fuel (spared t pre ++ [t] ++ spared t post) (spared t pre ++ [t]).length := by
      rw [absorbOuter, if_pos hlt, absorbInner_eq, List.append_assoc, List.singleton_append, List.length_append]
      rfl
    have hsub : List.Sublist (spared t pre) pre := List.filter_sublist
    have hnot : ∀ {l : List FilterExpr} {x : FilterExpr}, x ∈ spared t l → filterSubsumes t x = false := fun hx => by
      simpa using (List.mem_filter.1 hx).2
    have hlen : (spared t post).length ≤ fuel := Nat.le_trans (List.length_filter_le _ _) (by omega)
    obtain ⟨h1, h2, h3, h4⟩ := absorbOuter_spec c fuel (spared t pre ++ [t]) (spared t post) hlen
      (List.pairwise_append.2 ⟨hpre.sublist hsub, List.pairwise_singleton _ _, fun x hx y hy => by
        rw [List.mem_singleton.1 hy]
        exact ⟨hout x (hsub.subset hx) t List.mem_cons_self, hnot hx⟩⟩)
      (fun x hx y hy => by
        rcases List.mem_append.1 hx with hx | hx
        · exact hout x (hsub.subset hx) y (List.mem_cons_of_mem t (List.mem_of_mem_filter hy))
        · rw [List.mem_singleton.1 hx]
          exact hnot hy)
    intro r
    rw [show r = _ from hstep]
    refine ⟨h1, h2.trans ?_, fun _ => h3 (by simp), h4.trans ?_⟩
    · rw [List.append_assoc, List.singleton_append]
      exact List.Sublist.append hsub (List.Sublist.cons_cons t List.filter_sublist)
    · rw [List.append_assoc, List.singleton_append, spared_any]

theorem absorbOuter_eq {ts : List FilterExpr} (h : Unabsorbed ts) : absorbOuter ts.length ts 0 = ts := by
  have hkeep : ∀ (fuel : Nat) (pre post : List FilterExpr), Unabsorbed (pre ++ post) →
      absorbOuter fuel (pre ++ post) pre.length = pre ++ post := by
    intro fuel
    induction fuel with
    | zero => exact fun _ _ _ => rfl
    | succ fuel ih =>
      intro pre post h
      cases post with
      | nil => rw [absorbOuter, if_neg (by simp)]
      | cons t post =>
        obtain ⟨-, hpost, hcross⟩ := List.pairwise_append.1 h
        have hpre' : spared t pre = pre := List.filter_eq_self.2 (fun u hu => by
          rw [(hcross u hu t List.mem_cons_self).2]
          rfl)
        have hpost' : spared t post = post := List.filter_eq_self.2 (fun u hu => by
          rw [((List.pairwise_cons.1 hpost).1 u hu).1]
          rfl)
        rw [absorbOuter, if_pos (by simp), absorbInner_eq, hpre', hpost']
        have := ih (pre ++ [t]) post (by rwa [List.append_assoc, List.singleton_append])
        rw [List.append_assoc, List.singleton_append, List.length_append] at this
        exact this
  exact hkeep ts.length [] ts h

/-! ## Normal filters -/

def andTerms : FilterExpr → List FilterExpr
  | .true_ => []
  | .and_ us => us
  | u => [u]

/-- What a simplified child adds to a disjunction; nothing may be added to one that is always true. -/
def orTerms : FilterExpr → Option (List FilterExpr)
  | .true_ => none
  | .or_ us => some us
  | u => some [u]

theorem simplifiedAnd_eq : ∀ ts : List FilterExpr, simplifiedAnd ts = ts.flatMap (fun t => andTerms t.simplified)
  | [] => rfl
  | t :: ts => by
    rw [simplifiedAnd, simplifiedAnd_eq ts, List.flatMap_cons]
    rfl

theorem simplifiedOr_cons (t : FilterExpr) (ts : List FilterExpr) :
    simplifiedOr (t :: ts) = (orTerms t.simplified).bind (fun us => (simplifiedOr ts).map (us ++ ·)) := by
  rw [simplifiedOr]
  cases t.simplified <;> rfl

/-- The shape of a simplified filter. -/
inductive Normal : FilterExpr → Prop
  | true_ : Normal .true_
  | atom {l : Bytes} : l ≠ [] → Normal (.atom l)
  | and_ {ts : List FilterExpr} : 2 ≤ ts.length → Distinct ts → (∀ t ∈ ts, Normal t) → (∀ t ∈ ts, andTerms t = [t]) →
      Normal (.and_ ts)
  | or_ {ts : List FilterExpr} : 2 ≤ ts.length → Distinct ts → Unabsorbed ts → (∀ t ∈ ts, Normal t) →
      (∀ t ∈ ts, orTerms t = some [t]) → Normal (.or_ ts)

theorem Normal.andTerms {u : FilterExpr} (h : Normal u) : ∀ t ∈ andTerms u, Normal t ∧ FilterExpr.andTerms t = [t] := by
  intro t ht
  cases h with
  | true_ => exact absurd ht List.not_mem_nil
  | atom hl =>
    rw [List.mem_singleton.1 ht]
    exact ⟨.atom hl, rfl⟩
  | and_ _ _ hn hs => exact ⟨hn t ht, hs t ht⟩
  | or_ h1 h2 h3 h4 h5 =>
    rw [List.mem_singleton.1 ht]
    exact ⟨.or_ h1 h2 h3 h4 h5, rfl⟩

theorem Normal.orTerms {u : FilterExpr} (h : Normal u) {us : List FilterExpr} (hus : orTerms u = some us) :
    us ≠ [] ∧ ∀ t ∈ us, Normal t ∧ FilterExpr.orTerms t = some [t] := by
  cases h with
  | true_ => cases hus
  | atom hl =>
    cases hus
    refine ⟨List.cons_ne_nil _ _, fun t ht => ?_⟩
    rw [List.mem_singleton.1 ht]
    exact ⟨.atom hl, rfl⟩
  | and_ h1 h2 h3 h4 =>
    cases hus
    refine ⟨List.cons_ne_nil _ _, fun t ht => ?_⟩
    rw [List.mem_singleton.1 ht]
    exact ⟨.and_ h1 h2 h3 h4, rfl⟩
  | or_ hlen _ _ hn hs =>
    cases hus
    exact ⟨fun hnil => by simp [hnil] at hlen, fun t ht => ⟨hn t ht, hs t ht⟩⟩

theorem mkAnd_normal {ts : List FilterExpr} (h : ∀ t ∈ ts, Normal t ∧ andTerms t = [t]) : Normal (mkAnd ts) := by
  obtain ⟨hd, hsub⟩ := uniqueTerms_distinct ts
  unfold mkAnd
  split
  · exact .true_
  · rename_i t ht
    exact (h t (hsub t (by rw [ht]; exact List.mem_singleton_self t))).1
  · rename_i us hnil hone
    refine .and_ ?_ hd (fun t ht => (h t (hsub t ht)).1) (fun t ht => (h t (hsub t ht)).2)
    match hu : uniqueTerms ts with
    | [] => exact absurd hu hnil
    | [t] => exact absurd hu (hone t)
    | _ :: _ :: _ => simp

theorem mkOr_normal {ts : List FilterExpr} (h : ∀ t ∈ ts, Normal t ∧ orTerms t = some [t]) : Normal (mkOr ts) := by
  obtain ⟨hd, hsub⟩ := uniqueTerms_distinct ts
  obtain ⟨ha, hs, -, -⟩ := absorbOuter_spec [] (uniqueTerms ts).length [] (uniqueTerms ts) (Nat.le_refl _) List.Pairwise.nil
    (fun _ hx => absurd hx List.not_mem_nil)
  have hmem : ∀ t ∈ absorbOuter (uniqueTerms ts).length (uniqueTerms ts) 0, Normal t ∧ orTerms t = some [t] :=
    fun t ht => h t (hsub t (hs.subset ht))
  unfold mkOr
  simp only
  split
  · exact .true_
  · rename_i t ht
    exact (hmem t (by rw [ht]; exact List.mem_singleton_self t)).1
  · rename_i us hnil hone
    refine .or_ ?_ (hd.sublist hs) ha (fun t ht => (hmem t ht).1) (fun t ht => (hmem t ht).2)
    match hu : absorbOuter (uniqueTerms ts).length (uniqueTerms ts) 0 with
    | [] => exact absurd hu hnil
    | [t] => exact absurd hu (hone t)
    | _ :: _ :: _ => simp

theorem simplifiedOr_normal : ∀ {ts us : List FilterExpr}, (∀ t ∈ ts, Normal t.simplified) → simplifiedOr ts = some us →
    ∀ t ∈ us, Normal t ∧ orTerms t = some [t]
  | [], us, _, h, t, ht => by
    cases h
    exact absurd ht List.not_mem_nil
  | s :: ts, us, hn, h, t, ht => by
    rw [simplifiedOr_cons, Option.bind_eq_some_iff] at h
    obtain ⟨vs, hvs, h⟩ := h
    obtain ⟨ws, hws, rfl⟩ := Option.map_eq_some_iff.1 h
    rcases List.mem_append.1 ht with ht | ht
    · exact ((hn s List.mem_cons_self).orTerms hvs).2 t ht
    · exact simplifiedOr_normal (fun t ht => hn t (List.mem_cons_of_mem s ht)) hws t ht

/-- **A simplified filter is normal.** -/
theorem simplified_normal (e : FilterExpr) : Normal e.simplified := by
  induction e using recTerms with
  | true_ => exact .true_
  | atom l =>
    rw [simplified, mkAtom]
    split
    · exact .true_
    · exact .atom (by simpa using ‹¬ l.isEmpty = true›)
  | and_ ts ih =>
    rw [simplified, simplifiedAnd_eq]
    refine mkAnd_normal (fun t ht => ?_)
    obtain ⟨s, hs, ht⟩ := List.mem_flatMap.1 ht
    exact (ih s hs).andTerms t ht
  | or_ ts ih =>
    rw [simplified]
    cases hor : simplifiedOr ts with
    | none => exact .true_
    | some us => exact mkOr_normal (simplifiedOr_normal ih hor)

/-- **Nothing is left to simplify in a normal filter.** -/
theorem Normal.simplified_eq {e : FilterExpr} (h : Normal e) : e.simplified = e := by
  induction h with
  | true_ => rfl
  | atom hl => rw [simplified, mkAtom, if_neg (by simpa using hl)]
  | @and_ ts hlen hd _ hs ih =>
    have hterms : simplifiedAnd ts = ts := by
      rw [simplifiedAnd_eq, List.flatMap_congr (g := fun t => [t]) (fun t ht => by rw [ih t ht, hs t ht])]
      exact List.flatMap_singleton' ts
    rw [simplified, hterms, mkAnd, uniqueTerms_eq hd]
    match ts, hlen with
    | _ :: _ :: _, _ => rfl
  | @or_ ts hlen hd ha _ hs ih =>
    have hterms : ∀ {us : List FilterExpr}, (∀ t ∈ us, t.simplified = t ∧ FilterExpr.orTerms t = some [t]) → simplifiedOr us = some us := by
      intro us
      induction us with
      | nil => exact fun _ => rfl
      | cons t us ihus =>
        intro h
        obtain ⟨h1, h2⟩ := h t List.mem_cons_self
        rw [simplifiedOr_cons, h1, h2, ihus (fun t ht => h t (List.mem_cons_of_mem _ ht))]
        rfl
    rw [simplified, hterms (fun t ht => ⟨ih t ht, hs t ht⟩)]
    change mkOr ts = .or_ ts
    unfold mkOr
    simp only [uniqueTerms_eq hd, absorbOuter_eq ha]
    match ts, hlen with
    | _ :: _ :: _, _ => rfl

/-! ## The simplifier -/

mutual
def noEmptyOr : FilterExpr → Bool
  | .true_ | .atom _ => true
  | .and_ ts => noEmptyOrAll ts
  | .or_ ts => !ts.isEmpty && noEmptyOrAll ts

def noEmptyOrAll : List FilterExpr → Bool
  | [] => true
  | t :: ts => t.noEmptyOr && noEmptyOrAll ts
end

theorem noEmptyOrAll_iff : ∀ {ts : List FilterExpr}, noEmptyOrAll ts = true ↔ ∀ t ∈ ts, t.noEmptyOr = true
  | [] => by simp [noEmptyOrAll]
  | t :: ts => by simp [noEmptyOrAll, @noEmptyOrAll_iff ts]

theorem mkAnd_matches (c : Bytes) (ts : List FilterExpr) : (mkAnd ts).matches c = ts.all (fun t => t.matches c) := by
  rw [← (uniqueTerms_matches c ts).1]
  unfold mkAnd
  split
  · rename_i h
    rw [h]
    rfl
  · rename_i t h
    rw [h, List.all_cons, List.all_nil, Bool.and_true]
  · rw [«matches», matchesAll_eq]

theorem uniqueTerms_ne_nil {ts : List FilterExpr} (h : ts ≠ []) : uniqueTerms ts ≠ [] := by
  have hfold : ∀ (ts u : List FilterExpr), u ≠ [] →
      ts.foldl (fun unique t => if unique.any (fun prior => filterEqual prior t) then unique else unique ++ [t]) u ≠ [] := by
    intro ts
    induction ts with
    | nil => exact fun _ hu => hu
    | cons t ts ih =>
      intro u hu
      rw [List.foldl_cons]
      split
      · exact ih u hu
      · exact ih _ (by simp)
  cases ts with
  | nil => exact absurd rfl h
  | cons t ts => exact hfold ts [t] (List.cons_ne_nil _ _)

theorem mkOr_matches (c : Bytes) {ts : List FilterExpr} (hne : ts ≠ []) :
    (mkOr ts).matches c = ts.any (fun t => t.matches c) := by
  obtain ⟨-, -, hkeep, h⟩ := absorbOuter_spec c (uniqueTerms ts).length [] (uniqueTerms ts) (Nat.le_refl _) List.Pairwise.nil
    (fun _ hx => absurd hx List.not_mem_nil)
  rw [List.nil_append] at hkeep h
  rw [(uniqueTerms_matches c ts).2] at h
  rw [← h]
  unfold mkOr
  simp only
  split
  · rename_i hnil
    exact absurd hnil (hkeep (uniqueTerms_ne_nil hne))
  · rename_i t hone
    rw [List.length_nil, hone, List.any_cons, List.any_nil, Bool.or_false]
  · rw [«matches», matchesAny_eq]
    rfl

theorem andTerms_matches (c : Bytes) (u : FilterExpr) : (andTerms u).all (fun t => t.matches c) = u.matches c := by
  cases u with
  | true_ => rfl
  | and_ us => rw [«matches», matchesAll_eq, andTerms]
  | _ => simp [andTerms]

theorem orTerms_matches {c : Bytes} {u : FilterExpr} {us : List FilterExpr} (h : orTerms u = some us) :
    us.any (fun t => t.matches c) = u.matches c := by
  cases u with
  | true_ => cases h
  | or_ us =>
    cases h
    rw [«matches», matchesAny_eq]
  | _ =>
    cases h
    simp

theorem orTerms_none {u : FilterExpr} (h : orTerms u = none) : u = .true_ := by
  cases u with
  | true_ => rfl
  | _ => cases h

/-- The terms of a disjunction mean what its children mean; without terms a child is always true. -/
theorem simplifiedOr_matches (c : Bytes) : ∀ {ts : List FilterExpr}, (∀ t ∈ ts, t.simplified.matches c = t.matches c) →
    match simplifiedOr ts with
    | none => ts.any (fun t => t.matches c) = true
    | some us => us.any (fun t => t.matches c) = ts.any (fun t => t.matches c) ∧ (ts ≠ [] → us ≠ [])
  | [], _ => ⟨rfl, fun h => h⟩
  | t :: ts, h => by
    have ht := h t List.mem_cons_self
    have ih := simplifiedOr_matches c (fun u hu => h u (List.mem_cons_of_mem t hu))
    rw [simplifiedOr_cons]
    cases hor : orTerms t.simplified with
    | none =>
      rw [orTerms_none hor] at ht
      change (t :: ts).any (fun t => t.matches c) = true
      rw [List.any_cons, ← ht]
      rfl
    | some us =>
      cases hrest : simplifiedOr ts with
      | none =>
        rw [hrest] at ih
        change (t :: ts).any (fun t => t.matches c) = true
        rw [List.any_cons, show ts.any (fun t => t.matches c) = true from ih, Bool.or_true]
      | some ws =>
        rw [hrest] at ih
        refine ⟨?_, fun _ => ?_⟩
        · rw [List.any_append, orTerms_matches hor, ht, ih.1, List.any_cons]
        · exact List.append_ne_nil_of_left_ne_nil ((simplified_normal t).orTerms hor).1 ws

/-- **Simplifying keeps the meaning.** -/
theorem simplified_matches (c : Bytes) (e : FilterExpr) : e.noEmptyOr = true → e.simplified.matches c = e.matches c := by
  induction e using recTerms with
  | true_ => exact fun _ => rfl
  | atom l =>
    intro _
    rw [simplified, mkAtom]
    split
    · rename_i hl
      rw [«matches», «matches», List.isEmpty_iff.1 hl]
      exact (holds_iff.2 (List.nil_infix)).symm
    · rfl
  | and_ ts ih =>
    intro h
    rw [noEmptyOr, noEmptyOrAll_iff] at h
    rw [simplified, mkAnd_matches, simplifiedAnd_eq, «matches», matchesAll_eq, List.all_flatMap]
    rw [Bool.eq_iff_iff, List.all_eq_true, List.all_eq_true]
    refine forall₂_congr (fun t ht => ?_)
    rw [andTerms_matches, ih t ht (h t ht)]
  | or_ ts ih =>
    intro h
    rw [noEmptyOr, Bool.and_eq_true, noEmptyOrAll_iff] at h
    have hne : ts ≠ [] := by simpa using h.1
    have hmeans := simplifiedOr_matches c (fun t ht => ih t ht (h.2 t ht))
    rw [simplified, «matches», matchesAny_eq]
    cases hor : simplifiedOr ts with
    | none =>
      rw [hor] at hmeans
      exact hmeans.symm
    | some us =>
      rw [hor] at hmeans
      simp only
      rw [mkOr_matches c (hmeans.2 hne), hmeans.1]

/-- **The simplifier keeps the meaning of a filter without empty disjunctions, on every text, and doing it twice is doing
it once.** -/
theorem simplified_sound {e : FilterExpr} (h : e.noEmptyOr = true) :
    (∀ text, e.simplified.matches text = e.matches text) ∧ e.simplified.simplified = e.simplified :=
  ⟨fun text => simplified_matches text e h, (simplified_normal e).simplified_eq⟩

/-- `ab ∨ ((a ∧ b) ∨ a)` -/
def absorbed : FilterExpr := .or_ [.atom [0x61, 0x62], .or_ [.and_ [.atom [0x61], .atom [0x62]], .atom [0x61]]]

/-- It says of `xab` what its simplified form says, and that form is final. -/
theorem simplified_sound_absorbed : absorbed.simplified.matches [0x78, 0x61, 0x62] = absorbed.matches [0x78, 0x61, 0x62] ∧
    absorbed.simplified.simplified = absorbed.simplified :=
  ⟨(simplified_sound (by decide)).1 _, (simplified_sound (by decide)).2⟩

end FilterExpr
end Pergrep
