import Pergrep.Lib.Substr
/-!
# Greedy — occurrences in a range, and leftmost non-overlapping choices

`occs s q lo hi` are the occurrences of `q` that start in `[lo, hi)`, in order.  `apart len n xs` keeps of an ascending
list the leftmost members that are at least `len` apart, from `n` on: `mem_apart` says which, with no recursion.
`scan len ok pos n xs` is a scan that puts a test to the members it comes to and steps over `len` after each, taken or
not; with a test that accepts everything it is `apart`, and whatever the test `tried` are the members it is put to
(`scan_tried`).  A scan takes what is to be taken of the members that pass, unless one that fails hides some of it, in
one window (`scan_eq_apart`) or in windows one after another (`windows_iff`).
-/
namespace Substr

variable {α : Type*} [DecidableEq α]

def occs (s q : List α) (lo hi : Nat) : List Nat := (List.range' lo (hi - lo)).filter (occursAt s q)

theorem mem_occs {s q : List α} {lo hi x : Nat} : x ∈ occs s q lo hi ↔ lo ≤ x ∧ x < hi ∧ occursAt s q x = true := by
  rw [occs, List.mem_filter, List.mem_range'_1]
  constructor
  · rintro ⟨⟨h1, h2⟩, h⟩
    exact ⟨h1, by omega, h⟩
  · rintro ⟨h1, h2, h⟩
    exact ⟨⟨h1, by omega⟩, h⟩

theorem occs_sorted (s q : List α) (lo hi : Nat) : (occs s q lo hi).Pairwise (· < ·) :=
  List.Pairwise.filter _ (List.pairwise_lt_range' 1)

theorem occs_append (s q : List α) {lo mid hi : Nat} (h1 : lo ≤ mid) (h2 : mid ≤ hi) :
    occs s q lo mid ++ occs s q mid hi = occs s q lo hi := by
  have hr : List.range' lo (hi - lo) = List.range' lo (mid - lo) ++ List.range' mid (hi - mid) := by
    have := List.range'_append_1 (s := lo) (m := mid - lo) (n := hi - mid)
    rw [show lo + (mid - lo) = mid by omega, show mid - lo + (hi - mid) = hi - lo by omega] at this
    exact this.symm
  rw [occs, occs, occs, hr, List.filter_append]

theorem occs_eq_nil {s q : List α} {lo hi : Nat} (h : hi ≤ lo) : occs s q lo hi = [] := by
  rw [occs, show hi - lo = 0 by omega]
  rfl

theorem occs_cons {s q : List α} {lo hi x : Nat} (h1 : lo ≤ x) (h2 : x < hi) (hx : occursAt s q x = true)
    (hmin : ∀ y, lo ≤ y → y < x → occursAt s q y = false) : occs s q lo hi = x :: occs s q (x + 1) hi := by
  rw [← occs_append s q h1 (Nat.le_of_lt h2), ← occs_append s q (Nat.le_succ x) h2]
  have hnil : occs s q lo x = [] := by
    rw [List.eq_nil_iff_forall_not_mem]
    intro y hy
    obtain ⟨hy1, hy2, ho⟩ := mem_occs.1 hy
    rw [hmin y hy1 hy2] at ho
    cases ho
  have hone : occs s q x (x + 1) = [x] := by
    rw [occs, show x + 1 - x = 1 by omega]
    simp [List.range', hx]
  rw [hnil, List.nil_append, hone, List.singleton_append]

/-! ## Choices -/

/-- Of an ascending list, the leftmost members at least `len` apart, from `n` on. -/
def apart (len : Nat) : Nat → List Nat → List Nat
  | _, [] => []
  | n, x :: xs => if x < n then apart len n xs else x :: apart len (x + len) xs

def apartEnd (len : Nat) : Nat → List Nat → Nat
  | n, [] => n
  | n, x :: xs => if x < n then apartEnd len n xs else apartEnd len (x + len) xs

theorem apart_append (len : Nat) : ∀ (n : Nat) (xs ys : List Nat),
    apart len n (xs ++ ys) = apart len n xs ++ apart len (apartEnd len n xs) ys
  | _, [], _ => rfl
  | n, x :: xs, ys => by
    rw [List.cons_append, apart, apart, apartEnd]
    split
    · exact apart_append len n xs ys
    · rw [apart_append len (x + len) xs ys, List.cons_append]

theorem apartEnd_append (len : Nat) : ∀ (n : Nat) (xs ys : List Nat),
    apartEnd len n (xs ++ ys) = apartEnd len (apartEnd len n xs) ys
  | _, [], _ => rfl
  | n, x :: xs, ys => by
    rw [List.cons_append, apartEnd, apartEnd]
    split
    · exact apartEnd_append len n xs ys
    · exact apartEnd_append len (x + len) xs ys

theorem apart_skip {len : Nat} : ∀ {n : Nat} {xs ys : List Nat}, (∀ x ∈ xs, x < n) → apart len n (xs ++ ys) = apart len n ys
  | _, [], _, _ => rfl
  | n, x :: xs, ys, h => by
    rw [List.cons_append, apart, if_pos (h x List.mem_cons_self)]
    exact apart_skip (fun y hy => h y (List.mem_cons_of_mem x hy))

theorem apart_occs {s q : List α} {len lo lo' hi n : Nat} (h1 : lo ≤ lo') (h2 : lo' ≤ n) :
    apart len n (occs s q lo hi) = apart len n (occs s q lo' hi) := by
  rcases Nat.le_total lo' hi with h3 | h3
  · rw [← occs_append s q h1 h3]
    refine apart_skip (fun x hx => ?_)
    have := (mem_occs.1 hx).2.1
    omega
  · rw [occs_eq_nil h3, ← List.append_nil (occs s q lo hi)]
    refine apart_skip (fun x hx => ?_)
    have := (mem_occs.1 hx).2.1
    omega

/-- What is chosen, and where the next choice may start: everything, when overlaps are welcome. -/
def chosen (overlapping : Bool) (len n : Nat) (xs : List Nat) : List Nat × Nat :=
  if overlapping then (xs, n) else (apart len n xs, apartEnd len n xs)

theorem chosen_nil (overlapping : Bool) (len n : Nat) : chosen overlapping len n [] = ([], n) := by
  cases overlapping <;> rfl

theorem chosen_append (overlapping : Bool) (len n : Nat) (xs ys : List Nat) :
    chosen overlapping len n (xs ++ ys) =
      ((chosen overlapping len n xs).1 ++ (chosen overlapping len (chosen overlapping len n xs).2 ys).1,
        (chosen overlapping len (chosen overlapping len n xs).2 ys).2) := by
  cases overlapping with
  | false => simp only [chosen, Bool.false_eq_true, if_false, apart_append, apartEnd_append]
  | true  => rfl

theorem apart_sub {len : Nat} : ∀ {n : Nat} {xs : List Nat} {x : Nat}, x ∈ apart len n xs → x ∈ xs ∧ n ≤ x
  | _, [], _, h => absurd h List.not_mem_nil
  | n, y :: ys, x, h => by
    rw [apart] at h
    split at h
    · obtain ⟨h1, h2⟩ := apart_sub h
      exact ⟨List.mem_cons_of_mem _ h1, h2⟩
    · rename_i hy
      rcases List.mem_cons.1 h with rfl | h
      · exact ⟨List.mem_cons_self, by omega⟩
      · obtain ⟨h1, h2⟩ := apart_sub h
        exact ⟨List.mem_cons_of_mem _ h1, by omega⟩

/-- **What is chosen**: the members no earlier choice reaches into. -/
theorem mem_apart {len : Nat} : ∀ {n : Nat} {xs : List Nat}, xs.Pairwise (· < ·) → ∀ {x : Nat},
    x ∈ apart len n xs ↔ x ∈ xs ∧ n ≤ x ∧ ∀ u ∈ apart len n xs, u < x → u + len ≤ x
  | _, [], _, x => by simp [apart]
  | n, y :: ys, hs, x => by
    obtain ⟨hy, hys⟩ := List.pairwise_cons.1 hs
    rw [apart]
    split
    · rename_i hlt
      rw [mem_apart hys, List.mem_cons]
      constructor
      · rintro ⟨h1, h2, h3⟩
        exact ⟨Or.inr h1, h2, h3⟩
      · rintro ⟨rfl | h1, h2, h3⟩
        · omega
        · exact ⟨h1, h2, h3⟩
    · rename_i hge
      rw [List.mem_cons, mem_apart hys, List.mem_cons]
      constructor
      · rintro (rfl | ⟨h1, h2, h3⟩)
        · refine ⟨Or.inl rfl, by omega, fun u hu hux => ?_⟩
          rcases List.mem_cons.1 hu with rfl | hu
          · omega
          · have := hy u (apart_sub hu).1
            omega
        · refine ⟨Or.inr h1, by omega, fun u hu hux => ?_⟩
          rcases List.mem_cons.1 hu with rfl | hu
          · exact h2
          · exact h3 u hu hux
      · rintro ⟨rfl | h1, h2, h3⟩
        · exact Or.inl rfl
        · refine Or.inr ⟨h1, h3 y List.mem_cons_self (hy x h1), fun u hu hux => h3 u (List.mem_cons_of_mem _ hu) hux⟩

/-- **What is not chosen may go**: a list that keeps the choices has them. -/
theorem apart_kept {len : Nat} {ok : Nat → Bool} : ∀ {n : Nat} {xs : List Nat}, (∀ x ∈ apart len n xs, ok x = true) →
    apart len n (xs.filter ok) = apart len n xs
  | _, [], _ => rfl
  | n, x :: xs, h => by
    rw [apart] at h ⊢
    by_cases hx : x < n
    · rw [if_pos hx] at h ⊢
      rw [← apart_kept h, List.filter_cons]
      split
      · rw [apart, if_pos hx]
      · rfl
    · rw [if_neg hx] at h ⊢
      rw [List.filter_cons_of_pos (h x List.mem_cons_self), apart, if_neg hx,
        apart_kept (fun y hy => h y (List.mem_cons_of_mem x hy))]

theorem sorted_ext {xs ys : List Nat} (hx : xs.Pairwise (· < ·)) (hy : ys.Pairwise (· < ·)) (h : ∀ x, x ∈ xs ↔ x ∈ ys) :
    xs = ys :=
  List.Perm.eq_of_pairwise (fun _ _ _ _ hab hba => absurd hab (Nat.lt_asymm hba)) hx hy
    ((List.perm_ext_iff_of_nodup (hx.imp (fun h => Nat.ne_of_lt h)) (hy.imp (fun h => Nat.ne_of_lt h))).2 h)

/-! ## A scan with a test -/

/-- A scan of an ascending list from `pos`: a member that fails the test is stepped over like one that is taken; one
that passes it before `n` is not taken, and the scan goes on at the next offset.  What is taken, and the new `n`. -/
def scan (len : Nat) (ok : Nat → Bool) : Nat → Nat → List Nat → List Nat × Nat
  | _, n, [] => ([], n)
  | pos, n, x :: xs =>
    if x < pos then scan len ok pos n xs
    else if ok x then
      if x < n then scan len ok (x + 1) n xs
      else (x :: (scan len ok (x + len) (x + len) xs).1, (scan len ok (x + len) (x + len) xs).2)
    else scan len ok (x + len) n xs

theorem scan_drop {len : Nat} {ok : Nat → Bool} : ∀ {xs ys : List Nat} {pos n : Nat}, (∀ x ∈ xs, x < pos) →
    scan len ok pos n (xs ++ ys) = scan len ok pos n ys
  | [], _, _, _, _ => rfl
  | x :: xs, ys, pos, n, h => by
    rw [List.cons_append, scan, if_pos (h x List.mem_cons_self)]
    exact scan_drop (fun y hy => h y (List.mem_cons_of_mem _ hy))

/-- **A scan whose test accepts everything chooses like `apart`.** -/
theorem scan_all {len : Nat} {ok : Nat → Bool} : ∀ {xs : List Nat}, (∀ x ∈ xs, ok x = true) → xs.Pairwise (· < ·) →
    ∀ {pos n : Nat}, (∀ x ∈ xs, pos ≤ x ∨ x < n) → scan len ok pos n xs = (apart len n xs, apartEnd len n xs)
  | [], _, _, _, _, _ => rfl
  | x :: xs, hok, hs, pos, n, hpos => by
    obtain ⟨hx, hxs⟩ := List.pairwise_cons.1 hs
    have hok' : ∀ y ∈ xs, ok y = true := fun y hy => hok y (List.mem_cons_of_mem _ hy)
    rw [scan, apart, apartEnd]
    by_cases hp : x < pos
    · have hn : x < n := (hpos x List.mem_cons_self).resolve_left (Nat.not_le.2 hp)
      rw [if_pos hp, if_pos hn, if_pos hn]
      exact scan_all hok' hxs (fun y hy => hpos y (List.mem_cons_of_mem _ hy))
    · rw [if_neg hp, if_pos (hok x List.mem_cons_self)]
      by_cases hlt : x < n
      · rw [if_pos hlt, if_pos hlt, if_pos hlt]
        exact scan_all hok' hxs (fun y hy => Or.inl (hx y hy))
      · rw [if_neg hlt, if_neg hlt, if_neg hlt, scan_all hok' hxs (fun y _ => Nat.lt_or_ge y (x + len) |>.symm)]

theorem scan_sub {len : Nat} {ok : Nat → Bool} : ∀ {xs : List Nat} {pos n x : Nat}, x ∈ (scan len ok pos n xs).1 →
    x ∈ xs ∧ pos ≤ x ∧ ok x = true
  | [], _, _, _, h => absurd h List.not_mem_nil
  | y :: ys, pos, n, x, h => by
    have hrest : ∀ {pos' n' : Nat}, pos ≤ pos' → x ∈ (scan len ok pos' n' ys).1 → x ∈ y :: ys ∧ pos ≤ x ∧ ok x = true :=
      fun hle h => by
        obtain ⟨h1, h2, h3⟩ := scan_sub h
        exact ⟨List.mem_cons_of_mem y h1, Nat.le_trans hle h2, h3⟩
    rw [scan] at h
    split at h
    · exact hrest (Nat.le_refl _) h
    split at h
    · split at h
      · exact hrest (by omega) h
      · rcases List.mem_cons.1 h with rfl | h
        · exact ⟨List.mem_cons_self, by omega, ‹_›⟩
        · exact hrest (by omega) h
    · exact hrest (by omega) h

def refused (len : Nat) (ok : Nat → Bool) : Nat → Nat → List Nat → List Nat
  | _, _, [] => []
  | pos, n, x :: xs =>
    if x < pos then refused len ok pos n xs
    else if ok x then
      if x < n then refused len ok (x + 1) n xs else refused len ok (x + len) (x + len) xs
    else x :: refused len ok (x + len) n xs

theorem refused_sub {len : Nat} {ok : Nat → Bool} : ∀ {xs : List Nat} {pos n x : Nat}, x ∈ refused len ok pos n xs → x ∈ xs
  | [], _, _, _, h => absurd h List.not_mem_nil
  | y :: ys, pos, n, x, h => by
    rw [refused] at h
    split at h
    · exact List.mem_cons_of_mem y (refused_sub h)
    split at h
    · split at h
      · exact List.mem_cons_of_mem y (refused_sub h)
      · exact List.mem_cons_of_mem y (refused_sub h)
    · rcases List.mem_cons.1 h with rfl | h
      · exact List.mem_cons_self
      · exact List.mem_cons_of_mem y (refused_sub h)

theorem scan_not_hidden {len : Nat} {ok : Nat → Bool} : ∀ {xs : List Nat}, xs.Pairwise (· < ·) → ∀ {pos n y r : Nat},
    y ∈ (scan len ok pos n xs).1 → r ∈ refused len ok pos n xs → r < y → r + len ≤ y
  | [], _, _, _, _, _, h, _, _ => absurd h List.not_mem_nil
  | x :: xs, hs, pos, n, y, r, hy, hr, hlt => by
    obtain ⟨hx, hxs⟩ := List.pairwise_cons.1 hs
    rw [scan] at hy
    rw [refused] at hr
    by_cases hp : x < pos
    · rw [if_pos hp] at hy hr
      exact scan_not_hidden hxs hy hr hlt
    rw [if_neg hp] at hy hr
    cases hok : ok x with
    | true =>
      rw [hok, if_pos rfl] at hy hr
      by_cases hn : x < n
      · rw [if_pos hn] at hy hr
        exact scan_not_hidden hxs hy hr hlt
      · rw [if_neg hn] at hy hr
        rcases List.mem_cons.1 hy with rfl | hy
        · have := hx r (refused_sub hr)
          omega
        · exact scan_not_hidden hxs hy hr hlt
    | false =>
      rw [hok, if_neg (by decide)] at hy hr
      rcases List.mem_cons.1 hr with rfl | hr
      · exact (scan_sub hy).2.1
      · exact scan_not_hidden hxs hy hr hlt

/-- **A scan takes what is to be taken** of the members that pass the test, when no member it refuses hides any of it. -/
theorem scan_eq_apart {len : Nat} {ok : Nat → Bool} : ∀ {xs : List Nat}, xs.Pairwise (· < ·) → ∀ {pos n : Nat},
    (∀ y ∈ apart len n (xs.filter ok), pos ≤ y ∧ ∀ r ∈ refused len ok pos n xs, r < y → r + len ≤ y) →
      scan len ok pos n xs = (apart len n (xs.filter ok), apartEnd len n (xs.filter ok))
  | [], _, _, _, _ => rfl
  | x :: xs, hs, pos, n, h => by
    obtain ⟨hx, hxs⟩ := List.pairwise_cons.1 hs
    have hgt : ∀ {n' : Nat}, ∀ y ∈ apart len n' (xs.filter ok), x < y := fun y hy =>
      hx y (List.mem_of_mem_filter (apart_sub hy).1)
    cases hok : ok x with
    | true =>
      rw [List.filter_cons_of_pos hok, apart, refused, hok] at h
      rw [List.filter_cons_of_pos hok, apart, apartEnd, scan, hok]
      by_cases hn : x < n
      · rw [if_pos hn] at h ⊢
        rw [if_pos hn, if_pos hn]
        by_cases hp : x < pos
        · rw [if_pos hp] at h ⊢
          exact scan_eq_apart hxs h
        · rw [if_neg hp, if_pos rfl, if_pos hn] at h
          rw [if_neg hp]
          exact scan_eq_apart hxs (fun y hy => ⟨hgt y hy, (h y hy).2⟩)
      · rw [if_neg hn] at h ⊢
        rw [if_neg hn, if_neg hn]
        have hp : ¬ x < pos := Nat.not_lt.2 (h x List.mem_cons_self).1
        rw [if_neg hp, if_pos rfl, if_neg hn] at h
        rw [if_neg hp, scan_eq_apart hxs (fun y hy => ⟨(apart_sub hy).2, (h y (List.mem_cons_of_mem x hy)).2⟩)]
        rfl
    | false =>
      have hneg : ¬ ok x = true := by simp [hok]
      rw [List.filter_cons_of_neg hneg, refused, hok] at h
      rw [List.filter_cons_of_neg hneg, scan, hok]
      by_cases hp : x < pos
      · rw [if_pos hp] at h ⊢
        exact scan_eq_apart hxs h
      · rw [if_neg hp, if_neg (by decide)] at h
        rw [if_neg hp]
        exact scan_eq_apart hxs (fun y hy =>
          ⟨(h y hy).2 x List.mem_cons_self (hgt y hy), fun r hr => (h y hy).2 r (List.mem_cons_of_mem x hr)⟩)

/-- The members a scan puts the test to: the leftmost ones that do not overlap, those aside that pass and start before
`n`. -/
def tried (len : Nat) (ok : Nat → Bool) (pos n : Nat) (xs : List Nat) : List Nat :=
  apart len pos (xs.filter (fun x => !ok x || decide (n ≤ x)))

theorem apart_filter {len : Nat} {P P' : Nat → Bool} : ∀ {xs : List Nat} {pos : Nat}, (∀ x ∈ xs, pos ≤ x → P x = P' x) →
    xs.Pairwise (· < ·) → apart len pos (xs.filter P) = apart len pos (xs.filter P')
  | [], _, _, _ => rfl
  | x :: xs, pos, h, hs => by
    obtain ⟨hx, hxs⟩ := List.pairwise_cons.1 hs
    have hrest : ∀ {pos' : Nat}, pos ≤ pos' → apart len pos' (xs.filter P) = apart len pos' (xs.filter P') := fun hle =>
      apart_filter (fun y hy hp => h y (List.mem_cons_of_mem x hy) (Nat.le_trans hle hp)) hxs
    by_cases hp : x < pos
    · -- kept or not, it is passed over
      have hskip : ∀ Q : Nat → Bool, apart len pos ((x :: xs).filter Q) = apart len pos (xs.filter Q) := fun Q => by
        rw [List.filter_cons]
        split
        · rw [apart, if_pos hp]
        · rfl
      rw [hskip, hskip, hrest (Nat.le_refl pos)]
    · rw [List.filter_cons, List.filter_cons, h x List.mem_cons_self (Nat.not_lt.1 hp)]
      split
      · rw [apart, apart, if_neg hp, if_neg hp, hrest (by omega)]
      · exact hrest (Nat.le_refl pos)

theorem apart_below {len : Nat} : ∀ {xs : List Nat} {n n' : Nat}, (∀ x ∈ xs, n ≤ x ∧ n' ≤ x) → apart len n xs = apart len n' xs
  | [], _, _, _ => rfl
  | x :: xs, n, n', h => by
    obtain ⟨h1, h2⟩ := h x List.mem_cons_self
    rw [apart, apart, if_neg (by omega), if_neg (by omega)]

/-- **What a scan takes, and what it refuses**, of what it puts the test to. -/
theorem scan_tried {len : Nat} {ok : Nat → Bool} : ∀ {xs : List Nat}, xs.Pairwise (· < ·) → ∀ {pos n : Nat},
    (scan len ok pos n xs).1 = (tried len ok pos n xs).filter ok ∧
      refused len ok pos n xs = (tried len ok pos n xs).filter (fun x => !ok x)
  | [], _, _, _ => ⟨rfl, rfl⟩
  | x :: xs, hs, pos, n => by
    obtain ⟨hx, hxs⟩ := List.pairwise_cons.1 hs
    rw [scan, refused]
    by_cases hp : x < pos
    · have htried : tried len ok pos n (x :: xs) = tried len ok pos n xs := by
        rw [tried, List.filter_cons]
        split
        · rw [apart, if_pos hp]
          rfl
        · rfl
      rw [if_pos hp, if_pos hp, htried]
      exact scan_tried hxs
    rw [if_neg hp, if_neg hp]
    cases hok : ok x with
    | true =>
      rw [if_pos rfl, if_pos rfl]
      by_cases hn : x < n
      · have htried : tried len ok pos n (x :: xs) = tried len ok (x + 1) n xs := by
          rw [tried, List.filter_cons_of_neg (by simp [hok, hn])]
          exact apart_below (fun y hy => by
            have := hx y (List.mem_of_mem_filter hy)
            omega)
        rw [if_pos hn, if_pos hn, htried]
        exact scan_tried hxs
      · have htried : tried len ok pos n (x :: xs) = x :: tried len ok (x + len) (x + len) xs := by
          rw [tried, List.filter_cons_of_pos (by simp; omega), apart, if_neg hp, tried]
          refine congrArg (x :: ·) (apart_filter (fun y hy hle => ?_) hxs)
          rw [decide_eq_true (by omega), decide_eq_true hle]
        obtain ⟨ih1, ih2⟩ := @scan_tried len ok xs hxs (x + len) (x + len)
        rw [if_neg hn, if_neg hn, htried, List.filter_cons_of_pos hok, List.filter_cons_of_neg (by simp [hok])]
        exact ⟨congrArg (x :: ·) ih1, ih2⟩
    | false =>
      have htried : tried len ok pos n (x :: xs) = x :: tried len ok (x + len) n xs := by
        rw [tried, List.filter_cons_of_pos (by simp [hok]), apart, if_neg hp, tried]
      obtain ⟨ih1, ih2⟩ := @scan_tried len ok xs hxs (x + len) n
      rw [if_neg (by decide), if_neg (by decide), htried, List.filter_cons_of_neg (by simp [hok]),
        List.filter_cons_of_pos (by simp [hok])]
      exact ⟨ih1, congrArg (x :: ·) ih2⟩

theorem tried_all {len : Nat} {ok : Nat → Bool} {xs : List Nat} {pos n : Nat} (h : n ≤ pos) (hs : xs.Pairwise (· < ·)) :
    tried len ok pos n xs = apart len pos xs := by
  rw [tried, @apart_filter len _ (fun _ => true) xs pos (fun x _ hle => by rw [decide_eq_true (by omega), Bool.or_true]) hs,
    List.filter_true]

/-! ## Windows one after another -/

/-- Ranges one after another, from `lo` to `hi`. -/
def Consecutive : Nat → Nat → List (Nat × Nat) → Prop
  | lo, hi, [] => lo = hi
  | lo, hi, w :: ws => w.1 = lo ∧ lo ≤ w.2 ∧ Consecutive w.2 hi ws

theorem Consecutive.le : ∀ {ws : List (Nat × Nat)} {lo hi : Nat}, Consecutive lo hi ws → lo ≤ hi
  | [], _, _, h => Nat.le_of_eq h
  | _ :: _, _, _, ⟨_, h1, h2⟩ => Nat.le_trans h1 h2.le

section
variable (s q : List α) (len : Nat) (ok : Nat → Bool)

/-- The scans of windows, each from its own start; what may be taken next is carried from one to the next. -/
def windowsScan : List (Nat × Nat) → Nat → List Nat
  | [], _ => []
  | w :: ws, n =>
    (scan len ok w.1 n (occs s q w.1 w.2)).1 ++ windowsScan ws (scan len ok w.1 n (occs s q w.1 w.2)).2

/-- A member `r` of a window hides a choice `y`: it fails the test, and the scan of the window, which puts the test to it,
steps over `y` next.  `lo` is the start of all windows and `n` where the first choice may start. -/
def Hides (lo n : Nat) (w : Nat × Nat) (r y : Nat) : Prop :=
  r ∈ tried len ok w.1 (apartEnd len n ((occs s q lo w.1).filter ok)) (occs s q w.1 w.2) ∧ ok r = false ∧ r < y ∧ y < r + len

variable {s q len ok}

theorem windowsScan_ge : ∀ {ws : List (Nat × Nat)} {lo hi n x : Nat}, Consecutive lo hi ws →
    x ∈ windowsScan s q len ok ws n → lo ≤ x
  | [], _, _, _, _, _, h => absurd h List.not_mem_nil
  | w :: ws, lo, hi, n, x, ⟨hw, hle, hrest⟩, h => by
    rcases List.mem_append.1 h with h | h
    · exact hw ▸ (scan_sub h).2.1
    · exact Nat.le_trans hle (windowsScan_ge hrest h)

theorem Consecutive.ge : ∀ {ws : List (Nat × Nat)} {lo hi : Nat}, Consecutive lo hi ws → ∀ {w : Nat × Nat}, w ∈ ws → lo ≤ w.1
  | [], _, _, _, _, h => absurd h List.not_mem_nil
  | v :: vs, lo, hi, ⟨hv, hle, hrest⟩, w, h => by
    rcases List.mem_cons.1 h with rfl | h
    · exact Nat.le_of_eq hv.symm
    · exact Nat.le_trans hle (hrest.ge h)

theorem hides_later {lo mid n r y : Nat} {w : Nat × Nat} (h1 : lo ≤ mid) (h2 : mid ≤ w.1) :
    Hides s q len ok lo n w r y ↔ Hides s q len ok mid (apartEnd len n ((occs s q lo mid).filter ok)) w r y := by
  rw [Hides, Hides, ← occs_append s q h1 h2, List.filter_append, apartEnd_append]

theorem append_inj_at {b : Nat} {as cs bs ds : List Nat} (h : as ++ bs = cs ++ ds) (ha : ∀ x ∈ as, x < b)
    (hc : ∀ x ∈ cs, x < b) (hb : ∀ x ∈ bs, b ≤ x) (hd : ∀ x ∈ ds, b ≤ x) : as = cs ∧ bs = ds := by
  have hbelow : ∀ {l : List Nat}, (∀ x ∈ l, x < b) → l.filter (fun x => decide (x < b)) = l := fun hl =>
    List.filter_eq_self.2 (fun x hx => decide_eq_true (hl x hx))
  have habove : ∀ {l : List Nat}, (∀ x ∈ l, b ≤ x) → l.filter (fun x => decide (x < b)) = [] := fun hl =>
    List.filter_eq_nil_iff.2 (fun x hx => by simpa using hl x hx)
  have hfilter := congrArg (List.filter (fun x => decide (x < b))) h
  rw [List.filter_append, List.filter_append, hbelow ha, hbelow hc, habove hb, habove hd, List.append_nil,
    List.append_nil] at hfilter
  subst hfilter
  exact ⟨rfl, List.append_cancel_left h⟩

/-- **Scans of windows take what is to be taken exactly when no choice is hidden** in its window. -/
theorem windows_iff : ∀ {ws : List (Nat × Nat)} {lo hi n : Nat}, Consecutive lo hi ws →
    (windowsScan s q len ok ws n = apart len n ((occs s q lo hi).filter ok) ↔
      ∀ w ∈ ws, ∀ y ∈ apart len n ((occs s q lo hi).filter ok), w.1 ≤ y → y < w.2 → ∀ r, ¬ Hides s q len ok lo n w r y)
  | [], lo, hi, n, h => by
    obtain rfl : lo = hi := h
    rw [occs_eq_nil (Nat.le_refl lo), windowsScan]
    simp [apart]
  | w :: ws, lo, hi, n, ⟨hw, hle, hrest⟩ => by
    subst hw
    have hsplit : (occs s q w.1 hi).filter ok = (occs s q w.1 w.2).filter ok ++ (occs s q w.2 hi).filter ok := by
      rw [← occs_append s q hle hrest.le, List.filter_append]
    have hsorted := occs_sorted s q w.1 w.2
    have hfirst : ∀ y ∈ apart len n ((occs s q w.1 w.2).filter ok), w.1 ≤ y ∧ y < w.2 := fun y hy => by
      obtain ⟨h1, h2, -⟩ := mem_occs.1 (List.mem_of_mem_filter (apart_sub hy).1)
      exact ⟨h1, h2⟩
    have hlater : ∀ {m y}, y ∈ apart len m ((occs s q w.2 hi).filter ok) → w.2 ≤ y := fun hy =>
      (mem_occs.1 (List.mem_of_mem_filter (apart_sub hy).1)).1
    -- nothing is taken before the first window
    have hhides : ∀ r y, Hides s q len ok w.1 n w r y ↔
        r ∈ refused len ok w.1 n (occs s q w.1 w.2) ∧ r < y ∧ y < r + len := fun r y => by
      rw [Hides, occs_eq_nil (Nat.le_refl w.1), List.filter_nil, apartEnd, (scan_tried hsorted).2, List.mem_filter, and_assoc,
        Bool.not_eq_true']
    rw [hsplit, apart_append, windowsScan]
    constructor
    · intro heq
      obtain ⟨h1, h2⟩ := append_inj_at heq (fun x hx => (mem_occs.1 (scan_sub hx).1).2.1) (fun x hx => (hfirst x hx).2)
        (fun x hx => windowsScan_ge hrest hx) (fun x hx => hlater hx)
      -- what the first scan takes it does not hide
      have hclear : ∀ y ∈ apart len n ((occs s q w.1 w.2).filter ok), ∀ r ∈ refused len ok w.1 n (occs s q w.1 w.2),
          r < y → r + len ≤ y := fun y hy r hr => scan_not_hidden hsorted (by rw [h1]; exact hy) hr
      rw [@scan_eq_apart len ok _ hsorted w.1 n (fun y hy => ⟨(hfirst y hy).1, hclear y hy⟩)] at h2
      have ih := (windows_iff hrest).1 h2
      intro v hv y hy hvy hyv r hr
      rcases List.mem_cons.1 hv with rfl | hv
      · rcases List.mem_append.1 hy with hy | hy
        · obtain ⟨hr1, hr2, hr3⟩ := (hhides r y).1 hr
          have := hclear y hy r hr1 hr2
          omega
        · have := hlater hy
          omega
      · have hge := hrest.ge hv
        rcases List.mem_append.1 hy with hy | hy
        · have := (hfirst y hy).2
          omega
        · exact ih v hv y hy hvy hyv r ((hides_later hle hge).1 hr)
    · intro hnone
      have hclear : ∀ y ∈ apart len n ((occs s q w.1 w.2).filter ok), ∀ r ∈ refused len ok w.1 n (occs s q w.1 w.2),
          r < y → r + len ≤ y := fun y hy r hr hlt => by
        have := hnone w List.mem_cons_self y (List.mem_append_left _ hy) (hfirst y hy).1 (hfirst y hy).2 r
        rw [hhides] at this
        by_contra hlen
        exact this ⟨hr, hlt, by omega⟩
      rw [@scan_eq_apart len ok _ hsorted w.1 n (fun y hy => ⟨(hfirst y hy).1, hclear y hy⟩)]
      refine congrArg _ ((windows_iff hrest).2 (fun v hv y hy hvy hyv r hr => ?_))
      exact hnone v (List.mem_cons_of_mem w hv) y (List.mem_append_right _ hy) hvy hyv r ((hides_later hle (hrest.ge hv)).2 hr)

end

end Substr
