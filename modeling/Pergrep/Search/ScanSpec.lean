import Pergrep.Lib.Greedy
import Pergrep.Search.Fixed
/-!
# ScanSpec — what the literal scans find

`anchorFind` under case sensitivity is the first occurrence in its range (`anchorFind_spec`), whichever byte it looks
for first.  So a scan of a window pushes what `Substr.scan` takes of the occurrences in the window's core
(`scanWindow_pushes`), and a scan of a whole file the occurrences of the file.
-/
namespace Pergrep

open Substr Emit

/-! ## The anchor scan -/

theorem getElem?_slice {s : Bytes} {b e i : Nat} : (slice s b e)[i]? = if b + i < e then s[b + i]? else none := by
  rw [slice, List.getElem?_drop, List.getElem?_take]

theorem length_slice (s : Bytes) (b e : Nat) : (slice s b e).length = min e s.length - b := by
  rw [slice, List.length_drop, List.length_take]

theorem memchr_some {s : Bytes} {b : UInt8} {lo hi x : Nat} (h : memchr s b lo hi = some x) :
    lo ≤ x ∧ x < hi ∧ s[x]? = some b ∧ ∀ y, lo ≤ y → y < x → s[y]? ≠ some b := by
  obtain ⟨i, hi', rfl⟩ := Option.map_eq_some_iff.1 h
  obtain ⟨hlt, heq, hmin⟩ := List.findIdx?_eq_some_iff_getElem.1 hi'
  have hget : (slice s lo hi)[i]? = some b := by
    rw [List.getElem?_eq_getElem hlt]
    simpa using heq
  rw [getElem?_slice] at hget
  split at hget
  · rename_i hin
    refine ⟨by omega, by omega, by rwa [Nat.add_comm], fun y h1 h2 hy => ?_⟩
    have hj : y - lo < i := by omega
    have := hmin (y - lo) hj
    have hget' : (slice s lo hi)[y - lo]? = some b := by
      rw [getElem?_slice, if_pos (by omega), show lo + (y - lo) = y by omega, hy]
    rw [List.getElem?_eq_getElem (by omega)] at hget'
    simp only [Option.some.injEq] at hget'
    simp [hget'] at this
  · cases hget

theorem memchr_none {s : Bytes} {b : UInt8} {lo hi : Nat} (h : memchr s b lo hi = none) :
    ∀ y, lo ≤ y → y < hi → s[y]? ≠ some b := by
  rw [memchr, Option.map_eq_none_iff, List.findIdx?_eq_none_iff] at h
  intro y h1 h2 hy
  have hmem : b ∈ slice s lo hi := by
    rw [List.mem_iff_getElem?]
    exact ⟨y - lo, by rw [getElem?_slice, if_pos (by omega), show lo + (y - lo) = y by omega, hy]⟩
  have := h b hmem
  simp at this

theorem occursAt_anchor {s q : Bytes} {anchor x : Nat} (ha : anchor < q.length) (h : occursAt s q x = true) :
    s[x + anchor]? = some (q.getD anchor 0) := by
  rw [((occursAt_iff_getElem s q x).1 h).2 anchor ha, List.getD_eq_getElem?_getD, List.getElem?_eq_getElem ha]
  rfl

/-- **The anchor loop finds the first occurrence.** -/
theorem anchorLoop_spec {s q : Bytes} {anchor : Nat} (ha : anchor < q.length) (hi : Nat) : ∀ (fuel lo : Nat),
    anchor ≤ lo → hi - lo < fuel →
      (∀ x, anchorLoop s q anchor hi fuel lo = some x → lo ≤ x + anchor ∧ x + anchor < hi ∧ occursAt s q x = true ∧
        ∀ y, lo ≤ y + anchor → y < x → occursAt s q y = false) ∧
      (anchorLoop s q anchor hi fuel lo = none → ∀ y, lo ≤ y + anchor → y + anchor < hi → occursAt s q y = false)
  | 0, _, _, h => absurd h (Nat.not_lt_zero _)
  | fuel + 1, lo, hlo, hfuel => by
    rw [anchorLoop]
    -- no occurrence has its anchor before the next anchor byte
    have hskip : ∀ {bound : Nat}, (∀ y, lo ≤ y → y < bound → s[y]? ≠ some (q.getD anchor 0)) →
        ∀ y, lo ≤ y + anchor → y + anchor < bound → occursAt s q y = false := by
      intro bound hb y h1 h2
      rw [Bool.eq_false_iff]
      intro ho
      exact hb _ h1 h2 (occursAt_anchor ha ho)
    by_cases hlt : lo < hi
    · rw [if_pos hlt]
      cases hm : memchr s (q.getD anchor 0) lo hi with
      | none =>
        exact ⟨fun x hx => (by cases hx), fun _ y h1 h2 => hskip (memchr_none hm) y h1 h2⟩
      | some apos =>
        obtain ⟨h1, h2, h3, h4⟩ := memchr_some hm
        simp only
        by_cases ho : occursAt s q (apos - anchor) = true
        · rw [if_pos ho]
          refine ⟨fun x hx => ?_, fun hn => by cases hn⟩
          cases hx
          exact ⟨by omega, by omega, ho, fun y hy1 hy2 => hskip h4 y hy1 (by omega)⟩
        · rw [if_neg ho]
          obtain ⟨ih1, ih2⟩ := anchorLoop_spec ha hi fuel (apos + 1) (by omega) (by omega)
          have hat : ∀ y, lo ≤ y + anchor → y + anchor < apos + 1 → occursAt s q y = false := by
            intro y hy1 hy2
            rcases Nat.lt_or_ge (y + anchor) apos with hy | hy
            · exact hskip h4 y hy1 hy
            · rw [show y = apos - anchor by omega]
              simpa using ho
          refine ⟨fun x hx => ?_, fun hn y hy1 hy2 => ?_⟩
          · obtain ⟨i1, i2, i3, i4⟩ := ih1 x hx
            refine ⟨by omega, i2, i3, fun y hy1 hy2 => ?_⟩
            rcases Nat.lt_or_ge (y + anchor) (apos + 1) with hy | hy
            · exact hat y hy1 hy
            · exact i4 y hy hy2
          · rcases Nat.lt_or_ge (y + anchor) (apos + 1) with hy | hy
            · exact hat y hy1 hy
            · exact ih2 hn y hy hy2
    · rw [if_neg hlt]
      exact ⟨fun x hx => (by cases hx), fun _ y h1 h2 => (by omega)⟩

theorem chooseRareByte_lt (I : IndexData) {q : Bytes} (hq : q ≠ []) : chooseRareByte I q < q.length := by
  have hfold : ∀ (l : List (UInt8 × Nat)) (b : Nat × Option Nat), (∀ x ∈ l, x.2 < q.length) → b.1 < q.length →
      (l.foldl (rareStep I) b).1 < q.length := by
    intro l
    induction l with
    | nil => exact fun _ _ hb => hb
    | cons x l ih =>
      intro b hl hb
      refine ih _ (fun y hy => hl y (List.mem_cons_of_mem _ hy)) ?_
      have hx := hl x List.mem_cons_self
      unfold rareStep
      simp only
      split
      · exact hx
      · split
        · exact hx
        · exact hb
  refine hfold _ _ (fun x hx => ?_) (List.length_pos_iff.2 hq)
  obtain ⟨-, hlt, -⟩ := List.mem_zipIdx hx
  simpa using hlt

section
variable (icu : Icu)

/-- **The first occurrence that starts in the range**, with its end. -/
theorem anchorFind_spec {s q : Bytes} (hq : q ≠ []) {anchor : Nat} (ha : anchor < q.length) (start maxStart : Nat) :
    (∀ x e, anchorFind icu s q anchor start maxStart false = some (x, e) →
      e = x + q.length ∧ occs s q start maxStart = x :: occs s q (x + 1) maxStart ∧ start ≤ x ∧ x < maxStart) ∧
    (anchorFind icu s q anchor start maxStart false = none → occs s q start maxStart = []) := by
  have hempty : q.isEmpty = false := by simpa using hq
  have hlen := List.length_pos_iff.2 hq
  unfold anchorFind
  rw [hempty]
  simp only [Bool.false_eq_true, if_false, Bool.not_false, true_and]
  by_cases hshort : s.length < q.length
  · rw [if_pos hshort]
    refine ⟨fun x e h => (by cases h), fun _ => ?_⟩
    rw [List.eq_nil_iff_forall_not_mem]
    intro x hx
    have := occursAt_le (mem_occs.1 hx).2.2
    omega
  · rw [if_neg hshort]
    -- an occurrence starts early enough to end in the text
    have hbound : ∀ {y}, occursAt s q y = true → y < s.length - q.length + 1 := fun ho => by
      have := occursAt_le ho
      omega
    by_cases hrange : min maxStart (s.length - q.length + 1) ≤ start
    · rw [if_pos hrange]
      refine ⟨fun x e h => (by cases h), fun _ => ?_⟩
      rw [List.eq_nil_iff_forall_not_mem]
      intro x hx
      obtain ⟨h1, h2, h3⟩ := mem_occs.1 hx
      have := hbound h3
      omega
    · rw [if_neg hrange]
      obtain ⟨h1, h2⟩ := anchorLoop_spec (s := s) ha (min maxStart (s.length - q.length + 1) + anchor)
        (min maxStart (s.length - q.length + 1) + anchor + 1) (start + anchor) (by omega) (by omega)
      constructor
      · intro x e h
        obtain ⟨y, hy, hxe⟩ := Option.map_eq_some_iff.1 h
        cases hxe
        obtain ⟨i1, i2, i3, i4⟩ := h1 x hy
        exact ⟨rfl, occs_cons (by omega) (by omega) i3 (fun y hy1 hy2 => i4 y (by omega) hy2), by omega, by omega⟩
      · intro h
        have hnone := h2 (by simpa using h)
        rw [List.eq_nil_iff_forall_not_mem]
        intro x hx
        obtain ⟨j1, j2, j3⟩ := mem_occs.1 hx
        have := hbound j3
        rw [hnone x (by omega) (by omega)] at j3
        cases j3

/-! ## Windows -/

def literalMatch (fid len x : Nat) : Match := { fileId := fid, start := x, stop := x + len }

def windowOccs (v q : Bytes) (base lo hi : Nat) : List Nat := (occs v q lo hi).map (base + ·)

theorem windowOccs_sorted (v q : Bytes) (base lo hi : Nat) : (windowOccs v q base lo hi).Pairwise (· < ·) :=
  List.Pairwise.map _ (fun _ _ h => Nat.add_lt_add_left h base) (occs_sorted v q lo hi)

theorem scan_windowOccs {v q : Bytes} {len base lo lo' hi pos n : Nat} {ok : Nat → Bool} (h1 : lo ≤ lo')
    (h2 : base + lo' ≤ pos) :
    scan len ok pos n (windowOccs v q base lo hi) = scan len ok pos n (windowOccs v q base lo' hi) := by
  rcases Nat.le_total lo' hi with h3 | h3
  · rw [windowOccs, windowOccs, ← occs_append v q h1 h3, List.map_append]
    refine scan_drop (fun x hx => ?_)
    obtain ⟨y, hy, rfl⟩ := List.mem_map.1 hx
    have := (mem_occs.1 hy).2.1
    omega
  · have hnil : windowOccs v q base lo' hi = [] := by rw [windowOccs, occs_eq_nil h3]; rfl
    rw [hnil, ← List.append_nil (windowOccs v q base lo hi)]
    refine scan_drop (fun x hx => ?_)
    obtain ⟨y, hy, rfl⟩ := List.mem_map.1 hx
    have := (mem_occs.1 hy).2.1
    omega

variable (I : IndexData) (p : Pattern) (opt : SearchOptions)

/-- **One pass over a window**: the next occurrence of the core, or the end. -/
theorem windowStep_cases (hq : p.expr ≠ []) (fid base : Nat) (v : Bytes) (maxStart : Nat) (ok : Nat → Nat → Bool)
    (pos : Nat) (next : Nat → Nat) :
    (windowOccs v p.expr base pos maxStart = [] ∧
        windowStep icu I p opt fid base v maxStart false ok (pos, next) = none) ∨
      ∃ x, pos ≤ x ∧ x < maxStart ∧
        windowOccs v p.expr base pos maxStart = (base + x) :: windowOccs v p.expr base (x + 1) maxStart ∧
        windowStep icu I p opt fid base v maxStart false ok (pos, next) =
          if ok (base + x) (base + x + p.expr.length) then
            if opt.overlapping then some (some (literalMatch fid p.expr.length (base + x)), x + 1, next)
            else if base + x < next fid then some (none, x + 1, next)
            else some (some (literalMatch fid p.expr.length (base + x)), x + p.expr.length,
              Function.update next fid (base + x + p.expr.length))
          else some (none, x + (if opt.overlapping then 1 else p.expr.length), next) := by
  have hlen := List.length_pos_iff.2 hq
  unfold windowStep
  simp only
  by_cases hpos : pos < maxStart
  · rw [if_pos hpos]
    obtain ⟨hsome, hnone⟩ := anchorFind_spec icu (s := v) hq (chooseRareByte_lt I hq) pos maxStart
    cases ha : anchorFind icu v p.expr (chooseRareByte I p.expr) pos maxStart false with
    | none =>
      left
      rw [windowOccs, hnone ha]
      exact ⟨rfl, rfl⟩
    | some xe =>
      obtain ⟨x, e⟩ := xe
      obtain ⟨rfl, hocc, hx1, hx2⟩ := hsome x e ha
      have hadv : max 1 (x + p.expr.length - x) = p.expr.length := by omega
      refine Or.inr ⟨x, hx1, hx2, by rw [windowOccs, hocc]; rfl, ?_⟩
      simp only [advanceBy, hadv, literalMatch, ← Nat.add_assoc]
  · rw [if_neg hpos]
    left
    rw [windowOccs, occs_eq_nil (Nat.le_of_not_lt hpos)]
    exact ⟨rfl, rfl⟩

/-- **The loop over a window takes what `scan` takes.** -/
theorem windowLoop (hq : p.expr ≠ []) (hov : opt.overlapping = false) (fid base : Nat) (v : Bytes) (maxStart : Nat)
    (ok : Nat → Nat → Bool) : ∀ (fuel pos : Nat) (next : Nat → Nat), maxStart - pos < fuel →
      loopEmits (windowStep icu I p opt fid base v maxStart false ok) fuel (pos, next) =
          (scan p.expr.length (fun x => ok x (x + p.expr.length)) (base + pos) (next fid)
            (windowOccs v p.expr base pos maxStart)).1.map (literalMatch fid p.expr.length) ∧
        (loopEnd (windowStep icu I p opt fid base v maxStart false ok) fuel (pos, next)).2 =
          Function.update next fid (scan p.expr.length (fun x => ok x (x + p.expr.length)) (base + pos) (next fid)
            (windowOccs v p.expr base pos maxStart)).2
  | 0, _, _, h => absurd h (Nat.not_lt_zero _)
  | fuel + 1, pos, next, hfuel => by
    have hlen := List.length_pos_iff.2 hq
    rcases windowStep_cases icu I p opt hq fid base v maxStart ok pos next with ⟨hnil, hstep⟩ | ⟨x, hx1, hx2, hlist, hstep⟩
    · rw [loopEmits, loopEnd, hstep, hnil]
      simp [scan]
    · have hnot : ¬ base + x < base + pos := by omega
      rw [hov] at hstep
      simp only [Bool.false_eq_true, if_false] at hstep
      rw [loopEmits, loopEnd, hlist, scan, if_neg hnot]
      by_cases hok : ok (base + x) (base + x + p.expr.length) = true
      · rw [if_pos hok] at hstep ⊢
        by_cases hlt : base + x < next fid
        · rw [if_pos hlt] at hstep ⊢
          rw [hstep]
          exact windowLoop hq hov fid base v maxStart ok fuel (x + 1) next (by omega)
        · rw [if_neg hlt] at hstep ⊢
          obtain ⟨ih1, ih2⟩ := windowLoop hq hov fid base v maxStart ok fuel (x + p.expr.length)
            (Function.update next fid (base + x + p.expr.length)) (by omega)
          rw [Function.update_self, ← scan_windowOccs (show x + 1 ≤ x + p.expr.length by omega) (Nat.le_refl _),
            ← Nat.add_assoc] at ih1 ih2
          rw [Function.update_idem] at ih2
          rw [hstep]
          exact ⟨congrArg₂ List.cons rfl ih1, ih2⟩
      · rw [if_neg hok] at hstep ⊢
        obtain ⟨ih1, ih2⟩ := windowLoop hq hov fid base v maxStart ok fuel (x + p.expr.length) next (by omega)
        rw [← scan_windowOccs (show x + 1 ≤ x + p.expr.length by omega) (Nat.le_refl _), ← Nat.add_assoc] at ih1 ih2
        rw [hstep]
        exact ⟨ih1, ih2⟩

theorem windowLoop_overlapping (hq : p.expr ≠ []) (hov : opt.overlapping = true) (fid base : Nat) (v : Bytes)
    (maxStart : Nat) (ok : Nat → Nat → Bool) : ∀ (fuel pos : Nat) (next : Nat → Nat), maxStart - pos < fuel →
      loopEmits (windowStep icu I p opt fid base v maxStart false ok) fuel (pos, next) =
          ((windowOccs v p.expr base pos maxStart).filter (fun x => ok x (x + p.expr.length))).map
            (literalMatch fid p.expr.length) ∧
        (loopEnd (windowStep icu I p opt fid base v maxStart false ok) fuel (pos, next)).2 = next
  | 0, _, _, h => absurd h (Nat.not_lt_zero _)
  | fuel + 1, pos, next, hfuel => by
    rcases windowStep_cases icu I p opt hq fid base v maxStart ok pos next with ⟨hnil, hstep⟩ | ⟨x, hx1, hx2, hlist, hstep⟩
    · rw [loopEmits, loopEnd, hstep, hnil]
      simp
    · obtain ⟨ih1, ih2⟩ := windowLoop_overlapping hq hov fid base v maxStart ok fuel (x + 1) next (by omega)
      rw [hov] at hstep
      simp only [if_true] at hstep
      rw [loopEmits, loopEnd, hlist, List.filter_cons]
      by_cases hok : ok (base + x) (base + x + p.expr.length) = true
      · rw [if_pos hok] at hstep ⊢
        rw [hstep]
        exact ⟨congrArg₂ List.cons rfl ih1, ih2⟩
      · rw [if_neg hok] at hstep ⊢
        rw [hstep]
        exact ⟨ih1, ih2⟩

/-- **A scan of a window chooses among its occurrences**, when none is refused. -/
theorem scanWindow_pushes (hq : p.expr ≠ []) (fid base : Nat) (v : Bytes) (maxStart : Nat) (ok : Nat → Nat → Bool)
    (hok : ∀ x, ok x (x + p.expr.length) = true) (next : Nat → Nat) :
    Pushes (fun full out => scanWindow icu I p opt full fid base v maxStart false ok next out)
      ((chosen opt.overlapping p.expr.length (next fid) (windowOccs v p.expr base 0 maxStart)).1.map
        (literalMatch fid p.expr.length))
      (Function.update next fid
        (chosen opt.overlapping p.expr.length (next fid) (windowOccs v p.expr base 0 maxStart)).2) := by
  intro full out
  obtain ⟨h1, h2⟩ := loop_pushes (windowStep icu I p opt fid base v maxStart false ok) (maxStart + 1) (0, next) full out
  cases hov : opt.overlapping with
  | false =>
    obtain ⟨e1, e2⟩ := windowLoop icu I p opt hq hov fid base v maxStart ok (maxStart + 1) 0 next (by omega)
    have hscan := @scan_all p.expr.length (fun x => ok x (x + p.expr.length)) _ (fun x _ => hok x)
      (windowOccs_sorted v p.expr base 0 maxStart) (base + 0) (next fid) (fun x hx => by
        obtain ⟨y, -, rfl⟩ := List.mem_map.1 hx
        exact Or.inl (by omega))
    rw [hscan] at e1 e2
    rw [e1] at h1 h2
    simp only [chosen, Bool.false_eq_true, if_false]
    exact ⟨h1, fun hf => (congrArg Prod.snd (h2 hf)).trans e2⟩
  | true =>
    obtain ⟨e1, e2⟩ := windowLoop_overlapping icu I p opt hq hov fid base v maxStart ok (maxStart + 1) 0 next (by omega)
    rw [List.filter_eq_self.2 (fun x _ => hok x)] at e1
    rw [e1] at h1 h2
    simp only [chosen, if_true, Function.update_eq_self]
    exact ⟨h1, fun hf => (congrArg Prod.snd (h2 hf)).trans e2⟩

/-! ## Whole files -/

/-- **The loop over a whole file** steps over each occurrence it comes to, and takes those that pass the test. -/
theorem wholeFileLoop (hq : p.expr ≠ []) (hcase : p.icase = false) (fid : Nat) : ∀ (fuel pos : Nat),
    (I.data fid).length - pos < fuel →
      loopEmits (wholeFileStep icu I p opt fid) fuel pos =
        ((chosen opt.overlapping p.expr.length pos (occs (I.data fid) p.expr pos (I.data fid).length)).1.filter
          (fun x => boundaryOk icu p.opt opt.recordSeparator (I.data fid) x (x + p.expr.length))).map
            (literalMatch fid p.expr.length)
  | 0, _, h => absurd h (Nat.not_lt_zero _)
  | fuel + 1, pos, hfuel => by
    have hempty : p.expr.isEmpty = false := by simpa using hq
    have hlen := List.length_pos_iff.2 hq
    rw [loopEmits, wholeFileStep]
    simp only [hempty, hcase, Bool.false_eq_true, if_false, Nat.add_zero]
    by_cases hpos : pos < (I.data fid).length
    · rw [if_pos hpos]
      obtain ⟨hsome, hnone⟩ := anchorFind_spec icu (s := I.data fid) hq (chooseRareByte_lt I hq) pos (I.data fid).length
      cases ha : anchorFind icu (I.data fid) p.expr (chooseRareByte I p.expr) pos (I.data fid).length false with
      | none =>
        rw [hnone ha, chosen_nil]
        rfl
      | some xe =>
        obtain ⟨x, e⟩ := xe
        obtain ⟨rfl, hocc, hx1, hx2⟩ := hsome x e ha
        -- the choice goes on where the loop does
        have hchosen : (chosen opt.overlapping p.expr.length pos (occs (I.data fid) p.expr pos (I.data fid).length)).1 =
            x :: (chosen opt.overlapping p.expr.length (x + advanceBy opt.overlapping x (x + p.expr.length))
              (occs (I.data fid) p.expr (x + advanceBy opt.overlapping x (x + p.expr.length)) (I.data fid).length)).1 := by
          rw [hocc]
          cases opt.overlapping with
          | true  => rfl
          | false =>
            have hadv : max 1 (x + p.expr.length - x) = p.expr.length := by omega
            simp only [chosen, advanceBy, Bool.false_eq_true, if_false, hadv]
            rw [apart, if_neg (by omega), apart_occs (by omega : x + 1 ≤ x + p.expr.length) (Nat.le_refl _)]
        rw [hchosen, List.filter_cons]
        have hadv : 0 < advanceBy opt.overlapping x (x + p.expr.length) := by
          rw [advanceBy]
          split
          · exact Nat.zero_lt_one
          · omega
        simp only
        rw [wholeFileLoop hq hcase fid fuel _ (by omega)]
        split
        · rfl
        · rfl
    · rw [if_neg hpos, occs_eq_nil (Nat.le_of_not_lt hpos), chosen_nil]
      rfl

end

/-! ## Slices -/

theorem occursAt_slice {s q : Bytes} {b e x : Nat} (hq : q ≠ []) :
    occursAt (slice s b e) q x = true ↔ occursAt s q (b + x) = true ∧ b + x + q.length ≤ e := by
  have hlen := List.length_pos_iff.2 hq
  rw [occursAt_iff_getElem, occursAt_iff_getElem, length_slice]
  constructor
  · rintro ⟨h1, h2⟩
    have hin : ∀ i, i < q.length → b + (x + i) < e ∧ s[b + (x + i)]? = q[i]? := fun i hi => by
      have := h2 i hi
      rw [getElem?_slice] at this
      split at this
      · exact ⟨‹_›, this⟩
      · rw [List.getElem?_eq_getElem hi] at this
        cases this
    have hlast := (hin (q.length - 1) (by omega)).1
    have hfirst := (hin 0 hlen).2
    rw [List.getElem?_eq_getElem hlen] at hfirst
    have hlt := (List.getElem?_eq_some_iff.1 hfirst).1
    exact ⟨⟨by omega, fun i hi => by rw [Nat.add_assoc]; exact (hin i hi).2⟩, by omega⟩
  · rintro ⟨⟨h1, h2⟩, h3⟩
    refine ⟨by omega, fun i hi => ?_⟩
    rw [getElem?_slice, if_pos (by omega), ← Nat.add_assoc]
    exact h2 i hi

theorem windowOccs_slice_filter {s q : Bytes} (b e m : Nat) (hq : q ≠ []) :
    windowOccs (slice s b e) q b 0 m = (occs s q b (b + m)).filter (fun x => x + q.length ≤ e) := by
  refine sorted_ext (windowOccs_sorted _ _ _ _ _) ((occs_sorted _ _ _ _).filter _) (fun x => ?_)
  rw [windowOccs, List.mem_map, List.mem_filter, mem_occs, decide_eq_true_eq]
  constructor
  · rintro ⟨y, hy, rfl⟩
    obtain ⟨-, h2, h3⟩ := mem_occs.1 hy
    obtain ⟨h4, h5⟩ := (occursAt_slice hq).1 h3
    exact ⟨⟨by omega, by omega, h4⟩, h5⟩
  · rintro ⟨⟨h1, h2, h3⟩, h4⟩
    refine ⟨x - b, mem_occs.2 ⟨Nat.zero_le _, by omega, (occursAt_slice hq).2 ?_⟩, by omega⟩
    rw [show b + (x - b) = x by omega]
    exact ⟨h3, h4⟩

theorem windowOccs_slice {s q : Bytes} {b e m : Nat} (hq : q ≠ [])
    (hin : ∀ x, b ≤ x → x < b + m → occursAt s q x = true → x + q.length ≤ e) :
    windowOccs (slice s b e) q b 0 m = occs s q b (b + m) := by
  rw [windowOccs_slice_filter b e m hq, List.filter_eq_self]
  intro x hx
  obtain ⟨h1, h2, h3⟩ := mem_occs.1 hx
  exact decide_eq_true (hin x h1 h2 h3)

end Pergrep
