import Pergrep.Regex.Sim
/-!
# SimSpec — what one call of `add_nfa_thread` does

`threadClosure pos t` is what a thread expands to at a position when nothing is marked.  Whatever is marked, and
whether the tables are used or not, `addNfaThread` appends the part of it whose instructions are not in the list yet
(`addNfaThread_spec`): the list is kept free of duplicates, in order of preference.

The marks are right for a list at a position (`MarksAt`) when the marked instructions that wait or accept are those of
the list's threads, and, where the search marks the instructions it passes through, the marks are closed under
expansion at that position.
-/
namespace Pergrep

open Worklist

section
variable (icu : Icu) (p : RegexProgram) (c : VerifierContext)

/-- The instructions an instruction expands to at a position. -/
def threadSucc (pos k : Nat) : Option (List (Option Nat)) :=
  (threadNext icu p c pos { pc := some k, start := 0 }).map (List.map (threadKey p))

def stays (k : Nat) : Bool :=
  match p.nfa[k]? with
  | some i =>
    match i.op with
    | .rune _ | .any | .cls _ | .match_ => true
    | _ => false
  | none => false

def threadClosure (pos : Nat) (t : NfaThread) : List NfaThread :=
  (run (threadKey p) (threadNext icu p c pos) (fun V k => V.contains k) (fun V k => k :: V) (expandFuel p.nfa) [t]
    ([] : List Nat) []).2

variable {icu p c}

theorem pcKey_eq_some {nfa : Prog} {pc : Option Nat} {k : Nat} : pcKey nfa pc = some k ↔ pc = some k ∧ k < nfa.length := by
  unfold pcKey
  rw [Option.filter_eq_some_iff, decide_eq_true_eq]

theorem threadKey_eq_some {t : NfaThread} {k : Nat} : threadKey p t = some k ↔ t.pc = some k ∧ k < p.nfa.length :=
  pcKey_eq_some

theorem inst_of_key {t : NfaThread} {k : Nat} (h : threadKey p t = some k) :
    ∃ i, p.nfa[k]? = some i ∧ t.inst p = some i := by
  obtain ⟨hpc, hk⟩ := threadKey_eq_some.1 h
  refine ⟨p.nfa[k], List.getElem?_eq_getElem hk, ?_⟩
  rw [NfaThread.inst, hpc, Option.bind_some, List.getElem?_eq_getElem hk]

theorem threadNext_keyGraph (pos : Nat) : KeyGraph (threadKey p) (threadNext icu p c pos) (threadSucc icu p c pos) := by
  intro t k hk
  obtain ⟨i, hi, hti⟩ := inst_of_key hk
  have hki : NfaThread.inst p { pc := some k, start := 0 } = some i := by
    rw [NfaThread.inst, Option.bind_some, hi]
  unfold threadSucc threadNext
  rw [hti, hki]
  simp only
  cases i.op <;> try rfl
  simp only [Option.map_some]
  split <;> rfl

theorem threadNext_none_iff {pos : Nat} {t : NfaThread} {k : Nat} (hk : threadKey p t = some k) :
    threadNext icu p c pos t = none ↔ stays p k = true := by
  obtain ⟨i, hi, hti⟩ := inst_of_key hk
  unfold threadNext stays
  rw [hti, hi]
  simp only
  cases i.op <;> simp

theorem threadSucc_none_iff {pos k : Nat} (hk : k < p.nfa.length) :
    threadSucc icu p c pos k = none ↔ stays p k = true := by
  unfold threadSucc
  rw [Option.map_eq_none_iff]
  exact threadNext_none_iff (threadKey_eq_some.2 ⟨rfl, hk⟩)

theorem threadNext_length {pos : Nat} {t : NfaThread} {us : List NfaThread} (h : threadNext icu p c pos t = some us) :
    us.length ≤ 2 := by
  unfold threadNext at h
  split at h
  · cases h; simp
  · split at h <;> cases h
    · simp
    · simp
    · simp
    · simp
    · split <;> simp

theorem threadKey_lt {t : NfaThread} {k : Nat} (h : threadKey p t = some k) : k < p.nfa.length :=
  (threadKey_eq_some.1 h).2

/-! ## The closure of a thread -/

variable (icu p c) in
theorem threadClosure_explores (pos : Nat) (t : NfaThread) :
    ∃ U, Explores (threadKey p) (threadNext icu p c pos) ∅ [t] U (threadClosure icu p c pos t) := by
  have hfuel : [t].length + 2 * unmarked (fun (V : List Nat) k => V.contains k) p.nfa.length [] < expandFuel p.nfa := by
    have := unmarked_le (fun (V : List Nat) k => V.contains k) p.nfa.length []
    simp only [List.length_singleton, expandFuel]
    omega
  obtain ⟨out, h1, -, h3⟩ := run_explores (threadKey p) (threadNext icu p c pos)
    (fun (V : List Nat) k => V.contains k) (fun V k => k :: V) (fun _ => True) (n := p.nfa.length)
    (fun _ _ h => threadKey_lt h) (fun s k _ _ => ⟨trivial, fun j => by simp⟩) (fun _ _ h => threadNext_length h)
    (expandFuel p.nfa) [t] [] [] trivial hfuel
  rw [List.nil_append] at h1
  unfold threadClosure
  rw [h1]
  have hempty : ({k | ([] : List Nat).contains k = true} : Set Nat) = ∅ := by ext; simp
  rw [hempty] at h3
  exact ⟨_, h3⟩

theorem child_start {pos : Nat} {t u : NfaThread}
    (h : Relation.ReflTransGen (Child (threadKey p) (threadNext icu p c pos)) t u) :
    u.start = t.start ∧ (t.caps = [] → u.caps = []) := by
  induction h with
  | refl => exact ⟨rfl, id⟩
  | tail _ hab ih =>
    obtain ⟨-, us, hn, hu⟩ := hab
    unfold threadNext at hn
    split at hn
    · cases hn; cases hu
    · split at hn
      · cases hn
        obtain rfl := List.mem_singleton.1 hu
        exact ih
      · cases hn
        rcases List.mem_cons.1 hu with rfl | hu
        · exact ih
        · obtain rfl := List.mem_singleton.1 hu
          exact ih
      · cases hn
        obtain rfl := List.mem_singleton.1 hu
        exact ⟨ih.1, fun h => by simp [NfaThread.goto, NfaThread.saveStart, ih.2 h]⟩
      · cases hn
        obtain rfl := List.mem_singleton.1 hu
        exact ⟨ih.1, fun h => by simp [NfaThread.goto, NfaThread.saveEnd, ih.2 h]⟩
      · cases hn
        split at hu
        · obtain rfl := List.mem_singleton.1 hu
          exact ih
        · cases hu
      all_goals cases hn

theorem mem_threadClosure {pos : Nat} {t u : NfaThread} (h : u ∈ threadClosure icu p c pos t) :
    ∃ k, u.pc = some k ∧ k < p.nfa.length ∧ stays p k = true ∧ u.start = t.start ∧ (t.caps = [] → u.caps = []) ∧
      Relation.ReflTransGen (Child (threadKey p) (threadNext icu p c pos)) t u := by
  obtain ⟨U, hU⟩ := threadClosure_explores icu p c pos t
  obtain ⟨hn, ⟨k, hk, -, -⟩, t', ht', hr⟩ := hU.sound u h
  obtain rfl := List.mem_singleton.1 ht'
  obtain ⟨hpc, hlt⟩ := threadKey_eq_some.1 hk
  exact ⟨k, hpc, hlt, (threadNext_none_iff hk).1 hn, (child_start hr).1, (child_start hr).2, hr⟩

variable (icu p c) in
theorem threadClosure_nodup (pos : Nat) (t : NfaThread) :
    ((threadClosure icu p c pos t).map (threadKey p)).Nodup := by
  obtain ⟨U, hU⟩ := threadClosure_explores icu p c pos t
  exact hU.nodup

/-- **Every instruction a thread can reach without reading is in its closure.** -/
theorem threadClosure_complete {pos : Nat} {t u : NfaThread} {k : Nat}
    (h : Relation.ReflTransGen (Child (threadKey p) (threadNext icu p c pos)) t u) (hk : threadKey p u = some k)
    (hs : stays p k = true) : ∃ u' ∈ threadClosure icu p c pos t, u'.pc = some k := by
  obtain ⟨U, hU⟩ := threadClosure_explores icu p c pos t
  have := hU.complete (threadNext_keyGraph pos) Closed.empty (List.mem_singleton_self t) h hk
    ((threadNext_none_iff hk).2 hs)
  rcases this with h | ⟨u', hu', hk'⟩
  · exact absurd h (Set.notMem_empty k)
  · exact ⟨u', hu', (threadKey_eq_some.1 hk').1⟩

/-! ## The tables -/

variable (p) in
/-- The tables are those `build_nfa_closures` makes. -/
def RegexProgram.Tables : Prop := (p.closureOffsets, p.closurePcs) = buildNfaClosures p.groups p.nfa

variable (p) in
def RegexProgram.tabled : Bool := p.closureOffsets.length == p.nfa.length + 1

theorem closureRows_spec (nfa : Prog) : ∀ (sources offsets pcs : List Nat) {o q : List Nat},
    closureRows nfa sources offsets pcs = some (o, q) → offsets.getLast? = some pcs.length →
    offsets <+: o ∧ pcs <+: q ∧ o.length = offsets.length + sources.length ∧
      ∀ i (hi : i < sources.length), ∃ lo hi', o[offsets.length - 1 + i]? = some lo ∧
        o[offsets.length + i]? = some hi' ∧ (q.take hi').drop lo = closureRow nfa sources[i]
  | [], offsets, pcs, o, q, h, _ => by
    cases h
    exact ⟨List.prefix_refl _, List.prefix_refl _, rfl, fun i hi => absurd hi (Nat.not_lt_zero _)⟩
  | s :: rest, offsets, pcs, o, q, h, hlast => by
    unfold closureRows at h
    simp only at h
    split at h
    · cases h
    · have hne : offsets ≠ [] := by rintro rfl; cases hlast
      have hpos := List.length_pos_iff.2 hne
      obtain ⟨ho, hq, hlen, hrows⟩ := closureRows_spec nfa rest _ _ h (by simp)
      have ho' : offsets <+: o := (List.prefix_append _ _).trans ho
      refine ⟨ho', (List.prefix_append _ _).trans hq, by simp at hlen ⊢; omega, fun i hi => ?_⟩
      cases i with
      | zero =>
        refine ⟨pcs.length, (pcs ++ closureRow nfa s).length, ?_, ?_, ?_⟩
        · rw [Nat.add_zero, List.prefix_iff_getElem?.1 ho' _ (by omega), ← List.getElem?_eq_getElem,
            ← List.getLast?_eq_getElem?, hlast]
        · rw [Nat.add_zero, List.prefix_iff_getElem?.1 ho _ (by simp)]
          simp
        · obtain ⟨r, rfl⟩ := hq
          rw [List.take_left, List.drop_left]
          rfl
      | succ i =>
        obtain ⟨lo, hi', h1, h2, h3⟩ := hrows i (by simpa using hi)
        refine ⟨lo, hi', ?_, ?_, by simpa using h3⟩
        · rw [← h1]
          congr 1
          simp
          omega
        · rw [← h2]
          congr 1
          simp
          omega

/-- **With tables, the row of an instruction is what they hold for it**, and the program has no captures, saves or
assertions. -/
theorem tables_row (ht : p.Tables) (h : p.tabled = true) {k : Nat} (hk : k < p.nfa.length) :
    ((p.closurePcs.take (p.closureOffsets.getD (k + 1) 0)).drop (p.closureOffsets.getD k 0)) = closureRow p.nfa k ∧
      p.groups = 0 ∧ ∀ i ∈ p.nfa, i.op.tabled = true := by
  unfold RegexProgram.Tables buildNfaClosures at ht
  unfold RegexProgram.tabled at h
  rw [beq_iff_eq] at h
  have hnil : (p.closureOffsets, p.closurePcs) ≠ ([], []) := by
    intro he
    rw [(Prod.mk.inj he).1] at h
    cases h
  split at ht
  · exact absurd ht hnil
  · rename_i hsmall
    split at ht
    · exact absurd ht hnil
    · rename_i hops
      cases hrows : closureRows p.nfa (List.range p.nfa.length) [0] [] with
      | none => rw [hrows] at ht; exact absurd ht hnil
      | some r =>
        rw [hrows, Option.getD_some] at ht
        obtain ⟨o, q⟩ := r
        obtain ⟨rfl, rfl⟩ := Prod.mk.inj ht
        obtain ⟨-, -, -, hspec⟩ := closureRows_spec p.nfa _ _ _ hrows rfl
        obtain ⟨lo, hi, h1, h2, h3⟩ := hspec k (by simpa using hk)
        simp only [List.length_singleton, Nat.sub_self, Nat.zero_add, List.getElem_range] at h1 h2 h3
        rw [Nat.add_comm] at h2
        refine ⟨?_, by omega, by simpa using hops⟩
        simp only [List.getD_eq_getElem?_getD, h1, h2, Option.getD_some, h3]

theorem map_some_filterMap : ∀ {l : List (Option Nat)}, (∀ o ∈ l, ∃ k, o = some k) → (l.filterMap id).map some = l
  | [], _ => rfl
  | o :: l, h => by
    obtain ⟨k, rfl⟩ := h o List.mem_cons_self
    have ih := map_some_filterMap (fun o ho => h o (List.mem_cons_of_mem _ ho))
    exact congrArg (some k :: ·) ih

variable (icu c) in
/-- **A row is the closure of the instruction**, the threads reduced to where they stand. -/
theorem closureRow_eq (hops : ∀ i ∈ p.nfa, i.op.tabled = true) (pos : Nat) (t : NfaThread) {k : Nat} (hpc : t.pc = some k) :
    (threadClosure icu p c pos t).map NfaThread.pc = (closureRow p.nfa k).map some := by
  obtain ⟨U, hU⟩ := threadClosure_explores icu p c pos t
  have hmap := hU.map (pcKey p.nfa) (closureNext p.nfa) NfaThread.pc (fun _ => rfl) (fun u hu => by
    obtain ⟨k', hk'⟩ := hu
    obtain ⟨i, hi, hti⟩ := inst_of_key hk'
    have hpc' := (threadKey_eq_some.1 hk').1
    have htab := hops i (List.mem_of_getElem? hi)
    unfold closureNext threadNext
    rw [hti, hpc', Option.bind_some, hi]
    simp only
    cases hop : i.op <;> simp only [hop, NfaOp.tabled, Bool.false_eq_true] at htab <;> rfl)
  have hfuel : [some k].length + 2 * unmarked (fun (visited : List Bool) k => visited.getD k false) p.nfa.length
      (List.replicate p.nfa.length false) < expandFuel p.nfa := by
    have := unmarked_le (fun (visited : List Bool) k => visited.getD k false) p.nfa.length
      (List.replicate p.nfa.length false)
    simp only [List.length_singleton, expandFuel]
    omega
  obtain ⟨out, h1, -, h3⟩ := run_explores (pcKey p.nfa) (closureNext p.nfa)
    (fun (visited : List Bool) k => visited.getD k false) (fun visited k => visited.set k true)
    (fun visited => visited.length = p.nfa.length) (n := p.nfa.length) (fun _ _ h => (pcKey_eq_some.1 h).2)
    (fun s k hs hk => ⟨by simpa using hs, fun j => by
      rw [List.getD_eq_getElem?_getD, List.getElem?_set, List.getD_eq_getElem?_getD]
      by_cases hj : k = j
      · subst hj; simp [hs, hk]
      · simp [hj, Ne.symm hj]⟩)
    (fun t us h => by
      unfold closureNext at h
      split at h
      · cases h; simp
      · split at h <;> cases h <;> simp)
    (expandFuel p.nfa) [some k] (List.replicate p.nfa.length false) [] (by simp) hfuel
  rw [List.nil_append] at h1
  have hempty : ({j | (List.replicate p.nfa.length false).getD j false = true} : Set Nat) = ∅ := by
    ext j
    simp only [List.getD_eq_getElem?_getD, List.getElem?_replicate, Set.mem_ofPred_eq, Set.mem_empty_iff_false, iff_false]
    split <;> simp
  rw [hempty] at h3
  rw [List.map_singleton, hpc] at hmap
  obtain ⟨-, hout⟩ := h3.det hmap
  rw [closureRow, h1, hout, map_some_filterMap]
  intro o ho
  obtain ⟨u, hu, rfl⟩ := List.mem_map.1 ho
  obtain ⟨j, hj, -⟩ := mem_threadClosure hu
  exact ⟨j, hj⟩

/-! ## The call -/

/-- The threads of `new` at instructions where the list has none, after it. -/
def enlist (list new : List NfaThread) : List NfaThread :=
  list ++ new.filter (fun t => !(list.map NfaThread.pc).contains t.pc)

variable (icu p c) in
/-- The marks of a generation, for a list at a position. -/
structure MarksAt (pos generation : Nat) (list : List NfaThread) (seen : List Nat) : Prop where
  length : seen.length = p.nfa.length
  closed : p.tabled = false → Closed (threadSucc icu p c pos) {k | seen.getD k 0 = generation}
  stays : ∀ k, stays p k = true → (seen.getD k 0 = generation ↔ ∃ t ∈ list, t.pc = some k)

variable (icu p c) in
/-- Marks that are closed under expansion in any case, for a list at a position. -/
structure ClosedMarks (pos generation : Nat) (list : List NfaThread) (seen : List Nat) : Prop where
  length : seen.length = p.nfa.length
  closed : Closed (threadSucc icu p c pos) {k | seen.getD k 0 = generation}
  stays : ∀ k, stays p k = true → (seen.getD k 0 = generation ↔ ∃ t ∈ list, t.pc = some k)

theorem mem_enlist {list new : List NfaThread} {t : NfaThread} (h : t ∈ enlist list new) : t ∈ list ∨ t ∈ new := by
  rcases List.mem_append.1 h with h | h
  · exact Or.inl h
  · exact Or.inr (List.mem_of_mem_filter h)

theorem exists_mem_enlist {list new : List NfaThread} {t : NfaThread} (h : t ∈ list ∨ t ∈ new) :
    ∃ u ∈ enlist list new, u.pc = t.pc := by
  rcases h with h | h
  · exact ⟨t, List.mem_append_left _ h, rfl⟩
  · by_cases hin : t.pc ∈ list.map NfaThread.pc
    · obtain ⟨u, hu, he⟩ := List.mem_map.1 hin
      exact ⟨u, List.mem_append_left _ hu, he⟩
    · exact ⟨t, List.mem_append_right _ (List.mem_filter.2 ⟨h, by simpa using hin⟩), rfl⟩

theorem stays_lt {k : Nat} (h : stays p k = true) : k < p.nfa.length := by
  by_contra hk
  simp [stays, List.getElem?_eq_none (Nat.le_of_not_lt hk)] at h

theorem foldl_addEntry (seed : NfaThread) (generation : Nat) : ∀ (row : List Nat) (list : List NfaThread) (seen : List Nat),
    row.Nodup → (∀ k ∈ row, k < seen.length) →
    (row.foldl (addEntry seed generation) (list, seen)).1 =
        list ++ (row.filter (fun k => !(seen.getD k 0 == generation))).map (fun k => { pc := some k, start := seed.start }) ∧
      (row.foldl (addEntry seed generation) (list, seen)).2.length = seen.length ∧
      ∀ k, (row.foldl (addEntry seed generation) (list, seen)).2.getD k 0 =
        if k ∈ row then generation else seen.getD k 0
  | [], list, seen, _, _ => by simp
  | k :: row, list, seen, hnd, hlt => by
    rw [List.nodup_cons] at hnd
    rw [List.foldl_cons]
    by_cases hk : seen.getD k 0 = generation
    · have hadd : addEntry seed generation (list, seen) k = (list, seen) := by
        unfold addEntry
        rw [if_pos (by simpa using hk)]
      obtain ⟨h1, h2, h3⟩ := foldl_addEntry seed generation row list seen hnd.2 (fun j hj => hlt j (List.mem_cons_of_mem _ hj))
      rw [hadd]
      refine ⟨by rw [h1, List.filter_cons_of_neg (by simpa using hk)], h2, fun j => ?_⟩
      rw [h3]
      by_cases hr : j ∈ row
      · rw [if_pos hr, if_pos (List.mem_cons_of_mem _ hr)]
      · rw [if_neg hr]
        by_cases hj : j = k
        · subst hj; rw [if_pos List.mem_cons_self, hk]
        · rw [if_neg (by simp [hj, hr])]
    · have hadd : addEntry seed generation (list, seen) k =
          (list ++ [{ pc := some k, start := seed.start }], seen.set k generation) := by
        unfold addEntry
        rw [if_neg (by simpa using hk)]
      have hget : ∀ j, (seen.set k generation).getD j 0 = if j = k then generation else seen.getD j 0 := by
        intro j
        rw [List.getD_eq_getElem?_getD, List.getElem?_set, List.getD_eq_getElem?_getD]
        by_cases hj : k = j
        · subst hj; simp [hlt k List.mem_cons_self]
        · simp [hj, Ne.symm hj]
      obtain ⟨h1, h2, h3⟩ := foldl_addEntry seed generation row (list ++ [{ pc := some k, start := seed.start }])
        (seen.set k generation) hnd.2 (fun j hj => by simpa using hlt j (List.mem_cons_of_mem _ hj))
      rw [hadd]
      refine ⟨?_, by simpa using h2, fun j => ?_⟩
      · rw [h1, List.filter_cons_of_pos (by simpa using hk), List.map_cons, List.append_assoc, List.singleton_append]
        congr 3
        refine List.filter_congr (fun j hj => ?_)
        rw [hget, if_neg (fun h : j = k => hnd.1 (h ▸ hj))]
      · rw [h3]
        by_cases hr : j ∈ row
        · rw [if_pos hr, if_pos (List.mem_cons_of_mem _ hr)]
        · rw [if_neg hr, hget]
          by_cases hj : j = k
          · subst hj; rw [if_pos rfl, if_pos List.mem_cons_self]
          · rw [if_neg hj, if_neg (by simp [hj, hr])]

theorem contains_pc_iff {pos generation : Nat} {list : List NfaThread} {seen : List Nat}
    (hstays : ∀ k, stays p k = true → (seen.getD k 0 = generation ↔ ∃ t ∈ list, t.pc = some k)) {seed u : NfaThread}
    (hu : u ∈ threadClosure icu p c pos seed) {k : Nat} (hk : u.pc = some k) :
    (list.map NfaThread.pc).contains u.pc = true ↔ seen.getD k 0 = generation := by
  obtain ⟨k', hk', -, hs, -⟩ := mem_threadClosure hu
  rw [hk] at hk'
  cases hk'
  rw [hstays k hs, List.contains_iff_mem, List.mem_map, hk]

variable (icu c) in
theorem threadClosure_row (hops : ∀ i ∈ p.nfa, i.op.tabled = true) (pos : Nat) {seed : NfaThread} (hseed : seed.caps = [])
    {pc : Nat} (hpc : seed.pc = some pc) : threadClosure icu p c pos seed =
      (closureRow p.nfa pc).map (fun k => { pc := some k, start := seed.start }) := by
  have hform : ∀ u ∈ threadClosure icu p c pos seed, u = { pc := u.pc, start := seed.start } := by
    intro u hu
    obtain ⟨-, -, -, -, hst, hcp, -⟩ := mem_threadClosure hu
    rw [← hst]
    cases u
    simp only [NfaThread.mk.injEq, true_and]
    exact hcp hseed
  have hid : (threadClosure icu p c pos seed) =
      ((threadClosure icu p c pos seed).map NfaThread.pc).map (fun pc => { pc := pc, start := seed.start }) := by
    rw [List.map_map]
    conv_lhs => rw [← List.map_id (threadClosure icu p c pos seed)]
    exact List.map_congr_left hform
  rw [hid, closureRow_eq icu c hops pos seed hpc, List.map_map]
  rfl

theorem closureRow_spec (icu : Icu) (c : VerifierContext) (hops : ∀ i ∈ p.nfa, i.op.tabled = true) (pc : Nat) :
    (closureRow p.nfa pc).Nodup ∧ ∀ k ∈ closureRow p.nfa pc, stays p k = true := by
  have hrow : threadClosure icu p c 0 { pc := some pc, start := 0 } = _ := threadClosure_row icu c hops 0 rfl rfl
  constructor
  · have hnodup := threadClosure_nodup icu p c 0 { pc := some pc, start := 0 }
    rw [hrow, List.map_map] at hnodup
    exact List.Nodup.of_map (f := fun k => threadKey p { pc := some k, start := 0 }) hnodup
  · intro k hk
    have hu : ({ pc := some k, start := 0 } : NfaThread) ∈ threadClosure icu p c 0 { pc := some pc, start := 0 } := by
      rw [hrow]
      exact List.mem_map.2 ⟨k, hk, rfl⟩
    obtain ⟨k', hk', -, hs, -⟩ := mem_threadClosure hu
    cases hk'
    exact hs

variable (icu c) in
/-- **With the tables**: the new part of the row joins the list and its entries are marked, no other instruction. -/
theorem addTabled_spec (ht : p.Tables) (htab : p.tabled = true) (pos : Nat) {generation : Nat} {list : List NfaThread}
    {seen : List Nat} (hlength : seen.length = p.nfa.length)
    (hstays : ∀ k, stays p k = true → (seen.getD k 0 = generation ↔ ∃ t ∈ list, t.pc = some k)) {seed : NfaThread}
    (hseed : seed.caps = []) {pc : Nat} (hkey : pcKey p.nfa seed.pc = some pc) (pre : List NfaThread) :
    (addNfaThread icu p c pos seed generation (pre ++ list) seen).1 = pre ++ enlist list (threadClosure icu p c pos seed) ∧
      (addNfaThread icu p c pos seed generation (pre ++ list) seen).2.length = p.nfa.length ∧
      ∀ k, (addNfaThread icu p c pos seed generation (pre ++ list) seen).2.getD k 0 =
        if k ∈ closureRow p.nfa pc then generation else seen.getD k 0 := by
  obtain ⟨hpc, hlt⟩ := pcKey_eq_some.1 hkey
  obtain ⟨hrow, -, hops⟩ := tables_row ht htab hlt
  have hcond : (p.closureOffsets.length == p.nfa.length + 1 && seed.caps.isEmpty) = true := by
    rw [show (p.closureOffsets.length == p.nfa.length + 1) = true from htab, hseed]
    rfl
  obtain ⟨hnd, hmem⟩ := closureRow_spec icu c hops pc
  obtain ⟨h1, h2, h3⟩ := foldl_addEntry seed generation (closureRow p.nfa pc) (pre ++ list) seen hnd
    (fun k hk => by rw [hlength]; exact stays_lt (hmem k hk))
  unfold addNfaThread
  rw [hkey]
  dsimp only
  rw [if_pos hcond, hrow]
  have hthreads := threadClosure_row icu c hops pos hseed hpc
  refine ⟨?_, by rw [h2, hlength], h3⟩
  rw [h1, enlist, hthreads, List.filter_map, List.append_assoc]
  congr 3
  refine List.filter_congr (fun k hk => ?_)
  have hu : ({ pc := some k, start := seed.start } : NfaThread) ∈ threadClosure icu p c pos seed := by
    rw [hthreads]
    exact List.mem_map.2 ⟨k, hk, rfl⟩
  have hin := contains_pc_iff hstays hu rfl
  simp only [Function.comp]
  rw [Bool.eq_iff_iff]
  simp only [Bool.not_eq_true', ← Bool.not_eq_true]
  rw [hin, beq_iff_eq]

theorem addTabled_stays (hops : ∀ i ∈ p.nfa, i.op.tabled = true) {pos generation : Nat} {list : List NfaThread}
    {seen seen' : List Nat} (hstays : ∀ k, stays p k = true → (seen.getD k 0 = generation ↔ ∃ t ∈ list, t.pc = some k))
    {seed : NfaThread} (hseed : seed.caps = []) {pc : Nat} (hpc : seed.pc = some pc)
    (hseen : ∀ k, seen'.getD k 0 = if k ∈ closureRow p.nfa pc then generation else seen.getD k 0) {k : Nat}
    (hk : stays p k = true) :
    seen'.getD k 0 = generation ↔ ∃ t ∈ enlist list (threadClosure icu p c pos seed), t.pc = some k := by
  have hthreads := threadClosure_row icu c hops pos hseed hpc
  rw [hseen]
  split
  · rename_i hin
    simp only [true_iff]
    obtain ⟨u, hu, he⟩ := @exists_mem_enlist list (threadClosure icu p c pos seed)
      (t := { pc := some k, start := seed.start })
      (Or.inr (by rw [hthreads]; exact List.mem_map.2 ⟨k, hin, rfl⟩))
    exact ⟨u, hu, he⟩
  · rename_i hin
    rw [hstays k hk]
    constructor
    · rintro ⟨t, ht, he⟩
      exact ⟨t, List.mem_append_left _ ht, he⟩
    · rintro ⟨t, ht, he⟩
      rcases mem_enlist ht with ht | ht
      · exact ⟨t, ht, he⟩
      · rw [hthreads] at ht
        obtain ⟨k', hk', rfl⟩ := List.mem_map.1 ht
        cases he
        exact absurd hk' hin

/-- **Without the tables** a call is an exploration from the marks of the generation, whatever they are. -/
theorem addOnline_explores (pos : Nat) {generation : Nat} {seen : List Nat} (hlength : seen.length = p.nfa.length)
    {seed : NfaThread} (hcond : ¬ (p.closureOffsets.length == p.nfa.length + 1 && seed.caps.isEmpty) = true) {pc : Nat}
    (hkey : pcKey p.nfa seed.pc = some pc) (list : List NfaThread) :
    ∃ out, (addNfaThread icu p c pos seed generation list seen).1 = list ++ out ∧
      (addNfaThread icu p c pos seed generation list seen).2.length = p.nfa.length ∧
      (∀ k, (addNfaThread icu p c pos seed generation list seen).2.getD k 0 = seen.getD k 0 ∨
        (addNfaThread icu p c pos seed generation list seen).2.getD k 0 = generation) ∧
      Explores (threadKey p) (threadNext icu p c pos) {k | seen.getD k 0 = generation} [seed]
        {k | (addNfaThread icu p c pos seed generation list seen).2.getD k 0 = generation} out := by
  unfold addNfaThread
  rw [hkey]
  dsimp only
  rw [if_neg hcond]
  have hfuel : [seed].length + 2 * unmarked (fun (seen : List Nat) k => seen.getD k 0 == generation) p.nfa.length seen
      < expandFuel p.nfa := by
    have := unmarked_le (fun (seen : List Nat) k => seen.getD k 0 == generation) p.nfa.length seen
    simp only [List.length_singleton, expandFuel]
    omega
  obtain ⟨out, h1, ⟨h2, h2'⟩, h3⟩ := run_explores (threadKey p) (threadNext icu p c pos)
    (fun (seen : List Nat) k => seen.getD k 0 == generation) (fun seen k => seen.set k generation)
    (fun s => s.length = p.nfa.length ∧ ∀ k, s.getD k 0 = seen.getD k 0 ∨ s.getD k 0 = generation)
    (n := p.nfa.length) (fun _ _ h => threadKey_lt h)
    (fun s k hs hk => by
      have hget : ∀ j, (s.set k generation).getD j 0 = if j = k then generation else s.getD j 0 := by
        intro j
        rw [List.getD_eq_getElem?_getD, List.getElem?_set, List.getD_eq_getElem?_getD]
        by_cases hj : k = j
        · subst hj; simp [hs.1, hk]
        · simp [hj, Ne.symm hj]
      refine ⟨⟨by simpa using hs.1, fun j => ?_⟩, fun j => ?_⟩
      · rw [hget]
        split
        · exact Or.inr rfl
        · exact hs.2 j
      · rw [hget, beq_iff_eq, beq_iff_eq]
        by_cases hj : j = k <;> simp [hj])
    (fun _ _ h => threadNext_length h) (expandFuel p.nfa) [seed] seen list ⟨hlength, fun _ => Or.inl rfl⟩ hfuel
  have hset : ∀ s : List Nat, {k | (s.getD k 0 == generation) = true} = ({k | s.getD k 0 = generation} : Set Nat) := by
    intro s; ext k; simp
  rw [hset, hset] at h3
  exact ⟨out, h1, h2, h2', h3⟩

/-- **Without the tables**, under closed marks, which stay closed. -/
theorem addOnline_spec {pos generation : Nat} {list : List NfaThread} {seen : List Nat}
    (hm : ClosedMarks icu p c pos generation list seen) {seed : NfaThread}
    (hcond : ¬ (p.closureOffsets.length == p.nfa.length + 1 && seed.caps.isEmpty) = true) {pc : Nat}
    (hkey : pcKey p.nfa seed.pc = some pc) (pre : List NfaThread) :
    (addNfaThread icu p c pos seed generation (pre ++ list) seen).1 = pre ++ enlist list (threadClosure icu p c pos seed) ∧
      ClosedMarks icu p c pos generation (enlist list (threadClosure icu p c pos seed))
        (addNfaThread icu p c pos seed generation (pre ++ list) seen).2 ∧
      ∀ k, (addNfaThread icu p c pos seed generation (pre ++ list) seen).2.getD k 0 = seen.getD k 0 ∨
        (addNfaThread icu p c pos seed generation (pre ++ list) seen).2.getD k 0 = generation := by
  have hclosed := hm.closed
  obtain ⟨out, h1, h2, h2', h3⟩ := @addOnline_explores icu p c pos generation seen hm.length seed hcond pc hkey (pre ++ list)
  -- the run under the marks is the closure, filtered
  obtain ⟨U, hU⟩ := threadClosure_explores icu p c pos seed
  have hP : ∀ u k, threadKey p u = some k →
      ((!u.pc.any (fun k => seen.getD k 0 == generation)) = true ↔ k ∉ {k | seen.getD k 0 = generation}) := by
    intro u k hk
    rw [(threadKey_eq_some.1 hk).1, Option.any_some, Bool.not_eq_true', ← Bool.not_eq_true, beq_iff_eq]
    rfl
  have hfil := hU.filter (threadNext_keyGraph pos) hclosed hP
  rw [Set.union_empty] at hfil
  obtain ⟨hW, hout⟩ := h3.det hfil
  have hlist : list ++ out = enlist list (threadClosure icu p c pos seed) := by
    rw [hout, enlist]
    congr 1
    refine List.filter_congr (fun u hu => ?_)
    obtain ⟨k, hk, -⟩ := mem_threadClosure hu
    rw [Bool.eq_iff_iff, Bool.not_eq_true', Bool.not_eq_true', ← Bool.not_eq_true, ← Bool.not_eq_true,
      contains_pc_iff hm.stays hu hk, hk, Option.any_some, beq_iff_eq]
  refine ⟨by rw [h1, List.append_assoc, hlist], ⟨h2, h3.closed (threadNext_keyGraph pos) hclosed, fun k hk => ?_⟩, h2'⟩
  constructor
  · intro hmark
    have := h3.leaf_mem (threadNext_keyGraph pos) k hmark ((threadSucc_none_iff (stays_lt hk)).2 hk)
    rcases this with hin | ⟨u, hu, hku⟩
    · obtain ⟨t, ht, he⟩ := (hm.stays k hk).1 hin
      exact ⟨t, List.mem_append_left _ ht, he⟩
    · exact ⟨u, hlist ▸ List.mem_append_right _ hu, (threadKey_eq_some.1 hku).1⟩
  · rintro ⟨t, ht, he⟩
    rw [← hlist] at ht
    rcases List.mem_append.1 ht with ht | ht
    · exact h3.mono ((hm.stays k hk).2 ⟨t, ht, he⟩)
    · obtain ⟨-, ⟨j, hj, -, hj'⟩, -⟩ := h3.sound t ht
      obtain ⟨hj'', -⟩ := threadKey_eq_some.1 hj
      rw [he] at hj''
      cases hj''
      exact hj'

theorem threadClosure_none {pos : Nat} {seed : NfaThread} (hkey : pcKey p.nfa seed.pc = none) :
    threadClosure icu p c pos seed = [] := by
  obtain ⟨U, hU⟩ := threadClosure_explores icu p c pos seed
  exact (hU.det (.drop hkey .nil)).2

theorem enlist_nil (list : List NfaThread) : enlist list [] = list := List.append_nil list

/-- **`add_nfa_thread` appends the part of the closure that is new to the marked part of the list**, with or without
the tables.  The marks are those of `list`; what stands before it, they say nothing of. -/
theorem addNfaThread_spec (ht : p.Tables) {pos generation : Nat} {list : List NfaThread} {seen : List Nat}
    (hm : MarksAt icu p c pos generation list seen) {seed : NfaThread} (hcaps : p.groups = 0 → seed.caps = [])
    (pre : List NfaThread) :
    (addNfaThread icu p c pos seed generation (pre ++ list) seen).1 = pre ++ enlist list (threadClosure icu p c pos seed) ∧
      MarksAt icu p c pos generation (enlist list (threadClosure icu p c pos seed))
        (addNfaThread icu p c pos seed generation (pre ++ list) seen).2 ∧
      ∀ k, (addNfaThread icu p c pos seed generation (pre ++ list) seen).2.getD k 0 = seen.getD k 0 ∨
        (addNfaThread icu p c pos seed generation (pre ++ list) seen).2.getD k 0 = generation := by
  cases hkey : pcKey p.nfa seed.pc with
  | none =>
    rw [threadClosure_none hkey, enlist_nil]
    unfold addNfaThread
    rw [hkey]
    exact ⟨rfl, hm, fun k => Or.inl rfl⟩
  | some pc =>
    obtain ⟨hpc, hlt⟩ := pcKey_eq_some.1 hkey
    by_cases htab : p.tabled = true
    · obtain ⟨-, hgroups, hops⟩ := tables_row ht htab hlt
      have hseed := hcaps hgroups
      obtain ⟨h1, h2, h3⟩ := addTabled_spec icu c ht htab pos hm.length hm.stays hseed hkey pre
      refine ⟨h1, ⟨h2, fun hf => ?_, fun k hk => addTabled_stays hops hm.stays hseed hpc h3 hk⟩, fun k => ?_⟩
      · rw [htab] at hf; cases hf
      · rw [h3]
        split
        · exact Or.inr rfl
        · exact Or.inl rfl
    · have hfalse : p.tabled = false := by simpa using htab
      have hcond : ¬ (p.closureOffsets.length == p.nfa.length + 1 && seed.caps.isEmpty) = true := by
        rw [show (p.closureOffsets.length == p.nfa.length + 1) = false from hfalse]
        simp
      obtain ⟨h1, h2, h3⟩ := addOnline_spec ⟨hm.length, hm.closed hfalse, hm.stays⟩ hcond hkey pre
      exact ⟨h1, ⟨h2.length, fun _ => h2.closed, h2.stays⟩, h3⟩

end

end Pergrep
