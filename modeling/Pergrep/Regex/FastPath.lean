import Pergrep.Regex.NfaSearch
/-!
# FastPath — the scan for a case-insensitive literal is the loop

The program of a literal is a chain of rune instructions (`literalProg`), so a thread stands as far from its start as
it has taken runes (`literal_reach`).  Threads stand in the order of their starts (`Ascending`), so in front of the
first accepting one no thread is left: it would have as many runes behind it, and accept.  The loop stops there, with
the leftmost start (`literalLoop_spec`), which is what the scan finds.
-/
namespace Pergrep

open Wiring NfaCompiler Steps Throw

/-! ## The program of a literal -/

def runeInsts (f : NodeFlags) : Nat → List Nat → Prog
  | _, [] => []
  | pc, x :: xs => { op := .rune x, flags := f, x := some (pc + 1) } :: runeInsts f (pc + 1) xs

/-- What a literal compiles to: the `epsilon` of `build_literal` stays behind in front. -/
def literalProg (f : NodeFlags) (xs : List Nat) : Prog := { op := .jmp } :: (runeInsts f 1 xs ++ [{ op := .match_ }])

theorem length_runeInsts (f : NodeFlags) : ∀ (xs : List Nat) (pc : Nat), (runeInsts f pc xs).length = xs.length
  | [], _ => rfl
  | _ :: xs, pc => by rw [runeInsts, List.length_cons, List.length_cons, length_runeInsts f xs]

theorem runeInsts_get (f : NodeFlags) : ∀ (xs : List Nat) (pc j : Nat), j < xs.length →
    ∃ x, (runeInsts f pc xs)[j]? = some { op := .rune x, flags := f, x := some (pc + j + 1) }
  | [], _, _, h => absurd h (Nat.not_lt_zero _)
  | x :: xs, pc, 0, _ => ⟨x, rfl⟩
  | x :: xs, pc, j + 1, h => by
    obtain ⟨y, hy⟩ := runeInsts_get f xs (pc + 1) j (Nat.lt_of_succ_lt_succ h)
    refine ⟨y, ?_⟩
    rw [runeInsts, List.getElem?_cons_succ, hy]
    congr 3
    omega

theorem literalProg_rune (f : NodeFlags) {xs : List Nat} {j : Nat} (h : j < xs.length) :
    ∃ x, (literalProg f xs)[j + 1]? = some { op := .rune x, flags := f, x := some (j + 2) } := by
  obtain ⟨x, hx⟩ := runeInsts_get f xs 1 j h
  refine ⟨x, ?_⟩
  rw [literalProg, List.getElem?_cons_succ, List.getElem?_append_left (by rwa [length_runeInsts]), hx]
  congr 3
  omega

theorem literalProg_match (f : NodeFlags) (xs : List Nat) :
    (literalProg f xs)[xs.length + 1]? = some { op := .match_ } := by
  rw [literalProg, List.getElem?_cons_succ, List.getElem?_append_right (by rw [length_runeInsts]), length_runeInsts,
    Nat.sub_self]
  rfl

theorem set_middle (p : Prog) (i : NfaInst) (q : Prog) (y : Bool) (target : Nat) :
    NfaCompiler.set (p ++ i :: q) (p.length, y) target = p ++ i.setSucc y target :: q := by
  rw [NfaCompiler.set, List.modify_eq_take_cons_drop (by simp)]
  simp

/-- The chain so far ends in a rune whose successor is unset; the loop goes on setting it. -/
theorem runeChain_insts (f : NodeFlags) : ∀ (xs : List Nat) (y st : Nat) (p : Prog) {q : Prog} {o : Option Frag},
    runeChain f xs (p ++ [{ op := .rune y, flags := f }]) (some ⟨st, [(p.length, false)]⟩) = .ok (q, o) →
      ∃ init z, q = init ++ [{ op := .rune z, flags := f }] ∧ o = some ⟨st, [(init.length, false)]⟩ ∧
        init ++ [{ op := .rune z, flags := f, x := some (init.length + 1) }] = p ++ runeInsts f p.length (y :: xs)
  | [], y, st, p, q, o, h => by
    rw [runeChain] at h
    cases h
    exact ⟨p, y, rfl, rfl, rfl⟩
  | x :: xs, y, st, p, q, o, h => by
    rw [runeChain] at h
    obtain ⟨⟨p₁, fr⟩, h1, h⟩ := bind_ok h
    obtain ⟨⟨p₂, pc⟩, h2, h1⟩ := bind_ok h1
    obtain ⟨rfl, rfl, -⟩ := emit_ok h2
    cases h1
    simp only [concat, patch, List.foldl_cons, List.foldl_nil, List.length_append, List.length_singleton] at h
    rw [List.append_assoc, List.singleton_append, set_middle, List.append_cons] at h
    have hlen : (p ++ [({ op := .rune y, flags := f, x := some (p.length + 1) } : NfaInst)]).length = p.length + 1 := by
      simp
    obtain ⟨init, z, hq, ho, hall⟩ := runeChain_insts f xs x st _ (by rw [hlen]; exact h)
    refine ⟨init, z, hq, ho, ?_⟩
    rw [hall, hlen, List.append_assoc]
    rfl

/-- **A literal compiles to its chain of runes**, and starts behind the first instruction. -/
theorem compile_literal {f : NodeFlags} {l : Bytes} {q : Prog} {start : Nat} (hne : runes l ≠ [])
    (h : compile (.literal f l) = .ok (q, start)) : q = literalProg f (runes l) ∧ start = 1 := by
  unfold compile at h
  obtain ⟨⟨p₁, fr⟩, hb, h⟩ := bind_ok h
  obtain ⟨⟨p₂, m⟩, hm, h⟩ := bind_ok h
  obtain ⟨rfl, rfl, -⟩ := emit_ok hm
  cases h
  rw [NfaCompiler.build, buildLiteral] at hb
  obtain ⟨⟨p₃, fe⟩, he, hb⟩ := bind_ok hb
  obtain ⟨⟨p₄, pc⟩, he', he⟩ := bind_ok he
  obtain ⟨rfl, rfl, -⟩ := emit_ok he'
  cases he
  obtain ⟨⟨p₅, all⟩, hc, hb⟩ := bind_ok hb
  cases hx : runes l with
  | nil => exact absurd hx hne
  | cons x xs =>
    rw [hx, runeChain] at hc
    obtain ⟨⟨p₆, fr₁⟩, h1, hc⟩ := bind_ok hc
    obtain ⟨⟨p₇, pc₁⟩, h2, h1⟩ := bind_ok h1
    obtain ⟨rfl, rfl, -⟩ := emit_ok h2
    cases h1
    obtain ⟨init, z, rfl, rfl, hall⟩ := runeChain_insts f xs x 1 [{ op := .jmp }] hc
    cases hb
    refine ⟨?_, rfl⟩
    rw [patch, List.foldl_cons, List.foldl_nil, List.append_assoc, List.singleton_append, set_middle, List.append_cons]
    rw [List.length_append, List.length_singleton]
    exact congrArg (· ++ [({ op := .match_ } : NfaInst)]) hall

section
variable {icu : Icu} {p : RegexProgram} {c : VerifierContext} {f : NodeFlags} {xs : List Nat}

theorem literalProg_stays (hp : p.nfa = literalProg f xs) {j : Nat} (hj : j ≤ xs.length) : stays p (j + 1) = true := by
  unfold stays
  rw [hp]
  rcases Nat.lt_or_eq_of_le hj with hlt | rfl
  · obtain ⟨x, hx⟩ := literalProg_rune f hlt
    rw [hx]
  · rw [literalProg_match]

theorem literal_cstep (hp : p.nfa = literalProg f xs) {j q : Nat} (hj : j ≤ xs.length) {b : Nat × Nat}
    (h : CStep icu p c (j + 1, q) b) : j < xs.length ∧ b.1 = j + 2 ∧ RStep c q b.2 := by
  obtain ⟨i, r, hi, hr, hcons, hx, hn⟩ := (@cstep_stays icu p c _ _ b.1 b.2 (literalProg_stays hp hj)).1 h
  rw [hp] at hi
  rcases Nat.lt_or_eq_of_le hj with hlt | rfl
  · obtain ⟨x, hget⟩ := literalProg_rune f hlt
    rw [hget] at hi
    cases hi
    exact ⟨hlt, (Option.some.inj hx).symm, r, hr, hn⟩
  · rw [literalProg_match] at hi
    cases hi
    cases hcons

/-- **A thread stands as far in the program as it has taken runes.** -/
theorem literal_reach (hp : p.nfa = literalProg f xs) {s : Nat} {b : Nat × Nat} (h : CReach icu p c (1, s) b) :
    ∃ j, j ≤ xs.length ∧ b.1 = j + 1 ∧ iterSpan (RStep c) j s b.2 := by
  induction h with
  | refl => exact ⟨0, Nat.zero_le _, rfl, rfl⟩
  | @tail a b _ hab ih =>
    obtain ⟨j, hj, ha, hs⟩ := ih
    obtain ⟨hlt, hb, hstep⟩ := literal_cstep hp hj (show CStep icu p c (j + 1, a.2) b by rw [← ha]; exact hab)
    exact ⟨j + 1, hlt, hb, iterSpan_trans hs (iterSpan_one hstep)⟩

end

/-! ## The order of the threads -/

/-- Threads stand in the order of their starts. -/
def Ascending (ts : List NfaThread) : Prop := ts.Pairwise (fun a b => a.start ≤ b.start)

section
variable {icu : Icu} {p : RegexProgram} {c : VerifierContext}

theorem threadClosure_start {pos : Nat} {t u : NfaThread} (h : u ∈ threadClosure icu p c pos t) : u.start = t.start := by
  obtain ⟨-, -, -, -, hs, -⟩ := mem_threadClosure h
  exact hs

theorem Ascending.append {list new : List NfaThread} (h : Ascending list) {start : Nat} (hnew : ∀ t ∈ new, t.start = start)
    (hle : ∀ t ∈ list, t.start ≤ start) : Ascending (list ++ new) := by
  refine List.pairwise_append.2 ⟨h, List.pairwise_of_forall_mem_list (fun a ha b hb => ?_), fun a ha b hb => ?_⟩
  · rw [hnew a ha, hnew b hb]
  · rw [hnew b hb]
    exact hle a ha

theorem Ascending.enlist {list new : List NfaThread} (h : Ascending list) {start : Nat}
    (hnew : ∀ t ∈ new, t.start = start) (hle : ∀ t ∈ list, t.start ≤ start) : Ascending (enlist list new) :=
  h.append (fun t ht => hnew t (List.mem_of_mem_filter ht)) hle

theorem Ascending.enlistAll {pos : Nat} : ∀ {ts list : List NfaThread}, Ascending list → Ascending ts →
    (∀ t ∈ list, ∀ u ∈ ts, t.start ≤ u.start) → Ascending (enlistAll icu p c pos list ts)
  | [], _, h, _, _ => h
  | t :: ts, list, h, hts, hle => by
    obtain ⟨ht, hts⟩ := List.pairwise_cons.1 hts
    have hclosure : ∀ u ∈ threadClosure icu p c pos t, u.start = t.start := fun u hu => threadClosure_start hu
    rw [Pergrep.enlistAll]
    refine Ascending.enlistAll (h.enlist hclosure (fun u hu => hle u hu t List.mem_cons_self)) hts (fun u hu v hv => ?_)
    rcases mem_enlist hu with hu | hu
    · exact hle u hu v (List.mem_cons_of_mem _ hv)
    · rw [hclosure u hu]
      exact ht v hv

theorem Ascending.nextThreads {cur : List NfaThread} (h : Ascending cur) (r : Rune) :
    Ascending (nextThreads icu p c cur r) := by
  refine Ascending.enlistAll .nil ?_ (fun t ht => (by cases ht))
  refine List.pairwise_filterMap.2 (h.imp (fun hab u hu v hv => ?_))
  rw [(wakes_caps hu).2, (wakes_caps hv).2]
  exact hab

/-- No thread of the closure is new but the thread itself, where it stands at a rune or a match. -/
theorem mem_closure_stays {pos k : Nat} {t u : NfaThread} (hk : t.pc = some k) (hs : stays p k = true)
    (h : u ∈ threadClosure icu p c pos t) : u = t := by
  obtain ⟨-, -, -, -, -, -, hr⟩ := mem_threadClosure h
  rcases hr.cases_head with rfl | ⟨v, ⟨-, us, hn, -⟩, -⟩
  · rfl
  · rw [(threadNext_none_iff (threadKey_eq_some.2 ⟨hk, stays_lt hs⟩)).2 hs] at hn
    cases hn

end

/-! ## The loop on a literal -/

def freshCaps (p : RegexProgram) : Caps := if 0 < p.groups then List.replicate (p.groups + 1) (none, none) else []

theorem matchCaptures_fresh (p : RegexProgram) (start stop : Nat) :
    matchCaptures p start stop (freshCaps p) =
      { start := start, stop := stop, matched := true } :: List.replicate p.groups {} := by
  rw [matchCaptures, ← List.length_range (n := p.groups), ← List.map_const', List.length_range]
  refine congrArg (_ :: ·) (List.map_congr_left (fun g hg => ?_))
  have hlt : g < p.groups := List.mem_range.1 hg
  rw [freshCaps, if_pos (by omega), List.getElem?_replicate, if_pos (by omega)]

section
variable (icu : Icu) (p : RegexProgram) (c : VerifierContext) (m : Nat)

/-- A run that has not found the literal yet. -/
structure LiteralSearching (s : SimState) : Prop extends Searching icu p c 1 m s where
  sound : Sound icu p c 1 m (RChain c c.candidateBegin) s
  ascending : Ascending s.cur
  fresh : ∀ t ∈ s.cur, t.caps = freshCaps p

variable {icu p c m} {f : NodeFlags} {xs : List Nat}

theorem literalSearching_init (hv : c.Valid) : LiteralSearching icu p c m (simInit p c) where
  toSearching := searching_init hv
  sound := ⟨.refl, fun _ ht => absurd ht List.not_mem_nil, fun _ ht => by cases ht⟩
  ascending := .nil
  fresh := fun _ ht => absurd ht List.not_mem_nil

theorem literal_accept (hl : Loaded p 1 m) (hp : p.nfa = literalProg f xs) : m = xs.length + 1 := by
  have hm := hl.accept (xs.length + 1) { op := .match_ } (by rw [hp]; exact literalProg_match f xs)
  exact (hm.1 rfl).symm

theorem literal_seed (hv : c.Valid) (hl : Loaded p 1 m) (hp : p.nfa = literalProg f xs) {s : SimState}
    (h : LiteralSearching icu p c m s) :
    Ascending (simSeed icu p c s).cur ∧ ∀ t ∈ (simSeed icu p c s).cur, t.caps = freshCaps p := by
  obtain ⟨-, -, -, -, hsame, hnew⟩ := simSeed_spec hl.tables h.inv
  have hstart : ∀ t ∈ threadClosure icu p c s.pos (seedThread p s.pos), t.start = s.pos := fun t ht =>
    threadClosure_start ht
  have hcaps : ∀ t ∈ threadClosure icu p c s.pos (seedThread p s.pos), t.caps = freshCaps p := by
    intro t ht
    rw [mem_closure_stays (seedThread_pc hl s.pos) (literalProg_stays hp (Nat.zero_le _)) ht]
    rfl
  have hold : ∀ t ∈ s.cur, t.start ≤ s.pos := by
    intro t ht
    obtain ⟨k, -, -, -, -, hr⟩ := h.sound.threads t ht
    exact (creach_pos hr).le hv
  by_cases hlt : s.pos < c.candidateEnd
  · rcases hnew hlt with hcur | hcur
    · rw [hcur]
      exact ⟨h.ascending.enlist hstart hold, fun t ht => (mem_enlist ht).elim (h.fresh t) (hcaps t)⟩
    · rw [hcur]
      exact ⟨h.ascending.append hstart hold, fun t ht => (List.mem_append.1 ht).elim (h.fresh t) (hcaps t)⟩
  · rw [hsame (Nat.le_of_not_lt hlt)]
    exact ⟨h.ascending, h.fresh⟩

theorem literal_accepts_of_le (hv : c.Valid) (hl : Loaded p 1 m) (hp : p.nfa = literalProg f xs) {s : SimState}
    (h : Sound icu p c 1 m (RChain c c.candidateBegin) s) {t u : NfaThread} (ht : t ∈ s.cur) (hu : u ∈ s.cur)
    (hacc : u.accepts p = true) (hle : t.start ≤ u.start) : t.accepts p = true := by
  obtain ⟨k, hk, -, hIt, -, hrt⟩ := h.threads t ht
  obtain ⟨k', hk', -, hIu, -, hru⟩ := h.threads u hu
  obtain rfl := (accepts_iff hl hk').1 hacc
  obtain ⟨j, hj, hkj, hst⟩ := literal_reach hp hrt
  obtain ⟨n, -, hkn, hsu⟩ := literal_reach hp hru
  obtain ⟨i, -, hi⟩ := iterSpan_split (fun _ _ => RStep.lt hv) (fun _ _ _ => RStep.det) hst hsu (chain_of_le hv hIt hIu hle)
  refine (accepts_iff hl hk).2 ?_
  have := literal_accept hl hp
  simp only at hkj hkn
  omega

/-- What the run answers when it has found the literal: its leftmost span. -/
structure LiteralFound (s : SimState) (t : NfaThread) : Prop where
  best : s.best = some t
  start : CandidateStart c t.start
  reach : CReach icu p c (1, t.start) (m, s.bestEnd)
  fresh : t.caps = freshCaps p
  leftmost : ∀ st e, CandidateStart c st → CReach icu p c (1, st) (m, e) → t.start ≤ st

theorem literal_scan (hv : c.Valid) (hl : Loaded p 1 m) (hp : p.nfa = literalProg f xs) {s : SimState}
    (h : LiteralSearching icu p c m s) (hbest : (simMatch p (simSeed icu p c s)).best ≠ none) :
    (simMatch p (simSeed icu p c s)).cur = [] ∧
      ∃ t, @LiteralFound icu p c m (simMatch p (simSeed icu p c s)) t := by
  obtain ⟨-, hpos, hb, -⟩ := simSeed_spec hl.tables h.inv
  obtain ⟨hasc, hfresh⟩ := literal_seed hv hl hp h
  have hsound := sound_seed hl h.inv h.sound
  by_cases hacc : ∀ t ∈ (simSeed icu p c s).cur, t.accepts p = false
  · rw [simMatch_none hacc, hb, h.best] at hbest
    exact absurd rfl hbest
  · obtain ⟨t, hacc⟩ := not_forall.1 hacc
    obtain ⟨ht, ha⟩ := Classical.not_imp.1 hacc
    obtain ⟨pre, u, post, hcur, hu, hpre, hres⟩ := simMatch_some ht (by simpa using ha)
    have humem : u ∈ (simSeed icu p c s).cur := by
      rw [hcur]
      simp
    have hnil : pre = [] := by
      refine List.eq_nil_iff_forall_not_mem.2 (fun v hv' => ?_)
      rw [hcur] at hasc
      have hle : v.start ≤ u.start := (List.pairwise_append.1 hasc).2.2 v hv' u List.mem_cons_self
      have hvmem : v ∈ (simSeed icu p c s).cur := by
        rw [hcur]
        exact List.mem_append_left _ hv'
      have := literal_accepts_of_le hv hl hp hsound hvmem humem hu hle
      rw [hpre v hv'] at this
      cases this
    obtain ⟨k, hk, -, hI, hce, hreach⟩ := hsound.threads u humem
    obtain rfl := (accepts_iff hl hk).1 hu
    rw [hres]
    refine ⟨hnil, u, rfl, ⟨hI, hce⟩, hreach, hfresh u humem, fun st e hst hr => ?_⟩
    by_contra hlt
    obtain ⟨j, -, hj, hsteps⟩ := literal_reach hp hr
    obtain ⟨n, -, hn, hsu⟩ := literal_reach hp hreach
    obtain rfl : j = n := by
      simp only at hj hn
      omega
    -- the earlier start would have ended before
    have hend := iterSpan_lt (fun _ _ => RStep.lt hv) (fun _ _ _ => RStep.det) hsteps hsu
      (chain_of_le hv hst.1 hI (by omega)) (by omega)
    have := h.passed st e hst hr
    simp only [hpos] at hend
    omega

theorem literal_advance (hv : c.Valid) (hl : Loaded p 1 m) (hp : p.nfa = literalProg f xs) {s : SimState}
    (h : LiteralSearching icu p c m s) (hnone : (simMatch p (simSeed icu p c s)).best = none) {r : Rune}
    (hr : contextRuneAtValidated c s.pos = some r) :
    LiteralSearching icu p c m (simAdvance icu p c (simMatch p (simSeed icu p c s)) r) := by
  obtain ⟨hsame, -⟩ := searching_scan hv hl h.toSearching hnone
  have hsearch := searching_advance hv hl h.toSearching hnone hr
  obtain ⟨hasc, hfresh⟩ := literal_seed hv hl hp h
  obtain ⟨hb, hpos, -⟩ := simSeed_spec hl.tables h.inv
  rw [hsame] at hsearch ⊢
  obtain ⟨-, hcur, -⟩ := simAdvance_spec icu c hl.tables hb r
  refine ⟨hsearch, ?_, ?_, fun t ht => ?_⟩
  · exact sound_advance hl hb (fun _ _ hq hs => hq.tail hs) (by rw [hpos]; exact hr) (sound_seed hl h.inv h.sound)
  · rw [hcur]
    exact hasc.nextThreads r
  · rw [hcur] at ht
    rcases mem_enlistAll ht with ht | ⟨u, hu, ht⟩
    · cases ht
    · obtain ⟨v, hv', hw⟩ := List.mem_filterMap.1 hu
      obtain ⟨k, hk, -, -, -, hreach⟩ := (sound_seed hl h.inv h.sound).threads v hv'
      obtain ⟨j, hj, hkj, -⟩ := literal_reach hp hreach
      simp only at hkj
      subst hkj
      obtain ⟨k₁, i, hk₁, hi, hcons, rfl⟩ := wakes_eq_some hw
      rw [hk] at hk₁
      cases hk₁
      -- the rune instruction leads to the next one of the chain
      have hx : i.x = some (j + 2) ∧ j + 1 ≤ xs.length := by
        rw [hp] at hi
        rcases Nat.lt_or_eq_of_le hj with hlt | rfl
        · obtain ⟨x, hget⟩ := literalProg_rune f hlt
          rw [hget] at hi
          cases hi
          exact ⟨rfl, hlt⟩
        · rw [literalProg_match] at hi
          cases hi
          cases hcons
      rw [mem_closure_stays (show (v.goto i.x).pc = some (j + 2) from hx.1) (literalProg_stays hp hx.2) ht]
      exact hfresh v hv'

/-- **The loop on a literal answers with its leftmost span**, if with any. -/
theorem literalLoop_spec (hv : c.Valid) (hl : Loaded p 1 m) (hp : p.nfa = literalProg f xs)
    (hpre : p.queryIr.prefixes = []) : ∀ (fuel : Nat) {s : SimState}, LiteralSearching icu p c m s →
      (simLoop icu p c fuel s).best ≠ none → ∃ t, @LiteralFound icu p c m (simLoop icu p c fuel s) t
  | 0, _, h, hbest => absurd h.best hbest
  | fuel + 1, s, h, hbest => by
    rcases simLoop_cases icu p c fuel s with ⟨hs, -⟩ | ⟨pos, hj, -, hrest⟩
    · rw [hs] at hbest
      exact absurd h.best hbest
    · rw [simJump_nil hpre] at hj
      obtain rfl : s.pos = pos := by simpa using hj
      rw [show simScan icu p c s s.pos = simMatch p (simSeed icu p c s) from rfl] at hrest
      by_cases hfound : (simMatch p (simSeed icu p c s)).best = none
      · rcases hrest with ⟨hres, -⟩ | ⟨r, hr, -, -, hres⟩
        · rw [hres] at hbest
          exact absurd hfound hbest
        · have ha := literal_advance hv hl hp h hfound hr
          rcases hres with ⟨-, hb, -⟩ | hres
          · exact absurd ha.best hb
          · rw [hres] at hbest ⊢
            exact literalLoop_spec hv hl hp hpre fuel ha hbest
      · obtain ⟨hnil, ht⟩ := literal_scan hv hl hp h hfound
        rcases hrest with ⟨hres, -⟩ | ⟨r, -, -, hgo, -⟩
        · rw [hres]
          exact ht
        · exact absurd ⟨hfound, hnil⟩ hgo

end

/-! ## The two ways to search -/

section
variable (icu : Icu) (p : RegexProgram) (c : VerifierContext)

/-- What the loop of `nfa_search` answers on a program, whether the fast path would run or not. -/
def nfaSearchLoop (fileId : Nat) : Option Match :=
  if !c.validate || p.nfaStart.isNone then none
  else
    let s := simLoop icu p c (simFuel c) (simInit p c)
    s.best.map (fun t =>
      { fileId := fileId, start := t.start, stop := s.bestEnd, captures := matchCaptures p t.start s.bestEnd t.caps })

variable {icu p c}

theorem nfaSearch_loop (h : usesLiteralScan p = false) (fileId : Nat) :
    nfaSearch icu p c fileId = nfaSearchLoop icu p c fileId := by
  rw [nfaSearch, nfaSearchLoop]
  simp only [h, Bool.false_eq_true, if_false]

theorem runes_ne_nil {l : Bytes} (h : l ≠ []) : runes l ≠ [] := by
  obtain ⟨b, t, rfl⟩ := List.exists_cons_of_ne_nil h
  obtain ⟨r, hr⟩ := runeAt_isSome (show 0 < (b :: t).length by simp)
  rw [runes, List.length_cons, runesFrom, hr]
  exact List.cons_ne_nil _ _

/-- **The scan is the loop.**  On the program of a case-insensitive literal the fast path of `nfa_search` runs, and it
answers as the loop does. -/
theorem nfaSearch_fastPath (hf : icu.FoldsAscii) {pattern : Bytes} {opt : PatternOptions}
    (hparse : parseRegex icu pattern opt = .ok p) (hx : p.extended = false) {f : NodeFlags} {l : Bytes}
    (hast : p.ast = .literal f l) (hi : f.icase = true) (hne : l ≠ []) (hv : c.validate = true) (fileId : Nat) :
    usesLiteralScan p = true ∧ nfaSearch icu p c fileId = nfaSearchLoop icu p c fileId := by
  have hreg := parseRegex_regular hparse hx
  obtain ⟨r, -, hwrap, -, -, -, hir, -, -⟩ := parseRegex_ok hparse
  have hpre : p.queryIr.prefixes = [] := by
    rw [hwrap] at hast
    rw [hir, wrap_literal hast]
    simp [analyzeQuery, queryPrefixes, hi]
  have hrunes := hreg.icaseLiteral f l hast hi
  have hlit : p.icaseLiteral ≠ [] := by
    rw [hrunes]
    simpa using runes_ne_nil hne
  have huses : usesLiteralScan p = true := by
    simp [usesLiteralScan, hast, hx, hi, hne, hlit]
  refine ⟨huses, ?_⟩
  have hvalid := (VerifierContext.validate_iff c).1 hv
  obtain ⟨start, m, hl, hspan⟩ := hreg.loaded
  obtain ⟨start', hstart', hcomp⟩ := hreg.compiled
  rw [hast] at hcomp
  obtain ⟨hnfa, rfl⟩ := compile_literal (runes_ne_nil hne) hcomp
  obtain rfl : start = 1 := Option.some.inj (hl.start_eq.symm.trans hstart')
  have hread : ∀ s e, contextLiteralAtValidated icu c p.icaseLiteral s = some e ↔ CReach icu p c (1, s) (m, e) := by
    intro s e
    rw [hspan, hrunes, contextLiteralAtValidated_iff hf hi, hast, spans]
  have hlive : ¬ ((!c.validate || p.nfaStart.isNone) = true) := by
    rw [hv, hl.start_eq]
    simp
  rw [nfaSearch, nfaSearchLoop, if_neg hlive, if_neg hlive, if_pos huses]
  have hle : min c.candidateEnd c.recordEnd ≤ c.recordEnd := Nat.min_le_right _ _
  cases hscan : literalScan icu c p.icaseLiteral (min c.candidateEnd c.recordEnd) (simFuel c) c.candidateBegin with
  | none =>
    -- the scan has looked everywhere, so the loop has nothing to find
    have hbest : (simLoop icu p c (simFuel c) (simInit p c)).best = none := by
      by_contra hb
      obtain ⟨t, ht⟩ := literalLoop_spec hvalid hl hnfa hpre (simFuel c) (literalSearching_init hvalid) hb
      have hat := (hread _ _).2 ht.reach
      have hin := contextLiteralAtValidated_lt hvalid hlit hat
      have hnone := literalScan_none hvalid hlit hle (simFuel c) hvalid.candidate_ge (by unfold simFuel; omega) hscan
        t.start ht.start.1 (Nat.lt_min.2 ⟨ht.start.2, hin⟩)
      rw [hat] at hnone
      cases hnone
    simp only [hscan, hbest, Option.map_none]
  | some se =>
    obtain ⟨s, e⟩ := se
    obtain ⟨hchain, hlt, hat, hfirst⟩ := literalScan_some hvalid hle _ hvalid.candidate_ge hscan
    have hs : CandidateStart c s := ⟨hchain, Nat.lt_of_lt_of_le hlt (Nat.min_le_left _ _)⟩
    have hbest : (simLoop icu p c (simFuel c) (simInit p c)).best ≠ none := fun hb =>
      simLoop_complete hvalid hl hpre (simFuel c) (searching_init hvalid) (by simp only [simInit, simFuel]; omega) hb s e hs
        ((hread s e).1 hat)
    obtain ⟨t, ht⟩ := literalLoop_spec hvalid hl hnfa hpre (simFuel c) (literalSearching_init hvalid) hbest
    -- both starts are the leftmost
    have hstart : t.start = s := by
      refine Nat.le_antisymm (ht.leftmost s e hs ((hread s e).1 hat)) (Nat.le_of_not_lt (fun hlt' => ?_))
      have hnone := hfirst t.start ht.start.1 hlt'
      rw [(hread _ _).2 ht.reach] at hnone
      cases hnone
    have hstop : (simLoop icu p c (simFuel c) (simInit p c)).bestEnd = e := by
      have hend := (hread _ _).2 ht.reach
      rw [hstart, hat] at hend
      exact (Option.some.inj hend).symm
    simp only [hscan, ht.best, Option.map_some, ht.fresh, matchCaptures_fresh, hstart, hstop]

/-- `ab` in the text `xAB`, whatever the case -/
theorem nfaSearch_fastPath_ab : ∃ p, parseRegex asciiIcu [0x61, 0x62] { caseMode := .insensitive } = .ok p ∧
    usesLiteralScan p = true ∧
      nfaSearch asciiIcu p (textContext [0x78, 0x41, 0x42]) 0 = nfaSearchLoop asciiIcu p (textContext [0x78, 0x41, 0x42]) 0 := by
  obtain ⟨p, hp, ht⟩ := parsesTo_iff.1
    (show parsesTo asciiIcu [0x61, 0x62] { caseMode := .insensitive } (fun p => !p.extended && usesLiteralScan p) = true by
      decide +kernel)
  simp only [Bool.and_eq_true, Bool.not_eq_true'] at ht
  obtain ⟨f, l, hast, hi, hne, -⟩ := usesLiteralScan_iff ht.2
  exact ⟨p, hp, nfaSearch_fastPath asciiIcu_foldsAscii hp ht.1 hast hi hne (by decide) 0⟩

end

end Pergrep
