import Pergrep.Regex.LookBehind
import Pergrep.Regex.Width
/-!
# Ways — where `eval` leads to

`ways n c p q`: from `p` the tree leads to `q` in the context `c`, look-arounds included — a relation, with no lists, no limits,
no preferences and no captures.  On a tree without back-references `eval`, when it returns, leads to exactly these positions
(`eval_ways`).  In `ways` every iteration of a repetition moves on.
-/
namespace Pergrep

open Throw Steps

mutual
def RegexNode.unreferenced : RegexNode → Bool
  | .empty _ | .literal _ _ | .dot _ | .cls _ _ | .assert _ _ => true
  | .concat _ cs | .alt _ cs => RegexNode.unreferencedAll cs
  | .repeat_ _ _ _ _ c | .group _ _ _ c | .lookAhead _ _ c | .lookBehind _ _ c => c.unreferenced
  | .backRef _ _ => false

def RegexNode.unreferencedAll : List RegexNode → Bool
  | [] => true
  | c :: cs => c.unreferenced && RegexNode.unreferencedAll cs
end

theorem RegexNode.unreferencedAll_iff : ∀ {cs : List RegexNode},
    RegexNode.unreferencedAll cs = true ↔ ∀ c ∈ cs, c.unreferenced = true
  | [] => by simp [RegexNode.unreferencedAll]
  | c :: cs => by simp [RegexNode.unreferencedAll, @RegexNode.unreferencedAll_iff cs]

section
variable (icu : Icu)

def literalWay (c : VerifierContext) (icase : Bool) : List Nat → Nat → Nat → Prop
  | [], p, q => p = q
  | x :: xs, p, q => ∃ r, contextRuneAt c p = some r ∧ icu.cpEq r.cp x icase = true ∧ literalWay c icase xs r.next q

mutual
/-- **Where a tree leads to.** -/
def ways : RegexNode → VerifierContext → Nat → Nat → Prop
  | .empty _, _, p, q => p = q
  | .literal f l, c, p, q => literalWay icu c f.icase (runes l) p q
  | .dot f, c, p, q => ∃ r, contextRuneAt c p = some r ∧ (f.dotall || r.cp != c.separator.toNat) = true ∧ q = r.next
  | .cls f s, c, p, q => ∃ r, contextRuneAt c p = some r ∧ classMatch icu s r.cp f.icase = true ∧ q = r.next
  | .assert f k, c, p, q => assertAt icu k f c p = true ∧ q = p
  | .concat _ cs, c, p, q => waysAll cs c p q
  | .alt _ cs, c, p, q => waysAny cs c p q
  | .repeat_ _ mn mx _ n, c, p, q =>
    ∃ k, mn ≤ k ∧ (mx = sizeMax ∨ k ≤ mx) ∧ iterSpan (Moving (fun p q => ways n c p q)) k p q
  | .group _ _ _ n, c, p, q => ways n c p q
  | .lookAhead _ negative n, c, p, q => q = p ∧ (negative = false ↔ ∃ e, ways n c p e)
  | .lookBehind _ negative n, c, p, q =>
    q = p ∧ (negative = false ↔ ∃ st ∈ lookBehindStarts c negative p, ways n (lookBehindContext c) st p)
  | .backRef _ _, _, _, _ => False

def waysAll : List RegexNode → VerifierContext → Nat → Nat → Prop
  | [], _, p, q => p = q
  | n :: ns, c, p, q => ∃ m, ways n c p m ∧ waysAll ns c m q

def waysAny : List RegexNode → VerifierContext → Nat → Nat → Prop
  | [], _, _, _ => False
  | n :: ns, c, p, q => ways n c p q ∨ waysAny ns c p q
end

/-! ## A way reads runes -/

variable {icu} {c : VerifierContext}

theorem literalWay_steps {icase : Bool} : ∀ {xs : List Nat} {p q : Nat}, literalWay icu c icase xs p q →
    runeSteps (contextRuneAt c) xs.length p q
  | [], _, _, h => h
  | _ :: _, _, _, ⟨r, hr, _, h⟩ => ⟨r.next, ⟨r, hr, rfl⟩, literalWay_steps h⟩

theorem iterSpan_steps {R : Nat → Nat → Prop} (hR : ∀ p q, R p q → ∃ k, runeSteps (contextRuneAt c) k p q) :
    ∀ {k p q : Nat}, iterSpan R k p q → ∃ j, runeSteps (contextRuneAt c) j p q
  | 0, _, _, h => ⟨0, h⟩
  | _ + 1, _, _, ⟨_, h1, h2⟩ =>
    have ⟨i, hi⟩ := hR _ _ h1
    have ⟨j, hj⟩ := iterSpan_steps hR h2
    ⟨i + j, iterSpan_trans hi hj⟩

theorem ways_steps (n : RegexNode) : ∀ {p q : Nat}, ways icu n c p q → ∃ k, runeSteps (contextRuneAt c) k p q := by
  induction n using RegexNode.recChildren with
  | empty f => exact fun h => ⟨0, h⟩
  | literal f l => exact fun h => ⟨_, literalWay_steps h⟩
  | dot f => exact fun ⟨r, hr, _, hq⟩ => ⟨1, r.next, ⟨r, hr, rfl⟩, hq.symm⟩
  | cls f s => exact fun ⟨r, hr, _, hq⟩ => ⟨1, r.next, ⟨r, hr, rfl⟩, hq.symm⟩
  | assert f k => exact fun h => ⟨0, h.2.symm⟩
  | concat f cs ih =>
    change ∀ {p q : Nat}, waysAll icu cs c p q → _
    induction cs with
    | nil => exact fun h => ⟨0, h⟩
    | cons n ns ihs =>
      rintro p q ⟨m, h1, h2⟩
      obtain ⟨i, hi⟩ := ih n List.mem_cons_self h1
      obtain ⟨j, hj⟩ := ihs (fun d hd => ih d (List.mem_cons_of_mem _ hd)) h2
      exact ⟨i + j, iterSpan_trans hi hj⟩
  | alt f cs ih =>
    change ∀ {p q : Nat}, waysAny icu cs c p q → _
    induction cs with
    | nil => exact fun h => h.elim
    | cons n ns ihs =>
      rintro p q (h | h)
      · exact ih n List.mem_cons_self h
      · exact ihs (fun d hd => ih d (List.mem_cons_of_mem _ hd)) h
  | repeat_ f mn mx g n ih => exact fun ⟨_, _, _, h⟩ => iterSpan_steps (fun _ _ hpq => ih hpq.1) h
  | group f g nm n ih => exact ih
  | backRef f g => exact fun h => h.elim
  | lookAhead f neg n _ => exact fun h => ⟨0, h.1.symm⟩
  | lookBehind f neg n _ => exact fun h => ⟨0, h.1.symm⟩

theorem contextRuneAt_inside {pos : Nat} {r : Rune} (h : contextRuneAt c pos = some r) :
    c.recordBegin ≤ pos ∧ pos < c.recordEnd := by
  unfold contextRuneAt at h
  split at h
  · cases h
  · rename_i hin
    simp only [Bool.or_eq_true, decide_eq_true_eq, not_or] at hin
    omega

theorem moving_inside {n : RegexNode} {p q : Nat} (h : Moving (fun p q => ways icu n c p q) p q) :
    c.recordBegin ≤ p ∧ p < c.recordEnd ∧ p < q := by
  obtain ⟨k, hk⟩ := ways_steps n h.1
  cases k with
  | zero => exact absurd hk.symm h.2
  | succ k =>
    obtain ⟨m, ⟨r, hr, rfl⟩, hk⟩ := hk
    have hnext := contextRuneAt_next hr
    have hle := iterSpan_le (fun _ _ ⟨_, hr, hq⟩ => hq ▸ (contextRuneAt_next hr).le) hk
    obtain ⟨h1, h2⟩ := contextRuneAt_inside hr
    exact ⟨h1, h2, by omega⟩

theorem moves_le {n : RegexNode} : ∀ {k p q : Nat}, iterSpan (Moving (fun p q => ways icu n c p q)) k p q →
    k ≤ c.recordEnd - p ∧ (0 < k → c.recordBegin ≤ p ∧ p < c.recordEnd)
  | 0, _, _, _ => ⟨Nat.zero_le _, fun h => absurd h (Nat.lt_irrefl 0)⟩
  | k + 1, p, q, ⟨m, h1, h2⟩ => by
    have hin := moving_inside h1
    have hrest := (moves_le h2).1
    omega

/-! ## The loops of `eval` -/

/-- What `f` leads to, when it returns, is what `R` says. -/
def Computes (f : VmState → Eval (List VmState)) (R : Nat → Nat → Prop) : Prop :=
  ∀ s v, f s = .ok v → ∀ q, (∃ z ∈ v, z.pos = q) ↔ R s.pos q

section
variable {f : VmState → Eval (List VmState)} {R : Nat → Nat → Prop} (hf : Computes f R)
include hf

theorem Computes.expandAll_pos : ∀ {cur next v : List VmState}, expandAll f cur next = .ok v → ∀ q,
    (∃ z ∈ v, z.pos = q) ↔ (∃ z ∈ next, z.pos = q) ∨ ∃ st ∈ cur, R st.pos q
  | [], next, v, h, q => by
    cases h
    simp
  | st :: cur, next, v, h, q => by
    rw [expandAll] at h
    obtain ⟨w, hw, h⟩ := bind_ok h
    obtain ⟨out, hout, h⟩ := bind_ok h
    obtain rfl := limitStates_ok hout
    rw [Computes.expandAll_pos h q]
    simp only [List.mem_append, List.mem_cons, or_and_right, exists_or, exists_eq_left, hf st w hw q, or_assoc]

theorem Computes.repeatNext_pos : ∀ {cur v : List VmState}, repeatNext f cur = .ok v → ∀ q,
    (∃ z ∈ v, z.pos = q) ↔ ∃ st ∈ cur, Moving R st.pos q
  | [], v, h, q => by
    cases h
    simp
  | st :: cur, v, h, q => by
    rw [repeatNext] at h
    obtain ⟨w, hw, h⟩ := bind_ok h
    obtain ⟨rest, hrest, h⟩ := bind_ok h
    cases h
    have hst : (∃ z ∈ w.filter (fun z => z.pos != st.pos), z.pos = q) ↔ Moving R st.pos q := by
      rw [Moving, ← hf st w hw q]
      constructor
      · rintro ⟨z, hz, rfl⟩
        obtain ⟨h1, h2⟩ := List.mem_filter.1 hz
        exact ⟨⟨z, h1, rfl⟩, by simpa using h2⟩
      · rintro ⟨⟨z, hz, rfl⟩, hne⟩
        exact ⟨z, List.mem_filter.2 ⟨hz, by simpa using hne⟩, rfl⟩
    simp only [List.mem_append, List.mem_cons, or_and_right, exists_or, exists_eq_left, hst, Computes.repeatNext_pos hrest q]

/-- **The level `k` of a repetition** holds what `k` moves lead to, and there are no levels past the limit. -/
theorem Computes.repeatLevels_pos : ∀ {limit total : Nat} {cur : List VmState} {rest : List (List VmState)},
    repeatLevels f limit cur total = .ok rest → ∀ k q,
      (∃ l, rest[k]? = some l ∧ ∃ z ∈ l, z.pos = q) ↔ k < limit ∧ ∃ st ∈ cur, iterSpan (Moving R) (k + 1) st.pos q
  | 0, _, cur, rest, h, k, q => by
    cases h
    simp
  | limit + 1, total, cur, rest, h, k, q => by
    rw [repeatLevels] at h
    obtain ⟨next, hnext, h⟩ := bind_ok h
    have hmove := hf.repeatNext_pos hnext
    -- what is reached by more moves is reached from the next level
    have hhead : (∃ st ∈ cur, iterSpan (Moving R) (k + 1) st.pos q) ↔ ∃ st ∈ next, iterSpan (Moving R) k st.pos q := by
      constructor
      · rintro ⟨st, hst, m, h1, h2⟩
        obtain ⟨z, hz, rfl⟩ := (hmove m).2 ⟨st, hst, h1⟩
        exact ⟨z, hz, h2⟩
      · rintro ⟨z, hz, h2⟩
        obtain ⟨st, hst, h1⟩ := (hmove z.pos).1 ⟨z, hz, rfl⟩
        exact ⟨st, hst, z.pos, h1, h2⟩
    rw [hhead]
    split at h
    · rename_i hempty
      cases h
      rw [List.isEmpty_iff.1 hempty]
      simp
    split at h
    · cases h
    · obtain ⟨rest', hrest, h⟩ := bind_ok h
      cases h
      cases k with
      | zero => simp [iterSpan, eq_comm]
      | succ k => rw [List.getElem?_cons_succ, Computes.repeatLevels_pos hrest k q, Nat.add_lt_add_iff_right]

end

theorem lookBehindAll_returns {f : VmState → Eval (List VmState)} {s : VmState} : ∀ {fuel p : Nat} {out : List VmState},
    lookBehindAll c f s fuel p = .ok out → ∀ q ∈ scanStarts c s.pos fuel p, ∃ v, f { s with pos := q } = .ok v
  | 0, _, _, _, q, hq => by cases hq
  | fuel + 1, p, out, h, q, hq => by
    rw [lookBehindAll] at h
    rw [scanStarts] at hq
    split at h
    · rename_i hlt
      rw [if_pos hlt] at hq
      cases hq
    · rename_i hlt
      rw [if_neg hlt] at hq
      obtain ⟨v, hv, h⟩ := bind_ok h
      dsimp only at h
      split at h
      · rename_i heq
        rw [if_pos heq] at hq
        rw [List.mem_singleton.1 hq]
        exact ⟨v, hv⟩
      · rename_i hne
        rw [if_neg hne] at hq
        obtain ⟨rest, hrest, -⟩ := bind_ok h
        rcases List.mem_cons.1 hq with rfl | hq
        · exact ⟨v, hv⟩
        · exact lookBehindAll_returns hrest q hq

theorem lookBehindAny_returns {f : VmState → Eval (List VmState)} {s : VmState} : ∀ {fuel p : Nat},
    lookBehindAny c f s fuel p = .ok false → ∀ q ∈ scanStarts c s.pos fuel p, ∃ v, f { s with pos := q } = .ok v
  | 0, _, _, q, hq => by cases hq
  | fuel + 1, p, h, q, hq => by
    rw [lookBehindAny] at h
    rw [scanStarts] at hq
    split at h
    · rename_i hlt
      rw [if_pos hlt] at hq
      cases hq
    · rename_i hlt
      rw [if_neg hlt] at hq
      obtain ⟨v, hv, h⟩ := bind_ok h
      split at h
      · cases h
      split at h
      · rename_i heq
        rw [if_pos heq] at hq
        rw [List.mem_singleton.1 hq]
        exact ⟨v, hv⟩
      · rename_i hne
        rw [if_neg hne] at hq
        rcases List.mem_cons.1 hq with rfl | hq
        · exact ⟨v, hv⟩
        · exact lookBehindAny_returns h q hq

theorem Computes.leadsTo {f : VmState → Eval (List VmState)} {R : Nat → Nat → Prop} (hf : Computes f R) {s : VmState}
    {p : Nat} (h : ∃ v, f { s with pos := p } = .ok v) : LeadsTo f s p ↔ R p s.pos := by
  obtain ⟨v, hv⟩ := h
  rw [leadsTo_iff hv]
  exact hf _ v hv s.pos

/-- **The scans of a look-behind** find a start from which the body leads to the position, when they return. -/
theorem Computes.lookBehindAll_pos {f : VmState → Eval (List VmState)} {R : Nat → Nat → Prop} (hf : Computes f R)
    {s : VmState} {fuel p : Nat} {out : List VmState} (h : lookBehindAll c f s fuel p = .ok out) :
    out ≠ [] ↔ ∃ q ∈ scanStarts c s.pos fuel p, R q s.pos := by
  rw [lookBehindAll_iff h]
  exact exists_congr (fun q => and_congr_right (fun hq => hf.leadsTo (lookBehindAll_returns h q hq)))

theorem Computes.lookBehindAny_pos {f : VmState → Eval (List VmState)} {R : Nat → Nat → Prop} (hf : Computes f R)
    {s : VmState} {fuel p : Nat} {b : Bool} (h : lookBehindAny c f s fuel p = .ok b) :
    b = true ↔ ∃ q ∈ scanStarts c s.pos fuel p, R q s.pos := by
  cases b with
  | false =>
    rw [lookBehindAny_iff h]
    exact exists_congr (fun q => and_congr_right (fun hq => hf.leadsTo (lookBehindAny_returns h q hq)))
  | true =>
    obtain ⟨q, hq, v, hv, hz⟩ := (lookBehindAny_iff h).1 rfl
    exact iff_of_true rfl ⟨q, hq, (hf.leadsTo ⟨v, hv⟩).1 ⟨v, hv, hz⟩⟩

/-! ## `eval` -/

theorem contextLiteralAt_iff {lit : Bytes} {icase : Bool} : ∀ {fuel k tp lp e : Nat}, lit.length - lp < fuel →
    lit.length - lp ≤ k →
      (contextLiteralAt icu c lit icase fuel tp lp = some e ↔ literalWay icu c icase (runesFrom lit k lp) tp e)
  | 0, _, _, _, _, hfuel, _ => absurd hfuel (Nat.not_lt_zero _)
  | fuel + 1, 0, tp, lp, e, _, hk => by
    rw [contextLiteralAt, if_neg (by omega)]
    exact Option.some_inj
  | fuel + 1, k + 1, tp, lp, e, hfuel, hk => by
    rw [contextLiteralAt, runesFrom]
    by_cases hlt : lp < lit.length
    · obtain ⟨b, hb⟩ := runeAt_isSome hlt
      have hnext := (runeAt_next hb).1
      rw [if_pos hlt, hb]
      dsimp only
      rw [literalWay]
      cases ha : contextRuneAt c tp with
      | none => simp
      | some a =>
        dsimp only
        have hrest : contextLiteralAt icu c lit icase fuel a.next b.next = some e ↔
            literalWay icu c icase (runesFrom lit k b.next) a.next e := contextLiteralAt_iff (by omega) (by omega)
        simp only [Option.some.injEq, exists_eq_left', ← hrest]
        split
        · rename_i heq
          exact (and_iff_right heq).symm
        · rename_i hne
          exact iff_of_false (fun h => by cases h) (fun h => hne h.1)
    · rw [if_neg hlt, runeAt_eq_none.2 (by omega)]
      exact Option.some_inj

theorem evalLiteral_pos {f : NodeFlags} {lit : Bytes} {s : VmState} {q : Nat} :
    (∃ z ∈ evalLiteral icu c lit f.icase s, z.pos = q) ↔ literalWay icu c f.icase (runes lit) s.pos q := by
  have hiff : contextLiteralAt icu c lit f.icase (lit.length + 1) s.pos 0 = some q ↔
      literalWay icu c f.icase (runesFrom lit lit.length 0) s.pos q := contextLiteralAt_iff (by omega) (by omega)
  rw [runes, ← hiff, evalLiteral]
  split
  · rename_i e he
    rw [he]
    simp
  · rename_i hnone
    rw [hnone]
    simp

theorem evalRune_pos {test : Nat → Bool} {s : VmState} {q : Nat} :
    (∃ z ∈ evalRune c test s, z.pos = q) ↔ ∃ r, contextRuneAt c s.pos = some r ∧ test r.cp = true ∧ q = r.next := by
  rw [evalRune]
  split
  · rename_i r hr
    rw [hr]
    simp only [Option.some.injEq, exists_eq_left']
    split
    · rename_i ht
      simp [ht, eq_comm]
    · rename_i ht
      simp [ht]
  · rename_i hnone
    rw [hnone]
    simp

theorem evalConcat_pos {depth : Nat} : ∀ {cs : List RegexNode} {cur v : List VmState},
    (∀ n ∈ cs, Computes (eval icu n c depth) (ways icu n c)) → evalConcat icu cs c depth cur = .ok v → ∀ q,
      (∃ z ∈ v, z.pos = q) ↔ ∃ st ∈ cur, waysAll icu cs c st.pos q
  | [], cur, v, _, h, q => by
    rw [evalConcat] at h
    cases h
    rfl
  | n :: cs, cur, v, hall, h, q => by
    rw [evalConcat] at h
    obtain ⟨next, hnext, h⟩ := bind_ok h
    have hstep := (hall n List.mem_cons_self).expandAll_pos hnext
    simp only [List.not_mem_nil, false_and, exists_false, false_or] at hstep
    have hchain : (∃ st ∈ cur, waysAll icu (n :: cs) c st.pos q) ↔ ∃ z ∈ next, waysAll icu cs c z.pos q := by
      constructor
      · rintro ⟨st, hst, m, h1, h2⟩
        obtain ⟨z, hz, rfl⟩ := (hstep m).2 ⟨st, hst, h1⟩
        exact ⟨z, hz, h2⟩
      · rintro ⟨z, hz, h2⟩
        obtain ⟨st, hst, h1⟩ := (hstep z.pos).1 ⟨z, hz, rfl⟩
        exact ⟨st, hst, z.pos, h1, h2⟩
    rw [hchain]
    split at h
    · rename_i hempty
      cases h
      rw [List.isEmpty_iff.1 hempty]
      simp
    · exact evalConcat_pos (fun d hd => hall d (List.mem_cons_of_mem _ hd)) h q

theorem evalAlt_pos {depth : Nat} {s : VmState} : ∀ {cs : List RegexNode} {out v : List VmState},
    (∀ n ∈ cs, Computes (eval icu n c depth) (ways icu n c)) → evalAlt icu cs c depth s out = .ok v → ∀ q,
      (∃ z ∈ v, z.pos = q) ↔ (∃ z ∈ out, z.pos = q) ∨ waysAny icu cs c s.pos q
  | [], out, v, _, h, q => by
    rw [evalAlt] at h
    cases h
    exact (or_iff_left id).symm
  | n :: cs, out, v, hall, h, q => by
    rw [evalAlt] at h
    obtain ⟨w, hw, h⟩ := bind_ok h
    obtain ⟨out', hout, h⟩ := bind_ok h
    obtain rfl := limitStates_ok hout
    rw [evalAlt_pos (fun d hd => hall d (List.mem_cons_of_mem _ hd)) h q, waysAny, ← hall n List.mem_cons_self s w hw q,
      ← or_assoc]
    simp only [List.mem_append, or_and_right, exists_or]

/-- **A repetition**: the levels from its least on, all of them up to the limit. -/
theorem Computes.levels_pos {f : VmState → Eval (List VmState)} {R : Nat → Nat → Prop} (hf : Computes f R) {s : VmState}
    {limit mn : Nat} {rest : List (List VmState)} (h : repeatLevels f limit [s] 1 = .ok rest) (q : Nat) :
    (∃ z ∈ (([s] :: rest).drop mn).flatten, z.pos = q) ↔ ∃ k, mn ≤ k ∧ k ≤ limit ∧ iterSpan (Moving R) k s.pos q := by
  have hlevel : ∀ k, (∃ l, ([s] :: rest)[k]? = some l ∧ ∃ z ∈ l, z.pos = q) ↔ k ≤ limit ∧ iterSpan (Moving R) k s.pos q := by
    intro k
    cases k with
    | zero => simp [iterSpan]
    | succ k =>
      rw [List.getElem?_cons_succ, hf.repeatLevels_pos h k q, Nat.succ_le_iff]
      simp only [List.mem_singleton, exists_eq_left]
  constructor
  · rintro ⟨z, hz, hq⟩
    obtain ⟨l, hl, hz⟩ := List.mem_flatten.1 hz
    obtain ⟨i, hi⟩ := List.mem_iff_getElem?.1 hl
    rw [List.getElem?_drop] at hi
    obtain ⟨h1, h2⟩ := (hlevel (mn + i)).1 ⟨l, hi, z, hz, hq⟩
    exact ⟨mn + i, Nat.le_add_right mn i, h1, h2⟩
  · rintro ⟨k, hk, h1, h2⟩
    obtain ⟨l, hl, z, hz, hq⟩ := (hlevel k).2 ⟨h1, h2⟩
    refine ⟨z, List.mem_flatten.2 ⟨l, List.mem_iff_getElem?.2 ⟨k - mn, ?_⟩, hz⟩, hq⟩
    rw [List.getElem?_drop, Nat.add_sub_cancel' hk, hl]

/-- The record, and what a look-behind sees of the text, are no longer than a repetition goes. -/
structure VerifierContext.Short (c : VerifierContext) : Prop where
  record : c.recordEnd - c.recordBegin ≤ vmRepeatLimit
  behind : (lookBehindContext c).recordEnd - (lookBehindContext c).recordBegin ≤ vmRepeatLimit

theorem VerifierContext.Short.lookBehind (h : c.Short) : (lookBehindContext c).Short := by
  refine ⟨h.behind, ?_⟩
  have hsame : lookBehindContext (lookBehindContext c) = lookBehindContext c := by
    unfold lookBehindContext
    dsimp only
    cases c.leftContextAvailable <;> cases c.rightContextAvailable <;> rfl
  rw [hsame]
  exact h.behind

theorem VerifierContext.Short.limit (h : c.Short) {n : RegexNode} {k p q mx : Nat}
    (hk : iterSpan (Moving (fun p q => ways icu n c p q)) k p q) : k ≤ repeatLimit c mx p ↔ mx = sizeMax ∨ k ≤ mx := by
  obtain ⟨hle, hin⟩ := moves_le hk
  have hshort := h.record
  have hmax : vmRepeatLimit < sizeMax := by decide
  have hbound : k ≤ vmRepeatLimit := by
    rcases Nat.eq_zero_or_pos k with rfl | hpos
    · exact Nat.zero_le _
    · have := hin hpos
      omega
  have hhard : k ≤ if p ≤ c.recordEnd then c.recordEnd - p + 1 else 0 := by
    split
    · omega
    · omega
  unfold repeatLimit
  dsimp only
  split
  · rename_i heq
    exact iff_of_true (Nat.le_min.2 ⟨hhard, hbound⟩) (Or.inl heq)
  · rename_i hne
    rw [or_iff_right hne, Nat.le_min, and_iff_left hbound]

theorem eval_depth {n : RegexNode} {depth : Nat} {s : VmState} {v : List VmState} (h : eval icu n c depth s = .ok v) :
    ¬ vmDepthLimit < depth := by
  intro hlt
  rw [eval.eq_def] at h
  dsimp only at h
  rw [if_pos hlt] at h
  cases h

/-- **`eval` leads to exactly the ways of a tree without back-references**, from every state, when it returns. -/
theorem eval_ways (n : RegexNode) : n.unreferenced = true → ∀ {c : VerifierContext}, c.Short → ∀ depth,
    Computes (eval icu n c depth) (ways icu n c) := by
  induction n using RegexNode.recChildren with
  | empty f =>
    intro _ c _ depth s v h q
    have hd := eval_depth h
    rw [eval, if_neg hd] at h
    cases h
    simp [ways]
  | literal f l =>
    intro _ c _ depth s v h q
    have hd := eval_depth h
    rw [eval, if_neg hd] at h
    cases h
    exact evalLiteral_pos
  | dot f =>
    intro _ c _ depth s v h q
    have hd := eval_depth h
    rw [eval, if_neg hd] at h
    cases h
    exact evalRune_pos
  | cls f k =>
    intro _ c _ depth s v h q
    have hd := eval_depth h
    rw [eval, if_neg hd] at h
    cases h
    exact evalRune_pos
  | assert f k =>
    intro _ c _ depth s v h q
    have hd := eval_depth h
    rw [eval, if_neg hd] at h
    cases h
    rw [ways]
    split
    · rename_i ha
      simp [ha, eq_comm]
    · rename_i ha
      simp [ha]
  | concat f cs ih =>
    intro hn c hc depth s v h q
    have hall := RegexNode.unreferencedAll_iff.1 hn
    have hd := eval_depth h
    rw [eval, if_neg hd] at h
    rw [evalConcat_pos (fun d hd => ih d hd (hall d hd) hc _) h q, ways]
    simp only [List.mem_singleton, exists_eq_left]
  | alt f cs ih =>
    intro hn c hc depth s v h q
    have hall := RegexNode.unreferencedAll_iff.1 hn
    have hd := eval_depth h
    rw [eval, if_neg hd] at h
    rw [evalAlt_pos (fun d hd => ih d hd (hall d hd) hc _) h q, ways]
    simp only [List.not_mem_nil, false_and, exists_false, false_or]
  | group f g nm n ih =>
    intro hn c hc depth s v h q
    have hd := eval_depth h
    rw [eval, if_neg hd] at h
    obtain ⟨w, hw, h⟩ := bind_ok h
    cases h
    rw [ways, ← ih hn hc _ s w hw q]
    simp only [List.mem_map, exists_exists_and_eq_and]
    rfl
  | backRef f g => exact fun hn => by cases hn
  | lookAhead f negative n ih =>
    intro hn c hc depth s v h q
    have hd := eval_depth h
    rw [eval, if_neg hd] at h
    obtain ⟨w, hw, h⟩ := bind_ok h
    have hleads : (∃ e, ways icu n c s.pos e) ↔ w ≠ [] := by
      simp only [← ih hn hc _ s w hw]
      constructor
      · rintro ⟨e, z, hz, -⟩
        exact List.ne_nil_of_mem hz
      · intro hne
        obtain ⟨z, hz⟩ := List.exists_mem_of_ne_nil w hne
        exact ⟨z.pos, z, hz, rfl⟩
    rw [ways, hleads]
    cases negative with
    | true =>
      rw [if_pos rfl] at h
      cases h
      cases w with
      | nil => simp [eq_comm]
      | cons z w => simp
    | false =>
      rw [if_neg Bool.false_ne_true] at h
      cases h
      simp only [List.mem_map, exists_exists_and_eq_and, true_iff]
      constructor
      · rintro ⟨z, hz, rfl⟩
        exact ⟨rfl, List.ne_nil_of_mem hz⟩
      · rintro ⟨rfl, hne⟩
        obtain ⟨z, hz⟩ := List.exists_mem_of_ne_nil w hne
        exact ⟨z, hz, rfl⟩
  | lookBehind f negative n ih =>
    intro hn c hc depth s v h q
    have hd := eval_depth h
    rw [eval, if_neg hd] at h
    have hf := ih hn hc.lookBehind (depth + 1)
    rw [ways, lookBehindStarts]
    cases negative with
    | true =>
      rw [if_pos rfl] at h
      obtain ⟨b, hb, h⟩ := bind_ok h
      cases h
      rw [← hf.lookBehindAny_pos hb]
      cases b with
      | true => simp
      | false => simp [eq_comm]
    | false =>
      rw [if_neg Bool.false_ne_true] at h
      rw [← hf.lookBehindAll_pos h]
      constructor
      · rintro ⟨z, hz, rfl⟩
        exact ⟨lookBehindAll_pos h z hz, iff_of_true rfl (List.ne_nil_of_mem hz)⟩
      · rintro ⟨rfl, hne⟩
        obtain ⟨z, hz⟩ := List.exists_mem_of_ne_nil v (hne.1 rfl)
        exact ⟨z, hz, lookBehindAll_pos h z hz⟩
  | repeat_ f mn mx greedy n ih =>
    intro hn c hc depth s v h q
    have hd := eval_depth h
    rw [eval, if_neg hd] at h
    obtain ⟨rest, hrest, h⟩ := bind_ok h
    rw [limitStates_ok h, ways]
    have hmem : (∃ z ∈ (if greedy then (([s] :: rest).drop mn).reverse.flatten else (([s] :: rest).drop mn).flatten),
        z.pos = q) ↔ ∃ z ∈ (([s] :: rest).drop mn).flatten, z.pos = q := by
      split
      · simp only [List.mem_flatten, List.mem_reverse]
      · rfl
    rw [hmem, (ih hn hc _).levels_pos hrest q]
    exact exists_congr (fun k => and_congr_right (fun _ => and_congr_left (fun hk => hc.limit hk)))

end

end Pergrep
