import Pergrep.Regex.SimSpec
/-!
# Tables — the closure tables against the expansion on line

A program keeps its tables when it has no captures and no assertions and both sizes are within their caps
(`KeepsTables`); otherwise they are left empty and every thread is expanded on line.  The two ways mark
different instructions: the tables the entries of a row, the expansion everything it goes through.  What both keep is that the
marks are closed under expansion and that an instruction at which threads stay is marked when the list has a thread there
(`ClosedMarks`), and that alone decides what a call appends (`addNfaThread_closed`).
-/
namespace Pergrep

open Worklist

section
variable (icu : Icu) (p : RegexProgram)

def RegexProgram.online : RegexProgram := { p with closureOffsets := [], closurePcs := [] }

/-- The expansion by `add_nfa_thread` where there are no tables. -/
def expandOnline (c : VerifierContext) (pos : Nat) (seed : NfaThread) (generation : Nat) (list : List NfaThread)
    (seen : List Nat) : List NfaThread × List Nat :=
  (Worklist.run (threadKey p) (threadNext icu p c pos) (fun seen k => seen.getD k 0 == generation)
    (fun seen k => seen.set k generation) (expandFuel p.nfa) [seed] seen list).swap

/-- A call of `add_nfa_thread`, less the list and the marks. -/
structure ThreadCall where
  context : VerifierContext
  pos : Nat
  seed : NfaThread

def addNfaThreads (generation : Nat) (calls : List ThreadCall) (s : List NfaThread × List Nat) :
    List NfaThread × List Nat :=
  calls.foldl (fun s call => addNfaThread icu p call.context call.pos call.seed generation s.1 s.2) s

/-- What the calls append: the closures of their threads, without duplicates. -/
def enlistCalls (list : List NfaThread) (calls : List ThreadCall) : List NfaThread :=
  calls.foldl (fun list call => enlist list (threadClosure icu p call.context call.pos call.seed)) list

variable {icu p}

/-! ## The caps -/

def closureEntries (nfa : Prog) : List Nat := (List.range nfa.length).flatMap (closureRow nfa)

theorem closureRows_isSome_iff (nfa : Prog) : ∀ (sources offsets pcs : List Nat), pcs.length ≤ maxClosureEntries →
    ((closureRows nfa sources offsets pcs).isSome = true ↔
      (pcs ++ sources.flatMap (closureRow nfa)).length ≤ maxClosureEntries)
  | [], offsets, pcs, h => by
    rw [List.flatMap_nil, List.append_nil]
    exact iff_of_true rfl h
  | source :: rest, offsets, pcs, h => by
    rw [closureRows, List.flatMap_cons, ← List.append_assoc]
    by_cases hfull : maxClosureEntries < (pcs ++ closureRow nfa source).length
    · rw [if_pos hfull]
      refine iff_of_false Bool.false_ne_true (fun hle => ?_)
      rw [List.length_append] at hle
      omega
    · rw [if_neg hfull]
      exact closureRows_isSome_iff nfa rest _ _ (by omega)

/-- **When a program keeps its tables.** -/
structure KeepsTables (groups : Nat) (nfa : Prog) : Prop where
  captureFree : groups = 0
  nonempty : nfa ≠ []
  assertionFree : ∀ i ∈ nfa, i.op.tabled = true
  pcs : nfa.length ≤ maxClosurePcs
  entries : (closureEntries nfa).length ≤ maxClosureEntries

theorem buildNfaClosures_cases (groups : Nat) (nfa : Prog) :
    (KeepsTables groups nfa ∧ (buildNfaClosures groups nfa).1 ≠ []) ∨
      (¬ KeepsTables groups nfa ∧ buildNfaClosures groups nfa = ([], [])) := by
  unfold buildNfaClosures
  split
  · rename_i h
    refine Or.inr ⟨fun hkeeps => ?_, rfl⟩
    rcases h with h | h | h
    · exact h hkeeps.captureFree
    · exact hkeeps.nonempty (List.isEmpty_iff.1 h)
    · exact absurd hkeeps.pcs (Nat.not_le_of_lt h)
  · rename_i h
    split
    · rename_i hops
      refine Or.inr ⟨fun hkeeps => ?_, rfl⟩
      rw [Bool.not_eq_true', List.all_eq_false] at hops
      obtain ⟨i, hi, hop⟩ := hops
      exact hop (hkeeps.assertionFree i hi)
    · rename_i hops
      have hops' : ∀ i ∈ nfa, i.op.tabled = true := by simpa using hops
      have hne : nfa ≠ [] := fun hnil => h (Or.inr (Or.inl (List.isEmpty_iff.2 hnil)))
      have hsome := closureRows_isSome_iff nfa (List.range nfa.length) [0] [] (Nat.zero_le _)
      rw [List.nil_append] at hsome
      cases hrows : closureRows nfa (List.range nfa.length) [0] [] with
      | none =>
        rw [hrows] at hsome
        exact Or.inr ⟨fun hkeeps => absurd (hsome.2 hkeeps.entries) Bool.false_ne_true, rfl⟩
      | some r =>
        rw [hrows] at hsome
        obtain ⟨o, q⟩ := r
        obtain ⟨⟨t, ht⟩, -⟩ := closureRows_spec nfa _ _ _ hrows rfl
        refine Or.inl ⟨⟨by omega, hne, hops', by omega, hsome.1 rfl⟩, ?_⟩
        change o ≠ []
        rw [← ht]
        exact List.cons_ne_nil _ _

theorem closureOffsets_ne_nil_iff (ht : p.Tables) : p.closureOffsets ≠ [] ↔ KeepsTables p.groups p.nfa := by
  rw [show p.closureOffsets = (buildNfaClosures p.groups p.nfa).1 from (Prod.mk.inj ht).1]
  rcases buildNfaClosures_cases p.groups p.nfa with ⟨hkeeps, hne⟩ | ⟨hkeeps, hnil⟩
  · exact iff_of_true hne hkeeps
  · exact iff_of_false (fun hne => hne (by rw [hnil])) hkeeps

theorem tables_eq_nil (ht : p.Tables) (h : ¬ KeepsTables p.groups p.nfa) : p.closureOffsets = [] ∧ p.closurePcs = [] := by
  rcases buildNfaClosures_cases p.groups p.nfa with ⟨hkeeps, -⟩ | ⟨-, hnil⟩
  · exact absurd hkeeps h
  · exact Prod.mk.inj (ht.trans hnil)

theorem addNfaThread_online (h : p.closureOffsets = []) (c : VerifierContext) (pos : Nat) (seed : NfaThread)
    (generation : Nat) (list : List NfaThread) (seen : List Nat) :
    addNfaThread icu p c pos seed generation list seen = expandOnline icu p c pos seed generation list seen := by
  unfold addNfaThread expandOnline
  cases hkey : pcKey p.nfa seed.pc with
  | none =>
    -- the one pop drops the thread
    unfold expandFuel
    rw [run, show threadKey p seed = none from hkey]
    rfl
  | some pc =>
    dsimp only
    rw [if_neg]
    · rfl
    · rw [h, Bool.and_eq_true]
      exact fun hand => absurd hand.1 Bool.false_ne_true

/-! ## Marks of one generation -/

/-- Where nothing is saved and nothing asserted, the position and the context do not matter. -/
theorem threadSucc_tabled (hops : ∀ i ∈ p.nfa, i.op.tabled = true) (c c' : VerifierContext) (pos pos' : Nat) :
    threadSucc icu p c pos = threadSucc icu p c' pos' := by
  funext k
  unfold threadSucc threadNext
  cases hi : NfaThread.inst p { pc := some k, start := 0 } with
  | none => rfl
  | some i =>
    have hmem : i ∈ p.nfa := by
      rw [NfaThread.inst, Option.bind_some] at hi
      exact List.mem_of_getElem? hi
    have htab := hops i hmem
    simp only
    cases hop : i.op <;> simp only [hop, NfaOp.tabled, Bool.false_eq_true] at htab <;> rfl

theorem ClosedMarks.move (hops : ∀ i ∈ p.nfa, i.op.tabled = true) {c : VerifierContext} (c' : VerifierContext) {pos : Nat}
    (pos' : Nat) {generation : Nat} {list : List NfaThread} {seen : List Nat} (h : ClosedMarks icu p c pos generation list seen) :
    ClosedMarks icu p c' pos' generation list seen where
  length := h.length
  closed := threadSucc_tabled hops c c' pos pos' ▸ h.closed
  stays := h.stays

theorem ClosedMarks.nil (c : VerifierContext) (pos : Nat) {generation : Nat} {seen : List Nat} (hlength : seen.length = p.nfa.length)
    (hnew : generation ∉ seen) : ClosedMarks icu p c pos generation [] seen := by
  have hnone : ∀ k < p.nfa.length, seen.getD k 0 ≠ generation := by
    intro k hk heq
    rw [List.getD_eq_getElem?_getD, List.getElem?_eq_getElem (by omega), Option.getD_some] at heq
    exact hnew (heq ▸ List.getElem_mem _)
  refine ⟨hlength, fun k hk ks hs j hj => ?_, fun k hk => ?_⟩
  · -- outside the program an instruction expands to nothing
    by_cases hlt : k < p.nfa.length
    · exact absurd hk (hnone k hlt)
    · unfold threadSucc threadNext at hs
      rw [NfaThread.inst, Option.bind_some, List.getElem?_eq_none (Nat.le_of_not_lt hlt)] at hs
      cases hs
      cases hj
  · refine iff_of_false (hnone k (stays_lt hk)) ?_
    rintro ⟨t, ht, -⟩
    exact absurd ht List.not_mem_nil

/-- **One call under closed marks**, whichever way it goes. -/
theorem addNfaThread_closed (ht : p.tabled = true → p.Tables) {c : VerifierContext} {pos generation : Nat}
    {list : List NfaThread} {seen : List Nat} (hm : ClosedMarks icu p c pos generation list seen) (seed : NfaThread) :
    (addNfaThread icu p c pos seed generation list seen).1 = enlist list (threadClosure icu p c pos seed) ∧
      ClosedMarks icu p c pos generation (enlist list (threadClosure icu p c pos seed))
        (addNfaThread icu p c pos seed generation list seen).2 := by
  cases hkey : pcKey p.nfa seed.pc with
  | none =>
    rw [threadClosure_none hkey, enlist_nil]
    unfold addNfaThread
    rw [hkey]
    exact ⟨rfl, hm⟩
  | some pc =>
    by_cases hcond : (p.closureOffsets.length == p.nfa.length + 1 && seed.caps.isEmpty) = true
    · obtain ⟨htab, hseed⟩ := Bool.and_eq_true_iff.1 hcond
      obtain ⟨hpc, hlt⟩ := pcKey_eq_some.1 hkey
      have hcaps : seed.caps = [] := List.isEmpty_iff.1 hseed
      obtain ⟨-, -, hops⟩ := tables_row (ht htab) htab hlt
      obtain ⟨h1, h2, h3⟩ := addTabled_spec icu c (ht htab) htab pos hm.length hm.stays hcaps hkey []
      refine ⟨h1, h2, fun k hk ks hs j hj => ?_, fun k hk => addTabled_stays hops hm.stays hcaps hpc h3 hk⟩
      -- an entry of the row expands to nothing, and the old marks are closed
      change (addNfaThread icu p c pos seed generation list seen).2.getD j 0 = generation
      have hk' : (addNfaThread icu p c pos seed generation list seen).2.getD k 0 = generation := hk
      have h3' : ∀ k, (addNfaThread icu p c pos seed generation list seen).2.getD k 0 =
        if k ∈ closureRow p.nfa pc then generation else seen.getD k 0 := h3
      rw [h3'] at hk' ⊢
      split at hk'
      · rename_i hrow
        have hstay := (closureRow_spec icu c hops pc).2 k hrow
        rw [(threadSucc_none_iff (stays_lt hstay)).2 hstay] at hs
        cases hs
      · split
        · rfl
        · exact hm.closed k hk' ks hs j hj
    · obtain ⟨h1, h2, -⟩ := addOnline_spec hm hcond hkey []
      exact ⟨h1, h2⟩

variable (icu) in
/-- **Calls in one generation append the closures of their threads**, with or without tables. -/
theorem addNfaThreads_closed (ht : p.tabled = true → p.Tables) (hops : ∀ i ∈ p.nfa, i.op.tabled = true) {generation : Nat} :
    ∀ (calls : List ThreadCall) {c : VerifierContext} {pos : Nat} {list : List NfaThread} {seen : List Nat},
      ClosedMarks icu p c pos generation list seen →
        (addNfaThreads icu p generation calls (list, seen)).1 = enlistCalls icu p list calls
  | [], _, _, _, _, _ => rfl
  | call :: calls, c, pos, list, seen, hm => by
    obtain ⟨h1, h2⟩ := addNfaThread_closed ht (hm.move hops call.context call.pos) call.seed
    unfold addNfaThreads enlistCalls
    rw [List.foldl_cons, List.foldl_cons, ← h1]
    rw [← h1] at h2
    exact addNfaThreads_closed ht hops calls h2

/-! ## With and without tables -/

/-- **The tables change nothing.**  Where a program keeps them, calls in one generation list the same threads in the same order
with them and without them; where a cap was hit there are none, and every thread is expanded on line. -/
theorem closureTables_refine (icu : Icu) (p : RegexProgram) (ht : p.Tables) :
    (p.closureOffsets ≠ [] → ∀ (generation : Nat) (seen seen' : List Nat) (calls : List ThreadCall),
      seen.length = p.nfa.length → seen'.length = p.nfa.length → generation ∉ seen → generation ∉ seen' →
        (addNfaThreads icu p generation calls ([], seen)).1 =
          (addNfaThreads icu p.online generation calls ([], seen')).1) ∧
    (maxClosurePcs < p.nfa.length ∨ maxClosureEntries < (closureEntries p.nfa).length →
      p.closureOffsets = [] ∧ p.closurePcs = [] ∧ ∀ c pos seed generation list seen,
        addNfaThread icu p c pos seed generation list seen = expandOnline icu p c pos seed generation list seen) := by
  constructor
  · intro hkept generation seen seen' calls hlen hlen' hnew hnew'
    have hops := ((closureOffsets_ne_nil_iff ht).1 hkept).assertionFree
    have hwith := addNfaThreads_closed icu (fun _ => ht) hops calls
      (ClosedMarks.nil { source := [] } 0 hlen hnew)
    have hwithout := addNfaThreads_closed icu (p := p.online) (fun h => absurd h Bool.false_ne_true) hops calls
      (ClosedMarks.nil { source := [] } 0 hlen' hnew')
    rw [hwith, hwithout]
    rfl
  · intro hcap
    have hkeeps : ¬ KeepsTables p.groups p.nfa := by
      intro hkeeps
      have := hkeeps.pcs
      have := hkeeps.entries
      omega
    obtain ⟨hoffsets, hpcs⟩ := tables_eq_nil ht hkeeps
    exact ⟨hoffsets, hpcs, fun c pos seed generation list seen => addNfaThread_online hoffsets c pos seed generation list seen⟩

def withTables (nfa : Prog) : RegexProgram :=
  { ast := .empty {}, nfa, nfaStart := some 0, closureOffsets := (buildNfaClosures 0 nfa).1
    closurePcs := (buildNfaClosures 0 nfa).2 }

theorem withTables_tables (nfa : Prog) : (withTables nfa).Tables := rfl

/-- A loop in a loop, `(a*)*`, whose splits lead to one another. -/
def loopProgram : RegexProgram :=
  withTables [{ op := .split, x := some 1, y := some 3 }, { op := .split, x := some 2, y := some 0 },
    { op := .rune 0x61, x := some 1 }, { op := .match_ }]

/-- Two threads in one generation, the second entering the loop where the first has been. -/
def loopCalls : List ThreadCall :=
  [{ context := { source := [] }, pos := 1, seed := { pc := some 1, start := 0 } },
    { context := { source := [] }, pos := 1, seed := { pc := some 0, start := 1 } }]

def wideNfa : Prog := List.replicate 257 { op := .match_ }

theorem wideNfa_length : maxClosurePcs < wideNfa.length := by
  rw [wideNfa, List.length_replicate]
  decide

/-- The loop has tables, and the threads are the same without; the wide program has none. -/
theorem closureTables_refine_loop : (loopProgram.closurePcs = [2, 3, 2, 3, 2, 3] ∧
    (addNfaThreads asciiIcu loopProgram 1 loopCalls ([], [0, 0, 0, 0])).1 =
      (addNfaThreads asciiIcu loopProgram.online 1 loopCalls ([], [0, 0, 0, 0])).1) ∧
    (withTables wideNfa).closureOffsets = [] ∧ (withTables wideNfa).closurePcs = [] ∧ ∀ c pos seed generation list seen,
      addNfaThread asciiIcu (withTables wideNfa) c pos seed generation list seen =
        expandOnline asciiIcu (withTables wideNfa) c pos seed generation list seen :=
  ⟨⟨by decide, (closureTables_refine asciiIcu loopProgram (withTables_tables _)).1 (by decide) 1 _ _ loopCalls rfl rfl
      (by decide) (by decide)⟩,
    (closureTables_refine asciiIcu (withTables wideNfa) (withTables_tables wideNfa)).2 (Or.inl wideNfa_length)⟩

end

end Pergrep
