import Pergrep.Search.FindLiteral
/-!
# Scope — a search in some files is the search in all, less the other files

The scope is put to the chunks before any is scanned, and no branch carries anything from one file to another: what a
branch pushes it pushes file by file (`scanWindow_emits`).  So the fixed branch with one operator (`findFixed_scope`), the
record scan of an inverted search (`findInvert_scope`) and the regex branch (`findRegexBranch_scope`) give in a scope what
they give in all files, less the other files.
-/
namespace Pergrep

open Substr Emit Throw

/-! ## Candidates -/

theorem allows_nil (I : IndexData) (fid : Nat) : allows I [] fid = true := rfl

theorem mem_groupCandidates_scope {I : IndexData} {scope : List Nat} {g : Group} {q : QueryDesc} {ci : Nat} :
    ci ∈ groupCandidates I scope g q ↔ ci ∈ groupCandidates I [] g q ∧ chunkAllowed I scope ci = true := by
  have hkeep : ∀ l : List Nat, ci ∈ l.filter (chunkAllowed I scope) ↔
      ci ∈ l.filter (chunkAllowed I []) ∧ chunkAllowed I scope ci = true := fun l => by
    rw [List.mem_filter, List.mem_filter, and_assoc]
    refine and_congr_right (fun _ => ⟨fun h => ⟨?_, h⟩, fun h => h.2⟩)
    rw [chunkAllowed, List.getElem?_eq_getElem (chunkAllowed_lt h)]
    rfl
  unfold groupCandidates
  dsimp only
  split
  · simp
  split
  · exact hkeep _
  split
  · simp
  · exact hkeep _

def fileOf (I : IndexData) (ci : Nat) : Nat := ((I.chunks[ci]?).map Chunk.fileId).getD 0

section
variable {I : IndexData} (hI : Laid I)
include hI

theorem Laid.allows_eq {scope : List Nat} (hscope : scope ≠ []) {fid : Nat} (hfid : fid < I.loaded.length) :
    allows I scope fid = scope.contains fid := by
  have hlen := hI.infos_length
  have hinfos : I.infos.isEmpty = false := by
    rw [List.isEmpty_eq_false_iff, ← List.length_pos_iff]
    omega
  have hs : scope.isEmpty = false := by rwa [List.isEmpty_eq_false_iff]
  rw [allows, hs, hinfos, decide_eq_true (by omega)]
  rfl

theorem Laid.chunkAllowed_contains {scope : List Nat} (hscope : scope ≠ []) {ci : Nat} (hci : ci < I.chunks.length) :
    chunkAllowed I scope ci = scope.contains (fileOf I ci) := by
  have hz := List.getElem?_eq_getElem hci
  rw [chunkAllowed_eq hz, hI.allows_eq hscope (hI.chunk _ (List.getElem_mem hci)).1, fileOf, hz]
  rfl

/-- **The candidates in a scope are the candidates of its files.** -/
theorem Laid.chunkCandidates_scope {scope : List Nat} (hscope : scope ≠ []) (lit : Bytes) :
    chunkCandidates I scope lit = (chunkCandidates I [] lit).filter (fun ci => scope.contains (fileOf I ci)) := by
  refine sorted_ext (hI.chunkCandidates_sorted scope lit) (List.Pairwise.filter _ (hI.chunkCandidates_sorted [] lit))
    (fun ci => ?_)
  have hallowed : ci ∈ chunkCandidates I [] lit → chunkAllowed I scope ci = scope.contains (fileOf I ci) := fun h =>
    hI.chunkAllowed_contains hscope (chunkAllowed_lt (hI.chunkCandidates_allowed h))
  have hmem : ci ∈ chunkCandidates I scope lit ↔ ci ∈ chunkCandidates I [] lit ∧ chunkAllowed I scope ci = true := by
    unfold chunkCandidates
    split
    · rw [List.mem_filter, List.mem_filter, and_assoc, List.mem_range]
      refine and_congr_right (fun hlt => ⟨fun h => ⟨?_, h⟩, fun h => h.2⟩)
      rw [List.getElem?_eq_getElem hlt]
      rfl
    · dsimp only
      rw [hI.insertionSort_chunkLe, hI.insertionSort_chunkLe, mem_sortDistinct, mem_sortDistinct, List.mem_flatMap,
        List.mem_flatMap]
      simp only [@mem_groupCandidates_scope I scope, ← and_assoc, exists_and_right]
  rw [List.mem_filter, hmem]
  exact and_congr_right (fun h => by rw [hallowed h])

end

/-! ## Windows -/

section
variable (icu : Icu) (I : IndexData) (p : Pattern) (opt : SearchOptions)

/-- One pass over a window, with the offset of its own file alone. -/
def fileStep (fid base : Nat) (v : Bytes) (maxStart : Nat) (icase : Bool) (ok : Nat → Nat → Bool) (s : Nat × Nat) :
    Option (Option Match × Nat × Nat) :=
  (windowStep icu I p opt fid base v maxStart icase ok (s.1, fun _ => s.2)).map (fun r => (r.1, r.2.1, r.2.2 fid))

variable {fid base : Nat} {v : Bytes} {maxStart : Nat} {icase : Bool} {ok : Nat → Nat → Bool}

theorem windowStep_eq (pos : Nat) (next : Nat → Nat) : windowStep icu I p opt fid base v maxStart icase ok (pos, next) =
    (fileStep icu I p opt fid base v maxStart icase ok (pos, next fid)).map
      (fun r => (r.1, r.2.1, Function.update next fid r.2.2)) := by
  unfold fileStep windowStep
  dsimp only
  split
  · split
    · rfl
    split
    · split
      · simp
      split
      · simp
      · simp
    · simp
  · rfl

theorem fileStep_fileId {s : Nat × Nat} {m : Match} {s' : Nat × Nat}
    (h : fileStep icu I p opt fid base v maxStart icase ok s = some (some m, s')) : m.fileId = fid := by
  unfold fileStep windowStep at h
  dsimp only at h
  split at h
  · split at h
    · cases h
    split at h
    · split at h
      · cases h
        rfl
      split at h
      · cases h
      · cases h
        rfl
    · cases h
  · cases h

/-- What a scan of a window pushes, and the offset it leaves its file with. -/
def windowEmits (fid base : Nat) (v : Bytes) (maxStart : Nat) (icase : Bool) (ok : Nat → Nat → Bool) (n : Nat) :
    List Match × Nat :=
  (loopEmits (fileStep icu I p opt fid base v maxStart icase ok) (maxStart + 1) (0, n),
    (loopEnd (fileStep icu I p opt fid base v maxStart icase ok) (maxStart + 1) (0, n)).2)

theorem windowLoop_file : ∀ (fuel pos : Nat) (next : Nat → Nat),
    loopEmits (windowStep icu I p opt fid base v maxStart icase ok) fuel (pos, next) =
        loopEmits (fileStep icu I p opt fid base v maxStart icase ok) fuel (pos, next fid) ∧
      (loopEnd (windowStep icu I p opt fid base v maxStart icase ok) fuel (pos, next)).2 =
        Function.update next fid (loopEnd (fileStep icu I p opt fid base v maxStart icase ok) fuel (pos, next fid)).2
  | 0, pos, next => ⟨rfl, (Function.update_eq_self fid next).symm⟩
  | fuel + 1, pos, next => by
    rw [loopEmits, loopEmits, loopEnd, loopEnd, windowStep_eq]
    cases fileStep icu I p opt fid base v maxStart icase ok (pos, next fid) with
    | none => exact ⟨rfl, (Function.update_eq_self fid next).symm⟩
    | some r =>
      obtain ⟨m, pos', n⟩ := r
      obtain ⟨h1, h2⟩ := windowLoop_file fuel pos' (Function.update next fid n)
      rw [Function.update_self] at h1 h2
      rw [Function.update_idem] at h2
      exact ⟨congrArg (m.toList ++ ·) h1, h2⟩

/-- **A scan of a window sees and changes the offset of its own file.** -/
theorem scanWindow_emits (next : Nat → Nat) :
    Pushes (fun full out => scanWindow icu I p opt full fid base v maxStart icase ok next out)
      (windowEmits icu I p opt fid base v maxStart icase ok (next fid)).1
      (Function.update next fid (windowEmits icu I p opt fid base v maxStart icase ok (next fid)).2) := by
  intro full out
  obtain ⟨h1, h2⟩ := loop_pushes (windowStep icu I p opt fid base v maxStart icase ok) (maxStart + 1) (0, next) full out
  obtain ⟨e1, e2⟩ := windowLoop_file icu I p opt (maxStart + 1) 0 next
  rw [e1] at h1 h2
  exact ⟨h1, fun hf => (congrArg Prod.snd (h2 hf)).trans e2⟩

theorem windowEmits_fileId (n : Nat) : ∀ m ∈ (windowEmits icu I p opt fid base v maxStart icase ok n).1, m.fileId = fid :=
  fun m hm => by
    obtain ⟨t, t', h⟩ := mem_loopEmits hm
    exact fileStep_fileId icu I p opt h

theorem wholeFileStep_fileId {pos : Nat} {m : Match} {pos' : Nat}
    (h : wholeFileStep icu I p opt fid pos = some (some m, pos')) : m.fileId = fid := by
  unfold wholeFileStep at h
  dsimp only at h
  generalize (I.data fid).length + (if p.expr.isEmpty = true then 1 else 0) = maxPos at h
  split at h
  · split at h
    · cases h
    · split at h
      · cases h
        rfl
      · cases h
  · cases h

end

/-! ## The branches of a fixed search -/

section
variable {α : Type*} {body : (List Match → Bool) → α → (Nat → Nat) → List Match → (Nat → Nat) × List Match × Bool}
  {k : α → Nat} {e : α → Nat → List Match × Nat} {as : List α}
  (hbody : ∀ a ∈ as, ∀ s, Pushes (fun full out => body full a s out) (atKey k e a s).1 (atKey k e a s).2)
include hbody

theorem each_never (s : Nat → Nat) :
    (Emit.each (body (fun _ => false)) as s []).2 = ((emits (atKey k e) as s).1, false) := by
  rw [(Pushes.each as hbody s (fun _ => false) []).1, pushAll_never, List.nil_append]

/-- **A `for` over the elements of some files** gives the matches of these files. -/
theorem each_scope (P : Nat → Bool) (hfile : ∀ a ∈ as, ∀ n, ∀ m ∈ (e a n).1, m.fileId = k a) (s : Nat → Nat) :
    (Emit.each (body (fun _ => false)) (as.filter (fun a => P (k a))) s []).2.1 =
      (Emit.each (body (fun _ => false)) as s []).2.1.filter (fun m => P m.fileId) := by
  rw [each_never hbody, each_never (fun a ha => hbody a (List.mem_of_mem_filter ha))]
  exact emits_filter_key P hfile (fun _ _ => rfl)

end

section
variable (icu : Icu) (I : IndexData) (p : Pattern) (opt : SearchOptions)

theorem fileOf_of {ci : Nat} {z : Chunk} (hz : I.chunks[ci]? = some z) : fileOf I ci = z.fileId := by
  rw [fileOf, hz]
  rfl

def onChunk (e : Chunk → Nat → List Match × Nat) (ci n : Nat) : List Match × Nat :=
  match I.chunks[ci]? with
  | none => ([], n)
  | some z => if skipsBinary I opt z.fileId then ([], n) else e z n

theorem onChunk_fileId {e : Chunk → Nat → List Match × Nat} (he : ∀ z n, ∀ m ∈ (e z n).1, m.fileId = z.fileId) (ci n : Nat) :
    ∀ m ∈ (onChunk I opt e ci n).1, m.fileId = fileOf I ci := by
  unfold onChunk
  cases hz : I.chunks[ci]? with
  | none => exact fun m hm => by cases hm
  | some z =>
    dsimp only
    split
    · exact fun m hm => by cases hm
    · rw [fileOf_of I hz]
      exact he z n

theorem onChunk_pushes (body : (List Match → Bool) → Chunk → (Nat → Nat) → List Match → (Nat → Nat) × List Match × Bool)
    {e : Chunk → Nat → List Match × Nat}
    (hbody : ∀ z s, Pushes (fun full out => body full z s out) (e z (s z.fileId)).1
      (Function.update s z.fileId (e z (s z.fileId)).2)) (ci : Nat) (s : Nat → Nat) :
    Pushes (fun full out =>
        match I.chunks[ci]? with
        | none => (s, out, false)
        | some z => if skipsBinary I opt z.fileId then (s, out, false) else body full z s out)
      (atKey (fileOf I) (onChunk I opt e) ci s).1 (atKey (fileOf I) (onChunk I opt e) ci s).2 := by
  unfold atKey onChunk
  cases hz : I.chunks[ci]? with
  | none =>
    dsimp only
    rw [Function.update_eq_self]
    exact Pushes.nil s
  | some z =>
    dsimp only
    rw [fileOf_of I hz]
    cases skipsBinary I opt z.fileId with
    | true =>
      rw [if_pos rfl, Function.update_eq_self]
      exact Pushes.nil s
    | false => exact hbody z s

/-- What a chunk pushes in the chunk branch, by its core and what it shows. -/
def chunkEmits (icase : Bool) (ok : Nat → Nat → Nat → Bool) : Nat → Nat → List Match × Nat :=
  onChunk I opt (fun z n => windowEmits icu I p opt z.fileId z.coreBegin (I.view z)
    (z.coreEnd - z.coreBegin + (if p.expr.isEmpty then 1 else 0)) icase (ok z.fileId) n)

theorem scanChunk_emits (icase : Bool) (ok : Nat → Nat → Nat → Bool) (ci : Nat) (s : Nat → Nat) :
    Pushes (fun full out => scanChunk icu I p opt full icase ok ci s out)
      (atKey (fileOf I) (chunkEmits icu I p opt icase ok) ci s).1
      (atKey (fileOf I) (chunkEmits icu I p opt icase ok) ci s).2 :=
  onChunk_pushes I opt (fun full z s out => scanWindow icu I p opt full z.fileId z.coreBegin (I.view z)
      (z.coreEnd - z.coreBegin + (if p.expr.isEmpty then 1 else 0)) icase (ok z.fileId) s out)
    (fun _ s => scanWindow_emits icu I p opt s) ci s

def longEmits : Nat → Nat → List Match × Nat :=
  onChunk I opt (fun z n =>
    windowEmits icu I p opt z.fileId z.coreBegin (I.view z) (z.coreEnd - z.coreBegin) false (fun _ _ => true) n)

theorem scanLong_emits (ci : Nat) (s : Nat → Nat) : Pushes (fun full out => scanLong icu I p opt full ci s out)
    (atKey (fileOf I) (longEmits icu I p opt) ci s).1 (atKey (fileOf I) (longEmits icu I p opt) ci s).2 :=
  onChunk_pushes I opt (fun full z s out => scanWindow icu I p opt full z.fileId z.coreBegin (I.view z)
      (z.coreEnd - z.coreBegin) false (fun _ _ => true) s out)
    (fun _ s => scanWindow_emits icu I p opt s) ci s

def blockWindow (bi : Nat) (z : Chunk) (n : Nat) : List Match × Nat :=
  let rb := bi * I.posBlock
  if z.coreEnd - z.coreBegin ≤ rb ∧ ¬ (p.expr.isEmpty ∧ rb = 0 ∧ z.coreEnd = z.coreBegin) then ([], n)
  else
    windowEmits icu I p opt z.fileId (z.coreBegin + rb) (slice (I.data z.fileId) (z.coreBegin + rb)
        (z.coreBegin + min (z.extEnd - z.coreBegin) (rb + I.posBlock + 64)))
      (min I.posBlock (z.coreEnd - z.coreBegin - rb) + (if p.expr.isEmpty then 1 else 0)) false (fun _ _ => true) n

theorem blockWindow_fileId (bi : Nat) (z : Chunk) (n : Nat) :
    ∀ m ∈ (blockWindow icu I p opt bi z n).1, m.fileId = z.fileId := by
  unfold blockWindow
  dsimp only
  split
  · exact fun m hm => by cases hm
  · exact windowEmits_fileId icu I p opt n

def blockEmits (b : Nat × Nat) : Nat → List Match × Nat := onChunk I opt (blockWindow icu I p opt b.2) b.1

theorem scanBlock_emits (b : Nat × Nat) (s : Nat → Nat) : Pushes (fun full out => scanBlock icu I p opt full b s out)
    (atKey (fun b => fileOf I b.1) (blockEmits icu I p opt) b s).1
    (atKey (fun b => fileOf I b.1) (blockEmits icu I p opt) b s).2 := by
  refine onChunk_pushes I opt (fun full z s out =>
      let rb := b.2 * I.posBlock
      if z.coreEnd - z.coreBegin ≤ rb ∧ ¬ (p.expr.isEmpty ∧ rb = 0 ∧ z.coreEnd = z.coreBegin) then (s, out, false)
      else
        scanWindow icu I p opt full z.fileId (z.coreBegin + rb) (slice (I.data z.fileId) (z.coreBegin + rb)
            (z.coreBegin + min (z.extEnd - z.coreBegin) (rb + I.posBlock + 64)))
          (min I.posBlock (z.coreEnd - z.coreBegin - rb) + (if p.expr.isEmpty then 1 else 0)) false (fun _ _ => true) s out)
    (fun z s => ?_) b.1 s
  unfold blockWindow
  dsimp only
  split
  · rw [Function.update_eq_self]
    exact Pushes.nil s
  · exact scanWindow_emits icu I p opt s

def wholeFileEmits (fid : Nat) : List Match :=
  if skipsBinary I opt fid then [] else loopEmits (wholeFileStep icu I p opt fid) ((I.data fid).length + 2) 0

theorem findWholeFile_pushes : ∃ s, Pushes (findWholeFile icu I p opt)
    ((candidateFiles I (chunkCandidates I opt.eligibleFileIds p.expr)).flatMap (wholeFileEmits icu I p opt)) s := by
  let e : Nat → Nat → List Match × Nat := fun fid _ =>
    (wholeFileEmits icu I p opt fid,
      if skipsBinary I opt fid then 0 else loopEnd (wholeFileStep icu I p opt fid) ((I.data fid).length + 2) 0)
  rw [← @emits_indep _ _ _ e (wholeFileEmits icu I p opt) (fun _ _ => rfl) _ 0]
  refine ⟨_, Pushes.each _ (fun fid _ s => ?_) 0⟩
  simp only [e, wholeFileEmits]
  cases skipsBinary I opt fid with
  | true  => exact Pushes.nil 0
  | false => exact loop_pushes (wholeFileStep icu I p opt fid) ((I.data fid).length + 2) 0

theorem findWholeFile_never : (findWholeFile icu I p opt (fun _ => false) []).2 =
    ((candidateFiles I (chunkCandidates I opt.eligibleFileIds p.expr)).flatMap (wholeFileEmits icu I p opt), false) := by
  obtain ⟨s, hpushes⟩ := findWholeFile_pushes icu I p opt
  rw [(hpushes (fun _ => false) []).1, pushAll_never, List.nil_append]

def SearchOptions.unscoped : SearchOptions := { opt with eligibleFileIds := [] }

variable {I} (hI : Laid I)
include hI

theorem candidateFiles_scope {cv : List Nat} (hcv : cv.Pairwise (· < ·)) :
    candidateFiles I (cv.filter (fun ci => opt.eligibleFileIds.contains (fileOf I ci))) =
      (candidateFiles I cv).filter (opt.eligibleFileIds.contains ·) := by
  obtain ⟨h1, h2⟩ := hI.candidateFiles_spec hcv
  obtain ⟨h3, h4⟩ := hI.candidateFiles_spec (hcv.filter (fun ci => opt.eligibleFileIds.contains (fileOf I ci)))
  refine sorted_ext h3 (h1.filter _) (fun fid => ?_)
  rw [h4, List.mem_filter, h2]
  constructor
  · rintro ⟨ci, hci, z, hz, rfl⟩
    obtain ⟨hci, hc⟩ := List.mem_filter.1 hci
    exact ⟨⟨ci, hci, z, hz, rfl⟩, by rwa [fileOf_of I hz] at hc⟩
  · rintro ⟨⟨ci, hci, z, hz, rfl⟩, hc⟩
    exact ⟨ci, List.mem_filter.2 ⟨hci, by rwa [fileOf_of I hz]⟩, z, hz, rfl⟩

variable (hscope : opt.eligibleFileIds ≠ [])
include hscope

theorem findChunk_scope : (findChunk icu I p opt (fun _ => false) []).2.1 =
    (findChunk icu I p opt.unscoped (fun _ => false) []).2.1.filter (fun m => opt.eligibleFileIds.contains m.fileId) := by
  unfold findChunk
  rw [hI.chunkCandidates_scope hscope]
  exact each_scope (fun ci _ s => scanChunk_emits icu I p opt _ _ ci s) (opt.eligibleFileIds.contains ·)
    (fun ci _ n => onChunk_fileId I opt (fun _ n => windowEmits_fileId icu I p opt n) ci n) _

theorem findLong_scope : (findLong icu I p opt (fun _ => false) []).2.1 =
    (findLong icu I p opt.unscoped (fun _ => false) []).2.1.filter (fun m => opt.eligibleFileIds.contains m.fileId) := by
  unfold findLong
  rw [hI.chunkCandidates_scope hscope]
  exact each_scope (fun ci _ s => scanLong_emits icu I p opt ci s) (opt.eligibleFileIds.contains ·)
    (fun ci _ n => onChunk_fileId I opt (fun _ n => windowEmits_fileId icu I p opt n) ci n) _

theorem fixedCandidateBlocks_scope : fixedCandidateBlocks I opt.eligibleFileIds p.expr =
    (fixedCandidateBlocks I [] p.expr).filter (fun b => opt.eligibleFileIds.contains (fileOf I b.1)) := by
  unfold fixedCandidateBlocks
  split
  · rw [List.filter_map]
    congr 1
    rw [List.filter_filter]
    refine List.filter_congr (fun ci hci => ?_)
    have hlt := List.mem_range.1 hci
    rw [Function.comp_apply, ← hI.chunkAllowed_contains hscope hlt, List.getElem?_eq_getElem hlt]
    simp [chunkAllowed, List.getElem?_eq_getElem hlt, allows_nil]
  · rw [hI.chunkCandidates_scope hscope]
    refine (filter_flatMap_key (opt.eligibleFileIds.contains ·) (fun ci _ b hb => ?_)).symm
    unfold chunkBlocks at hb
    split at hb
    · cases hb
    split at hb
    · cases hb
    split at hb
    · cases hb
    · obtain ⟨bi, -, rfl⟩ := List.mem_map.1 hb
      rfl

theorem findWholeFile_scope : (findWholeFile icu I p opt (fun _ => false) []).2.1 =
    (findWholeFile icu I p opt.unscoped (fun _ => false) []).2.1.filter (fun m => opt.eligibleFileIds.contains m.fileId) := by
  rw [findWholeFile_never, findWholeFile_never, hI.chunkCandidates_scope hscope,
    candidateFiles_scope opt hI (hI.chunkCandidates_sorted [] p.expr)]
  refine (filter_flatMap_key (k := id) (opt.eligibleFileIds.contains ·) (fun fid _ m hm => ?_)).symm
  unfold wholeFileEmits at hm
  split at hm
  · cases hm
  · obtain ⟨t, t', h⟩ := mem_loopEmits hm
    exact wholeFileStep_fileId icu I p _ h

theorem findBlocks_scope : (findBlocks icu I p opt (fun _ => false) []).2.1 =
    (findBlocks icu I p opt.unscoped (fun _ => false) []).2.1.filter (fun m => opt.eligibleFileIds.contains m.fileId) := by
  unfold findBlocks
  rw [fixedCandidateBlocks_scope p opt hI hscope]
  exact each_scope (fun b _ s => scanBlock_emits icu I p opt b s) (opt.eligibleFileIds.contains ·)
    (fun b _ n => onChunk_fileId I opt (fun z n => blockWindow_fileId icu I p opt b.2 z n) b.1 n) _

/-- **The fixed branch**, with one operator for both. -/
theorem findFixed_scope : (findFixed icu I p opt none (fun _ => false)).1 =
    (findFixed icu I p opt.unscoped none (fun _ => false)).1.filter (fun m => opt.eligibleFileIds.contains m.fileId) := by
  unfold findFixed
  split
  · exact findWholeFile_scope icu p opt hI hscope
  split
  · exact findChunk_scope icu p opt hI hscope
  split
  · exact findBlocks_scope icu p opt hI hscope
  · exact findLong_scope icu p opt hI hscope

end

/-! ## Inverted and regex searches -/

section
variable (icu : Icu)

theorem nfaSearch_fileId {re : RegexProgram} {c : VerifierContext} {fid : Nat} {m : Match}
    (h : nfaSearch icu re c fid = some m) : m.fileId = fid := by
  unfold nfaSearch at h
  split at h
  · cases h
  split at h
  · obtain ⟨_, -, rfl⟩ := Option.map_eq_some_iff.1 h
    rfl
  · obtain ⟨_, -, rfl⟩ := Option.map_eq_some_iff.1 h
    rfl

theorem evalSearch_fileId {re : RegexProgram} {c : VerifierContext} {fid : Nat} {m : Match} : ∀ {fuel st : Nat},
    evalSearch icu re c fid fuel st = .ok (some m) → m.fileId = fid
  | 0, _, h => by cases h
  | fuel + 1, st, h => by
    rw [evalSearch] at h
    split at h
    · obtain ⟨v, -, h⟩ := bind_ok h
      split at h
      · cases h
        rfl
      split at h
      · cases h
      · exact evalSearch_fileId h
    · cases h

theorem regexSearch_fileId {re : RegexProgram} {c : VerifierContext} {fid : Nat} {m : Match}
    (h : regexSearch icu re c fid = .ok (some m)) : m.fileId = fid := by
  unfold regexSearch at h
  split at h
  · cases h
  split at h
  · exact nfaSearch_fileId icu (Except.ok.inj h)
  · exact evalSearch_fileId icu h

theorem findAllLoop_fileId {re : RegexProgram} {c : VerifierContext} {overlapping : Bool} {fid mx : Nat} :
    ∀ {fuel count pos : Nat} {ms : List Match}, findAllLoop icu re c overlapping fid mx fuel count pos = .ok ms →
      ∀ m ∈ ms, m.fileId = fid
  | 0, _, _, _, h => by
    cases h
    exact fun m hm => by cases hm
  | fuel + 1, count, pos, ms, h => by
    rw [findAllLoop] at h
    split at h
    · obtain ⟨r, hr, h⟩ := bind_ok h
      split at h
      · cases h
        exact fun m hm => by cases hm
      · rename_i m
        have hm := regexSearch_fileId icu hr
        split at h
        · cases h
          exact fun m' hm' => by rw [List.mem_singleton.1 hm', hm]
        · obtain ⟨rest, hrest, h⟩ := bind_ok h
          cases h
          exact List.forall_mem_cons.2 ⟨hm, findAllLoop_fileId hrest⟩
    · cases h
      exact fun m hm => by cases hm

theorem verifyAll_fileId {re : RegexProgram} {overlapping : Bool} {fid : Nat} {cs : List VerifierContext} {ms : List Match}
    (h : concatE (fun c => regexFindAll icu re c overlapping fid 0) cs = .ok ms) : ∀ m ∈ ms, m.fileId = fid := by
  obtain ⟨hall, rfl⟩ := concatE_eq_ok.1 h
  intro m hm
  obtain ⟨c, hc, hm⟩ := List.mem_flatMap.1 hm
  exact findAllLoop_fileId icu (hall c hc) m hm

variable (I : IndexData) (p : Pattern) (re : RegexProgram) (opt : SearchOptions)

theorem verifyContext_never (hobj : opt.objective = .exhaustive) (hmax : opt.maxMatches = 0) (fid : Nat)
    (c : VerifierContext) (out : List Match) :
    verifyContext icu re opt fid c out =
      (regexFindAll icu re c opt.overlapping fid 0).map (fun ms => (out ++ ms, false)) := by
  have hremain : remain opt out = 0 := by
    rw [remain, hobj, hmax]
    rfl
  rw [verifyContext, resultBoundReached_never hobj hmax, hremain]
  cases regexFindAll icu re c opt.overlapping fid 0 with
  | error e => rfl
  | ok ms => rfl

def boundedFile (a : RegexAnalysis) (fid : Nat) : Eval (List Match) :=
  if skipsBinary I opt fid then .ok []
  else concatE (fun c => regexFindAll icu re c opt.overlapping fid 0) (boundedContexts p re opt a (I.data fid))

def regexFile (lit : Bytes) (fid : Nat) : Eval (List Match) :=
  if skipsBinary I opt fid then .ok []
  else if !lit.isEmpty ∧ lit.length < 4 ∧ p.opt.caseMode = .sensitive ∧ Substr.findFrom (I.data fid) lit 0 = none then .ok []
  else
    concatE (fun c => regexFindAll icu re c opt.overlapping fid 0)
      ((regexRecords p opt (I.data fid)).map (recordContext p.opt.crlf opt.recordSeparator (I.data fid)))

theorem boundedFile_fileId {a : RegexAnalysis} {fid : Nat} {ms : List Match}
    (h : boundedFile icu I p re opt a fid = .ok ms) : ∀ m ∈ ms, m.fileId = fid := by
  unfold boundedFile at h
  split at h
  · cases h
    exact fun m hm => by cases hm
  · exact verifyAll_fileId icu h

theorem regexFile_fileId {lit : Bytes} {fid : Nat} {ms : List Match}
    (h : regexFile icu I p re opt lit fid = .ok ms) : ∀ m ∈ ms, m.fileId = fid := by
  unfold regexFile at h
  split at h
  · cases h
    exact fun m hm => by cases hm
  split at h
  · cases h
    exact fun m hm => by cases hm
  · exact verifyAll_fileId icu h

section
variable (hobj : opt.objective = .exhaustive) (hmax : opt.maxMatches = 0)
include hobj hmax

theorem findBounded_never (a : RegexAnalysis) (cv : List Nat) : findBounded icu I p re opt a cv =
    (concatE (boundedFile icu I p re opt a) (candidateFiles I cv)).map (fun ms => ([] ++ ms, false)) := by
  refine eachE_concat (fun fid _ out => ?_) []
  unfold boundedFile
  split
  · rw [Except.map, List.append_nil]
  · exact eachE_concat (fun c _ out => verifyContext_never icu re opt hobj hmax fid c out) out

theorem findRegex_never (lit : Bytes) (cv : List Nat) : findRegex icu I p re opt lit cv =
    (concatE (regexFile icu I p re opt lit) (candidateFiles I cv)).map (fun ms => ([] ++ ms, false)) := by
  refine eachE_concat (fun fid _ out => ?_) []
  unfold regexFile
  dsimp only
  split
  · rw [Except.map, List.append_nil]
  split
  · rw [Except.map, List.append_nil]
  · exact eachE_concat (fun c _ out => verifyContext_never icu re opt hobj hmax fid c out) out

def invertedRecord (fid : Nat) (r : Nat × Nat) : Eval (List Match) :=
  (recordMatched icu I p opt fid r).map (fun b => if b then [] else [{ fileId := fid, start := r.1, stop := r.2 }])

def invertedFile (fid : Nat) : Eval (List Match) :=
  if skipsBinary I opt fid then .ok []
  else concatE (invertedRecord icu I p opt fid) (records p.opt.crlf opt.recordSeparator (I.data fid))

omit hobj hmax in
theorem invertedFile_fileId {fid : Nat} {ms : List Match} (h : invertedFile icu I p opt fid = .ok ms) :
    ∀ m ∈ ms, m.fileId = fid := by
  unfold invertedFile at h
  split at h
  · cases h
    exact fun m hm => by cases hm
  · obtain ⟨hall, rfl⟩ := concatE_eq_ok.1 h
    intro m hm
    obtain ⟨r, hr, hm⟩ := List.mem_flatMap.1 hm
    unfold invertedRecord at hm
    cases hb : recordMatched icu I p opt fid r with
    | error e =>
      rw [hb] at hm
      cases hm
    | ok b =>
      rw [hb] at hm
      cases b with
      | true  => cases hm
      | false => rw [List.mem_singleton.1 hm]

theorem findInvert_never : findInvert icu I p opt =
    (concatE (invertedFile icu I p opt) ((List.range I.loaded.length).filter (allows I opt.eligibleFileIds))).map
      (fun ms => ([] ++ ms, false)) := by
  have hrecord : ∀ fid r out, invertRecord icu I p opt fid r out =
      (invertedRecord icu I p opt fid r).map (fun ms => (out ++ ms, false)) := fun fid r out => by
    rw [invertRecord, invertedRecord, resultBoundReached_never hobj hmax]
    cases recordMatched icu I p opt fid r with
    | error e => rfl
    | ok b =>
      cases b with
      | true  => exact congrArg (fun out => Except.ok (out, false)) (List.append_nil out).symm
      | false => rfl
  rw [← concatE_skip (f := fun fid => if allows I opt.eligibleFileIds fid then invertedFile icu I p opt fid else .ok [])
    (fun _ _ => rfl)]
  refine eachE_concat (fun fid _ out => ?_) []
  unfold invertedFile
  cases allows I opt.eligibleFileIds fid with
  | false => exact congrArg (fun out => Except.ok (out, false)) (List.append_nil out).symm
  | true =>
    cases skipsBinary I opt fid with
    | true  => exact congrArg (fun out => Except.ok (out, false)) (List.append_nil out).symm
    | false => exact eachE_concat (fun r _ out => hrecord fid r out) out

end

end

/-! ## `find` in a scope -/

theorem collected_scope {g : Nat → Eval (List Match)} (hg : ∀ fid ms, g fid = .ok ms → ∀ m ∈ ms, m.fileId = fid)
    {files : List Nat} {P : Nat → Bool} {r r₀ : List Match × Bool}
    (h : (concatE g (files.filter P)).map (fun ms => ([] ++ ms, false)) = .ok r)
    (h₀ : (concatE g files).map (fun ms => ([] ++ ms, false)) = .ok r₀) : r.1 = r₀.1.filter (fun m => P m.fileId) := by
  cases hms : concatE g (files.filter P) with
  | error e =>
    rw [hms] at h
    cases h
  | ok ms =>
    cases hms₀ : concatE g files with
    | error e =>
      rw [hms₀] at h₀
      cases h₀
    | ok ms₀ =>
      rw [hms] at h
      rw [hms₀] at h₀
      cases h
      cases h₀
      exact concatE_filter (k := id) P (fun fid _ ms hms => hg fid ms hms) hms hms₀

section
variable {I : IndexData} (hI : Laid I)
include hI

theorem regexCandidates_sorted (p : Pattern) (re : RegexProgram) (opt : SearchOptions) :
    (regexCandidates I p re opt).Pairwise (· < ·) := by
  unfold regexCandidates
  split
  · exact sortDistinct_sorted _
  · exact hI.chunkCandidates_sorted _ _

variable {opt : SearchOptions} (hscope : opt.eligibleFileIds ≠ [])
include hscope

theorem regexCandidates_scope (p : Pattern) (re : RegexProgram) : regexCandidates I p re opt =
    (regexCandidates I p re opt.unscoped).filter (fun ci => opt.eligibleFileIds.contains (fileOf I ci)) := by
  unfold regexCandidates
  split
  · refine sorted_ext (sortDistinct_sorted _) ((sortDistinct_sorted _).filter _) (fun ci => ?_)
    rw [List.mem_filter, mem_sortDistinct, mem_sortDistinct, List.mem_flatMap, List.mem_flatMap]
    simp only [← exists_and_right, and_assoc]
    refine exists_congr (fun b => and_congr_right (fun _ => ?_))
    split
    · simp
    · rw [hI.chunkCandidates_scope hscope, List.mem_filter]
      rfl
  · exact hI.chunkCandidates_scope hscope _

variable (icu : Icu) (p : Pattern) (hobj : opt.objective = .exhaustive) (hmax : opt.maxMatches = 0)
include hobj hmax

theorem findInvert_scope {r r₀ : List Match × Bool} (h : findInvert icu I p opt = .ok r)
    (h₀ : findInvert icu I p opt.unscoped = .ok r₀) :
    r.1 = r₀.1.filter (fun m => opt.eligibleFileIds.contains m.fileId) := by
  rw [findInvert_never icu I p opt hobj hmax] at h
  rw [findInvert_never icu I p opt.unscoped hobj hmax] at h₀
  have hfiles : (List.range I.loaded.length).filter (allows I opt.eligibleFileIds) =
      ((List.range I.loaded.length).filter (allows I [])).filter (opt.eligibleFileIds.contains ·) := by
    rw [List.filter_filter]
    refine List.filter_congr (fun fid hfid => ?_)
    rw [hI.allows_eq hscope (List.mem_range.1 hfid), allows_nil, Bool.and_true]
  rw [hfiles] at h
  exact collected_scope (fun fid ms hms => invertedFile_fileId icu I p opt hms) h h₀

theorem findRegexBranch_scope (re : RegexProgram) {r r₀ : List Match × Bool} (h : findRegexBranch icu I p re opt = .ok r)
    (h₀ : findRegexBranch icu I p re opt.unscoped = .ok r₀) :
    r.1 = r₀.1.filter (fun m => opt.eligibleFileIds.contains m.fileId) := by
  have hcv := regexCandidates_scope hI hscope p re
  have hsorted := regexCandidates_sorted hI p re opt.unscoped
  have hregex : ∀ {cv : List Nat} {lit : Bytes}, cv.Pairwise (· < ·) → ∀ {r r₀},
      findRegex icu I p re opt lit (cv.filter (fun ci => opt.eligibleFileIds.contains (fileOf I ci))) = .ok r →
        findRegex icu I p re opt.unscoped lit cv = .ok r₀ →
          r.1 = r₀.1.filter (fun m => opt.eligibleFileIds.contains m.fileId) := fun {cv lit} hsorted {r r₀} h h₀ => by
    rw [findRegex_never icu I p re opt hobj hmax, candidateFiles_scope opt hI hsorted] at h
    rw [findRegex_never icu I p re opt.unscoped hobj hmax] at h₀
    exact collected_scope (fun fid ms hms => regexFile_fileId icu I p re opt hms) h h₀
  unfold findRegexBranch at h h₀
  dsimp only at h h₀
  rw [hcv] at h
  cases hregion : boundedRegionRequested re p.opt with
  | false =>
    rw [hregion, if_neg (by decide)] at h h₀
    exact hregex hsorted h h₀
  | true =>
    rw [hregion, if_pos rfl] at h h₀
    cases ha : boundedRegexEligible re p.opt with
    | none =>
      rw [ha] at h h₀
      -- all chunks, the candidates of a literal that says nothing
      have hall := hI.chunkCandidates_scope hscope []
      have hlist : ∀ scope, chunkCandidates I scope [] = (List.range I.chunks.length).filter (chunkAllowed I scope) :=
        fun scope => if_pos (Or.inl (by decide))
      rw [hlist, hlist] at hall
      have hsorted : ((List.range I.chunks.length).filter (chunkAllowed I [])).Pairwise (· < ·) :=
        List.pairwise_lt_range.filter _
      refine hregex hsorted ?_ h₀
      rw [← hall]
      exact h
    | some a =>
      rw [ha] at h h₀
      dsimp only at h h₀
      cases hb : (boundedBranches re).isEmpty with
      | true =>
        rw [hb, if_pos rfl] at h h₀
        exact hregex hsorted h h₀
      | false =>
        rw [hb, if_neg (by decide)] at h h₀
        rw [findBounded_never icu I p re opt hobj hmax, candidateFiles_scope opt hI hsorted] at h
        rw [findBounded_never icu I p re opt.unscoped hobj hmax] at h₀
        exact collected_scope (fun fid ms hms => boundedFile_fileId icu I p re opt hms) h h₀

end

end Pergrep
