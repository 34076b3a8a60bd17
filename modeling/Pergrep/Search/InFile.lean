import Pergrep.Search.Bounds
import Pergrep.Regex.Ordered
/-!
# InFile — every match is a span of its file

Whatever the pattern, the bound and the operator, `find` returns matches that start in their file and end in it
(`find_inFile`).  A scan finds no occurrence past the end of what it looks at, and a verifier reads nothing past its source.
-/
namespace Pergrep

open Throw Emit

/-- The match is a span of the text of its file. -/
def IndexData.Holds (I : IndexData) (m : Match) : Prop := m.start ≤ m.stop ∧ m.stop ≤ (I.data m.fileId).length

section
variable {icu : Icu}

/-! ## Scans -/

theorem anchorLoop_in {s q : Bytes} {anchor hi : Nat} : ∀ {fuel lo x : Nat}, anchorLoop s q anchor hi fuel lo = some x →
    x + q.length ≤ s.length
  | 0, _, _, h => by cases h
  | fuel + 1, lo, x, h => by
    rw [anchorLoop] at h
    split at h
    · split at h
      · cases h
      · split at h
        · rename_i hocc
          cases h
          exact Substr.occursAt_le hocc
        · exact anchorLoop_in h
    · cases h

theorem icaseEqualLoop_in {s q : Bytes} : ∀ {fuel sp qp e : Nat}, icaseEqualLoop icu s q fuel sp qp = some e →
    sp ≤ s.length → sp ≤ e ∧ e ≤ s.length
  | 0, sp, _, _, h, hsp => by
    cases h
    exact ⟨Nat.le_refl sp, hsp⟩
  | fuel + 1, sp, qp, e, h, hsp => by
    rw [icaseEqualLoop] at h
    split at h
    · split at h
      · rename_i a b ha _
        have hnext := runeAt_next ha
        split at h
        · obtain ⟨h1, h2⟩ := icaseEqualLoop_in h hnext.2.1
          exact ⟨by omega, h2⟩
        · cases h
      · cases h
    · cases h
      exact ⟨Nat.le_refl sp, hsp⟩

theorem icaseLoop_in {s q : Bytes} {maxStart : Nat} : ∀ {fuel p x e : Nat}, icaseLoop icu s q maxStart fuel p = some (x, e) →
    x ≤ e ∧ e ≤ s.length
  | 0, _, _, _, h => by cases h
  | fuel + 1, p, x, e, h => by
    rw [icaseLoop] at h
    split at h
    · rename_i hp
      split at h
      · rename_i e' he
        cases h
        exact icaseEqualLoop_in he (Nat.le_of_lt hp.1)
      · exact icaseLoop_in h
    · cases h

/-- **An occurrence lies in what is looked at.** -/
theorem anchorFind_in {s q : Bytes} {anchor start maxStart : Nat} {icase : Bool} {x e : Nat}
    (h : anchorFind icu s q anchor start maxStart icase = some (x, e)) : x ≤ e ∧ e ≤ s.length := by
  unfold anchorFind at h
  split at h
  · split at h
    · rename_i hle
      cases h
      exact ⟨Nat.le_refl _, hle.1⟩
    · cases h
  split at h
  · cases h
  split at h
  · exact icaseLoop_in h
  · dsimp only at h
    split at h
    · cases h
    · obtain ⟨y, hy, h⟩ := Option.map_eq_some_iff.1 h
      cases h
      exact ⟨Nat.le_add_right _ _, anchorLoop_in hy⟩

variable {I : IndexData} {p : Pattern} {opt : SearchOptions} {P : Match → Prop}

theorem windowEmits_forall {fid base : Nat} {v : Bytes} {maxStart : Nat} {icase : Bool} {ok : Nat → Nat → Bool} {n : Nat}
    (hv : ∀ start x e, anchorFind icu v p.expr (chooseRareByte I p.expr) start maxStart icase = some (x, e) →
      P { fileId := fid, start := base + x, stop := base + e }) :
    ∀ m ∈ (windowEmits icu I p opt fid base v maxStart icase ok n).1, P m := by
  intro m hm
  obtain ⟨t, t', h⟩ := mem_loopEmits hm
  unfold fileStep windowStep at h
  dsimp only at h
  split at h
  · split at h
    · cases h
    rename_i x e hfind
    split at h
    · split at h
      · cases h
        exact hv _ _ _ hfind
      split at h
      · cases h
      · cases h
        exact hv _ _ _ hfind
    · cases h
  · cases h

theorem onChunk_forall {e : Chunk → Nat → List Match × Nat} (he : ∀ z ∈ I.chunks, ∀ n, ∀ m ∈ (e z n).1, P m) (ci n : Nat) :
    ∀ m ∈ (onChunk I opt e ci n).1, P m := by
  unfold onChunk
  cases hz : I.chunks[ci]? with
  | none => exact fun m hm => absurd hm List.not_mem_nil
  | some z =>
    dsimp only
    split
    · exact fun m hm => absurd hm List.not_mem_nil
    · exact he z (List.mem_of_getElem? hz) n

section
variable (hI : Built I)
  (hfind : ∀ fid b e start maxStart icase x y, (icase = true → p.icase = true) → b ≤ (I.data fid).length →
    anchorFind icu (slice (I.data fid) b e) p.expr (chooseRareByte I p.expr) start maxStart icase = some (x, y) →
      P { fileId := fid, start := b + x, stop := b + y })
include hfind

theorem wholeFileStep_forall {fid pos : Nat} {m : Match} {pos' : Nat}
    (h : wholeFileStep icu I p opt fid pos = some (some m, pos')) : P m := by
  have hwhole : slice (I.data fid) 0 (I.data fid).length = I.data fid := by
    rw [slice, List.take_length, List.drop_zero]
  unfold wholeFileStep at h
  dsimp only at h
  generalize (I.data fid).length + (if p.expr.isEmpty = true then 1 else 0) = maxPos at h
  split at h
  · split at h
    · cases h
    · rename_i x e hocc
      split at h
      · cases h
        have := hfind fid 0 (I.data fid).length pos maxPos p.icase x e id (Nat.zero_le _)
          (by rw [hwhole]; exact hocc)
        rwa [Nat.zero_add, Nat.zero_add] at this
      · cases h
  · cases h

include hI

theorem viewWindow_forall {icase : Bool} (hcase : icase = true → p.icase = true) {ok : Nat → Nat → Bool} {z : Chunk}
    (hz : z ∈ I.chunks) (maxStart n : Nat) :
    ∀ m ∈ (windowEmits icu I p opt z.fileId z.coreBegin (I.view z) maxStart icase ok n).1, P m := by
  obtain ⟨-, h1, h2, -⟩ := hI.chunk hz
  exact windowEmits_forall (fun start x e h => hfind _ _ _ _ _ _ _ _ hcase (by omega) h)

theorem blockWindow_forall (bi : Nat) {z : Chunk} (hz : z ∈ I.chunks) (n : Nat) :
    ∀ m ∈ (blockWindow icu I p opt bi z n).1, P m := by
  obtain ⟨-, h1, h2, -⟩ := hI.chunk hz
  unfold blockWindow
  dsimp only
  split
  · exact fun m hm => absurd hm List.not_mem_nil
  · rename_i hin
    have hbase : z.coreBegin + bi * I.posBlock ≤ z.coreEnd := by
      rcases Nat.lt_or_ge (bi * I.posBlock) (z.coreEnd - z.coreBegin) with hlt | hge
      · omega
      · have hzero : bi * I.posBlock = 0 := by
          by_contra hne
          exact hin ⟨hge, fun h => hne h.2.1⟩
        omega
    exact windowEmits_forall (fun start x e h =>
      hfind _ _ _ _ _ _ _ _ (fun hf => absurd hf Bool.false_ne_true) (by omega) h)

/-- **The fixed branch pushes what its scans find**, each in a part of a file. -/
theorem findFixed_forall (guarded : Option FixedPhysicalOperator) (full : List Match → Bool) :
    ∀ m ∈ (findFixed icu I p opt guarded full).1, P m := by
  have hpushed : ∀ {bs : List Match} {r : List Match × Bool}, r = pushAll full [] bs → (∀ m ∈ bs, P m) → ∀ m ∈ r.1, P m := by
    rintro bs r rfl hbs m hm
    exact hbs m ((mem_pushAll hm).resolve_left List.not_mem_nil)
  unfold findFixed
  split
  · obtain ⟨s, hwhole⟩ := findWholeFile_pushes icu I p opt
    refine hpushed (hwhole full []).1 (fun m hm => ?_)
    obtain ⟨fid, -, hm⟩ := List.mem_flatMap.1 hm
    unfold wholeFileEmits at hm
    split at hm
    · exact absurd hm List.not_mem_nil
    · obtain ⟨t, t', h⟩ := mem_loopEmits hm
      exact wholeFileStep_forall hfind h
  split
  · refine hpushed ((Pushes.each _ (fun ci _ s => scanChunk_emits icu I p opt _ _ ci s) _) full []).1 (fun m hm => ?_)
    obtain ⟨ci, -, s, hm⟩ := mem_emits hm
    exact onChunk_forall (fun z hz n => viewWindow_forall hI hfind id hz _ n) ci _ m hm
  split
  · refine hpushed ((Pushes.each _ (fun b _ s => scanBlock_emits icu I p opt b s) _) full []).1 (fun m hm => ?_)
    obtain ⟨b, -, s, hm⟩ := mem_emits hm
    exact onChunk_forall (fun z hz n => blockWindow_forall hI hfind b.2 hz n) b.1 _ m hm
  · refine hpushed ((Pushes.each _ (fun ci _ s => scanLong_emits icu I p opt ci s) _) full []).1 (fun m hm => ?_)
    obtain ⟨ci, -, s, hm⟩ := mem_emits hm
    exact onChunk_forall (fun z hz n => viewWindow_forall hI hfind (fun hf => absurd hf Bool.false_ne_true) hz _ n) ci _ m hm

end

/-- **The fixed branch pushes spans of files.** -/
theorem findFixed_holds (hI : Built I) (guarded : Option FixedPhysicalOperator) (full : List Match → Bool) :
    ∀ m ∈ (findFixed icu I p opt guarded full).1, I.Holds m := by
  refine findFixed_forall hI (fun fid b e start maxStart icase x y _ hb h => ?_) guarded full
  obtain ⟨h1, h2⟩ := anchorFind_in h
  rw [length_slice] at h2
  exact ⟨by dsimp only; omega, by dsimp only; omega⟩

/-! ## The verifier -/

theorem findAllLoop_forall {re : RegexProgram} {c : VerifierContext} {overlapping : Bool} {fid mx : Nat}
    (hP : ∀ pos m, regexSearch icu re { c with candidateBegin := pos } fid = .ok (some m) → P m) :
    ∀ {fuel count pos : Nat} {ms : List Match}, findAllLoop icu re c overlapping fid mx fuel count pos = .ok ms → ∀ m ∈ ms, P m
  | 0, _, _, _, h => by
    cases h
    exact fun m hm => absurd hm List.not_mem_nil
  | fuel + 1, count, pos, ms, h => by
    rw [findAllLoop] at h
    split at h
    · obtain ⟨r, hr, h⟩ := bind_ok h
      split at h
      · cases h
        exact fun m hm => absurd hm List.not_mem_nil
      · rename_i m
        have hm := hP pos m hr
        split at h
        · cases h
          exact List.forall_mem_singleton.2 hm
        · obtain ⟨rest, hrest, h⟩ := bind_ok h
          cases h
          exact List.forall_mem_cons.2 ⟨hm, findAllLoop_forall hP hrest⟩
    · cases h
      exact fun m hm => absurd hm List.not_mem_nil

theorem eachE_forall {α β ε : Type*} {P : β → Prop} {body : α → List β → Except ε (List β × Bool)} : ∀ {as : List α},
    (∀ a ∈ as, ∀ out r, body a out = .ok r → (∀ b ∈ out, P b) → ∀ b ∈ r.1, P b) →
      ∀ {out : List β} {r : List β × Bool}, eachE body as out = .ok r → (∀ b ∈ out, P b) → ∀ b ∈ r.1, P b
  | [], _, out, r, h, hout => by
    cases h
    exact hout
  | a :: as, hbody, out, r, h, hout => by
    rw [eachE] at h
    obtain ⟨r', hr', h⟩ := bind_ok h
    have hr := hbody a List.mem_cons_self out r' hr' hout
    split at h
    · cases h
      exact hr
    · exact eachE_forall (fun b hb => hbody b (List.mem_cons_of_mem a hb)) h hr

/-- The context of a record, whatever its candidates. -/
structure OnRecord (data : Bytes) (r : Nat × Nat) (c : VerifierContext) : Prop where
  source : c.source = data
  sourceBegin : c.sourceBegin = 0
  sourceEnd : c.sourceEnd = data.length
  recordBegin : c.recordBegin = r.1
  recordEnd : c.recordEnd = r.2

theorem verifierRuns_record {re : RegexProgram} {run : Nat × VerifierContext} (h : run ∈ verifierRuns I p re opt) :
    ∃ r ∈ regexRecords p opt (I.data run.1), OnRecord (I.data run.1) r run.2 := by
  have hrecords : ∀ lit fid, ∀ c ∈ regexContexts I p opt lit fid, ∃ r ∈ regexRecords p opt (I.data fid),
      OnRecord (I.data fid) r c := by
    intro lit fid c hc
    unfold regexContexts at hc
    split at hc
    · exact absurd hc List.not_mem_nil
    split at hc
    · exact absurd hc List.not_mem_nil
    · obtain ⟨r, hr, rfl⟩ := List.mem_map.1 hc
      exact ⟨r, hr, rfl, rfl, rfl, rfl, rfl⟩
  have hregions : ∀ a fid, ∀ c ∈ regionContexts I p re opt a fid, ∃ r ∈ regexRecords p opt (I.data fid),
      OnRecord (I.data fid) r c := by
    intro a fid c hc
    unfold regionContexts boundedContexts at hc
    split at hc
    · exact absurd hc List.not_mem_nil
    · obtain ⟨r, hr, hc⟩ := List.mem_flatMap.1 hc
      obtain ⟨b, -, rfl⟩ := List.mem_map.1 hc
      exact ⟨r, hr, rfl, rfl, rfl, rfl, rfl⟩
  obtain ⟨fid, -, hrun⟩ := List.mem_flatMap.1 h
  obtain ⟨c, hc, rfl⟩ := List.mem_map.1 hrun
  unfold verifierFiles at hc
  dsimp only at hc
  split at hc
  · split at hc
    · rename_i a _
      dsimp only at hc
      split at hc
      · exact hrecords _ fid c hc
      · exact hregions a fid c hc
    · exact hrecords _ fid c hc
  · exact hrecords _ fid c hc

/-- **The regex branch pushes what the verifier finds** on its runs. -/
theorem findRegexBranch_forall {re : RegexProgram} (hP : ∀ run ∈ verifierRuns I p re opt, ∀ pos m,
      regexSearch icu re { run.2 with candidateBegin := pos } run.1 = .ok (some m) → P m)
    {r : List Match × Bool} (h : findRegexBranch icu I p re opt = .ok r) : ∀ m ∈ r.1, P m := by
  rw [findRegexBranch_eq] at h
  refine eachE_forall (fun run hrun out r' hr hout => ?_) h (fun m hm => absurd hm List.not_mem_nil)
  obtain ⟨ms, hms, h⟩ := bind_ok hr
  cases h
  intro m hm
  rcases List.mem_append.1 hm with hm | hm
  · exact hout m hm
  · exact findAllLoop_forall (hP run hrun) hms m hm

theorem regexSearch_valid {re : RegexProgram} {c : VerifierContext} {fid : Nat} {m : Match}
    (h : regexSearch icu re c fid = .ok (some m)) : c.Valid := by
  rw [← VerifierContext.validate_iff]
  by_contra hno
  rw [Bool.not_eq_true] at hno
  simp [regexSearch, hno] at h

theorem findRegexBranch_holds {re : RegexProgram} {r : List Match × Bool} (h : findRegexBranch icu I p re opt = .ok r) :
    ∀ m ∈ r.1, I.Holds m := by
  refine findRegexBranch_forall (fun run hrun pos m hm => ?_) h
  obtain ⟨rec, -, hon⟩ := verifierRuns_record hrun
  have hin := (regexSearch_within (regexSearch_valid hm).reads hm).1
  have hstop : m.stop ≤ run.2.sourceEnd := hin.stop
  rw [hon.sourceEnd, ← regexSearch_fileId icu hm] at hstop
  exact ⟨hin.le, hstop⟩

theorem find_mem_raw {plan : Planner} {ms : List Match} (h : find icu I plan p opt = .ok ms) :
    ∃ r, findRaw icu I plan p opt = .ok r ∧ ∀ m ∈ ms, m ∈ r.1 := by
  obtain ⟨r, hr, h⟩ := bind_ok h
  refine ⟨r, hr, ?_⟩
  split at h
  · cases h
    exact fun m hm => List.mem_of_mem_take hm
  · cases h
    exact fun m hm => hm

/-- **Every match is a span of its file.** -/
theorem find_holds (hI : Built I) (plan : Planner) (hinv : opt.invertMatch = false) {ms : List Match}
    (h : find icu I plan p opt = .ok ms) : ∀ m ∈ ms, I.Holds m := by
  obtain ⟨r, hr, hms⟩ := find_mem_raw h
  refine fun m hm => ?_
  have hraw : ∀ m ∈ r.1, I.Holds m := by
    unfold findRaw at hr
    rw [hinv, if_neg Bool.false_ne_true] at hr
    cases hre : p.re with
    | none =>
      rw [hre] at hr
      cases hr
      exact findFixed_holds hI _ _
    | some re =>
      rw [hre] at hr
      dsimp only at hr
      split at hr
      · cases hr
        exact findFixed_holds hI _ _
      · exact findRegexBranch_holds hr
  exact hraw m (hms m hm)

end

end Pergrep
