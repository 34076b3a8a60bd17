import Pergrep.Index.Chunks
/-!
# Append — `Index::append` and the merge it stands for

The base's documents lose the tombstoned paths, each changed document replaces the one of its path or joins at the end
(`mergeDocuments`), and an index is made of what results.  `mergedContent` says what the merge is for, a path at a time:
the last change of the path, else the base's content unless tombstoned.  `AppendLaw` is the whole contract, with the
manifest's totals and the accounting; it holds unless the early return is taken (`append_law_iff`).
-/
namespace Pergrep

open Throw (bind_ok)

/-! ## Handles -/

/-- `Index`: a default-constructed one has no `impl_`. -/
structure Index where
  impl : Option IndexData := none

def Index.files (x : Index) : List FileInfo := (x.impl.map IndexData.infos).getD []

def Index.content (x : Index) (fileId : Nat) : Bytes := (x.impl.map (fun I => I.data fileId)).getD []

def Index.segmentCount (x : Index) : Nat := (x.impl.map IndexData.segmentCount).getD 0

def Index.appendedBytes (x : Index) : Nat := (x.impl.map IndexData.appendedBytes).getD 0

def Index.documents (x : Index) : List Document := x.files.zipIdx.map (fun f => ⟨f.1.path, x.content f.2⟩)

/-! ## The merge -/

/-- What `append` reads of a `SegmentManifest`. -/
structure SegmentManifest where
  tombstones : List Bytes := []
  corpusFiles : Nat := 0
  corpusBytes : Nat := 0

/-- A changed document replaces the first one of its path, or joins at the end. -/
def replaceOrPush (c : Document) : List Document → List Document
  | [] => [c]
  | m :: ms => if m.path = c.path then { m with content := c.content } :: ms else m :: replaceOrPush c ms

/-- `merged`: the survivors, then the changes one by one. -/
def mergeDocuments (base : Index) (changed : List Document) (tombstones : List Bytes) : List Document :=
  changed.foldl (fun ms c => replaceOrPush c ms) (base.documents.filter (fun d => !tombstones.contains d.path))

/-- `appended_delta`: all that the changes bring and all that the tombstones take. -/
def appendedDelta (base : Index) (changed : List Document) (tombstones : List Bytes) : Nat :=
  corpusSize changed + ((base.files.filter (fun f => tombstones.contains f.path)).map FileInfo.size).sum

def IndexData.advance (I b : IndexData) (delta : Nat) : IndexData :=
  { I with segmentCount := b.segmentCount + 1, appendedBytes := b.appendedBytes + delta }

def append (base : Index) (changed : List Document) (manifest : SegmentManifest) (opt : IndexOptions) :
    Except String Index := do
  validateIndexOptions opt
  if base.files.isEmpty && changed.isEmpty then
    let I ← fromDocuments [] opt
    return ⟨some I⟩
  else
    let merged := mergeDocuments base changed manifest.tombstones
    if manifest.corpusFiles ≠ 0 ∧ manifest.corpusFiles ≠ merged.length then
      throw "pergrep: segment manifest corpus_files mismatch"
    else if manifest.corpusBytes ≠ 0 ∧ manifest.corpusBytes ≠ corpusSize merged then
      throw "pergrep: segment manifest corpus_bytes mismatch"
    else
      let I ← fromDocuments merged opt
      match base.impl with
      | none => return ⟨some I⟩
      | some b => return ⟨some (I.advance b (appendedDelta base changed manifest.tombstones))⟩

/-! ## What the merge is for -/

def contentAt (ds : List Document) (path : Bytes) : Option Bytes :=
  (ds.find? (fun d => d.path == path)).map Document.content

/-- The content of a path after an append: that of its last change, else the base's unless tombstoned. -/
def mergedContent (base : Index) (changed : List Document) (tombstones : List Bytes) (path : Bytes) : Option Bytes :=
  (contentAt changed.reverse path).or (if tombstones.contains path then none else contentAt base.documents path)

/-- The paths that have content after an append, each once, with it. -/
def mergedFiles (base : Index) (changed : List Document) (tombstones : List Bytes) : List Document :=
  ((base.documents ++ changed).map Document.path).dedup.filterMap
    (fun path => (mergedContent base changed tombstones path).map (fun s => ⟨path, s⟩))

theorem contentAt_replaceOrPush (c : Document) (path : Bytes) : ∀ (ms : List Document),
    contentAt (replaceOrPush c ms) path = if c.path = path then some c.content else contentAt ms path
  | [] => by
    by_cases h : c.path = path
    · simp [replaceOrPush, contentAt, h]
    · simp [replaceOrPush, contentAt, h]
  | m :: ms => by
    have ih := contentAt_replaceOrPush c path ms
    rw [replaceOrPush]
    by_cases hm : m.path = c.path
    · rw [if_pos hm]
      by_cases h : c.path = path
      · simp [contentAt, hm, h]
      · simp [contentAt, hm, h]
    · rw [if_neg hm]
      unfold contentAt at ih ⊢
      by_cases h : m.path = path
      · have hc : c.path ≠ path := fun e => hm (h.trans e.symm)
        simp [h, hc]
      · have hb : (m.path == path) = false := by simpa using h
        rw [List.find?_cons, List.find?_cons, hb]
        exact ih

theorem contentAt_foldl (path : Bytes) : ∀ (changed ms : List Document),
    contentAt (changed.foldl (fun ms c => replaceOrPush c ms) ms) path =
      (contentAt changed.reverse path).or (contentAt ms path)
  | [], _ => rfl
  | c :: changed, ms => by
    rw [List.foldl_cons, contentAt_foldl path changed, contentAt_replaceOrPush, List.reverse_cons]
    unfold contentAt
    rw [List.find?_append]
    by_cases h : c.path = path
    · cases changed.reverse.find? (fun d => d.path == path) <;> simp [h]
    · cases changed.reverse.find? (fun d => d.path == path) <;> simp [h]

/-- **The merge gives each path what it should have.** -/
theorem contentAt_mergeDocuments (base : Index) (changed : List Document) (tombstones : List Bytes) (path : Bytes) :
    contentAt (mergeDocuments base changed tombstones) path = mergedContent base changed tombstones path := by
  rw [mergeDocuments, contentAt_foldl, mergedContent]
  congr 1
  unfold contentAt
  rw [List.find?_filter]
  by_cases h : tombstones.contains path = true
  · rw [if_pos h, List.find?_eq_none.2 (fun d _ hd => ?_)]
    · rfl
    · simp only [Bool.not_eq_true', decide_eq_true_eq, beq_iff_eq] at hd
      rw [hd.2, h] at hd
      exact absurd hd.1 (by decide)
  · rw [if_neg h]
    refine congrArg _ (congrArg (fun p => List.find? p base.documents) (funext fun d => ?_))
    by_cases hd : d.path = path
    · simpa [hd] using h
    · simp [hd]

theorem paths_replaceOrPush (c : Document) : ∀ (ms : List Document), (replaceOrPush c ms).map Document.path =
    if c.path ∈ ms.map Document.path then ms.map Document.path else ms.map Document.path ++ [c.path]
  | [] => rfl
  | m :: ms => by
    rw [replaceOrPush, List.map_cons]
    by_cases hm : m.path = c.path
    · rw [if_pos hm, if_pos (by rw [hm]; exact List.mem_cons_self)]
      rfl
    · rw [if_neg hm, List.map_cons, paths_replaceOrPush c ms]
      have hne : c.path ≠ m.path := fun e => hm e.symm
      by_cases h : c.path ∈ ms.map Document.path
      · rw [if_pos h, if_pos (List.mem_cons_of_mem _ h)]
      · rw [if_neg h, if_neg (by rw [List.mem_cons]; exact not_or.2 ⟨hne, h⟩), List.cons_append]

theorem nodup_mergeDocuments {base : Index} (changed : List Document) (tombstones : List Bytes)
    (hbase : (base.files.map FileInfo.path).Nodup) :
    ((mergeDocuments base changed tombstones).map Document.path).Nodup := by
  have hdocs : (base.documents.map Document.path).Nodup := by
    have : base.documents.map Document.path = base.files.map FileInfo.path := by
      rw [Index.documents, List.map_map]
      exact (List.map_map (f := Prod.fst) (g := FileInfo.path)).symm.trans (by rw [List.zipIdx_map_fst])
    rwa [this]
  have hfold : ∀ (cs ms : List Document), (ms.map Document.path).Nodup →
      ((cs.foldl (fun ms c => replaceOrPush c ms) ms).map Document.path).Nodup := by
    intro cs
    induction cs with
    | nil => exact fun ms h => h
    | cons c cs ih =>
      intro ms h
      refine ih _ ?_
      rw [paths_replaceOrPush]
      split
      · exact h
      · rename_i hc
        exact List.nodup_append.2 ⟨h, List.nodup_singleton _, fun a ha b hb e => hc (by
          rw [List.mem_singleton.1 hb] at e
          rwa [← e])⟩
  exact hfold changed _ (hdocs.sublist (List.filter_sublist.map _))

/-! ## Documents with distinct paths -/

theorem mem_iff_contentAt : ∀ {ds : List Document}, (ds.map Document.path).Nodup → ∀ (d : Document),
    d ∈ ds ↔ contentAt ds d.path = some d.content
  | [], _, d => by simp [contentAt]
  | m :: ms, h, d => by
    rw [List.map_cons, List.nodup_cons] at h
    have ih := mem_iff_contentAt h.2 d
    unfold contentAt at ih ⊢
    rw [List.mem_cons, List.find?_cons]
    by_cases hm : m.path = d.path
    · rw [show (m.path == d.path) = true by simpa using hm]
      simp only [Option.map_some, Option.some.injEq]
      constructor
      · rintro (rfl | hd)
        · rfl
        · exact absurd (List.mem_map.2 ⟨d, hd, hm.symm⟩) h.1
      · intro hc
        left
        cases m
        cases d
        simp_all
    · rw [show (m.path == d.path) = false by simpa using hm, ← ih]
      exact ⟨fun hd => hd.resolve_left (fun e => hm (by rw [e])), Or.inr⟩

theorem contentAt_perm {ds es : List Document} (h : ds.Perm es) (hnd : (ds.map Document.path).Nodup) (path : Bytes) :
    contentAt ds path = contentAt es path := by
  have hnd' : (es.map Document.path).Nodup := (h.map _).nodup_iff.1 hnd
  refine Option.ext (fun s => ?_)
  rw [← mem_iff_contentAt hnd ⟨path, s⟩, ← mem_iff_contentAt hnd' ⟨path, s⟩]
  exact h.mem_iff

theorem mem_paths_iff {ds : List Document} {path : Bytes} :
    path ∈ ds.map Document.path ↔ (contentAt ds path).isSome := by
  unfold contentAt
  rw [Option.isSome_map, List.find?_isSome, List.mem_map]
  exact exists_congr fun d => and_congr_right fun _ => beq_iff_eq.symm

/-- **The merge is the files that should be there**, in some order. -/
theorem mergeDocuments_perm {base : Index} (changed : List Document) (tombstones : List Bytes)
    (hbase : (base.files.map FileInfo.path).Nodup) :
    (mergeDocuments base changed tombstones).Perm (mergedFiles base changed tombstones) := by
  have hnd := nodup_mergeDocuments changed tombstones hbase
  have hnd' : (mergedFiles base changed tombstones).Nodup := by
    refine (List.nodup_dedup _).filterMap (fun p q d hp hq => ?_)
    obtain ⟨s, -, rfl⟩ := Option.map_eq_some_iff.1 hp
    obtain ⟨t, -, h⟩ := Option.map_eq_some_iff.1 hq
    exact (Document.mk.inj h).1.symm
  refine (List.perm_ext_iff_of_nodup (List.Nodup.of_map _ hnd) hnd').2 (fun d => ?_)
  rw [mem_iff_contentAt hnd, contentAt_mergeDocuments, mergedFiles, List.mem_filterMap]
  constructor
  · intro h
    refine ⟨d.path, ?_, by rw [h]; rfl⟩
    rw [List.mem_dedup, List.map_append, List.mem_append, mem_paths_iff, mem_paths_iff]
    rw [mergedContent, Option.or_eq_some_iff] at h
    rcases h with h | ⟨-, h⟩
    · right
      rw [← mem_paths_iff] at *
      have : d.path ∈ changed.reverse.map Document.path := mem_paths_iff.2 (by rw [h]; rfl)
      rw [List.map_reverse, List.mem_reverse] at this
      exact this
    · left
      split at h
      · cases h
      · rw [h]
        rfl
  · rintro ⟨path, -, h⟩
    obtain ⟨s, hs, rfl⟩ := Option.map_eq_some_iff.1 h
    exact hs

/-! ## The law -/

/-- What an append should reject: totals other than the manifest's nonzero ones, or a corpus over its limit. -/
def Rejected (base : Index) (changed : List Document) (manifest : SegmentManifest) : Prop :=
  (manifest.corpusFiles ≠ 0 ∧ manifest.corpusFiles ≠ (mergedFiles base changed manifest.tombstones).length) ∨
  (manifest.corpusBytes ≠ 0 ∧ manifest.corpusBytes ≠ corpusSize (mergedFiles base changed manifest.tombstones)) ∨
  maxCorpusBytes < corpusSize (mergedFiles base changed manifest.tombstones)

/-- **The contract of `append`.** -/
structure AppendLaw (base : Index) (changed : List Document) (manifest : SegmentManifest) (opt : IndexOptions) :
    Prop where
  throws : (∃ e, append base changed manifest opt = .error e) ↔ Rejected base changed manifest
  gives : ∀ r, append base changed manifest opt = .ok r →
    (∀ path, contentAt r.documents path = mergedContent base changed manifest.tombstones path) ∧
    (r.files.map FileInfo.path).Pairwise (· < ·) ∧
    r.segmentCount = base.segmentCount + 1 ∧
    r.appendedBytes = base.appendedBytes + appendedDelta base changed manifest.tombstones

theorem Built.documents {I : IndexData} {ds : List Document} (h1 : I.loaded = ds.map Document.content)
    (h2 : I.infos = ds.map fileInfo) : (Index.mk (some I)).documents = ds := by
  refine List.ext_getElem? (fun k => ?_)
  simp only [Index.documents, Index.files, Index.content, Option.map_some, Option.getD_some, h2, IndexData.data, h1,
    List.getElem?_map, List.getElem?_zipIdx, List.getD_eq_getElem?_getD, Nat.zero_add]
  cases hk : ds[k]? with
  | none => rfl
  | some d => simp [hk, fileInfo]

section
variable {base : Index} {changed : List Document} {manifest : SegmentManifest} {opt : IndexOptions}

theorem append_early (hv : validateIndexOptions opt = .ok ()) (h1 : base.files = []) (h2 : changed = []) :
    append base changed manifest opt = (fromDocuments [] opt).map (fun J => ⟨some J⟩) := by
  rw [append, hv, h1, h2]
  rfl

theorem append_eq (hv : validateIndexOptions opt = .ok ()) (hne : base.files ≠ [] ∨ changed ≠ []) :
    append base changed manifest opt =
      (let merged := mergeDocuments base changed manifest.tombstones
      if manifest.corpusFiles ≠ 0 ∧ manifest.corpusFiles ≠ merged.length then
        .error "pergrep: segment manifest corpus_files mismatch"
      else if manifest.corpusBytes ≠ 0 ∧ manifest.corpusBytes ≠ corpusSize merged then
        .error "pergrep: segment manifest corpus_bytes mismatch"
      else (fromDocuments merged opt).map (fun J => ⟨some (base.impl.elim J
        (fun b => J.advance b (appendedDelta base changed manifest.tombstones)))⟩)) := by
  have he : (base.files.isEmpty && changed.isEmpty) = false := by
    rw [Bool.and_eq_false_iff, List.isEmpty_eq_false_iff, List.isEmpty_eq_false_iff]
    exact hne
  rw [append, hv, he]
  simp only [bind, Except.bind, Bool.false_eq_true, if_false]
  split
  · rfl
  · split
    · rfl
    · cases fromDocuments (mergeDocuments base changed manifest.tombstones) opt <;> cases base.impl <;> rfl

variable (hv : validateIndexOptions opt = .ok ()) (hbase : (base.files.map FileInfo.path).Nodup)
  (hne : base.files ≠ [] ∨ changed ≠ [])
include hv hbase hne

/-- **What is rejected is what should be.** -/
theorem append_throws : (∃ e, append base changed manifest opt = .error e) ↔ Rejected base changed manifest := by
  have hperm := mergeDocuments_perm changed manifest.tombstones hbase
  have hsize : corpusSize (mergeDocuments base changed manifest.tombstones) =
      corpusSize (mergedFiles base changed manifest.tombstones) := (hperm.map _).sum_nat
  have hok := fromDocuments_ok (mergeDocuments base changed manifest.tombstones) hv
  rw [append_eq hv hne, Rejected, ← hsize, ← hperm.length_eq]
  dsimp only
  split
  · rename_i h
    exact iff_of_true ⟨_, rfl⟩ (Or.inl h)
  · rename_i h1
    split
    · rename_i h
      exact iff_of_true ⟨_, rfl⟩ (Or.inr (Or.inl h))
    · rename_i h2
      rw [← not_le, ← hok]
      cases fromDocuments (mergeDocuments base changed manifest.tombstones) opt with
      | error e => exact iff_of_true ⟨e, rfl⟩ (Or.inr (Or.inr (fun ⟨J, hJ⟩ => by cases hJ)))
      | ok J =>
        refine iff_of_false (fun ⟨e, he⟩ => by cases he) ?_
        rintro (h | h | h)
        · exact h1 h
        · exact h2 h
        · exact h ⟨J, rfl⟩

omit hbase in
theorem append_ok {r : Index} (hr : append base changed manifest opt = .ok r) :
    ∃ J, fromDocuments (mergeDocuments base changed manifest.tombstones) opt = .ok J ∧
      r = ⟨some (base.impl.elim J (fun b => J.advance b (appendedDelta base changed manifest.tombstones)))⟩ := by
  rw [append_eq hv hne] at hr
  dsimp only at hr
  split at hr
  · cases hr
  · split at hr
    · cases hr
    · cases hJ : fromDocuments (mergeDocuments base changed manifest.tombstones) opt with
      | error e =>
        rw [hJ] at hr
        cases hr
      | ok J =>
        rw [hJ] at hr
        exact ⟨J, rfl, (Except.ok.inj hr).symm⟩

theorem append_gives {b : IndexData} (hb : base.impl = some b) {r : Index}
    (hr : append base changed manifest opt = .ok r) :
    (∀ path, contentAt r.documents path = mergedContent base changed manifest.tombstones path) ∧
    (r.files.map FileInfo.path).Pairwise (· < ·) ∧
    r.segmentCount = base.segmentCount + 1 ∧
    r.appendedBytes = base.appendedBytes + appendedDelta base changed manifest.tombstones := by
  obtain ⟨J, hJ, rfl⟩ := append_ok hv hne hr
  obtain ⟨-, hl, hf, -⟩ := fromDocuments_built hJ
  rw [hb, Option.elim_some]
  generalize appendedDelta base changed manifest.tombstones = delta
  have hnd := nodup_mergeDocuments changed manifest.tombstones hbase
  have hnd' := ((byPath_perm _).map Document.path).nodup_iff.2 hnd
  have hpaths : (Index.mk (some (J.advance b delta))).files.map FileInfo.path =
      (byPath (mergeDocuments base changed manifest.tombstones)).map Document.path := by
    change J.infos.map FileInfo.path = _
    rw [hf, List.map_map]
    rfl
  refine ⟨fun path => ?_, ?_, ?_, ?_⟩
  · rw [Built.documents (I := J.advance b delta) hl hf, contentAt_perm (byPath_perm _) hnd', contentAt_mergeDocuments]
  · rw [hpaths]
    exact ((byPath_sorted _).and hnd').imp (fun ⟨h1, h2⟩ => Std.lt_of_le_of_ne h1 h2)
  · change b.segmentCount + 1 = base.segmentCount + 1
    rw [Index.segmentCount, hb, Option.map_some, Option.getD_some]
  · change b.appendedBytes + delta = base.appendedBytes + delta
    rw [Index.appendedBytes, hb, Option.map_some, Option.getD_some]

end

/-- **The contract holds exactly off the early return**, for a base that is an index, or else for what is rejected. -/
theorem append_law_iff {base : Index} {changed : List Document} (manifest : SegmentManifest) {opt : IndexOptions}
    (hv : validateIndexOptions opt = .ok ()) (hbase : (base.files.map FileInfo.path).Nodup) :
    AppendLaw base changed manifest opt ↔
      (base.files ≠ [] ∨ changed ≠ []) ∧ (base.impl ≠ none ∨ Rejected base changed manifest) := by
  constructor
  · intro h
    have hne : base.files ≠ [] ∨ changed ≠ [] := by
      by_contra hn
      rw [not_or, not_not, not_not] at hn
      obtain ⟨J, hJ⟩ := (fromDocuments_ok [] hv).2 (Nat.zero_le _)
      have hr : append base changed manifest opt = .ok ⟨some J⟩ := by rw [append_early hv hn.1 hn.2, hJ]; rfl
      have hs : J.segmentCount = base.segmentCount + 1 := (h.gives _ hr).2.2.1
      rw [(fromDocuments_frame hJ).1] at hs
      omega
    refine ⟨hne, or_iff_not_imp_right.2 (fun hrej hi => ?_)⟩
    rw [← append_throws hv hbase hne] at hrej
    cases hr : append base changed manifest opt with
    | error e => exact hrej ⟨e, hr⟩
    | ok r =>
      obtain ⟨J, hJ, rfl⟩ := append_ok hv hne hr
      have hs := (h.gives _ hr).2.2.1
      rw [hi] at hs
      have hs' : J.segmentCount = base.segmentCount + 1 := hs
      rw [(fromDocuments_frame hJ).1] at hs'
      omega
  · rintro ⟨hne, hi⟩
    refine ⟨append_throws hv hbase hne, fun r hr => ?_⟩
    cases hb : base.impl with
    | none =>
      rw [hb] at hi
      obtain ⟨e, he⟩ := (append_throws hv hbase hne).2 (hi.resolve_left (fun h => h rfl))
      rw [hr] at he
      cases he
    | some b => exact append_gives hv hbase hne hb hr

def threeFiles : IndexData :=
  match fromDocuments [⟨[97], [49]⟩, ⟨[98], [50]⟩, ⟨[99], [51]⟩] {} with
  | .ok I    => I
  | .error _ => { opt := {} }

/-- `a` is taken away, `b` replaced, and `d` changed twice: two files of the base and a new one are left, with four bytes. -/
theorem append_law_three : AppendLaw ⟨some threeFiles⟩ [⟨[98], [52, 52]⟩, ⟨[100], [53]⟩, ⟨[100], [54]⟩]
    { tombstones := [[97]], corpusFiles := 3, corpusBytes := 4 } {} :=
  (append_law_iff _ (by decide) (by decide +kernel)).2 ⟨Or.inr (by decide), Or.inl (fun h => by cases h)⟩

/-- A base without files and no change: the segment is not counted, and the manifest's total is not checked. -/
theorem not_appendLaw_empty : ¬ ∀ (base : Index) (changed : List Document) (manifest : SegmentManifest)
    (opt : IndexOptions), validateIndexOptions opt = .ok () → (base.files.map FileInfo.path).Nodup →
      AppendLaw base changed manifest opt := by
  intro h
  have hlaw := h ⟨some { opt := {} }⟩ [] { corpusFiles := 5 } {} (by decide) (by decide)
  obtain ⟨e, he⟩ := hlaw.throws.2 (Or.inl (by decide))
  obtain ⟨J, hJ⟩ := (fromDocuments_ok [] validateIndexOptions_default).2 (Nat.zero_le _)
  rw [append_early (by decide) rfl rfl, hJ] at he
  cases he

end Pergrep
