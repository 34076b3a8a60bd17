import Pergrep.Index.Append
import Pergrep.Index.Fresh
/-!
# Identity — the ways to make an index of the same files

The chunks, the groups and the positional rows of a built index depend on its options and on its texts in their order
(`Built.sameTables`).  `from_documents` puts the documents in the order of their paths' bytes, so their order when given
does not matter; `build` puts its files in the order of their names.  The two agree on a tree when no two of its paths
clash (`canonical_iff`).
-/
namespace Pergrep

open PathOrder (Clash)
open Throw (bind_ok)

/-! ## Tables -/

/-- The files have the same numbers and the tables are the same. -/
structure SameTables (I J : IndexData) : Prop where
  paths : I.infos.map FileInfo.path = J.infos.map FileInfo.path
  chunks : I.chunks = J.chunks
  groups : I.groups = J.groups
  posDesc : I.posDesc = J.posDesc
  pos : I.pos = J.pos

theorem buildGroups_congr {I J : IndexData} (hc : I.chunks = J.chunks) (hl : I.loaded = J.loaded) :
    buildGroups I = buildGroups J := by
  unfold buildGroups IndexData.view IndexData.data
  rw [hc, hl]

theorem buildPos_congr {I J : IndexData} (hc : I.chunks = J.chunks) (hl : I.loaded = J.loaded)
    (hp : I.posBlock = J.posBlock) (descs : List PosDesc) (total : Nat) : buildPos I descs total = buildPos J descs total := by
  have hb : ∀ z d bi, blockBits I z d bi = blockBits J z d bi := fun z d bi => by
    unfold blockBits IndexData.data
    rw [hp, hl]
  unfold buildPos
  rw [hc]
  simp only [funext (hb _ _)]

/-- **The tables come of the options and the texts.** -/
theorem Built.sameTables {I J : IndexData} (hI : Built I) (hJ : Built J) (ho : I.opt = J.opt)
    (hp : I.posBlock = J.posBlock) (hl : I.loaded = J.loaded)
    (hpaths : I.infos.map FileInfo.path = J.infos.map FileInfo.path) : SameTables I J := by
  have hc : I.chunks = J.chunks := by rw [hI.chunks_eq, hJ.chunks_eq, ho, hl]
  have hd : posDescs I 0 I.chunks = posDescs J 0 J.chunks := by rw [hc, posDescs_congr ho hp]
  have hdesc : I.posDesc = J.posDesc := by rw [hI.posDesc_eq, hJ.posDesc_eq, hd]
  refine ⟨hpaths, hc, ?_, hdesc, ?_⟩
  · rw [hI.groups_eq, hJ.groups_eq, buildGroups_congr hc hl]
  · rw [hI.pos_eq, hJ.pos_eq, hd, hdesc, buildPos_congr hc hl hp]

/-- Both throw, with the same message, or both give the same tables. -/
def SameResult : Except String IndexData → Except String IndexData → Prop
  | .error e, .error e' => e = e'
  | .ok I, .ok J => SameTables I J
  | _, _ => False

/-! ## Documents in any order -/

/-- **Any sort puts documents with distinct paths as `byPath` does**, a stable one or not. -/
theorem eq_byPath {ds es : List Document} (h : es.Perm ds) (hnd : (ds.map Document.path).Nodup)
    (hsorted : (es.map Document.path).Pairwise (· ≤ ·)) : es = byPath ds := by
  refine List.Perm.eq_of_pairwise (fun a b ha hb hab hba => ?_) (List.pairwise_map.1 hsorted)
    (List.pairwise_map.1 (byPath_sorted ds)) (h.trans (byPath_perm ds).symm)
  exact List.inj_on_of_nodup_map hnd (h.mem_iff.1 ha) ((byPath_perm ds).mem_iff.1 hb) (Std.le_antisymm hab hba)

theorem byPath_congr {ds es : List Document} (h : ds.Perm es) (hnd : (ds.map Document.path).Nodup) :
    byPath ds = byPath es :=
  eq_byPath ((byPath_perm ds).trans h) ((h.map Document.path).nodup_iff.1 hnd) (byPath_sorted ds)

/-- **The order the documents are given in does not matter.** -/
theorem fromDocuments_congr {ds es : List Document} (h : ds.Perm es) (hnd : (ds.map Document.path).Nodup)
    (opt : IndexOptions) : fromDocuments ds opt = fromDocuments es opt := by
  rw [fromDocuments, fromDocuments, byPath_congr h hnd]

/-! ## A tree and its documents -/

def Found.document (f : Found) : Document := ⟨f.path, f.state.content⟩

theorem document_paths_nodup (t : Tree) (opt : IndexOptions) :
    (((sources t opt).map Found.document).map Document.path).Nodup := by
  rw [List.map_map]
  have hnd : ((sources t opt).map Found.names).Nodup :=
    (((byNames_perm _).map Found.names).nodup_iff.2 (walk_nodup t opt)).sublist (List.filter_sublist.map _)
  refine (List.Nodup.of_map _ hnd).map_on (fun f hf g hg h => ?_)
  exact List.inj_on_of_nodup_map hnd hf hg (path_injOn t opt (mem_sources.1 hf).1 (mem_sources.1 hg).1 h)

/-- **The contract of the construction paths**: `build` and `from_documents`, the documents in any order, and `append`
and `from_documents` on the merge, give the same. -/
structure Canonical (t : Tree) (opt : IndexOptions) : Prop where
  build : ∀ docs : List Document, docs.Perm ((sources t opt).map Found.document) →
    SameResult (build t opt) (fromDocuments docs opt)
  append : ∀ (base : Index) (changed : List Document) (manifest : SegmentManifest) (r : Index),
    append base changed manifest opt = .ok r → ∀ docs : List Document,
      docs.Perm (mergeDocuments base changed manifest.tombstones) →
      ((docs.map Document.path).Nodup ∨ docs = mergeDocuments base changed manifest.tombstones) →
      ∃ R J, r.impl = some R ∧ fromDocuments docs opt = .ok J ∧ SameTables R J

theorem SameTables.refl (I : IndexData) : SameTables I I := ⟨rfl, rfl, rfl, rfl, rfl⟩

/-- **`append` gives the tables of the merge.** -/
theorem append_sameTables {base : Index} {changed : List Document} {manifest : SegmentManifest} {opt : IndexOptions}
    {r : Index} (hv : validateIndexOptions opt = .ok ()) (h : append base changed manifest opt = .ok r)
    {docs : List Document} (hperm : docs.Perm (mergeDocuments base changed manifest.tombstones))
    (hdocs : (docs.map Document.path).Nodup ∨ docs = mergeDocuments base changed manifest.tombstones) :
    ∃ R J, r.impl = some R ∧ fromDocuments docs opt = .ok J ∧ SameTables R J := by
  have heq : fromDocuments docs opt = fromDocuments (mergeDocuments base changed manifest.tombstones) opt := by
    rcases hdocs with hnd | rfl
    · exact fromDocuments_congr hperm hnd opt
    · rfl
  rw [heq]
  by_cases hne : base.files ≠ [] ∨ changed ≠ []
  · obtain ⟨J, hJ, rfl⟩ := append_ok hv hne h
    refine ⟨_, J, rfl, hJ, ?_⟩
    cases base.impl with
    | none => exact SameTables.refl J
    | some b => exact ⟨rfl, rfl, rfl, rfl, rfl⟩
  · rw [not_or, not_not, not_not] at hne
    have hmerge : mergeDocuments base changed manifest.tombstones = [] := by
      rw [mergeDocuments, Index.documents, hne.1, hne.2]
      rfl
    rw [append_early hv hne.1 hne.2] at h
    rw [hmerge]
    cases hJ : fromDocuments [] opt with
    | error e =>
      rw [hJ] at h
      cases h
    | ok J =>
      rw [hJ] at h
      obtain rfl : (⟨some J⟩ : Index) = r := Except.ok.inj h
      exact ⟨J, J, rfl, rfl, SameTables.refl J⟩

theorem foldlM_pushFile_error : ∀ (fs : List (FileInfo × Bytes)) {I : IndexData} {e : String},
    fs.foldlM (fun I f => pushFile I f.1 f.2) I = .error e → e = "index corpus exceeds 1 GiB limit"
  | [], _, _, h => by cases h
  | f :: fs, I, e, h => by
    rw [List.foldlM_cons, pushFile] at h
    split at h
    · cases h
      rfl
    · exact foldlM_pushFile_error fs h

theorem build_error {t : Tree} {opt : IndexOptions} {e : String} (hv : validateIndexOptions opt = .ok ())
    (h : build t opt = .error e) : e = "index corpus exceeds 1 GiB limit" := by
  rw [build, hv] at h
  have hm : (sources t opt).foldlM (fun I f => pushFile I (sourceInfo f) f.state.content)
      { opt := opt, posBlock := opt.positionalBlockBytes, root := t.root, rootMtimeNs := t.rootMtimeNs } =
      ((sources t opt).map (fun f => (sourceInfo f, f.state.content))).foldlM (fun I f => pushFile I f.1 f.2)
        { opt := opt, posBlock := opt.positionalBlockBytes, root := t.root, rootMtimeNs := t.rootMtimeNs } := by
    rw [List.foldlM_map]
  simp only [bind, Except.bind, hm] at h
  split at h
  · rename_i e' he
    cases h
    exact foldlM_pushFile_error _ he
  · cases h

theorem fromDocuments_error {ds : List Document} {opt : IndexOptions} {e : String} (hv : validateIndexOptions opt = .ok ())
    (h : fromDocuments ds opt = .error e) : e = "index corpus exceeds 1 GiB limit" := by
  rw [fromDocuments, hv] at h
  simp only [bind, Except.bind, foldlM_addDocument] at h
  split at h
  · rename_i e' he
    cases h
    exact foldlM_pushFile_error _ he
  · cases h

/-- **The construction paths agree exactly on the trees whose paths do not clash**, or that are too big for either. -/
theorem canonical_iff (t : Tree) {opt : IndexOptions} (hv : validateIndexOptions opt = .ok ()) :
    Canonical t opt ↔ maxCorpusBytes < ((sources t opt).map (fun f => f.state.content.length)).sum ∨
      ∀ f ∈ sources t opt, ∀ g ∈ sources t opt, ¬ Clash slash f.names g.names := by
  have hbuild := build_ok t hv
  have hsize : ∀ docs : List Document, docs.Perm ((sources t opt).map Found.document) →
      corpusSize docs = ((sources t opt).map (fun f => f.state.content.length)).sum := fun docs hdocs => by
    rw [corpusSize, (hdocs.map _).sum_nat, List.map_map]
    rfl
  constructor
  · intro hcan
    refine or_iff_not_imp_left.2 (fun hfit => ?_)
    obtain ⟨I, hI⟩ := hbuild.2 (not_lt.1 hfit)
    obtain ⟨J, hJ⟩ := (fromDocuments_ok ((sources t opt).map Found.document) hv).2
      (by rw [hsize _ (List.Perm.refl _)]; exact not_lt.1 hfit)
    have hsame := hcan.build _ (List.Perm.refl _)
    rw [hI, hJ] at hsame
    obtain ⟨-, -, hi, -⟩ := build_built hI
    obtain ⟨-, -, hj, -⟩ := fromDocuments_built hJ
    have hpaths := hsame.paths
    rw [hi, hj, List.map_map, List.map_map] at hpaths
    rw [← sorted_sources_iff]
    have : (sources t opt).map Found.path = (byPath ((sources t opt).map Found.document)).map Document.path := hpaths
    rw [this]
    exact byPath_sorted _
  · intro hor
    refine ⟨fun docs hdocs => ?_, fun base changed manifest r h docs hperm hd => append_sameTables hv h hperm hd⟩
    have hdok := fromDocuments_ok docs hv
    rw [hsize docs hdocs] at hdok
    cases hI : build t opt with
    | error e =>
      cases hJ : fromDocuments docs opt with
      | error e' => exact (build_error hv hI).trans (fromDocuments_error hv hJ).symm
      | ok J =>
        obtain ⟨I, hI'⟩ := hbuild.2 (hdok.1 ⟨J, hJ⟩)
        rw [hI] at hI'
        cases hI'
    | ok I =>
      have hfit := hbuild.1 ⟨I, hI⟩
      obtain ⟨J, hJ⟩ := hdok.2 hfit
      rw [hJ]
      have hsorted := (sorted_sources_iff t opt).2 (hor.resolve_left (not_lt.2 hfit))
      have hby : byPath docs = (sources t opt).map Found.document := by
        rw [byPath_congr hdocs ((hdocs.map Document.path).nodup_iff.2 (document_paths_nodup t opt))]
        have hle : ((sources t opt).map Found.document).Pairwise (fun a b => a.path ≤ b.path) :=
          List.pairwise_map.2 (List.pairwise_map.1 hsorted)
        refine List.Perm.eq_of_pairwise (fun a b ha hb hab hba => ?_) (List.pairwise_map.1 (byPath_sorted _)) hle
          (byPath_perm _)
        exact List.inj_on_of_nodup_map (document_paths_nodup t opt) ((byPath_perm _).mem_iff.1 ha) hb
          (Std.le_antisymm hab hba)
      obtain ⟨bI, lI, iI, oI, -, -, pI⟩ := build_built hI
      obtain ⟨bJ, lJ, iJ, oJ⟩ := fromDocuments_built hJ
      refine bI.sameTables bJ (oI.trans oJ.symm) (pI.trans (fromDocuments_frame hJ).2.symm) ?_ ?_
      · rw [lI, lJ, hby, List.map_map]
        rfl
      · rw [iI, iJ, hby, List.map_map, List.map_map, List.map_map]
        rfl

theorem canonical_nested : Canonical nestedTree {} :=
  (canonical_iff nestedTree (by decide)).2 (Or.inr ((sorted_sources_iff nestedTree {}).1 (by decide)))

/-- `build` numbers `a/b` before `a-b`, `from_documents` after it. -/
theorem not_canonical_clash : ¬ ∀ (t : Tree) (opt : IndexOptions), validateIndexOptions opt = .ok () → Canonical t opt := by
  intro h
  obtain ⟨I, hI⟩ := (build_ok clashTree validateIndexOptions_default).2 (by decide)
  obtain ⟨J, hJ⟩ := (fromDocuments_ok ((sources clashTree {}).map Found.document) validateIndexOptions_default).2
    (by decide)
  have hsame := (h clashTree {} (by decide)).build _ (List.Perm.refl _)
  rw [hI, hJ] at hsame
  obtain ⟨-, -, hi, -⟩ := build_built hI
  obtain ⟨-, -, hj, -⟩ := fromDocuments_built hJ
  have hpaths := hsame.paths
  rw [hi, hj] at hpaths
  exact absurd hpaths (by decide)

end Pergrep
