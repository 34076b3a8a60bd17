import Pergrep.Index.Reload
import Pergrep.Lib.Runs
/-!
# Lifecycle — building, editing, saving and loading in any order

The trees change, indexes are built from them, saved and loaded again, in any order and any number of them.  A snapshot
without its corpus carries the fingerprint of the tree as it is at `save` and the files as they were at `build`; when the
two agree at every save, a loaded index describes the tree it is loaded over (`load_describes`).
-/
namespace Pergrep

open PathOrder (IsName)

/-! ## What an index says of a tree -/

def FileInfo.entry (f : FileInfo) : Entry := (f.path, f.size, f.mtimeNs)

def treeEntries (t : Tree) (opt : IndexOptions) : List Entry := (byNames (walk t opt)).map Found.entry

/-- The files an index lists are those of its root, with their sizes and times. -/
def Describes (world : World) (I : IndexData) : Prop :=
  ∃ t, world I.root = some t ∧ I.infos.map FileInfo.entry = treeEntries t I.opt

/-- The fingerprints of a source in two worlds are the same only if its files are. -/
def NoCollision (w w' : World) (root : Bytes) (opt : IndexOptions) : Prop :=
  sourceIdentity w' root opt ≠ 0 → sourceIdentity w' root opt = sourceIdentity w root opt →
    sourceEntries w' root opt = sourceEntries w root opt

theorem collectEntries_eq : ∀ {fs : List Found} {count metadata corpus : Nat} {es : List Entry},
    collectEntries fs count metadata corpus = some es → es = fs.map Found.entry
  | [], _, _, _, _, h => by
    cases h
    rfl
  | f :: fs, count, metadata, corpus, es, h => by
    rw [collectEntries] at h
    split at h
    · cases h
    · obtain ⟨rest, hrest, rfl⟩ := Option.map_eq_some_iff.1 h
      rw [collectEntries_eq hrest]
      rfl

theorem entry_injOn {t : Tree} {opt : IndexOptions} {a b : Entry} (ha : a ∈ (walk t opt).map Found.entry)
    (hb : b ∈ (walk t opt).map Found.entry) (h : a.1.splitOn slash = b.1.splitOn slash) : a = b := by
  obtain ⟨f, hf, rfl⟩ := List.mem_map.1 ha
  obtain ⟨g, hg, rfl⟩ := List.mem_map.1 hb
  obtain ⟨f1, f2⟩ := walk_names_ok t opt hf
  obtain ⟨g1, g2⟩ := walk_names_ok t opt hg
  have hnames : f.names = g.names :=
    (PathOrder.splitOn_join f1 f2).symm.trans (h.trans (PathOrder.splitOn_join g1 g2))
  rw [List.inj_on_of_nodup_map (walk_nodup t opt) hf hg hnames]

theorem treeEntries_perm (t : Tree) (opt : IndexOptions) : (treeEntries t opt).Perm ((walk t opt).map Found.entry) :=
  (byNames_perm _).map _

theorem treeEntries_sorted (t : Tree) (opt : IndexOptions) :
    (treeEntries t opt).Pairwise (fun a b => a.1.splitOn slash ≤ b.1.splitOn slash) := by
  have hsplit : ∀ f ∈ byNames (walk t opt), f.path.splitOn slash = f.names := fun f hf => by
    obtain ⟨h1, h2⟩ := walk_names_ok t opt ((byNames_perm _).mem_iff.1 hf)
    exact PathOrder.splitOn_join h1 h2
  refine List.pairwise_map.2 ((List.pairwise_map.1 (byNames_sorted (walk t opt))).imp_of_mem (fun hf hg h => ?_))
  rw [Found.entry, Found.entry]
  dsimp only
  rwa [hsplit _ hf, hsplit _ hg]

/-- **The order of the walk does not matter.** -/
theorem treeEntries_congr {t t' : Tree} {opt : IndexOptions}
    (h : ((walk t opt).map Found.entry).Perm ((walk t' opt).map Found.entry)) : treeEntries t opt = treeEntries t' opt := by
  have hperm := ((treeEntries_perm t opt).trans h).trans (treeEntries_perm t' opt).symm
  refine List.Perm.eq_of_pairwise (fun a b ha hb hab hba => ?_) (treeEntries_sorted t opt) (treeEntries_sorted t' opt) hperm
  have ha' := (treeEntries_perm t opt).mem_iff.1 ha
  have hb' := (treeEntries_perm t opt).mem_iff.1 (hperm.mem_iff.2 hb)
  exact entry_injOn ha' hb' (Std.le_antisymm hab hba)

theorem sourceEntries_perm {world : World} {root : Bytes} {opt : IndexOptions} {es : List Entry}
    (h : sourceEntries world root opt = some es) :
    ∃ t, world root = some t ∧ es.Perm ((walk t opt).map Found.entry) := by
  obtain ⟨t, ht, h⟩ := Option.bind_eq_some_iff.1 h
  obtain ⟨fs, hfs, rfl⟩ := Option.map_eq_some_iff.1 h
  rw [collectEntries_eq hfs]
  exact ⟨t, ht, List.perm_insertionSort _ _⟩

/-- **An index that describes a source describes any source with the same files.** -/
theorem Describes.congr {w w' : World} {I : IndexData} (h : Describes w I) (hne : sourceIdentity w' I.root I.opt ≠ 0)
    (heq : sourceEntries w' I.root I.opt = sourceEntries w I.root I.opt) : Describes w' I := by
  cases hes : sourceEntries w' I.root I.opt with
  | none =>
    rw [sourceIdentity, hes] at hne
    exact absurd rfl hne
  | some es =>
    obtain ⟨t', ht', hperm'⟩ := sourceEntries_perm hes
    obtain ⟨t, ht, hperm⟩ := sourceEntries_perm (heq ▸ hes)
    obtain ⟨u, hu, hlist⟩ := h
    obtain rfl : u = t := Option.some.inj (hu.symm.trans ht)
    exact ⟨t', ht', hlist.trans (treeEntries_congr (hperm.symm.trans hperm'))⟩

/-! ## A loaded index can be saved again -/

theorem contentsOf_sizes {world : World} {I : IndexData} (hI : Stored I) {l : List Bytes} (h : contentsOf world I = .ok l) :
    I.infos.map FileInfo.size = l.map List.length := by
  unfold contentsOf at h
  split at h
  · cases h
    exact hI.sizes
  · exact (mapSources_ok h).symm

theorem restored_stored {world : World} {I : IndexData} (hI : Stored I) {l : List Bytes} (h : contentsOf world I = .ok l) :
    Stored (restored world I) ∧ (restored world I).ephemeral = false ∧ (restored world I).root = I.root ∧
      (restored world I).opt = I.opt ∧ (restored world I).infos = I.infos := by
  have hsizes := contentsOf_sizes hI h
  have htotal : (l.map List.length).sum = I.corpBytes := by rw [← hsizes, hI.sizes, hI.total]
  unfold restored
  rw [h]
  obtain ⟨e, f, g, r, hstats⟩ := rebuildPlannerStats_frame { I.header with
    byteFreq := I.byteFreq, qgramFreq := I.qgramFreq, posBlock := I.posBlock, infos := I.infos, chunks := I.chunks
    groups := I.groups, posDesc := I.posDesc, pos := I.pos, loaded := (Except.ok (ε := Thrown) l).toOption.getD [] }
  rw [hstats]
  exact ⟨⟨⟨hsizes, htotal, hI.corpus, hI.byteFreq, hI.qgramFreq, hI.qgramFreq_zero⟩, hI.options, hI.posBlock, hI.chunk_fits,
    hI.chunks_pass, hI.groups_length, hI.groups_pass, hI.groups_all, hI.posDesc_length, hI.desc_fits, hI.rows, hI.bytes⟩,
    rfl, rfl, rfl, rfl⟩

namespace Lifecycle

open Runs

/-! ## Runs -/

/-- The trees, the indexes in memory by handle, the directory the snapshots are in, and over which trees each was saved. -/
structure Sys where
  world : World
  index : Nat → Option IndexData := fun _ => none
  dir : Dir := fun _ => none
  savedOver : Bytes → Option World := fun _ => none

inductive Act where
  | edit (w : World)
  | build (h : Nat) (root : Bytes) (opt : IndexOptions)
  | save (h : Nat) (pid name : Bytes)
  | load (h : Nat) (name : Bytes)

/-- One step; what throws changes nothing, but that a load has cleaned the directory. -/
def step (parent : Bytes) (s : Sys) : Act → Option Sys
  | .edit w => some { s with world := w }
  | .build h root opt =>
    (s.world root).bind (fun t =>
      if t.root ≠ root then none
      else
        match Pergrep.build t opt with
        | .error _ => some s
        | .ok I => some { s with index := Function.update s.index h (some I) })
  | .save h pid name =>
    (s.index h).bind (fun I =>
      match Pergrep.save s.world pid s.dir { parent := parent, name := name } I with
      | .error _ => some s
      | .ok dir => some { s with dir := dir, savedOver := Function.update s.savedOver name (some s.world) })
  | .load h name =>
    let cleaned := { s with dir := cleanupOrphans { parent := parent, name := name } s.dir }
    match Pergrep.load s.world s.dir { parent := parent, name := name } with
    | .error _ => some cleaned
    | .ok I => some { cleaned with index := Function.update s.index h (some I) }

def Initial (s : Sys) : Prop := (∀ h, s.index h = none) ∧ ∀ name, s.dir name = none

/-- A source-backed index is saved only while it describes its source. -/
def Orderly (s : Sys) : Act → Prop
  | .save h _ _ => ∀ I, s.index h = some I → I.opt.persistCorpus = false → Describes s.world I
  | _ => True

def snapshotOf (w : World) (I : IndexData) : Bytes :=
  snapshotBody (manifestOf w I {}) I ++ trailer (snapshotBody (manifestOf w I {}) I)

/-- Every index can be saved, and every snapshot was saved while its index described the source. -/
structure Inv (s : Sys) : Prop where
  index : ∀ h I, s.index h = some I → Stored I ∧ I.ephemeral = false
  dir : ∀ name bytes, s.dir name = some bytes → ∃ w I, s.savedOver name = some w ∧ Stored I ∧ bytes = snapshotOf w I ∧
    (I.opt.persistCorpus = false → Describes w I)

theorem Inv.initial {s : Sys} (h : Initial s) : Inv s := by
  refine ⟨fun k I hI => ?_, fun name bytes hb => ?_⟩
  · rw [h.1 k] at hI
    cases hI
  · rw [h.2 name] at hb
    cases hb

theorem Inv.load {s : Sys} (hs : Inv s) {place : Place} {J : IndexData} (h : Pergrep.load s.world s.dir place = .ok J) :
    ∃ w I, s.savedOver place.name = some w ∧ Stored I ∧ (I.opt.persistCorpus = false → Describes w I) ∧
      SameSource w s.world I ∧ (∃ l, contentsOf s.world I = .ok l) ∧ J = restored s.world I := by
  unfold Pergrep.load loadImpl at h
  split at h
  · cases h
  · rename_i bytes hbytes
    unfold cleanupOrphans at hbytes
    split at hbytes
    · cases hbytes
    · obtain ⟨w, I, hw, hI, rfl, hdesc⟩ := hs.dir _ _ hbytes
      obtain ⟨⟨-, -, hsame, hcontents⟩, hJ⟩ := (loadSnapshot_saved hI).1 h
      exact ⟨w, I, hw, hI, hdesc, hsame, hcontents, hJ⟩

/-- **An orderly step keeps the invariant.** -/
theorem Inv.step {parent : Bytes} {s t : Sys} {a : Act} (hs : Inv s) (hok : Orderly s a)
    (h : Lifecycle.step parent s a = some t) : Inv t := by
  have hupdate : ∀ {k : Nat} {I : IndexData}, Stored I ∧ I.ephemeral = false →
      ∀ h J, Function.update s.index k (some I) h = some J → Stored J ∧ J.ephemeral = false := fun {k I} hI h J hJ => by
    by_cases hk : h = k
    · subst hk
      rw [Function.update_self] at hJ
      cases hJ
      exact hI
    · rw [Function.update_of_ne hk] at hJ
      exact hs.index h J hJ
  cases a with
  | edit w =>
    cases h
    exact ⟨hs.index, hs.dir⟩
  | build k root opt =>
    obtain ⟨u, -, h⟩ := Option.bind_eq_some_iff.1 h
    split at h
    · cases h
    split at h
    · cases h
      exact hs
    · rename_i I hI
      cases h
      exact ⟨hupdate ⟨build_stored hI, (build_built hI).2.2.2.2.1⟩, hs.dir⟩
  | save k pid name =>
    obtain ⟨I, hI, h⟩ := Option.bind_eq_some_iff.1 h
    obtain ⟨hstored, he⟩ := hs.index k I hI
    rw [save_eq hstored he] at h
    cases h
    refine ⟨hs.index, fun n bytes hb => ?_⟩
    dsimp only [saved] at hb ⊢
    by_cases hn : n = name
    · subst hn
      rw [Function.update_self] at hb ⊢
      cases hb
      exact ⟨s.world, I, rfl, hstored, rfl, hok I hI⟩
    · rw [Function.update_of_ne hn] at hb ⊢
      by_cases ht : n = name ++ tempPattern ++ pid
      · subst ht
        rw [Function.update_self] at hb
        cases hb
      · rw [Function.update_of_ne ht] at hb
        exact hs.dir n bytes hb
  | load k name =>
    have hclean : ∀ n bytes, cleanupOrphans { parent := parent, name := name } s.dir n = some bytes →
        ∃ w I, s.savedOver n = some w ∧ Stored I ∧ bytes = snapshotOf w I ∧
          (I.opt.persistCorpus = false → Describes w I) := fun n bytes hb => by
      unfold cleanupOrphans at hb
      split at hb
      · cases hb
      · exact hs.dir n bytes hb
    unfold Lifecycle.step at h
    dsimp only at h
    split at h
    · cases h
      exact ⟨hs.index, hclean⟩
    · rename_i J hJ
      cases h
      obtain ⟨w, I, -, hI, -, -, ⟨l, hl⟩, rfl⟩ := hs.load hJ
      obtain ⟨h1, h2, -⟩ := restored_stored hI hl
      exact ⟨hupdate ⟨h1, h2⟩, hclean⟩

/-- **A loaded source-backed index describes the tree as it is**, in every state of every run in which a source-backed index
is only saved while it describes its source. -/
theorem load_describes {parent : Bytes} {s₀ s : Sys} (h₀ : Initial s₀) (h : Run (step parent) Orderly s₀ s) :
    ∀ (name : Bytes) (J : IndexData), Pergrep.load s.world s.dir { parent := parent, name := name } = .ok J →
      J.opt.persistCorpus = false → (∀ w, s.savedOver name = some w → NoCollision w s.world J.root J.opt) →
        Describes s.world J := by
  intro name J hJ hpersist hcollision
  have hs : Inv s := Run.invariant (fun _ _ _ hinv hok hst => Inv.step hinv hok hst) h (Inv.initial h₀)
  obtain ⟨w, I, hw, hI, hdesc, hsame, ⟨l, hl⟩, rfl⟩ := hs.load hJ
  obtain ⟨-, -, hroot, hopt, hinfos⟩ := restored_stored hI hl
  have hcol := hcollision w hw
  rw [hroot, hopt] at hcol
  rw [hopt] at hpersist
  rcases hsame with hp | ⟨hne, heq⟩
  · rw [hp] at hpersist
    cases hpersist
  · have hdescribes := (hdesc hpersist).congr hne (hcol hne heq)
    unfold Describes at hdescribes ⊢
    rwa [hroot, hopt, hinfos]

/-! ## Two runs -/

theorem step_build {parent : Bytes} {s : Sys} {t : Tree} {opt : IndexOptions} {I : IndexData}
    (hworld : s.world t.root = some t) (hI : Pergrep.build t opt = .ok I) (h : Nat) :
    step parent s (.build h t.root opt) = some { s with index := Function.update s.index h (some I) } := by
  rw [step, hworld, Option.bind_some, if_neg (not_not.2 rfl), hI]

theorem step_save {parent : Bytes} {s : Sys} {h : Nat} {I : IndexData} {pid name : Bytes} {dir : Dir}
    (hindex : s.index h = some I) (hs : Pergrep.save s.world pid s.dir { parent := parent, name := name } I = .ok dir) :
    step parent s (.save h pid name) =
      some { s with dir := dir, savedOver := Function.update s.savedOver name (some s.world) } := by
  rw [step, hindex, Option.bind_some, hs]

theorem load_describes_plain : ∃ s J, Run (step []) Orderly { world := onlyTree plainTree } s ∧
    Pergrep.load s.world s.dir { name := [105] } = .ok J ∧ Describes s.world J := by
  obtain ⟨I, hI⟩ := (build_ok plainTree validateIndexOptions_default).2 (by decide)
  obtain ⟨-, -, hinfos, hopt, he, hroot, -⟩ := build_built hI
  have hlist : Describes (onlyTree plainTree) I := by
    refine ⟨plainTree, by rw [hroot]; rfl, ?_⟩
    rw [hinfos, hopt]
    decide
  obtain ⟨dir, hs⟩ : ∃ dir, Pergrep.save (onlyTree plainTree) [49] (fun _ => none) { name := [105] } I = .ok dir :=
    ⟨_, save_eq (build_stored hI) he _ _ _ _⟩
  obtain ⟨h1, h2⟩ := limits_of_small hI (by decide) (by decide) (by decide) (by decide) (by decide) (by decide +kernel)
  have hcontents := contentsOf_unchanged (by unfold Tree.Posix; decide) {} hI (onlyTree_root plainTree)
  have hidentity : sourceIdentity (onlyTree plainTree) I.root I.opt ≠ 0 := by
    rw [hroot, hopt]
    decide +kernel
  have hload := (load_saved (build_stored hI) he hs).2 ⟨⟨rfl, h1, h2, Or.inr ⟨hidentity, rfl⟩, _, hcontents⟩, rfl⟩
  have hrun : Run (step []) Orderly { world := onlyTree plainTree } _ :=
    Run.cons (.build 0 [] {}) trivial (step_build (onlyTree_root plainTree) hI 0)
      (Run.cons (.save 0 [49] [105]) (fun J hJ _ => by cases hJ; exact hlist) (step_save rfl hs) (Run.refl _))
  refine ⟨_, _, hrun, hload, load_describes ⟨fun _ => rfl, fun _ => rfl⟩ hrun _ _ hload ?_ ?_⟩
  · rw [(restored_stored (build_stored hI) hcontents).2.2.2.1, hopt]
  · rintro w hw - -
    cases hw
    rfl

def oneTree : Tree where
  dirs := [[⟨[97], false, .file ⟨[120], 1, true⟩⟩]]
  names_ok := by decide
  names_nodup := by decide

/-- Built over one file, saved over two: the snapshot has the fingerprint of the two files and lists the one, and `load`
takes it. -/
theorem not_load_describes_edited : ¬ ∀ (parent : Bytes) (s₀ s : Sys), Initial s₀ → Run (step parent) (fun _ _ => True) s₀ s →
    ∀ (name : Bytes) (J : IndexData), Pergrep.load s.world s.dir { parent := parent, name := name } = .ok J →
      J.opt.persistCorpus = false → (∀ w, s.savedOver name = some w → NoCollision w s.world J.root J.opt) →
        Describes s.world J := by
  intro hall
  obtain ⟨I, hI⟩ := (build_ok oneTree validateIndexOptions_default).2 (by decide)
  obtain ⟨-, -, hinfos, hopt, he, hroot, -⟩ := build_built hI
  have hI' := build_stored hI
  obtain ⟨dir, hs⟩ : ∃ dir, Pergrep.save (onlyTree plainTree) [49] (fun _ => none) { name := [105] } I = .ok dir :=
    ⟨_, save_eq hI' he _ _ _ _⟩
  obtain ⟨h1, h2⟩ := limits_of_small hI (by decide) (by decide) (by decide) (by decide) (by decide) (by decide +kernel)
  have hcontents : ∃ l, contentsOf (onlyTree plainTree) I = .ok l := by
    rw [contentsOf, hopt, if_neg (by decide), hroot, hinfos]
    exact ⟨[[120]], rfl⟩
  have hidentity : sourceIdentity (onlyTree plainTree) I.root I.opt ≠ 0 := by
    rw [hroot, hopt]
    decide +kernel
  have hload := (load_saved hI' he hs).2 ⟨⟨rfl, h1, h2, Or.inr ⟨hidentity, rfl⟩, hcontents⟩, rfl⟩
  obtain ⟨l, hl⟩ := hcontents
  obtain ⟨-, -, hroot', hopt', hinfos'⟩ := restored_stored hI' hl
  have hrun : Run (step []) (fun _ _ => True) { world := onlyTree oneTree } _ :=
    Run.cons (.build 0 [] {}) trivial (step_build (onlyTree_root oneTree) hI 0)
      (Run.cons (.edit (onlyTree plainTree)) trivial rfl
        (Run.cons (.save 0 [49] [105]) trivial (step_save rfl hs) (Run.refl _)))
  obtain ⟨t, ht, hlist⟩ := hall [] _ _ ⟨fun _ => rfl, fun _ => rfl⟩ hrun [105] _ hload (by rw [hopt', hopt])
    (fun w hw _ _ => by cases hw; rfl)
  obtain rfl : plainTree = t := by
    rw [hroot', hroot] at ht
    exact Option.some.inj ht
  rw [hinfos', hinfos, hopt', hopt] at hlist
  exact absurd hlist (by decide)

end Lifecycle
end Pergrep
