import Pergrep.Index.Chunks
import Pergrep.Index.Tree
/-!
# Fresh — `Index::build` and `Index::fresh`

`build` puts what it finds in the order of `std::filesystem::path`, name by name; `fresh` walks again, puts the paths in
the order of their bytes and compares place by place.  The orders differ when two paths clash (`PathOrder.Clash`), and
then the index of a tree is not fresh on that very tree (`fresh_exact_iff`).
-/
namespace Pergrep

open PathOrder (Clash)
open Throw (bind_ok)

/-! ## `build` -/

def sourceInfo (f : Found) : FileInfo :=
  { path := f.path, size := f.state.content.length, mtimeNs := f.state.mtimeNs, binary := looksBinary f.state.content }

def byNames (fs : List Found) : List Found := fs.insertionSort (fun a b => ¬ b.names < a.names)

/-- The files `build` indexes, in order; one it cannot open is passed over. -/
def sources (t : Tree) (opt : IndexOptions) : List Found := (byNames (walk t opt)).filter (fun f => f.state.readable)

def build (t : Tree) (opt : IndexOptions) : Except String IndexData := do
  validateIndexOptions opt
  let I ← (sources t opt).foldlM (fun I f => pushFile I (sourceInfo f) f.state.content)
    { opt := opt, posBlock := opt.positionalBlockBytes, root := t.root, rootMtimeNs := t.rootMtimeNs }
  return materializeIndexFilters I

/-- **An index built from a tree**: its files are the tree's, in the order of their names. -/
theorem build_built {t : Tree} {opt : IndexOptions} {I : IndexData} (h : build t opt = .ok I) :
    Built I ∧ I.loaded = (sources t opt).map (fun f => f.state.content) ∧ I.infos = (sources t opt).map sourceInfo ∧
      I.opt = opt ∧ I.ephemeral = false ∧ I.root = t.root ∧ I.posBlock = opt.positionalBlockBytes := by
  obtain ⟨u, hv, h⟩ := bind_ok h
  obtain ⟨J, hJ, h⟩ := bind_ok h
  obtain rfl : materializeIndexFilters J = I := Except.ok.inj h
  have hJ' : ((sources t opt).map (fun f => (sourceInfo f, f.state.content))).foldlM (fun I f => pushFile I f.1 f.2)
      { opt := opt, posBlock := opt.positionalBlockBytes, root := t.root, rootMtimeNs := t.rootMtimeNs } = .ok J := by
    rw [List.foldlM_map]
    exact hJ
  obtain ⟨h1, h2, h3, h4, -, h5, h6⟩ := foldlM_pushFile _ hJ'
  rw [List.map_map] at h1 h2
  obtain ⟨⟨p1, -⟩, ⟨p2, -⟩, -⟩ := validateIndexOptions_ok hv
  obtain ⟨hb, e1, e2, e3⟩ := materializeIndexFilters_built (I := J) (by rw [h3]; exact Nat.lt_of_lt_of_le (by decide) p1)
    (by rw [h4]; exact Nat.lt_of_lt_of_le (by decide) p2)
    (by rw [h1, h2]; simp)
  obtain ⟨-, e4, e5, e6⟩ := materializeIndexFilters_frame J
  exact ⟨hb, by rw [e1, h1]; rfl, by rw [e2, h2]; rfl, by rw [e3, h3], by rw [e4, h5], by rw [e5, h6], by rw [e6, h4]⟩

/-- **A tree is indexed unless its files are too big together.** -/
theorem build_ok (t : Tree) {opt : IndexOptions} (hv : validateIndexOptions opt = .ok ()) :
    (∃ I, build t opt = .ok I) ↔ ((sources t opt).map (fun f => f.state.content.length)).sum ≤ maxCorpusBytes := by
  have hok := foldlM_pushFile_ok ((sources t opt).map (fun f => (sourceInfo f, f.state.content)))
    (show ({ opt := opt, posBlock := opt.positionalBlockBytes, root := t.root, rootMtimeNs := t.rootMtimeNs } :
      IndexData).corpBytes ≤ _ from Nat.zero_le _)
  rw [List.foldlM_map, List.map_map] at hok
  refine Iff.trans ?_ (hok.trans (by rw [Nat.zero_add]; rfl))
  rw [build, hv]
  constructor
  · rintro ⟨I, h⟩
    obtain ⟨J, hJ, -⟩ := bind_ok (x := (sources t opt).foldlM _ _) h
    exact ⟨J, hJ⟩
  · rintro ⟨J, hJ⟩
    exact ⟨materializeIndexFilters J, by rw [hJ]; rfl⟩

theorem byNames_perm (fs : List Found) : (byNames fs).Perm fs := List.perm_insertionSort _ _

theorem byNames_sorted (fs : List Found) : ((byNames fs).map Found.names).Pairwise (· ≤ ·) :=
  PathOrder.insertionSort_key_sorted Found.names fs

/-! ## `fresh` -/

def fresh (I : IndexData) (t : Tree) : Bool :=
  if I.ephemeral then false
  else
    let current := ((walk t I.opt).map Found.path).insertionSort (fun a b => ¬ b < a)
    if current.length ≠ I.infos.length then false
    else
      (current.zip I.infos).all (fun c =>
        c.1 == c.2.path && (stat t c.2.path).map (fun s => s.content.length) == some c.2.size &&
          ((stat t c.2.path).map FileState.mtimeNs).getD 0 == c.2.mtimeNs)

def Found.entry (f : Found) : Bytes × Nat × Int64 := (f.path, f.state.content.length, f.state.mtimeNs)

/-- The indexable files of a tree, as the identity of a source goes: path, size and time. -/
def listing (t : Tree) (opt : IndexOptions) : List (Bytes × Nat × Int64) := (walk t opt).map Found.entry

def byPathBytes (fs : List Found) : List Found := fs.insertionSort (fun a b => ¬ b.path < a.path)

theorem byPathBytes_perm (fs : List Found) : (byPathBytes fs).Perm fs := List.perm_insertionSort _ _

theorem byPathBytes_sorted (fs : List Found) : ((byPathBytes fs).map Found.path).Pairwise (· ≤ ·) :=
  PathOrder.insertionSort_key_sorted Found.path fs

/-- **Place by place**, the comparison is that of paths, sizes and times. -/
theorem compare_iff {t : Tree} : ∀ {fs : List Found} {infos : List FileInfo},
    (∀ f ∈ fs, stat t f.path = some f.state) →
      ((fs.map Found.path).length = infos.length ∧ ((fs.map Found.path).zip infos).all (fun c =>
        c.1 == c.2.path && (stat t c.2.path).map (fun s => s.content.length) == some c.2.size &&
          ((stat t c.2.path).map FileState.mtimeNs).getD 0 == c.2.mtimeNs) = true ↔
        fs.map Found.entry = infos.map (fun i => (i.path, i.size, i.mtimeNs)))
  | [], [], _ => by simp
  | [], _ :: _, _ => by simp
  | _ :: _, [], _ => by simp
  | f :: fs, i :: infos, h => by
    have ih := @compare_iff t fs infos (fun g hg => h g (List.mem_cons_of_mem _ hg))
    have hf := h f List.mem_cons_self
    rw [List.map_cons, List.map_cons, List.map_cons, List.cons.injEq, List.zip_cons_cons, List.all_cons, List.length_cons,
      List.length_cons, Nat.add_right_cancel_iff, Bool.and_eq_true, ← ih, Found.entry, Prod.mk.injEq, Prod.mk.injEq]
    by_cases hp : f.path = i.path
    · rw [← hp, hf]
      simp only [beq_self_eq_true, Bool.true_and, Option.map_some, Option.getD_some, Bool.and_eq_true, beq_iff_eq,
        Option.some.injEq, true_and]
      tauto
    · simp [hp]

theorem fresh_iff {I : IndexData} (he : I.ephemeral = false) (t : Tree) : fresh I t = true ↔
    (byPathBytes (walk t I.opt)).map Found.entry = I.infos.map (fun i => (i.path, i.size, i.mtimeNs)) := by
  have hsort : ((walk t I.opt).map Found.path).insertionSort (fun a b => ¬ b < a) =
      (byPathBytes (walk t I.opt)).map Found.path :=
    (List.map_insertionSort _ _ Found.path _ (fun a _ b _ => Iff.rfl)).symm
  rw [← compare_iff (t := t) (fun f hf => stat_of_mem_walk t I.opt ((byPathBytes_perm _).mem_iff.1 hf)), fresh, he, hsort]
  simp only [Bool.false_eq_true, if_false]
  split
  · rename_i hlen
    exact iff_of_false (by simp) (fun h => hlen h.1)
  · rename_i hlen
    exact ⟨fun h => ⟨not_not.1 hlen, h⟩, fun h => h.2⟩

/-! ## When an index is fresh -/

/-- **The contract of `fresh`** for an index of a tree: as long as the tree has the same files it is fresh, and when a
path, a size or a time differs it is not. -/
structure FreshExact (I : IndexData) (t : Tree) (opt : IndexOptions) : Prop where
  unchanged : ∀ t' : Tree, (walk t' opt).Perm (walk t opt) → fresh I t' = true
  changed : ∀ t' : Tree, ¬ (∀ x, x ∈ listing t' opt ↔ x ∈ listing t opt) → fresh I t' = false

theorem mem_sources {t : Tree} {opt : IndexOptions} {f : Found} :
    f ∈ sources t opt ↔ f ∈ walk t opt ∧ f.state.readable = true := by
  rw [sources, List.mem_filter, (byNames_perm _).mem_iff]

theorem sorted_sources_iff (t : Tree) (opt : IndexOptions) : ((sources t opt).map Found.path).Pairwise (· ≤ ·) ↔
    ∀ f ∈ sources t opt, ∀ g ∈ sources t opt, ¬ Clash slash f.names g.names := by
  have hsub : ((sources t opt).map Found.names).Sublist ((byNames (walk t opt)).map Found.names) :=
    List.filter_sublist.map _
  have h := @PathOrder.sorted_join_iff _ _ _ _ _ slash ((sources t opt).map Found.names)
    (fun p hp => by
      obtain ⟨f, hf, rfl⟩ := List.mem_map.1 hp
      exact (walk_names_ok t opt (mem_sources.1 hf).1).2)
    ((((byNames_perm _).map Found.names).nodup_iff.2 (walk_nodup t opt)).sublist hsub)
    ((byNames_sorted _).sublist hsub)
  rw [List.map_map] at h
  refine h.trans ⟨fun hc f hf g hg => ?_, fun hc p hp q hq => ?_⟩
  · exact hc _ (List.mem_map_of_mem hf) _ (List.mem_map_of_mem hg)
  · obtain ⟨f, hf, rfl⟩ := List.mem_map.1 hp
    obtain ⟨g, hg, rfl⟩ := List.mem_map.1 hq
    exact hc f hf g hg

theorem eq_of_sorted {t : Tree} {opt : IndexOptions} {fs gs : List Found} (hf : fs.Perm (walk t opt))
    (hg : gs.Perm (walk t opt)) (hfs : (fs.map Found.path).Pairwise (· ≤ ·)) (hgs : (gs.map Found.path).Pairwise (· ≤ ·)) :
    fs = gs := by
  refine List.Perm.eq_of_pairwise (fun a b ha hb hab hba => ?_) (List.pairwise_map.1 hfs) (List.pairwise_map.1 hgs)
    (hf.trans hg.symm)
  have ha' := hf.mem_iff.1 ha
  have hb' := hg.mem_iff.1 hb
  exact List.inj_on_of_nodup_map (walk_nodup t opt) ha' hb' (path_injOn t opt ha' hb' (Std.le_antisymm hab hba))

/-- **`fresh` is exact on the indexes of the trees whose paths do not clash**, and on no other. -/
theorem fresh_exact_iff {t : Tree} {opt : IndexOptions} {I : IndexData} (h : build t opt = .ok I)
    (hread : ∀ f ∈ walk t opt, f.state.readable = true) :
    FreshExact I t opt ↔ ∀ f ∈ walk t opt, ∀ g ∈ walk t opt, ¬ Clash slash f.names g.names := by
  obtain ⟨-, -, hinfos, hopt, he, -⟩ := build_built h
  have hmem : ∀ f, f ∈ sources t opt ↔ f ∈ walk t opt := fun f =>
    mem_sources.trans ⟨fun h => h.1, fun h => ⟨h, hread f h⟩⟩
  have hperm : (sources t opt).Perm (walk t opt) := by
    rw [sources, List.filter_eq_self.2 (fun f hf => hread f ((byNames_perm _).mem_iff.1 hf))]
    exact byNames_perm _
  have hfresh : ∀ t', fresh I t' = true ↔
      (byPathBytes (walk t' opt)).map Found.entry = (sources t opt).map Found.entry := fun t' => by
    rw [fresh_iff he, hopt, hinfos, List.map_map]
    rfl
  simp only [← hmem]
  rw [← sorted_sources_iff]
  constructor
  · intro hex
    have heq := congrArg (List.map Prod.fst) ((hfresh t).1 (hex.unchanged t (List.Perm.refl _)))
    rw [List.map_map, List.map_map] at heq
    have hpath : (sources t opt).map Found.path = (byPathBytes (walk t opt)).map Found.path := heq.symm
    rw [hpath]
    exact byPathBytes_sorted _
  · intro hsorted
    constructor
    · intro t' ht'
      rw [hfresh t', eq_of_sorted ((byPathBytes_perm _).trans ht') hperm (byPathBytes_sorted _) hsorted]
    · intro t' hne
      refine Bool.eq_false_iff.2 (fun htrue => hne (fun x => ?_))
      have h1 := ((byPathBytes_perm (walk t' opt)).map Found.entry).mem_iff (a := x)
      have h2 := (hperm.map Found.entry).mem_iff (a := x)
      rw [(hfresh t').1 htrue] at h1
      exact h1.symm.trans h2

def plainTree : Tree where
  dirs := [[⟨[97], false, .file ⟨[120], 1, true⟩⟩, ⟨[98], false, .file ⟨[121], 2, true⟩⟩]]
  names_ok := by decide
  names_nodup := by decide

/-- A file `ab` beside a directory `a` with the files `b` and `c`. -/
def nestedTree : Tree where
  dirs := [[⟨[97, 98], false, .file ⟨[120], 1, true⟩⟩, ⟨[97], false, .dir 1⟩],
    [⟨[98], false, .file ⟨[121], 2, true⟩⟩, ⟨[99], false, .file ⟨[122], 3, true⟩⟩]]
  names_ok := by decide
  names_nodup := by decide

theorem fresh_exact_nested : ∃ I, build nestedTree {} = .ok I ∧ FreshExact I nestedTree {} := by
  obtain ⟨I, hI⟩ := (build_ok nestedTree validateIndexOptions_default).2 (by decide)
  have hread : ∀ f ∈ walk nestedTree {}, f.state.readable = true := by decide
  refine ⟨I, hI, (fresh_exact_iff hI hread).2 (fun f hf g hg => ?_)⟩
  exact (sorted_sources_iff nestedTree {}).1 (by decide) f (mem_sources.2 ⟨hf, hread f hf⟩) g
    (mem_sources.2 ⟨hg, hread g hg⟩)

def clashTree : Tree where
  dirs := [[⟨[97, 45, 98], false, .file ⟨[120], 1, true⟩⟩, ⟨[97], false, .dir 1⟩], [⟨[98], false, .file ⟨[121], 2, true⟩⟩]]
  names_ok := by decide
  names_nodup := by decide

/-- `build` puts `a/b` before `a-b`, `fresh` after it. -/
theorem not_fresh_exact_clash : ¬ ∀ (t : Tree) (opt : IndexOptions) (I : IndexData), build t opt = .ok I →
    (∀ f ∈ walk t opt, f.state.readable = true) → FreshExact I t opt := by
  intro h
  obtain ⟨I, hI⟩ := (build_ok clashTree validateIndexOptions_default).2 (by decide)
  obtain ⟨-, -, hinfos, hopt, he, -⟩ := build_built hI
  have hfresh := (h clashTree {} I hI (by decide)).unchanged clashTree (List.Perm.refl _)
  rw [fresh_iff he, hopt, hinfos] at hfresh
  exact absurd hfresh (by decide)

end Pergrep
