import Mathlib.Data.List.TakeWhile
import Pergrep.Index.Identity
import Pergrep.Index.RoundTrip
/-!
# Reload — build, save and load over one tree

Over a tree that did not change a source-backed snapshot finds every file it lists as it was (`contentsOf_unchanged`), so
whether a saved index loads is a matter of the loader's own limits, of the target's name and of the identity of the source
(`roundTrip_iff`).
-/
namespace Pergrep

open Reader
open PathOrder (IsName join)

def Tree.Posix (t : Tree) : Prop := ∀ es ∈ t.dirs, ∀ e ∈ es, (0 : UInt8) ∉ e.name ∧ e.name ≠ [46] ∧ e.name ≠ [46, 46]

/-! ## The files of an unchanged tree -/

theorem statFrom_names {t : Tree} : ∀ {ns : List Bytes} {d : Nat} {s : FileState}, statFrom t d ns = some s →
    ∀ n ∈ ns, ∃ es ∈ t.dirs, ∃ e ∈ es, e.name = n
  | [], _, _, _ => by simp
  | n :: ns, d, s, h => by
    rw [statFrom] at h
    cases hf : (t.entries d).find? (fun e => e.name == n) with
    | none =>
      rw [hf] at h
      cases h
    | some e =>
      have hname : e.name = n := by simpa using List.find?_some hf
      have hmem : e ∈ t.entries d := List.mem_of_find?_eq_some hf
      have hentry : ∃ es ∈ t.dirs, ∃ e ∈ es, e.name = n := by
        unfold Tree.entries at hmem
        rw [List.getD_eq_getElem?_getD] at hmem
        cases hd : t.dirs[d]? with
        | none =>
          rw [hd] at hmem
          cases hmem
        | some es =>
          rw [hd] at hmem
          exact ⟨es, List.mem_of_getElem? hd, e, hmem, hname⟩
      refine List.forall_mem_cons.2 ⟨hentry, ?_⟩
      rw [hf] at h
      dsimp only at h
      split at h
      · simp
      · exact statFrom_names h
      · cases h

theorem mem_join {sep x : UInt8} : ∀ {ns : List Bytes}, x ∈ join sep ns → x = sep ∨ ∃ n ∈ ns, x ∈ n
  | [], h => by cases h
  | [n], h => Or.inr ⟨n, List.mem_singleton_self n, by simpa [join] using h⟩
  | n :: m :: ns, h => by
    rcases List.mem_append.1 h with h | h
    · exact Or.inr ⟨n, List.mem_cons_self, h⟩
    rcases List.mem_cons.1 h with rfl | h
    · exact Or.inl rfl
    · rcases mem_join h with h | ⟨k, hk, hx⟩
      · exact Or.inl h
      · exact Or.inr ⟨k, List.mem_cons_of_mem n hk, hx⟩

section
variable {t : Tree} (hposix : t.Posix) (opt : IndexOptions)
include hposix

/-- **What a walk found the system finds by its path.** -/
theorem resolve_of_mem_walk {f : Found} (hf : f ∈ walk t opt) : resolve t f.path = some f.state := by
  obtain ⟨hne, hok⟩ := walk_names_ok t opt hf
  have hstat := stat_of_mem_walk t opt hf
  have hsplit : f.path.splitOn slash = f.names := PathOrder.splitOn_join hne hok
  rw [stat, hsplit] at hstat
  have hnames : ∀ n ∈ f.names, (0 : UInt8) ∉ n ∧ n ≠ [46] := fun n hn => by
    obtain ⟨es, hes, e, he, rfl⟩ := statFrom_names hstat n hn
    exact ⟨(hposix es hes e he).1, (hposix es hes e he).2.1⟩
  have hzero : f.path.takeWhile (· != 0) = f.path := by
    refine List.takeWhile_eq_self_iff.2 (fun x hx => ?_)
    rw [bne_iff_ne]
    rintro rfl
    rcases mem_join hx with h | ⟨n, hn, h0⟩
    · exact absurd h (by decide)
    · exact (hnames n hn).1 h0
  have hlast : ¬ (f.names.getLast? = some [] ∨ f.names.getLast? = some [46]) := by
    rintro (h | h)
    · exact (hok _ (List.mem_of_getLast? h)).1 rfl
    · exact (hnames _ (List.mem_of_getLast? h)).2 rfl
  have hfilter : f.names.filter (fun n => n != [] && n != [46]) = f.names := by
    refine List.filter_eq_self.2 (fun n hn => ?_)
    rw [Bool.and_eq_true, bne_iff_ne, bne_iff_ne]
    exact ⟨(hok n hn).1, (hnames n hn).2⟩
  unfold resolve
  rw [hzero, hsplit]
  dsimp only
  rw [if_neg hlast, hfilter]
  exact hstat

/-- **The source of an index is read back as it was.** -/
theorem mapSources_unchanged {world : World} (hworld : world t.root = some t) : ∀ fs : List Found,
    (∀ f ∈ fs, f ∈ walk t opt ∧ f.state.readable = true) →
      mapSources world t.root (fs.map sourceInfo) = .ok (fs.map (fun f => f.state.content))
  | [], _ => rfl
  | f :: fs, h => by
    obtain ⟨hf, hread⟩ := h f List.mem_cons_self
    have hrest := mapSources_unchanged hworld fs (fun g hg => h g (List.mem_cons_of_mem f hg))
    have hmapped : mapped (t.root ++ slash :: f.path) ((world t.root).bind (fun t => resolve t f.path))
        f.state.content.length f.state.mtimeNs = .ok f.state.content := by
      rw [hworld, Option.bind_some, resolve_of_mem_walk hposix opt hf]
      unfold mapped
      dsimp only
      rw [if_neg (not_not.2 rfl), if_neg (fun h => h.2 rfl)]
      split
      · rename_i hz
        rw [List.length_eq_zero_iff.1 hz]
      · rfl
    unfold mapSources at hrest ⊢
    rw [List.map_cons, List.mapM_cons]
    change (do let s ← mapped _ _ f.state.content.length f.state.mtimeNs; _) = _
    rw [show (sourceInfo f).path = f.path from rfl, hmapped, hrest]
    rfl

theorem contentsOf_unchanged {I : IndexData} (h : build t opt = .ok I) {world : World} (hworld : world t.root = some t) :
    contentsOf world I = .ok I.loaded := by
  obtain ⟨-, hloaded, hinfos, -, -, hroot, -⟩ := build_built h
  unfold contentsOf
  split
  · rfl
  · rw [hroot, hinfos, hloaded]
    exact mapSources_unchanged hposix opt hworld _ (fun f hf => mem_sources.1 hf)

end

/-! ## The round trip -/

theorem checkPayloadTotal_pass : ∀ (ss : List Bytes) {total : Nat}, total + (ss.map List.length).sum ≤ maxCorpusBytes →
    checkPayloadTotal ss total = .ok ()
  | [], _, _ => rfl
  | s :: ss, total, h => by
    rw [List.map_cons, List.sum_cons] at h
    rw [checkPayloadTotal, if_neg (by omega), checkPayloadTotal_pass ss (by omega)]

def saved (world : World) (pid : Bytes) (dir : Dir) (file : Place) (I : IndexData) (requested : CacheManifest) : Dir :=
  let body := snapshotBody (manifestOf world I requested) I
  Function.update (Function.update dir (file.name ++ tempPattern ++ pid) none) file.name (some (body ++ trailer body))

/-- **A built index is saved** with any manifest that `save` has nothing against: no limit of the loader stops it. -/
theorem save_iff {I : IndexData} (hI : Stored I) (he : I.ephemeral = false) {world : World} {pid : Bytes} {dir dir' : Dir}
    {file : Place} {requested : CacheManifest} : save world pid dir file I requested = .ok dir' ↔
      Savable requested I ∧ dir' = saved world pid dir file I requested := by
  have hpayload : checkPayload I = .ok () := by
    rw [checkPayload, if_neg (not_not.2 hI.length_eq.symm)]
    exact checkPayloadTotal_pass _ (by rw [Nat.zero_add, hI.total]; exact hI.corpus)
  have hschema : requested.schemaVersion.any (· != manifestSchema) = true ↔
      ¬ ∀ v ∈ requested.schemaVersion, v = manifestSchema := by
    cases requested.schemaVersion <;> simp
  have hoptions : requested.indexOptions.any (fun o => !sameOptions o I.opt) = true ↔
      ¬ ∀ o ∈ requested.indexOptions, sameOptions o I.opt = true := by
    cases requested.indexOptions <;> simp
  have hsave : save world pid dir file I requested = (do
      if requested.schemaVersion.any (· != manifestSchema) = true then
        throw ({ text := "unsupported cache manifest schema" } : Thrown)
      if requested.indexOptions.any (fun o => !sameOptions o I.opt) = true then
        throw ({ text := "cache manifest index options do not match index" } : Thrown)
      return saved world pid dir file I requested) := by
    unfold save
    rw [he, if_neg (by decide), if_neg (Nat.not_lt.2 hI.corpus), hpayload]
    cases I.opt.persistCorpus with
    | true  => rfl
    | false => rfl
  rw [hsave]
  by_cases h1 : ∀ v ∈ requested.schemaVersion, v = manifestSchema
  · rw [if_neg (fun h => hschema.1 h h1)]
    by_cases h2 : ∀ o ∈ requested.indexOptions, sameOptions o I.opt = true
    · rw [if_neg (fun h => hoptions.1 h h2)]
      exact ⟨fun h => ⟨⟨h1, h2⟩, (Except.ok.inj h).symm⟩, fun h => congrArg Except.ok h.2.symm⟩
    · rw [if_pos (hoptions.2 h2)]
      exact iff_of_false (fun h => by cases h) (fun h => h2 h.1.indexOptions)
  · rw [if_pos (hschema.2 h1)]
    exact iff_of_false (fun h => by cases h) (fun h => h1 h.1.schemaVersion)

theorem save_eq {I : IndexData} (hI : Stored I) (he : I.ephemeral = false) (world : World) (pid : Bytes) (dir : Dir)
    (file : Place) : save world pid dir file I = .ok (saved world pid dir file I {}) :=
  (save_iff hI he).2 ⟨.unset I, rfl⟩

/-- The index read back is the one that was saved. -/
structure SameIndex (I J : IndexData) : Prop where
  root : J.root = I.root
  opt : J.opt = I.opt
  infos : J.infos = I.infos
  chunks : J.chunks = I.chunks
  groups : J.groups = I.groups
  posDesc : J.posDesc = I.posDesc
  pos : J.pos = I.pos
  byteFreq : J.byteFreq = I.byteFreq
  qgramFreq : J.qgramFreq = I.qgramFreq
  loaded : J.loaded = I.loaded

theorem restored_same {world : World} {I : IndexData} (h : contentsOf world I = .ok I.loaded) : SameIndex I (restored world I) := by
  unfold restored
  rw [h]
  obtain ⟨e, f, g, r, hstats⟩ := rebuildPlannerStats_frame { I.header with
    byteFreq := I.byteFreq, qgramFreq := I.qgramFreq, posBlock := I.posBlock, infos := I.infos, chunks := I.chunks
    groups := I.groups, posDesc := I.posDesc, pos := I.pos, loaded := (Except.ok (ε := Thrown) I.loaded).toOption.getD [] }
  rw [hstats]
  exact ⟨rfl, rfl, rfl, rfl, rfl, rfl, rfl, rfl, rfl, rfl⟩

/-- **A built index is read back as one**: its tables are those of its texts. -/
theorem restored_built {world : World} {I : IndexData} (hI : Built I) (h : contentsOf world I = .ok I.loaded) :
    Built (restored world I) := by
  have hsame := restored_same h
  have hblock : (restored world I).posBlock = I.posBlock := by
    unfold restored
    obtain ⟨e, f, g, r, hstats⟩ := rebuildPlannerStats_frame { I.header with
      byteFreq := I.byteFreq, qgramFreq := I.qgramFreq, posBlock := I.posBlock, infos := I.infos, chunks := I.chunks
      groups := I.groups, posDesc := I.posDesc, pos := I.pos, loaded := (contentsOf world I).toOption.getD [] }
    rw [hstats]
  have hdescs : posDescs (restored world I) 0 (restored world I).chunks = posDescs I 0 I.chunks := by
    rw [hsame.chunks, posDescs_congr hsame.opt hblock]
  constructor
  · rw [hsame.opt]
    exact hI.chunkBytes_pos
  · rw [hblock]
    exact hI.posBlock_pos
  · rw [hsame.infos, hsame.loaded]
    exact hI.infos_length
  · rw [hsame.chunks, hsame.opt, hsame.loaded]
    exact hI.chunks_eq
  · rw [hsame.groups, buildGroups_congr hsame.chunks hsame.loaded]
    exact hI.groups_eq
  · rw [hsame.posDesc, hdescs]
    exact hI.posDesc_eq
  · rw [hsame.pos, hdescs, hsame.posDesc, buildPos_congr hsame.chunks hsame.loaded hblock]
    exact hI.pos_eq

/-- **When a saved index can be loaded**, over an unchanged tree. -/
structure Loadable (world : World) (file : Place) (I : IndexData) : Prop where
  name : file.orphan file.name = false
  size : snapshotSize I ≤ maxSnapshotBytes
  limits : WithinLimits I
  source : I.opt.persistCorpus = true ∨ sourceIdentity world I.root I.opt ≠ 0

/-- **A saved file is read back** unless its name is one of those the loader cleans away. -/
theorem loadImpl_saved {world world' : World} {pid : Bytes} {dir : Dir} {file : Place} {I J : IndexData}
    {requested expected : CacheManifest} {aware : Bool} :
    loadImpl world' (saved world pid dir file I requested) file expected aware = .ok J ↔
      file.orphan file.name = false ∧ loadSnapshot world' expected aware (snapshotBody (manifestOf world I requested) I ++
        trailer (snapshotBody (manifestOf world I requested) I)) = .ok J := by
  unfold loadImpl cleanupOrphans saved
  cases file.orphan file.name with
  | true  =>
    -- the loader deletes the target before it reads it
    exact iff_of_false (fun h => by cases h) (fun h => by cases h.1)
  | false =>
    rw [if_neg (by decide), Function.update_self]
    exact (and_iff_right rfl).symm

theorem load_saved {I : IndexData} (hI : Stored I) (he : I.ephemeral = false) {world world' : World} {pid : Bytes}
    {dir dir' : Dir} {file : Place} (hs : save world pid dir file I = .ok dir') {J : IndexData} :
    load world' dir' file = .ok J ↔ (file.orphan file.name = false ∧ snapshotSize I ≤ maxSnapshotBytes ∧ WithinLimits I ∧
      SameSource world world' I ∧ ∃ l, contentsOf world' I = .ok l) ∧ J = restored world' I := by
  rw [save_eq hI he] at hs
  obtain rfl := Except.ok.inj hs
  unfold load
  rw [loadImpl_saved, loadSnapshot_saved hI]
  exact and_assoc.symm

section
variable {t : Tree} {opt : IndexOptions} {I : IndexData} (h : build t opt = .ok I)
include h

theorem groups_size : ∀ g ∈ I.groups, g.gids.length ≤ I.chunks.length ∧
    g.bits.length ≤ 2 ^ 16 * ((I.chunks.length + 63) / 64) := by
  rw [(build_built h).1.groups_map]
  intro g hg
  obtain ⟨k, hk, rfl⟩ := List.mem_map.1 hg
  exact groupOf_size I (List.mem_range.1 hk)

end

def onlyTree (t : Tree) : World := fun root => if root = t.root then some t else none

theorem onlyTree_root (t : Tree) : onlyTree t t.root = some t :=
  if_pos rfl

/-- **A small tree keeps the limits.** -/
theorem limits_of_small {t : Tree} {opt : IndexOptions} {I : IndexData} (h : build t opt = .ok I)
    (hfinite : opt.positionalBudgetRatio.isFinite = true) (hroot : t.root.length ≤ 1000)
    (hfiles : (sources t opt).length ≤ 1000)
    (hpaths : ∀ f ∈ sources t opt, f.path.length ≤ 1000 ∧ unsafeFileInfoPath f.path = false)
    (hchunks : (chunksFrom opt 0 ((sources t opt).map (fun f => f.state.content))).length ≤ 1000)
    (hpos : (posDescs { opt := opt, posBlock := opt.positionalBlockBytes } 0
      (chunksFrom opt 0 ((sources t opt).map (fun f => f.state.content)))).2 ≤ 100000) :
    snapshotSize I ≤ maxSnapshotBytes ∧ WithinLimits I := by
  obtain ⟨hbuilt, hloaded, hinfos, hopt, -, hr, hblock⟩ := build_built h
  have hI := build_stored h
  have hlen : I.infos.length ≤ 1000 := by rwa [hinfos, List.length_map]
  have hpath : ∀ f ∈ I.infos, f.path.length ≤ 1000 ∧ unsafeFileInfoPath f.path = false := fun f hf => by
    rw [hinfos] at hf
    obtain ⟨g, hg, rfl⟩ := List.mem_map.1 hf
    exact hpaths g hg
  have hchunks' : I.chunks.length ≤ 1000 := by rwa [hbuilt.chunks_eq, hloaded, hopt]
  have hpos' : I.pos.length ≤ 100000 := by
    rwa [hbuilt.pos_length, posDescs_congr (J := { opt := opt, posBlock := opt.positionalBlockBytes }) hopt hblock,
      hbuilt.chunks_eq, hloaded, hopt]
  have hgroup : ∀ g ∈ I.groups, g.gids.length ≤ 1000 ∧ g.bits.length ≤ 1048576 := fun g hg => by
    have := groups_size h g hg
    omega
  have hsum : ∀ l : List Nat, ∀ n, (∀ x ∈ l, x ≤ n) → l.sum ≤ l.length * n := fun l n hl => List.sum_le_card_nsmul l n hl
  have hinfoSum := hsum (I.infos.map (fun f => 25 + f.path.length)) 1025 (fun x hx => by
    obtain ⟨f, hf, rfl⟩ := List.mem_map.1 hx
    have := hpath f hf
    omega)
  have hgroupSum := hsum (I.groups.map (fun g => 25 + 4 * g.gids.length + 8 * g.bits.length)) 8392633 (fun x hx => by
    obtain ⟨g, hg, rfl⟩ := List.mem_map.1 hx
    have := hgroup g hg
    omega)
  have hpayload : ∀ ss : List Bytes, (ss.map (fun s => 8 + s.length)).sum = 8 * ss.length + (ss.map List.length).sum :=
    fun ss => by
      induction ss with
      | nil => rfl
      | cons s ss ih =>
        simp only [List.map_cons, List.sum_cons, List.length_cons, ih]
        omega
  rw [List.length_map] at hinfoSum hgroupSum
  have hgroups := hI.groups_length
  have hdescs := hI.posDesc_length
  have hlength := hI.length_eq
  have hcorpus := hI.corpus
  have hmaxCorpus : maxCorpusBytes = 2 ^ 30 := rfl
  have hmaxString : maxString = 2 ^ 24 := rfl
  have hmaxFiles : maxFiles = 10000000 := rfl
  have hmaxChunks : maxChunks = 100000000 := rfl
  have hmaxElems : maxVectorElems = 200000000 := rfl
  have hmax : maxSnapshotBytes = 2 ^ 30 + 2 ^ 28 := rfl
  have hroot' : I.root.length ≤ 1000 := by rwa [hr]
  refine ⟨?_, by rwa [hopt], by omega, by omega, fun f hf => ?_, by omega, fun g hg => ?_, by omega⟩
  · rw [snapshotSize, hpayload, hI.total]
    have hif : (if I.opt.persistCorpus = true then 8 * I.loaded.length + I.corpBytes else 0) ≤
        8 * I.loaded.length + I.corpBytes := by
      split
      · exact Nat.le_refl _
      · exact Nat.zero_le _
    omega
  · have := hpath f hf
    exact ⟨by omega, this.2⟩
  · have := hgroup g hg
    omega

/-- **What is loaded over the tree it was built from** is a built index. -/
theorem load_built {t : Tree} (hposix : t.Posix) {opt : IndexOptions} {I J : IndexData} (h : build t opt = .ok I)
    {world : World} (hworld : world t.root = some t) {pid : Bytes} {dir dir' : Dir} {file : Place}
    (hs : save world pid dir file I = .ok dir') (hJ : load world dir' file = .ok J) : Built J := by
  obtain ⟨-, rfl⟩ := (load_saved (build_stored h) (build_built h).2.2.2.2.1 hs).1 hJ
  exact restored_built (build_built h).1 (contentsOf_unchanged hposix opt h hworld)

theorem plain_loadable {I : IndexData} (h : build plainTree { persistCorpus := true } = .ok I) :
    Loadable (onlyTree plainTree) { name := [105] } I := by
  obtain ⟨h1, h2⟩ := limits_of_small h (by decide) (by decide) (by decide) (by decide) (by decide) (by decide +kernel)
  exact ⟨rfl, h1, h2, Or.inl (by rw [(build_built h).2.2.2.1])⟩

/-- **Build, save and load give the index back** exactly when the loader's limits are kept, the target is not one the loader
deletes and the source of a source-backed snapshot has an identity. -/
theorem roundTrip_iff {t : Tree} (hposix : t.Posix) {opt : IndexOptions} {I : IndexData} (h : build t opt = .ok I)
    {world : World} (hworld : world t.root = some t) {pid : Bytes} {dir dir' : Dir} {file : Place}
    (hs : save world pid dir file I = .ok dir') :
    (∃ J, load world dir' file = .ok J ∧ SameIndex I J) ↔ Loadable world file I := by
  have hI := build_stored h
  have he : I.ephemeral = false := (build_built h).2.2.2.2.1
  have hcontents := contentsOf_unchanged hposix opt h hworld
  constructor
  · rintro ⟨J, hJ, -⟩
    obtain ⟨⟨h1, h2, h3, h4, -⟩, -⟩ := (load_saved hI he hs).1 hJ
    exact ⟨h1, h2, h3, h4.imp_right (fun h => h.1)⟩
  · rintro ⟨h1, h2, h3, h4⟩
    refine ⟨restored world I, (load_saved hI he hs).2 ⟨⟨h1, h2, h3, h4.imp_right (fun h => ⟨h, rfl⟩), _, hcontents⟩, rfl⟩, ?_⟩
    exact restored_same hcontents

theorem roundTrip_plain : ∃ I dir', build plainTree { persistCorpus := true } = .ok I ∧
    save (onlyTree plainTree) [49] (fun _ => none) { name := [105] } I = .ok dir' ∧
      ∃ J, load (onlyTree plainTree) dir' { name := [105] } = .ok J ∧ SameIndex I J := by
  obtain ⟨I, hI⟩ := (@build_ok plainTree { persistCorpus := true } (by decide)).2 (by decide)
  have hs := save_eq (build_stored hI) (build_built hI).2.2.2.2.1 (onlyTree plainTree) [49] (fun _ => none) { name := [105] }
  exact ⟨I, _, hI, hs, (roundTrip_iff (by unfold Tree.Posix; decide) hI (if_pos rfl) hs).2 (plain_loadable hI)⟩

def driveTree : Tree where
  dirs := [[⟨[99, 58, 120], false, .file ⟨[97], 1, true⟩⟩]]
  names_ok := by decide
  names_nodup := by decide

/-- `build` indexes the file `c:x` and `save` writes it down; `load` takes its path for an absolute one. -/
theorem not_roundTrip_drive : ¬ ∀ (t : Tree) (opt : IndexOptions) (I : IndexData) (world : World) (pid : Bytes)
    (dir dir' : Dir) (file : Place), t.Posix → build t opt = .ok I → world t.root = some t →
      save world pid dir file I = .ok dir' → ∃ J, load world dir' file = .ok J ∧ SameIndex I J := by
  intro hall
  obtain ⟨I, h⟩ := (build_ok driveTree validateIndexOptions_default).2 (by decide)
  obtain ⟨-, -, hinfos, -, he, -⟩ := build_built h
  have hI := build_stored h
  have hs := save_eq hI he (onlyTree driveTree) [49] (fun _ => none) { name := [105] }
  obtain ⟨J, hJ, -⟩ := hall driveTree {} I (onlyTree driveTree) [49] _ _ _ (by unfold Tree.Posix; decide) h (onlyTree_root _) hs
  obtain ⟨⟨-, -, hlimits, -⟩, -⟩ := (load_saved hI he hs).1 hJ
  have hpaths := hlimits.paths
  rw [hinfos] at hpaths
  exact absurd hpaths (by decide)

/-! ## Safety -/

/-- **Whatever the bytes, the tree behind them and the manifest asked for, an index the loader returns is safe to search.** -/
theorem loadImpl_safe {world : World} {dir : Dir} {file : Place} {expected : CacheManifest} {manifestAware : Bool}
    {I : IndexData} (h : loadImpl world dir file expected manifestAware = .ok I) : Safe I := by
  unfold loadImpl at h
  split at h
  · cases h
  · exact loadSnapshot_safe h

theorem loadImpl_safe_plain : ∃ dir I, loadImpl (onlyTree plainTree) dir { name := [105] } {} false = .ok I ∧ Safe I := by
  obtain ⟨I, hI⟩ := (@build_ok plainTree { persistCorpus := true } (by decide)).2 (by decide)
  have he := (build_built hI).2.2.2.2.1
  have hs := save_eq (build_stored hI) he (onlyTree plainTree) [49] (fun _ => none) { name := [105] }
  obtain ⟨h1, h2, h3, h4⟩ := plain_loadable hI
  have hload := (load_saved (build_stored hI) he hs).2 ⟨⟨h1, h2, h3, h4.imp_right (fun h => ⟨h, rfl⟩), _,
    contentsOf_unchanged (by unfold Tree.Posix; decide) { persistCorpus := true } hI (if_pos rfl)⟩, rfl⟩
  exact ⟨_, _, hload, loadImpl_safe hload⟩

end Pergrep
