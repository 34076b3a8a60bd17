import Pergrep.Index.Reload
/-!
# Gate — `save` and `load` with a manifest

`save` takes a manifest from its caller, fills in what is not set and stores it; `load` takes another and asks that each field
set in it is the stored one's (`checkExpected_iff`).  `save` refuses another schema and options that are not the index's own,
but writes a root, totals and an identity down as they are given, and the loader holds those against the index and the
source: the gate is exact when what was stated is so (`gate_iff`).
-/
namespace Pergrep

open Throw (bind_ok)

/-! ## What the caller expects -/

/-- Each field that is set is the stored one's. -/
structure Matches (expected : CacheManifest) (m : StoredManifest) : Prop where
  schemaVersion : ∀ v ∈ expected.schemaVersion, v = m.schemaVersion
  sourceIdentity : ∀ v ∈ expected.sourceIdentity, v = m.sourceIdentity
  sourceRoot : ∀ v ∈ expected.sourceRoot, v = m.sourceRoot
  selectorIdentity : ∀ v ∈ expected.selectorIdentity, v = m.selectorIdentity
  indexOptions : ∀ o ∈ expected.indexOptions, sameOptions o m.indexOptions = true
  transformIdentity : ∀ v ∈ expected.transformIdentity, v = m.transformIdentity
  corpusFiles : ∀ v ∈ expected.corpusFiles, v = m.corpusFiles
  corpusBytes : ∀ v ∈ expected.corpusBytes, v = m.corpusBytes
  generation : ∀ v ∈ expected.generation, v = m.generation

theorem mismatch_bind {bad : Bool} {what : String} {k : Unit → Except Thrown Unit} :
    (mismatch bad what >>= k) = .ok () ↔ bad = false ∧ k () = .ok () := by
  cases bad with
  | true  => exact iff_of_false (fun h => by cases h) (fun h => by cases h.1)
  | false => exact (and_iff_right rfl).symm

theorem mismatch_ok {bad : Bool} {what : String} : mismatch bad what = .ok () ↔ bad = false := by
  cases bad with
  | true  => exact iff_of_false (fun h => by cases h) (fun h => by cases h)
  | false => exact iff_of_true rfl rfl

theorem any_eq_false {α : Type} {p : α → Bool} : ∀ {o : Option α}, o.any p = false ↔ ∀ v ∈ o, p v = false
  | none => iff_of_true rfl (fun _ h => by cases h)
  | some v => ⟨fun h w hw => by cases hw; exact h, fun h => h v rfl⟩

/-- **The loader's comparison**, field by field. -/
theorem checkExpected_iff {expected : CacheManifest} {m : StoredManifest} :
    checkExpected expected m = .ok () ↔ Matches expected m := by
  unfold checkExpected
  simp only [mismatch_bind, mismatch_ok, any_eq_false, bne_eq_false_iff_eq, Bool.not_eq_false']
  constructor
  · rintro ⟨h1, h2, h3, h4, h5, h6, h7, h8, h9⟩
    exact ⟨h1, h2, h3, h4, h5, h6, h7, h8, h9⟩
  · rintro ⟨h1, h2, h3, h4, h5, h6, h7, h8, h9⟩
    exact ⟨h1, h2, h3, h4, h5, h6, h7, h8, h9⟩

/-! ## Options that are the same -/

theorem same_symm {a b : BudgetRatio} (h : a.same b = true) : b.same a = true := by
  simp only [BudgetRatio.same, Bool.and_eq_true, Bool.or_eq_true, Bool.not_eq_true', beq_iff_eq] at h ⊢
  exact ⟨⟨h.1.2, h.1.1⟩, h.2.imp Eq.symm And.symm⟩

theorem sameOptions_symm {a b : IndexOptions} (h : sameOptions a b = true) : sameOptions b a = true := by
  obtain ⟨⟨h1, h2, h3, h4⟩, h5, h6, h7, h8⟩ := sameOptions_iff.1 h
  exact sameOptions_iff.2 ⟨⟨h1.symm, h2.symm, h3.symm, h4.symm⟩, same_symm h5, h6.symm, h7.symm, h8.symm⟩

theorem sameOptions_refl {a b : IndexOptions} (h : sameOptions a b = true) : sameOptions a a = true := by
  obtain ⟨-, h5, -⟩ := sameOptions_iff.1 h
  refine sameOptions_iff.2 ⟨⟨rfl, rfl, rfl, rfl⟩, ?_, rfl, rfl, rfl⟩
  simp only [BudgetRatio.same, Bool.and_eq_true] at h5 ⊢
  exact ⟨⟨h5.1.1, h5.1.1⟩, by simp⟩

theorem isZero_valid {r : BudgetRatio} (h : r.isZero = true) : r.isFinite = true ∧ r.inRange = true := by
  have hbits := r.bits.toNat_lt
  have hmod : r.bits.toNat % 2 ^ 63 = 0 := by simpa [BudgetRatio.isZero] using h
  have hexp : r.exponent = 0 := by
    unfold BudgetRatio.exponent
    omega
  refine ⟨by rw [BudgetRatio.isFinite, hexp]; rfl, ?_⟩
  unfold BudgetRatio.inRange
  rw [h]
  split
  · have hzero : r.bits.toNat = 0 := by omega
    simp [hzero]
  · simp

theorem validIndexOptions_congr {a b : IndexOptions} (h : sameOptions a b = true) (hb : validIndexOptions b = true) :
    validIndexOptions a = true := by
  obtain ⟨⟨h1, h2, h3, h4⟩, h5, -⟩ := sameOptions_iff.1 h
  unfold validIndexOptions at hb ⊢
  rw [h1, h2, h3, h4]
  rw [Bool.and_eq_true, Bool.and_eq_true] at hb ⊢
  simp only [BudgetRatio.same, Bool.and_eq_true, Bool.or_eq_true, beq_iff_eq] at h5
  rcases h5.2 with heq | hzero
  · have hratio : a.positionalBudgetRatio = b.positionalBudgetRatio := by
      rcases ha : a.positionalBudgetRatio with ⟨x⟩
      rcases hb' : b.positionalBudgetRatio with ⟨y⟩
      rw [ha, hb'] at heq
      exact congrArg BudgetRatio.mk heq
    rwa [hratio]
  · exact ⟨⟨hb.1.1, (isZero_valid hzero.1).1⟩, (isZero_valid hzero.1).2⟩

section
variable {o o' : IndexOptions} (hhidden : o.includeHidden = o'.includeHidden) (hlinks : o.followSymlinks = o'.followSymlinks)
include hhidden hlinks

theorem walkEntries_congr (descend : List Bytes → Nat → List Nat → List Found × List Nat) (dir : List Bytes) :
    ∀ (es : List DirEntry) (visited : List Nat), walkEntries o descend dir es visited = walkEntries o' descend dir es visited
  | [], _ => rfl
  | e :: es, visited => by
    have hrest := walkEntries_congr descend dir es
    simp only [walkEntries, hhidden, hlinks, hrest]

theorem walkDir_congr (t : Tree) : ∀ fuel : Nat, walkDir t o fuel = walkDir t o' fuel
  | 0 => rfl
  | fuel + 1 => by
    funext dir d visited
    rw [walkDir, walkDir, walkDir_congr t fuel]
    exact walkEntries_congr hhidden hlinks _ _ _ _

/-- **The identity of a source comes of which files the walk takes**, and of no other option. -/
theorem sourceIdentity_congr (world : World) (root : Bytes) : sourceIdentity world root o = sourceIdentity world root o' := by
  have hwalk : ∀ t, walk t o = walk t o' := fun t => by
    unfold walk
    rw [walkDir_congr hhidden hlinks, hlinks]
  unfold sourceIdentity sourceEntries
  simp only [hwalk]

end

/-! ## What the caller states -/

/-- The root, the totals and the identity that are set are those of the index and of its source. -/
structure Stated (world : World) (requested : CacheManifest) (I : IndexData) : Prop where
  sourceRoot : ∀ v ∈ requested.sourceRoot, v = I.root
  corpusFiles : ∀ v ∈ requested.corpusFiles, v = I.infos.length
  corpusBytes : ∀ v ∈ requested.corpusBytes, v = I.corpBytes
  sourceIdentity : I.opt.persistCorpus = true ∨
    ∀ v ∈ requested.sourceIdentity, v = (Pergrep.sourceIdentity world I.root I.opt).toNat

theorem getD_eq_iff {α : Type} {a : α} : ∀ {o : Option α}, o.getD a = a ↔ ∀ v ∈ o, v = a
  | none => iff_of_true rfl (fun _ h => by cases h)
  | some v => ⟨fun h w hw => by cases hw; exact h, fun h => h v rfl⟩

section
variable {world : World} {requested : CacheManifest} {I : IndexData}

theorem Savable.same (hreq : Savable requested I) (world : World) (hfinite : I.opt.positionalBudgetRatio.isFinite = true) :
    sameOptions (manifestOf world I requested).indexOptions I.opt = true :=
  forall_getD (P := (sameOptions · I.opt = true)) (sameOptions_self hfinite) hreq.indexOptions

/-- **The loader's other demands**, of a snapshot that `save` wrote over the same source. -/
theorem accepted_iff (hI : Stored I) (hreq : Savable requested I) (hcontents : ∃ l, contentsOf world I = .ok l)
    {expected : CacheManifest} : Accepted world expected (manifestOf world I requested) I ↔
      Matches expected (manifestOf world I requested) ∧ Stated world requested I ∧ WithinLimits I ∧
        (I.opt.persistCorpus = true ∨ Pergrep.sourceIdentity world I.root I.opt ≠ 0) := by
  have hsource : ∀ hfinite : I.opt.positionalBudgetRatio.isFinite = true,
      (manifestOf world I requested).sourceRoot = I.root →
        (SourceStated world (manifestOf world I requested) I ↔ I.opt.persistCorpus = true ∨
          (Pergrep.sourceIdentity world I.root I.opt ≠ 0 ∧
            ∀ v ∈ requested.sourceIdentity, v = (Pergrep.sourceIdentity world I.root I.opt).toNat)) := by
    intro hfinite hroot
    obtain ⟨-, -, hhidden, hlinks, -⟩ := sameOptions_iff.1 (hreq.same world hfinite)
    unfold SourceStated
    rw [hroot, sourceIdentity_congr hhidden hlinks, eq_comm (a := (Pergrep.sourceIdentity world I.root I.opt).toNat)]
    exact or_congr_right (and_congr_right' getD_eq_iff)
  constructor
  · intro h
    have hs := (hsource h.limits.finite h.agrees.root).1 h.source
    exact ⟨checkExpected_iff.1 h.expected, ⟨getD_eq_iff.1 h.agrees.root, getD_eq_iff.1 h.agrees.files,
      getD_eq_iff.1 h.agrees.bytes, hs.imp_right And.right⟩, h.limits, hs.imp_right And.left⟩
  · rintro ⟨hexp, hstated, hlimits, hne⟩
    have hroot : (manifestOf world I requested).sourceRoot = I.root := getD_eq_iff.2 hstated.sourceRoot
    have hsame := hreq.same world hlimits.finite
    refine ⟨checkExpected_iff.2 hexp, validIndexOptions_congr hsame ((validIndexOptions_iff hI.options).2 hlimits.finite),
      (hsource hlimits.finite hroot).2 ?_, hlimits, ⟨sameOptions_symm hsame, hroot, getD_eq_iff.2 hstated.corpusFiles,
        getD_eq_iff.2 hstated.corpusBytes⟩, hcontents⟩
    rcases hne with hp | hne
    · exact Or.inl hp
    · exact hstated.sourceIdentity.imp_right (fun h => ⟨hne, h⟩)

/-- **What a load of a saved snapshot with a manifest asks**, over the same source. -/
theorem loadImpl_requested (hI : Stored I) (hfits : requested.Fits) (hreq : Savable requested I)
    (hcontents : ∃ l, contentsOf world I = .ok l) {pid : Bytes} {dir : Dir} {file : Place} {expected : CacheManifest} :
    (∃ J, loadImpl world (saved world pid dir file I requested) file expected true = .ok J) ↔
      Matches expected (manifestOf world I requested) ∧ Loadable world file I ∧ Stated world requested I := by
  have hsize : Stated world requested I → (snapshotBody (manifestOf world I requested) I).length + 8 = snapshotSize I := by
    intro h
    have hroot : (manifestOf world I requested).sourceRoot = I.root := getD_eq_iff.2 h.sourceRoot
    rw [length_snapshot, ← length_putSections, hroot]
  simp only [loadImpl_saved, loadSnapshot_iff hI (fun hsmall => manifestOf_fits world hI hsmall hfits hreq),
    accepted_iff hI hreq hcontents]
  constructor
  · rintro ⟨J, hname, ⟨hlen, hm, hstated, hlimits, hne⟩, -⟩
    exact ⟨hm, ⟨hname, hsize hstated ▸ hlen, hlimits, hne⟩, hstated⟩
  · rintro ⟨hm, hl, hstated⟩
    exact ⟨_, hl.name, ⟨(hsize hstated).symm ▸ hl.size, hm, hstated, hl.limits, hl.source⟩, rfl⟩

theorem Savable.matches (hreq : Savable requested I) : Matches requested (manifestOf world I requested) := by
  have hset : ∀ {α : Type} (o : Option α) (a : α), ∀ v ∈ o, v = o.getD a := fun o a v hv => by
    rw [hv]
    rfl
  refine ⟨hset _ _, hset _ _, hset _ _, hset _ _, fun o ho => ?_, hset _ _, hset _ _, hset _ _, hset _ _⟩
  rw [manifestOf, ho]
  exact sameOptions_refl (hreq.indexOptions o ho)

end

/-! ## The gate -/

/-- **The contract of the manifest**: over an unchanged source a load passes exactly the manifests that the stored one matches,
the one that was asked for among them. -/
structure ManifestGate (world : World) (dir : Dir) (file : Place) (I : IndexData) (requested : CacheManifest) : Prop where
  exact : ∀ expected : CacheManifest,
    (∃ J, loadImpl world dir file expected true = .ok J) ↔ Matches expected (manifestOf world I requested)
  requested : ∃ J, loadImpl world dir file requested true = .ok J

/-- **The gate is exact** when the snapshot can be loaded at all and `save` was told the index's own root and totals and, of a
source-backed index, the source's identity. -/
theorem gate_iff {t : Tree} (hposix : t.Posix) {opt : IndexOptions} {I : IndexData} (h : build t opt = .ok I)
    {world : World} (hworld : world t.root = some t) {requested : CacheManifest} (hfits : requested.Fits) {pid : Bytes}
    {dir dir' : Dir} {file : Place} (hs : save world pid dir file I requested = .ok dir') :
    ManifestGate world dir' file I requested ↔ Loadable world file I ∧ Stated world requested I := by
  have hI := build_stored h
  obtain ⟨hreq, rfl⟩ := (save_iff hI (build_built h).2.2.2.2.1).1 hs
  have hload := fun expected => @loadImpl_requested world requested I hI hfits hreq
    ⟨_, contentsOf_unchanged hposix opt h hworld⟩ pid dir file expected
  constructor
  · intro hgate
    exact ((hload requested).1 hgate.requested).2
  · intro hok
    exact ⟨fun expected => (hload expected).trans (and_iff_left hok), (hload requested).2 ⟨hreq.matches, hok⟩⟩

theorem gate_plain : ∃ I dir', build plainTree { persistCorpus := true } = .ok I ∧
    save (onlyTree plainTree) [49] (fun _ => none) { name := [105] } I { generation := some 42 } = .ok dir' ∧
      ManifestGate (onlyTree plainTree) dir' { name := [105] } I { generation := some 42 } := by
  obtain ⟨I, h⟩ := (@build_ok plainTree { persistCorpus := true } (by decide)).2 (by decide)
  have hreq : Savable { generation := some 42 } I := ⟨fun _ hv => (by cases hv), fun _ hv => (by cases hv)⟩
  have hs := (@save_iff I (build_stored h) (build_built h).2.2.2.2.1 (onlyTree plainTree) [49] (fun _ => none) _
    { name := [105] } _).2 ⟨hreq, rfl⟩
  refine ⟨I, _, h, hs, (gate_iff (by unfold Tree.Posix; decide) h (onlyTree_root _) ?_ hs).2 ⟨plain_loadable h, ?_⟩⟩
  · constructor <;> simp
  · exact ⟨fun _ hv => (by cases hv), fun _ hv => (by cases hv), fun _ hv => (by cases hv), Or.inr (fun _ hv => (by cases hv))⟩

/-- `save` writes down that the corpus has five files when it has one, and the loader takes the snapshot for a stale one. -/
theorem not_gate_files : ¬ ∀ (t : Tree) (opt : IndexOptions) (I : IndexData) (world : World) (requested : CacheManifest)
    (pid : Bytes) (dir dir' : Dir) (file : Place), t.Posix → build t opt = .ok I → world t.root = some t → requested.Fits →
      save world pid dir file I requested = .ok dir' → ManifestGate world dir' file I requested := by
  intro hall
  obtain ⟨I, h⟩ := (@build_ok plainTree { persistCorpus := true } (by decide)).2 (by decide)
  have hposix : plainTree.Posix := by unfold Tree.Posix; decide
  have hI := build_stored h
  have hreq : Savable { corpusFiles := some 5 } I := ⟨fun _ hv => (by cases hv), fun _ hv => (by cases hv)⟩
  have hfits : CacheManifest.Fits { corpusFiles := some 5 } := by constructor <;> simp
  have hs := (@save_iff I hI (build_built h).2.2.2.2.1 (onlyTree plainTree) [49] (fun _ => none) _
    { name := [105] } _).2 ⟨hreq, rfl⟩
  have hgate := hall plainTree _ I (onlyTree plainTree) _ [49] _ _ { name := [105] } hposix h (onlyTree_root _) hfits hs
  obtain ⟨-, -, hstated⟩ := (loadImpl_requested hI hfits hreq
    ⟨_, contentsOf_unchanged hposix _ h (onlyTree_root plainTree)⟩).1 hgate.requested
  have hfiles := hstated.corpusFiles 5 rfl
  rw [(build_built h).2.2.1] at hfiles
  exact absurd hfiles (by decide)

end Pergrep
