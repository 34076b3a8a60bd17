import Pergrep.Index.Codec
import Pergrep.Index.Data
import Pergrep.Lib.KeyLines
import Pergrep.Lib.PlainText
/-!
# CacheIdentity — `TunedCacheIdentity`

What a tuned configuration is bound to: how two identities are compared, and how one is written and read.  The comparison leaves
out the root, the budget ratio and the two walk options, which change what an index is (`checkCompatibility_contract_iff`); the
writer leaves out the walk options and does not escape its values (`roundTrip_identity_iff`).
-/
namespace Pergrep

open PlainText (ascii decimal readUnsigned)

/-- How a double is printed by `operator<<` and read by `std::stod`, which throws on some texts; no text has a line break. -/
structure RatioText where
  print : BudgetRatio → Bytes
  read : Bytes → Option BudgetRatio
  print_line : ∀ r, (10 : UInt8) ∉ print r

inductive InvalidationReason where
  | none
  | schemaMismatch
  | engineVersionMismatch
  | sourceFingerprintMismatch
  | selectorScopeMismatch
  | transformMismatch
  | hardwareIncompatible
  | toolchainMismatch
  | optionsMismatch
  | policyMismatch
  deriving DecidableEq, Repr

def defaultPolicy : Bytes := ascii "default"

structure TunedCacheIdentity where
  schemaVersion : Bytes := ascii "pergrep-tuned-cache-v1"
  engineVersion : Bytes := ascii "0.1.0"
  sourceFingerprint : UInt64 := 0
  sourceRoot : Bytes := []
  selectorScope : Bytes := ascii "*"
  transformIdentity : UInt64 := 0
  toolchain : Bytes := []
  requiredFeatures : UInt32 := 0
  indexOptions : IndexOptions := {}
  operatorPolicy : Bytes := defaultPolicy
  corpusBytes : UInt64 := 0
  corpusFiles : UInt64 := 0
  deriving DecidableEq, Repr

namespace TunedCacheIdentity

/-- `compute_cache_key`; the ratio goes in as a whole number of millionths. -/
def computeCacheKey (x : TunedCacheIdentity) : UInt64 :=
  let h := fnvMix 14695981039346656037 x.schemaVersion
  let h := fnvMix h x.engineVersion
  let h := fnvMixWord h x.sourceFingerprint.toNat
  let h := fnvMix h x.sourceRoot
  let h := fnvMix h x.selectorScope
  let h := fnvMixWord h x.transformIdentity.toNat
  let h := fnvMix h x.toolchain
  let h := fnvMixWord h x.requiredFeatures.toNat
  let h := fnvMixWord h x.indexOptions.chunkBytes
  let h := fnvMixWord h x.indexOptions.chunkOverlap
  let h := fnvMixWord h x.indexOptions.positionalBlockBytes
  let h := fnvMixWord h (x.indexOptions.positionalBudgetRatio.budget 1000000)
  let h := fnvMixWord h x.indexOptions.plannedQgrams
  let h := fnvMix h x.operatorPolicy
  let h := fnvMixWord h x.corpusBytes.toNat
  fnvMixWord h x.corpusFiles.toNat

def checkCompatibility (x runtimeEnv : TunedCacheIdentity) (availableFeatures : UInt32) : InvalidationReason :=
  if x.schemaVersion ≠ runtimeEnv.schemaVersion then .schemaMismatch
  else if x.engineVersion ≠ runtimeEnv.engineVersion then .engineVersionMismatch
  else if x.sourceFingerprint ≠ 0 ∧ runtimeEnv.sourceFingerprint ≠ 0 ∧ x.sourceFingerprint ≠ runtimeEnv.sourceFingerprint then
    .sourceFingerprintMismatch
  else if x.selectorScope ≠ runtimeEnv.selectorScope then .selectorScopeMismatch
  else if x.transformIdentity ≠ runtimeEnv.transformIdentity then .transformMismatch
  else if x.requiredFeatures &&& ~~~availableFeatures ≠ 0 then .hardwareIncompatible
  else if x.toolchain ≠ [] ∧ runtimeEnv.toolchain ≠ [] ∧ x.toolchain ≠ runtimeEnv.toolchain then .toolchainMismatch
  else if x.indexOptions.chunkBytes ≠ runtimeEnv.indexOptions.chunkBytes ∨
      x.indexOptions.chunkOverlap ≠ runtimeEnv.indexOptions.chunkOverlap ∨
      x.indexOptions.positionalBlockBytes ≠ runtimeEnv.indexOptions.positionalBlockBytes ∨
      x.indexOptions.plannedQgrams ≠ runtimeEnv.indexOptions.plannedQgrams then .optionsMismatch
  else if x.operatorPolicy ≠ runtimeEnv.operatorPolicy ∧ x.operatorPolicy ≠ defaultPolicy ∧
      runtimeEnv.operatorPolicy ≠ defaultPolicy then .policyMismatch
  else .none

def entries (text : RatioText) (x : TunedCacheIdentity) : List (Bytes × Bytes) :=
  [(ascii "schema_version", x.schemaVersion),
    (ascii "engine_version", x.engineVersion),
    (ascii "source_fingerprint", decimal x.sourceFingerprint.toNat),
    (ascii "source_root", x.sourceRoot),
    (ascii "selector_scope", x.selectorScope),
    (ascii "transform_identity", decimal x.transformIdentity.toNat),
    (ascii "toolchain", x.toolchain),
    (ascii "required_features", decimal x.requiredFeatures.toNat),
    (ascii "chunk_bytes", decimal x.indexOptions.chunkBytes),
    (ascii "chunk_overlap", decimal x.indexOptions.chunkOverlap),
    (ascii "positional_block_bytes", decimal x.indexOptions.positionalBlockBytes),
    (ascii "positional_budget_ratio", text.print x.indexOptions.positionalBudgetRatio),
    (ascii "planned_qgrams", decimal x.indexOptions.plannedQgrams),
    (ascii "operator_policy", x.operatorPolicy),
    (ascii "corpus_bytes", decimal x.corpusBytes.toNat),
    (ascii "corpus_files", decimal x.corpusFiles.toNat),
    (ascii "cache_key", decimal x.computeCacheKey.toNat)]

def serialize (text : RatioText) (x : TunedCacheIdentity) : Bytes := KeyLines.render (entries text x)

/-- The fields `deserialize` knows. -/
inductive Field where
  | schemaVersion | engineVersion | sourceFingerprint | sourceRoot | selectorScope | transformIdentity | toolchain
  | requiredFeatures | chunkBytes | chunkOverlap | positionalBlockBytes | positionalBudgetRatio | plannedQgrams
  | operatorPolicy | corpusBytes | corpusFiles
  deriving DecidableEq, Repr

/-- The keys of `deserialize`, in the order they are compared. -/
def readerKeys : List (Bytes × Field) :=
  [(ascii "schema_version", .schemaVersion), (ascii "engine_version", .engineVersion),
    (ascii "source_fingerprint", .sourceFingerprint), (ascii "source_root", .sourceRoot),
    (ascii "selector_scope", .selectorScope), (ascii "transform_identity", .transformIdentity),
    (ascii "toolchain", .toolchain), (ascii "required_features", .requiredFeatures), (ascii "chunk_bytes", .chunkBytes),
    (ascii "chunk_overlap", .chunkOverlap), (ascii "positional_block_bytes", .positionalBlockBytes),
    (ascii "positional_budget_ratio", .positionalBudgetRatio), (ascii "planned_qgrams", .plannedQgrams),
    (ascii "operator_policy", .operatorPolicy), (ascii "corpus_bytes", .corpusBytes), (ascii "corpus_files", .corpusFiles)]

/-- The field of a key; `cache_key` is none. -/
def fieldOf (key : Bytes) : Option Field := (readerKeys.find? (fun e => e.1 == key)).map Prod.snd

/-- What a value does to its field; `std::stoull` and `std::stod` throw where there is no number. -/
def Field.set (text : RatioText) (x : TunedCacheIdentity) (val : Bytes) : Field → Option TunedCacheIdentity
  | .schemaVersion => some { x with schemaVersion := val }
  | .engineVersion => some { x with engineVersion := val }
  | .sourceFingerprint => (readUnsigned 64 val).map (fun n => { x with sourceFingerprint := UInt64.ofNat n })
  | .sourceRoot => some { x with sourceRoot := val }
  | .selectorScope => some { x with selectorScope := val }
  | .transformIdentity => (readUnsigned 64 val).map (fun n => { x with transformIdentity := UInt64.ofNat n })
  | .toolchain => some { x with toolchain := val }
  | .requiredFeatures => (readUnsigned 64 val).map (fun n => { x with requiredFeatures := UInt32.ofNat n })
  | .chunkBytes => (readUnsigned 64 val).map (fun n => { x with indexOptions := { x.indexOptions with chunkBytes := n } })
  | .chunkOverlap => (readUnsigned 64 val).map (fun n => { x with indexOptions := { x.indexOptions with chunkOverlap := n } })
  | .positionalBlockBytes =>
    (readUnsigned 64 val).map (fun n => { x with indexOptions := { x.indexOptions with positionalBlockBytes := n } })
  | .positionalBudgetRatio =>
    (text.read val).map (fun r => { x with indexOptions := { x.indexOptions with positionalBudgetRatio := r } })
  | .plannedQgrams => (readUnsigned 64 val).map (fun n => { x with indexOptions := { x.indexOptions with plannedQgrams := n } })
  | .operatorPolicy => some { x with operatorPolicy := val }
  | .corpusBytes => (readUnsigned 64 val).map (fun n => { x with corpusBytes := UInt64.ofNat n })
  | .corpusFiles => (readUnsigned 64 val).map (fun n => { x with corpusFiles := UInt64.ofNat n })

def setField (text : RatioText) (x : TunedCacheIdentity) (key val : Bytes) : Option TunedCacheIdentity :=
  match fieldOf key with
  | none => some x
  | some f => f.set text x val

def deserialize (text : RatioText) (s : Bytes) : Option TunedCacheIdentity := KeyLines.read (setField text) s {}

end TunedCacheIdentity

/-! ## Comparing -/

namespace TunedCacheIdentity

/-- What the contract of the cache identity names as a reason not to reuse a configuration. -/
structure Agree (x y : TunedCacheIdentity) : Prop where
  schemaVersion : x.schemaVersion = y.schemaVersion
  engineVersion : x.engineVersion = y.engineVersion
  sourceFingerprint : x.sourceFingerprint = y.sourceFingerprint
  sourceRoot : x.sourceRoot = y.sourceRoot
  selectorScope : x.selectorScope = y.selectorScope
  transformIdentity : x.transformIdentity = y.transformIdentity
  toolchain : x.toolchain = y.toolchain
  chunkBytes : x.indexOptions.chunkBytes = y.indexOptions.chunkBytes
  chunkOverlap : x.indexOptions.chunkOverlap = y.indexOptions.chunkOverlap
  positionalBlockBytes : x.indexOptions.positionalBlockBytes = y.indexOptions.positionalBlockBytes
  positionalBudgetRatio : x.indexOptions.positionalBudgetRatio = y.indexOptions.positionalBudgetRatio
  plannedQgrams : x.indexOptions.plannedQgrams = y.indexOptions.plannedQgrams
  includeHidden : x.indexOptions.includeHidden = y.indexOptions.includeHidden
  followSymlinks : x.indexOptions.followSymlinks = y.indexOptions.followSymlinks
  operatorPolicy : x.operatorPolicy = y.operatorPolicy

/-- The dimensions that are compared, apart from their wildcards, and the features. -/
structure Compared (x y : TunedCacheIdentity) (availableFeatures : UInt32) : Prop where
  schemaVersion : x.schemaVersion = y.schemaVersion
  engineVersion : x.engineVersion = y.engineVersion
  sourceFingerprint : x.sourceFingerprint = y.sourceFingerprint
  selectorScope : x.selectorScope = y.selectorScope
  transformIdentity : x.transformIdentity = y.transformIdentity
  features : x.requiredFeatures &&& ~~~availableFeatures = 0
  toolchain : x.toolchain = y.toolchain
  chunkBytes : x.indexOptions.chunkBytes = y.indexOptions.chunkBytes
  chunkOverlap : x.indexOptions.chunkOverlap = y.indexOptions.chunkOverlap
  positionalBlockBytes : x.indexOptions.positionalBlockBytes = y.indexOptions.positionalBlockBytes
  plannedQgrams : x.indexOptions.plannedQgrams = y.indexOptions.plannedQgrams
  operatorPolicy : x.operatorPolicy = y.operatorPolicy

/-- The dimensions that are not compared. -/
structure AgreeUncompared (x y : TunedCacheIdentity) : Prop where
  sourceRoot : x.sourceRoot = y.sourceRoot
  positionalBudgetRatio : x.indexOptions.positionalBudgetRatio = y.indexOptions.positionalBudgetRatio
  includeHidden : x.indexOptions.includeHidden = y.indexOptions.includeHidden
  followSymlinks : x.indexOptions.followSymlinks = y.indexOptions.followSymlinks

/-- No wildcard: the fingerprint and the toolchain are known, and the policy is a policy. -/
structure Definite (x : TunedCacheIdentity) : Prop where
  sourceFingerprint : x.sourceFingerprint ≠ 0
  toolchain : x.toolchain ≠ []
  operatorPolicy : x.operatorPolicy ≠ defaultPolicy

variable {x y : TunedCacheIdentity} {availableFeatures : UInt32}

/-- **What a hit means**, without wildcards. -/
theorem checkCompatibility_none_iff (hx : Definite x) (hy : Definite y) :
    checkCompatibility x y availableFeatures = .none ↔ Compared x y availableFeatures := by
  unfold checkCompatibility
  constructor
  · intro h
    split at h
    · cases h
    rename_i h1
    split at h
    · cases h
    rename_i h2
    split at h
    · cases h
    rename_i h3
    split at h
    · cases h
    rename_i h4
    split at h
    · cases h
    rename_i h5
    split at h
    · cases h
    rename_i h6
    split at h
    · cases h
    rename_i h7
    split at h
    · cases h
    rename_i h8
    split at h
    · cases h
    rename_i h9
    rw [not_or, not_or, not_or] at h8
    exact {
      schemaVersion := not_not.1 h1
      engineVersion := not_not.1 h2
      sourceFingerprint := not_not.1 (fun hne => h3 ⟨hx.sourceFingerprint, hy.sourceFingerprint, hne⟩)
      selectorScope := not_not.1 h4
      transformIdentity := not_not.1 h5
      features := not_not.1 h6
      toolchain := not_not.1 (fun hne => h7 ⟨hx.toolchain, hy.toolchain, hne⟩)
      chunkBytes := not_not.1 h8.1
      chunkOverlap := not_not.1 h8.2.1
      positionalBlockBytes := not_not.1 h8.2.2.1
      plannedQgrams := not_not.1 h8.2.2.2
      operatorPolicy := not_not.1 (fun hne => h9 ⟨hne, hx.operatorPolicy, hy.operatorPolicy⟩) }
  · intro h
    rw [if_neg (not_not.2 h.schemaVersion), if_neg (not_not.2 h.engineVersion), if_neg (fun hne => hne.2.2 h.sourceFingerprint),
      if_neg (not_not.2 h.selectorScope), if_neg (not_not.2 h.transformIdentity), if_neg (not_not.2 h.features),
      if_neg (fun hne => hne.2.2 h.toolchain), if_neg, if_neg (fun hne => hne.1 h.operatorPolicy)]
    rintro (hne | hne | hne | hne)
    · exact hne h.chunkBytes
    · exact hne h.chunkOverlap
    · exact hne h.positionalBlockBytes
    · exact hne h.plannedQgrams

/-- **When a hit is one under the contract**: something that is compared differs, or the root, the ratio and the walk options,
which are not compared, agree. -/
theorem checkCompatibility_contract_iff (x y : TunedCacheIdentity) (availableFeatures : UInt32) (hx : Definite x)
    (hy : Definite y) : (checkCompatibility x y availableFeatures = .none → Agree x y) ↔
      (¬ Compared x y availableFeatures ∨ AgreeUncompared x y) := by
  rw [checkCompatibility_none_iff hx hy]
  constructor
  · intro h
    by_cases hc : Compared x y availableFeatures
    · have ha := h hc
      exact Or.inr ⟨ha.sourceRoot, ha.positionalBudgetRatio, ha.includeHidden, ha.followSymlinks⟩
    · exact Or.inl hc
  · rintro (hnot | hu) hc
    · exact absurd hc hnot
    · exact { schemaVersion := hc.schemaVersion, engineVersion := hc.engineVersion, sourceFingerprint := hc.sourceFingerprint
              sourceRoot := hu.sourceRoot, selectorScope := hc.selectorScope, transformIdentity := hc.transformIdentity
              toolchain := hc.toolchain, chunkBytes := hc.chunkBytes, chunkOverlap := hc.chunkOverlap
              positionalBlockBytes := hc.positionalBlockBytes, positionalBudgetRatio := hu.positionalBudgetRatio
              plannedQgrams := hc.plannedQgrams, includeHidden := hu.includeHidden, followSymlinks := hu.followSymlinks
              operatorPolicy := hc.operatorPolicy }

def scalarIdentity : TunedCacheIdentity :=
  { sourceFingerprint := 1, sourceRoot := ascii "/src", toolchain := ascii "gcc", operatorPolicy := ascii "scalar" }

theorem scalarIdentity_definite : Definite scalarIdentity := ⟨by decide, by decide, by decide⟩

def vectorIdentity : TunedCacheIdentity := { scalarIdentity with requiredFeatures := 2 }

/-- The features are there, and the two agree but for them; where they are not, there is no hit. -/
theorem checkCompatibility_contract_features : vectorIdentity ≠ scalarIdentity ∧
    checkCompatibility vectorIdentity scalarIdentity 3 = .none ∧ Agree vectorIdentity scalarIdentity ∧
    checkCompatibility vectorIdentity scalarIdentity 1 = .hardwareIncompatible :=
  ⟨by decide, by decide, (checkCompatibility_contract_iff vectorIdentity scalarIdentity 3 ⟨by decide, by decide, by decide⟩
    ⟨by decide, by decide, by decide⟩).2 (Or.inr ⟨rfl, rfl, rfl, rfl⟩) (by decide), by decide⟩

/-- One identity includes hidden files and the other does not, and the one is taken for the other. -/
theorem not_checkCompatibility_contract : ∃ x y : TunedCacheIdentity, Definite x ∧ Definite y ∧
    checkCompatibility x y 0 = .none ∧ ¬ Agree x y := by
  refine ⟨scalarIdentity, { scalarIdentity with indexOptions := { includeHidden := false } }, scalarIdentity_definite,
    ⟨by decide, by decide, by decide⟩, by decide, fun h => ?_⟩
  exact absurd h.includeHidden (by decide)

/-! ## Writing and reading -/

/-- What a value that was read looks like: a text from a line has no line break, and nothing sets the walk options or says that
the corpus is kept. -/
structure Plain (x : TunedCacheIdentity) : Prop where
  schemaVersion : (10 : UInt8) ∉ x.schemaVersion
  engineVersion : (10 : UInt8) ∉ x.engineVersion
  sourceRoot : (10 : UInt8) ∉ x.sourceRoot
  selectorScope : (10 : UInt8) ∉ x.selectorScope
  toolchain : (10 : UInt8) ∉ x.toolchain
  operatorPolicy : (10 : UInt8) ∉ x.operatorPolicy
  includeHidden : x.indexOptions.includeHidden = true
  followSymlinks : x.indexOptions.followSymlinks = false
  persistCorpus : x.indexOptions.persistCorpus = false

/-- The sizes among the options are `size_t`. -/
structure Sized (x : TunedCacheIdentity) : Prop where
  chunkBytes : x.indexOptions.chunkBytes < 2 ^ 64
  chunkOverlap : x.indexOptions.chunkOverlap < 2 ^ 64
  positionalBlockBytes : x.indexOptions.positionalBlockBytes < 2 ^ 64
  plannedQgrams : x.indexOptions.plannedQgrams < 2 ^ 64

def withRatio (x : TunedCacheIdentity) (r : BudgetRatio) : TunedCacheIdentity :=
  { x with indexOptions := { x.indexOptions with positionalBudgetRatio := r } }

theorem plain_default : Plain {} :=
  ⟨by decide, by decide, by decide, by decide, by decide, by decide, rfl, rfl, rfl⟩

/-- **A line leaves a plain identity plain.** -/
theorem setField_plain {text : RatioText} (z : TunedCacheIdentity) (key val : Bytes) (w : TunedCacheIdentity) (hz : Plain z)
    (hval : (10 : UInt8) ∉ val) (h : setField text z key val = some w) : Plain w := by
  unfold setField at h
  split at h
  · obtain rfl := Option.some.inj h
    exact hz
  rename_i f _
  -- a text is the line's value, a number leaves the texts and the flags alone
  cases f
  case schemaVersion => obtain rfl := Option.some.inj h; exact { hz with schemaVersion := hval }
  case engineVersion => obtain rfl := Option.some.inj h; exact { hz with engineVersion := hval }
  case sourceRoot => obtain rfl := Option.some.inj h; exact { hz with sourceRoot := hval }
  case selectorScope => obtain rfl := Option.some.inj h; exact { hz with selectorScope := hval }
  case toolchain => obtain rfl := Option.some.inj h; exact { hz with toolchain := hval }
  case operatorPolicy => obtain rfl := Option.some.inj h; exact { hz with operatorPolicy := hval }
  all_goals
    obtain ⟨n, -, rfl⟩ := Option.map_eq_some_iff.1 h
    exact { hz with }

theorem deserialize_plain {text : RatioText} {s : Bytes} {x : TunedCacheIdentity} (h : deserialize text s = some x) : Plain x :=
  KeyLines.read_forall setField_plain plain_default h

theorem entries_isKey (text : RatioText) (x : TunedCacheIdentity) : ∀ kv ∈ entries text x, KeyLines.IsKey kv.1 := by
  have hkeys : ∀ key ∈ (entries text x).map Prod.fst, KeyLines.IsKey key := by
    have hall : ((entries text x).map Prod.fst).all (fun key => !key.isEmpty && key.head? != some 35 &&
        !key.contains 61 && !key.contains 10) = true := rfl
    intro key hkey
    have hk := List.all_eq_true.1 hall key hkey
    simp only [Bool.and_eq_true, Bool.not_eq_true', bne_iff_ne, List.isEmpty_eq_false_iff] at hk
    exact ⟨hk.1.1.1, hk.1.1.2, by simpa using hk.1.2, by simpa using hk.2⟩
  exact fun kv hkv => hkeys kv.1 (List.mem_map_of_mem hkv)

theorem entries_plain {text : RatioText} {x : TunedCacheIdentity} (hx : Plain x) :
    ∀ kv ∈ entries text x, (10 : UInt8) ∉ kv.2 := by
  have hdecimal : ∀ n, (10 : UInt8) ∉ decimal n := PlainText.notMem_decimal rfl
  unfold entries
  simp only [List.forall_mem_cons, List.not_mem_nil, false_implies, implies_true, and_true, hdecimal, not_false_eq_true,
    hx.schemaVersion, hx.engineVersion, hx.sourceRoot, hx.selectorScope, hx.toolchain, hx.operatorPolicy, text.print_line]

theorem entries_fields (text : RatioText) (x : TunedCacheIdentity) :
    (entries text x).map (fun kv => (fieldOf kv.1, kv.2)) =
      [(some .schemaVersion, x.schemaVersion), (some .engineVersion, x.engineVersion),
        (some .sourceFingerprint, decimal x.sourceFingerprint.toNat), (some .sourceRoot, x.sourceRoot),
        (some .selectorScope, x.selectorScope), (some .transformIdentity, decimal x.transformIdentity.toNat),
        (some .toolchain, x.toolchain), (some .requiredFeatures, decimal x.requiredFeatures.toNat),
        (some .chunkBytes, decimal x.indexOptions.chunkBytes), (some .chunkOverlap, decimal x.indexOptions.chunkOverlap),
        (some .positionalBlockBytes, decimal x.indexOptions.positionalBlockBytes),
        (some .positionalBudgetRatio, text.print x.indexOptions.positionalBudgetRatio),
        (some .plannedQgrams, decimal x.indexOptions.plannedQgrams), (some .operatorPolicy, x.operatorPolicy),
        (some .corpusBytes, decimal x.corpusBytes.toNat), (some .corpusFiles, decimal x.corpusFiles.toNat),
        (none, decimal x.computeCacheKey.toNat)] := rfl

/-- What reading a plain identity gives: the identity, with the ratio that was read. -/
theorem deserialize_serialize {text : RatioText} {x : TunedCacheIdentity} (hx : Plain x) (hsized : Sized x) :
    deserialize text (serialize text x) = (text.read (text.print x.indexOptions.positionalBudgetRatio)).map x.withRatio := by
  have hfold : ∀ (kvs : List (Bytes × Bytes)) (z : TunedCacheIdentity),
      kvs.foldlM (fun z kv => setField text z kv.1 kv.2) z =
        (kvs.map (fun kv => (fieldOf kv.1, kv.2))).foldlM
          (fun z fv => (fv.1.map (fun f => Field.set text z fv.2 f)).getD (some z)) z := by
    intro kvs z
    rw [List.foldlM_map]
    congr 1
    funext z kv
    unfold setField
    cases fieldOf kv.1 <;> rfl
  have h64 : ∀ u : UInt64, readUnsigned 64 (decimal u.toNat) = some u.toNat := fun u =>
    PlainText.readUnsigned_decimal u.toNat_lt
  have h32 : ∀ u : UInt32, readUnsigned 64 (decimal u.toNat) = some u.toNat := fun u =>
    PlainText.readUnsigned_decimal (Nat.lt_trans u.toNat_lt (by decide))
  unfold deserialize serialize
  rw [KeyLines.read_render (fun kv hkv => ⟨entries_isKey text x kv hkv, entries_plain hx kv hkv⟩), hfold, entries_fields]
  simp only [List.foldlM_cons, List.foldlM_nil, Option.map_some, Option.map_none, Option.getD_some, Option.getD_none, Field.set,
    h64, h32, PlainText.readUnsigned_decimal hsized.chunkBytes, PlainText.readUnsigned_decimal hsized.chunkOverlap,
    PlainText.readUnsigned_decimal hsized.positionalBlockBytes, PlainText.readUnsigned_decimal hsized.plannedQgrams,
    UInt64.ofNat_toNat, UInt32.ofNat_toNat, Option.bind_eq_bind, Option.bind_some, Option.pure_def]
  cases text.read (text.print x.indexOptions.positionalBudgetRatio) with
  | none => rfl
  | some r =>
    -- what is not written is what the flags were to start with
    have hoptions : ∀ o : IndexOptions, o.includeHidden = true → o.followSymlinks = false → o.persistCorpus = false →
        o = { o with includeHidden := true, followSymlinks := false, persistCorpus := false } := by
      rintro ⟨_, _, _, _, _, _, _, _⟩ rfl rfl rfl
      rfl
    unfold withRatio
    rw [hoptions x.indexOptions hx.includeHidden hx.followSymlinks hx.persistCorpus]
    rfl

/-- The identities are the same, the ratio aside. -/
def SameButRatio (x y : TunedCacheIdentity) : Prop := y = x.withRatio y.indexOptions.positionalBudgetRatio

/-- **When an identity survives being written and read**: none of its texts has a line break, the walk options and the flag for
the corpus are what an identity starts with, and `std::stod` takes the text of its ratio. -/
theorem roundTrip_identity_iff (text : RatioText) (x : TunedCacheIdentity) (hsized : Sized x) :
    (∃ y, deserialize text (serialize text x) = some y ∧ SameButRatio x y) ↔
      (Plain x ∧ (text.read (text.print x.indexOptions.positionalBudgetRatio)).isSome = true) := by
  constructor
  · rintro ⟨y, hy, hsame⟩
    have hplain : Plain y := deserialize_plain hy
    have hx : Plain x := by
      rw [hsame] at hplain
      exact { hplain with }
    rw [deserialize_serialize hx hsized] at hy
    obtain ⟨r, hr, -⟩ := Option.map_eq_some_iff.1 hy
    exact ⟨hx, by rw [hr]; rfl⟩
  · rintro ⟨hx, hr⟩
    obtain ⟨r, hr⟩ := Option.isSome_iff_exists.1 hr
    exact ⟨x.withRatio r, by rw [deserialize_serialize hx hsized, hr]; rfl, rfl⟩

def halfText : RatioText where
  print := fun _ => ascii "0.5"
  read := fun s => if s = ascii "0.5" then some {} else none
  print_line := fun _ => by decide

theorem roundTrip_identity_scalar :
    ∃ y, deserialize halfText (serialize halfText scalarIdentity) = some y ∧ SameButRatio scalarIdentity y :=
  (roundTrip_identity_iff halfText scalarIdentity ⟨by decide, by decide, by decide, by decide⟩).2
    ⟨⟨by decide, by decide, by decide, by decide, by decide, by decide, rfl, rfl, rfl⟩, by decide⟩

/-- The identity of an index without hidden files is read back as one with them. -/
theorem not_roundTrip_identity : ∃ x : TunedCacheIdentity, Sized x ∧
    ∀ y, deserialize halfText (serialize halfText x) = some y → ¬ SameButRatio x y := by
  refine ⟨{ indexOptions := { includeHidden := false } }, ⟨by decide, by decide, by decide, by decide⟩, fun y hy hsame => ?_⟩
  have hhidden := (deserialize_plain hy).includeHidden
  rw [hsame] at hhidden
  exact Bool.false_ne_true hhidden

end TunedCacheIdentity

end Pergrep
