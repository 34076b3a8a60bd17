import Pergrep.Index.Reload
import Pergrep.Lib.Fnv
/-!
# Tamper — a snapshot with one byte changed

A portable snapshot that loads does not load any more once one of its bytes is changed, wherever that is: in what the checksum
covers, in the checksum, in the magic, or in the version, which may then be that of a legacy format but does not go with the
schema of the manifest (`loadImpl_tamper`).
-/
namespace Pergrep

open Reader

def fnvStep (h : UInt64) (c : UInt8) : UInt64 := Fnv.step 1099511628211 h c.toUInt64

theorem fnvMix_eq (h : UInt64) (s : Bytes) : fnvMix h s = s.foldl fnvStep h := rfl

theorem fnvStep_injective (c : UInt8) : Function.Injective (fun h => fnvStep h c) :=
  Fnv.step_injective Fnv.prime_inverse c.toUInt64

theorem fnvStep_byte_injective (h : UInt64) : Function.Injective (fnvStep h) := fun _ _ hxy =>
  UInt8.toUInt64_inj.1 (Fnv.step_word_injective Fnv.prime_inverse h hxy)

/-- **The checksum tells two bodies apart** that differ in one byte after the version. -/
theorem bodyChecksum_set_ne {body : Bytes} {i : Nat} {b : UInt8} (h12 : 12 ≤ i) (hi : i < body.length) (hne : b ≠ body[i]) :
    bodyChecksum (body.set i b) ≠ bodyChecksum body := by
  have hlen : i - 12 < (body.drop 12).length := by
    rw [List.length_drop]
    omega
  have hold : b ≠ (body.drop 12)[i - 12] := by
    rw [List.getElem_drop]
    simpa [Nat.add_sub_cancel' h12] using hne
  rw [bodyChecksum, bodyChecksum, List.drop_set, if_neg (Nat.not_lt.2 h12), fnvMix_eq, fnvMix_eq]
  exact Fnv.mix_set_ne fnvStep_injective fnvStep_byte_injective hlen hold _

theorem getLe_inj : ∀ {s t : Bytes}, s.length = t.length → getLe s = getLe t → s = t
  | [], [], _, _ => rfl
  | [], _ :: _, hlen, _ => by cases hlen
  | _ :: _, [], hlen, _ => by cases hlen
  | a :: s, b :: t, hlen, h => by
    rw [getLe, getLe] at h
    have ha := a.toNat_lt
    have hb := b.toNat_lt
    have htail : getLe s = getLe t := by omega
    rw [getLe_inj (Nat.succ.inj hlen) htail, UInt8.toNat_inj.1 (by omega : a.toNat = b.toNat)]

theorem set_ne {s : Bytes} {i : Nat} {b : UInt8} (hi : i < s.length) (hne : b ≠ s[i]) : s.set i b ≠ s := fun h => by
  have hget := congrArg (·[i]?) h
  simp only [List.getElem?_set_self hi, List.getElem?_eq_getElem hi, Option.some.injEq] at hget
  exact hne hget

section
variable {world : World} {expected : CacheManifest} {aware persisted : Bool} {s : Bytes}

theorem getSnapshot_portable {r : IndexData × Bytes} (h : getSnapshot world expected aware true persisted s = .ok r) :
    ∃ s' s'', getScalar 8 s = .ok (manifestMagic, s') ∧ getScalar 4 s' = .ok (manifestSchema, s'') := by
  obtain ⟨marker, s₁, hmarker, h⟩ := bind_ok h
  obtain ⟨u, s₂, hreject, h⟩ := bind_ok h
  obtain ⟨hmagic, hs₂⟩ := reject_ok hreject
  obtain rfl : marker = manifestMagic := by
    by_contra hne
    exact hmagic ⟨rfl, hne⟩
  cases hs₂
  rw [if_pos rfl] at h
  obtain ⟨m, s₃, hm, -⟩ := bind_ok h
  obtain ⟨schema, s₄, hschema, hm⟩ := bind_ok hm
  obtain ⟨v, s₅, hreject, -⟩ := bind_ok hm
  obtain rfl : schema = manifestSchema := not_not.1 (reject_ok hreject).1
  exact ⟨s₁, s₄, hmarker, hschema⟩

theorem getSnapshot_legacy {s' s'' : Bytes} (hmarker : getScalar 8 s = .ok (manifestMagic, s'))
    (hschema : getScalar 4 s' = .ok (manifestSchema, s'')) (r : IndexData × Bytes) :
    getSnapshot world expected aware false persisted s ≠ .ok r := fun h => by
  obtain ⟨marker, s₁, hm, h⟩ := bind_ok h
  obtain ⟨u, s₂, hreject, h⟩ := bind_ok h
  cases hmarker.symm.trans hm
  cases (reject_ok hreject).2
  rw [if_pos rfl] at h
  obtain ⟨m, s₃, hm, -⟩ := bind_ok h
  obtain ⟨schema, s₄, hs, hm⟩ := bind_ok hm
  obtain ⟨v, s₅, hreject, -⟩ := bind_ok hm
  cases hschema.symm.trans hs
  exact (reject_ok hreject).1 (by decide)

end

/-- What the loader has seen of a portable snapshot that it loads. -/
structure Portable (bytes : Bytes) : Prop where
  length : 20 ≤ bytes.length
  magic : bytes.take 8 = magic
  version : getLe ((bytes.drop 8).take 4) = portableIndexVersion
  checksum : getLe (bytes.drop (bytes.length - 8)) = (bodyChecksum (bytes.take (bytes.length - 8))).toNat
  manifest : ∃ s' s'', getScalar 8 (bytes.drop 12) = .ok (manifestMagic, s') ∧ getScalar 4 s' = .ok (manifestSchema, s'')

theorem loadSnapshot_portable {world : World} {expected : CacheManifest} {aware : Bool} {bytes : Bytes} {I : IndexData}
    (h : loadSnapshot world expected aware bytes = .ok I) (hver : getLe ((bytes.drop 8).take 4) = portableIndexVersion) :
    Portable bytes := by
  unfold loadSnapshot at h
  split at h
  · cases h
  split at h
  · cases h
  split at h
  · cases h
  rename_i hmagic
  dsimp only at h
  rw [if_pos hver] at h
  split at h
  · cases h
  rename_i hlen
  split at h
  · cases h
  rename_i hsum
  cases hget : getSnapshot world expected aware true false (bytes.drop 12) with
  | error e =>
    rw [hget] at h
    cases h
  | ok r => exact ⟨Nat.le_of_not_lt hlen, not_not.1 hmagic, hver, not_not.1 hsum, getSnapshot_portable hget⟩

theorem loadSnapshot_legacy {world : World} {expected : CacheManifest} {aware : Bool} {bytes : Bytes} {I : IndexData}
    (h : loadSnapshot world expected aware bytes = .ok I) (hver : getLe ((bytes.drop 8).take 4) ≠ portableIndexVersion) :
    ∃ persisted r, getSnapshot world expected aware false persisted (bytes.drop 12) = .ok r := by
  unfold loadSnapshot at h
  split at h
  · cases h
  split at h
  · cases h
  split at h
  · cases h
  dsimp only at h
  rw [if_neg hver] at h
  split at h
  · cases hget : getSnapshot world expected aware false (decide (getLe ((bytes.drop 8).take 4) = 6)) (bytes.drop 12) with
    | error e =>
      rw [hget] at h
      cases h
    | ok r => exact ⟨_, r, hget⟩
  · cases h

section
variable {bytes : Bytes} {i : Nat} {b : UInt8} (h : Portable bytes)
include h

/-- **One byte of a portable snapshot follows from the others.** -/
theorem Portable.byte_unique (hset : Portable (bytes.set i b)) (hi : i < bytes.length) : b = bytes[i] := by
  by_contra hne
  have hlen := h.length
  have hsum := hset.checksum
  rw [List.length_set] at hsum
  rcases Nat.lt_or_ge i 8 with h8 | h8
  · -- in the magic
    have hmagic := hset.magic
    rw [List.take_set, ← h.magic] at hmagic
    exact set_ne (by rw [List.length_take]; omega) (by rwa [List.getElem_take]) hmagic
  rcases Nat.lt_or_ge i 12 with h12 | h12
  · -- in the version
    have hver := hset.version
    rw [← h.version, List.drop_set, if_neg (Nat.not_lt.2 h8), List.take_set] at hver
    refine set_ne (s := (bytes.drop 8).take 4) (i := i - 8) (by rw [List.length_take, List.length_drop]; omega) ?_
      (getLe_inj List.length_set hver)
    rw [List.getElem_take, List.getElem_drop]
    simpa [Nat.add_sub_cancel' h8] using hne
  rcases Nat.lt_or_ge i (bytes.length - 8) with hbody | htrail
  · -- in what the checksum covers
    rw [List.drop_set, if_pos hbody, h.checksum, List.take_set] at hsum
    refine bodyChecksum_set_ne h12 (by rw [List.length_take]; omega) ?_ (UInt64.toNat_inj.1 hsum).symm
    rwa [List.getElem_take]
  · -- in the checksum
    rw [List.take_set_of_le htrail, ← h.checksum, List.drop_set, if_neg (Nat.not_lt.2 htrail)] at hsum
    refine set_ne (s := bytes.drop (bytes.length - 8)) (i := i - (bytes.length - 8)) (by rw [List.length_drop]; omega) ?_
      (getLe_inj List.length_set hsum)
    rw [List.getElem_drop]
    simpa [Nat.add_sub_cancel' htrail] using hne

end

/-- A snapshot with one byte changed is refused, over whatever tree and with whatever manifest expected. -/
theorem Portable.tamper {bytes : Bytes} (h : Portable bytes) {i : Nat} {b : UInt8} (hi : i < bytes.length) (hne : b ≠ bytes[i])
    {world : World} {expected : CacheManifest} {aware : Bool} {J : IndexData} :
    loadSnapshot world expected aware (bytes.set i b) ≠ .ok J := fun hload => by
  by_cases hver : getLe (((bytes.set i b).drop 8).take 4) = portableIndexVersion
  · exact hne (h.byte_unique (loadSnapshot_portable hload hver) hi)
  · -- the byte is one of the version: what follows is a manifest of another schema
    have h12 : i < 12 := by
      by_contra hge
      refine hver ?_
      rw [List.drop_set, if_neg (by omega), List.take_set_of_le (by omega)]
      exact h.version
    obtain ⟨persisted, r, hget⟩ := loadSnapshot_legacy hload hver
    rw [List.drop_set, if_pos h12] at hget
    obtain ⟨s', s'', hmarker, hschema⟩ := h.manifest
    exact getSnapshot_legacy hmarker hschema r hget

/-- **A portable snapshot that loads is protected in every byte**: with any one of them changed it does not load, over whatever
tree and with whatever manifest expected. -/
theorem loadImpl_tamper {world world' : World} {dir : Dir} {file : Place} {expected expected' : CacheManifest}
    {aware aware' : Bool} {I : IndexData} {bytes : Bytes} (h : loadImpl world dir file expected aware = .ok I)
    (htarget : dir file.name = some bytes) (hver : getLe ((bytes.drop 8).take 4) = portableIndexVersion) {i : Nat} {b : UInt8}
    (hi : i < bytes.length) (hne : b ≠ bytes[i]) :
    ∃ e, loadImpl world' (Function.update dir file.name (some (bytes.set i b))) file expected' aware' = .error e := by
  unfold loadImpl cleanupOrphans at h ⊢
  rw [htarget] at h
  rw [Function.update_self]
  cases horphan : file.orphan file.name with
  | true =>
    rw [horphan] at h
    cases h
  | false =>
    rw [horphan, if_neg Bool.false_ne_true] at h
    rw [if_neg Bool.false_ne_true]
    cases hload : loadSnapshot world' expected' aware' (bytes.set i b) with
    | error e => exact ⟨e, hload⟩
    | ok J => exact absurd hload ((loadSnapshot_portable h hver).tamper hi hne)

/-- The last byte of the version made that of the legacy format 6. -/
theorem loadImpl_tamper_version : ∃ I dir bytes, build plainTree { persistCorpus := true } = .ok I ∧
    save (onlyTree plainTree) [49] (fun _ => none) { name := [105] } I = .ok dir ∧ dir [105] = some bytes ∧
      ∃ e, loadImpl (onlyTree plainTree) (Function.update dir [105] (some (bytes.set 8 6))) { name := [105] } {} false =
        .error e := by
  obtain ⟨I, hI⟩ := (@build_ok plainTree { persistCorpus := true } (by decide)).2 (by decide)
  have hs := save_eq (build_stored hI) (build_built hI).2.2.2.2.1 (onlyTree plainTree) [49] (fun _ => none) { name := [105] }
  obtain ⟨J, hJ, -⟩ := (roundTrip_iff (by unfold Tree.Posix; decide) hI (if_pos rfl) hs).2 (plain_loadable hI)
  have htarget : saved (onlyTree plainTree) [49] (fun _ => none) { name := [105] } I {} [105] =
      some (snapshotBody (manifestOf (onlyTree plainTree) I {}) I ++ trailer (snapshotBody (manifestOf (onlyTree plainTree) I {}) I)) := by
    rw [saved]
    exact Function.update_self _ _ _
  have h7 : (6 : UInt8) ≠ 7 := by decide
  exact ⟨I, _, _, hI, hs, htarget, loadImpl_tamper hJ htarget rfl (Nat.lt_of_sub_ne_zero nofun) h7⟩

end Pergrep
