import Pergrep.Index.Snapshot
import Pergrep.Lib.PlainText
/-!
# Orphans — what `load` does to the directory of its target

Before the target is opened every regular file beside it that has ".tmp." anywhere in its name is deleted, whichever target it
belongs to and whoever wrote it.  A load is the frame it is meant to be, touching no file but the temporaries its own target's
savers left (`Place.Own`), exactly when no other file of the directory has such a name (`loadImpl_frame_iff`).
-/
namespace Pergrep

open PlainText (decimal)

def pidSuffix (pid : Nat) : Bytes := decimal pid

/-- The name that a `save` in process `pid` gives its temporary. -/
def Place.temporary (p : Place) (pid : Nat) : Bytes := p.name ++ tempPattern ++ pidSuffix pid

/-- A temporary some `save` to this place could have made; a process id is a positive `int`. -/
def Place.Own (p : Place) (name : Bytes) : Prop := ∃ pid, 0 < pid ∧ pid < 2 ^ 31 ∧ name = p.temporary pid

def loadImplDir (world : World) (dir : Dir) (file : Place) (expected : CacheManifest) (manifestAware : Bool) :
    Except Thrown IndexData × Dir :=
  (loadImpl world dir file expected manifestAware, cleanupOrphans file dir)

/-! ## What is taken for an orphan -/

theorem orphan_iff {p : Place} {name : Bytes} : p.orphan name = true ↔ p.parent ≠ [] ∧ tempPattern <:+: name := by
  rw [Place.orphan, Bool.and_eq_true, bne_iff_ne, Substr.findFrom_isSome_iff_infix]

theorem tempPattern_temporary (p : Place) (pid : Nat) : tempPattern <:+: p.temporary pid := ⟨p.name, pidSuffix pid, rfl⟩

/-- **A load reclaims what its target's savers left behind.** -/
theorem cleanupOrphans_temporary {p : Place} (hp : p.parent ≠ []) (dir : Dir) (pid : Nat) :
    cleanupOrphans p dir (p.temporary pid) = none :=
  if_pos (orphan_iff.2 ⟨hp, tempPattern_temporary p pid⟩)

theorem cleanupOrphans_eq_iff {p : Place} {dir : Dir} {name : Bytes} :
    cleanupOrphans p dir name = dir name ↔ dir name = none ∨ p.parent = [] ∨ ¬ tempPattern <:+: name := by
  unfold cleanupOrphans
  split
  · rename_i h
    obtain ⟨hparent, hpattern⟩ := orphan_iff.1 h
    constructor
    · exact fun hnone => Or.inl hnone.symm
    · rintro (hnone | hp | hn)
      · exact hnone.symm
      · exact absurd hp hparent
      · exact absurd hpattern hn
  · rename_i h
    refine iff_of_true rfl (Or.inr ?_)
    by_cases hp : p.parent = []
    · exact Or.inl hp
    · exact Or.inr (fun hpattern => h (orphan_iff.2 ⟨hp, hpattern⟩))

theorem loadImpl_orphan {world : World} {dir : Dir} {file : Place} {expected : CacheManifest} {manifestAware : Bool}
    (hp : file.parent ≠ []) (hname : tempPattern <:+: file.name) :
    loadImpl world dir file expected manifestAware = .error { text := "cannot stat index: ", path := file.path } := by
  unfold loadImpl cleanupOrphans
  rw [if_pos (orphan_iff.2 ⟨hp, hname⟩)]

/-! ## The frame -/

/-- **When a load leaves alone what is not its own**: there is no directory to clean, or each file in it that has ".tmp." in its
name is a temporary of this target. -/
theorem loadImpl_frame_iff (world : World) (dir : Dir) (file : Place) (expected : CacheManifest) (manifestAware : Bool) :
    (∀ name, ¬ file.Own name → (loadImplDir world dir file expected manifestAware).2 name = dir name) ↔
      (file.parent = [] ∨ ∀ name content, dir name = some content → tempPattern <:+: name → file.Own name) := by
  change (∀ name, ¬ file.Own name → cleanupOrphans file dir name = dir name) ↔ _
  constructor
  · intro h
    by_cases hp : file.parent = []
    · exact Or.inl hp
    · refine Or.inr (fun name content hname hpattern => ?_)
      by_contra hown
      rcases cleanupOrphans_eq_iff.1 (h name hown) with hnone | hparent | hno
      · rw [hname] at hnone
        cases hnone
      · exact hp hparent
      · exact hno hpattern
  · intro h name hown
    refine cleanupOrphans_eq_iff.2 ?_
    rcases h with hp | hall
    · exact Or.inr (Or.inl hp)
    · cases hname : dir name with
      | none => exact Or.inl rfl
      | some content => exact Or.inr (Or.inr (fun hpattern => hown (hall name content hname hpattern)))

/-- The directory `d` holds `notes.tmp.txt`, and the index `i` is loaded from it: the notes are gone. -/
theorem not_loadImpl_frame : ∃ (world : World) (dir : Dir) (file : Place) (name : Bytes),
    ¬ file.Own name ∧ name ≠ file.name ∧ dir name = some [104, 105] ∧
      (loadImplDir world dir file {} false).2 name = none := by
  refine ⟨fun _ => none, fun name => if name = PlainText.ascii "notes.tmp.txt" then some [104, 105] else none,
    { parent := [100], name := [105] }, PlainText.ascii "notes.tmp.txt", ?_, by decide, if_pos rfl, by decide⟩
  rintro ⟨pid, -, -, h⟩
  have hhead := congrArg List.head? h
  revert hhead
  change ¬ some (110 : UInt8) = some 105
  decide

end Pergrep
