import Mathlib.Logic.Function.Basic
import Pergrep.Index.Codec
import Pergrep.Lib.Runs
/-!
# Publish — `Index::save` and `Index::load`, step by step

Any number of savers and loaders of one target.  A saver removes its temporary file, creates and writes it, closes it,
hashes it, opens it again in append mode for the checksum and renames it over the target; the temporary's name has
nothing of the saver but its process id.  A loader first deletes whatever has ".tmp." in its name, entry by entry, and
then reads the target.  Names are directory entries, files are inodes: a deleted file lives on for who has it open, and
opening in append mode makes a new one where none is.
-/
namespace Pergrep
namespace Publish

open Runs

/-! ## The parties -/

/-- Where a saver is: what it has open, and what it knows. -/
inductive Phase where
  | idle
  | removed
  | writing (fd off : Nat)
  | closed
  | hashed (checksum : Bytes)
  | reopened (fd : Nat) (checksum : Bytes)
  | appended
  | done (published : Bytes)
  | failed
  | crashed
  deriving DecidableEq, Repr

structure Saver where
  pid : Nat
  body : Bytes
  phase : Phase := .idle
  deriving DecidableEq, Repr

def Phase.active : Phase → Bool
  | .idle | .done _ | .failed | .crashed => false
  | _ => true

def Phase.fd : Phase → Option Nat
  | .writing fd _ | .reopened fd _ => some fd
  | _ => none

/-- The directory, the files, and the parties.  `temp p` is the entry of the temporary of process `p`; a loader is still
cleaning, or has read the target. -/
structure Sys where
  target : Option Nat
  temp : Nat → Option Nat
  inodes : List Bytes
  savers : Nat → Saver
  loaders : Nat → Option (Option Bytes) := fun _ => none
  /-- Whether the target's own name contains ".tmp.". -/
  targetIsTemp : Bool := false

inductive Act where
  | removeTemp (i : Nat)
  | create (i : Nat)
  | write (i n : Nat)
  | close (i : Nat)
  | hash (i : Nat)
  | reopen (i : Nat)
  | append (i : Nat)
  | rename (i : Nat)
  | abort (i : Nat)
  | crash (i : Nat)
  | clean (l p : Nat)
  | cleanTarget (l : Nat)
  | read (l : Nat)
  deriving DecidableEq, Repr

namespace Sys

def inode (s : Sys) (k : Nat) : Bytes := s.inodes.getD k []

def content (s : Sys) : Option Bytes := s.target.map s.inode

def setPhase (s : Sys) (i : Nat) (ph : Phase) : Sys :=
  { s with savers := Function.update s.savers i { s.savers i with phase := ph } }

def unlink (s : Sys) (p : Nat) : Sys := { s with temp := Function.update s.temp p none }

def setInode (s : Sys) (k : Nat) (c : Bytes) : Sys := { s with inodes := s.inodes.set k c }

def newTemp (s : Sys) (p : Nat) : Sys :=
  { s with inodes := s.inodes ++ [[]], temp := Function.update s.temp p (some s.inodes.length) }

def renameTemp (s : Sys) (p k : Nat) : Sys := { s with target := some k, temp := Function.update s.temp p none }

end Sys

/-- A write at an offset; what lies between the end and it reads as zeros. -/
def writeAt (c : Bytes) (off : Nat) (b : Bytes) : Bytes :=
  c.take off ++ List.replicate (off - c.length) 0 ++ b ++ c.drop (off + b.length)

/-- A step of one party; `none` when the party cannot take it. -/
def step (s : Sys) : Act → Option Sys
  | .removeTemp i =>
    if (s.savers i).phase = .idle then some ((s.unlink (s.savers i).pid).setPhase i .removed) else none
  | .create i =>
    if (s.savers i).phase = .removed then
      match s.temp (s.savers i).pid with
      | none => some ((s.newTemp (s.savers i).pid).setPhase i (.writing s.inodes.length 0))
      | some k => some ((s.setInode k []).setPhase i (.writing k 0))
    else none
  | .write i n =>
    match (s.savers i).phase with
    | .writing fd off =>
      let b := ((s.savers i).body.drop off).take n
      some ((s.setInode fd (writeAt (s.inode fd) off b)).setPhase i (.writing fd (off + b.length)))
    | _ => none
  | .close i =>
    match (s.savers i).phase with
    | .writing _ off => if off = (s.savers i).body.length then some (s.setPhase i .closed) else none
    | _ => none
  | .hash i =>
    if (s.savers i).phase = .closed then
      match s.temp (s.savers i).pid with
      | none => some (s.setPhase i .failed)
      | some k =>
        if (s.inode k).length < 12 then some ((s.unlink (s.savers i).pid).setPhase i .failed)
        else some (s.setPhase i (.hashed (trailer (s.inode k))))
    else none
  | .reopen i =>
    match (s.savers i).phase with
    | .hashed checksum =>
      match s.temp (s.savers i).pid with
      | none => some ((s.newTemp (s.savers i).pid).setPhase i (.reopened s.inodes.length checksum))
      | some k => some (s.setPhase i (.reopened k checksum))
    | _ => none
  | .append i =>
    match (s.savers i).phase with
    | .reopened fd checksum => some ((s.setInode fd (s.inode fd ++ checksum)).setPhase i .appended)
    | _ => none
  | .rename i =>
    if (s.savers i).phase = .appended then
      match s.temp (s.savers i).pid with
      | none => some (s.setPhase i .failed)
      | some k => some ((s.renameTemp (s.savers i).pid k).setPhase i (.done (s.inode k)))
    else none
  | .abort i =>
    if (s.savers i).phase.active then some ((s.unlink (s.savers i).pid).setPhase i .failed) else none
  | .crash i => if (s.savers i).phase.active then some (s.setPhase i .crashed) else none
  | .clean l p => if s.loaders l = none then some (s.unlink p) else none
  | .cleanTarget l => if s.loaders l = none ∧ s.targetIsTemp then some { s with target := none } else none
  | .read l =>
    if s.loaders l = none then some { s with loaders := Function.update s.loaders l (some s.content) } else none

end Publish
end Pergrep
