import Mathlib.Data.List.Sort
import Spkdfs.Library.Procedures
import Spkdfs.Node.Replica

namespace Spkdfs

open Library Function

def toInt32 (n : Int) : Int := (BitVec.ofInt 32 n).toInt

def toUInt32 (n : Int) : Nat := (BitVec.ofInt 32 n).toNat

def toUInt64 (n : Int) : Nat := (BitVec.ofInt 64 n).toNat

def alignIndexUp (n alignment : Int) : Int := n.tdiv alignment + 1

def alignIndexDown (n alignment : Int) : Int := n.tdiv alignment

def alignUp (n alignment : Int) : Int := (n + alignment - 1).tdiv alignment

structure SharedMutex where
  writer : Bool := false
  readers : Nat := 0
deriving DecidableEq

namespace SharedMutex

/-- Both ways to lock block as long as they have no result here. -/
def lock (m : SharedMutex) : Option SharedMutex :=
  if m.writer ∨ m.readers ≠ 0 then none else some { m with writer := true }

def lockShared (m : SharedMutex) : Option SharedMutex :=
  if m.writer then none else some { m with readers := m.readers + 1 }

/-- One operation of the underlying `pthread_rwlock_t` releases either kind of lock. -/
def unlock (m : SharedMutex) : SharedMutex :=
  if m.writer then { m with writer := false } else { m with readers := m.readers - 1 }

def unlockShared (m : SharedMutex) : SharedMutex := m.unlock

end SharedMutex

/-- The flag tells in which mode the key was locked when its entry was made. -/
structure PathLock where
  exclusive : Bool
  mutex : SharedMutex
deriving DecidableEq

abbrev PathLocks := Str → Option PathLock

namespace PathLocks

def readLock (locks : PathLocks) (key : Str) : Option PathLocks :=
  let entry := (locks key).getD ⟨false, {}⟩
  entry.mutex.lockShared.map fun mutex ↦ update locks key (some { entry with mutex })

def writeLock (locks : PathLocks) (key : Str) : Option PathLocks :=
  let entry := (locks key).getD ⟨true, {}⟩
  entry.mutex.lock.map fun mutex ↦ update locks key (some { entry with mutex })

def unlock (locks : PathLocks) (key : Str) : PathLocks :=
  match locks key with
  | none => locks
  | some entry =>
    update locks key (some { entry with
      mutex := if entry.exclusive then entry.mutex.unlock else entry.mutex.unlockShared })

end PathLocks

/-- The directory `get_tmp_path` of a file: the block files by their index, and the hard links
of the directory `write` below it. Both name local files, whose contents they share. -/
structure TmpDir where
  content : Nat → Str := fun _ ↦ []
  next : Nat := 0
  files : List (Nat × Nat) := []
  write : Option (List (Nat × Nat)) := none

namespace TmpDir

def read (d : TmpDir) (index : Nat) : Option Str := (d.files.lookup index).map d.content

def save (d : TmpDir) (index : Nat) (s : Str) : TmpDir :=
  match d.files.lookup index with
  | some file => { d with content := update d.content file s }
  | none =>
    { d with
      content := update d.content d.next s
      next := d.next + 1
      files := d.files ++ [(index, d.next)] }

def append (d : TmpDir) (index : Nat) (s : Str) : TmpDir :=
  d.save index ((d.read index).getD [] ++ s)

def removeAll (d : TmpDir) (indices : List Nat) : TmpDir :=
  { d with files := d.files.filter (·.1 ∉ indices) }

/-- `ln_path_index`; there is no result where `create_hard_link` throws. -/
def lnPathIndex (d : TmpDir) (index : Nat) : Option TmpDir :=
  match d.files.lookup index, d.write with
  | some file, some links =>
    some { d with write := some (links.filter (·.1 ≠ index) ++ [(index, file)]) }
  | _, _ => none

def clearWrite (d : TmpDir) : TmpDir := { d with write := some [] }

def listWrite (d : TmpDir) : List Nat := (d.write.getD []).map (·.1)

def readWrite (d : TmpDir) (index : Nat) : Str :=
  (((d.write.getD []).lookup index).map d.content).getD []

def removeWrite (d : TmpDir) (index : Nat) : TmpDir :=
  { d with write := d.write.map (·.filter (·.1 ≠ index)) }

end TmpDir

/-- An `SDK`: the slave namenode it reads from and its local state. `tmpPath` is `get_tmp_path`,
that is the data directory and the MD5 sum of the path.

`pathlocks` has the locks of these directories. Those of the block files and links in them never have
the same key; they are locked in one mode only, and `held` counts the locks that are not released.
`deleted` stands for the null pointer that a `FUSE` has in its place after a `reinit` in vain. -/
structure SDK where
  slave : Nat
  tmpPath : Str → Str
  pathlocks : PathLocks := fun _ ↦ none
  held : Str → Nat := fun _ ↦ 0
  remoteLocks : List Str := []
  cache : Str → Option Inode := fun _ ↦ none
  dirs : Str → Option TmpDir := fun _ ↦ none
  deleted : Bool := false

/-- A new instance; each path stands for its own MD5 sum. -/
def SDK.new (slave : Nat) : SDK := { slave, tmpPath := ("/data/fuse/".toList ++ ·) }

end Spkdfs
