import Spkdfs.Common.StorageType

namespace Spkdfs

structure Inode where
  fullpath : FullPath
  isDirectory : Bool := false
  filesize : Nat := 0
  storageType : Option StorageType := none
  sub : List Str := []
  /-- The constructor leaves this one unset; no function reads it before it is assigned. -/
  valid : Bool := false
  ddlLock : Nat := 0
  aggInodeId : Str := []
deriving DecidableEq

def lockRefreshInterval : Nat := 60

namespace Inode

def ofPath (path : Str) : Inode := { fullpath := .ofStr path }

/-- `now` is what `get_time` returns, in seconds. -/
def lock (inode : Inode) (now : Nat) : Except Fault Inode :=
  if inode.ddlLock ≥ now then
    throw (.message .expectedLockConflict (inode.fullpath.str ++
      " file is being edit! ddl_lock: ".toList ++ toText inode.ddlLock ++
      ", now: ".toList ++ toText now))
  else
    return { inode with ddlLock := now + lockRefreshInterval }

def unlock (inode : Inode) : Inode := { inode with ddlLock := 0 }

def updateDdlLock (inode : Inode) (now : Nat) : Inode :=
  { inode with ddlLock := now + lockRefreshInterval }

def filename (inode : Inode) : Str :=
  Spkdfs.filename inode.fullpath.str ++ if inode.isDirectory then ['/'] else []

def parentPath (inode : Inode) : Str := getParentPath inode.fullpath.str

def getDefaultDir (path : Str) : Inode :=
  { ofPath path with isDirectory := true, valid := true }

def getBlockSize (inode : Inode) : Int := inode.storageType.elim 0 StorageType.getBlockSize

theorem getBlockSize_lt (inode : Inode) : inode.getBlockSize < 2 ^ 31 := by
  rw [getBlockSize]
  cases inode.storageType with
  | none => decide
  | some storage => exact storage.getBlockSize_lt

theorem fullpath_ofPath (path : Str) : (ofPath path).fullpath = .ofStr path := rfl

theorem fullpath_getDefaultDir (path : Str) :
    (getDefaultDir path).fullpath = .ofStr path := rfl

theorem lock_eq_ok {inode j : Inode} {now : Nat} :
    inode.lock now = .ok j ↔
      inode.ddlLock < now ∧ j = { inode with ddlLock := now + lockRefreshInterval } := by
  by_cases h : inode.ddlLock < now
  · rw [lock, if_neg (by omega), pure_eq_ok, Except.ok.injEq]
    exact ⟨fun he ↦ ⟨h, he.symm⟩, fun he ↦ he.2.symm⟩
  · rw [lock, if_pos (by omega), throw_eq_error]
    exact ⟨fun he ↦ (nomatch he), fun he ↦ absurd he.1 h⟩

theorem parentPath_eq (inode : Inode) : inode.parentPath = inode.fullpath.parent.str := rfl

end Inode

/-- The fields of `FileInfo` that are serialized. -/
structure FileInfo where
  path : Str
  size : Nat
  pos : Int × Int
deriving DecidableEq

structure AggInode where
  id : Str
  files : List FileInfo
  aggregateSize : Nat
  valid : List Bool
  validCount : Int
deriving DecidableEq

namespace AggInode

def setFileUnValid (agg : AggInode) (index : Nat) : AggInode :=
  if index < agg.valid.length then
    { agg with valid := agg.valid.set index false, validCount := agg.validCount - 1 }
  else agg

end AggInode

structure SnowflakeIDGenerator where
  machineId : Int
  sequence : Nat := 0
  lastTimestamp : Int := -1
deriving DecidableEq

namespace SnowflakeIDGenerator

def epoch : Int := 1609459200000
def sequenceMask : Nat := 4095

/-- The `long` that `generateID` prints; shifts and unions act on its 64 bits. -/
def id (machineId : Int) (timestamp : Int) (sequence : Nat) : BitVec 64 :=
  (BitVec.ofInt 64 (timestamp - epoch) <<< 22) ||| BitVec.ofInt 64 (machineId * 4096) |||
    BitVec.ofNat 64 sequence

/-- `reading` is the first value of `currentMillis` and `later` the one at which the loop
of `waitForNextMillis` ends, if it is entered. -/
def generateID (g : SnowflakeIDGenerator) (reading later : Int) : Str × SnowflakeIDGenerator :=
  let sequence := if reading = g.lastTimestamp then (g.sequence + 1) &&& sequenceMask else 0
  let timestamp := if reading = g.lastTimestamp ∧ sequence = 0 then later else reading
  (Nat.toDigits 16 (id g.machineId timestamp sequence).toNat,
    { g with sequence := sequence, lastTimestamp := timestamp })

end SnowflakeIDGenerator

theorem slash_notMem_toDigits (n : Nat) : '/' ∉ Nat.toDigits 16 n := by
  induction n using Nat.strongRecOn with
  | ind n ih =>
    have hlt : ∀ d < 16, '/' ≠ Nat.digitChar d := by decide
    rw [Nat.toDigits_eq_if (by decide)]
    split
    · rename_i h
      exact fun hm ↦ hlt n h (List.mem_singleton.mp hm)
    · rename_i h
      have hq : n / 16 < n := by omega
      have hr : n % 16 < 16 := by omega
      simp only [List.mem_append, List.mem_singleton, not_or]
      exact ⟨ih _ hq, hlt _ hr⟩

theorem slash_notMem_generateID (g : SnowflakeIDGenerator) (reading later : Int) :
    '/' ∉ (g.generateID reading later).1 := slash_notMem_toDigits _

end Spkdfs
