import Spkdfs.Client.Local

namespace Spkdfs

open Library Function

/-- What a method of an `SDK` works on: the master namenode, the number of log entries its
slave namenode has applied, and the instance itself. -/
structure View where
  leader : Leader
  progress : Nat
  sdk : SDK

abbrev Method := Procedure View Fault

/-- What `encode_one_block` and `decode_one_block` return while a method runs. -/
structure Datanodes where
  encode : Option StorageType → Str → Except Fault Str
  decode : Option StorageType → Str → Except Fault Str

def Datanodes.byContent : Datanodes :=
  ⟨fun _ block ↦ .ok ("10.0.0.2:8002|".toList ++ block), fun _ s ↦ .ok (s.drop 14)⟩

/-- What happens elsewhere while `open` runs: the steps of the leader while it waits for
`update_lock`, the progress of the slave when it is asked, and the steps of the leader while
it waits for the `put_ok` of a truncation. The local files can fail too: with an error that keeps
`mkdir_f` from making the directory of the file, or the directory `write` in it, or with a stale
block file that `remove_all` cannot remove, after the number it has removed. -/
structure Waits where
  lock : List Action := []
  seen : Nat
  truncate : List Action := []
  mkdir : Option Str := none
  mkdirWrite : Option Str := none
  removeAll : Option (Nat × Str) := none
deriving DecidableEq

/-- An inode committed by `fsync`, and the indices of the blocks it wrote. -/
structure Commit where
  inode : Inode
  blocks : List Nat
deriving DecidableEq

/-- The bits of the flags of `open`. -/
def oRdonly : Nat := 0
def oAccmode : Nat := 3
def oWronly : Nat := 1
def oCreat : Nat := 64
def oTrunc : Nat := 512

def writeMode (flags : Nat) : Bool := flags &&& oAccmode ≠ oRdonly

def failResponse : Fault → Fault
  | .runtime what | .invalidArgument what | .outOfRange what => .message .commonException what
  | fault => fault

namespace SDK

def rpc (req : Request) (during : List Action) : Method Entry :=
  .of fun v ↦ (v.leader.rpc req during).map fun (r, leader) ↦
    (r.mapError failResponse, { v with leader })

def modifySDK (f : SDK → SDK) : Method Unit := modify fun v ↦ { v with sdk := f v.sdk }

def dir (s : SDK) (path : Str) : TmpDir := (s.dirs (s.tmpPath path)).getD {}

def modifyDir (path : Str) (f : TmpDir → TmpDir) : Method Unit :=
  modifySDK fun s ↦ { s with dirs := update s.dirs (s.tmpPath path) (some (f (s.dir path))) }

def getTmpWritePath (s : SDK) (path : Str) : Str := s.tmpPath path ++ "/write".toList

def getTmpIndexPath (s : SDK) (path : Str) (index : Nat) : Str :=
  s.tmpPath path ++ '/' :: toText index

def linkPath (s : SDK) (path : Str) (index : Nat) : Str :=
  s.getTmpWritePath path ++ '/' :: toText index

/-- The directory and all above it. `error` is the message of the error code, if there is one. -/
def mkdirF (dir : Str) (error : Option Str) : Method Unit :=
  match error with
  | some message => throw (.runtime ("mkdir error: ".toList ++ dir ++ message))
  | none => pure ()

/-- `read_lock` of a link or `write_lock` of a block file. One that has to wait for a lock which an
exception has left held does not return; here it goes on, next to the calls that do. -/
def hold (key : Str) : Method Unit :=
  modifySDK fun s ↦ { s with held := update s.held key (s.held key + 1) }

def release (key : Str) : Method Unit :=
  modifySDK fun s ↦ { s with held := update s.held key (s.held key - 1) }

def acquire (lock : PathLocks → Str → Option PathLocks) (path : Str) : Method Unit :=
  .of fun v ↦ (lock v.sdk.pathlocks (v.sdk.tmpPath path)).map fun pathlocks ↦
    (.ok (), { v with sdk := { v.sdk with pathlocks } })

def readLock (path : Str) : Method Unit := acquire PathLocks.readLock path

/-- The insertion in an ordered `std::set`. -/
def insertLock (path : Str) (locks : List Str) : List Str :=
  locks.filter (· < path) ++ path :: locks.filter (path < ·)

def lockRemote (path : Str) (during : List Action) : Method Unit := do
  let _ ← rpc (.updateLock [path]) during
  modifySDK fun s ↦ { s with remoteLocks := insertLock path s.remoteLocks }

def writeLock (path : Str) (during : List Action) : Method Unit := do
  acquire PathLocks.writeLock path
  lockRemote path during

def unlock (path : Str) : Method Unit :=
  modifySDK fun s ↦
    { s with
      remoteLocks := s.remoteLocks.filter (· ≠ path)
      pathlocks := s.pathlocks.unlock (s.tmpPath path) }

def getInode (path : Str) : Method Inode := do
  match (← get).sdk.cache path with
  | none => throw (.runtime "cannot find inode in local_inode_cache".toList)
  | some inode => return inode

def setCache (path : Str) (inode : Option Inode) : Method Unit :=
  modifySDK fun s ↦ { s with cache := update s.cache path inode }

/-- The slave has applied `seen` entries of the log when it answers. -/
def getRemoteInode (path : Str) (seen : Nat) : Method Inode :=
  .of fun v ↦
    if v.progress ≤ seen ∧ seen ≤ v.leader.applied.length then
      (v.leader.replica seen).map fun db ↦
        ((Namenode.ls db path).mapError failResponse, { v with progress := seen })
    else none

def staleBlocks (cached remote : Inode) : List Nat :=
  (List.range cached.sub.length).filter fun i ↦ cached.sub[i]? ≠ remote.sub[i]?

def removeBlocks (path : Str) (blocks : List Nat) (error : Option (Nat × Str)) : Method Unit :=
  match error with
  | some (removed, message) => do
    modifyDir path (·.removeAll (blocks.take removed))
    throw (.runtime message)
  | none => modifyDir path (·.removeAll blocks)

def updateInode (path : Str) (seen : Nat) (error : Option (Nat × Str)) : Method Unit := do
  -- `operator[]` makes an entry, which stays when the slave refuses the path
  let cached := ((← get).sdk.cache path).getD (.ofPath [])
  setCache path (some cached)
  let remote ← getRemoteInode path seen
  removeBlocks path (staleBlocks cached remote) error
  setCache path (some remote)

/-- The `put_ok` of `_truncate`. Without a block size the division ends the process. -/
def truncateRequest (path : Str) (inode : Inode) (size : Nat) : Option NNPutOKRequest :=
  let count := (alignUp (toInt32 size) inode.getBlockSize).toNat
  if inode.getBlockSize = 0 ∨ inode.sub.length < count then none
  else some ⟨path, size, inode.sub.take count⟩

def _truncate (path : Str) (size : Nat) (during : List Action) : Method Unit := do
  let inode ← getInode path
  if inode.filesize = size then return
  match truncateRequest path inode size with
  | none => .stuck
  | some request => do
    let _ ← rpc (.putOk request) during
    unlock path

/-- `put` of an empty file: it throws before it asks a namenode, since a mapping of length 0
is refused. -/
def _create : Method Unit := throw (.runtime "Failed to create anonymous mmap".toList)

def openLock (path : Str) (flags : Nat) (waits : Waits) : Method Unit := do
  if writeMode flags then
    writeLock path waits.lock
    mkdirF ((← get).sdk.getTmpWritePath path) waits.mkdirWrite
    modifyDir path (·.clearWrite)
  else
    readLock path

def openInode (path : Str) (flags : Nat) (waits : Waits) : Method Unit := do
  updateInode path waits.seen waits.removeAll
  if flags &&& oTrunc ≠ 0 then _truncate path 0 waits.truncate

def «open» (path : Str) (flags : Nat) (waits : Waits) : Method Unit := do
  if flags &&& oCreat ≠ 0 then _create
  mkdirF ((← get).sdk.tmpPath path) waits.mkdir
  modifyDir path id
  openLock path flags waits
  openInode path flags waits

/-- The size is not passed on. -/
def truncate (path : Str) (_size : Nat) (waits : Waits) : Method Unit := do
  «open» path (oWronly ||| oTrunc) waits
  unlock path

def getIndexs (inode : Inode) (offset size : Nat) : Int × Int :=
  (alignIndexDown (toInt32 offset) inode.getBlockSize,
    alignIndexUp (toInt32 ((offset + size : Nat) : Int)) inode.getBlockSize)

/-- The part of `read_data` under the lock of the block file, which an exception leaves locked. -/
def fillBlock (path : Str) (index : Nat) (decoded : Except Fault Str) : Method Unit := do
  let s := (← get).sdk
  let tmpPath := s.getTmpIndexPath path index
  hold tmpPath
  if (s.dirs (s.tmpPath path)).isNone then throw (.runtime ("openfile error:".toList ++ tmpPath))
  else do
    modifyDir path (·.save index [])
    match decoded with
    | .error fault => throw fault
    | .ok block => do
      modifyDir path (·.save index block)
      release tmpPath

/-- `read_data` of one block, as far as it fills the block file. It goes by the path of the
inode, and finds nothing to read beyond the end of `sub`. -/
def fetchBlock (inode : Inode) (index : Int) (nodes : Datanodes) : Method Unit := do
  let path := inode.fullpath.str
  let s := (← get).sdk
  if index < 0 then .stuck
  else
    match inode.sub[index.toNat]? with
    | none => return
    | some blks =>
      if ((s.dir path).read index.toNat).any (· ≠ []) then return
      else fillBlock path index.toNat (nodes.decode inode.storageType blks)

def blockPart (offset size blockSize : Nat) (indexs : Int × Int) (index : Int) : Nat × Nat :=
  (if index = indexs.1 then offset % blockSize else 0,
    if index = indexs.2 - 1 then (offset + size) % 2 ^ 64 % blockSize else blockSize)

/-- The loop of `write_data`: the part of each block that is written, then the hard link. A
part that ends before it begins, or beyond the data, is no valid range. -/
def writeBlocks (path : Str) (offset size blockSize : Nat) (indexs : Int × Int) :
    List Int → Str → Method Unit
  | [], _ => return
  | index :: rest, data => do
    let s := (← get).sdk
    let (left, right) := blockPart offset size blockSize indexs index
    if right < left ∨ data.length < right - left then .stuck
    else if (s.dirs (s.tmpPath path)).isNone then
      throw (.runtime ("failed to write data to ".toList ++ s.tmpPath path ++
        '/' :: toText (toUInt32 index)))
    else do
      let written := (s.dir path).append (toUInt32 index) (data.take (right - left))
      modifyDir path fun _ ↦ written
      match written.lnPathIndex (toUInt32 index) with
      | none => throw (.runtime "filesystem error: cannot create hard link".toList)
      | some linked => do
        modifyDir path fun _ ↦ linked
        writeBlocks path offset size blockSize indexs rest (data.drop (right - left))

def writeData (path : Str) (offset : Nat) (data : Str) (nodes : Datanodes) : Method Unit := do
  let inode ← getInode path
  let size := data.length
  let blockSize := toUInt64 inode.getBlockSize
  let indexs := getIndexs inode offset size
  let fetch (needed : Prop) [Decidable needed] (index : Int) : Method Unit :=
    if needed then fetchBlock inode index nodes else pure ()
  if inode.getBlockSize = 0 then .stuck
  else do
    fetch (offset < inode.filesize ∧ offset % blockSize ≠ 0) indexs.1
    fetch ((offset + size) % 2 ^ 64 < inode.filesize ∧ indexs.1 ≠ indexs.2 - 1 ∧
      (offset + size) % 2 ^ 64 % blockSize ≠ 0) (indexs.2 - 1)
    let count := (indexs.2 - indexs.1).toNat
    writeBlocks path offset size blockSize indexs ((List.range count).map (indexs.1 + ·)) data

/-- What the loop of `fsync` does with a block. One whose upload throws stays in the directory
`write`, and its link stays locked; it is the same when the link cannot be removed. -/
def uploadBlock (path : Str) (index : Nat) (encoded : Except Fault Str) : Method Str := do
  let indexFilePath := (← get).sdk.linkPath path index
  hold indexFilePath
  match encoded with
  | .error fault => throw fault
  | .ok s => do
    modifyDir path (·.removeWrite index)
    release indexFilePath
    return s

/-- The loop of `fsync`. -/
def encodeBlocks (path : Str) (nodes : Datanodes) (storage : Option StorageType) :
    List (Nat × Str) → List Str → Method (List Str)
  | [], sub => return sub
  | (index, block) :: rest, sub => do
    let s ← uploadBlock path index (nodes.encode storage block)
    encodeBlocks path nodes storage rest (sub.set index s)

def resize (sub : List Str) (n : Nat) : List Str := sub ++ List.replicate (n - sub.length) []

def writtenSize (inode : Inode) (last : Nat) (block : Str) : Nat :=
  max inode.filesize
    ((last * toUInt64 inode.getBlockSize + toUInt64 (toInt32 block.length)) % 2 ^ 64)

def dirtyBlocks (d : TmpDir) : List (Nat × Str) :=
  (d.listWrite.insertionSort (· ≤ ·)).map fun index ↦ (index, d.readWrite index)

/-- The result is what is committed, if anything is. -/
def fsync (path : Str) (nodes : Datanodes) (during : List Action) : Method (Option Commit) := do
  let blocks := dirtyBlocks ((← get).sdk.dir path)
  if blocks.any (2 ^ 31 ≤ ·.1) then throw (.outOfRange "stoi".toList)
  else
    match blocks.getLast? with
    | none => return none
    | some (last, block) => do
      let inode ← getInode path
      let sub ← encodeBlocks path nodes inode.storageType blocks (resize inode.sub (last + 1))
      -- the size passes through an `int` on its way into the request
      let filesize := toUInt64 (toInt32 (writtenSize inode last block))
      match ← rpc (.putOk ⟨path, filesize, sub⟩) during with
      | .opPutOk committed => return some ⟨committed, blocks.map (·.1)⟩
      | _ => return none

def close (path : Str) (nodes : Datanodes) (during : List Action) : Method (Option Commit) := do
  let commit ← fsync path nodes during
  setCache path none
  unlock path
  return commit

end SDK

end Spkdfs
