import Spkdfs.Client.Transfer
import Spkdfs.Library.Traces

namespace Spkdfs

open Library

/-- What is seen of the methods of a client: a request to the master namenode, with the leader
before and after it, and a local lock that is taken or released. -/
inductive Mark
  | request (req : Request) (before after : Leader)
  | acquired (path : Str)
  | released (path : Str)

abbrev TracedMethod := Traced View Mark Fault

/-- What a client does with a path between `open` and `close`, and what happens elsewhere. The
`put_ok` of an `fsync` may be `lost`. -/
inductive Access
  | read (offset size : Nat) (nodes : Datanodes)
  | write (offset : Nat) (data : Str) (nodes : Datanodes)
  | fsync (nodes : Datanodes) (during : List Action) (lost : Option Fault)
  | elsewhere (actions : List Action)

/-- What the requests of `open` end with when the namenode does not answer. -/
structure Lost where
  lock : Option Fault := none
  ls : Option Fault := none
  truncate : Option Fault := none

namespace SDK.Trace

/-- A request that is not answered ends with an exception. Whether one of its attempts has arrived
or not, the leader is where its own steps lead. -/
def unanswered (during : List Action) (fault : Fault) : Method Entry :=
  .of fun v ↦ (run Leader.step (fun _ _ ↦ true) v.leader during).map fun leader ↦
    (.error fault, { v with leader })

def request (req : Request) (during : List Action) : Option Fault → Method Entry
  | none => SDK.rpc req during
  | some fault => unanswered during fault

def rpc (req : Request) (during : List Action) (lost : Option Fault) : TracedMethod Entry :=
  .note (request req during lost) fun v _ w ↦ [.request req v.leader w.leader]

def acquire (lock : PathLocks → Str → Option PathLocks) (path : Str) : TracedMethod Unit :=
  .note (SDK.acquire lock path) fun _ _ _ ↦ [.acquired path]

def unlock (path : Str) : TracedMethod Unit :=
  .note (SDK.unlock path) fun _ _ _ ↦ [.released path]

def lockRemote (path : Str) (during : List Action) (lost : Option Fault) :
    TracedMethod Unit := do
  let _ ← rpc (.updateLock [path]) during lost
  .lift (modifySDK fun s ↦ { s with remoteLocks := insertLock path s.remoteLocks })

def writeLock (path : Str) (during : List Action) (lost : Option Fault) :
    TracedMethod Unit := do
  acquire PathLocks.writeLock path
  lockRemote path during lost

def updateInode (path : Str) (seen : Nat) (error : Option (Nat × Str)) (lost : Option Fault) :
    TracedMethod Unit :=
  .lift (match lost with
    | none => SDK.updateInode path seen error
    | some fault => do
      let cached := ((← get).sdk.cache path).getD (.ofPath [])
      setCache path (some cached)
      throw fault)

def _truncate (path : Str) (size : Nat) (during : List Action) (lost : Option Fault) :
    TracedMethod Unit := do
  let inode ← .lift (getInode path)
  if inode.filesize = size then return
  match truncateRequest path inode size with
  | none => .lift .stuck
  | some request => do
    let _ ← rpc (.putOk request) during lost
    unlock path

def openLock (path : Str) (flags : Nat) (waits : Waits) (lost : Lost) : TracedMethod Unit := do
  if writeMode flags then
    writeLock path waits.lock lost.lock
    .lift (mkdirF ((← .lift get).sdk.getTmpWritePath path) waits.mkdirWrite)
    .lift (modifyDir path (·.clearWrite))
  else
    acquire PathLocks.readLock path

def openInode (path : Str) (flags : Nat) (waits : Waits) (lost : Lost) : TracedMethod Unit := do
  updateInode path waits.seen waits.removeAll lost.ls
  if flags &&& oTrunc ≠ 0 then _truncate path 0 waits.truncate lost.truncate

def «open» (path : Str) (flags : Nat) (waits : Waits) (lost : Lost) : TracedMethod Unit := do
  if flags &&& oCreat ≠ 0 then .lift _create
  .lift (mkdirF ((← .lift get).sdk.tmpPath path) waits.mkdir)
  .lift (modifyDir path id)
  openLock path flags waits lost
  openInode path flags waits lost

def truncate (path : Str) (_size : Nat) (waits : Waits) (lost : Lost) : TracedMethod Unit := do
  «open» path (oWronly ||| oTrunc) waits lost
  unlock path

def fsync (path : Str) (nodes : Datanodes) (during : List Action) (lost : Option Fault) :
    TracedMethod (Option Commit) := do
  let blocks := dirtyBlocks ((← .lift get).sdk.dir path)
  if blocks.any (2 ^ 31 ≤ ·.1) then .lift (throw (.outOfRange "stoi".toList))
  else
    match blocks.getLast? with
    | none => return none
    | some (last, block) => do
      let inode ← .lift (getInode path)
      let sub ← .lift <|
        encodeBlocks path nodes inode.storageType blocks (resize inode.sub (last + 1))
      let filesize := toUInt64 (toInt32 (writtenSize inode last block))
      match ← rpc (.putOk ⟨path, filesize, sub⟩) during lost with
      | .opPutOk committed => return some ⟨committed, blocks.map (·.1)⟩
      | _ => return none

def close (path : Str) (nodes : Datanodes) (during : List Action) (lost : Option Fault) :
    TracedMethod (Option Commit) := do
  let commit ← fsync path nodes during lost
  .lift (setCache path none)
  unlock path
  return commit

def elsewhere (actions : List Action) : TracedMethod Unit :=
  .lift (.of fun v ↦ (run Leader.step (fun _ _ ↦ true) v.leader actions).map fun leader ↦
    (.ok (), { v with leader }))

/-- An exception of one call does not keep the client from the next one. -/
def access (path : Str) : Access → TracedMethod Unit
  | .read offset size nodes => .settled (.lift (readData path offset size nodes))
  | .write offset data nodes => .settled (.lift (writeData path offset data nodes))
  | .fsync nodes during lost => .settled (fsync path nodes during lost)
  | .elsewhere actions => elsewhere actions

def accesses (path : Str) : List Access → TracedMethod Unit
  | [] => return
  | a :: rest => do
    access path a
    accesses path rest

section

variable {path : Str} {flags size : Nat} {waits : Waits} {nodes : Datanodes}
  {during : List Action} {req : Request}

@[simp] theorem erase_rpc : (rpc req during none).erase = SDK.rpc req during :=
  Traced.erase_note _ _

@[simp] theorem erase_acquire (lock : PathLocks → Str → Option PathLocks) :
    (acquire lock path).erase = SDK.acquire lock path := Traced.erase_note _ _

@[simp] theorem erase_unlock : (unlock path).erase = SDK.unlock path := Traced.erase_note _ _

@[simp] theorem erase_writeLock : (writeLock path during none).erase = SDK.writeLock path during := by
  simp only [writeLock, lockRemote, Traced.erase_bind, erase_acquire, erase_rpc, Traced.erase_lift]
  rfl

@[simp] theorem erase_truncateTo :
    (_truncate path size during none).erase = SDK._truncate path size during := by
  rw [_truncate, SDK._truncate, Traced.erase_bind, Traced.erase_lift]
  congr 1
  funext inode
  by_cases hsize : inode.filesize = size
  · rw [if_pos hsize, if_pos hsize]
    rfl
  rw [if_neg hsize, if_neg hsize]
  cases truncateRequest path inode size with
  | none => exact Traced.erase_lift _
  | some request =>
    simp only [Traced.erase_bind, erase_rpc, erase_unlock]

@[simp] theorem erase_openLock :
    (openLock path flags waits {}).erase = SDK.openLock path flags waits := by
  rw [openLock, SDK.openLock]
  split
  · simp only [Traced.erase_bind, erase_writeLock, Traced.erase_lift]
  · exact erase_acquire _

@[simp] theorem erase_openInode :
    (openInode path flags waits {}).erase = SDK.openInode path flags waits := by
  rw [openInode, SDK.openInode, Traced.erase_bind, updateInode, Traced.erase_lift]
  congr 1
  funext _
  split
  · exact erase_truncateTo
  · rfl

@[simp] theorem erase_open : (Trace.open path flags waits {}).erase = SDK.open path flags waits := by
  rw [Trace.open, SDK.open]
  split
  · rfl
  · simp only [Traced.erase_bind, Traced.erase_lift, erase_openLock, erase_openInode]

@[simp] theorem erase_truncate :
    (truncate path size waits {}).erase = SDK.truncate path size waits := by
  simp only [truncate, SDK.truncate, Traced.erase_bind, erase_open, erase_unlock]

@[simp] theorem erase_fsync : (fsync path nodes during none).erase = SDK.fsync path nodes during := by
  rw [fsync, SDK.fsync, Traced.erase_bind, Traced.erase_lift]
  congr 1
  funext v
  dsimp only
  split
  · exact Traced.erase_lift _
  cases (dirtyBlocks (v.sdk.dir path)).getLast? with
  | none => rfl
  | some last =>
    simp only [Traced.erase_bind, Traced.erase_lift, erase_rpc]
    congr 1
    funext inode
    congr 1
    funext sub
    congr 1
    funext entry
    cases entry <;> rfl

@[simp] theorem erase_close : (close path nodes during none).erase = SDK.close path nodes during := by
  simp only [close, SDK.close, Traced.erase_bind, erase_fsync, Traced.erase_lift, erase_unlock,
    Traced.erase_pure]

end

end SDK.Trace

end Spkdfs
