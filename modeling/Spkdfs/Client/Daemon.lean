import Spkdfs.Client.Transfer

namespace Spkdfs

open Library Procedure Function

inductive UploadStatus
  | waiting
  | dataUploading
  | metaUploading
  | canceled
  | finished
deriving DecidableEq

/-- The two queues of the daemon, as `belong_que` points to them. -/
inductive QueueName
  | smallFile
  | bigFile
deriving DecidableEq

/-- The constructor leaves `uploadStatus` unset; `push_back` assigns it. -/
structure UploadTask where
  localPath : Str
  remotePath : Str
  size : Nat := 0
  storageType : Str := []
  belongQue : Option QueueName := none
  uploadStatus : UploadStatus := .waiting
deriving DecidableEq

/-- Tasks are told by their number. The map goes by the parent and the name of a remote path. -/
structure UploadQueue where
  capacity : Nat := 2 ^ 64 - 1
  que : List Nat := []
  map : Str → Str → Option Nat := fun _ _ ↦ none

namespace UploadQueue

def popFront (q : UploadQueue) : Option (Nat × UploadQueue) :=
  match q.que with
  | [] => none
  | task :: rest => some (task, { q with que := rest })

def pushBack (q : UploadQueue) (task : Nat) (remotePath : Str) : Except Fault UploadQueue :=
  if q.capacity ≤ q.que.length then throw (.runtime "full".toList)
  else return { q with
    que := q.que ++ [task]
    map := update q.map (getParentPath remotePath)
      (update (q.map (getParentPath remotePath)) (filename remotePath) (some task)) }

/-- The loop of `get_until_size`: the tasks taken, and those that stay. -/
def takeUntilSize (size : Nat → Nat) (limit : Nat) : Nat → List Nat → List Nat × List Nat
  | _, [] => ([], [])
  | sum, task :: rest =>
    if (sum + size task) % 2 ^ 64 < limit then
      let (taken, left) := takeUntilSize size limit ((sum + size task) % 2 ^ 64) rest
      (task :: taken, left)
    else ([], task :: rest)

def getUntilSize (q : UploadQueue) (size : Nat → Nat) (limit : Nat) : List Nat × UploadQueue :=
  let (taken, left) := takeUntilSize size limit 0 q.que
  (taken, { q with que := left })

def currentAllSmallfileSize (q : UploadQueue) (size : Nat → Nat) : Nat :=
  (q.que.map size).sum % 2 ^ 64

def findInMap (q : UploadQueue) (path : Str) : Option Nat :=
  q.map (getParentPath path) (filename path)

end UploadQueue

/-- The tasks made so far and the two queues. -/
structure Uploads where
  tasks : List UploadTask := []
  smallFileQue : UploadQueue := {}
  bigFileQue : UploadQueue := {}

namespace Uploads

def queue (u : Uploads) : QueueName → UploadQueue
  | .smallFile => u.smallFileQue
  | .bigFile => u.bigFileQue

def setQueue (u : Uploads) (q : UploadQueue) : QueueName → Uploads
  | .smallFile => { u with smallFileQue := q }
  | .bigFile => { u with bigFileQue := q }

def size (u : Uploads) (task : Nat) : Nat := (u.tasks[task]?.map (·.size)).getD 0

def status (u : Uploads) (task : Nat) : Option UploadStatus := u.tasks[task]?.map (·.uploadStatus)

def setStatus (u : Uploads) (task : Nat) (status : UploadStatus) : Uploads :=
  { u with tasks := u.tasks.modify task fun t ↦ { t with uploadStatus := status } }

/-- The status of whatever task the map of the queue has for the path. -/
def changeStatus (u : Uploads) (name : QueueName) (path : Str) (status : UploadStatus) : Uploads :=
  match (u.queue name).findInMap path with
  | none => u
  | some task => u.setStatus task status

/-- `push_back`, which also assigns to the task. -/
def pushBack (u : Uploads) (name : QueueName) (task : Nat) : Except Fault Uploads := do
  match u.tasks[task]? with
  | none => throw .assertion
  | some t =>
    let q ← (u.queue name).pushBack task t.remotePath
    return { u.setQueue q name with
      tasks := u.tasks.set task { t with uploadStatus := .waiting, belongQue := some name } }

/-- `UploadQueue::rm`: what is being committed is not cancelled any more. -/
def rm (u : Uploads) (name : QueueName) (path : Str) : Uploads :=
  match (u.queue name).findInMap path with
  | none => u
  | some task =>
    if u.status task = some .waiting ∨ u.status task = some .dataUploading then
      u.setStatus task .canceled
    else u

def canceled (u : Uploads) (task : Option Nat) : Bool :=
  task.any fun task ↦ u.status task = some .canceled

end Uploads

/-- A client with a daemon: the SDK, and the uploads of the daemon. -/
structure Client where
  view : View
  uploads : Uploads

abbrev ClientMethod := Procedure Client Fault

/-- A file of an aggregate that is to be uploaded, with the task it carries, if any. -/
structure AggFile extends FileInfo where
  task : Option Nat := none
deriving DecidableEq

/-- What happens elsewhere while an aggregate is uploaded: the steps of the leader at each request,
and the paths that the daemon's `rm` cancels before the second check. -/
structure AggWaits where
  putBatch : List Action
  locks : List (List Action)
  rms : List Str
  rmRemote : List (List Action)
  putOkBatch : List Action
deriving DecidableEq

/-- `std::to_string` of an `int`. -/
def intText (n : Int) : Str := if n < 0 then '-' :: toText n.natAbs else toText n.natAbs

namespace Client

def sdk {α : Type} (x : Method α) : ClientMethod α :=
  .of fun c ↦ (x.run c.view).map fun (r, view) ↦ (r, { c with view })

/-- A request whose answer is looked at later. -/
def attempt {α : Type} (x : Method α) : ClientMethod (Except Fault α) :=
  .of fun c ↦ (x.run c.view).map fun (r, view) ↦ (.ok r, { c with view })

def modifyUploads (f : Uploads → Uploads) : ClientMethod Unit :=
  modify fun c ↦ { c with uploads := f c.uploads }

/-- `task_ptr->belong_que->change_status`. -/
def changeStatus (task : Nat) (path : Str) (status : UploadStatus) : ClientMethod Unit := do
  match (← get).uploads.tasks[task]?.bind (·.belongQue) with
  | none => .stuck
  | some name => modifyUploads (·.changeStatus name path status)

def changeStatusIf (task : Option Nat) (path : Str) (status : UploadStatus) : ClientMethod Unit :=
  match task with
  | none => return
  | some task => changeStatus task path status

def lockFiles : List AggFile → List (List Action) → ClientMethod Unit
  | [], _ => return
  | file :: files, waits => do
    let _ ← sdk (SDK.rpc (.updateLock [file.path]) (waits.headD []))
    lockFiles files waits.tail

/-- The sub of a file is that of its aggregate, with its range. -/
def memberRequest (res : Str) (file : AggFile) : NNPutOKRequest :=
  ⟨file.path, file.size,
    [res ++ ',' :: (intText file.pos.1 ++ '|' :: intText file.pos.2)]⟩

def memberRequests (res : Str) :
    List AggFile → List (List Action) → ClientMethod (List NNPutOKRequest)
  | [], _ => return []
  | file :: files, waits => do
    if (← get).uploads.canceled file.task then
      let _ ← sdk (SDK.rpc (.rm file.path) (waits.headD []))
      memberRequests res files waits.tail
    else
      changeStatusIf file.task file.path .dataUploading
      return memberRequest res file :: (← memberRequests res files waits)

def unlockFiles : List AggFile → ClientMethod Unit
  | [] => return
  | file :: files => do
    changeStatusIf file.task file.path .metaUploading
    sdk (SDK.modifySDK fun s ↦ { s with remoteLocks := s.remoteLocks.filter (· ≠ file.path) })
    unlockFiles files

def finishFiles : List AggFile → ClientMethod Unit
  | [] => return
  | file :: files => do
    changeStatusIf file.task file.path .finished
    finishFiles files

/-- The answer to `put_ok_batch` is checked after the last change of the status. -/
def putAggFile (files : List AggFile) (data storageType : Str) (d : Shards) (outcomes : List Bool)
    (waits : AggWaits) : ClientMethod Unit := do
  let storage ← sdk (SDK.lift (StorageType.fromString storageType))
  let uploads := (← get).uploads
  let kept := files.filter fun file ↦ !uploads.canceled file.task
  let reqs := kept.map fun file ↦ (⟨file.path, storageType⟩ : NNPutRequest)
  let _ ← sdk (SDK.rpc (.putBatch reqs) waits.putBatch)
  lockFiles files waits.locks
  modifyUploads fun u ↦ waits.rms.foldl (·.rm .smallFile) u
  match encodeOneBlock d.sha256sum storage d.nodes d.code outcomes data with
  | none => .stuck
  | some res => do
    let requests ← memberRequests (← sdk (SDK.lift res)) files waits.rmRemote
    unlockFiles files
    let response ← attempt (SDK.rpc (.putOkBatch requests) waits.putOkBatch)
    finishFiles files
    let _ ← sdk (SDK.lift response)
    return

/-- The loop of `small_file_aggregate_upload`: each file gets its range of the aggregate, and no
task. -/
def aggregateFiles (localFiles : Str → Option Str) :
    List UploadTask → List AggFile → Str → Except Fault (List AggFile × Str)
  | [], files, data => return (files, data)
  | task :: batch, files, data =>
    match localFiles task.localPath with
    | none => throw (.runtime ("Failed to open file: ".toList ++ task.localPath))
    | some content =>
      let pos := (toInt32 data.length, toInt32 ((data.length + content.length : Nat) : Int))
      aggregateFiles localFiles batch
        (files ++ [{ path := task.remotePath, size := task.size, pos }]) (data ++ content)

def smallFileAggregateUpload (batch : List UploadTask) (localFiles : Str → Option Str)
    (aggType : Str) (d : Shards) (outcomes : List Bool) (waits : AggWaits) :
    ClientMethod Unit := do
  let (files, data) ← sdk (SDK.lift (aggregateFiles localFiles batch [] []))
  putAggFile files data aggType d outcomes waits

end Client

end Spkdfs
