import Spkdfs.Client.Daemon
import Spkdfs.Library.Programs

namespace Spkdfs

open Library Program

/-- What an upload needs from outside of the daemon. The datanodes and the erasure code are called
for as a whole. -/
inductive UploadCall
  | openFile (localPath : Str)
  | request (req : Request)
  | encodeContent (storage : StorageType) (content : Str)
  | datanodePut (storage : StorageType) (encoded : List (List Str))
  | encodeOneBlock (storage : StorageType) (data : Str)

namespace UploadCall

def Answer : UploadCall → Type
  | .openFile _ | .encodeOneBlock _ _ => Str
  | .request _ => Unit
  | .encodeContent _ _ => List (List Str)
  | .datanodePut _ _ => List Str

end UploadCall

/-- A method of the SDK that runs beside the rest of the daemon. -/
abbrev UploadProgram := Program Uploads Fault UploadCall UploadCall.Answer

abbrev UploadEvent := Program.Event Uploads Fault UploadCall UploadCall.Answer

namespace Uploads

def belongQue (u : Uploads) (task : Nat) : Option QueueName := u.tasks[task]?.bind (·.belongQue)

end Uploads

namespace Daemon

def openFile (localPath : Str) : UploadProgram Str := ask (UploadCall.openFile localPath)

def request (req : Request) : UploadProgram Unit := ask (UploadCall.request req)

def attemptRequest (req : Request) : UploadProgram (Except Fault Unit) := attempt (UploadCall.request req)

def encodeContent (storage : StorageType) (content : Str) : UploadProgram (List (List Str)) :=
  ask (UploadCall.encodeContent storage content)

def datanodePut (storage : StorageType) (encoded : List (List Str)) : UploadProgram (List Str) :=
  ask (UploadCall.datanodePut storage encoded)

def encodeOneBlock (storage : StorageType) (data : Str) : UploadProgram Str :=
  ask (UploadCall.encodeOneBlock storage data)

/-- `task_ptr->belong_que->change_status`, which needs a queue to belong to. -/
def changeStatus (task : Nat) (path : Str) (status : UploadStatus) : UploadProgram Unit := do
  if ← check fun u ↦ (u.belongQue task).isSome then
    access fun u ↦ u.changeStatus ((u.belongQue task).getD .smallFile) path status
  else .stuck

/-- `SDK::put`. The answers to the first and to the last request are only printed when they tell
of a failure. -/
def put (task : Nat) (t : UploadTask) : UploadProgram Unit := do
  let storage ← Program.done (StorageType.fromString t.storageType)
  let content ← openFile t.localPath
  let _ ← attemptRequest (.put ⟨t.remotePath, storage.toString⟩)
  let encoded ← encodeContent storage content
  request (.updateLock [t.remotePath])
  changeStatus task t.remotePath .dataUploading
  let sub ← datanodePut storage encoded
  changeStatus task t.remotePath .metaUploading
  let _ ← attemptRequest (.putOk ⟨t.remotePath, content.length, sub⟩)
  changeStatus task t.remotePath .finished

def changeStatusIf (task : Option Nat) (path : Str) (status : UploadStatus) : UploadProgram Unit :=
  match task with
  | none => return
  | some task => changeStatus task path status

/-- The first pass of `putAggFile`. -/
def putRequests (storageType : Str) : List AggFile → UploadProgram (List NNPutRequest)
  | [] => return []
  | file :: files => do
    if ← check fun u ↦ u.canceled file.task then putRequests storageType files
    else return ⟨file.path, storageType⟩ :: (← putRequests storageType files)

def lockFiles : List AggFile → UploadProgram Unit
  | [] => return
  | file :: files => do
    request (.updateLock [file.path])
    lockFiles files

/-- Between the look at a task and the change of its status, it may be cancelled. -/
def memberRequests (res : Str) : List AggFile → UploadProgram (List NNPutOKRequest)
  | [] => return []
  | file :: files => do
    if ← check fun u ↦ u.canceled file.task then
      request (.rm file.path)
      memberRequests res files
    else
      changeStatusIf file.task file.path .dataUploading
      return Client.memberRequest res file :: (← memberRequests res files)

def changeAll (status : UploadStatus) : List AggFile → UploadProgram Unit
  | [] => return
  | file :: files => do
    changeStatusIf file.task file.path status
    changeAll status files

/-- `SDK::putAggFile`. -/
def putAggFile (files : List AggFile) (data storageType : Str) : UploadProgram Unit := do
  let storage ← Program.done (StorageType.fromString storageType)
  let reqs ← putRequests storageType files
  request (.putBatch reqs)
  lockFiles files
  let res ← encodeOneBlock storage data
  let requests ← memberRequests res files
  changeAll .metaUploading files
  let response ← attemptRequest (.putOkBatch requests)
  changeAll .finished files
  Program.done response

/-- The loop of `small_file_aggregate_upload`. -/
def aggregateFiles :
    List UploadTask → List AggFile → Str → UploadProgram (List AggFile × Str)
  | [], files, data => return (files, data)
  | t :: batch, files, data => do
    let content ← openFile t.localPath
    let pos := (toInt32 data.length, toInt32 ((data.length + content.length : Nat) : Int))
    aggregateFiles batch (files ++ [{ path := t.remotePath, size := t.size, pos }]) (data ++ content)

/-- The files of the aggregate carry no task. -/
def smallFileAggregateUpload (batch : List UploadTask) (aggType : Str) : UploadProgram Unit := do
  let (files, data) ← aggregateFiles batch [] []
  putAggFile files data aggType

end Daemon

end Spkdfs
