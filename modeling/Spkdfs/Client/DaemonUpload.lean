import Spkdfs.Client.Queues
import Spkdfs.Library.Transitions

namespace Spkdfs

open Library Program Function

namespace UploadQueue

/-- `exist_in_que`: the first such task leaves the queue. -/
def existInQue (q : UploadQueue) (p : Nat → Bool) : Option (Nat × UploadQueue) :=
  (q.que.find? p).map fun task ↦ (task, { q with que := q.que.eraseP p })

end UploadQueue

namespace Uploads

def localPath (u : Uploads) (task : Nat) : Option Str := u.tasks[task]?.map (·.localPath)

def remotePath (u : Uploads) (task : Nat) : Option Str := u.tasks[task]?.map (·.remotePath)

def setBelongQue (u : Uploads) (task : Nat) (name : QueueName) : Uploads :=
  { u with tasks := u.tasks.modify task fun t ↦ { t with belongQue := some name } }

/-- The first part of `UploadQueue::ls`, under the mutex of the queue. -/
def lsQue (u : Uploads) (name : QueueName) (path : Str) : Option Nat :=
  (u.queue name).que.find? fun task ↦ u.remotePath task = some path

/-- The second part, under the mutex of the map. -/
def lsMap (u : Uploads) (name : QueueName) (path : Str) : Option Nat :=
  ((u.queue name).findInMap path).filter fun task ↦ u.status task ≠ some .canceled

end Uploads

/-- Where a download reads from. -/
inductive Source
  | localFile (path : Option Str)
  | remoteFile (path : Str)
deriving DecidableEq

/-- `DaemonDownload::download`. It looks at the queue and at the map of the big files, then at those
of the small ones; each time the uploads may have gone on. -/
def download (bigQue bigMap smallQue smallMap : Uploads) (src : Str) : Source :=
  match bigQue.lsQue .bigFile src with
  | some task => .localFile (bigQue.localPath task)
  | none =>
    match bigMap.lsMap .bigFile src with
    | some task => .localFile (bigMap.localPath task)
    | none =>
      match smallQue.lsQue .smallFile src with
      | some task => .localFile (smallQue.localPath task)
      | none =>
        match smallMap.lsMap .smallFile src with
        | some task => .localFile (smallMap.localPath task)
        | none => .remoteFile src

/-- The threads that upload: the two consumers and the timer. -/
inductive Worker
  | consumer (name : QueueName)
  | timer
deriving DecidableEq

/-- Where a thread is in its loop. The timer is at the head between its runs. -/
inductive Place
  | head
  | waiting
  | woken
  | nonempty
  | enough
  | uploading (tasks : List Nat) (program : UploadProgram Unit)
  | tail
  | exited

/-- A consumer has the mutex of its queue from the end of the wait to that of the turn. -/
def Place.Locked : Place → Prop
  | .woken | .nonempty | .enough | .uploading _ _ | .tail => True
  | .head | .waiting | .exited => False

/-- The stages of `DaemonUpload::rm`. -/
inductive Removal
  | begun (path : Str)
  | waiting (path : Str) (task : Nat)
  | unknown (path : Str)
  | canceling (path : Str)
  | asking (path : Str)
deriving DecidableEq

structure Flags where
  filesizeBoundary : Nat
  aggSizeBoundary : Nat
  aggType : Str

/-- `admitted` are the uploads that have passed the check of `_stop`, `moving` the tasks that an
`fsync` has taken, `committed` those whose commit the namenode has taken, the last one first. -/
structure DaemonUpload (ν : Type) where
  stop : Bool := false
  uploads : Uploads := {}
  thread : Worker → Place := fun _ ↦ .head
  admitted : List UploadTask := []
  moving : List Nat := []
  removals : List Removal := []
  committed : List Nat := []
  /-- An exception has left a thread. -/
  terminated : Bool := false
  namenode : ν

/-- What the daemon uses: how the namenode takes a request and goes on by itself, and what a call
may be answered in a state of it. -/
structure Remote (ν : Type) where
  receives : ν → Request → ν → Prop
  moves : ν → ν → Prop
  answers : ν → (c : UploadCall) → Except Fault c.Answer → Prop

namespace DaemonUpload

variable {ν : Type}

/-- The constructor of the task, with the queue that its size selects. -/
def newTask (flags : Flags) (localPath remotePath storageType : Str) (size : Nat) : UploadTask :=
  { localPath, remotePath, size, storageType,
    belongQue := some (if size ≤ flags.filesizeBoundary then .smallFile else .bigFile) }

/-- The steps of a consumer that only look at its queue and at `_stop`. -/
def turn (flags : Flags) (u : Uploads) (stop : Bool) (name : QueueName) : Place → Option Place
  | .head => some (if stop then .exited else .waiting)
  | .waiting => if (u.queue name).que ≠ [] ∨ stop then some .woken else none
  | .woken => some (if (u.queue name).que = [] then .tail else .nonempty)
  | .nonempty =>
    match name with
    | .bigFile => none
    | .smallFile =>
      some (if flags.aggSizeBoundary ≤ u.smallFileQue.currentAllSmallfileSize u.size then .enough
        else .tail)
  | .tail => some (if stop ∧ (u.queue name).que = [] then .exited else .head)
  | .enough | .uploading _ _ | .exited => none

/-- The tasks of `get_until_size`, and the upload of their files. -/
def batch (flags : Flags) (u : Uploads) : List Nat × UploadProgram Unit × Uploads :=
  let (tasks, q) := u.smallFileQue.getUntilSize u.size flags.aggSizeBoundary
  (tasks, Daemon.smallFileAggregateUpload (tasks.filterMap (u.tasks[·]?)) flags.aggType,
    u.setQueue q .smallFile)

/-- A thread takes tasks and begins to upload them. The timer leaves an empty batch. -/
def take (flags : Flags) (u : Uploads) :
    Worker → Place → Option (List Nat × UploadProgram Unit × Uploads)
  | .consumer .bigFile, .nonempty =>
    u.bigFileQue.popFront.bind fun (task, q) ↦ u.tasks[task]?.map fun t ↦
      ([task], Daemon.put task t, u.setQueue q .bigFile)
  | .consumer .smallFile, .enough => some (batch flags u)
  | .timer, .head => if (batch flags u).1 = [] then none else some (batch flags u)
  | _, _ => none

/-- The end of an upload. -/
def Worker.after : Worker → Place
  | .consumer _ => .tail
  | .timer => .head

/-- The looks of `rm` at the maps and at the status of a task. -/
def look (u : Uploads) : Removal → Option Removal
  | .begun path =>
    match u.bigFileQue.findInMap path with
    | some task => some (.waiting path task)
    | none => some (.unknown path)
  | .waiting path task => if u.status task = some .finished then some (.asking path) else none
  | .unknown path =>
    match u.smallFileQue.findInMap path with
    | some _ => some (.canceling path)
    | none => some (.asking path)
  | .canceling _ | .asking _ => none

/-- The namenode has taken a commit. -/
def takesCommit : UploadEvent → Bool
  | .answer (.request (.putOk _)) (.ok _) | .answer (.request (.putOkBatch _)) (.ok _) => true
  | _ => false

/-- What a step is for those who look at the daemon. -/
inductive Act
  | accept (t : UploadTask)
  | fsync (task : Nat)
  | push (task : Nat)
  | turn (name : QueueName) (place : Place)
  | advance (seen : List UploadEvent)
  | throw
  | rm (path : Str)
  | removed (path : Str)
  | other

/-- One step of a daemon that has not been terminated. -/
inductive Step (flags : Flags) (remote : Remote ν) (m : DaemonUpload ν) : Act → DaemonUpload ν → Prop
  | enter (localPath remotePath storageType : Str) (size : Nat) : m.stop = false →
      Step flags remote m .other
        { m with admitted := newTask flags localPath remotePath storageType size :: m.admitted }
  | accept {before after : List UploadTask} {t : UploadTask} {name : QueueName} {u : Uploads} :
      m.admitted = before ++ t :: after → t.belongQue = some name →
      ¬ (m.thread (.consumer name)).Locked →
      Uploads.pushBack { m.uploads with tasks := m.uploads.tasks ++ [t] } name
        m.uploads.tasks.length = .ok u →
      Step flags remote m (.accept t) { m with uploads := u, admitted := before ++ after }
  | refuse {before after : List UploadTask} {t : UploadTask} {name : QueueName} {fault : Fault} :
      m.admitted = before ++ t :: after → t.belongQue = some name →
      ¬ (m.thread (.consumer name)).Locked →
      Uploads.pushBack { m.uploads with tasks := m.uploads.tasks ++ [t] } name
        m.uploads.tasks.length = .error fault →
      Step flags remote m .other { m with admitted := before ++ after }
  | fsync {localPath remotePath : Str} {task : Nat} {q : UploadQueue} :
      m.uploads.smallFileQue.existInQue (fun task ↦ m.uploads.localPath task = some localPath ∧
        m.uploads.remotePath task = some remotePath) = some (task, q) →
      Step flags remote m (.fsync task)
        { m with uploads := m.uploads.setQueue q .smallFile, moving := task :: m.moving }
  | push {before after : List Nat} {task : Nat} {u : Uploads} :
      m.moving = before ++ task :: after → ¬ (m.thread (.consumer .bigFile)).Locked →
      m.uploads.pushBack .bigFile task = .ok u →
      Step flags remote m (.push task) { m with uploads := u, moving := before ++ after }
  | lose {before after : List Nat} {task : Nat} {fault : Fault} :
      m.moving = before ++ task :: after → ¬ (m.thread (.consumer .bigFile)).Locked →
      m.uploads.pushBack .bigFile task = .error fault →
      Step flags remote m .other
        { m with
          uploads := m.uploads.setBelongQue task .bigFile
          moving := before ++ after }
  | stop : Step flags remote m .other { m with stop := true }
  | turn {name : QueueName} {place : Place} :
      turn flags m.uploads m.stop name (m.thread (.consumer name)) = some place →
      Step flags remote m (.turn name place)
        { m with thread := update m.thread (.consumer name) place }
  | take {w : Worker} {tasks : List Nat} {program : UploadProgram Unit} {u : Uploads} :
      take flags m.uploads w (m.thread w) = some (tasks, program, u) →
      Step flags remote m .other
        { m with uploads := u, thread := update m.thread w (.uploading tasks program) }
  | advance {w : Worker} {tasks : List Nat} {program program' : UploadProgram Unit} {u : Uploads}
      {seen : List UploadEvent} :
      m.thread w = .uploading tasks program → Program.Step program m.uploads seen program' u →
      (∀ c a, .answer c a ∈ seen → remote.answers m.namenode c a) →
      Step flags remote m (.advance seen)
        { m with
          uploads := u
          thread := update m.thread w (.uploading tasks program')
          committed := if seen.any takesCommit then tasks ++ m.committed else m.committed }
  | finish {w : Worker} {tasks : List Nat} :
      m.thread w = .uploading tasks (.done (.ok ())) →
      Step flags remote m .other { m with thread := update m.thread w (Worker.after w) }
  | throw {w : Worker} {tasks : List Nat} {fault : Fault} :
      m.thread w = .uploading tasks (.done (.error fault)) →
      Step flags remote m .throw { m with terminated := true }
  | rm (path : Str) : Step flags remote m (.rm path) { m with removals := .begun path :: m.removals }
  | look {before after : List Removal} {r r' : Removal} : m.removals = before ++ r :: after →
      look m.uploads r = some r' →
      Step flags remote m .other { m with removals := before ++ r' :: after }
  | cancel {before after : List Removal} {path : Str} :
      m.removals = before ++ .canceling path :: after →
      Step flags remote m (.removed path)
        { m with uploads := m.uploads.rm .smallFile path, removals := before ++ after }
  | asked {before after : List Removal} {path : Str} :
      m.removals = before ++ .asking path :: after →
      remote.answers m.namenode (.request (.rm path)) (.ok ()) →
      Step flags remote m (.removed path) { m with removals := before ++ after }
  | failed {before after : List Removal} {path : Str} {fault : Fault} :
      m.removals = before ++ .asking path :: after →
      remote.answers m.namenode (.request (.rm path)) (.error fault) →
      Step flags remote m .other { m with removals := before ++ after }
  | receive {w : Worker} {tasks : List Nat} {req : Request}
      {next : Except Fault Unit → UploadProgram Unit} {namenode : ν} :
      m.thread w = .uploading tasks (.call (.request req) next) →
      remote.receives m.namenode req namenode →
      Step flags remote m .other { m with namenode }
  | receiveRm {path : Str} {namenode : ν} : .asking path ∈ m.removals →
      remote.receives m.namenode (.rm path) namenode →
      Step flags remote m .other { m with namenode }
  | remote {namenode : ν} : remote.moves m.namenode namenode →
      Step flags remote m .other { m with namenode }

/-- A daemon that has just been started. -/
def start (namenode : ν) : DaemonUpload ν := { namenode }

/-- The runs whose steps meet a condition. -/
def Run (flags : Flags) (remote : Remote ν) (guard : DaemonUpload ν → Act → Prop) :
    DaemonUpload ν → DaemonUpload ν → Prop :=
  Steps (fun m a m' ↦ m.terminated = false ∧ Step flags remote m a m') guard

end DaemonUpload

end Spkdfs
