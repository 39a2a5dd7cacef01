import Spkdfs.Client.DaemonUpload
import Spkdfs.Client.Finishing

namespace Spkdfs

open Library Program Function

namespace UploadQueue

theorem takeUntilSize_append (size : Nat → Nat) (limit sum : Nat) (que : List Nat) :
    (takeUntilSize size limit sum que).1 ++ (takeUntilSize size limit sum que).2 = que := by
  induction que generalizing sum with
  | nil => rfl
  | cons task rest ih =>
    rw [takeUntilSize]
    split_ifs
    · exact congrArg (task :: ·) (ih _)
    · rfl

theorem existInQue_eq_some {q q' : UploadQueue} {p : Nat → Bool} {task : Nat}
    (h : q.existInQue p = some (task, q')) : p task = true ∧ q'.map = q.map ∧
      ∃ before after, q.que = before ++ task :: after ∧ q'.que = before ++ after := by
  obtain ⟨found, hfound, he⟩ := Option.map_eq_some_iff.mp h
  obtain ⟨rfl, rfl⟩ := Prod.mk.inj he
  obtain ⟨hp, before, after, hque, hbefore⟩ := List.find?_eq_some_iff_append.mp hfound
  refine ⟨hp, rfl, before, after, hque, ?_⟩
  have hnot : ∀ x ∈ before, ¬ p x = true := fun x hx ↦ by simpa using hbefore x hx
  rw [hque, List.eraseP_append_right _ hnot, List.eraseP_cons_of_pos hp]

end UploadQueue

namespace Uploads

variable {u u' u'' : Uploads} {name : QueueName} {task : Nat} {path : Str}

/-- A task that is there is pushed onto a queue. -/
structure Pushed (u : Uploads) (name : QueueName) (task : Nat) (path : Str) (u' : Uploads) :
    Prop where
  found : u.remotePath task = some path
  queue : ∀ name', u'.queue name' =
    if name' = name then (u.queue name).pushed task path else u.queue name'
  length : u'.tasks.length = u.tasks.length
  localPath : ∀ other, u'.localPath other = u.localPath other
  remotePath : ∀ other, u'.remotePath other = u.remotePath other
  status : ∀ other, u'.status other = if other = task then some .waiting else u.status other
  belongQue : ∀ other, u'.belongQue other = if other = task then some name else u.belongQue other

theorem pushed_of_pushBack (h : u.pushBack name task = .ok u') :
    ∃ path, u.Pushed name task path u' := by
  obtain ⟨t, ht, -, -⟩ := pushBack_eq_ok.mp h
  have htasks := tasks_pushBack h ht
  obtain ⟨hlt, -⟩ := List.getElem?_eq_some_iff.mp ht
  have hother : ∀ other, other ≠ task → u'.tasks[other]? = u.tasks[other]? := fun other hne ↦ by
    rw [htasks, List.getElem?_set_ne (Ne.symm hne)]
  have hself : u'.tasks[task]? =
      some { t with uploadStatus := .waiting, belongQue := some name } := by
    rw [htasks, List.getElem?_set_self hlt]
  refine ⟨t.remotePath, ?_, fun name' ↦ queue_pushBack h ht name', ?_, fun other ↦ ?_,
    fun other ↦ ?_, fun other ↦ ?_, fun other ↦ ?_⟩
  · rw [Uploads.remotePath, ht, Option.map_some]
  · rw [htasks, List.length_set]
  · by_cases hsame : other = task
    · subst hsame
      rw [Uploads.localPath, Uploads.localPath, hself, ht]
      rfl
    · rw [Uploads.localPath, Uploads.localPath, hother other hsame]
  · by_cases hsame : other = task
    · subst hsame
      rw [Uploads.remotePath, Uploads.remotePath, hself, ht]
      rfl
    · rw [Uploads.remotePath, Uploads.remotePath, hother other hsame]
  · split_ifs with hsame
    · subst hsame
      rw [Uploads.status, hself]
      rfl
    · rw [Uploads.status, Uploads.status, hother other hsame]
  · split_ifs with hsame
    · subst hsame
      rw [Uploads.belongQue, hself]
      rfl
    · rw [Uploads.belongQue, Uploads.belongQue, hother other hsame]

/-- An upload is accepted: its task is made and pushed. -/
structure Accepts (u : Uploads) (t : UploadTask) (name : QueueName) (u' : Uploads) : Prop where
  queue : ∀ name', u'.queue name' =
    if name' = name then (u.queue name).pushed u.tasks.length t.remotePath else u.queue name'
  length : u'.tasks.length = u.tasks.length + 1
  localPath : ∀ other, u'.localPath other =
    if other = u.tasks.length then some t.localPath else u.localPath other
  remotePath : ∀ other, u'.remotePath other =
    if other = u.tasks.length then some t.remotePath else u.remotePath other
  status : ∀ other, u'.status other =
    if other = u.tasks.length then some .waiting else u.status other
  belongQue : ∀ other, u'.belongQue other =
    if other = u.tasks.length then some name else u.belongQue other

theorem getElem?_concat {α : Type} (xs : List α) (x : α) (i : Nat) :
    (xs ++ [x])[i]? = if i = xs.length then some x else xs[i]? := by
  split_ifs with hi
  · rw [hi, List.getElem?_concat_length]
  · obtain hlt | hgt := Nat.lt_or_gt_of_ne hi
    · exact List.getElem?_append_left hlt
    · rw [List.getElem?_eq_none (by simp; omega), List.getElem?_eq_none (Nat.le_of_lt hgt)]

theorem accepts_of_pushBack {t : UploadTask}
    (h : Uploads.pushBack { u with tasks := u.tasks ++ [t] } name u.tasks.length = .ok u') :
    u.Accepts t name u' := by
  obtain ⟨path, hp⟩ := pushed_of_pushBack h
  have hpath : path = t.remotePath := by
    have hp := hp.found
    rw [Uploads.remotePath, List.getElem?_concat_length] at hp
    exact (Option.some.inj hp).symm
  subst hpath
  refine ⟨fun name' ↦ ?_, ?_, fun other ↦ ?_, fun other ↦ ?_, fun other ↦ ?_, fun other ↦ ?_⟩
  · rw [hp.queue]
    cases name <;> cases name' <;> rfl
  · rw [hp.length, List.length_append, List.length_singleton]
  · rw [hp.localPath, Uploads.localPath, getElem?_concat]
    split_ifs
    · rfl
    · rfl
  · rw [hp.remotePath, Uploads.remotePath, getElem?_concat]
    split_ifs
    · rfl
    · rfl
  · rw [hp.status]
    split_ifs with hlast
    · rfl
    · rw [Uploads.status, getElem?_concat, if_neg hlast, Uploads.status]
  · rw [hp.belongQue]
    split_ifs with hlast
    · rfl
    · rw [Uploads.belongQue, getElem?_concat, if_neg hlast, Uploads.belongQue]

/-- The status of tasks is all that may be different. -/
structure Same (u u' : Uploads) : Prop where
  queue : ∀ name, u'.queue name = u.queue name
  length : u'.tasks.length = u.tasks.length
  localPath : ∀ task, u'.localPath task = u.localPath task
  remotePath : ∀ task, u'.remotePath task = u.remotePath task
  belongQue : ∀ task, u'.belongQue task = u.belongQue task

theorem Same.refl (u : Uploads) : u.Same u := ⟨fun _ ↦ rfl, rfl, fun _ ↦ rfl, fun _ ↦ rfl, fun _ ↦ rfl⟩

theorem same_setStatus (u : Uploads) (task : Nat) (status : UploadStatus) :
    u.Same (u.setStatus task status) := by
  refine ⟨fun name ↦ ?_, List.length_modify .., fun other ↦ ?_, fun other ↦ ?_,
    u.belongQue_setStatus task status⟩
  · cases name <;> rfl
  · rw [Uploads.localPath, setStatus, List.getElem?_modify, Uploads.localPath]
    cases u.tasks[other]? with
    | none => rfl
    | some t => exact congrArg some (apply_ite UploadTask.localPath _ _ _ |>.trans (ite_self _))
  · rw [Uploads.remotePath, setStatus, List.getElem?_modify, Uploads.remotePath]
    cases u.tasks[other]? with
    | none => rfl
    | some t => exact congrArg some (apply_ite UploadTask.remotePath _ _ _ |>.trans (ite_self _))

theorem same_changeStatus (u : Uploads) (name : QueueName) (path : Str) (status : UploadStatus) :
    u.Same (u.changeStatus name path status) := by
  rw [changeStatus]
  cases (u.queue name).findInMap path with
  | none => exact .refl u
  | some task => exact u.same_setStatus task status

theorem same_rm (u : Uploads) (name : QueueName) (path : Str) : u.Same (u.rm name path) := by
  rw [Uploads.rm]
  cases (u.queue name).findInMap path with
  | none => exact .refl u
  | some task =>
    simp only
    split_ifs
    · exact u.same_setStatus task .canceled
    · exact .refl u

theorem getElem?_setBelongQue (u : Uploads) (task : Nat) (name : QueueName) (other : Nat) :
    (u.setBelongQue task name).tasks[other]? = u.tasks[other]?.map fun t ↦
      if task = other then { t with belongQue := some name } else t :=
  List.getElem?_modify ..

/-- Nothing else of a task is changed with its queue. -/
theorem map_setBelongQue {α : Type} {f : UploadTask → α} {name : QueueName}
    (hf : ∀ t : UploadTask, f { t with belongQue := some name } = f t) (u : Uploads)
    (task other : Nat) :
    (u.setBelongQue task name).tasks[other]?.map f = u.tasks[other]?.map f := by
  rw [getElem?_setBelongQue, Option.map_map]
  congr 1
  funext t
  rw [Function.comp_apply, apply_ite f, hf, ite_self]

theorem localPath_setBelongQue (u : Uploads) (task : Nat) (name : QueueName) (other : Nat) :
    (u.setBelongQue task name).localPath other = u.localPath other :=
  map_setBelongQue (fun _ ↦ rfl) u task other

theorem remotePath_setBelongQue (u : Uploads) (task : Nat) (name : QueueName) (other : Nat) :
    (u.setBelongQue task name).remotePath other = u.remotePath other :=
  map_setBelongQue (fun _ ↦ rfl) u task other

theorem status_setBelongQue (u : Uploads) (task : Nat) (name : QueueName) (other : Nat) :
    (u.setBelongQue task name).status other = u.status other :=
  map_setBelongQue (fun _ ↦ rfl) u task other

/-- Tasks leave the front of a queue. -/
structure Takes (u : Uploads) (name : QueueName) (tasks : List Nat) (u' : Uploads) : Prop where
  que : (u.queue name).que = tasks ++ (u'.queue name).que
  map : ∀ name', (u'.queue name').map = (u.queue name').map
  other : ∀ name', name' ≠ name → u'.queue name' = u.queue name'
  tasks : u'.tasks = u.tasks

theorem takes_setQueue (u : Uploads) (name : QueueName) {tasks : List Nat} {q : UploadQueue}
    (hque : (u.queue name).que = tasks ++ q.que) (hmap : q.map = (u.queue name).map) :
    u.Takes name tasks (u.setQueue q name) := by
  cases name with
  | smallFile =>
    refine ⟨hque, fun name' ↦ ?_, fun name' hne ↦ ?_, rfl⟩
    · cases name' with
      | smallFile => exact hmap
      | bigFile => rfl
    · cases name' with
      | smallFile => exact absurd rfl hne
      | bigFile => rfl
  | bigFile =>
    refine ⟨hque, fun name' ↦ ?_, fun name' hne ↦ ?_, rfl⟩
    · cases name' with
      | smallFile => rfl
      | bigFile => exact hmap
    · cases name' with
      | smallFile => rfl
      | bigFile => exact absurd rfl hne

theorem leads_of_map (h : (u'.queue name).map = (u.queue name).map) :
    u'.Leads name path task ↔ u.Leads name path task := by
  rw [Leads, Leads, UploadQueue.findInMap, UploadQueue.findInMap, h]

theorem leads_of_pushed (hqueue : ∀ name', u'.queue name' =
      if name' = name then (u.queue name).pushed task path else u.queue name') {name' : QueueName}
    {path' : Str} {other : Nat} : u'.Leads name' path' other ↔
      if name' = name ∧ SameKey path' path then other = task else u.Leads name' path' other := by
  rw [Leads, hqueue]
  by_cases hname : name' = name
  · subst hname
    rw [if_pos rfl, UploadQueue.findInMap_pushed]
    by_cases hkey : SameKey path' path
    · rw [if_pos hkey, if_pos ⟨rfl, hkey⟩, Option.some_inj]
      exact eq_comm
    · rw [if_neg hkey, if_neg fun hand ↦ hkey hand.2, Leads]
  · rw [if_neg hname, if_neg fun hand ↦ hname hand.1, Leads]

theorem mem_que_of_pushed (hqueue : ∀ name', u'.queue name' =
      if name' = name then (u.queue name).pushed task path else u.queue name') {name' : QueueName}
    {other : Nat} : other ∈ (u'.queue name').que ↔
      other ∈ (u.queue name').que ∨ name' = name ∧ other = task := by
  rw [hqueue]
  split_ifs with hname
  · subst hname
    rw [UploadQueue.pushed, List.mem_append, List.mem_singleton, and_iff_right rfl]
  · rw [or_iff_left fun h ↦ hname h.1]

theorem Pushed.leads_iff (h : u.Pushed name task path u') {name' : QueueName} {path' : Str}
    {other : Nat} : u'.Leads name' path' other ↔
      if name' = name ∧ SameKey path' path then other = task else u.Leads name' path' other :=
  leads_of_pushed h.queue

theorem Pushed.mem_que (h : u.Pushed name task path u') {name' : QueueName} {other : Nat} :
    other ∈ (u'.queue name').que ↔ other ∈ (u.queue name').que ∨ name' = name ∧ other = task :=
  mem_que_of_pushed h.queue

theorem Accepts.leads_iff {t : UploadTask} (h : u.Accepts t name u') {name' : QueueName}
    {path : Str} {task : Nat} : u'.Leads name' path task ↔
      if name' = name ∧ SameKey path t.remotePath then task = u.tasks.length
      else u.Leads name' path task :=
  leads_of_pushed h.queue

theorem Accepts.leads_new {t : UploadTask} (h : u.Accepts t name u') :
    u'.Leads name t.remotePath u.tasks.length :=
  h.leads_iff.mpr (by rw [if_pos ⟨rfl, rfl, rfl⟩])

theorem Accepts.mem_que {t : UploadTask} (h : u.Accepts t name u') {name' : QueueName}
    {task : Nat} : task ∈ (u'.queue name').que ↔
      task ∈ (u.queue name').que ∨ name' = name ∧ task = u.tasks.length :=
  mem_que_of_pushed h.queue

/-- Tasks leave the queues or change in their status. -/
structure Shrinks (u u' : Uploads) : Prop where
  length : u'.tasks.length = u.tasks.length
  localPath : ∀ task, u'.localPath task = u.localPath task
  remotePath : ∀ task, u'.remotePath task = u.remotePath task
  que : ∀ name, ∀ task ∈ (u'.queue name).que, task ∈ (u.queue name).que
  map : ∀ name, (u'.queue name).map = (u.queue name).map

theorem Shrinks.refl (u : Uploads) : u.Shrinks u :=
  ⟨rfl, fun _ ↦ rfl, fun _ ↦ rfl, fun _ _ h ↦ h, fun _ ↦ rfl⟩

theorem Shrinks.of_same (h : u.Same u') : u.Shrinks u' := by
  refine ⟨h.length, h.localPath, h.remotePath, fun name task htask ↦ ?_, fun name ↦ ?_⟩
  · rwa [← h.queue]
  · rw [h.queue]

theorem Shrinks.of_takes {tasks : List Nat} (h : u.Takes name tasks u') : u.Shrinks u' := by
  refine ⟨congrArg List.length h.tasks, fun task ↦ ?_, fun task ↦ ?_, fun name' task htask ↦ ?_,
    h.map⟩
  · rw [Uploads.localPath, h.tasks, Uploads.localPath]
  · rw [Uploads.remotePath, h.tasks, Uploads.remotePath]
  · by_cases hname : name' = name
    · subst hname
      rw [h.que]
      exact List.mem_append_right _ htask
    · rwa [← h.other name' hname]

theorem shrinks_setBelongQue (u : Uploads) (task : Nat) (name : QueueName) :
    u.Shrinks (u.setBelongQue task name) := by
  refine ⟨List.length_modify .., u.localPath_setBelongQue task name,
    u.remotePath_setBelongQue task name, fun name' other hother ↦ ?_, fun name' ↦ ?_⟩
  · cases name' <;> exact hother
  · cases name' <;> rfl

theorem Shrinks.of_existInQue {q : UploadQueue} {p : Nat → Bool}
    (h : u.smallFileQue.existInQue p = some (task, q)) :
    u.Shrinks (u.setQueue q .smallFile) := by
  obtain ⟨-, hmap, before, after, hque, hleft⟩ := UploadQueue.existInQue_eq_some h
  refine ⟨rfl, fun _ ↦ rfl, fun _ ↦ rfl, fun name other hother ↦ ?_, fun name ↦ ?_⟩
  · cases name with
    | bigFile => exact hother
    | smallFile =>
      have hother : other ∈ before ++ after := hleft ▸ hother
      have hold : (u.queue .smallFile).que = before ++ task :: after := hque
      rw [hold]
      exact List.mem_append.mpr ((List.mem_append.mp hother).imp_right (List.mem_cons_of_mem _))
  · cases name with
    | bigFile => rfl
    | smallFile => exact hmap

end Uploads

namespace DaemonUpload

open Daemon

variable {ν : Type} {flags : Flags} {remote : Remote ν} {m m' : DaemonUpload ν} {u u' : Uploads}
  {w : Worker} {place : Place} {tasks : List Nat} {program : UploadProgram Unit}

/-- The queue that a thread takes its tasks from. -/
def Worker.source : Worker → QueueName
  | .consumer name => name
  | .timer => .smallFile

theorem takes_batch (flags : Flags) (u : Uploads) :
    u.Takes .smallFile (batch flags u).1 (batch flags u).2.2 :=
  u.takes_setQueue .smallFile (UploadQueue.takeUntilSize_append ..).symm rfl

theorem take_takes (h : take flags u w place = some (tasks, program, u')) :
    u.Takes (Worker.source w) tasks u' := by
  cases w with
  | timer =>
    cases place <;> try cases h
    rw [take] at h
    split_ifs at h
    have he : batch flags u = (tasks, program, u') := Option.some.inj h
    have htakes := takes_batch flags u
    rwa [he] at htakes
  | consumer name =>
    cases name with
    | smallFile =>
      cases place <;> cases h
      exact takes_batch flags u
    | bigFile =>
      cases place <;> try cases h
      rw [take, Option.bind_eq_some_iff] at h
      obtain ⟨⟨task, q⟩, hpop, h⟩ := h
      obtain ⟨t, ht, he⟩ := Option.map_eq_some_iff.mp h
      cases he
      rw [UploadQueue.popFront] at hpop
      cases hque : u.bigFileQue.que with
      | nil =>
        rw [hque] at hpop
        cases hpop
      | cons first rest =>
        rw [hque] at hpop
        cases hpop
        exact u.takes_setQueue .bigFile hque rfl

theorem take_put (h : take flags u (.consumer .bigFile) place = some (tasks, program, u')) :
    ∃ task t, u.tasks[task]? = some t ∧ tasks = [task] ∧ program = put task t := by
  cases place <;> try cases h
  rw [take, Option.bind_eq_some_iff] at h
  obtain ⟨⟨task, q⟩, -, h⟩ := h
  obtain ⟨t, ht, he⟩ := Option.map_eq_some_iff.mp h
  cases he
  exact ⟨task, t, ht, rfl, rfl⟩

theorem take_aggregate (hw : w ≠ .consumer .bigFile)
    (h : take flags u w place = some (tasks, program, u')) :
    program = smallFileAggregateUpload (tasks.filterMap (u.tasks[·]?)) flags.aggType := by
  have hbatch : batch flags u = (tasks, program, u') := by
    cases w with
    | timer =>
      cases place <;> try cases h
      rw [take] at h
      split_ifs at h
      exact Option.some.inj h
    | consumer name =>
      cases name with
      | bigFile => exact absurd rfl hw
      | smallFile =>
        cases place <;> try cases h
        rfl
  cases hbatch
  rfl

/-- A change of status by `SDK::put`. -/
def Changes (task : Nat) (path : Str) (f : Uploads → Uploads) : Prop :=
  ∃ status, status ≠ .canceled ∧
    f = fun u ↦ u.changeStatus ((u.belongQue task).getD .smallFile) path status

theorem modifies_changeStatus (task : Nat) (path : Str) {status : UploadStatus}
    (h : status ≠ .canceled) : (changeStatus task path status).Modifies (Changes task path) := by
  intro b
  cases b with
  | false => trivial
  | true => exact ⟨⟨status, h, rfl⟩, trivial⟩

theorem modifies_put (task : Nat) (t : UploadTask) :
    (put task t).Modifies (Changes task t.remotePath) := by
  refine Modifies.bind trivial fun storage ↦ ?_
  refine (modifies_ask _).bind fun content ↦ ?_
  refine Modifies.bind (fun _ ↦ trivial) fun _ ↦ ?_
  refine (modifies_ask _).bind fun encoded ↦ ?_
  refine (modifies_ask _).bind fun _ ↦ ?_
  refine (modifies_changeStatus task _ (by decide)).bind fun _ ↦ ?_
  refine (modifies_ask _).bind fun sub ↦ ?_
  refine (modifies_changeStatus task _ (by decide)).bind fun _ ↦ ?_
  refine Modifies.bind (fun _ ↦ trivial) fun _ ↦ ?_
  exact modifies_changeStatus task _ (by decide)

/-- What a thread is uploading: the consumer of the big files one task, with `put`; the others
change no task. -/
def Uploading (u : Uploads) (w : Worker) (tasks : List Nat) (program : UploadProgram Unit) : Prop :=
  (∃ task path, w = .consumer .bigFile ∧ tasks = [task] ∧ u.remotePath task = some path ∧
    program.Modifies (Changes task path)) ∨
  w ≠ .consumer .bigFile ∧ program.Modifies fun _ ↦ False

theorem turn_ne_uploading {stop : Bool} {name : QueueName} {place' : Place}
    (h : turn flags u stop name place = some place') : place' ≠ .uploading tasks program := by
  rintro rfl
  cases place with
  | head | woken | tail =>
    rw [turn] at h
    split_ifs at h <;> cases h
  | waiting =>
    rw [turn] at h
    split_ifs at h
    cases h
  | nonempty =>
    cases name with
    | bigFile => cases h
    | smallFile =>
      simp only [turn] at h
      split_ifs at h <;> cases h
  | enough | uploading | exited => cases h

/-- Where the upload of a thread comes from. -/
theorem thread_step {a : Act} (hs : Step flags remote m a m')
    (hw : m'.thread w = .uploading tasks program) :
    m.thread w = .uploading tasks program ∨
    take flags m.uploads w (m.thread w) = some (tasks, program, m'.uploads) ∨
    ∃ x seen, a = .advance seen ∧ m.thread w = .uploading tasks x ∧
      Program.Step x m.uploads seen program m'.uploads ∧
      (∀ c a, .answer c a ∈ seen → remote.answers m.namenode c a) ∧
      m'.committed = if seen.any takesCommit then tasks ++ m.committed else m.committed := by
  cases hs with
  | enter | accept | refuse | fsync | push | lose | stop | throw | rm | look | cancel | asked
  | failed | receive | receiveRm | remote => exact .inl hw
  | turn hplace =>
    simp only [update_apply] at hw
    split_ifs at hw
    · exact absurd hw (turn_ne_uploading hplace)
    · exact .inl hw
  | take htake =>
    simp only [update_apply] at hw
    split_ifs at hw with hsame
    · cases hw
      exact .inr (.inl (hsame ▸ htake))
    · exact .inl hw
  | advance hthread hstep hanswers =>
    simp only [update_apply] at hw
    split_ifs at hw with hsame
    · cases hw
      exact .inr (.inr ⟨_, _, rfl, hsame ▸ hthread, hstep, hanswers, rfl⟩)
    · exact .inl hw
  | @finish w' =>
    simp only [update_apply] at hw
    split_ifs at hw
    · cases w' <;> cases hw
    · exact .inl hw

/-- An upload in progress is left alone, goes on or has returned. -/
theorem uploading_next (hs : Step flags remote m a m')
    (hw : m.thread w = .uploading tasks program) :
    m'.thread w = .uploading tasks program ∨
    (∃ program' seen, m'.thread w = .uploading tasks program' ∧ a = .advance seen ∧
      Program.Step program m.uploads seen program' m'.uploads) ∨
    program = .done (.ok ()) := by
  cases hs with
  | enter | accept | refuse | fsync | push | lose | stop | throw | rm | look | cancel | asked
  | failed | receive | receiveRm | remote => exact .inl hw
  | @turn name place hplace =>
    have hne : w ≠ .consumer name := by
      rintro rfl
      rw [hw] at hplace
      cases hplace
    exact .inl ((update_of_ne hne place m.thread).trans hw)
  | @take w' tasks' program' u htake =>
    have hne : w ≠ w' := by
      rintro rfl
      rw [hw] at htake
      cases w with
      | timer => cases htake
      | consumer name => cases name <;> cases htake
    exact .inl ((update_of_ne hne _ m.thread).trans hw)
  | @advance w' tasks' x program' u seen hthread hstep =>
    by_cases hsame : w = w'
    · subst hsame
      rw [hw] at hthread
      cases hthread
      exact .inr (.inl ⟨program', seen, update_self w _ m.thread, rfl, hstep⟩)
    · exact .inl ((update_of_ne hsame _ m.thread).trans hw)
  | @finish w' tasks' hthread =>
    by_cases hsame : w = w'
    · subst hsame
      rw [hw] at hthread
      cases hthread
      exact .inr (.inr rfl)
    · exact .inl ((update_of_ne hsame _ m.thread).trans hw)

/-- What a step of an upload does to the tasks. -/
theorem Uploading.step {seen : List UploadEvent} {program' : UploadProgram Unit}
    (hu : Uploading u w tasks program) (hs : Program.Step program u seen program' u') :
    u' = u ∨ ∃ task path status, w = .consumer .bigFile ∧ tasks = [task] ∧
      u.remotePath task = some path ∧ status ≠ .canceled ∧
      u' = u.changeStatus ((u.belongQue task).getD .smallFile) path status := by
  cases hs with
  | test | call => exact .inl rfl
  | modify f next =>
    obtain ⟨task, path, hw, htasks, hpath, hchanges⟩ | ⟨-, hnothing⟩ := hu
    · obtain ⟨status, hstatus, rfl⟩ := hchanges.1
      exact .inr ⟨task, path, status, hw, htasks, hpath, hstatus, rfl⟩
    · exact hnothing.1.elim

theorem Uploading.same {seen : List UploadEvent} {program' : UploadProgram Unit}
    (hu : Uploading u w tasks program) (hs : Program.Step program u seen program' u') :
    u.Same u' := by
  obtain rfl | ⟨task, path, status, -, -, -, -, rfl⟩ := hu.step hs
  · exact .refl u'
  · exact u.same_changeStatus _ path status

/-- Each thread does what its upload began with. -/
def Steady (m : DaemonUpload ν) : Prop :=
  ∀ w tasks program, m.thread w = .uploading tasks program → Uploading m.uploads w tasks program

/-- The paths of the tasks that are there stay. -/
structure Grows (u u' : Uploads) : Prop where
  localPath : ∀ task path, u.localPath task = some path → u'.localPath task = some path
  remotePath : ∀ task path, u.remotePath task = some path → u'.remotePath task = some path

theorem Grows.refl (u : Uploads) : Grows u u := ⟨fun _ _ h ↦ h, fun _ _ h ↦ h⟩

theorem grows_of_tasks (h : u'.tasks = u.tasks) : Grows u u' := by
  refine ⟨fun task path hpath ↦ ?_, fun task path hpath ↦ ?_⟩
  · rwa [Uploads.localPath, h]
  · rwa [Uploads.remotePath, h]

theorem Grows.of_same (h : u.Same u') : Grows u u' :=
  ⟨fun task _ hpath ↦ (h.localPath task).trans hpath,
    fun task _ hpath ↦ (h.remotePath task).trans hpath⟩

theorem lt_of_localPath {task : Nat} {path : Str} (h : u.localPath task = some path) :
    task < u.tasks.length := by
  obtain ⟨t, ht, -⟩ := Option.map_eq_some_iff.mp h
  exact (List.getElem?_eq_some_iff.mp ht).1

theorem lt_of_remotePath {task : Nat} {path : Str} (h : u.remotePath task = some path) :
    task < u.tasks.length := by
  obtain ⟨t, ht, -⟩ := Option.map_eq_some_iff.mp h
  exact (List.getElem?_eq_some_iff.mp ht).1

theorem Grows.of_accepts {t : UploadTask} {name : QueueName} (h : u.Accepts t name u') :
    Grows u u' := by
  refine ⟨fun task path hpath ↦ ?_, fun task path hpath ↦ ?_⟩
  · rw [h.localPath, if_neg (lt_of_localPath hpath).ne, hpath]
  · rw [h.remotePath, if_neg (lt_of_remotePath hpath).ne, hpath]

theorem Grows.step {a : Act} (hm : Steady m) (hs : Step flags remote m a m') :
    Grows m.uploads m'.uploads := by
  cases hs with
  | enter | refuse | stop | turn | finish | throw | rm | look | asked | failed | receive
  | receiveRm | remote => exact .refl _
  | accept _ _ _ hpush => exact .of_accepts (Uploads.accepts_of_pushBack hpush)
  | fsync => exact grows_of_tasks rfl
  | push _ _ hpush =>
    obtain ⟨path, hpushed⟩ := Uploads.pushed_of_pushBack hpush
    exact ⟨fun task path hpath ↦ (hpushed.localPath task).trans hpath,
      fun task path hpath ↦ (hpushed.remotePath task).trans hpath⟩
  | lose => exact ⟨fun other path hpath ↦ (m.uploads.localPath_setBelongQue ..).trans hpath,
      fun other path hpath ↦ (m.uploads.remotePath_setBelongQue ..).trans hpath⟩
  | take htake => exact grows_of_tasks (take_takes htake).tasks
  | advance hthread hstep => exact .of_same ((hm _ _ _ hthread).same hstep)
  | cancel => exact .of_same (m.uploads.same_rm .smallFile _)

/-- Only an upload that is accepted and a task that is moved enter a queue. -/
theorem shrinks_step {a : Act} (hm : Steady m) (hs : Step flags remote m a m')
    (haccept : ∀ t, a ≠ .accept t) (hpush : ∀ task, a ≠ .push task) :
    m.uploads.Shrinks m'.uploads := by
  cases hs with
  | enter | refuse | stop | turn | finish | throw | rm | look | asked | failed | receive
  | receiveRm | remote => exact .refl _
  | accept => exact absurd rfl (haccept _)
  | push => exact absurd rfl (hpush _)
  | fsync hexist => exact .of_existInQue hexist
  | lose => exact m.uploads.shrinks_setBelongQue _ _
  | take htake => exact .of_takes (take_takes htake)
  | advance hthread hstep => exact .of_same ((hm _ _ _ hthread).same hstep)
  | @cancel _ _ path => exact .of_same (m.uploads.same_rm .smallFile path)

/-- What a step does to the queues and the maps. -/
inductive Next (u : Uploads) (a : Act) (u' : Uploads) : Prop
  | shrinks (haccept : ∀ t, a ≠ .accept t) (hpush : ∀ task, a ≠ .push task) (h : u.Shrinks u')
  | accepts {t : UploadTask} {name : QueueName} (ha : a = .accept t)
      (hname : t.belongQue = some name) (h : u.Accepts t name u')
  | pushes {task : Nat} {path : Str} (ha : a = .push task) (h : u.Pushed .bigFile task path u')

theorem next_step {a : Act} (hm : Steady m) (hs : Step flags remote m a m') :
    Next m.uploads a m'.uploads := by
  by_cases haccept : ∃ t, a = .accept t
  · obtain ⟨t, rfl⟩ := haccept
    cases hs with
    | accept _ hname _ hpush => exact .accepts rfl hname (Uploads.accepts_of_pushBack hpush)
  by_cases hpush : ∃ task, a = .push task
  · obtain ⟨task, rfl⟩ := hpush
    cases hs with
    | push _ _ hpush =>
      obtain ⟨path, hpushed⟩ := Uploads.pushed_of_pushBack hpush
      exact .pushes rfl hpushed
  have haccept : ∀ t, a ≠ .accept t := fun t h ↦ haccept ⟨t, h⟩
  have hpush : ∀ task, a ≠ .push task := fun task h ↦ hpush ⟨task, h⟩
  exact .shrinks haccept hpush (shrinks_step hm hs haccept hpush)

theorem Steady.step {a : Act} (hm : Steady m) (hs : Step flags remote m a m') : Steady m' := by
  intro w tasks program hw
  obtain hthread | htake | ⟨x, seen, -, hthread, hstep, -⟩ := thread_step hs hw
  · obtain ⟨task, path, hbig, htasks, hpath, hchanges⟩ | hnothing := hm w tasks program hthread
    · exact .inl ⟨task, path, hbig, htasks, (Grows.step hm hs).remotePath task path hpath, hchanges⟩
    · exact .inr hnothing
  · by_cases hbig : w = .consumer .bigFile
    · subst hbig
      obtain ⟨task, t, ht, rfl, rfl⟩ := take_put htake
      have hpath : m.uploads.remotePath task = some t.remotePath := by
        rw [Uploads.remotePath, ht, Option.map_some]
      exact .inl ⟨task, t.remotePath, rfl, rfl, (Grows.step hm hs).remotePath task _ hpath,
        modifies_put task t⟩
    · rw [take_aggregate hbig htake]
      exact .inr ⟨hbig, modifies_smallFileAggregateUpload _ _⟩
  · obtain ⟨task, path, hbig, htasks, hpath, hchanges⟩ | ⟨hbig, hnothing⟩ := hm w tasks x hthread
    · exact .inl ⟨task, path, hbig, htasks, (Grows.step hm hs).remotePath task path hpath,
        hchanges.step hstep⟩
    · exact .inr ⟨hbig, hnothing.step hstep⟩

theorem steady_start (namenode : ν) : Steady (start namenode) := by
  intro w tasks program hw
  cases hw

end DaemonUpload

end Spkdfs
