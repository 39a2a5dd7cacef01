import Spkdfs.Client.UploadPrograms

namespace Spkdfs

open Library Function

/-- What the maps go by. -/
def SameKey (path path' : Str) : Prop :=
  getParentPath path = getParentPath path' ∧ filename path = filename path'

instance (path path' : Str) : Decidable (SameKey path path') :=
  inferInstanceAs (Decidable (_ ∧ _))

theorem SameKey.symm {path path' : Str} (h : SameKey path path') : SameKey path' path :=
  ⟨h.1.symm, h.2.symm⟩

theorem SameKey.trans {path path' path'' : Str} (h : SameKey path path')
    (h' : SameKey path' path'') : SameKey path path'' :=
  ⟨h.1.trans h'.1, h.2.trans h'.2⟩

namespace UploadQueue

/-- The queue after a task with this path is pushed on it. -/
def pushed (q : UploadQueue) (task : Nat) (remotePath : Str) : UploadQueue :=
  { q with
    que := q.que ++ [task]
    map := update q.map (getParentPath remotePath)
      (update (q.map (getParentPath remotePath)) (filename remotePath) (some task)) }

theorem findInMap_congr {path path' : Str} (h : SameKey path path') (q : UploadQueue) :
    q.findInMap path = q.findInMap path' := by
  rw [findInMap, h.1, h.2, findInMap]

theorem findInMap_pushed (q : UploadQueue) (task : Nat) (remotePath path : Str) :
    (q.pushed task remotePath).findInMap path =
      if SameKey path remotePath then some task else q.findInMap path := by
  simp only [findInMap, pushed]
  by_cases hparent : getParentPath path = getParentPath remotePath
  · rw [hparent, update_self]
    by_cases hname : filename path = filename remotePath
    · rw [hname, update_self, if_pos ⟨hparent, hname⟩]
    · rw [update_of_ne hname, if_neg fun h ↦ hname h.2]
  · rw [update_of_ne hparent, if_neg fun h ↦ hparent h.1]

end UploadQueue

namespace Uploads

variable {u : Uploads} {name : QueueName} {path : Str} {status : UploadStatus} {task other : Nat}

/-- The map of the queue has this task for the path. -/
def Leads (u : Uploads) (name : QueueName) (path : Str) (task : Nat) : Prop :=
  (u.queue name).findInMap path = some task

theorem status_setStatus (u : Uploads) (other : Nat) (status : UploadStatus) (task : Nat) :
    (u.setStatus other status).status task =
      if other = task then (u.status task).map fun _ ↦ status else u.status task := by
  rw [Uploads.status, setStatus, List.getElem?_modify]
  split_ifs with h
  · rw [Uploads.status]
    cases u.tasks[task]? <;> rfl
  · rw [Uploads.status, Option.map_eq_map, Option.map_id_fun', id]

theorem belongQue_setStatus (u : Uploads) (other : Nat) (status : UploadStatus) (task : Nat) :
    (u.setStatus other status).belongQue task = u.belongQue task := by
  rw [belongQue, setStatus, List.getElem?_modify, belongQue]
  split_ifs with h
  · cases u.tasks[task]? <;> rfl
  · rw [Option.map_eq_map, Option.map_id_fun', id]

theorem belongQue_changeStatus (u : Uploads) (name : QueueName) (path : Str)
    (status : UploadStatus) (task : Nat) :
    (u.changeStatus name path status).belongQue task = u.belongQue task := by
  rw [changeStatus]
  cases (u.queue name).findInMap path with
  | none => rfl
  | some other => exact u.belongQue_setStatus other status task

theorem leads_setStatus (u : Uploads) (other : Nat) (status : UploadStatus) :
    (u.setStatus other status).Leads name path task ↔ u.Leads name path task := by
  cases name <;> exact Iff.rfl

theorem leads_changeStatus (u : Uploads) (name' : QueueName) (path' : Str)
    (status : UploadStatus) :
    (u.changeStatus name' path' status).Leads name path task ↔ u.Leads name path task := by
  rw [changeStatus]
  cases (u.queue name').findInMap path' with
  | none => exact Iff.rfl
  | some other => exact u.leads_setStatus other status

theorem status_changeStatus_of_leads (h : u.Leads name path task) :
    (u.changeStatus name path status).status task = (u.status task).map fun _ ↦ status := by
  rw [changeStatus, show (u.queue name).findInMap path = some task from h]
  exact (u.status_setStatus task status task).trans (if_pos rfl)

theorem status_changeStatus_of_not (h : ¬ u.Leads name path task) :
    (u.changeStatus name path status).status task = u.status task := by
  rw [changeStatus]
  cases hfind : (u.queue name).findInMap path with
  | none => rfl
  | some other =>
    have hne : other ≠ task := fun he ↦ h (hfind.trans (congrArg some he))
    exact (u.status_setStatus other status task).trans (if_neg hne)

/-- A map has a task under the name of its own remote path. -/
def Keyed (u : Uploads) : Prop :=
  ∀ name path task, u.Leads name path task →
    ∃ t, u.tasks[task]? = some t ∧ SameKey t.remotePath path

theorem leads_rm (u : Uploads) (name' : QueueName) (path' : Str) :
    (u.rm name' path').Leads name path task ↔ u.Leads name path task := by
  rw [Uploads.rm]
  cases (u.queue name').findInMap path' with
  | none => exact Iff.rfl
  | some other =>
    simp only
    split_ifs
    · exact u.leads_setStatus other .canceled
    · exact Iff.rfl

theorem belongQue_rm (u : Uploads) (name' : QueueName) (path' : Str) (task : Nat) :
    (u.rm name' path').belongQue task = u.belongQue task := by
  rw [Uploads.rm]
  cases (u.queue name').findInMap path' with
  | none => rfl
  | some other =>
    simp only
    split_ifs
    · exact u.belongQue_setStatus other .canceled task
    · rfl

/-- `UploadQueue::rm` changes the status of the task of the path, when it is not too late. -/
theorem status_rm (u : Uploads) (name' : QueueName) (path' : Str) (task : Nat) :
    (u.rm name' path').status task = u.status task ∨
      u.Leads name' path' task ∧
        (u.status task = some .waiting ∨ u.status task = some .dataUploading) := by
  rw [Uploads.rm]
  cases hfind : (u.queue name').findInMap path' with
  | none => exact .inl rfl
  | some other =>
    simp only
    split_ifs with hstatus
    · by_cases hsame : other = task
      · exact .inr ⟨hsame ▸ hfind, hsame ▸ hstatus⟩
      · exact .inl ((u.status_setStatus other .canceled task).trans (if_neg hsame))
    · exact .inl rfl

theorem status_rm_of_finished (name' : QueueName) (path' : Str)
    (h : u.status task = some .finished) : (u.rm name' path').status task = some .finished := by
  obtain hsame | ⟨-, hstatus⟩ := u.status_rm name' path' task
  · rw [hsame, h]
  · rw [h] at hstatus
    obtain hstatus | hstatus := hstatus <;> cases hstatus

section

variable {u' : Uploads} {t : UploadTask}

/-- `push_back` of a task that is there, onto a queue that has room. -/
theorem pushBack_eq_ok : u.pushBack name task = .ok u' ↔ ∃ t, u.tasks[task]? = some t ∧
    (u.queue name).que.length < (u.queue name).capacity ∧
    u' = { u.setQueue ((u.queue name).pushed task t.remotePath) name with
      tasks := u.tasks.set task { t with uploadStatus := .waiting, belongQue := some name } } := by
  rw [pushBack]
  cases htask : u.tasks[task]? with
  | none => exact iff_of_false nofun fun ⟨t, ht, _⟩ ↦ (by cases ht)
  | some t =>
    simp only [UploadQueue.pushBack]
    by_cases hfull : (u.queue name).capacity ≤ (u.queue name).que.length
    · rw [if_pos hfull]
      refine iff_of_false nofun ?_
      rintro ⟨t', -, hroom, -⟩
      omega
    · rw [if_neg hfull]
      constructor
      · intro h
        exact ⟨t, rfl, Nat.not_le.mp hfull, (Except.ok.inj h).symm⟩
      · rintro ⟨t', ht', -, rfl⟩
        obtain rfl := Option.some.inj ht'
        rfl

theorem queue_pushBack (h : u.pushBack name task = .ok u') (ht : u.tasks[task]? = some t)
    (name' : QueueName) : u'.queue name' =
      if name' = name then (u.queue name).pushed task t.remotePath else u.queue name' := by
  obtain ⟨t', ht', -, rfl⟩ := pushBack_eq_ok.mp h
  obtain rfl := Option.some.inj (ht.symm.trans ht')
  cases name <;> cases name' <;> rfl

theorem tasks_pushBack (h : u.pushBack name task = .ok u') (ht : u.tasks[task]? = some t) :
    u'.tasks = u.tasks.set task { t with uploadStatus := .waiting, belongQue := some name } := by
  obtain ⟨t', ht', -, rfl⟩ := pushBack_eq_ok.mp h
  obtain rfl := Option.some.inj (ht.symm.trans ht')
  cases name <;> rfl

theorem leads_pushBack (h : u.pushBack name task = .ok u') (ht : u.tasks[task]? = some t)
    {name' : QueueName} {other : Nat} : u'.Leads name' path other ↔
      if name' = name ∧ SameKey path t.remotePath then other = task else u.Leads name' path other := by
  rw [Leads, queue_pushBack h ht]
  by_cases hname : name' = name
  · subst hname
    rw [if_pos rfl, UploadQueue.findInMap_pushed]
    by_cases hkey : SameKey path t.remotePath
    · rw [if_pos hkey, if_pos ⟨rfl, hkey⟩, Option.some_inj]
      exact eq_comm
    · rw [if_neg hkey, if_neg fun hand ↦ hkey hand.2, Leads]
  · rw [if_neg hname, if_neg fun hand ↦ hname hand.1, Leads]

/-- The maps of the queues have their tasks under the names of their remote paths. -/
theorem Keyed.pushBack (hu : u.Keyed) (h : u.pushBack name task = .ok u') : u'.Keyed := by
  obtain ⟨t, ht, -, -⟩ := pushBack_eq_ok.mp h
  intro name' path other hleads
  rw [tasks_pushBack h ht]
  rw [leads_pushBack h ht] at hleads
  split_ifs at hleads with hkey
  · obtain ⟨hlt, -⟩ := List.getElem?_eq_some_iff.mp ht
    subst hleads
    exact ⟨_, List.getElem?_set_self hlt, hkey.2.symm⟩
  · obtain ⟨t', ht', hsame⟩ := hu name' path other hleads
    by_cases heq : task = other
    · subst heq
      obtain rfl := Option.some.inj (ht.symm.trans ht')
      obtain ⟨hlt, -⟩ := List.getElem?_eq_some_iff.mp ht
      exact ⟨_, List.getElem?_set_self hlt, hsame⟩
    · exact ⟨t', (List.getElem?_set_ne heq).trans ht', hsame⟩

theorem keyed_empty (tasks : List UploadTask) : Keyed { tasks } := by
  rintro (_ | _) path task hleads <;> cases hleads

end

end Uploads

end Spkdfs
