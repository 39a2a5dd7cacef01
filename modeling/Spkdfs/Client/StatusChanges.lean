import Spkdfs.Client.QueueRuns

namespace Spkdfs

open Library

namespace Uploads

theorem remotePath_setStatus (u : Uploads) (other : Nat) (status : UploadStatus) (task : Nat) :
    (u.setStatus other status).remotePath task = u.remotePath task := by
  rw [remotePath, setStatus, List.getElem?_modify, remotePath]
  split_ifs with h
  · cases u.tasks[task]? <;> rfl
  · rw [Option.map_eq_map, Option.map_id_fun', id]

theorem remotePath_changeStatus (u : Uploads) (owner : QueueName) (path : Str)
    (status : UploadStatus) (task : Nat) :
    (u.changeStatus owner path status).remotePath task = u.remotePath task := by
  rw [changeStatus]
  cases (u.queue owner).findInMap path with
  | none => rfl
  | some other => exact u.remotePath_setStatus other status task

theorem tasks_setQueue (u : Uploads) (q : UploadQueue) (name : QueueName) :
    (u.setQueue q name).tasks = u.tasks := by
  cases name <;> rfl

end Uploads

namespace QueueRun

variable {name : QueueName} {s s' : QueueRun} {call : QueueCall} {tasks : List UploadTask}
  {task : Nat} {path : Str} {status : UploadStatus}

/-- The last task with such a path that was pushed. -/
def lastPushed (s : QueueRun) (path : Str) : Option Nat :=
  s.pushed.reverse.find? fun task ↦ (s.uploads.remotePath task).any (SameKey path)

/-- The map of the queue has the last task pushed for each path, and every task pushed belongs to
the queue. -/
structure Mapped (name : QueueName) (s : QueueRun) : Prop where
  map : ∀ path, (s.uploads.queue name).findInMap path = s.lastPushed path
  owner : ∀ task ∈ s.pushed, s.uploads.belongQue task = some name
  taken : ∀ task ∈ s.taken, task ∈ s.pushed

theorem Mapped.step (hs : s.Mapped name) (hconserved : s'.Conserved name)
    (h : s.Stepped name call s') : s'.Mapped name := by
  have htaken : ∀ task ∈ s'.taken, task ∈ s'.pushed := fun task ht ↦
    hconserved.tasks.subset (List.mem_append_left _ ht)
  cases h with
  | @pushed task path u hpushed =>
    refine ⟨fun path' ↦ ?_, fun other hother ↦ ?_, htaken⟩
    · have hpaths : u.remotePath = s.uploads.remotePath := funext hpushed.remotePath
      have hlast : lastPushed { s with uploads := u, pushed := s.pushed ++ [task] } path' =
          if SameKey path' path then some task else s.lastPushed path' := by
        simp only [lastPushed, List.reverse_append, List.reverse_singleton, List.singleton_append,
          List.find?_cons, hpaths, hpushed.found, Option.any_some]
        by_cases hkey : SameKey path' path <;> simp [hkey]
      rw [hlast, hpushed.queue, if_pos rfl, UploadQueue.findInMap_pushed, hs.map]
    · rw [hpushed.belongQue]
      split_ifs with hsame
      · rfl
      · obtain hold | hnew := List.mem_append.mp hother
        · exact hs.owner other hold
        · exact absurd (List.mem_singleton.mp hnew) hsame
  | nothing => exact hs
  | @taken call batch q hperm hsub hmap =>
    have htasks := s.uploads.tasks_setQueue q name
    refine ⟨fun path ↦ ?_, fun task ht ↦ ?_, htaken⟩
    · have hlast : lastPushed
          { s with uploads := s.uploads.setQueue q name, taken := s.taken ++ batch } path =
            s.lastPushed path := by
        simp only [lastPushed, Uploads.remotePath, htasks]
      rw [hlast, que_setQueue, UploadQueue.findInMap, hmap]
      exact hs.map path
    · rw [Uploads.belongQue, htasks]
      exact hs.owner task ht
  | @changed task owner path status howner hpath =>
    refine ⟨fun path' ↦ ?_, fun other hother ↦ ?_, htaken⟩
    · have hlast : lastPushed { s with uploads := s.uploads.changeStatus owner path status } path' =
          s.lastPushed path' := by
        simp only [lastPushed, Uploads.remotePath_changeStatus]
      rw [hlast, queue_changeStatus]
      exact hs.map path'
    · rw [Uploads.belongQue_changeStatus]
      exact hs.owner other hother

/-- The upload of a task changes its status once it has been taken out of the queue. -/
def Issued (name : QueueName) (s : QueueRun) : QueueCall → Prop
  | .changeStatus task _ => task ∈ s.taken ∧ task ∉ s.que name
  | _ => True

/-- No other task with such a path was pushed after this one; or the last of them shows the status
already, and so does this one. -/
def Newest (s : QueueRun) (task : Nat) (status : UploadStatus) : Prop :=
  ∃ path, s.uploads.remotePath task = some path ∧
    (s.lastPushed path = some task ∨
      s.uploads.status task = some status ∧
        ∀ other, s.lastPushed path = some other → s.uploads.status other = some status)

def HitsOwn (s : QueueRun) : QueueCall → Prop
  | .changeStatus task status => s.Newest task status
  | _ => True

/-- The status of the task is changed, and that of no other one. -/
structure Hits (u u' : Uploads) (task : Nat) (status : UploadStatus) : Prop where
  own : u'.status task = some status
  others : ∀ other, other ≠ task → u'.status other = u.status other

theorem reached (h : Reaches (QueueRun.step name) (Issued name) { uploads := { tasks } } s) :
    s.Conserved name ∧ s.Mapped name := by
  have hstart : QueueRun.Conserved name { uploads := { tasks } } ∧
      QueueRun.Mapped name { uploads := { tasks } } := by
    cases name <;> exact ⟨⟨List.Perm.refl _, List.Sublist.refl _⟩, ⟨fun _ ↦ rfl, nofun, nofun⟩⟩
  refine h.invariant (I := fun s ↦ s.Conserved name ∧ s.Mapped name) hstart
    fun t call u _ ht _ hs ↦ ?_
  have hstepped := step_cases hs
  have hconserved := ht.1.step hstepped
  exact ⟨hconserved, ht.2.step hconserved hstepped⟩

theorem status_of_remotePath {u : Uploads} (h : u.remotePath task = some path) :
    ∃ status, u.status task = some status := by
  obtain ⟨t, ht, -⟩ := Option.map_eq_some_iff.mp h
  exact ⟨t.uploadStatus, by rw [Uploads.status, ht, Option.map_some]⟩

theorem status_of_lastPushed (h : s.lastPushed path = some task) :
    ∃ status, s.uploads.status task = some status := by
  rw [lastPushed] at h
  have hsome := List.find?_some h
  obtain ⟨own, hown, -⟩ := (Option.any_eq_true _ _).mp hsome
  exact status_of_remotePath hown

/-- `change_status` hits the last task pushed for the path. -/
theorem hits_iff (hmapped : s.Mapped name) (hissued : s.Issued name (.changeStatus task status))
    (hs : s.step name (.changeStatus task status) = some s') :
    Hits s.uploads s'.uploads task status ↔ s.Newest task status := by
  have howner := hmapped.owner task (hmapped.taken task hissued.1)
  obtain ⟨path, hpath⟩ : ∃ path, s.uploads.remotePath task = some path := by
    rw [step, howner] at hs
    cases hpath : s.uploads.remotePath task with
    | none =>
      rw [hpath] at hs
      cases hs
    | some path => exact ⟨path, rfl⟩
  rw [step, howner, hpath] at hs
  obtain rfl := Option.some.inj hs
  have hown := status_of_remotePath hpath
  constructor
  · rintro ⟨hself, hothers⟩
    refine ⟨path, hpath, ?_⟩
    by_cases hlast : s.lastPushed path = some task
    · exact .inl hlast
    · have hnot : ¬ s.uploads.Leads name path task := fun hleads ↦
        hlast ((hmapped.map path).symm.trans hleads)
      refine .inr ⟨(Uploads.status_changeStatus_of_not hnot).symm.trans hself, fun other hother ↦ ?_⟩
      have hleads : s.uploads.Leads name path other := (hmapped.map path).trans hother
      have hne : other ≠ task := fun he ↦ hlast (hother.trans (congrArg some he))
      obtain ⟨old, hold⟩ := status_of_lastPushed hother
      have hchanged : (s.uploads.changeStatus name path status).status other =
          (s.uploads.status other).map fun _ ↦ status := Uploads.status_changeStatus_of_leads hleads
      rw [hothers other hne, hold] at hchanged
      rw [hold, hchanged, Option.map_some]
  · rintro ⟨path', hpath', hnewest⟩
    obtain rfl := Option.some.inj (hpath.symm.trans hpath')
    obtain ⟨old, hold⟩ := hown
    by_cases hlast : s.lastPushed path = some task
    · have hleads : s.uploads.Leads name path task := (hmapped.map path).trans hlast
      refine ⟨?_, fun other hne ↦ Uploads.status_changeStatus_of_not fun hother ↦ hne ?_⟩
      · exact (Uploads.status_changeStatus_of_leads hleads).trans (by rw [hold, Option.map_some])
      · exact Option.some.inj (hother.symm.trans hleads)
    · obtain ⟨hself, hothers⟩ := hnewest.resolve_left hlast
      have hnot : ¬ s.uploads.Leads name path task := fun hleads ↦
        hlast ((hmapped.map path).symm.trans hleads)
      refine ⟨(Uploads.status_changeStatus_of_not hnot).trans hself, fun other _ ↦ ?_⟩
      by_cases hleads : s.uploads.Leads name path other
      · have hsame := hothers other ((hmapped.map path).symm.trans hleads)
        exact (Uploads.status_changeStatus_of_leads hleads).trans (by rw [hsame, Option.map_some])
      · exact Uploads.status_changeStatus_of_not hleads

/-- What waits in the queue shows so. -/
def Waits (name : QueueName) (s : QueueRun) : Prop :=
  ∀ task ∈ s.que name, s.uploads.status task = some .waiting

theorem Waits.step (h : s.Waits name) (hmapped : s.Mapped name) (hissued : s.Issued name call)
    (hown : s.HitsOwn call) (hs : s.step name call = some s') : s'.Waits name := by
  have hstepped := step_cases hs
  cases hstepped with
  | @pushed task path u hpushed =>
    have hque : QueueRun.que { s with uploads := u, pushed := s.pushed ++ [task] } name =
        s.que name ++ [task] := by
      rw [que, hpushed.queue, if_pos rfl]
      rfl
    intro other hother
    rw [hque] at hother
    rw [hpushed.status]
    split_ifs with hsame
    · rfl
    · obtain hold | hnew := List.mem_append.mp hother
      · exact h other hold
      · exact absurd (List.mem_singleton.mp hnew) hsame
  | nothing => exact h
  | @taken call batch q hperm hsub hmap hcall =>
    intro task ht
    rw [que, que_setQueue] at ht
    rw [Uploads.status, Uploads.tasks_setQueue]
    exact h task (hsub.subset ht)
  | @changed task owner path status howner hpath =>
    have hhits := (hits_iff hmapped hissued hs).mpr hown
    intro other hother
    rw [que, queue_changeStatus] at hother
    have hne : other ≠ task := fun he ↦ hissued.2 (he ▸ hother)
    rw [hhits.others other hne]
    exact h other hother

end QueueRun

/-- In every run, a change of status hits its own task, and no other one, if and only if the map
still has this task for its path; and in a run in which all of them do, what waits in the queue
shows so. -/
theorem change_status_hits_own {name : QueueName} {tasks : List UploadTask} :
    (∀ s, Reaches (QueueRun.step name) (QueueRun.Issued name) { uploads := { tasks } } s →
      ∀ task status s', s.Issued name (.changeStatus task status) →
        s.step name (.changeStatus task status) = some s' →
          (QueueRun.Hits s.uploads s'.uploads task status ↔ s.Newest task status)) ∧
    ∀ s, Reaches (QueueRun.step name) (fun s call ↦ s.Issued name call ∧ s.HitsOwn call)
        { uploads := { tasks } } s → s.Waits name := by
  refine ⟨fun s h task status s' hissued hs ↦ ?_, fun s h ↦ ?_⟩
  · exact QueueRun.hits_iff (QueueRun.reached h).2 hissued hs
  · have hstart : QueueRun.Waits name { uploads := { tasks } } := by
      cases name <;> exact nofun
    refine h.invariant hstart fun t call u ht hwaits hguard hs ↦ ?_
    have hmapped := (QueueRun.reached (ht.mono fun _ _ hg ↦ hg.1)).2
    exact hwaits.step hmapped hguard.1 hguard.2 hs

/-- Two uploads to one path. -/
def twiceTasks : List UploadTask :=
  [⟨"/a".toList, "/f".toList, 3, [], none, .waiting⟩,
    ⟨"/b".toList, "/f".toList, 4, [], none, .waiting⟩]

def betweenTask : UploadTask := ⟨"/c".toList, "/g".toList, 5, [], none, .waiting⟩

/-- A third upload, to another path, is taken after the first one and with the second one waiting. -/
theorem change_status_hits_own_between : ∃ s s',
    Reaches (QueueRun.step .bigFile) (fun s call ↦ s.Issued .bigFile call ∧ s.HitsOwn call)
      { uploads := { tasks := twiceTasks ++ [betweenTask] } } s ∧
    s.taken = [0, 2] ∧ s.que .bigFile = [1] ∧ s.uploads.status 0 = some .dataUploading ∧
    s.step .bigFile (.changeStatus 2 .dataUploading) = some s' ∧
    QueueRun.Hits s.uploads s'.uploads 2 .dataUploading ∧ s'.Waits .bigFile := by
  obtain ⟨s, s', hreach, htaken, hque, hstatus, hnewest, hs⟩ : ∃ s s',
      Reaches (QueueRun.step .bigFile) (fun s call ↦ s.Issued .bigFile call ∧ s.HitsOwn call)
        { uploads := { tasks := twiceTasks ++ [betweenTask] } } s ∧
      s.taken = [0, 2] ∧ s.que .bigFile = [1] ∧ s.uploads.status 0 = some .dataUploading ∧
      s.Newest 2 .dataUploading ∧ s.step .bigFile (.changeStatus 2 .dataUploading) = some s' := by
    have hstart : Reaches (QueueRun.step .bigFile)
        (fun s call ↦ s.Issued .bigFile call ∧ s.HitsOwn call)
        { uploads := { tasks := twiceTasks ++ [betweenTask] } }
        { uploads := { tasks := twiceTasks ++ [betweenTask] } } := .refl
    have hpush := hstart.tail (a := QueueCall.pushBack 0) ⟨trivial, trivial⟩ rfl
    have hother := hpush.tail (a := QueueCall.pushBack 2) ⟨trivial, trivial⟩ rfl
    have hpop := hother.tail (a := QueueCall.popFront) ⟨trivial, trivial⟩ rfl
    have hchange := hpop.tail (a := QueueCall.changeStatus 0 .dataUploading)
      ⟨⟨by decide, by decide⟩, ⟨"/f".toList, rfl, .inl (by decide +kernel)⟩⟩ rfl
    have hagain := hchange.tail (a := QueueCall.pushBack 1) ⟨trivial, trivial⟩ rfl
    have hnext := hagain.tail (a := QueueCall.popFront) ⟨trivial, trivial⟩ rfl
    exact ⟨_, _, hnext, rfl, rfl, rfl, ⟨"/g".toList, rfl, .inl (by decide +kernel)⟩, rfl⟩
  have hissued : s.Issued .bigFile (.changeStatus 2 .dataUploading) := by
    refine ⟨htaken ▸ by decide, ?_⟩
    rw [hque]
    decide
  obtain ⟨hhits, hwaits⟩ := @change_status_hits_own .bigFile (twiceTasks ++ [betweenTask])
  have hissuing := hreach.mono fun _ _ hg ↦ hg.1
  refine ⟨s, s', hreach, htaken, hque, hstatus, hs,
    (hhits s hissuing 2 _ s' hissued hs).mpr hnewest, ?_⟩
  exact hwaits s' (hreach.tail ⟨hissued, hnewest⟩ hs)

/-- Both are pushed before the first one is taken: its upload changes the status of the second one,
which still waits in the queue. -/
theorem change_status_hits_other : ∃ s s',
    Reaches (QueueRun.step .bigFile) (QueueRun.Issued .bigFile)
      { uploads := { tasks := twiceTasks } } s ∧
    s.Issued .bigFile (.changeStatus 0 .dataUploading) ∧
    s.step .bigFile (.changeStatus 0 .dataUploading) = some s' ∧ s'.que .bigFile = [1] ∧
    s'.uploads.status 0 = some .waiting ∧ s'.uploads.status 1 = some .dataUploading ∧
    ¬ QueueRun.Hits s.uploads s'.uploads 0 .dataUploading ∧ ¬ s'.Waits .bigFile := by
  obtain ⟨s, s', hreach, hissued, hs, hque, hfirst, hsecond⟩ : ∃ s s',
      Reaches (QueueRun.step .bigFile) (QueueRun.Issued .bigFile)
        { uploads := { tasks := twiceTasks } } s ∧
      s.Issued .bigFile (.changeStatus 0 .dataUploading) ∧
      s.step .bigFile (.changeStatus 0 .dataUploading) = some s' ∧ s'.que .bigFile = [1] ∧
      s'.uploads.status 0 = some .waiting ∧ s'.uploads.status 1 = some .dataUploading := by
    have hstart : Reaches (QueueRun.step .bigFile) (QueueRun.Issued .bigFile)
        { uploads := { tasks := twiceTasks } } { uploads := { tasks := twiceTasks } } := .refl
    have hpush := hstart.tail (a := QueueCall.pushBack 0) trivial rfl
    have hagain := hpush.tail (a := QueueCall.pushBack 1) trivial rfl
    have hpop := hagain.tail (a := QueueCall.popFront) trivial rfl
    exact ⟨_, _, hpop, ⟨by decide, by decide⟩, rfl, rfl, rfl, rfl⟩
  refine ⟨s, s', hreach, hissued, hs, hque, hfirst, hsecond, fun hhits ↦ ?_, fun hwaits ↦ ?_⟩
  · have hown := hhits.own
    rw [hfirst] at hown
    cases hown
  · have hwaiting := hwaits 1 (hque ▸ List.mem_singleton_self 1)
    rw [hsecond] at hwaiting
    cases hwaiting

end Spkdfs
