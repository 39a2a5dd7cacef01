import Spkdfs.Client.DaemonSteps
import Spkdfs.Library.Runs

namespace Spkdfs

open Library

/-- The calls of one queue, each under its mutex. A status is changed by the upload of a task. -/
inductive QueueCall
  | pushBack (task : Nat)
  | popFront
  | existInQue (localPath remotePath : Str)
  | getUntilSize (size : Nat)
  | changeStatus (task : Nat) (status : UploadStatus)
deriving DecidableEq

/-- A queue after some calls, with the tasks pushed and those returned so far. -/
structure QueueRun where
  uploads : Uploads
  pushed : List Nat := []
  taken : List Nat := []

namespace QueueRun

def que (s : QueueRun) (name : QueueName) : List Nat := (s.uploads.queue name).que

/-- Calls on this queue. `push_back` throws on a full one; `change_status` needs a queue that the
task belongs to. -/
def step (name : QueueName) (s : QueueRun) : QueueCall → Option QueueRun
  | .pushBack task =>
    match s.uploads.pushBack name task with
    | .ok u => some { s with uploads := u, pushed := s.pushed ++ [task] }
    | .error .assertion => none
    | .error _ => some s
  | .popFront =>
    match (s.uploads.queue name).popFront with
    | none => some s
    | some (task, q) =>
      some { s with uploads := s.uploads.setQueue q name, taken := s.taken ++ [task] }
  | .existInQue localPath remotePath =>
    match (s.uploads.queue name).existInQue fun task ↦
        s.uploads.localPath task = some localPath ∧ s.uploads.remotePath task = some remotePath with
    | none => some s
    | some (task, q) =>
      some { s with uploads := s.uploads.setQueue q name, taken := s.taken ++ [task] }
  | .getUntilSize size =>
    let (batch, q) := (s.uploads.queue name).getUntilSize s.uploads.size size
    some { s with uploads := s.uploads.setQueue q name, taken := s.taken ++ batch }
  | .changeStatus task status =>
    match s.uploads.belongQue task, s.uploads.remotePath task with
    | some owner, some path => some { s with uploads := s.uploads.changeStatus owner path status }
    | _, _ => none

/-- Nothing but `push_back` on this queue and a change of status touches a task or the map. -/
inductive Stepped (name : QueueName) (s : QueueRun) : QueueCall → QueueRun → Prop
  | pushed {task : Nat} {path : Str} {u : Uploads} (h : s.uploads.Pushed name task path u) :
      Stepped name s (.pushBack task) { s with uploads := u, pushed := s.pushed ++ [task] }
  | nothing (call : QueueCall) (h : ∀ task status, call ≠ .changeStatus task status) :
      Stepped name s call s
  | taken (call : QueueCall) {batch : List Nat} {q : UploadQueue}
      (hperm : (batch ++ q.que).Perm (s.que name)) (hsub : q.que.Sublist (s.que name))
      (hmap : q.map = (s.uploads.queue name).map)
      (h : ∀ task status, call ≠ .changeStatus task status) :
      Stepped name s call
        { s with uploads := s.uploads.setQueue q name, taken := s.taken ++ batch }
  | changed {task : Nat} {owner : QueueName} {path : Str} (status : UploadStatus)
      (howner : s.uploads.belongQue task = some owner)
      (hpath : s.uploads.remotePath task = some path) :
      Stepped name s (.changeStatus task status)
        { s with uploads := s.uploads.changeStatus owner path status }

variable {name : QueueName} {s s' : QueueRun} {call : QueueCall} {tasks : List UploadTask}

theorem step_cases (h : s.step name call = some s') : s.Stepped name call s' := by
  cases call with
  | pushBack task =>
    rw [step] at h
    split at h
    · rename_i u hpush
      obtain rfl := Option.some.inj h
      obtain ⟨path, hpushed⟩ := Uploads.pushed_of_pushBack hpush
      exact .pushed hpushed
    · cases h
    · obtain rfl := Option.some.inj h
      exact .nothing _ (by simp)
  | popFront =>
    rw [step, UploadQueue.popFront] at h
    cases hque : (s.uploads.queue name).que with
    | nil =>
      rw [hque] at h
      obtain rfl := Option.some.inj h
      exact .nothing _ (by simp)
    | cons task rest =>
      rw [hque] at h
      obtain rfl := Option.some.inj h
      refine .taken _ ?_ ?_ rfl (by simp)
      · rw [que, hque]
        exact List.Perm.refl _
      · rw [que, hque]
        exact List.sublist_cons_self task rest
  | existInQue localPath remotePath =>
    rw [step] at h
    split at h
    · obtain rfl := Option.some.inj h
      exact .nothing _ (by simp)
    · rename_i task q hexist
      obtain rfl := Option.some.inj h
      obtain ⟨-, hmap, before, after, hque, hleft⟩ := UploadQueue.existInQue_eq_some hexist
      refine .taken _ ?_ ?_ hmap (by simp)
      · rw [que, hque, hleft, List.singleton_append]
        exact List.perm_middle.symm
      · rw [que, hque, hleft]
        exact (List.Sublist.refl before).append (List.sublist_cons_self task after)
  | getUntilSize size =>
    obtain rfl := Option.some.inj h
    have happend := UploadQueue.takeUntilSize_append s.uploads.size size 0
      (s.uploads.queue name).que
    refine .taken _ ?_ ?_ rfl (by simp)
    · exact List.Perm.of_eq happend
    · have hsub := List.sublist_append_right
        (UploadQueue.takeUntilSize s.uploads.size size 0 (s.uploads.queue name).que).1
        (UploadQueue.takeUntilSize s.uploads.size size 0 (s.uploads.queue name).que).2
      rw [happend] at hsub
      exact hsub
  | changeStatus task status =>
    rw [step] at h
    split at h
    · rename_i owner path howner hpath
      obtain rfl := Option.some.inj h
      exact .changed status howner hpath
    · cases h

theorem que_setQueue (u : Uploads) (q : UploadQueue) (name : QueueName) :
    (u.setQueue q name).queue name = q := by
  cases name <;> rfl

theorem queue_changeStatus (u : Uploads) (owner : QueueName) (path : Str) (status : UploadStatus)
    (name : QueueName) : (u.changeStatus owner path status).queue name = u.queue name := by
  rw [Uploads.changeStatus]
  cases (u.queue owner).findInMap path <;> cases name <;> rfl

/-- What was pushed is still queued, in the order of the pushes, or was returned once. -/
structure Conserved (name : QueueName) (s : QueueRun) : Prop where
  tasks : (s.taken ++ s.que name).Perm s.pushed
  order : (s.que name).Sublist s.pushed

theorem Conserved.step (h : s.Conserved name) (hs : s.Stepped name call s') :
    s'.Conserved name := by
  cases hs with
  | @pushed task path u hpushed =>
    have hque : (u.queue name).que = s.que name ++ [task] := by
      rw [hpushed.queue, if_pos rfl]
      rfl
    refine ⟨?_, ?_⟩
    · rw [que, hque, ← List.append_assoc]
      exact h.tasks.append_right [task]
    · rw [que, hque]
      exact h.order.append (List.Sublist.refl [task])
  | nothing => exact h
  | @taken call batch q hperm hsub =>
    refine ⟨?_, ?_⟩
    · rw [que, que_setQueue, List.append_assoc]
      exact (hperm.append_left s.taken).trans h.tasks
    · rw [que, que_setQueue]
      exact hsub.trans h.order
  | changed status howner hpath =>
    have hque : ∀ u, QueueRun.que { s with uploads := u } name = (u.queue name).que := fun _ ↦ rfl
    refine ⟨?_, ?_⟩
    · rw [hque, queue_changeStatus]
      exact h.tasks
    · rw [hque, queue_changeStatus]
      exact h.order

end QueueRun

/-- A batch of the queue, of total size less than the limit, and not to be made longer. -/
structure UploadQueue.Batch (size : Nat → Nat) (limit : Nat) (que batch : List Nat) : Prop where
  isPrefix : batch <+: que
  below : (batch.map size).sum < limit
  maximal : ∀ longer, longer <+: que → (longer.map size).sum < limit → longer <+: batch
  nonempty : limit ≤ (que.map size).sum → (∀ task ∈ que, size task < limit) → batch ≠ []

namespace UploadQueue

variable {size : Nat → Nat} {limit sum : Nat} {que : List Nat}

/-- The loop of `get_until_size` below 2^64: where it stops, the next task would reach the limit. -/
theorem takeUntilSize_spec (hfits : sum + (que.map size).sum < 2 ^ 64) (hsum : sum < limit) :
    sum + ((takeUntilSize size limit sum que).1.map size).sum < limit ∧
      ∀ longer, longer <+: que → sum + (longer.map size).sum < limit →
        longer <+: (takeUntilSize size limit sum que).1 := by
  induction que generalizing sum with
  | nil => exact ⟨hsum, fun longer hlonger _ ↦ hlonger⟩
  | cons task rest ih =>
    rw [List.map_cons, List.sum_cons] at hfits
    have hmod : (sum + size task) % 2 ^ 64 = sum + size task := Nat.mod_eq_of_lt (by omega)
    rw [takeUntilSize, hmod]
    split_ifs with hnext
    · obtain ⟨hbelow, hmax⟩ := ih (by omega) hnext
      refine ⟨?_, fun longer hlonger hless ↦ ?_⟩
      · rw [List.map_cons, List.sum_cons]
        omega
      · cases longer with
        | nil => exact List.nil_prefix
        | cons first longer =>
          obtain ⟨rfl, hrest⟩ := List.cons_prefix_cons.mp hlonger
          rw [List.map_cons, List.sum_cons] at hless
          exact List.cons_prefix_cons.mpr ⟨rfl, hmax longer hrest (by omega)⟩
    · refine ⟨hsum, fun longer hlonger hless ↦ ?_⟩
      cases longer with
      | nil => exact List.nil_prefix
      | cons first longer =>
        obtain ⟨rfl, -⟩ := List.cons_prefix_cons.mp hlonger
        rw [List.map_cons, List.sum_cons] at hless
        omega

theorem getUntilSize_batch {q : UploadQueue} (hlimit : 0 < limit)
    (hfits : (q.que.map size).sum < 2 ^ 64) :
    Batch size limit q.que (q.getUntilSize size limit).1 := by
  obtain ⟨hbelow, hmax⟩ := takeUntilSize_spec (by rwa [Nat.zero_add]) hlimit
  have happend := takeUntilSize_append size limit 0 q.que
  simp only [Nat.zero_add] at hbelow hmax
  refine ⟨⟨_, happend⟩, hbelow, hmax, fun hfull hsmall hnil ↦ ?_⟩
  cases hque : q.que with
  | nil =>
    rw [hque, List.map_nil, List.sum_nil] at hfull
    omega
  | cons task rest =>
    have hfirst : [task] <+: q.que := by
      rw [hque]
      exact List.cons_prefix_cons.mpr ⟨rfl, List.nil_prefix⟩
    have hone : (List.map size [task]).sum < limit := by
      rw [List.map_singleton, List.sum_singleton]
      exact hsmall task (hque ▸ List.mem_cons_self)
    have htaken := hmax [task] hfirst hone
    rw [show (takeUntilSize size limit 0 q.que).1 = [] from hnil] at htaken
    exact absurd (List.prefix_nil.mp htaken) (List.cons_ne_nil _ _)

end UploadQueue

/-- Whatever the order of the calls, every task that was pushed is queued or was returned, once for
each push, the queue keeps the order of the pushes, and each batch is as long as it can be. -/
theorem upload_queue_conserves {name : QueueName} {tasks : List UploadTask} {s : QueueRun}
    (h : Reaches (QueueRun.step name) (fun _ _ ↦ True) { uploads := { tasks } } s) :
    s.Conserved name ∧
      ∀ limit, 0 < limit → ((s.que name).map s.uploads.size).sum < 2 ^ 64 →
        UploadQueue.Batch s.uploads.size limit (s.que name)
          ((s.uploads.queue name).getUntilSize s.uploads.size limit).1 := by
  have hstart : QueueRun.Conserved name { uploads := { tasks } } := by
    cases name <;> exact ⟨List.Perm.refl _, List.Sublist.refl _⟩
  refine ⟨h.invariant hstart fun t call u _ ht _ hs ↦ ht.step (QueueRun.step_cases hs), ?_⟩
  intro limit hlimit hfits
  exact UploadQueue.getUntilSize_batch hlimit hfits

/-- Three tasks are pushed. -/
def queuedTasks : List UploadTask :=
  [⟨"/a".toList, "/f".toList, 3, [], none, .waiting⟩,
    ⟨"/b".toList, "/g".toList, 4, [], none, .waiting⟩,
    ⟨"/c".toList, "/h".toList, 5, [], none, .waiting⟩]

def queuedRun (calls : List QueueCall) : Option QueueRun :=
  run (QueueRun.step .smallFile) (fun _ _ ↦ true) { uploads := { tasks := queuedTasks } } calls

/-- The first two of them make a batch below 8. -/
theorem upload_queue_conserves_three : ∃ s, queuedRun [.pushBack 0, .pushBack 1, .pushBack 2] = some s ∧
    s.Conserved .smallFile ∧ s.que .smallFile = [0, 1, 2] ∧
    ((s.uploads.queue .smallFile).getUntilSize s.uploads.size 8).1 = [0, 1] ∧
    UploadQueue.Batch s.uploads.size 8 [0, 1, 2] [0, 1] := by
  obtain ⟨s, hs, hque, hbatch, hsum⟩ : ∃ s,
      queuedRun [.pushBack 0, .pushBack 1, .pushBack 2] = some s ∧ s.que .smallFile = [0, 1, 2] ∧
      ((s.uploads.queue .smallFile).getUntilSize s.uploads.size 8).1 = [0, 1] ∧
      ((s.que .smallFile).map s.uploads.size).sum = 12 :=
    ⟨_, rfl, by decide +kernel, by decide +kernel, by decide +kernel⟩
  have hreach := (reaches_of_run .refl hs).mono fun _ _ _ ↦ trivial
  obtain ⟨hconserved, hall⟩ := upload_queue_conserves hreach
  refine ⟨s, hs, hconserved, hque, hbatch, ?_⟩
  rw [← hque, ← hbatch]
  exact hall 8 (by decide) (hsum ▸ by decide)

end Spkdfs
