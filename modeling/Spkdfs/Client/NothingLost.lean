import Spkdfs.Client.Commitments
import Spkdfs.Client.ReadYourWrites

namespace Spkdfs

open Library Program Function Daemon

namespace DaemonUpload

variable {ν : Type} {flags : Flags} {remote : Remote ν} {m m' : DaemonUpload ν} {namenode : ν}
  {a : Act} {task : Nat}

/-- An accepted upload is where the daemon will not forget it. -/
inductive Kept (m : DaemonUpload ν) (task : Nat) : Prop
  | queued (live : m.terminated = false) (name : QueueName)
      (found : task ∈ (m.uploads.queue name).que)
  | uploading {w : Worker} {tasks : List Nat} {program : UploadProgram Unit}
      (live : m.terminated = false) (place : m.thread w = .uploading tasks program)
      (found : task ∈ tasks)
  | committed (found : task ∈ m.committed)
  | canceled (status : m.uploads.status task = some .canceled)

/-- No accepted upload is lost, and the consumers leave nothing behind. -/
structure NothingLost (m : DaemonUpload ν) : Prop where
  kept : ∀ task < m.uploads.tasks.length, m.Kept task
  drained : (∀ name, m.thread (.consumer name) = .exited) → ∀ name, (m.uploads.queue name).que = []

/-- The steps that lose nothing. -/
def LosesNothing (m : DaemonUpload ν) : Act → Prop
  /- In the hands of an `fsync` a task is nowhere. -/
  | .fsync task => m.uploads.status task = some .canceled
  | .accept _ | .push _ => ∃ name, m.thread (.consumer name) ≠ .exited
  | .turn name place => place = .exited →
    (∀ other, other ≠ name → m.thread (.consumer other) = .exited) →
    ∀ other, (m.uploads.queue other).que = []
  | .advance seen => ∀ req fault, .answer (.request (.putOk req)) (.error fault) ∉ seen
  | .throw => ∀ task < m.uploads.tasks.length,
    task ∈ m.committed ∨ m.uploads.status task = some .canceled
  | _ => True

/-- The commit has been taken or will be asked for. -/
def Commitment (m : DaemonUpload ν) (tasks : List Nat) (program : UploadProgram Unit) : Prop :=
  (∀ task ∈ tasks, task ∈ m.committed) ∨
  program.Ensures fun c a ↦ takesCommit (.answer c a) = true ∨
    ∃ req fault, (Program.Event.answer c a : UploadEvent) = .answer (.request (.putOk req)) (.error fault)

def Committing (m : DaemonUpload ν) : Prop :=
  ∀ w tasks program, m.thread w = .uploading tasks program → m.Commitment tasks program

theorem committed_step (hs : Step flags remote m a m') : ∀ task ∈ m.committed, task ∈ m'.committed := by
  intro task htask
  cases hs with
  | enter | accept | refuse | fsync | push | lose | stop | turn | take | finish | throw | rm
  | look | cancel | asked | failed | receive | receiveRm | remote => exact htask
  | advance =>
    simp only
    split_ifs
    · exact List.mem_append_right _ htask
    · exact htask

theorem Committing.step (hm : m.Committing) (ha : LosesNothing m a)
    (hs : Step flags remote m a m') : m'.Committing := by
  intro w tasks program hw
  obtain hthread | htake | ⟨x, seen, rfl, hthread, hstep, -, hcommitted⟩ := thread_step hs hw
  · obtain hall | hahead := hm w tasks program hthread
    · exact .inl fun task htask ↦ committed_step hs task (hall task htask)
    · exact .inr hahead
  · refine .inr ?_
    by_cases hbig : w = .consumer .bigFile
    · subst hbig
      obtain ⟨task, t, -, -, rfl⟩ := take_put htake
      exact ensures_put task t
    · rw [take_aggregate hbig htake]
      exact (ensures_smallFileAggregateUpload _ _).mono fun _ _ h ↦ .inl h.1
  · obtain hall | hahead := hm w tasks x hthread
    · exact .inl fun task htask ↦ committed_step hs task (hall task htask)
    · obtain hnext | ⟨c, answer, rfl, hanswer⟩ := hahead.step hstep
      · exact .inr hnext
      · obtain htakes | ⟨req, fault, hrefused⟩ := hanswer
        · refine .inl fun task htask ↦ ?_
          rw [hcommitted, List.any_cons, htakes, Bool.true_or, if_pos rfl]
          exact List.mem_append_left _ htask
        · exact absurd (List.mem_singleton.mpr hrefused.symm) (ha req fault)

/-- The tasks on the way to the big file queue, and in it. -/
structure Separate (m : DaemonUpload ν) : Prop where
  nodup : ((m.uploads.queue .smallFile).que ++ m.moving).Nodup
  unled : ∀ task ∈ (m.uploads.queue .smallFile).que ++ m.moving,
    task < m.uploads.tasks.length ∧ ∀ path, ¬ m.uploads.Leads .bigFile path task
  leader : ∀ path task, m.uploads.Leads .bigFile path task → task < m.uploads.tasks.length

theorem Separate.shrinks (hm : m.Separate) (hs : m.uploads.Shrinks m'.uploads)
    (hsub : ((m'.uploads.queue .smallFile).que ++ m'.moving).Sublist
      ((m.uploads.queue .smallFile).que ++ m.moving)) : m'.Separate := by
  refine ⟨hm.nodup.sublist hsub, fun task htask ↦ ?_, fun path task hleads ↦ ?_⟩
  · obtain ⟨hlt, hnot⟩ := hm.unled task (hsub.subset htask)
    exact ⟨hs.length.symm ▸ hlt, fun path hleads ↦
      hnot path ((Uploads.leads_of_map (hs.map _)).mp hleads)⟩
  · exact hs.length.symm ▸ hm.leader path task ((Uploads.leads_of_map (hs.map _)).mp hleads)

theorem perm_moved {α : Type} (before after moving : List α) (x : α) :
    (before ++ after ++ x :: moving).Perm (before ++ x :: after ++ moving) := by
  have hleft : (before ++ after ++ x :: moving).Perm (x :: (before ++ after ++ moving)) :=
    List.perm_middle
  have hright : (before ++ x :: after ++ moving).Perm (x :: (before ++ after ++ moving)) := by
    rw [List.append_assoc, List.append_assoc, List.cons_append]
    exact List.perm_middle
  exact hleft.trans hright.symm

/-- An accepted upload is new to the queues. -/
theorem Separate.accepts {t : UploadTask} {name : QueueName} {u : Uploads}
    {admitted : List UploadTask} (hm : m.Separate) (hacc : m.uploads.Accepts t name u) :
    Separate { m with uploads := u, admitted } := by
  have hleads : ∀ {path task}, u.Leads .bigFile path task →
      m.uploads.Leads .bigFile path task ∨ name = .bigFile ∧ task = m.uploads.tasks.length := by
    intro path task hled
    rw [hacc.leads_iff] at hled
    split_ifs at hled with hkey
    · exact .inr ⟨hkey.1.symm, hled⟩
    · exact .inl hled
  have hmem : ∀ {task}, task ∈ (u.queue .smallFile).que ++ m.moving →
      task ∈ (m.uploads.queue .smallFile).que ++ m.moving ∨
        name = .smallFile ∧ task = m.uploads.tasks.length := by
    intro task htask
    obtain hque | hmoving := List.mem_append.mp htask
    · obtain hold | ⟨hname, hnew⟩ := hacc.mem_que.mp hque
      · exact .inl (List.mem_append_left _ hold)
      · exact .inr ⟨hname.symm, hnew⟩
    · exact .inl (List.mem_append_right _ hmoving)
  have hnew : m.uploads.tasks.length ∉ (m.uploads.queue .smallFile).que ++ m.moving :=
    fun h ↦ Nat.lt_irrefl _ (hm.unled _ h).1
  refine ⟨?_, fun task htask ↦ ?_, fun path task hled ↦ ?_⟩
  · show ((u.queue .smallFile).que ++ m.moving).Nodup
    rw [hacc.queue]
    split_ifs with hname
    · subst hname
      show (((m.uploads.queue .smallFile).que ++ [_]) ++ m.moving).Nodup
      rw [List.append_assoc]
      refine (List.perm_middle.nodup_iff).mpr (List.nodup_cons.mpr ⟨?_, ?_⟩)
      · exact hnew
      · exact hm.nodup
    · exact hm.nodup
  · rw [show u.tasks.length = m.uploads.tasks.length + 1 from hacc.length]
    obtain hold | ⟨hname, hlast⟩ := hmem htask
    · obtain ⟨hlt, hnot⟩ := hm.unled task hold
      refine ⟨Nat.lt_succ_of_lt hlt, fun path hled ↦ ?_⟩
      obtain hled | ⟨-, hlast⟩ := hleads hled
      · exact hnot path hled
      · omega
    · refine ⟨hlast ▸ Nat.lt_succ_self _, fun path hled ↦ ?_⟩
      obtain hled | ⟨hbig, -⟩ := hleads hled
      · exact absurd (hm.leader path task hled) (by omega)
      · rw [hname] at hbig
        cases hbig
  · rw [show u.tasks.length = m.uploads.tasks.length + 1 from hacc.length]
    obtain hled | ⟨-, hlast⟩ := hleads hled
    · exact Nat.lt_succ_of_lt (hm.leader path task hled)
    · exact hlast ▸ Nat.lt_succ_self _

/-- A task that an `fsync` moves leaves the ones on the way for the map of the big files. -/
theorem Separate.pushed {before after : List Nat} {u : Uploads} {path : Str} (hm : m.Separate)
    (hmoving : m.moving = before ++ task :: after)
    (hpushed : m.uploads.Pushed .bigFile task path u) :
    Separate { m with uploads := u, moving := before ++ after } := by
  have hsmall : u.queue .smallFile = m.uploads.queue .smallFile := by
    rw [hpushed.queue, if_neg nofun]
  have hperm : (task :: ((m.uploads.queue .smallFile).que ++ (before ++ after))).Perm
      ((m.uploads.queue .smallFile).que ++ m.moving) := by
    rw [hmoving, ← List.append_assoc, ← List.append_assoc]
    exact List.perm_middle.symm
  have hnodup := hperm.nodup_iff.mpr hm.nodup
  obtain ⟨hout, hrest⟩ := List.nodup_cons.mp hnodup
  have hleads : ∀ {path' other}, u.Leads .bigFile path' other →
      m.uploads.Leads .bigFile path' other ∨ other = task := by
    intro path' other hled
    rw [hpushed.leads_iff] at hled
    split_ifs at hled
    · exact .inr hled
    · exact .inl hled
  refine ⟨?_, fun other hother ↦ ?_, fun path' other hled ↦ ?_⟩
  · show ((u.queue .smallFile).que ++ (before ++ after)).Nodup
    rwa [hsmall]
  · have hother : other ∈ (m.uploads.queue .smallFile).que ++ (before ++ after) := hsmall ▸ hother
    obtain ⟨hlt, hnot⟩ := hm.unled other (hperm.subset (List.mem_cons_of_mem _ hother))
    refine ⟨hpushed.length.symm ▸ hlt, fun path' hled ↦ ?_⟩
    obtain hled | rfl := hleads hled
    · exact hnot path' hled
    · exact hout hother
  · rw [show u.tasks.length = m.uploads.tasks.length from hpushed.length]
    obtain hled | rfl := hleads hled
    · exact hm.leader path' other hled
    · exact lt_of_remotePath hpushed.found

theorem Separate.step (hm : m.Separate) (hsteady : m.Steady) (hs : Step flags remote m a m') :
    m'.Separate := by
  cases hs with
  | enter | refuse | stop | turn | finish | throw | rm | look | asked | failed | receive
  | receiveRm | remote => exact ⟨hm.nodup, hm.unled, hm.leader⟩
  | accept _ _ _ hpush => exact hm.accepts (Uploads.accepts_of_pushBack hpush)
  | @fsync _ _ task q hexist =>
    obtain ⟨-, hmap, before, after, hque, hleft⟩ := UploadQueue.existInQue_eq_some hexist
    have hperm : (q.que ++ task :: m.moving).Perm
        ((m.uploads.queue .smallFile).que ++ m.moving) := by
      rw [hleft, show (m.uploads.queue .smallFile).que = before ++ task :: after from hque]
      exact perm_moved before after m.moving task
    exact ⟨hperm.nodup_iff.mpr hm.nodup, fun other hother ↦ hm.unled other (hperm.subset hother),
      hm.leader⟩
  | push hmoving _ hpush =>
    obtain ⟨path, hpushed⟩ := Uploads.pushed_of_pushBack hpush
    exact hm.pushed hmoving hpushed
  | @lose before after task _ hmoving _ _ =>
    refine hm.shrinks (m.uploads.shrinks_setBelongQue task .bigFile) ?_
    rw [hmoving]
    exact (List.Sublist.refl _).append
      ((List.Sublist.refl before).append (List.sublist_cons_self task after))
  | @take w tasks _ u htake =>
    have htakes := take_takes htake
    refine hm.shrinks (.of_takes htakes) (List.Sublist.append ?_ (List.Sublist.refl _))
    show ((u.queue .smallFile).que).Sublist _
    by_cases hname : QueueName.smallFile = Worker.source w
    · rw [hname, htakes.que]
      exact List.sublist_append_right _ _
    · rw [htakes.other _ hname]
  | advance hthread hstep =>
    have hsame := (hsteady _ _ _ hthread).same hstep
    refine hm.shrinks (.of_same hsame) ?_
    rw [hsame.queue]
  | @cancel _ _ path =>
    have hsame := m.uploads.same_rm .smallFile path
    refine hm.shrinks (.of_same hsame) ?_
    rw [hsame.queue]

/-- The tasks of the big file queue and of its consumer know that they belong there. -/
structure Owned (m : DaemonUpload ν) : Prop where
  que : ∀ task ∈ (m.uploads.queue .bigFile).que, m.uploads.belongQue task = some .bigFile
  uploading : ∀ tasks program, m.thread (.consumer .bigFile) = .uploading tasks program →
    ∀ task ∈ tasks, m.uploads.belongQue task = some .bigFile

theorem lt_of_belongQue {u : Uploads} {name : QueueName} (h : u.belongQue task = some name) :
    task < u.tasks.length := by
  obtain ⟨t, ht, -⟩ := Option.bind_eq_some_iff.mp h
  exact (List.getElem?_eq_some_iff.mp ht).1

theorem belongQue_step (hsteady : m.Steady) (hs : Step flags remote m a m')
    (h : m.uploads.belongQue task = some .bigFile) :
    m'.uploads.belongQue task = some .bigFile := by
  cases hs with
  | enter | refuse | stop | turn | finish | throw | rm | look | asked | failed | receive
  | receiveRm | remote | fsync => exact h
  | accept _ _ _ hpush =>
    rw [(Uploads.accepts_of_pushBack hpush).belongQue, if_neg (lt_of_belongQue h).ne]
    exact h
  | push _ _ hpush =>
    obtain ⟨path, hpushed⟩ := Uploads.pushed_of_pushBack hpush
    rw [hpushed.belongQue]
    split_ifs
    · rfl
    · exact h
  | @lose _ _ task' =>
    rw [Uploads.belongQue, Uploads.getElem?_setBelongQue]
    rw [Uploads.belongQue] at h
    cases ht : m.uploads.tasks[task]? with
    | none =>
      rw [ht] at h
      cases h
    | some t =>
      rw [ht] at h
      rw [Option.map_some, Option.bind_some]
      split_ifs
      · rfl
      · exact h
  | take htake =>
    rw [Uploads.belongQue, (take_takes htake).tasks]
    exact h
  | advance hthread hstep =>
    rw [((hsteady _ _ _ hthread).same hstep).belongQue]
    exact h
  | @cancel _ _ path =>
    rw [(m.uploads.same_rm .smallFile path).belongQue]
    exact h

theorem Owned.step (hm : m.Owned) (hsteady : m.Steady) (hs : Step flags remote m a m') :
    m'.Owned := by
  have hkeep : ∀ task, m.uploads.belongQue task = some .bigFile →
      m'.uploads.belongQue task = some .bigFile := fun _ ↦ belongQue_step hsteady hs
  constructor
  · cases hs with
    | enter | refuse | stop | turn | finish | throw | rm | look | asked | failed | receive
    | receiveRm | remote | fsync => exact hm.que
    | lose => exact fun task htask ↦ hkeep task (hm.que task htask)
    | accept _ _ _ hpush =>
      have hacc := Uploads.accepts_of_pushBack hpush
      intro task htask
      obtain hold | ⟨hname, hnew⟩ := hacc.mem_que.mp htask
      · exact hkeep task (hm.que task hold)
      · rw [hacc.belongQue, if_pos hnew, hname]
    | push _ _ hpush =>
      obtain ⟨path, hpushed⟩ := Uploads.pushed_of_pushBack hpush
      intro task htask
      obtain hold | ⟨-, hnew⟩ := hpushed.mem_que.mp htask
      · exact hkeep task (hm.que task hold)
      · rw [hpushed.belongQue, if_pos hnew]
    | take htake =>
      exact fun task htask ↦ hkeep task
        (hm.que task ((Uploads.Shrinks.of_takes (take_takes htake)).que .bigFile task htask))
    | advance hthread hstep =>
      intro task htask
      rw [((hsteady _ _ _ hthread).same hstep).queue] at htask
      exact hkeep task (hm.que task htask)
    | @cancel _ _ path =>
      intro task htask
      rw [(m.uploads.same_rm .smallFile path).queue] at htask
      exact hkeep task (hm.que task htask)
  · intro tasks program hw task htask
    refine hkeep task ?_
    obtain hthread | htake | ⟨x, seen, -, hthread, -⟩ := thread_step hs hw
    · exact hm.uploading tasks program hthread task htask
    · exact hm.que task ((take_takes htake).que ▸ List.mem_append_left _ htask)
    · exact hm.uploading tasks x hthread task htask

/-- A cancelled task that no upload will touch any more. -/
def Settled (u : Uploads) (task : Nat) : Prop :=
  u.status task = some .canceled ∧ ∀ path, ¬ u.Leads .bigFile path task

/-- Where an accepted upload is. -/
inductive Placed (m : DaemonUpload ν) (task : Nat) : Prop
  | queued (name : QueueName) (found : task ∈ (m.uploads.queue name).que)
  | uploading {w : Worker} {tasks : List Nat} {program : UploadProgram Unit}
      (place : m.thread w = .uploading tasks program) (found : task ∈ tasks)
  | committed (found : task ∈ m.committed)
  | settled (h : Settled m.uploads task)

theorem lt_of_status {u : Uploads} {status : UploadStatus} (h : u.status task = some status) :
    task < u.tasks.length := by
  obtain ⟨t, ht, -⟩ := Option.map_eq_some_iff.mp h
  exact (List.getElem?_eq_some_iff.mp ht).1

theorem status_rm_canceled {u : Uploads} (name : QueueName) (path : Str)
    (h : u.status task = some .canceled) : (u.rm name path).status task = some .canceled := by
  obtain hsame | ⟨-, hstatus⟩ := u.status_rm name path task
  · rw [hsame, h]
  · rw [h] at hstatus
    obtain hstatus | hstatus := hstatus <;> cases hstatus

/-- A step of an upload leaves it as it is. -/
theorem Settled.uploading {u u' : Uploads} {w : Worker} {tasks : List Nat}
    {program program' : UploadProgram Unit} {seen : List UploadEvent} (h : Settled u task)
    (hu : Uploading u w tasks program)
    (howned : w = .consumer .bigFile → ∀ task ∈ tasks, u.belongQue task = some .bigFile)
    (hs : Program.Step program u seen program' u') : Settled u' task := by
  obtain rfl | ⟨own, path, status, hbig, rfl, -, -, rfl⟩ := hu.step hs
  · exact h
  · rw [howned hbig own List.mem_cons_self, Option.getD_some]
    refine ⟨?_, fun path' hleads ↦ h.2 path' ((u.leads_changeStatus ..).mp hleads)⟩
    rw [Uploads.status_changeStatus_of_not (h.2 path), h.1]

theorem Settled.pushed {u u' : Uploads} {name : QueueName} {other : Nat} {path : Str}
    (h : Settled u task) (hpush : u.Pushed name other path u') (hne : task ≠ other) :
    Settled u' task := by
  refine ⟨by rw [hpush.status, if_neg hne, h.1], fun path' hleads ↦ ?_⟩
  rw [hpush.leads_iff] at hleads
  split_ifs at hleads
  · exact hne hleads
  · exact h.2 path' hleads

theorem Settled.accepts {u u' : Uploads} {name : QueueName} {t : UploadTask} (h : Settled u task)
    (hacc : u.Accepts t name u') : Settled u' task := by
  have hne := (lt_of_status h.1).ne
  refine ⟨by rw [hacc.status, if_neg hne, h.1], fun path' hleads ↦ ?_⟩
  rw [hacc.leads_iff] at hleads
  split_ifs at hleads
  · exact hne hleads
  · exact h.2 path' hleads

theorem uploading_kept {w : Worker} {tasks : List Nat} {program : UploadProgram Unit}
    (hs : Step flags remote m a m') (hw : m.thread w = .uploading tasks program) :
    (∃ program', m'.thread w = .uploading tasks program') ∨ program = .done (.ok ()) := by
  obtain hsame | ⟨program', -, hnext, -⟩ | hdone := uploading_next hs hw
  · exact .inl ⟨program, hsame⟩
  · exact .inl ⟨program', hnext⟩
  · exact .inr hdone

theorem Commitment.done {tasks : List Nat} (h : m.Commitment tasks (.done (.ok ()))) :
    ∀ task ∈ tasks, task ∈ m.committed := by
  obtain hall | hahead := h
  · exact hall
  · exact hahead.elim

/-- What holds between the steps of a daemon that loses nothing. -/
structure Intact (m : DaemonUpload ν) : Prop where
  steady : m.Steady
  committing : m.Committing
  separate : m.Separate
  owned : m.Owned
  placed : ∀ task < m.uploads.tasks.length, m.Placed task
  drained : (∀ name, m.thread (.consumer name) = .exited) → ∀ name, (m.uploads.queue name).que = []

theorem Placed.queued_step {name : QueueName} (hm : m.Intact) (ha : LosesNothing m a)
    (hs : Step flags remote m a m') (h : task ∈ (m.uploads.queue name).que) : m'.Placed task := by
  cases hs with
  | enter | refuse | stop | turn | finish | throw | rm | look | asked | failed | receive
  | receiveRm | remote => exact .queued name h
  | lose => exact .queued name (by cases name <;> exact h)
  | accept _ _ _ hpush =>
    exact .queued name
      ((Uploads.accepts_of_pushBack hpush).mem_que.mpr (.inl h))
  | push _ _ hpush =>
    obtain ⟨path, hpushed⟩ := Uploads.pushed_of_pushBack hpush
    exact .queued name (hpushed.mem_que.mpr (.inl h))
  | @fsync _ _ fetched q hexist =>
    cases name with
    | bigFile => exact .queued .bigFile h
    | smallFile =>
      obtain ⟨-, -, before, after, hque, hleft⟩ := UploadQueue.existInQue_eq_some hexist
      by_cases hsame : task = fetched
      · subst hsame
        have hunled := (hm.separate.unled task (List.mem_append_left _ h)).2
        exact .settled ⟨ha, hunled⟩
      · refine .queued .smallFile ?_
        show task ∈ q.que
        rw [show (m.uploads.queue .smallFile).que = before ++ fetched :: after from hque] at h
        rw [hleft]
        exact List.mem_append.mpr ((List.mem_append.mp h).imp_right fun h ↦
          (List.mem_cons.mp h).resolve_left hsame)
  | @take w tasks program u htake =>
    have htakes := take_takes htake
    by_cases hname : name = Worker.source w
    · subst hname
      rw [htakes.que] at h
      obtain hfront | hrest := List.mem_append.mp h
      · exact .uploading (update_self w _ m.thread) hfront
      · exact .queued _ hrest
    · refine .queued name ?_
      show task ∈ (u.queue name).que
      rwa [htakes.other name hname]
  | advance hthread hstep =>
    refine .queued name ?_
    rwa [((hm.steady _ _ _ hthread).same hstep).queue]
  | @cancel _ _ path =>
    refine .queued name ?_
    rwa [(m.uploads.same_rm .smallFile path).queue]

theorem Placed.settled_step (hm : m.Intact) (hs : Step flags remote m a m')
    (h : Settled m.uploads task) : m'.Placed task := by
  cases hs with
  | enter | refuse | stop | turn | finish | throw | rm | look | asked | failed | receive
  | receiveRm | remote | fsync => exact .settled h
  | @lose _ _ other =>
    refine .settled ⟨?_, h.2⟩
    rw [m.uploads.status_setBelongQue]
    exact h.1
  | accept _ _ _ hpush => exact .settled (h.accepts (Uploads.accepts_of_pushBack hpush))
  | @push _ _ other _ _ _ hpush =>
    obtain ⟨path, hpushed⟩ := Uploads.pushed_of_pushBack hpush
    by_cases hsame : task = other
    · exact .queued .bigFile (hpushed.mem_que.mpr (.inr ⟨rfl, hsame⟩))
    · exact .settled (h.pushed hpushed hsame)
  | take htake =>
    have htakes := take_takes htake
    refine .settled ⟨?_, fun path hleads ↦ h.2 path ((Uploads.leads_of_map (htakes.map _)).mp hleads)⟩
    rw [Uploads.status, htakes.tasks]
    exact h.1
  | @advance w tasks _ _ _ _ hthread hstep =>
    refine .settled (h.uploading (hm.steady _ _ _ hthread) (fun hbig ↦ ?_) hstep)
    subst hbig
    exact hm.owned.uploading tasks _ hthread
  | @cancel _ _ path =>
    exact .settled ⟨status_rm_canceled .smallFile path h.1, fun path' hleads ↦
      h.2 path' ((m.uploads.leads_rm ..).mp hleads)⟩

theorem Placed.step (hm : m.Intact) (ha : LosesNothing m a) (hs : Step flags remote m a m')
    (h : m.Placed task) : m'.Placed task := by
  cases h with
  | queued name found => exact Placed.queued_step hm ha hs found
  | uploading place found =>
    obtain ⟨program', hplace⟩ | rfl := uploading_kept hs place
    · exact .uploading hplace found
    · have hdone := (hm.committing _ _ _ place).done task found
      exact .committed (committed_step hs task hdone)
  | committed found => exact .committed (committed_step hs task found)
  | settled h => exact Placed.settled_step hm hs h

theorem length_step (hm : m.Steady) (hs : Step flags remote m a m')
    (hlt : task < m'.uploads.tasks.length) :
    task < m.uploads.tasks.length ∨ ∃ name, task ∈ (m'.uploads.queue name).que := by
  cases next_step hm hs with
  | @accepts _ name _ _ hacc =>
    obtain hold | hnew := Nat.lt_succ_iff_lt_or_eq.mp (hacc.length ▸ hlt)
    · exact .inl hold
    · exact .inr ⟨name, hacc.mem_que.mpr (.inr ⟨rfl, hnew⟩)⟩
  | pushes _ hpushed => exact .inl (hpushed.length ▸ hlt)
  | shrinks _ _ hshrinks => exact .inl (hshrinks.length ▸ hlt)

/-- A consumer that has exited stays so. -/
theorem exited_step {name : QueueName} (hs : Step flags remote m a m')
    (h : m'.thread (.consumer name) = .exited) :
    m.thread (.consumer name) = .exited ∨ a = .turn name .exited := by
  cases hs with
  | enter | accept | refuse | fsync | push | lose | stop | throw | rm | look | cancel | asked
  | failed | receive | receiveRm | remote => exact .inl h
  | turn =>
    simp only [update_apply] at h
    split_ifs at h with hsame
    · cases hsame
      exact .inr (h ▸ rfl)
    · exact .inl h
  | take | advance =>
    simp only [update_apply] at h
    split_ifs at h
    exact .inl h
  | @finish w =>
    simp only [update_apply] at h
    split_ifs at h
    · cases w <;> cases h
    · exact .inl h

theorem Intact.drained_step (hm : m.Intact) (ha : LosesNothing m a)
    (hs : Step flags remote m a m') (hexited : ∀ name, m'.thread (.consumer name) = .exited)
    (name : QueueName) : (m'.uploads.queue name).que = [] := by
  have hbefore : (∀ name, m.thread (.consumer name) = .exited) ∨ ∃ name, a = .turn name .exited := by
    by_cases hturn : ∃ name, a = .turn name .exited
    · exact .inr hturn
    · exact .inl fun name ↦ (exited_step hs (hexited name)).resolve_right fun h ↦ hturn ⟨name, h⟩
  have hempty : ∀ name, (m.uploads.queue name).que = [] := by
    obtain hall | ⟨own, rfl⟩ := hbefore
    · exact hm.drained hall
    · refine ha rfl fun other hne ↦ (exited_step hs (hexited other)).resolve_right fun h ↦ ?_
      cases h
      exact hne rfl
  have hstays : ∀ {a}, LosesNothing m a → Step flags remote m a m' →
      (∀ t, a ≠ .accept t) ∧ ∀ task, a ≠ .push task := by
    intro a ha hs
    constructor
    · rintro t rfl
      obtain ⟨other, hother⟩ := ha
      exact hother ((exited_step hs (hexited other)).resolve_right nofun)
    · rintro task rfl
      obtain ⟨other, hother⟩ := ha
      exact hother ((exited_step hs (hexited other)).resolve_right nofun)
  obtain ⟨haccept, hpush⟩ := hstays ha hs
  have hshrinks := shrinks_step hm.steady hs haccept hpush
  refine List.eq_nil_iff_forall_not_mem.mpr fun task htask ↦ ?_
  have hmem := hshrinks.que name task htask
  rw [hempty name] at hmem
  cases hmem

theorem Intact.step (hm : m.Intact) (ha : LosesNothing m a) (hs : Step flags remote m a m') :
    m'.Intact := by
  refine ⟨hm.steady.step hs, hm.committing.step ha hs, hm.separate.step hm.steady hs,
    hm.owned.step hm.steady hs, fun task hlt ↦ ?_, hm.drained_step ha hs⟩
  obtain hold | ⟨name, hque⟩ := length_step hm.steady hs hlt
  · exact (hm.placed task hold).step hm ha hs
  · exact .queued name hque

theorem intact_start (namenode : ν) : (start namenode).Intact := by
  refine ⟨steady_start namenode, fun w tasks program hw ↦ (by cases hw),
    ⟨List.nodup_nil, nofun, fun path task hleads ↦ (by cases hleads)⟩,
    ⟨fun task htask ↦ (by cases htask), fun tasks program hw ↦ (by cases hw)⟩,
    fun task hlt ↦ absurd hlt (Nat.not_lt_zero task), fun _ name ↦ ?_⟩
  cases name <;> rfl

theorem Placed.kept (h : m.Placed task) (hlive : m.terminated = false) : m.Kept task := by
  cases h with
  | queued name found => exact .queued hlive name found
  | uploading place found => exact .uploading hlive place found
  | committed found => exact .committed found
  | settled h => exact .canceled h.1

theorem Intact.nothingLost (hm : m.Intact) (hlive : m.terminated = false) : m.NothingLost :=
  ⟨fun task hlt ↦ (hm.placed task hlt).kept hlive, hm.drained⟩

/-- Only an exception terminates the daemon. -/
theorem terminated_step (hs : Step flags remote m a m') (hlive : m.terminated = false) :
    m'.terminated = false ∨ a = .throw ∧ m' = { m with terminated := true } := by
  cases hs with
  | throw => exact .inr ⟨rfl, rfl⟩
  | enter | accept | refuse | fsync | push | lose | stop | turn | take | advance | finish | rm
  | look | cancel | asked | failed | receive | receiveRm | remote => exact .inl hlive

/-- In a run of such steps no accepted upload is ever lost. -/
theorem run_loses_nothing (h : Run flags remote LosesNothing (start namenode) m) :
    m.NothingLost := by
  have hinv : m.Intact ∧ (m.terminated = true → m.NothingLost) := by
    refine h.invariant (I := fun m ↦ m.Intact ∧ (m.terminated = true → m.NothingLost))
      ⟨intact_start namenode, fun hterm ↦ (by cases hterm)⟩ fun t a u ht ha hs ↦ ?_
    refine ⟨ht.1.step ha hs.2, fun hterm ↦ ?_⟩
    obtain hlive | ⟨rfl, rfl⟩ := terminated_step hs.2 hs.1
    · rw [hlive] at hterm
      cases hterm
    · refine ⟨fun task hlt ↦ ?_, ht.1.drained⟩
      obtain hcommitted | hcanceled := ha task hlt
      · exact .committed hcommitted
      · exact .canceled hcanceled
  cases hterm : m.terminated with
  | true => exact hinv.2 hterm
  | false => exact hinv.1.nothingLost hterm

/-- Two small files are uploaded to one path, the first one is taken by the timer, and a third one
and a big file follow. -/
theorem run_loses_nothing_several : ∃ (m : DaemonUpload Unit) (program : UploadProgram Unit),
    Run smallFlags unreachable LosesNothing (start ()) m ∧
    m.thread .timer = .uploading [0] program ∧ (m.uploads.queue .smallFile).que = [1, 2] ∧
    (m.uploads.queue .bigFile).que = [3] ∧ m.NothingLost := by
  have haccept : ∀ {m : DaemonUpload Unit} {t : UploadTask}, m.thread (.consumer .smallFile) = .head →
      LosesNothing m (.accept t) := fun hhead ↦ ⟨.smallFile, by simp [hhead]⟩
  have hfirst : Run smallFlags unreachable LosesNothing (start ()) oneSmall :=
    upload_run ['x'] ['/', 'a'] [] 1 .smallFile rfl rfl rfl id rfl trivial fun _ ↦ haccept rfl
  have htaken : Run smallFlags unreachable LosesNothing (start ()) takenSmall :=
    hfirst.tail (a := .other) trivial ⟨rfl, .take (w := .timer) rfl⟩
  have hagain : Run smallFlags unreachable LosesNothing takenSmall againSmall :=
    upload_run ['y'] ['/', 'a'] [] 1 .smallFile rfl rfl rfl id rfl trivial fun _ ↦ haccept rfl
  have hbeside : Run smallFlags unreachable LosesNothing againSmall besideSmall :=
    upload_run ['z'] ['/', 'b'] [] 1 .smallFile rfl rfl rfl id rfl trivial fun _ ↦ haccept rfl
  obtain ⟨u, hpush, hsmall, hbig⟩ : ∃ u, Uploads.pushBack { besideSmall.uploads with
      tasks := besideSmall.uploads.tasks ++ [newTask smallFlags ['w'] ['/', 'c'] [] 2] } .bigFile
        3 = .ok u ∧ (u.queue .smallFile).que = [1, 2] ∧ (u.queue .bigFile).que = [3] :=
    ⟨_, rfl, rfl, rfl⟩
  have hlarge : Run smallFlags unreachable LosesNothing besideSmall { besideSmall with uploads := u } :=
    upload_run ['w'] ['/', 'c'] [] 2 .bigFile rfl rfl rfl id hpush trivial fun _ ↦ haccept rfl
  have hrun := ((htaken.trans hagain).trans hbeside).trans hlarge
  exact ⟨_, _, hrun, rfl, hsmall, hbig, run_loses_nothing hrun⟩

/-- The daemon is stopped before the small file is taken, and both consumers leave at once. -/
def abandoned : DaemonUpload Unit :=
  { oneSmall with
    stop := true
    thread := update (update oneSmall.thread (.consumer .smallFile) .exited) (.consumer .bigFile)
      .exited }

theorem not_run_loses_nothing :
    Run smallFlags unreachable (fun _ _ ↦ True) (start ()) abandoned ∧ ¬ abandoned.NothingLost := by
  constructor
  · have hupload : Run smallFlags unreachable (fun _ _ ↦ True) (start ()) oneSmall :=
      upload_run ['x'] ['/', 'a'] [] 1 .smallFile rfl rfl rfl id rfl trivial fun _ ↦ trivial
    have hstop : Run smallFlags unreachable (fun _ _ ↦ True) (start ())
        { oneSmall with stop := true } := hupload.tail trivial ⟨rfl, .stop⟩
    have hleave : ∀ name, turn smallFlags oneSmall.uploads true name .head = some .exited :=
      fun _ ↦ rfl
    have hsmall : Run smallFlags unreachable (fun _ _ ↦ True) (start ())
        { oneSmall with
          stop := true
          thread := update oneSmall.thread (.consumer .smallFile) .exited } :=
      hstop.tail trivial ⟨rfl, .turn (hleave .smallFile)⟩
    exact hsmall.tail trivial ⟨rfl, .turn (hleave .bigFile)⟩
  · intro h
    have hempty := h.drained (fun name ↦ by cases name <;> rfl) .smallFile
    cases hempty

end DaemonUpload

end Spkdfs
