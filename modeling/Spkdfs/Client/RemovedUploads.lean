import Spkdfs.Client.Settling
import Spkdfs.Node.Standing

namespace Spkdfs

open Library Program Function Daemon DaemonUpload

/-- The leader as the namenode of a daemon. Others go on using it, but they neither remove the
path nor make it a directory. -/
def leaderRemote (path : Str) : Remote Leader where
  receives l req l' := ∃ millis, l.step (.prepare millis req) = some l'
  moves l l' := ∃ a : Action, a.Upholds path ∧ l.step a = some l'
  answers l c a :=
    match c, a with
    | .request req, .ok _ => l.Accepted req
    | _, _ => True

def Removal.path : Removal → Str
  | .begun path | .waiting path _ | .unknown path | .canceling path | .asking path => path

/-- No removal of the path gets to the namenode. -/
inductive Removal.Local (path : Str) : Removal → Prop
  | begun : Local path (.begun path)
  | unknown : Local path (.unknown path)
  | canceling : Local path (.canceling path)

namespace DaemonUpload

theorem calls_step {ν : Type} {flags : Flags} {remote : Remote ν} {m m' : DaemonUpload ν} {a : Act}
    {w : Worker} {tasks : List Nat} {program : UploadProgram Unit}
    (hcalls : ∀ w tasks program, m.thread w = .uploading tasks program → program.Calls Stores)
    (hs : Step flags remote m a m')
    (hw : m'.thread w = .uploading tasks program) : program.Calls Stores := by
  obtain hsame | htake | ⟨x, seen, -, hthread, hstep, -⟩ := DaemonUpload.thread_step hs hw
  · exact hcalls w tasks program hsame
  · by_cases hbig : w = .consumer .bigFile
    · subst hbig
      obtain ⟨task, t, -, -, rfl⟩ := take_put htake
      exact calls_put task t
    · rw [take_aggregate hbig htake]
      exact calls_smallFileAggregateUpload _ _
  · exact (hcalls w tasks x hthread).step hstep

theorem look_path {u : Uploads} {r r' : Removal} (h : look u r = some r') : r'.path = r.path := by
  cases r with
  | begun path =>
    rw [look] at h
    split at h <;> cases h <;> rfl
  | waiting path task =>
    rw [look] at h
    split_ifs at h
    cases h
    rfl
  | unknown path =>
    rw [look] at h
    split at h <;> cases h <;> rfl
  | canceling | asking => cases h

variable {flags : Flags} {m m' : DaemonUpload Leader} {a : Act} {path : Str} {task : Nat}
  {w : Worker} {tasks : List Nat} {program : UploadProgram Unit}

/-- The committed path is a valid file. -/
def Stored (m : DaemonUpload Leader) (path : Str) : Prop :=
  '/' ∈ simplifyPath path ∧ RocksDB.FileAt m.namenode.store (simplifyPath path)

/-- Where a small file is before it is committed. -/
inductive InHand (m : DaemonUpload Leader) (task : Nat) : Prop
  | queued (found : task ∈ (m.uploads.queue .smallFile).que)
  | moving (found : task ∈ m.moving)
  | uploading {w : Worker} {tasks : List Nat} {program : UploadProgram Unit}
      (place : m.thread w = .uploading tasks program) (found : task ∈ tasks)

/-- A path that only small files were uploaded to. -/
structure Held (m : DaemonUpload Leader) (path : Str) : Prop where
  reached : ∃ myIp now, Reaches Leader.step (fun _ _ ↦ True) (.start myIp now) m.namenode
  standing : '/' ∈ simplifyPath path → m.namenode.Standing (simplifyPath path)
  calls : ∀ w tasks program, m.thread w = .uploading tasks program → program.Calls Stores
  unqueued : ∀ task ∈ (m.uploads.queue .bigFile).que, m.uploads.remotePath task ≠ some path
  committing : ∀ w tasks program, m.thread w = .uploading tasks program → ∀ task ∈ tasks,
    ∃ own, m.uploads.remotePath task = some own ∧ (own = path →
      m.Stored path ∨ program.Ensures fun c a ↦ Commits path (.answer c a) = true)
  placed : ∀ task, m.uploads.remotePath task = some path → m.InHand task ∨ m.Stored path
  led : ∀ task, m.uploads.remotePath task = some path →
    ∃ lead, m.uploads.Leads .smallFile path lead
  removals : ∀ r ∈ m.removals, simplifyPath r.path = simplifyPath path →
    r.Local path ∧ ∃ task, m.uploads.remotePath task = some path

/-- The queues are never full, and the path is only removed as it was uploaded and after that. -/
def Undisturbed (path : Str) (m : DaemonUpload Leader) (a : Act) : Prop :=
  (∀ name, (m.uploads.queue name).que.length < (m.uploads.queue name).capacity) ∧
  ∀ own, a = .rm own → simplifyPath own = simplifyPath path →
    own = path ∧ ∃ task, m.uploads.remotePath task = some path

theorem Held.namenode_step (hm : m.Held path)
    (hs : Step flags (leaderRemote (simplifyPath path)) m a m') :
    (∃ myIp now, Reaches Leader.step (fun _ _ ↦ True) (.start myIp now) m'.namenode) ∧
    ('/' ∈ simplifyPath path → m'.namenode.Standing (simplifyPath path)) ∧
    (m.Stored path → m'.Stored path) := by
  have hmoves : ∀ {action : Action} {l : Leader}, action.Upholds (simplifyPath path) →
      m.namenode.step action = some l →
      (∃ myIp now, Reaches Leader.step (fun _ _ ↦ True) (.start myIp now) l) ∧
      ('/' ∈ simplifyPath path → l.Standing (simplifyPath path)) ∧
      (m.Stored path → '/' ∈ simplifyPath path ∧ RocksDB.FileAt l.store (simplifyPath path)) := by
    intro action l haction hl
    obtain ⟨myIp, now, hreach⟩ := hm.reached
    refine ⟨⟨myIp, now, hreach.tail trivial hl⟩, fun hslash ↦ ?_, fun hstored ↦ ?_⟩
    · exact ((hm.standing hslash).step hslash haction hl).1
    · exact ⟨hstored.1, ((hm.standing hstored.1).step hstored.1 haction hl).2 hstored.2⟩
  cases hs with
  | enter | accept | refuse | fsync | push | lose | stop | turn | take | advance | finish | throw
  | rm | look | cancel | asked | failed => exact ⟨hm.reached, hm.standing, id⟩
  | @receive w tasks req next _ hthread hreceives =>
    obtain ⟨millis, hl⟩ := hreceives
    refine hmoves ?_ hl
    obtain ⟨hspares, hmkdir⟩ := (hm.calls w tasks _ hthread).1
    cases req with
    | mkdir own => exact absurd rfl (hmkdir own)
    | rm own => exact absurd rfl (hspares own)
    | put | putBatch | putOk | putOkBatch | updateLock => trivial
  | @receiveRm own _ hasking hreceives =>
    obtain ⟨millis, hl⟩ := hreceives
    have haction : (Action.prepare millis (.rm own)).Upholds (simplifyPath path) := by
      intro hsame
      have hlocal := (hm.removals _ hasking hsame).1
      cases hlocal
    exact hmoves haction hl
  | remote hmove =>
    obtain ⟨action, haction, hl⟩ := hmove
    exact hmoves haction hl

/-- The namenode answers a commit of the path only when it has the file. -/
theorem Held.stored_of_commits (hm : m.Held path) {c : UploadCall} {r : Except Fault c.Answer}
    (hanswer : (leaderRemote (simplifyPath path)).answers m.namenode c r)
    (hcommits : Commits path (.answer c r) = true) : m.Stored path := by
  have haccepted : ∀ {req : Request}, m.namenode.Accepted req →
      req.Commits (simplifyPath path) → m.Stored path := by
    intro req haccepted hreq
    obtain ⟨myIp, now, hreach⟩ := hm.reached
    have hslash := haccepted.slash hreq hreach
    exact ⟨hslash, (hm.standing hslash).fileAt_of_accepted haccepted hreq⟩
  cases c with
  | openFile | encodeContent | datanodePut | encodeOneBlock => cases hcommits
  | request req =>
    cases r with
    | error fault => cases req <;> cases hcommits
    | ok b =>
      cases req with
      | mkdir | rm | put | putBatch | updateLock => cases hcommits
      | putOk r =>
        have hpath : r.path = path := of_decide_eq_true hcommits
        exact haccepted hanswer (congrArg simplifyPath hpath)
      | putOkBatch rs =>
        obtain ⟨r, hr, hpath⟩ := List.mem_map.mp (of_decide_eq_true hcommits)
        exact haccepted hanswer ⟨r, hr, congrArg simplifyPath hpath⟩

/-- A small file that leaves its queue is moved by an `fsync` or uploaded. -/
theorem small_next (hsteady : m.Steady) (hs : Step flags (leaderRemote (simplifyPath path)) m a m')
    (h : task ∈ (m.uploads.queue .smallFile).que) : m'.InHand task := by
  cases hs with
  | enter | refuse | stop | turn | finish | throw | rm | look | asked | failed | receive
  | receiveRm | remote | lose => exact .queued h
  | accept _ _ _ hpush =>
    have hacc := Uploads.accepts_of_pushBack hpush
    exact .queued (hacc.mem_que.mpr (.inl h))
  | push _ _ hpush =>
    obtain ⟨own, hpushed⟩ := Uploads.pushed_of_pushBack hpush
    exact .queued (hpushed.mem_que.mpr (.inl h))
  | @fsync _ _ fetched q hexist =>
    obtain ⟨-, -, before, after, hque, hleft⟩ := UploadQueue.existInQue_eq_some hexist
    rw [show (m.uploads.queue .smallFile).que = before ++ fetched :: after from hque] at h
    by_cases hsame : task = fetched
    · exact .moving (hsame ▸ List.mem_cons_self)
    · refine .queued ?_
      show task ∈ q.que
      rw [hleft]
      exact List.mem_append.mpr ((List.mem_append.mp h).imp_right fun h ↦
        (List.mem_cons.mp h).resolve_left hsame)
  | @take w tasks program u htake =>
    have htakes := take_takes htake
    by_cases hsource : QueueName.smallFile = Worker.source w
    · rw [hsource, htakes.que] at h
      obtain hfront | hrest := List.mem_append.mp h
      · exact .uploading (update_self w _ m.thread) hfront
      · refine .queued ?_
        rw [hsource]
        exact hrest
    · refine .queued ?_
      show task ∈ (u.queue .smallFile).que
      rwa [htakes.other _ hsource]
  | advance hthread hstep =>
    refine .queued ?_
    rwa [((hsteady _ _ _ hthread).same hstep).queue]
  | @cancel _ _ own =>
    refine .queued ?_
    rwa [(m.uploads.same_rm .smallFile own).queue]

/-- What an `fsync` moves gets to the map of the big files. -/
theorem moving_next (hs : Step flags (leaderRemote (simplifyPath path)) m a m')
    (hroom : ∀ name, (m.uploads.queue name).que.length < (m.uploads.queue name).capacity)
    {own : Str} (hown : m.uploads.remotePath task = some own) (h : task ∈ m.moving) :
    task ∈ m'.moving ∨ m'.uploads.Leads .bigFile own task := by
  have hleaves : ∀ {before after : List Nat} {other : Nat}, m.moving = before ++ other :: after →
      task = other ∨ task ∈ before ++ after := by
    intro before after other hmoving
    rw [hmoving] at h
    obtain hbefore | htail := List.mem_append.mp h
    · exact .inr (List.mem_append_left _ hbefore)
    · exact (List.mem_cons.mp htail).imp_right (List.mem_append_right _)
  cases hs with
  | enter | accept | refuse | stop | turn | take | advance | finish | throw | rm | look | cancel
  | asked | failed | receive | receiveRm | remote => exact .inl h
  | fsync => exact .inl (List.mem_cons_of_mem _ h)
  | push hmoving _ hpush =>
    obtain rfl | hrest := hleaves hmoving
    · obtain ⟨own', hpushed⟩ := Uploads.pushed_of_pushBack hpush
      obtain rfl := Option.some.inj (hpushed.found.symm.trans hown)
      exact .inr hpushed.entered.leads
    · exact .inl hrest
  | lose hmoving _ hfull =>
    obtain rfl | hrest := hleaves hmoving
    · obtain ⟨t, ht, -⟩ := Option.map_eq_some_iff.mp hown
      have hok := Uploads.pushBack_eq_ok.mpr ⟨t, ht, hroom .bigFile, rfl⟩
      rw [hfull] at hok
      cases hok
    · exact .inl hrest

theorem InHand.step (h : m.InHand task) (horderly : m.Orderly) (hm : m.Held path)
    (hs : Step flags (leaderRemote (simplifyPath path)) m a m') (ha : Undisturbed path m a)
    (hunled : ∀ lead, ¬ m'.uploads.Leads .bigFile path lead)
    (hpath : m.uploads.remotePath task = some path) : m'.InHand task ∨ m.Stored path := by
  cases h with
  | queued found => exact .inl (small_next horderly.steady hs found)
  | moving found =>
    obtain hmoving | hleads := moving_next hs ha.1 hpath found
    · exact .inl (.moving hmoving)
    · exact absurd hleads (hunled task)
  | uploading place found =>
    obtain hsame | ⟨program', seen, hnext, -⟩ | rfl := uploading_next hs place
    · exact .inl (.uploading hsame found)
    · exact .inl (.uploading hnext found)
    · obtain ⟨own, hown, hcommits⟩ := hm.committing _ _ _ place task found
      obtain hstored | hensures := hcommits (Option.some.inj (hown.symm.trans hpath))
      · exact .inr hstored
      · exact hensures.elim

/-- The aggregate of a small file is not uploaded before the file is committed. -/
theorem Held.committing_step (hm : m.Held path) (horderly : m.Orderly)
    (hs : Step flags (leaderRemote (simplifyPath path)) m a m')
    (hw : m'.thread w = .uploading tasks program) (htask : task ∈ tasks) :
    ∃ own, m'.uploads.remotePath task = some own ∧ (own = path →
      m'.Stored path ∨ program.Ensures fun c a ↦ Commits path (.answer c a) = true) := by
  have hnext := next_step horderly.steady hs
  have hstays := (hm.namenode_step hs).2.2
  obtain hsame | htake | ⟨x, seen, -, hthread, hstep, hanswers, -⟩ :=
    DaemonUpload.thread_step hs hw
  · obtain ⟨own, hown, hcommits⟩ := hm.committing w tasks program hsame task htask
    exact ⟨own, hnext.remotePath_eq hown, fun he ↦ (hcommits he).imp_left hstays⟩
  · have htakes := take_takes htake
    have hque : task ∈ (m.uploads.queue (Worker.source w)).que := by
      rw [htakes.que]
      exact List.mem_append_left _ htask
    obtain ⟨own, hown⟩ := horderly.remotePath hque
    refine ⟨own, hnext.remotePath_eq hown, ?_⟩
    rintro rfl
    by_cases hbig : w = .consumer .bigFile
    · subst hbig
      exact absurd hown (hm.unqueued task hque)
    · obtain ⟨t, ht, rfl⟩ := Option.map_eq_some_iff.mp hown
      rw [take_aggregate hbig htake]
      refine .inr ((ensures_smallFileAggregateUpload _ _).mono fun c a h ↦ h.2 t ?_)
      exact List.mem_filterMap.mpr ⟨task, htask, ht⟩
  · obtain ⟨own, hown, hcommits⟩ := hm.committing w tasks x hthread task htask
    refine ⟨own, hnext.remotePath_eq hown, fun he ↦ ?_⟩
    obtain hstored | hensures := hcommits he
    · exact .inl (hstays hstored)
    · obtain hahead | ⟨c, r, rfl, hanswer⟩ := hensures.step hstep
      · exact .inr hahead
      · have hstored := hm.stored_of_commits (hanswers c r List.mem_cons_self) hanswer
        exact .inl (hstays hstored)

theorem Held.removals_step (hm : m.Held path) (horderly : m.Orderly)
    (hs : Step flags (leaderRemote (simplifyPath path)) m a m') (ha : Undisturbed path m a)
    (hunled : ∀ lead, ¬ m.uploads.Leads .bigFile path lead) :
    ∀ r ∈ m'.removals, simplifyPath r.path = simplifyPath path →
      r.Local path ∧ ∃ task, m'.uploads.remotePath task = some path := by
  have hkeep : ∀ {r : Removal}, r.Local path ∧ (∃ task, m.uploads.remotePath task = some path) →
      r.Local path ∧ ∃ task, m'.uploads.remotePath task = some path := by
    rintro r ⟨hlocal, task, htask⟩
    exact ⟨hlocal, task, (next_step horderly.steady hs).remotePath_eq htask⟩
  have hshorter : ∀ {before after : List Removal} {r : Removal},
      m.removals = before ++ r :: after → ∀ r' ∈ before ++ after,
        simplifyPath r'.path = simplifyPath path →
          r'.Local path ∧ ∃ task, m.uploads.remotePath task = some path := by
    intro before after r hremovals r' hr'
    refine hm.removals r' ?_
    rw [hremovals]
    exact List.mem_append.mpr ((List.mem_append.mp hr').imp_right (List.mem_cons_of_mem _))
  intro r hr hpath
  refine hkeep ?_
  cases hs with
  | enter | accept | refuse | fsync | push | lose | stop | turn | take | advance | finish | throw
  | receive | receiveRm | remote => exact hm.removals r hr hpath
  | rm own =>
    obtain rfl | hold := List.mem_cons.mp hr
    · obtain ⟨rfl, haccepted⟩ := ha.2 own rfl hpath
      exact ⟨.begun, haccepted⟩
    · exact hm.removals r hold hpath
  | @look before after old new hremovals hlook =>
    by_cases hnew : r = new
    · subst hnew
      have hold : old ∈ m.removals := by
        rw [hremovals]
        exact List.mem_append_right _ List.mem_cons_self
      rw [look_path hlook] at hpath
      obtain ⟨hlocal, task, htask⟩ := hm.removals old hold hpath
      refine ⟨?_, task, htask⟩
      cases hlocal with
      | begun =>
        have hnone : m.uploads.bigFileQue.findInMap path = none :=
          Option.eq_none_iff_forall_ne_some.mpr hunled
        rw [look, hnone] at hlook
        cases hlook
        exact .unknown
      | unknown =>
        obtain ⟨lead, hlead⟩ := hm.led task htask
        rw [look, show m.uploads.smallFileQue.findInMap path = some lead from hlead] at hlook
        cases hlook
        exact .canceling
      | canceling => cases hlook
    · refine hshorter hremovals r ?_ hpath
      exact List.mem_append.mpr ((List.mem_append.mp hr).imp_right fun h ↦
        (List.mem_cons.mp h).resolve_left hnew)
  | cancel hremovals => exact hshorter hremovals r hr hpath
  | asked hremovals => exact hshorter hremovals r hr hpath
  | failed hremovals => exact hshorter hremovals r hr hpath

theorem Held.step (hm : m.Held path) (horderly : m.Orderly)
    (hs : Step flags (leaderRemote (simplifyPath path)) m a m') (ha : Undisturbed path m a)
    (hunled : ∀ lead, ¬ m'.uploads.Leads .bigFile path lead) : m'.Held path := by
  have hnext := next_step horderly.steady hs
  obtain ⟨hreached, hstanding, hstays⟩ := hm.namenode_step hs
  refine ⟨hreached, hstanding, fun w tasks program hw ↦ calls_step hm.calls hs hw,
    fun task htask hpath ↦ ?_, fun w tasks program hw task ↦ hm.committing_step horderly hs hw,
    fun task hpath ↦ ?_, fun task hpath ↦ ?_, hm.removals_step horderly hs ha fun lead hlead ↦ ?_⟩
  · obtain hold | ⟨own, hentered⟩ := hnext.queued htask
    · obtain ⟨own, hown⟩ := horderly.remotePath hold
      obtain rfl := Option.some.inj ((hnext.remotePath_eq hown).symm.trans hpath)
      exact hm.unqueued task hold hown
    · obtain rfl := Option.some.inj (hentered.remotePath.symm.trans hpath)
      exact hunled task hentered.leads
  · obtain hold | ⟨name, hentered⟩ := hnext.remotePath hpath
    · obtain hhand | hstored := hm.placed task hold
      · exact (hhand.step horderly hm hs ha hunled hold).imp_right hstays
      · exact .inr (hstays hstored)
    · cases name with
      | smallFile => exact .inl (.queued hentered.found)
      | bigFile => exact absurd hentered.leads (hunled task)
  · obtain hold | ⟨name, hentered⟩ := hnext.remotePath hpath
    · obtain ⟨lead, hlead⟩ := hm.led task hold
      exact hnext.exists_leads hlead
    · cases name with
      | smallFile => exact ⟨task, hentered.leads⟩
      | bigFile => exact absurd hentered.leads (hunled task)
  · obtain ⟨lead', hlead'⟩ := hnext.exists_leads hlead
    exact hunled lead' hlead'

theorem held_start (myIp : Str) (now : Nat) (path : Str) :
    (start (Leader.start myIp now)).Held path := by
  refine ⟨⟨myIp, now, .refl⟩, fun _ ↦ Leader.standing_start myIp now _,
    fun w tasks program hw ↦ (by cases hw), fun task htask ↦ (by cases htask),
    fun w tasks program hw ↦ (by cases hw), fun task hpath ↦ (by cases hpath),
    fun task hpath ↦ (by cases hpath), fun r hr ↦ (by cases hr)⟩

/-- An accepted upload of the path is known to the map of the big files, or held until the namenode
has it. -/
structure Lasting (m : DaemonUpload Leader) (path : Str) : Prop where
  settling : m.Settling path
  known : (∃ lead, m.uploads.Leads .bigFile path lead) ∨ m.Held path

theorem Lasting.step (hm : m.Lasting path)
    (hs : Step flags (leaderRemote (simplifyPath path)) m a m') (ha : Undisturbed path m a) :
    m'.Lasting path := by
  refine ⟨hm.settling.step hs, ?_⟩
  by_cases hled : ∃ lead, m'.uploads.Leads .bigFile path lead
  · exact .inl hled
  · have hunled : ∀ lead, ¬ m'.uploads.Leads .bigFile path lead := fun lead h ↦ hled ⟨lead, h⟩
    obtain ⟨lead, hlead⟩ | hheld := hm.known
    · have hnext := next_step hm.settling.orderly.steady hs
      exact .inl (hnext.exists_leads hlead)
    · exact .inr (hheld.step hm.settling.orderly hs ha hunled)

theorem lasting_run {myIp : Str} {now : Nat}
    (h : Run flags (leaderRemote (simplifyPath path)) (Undisturbed path)
      (start (.start myIp now)) m) : m.Lasting path :=
  h.invariant (I := (Lasting · path)) ⟨settling_start _ path, .inr (held_start myIp now path)⟩
    fun _ _ _ ht ha hs ↦ ht.step hs.2 ha

theorem remotePath_run (hm : m.Lasting path)
    (h : Run flags (leaderRemote (simplifyPath path)) (Undisturbed path) m m')
    (hpath : m.uploads.remotePath task = some path) :
    m'.Lasting path ∧ m'.uploads.remotePath task = some path := by
  refine h.invariant (I := fun m ↦ m.Lasting path ∧ m.uploads.remotePath task = some path)
    ⟨hm, hpath⟩ fun t a u ht ha hs ↦ ⟨ht.1.step hs.2 ha, ?_⟩
  exact (next_step ht.1.settling.orderly.steady hs.2).remotePath_eq ht.2

theorem Held.stored (hm : m.Held path) (hd : m.Drained)
    (hpath : m.uploads.remotePath task = some path) : m.Stored path := by
  refine (hm.placed task hpath).resolve_left fun hhand ↦ ?_
  cases hhand with
  | queued found =>
    rw [hd.que] at found
    cases found
  | moving found =>
    rw [hd.moving] at found
    cases found
  | uploading place => exact hd.idle _ _ _ place

/-- What the removal of an upload is for: the namenode does not have the file, and a download does
not read a local one. -/
def TakesEffect (m : DaemonUpload Leader) (path : Str) : Prop :=
  ¬ RocksDB.FileAt m.namenode.store (simplifyPath path) ∧
    download m.uploads m.uploads m.uploads m.uploads path = .remoteFile path

/-- No upload of the path is accepted. -/
def AcceptsNone (path : Str) (m : DaemonUpload Leader) (a : Act) : Prop :=
  Undisturbed path m a ∧ ∀ t, a = .accept t → t.remotePath ≠ path

/-- `rm` returns for an upload that has been accepted, no other one of the path is accepted, and
the daemon comes to rest. -/
structure RemovedUpload (flags : Flags) (path : Str) (m₁ m₂ m : DaemonUpload Leader) : Prop where
  run : ∃ myIp now, Run flags (leaderRemote (simplifyPath path)) (Undisturbed path)
    (start (.start myIp now)) m₁
  accepted : ∃ task, m₁.uploads.remotePath task = some path
  live : m₁.terminated = false
  undisturbed : Undisturbed path m₁ (.removed path)
  removed : Step flags (leaderRemote (simplifyPath path)) m₁ (.removed path) m₂
  rest : Run flags (leaderRemote (simplifyPath path)) (AcceptsNone path) m₂ m
  drained : m.Drained

/-- The removal of an accepted upload never takes effect. -/
theorem removal_takes_no_effect {m₁ m₂ : DaemonUpload Leader}
    (h : RemovedUpload flags path m₁ m₂ m) : ¬ m.TakesEffect path := by
  obtain ⟨myIp, now, hrun⟩ := h.run
  obtain ⟨task, htask⟩ := h.accepted
  have hwhole : Run flags (leaderRemote (simplifyPath path)) (Undisturbed path) m₁ m :=
    (Steps.one h.undisturbed ⟨h.live, h.removed⟩).trans (h.rest.mono fun _ _ h ↦ h.1)
  obtain ⟨hm, hpath⟩ := remotePath_run (lasting_run hrun) hwhole htask
  rintro ⟨hgone, hremote⟩
  obtain ⟨lead, hlead⟩ | hheld := hm.known
  · rw [hm.settling.download_local h.drained hlead] at hremote
    cases hremote
  · exact hgone (hheld.stored h.drained hpath).2

/-- A request is handled and its first entry applied at once. -/
def handle : UploadCall → Leader → Option Leader
  | .request req, l =>
    (l.step (.prepare 0 req)).bind fun prepared ↦ (prepared.step .apply).bind fun applied ↦
      if applied.Accepted req then some applied else none
  | .openFile _, l | .encodeContent _ _, l | .datanodePut _ _, l | .encodeOneBlock _ _, l => some l

/-- The end of an upload whose calls all succeed and that changes no status. -/
def served (answer : (c : UploadCall) → c.Answer) :
    UploadProgram Unit → Uploads → Leader → Option (Except Fault Unit × Leader)
  | .done r, _, l => some (r, l)
  | .test p next, u, l => served answer (next (p u)) u l
  | .call c next, u, l => (handle c l).bind fun l' ↦ served answer (next (.ok (answer c))) u l'
  | .modify _ _, _, _ | .stuck, _, _ => none

section

variable {guard : DaemonUpload Leader → Act → Prop} {l : Leader} {r : Except Fault Unit}

theorem run_handle {c : UploadCall} {next : Except Fault c.Answer → UploadProgram Unit}
    (hlive : m.terminated = false)
    (hguard : ∀ namenode, guard { m with namenode } .other)
    (hw : m.thread w = .uploading tasks (.call c next)) (h : handle c m.namenode = some l)
    (a : c.Answer) : Run flags (leaderRemote path) guard m { m with namenode := l } ∧
      (leaderRemote path).answers l c (.ok a) := by
  cases c with
  | openFile | encodeContent | datanodePut | encodeOneBlock =>
    cases h
    exact ⟨.refl, trivial⟩
  | request req =>
    rw [handle, Option.bind_eq_some_iff] at h
    obtain ⟨prepared, hprepare, h⟩ := h
    rw [Option.bind_eq_some_iff] at h
    obtain ⟨applied, happly, h⟩ := h
    split_ifs at h with haccepted
    cases h
    have hreceive : Run flags (leaderRemote path) guard m { m with namenode := prepared } :=
      .one (hguard m.namenode) ⟨hlive, .receive hw ⟨0, hprepare⟩⟩
    exact ⟨hreceive.tail (hguard prepared) ⟨hlive, .remote ⟨.apply, trivial, happly⟩⟩, haccepted⟩

theorem run_served {answer : (c : UploadCall) → c.Answer} (hlive : m.terminated = false)
    (hguard : ∀ thread namenode committed a, (∀ t, a ≠ .accept t) → (∀ own, a ≠ .rm own) →
      guard { m with thread, namenode, committed } a)
    (hw : m.thread w = .uploading tasks program)
    (h : served answer program m.uploads m.namenode = some (r, l)) :
    ∃ committed, Run flags (leaderRemote path) guard m
      { m with
        thread := update m.thread w (.uploading tasks (.done r))
        namenode := l
        committed } := by
  induction program generalizing m with
  | done r' =>
    cases h
    refine ⟨m.committed, ?_⟩
    rw [← hw, update_eq_self]
    exact .refl
  | test p next ih =>
    have hstep : Step flags (leaderRemote path) m (.advance []) { m with
        thread := update m.thread w (.uploading tasks (next (p m.uploads))) } :=
      .advance hw (.test p next m.uploads) fun c a ha ↦ (by cases ha)
    have hrun : Run flags (leaderRemote path) guard m { m with
        thread := update m.thread w (.uploading tasks (next (p m.uploads))) } :=
      .one (hguard m.thread m.namenode m.committed _ (by simp) (by simp)) ⟨hlive, hstep⟩
    obtain ⟨committed, hrest⟩ := ih (p m.uploads) (m := { m with
      thread := update m.thread w (.uploading tasks (next (p m.uploads))) }) hlive
      (fun thread namenode committed a ↦ hguard thread namenode committed a)
      (update_self w _ m.thread) h
    refine ⟨committed, ?_⟩
    rw [update_idem] at hrest
    exact hrun.trans hrest
  | call c next ih =>
    obtain ⟨l', hhandle, h⟩ := Option.bind_eq_some_iff.mp h
    have hhandled : Run flags (leaderRemote path) guard m { m with namenode := l' } ∧
        (leaderRemote path).answers l' c (.ok (answer c)) :=
      run_handle hlive (fun namenode ↦ hguard m.thread namenode m.committed _ (by simp) (by simp))
        hw hhandle (answer c)
    let m₁ : DaemonUpload Leader := { m with
      namenode := l'
      thread := update m.thread w (.uploading tasks (next (.ok (answer c))))
      committed := if [.answer c (.ok (answer c))].any takesCommit then tasks ++ m.committed
        else m.committed }
    have hstep : Step flags (leaderRemote path) { m with namenode := l' }
        (.advance [.answer c (.ok (answer c))]) m₁ := by
      refine .advance hw (.call c next (.ok (answer c)) m.uploads) fun c' a ha ↦ ?_
      cases List.mem_singleton.mp ha
      exact hhandled.2
    have hrun : Run flags (leaderRemote path) guard m m₁ :=
      hhandled.1.tail (hguard m.thread l' m.committed _ (by simp) (by simp)) ⟨hlive, hstep⟩
    obtain ⟨committed, hrest⟩ := ih (.ok (answer c)) (m := m₁) hlive
      (fun thread namenode committed a ↦ hguard thread namenode committed a)
      (update_self w _ m.thread) h
    refine ⟨committed, ?_⟩
    have hlast : update m₁.thread w (.uploading tasks (.done r)) =
        update m.thread w (.uploading tasks (.done r)) := update_idem ..
    rw [hlast] at hrest
    exact hrun.trans hrest
  | modify | stuck => cases h

end

def aggFlags : Flags := ⟨1, 100, "AGG<7,5,64>".toList⟩

/-- One small file is uploaded, and its removal is about to return. -/
def removing : DaemonUpload Leader :=
  { namenode := .start "10.0.0.1".toList 1000
    uploads := ((Uploads.pushBack { tasks := [newTask aggFlags ['x'] ['/', 'a'] [] 1] } .smallFile
      0).toOption.getD {})
    removals := [.canceling ['/', 'a']] }

/-- It has returned, and the task is cancelled. -/
def canceledUpload : DaemonUpload Leader :=
  { removing with uploads := removing.uploads.rm .smallFile ['/', 'a'], removals := [] }

theorem removing_run : Run aggFlags (leaderRemote (simplifyPath ['/', 'a']))
    (Undisturbed ['/', 'a']) (start (.start "10.0.0.1".toList 1000)) removing := by
  have hempty : ∀ name, (Uploads.queue {} name).que.length < (Uploads.queue {} name).capacity :=
    fun name ↦ by cases name <;> decide
  have hroom : ∀ name, (removing.uploads.queue name).que.length <
      (removing.uploads.queue name).capacity := fun name ↦ by cases name <;> decide
  have hupload : Run aggFlags (leaderRemote (simplifyPath ['/', 'a'])) (Undisturbed ['/', 'a'])
      (start (.start "10.0.0.1".toList 1000)) { removing with removals := [] } :=
    upload_run ['x'] ['/', 'a'] [] 1 .smallFile rfl rfl rfl id rfl
      ⟨hempty, fun own hown ↦ by cases hown⟩
      fun admitted ↦ ⟨hempty, fun own hown ↦ by cases hown⟩
  have hbegun : Run aggFlags (leaderRemote (simplifyPath ['/', 'a'])) (Undisturbed ['/', 'a'])
      (start (.start "10.0.0.1".toList 1000))
      { removing with removals := [.begun ['/', 'a']] } := by
    refine hupload.tail ⟨hroom, fun own hown _ ↦ ?_⟩ ⟨rfl, .rm ['/', 'a']⟩
    cases hown
    exact ⟨rfl, 0, rfl⟩
  have hlook : ∀ {old new : Removal}, look removing.uploads old = some new →
      Step aggFlags (leaderRemote (simplifyPath ['/', 'a'])) { removing with removals := [old] }
        .other { removing with removals := [new] } := by
    intro old new hnew
    have hfirst : [old] = [] ++ old :: [] := rfl
    exact .look (m := { removing with removals := [old] }) hfirst hnew
  have hunknown : Run aggFlags (leaderRemote (simplifyPath ['/', 'a'])) (Undisturbed ['/', 'a'])
      (start (.start "10.0.0.1".toList 1000)) { removing with removals := [.unknown ['/', 'a']] } :=
    hbegun.tail ⟨hroom, fun own hown ↦ by cases hown⟩ ⟨rfl, hlook rfl⟩
  exact hunknown.tail ⟨hroom, fun own hown ↦ by cases hown⟩ ⟨rfl, hlook rfl⟩

def calledOk : (c : UploadCall) → c.Answer
  | .openFile _ => ['x']
  | .request _ => ()
  | .encodeContent _ _ | .datanodePut _ _ => []
  | .encodeOneBlock _ _ => ['b']

theorem acceptsNone {own : Str} (hroom : ∀ name, (m.uploads.queue name).que.length <
    (m.uploads.queue name).capacity) (haccept : ∀ t, a ≠ .accept t) (hrm : ∀ own, a ≠ .rm own) :
    AcceptsNone own m a :=
  ⟨⟨hroom, fun _ h ↦ absurd h (hrm _)⟩, fun t h ↦ absurd h (haccept t)⟩

/-- The aggregate of the cancelled file is uploaded. -/
theorem canceledUpload_run : ∃ m, Run aggFlags (leaderRemote (simplifyPath ['/', 'a']))
    (AcceptsNone ['/', 'a']) canceledUpload m ∧ m.Drained ∧ m.Stored ['/', 'a'] := by
  let taken := batch aggFlags canceledUpload.uploads
  let uploading : DaemonUpload Leader := { canceledUpload with
    uploads := taken.2.2
    thread := update canceledUpload.thread .timer (.uploading taken.1 taken.2.1) }
  have htaken : take aggFlags canceledUpload.uploads .timer .head = some taken := by
    rw [take]
    exact if_neg (by decide)
  have htake : Step aggFlags (leaderRemote (simplifyPath ['/', 'a'])) canceledUpload .other
      uploading := .take (w := .timer) htaken
  have hplace : uploading.thread .timer = .uploading taken.1 taken.2.1 :=
    update_self Worker.timer _ canceledUpload.thread
  have hroom : ∀ name, (canceledUpload.uploads.queue name).que.length <
      (canceledUpload.uploads.queue name).capacity := fun name ↦ by cases name <;> decide
  have hroom' : ∀ name, (taken.2.2.queue name).que.length < (taken.2.2.queue name).capacity :=
    fun name ↦ by cases name <;> decide
  have hserved : (served calledOk taken.2.1 taken.2.2 canceledUpload.namenode).any (fun p ↦
      p.1.isOk && decide (RocksDB.FileAt p.2.store ['/', 'a'])) = true := by decide +kernel
  obtain ⟨⟨r, l⟩, hrun, htest⟩ := (Option.any_eq_true _ _).mp hserved
  obtain ⟨hok, hfile⟩ := (Bool.and_eq_true _ _).mp htest
  cases r with
  | error fault => cases hok
  | ok b =>
    obtain ⟨committed, hupload⟩ := run_served (m := uploading) rfl
      (fun _ _ _ _ haccept hrm ↦ acceptsNone hroom' haccept hrm) hplace hrun
    let ended : DaemonUpload Leader := { uploading with
      thread := update uploading.thread .timer (.uploading taken.1 (.done (.ok b)))
      namenode := l
      committed }
    have hended : ended.thread .timer = .uploading taken.1 (.done (.ok ())) :=
      update_self Worker.timer _ uploading.thread
    have hfirst : Run aggFlags (leaderRemote (simplifyPath ['/', 'a'])) (AcceptsNone ['/', 'a'])
        canceledUpload uploading := .one (acceptsNone hroom (by simp) (by simp)) ⟨rfl, htake⟩
    have hrun : Run aggFlags (leaderRemote (simplifyPath ['/', 'a'])) (AcceptsNone ['/', 'a'])
        canceledUpload { ended with thread := update ended.thread .timer .head } :=
      (hfirst.trans hupload).tail (acceptsNone hroom' (by simp) (by simp)) ⟨rfl, .finish hended⟩
    refine ⟨_, hrun, ⟨rfl, fun name ↦ ?_, rfl, fun w tasks program ↦ ?_⟩, by decide,
      of_decide_eq_true hfile⟩
    · cases name <;> rfl
    · cases w with
      | timer => exact fun h ↦ by cases (update_self Worker.timer _ ended.thread).symm.trans h
      | consumer name => exact fun h ↦ by cases h

theorem canceledUpload_removed : ∃ m, RemovedUpload aggFlags ['/', 'a'] removing canceledUpload m ∧
    m.Stored ['/', 'a'] := by
  obtain ⟨m, hrest, hdrained, hstored⟩ := canceledUpload_run
  have hroom : ∀ name, (removing.uploads.queue name).que.length <
      (removing.uploads.queue name).capacity := fun name ↦ by cases name <;> decide
  have hfirst : removing.removals = [] ++ .canceling ['/', 'a'] :: [] := rfl
  exact ⟨m, ⟨⟨_, _, removing_run⟩, ⟨0, rfl⟩, rfl, ⟨hroom, fun own hown ↦ by cases hown⟩,
    .cancel hfirst, hrest, hdrained⟩, hstored⟩

theorem removal_takes_no_effect_small : ∃ m,
    RemovedUpload aggFlags ['/', 'a'] removing canceledUpload m ∧ ¬ m.TakesEffect ['/', 'a'] := by
  obtain ⟨m, h, -⟩ := canceledUpload_removed
  exact ⟨m, h, removal_takes_no_effect h⟩

/-- A small file is removed while it waits for its aggregate, and is committed nevertheless. -/
theorem canceled_upload_committed :
    ¬ ∀ (flags : Flags) (path : Str) (m₁ m₂ m : DaemonUpload Leader),
      RemovedUpload flags path m₁ m₂ m → m.TakesEffect path := by
  intro h
  obtain ⟨m, hremoved, hstored⟩ := canceledUpload_removed
  exact (h _ _ _ _ _ hremoved).1 hstored.2

end DaemonUpload

end Spkdfs
