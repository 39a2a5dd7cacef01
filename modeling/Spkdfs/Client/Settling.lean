import Spkdfs.Client.NothingLost

namespace Spkdfs

open Library Program Function Daemon DaemonUpload

namespace Uploads

variable {u u' : Uploads} {name : QueueName} {path : Str} {task : Nat} {t : UploadTask}

theorem keyed_iff : u.Keyed ↔ ∀ name path task, u.Leads name path task →
    ∃ own, u.remotePath task = some own ∧ SameKey own path := by
  refine forall₄_congr fun name path task _ ↦ ?_
  rw [Uploads.remotePath]
  constructor
  · rintro ⟨t, ht, hkey⟩
    exact ⟨t.remotePath, by rw [ht, Option.map_some], hkey⟩
  · rintro ⟨own, hown, hkey⟩
    obtain ⟨t, ht, rfl⟩ := Option.map_eq_some_iff.mp hown
    exact ⟨t, ht, hkey⟩

theorem Keyed.sameKey {own : Str} (hu : u.Keyed) (hleads : u.Leads name path task)
    (hown : u.remotePath task = some own) : SameKey own path := by
  obtain ⟨own', hown', hkey⟩ := keyed_iff.mp hu name path task hleads
  obtain rfl := Option.some.inj (hown.symm.trans hown')
  exact hkey

/-- A task of the path is in the queue and in its map. -/
structure Entered (u : Uploads) (name : QueueName) (path : Str) (task : Nat) : Prop where
  found : task ∈ (u.queue name).que
  remotePath : u.remotePath task = some path
  leads : u.Leads name path task

theorem Accepts.entered (h : u.Accepts t name u') :
    u'.Entered name t.remotePath u.tasks.length :=
  ⟨h.mem_que.mpr (.inr ⟨rfl, rfl⟩), h.remotePath_new, h.leads_new⟩

theorem Pushed.entered {own : Str} (h : u.Pushed name task own u') : u'.Entered name own task := by
  refine ⟨h.mem_que.mpr (.inr ⟨rfl, rfl⟩), ?_, ?_⟩
  · rw [h.remotePath, h.found]
  · rw [h.leads_iff, if_pos ⟨rfl, rfl, rfl⟩]

end Uploads

namespace Daemon

/-- The last change of `SDK::put`. -/
def Finishes (task : Nat) (path : Str) (f : Uploads → Uploads) : Prop :=
  f = fun u ↦ u.changeStatus ((u.belongQue task).getD .smallFile) path .finished

theorem endsWith_put (task : Nat) (t : UploadTask) :
    (put task t).EndsWith (Finishes task t.remotePath) := by
  refine endsWith_bind _ fun storage ↦ endsWith_bind _ fun content ↦ endsWith_bind _ fun _ ↦
    endsWith_bind _ fun encoded ↦ endsWith_bind _ fun _ ↦ endsWith_bind _ fun _ ↦
    endsWith_bind _ fun sub ↦ endsWith_bind _ fun _ ↦ endsWith_bind _ fun _ ↦ ?_
  intro u
  show EndsWith _ (if (u.belongQue task).isSome = true then access fun v : Uploads ↦
    v.changeStatus ((v.belongQue task).getD .smallFile) t.remotePath .finished else stuck)
  split_ifs
  · exact .inl ⟨rfl, _, rfl⟩
  · trivial

end Daemon

namespace DaemonUpload

variable {ν : Type} {flags : Flags} {remote : Remote ν} {m m' : DaemonUpload ν} {a : Act}
  {u u' : Uploads} {name : QueueName} {path : Str} {task lead : Nat} {w : Worker}
  {tasks : List Nat} {program : UploadProgram Unit}

theorem Next.leads {lead : Nat} (hu : Next u a u') (h : u'.Leads name path lead) :
    u.Leads name path lead ∨ ∃ own, SameKey own path ∧ u'.Entered name own lead := by
  cases hu with
  | shrinks _ _ hs => exact .inl ((Uploads.leads_of_map (hs.map name)).mp h)
  | accepts _ _ hacc =>
    rw [hacc.leads_iff] at h
    split_ifs at h with hkey
    · obtain ⟨rfl, hkey⟩ := hkey
      subst h
      exact .inr ⟨_, hkey.symm, hacc.entered⟩
    · exact .inl h
  | pushes _ hpushed =>
    rw [hpushed.leads_iff] at h
    split_ifs at h with hkey
    · obtain ⟨rfl, hkey⟩ := hkey
      subst h
      exact .inr ⟨_, hkey.symm, hpushed.entered⟩
    · exact .inl h

/-- A map never forgets a path. -/
theorem Next.exists_leads {lead : Nat} (hu : Next u a u') (h : u.Leads name path lead) :
    ∃ lead', u'.Leads name path lead' := by
  cases hu with
  | shrinks _ _ hs => exact ⟨lead, (Uploads.leads_of_map (hs.map name)).mpr h⟩
  | @accepts t own _ _ hacc =>
    by_cases hkey : name = own ∧ SameKey path t.remotePath
    · exact ⟨u.tasks.length, by rw [hacc.leads_iff, if_pos hkey]⟩
    · exact ⟨lead, by rw [hacc.leads_iff, if_neg hkey]; exact h⟩
  | @pushes task own _ hpushed =>
    by_cases hkey : name = .bigFile ∧ SameKey path own
    · exact ⟨task, by rw [hpushed.leads_iff, if_pos hkey]⟩
    · exact ⟨lead, by rw [hpushed.leads_iff, if_neg hkey]; exact h⟩

theorem Next.queued (hu : Next u a u') (h : task ∈ (u'.queue name).que) :
    task ∈ (u.queue name).que ∨ ∃ own, u'.Entered name own task := by
  cases hu with
  | shrinks _ _ hs => exact .inl (hs.que name task h)
  | accepts _ _ hacc =>
    obtain hold | ⟨rfl, rfl⟩ := hacc.mem_que.mp h
    · exact .inl hold
    · exact .inr ⟨_, hacc.entered⟩
  | pushes _ hpushed =>
    obtain hold | ⟨rfl, rfl⟩ := hpushed.mem_que.mp h
    · exact .inl hold
    · exact .inr ⟨_, hpushed.entered⟩

theorem Next.remotePath (hu : Next u a u') (h : u'.remotePath task = some path) :
    u.remotePath task = some path ∨ ∃ name, u'.Entered name path task := by
  cases hu with
  | shrinks _ _ hs => exact .inl ((hs.remotePath task).symm.trans h)
  | @accepts t name _ _ hacc =>
    rw [hacc.remotePath] at h
    split_ifs at h with hlast
    · subst hlast
      obtain rfl := Option.some.inj h
      exact .inr ⟨name, hacc.entered⟩
    · exact .inl h
  | pushes _ hpushed => exact .inl ((hpushed.remotePath task).symm.trans h)

theorem Next.remotePath_eq {own : Str} (hu : Next u a u') (h : u.remotePath task = some own) :
    u'.remotePath task = some own := by
  cases hu with
  | shrinks _ _ hs => rw [hs.remotePath, h]
  | accepts _ _ hacc => rw [hacc.remotePath_of_lt (lt_of_remotePath h), h]
  | pushes _ hpushed => rw [hpushed.remotePath, h]

theorem Next.keyed (h : Next u a u') (hu : u.Keyed) : u'.Keyed := by
  refine Uploads.keyed_iff.mpr fun name path task hleads ↦ ?_
  obtain hold | ⟨own, hkey, hentered⟩ := h.leads hleads
  · obtain ⟨own, hown, hkey⟩ := Uploads.keyed_iff.mp hu name path task hold
    exact ⟨own, h.remotePath_eq hown, hkey⟩
  · exact ⟨own, hentered.remotePath, hkey⟩

/-- What holds of the queues and the maps between any two steps. -/
structure Orderly (m : DaemonUpload ν) : Prop where
  steady : m.Steady
  separate : m.Separate
  owned : m.Owned
  keyed : m.uploads.Keyed

theorem Orderly.step (hm : m.Orderly) (hs : Step flags remote m a m') : m'.Orderly :=
  ⟨hm.steady.step hs, hm.separate.step hm.steady hs, hm.owned.step hm.steady hs,
    (next_step hm.steady hs).keyed hm.keyed⟩

theorem orderly_start (namenode : ν) : (start namenode).Orderly :=
  ⟨steady_start namenode, (intact_start namenode).separate, (intact_start namenode).owned,
    Uploads.keyed_empty []⟩

/-- A task of a queue is there. -/
theorem Orderly.remotePath (hm : m.Orderly) {name : QueueName}
    (h : task ∈ (m.uploads.queue name).que) : ∃ own, m.uploads.remotePath task = some own := by
  have hlt : task < m.uploads.tasks.length := by
    cases name with
    | smallFile => exact (hm.separate.unled task (List.mem_append_left _ h)).1
    | bigFile => exact lt_of_belongQue (hm.owned.que task h)
  exact ⟨_, by rw [Uploads.remotePath, List.getElem?_eq_getElem hlt, Option.map_some]⟩

/-- A task stays in the queue of the big files until its upload begins. -/
theorem queued_next (hsteady : m.Steady) (hs : Step flags remote m a m')
    (h : task ∈ (m.uploads.queue .bigFile).que) : task ∈ (m'.uploads.queue .bigFile).que ∨
      ∃ t, m.uploads.tasks[task]? = some t ∧
        m'.thread (.consumer .bigFile) = .uploading [task] (put task t) := by
  cases hs with
  | enter | refuse | stop | turn | finish | throw | rm | look | asked | failed | receive
  | receiveRm | remote | lose | fsync => exact .inl h
  | accept _ _ _ hpush =>
    have hacc := Uploads.accepts_of_pushBack hpush
    exact .inl (hacc.mem_que.mpr (.inl h))
  | push _ _ hpush =>
    obtain ⟨own, hpushed⟩ := Uploads.pushed_of_pushBack hpush
    exact .inl (hpushed.mem_que.mpr (.inl h))
  | @take w tasks program u htake =>
    have htakes := take_takes htake
    by_cases hbig : w = .consumer .bigFile
    · subst hbig
      obtain ⟨first, t, ht, rfl, rfl⟩ := take_put htake
      have hque : (m.uploads.queue .bigFile).que = [first] ++ (u.queue .bigFile).que := htakes.que
      rw [hque] at h
      obtain hfirst | hrest := List.mem_append.mp h
      · obtain rfl := List.mem_singleton.mp hfirst
        exact .inr ⟨t, ht, update_self (Worker.consumer .bigFile) _ m.thread⟩
      · exact .inl hrest
    · have hsource : QueueName.bigFile ≠ Worker.source w := by
        cases w with
        | timer => nofun
        | consumer name =>
          rintro rfl
          exact hbig rfl
      refine .inl ?_
      show task ∈ (u.queue .bigFile).que
      rwa [htakes.other _ hsource]
  | advance hthread hstep =>
    refine .inl ?_
    rwa [((hsteady _ _ _ hthread).same hstep).queue]
  | @cancel _ _ own =>
    refine .inl ?_
    rwa [(m.uploads.same_rm .smallFile own).queue]

/-- A task of the same key is still to be uploaded as a big file, up to the last change of its
status. -/
inductive Ahead (m : DaemonUpload ν) (path : Str) : Prop
  | queued {task : Nat} {own : Str} (found : task ∈ (m.uploads.queue .bigFile).que)
      (remotePath : m.uploads.remotePath task = some own) (key : SameKey own path)
  | uploading {task : Nat} {own : Str} {program : UploadProgram Unit}
      (place : m.thread (.consumer .bigFile) = .uploading [task] program)
      (remotePath : m.uploads.remotePath task = some own) (key : SameKey own path)
      (ends : program.EndsWith (Finishes task own))

/-- What the map of the big files has for a path becomes `FINISHED`. -/
structure Settling (m : DaemonUpload ν) (path : Str) : Prop where
  orderly : m.Orderly
  thread : ∀ tasks program, m.thread (.consumer .bigFile) = .uploading tasks program →
    ∃ task own, tasks = [task] ∧ m.uploads.remotePath task = some own ∧
      (program.EndsWith (Finishes task own) ∨ ∃ r, program = .done r)
  settles : ∀ lead, m.uploads.Leads .bigFile path lead →
    m.uploads.status lead = some .finished ∨ m.Ahead path

theorem Settling.thread_step (hm : m.Settling path) (hs : Step flags remote m a m')
    (hw : m'.thread (.consumer .bigFile) = .uploading tasks program) :
    ∃ task own, tasks = [task] ∧ m'.uploads.remotePath task = some own ∧
      (program.EndsWith (Finishes task own) ∨ ∃ r, program = .done r) := by
  have hgrows := (Grows.step hm.orderly.steady hs).remotePath
  obtain hsame | htake | ⟨x, seen, -, hthread, hstep, -⟩ := DaemonUpload.thread_step hs hw
  · obtain ⟨task, own, htasks, hown, hends⟩ := hm.thread tasks program hsame
    exact ⟨task, own, htasks, hgrows task own hown, hends⟩
  · obtain ⟨task, t, ht, htasks, rfl⟩ := take_put htake
    have hown : m.uploads.remotePath task = some t.remotePath := by
      rw [Uploads.remotePath, ht, Option.map_some]
    exact ⟨task, t.remotePath, htasks, hgrows task _ hown, .inl (endsWith_put task t)⟩
  · obtain ⟨task, own, htasks, hown, hends | ⟨r, rfl⟩⟩ := hm.thread tasks x hthread
    · exact ⟨task, own, htasks, hgrows task own hown, (hends.step hstep).imp_right And.right⟩
    · cases hstep

theorem Ahead.step (h : m.Ahead path) (hm : m.Settling path) (hs : Step flags remote m a m') :
    m'.Ahead path ∨ ∀ lead, m.uploads.Leads .bigFile path lead →
      m'.uploads.status lead = some .finished := by
  have hgrows := (Grows.step hm.orderly.steady hs).remotePath
  cases h with
  | @queued task own found hown hkey =>
    obtain hque | ⟨t, ht, hplace⟩ := queued_next hm.orderly.steady hs found
    · exact .inl (.queued hque (hgrows task own hown) hkey)
    · rw [Uploads.remotePath, ht, Option.map_some] at hown
      obtain rfl := Option.some.inj hown
      refine .inl (.uploading hplace (hgrows task _ ?_) hkey (endsWith_put task t))
      rw [Uploads.remotePath, ht, Option.map_some]
  | @uploading task own program hplace hown hkey hends =>
    obtain hsame | ⟨program', seen, hnext, -, hstep⟩ | rfl := uploading_next hs hplace
    · exact .inl (.uploading hsame (hgrows task own hown) hkey hends)
    · obtain hends' | ⟨⟨f, rfl, hf⟩, -⟩ := hends.step hstep
      · exact .inl (.uploading hnext (hgrows task own hown) hkey hends')
      · refine .inr fun lead hleads ↦ ?_
        have hleads' : m.uploads.Leads .bigFile own lead := by
          rw [Uploads.Leads, UploadQueue.findInMap_congr hkey]
          exact hleads
        obtain ⟨t, ht, -⟩ := hm.orderly.keyed _ _ _ hleads
        have hbelong := hm.orderly.owned.uploading _ _ hplace task List.mem_cons_self
        have hlast : m'.uploads = m.uploads.changeStatus .bigFile own .finished := by
          simpa only [hbelong, Option.getD_some] using hf
        rw [hlast, Uploads.status_changeStatus_of_leads hleads', Uploads.status, ht]
        rfl
    · exact hends.elim

/-- Only another upload of its key makes a finished task another one. -/
theorem finished_step (hm : m.Settling path) (hs : Step flags remote m a m')
    (hleads : m.uploads.Leads .bigFile path lead)
    (h : m.uploads.status lead = some .finished) :
    m'.uploads.status lead = some .finished ∨ m.Ahead path ∨ m'.Ahead path := by
  cases hs with
  | enter | refuse | stop | turn | finish | throw | rm | look | asked | failed | receive
  | receiveRm | remote | fsync => exact .inl h
  | accept _ _ _ hpush =>
    refine .inl ?_
    rw [(Uploads.accepts_of_pushBack hpush).status, if_neg (lt_of_status h).ne, h]
  | @push _ _ task _ _ _ hpush =>
    obtain ⟨own, hpushed⟩ := Uploads.pushed_of_pushBack hpush
    by_cases hsame : lead = task
    · subst hsame
      have hentered := hpushed.entered
      exact .inr (.inr (.queued hentered.found hentered.remotePath
        (hm.orderly.keyed.sameKey hleads hpushed.found)))
    · refine .inl ?_
      rw [hpushed.status, if_neg hsame, h]
  | lose =>
    refine .inl ?_
    rw [m.uploads.status_setBelongQue, h]
  | take htake =>
    refine .inl ?_
    rw [Uploads.status, (take_takes htake).tasks]
    exact h
  | @advance w tasks x program' u seen hthread hstep =>
    obtain rfl | ⟨task, own, status, rfl, rfl, hown, -, rfl⟩ :=
      (hm.orderly.steady _ _ _ hthread).step hstep
    · exact .inl h
    · rw [hm.orderly.owned.uploading _ _ hthread task List.mem_cons_self, Option.getD_some]
      by_cases hsame : m.uploads.Leads .bigFile own lead
      · obtain ⟨task', own', htasks, hown', hends | ⟨r, rfl⟩⟩ := hm.thread _ _ hthread
        · cases htasks
          obtain rfl := Option.some.inj (hown'.symm.trans hown)
          obtain ⟨leading, hleading, hkey⟩ := Uploads.keyed_iff.mp hm.orderly.keyed _ _ _ hsame
          have hlead := hm.orderly.keyed.sameKey hleads hleading
          exact .inr (.inl (.uploading hthread hown' (hkey.symm.trans hlead) hends))
        · cases hstep
      · refine .inl ?_
        show (m.uploads.changeStatus .bigFile own status).status lead = some .finished
        rw [Uploads.status_changeStatus_of_not hsame, h]
  | @cancel _ _ own => exact .inl (Uploads.status_rm_of_finished .smallFile own h)

theorem Settling.step (hm : m.Settling path) (hs : Step flags remote m a m') :
    m'.Settling path := by
  refine ⟨hm.orderly.step hs, fun tasks program ↦ hm.thread_step hs, fun lead hleads ↦ ?_⟩
  obtain hold | ⟨own, hkey, hentered⟩ := (next_step hm.orderly.steady hs).leads hleads
  · have hahead : m.Ahead path → m'.uploads.status lead = some .finished ∨ m'.Ahead path := by
      intro h
      obtain hnext | hfinished := h.step hm hs
      · exact .inr hnext
      · exact .inl (hfinished lead hold)
    obtain hfinished | h := hm.settles lead hold
    · obtain hstill | hbefore | hafter := finished_step hm hs hold hfinished
      · exact .inl hstill
      · exact hahead hbefore
      · exact .inr hafter
    · exact hahead h
  · exact .inr (.queued hentered.found hentered.remotePath hkey)

theorem settling_start (namenode : ν) (path : Str) : (start namenode).Settling path :=
  ⟨orderly_start namenode, fun tasks program hw ↦ (by cases hw),
    fun lead hleads ↦ (by cases hleads)⟩

/-- Nothing waits, and no upload is in progress. -/
structure Drained (m : DaemonUpload ν) : Prop where
  live : m.terminated = false
  que : ∀ name, (m.uploads.queue name).que = []
  moving : m.moving = []
  idle : ∀ w tasks program, m.thread w ≠ .uploading tasks program

theorem Settling.download_local (hm : m.Settling path) (hd : m.Drained)
    (hleads : m.uploads.Leads .bigFile path lead) :
    download m.uploads m.uploads m.uploads m.uploads path =
      .localFile (m.uploads.localPath lead) := by
  have hfinished : m.uploads.status lead = some .finished := by
    refine (hm.settles lead hleads).resolve_right fun hahead ↦ ?_
    cases hahead with
    | queued found =>
      rw [hd.que] at found
      cases found
    | uploading place => exact hd.idle _ _ _ place
  have hque : m.uploads.lsQue .bigFile path = none := by
    rw [Uploads.lsQue, hd.que]
    rfl
  have hmap : m.uploads.lsMap .bigFile path = some lead := by
    rw [Uploads.lsMap, show (m.uploads.queue .bigFile).findInMap path = some lead from hleads,
      Option.filter_some, hfinished]
    rfl
  rw [download, hque, hmap]

end DaemonUpload

end Spkdfs
