import Spkdfs.Client.Finishing

namespace Spkdfs

open Library Program

namespace Daemon

/-- The file is one of a task that waits in the queue of the small files. -/
def Carried (u : Uploads) (file : AggFile) : Prop :=
  ∃ task t, file.task = some task ∧ u.tasks[task]? = some t ∧ t.remotePath = file.path ∧
    t.belongQue = some .smallFile ∧ t.uploadStatus = .waiting

/-- The others call `UploadQueue::rm`. -/
def Cancels (s s' : Uploads) : Prop := ∃ path, s' = s.rm .smallFile path

/-- At some moment of the run the task is cancelled. -/
def Canceled (trace : List UploadEvent) (task : Nat) : Prop :=
  ∃ s, .state s ∈ trace ∧ s.status task = some .canceled

def showsCanceled (task : Nat) : UploadEvent → Bool
  | .state s => s.status task = some .canceled
  | .answer _ _ => false

theorem canceled_iff (trace : List UploadEvent) (task : Nat) :
    trace.any (showsCanceled task) = true ↔ Canceled trace task := by
  rw [List.any_eq_true]
  constructor
  · rintro ⟨e, he, hshows⟩
    cases e with
    | state s => exact ⟨s, he, of_decide_eq_true hshows⟩
    | answer c a => cases hshows
  · rintro ⟨s, hs, hstatus⟩
    exact ⟨.state s, hs, decide_eq_true hstatus⟩

instance (trace : List UploadEvent) (task : Nat) : Decidable (Canceled trace task) :=
  decidable_of_iff _ (canceled_iff trace task)

/-- No call fails but for the path of a cancelled task, which was left out of the first request. -/
def FailsCanceled (files : List AggFile) (trace : List UploadEvent) : Prop :=
  ∀ c fault, .answer c (.error fault) ∈ trace → ∃ file ∈ files,
    (∃ task, file.task = some task ∧ Canceled trace task) ∧
      (c = .request (.updateLock [file.path]) ∨ c = .request (.rm file.path))

/-- A cancelled task stays so and its path is left out of the request; the others are in it and
finish, and their upload does not fail for it. -/
structure Selective (files : List AggFile) (u : Uploads) (trace : List UploadEvent)
    (r : Except Fault Unit) (u' : Uploads) : Prop where
  final : ∀ file ∈ files, ∀ task, file.task = some task →
    ∀ before s after, trace = before ++ .state s :: after →
      (lastState u before).status task = some .canceled → s.status task = some .canceled
  left_out : ∀ file ∈ files, ∀ task, file.task = some task → Canceled trace task →
    ∀ reqs a, .answer (.request (.putOkBatch reqs)) a ∈ trace → file.path ∉ reqs.map (·.path)
  committed : ∀ file ∈ files, ∀ task, file.task = some task → ¬ Canceled trace task →
    (∃ reqs a, .answer (.request (.putOkBatch reqs)) a ∈ trace ∧ file.path ∈ reqs.map (·.path)) ∧
      u'.status task = some .finished
  returns : (∃ file ∈ files, ∃ task, file.task = some task ∧ Canceled trace task) →
    (∃ file ∈ files, ∃ task, file.task = some task ∧ ¬ Canceled trace task) →
      FailsCanceled files trace → r = .ok ()

/-- No call before the `put_ok_batch` fails. -/
def Accepted (trace : List UploadEvent) : Prop :=
  ∀ c a, .answer c a ∈ trace → (∃ b, a = .ok b) ∨ ∃ reqs, c = .request (.putOkBatch reqs)

def NoCommit (trace : List UploadEvent) : Prop :=
  ∀ reqs a, .answer (.request (.putOkBatch reqs)) a ∉ trace

/-- The task is cancelled between the look of `memberRequests` at it and the change of its status. -/
def Overtaken (u : Uploads) (trace : List UploadEvent) (task : Nat) : Prop :=
  ∃ before s after, trace = before ++ .state s :: after ∧
    (lastState u before).status task = some .canceled ∧ s.status task = some .dataUploading

section

variable {u s t : Uploads} {files : List AggFile} {h trace : List UploadEvent} {task : Nat}
  {file : AggFile}

/-- What no upload and no cancellation changes. -/
structure Framed (u s : Uploads) : Prop where
  belong : ∀ task, s.belongQue task = u.belongQue task
  leads : ∀ path task, s.Leads .smallFile path task ↔ u.Leads .smallFile path task

theorem Framed.canceled (hs : Framed u s) (h : Cancels s t) : Framed u t := by
  obtain ⟨path, rfl⟩ := h
  exact ⟨fun task ↦ (s.belongQue_rm _ _ task).trans (hs.belong task),
    fun path' task ↦ (s.leads_rm _ _).trans (hs.leads path' task)⟩

theorem Framed.changed (hs : Framed u s) (name : QueueName) (path : Str) (status : UploadStatus) :
    Framed u (s.changeStatus name path status) :=
  ⟨fun task ↦ (s.belongQue_changeStatus _ _ _ task).trans (hs.belong task),
    fun path' task ↦ (s.leads_changeStatus _ _ _).trans (hs.leads path' task)⟩

theorem Carried.belongQue (h : Carried u file) (htask : file.task = some task) :
    u.belongQue task = some .smallFile := by
  obtain ⟨task', t, htask', ht, -, hbelong, -⟩ := h
  obtain rfl := Option.some.inj (htask'.symm.trans htask)
  rw [Uploads.belongQue, ht, Option.bind_some, hbelong]

theorem Carried.waiting (h : Carried u file) (htask : file.task = some task) :
    u.status task = some .waiting := by
  obtain ⟨task', t, htask', ht, -, -, hwaiting⟩ := h
  obtain rfl := Option.some.inj (htask'.symm.trans htask)
  rw [Uploads.status, ht, Option.map_some, hwaiting]

/-- The map may have a task only for its own path. -/
theorem Carried.leads (h : Carried u file) (hkeyed : u.Keyed) (htask : file.task = some task)
    {path : Str} (hleads : u.Leads .smallFile path task) : u.Leads .smallFile file.path task := by
  obtain ⟨task', t, htask', ht, hpath, -, -⟩ := h
  obtain rfl := Option.some.inj (htask'.symm.trans htask)
  obtain ⟨t', ht', hkey⟩ := hkeyed .smallFile path task' hleads
  obtain rfl := Option.some.inj (ht.symm.trans ht')
  rw [hpath] at hkey
  rw [Uploads.Leads, UploadQueue.findInMap_congr hkey]
  exact hleads

/-- Only the task that the map has for a path is ever touched. -/
theorem touched_leads (hcarried : ∀ file ∈ files, Carried u file) (hfile : file ∈ files)
    (htask : file.task = some task) {data storageType : Str} {r : Except Fault Unit}
    (hexec : Exec Cancels (putAggFile files data storageType) u trace r t) :
    (t.status task ≠ some .waiting → ∃ path, u.Leads .smallFile path task) ∧
      ∀ s, .state s ∈ trace → s.status task ≠ some .waiting →
        ∃ path, u.Leads .smallFile path task := by
  have hkeeps : ∀ s : Uploads, ∀ s' : Uploads, ∀ path,
      (s'.status task = s.status task ∨ s.Leads .smallFile path task) →
      Framed u s ∧ (s.status task ≠ some .waiting → ∃ path, u.Leads .smallFile path task) →
      (s'.status task ≠ some .waiting → ∃ path, u.Leads .smallFile path task) := by
    rintro s s' path (hsame | hleads) ⟨hframed, hs⟩ hs'
    · exact hs (hsame ▸ hs')
    · exact ⟨path, (hframed.leads path task).mp hleads⟩
  have hmodifies : (putAggFile files data storageType).Modifies fun f ↦ ∀ s,
      Framed u s ∧ (s.status task ≠ some .waiting → ∃ path, u.Leads .smallFile path task) →
      Framed u (f s) ∧ ((f s).status task ≠ some .waiting →
        ∃ path, u.Leads .smallFile path task) := by
    refine modifies_putAggFile data storageType fun file' hfile' status _ ↦ ?_
    obtain ⟨task', t', htask', -⟩ := hcarried file' hfile'
    have hbelong := (hcarried file' hfile').belongQue htask'
    rw [htask']
    intro b
    cases b with
    | false => trivial
    | true =>
      refine ⟨fun s hs ↦ ?_, trivial⟩
      have hqueue : (s.belongQue task').getD .smallFile = .smallFile := by
        rw [hs.1.belong, hbelong, Option.getD_some]
      simp only [hqueue]
      refine ⟨hs.1.changed _ _ _, hkeeps s _ file'.path ?_ hs⟩
      by_cases hleads : s.Leads .smallFile file'.path task
      · exact .inr hleads
      · exact .inl (Uploads.status_changeStatus_of_not hleads)
  have hothers : ∀ s s',
      Framed u s ∧ (s.status task ≠ some .waiting → ∃ path, u.Leads .smallFile path task) →
      Cancels s s' → Framed u s' ∧ (s'.status task ≠ some .waiting →
        ∃ path, u.Leads .smallFile path task) := by
    rintro s s' hs ⟨path, rfl⟩
    refine ⟨hs.1.canceled ⟨path, rfl⟩, hkeeps s _ path ?_ hs⟩
    exact (s.status_rm .smallFile path task).imp_right fun h ↦ h.1
  have hstart : Framed u u ∧ (u.status task ≠ some .waiting →
      ∃ path, u.Leads .smallFile path task) :=
    ⟨⟨fun _ ↦ rfl, fun _ _ ↦ Iff.rfl⟩, fun h ↦ absurd ((hcarried file hfile).waiting htask) h⟩
  obtain ⟨hend, hall⟩ := hexec.keeps hmodifies hothers hstart
  exact ⟨hend.2, fun s hs ↦ (hall s hs).2⟩

/-- The only other status that a cancelled task can get. -/
def Calm (u : Uploads) (h : List UploadEvent) : Prop :=
  ∀ before s after, h = before ++ .state s :: after → ∀ task,
    (lastState u before).status task = some .canceled →
      s.status task = some .canceled ∨ s.status task = some .dataUploading

/-- No call has failed, and the commit has not been asked for. -/
structure Changing (u : Uploads) (h : List UploadEvent) (s : Uploads) : Prop where
  last : lastState u h = s
  framed : Framed u s
  accepted : ∀ c a, .answer c a ∈ h → ∃ b, a = .ok b
  noCommit : NoCommit h

/-- The calls before the commit are under way. -/
structure Running (u : Uploads) (h : List UploadEvent) (s : Uploads) : Prop
    extends Changing u h s where
  calm : Calm u h

/-- A call has failed before the commit was asked for. -/
structure Refused (u : Uploads) (h : List UploadEvent) : Prop where
  failed : ¬ Accepted h
  noCommit : NoCommit h
  calm : Calm u h

theorem Framed.refl (u : Uploads) : Framed u u := ⟨fun _ ↦ rfl, fun _ _ ↦ Iff.rfl⟩

theorem mem_concat_answer {c c' : UploadCall} {a : Except Fault c.Answer}
    {a' : Except Fault c'.Answer}
    (hmem : Program.Event.answer c a ∈ (h ++ [Program.Event.answer c' a'] : List UploadEvent)) :
    Program.Event.answer c a ∈ h ∨ (Program.Event.answer c a : UploadEvent) = .answer c' a' :=
  (List.mem_append.mp hmem).imp_right List.mem_singleton.mp

theorem mem_concat_state {c : UploadCall} {a : Except Fault c.Answer}
    (hmem : Program.Event.answer c a ∈ (h ++ [Program.Event.state s] : List UploadEvent)) :
    Program.Event.answer c a ∈ h :=
  (List.mem_append.mp hmem).resolve_right fun he ↦ (by cases List.mem_singleton.mp he)

theorem concat_eq_split {α : Type} {before after xs : List α} {x y : α}
    (h : xs ++ [y] = before ++ x :: after) :
    (xs = before ∧ y = x) ∨ ∃ rest, xs = before ++ x :: rest := by
  rcases List.eq_nil_or_concat after with rfl | ⟨rest, z, rfl⟩
  · obtain ⟨hxs, hx⟩ := List.append_inj' h rfl
    exact .inl ⟨hxs, List.singleton_inj.mp hx⟩
  · rw [List.concat_eq_append, ← List.cons_append, ← List.append_assoc] at h
    exact .inr ⟨rest, (List.append_inj' h rfl).1⟩

theorem Calm.answer (hc : Calm u h) (c : UploadCall) (a : Except Fault c.Answer) :
    Calm u (h ++ [.answer c a]) := by
  intro before s after hsplit
  obtain ⟨-, hx⟩ | ⟨rest, hrest⟩ := concat_eq_split hsplit
  · cases hx
  · exact hc before s rest hrest

theorem Calm.state (hc : Calm u h) (hlast : lastState u h = s)
    (ht : ∀ task, s.status task = some .canceled →
      t.status task = some .canceled ∨ t.status task = some .dataUploading) :
    Calm u (h ++ [.state t]) := by
  intro before s' after hsplit
  obtain ⟨rfl, hx⟩ | ⟨rest, hrest⟩ := concat_eq_split hsplit
  · cases hx
    rw [hlast]
    exact ht
  · exact hc before s' rest hrest

theorem calm_rm (ho : Cancels s t) (hc : s.status task = some .canceled) :
    t.status task = some .canceled := by
  obtain ⟨path, rfl⟩ := ho
  obtain hsame | ⟨-, hstatus⟩ := s.status_rm .smallFile path task
  · exact hsame.trans hc
  · rw [hc] at hstatus
    obtain hstatus | hstatus := hstatus <;> cases hstatus

theorem calm_changeStatus (name : QueueName) (path : Str) (hc : s.status task = some .canceled) :
    (s.changeStatus name path .dataUploading).status task = some .canceled ∨
      (s.changeStatus name path .dataUploading).status task = some .dataUploading := by
  by_cases hleads : s.Leads name path task
  · rw [Uploads.status_changeStatus_of_leads hleads, hc]
    exact .inr rfl
  · exact .inl ((Uploads.status_changeStatus_of_not hleads).trans hc)

theorem Changing.state (hr : Changing u h s) (ht : Framed u t) : Changing u (h ++ [.state t]) t :=
  ⟨lastState_state u t h, ht, fun c a hmem ↦ hr.accepted c a (mem_concat_state hmem),
    fun reqs a hmem ↦ hr.noCommit reqs a (mem_concat_state hmem)⟩

theorem Changing.stable : Stable Cancels (Changing u) :=
  fun _ _ _ hr ho ↦ hr.state (hr.framed.canceled ho)

theorem Running.stable : Stable Cancels (Running u) :=
  fun _ _ _ hr ho ↦ ⟨hr.toChanging.state (hr.framed.canceled ho),
    hr.calm.state hr.last fun _ hc ↦ .inl (calm_rm ho hc)⟩

theorem Running.uploads (hr : Running u h s) (name : QueueName) (path : Str) :
    Running u (h ++ [.state (s.changeStatus name path .dataUploading)])
      (s.changeStatus name path .dataUploading) :=
  ⟨hr.toChanging.state (hr.framed.changed _ _ _),
    hr.calm.state hr.last fun _ hc ↦ calm_changeStatus name path hc⟩

/-- A call other than the commit. -/
theorem triple_ask_running (c : UploadCall) (hc : ∀ reqs, c ≠ .request (.putOkBatch reqs)) :
    Triple Cancels (Running u) (ask c) (fun _ ↦ Running u) fun _ h _ ↦ Refused u h := by
  have hnone : ∀ h a, NoCommit h → NoCommit (h ++ [.answer c a]) := by
    intro h a hno reqs a' hmem
    obtain hmem | heq := mem_concat_answer hmem
    · exact hno reqs a' hmem
    · cases heq
      exact hc reqs rfl
  refine triple_ask Running.stable (fun a h s hr ↦ ?_) fun e h s hr ↦ ?_
  · refine ⟨⟨(lastState_answer u h c _).trans hr.last, hr.framed, fun c' a' hmem ↦ ?_,
      hnone h _ hr.noCommit⟩, hr.calm.answer c _⟩
    obtain hmem | heq := mem_concat_answer hmem
    · exact hr.accepted c' a' hmem
    · cases heq
      exact ⟨a, rfl⟩
  · refine ⟨fun hall ↦ ?_, hnone h _ hr.noCommit, hr.calm.answer c _⟩
    obtain ⟨b, hb⟩ | ⟨reqs, hreqs⟩ := hall c _ (List.mem_append_right _ List.mem_cons_self)
    · cases hb
    · exact hc reqs hreqs

/-- A change of the status of a task of the aggregate. -/
theorem triple_changeStatusIf {P : List UploadEvent → Uploads → Prop}
    {E : Fault → List UploadEvent → Uploads → Prop} (hfile : Carried u file)
    {status : UploadStatus} (hstable : Stable Cancels P) (hframed : ∀ h s, P h s → Framed u s)
    {Q : List UploadEvent → Uploads → Prop}
    (hchange : ∀ h s, P h s → Q (h ++ [.state (s.changeStatus .smallFile file.path status)])
      (s.changeStatus .smallFile file.path status)) :
    Triple Cancels P (changeStatusIf file.task file.path status) (fun _ ↦ Q) E := by
  obtain ⟨task, t, htask, -⟩ := id hfile
  have hbelong := hfile.belongQue htask
  rw [htask]
  refine triple_changeStatus hstable (fun h s hp ↦ (hframed h s hp).belong task) ?_
  intro h s name hp hname
  obtain rfl := Option.some.inj (hbelong.symm.trans hname)
  exact hchange h s hp

theorem triple_putRequests (storageType : Str) (files : List AggFile)
    {E : Fault → List UploadEvent → Uploads → Prop} :
    Triple Cancels (Running u) (putRequests storageType files) (fun _ ↦ Running u) E := by
  induction files with
  | nil => exact triple_pure fun _ _ hr ↦ hr
  | cons file files ih =>
    refine Triple.bind (Q := fun _ ↦ Running u) (triple_check Running.stable fun _ _ hr ↦ hr) ?_
    intro canceled
    cases canceled with
    | true => exact ih
    | false => exact ih.bind fun _ ↦ triple_pure fun _ _ hr ↦ hr

theorem triple_lockFiles (files : List AggFile) :
    Triple Cancels (Running u) (lockFiles files) (fun _ ↦ Running u) fun _ h _ ↦ Refused u h := by
  induction files with
  | nil => exact triple_pure fun _ _ hr ↦ hr
  | cons file files ih => exact (triple_ask_running (.request (.updateLock [file.path])) nofun).bind fun _ ↦ ih

theorem Canceled.append (hc : Canceled h task) (trace : List UploadEvent) :
    Canceled (h ++ trace) task := by
  obtain ⟨s, hs, hstatus⟩ := hc
  exact ⟨s, List.mem_append_left _ hs, hstatus⟩

/-- What a look at a task finds has been so at some moment of the run. -/
theorem Running.canceled (hr : Running u h s) (hfile : Carried u file)
    (hcanceled : s.canceled file.task = true) : ∃ task, file.task = some task ∧ Canceled h task := by
  obtain ⟨task, t, htask, -⟩ := id hfile
  have hwaiting := hfile.waiting htask
  rw [htask, Uploads.canceled, Option.any_some, decide_eq_true_eq] at hcanceled
  refine ⟨task, htask, s, ?_, hcanceled⟩
  obtain hfirst | hseen := lastState_mem u h
  · rw [← hr.last, hfirst, hwaiting] at hcanceled
    cases hcanceled
  · rwa [hr.last] at hseen

/-- As long as none of the tasks is cancelled, the request has all of the files. -/
theorem triple_memberRequests (res : Str) (files : List AggFile)
    (hcarried : ∀ file ∈ files, Carried u file) :
    Triple Cancels (Running u) (memberRequests res files)
      (fun reqs h s ↦ Running u h s ∧
        ((∀ file ∈ files, ∀ task, file.task = some task → ¬ Canceled h task) →
          reqs = files.map (Client.memberRequest res)))
      fun _ h _ ↦ Refused u h := by
  induction files with
  | nil => exact triple_pure fun _ _ hr ↦ ⟨hr, fun _ ↦ rfl⟩
  | cons file files ih =>
    have hfile := hcarried file List.mem_cons_self
    have hrest := ih fun f hf ↦ hcarried f (List.mem_cons_of_mem _ hf)
    refine Triple.bind (Q := fun canceled h s ↦ Running u h s ∧
      (canceled = true → ∃ task, file.task = some task ∧ Canceled h task))
      (triple_check Running.stable fun h s hr ↦ ⟨hr, hr.canceled hfile⟩) fun canceled ↦ ?_
    cases canceled with
    | true =>
      have hseen : ∀ h trace, (∃ task, file.task = some task ∧ Canceled h task) →
          ∃ task, file.task = some task ∧ Canceled (h ++ trace) task :=
        fun h trace ⟨task, htask, hc⟩ ↦ ⟨task, htask, hc.append trace⟩
      have hboth := ((triple_ask_running (.request (.rm file.path)) nofun).bind
        fun _ ↦ hrest).frame hseen
      refine (hboth.pre fun h s hr ↦ ⟨hr.1, hr.2 rfl⟩).post ?_ fun _ _ _ hr ↦ hr.1
      rintro reqs h s ⟨⟨hr, -⟩, task, htask, hc⟩
      exact ⟨hr, fun hnone ↦ absurd hc (hnone file List.mem_cons_self task htask)⟩
    | false =>
      refine Triple.bind (Q := fun _ ↦ Running u) ?_ fun _ ↦ hrest.bind fun reqs ↦ triple_pure ?_
      · refine (triple_changeStatusIf hfile Running.stable (fun _ _ hr ↦ hr.framed) ?_).pre
          fun h s hr ↦ hr.1
        exact fun h s hr ↦ hr.uploads .smallFile file.path
      · rintro h s ⟨hr, hreqs⟩
        refine ⟨hr, fun hnone ↦ ?_⟩
        rw [hreqs fun f hf ↦ hnone f (List.mem_cons_of_mem _ hf), List.map_cons]

theorem triple_changeAll_changing (status : UploadStatus) (files : List AggFile)
    (hcarried : ∀ file ∈ files, Carried u file) {E : Fault → List UploadEvent → Uploads → Prop} :
    Triple Cancels (Changing u) (changeAll status files) (fun _ ↦ Changing u) E := by
  induction files with
  | nil => exact triple_pure fun _ _ hr ↦ hr
  | cons file files ih =>
    refine Triple.bind (Q := fun _ ↦ Changing u) ?_
      fun _ ↦ ih fun f hf ↦ hcarried f (List.mem_cons_of_mem _ hf)
    exact triple_changeStatusIf (hcarried file List.mem_cons_self) Changing.stable
      (fun _ _ hr ↦ hr.framed) fun h s hr ↦ hr.state (hr.framed.changed _ _ _)

/-- The commit has been asked for, and the tasks of some files have been finished since. -/
structure Requested (u : Uploads) (files : List AggFile) (requests : List NNPutOKRequest)
    (a : Except Fault Unit) (finished : List AggFile) (h : List UploadEvent) (s : Uploads) :
    Prop where
  framed : Framed u s
  asked : .answer (.request (.putOkBatch requests)) a ∈ h
  accepted : Accepted h
  whole : (∀ file ∈ files, ∀ task, file.task = some task → ¬ Canceled h task) →
    ∃ res, requests = files.map (Client.memberRequest res)
  finished : ∀ file ∈ finished, ∀ task, file.task = some task →
    u.Leads .smallFile file.path task → s.status task = some .finished

theorem Requested.state {requests : List NNPutOKRequest} {a : Except Fault Unit}
    {finished finished' : List AggFile} (hr : Requested u files requests a finished h s)
    (hframed : Framed u t) (hfinished : ∀ file ∈ finished', ∀ task, file.task = some task →
      u.Leads .smallFile file.path task → t.status task = some .finished) :
    Requested u files requests a finished' (h ++ [.state t]) t :=
  ⟨hframed, List.mem_append_left _ hr.asked, fun c a hmem ↦ hr.accepted c a (mem_concat_state hmem),
    fun hnone ↦ hr.whole fun file hfile task htask hc ↦ hnone file hfile task htask (hc.append _),
    hfinished⟩

theorem Requested.stable {requests : List NNPutOKRequest} {a : Except Fault Unit}
    {finished : List AggFile} : Stable Cancels (Requested u files requests a finished) := by
  intro h s t hr ho
  refine hr.state (hr.framed.canceled ho) fun file hfile task htask hleads ↦ ?_
  obtain ⟨path, rfl⟩ := ho
  exact Uploads.status_rm_of_finished _ _ (hr.finished file hfile task htask hleads)

theorem Requested.change {requests : List NNPutOKRequest} {a : Except Fault Unit}
    {finished : List AggFile} (hr : Requested u files requests a finished h s)
    (hfile : Carried u file) :
    Requested u files requests a (finished ++ [file])
      (h ++ [.state (s.changeStatus .smallFile file.path .finished)])
      (s.changeStatus .smallFile file.path .finished) := by
  refine hr.state (hr.framed.changed _ _ _) fun file' hmem task htask hleads ↦ ?_
  obtain hmem | hmem := List.mem_append.mp hmem
  · have hold := hr.finished file' hmem task htask hleads
    by_cases hled : s.Leads .smallFile file.path task
    · rw [Uploads.status_changeStatus_of_leads hled, hold]
      rfl
    · rw [Uploads.status_changeStatus_of_not hled, hold]
  · obtain rfl := List.mem_singleton.mp hmem
    have hbelong := (hr.framed.belong task).trans (hfile.belongQue htask)
    rw [Uploads.status_changeStatus_of_leads ((hr.framed.leads _ _).mpr hleads)]
    rw [Uploads.belongQue, Option.bind_eq_some_iff] at hbelong
    obtain ⟨t, ht, -⟩ := hbelong
    rw [Uploads.status, ht]
    rfl

theorem triple_finishAll {requests : List NNPutOKRequest} {a : Except Fault Unit}
    (finished todo : List AggFile) (hcarried : ∀ file ∈ todo, Carried u file)
    {E : Fault → List UploadEvent → Uploads → Prop} :
    Triple Cancels (Requested u files requests a finished) (changeAll .finished todo)
      (fun _ ↦ Requested u files requests a (finished ++ todo)) E := by
  induction todo generalizing finished with
  | nil => exact triple_pure fun _ _ hr ↦ (List.append_nil finished).symm ▸ hr
  | cons file todo ih =>
    have hfile := hcarried file List.mem_cons_self
    refine Triple.bind (Q := fun _ ↦ Requested u files requests a (finished ++ [file])) ?_ fun _ ↦ ?_
    · exact triple_changeStatusIf hfile Requested.stable (fun _ _ hr ↦ hr.framed) fun _ _ hr ↦
        hr.change hfile
    · rw [List.append_cons finished file todo]
      exact ih (finished ++ [file]) fun f hf ↦ hcarried f (List.mem_cons_of_mem _ hf)

theorem Changing.requested {requests : List NNPutOKRequest} {a : Except Fault Unit} {res : Str}
    (hr : Changing u h s) (hrequests : (∀ file ∈ files, ∀ task, file.task = some task →
      ¬ Canceled h task) → requests = files.map (Client.memberRequest res)) :
    Requested u files requests a [] (h ++ [.answer (.request (.putOkBatch requests)) a]) s := by
  refine ⟨hr.framed, List.mem_append_right _ List.mem_cons_self, fun c a' hmem ↦ ?_, fun hnone ↦
    ⟨res, hrequests fun file hfile task htask hc ↦ hnone file hfile task htask (hc.append _)⟩, nofun⟩
  obtain hmem | heq := mem_concat_answer hmem
  · exact .inl (hr.accepted c a' hmem)
  · cases heq
    exact .inr ⟨requests, rfl⟩

theorem triple_orRefused {α : Type} {P X : List UploadEvent → Uploads → Prop}
    {x : UploadProgram α} {Q : α → List UploadEvent → Uploads → Prop}
    (hx : Triple Cancels P x Q fun _ h _ ↦ Refused u h) :
    Triple Cancels P x Q fun _ h s ↦ Refused u h ∨ X h s :=
  hx.post (fun _ _ _ hr ↦ hr) fun _ _ _ hr ↦ .inl hr

/-- `putAggFile` fails before it asks for the commit, or asks for it and then changes all. -/
theorem putAggFile_triple (data : Str) {storageType : Str} {storage : StorageType}
    (hstorage : StorageType.fromString storageType = .ok storage)
    (hcarried : ∀ file ∈ files, Carried u file) :
    Triple Cancels (Running u) (putAggFile files data storageType)
      (fun _ h s ↦ ∃ requests a, Requested u files requests a files h s)
      fun _ h s ↦ Refused u h ∨ ∃ requests a, Requested u files requests a files h s := by
  rw [putAggFile, hstorage]
  refine Triple.bind (Q := fun _ ↦ Running u) (triple_done fun _ _ hr ↦ hr) fun storage ↦ ?_
  refine (triple_putRequests storageType files).bind fun reqs ↦ ?_
  have hputBatch : ∀ members, UploadCall.request (.putBatch reqs) ≠ .request (.putOkBatch members) := by
    intro members hcall
    cases hcall
  refine (triple_orRefused (triple_ask_running _ hputBatch)).bind fun _ ↦ ?_
  refine (triple_orRefused (triple_lockFiles files)).bind fun _ ↦ ?_
  have hencode : ∀ members, UploadCall.encodeOneBlock storage data ≠ .request (.putOkBatch members) := by
    intro members hcall
    cases hcall
  refine (triple_orRefused (triple_ask_running _ hencode)).bind fun res ↦ ?_
  refine (triple_orRefused (triple_memberRequests res files hcarried)).bind fun requests ↦ ?_
  have hmore : ∀ h trace, ((∀ file ∈ files, ∀ task, file.task = some task → ¬ Canceled h task) →
      requests = files.map (Client.memberRequest res)) →
      (∀ file ∈ files, ∀ task, file.task = some task → ¬ Canceled (h ++ trace) task) →
        requests = files.map (Client.memberRequest res) :=
    fun h trace hx hnone ↦ hx fun file hfile task htask hc ↦
      hnone file hfile task htask (hc.append trace)
  have hchanged := (triple_changeAll_changing .metaUploading files hcarried
    (E := fun _ h _ ↦ Refused u h)).frame hmore
  refine Triple.bind ((hchanged.pre fun _ _ hr ↦ ⟨hr.1.toChanging, hr.2⟩).post (fun _ _ _ hr ↦ hr)
    fun _ _ _ hr ↦ .inl hr.1) fun _ ↦ ?_
  refine Triple.bind (Q := fun a ↦ Requested u files requests a [])
    (triple_attempt (fun h s t hr ho ↦ ⟨Changing.stable h s t hr.1 ho, hmore h _ hr.2⟩)
      fun a h s hr ↦ hr.1.requested hr.2) fun a ↦ ?_
  refine (triple_finishAll [] files hcarried).bind fun _ ↦ triple_done fun h s hr ↦ ?_
  cases a with
  | ok x => exact ⟨requests, .ok x, hr⟩
  | error fault => exact .inr ⟨requests, .error fault, hr⟩

/-- What is known when `putAggFile` has ended, unless it has failed before the commit. -/
theorem putAggFile_ends (hcarried : ∀ file ∈ files, Carried u file) {data storageType : Str}
    {storage : StorageType} (hstorage : StorageType.fromString storageType = .ok storage)
    {r : Except Fault Unit}
    (hexec : Exec Cancels (putAggFile files data storageType) u trace r t) :
    (Refused u trace ∧ r ≠ .ok ()) ∨ ∃ requests a, Requested u files requests a files trace t := by
  have hstart : Running u [] u := ⟨⟨rfl, .refl u, nofun, nofun⟩, fun before s after hsplit ↦ by simp at hsplit⟩
  have hend := putAggFile_triple data hstorage hcarried [] u trace r t hstart hexec
  rw [List.nil_append] at hend
  cases r with
  | ok x => exact .inr hend
  | error fault => exact hend.imp_left fun hrefused ↦ ⟨hrefused, nofun⟩

theorem not_canceled_start (hfile : Carried u file) (htask : file.task = some task)
    (hnone : ¬ Canceled trace task) {before after : List UploadEvent}
    (htrace : trace = before ++ after) : (lastState u before).status task ≠ some .canceled := by
  intro hc
  obtain hfirst | hseen := lastState_mem u before
  · rw [hfirst, hfile.waiting htask] at hc
    cases hc
  · exact hnone ⟨_, htrace ▸ List.mem_append_left _ hseen, hc⟩

/-- A task that was cancelled at some moment still is at the end. -/
theorem Selective.canceled_last {r : Except Fault Unit} (hs : Selective files u trace r t)
    (hfile : file ∈ files) (htask : file.task = some task) (hc : Canceled trace task) :
    (lastState u trace).status task = some .canceled := by
  obtain ⟨s, hseen, hstatus⟩ := hc
  obtain ⟨before, after, rfl⟩ := List.append_of_mem hseen
  have hall : ∀ more rest, before ++ .state s :: after = before ++ .state s :: more ++ rest →
      (lastState u (before ++ .state s :: more)).status task = some .canceled := by
    intro more
    induction more using List.reverseRecOn with
    | nil =>
      intro rest _
      rw [lastState_state, hstatus]
    | append_singleton more e ih =>
      intro rest hsplit
      have hsplit' : before ++ .state s :: after = before ++ .state s :: more ++ e :: rest := by
        rw [hsplit]
        simp
      have hprev := ih (e :: rest) hsplit'
      rw [← List.cons_append, ← List.append_assoc]
      cases e with
      | answer c a => rwa [lastState_answer]
      | state x =>
        rw [lastState_state]
        exact hs.final file hfile task htask _ x rest hsplit' hprev
  exact hall after [] (List.append_nil _).symm

theorem putAggFile_error {data storageType : Str} {fault : Fault} {r : Except Fault Unit}
    (hstorage : StorageType.fromString storageType = .error fault)
    (hexec : Exec Cancels (putAggFile files data storageType) u trace r t) :
    trace = [] ∧ r = .error fault := by
  rw [putAggFile, hstorage] at hexec
  cases hexec with
  | done => exact ⟨rfl, rfl⟩
  | other hmore => exact absurd rfl (hmore _)
  | step hs => cases hs

/-- The last passes change the status of a cancelled task as well. -/
theorem Selective.not_canceled {data storageType : Str} {r a : Except Fault Unit}
    {requests : List NNPutOKRequest} (hs : Selective files u trace r t) (hkeyed : u.Keyed)
    (hcarried : ∀ file ∈ files, Carried u file)
    (hexec : Exec Cancels (putAggFile files data storageType) u trace r t)
    (hend : Requested u files requests a files trace t) (hfile : file ∈ files)
    (htask : file.task = some task) : ¬ Canceled trace task := by
  intro hc
  obtain ⟨s, hseen, hstatus⟩ := id hc
  obtain ⟨path, hleads⟩ := (touched_leads hcarried hfile htask hexec).2 s hseen
    (by rw [hstatus]; nofun)
  have hfinished := hend.finished file hfile task htask
    ((hcarried file hfile).leads hkeyed htask hleads)
  have hlast := hs.canceled_last hfile htask hc
  rw [hexec.lastState_eq, hfinished] at hlast
  cases hlast

theorem selective_nil {r : Except Fault Unit} : Selective [] u trace r t :=
  ⟨nofun, nofun, nofun, fun ⟨_, hfile, _⟩ ↦ absurd hfile List.not_mem_nil⟩

/-- A call has failed in time: there is no request, and the upload is selective if there is nobody
it should have been made for. -/
theorem Refused.selective_iff {r : Except Fault Unit} (hr : Refused u trace) :
    Selective files u trace r t ↔ ∀ file ∈ files, ∀ task, file.task = some task →
      Canceled trace task ∧ ¬ Overtaken u trace task := by
  constructor
  · intro hs file hfile task htask
    refine ⟨by_contra fun hnot ↦ ?_, ?_⟩
    · obtain ⟨⟨reqs, a, hasked, -⟩, -⟩ := hs.committed file hfile task htask hnot
      exact hr.noCommit reqs a hasked
    · rintro ⟨before, s, after, htrace, hc, huploading⟩
      have hstays := hs.final file hfile task htask before s after htrace hc
      rw [huploading] at hstays
      cases hstays
  · intro hall
    refine ⟨fun file hfile task htask before s after htrace hc ↦ ?_,
      fun _ _ _ _ _ reqs a hasked ↦ absurd hasked (hr.noCommit reqs a),
      fun file hfile task htask hnot ↦ absurd (hall file hfile task htask).1 hnot,
      fun _ ⟨file, hfile, task, htask, hnot⟩ _ ↦ absurd (hall file hfile task htask).1 hnot⟩
    refine (hr.calm before s after htrace task hc).resolve_right fun huploading ↦ ?_
    exact (hall file hfile task htask).2 ⟨before, s, after, htrace, hc, huploading⟩

/-- The commit has been asked for: the upload is selective if nothing was cancelled. -/
theorem Requested.selective_iff {data storageType : Str} {r a : Except Fault Unit}
    {requests : List NNPutOKRequest} (hend : Requested u files requests a files trace t)
    (hkeyed : u.Keyed) (hcarried : ∀ file ∈ files, Carried u file)
    (hexec : Exec Cancels (putAggFile files data storageType) u trace r t) :
    Selective files u trace r t ↔ ∀ file ∈ files, ∀ task, file.task = some task →
      ¬ Canceled trace task ∧ u.Leads .smallFile file.path task := by
  constructor
  · intro hs file hfile task htask
    have hnot := hs.not_canceled hkeyed hcarried hexec hend hfile htask
    obtain ⟨-, hfinished⟩ := hs.committed file hfile task htask hnot
    obtain ⟨path, hleads⟩ := (touched_leads hcarried hfile htask hexec).1 (by rw [hfinished]; nofun)
    exact ⟨hnot, (hcarried file hfile).leads hkeyed htask hleads⟩
  · intro hall
    have hnone : ∀ file ∈ files, ∀ task, file.task = some task → ¬ Canceled trace task :=
      fun file hfile task htask ↦ (hall file hfile task htask).1
    refine ⟨fun file hfile task htask before s after htrace hc ↦ ?_,
      fun file hfile task htask hc ↦ absurd hc (hnone file hfile task htask),
      fun file hfile task htask _ ↦ ?_,
      fun ⟨file, hfile, task, htask, hc⟩ ↦ absurd hc (hnone file hfile task htask)⟩
    · exact absurd hc (not_canceled_start (hcarried file hfile) htask (hnone file hfile task htask)
        htrace)
    · obtain ⟨res, hrequests⟩ := hend.whole hnone
      refine ⟨⟨requests, a, hend.asked, ?_⟩,
        hend.finished file hfile task htask (hall file hfile task htask).2⟩
      rw [hrequests, List.map_map]
      exact List.mem_map.mpr ⟨file, hfile, rfl⟩

/-- The code treats cancelled tasks like the others in the later passes: it is selective if nothing
is cancelled, or everything, and then the upload fails before it comes to these passes. -/
theorem putAggFile_selective_iff {data storageType : Str} {r : Except Fault Unit} {u' : Uploads}
    (hkeyed : u.Keyed) (hcarried : ∀ file ∈ files, Carried u file)
    (hexec : Exec Cancels (putAggFile files data storageType) u trace r u') :
    Selective files u trace r u' ↔
      (files = [] ∨ (∃ storage, StorageType.fromString storageType = .ok storage) ∧
        Accepted trace ∧ ∀ file ∈ files, ∀ task, file.task = some task →
          ¬ Canceled trace task ∧ u.Leads .smallFile file.path task) ∨
      ¬ Accepted trace ∧ ∀ file ∈ files, ∀ task, file.task = some task →
        Canceled trace task ∧ ¬ Overtaken u trace task := by
  by_cases hempty : files = []
  · subst hempty
    exact iff_of_true selective_nil (.inl (.inl rfl))
  simp only [hempty, false_or]
  cases hstorage : StorageType.fromString storageType with
  | error fault =>
    obtain ⟨rfl, -⟩ := putAggFile_error hstorage hexec
    obtain ⟨file, hfile⟩ := List.exists_mem_of_ne_nil files hempty
    obtain ⟨task, t, htask, -⟩ := hcarried file hfile
    refine iff_of_false (fun hs ↦ ?_) ?_
    · obtain ⟨⟨reqs, a, hasked, -⟩, -⟩ := hs.committed file hfile task htask (by simp [Canceled])
      cases hasked
    · rintro (⟨⟨storage, he⟩, -⟩ | ⟨hnot, -⟩)
      · cases he
      · exact hnot nofun
  | ok storage =>
    obtain ⟨hrefused, -⟩ | ⟨requests, a, hend⟩ := putAggFile_ends hcarried hstorage hexec
    · rw [hrefused.selective_iff]
      exact ⟨fun hall ↦ .inr ⟨hrefused.failed, hall⟩,
        fun h ↦ h.elim (fun hleft ↦ absurd hleft.2.1 hrefused.failed) And.right⟩
    · rw [hend.selective_iff hkeyed hcarried hexec]
      exact ⟨fun hall ↦ .inl ⟨⟨storage, rfl⟩, hend.accepted, hall⟩,
        fun h ↦ h.elim (fun hleft ↦ hleft.2.2) fun hright ↦ absurd hend.accepted hright.1⟩

end

def aggText : Str := ['A', 'G', 'G', '<', '1', ',', '1', ',', '1', '>']

def waitingTask (path : Str) : UploadTask :=
  { localPath := path, remotePath := path, size := 1, belongQue := some .smallFile }

def oneWaiting : Uploads :=
  (Uploads.pushBack { tasks := [waitingTask ['/', 'a'], waitingTask ['/', 'b']] } .smallFile 0).toOption.getD {}

/-- Two small files wait in their queue. -/
def twoWaiting : Uploads := (oneWaiting.pushBack .smallFile 1).toOption.getD {}

def twoFiles : List AggFile :=
  [{ path := ['/', 'a'], size := 1, pos := (0, 1), task := some 0 },
    { path := ['/', 'b'], size := 1, pos := (1, 2), task := some 1 }]

theorem keyed_twoWaiting : twoWaiting.Keyed := by
  have hfirst : Uploads.pushBack { tasks := [waitingTask ['/', 'a'], waitingTask ['/', 'b']] }
      .smallFile 0 = .ok oneWaiting := rfl
  have hsecond : oneWaiting.pushBack .smallFile 1 = .ok twoWaiting := rfl
  exact ((Uploads.keyed_empty _).pushBack hfirst).pushBack hsecond

theorem carried_twoFiles : ∀ file ∈ twoFiles, Carried twoWaiting file := by
  intro file hfile
  obtain rfl | hfile := List.mem_cons.mp hfile
  · exact ⟨0, _, rfl, rfl, rfl, rfl, rfl⟩
  · obtain rfl := List.mem_singleton.mp hfile
    exact ⟨1, _, rfl, rfl, rfl, rfl, rfl⟩

theorem putAggFile_selective_two :
    ∃ trace u', Exec Cancels (putAggFile twoFiles ['x', 'y'] aggText) twoWaiting trace
      (.ok ()) u' ∧ Selective twoFiles twoWaiting trace (.ok ()) u' := by
  have halone : (putAggFile twoFiles ['x', 'y'] aggText).alone withAll twoWaiting =
    some (_, _, _) := rfl
  have hexec := exec_alone Cancels withAll halone
  refine ⟨_, _, hexec, (putAggFile_selective_iff keyed_twoWaiting carried_twoFiles hexec).mpr
    (.inl (.inr ⟨⟨.agg 1 1 1, by decide⟩, fun c a hmem ↦ ?_, fun file hfile task htask ↦ ?_⟩))⟩
  · rw [answer_alone halone hmem]
    cases c <;> exact .inl ⟨_, rfl⟩
  · obtain rfl | hfile := List.mem_cons.mp hfile
    · obtain rfl := Option.some.inj htask
      exact ⟨by decide, rfl⟩
    · obtain rfl := List.mem_singleton.mp hfile
      obtain rfl := Option.some.inj htask
      exact ⟨by decide, rfl⟩

/-- The namenode does not know the path of the first file. -/
def withoutFirst : (c : UploadCall) → Except Fault c.Answer
  | .request (.updateLock [['/', 'a']]) => .error (.message .pathNotExistsException ['/', 'a'])
  | c => withAll c

/-- One of two files is cancelled before the first pass. Its status is `FINISHED` in the end; or,
since its path is not prepared and still locked, the other file is not uploaded either. -/
theorem not_putAggFile_selective :
    (∃ trace u', Exec Cancels (putAggFile twoFiles ['x', 'y'] aggText) twoWaiting trace
      (.ok ()) u' ∧ Canceled trace 0 ∧ u'.status 0 = some .finished ∧
      ¬ Selective twoFiles twoWaiting trace (.ok ()) u') ∧
    ∃ trace fault u', Exec Cancels (putAggFile twoFiles ['x', 'y'] aggText) twoWaiting
      trace (.error fault) u' ∧ Canceled trace 0 ∧ ¬ Canceled trace 1 ∧
      u'.status 1 = some .waiting := by
  have hcancels : Cancels twoWaiting (twoWaiting.rm .smallFile ['/', 'a']) := ⟨_, rfl⟩
  constructor
  · have hexec : Exec Cancels (putAggFile twoFiles ['x', 'y'] aggText) twoWaiting _ _ _ :=
      .other nofun hcancels (exec_alone Cancels withAll rfl)
    refine ⟨_, _, hexec, by decide, rfl, fun hs ↦ ?_⟩
    have hlast : (lastState twoWaiting _).status 0 = some .canceled :=
      hs.canceled_last List.mem_cons_self rfl (by decide)
    rw [hexec.lastState_eq] at hlast
    cases hlast
  · have hexec : Exec Cancels (putAggFile twoFiles ['x', 'y'] aggText) twoWaiting _ _ _ :=
      .other nofun hcancels (exec_alone Cancels withoutFirst rfl)
    exact ⟨_, _, _, hexec, by decide, by decide, rfl⟩

end Daemon

end Spkdfs
