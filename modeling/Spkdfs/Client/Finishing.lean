import Spkdfs.Client.Queues

namespace Spkdfs

open Library Program

/-- The namenode has taken the request that commits the path. -/
def Commits (path : Str) : UploadEvent → Bool
  | .answer (.request (.putOk req)) (.ok _) => req.path = path
  | .answer (.request (.putOkBatch reqs)) (.ok _) => path ∈ reqs.map (·.path)
  | _ => false

/-- The failures that `SDK::put` only prints. -/
def UploadCall.Caught : UploadCall → Prop
  | .request (.put _) | .request (.putOk _) => True
  | _ => False

/-- A failure that `SDK::put` throws on. -/
def Refuses : UploadEvent → Prop
  | .state _ => False
  | .answer c a => ¬ c.Caught ∧ ∃ fault, a = .error fault

/-- The status of the task becomes `FINISHED` only after the commit, and the upload does not return
before it is that or `CANCELED`. -/
structure StatusTells (u : Uploads) (trace : List UploadEvent) (r : Except Fault Unit)
    (u' : Uploads) (task : Nat) (path : Str) : Prop where
  committed : ∀ before s after, trace = before ++ .state s :: after →
    (lastState u before).status task ≠ some .finished → s.status task = some .finished →
      ∃ e ∈ before, Commits path e
  finished : r = .ok () → u'.status task = some .finished ∨ u'.status task = some .canceled

namespace Daemon

section

variable {u : Uploads} {task : Nat} {t : UploadTask}

/-- The others leave the task alone. They may give its path to another one. -/
def Aside (task : Nat) (s s' : Uploads) : Prop := s'.tasks[task]? = s.tasks[task]?

/-- The upload is under way and nothing has failed. -/
structure Handling (u : Uploads) (task : Nat) (t : UploadTask) (h : List UploadEvent)
    (s : Uploads) : Prop where
  last : lastState u h = s
  belong : s.belongQue task = t.belongQue
  accepted : ∀ e ∈ h, ¬ Refuses e
  unfinished : ∀ x, .state x ∈ h → x.status task ≠ some .finished
  started : ∃ status, s.status task = some status ∧ status ≠ .finished ∧ status ≠ .canceled

/-- The upload has failed. -/
structure Failed (task : Nat) (h : List UploadEvent) : Prop where
  refused : ∃ e ∈ h, Refuses e
  unfinished : ∀ x, .state x ∈ h → x.status task ≠ some .finished

theorem Aside.status {s s' : Uploads} (h : Aside task s s') : s'.status task = s.status task := by
  rw [Uploads.status, h, Uploads.status]

theorem accepted_state {h : List UploadEvent} (s : Uploads) (ha : ∀ e ∈ h, ¬ Refuses e) :
    ∀ e ∈ h ++ [.state s], ¬ Refuses e := by
  intro e he
  obtain he | he := List.mem_append.mp he
  · exact ha e he
  · obtain rfl := List.mem_singleton.mp he
    exact id

/-- A state in which the task is not further than before. -/
theorem Handling.moved {h : List UploadEvent} {s s' : Uploads} (hh : Handling u task t h s)
    (hbelong : s'.belongQue task = s.belongQue task)
    (hstarted : ∃ status, s'.status task = some status ∧ status ≠ .finished ∧ status ≠ .canceled) :
    Handling u task t (h ++ [.state s']) s' := by
  refine ⟨lastState_state u s' h, hbelong.trans hh.belong, accepted_state s' hh.accepted,
    fun x hx ↦ ?_, hstarted⟩
  obtain hx | hx := List.mem_append.mp hx
  · exact hh.unfinished x hx
  · obtain rfl := Program.Event.state.inj (List.mem_singleton.mp hx)
    obtain ⟨status, hs, hne, -⟩ := hstarted
    rw [hs]
    exact fun he ↦ hne (Option.some.inj he)

theorem Handling.stable : Stable (Aside task) (Handling u task t) := by
  intro h s s' hh ho
  have hstatus : s'.status task = s.status task := ho.status
  refine hh.moved ?_ ?_
  · rw [Uploads.belongQue, ho, Uploads.belongQue]
  · rw [hstatus]
    exact hh.started

theorem Handling.answered {h : List UploadEvent} {s : Uploads} {c : UploadCall}
    {a : Except Fault c.Answer} (hh : Handling u task t h s)
    (hc : ¬ Refuses (.answer c a)) : Handling u task t (h ++ [.answer c a]) s := by
  refine ⟨(lastState_answer u h c a).trans hh.last, hh.belong, fun e he ↦ ?_, fun x hx ↦ ?_,
    hh.started⟩
  · obtain he | he := List.mem_append.mp he
    · exact hh.accepted e he
    · rwa [List.mem_singleton.mp he]
  · obtain hx | hx := List.mem_append.mp hx
    · exact hh.unfinished x hx
    · cases List.mem_singleton.mp hx

theorem Handling.refused {h : List UploadEvent} {s : Uploads} {c : UploadCall} {fault : Fault}
    (hh : Handling u task t h s) (hc : ¬ c.Caught) : Failed task (h ++ [.answer c (.error fault)]) := by
  refine ⟨⟨_, List.mem_append_right _ List.mem_cons_self, hc, fault, rfl⟩, fun x hx ↦ ?_⟩
  obtain hx | hx := List.mem_append.mp hx
  · exact hh.unfinished x hx
  · cases List.mem_singleton.mp hx

/-- A call that throws when it fails. -/
theorem triple_ask_handling (c : UploadCall) (hc : ¬ c.Caught) :
    Triple (Aside task) (Handling u task t) (ask c) (fun _ ↦ Handling u task t)
      fun _ h _ ↦ Failed task h := by
  refine triple_ask Handling.stable (fun a h s hh ↦ hh.answered ?_) fun e h s hh ↦ hh.refused hc
  rintro ⟨-, fault, hfault⟩
  cases hfault

theorem triple_attempt_handling (c : UploadCall) (hc : c.Caught) {E : Fault → List UploadEvent → Uploads → Prop} :
    Triple (Aside task) (Handling u task t) (attempt c) (fun _ ↦ Handling u task t) E :=
  triple_attempt Handling.stable fun _ _ _ hh ↦ hh.answered fun h ↦ h.1 hc

/-- `change_status`, whichever task it is for. -/
theorem triple_changeStatus {P : List UploadEvent → Uploads → Prop}
    {Q : Unit → List UploadEvent → Uploads → Prop} {E : Fault → List UploadEvent → Uploads → Prop}
    {others : Uploads → Uploads → Prop} {path : Str} {status : UploadStatus} {name : Option QueueName}
    (hstable : Stable others P) (hbelong : ∀ h s, P h s → s.belongQue task = name)
    (hchange : ∀ h s name', P h s → name = some name' →
      Q () (h ++ [.state (s.changeStatus name' path status)]) (s.changeStatus name' path status)) :
    Triple others P (changeStatus task path status) Q E := by
  cases name with
  | none =>
    refine Triple.bind (Q := fun b h s ↦ b = false ∧ P h s) (triple_check hstable fun h s hp ↦ ?_)
      fun b ↦ ?_
    · exact ⟨by rw [hbelong h s hp]; rfl, hp⟩
    · cases b with
      | false => exact (triple_stuck hstable).pre fun h s hp ↦ hp.2
      | true => exact fun h s _ _ _ hp ↦ (by cases hp.1)
  | some name' =>
    refine Triple.bind (Q := fun b h s ↦ b = true ∧ P h s) (triple_check hstable fun h s hp ↦ ?_)
      fun b ↦ ?_
    · exact ⟨by rw [hbelong h s hp]; rfl, hp⟩
    · cases b with
      | false => exact fun h s _ _ _ hp ↦ (by cases hp.1)
      | true =>
        refine (triple_access hstable fun h s hp ↦ ?_).pre fun h s hp ↦ hp.2
        rw [hbelong h s hp]
        exact hchange h s name' hp rfl

theorem Handling.changed {h : List UploadEvent} {s : Uploads} {name : QueueName}
    {status : UploadStatus} (hh : Handling u task t h s) (hf : status ≠ .finished)
    (hc : status ≠ .canceled) :
    Handling u task t (h ++ [.state (s.changeStatus name t.remotePath status)])
      (s.changeStatus name t.remotePath status) := by
  obtain ⟨old, hold, hof, hoc⟩ := hh.started
  have hstarted : ∃ status', (s.changeStatus name t.remotePath status).status task = some status' ∧
      status' ≠ .finished ∧ status' ≠ .canceled := by
    by_cases hleads : s.Leads name t.remotePath task
    · exact ⟨status, by rw [Uploads.status_changeStatus_of_leads hleads, hold]; rfl, hf, hc⟩
    · exact ⟨old, by rw [Uploads.status_changeStatus_of_not hleads, hold], hof, hoc⟩
  exact hh.moved (s.belongQue_changeStatus name _ status task) hstarted

theorem triple_change_handling (status : UploadStatus) (hf : status ≠ .finished)
    (hc : status ≠ .canceled) {E : Fault → List UploadEvent → Uploads → Prop} :
    Triple (Aside task) (Handling u task t) (changeStatus task t.remotePath status)
      (fun _ ↦ Handling u task t) E :=
  triple_changeStatus Handling.stable (fun _ _ hh ↦ hh.belong) fun _ _ _ hh _ ↦ hh.changed hf hc

/-- The upload has returned: its last access was the change to `FINISHED`. -/
structure Returned (u : Uploads) (task : Nat) (t : UploadTask) (h : List UploadEvent)
    (s : Uploads) : Prop where
  accepted : ∀ e ∈ h, ¬ Refuses e
  last : ∃ before, h = before ++ [.state s] ∧
    (∀ x, .state x ∈ before → x.status task ≠ some .finished) ∧
    (lastState u before).status task ≠ some .finished
  status : ∃ name, t.belongQue = some name ∧
    (s.Leads name t.remotePath task → s.status task = some .finished) ∧
    (¬ s.Leads name t.remotePath task →
      s.status task ≠ some .finished ∧ s.status task ≠ some .canceled)

theorem Handling.returned {h : List UploadEvent} {s : Uploads} {name : QueueName}
    (hh : Handling u task t h s) (hname : t.belongQue = some name) :
    Returned u task t (h ++ [.state (s.changeStatus name t.remotePath .finished)])
      (s.changeStatus name t.remotePath .finished) := by
  obtain ⟨old, hold, hof, hoc⟩ := hh.started
  refine ⟨accepted_state _ hh.accepted, ⟨h, rfl, hh.unfinished, ?_⟩, name, hname, fun hleads ↦ ?_,
    fun hleads ↦ ?_⟩
  · rw [hh.last, hold]
    exact fun he ↦ hof (Option.some.inj he)
  · rw [Uploads.leads_changeStatus] at hleads
    rw [Uploads.status_changeStatus_of_leads hleads, hold]
    rfl
  · rw [Uploads.leads_changeStatus] at hleads
    rw [Uploads.status_changeStatus_of_not hleads, hold]
    exact ⟨fun he ↦ hof (Option.some.inj he), fun he ↦ hoc (Option.some.inj he)⟩

theorem put_triple {storage : StorageType} (hstorage : StorageType.fromString t.storageType = .ok storage) :
    Triple (Aside task) (Handling u task t) (put task t) (fun _ ↦ Returned u task t)
      fun _ h _ ↦ Failed task h := by
  rw [put, hstorage]
  refine Triple.bind (Q := fun _ ↦ Handling u task t) (triple_done fun _ _ hh ↦ hh) fun _ ↦ ?_
  refine (triple_ask_handling _ id).bind fun content ↦ ?_
  refine (triple_attempt_handling (.request (.put _)) trivial).bind fun _ ↦ ?_
  refine (triple_ask_handling _ id).bind fun encoded ↦ ?_
  refine (triple_ask_handling _ id).bind fun _ ↦ ?_
  refine (triple_change_handling .dataUploading nofun nofun).bind fun _ ↦ ?_
  refine (triple_ask_handling _ id).bind fun sub ↦ ?_
  refine (triple_change_handling .metaUploading nofun nofun).bind fun _ ↦ ?_
  refine (triple_attempt_handling (.request (.putOk _)) trivial).bind fun _ ↦ ?_
  exact triple_changeStatus Handling.stable (fun _ _ hh ↦ hh.belong) fun _ _ _ hh hname ↦
    hh.returned hname

theorem Failed.statusTells {trace : List UploadEvent} {fault : Fault} {u' : Uploads} {path : Str}
    (h : Failed task trace) : StatusTells u trace (.error fault) u' task path := by
  refine ⟨fun before s after htrace _ hs ↦ ?_, fun hok ↦ (by cases hok)⟩
  exact absurd hs (h.unfinished s (htrace ▸ List.mem_append_right _ List.mem_cons_self))

theorem append_singleton_eq {α : Type} {before before' after : List α} {x y : α}
    (h : before ++ [x] = before' ++ y :: after) :
    before' = before ∧ y = x ∨ ∃ more, before = before' ++ y :: more := by
  obtain rfl | ⟨more, z, rfl⟩ := List.eq_nil_or_concat' after
  · obtain ⟨hbefore, hlast⟩ := List.append_inj' h rfl
    exact .inl ⟨hbefore.symm, (List.cons.inj hlast).1.symm⟩
  · rw [← List.cons_append, ← List.append_assoc] at h
    exact .inr ⟨more, (List.append_inj' h rfl).1⟩

/-- The last change is the only one to `FINISHED`. -/
theorem Returned.statusTells_iff {trace : List UploadEvent} {u' : Uploads} {name : QueueName}
    (h : Returned u task t trace u') (hname : t.belongQue = some name) :
    StatusTells u trace (.ok ()) u' task t.remotePath ↔
      u'.Leads name t.remotePath task ∧ ∃ e ∈ trace, Commits t.remotePath e := by
  obtain ⟨before, rfl, hbefore, hlast⟩ := h.last
  obtain ⟨name', hname', hleads, hnot⟩ := h.status
  obtain rfl : name' = name := Option.some.inj (hname'.symm.trans hname)
  have hcommits : (∃ e ∈ before ++ [.state u'], Commits t.remotePath e) ↔
      ∃ e ∈ before, Commits t.remotePath e := by
    constructor
    · rintro ⟨e, he, hc⟩
      obtain he | he := List.mem_append.mp he
      · exact ⟨e, he, hc⟩
      · rw [List.mem_singleton.mp he] at hc
        cases hc
    · rintro ⟨e, he, hc⟩
      exact ⟨e, List.mem_append_left _ he, hc⟩
  rw [hcommits]
  constructor
  · intro htells
    have hled : u'.Leads name' t.remotePath task := by
      by_contra hn
      exact (htells.finished rfl).elim (hnot hn).1 (hnot hn).2
    exact ⟨hled, htells.committed before u' [] rfl hlast (hleads hled)⟩
  · rintro ⟨hled, hcommit⟩
    refine ⟨fun before' s after hsplit hprev hs ↦ ?_, fun _ ↦ .inl (hleads hled)⟩
    obtain ⟨rfl, -⟩ | ⟨more, rfl⟩ := append_singleton_eq hsplit
    · exact hcommit
    · exact absurd hs (hbefore s (List.mem_append_right _ List.mem_cons_self))

/-- An upload of a task that is still the one of its path when it ends, and whose commit is taken,
is told as it is; so is one that fails. -/
theorem put_tells_iff {trace : List UploadEvent} {r : Except Fault Unit} {u' : Uploads}
    (hstart : u.tasks[task]? = some t) (hwaiting : t.uploadStatus = .waiting)
    (hexec : Exec (Aside task) (put task t) u trace r u') :
    StatusTells u trace r u' task t.remotePath ↔
      ((∃ fault, StorageType.fromString t.storageType = .error fault) ∨ ∃ e ∈ trace, Refuses e) ∨
        (∃ name, t.belongQue = some name ∧ u'.Leads name t.remotePath task) ∧
          ∃ e ∈ trace, Commits t.remotePath e := by
  cases hstorage : StorageType.fromString t.storageType with
  | error fault =>
    rw [put, hstorage] at hexec
    cases hexec with
    | done =>
      refine iff_of_true ⟨fun before s after htrace ↦ ?_, fun h ↦ (by cases h)⟩ (.inl (.inl ⟨fault, rfl⟩))
      exact absurd htrace.symm (List.append_ne_nil_of_right_ne_nil before (List.cons_ne_nil _ _))
    | other hmore => exact absurd rfl (hmore _)
    | step hs => cases hs
  | ok storage =>
    have hhandling : Handling u task t [] u := by
      refine ⟨rfl, ?_, nofun, nofun, .waiting, ?_, nofun, nofun⟩
      · rw [Uploads.belongQue, hstart, Option.bind_some]
      · rw [Uploads.status, hstart, Option.map_some, hwaiting]
    have hend := put_triple hstorage [] u trace r u' hhandling hexec
    rw [List.nil_append] at hend
    cases r with
    | error fault => exact iff_of_true hend.statusTells (.inl (.inr hend.refused))
    | ok x =>
      obtain ⟨name, hname, -⟩ := hend.status
      rw [hend.statusTells_iff hname]
      constructor
      · exact fun h ↦ .inr ⟨⟨name, hname, h.1⟩, h.2⟩
      · rintro (⟨⟨fault, hfault⟩ | ⟨e, he, hrefuses⟩⟩ | ⟨⟨name', hname', hleads⟩, hcommits⟩)
        · cases hfault
        · exact absurd hrefuses (hend.accepted e he)
        · obtain rfl : name' = name := Option.some.inj (hname'.symm.trans hname)
          exact ⟨hleads, hcommits⟩

end

/-! The aggregates. -/

section

variable {M : (Uploads → Uploads) → Prop} {files : List AggFile}

theorem modifies_aggregateFiles {α : Type} {k : List AggFile × Str → UploadProgram α}
    (hk : ∀ files data, (∀ file ∈ files, file.task = none) → (k (files, data)).Modifies M)
    (batch : List UploadTask) (files : List AggFile) (data : Str)
    (hnone : ∀ file ∈ files, file.task = none) :
    (aggregateFiles batch files data >>= k).Modifies M := by
  induction batch generalizing files data with
  | nil => exact hk files data hnone
  | cons t batch ih =>
    intro a
    cases a with
    | error fault => trivial
    | ok content =>
      refine ih _ _ fun file hfile ↦ ?_
      obtain hfile | hfile := List.mem_append.mp hfile
      · exact hnone file hfile
      · rw [List.mem_singleton.mp hfile]

theorem modifies_ask (c : UploadCall) : (ask c : UploadProgram c.Answer).Modifies M :=
  fun _ ↦ trivial

theorem modifies_putRequests (storageType : Str) (files : List AggFile) :
    (putRequests storageType files).Modifies M := by
  induction files with
  | nil => trivial
  | cons file files ih =>
    refine Modifies.bind (fun _ ↦ trivial) fun canceled ↦ ?_
    cases canceled with
    | true => exact ih
    | false => exact ih.bind fun _ ↦ trivial

theorem modifies_lockFiles (files : List AggFile) : (lockFiles files).Modifies M := by
  induction files with
  | nil => trivial
  | cons file files ih => exact (modifies_ask _).bind fun _ ↦ ih

/-- What a pass over the files changes are the statuses of their tasks. -/
theorem modifies_memberRequests (res : Str)
    (hfiles : ∀ file ∈ files, (changeStatusIf file.task file.path .dataUploading).Modifies M) :
    (memberRequests res files).Modifies M := by
  induction files with
  | nil => trivial
  | cons file files ih =>
    have hrest := ih fun f hf ↦ hfiles f (List.mem_cons_of_mem _ hf)
    refine Modifies.bind (fun _ ↦ trivial) fun canceled ↦ ?_
    cases canceled with
    | true => exact (modifies_ask _).bind fun _ ↦ hrest
    | false => exact (hfiles file List.mem_cons_self).bind fun _ ↦ hrest.bind fun _ ↦ trivial

theorem modifies_changeAll {status : UploadStatus}
    (hfiles : ∀ file ∈ files, (changeStatusIf file.task file.path status).Modifies M) :
    (changeAll status files).Modifies M := by
  induction files with
  | nil => trivial
  | cons file files ih =>
    exact (hfiles file List.mem_cons_self).bind fun _ ↦
      ih fun f hf ↦ hfiles f (List.mem_cons_of_mem _ hf)

theorem modifies_putAggFile (data storageType : Str)
    (hfiles : ∀ file ∈ files, ∀ status, status ∈ [.dataUploading, .metaUploading, .finished] →
      (changeStatusIf file.task file.path status).Modifies M) :
    (putAggFile files data storageType).Modifies M := by
  refine Modifies.bind trivial fun storage ↦ ?_
  refine (modifies_putRequests storageType files).bind fun reqs ↦ ?_
  refine (modifies_ask _).bind fun _ ↦ ?_
  refine (modifies_lockFiles files).bind fun _ ↦ ?_
  refine (modifies_ask _).bind fun res ↦ ?_
  refine (modifies_memberRequests res fun f hf ↦ hfiles f hf _ (by simp)).bind fun requests ↦ ?_
  refine (modifies_changeAll fun f hf ↦ hfiles f hf _ (by simp)).bind fun _ ↦ ?_
  refine Modifies.bind (fun _ ↦ trivial) fun response ↦ ?_
  exact (modifies_changeAll fun f hf ↦ hfiles f hf _ (by simp)).bind fun _ ↦ trivial

/-- Without tasks in the files, nothing is changed. -/
theorem modifies_smallFileAggregateUpload (batch : List UploadTask) (aggType : Str) :
    (smallFileAggregateUpload batch aggType).Modifies M := by
  refine modifies_aggregateFiles (fun files data hnone ↦ ?_) batch [] [] nofun
  refine modifies_putAggFile data aggType fun file hfile status _ ↦ ?_
  rw [hnone file hfile]
  trivial

theorem strict_changeStatusIf (task : Option Nat) (path : Str) (status : UploadStatus) :
    (changeStatusIf task path status).Strict := by
  cases task with
  | none => trivial
  | some task =>
    intro b
    cases b <;> trivial

theorem strict_changeAll (status : UploadStatus) (files : List AggFile) :
    (changeAll status files).Strict := by
  induction files with
  | nil => trivial
  | cons file files ih => exact (strict_changeStatusIf ..).bind fun _ ↦ ih

theorem strict_putRequests (storageType : Str) (files : List AggFile) :
    (putRequests storageType files).Strict := by
  induction files with
  | nil => trivial
  | cons file files ih =>
    refine Strict.bind (fun _ ↦ trivial) fun canceled ↦ ?_
    cases canceled with
    | true => exact ih
    | false => exact ih.bind fun _ ↦ trivial

theorem strict_lockFiles (files : List AggFile) : (lockFiles files).Strict := by
  induction files with
  | nil => trivial
  | cons file files ih => exact (strict_ask _).bind fun _ ↦ ih

theorem strict_memberRequests (res : Str) (files : List AggFile) :
    (memberRequests res files).Strict := by
  induction files with
  | nil => trivial
  | cons file files ih =>
    refine Strict.bind (fun _ ↦ trivial) fun canceled ↦ ?_
    cases canceled with
    | true => exact (strict_ask _).bind fun _ ↦ ih
    | false => exact (strict_changeStatusIf ..).bind fun _ ↦ ih.bind fun _ ↦ trivial

theorem strict_putAggFile (files : List AggFile) (data : Str) {storageType : Str}
    {storage : StorageType} (hstorage : StorageType.fromString storageType = .ok storage) :
    (putAggFile files data storageType).Strict := by
  rw [putAggFile, hstorage]
  refine Strict.bind trivial fun _ ↦ ?_
  refine (strict_putRequests storageType files).bind fun reqs ↦ ?_
  refine (strict_ask _).bind fun _ ↦ ?_
  refine (strict_lockFiles files).bind fun _ ↦ ?_
  refine (strict_ask _).bind fun res ↦ ?_
  refine (strict_memberRequests res files).bind fun requests ↦ ?_
  refine (strict_changeAll _ files).bind fun _ ↦ ?_
  -- the answer is thrown after the last pass
  refine ⟨fun response ↦ ?_, fun fault ↦ ensures_bind (changeAll .finished files) fun _ ↦ trivial⟩
  exact (strict_changeAll _ files).bind fun _ ↦ trivial

theorem strict_aggregateFiles (batch : List UploadTask) (files : List AggFile) (data : Str) :
    (aggregateFiles batch files data).Strict := by
  induction batch generalizing files data with
  | nil => trivial
  | cons t batch ih => exact (strict_ask _).bind fun content ↦ ih _ _

theorem aggregate_returns_iff {batch : List UploadTask} {aggType : Str} {u u' : Uploads}
    {others : Uploads → Uploads → Prop} {trace : List UploadEvent} {r : Except Fault Unit}
    (hexec : Exec others (smallFileAggregateUpload batch aggType) u trace r u') :
    r = .ok () ↔ ¬ ((∃ fault, StorageType.fromString aggType = .error fault) ∨
      ∃ c fault, .answer c (.error fault) ∈ trace) := by
  cases hstorage : StorageType.fromString aggType with
  | error fault =>
    have hends : (smallFileAggregateUpload batch aggType).Ensures fun _ _ ↦ False := by
      refine ensures_bind _ fun (files, data) ↦ ?_
      change (putAggFile files data aggType).Ensures _
      rw [putAggFile, hstorage]
      trivial
    obtain ⟨fault', rfl⟩ | ⟨_, _, _, hfalse⟩ := hexec.ensures hends
    · exact iff_of_false nofun fun h ↦ h (.inl ⟨fault, rfl⟩)
    · cases hfalse
  | ok storage =>
    have hstrict : (smallFileAggregateUpload batch aggType).Strict :=
      (strict_aggregateFiles batch [] []).bind fun (files, data) ↦ strict_putAggFile files data hstorage
    have hiff := hexec.strict_iff hstrict
    constructor
    · rintro hr (⟨fault, hfault⟩ | ⟨c, fault, hmem⟩)
      · cases hfault
      · obtain ⟨b, hb⟩ := hiff.mp ⟨(), hr⟩ c _ hmem
        cases hb
    · intro hnone
      obtain ⟨x, hx⟩ := hiff.mpr fun c a hmem ↦ (by
        cases a with
        | ok b => exact ⟨b, rfl⟩
        | error fault => exact absurd (.inr ⟨c, fault, hmem⟩) hnone)
      exact hx

end

/-- The others may cancel the tasks of the batch but do not finish them. -/
def Unfinishing (batch : List Nat) (s s' : Uploads) : Prop :=
  ∀ task ∈ batch, s'.status task = some .finished → s.status task = some .finished

theorem aggregate_tells_iff {batch : List Nat} {aggType : Str} {u u' : Uploads}
    {trace : List UploadEvent} {r : Except Fault Unit}
    (hstart : ∀ task ∈ batch, u.status task ≠ some .finished)
    (hexec : Exec (Unfinishing batch)
      (smallFileAggregateUpload (batch.filterMap (u.tasks[·]?)) aggType) u trace r u') :
    (∀ task ∈ batch, ∀ t, u.tasks[task]? = some t →
        StatusTells u trace r u' task t.remotePath) ↔
      ((∃ fault, StorageType.fromString aggType = .error fault) ∨
        ∃ c fault, .answer c (.error fault) ∈ trace) ∨
        ∀ task ∈ batch, ∀ t, u.tasks[task]? = some t → u'.status task = some .canceled := by
  have hothers : ∀ s s', (∀ task ∈ batch, s.status task ≠ some .finished) →
      Unfinishing batch s s' → ∀ task ∈ batch, s'.status task ≠ some .finished :=
    fun s s' hs ho task hmem hf ↦ hs task hmem (ho task hmem hf)
  obtain ⟨hend, hall⟩ := hexec.keeps (modifies_smallFileAggregateUpload _ aggType) hothers hstart
  have hiff : ∀ task ∈ batch, ∀ path, StatusTells u trace r u' task path ↔
      (r = .ok () → u'.status task = some .canceled) := by
    intro task hmem path
    constructor
    · exact fun h hr ↦ (h.finished hr).resolve_left (hend task hmem)
    · refine fun h ↦ ⟨fun before s after htrace _ hs ↦ ?_, fun hr ↦ .inr (h hr)⟩
      have hseen : .state s ∈ trace := htrace ▸ List.mem_append_right _ List.mem_cons_self
      exact absurd hs (hall s hseen task hmem)
  rw [or_iff_not_imp_left, ← aggregate_returns_iff hexec]
  constructor
  · exact fun h hr task hmem t ht ↦ (hiff task hmem t.remotePath).mp (h task hmem t ht) hr
  · exact fun h task hmem t ht ↦ (hiff task hmem t.remotePath).mpr fun hr ↦ h hr task hmem t ht

/-- What a status tells of an upload by `put` and of one in an aggregate, whose files carry no
task. -/
theorem status_tells_iff (u u' : Uploads) (trace : List UploadEvent) (r : Except Fault Unit) :
    (∀ task t, u.tasks[task]? = some t → t.uploadStatus = .waiting →
      Exec (Aside task) (put task t) u trace r u' →
      (StatusTells u trace r u' task t.remotePath ↔
        ((∃ fault, StorageType.fromString t.storageType = .error fault) ∨
          ∃ e ∈ trace, Refuses e) ∨
          (∃ name, t.belongQue = some name ∧ u'.Leads name t.remotePath task) ∧
            ∃ e ∈ trace, Commits t.remotePath e)) ∧
    ∀ batch aggType, (∀ task ∈ batch, u.status task ≠ some .finished) →
      Exec (Unfinishing batch)
        (smallFileAggregateUpload (batch.filterMap (u.tasks[·]?)) aggType) u trace r u' →
      ((∀ task ∈ batch, ∀ t, u.tasks[task]? = some t →
          StatusTells u trace r u' task t.remotePath) ↔
        ((∃ fault, StorageType.fromString aggType = .error fault) ∨
          ∃ c fault, .answer c (.error fault) ∈ trace) ∨
          ∀ task ∈ batch, ∀ t, u.tasks[task]? = some t → u'.status task = some .canceled) :=
  ⟨fun _ _ hstart hwaiting hexec ↦ put_tells_iff hstart hwaiting hexec,
    fun _ _ hstart hexec ↦ aggregate_tells_iff hstart hexec⟩

/-- Everything is answered with success, except a `put_ok`. -/
def withoutPutOk : (c : UploadCall) → Except Fault c.Answer
  | .openFile _ => .ok ['x']
  | .request (.putOk _) => .error (.runtime "leader not ready".toList)
  | .request _ => .ok ()
  | .encodeContent _ _ => .ok [[['x']]]
  | .datanodePut _ _ => .ok [['s']]
  | .encodeOneBlock _ _ => .ok ['s']

def withAll : (c : UploadCall) → Except Fault c.Answer
  | .request _ => .ok ()
  | c => withoutPutOk c

def bigTask : UploadTask :=
  { localPath := "/l".toList, remotePath := "/r".toList, size := 1,
    storageType := "RE<1,1>".toList, belongQue := some .bigFile }

def bigStart : Uploads :=
  (Uploads.pushBack { tasks := [bigTask] } .bigFile 0).toOption.getD {}

def smallTask : UploadTask :=
  { localPath := "/l".toList, remotePath := "/r".toList, size := 1, belongQue := some .smallFile }

def smallStart : Uploads :=
  (Uploads.pushBack { tasks := [smallTask] } .smallFile 0).toOption.getD {}

theorem status_tells_big :
    (∃ trace u', Exec (Aside 0) (put 0 bigTask) bigStart trace (.ok ()) u' ∧
      StatusTells bigStart trace (.ok ()) u' 0 "/r".toList) ∧
    ∃ trace u', Exec (Unfinishing [0]) (smallFileAggregateUpload [smallTask] "AGG<1,1,1>".toList)
      (smallStart.rm .smallFile "/r".toList) trace (.ok ()) u' ∧
      StatusTells (smallStart.rm .smallFile "/r".toList) trace (.ok ()) u' 0 "/r".toList := by
  constructor
  · have hexec : Exec (Aside 0) (put 0 bigTask) bigStart _ _ _ := exec_alone _ withAll rfl
    refine ⟨_, _, hexec, ?_⟩
    exact ((status_tells_iff bigStart _ _ _).1 0 bigTask rfl rfl hexec).mpr
      (.inr ⟨⟨.bigFile, rfl, rfl⟩, by decide⟩)
  · have hexec : Exec (Unfinishing [0])
        (smallFileAggregateUpload [{ smallTask with uploadStatus := .canceled }] "AGG<1,1,1>".toList)
        (smallStart.rm .smallFile "/r".toList) _ _ _ := exec_alone _ withAll rfl
    refine ⟨_, _, hexec, ?_⟩
    have hstatus : ∀ task ∈ [0], (smallStart.rm .smallFile "/r".toList).status task ≠
        some .finished := by decide
    refine ((status_tells_iff _ _ _ _).2 [0] _ hstatus hexec).mpr (.inr ?_) 0 (by decide) _ rfl
    intro task htask t _
    rw [List.mem_singleton.mp htask]
    rfl

/-- The namenode refuses to commit the file, and the status is `FINISHED`; it commits an aggregate,
and the status is `WAITING`. -/
theorem not_status_tells :
    (∃ trace u', Exec (Aside 0) (put 0 bigTask) bigStart trace (.ok ()) u' ∧
      u'.status 0 = some .finished ∧ ∀ e ∈ trace, Commits "/r".toList e = false) ∧
    ∃ trace u', Exec (Unfinishing [0]) (smallFileAggregateUpload [smallTask] "AGG<1,1,1>".toList)
      smallStart trace (.ok ()) u' ∧ u'.status 0 = some .waiting := by
  constructor
  · have hexec : Exec (Aside 0) (put 0 bigTask) bigStart _ _ _ := exec_alone _ withoutPutOk rfl
    exact ⟨_, _, hexec, rfl, by decide⟩
  · have hexec : Exec (Unfinishing [0])
        (smallFileAggregateUpload [smallTask] "AGG<1,1,1>".toList) smallStart _ _ _ :=
      exec_alone _ withAll rfl
    exact ⟨_, _, hexec, rfl⟩

end Daemon

end Spkdfs
