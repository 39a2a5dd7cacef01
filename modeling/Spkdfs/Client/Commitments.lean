import Spkdfs.Client.DaemonSteps

namespace Spkdfs

open Library Program DaemonUpload

namespace Daemon

variable {α : Type} {A : (c : UploadCall) → Except Fault c.Answer → Prop} {files : List AggFile}
  {task : Nat} {path : Str} {status : UploadStatus}

/-- The files of an aggregate are those of its batch, without their tasks. -/
theorem ensures_aggregateFiles (paths : List Str) {k : List AggFile × Str → UploadProgram α}
    (hk : ∀ files data, (∀ file ∈ files, file.task = none) → files.map (·.path) = paths →
      (k (files, data)).Ensures A)
    (batch : List UploadTask) (files : List AggFile) (data : Str)
    (hnone : ∀ file ∈ files, file.task = none)
    (hpaths : files.map (·.path) ++ batch.map (·.remotePath) = paths) :
    (aggregateFiles batch files data >>= k).Ensures A := by
  induction batch generalizing files data with
  | nil => exact hk files data hnone (by rwa [List.map_nil, List.append_nil] at hpaths)
  | cons t batch ih =>
    intro a
    cases a with
    | error fault => exact .inr trivial
    | ok content =>
      refine .inr (ih _ _ (fun file hfile ↦ ?_) ?_)
      · obtain hfile | hfile := List.mem_append.mp hfile
        · exact hnone file hfile
        · rw [List.mem_singleton.mp hfile]
      · rw [← hpaths, List.map_append, List.map_cons, List.append_assoc]
        rfl

/-- A file without a task is never left out. -/
theorem ensures_memberRequests (res : Str) {k : List NNPutOKRequest → UploadProgram α}
    (hnone : ∀ file ∈ files, file.task = none)
    (hk : ∀ requests, requests.map (·.path) = files.map (·.path) → (k requests).Ensures A) :
    (memberRequests res files >>= k).Ensures A := by
  induction files generalizing k with
  | nil => exact hk [] rfl
  | cons file files ih =>
    have hfile := hnone file List.mem_cons_self
    rw [memberRequests, hfile, bind_assoc]
    intro s
    show (((memberRequests res files >>= fun rest ↦ pure (Client.memberRequest res file :: rest))
      >>= k) : UploadProgram α).Ensures A
    rw [bind_assoc]
    refine ih (fun f hf ↦ hnone f (List.mem_cons_of_mem _ hf)) fun requests hrequests ↦ ?_
    exact hk _ (by rw [List.map_cons, hrequests, List.map_cons]; rfl)

/-- An aggregate of such files returns only if all of them are committed. -/
theorem ensures_putAggFile (data storageType : Str) (hnone : ∀ file ∈ files, file.task = none) :
    (putAggFile files data storageType).Ensures fun c a ↦
      takesCommit (.answer c a) = true ∧ ∀ file ∈ files, Commits file.path (.answer c a) := by
  refine ensures_bind _ fun storage ↦ ensures_bind _ fun reqs ↦ ensures_bind _ fun _ ↦
    ensures_bind _ fun _ ↦ ensures_bind _ fun res ↦ ?_
  refine ensures_memberRequests res hnone fun requests hrequests ↦ ?_
  refine ensures_bind _ fun _ a ↦ ?_
  cases a with
  | error fault =>
    have hthrows : (changeAll .finished files >>= fun _ ↦
        (.done (.error fault) : UploadProgram Unit)).Ensures fun c a ↦
          takesCommit (.answer c a) = true ∧ ∀ file ∈ files, Commits file.path (.answer c a) :=
      ensures_bind _ fun _ ↦ trivial
    exact .inr hthrows
  | ok b =>
    refine .inl ⟨rfl, fun file hfile ↦ decide_eq_true ?_⟩
    rw [hrequests]
    exact List.mem_map.mpr ⟨file, hfile, rfl⟩

theorem ensures_smallFileAggregateUpload (batch : List UploadTask) (aggType : Str) :
    (smallFileAggregateUpload batch aggType).Ensures fun c a ↦
      takesCommit (.answer c a) = true ∧ ∀ t ∈ batch, Commits t.remotePath (.answer c a) := by
  refine ensures_aggregateFiles (batch.map (·.remotePath)) (fun files data hnone hpaths ↦ ?_)
    batch [] [] nofun rfl
  refine (ensures_putAggFile data aggType hnone).mono fun c a h ↦ ⟨h.1, fun t ht ↦ ?_⟩
  have hpath : t.remotePath ∈ files.map (·.path) := hpaths ▸ List.mem_map.mpr ⟨t, ht, rfl⟩
  obtain ⟨file, hfile, he⟩ := List.mem_map.mp hpath
  exact he ▸ h.2 file hfile

/-- A single file is committed before its upload returns, unless the commit is refused. -/
theorem ensures_put (task : Nat) (t : UploadTask) :
    (put task t).Ensures fun c a ↦ takesCommit (.answer c a) = true ∨
      ∃ req fault, (Program.Event.answer c a : UploadEvent) = .answer (.request (.putOk req)) (.error fault) := by
  refine ensures_bind _ fun storage ↦ ensures_bind _ fun content ↦ ensures_bind _ fun _ ↦
    ensures_bind _ fun encoded ↦ ensures_bind _ fun _ ↦ ensures_bind _ fun _ ↦
    ensures_bind _ fun sub ↦ ensures_bind _ fun _ a ↦ ?_
  cases a with
  | ok b => exact .inl (.inl rfl)
  | error fault => exact .inl (.inr ⟨_, fault, rfl⟩)

/-- Not a removal. -/
def SparesAll (c : UploadCall) : Prop := ∀ path, c ≠ .request (.rm path)

/-- Neither a removal nor a request to make a directory. -/
def Stores (c : UploadCall) : Prop := SparesAll c ∧ ∀ path, c ≠ .request (.mkdir path)

theorem calls_changeStatus (task : Nat) (path : Str) (status : UploadStatus) :
    (changeStatus task path status).Calls Stores := by
  intro u
  show Calls Stores (if (u.belongQue task).isSome = true then
    access fun v : Uploads ↦ v.changeStatus ((v.belongQue task).getD .smallFile) path status
    else stuck)
  split_ifs <;> trivial

theorem calls_ask (c : UploadCall) (hc : Stores c) :
    (ask c : UploadProgram c.Answer).Calls Stores := ⟨hc, fun _ ↦ trivial⟩

theorem calls_attempt (c : UploadCall) (hc : Stores c) :
    (attempt c : UploadProgram (Except Fault c.Answer)).Calls Stores := ⟨hc, fun _ ↦ trivial⟩

theorem calls_put (task : Nat) (t : UploadTask) : (put task t).Calls Stores := by
  refine Calls.bind trivial fun storage ↦ ?_
  refine (calls_ask (.openFile _) ⟨nofun, nofun⟩).bind fun content ↦ ?_
  refine (calls_attempt (.request (.put _)) ⟨nofun, nofun⟩).bind fun _ ↦ ?_
  refine (calls_ask (.encodeContent _ _) ⟨nofun, nofun⟩).bind fun encoded ↦ ?_
  refine (calls_ask (.request (.updateLock _)) ⟨nofun, nofun⟩).bind fun _ ↦ ?_
  refine (calls_changeStatus task _ _).bind fun _ ↦ ?_
  refine (calls_ask (.datanodePut _ _) ⟨nofun, nofun⟩).bind fun sub ↦ ?_
  refine (calls_changeStatus task _ _).bind fun _ ↦ ?_
  refine (calls_attempt (.request (.putOk _)) ⟨nofun, nofun⟩).bind fun _ ↦ ?_
  exact calls_changeStatus task _ _

theorem calls_aggregateFiles {k : List AggFile × Str → UploadProgram α}
    (hk : ∀ files data, (∀ file ∈ files, file.task = none) → (k (files, data)).Calls Stores)
    (batch : List UploadTask) (files : List AggFile) (data : Str)
    (hnone : ∀ file ∈ files, file.task = none) :
    (aggregateFiles batch files data >>= k).Calls Stores := by
  induction batch generalizing files data with
  | nil => exact hk files data hnone
  | cons t batch ih =>
    refine ⟨⟨nofun, nofun⟩, fun a ↦ ?_⟩
    cases a with
    | error fault => trivial
    | ok content =>
      refine ih _ _ fun file hfile ↦ ?_
      obtain hfile | hfile := List.mem_append.mp hfile
      · exact hnone file hfile
      · rw [List.mem_singleton.mp hfile]

theorem calls_putRequests (storageType : Str) (files : List AggFile) :
    (putRequests storageType files).Calls Stores := by
  induction files with
  | nil => trivial
  | cons file files ih =>
    refine Calls.bind (fun _ ↦ trivial) fun canceled ↦ ?_
    cases canceled with
    | true => exact ih
    | false => exact ih.bind fun _ ↦ trivial

theorem calls_lockFiles (files : List AggFile) : (lockFiles files).Calls Stores := by
  induction files with
  | nil => trivial
  | cons file files ih => exact (calls_ask (.request (.updateLock _)) ⟨nofun, nofun⟩).bind fun _ ↦ ih

/-- The only requests to remove a file are for cancelled tasks. -/
theorem calls_memberRequests (res : Str) (hnone : ∀ file ∈ files, file.task = none) :
    (memberRequests res files).Calls Stores := by
  induction files with
  | nil => trivial
  | cons file files ih =>
    have hfile := hnone file List.mem_cons_self
    rw [memberRequests, hfile]
    intro s
    exact (ih fun f hf ↦ hnone f (List.mem_cons_of_mem _ hf)).bind fun _ ↦ trivial

theorem calls_changeAll (status : UploadStatus) (files : List AggFile) :
    (changeAll status files).Calls Stores := by
  induction files with
  | nil => trivial
  | cons file files ih =>
    refine Calls.bind ?_ fun _ ↦ ih
    cases file.task with
    | none => trivial
    | some task => exact calls_changeStatus task _ status

theorem calls_smallFileAggregateUpload (batch : List UploadTask) (aggType : Str) :
    (smallFileAggregateUpload batch aggType).Calls Stores := by
  refine calls_aggregateFiles (fun files data hnone ↦ ?_) batch [] [] nofun
  refine Calls.bind trivial fun storage ↦ ?_
  refine (calls_putRequests aggType files).bind fun reqs ↦ ?_
  refine (calls_ask (.request (.putBatch _)) ⟨nofun, nofun⟩).bind fun _ ↦ ?_
  refine (calls_lockFiles files).bind fun _ ↦ ?_
  refine (calls_ask (.encodeOneBlock _ _) ⟨nofun, nofun⟩).bind fun res ↦ ?_
  refine (calls_memberRequests res hnone).bind fun requests ↦ ?_
  refine (calls_changeAll .metaUploading files).bind fun _ ↦ ?_
  refine (calls_attempt (.request (.putOkBatch _)) ⟨nofun, nofun⟩).bind fun response ↦ ?_
  exact (calls_changeAll .finished files).bind fun _ ↦ trivial

end Daemon

end Spkdfs
