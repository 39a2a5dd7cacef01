import Spkdfs.Client.RoundTrip
import Spkdfs.Client.Traced

namespace Spkdfs

open Library RocksDB

/-- What a committed file is made of. -/
def Inode.file (inode : Inode) : List Str × Nat × Option StorageType × Nat :=
  (inode.sub, inode.filesize, inode.storageType, inode.ddlLock)

namespace Leader

/-- The inode of the path after the first `n` entries of the log. -/
def inodeAt (l : Leader) (n : Nat) (path : Str) : Option Inode :=
  (l.replica n).bind fun db ↦ lookup db (simplifyPath path)

variable {l l' : Leader} {n : Nat} {record : Record} {req : Request} {during : List Action}
  {p : Proposal} {r : Except Fault Entry}

theorem replica_succ (h : l.applied[n]? = some record) : l.replica (n + 1) =
    (l.replica n).bind fun db ↦ (RaftNN.onApply db record.proposal.entry).map (·.1) := by
  rw [replica, replica, List.take_add_one, h, Option.toList_some, List.map_append, applyAll_append]
  congr 1
  funext db
  simp only [List.map_singleton, applyAll, Option.map_bind]
  cases RaftNN.onApply db record.proposal.entry <;> rfl

theorem log_of_rpc (h : l.rpc req during = some (r, l')) :
    l.log ++ l.proposals 0 req <+: l'.log := by
  rw [← log_prepare]
  simp only [rpc, step, Option.bind_some] at h
  split at h
  · obtain ⟨-, rfl⟩ := Prod.mk.inj (Option.some.inj h)
    exact List.prefix_refl _
  · simp only [Option.bind_eq_some_iff, Option.map_eq_some_iff, Prod.mk.injEq] at h
    obtain ⟨t, hrun, record, -, -, rfl⟩ := h
    exact log_of_reaches (reaches_of_run .refl hrun)

end Leader

/-- An accepted request of the call leaves the file of the path as its entry finds it. -/
def Mark.Leaves (path : Str) : Mark → Prop
  | .request req before after =>
    (Namenode.prepare before.store (before.env 0) req).2 = none →
      before.log.length < after.applied.length →
        (after.inodeAt (before.log.length + 1) path).map Inode.file =
          (after.inodeAt before.log.length path).map Inode.file
  | _ => True

/-- The entry of the request finds what it writes: an `update_lock` the file that it has read,
with a lease from this very second, and a `put_ok` this content without a lease. -/
def Mark.Kept (path : Str) : Mark → Prop
  | .request (.updateLock _) before after =>
    ∀ j, RocksDB.ls before.store (.ofPath path) = .ok j →
      before.log.length < after.applied.length →
        ∃ c, after.inodeAt before.log.length path = some c ∧ c.sub = j.sub ∧
          c.filesize = j.filesize ∧ c.storageType = j.storageType ∧
            c.ddlLock = before.now + lockRefreshInterval
  | .request (.putOk req) before after =>
    ∀ i db db', Namenode.putOkInode before.store req = .ok i →
      before.log.length < after.applied.length → after.replica before.log.length = some db →
        internalPutOk db i = .ok db' →
          ∃ c, lookup db (simplifyPath path) = some c ∧ c.sub = req.sub ∧
            c.filesize = req.filesize ∧ c.ddlLock = 0
  | _ => True

theorem file_eq_iff (found : Option Inode) (i : Inode) :
    found.map Inode.file = some i.file ↔
      ∃ c, found = some c ∧ c.sub = i.sub ∧ c.filesize = i.filesize ∧
        c.storageType = i.storageType ∧ c.ddlLock = i.ddlLock := by
  simp only [Option.map_eq_some_iff, Inode.file, Prod.mk.injEq]

section

variable {before after : Leader} {path : Str} {during : List Action} {r : Except Fault Entry}
  {myIp : Str} {now : Nat}

/-- The stores around the entry of a request that proposes a single one. -/
theorem exists_applied {req : Request} {p : Proposal}
    (hafter : Reaches Leader.step (fun _ _ ↦ True) (.start myIp now) after)
    (h : before.rpc req during = some (r, after)) (hp : before.proposals 0 req = [p])
    (hlt : before.log.length < after.applied.length) :
    ∃ db db' answer, after.replica before.log.length = some db ∧
      after.replica (before.log.length + 1) = some db' ∧
        RaftNN.onApply db p.entry = some (db', answer) := by
  have hrecord := List.getElem?_eq_getElem hlt
  obtain ⟨db, hdb⟩ := Option.isSome_iff_exists.mp (Leader.replica_isSome hafter before.log.length)
  obtain ⟨db', hdb'⟩ :=
    Option.isSome_iff_exists.mp (Leader.replica_isSome hafter (before.log.length + 1))
  have hnext := Leader.replica_succ hrecord
  rw [Leader.proposal_at (Leader.log_of_rpc h) hp hrecord, hdb, hdb', Option.bind_some] at hnext
  obtain ⟨⟨db'', answer⟩, happly, rfl⟩ := Option.map_eq_some_iff.mp hnext.symm
  exact ⟨db, db'', answer, hdb, hdb', happly⟩

/-- A commit leaves the file as it is if and only if it finds this content without a lease. -/
theorem file_internalPutOk_iff {db db' : RocksDB} {i : Inode} (h : internalPutOk db i = .ok db') :
    (lookup db' i.fullpath.str).map Inode.file = (lookup db i.fullpath.str).map Inode.file ↔
      ∃ c, lookup db i.fullpath.str = some c ∧ c.sub = i.sub ∧ c.filesize = i.filesize ∧
        c.ddlLock = 0 := by
  obtain ⟨c, hcommit, hlinked⟩ := internalPutOk_eq_ok.mp h
  have hself := hlinked.lookup_self
  rw [fullpath_of_commit hcommit] at hself
  obtain ⟨f, hf, rfl⟩ := commit_eq_ok.mp hcommit
  have hsimple := i.fullpath.simplified
  rcases getInode_eq_ok.mp hf with hstored | ⟨hnone, hroot, -⟩
  · rw [hsimple] at hstored
    rw [hself, hstored]
    simp only [Option.map_some, Option.some.injEq, Inode.file, Prod.mk.injEq, exists_eq_left',
      true_and]
    exact and_congr eq_comm (and_congr eq_comm eq_comm)
  · have hmissing : lookup db i.fullpath.str = none := by
      rw [hsimple] at hnone hroot
      rw [lookup, hnone]
      exact if_neg hroot
    rw [hself, hmissing]
    simp

theorem leaves_updateLock_iff
    (hafter : Reaches Leader.step (fun _ _ ↦ True) (.start myIp now) after)
    (h : before.rpc (.updateLock [path]) during = some (r, after)) :
    (Mark.request (.updateLock [path]) before after).Leaves path ↔
      (Mark.request (.updateLock [path]) before after).Kept path := by
  rw [Mark.Leaves, Mark.Kept]
  cases hls : RocksDB.ls before.store (.ofPath path) with
  | error fault =>
    refine iff_of_true (fun hhandled ↦ ?_) fun j hj ↦ by cases hj
    simp [Namenode.prepare, Namenode.updateLock, Namenode.updateLockEntries, hls] at hhandled
  | ok j =>
    have hhandled : (Namenode.prepare before.store (before.env 0) (.updateLock [path])).2 = none := by
      simp [Namenode.prepare, Namenode.updateLock, Namenode.updateLockEntries, hls]
    have hproposals : before.proposals 0 (.updateLock [path]) =
        [⟨.opPut (j.updateDdlLock before.now), .updateLock [path], before.now⟩] := by
      simp [Leader.proposals, Namenode.prepare, Namenode.updateLock, Namenode.updateLockEntries, hls,
        Leader.env]
    have hread : j.fullpath.str = simplifyPath path := fullpath_of_lookup (ls_eq_ok.mp hls).1
    have hpath : (j.updateDdlLock before.now).fullpath.str = simplifyPath path := hread
    have hwrites : before.log.length < after.applied.length →
        after.inodeAt (before.log.length + 1) path = some (j.updateDdlLock before.now) := by
      intro hlt
      obtain ⟨db, db', answer, -, hdb', happly⟩ := exists_applied hafter h hproposals hlt
      obtain ⟨rfl, -⟩ := Prod.mk.inj (Option.some.inj happly)
      rw [Leader.inodeAt, hdb', Option.bind_some]
      exact lookup_put_eq hpath
    have hfile := file_eq_iff (after.inodeAt before.log.length path) (j.updateDdlLock before.now)
    constructor
    · intro hleaves j' hj' hlt
      obtain rfl := Except.ok.inj hj'
      refine hfile.mp ?_
      rw [← hleaves hhandled hlt, hwrites hlt, Option.map_some]
    · intro hkept _ hlt
      rw [hfile.mpr (hkept j rfl hlt), hwrites hlt, Option.map_some]

theorem leaves_putOk_iff {filesize : Nat} {sub : List Str}
    (hafter : Reaches Leader.step (fun _ _ ↦ True) (.start myIp now) after)
    (h : before.rpc (.putOk ⟨path, filesize, sub⟩) during = some (r, after)) :
    (Mark.request (.putOk ⟨path, filesize, sub⟩) before after).Leaves path ↔
      (Mark.request (.putOk ⟨path, filesize, sub⟩) before after).Kept path := by
  rw [Mark.Leaves, Mark.Kept]
  cases hput : Namenode.putOkInode before.store ⟨path, filesize, sub⟩ with
  | error fault =>
    refine iff_of_true (fun hhandled ↦ ?_) fun i db db' hi ↦ by cases hi
    simp [Namenode.prepare, Namenode.putOk, Namenode.proposed, hput] at hhandled
  | ok i =>
    have hok := Namenode.putOk_eq_ok.mpr ⟨i, hput, rfl⟩
    have hhandled :
        (Namenode.prepare before.store (before.env 0) (.putOk ⟨path, filesize, sub⟩)).2 = none := by
      simp [Namenode.prepare, Namenode.proposed, hok]
    have hproposals : before.proposals 0 (.putOk ⟨path, filesize, sub⟩) =
        [⟨.opPutOk i, .putOk ⟨path, filesize, sub⟩, before.now⟩] := by
      simp [Leader.proposals, Namenode.prepare, Namenode.proposed, hok]
    obtain ⟨-, j, hj, hi⟩ := Namenode.putOkInode_eq_ok.mp hput
    have hread : j.fullpath.str = simplifyPath path :=
      fullpath_of_lookup (preparePutOk_eq_ok.mp hj).1
    have hpath : i.fullpath.str = simplifyPath path := by
      rw [hi]
      exact hread
    have hsub : i.sub = sub ∧ i.filesize = filesize := by
      rw [hi]
      exact ⟨rfl, rfl⟩
    have hcommitted {db db' : RocksDB} (heq : internalPutOk db i = .ok db') :
        (lookup db' (simplifyPath path)).map Inode.file =
            (lookup db (simplifyPath path)).map Inode.file ↔
          ∃ c, lookup db (simplifyPath path) = some c ∧ c.sub = sub ∧ c.filesize = filesize ∧
            c.ddlLock = 0 := by
      rw [← hpath, file_internalPutOk_iff heq, hsub.1, hsub.2]
    constructor
    · intro hleaves i' db db' hi' hlt hdb heq
      obtain rfl := Except.ok.inj hi'
      obtain ⟨db₁, db₂, answer, hdb₁, hdb₂, happly⟩ := exists_applied hafter h hproposals hlt
      obtain rfl := Option.some.inj (hdb.symm.trans hdb₁)
      have hsuccess : RaftNN.onApply db (.opPutOk i) = some (db', .success) :=
        onApply_eq_success.mpr heq
      obtain ⟨rfl, -⟩ := Prod.mk.inj (Option.some.inj (hsuccess.symm.trans happly))
      refine (hcommitted heq).mp ?_
      have hsame := hleaves hhandled hlt
      rwa [Leader.inodeAt, Leader.inodeAt, hdb₂, hdb, Option.bind_some, Option.bind_some] at hsame
    · intro hkept _ hlt
      obtain ⟨db, db', answer, hdb, hdb', happly⟩ := exists_applied hafter h hproposals hlt
      rw [Leader.inodeAt, Leader.inodeAt, hdb', hdb, Option.bind_some, Option.bind_some]
      cases answer with
      | success =>
        have heq := onApply_eq_success.mp happly
        exact (hcommitted heq).mpr (hkept i db db' rfl hlt hdb heq)
      | failure fault =>
        obtain ⟨-, -, rfl⟩ := onApply_eq_failure.mp happly
        rfl

end

/-- What happens elsewhere around a request: before the namenode takes it up, what `check_leader`
throws there, and until the answer. -/
structure Turn where
  before : List Action
  check : Option Fault
  during : List Action
deriving DecidableEq

/-- What happens elsewhere around the requests of a `put`. -/
structure PutTurns where
  put : Turn
  lock : Turn
  putOk : Turn
deriving DecidableEq

def PutWaits.turns (waits : PutWaits) : PutTurns :=
  ⟨⟨[], none, waits.put⟩, ⟨[], none, waits.lock⟩, ⟨[], none, waits.putOk⟩⟩

namespace SDK.Trace

/-- A request to the namenode that the client takes for the master. -/
def ask (turn : Turn) (req : Request) : TracedMethod Entry := do
  elsewhere turn.before
  match turn.check with
  | some fault => .note (throw (failResponse fault)) fun v _ w ↦ [.request req v.leader w.leader]
  | none => rpc req turn.during none

def caught {α : Type} (x : TracedMethod α) : TracedMethod (List Fault) :=
  .of fun v ↦ (x.run v).map fun (r, w, trace) ↦
    match r with
    | .ok _ => (.ok [], w, trace)
    | .error fault => (.ok [fault], w, trace)

def namenodePutok (path : Str) (size : Nat) (sub : List Str) (turn : Turn) :
    TracedMethod (List Fault) := do
  .lift (modifySDK fun s ↦ { s with remoteLocks := s.remoteLocks.filter (· ≠ path) })
  caught (ask turn (.putOk ⟨path, size, sub⟩))

/-- The rest of `put`, with what `namenode_put` has caught. -/
def putData (content path : Str) (storage : StorageType) (d : Shards) (outcomes : List Bool)
    (turns : PutTurns) (refused : List Fault) : TracedMethod (List Fault) := do
  if storage.getBlockSize = 0 then .lift .stuck
  else do
    let encoded ← .lift (SDK.lift (d.encodeContent storage content))
    let _ ← ask turns.lock (.updateLock [path])
    match d.datanodePut storage encoded outcomes {} with
    | none => .lift .stuck
    | some sub => do
      let sub ← .lift (SDK.lift sub)
      let uncommitted ← namenodePutok path content.length sub turns.putOk
      return refused ++ uncommitted

def put (content path storageType : Str) (d : Shards) (outcomes : List Bool)
    (turns : PutTurns) : TracedMethod (List Fault) := do
  let storage ← .lift (SDK.lift (StorageType.fromString storageType))
  if content = [] then .lift (throw (.runtime "Failed to create anonymous mmap".toList))
  else do
    let refused ← caught (ask turns.put (.put ⟨path, storage.toString⟩))
    putData content path storage d outcomes turns refused

section

variable {path : Str} {req : Request} {during : List Action} {turn : Turn} {α : Type}
  {x : TracedMethod α} {v w : View} {trace : List Mark}

theorem erase_caught : (caught x).erase = SDK.caught x.erase := by
  funext v
  change ((x.run v).map _).map _ = ((x.run v).map _).map _
  rw [Option.map_map, Option.map_map]
  congr 1
  funext r
  obtain ⟨r, w, trace⟩ := r
  cases r <;> rfl

theorem erase_ask : (ask ⟨[], none, during⟩ req).erase = SDK.rpc req during := by
  rw [ask, Traced.erase_bind, erase_rpc, elsewhere, Traced.erase_lift]
  rfl

/-- With the master answering every request, the traced `put` is `put`. -/
theorem erase_put {content storageType : Str} {d : Shards} {outcomes : List Bool}
    (waits : PutWaits) : (put content path storageType d outcomes waits.turns).erase =
      SDK.put content path storageType d outcomes waits := by
  rw [put, SDK.put, Traced.erase_bind, Traced.erase_lift]
  congr 1
  funext storage
  split
  · exact Traced.erase_lift _
  rw [Traced.erase_bind, erase_caught, PutWaits.turns, erase_ask]
  congr 1
  funext refused
  rw [putData]
  split
  · exact Traced.erase_lift _
  rw [Traced.erase_bind, Traced.erase_lift]
  congr 1
  funext encoded
  rw [Traced.erase_bind, erase_ask]
  congr 1
  funext _
  cases d.datanodePut storage encoded outcomes {} with
  | none => exact Traced.erase_lift _
  | some sub =>
    simp only [Traced.erase_bind, Traced.erase_lift, namenodePutok, SDK.namenodePutok, erase_caught,
      erase_ask, Traced.erase_pure]

theorem run_caught {r : Except Fault (List Fault)} :
    (caught x).run v = some (r, w, trace) ↔
      (∃ a, x.run v = some (.ok a, w, trace) ∧ r = .ok []) ∨
        ∃ fault, x.run v = some (.error fault, w, trace) ∧ r = .ok [fault] := by
  simp only [caught, Traced.run_of, Option.map_eq_some_iff, Prod.exists]
  constructor
  · rintro ⟨r', w', trace', hx, h⟩
    cases r' with
    | ok a =>
      obtain ⟨rfl, rfl, rfl⟩ : .ok [] = r ∧ w' = w ∧ trace' = trace := by simpa using h
      exact .inl ⟨a, hx, rfl⟩
    | error fault =>
      obtain ⟨rfl, rfl, rfl⟩ : .ok [fault] = r ∧ w' = w ∧ trace' = trace := by simpa using h
      exact .inr ⟨fault, hx, rfl⟩
  · rintro (⟨a, hx, rfl⟩ | ⟨fault, hx, rfl⟩)
    · exact ⟨.ok a, w, trace, hx, rfl⟩
    · exact ⟨.error fault, w, trace, hx, rfl⟩

end

/-- The leader is one that a run from the start leads to. -/
def Started (myIp : Str) (now : Nat) (v : View) : Prop :=
  Reaches Leader.step (fun _ _ ↦ True) (.start myIp now) v.leader

section

variable {path : Str} {myIp : Str} {now : Nat} {req : Request} {during : List Action}
  {actions : List Action} {turn : Turn} {Q : Mark → Prop} {α : Type} {x : TracedMethod α}

theorem keeps_elsewhere : Traced.Keeps (Started myIp now) Q (elsewhere actions) := by
  refine Traced.keeps_lift fun v r w hv h ↦ ?_
  simp only [Procedure.run_of, Option.map_eq_some_iff, Prod.mk.injEq] at h
  obtain ⟨l, hrun, -, rfl⟩ := h
  exact hv.trans ((reaches_of_run .refl hrun).mono fun _ _ _ ↦ trivial)

theorem keeps_started_rpc
    (hreq : ∀ before after r, Reaches Leader.step (fun _ _ ↦ True) (.start myIp now) after →
      before.rpc req during = some (r, after) → Q (.request req before after)) :
    Traced.Keeps (Started myIp now) Q (rpc req during none) := by
  intro v r w trace hv h
  obtain ⟨hrun, rfl⟩ := Traced.run_note.mp h
  simp only [request, SDK.rpc, Procedure.run_of, Option.map_eq_some_iff, Prod.exists,
    Prod.mk.injEq] at hrun
  obtain ⟨r', l, hrpc, -, rfl⟩ := hrun
  have hreach := hv.trans (Leader.reaches_of_rpc hrpc)
  refine ⟨hreach, fun m hm ↦ ?_⟩
  rw [List.mem_singleton.mp hm]
  exact hreq _ _ _ hreach hrpc

theorem keeps_ask
    (hreq : ∀ before after r, Reaches Leader.step (fun _ _ ↦ True) (.start myIp now) after →
      before.rpc req turn.during = some (r, after) → Q (.request req before after))
    (hrefused : ∀ before, Q (.request req before before)) :
    Traced.Keeps (Started myIp now) Q (ask turn req) := by
  refine keeps_elsewhere.bind fun _ ↦ ?_
  split
  · intro v r w trace hv h
    obtain ⟨hrun, rfl⟩ := Traced.run_note.mp h
    obtain ⟨-, rfl⟩ := Prod.mk.inj (Option.some.inj hrun)
    refine ⟨hv, fun m hm ↦ ?_⟩
    rw [List.mem_singleton.mp hm]
    exact hrefused _
  · exact keeps_started_rpc hreq

theorem keeps_caught {P : View → Prop} (hx : Traced.Keeps P Q x) :
    Traced.Keeps P Q (caught x) := by
  intro v r w trace hv h
  obtain ⟨a, ha, -⟩ | ⟨fault, hfault, -⟩ := run_caught.mp h
  · exact hx v _ w trace hv ha
  · exact hx v _ w trace hv hfault

theorem keeps_liftSDK {P : View → Prop} (r : Except Fault α) :
    Traced.Keeps P Q (.lift (SDK.lift r)) := by
  refine Traced.keeps_lift fun v r' w hv h ↦ ?_
  obtain ⟨-, rfl⟩ := Prod.mk.inj (Option.some.inj h)
  exact hv

end

end SDK.Trace

/-- The entry of the request leaves the file of the path exactly if it finds what it writes. -/
def Mark.Agrees (path : Str) (m : Mark) : Prop := m.Leaves path ↔ m.Kept path

/-- A request that the namenode does not take up proposes nothing. -/
theorem agrees_unhandled (path : Str) (req : Request) (before : Leader) :
    (Mark.request req before before).Agrees path := by
  have hle : ¬before.log.length < before.applied.length := by
    rw [Leader.log, List.length_append, List.length_map]
    omega
  refine iff_of_true (fun _ hlt ↦ absurd hlt hle) ?_
  cases req with
  | updateLock paths => exact fun _ _ hlt ↦ absurd hlt hle
  | putOk req => exact fun _ _ _ _ hlt ↦ absurd hlt hle
  | _ => trivial

namespace SDK.Trace

variable {content path storageType : Str} {storage : StorageType} {d : Shards}
  {outcomes : List Bool} {turns : PutTurns} {myIp : Str} {now : Nat}

theorem keeps_putData (refused : List Fault) :
    Traced.Keeps (Started myIp now) (·.Agrees path)
      (putData content path storage d outcomes turns refused) := by
  rw [putData]
  split
  · exact Traced.keeps_lift Procedure.keeps_stuck
  refine (keeps_liftSDK _).bind fun encoded ↦ Traced.Keeps.bind ?_ fun _ ↦ ?_
  · exact keeps_ask (fun _ _ _ hafter h ↦ leaves_updateLock_iff hafter h) (agrees_unhandled path _)
  split
  · exact Traced.keeps_lift Procedure.keeps_stuck
  refine (keeps_liftSDK _).bind fun sub ↦ Traced.Keeps.bind ?_ fun _ ↦ Traced.keeps_pure _
  rw [namenodePutok]
  refine Traced.Keeps.bind ?_ fun _ ↦ keeps_caught ?_
  · exact Traced.keeps_lift (Procedure.keeps_modify fun _ hv ↦ hv)
  exact keeps_ask (fun _ _ _ hafter h ↦ leaves_putOk_iff hafter h) (agrees_unhandled path _)

end SDK.Trace

/-- A `put` whose request `put` the namenode answers with an error, and what the client sends
after it. -/
structure RefusedPut (content path storageType : Str) (d : Shards) (outcomes : List Bool)
    (turns : PutTurns) (v : View) (later : List Mark) : Prop where
  started : ∃ myIp now, SDK.Trace.Started myIp now v
  refused : ∃ storage fault u first, StorageType.fromString storageType = .ok storage ∧
    content ≠ [] ∧
    (SDK.Trace.ask turns.put (.put ⟨path, storage.toString⟩)).run v = some (.error fault, u, first) ∧
      ∃ r w, (SDK.Trace.put content path storageType d outcomes turns).run v =
        some (r, w, first ++ later)

section

variable {content path storageType : Str} {storage : StorageType} {d : Shards}
  {outcomes : List Bool} {turns : PutTurns} {v u w : View} {first later trace : List Mark}
  {fault : Fault} {r : Except Fault (List Fault)}

/-- `put` prints the refusal and goes on. -/
theorem SDK.Trace.put_run_refused (hstorage : StorageType.fromString storageType = .ok storage)
    (hcontent : content ≠ [])
    (hask : (ask turns.put (.put ⟨path, storage.toString⟩)).run v = some (.error fault, u, first))
    (h : (put content path storageType d outcomes turns).run v = some (r, w, trace)) :
    ∃ later, trace = first ++ later ∧
      (putData content path storage d outcomes turns [fault]).run u = some (r, w, later) := by
  have hcaught : (caught (ask turns.put (.put ⟨path, storage.toString⟩))).run v =
      some (.ok [fault], u, first) := run_caught.mpr (.inr ⟨fault, hask, rfl⟩)
  obtain ⟨e, hlift, -⟩ | ⟨storage', v', before, after, hlift, hput, rfl⟩ := Traced.bind_run h
  · obtain ⟨hthrow, -⟩ := Traced.run_lift.mp hlift
    rw [hstorage] at hthrow
    cases hthrow
  obtain ⟨hreturn, rfl⟩ := Traced.run_lift.mp hlift
  obtain ⟨hok, rfl⟩ := SDK.lift_ok hreturn
  obtain rfl := Except.ok.inj (hstorage.symm.trans hok)
  rw [if_neg hcontent] at hput
  obtain ⟨e, hthrow, -⟩ | ⟨refused, u', before, after, hfirst, hrest, rfl⟩ := Traced.bind_run hput
  · rw [hcaught] at hthrow
    cases hthrow
  rw [hcaught] at hfirst
  simp only [Option.some.injEq, Prod.mk.injEq, Except.ok.injEq] at hfirst
  obtain ⟨rfl, rfl, rfl⟩ := hfirst
  exact ⟨after, rfl, hrest⟩

theorem RefusedPut.agrees (h : RefusedPut content path storageType d outcomes turns v later) :
    ∀ m ∈ later, m.Agrees path := by
  obtain ⟨myIp, now, hv⟩ := h.started
  obtain ⟨storage, fault, u, first, hstorage, hcontent, hask, r, w, hput⟩ := h.refused
  have hu : SDK.Trace.Started myIp now u :=
    (SDK.Trace.keeps_ask (Q := fun _ ↦ True) (fun _ _ _ _ _ ↦ trivial) (fun _ ↦ trivial)
      v _ u first hv hask).1
  obtain ⟨later', hlater, hrest⟩ := SDK.Trace.put_run_refused hstorage hcontent hask hput
  rw [List.append_cancel_left hlater]
  exact (SDK.Trace.keeps_putData [fault] u r w later' hu hrest).2

end

instance (path : Str) : DecidablePred (Mark.Leaves path)
  | .request _ _ _ => inferInstanceAs (Decidable (_ → _ → _))
  | .acquired _ => .isTrue trivial
  | .released _ => .isTrue trivial

end Spkdfs
