import Spkdfs.Client.HeldLocks
import Spkdfs.Client.Sequential

namespace Spkdfs

open Library Procedure Function

/-- How often the local lock of the path is released. -/
def releases (path : Str) (trace : List Mark) : Nat :=
  trace.countP fun
    | .released p => p = path
    | _ => false

def PathLocks.mutexAt (locks : PathLocks) (key : Str) : SharedMutex :=
  ((locks key).map (·.mutex)).getD {}

/-- The lock of the path was released once, and is held by no one who did not hold it before. -/
structure Released (path : Str) (v w : View) (trace : List Mark) : Prop where
  once : releases path trace = 1
  mutex : w.sdk.pathlocks.mutexAt (v.sdk.tmpPath path) =
    v.sdk.pathlocks.mutexAt (v.sdk.tmpPath path)
  remoteLocks : path ∉ w.sdk.remoteLocks

/-- Nor is a lock of a block file or link held that was not held before. -/
structure Balanced (path : Str) (v w : View) (trace : List Mark) : Prop
    extends Released path v w trace where
  held : w.sdk.held = v.sdk.held

namespace Leader

/-- The leader after the lock that the flags ask for, if the local directories can be made. -/
def locked (l : Leader) (path : Str) (flags : Nat) (waits : Waits) : Option Leader :=
  if waits.mkdir ≠ none then none
  else if writeMode flags then
    match l.rpc (.updateLock [path]) waits.lock with
    | some (.ok _, l') => if waits.mkdirWrite = none then some l' else none
    | _ => none
  else some l

theorem locked_cases {l l' : Leader} {path : Str} {flags : Nat} {waits : Waits}
    (h : l.locked path flags waits = some l') :
    (∃ entry, l.rpc (.updateLock [path]) waits.lock = some (.ok entry, l')) ∨ l' = l := by
  rw [locked, Option.ite_none_left_eq_some] at h
  obtain ⟨-, h⟩ := h
  split at h
  · split at h
    · rename_i entry l'' hrpc
      rw [Option.ite_none_right_eq_some] at h
      obtain rfl := Option.some.inj h.2
      exact .inl ⟨entry, hrpc⟩
    · cases h
  · exact .inr (Option.some.inj h).symm

/-- What the slave answers, when it has the path and no stale block file is in the way. -/
def remoteInode (l : Leader) (path : Str) (waits : Waits) : Option Inode :=
  if waits.removeAll ≠ none then none
  else (l.replica waits.seen).bind fun db ↦ (Namenode.ls db path).toOption

/-- The inode that an `open` has from the slave, if it gets that far. -/
def openedInode (l : Leader) (path : Str) (flags : Nat) (waits : Waits) : Option Inode :=
  (l.locked path flags waits).bind fun l' ↦ l'.remoteInode path waits

theorem remoteInode_eq {l : Leader} {path : Str} {waits : Waits} {db : RocksDB} {j : Inode}
    (hremoved : waits.removeAll = none) (hdb : l.replica waits.seen = some db)
    (hls : Namenode.ls db path = .ok j) : l.remoteInode path waits = some j := by
  rw [remoteInode, if_neg (not_not.mpr hremoved), hdb, Option.bind_some, hls]
  rfl

/-- There is something for an `open` to truncate. -/
def Truncates (l : Leader) (path : Str) (flags : Nat) (waits : Waits) : Prop :=
  flags &&& oTrunc ≠ 0 ∧ ∃ j, l.openedInode path flags waits = some j ∧ j.filesize ≠ 0

end Leader

/-- The requests of `open` before the truncation are answered. -/
structure Lost.Answered (lost : Lost) (flags : Nat) : Prop where
  lock : writeMode flags = true → lost.lock = none
  ls : lost.ls = none

/-- The local lock that the flags ask for. -/
def PathLocks.lockFor (flags : Nat) : PathLocks → Str → Option PathLocks :=
  if writeMode flags then PathLocks.writeLock else PathLocks.readLock

section

variable {path : Str} {trace trace' : List Mark}

@[simp] theorem releases_nil : releases path [] = 0 := rfl

@[simp] theorem releases_append :
    releases path (trace ++ trace') = releases path trace + releases path trace' :=
  List.countP_append

@[simp] theorem releases_released : releases path [.released path] = 1 := by
  simp [releases]

theorem releases_eq_zero (h : ∀ m ∈ trace, m ≠ .released path) : releases path trace = 0 := by
  refine List.countP_eq_zero.mpr fun m hm ↦ ?_
  cases m with
  | request req before after => exact Bool.false_ne_true
  | acquired p => exact Bool.false_ne_true
  | released p => simpa using h _ hm

end

namespace PathLocks

variable {locks locks' : PathLocks} {key : Str} {flags : Nat}

theorem lockFor_eq (h : lockFor flags locks key = some locks') :
    ∃ entry mutex, locks' = update locks key (some ⟨entry, mutex⟩) ∧
      mutex ≠ locks.mutexAt key ∧ mutex.unlock = locks.mutexAt key := by
  have hmutex : ∀ fresh : Bool, ((locks key).getD ⟨fresh, {}⟩).mutex = locks.mutexAt key := by
    intro fresh
    rw [mutexAt]
    cases locks key <;> rfl
  rw [lockFor] at h
  split at h
  · simp only [writeLock, hmutex, SharedMutex.lock, Option.map_eq_some_iff,
      Option.ite_none_left_eq_some] at h
    obtain ⟨mutex, ⟨hfree, hlock⟩, rfl⟩ := h
    obtain rfl := Option.some.inj hlock
    rw [not_or, Bool.not_eq_true, not_not] at hfree
    refine ⟨_, _, rfl, fun heq ↦ ?_, ?_⟩
    · have hwriter := congrArg SharedMutex.writer heq
      rw [hfree.1] at hwriter
      cases hwriter
    · rw [SharedMutex.unlock, if_pos rfl, ← hfree.1]
  · simp only [readLock, hmutex, SharedMutex.lockShared, Option.map_eq_some_iff,
      Option.ite_none_left_eq_some] at h
    obtain ⟨mutex, ⟨hfree, hlock⟩, rfl⟩ := h
    obtain rfl := Option.some.inj hlock
    refine ⟨_, _, rfl, fun heq ↦ ?_, ?_⟩
    · have hreaders := congrArg SharedMutex.readers heq
      dsimp only at hreaders
      omega
    · rw [SharedMutex.unlock, if_neg hfree]
      rfl

theorem lockFor_ne (h : lockFor flags locks key = some locks') : locks' key ≠ locks key := by
  obtain ⟨entry, mutex, rfl, hne, -⟩ := lockFor_eq h
  intro heq
  rw [update_self] at heq
  rw [mutexAt, ← heq] at hne
  exact hne rfl

/-- An unlock makes good for the lock before it. -/
theorem mutexAt_unlock (h : lockFor flags locks key = some locks') :
    (locks'.unlock key).mutexAt key = locks.mutexAt key := by
  obtain ⟨entry, mutex, rfl, -, hunlock⟩ := lockFor_eq h
  simp only [unlock, update_self, SharedMutex.unlockShared, ite_self, mutexAt, Option.map_some,
    Option.getD_some]
  exact hunlock

end PathLocks

namespace SDK

/-- The locks of a client. -/
structure LocksAre (T : Str → Str) (locks : PathLocks) (remote : List Str) (v : View) : Prop where
  tmpPath : v.sdk.tmpPath = T
  pathlocks : v.sdk.pathlocks = locks
  remoteLocks : v.sdk.remoteLocks = remote

section

variable {T : Str → Str} {locks : PathLocks} {remote : List Str} {path : Str} {nodes : Datanodes}
  {during : List Action} {lost : Option Fault}

theorem insulated_locksAre : Insulated (LocksAre T locks remote) where
  leader _ _ h := ⟨h.tmpPath, h.pathlocks, h.remoteLocks⟩
  progress _ _ h := ⟨h.tmpPath, h.pathlocks, h.remoteLocks⟩
  dirs _ _ h := ⟨h.tmpPath, h.pathlocks, h.remoteLocks⟩
  held _ _ h := ⟨h.tmpPath, h.pathlocks, h.remoteLocks⟩

theorem keeps_locksAre_setCache (i : Option Inode) :
    Keeps (LocksAre T locks remote) (setCache path i) :=
  keeps_modify fun _ h ↦ ⟨h.tmpPath, h.pathlocks, h.remoteLocks⟩

theorem keeps_readBlocks {P : View → Prop} (hP : Insulated P) {inode : Inode} {last : Int}
    {indices : List Int} : Keeps P (readBlocks inode nodes last indices) := by
  induction indices with
  | nil => exact keeps_pure _
  | cons index rest ih =>
    rw [readBlocks]
    split
    · exact keeps_pure _
    · refine (keeps_fetchBlock hP).bind fun _ ↦ keeps_get.bind fun _ ↦ ?_
      exact ih.bind fun _ ↦ keeps_pure _

theorem keeps_readData {P : View → Prop} (hP : Insulated P) {offset size : Nat} :
    Keeps P (readData path offset size nodes) := by
  refine keeps_getInode.bind fun inode ↦ ?_
  split
  · exact keeps_pure _
  split
  · exact keeps_stuck
  dsimp only
  generalize (if inode.filesize < (offset + size) % 2 ^ 64 then inode.filesize - offset
    else size) = part
  refine Keeps.bind (keeps_readBlocks hP) fun s ↦ ?_
  split
  · exact keeps_stuck
  · exact keeps_pure _

namespace Trace

/-- The mark is not of a lock that is released. -/
def Quiet (m : Mark) : Prop := ∀ path, m ≠ .released path

theorem keeps_rpc {P : View → Prop} (hP : Remote P) {req : Request} :
    Traced.Keeps P Quiet (rpc req during lost) := by
  refine Traced.keeps_note (keeps_request hP) fun v r w m hm path ↦ ?_
  rw [List.mem_singleton.mp hm]
  exact fun hno ↦ nomatch hno

theorem keeps_fsync {P : View → Prop} (hP : Insulated P) :
    Traced.Keeps P Quiet (fsync path nodes during lost) := by
  refine (Traced.keeps_lift keeps_get).bind fun v ↦ ?_
  dsimp only
  split
  · exact Traced.keeps_lift (keeps_throw _)
  split
  · exact Traced.keeps_pure _
  refine (Traced.keeps_lift keeps_getInode).bind fun inode ↦
    (Traced.keeps_lift (keeps_encodeBlocks hP)).bind fun sub ↦
      (keeps_rpc hP.toRemote).bind fun entry ↦ ?_
  split
  · exact Traced.keeps_pure _
  · exact Traced.keeps_pure _

/-- Between `open` and `close` no lock changes. -/
theorem keeps_accesses {P : View → Prop} (hP : Insulated P) (list : List Access) :
    Traced.Keeps P Quiet (accesses path list) := by
  induction list with
  | nil => exact Traced.keeps_pure _
  | cons a rest ih =>
    refine Traced.Keeps.bind ?_ fun _ ↦ ih
    cases a with
    | read offset size nodes => exact (Traced.keeps_lift (keeps_readData hP)).settled
    | write offset data nodes => exact (Traced.keeps_lift (keeps_writeData hP)).settled
    | fsync nodes during lost => exact (keeps_fsync hP).settled
    | elsewhere actions =>
      refine Traced.keeps_lift fun v r w hv h ↦ ?_
      simp only [run_of, Option.map_eq_some_iff, Prod.mk.injEq] at h
      obtain ⟨l, -, -, rfl⟩ := h
      exact hP.leader v l hv

theorem releases_of_quiet {trace : List Mark} (h : ∀ m ∈ trace, Quiet m) (path : Str) :
    releases path trace = 0 := releases_eq_zero fun m hm ↦ h m hm path

end Trace

end

section

variable {path : Str} {flags : Nat} {waits : Waits} {lost : Lost} {silent : Option Fault}
  {nodes : Datanodes} {during : List Action} {v w : View} {trace : List Mark}

theorem Trace.acquire_run {lock : PathLocks → Str → Option PathLocks} {r : Except Fault Unit}
    (h : (acquire lock path).run v = some (r, w, trace)) :
    r = .ok () ∧ trace = [.acquired path] ∧ w.leader = v.leader ∧ w.sdk.tmpPath = v.sdk.tmpPath ∧
      lock v.sdk.pathlocks (v.sdk.tmpPath path) = some w.sdk.pathlocks := by
  obtain ⟨hrun, rfl⟩ := Traced.run_note.mp h
  simp only [SDK.acquire, run_of, Option.map_eq_some_iff, Prod.mk.injEq] at hrun
  obtain ⟨locks, hlock, rfl, rfl⟩ := hrun
  exact ⟨rfl, rfl, rfl, rfl, hlock⟩

theorem Trace.lockRemote_run {r : Except Fault Unit}
    (h : (lockRemote path during silent).run v = some (r, w, trace)) :
    w.sdk.tmpPath = v.sdk.tmpPath ∧ w.sdk.pathlocks = v.sdk.pathlocks ∧ releases path trace = 0 ∧
      ((∃ f, r = .error f ∧ (silent = none →
          ∃ g, v.leader.rpc (.updateLock [path]) during = some (.error g, w.leader))) ∨
        ∃ entry, r = .ok () ∧ silent = none ∧
          v.leader.rpc (.updateLock [path]) during = some (.ok entry, w.leader)) := by
  obtain ⟨f, hrpc, rfl⟩ | ⟨entry, u, t₁, t₂, hrpc, hlast, rfl⟩ := Traced.bind_run h
  · obtain ⟨hsdk, rfl, ⟨-, -, hg⟩ | ⟨entry, hf, -⟩⟩ := rpc_run hrpc
    · exact ⟨by rw [hsdk], by rw [hsdk], rfl, .inl ⟨f, rfl, hg⟩⟩
    · cases hf
  · obtain ⟨hsdk, rfl, ⟨f, hf, -⟩ | ⟨entry, -, hanswered, he⟩⟩ := rpc_run hrpc
    · cases hf
    obtain ⟨hmodify, rfl⟩ := Traced.run_lift.mp hlast
    obtain ⟨rfl, rfl⟩ := Prod.mk.inj (Option.some.inj hmodify)
    refine ⟨?_, ?_, rfl, .inr ⟨entry, rfl, hanswered, he⟩⟩
    · show u.sdk.tmpPath = v.sdk.tmpPath
      rw [hsdk]
    · show u.sdk.pathlocks = v.sdk.pathlocks
      rw [hsdk]

theorem Trace.writeLock_run {r : Except Fault Unit}
    (h : (writeLock path during silent).run v = some (r, w, trace)) :
    w.sdk.tmpPath = v.sdk.tmpPath ∧
      v.sdk.pathlocks.writeLock (v.sdk.tmpPath path) = some w.sdk.pathlocks ∧
      releases path trace = 0 ∧
      ((∃ f, r = .error f ∧ (silent = none →
          ∃ g, v.leader.rpc (.updateLock [path]) during = some (.error g, w.leader))) ∨
        ∃ entry, r = .ok () ∧ silent = none ∧
          v.leader.rpc (.updateLock [path]) during = some (.ok entry, w.leader)) := by
  obtain ⟨f, hacquire, -⟩ | ⟨_, u, t₁, t₂, hacquire, hlock, rfl⟩ := Traced.bind_run h
  · cases (acquire_run hacquire).1
  obtain ⟨-, rfl, hleader, htmp, hlocks⟩ := acquire_run hacquire
  obtain ⟨htmp', hlocks', hcount, hanswer⟩ := lockRemote_run hlock
  rw [hleader] at hanswer
  refine ⟨htmp'.trans htmp, hlocks'.symm ▸ hlocks, ?_, hanswer⟩
  rw [releases_append, hcount]
  rfl

/-- The first part of `open` takes the local lock, and keeps it when the remote one is refused. -/
theorem Trace.openLock_run {r : Except Fault Unit} (hmade : waits.mkdir = none)
    (h : (openLock path flags waits lost).run v = some (r, w, trace)) :
    w.sdk.tmpPath = v.sdk.tmpPath ∧
      PathLocks.lockFor flags v.sdk.pathlocks (v.sdk.tmpPath path) = some w.sdk.pathlocks ∧
      releases path trace = 0 ∧
      ((∃ f, r = .error f ∧ ((writeMode flags = true → lost.lock = none) →
          v.leader.locked path flags waits = none)) ∨
        r = .ok () ∧ (writeMode flags = true → lost.lock = none) ∧
          v.leader.locked path flags waits = some w.leader) := by
  rw [openLock] at h
  rw [PathLocks.lockFor, Leader.locked, if_neg (not_not.mpr hmade)]
  split at h
  · rename_i hw
    rw [if_pos hw, if_pos hw]
    obtain ⟨f, hlock, rfl⟩ | ⟨_, u, t₁, t₂, hlock, hdirs, rfl⟩ := Traced.bind_run h
    · obtain ⟨htmp, hlocks, hcount, ⟨-, -, hrefused⟩ | ⟨entry, he, -⟩⟩ := writeLock_run hlock
      · refine ⟨htmp, hlocks, hcount, .inl ⟨f, rfl, fun hanswered ↦ ?_⟩⟩
        obtain ⟨g, hg⟩ := hrefused (hanswered hw)
        rw [hg]
      · cases he
    obtain ⟨htmp, hlocks, hcount, ⟨f, hf, -⟩ | ⟨entry, -, hanswered, he⟩⟩ := writeLock_run hlock
    · cases hf
    rw [Traced.run_lift_bind (run_get u)] at hdirs
    rw [releases_append, hcount, Nat.zero_add, he]
    obtain ⟨f, hdir, rfl⟩ | ⟨_, u', t₃, t₄, hdir, hclear, rfl⟩ := Traced.bind_run hdirs
    · obtain ⟨hrun, rfl⟩ := Traced.run_lift.mp hdir
      obtain ⟨rfl, ⟨-, hfail⟩ | ⟨hf, -⟩⟩ := mkdirF_run hrun
      · exact ⟨htmp, hlocks, rfl, .inl ⟨f, rfl, fun _ ↦ if_neg hfail⟩⟩
      · cases hf
    · obtain ⟨hrun, rfl⟩ := Traced.run_lift.mp hdir
      obtain ⟨rfl, ⟨⟨f, hf⟩, -⟩ | ⟨-, hwrites⟩⟩ := mkdirF_run hrun
      · cases hf
      obtain ⟨hrun, rfl⟩ := Traced.run_lift.mp hclear
      obtain ⟨rfl, rfl⟩ := Prod.mk.inj (Option.some.inj hrun)
      exact ⟨htmp, hlocks, rfl, .inr ⟨rfl, fun _ ↦ hanswered, if_pos hwrites⟩⟩
  · rename_i hw
    rw [if_neg hw, if_neg hw]
    obtain ⟨rfl, rfl, hleader, htmp, hlocks⟩ := acquire_run h
    exact ⟨htmp, hlocks, rfl, .inr ⟨rfl, fun hmode ↦ absurd hmode hw, by rw [hleader]⟩⟩

/-- The truncation gives the lock back that `open` has taken. -/
theorem Trace.truncateTo_run {r : Except Fault Unit} {size : Nat} {inode : Inode}
    (hc : v.sdk.cache path = some inode)
    (h : (_truncate path size during silent).run v = some (r, w, trace)) :
    w.sdk.tmpPath = v.sdk.tmpPath ∧
      ((inode.filesize = size ∧ r = .ok () ∧ w.sdk.pathlocks = v.sdk.pathlocks ∧
          releases path trace = 0) ∨
        inode.filesize ≠ size ∧
          ((∃ f, r = .error f ∧ w.sdk.pathlocks = v.sdk.pathlocks ∧ releases path trace = 0) ∨
            r = .ok () ∧ w.sdk.pathlocks = v.sdk.pathlocks.unlock (v.sdk.tmpPath path) ∧
              path ∉ w.sdk.remoteLocks ∧ releases path trace = 1)) := by
  obtain ⟨f, hget, -⟩ | ⟨j, u, t₁, t₂, hget, hrest, rfl⟩ := Traced.bind_run h
  · obtain ⟨hrun, -⟩ := Traced.run_lift.mp hget
    rw [getInode_ok.mpr ⟨hc, rfl⟩] at hrun
    cases hrun
  obtain ⟨hrun, rfl⟩ := Traced.run_lift.mp hget
  obtain ⟨hj, rfl⟩ := getInode_ok.mp hrun
  obtain rfl := Option.some.inj (hc.symm.trans hj)
  rw [List.nil_append]
  split at hrest
  · rename_i hs
    simp only [Traced.run_pure, Option.some.injEq, Prod.mk.injEq] at hrest
    obtain ⟨rfl, rfl, rfl⟩ := hrest
    exact ⟨rfl, .inl ⟨hs, rfl, rfl, rfl⟩⟩
  rename_i hs
  split at hrest
  · obtain ⟨hstuck, -⟩ := Traced.run_lift.mp hrest
    cases hstuck
  obtain ⟨f, hrpc, rfl⟩ | ⟨entry, x, t₁, t₃, hrpc, hunlock, rfl⟩ := Traced.bind_run hrest
  · obtain ⟨hsdk, rfl, -⟩ := rpc_run hrpc
    exact ⟨by rw [hsdk], .inr ⟨hs, .inl ⟨f, rfl, by rw [hsdk], rfl⟩⟩⟩
  · obtain ⟨hsdk, rfl, -⟩ := rpc_run hrpc
    obtain ⟨hrun, rfl⟩ := Traced.run_note.mp hunlock
    obtain ⟨rfl, rfl⟩ := Prod.mk.inj (Option.some.inj hrun)
    refine ⟨?_, .inr ⟨hs, .inr ⟨rfl, ?_, by simp, ?_⟩⟩⟩
    · show x.sdk.tmpPath = _
      rw [hsdk]
    · show x.sdk.pathlocks.unlock (x.sdk.tmpPath path) = _
      rw [hsdk]
    · rw [releases_append, releases_released]
      rfl

theorem Trace.updateInode_locks {seen : Nat} {error : Option (Nat × Str)} {r : Except Fault Unit}
    (h : (updateInode path seen error silent).run v = some (r, w, trace)) :
    LocksAre v.sdk.tmpPath v.sdk.pathlocks v.sdk.remoteLocks w ∧ releases path trace = 0 := by
  obtain ⟨hlocks, hquiet⟩ := keeps_updateInode (Q := Quiet) insulated_locksAre.toRemote
    keeps_locksAre_setCache v r w trace ⟨rfl, rfl, rfl⟩ h
  exact ⟨hlocks, releases_of_quiet hquiet path⟩

/-- The inode is in the cache if the slave has answered. -/
theorem Trace.updateInode_ok {seen : Nat} {error : Option (Nat × Str)}
    (h : (updateInode path seen error silent).run v = some (.ok (), w, trace)) :
    silent = none ∧ (SDK.updateInode path seen error).run v = some (.ok (), w) := by
  obtain ⟨hrun, -⟩ := Traced.run_lift.mp h
  cases silent with
  | none => exact ⟨rfl, hrun⟩
  | some fault => cases hrun

/-- Under its lock, `open` keeps it unless it truncates. -/
theorem Trace.openInode_run {r : Except Fault Unit} {remote : Option Inode}
    (hremote : v.leader.remoteInode path waits = remote)
    (h : (openInode path flags waits lost).run v = some (r, w, trace)) :
    w.sdk.tmpPath = v.sdk.tmpPath ∧
      ((w.sdk.pathlocks = v.sdk.pathlocks ∧ releases path trace = 0 ∧
          ((∃ f, r = .error f ∧ (lost.ls = none →
              ∀ j, remote = some j → flags &&& oTrunc ≠ 0 ∧ j.filesize ≠ 0)) ∨
            r = .ok () ∧ lost.ls = none ∧
              ∃ j, remote = some j ∧ ¬ (flags &&& oTrunc ≠ 0 ∧ j.filesize ≠ 0))) ∨
        w.sdk.pathlocks = v.sdk.pathlocks.unlock (v.sdk.tmpPath path) ∧ path ∉ w.sdk.remoteLocks ∧
          releases path trace = 1 ∧ r = .ok () ∧ lost.ls = none ∧
            ∃ j, remote = some j ∧ flags &&& oTrunc ≠ 0 ∧ j.filesize ≠ 0) := by
  obtain ⟨f, hupdate, rfl⟩ | ⟨_, u, t₁, t₂, hupdate, hrest, rfl⟩ := Traced.bind_run h
  · obtain ⟨hlocks, hcount⟩ := updateInode_locks hupdate
    refine ⟨hlocks.tmpPath, .inl ⟨hlocks.pathlocks, hcount, .inl ⟨f, rfl, fun hanswered j hj ↦ ?_⟩⟩⟩
    obtain ⟨hrun, -⟩ := Traced.run_lift.mp hupdate
    simp only [hanswered] at hrun
    obtain ⟨db, hdb, -, ⟨-, hfail⟩ | ⟨j, hf, -⟩⟩ := updateInode_run hrun
    · rw [← hremote, Leader.remoteInode, Option.ite_none_left_eq_some, not_not] at hj
      obtain ⟨hremoved, hj⟩ := hj
      obtain ⟨g, hg⟩ := hfail.resolve_right (not_not.mpr hremoved)
      rw [hdb, Option.bind_some, hg] at hj
      cases hj
    · cases hf
  obtain ⟨hlocks, hfirst⟩ := updateInode_locks hupdate
  obtain ⟨hanswered, hrun⟩ := updateInode_ok hupdate
  obtain ⟨db, hdb, -, ⟨⟨f, hf⟩, -⟩ | ⟨j, -, hremoved, hls, hcache⟩⟩ := updateInode_run hrun
  · cases hf
  have hj : remote = some j := hremote ▸ Leader.remoteInode_eq hremoved hdb hls
  rw [releases_append, hfirst, Nat.zero_add]
  split at hrest
  · rename_i ht
    have hc : u.sdk.cache path = some j := by rw [hcache, update_self]
    obtain ⟨htmp, ⟨hs, rfl, hkept, hcount⟩ | ⟨hs, ⟨f, rfl, hkept, hcount⟩ |
      ⟨rfl, hfreed, hremoved, hcount⟩⟩⟩ := truncateTo_run hc hrest
    · refine ⟨htmp.trans hlocks.tmpPath, .inl ⟨hkept.trans hlocks.pathlocks, hcount,
        .inr ⟨rfl, hanswered, j, hj, ?_⟩⟩⟩
      exact fun hall ↦ hall.2 hs
    · refine ⟨htmp.trans hlocks.tmpPath, .inl ⟨hkept.trans hlocks.pathlocks, hcount, .inl ⟨f, rfl, ?_⟩⟩⟩
      intro _ i hi
      obtain rfl := Option.some.inj (hj.symm.trans hi)
      exact ⟨ht, hs⟩
    · rw [hlocks.pathlocks, hlocks.tmpPath] at hfreed
      exact ⟨htmp.trans hlocks.tmpPath, .inr ⟨hfreed, hremoved, hcount, rfl, hanswered, j, hj, ht, hs⟩⟩
  · rename_i ht
    simp only [Traced.run_pure, Option.some.injEq, Prod.mk.injEq] at hrest
    obtain ⟨rfl, rfl, rfl⟩ := hrest
    exact ⟨hlocks.tmpPath, .inl ⟨hlocks.pathlocks, rfl,
      .inr ⟨rfl, hanswered, j, hj, fun hall ↦ ht hall.1⟩⟩⟩

/-- An `open` that is asked to create the file, or cannot make its directory, changes nothing. Any
other one takes the lock, and gives it back only if it truncates. -/
theorem Trace.open_run {r : Except Fault Unit}
    (h : (Trace.open path flags waits lost).run v = some (r, w, trace)) :
    ((flags &&& oCreat ≠ 0 ∨ waits.mkdir ≠ none) ∧ (∃ f, r = .error f) ∧ w = v ∧
        releases path trace = 0) ∨
      (flags &&& oCreat = 0 ∧ waits.mkdir = none) ∧ w.sdk.tmpPath = v.sdk.tmpPath ∧
        ∃ locks, PathLocks.lockFor flags v.sdk.pathlocks (v.sdk.tmpPath path) = some locks ∧
          ((w.sdk.pathlocks = locks ∧ releases path trace = 0 ∧
              ((∃ f, r = .error f ∧ (lost.Answered flags →
                  ∀ j, v.leader.openedInode path flags waits = some j →
                    flags &&& oTrunc ≠ 0 ∧ j.filesize ≠ 0)) ∨
                r = .ok () ∧ lost.Answered flags ∧
                  ∃ j, v.leader.openedInode path flags waits = some j ∧
                    ¬ (flags &&& oTrunc ≠ 0 ∧ j.filesize ≠ 0))) ∨
            w.sdk.pathlocks = locks.unlock (v.sdk.tmpPath path) ∧ path ∉ w.sdk.remoteLocks ∧
              releases path trace = 1 ∧ r = .ok () ∧ lost.Answered flags ∧
                ∃ j, v.leader.openedInode path flags waits = some j ∧
                  flags &&& oTrunc ≠ 0 ∧ j.filesize ≠ 0) := by
  rw [Trace.open] at h
  split at h
  · rename_i hc
    obtain ⟨f, hcreate, rfl⟩ | ⟨_, u, t₁, t₂, hcreate, -, -⟩ := Traced.bind_run h
    · obtain ⟨hrun, rfl⟩ := Traced.run_lift.mp hcreate
      obtain ⟨-, rfl⟩ := Prod.mk.inj (Option.some.inj hrun)
      exact .inl ⟨.inl hc, ⟨f, rfl⟩, rfl, rfl⟩
    · obtain ⟨hrun, -⟩ := Traced.run_lift.mp hcreate
      cases hrun
  rename_i hc
  rw [Traced.run_lift_bind (run_get v)] at h
  obtain ⟨f, hdir, rfl⟩ | ⟨_, v₁, t₁, t₂, hdir, hopen, rfl⟩ := Traced.bind_run h
  · obtain ⟨hrun, rfl⟩ := Traced.run_lift.mp hdir
    obtain ⟨rfl, ⟨-, hfail⟩ | ⟨hf, -⟩⟩ := mkdirF_run hrun
    · exact .inl ⟨.inr hfail, ⟨f, rfl⟩, rfl, rfl⟩
    · cases hf
  obtain ⟨hrun, rfl⟩ := Traced.run_lift.mp hdir
  obtain ⟨rfl, ⟨⟨f, hf⟩, -⟩ | ⟨-, hmade⟩⟩ := mkdirF_run hrun
  · cases hf
  refine .inr ⟨⟨not_not.mp hc, hmade⟩, ?_⟩
  rw [Traced.run_lift_bind (modifyDir_eq id)] at hopen
  rw [List.nil_append]
  obtain ⟨f, hlock, rfl⟩ | ⟨_, u, t₃, t₄, hlock, hinode, rfl⟩ := Traced.bind_run hopen
  · obtain ⟨htmp, hlocks, hcount, ⟨-, -, hnone⟩ | ⟨hf, -⟩⟩ := openLock_run hmade hlock
    · refine ⟨htmp, _, hlocks, .inl ⟨rfl, hcount, .inl ⟨f, rfl, fun hanswered j hj ↦ ?_⟩⟩⟩
      have hno : v₁.leader.locked path flags waits = none := hnone hanswered.lock
      rw [Leader.openedInode, hno] at hj
      cases hj
    · cases hf
  obtain ⟨htmp, hlocks, hcount, ⟨f, hf, -⟩ | ⟨-, hanswered, hlocked⟩⟩ := openLock_run hmade hlock
  · cases hf
  have hopened : u.leader.remoteInode path waits = v₁.leader.openedInode path flags waits := by
    have hleader : v₁.leader.locked path flags waits = some u.leader := hlocked
    rw [Leader.openedInode, hleader]
    rfl
  obtain ⟨htmp', hend⟩ := openInode_run hopened hinode
  refine ⟨htmp'.trans htmp, _, hlocks, ?_⟩
  rw [releases_append, hcount, Nat.zero_add]
  rw [htmp] at hend
  obtain ⟨hkept, hcount', ⟨f, rfl, hfail⟩ | ⟨rfl, hls, hj⟩⟩ | ⟨hfreed, hremoved, hcount', rfl, hls, hj⟩ :=
    hend
  · exact .inl ⟨hkept, hcount', .inl ⟨f, rfl, fun hall ↦ hfail hall.ls⟩⟩
  · exact .inl ⟨hkept, hcount', .inr ⟨rfl, ⟨hanswered, hls⟩, hj⟩⟩
  · exact .inr ⟨hfreed, hremoved, hcount', rfl, ⟨hanswered, hls⟩, hj⟩

/-- `close` gives the lock back unless `fsync` throws. -/
theorem Trace.close_run {r : Except Fault (Option Commit)}
    (h : (close path nodes during silent).run v = some (r, w, trace)) :
    (FsyncThrows path nodes during silent v ∧ w.sdk.pathlocks = v.sdk.pathlocks ∧
        w.sdk.remoteLocks = v.sdk.remoteLocks ∧ releases path trace = 0) ∨
      ¬ FsyncThrows path nodes during silent v ∧
        w.sdk.pathlocks = v.sdk.pathlocks.unlock (v.sdk.tmpPath path) ∧
        path ∉ w.sdk.remoteLocks ∧ releases path trace = 1 := by
  have hkept : ∀ {r u t}, (fsync path nodes during silent).run v = some (r, u, t) →
      LocksAre v.sdk.tmpPath v.sdk.pathlocks v.sdk.remoteLocks u ∧ releases path t = 0 := by
    intro r u t hsync
    obtain ⟨hlocks, hquiet⟩ := keeps_fsync insulated_locksAre v r u t ⟨rfl, rfl, rfl⟩ hsync
    exact ⟨hlocks, releases_of_quiet hquiet path⟩
  obtain ⟨f, hsync, rfl⟩ | ⟨commit, u, t₁, t₂, hsync, hrest, rfl⟩ := Traced.bind_run h
  · obtain ⟨hlocks, hcount⟩ := hkept hsync
    exact .inl ⟨(fsync_run hsync).error_iff.mp ⟨f, rfl⟩, hlocks.pathlocks, hlocks.remoteLocks, hcount⟩
  obtain ⟨hlocks, hcount⟩ := hkept hsync
  have hok : ¬ FsyncThrows path nodes during silent v := fun hno ↦ by
    obtain ⟨f, hf⟩ := (fsync_run hsync).error_iff.mpr hno
    cases hf
  have hend : w = { u with sdk := { u.sdk with
      cache := update u.sdk.cache path none
      remoteLocks := u.sdk.remoteLocks.filter (· ≠ path)
      pathlocks := u.sdk.pathlocks.unlock (u.sdk.tmpPath path) } } ∧ t₂ = [.released path] := by
    obtain ⟨-, he⟩ := Prod.mk.inj (Option.some.inj hrest)
    obtain ⟨hw, ht⟩ := Prod.mk.inj he
    exact ⟨hw.symm, ht.symm⟩
  obtain ⟨rfl, rfl⟩ := hend
  refine .inr ⟨hok, ?_, by simp, ?_⟩
  · show u.sdk.pathlocks.unlock (u.sdk.tmpPath path) = _
    rw [hlocks.pathlocks, hlocks.tmpPath]
  · rw [releases_append, hcount, releases_released]

end

end SDK

section

variable {path : Str} {flags size : Nat} {waits : Waits} {lost : Lost} {silent : Option Fault}
  {list : List Access} {nodes : Datanodes} {during : List Action} {v u₁ u₂ w : View}
  {t₁ t₂ t₃ trace : List Mark}

/-- A session releases the lock of the path once when either nothing is truncated and `fsync`
succeeds in `close`, or the truncation has released the lock and the failing `fsync` keeps `close`
from doing it again. -/
theorem session_released_iff {result : Except Fault (Option Commit)}
    (hopen : (SDK.Trace.open path flags waits lost).run v = some (.ok (), u₁, t₁))
    (haccesses : (SDK.Trace.accesses path list).run u₁ = some (.ok (), u₂, t₂))
    (hclose : (SDK.Trace.close path nodes during silent).run u₂ = some (result, w, t₃)) :
    Released path v w (t₁ ++ t₂ ++ t₃) ↔
      (v.leader.Truncates path flags waits ↔ SDK.FsyncThrows path nodes during silent u₂) := by
  -- what is known of the lock after the accesses
  obtain ⟨hlocks, hquiet⟩ := SDK.Trace.keeps_accesses SDK.insulated_locksAre list u₁ _ u₂ t₂
    ⟨rfl, rfl, rfl⟩ haccesses
  have hcount := SDK.Trace.releases_of_quiet hquiet path
  have hend := SDK.Trace.close_run hclose
  rw [hlocks.tmpPath, hlocks.pathlocks, hlocks.remoteLocks] at hend
  obtain ⟨-, ⟨f, hf⟩, -⟩ | ⟨-, htmp, locks, hlock, ⟨hw, hopened, ⟨f, hf, -⟩ | ⟨-, -, j, hj, hno⟩⟩ |
    ⟨hw, hremoved, hopened, -, -, hj⟩⟩ := SDK.Trace.open_run hopen
  · cases hf
  · cases hf
  · have htruncates : ¬ v.leader.Truncates path flags waits := by
      rintro ⟨ht, i, hi, hs⟩
      obtain rfl := Option.some.inj (hj.symm.trans hi)
      exact hno ⟨ht, hs⟩
    rw [htmp, hw] at hend
    rcases hend with ⟨hrefused, -, -, hclosed⟩ | ⟨hok, hfreed, hremote, hclosed⟩
    · refine ⟨fun hb ↦ ?_, fun hiff ↦ absurd (hiff.mpr hrefused) htruncates⟩
      have honce := hb.once
      rw [releases_append, releases_append, hopened, hcount, hclosed] at honce
      cases honce
    · refine ⟨fun _ ↦ iff_of_false htruncates hok, fun _ ↦ ⟨?_, ?_, hremote⟩⟩
      · rw [releases_append, releases_append, hopened, hcount, hclosed]
      · rw [hfreed, PathLocks.mutexAt_unlock hlock]
  · have htruncates : v.leader.Truncates path flags waits := by
      obtain ⟨j, hj, ht, hs⟩ := hj
      exact ⟨ht, j, hj, hs⟩
    rcases hend with ⟨hrefused, hkept, hsame, hclosed⟩ | ⟨hok, -, -, hclosed⟩
    · refine ⟨fun _ ↦ iff_of_true htruncates hrefused, fun _ ↦ ⟨?_, ?_, ?_⟩⟩
      · rw [releases_append, releases_append, hopened, hcount, hclosed]
      · rw [hkept, hw, PathLocks.mutexAt_unlock hlock]
      · rwa [hsame]
    · refine ⟨fun hb ↦ ?_, fun hiff ↦ absurd (hiff.mp htruncates) hok⟩
      have honce := hb.once
      rw [releases_append, releases_append, hopened, hcount, hclosed] at honce
      cases honce

/-- `truncate` has to do with the lock of the path alone. -/
theorem truncate_held {result : Except Fault Unit}
    (h : (SDK.Trace.truncate path size waits lost).run v = some (result, w, trace)) :
    w.sdk.held = v.sdk.held := by
  obtain ⟨f, hopen, -⟩ | ⟨_, u, t₁, t₂, hopen, hunlock, -⟩ := Traced.bind_run h
  · exact SDK.Trace.open_held hopen
  · have hsame : w.sdk.held = u.sdk.held := by
      obtain ⟨-, rfl⟩ := Prod.mk.inj (Option.some.inj (Traced.run_note.mp hunlock).1)
      rfl
    exact hsame.trans (SDK.Trace.open_held hopen)

/-- `truncate` releases the lock once when the file is empty. -/
theorem truncate_released_iff {result : Except Fault Unit}
    (h : (SDK.Trace.truncate path size waits lost).run v = some (result, w, trace)) :
    Released path v w trace ↔ lost.Answered (oWronly ||| oTrunc) ∧
      ∃ j, v.leader.openedInode path (oWronly ||| oTrunc) waits = some j ∧ j.filesize = 0 := by
  have hcreat : (oWronly ||| oTrunc) &&& oCreat = 0 := by decide
  obtain ⟨f, hopen, rfl⟩ | ⟨_, u, t₁, t₂, hopen, hunlock, rfl⟩ := Traced.bind_run h
  · obtain ⟨hc, -, -, hcount⟩ | ⟨-, -, locks, hlock, ⟨hw, hcount, ⟨f, -, hall⟩ | ⟨hf, -⟩⟩ |
      ⟨-, -, -, hf, -⟩⟩ := SDK.Trace.open_run hopen
    · refine iff_of_false (fun hb ↦ ?_) fun ⟨_, j, hj, _⟩ ↦ ?_
      · have honce := hb.once
        rw [hcount] at honce
        cases honce
      · rw [Leader.openedInode, Leader.locked, if_pos (hc.resolve_left (absurd hcreat))] at hj
        cases hj
    · refine ⟨fun hb ↦ ?_, fun ⟨hanswered, j, hj, hzero⟩ ↦ absurd hzero (hall hanswered j hj).2⟩
      have honce := hb.once
      rw [hcount] at honce
      cases honce
    · cases hf
    · cases hf
  obtain ⟨hrun, rfl⟩ := Traced.run_note.mp hunlock
  obtain ⟨-, rfl⟩ := Prod.mk.inj (Option.some.inj hrun)
  obtain ⟨-, ⟨f, hf⟩, -⟩ | ⟨-, htmp, locks, hlock, ⟨hw, hcount, ⟨f, hf, -⟩ | ⟨-, hanswered, j, hj, hno⟩⟩ |
    ⟨-, -, hcount, -, -, j, hj, -, hs⟩⟩ := SDK.Trace.open_run hopen
  · cases hf
  · cases hf
  · have hzero : j.filesize = 0 := by
      by_contra hne
      exact hno ⟨by decide, hne⟩
    refine iff_of_true ⟨?_, ?_, by simp⟩ ⟨hanswered, j, hj, hzero⟩
    · rw [releases_append, hcount, releases_released]
    · show (u.sdk.pathlocks.unlock (u.sdk.tmpPath path)).mutexAt _ = _
      rw [htmp, hw, PathLocks.mutexAt_unlock hlock]
  · refine iff_of_false (fun hb ↦ ?_) fun ⟨_, i, hi, hzero⟩ ↦ ?_
    · have honce := hb.once
      rw [releases_append, hcount, releases_released] at honce
      cases honce
    · obtain rfl := Option.some.inj (hj.symm.trans hi)
      exact hs hzero

end

/-- A failed `open` leaves the locks as they were only when it was asked to create the file or
cannot make its directory: all other failures, also for want of an answer, come with the local lock
taken. A session is balanced when no access in it leaves a block file or link locked, nor `close`,
and the lock of the path is released once. `truncate` is balanced on an empty file. -/
theorem lock_balance_iff (path : Str) (v : View) :
    (∀ flags waits lost fault w trace,
      (SDK.Trace.open path flags waits lost).run v = some (.error fault, w, trace) →
        (w.sdk.pathlocks (v.sdk.tmpPath path) = v.sdk.pathlocks (v.sdk.tmpPath path) ∧
          w.sdk.remoteLocks = v.sdk.remoteLocks ↔
            flags &&& oCreat ≠ 0 ∨ waits.mkdir ≠ none)) ∧
    (∀ flags waits lost list nodes during silent u₁ u₂ w result t₁ t₂ t₃,
      (SDK.Trace.open path flags waits lost).run v = some (.ok (), u₁, t₁) →
      (SDK.Trace.accesses path list).run u₁ = some (.ok (), u₂, t₂) →
      (SDK.Trace.close path nodes during silent).run u₂ = some (result, w, t₃) →
        (Balanced path v w (t₁ ++ t₂ ++ t₃) ↔
          (v.leader.Truncates path flags waits ↔ SDK.FsyncThrows path nodes during silent u₂) ∧
            ¬ (LeavesLocks path list u₁ ∨ SDK.UploadRefused path nodes u₂))) ∧
    ∀ size waits lost result w trace,
      (SDK.Trace.truncate path size waits lost).run v = some (result, w, trace) →
        (Balanced path v w trace ↔ lost.Answered (oWronly ||| oTrunc) ∧
          ∃ j, v.leader.openedInode path (oWronly ||| oTrunc) waits = some j ∧ j.filesize = 0) := by
  refine ⟨fun flags waits lost fault w trace h ↦ ?_,
    fun flags waits lost list nodes during silent u₁ u₂ w result t₁ t₂ t₃ hopen haccesses hclose ↦ ?_,
    fun size waits lost result w trace h ↦ ?_⟩
  · obtain ⟨hc, -, rfl, -⟩ | ⟨⟨hc, hmade⟩, -, locks, hlock, ⟨hw, -⟩ | ⟨-, -, -, hf, -⟩⟩ :=
      SDK.Trace.open_run h
    · exact ⟨fun _ ↦ hc, fun _ ↦ ⟨rfl, rfl⟩⟩
    · refine iff_of_false (fun hsame ↦ ?_) (not_or.mpr ⟨not_not.mpr hc, not_not.mpr hmade⟩)
      have hne := PathLocks.lockFor_ne hlock
      rw [hw] at hsame
      exact absurd hsame.1 hne
    · cases hf
  · have hheld : w.sdk.held = v.sdk.held ↔
        ¬ (LeavesLocks path list u₁ ∨ SDK.UploadRefused path nodes u₂) := by
      rw [← SDK.Trace.open_held hopen]
      exact ((SDK.Trace.accesses_held haccesses).trans (SDK.Trace.close_held hclose)).eq_iff
    rw [← session_released_iff hopen haccesses hclose, ← hheld]
    exact ⟨fun hb ↦ ⟨hb.toReleased, hb.held⟩, fun ⟨hreleased, hsame⟩ ↦ ⟨hreleased, hsame⟩⟩
  · rw [← truncate_released_iff h]
    exact ⟨Balanced.toReleased, fun hreleased ↦ ⟨hreleased, truncate_held h⟩⟩

/-- A session that only opens the file and closes it. -/
theorem lock_balance_read_only :
    ∃ u w result t₁ t₂, (SDK.Trace.open "/f".toList oRdonly { seen := 1 } {}).run emptyView =
        some (.ok (), u, t₁) ∧
      (SDK.Trace.close "/f".toList .byContent [] none).run u = some (result, w, t₂) ∧
      Balanced "/f".toList emptyView w (t₁ ++ [] ++ t₂) := by
  obtain ⟨u, t₁, hopen, hclean, w, result, t₂, hclose⟩ :
      ∃ u t₁, (SDK.Trace.open "/f".toList oRdonly { seen := 1 } {}).run emptyView =
          some (.ok (), u, t₁) ∧ SDK.dirtyBlocks (u.sdk.dir "/f".toList) = [] ∧
        ∃ w result t₂, (SDK.Trace.close "/f".toList .byContent [] none).run u =
          some (result, w, t₂) := ⟨_, _, rfl, rfl, _, _, _, rfl⟩
  refine ⟨u, w, result, t₁, t₂, hopen, hclose, ?_⟩
  refine ((lock_balance_iff "/f".toList emptyView).2.1 _ _ _ [] _ _ none _ _ _ _ _ _ _ hopen rfl
    hclose).mpr ⟨iff_of_false ?_ (SDK.not_fsyncRefused hclean),
      not_or.mpr ⟨id, SDK.not_uploadRefused hclean⟩⟩
  rintro ⟨ht, -⟩
  exact ht (by decide)

/-- A client of a cluster without files. -/
def newView : View := ⟨.start "10.0.0.1".toList 0, 0, .new 0⟩

/-- Whoever opens a path that does not exist has its lock afterwards. -/
theorem not_lock_balance_missing :
    ∃ fault w trace, (SDK.Trace.open "/f".toList oRdonly { seen := 0 } {}).run newView =
        some (.error fault, w, trace) ∧
      ¬ (w.sdk.pathlocks (newView.sdk.tmpPath "/f".toList) =
          newView.sdk.pathlocks (newView.sdk.tmpPath "/f".toList) ∧
        w.sdk.remoteLocks = newView.sdk.remoteLocks) := by
  refine ⟨_, _, _, rfl, fun hsame ↦ ?_⟩
  exact absurd hsame.1 (by decide)

end Spkdfs
