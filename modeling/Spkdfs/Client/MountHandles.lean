import Spkdfs.Client.LockBalance
import Spkdfs.Client.Mount
import Spkdfs.Client.MountCalls

namespace Spkdfs

open Library Procedure Function

def SDK.create (path : Str) (waits : Waits) : Method Unit :=
  SDK.open path (oWronly ||| oCreat) waits

/-- What `reinit` leaves. -/
def View.reconnected (v : View) (found : Option (Nat × Nat)) : View :=
  { v with
    progress := found.elim v.progress (·.2)
    sdk := {
      slave := found.elim v.sdk.slave (·.1), tmpPath := v.sdk.tmpPath, dirs := v.sdk.dirs,
      deleted := found.isNone } }

namespace FUSE

/-- After anything but a `MessageException` there is a second try, on a new `SDK`. -/
def retried {α : Type} (call again : Method α) (found : Option (Nat × Nat)) : Method α :=
  tryCatch call fun fault ↦
    match fault with
    | .message code info => throw (.message code info)
    | .assertion => throw .assertion
    | _ => do
      reinit found
      again

/-- Here a `MessageException` of the first try is only printed. -/
def hushed (call again : Method Unit) (found : Option (Nat × Nat)) : Method Unit :=
  tryCatch call fun fault ↦
    match fault with
    | .message _ _ => return
    | .assertion => throw .assertion
    | _ => do
      reinit found
      again

def «open» (dst : Str) (flags : Nat) (waits again : Waits) : Option (Nat × Nat) → Method Unit :=
  hushed (SDK.open dst flags waits) (SDK.open dst flags again)

def truncate (dst : Str) (size : Nat) (waits again : Waits) : Option (Nat × Nat) → Method Unit :=
  hushed (SDK.truncate dst size waits) (SDK.truncate dst size again)

def create (dst : Str) (waits again : Waits) : Option (Nat × Nat) → Method Unit :=
  retried (SDK.create dst waits) (SDK.create dst again)

def write (dst : Str) (offset : Nat) (s : Str) (nodes : Datanodes) :
    Option (Nat × Nat) → Method Unit :=
  retried (SDK.writeData dst offset s nodes) (SDK.writeData dst offset s nodes)

def close (dst : Str) (nodes : Datanodes) (during again : List Action) :
    Option (Nat × Nat) → Method (Option Commit) :=
  retried (SDK.close dst nodes during) (SDK.close dst nodes again)

def fsync (dst : Str) (nodes : Datanodes) (during again : List Action) :
    Option (Nat × Nat) → Method (Option Commit) :=
  retried (SDK.fsync dst nodes during) (SDK.fsync dst nodes again)

end FUSE

/-- A handler that makes one number of every exception. -/
def caughtAs (errno : Int) (call : Method Int) : Method Int :=
  tryCatch call fun fault ↦
    match fault with
    | .assertion => throw .assertion
    | _ => return -errno

def spkdfsTruncate (path : Str) (size : Nat) (waits again : Waits) (found : Option (Nat × Nat)) :
    Method Int :=
  caughtAs enoent do
    FUSE.truncate path size waits again found
    return 0

/-- Here nothing is caught, but for what `FUSE::open` keeps to itself. -/
def spkdfsOpen (path : Str) (flags : Nat) (waits again : Waits) (found : Option (Nat × Nat)) :
    Method Int := do
  FUSE.open path flags waits again found
  return 0

def spkdfsWrite (path data : Str) (offset : Nat) (nodes : Datanodes) (found : Option (Nat × Nat)) :
    Method Int :=
  caughtAs eio do
    FUSE.write path offset data nodes found
    return toInt32 data.length

def spkdfsClose (path : Str) (nodes : Datanodes) (during again : List Action)
    (found : Option (Nat × Nat)) : Method Int :=
  caughtAs eio do
    let _ ← FUSE.close path nodes during again found
    return 0

def spkdfsFsync (path : Str) (nodes : Datanodes) (during again : List Action)
    (found : Option (Nat × Nat)) : Method Int :=
  caughtAs eio do
    let _ ← FUSE.fsync path nodes during again found
    return 0

def spkdfsCreate (path : Str) (waits again : Waits) (found : Option (Nat × Nat)) : Method Int :=
  caughtAs eio do
    FUSE.create path waits again found
    return 0

/-- The calls of the kernel, and what happens elsewhere between them. -/
inductive FileCall
  | getattr (path : Str) (seen again : Nat)
  | readdir (path : Str) (seen again : Nat)
  | truncate (path : Str) (size : Nat) (waits again : Waits)
  | open (path : Str) (flags : Nat) (waits again : Waits)
  | read (path : Str) (size offset : Nat) (nodes : Datanodes)
  | write (path data : Str) (offset : Nat) (nodes : Datanodes)
  | close (path : Str) (nodes : Datanodes) (during again : List Action)
  | fsync (path : Str) (nodes : Datanodes) (during again : List Action)
  | create (path : Str) (waits again : Waits)
  /-- Steps of the leader, those that a `mkdir` or `rm` of the mount asks for included. -/
  | elsewhere (actions : List Action)
  /-- A `mkdir` or `rm` that no namenode answers has `reinit` called. -/
  | unanswered

namespace FileCall

def method (found : Option (Nat × Nat)) : FileCall → Method Unit
  | .getattr path seen again => do
    let _ ← spkdfsGetattr path seen again found
    return
  | .readdir path seen again => do
    let _ ← spkdfsReaddir path seen again found
    return
  | .truncate path size waits again => do
    let _ ← spkdfsTruncate path size waits again found
    return
  | .open path flags waits again => do
    let _ ← spkdfsOpen path flags waits again found
    return
  | .read path size offset nodes => do
    let _ ← spkdfsRead path size offset nodes found
    return
  | .write path data offset nodes => do
    let _ ← spkdfsWrite path data offset nodes found
    return
  | .close path nodes during again => do
    let _ ← spkdfsClose path nodes during again found
    return
  | .fsync path nodes during again => do
    let _ ← spkdfsFsync path nodes during again found
    return
  | .create path waits again => do
    let _ ← spkdfsCreate path waits again found
    return
  | .elsewhere actions => .of fun v ↦
    (run Leader.step (fun _ _ ↦ true) v.leader actions).map fun leader ↦ (.ok (), { v with leader })
  | .unanswered => tryCatch (FUSE.reinit found) fun _ ↦ return

/-- What a handler does not catch ends the process, and without an `SDK` each of them follows a null
pointer. -/
def step (v : View) (a : FileCall × Option (Nat × Nat)) : Option View :=
  if v.sdk.deleted then none
  else
    match (a.1.method a.2).run v with
    | some (.ok _, w) => some w
    | _ => none

/-- The path that a call brings into the cache, if it succeeds. -/
def opened : FileCall → Option Str
  | .truncate path _ _ _ | .open path _ _ _ => some path
  | _ => none

def Unopened (path : Str) (_ : View) (a : FileCall × Option (Nat × Nat)) : Prop :=
  a.1.opened ≠ some path

end FileCall

/-- No file is open any more, and nothing else has happened. -/
structure View.Forgotten (v w : View) : Prop where
  cache : ∀ path, w.sdk.cache path = none
  leader : w.leader = v.leader
  dirs : w.sdk.dirs = v.sdk.dirs

/-- What is left for a file that the mount has forgotten: each call fails, and has the mount forget
the others. A `close` or `fsync` fails when there is something to commit. -/
structure View.Fails (v : View) (path : Str) (found : Option (Nat × Nat)) : Prop where
  read : ∀ size offset nodes, ∃ w, v.Forgotten w ∧
    (spkdfsRead path size offset nodes found).run v = some (.ok ⟨-enoent, [], 0⟩, w)
  write : ∀ data offset nodes, ∃ w, v.Forgotten w ∧
    (spkdfsWrite path data offset nodes found).run v = some (.ok (-eio), w)
  fsync : ∀ nodes during again, SDK.dirtyBlocks (v.sdk.dir path) ≠ [] → ∃ w, v.Forgotten w ∧
    (spkdfsFsync path nodes during again found).run v = some (.ok (-eio), w)
  close : ∀ nodes during again, SDK.dirtyBlocks (v.sdk.dir path) ≠ [] → ∃ w, v.Forgotten w ∧
    (spkdfsClose path nodes during again found).run v = some (.ok (-eio), w)

variable {α : Type} {path q : Str} {v w : View} {found : Option (Nat × Nat)} {fault : Fault}

/-- Neither a `MessageException` nor the end of the process. -/
def Fault.Plain : Fault → Prop
  | .message _ _ | .assertion => False
  | _ => True

/-- The call throws before it has done anything. -/
def ThrowsAtOnce (call : Method α) (v : View) : Prop :=
  ∃ fault : Fault, fault.Plain ∧ call.run v = some (.error fault, v)

theorem ThrowsAtOnce.bind {β : Type} {call : Method α} (h : ThrowsAtOnce call v)
    (f : α → Method β) : ThrowsAtOnce (call >>= f) v := by
  obtain ⟨fault, hf, hrun⟩ := h
  exact ⟨fault, hf, run_bind_error hrun f⟩

theorem keeps_of_throws {P : View → Prop} {call : Method α} (h : ∀ v, ThrowsAtOnce call v) :
    Keeps P call := by
  intro v r w hv hrun
  obtain ⟨fault, -, hthrow⟩ := h v
  obtain ⟨-, rfl⟩ := Prod.mk.inj (Option.some.inj (hrun.symm.trans hthrow))
  exact hv

theorem View.forgotten_reconnected (v : View) (found : Option (Nat × Nat)) :
    v.Forgotten (v.reconnected found) := ⟨fun _ ↦ rfl, rfl, rfl⟩

namespace FUSE

/-- Whether a node is found or not, nothing is open any more. -/
theorem reinit_run (v : View) (found : Option (Nat × Nat)) : (reinit found).run v =
    some (found.elim (.error (.runtime "all nodes offline".toList)) fun _ ↦ .ok (),
      v.reconnected found) := by
  cases found with
  | none => rfl
  | some node => rfl

theorem keeps_reinit : Keeps (SDK.Caches path none) (reinit found) := by
  intro v r w _ hrun
  obtain ⟨-, rfl⟩ := Prod.mk.inj (Option.some.inj (hrun.symm.trans (reinit_run v found)))
  rfl

theorem keeps_retried {call again : Method α} (hc : Keeps (SDK.Caches path none) call)
    (ha : Keeps (SDK.Caches path none) again) :
    Keeps (SDK.Caches path none) (retried call again found) := by
  refine hc.tryCatch fun fault ↦ ?_
  cases fault with
  | message | assertion => exact keeps_throw _
  | runtime | invalidArgument | outOfRange => exact keeps_reinit.bind fun _ ↦ ha

theorem keeps_hushed {call again : Method Unit} (hc : Keeps (SDK.Caches path none) call)
    (ha : Keeps (SDK.Caches path none) again) :
    Keeps (SDK.Caches path none) (hushed call again found) := by
  refine hc.tryCatch fun fault ↦ ?_
  cases fault with
  | message => exact keeps_pure _
  | assertion => exact keeps_throw _
  | runtime | invalidArgument | outOfRange => exact keeps_reinit.bind fun _ ↦ ha

theorem retried_throws {call again : Method α} (hc : ThrowsAtOnce call v)
    (ha : ThrowsAtOnce again (v.reconnected found)) : ∃ fault : Fault, fault.Plain ∧
      (retried call again found).run v = some (.error fault, v.reconnected found) := by
  have hend : ∃ fault : Fault, fault.Plain ∧
      (do reinit found; again : Method α).run v = some (.error fault, v.reconnected found) := by
    have hreinit := reinit_run v found
    cases found with
    | none => exact ⟨.runtime _, trivial, run_bind_error hreinit _⟩
    | some node =>
      obtain ⟨fault, hf, hagain⟩ := ha
      exact ⟨fault, hf, (run_bind_ok hreinit _).trans hagain⟩
  obtain ⟨fault, hf, hrun⟩ := hc
  obtain ⟨fault', hf', hend⟩ := hend
  refine ⟨fault', hf', ?_⟩
  rw [retried, run_tryCatch_error hrun]
  cases fault with
  | message | assertion => exact hf.elim
  | runtime | invalidArgument | outOfRange => exact hend

end FUSE

theorem keeps_caughtAs {P : View → Prop} {errno : Int} {call : Method Int} (h : Keeps P call) :
    Keeps P (caughtAs errno call) := by
  refine h.tryCatch fun fault ↦ ?_
  cases fault with
  | assertion => exact keeps_throw _
  | message | runtime | invalidArgument | outOfRange => exact keeps_pure _

/-- A handler that answers each call which does not throw with the same number. -/
theorem keeps_handled {P : View → Prop} {errno result : Int} {call : Method α} (h : Keeps P call) :
    Keeps P (do
      let _ ← caughtAs errno (do
        let _ ← call
        return result)
      return : Method Unit) :=
  (keeps_caughtAs (h.bind fun _ ↦ keeps_pure _)).bind fun _ ↦ keeps_pure _

theorem caughtAs_error {errno : Int} {call : Method Int} (hf : fault.Plain)
    (h : call.run v = some (.error fault, w)) :
    (caughtAs errno call).run v = some (.ok (-errno), w) := by
  rw [caughtAs, run_tryCatch_error h]
  cases fault with
  | message | assertion => exact hf.elim
  | runtime | invalidArgument | outOfRange => rfl

theorem caughtAs_retried {errno : Int} {call again : Method α} (hc : ThrowsAtOnce call v)
    (ha : ThrowsAtOnce again (v.reconnected found)) (f : α → Method Int) :
    (caughtAs errno (FUSE.retried call again found >>= f)).run v =
      some (.ok (-errno), v.reconnected found) := by
  obtain ⟨fault, hf, hrun⟩ := FUSE.retried_throws hc ha
  exact caughtAs_error hf (run_bind_error hrun f)

namespace SDK

variable {nodes : Datanodes} {during : List Action}

/-- `_create` never comes back. -/
theorem throws_create (path : Str) (waits : Waits) (v : View) :
    ThrowsAtOnce (SDK.create path waits) v :=
  ⟨.runtime _, trivial, rfl⟩

theorem throws_getInode (hv : v.sdk.cache path = none) : ThrowsAtOnce (getInode path) v := by
  refine ⟨.runtime "cannot find inode in local_inode_cache".toList, trivial, ?_⟩
  rw [getInode, run_bind_ok (run_get v), hv]
  rfl

/-- With something to commit, `fsync` asks for the inode before it changes anything. -/
theorem throws_fsync (hv : v.sdk.cache path = none) (hd : dirtyBlocks (v.sdk.dir path) ≠ []) :
    ThrowsAtOnce (fsync path nodes during) v := by
  have hlast := List.getLast?_eq_some_getLast hd
  by_cases hlarge : (dirtyBlocks (v.sdk.dir path)).any (2 ^ 31 ≤ ·.1) = true
  · refine ⟨.outOfRange "stoi".toList, trivial, ?_⟩
    rw [fsync, run_bind_ok (run_get v)]
    dsimp only
    rw [if_pos hlarge]
    rfl
  · obtain ⟨fault, hf, hrun⟩ := throws_getInode hv
    refine ⟨fault, hf, ?_⟩
    rw [fsync, run_bind_ok (run_get v)]
    dsimp only
    rw [if_neg hlarge, hlast]
    exact run_bind_error hrun _

theorem keeps_closed : Keeps (Caches q none) (SDK.close path nodes during) := by
  refine (keeps_fsync insulated_caches).bind fun _ ↦ Keeps.bind ?_ fun _ ↦
    keeps_unlock.bind fun _ ↦ keeps_pure _
  by_cases hq : q = path
  · subst hq
    exact keeps_modify fun v _ ↦ update_self ..
  · exact keeps_setCache hq

end SDK

theorem FUSE.keeps_ls {seen again : Nat} :
    Keeps (SDK.Caches q none) (FUSE.ls path seen again found) :=
  FUSE.keeps_retried (SDK.keeps_getRemoteInode SDK.insulated_caches.toRemote)
    (SDK.keeps_getRemoteInode SDK.insulated_caches.toRemote)

namespace FileCall

/-- However a call ends that does not open the file, the mount has the file not open after it if it
had not before. -/
theorem keeps_method {a : FileCall} (ha : a.opened ≠ some q) :
    Keeps (SDK.Caches q none) (a.method found) := by
  cases a with
  | getattr path seen again =>
    refine Keeps.bind (Keeps.tryCatch (FUSE.keeps_ls.bind fun _ ↦ keeps_pure _) fun fault ↦ ?_)
      fun _ ↦ keeps_pure _
    cases fault with
    | message => exact keeps_pure _
    | assertion | runtime | invalidArgument | outOfRange => exact keeps_throw _
  | readdir path seen again =>
    refine Keeps.bind (FUSE.keeps_ls.bind fun inode ↦ ?_) fun _ ↦ keeps_pure _
    split
    · exact (keeps_throw _).bind fun _ ↦ keeps_pure _
    · exact keeps_pure _
  | truncate path size waits again =>
    have hq : q ≠ path := fun he ↦ ha (congrArg some he.symm)
    have hcall : ∀ waits, Keeps (SDK.Caches q none) (SDK.truncate path size waits) := fun _ ↦
      (SDK.keeps_open hq).bind fun _ ↦ SDK.keeps_unlock
    exact keeps_handled (FUSE.keeps_hushed (hcall _) (hcall _))
  | «open» path flags waits again =>
    have hq : q ≠ path := fun he ↦ ha (congrArg some he.symm)
    exact Keeps.bind ((FUSE.keeps_hushed (SDK.keeps_open hq) (SDK.keeps_open hq)).bind
      fun _ ↦ keeps_pure _) fun _ ↦ keeps_pure _
  | read path size offset nodes =>
    have hcall : Keeps (SDK.Caches q none) (SDK.readData path offset size nodes) :=
      SDK.keeps_readData SDK.insulated_caches
    have hread : Keeps (SDK.Caches q none) (FUSE.read path offset size nodes found) :=
      FUSE.keeps_retried hcall hcall
    refine Keeps.bind (Keeps.tryCatch (hread.bind fun _ ↦ keeps_pure _) fun fault ↦ ?_)
      fun _ ↦ keeps_pure _
    cases fault with
    | assertion => exact keeps_throw _
    | message | runtime | invalidArgument | outOfRange => exact keeps_pure _
  | write path data offset nodes =>
    exact keeps_handled (FUSE.keeps_retried (SDK.keeps_writeData SDK.insulated_caches)
      (SDK.keeps_writeData SDK.insulated_caches))
  | close path nodes during again =>
    exact keeps_handled (FUSE.keeps_retried SDK.keeps_closed SDK.keeps_closed)
  | fsync path nodes during again =>
    exact keeps_handled (FUSE.keeps_retried (SDK.keeps_fsync SDK.insulated_caches)
      (SDK.keeps_fsync SDK.insulated_caches))
  | create path waits again =>
    have hcall : ∀ waits, Keeps (SDK.Caches q none) (SDK.create path waits) := fun waits ↦
      keeps_of_throws (SDK.throws_create path waits)
    exact keeps_handled (FUSE.keeps_retried (hcall _) (hcall _))
  | elsewhere actions =>
    intro v r w hv h
    obtain ⟨leader, -, he⟩ := Option.map_eq_some_iff.mp h
    obtain ⟨-, rfl⟩ := Prod.mk.inj he
    exact hv
  | unanswered => exact FUSE.keeps_reinit.tryCatch fun _ ↦ keeps_pure _

theorem keeps_step {a : FileCall × Option (Nat × Nat)} (hv : v.sdk.cache path = none)
    (ha : Unopened path v a) (h : step v a = some w) : w.sdk.cache path = none := by
  rw [step] at h
  split_ifs at h
  split at h
  · rename_i u t hrun
    obtain rfl := Option.some.inj h
    exact keeps_method ha v _ _ hv hrun
  · cases h

end FileCall

/-- Both tries fail, the second one because there is nothing in the cache of a new `SDK`. -/
theorem View.fails_of_uncached (hv : v.sdk.cache path = none) (found : Option (Nat × Nat)) :
    v.Fails path found where
  read size offset nodes := by
    have hcall : ∀ u : View, u.sdk.cache path = none →
        ThrowsAtOnce (SDK.readData path offset size nodes) u := fun _ hu ↦
      (SDK.throws_getInode hu).bind _
    obtain ⟨fault, hf, hrun⟩ := FUSE.retried_throws (hcall v hv) (hcall (v.reconnected found) rfl)
    have hread : (FUSE.read path offset size nodes found).run v =
        some (.error fault, v.reconnected found) := hrun
    refine ⟨_, v.forgotten_reconnected found, ?_⟩
    rw [spkdfsRead, run_tryCatch_error (run_bind_error hread _)]
    cases fault with
    | message | assertion => exact hf.elim
    | runtime | invalidArgument | outOfRange => rfl
  write data offset nodes := by
    have hcall : ∀ u : View, u.sdk.cache path = none →
        ThrowsAtOnce (SDK.writeData path offset data nodes) u := fun _ hu ↦
      (SDK.throws_getInode hu).bind _
    exact ⟨_, v.forgotten_reconnected found, caughtAs_retried (hcall v hv) (hcall _ rfl) _⟩
  fsync nodes during again hd := by
    have hagain : ThrowsAtOnce (SDK.fsync path nodes again) (v.reconnected found) :=
      SDK.throws_fsync rfl hd
    exact ⟨_, v.forgotten_reconnected found, caughtAs_retried (SDK.throws_fsync hv hd) hagain _⟩
  close nodes during again hd := by
    have hagain : ThrowsAtOnce (SDK.fsync path nodes again) (v.reconnected found) :=
      SDK.throws_fsync rfl hd
    exact ⟨_, v.forgotten_reconnected found,
      caughtAs_retried ((SDK.throws_fsync hv hd).bind _) (hagain.bind _) _⟩

/-- `create` on a mount fails, and closes every file that is open there without a commit: until a
file is opened again, whatever is called in between, it can neither be read nor written, and what
was written to it is not committed. The mount goes on as long as a node that is online is found. -/
theorem create_forgets_files {v : View} (path : Str) (waits again : Waits)
    (found : Option (Nat × Nat)) (hv : v.sdk.deleted = false) :
    ∃ u, (spkdfsCreate path waits again found).run v = some (.ok (-eio), u) ∧
      FileCall.step v (.create path waits again, found) = some u ∧ v.Forgotten u ∧
        u.sdk.deleted = found.isNone ∧
      ∀ q w, Reaches FileCall.step (FileCall.Unopened q) u w → w.sdk.deleted = false →
        ∀ node, w.Fails q node := by
  have hrun : (spkdfsCreate path waits again found).run v =
      some (.ok (-eio), v.reconnected found) :=
    caughtAs_retried (SDK.throws_create path waits v) (SDK.throws_create path again _) _
  have hmethod : (FileCall.method found (.create path waits again)).run v =
      some (.ok (), v.reconnected found) := run_bind_ok hrun _
  refine ⟨v.reconnected found, hrun, ?_, v.forgotten_reconnected found, rfl, fun q w h _ node ↦ ?_⟩
  · rw [FileCall.step, if_neg (by simp [hv]), hmethod]
  · have hstart : (v.reconnected found).sdk.cache q = none := rfl
    have hend : w.sdk.cache q = none :=
      h.invariant hstart fun _ _ _ _ ht ha hs ↦ FileCall.keeps_step ht ha hs
    exact View.fails_of_uncached hend node

/-- After the directory is looked at and another call has found no namenode, the file is still not
open. -/
theorem create_forgets_files_open : ∃ v w : View,
    (v.sdk.cache "/a".toList).isSome = true ∧ w.sdk.slave = 2 ∧ w.Fails "/a".toList (some (1, 0)) := by
  let v : View := ⟨.start "10.0.0.1".toList 100, 0,
    { SDK.new 0 with cache := fun _ ↦ some (.ofPath "/a".toList) }⟩
  obtain ⟨w, hr, hw⟩ := exists_reached FileCall.step
    (fun _ a ↦ decide (a.1.opened ≠ some "/a".toList)) (v.reconnected (some (1, 0)))
    [(.getattr "/".toList 0 0, some (1, 0)), (.unanswered, some (2, 0))]
    (fun w ↦ decide (w.sdk.slave = 2 ∧ w.sdk.deleted = false)) (by decide +kernel)
  obtain ⟨hslave, halive⟩ := of_decide_eq_true hw
  obtain ⟨u, hu, -, -, -, hfails⟩ :=
    create_forgets_files "/b".toList { seen := 0 } { seen := 0 } (some (1, 0)) (v := v) rfl
  obtain rfl : v.reconnected (some (1, 0)) = u := (Prod.mk.inj (Option.some.inj hu)).2
  exact ⟨v, w, rfl, hslave,
    hfails _ w (hr.mono fun _ _ ↦ of_decide_eq_true) halive (some (1, 0))⟩

end Spkdfs
