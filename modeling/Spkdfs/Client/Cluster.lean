import Spkdfs.Client.SDK

namespace Spkdfs

open Library Function

inductive Operation
  | «open» (path : Str) (flags : Nat) (waits : Waits)
  | write (path : Str) (offset : Nat) (data : Str) (nodes : Datanodes)
  | fsync (path : Str) (nodes : Datanodes) (during : List Action)
  | close (path : Str) (nodes : Datanodes) (during : List Action)

/-- What is remembered of the calls. An `opened` has the inode that the call has read, and the
deadline and the time that it found on the leader. -/
inductive Event
  | opened (who : Nat) (path : Str) (write : Bool) (read : Inode) (deadline time : Nat)
  | refused (who : Nat) (path : Str)
  | committed (who : Nat) (path : Str) (commit : Commit)
  | closed (who : Nat) (path : Str)
deriving DecidableEq

namespace Operation

def path : Operation → Str
  | .open path .. | .write path .. | .fsync path .. | .close path .. => path

def method : Operation → Method (Option Commit)
  | .open path flags waits => do SDK.open path flags waits; return none
  | .write path offset data nodes => do SDK.writeData path offset data nodes; return none
  | .fsync path nodes during => SDK.fsync path nodes during
  | .close path nodes during => SDK.close path nodes during

end Operation

def Leader.deadline (l : Leader) (path : Str) : Nat :=
  (RocksDB.lookup l.store (simplifyPath path)).elim 0 (·.ddlLock)

namespace Operation

def commits (who : Nat) (path : Str) : Except Fault (Option Commit) → List Event
  | .ok (some commit) => [.committed who path commit]
  | _ => []

def events (who : Nat) (before after : View) (outcome : Except Fault (Option Commit)) :
    Operation → List Event
  | .open path flags _ =>
    match outcome with
    | .ok _ =>
      [.opened who path (writeMode flags) ((after.sdk.cache path).getD (.ofPath []))
        (before.leader.deadline path) before.leader.now]
    | .error _ => [.refused who path]
  | .write .. => []
  | .fsync path .. => commits who path outcome
  | .close path .. =>
    match outcome with
    | .ok _ => commits who path outcome ++ [.closed who path]
    | .error _ => []

theorem open_run {path : Str} {flags : Nat} {waits : Waits} {v v' : View}
    {outcome : Except Fault (Option Commit)}
    (h : (method (.open path flags waits)).run v = some (outcome, v')) :
    ((SDK.open path flags waits).run v = some (.ok (), v') ∧ outcome = .ok none) ∨
      ∃ f, (SDK.open path flags waits).run v = some (.error f, v') ∧ outcome = .error f := by
  obtain ⟨f, hopen, rfl⟩ | ⟨a, u, hopen, h⟩ := Procedure.bind_run h
  · exact .inr ⟨f, hopen, rfl⟩
  · obtain ⟨rfl, rfl⟩ := Prod.mk.inj (Option.some.inj h)
    exact .inl ⟨hopen, rfl⟩

theorem everywhere_commits {Q : List Event → Event → Prop} {history : List Event} {who : Nat}
    {path : Str} {outcome : Except Fault (Option Commit)} (h : Everywhere Q history)
    (hc : ∀ commit, outcome = .ok (some commit) → Q history (.committed who path commit)) :
    Everywhere Q (history ++ commits who path outcome) := by
  match outcome, hc with
  | .error f, _ => simpa [commits] using h
  | .ok none, _ => simpa [commits] using h
  | .ok (some commit), hc => exact h.concat (hc commit rfl)

end Operation

/-- The master namenode, the progress of the slaves and any number of `SDK` instances, each in
a process of its own. -/
structure Cluster where
  leader : Leader
  progress : Nat → Nat
  sdks : Nat → SDK
  history : List Event

namespace Cluster

/-- Besides the calls: a step of the leader for any other client, a slave that applies the next
entry, and the timer of an instance, which refreshes its leases. -/
inductive Step
  | leader (action : Action)
  | replicate (slave : Nat)
  | refresh (who : Nat)
  | call (who : Nat) (operation : Operation)

def start (myIp : Str) (now : Nat) (sdks : Nat → SDK) : Cluster :=
  ⟨.start myIp now, fun _ ↦ 0, sdks, []⟩

def view (c : Cluster) (who : Nat) : View :=
  ⟨c.leader, c.progress (c.sdks who).slave, c.sdks who⟩

def setView (c : Cluster) (who : Nat) (v : View) : Cluster :=
  { c with
    leader := v.leader
    progress := update c.progress (c.sdks who).slave v.progress
    sdks := update c.sdks who v.sdk }

def step (c : Cluster) : Step → Option Cluster
  | .leader action => (c.leader.step action).map fun leader ↦ { c with leader }
  | .replicate slave =>
    if c.progress slave < c.leader.applied.length then
      some { c with progress := update c.progress slave (c.progress slave + 1) }
    else none
  | .refresh who =>
    if (c.sdks who).remoteLocks = [] then none
    else
      (c.leader.step (.prepare 0 (.updateLock (c.sdks who).remoteLocks))).map fun leader ↦
        { c with leader }
  | .call who operation =>
    (operation.method.run (c.view who)).map fun (outcome, v) ↦
      { c.setView who v with
        history := c.history ++ operation.events who (c.view who) v outcome }

variable {c c' : Cluster} {who : Nat}

theorem step_call {operation : Operation} (h : c.step (.call who operation) = some c') :
    ∃ outcome v, operation.method.run (c.view who) = some (outcome, v) ∧
      c' = { c.setView who v with
        history := c.history ++ operation.events who (c.view who) v outcome } := by
  simp only [step, Option.map_eq_some_iff, Prod.exists] at h
  obtain ⟨outcome, v, hrun, rfl⟩ := h
  exact ⟨outcome, v, hrun, rfl⟩

theorem step_other {s : Step} (h : c.step s = some c') (hs : ∀ who op, s ≠ .call who op) :
    c'.history = c.history ∧ c'.sdks = c.sdks := by
  cases s with
  | leader action =>
    simp only [step, Option.map_eq_some_iff] at h
    obtain ⟨l, -, rfl⟩ := h
    exact ⟨rfl, rfl⟩
  | replicate slave =>
    simp only [step] at h
    split at h
    · obtain rfl := Option.some.inj h
      exact ⟨rfl, rfl⟩
    · cases h
  | refresh who =>
    simp only [step] at h
    split at h
    · cases h
    · simp only [Option.map_eq_some_iff] at h
      obtain ⟨l, -, rfl⟩ := h
      exact ⟨rfl, rfl⟩
  | call who op => exact absurd rfl (hs who op)

end Cluster

end Spkdfs
