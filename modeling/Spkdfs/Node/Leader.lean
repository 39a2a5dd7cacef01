import Spkdfs.Node.Kind

namespace Spkdfs

open Library RocksDB

/-- A log entry that is proposed, with the request it comes from and the second in which it
was prepared. -/
structure Proposal where
  entry : Entry
  request : Request
  now : Nat
deriving DecidableEq

structure Record where
  proposal : Proposal
  answer : Answer
  time : Nat
deriving DecidableEq

/-- The leader: its store, the log from the first entry that is not applied on, and the
entries applied before. -/
structure Leader where
  myIp : Str
  store : RocksDB
  pending : List Proposal
  applied : List Record
  now : Nat

inductive Action
  | tick (seconds : Nat)
  | prepare (millis : Int) (req : Request)
  | apply
deriving DecidableEq

namespace Leader

def start (myIp : Str) (now : Nat) : Leader := ⟨myIp, .empty, [], [], now⟩

def env (l : Leader) (millis : Int) : Env := ⟨l.myIp, l.now, millis⟩

def proposals (l : Leader) (millis : Int) (req : Request) : List Proposal :=
  (Namenode.prepare l.store (l.env millis) req).1.map fun entry ↦ ⟨entry, req, l.now⟩

/-- Handlers and `on_apply` run concurrently; the log orders what they propose. -/
def step (l : Leader) : Action → Option Leader
  | .tick seconds => some { l with now := l.now + seconds }
  | .prepare millis req => some { l with pending := l.pending ++ l.proposals millis req }
  | .apply =>
    match l.pending with
    | [] => none
    | p :: rest =>
      (RaftNN.onApply l.store p.entry).map fun (store, answer) ↦
        { l with store, pending := rest, applied := l.applied ++ [⟨p, answer, l.now⟩] }

def log (l : Leader) : List Proposal := l.applied.map (·.proposal) ++ l.pending

variable {l l' : Leader} {p : Proposal} {rest : List Proposal}

theorem step_apply (h : l.step .apply = some l') :
    ∃ p rest answer, l.pending = p :: rest ∧
      RaftNN.onApply l.store p.entry = some (l'.store, answer) ∧ l'.pending = rest ∧
        l'.applied = l.applied ++ [⟨p, answer, l.now⟩] ∧ l'.now = l.now ∧ l'.myIp = l.myIp := by
  simp only [step] at h
  split at h
  · cases h
  · rename_i p rest hp
    simp only [Option.map_eq_some_iff] at h
    obtain ⟨⟨store, answer⟩, happly, rfl⟩ := h
    exact ⟨p, rest, answer, hp, happly, rfl, rfl, rfl, rfl⟩

theorem log_prepare (l : Leader) (millis : Int) (req : Request) :
    log { l with pending := l.pending ++ l.proposals millis req } =
      l.log ++ l.proposals millis req := by simp [log]

theorem log_apply (h : l.step .apply = some l') : l'.log = l.log := by
  obtain ⟨p, rest, answer, hp, -, hrest, happlied, -⟩ := step_apply h
  simp [log, hp, hrest, happlied]

end Leader

end Spkdfs
