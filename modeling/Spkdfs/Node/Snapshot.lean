import Spkdfs.Node.Replay

namespace Spkdfs

open Library RocksDB

/-- The library's engine on a backup directory: the latest backup is the one made last. -/
structure BackupEngine where
  Dir : Type
  empty : Dir
  createNewBackup : Dir → RocksDB → Dir
  latest : Dir → Option RocksDB
  latest_empty : latest empty = none
  latest_create : ∀ dir db, latest (createNewBackup dir db) = some db

/-- Each backup is kept, in the order in which they were made. -/
def BackupEngine.list : BackupEngine where
  Dir := List RocksDB
  empty := []
  createNewBackup dir db := dir ++ [db]
  latest dir := dir.getLast?
  latest_empty := rfl
  latest_create dir db := by simp

/-- A namenode: the database under `origin`, the directory `backup` beside it, and the number
of log entries it has applied. -/
structure Replica (engine : BackupEngine) where
  origin : RocksDB
  backup : engine.Dir
  applied : Nat

inductive ReplicaStep
  | next
  | save
deriving DecidableEq

namespace Replica

variable {engine : BackupEngine}

def start (engine : BackupEngine) : Replica engine := ⟨.empty, engine.empty, 0⟩

def snapshot (r : Replica engine) : Replica engine :=
  { r with backup := engine.createNewBackup r.backup r.origin }

/-- The files given to the writer are those of the whole backup directory. -/
def onSnapshotSave (r : Replica engine) : Replica engine × engine.Dir :=
  (r.snapshot, r.snapshot.backup)

/-- A restore without any backup fails an assertion. -/
def loadSnapshot (r : Replica engine) : Option (Replica engine) :=
  (engine.latest r.backup).map fun origin ↦ { r with origin }

/-- The files that the reader delivers are not looked at. -/
def onSnapshotLoad (r : Replica engine) (_reader : engine.Dir) : Option (Replica engine) :=
  r.loadSnapshot

def step (log : List Entry) (r : Replica engine) : ReplicaStep → Option (Replica engine)
  | .next => log[r.applied]?.bind fun entry ↦
    (RaftNN.apply r.origin entry).map fun origin ↦ { r with origin, applied := r.applied + 1 }
  | .save => some r.onSnapshotSave.1

/-- A namenode from its first start on. -/
def follow (engine : BackupEngine) (log : List Entry) (steps : List ReplicaStep) :
    Option (Replica engine) := steps.foldlM (step log) (start engine)

end Replica

/-- The number of entries applied, now and when the last snapshot was made. -/
def progress (steps : List ReplicaStep) : Nat × Option Nat :=
  steps.foldl (fun (applied, saved) s ↦ match s with
    | .next => (applied + 1, saved)
    | .save => (applied, some applied)) (0, none)

def lastSave (steps : List ReplicaStep) : Option Nat := (progress steps).2

variable {engine : BackupEngine} {log : List Entry} {steps : List ReplicaStep}
  {r : Replica engine}

theorem applyLog_take_succ {n : Nat} {e : Entry} (h : log[n]? = some e) (db : RocksDB) :
    RaftNN.applyLog db (log.take (n + 1)) =
      (RaftNN.applyLog db (log.take n)).bind (RaftNN.apply · e) := by
  rw [List.take_add_one, h, applyLog_append]
  congr 1
  funext db'
  rw [RaftNN.applyLog, Option.toList_some, List.foldlM_cons]
  simp

/-- The database of a replica is what the entries it has applied lead to, and its latest backup
is what they had led to at its last snapshot. -/
theorem Replica.follow_eq_some (h : follow engine log steps = some r) :
    (progress steps).1 = r.applied ∧
      RaftNN.applyLog .empty (log.take r.applied) = some r.origin ∧
      engine.latest r.backup =
        (lastSave steps).bind fun k ↦ RaftNN.applyLog .empty (log.take k) := by
  induction steps using List.reverseRecOn generalizing r with
  | nil =>
    obtain rfl := Option.some.inj h
    exact ⟨rfl, by simp [start, RaftNN.applyLog], engine.latest_empty⟩
  | append_singleton steps s ih =>
    rw [follow, List.foldlM_append] at h
    obtain ⟨q, hq, h⟩ := Option.bind_eq_some_iff.mp h
    obtain ⟨hcount, horigin, hbackup⟩ := ih hq
    have h : step log q s = some r := by simpa using h
    cases s with
    | next =>
      simp only [step, Option.bind_eq_some_iff, Option.map_eq_some_iff] at h
      obtain ⟨e, he, origin, happly, rfl⟩ := h
      refine ⟨?_, ?_, ?_⟩
      · simp [progress] at hcount ⊢
        exact hcount
      · rw [applyLog_take_succ he, horigin]
        exact happly
      · rw [hbackup]
        simp [lastSave, progress]
    | save =>
      obtain rfl := Option.some.inj h
      refine ⟨?_, horigin, ?_⟩
      · simp [progress] at hcount ⊢
        exact hcount
      · have hlast : lastSave (steps ++ [.save]) = some q.applied := by
          rw [← hcount]
          simp [lastSave, progress]
        rw [hlast]
        exact (engine.latest_create q.backup q.origin).trans horigin.symm

/-- The snapshot of `a` reaches `b` if and only if `b` had saved the same store itself. -/
theorem snapshot_transferred_iff {stepsA stepsB : List ReplicaStep} {a b : Replica engine}
    (ha : Replica.follow engine log stepsA = some a)
    (hb : Replica.follow engine log stepsB = some b) :
    (∃ b', b.onSnapshotLoad a.onSnapshotSave.2 = some b' ∧ b'.origin = a.origin ∧
      RaftNN.applyLog b'.origin (log.drop a.applied) = RaftNN.applyLog .empty log) ↔
    ∃ k, lastSave stepsB = some k ∧
      RaftNN.applyLog .empty (log.take k) = RaftNN.applyLog .empty (log.take a.applied) := by
  obtain ⟨-, hstore, -⟩ := Replica.follow_eq_some ha
  obtain ⟨-, -, hlatest⟩ := Replica.follow_eq_some hb
  simp only [Replica.onSnapshotLoad, Replica.loadSnapshot, hlatest, Option.map_eq_some_iff,
    Option.bind_eq_some_iff]
  constructor
  · rintro ⟨b', ⟨origin, ⟨k, hk, horigin⟩, rfl⟩, hsame, -⟩
    refine ⟨k, hk, ?_⟩
    rw [horigin, hstore]
    exact congrArg some hsame
  · rintro ⟨k, hk, hsame⟩
    refine ⟨_, ⟨a.origin, ⟨k, hk, hsame.trans hstore⟩, rfl⟩, rfl, ?_⟩
    conv_rhs => rw [← List.take_append_drop a.applied log, applyLog_append, hstore]
    rfl

/-- Two namenodes that made their snapshots at the same entry. -/
theorem snapshot_transferred_same_index :
    ∃ (a b b' : Replica .list), a.applied = 1 ∧ b.applied = 2 ∧
      b.onSnapshotLoad a.onSnapshotSave.2 = some b' ∧ b'.origin = a.origin := by
  let log : List Entry :=
    [.opMkdir (.getDefaultDir "/a".toList), .opMkdir (.getDefaultDir "/b".toList)]
  have hfollow : ∀ steps, (Replica.follow .list log steps).any
      (fun r ↦ decide (r.applied = (progress steps).1)) = true →
      ∃ r, Replica.follow .list log steps = some r ∧ r.applied = (progress steps).1 := by
    intro steps h
    obtain ⟨r, hr, happlied⟩ := (Option.any_eq_true _ _).mp h
    exact ⟨r, hr, of_decide_eq_true happlied⟩
  obtain ⟨a, ha, happlied⟩ := hfollow [.next] (by decide +kernel)
  obtain ⟨b, hb, happlied'⟩ := hfollow [.next, .save, .next] (by decide +kernel)
  have hsave : lastSave [.next, .save, .next] = some 1 := by decide
  have happlied : a.applied = 1 := happlied
  obtain ⟨b', hload, hsame, -⟩ := (snapshot_transferred_iff ha hb).mpr ⟨1, hsave, by rw [happlied]⟩
  exact ⟨a, b, b', happlied, happlied', hload, hsame⟩

/-- A namenode that holds an older backup of its own loads that one. -/
theorem snapshot_not_transferred :
    ¬ ∀ (engine : BackupEngine) (log : List Entry) (stepsA stepsB : List ReplicaStep)
      (a b : Replica engine), Replica.follow engine log stepsA = some a →
        Replica.follow engine log stepsB = some b →
          ∃ b', b.onSnapshotLoad a.onSnapshotSave.2 = some b' ∧ b'.origin = a.origin ∧
            RaftNN.applyLog b'.origin (log.drop a.applied) = RaftNN.applyLog .empty log := by
  intro h
  let log : List Entry := [.opMkdir (.getDefaultDir "/a".toList)]
  have hruns : (Replica.follow .list log [.next]).any (fun a ↦
      decide (ValidAt a.origin "/a".toList)) = true := by decide +kernel
  obtain ⟨a, ha, hvalid⟩ := (Option.any_eq_true _ _).mp hruns
  have hvalid := of_decide_eq_true hvalid
  obtain ⟨b', hload, hsame, -⟩ := h .list log [.next] [.save] a _ ha rfl
  obtain rfl := Option.some.inj hload
  obtain ⟨i, hi, -⟩ := hsame ▸ hvalid
  cases hi

end Spkdfs
