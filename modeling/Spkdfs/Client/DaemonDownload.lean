import Spkdfs.Client.DaemonUpload
import Spkdfs.Library.Runs

namespace Spkdfs

open Library Function

/-- The threads that download, each with a queue of its own. -/
inductive DownloadThread
  | localFile
  | remoteFile
deriving DecidableEq

/-- Where such a thread is in its loop. It is asleep while it waits to be notified. -/
inductive DownloadPlace
  | head
  | waiting
  | asleep
  | woken
  | handling (task : Str × Str)
  | tail
  | exited
deriving DecidableEq

/-- A queue with its thread. `notifying` are the calls that have queued a task and not yet notified
the thread, `handled` the tasks that were copied or got, and which of them failed. -/
structure DownloadQueue where
  que : List (Str × Str) := []
  place : DownloadPlace := .head
  notifying : Nat := 0
  handled : List ((Str × Str) × Bool) := []

namespace DownloadPlace

/-- The thread has the mutex of its queue from the end of its wait to that of the turn, also while
it copies. -/
def locked : DownloadPlace → Bool
  | .woken | .handling _ | .tail => true
  | .head | .waiting | .asleep | .exited => false

/-- The task that has left the queue and is not handled yet. -/
def task : DownloadPlace → List (Str × Str)
  | .handling task => [task]
  | .head | .waiting | .asleep | .woken | .tail | .exited => []

end DownloadPlace

inductive QueueStep
  | push (task : Str × Str)
  | notify
  | wake
  | turn (fails : Bool)

namespace DownloadQueue

/-- A step of the loop. A fault of `copy` or `get` is caught. -/
def fileDownload (q : DownloadQueue) (stop fails : Bool) : Option DownloadQueue :=
  match q.place with
  | .head => some { q with place := if stop then .exited else .waiting }
  -- takes the mutex, and gives it back to sleep
  | .waiting => some { q with place := if q.que ≠ [] ∨ stop then .woken else .asleep }
  | .asleep => none
  | .woken =>
    match q.que with
    | [] => some { q with place := .tail }
    | task :: que => some { q with que, place := .handling task }
  | .handling task => some { q with handled := q.handled ++ [(task, fails)], place := .tail }
  | .tail => some { q with place := if stop ∧ q.que = [] then .exited else .head }
  | .exited => none

/-- What happens at a queue. A thread may wake without being notified. -/
def step (stop : Bool) (q : DownloadQueue) : QueueStep → Option DownloadQueue
  | .push task =>
    if q.place.locked then none
    else some { q with que := q.que ++ [task], notifying := q.notifying + 1 }
  | .notify =>
    if q.notifying = 0 then none
    else some { q with
      place := if q.place = .asleep then .waiting else q.place
      notifying := q.notifying - 1 }
  | .wake => if q.place = .asleep then some { q with place := .waiting } else none
  | .turn fails => q.fileDownload stop fails

end DownloadQueue

/-- `asked` are the downloads that were queued. -/
structure DaemonDownload where
  stop : Bool := false
  queue : DownloadThread → DownloadQueue := fun _ ↦ {}
  asked : List (Source × Str) := []

/-- The thread that reads from a source, and the path it reads. -/
def Source.thread : Source → Option (DownloadThread × Str)
  | .localFile path => path.map (.localFile, ·)
  | .remoteFile path => some (.remoteFile, path)

inductive DownloadStep
  | download (bigQue bigMap smallQue smallMap : Uploads) (src dst : Str)
  | notify (thread : DownloadThread)
  | wake (thread : DownloadThread)
  | turn (thread : DownloadThread) (fails : Bool)
  | stop

namespace DaemonDownload

def queueStep (m : DaemonDownload) (thread : DownloadThread) (a : QueueStep) :
    Option DaemonDownload :=
  ((m.queue thread).step m.stop a).map fun q ↦ { m with queue := update m.queue thread q }

def threadLocalFileDownload (m : DaemonDownload) (fails : Bool) : Option DaemonDownload :=
  m.queueStep .localFile (.turn fails)

def threadRemoteFileDownload (m : DaemonDownload) (fails : Bool) : Option DaemonDownload :=
  m.queueStep .remoteFile (.turn fails)

/-- `stop` sets `_stop` and notifies nobody; it goes on when both threads have exited. -/
def step (m : DaemonDownload) : DownloadStep → Option DaemonDownload
  | .download bigQue bigMap smallQue smallMap src dst =>
    let source := Spkdfs.download bigQue bigMap smallQue smallMap src
    source.thread.bind fun (thread, path) ↦
      (m.queueStep thread (.push (path, dst))).map fun m ↦
        { m with asked := m.asked ++ [(source, dst)] }
  | .notify thread => m.queueStep thread .notify
  | .wake thread => m.queueStep thread .wake
  | .turn .localFile fails => m.threadLocalFileDownload fails
  | .turn .remoteFile fails => m.threadRemoteFileDownload fails
  | .stop => some { m with stop := true }

/-- The task of a thread that a call queues. -/
def taskFor (thread : DownloadThread) (call : Source × Str) : Option (Str × Str) :=
  call.1.thread.bind fun (t, path) ↦ if t = thread then some (path, call.2) else none

/-- The tasks that were queued for a thread. -/
def tasks (m : DaemonDownload) (thread : DownloadThread) : List (Str × Str) :=
  m.asked.filterMap (taskFor thread)

end DaemonDownload

namespace QueueStep

def pushed : QueueStep → List (Str × Str)
  | .push task => [task]
  | .notify | .wake | .turn _ => []

/-- A step of the threads and of calls that have queued their tasks already. -/
def Own : QueueStep → Prop
  | .notify | .turn _ => True
  | .push _ | .wake => False

end QueueStep

namespace DownloadQueue

variable {q q' : DownloadQueue} {stop : Bool} {queued : List (Str × Str)} {a : QueueStep}

/-- What a place says of the queue: no task waits for a thread that is not going to see it. -/
def Attends (stop : Bool) (q : DownloadQueue) : DownloadPlace → Prop
  | .asleep => q.que ≠ [] → 0 < q.notifying
  | .woken => q.que = [] → stop = true
  | .exited => stop = true
  | .head | .waiting | .handling _ | .tail => True

/-- No task is lost or taken twice or out of order. -/
structure Kept (stop : Bool) (queued : List (Str × Str)) (q : DownloadQueue) : Prop where
  order : q.handled.map (·.1) ++ q.place.task ++ q.que = queued
  attends : q.Attends stop q.place

theorem Kept.stopped (h : q.Kept stop queued) : q.Kept true queued := by
  refine ⟨h.order, ?_⟩
  have hattends := h.attends
  cases hp : q.place with
  | asleep => rwa [hp] at hattends
  | woken => exact fun _ ↦ rfl
  | exited => rfl
  | head | waiting | handling | tail => trivial

theorem Kept.fileDownload {fails : Bool} (h : q.Kept stop queued)
    (hs : q.fileDownload stop fails = some q') : q'.Kept stop queued := by
  obtain ⟨que, place, notifying, handled⟩ := q
  obtain ⟨horder, -⟩ := h
  cases place with
  | head =>
    obtain rfl := Option.some.inj hs
    cases stop with
    | false => exact ⟨horder, trivial⟩
    | true => exact ⟨horder, rfl⟩
  | waiting =>
    obtain rfl := Option.some.inj hs
    by_cases hgo : que ≠ [] ∨ stop
    · rw [if_pos hgo]
      exact ⟨horder, fun hnil ↦ hgo.resolve_left (not_not_intro hnil)⟩
    · rw [if_neg hgo]
      exact ⟨horder, fun hque ↦ absurd (.inl hque) hgo⟩
  | woken =>
    cases que with
    | nil =>
      obtain rfl := Option.some.inj hs
      exact ⟨horder, trivial⟩
    | cons task que =>
      obtain rfl := Option.some.inj hs
      exact ⟨by simpa [DownloadPlace.task] using horder, trivial⟩
  | handling task =>
    obtain rfl := Option.some.inj hs
    exact ⟨by simpa [DownloadPlace.task] using horder, trivial⟩
  | tail =>
    obtain rfl := Option.some.inj hs
    by_cases hleave : stop ∧ que = []
    · rw [if_pos hleave]
      exact ⟨horder, hleave.1⟩
    · rw [if_neg hleave]
      exact ⟨horder, trivial⟩
  | asleep | exited => cases hs

theorem Kept.step (h : q.Kept stop queued) (hs : q.step stop a = some q') :
    q'.Kept stop (queued ++ a.pushed) := by
  cases a with
  | push task =>
    obtain ⟨hfree, hs⟩ := Option.ite_none_left_eq_some.mp hs
    obtain rfl := Option.some.inj hs
    refine ⟨?_, ?_⟩
    · rw [← h.order]
      simp [QueueStep.pushed]
    · have hattends := h.attends
      simp only
      cases hp : q.place with
      | asleep => exact fun _ ↦ Nat.succ_pos _
      | exited => rwa [hp] at hattends
      | woken | handling | tail => exact absurd (congrArg DownloadPlace.locked hp) hfree
      | head | waiting => trivial
  | notify =>
    obtain ⟨-, hs⟩ := Option.ite_none_left_eq_some.mp hs
    obtain rfl := Option.some.inj hs
    obtain ⟨horder, hattends⟩ := h
    rw [QueueStep.pushed, List.append_nil]
    by_cases hp : q.place = .asleep
    · rw [if_pos hp]
      exact ⟨by simpa [hp, DownloadPlace.task] using horder, trivial⟩
    · rw [if_neg hp]
      refine ⟨horder, ?_⟩
      simp only
      cases hq : q.place with
      | asleep => exact absurd hq hp
      | woken | exited => rwa [hq] at hattends
      | head | waiting | handling | tail => trivial
  | wake =>
    obtain ⟨hp, hs⟩ := Option.ite_none_right_eq_some.mp hs
    obtain rfl := Option.some.inj hs
    rw [QueueStep.pushed, List.append_nil]
    exact ⟨by simpa [hp, DownloadPlace.task] using h.order, trivial⟩
  | turn fails =>
    rw [QueueStep.pushed, List.append_nil]
    exact h.fileDownload hs

/-- How many steps of its own a queue can make until all is handled. -/
def distance (q : DownloadQueue) : Nat :=
  5 * q.que.length + 3 * q.notifying + match q.place with
    | .handling _ => 5
    | .tail => 4
    | .head => 3
    | .waiting => 2
    | .woken => 1
    | .asleep | .exited => 0

def Finished (q : DownloadQueue) : Prop := q.que = [] ∧ q.place.task = []

/-- A thread that has not been stopped has something to do until all is handled. -/
theorem Kept.exists_turn (h : q.Kept false queued) (hmore : ¬ q.Finished) :
    ∃ a q', a.Own ∧ q.step false a = some q' ∧ q'.Kept false queued ∧ q'.distance < q.distance := by
  have hkept : ∀ a q', a.Own → q.step false a = some q' → q'.Kept false queued := by
    intro a q' ha hs
    have hq := h.step hs
    cases a with
    | notify | turn => rwa [QueueStep.pushed, List.append_nil] at hq
    | push | wake => exact ha.elim
  suffices hstep : ∃ a q', a.Own ∧ q.step false a = some q' ∧ q'.distance < q.distance by
    obtain ⟨a, q', ha, hs, hlt⟩ := hstep
    exact ⟨a, q', ha, hs, hkept a q' ha hs, hlt⟩
  obtain ⟨que, place, notifying, handled⟩ := q
  obtain ⟨-, hattends⟩ := h
  cases place with
  | head => exact ⟨.turn false, _, trivial, rfl, by simp [distance]⟩
  | waiting =>
    refine ⟨.turn false, _, trivial, rfl, ?_⟩
    simp only [distance]
    split_ifs <;> simp
  | asleep =>
    have hque : que ≠ [] := fun hnil ↦ hmore ⟨hnil, rfl⟩
    have hpos : 0 < notifying := hattends hque
    refine ⟨.notify, _, trivial, if_neg hpos.ne', ?_⟩
    simp only [distance, if_true]
    omega
  | woken =>
    cases que with
    | nil => exact absurd (hattends rfl) Bool.false_ne_true
    | cons task que =>
      refine ⟨.turn false, _, trivial, rfl, ?_⟩
      simp only [distance, List.length_cons]
      omega
  | handling task => exact ⟨.turn false, _, trivial, rfl, by simp [distance]⟩
  | tail =>
    refine ⟨.turn false, _, trivial, rfl, ?_⟩
    simp [distance]
  | exited => exact absurd hattends Bool.false_ne_true

/-- A thread that sleeps and that nobody is going to notify. -/
def Forsaken (q : DownloadQueue) : Prop := q.place = .asleep ∧ q.notifying = 0

theorem Forsaken.step (h : q.Forsaken) (ha : a.Own) (hs : q.step stop a = some q') : False := by
  obtain ⟨hp, hnone⟩ := h
  cases a with
  | notify =>
    rw [DownloadQueue.step, if_pos hnone] at hs
    cases hs
  | turn fails =>
    rw [DownloadQueue.step, fileDownload, hp] at hs
    cases hs
  | push | wake => exact ha

/-- The tasks that were taken from the queue. -/
def begun (q : DownloadQueue) : Nat := q.handled.length + q.place.task.length

/-- One more than that while the thread has passed the test of `_stop` and not yet taken a task. -/
def committed (q : DownloadQueue) : Nat :=
  q.begun + match q.place with
    | .waiting | .asleep | .woken => 1
    | .head | .handling _ | .tail | .exited => 0

end DownloadQueue

namespace DownloadStep

/-- A step of the threads, or the notification of a call that has queued its task already. -/
def Own : DownloadStep → Prop
  | .notify _ | .turn _ _ => True
  | .download .. | .wake _ | .stop => False

end DownloadStep

namespace DaemonDownload

variable {m m' : DaemonDownload} {a : DownloadStep} {t : DownloadThread}

theorem queueStep_cases {thread : DownloadThread} {b : QueueStep}
    (h : m.queueStep thread b = some m') :
    m'.stop = m.stop ∧ m'.asked = m.asked ∧
      (m.queue thread).step m.stop b = some (m'.queue thread) ∧
      ∀ t, t ≠ thread → m'.queue t = m.queue t := by
  obtain ⟨q, hq, rfl⟩ := Option.map_eq_some_iff.mp h
  exact ⟨rfl, rfl, by simp only [hq, update_self], fun t ht ↦ update_of_ne ht ..⟩

/-- What a step does to the queue of a thread, and to what was queued for it. -/
theorem step_cases (h : m.step a = some m') (t : DownloadThread) :
    (m.stop = true → m'.stop = true) ∧
      (m'.queue t = m.queue t ∧ m'.tasks t = m.tasks t ∨
        m'.stop = m.stop ∧ ∃ b, (a.Own → b.Own) ∧
          (m.queue t).step m.stop b = some (m'.queue t) ∧ m'.tasks t = m.tasks t ++ b.pushed) := by
  have hqueue : ∀ {thread b}, m.queueStep thread b = some m' → b.pushed = [] → (a.Own → b.Own) →
      (m.stop = true → m'.stop = true) ∧
      (m'.queue t = m.queue t ∧ m'.tasks t = m.tasks t ∨
        m'.stop = m.stop ∧ ∃ b, (a.Own → b.Own) ∧
          (m.queue t).step m.stop b = some (m'.queue t) ∧
            m'.tasks t = m.tasks t ++ b.pushed) := by
    intro thread b hb hpushed hown
    obtain ⟨hstop, hasked, hstep, hother⟩ := queueStep_cases hb
    refine ⟨fun hm ↦ hstop.trans hm, ?_⟩
    have htasks : m'.tasks t = m.tasks t := by rw [tasks, tasks, hasked]
    by_cases ht : t = thread
    · subst ht
      exact .inr ⟨hstop, b, hown, hstep, by rw [hpushed, List.append_nil, htasks]⟩
    · exact .inl ⟨hother t ht, htasks⟩
  cases a with
  | notify thread => exact hqueue h rfl fun _ ↦ trivial
  | wake thread => exact hqueue h rfl id
  | turn thread fails =>
    cases thread with
    | localFile | remoteFile => exact hqueue h rfl fun _ ↦ trivial
  | stop =>
    obtain rfl := Option.some.inj h
    exact ⟨fun _ ↦ rfl, .inl ⟨rfl, rfl⟩⟩
  | download bigQue bigMap smallQue smallMap src dst =>
    obtain ⟨⟨thread, path⟩, hthread, h⟩ := Option.bind_eq_some_iff.mp h
    obtain ⟨m₁, hm₁, rfl⟩ := Option.map_eq_some_iff.mp h
    obtain ⟨hstop, hasked, hstep, hother⟩ := queueStep_cases hm₁
    refine ⟨fun hm ↦ hstop.trans hm, ?_⟩
    simp only [tasks, List.filterMap_append, hasked]
    by_cases ht : t = thread
    · subst ht
      refine .inr ⟨hstop, _, False.elim, hstep, ?_⟩
      simp [taskFor, hthread, QueueStep.pushed]
    · refine .inl ⟨hother t ht, ?_⟩
      simp [taskFor, hthread, Ne.symm ht]

def Kept (m : DaemonDownload) : Prop := ∀ t, (m.queue t).Kept m.stop (m.tasks t)

theorem Kept.step (h : m.Kept) (hs : m.step a = some m') : m'.Kept := by
  intro t
  obtain ⟨hstop, hcases⟩ := step_cases hs t
  rcases hcases with ⟨hq, htasks⟩ | ⟨hsame, b, -, hb, htasks⟩
  · rw [hq, htasks]
    cases hm : m'.stop with
    | true => exact (h t).stopped
    | false =>
      have hm₀ : m.stop = false := by
        by_contra hne
        exact Bool.false_ne_true (hm.symm.trans (hstop (Bool.of_not_eq_false hne)))
      exact hm₀ ▸ h t
  · rw [hsame, htasks]
    exact (h t).step hb

theorem kept_of_reaches (h : Reaches step (fun _ _ ↦ True) {} m) : m.Kept :=
  h.invariant (fun _ ↦ ⟨rfl, trivial⟩) fun _ _ _ _ hkept _ hs ↦ hkept.step hs

/-- What a thread does of its own is a step of the daemon. -/
theorem own_step {q q' : DownloadQueue} {b : QueueStep} (hb : b.Own)
    (hs : q.step m.stop b = some q') :
    ∃ a : DownloadStep, a.Own ∧ step { m with queue := update m.queue t q } a =
      some { m with queue := update m.queue t q' } := by
  have hstep : queueStep { m with queue := update m.queue t q } t b =
      some { m with queue := update m.queue t q' } := by
    rw [queueStep]
    simp only [update_self, hs, Option.map_some, update_idem]
  cases b with
  | notify => exact ⟨.notify t, trivial, hstep⟩
  | turn fails =>
    refine ⟨.turn t fails, trivial, ?_⟩
    cases t with
    | localFile | remoteFile => exact hstep
  | push | wake => exact hb.elim

theorem reaches_own {q : DownloadQueue}
    (h : Reaches (DownloadQueue.step m.stop) (fun _ a ↦ a.Own) (m.queue t) q) :
    Reaches step (fun _ a ↦ a.Own) m { m with queue := update m.queue t q } := by
  induction h with
  | refl =>
    rw [update_eq_self]
    exact .refl
  | tail _ hb hs ih =>
    obtain ⟨a, ha, hstep⟩ := own_step (t := t) hb hs
    exact ih.tail ha hstep

/-- Both threads go on by themselves as far as each of them can. -/
theorem exists_own {P : DownloadThread → DownloadQueue → Prop}
    (h : ∀ t, ∃ q, Reaches (DownloadQueue.step m.stop) (fun _ a ↦ a.Own) (m.queue t) q ∧ P t q) :
    ∃ m', Reaches step (fun _ a ↦ a.Own) m m' ∧ m'.asked = m.asked ∧ ∀ t, P t (m'.queue t) := by
  obtain ⟨q, hq, hp⟩ := h .localFile
  obtain ⟨q', hq', hp'⟩ := h .remoteFile
  refine ⟨_, (reaches_own hq).trans (reaches_own (t := .remoteFile) (q := q') hq'), rfl, fun t ↦ ?_⟩
  cases t with
  | localFile => exact hp
  | remoteFile => exact hp'

/-- Downloads are handled in the order in which they were queued for their thread, each once, be it
that it fails. A thread is never left asleep over a task: however the calls and the threads have
interleaved, the threads can handle by themselves all that was asked until the daemon is stopped. -/
theorem downloads_in_order (h : Reaches step (fun _ _ ↦ True) {} m) :
    (∀ t, (m.queue t).handled.map (·.1) ++ (m.queue t).place.task ++ (m.queue t).que = m.tasks t) ∧
      (m.stop = false → ∃ m', Reaches step (fun _ a ↦ a.Own) m m' ∧ m'.asked = m.asked ∧
        ∀ t, (m'.queue t).handled.map (·.1) = m.tasks t) := by
  have hkept := kept_of_reaches h
  refine ⟨fun t ↦ (hkept t).order, fun hstop ↦ ?_⟩
  refine exists_own (P := fun t q ↦ q.handled.map (·.1) = m.tasks t) fun t ↦ ?_
  rw [hstop]
  obtain ⟨q, hq, hq', hnil, htask⟩ : ∃ q,
      Reaches (DownloadQueue.step false) (fun _ a ↦ a.Own) (m.queue t) q ∧
        q.Kept false (m.tasks t) ∧ q.Finished :=
    exists_end DownloadQueue.distance (hstop ▸ hkept t) fun q hq hmore ↦ hq.exists_turn hmore
  have horder := hq'.order
  rw [hnil, htask, List.append_nil, List.append_nil] at horder
  exact ⟨q, hq, horder⟩

/-- The thread of the remote files sleeps when the first download is queued. -/
theorem downloads_in_order_asleep : ∃ m m' : DaemonDownload,
    (m.queue .remoteFile).place = .asleep ∧ Reaches step (fun _ a ↦ a.Own) m m' ∧
      (m'.queue .remoteFile).handled.map (·.1) = [("/a".toList, "/b".toList)] := by
  obtain ⟨m, hr, hp⟩ := exists_reached step (fun _ _ ↦ true) {}
    [.turn .remoteFile false, .turn .remoteFile false,
      .download {} {} {} {} "/a".toList "/b".toList]
    (fun m ↦ decide ((m.queue .remoteFile).place = .asleep ∧ m.stop = false ∧
      m.tasks .remoteFile = [("/a".toList, "/b".toList)])) (by decide)
  obtain ⟨hasleep, hstop, htasks⟩ := of_decide_eq_true hp
  obtain ⟨-, hall⟩ := downloads_in_order (hr.mono fun _ _ _ ↦ trivial)
  obtain ⟨m', hm', -, hhandled⟩ := hall hstop
  exact ⟨m, m', hasleep, hm', (hhandled .remoteFile).trans htasks⟩

end DaemonDownload

end Spkdfs
