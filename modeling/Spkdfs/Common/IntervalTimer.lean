import Spkdfs.Library.Runs

namespace Spkdfs

open Library

/-- Where the thread of a timer is. It has the mutex while `runFunc` runs, and gives it back to
wait. -/
inductive TimerPlace
  | starting
  | waiting (notified : Bool)
  | running
  /-- In `timeoutFunc`, after a `TimeoutException`. -/
  | handling
  | ended
  /-- An exception has left the thread, and that is the end of the process. -/
  | terminated
deriving DecidableEq

/-- Where the call of `stop` is. -/
inductive StopPlace
  | idle
  | called
  | cleared
  | joining
  | returned
deriving DecidableEq

inductive RunResult
  | returned
  | timeout
  | threw
deriving DecidableEq

/-- A timer; `runs` counts the calls of `runFunc`. -/
structure IntervalTimer where
  running : Bool := true
  thread : TimerPlace := .starting
  stop : StopPlace := .idle
  joined : Bool := false
  runs : Nat := 0
deriving DecidableEq

inductive TimerStep
  | start
  /-- `wait_for` returns since the interval is over, or for no reason. -/
  | elapse
  | notified
  | finish (result : RunResult)
  | handled (returns : Bool)
  | stop
  | clear
  | notify
  | join
deriving DecidableEq

def TimerPlace.waits : TimerPlace → Bool
  | .waiting _ => true
  | _ => false

/-- `notify_one`. -/
def TimerPlace.wake : TimerPlace → TimerPlace
  | .waiting _ => .waiting true
  | place => place

@[simp] theorem TimerPlace.wake_eq_running {place : TimerPlace} :
    place.wake = .running ↔ place = .running := by
  cases place <;> simp [wake]

@[simp] theorem TimerPlace.wake_eq_ended {place : TimerPlace} :
    place.wake = .ended ↔ place = .ended := by
  cases place <;> simp [wake]

theorem TimerPlace.wake_ne_waiting (place : TimerPlace) : place.wake ≠ .waiting false := by
  cases place <;> simp [wake]

/-- The steps of a timer outside its functions. -/
def TimerStep.outside : TimerStep → Bool
  | .finish _ | .handled _ => false
  | _ => true

/-- No exception is under way in the thread. -/
def TimerPlace.Spared (place : TimerPlace) : Prop := place ≠ .handling ∧ place ≠ .terminated

namespace IntervalTimer

/-- The condition of the loop, and the wait. -/
def loop (t : IntervalTimer) : IntervalTimer :=
  { t with thread := if t.running then .waiting false else .ended }

/-- After the wait the thread has the mutex again. -/
def awake (t : IntervalTimer) : IntervalTimer :=
  if t.running then { t with thread := .running, runs := t.runs + 1 } else t.loop

def finished (t : IntervalTimer) : RunResult → IntervalTimer
  | .returned => t.loop
  | .timeout => { t with thread := .handling }
  | .threw => { t with thread := .terminated }

def step (t : IntervalTimer) (a : TimerStep) : Option IntervalTimer :=
  if t.thread = .terminated then none
  else match a with
  | .start => if t.thread = .starting then some t.loop else none
  | .elapse => if t.thread.waits then some t.awake else none
  | .notified => if t.thread = .waiting true then some t.awake else none
  | .finish result => if t.thread = .running then some (t.finished result) else none
  | .handled returns =>
    if t.thread = .handling then
      some { t with thread := if returns then .ended else .terminated }
    else none
  | .stop =>
    if t.stop = .idle ∨ t.stop = .returned then some { t with stop := .called } else none
  -- the thread does not have the mutex
  | .clear =>
    if t.stop = .called ∧ t.thread ≠ .running then
      some { t with running := false, stop := .cleared }
    else none
  | .notify =>
    if t.stop = .cleared then some { t with stop := .joining, thread := t.thread.wake } else none
  | .join =>
    if t.stop = .joining ∧ (t.joined = true ∨ t.thread = .ended) then
      some { t with stop := .returned, joined := true }
    else none

/-- What the thread and the caller of `stop` do by themselves, with a `runFunc` and a `timeoutFunc`
that return. -/
def Own (_ : IntervalTimer) : TimerStep → Prop
  | .elapse | .stop => False
  | .finish result => result = .returned
  | .handled returns => returns = true
  | _ => True

/-- How `stop` and the thread stand to each other. A thread that waits while `stop` joins has been
notified. -/
structure Sound (t : IntervalTimer) : Prop where
  running : t.running = true ↔ (t.stop = .idle ∨ t.stop = .called) ∧ t.joined = false
  stopped : t.running = false → t.thread ≠ .running
  joining : t.stop = .joining → t.thread ≠ .waiting false
  joined : t.joined = true → t.thread = .ended
  returned : t.stop = .returned → t.joined = true

variable {t u : IntervalTimer} {a : TimerStep}

theorem sound_new : Sound {} := by
  refine ⟨by simp, fun h ↦ ?_, fun h ↦ ?_, fun h ↦ ?_, fun h ↦ ?_⟩ <;> cases h

namespace Sound

theorem running_eq_false (h : t.Sound) (hi : t.stop ≠ .idle) (hc : t.stop ≠ .called) :
    t.running = false := by
  refine eq_false_of_ne_true fun hr ↦ ?_
  rcases (h.running.mp hr).1 with he | he
  · exact hi he
  · exact hc he

theorem joined_eq_false (h : t.Sound) (hp : t.thread ≠ .ended) : t.joined = false :=
  eq_false_of_ne_true fun hj ↦ hp (h.joined hj)

/-- The thread moves on. -/
theorem moves {place : TimerPlace} {runs : Nat} (h : t.Sound) (hp : t.thread ≠ .ended)
    (hrun : place = .running → t.running = true)
    (hwait : place = .waiting false → t.running = true) :
    Sound { t with thread := place, runs := runs } where
  running := h.running
  stopped hno hplace := by
    rw [hrun hplace] at hno
    cases hno
  joining hjoin hplace := by
    have hcall : t.stop = .joining := hjoin
    have hno := h.running_eq_false (by simp [hcall]) (by simp [hcall])
    rw [hwait hplace] at hno
    cases hno
  joined hj := by
    rw [h.joined_eq_false hp] at hj
    cases hj
  returned := h.returned

theorem loop (h : t.Sound) (hp : t.thread ≠ .ended) : t.loop.Sound := by
  refine h.moves hp (fun he ↦ ?_) fun he ↦ ?_
  · split at he <;> cases he
  · split at he
    · assumption
    · cases he

theorem awake (h : t.Sound) (hp : t.thread ≠ .ended) : t.awake.Sound := by
  rw [IntervalTimer.awake]
  split
  · rename_i hr
    exact h.moves hp (fun _ ↦ hr) fun _ ↦ hr
  · exact h.loop hp

theorem step (h : t.Sound) (hs : t.step a = some u) : u.Sound := by
  unfold IntervalTimer.step at hs
  rw [Option.ite_none_left_eq_some] at hs
  obtain ⟨-, hs⟩ := hs
  cases a with
  | start =>
    obtain ⟨hp, hu⟩ := Option.ite_none_right_eq_some.mp hs
    exact Option.some.inj hu ▸ h.loop (by simp [hp])
  | elapse =>
    obtain ⟨hp, hu⟩ := Option.ite_none_right_eq_some.mp hs
    exact Option.some.inj hu ▸ h.awake fun he ↦ by rw [he] at hp; cases hp
  | notified =>
    obtain ⟨hp, hu⟩ := Option.ite_none_right_eq_some.mp hs
    exact Option.some.inj hu ▸ h.awake (by simp [hp])
  | finish result =>
    obtain ⟨hp, hu⟩ := Option.ite_none_right_eq_some.mp hs
    obtain rfl := Option.some.inj hu
    have hne : t.thread ≠ .ended := by simp [hp]
    cases result with
    | returned => exact h.loop hne
    | timeout | threw => exact h.moves hne (fun he ↦ by cases he) fun he ↦ by cases he
  | handled returns =>
    obtain ⟨hp, hu⟩ := Option.ite_none_right_eq_some.mp hs
    obtain rfl := Option.some.inj hu
    have hne : t.thread ≠ .ended := by simp [hp]
    cases returns with
    | true | false => exact h.moves hne (fun he ↦ by cases he) fun he ↦ by cases he
  | stop =>
    obtain ⟨hc, hu⟩ := Option.ite_none_right_eq_some.mp hs
    obtain rfl := Option.some.inj hu
    refine ⟨?_, h.stopped, fun he ↦ (by cases he), h.joined, fun he ↦ (by cases he)⟩
    rw [h.running]
    rcases hc with hc | hc
    · simp [hc]
    · simp [hc, h.returned hc]
  | clear =>
    obtain ⟨⟨-, hp⟩, hu⟩ := Option.ite_none_right_eq_some.mp hs
    obtain rfl := Option.some.inj hu
    exact ⟨by simp, fun _ ↦ hp, fun he ↦ (by cases he), h.joined, fun he ↦ (by cases he)⟩
  | notify =>
    obtain ⟨hc, hu⟩ := Option.ite_none_right_eq_some.mp hs
    obtain rfl := Option.some.inj hu
    have hno := h.running_eq_false (by simp [hc]) (by simp [hc])
    refine ⟨by simp [hno], fun _ hp ↦ ?_, fun _ ↦ t.thread.wake_ne_waiting, fun hj ↦ ?_,
      fun he ↦ (by cases he)⟩
    · exact h.stopped hno (TimerPlace.wake_eq_running.mp hp)
    · exact TimerPlace.wake_eq_ended.mpr (h.joined hj)
  | join =>
    obtain ⟨⟨hc, hp⟩, hu⟩ := Option.ite_none_right_eq_some.mp hs
    obtain rfl := Option.some.inj hu
    have hno := h.running_eq_false (by simp [hc]) (by simp [hc])
    exact ⟨by simp [hno], h.stopped, fun he ↦ (by cases he), fun _ ↦ hp.elim h.joined id,
      fun _ ↦ rfl⟩

/-- Once the flag is cleared, the function is not called. -/
theorem runs_eq (hno : t.running = false) (hs : t.step a = some u) :
    u.running = false ∧ u.runs = t.runs := by
  have hawake : t.awake = t.loop := by rw [IntervalTimer.awake, hno, if_neg Bool.false_ne_true]
  unfold IntervalTimer.step at hs
  rw [Option.ite_none_left_eq_some] at hs
  obtain ⟨-, hs⟩ := hs
  cases a with
  | finish result =>
    obtain ⟨-, hu⟩ := Option.ite_none_right_eq_some.mp hs
    obtain rfl := Option.some.inj hu
    cases result with
    | returned | timeout | threw => exact ⟨hno, rfl⟩
  | elapse | notified =>
    obtain ⟨-, hu⟩ := Option.ite_none_right_eq_some.mp hs
    obtain rfl := Option.some.inj hu
    rw [hawake]
    exact ⟨hno, rfl⟩
  | clear =>
    obtain ⟨-, hu⟩ := Option.ite_none_right_eq_some.mp hs
    obtain rfl := Option.some.inj hu
    exact ⟨rfl, rfl⟩
  | start | handled | stop | notify | join =>
    obtain ⟨-, hu⟩ := Option.ite_none_right_eq_some.mp hs
    obtain rfl := Option.some.inj hu
    exact ⟨hno, rfl⟩

end Sound

/-- Outside its functions a timer does not leave them. -/
theorem thread_outside (ha : a.outside = true) (hp : t.thread = .running ∨ t.thread = .handling)
    (hs : t.step a = some u) : u.thread = t.thread := by
  unfold IntervalTimer.step at hs
  rw [Option.ite_none_left_eq_some] at hs
  obtain ⟨-, hs⟩ := hs
  cases a with
  | finish | handled => cases ha
  | start | elapse | notified =>
    obtain ⟨he, -⟩ := Option.ite_none_right_eq_some.mp hs
    rcases hp with hp | hp <;> rw [hp] at he <;> cases he
  | stop | clear | join =>
    obtain ⟨-, hu⟩ := Option.ite_none_right_eq_some.mp hs
    obtain rfl := Option.some.inj hu
    rfl
  | notify =>
    obtain ⟨-, hu⟩ := Option.ite_none_right_eq_some.mp hs
    obtain rfl := Option.some.inj hu
    rcases hp with hp | hp <;> simp only [hp, TimerPlace.wake]

theorem spared_loop (t : IntervalTimer) : t.loop.thread.Spared := by
  rw [IntervalTimer.loop]
  split <;> exact ⟨by simp, by simp⟩

theorem spared_finish (hs : t.step (.finish .returned) = some u) : u.thread.Spared := by
  obtain ⟨-, hs⟩ := Option.ite_none_left_eq_some.mp hs
  obtain ⟨-, hu⟩ := Option.ite_none_right_eq_some.mp hs
  exact Option.some.inj hu ▸ t.spared_loop

theorem spared_outside (h : t.thread.Spared) (ha : a.outside = true) (hs : t.step a = some u) :
    u.thread.Spared := by
  unfold IntervalTimer.step at hs
  rw [Option.ite_none_left_eq_some] at hs
  obtain ⟨-, hs⟩ := hs
  cases a with
  | finish | handled => cases ha
  | start =>
    obtain ⟨-, hu⟩ := Option.ite_none_right_eq_some.mp hs
    exact Option.some.inj hu ▸ t.spared_loop
  | elapse | notified =>
    obtain ⟨-, hu⟩ := Option.ite_none_right_eq_some.mp hs
    obtain rfl := Option.some.inj hu
    rw [IntervalTimer.awake]
    split
    · exact ⟨by simp, by simp⟩
    · exact t.spared_loop
  | stop | clear | join =>
    obtain ⟨-, hu⟩ := Option.ite_none_right_eq_some.mp hs
    exact Option.some.inj hu ▸ h
  | notify =>
    obtain ⟨-, hu⟩ := Option.ite_none_right_eq_some.mp hs
    obtain rfl := Option.some.inj hu
    obtain ⟨hhandling, hterminated⟩ := h
    cases hp : t.thread with
    | handling => exact absurd hp hhandling
    | terminated => exact absurd hp hterminated
    | starting | waiting | running | ended =>
      exact ⟨by simp [TimerPlace.wake], by simp [TimerPlace.wake]⟩

theorem step_terminated (a : TimerStep) (hp : t.thread = .terminated) : t.step a = none := by
  rw [IntervalTimer.step.eq_def, if_pos hp]

/-- How far `stop` is from its return. -/
def distance (t : IntervalTimer) : Nat :=
  (match t.stop with
    | .called => 12
    | .cleared => 8
    | .joining => 4
    | .idle | .returned => 0) +
  match t.thread with
  | .running => 3
  | .starting => 2
  | .waiting _ | .handling => 1
  | .ended | .terminated => 0

/-- While `stop` is under way. -/
structure Stopping (runs : Nat) (t : IntervalTimer) : Prop where
  sound : t.Sound
  called : t.stop ≠ .idle
  alive : t.thread ≠ .terminated
  runs : t.runs = runs

theorem Stopping.advances {runs : Nat} (h : Stopping runs t) (hr : t.stop ≠ .returned) :
    ∃ a u, Own t a ∧ t.step a = some u ∧ Stopping runs u ∧ u.distance < t.distance := by
  obtain ⟨hsound, hcalled, halive, hruns⟩ := h
  have hnext : ∀ a u, Own t a → t.step a = some u → u.stop ≠ .idle → u.thread ≠ .terminated →
      u.runs = t.runs → u.distance < t.distance →
        ∃ a u, Own t a ∧ t.step a = some u ∧ Stopping runs u ∧ u.distance < t.distance :=
    fun a u ho hs hc ha hu hd ↦ ⟨a, u, ho, hs, ⟨hsound.step hs, hc, ha, hu.trans hruns⟩, hd⟩
  obtain ⟨running, thread, stop, joined, runs'⟩ := t
  cases stop with
  | idle => exact absurd rfl hcalled
  | returned => exact absurd rfl hr
  | called =>
    by_cases hrun : thread = .running
    · -- the function returns, and the mutex is free
      subst hrun
      refine hnext (.finish .returned) _ rfl rfl hcalled ?_ rfl ?_
      · cases running <;> simp [finished, loop]
      · cases running <;> simp [finished, loop, distance]
    · have hs : step ⟨running, thread, .called, joined, runs'⟩ .clear =
          some ⟨false, thread, .cleared, joined, runs'⟩ := by
        rw [step.eq_def, if_neg halive]
        exact if_pos ⟨rfl, hrun⟩
      exact hnext .clear _ trivial hs (by simp) halive rfl (by simp [distance])
  | cleared =>
    have hs : step ⟨running, thread, .cleared, joined, runs'⟩ .notify =
        some ⟨running, thread.wake, .joining, joined, runs'⟩ := by
      rw [step.eq_def, if_neg halive]
      rfl
    refine hnext .notify _ trivial hs (by simp) ?_ rfl ?_
    · cases thread <;> simp [TimerPlace.wake] at halive ⊢
    · cases thread <;> simp [TimerPlace.wake, distance]
  | joining =>
    have hno : running = false := hsound.running_eq_false hcalled (by simp)
    subst hno
    cases thread with
    | starting =>
      exact hnext .start _ trivial rfl hcalled (by simp [loop]) rfl (by simp [loop, distance])
    | waiting notified =>
      cases notified with
      | false => exact absurd rfl (hsound.joining rfl)
      | true =>
        exact hnext .notified _ trivial rfl hcalled (by simp [awake, loop]) rfl
          (by simp [awake, loop, distance])
    | running => exact absurd rfl (hsound.stopped rfl)
    | handling =>
      exact hnext (.handled true) _ rfl rfl hcalled (by simp) rfl (by simp [distance])
    | ended =>
      have hs : step ⟨false, .ended, .joining, joined, runs'⟩ .join =
          some ⟨false, .ended, .returned, true, runs'⟩ := by
        rw [step.eq_def, if_neg halive]
        exact if_pos ⟨rfl, .inr rfl⟩
      exact hnext .join _ trivial hs (by simp) halive rfl (by simp [distance])
    | terminated => exact absurd rfl halive

/-- However the thread and the calls of `stop` take turns: the function is not called any more once
`stop` has had the mutex, the thread is over when `stop` returns, and `stop` can always return, as
soon as a function that is running has returned and without a wait for the end of the interval. -/
theorem stop_ends_timer (h : Reaches step (fun _ _ ↦ True) {} t) :
    (t.stop = .returned → t.thread = .ended) ∧
      (t.running = false → ∀ u, Reaches step (fun _ _ ↦ True) t u → u.runs = t.runs) ∧
      (t.stop ≠ .idle → t.thread ≠ .terminated →
        ∃ u, Reaches step Own t u ∧ u.stop = .returned ∧ u.runs = t.runs) := by
  have hsound : t.Sound := h.invariant sound_new fun _ _ _ _ ht _ hs ↦ ht.step hs
  refine ⟨fun hr ↦ hsound.joined (hsound.returned hr), fun hno u hu ↦ ?_, fun hc ha ↦ ?_⟩
  · have hkept : u.running = false ∧ u.runs = t.runs := by
      refine hu.invariant (I := fun u ↦ u.running = false ∧ u.runs = t.runs) ⟨hno, rfl⟩ ?_
      intro v a w _ hv _ hs
      obtain ⟨hw, hruns⟩ := Sound.runs_eq hv.1 hs
      exact ⟨hw, hruns.trans hv.2⟩
    exact hkept.2
  · have hstopping : Stopping t.runs t := ⟨hsound, hc, ha, rfl⟩
    obtain ⟨u, hu, hkept, hend⟩ : ∃ u, Reaches step Own t u ∧ Stopping t.runs u ∧
        u.stop = .returned := exists_end distance hstopping fun _ hv hne ↦ hv.advances hne
    exact ⟨u, hu, hend, hkept.runs⟩

/-- The function is running when `stop` is called. -/
theorem stop_ends_timer_running : ∃ t u : IntervalTimer, t.thread = .running ∧ t.stop = .called ∧
    Reaches step Own t u ∧ u.stop = .returned ∧ u.runs = 1 := by
  obtain ⟨t, hr, ht⟩ := exists_reached step (fun _ _ ↦ true) {} [.start, .elapse, .stop]
    (fun t ↦ decide (t = ⟨true, .running, .called, false, 1⟩)) (by decide)
  obtain rfl := of_decide_eq_true ht
  obtain ⟨-, -, hend⟩ := stop_ends_timer (hr.mono fun _ _ _ ↦ trivial)
  obtain ⟨u, hu, hreturned, hruns⟩ := hend (by decide) (by decide)
  exact ⟨_, u, rfl, rfl, hu, hreturned, hruns⟩

end IntervalTimer

end Spkdfs
