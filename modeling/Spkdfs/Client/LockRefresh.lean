import Spkdfs.Client.SDK
import Spkdfs.Common.IntervalTimer
import Spkdfs.Node.LockRequest

namespace Spkdfs

open Library RocksDB

/-- Where the thread of the timer is in the function that refreshes the leases. -/
inductive RefreshPlace
  | checking
  /-- `remoteLocks` is not copied yet. -/
  | copying (retryCount : Nat)
  /-- `update_lock` is under way for the copied paths. -/
  | asking (retryCount : Nat) (paths : List Str)
deriving DecidableEq

/-- A mount with its leader, as far as the refresh of its leases goes. `place` counts while the
timer is in the function. -/
structure LockRefresh where
  leader : Leader
  remoteLocks : List Str := []
  timer : IntervalTimer := {}
  place : RefreshPlace := .checking

inductive RefreshStep
  /-- A step of the leader, for any client. -/
  | leader (action : Action)
  | lock (path : Str)
  | unlock (path : Str)
  | timer (a : TimerStep)
  | check
  | copy
  | answer (response : Response)
  /-- Without an answer of the leader. -/
  | fail
  /-- `timeoutFunc` throws. -/
  | throw

namespace LockRefresh

def finish (t : LockRefresh) (result : RunResult) : Option LockRefresh :=
  (t.timer.step (.finish result)).map fun timer ↦ { t with timer, place := .checking }

/-- The `catch` of the loop. -/
def caught (t : LockRefresh) (retryCount : Nat) : Option LockRefresh :=
  if retryCount ≥ 3 then t.finish .timeout else some { t with place := .copying (retryCount + 1) }

def responses (t : LockRefresh) (paths : List Str) : List Response :=
  Namenode.lockResponses (Namenode.prepare t.leader.store (t.leader.env 0) (.updateLock paths))

def step (t : LockRefresh) : RefreshStep → Option LockRefresh
  | .leader action => (t.leader.step action).map fun leader ↦ { t with leader }
  | .lock path =>
    if t.timer.thread = .terminated then none
    else some { t with remoteLocks := SDK.insertLock path t.remoteLocks }
  | .unlock path =>
    if t.timer.thread = .terminated then none
    else some { t with remoteLocks := t.remoteLocks.filter (· ≠ path) }
  | .timer a => if a.outside then (t.timer.step a).map fun timer ↦ { t with timer } else none
  | .check =>
    if t.timer.thread = .running ∧ t.place = .checking then
      if t.remoteLocks = [] then t.finish .returned else some { t with place := .copying 0 }
    else none
  | .copy =>
    match t.place with
    | .copying retryCount => some { t with place := .asking retryCount t.remoteLocks }
    | _ => none
  | .answer response =>
    match t.place with
    | .asking retryCount paths =>
      if response ∈ t.responses paths then
        (t.leader.step (.prepare 0 (.updateLock paths))).bind fun leader ↦
          if response.success then finish { t with leader } .returned
          else caught { t with leader } retryCount
      else none
    | _ => none
  | .fail =>
    match t.place with
    | .asking retryCount _ => t.caught retryCount
    | _ => none
  | .throw => (t.timer.step (.handled false)).map fun timer ↦ { t with timer }

/-- What the function and `timeoutFunc` do, with answers of the leader. -/
def Own : RefreshStep → Prop
  | .copy | .answer _ | .throw => True
  | _ => False

end LockRefresh

/-- There is no path, or `ls` refuses the first one. -/
def Refused (db : RocksDB) (paths : List Str) : Prop :=
  ∀ path, paths.head? = some path → ¬ ValidAt db (simplifyPath path)

theorem Refused.prepare {db : RocksDB} {paths : List Str} (h : Refused db paths) (env : Env) :
    ∃ fault, Namenode.prepare db env (.updateLock paths) = ([], some fault) := by
  cases paths with
  | nil => exact ⟨_, rfl⟩
  | cons path paths =>
    rw [Namenode.prepare, Namenode.updateLock, if_neg (List.cons_ne_nil _ _),
      Namenode.updateLockEntries]
    cases hls : RocksDB.ls db (.ofPath path) with
    | error fault => exact ⟨fault, rfl⟩
    | ok i => exact absurd ⟨i, ls_eq_ok.mp hls⟩ (h path rfl)

namespace LockRefresh

variable {t u : LockRefresh} {a : RefreshStep} {locks : List Str}

theorem caught_running {n : Nat} (hrun : t.timer.thread = .running) :
    t.caught n = some (if n ≥ 3 then
      { t with timer := { t.timer with thread := .handling }, place := .checking }
    else { t with place := .copying (n + 1) }) := by
  unfold caught
  split
  · have htimer : t.timer.step (.finish .timeout) = some { t.timer with thread := .handling } := by
      rw [IntervalTimer.step.eq_def, if_neg (by simp [hrun])]
      exact if_pos hrun
    rw [finish, htimer, Option.map_some]
  · rfl

theorem responses_of_refused (h : Refused t.leader.store locks) :
    ∃ fault, t.responses locks = [Response.failResponse {} fault] := by
  obtain ⟨fault, hprepare⟩ := h.prepare (t.leader.env 0)
  exact ⟨fault, by rw [responses, hprepare, Namenode.lockResponses]⟩

/-- What a step can do to the timer and in the function. -/
inductive Stepped (t u : LockRefresh) (a : RefreshStep) : Prop
  | elsewhere (htimer : u.timer = t.timer) (hplace : u.place = t.place)
  | timer (b : TimerStep) (hb : b.outside = true) (htimer : t.timer.step b = some u.timer)
      (hplace : u.place = t.place)
  | idle (hrun : t.timer.thread = .running) (hat : t.place = .checking)
      (htimer : t.timer.step (.finish .returned) = some u.timer) (hplace : u.place = .checking)
  | begun (hrun : t.timer.thread = .running) (hat : t.place = .checking)
      (htimer : u.timer = t.timer) (hplace : u.place = .copying 0)
  | copied (n : Nat) (hat : t.place = .copying n) (htimer : u.timer = t.timer)
      (hplace : u.place = .asking n t.remoteLocks)
  | granted (n : Nat) (paths : List Str) (response : Response) (hat : t.place = .asking n paths)
      (hr : response ∈ t.responses paths) (hsuccess : response.success = true)
      (htimer : t.timer.step (.finish .returned) = some u.timer) (hplace : u.place = .checking)
  | refused (n : Nat) (paths : List Str) (leader : Leader) (hat : t.place = .asking n paths)
      (ha : a = .fail ∨ ∃ response ∈ t.responses paths, response.success = false)
      (hcaught : caught { t with leader } n = some u)
  | thrown (htimer : t.timer.step (.handled false) = some u.timer) (hplace : u.place = t.place)

theorem stepped (hs : t.step a = some u) : Stepped t u a := by
  cases a with
  | leader action =>
    obtain ⟨leader, -, rfl⟩ := Option.map_eq_some_iff.mp hs
    exact .elsewhere rfl rfl
  | lock path | unlock path =>
    obtain ⟨-, hu⟩ := Option.ite_none_left_eq_some.mp hs
    exact .elsewhere (Option.some.inj hu ▸ rfl) (Option.some.inj hu ▸ rfl)
  | timer b =>
    obtain ⟨hb, hs⟩ := Option.ite_none_right_eq_some.mp hs
    obtain ⟨timer, htimer, rfl⟩ := Option.map_eq_some_iff.mp hs
    exact .timer b hb htimer rfl
  | check =>
    obtain ⟨⟨hrun, hat⟩, hs⟩ := Option.ite_none_right_eq_some.mp hs
    split at hs
    · obtain ⟨timer, htimer, rfl⟩ := Option.map_eq_some_iff.mp hs
      exact .idle hrun hat htimer rfl
    · exact .begun hrun hat (Option.some.inj hs ▸ rfl) (Option.some.inj hs ▸ rfl)
  | copy =>
    cases hat : t.place with
    | copying n =>
      simp only [step, hat, Option.some.injEq] at hs
      exact .copied n hat (hs ▸ rfl) (hs ▸ rfl)
    | checking | asking => simp only [step, hat, reduceCtorEq] at hs
  | answer response =>
    cases hat : t.place with
    | asking n paths =>
      simp only [step, hat] at hs
      obtain ⟨hr, hs⟩ := Option.ite_none_right_eq_some.mp hs
      obtain ⟨leader, -, hs⟩ := Option.bind_eq_some_iff.mp hs
      split at hs
      · rename_i hsuccess
        obtain ⟨timer, htimer, rfl⟩ := Option.map_eq_some_iff.mp hs
        exact .granted n paths response hat hr hsuccess htimer rfl
      · rename_i hfailure
        exact .refused n paths leader hat (.inr ⟨response, hr, eq_false_of_ne_true hfailure⟩) hs
    | checking | copying => simp only [step, hat, reduceCtorEq] at hs
  | fail =>
    cases hat : t.place with
    | asking n paths =>
      simp only [step, hat] at hs
      exact .refused n paths t.leader hat (.inl rfl) hs
    | checking | copying => simp only [step, hat, reduceCtorEq] at hs
  | throw =>
    obtain ⟨timer, htimer, rfl⟩ := Option.map_eq_some_iff.mp hs
    exact .thrown htimer rfl

/-- The timer, and where its thread is while the function is under way. -/
structure Sound (t : LockRefresh) : Prop where
  timer : t.timer.Sound
  running : t.place ≠ .checking → t.timer.thread = .running
  copying : ∀ {n}, t.place = .copying n → n ≤ 3
  asking : ∀ {n paths}, t.place = .asking n paths → n ≤ 3

def start (leader : Leader) : LockRefresh := { leader }

namespace Sound

theorem start (leader : Leader) : (start leader).Sound :=
  ⟨IntervalTimer.sound_new, fun hne ↦ absurd rfl hne, fun hp ↦ (by cases hp),
    fun hp ↦ (by cases hp)⟩

theorem congr (h : t.Sound) (ht : u.timer = t.timer) (hp : u.place = t.place) : u.Sound :=
  ⟨ht ▸ h.timer, fun hne ↦ ht ▸ h.running (hp ▸ hne), fun he ↦ h.copying (hp ▸ he),
    fun he ↦ h.asking (hp ▸ he)⟩

theorem checking {b : TimerStep} (h : t.Sound) (htimer : t.timer.step b = some u.timer)
    (hplace : u.place = .checking) : u.Sound :=
  ⟨h.timer.step htimer, fun hne ↦ absurd hplace hne,
    fun hp ↦ absurd (hplace.symm.trans hp) (by simp),
    fun hp ↦ absurd (hplace.symm.trans hp) (by simp)⟩

theorem caught {n : Nat} (h : t.Sound) (hrun : t.timer.thread = .running)
    (hs : t.caught n = some u) : u.Sound := by
  unfold LockRefresh.caught at hs
  split at hs
  · obtain ⟨timer, htimer, rfl⟩ := Option.map_eq_some_iff.mp hs
    exact h.checking htimer rfl
  · obtain rfl := Option.some.inj hs
    refine ⟨h.timer, fun _ ↦ hrun, fun hp ↦ ?_, fun hp ↦ (by cases hp)⟩
    obtain rfl := RefreshPlace.copying.inj hp
    omega

theorem step (h : t.Sound) (hs : t.step a = some u) : u.Sound := by
  cases stepped hs with
  | elsewhere htimer hplace => exact h.congr htimer hplace
  | timer b hb htimer hplace =>
    refine ⟨h.timer.step htimer, fun hne ↦ ?_, fun hp ↦ h.copying (hplace ▸ hp),
      fun hp ↦ h.asking (hplace ▸ hp)⟩
    have hrun : t.timer.thread = .running := h.running (hplace ▸ hne)
    exact (IntervalTimer.thread_outside hb (.inl hrun) htimer).trans hrun
  | idle _ _ htimer hplace | granted _ _ _ _ _ _ htimer hplace => exact h.checking htimer hplace
  | begun hrun _ htimer hplace =>
    refine ⟨htimer ▸ h.timer, fun _ ↦ htimer ▸ hrun, fun hp ↦ ?_, fun hp ↦ ?_⟩
    · exact RefreshPlace.copying.inj (hplace.symm.trans hp) ▸ Nat.zero_le 3
    · exact absurd (hplace.symm.trans hp) (by simp)
  | copied n hat htimer hplace =>
    refine ⟨htimer ▸ h.timer, fun _ ↦ htimer ▸ h.running (by simp [hat]), fun hp ↦ ?_, fun hp ↦ ?_⟩
    · exact absurd (hplace.symm.trans hp) (by simp)
    · exact (RefreshPlace.asking.inj (hplace.symm.trans hp)).1 ▸ h.copying hat
  | refused n paths leader hat _ hcaught =>
    have hkept : Sound { t with leader } := h.congr rfl rfl
    exact hkept.caught (h.running (by simp [hat])) hcaught
  | thrown htimer hplace =>
    have hp : t.place = .checking := by
      by_contra hne
      rw [IntervalTimer.step.eq_def] at htimer
      simp [h.running hne] at htimer
    exact h.checking htimer (hplace.trans hp)

end Sound

/-- In the loop, or behind it with a `TimeoutException`. -/
inductive Failing (locks : List Str) (t : LockRefresh) : Prop
  | copying (n : Nat) (hrun : t.timer.thread = .running) (hplace : t.place = .copying n)
  | asking (n : Nat) (hrun : t.timer.thread = .running) (hplace : t.place = .asking n locks)
  | handling (hrun : t.timer.thread = .handling) (hplace : t.place = .checking)
  | terminated (hrun : t.timer.thread = .terminated) (hplace : t.place = .checking)

namespace Failing

theorem congr (h : Failing locks t) (ht : u.timer.thread = t.timer.thread)
    (hp : u.place = t.place) : Failing locks u := by
  cases h with
  | copying n hrun hplace => exact .copying n (ht.trans hrun) (hp.trans hplace)
  | asking n hrun hplace => exact .asking n (ht.trans hrun) (hp.trans hplace)
  | handling hrun hplace => exact .handling (ht.trans hrun) (hp.trans hplace)
  | terminated hrun hplace => exact .terminated (ht.trans hrun) (hp.trans hplace)

theorem running (h : Failing locks t) (hne : t.place ≠ .checking) : t.timer.thread = .running := by
  cases h with
  | copying n hrun | asking n hrun => exact hrun
  | handling _ hplace | terminated _ hplace => exact absurd hplace hne

theorem not_checking (h : Failing locks t) (hrun : t.timer.thread = .running) :
    t.place ≠ .checking := by
  cases h with
  | copying n _ hplace | asking n _ hplace => simp [hplace]
  | handling hother | terminated hother => exact absurd (hother.symm.trans hrun) (by simp)

theorem paths_eq {n : Nat} {paths : List Str} (h : Failing locks t)
    (hat : t.place = .asking n paths) : paths = locks := by
  cases h with
  | asking m _ hplace => exact (RefreshPlace.asking.inj (hat.symm.trans hplace)).2
  | copying m _ hplace | handling _ hplace | terminated _ hplace =>
    exact absurd (hat.symm.trans hplace) (by simp)

theorem thread_cases (h : Failing locks t) :
    t.timer.thread = .running ∨ t.timer.thread = .handling ∨ t.timer.thread = .terminated := by
  cases h with
  | copying n hrun | asking n hrun => exact .inl hrun
  | handling hrun => exact .inr (.inl hrun)
  | terminated hrun => exact .inr (.inr hrun)

theorem of_caught {n : Nat} (hrun : t.timer.thread = .running) (hs : t.caught n = some u) :
    Failing locks u := by
  rw [caught_running hrun, Option.some.injEq] at hs
  subst hs
  split
  · exact .handling rfl rfl
  · exact .copying (n + 1) hrun rfl

theorem step (h : Failing locks t) (hlocks : t.remoteLocks = locks)
    (hrefused : Refused t.leader.store locks) (hs : t.step a = some u) : Failing locks u := by
  cases stepped hs with
  | elsewhere htimer hplace => exact h.congr (congrArg _ htimer) hplace
  | timer b hb htimer hplace =>
    rcases h.thread_cases with hrun | hrun | hrun
    · exact h.congr (IntervalTimer.thread_outside hb (.inl hrun) htimer) hplace
    · exact h.congr (IntervalTimer.thread_outside hb (.inr hrun) htimer) hplace
    · rw [IntervalTimer.step_terminated b hrun] at htimer
      cases htimer
  | idle hrun hat | begun hrun hat => exact absurd hat (h.not_checking hrun)
  | copied n hat htimer hplace =>
    have hrun : t.timer.thread = .running := h.running (by simp [hat])
    exact .asking n (htimer ▸ hrun) (hlocks ▸ hplace)
  | granted n paths response hat hr hsuccess =>
    obtain ⟨fault, hresponses⟩ := responses_of_refused hrefused
    rw [h.paths_eq hat, hresponses, List.mem_singleton] at hr
    rw [hr] at hsuccess
    cases hsuccess
  | refused n paths leader hat _ hcaught =>
    exact of_caught (t := { t with leader }) (h.running (by simp [hat])) hcaught
  | thrown htimer hplace =>
    obtain ⟨-, htimer⟩ := Option.ite_none_left_eq_some.mp htimer
    obtain ⟨hrun, hu⟩ := Option.ite_none_right_eq_some.mp htimer
    have hat : t.place = .checking := by
      by_contra hne
      rw [h.running hne] at hrun
      cases hrun
    exact .terminated (Option.some.inj hu ▸ rfl) (hplace.trans hat)

end Failing

/-- How far the process is from its end. -/
def distance (t : LockRefresh) : Nat :=
  match t.place with
  | .copying n => 2 * (3 - n) + 3
  | .asking n _ => 2 * (3 - n) + 2
  | .checking => if t.timer.thread = .handling then 1 else 0

/-- While the leases stay as they are, and the leader refuses them. -/
structure Lost (locks : List Str) (t : LockRefresh) : Prop where
  failing : Failing locks t
  remoteLocks : t.remoteLocks = locks
  refused : Refused t.leader.store locks

theorem Lost.advances (h : Lost locks t) (he : t.timer.thread ≠ .terminated) :
    ∃ a u, Own a ∧ t.step a = some u ∧ Lost locks u ∧ u.distance < t.distance := by
  obtain ⟨hfailing, hlocks, hrefused⟩ := h
  have hnext : ∀ a u, Own a → t.step a = some u → u.remoteLocks = t.remoteLocks →
      u.leader.store = t.leader.store → u.distance < t.distance →
        ∃ a u, Own a ∧ t.step a = some u ∧ Lost locks u ∧ u.distance < t.distance :=
    fun a u ho hs hl hd hlt ↦
      ⟨a, u, ho, hs, ⟨hfailing.step hlocks hrefused hs, hl.trans hlocks, hd ▸ hrefused⟩, hlt⟩
  cases hfailing with
  | copying n hrun hplace =>
    refine hnext .copy { t with place := .asking n t.remoteLocks } trivial ?_ rfl rfl ?_
    · simp only [step, hplace]
    · simp [distance, hplace]
  | asking n hrun hplace =>
    obtain ⟨fault, hresponses⟩ := responses_of_refused hrefused
    obtain ⟨leader, hleader, hstore⟩ : ∃ leader,
        t.leader.step (.prepare 0 (.updateLock locks)) = some leader ∧
          leader.store = t.leader.store := ⟨_, rfl, rfl⟩
    have hs : t.step (.answer (Response.failResponse {} fault)) =
        caught { t with leader } n := by
      simp only [step, hplace, hresponses, List.mem_singleton, hleader]
      rfl
    rw [caught_running (t := { t with leader }) hrun] at hs
    refine hnext (.answer (Response.failResponse {} fault)) _ trivial hs ?_ ?_ ?_
    · split <;> rfl
    · split <;> exact hstore
    · split
      · simp [distance, hplace]
      · simp only [distance, hplace]
        omega
  | handling hrun hplace =>
    refine hnext .throw { t with timer := { t.timer with thread := .terminated } } trivial ?_ rfl
      rfl ?_
    · simp [step, IntervalTimer.step, hrun]
    · simp [distance, hplace, hrun]
  | terminated hrun hplace => exact absurd hrun he

/-- A mount whose leases the leader refuses, while they stay as they are: once the timer has begun
to refresh them, the function asks for them four times at most and does not return, `stop` does
not return either, and the end of the process is always within reach. -/
theorem refused_refresh_terminates {leader : Leader} {n : Nat}
    (ht : Reaches step (fun _ _ ↦ True) (start leader) t) (hplace : t.place = .copying n)
    (hu : Reaches step (fun v _ ↦ v.remoteLocks = locks ∧ Refused v.leader.store locks) t u) :
    (u.timer.thread = .running ∨ u.timer.thread = .handling ∨ u.timer.thread = .terminated) ∧
      (∀ m paths, u.place = .asking m paths → m ≤ 3 ∧ paths = locks) ∧
      u.timer.stop ≠ .returned ∧
      (u.remoteLocks = locks → Refused u.leader.store locks →
        ∃ w, Reaches step (fun _ a ↦ Own a) u w ∧ w.timer.thread = .terminated) := by
  have hsound : t.Sound := ht.invariant (.start leader) fun _ _ _ _ hv _ hs ↦ hv.step hs
  have hfailing : Failing locks t := .copying n (hsound.running (by simp [hplace])) hplace
  obtain ⟨hsound', hfailing'⟩ : u.Sound ∧ Failing locks u := by
    refine hu.invariant (I := fun u ↦ u.Sound ∧ Failing locks u) ⟨hsound, hfailing⟩ ?_
    intro v a w _ hv hg hs
    exact ⟨hv.1.step hs, hv.2.step hg.1 hg.2 hs⟩
  have hthread := hfailing'.thread_cases
  refine ⟨hthread, fun m paths hasking ↦ ⟨hsound'.asking hasking, hfailing'.paths_eq hasking⟩,
    fun hstop ↦ ?_, fun hlocks hrefused ↦ ?_⟩
  · have hended := hsound'.timer.joined (hsound'.timer.returned hstop)
    rw [hended] at hthread
    simp at hthread
  · have hlost : Lost locks u := ⟨hfailing', hlocks, hrefused⟩
    obtain ⟨w, hw, -, hend⟩ : ∃ w, Reaches step (fun _ a ↦ Own a) u w ∧ Lost locks w ∧
        w.timer.thread = .terminated := exists_end distance hlost fun _ hv hne ↦ hv.advances hne
    exact ⟨w, hw, hend⟩

/-- Another client removes the file, and the timer fires. -/
theorem refused_refresh_terminates_removed : ∃ t u : LockRefresh, t.place = .copying 0 ∧
    t.remoteLocks = ["/a".toList] ∧ Reaches step (fun _ a ↦ Own a) t u ∧
      u.timer.thread = .terminated := by
  obtain ⟨t, hr, ht⟩ := exists_reached step (fun _ _ ↦ true)
    (start { Leader.start [] 7 with store := singleFile })
    [.leader (.prepare 0 (.updateLock ["/a".toList])), .leader .apply, .lock "/a".toList,
      .leader (.prepare 0 (.rm "/a".toList)), .leader .apply, .timer .start, .timer .elapse, .check]
    (fun t ↦ decide (t.place = .copying 0 ∧ t.remoteLocks = ["/a".toList] ∧
      (lookup t.leader.store "/a".toList).all (·.valid == false) = true)) (by decide)
  obtain ⟨hplace, hlocks, hremoved⟩ := of_decide_eq_true ht
  have hrefused : Refused t.leader.store ["/a".toList] := by
    rintro path hpath ⟨i, hi, hvalid⟩
    obtain rfl := Option.some.inj hpath
    have hpath : simplifyPath "/a".toList = "/a".toList := by decide
    rw [hpath] at hi
    rw [hi, Option.all_some, hvalid] at hremoved
    cases hremoved
  obtain ⟨-, -, -, hend⟩ :=
    refused_refresh_terminates (hr.mono fun _ _ _ ↦ trivial) hplace .refl
  obtain ⟨u, hu, hterminated⟩ := hend hlocks hrefused
  exact ⟨t, u, hplace, hlocks, hu, hterminated⟩

/-- The request that is under way names a path, and only paths that `ls` finds. -/
def Granted (t : LockRefresh) : Prop :=
  ∀ n paths, t.place = .asking n paths →
    paths ≠ [] ∧ ∀ p ∈ paths, ValidAt t.leader.store (simplifyPath p)

theorem prepare_of_granted {db : RocksDB} {paths : List Str} (env : Env) (hne : paths ≠ [])
    (hvalid : ∀ p ∈ paths, ValidAt db (simplifyPath p)) :
    ∃ i is, Namenode.prepare db env (.updateLock paths) = ((i :: is).map .opPut, none) ∧
      Refreshed db env.now paths (i :: is) := by
  obtain ⟨good, rest, is, hpaths, hrefreshed, hentries, hend⟩ :=
    updateLockEntries_split db env.now paths
  rcases hend with ⟨rfl, hnone⟩ | ⟨bad, more, fault, rfl, hbad, -⟩
  · rw [List.append_nil] at hpaths
    subst hpaths
    cases is with
    | nil => exact absurd (List.forall₂_nil_right_iff.mp hrefreshed.each) hne
    | cons i is =>
      refine ⟨i, is, ?_, hrefreshed⟩
      rw [Namenode.prepare, Namenode.updateLock, if_neg hne, ← hentries, ← hnone]
  · exact absurd (hvalid bad (by simp [hpaths])) hbad

theorem Granted.responses_eq {n : Nat} {paths : List Str} (h : t.Granted)
    (hat : t.place = .asking n paths) : t.responses paths = [Response.succResponse {}] := by
  obtain ⟨hne, hvalid⟩ := h n paths hat
  obtain ⟨i, is, hprepare, -⟩ := prepare_of_granted (t.leader.env 0) hne hvalid
  rw [responses, hprepare]
  rfl

/-- The answer to a granted request ends the function, with every lease proposed anew. -/
theorem Granted.answer {n : Nat} {paths : List Str} {response : Response} (h : t.Granted)
    (hplace : t.place = .asking n paths) (hs : t.step (.answer response) = some u) :
    u.place = .checking ∧ t.timer.step (.finish .returned) = some u.timer ∧
      ∀ p ∈ paths, ∃ proposal ∈ u.leader.pending, ∃ i, proposal.entry = .opPut i ∧
        i.fullpath.str = simplifyPath p ∧ i.ddlLock = t.leader.now + lockRefreshInterval := by
  obtain ⟨hne, hvalid⟩ := h n paths hplace
  obtain ⟨i, is, hprepare, hrefreshed⟩ := prepare_of_granted (t.leader.env 0) hne hvalid
  simp only [step, hplace] at hs
  obtain ⟨hr, hs⟩ := Option.ite_none_right_eq_some.mp hs
  obtain ⟨leader, hleader, hs⟩ := Option.bind_eq_some_iff.mp hs
  rw [h.responses_eq hplace] at hr
  obtain rfl := List.mem_singleton.mp hr
  obtain ⟨timer, htimer, rfl⟩ := Option.map_eq_some_iff.mp hs
  refine ⟨rfl, htimer, fun p hp ↦ ?_⟩
  obtain rfl := Option.some.inj hleader
  obtain ⟨j, hj, k, hk, -, rfl⟩ := forall₂_mem_left hrefreshed.each hp
  refine ⟨⟨.opPut (k.updateDdlLock t.leader.now), .updateLock paths, t.leader.now⟩, ?_, _, rfl,
    fullpath_of_lookup (i := k) hk, rfl⟩
  refine List.mem_append_right _ (List.mem_map.mpr ⟨.opPut (k.updateDdlLock t.leader.now), ?_, rfl⟩)
  rw [hprepare]
  exact List.mem_map_of_mem hj

theorem spared_step (h : t.timer.thread.Spared) (hgranted : t.Granted) (hne : a ≠ .fail)
    (hs : t.step a = some u) : u.timer.thread.Spared := by
  cases stepped hs with
  | elsewhere htimer | begun _ _ htimer | copied _ _ htimer => exact htimer ▸ h
  | timer b hb htimer => exact IntervalTimer.spared_outside h hb htimer
  | idle _ _ htimer | granted _ _ _ _ _ _ htimer => exact IntervalTimer.spared_finish htimer
  | refused n paths leader hat ha =>
    rcases ha with rfl | ⟨response, hr, hfailure⟩
    · exact absurd rfl hne
    · rw [hgranted.responses_eq hat, List.mem_singleton] at hr
      rw [hr] at hfailure
      cases hfailure
  | thrown htimer =>
    obtain ⟨-, htimer⟩ := Option.ite_none_left_eq_some.mp htimer
    obtain ⟨hrun, -⟩ := Option.ite_none_right_eq_some.mp htimer
    exact absurd hrun h.1

/-- As long as the leader answers and finds what it is asked for, the process stays, and each
firing proposes the leases of all its paths anew. -/
theorem granted_refresh_renews {leader : Leader}
    (h : Reaches step (fun v a ↦ v.Granted ∧ a ≠ .fail) (start leader) t) :
    t.timer.thread ≠ .terminated ∧
      ∀ n paths response u, t.place = .asking n paths → t.Granted →
        t.step (.answer response) = some u →
          u.place = .checking ∧ u.timer.thread.waits = t.timer.running ∧
            ∀ p ∈ paths, ∃ proposal ∈ u.leader.pending, ∃ i, proposal.entry = .opPut i ∧
              i.fullpath.str = simplifyPath p ∧
                i.ddlLock = t.leader.now + lockRefreshInterval := by
  have hspared : t.timer.thread.Spared := by
    refine h.invariant (I := fun t ↦ t.timer.thread.Spared) ⟨by simp [start], by simp [start]⟩ ?_
    intro v a w _ hv hg hs
    exact spared_step hv hg.1 hg.2 hs
  refine ⟨hspared.2, fun n paths response u hplace hgranted hs ↦ ?_⟩
  obtain ⟨hchecking, htimer, hpending⟩ := hgranted.answer hplace hs
  obtain ⟨-, htimer⟩ := Option.ite_none_left_eq_some.mp htimer
  obtain ⟨-, htimer⟩ := Option.ite_none_right_eq_some.mp htimer
  refine ⟨hchecking, ?_, hpending⟩
  rw [← Option.some.inj htimer, IntervalTimer.finished, IntervalTimer.loop]
  cases t.timer.running <;> rfl

/-- One file is locked while the timer fires. -/
theorem granted_refresh_renews_one : ∃ t u : LockRefresh, t.place = .asking 0 ["/a".toList] ∧
    t.step (.answer (Response.succResponse {})) = some u ∧ u.place = .checking := by
  obtain ⟨t, hr, ht⟩ := exists_reached step
    (fun v a ↦ match v.place, a with
      | .asking _ _, _ | _, .fail => false
      | _, _ => true)
    (start { Leader.start [] 7 with store := singleFile })
    [.leader (.prepare 0 (.updateLock ["/a".toList])), .leader .apply, .lock "/a".toList,
      .timer .start, .timer .elapse, .check, .copy]
    (fun t ↦ decide (t.place = .asking 0 ["/a".toList] ∧
      (t.step (.answer (Response.succResponse {}))).isSome = true ∧
      (lookup t.leader.store "/a".toList).any (·.valid) = true)) (by decide)
  obtain ⟨hplace, hsome, hstored⟩ := of_decide_eq_true ht
  obtain ⟨u, hu⟩ := Option.isSome_iff_exists.mp hsome
  have hgranted : t.Granted := by
    intro n paths hp
    obtain ⟨-, rfl⟩ := RefreshPlace.asking.inj (hplace.symm.trans hp)
    refine ⟨by simp, fun p hp ↦ ?_⟩
    obtain rfl := List.mem_singleton.mp hp
    cases hi : lookup t.leader.store "/a".toList with
    | none =>
      rw [hi] at hstored
      cases hstored
    | some i =>
      rw [hi] at hstored
      exact ⟨i, hi, hstored⟩
  have hguard : Reaches step (fun v a ↦ v.Granted ∧ a ≠ .fail)
      (start { Leader.start [] 7 with store := singleFile }) t := by
    refine hr.mono fun v a hva ↦ ⟨fun n paths hp ↦ ?_, fun ha ↦ ?_⟩
    · simp [hp] at hva
    · subst ha
      cases hp : v.place <;> simp [hp] at hva
  obtain ⟨-, hrenews⟩ := granted_refresh_renews hguard
  exact ⟨t, u, hplace, hu, (hrenews 0 _ _ u hplace hgranted hu).1⟩

end LockRefresh

end Spkdfs
