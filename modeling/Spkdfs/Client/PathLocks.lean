import Spkdfs.Client.Local

namespace Spkdfs

open Library Function

namespace PathLocks

inductive Call
  | readLock (key : Str)
  | writeLock (key : Str)
  | unlock (key : Str)
deriving DecidableEq

/-- A call that returns; a lock that has to wait has no result yet. -/
def call (locks : PathLocks) : Call → Option PathLocks
  | .readLock key => locks.readLock key
  | .writeLock key => locks.writeLock key
  | .unlock key => some (locks.unlock key)

def run (calls : List Call) : Option PathLocks := calls.foldlM call fun _ ↦ none

/-- In which mode the call locks the key: exclusive or not. -/
def Call.takes (key : Str) : Call → Option Bool
  | .readLock k => if k = key then some false else none
  | .writeLock k => if k = key then some true else none
  | .unlock _ => none

def modes (calls : List Call) (key : Str) : List Bool := calls.filterMap (Call.takes key)

def Call.count (key : Str) (n : Nat) : Call → Nat
  | .readLock k | .writeLock k => if k = key then n + 1 else n
  | .unlock k => if k = key then n - 1 else n

/-- The locks of the key that are not released yet. -/
def held (calls : List Call) (key : Str) : Nat := calls.foldl (Call.count key) 0

/-- What holds of the key and the calls before, wherever a key is unlocked. -/
def AtUnlocks (Q : List Call → Str → Prop) (calls : List Call) : Prop :=
  Everywhere (fun before c ↦ ∀ key, c = .unlock key → Q before key) calls

/-- Each unlock follows a lock of its key that was not yet released. -/
def Paired (calls : List Call) : Prop := AtUnlocks (fun before key ↦ 0 < held before key) calls

end PathLocks

/-- `unlock` releases the mutex in the mode in which it is held. -/
def PathLock.Suited (entry : PathLock) : Prop :=
  if entry.exclusive then entry.mutex.writer = true else entry.mutex.readers ≠ 0

namespace PathLocks

structure ReleasesTaken (calls : List Call) : Prop where
  mode : AtUnlocks (fun before key ↦ ∃ locks entry, run before = some locks ∧
    locks key = some entry ∧ entry.Suited) calls
  free : ∀ before after key, calls = before ++ after → held before key = 0 →
    ∃ locks, run before = some locks ∧ (locks.readLock key).isSome ∧ (locks.writeLock key).isSome

/-- A mutex, by the mode in which it was locked last and the number of locks not yet released. -/
inductive Holding : Option Bool → Nat → SharedMutex → Prop
  | free (last : Option Bool) : Holding last 0 {}
  | shared (n : Nat) : Holding (some false) (n + 1) ⟨false, n + 1⟩
  | exclusive : Holding (some true) 1 ⟨true, 0⟩

/-- The entry of a key: its flag is the mode of the first lock, whatever came later. -/
structure Entered (calls : List Call) (key : Str) (entry : Option PathLock) : Prop where
  flag : entry.map (·.exclusive) = (modes calls key).head?
  mutex : Holding (modes calls key).getLast? (held calls key) ((entry.map (·.mutex)).getD {})

section

variable {last : Option Bool} {n : Nat} {m m' : SharedMutex} {calls before after : List Call}
  {locks locks' : PathLocks} {key k : Str} {entry : Option PathLock} {mode : Bool} {c : Call}

theorem Holding.lock (h : Holding last n m) (hlock : m.lock = some m') :
    Holding (some true) (n + 1) m' := by
  cases h with
  | free => exact Option.some.inj hlock ▸ .exclusive
  | shared n => cases hlock
  | exclusive => cases hlock

theorem Holding.lockShared (h : Holding last n m) (hlock : m.lockShared = some m') :
    Holding (some false) (n + 1) m' := by
  cases h with
  | free => exact Option.some.inj hlock ▸ .shared 0
  | shared n => exact Option.some.inj hlock ▸ .shared (n + 1)
  | exclusive => cases hlock

theorem Holding.unlock (h : Holding last n m) (hn : 0 < n) : Holding last (n - 1) m.unlock := by
  cases h with
  | free => exact absurd hn (Nat.lt_irrefl 0)
  | shared n =>
    cases n with
    | zero => exact .free _
    | succ n => exact .shared n
  | exclusive => exact .free _

/-- With nothing left to release, both kinds of lock are granted. -/
theorem Holding.granted (h : Holding last 0 m) : m.lockShared.isSome ∧ m.lock.isSome := by
  cases h with
  | free => exact ⟨rfl, rfl⟩

theorem Holding.eq_zero (h : Holding last n {}) : n = 0 := by
  cases h with
  | free => rfl

theorem Holding.suited_iff (h : Holding last n m) (hn : 0 < n) (flag : Bool) :
    (⟨flag, m⟩ : PathLock).Suited ↔ some flag = last := by
  cases h with
  | free => exact absurd hn (Nat.lt_irrefl 0)
  | shared n => cases flag <;> simp [PathLock.Suited]
  | exclusive => cases flag <;> simp [PathLock.Suited]

theorem run_concat (calls : List Call) (c : Call) :
    run (calls ++ [c]) = (run calls).bind fun locks ↦ locks.call c := by
  simp [run, List.foldlM_append]

theorem modes_concat (calls : List Call) (c : Call) (key : Str) :
    modes (calls ++ [c]) key = modes calls key ++ (c.takes key).toList := by
  rw [modes, List.filterMap_append]
  cases hc : c.takes key <;> simp [modes, hc]

theorem held_concat (calls : List Call) (c : Call) (key : Str) :
    held (calls ++ [c]) key = c.count key (held calls key) := by
  simp only [held, List.foldl_append, List.foldl_cons, List.foldl_nil]

/-- A call changes nothing at the other keys. -/
theorem Entered.other (h : Entered calls k entry) (htakes : c.takes k = none)
    (hcount : ∀ n, c.count k n = n) : Entered (calls ++ [c]) k entry := by
  have hmodes : modes (calls ++ [c]) k = modes calls k := by
    rw [modes_concat, htakes]
    exact List.append_nil _
  have hheld : held (calls ++ [c]) k = held calls k := by rw [held_concat, hcount]
  exact ⟨hmodes ▸ h.flag, by rw [hmodes, hheld]; exact h.mutex⟩

/-- A lock that is granted keeps the flag of an entry that is there. -/
theorem Entered.lock (h : Entered calls key entry) (htakes : c.takes key = some mode)
    (hcount : ∀ n, c.count key n = n + 1)
    (hlock : (bif mode then (entry.getD ⟨mode, {}⟩).mutex.lock
      else (entry.getD ⟨mode, {}⟩).mutex.lockShared) = some m) :
    Entered (calls ++ [c]) key (some { entry.getD ⟨mode, {}⟩ with mutex := m }) := by
  have hmodes : modes (calls ++ [c]) key = modes calls key ++ [mode] := by
    rw [modes_concat, htakes]
    rfl
  have hmutex : (entry.getD ⟨mode, {}⟩).mutex = (entry.map (·.mutex)).getD {} := by
    cases entry <;> rfl
  rw [hmutex] at hlock
  constructor
  · have hflag := h.flag
    rw [hmodes]
    cases hm : modes calls key with
    | nil =>
      rw [hm] at hflag
      rw [Option.map_eq_none_iff.mp hflag]
      rfl
    | cons first rest =>
      rw [hm] at hflag
      obtain ⟨e, rfl, rfl⟩ := Option.map_eq_some_iff.mp hflag
      rfl
  · rw [hmodes, List.getLast?_concat, held_concat, hcount]
    cases mode with
    | false => exact h.mutex.lockShared hlock
    | true => exact h.mutex.lock hlock

theorem Entered.unlock {e : PathLock} (h : Entered calls key (some e)) (hheld : 0 < held calls key) :
    Entered (calls ++ [.unlock key]) key (some { e with
      mutex := if e.exclusive then e.mutex.unlock else e.mutex.unlockShared }) := by
  have hmodes : modes (calls ++ [.unlock key]) key = modes calls key := by
    rw [modes_concat]
    exact List.append_nil _
  have hcount : held (calls ++ [.unlock key]) key = held calls key - 1 := by
    rw [held_concat]
    exact if_pos rfl
  have hmutex := h.mutex.unlock hheld
  refine ⟨hmodes ▸ h.flag, ?_⟩
  rw [hmodes, hcount]
  cases he : e.exclusive <;> exact hmutex

theorem unlock_eq {e : PathLock} (h : locks key = some e) :
    locks.unlock key = update locks key (some { e with
      mutex := if e.exclusive then e.mutex.unlock else e.mutex.unlockShared }) := by
  rw [PathLocks.unlock, h]

theorem entered_step (h : ∀ key, Entered calls key (locks key))
    (hpaired : ∀ key, c = .unlock key → 0 < held calls key) (hcall : locks.call c = some locks') :
    ∀ key, Entered (calls ++ [c]) key (locks' key) := by
  intro key
  cases c with
  | readLock k =>
    obtain ⟨mutex, hmutex, rfl⟩ := Option.map_eq_some_iff.mp hcall
    by_cases hk : k = key
    · subst hk
      rw [update_self]
      exact (h k).lock (if_pos rfl) (fun _ ↦ if_pos rfl) hmutex
    · rw [update_of_ne (Ne.symm hk)]
      exact (h key).other (if_neg hk) fun _ ↦ if_neg hk
  | writeLock k =>
    obtain ⟨mutex, hmutex, rfl⟩ := Option.map_eq_some_iff.mp hcall
    by_cases hk : k = key
    · subst hk
      rw [update_self]
      exact (h k).lock (if_pos rfl) (fun _ ↦ if_pos rfl) hmutex
    · rw [update_of_ne (Ne.symm hk)]
      exact (h key).other (if_neg hk) fun _ ↦ if_neg hk
  | unlock k =>
    obtain rfl := Option.some.inj hcall
    have hheld := hpaired k rfl
    cases hkey : locks k with
    | none =>
      have hmutex := (h k).mutex
      rw [hkey] at hmutex
      exact absurd hmutex.eq_zero (Nat.ne_of_gt hheld)
    | some e =>
      rw [unlock_eq hkey]
      by_cases hk : k = key
      · subst hk
        rw [update_self]
        exact (hkey ▸ h k).unlock hheld
      · rw [update_of_ne (Ne.symm hk)]
        exact (h key).other rfl fun _ ↦ if_neg hk

theorem AtUnlocks.of_append {Q : List Call → Str → Prop} (h : AtUnlocks Q (before ++ after)) :
    AtUnlocks Q before :=
  fun front c back he ↦ h front c (back ++ after) (by rw [he]; simp)

theorem run_of_append (h : (run (before ++ after)).isSome) : (run before).isSome := by
  induction after using List.reverseRecOn with
  | nil => rwa [List.append_nil] at h
  | append_singleton after c ih =>
    rw [← List.append_assoc, run_concat] at h
    exact ih (Option.isSome_of_isSome_bind h)

/-- What stands in the map after any run. -/
theorem entered_of_run (hpaired : Paired calls) (hrun : run calls = some locks) (key : Str) :
    Entered calls key (locks key) := by
  induction calls using List.reverseRecOn generalizing locks key with
  | nil =>
    obtain rfl := Option.some.inj hrun
    exact ⟨rfl, .free _⟩
  | append_singleton calls c ih =>
    rw [run_concat] at hrun
    obtain ⟨locks', hrun', hcall⟩ := Option.bind_eq_some_iff.mp hrun
    exact entered_step (fun key ↦ ih hpaired.of_append hrun' key) (hpaired calls c [] rfl) hcall key

theorem suited_iff (hpaired : Paired calls) (hgranted : (run calls).isSome)
    (hcalls : calls = before ++ .unlock key :: after) :
    (∃ locks entry, run before = some locks ∧ locks key = some entry ∧ entry.Suited) ↔
      (modes before key).head? = (modes before key).getLast? := by
  subst hcalls
  have hheld := hpaired before _ after rfl key rfl
  obtain ⟨locks, hrun⟩ := Option.isSome_iff_exists.mp (run_of_append hgranted)
  have hkey := entered_of_run hpaired.of_append hrun key
  cases hentry : locks key with
  | none =>
    have hmutex := hkey.mutex
    rw [hentry] at hmutex
    exact absurd hmutex.eq_zero (Nat.ne_of_gt hheld)
  | some entry =>
    rw [hentry] at hkey
    have hflag : some entry.exclusive = (modes before key).head? := hkey.flag
    rw [← hflag]
    refine Iff.trans ⟨?_, fun hs ↦ ⟨locks, entry, hrun, hentry, hs⟩⟩
      (hkey.mutex.suited_iff hheld entry.exclusive)
    rintro ⟨locks', entry', hrun', hentry', hs⟩
    obtain rfl := Option.some.inj (hrun.symm.trans hrun')
    obtain rfl := Option.some.inj (hentry.symm.trans hentry')
    exact hs

/-- Any mutex with nothing left to release is free, however it was released. -/
theorem free_of_held (hpaired : Paired calls) (hrun : run calls = some locks)
    (hfree : held calls key = 0) :
    (locks.readLock key).isSome ∧ (locks.writeLock key).isSome := by
  have hmutex := (entered_of_run hpaired hrun key).mutex
  rw [hfree] at hmutex
  have hgranted := hmutex.granted
  cases hentry : locks key with
  | none => simp [readLock, writeLock, hentry, SharedMutex.lock, SharedMutex.lockShared]
  | some entry =>
    rw [hentry] at hgranted
    simpa [readLock, writeLock, hentry] using hgranted

end

/-- The flag is set by the first lock of a key. So the mutex is released as it is held exactly as
long as the last lock of the key had the mode of the first. -/
theorem releases_taken_iff (calls : List Call) (hgranted : (run calls).isSome)
    (hpaired : Paired calls) :
    ReleasesTaken calls ↔
      AtUnlocks (fun before key ↦ (modes before key).head? = (modes before key).getLast?) calls := by
  constructor
  · rintro h before c after hcalls key rfl
    exact (suited_iff hpaired hgranted hcalls).mp (h.mode before _ after hcalls key rfl)
  · intro h
    constructor
    · rintro before c after hcalls key rfl
      exact (suited_iff hpaired hgranted hcalls).mpr (h before _ after hcalls key rfl)
    · rintro before after key rfl hfree
      obtain ⟨locks, hrun⟩ := Option.isSome_iff_exists.mp (run_of_append hgranted)
      exact ⟨locks, hrun, free_of_held hpaired.of_append hrun hfree⟩

/-- Two sessions on one path, one after the other. -/
def sessionCalls (first second : Str → Call) : List Call :=
  [] ++ [first "/f".toList] ++ [.unlock "/f".toList] ++ [second "/f".toList] ++ [.unlock "/f".toList]

theorem atUnlocks_sessionCalls {Q : List Call → Str → Prop} {first second : Str → Call}
    (hfirst : ∀ key, first "/f".toList ≠ .unlock key) (hsecond : ∀ key, second "/f".toList ≠ .unlock key)
    (hone : Q [first "/f".toList] "/f".toList)
    (htwo : Q [first "/f".toList, .unlock "/f".toList, second "/f".toList] "/f".toList) :
    AtUnlocks Q (sessionCalls first second) := by
  have hnone : AtUnlocks Q [] := everywhere_nil
  refine (((hnone.concat ?_).concat ?_).concat ?_).concat ?_ <;> intro key hkey
  · exact absurd hkey (hfirst key)
  · obtain rfl := Call.unlock.inj hkey
    exact hone
  · exact absurd hkey (hsecond key)
  · obtain rfl := Call.unlock.inj hkey
    exact htwo

theorem releases_taken_writers : ReleasesTaken (sessionCalls .writeLock .writeLock) := by
  have hpaired : Paired (sessionCalls .writeLock .writeLock) :=
    atUnlocks_sessionCalls nofun nofun (by decide) (by decide)
  exact (releases_taken_iff _ (by decide) hpaired).mpr
    (atUnlocks_sessionCalls nofun nofun (by decide) (by decide))

/-- A write session after a read session is released like another read session. -/
theorem not_releases_taken_mixed :
    (run (sessionCalls .readLock .writeLock)).isSome ∧ Paired (sessionCalls .readLock .writeLock) ∧
      ¬ ReleasesTaken (sessionCalls .readLock .writeLock) := by
  have hgranted : (run (sessionCalls .readLock .writeLock)).isSome := by decide
  have hpaired : Paired (sessionCalls .readLock .writeLock) :=
    atUnlocks_sessionCalls nofun nofun (by decide) (by decide)
  refine ⟨hgranted, hpaired, fun h ↦ ?_⟩
  have hmode := (suited_iff hpaired hgranted rfl).mp
    (h.mode (sessionCalls .readLock .writeLock).dropLast _ [] rfl "/f".toList rfl)
  exact absurd hmode (by decide)

end PathLocks

end Spkdfs
