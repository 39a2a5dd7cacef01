import Spkdfs.Node.Snowflake

namespace Spkdfs

open Library

namespace SnowflakeIDGenerator

/-- The loop reads the clock until a reading is larger. The readings to come are a list, and what
is left of it is returned; there is no result as long as the loop goes on. -/
def waitForNextMillis (lastTimestamp : Int) : List Int → Option (Int × List Int)
  | [] => none
  | timestamp :: clock =>
    if timestamp ≤ lastTimestamp then waitForNextMillis lastTimestamp clock
    else some (timestamp, clock)

/-- The number of the call after `g` has run over within the millisecond. -/
def Waits (g : SnowflakeIDGenerator) (reading : Int) : Prop :=
  reading = g.lastTimestamp ∧ (g.sequence + 1) &&& sequenceMask = 0

instance (g : SnowflakeIDGenerator) (reading : Int) : Decidable (g.Waits reading) :=
  inferInstanceAs (Decidable (_ ∧ _))

/-- One call of `generateID` with all its readings of the clock. -/
def next (g : SnowflakeIDGenerator) :
    List Int → Option ((Str × SnowflakeIDGenerator) × List Int)
  | [] => none
  | reading :: clock =>
    if g.Waits reading then
      (waitForNextMillis g.lastTimestamp clock).map fun (later, rest) ↦
        (g.generateID reading later, rest)
    else some (g.generateID reading reading, clock)

/-- The `long` of the last call. -/
def lastId (g : SnowflakeIDGenerator) : BitVec 64 := id g.machineId g.lastTimestamp g.sequence

/-- Calls in a row: what each returns, and the number it has printed. -/
def run : Nat → SnowflakeIDGenerator → List Int → Option (List (Str × BitVec 64))
  | 0, _, _ => some []
  | calls + 1, g, clock => do
    let ((text, g'), rest) ← g.next clock
    return (text, g'.lastId) :: (← run calls g' rest)

variable {g g' : SnowflakeIDGenerator} {clock rest : List Int} {last t : Int} {text : Str}

theorem waitForNextMillis_spec (h : waitForNextMillis last clock = some (t, rest)) :
    last < t ∧ ∃ passed, clock = passed ++ t :: rest := by
  induction clock with
  | nil => cases h
  | cons reading clock ih =>
    simp only [waitForNextMillis] at h
    split at h
    · obtain ⟨hlt, passed, rfl⟩ := ih h
      exact ⟨hlt, reading :: passed, rfl⟩
    · simp only [Option.some.injEq, Prod.mk.injEq] at h
      obtain ⟨rfl, rfl⟩ := h
      exact ⟨by omega, [], rfl⟩

/-- The readings of which 41 bits of time and a sign are enough. -/
def Near (t : Int) : Prop := (t - epoch).natAbs < 2 ^ 41

instance (t : Int) : Decidable (Near t) := inferInstanceAs (Decidable (_ < _))

theorem and_sequenceMask (s : Nat) : s &&& sequenceMask = s % 4096 :=
  Nat.and_two_pow_sub_one_eq_mod s 12

/-- What a call leaves: its time is one of the readings, all later readings are still to come,
and a number is only counted up within the time of the call before. -/
structure Follows (g g' : SnowflakeIDGenerator) (clock rest : List Int) : Prop where
  machineId : g'.machineId = g.machineId
  readings : ∃ passed, clock = passed ++ g'.lastTimestamp :: rest
  sequence : g'.sequence < 4096
  later : g'.lastTimestamp ≠ g.lastTimestamp ∨ g.sequence < g'.sequence

theorem next_follows (hs : g.sequence < 4096) (h : g.next clock = some ((text, g'), rest)) :
    text = Nat.toDigits 16 g'.lastId.toNat ∧ g.Follows g' clock rest := by
  cases clock with
  | nil => cases h
  | cons reading clock =>
    simp only [next] at h
    split at h
    · rename_i hwaits
      simp only [Option.map_eq_some_iff, Prod.mk.injEq, Prod.exists] at h
      obtain ⟨later, rest', hwait, hid, rfl⟩ := h
      obtain ⟨hlt, passed, rfl⟩ := waitForNextMillis_spec hwait
      simp only [generateID, hwaits.1, hwaits.2, if_true, and_self, Prod.mk.injEq] at hid
      obtain ⟨rfl, rfl⟩ := hid
      exact ⟨rfl, rfl, ⟨reading :: passed, rfl⟩, Nat.zero_lt_succ _, .inl (by simp only; omega)⟩
    · rename_i hwaits
      simp only [Option.some.injEq, Prod.mk.injEq, generateID] at h
      obtain ⟨⟨rfl, rfl⟩, rfl⟩ := h
      refine ⟨by simp [lastId], rfl, ⟨[], by simp⟩, ?_, ?_⟩
      · simp only [and_sequenceMask]
        split <;> omega
      · by_cases he : reading = g.lastTimestamp
        · right
          have hne : ¬ (g.sequence + 1) &&& sequenceMask = 0 := fun h0 ↦ hwaits ⟨he, h0⟩
          simp only [he, if_true, and_sequenceMask] at hne ⊢
          omega
        · left
          simpa using he

/-- Within 41 bits of time the number, taken with its sign, is the three fields side by side. -/
theorem toInt_id {m s : Nat} (hm : m < 1024) (hs : s < 4096) (ht : Near t) :
    (id m t s).toInt = (t - epoch) * 2 ^ 22 + (m * 2 ^ 12 + s : Nat) := by
  have hid := toNat_id (t := t) hm hs
  unfold Near at ht
  rw [BitVec.toInt_eq_toNat_cond, hid]
  split <;> omega

variable {m calls : Nat} {ids : List (Str × BitVec 64)}

theorem Follows.lastId_lt (h : g.Follows g' clock rest) (hm : g.machineId = m) (hlt : m < 1024)
    (hs : g.sequence < 4096) (hlast : Near g.lastTimestamp)
    (hnear : ∀ t ∈ clock, Near t) (hpast : ∀ t ∈ clock, g.lastTimestamp ≤ t) :
    g.lastId.toInt < g'.lastId.toInt := by
  obtain ⟨passed, hclock⟩ := h.readings
  have hmem : g'.lastTimestamp ∈ clock := by simp [hclock]
  have hle := hpast _ hmem
  have hlater := h.later
  rw [lastId, lastId, h.machineId, hm, toInt_id hlt hs hlast,
    toInt_id hlt h.sequence (hnear _ hmem)]
  rcases hlater with hne | hseq <;> omega

/-- What a series of calls gives out, from a clock that does not go back. -/
theorem run_spec (hm : g.machineId = m) (hlt : m < 1024) (hs : g.sequence < 4096)
    (hsorted : clock.Pairwise (· ≤ ·)) (hnear : ∀ t ∈ clock, Near t)
    (h : run calls g clock = some ids) :
    ids.length = calls ∧ (ids.map (·.2.toInt)).Pairwise (· < ·) ∧
      (∀ x ∈ ids, x.1 = Nat.toDigits 16 x.2.toNat ∧
        ∃ t s, Near t ∧ s < 4096 ∧ x.2 = id m t s) ∧
      (Near g.lastTimestamp → (∀ t ∈ clock, g.lastTimestamp ≤ t) →
        ∀ x ∈ ids, g.lastId.toInt < x.2.toInt) := by
  induction calls generalizing g clock ids with
  | zero =>
    obtain rfl := Option.some.inj h
    simp
  | succ calls ih =>
    simp only [run, Option.bind_eq_bind, Option.bind_eq_some_iff, Prod.exists] at h
    obtain ⟨text, g', rest, hnext, ids', hrun, h⟩ := h
    obtain rfl := Option.some.inj h
    obtain ⟨htext, hfollows⟩ := next_follows hs hnext
    obtain ⟨passed, hclock⟩ := hfollows.readings
    have hm' : g'.machineId = m := hfollows.machineId.trans hm
    have hmem : g'.lastTimestamp ∈ clock := by simp [hclock]
    have hrest : ∀ t ∈ rest, t ∈ clock := by simp +contextual [hclock]
    have hsorted' : (g'.lastTimestamp :: rest).Pairwise (· ≤ ·) := by
      rw [hclock] at hsorted
      exact (List.pairwise_append.mp hsorted).2.1
    obtain ⟨hpast, hsorted'⟩ := List.pairwise_cons.mp hsorted'
    obtain ⟨hlength, hpairs, hids, hfirst⟩ :=
      ih hm' hfollows.sequence hsorted' (fun t ht ↦ hnear t (hrest t ht)) hrun
    have hfirst := hfirst (hnear _ hmem) hpast
    refine ⟨by simp [hlength], ?_, ?_, ?_⟩
    · simp only [List.map_cons, List.pairwise_cons, List.mem_map]
      refine ⟨?_, hpairs⟩
      rintro _ ⟨x, hx, rfl⟩
      exact hfirst x hx
    · intro x hx
      rcases List.mem_cons.mp hx with rfl | hx
      · exact ⟨htext, _, _, hnear _ hmem, hfollows.sequence, by rw [lastId, hm']⟩
      · exact hids x hx
    · intro hlast hbefore x hx
      have hlt' := hfollows.lastId_lt hm hlt hs hlast hnear hbefore
      rcases List.mem_cons.mp hx with rfl | hx
      · exact hlt'
      · exact Int.lt_trans hlt' (hfirst x hx)

end SnowflakeIDGenerator

/-- The ids that one generator gives out while its clock does not go back. -/
structure IdSeries where
  machineId : Int
  clock : List Int
  calls : Nat
  ids : List (Str × BitVec 64)
  machine : 0 ≤ machineId ∧ machineId ≤ 1023
  sorted : clock.Pairwise (· ≤ ·)
  near : ∀ t ∈ clock, SnowflakeIDGenerator.Near t
  generated : SnowflakeIDGenerator.run calls { machineId } clock = some ids

namespace IdSeries

theorem spec (s : IdSeries) : ∃ m : Nat, s.machineId = m ∧ m < 1024 ∧ s.ids.length = s.calls ∧
    (s.ids.map (·.2.toInt)).Pairwise (· < ·) ∧
      ∀ x ∈ s.ids, x.1 = Nat.toDigits 16 x.2.toNat ∧
        ∃ t n, SnowflakeIDGenerator.Near t ∧ n < 4096 ∧ x.2 = SnowflakeIDGenerator.id m t n := by
  obtain ⟨hlow, hhigh⟩ := s.machine
  have hm : s.machineId = s.machineId.toNat := by omega
  obtain ⟨hlength, hpairs, hids, -⟩ := SnowflakeIDGenerator.run_spec hm (by omega)
    (Nat.zero_lt_succ 4095) s.sorted s.near s.generated
  exact ⟨_, hm, by omega, hlength, hpairs, hids⟩

theorem ne_of_machineId_ne {s s' : IdSeries} (h : s.machineId ≠ s'.machineId)
    {x y : Str × BitVec 64} (hx : x ∈ s.ids) (hy : y ∈ s'.ids) : x.2 ≠ y.2 ∧ x.1 ≠ y.1 := by
  obtain ⟨m, hm, hlt, -, -, hids⟩ := s.spec
  obtain ⟨m', hm', hlt', -, -, hids'⟩ := s'.spec
  obtain ⟨htext, t, n, -, hn, hid⟩ := hids x hx
  obtain ⟨htext', t', n', -, hn', hid'⟩ := hids' y hy
  have hne : x.2.toNat ≠ y.2.toNat := by
    rw [hid, hid', SnowflakeIDGenerator.toNat_id hlt hn, SnowflakeIDGenerator.toNat_id hlt' hn']
    omega
  refine ⟨fun he ↦ hne (by rw [he]), fun he ↦ hne ?_⟩
  rw [htext, htext'] at he
  exact toDigits_injective he

end IdSeries

/-- The ids of a generator increase from call to call, so no two of them are printed alike, and
generators of different machines have no id in common. -/
theorem ids_increasing (s : IdSeries) :
    s.ids.length = s.calls ∧ (s.ids.map (·.2.toInt)).Pairwise (· < ·) ∧ (s.ids.map (·.1)).Nodup ∧
      ∀ s' : IdSeries, s.machineId ≠ s'.machineId →
        ∀ x ∈ s.ids, ∀ y ∈ s'.ids, x.2 ≠ y.2 ∧ x.1 ≠ y.1 := by
  obtain ⟨m, hm, hlt, hlength, hpairs, hids⟩ := s.spec
  refine ⟨hlength, hpairs, ?_, fun s' hne x hx y hy ↦ IdSeries.ne_of_machineId_ne hne hx hy⟩
  rw [List.Nodup, List.pairwise_map]
  refine (List.pairwise_map.mp hpairs).imp_of_mem fun {x y} hx hy hlt he ↦ ?_
  rw [(hids x hx).1, (hids y hy).1] at he
  have hvalue := BitVec.eq_of_toNat_eq (toDigits_injective he)
  rw [hvalue] at hlt
  exact Int.lt_irrefl _ hlt

/-- Two calls in one millisecond on each of two machines. -/
theorem ids_increasing_pair :
    ∃ s s' : IdSeries, s.machineId = 1 ∧ s'.machineId = 2 ∧ s.clock = [5, 5, 6] ∧
      s'.clock = [5, 5, 6] ∧ s.ids.length = 3 ∧ (s.ids.map (·.2.toInt)).Pairwise (· < ·) ∧
        ∀ x ∈ s.ids, ∀ y ∈ s'.ids, x.1 ≠ y.1 := by
  have hnear : ∀ t ∈ [(5 : Int), 5, 6], SnowflakeIDGenerator.Near t := by decide
  let s : IdSeries := ⟨1, [5, 5, 6], 3, _, by decide, by decide, hnear, rfl⟩
  let s' : IdSeries := ⟨2, [5, 5, 6], 3, _, by decide, by decide, hnear, rfl⟩
  have hmachine : s.machineId ≠ s'.machineId := show (1 : Int) ≠ 2 by decide
  obtain ⟨hlength, hpairs, -, happart⟩ := ids_increasing s
  exact ⟨s, s', rfl, rfl, rfl, rfl, hlength, hpairs, fun x hx y hy ↦
    (happart s' hmachine x hx y hy).2⟩

end Spkdfs
