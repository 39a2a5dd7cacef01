import Mathlib.Algebra.Group.Int.Defs
import Mathlib.Data.List.Pairwise
import Spkdfs.Node.Handlers

namespace Spkdfs

open Library RocksDB

theorem digitChar_injective : ∀ d < 16, ∀ e < 16, Nat.digitChar d = Nat.digitChar e → d = e := by
  decide

theorem toDigits_injective : Function.Injective (Nat.toDigits 16) := by
  intro n
  induction n using Nat.strongRecOn with
  | ind n ih =>
    intro m h
    rw [Nat.toDigits_eq_if (by decide), Nat.toDigits_eq_if (n := m) (by decide)] at h
    split at h <;> rename_i hn <;> split at h <;> rename_i hm
    · exact digitChar_injective n hn m hm (List.singleton_inj.mp h)
    · have hlen := congrArg List.length h
      have hpos := Nat.length_toDigits_pos (b := 16) (n := m / 16)
      simp only [List.length_append, List.length_singleton] at hlen
      omega
    · have hlen := congrArg List.length h
      have hpos := Nat.length_toDigits_pos (b := 16) (n := n / 16)
      simp only [List.length_append, List.length_singleton] at hlen
      omega
    · obtain ⟨hq, hr⟩ := List.append_inj' h rfl
      have hq := ih (n / 16) (by omega) hq
      have hr := digitChar_injective _ (Nat.mod_lt n (by omega)) _ (Nat.mod_lt m (by omega))
        (List.singleton_inj.mp hr)
      omega

namespace SnowflakeIDGenerator

variable {m s : Nat} {t : Int}

/-- The three fields of an id do not overlap. -/
theorem toNat_id (hm : m < 1024) (hs : s < 4096) :
    (id m t s).toNat = ((t - epoch) % 2 ^ 42).toNat * 2 ^ 22 + (m * 2 ^ 12 + s) := by
  have hlow : m <<< 12 ||| s = m * 2 ^ 12 + s := by
    rw [← Nat.shiftLeft_add_eq_or_of_lt (by omega), Nat.shiftLeft_eq]
  have hhigh : ((t - epoch) % 2 ^ 42).toNat <<< 22 ||| (m * 2 ^ 12 + s) =
      ((t - epoch) % 2 ^ 42).toNat * 2 ^ 22 + (m * 2 ^ 12 + s) := by
    rw [← Nat.shiftLeft_add_eq_or_of_lt (by omega), Nat.shiftLeft_eq]
  have htime : ((BitVec.ofInt 64 (t - epoch)) <<< 22).toNat =
      ((t - epoch) % 2 ^ 42).toNat <<< 22 := by
    rw [BitVec.toNat_shiftLeft, BitVec.toNat_ofInt, Nat.shiftLeft_eq, Nat.shiftLeft_eq]
    omega
  have hmachine : (BitVec.ofInt 64 (m * 4096)).toNat = m <<< 12 := by
    rw [BitVec.toNat_ofInt, Nat.shiftLeft_eq]
    omega
  have hsequence : (BitVec.ofNat 64 s).toNat = s := by
    rw [BitVec.toNat_ofNat]
    omega
  rw [id, BitVec.toNat_or, BitVec.toNat_or, htime, hmachine, hsequence, Nat.or_assoc, hlow, hhigh]

end SnowflakeIDGenerator

/-- A `put_ok_batch` that a namenode accepts, with what it proposes. -/
structure AcceptedBatch where
  db : RocksDB
  env : Env
  reqs : List NNPutOKRequest
  inodes : List Inode
  agg : AggInode
  accepted : Namenode.putOkBatch db env reqs = .ok [.opPutOkBatch inodes, .opPutAgg agg]

namespace AcceptedBatch

def MachineId (b : AcceptedBatch) (m : Nat) : Prop := stoi (basePart '.' b.env.myIp) = .ok m

/-- The two requests are answered by one namenode. -/
def SameNode (a b : AcceptedBatch) : Prop := ∃ m, a.MachineId m ∧ b.MachineId m

/-- The two aggregates have different ids, and the one stored later leaves the other alone. -/
def Apart (a b : AcceptedBatch) : Prop :=
  a.agg.id ≠ b.agg.id ∧
    ∀ db db', internalPutAgg db b.agg = .ok db' → db'.find a.agg.id = db.find a.agg.id

end AcceptedBatch

/-- Two readings of the clock that leave the same in an id: 42 bits of the time and, since
the generator starts with the time -1, a sequence number that tells this reading from others. -/
def SameTick (r r' : Int) : Prop := (r - r') % 2 ^ 42 = 0 ∧ (r = -1 ↔ r' = -1)

def firstSequence (reading : Int) : Nat := if reading = -1 then 1 else 0

variable {a b : AcceptedBatch} {m m' : Nat}

theorem AcceptedBatch.id_eq (h : b.MachineId m) :
    b.agg.id = Nat.toDigits 16
      (SnowflakeIDGenerator.id m b.env.millis (firstSequence b.env.millis)).toNat := by
  have haccepted := b.accepted
  unfold Namenode.putOkBatch at haccepted
  simp only [bind_eq_ok, pure_eq_ok, Except.ok.injEq] at haccepted
  obtain ⟨machineId, hmachine, members, -, he⟩ := haccepted
  obtain rfl := Except.ok.inj (hmachine.symm.trans h)
  simp only [List.cons.injEq, Entry.opPutAgg.injEq, and_true] at he
  rw [← he.2]
  by_cases hr : b.env.millis = -1
  · simp [SnowflakeIDGenerator.generateID, firstSequence, hr, SnowflakeIDGenerator.sequenceMask]
  · simp [SnowflakeIDGenerator.generateID, firstSequence, hr]

theorem AcceptedBatch.id_eq_iff (ha : a.MachineId m) (hb : b.MachineId m') (hm : m < 1024)
    (hm' : m' < 1024) : a.agg.id = b.agg.id ↔ m = m' ∧ SameTick a.env.millis b.env.millis := by
  have hseq : ∀ r, firstSequence r < 4096 := by
    intro r
    unfold firstSequence
    split <;> omega
  rw [a.id_eq ha, b.id_eq hb, toDigits_injective.eq_iff,
    SnowflakeIDGenerator.toNat_id hm (hseq _), SnowflakeIDGenerator.toNat_id hm' (hseq _)]
  unfold firstSequence SameTick
  constructor
  · intro h
    split at h <;> split at h <;> omega
  · rintro ⟨rfl, htime, hfirst⟩
    split <;> split <;> omega

theorem AcceptedBatch.apart_iff : a.Apart b ↔ a.agg.id ≠ b.agg.id := by
  refine ⟨fun h ↦ h.1, fun h ↦ ⟨h, fun db db' hput ↦ ?_⟩⟩
  obtain rfl := Except.ok.inj hput
  exact db.find_put_of_ne (v := .agg b.agg) h

/-- The aggregates of all batches are kept apart if and only if no namenode reads one
millisecond twice. -/
theorem aggregates_apart_iff (served : List AcceptedBatch)
    (hm : ∀ b ∈ served, ∃ m < 1024, b.MachineId m) :
    served.Pairwise AcceptedBatch.Apart ↔
      served.Pairwise fun a b ↦ a.SameNode b → ¬ SameTick a.env.millis b.env.millis := by
  refine List.Pairwise.iff_of_mem fun {a b} ha hb ↦ ?_
  obtain ⟨m, hlt, ha⟩ := hm a ha
  obtain ⟨m', hlt', hb⟩ := hm b hb
  rw [AcceptedBatch.apart_iff, Ne, AcceptedBatch.id_eq_iff ha hb hlt hlt', not_and]
  constructor
  · rintro h ⟨k, hak, hbk⟩
    have hmk := Int.ofNat_inj.mp (Except.ok.inj (ha.symm.trans hak))
    have hmk' := Int.ofNat_inj.mp (Except.ok.inj (hb.symm.trans hbk))
    exact h (hmk.trans hmk'.symm)
  · intro h he
    exact h ⟨m, ha, he ▸ hb⟩

theorem AcceptedBatch.machineId_of_mem_pair (ha : a.MachineId m) (hb : b.MachineId m)
    (hm : m < 1024) : ∀ c ∈ [a, b], ∃ m < 1024, c.MachineId m := by
  intro c hc
  simp only [List.mem_cons, List.not_mem_nil, or_false] at hc
  rcases hc with rfl | rfl
  · exact ⟨m, hm, ha⟩
  · exact ⟨m, hm, hb⟩

theorem exists_acceptedBatch (db : RocksDB) (env : Env) (reqs : List NNPutOKRequest)
    (hid : stoi (basePart '.' env.myIp) = .ok (m : Int))
    (h : (Namenode.putOkBatch db env reqs).isOk = true) :
    ∃ b : AcceptedBatch, b.env = env ∧ b.reqs = reqs ∧ b.MachineId m := by
  cases hx : Namenode.putOkBatch db env reqs with
  | error f =>
    rw [hx] at h
    cases h
  | ok entries =>
    obtain ⟨is, agg, -, -, rfl⟩ := Namenode.putOkBatch_ok hx
    exact ⟨⟨db, env, reqs, is, agg, hx⟩, rfl, rfl, hid⟩

/-- A store with one file that was put and is not yet committed. -/
def oneFile : RocksDB :=
  Table.empty.put
    (.inode { Inode.ofPath "/f".toList with valid := true, storageType := some (.agg 2 1 1) })

def commitFile : List NNPutOKRequest := [⟨"/f".toList, 7, ["n|h,0|7".toList]⟩]

theorem aggregates_apart_next_millisecond :
    ∃ a b : AcceptedBatch, a.env.millis = 5 ∧ b.env.millis = 6 ∧ a.reqs = commitFile ∧
      b.reqs = commitFile ∧ a.SameNode b ∧ a.Apart b := by
  obtain ⟨a, ha, har, ha'⟩ := exists_acceptedBatch (m := 1) oneFile ⟨"10.0.0.1".toList, 100, 5⟩
    commitFile (by decide) (by decide +kernel)
  obtain ⟨b, hb, hbr, hb'⟩ := exists_acceptedBatch (m := 1) oneFile ⟨"10.0.0.1".toList, 100, 6⟩
    commitFile (by decide) (by decide +kernel)
  have hm := AcceptedBatch.machineId_of_mem_pair ha' hb' (by decide)
  have hticks : [a, b].Pairwise fun a b ↦ a.SameNode b → ¬ SameTick a.env.millis b.env.millis := by
    simp [ha, hb, SameTick]
  have hapart := (aggregates_apart_iff [a, b] hm).mpr hticks
  refine ⟨a, b, by rw [ha], by rw [hb], har, hbr, ⟨1, ha', hb'⟩, ?_⟩
  exact List.rel_of_pairwise_cons hapart (by simp)

/-- Two requests in one millisecond, each with a generator of its own. -/
theorem aggregates_not_apart :
    ¬ ∀ served : List AcceptedBatch, (∀ b ∈ served, ∃ m < 1024, b.MachineId m) →
      (served.Pairwise fun a b ↦ a.SameNode b → a.env.millis ≤ b.env.millis) →
        served.Pairwise AcceptedBatch.Apart := by
  intro h
  obtain ⟨a, ha, -, ha'⟩ := exists_acceptedBatch (m := 1) oneFile ⟨"10.0.0.1".toList, 100, 5⟩
    commitFile (by decide) (by decide +kernel)
  obtain ⟨b, hb, -, hb'⟩ := exists_acceptedBatch (m := 1) oneFile ⟨"10.0.0.1".toList, 100, 5⟩
    [⟨"/f".toList, 9, ["n|h,0|9".toList]⟩] (by decide) (by decide +kernel)
  have hm := AcceptedBatch.machineId_of_mem_pair ha' hb' (by decide)
  have hapart := h [a, b] hm (by simp [ha, hb])
  have hsame : a.agg.id = b.agg.id :=
    (AcceptedBatch.id_eq_iff ha' hb' (by decide) (by decide)).mpr ⟨rfl, by simp [SameTick, ha, hb]⟩
  exact (List.rel_of_pairwise_cons hapart (by simp)).1 hsame

end Spkdfs
