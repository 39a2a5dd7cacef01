import Spkdfs.Client.Transfer

namespace Spkdfs

open Library

/-- A division of ints; one by zero ends the process. -/
def tdivChecked (a b : Int) : Option Int := if b = 0 then none else some (a.tdiv b)

def divChecked (a b : Nat) : Option Nat := if b = 0 then none else some (a / b)

def modChecked (a b : Nat) : Option Nat := if b = 0 then none else some (a % b)

/-- `split_all_block` with its divisions. -/
def splitChecked (content : Str) (blockSize : Nat) : Option (List Str) := do
  let blockNums ← divChecked content.length blockSize
  let bytesRemained ← modChecked content.length blockSize
  let (tmp, vec) := copyBlocks content blockSize blockNums
  return if 0 < bytesRemained then
      vec ++ [memcpy tmp (content.drop (blockNums * blockSize)) bytesRemained]
    else vec

/-- `get_indexs` with its divisions. -/
def indexsChecked (inode : Inode) (offset size : Nat) : Option (Int × Int) := do
  let first ← tdivChecked (toInt32 offset) inode.getBlockSize
  let last ← tdivChecked (toInt32 ((offset + size : Nat) : Int)) inode.getBlockSize
  return (first, last + 1)

/-- The two remainders that `write_data` takes. -/
def remaindersChecked (inode : Inode) (offset size : Nat) : Option (Nat × Nat) := do
  let left ← modChecked offset (toUInt64 inode.getBlockSize)
  let right ← modChecked ((offset + size) % 2 ^ 64) (toUInt64 inode.getBlockSize)
  return (left, right)

/-- The number of blocks that `_truncate` keeps. -/
def truncateChecked (inode : Inode) (size : Nat) : Option Int :=
  tdivChecked (toInt32 size + inode.getBlockSize - 1) inode.getBlockSize

namespace StorageType

/-- The parameter that is the block size in MiB. -/
def b : StorageType → Nat
  | .rs _ _ b | .re _ b | .agg _ _ b => b

/-- The fragments or replications without which there is nothing to decode. -/
def needed : StorageType → Nat
  | .rs k _ _ | .agg k _ _ => k
  | .re replications _ => replications

/-- What the client relies on in a file of this storage type. -/
structure Usable (code : ErasureCode) (t : StorageType) : Prop where
  positive : 0 < t.getBlockSize
  exact : t.getBlockSize = t.b * 1048576
  decodable : 1 ≤ t.getDecodeBlocks
  encoded : ∀ block, ∃ vec, t.encode code block = .ok vec ∧ t.getDecodeBlocks ≤ vec.length
  split : ∀ content, splitChecked content (toUInt64 t.getBlockSize) =
    some (splitAllBlock content (toUInt64 t.getBlockSize))
  indexs : ∀ inode offset size, inode.storageType = some t →
    indexsChecked inode offset size = some (SDK.getIndexs inode offset size)
  write : ∀ inode offset size, inode.storageType = some t →
    remaindersChecked inode offset size = some (offset % toUInt64 t.getBlockSize,
      (offset + size) % 2 ^ 64 % toUInt64 t.getBlockSize)
  truncate : ∀ inode size, inode.storageType = some t →
    truncateChecked inode size = some (alignUp (toInt32 size) t.getBlockSize)

variable {t : StorageType} {code : ErasureCode}

theorem getBlockSize_eq (t : StorageType) :
    t.getBlockSize = (BitVec.ofNat 32 (t.b * 1024 * 1024)).toInt := by
  cases t <;> rfl

/-- The product stays inside an `int` up to 2047 MiB. -/
theorem getBlockSize_exact_iff : t.getBlockSize = t.b * 1048576 ↔ t.b ≤ 2047 := by
  rw [getBlockSize_eq, BitVec.toInt_eq_toNat_cond, BitVec.toNat_ofNat]
  split <;> omega

theorem getBlockSize_inode {inode : Inode} (h : inode.storageType = some t) :
    inode.getBlockSize = t.getBlockSize := by
  rw [Inode.getBlockSize, h]
  rfl

theorem toUInt64_getBlockSize_ne_zero (h : 0 < t.getBlockSize) : toUInt64 t.getBlockSize ≠ 0 := by
  have hlt := t.getBlockSize_lt
  rw [toUInt64, BitVec.toNat_ofInt]
  omega

/-- A codec that returns `k + m` fragments. -/
def Fragments (code : ErasureCode) : Prop :=
  ∀ k m block, ∃ vec, code.encode k m block = .ok vec ∧ vec.length = k + m

theorem encode_length (hcode : Fragments code) (block : Str) :
    ∃ vec, t.encode code block = .ok vec ∧ vec.length = t.getBlocks := by
  cases t with
  | rs k m b => exact hcode k m block
  | re replications b => exact ⟨_, rfl, List.length_replicate⟩
  | agg k m b => exact hcode k m block

theorem usable_of_bounds (hcode : Fragments code) (hb : 1 ≤ t.b ∧ t.b ≤ 2047)
    (hneeded : 1 ≤ t.needed) : Usable code t := by
  have hexact := getBlockSize_exact_iff.mpr hb.2
  have hpos : 0 < t.getBlockSize := by omega
  have hne : t.getBlockSize ≠ 0 := by omega
  have hne' := toUInt64_getBlockSize_ne_zero hpos
  refine ⟨hpos, hexact, ?_, fun block ↦ ?_, fun content ↦ ?_, fun inode offset size hi ↦ ?_,
    fun inode offset size hi ↦ ?_, fun inode size hi ↦ ?_⟩
  · cases t with
    | rs k m b => exact hneeded
    | re replications b => exact le_rfl
    | agg k m b => exact hneeded
  · obtain ⟨vec, hvec, hlength⟩ := encode_length (t := t) hcode block
    refine ⟨vec, hvec, ?_⟩
    rw [hlength]
    cases t with
    | rs k m b => exact Nat.le_add_right k m
    | re replications b => exact hneeded
    | agg k m b => exact Nat.le_add_right k m
  · rw [splitChecked, divChecked, modChecked, if_neg hne', if_neg hne']
    rfl
  · rw [indexsChecked, tdivChecked, tdivChecked, getBlockSize_inode hi, if_neg hne, if_neg hne,
      SDK.getIndexs, getBlockSize_inode hi]
    rfl
  · rw [remaindersChecked, modChecked, modChecked, getBlockSize_inode hi, if_neg hne', if_neg hne']
    rfl
  · rw [truncateChecked, tdivChecked, getBlockSize_inode hi, if_neg hne]
    rfl

theorem Usable.bounds (h : Usable code t) : (1 ≤ t.b ∧ t.b ≤ 2047) ∧ 1 ≤ t.needed := by
  have hpos := h.positive
  have hexact := h.exact
  refine ⟨⟨by omega, getBlockSize_exact_iff.mp hexact⟩, ?_⟩
  have hdecodable := h.decodable
  obtain ⟨vec, hvec, hle⟩ := h.encoded []
  cases t with
  | rs k m b => exact hdecodable
  | re replications b =>
    obtain rfl := Except.ok.inj hvec
    rw [List.length_replicate] at hle
    exact hle
  | agg k m b => exact hdecodable

end StorageType

/-- A storage type that is accepted is usable if and only if its blocks have between 1 and 2047 MiB
and it has at least one data fragment or replication. -/
theorem usable_iff {s : Str} {t : StorageType} {code : ErasureCode}
    (_h : StorageType.fromString s = .ok t) (hcode : StorageType.Fragments code) :
    StorageType.Usable code t ↔ (1 ≤ t.b ∧ t.b ≤ 2047) ∧ 1 ≤ t.needed :=
  ⟨fun h ↦ h.bounds, fun h ↦ StorageType.usable_of_bounds hcode h.1 h.2⟩

/-- A codec whose fragments are all copies. -/
def copyingCode : ErasureCode :=
  ⟨fun k m block ↦ .ok (List.replicate (k + m) block), fun _ _ vec ↦ .ok (vec.headD [])⟩

theorem usable_replicated : StorageType.fromString "RE<3,64>".toList = .ok (.re 3 64) ∧
    StorageType.Usable copyingCode (.re 3 64) := by
  have hread : StorageType.fromString "RE<3,64>".toList = .ok (.re 3 64) := by decide
  have hcode : StorageType.Fragments copyingCode := fun k m block ↦ ⟨_, rfl, List.length_replicate⟩
  exact ⟨hread, (usable_iff hread hcode).mpr (by decide)⟩

/-- Blocks of 0 MiB are accepted and stored, and the first division of `put` is by zero. -/
theorem not_usable_without_block_size :
    StorageType.fromString "RE<3,0>".toList = .ok (.re 3 0) ∧
      splitChecked "ab".toList (toUInt64 (StorageType.getBlockSize (.re 3 0))) = none ∧
      ¬ ∀ s t code, StorageType.fromString s = .ok t → StorageType.Fragments code →
        StorageType.Usable code t := by
  have hread : StorageType.fromString "RE<3,0>".toList = .ok (.re 3 0) := by decide
  refine ⟨hread, by decide, fun h ↦ ?_⟩
  have husable := h _ _ copyingCode hread fun k m block ↦ ⟨_, rfl, List.length_replicate⟩
  exact absurd husable.positive (by decide)

end Spkdfs
