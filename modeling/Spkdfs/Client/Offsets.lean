import Spkdfs.Client.Fsync
import Spkdfs.Client.SerialWriters

namespace Spkdfs

open Library Procedure Function

theorem toInt32_eq (x : Nat) :
    toInt32 x = if x % 2 ^ 32 < 2 ^ 31 then ((x % 2 ^ 32 : Nat) : Int)
      else ((x % 2 ^ 32 : Nat) : Int) - 2 ^ 32 := by
  rw [toInt32, BitVec.toInt_eq_toNat_cond, BitVec.toNat_ofInt]
  have hcast : ((x : Int) % (2 ^ 32 : Nat)).toNat = x % 2 ^ 32 := by omega
  rw [hcast]
  split <;> omega

/-- The quotient of a number that is cut to an `int` is exact only below 2 GiB: further up it is
negative, or that of a number smaller by at least 4 GiB. -/
theorem tdiv_toInt32_iff {n : Nat} (hpos : 0 < n) (hn : n < 2 ^ 31) (x : Nat) :
    (toInt32 x).tdiv n = ((x / n : Nat) : Int) ↔ x < 2 ^ 31 := by
  constructor
  · intro h
    by_contra hx
    rw [toInt32_eq] at h
    split at h
    · have hlt : x % 2 ^ 32 + n ≤ x := by omega
      have hdiv := Nat.div_le_div_right (c := n) hlt
      rw [Nat.add_div_right _ hpos] at hdiv
      rw [← Int.ofNat_tdiv] at h
      omega
    · have hone : 1 ≤ x / n := (Nat.one_le_div_iff hpos).mpr (by omega)
      have hneg : ((x % 2 ^ 32 : Nat) : Int) - 2 ^ 32 = -((2 ^ 32 - x % 2 ^ 32 : Nat) : Int) := by
        omega
      have hback : 0 ≤ (((2 ^ 32 - x % 2 ^ 32 : Nat) : Int).tdiv n) :=
        Int.tdiv_nonneg (Int.natCast_nonneg _) (Int.natCast_nonneg _)
      rw [hneg, Int.neg_tdiv] at h
      omega
  · intro hx
    rw [SDK.toInt32_of_lt hx, ← Int.ofNat_tdiv]

namespace SDK

variable {inode : Inode} {n offset size last : Nat}

theorem getBlockSize_natCast_lt (hn : inode.getBlockSize = n) : n < 2 ^ 31 := by
  have hbound := inode.getBlockSize_lt
  omega

theorem getIndexs_exact_iff (hn : inode.getBlockSize = n) (hpos : 0 < n) :
    getIndexs inode offset size =
        (((offset / n : Nat) : Int), (((offset + size) / n + 1 : Nat) : Int)) ↔
      offset + size < 2 ^ 31 := by
  have hlt : n < 2 ^ 31 := getBlockSize_natCast_lt hn
  rw [getIndexs, alignIndexDown, alignIndexUp, hn, Prod.mk.injEq, tdiv_toInt32_iff hpos hlt]
  have hup : (toInt32 ((offset + size : Nat) : Int)).tdiv n + 1 =
      (((offset + size) / n + 1 : Nat) : Int) ↔ offset + size < 2 ^ 31 := by
    rw [← tdiv_toInt32_iff hpos hlt (offset + size)]
    omega
  rw [hup]
  omega

/-- Where `read_data` begins in the blocks that it has read. -/
def readPosition (inode : Inode) (offset size : Nat) : Int :=
  offset - (getIndexs inode offset size).1 * inode.getBlockSize

theorem readPosition_exact_iff (hn : inode.getBlockSize = n) (hpos : 0 < n) :
    readPosition inode offset size = offset - ((offset / n : Nat) : Int) * n ↔ offset < 2 ^ 31 := by
  have hlt : n < 2 ^ 31 := getBlockSize_natCast_lt hn
  have hne : (n : Int) ≠ 0 := by omega
  rw [readPosition, getIndexs, hn, alignIndexDown, ← tdiv_toInt32_iff hpos hlt]
  constructor
  · intro h
    exact Int.eq_of_mul_eq_mul_right hne (Int.sub_right_inj _ |>.mp h)
  · intro h
    rw [h]

/-- The sizes that `fsync` commits as they are: those of an `int`, and, since the sign is extended
again, the last 2 GiB of 64-bit sizes, unless a last block of 2 GiB and more wraps past them. -/
def SizeKept (inode : Inode) (n last length : Nat) : Prop :=
  max inode.filesize (last * n + length) < 2 ^ 31 ∨
    2 ^ 64 - 2 ^ 31 ≤ inode.filesize ∧
      ((last * n : Int) + toInt32 length < 0 →
        2 ^ 64 + (last * n : Int) + toInt32 length ≤ inode.filesize)

theorem writtenSize_exact_iff {block : Str} (hn : inode.getBlockSize = n)
    (hlast : last < 2 ^ 31) (hsize : inode.filesize < 2 ^ 64) (hlength : block.length < 2 ^ 63) :
    toUInt64 (toInt32 (writtenSize inode last block)) =
        max inode.filesize (last * n + block.length) ↔
      SizeKept inode n last block.length := by
  have hlt : n < 2 ^ 31 := getBlockSize_natCast_lt hn
  have hproduct : last * n < 2 ^ 31 * 2 ^ 31 := Nat.mul_lt_mul'' hlast hlt
  rw [SizeKept, writtenSize, toUInt64_getBlockSize hn, toUInt64_toInt32_eq, toUInt64_toInt32_eq,
    toInt32_eq]
  rw [← Int.natCast_mul]
  generalize last * n = start at hproduct ⊢
  generalize block.length = length at hlength ⊢
  split_ifs <;> omega

/-- What `fsync` has to commit: the indices of the blocks are ints, and the last one and what its
file holds decide the size. -/
theorem fsync_committed {path : Str} {nodes : Datanodes} {during : List Action} {v w : View}
    {block : Str} {commit : Commit} (hc : v.sdk.cache path = some inode)
    (hlast : (dirtyBlocks (v.sdk.dir path)).getLast? = some (last, block))
    (h : (fsync path nodes during).run v = some (.ok (some commit), w)) :
    last < 2 ^ 31 ∧
      commit.inode.filesize = toUInt64 (toInt32 (writtenSize inode last block)) := by
  rw [fsync, run_bind_ok (run_get v)] at h
  dsimp only at h
  split at h
  · cases h
  rename_i hfew
  have hmem := List.mem_of_getLast? hlast
  have hsmall : last < 2 ^ 31 := by
    by_contra hle
    exact hfew (List.any_eq_true.mpr ⟨_, hmem, decide_eq_true (by omega)⟩)
  refine ⟨hsmall, ?_⟩
  rw [hlast] at h
  dsimp only at h
  rw [run_bind_ok (getInode_ok.mpr ⟨hc, rfl⟩)] at h
  obtain ⟨sub, u, -, h⟩ := bind_ok h
  obtain ⟨entry, u', hrpc, h⟩ := bind_ok h
  obtain ⟨l, -, hput⟩ := rpc_ok hrpc
  obtain ⟨i, rfl, -, hsize⟩ := Leader.rpc_putOk hput
  obtain ⟨he, -⟩ := Prod.mk.inj (Option.some.inj h)
  obtain rfl := Option.some.inj (Except.ok.inj he)
  exact hsize

end SDK

/-- Offsets and sizes are exact below 2 GiB: the block indices as long as the end of the range is,
the position in the first block as long as its begin is, and the size that `fsync` commits as long
as it is itself, or is one of those that the way through an `int` and back leaves alone. -/
theorem offsets_exact_iff {inode : Inode} {n offset size : Nat} (hn : inode.getBlockSize = n)
    (hpos : 0 < n) (_hsum : offset + size < 2 ^ 63) (hsize : inode.filesize < 2 ^ 64) :
    ((offset / n < 2 ^ 31 → (offset + size) / n + 1 < 2 ^ 31 →
        SDK.getIndexs inode offset size =
          (((offset / n : Nat) : Int), (((offset + size) / n + 1 : Nat) : Int))) ↔
      (offset / n < 2 ^ 31 → (offset + size) / n + 1 < 2 ^ 31 → offset + size < 2 ^ 31)) ∧
    (SDK.readPosition inode offset size = offset - ((offset / n : Nat) : Int) * n ↔
      offset < 2 ^ 31) ∧
    ∀ (path : Str) (nodes : Datanodes) (during : List Action) (v w : View) (last : Nat)
      (block : Str) (commit : Commit), v.sdk.cache path = some inode →
      (SDK.dirtyBlocks (v.sdk.dir path)).getLast? = some (last, block) → block.length < 2 ^ 63 →
      (SDK.fsync path nodes during).run v = some (.ok (some commit), w) →
      (commit.inode.filesize = max inode.filesize (last * n + block.length) ↔
        SDK.SizeKept inode n last block.length) := by
  refine ⟨?_, SDK.readPosition_exact_iff hn hpos, ?_⟩
  · rw [SDK.getIndexs_exact_iff hn hpos]
  · intro path nodes during v w last block commit hc hlast hlength hrun
    obtain ⟨hsmall, hcommit⟩ := SDK.fsync_committed hc hlast hrun
    rw [hcommit]
    exact SDK.writtenSize_exact_iff hn hsmall hsize hlength

/-- The session that wrote a byte to a file of `filesize`. -/
def sizedView (filesize : Nat) : View :=
  let v := (edited 0 1).view
  { v with sdk := { v.sdk with
      cache := update v.sdk.cache "/f".toList (some { emptyInode with filesize := filesize }) } }

theorem sizedView_cache (filesize : Nat) :
    (sizedView filesize).sdk.cache "/f".toList = some { emptyInode with filesize := filesize } := by
  simp only [sizedView, update_self]

theorem committed_of_any {m : Option (Except Fault (Option Commit) × View)} {filesize : Nat}
    (h : (m.any fun r ↦ r.1.toOption.any fun c ↦ c.any (·.inode.filesize = filesize)) = true) :
    ∃ commit w, m = some (.ok (some commit), w) ∧ commit.inode.filesize = filesize := by
  obtain ⟨⟨r, w⟩, rfl, hr⟩ := (Option.any_eq_true _ _).mp h
  obtain ⟨c, hr, hc⟩ := (Option.any_eq_true _ _).mp hr
  obtain ⟨commit, rfl, hsize⟩ := (Option.any_eq_true _ _).mp hc
  cases r with
  | error f => cases hr
  | ok c' =>
    obtain rfl := Option.some.inj hr
    exact ⟨commit, w, rfl, of_decide_eq_true hsize⟩

/-- A byte in a file of 2 MiB: the `fsync` leaves the size as it is. -/
theorem offsets_exact_two_blocks :
    SDK.getIndexs { emptyInode with filesize := 2097152 } 1048577 3 = (1, 2) ∧
      SDK.readPosition { emptyInode with filesize := 2097152 } 1048577 3 = 1 ∧
      ∃ commit w, (SDK.fsync "/f".toList .byContent [.apply]).run (sizedView 2097152) =
        some (.ok (some commit), w) ∧ commit.inode.filesize = 2097152 := by
  have hn : ({ emptyInode with filesize := 2097152 } : Inode).getBlockSize = (1048576 : Nat) := by
    decide +kernel
  obtain ⟨hindexs, hposition, hfsync⟩ := offsets_exact_iff hn (by decide)
    (show 1048577 + 3 < 2 ^ 63 by decide) (by decide)
  refine ⟨hindexs.mpr (by decide) (by decide) (by decide), hposition.mpr (by decide), ?_⟩
  have hany : (((SDK.fsync "/f".toList .byContent [.apply]).run (sizedView 2097152)).any fun r ↦
      r.1.toOption.any fun c ↦ c.any (·.inode.filesize = 2097152)) = true := by decide +kernel
  obtain ⟨commit, w, hrun, -⟩ := committed_of_any hany
  have hblock : (SDK.dirtyBlocks ((sizedView 2097152).sdk.dir "/f".toList)).getLast? =
      some (0, "a".toList) := by decide +kernel
  have hcommit := hfsync _ _ _ _ w 0 _ commit (sizedView_cache _) hblock (by decide) hrun
  have hsize : max 2097152 (0 * 1048576 + "a".toList.length) = 2097152 := by decide +kernel
  refine ⟨commit, w, hrun, (hcommit.mpr (.inl ?_)).trans hsize⟩
  exact hsize.trans_lt (by decide)

/-- An offset of 2 GiB is cut to a negative one, and so is the size of a file of 3 GiB in which a
byte was written. -/
theorem offsets_cut :
    SDK.getIndexs emptyInode 2147483648 1 = (-2048, -2046) ∧
      SDK.readPosition emptyInode 2147483648 1 = 4294967296 ∧
      (SDK.dirtyBlocks ((sizedView 3221225472).sdk.dir "/f".toList)).getLast? =
        some (0, "a".toList) ∧
      ∃ commit w, (SDK.fsync "/f".toList .byContent [.apply]).run (sizedView 3221225472) =
        some (.ok (some commit), w) ∧ commit.inode.filesize = 18446744072635809792 := by
  refine ⟨by decide +kernel, by decide +kernel, by decide +kernel, ?_⟩
  exact committed_of_any (m := (SDK.fsync "/f".toList .byContent [.apply]).run (sizedView 3221225472))
    (by decide +kernel)

end Spkdfs
