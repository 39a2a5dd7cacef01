import Spkdfs.Client.Writing

namespace Spkdfs

open Library Procedure

namespace Piece

/-- The range of the file that the piece is for. -/
def range (blockSize : Int) (p : Piece) : Int × Int :=
  (p.index * blockSize + p.left, p.index * blockSize + p.right)

/-- The part of the block is one, and there are as many bytes as it is long. -/
structure Fits (blockSize : Int) (p : Piece) : Prop where
  order : p.left ≤ p.right
  bound : (p.right : Int) ≤ blockSize
  length : p.bytes.length = p.right - p.left

end Piece

/-- The pieces take the data apart, and their ranges the part of the file from `start` to `stop`. -/
structure Cuts (blockSize start stop : Int) (data : Str) (ps : List Piece) : Prop where
  fits : ∀ p ∈ ps, p.Fits blockSize
  whole : (ps.map (·.bytes)).flatten = data
  tiles : Tiles start stop (ps.map (Piece.range blockSize))

theorem Cuts.nil {blockSize start : Int} : Cuts blockSize start start [] [] :=
  ⟨by simp, rfl, .nil start⟩

theorem Cuts.cons {blockSize start next stop : Int} {data : Str} {p : Piece} {ps : List Piece}
    (hp : p.Fits blockSize) (hrange : p.range blockSize = (start, next)) (hle : start ≤ next)
    (h : Cuts blockSize next stop data ps) :
    Cuts blockSize start stop (p.bytes ++ data) (p :: ps) where
  fits := List.forall_mem_cons.mpr ⟨hp, h.fits⟩
  whole := by rw [List.map_cons, List.flatten_cons, h.whole]
  tiles := by
    rw [List.map_cons, hrange]
    exact .cons hle h.tiles

namespace SDK

/-- How the loop of `write_data` takes the data apart: `localSize` bytes for each block, from where
the iterator stands. -/
def cutBlocks (offset size blockSize : Nat) (indexs : Int × Int) : List Int → Str → List Piece
  | [], _ => []
  | index :: rest, data =>
    let (left, right) := blockPart offset size blockSize indexs index
    ⟨index, left, right, data.take (right - left)⟩ ::
      cutBlocks offset size blockSize indexs rest (data.drop (right - left))

def pieces (blockSize : Int) (offset : Nat) (s : Str) : List Piece :=
  let indexs := blockIndexs blockSize offset s.length
  cutBlocks offset s.length (toUInt64 blockSize) indexs (loopIndices indexs) s

/-- What `write_data` reads before it writes: the first and the last block, where only a part of
them is written over. -/
def fetchEnds (inode : Inode) (offset size : Nat) (nodes : Datanodes) : Method Unit := do
  let blockSize := toUInt64 inode.getBlockSize
  let indexs := getIndexs inode offset size
  let fetch (needed : Prop) [Decidable needed] (index : Int) : Method Unit :=
    if needed then fetchBlock inode index nodes else pure ()
  fetch (offset < inode.filesize ∧ offset % blockSize ≠ 0) indexs.1
  fetch ((offset + size) % 2 ^ 64 < inode.filesize ∧ indexs.1 ≠ indexs.2 - 1 ∧
    (offset + size) % 2 ^ 64 % blockSize ≠ 0) (indexs.2 - 1)

variable {path s : Str} {offset size n i : Nat} {indexs : Int × Int} {indices : List Int} {v : View}
  {inode : Inode} {nodes : Datanodes} {blockSize : Int}

theorem cutBlocks_cons (index : Int) (data : Str) :
    cutBlocks offset size n indexs (index :: indices) data =
      ⟨index, (blockPart offset size n indexs index).1, (blockPart offset size n indexs index).2,
        data.take ((blockPart offset size n indexs index).2 -
          (blockPart offset size n indexs index).1)⟩ ::
        cutBlocks offset size n indexs indices (data.drop ((blockPart offset size n indexs index).2 -
          (blockPart offset size n indexs index).1)) := rfl

/-- The loop of `write_data` writes the pieces one after the other, when each fits. -/
theorem writeBlocks_eq_forM {data : Str}
    (h : ∀ p ∈ cutBlocks offset size n indexs indices data, p.Fits blockSize) :
    writeBlocks path offset size n indexs indices data =
      (cutBlocks offset size n indexs indices data).forM (writePiece path) := by
  induction indices generalizing data with
  | nil => rfl
  | cons index indices ih =>
    rw [cutBlocks_cons, List.forall_mem_cons] at h
    obtain ⟨⟨horder, -, hlength⟩, hrest⟩ := h
    simp only [List.length_take] at hlength
    rw [cutBlocks_cons, List.forM_eq_forM, List.forM_cons, ← List.forM_eq_forM, ← ih hrest]
    exact funext fun v ↦ writeBlocks_cons rfl horder (by omega)

/-- Where in the file the piece for a block begins; behind the last block it is the end. -/
def pieceStart (offset size n i : Nat) : Nat := min (max (i * n) offset) (offset + size)

theorem pieceStart_of_le (h : i ≤ (offset + size) / n) :
    pieceStart offset size n i = max (i * n) offset := by
  have hle : i * n ≤ offset + size := (Nat.mul_le_mul_right n h).trans (Nat.div_mul_le_self _ n)
  rw [pieceStart]
  omega

theorem pieceStart_succ (size : Nat) (hpos : 0 < n) (h : offset / n ≤ i) :
    pieceStart offset size n (i + 1) = min ((i + 1) * n) (offset + size) := by
  have hlt : offset < (i + 1) * n := Nat.lt_mul_of_div_lt (Nat.lt_succ_of_le h) hpos
  rw [pieceStart, Nat.max_eq_left hlt.le]

theorem pieceStart_end (hpos : 0 < n) :
    pieceStart offset size n ((offset + size) / n + 1) = offset + size := by
  have hle : offset / n ≤ (offset + size) / n := Nat.div_le_div_right (Nat.le_add_right _ _)
  have hlt := Nat.lt_mul_of_div_lt (Nat.lt_succ_self ((offset + size) / n)) hpos
  rw [pieceStart_succ size hpos hle]
  exact Nat.min_eq_right hlt.le

theorem cutBlocks_cuts (hpos : 0 < n) (hsum : offset + size < 2 ^ 31) (count : Nat) (data : Str)
    (hfirst : offset / n ≤ i) (hcount : i + count = (offset + size) / n + 1)
    (hdata : data.length = offset + size - pieceStart offset size n i) :
    Cuts n (pieceStart offset size n i) (offset + size : Nat) data
      (cutBlocks offset size n
        (((offset / n : Nat) : Int), (((offset + size) / n + 1 : Nat) : Int))
        ((List.range' i count).map Int.ofNat) data) := by
  induction count generalizing i data with
  | zero =>
    obtain rfl : i = (offset + size) / n + 1 := by omega
    rw [pieceStart_end hpos, Nat.sub_self] at hdata
    rw [List.eq_nil_of_length_eq_zero hdata, pieceStart_end hpos]
    exact .nil
  | succ count ih =>
    have hlast : i ≤ (offset + size) / n := by omega
    have hstart := pieceStart_of_le hlast
    have hnext := pieceStart_succ size hpos hfirst
    have hmul : (i + 1) * n = i * n + n := Nat.succ_mul i n
    have hbelow : i * n ≤ offset + size :=
      (Nat.mul_le_mul_right n hlast).trans (Nat.div_mul_le_self _ n)
    have hreached : offset < (i + 1) * n := Nat.lt_mul_of_div_lt (Nat.lt_succ_of_le hfirst) hpos
    have hcast : (Int.ofNat i) * (n : Int) = ((i * n : Nat) : Int) := (Int.natCast_mul i n).symm
    generalize hstartAt : pieceStart offset size n i = start at hstart hdata ⊢
    generalize hnextAt : pieceStart offset size n (i + 1) = next at hnext
    have hlocal : next - start = min ((i + 1) * n) (offset + size) - i * n -
        (max (i * n) offset - i * n) := by omega
    have hfits : Piece.Fits n ⟨Int.ofNat i, max (i * n) offset - i * n,
        min ((i + 1) * n) (offset + size) - i * n, data.take (next - start)⟩ := by
      refine ⟨?_, ?_, ?_⟩
      · dsimp only
        omega
      · dsimp only
        omega
      · rw [List.length_take, ← hlocal]
        omega
    have hrange : Piece.range n ⟨Int.ofNat i, max (i * n) offset - i * n,
        min ((i + 1) * n) (offset + size) - i * n, data.take (next - start)⟩ =
          ((start : Int), (next : Int)) := by
      simp only [Piece.range, hcast, Prod.mk.injEq]
      omega
    have hdrop : (data.drop (next - start)).length =
        offset + size - pieceStart offset size n (i + 1) := by
      rw [List.length_drop, hnextAt]
      omega
    have hrest := ih (data.drop (next - start)) (by omega) (by omega) hdrop
    rw [hnextAt] at hrest
    have hcuts := hrest.cons hfits hrange (by omega)
    rw [List.range'_succ, List.map_cons, cutBlocks_cons, blockPart_eq hpos hsum hfirst hlast]
    simp only [List.take_append_drop] at hcuts
    simpa only [← hlocal] using hcuts

theorem toUInt64_of_lt {x : Nat} (h : x < 2 ^ 64) : toUInt64 (x : Int) = x := by
  rw [toUInt64, BitVec.toNat_ofInt]
  omega

theorem pieces_cuts (hpos : 0 < n) (hint : n < 2 ^ 31) (hsum : offset + s.length < 2 ^ 31) :
    Cuts n offset (offset + s.length : Nat) s (pieces n offset s) := by
  have hle : offset / n ≤ (offset + s.length) / n := Nat.div_le_div_right (Nat.le_add_right _ _)
  have hstart : pieceStart offset s.length n (offset / n) = offset := by
    rw [pieceStart_of_le hle]
    exact Nat.max_eq_right (Nat.div_mul_le_self _ n)
  have hcuts := cutBlocks_cuts hpos hsum ((offset + s.length) / n + 1 - offset / n) s
    le_rfl (by omega) (by omega)
  rw [hstart] at hcuts
  simpa only [pieces, blockIndexs_eq n hsum, loopIndices_eq, toUInt64_of_lt (by omega : n < 2 ^ 64)]
    using hcuts

theorem index_pieces (blockSize : Int) (offset : Nat) (s : Str) :
    (pieces blockSize offset s).map (·.index) = loopIndices (blockIndexs blockSize offset s.length) := by
  have hcut : ∀ (size n : Nat) (indexs : Int × Int) (indices : List Int) (data : Str),
      (cutBlocks offset size n indexs indices data).map (·.index) = indices := by
    intro size n indexs indices
    induction indices with
    | nil => exact fun data ↦ rfl
    | cons index indices ih =>
      intro data
      rw [cutBlocks_cons, List.map_cons, ih]
  exact hcut ..

/-- `write_data`: the blocks at the ends are read, then the pieces are written. -/
theorem writeData_eq (hc : v.sdk.cache path = some inode)
    (hfits : ∀ p ∈ pieces inode.getBlockSize offset s, p.Fits blockSize)
    (hpos : 0 < inode.getBlockSize) :
    (writeData path offset s nodes).run v =
      (do
        fetchEnds inode offset s.length nodes
        (pieces inode.getBlockSize offset s).forM (writePiece path)).run v := by
  have hget : (getInode path).run v = some (.ok inode, v) := getInode_ok.mpr ⟨hc, rfl⟩
  rw [writeData, run_bind_ok hget]
  have hloop : writeBlocks path offset s.length (toUInt64 inode.getBlockSize)
      (getIndexs inode offset s.length) (loopIndices (getIndexs inode offset s.length)) s =
        (pieces inode.getBlockSize offset s).forM (writePiece path) := writeBlocks_eq_forM hfits
  rw [loopIndices] at hloop
  simp only [if_neg hpos.ne', fetchEnds, bind_assoc]
  rw [hloop]

/-- How `write_data` cuts what it writes, for every block size that an `int` holds: the parts of the
blocks are in order and inside them, the bytes taken one after the other are the whole of `s`, and
their ranges in the file follow one another from `offset` to the end of what is written. -/
theorem writeData_pieces (hpos : 0 < blockSize) (hint : blockSize < 2 ^ 31)
    (hsum : offset + s.length < 2 ^ 31) :
    (pieces blockSize offset s).map (·.index) =
        loopIndices (blockIndexs blockSize offset s.length) ∧
      (∀ p ∈ pieces blockSize offset s, p.left ≤ p.right ∧ (p.right : Int) ≤ blockSize ∧
        p.bytes.length = p.right - p.left) ∧
      ((pieces blockSize offset s).map (·.bytes)).flatten = s ∧
      Tiles (offset : Int) (offset + s.length : Nat)
        ((pieces blockSize offset s).map (Piece.range blockSize)) ∧
      (∀ x : Int, (∃ p ∈ pieces blockSize offset s,
          (p.range blockSize).1 ≤ x ∧ x < (p.range blockSize).2) ↔
        (offset : Int) ≤ x ∧ x < (offset + s.length : Nat)) ∧
      ∀ (path : Str) (inode : Inode) (nodes : Datanodes) (v : View),
        inode.getBlockSize = blockSize → v.sdk.cache path = some inode →
          getIndexs inode offset s.length = blockIndexs blockSize offset s.length ∧
            (writeData path offset s nodes).run v =
              (do
                fetchEnds inode offset s.length nodes
                (pieces blockSize offset s).forM (writePiece path)).run v := by
  obtain ⟨n, rfl⟩ := Int.eq_ofNat_of_zero_le hpos.le
  have hcuts := pieces_cuts (n := n) (by omega) (by omega) hsum
  refine ⟨index_pieces n offset s, fun p hp ↦ ?_, hcuts.whole, hcuts.tiles, fun x ↦ ?_,
    fun path inode nodes v hn hc ↦ ?_⟩
  · obtain ⟨horder, hbound, hlength⟩ := hcuts.fits p hp
    exact ⟨horder, hbound, hlength⟩
  · rw [← hcuts.tiles.exists_mem_iff x]
    simp only [List.mem_map, exists_exists_and_eq_and]
  · rw [← hn] at hcuts hpos ⊢
    exact ⟨getIndexs_eq_blockIndexs inode offset s.length, writeData_eq hc hcuts.fits hpos⟩

/-- The data ends where a block does: nothing is left for the last block. -/
theorem writeData_pieces_boundary :
    ((0 : Int) < 5 ∧ (5 : Int) < 2 ^ 31 ∧ 4 + "abcdef".toList.length < 2 ^ 31) ∧
      pieces 5 4 "abcdef".toList =
        [⟨0, 4, 5, "a".toList⟩, ⟨1, 0, 5, "bcdef".toList⟩, ⟨2, 0, 0, []⟩] ∧
      ((pieces 5 4 "abcdef".toList).map (·.bytes)).flatten = "abcdef".toList :=
  ⟨by decide, by decide, (writeData_pieces (by decide) (by decide) (by decide)).2.2.1⟩

end SDK

end Spkdfs
