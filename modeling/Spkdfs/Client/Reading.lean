import Spkdfs.Client.Storing

namespace Spkdfs

open Library Procedure Function

/-- Each block file is a file of its own, and what it holds, if anything, is the block with its
index. -/
structure TmpDir.Holds (blocks : List Str) (t : TmpDir) : Prop where
  apart : ∀ i j file, t.files.lookup i = some file → t.files.lookup j = some file → i = j
  below : ∀ i file, t.files.lookup i = some file → file < t.next
  block : ∀ i file, t.files.lookup i = some file →
    t.content file = [] ∨ ∀ block, blocks[i]? = some block → t.content file = block

namespace TmpDir

variable {blocks : List Str} {t : TmpDir} {s : Str} {index : Nat}

theorem holds_empty (blocks : List Str) : Holds blocks {} where
  apart i j file hi := by cases hi
  below i file hi := by cases hi
  block i file hi := by cases hi

theorem lookup_filter (files : List (Nat × Nat)) (keep : Nat → Bool) (i : Nat) :
    (files.filter fun f ↦ keep f.1).lookup i = if keep i then files.lookup i else none := by
  induction files with
  | nil => simp
  | cons f files ih =>
    obtain ⟨j, file⟩ := f
    by_cases hj : i = j
    · subst hj
      cases hk : keep i with
      | true => simp [hk]
      | false => simp [hk, ih]
    · have hne : (i == j) = false := by simpa using hj
      cases hk : keep j with
      | true => simp [hk, List.lookup_cons, hne, ih]
      | false => simp [hk, List.lookup_cons, hne, ih]

theorem lookup_removeAll {indices : List Nat} {i file : Nat}
    (h : (t.removeAll indices).files.lookup i = some file) : t.files.lookup i = some file := by
  have hfilter := lookup_filter t.files (fun j ↦ decide (j ∉ indices)) i
  rw [removeAll] at h
  rw [hfilter] at h
  split_ifs at h
  exact h

theorem Holds.removeAll (h : t.Holds blocks) (indices : List Nat) :
    (t.removeAll indices).Holds blocks where
  apart i j file hi hj := h.apart i j file (lookup_removeAll hi) (lookup_removeAll hj)
  below i file hi := h.below i file (lookup_removeAll hi)
  block i file hi := h.block i file (lookup_removeAll hi)

theorem Holds.clearWrite (h : t.Holds blocks) : t.clearWrite.Holds blocks :=
  ⟨h.apart, h.below, h.block⟩

theorem read_save (t : TmpDir) (index : Nat) (s : Str) : (t.save index s).read index = some s := by
  rw [save, read]
  cases hf : t.files.lookup index with
  | some file => simp [hf]
  | none => simp [List.lookup_append, hf]

theorem lookup_concat {files : List (Nat × Nat)} {next i file : Nat}
    (h : (files ++ [(index, next)]).lookup i = some file) :
    files.lookup i = some file ∨ i = index ∧ file = next := by
  rw [List.lookup_append] at h
  cases hold : files.lookup i with
  | some old =>
    rw [hold] at h
    exact .inl h
  | none =>
    rw [hold, Option.none_or] at h
    by_cases he : i = index
    · subst he
      simp only [List.lookup_cons, beq_self_eq_true, Option.some.injEq] at h
      exact .inr ⟨rfl, h.symm⟩
    · have hne : (i == index) = false := by simpa using he
      simp [List.lookup_cons, hne] at h

/-- A block file that is written anew. -/
theorem Holds.save (h : t.Holds blocks)
    (hs : s = [] ∨ ∀ block, blocks[index]? = some block → s = block) :
    (t.save index s).Holds blocks := by
  rw [TmpDir.save]
  cases hf : t.files.lookup index with
  | some own =>
    refine ⟨h.apart, h.below, ?_⟩
    intro i file hi
    by_cases he : file = own
    · subst he
      obtain rfl := h.apart i index file hi hf
      simpa using hs
    · simpa [update_of_ne he] using h.block i file hi
  | none =>
    -- the new file has a number that no other has
    have hnew : ∀ i file, (t.files ++ [(index, t.next)]).lookup i = some file →
        t.files.lookup i = some file ∨ i = index ∧ file = t.next := fun _ _ ↦ lookup_concat
    refine ⟨?_, ?_, ?_⟩
    · intro i j file hi hj
      rcases hnew i file hi with hold | ⟨hi, hfile⟩
      · have hlt := h.below i file hold
        rcases hnew j file hj with hold' | ⟨-, hfile⟩
        · exact h.apart i j file hold hold'
        · omega
      · rcases hnew j file hj with hold | ⟨hj, -⟩
        · have hlt := h.below j file hold
          omega
        · rw [hi, hj]
    · intro i file hi
      show file < t.next + 1
      rcases hnew i file hi with hold | ⟨-, hfile⟩
      · have hlt := h.below i file hold
        omega
      · omega
    · intro i file hi
      rcases hnew i file hi with hi | ⟨rfl, rfl⟩
      · have hlt := h.below i file hi
        have hne : file ≠ t.next := by omega
        simpa [update_of_ne hne] using h.block i file hi
      · simpa using hs

end TmpDir

namespace SDK

/-- The directory of the path is there, with no block files but those of these blocks. -/
def BlockFiles (path : Str) (blocks : List Str) (v : View) : Prop :=
  ∃ t, v.sdk.dirs (v.sdk.tmpPath path) = some t ∧ t.Holds blocks

/-- What the datanodes return for the subs of the inode. -/
def Decodes (nodes : Datanodes) (inode : Inode) (blocks : List Str) : Prop :=
  List.Forall₂ (fun block s ↦ nodes.decode inode.storageType s = .ok block) blocks inode.sub

variable {inode : Inode} {blocks : List Str} {nodes : Datanodes} {v v' : View} {path block s : Str}
  {index : Nat}

theorem Decodes.sub_of_block (h : Decodes nodes inode blocks) (hb : blocks[index]? = some block) :
    ∃ s, inode.sub[index]? = some s ∧ nodes.decode inode.storageType s = .ok block := by
  obtain ⟨hlt, rfl⟩ := List.getElem?_eq_some_iff.mp hb
  have hlt' : index < inode.sub.length := h.length_eq ▸ hlt
  exact ⟨inode.sub[index], List.getElem?_eq_getElem hlt', (List.forall₂_iff_get.mp h).2 index hlt hlt'⟩

/-- A block of the inode comes from its file, or from the datanodes and then is in its file. -/
theorem fetchBlock_run (hd : Decodes nodes inode blocks)
    (hv : BlockFiles inode.fullpath.str blocks v) (hb : blocks[index]? = some block) :
    ∃ v', (fetchBlock inode (index : Int) nodes).run v = some (.ok (), v') ∧
      BlockFiles inode.fullpath.str blocks v' ∧
        (v'.sdk.dir inode.fullpath.str).read index = some block := by
  obtain ⟨s, hs, hdecode⟩ := hd.sub_of_block hb
  obtain ⟨t, ht, hholds⟩ := hv
  have hdir : v.sdk.dir inode.fullpath.str = t := by rw [SDK.dir, ht, Option.getD_some]
  have hnonneg : ¬ (index : Int) < 0 := by omega
  have hnat : (index : Int).toNat = index := Int.toNat_natCast index
  rw [fetchBlock, run_bind_ok (run_get v)]
  simp only [hnonneg, if_false, hnat, hs, hdir]
  split_ifs with hcached
  · -- the file is not empty, so it holds the block
    refine ⟨v, rfl, ⟨t, ht, hholds⟩, ?_⟩
    rw [hdir]
    cases hread : t.files.lookup index with
    | none => simp [TmpDir.read, hread] at hcached
    | some file =>
      have hne : t.content file ≠ [] := by simpa [TmpDir.read, hread] using hcached
      have hcontent := (hholds.block index file hread).resolve_left hne block hb
      rw [TmpDir.read, hread, Option.map_some, hcontent]
  · have hsaved : ((t.save index []).save index block).Holds blocks :=
      (hholds.save (.inl rfl)).save
        (.inr fun other hother ↦ Option.some.inj (hb.symm.trans hother))
    rw [hdecode, fillBlock_ok block ht]
    refine ⟨_, rfl, ⟨_, View.dirs_setDir, hsaved⟩, ?_⟩
    rw [View.dir_setDir, TmpDir.read_save]

/-- What the loop of `read_data` makes of the blocks from `first` on: zeros stand for those behind
the last one. -/
def blocksRead (n : Nat) (blocks : List Str) (first last : Nat) : Str :=
  ((blocks.take last).drop first).flatten ++
    List.replicate ((last - max first blocks.length) * n) '\x00'

theorem readBlocks_run {n : Nat} (hd : Decodes nodes inode blocks) (hn : inode.getBlockSize = n)
    (first count : Nat) (hv : BlockFiles inode.fullpath.str blocks v) :
    ∃ v', (readBlocks inode nodes ((first + count : Nat) : Int)
        ((List.range' first count).map Int.ofNat)).run v =
      some (.ok (blocksRead n blocks first (first + count)), v') := by
  induction count generalizing first v with
  | zero =>
    refine ⟨v, ?_⟩
    have hnone : first + 0 - max first blocks.length = 0 := by omega
    rw [blocksRead, hnone, Nat.zero_mul, Nat.add_zero, List.drop_take_self]
    rfl
  | succ count ih =>
    rw [List.range'_succ, List.map_cons, readBlocks]
    by_cases hend : inode.sub.length ≤ first
    · have hbehind : blocks.length ≤ first := hd.length_eq ▸ hend
      have hnone : (blocks.take (first + (count + 1))).drop first = [] := by
        refine List.drop_eq_nil_of_le ?_
        rw [List.length_take]
        omega
      have hcond : (inode.sub.length : Int) ≤ Int.ofNat first := by
        rw [Int.ofNat_eq_natCast]
        omega
      have hzeros : ((((first + (count + 1) : Nat) : Int) - Int.ofNat first) *
          inode.getBlockSize).toNat = (first + (count + 1) - max first blocks.length) * n := by
        have hleft : ((first + (count + 1) : Nat) : Int) - Int.ofNat first =
            ((count + 1 : Nat) : Int) := by
          rw [Int.ofNat_eq_natCast]
          omega
        have hcount : first + (count + 1) - max first blocks.length = count + 1 := by omega
        rw [hleft, hcount, hn, ← Int.natCast_mul, Int.toNat_natCast]
      rw [if_pos hcond, hzeros, blocksRead, hnone]
      exact ⟨v, rfl⟩
    · have hlt : first < blocks.length := by
        rw [hd.length_eq]
        omega
      have hcond : ¬ (inode.sub.length : Int) ≤ Int.ofNat first := by
        rw [Int.ofNat_eq_natCast]
        omega
      obtain ⟨w, hfetch, hw, hread⟩ := fetchBlock_run hd hv (List.getElem?_eq_getElem hlt)
      obtain ⟨v', hrest⟩ := ih (first + 1) hw
      refine ⟨v', ?_⟩
      have hsum : first + 1 + count = first + (count + 1) := by omega
      have hnext : blocks[first] ++ blocksRead n blocks (first + 1) (first + (count + 1)) =
          blocksRead n blocks first (first + (count + 1)) := by
        have hmax : max (first + 1) blocks.length = max first blocks.length := by omega
        rw [blocksRead, blocksRead, hmax,
          List.drop_eq_getElem_cons (i := first) (by rw [List.length_take]; omega),
          List.getElem_take, List.flatten_cons, List.append_assoc]
      rw [hsum] at hrest
      rw [if_neg hcond, Int.ofNat_eq_natCast, run_bind_ok hfetch, run_bind_ok (run_get w)]
      simp only [Int.toNat_natCast, hread, Option.getD_some]
      rw [run_bind_ok hrest, hnext]
      rfl

theorem toInt32_of_lt {n : Nat} (h : n < 2 ^ 31) : toInt32 (n : Int) = n := by
  rw [toInt32, BitVec.toInt_ofInt]
  exact Int.bmod_eq_of_le (by omega) (by omega)

theorem readIndexs_run {n : Nat} (hd : Decodes nodes inode blocks) (hn : inode.getBlockSize = n)
    (hv : BlockFiles inode.fullpath.str blocks v) {first last : Nat} (hle : first ≤ last) :
    ∃ v', (readIndexs inode nodes ((first : Int), (last : Int))).run v =
      some (.ok (blocksRead n blocks first last), v') := by
  obtain ⟨v', hrun⟩ := readBlocks_run hd hn first (last - first) hv
  have hcount : ((last : Int) - (first : Int)).toNat = last - first := by omega
  have hindices : ((List.range (last - first)).map fun i : Nat ↦ (first : Int) + i) =
      (List.range' first (last - first)).map Int.ofNat := by
    rw [List.range'_eq_map_range, List.map_map]
    rfl
  refine ⟨v', ?_⟩
  rw [Nat.add_sub_cancel' hle, ← hindices] at hrun
  rw [readIndexs]
  simp only [hcount]
  exact hrun

/-- `get_indexs`, by the block size of the inode. -/
def blockIndexs (blockSize : Int) (offset size : Nat) : Int × Int :=
  (alignIndexDown (toInt32 offset) blockSize,
    alignIndexUp (toInt32 ((offset + size : Nat) : Int)) blockSize)

theorem getIndexs_eq_blockIndexs (inode : Inode) (offset size : Nat) :
    getIndexs inode offset size = blockIndexs inode.getBlockSize offset size := rfl

/-- The two indices, as long as the file is small enough for an `int`. -/
theorem blockIndexs_eq {offset size : Nat} (n : Nat) (hlt : offset + size < 2 ^ 31) :
    blockIndexs n offset size =
      (((offset / n : Nat) : Int), (((offset + size) / n + 1 : Nat) : Int)) := by
  have hoffset : offset < 2 ^ 31 := by omega
  rw [blockIndexs, alignIndexDown, alignIndexUp, toInt32_of_lt hlt, toInt32_of_lt hoffset,
    ← Int.ofNat_tdiv, ← Int.ofNat_tdiv]
  rfl

theorem getIndexs_eq {n offset size : Nat} (hn : inode.getBlockSize = n)
    (hlt : offset + size < 2 ^ 31) :
    getIndexs inode offset size =
      (((offset / n : Nat) : Int), (((offset + size) / n + 1 : Nat) : Int)) := by
  rw [getIndexs_eq_blockIndexs, hn, blockIndexs_eq n hlt]

/-- The part of a range that is in the file. -/
theorem exists_part {content : Str} {offset : Nat} (size : Nat) (h : offset ≤ content.length) :
    ∃ part, (if content.length < offset + size then content.length - offset else size) = part ∧
      offset + part ≤ content.length ∧
        (content.drop offset).take size = (content.drop offset).take part := by
  split_ifs with hlong
  · refine ⟨_, rfl, by omega, ?_⟩
    rw [List.take_of_length_le (by rw [List.length_drop]; omega),
      List.take_of_length_le (by rw [List.length_drop])]
  · exact ⟨size, rfl, by omega, rfl⟩

/-- `read_data` inside a file, when its block files can be made: the range is cut out of the blocks,
and where they are too short for it there is no result. -/
theorem readData_blocks {n offset size : Nat} (hc : v.sdk.cache path = some inode)
    (hd : Decodes nodes inode blocks) (hv : BlockFiles inode.fullpath.str blocks v)
    (hn : inode.getBlockSize = n) (hpos : 0 < n) (hin : offset + size ≤ inode.filesize)
    (hsmall : offset + size < 2 ^ 31) :
    ∃ v', (readData path offset size nodes).run v =
      if (blocksRead n blocks (offset / n) ((offset + size) / n + 1)).length <
          offset - offset / n * n + size then none
      else some (.ok (((blocksRead n blocks (offset / n) ((offset + size) / n + 1)).drop
        (offset - offset / n * n)).take size), v') := by
  have hget : (getInode path).run v = some (.ok inode, v) := getInode_ok.mpr ⟨hc, rfl⟩
  have hblockSize : inode.getBlockSize ≠ 0 := by omega
  have hsum : (offset + size) % 2 ^ 64 = offset + size := Nat.mod_eq_of_lt (by omega)
  have hindexs : getIndexs inode offset size =
      (((offset / n : Nat) : Int), (((offset + size) / n + 1 : Nat) : Int)) :=
    getIndexs_eq hn (by omega)
  have hfirst : offset / n * n ≤ offset := Nat.div_mul_le_self offset n
  have horder : offset / n ≤ (offset + size) / n := Nat.div_le_div_right (Nat.le_add_right _ _)
  have hle : offset / n ≤ (offset + size) / n + 1 := Nat.le_succ_of_le horder
  obtain ⟨v', hread⟩ := readIndexs_run hd hn hv hle
  have hstart : (offset : Int) - ((offset / n : Nat) : Int) * inode.getBlockSize =
      ((offset - offset / n * n : Nat) : Int) := by
    rw [hn]
    push_cast [hfirst]
    rfl
  refine ⟨v', ?_⟩
  rw [readData, run_bind_ok hget, if_neg (by omega), if_neg hblockSize, hsum]
  simp only [if_neg (Nat.not_lt.mpr hin), hindexs]
  rw [run_bind_ok hread, hstart]
  by_cases hshort : (blocksRead n blocks (offset / n) ((offset + size) / n + 1)).length <
      offset - offset / n * n + size
  · rw [if_pos hshort, if_pos (by omega)]
    rfl
  · rw [if_neg hshort, if_neg (by omega), Int.toNat_natCast]
    rfl

/-- What is asked for behind the end of the file is left out. -/
theorem readData_clip {offset size : Nat} (hc : v.sdk.cache path = some inode)
    (hin : offset ≤ inode.filesize) (hsum : offset + size < 2 ^ 64)
    (hbeyond : inode.filesize < offset + size) :
    (readData path offset size nodes).run v =
      (readData path offset (inode.filesize - offset) nodes).run v := by
  have hget : (getInode path).run v = some (.ok inode, v) := getInode_ok.mpr ⟨hc, rfl⟩
  have hend : offset + (inode.filesize - offset) = inode.filesize := by omega
  have hmod : inode.filesize % 2 ^ 64 = inode.filesize := Nat.mod_eq_of_lt (by omega)
  rw [readData, readData, run_bind_ok hget, run_bind_ok hget, Nat.mod_eq_of_lt hsum, hend, hmod,
    if_pos hbeyond, if_neg (lt_irrefl _)]

/-- A range that begins in the file is read as the part of it that is in the file. -/
theorem readData_part {content : Str} {offset : Nat} (nodes : Datanodes) (size : Nat)
    (hc : v.sdk.cache path = some inode) (hsize : inode.filesize = content.length)
    (hin : offset ≤ content.length) (hsum : offset + size < 2 ^ 64) :
    ∃ part, offset + part ≤ content.length ∧
      (content.drop offset).take size = (content.drop offset).take part ∧
      (readData path offset size nodes).run v = (readData path offset part nodes).run v := by
  obtain ⟨part, hpart, hwithin, htake⟩ := exists_part size hin
  refine ⟨part, hwithin, htake, ?_⟩
  split_ifs at hpart with hlong
  · rw [readData_clip hc (by omega) hsum (by omega), hsize, hpart]
  · rw [hpart]

theorem readData_behind {offset : Nat} (size : Nat) (hc : v.sdk.cache path = some inode)
    (hbehind : inode.filesize < offset) :
    (readData path offset size nodes).run v = some (.ok [], v) := by
  have hget : (getInode path).run v = some (.ok inode, v) := getInode_ok.mpr ⟨hc, rfl⟩
  rw [readData, run_bind_ok hget, if_pos hbehind]
  rfl

/-- `read_data` on a file whose blocks begin with the content, when its block files can be made. -/
theorem readData_run {content : Str} {n offset size : Nat} (hc : v.sdk.cache path = some inode)
    (hd : Decodes nodes inode blocks) (hv : BlockFiles inode.fullpath.str blocks v)
    (hn : inode.getBlockSize = n) (hpos : 0 < n) (hblocks : Aligned n blocks)
    (hcontent : content <+: blocks.flatten) (hsize : inode.filesize = content.length)
    (hsmall : content.length < 2 ^ 31) (hsum : offset + size < 2 ^ 64) :
    ∃ v', (readData path offset size nodes).run v =
      some (.ok ((content.drop offset).take size), v') := by
  by_cases hbeyond : content.length < offset
  · rw [readData_behind size hc (hsize ▸ hbeyond), List.drop_eq_nil_of_le hbeyond.le, List.take_nil]
    exact ⟨v, rfl⟩
  obtain ⟨part, hin, htake, hclip⟩ :=
    readData_part nodes size hc hsize (Nat.le_of_not_lt hbeyond) hsum
  have hfirst : offset / n * n ≤ offset := Nat.div_mul_le_self offset n
  obtain ⟨last, hlast, hlastle, hfirstle, hend⟩ :=
    hblocks.exists_last hpos (Nat.le_add_right offset part) (hin.trans hcontent.length_le)
  obtain ⟨v', hread⟩ := readData_blocks hc hd hv hn hpos (hsize ▸ hin) (by omega)
  have hlength := hblocks.length_flatten_drop_take hfirstle hlastle
  rw [blocksRead, hlast, if_neg (by rw [List.length_append]; omega),
    hblocks.slice hfirst hfirstle hlastle hend] at hread
  obtain ⟨pad, hpad⟩ := hcontent
  refine ⟨v', ?_⟩
  rw [hclip, hread, htake, ← hpad, List.drop_append_of_le_length (by omega),
    List.take_append_of_le_length (by rw [List.length_drop]; omega)]

/-- Without the directory, no block file can be made, and its lock is not released. -/
theorem fetchBlock_absent {index : Nat} (hsub : index < inode.sub.length)
    (hdir : v.sdk.dirs (v.sdk.tmpPath inode.fullpath.str) = none) :
    (fetchBlock inode index nodes).run v =
      some (.error (.runtime ("openfile error:".toList ++
          v.sdk.getTmpIndexPath inode.fullpath.str index)),
        v.holding (v.sdk.getTmpIndexPath inode.fullpath.str index)) := by
  have hread : ((v.sdk.dir inode.fullpath.str).read index).any (· ≠ []) = false := by
    rw [SDK.dir, hdir]
    rfl
  have hnonneg : ¬ (index : Int) < 0 := by omega
  rw [fetchBlock, run_bind_ok (run_get v)]
  simp only [hnonneg, if_false, Int.toNat_natCast, List.getElem?_eq_getElem hsub, hread,
    Bool.false_eq_true]
  exact fillBlock_absent _ hdir

/-- Without the directory, what is behind the last block is all that can be read. -/
theorem readData_nodir {n offset size : Nat} (nodes : Datanodes) (hc : v.sdk.cache path = some inode)
    (hn : inode.getBlockSize = n) (hpos : 0 < n) (hin : offset + size ≤ inode.filesize)
    (hsmall : offset + size < 2 ^ 31)
    (hdir : v.sdk.dirs (v.sdk.tmpPath inode.fullpath.str) = none) :
    (readData path offset size nodes).run v = some
      (if offset / n < inode.sub.length then
        (.error (.runtime ("openfile error:".toList ++
            v.sdk.getTmpIndexPath inode.fullpath.str (offset / n))),
          v.holding (v.sdk.getTmpIndexPath inode.fullpath.str (offset / n)))
      else (.ok (List.replicate size '\x00'), v)) := by
  have hget : (getInode path).run v = some (.ok inode, v) := getInode_ok.mpr ⟨hc, rfl⟩
  have hblockSize : inode.getBlockSize ≠ 0 := by omega
  have hsum : (offset + size) % 2 ^ 64 = offset + size := Nat.mod_eq_of_lt (by omega)
  have hindexs : getIndexs inode offset size =
      (((offset / n : Nat) : Int), (((offset + size) / n + 1 : Nat) : Int)) :=
    getIndexs_eq hn hsmall
  obtain ⟨more, hmore⟩ : ∃ more, (offset + size) / n + 1 = offset / n + (more + 1) := by
    have horder : offset / n ≤ (offset + size) / n := Nat.div_le_div_right (Nat.le_add_right _ _)
    exact ⟨(offset + size) / n - offset / n, by omega⟩
  have hcount : (((offset / n + (more + 1) : Nat) : Int) - ((offset / n : Nat) : Int)).toNat =
      more + 1 := by omega
  have hindices : (List.range (more + 1)).map (fun i : Nat ↦ ((offset / n : Nat) : Int) + i) =
      ((offset / n : Nat) : Int) ::
        (List.range more).map fun i : Nat ↦ ((offset / n : Nat) : Int) + ((i + 1 : Nat) : Int) := by
    rw [List.range_succ_eq_map, List.map_cons, List.map_map]
    rfl
  rw [readData, run_bind_ok hget, if_neg (by omega), if_neg hblockSize, hsum]
  simp only [if_neg (Nat.not_lt.mpr hin), hindexs, hmore, readIndexs, hcount]
  rw [hindices, readBlocks]
  by_cases hbehind : offset / n < inode.sub.length
  · rw [if_neg (by omega), if_pos hbehind]
    exact run_bind_error (run_bind_error (fetchBlock_absent hbehind hdir) _) _
  · have hzeros : ((((offset / n + (more + 1) : Nat) : Int) - ((offset / n : Nat) : Int)) *
        inode.getBlockSize).toNat = (more + 1) * n := by
      have hleft : ((offset / n + (more + 1) : Nat) : Int) - ((offset / n : Nat) : Int) =
          ((more + 1 : Nat) : Int) := by omega
      rw [hleft, hn, ← Int.natCast_mul, Int.toNat_natCast]
    have hzerosRun : (pure (List.replicate ((more + 1) * n) '\x00') : Method Str).run v =
        some (.ok (List.replicate ((more + 1) * n) '\x00'), v) := rfl
    have hfirst : offset / n * n ≤ offset := Nat.div_mul_le_self offset n
    have hstart : (offset : Int) - ((offset / n : Nat) : Int) * inode.getBlockSize =
        ((offset - offset / n * n : Nat) : Int) := by
      rw [hn]
      push_cast [hfirst]
      rfl
    have hend : offset + size < (offset / n + (more + 1)) * n := by
      rw [← hmore]
      exact Nat.lt_mul_of_div_lt (Nat.lt_succ_self _) hpos
    rw [Nat.add_mul] at hend
    rw [if_pos (by omega), if_neg hbehind, hzeros, run_bind_ok hzerosRun, hstart,
      if_neg (by rw [List.length_replicate]; omega), Int.toNat_natCast, List.drop_replicate,
      List.take_replicate, Nat.min_eq_left (by omega)]
    rfl

/-- The first byte of a file cannot be read then. -/
theorem readData_absent {n : Nat} (nodes : Datanodes) (hc : v.sdk.cache path = some inode) (hsub : inode.sub ≠ [])
    (hn : inode.getBlockSize = n) (hpos : 0 < n) (hsize : inode.filesize ≠ 0)
    (hdir : v.sdk.dirs (v.sdk.tmpPath inode.fullpath.str) = none) :
    (readData path 0 1 nodes).run v =
      some (.error (.runtime ("openfile error:".toList ++
          v.sdk.getTmpIndexPath inode.fullpath.str 0)),
        v.holding (v.sdk.getTmpIndexPath inode.fullpath.str 0)) := by
  rw [readData_nodir nodes hc hn hpos (by omega) (by decide) hdir, Nat.zero_div,
    if_pos (List.length_pos_of_ne_nil hsub)]

/-- What has all its block files is read from these alone. -/
theorem readBlocks_cached (other : Datanodes) (last : Int) (indices : List Int)
    (hfiles : ∀ i < inode.sub.length, ((v.sdk.dir inode.fullpath.str).read i).any (· ≠ []) = true) :
    (readBlocks inode nodes last indices).run v = (readBlocks inode other last indices).run v := by
  induction indices with
  | nil => rfl
  | cons index indices ih =>
    rw [readBlocks, readBlocks]
    by_cases hend : (inode.sub.length : Int) ≤ index
    · rw [if_pos hend, if_pos hend]
    have hfetch : ∀ any : Datanodes, (fetchBlock inode index any).run v =
        if index < 0 then none else some (.ok (), v) := by
      intro any
      rw [fetchBlock, run_bind_ok (run_get v)]
      by_cases hneg : index < 0
      · rw [if_pos hneg, if_pos hneg]
        rfl
      · have hlt : index.toNat < inode.sub.length := by omega
        simp only [if_neg hneg, List.getElem?_eq_getElem hlt, hfiles _ hlt, if_true]
        rfl
    rw [if_neg hend, if_neg hend]
    by_cases hneg : index < 0
    · rw [run_bind_none ((hfetch nodes).trans (if_pos hneg)),
        run_bind_none ((hfetch other).trans (if_pos hneg))]
    · rw [run_bind_ok ((hfetch nodes).trans (if_neg hneg)),
        run_bind_ok ((hfetch other).trans (if_neg hneg)), run_bind_ok (run_get v),
        run_bind_ok (run_get v), run_bind_congr ih]

theorem readData_cached (other : Datanodes) (offset size : Nat)
    (hc : v.sdk.cache path = some inode)
    (hfiles : ∀ i < inode.sub.length, ((v.sdk.dir inode.fullpath.str).read i).any (· ≠ []) = true) :
    (readData path offset size nodes).run v = (readData path offset size other).run v := by
  have hget : (getInode path).run v = some (.ok inode, v) := getInode_ok.mpr ⟨hc, rfl⟩
  rw [readData, readData, run_bind_ok hget, run_bind_ok hget]
  split_ifs
  · rfl
  · rfl
  · exact run_bind_congr (readBlocks_cached other _ _ hfiles) _
  · exact run_bind_congr (readBlocks_cached other _ _ hfiles) _

end SDK

end Spkdfs
