import Mathlib.Data.Finset.Sort
import Mathlib.Order.Interval.Finset.Nat
import Spkdfs.Client.Reading

namespace Spkdfs

open Library Procedure Function

/-- What the directory of a path is for its client: the contents of the block files, and the
indices of those that are linked from the directory `write`. -/
structure TmpDir.Shows (t : TmpDir) (files : Nat → Option Str) (dirty : Finset Nat) : Prop where
  apart : ∀ i j file, t.files.lookup i = some file → t.files.lookup j = some file → i = j
  below : ∀ i file, t.files.lookup i = some file → file < t.next
  read : ∀ i, t.read i = files i
  links : ∃ links, t.write = some links ∧ (links.map (·.1)).Nodup ∧
    (links.map (·.1)).toFinset = dirty ∧ ∀ link ∈ links, t.files.lookup link.1 = some link.2

namespace TmpDir

variable {t : TmpDir} {files : Nat → Option Str} {dirty : Finset Nat} {i : Nat} {s : Str}

theorem lookup_save {j : Nat} (hne : j ≠ i) : (t.save i s).files.lookup j = t.files.lookup j := by
  rw [save]
  cases hf : t.files.lookup i with
  | some file => rfl
  | none =>
    have hj : (j == i) = false := by simpa using hne
    simp [List.lookup_append, List.lookup_cons, hj]

theorem read_save_of_ne (h : t.Shows files dirty) {j : Nat} (hne : j ≠ i) :
    (t.save i s).read j = t.read j := by
  rw [read, read, lookup_save hne]
  cases hj : t.files.lookup j with
  | none => rfl
  | some file =>
    rw [save]
    cases hi : t.files.lookup i with
    | some own =>
      have hother : file ≠ own := by
        rintro rfl
        exact hne (h.apart j i file hj hi)
      simp [update_of_ne hother]
    | none =>
      have hother : file ≠ t.next := (h.below j file hj).ne
      simp [update_of_ne hother]

/-- A file that is written anew keeps its place, so that a link to it stays one. -/
theorem lookup_save_of_some {j file : Nat} (hj : t.files.lookup j = some file) :
    (t.save i s).files.lookup j = some file := by
  rw [save]
  cases hf : t.files.lookup i with
  | some own => exact hj
  | none => simp [List.lookup_append, hj]

theorem write_save : (t.save i s).write = t.write := by
  rw [save]
  cases t.files.lookup i <;> rfl

theorem Shows.save (h : t.Shows files dirty) (i : Nat) (s : Str) :
    (t.save i s).Shows (update files i (some s)) dirty where
  apart j k file hj hk := by
    rw [TmpDir.save] at hj hk
    cases hf : t.files.lookup i with
    | some own =>
      rw [hf] at hj hk
      exact h.apart j k file hj hk
    | none =>
      rw [hf] at hj hk
      rcases lookup_concat hj with hold | ⟨hji, hfile⟩
      · rcases lookup_concat hk with hold' | ⟨-, hfile⟩
        · exact h.apart j k file hold hold'
        · exact absurd hfile (h.below j file hold).ne
      · rcases lookup_concat hk with hold | ⟨hki, -⟩
        · exact absurd hfile (h.below k file hold).ne
        · rw [hji, hki]
  below j file hj := by
    rw [TmpDir.save] at hj ⊢
    cases hf : t.files.lookup i with
    | some own =>
      rw [hf] at hj
      exact h.below j file hj
    | none =>
      rw [hf] at hj
      rcases lookup_concat hj with hold | ⟨-, hfile⟩
      · exact (h.below j file hold).trans (Nat.lt_succ_self _)
      · rw [hfile]
        exact Nat.lt_succ_self _
  read j := by
    by_cases hne : j = i
    · subst hne
      rw [read_save, update_self]
    · rw [read_save_of_ne h hne, update_of_ne hne, h.read]
  links := by
    obtain ⟨links, hw, hnodup, hdirty, hfiles⟩ := h.links
    exact ⟨links, write_save.trans hw, hnodup, hdirty, fun link hl ↦
      lookup_save_of_some (hfiles link hl)⟩

theorem Shows.append (h : t.Shows files dirty) (i : Nat) (s : Str) :
    (t.append i s).Shows (update files i (some ((files i).getD [] ++ s))) dirty := by
  rw [TmpDir.append, h.read]
  exact h.save i _

theorem Shows.lnPathIndex (h : t.Shows files dirty) (hi : files i ≠ none) :
    ∃ t', t.lnPathIndex i = some t' ∧ t'.Shows files (insert i dirty) := by
  obtain ⟨links, hw, hnodup, hdirty, hfiles⟩ := h.links
  obtain ⟨file, hf⟩ : ∃ file, t.files.lookup i = some file := by
    rw [← h.read, TmpDir.read] at hi
    cases hf : t.files.lookup i with
    | none => simp [hf] at hi
    | some file => exact ⟨file, rfl⟩
  refine ⟨{ t with write := some (links.filter (·.1 ≠ i) ++ [(i, file)]) }, ?_, h.apart, h.below,
    h.read, _, rfl, ?_, ?_, ?_⟩
  · rw [TmpDir.lnPathIndex, hf, hw]
  · rw [List.map_append, List.nodup_append]
    refine ⟨hnodup.sublist (List.filter_sublist.map _), List.nodup_singleton _, ?_⟩
    intro a ha b hb
    obtain ⟨link, hl, rfl⟩ := List.mem_map.mp ha
    rw [List.map_singleton, List.mem_singleton] at hb
    rw [hb]
    exact of_decide_eq_true (List.mem_filter.mp hl).2
  · ext k
    rw [← hdirty]
    simp only [List.map_append, List.map_singleton, List.mem_toFinset, List.mem_append, List.mem_map,
      List.mem_filter, List.mem_singleton, Finset.mem_insert]
    constructor
    · rintro (⟨link, ⟨hl, -⟩, rfl⟩ | rfl)
      · exact .inr ⟨link, hl, rfl⟩
      · exact .inl rfl
    · rintro (rfl | ⟨link, hl, rfl⟩)
      · exact .inr rfl
      · by_cases hk : link.1 = i
        · exact .inr hk
        · exact .inl ⟨link, ⟨hl, by simpa using hk⟩, rfl⟩
  · intro link hl
    rcases List.mem_append.mp hl with hl | hl
    · exact hfiles link (List.mem_filter.mp hl).1
    · rw [List.mem_singleton.mp hl]
      exact hf

theorem Shows.removeWrite (h : t.Shows files dirty) (i : Nat) :
    (t.removeWrite i).Shows files (dirty.erase i) where
  apart := h.apart
  below := h.below
  read := h.read
  links := by
    obtain ⟨links, hw, hnodup, hdirty, hfiles⟩ := h.links
    refine ⟨links.filter (·.1 ≠ i), ?_, hnodup.sublist (List.filter_sublist.map _), ?_,
      fun link hl ↦ hfiles link (List.mem_filter.mp hl).1⟩
    · rw [TmpDir.removeWrite, hw, Option.map_some]
    · ext k
      rw [← hdirty]
      simp only [List.mem_toFinset, List.mem_map, List.mem_filter, Finset.mem_erase]
      constructor
      · rintro ⟨link, ⟨hl, hne⟩, rfl⟩
        exact ⟨of_decide_eq_true hne, link, hl, rfl⟩
      · rintro ⟨hne, link, hl, rfl⟩
        exact ⟨link, ⟨hl, decide_eq_true hne⟩, rfl⟩

theorem Shows.dirtyBlocks (h : t.Shows files dirty) :
    SDK.dirtyBlocks t = (dirty.sort (· ≤ ·)).map fun i ↦ (i, (files i).getD []) := by
  obtain ⟨links, hw, hnodup, hdirty, hfiles⟩ := h.links
  have hlist : t.listWrite = links.map (·.1) := by rw [listWrite, hw, Option.getD_some]
  have hsort : (links.map (·.1)).insertionSort (· ≤ ·) = dirty.sort (· ≤ ·) := by
    refine List.Perm.eq_of_pairwise' (List.pairwise_insertionSort _ _) (Finset.pairwise_sort _ _) ?_
    refine (List.perm_insertionSort _ _).trans ?_
    rw [← hdirty]
    refine (List.perm_ext_iff_of_nodup hnodup (Finset.sort_nodup _ _)).mpr fun a ↦ ?_
    rw [Finset.mem_sort, List.mem_toFinset]
  rw [SDK.dirtyBlocks, hlist, hsort]
  refine List.map_congr_left fun k hk ↦ ?_
  rw [Finset.mem_sort, ← hdirty, List.mem_toFinset] at hk
  -- the link found first is one to the block file
  have hread : t.readWrite k = (files k).getD [] := by
    rw [readWrite, hw, Option.getD_some, ← h.read, TmpDir.read]
    cases hl : links.lookup k with
    | none =>
      obtain ⟨link, hm, rfl⟩ := List.mem_map.mp hk
      have hno := List.lookup_eq_none_iff.mp hl link hm
      simp at hno
    | some file =>
      obtain ⟨l₁, l₂, hsplit, -⟩ := List.lookup_eq_some_iff.mp hl
      rw [hfiles (k, file) (by simp [hsplit])]
  rw [hread]

end TmpDir

/-- What one turn of the loop of `write_data` writes: the block, the positions `left` and `right`
in it, and the bytes. -/
structure Piece where
  index : Int
  left : Nat
  right : Nat
  bytes : Str
deriving DecidableEq

namespace SDK

/-- One turn of the loop: the bytes go to the block file, which is linked. -/
def writePiece (path : Str) (p : Piece) : Method Unit := do
  let s := (← get).sdk
  if (s.dirs (s.tmpPath path)).isNone then
    throw (.runtime ("failed to write data to ".toList ++ s.tmpPath path ++
      '/' :: toText (toUInt32 p.index)))
  else do
    let written := (s.dir path).append (toUInt32 p.index) p.bytes
    modifyDir path fun _ ↦ written
    match written.lnPathIndex (toUInt32 p.index) with
    | none => throw (.runtime "filesystem error: cannot create hard link".toList)
    | some linked => modifyDir path fun _ ↦ linked

variable {v v' : View} {path : Str} {t : TmpDir} {files : Nat → Option Str} {dirty : Finset Nat}
  {n offset : Nat} {s : Str}

/-- One turn of the loop of `write_data`. -/
theorem writeBlocks_cons {size left right : Nat} {index : Int} {indexs : Int × Int}
    {indices : List Int} {data : Str}
    (hpart : blockPart offset size n indexs index = (left, right)) (horder : left ≤ right)
    (hlength : right - left ≤ data.length) :
    (writeBlocks path offset size n indexs (index :: indices) data).run v =
      (writePiece path ⟨index, left, right, data.take (right - left)⟩ >>= fun _ ↦
        writeBlocks path offset size n indexs indices (data.drop (right - left))).run v := by
  generalize hp : (⟨index, left, right, data.take (right - left)⟩ : Piece) = p
  have hindex : p.index = index := by rw [← hp]
  have hbytes : p.bytes = data.take (right - left) := by rw [← hp]
  rw [writeBlocks, run_bind_ok (run_get v), hpart]
  simp only
  rw [if_neg (by omega), ← hbytes, ← hindex]
  by_cases hnone : (v.sdk.dirs (v.sdk.tmpPath path)).isNone = true
  · have hthrow : (writePiece path p).run v =
        some (.error (.runtime ("failed to write data to ".toList ++ v.sdk.tmpPath path ++
          '/' :: toText (toUInt32 p.index))), v) := by
      rw [writePiece, run_bind_ok (run_get v), if_pos hnone, run_throw]
    rw [if_pos hnone, run_bind_error hthrow, run_throw]
  · rw [if_neg hnone]
    generalize hwritten : (v.sdk.dir path).append (toUInt32 p.index) p.bytes = written
    have hfirst : (modifyDir path fun _ ↦ written).run v = some (.ok (), v.setDir path written) := rfl
    rw [run_bind_ok hfirst]
    cases hlinked : written.lnPathIndex (toUInt32 p.index) with
    | none =>
      have hthrow : (writePiece path p).run v =
          some (.error (.runtime "filesystem error: cannot create hard link".toList),
            v.setDir path written) := by
        rw [writePiece, run_bind_ok (run_get v), if_neg hnone]
        simp only [hwritten]
        rw [run_bind_ok hfirst, hlinked, run_throw]
      rw [run_bind_error hthrow, run_throw]
    | some linked =>
      have hsecond : (modifyDir path fun _ ↦ linked).run (v.setDir path written) =
          some (.ok (), (v.setDir path written).setDir path linked) := rfl
      have hpiece : (writePiece path p).run v =
          some (.ok (), (v.setDir path written).setDir path linked) := by
        rw [writePiece, run_bind_ok (run_get v), if_neg hnone]
        simp only [hwritten]
        rw [run_bind_ok hfirst, hlinked, hsecond]
      rw [run_bind_ok hpiece, run_bind_ok hsecond]

theorem writePiece_run (hdir : v.sdk.dirs (v.sdk.tmpPath path) = some t)
    (hshows : t.Shows files dirty) (p : Piece) {i : Nat} (hi : toUInt32 p.index = i) :
    ∃ t', (writePiece path p).run v = some (.ok (), v.setDir path t') ∧
      t'.Shows (update files i (some ((files i).getD [] ++ p.bytes))) (insert i dirty) := by
  have happend := hshows.append i p.bytes
  obtain ⟨linked, hln, hlinked⟩ := happend.lnPathIndex (i := i) (by simp)
  have hfirst : (modifyDir path fun _ ↦ t.append i p.bytes).run v =
      some (.ok (), v.setDir path (t.append i p.bytes)) := rfl
  have hsecond : (modifyDir path fun _ ↦ linked).run (v.setDir path (t.append i p.bytes)) =
      some (.ok (), v.setDir path linked) := by
    rw [run_modifyDir]
    exact congrArg (fun w ↦ some (Except.ok (), w)) View.setDir_setDir
  refine ⟨linked, ?_, hlinked⟩
  rw [writePiece, run_bind_ok (run_get v)]
  simp only [hdir, View.dir_eq hdir, hi, Option.isNone_some, Bool.false_eq_true, if_false]
  rw [run_bind_ok hfirst]
  simp only [hln]
  exact hsecond

/-- The part of the data that goes to a block. -/
def dataPart (n offset : Nat) (s : Str) (i : Nat) : Str :=
  (s.drop (i * n - offset)).take ((i + 1) * n - max (i * n) offset)

theorem blockPart_eq (hpos : 0 < n) {size i : Nat} (hsum : offset + size < 2 ^ 31)
    (hfirst : offset / n ≤ i) (hlast : i ≤ (offset + size) / n) :
    blockPart offset size n (((offset / n : Nat) : Int), (((offset + size) / n + 1 : Nat) : Int))
        (Int.ofNat i) =
      (max (i * n) offset - i * n, min ((i + 1) * n) (offset + size) - i * n) := by
  have hmod : (offset + size) % 2 ^ 64 = offset + size := Nat.mod_eq_of_lt (by omega)
  have hdiv := Nat.div_add_mod offset n
  have hdiv' := Nat.div_add_mod (offset + size) n
  have hlt := Nat.mod_lt offset hpos
  have hlt' := Nat.mod_lt (offset + size) hpos
  rw [Nat.mul_comm] at hdiv hdiv'
  have hindex : (Int.ofNat i = ((offset / n : Nat) : Int)) ↔ i = offset / n := by
    rw [Int.ofNat_eq_natCast, Int.natCast_inj]
  have hindex' : (Int.ofNat i = (((offset + size) / n + 1 : Nat) : Int) - 1) ↔
      i = (offset + size) / n := by
    rw [Int.ofNat_eq_natCast]
    omega
  simp only [blockPart, hindex, hindex', hmod]
  congr 1
  · split_ifs with h
    · rw [h]
      omega
    · have hmul : (offset / n + 1) * n ≤ i * n := Nat.mul_le_mul_right n (by omega)
      rw [Nat.succ_mul] at hmul
      omega
  · rw [Nat.succ_mul]
    split_ifs with h
    · rw [h]
      omega
    · have hmul : (i + 1) * n ≤ (offset + size) / n * n := Nat.mul_le_mul_right n (by omega)
      rw [Nat.succ_mul] at hmul
      omega

theorem toUInt32_of_lt {i : Nat} (h : i < 2 ^ 31) : toUInt32 (Int.ofNat i) = i := by
  rw [toUInt32, BitVec.toNat_ofInt, Int.ofNat_eq_natCast]
  omega

/-- The block files after the parts of the data for these blocks are appended to them. -/
def appended (n offset : Nat) (s : Str) (files : Nat → Option Str) (indices : Finset Nat) :
    Nat → Option Str :=
  fun i ↦ if i ∈ indices then some ((files i).getD [] ++ dataPart n offset s i) else files i

theorem appended_cons {i count : Nat} (n offset : Nat) (s : Str) (files : Nat → Option Str) :
    appended n offset s (update files i (some ((files i).getD [] ++ dataPart n offset s i)))
        (Finset.Ico (i + 1) (i + (count + 1))) =
      appended n offset s files (Finset.Ico i (i + (count + 1))) := by
  funext k
  simp only [appended, Finset.mem_Ico]
  by_cases hk : k = i
  · subst hk
    simp
  · rw [update_of_ne hk]
    by_cases hin : i + 1 ≤ k ∧ k < i + (count + 1)
    · rw [if_pos hin, if_pos (by omega)]
    · rw [if_neg hin, if_neg (by omega)]

/-- The loop of `write_data` appends to each block file its part of the data. -/
theorem writeBlocks_run (hpos : 0 < n) (hsum : offset + s.length < 2 ^ 31) (count : Nat) {i : Nat}
    (hfirst : offset / n ≤ i) (hcount : i + count = (offset + s.length) / n + 1)
    (hdir : v.sdk.dirs (v.sdk.tmpPath path) = some t) (hshows : t.Shows files dirty) :
    ∃ t', (writeBlocks path offset s.length n
        (((offset / n : Nat) : Int), (((offset + s.length) / n + 1 : Nat) : Int))
        ((List.range' i count).map Int.ofNat) (s.drop (i * n - offset))).run v =
          some (.ok (), v.setDir path t') ∧
      t'.Shows (appended n offset s files (Finset.Ico i (i + count)))
        (dirty ∪ Finset.Ico i (i + count)) := by
  induction count generalizing i v t files dirty with
  | zero =>
    refine ⟨t, ?_, ?_⟩
    · rw [View.setDir_self hdir]
      rfl
    · have hnone : Finset.Ico i (i + 0) = ∅ := Finset.Ico_self i
      rw [hnone, Finset.union_empty]
      exact hshows
  | succ count ih =>
    have hlast : i ≤ (offset + s.length) / n := by omega
    have hstop : i * n ≤ offset + s.length :=
      (Nat.mul_le_mul_right n hlast).trans (Nat.div_mul_le_self _ n)
    have hsmall : i < 2 ^ 31 := by
      have hle : i ≤ i * n := Nat.le_mul_of_pos_right i hpos
      omega
    have hnext : (i + 1) * n = i * n + n := Nat.succ_mul i n
    have hoffset : offset < (i + 1) * n := Nat.lt_mul_of_div_lt (Nat.lt_succ_of_le hfirst) hpos
    -- what is left of the data begins in this block
    have hdata : (s.drop (i * n - offset)).length = s.length - (i * n - offset) := List.length_drop
    have hpart : min ((i + 1) * n) (offset + s.length) - i * n - (max (i * n) offset - i * n) =
        min ((i + 1) * n) (offset + s.length) - max (i * n) offset := by omega
    have htake : (s.drop (i * n - offset)).take
        (min ((i + 1) * n) (offset + s.length) - max (i * n) offset) = dataPart n offset s i := by
      rw [dataPart]
      rcases Nat.le_total ((i + 1) * n) (offset + s.length) with hle | hle
      · rw [Nat.min_eq_left hle]
      · rw [Nat.min_eq_right hle, List.take_of_length_le (by omega),
          List.take_of_length_le (by omega)]
    have hdrop : count ≠ 0 → (s.drop (i * n - offset)).drop
        (min ((i + 1) * n) (offset + s.length) - max (i * n) offset) =
          s.drop ((i + 1) * n - offset) := by
      intro hmore
      have hle : (i + 1) * n ≤ offset + s.length :=
        (Nat.mul_le_mul_right n (by omega)).trans (Nat.div_mul_le_self _ n)
      rw [List.drop_drop]
      congr 1
      omega
    obtain ⟨linked, hpiece, hlinked⟩ := writePiece_run hdir hshows
      ⟨Int.ofNat i, max (i * n) offset - i * n, min ((i + 1) * n) (offset + s.length) - i * n,
        dataPart n offset s i⟩ (toUInt32_of_lt hsmall)
    have hlinkedDir : (v.setDir path linked).sdk.dirs
        ((v.setDir path linked).sdk.tmpPath path) = some linked := View.dirs_setDir
    rw [List.range'_succ, List.map_cons, writeBlocks_cons (blockPart_eq hpos hsum hfirst hlast)
      (by omega) (by rw [hpart, hdata]; omega), hpart, htake, run_bind_ok hpiece]
    by_cases hmore : count = 0
    · subst hmore
      refine ⟨linked, rfl, ?_⟩
      have hone : Finset.Ico i (i + (0 + 1)) = {i} := by
        ext k
        simp only [Finset.mem_Ico, Finset.mem_singleton]
        omega
      rw [hone, Finset.union_comm, ← Finset.insert_eq]
      have hfiles : appended n offset s files {i} =
          update files i (some ((files i).getD [] ++ dataPart n offset s i)) := by
        funext k
        by_cases hk : k = i
        · subst hk
          simp [appended]
        · simp [appended, hk]
      rwa [hfiles]
    · rw [hdrop hmore]
      obtain ⟨t', hrun, hshows'⟩ := ih (i := i + 1) (by omega) (by omega) hlinkedDir hlinked
      refine ⟨t', ?_, ?_⟩
      · rw [View.setDir_setDir] at hrun
        exact hrun
      · have hsets : insert i dirty ∪ Finset.Ico (i + 1) (i + 1 + count) =
            dirty ∪ Finset.Ico i (i + (count + 1)) := by
          ext k
          simp only [Finset.mem_union, Finset.mem_insert, Finset.mem_Ico]
          by_cases hk : k ∈ dirty
          · simp [hk]
          · simp only [hk, or_false, false_or]
            omega
        have hstop' : i + 1 + count = i + (count + 1) := by omega
        rw [hsets] at hshows'
        rwa [hstop', appended_cons] at hshows'

variable {inode : Inode} {nodes : Datanodes}

theorem toUInt64_getBlockSize (h : inode.getBlockSize = n) : toUInt64 inode.getBlockSize = n := by
  have hlt := inode.getBlockSize_lt
  rw [toUInt64, BitVec.toNat_ofInt]
  omega

/-- The indices that the loop of `write_data` runs through. -/
def loopIndices (indexs : Int × Int) : List Int :=
  (List.range (indexs.2 - indexs.1).toNat).map (indexs.1 + ·)

theorem loopIndices_eq (first last : Nat) :
    loopIndices ((first : Int), (last : Int)) = (List.range' first (last - first)).map Int.ofNat := by
  have hcount : ((last : Int) - (first : Int)).toNat = last - first := by omega
  have hcast : (do return ((← List.range (last - first) : Nat) : Int) : List Int) =
      (List.range (last - first)).map Nat.cast := List.flatMap_pure_eq_map Nat.cast _
  simp only [loopIndices, hcount]
  rw [hcast, List.range'_eq_map_range, List.map_map, List.map_map]
  rfl

/-- `write_data` after the blocks were fetched that have to be. -/
theorem writeData_fetched_run {u w : View} (hc : v.sdk.cache path = some inode)
    (hn : inode.getBlockSize = n) (hpos : 0 < n) (hsum : offset + s.length < 2 ^ 31)
    (hfirst : (if offset < inode.filesize ∧ offset % n ≠ 0 then
      fetchBlock inode (offset / n : Nat) nodes else pure ()).run v = some (.ok (), u))
    (hlast : (if offset + s.length < inode.filesize ∧ offset / n ≠ (offset + s.length) / n ∧
        (offset + s.length) % n ≠ 0 then
      fetchBlock inode ((offset + s.length) / n : Nat) nodes else pure ()).run u = some (.ok (), w))
    (hdir : w.sdk.dirs (w.sdk.tmpPath path) = some t) (hshows : t.Shows files dirty) :
    ∃ t', (writeData path offset s nodes).run v = some (.ok (), w.setDir path t') ∧
      t'.Shows (appended n offset s files (Finset.Icc (offset / n) ((offset + s.length) / n)))
        (dirty ∪ Finset.Icc (offset / n) ((offset + s.length) / n)) := by
  have hget : (getInode path).run v = some (.ok inode, v) := getInode_ok.mpr ⟨hc, rfl⟩
  have hne : inode.getBlockSize ≠ 0 := by omega
  have hmod : (offset + s.length) % 2 ^ 64 = offset + s.length := Nat.mod_eq_of_lt (by omega)
  have hindexs : getIndexs inode offset s.length =
      (((offset / n : Nat) : Int), (((offset + s.length) / n + 1 : Nat) : Int)) :=
    getIndexs_eq hn hsum
  have hback : (((offset + s.length) / n + 1 : Nat) : Int) - 1 =
      (((offset + s.length) / n : Nat) : Int) := by omega
  have hindex : ((offset / n : Nat) : Int) ≠ (((offset + s.length) / n : Nat) : Int) ↔
      offset / n ≠ (offset + s.length) / n := by rw [Ne, Ne, Int.natCast_inj]
  have horder : offset / n ≤ (offset + s.length) / n := Nat.div_le_div_right (Nat.le_add_right _ _)
  have hnone : offset / n * n - offset = 0 := by
    have hle := Nat.div_mul_le_self offset n
    omega
  have hset : Finset.Ico (offset / n) ((offset + s.length) / n + 1) =
      Finset.Icc (offset / n) ((offset + s.length) / n) := by
    ext k
    simp only [Finset.mem_Ico, Finset.mem_Icc]
    omega
  obtain ⟨t', hrun, hshows'⟩ := writeBlocks_run hpos hsum
    ((offset + s.length) / n + 1 - offset / n) (i := offset / n) le_rfl (by omega) hdir hshows
  rw [hnone, List.drop_zero, ← loopIndices_eq, loopIndices] at hrun
  have hsum' : offset / n + ((offset + s.length) / n + 1 - offset / n) =
      (offset + s.length) / n + 1 := by omega
  rw [hsum', hset] at hshows'
  refine ⟨t', ?_, hshows'⟩
  rw [writeData, run_bind_ok hget]
  simp only [hindexs, toUInt64_getBlockSize hn, hne, if_false, hback, hmod, hindex]
  rw [run_bind_ok hfirst, run_bind_ok hlast]
  exact hrun

/-- `write_data` when no block has to be fetched before. -/
theorem writeData_run (nodes : Datanodes) (hc : v.sdk.cache path = some inode)
    (hn : inode.getBlockSize = n) (hpos : 0 < n) (hsum : offset + s.length < 2 ^ 31)
    (hfirst : ¬ (offset < inode.filesize ∧ offset % n ≠ 0))
    (hlast : ¬ (offset + s.length < inode.filesize ∧ offset / n ≠ (offset + s.length) / n ∧
      (offset + s.length) % n ≠ 0))
    (hdir : v.sdk.dirs (v.sdk.tmpPath path) = some t) (hshows : t.Shows files dirty) :
    ∃ t', (writeData path offset s nodes).run v = some (.ok (), v.setDir path t') ∧
      t'.Shows (appended n offset s files (Finset.Icc (offset / n) ((offset + s.length) / n)))
        (dirty ∪ Finset.Icc (offset / n) ((offset + s.length) / n)) := by
  refine writeData_fetched_run (u := v) hc hn hpos hsum ?_ ?_ hdir hshows
  · rw [if_neg hfirst]
    rfl
  · rw [if_neg hlast]
    rfl

end SDK

/-- What `encode_one_block` records of a block. -/
def Datanodes.entry (nodes : Datanodes) (storage : Option StorageType) (block : Str) : Str :=
  (nodes.encode storage block).toOption.getD []

theorem Datanodes.encode_eq {nodes : Datanodes} {storage : Option StorageType} {block s : Str}
    (h : nodes.encode storage block = .ok s) :
    nodes.encode storage block = .ok (nodes.entry storage block) := by
  rw [Datanodes.entry, h]
  rfl

namespace SDK

variable {v v' : View} {path : Str} {t : TmpDir} {files : Nat → Option Str} {dirty : Finset Nat}
  {n last : Nat} {inode : Inode} {nodes : Datanodes} {during : List Action} {sub : List Str}

/-- The entries for the blocks in the list are replaced. -/
def setEntries (enc : Nat → Str) (indices : List Nat) (sub : List Str) : List Str :=
  indices.foldl (fun sub i ↦ sub.set i (enc i)) sub

theorem length_setEntries (enc : Nat → Str) (indices : List Nat) (sub : List Str) :
    (setEntries enc indices sub).length = sub.length := by
  induction indices generalizing sub with
  | nil => rfl
  | cons i indices ih =>
    rw [setEntries, List.foldl_cons, ← setEntries, ih, List.length_set]

theorem getElem?_setEntries (enc : Nat → Str) (indices : List Nat) {k : Nat}
    (hk : k < sub.length) :
    (setEntries enc indices sub)[k]? = if k ∈ indices then some (enc k) else sub[k]? := by
  induction indices generalizing sub with
  | nil => simp [setEntries]
  | cons i indices ih =>
    have hlength : k < (sub.set i (enc i)).length := by rwa [List.length_set]
    rw [setEntries, List.foldl_cons, ← setEntries, ih hlength]
    by_cases hi : i = k
    · subst hi
      simp [hk]
    · simp [List.getElem?_set_ne hi, Ne.symm hi]

theorem encodeBlocks_run (nodes : Datanodes) (storage : Option StorageType) (contents : Nat → Str)
    (indices : List Nat) (sub : List Str)
    (henc : ∀ i ∈ indices, ∃ s, nodes.encode storage (contents i) = .ok s)
    (hdir : v.sdk.dirs (v.sdk.tmpPath path) = some t) (hshows : t.Shows files dirty) :
    ∃ t', (encodeBlocks path nodes storage (indices.map fun i ↦ (i, contents i)) sub).run v =
        some (.ok (setEntries (fun i ↦ nodes.entry storage (contents i)) indices sub),
          v.setDir path t') ∧ t'.Shows files (dirty \ indices.toFinset) := by
  induction indices generalizing v t sub dirty with
  | nil =>
    refine ⟨t, ?_, ?_⟩
    · rw [View.setDir_self hdir]
      rfl
    · rwa [List.toFinset_nil, Finset.sdiff_empty]
  | cons i indices ih =>
    obtain ⟨s, hs⟩ := henc i List.mem_cons_self
    have hremove : (uploadBlock path i (.ok (nodes.entry storage (contents i)))).run v =
        some (.ok (nodes.entry storage (contents i)), v.setDir path (t.removeWrite i)) := by
      rw [uploadBlock_ok, View.dir_eq hdir]
    have hnext : (v.setDir path (t.removeWrite i)).sdk.dirs
        ((v.setDir path (t.removeWrite i)).sdk.tmpPath path) = some (t.removeWrite i) :=
      View.dirs_setDir
    obtain ⟨t', hrun, hshows'⟩ := ih (sub.set i (nodes.entry storage (contents i)))
      (fun k hk ↦ henc k (List.mem_cons_of_mem _ hk)) hnext (hshows.removeWrite i)
    refine ⟨t', ?_, ?_⟩
    · rw [List.map_cons, encodeBlocks, Datanodes.encode_eq hs, run_bind_ok hremove, hrun, View.setDir_setDir]
      rfl
    · rwa [List.toFinset_cons, Finset.sdiff_insert, ← Finset.erase_sdiff_comm]

theorem getLast?_sort (hmem : last ∈ dirty) (hmax : ∀ i ∈ dirty, i ≤ last) :
    (dirty.sort (· ≤ ·)).getLast? = some last := by
  have hne : dirty.sort (· ≤ ·) ≠ [] := List.ne_nil_of_mem ((Finset.mem_sort _).mpr hmem)
  rw [List.getLast?_eq_some_getLast hne]
  have hin : (dirty.sort (· ≤ ·)).getLast hne ∈ dirty :=
    (Finset.mem_sort _).mp (List.getLast_mem hne)
  refine congrArg some (le_antisymm (hmax _ hin) ?_)
  have hsorted := Finset.pairwise_sort dirty (· ≤ ·)
  exact List.Pairwise.rel_getLast hsorted ((Finset.mem_sort _).mpr hmem)

/-- What `fsync` asks the leader to commit when the blocks in `dirty` are to be written. -/
def fsyncRequest (path : Str) (nodes : Datanodes) (inode : Inode) (files : Nat → Option Str)
    (dirty : Finset Nat) (last : Nat) : NNPutOKRequest :=
  ⟨path, toUInt64 (toInt32 (writtenSize inode last ((files last).getD []))),
    setEntries (fun i ↦ nodes.entry inode.storageType ((files i).getD [])) (dirty.sort (· ≤ ·))
      (resize inode.sub (last + 1))⟩

theorem fsync_of_nil (nodes : Datanodes) (during : List Action)
    (h : SDK.dirtyBlocks (v.sdk.dir path) = []) :
    (fsync path nodes during).run v = some (.ok none, v) := by
  rw [fsync, run_bind_ok (run_get v), h]
  rfl

theorem fsync_clean (nodes : Datanodes) (during : List Action)
    (hdir : v.sdk.dirs (v.sdk.tmpPath path) = some t) (hshows : t.Shows files ∅) :
    (fsync path nodes during).run v = some (.ok none, v) := by
  refine fsync_of_nil nodes during ?_
  rw [View.dir_eq hdir, hshows.dirtyBlocks, Finset.sort_empty, List.map_nil]

theorem fsync_run (hc : v.sdk.cache path = some inode)
    (hdir : v.sdk.dirs (v.sdk.tmpPath path) = some t) (hshows : t.Shows files dirty)
    (hmem : last ∈ dirty) (hmax : ∀ i ∈ dirty, i ≤ last) (hlast : last < 2 ^ 31)
    (henc : ∀ i ∈ dirty, ∃ s, nodes.encode inode.storageType ((files i).getD []) = .ok s)
    {entry : Entry} {l : Leader}
    (hput : v.leader.rpc (.putOk (fsyncRequest path nodes inode files dirty last)) during =
      some (.ok entry, l)) :
    ∃ commit t', (fsync path nodes during).run v =
        some (.ok (some commit), { v.setDir path t' with leader := l }) ∧ t'.Shows files ∅ := by
  have hblocks := hshows.dirtyBlocks
  have hfew : ¬ (SDK.dirtyBlocks t).any (2 ^ 31 ≤ ·.1) = true := by
    rw [hblocks, List.any_eq_true]
    rintro ⟨b, hb, hle⟩
    obtain ⟨i, hi, rfl⟩ := List.mem_map.mp hb
    have hbound := hmax i ((Finset.mem_sort _).mp hi)
    have hlarge : 2 ^ 31 ≤ i := of_decide_eq_true hle
    omega
  have hend : (SDK.dirtyBlocks t).getLast? = some (last, (files last).getD []) := by
    rw [hblocks, List.getLast?_map, getLast?_sort hmem hmax, Option.map_some]
  have hget : (getInode path).run v = some (.ok inode, v) := getInode_ok.mpr ⟨hc, rfl⟩
  obtain ⟨t', hencode, hshows'⟩ := encodeBlocks_run nodes inode.storageType
    (fun i ↦ (files i).getD []) (dirty.sort (· ≤ ·)) (resize inode.sub (last + 1))
    (fun i hi ↦ henc i ((Finset.mem_sort _).mp hi)) hdir hshows
  rw [Finset.sort_toFinset, Finset.sdiff_self] at hshows'
  obtain ⟨committed, rfl, -, -⟩ := Leader.rpc_putOk hput
  have hrpc : (rpc (.putOk (fsyncRequest path nodes inode files dirty last)) during).run
      (v.setDir path t') = some (.ok (.opPutOk committed), { v.setDir path t' with leader := l }) := by
    rw [rpc, run_of, View.leader_setDir, hput]
    rfl
  rw [fsyncRequest] at hrpc
  refine ⟨⟨committed, (SDK.dirtyBlocks t).map (·.1)⟩, t', ?_, hshows'⟩
  rw [fsync, run_bind_ok (run_get v), View.dir_eq hdir]
  simp only [if_neg hfew, hend]
  rw [run_bind_ok hget, hblocks, run_bind_ok hencode, run_bind_ok hrpc]
  rfl

end SDK

end Spkdfs
