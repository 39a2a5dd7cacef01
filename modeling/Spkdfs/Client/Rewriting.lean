import Spkdfs.Client.Corruption
import Spkdfs.Client.Fsync

namespace Spkdfs

open Library Procedure Function

/-- What the inode of a file of its own says: the datanodes return its blocks, which are whole and
no more than the content needs. -/
structure Inode.Contains (j : Inode) (storage : StorageType) (nodes : Datanodes) (content : Str)
    (blocks : List Str) : Prop where
  valid : j.valid = true
  agg : j.aggInodeId = []
  storageType : j.storageType = some storage
  blockSize : 0 < storage.getBlockSize
  decodes : SDK.Decodes nodes j blocks
  uniform : Uniform (toUInt64 storage.getBlockSize) blocks
  count : blocks.length * toUInt64 storage.getBlockSize <
    content.length + toUInt64 storage.getBlockSize
  begins : content <+: blocks.flatten
  filesize : j.filesize = content.length

/-- The file is committed, no other request is about its path, and the client has no block file of
it. -/
structure StoredFile (path : Str) (storage : StorageType) (nodes : Datanodes) (content : Str)
    (blocks : List Str) (j : Inode) (v : View) : Prop where
  named : path ≠ []
  leader : ∃ myIp now, Reaches Leader.step (fun _ _ ↦ True) (.start myIp now) v.leader
  progress : v.progress ≤ v.leader.applied.length
  pending : ∀ q ∈ v.leader.pending, q.entry.Spares (simplifyPath path)
  lookup : RocksDB.lookup v.leader.store (simplifyPath path) = some j
  contains : j.Contains storage nodes content blocks
  uncached : (v.sdk.dir path).files = [] ∧ (v.sdk.dir (simplifyPath path)).files = []

/-- The file is opened for writing and not truncated, with an up-to-date slave. -/
def OpenedToWrite (path : Str) (v v' : View) : Prop :=
  ∃ flags waits, writeMode flags = true ∧ flags &&& oTrunc = 0 ∧
    (∀ a ∈ waits.lock, a.Spares (simplifyPath path)) ∧
    (SDK.open path flags waits).run v = some (.ok (), v') ∧
      waits.seen = v'.leader.applied.length

/-- The client has the file open for writing. -/
structure WriteSession (path : Str) (storage : StorageType) (nodes : Datanodes) (content : Str)
    (blocks : List Str) (j : Inode) (v : View) : Prop where
  named : path ≠ []
  leader : ∃ myIp now, Reaches Leader.step (fun _ _ ↦ True) (.start myIp now) v.leader
  progress : v.progress ≤ v.leader.applied.length
  pending : ∀ q ∈ v.leader.pending, q.entry.Spares (simplifyPath path)
  lookup : RocksDB.lookup v.leader.store (simplifyPath path) = some j
  contains : j.Contains storage nodes content blocks
  cache : v.sdk.cache path = some j
  own : ∃ t, v.sdk.dirs (v.sdk.tmpPath path) = some t ∧ t.Shows (fun _ ↦ none) ∅
  other : v.sdk.tmpPath (simplifyPath path) ≠ v.sdk.tmpPath path →
    ∀ t, v.sdk.dirs (v.sdk.tmpPath (simplifyPath path)) = some t → t.files = []

section

variable {path : Str} {storage : StorageType} {nodes : Datanodes} {content : Str}
  {blocks : List Str} {j : Inode} {v v₁ : View}

theorem Inode.Contains.blockSize_eq (h : j.Contains storage nodes content blocks) :
    j.getBlockSize = (toUInt64 storage.getBlockSize : Nat) ∧ 0 < toUInt64 storage.getBlockSize := by
  rw [Inode.getBlockSize, h.storageType]
  exact StorageType.blockSize_eq h.blockSize

theorem StoredFile.opened (h : StoredFile path storage nodes content blocks j v)
    (ho : OpenedToWrite path v v₁) :
    (∃ deadline, WriteSession path storage nodes content blocks { j with ddlLock := deadline } v₁) ∧
      v₁.sdk.tmpPath = v.sdk.tmpPath ∧
      ∀ key, key ≠ v.sdk.tmpPath path → v₁.sdk.dirs key = v.sdk.dirs key := by
  obtain ⟨flags, waits, hw, hflags, hquiet, hopen, hseen⟩ := ho
  obtain ⟨myIp, now, hleader⟩ := h.leader
  obtain ⟨hreach, hpending, hprogress, deadline, hcache, hlookup⟩ := SDK.open_lookup h.named
    (.inl hflags) h.pending hquiet hleader h.lookup hopen hseen
  have htmp := SDK.open_tmpPath hopen
  have hothers : ∀ key, key ≠ v.sdk.tmpPath path → v₁.sdk.dirs key = v.sdk.dirs key :=
    fun key hkey ↦ SDK.open_others hopen hkey
  have hc := h.contains
  refine ⟨⟨deadline, h.named, ⟨myIp, now, hleader.trans hreach⟩, hprogress.le, hpending, hlookup,
    ⟨hc.valid, hc.agg, hc.storageType, hc.blockSize, hc.decodes, hc.uniform, hc.count, hc.begins,
      hc.filesize⟩, hcache, SDK.open_write_empty hw h.uncached.1 hopen, fun hne t ht ↦ ?_⟩,
    htmp, hothers⟩
  rw [htmp] at hne ht
  rw [hothers _ hne] at ht
  have hfiles := h.uncached.2
  rwa [SDK.dir, ht, Option.getD_some] at hfiles

/-- A file that `put` has made. -/
theorem Uploaded.storedFile {d : Shards} {outcomes : List Bool}
    (h : Uploaded content path storage d v v₁)
    (hdirs : (v.sdk.dir path).files = [] ∧ (v.sdk.dir (simplifyPath path)).files = []) :
    ∃ j, StoredFile path storage (d.toDatanodes outcomes) content
      (splitAllBlock content (toUInt64 storage.getBlockSize)) j v₁ := by
  obtain ⟨-, sub, hs⟩ := h.stored
  obtain ⟨myIp, now, hleader⟩ := h.leader
  obtain ⟨-, hpos⟩ := h.blockSize_eq
  obtain ⟨hblocks, hcontent⟩ := splitAllBlock_spec content hpos
  have hprogress : v₁.progress ≤ v₁.leader.applied.length := by
    obtain ⟨records, happlied, -⟩ := Leader.applied_of_reaches hs.leader
    rw [hs.progress, happlied, List.length_append]
    exact h.progress.trans (Nat.le_add_right _ _)
  rw [SDK.dir, SDK.dir, ← hs.dirs, ← hs.tmpPath] at hdirs
  exact ⟨_, hs.named, ⟨myIp, now, hleader.trans hs.leader⟩, hprogress, hs.pending, hs.lookup,
    ⟨rfl, rfl, rfl, h.blockSize, h.decodes hs _ rfl rfl, hblocks, splitAllBlock_count content hpos,
      hcontent, rfl⟩, hdirs⟩

/-- A file without content. -/
theorem NewFile.storedFile {inode : Inode} (nodes : Datanodes) (h : NewFile path storage inode v)
    (hdir : (v.sdk.dir (simplifyPath path)).files = []) :
    StoredFile path storage nodes [] [] inode v := by
  obtain ⟨-, hpos⟩ := h.blockSize_eq
  refine ⟨h.named, h.leader, h.progress, h.pending, h.lookup, ⟨h.valid, h.agg, h.storageType,
    h.blockSize, ?_, Uniform.nil, ?_, List.nil_prefix, h.filesize⟩, h.uncached, hdir⟩
  · rw [SDK.Decodes, h.sub]
    exact .nil
  · rw [List.length_nil, List.length_nil, Nat.zero_mul, Nat.zero_add]
    exact hpos

end

/-- The blocks of a file after some of them were written. -/
def blocksAfter (blocks : List Str) (files : Nat → Option Str) (dirty : Finset Nat) (last : Nat) :
    List Str :=
  (List.range (max blocks.length (last + 1))).map fun k ↦
    if k ∈ dirty then (files k).getD [] else (blocks[k]?).getD []

/-- The blocks after the data was written to them, without what they held before. -/
def writtenOver (n offset : Nat) (s : Str) (blocks : List Str) : List Str :=
  blocksAfter blocks (fun i ↦ some (SDK.dataPart n offset s i))
    (Finset.Icc (offset / n) ((offset + s.length) / n)) ((offset + s.length) / n)

theorem getElem?_blocksAfter {blocks : List Str} {files : Nat → Option Str} {dirty : Finset Nat}
    {last i : Nat} (hmax : ∀ i ∈ dirty, i ≤ last) (hi : i ∈ dirty) :
    (blocksAfter blocks files dirty last)[i]? = some ((files i).getD []) := by
  have hle := hmax i hi
  rw [blocksAfter, List.getElem?_map, List.getElem?_range (by omega), Option.map_some, if_pos hi]

theorem blocksAfter_congr {blocks : List Str} {files files' : Nat → Option Str} {dirty : Finset Nat}
    (last : Nat) (h : ∀ i ∈ dirty, files i = files' i) :
    blocksAfter blocks files dirty last = blocksAfter blocks files' dirty last := by
  refine List.map_congr_left fun k _ ↦ ?_
  split_ifs with hk
  · rw [h k hk]
  · rfl

section

variable {blocks : List Str} {files : Nat → Option Str} {a b n offset i : Nat} {s : Str}

theorem map_range_getD (blocks : List Str) (a : Nat) :
    (List.range a).map (fun k ↦ (blocks[k]?).getD []) = (SDK.resize blocks a).take a := by
  refine List.ext_getElem? fun k ↦ ?_
  by_cases hk : k < a
  · rw [List.getElem?_map, List.getElem?_range hk, Option.map_some, List.getElem?_take_of_lt hk,
      SDK.getElem?_resize_getD hk]
  · rw [List.getElem?_eq_none (by rw [List.length_map, List.length_range]; omega),
      List.getElem?_eq_none (by rw [List.length_take]; omega)]

theorem map_range'_getD (blocks : List Str) (first : Nat) :
    (List.range' first (blocks.length - first)).map (fun k ↦ (blocks[k]?).getD []) =
      blocks.drop first := by
  refine List.ext_getElem? fun k ↦ ?_
  rw [List.getElem?_map, List.getElem?_drop]
  by_cases hk : k < blocks.length - first
  · rw [List.getElem?_range' hk, Option.map_some, Nat.one_mul,
      List.getElem?_eq_getElem (by omega), Option.getD_some]
  · rw [List.getElem?_eq_none (by rw [List.length_range']; omega),
      List.getElem?_eq_none (by omega), Option.map_none]

/-- The blocks before those that were written, the written ones, and those behind them. -/
theorem blocksAfter_Icc (h : a ≤ b) :
    blocksAfter blocks files (Finset.Icc a b) b =
      (SDK.resize blocks a).take a ++
        (List.range' a (b + 1 - a)).map (fun k ↦ (files k).getD []) ++ blocks.drop (b + 1) := by
  have hcount : max blocks.length (b + 1) = a + ((b + 1 - a) + (blocks.length - (b + 1))) := by omega
  have hstart : a + (b + 1 - a) = b + 1 := by omega
  have hrange : List.range (max blocks.length (b + 1)) = List.range a ++
      (List.range' a (b + 1 - a) ++ List.range' (b + 1) (blocks.length - (b + 1))) := by
    have hback : List.range' a (b + 1 - a) ++ List.range' (b + 1) (blocks.length - (b + 1)) =
        List.range' a ((b + 1 - a) + (blocks.length - (b + 1))) := by
      rw [← List.range'_append_1, hstart]
    rw [hback, hcount, List.range_eq_range', List.range_eq_range']
    have hwhole := List.range'_append_1 (s := 0) (m := a)
      (n := (b + 1 - a) + (blocks.length - (b + 1)))
    rw [Nat.zero_add] at hwhole
    exact hwhole.symm
  rw [blocksAfter, hrange, List.map_append, List.map_append, List.append_assoc]
  congr 1
  · rw [← map_range_getD]
    refine List.map_congr_left fun k hk ↦ if_neg fun hin ↦ ?_
    have hlt := List.mem_range.mp hk
    have hle := (Finset.mem_Icc.mp hin).1
    omega
  congr 1
  · refine List.map_congr_left fun k hk ↦ if_pos ?_
    obtain ⟨x, hx, rfl⟩ := List.mem_range'.mp hk
    rw [Finset.mem_Icc]
    omega
  · rw [← map_range'_getD]
    refine List.map_congr_left fun k hk ↦ if_neg fun hin ↦ ?_
    obtain ⟨x, hx, rfl⟩ := List.mem_range'.mp hk
    have hle := (Finset.mem_Icc.mp hin).2
    omega

/-- The parts of the data, put together again. -/
theorem flatten_dataParts (hpos : 0 < n) (count : Nat) {i : Nat}
    (hfirst : offset / n ≤ i) (hcount : i + count = (offset + s.length) / n + 1) :
    ((List.range' i count).map (SDK.dataPart n offset s)).flatten = s.drop (i * n - offset) := by
  induction count generalizing i with
  | zero =>
    have hend : offset + s.length < i * n := by
      have hi : i = (offset + s.length) / n + 1 := by omega
      rw [hi]
      exact Nat.lt_mul_of_div_lt (Nat.lt_succ_self _) hpos
    rw [List.drop_eq_nil_of_le (by omega)]
    rfl
  | succ count ih =>
    have hlt : offset < (i + 1) * n := Nat.lt_mul_of_div_lt (Nat.lt_succ_of_le hfirst) hpos
    have hnext : (i + 1) * n = i * n + n := Nat.succ_mul i n
    rw [List.range'_succ, List.map_cons, List.flatten_cons, ih (by omega) (by omega), SDK.dataPart]
    have hdrop : s.drop ((i + 1) * n - offset) =
        (s.drop (i * n - offset)).drop ((i + 1) * n - max (i * n) offset) := by
      rw [List.drop_drop]
      congr 1
      omega
    rw [hdrop, List.take_append_drop]

theorem flatten_resize (blocks : List Str) (a : Nat) :
    ((SDK.resize blocks a).take a).flatten = (blocks.take a).flatten := by
  have hempty : ∀ count, (List.replicate count ([] : Str)).flatten = [] := by simp
  rw [SDK.resize, List.take_append, List.flatten_append, List.take_replicate, hempty, List.append_nil]

theorem length_writtenOver (n offset : Nat) (s : Str) (blocks : List Str) :
    (writtenOver n offset s blocks).length =
      max blocks.length ((offset + s.length) / n + 1) := by
  rw [writtenOver, blocksAfter, List.length_map, List.length_range]

/-- The data, without what was in its first block before it and in its last block behind it. -/
theorem flatten_writtenOver (hpos : 0 < n) :
    (writtenOver n offset s blocks).flatten =
      (blocks.take (offset / n)).flatten ++ s ++
        (blocks.drop ((offset + s.length) / n + 1)).flatten := by
  have horder : offset / n ≤ (offset + s.length) / n := Nat.div_le_div_right (Nat.le_add_right _ _)
  have hfirst : offset / n * n - offset = 0 := by
    have hle := Nat.div_mul_le_self offset n
    omega
  have hparts := flatten_dataParts (s := s) hpos ((offset + s.length) / n + 1 - offset / n)
    (i := offset / n) le_rfl (by omega)
  rw [hfirst, List.drop_zero] at hparts
  simp only [writtenOver, blocksAfter_Icc horder, Option.getD_some, List.flatten_append,
    flatten_resize, hparts]

end

theorem Shards.decode_nil (d : Shards) (storage : StorageType) :
    d.decode (some storage) [] = .ok [] := rfl

/-- No writer has the local lock of the path. -/
def Unlocked (path : Str) (v : View) : Prop :=
  ∀ lock, v.sdk.pathlocks (v.sdk.tmpPath path) = some lock → lock.mutex.writer = false

theorem PathLocks.unlock_writer {locks : PathLocks} {key : Str} {lock : PathLock}
    (h : locks.unlock key key = some lock) : lock.mutex.writer = false := by
  rw [PathLocks.unlock] at h
  cases hkey : locks key with
  | none =>
    simp only [hkey] at h
    cases h
  | some entry =>
    simp only [hkey, update_self, Option.some.injEq] at h
    rw [← h]
    simp only [SharedMutex.unlockShared, SharedMutex.unlock, ite_self]
    split_ifs with hw
    · rfl
    · simpa using hw

namespace SDK

variable {path : Str} {storage : StorageType} {d : Shards} {outcomes : List Bool} {blocks : List Str}
  {j : Inode} {v : View} {t : TmpDir} {files : Nat → Option Str} {dirty : Finset Nat} {last : Nat}
  {during : List Action}

/-- The subs that `fsync` commits, and what they are decoded to. -/
theorem decodes_blocksAfter (hstorage : j.storageType = some storage)
    (hd : Decodes (d.toDatanodes outcomes) j blocks) (hmax : ∀ i ∈ dirty, i ≤ last)
    (henc : ∀ i ∈ dirty, ∃ s, (d.toDatanodes outcomes).encode (some storage) ((files i).getD []) =
        .ok s ∧ (d.toDatanodes outcomes).decode (some storage) s = .ok ((files i).getD []))
    {j' : Inode} (hstorage' : j'.storageType = some storage)
    (hsub : j'.sub = setEntries (fun i ↦ (d.toDatanodes outcomes).entry (some storage)
      ((files i).getD [])) (dirty.sort (· ≤ ·)) (resize j.sub (last + 1))) :
    Decodes (d.toDatanodes outcomes) j' (blocksAfter blocks files dirty last) := by
  have hlength : j'.sub.length = max blocks.length (last + 1) := by
    rw [hsub, length_setEntries, resize, List.length_append, List.length_replicate, hd.length_eq]
    omega
  rw [Decodes, hstorage']
  refine List.forall₂_iff_get.mpr ⟨?_, fun k hk hk' ↦ ?_⟩
  · rw [blocksAfter, List.length_map, List.length_range, hlength]
  rw [List.get_eq_getElem, List.get_eq_getElem]
  have hblock : (blocksAfter blocks files dirty last)[k] =
      if k ∈ dirty then (files k).getD [] else (blocks[k]?).getD [] := by
    simp only [blocksAfter, List.getElem_map, List.getElem_range]
  have hentry : j'.sub[k]? = some j'.sub[k] := List.getElem?_eq_getElem hk'
  rw [hblock]
  by_cases hdirty : k ∈ dirty
  · obtain ⟨s, hs, hdecode⟩ := henc k hdirty
    have hcommitted : j'.sub[k]? =
        some ((d.toDatanodes outcomes).entry (some storage) ((files k).getD [])) := by
      rw [hsub]
      exact committed_of_mem hmax hdirty
    rw [hentry, Datanodes.entry, hs] at hcommitted
    rw [if_pos hdirty, Option.some.inj hcommitted]
    exact hdecode
  · have hkept : j'.sub[k]? = (resize j.sub (last + 1))[k]? := by
      rw [hsub]
      exact committed_of_notMem hdirty
    rw [hentry] at hkept
    rw [if_neg hdirty]
    by_cases hold : k < blocks.length
    · obtain ⟨s, hs, hdecode⟩ := hd.sub_of_block (List.getElem?_eq_getElem hold)
      rw [hstorage] at hdecode
      have hin : k < j.sub.length := hd.length_eq ▸ hold
      rw [resize, List.getElem?_append_left hin, hs] at hkept
      rw [Option.some.inj hkept, List.getElem?_eq_getElem hold]
      exact hdecode
    · -- a block that was never written has an empty entry
      have hempty : (((resize j.sub (last + 1))[k]?).getD [] : Str) = [] :=
        getD_resize (hd.length_eq ▸ Nat.le_of_not_lt hold)
      rw [← hkept, Option.getD_some] at hempty
      rw [hempty, List.getElem?_eq_none (Nat.le_of_not_lt hold)]
      exact Shards.decode_nil d storage

end SDK

theorem TmpDir.Holds.of_files_nil {t : TmpDir} {blocks : List Str} (h : t.files = []) :
    t.Holds blocks := by
  have hlookup : ∀ i, t.files.lookup i = none := fun i ↦ by rw [h, List.lookup_nil]
  refine ⟨fun i j file hi ↦ ?_, fun i file hi ↦ ?_, fun i file hi ↦ ?_⟩ <;>
  · rw [hlookup] at hi
    cases hi

theorem TmpDir.Shows.holds {t : TmpDir} {files : Nat → Option Str} {dirty : Finset Nat}
    {blocks : List Str} (h : t.Shows files dirty)
    (hfiles : ∀ i s, files i = some s → s = [] ∨ ∀ block, blocks[i]? = some block → s = block) :
    t.Holds blocks where
  apart := h.apart
  below := h.below
  block i file hi := by
    have hread := h.read i
    rw [TmpDir.read, hi] at hread
    exact hfiles i _ hread.symm

/-- A file that was written and closed: the datanodes return the blocks that its inode records, and
its block files hold nothing else. -/
structure ClosedFile (path : Str) (storage : StorageType) (nodes : Datanodes) (filesize : Nat)
    (blocks : List Str) (v : View) : Prop where
  named : path ≠ []
  leader : ∃ myIp now, Reaches Leader.step (fun _ _ ↦ True) (.start myIp now) v.leader
  progress : v.progress ≤ v.leader.applied.length
  pending : ∀ q ∈ v.leader.pending, q.entry.Spares (simplifyPath path)
  inode : ∃ j, RocksDB.lookup v.leader.store (simplifyPath path) = some j ∧ j.valid = true ∧
    j.aggInodeId = [] ∧ j.storageType = some storage ∧ j.filesize = filesize ∧
    SDK.Decodes nodes j blocks
  unlocked : Unlocked path v

theorem SDK.updateInode_answered {path : Str} {j : Inode} {v : View} {myIp : Str} {now : Nat}
    (hne : path ≠ [])
    (hleader : Reaches Leader.step (fun _ _ ↦ True) (.start myIp now) v.leader)
    (hprogress : v.progress ≤ v.leader.applied.length)
    (hl : RocksDB.lookup v.leader.store (simplifyPath path) = some j) (hv : j.valid = true) :
    ∃ w, (updateInode path v.leader.applied.length none).run v = some (.ok (), w) ∧
      w.leader = v.leader := by
  let opened : View := { v with sdk := { v.sdk with
    cache := update v.sdk.cache path (some ((v.sdk.cache path).getD (.ofPath []))) } }
  have hremote : (getRemoteInode path v.leader.applied.length).run opened =
      some (.ok j, { opened with progress := v.leader.applied.length }) :=
    getRemoteInode_run hne hleader hprogress hl hv
  rw [updateInode, run_bind_ok (run_get v), run_bind_ok (run_setCache _ v), run_bind_ok hremote]
  exact ⟨_, rfl, rfl⟩

/-- Both `get` and whoever opens the file again read the content. -/
def RereadAs (content path : Str) (nodes : Datanodes) (v : View) : Prop :=
  (∃ v', Opened path v v') ∧ ∀ v', Opened path v v' → ReadsBack content path nodes v v'

namespace ClosedFile

variable {path : Str} {storage : StorageType} {nodes : Datanodes} {filesize n : Nat}
  {blocks : List Str} {v v' : View} {content : Str}

theorem get_run (h : ClosedFile path storage nodes filesize blocks v) :
    ∃ w, (SDK.get path v.leader.applied.length nodes).run v =
      some (.ok (resizeFile blocks.flatten filesize), w) := by
  obtain ⟨myIp, now, hleader⟩ := h.leader
  obtain ⟨j, hlookup, hvalid, hagg, hstorage, rfl, hdecodes⟩ := h.inode
  exact ⟨_, SDK.get_plain h.named hleader h.progress hlookup hvalid (by simp [hstorage]) hagg hdecodes⟩

/-- The file can be opened again. -/
theorem exists_opened (h : ClosedFile path storage nodes filesize blocks v) :
    ∃ v', Opened path v v' := by
  obtain ⟨myIp, now, hleader⟩ := h.leader
  obtain ⟨j, hlookup, hvalid, -⟩ := h.inode
  let made : View := v.setDir path (v.sdk.dir path)
  obtain ⟨locks, hlocks⟩ : ∃ locks,
      v.sdk.pathlocks.readLock (v.sdk.tmpPath path) = some locks := by
    rw [PathLocks.readLock, SharedMutex.lockShared]
    cases hlock : v.sdk.pathlocks (v.sdk.tmpPath path) with
    | none => exact ⟨_, rfl⟩
    | some lock =>
      simp only [Option.getD_some, h.unlocked lock hlock, Bool.false_eq_true, if_false]
      exact ⟨_, rfl⟩
  let locked : View := { made with sdk := { made.sdk with pathlocks := locks } }
  have hmade : (SDK.modifyDir path id).run v = some (.ok (), made) := rfl
  have hlock : (SDK.openLock path oRdonly { seen := v.leader.applied.length }).run made =
      some (.ok (), locked) := by
    rw [SDK.openLock, if_neg (by decide), SDK.readLock, SDK.acquire, run_of]
    exact congrArg (Option.map _) hlocks
  obtain ⟨w, hupdate, hkept⟩ : ∃ w, (SDK.updateInode path v.leader.applied.length none).run locked =
      some (.ok (), w) ∧ w.leader = v.leader :=
    SDK.updateInode_answered (v := locked) h.named hleader h.progress hlookup hvalid
  refine ⟨w, oRdonly, { seen := v.leader.applied.length }, by decide, fun a ha ↦ ?_, ?_, ?_⟩
  · cases ha
  · have hdir : (SDK.mkdirF (v.sdk.tmpPath path) none).run v = some (.ok (), v) := rfl
    rw [SDK.open, if_neg (by decide), run_bind_ok (run_get v), run_bind_ok hdir, run_bind_ok hmade,
      run_bind_ok hlock, SDK.openInode_eq (by decide)]
    exact run_bind_ok hupdate _
  · rw [hkept]

/-- What the client has cached after it has opened the file again. -/
theorem opened (h : ClosedFile path storage nodes filesize blocks v) (ho : Opened path v v')
    (hpos : 0 < storage.getBlockSize) :
    ∃ j, v'.sdk.cache path = some j ∧ j.fullpath.str = simplifyPath path ∧
      j.getBlockSize = (toUInt64 storage.getBlockSize : Nat) ∧ j.filesize = filesize ∧
      SDK.Decodes nodes j blocks := by
  obtain ⟨myIp, now, hleader⟩ := h.leader
  obtain ⟨j, hlookup, hvalid, hagg, hstorage, hsize, hdecodes⟩ := h.inode
  obtain ⟨flags, waits, hflags, hquiet, hopen, hseen⟩ := ho
  obtain ⟨deadline, hcache⟩ := SDK.open_cache h.named hflags h.pending hquiet hleader hlookup hvalid
    hopen hseen
  have hblockSize : j.getBlockSize = (toUInt64 storage.getBlockSize : Nat) := by
    rw [Inode.getBlockSize, hstorage]
    exact (StorageType.blockSize_eq hpos).1
  have hpath : j.fullpath.str = simplifyPath path := RocksDB.fullpath_of_lookup hlookup
  exact ⟨_, hcache, hpath, hblockSize, hsize, hdecodes⟩

/-- The content is read again when the blocks begin with it. -/
theorem rereadAs (h : ClosedFile path storage nodes content.length blocks v)
    (hn : toUInt64 storage.getBlockSize = n) (hpos : 0 < storage.getBlockSize)
    (hblocks : Aligned n blocks) (hcontent : content <+: blocks.flatten)
    (hsmall : content.length < 2 ^ 31)
    (hfiles : ∀ v', Opened path v v' → SDK.BlockFiles (simplifyPath path) blocks v') :
    RereadAs content path nodes v := by
  refine ⟨h.exists_opened, fun v' ho ↦ ⟨?_, fun _ offset size hsum ↦ ?_⟩⟩
  · obtain ⟨w, hget⟩ := h.get_run
    rw [resizeFile_eq_content hcontent] at hget
    exact ⟨w, hget⟩
  · obtain ⟨j, hcache, hpath, hsize, hlength, hdecodes⟩ := h.opened ho hpos
    have hstored := hfiles v' ho
    rw [hn] at hsize
    rw [← hpath] at hstored
    exact SDK.readData_run hcache hdecodes hstored hsize (hn ▸ (StorageType.blockSize_eq hpos).2)
      hblocks hcontent hlength hsmall hsum

theorem get_of_rereadAs (h : ClosedFile path storage nodes filesize blocks v)
    (hread : RereadAs content path nodes v) : resizeFile blocks.flatten filesize = content := by
  obtain ⟨v', ho⟩ := hread.1
  obtain ⟨w, hget⟩ := (hread.2 v' ho).1
  obtain ⟨w', hget'⟩ := h.get_run
  rw [hget] at hget'
  exact (Except.ok.inj (Prod.mk.inj (Option.some.inj hget')).1).symm

end ClosedFile

/-- The client has the path open with this inode. The entries of the leader may be others. -/
structure OpenedFile (path : Str) (storage : StorageType) (nodes : Datanodes) (blocks : List Str)
    (j : Inode) (v : View) : Prop where
  named : path ≠ []
  leader : ∃ myIp now, Reaches Leader.step (fun _ _ ↦ True) (.start myIp now) v.leader
  progress : v.progress ≤ v.leader.applied.length
  pending : ∀ q ∈ v.leader.pending, q.entry.Spares (simplifyPath path)
  remote : ∃ i, RocksDB.lookup v.leader.store (simplifyPath path) = some i ∧ i.valid = true ∧
    i.aggInodeId = [] ∧ i.storageType = some storage
  cache : v.sdk.cache path = some j
  storageType : j.storageType = some storage
  decodes : SDK.Decodes nodes j blocks

section

variable {path : Str} {storage : StorageType} {d : Shards} {outcomes : List Bool} {content : Str}
  {blocks : List Str} {j : Inode} {v₁ v₂ : View} {t : TmpDir} {files : Nat → Option Str}
  {dirty : Finset Nat} {last : Nat} {during : List Action}

theorem OpenedFile.within {nodes : Datanodes} {P : TmpDir → Prop}
    (h : OpenedFile path storage nodes blocks j v₁) (hv : SDK.Within path P v₁ v₂) :
    OpenedFile path storage nodes blocks j v₂ where
  named := h.named
  leader := hv.leader ▸ h.leader
  progress := by
    rw [hv.progress, hv.leader]
    exact h.progress
  pending := hv.leader ▸ h.pending
  remote := hv.leader ▸ h.remote
  cache := by rw [hv.cache, h.cache]
  storageType := h.storageType
  decodes := h.decodes

/-- What `close` leaves behind after these blocks were written. -/
theorem OpenedFile.close_run (h : OpenedFile path storage (d.toDatanodes outcomes) blocks j v₂)
    (hdir : v₂.sdk.dirs (v₂.sdk.tmpPath path) = some t) (hshows : t.Shows files dirty)
    (hmem : last ∈ dirty) (hmax : ∀ i ∈ dirty, i ≤ last) (hlast : last < 2 ^ 31)
    (hd : d.Stores storage outcomes ((SDK.dirtyBlocks (v₂.sdk.dir path)).map (·.2)))
    (hduring : ∀ a ∈ during, a.Spares (simplifyPath path))
    (hput : ∀ filesize sub, ∃ entry l,
      v₂.leader.rpc (.putOk ⟨path, filesize, sub⟩) during = some (.ok entry, l)) :
    ∃ commit v₃, (SDK.close path (d.toDatanodes outcomes) during).run v₂ = some (.ok commit, v₃) ∧
      ClosedFile path storage (d.toDatanodes outcomes)
        (toUInt64 (toInt32 (SDK.writtenSize j last ((files last).getD []))))
        (blocksAfter blocks files dirty last) v₃ ∧
      v₃.sdk.tmpPath = v₂.sdk.tmpPath ∧
      (∃ t, v₃.sdk.dirs (v₂.sdk.tmpPath path) = some t ∧ t.Shows files ∅) ∧
      ∀ key, key ≠ v₂.sdk.tmpPath path → v₃.sdk.dirs key = v₂.sdk.dirs key := by
  obtain ⟨myIp, now, hleader⟩ := h.leader
  obtain ⟨remote, hlookup, hvalid, hagg, hstorage⟩ := h.remote
  have henc : ∀ i ∈ dirty, ∃ s,
      (d.toDatanodes outcomes).encode (some storage) ((files i).getD []) = .ok s ∧
        (d.toDatanodes outcomes).decode (some storage) s = .ok ((files i).getD []) := by
    intro i hi
    refine hd.encode_ok ?_
    rw [View.dir_eq hdir, hshows.dirtyBlocks, List.map_map]
    exact List.mem_map.mpr ⟨i, (Finset.mem_sort _).mpr hi, rfl⟩
  have hencodes : ∀ i ∈ dirty, ∃ s,
      (d.toDatanodes outcomes).encode j.storageType ((files i).getD []) = .ok s := by
    intro i hi
    obtain ⟨s, hs, -⟩ := henc i hi
    exact ⟨s, h.storageType ▸ hs⟩
  obtain ⟨entry, l, hrpc⟩ : ∃ entry l, v₂.leader.rpc (.putOk (SDK.fsyncRequest path
      (d.toDatanodes outcomes) j files dirty last)) during = some (.ok entry, l) := hput _ _
  obtain ⟨commit, t', hfsync, hshows'⟩ := SDK.fsync_run h.cache hdir hshows hmem hmax hlast hencodes
    hrpc
  obtain ⟨v₃, hclose, hafter, hprogress₃, htmp, hdirs, hlocks⟩ := SDK.close_of_fsync hfsync
  have hleader₃ : v₃.leader = l := hafter
  have hreach := Leader.reaches_of_rpc hrpc
  obtain ⟨hcommitted, hpending'⟩ := Leader.rpc_putOk_spared h.pending hduring hlookup hrpc
  have htmp' : v₃.sdk.tmpPath = v₂.sdk.tmpPath := htmp
  rw [← hleader₃] at hcommitted hpending' hreach
  refine ⟨_, v₃, hclose, ⟨h.named, ⟨myIp, now, hleader.trans hreach⟩, ?_, hpending', ?_, ?_⟩, htmp',
    ⟨t', ?_, hshows'⟩, ?_⟩
  · obtain ⟨records, happlied, -⟩ := Leader.applied_of_reaches hreach
    have hprogress : v₃.progress = v₂.progress := hprogress₃
    rw [hprogress, happlied, List.length_append]
    exact h.progress.trans (Nat.le_add_right _ _)
  · refine ⟨_, hcommitted, hvalid, hagg, hstorage, rfl, ?_⟩
    refine SDK.decodes_blocksAfter h.storageType h.decodes hmax henc hstorage ?_
    show SDK.setEntries (fun i ↦ (d.toDatanodes outcomes).entry j.storageType ((files i).getD []))
      _ _ = _
    rw [h.storageType]
  · intro lock hlock
    rw [hlocks] at hlock
    rw [htmp] at hlock
    exact PathLocks.unlock_writer hlock
  · rw [hdirs]
    exact View.dirs_setDir
  · intro key hkey
    rw [hdirs]
    exact update_of_ne hkey ..

end

namespace WriteSession

variable {path : Str} {storage : StorageType} {d : Shards} {outcomes : List Bool} {content : Str}
  {blocks : List Str} {j : Inode} {v₁ v₂ : View} {t : TmpDir} {files : Nat → Option Str}
  {dirty : Finset Nat} {last : Nat} {during : List Action}

theorem openedFile {nodes : Datanodes} (h : WriteSession path storage nodes content blocks j v₁) :
    OpenedFile path storage nodes blocks j v₁ where
  named := h.named
  leader := h.leader
  progress := h.progress
  pending := h.pending
  remote := ⟨j, h.lookup, h.contains.valid, h.contains.agg, h.contains.storageType⟩
  cache := h.cache
  storageType := h.contains.storageType
  decodes := h.contains.decodes

theorem close_run (h : WriteSession path storage (d.toDatanodes outcomes) content blocks j v₁)
    (hv : SDK.Within path (·.Shows files dirty) v₁ v₂) (hmem : last ∈ dirty)
    (hmax : ∀ i ∈ dirty, i ≤ last) (hlast : last < 2 ^ 31)
    (hd : d.Stores storage outcomes ((SDK.dirtyBlocks (v₂.sdk.dir path)).map (·.2)))
    (hduring : ∀ a ∈ during, a.Spares (simplifyPath path))
    (hput : ∀ filesize sub, ∃ entry l,
      v₁.leader.rpc (.putOk ⟨path, filesize, sub⟩) during = some (.ok entry, l)) :
    ∃ commit v₃, (SDK.close path (d.toDatanodes outcomes) during).run v₂ = some (.ok commit, v₃) ∧
      ClosedFile path storage (d.toDatanodes outcomes)
        (toUInt64 (toInt32 (SDK.writtenSize j last ((files last).getD []))))
        (blocksAfter blocks files dirty last) v₃ ∧
      v₃.sdk.tmpPath = v₂.sdk.tmpPath ∧
      (∃ t, v₃.sdk.dirs (v₂.sdk.tmpPath path) = some t ∧ t.Shows files ∅) ∧
      ∀ key, key ≠ v₂.sdk.tmpPath path → v₃.sdk.dirs key = v₂.sdk.dirs key := by
  obtain ⟨t, hdir, hshows⟩ := hv.own
  rw [← hv.leader] at hput
  exact (h.openedFile.within hv).close_run hdir hshows hmem hmax hlast hd hduring hput

/-- The blocks to upload after a write before which no block had to be fetched. -/
theorem dirtyBlocks_written {n offset : Nat} {s : Str} {nodes : Datanodes}
    (h : WriteSession path storage nodes content blocks j v₁)
    (hn : toUInt64 storage.getBlockSize = n) (hsum : offset + s.length < 2 ^ 31)
    (hfirst : ¬ (offset < content.length ∧ offset % n ≠ 0))
    (hend : ¬ (offset + s.length < content.length ∧ offset / n ≠ (offset + s.length) / n ∧
      (offset + s.length) % n ≠ 0))
    (hwrite : (SDK.writeData path offset s nodes).run v₁ = some (.ok (), v₂)) :
    SDK.dirtyBlocks (v₂.sdk.dir path) =
      ((Finset.Icc (offset / n) ((offset + s.length) / n)).sort (· ≤ ·)).map fun i ↦
        (i, SDK.dataPart n offset s i) := by
  obtain ⟨hsize, hpos⟩ := h.contains.blockSize_eq
  rw [hn] at hsize hpos
  rw [← h.contains.filesize] at hfirst hend
  obtain ⟨t, hdir, hshows⟩ := h.own
  obtain ⟨t', hrun, hshows'⟩ := SDK.writeData_run nodes h.cache hsize hpos hsum hfirst hend hdir hshows
  rw [hwrite] at hrun
  obtain ⟨-, rfl⟩ := Prod.mk.inj (Option.some.inj hrun)
  rw [View.dir_setDir, hshows'.dirtyBlocks, Finset.empty_union]
  refine List.map_congr_left fun i hi ↦ ?_
  rw [SDK.appended, if_pos ((Finset.mem_sort _).mp hi)]
  rfl

/-- What was written is closed, when no block had to be fetched before. -/
theorem rewrite_run {n offset : Nat} {s : Str}
    (h : WriteSession path storage (d.toDatanodes outcomes) content blocks j v₁)
    (hn : toUInt64 storage.getBlockSize = n) (hsum : offset + s.length < 2 ^ 31)
    (hfirst : ¬ (offset < content.length ∧ offset % n ≠ 0))
    (hend : ¬ (offset + s.length < content.length ∧ offset / n ≠ (offset + s.length) / n ∧
      (offset + s.length) % n ≠ 0))
    (hd : ∀ v₂, (SDK.writeData path offset s (d.toDatanodes outcomes)).run v₁ = some (.ok (), v₂) →
      d.Stores storage outcomes ((SDK.dirtyBlocks (v₂.sdk.dir path)).map (·.2)))
    (hduring : ∀ a ∈ during, a.Spares (simplifyPath path))
    (hput : ∀ filesize sub, ∃ entry l,
      v₁.leader.rpc (.putOk ⟨path, filesize, sub⟩) during = some (.ok entry, l)) :
    ∃ v₂ commit v₃,
      (SDK.writeData path offset s (d.toDatanodes outcomes)).run v₁ = some (.ok (), v₂) ∧
      (SDK.close path (d.toDatanodes outcomes) during).run v₂ = some (.ok commit, v₃) ∧
      ClosedFile path storage (d.toDatanodes outcomes)
        (toUInt64 (toInt32 (SDK.writtenSize j ((offset + s.length) / n)
          (SDK.dataPart n offset s ((offset + s.length) / n)))))
        (writtenOver n offset s blocks) v₃ ∧
      v₃.sdk.tmpPath = v₁.sdk.tmpPath ∧
      (∀ t, v₃.sdk.dirs (v₃.sdk.tmpPath (simplifyPath path)) = some t →
        t.Holds (writtenOver n offset s blocks)) ∧
      ∀ key, key ≠ v₁.sdk.tmpPath path → v₃.sdk.dirs key = v₁.sdk.dirs key := by
  have hc := h.contains
  obtain ⟨hsize, hpos⟩ := hc.blockSize_eq
  rw [hn] at hsize hpos
  rw [← hc.filesize] at hfirst hend
  have horder : offset / n ≤ (offset + s.length) / n := Nat.div_le_div_right (Nat.le_add_right _ _)
  obtain ⟨t, hdir, hshows⟩ := h.own
  obtain ⟨t', hwrite, hshows'⟩ := SDK.writeData_run (d.toDatanodes outcomes) h.cache hsize hpos hsum
    hfirst hend hdir hshows
  rw [Finset.empty_union] at hshows'
  have hmem := Finset.right_mem_Icc.mpr horder
  have hmax : ∀ i ∈ Finset.Icc (offset / n) ((offset + s.length) / n),
      i ≤ (offset + s.length) / n := fun i hi ↦ (Finset.mem_Icc.mp hi).2
  have hlast : (offset + s.length) / n < 2 ^ 31 := (Nat.div_le_self _ _).trans_lt hsum
  have hwithin : SDK.Within path (·.Shows _ _) v₁ (v₁.setDir path t') :=
    ⟨rfl, rfl, rfl, rfl, t', View.dirs_setDir, hshows'⟩
  obtain ⟨commit, v₃, hclose, hclosed, htmp, ⟨t₃, hown, hshows₃⟩, hothers⟩ :=
    h.close_run hwithin hmem hmax hlast (hd _ hwrite) hduring hput
  have hblocks : ∀ i ∈ Finset.Icc (offset / n) ((offset + s.length) / n),
      SDK.appended n offset s (fun _ ↦ none)
        (Finset.Icc (offset / n) ((offset + s.length) / n)) i = some (SDK.dataPart n offset s i) :=
    fun i hi ↦ if_pos hi
  rw [hblocks _ hmem, Option.getD_some, blocksAfter_congr _ hblocks, ← writtenOver] at hclosed
  refine ⟨_, commit, v₃, hwrite, hclose, hclosed, htmp, fun t ht ↦ ?_, fun key hkey ↦ ?_⟩
  · rw [htmp, View.tmpPath_setDir] at ht
    rw [View.tmpPath_setDir] at hown
    by_cases hsame : v₁.sdk.tmpPath (simplifyPath path) = v₁.sdk.tmpPath path
    · rw [hsame, hown] at ht
      obtain rfl := Option.some.inj ht
      refine hshows₃.holds fun i c hi ↦ .inr fun block hblock ↦ ?_
      by_cases hin : i ∈ Finset.Icc (offset / n) ((offset + s.length) / n)
      · rw [writtenOver, getElem?_blocksAfter hmax hin] at hblock
        rw [hblocks i hin] at hi
        rw [← Option.some.inj hblock, ← Option.some.inj hi, Option.getD_some]
      · rw [SDK.appended, if_neg hin] at hi
        cases hi
    · rw [hothers _ hsame] at ht
      exact .of_files_nil (h.other hsame t ((update_of_ne hsame ..).symm.trans ht))
  · rw [hothers key hkey]
    exact update_of_ne hkey ..

end WriteSession

/-- The data is written at the offset, and the file is closed and read again as the content. -/
def RewrittenAs (content path : Str) (offset : Nat) (s : Str) (nodes : Datanodes)
    (during : List Action) (v : View) : Prop :=
  ∃ v₂ commit v₃, (SDK.writeData path offset s nodes).run v = some (.ok (), v₂) ∧
    (SDK.close path nodes during).run v₂ = some (.ok commit, v₃) ∧ RereadAs content path nodes v₃

end Spkdfs
