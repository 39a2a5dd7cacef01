import Spkdfs.Client.Members

namespace Spkdfs

open Library Procedure Function

namespace Shards

/-- The shards of a block that arrive, in order. -/
def arrivals (d : Shards) (s : Str) : List Str :=
  (decodeOneSub s).filterMap (arrived d.sha256sum d.fetch)

/-- As many shards arrive as the code needs, and from the first ones it has the block. -/
def Recovers (d : Shards) (storage : StorageType) (block s : Str) : Prop :=
  0 < storage.getDecodeBlocks ∧ storage.getDecodeBlocks ≤ (d.arrivals s).length ∧
    storage.decode d.code ((d.arrivals s).take storage.getDecodeBlocks) = .ok block

/-- What may come back of a block: its shards, or nothing. From as many of them as it needs, the
code has the block or throws. -/
def Recorded (d : Shards) (storage : StorageType) (block s : Str) : Prop :=
  ∃ shards, storage.encode d.code block = .ok shards ∧ d.Records shards s ∧
    (∀ shard ∈ shards, ∀ node data, d.fetch node (d.sha256sum shard) = .ok data →
      d.sha256sum data = d.sha256sum shard → data = shard) ∧
    ∀ vec, vec.Sublist shards → vec.length = storage.getDecodeBlocks →
      storage.decode d.code vec = .ok block ∨
        ∃ f, f ≠ .assertion ∧ storage.decode d.code vec = .error f

variable {d : Shards} {storage : StorageType} {block s : Str} {shards : List Str}

theorem getFromDatanode_ok {sha256sum : Str → Str} {fetch : Str → Str → Except Fault Str}
    {node blkid data : Str} (h : getFromDatanode sha256sum fetch node blkid = .ok data) :
    fetch node blkid = .ok data ∧ sha256sum data = blkid := by
  rw [getFromDatanode] at h
  obtain ⟨res, hres, h⟩ := bind_eq_ok.mp h
  split at h
  · cases h
  · rename_i hsum
    obtain rfl := Except.ok.inj h
    exact ⟨hres, not_not.mp hsum⟩

theorem arrived_sublist {pairs : List (Str × Str)}
    (hshards : pairs.map (·.2) = shards.map d.sha256sum)
    (htrue : ∀ shard ∈ shards, ∀ node data, d.fetch node (d.sha256sum shard) = .ok data →
      d.sha256sum data = d.sha256sum shard → data = shard) :
    (pairs.filterMap (arrived d.sha256sum d.fetch)).Sublist shards := by
  induction shards generalizing pairs with
  | nil =>
    rw [List.map_nil, List.map_eq_nil_iff] at hshards
    rw [hshards, List.filterMap_nil]
  | cons shard shards ih =>
    obtain ⟨⟨node, hash⟩, rest, rfl, hpair, hrest⟩ := List.map_eq_cons_iff.mp hshards
    obtain rfl : hash = d.sha256sum shard := hpair
    have hsub := ih hrest fun other ho ↦ htrue other (List.mem_cons_of_mem _ ho)
    cases hget : getFromDatanode d.sha256sum d.fetch node (d.sha256sum shard) with
    | error fault =>
      have hnone : arrived d.sha256sum d.fetch (node, d.sha256sum shard) = none := by
        rw [arrived, hget]
        rfl
      rw [List.filterMap_cons_none hnone]
      exact hsub.cons shard
    | ok data =>
      obtain ⟨hfetch, hsum⟩ := getFromDatanode_ok hget
      obtain rfl := htrue shard List.mem_cons_self node data hfetch hsum
      have hsome : arrived d.sha256sum d.fetch (node, d.sha256sum data) = some data := by
        rw [arrived, hget]
        rfl
      rw [List.filterMap_cons_some hsome]
      exact hsub.cons_cons data

/-- `decode_one_block`, by the shards that arrive. -/
theorem decodeOneBlock_eq (d : Shards) (storage : StorageType) (s : Str) :
    decodeOneBlock d.sha256sum storage d.code d.fetch s =
      if storage.getDecodeBlocks = 0 then if d.arrivals s = [] then some [] else none
      else if (d.arrivals s).length < storage.getDecodeBlocks then some []
      else
        match storage.decode d.code ((d.arrivals s).take storage.getDecodeBlocks) with
        | .ok block => some block
        | .error .assertion => none
        | .error _ =>
          if (d.arrivals s).length = storage.getDecodeBlocks then some [] else none := by
  by_cases hzero : storage.getDecodeBlocks = 0
  · have hfull : downloadShards d.sha256sum storage d.code d.fetch (decodeOneSub s)
        ([] : List Str).length [] = if d.arrivals s = [] then some [] else none :=
      downloadShards_full
    rw [if_pos hzero, decodeOneBlock, hzero, List.replicate_zero, ← hfull]
    rfl
  · rw [if_neg hzero]
    exact downloadShards_run [] rfl (Nat.pos_of_ne_zero hzero)

section

variable (h : d.Recorded storage block s)

include h

/-- What the decoder makes of the first shards that arrive. -/
theorem Recorded.decode (henough : storage.getDecodeBlocks ≤ (d.arrivals s).length) :
    storage.decode d.code ((d.arrivals s).take storage.getDecodeBlocks) = .ok block ∨
      ∃ f, f ≠ .assertion ∧
        storage.decode d.code ((d.arrivals s).take storage.getDecodeBlocks) = .error f := by
  obtain ⟨shards, -, hrecords, htrue, hdecode⟩ := h
  have hsub := arrived_sublist hrecords.1 htrue
  exact hdecode _ ((List.take_sublist _ _).trans hsub) (List.length_take_of_le henough)

/-- A block that is not recovered is taken for an empty one, or a shard is written behind the end of
the array. -/
theorem Recorded.decodeOneBlock_cases :
    decodeOneBlock d.sha256sum storage d.code d.fetch s = some block ∧
        d.Recovers storage block s ∨
      decodeOneBlock d.sha256sum storage d.code d.fetch s = some [] ∧
        ¬ d.Recovers storage block s ∧ (d.arrivals s).length ≤ storage.getDecodeBlocks ∨
      decodeOneBlock d.sha256sum storage d.code d.fetch s = none ∧
        ¬ d.Recovers storage block s ∧ storage.getDecodeBlocks < (d.arrivals s).length := by
  have hrun := decodeOneBlock_eq d storage s
  by_cases hzero : storage.getDecodeBlocks = 0
  · have hnot : ¬ d.Recovers storage block s := fun hr ↦ hr.1.ne' hzero
    rw [if_pos hzero] at hrun
    by_cases hempty : d.arrivals s = []
    · rw [if_pos hempty] at hrun
      exact .inr (.inl ⟨hrun, hnot, by rw [hempty]; exact Nat.zero_le _⟩)
    · rw [if_neg hempty] at hrun
      exact .inr (.inr ⟨hrun, hnot, by rw [hzero]; exact List.length_pos_of_ne_nil hempty⟩)
  rw [if_neg hzero] at hrun
  by_cases hfew : (d.arrivals s).length < storage.getDecodeBlocks
  · rw [if_pos hfew] at hrun
    exact .inr (.inl ⟨hrun, fun hr ↦ (Nat.not_le.mpr hfew) hr.2.1, hfew.le⟩)
  rw [if_neg hfew] at hrun
  obtain hok | ⟨f, hf, herror⟩ := h.decode (Nat.le_of_not_lt hfew)
  · rw [hok] at hrun
    exact .inl ⟨hrun, Nat.pos_of_ne_zero hzero, Nat.le_of_not_lt hfew, hok⟩
  · have hnot : ¬ d.Recovers storage block s := by
      intro hr
      rw [hr.2.2] at herror
      cases herror
    have hfail : decodeOneBlock d.sha256sum storage d.code d.fetch s =
        if (d.arrivals s).length = storage.getDecodeBlocks then some [] else none := by
      rw [hrun, herror]
      cases f <;> first | rfl | exact absurd rfl hf
    by_cases hlast : (d.arrivals s).length = storage.getDecodeBlocks
    · exact .inr (.inl ⟨hfail.trans (if_pos hlast), hnot, hlast.le⟩)
    · exact .inr (.inr ⟨hfail.trans (if_neg hlast), hnot, by omega⟩)

theorem Recorded.decodeOneBlock_eq_none :
    decodeOneBlock d.sha256sum storage d.code d.fetch s = none ↔
      ¬ d.Recovers storage block s ∧ storage.getDecodeBlocks < (d.arrivals s).length := by
  obtain ⟨hrun, hr⟩ | ⟨hrun, -, hfew⟩ | ⟨hrun, hnot, hmore⟩ := h.decodeOneBlock_cases
  · rw [hrun]
    exact ⟨fun hnone ↦ (by cases hnone), fun hnone ↦ absurd hr hnone.1⟩
  · rw [hrun]
    exact ⟨fun hnone ↦ (by cases hnone), fun hnone ↦ absurd hnone.2 (Nat.not_lt.mpr hfew)⟩
  · exact ⟨fun _ ↦ ⟨hnot, hmore⟩, fun _ ↦ hrun⟩

theorem Recorded.decodeOneBlock_eq_some :
    decodeOneBlock d.sha256sum storage d.code d.fetch s = some block ↔
      d.Recovers storage block s ∨
        block = [] ∧ (d.arrivals s).length ≤ storage.getDecodeBlocks := by
  obtain ⟨hrun, hr⟩ | ⟨hrun, hnot, hfew⟩ | ⟨hrun, hnot, hmore⟩ := h.decodeOneBlock_cases
  · exact ⟨fun _ ↦ .inl hr, fun _ ↦ hrun⟩
  · rw [hrun]
    exact ⟨fun hsome ↦ .inr ⟨(Option.some.inj hsome).symm, hfew⟩,
      fun hcond ↦ by rw [(hcond.resolve_left hnot).1]⟩
  · rw [hrun]
    exact ⟨fun hsome ↦ (by cases hsome),
      fun hcond ↦ absurd (hcond.resolve_left hnot).2 (Nat.not_le.mpr hmore)⟩

end

theorem decode_eq_ok :
    d.decode (some storage) s = .ok block ↔
      decodeOneBlock d.sha256sum storage d.code d.fetch s = some block := by
  rw [decode, Option.bind_some]
  cases decodeOneBlock d.sha256sum storage d.code d.fetch s with
  | none => exact ⟨fun h ↦ (by cases h), fun h ↦ (by cases h)⟩
  | some other =>
    exact ⟨fun h ↦ congrArg some (Except.ok.inj h), fun h ↦ congrArg Except.ok (Option.some.inj h)⟩

end Shards

def Throws {α : Type} (r : Option (Except Fault α × View)) : Prop :=
  ∃ f w, f ≠ .assertion ∧ r = some (.error f, w)

theorem throws_runtime {α : Type} {r : Option (Except Fault α × View)} {what : Str} {w : View}
    (h : r = some (.error (.runtime what), w)) : Throws r := ⟨.runtime what, w, by simp, h⟩

/-- `read_data` throws, or gives the part of the content back. -/
def Reads (path : Str) (nodes : Datanodes) (content : Str) (v : View) (offset size : Nat) : Prop :=
  Throws ((SDK.readData path offset size nodes).run v) ∨
    ∃ w, (SDK.readData path offset size nodes).run v =
      some (.ok ((content.drop offset).take size), w)

/-- The array of shards is kept to, and `get` and `read_data` throw or give the content back; `get`
then has each block of `blocks` from its sub. -/
structure NoSilentCorruption (path : Str) (storage : StorageType) (d : Shards) (content : Str)
    (blocks subs : List Str) (j : Inode) (v : View) : Prop where
  inside : ∀ s ∈ subs ++ j.sub, decodeOneBlock d.sha256sum storage d.code d.fetch s ≠ none
  get : Throws ((SDK.get path v.leader.applied.length (d.toDatanodes [])).run v) ∨
    (∃ w, (SDK.get path v.leader.applied.length (d.toDatanodes [])).run v =
      some (.ok content, w)) ∧
    List.Forall₂ (fun block s ↦ d.decode (some storage) s = .ok block) blocks subs
  read : ∀ offset size, offset + size < 2 ^ 64 →
    Reads path (d.toDatanodes []) content v offset size

/-- A valid file, in a state that the leader can reach, which the client has open. -/
structure OpenFile (path : Str) (storage : StorageType) (j : Inode) (v : View) : Prop where
  named : path ≠ []
  leader : ∃ myIp now, Reaches Leader.step (fun _ _ ↦ True) (.start myIp now) v.leader
  progress : v.progress ≤ v.leader.applied.length
  lookup : RocksDB.lookup v.leader.store (simplifyPath path) = some j
  valid : j.valid = true
  storageType : j.storageType = some storage
  blockSize : 0 < storage.getBlockSize
  opened : ∃ deadline, v.sdk.cache path = some { j with ddlLock := deadline }

/-- The blocks of the file are its own. -/
structure PlainFile (path : Str) (storage : StorageType) (d : Shards) (content : Str)
    (blocks : List Str) (j : Inode) (v : View) : Prop extends OpenFile path storage j v where
  agg : j.aggInodeId = []
  subs : List.Forall₂ (d.Recorded storage) blocks j.sub
  aligned : Aligned (toUInt64 storage.getBlockSize) blocks
  begins : content <+: blocks.flatten
  filesize : j.filesize = content.length
  files : ∀ t, v.sdk.dirs (v.sdk.tmpPath (simplifyPath path)) = some t → t.Holds blocks

/-- The file is a range of an aggregate. No hash of a shard can be mistaken for the end of a range. -/
structure AggregatedFile (path : Str) (storage : StorageType) (d : Shards) (data res : Str)
    (first : Nat) (j : Inode) (v : View) : Prop extends OpenFile path storage j v where
  agg : j.aggInodeId ≠ []
  aggregate : d.Recorded storage data res
  pairs : ∃ pairs, pairs ≠ [] ∧ (∀ pair ∈ pairs, Recordable pair) ∧
    res = [','].intercalate (pairs.map oneSub)
  hash : ∀ s n, n < 2 ^ 31 → d.sha256sum s ≠ toText n
  sub : j.sub = [res ++ ',' :: (toText first ++ '|' :: toText (first + j.filesize))]
  within : first + j.filesize ≤ data.length
  small : first + j.filesize < 2 ^ 31
  files : ∀ t, v.sdk.dirs (v.sdk.tmpPath (simplifyPath path)) = some t → t.Holds [data]

/-- It is enough to look at the ranges in the file. -/
theorem reads_iff {path content : Str} {nodes : Datanodes} {inode : Inode} {v : View}
    (hc : v.sdk.cache path = some inode) (hsize : inode.filesize = content.length)
    (hsmall : content.length < 2 ^ 64) :
    (∀ offset size, offset + size < 2 ^ 64 → Reads path nodes content v offset size) ↔
      ∀ offset size, offset + size ≤ content.length → Reads path nodes content v offset size := by
  refine ⟨fun hread offset size hin ↦ hread offset size (by omega), fun hread offset size hsum ↦ ?_⟩
  by_cases hbeyond : content.length < offset
  · refine .inr ⟨v, ?_⟩
    rw [SDK.readData_behind size hc (hsize ▸ hbeyond), List.drop_eq_nil_of_le hbeyond.le,
      List.take_nil]
  · obtain ⟨part, hin, htake, hpart⟩ :=
      SDK.readData_part nodes size hc hsize (Nat.le_of_not_lt hbeyond) hsum
    rw [Reads, htake, hpart]
    exact hread offset part hin

namespace OpenFile

variable {path : Str} {storage : StorageType} {j : Inode} {v : View}

theorem blockSize_eq (h : OpenFile path storage j v) :
    j.getBlockSize = (toUInt64 storage.getBlockSize : Nat) ∧ 0 < toUInt64 storage.getBlockSize := by
  rw [Inode.getBlockSize, h.storageType]
  exact StorageType.blockSize_eq h.blockSize

theorem fullpath (h : OpenFile path storage j v) : j.fullpath.str = simplifyPath path :=
  RocksDB.fullpath_of_lookup h.lookup

end OpenFile

namespace SDK

/-- From 2 GiB on, the end of the range is a negative index. -/
theorem readData_huge {inode : Inode} (nodes : Datanodes) {v : View} {path : Str} {n : Nat}
    (hc : v.sdk.cache path = some inode) (hn : inode.getBlockSize = n) (hpos : 0 < n)
    (hlt : n < 2 ^ 31) (hsize : 2 ^ 31 ≤ inode.filesize) :
    (readData path 0 (2 ^ 31) nodes).run v = none := by
  have hget : (getInode path).run v = some (.ok inode, v) := getInode_ok.mpr ⟨hc, rfl⟩
  have hblockSize : inode.getBlockSize ≠ 0 := by omega
  have hfirst : toInt32 ((0 : Nat) : Int) = 0 := by decide
  have hlast : toInt32 ((0 + 2 ^ 31 : Nat) : Int) = -2 ^ 31 := by decide
  have hindexs : getIndexs inode 0 (2 ^ 31) = (0, (-2 ^ 31 : Int).tdiv n + 1) := by
    rw [getIndexs, alignIndexDown, alignIndexUp, hfirst, hlast, hn, Int.zero_tdiv]
  have hback : (-2 ^ 31 : Int).tdiv n ≤ -1 := by
    have hone : 1 ≤ 2 ^ 31 / n := (Nat.one_le_div_iff hpos).mpr hlt.le
    have hcast : (-2 ^ 31 : Int).tdiv n = -((2 ^ 31 / n : Nat) : Int) := by
      rw [Int.neg_tdiv, Int.natCast_ediv, Int.tdiv_eq_ediv_of_nonneg (by decide)]
      rfl
    rw [hcast]
    omega
  have hcount : ((-2 ^ 31 : Int).tdiv n + 1 - 0).toNat = 0 := by omega
  have hsum : ¬ inode.filesize < (0 + 2 ^ 31) % 2 ^ 64 := by omega
  rw [readData, run_bind_ok hget, if_neg (Nat.not_lt_zero _), if_neg hblockSize]
  simp only [if_neg hsum, hindexs, readIndexs, hcount, List.range_zero, List.map_nil]
  have hnothing : (readBlocks inode nodes ((-2 ^ 31 : Int).tdiv n + 1) []).run v =
      some (.ok [], v) := rfl
  rw [run_bind_ok hnothing, if_pos (by rw [List.length_nil]; omega)]
  rfl

end SDK

namespace PlainFile

variable {path : Str} {storage : StorageType} {d : Shards} {content : Str} {blocks : List Str}
  {j : Inode} {v : View} {offset size : Nat}

theorem recovers_iff (h : PlainFile path storage d content blocks j v) :
    List.Forall₂ (fun block s ↦ d.decode (some storage) s = .ok block) blocks j.sub ↔
      List.Forall₂ (fun block s ↦ d.Recovers storage block s ∨
        block = [] ∧ (d.arrivals s).length ≤ storage.getDecodeBlocks) blocks j.sub := by
  constructor
  · refine fun hdecode ↦ h.subs.mp (fun block s hrecorded hok ↦ ?_) hdecode
    exact hrecorded.decodeOneBlock_eq_some.mp (Shards.decode_eq_ok.mp hok)
  · refine fun hall ↦ h.subs.mp (fun block s hrecorded hcond ↦ ?_) hall
    exact Shards.decode_eq_ok.mpr (hrecorded.decodeOneBlock_eq_some.mpr hcond)

theorem get_run (h : PlainFile path storage d content blocks j v) {blocks' : List Str}
    (hd : List.Forall₂ (fun block s ↦ d.decode (some storage) s = .ok block) blocks' j.sub) :
    ∃ w, (SDK.get path v.leader.applied.length (d.toDatanodes [])).run v =
      some (.ok (resizeFile blocks'.flatten j.filesize), w) := by
  obtain ⟨myIp, now, hleader⟩ := h.leader
  have hdecodes : SDK.Decodes (d.toDatanodes []) j blocks' := by
    rw [SDK.Decodes, h.storageType]
    exact hd
  exact ⟨_, SDK.get_plain h.named hleader h.progress h.lookup h.valid (by simp [h.storageType]) h.agg
    hdecodes⟩

/-- `get` returns whatever happens to the shards, as long as the array is kept to. -/
theorem get_returns (h : PlainFile path storage d content blocks j v)
    (hinside : ∀ s ∈ j.sub, decodeOneBlock d.sha256sum storage d.code d.fetch s ≠ none) :
    ∃ written w, (SDK.get path v.leader.applied.length (d.toDatanodes [])).run v =
      some (.ok written, w) := by
  have hd : List.Forall₂ (fun block s ↦ d.decode (some storage) s = .ok block)
      (j.sub.map fun s ↦ (decodeOneBlock d.sha256sum storage d.code d.fetch s).getD []) j.sub := by
    rw [List.forall₂_map_left_iff, List.forall₂_same]
    intro s hs
    obtain ⟨block, hblock⟩ := Option.ne_none_iff_exists'.mp (hinside s hs)
    rw [hblock]
    exact Shards.decode_eq_ok.mpr hblock
  obtain ⟨w, hrun⟩ := h.get_run hd
  exact ⟨_, w, hrun⟩

theorem read (h : PlainFile path storage d content blocks j v) (hsmall : content.length < 2 ^ 31)
    (hd : List.Forall₂ (fun block s ↦ d.decode (some storage) s = .ok block) blocks j.sub)
    (hsum : offset + size < 2 ^ 64) : Reads path (d.toDatanodes []) content v offset size := by
  obtain ⟨deadline, hc⟩ := h.opened
  obtain ⟨hn, hpos⟩ := h.blockSize_eq
  have hpath := h.fullpath
  cases hdir : v.sdk.dirs (v.sdk.tmpPath (simplifyPath path)) with
  | some t =>
    have hdecodes : SDK.Decodes (d.toDatanodes []) { j with ddlLock := deadline } blocks := by
      rw [SDK.Decodes]
      simp only [h.storageType]
      exact hd
    have hfiles : SDK.BlockFiles j.fullpath.str blocks v := by
      rw [hpath]
      exact ⟨t, hdir, h.files t hdir⟩
    exact .inr (SDK.readData_run hc hdecodes hfiles hn hpos h.aligned h.begins h.filesize hsmall hsum)
  | none =>
    refine (reads_iff hc h.filesize (by omega)).mpr (fun offset part hin ↦ ?_) offset size hsum
    have hwithin : offset + part ≤ j.filesize := h.filesize ▸ hin
    rw [← hpath] at hdir
    have hrun := SDK.readData_nodir (d.toDatanodes []) hc hn hpos hwithin (by omega) hdir
    by_cases hbehind : offset / toUInt64 storage.getBlockSize < j.sub.length
    · rw [if_pos hbehind] at hrun
      exact .inl (throws_runtime hrun)
    · -- no block, so no byte either
      have htotal := h.begins.length_le.trans h.aligned.total
      have hlength := h.subs.length_eq
      have hlast : content.length ≤ offset := by
        refine htotal.trans ((Nat.mul_le_mul_right _ ?_).trans (Nat.div_mul_le_self offset _))
        omega
      obtain rfl : part = 0 := by omega
      rw [if_neg hbehind] at hrun
      exact .inr ⟨v, hrun⟩

/-- Nothing is corrupted silently if each block is recovered; an empty one may also be missing. -/
theorem noSilentCorruption_iff (h : PlainFile path storage d content blocks j v) :
    NoSilentCorruption path storage d content blocks j.sub j v ↔
      content.length < 2 ^ 31 ∧
        List.Forall₂ (fun block s ↦ d.Recovers storage block s ∨
          block = [] ∧ (d.arrivals s).length ≤ storage.getDecodeBlocks) blocks j.sub := by
  rw [← h.recovers_iff]
  constructor
  · intro hsafe
    have hinside : ∀ s ∈ j.sub, decodeOneBlock d.sha256sum storage d.code d.fetch s ≠ none :=
      fun s hs ↦ hsafe.inside s (List.mem_append_right _ hs)
    refine ⟨?_, ?_⟩
    · by_contra hhuge
      obtain ⟨deadline, hc⟩ := h.opened
      obtain ⟨hn, hpos⟩ := h.blockSize_eq
      have hlt : toUInt64 storage.getBlockSize < 2 ^ 31 := by
        have hbound := storage.getBlockSize_lt
        obtain ⟨heq, -⟩ := StorageType.blockSize_eq h.blockSize
        omega
      have hstuck := SDK.readData_huge (d.toDatanodes []) hc hn hpos hlt
        (by have := h.filesize; show 2 ^ 31 ≤ j.filesize; omega)
      obtain ⟨f, w, -, hrun⟩ | ⟨w, hrun⟩ := hsafe.read 0 (2 ^ 31) (by decide)
      · rw [hstuck] at hrun
        cases hrun
      · rw [hstuck] at hrun
        cases hrun
    · obtain ⟨written, w, hrun⟩ := h.get_returns hinside
      obtain ⟨f, w', -, hthrow⟩ | ⟨-, hblocks⟩ := hsafe.get
      · rw [hrun] at hthrow
        cases hthrow
      · exact hblocks
  · rintro ⟨hsmall, hd⟩
    refine ⟨fun s hs ↦ ?_, .inr ⟨?_, hd⟩, fun offset size ↦ h.read hsmall hd⟩
    · obtain ⟨block, -, hok⟩ := forall₂_mem_right hd (by simpa using hs)
      rw [Shards.decode_eq_ok.mp hok]
      exact Option.some_ne_none _
    · have hget := h.get_run hd
      rw [h.filesize, resizeFile_eq_content h.begins] at hget
      exact hget

end PlainFile

/-- The block file of the aggregate is there. -/
def Cached (path : Str) (v : View) : Prop :=
  ((v.sdk.dir (simplifyPath path)).read 0).any (· ≠ []) = true

namespace AggregatedFile

variable {path : Str} {storage : StorageType} {d : Shards} {data res : Str} {first : Nat}
  {j : Inode} {v : View} {offset size : Nat}

/-- The range brings no shard. -/
theorem arrivals_sub (h : AggregatedFile path storage d data res first j v) {s : Str}
    (hs : s ∈ [res] ++ j.sub) : d.arrivals s = d.arrivals res := by
  rw [h.sub] at hs
  simp only [List.mem_append, List.mem_singleton] at hs
  obtain rfl | rfl := hs
  · rfl
  obtain ⟨pairs, hne, hpairs, hres⟩ := h.pairs
  have hnone : arrived d.sha256sum d.fetch (toText first, toText (first + j.filesize)) = none := by
    rw [arrived]
    cases hget : getFromDatanode d.sha256sum d.fetch (toText first)
      (toText (first + j.filesize)) with
    | error fault => rfl
    | ok answer => exact absurd (Shards.getFromDatanode_ok hget).2 (h.hash answer _ h.small)
  rw [Shards.arrivals, Shards.arrivals, hres, decodeOneSub_range hne hpairs,
    decodeOneSub_intercalate hne hpairs, List.filterMap_append, List.filterMap_cons_none hnone,
    List.filterMap_nil, List.append_nil]

theorem decodeOneBlock_sub (h : AggregatedFile path storage d data res first j v) {s : Str}
    (hs : s ∈ [res] ++ j.sub) :
    decodeOneBlock d.sha256sum storage d.code d.fetch s =
      decodeOneBlock d.sha256sum storage d.code d.fetch res := by
  rw [Shards.decodeOneBlock_eq, Shards.decodeOneBlock_eq, h.arrivals_sub hs]

/-- What `decode_one_block` makes of the aggregate, with the range or without it. -/
theorem inside_iff (h : AggregatedFile path storage d data res first j v) :
    (∀ s ∈ [res] ++ j.sub, decodeOneBlock d.sha256sum storage d.code d.fetch s ≠ none) ↔
      d.Recovers storage data res ∨ (d.arrivals res).length ≤ storage.getDecodeBlocks := by
  have hres : res ∈ [res] ++ j.sub := List.mem_append_left _ (List.mem_singleton.mpr rfl)
  have hnone := h.aggregate.decodeOneBlock_eq_none
  constructor
  · intro hinside
    have hsome := hinside res hres
    rw [Ne, hnone, not_and_or, not_not, Nat.not_lt] at hsome
    exact hsome
  · intro hcond s hs
    rw [h.decodeOneBlock_sub hs, Ne, hnone, not_and_or, not_not, Nat.not_lt]
    exact hcond

theorem decode_cases (h : AggregatedFile path storage d data res first j v)
    (hinside : d.Recovers storage data res ∨
      (d.arrivals res).length ≤ storage.getDecodeBlocks) :
    ∃ block, (∀ s ∈ [res] ++ j.sub, d.decode (some storage) s = .ok block) ∧
      (d.Recovers storage data res ∧ block = data ∨
        ¬ d.Recovers storage data res ∧ block = []) := by
  obtain ⟨hrun, hr⟩ | ⟨hrun, hnot, -⟩ | ⟨-, hnot, hmore⟩ := h.aggregate.decodeOneBlock_cases
  · refine ⟨data, fun s hs ↦ Shards.decode_eq_ok.mpr ?_, .inl ⟨hr, rfl⟩⟩
    rw [h.decodeOneBlock_sub hs, hrun]
  · refine ⟨[], fun s hs ↦ Shards.decode_eq_ok.mpr ?_, .inr ⟨hnot, rfl⟩⟩
    rw [h.decodeOneBlock_sub hs, hrun]
  · exact absurd (hinside.resolve_left hnot) (Nat.not_le.mpr hmore)

theorem length (h : AggregatedFile path storage d data res first j v) :
    (SDK.memberContent data first j.filesize).length = j.filesize := by
  have hwithin := h.within
  rw [SDK.memberContent, List.length_take, List.length_drop]
  omega

/-- The check of the range tells `get` that the aggregate is missing. -/
theorem get (h : AggregatedFile path storage d data res first j v)
    (hinside : d.Recovers storage data res ∨
      (d.arrivals res).length ≤ storage.getDecodeBlocks) :
    Throws ((SDK.get path v.leader.applied.length (d.toDatanodes [])).run v) ∨
      (∃ w, (SDK.get path v.leader.applied.length (d.toDatanodes [])).run v =
        some (.ok (SDK.memberContent data first j.filesize), w)) ∧
      List.Forall₂ (fun block s ↦ d.decode (some storage) s = .ok block) [data] [res] := by
  obtain ⟨myIp, now, hleader⟩ := h.leader
  obtain ⟨block, hdecode, hblock⟩ := h.decode_cases hinside
  have hres := hdecode res (List.mem_append_left _ (List.mem_singleton.mpr rfl))
  have hstorage : j.storageType ≠ none := by simp [h.storageType]
  have hdecoded : (d.toDatanodes []).decode j.storageType res = .ok block := by
    rw [h.storageType]
    exact hres
  have hget := SDK.get_aggregated (d.toDatanodes []) h.named hleader h.progress h.lookup h.valid
    hstorage h.agg
  rw [SDK.getAggregated_eq h.sub h.small hdecoded] at hget
  by_cases hbad : block.length < first + j.filesize ∨ j.filesize = 0
  · rw [if_pos hbad] at hget
    exact .inl (throws_runtime hget)
  · obtain ⟨-, rfl⟩ | ⟨-, rfl⟩ := hblock
    · have hmember : SDK.Member (d.toDatanodes []) block res first j :=
        ⟨h.valid, h.agg, hstorage, h.sub, hdecoded, h.within, h.small⟩
      have hrun := hmember.get_run h.named hleader h.progress h.lookup
      rw [if_neg (not_or.mp hbad).2] at hrun
      exact .inr ⟨⟨_, hrun⟩, .cons hres .nil⟩
    · rw [List.length_nil] at hbad
      omega

theorem sub_length (h : AggregatedFile path storage d data res first j v) : j.sub.length = 1 := by
  rw [h.sub, List.length_singleton]

theorem decodes (h : AggregatedFile path storage d data res first j v) {nodes : Datanodes}
    {block : Str} (hdecode : ∀ s ∈ j.sub, nodes.decode (some storage) s = .ok block)
    (deadline : Nat) : SDK.Decodes nodes { j with ddlLock := deadline } [block] := by
  rw [SDK.Decodes]
  simp only [h.storageType]
  obtain ⟨s, hs⟩ := List.length_eq_one_iff.mp h.sub_length
  rw [hs] at hdecode ⊢
  exact .cons (hdecode s (List.mem_singleton.mpr rfl)) .nil

theorem reads_iff (h : AggregatedFile path storage d data res first j v) (nodes : Datanodes) :
    (∀ offset size, offset + size < 2 ^ 64 →
        Reads path nodes (SDK.memberContent data first j.filesize) v offset size) ↔
      ∀ offset size, offset + size ≤ j.filesize →
        Reads path nodes (SDK.memberContent data first j.filesize) v offset size := by
  obtain ⟨deadline, hc⟩ := h.opened
  have hlength := h.length
  have hsmall := h.small
  rw [Spkdfs.reads_iff hc hlength.symm (by omega), hlength]

/-- Without the directory, the first block cannot be read, and there are zeros behind it. -/
theorem read_nodir_iff (h : AggregatedFile path storage d data res first j v)
    (hdir : v.sdk.dirs (v.sdk.tmpPath (simplifyPath path)) = none) (nodes : Datanodes) :
    (∀ offset size, offset + size ≤ j.filesize →
        Reads path nodes (SDK.memberContent data first j.filesize) v offset size) ↔
      ∀ c ∈ (SDK.memberContent data first j.filesize).drop (toUInt64 storage.getBlockSize),
        c = '\x00' := by
  obtain ⟨deadline, hc⟩ := h.opened
  obtain ⟨hn, hpos⟩ := h.blockSize_eq
  have hsmall := h.small
  rw [← h.fullpath] at hdir
  have hrun : ∀ offset size, offset + size ≤ j.filesize → _ := fun offset size hin ↦
    SDK.readData_nodir nodes hc hn hpos hin (by omega) hdir
  have hbehind : ∀ offset, offset / toUInt64 storage.getBlockSize < j.sub.length ↔
      offset < toUInt64 storage.getBlockSize := by
    intro offset
    rw [h.sub_length, Nat.div_lt_iff_lt_mul hpos, Nat.one_mul]
  rw [← SDK.zeros_iff h.length]
  constructor
  · intro hread offset part hle hin
    have hnodir := hrun offset part hin
    rw [if_neg (by rw [hbehind]; omega)] at hnodir
    obtain ⟨f, w, -, hthrow⟩ | ⟨w, hok⟩ := hread offset part hin
    · rw [hnodir] at hthrow
      cases hthrow
    · rw [hnodir] at hok
      exact Except.ok.inj (Prod.mk.inj (Option.some.inj hok)).1
  · intro hzeros offset size hin
    have hnodir := hrun offset size hin
    by_cases hfirst : offset < toUInt64 storage.getBlockSize
    · rw [if_pos ((hbehind offset).mpr hfirst)] at hnodir
      exact .inl (throws_runtime hnodir)
    · rw [if_neg (mt (hbehind offset).mp hfirst), hzeros offset size (Nat.le_of_not_lt hfirst) hin]
        at hnodir
      exact .inr ⟨v, hnodir⟩

/-- With the aggregate for the first block, what is read has to be its beginning. -/
theorem read_block_iff (h : AggregatedFile path storage d data res first j v) {nodes : Datanodes}
    (hdecode : ∀ s ∈ j.sub, nodes.decode (some storage) s = .ok data)
    (hdir : v.sdk.dirs (v.sdk.tmpPath (simplifyPath path)) ≠ none) :
    (∀ offset size, offset + size ≤ j.filesize →
        Reads path nodes (SDK.memberContent data first j.filesize) v offset size) ↔
      SDK.memberContent data first j.filesize = data.take j.filesize ∧
        ∀ c ∈ (SDK.memberContent data first j.filesize).drop (toUInt64 storage.getBlockSize),
          c = '\x00' := by
  obtain ⟨deadline, hc⟩ := h.opened
  obtain ⟨hn, hpos⟩ := h.blockSize_eq
  have hsmall := h.small
  have hwithin := h.within
  obtain ⟨t, ht⟩ := Option.ne_none_iff_exists'.mp hdir
  have hfiles : SDK.BlockFiles j.fullpath.str [data] v := by
    rw [h.fullpath]
    exact ⟨t, ht, h.files t ht⟩
  have hrun : ∀ offset size, offset + size ≤ j.filesize → _ := fun offset size hin ↦
    SDK.readData_single hc (h.decodes hdecode deadline) hfiles hn
      hpos hin (by omega) (by omega)
  rw [← SDK.firstBlock_iff hpos h.length]
  constructor
  · intro hread offset part hin
    obtain ⟨u, hblock⟩ := hrun offset part hin
    obtain ⟨f, w, -, hthrow⟩ | ⟨w, hok⟩ := hread offset part hin
    · rw [hblock] at hthrow
      cases hthrow
    · rw [hblock] at hok
      exact Except.ok.inj (Prod.mk.inj (Option.some.inj hok)).1
  · intro hagree offset size hin
    obtain ⟨u, hblock⟩ := hrun offset size hin
    rw [hagree offset size hin] at hblock
    exact .inr ⟨u, hblock⟩

/-- A missing aggregate is taken for an empty block, from which only an empty file can be read. -/
theorem read_empty_iff (h : AggregatedFile path storage d data res first j v) {nodes : Datanodes}
    (hdecode : ∀ s ∈ j.sub, nodes.decode (some storage) s = .ok [])
    (hdir : v.sdk.dirs (v.sdk.tmpPath (simplifyPath path)) ≠ none) (hcached : ¬ Cached path v) :
    (∀ offset size, offset + size ≤ j.filesize →
        Reads path nodes (SDK.memberContent data first j.filesize) v offset size) ↔
      j.filesize = 0 := by
  obtain ⟨deadline, hc⟩ := h.opened
  obtain ⟨hn, hpos⟩ := h.blockSize_eq
  obtain ⟨t, ht⟩ := Option.ne_none_iff_exists'.mp hdir
  have hholds := h.files t ht
  have hfiles : SDK.BlockFiles j.fullpath.str [[]] v := by
    rw [h.fullpath]
    refine ⟨t, ht, hholds.apart, hholds.below, fun i file hi ↦ ?_⟩
    cases i with
    | zero =>
      rw [Cached, SDK.dir, ht, Option.getD_some, TmpDir.read, hi] at hcached
      exact .inl (by simpa using hcached)
    | succ i => exact .inr fun block hb ↦ by cases hb
  constructor
  · intro hread
    by_contra hne
    have hone : 0 + 1 ≤ j.filesize := by omega
    obtain ⟨w, hrun⟩ := SDK.readData_blocks hc (h.decodes hdecode deadline) hfiles hn hpos hone
      (by decide)
    have hmib := StorageType.le_blockSize h.blockSize
    have hlast : (0 + 1) / toUInt64 storage.getBlockSize = 0 := Nat.div_eq_of_lt (by omega)
    have hnothing : SDK.blocksRead (toUInt64 storage.getBlockSize) [[]]
        (0 / toUInt64 storage.getBlockSize) ((0 + 1) / toUInt64 storage.getBlockSize + 1) = [] := by
      rw [hlast, Nat.zero_div, SDK.blocksRead]
      simp
    rw [hnothing, if_pos (by rw [List.length_nil]; omega)] at hrun
    obtain ⟨f, w, -, hthrow⟩ | ⟨w, hok⟩ := hread 0 1 hone
    · rw [hrun] at hthrow
      cases hthrow
    · rw [hrun] at hok
      cases hok
  · intro hzero offset size hin
    obtain ⟨w, hrun⟩ := SDK.readData_single hc (h.decodes hdecode deadline) hfiles hn hpos hin
      (by omega) (by rw [List.length_nil]; omega)
    obtain rfl : size = 0 := by omega
    refine .inr ⟨w, hrun.trans ?_⟩
    split_ifs <;> rfl

theorem content_of_empty (h : AggregatedFile path storage d data res first j v)
    (hzero : j.filesize = 0) :
    SDK.memberContent data first j.filesize = [] := by
  rw [← List.length_eq_zero_iff, h.length, hzero]

/-- When `read_data` is right about a file inside an aggregate. -/
theorem read_iff (h : AggregatedFile path storage d data res first j v)
    (hinside : d.Recovers storage data res ∨
      (d.arrivals res).length ≤ storage.getDecodeBlocks) :
    (∀ offset size, offset + size ≤ j.filesize →
        Reads path (d.toDatanodes []) (SDK.memberContent data first j.filesize) v offset size) ↔
      (∀ c ∈ (SDK.memberContent data first j.filesize).drop (toUInt64 storage.getBlockSize),
        c = '\x00') ∧
      (v.sdk.dirs (v.sdk.tmpPath (simplifyPath path)) ≠ none → j.filesize = 0 ∨
        SDK.memberContent data first j.filesize = data.take j.filesize ∧
          (d.Recovers storage data res ∨ Cached path v)) := by
  by_cases hdir : v.sdk.dirs (v.sdk.tmpPath (simplifyPath path)) = none
  · rw [h.read_nodir_iff hdir]
    exact ⟨fun hzeros ↦ ⟨hzeros, fun hne ↦ absurd hdir hne⟩, And.left⟩
  obtain ⟨block, hdecode, hblock⟩ := h.decode_cases hinside
  have hdecode' : ∀ s ∈ j.sub, (d.toDatanodes []).decode (some storage) s = .ok block :=
    fun s hs ↦ hdecode s (List.mem_append_right _ hs)
  by_cases hgood : d.Recovers storage data res ∨ Cached path v
  · have hblocks : (∀ offset size, offset + size ≤ j.filesize → Reads path (d.toDatanodes [])
          (SDK.memberContent data first j.filesize) v offset size) ↔
        SDK.memberContent data first j.filesize = data.take j.filesize ∧
          ∀ c ∈ (SDK.memberContent data first j.filesize).drop (toUInt64 storage.getBlockSize),
            c = '\x00' := by
      by_cases hcached : Cached path v
      · -- the datanodes are not asked, so they could as well return the aggregate
        obtain ⟨deadline, hc⟩ := h.opened
        have hfiles : ∀ i < j.sub.length,
            ((v.sdk.dir j.fullpath.str).read i).any (· ≠ []) = true := by
          intro i hi
          rw [h.sub_length] at hi
          obtain rfl : i = 0 := by omega
          rw [h.fullpath]
          exact hcached
        have hsame : ∀ offset size, Reads path (d.toDatanodes [])
              (SDK.memberContent data first j.filesize) v offset size ↔
            Reads path ⟨fun _ _ ↦ .ok [], fun _ _ ↦ .ok data⟩
              (SDK.memberContent data first j.filesize) v offset size := by
          intro offset size
          rw [Reads, Reads, SDK.readData_cached _ offset size hc hfiles]
        simp only [hsame]
        exact h.read_block_iff (fun _ _ ↦ rfl) hdir
      · obtain ⟨-, rfl⟩ | ⟨hnot, -⟩ := hblock
        · exact h.read_block_iff hdecode' hdir
        · exact absurd (hgood.resolve_right hcached) hnot
    rw [hblocks]
    refine ⟨fun ⟨hbegins, hzeros⟩ ↦ ⟨hzeros, fun _ ↦ .inr ⟨hbegins, hgood⟩⟩,
      fun ⟨hzeros, hrest⟩ ↦ ⟨?_, hzeros⟩⟩
    obtain hzero | ⟨hbegins, -⟩ := hrest hdir
    · rw [h.content_of_empty hzero, hzero, List.take_zero]
    · exact hbegins
  · obtain ⟨hr, -⟩ | ⟨-, rfl⟩ := hblock
    · exact absurd (.inl hr) hgood
    rw [h.read_empty_iff hdecode' hdir fun hcached ↦ hgood (.inr hcached)]
    refine ⟨fun hzero ↦ ⟨?_, fun _ ↦ .inl hzero⟩, fun ⟨_, hrest⟩ ↦ ?_⟩
    · rw [h.content_of_empty hzero, List.drop_nil]
      exact fun c hc ↦ by cases hc
    · exact (hrest hdir).resolve_right fun hbegins ↦ hgood hbegins.2

/-- `get` throws where an aggregate is missing; `read_data` does not. -/
theorem noSilentCorruption_iff (h : AggregatedFile path storage d data res first j v) :
    NoSilentCorruption path storage d (SDK.memberContent data first j.filesize) [data] [res] j v ↔
      (d.Recovers storage data res ∨ (d.arrivals res).length ≤ storage.getDecodeBlocks) ∧
      (∀ c ∈ (SDK.memberContent data first j.filesize).drop (toUInt64 storage.getBlockSize),
        c = '\x00') ∧
      (v.sdk.dirs (v.sdk.tmpPath (simplifyPath path)) ≠ none → j.filesize = 0 ∨
        SDK.memberContent data first j.filesize = data.take j.filesize ∧
          (d.Recovers storage data res ∨ Cached path v)) := by
  constructor
  · intro hsafe
    have hinside := h.inside_iff.mp hsafe.inside
    exact ⟨hinside, (h.read_iff hinside).mp ((h.reads_iff _).mp hsafe.read)⟩
  · rintro ⟨hinside, hread⟩
    exact ⟨h.inside_iff.mpr hinside, h.get hinside,
      (h.reads_iff _).mpr ((h.read_iff hinside).mpr hread)⟩

end AggregatedFile

/-- The whole file: what is read of it is right or refused exactly as long as these blocks come back. -/
theorem no_silent_corruption_iff (path : Str) (storage : StorageType) (d : Shards) (j : Inode)
    (v : View) :
    (∀ {content : Str} {blocks : List Str}, PlainFile path storage d content blocks j v →
      (NoSilentCorruption path storage d content blocks j.sub j v ↔
        content.length < 2 ^ 31 ∧
          List.Forall₂ (fun block s ↦ d.Recovers storage block s ∨
            block = [] ∧ (d.arrivals s).length ≤ storage.getDecodeBlocks) blocks j.sub)) ∧
    ∀ {data res : Str} {first : Nat}, AggregatedFile path storage d data res first j v →
      (NoSilentCorruption path storage d (SDK.memberContent data first j.filesize) [data] [res] j v ↔
        (d.Recovers storage data res ∨ (d.arrivals res).length ≤ storage.getDecodeBlocks) ∧
        (∀ c ∈ (SDK.memberContent data first j.filesize).drop (toUInt64 storage.getBlockSize),
          c = '\x00') ∧
        (v.sdk.dirs (v.sdk.tmpPath (simplifyPath path)) ≠ none → j.filesize = 0 ∨
          SDK.memberContent data first j.filesize = data.take j.filesize ∧
            (d.Recovers storage data res ∨ Cached path v))) :=
  ⟨PlainFile.noSilentCorruption_iff, AggregatedFile.noSilentCorruption_iff⟩

section

variable {content path : Str} {storage : StorageType} {d : Shards} {v v₁ v₂ : View}
  {fetch : Str → Str → Except Fault Str} {data : Str} {first : Nat} {j : Inode}

/-- What may come back of a block later, when the datanodes answer with `fetch`. -/
def Shards.MayReturn (d : Shards) (storage : StorageType) (fetch : Str → Str → Except Fault Str)
    (block : Str) : Prop :=
  ∀ shards, storage.encode d.code block = .ok shards →
    (∀ shard ∈ shards, ∀ node answer, fetch node (d.sha256sum shard) = .ok answer →
      d.sha256sum answer = d.sha256sum shard → answer = shard) ∧
    ∀ vec, vec.Sublist shards → vec.length = storage.getDecodeBlocks →
      storage.decode d.code vec = .ok block ∨
        ∃ f, f ≠ .assertion ∧ storage.decode d.code vec = .error f

/-- A file that was put and opened. -/
theorem Uploaded.plainFile (h : Uploaded content path storage d v v₁) (ho : Opened path v₁ v₂)
    (hcache : ∀ t, v.sdk.dirs (v.sdk.tmpPath (simplifyPath path)) = some t →
      t.Holds (splitAllBlock content (toUInt64 storage.getBlockSize)))
    (hfetch : ∀ block ∈ splitAllBlock content (toUInt64 storage.getBlockSize),
      d.MayReturn storage fetch block) :
    ∃ j, PlainFile path storage { d with fetch } content
      (splitAllBlock content (toUInt64 storage.getBlockSize)) j v₂ := by
  obtain ⟨-, sub, hs⟩ := h.stored
  obtain ⟨flags, waits, hflags, hquiet, hopen, hseen⟩ := id ho
  obtain ⟨myIp, now, hleader⟩ := h.leader
  obtain ⟨hn, hpos⟩ := h.blockSize_eq
  obtain ⟨hblocks, hcontent⟩ := splitAllBlock_spec content hpos
  have hreached := hleader.trans hs.leader
  obtain ⟨hreach, -, hprogress, deadline, hc, hl⟩ := SDK.open_lookup hs.named (.inl hflags)
    hs.pending hquiet hreached hs.lookup hopen hseen
  refine ⟨_, ⟨hs.named, ⟨myIp, now, hreached.trans hreach⟩, hprogress.le, hl, rfl, rfl, h.blockSize,
    deadline, hc⟩, rfl, ?_, hblocks.aligned, hcontent, rfl, fun t ht ↦ ?_⟩
  · obtain ⟨hlength, hget⟩ := List.forall₂_iff_get.mp hs.records
    refine List.forall₂_iff_get.mpr ⟨hlength, fun i hi hi' ↦ ?_⟩
    obtain ⟨shards, hencode, hrecord⟩ := hget i hi hi'
    obtain ⟨htrue, hdecode⟩ := hfetch _ (List.get_mem _ _) shards hencode
    exact ⟨shards, hencode, hrecord, htrue, hdecode⟩
  · by_cases hdir : v.sdk.dirs (v.sdk.tmpPath (simplifyPath path)) ≠ none ∨
        v.sdk.tmpPath (simplifyPath path) = v.sdk.tmpPath path
    · obtain ⟨t', ht', hholds⟩ := h.blockFiles ho hcache hdir
      obtain rfl := Option.some.inj (ht'.symm.trans ht)
      exact hholds
    · rw [not_or, not_not] at hdir
      rw [h.no_blockFiles ho hdir.1 hdir.2] at ht
      cases ht

end

theorem pair_mayReturn {fetch : Str → Str → Except Fault Str}
    (hfetch : ∀ node blkid answer, fetch node blkid = .ok answer → answer = pairBlock) :
    ∀ block ∈ splitAllBlock pairContent (toUInt64 (StorageType.getBlockSize (.re 1 1))),
      pairShards.MayReturn (.re 1 1) fetch block := by
  intro block hb shards hencode
  rw [splitAllBlock_pair, List.mem_singleton] at hb
  obtain rfl := Except.ok.inj hencode
  refine ⟨fun shard hs node answer hanswer _ ↦ ?_, fun vec hvec hlength ↦ .inl ?_⟩
  · rw [List.eq_of_mem_replicate hs, hb]
    exact hfetch node _ answer hanswer
  · rw [hvec.eq_of_length hlength]
    rfl

theorem pair_plainFile {fetch : Str → Str → Except Fault Str}
    (hfetch : ∀ node blkid answer, fetch node blkid = .ok answer → answer = pairBlock) :
    ∃ j, PlainFile "/f".toList (.re 1 1) { pairShards with fetch } pairContent [pairBlock] j
      (pairOpened "/f".toList) := by
  rw [← splitAllBlock_pair]
  refine pairFile_uploaded.plainFile pairFile_opened ?_ (pair_mayReturn hfetch)
  intro t ht
  cases ht

/-- The datanode returns the block. -/
theorem no_silent_corruption_returned :
    ∃ j, NoSilentCorruption "/f".toList (.re 1 1) pairShards pairContent [pairBlock] j.sub j
      (pairOpened "/f".toList) := by
  have hfetch : ∀ node blkid answer, pairShards.fetch node blkid = .ok answer →
      answer = pairBlock := fun _ _ _ hanswer ↦ (Except.ok.inj hanswer).symm
  obtain ⟨j, h⟩ := pair_plainFile hfetch
  refine ⟨j, ((no_silent_corruption_iff _ _ _ _ _).1 h).mpr ⟨by decide, ?_⟩⟩
  obtain ⟨s, rest, ⟨shards, hencode, hrecords, -, -⟩, hnil, hsub⟩ :=
    List.forall₂_cons_left_iff.mp h.subs
  rw [List.forall₂_nil_left_iff] at hnil
  rw [hsub, hnil]
  obtain rfl : shards = [pairBlock] := (Except.ok.inj hencode).symm
  have harrivals : pairShards.arrivals s = [pairBlock] := by
    refine filterMap_arrived_of_fetch hrecords.1 fun shard hs pair _ ↦ ?_
    rw [List.mem_singleton.mp hs]
    rfl
  refine .cons (.inl ⟨Nat.one_pos, ?_, ?_⟩) .nil
  · show 1 ≤ (pairShards.arrivals s).length
    rw [harrivals, List.length_singleton]
  · show StorageType.decode _ ((pairShards.arrivals s).take _) _ = _
    rw [harrivals]
    rfl

/-- The datanode of the file is down. -/
def refusedShards : Shards :=
  { pairShards with fetch := fun _ _ ↦ throw (.runtime "connection refused".toList) }

/-- The only shard of the file does not come back, and `get` returns two zeros for it. -/
theorem not_no_silent_corruption_refused :
    ∃ j, PlainFile "/f".toList (.re 1 1) refusedShards pairContent [pairBlock] j
        (pairOpened "/f".toList) ∧
      (∃ w, (SDK.get "/f".toList (pairOpened "/f".toList).leader.applied.length
          (refusedShards.toDatanodes [])).run (pairOpened "/f".toList) =
        some (.ok (List.replicate 2 '\x00'), w)) ∧
      ¬ NoSilentCorruption "/f".toList (.re 1 1) refusedShards pairContent [pairBlock] j.sub j
        (pairOpened "/f".toList) := by
  have hfetch : ∀ node blkid answer, refusedShards.fetch node blkid = .ok answer →
      answer = pairBlock := fun _ _ _ hanswer ↦ by cases hanswer
  obtain ⟨j, h⟩ : ∃ j, PlainFile "/f".toList (.re 1 1) refusedShards pairContent [pairBlock] j
      (pairOpened "/f".toList) := pair_plainFile hfetch
  have harrivals : ∀ s, refusedShards.arrivals s = [] := by
    intro s
    refine List.filterMap_eq_nil_iff.mpr fun pair _ ↦ ?_
    rfl
  have hempty : ∀ s, decodeOneBlock refusedShards.sha256sum (.re 1 1) refusedShards.code
      refusedShards.fetch s = some [] := by
    intro s
    rw [Shards.decodeOneBlock_eq, harrivals]
    rfl
  have hwritten : List.Forall₂ (fun block s ↦ refusedShards.decode (some (.re 1 1)) s = .ok block)
      (j.sub.map fun _ ↦ []) j.sub := by
    rw [List.forall₂_map_left_iff, List.forall₂_same]
    exact fun s _ ↦ Shards.decode_eq_ok.mpr (hempty s)
  obtain ⟨w, hget⟩ := h.get_run hwritten
  have hzeros : resizeFile (j.sub.map fun _ ↦ ([] : Str)).flatten j.filesize =
      List.replicate 2 '\x00' := by
    have hnothing : (j.sub.map fun _ ↦ ([] : Str)).flatten = [] := by simp
    rw [hnothing, h.filesize]
    rfl
  rw [hzeros] at hget
  refine ⟨j, h, ⟨w, hget⟩, fun hsafe ↦ ?_⟩
  obtain ⟨f, u, -, hthrow⟩ | ⟨⟨u, hcontent⟩, -⟩ := hsafe.get
  · rw [hget] at hthrow
    cases hthrow
  · rw [hget] at hcontent
    exact absurd (Except.ok.inj (Prod.mk.inj (Option.some.inj hcontent)).1) (by decide)

end Spkdfs
