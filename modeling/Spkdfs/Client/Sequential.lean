import Spkdfs.Client.SerialWriters
import Spkdfs.Client.Opening

namespace Spkdfs

open Library Procedure Function

section

variable {n i : Nat} {content s : Str}

/-- A block of a longer content is what there was of it and the part of the data for it. -/
theorem chunk_append (hi : content.length / n ≤ i) (hpos : 0 < n) :
    chunk n content i ++ SDK.dataPart n content.length s i = chunk n (content ++ s) i := by
  have hlt : content.length < (i + 1) * n := Nat.lt_mul_of_div_lt (Nat.lt_succ_of_le hi) hpos
  rw [Nat.succ_mul] at hlt
  have hroom : n - (content.drop (i * n)).length = (i + 1) * n - max (i * n) content.length := by
    rw [List.length_drop, Nat.succ_mul]
    omega
  rw [chunk, chunk, List.drop_append, List.take_append, hroom, SDK.dataPart]

/-- A block that was whole before stays as it is. -/
theorem chunk_append_of_lt (hi : i < content.length / n) :
    chunk n (content ++ s) i = chunk n content i := by
  have hle : (i + 1) * n ≤ content.length :=
    (Nat.mul_le_mul_right n hi).trans (Nat.div_mul_le_self _ n)
  rw [Nat.succ_mul] at hle
  rw [chunk, chunk, List.drop_append_of_le_length (by omega),
    List.take_append_of_le_length (by rw [List.length_drop]; omega)]

theorem chunk_eq_nil (hi : content.length ≤ i * n) : chunk n content i = [] := by
  rw [chunk, List.drop_eq_nil_of_le hi, List.take_nil]

/-- The block files of a content that is written from its start. -/
def writtenFiles (n count : Nat) (content : Str) : Nat → Option Str :=
  fun i ↦ if i < count then some (chunk n content i) else none

/-- As many blocks as there are, with an empty one after a content that ends with a block. Before
the first write there is none. -/
def Covers (n count : Nat) (content : Str) : Prop :=
  count = 0 ∧ content = [] ∨ count = content.length / n + 1

/-- The blocks of the content and those that the next part reaches. -/
theorem Covers.union_Icc {count : Nat} (h : Covers n count content) :
    Finset.range count ∪ Finset.Icc (content.length / n) ((content.length + s.length) / n) =
      Finset.range ((content ++ s).length / n + 1) := by
  have horder : content.length / n ≤ (content.length + s.length) / n :=
    Nat.div_le_div_right (Nat.le_add_right _ _)
  have hbound : content.length / n ≤ count ∧ count ≤ content.length / n + 1 := by
    rcases h with ⟨rfl, rfl⟩ | rfl
    · simp
    · omega
  ext k
  rw [Finset.mem_union, Finset.mem_range, Finset.mem_Icc, Finset.mem_range, List.length_append]
  omega

theorem getD_writtenFiles {count : Nat} (hcount : Covers n count content) (hpos : 0 < n) :
    (writtenFiles n count content i).getD [] = chunk n content i := by
  rw [writtenFiles]
  split_ifs with hi
  · rfl
  · refine (chunk_eq_nil ?_).symm
    rcases hcount with ⟨-, rfl⟩ | rfl
    · exact Nat.zero_le _
    · have hle : content.length / n + 1 ≤ i := Nat.le_of_not_lt hi
      exact (Nat.lt_mul_of_div_lt hle hpos).le

/-- One more write at the end of the content. -/
theorem appended_writtenFiles {count : Nat} (hcount : Covers n count content) (hpos : 0 < n) :
    SDK.appended n content.length s (writtenFiles n count content)
        (Finset.Icc (content.length / n) ((content.length + s.length) / n)) =
      writtenFiles n ((content ++ s).length / n + 1) (content ++ s) := by
  funext i
  have horder : content.length / n ≤ (content.length + s.length) / n :=
    Nat.div_le_div_right (Nat.le_add_right _ _)
  rw [SDK.appended, List.length_append]
  by_cases hi : i ∈ Finset.Icc (content.length / n) ((content.length + s.length) / n)
  · obtain ⟨hfirst, hlast⟩ := Finset.mem_Icc.mp hi
    rw [if_pos hi, getD_writtenFiles hcount hpos, chunk_append hfirst hpos, writtenFiles,
      if_pos (Nat.lt_succ_of_le hlast)]
  · rw [if_neg hi]
    rw [Finset.mem_Icc, not_and] at hi
    by_cases hbefore : i < content.length / n
    · have hsome : i < count := by
        rcases hcount with ⟨-, rfl⟩ | rfl
        · rw [List.length_nil, Nat.zero_div] at hbefore
          omega
        · omega
      rw [writtenFiles, if_pos hsome, writtenFiles, if_pos (by omega),
        chunk_append_of_lt hbefore]
    · have hafter := hi (by omega)
      have hnone : ¬ i < count := by
        rcases hcount with ⟨rfl, -⟩ | rfl
        · omega
        · omega
      rw [writtenFiles, if_neg hnone, writtenFiles, if_neg (by omega)]

end

namespace SDK

/-- The calls of `write_data`, each at the offset where the one before it has ended. -/
def writeAll (path : Str) (nodes : Datanodes) : Nat → List Str → Method Unit
  | _, [] => return
  | offset, s :: rest => do
    writeData path offset s nodes
    writeAll path nodes (offset + s.length) rest

variable {v v' : View} {path : Str} {t : TmpDir} {n count : Nat} {inode : Inode}
  {nodes : Datanodes} {content : Str} {parts : List Str}

theorem writeAll_run (nodes : Datanodes) (content : Str) (parts : List Str)
    (hc : v.sdk.cache path = some inode) (hn : inode.getBlockSize = n)
    (hpos : 0 < n) (hzero : inode.filesize = 0)
    (hsmall : (content ++ parts.flatten).length < 2 ^ 31) (hcount : Covers n count content)
    (hdir : v.sdk.dirs (v.sdk.tmpPath path) = some t)
    (hshows : t.Shows (writtenFiles n count content) (Finset.range count)) :
    ∃ count' t', (writeAll path nodes content.length parts).run v =
        some (.ok (), v.setDir path t') ∧
      Covers n count' (content ++ parts.flatten) ∧ (parts ≠ [] → 0 < count') ∧
      (parts = [] → count' = count) ∧
      t'.Shows (writtenFiles n count' (content ++ parts.flatten)) (Finset.range count') := by
  induction parts generalizing v t content count with
  | nil =>
    rw [List.flatten_nil, List.append_nil]
    refine ⟨count, t, ?_, hcount, fun h ↦ absurd rfl h, fun _ ↦ rfl, hshows⟩
    rw [View.setDir_self hdir]
    rfl
  | cons s parts ih =>
    have hmore : (content ++ s ++ parts.flatten).length < 2 ^ 31 := by
      rwa [List.flatten_cons, ← List.append_assoc] at hsmall
    have hsum : content.length + s.length < 2 ^ 31 := by
      rw [List.length_append, List.length_append] at hmore
      omega
    obtain ⟨t₁, hwrite, hshows₁⟩ := writeData_run nodes hc hn hpos hsum (by omega)
      (by omega) hdir hshows
    rw [appended_writtenFiles hcount hpos] at hshows₁
    have hcovered : Covers n ((content ++ s).length / n + 1) (content ++ s) := .inr rfl
    rw [hcount.union_Icc] at hshows₁
    have hnext : (v.setDir path t₁).sdk.dirs ((v.setDir path t₁).sdk.tmpPath path) = some t₁ :=
      View.dirs_setDir
    obtain ⟨count', t', hrun, hcount', hsome, hsame, hshows'⟩ := ih (content ++ s)
      (v := v.setDir path t₁) hc hmore hcovered hnext hshows₁
    rw [List.flatten_cons, ← List.append_assoc]
    refine ⟨count', t', ?_, hcount', fun _ ↦ ?_, fun h ↦ (nomatch h), hshows'⟩
    · rw [writeAll, run_bind_ok hwrite, ← List.length_append, hrun, View.setDir_setDir]
    · by_cases hlast : parts = []
      · rw [hsame hlast]
        exact Nat.succ_pos _
      · exact hsome hlast

theorem close_of_fsync {during : List Action} {commit : Option Commit}
    (h : (fsync path nodes during).run v = some (.ok commit, v')) :
    ∃ w, (SDK.close path nodes during).run v = some (.ok commit, w) ∧ w.leader = v'.leader ∧
      w.progress = v'.progress ∧ w.sdk.tmpPath = v'.sdk.tmpPath ∧ w.sdk.dirs = v'.sdk.dirs ∧
      w.sdk.pathlocks = v'.sdk.pathlocks.unlock (v'.sdk.tmpPath path) := by
  have hrun : (SDK.close path nodes during).run v = some (.ok commit, { v' with
      sdk := { v'.sdk with
        cache := update v'.sdk.cache path none
        remoteLocks := v'.sdk.remoteLocks.filter (· ≠ path)
        pathlocks := v'.sdk.pathlocks.unlock (v'.sdk.tmpPath path) } }) := by
    rw [SDK.close, run_bind_ok h]
    rfl
  exact ⟨_, hrun, rfl, rfl, rfl, rfl, rfl⟩

end SDK

section

variable {sha256sum : Str → Str} {storage : StorageType} {nodes vec : List Str} {u : Upload}

/-- As long as every node takes what it is given, the loop comes to its end. -/
theorem exists_uploadShards (sha256sum : Str → Str) (storage : StorageType)
    {outcomes : List Bool} (hall : ∀ stored ∈ outcomes, stored = true)
    (hfail : u.failCount = 0) (hindex : u.nodeIndex < nodes.length)
    (hlength : vec.length ≤ u.i + outcomes.length) :
    ∃ v rest, uploadShards sha256sum storage nodes vec outcomes u = some (v, rest) := by
  induction outcomes generalizing u with
  | nil => exact ⟨u, [], uploadShards_done [] hlength⟩
  | cons stored outcomes ih =>
    by_cases hdone : vec.length ≤ u.i
    · exact ⟨u, _, uploadShards_done _ hdone⟩
    obtain rfl := hall stored List.mem_cons_self
    have hne : nodes ≠ [] := List.ne_nil_of_length_pos (by omega)
    let next : Upload :=
      { u with i := u.i + 1, succ := u.succ + 1,
               nodesHashs := u.nodesHashs ++ [(nodes[u.nodeIndex], sha256sum vec[u.i])] }
    have hturn := Upload.turn_accepted storage (u := next) hfail hne
    have hkept := Upload.turn_eq storage nodes next
    rw [uploadShards, List.getElem?_eq_getElem (by omega), List.getElem?_eq_getElem hindex]
    simp only [Upload.attempt, if_true]
    rw [if_neg (by rw [hturn.1]; exact Bool.false_ne_true)]
    refine ih (fun b hb ↦ hall b (List.mem_cons_of_mem _ hb)) hturn.2 ?_ ?_
    · have hmod : (Upload.turn storage nodes next).2.nodeIndex =
          (next.nodeIndex + 1) % nodes.length := by
        simp only [Upload.turn]
        split_ifs <;> rfl
      rw [hmod]
      exact Nat.mod_lt _ (List.length_pos_of_ne_nil hne)
    · rw [hkept.1]
      rw [List.length_cons] at hlength
      show vec.length ≤ u.i + 1 + outcomes.length
      omega

end

/-- Every datanode accepts the shards of these blocks and returns them later, and the codec
encodes each block and decodes what it has encoded. -/
structure Shards.Stores (d : Shards) (storage : StorageType) (outcomes : List Bool)
    (blocks : List Str) : Prop where
  printed : d.Printed
  nodes : d.nodes ≠ []
  accepts : ∀ stored ∈ outcomes, stored = true
  code : storage.Faithful d.code
  encodes : ∀ block ∈ blocks, ∃ shards, storage.encode d.code block = .ok shards ∧
    shards.length ≤ outcomes.length ∧
      ∀ shard ∈ shards, ∀ node ∈ d.nodes, d.fetch node (d.sha256sum shard) = .ok shard

/-- The sub of a block names its shards, in order. -/
theorem Shards.Stores.encoded {d : Shards} {storage : StorageType} {outcomes : List Bool}
    {blocks : List Str} (h : d.Stores storage outcomes blocks) {block : Str} (hb : block ∈ blocks) :
    ∃ shards pairs, storage.encode d.code block = .ok shards ∧
      (∀ shard ∈ shards, ∀ node ∈ d.nodes, d.fetch node (d.sha256sum shard) = .ok shard) ∧
      encodeOneBlock d.sha256sum storage d.nodes d.code outcomes block =
        some (.ok ([','].intercalate (pairs.map oneSub))) ∧
      pairs ≠ [] ∧ (∀ pair ∈ pairs, Recordable pair) ∧
      pairs.map (·.2) = shards.map d.sha256sum ∧ ∀ pair ∈ pairs, pair.1 ∈ d.nodes := by
  obtain ⟨shards, hencode, hlength, hfetch⟩ := h.encodes block hb
  obtain ⟨hk, hle, -⟩ := h.code block shards hencode
  have hfirst : ({} : Upload).nodeIndex < d.nodes.length := List.length_pos_of_ne_nil h.nodes
  obtain ⟨u, rest, hupload⟩ := exists_uploadShards d.sha256sum storage
    h.accepts rfl hfirst (Nat.le_add_left_of_le hlength)
  obtain ⟨-, -, pairs, hpairs, hhashs, hnodes⟩ := uploadShards_accepted h.accepts rfl hupload
  rw [List.nil_append] at hpairs
  rw [List.drop_zero] at hhashs
  have hne : pairs ≠ [] := by
    rintro rfl
    rw [List.map_nil] at hhashs
    have hempty := congrArg List.length hhashs
    rw [List.length_map, List.length_nil] at hempty
    omega
  have hrecord := h.printed.hash.recordable h.printed.nodes hhashs hnodes
  refine ⟨shards, pairs, hencode, hfetch, ?_, hne, hrecord, hhashs, hnodes⟩
  simp only [encodeOneBlock, hencode, hupload, Option.bind_some, hpairs, encodeOneSub_eq hne hrecord]

theorem Shards.Stores.encode_ok {d : Shards} {storage : StorageType} {outcomes : List Bool}
    {blocks : List Str} (h : d.Stores storage outcomes blocks) {block : Str} (hb : block ∈ blocks) :
    ∃ s, (d.toDatanodes outcomes).encode (some storage) block = .ok s ∧
      (d.toDatanodes outcomes).decode (some storage) s = .ok block := by
  obtain ⟨shards, pairs, hencode, hfetch, hsub, hne, hrecord, hhashs, hnodes⟩ := h.encoded hb
  refine ⟨[','].intercalate (pairs.map oneSub), ?_,
    Shards.decode_recorded h.code hencode ?_ hfetch⟩
  · simp only [Shards.toDatanodes, Option.bind_some, hsub]
  · rw [Shards.Records, decodeOneSub_intercalate hne hrecord]
    exact ⟨hhashs, hnodes⟩

/-- A valid file without content, and a client that has no block file of it. -/
structure NewFile (path : Str) (storage : StorageType) (inode : Inode) (v : View) : Prop where
  named : path ≠ []
  leader : ∃ myIp now, Reaches Leader.step (fun _ _ ↦ True) (.start myIp now) v.leader
  progress : v.progress ≤ v.leader.applied.length
  pending : ∀ q ∈ v.leader.pending, q.entry.Spares (simplifyPath path)
  lookup : RocksDB.lookup v.leader.store (simplifyPath path) = some inode
  valid : inode.valid = true
  file : inode.isDirectory = false
  filesize : inode.filesize = 0
  sub : inode.sub = []
  agg : inode.aggInodeId = []
  storageType : inode.storageType = some storage
  blockSize : 0 < storage.getBlockSize
  uncached : (v.sdk.dir path).files = []

/-- The file is opened for writing, with an up-to-date slave. -/
def OpenedForWriting (path : Str) (v v' : View) : Prop :=
  ∃ flags waits, writeMode flags = true ∧ (∀ a ∈ waits.lock, a.Spares (simplifyPath path)) ∧
    (SDK.open path flags waits).run v = some (.ok (), v') ∧
      waits.seen = v'.leader.applied.length

section

variable {path : Str} {storage : StorageType} {inode : Inode} {v v₁ : View} {n : Nat}

theorem NewFile.opened (h : NewFile path storage inode v) (ho : OpenedForWriting path v v₁) :
    (∃ myIp now, Reaches Leader.step (fun _ _ ↦ True) (.start myIp now) v₁.leader) ∧
      (∀ q ∈ v₁.leader.pending, q.entry.Spares (simplifyPath path)) ∧
      v₁.progress ≤ v₁.leader.applied.length ∧
      (∃ t, v₁.sdk.dirs (v₁.sdk.tmpPath path) = some t ∧ t.Shows (fun _ ↦ none) ∅) ∧
      ∃ deadline, v₁.sdk.cache path = some { inode with ddlLock := deadline } ∧
        RocksDB.lookup v₁.leader.store (simplifyPath path) =
          some { inode with ddlLock := deadline } := by
  obtain ⟨flags, waits, hw, hquiet, hopen, hseen⟩ := ho
  obtain ⟨myIp, now, hleader⟩ := h.leader
  obtain ⟨hreach, hpending, hprogress, deadline, hcache, hlookup⟩ := SDK.open_lookup h.named
    (.inr h.filesize) h.pending hquiet hleader h.lookup hopen hseen
  exact ⟨⟨myIp, now, hleader.trans hreach⟩, hpending, hprogress.le,
    SDK.open_write_empty hw h.uncached hopen, deadline, hcache, hlookup⟩

/-- The size of a content, found again from the last of its blocks. -/
theorem writtenSize_chunk {content : Str} (hn : inode.getBlockSize = n) (hpos : 0 < n)
    (hzero : inode.filesize = 0) (hsmall : content.length < 2 ^ 31) :
    SDK.writtenSize inode (content.length / n) (chunk n content (content.length / n)) =
      content.length := by
  have hdiv := Nat.div_add_mod content.length n
  rw [Nat.mul_comm] at hdiv
  have hlength : (chunk n content (content.length / n)).length = content.length % n := by
    have hlt := Nat.mod_lt content.length hpos
    rw [chunk, List.length_take, List.length_drop]
    omega
  have hblock : toUInt64 (toInt32 (chunk n content (content.length / n)).length) =
      content.length % n := by
    rw [hlength]
    exact toUInt64_toInt32 (by omega)
  rw [SDK.writtenSize, hzero, SDK.toUInt64_getBlockSize hn, hblock, hdiv,
    Nat.mod_eq_of_lt (by omega), Nat.zero_max]

/-- The entries for all blocks of a content, and none besides. -/
theorem setEntries_range (enc : Nat → Str) (count : Nat) :
    SDK.setEntries enc ((Finset.range count).sort (· ≤ ·)) (SDK.resize [] count) =
      (List.range count).map enc := by
  have hlength : (SDK.resize [] count).length = count := by simp [SDK.resize]
  refine List.ext_getElem? fun k ↦ ?_
  by_cases hk : k < count
  · have hmem : k ∈ (Finset.range count).sort (· ≤ ·) :=
      (Finset.mem_sort _).mpr (Finset.mem_range.mpr hk)
    rw [SDK.getElem?_setEntries enc _ (by rwa [hlength]), if_pos hmem, List.getElem?_map,
      List.getElem?_range hk, Option.map_some]
  · rw [List.getElem?_eq_none (by rw [SDK.length_setEntries, hlength]; omega),
      List.getElem?_eq_none (by rw [List.length_map, List.length_range]; omega)]

variable {d : Shards} {outcomes : List Bool} {content : Str}

/-- From the entries for its blocks, the content is decoded. -/
theorem Shards.Stores.decodes {count : Nat} (h : d.Stores storage outcomes (chunks n count content))
    {j : Inode} (hstorage : j.storageType = some storage)
    (hsub : j.sub = (List.range count).map fun i ↦
      (d.toDatanodes outcomes).entry (some storage) (chunk n content i)) :
    SDK.Decodes (d.toDatanodes outcomes) j (chunks n count content) := by
  rw [SDK.Decodes, hstorage, hsub, chunks, List.forall₂_map_left_iff, List.forall₂_map_right_iff,
    List.forall₂_same]
  intro i hi
  obtain ⟨s, hencode, hdecode⟩ := h.encode_ok (List.mem_map_of_mem hi)
  rwa [Datanodes.entry, hencode]

/-- A block size that is positive, as a number. -/
theorem NewFile.blockSize_eq (h : NewFile path storage inode v) :
    inode.getBlockSize = (toUInt64 storage.getBlockSize : Nat) ∧
      0 < toUInt64 storage.getBlockSize := by
  rw [Inode.getBlockSize, h.storageType]
  exact StorageType.blockSize_eq h.blockSize

variable {parts : List Str} {during : List Action}

/-- The request for a content that is written from its start. -/
theorem fsyncRequest_written {nodes : Datanodes} {count : Nat} (hn : inode.getBlockSize = n)
    (hpos : 0 < n) (hzero : inode.filesize = 0) (hsub : inode.sub = [])
    (hstorage : inode.storageType = some storage) (hsmall : content.length < 2 ^ 31)
    (hcount : count = content.length / n + 1) :
    SDK.fsyncRequest path nodes inode (writtenFiles n count content) (Finset.range count)
        (content.length / n) =
      ⟨path, content.length, (List.range count).map fun i ↦
        nodes.entry (some storage) (chunk n content i)⟩ := by
  have hcontents : ∀ i, (writtenFiles n count content i).getD [] = chunk n content i :=
    fun i ↦ getD_writtenFiles (.inr hcount) hpos
  simp only [SDK.fsyncRequest, hcontents, hsub, hstorage, ← hcount, setEntries_range]
  rw [writtenSize_chunk hn hpos hzero hsmall, toUInt64_toInt32 hsmall]

/-- What a `close` commits after the blocks of a content were written. -/
theorem NewFile.close_run {u : View} {t : TmpDir} {count deadline : Nat}
    (h : NewFile path storage inode v) (hn : toUInt64 storage.getBlockSize = n)
    (hsmall : content.length < 2 ^ 31) (hcount : Covers n count content)
    (hd : d.Stores storage outcomes (chunks n count content))
    (hcache : u.sdk.cache path = some { inode with ddlLock := deadline })
    (hlookup : RocksDB.lookup u.leader.store (simplifyPath path) =
      some { inode with ddlLock := deadline })
    (hpending : ∀ q ∈ u.leader.pending, q.entry.Spares (simplifyPath path))
    (hdir : u.sdk.dirs (u.sdk.tmpPath path) = some t)
    (hshows : t.Shows (writtenFiles n count content) (Finset.range count))
    (hduring : ∀ a ∈ during, a.Spares (simplifyPath path))
    (hput : ∀ filesize sub, ∃ entry l,
      u.leader.rpc (.putOk ⟨path, filesize, sub⟩) during = some (.ok entry, l)) :
    ∃ commit w j, (SDK.close path (d.toDatanodes outcomes) during).run u = some (.ok commit, w) ∧
      (0 < count → commit ≠ none) ∧ w.progress = u.progress ∧
      Reaches Leader.step (fun _ _ ↦ True) u.leader w.leader ∧
      RocksDB.lookup w.leader.store (simplifyPath path) = some j ∧
      (∃ sub deadline', j =
        { inode with filesize := content.length, sub := sub, ddlLock := deadline' }) ∧
      SDK.Decodes (d.toDatanodes outcomes) j (chunks n count content) := by
  obtain ⟨hsize, hpos⟩ := h.blockSize_eq
  rw [hn] at hsize hpos
  rcases Nat.eq_zero_or_pos count with rfl | hsome
  · -- nothing was written, so nothing is committed
    obtain ⟨-, rfl⟩ : 0 = 0 ∧ content = [] := hcount.resolve_right (Nat.succ_ne_zero _).symm
    obtain ⟨w, hclose, hleader, hprogress, -⟩ := SDK.close_of_fsync
      (SDK.fsync_clean (d.toDatanodes outcomes) during hdir hshows)
    refine ⟨none, w, { inode with ddlLock := deadline }, hclose,
      fun hlt ↦ absurd hlt (Nat.lt_irrefl 0), hprogress, ?_, by rwa [hleader], ⟨[], deadline, ?_⟩,
      hd.decodes h.storageType h.sub⟩
    · rw [hleader]
      exact .refl
    · rw [List.length_nil, ← h.filesize, ← h.sub]
  · have hlast : count = content.length / n + 1 :=
      hcount.resolve_left fun hnone ↦ hsome.ne' hnone.1
    obtain ⟨entry, l, hrpc⟩ := hput content.length
      ((List.range count).map fun i ↦ (d.toDatanodes outcomes).entry (some storage) (chunk n content i))
    have hrequest : SDK.fsyncRequest path (d.toDatanodes outcomes) { inode with ddlLock := deadline }
        (writtenFiles n count content) (Finset.range count) (content.length / n) =
          ⟨path, content.length, (List.range count).map fun i ↦
            (d.toDatanodes outcomes).entry (some storage) (chunk n content i)⟩ :=
      fsyncRequest_written hsize hpos h.filesize h.sub h.storageType hsmall hlast
    have hencodes : ∀ i ∈ Finset.range count, ∃ s, (d.toDatanodes outcomes).encode
        ({ inode with ddlLock := deadline } : Inode).storageType
        ((writtenFiles n count content i).getD []) = .ok s := by
      intro i hi
      have hmem : chunk n content i ∈ chunks n count content :=
        List.mem_map_of_mem (List.mem_range.mpr (Finset.mem_range.mp hi))
      obtain ⟨s, hs, -⟩ := hd.encode_ok hmem
      rw [getD_writtenFiles hcount hpos]
      exact ⟨s, h.storageType ▸ hs⟩
    have hbound : content.length / n < 2 ^ 31 := (Nat.div_le_self _ _).trans_lt hsmall
    have hsent := hrpc
    rw [← hrequest] at hsent
    obtain ⟨commit, t', hfsync, -⟩ := SDK.fsync_run hcache hdir hshows
      (by rw [Finset.mem_range]; omega) (fun i hi ↦ by rw [Finset.mem_range] at hi; omega)
      hbound hencodes hsent
    obtain ⟨w, hclose, hleader, hprogress, -⟩ := SDK.close_of_fsync hfsync
    obtain ⟨hcommitted, -⟩ := Leader.rpc_putOk_spared hpending hduring hlookup hrpc
    refine ⟨some commit, w, _, hclose, by simp, hprogress, ?_, by rwa [hleader], ⟨_, 0, rfl⟩,
      hd.decodes h.storageType rfl⟩
    rw [hleader]
    exact Leader.reaches_of_rpc hrpc

/-- Whatever the parts are, the file that is closed after they were written one behind the other
has them as its content. -/
theorem sequential_writes_read_back (h : NewFile path storage inode v)
    (ho : OpenedForWriting path v v₁) (hsmall : parts.flatten.length < 2 ^ 31)
    (hn : toUInt64 storage.getBlockSize = n)
    (hd : d.Stores storage outcomes (chunks n (parts.flatten.length / n + 1) parts.flatten))
    (hduring : ∀ a ∈ during, a.Spares (simplifyPath path))
    (hput : ∀ filesize sub, ∃ entry l,
      v₁.leader.rpc (.putOk ⟨path, filesize, sub⟩) during = some (.ok entry, l)) :
    ∃ v₂ commit v₃,
      (SDK.writeAll path (d.toDatanodes outcomes) 0 parts).run v₁ = some (.ok (), v₂) ∧
      (SDK.close path (d.toDatanodes outcomes) during).run v₂ = some (.ok commit, v₃) ∧
      (parts ≠ [] → commit ≠ none) ∧
      (∃ sub deadline, RocksDB.lookup v₃.leader.store (simplifyPath path) =
        some { inode with filesize := parts.flatten.length, sub := sub, ddlLock := deadline }) ∧
      ∃ w, (SDK.get path v₃.leader.applied.length (d.toDatanodes outcomes)).run v₃ =
        some (.ok parts.flatten, w) := by
  obtain ⟨hsize, hpos⟩ := h.blockSize_eq
  rw [hn] at hsize hpos
  obtain ⟨⟨myIp, now, hleader⟩, hpending, hprogress, ⟨t, hdir, hshows⟩, deadline, hcache, hlookup⟩ :=
    h.opened ho
  have hshows₀ : t.Shows (writtenFiles n 0 []) (Finset.range 0) := hshows
  obtain ⟨count, t', hwrite, hcount, hsome, hnone, hshows'⟩ := SDK.writeAll_run
    (d.toDatanodes outcomes) [] parts hcache hsize hpos h.filesize hsmall
    (.inl ⟨rfl, rfl⟩) hdir hshows₀
  rw [List.nil_append] at hcount hshows'
  have hdir' : (v₁.setDir path t').sdk.dirs ((v₁.setDir path t').sdk.tmpPath path) = some t' :=
    View.dirs_setDir
  have hcovered : chunks n count parts.flatten =
      (chunks n (parts.flatten.length / n + 1) parts.flatten).take count := by
    refine (take_chunks ?_).symm
    rcases hcount with ⟨rfl, -⟩ | rfl
    · exact Nat.zero_le _
    · exact le_rfl
  have hd' : d.Stores storage outcomes (chunks n count parts.flatten) :=
    ⟨hd.printed, hd.nodes, hd.accepts, hd.code, fun block hb ↦
      hd.encodes block (List.mem_of_mem_take (hcovered ▸ hb))⟩
  obtain ⟨commit, v₃, j, hclose, hcommit, hkept, hreach, hstored, ⟨sub, deadline', rfl⟩, hdecodes⟩ :=
    h.close_run (u := v₁.setDir path t') hn hsmall hcount hd' hcache hlookup hpending hdir' hshows'
      hduring hput
  have hprogress₃ : v₃.progress ≤ v₃.leader.applied.length := by
    obtain ⟨records, happlied, -⟩ := Leader.applied_of_reaches hreach
    rw [hkept, happlied, List.length_append]
    exact hprogress.trans (Nat.le_add_right _ _)
  have hget := SDK.get_plain h.named (hleader.trans hreach) hprogress₃ hstored h.valid
    (by simp [h.storageType]) h.agg hdecodes
  have hwhole : (chunks n count parts.flatten).flatten = parts.flatten := by
    rw [flatten_chunks]
    refine List.take_of_length_le ?_
    rcases hcount with ⟨-, hnil⟩ | rfl
    · rw [hnil]
      exact Nat.zero_le _
    · exact (Nat.lt_mul_of_div_lt (Nat.lt_succ_self _) hpos).le
  rw [hwhole, resizeFile_eq_content (List.prefix_refl _)] at hget
  exact ⟨_, commit, v₃, hwrite, hclose, fun hparts ↦ hcommit (hsome hparts),
    ⟨sub, deadline', hstored⟩, _, hget⟩

end

/-- A datanode that keeps a block of three bytes, in one replica. -/
def abcShards : Shards where
  sha256sum _ := "BA7816BF8F01CFEA414140DE5DAE2223B00361A396177A9CB410FF61F20015AD".toList
  code := mirrorCode
  nodes := ["10.0.0.2:8002".toList]
  fetch _ _ := return "abc".toList

/-- A file that was made, but has no content yet. -/
def emptyInode : Inode :=
  { Inode.ofPath "/f".toList with valid := true, ddlLock := 1060, storageType := some (.re 1 1) }

def emptyPut : Option (Except Fault Entry × Leader) :=
  pairView.leader.rpc (.put ⟨"/f".toList, "RE<1,1>".toList⟩) [.apply]

def emptyView : View := { pairView with leader := (emptyPut.map (·.2)).getD pairView.leader }

def emptyOpen : Option (Except Fault Unit × View) :=
  (SDK.open "/f".toList 1 { lock := [.apply], seen := 2 }).run emptyView

def emptyOpened : View := (emptyOpen.map (·.2)).getD emptyView

theorem newFile_empty : NewFile "/f".toList (.re 1 1) emptyInode emptyView := by
  have hrun : ∃ entry, emptyPut = some (.ok entry, emptyView.leader) := ⟨_, rfl⟩
  obtain ⟨entry, hput⟩ := hrun
  refine ⟨by decide, ⟨_, _, Leader.reaches_of_rpc hput⟩, by decide +kernel, ?_, by decide +kernel, rfl,
    rfl, rfl, rfl, rfl, rfl, by decide, rfl⟩
  intro q hq
  cases hq

theorem opened_empty : OpenedForWriting "/f".toList emptyView emptyOpened := by
  refine ⟨1, { lock := [.apply], seen := 2 }, by decide, ?_, rfl, by decide +kernel⟩
  intro a ha
  obtain rfl := List.mem_singleton.mp ha
  exact trivial

theorem abcShards_stores : abcShards.Stores (.re 1 1) [true] (chunks 1048576 1 "abc".toList) := by
  refine ⟨⟨fun _ ↦ ?_, ?_⟩, by decide, by simp, pairShards_faithful, ?_⟩
  · unfold abcShards
    rw [String.toList_ofList]
    exact ⟨List.cons_ne_nil _ _, List.all_eq_true.mp rfl⟩
  · exact pairShards_printed.nodes
  · intro block hb
    obtain rfl : block = "abc".toList := by simpa [chunks, chunk] using hb
    exact ⟨["abc".toList], rfl, le_rfl, fun shard hs node _ ↦ by rw [List.mem_singleton.mp hs]; rfl⟩

/-- Three calls, one of them with nothing to write. -/
theorem sequential_writes_read_back_abc :
    ∃ v₂ commit v₃,
      (SDK.writeAll "/f".toList (abcShards.toDatanodes [true]) 0
        ["ab".toList, [], "c".toList]).run emptyOpened = some (.ok (), v₂) ∧
      (SDK.close "/f".toList (abcShards.toDatanodes [true]) [.apply]).run v₂ =
        some (.ok commit, v₃) ∧ commit ≠ none ∧
      ∃ w, (SDK.get "/f".toList v₃.leader.applied.length (abcShards.toDatanodes [true])).run v₃ =
        some (.ok "abc".toList, w) := by
  have hquiet : ∀ a ∈ [Action.apply], a.Spares (simplifyPath "/f".toList) := by
    intro a ha
    obtain rfl := List.mem_singleton.mp ha
    exact trivial
  have hsmall : ["ab".toList, [], "c".toList].flatten.length < 2 ^ 31 := by decide
  have hput : ∀ filesize sub, ∃ entry l, emptyOpened.leader.rpc
      (.putOk ⟨"/f".toList, filesize, sub⟩) [.apply] = some (.ok entry, l) :=
    fun _ _ ↦ ⟨_, _, rfl⟩
  obtain ⟨v₂, commit, v₃, hwrite, hclose, hcommit, -, hget⟩ :=
    sequential_writes_read_back newFile_empty opened_empty hsmall (by decide) abcShards_stores hquiet hput
  exact ⟨v₂, commit, v₃, hwrite, hclose, hcommit (by simp), hget⟩

end Spkdfs
