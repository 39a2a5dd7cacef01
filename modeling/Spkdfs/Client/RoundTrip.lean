import Spkdfs.Client.Reading

namespace Spkdfs

open Library Procedure Function

namespace SDK

/-- The local files while a path is opened: only its own directory changes, and keeps `H`. -/
structure Around (tmpPath : Str → Str) (path : Str) (dirs : Str → Option TmpDir)
    (H : TmpDir → Prop) (v : View) : Prop where
  tmpPath_eq : v.sdk.tmpPath = tmpPath
  others : ∀ key, key ≠ tmpPath path → v.sdk.dirs key = dirs key
  own : ∃ t, v.sdk.dirs (tmpPath path) = some t ∧ H t

section

variable {T : Str → Str} {path : Str} {D : Str → Option TmpDir} {H G : TmpDir → Prop}
  {v v' : View} {flags seen size : Nat} {waits : Waits} {during : List Action}

theorem Around.modifyDir {G : TmpDir → Prop} {f : TmpDir → TmpDir} (hf : ∀ t, H t → G (f t))
    (hv : Around T path D H v) :
    Around T path D G { v with
      sdk := { v.sdk with
        dirs := update v.sdk.dirs (v.sdk.tmpPath path) (some (f (v.sdk.dir path))) } } := by
  obtain ⟨t, ht, hH⟩ := hv.own
  have hT := hv.tmpPath_eq
  have hdir : v.sdk.dir path = t := by rw [SDK.dir, hT, ht, Option.getD_some]
  refine ⟨hT, fun key hkey ↦ ?_, f t, ?_, hf t hH⟩
  · show update v.sdk.dirs (v.sdk.tmpPath path) _ key = D key
    rw [hT, update_of_ne hkey, hv.others key hkey]
  · show update v.sdk.dirs (v.sdk.tmpPath path) _ (T path) = _
    rw [hT, update_self, hdir]

theorem keeps_around_modifyDir {f : TmpDir → TmpDir} (hf : ∀ t, H t → H (f t)) :
    Keeps (Around T path D H) (modifyDir path f) :=
  keeps_modify fun _ hv ↦ hv.modifyDir hf

theorem keeps_around_setCache (i : Option Inode) :
    Keeps (Around T path D H) (setCache path i) :=
  keeps_modify fun _ hv ↦ ⟨hv.tmpPath_eq, hv.others, hv.own⟩

theorem keeps_around_acquire (lock : PathLocks → Str → Option PathLocks) :
    Keeps (Around T path D H) (acquire lock path) := by
  intro v r v' hv h
  simp only [acquire, run_of, Option.map_eq_some_iff, Prod.mk.injEq] at h
  obtain ⟨locks, -, -, rfl⟩ := h
  exact ⟨hv.tmpPath_eq, hv.others, hv.own⟩

theorem keeps_around_rpc (req : Request) (during : List Action) :
    Keeps (Around T path D H) (rpc req during) := by
  intro v r v' hv h
  simp only [rpc, run_of, Option.map_eq_some_iff, Prod.mk.injEq] at h
  obtain ⟨⟨r', l⟩, -, -, rfl⟩ := h
  exact ⟨hv.tmpPath_eq, hv.others, hv.own⟩

theorem keeps_around_getRemoteInode (seen : Nat) :
    Keeps (Around T path D H) (getRemoteInode path seen) := by
  intro v r v' hv h
  simp only [getRemoteInode, run_of] at h
  split at h
  · simp only [Option.map_eq_some_iff, Prod.mk.injEq] at h
    obtain ⟨db, -, -, rfl⟩ := h
    exact ⟨hv.tmpPath_eq, hv.others, hv.own⟩
  · cases h

theorem keeps_around_updateInode {error : Option (Nat × Str)}
    (hremove : ∀ t indices, H t → H (t.removeAll indices)) :
    Keeps (Around T path D H) (updateInode path seen error) := by
  refine keeps_get.bind fun _ ↦ (keeps_around_setCache _).bind fun _ ↦
    (keeps_around_getRemoteInode _).bind fun _ ↦ Keeps.bind ?_ fun _ ↦ keeps_around_setCache _
  unfold removeBlocks
  split
  · exact (keeps_around_modifyDir fun t ht ↦ hremove t _ ht).bind fun _ ↦ keeps_throw _
  · exact keeps_around_modifyDir fun t ht ↦ hremove t _ ht

theorem openInode_eq (hflags : flags &&& oTrunc = 0) :
    openInode path flags waits =
      updateInode path waits.seen waits.removeAll >>= fun _ ↦ pure () := by
  rw [openInode, if_neg (not_not.mpr hflags)]

theorem keeps_around_truncate : Keeps (Around T path D H) (_truncate path size during) := by
  refine Keeps.bind ?_ fun inode ↦ ?_
  · refine keeps_get.bind fun u ↦ ?_
    split
    · exact keeps_throw _
    · exact keeps_pure _
  split
  · exact keeps_pure _
  split
  · exact keeps_stuck
  · refine (keeps_around_rpc _ _).bind fun _ ↦ ?_
    exact keeps_modify fun _ hv ↦ ⟨hv.tmpPath_eq, hv.others, hv.own⟩

theorem keeps_around_openInode (hremove : ∀ t indices, H t → H (t.removeAll indices)) :
    Keeps (Around T path D H) (openInode path flags waits) := by
  refine (keeps_around_updateInode hremove).bind fun _ ↦ ?_
  split
  · exact keeps_around_truncate
  · exact keeps_pure _

theorem keeps_around_writeLock : Keeps (Around T path D H) (writeLock path during) := by
  refine (keeps_around_acquire _).bind fun _ ↦ (keeps_around_rpc _ _).bind fun _ ↦ ?_
  exact keeps_modify fun _ hv ↦ ⟨hv.tmpPath_eq, hv.others, hv.own⟩

theorem around_made (hH : H (v.sdk.dir path)) :
    Around v.sdk.tmpPath path v.sdk.dirs H (v.setDir path (v.sdk.dir path)) :=
  ⟨rfl, fun _ hkey ↦ update_of_ne hkey .., _, update_self .., hH⟩

/-- What `open` does to the local files. In a write mode the directory `write` is made anew. -/
theorem open_around
    (hlocked : ∀ t, H t → G (if writeMode flags = true then t.clearWrite else t))
    (hremove : ∀ t indices, G t → G (t.removeAll indices)) (hH : H (v.sdk.dir path))
    (h : (SDK.open path flags waits).run v = some (.ok (), v')) :
    Around v.sdk.tmpPath path v.sdk.dirs G v' := by
  have hfirst := around_made hH
  obtain ⟨w, hlock, h⟩ := open_ok_run h
  refine keeps_around_openInode hremove _ _ _ ?_ h
  by_cases hw : writeMode flags = true
  · obtain ⟨u, hwrite, rfl⟩ := openLock_ok_write hw hlock
    have hu := keeps_around_writeLock _ _ _ hfirst hwrite
    refine hu.modifyDir fun t ht ↦ ?_
    have hG := hlocked t ht
    rwa [if_pos hw] at hG
  · rw [openLock, if_neg hw] at hlock
    have hw' := keeps_around_acquire _ _ _ _ hfirst hlock
    obtain ⟨t, ht, hown⟩ := hw'.own
    have hG := hlocked t hown
    rw [if_neg hw] at hG
    exact ⟨hw'.tmpPath_eq, hw'.others, t, ht, hG⟩

theorem open_others (h : (SDK.open path flags waits).run v = some (.ok (), v')) {key : Str}
    (hkey : key ≠ v.sdk.tmpPath path) : v'.sdk.dirs key = v.sdk.dirs key := by
  have hafter := open_around (H := fun _ ↦ True) (G := fun _ ↦ True) (fun _ _ ↦ trivial)
    (fun _ _ _ ↦ trivial) trivial h
  exact hafter.others key hkey

theorem open_tmpPath (h : (SDK.open path flags waits).run v = some (.ok (), v')) :
    v'.sdk.tmpPath = v.sdk.tmpPath :=
  (open_around (H := fun _ ↦ True) (G := fun _ ↦ True) (fun _ _ ↦ trivial) (fun _ _ _ ↦ trivial)
    trivial h).tmpPath_eq

end

section

variable {path : Str} {v v' : View} {flags : Nat} {waits : Waits} {j : Inode}

theorem ls_of_lookup {db : RocksDB} (hne : path ≠ [])
    (hl : RocksDB.lookup db (simplifyPath path) = some j) (hv : j.valid = true) :
    Namenode.ls db path = .ok j := by
  rw [Namenode.ls, if_neg hne]
  exact RocksDB.ls_eq_ok.mpr ⟨hl, hv⟩

/-- What an up-to-date slave answers. -/
theorem getRemoteInode_run {myIp : Str} {now : Nat} (hne : path ≠ [])
    (hleader : Reaches Leader.step (fun _ _ ↦ True) (.start myIp now) v.leader)
    (hprogress : v.progress ≤ v.leader.applied.length)
    (hl : RocksDB.lookup v.leader.store (simplifyPath path) = some j) (hv : j.valid = true) :
    (getRemoteInode path v.leader.applied.length).run v =
      some (.ok j, { v with progress := v.leader.applied.length }) := by
  have hreplica := Leader.replica_of_reaches hleader
  rw [getRemoteInode, run_of, if_pos ⟨hprogress, le_rfl⟩, hreplica, Option.map_some,
    ls_of_lookup hne hl hv]
  rfl

/-- `get` of a file of its own, with an up-to-date slave. -/
theorem get_plain {nodes : Datanodes} {blocks : List Str} {myIp : Str} {now : Nat} (hne : path ≠ [])
    (hleader : Reaches Leader.step (fun _ _ ↦ True) (.start myIp now) v.leader)
    (hprogress : v.progress ≤ v.leader.applied.length)
    (hl : RocksDB.lookup v.leader.store (simplifyPath path) = some j) (hv : j.valid = true)
    (hstorage : j.storageType ≠ none) (hagg : j.aggInodeId = []) (hd : Decodes nodes j blocks) :
    (SDK.get path v.leader.applied.length nodes).run v =
      some (.ok (resizeFile blocks.flatten j.filesize),
        { v with progress := v.leader.applied.length }) := by
  have hremote := getRemoteInode_run hne hleader hprogress hl hv
  have hblocks := mapM_eq_ok.mpr hd.flip
  rw [SDK.get, run_bind_ok hremote, if_neg hstorage, if_neg (not_not.mpr hagg), hblocks]
  rfl

/-- Under the lock, the leader has the inode with another deadline at most. -/
theorem openLock_lookup {w : View}
    (hpending : ∀ q ∈ v.leader.pending, q.entry.Spares (simplifyPath path))
    (hquiet : ∀ a ∈ waits.lock, a.Spares (simplifyPath path))
    (hl : RocksDB.lookup v.leader.store (simplifyPath path) = some j)
    (h : (openLock path flags waits).run v = some (.ok (), w)) :
    Reaches Leader.step (fun _ _ ↦ True) v.leader w.leader ∧
      (∀ q ∈ w.leader.pending, q.entry.Spares (simplifyPath path)) ∧
      ∃ deadline, RocksDB.lookup w.leader.store (simplifyPath path) =
        some { j with ddlLock := deadline } := by
  by_cases hw : writeMode flags = true
  · obtain ⟨-, ⟨f, g, hf, -⟩ | ⟨entry, hrpc, -⟩⟩ := openLock_run_write hw h
    · cases hf
    · obtain ⟨hlocked, hpending'⟩ := Leader.rpc_updateLock_spared hpending hquiet hl hrpc
      exact ⟨Leader.reaches_of_rpc hrpc, hpending', _, hlocked⟩
  · rw [openLock, if_neg hw] at h
    obtain ⟨-, hleader, -⟩ := acquire_run h
    rw [hleader]
    exact ⟨.refl, hpending, j.ddlLock, hl⟩

/-- An `open` that asks an up-to-date slave caches what the leader has. -/
theorem open_cache (hne : path ≠ []) (hflags : flags &&& oTrunc = 0)
    (hpending : ∀ q ∈ v.leader.pending, q.entry.Spares (simplifyPath path))
    (hquiet : ∀ a ∈ waits.lock, a.Spares (simplifyPath path))
    {myIp : Str} {now : Nat}
    (hleader : Reaches Leader.step (fun _ _ ↦ True) (.start myIp now) v.leader)
    (hl : RocksDB.lookup v.leader.store (simplifyPath path) = some j) (hv : j.valid = true)
    (h : (SDK.open path flags waits).run v = some (.ok (), v'))
    (hseen : waits.seen = v'.leader.applied.length) :
    ∃ deadline, v'.sdk.cache path = some { j with ddlLock := deadline } := by
  obtain ⟨-, f, hf⟩ | ⟨-, -, u, w, r, hu, -, hlock, ⟨f, -, hf⟩ | ⟨rfl, h⟩⟩ := open_stages h
  · cases hf
  · cases hf
  rw [← hu] at hpending hleader hl
  obtain ⟨hreach, -, deadline, hlocked⟩ := openLock_lookup hpending hquiet hl hlock
  rw [openInode_eq hflags] at h
  obtain ⟨_, x, hupdate, h⟩ := bind_ok h
  obtain ⟨-, rfl⟩ := Prod.mk.inj (Option.some.inj h)
  obtain ⟨db, hdb, hsame, ⟨⟨f, hf⟩, -⟩ | ⟨remote, -, -, hls, hcache⟩⟩ := updateInode_run hupdate
  · cases hf
  -- the slave has applied the whole log
  have hreplica := Leader.replica_of_reaches (hleader.trans hreach)
  rw [hseen, hsame, hreplica] at hdb
  obtain rfl := Option.some.inj hdb
  have hls' := ls_of_lookup hne hlocked hv
  rw [hls'] at hls
  obtain rfl := Except.ok.inj hls
  exact ⟨deadline, by rw [hcache, update_self]⟩

end

end SDK

/-- Every datanode returns each shard of the content when it is asked for it. -/
def Shards.Returns (d : Shards) (storage : StorageType) (content : Str) : Prop :=
  ∀ block ∈ splitAllBlock content (toUInt64 storage.getBlockSize), ∀ shards,
    storage.encode d.code block = .ok shards → ∀ shard ∈ shards, ∀ node ∈ d.nodes,
      d.fetch node (d.sha256sum shard) = .ok shard

/-- A `put` of the content under a path without an inode, all of whose requests succeed: every
datanode accepts its shards and returns them later, the codec decodes what it has encoded, and no
other request is about the path. -/
structure Uploaded (content path : Str) (storage : StorageType) (d : Shards) (v v' : View) :
    Prop where
  printed : d.Printed
  code : storage.Faithful d.code
  returns : d.Returns storage content
  blockSize : 0 < storage.getBlockSize
  leader : ∃ myIp now, Reaches Leader.step (fun _ _ ↦ True) (.start myIp now) v.leader
  progress : v.progress ≤ v.leader.applied.length
  fresh : RocksDB.lookup v.leader.store (simplifyPath path) = none
  pending : ∀ q ∈ v.leader.pending, q.entry.Spares (simplifyPath path)
  put : ∃ storageType outcomes waits, StorageType.fromString storageType = .ok storage ∧
    (∀ stored ∈ outcomes, stored = true) ∧
    (∀ a ∈ waits.put ++ waits.lock ++ waits.putOk, a.Spares (simplifyPath path)) ∧
    (SDK.put content path storageType d outcomes waits).run v = some (.ok [], v')

/-- The file is opened, not to truncate it, with an up-to-date slave. -/
def Opened (path : Str) (v v' : View) : Prop :=
  ∃ flags waits, flags &&& oTrunc = 0 ∧ (∀ a ∈ waits.lock, a.Spares (simplifyPath path)) ∧
    (SDK.open path flags waits).run v = some (.ok (), v') ∧
      waits.seen = v'.leader.applied.length

section

variable {path : Str} {blocks : List Str} {v v' : View}

/-- The file is opened under the path as it is given, and its blocks are looked for under the path
of the inode. -/
theorem Opened.blockFiles (ho : Opened path v v')
    (hcache : ∀ t, v.sdk.dirs (v.sdk.tmpPath (simplifyPath path)) = some t → t.Holds blocks)
    (hdir : v.sdk.dirs (v.sdk.tmpPath (simplifyPath path)) ≠ none ∨
      v.sdk.tmpPath (simplifyPath path) = v.sdk.tmpPath path) :
    SDK.BlockFiles (simplifyPath path) blocks v' := by
  obtain ⟨flags, waits, hflags, -, hopen, -⟩ := ho
  by_cases hsame : v.sdk.tmpPath (simplifyPath path) = v.sdk.tmpPath path
  · have hH : (v.sdk.dir path).Holds blocks := by
      rw [SDK.dir, ← hsame]
      cases ht : v.sdk.dirs (v.sdk.tmpPath (simplifyPath path)) with
      | none => exact TmpDir.holds_empty blocks
      | some t => exact hcache t ht
    have hafter := SDK.open_around (H := TmpDir.Holds blocks) (G := TmpDir.Holds blocks)
      (fun t ht ↦ by split <;> [exact ht.clearWrite; exact ht])
      (fun t indices ht ↦ ht.removeAll indices) hH hopen
    rw [SDK.BlockFiles, hafter.tmpPath_eq, hsame]
    exact hafter.own
  · obtain ⟨t, ht⟩ := Option.ne_none_iff_exists'.mp (hdir.resolve_right hsame)
    rw [SDK.BlockFiles, SDK.open_tmpPath hopen, SDK.open_others hopen hsame]
    exact ⟨t, ht, hcache t ht⟩

theorem Opened.no_blockFiles (ho : Opened path v v')
    (hdir : v.sdk.dirs (v.sdk.tmpPath (simplifyPath path)) = none)
    (hne : v.sdk.tmpPath (simplifyPath path) ≠ v.sdk.tmpPath path) :
    v'.sdk.dirs (v'.sdk.tmpPath (simplifyPath path)) = none := by
  obtain ⟨flags, waits, hflags, -, hopen, -⟩ := ho
  rw [SDK.open_tmpPath hopen, SDK.open_others hopen hne, hdir]

end

/-- `get` and `read_data` give the content back. -/
def ReadsBack (content path : Str) (nodes : Datanodes) (v v' : View) : Prop :=
  (∃ w, (SDK.get path v.leader.applied.length nodes).run v = some (.ok content, w)) ∧
    (content.length < 2 ^ 31 → ∀ offset size, offset + size < 2 ^ 64 →
      ∃ w, (SDK.readData path offset size nodes).run v' =
        some (.ok ((content.drop offset).take size), w))

section

variable {content path : Str} {storage : StorageType} {d : Shards} {v v₁ v₂ : View}

theorem Uploaded.stored (h : Uploaded content path storage d v v₁) :
    content ≠ [] ∧ ∃ sub, SDK.Stored content path storage d v v₁ sub := by
  obtain ⟨storageType, outcomes, waits, hstorage, hall, hspares, hput⟩ := h.put
  obtain ⟨storage', sub, hstorage', hne, hstored⟩ := SDK.put_ok h.printed hall h.fresh h.pending
    (fun a ha ↦ hspares a (by simp [ha])) (fun a ha ↦ hspares a (by simp [ha]))
    (fun a ha ↦ hspares a (by simp [ha])) hput
  rw [hstorage] at hstorage'
  obtain rfl := Except.ok.inj hstorage'
  exact ⟨hne, sub, hstored⟩

theorem StorageType.blockSize_eq (hpos : 0 < storage.getBlockSize) :
    storage.getBlockSize = (toUInt64 storage.getBlockSize : Int) ∧
      0 < toUInt64 storage.getBlockSize := by
  have hlt := storage.getBlockSize_lt
  have hmod : storage.getBlockSize % 2 ^ 64 = storage.getBlockSize :=
    Int.emod_eq_of_lt hpos.le (by omega)
  have heq : toUInt64 storage.getBlockSize = storage.getBlockSize.toNat := by
    rw [toUInt64, BitVec.toNat_ofInt]
    exact congrArg Int.toNat hmod
  rw [heq]
  omega

/-- The size of a block is counted in MiB. -/
theorem StorageType.le_blockSize (hpos : 0 < storage.getBlockSize) :
    1048576 ≤ toUInt64 storage.getBlockSize := by
  obtain ⟨heq, -⟩ := blockSize_eq hpos
  have hmib : ∀ b : Nat, 0 < (BitVec.ofNat 32 (b * 1024 * 1024)).toInt →
      1048576 ≤ (BitVec.ofNat 32 (b * 1024 * 1024)).toInt := by
    intro b hb
    rw [BitVec.toInt_eq_toNat_cond, BitVec.toNat_ofNat] at hb ⊢
    split_ifs at hb ⊢ <;> omega
  have hle : 1048576 ≤ storage.getBlockSize := by cases storage <;> exact hmib _ hpos
  omega

theorem Uploaded.blockSize_eq (h : Uploaded content path storage d v v₁) :
    storage.getBlockSize = (toUInt64 storage.getBlockSize : Int) ∧
      0 < toUInt64 storage.getBlockSize := StorageType.blockSize_eq h.blockSize

/-- The datanodes return the blocks of the content for the subs that were committed. -/
theorem Uploaded.decodes (h : Uploaded content path storage d v v₁) {sub : List Str}
    (hs : SDK.Stored content path storage d v v₁ sub) (inode : Inode)
    (hstorage : inode.storageType = some storage) (hsub : inode.sub = sub) :
    SDK.Decodes (d.toDatanodes []) inode
      (splitAllBlock content (toUInt64 storage.getBlockSize)) := by
  rw [SDK.Decodes, hstorage, hsub]
  obtain ⟨hlength, hget⟩ := List.forall₂_iff_get.mp hs.records
  refine List.forall₂_iff_get.mpr ⟨hlength, fun i hi hi' ↦ ?_⟩
  obtain ⟨shards, hencode, hrecord⟩ := hget i hi hi'
  exact Shards.decode_recorded h.code hencode hrecord
    (h.returns _ (List.get_mem _ _) shards hencode)

theorem length_resizeFile (s : Str) (size : Nat) : (resizeFile s size).length = size := by
  rw [resizeFile, List.length_append, List.length_take, List.length_replicate]
  omega

theorem getElem?_resizeFile {s : Str} {size i : Nat} (hi : i < size) :
    (resizeFile s size)[i]? = some ((s[i]?).getD '\x00') := by
  rw [resizeFile]
  by_cases hin : i < s.length
  · rw [List.getElem?_append_left (by rw [List.length_take]; omega), List.getElem?_take_of_lt hi,
      List.getElem?_eq_getElem hin, Option.getD_some]
  · rw [List.getElem?_append_right (by rw [List.length_take]; omega), List.length_take,
      List.getElem?_replicate, if_pos (by omega), List.getElem?_eq_none (Nat.le_of_not_lt hin),
      Option.getD_none]

theorem resizeFile_eq_content {s : Str} (h : content <+: s) : resizeFile s content.length = content := by
  obtain ⟨rest, rfl⟩ := h
  rw [resizeFile, List.take_left, List.length_append, Nat.sub_add_eq, Nat.sub_self, Nat.zero_sub,
    List.replicate_zero, List.append_nil]

/-- `get` gives the content back, whatever the length. -/
theorem Uploaded.get_run (h : Uploaded content path storage d v v₁) :
    ∃ w, (SDK.get path v₁.leader.applied.length (d.toDatanodes [])).run v₁ =
      some (.ok content, w) := by
  obtain ⟨hne, sub, hs⟩ := h.stored
  obtain ⟨-, hpos⟩ := h.blockSize_eq
  obtain ⟨-, hcontent⟩ := splitAllBlock_spec content hpos
  obtain ⟨myIp, now, hleader⟩ := h.leader
  have hprogress : v₁.progress ≤ v₁.leader.applied.length := by
    obtain ⟨records, happlied, -⟩ := Leader.applied_of_reaches hs.leader
    rw [hs.progress, happlied, List.length_append]
    exact h.progress.trans (Nat.le_add_right _ _)
  have hrun := SDK.get_plain hs.named (hleader.trans hs.leader) hprogress hs.lookup rfl
    (by simp [storedInode]) rfl (h.decodes hs (storedInode path storage content.length sub) rfl rfl)
  have hsize : (storedInode path storage content.length sub).filesize = content.length := rfl
  rw [hsize, resizeFile_eq_content hcontent] at hrun
  exact ⟨_, hrun⟩

/-- The inode that the opened file has. -/
theorem Uploaded.cached (h : Uploaded content path storage d v v₁) (ho : Opened path v₁ v₂)
    {sub : List Str} (hs : SDK.Stored content path storage d v v₁ sub) :
    ∃ deadline, v₂.sdk.cache path =
      some { storedInode path storage content.length sub with ddlLock := deadline } := by
  obtain ⟨flags, waits, hflags, hquiet, hopen, hseen⟩ := ho
  obtain ⟨myIp, now, hleader⟩ := h.leader
  exact SDK.open_cache hs.named hflags hs.pending hquiet (hleader.trans hs.leader) hs.lookup rfl
    hopen hseen

theorem Uploaded.blockFiles (h : Uploaded content path storage d v v₁) (ho : Opened path v₁ v₂)
    {blocks : List Str}
    (hcache : ∀ t, v.sdk.dirs (v.sdk.tmpPath (simplifyPath path)) = some t → t.Holds blocks)
    (hdir : v.sdk.dirs (v.sdk.tmpPath (simplifyPath path)) ≠ none ∨
      v.sdk.tmpPath (simplifyPath path) = v.sdk.tmpPath path) :
    SDK.BlockFiles (simplifyPath path) blocks v₂ := by
  obtain ⟨-, sub, hs⟩ := h.stored
  rw [← hs.dirs, ← hs.tmpPath] at hcache hdir
  exact ho.blockFiles hcache hdir

theorem Uploaded.no_blockFiles (h : Uploaded content path storage d v v₁) (ho : Opened path v₁ v₂)
    (hdir : v.sdk.dirs (v.sdk.tmpPath (simplifyPath path)) = none)
    (hne : v.sdk.tmpPath (simplifyPath path) ≠ v.sdk.tmpPath path) :
    v₂.sdk.dirs (v₂.sdk.tmpPath (simplifyPath path)) = none := by
  obtain ⟨-, sub, hs⟩ := h.stored
  rw [← hs.dirs, ← hs.tmpPath] at hdir
  rw [← hs.tmpPath] at hne
  exact ho.no_blockFiles hdir hne

theorem Uploaded.readData_run (h : Uploaded content path storage d v v₁) (ho : Opened path v₁ v₂)
    (hfiles : SDK.BlockFiles (simplifyPath path)
      (splitAllBlock content (toUInt64 storage.getBlockSize)) v₂)
    (hsmall : content.length < 2 ^ 31) {offset size : Nat} (hsum : offset + size < 2 ^ 64) :
    ∃ w, (SDK.readData path offset size (d.toDatanodes [])).run v₂ =
      some (.ok ((content.drop offset).take size), w) := by
  obtain ⟨-, sub, hs⟩ := h.stored
  obtain ⟨hn, hpos⟩ := h.blockSize_eq
  obtain ⟨hblocks, hcontent⟩ := splitAllBlock_spec content hpos
  obtain ⟨deadline, hcached⟩ := h.cached ho hs
  exact SDK.readData_run hcached (h.decodes hs _ rfl rfl) hfiles hn hpos hblocks.aligned hcontent rfl
    hsmall hsum

/-- The first block cannot be read without the directory. -/
theorem Uploaded.readData_absent (h : Uploaded content path storage d v v₁) (ho : Opened path v₁ v₂)
    (hdir : v₂.sdk.dirs (v₂.sdk.tmpPath (simplifyPath path)) = none) :
    (SDK.readData path 0 1 (d.toDatanodes [])).run v₂ =
      some (.error (.runtime ("openfile error:".toList ++
          v₂.sdk.getTmpIndexPath (simplifyPath path) 0)),
        v₂.holding (v₂.sdk.getTmpIndexPath (simplifyPath path) 0)) := by
  obtain ⟨hne, sub, hs⟩ := h.stored
  obtain ⟨hn, hpos⟩ := h.blockSize_eq
  obtain ⟨hblocks, hcontent⟩ := splitAllBlock_spec content hpos
  obtain ⟨deadline, hcached⟩ := h.cached ho hs
  have hsub : sub ≠ [] := by
    intro hnil
    have hzero := hs.records.length_eq
    rw [hnil, List.length_nil, List.length_eq_zero_iff] at hzero
    rw [hzero] at hcontent
    exact hne (List.prefix_nil.mp hcontent)
  have hsize : content.length ≠ 0 := fun hzero ↦ hne (List.length_eq_zero_iff.mp hzero)
  exact SDK.readData_absent _ hcached hsub hn hpos hsize hdir

/-- What was put is read back exactly, unless the directory for the block files is missing: `open`
makes it for the path that it is given, `read_data` uses the simplified one. -/
theorem read_back_iff (h : Uploaded content path storage d v v₁) (ho : Opened path v₁ v₂)
    (hcache : ∀ t, v.sdk.dirs (v.sdk.tmpPath (simplifyPath path)) = some t →
      t.Holds (splitAllBlock content (toUInt64 storage.getBlockSize))) :
    ReadsBack content path (d.toDatanodes []) v₁ v₂ ↔
      2 ^ 31 ≤ content.length ∨ v.sdk.dirs (v.sdk.tmpPath (simplifyPath path)) ≠ none ∨
        v.sdk.tmpPath (simplifyPath path) = v.sdk.tmpPath path := by
  constructor
  · intro hback
    by_contra hnot
    rw [not_or, not_or, not_not, Nat.not_le] at hnot
    obtain ⟨hsmall, hdir, hne⟩ := hnot
    obtain ⟨w, hread⟩ := hback.2 hsmall 0 1 (by decide)
    rw [h.readData_absent ho (h.no_blockFiles ho hdir hne)] at hread
    cases hread
  · intro hdir
    refine ⟨h.get_run, fun hsmall offset size hsum ↦ ?_⟩
    have hfiles := h.blockFiles ho hcache (hdir.resolve_left (by omega))
    exact h.readData_run ho hfiles hsmall hsum

end

/-- A file of two bytes in one replica: its block, the datanode that keeps it, and the hash of the
block. -/
def pairContent : Str := "ab".toList

def pairBlock : Str := "ab".toList ++ List.replicate 1048574 '\x00'

def pairHash : Str := "EE15A57F00C3F6C3C5DE29FF07C564E5D02F229FCD902990F5735FF36F7C5D41".toList

def pairShards : Shards where
  sha256sum _ := pairHash
  code := mirrorCode
  nodes := ["10.0.0.2:8002".toList]
  fetch _ _ := return pairBlock

def pairView : View := ⟨.start "10.0.0.1".toList 1000, 0, .new 0⟩

def pairPut (path : Str) : Option (Except Fault (List Fault) × View) :=
  (SDK.put pairContent path "RE<1,1>".toList pairShards [true] ⟨[.apply], [.apply], [.apply]⟩).run
    pairView

def pairStored (path : Str) : View := ((pairPut path).map (·.2)).getD pairView

def pairOpen (path : Str) : Option (Except Fault Unit × View) :=
  (SDK.open path oRdonly { seen := 3 }).run (pairStored path)

def pairOpened (path : Str) : View := ((pairOpen path).map (·.2)).getD pairView

theorem splitAllBlock_pair :
    splitAllBlock pairContent (toUInt64 (StorageType.getBlockSize (.re 1 1))) = [pairBlock] := by
  have hsize : toUInt64 (StorageType.getBlockSize (.re 1 1)) = 1048576 := by decide
  have hcopied : copyBlocks pairContent 1048576 0 = (List.replicate 1048576 '\x00', []) := rfl
  have hblock : memcpy (List.replicate 1048576 '\x00') pairContent 2 = pairBlock := by
    rw [memcpy, List.drop_replicate]
    rfl
  have hnums : pairContent.length / 1048576 = 0 := by decide
  have hrest : pairContent.length % 1048576 = 2 := by decide
  rw [hsize, splitAllBlock, hnums, hrest, hcopied, ← hblock]
  rfl

theorem pairShards_printed : pairShards.Printed where
  hash _ := by
    show pairHash ≠ [] ∧ ∀ c ∈ pairHash, c.isAlphanum = true
    unfold pairHash
    rw [String.toList_ofList]
    exact ⟨List.cons_ne_nil _ _, List.all_eq_true.mp rfl⟩
  nodes name hname := by
    obtain rfl := List.mem_singleton.mp hname
    refine ⟨⟨"10.0.0.2".toList, 8002⟩, ?_⟩
    rw [String.toList_ofList, String.toList_ofList]
    exact ⟨⟨by decide, by decide, by decide, by decide⟩, by decide⟩

theorem pairShards_faithful : StorageType.Faithful pairShards.code (.re 1 1) := by
  intro block shards hencode
  obtain rfl := Except.ok.inj hencode
  exact ⟨le_rfl, le_rfl, rfl⟩

theorem pairShards_returns : pairShards.Returns (.re 1 1) pairContent := by
  intro block hb shards hencode shard hs node _
  rw [splitAllBlock_pair, List.mem_singleton] at hb
  obtain rfl := Except.ok.inj hencode
  rw [List.eq_of_mem_replicate hs, hb]
  rfl

section

variable {path : Str}

theorem pair_uploaded (hfresh : RocksDB.lookup pairView.leader.store (simplifyPath path) = none)
    (hput : (pairPut path).map (·.1) = some (.ok [])) :
    Uploaded pairContent path (.re 1 1) pairShards pairView (pairStored path) := by
  have hrun : pairPut path = some (.ok [], pairStored path) := by
    obtain ⟨⟨r, w⟩, hw, hr⟩ := Option.map_eq_some_iff.mp hput
    obtain rfl : r = .ok [] := hr
    rw [pairStored, hw]
    rfl
  refine ⟨pairShards_printed, pairShards_faithful, pairShards_returns, by decide, ⟨_, _, .refl⟩,
    le_rfl, hfresh, ?_, "RE<1,1>".toList, [true], ⟨[.apply], [.apply], [.apply]⟩, by decide, ?_, ?_,
    hrun⟩
  · intro q hq
    cases hq
  · intro stored hs
    exact List.mem_singleton.mp hs
  · intro a ha
    obtain rfl : a = .apply := by simpa using ha
    exact trivial

theorem pair_opened
    (hopen : (pairOpen path).map (fun r ↦ (r.1, r.2.leader.applied.length)) = some (.ok (), 3)) :
    Opened path (pairStored path) (pairOpened path) := by
  obtain ⟨⟨r, w⟩, hw, hr⟩ := Option.map_eq_some_iff.mp hopen
  obtain ⟨rfl, hlength⟩ := Prod.mk.inj hr
  have hview : pairOpened path = w := by
    rw [pairOpened, hw]
    rfl
  rw [hview]
  refine ⟨oRdonly, { seen := 3 }, by decide, ?_, hw, hlength.symm⟩
  intro a ha
  cases ha

end

theorem pairFile_uploaded : Uploaded pairContent "/f".toList (.re 1 1) pairShards pairView
    (pairStored "/f".toList) := pair_uploaded (by decide) (by decide +kernel)

theorem pairFile_opened : Opened "/f".toList (pairStored "/f".toList) (pairOpened "/f".toList) :=
  pair_opened (by decide +kernel)

/-- A path in its simplified form. -/
theorem read_back_iff_slash :
    ReadsBack pairContent "/f".toList (pairShards.toDatanodes []) (pairStored "/f".toList)
      (pairOpened "/f".toList) := by
  refine (read_back_iff pairFile_uploaded pairFile_opened ?_).mpr (.inr (.inr (by decide)))
  intro t ht
  cases ht

/-- The same file under a path with two slashes is opened, but its first byte cannot be read. -/
theorem not_read_back_double_slash :
    Uploaded pairContent "//f".toList (.re 1 1) pairShards pairView (pairStored "//f".toList) ∧
      Opened "//f".toList (pairStored "//f".toList) (pairOpened "//f".toList) ∧
      pairView.sdk.dirs (pairView.sdk.tmpPath (simplifyPath "//f".toList)) = none ∧
      (SDK.readData "//f".toList 0 1 (pairShards.toDatanodes [])).run (pairOpened "//f".toList) =
        some (.error (.runtime "openfile error:/data/fuse//f/0".toList),
          (pairOpened "//f".toList).holding "/data/fuse//f/0".toList) ∧
      ¬ ReadsBack pairContent "//f".toList (pairShards.toDatanodes []) (pairStored "//f".toList)
        (pairOpened "//f".toList) := by
  have h : Uploaded pairContent "//f".toList (.re 1 1) pairShards pairView
      (pairStored "//f".toList) := pair_uploaded (by decide) (by decide +kernel)
  have ho : Opened "//f".toList (pairStored "//f".toList) (pairOpened "//f".toList) :=
    pair_opened (by decide +kernel)
  have hdir := h.no_blockFiles ho rfl (by decide)
  have htmp : (pairOpened "//f".toList).sdk.getTmpIndexPath (simplifyPath "//f".toList) 0 =
      "/data/fuse//f/0".toList := by decide +kernel
  have hread := h.readData_absent ho hdir
  rw [htmp] at hread
  refine ⟨h, ho, rfl, hread, ?_⟩
  intro hback
  obtain ⟨w, hw⟩ := hback.2 (by decide) 0 1 (by decide)
  rw [hread] at hw
  cases hw

end Spkdfs
