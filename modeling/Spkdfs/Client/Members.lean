import Spkdfs.Client.Aggregation

namespace Spkdfs

open Library Procedure Function

/-- The range of a file inside an aggregate passes for one more shard. -/
theorem decodeOneSub_range {pairs : List (Str × Str)} (hne : pairs ≠ [])
    (hpairs : ∀ pair ∈ pairs, Recordable pair) (first last : Nat) :
    decodeOneSub ([','].intercalate (pairs.map oneSub) ++
        ',' :: (toText first ++ '|' :: toText last)) =
      pairs ++ [(toText first, toText last)] := by
  have hrange : toText first ++ '|' :: toText last = ['|'].intercalate [toText first, toText last] := by
    rw [List.intercalate_cons_cons, List.intercalate_singleton]
    simp
  have hread : readNodeHash (toText first ++ '|' :: toText last) = (toText first, toText last) := by
    have hparts : ∀ part ∈ [toText first, toText last], part ≠ [] ∧ '|' ∉ part := by
      intro part hp
      simp only [List.mem_cons, List.not_mem_nil, or_false] at hp
      rcases hp with rfl | rfl
      · exact ⟨Nat.toDigits_ne_nil, notMem_toText (by decide) first⟩
      · exact ⟨Nat.toDigits_ne_nil, notMem_toText (by decide) last⟩
    rw [readNodeHash, hrange, getlines_intercalate (by simp) hparts]
    rfl
  have hparts : ∀ part ∈ pairs.map oneSub ++ [toText first ++ '|' :: toText last],
      part ≠ [] ∧ ',' ∉ part := by
    intro part hpart
    rcases List.mem_append.mp hpart with hpart | hpart
    · obtain ⟨pair, hp, rfl⟩ := List.mem_map.mp hpart
      exact (hpairs pair hp).printed.oneSub_separated
    · obtain rfl := List.mem_singleton.mp hpart
      simp [notMem_toText (c := ',') (by decide)]
  rw [← intercalate_concat ',' (by simpa using hne), decodeOneSub,
    getlines_intercalate (by simp) hparts, List.map_append, List.map_map, List.map_singleton, hread]
  refine congrArg (· ++ [(toText first, toText last)]) ?_
  exact (List.map_congr_left fun pair hp ↦ (hpairs pair hp).printed.readNodeHash_oneSub).trans pairs.map_id

/-- With the range behind it, the sub of the aggregate still is decoded to the data. -/
theorem Shards.Stores.decode_range {d : Shards} {storage : StorageType} {outcomes : List Bool}
    {data res : Str} (h : d.Stores storage outcomes [data])
    (hres : encodeOneBlock d.sha256sum storage d.nodes d.code outcomes data = some (.ok res))
    (first last : Nat) :
    d.decode (some storage) res = .ok data ∧
      d.decode (some storage) (res ++ ',' :: (toText first ++ '|' :: toText last)) = .ok data := by
  obtain ⟨shards, pairs, hencode, hfetch, hsub, hne, hrecord, hhashs, hnodes⟩ :=
    h.encoded (List.mem_singleton.mpr rfl)
  obtain rfl := Except.ok.inj (Option.some.inj (hres.symm.trans hsub))
  have hplain : decodeOneSub ([','].intercalate (pairs.map oneSub)) = pairs ++ [] := by
    rw [decodeOneSub_intercalate hne hrecord, List.append_nil]
  exact ⟨Shards.decode_recorded_append h.code hencode hplain hhashs hnodes hfetch,
    Shards.decode_recorded_append h.code hencode (decodeOneSub_range hne hrecord first last) hhashs
      hnodes hfetch⟩

/-- A file that is a range of an aggregate, in a state that the leader can reach. Every datanode
returns the shards of the aggregate, and no other request is about the path. -/
structure InAggregate (path : Str) (storage : StorageType) (d : Shards) (data : Str) (first : Nat)
    (j : Inode) (v : View) : Prop where
  named : path ≠ []
  leader : ∃ myIp now, Reaches Leader.step (fun _ _ ↦ True) (.start myIp now) v.leader
  progress : v.progress ≤ v.leader.applied.length
  pending : ∀ q ∈ v.leader.pending, q.entry.Spares (simplifyPath path)
  lookup : RocksDB.lookup v.leader.store (simplifyPath path) = some j
  valid : j.valid = true
  agg : j.aggInodeId ≠ []
  storageType : j.storageType = some storage
  blockSize : 0 < storage.getBlockSize
  stored : ∃ outcomes res, d.Stores storage outcomes [data] ∧
    encodeOneBlock d.sha256sum storage d.nodes d.code outcomes data = some (.ok res) ∧
    j.sub = [res ++ ',' :: (toText first ++ '|' :: toText (first + j.filesize))]
  within : first + j.filesize ≤ data.length
  small : first + j.filesize < 2 ^ 31
  filesize : j.filesize ≠ 0

namespace SDK

variable {inode : Inode} {nodes : Datanodes} {v : View} {path data content : Str}
  {n offset size : Nat}

/-- `read_data` of a file with one block: behind the block size it finds zeros. -/
theorem readData_single (hc : v.sdk.cache path = some inode) (hd : Decodes nodes inode [data])
    (hfiles : BlockFiles inode.fullpath.str [data] v) (hn : inode.getBlockSize = n) (hpos : 0 < n)
    (hin : offset + size ≤ inode.filesize) (hsmall : offset + size < 2 ^ 31)
    (hdata : offset + size ≤ data.length) :
    ∃ w, (readData path offset size nodes).run v = some
      (.ok (if offset < n then (data.drop offset).take size else List.replicate size '\x00'), w) := by
  obtain ⟨w, hread⟩ := readData_blocks hc hd hfiles hn hpos hin hsmall
  refine ⟨w, hread.trans ?_⟩
  rw [blocksRead, List.length_singleton]
  by_cases hfirst : offset < n
  · have hzero : offset / n = 0 := Nat.div_eq_of_lt hfirst
    have htake : [data].take ((offset + size) / n + 1) = [data] := List.take_of_length_le (by simp)
    rw [if_pos hfirst, hzero, htake, Nat.zero_mul, Nat.sub_zero, List.drop_zero,
      List.flatten_singleton, if_neg (by rw [List.length_append]; omega),
      List.drop_append_of_le_length (by omega),
      List.take_append_of_le_length (by rw [List.length_drop]; omega)]
  · have hle : n ≤ offset := Nat.le_of_not_lt hfirst
    have hone : 1 ≤ offset / n := (Nat.one_le_div_iff hpos).mpr hle
    have hnone : ([data].take ((offset + size) / n + 1)).drop (offset / n) = [] := by
      refine List.drop_eq_nil_of_le ?_
      rw [List.length_take, List.length_singleton]
      omega
    have hlt : offset + size < ((offset + size) / n + 1) * n :=
      Nat.lt_mul_of_div_lt (Nat.lt_succ_self _) hpos
    have hdown : offset / n * n ≤ offset := Nat.div_mul_le_self _ _
    rw [if_neg hfirst, hnone, Nat.max_eq_left hone, Nat.sub_mul, List.flatten_nil, List.nil_append,
      List.length_replicate, if_neg (by omega), List.drop_replicate, List.take_replicate,
      Nat.min_eq_left (by omega)]

theorem zeros_iff (hlength : content.length = size) :
    (∀ offset part, n ≤ offset → offset + part ≤ size →
      List.replicate part '\x00' = (content.drop offset).take part) ↔
      ∀ c ∈ content.drop n, c = '\x00' := by
  constructor
  · intro hagree c hc
    by_cases hlong : n ≤ size
    · have hrest := hagree n (size - n) le_rfl (by omega)
      rw [List.take_of_length_le (by rw [List.length_drop]; omega)] at hrest
      rw [← hrest] at hc
      exact List.eq_of_mem_replicate hc
    · rw [List.drop_eq_nil_of_le (by omega)] at hc
      cases hc
  · intro hzeros offset part hle hin
    refine (List.eq_replicate_iff.mpr ⟨?_, fun c hc ↦ hzeros c ?_⟩).symm
    · rw [List.length_take, List.length_drop]
      omega
    · exact (List.drop_sublist_drop_left _ hle).subset (List.mem_of_mem_take hc)

/-- A content is what `read_data` finds of a block that it begins, and zeros behind the block size. -/
theorem firstBlock_iff (hpos : 0 < n) (hlength : content.length = size) :
    (∀ offset part, offset + part ≤ size →
      (if offset < n then (data.drop offset).take part else List.replicate part '\x00') =
        (content.drop offset).take part) ↔
      content = data.take size ∧ ∀ c ∈ content.drop n, c = '\x00' := by
  rw [← zeros_iff hlength]
  constructor
  · intro hagree
    refine ⟨?_, fun offset part hle hin ↦ ?_⟩
    · have hwhole := hagree 0 size (by omega)
      rw [if_pos hpos, List.drop_zero, List.drop_zero, List.take_of_length_le hlength.le] at hwhole
      exact hwhole.symm
    · have hpart := hagree offset part hin
      rwa [if_neg (Nat.not_lt.mpr hle)] at hpart
  · rintro ⟨hpre, hzeros⟩ offset part hin
    split_ifs with hfirst
    · rw [hpre, List.drop_take, List.take_take, Nat.min_eq_left (by omega)]
    · exact hzeros offset part (Nat.le_of_not_lt hfirst) hin

end SDK

/-- `read_data` returns each part of the file that `get` writes. -/
def ReadPathsAgree (path : Str) (nodes : Datanodes) (v v' : View) : Prop :=
  ∃ content, (∃ w, (SDK.get path v.leader.applied.length nodes).run v = some (.ok content, w)) ∧
    ∀ offset size, offset + size ≤ content.length →
      ∃ w, (SDK.readData path offset size nodes).run v' =
        some (.ok ((content.drop offset).take size), w)

namespace InAggregate

variable {path : Str} {storage : StorageType} {d : Shards} {data : Str} {first : Nat} {j : Inode}
  {v v' : View} {n offset size : Nat}

theorem member (h : InAggregate path storage d data first j v) :
    (∃ res, SDK.Member (d.toDatanodes []) data res first j) ∧
      ∀ deadline, SDK.Decodes (d.toDatanodes []) { j with ddlLock := deadline } [data] := by
  obtain ⟨outcomes, res, hstores, hres, hsub⟩ := h.stored
  obtain ⟨hplain, hrange⟩ := hstores.decode_range hres first (first + j.filesize)
  refine ⟨⟨res, h.valid, h.agg, by simp [h.storageType], hsub, ?_, h.within, h.small⟩, fun _ ↦ ?_⟩
  · rw [h.storageType]
    exact hplain
  · rw [SDK.Decodes]
    simp only [h.storageType, hsub]
    exact .cons hrange .nil

theorem get_run (h : InAggregate path storage d data first j v) :
    ∃ w, (SDK.get path v.leader.applied.length (d.toDatanodes [])).run v =
      some (.ok (SDK.memberContent data first j.filesize), w) := by
  obtain ⟨⟨res, hmember⟩, -⟩ := h.member
  obtain ⟨myIp, now, hleader⟩ := h.leader
  have hget := hmember.get_run h.named hleader h.progress h.lookup
  rw [if_neg h.filesize] at hget
  exact ⟨_, hget⟩

theorem length (h : InAggregate path storage d data first j v) :
    (SDK.memberContent data first j.filesize).length = j.filesize := by
  obtain ⟨⟨res, hmember⟩, -⟩ := h.member
  exact hmember.length

theorem blockSize_eq (h : InAggregate path storage d data first j v) :
    j.getBlockSize = (toUInt64 storage.getBlockSize : Nat) ∧ 0 < toUInt64 storage.getBlockSize := by
  rw [Inode.getBlockSize, h.storageType]
  exact StorageType.blockSize_eq h.blockSize

theorem cached (h : InAggregate path storage d data first j v) (ho : Opened path v v') :
    ∃ deadline, v'.sdk.cache path = some { j with ddlLock := deadline } := by
  obtain ⟨flags, waits, hflags, hquiet, hopen, hseen⟩ := ho
  obtain ⟨myIp, now, hleader⟩ := h.leader
  exact SDK.open_cache h.named hflags h.pending hquiet hleader h.lookup h.valid hopen hseen

/-- `read_data` knows nothing of the range: it takes the whole aggregate for the first block. -/
theorem readData_run (h : InAggregate path storage d data first j v) (ho : Opened path v v')
    (hfiles : SDK.BlockFiles (simplifyPath path) [data] v') (hin : offset + size ≤ j.filesize) :
    ∃ w, (SDK.readData path offset size (d.toDatanodes [])).run v' = some
      (.ok (if offset < toUInt64 storage.getBlockSize then (data.drop offset).take size
        else List.replicate size '\x00'), w) := by
  obtain ⟨deadline, hc⟩ := h.cached ho
  obtain ⟨-, hdecodes⟩ := h.member
  obtain ⟨hn, hpos⟩ := h.blockSize_eq
  have hwithin := h.within
  have hsmall := h.small
  have hpath : j.fullpath.str = simplifyPath path := RocksDB.fullpath_of_lookup h.lookup
  rw [← hpath] at hfiles
  exact SDK.readData_single hc (hdecodes deadline) hfiles
    hn hpos hin (by omega) (by omega)

/-- Without the directory for its block files, nothing can be read. -/
theorem readData_absent (h : InAggregate path storage d data first j v) (ho : Opened path v v')
    (hdir : v'.sdk.dirs (v'.sdk.tmpPath (simplifyPath path)) = none) :
    (SDK.readData path 0 1 (d.toDatanodes [])).run v' =
      some (.error (.runtime ("openfile error:".toList ++
          v'.sdk.getTmpIndexPath (simplifyPath path) 0)),
        v'.holding (v'.sdk.getTmpIndexPath (simplifyPath path) 0)) := by
  obtain ⟨deadline, hc⟩ := h.cached ho
  obtain ⟨outcomes, res, -, -, hsub⟩ := h.stored
  obtain ⟨hn, hpos⟩ := h.blockSize_eq
  have hpath : j.fullpath.str = simplifyPath path := RocksDB.fullpath_of_lookup h.lookup
  rw [← hpath] at hdir ⊢
  have hne : j.sub ≠ [] := by
    rw [hsub]
    exact List.cons_ne_nil _ _
  have hrun := SDK.readData_absent (d.toDatanodes []) hc hne hn hpos h.filesize hdir
  exact hrun

/-- The two ways to read agree on a file that could as well be the first one of its aggregate, and
that has nothing but zeros behind the size of a block. -/
theorem readPathsAgree_iff (h : InAggregate path storage d data first j v) (ho : Opened path v v')
    (hcache : ∀ t, v.sdk.dirs (v.sdk.tmpPath (simplifyPath path)) = some t → t.Holds [data]) :
    ReadPathsAgree path (d.toDatanodes []) v v' ↔
      (v.sdk.dirs (v.sdk.tmpPath (simplifyPath path)) ≠ none ∨
        v.sdk.tmpPath (simplifyPath path) = v.sdk.tmpPath path) ∧
      SDK.memberContent data first j.filesize = data.take j.filesize ∧
      ∀ c ∈ (SDK.memberContent data first j.filesize).drop (toUInt64 storage.getBlockSize),
        c = '\x00' := by
  have hlength := h.length
  obtain ⟨-, hpos⟩ := h.blockSize_eq
  obtain ⟨w, hget⟩ := h.get_run
  constructor
  · rintro ⟨content, ⟨w', hget'⟩, hread⟩
    rw [hget'] at hget
    obtain rfl := Except.ok.inj (Prod.mk.inj (Option.some.inj hget)).1
    have hdir : v.sdk.dirs (v.sdk.tmpPath (simplifyPath path)) ≠ none ∨
        v.sdk.tmpPath (simplifyPath path) = v.sdk.tmpPath path := by
      by_contra hnot
      rw [not_or, not_not] at hnot
      have hsize := h.filesize
      obtain ⟨u, hu⟩ := hread 0 1 (by omega)
      rw [h.readData_absent ho (ho.no_blockFiles hnot.1 hnot.2)] at hu
      cases hu
    refine ⟨hdir, (SDK.firstBlock_iff hpos hlength).mp fun offset size hin ↦ ?_⟩
    obtain ⟨u, hu⟩ := hread offset size (by omega)
    obtain ⟨u', hu'⟩ := h.readData_run ho (ho.blockFiles hcache hdir) hin
    rw [hu'] at hu
    exact Except.ok.inj (Prod.mk.inj (Option.some.inj hu)).1
  · rintro ⟨hdir, hagree⟩
    refine ⟨_, ⟨w, hget⟩, fun offset size hin ↦ ?_⟩
    rw [hlength] at hin
    obtain ⟨u, hu⟩ := h.readData_run ho (ho.blockFiles hcache hdir) hin
    rw [(SDK.firstBlock_iff hpos hlength).mpr hagree offset size hin] at hu
    exact ⟨u, hu⟩

end InAggregate

/-- A file that is not empty is in the aggregate once it has been uploaded. -/
theorem AggregateUploaded.inAggregate {batch : List UploadTask} {localFiles : Str → Option Str}
    {storage : StorageType} {d : Shards} {c c' : Client} {t last : UploadTask}
    (h : AggregateUploaded batch localFiles storage d c c') (ht : t ∈ batch)
    (hlast : lastTask batch (simplifyPath t.remotePath) = some last)
    (hbeside : Beside batch (simplifyPath t.remotePath))
    (hne : Client.content localFiles last ≠ []) :
    ∃ first j, InAggregate t.remotePath storage d (batch.map (Client.content localFiles)).flatten
        first j c'.view ∧
      SDK.memberContent (batch.map (Client.content localFiles)).flatten first j.filesize =
        Client.content localFiles last := by
  obtain ⟨hleader, hprogress⟩ := h.reached
  have hnamed : t.remotePath ≠ [] := by
    intro hnil
    have hslash := h.slash ht
    rw [hnil] at hslash
    cases hslash
  obtain ⟨hmember, -⟩ := h.lookup ht hlast
  obtain ⟨j, res, first, hl, hj, hstorage, hsize, hcontent, ⟨outcomes, hstores, hres⟩, hpending⟩ :=
    hmember hbeside
  have hpos : 0 < (Client.content localFiles last).length := List.length_pos_of_ne_nil hne
  have hwithin := hj.within
  have hfits := h.fits
  refine ⟨first, j, ⟨hnamed, hleader, hprogress, hpending, hl, hj.valid, hj.agg, hstorage, by omega,
    ⟨outcomes, res, hstores, hres, hj.sub⟩, hwithin, hj.small, by omega⟩, hcontent⟩

def aggOpen (path : Str) : Option (Except Fault Unit × View) :=
  (SDK.open path oRdonly { seen := 6 }).run aggClient.view

def aggOpened (path : Str) : View := ((aggOpen path).map (·.2)).getD aggClient.view

section

variable {path : Str}

theorem agg_opened
    (hopen : (aggOpen path).map (fun r ↦ (r.1, r.2.leader.applied.length)) = some (.ok (), 6)) :
    Opened path aggClient.view (aggOpened path) := by
  obtain ⟨⟨r, w⟩, hw, hr⟩ := Option.map_eq_some_iff.mp hopen
  obtain ⟨rfl, hlength⟩ := Prod.mk.inj hr
  have hview : aggOpened path = w := by
    rw [aggOpened, hw]
    rfl
  rw [hview]
  refine ⟨oRdonly, { seen := 6 }, by decide, ?_, hw, hlength.symm⟩
  intro a ha
  cases ha

end

theorem agg_uncached (path key : Str) :
    (aggClient.view.sdk.tmpPath path = "/data/fuse/".toList ++ path) ∧
      aggClient.view.sdk.dirs key = none := by
  obtain ⟨htmp, hdirs⟩ := aggregate_uploaded.dirs
  rw [htmp, hdirs]
  exact ⟨rfl, rfl⟩

theorem agg_member {t : UploadTask} (ht : t ∈ aggBatch)
    (hlast : lastTask aggBatch (simplifyPath t.remotePath) = some t)
    (hne : Client.content aggLocalFiles t ≠ []) (hpath : simplifyPath t.remotePath ≠ root) :
    ∃ first j, InAggregate t.remotePath (.agg 1 1 1) aggShards "abc".toList first j
        aggClient.view ∧
      SDK.memberContent "abc".toList first j.filesize = Client.content aggLocalFiles t := by
  have hdata : (aggBatch.map (Client.content aggLocalFiles)).flatten = "abc".toList := by decide
  rw [← hdata]
  exact aggregate_uploaded.inAggregate ht hlast (beside_agg _ hpath) hne

/-- The first file of the aggregate. -/
theorem read_paths_agree_first :
    ReadPathsAgree "/a".toList (aggShards.toDatanodes []) aggClient.view
      (aggOpened "/a".toList) := by
  obtain ⟨first, j, h, hcontent⟩ := agg_member
    (t := ⟨"/local/a".toList, "/a".toList, 1, [], some .smallFile, .waiting⟩) (by decide) (by decide)
    (by decide) (by decide)
  have hone : SDK.memberContent "abc".toList first j.filesize = "a".toList := hcontent
  have hsize : j.filesize = 1 := by
    rw [← h.length, hone]
    rfl
  refine (h.readPathsAgree_iff (agg_opened (by decide +kernel)) ?_).mpr
    ⟨.inr ?_, by rw [hone, hsize]; rfl, ?_⟩
  · intro t ht
    rw [(agg_uncached [] _).2] at ht
    cases ht
  · rw [(agg_uncached _ []).1, (agg_uncached _ []).1]
    rfl
  · have hblock : toUInt64 (StorageType.getBlockSize (.agg 1 1 1)) = 1048576 := by decide
    rw [hone, hblock, List.drop_eq_nil_of_le (by decide)]
    intro c hc
    cases hc

/-- The second file of the aggregate is `"bc"`, but `read_data` begins with the first one. -/
theorem not_read_paths_agree_second :
    AggregateUploaded aggBatch aggLocalFiles (.agg 1 1 1) aggShards aggStart aggClient ∧
      Opened "/b".toList aggClient.view (aggOpened "/b".toList) ∧
      (∃ w, (SDK.get "/b".toList aggClient.view.leader.applied.length
          (aggShards.toDatanodes [])).run aggClient.view = some (.ok "bc".toList, w)) ∧
      (∃ w, (SDK.readData "/b".toList 0 2 (aggShards.toDatanodes [])).run
          (aggOpened "/b".toList) = some (.ok "ab".toList, w)) ∧
      ¬ ReadPathsAgree "/b".toList (aggShards.toDatanodes []) aggClient.view
        (aggOpened "/b".toList) := by
  obtain ⟨first, j, h, hcontent⟩ := agg_member
    (t := ⟨"/local/b".toList, "/b".toList, 2, [], some .smallFile, .waiting⟩) (by decide) (by decide)
    (by decide) (by decide)
  have hpair : SDK.memberContent "abc".toList first j.filesize = "bc".toList := hcontent
  have hsize : j.filesize = 2 := by
    rw [← h.length, hpair]
    rfl
  have ho : Opened "/b".toList aggClient.view (aggOpened "/b".toList) := agg_opened (by decide +kernel)
  have hcache : ∀ t, aggClient.view.sdk.dirs
      (aggClient.view.sdk.tmpPath (simplifyPath "/b".toList)) = some t →
        t.Holds ["abc".toList] := by
    intro t ht
    rw [(agg_uncached [] _).2] at ht
    cases ht
  have hdir : aggClient.view.sdk.tmpPath (simplifyPath "/b".toList) =
      aggClient.view.sdk.tmpPath "/b".toList := by
    rw [(agg_uncached _ []).1, (agg_uncached _ []).1]
    rfl
  obtain ⟨w, hget⟩ := h.get_run
  rw [hpair] at hget
  have hin : 0 + 2 ≤ j.filesize := hsize.ge
  obtain ⟨u, hread⟩ := h.readData_run ho (ho.blockFiles hcache (.inr hdir)) hin
  have hpos : 0 < toUInt64 (StorageType.getBlockSize (.agg 1 1 1)) := by decide
  rw [if_pos hpos] at hread
  refine ⟨aggregate_uploaded, ho, ⟨w, hget⟩, ⟨u, hread⟩, ?_⟩
  rintro ⟨content, ⟨w', hget'⟩, hagree⟩
  rw [hget] at hget'
  obtain rfl := Except.ok.inj (Prod.mk.inj (Option.some.inj hget')).1
  obtain ⟨u', hread'⟩ := hagree 0 2 (by decide)
  rw [hread] at hread'
  exact absurd (Except.ok.inj (Prod.mk.inj (Option.some.inj hread')).1) (by decide)

end Spkdfs
