import Spkdfs.Client.LockBalance
import Spkdfs.Client.Rewriting

namespace Spkdfs

open Library Procedure Function

/-- What `get` writes for an inode, before it sets the size. -/
def Inode.written (nodes : Datanodes) (j : Inode) : Except Fault Str :=
  if j.aggInodeId ≠ [] then SDK.getAggregated j nodes
  else do return (← j.sub.mapM (nodes.decode j.storageType)).flatten

def Inode.fetched (nodes : Datanodes) (j : Inode) : Except Fault Str :=
  (j.written nodes).map (resizeFile · j.filesize)

/-- A file of the leader with its content; no other request is about its path. -/
structure CommittedFile (path : Str) (nodes : Datanodes) (content : Str) (j : Inode) (v : View) :
    Prop where
  named : path ≠ []
  leader : ∃ myIp now, Reaches Leader.step (fun _ _ ↦ True) (.start myIp now) v.leader
  pending : ∀ q ∈ v.leader.pending, q.entry.Spares (simplifyPath path)
  lookup : RocksDB.lookup v.leader.store (simplifyPath path) = some j
  valid : j.valid = true
  storageType : j.storageType ≠ none
  fetched : j.fetched nodes = .ok content
  filesize : j.filesize = content.length

namespace SDK

variable {path : Str} {flags seen : Nat} {waits : Waits} {nodes : Datanodes} {v w : View}
  {i j : Inode}

theorem get_fetched {myIp : Str} {now : Nat} (hne : path ≠ [])
    (hleader : Reaches Leader.step (fun _ _ ↦ True) (.start myIp now) v.leader)
    (hprogress : v.progress ≤ v.leader.applied.length)
    (hl : RocksDB.lookup v.leader.store (simplifyPath path) = some j) (hv : j.valid = true)
    (hstorage : j.storageType ≠ none) :
    (SDK.get path v.leader.applied.length nodes).run v =
      some (j.fetched nodes, { v with progress := v.leader.applied.length }) := by
  rw [SDK.get, run_bind_ok (getRemoteInode_run hne hleader hprogress hl hv), if_neg hstorage,
    Inode.fetched, ← Inode.written]
  cases j.written nodes <;> rfl

/-- Without entries there is nothing to read, and no part of an aggregate. -/
theorem fetched_truncated (hsub : j.sub = []) (hsize : j.filesize = 0) :
    j.fetched nodes = if j.aggInodeId = [] then .ok [] else
      .error (.runtime "agg file sub is empty".toList) := by
  rw [Inode.fetched, Inode.written, hsize]
  by_cases hagg : j.aggInodeId = []
  · rw [if_neg (not_not.mpr hagg), if_pos hagg, hsub]
    rfl
  · rw [if_pos hagg, if_neg hagg, getAggregated, hsub]
    rfl

theorem truncateRequest_zero {req : NNPutOKRequest} (hpos : 0 < i.getBlockSize)
    (h : truncateRequest path i 0 = some req) : req = ⟨path, 0, []⟩ := by
  have hcount : (alignUp (toInt32 ((0 : Nat) : Int)) i.getBlockSize).toNat = 0 := by
    have hzero : toInt32 ((0 : Nat) : Int) = 0 := by decide
    rw [hzero, alignUp, zero_add, Int.tdiv_eq_ediv_of_nonneg (by omega),
      Int.ediv_eq_zero_of_lt (by omega) (by omega)]
    rfl
  rw [truncateRequest, hcount] at h
  split at h
  · cases h
  · exact (Option.some.inj h).symm

theorem locked_of_openLock (hmade : waits.mkdir = none)
    (h : (openLock path flags waits).run v = some (.ok (), w)) :
    v.leader.locked path flags waits = some w.leader := by
  rw [← Trace.erase_openLock] at h
  obtain ⟨trace, hrun⟩ := Traced.run_erase.mp h
  obtain ⟨-, -, -, ⟨f, hf, -⟩ | ⟨-, -, hlocked⟩⟩ := Trace.openLock_run hmade hrun
  · cases hf
  · exact hlocked

/-- An `open` that truncates what the slave answers with. The client goes on with the inode from
before the truncation. -/
theorem open_truncating (ht : flags &&& oTrunc ≠ 0)
    (hpending : ∀ q ∈ v.leader.pending, q.entry.Spares (simplifyPath path))
    (hquiet : ∀ a ∈ waits.lock ++ waits.truncate, a.Spares (simplifyPath path))
    (hl : RocksDB.lookup v.leader.store (simplifyPath path) = some j)
    (hpos : ∀ i, v.leader.openedInode path flags waits = some i → 0 < i.getBlockSize)
    (h : (SDK.open path flags waits).run v = some (.ok (), w)) :
    Reaches Leader.step (fun _ _ ↦ True) v.leader w.leader ∧
      (∀ q ∈ w.leader.pending, q.entry.Spares (simplifyPath path)) ∧
      w.progress ≤ w.leader.applied.length ∧
      ∃ i deadline, v.leader.openedInode path flags waits = some i ∧ w.sdk.cache path = some i ∧
        RocksDB.lookup w.leader.store (simplifyPath path) =
          some (if i.filesize = 0 then { j with ddlLock := deadline }
            else { j with ddlLock := 0, sub := [], filesize := 0 }) := by
  obtain ⟨-, f, hf⟩ | ⟨-, hmade, u, x, r, hu, -, hlock, ⟨f, -, hf⟩ | ⟨rfl, hinode⟩⟩ :=
    open_stages h
  · cases hf
  · cases hf
  have hlocked := locked_of_openLock hmade hlock
  rw [← hu] at hpending hl hpos ⊢
  obtain ⟨hreach, hpending', deadline, hlookup⟩ := openLock_lookup hpending
    (fun a ha ↦ hquiet a (List.mem_append_left _ ha)) hl hlock
  obtain ⟨_, y, hupdate, hcut⟩ := bind_ok hinode
  obtain ⟨db, hdb, hleader, ⟨⟨f, hf⟩, -⟩ | ⟨i, -, hremoved, hls, hcache⟩⟩ := updateInode_run hupdate
  · cases hf
  have hopened : u.leader.openedInode path flags waits = some i := by
    rw [Leader.openedInode, hlocked, Option.bind_some]
    exact Leader.remoteInode_eq hremoved hdb hls
  obtain ⟨hseen, hprogress⟩ := updateInode_seen hupdate
  have hc : y.sdk.cache path = some i := by rw [hcache, update_self]
  rw [if_pos ht, _truncate, run_bind_ok (getInode_ok.mpr ⟨hc, rfl⟩)] at hcut
  split at hcut
  · rename_i hzero
    obtain ⟨-, rfl⟩ := Prod.mk.inj (Option.some.inj hcut)
    rw [hleader, hprogress]
    refine ⟨hreach, hpending', hseen, i, deadline, hopened, hc, ?_⟩
    rw [if_pos hzero]
    exact hlookup
  rename_i hsize
  split at hcut
  · cases hcut
  rename_i req hreq
  obtain rfl := truncateRequest_zero (hpos i hopened) hreq
  obtain ⟨entry, z, hrpc, hunlock⟩ := bind_ok hcut
  obtain ⟨l, rfl, hput⟩ := rpc_ok hrpc
  obtain ⟨-, rfl⟩ := Prod.mk.inj (Option.some.inj hunlock)
  rw [hleader] at hput
  obtain ⟨hcommitted, hpending''⟩ := Leader.rpc_putOk_spared hpending'
    (fun a ha ↦ hquiet a (List.mem_append_right _ ha)) hlookup hput
  have hmore := Leader.reaches_of_rpc hput
  refine ⟨hreach.trans hmore, hpending'', ?_, i, deadline, hopened, hc, ?_⟩
  · obtain ⟨records, happlied, -⟩ := Leader.applied_of_reaches hmore
    show y.progress ≤ l.applied.length
    rw [hprogress, happlied, List.length_append]
    exact hseen.trans (Nat.le_add_right _ _)
  · rw [if_neg hsize]
    exact hcommitted

end SDK

/-- The leader has this size for the file, and `get` writes the content cut or filled up to it. -/
structure TruncatedTo (path : Str) (nodes : Datanodes) (content : Str) (size : Nat) (v : View) :
    Prop where
  filesize : ∃ i, RocksDB.lookup v.leader.store (simplifyPath path) = some i ∧ i.filesize = size
  reads : ∃ w, (SDK.get path v.leader.applied.length nodes).run v =
    some (.ok (resizeFile content size), w)

/-- `truncate` does not look at its size: it does as asked when there was something to truncate
and it is asked to truncate all of a file outside of aggregates, or there was nothing to truncate
and it is asked for the size that the file has. -/
theorem truncate_iff {path : Str} {size : Nat} {waits : Waits} {nodes : Datanodes} {content : Str}
    {j : Inode} {v w : View} (hfile : CommittedFile path nodes content j v)
    (hquiet : ∀ a ∈ waits.lock ++ waits.truncate, a.Spares (simplifyPath path))
    (hpos : ∀ i, v.leader.openedInode path (oWronly ||| oTrunc) waits = some i →
      0 < i.getBlockSize)
    (hrun : (SDK.truncate path size waits).run v = some (.ok (), w)) :
    TruncatedTo path nodes content size w ↔
      ∃ i, v.leader.openedInode path (oWronly ||| oTrunc) waits = some i ∧
        if i.filesize = 0 then size = content.length else size = 0 ∧ j.aggInodeId = [] := by
  obtain ⟨_, u, hopen, hunlock⟩ := bind_ok hrun
  obtain ⟨-, hw⟩ := Prod.mk.inj (Option.some.inj hunlock)
  have hsame : u.leader = w.leader := by rw [← hw]
  have hseen : u.progress = w.progress := by rw [← hw]
  obtain ⟨myIp, now, hleader⟩ := hfile.leader
  obtain ⟨hreach, -, hprogress, i, deadline, hopened, -, hlookup⟩ := SDK.open_truncating (by decide)
    hfile.pending hquiet hfile.lookup hpos hopen
  rw [hsame] at hreach hprogress hlookup
  rw [hseen] at hprogress
  have hget : ∀ k, RocksDB.lookup w.leader.store (simplifyPath path) = some k → k.valid = true →
      k.storageType ≠ none → (SDK.get path w.leader.applied.length nodes).run w =
        some (k.fetched nodes, { w with progress := w.leader.applied.length }) :=
    fun k hk hv hs ↦ SDK.get_fetched hfile.named (hleader.trans hreach) hprogress hk hv hs
  have hall : (∃ i, v.leader.openedInode path (oWronly ||| oTrunc) waits = some i ∧
      if i.filesize = 0 then size = content.length else size = 0 ∧ j.aggInodeId = []) ↔
        if i.filesize = 0 then size = content.length else size = 0 ∧ j.aggInodeId = [] := by
    simp only [hopened, Option.some.injEq, exists_eq_left']
  rw [hall]
  have hsizes : TruncatedTo path nodes content size w → ∀ k,
      RocksDB.lookup w.leader.store (simplifyPath path) = some k → k.filesize = size := by
    rintro ⟨⟨k', hk', hsize⟩, -⟩ k hk
    obtain rfl := Option.some.inj (hk.symm.trans hk')
    exact hsize
  by_cases hzero : i.filesize = 0
  · rw [if_pos hzero] at hlookup ⊢
    have hwhole : resizeFile content content.length = content :=
      resizeFile_eq_content (List.prefix_refl _)
    refine ⟨fun ht ↦ ?_, fun hsize ↦ ?_⟩
    · rw [← hsizes ht _ hlookup, ← hfile.filesize]
    · have hrun := hget _ hlookup hfile.valid hfile.storageType
      have hfetched : ({ j with ddlLock := deadline } : Inode).fetched nodes = .ok content :=
        hfile.fetched
      rw [hfetched] at hrun
      rw [hsize]
      exact ⟨⟨_, hlookup, hfile.filesize⟩, _, by rw [hwhole]; exact hrun⟩
  · rw [if_neg hzero] at hlookup ⊢
    have hrun := hget _ hlookup hfile.valid hfile.storageType
    rw [SDK.fetched_truncated rfl rfl] at hrun
    refine ⟨fun ht ↦ ⟨(hsizes ht _ hlookup).symm, ?_⟩, fun ⟨hsize, hagg⟩ ↦ ?_⟩
    · by_contra hagg
      obtain ⟨x, hx⟩ := ht.reads
      rw [hrun, if_neg hagg] at hx
      cases hx
    · have hnone : resizeFile content 0 = [] := by
        rw [resizeFile, List.take_zero, Nat.zero_sub]
        rfl
      rw [if_pos hagg] at hrun
      rw [hsize]
      exact ⟨⟨_, hlookup, rfl⟩, _, by rw [hnone]; exact hrun⟩

theorem Inode.Contains.fetched {storage : StorageType} {nodes : Datanodes} {content : Str}
    {blocks : List Str} {j : Inode} (h : j.Contains storage nodes content blocks) :
    j.fetched nodes = .ok content := by
  have hblocks : j.sub.mapM (nodes.decode j.storageType) = .ok blocks :=
    mapM_eq_ok.mpr h.decodes.flip
  rw [Inode.fetched, Inode.written, if_neg (not_not.mpr h.agg), hblocks]
  show Except.ok (resizeFile blocks.flatten j.filesize) = _
  rw [h.filesize, resizeFile_eq_content h.begins]

theorem StoredFile.committedFile {path : Str} {storage : StorageType} {nodes : Datanodes}
    {content : Str} {blocks : List Str} {j : Inode} {v : View}
    (h : StoredFile path storage nodes content blocks j v) :
    CommittedFile path nodes content j v where
  named := h.named
  leader := h.leader
  pending := h.pending
  lookup := h.lookup
  valid := h.contains.valid
  storageType := by simp [h.contains.storageType]
  fetched := h.contains.fetched
  filesize := h.contains.filesize

theorem pair_committed : ∃ j, CommittedFile "/f".toList (pairShards.toDatanodes [true]) pairContent j
    (pairStored "/f".toList) ∧ j.aggInodeId = [] := by
  obtain ⟨j, hstored⟩ : ∃ j, StoredFile "/f".toList (.re 1 1) (pairShards.toDatanodes [true])
      pairContent (splitAllBlock pairContent (toUInt64 (StorageType.getBlockSize (.re 1 1)))) j
        (pairStored "/f".toList) := pairFile_uploaded.storedFile ⟨rfl, rfl⟩
  exact ⟨j, hstored.committedFile, hstored.contains.agg⟩

def pairTruncate (size : Nat) : Option (Except Fault Unit × View) :=
  (SDK.truncate "/f".toList size { lock := [.apply], seen := 4, truncate := [.apply] }).run
    (pairStored "/f".toList)

theorem pair_truncated (size : Nat) : ∃ w i, pairTruncate size = some (.ok (), w) ∧
    RocksDB.lookup w.leader.store "/f".toList = some i ∧ i.filesize = 0 := by
  have hrun : (pairTruncate size).any (fun p ↦ p.1.toOption.isSome &&
      (RocksDB.lookup p.2.leader.store "/f".toList).any (·.filesize == 0)) = true :=
    (by decide +kernel : (pairTruncate 0).any (fun p ↦ p.1.toOption.isSome &&
      (RocksDB.lookup p.2.leader.store "/f".toList).any (·.filesize == 0)) = true)
  obtain ⟨⟨r, w⟩, hw, hrun⟩ := (Option.any_eq_true _ _).mp hrun
  rw [Bool.and_eq_true] at hrun
  obtain ⟨i, hi, hzero⟩ := (Option.any_eq_true _ _).mp hrun.2
  cases r with
  | error f => cases hrun.1
  | ok u => exact ⟨w, i, hw, hi, beq_iff_eq.mp hzero⟩

theorem truncate_to_nothing_pair : ∃ w, pairTruncate 0 = some (.ok (), w) ∧
    TruncatedTo "/f".toList (pairShards.toDatanodes [true]) pairContent 0 w := by
  obtain ⟨j, hfile, hagg⟩ := pair_committed
  obtain ⟨w, -, hrun, -⟩ := pair_truncated 0
  have hopened : ((pairStored "/f".toList).leader.openedInode "/f".toList (oWronly ||| oTrunc)
      { lock := [.apply], seen := 4, truncate := [.apply] }).map
        (fun i ↦ (i.getBlockSize, i.filesize)) = some (1048576, 2) := by
    decide +kernel
  obtain ⟨i, hi, hsizes⟩ := Option.map_eq_some_iff.mp hopened
  obtain ⟨hblock, hsize⟩ := Prod.mk.inj hsizes
  refine ⟨w, hrun, (truncate_iff hfile ?_ ?_ hrun).mpr ⟨i, hi, ?_⟩⟩
  · intro a ha
    rcases List.mem_pair.mp ha with rfl | rfl <;> trivial
  · intro k hk
    obtain rfl := Option.some.inj (hi.symm.trans hk)
    rw [hblock]
    decide
  · rw [hsize, if_neg (by decide)]
    exact ⟨rfl, hagg⟩

/-- A file of two bytes that is to be cut to one of them is empty afterwards. -/
theorem not_truncate_to_one_pair :
    (∃ j, CommittedFile "/f".toList (pairShards.toDatanodes [true]) "ab".toList j
      (pairStored "/f".toList)) ∧
    ∃ w, (SDK.truncate "/f".toList 1 { lock := [.apply], seen := 4, truncate := [.apply] }).run
        (pairStored "/f".toList) = some (.ok (), w) ∧
      ¬ TruncatedTo "/f".toList (pairShards.toDatanodes [true]) "ab".toList 1 w := by
  obtain ⟨j, hfile, -⟩ := pair_committed
  obtain ⟨w, i, hrun, hi, hzero⟩ := pair_truncated 1
  refine ⟨⟨j, hfile⟩, w, hrun, fun ht ↦ ?_⟩
  obtain ⟨k, hk, hsize⟩ := ht.filesize
  obtain rfl : i = k := Option.some.inj (hi.symm.trans hk)
  rw [hzero] at hsize
  cases hsize

end Spkdfs
