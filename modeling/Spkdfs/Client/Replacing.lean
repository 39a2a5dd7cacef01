import Spkdfs.Client.Freshness
import Spkdfs.Client.Overwrite
import Spkdfs.Client.Truncating

namespace Spkdfs

open Library Procedure Function

/-- The blocks that are fetched while parts are written one behind the other: a part reaches into
the block and ends in it, before the end of the old file. -/
def fetchedBlocks (n filesize : Nat) : Nat → List Str → List Nat
  | _, [] => []
  | offset, s :: rest =>
    (if offset + s.length < filesize ∧ offset / n ≠ (offset + s.length) / n ∧
        (offset + s.length) % n ≠ 0 then [(offset + s.length) / n] else []) ++
      fetchedBlocks n filesize (offset + s.length) rest

/-- What of the old file is in a block file, in front of the new data. -/
def leftover (found : Nat → Str) (blocks : List Str) (fetched : List Nat) (k : Nat) : Str :=
  if found k = [] ∧ k ∈ fetched then (blocks[k]?).getD [] else found k

theorem leftover_of_notMem {found : Nat → Str} {fetched : List Nat} {k : Nat} (blocks : List Str)
    (hk : k ∉ fetched) : leftover found blocks fetched k = found k :=
  if_neg fun hand ↦ hk hand.2

/-- Block files with the parts of a content behind what there was before. -/
structure TmpDir.Piled (t : TmpDir) (n : Nat) (base : Nat → Str) (count : Nat) (content : Str) :
    Prop where
  covers : Covers n count content
  shows : ∃ files, t.Shows files (Finset.range count) ∧
    ∀ k, (files k).getD [] = base k ++ chunk n content k

section

variable {path : Str} {nodes : Datanodes} {blocks : List Str} {j : Inode} {v : View} {t : TmpDir}
  {files : Nat → Option Str} {dirty : Finset Nat} {n count k : Nat} {content s : Str}
  {found : Nat → Str} {fetched : List Nat} {parts : List Str}

theorem SDK.fetchBlock_fill (hd : SDK.Decodes nodes j blocks) (hlocal : j.Local path v)
    (hdir : v.sdk.dirs (v.sdk.tmpPath path) = some t) (hshows : t.Shows files dirty) (k : Nat) :
    ∃ t' files', (fetchBlock j (k : Nat) nodes).run v = some (.ok (), v.setDir path t') ∧
      t'.Shows files' dirty ∧ ∀ i, (files' i).getD [] =
        if i = k ∧ (files k).getD [] = [] then (blocks[k]?).getD [] else (files i).getD [] := by
  by_cases hempty : (files k).getD [] = []
  · cases hblock : blocks[k]? with
    | some block =>
      obtain ⟨t', hrun, hshows'⟩ := fetchBlock_local hd hblock hlocal hdir hshows hempty
      refine ⟨t', _, hrun, hshows', fun i ↦ ?_⟩
      by_cases hi : i = k
      · rw [hi, update_self, if_pos ⟨rfl, hempty⟩]
      · rw [update_of_ne hi, if_neg fun hand ↦ hi hand.1]
    | none =>
      have hend : j.sub.length ≤ k := hd.length_eq ▸ List.getElem?_eq_none_iff.mp hblock
      refine ⟨t, files, ?_, hshows, fun i ↦ ?_⟩
      · rw [fetchBlock_skip nodes hlocal (.inr hend), View.setDir_self hdir]
      · by_cases hi : i = k
        · rw [hi, if_pos ⟨rfl, hempty⟩, hempty, Option.getD_none]
        · rw [if_neg fun hand ↦ hi hand.1]
  · refine ⟨t, files, ?_, hshows, fun i ↦ (if_neg fun hand ↦ hempty hand.2).symm⟩
    have hread : ((v.sdk.dir path).read k).getD [] ≠ [] := by
      rwa [View.dir_eq hdir, hshows.read]
    rw [fetchBlock_skip nodes hlocal (.inl hread), View.setDir_self hdir]

theorem length_chunk_last (content : Str) (hpos : 0 < n) :
    (chunk n content (content.length / n)).length = content.length % n := by
  have hdiv := Nat.div_add_mod content.length n
  rw [Nat.mul_comm] at hdiv
  have hlt := Nat.mod_lt content.length hpos
  rw [chunk, List.length_take, List.length_drop]
  omega

/-- The chunks of a content to which a part is appended. -/
theorem chunk_append_part (content s : Str) (hpos : 0 < n) (k : Nat) :
    chunk n content k ++ (if k ∈ Finset.Icc (content.length / n) ((content.length + s.length) / n)
      then SDK.dataPart n content.length s k else []) = chunk n (content ++ s) k := by
  by_cases hk : k ∈ Finset.Icc (content.length / n) ((content.length + s.length) / n)
  · rw [if_pos hk, chunk_append (Finset.mem_Icc.mp hk).1 hpos]
  · rw [if_neg hk, List.append_nil]
    rw [Finset.mem_Icc, not_and] at hk
    by_cases hbefore : k < content.length / n
    · rw [chunk_append_of_lt hbefore]
    · have hafter : (content ++ s).length < k * n := by
        have hlt := hk (Nat.le_of_not_lt hbefore)
        rw [← List.length_append] at hlt
        exact Nat.lt_mul_of_div_lt (Nat.lt_of_not_le hlt) hpos
      have hend : content.length ≤ k * n := by
        rw [List.length_append] at hafter
        omega
      rw [chunk_eq_nil hend, chunk_eq_nil hafter.le]

theorem TmpDir.Piled.dirtyBlocks {base : Nat → Str} (h : t.Piled n base count content) :
    (SDK.dirtyBlocks t).map (·.2) =
      (List.range count).map fun k ↦ base k ++ chunk n content k := by
  obtain ⟨files, hshows, hfiles⟩ := h.shows
  rw [hshows.dirtyBlocks, Finset.sort_range, List.map_map]
  exact List.map_congr_left fun k _ ↦ hfiles k

/-- A part is written behind the content. The block in which it ends is fetched if it has to be. -/
theorem TmpDir.Piled.write (h : t.Piled n (leftover found blocks fetched) count content)
    (hfetched : ∀ k ∈ fetched, k < count) (hc : v.sdk.cache path = some j)
    (hn : j.getBlockSize = n) (hpos : 0 < n) (hd : SDK.Decodes nodes j blocks)
    (hlocal : j.Local path v) (hdir : v.sdk.dirs (v.sdk.tmpPath path) = some t)
    (hsum : content.length + s.length < 2 ^ 31) :
    ∃ t', (SDK.writeData path content.length s nodes).run v = some (.ok (), v.setDir path t') ∧
      t'.Piled n (leftover found blocks
          (fetched ++ fetchedBlocks n j.filesize content.length [s]))
        ((content ++ s).length / n + 1) (content ++ s) := by
  obtain ⟨files, hshows, hfiles⟩ := h.shows
  -- the block in which the part begins is not empty when it would be fetched
  have hfirst : (if content.length < j.filesize ∧ content.length % n ≠ 0 then
      SDK.fetchBlock j (content.length / n : Nat) nodes else pure ()).run v = some (.ok (), v) := by
    by_cases hneed : content.length < j.filesize ∧ content.length % n ≠ 0
    · rw [if_pos hneed]
      refine SDK.fetchBlock_skip nodes hlocal (.inl fun hnil ↦ hneed.2 ?_)
      rw [View.dir_eq hdir, hshows.read, hfiles, List.append_eq_nil_iff] at hnil
      rw [← length_chunk_last content hpos, hnil.2, List.length_nil]
    · rw [if_neg hneed]
      rfl
  obtain ⟨t₁, files₁, hlast, hshows₁, hfiles₁⟩ : ∃ t₁ files₁,
      (if content.length + s.length < j.filesize ∧
          content.length / n ≠ (content.length + s.length) / n ∧
          (content.length + s.length) % n ≠ 0 then
        SDK.fetchBlock j ((content.length + s.length) / n : Nat) nodes else pure ()).run v =
          some (.ok (), v.setDir path t₁) ∧
      t₁.Shows files₁ (Finset.range count) ∧ ∀ k, (files₁ k).getD [] =
        leftover found blocks (fetched ++ fetchedBlocks n j.filesize content.length [s]) k ++
          chunk n content k := by
    by_cases hneed : content.length + s.length < j.filesize ∧
        content.length / n ≠ (content.length + s.length) / n ∧
        (content.length + s.length) % n ≠ 0
    · obtain ⟨t₁, files₁, hrun, hshows₁, hfiles₁⟩ :=
        SDK.fetchBlock_fill hd hlocal hdir hshows ((content.length + s.length) / n)
      refine ⟨t₁, files₁, by rw [if_pos hneed, hrun], hshows₁, fun k ↦ ?_⟩
      have horder : content.length / n < (content.length + s.length) / n :=
        lt_of_le_of_ne (Nat.div_le_div_right (Nat.le_add_right _ _)) hneed.2.1
      have hnone : chunk n content ((content.length + s.length) / n) = [] :=
        chunk_eq_nil (Nat.lt_mul_of_div_lt horder hpos).le
      have hnew : (content.length + s.length) / n ∉ fetched := fun hmem ↦ by
        have hlt := hfetched _ hmem
        rcases h.covers with ⟨rfl, -⟩ | rfl
        · exact absurd hlt (Nat.not_lt_zero _)
        · omega
      have hlist : fetchedBlocks n j.filesize content.length [s] =
          [(content.length + s.length) / n] := by
        rw [fetchedBlocks, fetchedBlocks, if_pos hneed]
        rfl
      rw [hfiles₁, hfiles ((content.length + s.length) / n), hnone, List.append_nil,
        leftover_of_notMem blocks hnew, hlist]
      by_cases hk : k = (content.length + s.length) / n
      · rw [hk, hnone, List.append_nil]
        by_cases hempty : found ((content.length + s.length) / n) = []
        · rw [if_pos ⟨rfl, hempty⟩, leftover, if_pos ⟨hempty, by simp⟩]
        · rw [if_neg fun hand ↦ hempty hand.2, hfiles, hnone, List.append_nil,
            leftover_of_notMem blocks hnew, leftover, if_neg fun hand ↦ hempty hand.1]
      · rw [if_neg fun hand ↦ hk hand.1, hfiles]
        have hmem : k ∈ fetched ++ [(content.length + s.length) / n] ↔ k ∈ fetched := by
          rw [List.mem_append, List.mem_singleton, or_iff_left hk]
        simp only [leftover, hmem]
    · have hlist : fetchedBlocks n j.filesize content.length [s] = [] := by
        rw [fetchedBlocks, fetchedBlocks, if_neg hneed]
        rfl
      refine ⟨t, files, ?_, hshows, ?_⟩
      · rw [if_neg hneed, View.setDir_self hdir]
        rfl
      · rwa [hlist, List.append_nil]
  obtain ⟨t', hrun, hshows'⟩ := SDK.writeData_fetched_run hc hn hpos hsum hfirst hlast
    View.dirs_setDir hshows₁
  rw [View.setDir_setDir] at hrun
  rw [h.covers.union_Icc] at hshows'
  refine ⟨t', hrun, .inr rfl, _, hshows', fun k ↦ ?_⟩
  rw [← chunk_append_part content s hpos k, ← List.append_assoc, ← hfiles₁ k, SDK.appended]
  split_ifs with hk
  · rw [Option.getD_some]
  · rw [List.append_nil]

theorem TmpDir.Piled.writeAll (h : t.Piled n (leftover found blocks fetched) count content)
    (hfetched : ∀ k ∈ fetched, k < count) (hc : v.sdk.cache path = some j)
    (hn : j.getBlockSize = n) (hpos : 0 < n) (hd : SDK.Decodes nodes j blocks)
    (hlocal : j.Local path v) (hdir : v.sdk.dirs (v.sdk.tmpPath path) = some t)
    (hsmall : (content ++ parts.flatten).length < 2 ^ 31) :
    ∃ count' t', (SDK.writeAll path nodes content.length parts).run v =
        some (.ok (), v.setDir path t') ∧ (parts ≠ [] ∨ 0 < count → 0 < count') ∧
      t'.Piled n (leftover found blocks
          (fetched ++ fetchedBlocks n j.filesize content.length parts))
        count' (content ++ parts.flatten) := by
  induction parts generalizing v t content count fetched with
  | nil =>
    refine ⟨count, t, ?_, fun hsome ↦ hsome.resolve_left fun hne ↦ hne rfl, ?_⟩
    · rw [View.setDir_self hdir]
      rfl
    · rw [fetchedBlocks, List.append_nil, List.flatten_nil, List.append_nil]
      exact h
  | cons s parts ih =>
    have hmore : (content ++ s ++ parts.flatten).length < 2 ^ 31 := by
      rwa [List.flatten_cons, ← List.append_assoc] at hsmall
    have hsum : content.length + s.length < 2 ^ 31 := by
      rw [List.length_append, List.length_append] at hmore
      omega
    obtain ⟨t₁, hwrite, hpiled⟩ := h.write hfetched hc hn hpos hd hlocal hdir hsum
    have hfetched₁ : ∀ k ∈ fetched ++ fetchedBlocks n j.filesize content.length [s],
        k < (content ++ s).length / n + 1 := by
      intro k hk
      rw [List.length_append]
      rcases List.mem_append.mp hk with hold | hnew
      · have hlt := hfetched k hold
        have horder : content.length / n ≤ (content.length + s.length) / n :=
          Nat.div_le_div_right (Nat.le_add_right _ _)
        rcases h.covers with ⟨rfl, -⟩ | rfl
        · omega
        · omega
      · rw [fetchedBlocks, fetchedBlocks, List.append_nil] at hnew
        split_ifs at hnew with hneed
        · rw [List.mem_singleton.mp hnew]
          exact Nat.lt_succ_self _
        · cases hnew
    obtain ⟨count', t', hrun, hsome, hpiled'⟩ := ih hpiled hfetched₁ (v := v.setDir path t₁) hc
      hlocal View.dirs_setDir hmore
    have hlist : fetched ++ fetchedBlocks n j.filesize content.length (s :: parts) =
        fetched ++ fetchedBlocks n j.filesize content.length [s] ++
          fetchedBlocks n j.filesize (content ++ s).length parts := by
      rw [fetchedBlocks, fetchedBlocks, fetchedBlocks, List.append_nil, List.append_assoc,
        List.length_append]
    rw [hlist, List.flatten_cons, ← List.append_assoc]
    refine ⟨count', t', ?_, fun _ ↦ hsome (.inr (Nat.succ_pos _)), hpiled'⟩
    rw [SDK.writeAll, run_bind_ok hwrite, ← List.length_append, hrun, View.setDir_setDir]

end

theorem toUInt64_toInt32_eq_iff {x size : Nat} (h : size < 2 ^ 31) :
    toUInt64 (toInt32 x) = size ↔ x % 2 ^ 32 = size := by
  rw [toUInt64_toInt32_eq]
  split_ifs <;> omega

theorem toUInt64_toInt32_ne (x : Nat) {size : Nat} (h : 2 ^ 31 ≤ size) (h' : size < 2 ^ 63) :
    toUInt64 (toInt32 x) ≠ size := by
  rw [toUInt64_toInt32_eq]
  split_ifs <;> omega

/-- The size that is committed is that of the content when nothing of the old file is in the last
block file and the old file was not longer, or when the old size alone comes to this. -/
theorem writtenSize_eq_iff {n rest : Nat} {content block : Str} {j : Inode}
    (hn : j.getBlockSize = n) (hsmall : content.length < 2 ^ 31)
    (hold : j.filesize < 2 ^ 63) (hrest : rest < 2 ^ 31)
    (hblock : block.length = rest + content.length % n) :
    toUInt64 (toInt32 (SDK.writtenSize j (content.length / n) block)) = content.length ↔
      j.filesize ≤ content.length ∧ rest = 0 ∨
        j.filesize % 2 ^ 32 = content.length ∧ content.length + rest ≤ j.filesize ∧
          rest + content.length % n < 2 ^ 31 := by
  have hdiv := Nat.div_add_mod content.length n
  rw [Nat.mul_comm] at hdiv
  rw [toUInt64_toInt32_eq_iff hsmall, SDK.writtenSize, SDK.toUInt64_getBlockSize hn, hblock,
    toUInt64_toInt32_eq]
  generalize content.length / n * n = start at hdiv ⊢
  generalize content.length % n = stop at hdiv ⊢
  split_ifs <;> omega

/-- A committed file, with whatever blocks of it the client has in its block files. The path is as
the kernel passes it. -/
structure CachedFile (path : Str) (storage : StorageType) (nodes : Datanodes) (content : Str)
    (blocks : List Str) (j : Inode) (v : View) : Prop extends
    CommittedFile path nodes content j v where
  canonical : simplifyPath path = path
  storage_eq : j.storageType = some storage
  blockSize : 0 < storage.getBlockSize
  agg : j.aggInodeId = []
  decodes : SDK.Decodes nodes j blocks
  fits : ∀ block ∈ blocks, block.length < 2 ^ 31
  sound : (v.sdk.dir path).Sound
  cached : ∀ k s, (v.sdk.dir path).read k = some s → s = [] ∨ blocks[k]? = some s

/-- The file is opened for writing and truncated, with an up-to-date slave. -/
def OpenedTruncating (path : Str) (v v' : View) : Prop :=
  ∃ flags waits, writeMode flags = true ∧ flags &&& oTrunc ≠ 0 ∧
    (∀ a ∈ waits.lock ++ waits.truncate, a.Spares (simplifyPath path)) ∧
    (∀ l, v.leader.locked path flags waits = some l → waits.seen = l.applied.length) ∧
    (SDK.open path flags waits).run v = some (.ok (), v')

/-- What the block files hold when the file has been opened, without those found to be stale. -/
def View.found (v : View) (path : Str) (j : Inode) (k : Nat) : Str :=
  if k ∈ SDK.staleBlocks ((v.sdk.cache path).getD (.ofPath [])) j then []
  else ((v.sdk.dir path).read k).getD []

/-- The client has the truncated file open, with the inode from before. -/
structure TruncatedFile (path : Str) (storage : StorageType) (nodes : Datanodes) (content : Str)
    (blocks : List Str) (j : Inode) (found : Nat → Str) (v : View) : Prop extends
    OpenedFile path storage nodes blocks j v where
  filesize : j.filesize = content.length
  blockSize : 0 < storage.getBlockSize
  own : ∃ t, v.sdk.dirs (v.sdk.tmpPath path) = some t ∧ t.Shows t.read ∅ ∧
    ∀ k, (t.read k).getD [] = found k
  here : j.Local path v
  emptied : ∃ i, RocksDB.lookup v.leader.store (simplifyPath path) = some i ∧ i.valid = true ∧
    i.storageType ≠ none ∧ i.filesize = 0 ∧ i.fetched nodes = .ok []

section

variable {path : Str} {storage : StorageType} {nodes : Datanodes} {content : Str}
  {blocks : List Str} {j : Inode} {v v₁ : View}

/-- An up-to-date slave answers an `open` with the inode of the leader. -/
theorem CommittedFile.openedInode {flags : Nat} {waits : Waits}
    (h : CommittedFile path nodes content j v)
    (hquiet : ∀ a ∈ waits.lock, a.Spares (simplifyPath path))
    (hseen : ∀ l, v.leader.locked path flags waits = some l → waits.seen = l.applied.length)
    {i : Inode} (hi : v.leader.openedInode path flags waits = some i) :
    ∃ deadline, i = { j with ddlLock := deadline } := by
  obtain ⟨myIp, now, hleader⟩ := h.leader
  obtain ⟨l, hlocked, hanswer⟩ := Option.bind_eq_some_iff.mp hi
  obtain ⟨hreach, deadline, hlookup⟩ : Reaches Leader.step (fun _ _ ↦ True) v.leader l ∧
      ∃ deadline, RocksDB.lookup l.store (simplifyPath path) =
        some { j with ddlLock := deadline } := by
    obtain ⟨entry, hrpc⟩ | rfl := Leader.locked_cases hlocked
    · obtain ⟨hlookup, -⟩ := Leader.rpc_updateLock_spared h.pending hquiet h.lookup hrpc
      exact ⟨Leader.reaches_of_rpc hrpc, _, hlookup⟩
    · exact ⟨.refl, j.ddlLock, h.lookup⟩
  rw [Leader.remoteInode, Option.ite_none_left_eq_some] at hanswer
  obtain ⟨-, hanswer⟩ := hanswer
  rw [hseen l hlocked, Leader.replica_of_reaches (hleader.trans hreach), Option.bind_some,
    SDK.ls_of_lookup h.named hlookup h.valid] at hanswer
  exact ⟨deadline, (Option.some.inj hanswer).symm⟩

theorem CachedFile.length_leftover (h : CachedFile path storage nodes content blocks j v)
    (fetched : List Nat) (k : Nat) :
    (leftover (v.found path j) blocks fetched k).length < 2 ^ 31 := by
  have hblocks : ∀ s, blocks[k]? = some s → s.length < 2 ^ 31 :=
    fun s hs ↦ h.fits s (List.mem_of_getElem? hs)
  have hread : (((v.sdk.dir path).read k).getD []).length < 2 ^ 31 := by
    cases hread : (v.sdk.dir path).read k with
    | none => decide
    | some s =>
      rcases h.cached k s hread with rfl | hs
      · decide
      · exact hblocks s hs
  have hfetched : ((blocks[k]?).getD []).length < 2 ^ 31 := by
    cases hblock : blocks[k]? with
    | none => decide
    | some s => exact hblocks s hblock
  rw [leftover]
  split_ifs
  · exact hfetched
  · rw [View.found]
    split_ifs
    · decide
    · exact hread

theorem CachedFile.opened (h : CachedFile path storage nodes content blocks j v)
    (ho : OpenedTruncating path v v₁) :
    ∃ deadline, TruncatedFile path storage nodes content blocks { j with ddlLock := deadline }
      (v.found path j) v₁ := by
  obtain ⟨flags, waits, hw, ht, hquiet, hseen, hopen⟩ := ho
  obtain ⟨myIp, now, hleader⟩ := h.leader
  have hquiet' : ∀ a ∈ waits.lock, a.Spares (simplifyPath path) :=
    fun a ha ↦ hquiet a (List.mem_append_left _ ha)
  obtain ⟨hreach, hpending, hprogress, i, deadline, hopened, hcache, hlookup⟩ := SDK.open_truncating ht
    h.pending hquiet h.lookup (fun i hi ↦ by
      obtain ⟨deadline, rfl⟩ := h.toCommittedFile.openedInode hquiet' hseen hi
      rw [Inode.getBlockSize, h.storage_eq]
      exact h.blockSize) hopen
  obtain ⟨deadline', rfl⟩ := h.toCommittedFile.openedInode hquiet' hseen hopened
  obtain ⟨remote, hremote, haround⟩ := SDK.open_dir hw hopen
  obtain rfl := Option.some.inj (hremote.symm.trans hcache)
  obtain ⟨t, hdir, rfl⟩ := haround.own
  have hcleared : (v.sdk.dir path).clearWrite.Sound := ⟨h.sound.apart, h.sound.below⟩
  have hremoved := (hcleared.shows rfl).removeAll
    (SDK.staleBlocks ((v.sdk.cache path).getD (.ofPath [])) { j with ddlLock := deadline' })
  have hfullpath : j.fullpath.str = path := (RocksDB.fullpath_of_lookup h.lookup).trans h.canonical
  have hdir' := hdir
  rw [← haround.tmpPath_eq] at hdir'
  refine ⟨deadline', ⟨h.named, ⟨myIp, now, hleader.trans hreach⟩, hprogress, hpending, ?_, hcache,
    h.storage_eq, h.decodes⟩, h.filesize, h.blockSize, ⟨_, hdir',
      (hcleared.removeAll _).shows rfl, fun k ↦ ?_⟩, congrArg _ hfullpath, ?_⟩
  · refine ⟨_, hlookup, ?_⟩
    split_ifs <;> exact ⟨h.valid, h.agg, h.storage_eq⟩
  · rw [hremoved.read]
    split_ifs with hk
    · exact (if_pos hk).symm
    · exact (if_neg hk).symm
  · refine ⟨_, hlookup, ?_⟩
    split_ifs with hzero
    · have hnil : content = [] := List.length_eq_zero_iff.mp (h.filesize.symm.trans hzero)
      exact ⟨h.valid, h.storageType, hzero, hnil ▸ h.fetched⟩
    · refine ⟨h.valid, h.storageType, rfl, ?_⟩
      rw [SDK.fetched_truncated rfl rfl, if_pos h.agg]

/-- The leader has the size of the content for the file, and `get` writes the content. -/
structure HoldsContent (path : Str) (nodes : Datanodes) (content : Str) (v : View) : Prop where
  filesize : ∃ i, RocksDB.lookup v.leader.store (simplifyPath path) = some i ∧
    i.filesize = content.length
  reads : ∃ w, (SDK.get path v.leader.applied.length nodes).run v = some (.ok content, w)

/-- The parts are written one behind the other, and the file is closed and has the content. -/
def ReplacedBy (content path : Str) (parts : List Str) (nodes : Datanodes) (during : List Action)
    (v : View) : Prop :=
  ∃ v₂ commit v₃, (SDK.writeAll path nodes 0 parts).run v = some (.ok (), v₂) ∧
    (SDK.close path nodes during).run v₂ = some (.ok commit, v₃) ∧ HoldsContent path nodes content v₃

/-- With this in front of the data in its block files, the new content can be read: it comes before
anything else, and the old size does not show. -/
def Replaceable (n oldSize : Nat) (base : Nat → Str) (content : Str) : Prop :=
  content.length < 2 ^ 31 ∧
    content <+: ((List.range (content.length / n + 1)).map fun k ↦
      base k ++ chunk n content k).flatten ∧
    (oldSize ≤ content.length ∧ (base (content.length / n)).length = 0 ∨
      oldSize % 2 ^ 32 = content.length ∧
        content.length + (base (content.length / n)).length ≤ oldSize ∧
          (base (content.length / n)).length + content.length % n < 2 ^ 31)

theorem ClosedFile.holdsContent_iff {filesize : Nat}
    (h : ClosedFile path storage nodes filesize blocks v) :
    HoldsContent path nodes content v ↔
      filesize = content.length ∧ resizeFile blocks.flatten filesize = content := by
  obtain ⟨i, hlookup, -, -, -, hsize, -⟩ := h.inode
  obtain ⟨w, hget⟩ := h.get_run
  constructor
  · rintro ⟨⟨i', hi', hsize'⟩, w', hget'⟩
    obtain rfl := Option.some.inj (hlookup.symm.trans hi')
    rw [hget] at hget'
    exact ⟨hsize.symm.trans hsize', Except.ok.inj (Prod.mk.inj (Option.some.inj hget')).1⟩
  · rintro ⟨hlength, hcontent⟩
    rw [hcontent] at hget
    exact ⟨⟨i, hlookup, hsize.trans hlength⟩, w, hget⟩

theorem resizeFile_eq_iff {s : Str} (hle : content.length ≤ s.length) :
    resizeFile s content.length = content ↔ content <+: s := by
  refine ⟨fun h ↦ ?_, resizeFile_eq_content⟩
  rw [resizeFile, Nat.sub_eq_zero_of_le hle, List.replicate_zero, List.append_nil] at h
  rw [← h]
  exact List.take_prefix _ _

theorem length_flatten_map_le (base part : Nat → Str) (indices : List Nat) :
    (indices.map part).flatten.length ≤
      (indices.map fun k ↦ base k ++ part k).flatten.length := by
  induction indices with
  | nil => exact le_rfl
  | cons k indices ih =>
    simp only [List.map_cons, List.flatten_cons, List.length_append]
    omega

variable {n : Nat} {parts : List Str} {found : Nat → Str}

/-- What is read after the close, when the parts are behind what was there before. -/
theorem readable_iff {files : Nat → Option Str} {base : Nat → Str} (hpos : 0 < n)
    (hfiles : ∀ k, (files k).getD [] = base k ++ chunk n content k) :
    resizeFile (blocksAfter blocks files (Finset.range (content.length / n + 1))
        (content.length / n)).flatten content.length = content ↔
      content <+: ((List.range (content.length / n + 1)).map fun k ↦
        base k ++ chunk n content k).flatten := by
  have hlength : content.length ≤ ((List.range (content.length / n + 1)).map fun k ↦
      base k ++ chunk n content k).flatten.length := by
    have hwhole := flatten_chunks n (content.length / n + 1) content
    rw [List.take_of_length_le (Nat.lt_mul_of_div_lt (Nat.lt_succ_self _) hpos).le] at hwhole
    have hle := length_flatten_map_le base (chunk n content) (List.range (content.length / n + 1))
    rwa [← chunks, hwhole] at hle
  have hflatten : (blocksAfter blocks files (Finset.range (content.length / n + 1))
      (content.length / n)).flatten = ((List.range (content.length / n + 1)).map fun k ↦
        base k ++ chunk n content k).flatten ++
          (blocks.drop (content.length / n + 1)).flatten := by
    rw [Nat.range_succ_eq_Icc_zero, blocksAfter_Icc (Nat.zero_le _), List.take_zero,
      List.nil_append, Nat.sub_zero, ← List.range_eq_range', List.flatten_append]
    simp only [hfiles]
  rw [hflatten, resizeFile_eq_iff (by rw [List.length_append]; omega)]
  refine ⟨fun h ↦ ?_, fun h ↦ h.trans (List.prefix_append _ _)⟩
  exact List.prefix_of_prefix_length_le h (List.prefix_append _ _) hlength

/-- The block files after the parts were written. -/
theorem TruncatedFile.writeAll_run (h : TruncatedFile path storage nodes content blocks j found v)
    (hn : toUInt64 storage.getBlockSize = n) (hsmall : parts.flatten.length < 2 ^ 31) :
    ∃ count t, (SDK.writeAll path nodes 0 parts).run v = some (.ok (), v.setDir path t) ∧
      (parts ≠ [] → 0 < count) ∧
      t.Piled n (leftover found blocks (fetchedBlocks n content.length 0 parts)) count
        parts.flatten := by
  obtain ⟨t, hdir, hshows, hfound⟩ := h.own
  obtain ⟨hsize, hpos⟩ := StorageType.blockSize_eq h.blockSize
  rw [hn] at hsize hpos
  have hblock : j.getBlockSize = n := by
    rw [Inode.getBlockSize, h.storageType]
    exact hsize
  have hstart : t.Piled n (leftover found blocks []) 0 [] :=
    ⟨.inl ⟨rfl, rfl⟩, t.read, hshows, fun k ↦ by
      rw [hfound, leftover_of_notMem blocks List.not_mem_nil, chunk_eq_nil (Nat.zero_le _),
        List.append_nil]⟩
  have hwhole : (([] : Str) ++ parts.flatten).length < 2 ^ 31 := by rwa [List.nil_append]
  obtain ⟨count, t', hrun, hsome, hpiled⟩ := hstart.writeAll (fun k hk ↦ by cases hk) h.cache hblock
    hpos h.decodes h.here hdir hwhole
  rw [h.filesize, List.nil_append, List.nil_append] at hpiled
  exact ⟨count, t', hrun, fun hne ↦ hsome (.inl hne), hpiled⟩

/-- Whatever the parts are, only local files change before the file is closed. -/
theorem SDK.writeAll_within {t : TmpDir} {files : Nat → Option Str} {dirty : Finset Nat}
    {offset : Nat} (hc : v.sdk.cache path = some j)
    (hdir : v.sdk.dirs (v.sdk.tmpPath path) = some t) (hshows : t.Shows files dirty)
    (h : (writeAll path nodes offset parts).run v = some (.ok (), v₁)) :
    Within path (fun t ↦ ∃ files dirty, t.Shows files dirty) v v₁ := by
  induction parts generalizing v t files dirty offset with
  | nil =>
    obtain ⟨-, rfl⟩ := Prod.mk.inj (Option.some.inj h)
    exact .start hdir ⟨files, dirty, hshows⟩
  | cons s parts ih =>
    obtain ⟨_, u, hwrite, hrest⟩ := bind_ok h
    have hu := writeData_within hc hdir hshows hwrite
    obtain ⟨t', hdir', files', dirty', hshows', -⟩ := hu.own
    have hrest' := ih (hu.cache ▸ hc) hdir' hshows' hrest
    exact ⟨hrest'.leader.trans hu.leader, hrest'.progress.trans hu.progress,
      hrest'.cache.trans hu.cache, hrest'.tmpPath.trans hu.tmpPath, hrest'.own⟩

/-- A `close` leaves the leader as it is, or commits a size that went through an `int`. -/
theorem OpenedFile.close_cases {t : TmpDir} {files : Nat → Option Str} {dirty : Finset Nat}
    {during : List Action} {commit : Option Commit}
    (h : OpenedFile path storage nodes blocks j v)
    (hdir : v.sdk.dirs (v.sdk.tmpPath path) = some t) (hshows : t.Shows files dirty)
    (hduring : ∀ a ∈ during, a.Spares (simplifyPath path))
    (hclose : (SDK.close path nodes during).run v = some (.ok commit, v₁)) :
    v₁.leader = v.leader ∨ ∃ i size, RocksDB.lookup v₁.leader.store (simplifyPath path) = some i ∧
      i.filesize = toUInt64 (toInt32 (size : Nat)) := by
  obtain ⟨u, hfsync⟩ := SDK.close_ok hclose
  obtain ⟨w, hw, hleader, -⟩ := SDK.close_of_fsync hfsync
  obtain ⟨-, rfl⟩ := Prod.mk.inj (Option.some.inj (hclose.symm.trans hw))
  rw [hleader]
  obtain ⟨-, rfl⟩ | ⟨last, entry, l, t', -, -, -, hput, rfl, -⟩ :=
    SDK.fsync_cases h.cache hdir hshows hfsync
  · exact .inl rfl
  · obtain ⟨remote, hlookup, -⟩ := h.remote
    obtain ⟨hcommitted, -⟩ := Leader.rpc_putOk_spared h.pending hduring hlookup hput
    exact .inr ⟨_, _, hcommitted, rfl⟩

variable {d : Shards} {outcomes : List Bool} {during : List Action}

/-- A content of 2 GiB or more cannot be committed. -/
theorem TruncatedFile.not_replacedBy_large
    (h : TruncatedFile path storage nodes content blocks j found v)
    (hlarge : 2 ^ 31 ≤ parts.flatten.length) (hbound : parts.flatten.length < 2 ^ 63)
    (hduring : ∀ a ∈ during, a.Spares (simplifyPath path)) :
    ¬ ReplacedBy parts.flatten path parts nodes during v := by
  rintro ⟨v₂, commit, v₃, hwrite, hclose, ⟨i, hi, hsize⟩, -⟩
  obtain ⟨t, hdir, hshows, -⟩ := h.own
  have hv := SDK.writeAll_within h.cache hdir hshows hwrite
  obtain ⟨t', hdir', files, dirty, hshows'⟩ := hv.own
  obtain hsame | ⟨i', size, hi', hsize'⟩ :=
    (h.toOpenedFile.within hv).close_cases hdir' hshows' hduring hclose
  · obtain ⟨e, he, -, -, hzero, -⟩ := h.emptied
    rw [hsame, hv.leader, he] at hi
    obtain rfl := Option.some.inj hi
    omega
  · rw [hi'] at hi
    obtain rfl := Option.some.inj hi
    exact toUInt64_toInt32_ne size hlarge hbound (hsize'.symm.trans hsize)

/-- When nothing is written, the file stays empty. -/
theorem TruncatedFile.replacedBy_nil
    (h : TruncatedFile path storage nodes content blocks j found v) :
    ReplacedBy [] path [] nodes during v := by
  obtain ⟨t, hdir, hshows, -⟩ := h.own
  obtain ⟨myIp, now, hleader⟩ := h.leader
  obtain ⟨i, hi, hvalid, hstorage, hzero, hfetched⟩ := h.emptied
  obtain ⟨w, hclose, hafter, hprogress, -⟩ :=
    SDK.close_of_fsync (SDK.fsync_clean nodes during hdir hshows)
  have hget : (SDK.get path w.leader.applied.length nodes).run w =
      some (i.fetched nodes, { w with progress := w.leader.applied.length }) :=
    SDK.get_fetched h.named (hafter ▸ hleader) (by rw [hafter, hprogress]; exact h.progress)
      (hafter ▸ hi) hvalid hstorage
  rw [hfetched] at hget
  exact ⟨v, none, w, rfl, hclose, ⟨i, hafter ▸ hi, hzero⟩, _, hget⟩

/-- A file that is opened to truncate it, and written from its start, has the new content if nothing
is written, or if what its block files held before and what is fetched into them does not show. -/
theorem replaced_iff
    (h : CachedFile path storage (d.toDatanodes outcomes) content blocks j v)
    (ho : OpenedTruncating path v v₁) (hn : toUInt64 storage.getBlockSize = n)
    (hold : content.length < 2 ^ 63) (hnew : parts.flatten.length < 2 ^ 63)
    (hd : ∀ v₂, (SDK.writeAll path (d.toDatanodes outcomes) 0 parts).run v₁ = some (.ok (), v₂) →
      d.Stores storage outcomes ((SDK.dirtyBlocks (v₂.sdk.dir path)).map (·.2)))
    (hduring : ∀ a ∈ during, a.Spares (simplifyPath path))
    (hput : ∀ filesize sub, ∃ entry l,
      v₁.leader.rpc (.putOk ⟨path, filesize, sub⟩) during = some (.ok entry, l)) :
    ReplacedBy parts.flatten path parts (d.toDatanodes outcomes) during v₁ ↔
      parts = [] ∨ Replaceable n content.length
        (leftover (v.found path j) blocks (fetchedBlocks n content.length 0 parts))
        parts.flatten := by
  obtain ⟨deadline, hfile⟩ := h.opened ho
  generalize ({ j with ddlLock := deadline } : Inode) = i at hfile
  by_cases hnone : parts = []
  · rw [hnone, List.flatten_nil]
    exact iff_of_true hfile.replacedBy_nil (.inl rfl)
  rw [or_iff_right hnone]
  by_cases hsmall : parts.flatten.length < 2 ^ 31
  swap
  · exact iff_of_false (hfile.not_replacedBy_large (Nat.le_of_not_lt hsmall) hnew hduring)
      fun hall ↦ hsmall hall.1
  obtain ⟨hsize, hpos⟩ := StorageType.blockSize_eq h.blockSize
  rw [hn] at hsize hpos
  have hblock : i.getBlockSize = n := by
    rw [Inode.getBlockSize, hfile.storageType]
    exact hsize
  obtain ⟨count, t, hwrite, hsome, hcovers, files, hshows, hfiles⟩ := hfile.writeAll_run hn hsmall
  have hcount : count = parts.flatten.length / n + 1 :=
    hcovers.resolve_left fun hzero ↦ (hsome hnone).ne' hzero.1
  rw [hcount] at hshows
  have hv : SDK.Within path (·.Shows files (Finset.range (parts.flatten.length / n + 1))) v₁
      (v₁.setDir path t) := ⟨rfl, rfl, rfl, rfl, t, View.dirs_setDir, hshows⟩
  have hlast : parts.flatten.length / n < 2 ^ 31 := (Nat.div_le_self _ _).trans_lt hsmall
  obtain ⟨commit, v₃, hclose, hclosed, -⟩ := (hfile.toOpenedFile.within hv).close_run
    View.dirs_setDir hshows (Finset.self_mem_range_succ _)
    (fun i hi ↦ Nat.lt_succ_iff.mp (Finset.mem_range.mp hi)) hlast (hd _ hwrite) hduring hput
  have hrest : (leftover (v.found path j) blocks (fetchedBlocks n content.length 0 parts)
      (parts.flatten.length / n)).length < 2 ^ 31 := h.length_leftover _ _
  have hend : ((files (parts.flatten.length / n)).getD []).length =
      (leftover (v.found path j) blocks (fetchedBlocks n content.length 0 parts)
        (parts.flatten.length / n)).length + parts.flatten.length % n := by
    rw [hfiles, List.length_append, length_chunk_last _ hpos]
  have hsizes := writtenSize_eq_iff hblock hsmall (by rw [hfile.filesize]; exact hold) hrest hend
  rw [hfile.filesize] at hsizes
  have hwhole : ReplacedBy parts.flatten path parts (d.toDatanodes outcomes) during v₁ ↔
      HoldsContent path (d.toDatanodes outcomes) parts.flatten v₃ := by
    constructor
    · rintro ⟨v₂', commit', v₃', hwrite', hclose', hholds⟩
      obtain ⟨-, rfl⟩ := Prod.mk.inj (Option.some.inj (hwrite'.symm.trans hwrite))
      obtain ⟨-, rfl⟩ := Prod.mk.inj (Option.some.inj (hclose'.symm.trans hclose))
      exact hholds
    · intro hholds
      exact ⟨_, commit, v₃, hwrite, hclose, hholds⟩
  rw [hwhole, hclosed.holdsContent_iff, hsizes, Replaceable]
  constructor
  · rintro ⟨hcommitted, hread⟩
    rw [hsizes.mpr hcommitted] at hread
    exact ⟨hsmall, (readable_iff hpos hfiles).mp hread, hcommitted⟩
  · rintro ⟨-, hprefix, hcommitted⟩
    rw [hsizes.mpr hcommitted]
    exact ⟨hcommitted, (readable_iff hpos hfiles).mpr hprefix⟩

end

theorem StoredFile.cachedFile {path : Str} {storage : StorageType} {nodes : Datanodes}
    {content : Str} {blocks : List Str} {j : Inode} {v : View}
    (h : StoredFile path storage nodes content blocks j v) (hpath : simplifyPath path = path) :
    CachedFile path storage nodes content blocks j v where
  toCommittedFile := h.committedFile
  canonical := hpath
  storage_eq := h.contains.storageType
  blockSize := h.contains.blockSize
  agg := h.contains.agg
  decodes := h.contains.decodes
  fits block hb := by
    have hsmall := storage.getBlockSize_lt
    rw [h.contains.uniform block hb]
    have hsize := (StorageType.blockSize_eq h.contains.blockSize).1
    omega
  sound := by
    refine ⟨fun i k file hi ↦ ?_, fun i file hi ↦ ?_⟩ <;>
    · rw [h.uncached.1, List.lookup_nil] at hi
      cases hi
  cached k s hs := by
    rw [TmpDir.read, h.uncached.1, List.lookup_nil, Option.map_none] at hs
    cases hs

def editTruncate (written : Str) : Option (Except Fault Unit × View) :=
  (SDK.open "/f".toList (oWronly ||| oTrunc)
    { lock := [.apply], seen := 4, truncate := [.apply] }).run (editStored written)

def editTruncated (written : Str) : View := ((editTruncate written).map (·.2)).getD pairView

def editReplace (written : Str) : Option (Except Fault (Option Commit) × View) :=
  (do SDK.writeAll "/f".toList (editNodes written) 0 [written]
      SDK.close "/f".toList (editNodes written) [.apply]).run (editTruncated written)

section

variable {written : Str}

theorem edit_truncated (hrun : (editTruncate written).any (·.1.toOption.isSome) = true)
    (hseen : ((editStored written).leader.locked "/f".toList (oWronly ||| oTrunc)
      { lock := [.apply], seen := 4, truncate := [.apply] }).map (·.applied.length) = some 4) :
    OpenedTruncating "/f".toList (editStored written) (editTruncated written) := by
  obtain ⟨⟨r, w⟩, hw, hr⟩ := (Option.any_eq_true _ _).mp hrun
  cases r with
  | error f => cases hr
  | ok u =>
    have hview : editTruncated written = w := by
      rw [editTruncated, hw]
      rfl
    rw [hview]
    refine ⟨oWronly ||| oTrunc, { lock := [.apply], seen := 4, truncate := [.apply] }, by decide,
      by decide, ?_, ?_, hw⟩
    · intro a ha
      rcases List.mem_pair.mp ha with rfl | rfl <;> trivial
    · intro l hl
      rw [hl] at hseen
      exact (Option.some.inj hseen).symm

theorem edit_cached (hne : pairBlock ≠ written)
    (hput : (editPut written).map (·.1) = some (.ok [])) :
    ∃ j, CachedFile "/f".toList (.re 1 1) (editNodes written) pairContent
      (splitAllBlock pairContent (toUInt64 (StorageType.getBlockSize (.re 1 1)))) j
        (editStored written) ∧ ∀ k, (editStored written).found "/f".toList j k = [] := by
  obtain ⟨j, hstored⟩ : ∃ j, StoredFile "/f".toList (.re 1 1) (editNodes written) pairContent
      (splitAllBlock pairContent (toUInt64 (StorageType.getBlockSize (.re 1 1)))) j
        (editStored written) := (edit_uploaded hne hput).storedFile ⟨rfl, rfl⟩
  refine ⟨j, hstored.cachedFile (by decide), fun k ↦ ?_⟩
  rw [View.found, TmpDir.read, hstored.uncached.1, List.lookup_nil, Option.map_none, Option.getD_none,
    ite_self]

end

/-- Two bytes are replaced by two others. -/
theorem replaced_pair :
    ReplacedBy "cd".toList "/f".toList ["cd".toList] (editNodes "cd".toList) [.apply]
      (editTruncated "cd".toList) := by
  have hput : (editPut "cd".toList).map (·.1) = some (.ok []) := by decide +kernel
  obtain ⟨j, hfile, hfound⟩ := edit_cached (by decide +kernel) hput
  have hopened : OpenedTruncating "/f".toList (editStored "cd".toList) (editTruncated "cd".toList) :=
    edit_truncated (by decide +kernel) (by decide +kernel)
  have hn : toUInt64 (StorageType.getBlockSize (.re 1 1)) = 1048576 := by decide
  have hnothing : ∀ k, leftover ((editStored "cd".toList).found "/f".toList j)
      (splitAllBlock pairContent (toUInt64 (StorageType.getBlockSize (.re 1 1))))
      (fetchedBlocks 1048576 pairContent.length 0 ["cd".toList]) k = [] := by
    intro k
    have hnone : fetchedBlocks 1048576 pairContent.length 0 ["cd".toList] = [] := by decide
    rw [hnone, leftover_of_notMem _ List.not_mem_nil, hfound]
  obtain ⟨deadline, htruncated⟩ := hfile.opened hopened
  have hstores : ∀ v₂, (SDK.writeAll "/f".toList (editNodes "cd".toList) 0 ["cd".toList]).run
      (editTruncated "cd".toList) = some (.ok (), v₂) →
        (editShards "cd".toList).Stores (.re 1 1) [true]
          ((SDK.dirtyBlocks (v₂.sdk.dir "/f".toList)).map (·.2)) := by
    intro v₂ hwrite
    have hsmall : ["cd".toList].flatten.length < 2 ^ 31 := by decide
    obtain ⟨count, t, hrun, hsome, hpiled⟩ := htruncated.writeAll_run hn hsmall
    obtain ⟨-, rfl⟩ := Prod.mk.inj (Option.some.inj (hwrite.symm.trans hrun))
    have hcount : count = 1 := hpiled.covers.resolve_left fun hzero ↦ absurd hzero.2 (by decide)
    rw [View.dir_setDir, hpiled.dirtyBlocks, hcount]
    have hblocks : (List.range 1).map (fun k ↦ leftover ((editStored "cd".toList).found "/f".toList j)
        (splitAllBlock pairContent (toUInt64 (StorageType.getBlockSize (.re 1 1))))
        (fetchedBlocks 1048576 pairContent.length 0 ["cd".toList]) k ++
          chunk 1048576 ["cd".toList].flatten k) = ["cd".toList] := by
      simp only [hnothing]
      rfl
    rw [hblocks]
    exact editShards_stores
  refine (replaced_iff hfile hopened hn (by decide) (by decide) hstores edit_spares
    (fun _ _ ↦ ⟨_, _, rfl⟩)).mpr (.inr ⟨by decide, ?_, .inl ⟨by decide, ?_⟩⟩)
  · simp only [hnothing]
    decide
  · rw [hnothing]
    rfl

/-- Two bytes are replaced by a single one: the file has two bytes afterwards. -/
theorem not_replaced_by_less :
    (∃ j blocks, CachedFile "/f".toList (.re 1 1) (editNodes "c".toList) "ab".toList blocks j
      (editStored "c".toList)) ∧
    OpenedTruncating "/f".toList (editStored "c".toList) (editTruncated "c".toList) ∧
    (∃ v₂ commit v₃ i,
      (SDK.writeAll "/f".toList (editNodes "c".toList) 0 ["c".toList]).run
        (editTruncated "c".toList) = some (.ok (), v₂) ∧
      (SDK.close "/f".toList (editNodes "c".toList) [.apply]).run v₂ = some (.ok commit, v₃) ∧
      RocksDB.lookup v₃.leader.store "/f".toList = some i ∧ i.filesize = 2) ∧
    ¬ ReplacedBy "c".toList "/f".toList ["c".toList] (editNodes "c".toList) [.apply]
      (editTruncated "c".toList) := by
  have hput : (editPut "c".toList).map (·.1) = some (.ok []) := by decide +kernel
  obtain ⟨j, hfile, -⟩ := edit_cached (by decide +kernel) hput
  have hopened : OpenedTruncating "/f".toList (editStored "c".toList) (editTruncated "c".toList) :=
    edit_truncated (by decide +kernel) (by decide +kernel)
  have hreplace : (editReplace "c".toList).any (fun p ↦ p.1.toOption.isSome &&
      (RocksDB.lookup p.2.leader.store "/f".toList).any (·.filesize == 2)) = true := by
    decide +kernel
  obtain ⟨⟨r, v₃⟩, hrun, hreplace⟩ := (Option.any_eq_true _ _).mp hreplace
  rw [Bool.and_eq_true] at hreplace
  obtain ⟨i, hi, htwo⟩ := (Option.any_eq_true _ _).mp hreplace.2
  have hsize : i.filesize = 2 := beq_iff_eq.mp htwo
  cases r with
  | error f => cases hreplace.1
  | ok commit =>
    obtain ⟨_, v₂, hwrite, hclose⟩ := bind_ok hrun
    refine ⟨⟨j, _, hfile⟩, hopened, ⟨v₂, commit, v₃, i, hwrite, hclose, hi, hsize⟩, ?_⟩
    rintro ⟨v₂', commit', v₃', hwrite', hclose', ⟨i', hi', hone⟩, -⟩
    obtain ⟨-, rfl⟩ := Prod.mk.inj (Option.some.inj (hwrite'.symm.trans hwrite))
    obtain ⟨-, rfl⟩ := Prod.mk.inj (Option.some.inj (hclose'.symm.trans hclose))
    obtain rfl : i = i' := Option.some.inj (hi.symm.trans hi')
    rw [hsize] at hone
    cases hone

end Spkdfs
