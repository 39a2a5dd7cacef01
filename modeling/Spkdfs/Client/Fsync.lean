import Spkdfs.Client.Sequential
import Spkdfs.Client.Session

namespace Spkdfs

open Library Procedure Function

namespace SDK

variable {enc : Nat → Str} {dirty : Finset Nat} {sub : List Str} {last i : Nat}

/-- The sub list that `fsync` commits, at a block that it uploads. -/
theorem committed_of_mem (hmax : ∀ i ∈ dirty, i ≤ last) (hi : i ∈ dirty) :
    (setEntries enc (dirty.sort (· ≤ ·)) (resize sub (last + 1)))[i]? = some (enc i) := by
  have hlt : i < (resize sub (last + 1)).length := by
    have hle := hmax i hi
    rw [resize, List.length_append, List.length_replicate]
    omega
  rw [getElem?_setEntries enc _ hlt, if_pos ((Finset.mem_sort _).mpr hi)]

theorem committed_of_notMem (hi : i ∉ dirty) :
    (setEntries enc (dirty.sort (· ≤ ·)) (resize sub (last + 1)))[i]? =
      (resize sub (last + 1))[i]? := by
  by_cases hlt : i < (resize sub (last + 1)).length
  · rw [getElem?_setEntries enc _ hlt, if_neg fun hm ↦ hi ((Finset.mem_sort _).mp hm)]
  · rw [List.getElem?_eq_none (by rw [length_setEntries]; omega),
      List.getElem?_eq_none (Nat.le_of_not_lt hlt)]

/-- The entries behind the end of the sub list are empty. -/
theorem getD_resize {n : Nat} (hi : sub.length ≤ i) : ((resize sub n)[i]?).getD [] = [] := by
  rw [resize, List.getElem?_append_right hi, List.getElem?_replicate]
  split_ifs <;> rfl

end SDK

/-- A session that began with this inode: what of the blocks that were written is on the leader. -/
structure Handle.InSession (path : Str) (inode : Inode) (n : Nat) (s : Handle) : Prop where
  cache : s.view.sdk.cache path = some inode
  pending : ∀ q ∈ s.view.leader.pending, q.entry.Spares (simplifyPath path)
  own : ∃ t files dirty j, s.view.sdk.dirs (s.view.sdk.tmpPath path) = some t ∧
    t.Shows files dirty ∧ dirty ⊆ s.written ∧
    RocksDB.lookup s.view.leader.store (simplifyPath path) = some j ∧
    (∀ i ∈ s.written, i ∉ dirty → ∃ e, s.entries i = some e ∧ j.sub[i]? = some e) ∧
    (∀ i ∉ s.written, i < inode.sub.length → j.sub[i]? = inode.sub[i]?) ∧
    (∀ i ∉ s.written, inode.sub.length ≤ i → (j.sub[i]?).getD [] = []) ∧
    (j.filesize ≤ inode.filesize ∨ ∃ k ∈ s.written, ∃ len ≤ n,
      len ≤ ((files k).getD []).length ∧ j.filesize ≤ max inode.filesize (k * n + len))

/-- The calls of a session: reads, writes and `fsync` calls that succeed. -/
def Handle.Calls (path : Str) (s : Handle) : Step → Prop
  | .read .. | .write .. => True
  | .fsync nodes during =>
    (∀ a ∈ during, a.Spares (simplifyPath path)) ∧
      ∃ commit v, (SDK.fsync path nodes during).run s.view = some (.ok commit, v)
  | _ => False

/-- An `fsync` that has anything to upload has all blocks written since the path was opened. None of
them is longer than a block should be, and the last one ends where an `int` can say it. -/
def Handle.Resends (path : Str) (n : Nat) (s : Handle) : Step → Prop
  | .fsync .. =>
    s.dirtyBlocks path = [] ∨ (∀ i ∈ s.written, i ∈ (s.dirtyBlocks path).map (·.1)) ∧
      ∀ block ∈ s.dirtyBlocks path, block.2.length ≤ n ∧ (block.1 + 1) * n < 2 ^ 31
  | _ => True

/-- The inode committed after an `fsync`: the entry for every block written since the path was opened
is the one of its last contents, every other entry is as it was then, and the size has not become
smaller. -/
def Handle.Preserves (path : Str) (opened : Inode) (s s' : Handle) : Prop :=
  ∃ before after, RocksDB.lookup s.view.leader.store (simplifyPath path) = some before ∧
    RocksDB.lookup s'.view.leader.store (simplifyPath path) = some after ∧
    (∀ i ∈ s'.written, ∃ e, s'.entries i = some e ∧ after.sub[i]? = some e) ∧
    (∀ i ∉ s'.written, i < opened.sub.length → after.sub[i]? = opened.sub[i]?) ∧
    (∀ i ∉ s'.written, opened.sub.length ≤ i → (after.sub[i]?).getD [] = []) ∧
    before.filesize ≤ after.filesize

namespace Handle

variable {path : Str} {inode : Inode} {n : Nat} {s s' : Handle} {nodes : Datanodes}
  {during : List Action}

/-- Calls that change nothing but local files. -/
theorem InSession.local (nodes : Datanodes) (h : s.InSession path inode n) {v : View} {written : Finset Nat}
    (hwithin : ∀ t files dirty, s.view.sdk.dirs (s.view.sdk.tmpPath path) = some t →
      t.Shows files dirty →
        SDK.Within path (SDK.Touched (SDK.Fetched nodes inode) files dirty) s.view v)
    (hlist : (v.sdk.dir path).listWrite.toFinset ⊆ written) (hmore : s.written ⊆ written)
    (hnew : ∀ i ∈ written, i ∉ s.written → i ∈ (v.sdk.dir path).listWrite.toFinset) :
    InSession path inode n { s with view := v, written := written } := by
  obtain ⟨t, files, dirty, j, hdir, hshows, hdirty, hlookup, hkept, hothers, hbeyond, hsize⟩ := h.own
  have hw := hwithin t files dirty hdir hshows
  obtain ⟨t', hdir', files', dirty', hshows', htouches⟩ := hw.own
  rw [View.dir_eq hdir', hshows'.listWrite] at hlist hnew
  refine ⟨by rw [hw.cache, h.cache], by rw [hw.leader]; exact h.pending, t', files', dirty', j, hdir',
    hshows', hlist, by rw [hw.leader, hlookup], ?_, fun i hi ↦ hothers i fun hm ↦ hi (hmore hm),
    fun i hi ↦ hbeyond i fun hm ↦ hi (hmore hm), ?_⟩
  · intro i hi hclean
    have hold : i ∈ s.written := by
      by_contra hno
      exact hclean (hnew i hi hno)
    exact hkept i hold fun hm ↦ hclean (htouches.dirty hm)
  · refine hsize.imp_right ?_
    rintro ⟨k, hk, len, hn, hlen, hle⟩
    exact ⟨k, hmore hk, len, hn, hlen.trans (htouches.grows k).length_le, hle⟩

theorem InSession.read {offset size : Nat} {r : Except Fault Str} {v : View}
    (h : s.InSession path inode n)
    (hrun : (SDK.readData path offset size nodes).run s.view = some (r, v)) :
    InSession path inode n { s with view := v } := by
  have hwithin : ∀ t files dirty, s.view.sdk.dirs (s.view.sdk.tmpPath path) = some t →
      t.Shows files dirty →
        SDK.Within path (SDK.Filled (SDK.Fetched nodes inode) files dirty) s.view v :=
    fun _ _ _ hdir hshows ↦ SDK.readData_within h.cache SDK.fillable_filled
      (.start hdir ⟨_, hshows, .refl⟩) hrun
  refine h.local nodes (fun t files dirty hdir hshows ↦ ?_) ?_ subset_rfl
    fun _ hi hn ↦ absurd hi hn
  · have hw := hwithin t files dirty hdir hshows
    obtain ⟨t', hdir', files', hrest⟩ := hw.own
    exact ⟨hw.leader, hw.progress, hw.cache, hw.tmpPath, t', hdir', files', dirty, hrest⟩
  · obtain ⟨t, files, dirty, j, hdir, hshows, hdirty, -⟩ := h.own
    obtain ⟨t', hdir', files', hshows', -⟩ := (hwithin t files dirty hdir hshows).own
    rwa [View.dir_eq hdir', hshows'.listWrite]

theorem InSession.write {offset : Nat} {data : Str} {r : Except Fault Unit} {v : View}
    (h : s.InSession path inode n)
    (hrun : (SDK.writeData path offset data nodes).run s.view = some (r, v)) :
    InSession path inode n
      { s with view := v, written := s.written ∪ (v.sdk.dir path).listWrite.toFinset } :=
  h.local nodes (fun _ _ _ hdir hshows ↦ SDK.writeData_within h.cache hdir hshows hrun)
    Finset.subset_union_right Finset.subset_union_left
    fun _ hi hn ↦ (Finset.mem_union.mp hi).resolve_left hn

/-- The size that is committed, when no block is longer than it should be. -/
theorem writtenSize_eq {last : Nat} {block : Str} (hn : inode.getBlockSize = n)
    (hlength : block.length ≤ n) (hlast : (last + 1) * n < 2 ^ 31)
    (hsmall : inode.filesize < 2 ^ 31) :
    toUInt64 (toInt32 (SDK.writtenSize inode last block)) =
      max inode.filesize (last * n + block.length) := by
  rw [Nat.succ_mul] at hlast
  have hblock : toUInt64 (toInt32 block.length) = block.length := toUInt64_toInt32 (by omega)
  rw [SDK.writtenSize, SDK.toUInt64_getBlockSize hn, hblock, Nat.mod_eq_of_lt (by omega),
    toUInt64_toInt32 (by omega)]

/-- An `fsync` that has nothing to upload. -/
theorem InSession.fsync_clean {r : Except Fault (Option Commit)} {v : View}
    (h : s.InSession path inode n) (hclean : s.dirtyBlocks path = [])
    (hrun : (SDK.fsync path nodes during).run s.view = some (r, v)) :
    v = s.view ∧ r = .ok none ∧ s.uploaded path nodes = s.entries ∧ ∀ t files dirty,
      s.view.sdk.dirs (s.view.sdk.tmpPath path) = some t → t.Shows files dirty → dirty = ∅ := by
  obtain ⟨t, files, dirty, j, hdir, hshows, -⟩ := h.own
  have hnone : ∀ t files dirty, s.view.sdk.dirs (s.view.sdk.tmpPath path) = some t →
      t.Shows files dirty → dirty = ∅ := by
    intro t files dirty hdir hshows
    rw [dirtyBlocks, View.dir_eq hdir, hshows.dirtyBlocks, List.map_eq_nil_iff] at hclean
    rw [← dirty.sort_toFinset (· ≤ ·), hclean, List.toFinset_nil]
  obtain rfl := hnone t files dirty hdir hshows
  rw [SDK.fsync_clean nodes during hdir hshows] at hrun
  obtain ⟨rfl, rfl⟩ := Prod.mk.inj (Option.some.inj hrun)
  refine ⟨rfl, rfl, ?_, hnone⟩
  funext i
  rw [uploaded, hclean, List.lookup_nil]

theorem uploaded_eq {t : TmpDir} {files : Nat → Option Str} {dirty : Finset Nat}
    (hc : s.view.sdk.cache path = some inode)
    (hdir : s.view.sdk.dirs (s.view.sdk.tmpPath path) = some t) (hshows : t.Shows files dirty) {i : Nat}
    (hi : i ∈ dirty) :
    s.uploaded path nodes i = some (nodes.entry inode.storageType ((files i).getD [])) := by
  have hlookup : (s.dirtyBlocks path).lookup i = some ((files i).getD []) := by
    rw [dirtyBlocks, View.dir_eq hdir, hshows.dirtyBlocks, lookup_map_pair,
      if_pos ((Finset.mem_sort _).mpr hi)]
  rw [uploaded, hlookup, hc]
  rfl

section

variable {dirty written : Finset Nat} {contents : Nat → Str} {blocks : List (Nat × Str)}
  (hlist : blocks = (dirty.sort (· ≤ ·)).map fun i ↦ (i, contents i))

include hlist

theorem mem_dirtyBlocks {i : Nat} (hi : i ∈ dirty) : (i, contents i) ∈ blocks := by
  rw [hlist]
  exact List.mem_map.mpr ⟨i, (Finset.mem_sort _).mpr hi, rfl⟩

theorem written_eq_dirty (hsub : dirty ⊆ written) (hall : ∀ i ∈ written, i ∈ blocks.map (·.1)) :
    written = dirty := by
  refine Finset.Subset.antisymm (fun i hi ↦ ?_) hsub
  have hin := hall i hi
  rw [hlist, List.map_map] at hin
  obtain ⟨k, hk, rfl⟩ := List.mem_map.mp hin
  exact (Finset.mem_sort _).mp hk

end

/-- An `fsync` that uploads all blocks of the session. -/
theorem InSession.fsync_resent {commit : Option Commit} {v : View} (h : s.InSession path inode n)
    (hn : inode.getBlockSize = n) (hsmall : inode.filesize < 2 ^ 31)
    (hduring : ∀ a ∈ during, a.Spares (simplifyPath path))
    (hall : ∀ i ∈ s.written, i ∈ (s.dirtyBlocks path).map (·.1))
    (hfit : ∀ block ∈ s.dirtyBlocks path, block.2.length ≤ n ∧ (block.1 + 1) * n < 2 ^ 31)
    (hdirty : s.dirtyBlocks path ≠ [])
    (hrun : (SDK.fsync path nodes during).run s.view = some (.ok commit, v)) :
    InSession path inode n { s with view := v, entries := s.uploaded path nodes } ∧
      s.Preserves path inode { s with view := v, entries := s.uploaded path nodes } := by
  obtain ⟨t, files, dirty, j, hdir, hshows, hsubset, hlookup, hkept, hothers, hbeyond, hsize⟩ := h.own
  have hlist : s.dirtyBlocks path = (dirty.sort (· ≤ ·)).map fun i ↦ (i, (files i).getD []) := by
    rw [dirtyBlocks, View.dir_eq hdir, hshows.dirtyBlocks]
  have hwritten := written_eq_dirty hlist hsubset hall
  obtain ⟨rfl, -⟩ | ⟨last, entry, l, t', hlast, hmax, -, hrpc, rfl, hshows'⟩ :=
    SDK.fsync_cases h.cache hdir hshows hrun
  · rw [hlist, Finset.sort_empty] at hdirty
    exact absurd rfl hdirty
  have hblock : ((files last).getD []).length ≤ n := (hfit _ (mem_dirtyBlocks hlist hlast)).1
  have hend : (last + 1) * n < 2 ^ 31 := (hfit _ (mem_dirtyBlocks hlist hlast)).2
  obtain ⟨hlookup', hpending'⟩ := Leader.rpc_putOk_spared h.pending hduring hlookup hrpc
  rw [writtenSize_eq hn hblock hend hsmall] at hlookup'
  have hmine : ∀ i ∈ s.written, ∃ e, s.uploaded path nodes i = some e ∧
      (SDK.setEntries (fun i ↦ nodes.entry inode.storageType ((files i).getD []))
        (dirty.sort (· ≤ ·)) (SDK.resize inode.sub (last + 1)))[i]? = some e := by
    intro i hi
    rw [hwritten] at hi
    exact ⟨_, uploaded_eq h.cache hdir hshows hi, SDK.committed_of_mem hmax hi⟩
  have hrest : ∀ i ∉ s.written, i < inode.sub.length →
      (SDK.setEntries (fun i ↦ nodes.entry inode.storageType ((files i).getD []))
        (dirty.sort (· ≤ ·)) (SDK.resize inode.sub (last + 1)))[i]? = inode.sub[i]? := by
    intro i hi hlt
    rw [hwritten] at hi
    rw [SDK.committed_of_notMem hi, SDK.getElem?_resize hlt]
  have hgap : ∀ i ∉ s.written, inode.sub.length ≤ i →
      ((SDK.setEntries (fun i ↦ nodes.entry inode.storageType ((files i).getD []))
        (dirty.sort (· ≤ ·)) (SDK.resize inode.sub (last + 1)))[i]?).getD [] = [] := by
    intro i hi hle
    rw [hwritten] at hi
    rw [SDK.committed_of_notMem hi, SDK.getD_resize hle]
  refine ⟨⟨h.cache, hpending', t', files, ∅, _, View.dirs_setDir, hshows', Finset.empty_subset _,
    hlookup', fun i hi _ ↦ hmine i hi, hrest, hgap, .inr ?_⟩, j, _, hlookup, hlookup', hmine, hrest,
    hgap, ?_⟩
  · exact ⟨last, hsubset hlast, _, hblock, le_rfl, le_rfl⟩
  · -- the last block is the one of the fsync before, which has not become shorter, or a later one
    rcases hsize with hle | ⟨k, hk, len, hlen, hgrown, hle⟩
    · exact hle.trans (le_max_left _ _)
    · refine hle.trans (max_le_max le_rfl ?_)
      have hbefore := hmax k (hwritten ▸ hk)
      rcases Nat.lt_or_eq_of_le hbefore with hlt | rfl
      · have hmul : (k + 1) * n ≤ last * n := Nat.mul_le_mul_right n hlt
        rw [Nat.succ_mul] at hmul
        omega
      · exact Nat.add_le_add_left hgrown _

/-- One `fsync` of a session. -/
theorem InSession.fsync (h : s.InSession path inode n) (hn : inode.getBlockSize = n)
    (hsmall : inode.filesize < 2 ^ 31) (hcall : s.Calls path (.fsync nodes during))
    (hall : s.Resends path n (.fsync nodes during))
    (hs : s.step path (.fsync nodes during) = some s') :
    s'.InSession path inode n ∧ s.Preserves path inode s' := by
  obtain ⟨hduring, commit, v, hrun⟩ := hcall
  rw [step, hrun] at hs
  obtain rfl := Option.some.inj hs
  by_cases hclean : s.dirtyBlocks path = []
  · obtain ⟨rfl, -, hentries, hnone⟩ := h.fsync_clean hclean hrun
    rw [synced, hentries]
    refine ⟨h, ?_⟩
    obtain ⟨t, files, dirty, j, hdir, hshows, hsubset, hlookup, hkept, hothers, hbeyond, -⟩ := h.own
    obtain rfl := hnone t files dirty hdir hshows
    exact ⟨j, j, hlookup, hlookup, fun i hi ↦ hkept i hi (Finset.notMem_empty i), hothers, hbeyond,
      le_rfl⟩
  · obtain ⟨hwritten, hfit⟩ := hall.resolve_left hclean
    exact h.fsync_resent hn hsmall hduring hwritten hfit hclean hrun

theorem InSession.step {a : Step} (h : s.InSession path inode n) (hn : inode.getBlockSize = n)
    (hsmall : inode.filesize < 2 ^ 31) (hcall : s.Calls path a) (hall : s.Resends path n a)
    (hs : s.step path a = some s') : s'.InSession path inode n := by
  cases a with
  | «open» flags waits => exact hcall.elim
  | close nodes during => exact hcall.elim
  | foreign filesize sub during => exact hcall.elim
  | read offset size nodes =>
    obtain ⟨⟨r, v⟩, hrun, rfl⟩ := Option.map_eq_some_iff.mp hs
    exact h.read hrun
  | write offset data nodes =>
    obtain ⟨⟨r, v⟩, hrun, rfl⟩ := Option.map_eq_some_iff.mp hs
    exact h.write hrun
  | fsync nodes during => exact (h.fsync hn hsmall hcall hall hs).1

end Handle

/-- The path is opened for writing, with an up-to-date slave, and not to truncate a file that has a
size. -/
structure Handle.Begins (path : Str) (inode : Inode) (n : Nat) (v v' : View) : Prop where
  named : path ≠ []
  leader : ∃ myIp now, Reaches Leader.step (fun _ _ ↦ True) (.start myIp now) v.leader
  pending : ∀ q ∈ v.leader.pending, q.entry.Spares (simplifyPath path)
  lookup : RocksDB.lookup v.leader.store (simplifyPath path) = some inode
  blockSize : inode.getBlockSize = n
  filesize : inode.filesize < 2 ^ 31
  sound : (v.sdk.dir path).Sound
  opened : ∃ flags waits, writeMode flags = true ∧ (flags &&& oTrunc = 0 ∨ inode.filesize = 0) ∧
    (∀ a ∈ waits.lock, a.Spares (simplifyPath path)) ∧
    (SDK.open path flags waits).run v = some (.ok (), v') ∧ waits.seen = v'.leader.applied.length

theorem Handle.Begins.inSession {path : Str} {inode : Inode} {n : Nat} {v v' : View}
    (h : Handle.Begins path inode n v v') :
    ∃ deadline, Handle.InSession path { inode with ddlLock := deadline } n { view := v' } := by
  obtain ⟨flags, waits, hw, hkeep, hquiet, hopen, hseen⟩ := h.opened
  obtain ⟨myIp, now, hleader⟩ := h.leader
  obtain ⟨-, hpending, -, deadline, hcache, hlookup⟩ := SDK.open_lookup h.named hkeep h.pending
    hquiet hleader h.lookup hopen hseen
  have hafter := SDK.open_around (H := TmpDir.Sound)
    (G := fun t ↦ t.Sound ∧ t.write = some [])
    (fun t ht ↦ by rw [if_pos hw]; exact ⟨⟨ht.apart, ht.below⟩, rfl⟩)
    (fun t indices ht ↦ ⟨ht.1.removeAll indices, ht.2⟩) h.sound hopen
  obtain ⟨t, hdir, hsound, hwrite⟩ := hafter.own
  rw [← hafter.tmpPath_eq] at hdir
  refine ⟨deadline, hcache, hpending, t, t.read, ∅, _, hdir, hsound.shows hwrite, subset_rfl, hlookup,
    ?_, fun i _ _ ↦ rfl, ?_, .inl le_rfl⟩
  · intro i hi
    cases hi
  · intro i _ hle
    rw [List.getElem?_eq_none hle]
    rfl

/-- As long as every `fsync` uploads all that was written before, nothing of it is lost. -/
theorem fsync_preserves_writes {path : Str} {inode : Inode} {n : Nat} {v v' : View} {s s' : Handle}
    {nodes : Datanodes} {during : List Action} (h : Handle.Begins path inode n v v')
    (hreach : Reaches (Handle.step path) (fun s a ↦ s.Calls path a ∧ s.Resends path n a)
      { view := v' } s)
    (hcall : s.Calls path (.fsync nodes during)) (hall : s.Resends path n (.fsync nodes during))
    (hs : s.step path (.fsync nodes during) = some s') : s.Preserves path inode s' := by
  obtain ⟨deadline, hstart⟩ := h.inSession
  have hn : ({ inode with ddlLock := deadline } : Inode).getBlockSize = n := h.blockSize
  have hsession := hreach.invariant (I := Handle.InSession path { inode with ddlLock := deadline } n)
    hstart fun _ _ _ _ hi hg hs ↦ hi.step hn h.filesize hg.1 hg.2 hs
  exact (hsession.fsync hn h.filesize hcall hall hs).2

/-- A session on a file without content: a byte is written and uploaded, then one at the offset, which
is uploaded too. -/
def editSteps (offset : Nat) : List Handle.Step :=
  [.write 0 "a".toList .byContent, .fsync .byContent [.apply],
    .write offset "b".toList .byContent, .fsync .byContent [.apply]]

def edited (offset count : Nat) : Handle :=
  Handle.after "/f".toList { view := emptyOpened } ((editSteps offset).take count)

theorem begins_edited : Handle.Begins "/f".toList emptyInode 1048576 emptyView emptyOpened := by
  obtain ⟨flags, waits, hw, hquiet, hopen, hseen⟩ := opened_empty
  have hnew := newFile_empty
  refine ⟨hnew.named, hnew.leader, hnew.pending, hnew.lookup, by decide, by decide, ⟨?_, ?_⟩, flags,
    waits, hw, .inr rfl, hquiet, hopen, hseen⟩
  · intro i j file hi
    rw [hnew.uncached] at hi
    cases hi
  · intro i file hi
    rw [hnew.uncached] at hi
    cases hi

section

theorem edited_step {offset count : Nat} {a : Handle.Step} (ha : (editSteps offset)[count]? = some a)
    (hs : ((edited offset count).step "/f".toList a).isSome = true) :
    (edited offset count).step "/f".toList a = some (edited offset (count + 1)) := by
  rw [edited, edited, List.take_add_one, ha, Option.toList_some]
  exact Handle.step_after _ hs

theorem edited_reached {offset : Nat} {guard : Handle → Handle.Step → Prop} (count : Nat)
    (h : ∀ k < count, ∃ a, (editSteps offset)[k]? = some a ∧ guard (edited offset k) a ∧
      ((edited offset k).step "/f".toList a).isSome = true) :
    Reaches (Handle.step "/f".toList) guard { view := emptyOpened } (edited offset count) := by
  refine Handle.reaches_after count fun k hk a ha ↦ ?_
  obtain ⟨b, hb, hg, hs⟩ := h k hk
  obtain rfl := Option.some.inj (hb.symm.trans ha)
  exact ⟨hg, hs⟩

theorem calls_fsync {s : Handle}
    (h : ((SDK.fsync "/f".toList .byContent [.apply]).run s.view).any (·.1.isOk) = true) :
    s.Calls "/f".toList (.fsync .byContent [.apply]) := by
  refine ⟨fun a ha ↦ ?_, ?_⟩
  · obtain rfl := List.mem_singleton.mp ha
    exact trivial
  · obtain ⟨⟨r, v⟩, hrun, hok⟩ := (Option.any_eq_true _ _).mp h
    cases r with
    | ok commit => exact ⟨commit, v, hrun⟩
    | error f => cases hok

end

/-- Both writes are to the same block. -/
theorem fsync_preserves_writes_same_block :
    (edited 1 3).Preserves "/f".toList emptyInode (edited 1 4) := by
  have hblocks : ∀ k, k = 1 ∨ k = 3 → (edited 1 k).written = {0} ∧
      ((edited 1 k).dirtyBlocks "/f".toList).map (fun b ↦ (b.1, b.2.length)) = [(0, k / 2 + 1)] := by
    rintro k (rfl | rfl) <;> exact ⟨by decide +kernel, by decide +kernel⟩
  have hresends : ∀ k, k = 1 ∨ k = 3 →
      (edited 1 k).Resends "/f".toList 1048576 (.fsync .byContent [.apply]) := by
    intro k hk
    obtain ⟨hwritten, hdirty⟩ := hblocks k hk
    obtain ⟨block, hlist, hb⟩ := List.map_eq_singleton_iff.mp hdirty
    refine .inr ⟨fun i hi ↦ ?_, fun b hb' ↦ ?_⟩
    · rw [hwritten, Finset.mem_singleton] at hi
      rw [hi, hlist, List.map_singleton, (Prod.mk.inj hb).1]
      exact List.mem_singleton_self 0
    · rw [hlist, List.mem_singleton] at hb'
      rw [hb', (Prod.mk.inj hb).1, (Prod.mk.inj hb).2]
      rcases hk with rfl | rfl <;> decide
  refine fsync_preserves_writes begins_edited (edited_reached 3 ?_)
    (calls_fsync (by decide +kernel)) (hresends 3 (.inr rfl)) (edited_step rfl (by decide +kernel))
  intro k hk
  obtain rfl | rfl | rfl : k = 0 ∨ k = 1 ∨ k = 2 := by omega
  · exact ⟨_, rfl, ⟨trivial, trivial⟩, by decide +kernel⟩
  · exact ⟨_, rfl, ⟨calls_fsync (by decide +kernel), hresends 1 (.inl rfl)⟩, by decide +kernel⟩
  · exact ⟨_, rfl, ⟨trivial, trivial⟩, by decide +kernel⟩

/-- The second write is to the next block: its `fsync` puts back the entry that the first block had
when the file was opened, that is none. -/
theorem fsync_reverts_block :
    Reaches (Handle.step "/f".toList) (fun s a ↦ s.Calls "/f".toList a) { view := emptyOpened }
        (edited 1048576 3) ∧
      (edited 1048576 3).Calls "/f".toList (.fsync .byContent [.apply]) ∧
      (edited 1048576 3).step "/f".toList (.fsync .byContent [.apply]) = some (edited 1048576 4) ∧
      (edited 1048576 4).written = {0, 1} ∧
      (edited 1048576 4).entries 0 = some "10.0.0.2:8002|a".toList ∧
      (RocksDB.lookup (edited 1048576 4).view.leader.store "/f".toList).map (·.sub) =
        some [[], "10.0.0.2:8002|b".toList] ∧
      ¬ (edited 1048576 3).Preserves "/f".toList emptyInode (edited 1048576 4) := by
  have hwritten : (edited 1048576 4).written = {0, 1} := by decide +kernel
  have hentry : (edited 1048576 4).entries 0 = some "10.0.0.2:8002|a".toList := by decide +kernel
  have hsub : (RocksDB.lookup (edited 1048576 4).view.leader.store "/f".toList).map (·.sub) =
      some [[], "10.0.0.2:8002|b".toList] := by decide +kernel
  refine ⟨edited_reached 3 ?_, calls_fsync (by decide +kernel),
    edited_step rfl (by decide +kernel), hwritten, hentry, hsub, ?_⟩
  · intro k hk
    obtain rfl | rfl | rfl : k = 0 ∨ k = 1 ∨ k = 2 := by omega
    · exact ⟨_, rfl, trivial, by decide +kernel⟩
    · exact ⟨_, rfl, calls_fsync (by decide +kernel), by decide +kernel⟩
    · exact ⟨_, rfl, trivial, by decide +kernel⟩
  · rintro ⟨before, after, -, hafter, hmine, -⟩
    obtain ⟨e, he, hsame⟩ := hmine 0 (by rw [hwritten]; exact Finset.mem_insert_self 0 {1})
    have hpath : simplifyPath "/f".toList = "/f".toList := by decide
    rw [hpath] at hafter
    rw [hafter, Option.map_some, Option.some.injEq] at hsub
    rw [hentry] at he
    rw [hsub, ← Option.some.inj he] at hsame
    exact absurd hsame (by decide +kernel)

end Spkdfs
