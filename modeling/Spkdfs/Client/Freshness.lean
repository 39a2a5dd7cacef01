import Spkdfs.Client.Fsync

namespace Spkdfs

open Library Procedure Function

/-- The directory with a directory `write`, an empty one where there was none. -/
def TmpDir.linked (t : TmpDir) : TmpDir := { t with write := some (t.write.getD []) }

namespace TmpDir

variable {t : TmpDir} {files : Nat → Option Str} {dirty : Finset Nat}

theorem linked_eq (h : t.write ≠ none) : t.linked = t := by
  obtain ⟨links, hw⟩ := Option.ne_none_iff_exists'.mp h
  rw [linked, hw, Option.getD_some, ← hw]

theorem linked_save (t : TmpDir) (i : Nat) (s : Str) : (t.save i s).linked = t.linked.save i s := by
  simp only [linked, save]
  cases t.files.lookup i <;> rfl

theorem dirtyBlocks_linked (t : TmpDir) : SDK.dirtyBlocks t.linked = SDK.dirtyBlocks t := rfl

theorem read_linked (t : TmpDir) (i : Nat) : t.linked.read i = t.read i := rfl

theorem Shows.clearWrite (h : t.linked.Shows files dirty) : t.clearWrite.Shows files ∅ :=
  ⟨h.apart, h.below, h.read, [], rfl, by simp⟩

theorem Shows.removeAll (h : t.Shows files ∅) (indices : List Nat) :
    (t.removeAll indices).Shows (fun i ↦ if i ∈ indices then none else files i) ∅ where
  apart i j file hi hj := h.apart i j file (lookup_removeAll hi) (lookup_removeAll hj)
  below i file hi := h.below i file (lookup_removeAll hi)
  read i := by
    have hfilter := lookup_filter t.files (fun j ↦ decide (j ∉ indices)) i
    rw [← h.read, TmpDir.read, TmpDir.removeAll, hfilter]
    by_cases hi : i ∈ indices
    · simp [hi]
    · simp [hi, TmpDir.read]
  links := by
    obtain ⟨links, hw, -, hdirty, -⟩ := h.links
    rw [List.toFinset_eq_empty_iff, List.map_eq_nil_iff] at hdirty
    exact ⟨links, hw, by simp [hdirty]⟩

theorem shows_empty (i : Option (List (Nat × Nat))) (h : i.getD [] = []) :
    (linked { write := i }).Shows (fun _ ↦ none) ∅ := by
  refine ⟨fun i j file hi ↦ ?_, fun i file hi ↦ ?_, fun _ ↦ rfl, [], by rw [linked, h], by simp⟩
  · cases hi
  · cases hi

end TmpDir

/-- What the datanodes do, where each entry stands for a block: an entry that is returned for a
block stands for it, and for an entry nothing comes back or its block. -/
structure Datanodes.Agrees (nodes : Datanodes) (content : Option StorageType → Str → Str) :
    Prop where
  encode : ∀ storage block s, nodes.encode storage block = .ok s → content storage s = block
  decode : ∀ storage s block, nodes.decode storage s = .ok block →
    block = [] ∨ block = content storage s

/-- A block file that is not empty holds the block for its entry. -/
def Inode.Current (inode : Inode) (content : Option StorageType → Str → Str) (i : Nat)
    (file : Option Str) : Prop :=
  ∀ block, file = some block → block ≠ [] →
    ∃ e, inode.sub[i]? = some e ∧ content inode.storageType e = block

/-- A block file that is missing is read as an empty one. -/
theorem Inode.Current.getD {inode : Inode} {content : Option StorageType → Str → Str} {i : Nat}
    {file : Option Str} (h : inode.Current content i file) :
    inode.Current content i (some (file.getD [])) := by
  cases file with
  | none =>
    intro block hblock hne
    exact absurd (Option.some.inj hblock).symm hne
  | some block => exact h

/-- As many bytes as were asked for or are left, cut out of a string of blocks, each of them nothing
or the block for its entry, with zeros only where there are no entries any more. -/
def Inode.CurrentPart (inode : Inode) (content : Option StorageType → Str → Str)
    (offset size : Nat) (s : Str) : Prop :=
  s.length = SDK.readSize inode offset size ∧ ∃ (blocks : List Str) (zeros : Nat),
    s = ((blocks.flatten ++ List.replicate zeros '\x00').drop
      (offset - SDK.readFirst inode offset size * inode.getBlockSize).toNat).take
        (SDK.readSize inode offset size) ∧
    (zeros ≠ 0 → inode.sub.length ≤ SDK.readFirst inode offset size + blocks.length) ∧
    ∀ (k : Nat) block, blocks[k]? = some block →
      inode.Current content (SDK.readFirst inode offset size + k).toNat (some block)

namespace Handle

variable {path : Str} {content : Option StorageType → Str → Str} {s s' : Handle}

/-- The calls of a history: an `open` that returns, or is refused because it is to create the file,
and a commit of another client while the path is not open. -/
def Occurs (path : Str) (content : Option StorageType → Str → Str) (s : Handle) : Step → Prop
  | .open flags waits =>
    (∀ a ∈ waits.lock, a.Spares (simplifyPath path)) ∧
      (flags &&& oCreat ≠ 0 ∨ ∃ v, (SDK.open path flags waits).run s.view = some (.ok (), v))
  | .read _ _ nodes | .write _ _ nodes => nodes.Agrees content
  | .fsync nodes during | .close nodes during =>
    nodes.Agrees content ∧ ∀ a ∈ during, a.Spares (simplifyPath path)
  | .foreign filesize sub during =>
    (∀ a ∈ during, a.Spares (simplifyPath path)) ∧ s.view.sdk.cache path = none ∧
      ∃ entry l, s.view.leader.rpc (.putOk ⟨path, filesize, sub⟩) during = some (.ok entry, l)

/-- An `fsync` has nothing to upload, or it throws before it has uploaded anything, or it uploads all
blocks written since the path was opened, and none that is empty now but had an entry then. -/
def UploadsAll (path : Str) (nodes : Datanodes) (during : List Action) (s : Handle) : Prop :=
  s.dirtyBlocks path = [] ∨
    (∃ f, (SDK.fsync path nodes during).run s.view = some (.error f, s.view)) ∨
    (∃ commit v, (SDK.fsync path nodes during).run s.view = some (.ok commit, v)) ∧
      (∀ i ∈ s.written, i ∈ (s.dirtyBlocks path).map (·.1)) ∧
      ∀ block ∈ s.dirtyBlocks path, block.2 ≠ [] ∨
        ∀ inode, s.view.sdk.cache path = some inode → inode.sub.length ≤ block.1

/-- The steps after which the block files are still current. An `open` finds nothing that is still to
be uploaded, truncates no file that has a size and asks an up-to-date slave; a write follows an
`open` for writing; another client changes no entry of a block that is in a block file. -/
def KeepsCurrent (path : Str) (s : Handle) : Step → Prop
  | .open flags waits =>
    s.dirtyBlocks path = [] ∧
      (flags &&& oTrunc = 0 ∨ ∀ j, RocksDB.lookup s.view.leader.store (simplifyPath path) = some j →
        j.filesize = 0) ∧
      ∀ v, (SDK.open path flags waits).run s.view = some (.ok (), v) →
        waits.seen = v.leader.applied.length
  | .read .. => True
  | .write .. => (s.view.sdk.dir path).write ≠ none
  | .fsync nodes during | .close nodes during => s.UploadsAll path nodes during
  | .foreign _ sub _ => ∀ j, RocksDB.lookup s.view.leader.store (simplifyPath path) = some j →
    ∀ i block, (s.view.sdk.dir path).read i = some block → block ≠ [] → sub[i]? = j.sub[i]?

/-- The block files that are not to be uploaded are current, and those of the inode that the client
has are for the same entries. -/
structure Coherent (path : Str) (content : Option StorageType → Str → Str) (s : Handle) : Prop where
  leader : ∃ myIp now, Reaches Leader.step (fun _ _ ↦ True) (.start myIp now) s.view.leader
  pending : ∀ q ∈ s.view.leader.pending, q.entry.Spares (simplifyPath path)
  own : ∃ files dirty j, (s.view.sdk.dir path).linked.Shows files dirty ∧ dirty ⊆ s.written ∧
    RocksDB.lookup s.view.leader.store (simplifyPath path) = some j ∧
    (∀ i ∉ dirty, j.Current content i (files i)) ∧
    ∀ cached, s.view.sdk.cache path = some cached →
      s.view.sdk.dirs (s.view.sdk.tmpPath path) ≠ none ∧ cached.storageType = j.storageType ∧
      (∀ i ∉ s.written, i < cached.sub.length → j.sub[i]? = cached.sub[i]?) ∧
      (∀ i ∉ s.written, cached.sub.length ≤ i → (files i).getD [] = []) ∧
      ∀ i ∈ s.written, i ∉ dirty → i < cached.sub.length → (files i).getD [] ≠ []

theorem current_nil {inode : Inode} {i : Nat} {file : Option Str} (h : file.getD [] = []) :
    inode.Current content i file := by
  intro block hfile hne
  rw [hfile, Option.getD_some] at h
  exact absurd h hne

/-- When nothing has been written since the path was opened, every block file is current. -/
theorem Coherent.current {w : View} {remote : Inode} (h : Coherent path content { view := w })
    (hlookup : RocksDB.lookup w.leader.store (simplifyPath path) = some remote) (i : Nat) :
    remote.Current content i ((w.sdk.dir path).read i) := by
  obtain ⟨files, dirty, j, hshows, hsub, hj, hcurrent, -⟩ := h.own
  obtain rfl := Option.some.inj (hlookup.symm.trans hj)
  have hread : (w.sdk.dir path).read i = files i := by
    rw [← TmpDir.read_linked]
    exact hshows.read i
  rw [hread]
  exact hcurrent i fun hi ↦ Finset.notMem_empty i (hsub hi)

variable {nodes : Datanodes} {during : List Action} {v : View} {cached : Inode}

/-- Reading and writing. -/
theorem Coherent.touched (hnodes : nodes.Agrees content) {files files' : Nat → Option Str}
    {dirty dirty' written : Finset Nat} {j : Inode} {t' : TmpDir} (h : s.Coherent path content)
    (hcache : s.view.sdk.cache path = some cached)
    (hlookup : RocksDB.lookup s.view.leader.store (simplifyPath path) = some j)
    (hcurrent : ∀ i ∉ dirty, j.Current content i (files i))
    (hstorage : cached.storageType = j.storageType)
    (hsame : ∀ i ∉ s.written, i < cached.sub.length → j.sub[i]? = cached.sub[i]?)
    (hbeyond : ∀ i ∉ s.written, cached.sub.length ≤ i → (files i).getD [] = [])
    (hfull : ∀ i ∈ s.written, i ∉ dirty → i < cached.sub.length → (files i).getD [] ≠ [])
    (hdirty : dirty' ⊆ written) (hmore : s.written ⊆ written)
    (hnew : ∀ i ∈ written, i ∉ s.written → i ∈ dirty')
    (hw : SDK.Within path (fun t ↦ t = t') s.view v) (hshows : t'.linked.Shows files' dirty')
    (htouches : Touches (SDK.Fetched nodes cached) files dirty files' dirty') :
    Coherent path content { s with view := v, written := written } := by
  obtain ⟨t, hdir, rfl⟩ := hw.own
  have hclean : ∀ i ∉ dirty', i ∉ dirty := fun i hi hm ↦ hi (htouches.dirty hm)
  have hold : ∀ i ∈ written, i ∉ dirty' → i ∈ s.written := by
    intro i hi hno
    by_contra hnot
    exact hno (hnew i hi hnot)
  refine ⟨by rw [hw.leader]; exact h.leader, by rw [hw.leader]; exact h.pending, files', dirty', j,
    by rwa [View.dir_eq hdir], hdirty, by rw [hw.leader, hlookup], ?_, ?_⟩
  · intro i hi
    rcases htouches.clean i hi with hkept | ⟨hempty, hnil | ⟨e, he, hdecode⟩⟩
    · rw [hkept]
      exact hcurrent i (hclean i hi)
    · exact current_nil hnil
    · intro block hfile hne
      rw [hfile, Option.getD_some] at hdecode
      have hblock := (hnodes.decode _ _ _ hdecode).resolve_left hne
      -- a block that was written and is not dirty has a file that is not empty
      have hnot : i ∉ s.written := fun hm ↦
        hfull i hm (hclean i hi) (List.getElem?_eq_some_iff.mp he).1 hempty
      refine ⟨e, ?_, by rw [← hstorage, hblock]⟩
      rw [hsame i hnot (List.getElem?_eq_some_iff.mp he).1, he]
  · intro other hother
    rw [hw.cache, hcache] at hother
    obtain rfl := Option.some.inj hother
    refine ⟨by rw [hdir]; exact Option.some_ne_none _, hstorage,
      fun i hi ↦ hsame i fun hm ↦ hi (hmore hm), ?_, ?_⟩
    · intro i hi hle
      have hno : i ∉ dirty' := fun hm ↦ hi (hdirty hm)
      have hnot : i ∉ s.written := fun hm ↦ hi (hmore hm)
      rcases htouches.clean i hno with hkept | ⟨-, hnil | ⟨e, he, -⟩⟩
      · rw [hkept]
        exact hbeyond i hnot hle
      · exact hnil
      · have hlt := (List.getElem?_eq_some_iff.mp he).1
        omega
    · intro i hi hno hlt hnil
      have hgrown := htouches.grows i
      rw [hnil, List.prefix_nil] at hgrown
      exact hfull i (hold i hi hno) (hclean i hno) hlt hgrown

theorem getInode_none (h : v.sdk.cache path = none) :
    (SDK.getInode path).run v =
      some (.error (.runtime "cannot find inode in local_inode_cache".toList), v) := by
  rw [SDK.getInode, run_bind_ok (run_get v), h]
  rfl

/-- Whatever block files are filled with what is fetched. -/
theorem Coherent.filled (hnodes : nodes.Agrees content) (h : s.Coherent path content)
    (hcache : s.view.sdk.cache path = some cached) :
    ∃ P, SDK.Fillable (SDK.Fetched nodes cached) P ∧ SDK.Within path P s.view s.view ∧
      ∀ w, SDK.Within path P s.view w → Coherent path content { s with view := w } := by
  obtain ⟨files, dirty, j, hshows, hsub, hlookup, hcurrent, hsession⟩ := h.own
  obtain ⟨hdirs, hstorage, hsame, hbeyond, hfull⟩ := hsession cached hcache
  obtain ⟨t, hdir⟩ := Option.ne_none_iff_exists'.mp hdirs
  rw [View.dir_eq hdir] at hshows
  have hfill : SDK.Fillable (SDK.Fetched nodes cached)
      fun t ↦ SDK.Filled (SDK.Fetched nodes cached) files dirty t.linked := by
    intro t i block hP hempty hblock
    rw [TmpDir.linked_save]
    exact SDK.fillable_filled t.linked i block hP hempty hblock
  refine ⟨_, hfill, .start hdir ⟨files, hshows, .refl⟩, fun w hw ↦ ?_⟩
  obtain ⟨t', hdir', files', hshows', htouches⟩ := hw.own
  exact h.touched hnodes hcache hlookup hcurrent hstorage hsame hbeyond hfull hsub subset_rfl
    (fun _ hi hn ↦ absurd hi hn) ⟨hw.leader, hw.progress, hw.cache, hw.tmpPath, t', hdir', rfl⟩
    hshows' htouches

theorem Coherent.read {offset size : Nat} {r : Except Fault Str} (hnodes : nodes.Agrees content)
    (h : s.Coherent path content)
    (hrun : (SDK.readData path offset size nodes).run s.view = some (r, v)) :
    Coherent path content { s with view := v } ∧ v.leader = s.view.leader := by
  cases hcache : s.view.sdk.cache path with
  | none =>
    rw [SDK.readData, run_bind_error (getInode_none hcache)] at hrun
    obtain ⟨-, rfl⟩ := Prod.mk.inj (Option.some.inj hrun)
    exact ⟨h, rfl⟩
  | some cached =>
    obtain ⟨P, hfill, hstart, hcoherent⟩ := h.filled hnodes hcache
    have hw := SDK.readData_within hcache hfill hstart hrun
    exact ⟨hcoherent v hw, hw.leader⟩

theorem Coherent.write {offset : Nat} {data : Str} {r : Except Fault Unit}
    (hnodes : nodes.Agrees content) (h : s.Coherent path content)
    (hwrite : (s.view.sdk.dir path).write ≠ none)
    (hrun : (SDK.writeData path offset data nodes).run s.view = some (r, v)) :
    Coherent path content
      { s with view := v, written := s.written ∪ (v.sdk.dir path).listWrite.toFinset } := by
  obtain ⟨files, dirty, j, hshows, hsub, hlookup, hcurrent, hsession⟩ := h.own
  rw [TmpDir.linked_eq hwrite] at hshows
  cases hcache : s.view.sdk.cache path with
  | none =>
    rw [SDK.writeData, run_bind_error (getInode_none hcache)] at hrun
    obtain ⟨-, rfl⟩ := Prod.mk.inj (Option.some.inj hrun)
    rw [hshows.listWrite, Finset.union_eq_left.mpr hsub]
    exact h
  | some cached =>
    obtain ⟨hdirs, hstorage, hsame, hbeyond, hfull⟩ := hsession cached hcache
    obtain ⟨t, hdir⟩ := Option.ne_none_iff_exists'.mp hdirs
    rw [View.dir_eq hdir] at hshows
    have hw := SDK.writeData_within hcache hdir hshows hrun
    obtain ⟨t', hdir', files', dirty', hshows', htouches⟩ := hw.own
    have hlist : (v.sdk.dir path).listWrite.toFinset = dirty' := by
      rw [View.dir_eq hdir', hshows'.listWrite]
    have hlinked : t'.linked.Shows files' dirty' := by
      obtain ⟨links, hsome, -⟩ := hshows'.links
      rwa [TmpDir.linked_eq (by rw [hsome]; exact Option.some_ne_none _)]
    rw [hlist]
    exact h.touched hnodes hcache hlookup hcurrent hstorage hsame hbeyond hfull
      Finset.subset_union_right Finset.subset_union_left
      (fun _ hi hn ↦ (Finset.mem_union.mp hi).resolve_left hn)
      ⟨hw.leader, hw.progress, hw.cache, hw.tmpPath, t', hdir', rfl⟩ hlinked htouches

theorem Coherent.with_entries (h : s.Coherent path content) (entries : Nat → Option Str) :
    Coherent path content { s with entries } := ⟨h.leader, h.pending, h.own⟩

theorem Coherent.dirty_of_nil (h : s.Coherent path content) (hnil : s.dirtyBlocks path = []) :
    ∃ files j, (s.view.sdk.dir path).linked.Shows files ∅ ∧
      RocksDB.lookup s.view.leader.store (simplifyPath path) = some j ∧
      ∀ i, j.Current content i (files i) := by
  obtain ⟨files, dirty, j, hshows, hsub, hlookup, hcurrent, -⟩ := h.own
  have hempty : dirty = ∅ := by
    rw [dirtyBlocks, ← TmpDir.dirtyBlocks_linked, hshows.dirtyBlocks, List.map_eq_nil_iff] at hnil
    rw [← dirty.sort_toFinset (· ≤ ·), hnil, List.toFinset_nil]
  subst hempty
  exact ⟨files, j, hshows, hlookup, fun i ↦ hcurrent i (Finset.notMem_empty i)⟩

/-- Without an inode, nothing can be uploaded. -/
theorem fsync_uncached {commit : Option Commit} (hcache : s.view.sdk.cache path = none)
    (hsome : s.dirtyBlocks path ≠ [])
    (hrun : (SDK.fsync path nodes during).run s.view = some (.ok commit, v)) : False := by
  rw [SDK.fsync, run_bind_ok (run_get s.view)] at hrun
  dsimp only at hrun
  split at hrun
  · cases hrun
  split at hrun
  · rename_i hlast
    exact hsome (List.getLast?_eq_none_iff.mp hlast)
  · rw [run_bind_error (getInode_none hcache)] at hrun
    cases hrun

/-- Blocks that have the same entries are current for one inode as for the other. -/
theorem current_of_same {inode inode' : Inode} {i : Nat} {file : Option Str}
    (h : inode.Current content i file) (hsub : inode.sub[i]? = inode'.sub[i]?)
    (hstorage : inode.storageType = inode'.storageType) : inode'.Current content i file := by
  intro block hfile hne
  obtain ⟨e, he, hblock⟩ := h block hfile hne
  exact ⟨e, hsub ▸ he, hstorage ▸ hblock⟩

/-- The entries that `fsync` commits are those for the blocks, when the blocks that were not written
are current for the cached inode. -/
theorem current_committed {inode : Inode} {files : Nat → Option Str} {dirty : Finset Nat}
    {last : Nat} (hnodes : nodes.Agrees content) (hmax : ∀ i ∈ dirty, i ≤ last)
    (hencode : ∀ i ∈ dirty, ∃ e, nodes.encode cached.storageType ((files i).getD []) = .ok e)
    (hstorage : inode.storageType = cached.storageType)
    (hsub : inode.sub =
      SDK.setEntries (fun i ↦ nodes.entry cached.storageType ((files i).getD []))
        (dirty.sort (· ≤ ·)) (SDK.resize cached.sub (last + 1)))
    (hcurrent : ∀ i ∉ dirty, i < cached.sub.length → cached.Current content i (files i))
    (hbeyond : ∀ i ∉ dirty, cached.sub.length ≤ i → (files i).getD [] = []) (i : Nat) :
    inode.Current content i (files i) := by
  by_cases hi : i ∈ dirty
  · intro block hfile _
    obtain ⟨e, he⟩ := hencode i hi
    rw [hfile, Option.getD_some] at he
    refine ⟨e, ?_, hstorage ▸ hnodes.encode _ _ _ he⟩
    rw [hsub]
    refine (SDK.committed_of_mem hmax hi).trans ?_
    rw [hfile, Option.getD_some, Datanodes.entry, he]
    rfl
  · by_cases hlt : i < cached.sub.length
    · refine current_of_same (hcurrent i hi hlt) ?_ hstorage.symm
      rw [hsub]
      exact ((SDK.committed_of_notMem hi).trans (SDK.getElem?_resize hlt)).symm
    · exact current_nil (hbeyond i hi (Nat.le_of_not_lt hlt))

/-- An `fsync` that uploads what was written. -/
theorem Coherent.fsync_uploads {commit : Option Commit} (hnodes : nodes.Agrees content)
    (h : s.Coherent path content) (hduring : ∀ a ∈ during, a.Spares (simplifyPath path))
    (hsome : s.dirtyBlocks path ≠ [])
    (hall : ∀ i ∈ s.written, i ∈ (s.dirtyBlocks path).map (·.1))
    (hfull : ∀ block ∈ s.dirtyBlocks path, block.2 ≠ [] ∨
      ∀ inode, s.view.sdk.cache path = some inode → inode.sub.length ≤ block.1)
    (hrun : (SDK.fsync path nodes during).run s.view = some (.ok commit, v)) :
    Coherent path content { s with view := v } := by
  obtain ⟨files, dirty, j, hshows, hsub, hlookup, hcurrent, hsession⟩ := h.own
  have hlist : s.dirtyBlocks path = (dirty.sort (· ≤ ·)).map fun i ↦ (i, (files i).getD []) := by
    rw [dirtyBlocks, ← TmpDir.dirtyBlocks_linked, hshows.dirtyBlocks]
  have hwrite : (s.view.sdk.dir path).write ≠ none := by
    intro hnone
    refine hsome ?_
    rw [dirtyBlocks, SDK.dirtyBlocks, TmpDir.listWrite, hnone]
    rfl
  rw [TmpDir.linked_eq hwrite] at hshows
  have hwritten := written_eq_dirty hlist hsub hall
  cases hcache : s.view.sdk.cache path with
  | none => exact (fsync_uncached hcache hsome hrun).elim
  | some cached =>
    obtain ⟨hdirs, hstorage, hsame, hbeyond, -⟩ := hsession cached hcache
    obtain ⟨t, hdir⟩ := Option.ne_none_iff_exists'.mp hdirs
    rw [View.dir_eq hdir] at hshows
    obtain ⟨rfl, -⟩ | ⟨last, entry, l, t', hlast, hmax, hencode, hrpc, rfl, hshows'⟩ :=
      SDK.fsync_cases hcache hdir hshows hrun
    · rw [hlist, Finset.sort_empty] at hsome
      exact absurd rfl hsome
    obtain ⟨hlookup', hpending'⟩ := Leader.rpc_putOk_spared h.pending hduring hlookup hrpc
    obtain ⟨myIp, now, hleader⟩ := h.leader
    have hlinked : t'.linked.Shows files ∅ := by
      obtain ⟨links, hw, -⟩ := hshows'.links
      rwa [TmpDir.linked_eq (by rw [hw]; exact Option.some_ne_none _)]
    refine ⟨⟨myIp, now, hleader.trans (Leader.reaches_of_rpc hrpc)⟩, hpending', files, ∅, _, ?_,
      Finset.empty_subset _, hlookup', fun i _ ↦ ?_, ?_⟩
    · show ((s.view.setDir path t').sdk.dir path).linked.Shows files ∅
      rwa [View.dir_setDir]
    · rw [hwritten] at hsame hbeyond
      refine current_committed hnodes hmax hencode ?_ ?_ (fun i hi hlt ↦ ?_) hbeyond i
      · exact hstorage.symm
      · rfl
      · exact current_of_same (hcurrent i hi) (hsame i hi hlt) hstorage.symm
    · intro other hother
      have hother : s.view.sdk.cache path = some other := hother
      rw [hcache] at hother
      obtain rfl := Option.some.inj hother
      refine ⟨?_, hstorage, fun i hi hlt ↦ ?_, hbeyond, fun i hi _ hlt ↦ ?_⟩
      · show (s.view.setDir path t').sdk.dirs ((s.view.setDir path t').sdk.tmpPath path) ≠ none
        rw [View.tmpPath_setDir, View.dirs_setDir]
        exact Option.some_ne_none _
      · refine (SDK.committed_of_notMem (hwritten ▸ hi)).trans ?_
        rw [SDK.getElem?_resize hlt]
      · have hi' : i ∈ dirty := hwritten ▸ hi
        rcases hfull _ (mem_dirtyBlocks hlist hi') with hne | hle
        · exact hne
        · have hle := hle cached hcache
          omega

theorem Coherent.fsync {r : Except Fault (Option Commit)} (hnodes : nodes.Agrees content)
    (h : s.Coherent path content) (hduring : ∀ a ∈ during, a.Spares (simplifyPath path))
    (hup : s.UploadsAll path nodes during)
    (hrun : (SDK.fsync path nodes during).run s.view = some (r, v)) :
    Coherent path content { s with view := v } := by
  rcases hup with hnil | ⟨f, hf⟩ | ⟨⟨commit, w, hok⟩, hall, hfull⟩
  · rw [SDK.fsync_of_nil nodes during hnil] at hrun
    obtain ⟨-, rfl⟩ := Prod.mk.inj (Option.some.inj hrun)
    exact h
  · rw [hf] at hrun
    obtain ⟨-, rfl⟩ := Prod.mk.inj (Option.some.inj hrun)
    exact h
  · by_cases hnil : s.dirtyBlocks path = []
    · rw [SDK.fsync_of_nil nodes during hnil] at hrun
      obtain ⟨-, rfl⟩ := Prod.mk.inj (Option.some.inj hrun)
      exact h
    · rw [hok] at hrun
      obtain ⟨-, rfl⟩ := Prod.mk.inj (Option.some.inj hrun)
      exact h.fsync_uploads hnodes hduring hnil hall hfull hok

/-- When the path is closed, its block files stay. -/
theorem Coherent.close {r : Except Fault (Option Commit)} (hnodes : nodes.Agrees content)
    (h : s.Coherent path content) (hduring : ∀ a ∈ during, a.Spares (simplifyPath path))
    (hup : s.UploadsAll path nodes during)
    (hrun : (SDK.close path nodes during).run s.view = some (r, v)) :
    Coherent path content { s with view := v } := by
  obtain ⟨f, hsync, -⟩ | ⟨commit, w, hsync, hrest⟩ := bind_run hrun
  · exact h.fsync hnodes hduring hup hsync
  · have hw := h.fsync hnodes hduring hup hsync
    obtain ⟨-, rfl⟩ := Prod.mk.inj (Option.some.inj hrest)
    obtain ⟨files, dirty, j, hshows, hsub, hlookup, hcurrent, -⟩ := hw.own
    refine ⟨hw.leader, hw.pending, files, dirty, j, hshows, hsub, hlookup, hcurrent, ?_⟩
    intro cached hcached
    have hnone : update w.sdk.cache path none path = some cached := hcached
    rw [update_self] at hnone
    cases hnone

/-- A commit of another client. -/
theorem Coherent.foreign {filesize : Nat} {sub : List Str} {entry : Entry} {l : Leader}
    (h : s.Coherent path content) (hduring : ∀ a ∈ during, a.Spares (simplifyPath path))
    (hclosed : s.view.sdk.cache path = none)
    (hkeep : s.KeepsCurrent path (.foreign filesize sub during))
    (hrpc : s.view.leader.rpc (.putOk ⟨path, filesize, sub⟩) during = some (.ok entry, l)) :
    Coherent path content { s with view := { s.view with leader := l } } := by
  obtain ⟨files, dirty, j, hshows, hsub, hlookup, hcurrent, -⟩ := h.own
  obtain ⟨hlookup', hpending'⟩ := Leader.rpc_putOk_spared h.pending hduring hlookup hrpc
  obtain ⟨myIp, now, hleader⟩ := h.leader
  refine ⟨⟨myIp, now, hleader.trans (Leader.reaches_of_rpc hrpc)⟩, hpending', files, dirty, _, hshows,
    hsub, hlookup', ?_, ?_⟩
  · intro i hi block hfile hne
    obtain ⟨e, he, hblock⟩ := hcurrent i hi block hfile hne
    have hread : (s.view.sdk.dir path).read i = some block := by
      rw [← TmpDir.read_linked, hshows.read, hfile]
    exact ⟨e, (hkeep j hlookup i block hread hne).trans he, hblock⟩
  · intro cached hcached
    have hnone : s.view.sdk.cache path = some cached := hcached
    rw [hclosed] at hnone
    cases hnone

/-- The path is opened again. -/
theorem Coherent.open {flags : Nat} {waits : Waits} (hne : path ≠ []) (h : s.Coherent path content)
    (hquiet : ∀ a ∈ waits.lock, a.Spares (simplifyPath path))
    (hkeep : s.KeepsCurrent path (.open flags waits))
    (hrun : (SDK.open path flags waits).run s.view = some (.ok (), v)) :
    Coherent path content { view := v } ∧ ∃ remote, v.sdk.cache path = some remote ∧
      RocksDB.lookup v.leader.store (simplifyPath path) = some remote := by
  obtain ⟨hnil, htrunc, hseen⟩ := hkeep
  obtain ⟨files, j, hshows, hlookup, hcurrent⟩ := h.dirty_of_nil hnil
  obtain ⟨myIp, now, hleader⟩ := h.leader
  obtain ⟨hreach, hpending, -, deadline, hcache, hlookup'⟩ := SDK.open_lookup hne
    (htrunc.imp_right fun hz ↦ hz j hlookup) h.pending hquiet hleader hlookup hrun (hseen v hrun)
  have hafter := SDK.open_around
    (H := fun t ↦ ∃ files, t.linked.Shows files ∅ ∧ ∀ i, j.Current content i (files i))
    (G := fun t ↦ ∃ files, t.linked.Shows files ∅ ∧ ∀ i, j.Current content i (files i))
    ?_ ?_ ⟨files, hshows, hcurrent⟩ hrun
  · obtain ⟨t, hdir, files', hshows', hcurrent'⟩ := hafter.own
    rw [← hafter.tmpPath_eq] at hdir
    refine ⟨⟨⟨myIp, now, hleader.trans hreach⟩, hpending, files', ∅, _,
      by rwa [View.dir_eq hdir], Finset.empty_subset _, hlookup', fun i _ ↦ hcurrent' i, ?_⟩,
      _, hcache, hlookup'⟩
    intro cached hcached
    obtain rfl := Option.some.inj (hcache.symm.trans hcached)
    refine ⟨by rw [hdir]; exact Option.some_ne_none _, rfl, fun i _ _ ↦ rfl, fun i _ hle ↦ ?_, ?_⟩
    · by_contra hfull
      cases hfile : files' i with
      | none =>
        rw [hfile] at hfull
        exact hfull rfl
      | some block =>
        rw [hfile, Option.getD_some] at hfull
        obtain ⟨e, he, -⟩ := hcurrent' i block hfile hfull
        have hlt := (List.getElem?_eq_some_iff.mp he).1
        have hle : j.sub.length ≤ i := hle
        omega
    · intro i hi
      cases hi
  · rintro t ⟨files, hshows, hcurrent⟩
    refine ⟨files, ?_, hcurrent⟩
    split
    · exact hshows.clearWrite
    · exact hshows
  · rintro t indices ⟨files, hshows, hcurrent⟩
    refine ⟨_, hshows.removeAll indices, fun i ↦ ?_⟩
    split
    · exact current_nil rfl
    · exact hcurrent i

theorem Coherent.synced {r : Except Fault (Option Commit)}
    (h : Coherent path content { s with view := v }) :
    Coherent path content (s.synced path nodes (r, v)) := by
  cases r with
  | ok commit => exact h.with_entries _
  | error f => exact h

theorem Coherent.step {a : Step} (hne : path ≠ []) (h : s.Coherent path content)
    (hoccurs : s.Occurs path content a) (hkeep : s.KeepsCurrent path a)
    (hs : s.step path a = some s') : s'.Coherent path content := by
  cases a with
  | «open» flags waits =>
    obtain ⟨⟨r, v⟩, hrun, rfl⟩ := Option.map_eq_some_iff.mp hs
    rcases hoccurs.2 with hcreat | ⟨w, hok⟩
    · rw [SDK.open, if_pos hcreat] at hrun
      obtain ⟨rfl, rfl⟩ := Prod.mk.inj (Option.some.inj hrun)
      exact h
    · rw [hok] at hrun
      obtain ⟨rfl, rfl⟩ := Prod.mk.inj (Option.some.inj hrun)
      exact (h.open hne hoccurs.1 hkeep hok).1
  | read offset size nodes =>
    obtain ⟨⟨r, v⟩, hrun, rfl⟩ := Option.map_eq_some_iff.mp hs
    exact (h.read hoccurs hrun).1
  | write offset data nodes =>
    obtain ⟨⟨r, v⟩, hrun, rfl⟩ := Option.map_eq_some_iff.mp hs
    exact h.write hoccurs hkeep hrun
  | fsync nodes during =>
    obtain ⟨⟨r, v⟩, hrun, rfl⟩ := Option.map_eq_some_iff.mp hs
    exact (h.fsync hoccurs.1 hoccurs.2 hkeep hrun).synced
  | close nodes during =>
    obtain ⟨⟨r, v⟩, hrun, rfl⟩ := Option.map_eq_some_iff.mp hs
    exact (h.close hoccurs.1 hoccurs.2 hkeep hrun).synced
  | foreign filesize sub during =>
    obtain ⟨hduring, hclosed, entry, l, hrpc⟩ := hoccurs
    rw [Handle.step, hrpc] at hs
    obtain rfl := Option.some.inj hs
    exact h.foreign hduring hclosed hkeep hrpc

end Handle

/-- A client that has nothing of a file yet. -/
structure Handle.Starts (path : Str) (v : View) : Prop where
  leader : ∃ myIp now, Reaches Leader.step (fun _ _ ↦ True) (.start myIp now) v.leader
  pending : ∀ q ∈ v.leader.pending, q.entry.Spares (simplifyPath path)
  lookup : ∃ j, RocksDB.lookup v.leader.store (simplifyPath path) = some j
  cache : v.sdk.cache path = none
  dirs : v.sdk.dirs (v.sdk.tmpPath path) = none

theorem Handle.Starts.coherent {path : Str} {content : Option StorageType → Str → Str} {v : View}
    (h : Handle.Starts path v) : Handle.Coherent path content { view := v } := by
  obtain ⟨j, hlookup⟩ := h.lookup
  have hdir : v.sdk.dir path = {} := by rw [SDK.dir, h.dirs, Option.getD_none]
  refine ⟨h.leader, h.pending, fun _ ↦ none, ∅, j, ?_, subset_rfl, hlookup,
    fun i _ ↦ Handle.current_nil rfl, ?_⟩
  · rw [hdir]
    exact TmpDir.shows_empty none rfl
  · intro cached hcached
    rw [h.cache] at hcached
    cases hcached

/-- After every `open` of a history that meets the condition, and after any `read_data` that follows it,
each block file that is not empty holds the block for the entry that the leader has now. What the
`read_data` returns is cut out of such blocks, unless the block files that it reads are those of
another spelling of the path. -/
theorem open_finds_current {path : Str} {content : Option StorageType → Str → Str} {v v' : View}
    {s : Handle} {flags : Nat} {waits : Waits} (hne : path ≠ []) (hstart : Handle.Starts path v)
    (hreach : Reaches (Handle.step path)
      (fun s a ↦ s.Occurs path content a ∧ s.KeepsCurrent path a) { view := v } s)
    (hquiet : ∀ a ∈ waits.lock, a.Spares (simplifyPath path))
    (hkeep : s.KeepsCurrent path (.open flags waits))
    (hopen : (SDK.open path flags waits).run s.view = some (.ok (), v')) :
    ∃ remote, v'.sdk.cache path = some remote ∧
      RocksDB.lookup v'.leader.store (simplifyPath path) = some remote ∧
      (∀ i, remote.Current content i ((v'.sdk.dir path).read i)) ∧
      ∀ offset size nodes r w, nodes.Agrees content →
        (SDK.readData path offset size nodes).run v' = some (r, w) →
          (∀ i, remote.Current content i ((w.sdk.dir path).read i)) ∧
          (simplifyPath path = path → ∀ data, r = .ok data →
            remote.CurrentPart content offset size data) := by
  have hcoherent := hreach.invariant (I := Handle.Coherent path content) hstart.coherent
    fun _ _ _ _ hi hg hs ↦ hi.step hne hg.1 hg.2 hs
  obtain ⟨hopened, remote, hcache, hlookup⟩ := hcoherent.open hne hquiet hkeep hopen
  refine ⟨remote, hcache, hlookup, hopened.current hlookup, ?_⟩
  intro offset size nodes r w hnodes hrun
  obtain ⟨P, hfill, hfirst, hfilled⟩ := hopened.filled hnodes hcache
  have hcurrent : ∀ t, SDK.Within path P v' t →
      ∀ i, remote.Current content i ((t.sdk.dir path).read i) := by
    intro t ht
    refine (hfilled t ht).current ?_
    rw [ht.leader]
    exact hlookup
  refine ⟨hcurrent w (SDK.readData_within hcache hfill hfirst hrun), ?_⟩
  rintro hpath data rfl
  have hown : remote.fullpath.str = path := (RocksDB.fullpath_of_lookup hlookup).trans hpath
  have hkeeps : ∀ index, Keeps (SDK.Within path P v') (SDK.fetchBlock remote index nodes) := fun _ ↦
    SDK.keeps_within_fetchBlock fun _ ↦ hfill
  obtain ⟨hlength, blocks, zeros, hdata, hzeros, hblocks⟩ :=
    SDK.readData_pieces hcache hkeeps hfirst hrun
  refine ⟨hlength, blocks, zeros, hdata, hzeros, fun k block hk ↦ ?_⟩
  obtain ⟨t, ht, hblock⟩ := hblocks k block hk
  rw [hblock, hown]
  exact (hcurrent t ht _).getD

/-- Another client commits a block, this client reads it and closes the file, and then the other one
commits another block in its place. -/
def visitSteps : List Handle.Step :=
  [.foreign 1 ["10.0.0.2:8002|a".toList] [.apply], .open oRdonly { seen := 2 }, .read 0 1 .byContent,
    .close .byContent [], .foreign 1 ["10.0.0.2:8002|b".toList] [.apply]]

def visited (count : Nat) : Handle :=
  Handle.after "/f".toList { view := emptyView } (visitSteps.take count)

def visitedOpen (count seen : Nat) : Option (Except Fault Unit × View) :=
  (SDK.open "/f".toList oRdonly { seen := seen }).run (visited count).view

def visitedOpened (count seen : Nat) : View :=
  ((visitedOpen count seen).map (·.2)).getD (visited count).view

/-- An entry stands for what follows the name of the datanode. -/
def byContent (_ : Option StorageType) (s : Str) : Str := s.drop 14

theorem byContent_agrees : Datanodes.byContent.Agrees byContent where
  encode storage block s h := by
    have hlength : "10.0.0.2:8002|".toList.length = 14 := by decide
    obtain rfl := Except.ok.inj h
    rw [byContent, ← hlength, List.drop_left]
  decode storage s block h := .inr (Except.ok.inj h).symm

theorem starts_visited : Handle.Starts "/f".toList emptyView where
  leader := newFile_empty.leader
  pending := newFile_empty.pending
  lookup := ⟨_, newFile_empty.lookup⟩
  cache := rfl
  dirs := rfl

section

theorem visitedOpen_eq (count seen : Nat)
    (h : (visitedOpen count seen).map (fun r ↦ (r.1, r.2.leader.applied.length)) =
      some (.ok (), seen)) :
    visitedOpen count seen = some (.ok (), visitedOpened count seen) ∧
      seen = (visitedOpened count seen).leader.applied.length := by
  obtain ⟨⟨r, w⟩, hw, hr⟩ := Option.map_eq_some_iff.mp h
  obtain ⟨rfl, hlength⟩ := Prod.mk.inj hr
  have hview : visitedOpened count seen = w := by
    rw [visitedOpened, hw]
    rfl
  rw [hview]
  exact ⟨hw, hlength.symm⟩

variable {count seen : Nat}

theorem keepsCurrent_visitedOpen (hnil : (visited count).dirtyBlocks "/f".toList = [])
    (h : (visitedOpen count seen).map (fun r ↦ (r.1, r.2.leader.applied.length)) =
      some (.ok (), seen)) :
    (visited count).KeepsCurrent "/f".toList (.open oRdonly { seen := seen }) := by
  obtain ⟨hopen, hseen⟩ := visitedOpen_eq count seen h
  refine ⟨hnil, .inl (by decide), fun w hw ↦ ?_⟩
  obtain ⟨-, rfl⟩ := Prod.mk.inj (Option.some.inj (hopen.symm.trans hw))
  exact hseen

theorem occurs_visited {a : Handle.Step} (h : visitSteps[count]? = some a) :
    (visited count).Occurs "/f".toList byContent a ∧
      ((visited count).step "/f".toList a).isSome = true := by
  have hquiet : ∀ a ∈ [Action.apply], a.Spares (simplifyPath "/f".toList) := by
    intro a ha
    obtain rfl := List.mem_singleton.mp ha
    exact trivial
  have hcommit : ∀ sub,
      ((visited count).view.leader.rpc (.putOk ⟨"/f".toList, 1, sub⟩) [.apply]).any (·.1.isOk) = true →
        ∃ entry l, (visited count).view.leader.rpc (.putOk ⟨"/f".toList, 1, sub⟩) [.apply] =
          some (.ok entry, l) := by
    intro sub hany
    obtain ⟨⟨r, l⟩, hrpc, hok⟩ := (Option.any_eq_true _ _).mp hany
    cases r with
    | ok entry => exact ⟨entry, l, hrpc⟩
    | error f => cases hok
  have hlt : count < 5 := (List.getElem?_eq_some_iff.mp h).1
  obtain rfl | rfl | rfl | rfl | rfl : count = 0 ∨ count = 1 ∨ count = 2 ∨ count = 3 ∨ count = 4 := by
    omega
  all_goals obtain rfl := Option.some.inj h
  · exact ⟨⟨hquiet, by decide +kernel, hcommit _ (by decide +kernel)⟩, by decide +kernel⟩
  · exact ⟨⟨by simp, .inr ⟨_, (visitedOpen_eq 1 2 (by decide +kernel)).1⟩⟩, by decide +kernel⟩
  · exact ⟨byContent_agrees, by decide +kernel⟩
  · exact ⟨⟨byContent_agrees, by simp⟩, by decide +kernel⟩
  · exact ⟨⟨hquiet, by decide +kernel, hcommit _ (by decide +kernel)⟩, by decide +kernel⟩

theorem visited_reached {guard : Handle → Handle.Step → Prop} (count : Nat)
    (h : ∀ k < count, ∀ a, visitSteps[k]? = some a → guard (visited k) a) :
    Reaches (Handle.step "/f".toList)
      (fun s a ↦ s.Occurs "/f".toList byContent a ∧ guard s a) { view := emptyView }
      (visited count) := by
  refine Handle.reaches_after count fun k hk a ha ↦ ?_
  obtain ⟨hoccurs, hs⟩ := occurs_visited ha
  exact ⟨⟨hoccurs, h k hk a ha⟩, hs⟩

end

/-- As long as the file stays as it was, the block that was read is current. -/
theorem open_finds_current_unchanged :
    ((visitedOpened 4 2).sdk.dir "/f".toList).read 0 = some "a".toList ∧
      ∃ remote, (visitedOpened 4 2).sdk.cache "/f".toList = some remote ∧
        RocksDB.lookup (visitedOpened 4 2).leader.store (simplifyPath "/f".toList) = some remote ∧
        ∀ i, remote.Current byContent i (((visitedOpened 4 2).sdk.dir "/f".toList).read i) := by
  have hkeeps : ∀ k < 4, ∀ a, visitSteps[k]? = some a → (visited k).KeepsCurrent "/f".toList a := by
    intro k hk a ha
    obtain rfl | rfl | rfl | rfl : k = 0 ∨ k = 1 ∨ k = 2 ∨ k = 3 := by omega
    all_goals obtain rfl := Option.some.inj ha
    · intro j _ i block hread
      cases hread
    · exact keepsCurrent_visitedOpen (by decide +kernel) (by decide +kernel)
    · exact trivial
    · exact .inl (by decide +kernel)
  obtain ⟨hopen, -⟩ := visitedOpen_eq 4 2 (by decide +kernel)
  obtain ⟨remote, hcache, hlookup, hcurrent, -⟩ := open_finds_current (by decide) starts_visited
    (visited_reached 4 hkeeps) (by simp)
    (keepsCurrent_visitedOpen (by decide +kernel) (by decide +kernel)) hopen
  exact ⟨by decide +kernel, remote, hcache, hlookup, hcurrent⟩

/-- The other client's second block is not noticed: the first one is read again. -/
theorem open_finds_superseded :
    Handle.Starts "/f".toList emptyView ∧
      Reaches (Handle.step "/f".toList) (fun s a ↦ s.Occurs "/f".toList byContent a ∧ True)
        { view := emptyView } (visited 5) ∧
      (SDK.open "/f".toList oRdonly { seen := 3 }).run (visited 5).view =
        some (.ok (), visitedOpened 5 3) ∧
      3 = (visitedOpened 5 3).leader.applied.length ∧
      ((visitedOpened 5 3).sdk.cache "/f".toList).map (·.sub) =
        some ["10.0.0.2:8002|b".toList] ∧
      ((SDK.readData "/f".toList 0 1 .byContent).run (visitedOpened 5 3)).map (·.1) =
        some (.ok "a".toList) ∧
      ¬ ∃ remote, (visitedOpened 5 3).sdk.cache "/f".toList = some remote ∧
        remote.Current byContent 0 (((visitedOpened 5 3).sdk.dir "/f".toList).read 0) := by
  obtain ⟨hopen, hseen⟩ := visitedOpen_eq 5 3 (by decide +kernel)
  have hsub : ((visitedOpened 5 3).sdk.cache "/f".toList).map (·.sub) =
      some ["10.0.0.2:8002|b".toList] := by decide +kernel
  refine ⟨starts_visited, visited_reached 5 fun _ _ _ _ ↦ trivial, hopen, hseen, hsub,
    by decide +kernel, ?_⟩
  rintro ⟨remote, hremote, hcurrent⟩
  rw [hremote, Option.map_some, Option.some.injEq] at hsub
  obtain ⟨e, he, hblock⟩ := hcurrent "a".toList (by decide +kernel) (by decide)
  rw [hsub] at he
  obtain rfl := Option.some.inj he
  rw [byContent] at hblock
  exact absurd hblock (by decide +kernel)

end Spkdfs
