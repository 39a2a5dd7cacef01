import Spkdfs.Client.SerialWriters
import Spkdfs.Client.Opening

namespace Spkdfs

open Library Procedure Function

/-- How the block files of a path change while its client reads and writes: a block file that is
not to be uploaded keeps its content, unless it was empty and is filled with a block that may
be fetched. No block file gets shorter. -/
structure Touches (fetched : Nat → Str → Prop) (files : Nat → Option Str) (dirty : Finset Nat)
    (files' : Nat → Option Str) (dirty' : Finset Nat) : Prop where
  dirty : dirty ⊆ dirty'
  grows : ∀ i, (files i).getD [] <+: (files' i).getD []
  clean : ∀ i ∉ dirty', files' i = files i ∨
    (files i).getD [] = [] ∧ fetched i ((files' i).getD [])

namespace Touches

variable {fetched : Nat → Str → Prop} {files files' files'' : Nat → Option Str}
  {dirty dirty' dirty'' : Finset Nat}

theorem refl : Touches fetched files dirty files dirty :=
  ⟨fun _ h ↦ h, fun _ ↦ List.prefix_refl _, fun _ _ ↦ .inl rfl⟩

theorem trans (h : Touches fetched files dirty files' dirty')
    (h' : Touches fetched files' dirty' files'' dirty'') :
    Touches fetched files dirty files'' dirty'' where
  dirty := h.dirty.trans h'.dirty
  grows i := (h.grows i).trans (h'.grows i)
  clean i hi := by
    have hi' : i ∉ dirty' := fun hm ↦ hi (h'.dirty hm)
    rcases h'.clean i hi with hsame | ⟨hempty, hfetched⟩
    · rw [hsame]
      exact h.clean i hi'
    · have hnil := h.grows i
      rw [hempty, List.prefix_nil] at hnil
      exact .inr ⟨hnil, hfetched⟩

/-- An empty block file is filled. -/
theorem fill {i : Nat} {s : Str} (hempty : (files i).getD [] = []) (hs : fetched i s) :
    Touches fetched files dirty (update files i (some s)) dirty where
  dirty _ h := h
  grows k := by
    by_cases hk : k = i
    · subst hk
      rw [hempty]
      exact List.nil_prefix
    · rw [update_of_ne hk]
  clean k _ := by
    by_cases hk : k = i
    · subst hk
      rw [update_self]
      exact .inr ⟨hempty, hs⟩
    · exact .inl (update_of_ne hk ..)

/-- A block is written at the end of its file. -/
theorem append (i : Nat) (s : Str) :
    Touches fetched files dirty (update files i (some ((files i).getD [] ++ s)))
      (insert i dirty) where
  dirty := Finset.subset_insert i dirty
  grows k := by
    by_cases hk : k = i
    · subst hk
      rw [update_self]
      exact List.prefix_append _ _
    · rw [update_of_ne hk]
  clean k hk := by
    rw [Finset.mem_insert, not_or] at hk
    exact .inl (update_of_ne hk.1 ..)

end Touches

namespace SDK

/-- A block that `read_data` may put into the file with this index. -/
def Fetched (nodes : Datanodes) (inode : Inode) (i : Nat) (block : Str) : Prop :=
  block = [] ∨ ∃ s, inode.sub[i]? = some s ∧ nodes.decode inode.storageType s = .ok block

/-- A view in which nothing is different from `u` but local files, and the directory of the path has
the property. -/
structure Within (path : Str) (P : TmpDir → Prop) (u v : View) : Prop where
  leader : v.leader = u.leader
  progress : v.progress = u.progress
  cache : v.sdk.cache = u.sdk.cache
  tmpPath : v.sdk.tmpPath = u.sdk.tmpPath
  own : ∃ t, v.sdk.dirs (v.sdk.tmpPath path) = some t ∧ P t

/-- An empty block file may be filled with what is fetched. -/
def Fillable (fetched : Nat → Str → Prop) (P : TmpDir → Prop) : Prop :=
  ∀ t i s, P t → (t.read i).getD [] = [] → fetched i s → P (t.save i s)

variable {path : Str} {P : TmpDir → Prop} {u v v' : View} {inode : Inode} {nodes : Datanodes}
  {t : TmpDir} {index : Int}

theorem Within.start (hdir : u.sdk.dirs (u.sdk.tmpPath path) = some t) (hP : P t) :
    Within path P u u := ⟨rfl, rfl, rfl, rfl, t, hdir, hP⟩

/-- A step in the directory of the path. -/
theorem Within.setDir (h : Within path P u v) {t' : TmpDir} (hP : P t') :
    Within path P u (v.setDir path t') :=
  ⟨h.leader, h.progress, h.cache, h.tmpPath, t', View.dirs_setDir, hP⟩

/-- A step in another directory. -/
theorem Within.setDir_other (h : Within path P u v) {q : Str} {t' : TmpDir}
    (hne : v.sdk.tmpPath path ≠ v.sdk.tmpPath q) : Within path P u (v.setDir q t') := by
  obtain ⟨t, hdir, hP⟩ := h.own
  exact ⟨h.leader, h.progress, h.cache, h.tmpPath, t, (update_of_ne hne ..).trans hdir, hP⟩

theorem Within.holding (h : Within path P u v) (key : Str) : Within path P u (v.holding key) :=
  ⟨h.leader, h.progress, h.cache, h.tmpPath, h.own⟩

theorem setDir_congr {q : Str} (h : v.sdk.tmpPath q = v.sdk.tmpPath path) (t : TmpDir) :
    v.setDir q t = v.setDir path t := by
  rw [View.setDir, View.setDir, h]

theorem Within.save {q : Str} (hP : u.sdk.tmpPath q = u.sdk.tmpPath path →
    Fillable (Fetched nodes inode) P) {i : Nat} {s : Str} (h : Within path P u v)
    (hempty : ((v.sdk.dir q).read i).getD [] = []) (hs : Fetched nodes inode i s) :
    Within path P u (v.setDir q ((v.sdk.dir q).save i s)) := by
  by_cases hq : v.sdk.tmpPath q = v.sdk.tmpPath path
  · obtain ⟨t, hdir, ht⟩ := h.own
    have hown : v.sdk.dir q = t := by rw [SDK.dir, hq, hdir, Option.getD_some]
    rw [hown] at hempty
    rw [setDir_congr hq, hown]
    rw [h.tmpPath] at hq
    exact h.setDir (hP hq t i s ht hempty hs)
  · exact h.setDir_other (Ne.symm hq)

theorem keeps_within_fetchBlock (hP : u.sdk.tmpPath inode.fullpath.str = u.sdk.tmpPath path →
    Fillable (Fetched nodes inode) P) :
    Keeps (Within path P u) (fetchBlock inode index nodes) := by
  intro v r v' hv h
  have hnil : ((v.sdk.dir inode.fullpath.str).read index.toNat).any (· ≠ []) = false →
      ((v.sdk.dir inode.fullpath.str).read index.toNat).getD [] = [] := by
    intro hfile
    cases hread : (v.sdk.dir inode.fullpath.str).read index.toNat with
    | none => rfl
    | some file =>
      rw [hread] at hfile
      simpa using hfile
  cases (fetches_of_run h).2 with
  | beyond | present => exact hv
  | absent => exact hv.holding _
  | refused hsub hfile hdir hdecode =>
    have hopened := (hv.holding (v.sdk.getTmpIndexPath inode.fullpath.str index.toNat)).save
      (s := []) hP (hnil hfile) (.inl rfl)
    rwa [View.dir_holding, View.dir_eq hdir] at hopened
  | filled hsub hfile hdir hdecode =>
    have hopened := hv.save (s := []) hP (hnil hfile) (.inl rfl)
    have hsaved := hopened.save hP (by rw [View.dir_setDir, TmpDir.read_save, Option.getD_some])
      (.inr ⟨_, hsub, hdecode⟩)
    rwa [View.dir_setDir, View.setDir_setDir, View.dir_eq hdir] at hsaved

theorem keeps_within_readBlocks (hP : Fillable (Fetched nodes inode) P) {last : Int}
    {indices : List Int} : Keeps (Within path P u) (readBlocks inode nodes last indices) := by
  induction indices with
  | nil => exact keeps_pure _
  | cons index rest ih =>
    rw [readBlocks]
    split
    · exact keeps_pure _
    · refine (keeps_within_fetchBlock fun _ ↦ hP).bind fun _ ↦ keeps_get.bind fun _ ↦ ?_
      exact ih.bind fun _ ↦ keeps_pure _

theorem readData_within {offset size : Nat} {r : Except Fault Str}
    (hc : v.sdk.cache path = some inode) (hP : Fillable (Fetched nodes inode) P)
    (hstart : Within path P v v) (h : (readData path offset size nodes).run v = some (r, v')) :
    Within path P v v' := by
  have hget : (getInode path).run v = some (.ok inode, v) := getInode_ok.mpr ⟨hc, rfl⟩
  rw [readData, run_bind_ok hget] at h
  split at h
  · obtain ⟨-, rfl⟩ := Prod.mk.inj (Option.some.inj h)
    exact hstart
  split at h
  · cases h
  dsimp only at h
  generalize (if inode.filesize < (offset + size) % 2 ^ 64 then inode.filesize - offset
    else size) = part at h
  refine Keeps.bind (keeps_within_readBlocks hP) (fun s ↦ ?_) _ _ _ hstart h
  split
  · exact keeps_stuck
  · exact keeps_pure _

/-- The number of bytes that `read_data` returns, when it returns a string. -/
def readSize (inode : Inode) (offset size : Nat) : Nat :=
  if inode.filesize < offset then 0
  else if inode.filesize < (offset + size) % 2 ^ 64 then inode.filesize - offset else size

/-- The index of the block that they begin in. -/
def readFirst (inode : Inode) (offset size : Nat) : Int :=
  (getIndexs inode offset (readSize inode offset size)).1

/-- What the loop reads are block files as they are at some time while it runs, and zeros where
there is no entry. -/
theorem readBlocks_pieces {I : View → Prop} {last : Int} {indices : List Int} {s : Str} {w : View}
    (hI : ∀ index, Keeps I (fetchBlock inode index nodes)) (hv : I v)
    (hrun : (readBlocks inode nodes last indices).run v = some (.ok s, w)) :
    ∃ (blocks : List Str) (zeros : Nat), s = blocks.flatten ++ List.replicate zeros '\x00' ∧
      (zeros ≠ 0 → ∃ index, indices[blocks.length]? = some index ∧ inode.sub.length ≤ index) ∧
      ∀ (k : Nat) block, blocks[k]? = some block → ∃ index t, indices[k]? = some index ∧ I t ∧
        block = ((t.sdk.dir inode.fullpath.str).read index.toNat).getD [] := by
  induction indices generalizing v s w with
  | nil =>
    obtain ⟨he, -⟩ := Prod.mk.inj (Option.some.inj hrun)
    exact ⟨[], 0, (Except.ok.inj he).symm, fun h ↦ absurd rfl h, nofun⟩
  | cons index rest ih =>
    rw [readBlocks] at hrun
    split_ifs at hrun with hbeyond
    · obtain ⟨he, -⟩ := Prod.mk.inj (Option.some.inj hrun)
      exact ⟨[], _, (Except.ok.inj he).symm, fun _ ↦ ⟨index, rfl, hbeyond⟩, nofun⟩
    · obtain ⟨u, t, hfetch, hrun⟩ := bind_ok hrun
      have ht : I t := hI index v _ t hv hfetch
      obtain ⟨r, t', hget, hrun⟩ := bind_ok hrun
      obtain ⟨hr, rfl⟩ := Prod.mk.inj (Option.some.inj hget)
      obtain rfl := Except.ok.inj hr
      obtain ⟨tail, w', hrest, hend⟩ := bind_ok hrun
      obtain ⟨he, -⟩ := Prod.mk.inj (Option.some.inj hend)
      obtain ⟨blocks, zeros, rfl, hzeros, hblocks⟩ := ih ht hrest
      refine ⟨((t.sdk.dir inode.fullpath.str).read index.toNat).getD [] :: blocks, zeros, ?_,
        hzeros, ?_⟩
      · rw [← Except.ok.inj he, List.flatten_cons, List.append_assoc]
      · rintro (_ | k) block hk
        · exact ⟨index, t, rfl, ht, (Option.some.inj hk).symm⟩
        · exact hblocks k block hk

/-- What `read_data` returns is cut out of them, as many bytes as were asked for or are left. -/
theorem readData_pieces {I : View → Prop} {offset size : Nat} {s : Str} {w : View}
    (hc : v.sdk.cache path = some inode) (hI : ∀ index, Keeps I (fetchBlock inode index nodes))
    (hv : I v) (hrun : (readData path offset size nodes).run v = some (.ok s, w)) :
    s.length = readSize inode offset size ∧ ∃ (blocks : List Str) (zeros : Nat),
      s = ((blocks.flatten ++ List.replicate zeros '\x00').drop (offset -
        readFirst inode offset size * inode.getBlockSize).toNat).take (readSize inode offset size) ∧
      (zeros ≠ 0 → inode.sub.length ≤ readFirst inode offset size + blocks.length) ∧
      ∀ (k : Nat) block, blocks[k]? = some block → ∃ t, I t ∧ block = ((t.sdk.dir
        inode.fullpath.str).read (readFirst inode offset size + k).toNat).getD [] := by
  have hget : (getInode path).run v = some (.ok inode, v) := getInode_ok.mpr ⟨hc, rfl⟩
  rw [readData, run_bind_ok hget] at hrun
  by_cases hout : inode.filesize < offset
  · rw [if_pos hout] at hrun
    obtain ⟨he, -⟩ := Prod.mk.inj (Option.some.inj hrun)
    obtain rfl := Except.ok.inj he
    rw [readSize, if_pos hout]
    exact ⟨rfl, [], 0, rfl, fun h ↦ absurd rfl h, by simp⟩
  rw [if_neg hout] at hrun
  split at hrun
  · cases hrun
  have hsize : (if inode.filesize < (offset + size) % 2 ^ 64 then inode.filesize - offset
      else size) = readSize inode offset size := (if_neg hout).symm
  dsimp only at hrun
  rw [hsize] at hrun
  obtain ⟨str, t, hread, hrun⟩ := bind_ok hrun
  obtain ⟨blocks, zeros, rfl, hzeros, hblocks⟩ := readBlocks_pieces hI hv hread
  split_ifs at hrun with hshort
  · cases hrun
  obtain ⟨he, -⟩ := Prod.mk.inj (Option.some.inj hrun)
  obtain rfl := Except.ok.inj he
  have hindices : ∀ {count k : Nat} {index : Int}, ((List.range count).map fun i : Nat ↦
      readFirst inode offset size + i)[k]? = some index → index = readFirst inode offset size + k := by
    intro count k index hindex
    rw [List.getElem?_map] at hindex
    obtain ⟨i, hi, rfl⟩ := Option.map_eq_some_iff.mp hindex
    obtain ⟨_, hk⟩ := List.getElem?_eq_some_iff.mp hi
    rw [List.getElem_range] at hk
    rw [hk]
  refine ⟨?_, blocks, zeros, rfl, fun hne ↦ ?_, fun k block hk ↦ ?_⟩
  · rw [List.length_take, List.length_drop]
    omega
  · obtain ⟨index, hindex, hbeyond⟩ := hzeros hne
    exact hindices hindex ▸ hbeyond
  · obtain ⟨index, u, hindex, hu, hblock⟩ := hblocks k block hk
    exact ⟨u, hu, hindices hindex ▸ hblock⟩

variable {fetched : Nat → Str → Prop} {files : Nat → Option Str} {dirty : Finset Nat}

/-- The directory after reading and writing. -/
def Touched (fetched : Nat → Str → Prop) (files : Nat → Option Str) (dirty : Finset Nat)
    (t : TmpDir) : Prop :=
  ∃ files' dirty', t.Shows files' dirty' ∧ Touches fetched files dirty files' dirty'

theorem fillable_touched : Fillable fetched (Touched fetched files dirty) := by
  rintro t i s ⟨files', dirty', hshows, htouches⟩ hempty hs
  rw [hshows.read] at hempty
  exact ⟨_, _, hshows.save i s, htouches.trans (.fill hempty hs)⟩

/-- The directory after reading alone. -/
def Filled (fetched : Nat → Str → Prop) (files : Nat → Option Str) (dirty : Finset Nat)
    (t : TmpDir) : Prop :=
  ∃ files', t.Shows files' dirty ∧ Touches fetched files dirty files' dirty

theorem fillable_filled : Fillable fetched (Filled fetched files dirty) := by
  rintro t i s ⟨files', hshows, htouches⟩ hempty hs
  rw [hshows.read] at hempty
  exact ⟨_, hshows.save i s, htouches.trans (.fill hempty hs)⟩

theorem keeps_within_writeBlocks {offset size blockSize : Nat} {indexs : Int × Int}
    {indices : List Int} {data : Str} :
    Keeps (Within path (Touched fetched files dirty) u)
      (writeBlocks path offset size blockSize indexs indices data) := by
  induction indices generalizing data with
  | nil => exact keeps_pure _
  | cons index rest ih =>
    intro v r v' hv h
    obtain ⟨t, hdir, files', dirty', hshows, htouches⟩ := hv.own
    rw [writeBlocks, run_bind_ok (run_get v)] at h
    simp only [hdir, View.dir_eq hdir, Option.isNone_some, Bool.false_eq_true, if_false] at h
    split at h
    · cases h
    rw [run_bind_ok (modifyDir_eq _)] at h
    have happend := hshows.append (toUInt32 index) (data.take
      ((blockPart offset size blockSize indexs index).2 -
        (blockPart offset size blockSize indexs index).1))
    obtain ⟨linked, hln, hlinked⟩ := happend.lnPathIndex (i := toUInt32 index) (by simp)
    simp only [hln] at h
    rw [run_bind_ok (modifyDir_eq _), View.setDir_setDir] at h
    exact ih _ _ _ (hv.setDir ⟨_, _, hlinked, htouches.trans (.append _ _)⟩) h

/-- What `write_data` does, whether it returns or throws. -/
theorem writeData_within {offset : Nat} {data : Str} {r : Except Fault Unit}
    (hc : v.sdk.cache path = some inode) (hdir : v.sdk.dirs (v.sdk.tmpPath path) = some t)
    (hshows : t.Shows files dirty)
    (h : (writeData path offset data nodes).run v = some (r, v')) :
    Within path (Touched (Fetched nodes inode) files dirty) v v' := by
  have hget : (getInode path).run v = some (.ok inode, v) := getInode_ok.mpr ⟨hc, rfl⟩
  have hstart : Within path (Touched (Fetched nodes inode) files dirty) v v :=
    .start hdir ⟨files, dirty, hshows, .refl⟩
  have hfetch : ∀ (needed : Prop) [Decidable needed] (index : Int),
      Keeps (Within path (Touched (Fetched nodes inode) files dirty) v)
        (if needed then fetchBlock inode index nodes else pure () : Method Unit) := by
    intro needed _ index
    split
    · exact keeps_within_fetchBlock fun _ ↦ fillable_touched
    · exact keeps_pure _
  rw [writeData, run_bind_ok hget] at h
  dsimp only at h
  split at h
  · cases h
  · refine Keeps.bind (hfetch _ _) (fun _ ↦ ?_) _ _ _ hstart h
    exact (hfetch _ _).bind fun _ ↦ keeps_within_writeBlocks

variable {during : List Action}

theorem encode_of_encodeBlocks {storage : Option StorageType} {blocks : List (Nat × Str)}
    {sub sub' : List Str}
    (h : (encodeBlocks path nodes storage blocks sub).run v = some (.ok sub', v')) :
    ∀ block ∈ blocks, ∃ s, nodes.encode storage block.2 = .ok s := by
  induction blocks generalizing sub v with
  | nil =>
    intro block hb
    cases hb
  | cons first rest ih =>
    obtain ⟨i, data⟩ := first
    rw [encodeBlocks] at h
    cases hs : nodes.encode storage data with
    | error f =>
      rw [hs, run_bind_error (uploadBlock_error i)] at h
      cases h
    | ok s =>
      rw [hs, run_bind_ok (uploadBlock_ok i s)] at h
      intro block hb
      rcases List.mem_cons.mp hb with rfl | hb
      · exact ⟨s, hs⟩
      · exact ih h block hb

/-- A successful `fsync` has nothing to do, or uploads all blocks that were written and commits the
cached inode with the new entries. -/
theorem fsync_cases {commit : Option Commit} (hc : v.sdk.cache path = some inode)
    (hdir : v.sdk.dirs (v.sdk.tmpPath path) = some t) (hshows : t.Shows files dirty)
    (h : (fsync path nodes during).run v = some (.ok commit, v')) :
    dirty = ∅ ∧ v' = v ∨ ∃ last entry l t', last ∈ dirty ∧ (∀ i ∈ dirty, i ≤ last) ∧
      (∀ i ∈ dirty, ∃ s, nodes.encode inode.storageType ((files i).getD []) = .ok s) ∧
      v.leader.rpc (.putOk (fsyncRequest path nodes inode files dirty last)) during =
        some (.ok entry, l) ∧
      v' = { v.setDir path t' with leader := l } ∧ t'.Shows files ∅ := by
  rcases dirty.eq_empty_or_nonempty with rfl | hne
  · rw [fsync_clean nodes during hdir hshows] at h
    obtain ⟨-, rfl⟩ := Prod.mk.inj (Option.some.inj h)
    exact .inl ⟨rfl, rfl⟩
  have hmem := dirty.max'_mem hne
  have hmax : ∀ i ∈ dirty, i ≤ dirty.max' hne := fun i hi ↦ dirty.le_max' i hi
  have hblocks := hshows.dirtyBlocks
  have hend : (SDK.dirtyBlocks t).getLast? =
      some (dirty.max' hne, (files (dirty.max' hne)).getD []) := by
    rw [hblocks, List.getLast?_map, getLast?_sort hmem hmax, Option.map_some]
  have hwhole := h
  rw [fsync, run_bind_ok (run_get v), View.dir_eq hdir] at h
  dsimp only at h
  split at h
  · cases h
  rename_i hfew
  simp only [hend] at h
  rw [run_bind_ok (getInode_ok.mpr ⟨hc, rfl⟩)] at h
  obtain ⟨sub, w, hencode, h⟩ := bind_ok h
  obtain ⟨entry, w', hrpc, h⟩ := bind_ok h
  have hencodes : ∀ i ∈ dirty, ∃ s, nodes.encode inode.storageType ((files i).getD []) = .ok s := by
    intro i hi
    refine encode_of_encodeBlocks hencode (i, (files i).getD []) ?_
    rw [hblocks]
    exact List.mem_map.mpr ⟨i, (Finset.mem_sort _).mpr hi, rfl⟩
  obtain ⟨t₁, hrun, -⟩ := encodeBlocks_run nodes inode.storageType
    (fun i ↦ (files i).getD []) (dirty.sort (· ≤ ·)) (resize inode.sub (dirty.max' hne + 1))
    (fun i hi ↦ hencodes i ((Finset.mem_sort _).mp hi)) hdir hshows
  rw [hblocks, hrun] at hencode
  obtain ⟨hsub, rfl⟩ := Prod.mk.inj (Option.some.inj hencode)
  obtain rfl := Except.ok.inj hsub
  obtain ⟨l, -, hanswer⟩ := rpc_ok hrpc
  have hsmall : dirty.max' hne < 2 ^ 31 := by
    by_contra hlarge
    refine hfew (List.any_eq_true.mpr ⟨_, List.mem_of_getLast? hend, ?_⟩)
    exact decide_eq_true (Nat.le_of_not_lt hlarge)
  obtain ⟨commit', t', hfsync, hshows'⟩ := fsync_run hc hdir hshows hmem hmax hsmall hencodes hanswer
  rw [hfsync] at hwhole
  obtain ⟨-, rfl⟩ := Prod.mk.inj (Option.some.inj hwhole)
  exact .inr ⟨_, entry, l, t', hmem, hmax, hencodes, hanswer, rfl, hshows'⟩

end SDK

/-- A client of one path. What is remembered since the path was opened last are the blocks that
were written, and the entry as which each was last uploaded. -/
structure Handle where
  view : View
  written : Finset Nat := ∅
  entries : Nat → Option Str := fun _ ↦ none

namespace Handle

/-- The calls of the client, and a `put_ok` of another client. -/
inductive Step
  | «open» (flags : Nat) (waits : Waits)
  | read (offset size : Nat) (nodes : Datanodes)
  | write (offset : Nat) (data : Str) (nodes : Datanodes)
  | fsync (nodes : Datanodes) (during : List Action)
  | close (nodes : Datanodes) (during : List Action)
  | foreign (filesize : Nat) (sub : List Str) (during : List Action)

def dirtyBlocks (path : Str) (s : Handle) : List (Nat × Str) :=
  SDK.dirtyBlocks (s.view.sdk.dir path)

/-- The entries after all blocks in the directory `write` were uploaded. -/
def uploaded (path : Str) (nodes : Datanodes) (s : Handle) (i : Nat) : Option Str :=
  match (s.dirtyBlocks path).lookup i with
  | some block => some (nodes.entry ((s.view.sdk.cache path).bind (·.storageType)) block)
  | none => s.entries i

def synced (path : Str) (nodes : Datanodes) (s : Handle) :
    Except Fault (Option Commit) × View → Handle
  | (.ok _, view) => { s with view, entries := s.uploaded path nodes }
  | (.error _, view) => { s with view }

/-- A call that throws has had its effect. -/
def step (path : Str) (s : Handle) : Step → Option Handle
  | .open flags waits =>
    ((SDK.open path flags waits).run s.view).map fun (r, view) ↦
      match r with
      | .ok _ => { view }
      | .error _ => { s with view }
  | .read offset size nodes =>
    ((SDK.readData path offset size nodes).run s.view).map fun (_, view) ↦ { s with view }
  | .write offset data nodes =>
    ((SDK.writeData path offset data nodes).run s.view).map fun (_, view) ↦
      { s with view, written := s.written ∪ (view.sdk.dir path).listWrite.toFinset }
  | .fsync nodes during =>
    ((SDK.fsync path nodes during).run s.view).map (s.synced path nodes)
  | .close nodes during =>
    ((SDK.close path nodes during).run s.view).map (s.synced path nodes)
  | .foreign filesize sub during =>
    (s.view.leader.rpc (.putOk ⟨path, filesize, sub⟩) during).map fun (_, leader) ↦
      { s with view := { s.view with leader } }

/-- The state after a list of calls, all of which have a result. -/
def after (path : Str) (s : Handle) (steps : List Step) : Handle :=
  steps.foldl (fun s a ↦ (s.step path a).getD s) s

theorem step_after {path : Str} {s : Handle} {a : Step} (steps : List Step)
    (h : ((s.after path steps).step path a).isSome = true) :
    (s.after path steps).step path a = some (s.after path (steps ++ [a])) := by
  obtain ⟨s', hs'⟩ := Option.isSome_iff_exists.mp h
  rw [after, after, List.foldl_append, ← after, List.foldl_cons, List.foldl_nil, hs', Option.getD_some]

theorem reaches_after {path : Str} {s : Handle} {steps : List Step} {guard : Handle → Step → Prop}
    (count : Nat)
    (h : ∀ k < count, ∀ a, steps[k]? = some a → guard (s.after path (steps.take k)) a ∧
      ((s.after path (steps.take k)).step path a).isSome = true) :
    Reaches (step path) guard s (s.after path (steps.take count)) := by
  induction count with
  | zero => exact .refl
  | succ count ih =>
    have hreached := ih fun k hk ↦ h k (Nat.lt_succ_of_lt hk)
    rw [List.take_add_one]
    cases ha : steps[count]? with
    | none => rwa [Option.toList_none, List.append_nil]
    | some a =>
      obtain ⟨hg, hs⟩ := h count (Nat.lt_succ_self count) a ha
      exact hreached.tail hg (step_after _ hs)

end Handle

theorem lookup_map_pair {α : Type} (f : Nat → α) (indices : List Nat) (k : Nat) :
    (indices.map fun i ↦ (i, f i)).lookup k = if k ∈ indices then some (f k) else none := by
  induction indices with
  | nil => rfl
  | cons i indices ih =>
    rw [List.map_cons, List.lookup_cons]
    by_cases hk : k = i
    · subst hk
      simp
    · have hne : (k == i) = false := by simpa using hk
      simp [hne, ih, hk]

theorem TmpDir.Shows.listWrite {t : TmpDir} {files : Nat → Option Str} {dirty : Finset Nat}
    (h : t.Shows files dirty) : t.listWrite.toFinset = dirty := by
  obtain ⟨links, hw, -, hdirty, -⟩ := h.links
  rw [TmpDir.listWrite, hw, Option.getD_some, hdirty]

/-- The directory names each local file once, and new files get new numbers. -/
structure TmpDir.Sound (t : TmpDir) : Prop where
  apart : ∀ i j file, t.files.lookup i = some file → t.files.lookup j = some file → i = j
  below : ∀ i file, t.files.lookup i = some file → file < t.next

theorem TmpDir.Sound.removeAll {t : TmpDir} (h : t.Sound) (indices : List Nat) :
    (t.removeAll indices).Sound where
  apart i j file hi hj := h.apart i j file (lookup_removeAll hi) (lookup_removeAll hj)
  below i file hi := h.below i file (lookup_removeAll hi)

theorem TmpDir.Sound.shows {t : TmpDir} (h : t.Sound) (hw : t.write = some []) :
    t.Shows t.read ∅ :=
  ⟨h.apart, h.below, fun _ ↦ rfl, [], hw, by simp⟩

end Spkdfs
