import Spkdfs.Client.Sequential
import Spkdfs.Client.Syncing

namespace Spkdfs

open Library Procedure Function

namespace SDK

/-- The loop of `fsync`, where each block has its own datanodes. -/
def encodeBlocksAt (path : Str) (nodes : Nat → Datanodes) (storage : Option StorageType) :
    List (Nat × Str) → List Str → Method (List Str)
  | [], sub => return sub
  | (index, block) :: rest, sub => do
    let s ← uploadBlock path index ((nodes index).encode storage block)
    encodeBlocksAt path nodes storage rest (sub.set index s)

/-- `fsync` with an outcome of its own for each upload. -/
def fsyncAt (path : Str) (nodes : Nat → Datanodes) (during : List Action) :
    Method (Option Commit) := do
  let blocks := dirtyBlocks ((← get).sdk.dir path)
  if blocks.any (2 ^ 31 ≤ ·.1) then throw (.outOfRange "stoi".toList)
  else
    match blocks.getLast? with
    | none => return none
    | some (last, block) => do
      let inode ← getInode path
      let sub ← encodeBlocksAt path nodes inode.storageType blocks (resize inode.sub (last + 1))
      let filesize := toUInt64 (toInt32 (writtenSize inode last block))
      match ← rpc (.putOk ⟨path, filesize, sub⟩) during with
      | .opPutOk committed => return some ⟨committed, blocks.map (·.1)⟩
      | _ => return none

theorem encodeBlocks_eq_at (path : Str) (nodes : Datanodes) (storage : Option StorageType)
    (blocks : List (Nat × Str)) (sub : List Str) :
    encodeBlocks path nodes storage blocks sub =
      encodeBlocksAt path (fun _ ↦ nodes) storage blocks sub := by
  induction blocks generalizing sub with
  | nil => rfl
  | cons block rest ih =>
    obtain ⟨index, data⟩ := block
    rw [encodeBlocks, encodeBlocksAt]
    simp only [ih]

/-- The `fsync` of the client is the one whose uploads all go to the same datanodes. -/
theorem fsync_eq_at (path : Str) (nodes : Datanodes) (during : List Action) :
    fsync path nodes during = fsyncAt path (fun _ ↦ nodes) during := by
  simp only [fsync, encodeBlocks_eq_at]
  rfl

end SDK

namespace TmpDir

/-- The directory without the links of these blocks. -/
def unlink (t : TmpDir) (indices : List Nat) : TmpDir :=
  { t with write := t.write.map (·.filter (·.1 ∉ indices)) }

variable {t : TmpDir} {indices : List Nat} {i : Nat}

theorem unlink_nil : t.unlink [] = t := by
  simp [unlink]

theorem unlink_removeWrite : (t.removeWrite i).unlink indices = t.unlink (i :: indices) := by
  rw [unlink, removeWrite, unlink, Option.map_map]
  congr 2
  funext links
  rw [comp_apply, List.filter_filter]
  refine List.filter_congr fun link _ ↦ ?_
  simp [Bool.and_comm]

theorem listWrite_unlink : (t.unlink indices).listWrite = t.listWrite.filter (· ∉ indices) := by
  rw [listWrite, listWrite, unlink, List.filter_map]
  cases t.write <;> rfl

theorem readWrite_unlink (hi : i ∉ indices) : (t.unlink indices).readWrite i = t.readWrite i := by
  have hlookup : ∀ links : List (Nat × Nat),
      (links.filter (·.1 ∉ indices)).lookup i = links.lookup i := by
    intro links
    induction links with
    | nil => rfl
    | cons link rest ih =>
      obtain ⟨j, file⟩ := link
      by_cases hj : j ∈ indices
      · have hne : (i == j) = false := by
          rw [beq_eq_false_iff_ne]
          rintro rfl
          exact hi hj
        rw [List.filter_cons_of_neg (by simpa using hj), ih, List.lookup_cons, hne]
      · rw [List.filter_cons_of_pos (by simpa using hj), List.lookup_cons, List.lookup_cons, ih]
  rw [readWrite, readWrite]
  cases hw : t.write with
  | none => simp [unlink, hw]
  | some links =>
    simp only [unlink, hw, Option.map_some, Option.getD_some, hlookup]

end TmpDir

namespace SDK

/-- The indices of the blocks to upload, in order. -/
def dirtyIndices (t : TmpDir) : List Nat := t.listWrite.insertionSort (· ≤ ·)

theorem dirtyBlocks_map (t : TmpDir) :
    dirtyBlocks t = (dirtyIndices t).map fun i ↦ (i, t.readWrite i) := rfl

theorem mem_dirtyIndices {t : TmpDir} {i : Nat} : i ∈ dirtyIndices t ↔ i ∈ t.listWrite :=
  List.mem_insertionSort _

theorem pairwise_dirtyIndices {t : TmpDir} (hnames : t.listWrite.Nodup) :
    (dirtyIndices t).Pairwise (· < ·) := by
  have hsorted : (dirtyIndices t).Pairwise (· ≤ ·) := List.pairwise_insertionSort _ _
  have hnodup : (dirtyIndices t).Nodup := (List.perm_insertionSort _ _).nodup_iff.mpr hnames
  exact hsorted.imp₂ (fun _ _ hle hne ↦ lt_of_le_of_ne hle hne) hnodup

/-- What is left of the blocks to upload when the loop fails. -/
theorem dirtyIndices_unlink {t : TmpDir} (hnames : t.listWrite.Nodup) (indices : List Nat) :
    dirtyIndices (t.unlink indices) = (dirtyIndices t).filter (· ∉ indices) := by
  refine List.Perm.eq_of_pairwise' (r := (· ≤ ·)) (List.pairwise_insertionSort _ _)
    ((pairwise_dirtyIndices hnames).imp le_of_lt |>.filter _) ?_
  refine (List.perm_insertionSort _ _).trans ?_
  rw [TmpDir.listWrite_unlink]
  exact ((List.perm_insertionSort _ _).symm.filter _)

variable {path : Str} {nodes : Nat → Datanodes} {during : List Action} {v w : View} {inode : Inode}

/-- The loop ends at the first block that cannot be uploaded, and leaves it and the blocks behind it
linked. -/
theorem encodeBlocksAt_run {storage : Option StorageType} {contents : Nat → Str}
    {indices : List Nat} {sub : List Str} {r : Except Fault (List Str)}
    (h : (encodeBlocksAt path nodes storage (indices.map fun i ↦ (i, contents i)) sub).run v =
      some (r, w)) :
    w.sdk.tmpPath = v.sdk.tmpPath ∧ w.sdk.cache = v.sdk.cache ∧
      ((∃ f before k after, r = .error f ∧ indices = before ++ k :: after ∧
          (∀ i ∈ before, ∃ s, (nodes i).encode storage (contents i) = .ok s) ∧
          (nodes k).encode storage (contents k) = .error f ∧
          w.sdk.dir path = (v.sdk.dir path).unlink before) ∨
        (∃ s, r = .ok s) ∧ (∀ i ∈ indices, ∃ s, (nodes i).encode storage (contents i) = .ok s) ∧
          w.sdk.dir path = (v.sdk.dir path).unlink indices) := by
  induction indices generalizing sub v with
  | nil =>
    obtain ⟨rfl, rfl⟩ := Prod.mk.inj (Option.some.inj h)
    exact ⟨rfl, rfl, .inr ⟨⟨_, rfl⟩, by simp, TmpDir.unlink_nil.symm⟩⟩
  | cons i rest ih =>
    rw [List.map_cons, encodeBlocksAt] at h
    cases hs : (nodes i).encode storage (contents i) with
    | error f =>
      rw [hs, run_bind_error (uploadBlock_error i)] at h
      obtain ⟨rfl, rfl⟩ := Prod.mk.inj (Option.some.inj h)
      exact ⟨rfl, rfl, .inl ⟨f, [], i, rest, rfl, rfl, by simp, hs, TmpDir.unlink_nil.symm⟩⟩
    | ok s =>
      rw [hs, run_bind_ok (uploadBlock_ok i s)] at h
      obtain ⟨htmp, hcache, hend⟩ := ih h
      rw [View.dir_setDir, TmpDir.unlink_removeWrite] at hend
      refine ⟨htmp, hcache, ?_⟩
      rcases hend with ⟨f, before, k, after, rfl, rfl, hbefore, hk, hdir⟩ | ⟨hr, hall, hdir⟩
      · rw [TmpDir.unlink_removeWrite] at hdir
        refine .inl ⟨f, i :: before, k, after, rfl, rfl, fun j hj ↦ ?_, hk, hdir⟩
        rcases List.mem_cons.mp hj with rfl | hj
        · exact ⟨s, hs⟩
        · exact hbefore j hj
      · refine .inr ⟨hr, fun j hj ↦ ?_, hdir⟩
        rcases List.mem_cons.mp hj with rfl | hj
        · exact ⟨s, hs⟩
        · exact hall j hj

/-- A failed `fsync` of an open file has found a link with a bad name, has stopped at the first
block that could not be uploaded, or has uploaded them all. -/
theorem fsyncAt_error {fault : Fault} (hc : v.sdk.cache path = some inode)
    (h : (fsyncAt path nodes during).run v = some (.error fault, w)) :
    (BadName path v ∧ w = v) ∨ w.sdk.cache = v.sdk.cache ∧
      ((∃ before k after, dirtyIndices (v.sdk.dir path) = before ++ k :: after ∧
          (∃ f, (nodes k).encode inode.storageType ((v.sdk.dir path).readWrite k) = .error f) ∧
          (∀ i ∈ before, ∃ s,
            (nodes i).encode inode.storageType ((v.sdk.dir path).readWrite i) = .ok s) ∧
          w.sdk.dir path = (v.sdk.dir path).unlink before) ∨
        (∀ i ∈ dirtyIndices (v.sdk.dir path), ∃ s,
            (nodes i).encode inode.storageType ((v.sdk.dir path).readWrite i) = .ok s) ∧
          w.sdk.dir path = (v.sdk.dir path).unlink (dirtyIndices (v.sdk.dir path))) := by
  rw [fsyncAt, run_bind_ok (run_get v)] at h
  dsimp only at h
  split at h
  · rename_i hlarge
    obtain ⟨-, rfl⟩ := Prod.mk.inj (Option.some.inj h)
    exact .inl ⟨hlarge, rfl⟩
  refine .inr ?_
  split at h
  · cases h
  rw [run_bind_ok (getInode_ok.mpr ⟨hc, rfl⟩), dirtyBlocks_map] at h
  obtain ⟨f, hencode, -⟩ | ⟨sub, u, hencode, hsend⟩ := bind_run h
  · obtain ⟨-, hcache, ⟨f, before, k, after, -, hsplit, hbefore, hk, hdir⟩ | ⟨⟨s, hs⟩, -⟩⟩ :=
      encodeBlocksAt_run hencode
    · exact ⟨hcache, .inl ⟨before, k, after, hsplit, ⟨f, hk⟩, hbefore, hdir⟩⟩
    · cases hs
  · obtain ⟨-, hcache, ⟨f, before, k, after, hf, -⟩ | ⟨-, hall, hdir⟩⟩ := encodeBlocksAt_run hencode
    · cases hf
    obtain ⟨f, hrpc, -⟩ | ⟨entry, x, hrpc, hlast⟩ := bind_run hsend
    · obtain ⟨l, rfl, -⟩ := rpc_error hrpc
      exact ⟨hcache, .inr ⟨hall, hdir⟩⟩
    · cases entry <;> cases hlast

/-- The entries that a successful `fsync` commits. -/
theorem fsync_entries {nodes : Datanodes} {commit : Option Commit}
    (hc : v.sdk.cache path = some inode)
    (h : (fsync path nodes during).run v = some (.ok commit, w)) :
    (dirtyIndices (v.sdk.dir path) = [] ∧ commit = none) ∨ ∃ last committed blocks,
      commit = some ⟨committed, blocks⟩ ∧ last ∈ dirtyIndices (v.sdk.dir path) ∧
        (∀ i ∈ dirtyIndices (v.sdk.dir path), i ≤ last) ∧ ∀ i ≤ last, committed.sub[i]? = some
          (if i ∈ dirtyIndices (v.sdk.dir path) then
            nodes.entry inode.storageType ((v.sdk.dir path).readWrite i)
          else (inode.sub[i]?).getD []) := by
  obtain ⟨trace, hsynced⟩ := fsync_synced h
  cases hsynced with
  | clean hclean hw =>
    rw [dirtyBlocks_map, List.map_eq_nil_iff] at hclean
    exact .inl ⟨hclean, rfl⟩
  | @sent req committed _ hsent hreq hput =>
    refine .inr ?_
    cases hend : (dirtyIndices (v.sdk.dir path)).getLast? with
    | none => simp [commitRequest, dirtyBlocks_map, hend] at hreq
    | some last =>
      have hsub : req.sub = setEntries
          (fun i ↦ nodes.entry inode.storageType ((v.sdk.dir path).readWrite i))
          (dirtyIndices (v.sdk.dir path)) (resize inode.sub (last + 1)) := by
        simp only [commitRequest, dirtyBlocks_map, List.getLast?_map, hend, hc, Option.map_some] at hreq
        obtain rfl := Option.some.inj hreq
        rw [entriesAfter, List.foldl_map]
        rfl
      obtain ⟨i, hi, hsame, -⟩ := Leader.rpc_putOk hput
      obtain rfl := Entry.opPutOk.inj hi
      refine ⟨last, committed, _, rfl, List.mem_of_getLast? hend, fun i hi ↦ ?_, fun i hi ↦ ?_⟩
      · have hsorted : (dirtyIndices (v.sdk.dir path)).Pairwise (· ≤ ·) :=
          List.pairwise_insertionSort _ _
        have hne := List.ne_nil_of_mem hi
        rw [List.getLast?_eq_some_getLast hne, Option.some.injEq] at hend
        exact hend ▸ List.Pairwise.rel_getLast hsorted hi
      · have hlt : i < (resize inode.sub (last + 1)).length := by
          rw [resize, List.length_append, List.length_replicate]
          omega
        rw [hsame, hsub, getElem?_setEntries _ _ hlt]
        split_ifs
        · rfl
        · exact getElem?_resize_getD (Nat.lt_succ_of_le hi)

end SDK

/-- What was dirty is in the commit, as it is in the directory. -/
def Recovered (path : Str) (nodes : Datanodes) (storage : Option StorageType) (v : View)
    (commit : Option Commit) : Prop :=
  ∃ c, commit = some c ∧ ∀ i ∈ (v.sdk.dir path).listWrite, ∃ s, c.inode.sub[i]? = some s ∧
    nodes.decode storage s = .ok ((v.sdk.dir path).readWrite i)

/-- When `fsync` fails and is called again with all services working, nothing is lost if and only
if an upload has failed and each block before it, whose link is gone, had its content committed
earlier. Nothing is recovered after a refused `put_ok`. -/
theorem fsync_again_iff {path : Str} {failing : Nat → Datanodes} {nodes : Datanodes}
    {during during' : List Action} {v w x : View} {inode : Inode} {fault : Fault}
    {commit : Option Commit} (hc : v.sdk.cache path = some inode)
    (hnames : (v.sdk.dir path).listWrite.Nodup)
    (hfail : (SDK.fsyncAt path failing during).run v = some (.error fault, w))
    (hworks : ∀ i ∈ (v.sdk.dir path).listWrite, ∃ s,
      nodes.encode inode.storageType ((v.sdk.dir path).readWrite i) = .ok s ∧
        nodes.decode inode.storageType s = .ok ((v.sdk.dir path).readWrite i))
    (hagain : (SDK.fsync path nodes during').run w = some (.ok commit, x)) :
    Recovered path nodes inode.storageType v commit ↔
      ∃ k ∈ (v.sdk.dir path).listWrite,
        (∃ f, (failing k).encode inode.storageType ((v.sdk.dir path).readWrite k) = .error f) ∧
        ∀ i ∈ (v.sdk.dir path).listWrite, i < k →
          nodes.decode inode.storageType ((inode.sub[i]?).getD []) =
            .ok ((v.sdk.dir path).readWrite i) := by
  have hsorted := SDK.pairwise_dirtyIndices hnames
  obtain ⟨hname, rfl⟩ | ⟨hcache, ⟨before, k, after, hsplit, hk, hbefore, hdir⟩ | ⟨hall, hdir⟩⟩ :=
    SDK.fsyncAt_error hc hfail
  · -- the second call finds the same link
    obtain ⟨trace, hsynced⟩ := SDK.fsync_synced hagain
    have hrefused : SDK.FsyncRefused path nodes during' w := .unsent (.name hname)
    obtain ⟨f, hf⟩ := hsynced.error_iff.mpr hrefused
    cases hf
  · rw [hsplit] at hsorted
    obtain ⟨-, hlate, hearly⟩ := List.pairwise_append.mp hsorted
    have hleft : SDK.dirtyIndices (w.sdk.dir path) = k :: after := by
      rw [hdir, SDK.dirtyIndices_unlink hnames, hsplit, List.filter_append,
        List.filter_eq_nil_iff.mpr (by simp), List.nil_append, List.filter_eq_self]
      intro i hi
      refine decide_eq_true fun hin ↦ ?_
      exact absurd (hearly i hin i hi) (lt_irrefl i)
    have hread : ∀ i ∈ k :: after,
        (w.sdk.dir path).readWrite i = (v.sdk.dir path).readWrite i := by
      intro i hi
      rw [hdir]
      exact TmpDir.readWrite_unlink fun hin ↦ absurd (hearly i hin i hi) (lt_irrefl i)
    have hmem : ∀ i, i ∈ (v.sdk.dir path).listWrite ↔ i ∈ before ∨ i ∈ k :: after := by
      intro i
      rw [← SDK.mem_dirtyIndices, hsplit, List.mem_append]
    have hc' : w.sdk.cache path = some inode := by rw [hcache, hc]
    have hentries := SDK.fsync_entries hc' hagain
    rw [hleft] at hentries
    obtain ⟨hnil, -⟩ | ⟨last, committed, blocks, rfl, hlast, hmax, hsub⟩ := hentries
    · cases hnil
    have hbound : k ≤ last := hmax k List.mem_cons_self
    -- the entries of the blocks that the first call has uploaded are those of the cached inode
    have hold : ∀ i ∈ before, committed.sub[i]? = some ((inode.sub[i]?).getD []) := by
      intro i hi
      have hlt := hearly i hi k List.mem_cons_self
      rw [hsub i (by omega), if_neg fun hin ↦ absurd (hearly i hi i hin) (lt_irrefl i)]
    have hnew : ∀ i ∈ k :: after, ∃ s, committed.sub[i]? = some s ∧
        nodes.decode inode.storageType s = .ok ((v.sdk.dir path).readWrite i) := by
      intro i hi
      obtain ⟨s, hs, hdecode⟩ := hworks i ((hmem i).mpr (.inr hi))
      refine ⟨s, ?_, hdecode⟩
      rw [hsub i (hmax i hi), if_pos hi, hread i hi, Datanodes.entry, hs]
      rfl
    constructor
    · rintro ⟨c, hsome, hall⟩
      obtain rfl := Option.some.inj hsome
      refine ⟨k, (hmem k).mpr (.inr List.mem_cons_self), hk, fun i hi hlt ↦ ?_⟩
      have hin : i ∈ before := by
        rcases (hmem i).mp hi with hin | hin
        · exact hin
        · rcases List.mem_cons.mp hin with rfl | hin
          · exact absurd hlt (lt_irrefl i)
          · have hgt := (List.pairwise_cons.mp hlate).1 i hin
            omega
      obtain ⟨s, hs, hdecode⟩ := hall i hi
      rw [hold i hin] at hs
      rw [Option.some.inj hs]
      exact hdecode
    · rintro ⟨k', hk', ⟨f, hf⟩, hdecode⟩
      have hle : k ≤ k' := by
        rcases (hmem k').mp hk' with hin | hin
        · obtain ⟨s, hs⟩ := hbefore k' hin
          rw [hs] at hf
          cases hf
        · rcases List.mem_cons.mp hin with rfl | hin
          · exact le_rfl
          · exact ((List.pairwise_cons.mp hlate).1 k' hin).le
      refine ⟨_, rfl, fun i hi ↦ ?_⟩
      rcases (hmem i).mp hi with hin | hin
      · have hlt := hearly i hin k List.mem_cons_self
        exact ⟨_, hold i hin, hdecode i hi (by omega)⟩
      · exact hnew i hin
  · have hleft : SDK.dirtyIndices (w.sdk.dir path) = [] := by
      rw [hdir, SDK.dirtyIndices_unlink hnames, List.filter_eq_nil_iff]
      simp
    have hc' : w.sdk.cache path = some inode := by rw [hcache, hc]
    have hentries := SDK.fsync_entries hc' hagain
    rw [hleft] at hentries
    obtain ⟨-, rfl⟩ | ⟨last, -, -, -, hlast, -⟩ := hentries
    · constructor
      · rintro ⟨c, hsome, -⟩
        cases hsome
      · rintro ⟨k, hk, ⟨f, hf⟩, -⟩
        obtain ⟨s, hs⟩ := hall k (SDK.mem_dirtyIndices.mpr hk)
        rw [hs] at hf
        cases hf
    · cases hlast

/-- Datanodes of which none takes a shard. -/
def Datanodes.down : Datanodes :=
  ⟨fun _ _ ↦ .error (.runtime "cannot put to datanode".toList), Datanodes.byContent.decode⟩

/-- A client that has written to two blocks of a new file. -/
def twoBlocks : View :=
  (((SDK.writeData "/f".toList 0 "abc".toList .byContent).run emptyOpened).bind fun p ↦
    ((SDK.writeData "/f".toList 1048576 "d".toList .byContent).run p.2).map (·.2)).getD emptyOpened

/-- The first call fails, and the second one, with datanodes that work, commits an inode with the
property. -/
def failsThen (failing : Nat → Datanodes) (v : View) (test : Inode → Bool) : Bool :=
  ((SDK.fsyncAt "/f".toList failing []).run v).any fun
    | (.ok _, _) => false
    | (.error _, w) => ((SDK.fsync "/f".toList .byContent [.apply]).run w).any fun
      | (.ok (some c), _) => test c.inode
      | _ => false

theorem exists_of_failsThen {failing : Nat → Datanodes} {v : View} {test : Inode → Bool}
    (h : failsThen failing v test = true) :
    ∃ fault w c x, (SDK.fsyncAt "/f".toList failing []).run v = some (.error fault, w) ∧
      (SDK.fsync "/f".toList .byContent [.apply]).run w = some (.ok (some c), x) ∧
        test c.inode = true := by
  obtain ⟨⟨r, w⟩, hfirst, h⟩ := (Option.any_eq_true _ _).mp h
  cases r with
  | ok commit => cases h
  | error fault =>
    obtain ⟨⟨r', x⟩, hagain, h⟩ := (Option.any_eq_true _ _).mp h
    cases r' with
    | error f => cases h
    | ok commit =>
      cases commit with
      | none => cases h
      | some c => exact ⟨fault, w, c, x, hfirst, hagain, h⟩

theorem Datanodes.byContent_decode (storage : Option StorageType) (block : Str) :
    ∃ s, byContent.encode storage block = .ok s ∧ byContent.decode storage s = .ok block :=
  ⟨_, rfl, congrArg Except.ok (List.drop_left' (by decide))⟩

/-- Nothing is lost when no upload has succeeded. -/
theorem fsync_again_first :
    ∃ fault w x c, (SDK.fsyncAt "/f".toList (fun _ ↦ .down) []).run twoBlocks =
        some (.error fault, w) ∧
      (SDK.fsync "/f".toList .byContent [.apply]).run w = some (.ok (some c), x) ∧
      Recovered "/f".toList .byContent (some (.re 1 1)) twoBlocks (some c) := by
  have hrun : failsThen (fun _ ↦ .down) twoBlocks (fun _ ↦ true) = true := by decide +kernel
  obtain ⟨fault, w, c, x, hfail, hagain, -⟩ := exists_of_failsThen hrun
  have hstorage : (twoBlocks.sdk.cache "/f".toList).map (·.storageType) = some (some (.re 1 1)) := by
    decide +kernel
  obtain ⟨inode, hc, hinode⟩ := Option.map_eq_some_iff.mp hstorage
  have hlist : (twoBlocks.sdk.dir "/f".toList).listWrite = [0, 1] := by decide +kernel
  have hnames : (twoBlocks.sdk.dir "/f".toList).listWrite.Nodup := by
    rw [hlist]
    decide
  have hzero : 0 ∈ (twoBlocks.sdk.dir "/f".toList).listWrite := by
    rw [hlist]
    exact List.mem_cons_self
  refine ⟨fault, w, x, c, hfail, hagain, ?_⟩
  rw [← hinode]
  exact (fsync_again_iff hc hnames hfail (fun i _ ↦ Datanodes.byContent_decode _ _) hagain).mpr
    ⟨0, hzero, ⟨_, rfl⟩, fun i _ hi ↦ absurd hi (Nat.not_lt_zero i)⟩

/-- The first block is uploaded and the second is not: the second call commits an empty entry for
the first one. -/
theorem not_fsync_again_second :
    ∃ fault w x c, (SDK.fsyncAt "/f".toList (fun i ↦ if i = 0 then .byContent else .down) []).run
        twoBlocks = some (.error fault, w) ∧
      (SDK.fsync "/f".toList .byContent [.apply]).run w = some (.ok (some c), x) ∧
      ¬ Recovered "/f".toList .byContent (some (.re 1 1)) twoBlocks (some c) := by
  have hrun : failsThen (fun i ↦ if i = 0 then .byContent else .down) twoBlocks
      (fun i ↦ i.sub[0]? == some []) = true := by decide +kernel
  obtain ⟨fault, w, c, x, hfail, hagain, htest⟩ := exists_of_failsThen hrun
  refine ⟨fault, w, x, c, hfail, hagain, ?_⟩
  rintro ⟨c', hsome, hall⟩
  obtain rfl := Option.some.inj hsome
  have hzero : 0 ∈ (twoBlocks.sdk.dir "/f".toList).listWrite := by decide +kernel
  have hblock : (twoBlocks.sdk.dir "/f".toList).readWrite 0 = "abc".toList := by decide +kernel
  obtain ⟨s, hs, hdecode⟩ := hall 0 hzero
  rw [beq_iff_eq.mp htest] at hs
  rw [← Option.some.inj hs, hblock] at hdecode
  cases hdecode

end Spkdfs
