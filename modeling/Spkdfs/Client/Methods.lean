import Spkdfs.Client.Cluster

namespace Spkdfs

open Library Procedure Function

/-- The view after a change of the directory of the path. -/
def View.setDir (v : View) (path : Str) (t : TmpDir) : View :=
  { v with sdk := { v.sdk with dirs := update v.sdk.dirs (v.sdk.tmpPath path) (some t) } }

namespace View

variable {v : View} {path key : Str} {t t' : TmpDir}

@[simp] theorem leader_setDir : (v.setDir path t).leader = v.leader := rfl

@[simp] theorem progress_setDir : (v.setDir path t).progress = v.progress := rfl

@[simp] theorem cache_setDir : (v.setDir path t).sdk.cache = v.sdk.cache := rfl

@[simp] theorem tmpPath_setDir : (v.setDir path t).sdk.tmpPath = v.sdk.tmpPath := rfl

@[simp] theorem dirs_setDir : (v.setDir path t).sdk.dirs (v.sdk.tmpPath path) = some t :=
  update_self ..

@[simp] theorem dir_setDir : (v.setDir path t).sdk.dir path = t := by
  rw [SDK.dir, tmpPath_setDir, dirs_setDir, Option.getD_some]

@[simp] theorem setDir_setDir : (v.setDir path t).setDir path t' = v.setDir path t' := by
  simp [setDir]

theorem setDir_self (h : v.sdk.dirs (v.sdk.tmpPath path) = some t) : v.setDir path t = v := by
  rw [setDir, ← h, update_eq_self]

theorem dir_eq (h : v.sdk.dirs (v.sdk.tmpPath path) = some t) : v.sdk.dir path = t := by
  rw [SDK.dir, h, Option.getD_some]

/-- The view after a lock of a block file or link. -/
def holding (v : View) (key : Str) : View :=
  { v with sdk := { v.sdk with held := update v.sdk.held key (v.sdk.held key + 1) } }

@[simp] theorem leader_holding : (v.holding key).leader = v.leader := rfl

@[simp] theorem progress_holding : (v.holding key).progress = v.progress := rfl

@[simp] theorem cache_holding : (v.holding key).sdk.cache = v.sdk.cache := rfl

@[simp] theorem tmpPath_holding : (v.holding key).sdk.tmpPath = v.sdk.tmpPath := rfl

@[simp] theorem dirs_holding : (v.holding key).sdk.dirs = v.sdk.dirs := rfl

@[simp] theorem dir_holding : (v.holding key).sdk.dir path = v.sdk.dir path := rfl

end View

namespace SDK

variable {v v' : View} {path : Str} {flags seen size : Nat} {waits : Waits} {f : Fault}
  {error : Option (Nat × Str)} {message : Option Str}
  {during : List Action} {inode : Inode}

@[simp] theorem run_modifyDir (g : TmpDir → TmpDir) (v : View) :
    (modifyDir path g).run v = some (.ok (), { v with
      sdk := { v.sdk with
        dirs := update v.sdk.dirs (v.sdk.tmpPath path) (some (g (v.sdk.dir path))) } }) := rfl

theorem modifyDir_eq (g : TmpDir → TmpDir) :
    (modifyDir path g).run v = some (.ok (), v.setDir path (g (v.sdk.dir path))) := rfl

theorem run_hold (key : Str) (v : View) : (hold key).run v = some (.ok (), v.holding key) := rfl

/-- What is released after a change of a directory was locked before it. -/
theorem run_release_setDir (key : Str) (v : View) (t : TmpDir) :
    (release key).run ((v.holding key).setDir path t) = some (.ok (), v.setDir path t) := by
  have hheld : update (v.holding key).sdk.held key ((v.holding key).sdk.held key - 1) =
      v.sdk.held := by
    simp [View.holding]
  have hrun : (release key).run ((v.holding key).setDir path t) = some (.ok (),
      { (v.holding key).setDir path t with
        sdk := { ((v.holding key).setDir path t).sdk with
          held := update (v.holding key).sdk.held key ((v.holding key).sdk.held key - 1) } }) := rfl
  rw [hrun, hheld]
  rfl

theorem fillBlock_absent {index : Nat} (decoded : Except Fault Str)
    (hdir : v.sdk.dirs (v.sdk.tmpPath path) = none) :
    (fillBlock path index decoded).run v =
      some (.error (.runtime ("openfile error:".toList ++ v.sdk.getTmpIndexPath path index)),
        v.holding (v.sdk.getTmpIndexPath path index)) := by
  rw [fillBlock, run_bind_ok (run_get v)]
  dsimp only
  rw [run_bind_ok (run_hold _ v), if_pos (Option.isNone_iff_eq_none.mpr hdir)]
  rfl

theorem fillBlock_error {t : TmpDir} {index : Nat}
    (hdir : v.sdk.dirs (v.sdk.tmpPath path) = some t) :
    (fillBlock path index (.error f)).run v =
      some (.error f, (v.holding (v.sdk.getTmpIndexPath path index)).setDir path (t.save index [])) := by
  rw [fillBlock, run_bind_ok (run_get v)]
  dsimp only
  rw [run_bind_ok (run_hold _ v), hdir, Option.isNone_some, if_neg Bool.false_ne_true,
    run_bind_ok (modifyDir_eq _), View.dir_holding, View.dir_eq hdir]
  rfl

theorem fillBlock_ok {t : TmpDir} {index : Nat} (block : Str)
    (hdir : v.sdk.dirs (v.sdk.tmpPath path) = some t) :
    (fillBlock path index (.ok block)).run v =
      some (.ok (), v.setDir path ((t.save index []).save index block)) := by
  rw [fillBlock, run_bind_ok (run_get v)]
  dsimp only
  rw [run_bind_ok (run_hold _ v), hdir, Option.isNone_some, if_neg Bool.false_ne_true,
    run_bind_ok (modifyDir_eq _), run_bind_ok (modifyDir_eq _), View.dir_setDir, View.setDir_setDir,
    View.dir_holding, View.dir_eq hdir, run_release_setDir]

/-- How `fetchBlock` ends: there is nothing to fetch, or it throws with the file of the block locked,
or it has filled this file. -/
inductive Fetches (inode : Inode) (index : Nat) (nodes : Datanodes) (v : View) :
    Except Fault Unit → View → Prop
  | beyond (hsub : inode.sub[index]? = none) : Fetches inode index nodes v (.ok ()) v
  | present (hfile : ((v.sdk.dir inode.fullpath.str).read index).any (· ≠ []) = true) :
    Fetches inode index nodes v (.ok ()) v
  | absent {blks : Str} {fault : Fault} (hsub : inode.sub[index]? = some blks)
    (hfile : ((v.sdk.dir inode.fullpath.str).read index).any (· ≠ []) = false)
    (hdir : v.sdk.dirs (v.sdk.tmpPath inode.fullpath.str) = none) :
    Fetches inode index nodes v (.error fault)
      (v.holding (v.sdk.getTmpIndexPath inode.fullpath.str index))
  | refused {blks : Str} {fault : Fault} {t : TmpDir} (hsub : inode.sub[index]? = some blks)
    (hfile : ((v.sdk.dir inode.fullpath.str).read index).any (· ≠ []) = false)
    (hdir : v.sdk.dirs (v.sdk.tmpPath inode.fullpath.str) = some t)
    (hdecode : nodes.decode inode.storageType blks = .error fault) :
    Fetches inode index nodes v (.error fault)
      ((v.holding (v.sdk.getTmpIndexPath inode.fullpath.str index)).setDir inode.fullpath.str
        (t.save index []))
  | filled {blks block : Str} {t : TmpDir} (hsub : inode.sub[index]? = some blks)
    (hfile : ((v.sdk.dir inode.fullpath.str).read index).any (· ≠ []) = false)
    (hdir : v.sdk.dirs (v.sdk.tmpPath inode.fullpath.str) = some t)
    (hdecode : nodes.decode inode.storageType blks = .ok block) :
    Fetches inode index nodes v (.ok ())
      (v.setDir inode.fullpath.str ((t.save index []).save index block))

theorem fetches_of_run {index : Int} {nodes : Datanodes} {r : Except Fault Unit}
    (h : (fetchBlock inode index nodes).run v = some (r, v')) :
    0 ≤ index ∧ Fetches inode index.toNat nodes v r v' := by
  rw [fetchBlock, run_bind_ok (run_get v)] at h
  dsimp only at h
  split at h
  · cases h
  rename_i hindex
  refine ⟨Int.not_lt.mp hindex, ?_⟩
  split at h
  · rename_i hsub
    obtain ⟨rfl, rfl⟩ := Prod.mk.inj (Option.some.inj h)
    exact .beyond hsub
  rename_i blks hsub
  split at h
  · rename_i hfile
    obtain ⟨rfl, rfl⟩ := Prod.mk.inj (Option.some.inj h)
    exact .present hfile
  rename_i hfile
  rw [Bool.not_eq_true] at hfile
  cases hdir : v.sdk.dirs (v.sdk.tmpPath inode.fullpath.str) with
  | none =>
    rw [fillBlock_absent _ hdir] at h
    obtain ⟨rfl, rfl⟩ := Prod.mk.inj (Option.some.inj h)
    exact .absent hsub hfile hdir
  | some t =>
    cases hdecode : nodes.decode inode.storageType blks with
    | error fault =>
      rw [hdecode, fillBlock_error hdir] at h
      obtain ⟨rfl, rfl⟩ := Prod.mk.inj (Option.some.inj h)
      exact .refused hsub hfile hdir hdecode
    | ok block =>
      rw [hdecode, fillBlock_ok block hdir] at h
      obtain ⟨rfl, rfl⟩ := Prod.mk.inj (Option.some.inj h)
      exact .filled hsub hfile hdir hdecode

theorem uploadBlock_error (index : Nat) : (uploadBlock path index (.error f)).run v =
    some (.error f, v.holding (v.sdk.linkPath path index)) := rfl

theorem uploadBlock_ok (index : Nat) (s : Str) : (uploadBlock path index (.ok s)).run v =
    some (.ok s, v.setDir path ((v.sdk.dir path).removeWrite index)) := by
  rw [uploadBlock, run_bind_ok (run_get v), run_bind_ok (run_hold _ v)]
  dsimp only
  rw [run_bind_ok (modifyDir_eq _), View.dir_holding, run_bind_ok (run_release_setDir _ _ _)]
  rfl

@[simp] theorem run_setCache (i : Option Inode) (v : View) :
    (setCache path i).run v = some (.ok (), { v with
      sdk := { v.sdk with cache := update v.sdk.cache path i } }) := rfl

theorem rpc_ok {req : Request} {entry : Entry}
    (h : (rpc req during).run v = some (.ok entry, v')) :
    ∃ l, v' = { v with leader := l } ∧ v.leader.rpc req during = some (.ok entry, l) := by
  simp only [rpc, run_of, Option.map_eq_some_iff, Prod.exists, Prod.mk.injEq] at h
  obtain ⟨r, l, hr, he, rfl⟩ := h
  cases r with
  | error g => cases he
  | ok e =>
    obtain rfl := Except.ok.inj he
    exact ⟨l, rfl, hr⟩

theorem rpc_error {req : Request} (h : (rpc req during).run v = some (.error f, v')) :
    ∃ l, v' = { v with leader := l } ∧
      ∃ g, v.leader.rpc req during = some (.error g, l) := by
  simp only [rpc, run_of, Option.map_eq_some_iff, Prod.exists, Prod.mk.injEq] at h
  obtain ⟨r, l, hr, he, rfl⟩ := h
  cases r with
  | error g => exact ⟨l, rfl, g, hr⟩
  | ok e => cases he

theorem getInode_ok :
    (getInode path).run v = some (.ok inode, v') ↔ v.sdk.cache path = some inode ∧ v' = v := by
  rw [getInode, run_bind_ok (run_get v)]
  cases h : v.sdk.cache path with
  | none => simp
  | some i =>
    simp only [run_pure, Option.some.injEq, Prod.mk.injEq, Except.ok.injEq]
    exact and_congr_right fun _ ↦ eq_comm

theorem mkdirF_run {dir : Str} {r : Except Fault Unit}
    (h : (mkdirF dir message).run v = some (r, v')) :
    v' = v ∧ ((∃ f, r = .error f) ∧ message ≠ none ∨ r = .ok () ∧ message = none) := by
  cases message with
  | none =>
    obtain ⟨rfl, rfl⟩ := Prod.mk.inj (Option.some.inj h)
    exact ⟨rfl, .inr ⟨rfl, rfl⟩⟩
  | some m =>
    obtain ⟨rfl, rfl⟩ := Prod.mk.inj (Option.some.inj h)
    exact ⟨rfl, .inl ⟨⟨_, rfl⟩, Option.some_ne_none m⟩⟩

theorem updateInode_run {r : Except Fault Unit}
    (h : (updateInode path seen error).run v = some (r, v')) :
    ∃ db, v.leader.replica seen = some db ∧ v'.leader = v.leader ∧
      ((∃ f, r = .error f) ∧ ((∃ g, Namenode.ls db path = .error g) ∨ error ≠ none) ∨
        ∃ remote, r = .ok () ∧ error = none ∧ Namenode.ls db path = .ok remote ∧
          v'.sdk.cache = update v.sdk.cache path (some remote)) := by
  simp only [updateInode, getRemoteInode, run_bind, run_get, run_setCache, run_of,
    Option.bind_some] at h
  split at h
  · cases hdb : v.leader.replica seen with
    | none => simp [hdb] at h
    | some db =>
      refine ⟨db, rfl, ?_⟩
      simp only [hdb, Option.map_some, Option.bind_some] at h
      cases hls : Namenode.ls db path with
      | error g =>
        simp only [hls, Except.mapError, Option.some.injEq, Prod.mk.injEq] at h
        obtain ⟨rfl, rfl⟩ := h
        exact ⟨rfl, .inl ⟨⟨_, rfl⟩, .inl ⟨_, rfl⟩⟩⟩
      | ok remote =>
        simp only [hls, Except.mapError] at h
        cases error with
        | none =>
          simp only [removeBlocks, run_modifyDir, Option.bind_some, update_idem,
            Option.some.injEq, Prod.mk.injEq] at h
          obtain ⟨rfl, rfl⟩ := h
          exact ⟨rfl, .inr ⟨remote, rfl, rfl, rfl, rfl⟩⟩
        | some e =>
          obtain ⟨rfl, rfl⟩ := Prod.mk.inj (Option.some.inj h)
          exact ⟨rfl, .inl ⟨⟨_, rfl⟩, .inr (Option.some_ne_none e)⟩⟩
  · cases h

theorem truncate_run {r : Except Fault Unit} (hc : v.sdk.cache path = some inode)
    (h : (_truncate path size during).run v = some (r, v')) :
    v'.sdk.cache = v.sdk.cache ∧
      (inode.filesize = size ∧ r = .ok () ∨ inode.filesize ≠ size ∧
        ∃ req l, truncateRequest path inode size = some req ∧
          ((∃ f g, r = .error f ∧ v.leader.rpc (.putOk req) during = some (.error g, l)) ∨
            ∃ entry, r = .ok () ∧ v.leader.rpc (.putOk req) during = some (.ok entry, l))) := by
  have hget : (getInode path).run v = some (.ok inode, v) := getInode_ok.mpr ⟨hc, rfl⟩
  rw [_truncate, run_bind_ok hget] at h
  split at h
  · rename_i hs
    obtain ⟨rfl, rfl⟩ := Prod.mk.inj (Option.some.inj h)
    exact ⟨rfl, .inl ⟨hs, rfl⟩⟩
  rename_i hs
  split at h
  · cases h
  · rename_i req hreq
    obtain ⟨f, hrpc, rfl⟩ | ⟨entry, u, hrpc, h⟩ := bind_run h
    · obtain ⟨l, rfl, g, hg⟩ := rpc_error hrpc
      exact ⟨rfl, .inr ⟨hs, req, l, hreq, .inl ⟨f, g, rfl, hg⟩⟩⟩
    · obtain ⟨l, rfl, he⟩ := rpc_ok hrpc
      obtain ⟨rfl, rfl⟩ := Prod.mk.inj (Option.some.inj h)
      exact ⟨rfl, .inr ⟨hs, req, l, hreq, .inr ⟨entry, rfl, he⟩⟩⟩

theorem acquire_run {lock : PathLocks → Str → Option PathLocks} {r : Except Fault Unit}
    (h : (acquire lock path).run v = some (r, v')) :
    r = .ok () ∧ v'.leader = v.leader ∧ v'.sdk.cache = v.sdk.cache := by
  simp only [acquire, run_of, Option.map_eq_some_iff, Prod.mk.injEq] at h
  obtain ⟨locks, -, rfl, rfl⟩ := h
  exact ⟨rfl, rfl, rfl⟩

theorem writeLock_run {r : Except Fault Unit} (h : (writeLock path during).run v = some (r, v')) :
    v'.sdk.cache = v.sdk.cache ∧
      ((∃ f g, r = .error f ∧
          v.leader.rpc (.updateLock [path]) during = some (.error g, v'.leader)) ∨
        ∃ entry, r = .ok () ∧
          v.leader.rpc (.updateLock [path]) during = some (.ok entry, v'.leader)) := by
  obtain ⟨f, hlock, -⟩ | ⟨a, u, hlock, h⟩ := bind_run h
  · cases (acquire_run hlock).1
  obtain ⟨-, hl, hcache⟩ := acquire_run hlock
  rw [← hl, ← hcache]
  obtain ⟨f, hrpc, rfl⟩ | ⟨entry, w, hrpc, h⟩ := bind_run h
  · obtain ⟨l, rfl, g, hg⟩ := rpc_error hrpc
    exact ⟨rfl, .inl ⟨f, g, rfl, hg⟩⟩
  · obtain ⟨l, rfl, he⟩ := rpc_ok hrpc
    obtain ⟨rfl, rfl⟩ := Prod.mk.inj (Option.some.inj h)
    exact ⟨rfl, .inr ⟨entry, rfl, he⟩⟩

theorem openLock_run_write {r : Except Fault Unit} (hw : writeMode flags = true)
    (h : (openLock path flags waits).run v = some (r, v')) :
    v'.sdk.cache = v.sdk.cache ∧
      ((∃ f g, r = .error f ∧
          v.leader.rpc (.updateLock [path]) waits.lock = some (.error g, v'.leader)) ∨
        ∃ entry, v.leader.rpc (.updateLock [path]) waits.lock = some (.ok entry, v'.leader) ∧
          ((∃ f, r = .error f) ∧ waits.mkdirWrite ≠ none ∨ r = .ok () ∧ waits.mkdirWrite = none)) := by
  rw [openLock, if_pos hw] at h
  obtain ⟨f, hlock, rfl⟩ | ⟨a, u, hlock, h⟩ := bind_run h
  · obtain ⟨hcache, hg | ⟨entry, hn, -⟩⟩ := writeLock_run hlock
    · exact ⟨hcache, .inl hg⟩
    · cases hn
  obtain ⟨hcache, ⟨f, g, hn, -⟩ | ⟨entry, -, he⟩⟩ := writeLock_run hlock
  · cases hn
  rw [run_bind_ok (run_get u)] at h
  obtain ⟨f, hdir, rfl⟩ | ⟨_, u', hdir, hclear⟩ := bind_run h
  · obtain ⟨rfl, hfail | ⟨hn, -⟩⟩ := mkdirF_run hdir
    · exact ⟨hcache, .inr ⟨entry, he, .inl hfail⟩⟩
    · cases hn
  · obtain ⟨rfl, ⟨⟨f, hn⟩, -⟩ | ⟨-, hmade⟩⟩ := mkdirF_run hdir
    · cases hn
    · obtain ⟨rfl, rfl⟩ := Prod.mk.inj (Option.some.inj hclear)
      exact ⟨hcache, .inr ⟨entry, he, .inr ⟨rfl, hmade⟩⟩⟩

def TruncateRefused (l : Leader) (path : Str) (remote : Inode) (during : List Action) : Prop :=
  remote.filesize ≠ 0 ∧ ∃ req fault l', truncateRequest path remote 0 = some req ∧
    l.rpc (.putOk req) during = some (.error fault, l')

/-- Under its lock, `open` fails when the slave refuses the path, a stale block file stays or the
leader refuses the truncation. -/
theorem openInode_run {r : Except Fault Unit}
    (h : (openInode path flags waits).run v = some (r, v')) :
    ∃ db, v.leader.replica waits.seen = some db ∧
      (((∃ g, Namenode.ls db path = .error g) ∨ waits.removeAll ≠ none) ∧ (∃ f, r = .error f) ∨
        ∃ remote, waits.removeAll = none ∧ Namenode.ls db path = .ok remote ∧
          v'.sdk.cache = update v.sdk.cache path (some remote) ∧
          ((∃ f, r = .error f) ↔ flags &&& oTrunc ≠ 0 ∧
            TruncateRefused v.leader path remote waits.truncate)) := by
  obtain ⟨f, hupdate, rfl⟩ | ⟨a, u, hupdate, h⟩ := bind_run h
  · obtain ⟨db, hdb, -, ⟨-, hfail⟩ | ⟨remote, hn, -⟩⟩ := updateInode_run hupdate
    · exact ⟨db, hdb, .inl ⟨hfail, f, rfl⟩⟩
    · cases hn
  obtain ⟨db, hdb, hl, ⟨⟨f, hn⟩, -⟩ | ⟨remote, -, hremoved, hls, hcache⟩⟩ := updateInode_run hupdate
  · cases hn
  refine ⟨db, hdb, .inr ⟨remote, hremoved, hls, ?_⟩⟩
  split at h
  · rename_i ht
    have hc : u.sdk.cache path = some remote := by rw [hcache, update_self]
    obtain ⟨hsame, ⟨hs, rfl⟩ | ⟨hs, req, l, hreq, ⟨f, g, rfl, hg⟩ | ⟨entry, rfl, he⟩⟩⟩ :=
      truncate_run hc h
    · refine ⟨hsame.trans hcache, fun ⟨f, hf⟩ ↦ (nomatch hf), fun ⟨_, hne, _⟩ ↦ absurd hs hne⟩
    · rw [hl] at hg
      exact ⟨hsame.trans hcache, fun _ ↦ ⟨ht, hs, req, g, l, hreq, hg⟩, fun _ ↦ ⟨f, rfl⟩⟩
    · refine ⟨hsame.trans hcache, fun ⟨f, hf⟩ ↦ (nomatch hf), ?_⟩
      rintro ⟨-, -, req', g, l', hreq', hg⟩
      rw [hreq] at hreq'
      obtain rfl := Option.some.inj hreq'
      rw [hl] at he
      rw [he] at hg
      cases hg
  · rename_i ht
    obtain ⟨rfl, rfl⟩ := Prod.mk.inj (Option.some.inj h)
    exact ⟨hcache, fun ⟨f, hf⟩ ↦ (nomatch hf), fun ⟨hn, _⟩ ↦ absurd hn ht⟩

theorem openLock_cache {r : Except Fault Unit}
    (h : (openLock path flags waits).run v = some (r, v')) : v'.sdk.cache = v.sdk.cache := by
  by_cases hw : writeMode flags = true
  · exact (openLock_run_write hw h).1
  · rw [openLock, if_neg hw] at h
    exact (acquire_run h).2.2

theorem open_stages {r : Except Fault Unit}
    (h : (SDK.open path flags waits).run v = some (r, v')) :
    ((flags &&& oCreat ≠ 0 ∨ waits.mkdir ≠ none) ∧ ∃ f, r = .error f) ∨
      flags &&& oCreat = 0 ∧ waits.mkdir = none ∧ ∃ u w r', u.leader = v.leader ∧ u.sdk.cache = v.sdk.cache ∧
        (openLock path flags waits).run u = some (r', w) ∧
          ((∃ f, r' = .error f ∧ r = .error f) ∨
            r' = .ok () ∧ (openInode path flags waits).run w = some (r, v')) := by
  rw [SDK.open] at h
  split at h
  · rename_i hc
    obtain ⟨rfl, -⟩ := Prod.mk.inj (Option.some.inj h)
    exact .inl ⟨.inl hc, _, rfl⟩
  rename_i hc
  rw [run_bind_ok (run_get v)] at h
  obtain ⟨f, hdir, rfl⟩ | ⟨_, u, hdir, hopen⟩ := bind_run h
  · obtain ⟨rfl, ⟨hf, hfail⟩ | ⟨hn, -⟩⟩ := mkdirF_run hdir
    · exact .inl ⟨.inr hfail, hf⟩
    · cases hn
  obtain ⟨rfl, ⟨⟨f, hn⟩, -⟩ | ⟨-, hmade⟩⟩ := mkdirF_run hdir
  · cases hn
  rw [run_bind_ok (run_modifyDir id u)] at hopen
  obtain ⟨f, hlock, rfl⟩ | ⟨a, w, hlock, h⟩ := bind_run hopen
  · exact .inr ⟨not_not.mp hc, hmade, _, v', _, by rfl, by rfl, hlock, .inl ⟨f, rfl, rfl⟩⟩
  · exact .inr ⟨not_not.mp hc, hmade, _, w, _, by rfl, by rfl, hlock, .inr ⟨rfl, h⟩⟩

theorem removeBlocks_ok {blocks : List Nat}
    (h : (removeBlocks path blocks error).run v = some (.ok (), v')) :
    v' = v.setDir path ((v.sdk.dir path).removeAll blocks) := by
  cases error with
  | none => exact (Prod.mk.inj (Option.some.inj h)).2.symm
  | some e => cases h

/-- The lock that a successful `open` in a write mode takes, and the directory it clears. -/
theorem openLock_ok_write (hw : writeMode flags = true)
    (h : (openLock path flags waits).run v = some (.ok (), v')) :
    ∃ u, (writeLock path waits.lock).run v = some (.ok (), u) ∧
      v' = u.setDir path (u.sdk.dir path).clearWrite := by
  rw [openLock, if_pos hw] at h
  obtain ⟨_, u, hwrite, h⟩ := bind_ok h
  rw [run_bind_ok (run_get u)] at h
  obtain ⟨_, u', hdir, hclear⟩ := bind_ok h
  obtain rfl := (mkdirF_run hdir).1
  exact ⟨u', hwrite, (Prod.mk.inj (Option.some.inj hclear)).2.symm⟩

/-- The directory of the path is there before a successful `open` locks it. -/
theorem open_ok_run (h : (SDK.open path flags waits).run v = some (.ok (), v')) :
    ∃ w, (openLock path flags waits).run (v.setDir path (v.sdk.dir path)) = some (.ok (), w) ∧
      (openInode path flags waits).run w = some (.ok (), v') := by
  rw [SDK.open] at h
  split at h
  · cases h
  rw [run_bind_ok (run_get v)] at h
  obtain ⟨_, u, hdir, hopen⟩ := bind_ok h
  obtain rfl := (mkdirF_run hdir).1
  rw [run_bind_ok (modifyDir_eq id)] at hopen
  obtain ⟨_, w, hlock, hinode⟩ := bind_ok hopen
  exact ⟨w, hlock, hinode⟩

/-- A successful `open` caches what the slave answers. With a write mode this comes after
the answer to `update_lock`. -/
theorem open_ok (h : (SDK.open path flags waits).run v = some (.ok (), v')) :
    ∃ remote, v'.sdk.cache = update v.sdk.cache path (some remote) ∧
      (writeMode flags = true → ∃ entry l db,
        v.leader.rpc (.updateLock [path]) waits.lock = some (.ok entry, l) ∧
          l.replica waits.seen = some db ∧ Namenode.ls db path = .ok remote) := by
  obtain ⟨-, f, hf⟩ | ⟨-, -, u, w, r', hl, hcache, hlock, ⟨f, -, hf⟩ | ⟨rfl, h⟩⟩ := open_stages h
  · cases hf
  · cases hf
  obtain ⟨db, hdb, ⟨-, f, hf⟩ | ⟨remote, -, hls, hafter, -⟩⟩ := openInode_run h
  · cases hf
  refine ⟨remote, ?_, fun hw ↦ ?_⟩
  · rw [hafter, openLock_cache hlock, hcache]
  · obtain ⟨-, ⟨f, g, hf, -⟩ | ⟨entry, he, -⟩⟩ := openLock_run_write hw hlock
    · cases hf
    · exact ⟨entry, _, db, hl ▸ he, hdb, hls⟩

/-- Why an `open` with a write mode fails: it is asked to create the file, one of its local
directories cannot be made, the path is not valid on the leader, or on the slave when this is
asked, a stale block file cannot be removed, or the leader refuses the truncation. -/
inductive OpenRefused (l : Leader) (path : Str) (flags : Nat) (waits : Waits) : Prop
  | create (h : flags &&& oCreat ≠ 0)
  | directory (h : waits.mkdir ≠ none)
  | invalid (h : ∀ j, RocksDB.lookup l.store (simplifyPath path) = some j → j.valid = false)
  | writeDirectory {entry : Entry} {l' : Leader}
      (lock : l.rpc (.updateLock [path]) waits.lock = some (.ok entry, l'))
      (h : waits.mkdirWrite ≠ none)
  | unseen {entry : Entry} {l' : Leader} {db : RocksDB} {fault : Fault}
      (lock : l.rpc (.updateLock [path]) waits.lock = some (.ok entry, l'))
      (slave : l'.replica waits.seen = some db) (h : Namenode.ls db path = .error fault)
  | stale {entry : Entry} {l' : Leader}
      (lock : l.rpc (.updateLock [path]) waits.lock = some (.ok entry, l'))
      (h : waits.removeAll ≠ none)
  | truncate {entry : Entry} {l' : Leader} {db : RocksDB} {remote : Inode}
      (lock : l.rpc (.updateLock [path]) waits.lock = some (.ok entry, l'))
      (slave : l'.replica waits.seen = some db) (ls : Namenode.ls db path = .ok remote)
      (flag : flags &&& oTrunc ≠ 0) (h : TruncateRefused l' path remote waits.truncate)

theorem open_error_iff {r : Except Fault Unit} (hw : writeMode flags = true)
    (h : (SDK.open path flags waits).run v = some (r, v')) :
    (∃ f, r = .error f) ↔ OpenRefused v.leader path flags waits := by
  obtain ⟨hc | hc, hf⟩ | ⟨hc, hmade, u, w, r', hl, -, hlock, hrest⟩ := open_stages h
  · exact ⟨fun _ ↦ .create hc, fun _ ↦ hf⟩
  · exact ⟨fun _ ↦ .directory hc, fun _ ↦ hf⟩
  obtain ⟨-, ⟨f, g, rfl, hg⟩ | ⟨entry, he, ⟨⟨f, rfl⟩, hfail⟩ | ⟨rfl, hwrites⟩⟩⟩ :=
    openLock_run_write hw hlock
  · obtain ⟨f', -, rfl⟩ | ⟨hn, -⟩ := hrest
    · refine ⟨fun _ ↦ .invalid fun j hj ↦ ?_, fun _ ↦ ⟨f', rfl⟩⟩
      rw [← hl] at hj
      have hno := mt (Leader.rpc_updateLock hg).mpr (fun ⟨e, hn⟩ ↦ nomatch hn)
      exact Bool.eq_false_iff.mpr fun hv ↦ hno ⟨j, hj, hv⟩
    · cases hn
  · obtain ⟨f', -, rfl⟩ | ⟨hn, -⟩ := hrest
    · rw [hl] at he
      exact ⟨fun _ ↦ .writeDirectory he hfail, fun _ ↦ ⟨f', rfl⟩⟩
    · cases hn
  rw [hl] at he
  obtain ⟨f', hn, -⟩ | ⟨-, h⟩ := hrest
  · cases hn
  obtain ⟨db, hdb, ⟨⟨g, hg⟩ | hstale, hf⟩ | ⟨remote, hremoved, hls, -, hiff⟩⟩ := openInode_run h
  · exact ⟨fun _ ↦ .unseen he hdb hg, fun _ ↦ hf⟩
  · exact ⟨fun _ ↦ .stale he hstale, fun _ ↦ hf⟩
  rw [hiff]
  constructor
  · rintro ⟨hflag, ht⟩
    exact .truncate he hdb hls hflag ht
  · intro ho
    cases ho with
    | create hn => exact absurd hc hn
    | directory hn => exact absurd hmade hn
    | writeDirectory lock hn => exact absurd hwrites hn
    | stale lock hn => exact absurd hremoved hn
    | invalid hn =>
      obtain ⟨j, hj, hv⟩ := (Leader.rpc_updateLock he).mp ⟨entry, rfl⟩
      rw [hn j hj] at hv
      cases hv
    | unseen lock slave hn =>
      cases he.symm.trans lock
      cases hdb.symm.trans slave
      cases hls.symm.trans hn
    | truncate lock slave ls flag ht =>
      cases he.symm.trans lock
      cases hdb.symm.trans slave
      cases hls.symm.trans ls
      exact ⟨flag, ht⟩

end SDK

end Spkdfs
