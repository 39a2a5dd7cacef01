import Spkdfs.Client.RoundTrip
import Spkdfs.Client.Writing

namespace Spkdfs

open Library Procedure Function

namespace SDK

section

variable {T : Str → Str} {path : Str} {D : Str → Option TmpDir} {H G : TmpDir → Prop}
  {v v' : View} {flags size : Nat} {waits : Waits} {during : List Action}

theorem updateInode_around {seen : Nat} {error : Option (Nat × Str)} {t : TmpDir}
    (hv : Around T path D (· = t) v)
    (h : (updateInode path seen error).run v = some (.ok (), v')) :
    ∃ remote, v'.sdk.cache path = some remote ∧
      Around T path D
        (· = t.removeAll (staleBlocks ((v.sdk.cache path).getD (.ofPath [])) remote)) v' := by
  rw [updateInode, run_bind_ok (run_get v), run_bind_ok (run_setCache _ v)] at h
  obtain ⟨remote, w, hremote, h⟩ := bind_ok h
  have hw := keeps_around_getRemoteInode seen _ _ _
    (keeps_around_setCache _ _ _ _ hv (run_setCache _ v)) hremote
  obtain ⟨_, x, hblocks, h⟩ := bind_ok h
  obtain rfl := removeBlocks_ok hblocks
  obtain ⟨-, rfl⟩ := Prod.mk.inj (Option.some.inj h)
  let stale := staleBlocks ((v.sdk.cache path).getD (.ofPath [])) remote
  have hdir := hw.modifyDir (f := (·.removeAll stale)) (G := (· = t.removeAll stale))
    fun t' ht ↦ by rw [ht]
  exact ⟨remote, update_self .., hdir.tmpPath_eq, hdir.others, hdir.own⟩

/-- In a write mode, what is left of the directory of the path are its block files without the stale
ones. -/
theorem open_dir (hw : writeMode flags = true)
    (h : (SDK.open path flags waits).run v = some (.ok (), v')) :
    ∃ remote, v'.sdk.cache path = some remote ∧
      Around v.sdk.tmpPath path v.sdk.dirs (· = (v.sdk.dir path).clearWrite.removeAll
        (staleBlocks ((v.sdk.cache path).getD (.ofPath [])) remote)) v' := by
  obtain ⟨w, hlock, h⟩ := open_ok_run h
  obtain ⟨u, hwrite, rfl⟩ := openLock_ok_write hw hlock
  have hmade : Around v.sdk.tmpPath path v.sdk.dirs (· = v.sdk.dir path) _ := around_made rfl
  have hcleared := (keeps_around_writeLock _ _ _ hmade hwrite).modifyDir
    (G := (· = (v.sdk.dir path).clearWrite)) (f := (·.clearWrite))
    fun t ht ↦ by rw [ht]
  have hcache := (writeLock_run hwrite).1
  obtain ⟨_, x, hupdate, h⟩ := bind_ok h
  obtain ⟨remote, hremote, hx⟩ := updateInode_around hcleared hupdate
  rw [hcache] at hx
  split at h
  · exact ⟨remote, by rw [(truncate_run hremote h).1, hremote],
      keeps_around_truncate _ _ _ hx h⟩
  · obtain ⟨-, rfl⟩ := Prod.mk.inj (Option.some.inj h)
    exact ⟨remote, hremote, hx⟩

/-- Without block files, all that is in the directory afterwards is the directory `write`. -/
theorem open_write_empty (hw : writeMode flags = true) (hempty : (v.sdk.dir path).files = [])
    (h : (SDK.open path flags waits).run v = some (.ok (), v')) :
    ∃ t, v'.sdk.dirs (v'.sdk.tmpPath path) = some t ∧ t.Shows (fun _ ↦ none) ∅ := by
  have hafter := open_around (H := fun t ↦ t.files = [])
    (G := fun t ↦ t.files = [] ∧ t.write = some []) (fun t ht ↦ by rw [if_pos hw]; exact ⟨ht, rfl⟩)
    (fun t indices ht ↦ ⟨by rw [TmpDir.removeAll, ht.1, List.filter_nil], ht.2⟩) hempty h
  obtain ⟨t, ht, hfiles, hwrite⟩ := hafter.own
  have hlookup : ∀ i, t.files.lookup i = none := fun i ↦ by rw [hfiles, List.lookup_nil]
  refine ⟨t, by rw [hafter.tmpPath_eq, ht], ?_, ?_, ?_, [], hwrite, by simp⟩
  · intro i j file hi
    rw [hlookup] at hi
    cases hi
  · intro i file hi
    rw [hlookup] at hi
    cases hi
  · intro i
    rw [TmpDir.read, hlookup, Option.map_none]

end

section

variable {path : Str} {v v' : View} {flags : Nat} {waits : Waits} {j : Inode}

theorem keeps_applied_truncate (count size : Nat) (during : List Action) :
    Keeps (fun v ↦ count ≤ v.leader.applied.length) (_truncate path size during) := by
  refine Keeps.bind ?_ fun inode ↦ ?_
  · refine keeps_get.bind fun u ↦ ?_
    split
    · exact keeps_throw _
    · exact keeps_pure _
  split
  · exact keeps_pure _
  split
  · exact keeps_stuck
  · refine Keeps.bind (fun v r v' hv h ↦ ?_) fun _ ↦ keeps_modify fun _ hv ↦ hv
    simp only [rpc, run_of, Option.map_eq_some_iff, Prod.mk.injEq] at h
    obtain ⟨⟨answer, l⟩, hrpc, -, rfl⟩ := h
    obtain ⟨records, happlied, -⟩ := Leader.applied_of_reaches (Leader.reaches_of_rpc hrpc)
    show count ≤ l.applied.length
    rw [happlied, List.length_append]
    exact hv.trans (Nat.le_add_right _ _)

theorem updateInode_seen {seen : Nat} {error : Option (Nat × Str)} {r : Except Fault Unit}
    (h : (updateInode path seen error).run v = some (r, v')) :
    seen ≤ v.leader.applied.length ∧ v'.progress = seen := by
  rw [updateInode, run_bind_ok (run_get v), run_bind_ok (run_setCache _ _)] at h
  obtain ⟨f, hremote, -⟩ | ⟨remote, u, hremote, h⟩ := bind_run h
  · simp only [getRemoteInode, run_of, Option.ite_none_right_eq_some, Option.map_eq_some_iff,
      Prod.mk.injEq] at hremote
    obtain ⟨hseen, db, -, -, rfl⟩ := hremote
    exact ⟨hseen.2, rfl⟩
  · simp only [getRemoteInode, run_of, Option.ite_none_right_eq_some, Option.map_eq_some_iff,
      Prod.mk.injEq] at hremote
    obtain ⟨hseen, db, -, -, rfl⟩ := hremote
    refine ⟨hseen.2, ?_⟩
    cases error with
    | none =>
      obtain ⟨-, rfl⟩ := Prod.mk.inj (Option.some.inj h)
      rfl
    | some e =>
      obtain ⟨-, rfl⟩ := Prod.mk.inj (Option.some.inj h)
      rfl

/-- An `open` with an up-to-date slave and with nothing to truncate: the client has the inode of the
leader, in a write mode under a lock. -/
theorem open_lookup (hne : path ≠ []) (hkeep : flags &&& oTrunc = 0 ∨ j.filesize = 0)
    (hpending : ∀ q ∈ v.leader.pending, q.entry.Spares (simplifyPath path))
    (hquiet : ∀ a ∈ waits.lock, a.Spares (simplifyPath path))
    {myIp : Str} {now : Nat}
    (hleader : Reaches Leader.step (fun _ _ ↦ True) (.start myIp now) v.leader)
    (hl : RocksDB.lookup v.leader.store (simplifyPath path) = some j)
    (h : (SDK.open path flags waits).run v = some (.ok (), v'))
    (hseen : waits.seen = v'.leader.applied.length) :
    Reaches Leader.step (fun _ _ ↦ True) v.leader v'.leader ∧
      (∀ q ∈ v'.leader.pending, q.entry.Spares (simplifyPath path)) ∧
      v'.progress = v'.leader.applied.length ∧
      ∃ deadline, v'.sdk.cache path = some { j with ddlLock := deadline } ∧
        RocksDB.lookup v'.leader.store (simplifyPath path) =
          some { j with ddlLock := deadline } := by
  obtain ⟨-, f, hf⟩ | ⟨-, -, u, w, r, hu, -, hlock, ⟨f, -, hf⟩ | ⟨rfl, h⟩⟩ := open_stages h
  · cases hf
  · cases hf
  rw [← hu] at hpending hleader hl
  obtain ⟨hreach, hpending', deadline, hlocked⟩ := openLock_lookup hpending hquiet hl hlock
  obtain ⟨_, x, hupdate, h⟩ := bind_ok h
  obtain ⟨db, hdb, hsame, ⟨⟨f, hf⟩, -⟩ | ⟨remote, -, -, hls, hcache⟩⟩ := updateInode_run hupdate
  · cases hf
  -- the slave has applied the whole log, whether a truncation follows or not
  have hall : waits.seen = w.leader.applied.length := by
    refine le_antisymm (updateInode_seen hupdate).1 ?_
    rw [hseen]
    have hx : w.leader.applied.length ≤ x.leader.applied.length := by rw [hsame]
    split at h
    · exact keeps_applied_truncate _ _ _ _ _ _ hx h
    · rwa [← (Prod.mk.inj (Option.some.inj h)).2]
  rw [hall, Leader.replica_of_reaches (hleader.trans hreach)] at hdb
  obtain rfl := Option.some.inj hdb
  rw [Namenode.ls, if_neg hne] at hls
  obtain rfl := Option.some.inj (hlocked.symm.trans (RocksDB.ls_eq_ok.mp hls).1)
  have hc : x.sdk.cache path = some { j with ddlLock := deadline } := by rw [hcache, update_self]
  have hx : x = v' := by
    split at h
    · rename_i htrunc
      have hzero : ({ j with ddlLock := deadline } : Inode).filesize = 0 := hkeep.resolve_left htrunc
      rw [_truncate, run_bind_ok (getInode_ok.mpr ⟨hc, rfl⟩), if_pos hzero] at h
      exact (Prod.mk.inj (Option.some.inj h)).2
    · exact (Prod.mk.inj (Option.some.inj h)).2
  rw [← hx, hsame, ← hu]
  exact ⟨hreach, hpending', (updateInode_seen hupdate).2.trans hall, deadline, hc, hlocked⟩

end

end SDK

end Spkdfs
