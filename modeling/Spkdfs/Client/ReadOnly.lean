import Spkdfs.Client.LockBalance

namespace Spkdfs

open Library Procedure Function

/-- Reads, and what happens elsewhere. -/
def Access.Reads : Access → Prop
  | .read _ _ _ | .elsewhere _ => True
  | .write _ _ _ | .fsync _ _ _ => False

def Access.actions : Access → List Action
  | .elsewhere actions => actions
  | _ => []

def Mark.SendsPutOk (m : Mark) : Prop := ∃ req before after, m = .request (.putOk req) before after

/-- No `put_ok` is sent, and the path has the inode that it has without the session. -/
structure LeavesAlone (path : Str) (list : List Access) (v w : View) (trace : List Mark) : Prop where
  unsent : ∀ m ∈ trace, ¬ m.SendsPutOk
  inode : ∃ l, run Leader.step (fun _ _ ↦ true) v.leader (list.flatMap Access.actions) = some l ∧
    RocksDB.lookup w.leader.store (simplifyPath path) =
      RocksDB.lookup l.store (simplifyPath path)

namespace SDK

variable {path : Str} {flags : Nat} {waits : Waits} {lost : Lost} {silent : Option Fault}
  {nodes : Datanodes} {during : List Action} {v w : View} {trace : List Mark}

theorem dirtyBlocks_eq_nil {t : TmpDir} : dirtyBlocks t = [] ↔ t.write.getD [] = [] := by
  rw [dirtyBlocks, TmpDir.listWrite, List.map_eq_nil_iff, ← List.length_eq_zero_iff,
    List.length_insertionSort, List.length_eq_zero_iff, List.map_eq_nil_iff]

/-- The path is open, and the links of its directory `write` are these. -/
structure Reading (path : Str) (links : Option (List (Nat × Nat))) (v : View) : Prop where
  cache : ∃ j, v.sdk.cache path = some j
  own : ∃ t, v.sdk.dirs (v.sdk.tmpPath path) = some t ∧ t.write = links

variable {links : Option (List (Nat × Nat))}

theorem Reading.dirtyBlocks (h : Reading path links v) :
    SDK.dirtyBlocks (v.sdk.dir path) = [] ↔ links.getD [] = [] := by
  obtain ⟨t, ht, rfl⟩ := h.own
  rw [View.dir_eq ht, dirtyBlocks_eq_nil]

theorem around_updateInode {seen : Nat} {error : Option (Nat × Str)} {r : Except Fault Unit}
    (hdir : ∃ t, v.sdk.dirs (v.sdk.tmpPath path) = some t ∧ t.write = links)
    (h : (updateInode path seen error).run v = some (r, w)) :
    ∃ t, w.sdk.dirs (w.sdk.tmpPath path) = some t ∧ t.write = links := by
  have hafter := keeps_around_updateInode (H := fun t ↦ t.write = links)
    (fun t indices ht ↦ ht) v r w ⟨rfl, fun _ _ ↦ rfl, hdir⟩ h
  rw [hafter.tmpPath_eq]
  exact hafter.own

/-- An `open` for reading that does not truncate asks the master for nothing, and finds the links
that are there. -/
theorem Trace.open_read (hread : writeMode flags = false)
    (h : (Trace.open path flags waits lost).run v = some (.ok (), w, trace)) :
    (v.leader.Truncates path flags waits ∧ ∃ m ∈ trace, m.SendsPutOk) ∨
      ¬ v.leader.Truncates path flags waits ∧ (∀ m ∈ trace, ¬ m.SendsPutOk) ∧
        w.leader = v.leader ∧ Reading path (v.sdk.dir path).write w := by
  rw [Trace.open] at h
  split at h
  · obtain ⟨_, u, t₁, t₂, hcreate, -, -⟩ := Traced.bind_ok h
    obtain ⟨hrun, -⟩ := Traced.run_lift.mp hcreate
    cases hrun
  rw [Traced.run_lift_bind (run_get v)] at h
  obtain ⟨_, v₁, t₁, t₂, hdir, hopen, rfl⟩ := Traced.bind_ok h
  obtain ⟨hrun, rfl⟩ := Traced.run_lift.mp hdir
  obtain ⟨rfl, ⟨⟨f, hf⟩, -⟩ | ⟨-, hmade⟩⟩ := mkdirF_run hrun
  · cases hf
  rw [Traced.run_lift_bind (modifyDir_eq id)] at hopen
  obtain ⟨_, u, t₁, t₂, hlock, hinode, rfl⟩ := Traced.bind_ok hopen
  rw [openLock, if_neg (by rw [hread]; exact Bool.false_ne_true)] at hlock
  obtain ⟨hacquire, rfl⟩ := Traced.run_note.mp hlock
  simp only [SDK.acquire, run_of, Option.map_eq_some_iff, Prod.mk.injEq] at hacquire
  obtain ⟨locks, -, -, rfl⟩ := hacquire
  obtain ⟨_, x, t₁, t₃, hupdate, hrest, rfl⟩ := Traced.bind_ok hinode
  obtain ⟨-, hremote⟩ := updateInode_ok hupdate
  obtain ⟨-, rfl⟩ := Traced.run_lift.mp hupdate
  obtain ⟨db, hdb, hleader, ⟨⟨f, hf⟩, -⟩ | ⟨j, -, hremoved, hls, hcache⟩⟩ :=
    updateInode_run hremote
  · cases hf
  have hopened : v₁.leader.openedInode path flags waits = some j := by
    rw [Leader.openedInode, Leader.locked, if_neg (not_not.mpr hmade),
      if_neg (by rw [hread]; exact Bool.false_ne_true), Option.bind_some]
    exact Leader.remoteInode_eq hremoved hdb hls
  have hown : ∃ t, x.sdk.dirs (x.sdk.tmpPath path) = some t ∧ t.write = (v₁.sdk.dir path).write :=
    around_updateInode ⟨_, update_self .., rfl⟩ hremote
  have hc : x.sdk.cache path = some j := by rw [hcache, update_self]
  have hquiet : ∀ m ∈ [] ++ ([Mark.acquired path] ++ ([] ++ [])), ¬ m.SendsPutOk := by
    rintro m hm ⟨req, before, after, rfl⟩
    simp at hm
  split at hrest
  · rename_i ht
    obtain ⟨i, y, t₁, t₄, hget, hcut, rfl⟩ := Traced.bind_ok hrest
    obtain ⟨hcached, rfl⟩ := Traced.run_lift.mp hget
    obtain ⟨hi, rfl⟩ := getInode_ok.mp hcached
    obtain rfl := Option.some.inj (hc.symm.trans hi)
    split at hcut
    · rename_i hs
      simp only [Traced.run_pure, Option.some.injEq, Prod.mk.injEq] at hcut
      obtain ⟨-, rfl, rfl⟩ := hcut
      refine .inr ⟨?_, hquiet, hleader, ⟨j, hc⟩, hown⟩
      rintro ⟨-, i, hi, hne⟩
      obtain rfl := Option.some.inj (hopened.symm.trans hi)
      exact hne hs
    rename_i hs
    refine .inl ⟨⟨ht, j, hopened, hs⟩, ?_⟩
    split at hcut
    · obtain ⟨hstuck, -⟩ := Traced.run_lift.mp hcut
      cases hstuck
    obtain ⟨entry, z, t₁, t₅, hrpc, -, rfl⟩ := Traced.bind_ok hcut
    rename_i request _
    obtain ⟨-, rfl⟩ := Traced.run_note.mp hrpc
    exact ⟨.request (.putOk request) y.leader z.leader, by simp, _, _, _, rfl⟩
  · rename_i ht
    simp only [Traced.run_pure, Option.some.injEq, Prod.mk.injEq] at hrest
    obtain ⟨-, rfl, rfl⟩ := hrest
    exact .inr ⟨fun hno ↦ ht hno.1, hquiet, hleader, ⟨j, hc⟩, hown⟩

theorem fillable_write {fetched : Nat → Str → Prop} : Fillable fetched (·.write = links) := by
  intro t i s ht _ _
  rw [TmpDir.write_save, ht]

/-- Reads ask the master for nothing and leave the links as they are. -/
theorem Trace.accesses_read {list : List Access} (hlist : ∀ a ∈ list, a.Reads)
    (hv : Reading path links v) (h : (accesses path list).run v = some (.ok (), w, trace)) :
    trace = [] ∧ Reading path links w ∧
      run Leader.step (fun _ _ ↦ true) v.leader (list.flatMap Access.actions) = some w.leader := by
  induction list generalizing v trace with
  | nil =>
    simp only [accesses, Traced.run_pure, Option.some.injEq, Prod.mk.injEq] at h
    obtain ⟨-, rfl, rfl⟩ := h
    exact ⟨rfl, hv, rfl⟩
  | cons a rest ih =>
    obtain ⟨_, u, t₁, t₂, hfirst, hrest, rfl⟩ := Traced.bind_ok h
    have hstep : t₁ = [] ∧ Reading path links u ∧
        run Leader.step (fun _ _ ↦ true) v.leader a.actions = some u.leader := by
      have ha := hlist a List.mem_cons_self
      cases a with
      | read offset size nodes =>
        obtain ⟨-, r, hrun⟩ := Traced.run_settled.mp hfirst
        obtain ⟨hread, rfl⟩ := Traced.run_lift.mp hrun
        obtain ⟨j, hj⟩ := hv.cache
        obtain ⟨t, ht, hlinks⟩ := hv.own
        have hwithin := readData_within hj fillable_write (.start ht hlinks) hread
        refine ⟨rfl, ⟨⟨j, by rw [hwithin.cache, hj]⟩, hwithin.own⟩, ?_⟩
        rw [hwithin.leader]
        rfl
      | elsewhere actions =>
        obtain ⟨hrun, rfl⟩ := Traced.run_lift.mp hfirst
        simp only [run_of, Option.map_eq_some_iff, Prod.mk.injEq] at hrun
        obtain ⟨l, hl, -, rfl⟩ := hrun
        exact ⟨rfl, ⟨hv.cache, hv.own⟩, hl⟩
      | write offset data nodes => exact ha.elim
      | fsync nodes during lost => exact ha.elim
    obtain ⟨rfl, hu, hactions⟩ := hstep
    obtain ⟨rfl, hw, hmore⟩ := ih (fun b hb ↦ hlist b (List.mem_cons_of_mem _ hb)) hu hrest
    refine ⟨rfl, hw, ?_⟩
    rw [List.flatMap_cons, run_append, hactions]
    exact hmore

/-- `close` sends a `put_ok` unless there is nothing to commit or `fsync` throws before. -/
theorem Trace.close_sends {r : Except Fault (Option Commit)}
    (h : (close path nodes during silent).run v = some (r, w, trace)) :
    ((SDK.dirtyBlocks (v.sdk.dir path) = [] ∨ Unsent path nodes v) ∧
        (∀ m ∈ trace, ¬ m.SendsPutOk) ∧ w.leader = v.leader) ∨
      ¬ (SDK.dirtyBlocks (v.sdk.dir path) = [] ∨ Unsent path nodes v) ∧
        ∃ m ∈ trace, m.SendsPutOk := by
  have hsync : ∃ r u t₁ t₂, (fsync path nodes during silent).run v = some (r, u, t₁) ∧
      trace = t₁ ++ t₂ ∧ (∀ m ∈ t₂, ¬ m.SendsPutOk) ∧ w.leader = u.leader := by
    obtain ⟨f, hrun, -⟩ | ⟨commit, u, t₁, t₂, hrun, hrest, rfl⟩ := Traced.bind_run h
    · exact ⟨_, _, _, [], hrun, (List.append_nil _).symm, by simp, rfl⟩
    · obtain ⟨-, he⟩ := Prod.mk.inj (Option.some.inj hrest)
      obtain ⟨hw, ht⟩ := Prod.mk.inj he
      refine ⟨_, _, _, _, hrun, rfl, ?_, hw ▸ rfl⟩
      rw [← ht]
      rintro m hm ⟨req, before, after, rfl⟩
      simp at hm
  obtain ⟨r, u, t₁, t₂, hrun, rfl, hquiet, hleader⟩ := hsync
  have hdirty : ∀ {req}, commitRequest path nodes v = some req →
      SDK.dirtyBlocks (v.sdk.dir path) ≠ [] := by
    intro req hreq hno
    simp [commitRequest, hno] at hreq
  cases Trace.fsync_run hrun with
  | clean hclean hu => exact .inl ⟨.inl hclean, hquiet, by rw [hleader, hu]⟩
  | unsent hno hu => exact .inl ⟨.inr hno, hquiet, hleader.trans hu⟩
  | refused hsent hreq _ =>
    exact .inr ⟨not_or.mpr ⟨hdirty hreq, hsent⟩, _, List.mem_cons_self, _, _, _, rfl⟩
  | sent _ hsent hreq _ =>
    exact .inr ⟨not_or.mpr ⟨hdirty hreq, hsent⟩, _, List.mem_cons_self, _, _, _, rfl⟩

end SDK

/-- A session that only reads leaves the inode alone if and only if it does not truncate the file
and finds nothing that an earlier session has left to be committed, or cannot upload it. -/
theorem read_only_iff {path : Str} {flags : Nat} {waits : Waits} {lost : Lost}
    {list : List Access} {nodes : Datanodes} {during : List Action} {silent : Option Fault}
    {v u₁ u₂ w : View} {result : Except Fault (Option Commit)} {t₁ t₂ t₃ : List Mark}
    (hread : writeMode flags = false) (hlist : ∀ a ∈ list, a.Reads)
    (hopen : (SDK.Trace.open path flags waits lost).run v = some (.ok (), u₁, t₁))
    (haccesses : (SDK.Trace.accesses path list).run u₁ = some (.ok (), u₂, t₂))
    (hclose : (SDK.Trace.close path nodes during silent).run u₂ = some (result, w, t₃)) :
    LeavesAlone path list v w (t₁ ++ t₂ ++ t₃) ↔
      ¬ v.leader.Truncates path flags waits ∧
        (SDK.dirtyBlocks (v.sdk.dir path) = [] ∨ SDK.Unsent path nodes u₂) := by
  obtain ⟨ht, m, hm, hsends⟩ | ⟨ht, hquiet, hleader, hreading⟩ := SDK.Trace.open_read hread hopen
  · refine iff_of_false (fun hleft ↦ ?_) fun hno ↦ hno.1 ht
    exact hleft.unsent m (by simp [hm]) hsends
  obtain ⟨rfl, hreading', hactions⟩ := SDK.Trace.accesses_read hlist hreading haccesses
  have hsame : SDK.dirtyBlocks (u₂.sdk.dir path) = [] ↔ SDK.dirtyBlocks (v.sdk.dir path) = [] := by
    rw [hreading'.dirtyBlocks, SDK.dirtyBlocks_eq_nil]
  obtain ⟨hcond, hquiet', hleader'⟩ | ⟨hcond, m, hm, hsends⟩ := SDK.Trace.close_sends hclose
  · rw [hsame] at hcond
    refine iff_of_true ⟨fun m hm ↦ ?_, u₂.leader, ?_, by rw [hleader']⟩ ⟨ht, hcond⟩
    · rw [List.append_nil] at hm
      rcases List.mem_append.mp hm with hm | hm
      · exact hquiet m hm
      · exact hquiet' m hm
    · rw [← hleader, hactions]
  · rw [hsame] at hcond
    refine iff_of_false (fun hleft ↦ ?_) fun hno ↦ hcond hno.2
    exact hleft.unsent m (by simp [hm]) hsends

/-- A session that reads beyond the end of the file, while another path is created. -/
theorem read_only_quiet :
    ∃ u₁ u₂ w result t₁ t₂ t₃,
      (SDK.Trace.open "/f".toList oRdonly { seen := 1 } {}).run emptyView = some (.ok (), u₁, t₁) ∧
      (SDK.Trace.accesses "/f".toList
        [.read 1 1 .byContent, .elsewhere [.prepare 1 (.mkdir "/d".toList), .apply]]).run u₁ =
          some (.ok (), u₂, t₂) ∧
      (SDK.Trace.close "/f".toList .byContent [] none).run u₂ = some (.ok result, w, t₃) ∧
      LeavesAlone "/f".toList
        [.read 1 1 .byContent, .elsewhere [.prepare 1 (.mkdir "/d".toList), .apply]]
        emptyView w (t₁ ++ t₂ ++ t₃) := by
  have hclean : SDK.dirtyBlocks (emptyView.sdk.dir "/f".toList) = [] := rfl
  have hrun : (SDK.Trace.open "/f".toList oRdonly { seen := 1 } {}).succeeds emptyView (fun u₁ _ ↦
      (SDK.Trace.accesses "/f".toList
        [.read 1 1 .byContent, .elsewhere [.prepare 1 (.mkdir "/d".toList), .apply]]).succeeds u₁
          fun u₂ _ ↦ (SDK.Trace.close "/f".toList .byContent [] none).succeeds u₂ fun _ _ ↦ true) =
      true := by decide +kernel
  obtain ⟨_, u₁, t₁, hopen, hrun⟩ := Traced.exists_of_succeeds hrun
  obtain ⟨_, u₂, t₂, haccesses, hrun⟩ := Traced.exists_of_succeeds hrun
  obtain ⟨result, w, t₃, hclose, -⟩ := Traced.exists_of_succeeds hrun
  refine ⟨u₁, u₂, w, result, t₁, t₂, t₃, hopen, haccesses, hclose, ?_⟩
  refine (read_only_iff (by decide) ?_ hopen haccesses hclose).mpr ⟨?_, .inl hclean⟩
  · intro a ha
    rcases List.mem_pair.mp ha with rfl | rfl <;> trivial
  · rintro ⟨ht, -⟩
    exact ht (by decide)

/-- The client after a restart, with the same data directory. -/
def View.restarted (v : View) : View :=
  { v with sdk := { SDK.new v.sdk.slave with dirs := v.sdk.dirs } }

def Mark.isPutOk : Mark → Bool
  | .request (.putOk _) _ _ => true
  | _ => false

theorem Mark.sendsPutOk {m : Mark} (h : m.isPutOk = true) : m.SendsPutOk := by
  cases m with
  | request req before after =>
    cases req with
    | putOk req => exact ⟨req, before, after, rfl⟩
    | _ => cases h
  | _ => cases h

/-- A block that was written before a restart is committed by whoever reads the file next. -/
theorem not_read_only_leftover :
    ∃ v u w result t₁ t₂ t₃,
      (SDK.Trace.accesses "/f".toList [.write 0 "abc".toList .byContent]).run emptyOpened =
        some (.ok (), v, t₁) ∧
      (SDK.Trace.open "/f".toList oRdonly { seen := 2 } {}).run v.restarted = some (.ok (), u, t₂) ∧
      (SDK.Trace.close "/f".toList .byContent [.apply] none).run u = some (.ok result, w, t₃) ∧
      (∃ m ∈ t₃, m.SendsPutOk) ∧
      RocksDB.lookup w.leader.store "/f".toList ≠ RocksDB.lookup v.leader.store "/f".toList := by
  have hrun : (SDK.Trace.accesses "/f".toList [.write 0 "abc".toList .byContent]).succeeds emptyOpened
      (fun v _ ↦ (SDK.Trace.open "/f".toList oRdonly { seen := 2 } {}).succeeds v.restarted fun u _ ↦
        (SDK.Trace.close "/f".toList .byContent [.apply] none).succeeds u fun w trace ↦
          trace.any Mark.isPutOk && RocksDB.lookup w.leader.store "/f".toList !=
            RocksDB.lookup v.leader.store "/f".toList) = true := by decide +kernel
  obtain ⟨_, v, t₁, hwrite, hrun⟩ := Traced.exists_of_succeeds hrun
  obtain ⟨_, u, t₂, hopen, hrun⟩ := Traced.exists_of_succeeds hrun
  obtain ⟨result, w, t₃, hclose, hrun⟩ := Traced.exists_of_succeeds hrun
  rw [Bool.and_eq_true, bne_iff_ne] at hrun
  obtain ⟨m, hm, hsends⟩ := List.any_eq_true.mp hrun.1
  exact ⟨v, u, w, result, t₁, t₂, t₃, hwrite, hopen, hclose, ⟨m, hm, m.sendsPutOk hsends⟩, hrun.2⟩

end Spkdfs
