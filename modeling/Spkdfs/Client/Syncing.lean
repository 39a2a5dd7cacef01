import Spkdfs.Client.Session
import Spkdfs.Client.Traced

namespace Spkdfs

open Library Procedure Function

namespace SDK

/-- The entries of a file after the blocks are uploaded. -/
def entriesAfter (nodes : Datanodes) (storage : Option StorageType) (blocks : List (Nat × Str))
    (sub : List Str) : List Str :=
  blocks.foldl (fun sub block ↦ sub.set block.1 (nodes.entry storage block.2)) sub

/-- A link has a name that `stoi` does not take. -/
def BadName (path : Str) (v : View) : Prop :=
  (dirtyBlocks (v.sdk.dir path)).any (2 ^ 31 ≤ ·.1) = true

/-- Why `fsync` throws before it asks for a commit: a link has no name that `stoi` takes, the file
is not open, or a block cannot be uploaded. -/
inductive Unsent (path : Str) (nodes : Datanodes) (v : View) : Prop
  | name (h : BadName path v)
  | closed (hd : dirtyBlocks (v.sdk.dir path) ≠ []) (hc : v.sdk.cache path = none)
  | upload {inode : Inode} {block : Nat × Str} {fault : Fault}
      (hc : v.sdk.cache path = some inode) (hb : block ∈ dirtyBlocks (v.sdk.dir path))
      (h : nodes.encode inode.storageType block.2 = .error fault)

/-- What `fsync` asks the leader to commit, when no block fails. -/
def commitRequest (path : Str) (nodes : Datanodes) (v : View) : Option NNPutOKRequest := do
  let blocks := dirtyBlocks (v.sdk.dir path)
  let (last, block) ← blocks.getLast?
  let inode ← v.sdk.cache path
  return ⟨path, toUInt64 (toInt32 (writtenSize inode last block)),
    entriesAfter nodes inode.storageType blocks (resize inode.sub (last + 1))⟩

inductive FsyncRefused (path : Str) (nodes : Datanodes) (during : List Action) (v : View) : Prop
  | unsent (h : Unsent path nodes v)
  | commit {req : NNPutOKRequest} {fault : Fault} {leader : Leader}
      (hreq : commitRequest path nodes v = some req)
      (h : v.leader.rpc (.putOk req) during = some (.error fault, leader))

/-- `fsync` throws: something of it is refused, or there is something to upload and the `put_ok` is
not answered. -/
def FsyncThrows (path : Str) (nodes : Datanodes) (during : List Action) (silent : Option Fault)
    (v : View) : Prop :=
  match silent with
  | none => FsyncRefused path nodes during v
  | some _ => dirtyBlocks (v.sdk.dir path) ≠ []

variable {path : Str} {nodes : Datanodes} {during : List Action} {silent : Option Fault} {v w : View}

/-- A request fails when the leader refuses it or there is no answer. -/
theorem Trace.rpc_run {req : Request} {r : Except Fault Entry} {trace : List Mark}
    (h : (rpc req during silent).run v = some (r, w, trace)) :
    w.sdk = v.sdk ∧ trace = [.request req v.leader w.leader] ∧
      ((∃ f, r = .error f ∧
          (silent = none → ∃ g, v.leader.rpc req during = some (.error g, w.leader))) ∨
        ∃ entry, r = .ok entry ∧ silent = none ∧
          v.leader.rpc req during = some (.ok entry, w.leader)) := by
  obtain ⟨hrun, rfl⟩ := Traced.run_note.mp h
  cases silent with
  | none =>
    cases r with
    | error f =>
      obtain ⟨l, rfl, g, hg⟩ := rpc_error hrun
      exact ⟨rfl, rfl, .inl ⟨f, rfl, fun _ ↦ ⟨g, hg⟩⟩⟩
    | ok entry =>
      obtain ⟨l, rfl, he⟩ := rpc_ok hrun
      exact ⟨rfl, rfl, .inr ⟨entry, rfl, rfl, he⟩⟩
  | some fault =>
    simp only [request, unanswered, run_of, Option.map_eq_some_iff, Prod.mk.injEq] at hrun
    obtain ⟨l, -, rfl, rfl⟩ := hrun
    exact ⟨rfl, rfl, .inl ⟨fault, rfl, by simp⟩⟩

theorem Unsent.dirty (h : Unsent path nodes v) : dirtyBlocks (v.sdk.dir path) ≠ [] := by
  intro hclean
  cases h with
  | name hlarge => simp [BadName, hclean] at hlarge
  | closed hd hc => exact hd hclean
  | upload hc hb hf => simp [hclean] at hb

theorem dirty_of_commitRequest {req : NNPutOKRequest} (h : commitRequest path nodes v = some req) :
    dirtyBlocks (v.sdk.dir path) ≠ [] := by
  intro hclean
  simp [commitRequest, hclean] at h

/-- The loop of `fsync` fails at a block that cannot be uploaded. -/
theorem encodeBlocks_outcome {storage : Option StorageType} {blocks : List (Nat × Str)}
    {sub : List Str} {r : Except Fault (List Str)}
    (h : (encodeBlocks path nodes storage blocks sub).run v = some (r, w)) :
    w.leader = v.leader ∧
      ((∃ f, r = .error f ∧ ∃ block ∈ blocks, ∃ f, nodes.encode storage block.2 = .error f) ∨
        r = .ok (entriesAfter nodes storage blocks sub) ∧
          ∀ block ∈ blocks, ∃ s, nodes.encode storage block.2 = .ok s) := by
  induction blocks generalizing sub v with
  | nil =>
    obtain ⟨rfl, rfl⟩ := Prod.mk.inj (Option.some.inj h)
    exact ⟨rfl, .inr ⟨rfl, by simp⟩⟩
  | cons block rest ih =>
    obtain ⟨i, data⟩ := block
    rw [encodeBlocks] at h
    cases hs : nodes.encode storage data with
    | error f =>
      rw [hs, run_bind_error (uploadBlock_error i)] at h
      obtain ⟨rfl, rfl⟩ := Prod.mk.inj (Option.some.inj h)
      exact ⟨rfl, .inl ⟨f, rfl, _, List.mem_cons_self, f, hs⟩⟩
    | ok s =>
      rw [hs, run_bind_ok (uploadBlock_ok i s)] at h
      obtain ⟨hleader, ⟨f, rfl, block, hb, hf⟩ | ⟨rfl, hall⟩⟩ := ih h
      · exact ⟨hleader, .inl ⟨f, rfl, block, List.mem_cons_of_mem _ hb, hf⟩⟩
      · refine ⟨hleader, .inr ⟨?_, fun block hb ↦ ?_⟩⟩
        · rw [entriesAfter, entriesAfter, List.foldl_cons, Datanodes.entry, hs]
          rfl
        · rcases List.mem_cons.mp hb with rfl | hb
          · exact ⟨s, hs⟩
          · exact hall block hb

/-- `fsync` has nothing to do, throws before it asks for a commit, or asks for one, which the
leader may refuse or leave without an answer. -/
inductive Synced (path : Str) (nodes : Datanodes) (during : List Action) (silent : Option Fault)
    (v w : View) : Except Fault (Option Commit) → List Mark → Prop
  | clean (h : dirtyBlocks (v.sdk.dir path) = []) (hw : w = v) :
      Synced path nodes during silent v w (.ok none) []
  | unsent {fault : Fault} (h : Unsent path nodes v) (hw : w.leader = v.leader) :
      Synced path nodes during silent v w (.error fault) []
  | refused {req : NNPutOKRequest} {fault : Fault} (hsent : ¬ Unsent path nodes v)
      (hreq : commitRequest path nodes v = some req)
      (h : silent = none → ∃ g, v.leader.rpc (.putOk req) during = some (.error g, w.leader)) :
      Synced path nodes during silent v w (.error fault)
        [.request (.putOk req) v.leader w.leader]
  | sent {req : NNPutOKRequest} {committed : Inode} (hanswered : silent = none)
      (hsent : ¬ Unsent path nodes v) (hreq : commitRequest path nodes v = some req)
      (h : v.leader.rpc (.putOk req) during = some (.ok (.opPutOk committed), w.leader)) :
      Synced path nodes during silent v w
        (.ok (some ⟨committed, (dirtyBlocks (v.sdk.dir path)).map (·.1)⟩))
        [.request (.putOk req) v.leader w.leader]

theorem Trace.fsync_run {r : Except Fault (Option Commit)} {trace : List Mark}
    (h : (fsync path nodes during silent).run v = some (r, w, trace)) :
    Synced path nodes during silent v w r trace := by
  obtain ⟨f, hget, -⟩ | ⟨u, v', t₁, t₂, hget, hrest, rfl⟩ := Traced.bind_run h
  · obtain ⟨hrun, -⟩ := Traced.run_lift.mp hget
    cases hrun
  obtain ⟨hrun, rfl⟩ := Traced.run_lift.mp hget
  obtain ⟨hu, rfl⟩ := Prod.mk.inj (Option.some.inj hrun)
  obtain rfl := Except.ok.inj hu
  dsimp only at hrest
  split at hrest
  · rename_i hlarge
    obtain ⟨hthrow, rfl⟩ := Traced.run_lift.mp hrest
    obtain ⟨rfl, rfl⟩ := Prod.mk.inj (Option.some.inj hthrow)
    exact .unsent (.name hlarge) rfl
  rename_i hsmall
  cases hend : (dirtyBlocks (v.sdk.dir path)).getLast? with
  | none =>
    simp only [hend, Traced.run_pure, Option.some.injEq, Prod.mk.injEq] at hrest
    obtain ⟨rfl, rfl, rfl⟩ := hrest
    exact .clean (List.getLast?_eq_none_iff.mp hend) rfl
  | some final =>
    obtain ⟨last, block⟩ := final
    simp only [hend] at hrest
    have hne : dirtyBlocks (v.sdk.dir path) ≠ [] := by
      intro hnil
      rw [hnil] at hend
      cases hend
    obtain ⟨f, hinode, rfl⟩ | ⟨inode, v', t₁, t₂, hinode, hblocks, rfl⟩ := Traced.bind_run hrest
    · obtain ⟨hrun, rfl⟩ := Traced.run_lift.mp hinode
      rw [getInode, run_bind_ok (run_get v)] at hrun
      cases hc : v.sdk.cache path with
      | none =>
        simp only [hc] at hrun
        obtain ⟨-, rfl⟩ := Prod.mk.inj (Option.some.inj hrun)
        exact .unsent (.closed hne hc) rfl
      | some i =>
        simp only [hc] at hrun
        cases hrun
    obtain ⟨hrun, rfl⟩ := Traced.run_lift.mp hinode
    obtain ⟨hc, hsame⟩ := getInode_ok.mp hrun
    obtain rfl : v = v' := hsame.symm
    obtain ⟨f, hencode, rfl⟩ | ⟨sub, u, t₁, t₃, hencode, hrpc, rfl⟩ := Traced.bind_run hblocks
    · obtain ⟨hrun, rfl⟩ := Traced.run_lift.mp hencode
      obtain ⟨hleader, ⟨f, -, b, hb, g, hg⟩ | ⟨hf, -⟩⟩ := encodeBlocks_outcome hrun
      · exact .unsent (.upload hc hb hg) hleader
      · cases hf
    obtain ⟨hrun, rfl⟩ := Traced.run_lift.mp hencode
    obtain ⟨hleader, ⟨f, hf, -⟩ | ⟨hsub, hall⟩⟩ := encodeBlocks_outcome hrun
    · cases hf
    obtain rfl := Except.ok.inj hsub
    have hsent : ¬ Unsent path nodes v := by
      intro hno
      cases hno with
      | name hlarge => exact hsmall hlarge
      | closed _ hnone => rw [hc] at hnone; cases hnone
      | upload hi hb hf =>
        obtain rfl := Option.some.inj (hc.symm.trans hi)
        obtain ⟨s, hs⟩ := hall _ hb
        rw [hs] at hf
        cases hf
    have hreq : commitRequest path nodes v = some ⟨path,
        toUInt64 (toInt32 (writtenSize inode last block)),
        entriesAfter nodes inode.storageType (dirtyBlocks (v.sdk.dir path))
          (resize inode.sub (last + 1))⟩ := by
      simp only [commitRequest, hend, hc]
      rfl
    obtain ⟨f, hsend, rfl⟩ | ⟨entry, x, t₁, t₂, hsend, hlast, rfl⟩ := Traced.bind_run hrpc
    · obtain ⟨-, rfl, ⟨-, -, hrefused⟩ | ⟨entry, he, -⟩⟩ := rpc_run hsend
      · rw [hleader] at hrefused ⊢
        exact .refused hsent hreq hrefused
      · cases he
    · obtain ⟨-, rfl, ⟨f, hf, -⟩ | ⟨_, he, hanswered, hg⟩⟩ := rpc_run hsend
      · cases hf
      obtain rfl := Except.ok.inj he
      rw [hleader] at hg ⊢
      obtain ⟨committed, rfl, -, -⟩ := Leader.rpc_putOk hg
      simp only [Traced.run_pure, Option.some.injEq, Prod.mk.injEq] at hlast
      obtain ⟨rfl, rfl, rfl⟩ := hlast
      exact .sent hanswered hsent hreq hg

theorem fsync_synced {r : Except Fault (Option Commit)}
    (h : (fsync path nodes during).run v = some (r, w)) :
    ∃ trace, Synced path nodes during none v w r trace := by
  rw [← Trace.erase_fsync] at h
  obtain ⟨trace, hrun⟩ := Traced.run_erase.mp h
  exact ⟨trace, Trace.fsync_run hrun⟩

theorem not_fsyncRefused (h : dirtyBlocks (v.sdk.dir path) = []) :
    ¬ FsyncRefused path nodes during v := by
  intro hno
  cases hno with
  | unsent hunsent => exact hunsent.dirty h
  | commit hreq hf => exact dirty_of_commitRequest hreq h

theorem Synced.error_iff {r : Except Fault (Option Commit)} {trace : List Mark}
    (h : Synced path nodes during silent v w r trace) :
    (∃ f, r = .error f) ↔ FsyncThrows path nodes during silent v := by
  cases h with
  | clean hclean hw =>
    refine iff_of_false (fun ⟨f, hf⟩ ↦ (nomatch hf)) fun hno ↦ ?_
    cases silent with
    | none => exact not_fsyncRefused hclean hno
    | some fault => exact hno hclean
  | unsent h hw =>
    refine iff_of_true ⟨_, rfl⟩ ?_
    cases silent with
    | none => exact .unsent h
    | some fault => exact h.dirty
  | refused hsent hreq h =>
    refine iff_of_true ⟨_, rfl⟩ ?_
    cases silent with
    | none =>
      obtain ⟨g, hg⟩ := h rfl
      exact .commit hreq hg
    | some fault => exact dirty_of_commitRequest hreq
  | sent hanswered hsent hreq h =>
    subst hanswered
    refine iff_of_false (fun ⟨f, hf⟩ ↦ (nomatch hf)) fun hno ↦ ?_
    cases hno with
    | unsent h => exact hsent h
    | commit hreq' h' =>
      obtain rfl := Option.some.inj (hreq.symm.trans hreq')
      rw [h] at h'
      cases h'

end SDK

end Spkdfs
