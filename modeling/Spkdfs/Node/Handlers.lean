import Spkdfs.Node.Effect

namespace Spkdfs

open Library RocksDB

namespace Namenode

variable {db : RocksDB} {env : Env} {now : Nat} {path : Str} {entries : List Entry}

theorem requirePath_eq_ok {u : Unit} : requirePath path = .ok u ↔ path ≠ [] := by
  unfold requirePath
  split <;> simp_all

theorem head_mkdirPath (path : Str) : (mkdirPath path).head? = some '/' := by
  unfold mkdirPath
  split <;> simp_all

theorem mkdir_eq_ok :
    mkdir db path = .ok entries ↔ path ≠ [] ∧
      pathExists db (Inode.getDefaultDir (mkdirPath path)).parentPath = .ok true ∧
      pathExists db (Inode.getDefaultDir (mkdirPath path)).fullpath.str = .ok false ∧
      entries = [.opMkdir (.getDefaultDir (mkdirPath path))] := by
  unfold mkdir
  simp only [bind_eq_ok, requirePath_eq_ok, prepareMkdir_eq_ok, pure_eq_ok, Except.ok.injEq]
  constructor
  · rintro ⟨-, hp, j, ⟨h₁, h₂, rfl⟩, rfl⟩
    exact ⟨hp, h₁, h₂, rfl⟩
  · rintro ⟨hp, h₁, h₂, rfl⟩
    exact ⟨(), hp, _, ⟨h₁, h₂, rfl⟩, rfl⟩

theorem rm_eq_ok :
    rm db path = .ok entries ↔ path ≠ [] ∧ pathExists db (simplifyPath path) = .ok true ∧
      entries = [.opRm (.ofPath path)] := by
  unfold rm
  simp only [bind_eq_ok, requirePath_eq_ok, prepareRm_eq_ok, pure_eq_ok, Except.ok.injEq]
  constructor
  · rintro ⟨-, hp, j, ⟨h, rfl⟩, rfl⟩
    exact ⟨hp, h, rfl⟩
  · rintro ⟨hp, h, rfl⟩
    exact ⟨(), hp, _, ⟨h, rfl⟩, rfl⟩

theorem putInode_eq_ok {req : NNPutRequest} {i : Inode} :
    putInode db now req = .ok i ↔ req.path ≠ [] ∧
      ∃ j, preparePut db now (.ofPath req.path) = .ok j ∧
        ∃ t, StorageType.fromString req.storageType = .ok t ∧
          i = { j with storageType := some t } := by
  unfold putInode
  simp only [bind_eq_ok, requirePath_eq_ok, pure_eq_ok, Except.ok.injEq]
  constructor
  · rintro ⟨-, hp, j, hj, t, ht, rfl⟩
    exact ⟨hp, j, hj, t, ht, rfl⟩
  · rintro ⟨hp, j, hj, t, ht, rfl⟩
    exact ⟨(), hp, j, hj, t, ht, rfl⟩

theorem put_eq_ok {req : NNPutRequest} :
    put db now req = .ok entries ↔ ∃ i, putInode db now req = .ok i ∧ entries = [.opPut i] := by
  simp only [put, bind_eq_ok, pure_eq_ok, Except.ok.injEq]
  exact exists_congr fun i ↦ and_congr_right fun _ ↦ eq_comm

theorem putBatch_eq_ok {reqs : List NNPutRequest} :
    putBatch db now reqs = .ok entries ↔
      ∃ is, List.Forall₂ (fun req i ↦ putInode db now req = .ok i) reqs is ∧
        entries = [.opPutBatch is] := by
  simp only [putBatch, bind_eq_ok, mapM_eq_ok, pure_eq_ok, Except.ok.injEq]
  exact exists_congr fun is ↦ and_congr_right fun _ ↦ eq_comm

theorem putOk_eq_ok {req : NNPutOKRequest} :
    putOk db req = .ok entries ↔ ∃ i, putOkInode db req = .ok i ∧ entries = [.opPutOk i] := by
  simp only [putOk, bind_eq_ok, pure_eq_ok, Except.ok.injEq]
  exact exists_congr fun i ↦ and_congr_right fun _ ↦ eq_comm

theorem putOkInode_eq_ok {req : NNPutOKRequest} {i : Inode} :
    putOkInode db req = .ok i ↔ req.path ≠ [] ∧
      ∃ j, preparePutOk db (.ofPath req.path) = .ok j ∧
        i = { j with sub := req.sub, filesize := req.filesize } := by
  unfold putOkInode
  simp only [bind_eq_ok, requirePath_eq_ok, pure_eq_ok, Except.ok.injEq]
  constructor
  · rintro ⟨-, hp, j, hj, rfl⟩
    exact ⟨hp, j, hj, rfl⟩
  · rintro ⟨hp, j, hj, rfl⟩
    exact ⟨(), hp, j, hj, rfl⟩

theorem putOkMember_ok {id : Str} {req : NNPutOKRequest} {m : Inode × FileInfo}
    (h : putOkMember db id req = .ok m) :
    ∃ i, putOkInode db req = .ok i ∧ m.1 = { i with aggInodeId := id } := by
  unfold putOkMember at h
  simp only [bind_eq_ok] at h
  obtain ⟨i, hi, h⟩ := h
  refine ⟨i, hi, ?_⟩
  split at h
  · cases h
  · simp only [bind_eq_ok, pure_eq_ok, Except.ok.injEq] at h
    obtain ⟨pos, -, rfl⟩ := h
    rfl

theorem putOkBatch_ok {reqs : List NNPutOKRequest} (h : putOkBatch db env reqs = .ok entries) :
    ∃ (is : List Inode) (agg : AggInode),
      List.Forall₂ (fun req i ↦ ∃ j, putOkInode db req = .ok j ∧
        i = { j with aggInodeId := agg.id }) reqs is ∧
      '/' ∉ agg.id ∧ entries = [.opPutOkBatch is, .opPutAgg agg] := by
  unfold putOkBatch at h
  simp only [bind_eq_ok, pure_eq_ok, Except.ok.injEq, mapM_eq_ok] at h
  obtain ⟨machineId, -, members, hm, rfl⟩ := h
  refine ⟨members.map (·.1), _, ?_, slash_notMem_generateID _ _ _, rfl⟩
  rw [List.forall₂_map_right_iff]
  exact hm.imp fun req m ↦ putOkMember_ok

theorem updateLockEntries_eq (db : RocksDB) (now : Nat) (paths : List Str) :
    ∃ is : List Inode, (updateLockEntries db now paths).1 = is.map .opPut ∧
      ∀ i ∈ is, ∃ p ∈ paths, ∃ j, lookup db (simplifyPath p) = some j ∧ j.valid = true ∧
        i = j.updateDdlLock now := by
  induction paths with
  | nil => exact ⟨[], rfl, by simp⟩
  | cons p paths ih =>
    unfold updateLockEntries
    split
    · exact ⟨[], rfl, by simp⟩
    · rename_i j hj
      obtain ⟨is, he, his⟩ := ih
      refine ⟨j.updateDdlLock now :: is, by simp [he], fun i hi ↦ ?_⟩
      rcases List.mem_cons.mp hi with rfl | hi
      · obtain ⟨hl, hv⟩ := ls_eq_ok.mp hj
        exact ⟨p, by simp, j, hl, hv, rfl⟩
      · obtain ⟨q, hq, hrest⟩ := his i hi
        exact ⟨q, by simp [hq], hrest⟩

theorem updateLock_eq (db : RocksDB) (now : Nat) (paths : List Str) :
    ∃ is : List Inode, (updateLock db now paths).1 = is.map .opPut ∧
      ∀ i ∈ is, ∃ p ∈ paths, ∃ j, lookup db (simplifyPath p) = some j ∧ j.valid = true ∧
        i = j.updateDdlLock now := by
  unfold updateLock
  split
  · exact ⟨[], rfl, by simp⟩
  · exact updateLockEntries_eq db now paths

theorem mem_proposed {x : Except Fault (List Entry)} {e : Entry} (h : e ∈ (proposed x).1) :
    ∃ entries, x = .ok entries ∧ e ∈ entries := by
  cases x with
  | error f => cases h
  | ok entries => exact ⟨entries, rfl, h⟩

end Namenode

end Spkdfs
