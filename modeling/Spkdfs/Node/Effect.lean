import Spkdfs.Node.Lookup

namespace Spkdfs

open Library

namespace RocksDB

variable {db db' : RocksDB} {path : Str} {i c : Inode} {is : List Inode}

/-- `own` is written together with a new name list of its parent, its own record last. -/
def Linked (db : RocksDB) (own : Inode) (names : List Str → List Str) (db' : RocksDB) : Prop :=
  ∃ parent, lookup db own.parentPath = some parent ∧
    db' = (db.put (.inode { parent with sub := names parent.sub })).put (.inode own)

theorem Linked.lookup_self {own : Inode} {names : List Str → List Str}
    (h : Linked db own names db') : lookup db' own.fullpath.str = some own := by
  obtain ⟨parent, -, rfl⟩ := h
  exact lookup_put_self _ _

theorem Linked.lookup_parent {own : Inode} {names : List Str → List Str}
    (h : Linked db own names db') (hne : own.parentPath ≠ own.fullpath.str) :
    ∃ parent, lookup db own.parentPath = some parent ∧
      lookup db' own.parentPath = some { parent with sub := names parent.sub } := by
  obtain ⟨parent, hp, rfl⟩ := h
  refine ⟨parent, hp, ?_⟩
  have hpath : parent.fullpath.str = own.parentPath := fullpath_of_lookup hp
  rw [lookup_put_of_ne _ hne]
  exact lookup_put_eq hpath

theorem Linked.find_other {own : Inode} {names : List Str → List Str}
    (h : Linked db own names db') (hs : path ≠ own.fullpath.str) (hp : path ≠ own.parentPath) :
    db'.find path = db.find path := by
  obtain ⟨parent, hl, rfl⟩ := h
  have hk : path ≠ (Value.inode { parent with sub := names parent.sub }).key := by
    simpa [Value.key, fullpath_of_lookup hl] using hp
  have hs : path ≠ (Value.inode own).key := hs
  rw [Table.find_put_of_ne _ hs, Table.find_put_of_ne _ hk]

theorem Linked.lookup_other {own : Inode} {names : List Str → List Str}
    (h : Linked db own names db') (hs : path ≠ own.fullpath.str) (hp : path ≠ own.parentPath) :
    lookup db' path = lookup db path := by
  rw [lookup, lookup, h.find_other hs hp]

theorem lookup_write_cases (db : RocksDB) (is : List Inode) (path : Str) :
    (∃ i ∈ is, i.fullpath.str = path ∧ lookup (db.write (is.map .inode)) path = some i) ∨
      (∀ i ∈ is, i.fullpath.str ≠ path) ∧
        lookup (db.write (is.map .inode)) path = lookup db path := by
  by_cases hm : path ∈ (is.map Value.inode).map Value.key
  · obtain ⟨v, hv, hk, hf⟩ := db.exists_find_write hm
    obtain ⟨i, hi, rfl⟩ := List.mem_map.mp hv
    exact .inl ⟨i, hi, hk, by rw [lookup, hf]⟩
  · refine .inr ⟨fun i hi he ↦ hm ?_, by rw [lookup, lookup, db.find_write_of_notMem hm]⟩
    rw [List.map_map]
    exact List.mem_map.mpr ⟨i, hi, he⟩

theorem internalMkdir_eq_ok :
    internalMkdir db i = .ok db' ↔ Linked db i (addName · i.filename) db' := by
  unfold internalMkdir Linked
  simp only [bind_eq_ok, getParentInode_eq_ok, pure_eq_ok, Except.ok.injEq]
  exact exists_congr fun parent ↦ and_congr_right fun _ ↦ eq_comm

theorem internalRm_ok (h : internalRm db i = .ok db') :
    Linked db i (removeName · i.filename) db' := by
  unfold internalRm at h
  simp only [bind_eq_ok, getParentInode_eq_ok, pure_eq_ok, Except.ok.injEq] at h
  obtain ⟨parent, hp, -, -, rfl⟩ := h
  exact ⟨parent, hp, rfl⟩

theorem commit_eq_ok :
    commit db i = .ok c ↔ ∃ f, getInode db (.ofPath i.fullpath.str) = .ok f ∧
      c = { f with ddlLock := 0, sub := i.sub, filesize := i.filesize } := by
  unfold commit
  simp only [bind_eq_ok, pure_eq_ok, Except.ok.injEq, Inode.unlock]
  exact exists_congr fun f ↦ and_congr_right fun _ ↦ eq_comm

theorem fullpath_of_getInode (h : getInode db (.ofPath path) = .ok i) :
    i.fullpath = .ofStr path := by
  rcases getInode_eq_ok.mp h with h | ⟨-, -, rfl⟩
  · exact FullPath.ext (fullpath_of_lookup h)
  · rfl

theorem fullpath_of_commit (h : commit db i = .ok c) : c.fullpath = i.fullpath := by
  obtain ⟨f, hf, rfl⟩ := commit_eq_ok.mp h
  simpa using fullpath_of_getInode hf

theorem internalPutOk_eq_ok :
    internalPutOk db i = .ok db' ↔
      ∃ c, commit db i = .ok c ∧ Linked db c (addName · i.filename) db' := by
  unfold internalPutOk Linked
  simp only [bind_eq_ok, getParentInode_eq_ok, pure_eq_ok, Except.ok.injEq]
  constructor
  · rintro ⟨parent, hp, c, hc, rfl⟩
    have hpath : c.parentPath = i.parentPath := by
      rw [Inode.parentPath, Inode.parentPath, fullpath_of_commit hc]
    exact ⟨c, hc, parent, by rw [hpath, hp], rfl⟩
  · rintro ⟨c, hc, parent, hp, rfl⟩
    have hpath : c.parentPath = i.parentPath := by
      rw [Inode.parentPath, Inode.parentPath, fullpath_of_commit hc]
    exact ⟨parent, by rw [← hpath, hp], c, hc, rfl⟩

theorem fullpath_of_commitAgg (h : commitAgg db i = .ok c) : c.fullpath = i.fullpath := by
  unfold commitAgg at h
  simp only [bind_eq_ok] at h
  obtain ⟨c', hc, h⟩ := h
  have hpath := fullpath_of_commit hc
  split at h
  · simp only [pure_eq_ok, Except.ok.injEq] at h
    rw [← h, hpath]
  · simp only [pure_eq_ok, Except.ok.injEq] at h
    rw [← h, ← hpath]

def dentries (is : List Inode) (path : Str) (sub : List Str) : List Str :=
  (is.filter (·.parentPath = path)).foldl (fun sub i ↦ addName sub i.filename) sub

theorem foldl_addDentry (is : List Inode) (parents : Parents) :
    is.foldl addDentry parents =
      parents.map fun (path, p) ↦ (path, { p with sub := dentries is path p.sub }) := by
  induction is generalizing parents with
  | nil => simp [dentries]
  | cons i is ih =>
    rw [List.foldl_cons, ih, addDentry, List.map_map]
    refine List.map_congr_left fun kp _ ↦ ?_
    by_cases hk : kp.1 = i.parentPath
    · simp [hk, dentries]
    · simp [hk, dentries, Ne.symm hk]

theorem readParents_ok {parents parents' : Parents}
    (h : is.foldlM (readParent db) parents = .ok parents') :
    (∀ kp ∈ parents', kp ∈ parents ∨
      (∃ i ∈ is, kp.1 = i.parentPath) ∧ lookup db kp.1 = some kp.2) ∧
    (∀ kp ∈ parents, kp ∈ parents') ∧ ∀ i ∈ is, ∃ kp ∈ parents', kp.1 = i.parentPath := by
  induction is generalizing parents with
  | nil =>
    simp only [List.foldlM_nil, pure_eq_ok, Except.ok.injEq] at h
    subst h
    exact ⟨fun kp hkp ↦ .inl hkp, fun kp hkp ↦ hkp, by simp⟩
  | cons i is ih =>
    rw [List.foldlM_cons, bind_eq_ok] at h
    obtain ⟨mid, hmid, h⟩ := h
    obtain ⟨hfrom, hkeep, hall⟩ := ih h
    have hstep : (∀ kp ∈ mid, kp ∈ parents ∨ kp.1 = i.parentPath ∧ lookup db kp.1 = some kp.2) ∧
        (∀ kp ∈ parents, kp ∈ mid) ∧ ∃ kp ∈ mid, kp.1 = i.parentPath := by
      unfold readParent at hmid
      split at hmid
      · rename_i hany
        simp only [pure_eq_ok, Except.ok.injEq] at hmid
        subst hmid
        simp only [List.any_eq_true, decide_eq_true_eq] at hany
        exact ⟨fun kp hkp ↦ .inl hkp, fun kp hkp ↦ hkp, hany⟩
      · simp only [bind_eq_ok, getParentInode_eq_ok, pure_eq_ok, Except.ok.injEq] at hmid
        obtain ⟨p, hp, rfl⟩ := hmid
        refine ⟨fun kp hkp ↦ ?_, fun kp hkp ↦ List.mem_append_left _ hkp,
          (i.parentPath, p), by simp, rfl⟩
        rcases List.mem_append.mp hkp with hkp | hkp
        · exact .inl hkp
        · rw [List.mem_singleton.mp hkp]
          exact .inr ⟨rfl, hp⟩
    obtain ⟨hfrom', hkeep', kp', hkp', hpath'⟩ := hstep
    refine ⟨fun kp hkp ↦ ?_, fun kp hkp ↦ hkeep _ (hkeep' _ hkp), fun j hj ↦ ?_⟩
    · rcases hfrom kp hkp with hkp | ⟨⟨j, hj, hpj⟩, hl⟩
      · rcases hfrom' kp hkp with hkp | ⟨hpi, hl⟩
        · exact .inl hkp
        · exact .inr ⟨⟨i, by simp, hpi⟩, hl⟩
      · exact .inr ⟨⟨j, by simp [hj], hpj⟩, hl⟩
    · rcases List.mem_cons.mp hj with rfl | hj
      · exact ⟨kp', hkeep _ hkp', hpath'⟩
      · exact hall j hj

/-- What a successful `internal_put_ok_batch` does: every parent keeps its record and gains
the names, every member that is no parent holds the content of its last occurrence, and
nothing else changes. -/
structure BatchEffect (db : RocksDB) (is : List Inode) (db' : RocksDB) : Prop where
  parent : ∀ i ∈ is, ∃ p, lookup db i.parentPath = some p ∧
    lookup db' i.parentPath = some { p with sub := dentries is i.parentPath p.sub }
  member : ∀ i ∈ is, (∀ k ∈ is, k.parentPath ≠ i.fullpath.str) →
    ∃ j, (is.filter (·.fullpath = i.fullpath)).getLast? = some j ∧
      ∃ c, commitAgg db j = .ok c ∧ lookup db' i.fullpath.str = some c
  other : ∀ path, (∀ i ∈ is, i.parentPath ≠ path) → (∀ i ∈ is, i.fullpath.str ≠ path) →
    db'.find path = db.find path

/-- The members for a path, told by the text of the path. -/
theorem filter_fullpath_str (is : List Inode) (i : Inode) :
    is.filter (·.fullpath.str = i.fullpath.str) = is.filter (·.fullpath = i.fullpath) := by
  refine List.filter_congr fun k _ ↦ ?_
  rw [decide_eq_decide]
  exact ⟨FullPath.ext, fun he ↦ by rw [he]⟩

/-- A batch fails where a parent cannot be read, or a member committed. -/
theorem internalPutOkBatch_eq_error {f : Fault} (h : internalPutOkBatch db is = .error f) :
    ∃ i ∈ is, getParentInode db i = .error f ∨ commit db i = .error f := by
  rw [internalPutOkBatch, bind_eq_error] at h
  rcases h with h | ⟨parents, -, h⟩
  · obtain ⟨i, hi, known, h⟩ := exists_of_foldlM_eq_error h
    unfold readParent at h
    split at h
    · cases h
    · rw [bind_eq_error] at h
      rcases h with h | ⟨p, -, h⟩
      · exact ⟨i, hi, .inl h⟩
      · cases h
  · rw [bind_eq_error] at h
    rcases h with h | ⟨committed, -, h⟩
    · obtain ⟨i, hi, h⟩ := exists_of_mapM_eq_error h
      rw [commitAgg, bind_eq_error] at h
      rcases h with h | ⟨c, -, h⟩
      · exact ⟨i, hi, .inr h⟩
      · split at h <;> cases h
    · cases h

theorem internalPutOkBatch_ok (h : internalPutOkBatch db is = .ok db') :
    BatchEffect db is db' := by
  unfold internalPutOkBatch at h
  simp only [bind_eq_ok, pure_eq_ok, Except.ok.injEq, mapM_eq_ok] at h
  obtain ⟨parents, hparents, committed, hcommitted, rfl⟩ := h
  obtain ⟨hfrom, -, hall⟩ := readParents_ok hparents
  rw [foldl_addDentry, Table.write_append, List.map_map]
  set written := parents.map
    ((fun kp ↦ Value.inode kp.2) ∘ fun kp ↦ (kp.1, { kp.2 with sub := dentries is kp.1 kp.2.sub }))
    with hw
  -- the keys of the second half of the batch are the parent paths of the members
  have hlookup : ∀ kp ∈ parents, lookup db kp.1 = some kp.2 := fun kp hkp ↦
    ((hfrom kp hkp).resolve_left (by simp)).2
  have hkeys : ∀ path, path ∈ written.map Value.key ↔ ∃ i ∈ is, i.parentPath = path := by
    intro path
    simp only [hw, List.map_map, List.mem_map, Function.comp_apply, Value.key]
    constructor
    · rintro ⟨kp, hkp, rfl⟩
      obtain ⟨⟨i, hi, hpath⟩, hl⟩ := (hfrom kp hkp).resolve_left (by simp)
      exact ⟨i, hi, by rw [fullpath_of_lookup hl, hpath]⟩
    · rintro ⟨i, hi, rfl⟩
      obtain ⟨kp, hkp, hpath⟩ := hall i hi
      exact ⟨kp, hkp, by rw [fullpath_of_lookup (hlookup kp hkp), hpath]⟩
  have hfirst (path : Str) (hno : ∀ i ∈ is, i.parentPath ≠ path) :
      ((db.write (committed.map .inode)).write written).find path =
        (db.write (committed.map .inode)).find path := by
    refine Table.find_write_of_notMem _ fun hm ↦ ?_
    obtain ⟨i, hi, hpath⟩ := (hkeys path).mp hm
    exact hno i hi hpath
  refine ⟨fun i hi ↦ ?_, fun i hi hno ↦ ?_, fun path hno hnm ↦ ?_⟩
  · obtain ⟨v, hv, hkey, hfind⟩ := Table.exists_find_write (db.write (committed.map .inode))
      ((hkeys i.parentPath).mpr ⟨i, hi, rfl⟩)
    obtain ⟨kp, hkp, rfl⟩ := List.mem_map.mp hv
    have hl := hlookup kp hkp
    have hpath : kp.1 = i.parentPath := by
      rw [← hkey]
      exact (fullpath_of_lookup hl).symm
    rw [hpath] at hl
    refine ⟨kp.2, hl, ?_⟩
    rw [lookup, hfind]
    simp [hpath]
  · have hkeep : ∀ x y, commitAgg db x = .ok y →
        (decide (x.fullpath = i.fullpath) = true ↔
          decide ((Value.inode y).key = i.fullpath.str) = true) := by
      intro x y hxy
      have hp := fullpath_of_commitAgg hxy
      simp only [Value.key, hp, decide_eq_true_eq]
      exact ⟨fun he ↦ by rw [he], fun he ↦ FullPath.ext he⟩
    have hne : (is.filter (·.fullpath = i.fullpath)).getLast? ≠ none := by
      rw [Ne, List.getLast?_eq_none_iff, List.filter_eq_nil_iff]
      exact fun hall ↦ hall i hi (by simp)
    obtain ⟨j, hj⟩ := Option.ne_none_iff_exists'.mp hne
    obtain ⟨c, hc, hlast⟩ := forall₂_getLast (List.rel_filter @hkeep hcommitted) hj
    refine ⟨j, hj, c, hlast, ?_⟩
    have hfind : (db.write (committed.map .inode)).find i.fullpath.str = some (.inode c) := by
      rw [Table.find_write, List.filter_map, List.getLast?_map]
      have hc' := hc
      simp only [Function.comp_def] at hc' ⊢
      rw [hc']
      rfl
    rw [lookup, hfirst _ hno, hfind]
  · rw [hfirst path hno]
    refine Table.find_write_of_notMem _ fun hm ↦ ?_
    simp only [List.map_map, List.mem_map, Function.comp_apply, Value.key] at hm
    obtain ⟨c, hc, hkey⟩ := hm
    obtain ⟨i, hi, hic⟩ := forall₂_mem_right hcommitted hc
    exact hnm i hi (by rw [← fullpath_of_commitAgg hic, hkey])

end RocksDB

end Spkdfs
