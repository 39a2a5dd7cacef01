import Spkdfs.Node.Namenode

namespace Spkdfs

open Library

namespace RocksDB

/-- The inode under a path as every reader of the store sees it: a root that was never
written is the default directory, and an aggregate is no inode. -/
def lookup (db : RocksDB) (path : Str) : Option Inode :=
  match db.find path with
  | some (.inode i) => some i
  | some (.agg _) => none
  | none => if path = root then some (.getDefaultDir root) else none

variable {db db' : RocksDB} {path : Str} {i j : Inode}

theorem fullpath_of_lookup (h : lookup db path = some i) : i.fullpath.str = path := by
  unfold lookup at h
  split at h
  · rename_i k hk
    simp only [Option.some.injEq] at h
    subst h
    exact db.keyed _ _ hk
  · cases h
  · split at h
    · rename_i hr
      simp only [Option.some.injEq] at h
      subst h
      rw [hr]
      decide
    · cases h

@[simp] theorem lookup_put_self (db : RocksDB) (i : Inode) :
    lookup (db.put (.inode i)) i.fullpath.str = some i := by
  have h : (db.put (.inode i)).find i.fullpath.str = some (.inode i) := db.find_put_self (.inode i)
  rw [lookup, h]

theorem lookup_put_of_ne (db : RocksDB) {v : Value} (h : path ≠ v.key) :
    lookup (db.put v) path = lookup db path := by
  rw [lookup, lookup, db.find_put_of_ne h]

theorem lookup_put_eq (h : i.fullpath.str = path) : lookup (db.put (.inode i)) path = some i := by
  subst h
  exact lookup_put_self db i

theorem getDefaultDir_eq (h : simplifyPath path = root) :
    Inode.getDefaultDir path = .getDefaultDir root := by
  have hp : FullPath.ofStr path = FullPath.ofStr root := FullPath.ext h
  rw [Inode.getDefaultDir, Inode.getDefaultDir, Inode.ofPath, Inode.ofPath, hp]

theorem getInode_eq_ok :
    getInode db (.ofPath path) = .ok j ↔ lookup db (simplifyPath path) = some j ∨
      db.find (simplifyPath path) = none ∧ simplifyPath path ≠ root ∧ j = .ofPath path := by
  have hkey : (Inode.ofPath path).fullpath.str = simplifyPath path := rfl
  rw [getInode, readInode, lookup, hkey]
  cases hf : db.find (simplifyPath path) with
  | none =>
    by_cases hr : simplifyPath path = root
    · have hd := getDefaultDir_eq hr
      rw [Inode.getDefaultDir] at hd
      simp [hr, hd]
    · simp [hr, Inode.ofPath, eq_comm]
  | some v => cases v <;> simp

theorem getParentInode_eq_ok :
    getParentInode db i = .ok j ↔ lookup db i.parentPath = some j := by
  rw [getParentInode, readInode, lookup]
  cases hf : db.find i.parentPath with
  | none =>
    by_cases hr : i.parentPath = root <;> simp [hr]
  | some v => cases v <;> simp

theorem getParentInode_eq_assertion :
    getParentInode db i = .error .assertion ↔
      db.find i.parentPath = none ∧ i.parentPath ≠ root := by
  rw [getParentInode, readInode]
  cases hf : db.find i.parentPath with
  | none =>
    by_cases hr : i.parentPath = root <;> simp [hr]
  | some v => cases v <;> simp

def ValidAt (db : RocksDB) (path : Str) : Prop :=
  ∃ i, lookup db path = some i ∧ i.valid = true

def DirAt (db : RocksDB) (path : Str) : Prop :=
  ∃ i, lookup db path = some i ∧ i.valid = true ∧ i.isDirectory = true

def FileAt (db : RocksDB) (path : Str) : Prop :=
  ∃ i, lookup db path = some i ∧ i.valid = true ∧ i.isDirectory = false

def subAt (db : RocksDB) (path : Str) : List Str := (lookup db path).elim [] Inode.sub

instance (db : RocksDB) (path : Str) : Decidable (ValidAt db path) :=
  decidable_of_iff ((lookup db path).any (·.valid) = true)
    (by cases h : lookup db path <;> simp [ValidAt, h])

instance (db : RocksDB) (path : Str) : Decidable (DirAt db path) :=
  decidable_of_iff ((lookup db path).any (fun i ↦ i.valid && i.isDirectory) = true)
    (by cases h : lookup db path <;> simp [DirAt, h])

instance (db : RocksDB) (path : Str) : Decidable (FileAt db path) :=
  decidable_of_iff ((lookup db path).any (fun i ↦ i.valid && !i.isDirectory) = true)
    (by cases h : lookup db path <;> simp [FileAt, h])

theorem DirAt.not_fileAt (h : DirAt db path) : ¬ FileAt db path := by
  obtain ⟨i, hi, -, hd⟩ := h
  rintro ⟨j, hj, -, hf⟩
  rw [hi, Option.some.injEq] at hj
  subst hj
  rw [hd] at hf
  cases hf

theorem ls_eq_ok :
    ls db (.ofPath path) = .ok j ↔ lookup db (simplifyPath path) = some j ∧ j.valid = true := by
  unfold ls
  simp only [bind_eq_ok]
  constructor
  · rintro ⟨f, hf, hj⟩
    cases hv : f.valid with
    | false => simp [hv] at hj
    | true =>
      simp only [hv, Bool.not_true, Bool.false_eq_true, if_false, pure_eq_ok,
        Except.ok.injEq] at hj
      subst hj
      rcases getInode_eq_ok.mp hf with h | ⟨-, -, rfl⟩
      · exact ⟨h, hv⟩
      · cases hv
  · rintro ⟨h, hv⟩
    exact ⟨j, getInode_eq_ok.mpr (.inl h), by simp [hv]⟩

theorem preparePutOk_eq_ok :
    preparePutOk db (.ofPath path) = .ok j ↔
      lookup db (simplifyPath path) = some j ∧ j.valid = true ∧ j.isDirectory = false := by
  unfold preparePutOk
  simp only [bind_eq_ok]
  constructor
  · rintro ⟨f, hf, hj⟩
    cases hv : f.valid with
    | false => simp [hv] at hj
    | true =>
      cases hd : f.isDirectory with
      | true => simp [hv, hd] at hj
      | false =>
        simp only [hv, hd, Bool.not_true, Bool.false_eq_true, if_false, pure_eq_ok,
          Except.ok.injEq] at hj
        subst hj
        rcases getInode_eq_ok.mp hf with h | ⟨-, -, rfl⟩
        · exact ⟨h, hv, hd⟩
        · cases hv
  · rintro ⟨h, hv, hd⟩
    exact ⟨j, getInode_eq_ok.mpr (.inl h), by simp [hv, hd]⟩

theorem preparePut_eq_ok {now : Nat} :
    preparePut db now (.ofPath path) = .ok j ↔
      ∃ f, getInode db (.ofPath path) = .ok f ∧ ¬ (f.valid = true ∧ f.isDirectory = true) ∧
        f.ddlLock < now ∧ j = { f with isDirectory := false, valid := true,
                                       ddlLock := now + lockRefreshInterval } := by
  unfold preparePut
  simp only [bind_eq_ok]
  refine exists_congr fun f ↦ and_congr_right fun _ ↦ ?_
  by_cases hd : f.valid = true ∧ f.isDirectory = true
  · simp [hd]
  · have hd' : (f.valid && f.isDirectory) = false := by simpa using hd
    rw [hd', if_neg Bool.false_ne_true, Inode.lock_eq_ok]
    simp [hd]

theorem pathExists_eq_true :
    pathExists db path = .ok true ↔ path = root ∨ ValidAt db path := by
  by_cases hr : path = root
  · simp [pathExists, hr]
  · rw [pathExists, if_neg hr, readInode, ValidAt, lookup]
    cases db.find path with
    | none => simp [hr]
    | some v => cases v <;> simp [hr]

theorem pathExists_eq_false :
    pathExists db path = .ok false ↔
      path ≠ root ∧ (db.find path = none ∨ ∃ i, lookup db path = some i ∧ i.valid = false) := by
  by_cases hr : path = root
  · simp [pathExists, hr]
  · rw [pathExists, if_neg hr, readInode, lookup]
    cases db.find path with
    | none => simp [hr]
    | some v => cases v <;> simp [hr]

theorem prepareMkdir_eq_ok :
    prepareMkdir db i = .ok j ↔ pathExists db i.parentPath = .ok true ∧
      pathExists db i.fullpath.str = .ok false ∧ j = i := by
  unfold prepareMkdir tryToAdd
  simp only [bind_eq_ok]
  constructor
  · rintro ⟨⟨⟩, ⟨b, hb, h⟩, hj⟩
    cases b with
    | false => simp at h
    | true =>
      simp only [Bool.not_true, Bool.false_eq_true, if_false, bind_eq_ok] at h
      obtain ⟨c, hc, h⟩ := h
      cases c with
      | true => simp at h
      | false => exact ⟨hb, hc, by simpa [eq_comm] using hj⟩
  · rintro ⟨hb, hc, rfl⟩
    exact ⟨(), ⟨true, hb, by simp [hc]⟩, rfl⟩

theorem prepareRm_eq_ok :
    prepareRm db i = .ok j ↔
      pathExists db i.fullpath.str = .ok true ∧ j = { i with valid := false } := by
  unfold prepareRm tryToRm
  simp only [bind_eq_ok]
  constructor
  · rintro ⟨⟨⟩, ⟨b, hb, h⟩, hj⟩
    cases b with
    | false => simp at h
    | true => exact ⟨hb, by simpa [eq_comm] using hj⟩
  · rintro ⟨hb, rfl⟩
    exact ⟨(), ⟨true, hb, by simp⟩, rfl⟩

end RocksDB

end Spkdfs
