import Spkdfs.Node.Serial

namespace Spkdfs

open Library Function

inductive Kind
  | file
  | dir
deriving DecidableEq

def Inode.kind (i : Inode) : Option Kind :=
  if i.valid then some (if i.isDirectory then .dir else .file) else none

@[simp] theorem Inode.kind_getDefaultDir (path : Str) :
    (Inode.getDefaultDir path).kind = some .dir := rfl

@[simp] theorem Inode.kind_ofPath (path : Str) : (Inode.ofPath path).kind = none := rfl

namespace RocksDB

variable {db db' : RocksDB} {path : Str} {i j : Inode} {is : List Inode}

/-- The store as a tree of files and directories. -/
def kindAt (db : RocksDB) (path : Str) : Option Kind := (lookup db path).bind Inode.kind

theorem kindAt_of_lookup (h : lookup db path = some i) : kindAt db path = i.kind := by
  simp [kindAt, h]

theorem dirAt_iff : DirAt db path ↔ kindAt db path = some .dir := by
  unfold DirAt kindAt
  cases lookup db path with
  | none => simp
  | some i => cases hv : i.valid <;> cases hd : i.isDirectory <;> simp [Inode.kind, hv, hd]

theorem fileAt_iff : FileAt db path ↔ kindAt db path = some .file := by
  unfold FileAt kindAt
  cases lookup db path with
  | none => simp
  | some i => cases hv : i.valid <;> cases hd : i.isDirectory <;> simp [Inode.kind, hv, hd]

theorem validAt_iff : ValidAt db path ↔ kindAt db path ≠ none := by
  unfold ValidAt kindAt
  cases lookup db path with
  | none => simp
  | some i => cases hv : i.valid <;> simp [Inode.kind, hv]

theorem kindAt_of_pathExists (h : pathExists db path = .ok false) :
    path ≠ root ∧ kindAt db path = none := by
  obtain ⟨hr, h⟩ := pathExists_eq_false.mp h
  refine ⟨hr, ?_⟩
  rcases h with h | ⟨i, hi, hv⟩
  · simp [kindAt, lookup, h, hr]
  · simp [kindAt, hi, Inode.kind, hv]

@[simp] theorem kindAt_empty (path : Str) :
    kindAt .empty path = if path = root then some .dir else none := by
  unfold kindAt lookup
  rw [Table.find_empty]
  by_cases h : path = root
  · simp [h]
  · simp [h]

theorem kindAt_put (db : RocksDB) (i : Inode) :
    kindAt (db.put (.inode i)) = update (kindAt db) i.fullpath.str i.kind := by
  funext path
  by_cases h : path = i.fullpath.str
  · subst h
    simp [kindAt]
  · rw [update_of_ne h, kindAt, lookup_put_of_ne db (v := .inode i) h, kindAt]

theorem kindAt_putAgg (db : RocksDB) (agg : AggInode) :
    kindAt (db.put (.agg agg)) = update (kindAt db) agg.id none := by
  funext path
  by_cases h : path = agg.id
  · subst h
    have hf : (db.put (.agg agg)).find agg.id = some (.agg agg) := db.find_put_self (.agg agg)
    simp [kindAt, lookup, hf]
  · rw [update_of_ne h, kindAt, lookup_put_of_ne db (v := .agg agg) h, kindAt]

theorem Linked.kindAt {names : List Str → List Str} (h : Linked db i names db') :
    kindAt db' = update (kindAt db) i.fullpath.str i.kind := by
  obtain ⟨parent, hp, rfl⟩ := h
  rw [kindAt_put, kindAt_put]
  have he : parent.fullpath.str = i.parentPath := fullpath_of_lookup hp
  have hk : Inode.kind { parent with sub := names parent.sub } =
      RocksDB.kindAt db parent.fullpath.str := by
    rw [he, kindAt_of_lookup hp]
    rfl
  rw [hk, update_eq_self]

theorem Linked.kindAt_of_ne {names : List Str → List Str} (h : Linked db i names db')
    (hne : path ≠ i.fullpath.str) : RocksDB.kindAt db' path = RocksDB.kindAt db path := by
  rw [h.kindAt, update_of_ne hne]

def Members (db : RocksDB) (is : List Inode) : Prop :=
  ∀ i ∈ is, i.isDirectory = false ∧
    ∃ j, lookup db i.fullpath.str = some j ∧ j.valid = true ∧ j.isDirectory = false

theorem kind_of_commit {c : Inode} (h : commit db i = .ok c) :
    c.kind = kindAt db i.fullpath.str := by
  obtain ⟨f, hf, rfl⟩ := commit_eq_ok.mp h
  rcases getInode_eq_ok.mp hf with hl | ⟨hn, hr, rfl⟩
  · rw [i.fullpath.simplified] at hl
    rw [kindAt_of_lookup hl]
    rfl
  · rw [i.fullpath.simplified] at hn hr
    simp [kindAt, lookup, hn, hr, Inode.kind, Inode.ofPath]

theorem kind_of_commitAgg {c : Inode} (h : commitAgg db i = .ok c) :
    c.kind = kindAt db i.fullpath.str := by
  unfold commitAgg at h
  simp only [bind_eq_ok] at h
  obtain ⟨c', hc, h⟩ := h
  rw [← kind_of_commit hc]
  split at h <;> obtain rfl := Except.ok.inj h <;> rfl

theorem Members.fileAt (h : Members db is) (hi : i ∈ is) :
    kindAt db i.fullpath.str = some .file := by
  obtain ⟨-, j, hj, hv, hd⟩ := h i hi
  rw [kindAt_of_lookup hj, Inode.kind, hv, hd]
  rfl

theorem BatchEffect.kindAt (h : BatchEffect db is db') : kindAt db' = kindAt db := by
  funext path
  by_cases hparent : ∃ i ∈ is, i.parentPath = path
  · obtain ⟨i, hi, rfl⟩ := hparent
    obtain ⟨p, hp, hp'⟩ := h.parent i hi
    rw [kindAt_of_lookup hp, kindAt_of_lookup hp']
    rfl
  have hparent : ∀ i ∈ is, i.parentPath ≠ path := fun i hi he ↦ hparent ⟨i, hi, he⟩
  by_cases hmember : ∃ i ∈ is, i.fullpath.str = path
  · obtain ⟨i, hi, rfl⟩ := hmember
    obtain ⟨k, hk, c, hc, hl⟩ := h.member i hi hparent
    have hpath : k.fullpath = i.fullpath := (of_getLast?_filter hk).2
    rw [kindAt_of_lookup hl, kind_of_commitAgg hc, hpath]
  · have hmember : ∀ i ∈ is, i.fullpath.str ≠ path := fun i hi he ↦ hmember ⟨i, hi, he⟩
    rw [RocksDB.kindAt, RocksDB.kindAt, lookup, lookup, h.other path hparent hmember]

theorem members_of_putOk {reqs : List NNPutOKRequest} {id : Str}
    (h : List.Forall₂ (fun req i ↦ ∃ j, Namenode.putOkInode db req = .ok j ∧
      i = { j with aggInodeId := id }) reqs is) : Members db is := by
  intro i hi
  obtain ⟨req, -, j, hj, rfl⟩ := forall₂_mem_right h hi
  obtain ⟨-, f, hf, rfl⟩ := Namenode.putOkInode_eq_ok.mp hj
  obtain ⟨hl, hv, hd⟩ := preparePutOk_eq_ok.mp hf
  refine ⟨hd, f, ?_, hv, hd⟩
  rw [← fullpath_of_lookup hl] at hl
  exact hl

theorem putInode_kind {now : Nat} {req : NNPutRequest} (h : Namenode.putInode db now req = .ok i) :
    i.fullpath.str = simplifyPath req.path ∧ i.kind = some .file ∧
      kindAt db i.fullpath.str ≠ some .dir := by
  obtain ⟨-, j, hj, t, -, rfl⟩ := Namenode.putInode_eq_ok.mp h
  obtain ⟨f, hf, hd, -, rfl⟩ := preparePut_eq_ok.mp hj
  have hp : f.fullpath.str = simplifyPath req.path := by rw [fullpath_of_getInode hf, FullPath.str_ofStr]
  refine ⟨hp, rfl, ?_⟩
  simp only [hp]
  rcases getInode_eq_ok.mp hf with hl | ⟨hn, hr, -⟩
  · rw [kindAt_of_lookup hl]
    unfold Inode.kind
    split_ifs with h₁ h₂
    · exact absurd ⟨h₁, h₂⟩ hd
    · simp
    · simp
  · simp [kindAt, lookup, hn, hr]

end RocksDB

open RocksDB

/-- The ways in which a request executed alone can change the kind of a path. -/
inductive Retyped (db : RocksDB) (env : Env) (req : Request) (path : Str) :
    Option Kind → Option Kind → Prop
  | kept (k : Option Kind) : Retyped db env req path k k
  | made {p : Str} (hreq : req = .mkdir p) (hpath : path = simplifyPath (Namenode.mkdirPath p))
      (hparent : pathExists db (getParentPath path) = .ok true) :
      Retyped db env req path none (some .dir)
  | removed {p : Str} {k : Option Kind} (hreq : req = .rm p) (hpath : path = simplifyPath p) :
      Retyped db env req path k none
  | stored {r : NNPutRequest} {i : Inode} {k : Option Kind} (hk : k ≠ some .dir)
      (hput : Namenode.putInode db env.now r = .ok i) (hpath : path = simplifyPath r.path)
      (hreq : req = .put r ∨ ∃ rs is, req = .putBatch rs ∧ r ∈ rs ∧
        List.Forall₂ (fun req i ↦ Namenode.putInode db env.now req = .ok i) rs is) :
      Retyped db env req path k (some .file)
  | shadowed {rs : List NNPutOKRequest} {k : Option Kind} (hreq : req = .putOkBatch rs)
      (hs : '/' ∉ path) : Retyped db env req path k none

theorem Retyped.eq {db : RocksDB} {env : Env} {req : Request} {path : Str} {k k' : Option Kind}
    (h : Retyped db env req path k k') (hk : k ≠ none)
    (hrm : ∀ p, req = .rm p → path ≠ simplifyPath p) (hs : '/' ∈ path) : k' = k := by
  cases h with
  | kept => rfl
  | made => exact absurd rfl hk
  | removed hreq hpath => exact absurd hpath (hrm _ hreq)
  | stored hd =>
    cases k with
    | none => exact absurd rfl hk
    | some k =>
      cases k with
      | file => rfl
      | dir => exact absurd rfl hd
  | shadowed _ hn => exact absurd hs hn

variable {db db' : RocksDB} {env : Env} {req : Request} {ok : Bool} {path : Str}

theorem Served.retyped (h : Served db env req ok db') (path : Str) :
    Retyped db env req path (kindAt db path) (kindAt db' path) := by
  cases h with
  | refused => exact .kept _
  | @mkdir p _ _ parent fresh linked =>
    rw [linked.kindAt, Inode.fullpath_getDefaultDir, FullPath.str_ofStr, Inode.kind_getDefaultDir]
    by_cases hp : path = simplifyPath (Namenode.mkdirPath p)
    · subst hp
      rw [(kindAt_of_pathExists fresh).2, update_self]
      exact .made rfl rfl parent
    · rw [update_of_ne hp]
      exact .kept _
  | @rm p _ _ found linked =>
    rw [linked.kindAt, Inode.fullpath_ofPath, FullPath.str_ofStr, Inode.kind_ofPath]
    by_cases hp : path = simplifyPath p
    · subst hp
      rw [update_self]
      exact .removed rfl rfl
    · rw [update_of_ne hp]
      exact .kept _
  | @put r i own =>
    obtain ⟨hp, hk, hd⟩ := putInode_kind own
    rw [kindAt_put, hk]
    by_cases hi : path = i.fullpath.str
    · subst hi
      rw [update_self]
      exact .stored hd own hp (.inl rfl)
    · rw [update_of_ne hi]
      exact .kept _
  | @putBatch rs is own =>
    rcases lookup_write_cases db is path with ⟨i, hi, rfl, hl⟩ | ⟨-, hl⟩
    · obtain ⟨r, hr, hri⟩ := forall₂_mem_right own hi
      obtain ⟨hp, hk, hd⟩ := putInode_kind hri
      rw [kindAt_of_lookup hl, hk]
      exact .stored hd hri hp (.inr ⟨rs, is, rfl, hr, own⟩)
    · rw [kindAt, kindAt, hl]
      exact .kept _
  | @putOk r j _ _ found valid file linked =>
    rw [linked.kindAt]
    have hk : Inode.kind { j with ddlLock := 0, sub := r.sub, filesize := r.filesize } =
        kindAt db j.fullpath.str := by
      rw [← fullpath_of_lookup found] at found
      rw [kindAt_of_lookup found]
      rfl
    rw [hk, update_eq_self]
    exact .kept _
  | @putOkBatch rs is agg mid _ _ own effect plain =>
    rw [kindAt_putAgg]
    by_cases hp : path = agg.id
    · subst hp
      rw [update_self]
      exact .shadowed rfl plain
    · rw [update_of_ne hp]
      rcases effect with ⟨-, hmid⟩ | ⟨-, rfl⟩
      · rw [(internalPutOkBatch_ok hmid).kindAt]
        exact .kept _
      · exact .kept _
  | @updateLock paths is _ own =>
    rcases lookup_write_cases db is path with ⟨i, hi, rfl, hl⟩ | ⟨-, hl⟩
    · obtain ⟨p, -, j, hj, -, rfl⟩ := own i hi
      rw [← fullpath_of_lookup hj] at hj
      have hk : kindAt db (j.updateDdlLock env.now).fullpath.str = j.kind := kindAt_of_lookup hj
      rw [kindAt_of_lookup hl, hk]
      exact .kept _
    · rw [kindAt, kindAt, hl]
      exact .kept _

end Spkdfs
