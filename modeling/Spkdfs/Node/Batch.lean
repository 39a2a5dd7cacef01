import Spkdfs.Node.Assertion

namespace Spkdfs

open Library

namespace RocksDB

/-- The aggregate id of a member, written into its stored inode. -/
def stamp (db : RocksDB) (i : Inode) : RocksDB :=
  if i.aggInodeId = [] then db
  else
    match lookup db i.fullpath.str with
    | none => db
    | some found => db.put (.inode { found with aggInodeId := i.aggInodeId })

variable {db db' mid : RocksDB} {path : Str} {i j c p : Inode} {is : List Inode}

theorem find_of_lookup (h : lookup db path = some i) (hf : db.find path ≠ none) :
    db.find path = some (.inode i) := by
  unfold lookup at h
  split at h
  · rename_i k hk
    rw [hk, Option.some.inj h]
  · cases h
  · rename_i hn
    exact absurd hn hf

theorem lookup_of_find (h : db.find path = some (.inode i)) : lookup db path = some i := by
  rw [lookup, h]

theorem Linked.find_self {own : Inode} {names : List Str → List Str}
    (h : Linked db own names db') : db'.find own.fullpath.str = some (.inode own) := by
  obtain ⟨parent, -, rfl⟩ := h
  exact Table.find_put_self _ (Value.inode own)

theorem Linked.find_parent {own : Inode} {names : List Str → List Str}
    (h : Linked db own names db') (hne : own.parentPath ≠ own.fullpath.str) :
    ∃ parent, lookup db own.parentPath = some parent ∧
      db'.find own.parentPath = some (.inode { parent with sub := names parent.sub }) := by
  obtain ⟨parent, hp, rfl⟩ := h
  have hown : own.parentPath ≠ (Value.inode own).key := hne
  refine ⟨parent, hp, ?_⟩
  rw [Table.find_put_of_ne _ hown, ← fullpath_of_lookup hp]
  exact Table.find_put_self db (Value.inode { parent with sub := names parent.sub })

/-- What a list of commits does to each key; `own` is the record that a member gets. -/
structure Commits (own : Inode → Except Fault Inode) (db : RocksDB) (is : List Inode)
    (db' : RocksDB) : Prop where
  parent : ∀ i ∈ is, ∃ p, lookup db i.parentPath = some p ∧
    db'.find i.parentPath = some (.inode { p with sub := dentries is i.parentPath p.sub })
  member : ∀ i ∈ is, ∃ j, (is.filter (·.fullpath = i.fullpath)).getLast? = some j ∧
    ∃ c, own j = .ok c ∧ db'.find i.fullpath.str = some (.inode c)
  other : ∀ path, (∀ i ∈ is, i.parentPath ≠ path) → (∀ i ∈ is, i.fullpath.str ≠ path) →
    db'.find path = db.find path

theorem Commits.unique {own : Inode → Except Fault Inode} {db₁ db₂ : RocksDB}
    (h₁ : Commits own db is db₁) (h₂ : Commits own db is db₂) : db₁ = db₂ := by
  refine Table.ext (funext fun path ↦ ?_)
  by_cases hp : ∃ i ∈ is, i.parentPath = path
  · obtain ⟨i, hi, rfl⟩ := hp
    obtain ⟨p, hp, he⟩ := h₁.parent i hi
    obtain ⟨q, hq, he'⟩ := h₂.parent i hi
    obtain rfl := Option.some.inj (hp.symm.trans hq)
    rw [he, he']
  by_cases hm : ∃ i ∈ is, i.fullpath.str = path
  · obtain ⟨i, hi, rfl⟩ := hm
    obtain ⟨j, hj, c, hc, he⟩ := h₁.member i hi
    obtain ⟨k, hk, d, hd, he'⟩ := h₂.member i hi
    obtain rfl := Option.some.inj (hj.symm.trans hk)
    obtain rfl := Except.ok.inj (hc.symm.trans hd)
    rw [he, he']
  · push Not at hp hm
    rw [h₁.other path hp hm, h₂.other path hp hm]

/-- No member is the directory of a member. -/
def Flat (is : List Inode) : Prop := ∀ i ∈ is, ∀ j ∈ is, j.parentPath ≠ i.fullpath.str

theorem Flat.append_left {js : List Inode} (h : Flat (is ++ js)) : Flat is :=
  fun i hi j hj ↦ h i (List.mem_append_left _ hi) j (List.mem_append_left _ hj)

theorem find_parent_of_internalPutOkBatch (h : internalPutOkBatch db is = .ok db') (hi : i ∈ is) :
    db'.find i.parentPath ≠ none := by
  unfold internalPutOkBatch at h
  simp only [bind_eq_ok, pure_eq_ok, Except.ok.injEq] at h
  obtain ⟨parents, hparents, committed, -, rfl⟩ := h
  obtain ⟨hfrom, -, hall⟩ := readParents_ok hparents
  obtain ⟨kp, hkp, hpath⟩ := hall i hi
  have hl := ((hfrom kp hkp).resolve_left (by simp)).2
  rw [foldl_addDentry, Table.write_append, List.map_map]
  have hkey : i.parentPath ∈ (parents.map ((fun kp ↦ Value.inode kp.2) ∘ fun kp ↦
      (kp.1, { kp.2 with sub := dentries is kp.1 kp.2.sub }))).map Value.key := by
    rw [List.map_map]
    refine List.mem_map.mpr ⟨kp, hkp, ?_⟩
    simp only [Function.comp_apply, Value.key, fullpath_of_lookup hl, hpath]
  obtain ⟨v, -, -, hv⟩ := Table.exists_find_write (db.write (committed.map .inode)) hkey
  rw [hv]
  simp

theorem find_member_of_internalPutOkBatch (h : internalPutOkBatch db is = .ok db') (hi : i ∈ is)
    (hno : ∀ k ∈ is, k.parentPath ≠ i.fullpath.str) :
    ∃ j, (is.filter (·.fullpath = i.fullpath)).getLast? = some j ∧
      ∃ c, commitAgg db j = .ok c ∧ db'.find i.fullpath.str = some (.inode c) := by
  obtain ⟨j, hj, c, hc, hl⟩ := (internalPutOkBatch_ok h).member i hi hno
  refine ⟨j, hj, c, hc, find_of_lookup hl fun hn ↦ ?_⟩
  -- only the root is found without being stored, and the root is its own parent
  have hroot : i.fullpath.str = root := by
    by_contra hne
    simp [lookup, hn, hne] at hl
  refine hno i hi ?_
  rw [Inode.parentPath, hroot]
  decide

theorem commits_of_internalPutOkBatch (h : internalPutOkBatch db is = .ok db') (hf : Flat is) :
    Commits (commitAgg db) db is db' := by
  have heffect := internalPutOkBatch_ok h
  refine ⟨fun i hi ↦ ?_, fun i hi ↦ find_member_of_internalPutOkBatch h hi (hf i hi),
    heffect.other⟩
  obtain ⟨p, hp, hl⟩ := heffect.parent i hi
  exact ⟨p, hp, find_of_lookup hl (find_parent_of_internalPutOkBatch h hi)⟩

theorem dentries_concat (is : List Inode) (i : Inode) (path : Str) (sub : List Str) :
    dentries (is ++ [i]) path sub =
      if i.parentPath = path then addName (dentries is path sub) i.filename
      else dentries is path sub := by
  by_cases h : i.parentPath = path <;> simp [dentries, h]

theorem dentries_of_notMem (h : ∀ i ∈ is, i.parentPath ≠ path) (sub : List Str) :
    dentries is path sub = sub := by
  have hnil : is.filter (·.parentPath = path) = [] := by
    rw [List.filter_eq_nil_iff]
    intro i hi hp
    exact h i hi (of_decide_eq_true hp)
  rw [dentries, hnil]
  rfl

theorem commit_congr (h : db.find i.fullpath.str = db'.find i.fullpath.str) :
    commit db i = commit db' i := by
  have hkey : (Inode.ofPath i.fullpath.str).fullpath.str = i.fullpath.str := i.fullpath.simplified
  rw [commit, commit, getInode, getInode, readInode, readInode, hkey, h]

theorem commit_of_find (h : db.find i.fullpath.str = some (.inode j)) :
    commit db i = .ok { j with ddlLock := 0, sub := i.sub, filesize := i.filesize } := by
  refine commit_eq_ok.mpr ⟨j, getInode_eq_ok.mpr (.inl ?_), rfl⟩
  rw [i.fullpath.simplified]
  exact lookup_of_find h

variable {own : Inode → Except Fault Inode}

/-- The parents as they are after a list of commits, also those that no member has. -/
theorem Commits.lookup_dentries (h : Commits own db is mid)
    (hno : ∀ k ∈ is, k.fullpath.str ≠ path) :
    lookup mid path = (lookup db path).map fun p ↦ { p with sub := dentries is path p.sub } := by
  by_cases hp : ∃ k ∈ is, k.parentPath = path
  · obtain ⟨k, hk, rfl⟩ := hp
    obtain ⟨p, hl, hfind⟩ := h.parent k hk
    rw [lookup_of_find hfind, hl]
    rfl
  · push Not at hp
    rw [lookup, h.other path hp hno, ← lookup]
    simp only [dentries_of_notMem hp, Option.map_id']

/-- A commit overwrites what the commits before it have left in the record. -/
theorem Commits.commit_eq (h : Commits (commit db) db is mid)
    (hno : ∀ k ∈ is, k.parentPath ≠ i.fullpath.str) : commit mid i = commit db i := by
  by_cases hm : ∃ k ∈ is, k.fullpath.str = i.fullpath.str
  · obtain ⟨k, hk, hpath⟩ := hm
    obtain ⟨j, hj, d, hd, hfind⟩ := h.member k hk
    have hjk : j.fullpath = k.fullpath := (of_getLast?_filter hj).2
    obtain ⟨g, hg, rfl⟩ := commit_eq_ok.mp hd
    rw [hjk, hpath] at hg
    rw [hpath] at hfind
    rw [commit_of_find hfind, commit_eq_ok.mpr ⟨g, hg, rfl⟩]
  · push Not at hm
    exact commit_congr (h.other i.fullpath.str hno hm)

theorem Commits.concat (h : Commits (commit db) db is mid) (hf : Flat (is ++ [i]))
    (hstep : internalPutOk mid i = .ok db') : Commits (commit db) db (is ++ [i]) db' := by
  obtain ⟨c, hc, hlinked⟩ := internalPutOk_eq_ok.mp hstep
  have hpath : c.fullpath.str = i.fullpath.str := by rw [fullpath_of_commit hc]
  have hparent : c.parentPath = i.parentPath := by rw [Inode.parentPath, hpath, Inode.parentPath]
  have hi : i ∈ is ++ [i] := by simp
  have hold : ∀ k ∈ is, k ∈ is ++ [i] := fun k hk ↦ List.mem_append_left _ hk
  rw [h.commit_eq fun k hk ↦ hf i hi k (hold k hk)] at hc
  refine ⟨fun k hk ↦ ?_, fun k hk ↦ ?_, fun path hp hm ↦ ?_⟩
  · by_cases hsame : k.parentPath = i.parentPath
    · obtain ⟨q, hq, hfind⟩ := hlinked.find_parent (by rw [hparent, hpath]; exact hf i hi i hi)
      rw [hparent] at hq hfind
      rw [h.lookup_dentries fun m hm ↦ (hf m (hold m hm) i hi).symm, Option.map_eq_some_iff] at hq
      obtain ⟨p, hp, rfl⟩ := hq
      refine ⟨p, hsame ▸ hp, ?_⟩
      rw [hsame, hfind, dentries_concat, if_pos rfl]
    · have hk : k ∈ is := (List.mem_append.mp hk).resolve_right fun hk ↦
        hsame (by rw [List.mem_singleton.mp hk])
      obtain ⟨p, hp, hfind⟩ := h.parent k hk
      refine ⟨p, hp, ?_⟩
      rw [hlinked.find_other (by rw [hpath]; exact hf i hi k (hold k hk)) (hparent ▸ hsame), hfind,
        dentries_concat, if_neg (Ne.symm hsame)]
  · by_cases hsame : k.fullpath = i.fullpath
    · refine ⟨i, by simp [hsame], c, hc, ?_⟩
      rw [hsame, ← hpath]
      exact hlinked.find_self
    · have hk' : k ∈ is := (List.mem_append.mp hk).resolve_right fun hk ↦
        hsame (by rw [List.mem_singleton.mp hk])
      obtain ⟨j, hj, d, hd, hfind⟩ := h.member k hk'
      refine ⟨j, by simp [hj, Ne.symm hsame], d, hd, ?_⟩
      rw [hlinked.find_other (fun he ↦ hsame (FullPath.ext (he.trans hpath)))
        (by rw [hparent]; exact (hf k hk i hi).symm), hfind]
  · rw [hlinked.find_other (by rw [hpath]; exact (hm i hi).symm)
      (by rw [hparent]; exact (hp i hi).symm)]
    exact h.other path (fun k hk ↦ hp k (hold k hk)) fun k hk ↦ hm k (hold k hk)

theorem commits_of_foldlM (h : is.foldlM internalPutOk db = .ok db') (hf : Flat is) :
    Commits (commit db) db is db' := by
  induction is using List.reverseRecOn generalizing db' with
  | nil =>
    obtain rfl := Except.ok.inj h
    exact ⟨by simp, by simp, fun _ _ _ ↦ rfl⟩
  | append_singleton is i ih =>
    simp only [List.foldlM_append, bind_eq_ok, List.foldlM_cons, List.foldlM_nil, pure_eq_ok,
      Except.ok.injEq] at h
    obtain ⟨mid, hmid, _, hstep, rfl⟩ := h
    exact (ih hmid hf.append_left).concat hf hstep

theorem stamp_of_find (h : db.find i.fullpath.str = some (.inode j)) (hid : i.aggInodeId ≠ []) :
    stamp db i = db.put (.inode { j with aggInodeId := i.aggInodeId }) := by
  rw [stamp, if_neg hid, lookup_of_find h]

def restamp (id : Str) : Value → Value
  | .inode c => .inode { c with aggInodeId := id }
  | v => v

theorem find_foldl_stamp {id : Str} (hid : id ≠ []) (hall : ∀ i ∈ is, i.aggInodeId = id)
    (hfound : ∀ i ∈ is, ∃ c, db.find i.fullpath.str = some (.inode c)) (path : Str) :
    (is.foldl stamp db).find path =
      if path ∈ is.map (·.fullpath.str) then (db.find path).map (restamp id)
      else db.find path := by
  induction is using List.reverseRecOn generalizing path with
  | nil => rfl
  | append_singleton is i ih =>
    have hold : ∀ k ∈ is, k ∈ is ++ [i] := fun k hk ↦ List.mem_append_left _ hk
    have ih := ih (fun k hk ↦ hall k (hold k hk)) fun k hk ↦ hfound k (hold k hk)
    obtain ⟨c, hc⟩ := hfound i (by simp)
    have hi : i.aggInodeId = id := hall i (by simp)
    obtain ⟨d, hd, hdc⟩ : ∃ d, (is.foldl RocksDB.stamp db).find i.fullpath.str = some (.inode d) ∧
        { d with aggInodeId := id } = { c with aggInodeId := id } := by
      rw [ih, hc]
      split <;> simp [restamp]
    rw [List.foldl_append, List.foldl_cons, List.foldl_nil, stamp_of_find hd (hi ▸ hid), hi, hdc]
    have hkey : (Value.inode { c with aggInodeId := id }).key = i.fullpath.str :=
      db.keyed _ (.inode c) hc
    by_cases hp : path = i.fullpath.str
    · subst hp
      rw [← hkey, Table.find_put_self, hkey, hc]
      simp [restamp]
    · rw [Table.find_put_of_ne _ (hkey ▸ hp), ih]
      simp [hp]

theorem Commits.stamp (h : Commits (commit db) db is db') (hf : Flat is) {id : Str}
    (hall : ∀ i ∈ is, i.aggInodeId = id) : Commits (commitAgg db) db is (is.foldl stamp db') := by
  have hlast : ∀ {i j : Inode}, (is.filter (·.fullpath = i.fullpath)).getLast? = some j → j ∈ is :=
    fun hj ↦ (of_getLast?_filter hj).1
  by_cases hid : id = []
  · have hsame : is.foldl RocksDB.stamp db' = db' := by
      refine List.foldlRecOn is RocksDB.stamp (motive := (· = db')) rfl fun d hd i hi ↦ ?_
      rw [RocksDB.stamp, if_pos ((hall i hi).trans hid), hd]
    rw [hsame]
    refine ⟨h.parent, fun i hi ↦ ?_, h.other⟩
    obtain ⟨j, hj, c, hc, hfind⟩ := h.member i hi
    refine ⟨j, hj, c, ?_, hfind⟩
    simp [commitAgg, hc, (hall j (hlast hj)).trans hid]
  · have hfound : ∀ i ∈ is, ∃ c, db'.find i.fullpath.str = some (.inode c) := fun i hi ↦ by
      obtain ⟨-, -, c, -, hfind⟩ := h.member i hi
      exact ⟨c, hfind⟩
    have hfind := find_foldl_stamp hid hall hfound
    refine ⟨fun i hi ↦ ?_, fun i hi ↦ ?_, fun path hp hm ↦ ?_⟩
    · obtain ⟨p, hp, he⟩ := h.parent i hi
      refine ⟨p, hp, ?_⟩
      rw [hfind, if_neg, he]
      intro hm
      obtain ⟨k, hk, hpath⟩ := List.mem_map.mp hm
      exact hf k hk i hi hpath.symm
    · obtain ⟨j, hj, c, hc, he⟩ := h.member i hi
      have hj' : j.aggInodeId = id := hall j (hlast hj)
      refine ⟨j, hj, { c with aggInodeId := id }, ?_, ?_⟩
      · simp [commitAgg, hc, hj', hid]
      · rw [hfind, if_pos (List.mem_map.mpr ⟨i, hi, rfl⟩), he]
        rfl
    · rw [hfind, if_neg, h.other path hp hm]
      intro hmem
      obtain ⟨k, hk, hpath⟩ := List.mem_map.mp hmem
      exact hm k hk hpath

/-- The exception of a key under which there is an aggregate. -/
def notAnInode : Fault := .runtime "key 'fullpath' not found".toList

theorem getParentInode_error {e : Fault} (hs : Present db i.parentPath)
    (h : getParentInode db i = .error e) : e = notAnInode ∧ lookup db i.parentPath = none := by
  rw [getParentInode, readInode] at h
  rw [lookup]
  cases hf : db.find i.parentPath with
  | none =>
    rw [hf] at h
    simp [hs.resolve_right fun hn ↦ hn hf] at h
  | some v =>
    cases v with
    | inode p => simp [hf] at h
    | agg a =>
      simp only [hf, throw_eq_error, error_bind, Except.error.injEq] at h
      exact ⟨h.symm, rfl⟩

theorem commit_error {e : Fault} (h : commit db i = .error e) : e = notAnInode := by
  rw [commit, bind_eq_error] at h
  rcases h with h | ⟨f, -, h⟩
  · rw [getInode, readInode] at h
    cases hf : db.find (Inode.ofPath i.fullpath.str).fullpath.str with
    | none =>
      rw [hf] at h
      by_cases hr : (Inode.ofPath i.fullpath.str).fullpath.str = root <;> simp [hr] at h
    | some v =>
      cases v with
      | inode p => simp [hf] at h
      | agg a =>
        simp only [hf, throw_eq_error, error_bind, Except.error.injEq] at h
        exact h.symm
  · cases h

theorem Commits.present (h : Commits own db is db') (hs : Present db path) : Present db' path := by
  by_cases hp : ∃ i ∈ is, i.parentPath = path
  · obtain ⟨i, hi, rfl⟩ := hp
    obtain ⟨p, -, hfind⟩ := h.parent i hi
    exact .inr (by simp [hfind])
  by_cases hm : ∃ i ∈ is, i.fullpath.str = path
  · obtain ⟨i, hi, rfl⟩ := hm
    obtain ⟨-, -, c, -, hfind⟩ := h.member i hi
    exact .inr (by simp [hfind])
  · push Not at hp hm
    rwa [Present, h.other path hp hm]

/-- The records that a commit reads are there. -/
def Readable (db : RocksDB) (i : Inode) : Prop :=
  (∃ p, lookup db i.parentPath = some p) ∧ ∃ c, commit db i = .ok c

theorem Commits.readable (h : Commits own db is db')
    (hown : ∀ j c, own j = .ok c → ∃ d, commit db j = .ok d) (hi : i ∈ is) : Readable db i := by
  obtain ⟨p, hp, -⟩ := h.parent i hi
  obtain ⟨j, hj, c, hc, -⟩ := h.member i hi
  obtain ⟨d, hd⟩ := hown j c hc
  obtain ⟨f, hf, -⟩ := commit_eq_ok.mp hd
  have hpath : j.fullpath = i.fullpath := (of_getLast?_filter hj).2
  exact ⟨⟨p, hp⟩, _, commit_eq_ok.mpr ⟨f, hpath ▸ hf, rfl⟩⟩

theorem internalPutOkBatch_error {e : Fault} (hs : ∀ i ∈ is, Present db i.parentPath)
    (h : internalPutOkBatch db is = .error e) : e = notAnInode ∧ ∃ i ∈ is, ¬ Readable db i := by
  obtain ⟨i, hi, h | h⟩ := internalPutOkBatch_eq_error h
  · obtain ⟨rfl, hn⟩ := getParentInode_error (hs i hi) h
    exact ⟨rfl, i, hi, fun hr ↦ by simp [Readable, hn] at hr⟩
  · exact ⟨commit_error h, i, hi, fun hr ↦ by simp [Readable, h] at hr⟩

theorem foldlM_internalPutOk_error {e : Fault} (hs : ∀ i ∈ is, Present db i.parentPath)
    (hf : Flat is) (h : is.foldlM internalPutOk db = .error e) :
    e = notAnInode ∧ ∃ i ∈ is, ¬ Readable db i := by
  induction is using List.reverseRecOn with
  | nil => cases h
  | append_singleton is i ih =>
    have hold : ∀ k ∈ is, k ∈ is ++ [i] := fun k hk ↦ List.mem_append_left _ hk
    have hi : i ∈ is ++ [i] := by simp
    simp only [List.foldlM_append, bind_eq_error, List.foldlM_cons, List.foldlM_nil] at h
    rcases h with h | ⟨mid, hmid, h | ⟨_, -, h⟩⟩
    · obtain ⟨he, k, hk, hr⟩ := ih (fun k hk ↦ hs k (hold k hk)) hf.append_left h
      exact ⟨he, k, hold k hk, hr⟩
    · have hcommits := commits_of_foldlM hmid hf.append_left
      have hparent := hcommits.lookup_dentries fun k hk ↦ (hf k (hold k hk) i hi).symm
      have hcommit := hcommits.commit_eq fun k hk ↦ hf i hi k (hold k hk)
      simp only [internalPutOk, bind_eq_error] at h
      rcases h with h | ⟨p, -, h | ⟨c, -, h⟩⟩
      · obtain ⟨he, hn⟩ := getParentInode_error (hcommits.present (hs i hi)) h
        rw [hparent, Option.map_eq_none_iff] at hn
        exact ⟨he, i, hi, fun hr ↦ by simp [Readable, hn] at hr⟩
      · rw [hcommit] at h
        exact ⟨commit_error h, i, hi, fun hr ↦ by simp [Readable, h] at hr⟩
      · cases h
    · cases h

end RocksDB

open RocksDB

theorem batch_commits_one_by_one (db : RocksDB) (is : List Inode) (id : Str)
    (same : ∀ i ∈ is, i.aggInodeId = id)
    (flat : ∀ i ∈ is, ∀ j ∈ is, j.parentPath ≠ i.fullpath.str)
    (parents : ∀ i ∈ is, i.parentPath = root ∨ db.find i.parentPath ≠ none) :
    internalPutOkBatch db is =
      (is.foldlM internalPutOk db).map fun db' ↦ is.foldl stamp db' := by
  have hagg : ∀ j c, commitAgg db j = .ok c → ∃ d, commit db j = .ok d := by
    intro j c hc
    rw [commitAgg, bind_eq_ok] at hc
    obtain ⟨d, hd, -⟩ := hc
    exact ⟨d, hd⟩
  cases hb : internalPutOkBatch db is with
  | ok db₁ =>
    have h₁ := commits_of_internalPutOkBatch hb flat
    cases hfold : is.foldlM internalPutOk db with
    | ok db₂ =>
      have h₂ := (commits_of_foldlM hfold flat).stamp flat same
      exact congrArg _ (h₁.unique h₂)
    | error e =>
      obtain ⟨-, i, hi, hr⟩ := foldlM_internalPutOk_error parents flat hfold
      exact absurd (h₁.readable hagg hi) hr
  | error e =>
    obtain ⟨rfl, i, hi, hr⟩ := internalPutOkBatch_error parents hb
    cases hfold : is.foldlM internalPutOk db with
    | ok db₂ =>
      exact absurd ((commits_of_foldlM hfold flat).readable (fun j c hc ↦ ⟨c, hc⟩) hi) hr
    | error e =>
      obtain ⟨rfl, -⟩ := foldlM_internalPutOk_error parents flat hfold
      rfl

/-- Two members in one directory, one of them twice. -/
theorem batch_commits_one_by_one_repeated :
    let is := ["/f", "/g", "/f"].map fun path ↦
      { Inode.ofPath path.toList with sub := [path.toList], aggInodeId := "1f".toList }
    (∀ i ∈ is, i.parentPath = root) ∧
      ((is.foldlM internalPutOk (.empty : RocksDB)).map fun db ↦
        is.foldl stamp db) = internalPutOkBatch .empty is ∧
      ∃ db, internalPutOkBatch .empty is = .ok db := by
  intro is
  have hparents : ∀ i ∈ is, i.parentPath = root := by decide +kernel
  have heq := batch_commits_one_by_one .empty is "1f".toList (by decide +kernel)
    (by decide +kernel) fun i hi ↦ .inl (hparents i hi)
  refine ⟨hparents, heq.symm, ?_⟩
  cases hb : internalPutOkBatch .empty is with
  | ok db => exact ⟨db, rfl⟩
  | error e =>
    have hok : (internalPutOkBatch .empty is).isOk = true := by decide +kernel
    rw [hb] at hok
    cases hok

end Spkdfs
