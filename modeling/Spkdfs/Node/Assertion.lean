import Spkdfs.Node.Tree

namespace Spkdfs

open Library RocksDB

namespace RocksDB

variable {db : RocksDB} {i : Inode} {is : List Inode}

theorem getInode_ne_assertion : getInode db i ≠ .error .assertion := by
  rw [getInode, readInode]
  cases db.find i.fullpath.str with
  | none => by_cases h : i.fullpath.str = root <;> simp [h]
  | some v => cases v <;> simp

theorem commit_ne_assertion : commit db i ≠ .error .assertion := by
  simp [commit, bind_eq_error, getInode_ne_assertion]

theorem aggRm_ne_assertion {path : Str} : aggRm db path ≠ .error .assertion := by
  simp only [aggRm, ne_eq, bind_eq_error, getInode_ne_assertion, false_or, not_exists, not_and]
  intro c _
  split
  · simp
  · split
    · simp
    · simp
    · split <;> simp

def Present (db : RocksDB) (path : Str) : Prop := path = root ∨ db.find path ≠ none

theorem getParentInode_ne_assertion (h : Present db i.parentPath) :
    getParentInode db i ≠ .error .assertion := by
  rw [Ne, getParentInode_eq_assertion]
  rintro ⟨hn, hr⟩
  exact h.elim hr fun hf ↦ hf hn

end RocksDB

def Entry.linked : Entry → List Inode
  | .opMkdir inode | .opPutOk inode | .opRm inode => [inode]
  | .opPutOkBatch inodes => inodes
  | .opPut _ | .opPutBatch _ | .opPutAgg _ => []

variable {db db' : RocksDB} {call : Call} {ok : Bool}

theorem onApply_ne_none {e : Entry} (h : ∀ i ∈ e.linked, Present db i.parentPath) :
    RaftNN.onApply db e ≠ none := by
  suffices happly : RaftNN.applyOp db e ≠ .error .assertion by
    unfold RaftNN.onApply
    split
    · simp
    · rename_i he
      exact absurd he happly
    · simp
  cases e with
  | opMkdir i =>
    have hp := getParentInode_ne_assertion (h i (List.mem_singleton_self i))
    simp [RaftNN.applyOp, internalMkdir, bind_eq_error, hp]
  | opPut i => simp [RaftNN.applyOp, internalPut]
  | opPutOk i =>
    have hp := getParentInode_ne_assertion (h i (List.mem_singleton_self i))
    simp [RaftNN.applyOp, internalPutOk, bind_eq_error, commit_ne_assertion, hp]
  | opPutBatch is => simp [RaftNN.applyOp, internalPutBatch]
  | opPutOkBatch is =>
    intro he
    obtain ⟨i, hi, he | he⟩ := internalPutOkBatch_eq_error he
    · exact getParentInode_ne_assertion (h i hi) he
    · exact commit_ne_assertion he
  | opPutAgg agg => simp [RaftNN.applyOp, internalPutAgg]
  | opRm i =>
    have hp := getParentInode_ne_assertion (h i (List.mem_singleton_self i))
    simp [RaftNN.applyOp, internalRm, bind_eq_error, aggRm_ne_assertion, hp]

/-- Every stored inode has a parent that can be read. -/
def Grounded (db : RocksDB) : Prop :=
  ∀ path i, lookup db path = some i → Present db (getParentPath path)

theorem present_of_lookup {path : Str} {i : Inode} (h : lookup db path = some i) :
    Present db path := by
  by_cases hr : path = root
  · exact .inl hr
  · refine .inr fun hn ↦ ?_
    simp [lookup, hn, hr] at h

theorem present_of_pathExists {path : Str} (h : pathExists db path = .ok true) :
    Present db path := by
  rcases pathExists_eq_true.mp h with hr | ⟨i, hi, -⟩
  · exact .inl hr
  · exact present_of_lookup hi

theorem Grounded.parent {path : Str} (hg : Grounded db) (h : pathExists db path = .ok true) :
    Present db (getParentPath path) := by
  rcases pathExists_eq_true.mp h with rfl | ⟨i, hi, -⟩
  · exact .inl rfl
  · exact hg path i hi

theorem Grounded.prepare (hg : Grounded db) {env : Env} {req : Request} {e : Entry} {i : Inode}
    (he : e ∈ (Namenode.prepare db env req).1) (hi : i ∈ e.linked) :
    Present db i.parentPath := by
  have hfile : ∀ (r : NNPutOKRequest) (i : Inode), Namenode.putOkInode db r = .ok i →
      Present db i.parentPath := by
    intro r i hr
    obtain ⟨-, j, hj, rfl⟩ := Namenode.putOkInode_eq_ok.mp hr
    obtain ⟨hl, -, -⟩ := preparePutOk_eq_ok.mp hj
    have hp := hg _ j hl
    rwa [← fullpath_of_lookup hl] at hp
  cases req with
  | mkdir path =>
    obtain ⟨es, hes, he⟩ := Namenode.mem_proposed he
    obtain ⟨-, hp, -, rfl⟩ := Namenode.mkdir_eq_ok.mp hes
    obtain rfl := List.mem_singleton.mp he
    obtain rfl := List.mem_singleton.mp hi
    exact present_of_pathExists hp
  | rm path =>
    obtain ⟨es, hes, he⟩ := Namenode.mem_proposed he
    obtain ⟨-, hp, rfl⟩ := Namenode.rm_eq_ok.mp hes
    obtain rfl := List.mem_singleton.mp he
    obtain rfl := List.mem_singleton.mp hi
    exact hg.parent hp
  | put r =>
    obtain ⟨es, hes, he⟩ := Namenode.mem_proposed he
    obtain ⟨j, -, rfl⟩ := Namenode.put_eq_ok.mp hes
    obtain rfl := List.mem_singleton.mp he
    cases hi
  | putBatch rs =>
    obtain ⟨es, hes, he⟩ := Namenode.mem_proposed he
    obtain ⟨js, -, rfl⟩ := Namenode.putBatch_eq_ok.mp hes
    obtain rfl := List.mem_singleton.mp he
    cases hi
  | putOk r =>
    obtain ⟨es, hes, he⟩ := Namenode.mem_proposed he
    obtain ⟨j, hj, rfl⟩ := Namenode.putOk_eq_ok.mp hes
    obtain rfl := List.mem_singleton.mp he
    obtain rfl := List.mem_singleton.mp hi
    exact hfile r i hj
  | putOkBatch rs =>
    obtain ⟨es, hes, he⟩ := Namenode.mem_proposed he
    obtain ⟨is, agg, his, -, rfl⟩ := Namenode.putOkBatch_ok hes
    simp only [List.mem_cons, List.not_mem_nil, or_false] at he
    rcases he with rfl | rfl
    · obtain ⟨r, -, j, hj, rfl⟩ := forall₂_mem_right his hi
      exact hfile r j hj
    · cases hi
  | updateLock paths =>
    obtain ⟨is, hes, -⟩ := Namenode.updateLock_eq db env.now paths
    simp only [Namenode.prepare, hes, List.mem_map] at he
    obtain ⟨j, -, rfl⟩ := he
    cases hi

theorem applyOp_write {e : Entry} (h : RaftNN.applyOp db e = .ok db') :
    ∃ vs, db' = db.write vs := by
  cases e with
  | opMkdir i =>
    simp only [RaftNN.applyOp, internalMkdir, bind_eq_ok, pure_eq_ok, Except.ok.injEq] at h
    obtain ⟨parent, -, rfl⟩ := h
    exact ⟨_, rfl⟩
  | opPut i => exact ⟨_, (Except.ok.inj h).symm⟩
  | opPutOk i =>
    simp only [RaftNN.applyOp, internalPutOk, bind_eq_ok, pure_eq_ok, Except.ok.injEq] at h
    obtain ⟨parent, -, c, -, rfl⟩ := h
    exact ⟨_, rfl⟩
  | opPutBatch is => exact ⟨_, (Except.ok.inj h).symm⟩
  | opPutOkBatch is =>
    simp only [RaftNN.applyOp, internalPutOkBatch, bind_eq_ok, pure_eq_ok, Except.ok.injEq] at h
    obtain ⟨parents, -, cs, -, rfl⟩ := h
    exact ⟨_, rfl⟩
  | opPutAgg agg => exact ⟨_, (Except.ok.inj h).symm⟩
  | opRm i =>
    simp only [RaftNN.applyOp, internalRm, bind_eq_ok, pure_eq_ok, Except.ok.injEq] at h
    obtain ⟨parent, -, agg, -, rfl⟩ := h
    exact ⟨_, rfl⟩

theorem RocksDB.Present.onApply {path : Str} {e : Entry} {a : Answer} (hp : Present db path)
    (h : RaftNN.onApply db e = some (db', a)) : Present db' path := by
  cases a with
  | failure f =>
    obtain ⟨-, -, rfl⟩ := onApply_eq_failure.mp h
    exact hp
  | success =>
    obtain ⟨vs, rfl⟩ := applyOp_write (onApply_eq_success.mp h)
    refine hp.imp_right fun hf ↦ ?_
    by_cases hm : path ∈ vs.map Value.key
    · obtain ⟨v, -, -, hv⟩ := db.exists_find_write hm
      simp [hv]
    · rwa [db.find_write_of_notMem hm]

theorem applyAll_ne_none {es : List Entry}
    (h : ∀ e ∈ es, ∀ i ∈ e.linked, Present db i.parentPath) : applyAll db es ≠ none := by
  induction es generalizing db with
  | nil => simp [applyAll]
  | cons e es ih =>
    obtain ⟨⟨mid, a⟩, hmid⟩ := Option.ne_none_iff_exists'.mp (onApply_ne_none (h e (by simp)))
    simp only [applyAll, hmid, Option.bind_some, ne_eq, Option.map_eq_none_iff]
    exact ih fun e' he' i hi ↦ (h e' (by simp [he']) i hi).onApply hmid

theorem RocksDB.Present.applyAll {path : Str} {es : List Entry} {as : List Answer}
    (hp : Present db path) (h : applyAll db es = some (db', as)) : Present db' path := by
  induction es generalizing db as with
  | nil =>
    simp only [Spkdfs.applyAll, Option.some.injEq, Prod.mk.injEq] at h
    exact h.1 ▸ hp
  | cons e es ih =>
    simp only [Spkdfs.applyAll, Option.bind_eq_some_iff, Option.map_eq_some_iff] at h
    obtain ⟨⟨mid, a⟩, hmid, ⟨db₁, as₁⟩, hrest, he⟩ := h
    obtain ⟨rfl, -⟩ := Prod.mk.inj he
    exact ih (hp.onApply hmid) hrest

theorem Grounded.serve_ne_none (hg : Grounded db) (call : Call) : serve db call ≠ none := by
  simp only [serve, ne_eq, Option.map_eq_none_iff]
  exact applyAll_ne_none fun e he i hi ↦ hg.prepare he hi

theorem grounded_empty : Grounded .empty := by
  intro path i h
  by_cases hr : path = root
  · subst hr
    exact .inl rfl
  · simp [lookup, hr] at h

/-- What `put` and `put_batch` do not check: that the parent of a path they store is there,
or is stored by the same batch. -/
def PutsGrounded (db : RocksDB) (call : Call) : Prop :=
  match call.request with
  | .put req => ∀ entries, Namenode.put db call.env.now req = .ok entries →
      Present db (getParentPath (simplifyPath req.path))
  | .putBatch reqs => ∀ entries, Namenode.putBatch db call.env.now reqs = .ok entries →
      ∀ req ∈ reqs, Present db (getParentPath (simplifyPath req.path)) ∨
        ∃ other ∈ reqs, simplifyPath other.path = getParentPath (simplifyPath req.path)
  | _ => True

theorem RocksDB.Linked.exists_lookup {own i : Inode} {names : List Str → List Str} {path : Str}
    (h : Linked db own names db') (hl : lookup db' path = some i) :
    path = own.fullpath.str ∨ ∃ j, lookup db path = some j := by
  by_cases hs : path = own.fullpath.str
  · exact .inl hs
  · refine .inr ?_
    by_cases hp : path = own.parentPath
    · obtain ⟨parent, hparent, -⟩ := h
      exact ⟨parent, hp ▸ hparent⟩
    · exact ⟨i, h.lookup_other hs hp ▸ hl⟩

theorem RocksDB.BatchEffect.exists_lookup {is : List Inode} {i : Inode} {path : Str}
    (h : BatchEffect db is db') (hm : Members db is) (hl : lookup db' path = some i) :
    ∃ j, lookup db path = some j := by
  by_cases hparent : ∃ k ∈ is, k.parentPath = path
  · obtain ⟨k, hk, rfl⟩ := hparent
    obtain ⟨p, hp, -⟩ := h.parent k hk
    exact ⟨p, hp⟩
  by_cases hmember : ∃ k ∈ is, k.fullpath.str = path
  · obtain ⟨k, hk, rfl⟩ := hmember
    obtain ⟨-, j, hj, -, -⟩ := hm k hk
    exact ⟨j, hj⟩
  · have hfind := h.other path (fun k hk he ↦ hparent ⟨k, hk, he⟩)
      fun k hk he ↦ hmember ⟨k, hk, he⟩
    exact ⟨i, by rwa [lookup, hfind, ← lookup] at hl⟩

theorem Grounded.served (hg : Grounded db) (h : Served db call.env call.request ok db')
    (hmono : ∀ path, Present db path → Present db' path) (hput : PutsGrounded db call) :
    Grounded db' := by
  obtain ⟨env, req⟩ := call
  intro path i hl
  have hold : (∃ j, lookup db path = some j) → Present db' (getParentPath path) := by
    rintro ⟨j, hj⟩
    exact hmono _ (hg path j hj)
  cases h with
  | refused => exact hold ⟨i, hl⟩
  | mkdir _ parent _ linked =>
    rcases linked.exists_lookup hl with rfl | hlookup
    · exact hmono _ (present_of_pathExists parent)
    · exact hold hlookup
  | rm _ found linked =>
    rcases linked.exists_lookup hl with rfl | hlookup
    · exact hmono _ (hg.parent found)
    · exact hold hlookup
  | @put r j own =>
    by_cases hs : path = j.fullpath.str
    · rw [hs, (putInode_kind own).1]
      exact hmono _ (hput _ (Namenode.put_eq_ok.mpr ⟨j, own, rfl⟩))
    · rw [lookup_put_of_ne db (v := .inode j) hs] at hl
      exact hold ⟨i, hl⟩
  | @putBatch rs is own =>
    rcases lookup_write_cases db is path with ⟨j, hj, rfl, -⟩ | ⟨-, he⟩
    · obtain ⟨r, hr, hrj⟩ := forall₂_mem_right own hj
      rw [(putInode_kind hrj).1]
      rcases hput _ (Namenode.putBatch_eq_ok.mpr ⟨is, own, rfl⟩) r hr with hp | ⟨o, ho, hpath⟩
      · exact hmono _ hp
      · obtain ⟨k, hk, hok⟩ := forall₂_mem_left own ho
        rw [← hpath, ← (putInode_kind hok).1]
        rcases lookup_write_cases db is k.fullpath.str with ⟨l, -, -, hl⟩ | ⟨hne, -⟩
        · exact present_of_lookup hl
        · exact absurd rfl (hne k hk)
    · exact hold ⟨i, he ▸ hl⟩
  | @putOk r j _ _ found _ _ linked =>
    rcases linked.exists_lookup hl with rfl | hlookup
    · refine hold ⟨j, ?_⟩
      rw [← fullpath_of_lookup found] at found
      exact found
    · exact hold hlookup
  | @putOkBatch rs is agg mid _ _ own effect plain =>
    have hne : path ≠ agg.id := by
      rintro rfl
      have hf : (mid.put (.agg agg)).find agg.id = some (.agg agg) := mid.find_put_self (.agg agg)
      simp [lookup, hf] at hl
    rw [lookup_put_of_ne mid (v := .agg agg) hne] at hl
    rcases effect with ⟨-, hmid⟩ | ⟨-, rfl⟩
    · exact hold ((internalPutOkBatch_ok hmid).exists_lookup (members_of_putOk own) hl)
    · exact hold ⟨i, hl⟩
  | @updateLock paths is _ own =>
    rcases lookup_write_cases db is path with ⟨j, hj, rfl, -⟩ | ⟨-, he⟩
    · obtain ⟨p, -, k, hk, -, rfl⟩ := own j hj
      refine hold ⟨k, ?_⟩
      rw [← fullpath_of_lookup hk] at hk
      exact hk
    · exact hold ⟨i, he ▸ hl⟩

/-- No request aborts the replicas, as long as the files stored before it had a parent. -/
theorem serve_never_aborts (h : Reaches serve PutsGrounded .empty db) (call : Call) :
    serve db call ≠ none := by
  suffices hg : Grounded db from hg.serve_ne_none call
  refine h.invariant grounded_empty fun db call db' _ hg hput hs ↦ ?_
  obtain ⟨ok, hserved⟩ := served_of_serve hs
  refine hg.served hserved (fun path hp ↦ ?_) hput
  simp only [serve, serveAnswered, Option.map_eq_some_iff] at hs
  obtain ⟨⟨db₁, as⟩, happly, rfl⟩ := hs
  exact hp.applyAll happly

/-- Whether the call puts a file directly below the root. -/
def putsBelowRoot (_ : RocksDB) (call : Call) : Bool :=
  match call.request with
  | .put req => decide (getParentPath (simplifyPath req.path) = root)
  | _ => false

theorem serve_never_aborts_put_ok :
    ∃ db, FileAt db "/f".toList ∧
      serve db (.at 101 (.putOk ⟨"/f".toList, 7, ["x".toList]⟩)) ≠ none := by
  obtain ⟨db, hr, hp⟩ := exists_reached serve putsBelowRoot .empty
    [.at 100 (.put ⟨"/f".toList, "RE<3,1>".toList⟩)] (fun db ↦ decide (FileAt db "/f".toList))
    (by decide +kernel)
  refine ⟨db, of_decide_eq_true hp, serve_never_aborts (hr.mono fun db call h ↦ ?_) _⟩
  obtain ⟨env, req⟩ := call
  cases req with
  | put req => exact fun _ _ ↦ .inl (of_decide_eq_true h)
  | _ => cases h

/-- A relative file: its parent is the empty path, which is never stored. -/
theorem serve_aborts_relative_put_ok :
    ¬ ∀ db, Reaches serve (fun _ call ↦ ∀ path ∈ call.request.paths, path ≠ []) .empty db →
      ∀ call : Call, (∀ path ∈ call.request.paths, path ≠ []) → serve db call ≠ none := by
  intro h
  obtain ⟨db, hr, hp⟩ := exists_reached serve
    (fun _ call ↦ call.request.paths.all fun path ↦ decide (path ≠ [])) .empty
    [.at 100 (.put ⟨"a".toList, "RE<3,1>".toList⟩)]
    (fun db ↦ (serve db (.at 101 (.putOk ⟨"a".toList, 7, ["x".toList]⟩))).isNone)
    (by decide +kernel)
  refine h db (hr.mono fun _ call hc path hm ↦ ?_) _ (by decide)
    (Option.isNone_iff_eq_none.mp hp)
  exact of_decide_eq_true (List.all_eq_true.mp hc path hm)

end Spkdfs
