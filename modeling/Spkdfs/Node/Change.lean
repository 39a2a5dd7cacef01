import Spkdfs.Node.Content

namespace Spkdfs

open Library RocksDB

namespace Request

def puts : Request → List NNPutRequest
  | .put req => [req]
  | .putBatch reqs => reqs
  | _ => []

def commits : Request → List NNPutOKRequest
  | .putOk req => [req]
  | .putOkBatch reqs => reqs
  | _ => []

def made : Request → List Str
  | .mkdir path => [Namenode.mkdirPath path]
  | _ => []

def removed : Request → List Str
  | .rm path => [path]
  | _ => []

/-- The paths whose own record the request replaces. -/
def own (req : Request) : List Str :=
  (req.made ++ req.removed ++ req.puts.map (·.path) ++ req.commits.map (·.path)).map simplifyPath

/-- The paths in whose record the request enters a name. -/
def parents (req : Request) : List Str :=
  (req.made ++ req.commits.map (·.path)).map fun path ↦ getParentPath (simplifyPath path)

theorem own_putBatch (reqs : List NNPutRequest) :
    own (.putBatch reqs) = reqs.map (simplifyPath ·.path) := by
  simp [own, made, removed, puts, commits]

theorem own_putOkBatch (reqs : List NNPutOKRequest) :
    own (.putOkBatch reqs) = reqs.map (simplifyPath ·.path) := by
  simp [own, made, removed, puts, commits]

theorem parents_putOkBatch (reqs : List NNPutOKRequest) :
    parents (.putOkBatch reqs) = reqs.map fun r ↦ getParentPath (simplifyPath r.path) := by
  simp [parents, made, commits]

def lastPut (req : Request) (path : Str) : Option NNPutRequest :=
  (req.puts.filter (simplifyPath ·.path = path)).getLast?

def lastCommit (req : Request) (path : Str) : Option NNPutOKRequest :=
  (req.commits.filter (simplifyPath ·.path = path)).getLast?

end Request

/-- No exception is thrown before the request's entries are proposed. -/
def Accepted (db : RocksDB) (call : Call) : Prop :=
  (Namenode.prepare db call.env call.request).2 = none

instance (db : RocksDB) (call : Call) : Decidable (Accepted db call) :=
  inferInstanceAs (Decidable (_ = _))

/-- What a request executed alone leaves under a path. The flag tells whether its first entry
was applied with success. -/
inductive Changed (db : RocksDB) (env : Env) (path : Str) :
    Request → Bool → Option Inode → Prop
  | kept {req : Request} {ok : Bool} (other : ok = true → path ∉ req.own) :
      Changed db env path req ok (lookup db path)
  | made {p : Str} (hpath : simplifyPath (Namenode.mkdirPath p) = path)
      (fresh : ¬ ValidAt db path) :
      Changed db env path (.mkdir p) true (some (.getDefaultDir (Namenode.mkdirPath p)))
  | removed {p : Str} (hpath : simplifyPath p = path) :
      Changed db env path (.rm p) true (some (.ofPath p))
  | entered {req : Request} {p : Inode} {sub : List Str} (found : lookup db path = some p)
      (parent : path ∈ req.parents)
      (outer : path ∈ req.own → ∃ reqs, req = .putOkBatch reqs) :
      Changed db env path req true (some { p with sub := sub })
  | erased {q : Str} {p : Inode} {sub : List Str} (found : lookup db path = some p)
      (fewer : ∀ name ∈ sub, name ∈ p.sub) (other : path ≠ simplifyPath q) :
      Changed db env path (.rm q) true (some { p with sub := sub })
  | stored {req : Request} {r : NNPutRequest} {i : Inode} (last : req.lastPut path = some r)
      (own : Namenode.putInode db env.now r = .ok i) : Changed db env path req true (some i)
  | committed {r : NNPutOKRequest} {j : Inode} (hpath : simplifyPath r.path = path)
      (found : lookup db path = some j) (valid : j.valid = true) (file : j.isDirectory = false) :
      Changed db env path (.putOk r) true
        (some { j with ddlLock := 0, sub := r.sub, filesize := r.filesize })
  | batched {reqs : List NNPutOKRequest} {is : List Inode} {agg : AggInode} {r : NNPutOKRequest}
      {j : Inode} (accepted : Namenode.putOkBatch db env reqs = .ok [.opPutOkBatch is, .opPutAgg agg])
      (last : Request.lastCommit (.putOkBatch reqs) path = some r)
      (found : lookup db path = some j) (valid : j.valid = true) (file : j.isDirectory = false)
      (inner : path ∉ Request.parents (.putOkBatch reqs)) :
      Changed db env path (.putOkBatch reqs) true
        (some { j with ddlLock := 0, sub := r.sub, filesize := r.filesize, aggInodeId := agg.id })
  | shadowed {reqs : List NNPutOKRequest} {is : List Inode} {agg : AggInode} {ok : Bool}
      (accepted : Namenode.putOkBatch db env reqs = .ok [.opPutOkBatch is, .opPutAgg agg])
      (hpath : path = agg.id) : Changed db env path (.putOkBatch reqs) ok none
  | refreshed {paths : List Str} {ok : Bool} {j : Inode} (found : lookup db path = some j)
      (valid : j.valid = true) :
      Changed db env path (.updateLock paths) ok (some (j.updateDdlLock env.now))

variable {db db' : RocksDB} {env : Env} {req : Request} {ok : Bool} {path : Str}

theorem Served.accepted (h : Served db env req true db') (hreq : ∀ paths, req ≠ .updateLock paths) :
    Accepted db ⟨env, req⟩ := by
  unfold Accepted
  cases h with
  | mkdir given parent fresh linked =>
    rw [Namenode.prepare, Namenode.mkdir_eq_ok.mpr ⟨given, parent, fresh, rfl⟩]
    rfl
  | rm given found linked =>
    rw [Namenode.prepare, Namenode.rm_eq_ok.mpr ⟨given, found, rfl⟩]
    rfl
  | put own =>
    rw [Namenode.prepare, Namenode.put_eq_ok.mpr ⟨_, own, rfl⟩]
    rfl
  | putBatch own =>
    rw [Namenode.prepare, Namenode.putBatch_eq_ok.mpr ⟨_, own, rfl⟩]
    rfl
  | putOk given found valid file linked =>
    have hinode := Namenode.putOkInode_eq_ok.mpr
      ⟨given, _, preparePutOk_eq_ok.mpr ⟨found, valid, file⟩, rfl⟩
    rw [Namenode.prepare, Namenode.putOk_eq_ok.mpr ⟨_, hinode, rfl⟩]
    rfl
  | putOkBatch accepted own effect plain =>
    rw [Namenode.prepare, accepted]
    rfl
  | updateLock own => exact absurd rfl (hreq _)

theorem lookup_write_last (db : RocksDB) (is : List Inode) (path : Str) :
    lookup (db.write (is.map .inode)) path =
      ((is.filter (·.fullpath.str = path)).getLast?).or (lookup db path) := by
  rw [lookup, db.find_write, List.filter_map, List.getLast?_map]
  have hkey : ((fun v : Value ↦ decide (v.key = path)) ∘ Value.inode) =
      fun i : Inode ↦ decide (i.fullpath.str = path) := rfl
  rw [hkey]
  cases (is.filter (·.fullpath.str = path)).getLast? with
  | none => rfl
  | some i => rfl

theorem commitAgg_of_lookup {i j c : Inode} (hj : lookup db i.fullpath.str = some j)
    (hid : i.aggInodeId ≠ []) (h : commitAgg db i = .ok c) :
    c = { j with ddlLock := 0, sub := i.sub, filesize := i.filesize,
                 aggInodeId := i.aggInodeId } := by
  rw [commitAgg, bind_eq_ok] at h
  obtain ⟨d, hd, h⟩ := h
  obtain ⟨f, hf, rfl⟩ := commit_eq_ok.mp hd
  rw [if_neg hid, pure_eq_ok, Except.ok.injEq] at h
  rcases getInode_eq_ok.mp hf with hl | ⟨hn, hr, -⟩
  · rw [i.fullpath.simplified, hj] at hl
    obtain rfl := Option.some.inj hl
    exact h.symm
  · rw [i.fullpath.simplified] at hn hr
    simp [lookup, hn, hr] at hj

theorem Namenode.putOkBatch_id_ne_nil {reqs : List NNPutOKRequest} {is : List Inode}
    {agg : AggInode} (h : putOkBatch db env reqs = .ok [.opPutOkBatch is, .opPutAgg agg]) :
    agg.id ≠ [] := by
  unfold putOkBatch at h
  simp only [bind_eq_ok, pure_eq_ok, Except.ok.injEq] at h
  obtain ⟨machineId, -, members, -, he⟩ := h
  simp only [List.cons.injEq, Entry.opPutAgg.injEq, and_true] at he
  obtain ⟨-, rfl⟩ := he
  exact Nat.toDigits_ne_nil

/-- The last request for a path and the last inode for it belong together. -/
theorem forall₂_last {α : Type} {R : α → Inode → Prop} {name : α → Str} {rs : List α}
    {is : List Inode} (h : List.Forall₂ R rs is)
    (hname : ∀ r i, R r i → i.fullpath.str = simplifyPath (name r)) (path : Str) :
    (is.filter (·.fullpath.str = path)).getLast? = none ∧
        path ∉ rs.map (fun r ↦ simplifyPath (name r)) ∨
      ∃ r i, (rs.filter (fun r ↦ simplifyPath (name r) = path)).getLast? = some r ∧
        (is.filter (·.fullpath.str = path)).getLast? = some i ∧ R r i := by
  have hkeep : ∀ r i, R r i → (decide (simplifyPath (name r) = path) = true ↔
      decide (i.fullpath.str = path) = true) := by
    intro r i hri
    rw [hname r i hri]
  have hfilter := List.rel_filter @hkeep h
  cases hl : (rs.filter (fun r ↦ simplifyPath (name r) = path)).getLast? with
  | some r =>
    obtain ⟨i, hi, hri⟩ := forall₂_getLast hfilter hl
    exact .inr ⟨r, i, rfl, hi, hri⟩
  | none =>
    rw [List.getLast?_eq_none_iff] at hl
    rw [hl, List.forall₂_nil_left_iff] at hfilter
    refine .inl ⟨by rw [hfilter]; rfl, fun hm ↦ ?_⟩
    obtain ⟨r, hr, hp⟩ := List.mem_map.mp hm
    exact List.filter_eq_nil_iff.mp hl r hr (decide_eq_true hp)

theorem RocksDB.Linked.cases {own : Inode} {names : List Str → List Str}
    (h : Linked db own names db') (path : Str) :
    path = own.fullpath.str ∧ lookup db' path = some own ∨
      path ≠ own.fullpath.str ∧ path = own.parentPath ∧
        (∃ p, lookup db path = some p ∧ lookup db' path = some { p with sub := names p.sub }) ∨
      path ≠ own.fullpath.str ∧ path ≠ own.parentPath ∧ lookup db' path = lookup db path := by
  by_cases hs : path = own.fullpath.str
  · subst hs
    exact .inl ⟨rfl, h.lookup_self⟩
  by_cases hp : path = own.parentPath
  · subst hp
    exact .inr (.inl ⟨hs, rfl, h.lookup_parent hs⟩)
  · exact .inr (.inr ⟨hs, hp, h.lookup_other hs hp⟩)

theorem changed_of_batch {rs : List NNPutOKRequest} {is : List Inode} {agg : AggInode}
    (accepted : Namenode.putOkBatch db env rs = .ok [.opPutOkBatch is, .opPutAgg agg])
    (own : List.Forall₂ (fun req i ↦ ∃ j, Namenode.putOkInode db req = .ok j ∧
      i = { j with aggInodeId := agg.id }) rs is)
    (heffect : BatchEffect db is db') (path : Str) :
    Changed db env path (.putOkBatch rs) true (lookup db' path) := by
  have hparent : path ∈ Request.parents (.putOkBatch rs) ↔ ∃ i ∈ is, i.parentPath = path := by
    rw [Request.parents_putOkBatch, List.mem_map]
    constructor
    · rintro ⟨r, hr, rfl⟩
      obtain ⟨i, hi, hri⟩ := forall₂_mem_left own hr
      exact ⟨i, hi, by rw [Inode.parentPath, (putOk_member hri).1]⟩
    · rintro ⟨i, hi, rfl⟩
      obtain ⟨r, hr, hri⟩ := forall₂_mem_right own hi
      exact ⟨r, hr, by rw [Inode.parentPath, (putOk_member hri).1]⟩
  by_cases hp : ∃ i ∈ is, i.parentPath = path
  · have hm := hparent.mpr hp
    obtain ⟨i, hi, rfl⟩ := hp
    obtain ⟨p, hp, hl⟩ := heffect.parent i hi
    rw [hl]
    exact .entered hp hm fun _ ↦ ⟨rs, rfl⟩
  have hinner : path ∉ Request.parents (.putOkBatch rs) := fun hm ↦ hp (hparent.mp hm)
  rcases forall₂_last own (fun r i h ↦ (putOk_member h).1) path with ⟨-, hm⟩ | ⟨r, i, hr, hi, hri⟩
  · have hother : db'.find path = db.find path := by
      refine heffect.other path (fun i hi he ↦ hp ⟨i, hi, he⟩) fun i hi he ↦ hm ?_
      obtain ⟨r, hr, hri⟩ := forall₂_mem_right own hi
      exact List.mem_map.mpr ⟨r, hr, (putOk_member hri).1.symm.trans he⟩
    rw [lookup, hother, ← lookup]
    exact .kept fun _ hown ↦ hm (Request.own_putOkBatch rs ▸ hown)
  · obtain ⟨hmem, hpath⟩ := of_getLast?_filter hi
    obtain rfl : i.fullpath.str = path := hpath
    obtain ⟨k, hk, c, hc, hl⟩ := heffect.member i hmem fun k hk he ↦ hp ⟨k, hk, he⟩
    have hki : k = i := by
      rw [← filter_fullpath_str, hi] at hk
      exact (Option.some.inj hk).symm
    subst hki
    obtain ⟨-, s, hs, hv, hd⟩ := members_of_putOk own k hmem
    obtain ⟨j, hj, rfl⟩ := hri
    obtain ⟨-, f, -, rfl⟩ := Namenode.putOkInode_eq_ok.mp hj
    have hc := commitAgg_of_lookup hs (Namenode.putOkBatch_id_ne_nil accepted) hc
    rw [hl, hc]
    exact .batched accepted hr hs hv hd hinner

theorem Served.changed (h : Served db env req ok db') (path : Str) :
    Changed db env path req ok (lookup db' path) := by
  cases h with
  | refused => exact .kept (by simp)
  | @mkdir p _ given parent fresh linked =>
    rcases linked.cases path with ⟨hp, hl⟩ | ⟨hs, hp, i, hi, hl⟩ | ⟨hs, -, hl⟩
    · rw [hl]
      have hp : path = simplifyPath (Namenode.mkdirPath p) := hp
      refine .made hp.symm fun hv ↦ validAt_iff.mp hv ?_
      rw [hp]
      exact (kindAt_of_pathExists fresh).2
    · rw [hl]
      exact .entered hi (List.mem_singleton.mpr hp) fun hm ↦ absurd (List.mem_singleton.mp hm) hs
    · rw [hl]
      exact .kept fun _ hm ↦ hs (List.mem_singleton.mp hm)
  | @rm p _ given found linked =>
    rcases linked.cases path with ⟨hp, hl⟩ | ⟨hs, hp, i, hi, hl⟩ | ⟨hs, -, hl⟩
    · rw [hl]
      exact .removed hp.symm
    · rw [hl]
      refine .erased hi (fun name hn ↦ ?_) hs
      exact List.mem_of_mem_filter (List.mem_of_mem_filter hn)
    · rw [hl]
      exact .kept fun _ hm ↦ hs (List.mem_singleton.mp hm)
  | @put r i own =>
    have hp := (putInode_kind own).1
    by_cases hs : path = i.fullpath.str
    · subst hs
      rw [lookup_put_self]
      refine .stored ?_ own
      simp [Request.lastPut, Request.puts, hp]
    · rw [lookup_put_of_ne db (v := .inode i) hs]
      exact .kept fun _ hm ↦ hs ((List.mem_singleton.mp hm).trans hp.symm)
  | @putBatch rs is own =>
    rw [lookup_write_last]
    rcases forall₂_last own (fun r i h ↦ (putInode_kind h).1) path with
      ⟨hnone, hm⟩ | ⟨r, i, hr, hi, hri⟩
    · rw [hnone, Option.none_or]
      exact .kept fun _ hown ↦ hm (Request.own_putBatch rs ▸ hown)
    · rw [hi, Option.some_or]
      exact .stored hr hri
  | @putOk r j _ given found valid file linked =>
    have hj := fullpath_of_lookup found
    rcases linked.cases path with ⟨hp, hl⟩ | ⟨hs, hp, i, hi, hl⟩ | ⟨hs, -, hl⟩
    · rw [hl]
      have hp : path = simplifyPath r.path := hp.trans hj
      exact .committed hp.symm (hp ▸ found) valid file
    · rw [hl]
      have hs : path ≠ j.fullpath.str := hs
      have hp : path = getParentPath j.fullpath.str := hp
      rw [hj] at hs hp
      exact .entered hi (List.mem_singleton.mpr hp) fun hm ↦ absurd (List.mem_singleton.mp hm) hs
    · rw [hl]
      have hs : path ≠ j.fullpath.str := hs
      rw [hj] at hs
      exact .kept fun _ hm ↦ hs (List.mem_singleton.mp hm)
  | @putOkBatch rs is agg mid _ accepted own effect plain =>
    by_cases hid : path = agg.id
    · subst hid
      have hf : (mid.put (.agg agg)).find agg.id = some (.agg agg) := mid.find_put_self (.agg agg)
      have hnone : lookup (mid.put (.agg agg)) agg.id = none := by rw [lookup, hf]
      rw [hnone]
      exact .shadowed accepted rfl
    rw [lookup_put_of_ne mid (v := .agg agg) hid]
    rcases effect with ⟨rfl, hbatch⟩ | ⟨rfl, rfl⟩
    · exact changed_of_batch accepted own (internalPutOkBatch_ok hbatch) path
    · exact .kept (by simp)
  | @updateLock paths is _ own =>
    rcases lookup_write_cases db is path with ⟨i, hi, hpath, hl⟩ | ⟨-, hl⟩
    · obtain ⟨p, -, j, hj, hv, rfl⟩ := own i hi
      have hpath : simplifyPath p = path := (fullpath_of_lookup hj).symm.trans hpath
      rw [hl]
      exact .refreshed (hpath ▸ hj) hv
    · rw [hl]
      refine .kept fun _ hm ↦ ?_
      cases hm

end Spkdfs
