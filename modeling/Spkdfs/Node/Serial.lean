import Spkdfs.Library.Runs
import Spkdfs.Node.Handlers

namespace Spkdfs

open Library RocksDB

structure Call where
  env : Env
  request : Request
deriving DecidableEq

def Call.at (now : Nat) (request : Request) : Call := ⟨⟨"10.0.0.1".toList, now, 0⟩, request⟩

def applyAll (db : RocksDB) : List Entry → Option (RocksDB × List Answer)
  | [] => some (db, [])
  | entry :: entries =>
    (RaftNN.onApply db entry).bind fun (db, answer) ↦
      (applyAll db entries).map fun (db, answers) ↦ (db, answer :: answers)

/-- One request executed alone: its entries are applied before another one is prepared. -/
def serveAnswered (db : RocksDB) (call : Call) : Option (RocksDB × List Answer) :=
  applyAll db (Namenode.prepare db call.env call.request).1

def serve (db : RocksDB) (call : Call) : Option RocksDB := (serveAnswered db call).map (·.1)

variable {db db' : RocksDB} {call : Call}

theorem onApply_eq_success {e : Entry} :
    RaftNN.onApply db e = some (db', .success) ↔ RaftNN.applyOp db e = .ok db' := by
  unfold RaftNN.onApply
  split
  · rename_i h
    simp [h]
  · rename_i h
    simp [h]
  · rename_i h
    simp [h]

theorem onApply_eq_failure {e : Entry} {f : Fault} :
    RaftNN.onApply db e = some (db', .failure f) ↔
      RaftNN.applyOp db e = .error f ∧ f ≠ .assertion ∧ db' = db := by
  unfold RaftNN.onApply
  split
  · rename_i h
    simp [h]
  · rename_i h
    rw [h]
    constructor
    · intro hn
      cases hn
    · rintro ⟨he, hf, -⟩
      exact absurd (Except.error.inj he).symm hf
  · rename_i g hne h
    rw [h]
    simp only [Option.some.injEq, Prod.mk.injEq, Answer.failure.injEq, Except.error.injEq]
    constructor
    · rintro ⟨rfl, rfl⟩
      exact ⟨rfl, hne, rfl⟩
    · rintro ⟨rfl, -, rfl⟩
      exact ⟨rfl, rfl⟩

/-- What the request executed alone does to the store. The flag tells whether its first
entry was applied with success. -/
inductive Served (db : RocksDB) (env : Env) : Request → Bool → RocksDB → Prop
  | refused (req : Request) : Served db env req false db
  | mkdir {path : Str} {db' : RocksDB} (given : path ≠ [])
      (parent : pathExists db (Inode.getDefaultDir (Namenode.mkdirPath path)).parentPath = .ok true)
      (fresh : pathExists db (simplifyPath (Namenode.mkdirPath path)) = .ok false)
      (linked : Linked db (.getDefaultDir (Namenode.mkdirPath path))
        (addName · (Inode.getDefaultDir (Namenode.mkdirPath path)).filename) db') :
      Served db env (.mkdir path) true db'
  | rm {path : Str} {db' : RocksDB} (given : path ≠ [])
      (found : pathExists db (simplifyPath path) = .ok true)
      (linked : Linked db (.ofPath path) (removeName · (Inode.ofPath path).filename) db') :
      Served db env (.rm path) true db'
  | put {req : NNPutRequest} {i : Inode} (own : Namenode.putInode db env.now req = .ok i) :
      Served db env (.put req) true (db.put (.inode i))
  | putBatch {reqs : List NNPutRequest} {is : List Inode}
      (own : List.Forall₂ (fun req i ↦ Namenode.putInode db env.now req = .ok i) reqs is) :
      Served db env (.putBatch reqs) true (db.write (is.map .inode))
  | putOk {req : NNPutOKRequest} {j : Inode} {db' : RocksDB} (given : req.path ≠ [])
      (found : lookup db (simplifyPath req.path) = some j) (valid : j.valid = true)
      (file : j.isDirectory = false)
      (linked : Linked db { j with ddlLock := 0, sub := req.sub, filesize := req.filesize }
        (addName · j.filename) db') :
      Served db env (.putOk req) true db'
  | putOkBatch {reqs : List NNPutOKRequest} {is : List Inode} {agg : AggInode} {mid : RocksDB}
      {ok : Bool}
      (accepted : Namenode.putOkBatch db env reqs = .ok [.opPutOkBatch is, .opPutAgg agg])
      (own : List.Forall₂ (fun req i ↦ ∃ j, Namenode.putOkInode db req = .ok j ∧
        i = { j with aggInodeId := agg.id }) reqs is)
      (effect : ok = true ∧ internalPutOkBatch db is = .ok mid ∨ ok = false ∧ mid = db)
      (plain : '/' ∉ agg.id) :
      Served db env (.putOkBatch reqs) ok (mid.put (.agg agg))
  | updateLock {paths : List Str} {is : List Inode} {ok : Bool}
      (own : ∀ i ∈ is, ∃ p ∈ paths, ∃ j, lookup db (simplifyPath p) = some j ∧ j.valid = true ∧
        i = j.updateDdlLock env.now) :
      Served db env (.updateLock paths) ok (db.write (is.map .inode))

variable {answers : List Answer}

theorem applyAll_singleton {e : Entry} :
    applyAll db [e] = some (db', answers) ↔
      ∃ a, RaftNN.onApply db e = some (db', a) ∧ answers = [a] := by
  simp only [applyAll, Option.map_some, Option.bind_eq_some_iff, Option.some.injEq, Prod.mk.injEq,
    Prod.exists]
  constructor
  · rintro ⟨db₁, a, ha, rfl, rfl⟩
    exact ⟨a, ha, rfl⟩
  · rintro ⟨a, ha, rfl⟩
    exact ⟨db', a, ha, rfl, rfl⟩

theorem applyAll_proposed {x : Except Fault (List Entry)}
    (hx : ∀ es, x = .ok es → ∃ e, es = [e])
    (h : applyAll db (Namenode.proposed x).1 = some (db', answers)) :
    answers.head? ≠ some .success ∧ db' = db ∨
      answers.head? = some .success ∧ ∃ e, x = .ok [e] ∧ RaftNN.applyOp db e = .ok db' := by
  cases x with
  | error f =>
    simp only [Namenode.proposed, applyAll, Option.some.injEq, Prod.mk.injEq] at h
    obtain ⟨rfl, rfl⟩ := h
    exact .inl ⟨by simp, rfl⟩
  | ok es =>
    obtain ⟨e, rfl⟩ := hx es rfl
    obtain ⟨a, ha, rfl⟩ := applyAll_singleton.mp h
    cases a with
    | success => exact .inr ⟨rfl, e, rfl, onApply_eq_success.mp ha⟩
    | failure f => exact .inl ⟨by simp, (onApply_eq_failure.mp ha).2.2⟩

theorem applyAll_opPut {is : List Inode} {es : List Entry} (he : es = is.map .opPut)
    (h : applyAll db es = some (db', answers)) : db' = db.write (is.map .inode) := by
  subst he
  induction is generalizing db answers with
  | nil =>
    simp only [List.map_nil, applyAll, Option.some.injEq, Prod.mk.injEq] at h
    exact h.1.symm
  | cons i is ih =>
    have hi : RaftNN.onApply db (.opPut i) = some (db.put (.inode i), .success) := rfl
    simp only [List.map_cons, applyAll, hi, Option.bind_some, Option.map_eq_some_iff] at h
    obtain ⟨⟨db₁, as⟩, hrest, he⟩ := h
    obtain ⟨rfl, -⟩ := Prod.mk.inj he
    exact ih hrest

theorem commit_of_lookup {path : Str} {j c : Inode} {sub : List Str} {filesize : Nat}
    (hl : lookup db (simplifyPath path) = some j)
    (hc : commit db { j with sub := sub, filesize := filesize } = .ok c) :
    c = { j with ddlLock := 0, sub := sub, filesize := filesize } := by
  obtain ⟨f, hf, rfl⟩ := commit_eq_ok.mp hc
  have hp : simplifyPath j.fullpath.str = simplifyPath path := by
    rw [j.fullpath.simplified, fullpath_of_lookup hl]
  rcases getInode_eq_ok.mp hf with h | ⟨h, hr, -⟩
  · rw [hp, hl] at h
    obtain rfl := Option.some.inj h
    rfl
  · rw [hp] at h hr
    simp [lookup, h, hr] at hl

theorem served_of_serveAnswered (h : serveAnswered db call = some (db', answers)) :
    Served db call.env call.request (answers.head? = some .success) db' := by
  obtain ⟨env, req⟩ := call
  unfold serveAnswered at h
  cases req with
  | mkdir path =>
    rcases applyAll_proposed (fun es he ↦ ⟨_, (Namenode.mkdir_eq_ok.mp he).2.2.2⟩) h with
      ⟨hs, rfl⟩ | ⟨hs, e, he, hop⟩
    · simpa [hs] using Served.refused (.mkdir path)
    · obtain ⟨hg, hp, hf, hes⟩ := Namenode.mkdir_eq_ok.mp he
      obtain rfl : e = _ := by simpa using hes
      simpa [hs] using Served.mkdir hg hp hf (internalMkdir_eq_ok.mp hop)
  | rm path =>
    rcases applyAll_proposed (fun es he ↦ ⟨_, (Namenode.rm_eq_ok.mp he).2.2⟩) h with
      ⟨hs, rfl⟩ | ⟨hs, e, he, hop⟩
    · simpa [hs] using Served.refused (.rm path)
    · obtain ⟨hg, hf, hes⟩ := Namenode.rm_eq_ok.mp he
      obtain rfl : e = _ := by simpa using hes
      simpa [hs] using Served.rm hg hf (internalRm_ok hop)
  | put req =>
    rcases applyAll_proposed (fun es he ↦ ⟨_, (Namenode.put_eq_ok.mp he).choose_spec.2⟩) h with
      ⟨hs, rfl⟩ | ⟨hs, e, he, hop⟩
    · simpa [hs] using Served.refused (.put req)
    · obtain ⟨i, hi, hes⟩ := Namenode.put_eq_ok.mp he
      obtain rfl : e = _ := by simpa using hes
      obtain rfl := Except.ok.inj hop
      simpa [hs] using Served.put hi
  | putBatch reqs =>
    rcases applyAll_proposed (fun es he ↦ ⟨_, (Namenode.putBatch_eq_ok.mp he).choose_spec.2⟩) h with
      ⟨hs, rfl⟩ | ⟨hs, e, he, hop⟩
    · simpa [hs] using Served.refused (.putBatch reqs)
    · obtain ⟨is, his, hes⟩ := Namenode.putBatch_eq_ok.mp he
      obtain rfl : e = _ := by simpa using hes
      obtain rfl := Except.ok.inj hop
      simpa [hs] using Served.putBatch his
  | putOk req =>
    rcases applyAll_proposed (fun es he ↦ ⟨_, (Namenode.putOk_eq_ok.mp he).choose_spec.2⟩) h with
      ⟨hs, rfl⟩ | ⟨hs, e, he, hop⟩
    · simpa [hs] using Served.refused (.putOk req)
    · obtain ⟨i, hi, hes⟩ := Namenode.putOk_eq_ok.mp he
      obtain rfl : e = _ := by simpa using hes
      obtain ⟨hg, j, hj, rfl⟩ := Namenode.putOkInode_eq_ok.mp hi
      obtain ⟨hl, hv, hd⟩ := preparePutOk_eq_ok.mp hj
      obtain ⟨c, hc, hlink⟩ := internalPutOk_eq_ok.mp hop
      obtain rfl := commit_of_lookup hl hc
      simpa [hs] using Served.putOk hg hl hv hd hlink
  | putOkBatch reqs =>
    simp only [Namenode.prepare] at h
    cases hx : Namenode.putOkBatch db env reqs with
    | error f =>
      simp only [hx, Namenode.proposed, applyAll, Option.some.injEq, Prod.mk.injEq] at h
      obtain ⟨rfl, rfl⟩ := h
      simpa using Served.refused (.putOkBatch reqs)
    | ok es =>
      obtain ⟨is, agg, his, hplain, rfl⟩ := Namenode.putOkBatch_ok hx
      simp only [hx, Namenode.proposed, applyAll, Option.bind_eq_some_iff] at h
      obtain ⟨⟨mid, a⟩, hmid, h⟩ := h
      have hagg : RaftNN.onApply mid (.opPutAgg agg) = some (mid.put (.agg agg), .success) := rfl
      simp only [hagg, Option.bind_some, Option.map_some, Option.some.injEq, Prod.mk.injEq] at h
      obtain ⟨rfl, rfl⟩ := h
      refine .putOkBatch hx his ?_ hplain
      cases a with
      | success => exact .inl ⟨by simp, onApply_eq_success.mp hmid⟩
      | failure f => exact .inr ⟨by simp, (onApply_eq_failure.mp hmid).2.2⟩
  | updateLock paths =>
    obtain ⟨is, he, his⟩ := Namenode.updateLock_eq db env.now paths
    rw [applyAll_opPut he h]
    exact .updateLock his

theorem served_of_serve (h : serve db call = some db') :
    ∃ ok, Served db call.env call.request ok db' := by
  simp only [serve, Option.map_eq_some_iff] at h
  obtain ⟨⟨db₁, answers⟩, h, rfl⟩ := h
  exact ⟨_, served_of_serveAnswered h⟩

end Spkdfs
