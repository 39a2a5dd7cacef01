import Spkdfs.Node.Members

namespace Spkdfs

open Library RocksDB

variable {db db' : RocksDB} {env : Env} {e : Entry}

/-- What the entry writes besides directories has a key. -/
def Entry.Located : Entry → Prop
  | .opMkdir i | .opPut i | .opPutOk i | .opRm i => i.fullpath.str ≠ []
  | .opPutBatch is | .opPutOkBatch is => ∀ i ∈ is, i.fullpath.str ≠ []
  | .opPutAgg agg => agg.id ≠ []

theorem Namenode.putInode_located {now : Nat} {req : NNPutRequest} {i : Inode}
    (h : putInode db now req = .ok i) : i.fullpath.str ≠ [] := by
  obtain ⟨hp, j, hj, -, -, rfl⟩ := putInode_eq_ok.mp h
  obtain ⟨f, hf, -, -, rfl⟩ := preparePut_eq_ok.mp hj
  have hpath := congrArg FullPath.str (fullpath_of_getInode hf)
  show f.fullpath.str ≠ []
  rw [hpath]
  exact simplifyPath_ne_nil hp

theorem Namenode.putOkInode_located {req : NNPutOKRequest} {i : Inode}
    (h : putOkInode db req = .ok i) : i.fullpath.str ≠ [] := by
  obtain ⟨hp, j, hj, rfl⟩ := putOkInode_eq_ok.mp h
  obtain ⟨hf, -, -⟩ := preparePutOk_eq_ok.mp hj
  show j.fullpath.str ≠ []
  rw [fullpath_of_lookup hf]
  exact simplifyPath_ne_nil hp

theorem lookup_nil_of_find (hdb : db.find [] = none) : lookup db [] = none := by
  have hroot : ([] : Str) ≠ root := by decide
  rw [lookup, hdb]
  exact if_neg hroot

theorem Namenode.prepare_located (hdb : db.find [] = none) (req : Request) :
    ∀ entry ∈ (prepare db env req).1, entry.Located := by
  intro entry hentry
  cases req with
  | mkdir path =>
    obtain ⟨entries, hx, hm⟩ := mem_proposed hentry
    obtain ⟨-, -, -, rfl⟩ := mkdir_eq_ok.mp hx
    obtain rfl := List.mem_singleton.mp hm
    refine simplifyPath_ne_nil fun hnil ↦ ?_
    have hhead := head_mkdirPath path
    rw [hnil] at hhead
    cases hhead
  | rm path =>
    obtain ⟨entries, hx, hm⟩ := mem_proposed hentry
    obtain ⟨hp, -, rfl⟩ := rm_eq_ok.mp hx
    obtain rfl := List.mem_singleton.mp hm
    exact simplifyPath_ne_nil hp
  | put req =>
    obtain ⟨entries, hx, hm⟩ := mem_proposed hentry
    obtain ⟨i, hi, rfl⟩ := put_eq_ok.mp hx
    obtain rfl := List.mem_singleton.mp hm
    exact putInode_located hi
  | putBatch reqs =>
    obtain ⟨entries, hx, hm⟩ := mem_proposed hentry
    obtain ⟨is, his, rfl⟩ := putBatch_eq_ok.mp hx
    obtain rfl := List.mem_singleton.mp hm
    intro i hi
    obtain ⟨req, -, hri⟩ := forall₂_mem_right his hi
    exact putInode_located hri
  | putOk req =>
    obtain ⟨entries, hx, hm⟩ := mem_proposed hentry
    obtain ⟨i, hi, rfl⟩ := putOk_eq_ok.mp hx
    obtain rfl := List.mem_singleton.mp hm
    exact putOkInode_located hi
  | putOkBatch reqs =>
    obtain ⟨entries, hx, hm⟩ := mem_proposed hentry
    obtain ⟨is, agg, his, -, rfl⟩ := putOkBatch_ok hx
    rcases List.mem_cons.mp hm with rfl | hm
    · intro i hi
      obtain ⟨req, -, j, hj, rfl⟩ := forall₂_mem_right his hi
      show j.fullpath.str ≠ []
      exact putOkInode_located hj
    · obtain rfl := List.mem_singleton.mp hm
      exact putOkBatch_id_ne_nil hx
  | updateLock paths =>
    obtain ⟨is, his, hall⟩ := updateLock_eq db env.now paths
    rw [prepare, his] at hentry
    obtain ⟨i, hi, rfl⟩ := List.mem_map.mp hentry
    obtain ⟨p, -, j, hj, -, rfl⟩ := hall i hi
    show j.fullpath.str ≠ []
    intro hnil
    rw [fullpath_of_lookup hj] at hnil
    rw [hnil, lookup_nil_of_find hdb] at hj
    cases hj

theorem RocksDB.Linked.find_nil {own : Inode} {names : List Str → List Str}
    (h : Linked db own names db') (hown : own.fullpath.str ≠ []) (hdb : db.find [] = none) :
    db'.find [] = none := by
  have hparent : own.parentPath ≠ [] := by
    intro hnil
    obtain ⟨parent, hp, -⟩ := h
    rw [hnil, lookup_nil_of_find hdb] at hp
    cases hp
  rw [h.find_other (Ne.symm hown) (Ne.symm hparent), hdb]

/-- Nothing is ever kept under the empty path. -/
theorem Entry.Located.applyOp (he : e.Located) (hdb : db.find [] = none)
    (h : RaftNN.applyOp db e = .ok db') : db'.find [] = none := by
  cases e with
  | opMkdir i => exact (internalMkdir_eq_ok.mp h).find_nil he hdb
  | opPut i =>
    rw [← Except.ok.inj h]
    exact (db.find_put_of_ne (v := .inode i) (Ne.symm he)).trans hdb
  | opPutOk i =>
    obtain ⟨c, hc, hlinked⟩ := internalPutOk_eq_ok.mp h
    have hpath := fullpath_of_commit hc
    exact hlinked.find_nil (by rw [hpath]; exact he) hdb
  | opPutBatch is =>
    rw [← Except.ok.inj h]
    refine (db.find_write_of_notMem fun hm ↦ ?_).trans hdb
    rw [List.map_map] at hm
    obtain ⟨i, hi, hpath⟩ := List.mem_map.mp hm
    exact he i hi hpath
  | opPutOkBatch is =>
    have heffect := internalPutOkBatch_ok h
    refine (heffect.other [] (fun i hi hnil ↦ ?_) he).trans hdb
    obtain ⟨p, hp, -⟩ := heffect.parent i hi
    rw [hnil, lookup_nil_of_find hdb] at hp
    cases hp
  | opPutAgg agg =>
    rw [← Except.ok.inj h]
    exact (db.find_put_of_ne (v := .agg agg) (Ne.symm he)).trans hdb
  | opRm i => exact (internalRm_ok h).find_nil he hdb

/-- The parent of a member of a batch is found, and nothing is stored under the empty path. -/
theorem slash_of_members {mid : RocksDB} {reqs : List NNPutOKRequest} {is : List Inode} {id : Str}
    {r : NNPutOKRequest} (hmembers : List.Forall₂ (fun req i ↦ ∃ j,
      Namenode.putOkInode db req = .ok j ∧ i = { j with aggInodeId := id }) reqs is)
    (hnil : mid.find [] = none) (happly : internalPutOkBatch mid is = .ok db') (hr : r ∈ reqs) :
    '/' ∈ simplifyPath r.path := by
  obtain ⟨i, hi, j, hj, rfl⟩ := forall₂_mem_left hmembers hr
  obtain ⟨p, hp, -⟩ := (internalPutOkBatch_ok happly).parent _ hi
  by_contra hslash
  have hparent : getParentPath (simplifyPath r.path) = [] := getParentPath_of_notMem hslash
  rw [Inode.parentPath, (putOk_member ⟨j, hj, rfl⟩).1, hparent, lookup_nil_of_find hnil] at hp
  cases hp

namespace Leader

variable {l l' : Leader} {guard : Leader → Action → Prop} {during : List Action} {req : Request}

theorem located_of_reaches {myIp : Str} {now : Nat} (h : Reaches step guard (start myIp now) l) :
    l.store.find [] = none ∧ ∀ q ∈ l.pending, q.entry.Located := by
  induction h with
  | refl => exact ⟨rfl, fun q hq ↦ by cases hq⟩
  | @tail t u a _ _ hs ih =>
    obtain ⟨hdb, hpending⟩ := ih
    cases a with
    | tick seconds =>
      obtain rfl := Option.some.inj hs
      exact ⟨hdb, hpending⟩
    | prepare millis req =>
      obtain rfl := Option.some.inj hs
      refine ⟨hdb, fun q hq ↦ (List.mem_append.mp hq).elim (hpending q) fun hq ↦ ?_⟩
      obtain ⟨entry, hentry, rfl⟩ := List.mem_map.mp hq
      exact Namenode.prepare_located hdb req entry hentry
    | apply =>
      obtain ⟨p, rest, answer, hpend, happly, hrest, -⟩ := step_apply hs
      rw [hpend] at hpending
      refine ⟨?_, fun q hq ↦ hpending q (List.mem_cons_of_mem _ (hrest ▸ hq))⟩
      cases answer with
      | success =>
        exact (hpending p List.mem_cons_self).applyOp hdb (onApply_eq_success.mp happly)
      | failure fault =>
        obtain ⟨-, -, hsame⟩ := onApply_eq_failure.mp happly
        rw [hsame, hdb]

/-- Every entry was applied in a state on the way. -/
theorem applied_at (h : Reaches step guard l l') {k : Nat} {record : Record}
    (hk : l'.applied[k]? = some record) (hle : l.applied.length ≤ k) :
    ∃ t db, Reaches step guard l t ∧
      RaftNN.onApply t.store record.proposal.entry = some (db, record.answer) := by
  induction h with
  | refl =>
    obtain ⟨hlt, -⟩ := List.getElem?_eq_some_iff.mp hk
    omega
  | @tail t u a hr _ hs ih =>
    cases a with
    | tick seconds =>
      obtain rfl := Option.some.inj hs
      exact ih hk
    | prepare millis req =>
      obtain rfl := Option.some.inj hs
      exact ih hk
    | apply =>
      obtain ⟨p, rest, answer, -, happly, -, happlied, -⟩ := step_apply hs
      rw [happlied] at hk
      by_cases hold : k < t.applied.length
      · rw [List.getElem?_append_left hold] at hk
        exact ih hk
      · obtain ⟨hlt, hrecord⟩ := List.getElem?_eq_some_iff.mp hk
        rw [List.length_append, List.length_singleton] at hlt
        obtain rfl : k = t.applied.length := by omega
        rw [List.getElem_concat_length rfl] at hrecord
        rw [← hrecord]
        exact ⟨t, _, hr, happly⟩

/-- Where the entry of a request was applied that succeeded. -/
theorem applied_of_rpc {entry : Entry} {more : List Entry}
    (hreq : (Namenode.prepare l.store (l.env 0) req).1 = e :: more)
    (h : l.rpc req during = some (.ok entry, l')) :
    ∃ t db, Reaches step (fun _ _ ↦ True) l t ∧ RaftNN.applyOp t.store e = .ok db := by
  simp only [rpc, step, Option.bind_some] at h
  split at h
  · cases h
  simp only [Option.bind_eq_some_iff, Option.map_eq_some_iff, Prod.mk.injEq] at h
  obtain ⟨l₂, hrun, record, hrecord, hok, rfl⟩ := h
  have hprepare : Reaches step (fun _ _ ↦ True) l
      { l with pending := l.pending ++ l.proposals 0 req } :=
    Reaches.refl.tail (a := .prepare 0 req) trivial rfl
  have hreach := (reaches_of_run .refl hrun).mono fun _ _ _ ↦ trivial
  have hentry : record.proposal.entry = e := by
    have hlog := log_of_reaches hreach
    rw [log_prepare] at hlog
    have hp : l.proposals 0 req = ⟨e, req, l.now⟩ :: more.map fun entry ↦ ⟨entry, req, l.now⟩ := by
      rw [proposals, hreq]
      rfl
    rw [proposal_at hlog hp hrecord]
  have hle : l.applied.length ≤ l.log.length := by simp [log]
  obtain ⟨t, db, ht, happly⟩ := applied_at hreach hrecord hle
  rw [hentry] at happly
  refine ⟨t, db, hprepare.trans ht, ?_⟩
  cases hanswer : record.answer with
  | failure fault =>
    rw [hanswer] at hok
    cases hok
  | success =>
    rw [hanswer] at happly
    exact onApply_eq_success.mp happly

/-- A path without a directory cannot be committed: its parent is never found. -/
theorem slash_of_rpc_putOkBatch {myIp : Str} {now : Nat} {reqs : List NNPutOKRequest}
    {entry : Entry} {r : NNPutOKRequest} (hleader : Reaches step (fun _ _ ↦ True) (start myIp now) l)
    (h : l.rpc (.putOkBatch reqs) during = some (.ok entry, l')) (hr : r ∈ reqs) :
    '/' ∈ simplifyPath r.path := by
  cases hput : Namenode.putOkBatch l.store (l.env 0) reqs with
  | error fault => simp [rpc, step, Namenode.prepare, Namenode.proposed, hput] at h
  | ok es =>
    obtain ⟨is, agg, hmembers, -, rfl⟩ := Namenode.putOkBatch_ok hput
    have hreq : (Namenode.prepare l.store (l.env 0) (.putOkBatch reqs)).1 =
        [.opPutOkBatch is, .opPutAgg agg] := by simp [Namenode.prepare, Namenode.proposed, hput]
    obtain ⟨t, db, ht, happly⟩ := applied_of_rpc hreq h
    exact slash_of_members hmembers (located_of_reaches (hleader.trans ht)).1 happly hr

end Leader

end Spkdfs
