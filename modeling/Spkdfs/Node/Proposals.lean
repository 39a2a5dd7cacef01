import Spkdfs.Node.Leader

namespace Spkdfs

open Library RocksDB

/-- Directories are at absolute paths, and nothing is stored under the empty path. -/
structure RocksDB.Regular (db : RocksDB) : Prop where
  absolute : ∀ d, kindAt db d = some .dir → d.head? = some '/'
  nonempty : lookup db [] = none

/-- The shape of the entries that the handlers propose. -/
def Entry.WellFormed : Entry → Prop
  | .opMkdir i => i.fullpath.str ≠ root ∧ ∃ path, path.head? = some '/' ∧ i = .getDefaultDir path
  | .opPut i => i.fullpath.str ≠ [] ∧ i.valid = true ∧ (i.isDirectory = true → i.fullpath.Absolute)
  | .opPutOk i => i.fullpath.str ≠ [] ∧ i.isDirectory = false
  | .opPutBatch is => ∀ i ∈ is, i.fullpath.str ≠ [] ∧ i.valid = true ∧ i.isDirectory = false
  | .opPutOkBatch is => ∀ i ∈ is, i.fullpath.str ≠ [] ∧ i.isDirectory = false
  | .opPutAgg agg => '/' ∉ agg.id
  | .opRm i => i.fullpath.str ≠ [] ∧ ∃ path, i = .ofPath path

variable {db db' : RocksDB} {env : Env} {req : Request} {e : Entry}

theorem putOkInode_wellFormed {r : NNPutOKRequest} {i : Inode}
    (h : Namenode.putOkInode db r = .ok i) : i.fullpath.str ≠ [] ∧ i.isDirectory = false := by
  obtain ⟨hg, j, hj, rfl⟩ := Namenode.putOkInode_eq_ok.mp h
  obtain ⟨hl, -, hd⟩ := preparePutOk_eq_ok.mp hj
  refine ⟨?_, hd⟩
  have hp : j.fullpath.str = simplifyPath r.path := fullpath_of_lookup hl
  simp only [hp]
  exact simplifyPath_ne_nil hg

theorem putInode_wellFormed {now : Nat} {r : NNPutRequest} {i : Inode}
    (h : Namenode.putInode db now r = .ok i) :
    i.fullpath.str ≠ [] ∧ i.valid = true ∧ i.isDirectory = false := by
  have hp := (putInode_kind h).1
  obtain ⟨hg, j, hj, t, -, rfl⟩ := Namenode.putInode_eq_ok.mp h
  obtain ⟨f, -, -, -, rfl⟩ := preparePut_eq_ok.mp hj
  exact ⟨hp ▸ simplifyPath_ne_nil hg, rfl, rfl⟩

theorem wellFormed_of_prepare (hdb : db.Regular) (h : e ∈ (Namenode.prepare db env req).1) :
    e.WellFormed := by
  cases req with
  | mkdir path =>
    obtain ⟨es, hes, he⟩ := Namenode.mem_proposed h
    obtain ⟨-, -, hf, rfl⟩ := Namenode.mkdir_eq_ok.mp hes
    obtain rfl := List.mem_singleton.mp he
    exact ⟨(pathExists_eq_false.mp hf).1, _, Namenode.head_mkdirPath path, rfl⟩
  | rm path =>
    obtain ⟨es, hes, he⟩ := Namenode.mem_proposed h
    obtain ⟨hg, -, rfl⟩ := Namenode.rm_eq_ok.mp hes
    obtain rfl := List.mem_singleton.mp he
    exact ⟨simplifyPath_ne_nil hg, path, rfl⟩
  | put r =>
    obtain ⟨es, hes, he⟩ := Namenode.mem_proposed h
    obtain ⟨i, hi, rfl⟩ := Namenode.put_eq_ok.mp hes
    obtain rfl := List.mem_singleton.mp he
    obtain ⟨hn, hv, hd⟩ := putInode_wellFormed hi
    exact ⟨hn, hv, by simp [hd]⟩
  | putBatch rs =>
    obtain ⟨es, hes, he⟩ := Namenode.mem_proposed h
    obtain ⟨is, his, rfl⟩ := Namenode.putBatch_eq_ok.mp hes
    obtain rfl := List.mem_singleton.mp he
    intro i hi
    obtain ⟨r, -, hri⟩ := forall₂_mem_right his hi
    exact putInode_wellFormed hri
  | putOk r =>
    obtain ⟨es, hes, he⟩ := Namenode.mem_proposed h
    obtain ⟨i, hi, rfl⟩ := Namenode.putOk_eq_ok.mp hes
    obtain rfl := List.mem_singleton.mp he
    exact putOkInode_wellFormed hi
  | putOkBatch rs =>
    obtain ⟨es, hes, he⟩ := Namenode.mem_proposed h
    obtain ⟨is, agg, his, hplain, rfl⟩ := Namenode.putOkBatch_ok hes
    simp only [List.mem_cons, List.not_mem_nil, or_false] at he
    rcases he with rfl | rfl
    · intro i hi
      obtain ⟨r, -, j, hj, rfl⟩ := forall₂_mem_right his hi
      have hwf := putOkInode_wellFormed hj
      exact hwf
    · exact hplain
  | updateLock paths =>
    obtain ⟨is, hes, his⟩ := Namenode.updateLock_eq db env.now paths
    simp only [Namenode.prepare, hes, List.mem_map] at h
    obtain ⟨i, hi, rfl⟩ := h
    obtain ⟨p, -, j, hj, hv, rfl⟩ := his i hi
    have hp := fullpath_of_lookup hj
    refine ⟨fun hn ↦ ?_, hv, fun hd ↦ ?_⟩
    · have hn : j.fullpath.str = [] := hn
      rw [← hp, hn, hdb.nonempty] at hj
      cases hj
    · have hk : kindAt db j.fullpath.str = some .dir := dirAt_iff.mp ⟨j, hp ▸ hj, hv, hd⟩
      exact hdb.absolute _ hk

def Entry.retype (kinds : Str → Option Kind) (path : Str) : Entry → Option Kind
  | .opMkdir i | .opPut i | .opRm i => if path = i.fullpath.str then i.kind else kinds path
  | .opPutBatch is => ((is.filter (·.fullpath.str = path)).getLast?).elim (kinds path) Inode.kind
  | .opPutAgg agg => if path = agg.id then none else kinds path
  | .opPutOk _ | .opPutOkBatch _ => kinds path

theorem kindAt_writeBatch (db : RocksDB) (is : List Inode) (path : Str) :
    kindAt (db.write (is.map .inode)) path =
      ((is.filter (·.fullpath.str = path)).getLast?).elim (kindAt db path) Inode.kind := by
  rw [kindAt, lookup, db.find_write, List.filter_map, List.getLast?_map]
  have hkey : ((fun v : Value ↦ decide (v.key = path)) ∘ Value.inode) =
      fun i : Inode ↦ decide (i.fullpath.str = path) := rfl
  rw [hkey]
  cases (is.filter (·.fullpath.str = path)).getLast? with
  | none => rfl
  | some i => rfl

theorem kindAt_of_applyOp (h : RaftNN.applyOp db e = .ok db') (path : Str) :
    kindAt db' path = e.retype (kindAt db) path := by
  cases e with
  | opMkdir i => rw [(internalMkdir_eq_ok.mp h).kindAt, Function.update_apply, Entry.retype]
  | opPut i =>
    obtain rfl := Except.ok.inj h
    rw [Table.write_cons, Table.write_nil, kindAt_put, Function.update_apply, Entry.retype]
  | opPutOk i =>
    obtain ⟨c, hc, hl⟩ := internalPutOk_eq_ok.mp h
    rw [hl.kindAt, kind_of_commit hc, fullpath_of_commit hc, Function.update_eq_self, Entry.retype]
  | opPutBatch is =>
    obtain rfl := Except.ok.inj h
    exact kindAt_writeBatch db is path
  | opPutOkBatch is => rw [(internalPutOkBatch_ok h).kindAt, Entry.retype]
  | opPutAgg agg =>
    obtain rfl := Except.ok.inj h
    rw [Table.write_cons, Table.write_nil, kindAt_putAgg, Function.update_apply, Entry.retype]
  | opRm i => rw [(internalRm_ok h).kindAt, Function.update_apply, Entry.retype]

theorem RocksDB.Linked.lookup_nil {own : Inode} {names : List Str → List Str}
    (h : Linked db own names db') (hown : own.fullpath.str ≠ []) (hn : lookup db [] = none) :
    lookup db' [] = none := by
  refine (h.lookup_other hown.symm fun hp ↦ ?_).trans hn
  obtain ⟨parent, hl, -⟩ := h
  rw [← hp, hn] at hl
  cases hl

theorem RocksDB.Regular.applyOp (hdb : db.Regular) (he : e.WellFormed)
    (h : RaftNN.applyOp db e = .ok db') : db'.Regular := by
  refine ⟨fun d hd ↦ ?_, ?_⟩
  · rw [kindAt_of_applyOp h] at hd
    cases e with
    | opMkdir i =>
      obtain ⟨-, path, ha, rfl⟩ := he
      simp only [Entry.retype] at hd
      split at hd
      · rename_i hp
        rw [hp]
        exact FullPath.absolute_ofStr ha
      · exact hdb.absolute d hd
    | opPut i =>
      simp only [Entry.retype] at hd
      split at hd
      · rename_i hp
        rw [hp]
        refine he.2.2 ?_
        unfold Inode.kind at hd
        split at hd
        · cases hi : i.isDirectory with
          | true => rfl
          | false => simp [hi] at hd
        · cases hd
      · exact hdb.absolute d hd
    | opPutOk i => exact hdb.absolute d hd
    | opPutBatch is =>
      simp only [Entry.retype] at hd
      cases hlast : (is.filter (·.fullpath.str = d)).getLast? with
      | none =>
        rw [hlast] at hd
        exact hdb.absolute d hd
      | some i =>
        obtain ⟨-, hv, hdir⟩ := he i (of_getLast?_filter hlast).1
        simp [hlast, Inode.kind, hv, hdir] at hd
    | opPutOkBatch is => exact hdb.absolute d hd
    | opPutAgg agg =>
      simp only [Entry.retype] at hd
      split at hd
      · cases hd
      · exact hdb.absolute d hd
    | opRm i =>
      obtain ⟨-, path, rfl⟩ := he
      simp only [Entry.retype] at hd
      split at hd
      · cases hd
      · exact hdb.absolute d hd
  · cases e with
    | opMkdir i =>
      obtain ⟨-, path, ha, rfl⟩ := he
      exact (internalMkdir_eq_ok.mp h).lookup_nil (FullPath.absolute_ofStr ha).ne_nil hdb.nonempty
    | opPut i =>
      obtain rfl := Except.ok.inj h
      exact (lookup_put_of_ne db (v := .inode i) he.1.symm).trans hdb.nonempty
    | opPutOk i =>
      obtain ⟨c, hc, hl⟩ := internalPutOk_eq_ok.mp h
      exact hl.lookup_nil (fullpath_of_commit hc ▸ he.1) hdb.nonempty
    | opPutBatch is =>
      obtain rfl := Except.ok.inj h
      rcases lookup_write_cases db is [] with ⟨i, hi, hp, -⟩ | ⟨-, hl⟩
      · exact absurd hp (he i hi).1
      · exact hl.trans hdb.nonempty
    | opPutOkBatch is =>
      have hb := internalPutOkBatch_ok h
      have hf := hb.other [] (fun i hi hp ↦ ?_) fun i hi ↦ (he i hi).1
      · rw [lookup, hf, ← lookup, hdb.nonempty]
      · obtain ⟨p, hl, -⟩ := hb.parent i hi
        rw [hp, hdb.nonempty] at hl
        cases hl
    | opPutAgg agg =>
      obtain rfl := Except.ok.inj h
      by_cases hid : agg.id = []
      · have hf : (db.put (.agg agg)).find [] = some (.agg agg) := hid ▸ db.find_put_self (.agg agg)
        simp [lookup, hf]
      · exact (lookup_put_of_ne db (v := .agg agg) (Ne.symm hid)).trans hdb.nonempty
    | opRm i => exact (internalRm_ok h).lookup_nil he.1 hdb.nonempty

theorem RocksDB.Regular.onApply {a : Answer} (hdb : db.Regular) (he : e.WellFormed)
    (h : RaftNN.onApply db e = some (db', a)) : db'.Regular := by
  cases a with
  | success => exact hdb.applyOp he (onApply_eq_success.mp h)
  | failure f =>
    obtain ⟨-, -, rfl⟩ := onApply_eq_failure.mp h
    exact hdb

theorem regular_empty : Regular .empty := by
  refine ⟨fun d hd ↦ ?_, rfl⟩
  rw [kindAt_empty] at hd
  split at hd
  · rename_i hr
    rw [hr]
    rfl
  · cases hd

namespace Leader

structure Sound (l : Leader) : Prop where
  regular : l.store.Regular
  wellFormed : ∀ p ∈ l.pending, p.entry.WellFormed

variable {l l' : Leader} {a : Action}

theorem mem_proposals {millis : Int} {p : Proposal} (h : p ∈ l.proposals millis req) :
    p.entry ∈ (Namenode.prepare l.store (l.env millis) req).1 ∧ p.request = req ∧ p.now = l.now := by
  obtain ⟨e, he, rfl⟩ := List.mem_map.mp h
  exact ⟨he, rfl, rfl⟩

theorem Sound.step (hl : l.Sound) (h : l.step a = some l') : l'.Sound := by
  cases a with
  | tick seconds =>
    obtain rfl := Option.some.inj h
    exact ⟨hl.regular, hl.wellFormed⟩
  | prepare millis req =>
    obtain rfl := Option.some.inj h
    refine ⟨hl.regular, fun p hp ↦ ?_⟩
    rcases List.mem_append.mp hp with hp | hp
    · exact hl.wellFormed p hp
    · exact wellFormed_of_prepare hl.regular (mem_proposals hp).1
  | apply =>
    obtain ⟨p, rest, answer, hp, happly, hrest, -⟩ := step_apply h
    have hwf : p.entry.WellFormed := hl.wellFormed p (by simp [hp])
    refine ⟨hl.regular.onApply hwf happly, fun q hq ↦ hl.wellFormed q ?_⟩
    rw [hrest] at hq
    simp [hp, hq]

theorem sound_of_reaches {guard : Leader → Action → Prop} {myIp : Str} {now : Nat}
    (h : Reaches step guard (start myIp now) l) : l.Sound := by
  refine h.invariant ⟨regular_empty, by simp [start]⟩ fun l a l' _ hl _ hs ↦ hl.step hs

end Leader

end Spkdfs
