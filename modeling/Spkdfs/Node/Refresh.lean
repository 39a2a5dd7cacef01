import Spkdfs.Node.Proposals

namespace Spkdfs

open Library RocksDB

def Entry.writes : Entry → List Str
  | .opMkdir i | .opPutOk i | .opRm i => [i.fullpath.str, i.parentPath]
  | .opPut i => [i.fullpath.str]
  | .opPutBatch is => is.map (·.fullpath.str)
  | .opPutOkBatch is => is.map (·.fullpath.str) ++ is.map (·.parentPath)
  | .opPutAgg agg => [agg.id]

def Request.isUpdateLock : Request → Bool
  | .updateLock _ => true
  | _ => false

variable {db db' : RocksDB} {e : Entry} {path : Str}

theorem find_of_applyOp (h : RaftNN.applyOp db e = .ok db') (hp : path ∉ e.writes) :
    db'.find path = db.find path := by
  cases e with
  | opMkdir i =>
    simp only [Entry.writes, List.mem_cons, List.not_mem_nil, or_false, not_or] at hp
    exact (internalMkdir_eq_ok.mp h).find_other hp.1 hp.2
  | opPut i =>
    obtain rfl := Except.ok.inj h
    exact db.find_write_of_notMem (by simpa [Entry.writes, Value.key] using hp)
  | opPutOk i =>
    simp only [Entry.writes, List.mem_cons, List.not_mem_nil, or_false, not_or] at hp
    obtain ⟨c, hc, hl⟩ := internalPutOk_eq_ok.mp h
    have hpath := fullpath_of_commit hc
    refine hl.find_other ?_ ?_
    · rw [hpath]
      exact hp.1
    · rw [Inode.parentPath, hpath]
      exact hp.2
  | opPutBatch is =>
    obtain rfl := Except.ok.inj h
    refine db.find_write_of_notMem ?_
    rw [List.map_map]
    exact hp
  | opPutOkBatch is =>
    simp only [Entry.writes, List.mem_append, List.mem_map, not_or, not_exists, not_and] at hp
    exact (internalPutOkBatch_ok h).other path hp.2 hp.1
  | opPutAgg agg =>
    obtain rfl := Except.ok.inj h
    exact db.find_write_of_notMem (by simpa [Entry.writes, Value.key] using hp)
  | opRm i =>
    simp only [Entry.writes, List.mem_cons, List.not_mem_nil, or_false, not_or] at hp
    exact (internalRm_ok h).find_other hp.1 hp.2

theorem lookup_of_onApply {a : Answer} (h : RaftNN.onApply db e = some (db', a))
    (hp : path ∉ e.writes) : lookup db' path = lookup db path := by
  cases a with
  | success => rw [lookup, lookup, find_of_applyOp (onApply_eq_success.mp h) hp]
  | failure f =>
    obtain ⟨-, -, rfl⟩ := onApply_eq_failure.mp h
    rfl

def RocksDB.Renews (db : RocksDB) (i : Inode) : Prop :=
  ∃ s, lookup db i.fullpath.str = some s ∧ i = { s with ddlLock := i.ddlLock }

theorem RocksDB.Renews.put {i j : Inode} (hi : Renews db i) (hj : Renews db j) :
    Renews (db.put (.inode i)) j := by
  obtain ⟨s, hs, he⟩ := hi
  obtain ⟨t, ht, hf⟩ := hj
  by_cases hp : j.fullpath.str = i.fullpath.str
  · refine ⟨i, by rw [hp]; exact lookup_put_self db i, ?_⟩
    rw [hp, hs] at ht
    obtain rfl := Option.some.inj ht
    rw [hf, he]
  · exact ⟨t, (lookup_put_of_ne db (v := .inode i) hp).trans ht, hf⟩

namespace Leader

variable {l l' : Leader} {a : Action}

/-- No entry of another request that writes a path is applied while a lease refresh of the
path waits in the log. -/
def QuietRefresh (l : Leader) (a : Action) : Prop :=
  a = .apply → ∀ p rest, l.pending = p :: rest → p.request.isUpdateLock = false →
    ∀ u ∈ rest, u.request.isUpdateLock = true →
      ∀ i, u.entry = .opPut i → i.fullpath.str ∉ p.entry.writes

def quietRefreshTest (l : Leader) (a : Action) : Bool :=
  decide (a ≠ .apply) ||
    match l.pending with
    | [] => true
    | p :: rest => p.request.isUpdateLock || rest.all fun u ↦ !u.request.isUpdateLock ||
      match u.entry with
      | .opPut i => decide (i.fullpath.str ∉ p.entry.writes)
      | _ => true

theorem quietRefresh_of_test (h : l.quietRefreshTest a = true) : l.QuietRefresh a := by
  rintro rfl p rest hp hreq u hu hrefresh i hi
  simp only [quietRefreshTest, hp, hreq, ne_eq, not_true_eq_false, decide_false, Bool.false_or,
    List.all_eq_true] at h
  have hwrites := h u hu
  rw [hrefresh, hi] at hwrites
  exact of_decide_eq_true hwrites

/-- Every lease refresh that waits in the log would change nothing but a deadline. -/
def Fresh (l : Leader) : Prop :=
  ∀ u ∈ l.pending, u.request.isUpdateLock = true → ∃ i, u.entry = .opPut i ∧ l.store.Renews i

theorem Fresh.prepare (hf : l.Fresh) {millis : Int} {req : Request}
    (h : l.step (.prepare millis req) = some l') : l'.Fresh := by
  obtain rfl := Option.some.inj h
  intro u hu hreq
  rcases List.mem_append.mp hu with hu | hu
  · exact hf u hu hreq
  · obtain ⟨he, rfl, -⟩ := mem_proposals hu
    cases hr : u.request with
    | updateLock paths =>
      rw [hr] at he
      obtain ⟨is, hes, his⟩ := Namenode.updateLock_eq l.store l.now paths
      have hprep : (Namenode.prepare l.store (l.env millis) (.updateLock paths)).1 =
          is.map .opPut := hes
      rw [hprep, List.mem_map] at he
      obtain ⟨i, hi, he⟩ := he
      obtain ⟨p, -, j, hj, -, rfl⟩ := his i hi
      refine ⟨_, he.symm, j, ?_, rfl⟩
      rw [← fullpath_of_lookup hj] at hj
      exact hj
    | _ => simp [hr, Request.isUpdateLock] at hreq

theorem Fresh.apply (hf : l.Fresh) (hg : l.QuietRefresh .apply) (h : l.step .apply = some l') :
    l'.Fresh := by
  obtain ⟨p, rest, answer, hp, happly, hrest, -⟩ := step_apply h
  intro u hu hreq
  rw [hrest] at hu
  obtain ⟨i, hi, hrenew⟩ := hf u (by simp [hp, hu]) hreq
  refine ⟨i, hi, ?_⟩
  cases hpr : p.request.isUpdateLock with
  | false =>
    have hw := hg rfl p rest hp hpr u hu hreq i hi
    obtain ⟨s, hs, he⟩ := hrenew
    exact ⟨s, (lookup_of_onApply happly hw).trans hs, he⟩
  | true =>
    obtain ⟨j, hj, hrenewj⟩ := hf p (by simp [hp]) hpr
    rw [hj] at happly
    obtain ⟨hstore, -⟩ := Prod.mk.inj (Option.some.inj happly)
    rw [← hstore]
    exact hrenewj.put hrenew

theorem fresh_of_reaches {myIp : Str} {now : Nat}
    (h : Reaches step QuietRefresh (start myIp now) l) : l.Fresh := by
  refine h.invariant (fun u hu ↦ by cases hu) fun l a l' _ hf hg hs ↦ ?_
  cases a with
  | tick seconds =>
    obtain rfl := Option.some.inj hs
    exact hf
  | prepare millis req => exact hf.prepare hs
  | apply => exact hf.apply hg hs

end Leader

/-- A lease refresh changes nothing but the deadline of its path, as long as nothing else
writes the path while the refresh waits in the log. -/
theorem refresh_changes_deadline_only {myIp : Str} {now : Nat} {l l' : Leader} {p : Proposal}
    {rest : List Proposal} {paths : List Str}
    (h : Reaches Leader.step Leader.QuietRefresh (.start myIp now) l)
    (hp : l.pending = p :: rest) (hreq : p.request = .updateLock paths)
    (hs : l.step .apply = some l') :
    ∃ i s, p.entry = .opPut i ∧ lookup l.store i.fullpath.str = some s ∧
      lookup l'.store i.fullpath.str = some { s with ddlLock := i.ddlLock } := by
  obtain ⟨i, hi, s, hl, he⟩ := Leader.fresh_of_reaches h p (by simp [hp])
    (by simp [hreq, Request.isUpdateLock])
  refine ⟨i, s, hi, hl, ?_⟩
  obtain ⟨q, rest', answer, hq, happly, -⟩ := Leader.step_apply hs
  obtain ⟨rfl, rfl⟩ := List.cons.inj (hp.symm.trans hq)
  rw [hi] at happly
  obtain ⟨hstore, -⟩ := Prod.mk.inj (Option.some.inj happly)
  rw [← hstore, ← he]
  exact lookup_put_self l.store i

/-- Whether just the refresh of `path` waits to be applied, and its entry passes `test`. -/
def Leader.refreshWaits (path : Str) (test : Inode → Bool) (l : Leader) : Bool :=
  match l.pending with
  | [p] => match p.entry with
    | .opPut i => decide (p.request = .updateLock [path]) && test i
    | _ => false
  | _ => false

theorem Leader.exists_of_refreshWaits {l : Leader} {path : Str} {test : Inode → Bool}
    (h : l.refreshWaits path test = true) :
    ∃ p i, l.pending = [p] ∧ p.entry = .opPut i ∧ p.request = .updateLock [path] ∧
      test i = true := by
  unfold Leader.refreshWaits at h
  split at h
  · rename_i p hpend
    split at h
    · rename_i i hi
      obtain ⟨hreq, ht⟩ := Bool.and_eq_true_iff.mp h
      exact ⟨p, i, hpend, hi, of_decide_eq_true hreq, ht⟩
    · cases h
  · cases h

/-- A committed file, whose lease is refreshed while a directory is made. -/
theorem refresh_changes_deadline_only_mkdir :
    ∃ (l l' : Leader) (s : Inode), lookup l.store "/f".toList = some s ∧ s.sub = ["b0".toList] ∧
      (lookup l.store "/a".toList).isSome = true ∧
      lookup l'.store "/f".toList = some { s with ddlLock := 190 } := by
  obtain ⟨l, hr, hp⟩ := exists_reached Leader.step Leader.quietRefreshTest
    (.start "10.0.0.1".toList 100)
    [.prepare 0 (.put ⟨"/f".toList, "RE<3,1>".toList⟩), .apply,
      .prepare 0 (.putOk ⟨"/f".toList, 7, ["b0".toList]⟩), .apply, .tick 30,
      .prepare 0 (.mkdir "/a".toList), .prepare 0 (.updateLock ["/f".toList]), .apply]
    (fun l ↦ l.refreshWaits "/f".toList fun i ↦
      (l.step .apply).isSome && (lookup l.store "/a".toList).isSome &&
        decide (i.fullpath.str = "/f".toList ∧ i.ddlLock = 190 ∧
          (lookup l.store i.fullpath.str).map (·.sub) = some ["b0".toList])) (by decide +kernel)
  obtain ⟨p, i, hpend, hi, hreq, ht⟩ := Leader.exists_of_refreshWaits hp
  simp only [Bool.and_eq_true, decide_eq_true_eq, Option.isSome_iff_exists] at ht
  obtain ⟨⟨⟨l', hs⟩, hdir⟩, hpath, hd, hsub⟩ := ht
  obtain ⟨j, s, hj, hl, hl'⟩ := refresh_changes_deadline_only
    (hr.mono fun _ _ ↦ Leader.quietRefresh_of_test) hpend hreq hs
  obtain rfl := Entry.opPut.inj (hi.symm.trans hj)
  rw [hl] at hsub
  rw [hpath] at hl hl'
  rw [hd] at hl'
  exact ⟨l, l', s, hl, Option.some.inj hsub, Option.isSome_iff_exists.mpr hdir, hl'⟩

/-- A refresh prepared before a `put_ok` is applied, and applied after it, takes back the
blocks that the `put_ok` committed. -/
theorem refresh_reverts_put_ok :
    ¬ ∀ (l l' : Leader) (p : Proposal) (rest : List Proposal) (paths : List Str),
      Reaches Leader.step (fun _ _ ↦ True) (.start "10.0.0.1".toList 100) l →
        l.pending = p :: rest → p.request = .updateLock paths → l.step .apply = some l' →
          ∃ i s, p.entry = .opPut i ∧ lookup l.store i.fullpath.str = some s ∧
            lookup l'.store i.fullpath.str = some { s with ddlLock := i.ddlLock } := by
  intro h
  obtain ⟨l, hr, hp⟩ := exists_reached Leader.step (fun _ _ ↦ true)
    (.start "10.0.0.1".toList 100)
    [.prepare 0 (.put ⟨"/f".toList, "RE<3,1>".toList⟩), .apply,
      .prepare 0 (.putOk ⟨"/f".toList, 7, ["b0".toList]⟩),
      .prepare 0 (.updateLock ["/f".toList]), .apply]
    (fun l ↦ l.refreshWaits "/f".toList fun i ↦
      decide ((lookup l.store i.fullpath.str).map (·.sub) = some ["b0".toList]) &&
        (l.step .apply).any fun l' ↦
          decide ((lookup l'.store i.fullpath.str).map (·.sub) = some [])) (by decide +kernel)
  obtain ⟨p, i, hpend, hi, hreq, ht⟩ := Leader.exists_of_refreshWaits hp
  simp only [Bool.and_eq_true, decide_eq_true_eq, Option.any_eq_true] at ht
  obtain ⟨hbefore, l', hs, hafter⟩ := ht
  obtain ⟨j, s, hj, hl, hl'⟩ := h l l' p [] _ (hr.mono fun _ _ _ ↦ trivial) hpend hreq hs
  obtain rfl := Entry.opPut.inj (hi.symm.trans hj)
  simp only [hl, Option.map_some, Option.some.injEq] at hbefore
  simp [hl', hbefore] at hafter

end Spkdfs
