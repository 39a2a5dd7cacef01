import Spkdfs.Library.History
import Spkdfs.Node.Replica
import Spkdfs.Node.TreeRefinement

namespace Spkdfs

open Library RocksDB

/-- A namenode and the tree, with the log that the requests wrote and the tree after each of them. -/
structure Recorded where
  store : RocksDB
  tree : PathTree
  log : List Entry
  past : List PathTree

namespace Recorded

noncomputable def start : Recorded := ⟨.empty, .bare _ _ _ _, [], [.bare _ _ _ _]⟩

noncomputable def step (r : Recorded) (call : Call) : Option Recorded :=
  (serve r.store call).map fun store ↦
    ⟨store, (r.tree.answer call).1, r.log ++ (Namenode.prepare r.store call.env call.request).1,
      r.past ++ [(r.tree.answer call).1]⟩

def Sheltering (r : Recorded) (call : Call) : Prop :=
  call.absolute = true ∧ Sheltered r.store call

end Recorded

variable {db db' : RocksDB} {t t' : PathTree} {call : Call} {env : Env} {entries : List Entry}
  {r : Recorded}

/-- What a replica stands for that has applied these entries; leases may end at other times. -/
def ShowsTree (entries : List Entry) (t : PathTree) : Prop :=
  ∃ db t', (applyAll .empty entries).map (·.1) = some db ∧ Refines db t' ∧ t'.SameUpToLeases t

theorem updateLockEntries_take (db : RocksDB) (now : Nat) (paths : List Str) (k : Nat) :
    (Namenode.updateLockEntries db now (paths.take k)).1 =
      (Namenode.updateLockEntries db now paths).1.take k := by
  induction paths generalizing k with
  | nil => simp [Namenode.updateLockEntries]
  | cons path paths ih =>
    cases k with
    | zero => simp [Namenode.updateLockEntries]
    | succ k =>
      rw [List.take_succ_cons, Namenode.updateLockEntries, Namenode.updateLockEntries]
      cases RocksDB.ls db (.ofPath path) with
      | error f => simp
      | ok inode =>
        simp only [List.take_succ_cons]
        rw [← ih k]

namespace Refines

/-- A replica that has applied some of the renewals of a request. -/
theorem updateLock_part (h : Refines db t) {paths : List Str} {k : Nat} (hk : 0 < k)
    (hne : paths ≠ []) :
    ∃ db' t', (applyAll db ((Namenode.prepare db env (.updateLock paths)).1.take k)).map (·.1) =
      some db' ∧ Refines db' t' ∧ t'.SameUpToLeases (t.answer ⟨env, .updateLock paths⟩).1 := by
  have hprep : ∀ paths : List Str, paths ≠ [] → Namenode.prepare db env (.updateLock paths) =
      Namenode.updateLockEntries db env.now paths := fun paths hne ↦ if_neg hne
  have hsame : ∀ paths : List Str, paths ≠ [] →
      (t.answer ⟨env, .updateLock paths⟩).1.SameUpToLeases t := by
    intro paths hne
    have hasked : Call.asked ⟨env, .updateLock paths⟩ =
        some (paths.map fun path ↦ .renew (env.now + lockRefreshInterval) (.ofStr path)) := if_neg hne
    rw [PathTree.answer, hasked]
    have hmap := FileTree.exec_renew_same t (env.now + lockRefreshInterval) (paths.map .ofStr)
    rwa [List.map_map] at hmap
  have htake : paths.take k ≠ [] := by
    rw [Ne, List.take_eq_nil_iff, not_or]
    exact ⟨by omega, hne⟩
  obtain ⟨db', answers, hagree⟩ : ∃ db' answers,
      Agree db t ⟨env, .updateLock (paths.take k)⟩ db' answers := h.agree_updateLock
  refine ⟨db', _, ?_, h.step hagree, (hsame _ htake).trans (hsame _ hne).symm⟩
  rw [hprep paths hne, ← updateLockEntries_take, ← hprep _ htake]
  exact congrArg (Option.map (·.1)) hagree.served

/-- A replica that has applied the first of the two entries of a batch. -/
theorem putOkBatch_part (h : Refines db t) {reqs : List NNPutOKRequest} (hne : entries ≠ [])
    (ha : ∀ req ∈ reqs, req.path.head? = some '/')
    (hprep : (Namenode.prepare db env (.putOkBatch reqs)).1 = entries) :
    ∃ db', (applyAll db (entries.take 1)).map (·.1) = some db' ∧ entries.length = 2 ∧
      Refines db' (t.answer ⟨env, .putOkBatch reqs⟩).1 := by
  cases he : Namenode.putOkBatch db env reqs with
  | error f =>
    rw [Namenode.prepare, he] at hprep
    exact absurd hprep.symm hne
  | ok es =>
    obtain rfl : es = entries := by
      rw [Namenode.prepare, he] at hprep
      exact hprep
    have hplaced := placed_of_putOkBatch he
    have hg := (h.putOkBatch_grants ha hplaced.1 hplaced.2).mp ⟨es, he⟩
    obtain ⟨is, agg, mid, hes, hplain, hmembers, hmid, hholds⟩ := h.exists_mid he hg
    have heffect := internalPutOkBatch_ok hmid
    have hasked : Call.asked ⟨env, .putOkBatch reqs⟩ = some [.commit (reqs.map (·.asked))] :=
      if_pos hplaced
    have hitem : (t.answer ⟨env, .putOkBatch reqs⟩).1.item =
        t.effect (.commit (reqs.map (·.asked))) := by
      rw [PathTree.answer, hasked]
      exact (FileTree.exec_of_grants hg).1
    have hfirst : RaftNN.onApply db (.opPutOkBatch is) = some (mid, .success) :=
      onApply_eq_success.mpr hmid
    have happly : applyAll db (es.take 1) = some (mid, [.success]) := by
      rw [hes]
      exact applyAll_singleton.mpr ⟨_, hfirst, rfl⟩
    have hlocated : ∀ e ∈ es.take 1, e.Located := fun e hmem ↦
      Namenode.prepare_located h.nil (.putOkBatch reqs) e (hprep ▸ List.mem_of_mem_take hmem)
    refine ⟨mid, by rw [happly]; rfl, by rw [hes]; rfl, ?_, ⟨?_, ?_⟩, ?_, ?_⟩
    · rw [hitem]
      exact hholds
    · rw [heffect.kindAt]
      exact h.listing.absolute
    · intro d hd
      rw [heffect.kindAt] at hd
      exact (h.listing.sound d hd).batch heffect hmembers hd
    · exact fun id agg hf ↦ h.plain id agg ((heffect.find_agg id agg).mp hf)
    · exact applyAll_find_nil hlocated h.nil happly

end Refines

theorem length_proposed {result : Except Fault (List Entry)}
    (h : ∀ entries, result = .ok entries → entries.length ≤ 1) :
    (Namenode.proposed result).1.length ≤ 1 := by
  cases result with
  | error f => exact Nat.zero_le 1
  | ok entries => exact h entries rfl

/-- Requests that write more than one entry. -/
theorem prepare_parts {req : Request} (h : 1 < (Namenode.prepare db env req).1.length) :
    (∃ reqs, req = .putOkBatch reqs) ∨ ∃ paths, paths ≠ [] ∧ req = .updateLock paths := by
  by_contra hnone
  obtain ⟨hbatch, hlock⟩ := not_or.mp hnone
  refine absurd h (Nat.not_lt.mpr ?_)
  cases req with
  | mkdir path =>
    refine length_proposed fun entries he ↦ ?_
    obtain ⟨-, -, -, rfl⟩ := Namenode.mkdir_eq_ok.mp he
    exact le_rfl
  | rm path =>
    refine length_proposed fun entries he ↦ ?_
    obtain ⟨-, -, rfl⟩ := Namenode.rm_eq_ok.mp he
    exact le_rfl
  | put req =>
    refine length_proposed fun entries he ↦ ?_
    obtain ⟨i, -, rfl⟩ := Namenode.put_eq_ok.mp he
    exact le_rfl
  | putBatch reqs =>
    refine length_proposed fun entries he ↦ ?_
    obtain ⟨is, -, rfl⟩ := Namenode.putBatch_eq_ok.mp he
    exact le_rfl
  | putOk req =>
    refine length_proposed fun entries he ↦ ?_
    obtain ⟨i, -, rfl⟩ := Namenode.putOk_eq_ok.mp he
    exact le_rfl
  | putOkBatch reqs => exact absurd ⟨reqs, rfl⟩ hbatch
  | updateLock paths =>
    have hnil : paths = [] := by
      by_contra hne
      exact hlock ⟨paths, hne, rfl⟩
    rw [hnil]
    exact Nat.zero_le 1

/-- A replica that has applied a part of what a request wrote. -/
theorem Refines.part (h : Refines db t) (ha : call.absolute = true) (hg : Sheltered db call)
    {k : Nat} (hk : k ≤ (Namenode.prepare db call.env call.request).1.length)
    (hzero : k = 0 → (Namenode.prepare db call.env call.request).1 = []) :
    ∃ db' t', (applyAll db ((Namenode.prepare db call.env call.request).1.take k)).map (·.1) =
      some db' ∧ Refines db' t' ∧ t'.SameUpToLeases (t.answer call).1 := by
  by_cases hall : k = (Namenode.prepare db call.env call.request).1.length
  · obtain ⟨db', answers, hagree⟩ := h.agree ha hg
    refine ⟨db', _, ?_, h.step hagree, .refl _⟩
    rw [hall, List.take_length]
    exact congrArg (Option.map (·.1)) hagree.served
  have hpos : 0 < k := by
    refine Nat.pos_of_ne_zero fun hk₀ ↦ hall ?_
    rw [hzero hk₀, hk₀, List.length_nil]
  obtain ⟨env, req⟩ := call
  have hmany : 1 < (Namenode.prepare db env req).1.length := by
    have hlt := lt_of_le_of_ne hk hall
    simp only at hlt
    omega
  obtain ⟨reqs, rfl⟩ | ⟨paths, hne, rfl⟩ := prepare_parts hmany
  · have hne : (Namenode.prepare db env (.putOkBatch reqs)).1 ≠ [] := by
      intro hnil
      rw [hnil] at hk
      exact absurd (Nat.le_zero.mp hk) hpos.ne'
    have hhead : ∀ req ∈ reqs, req.path.head? = some '/' := fun req hreq ↦
      head_of_absolute ha (List.mem_map_of_mem hreq)
    obtain ⟨db', happly, htwo, hr⟩ := h.putOkBatch_part hne hhead rfl
    obtain rfl : k = 1 := by
      have hlt := lt_of_le_of_ne hk hall
      simp only [htwo] at hlt
      omega
    exact ⟨db', _, happly, hr, .refl _⟩
  · exact h.updateLock_part hpos hne

namespace Recorded

theorem step_eq_some {r' : Recorded} (h : r.step call = some r') :
    ∃ answers, serveAnswered r.store call = some (r'.store, answers) ∧
      r'.tree = (r.tree.answer call).1 ∧
      r'.log = r.log ++ (Namenode.prepare r.store call.env call.request).1 ∧
      r'.past = r.past ++ [(r.tree.answer call).1] := by
  obtain ⟨store, hserve, rfl⟩ := Option.map_eq_some_iff.mp h
  obtain ⟨⟨db, answers⟩, hserved, rfl⟩ := Option.map_eq_some_iff.mp hserve
  exact ⟨answers, hserved, rfl, rfl, rfl⟩

/-- The store stands for the tree and is what the log leads to. -/
structure Kept (r : Recorded) : Prop where
  refines : Refines r.store r.tree
  replayed : (applyAll .empty r.log).map (·.1) = some r.store
  history : History ShowsTree r.log r.past

theorem kept_of_reaches (h : Reaches step Sheltering start r) : r.Kept := by
  refine h.invariant ⟨refines_empty, rfl, .start ⟨.empty, _, rfl, refines_empty, .refl _⟩⟩ ?_
  rintro r call r' - hr ⟨ha, hg⟩ hstep
  obtain ⟨answers, hserved, htree, hlog, hpast⟩ := step_eq_some hstep
  obtain ⟨db', answers', hagree⟩ := hr.refines.agree ha hg
  obtain ⟨rfl, -⟩ := Prod.mk.inj (Option.some.inj (hagree.served.symm.trans hserved))
  have hreplay : ∀ es, (applyAll .empty (r.log ++ es)).map (·.1) =
      (applyAll r.store es).map (·.1) := by
    intro es
    rw [Leader.applyAll_append, hr.replayed, Option.bind_some]
  refine ⟨htree ▸ hr.refines.step hagree, ?_, ?_⟩
  · rw [hlog, hreplay]
    exact congrArg (Option.map (·.1)) hserved
  · rw [hlog, hpast]
    refine .group hr.history fun k hk hzero ↦ ?_
    obtain ⟨db, t', happly, hrefines, hsame⟩ := hr.refines.part ha hg hk hzero
    exact ⟨db, t', (hreplay _).trans happly, hrefines, hsame⟩

end Recorded

/-- A namenode that has applied only a part of the log stands for the tree after one of the requests,
up to the ends of leases: for no earlier one the more it has applied, and for the last one when it
has applied everything. -/
theorem replicas_show_past_trees (h : Reaches Recorded.step Recorded.Sheltering .start r) :
    ∃ time : Nat → Nat, Monotone time ∧ time r.log.length + 1 = r.past.length ∧
      ∀ n ≤ r.log.length, ∃ (t : PathTree) (db : RocksDB) (t' : PathTree), r.past[time n]? = some t ∧
        (applyAll .empty (r.log.take n)).map (·.1) = some db ∧
        t'.SameUpToLeases t ∧ ∀ p, Holds db p (t'.item p) := by
  obtain ⟨time, hmono, hlast, hshows⟩ := (Recorded.kept_of_reaches h).history.exists_time
  refine ⟨time, hmono, hlast, fun n hn ↦ ?_⟩
  obtain ⟨t, ht, db, t', happly, hrefines, hsame⟩ := hshows n hn
  exact ⟨t, db, t', ht, happly, hsame, hrefines.holds⟩

/-- A directory is made. -/
theorem exists_recorded : ∃ r : Recorded, Reaches Recorded.step Recorded.Sheltering .start r ∧
    r.log.length = 1 ∧ r.past.length = 2 ∧ r.past[1]? = some r.tree ∧
      r.tree.item (.ofStr "/a".toList) = some .dir := by
  let call : Call := .at 100 (.mkdir "/a".toList)
  have hentries : (Namenode.prepare .empty call.env call.request).1.length = 1 := by decide +kernel
  have hmade : (serve .empty call).any (fun db ↦ decide (DirAt db "/a".toList)) = true := by
    decide +kernel
  have hsheltered : shelteredTest .empty call = true := by decide +kernel
  obtain ⟨db, hserve, hdir⟩ := (Option.any_eq_true _ _).mp hmade
  have hstep : Recorded.step .start call = some ⟨db, (PathTree.answer (.bare _ _ _ _) call).1,
      [] ++ (Namenode.prepare .empty call.env call.request).1,
      [.bare _ _ _ _] ++ [(PathTree.answer (.bare _ _ _ _) call).1]⟩ := by
    rw [Recorded.step]
    exact congrArg (Option.map _) hserve
  have hreached : Reaches Recorded.step Recorded.Sheltering .start _ :=
    .tail .refl (sheltered_of_test hsheltered) hstep
  exact ⟨_, hreached, hentries, rfl, rfl,
    (Recorded.kept_of_reaches hreached).refines.item_eq_dir.mpr (of_decide_eq_true hdir)⟩

/-- A slave that has not applied the entry of a new directory, and one that has. -/
theorem replicas_show_past_trees_mkdir : ∃ (r : Recorded) (time : Nat → Nat), time 0 ≤ time 1 ∧
    time 1 = 1 ∧ ∀ n ≤ 1, ∃ t, r.past[time n]? = some t := by
  obtain ⟨r, h, hlog, hpast, -⟩ := exists_recorded
  obtain ⟨time, hmono, hlast, hshows⟩ := replicas_show_past_trees h
  rw [hlog, hpast] at hlast
  refine ⟨r, time, hmono (Nat.zero_le 1), Nat.succ.inj hlast, fun n hn ↦ ?_⟩
  obtain ⟨t, -, -, ht, -⟩ := hshows n (hlog ▸ hn)
  exact ⟨t, ht⟩

end Spkdfs
