import Spkdfs.Node.Refresh

namespace Spkdfs

open Library RocksDB

def Request.isPut : Request → Bool
  | .put _ | .putBatch _ => true
  | _ => false

namespace Entry

def leases : Entry → List Inode
  | .opPut i => [i]
  | .opPutBatch is => is
  | _ => []

def releases : Entry → List Str
  | .opPutOk i | .opRm i => [i.fullpath.str]
  | .opPutOkBatch is => is.map (·.fullpath.str)
  | _ => []

end Entry

/-- As long as the deadline is held no `prepare_put` before it succeeds: it sees the
deadline or a later one, or no file at all. -/
def RocksDB.Held (db : RocksDB) (p : FullPath) (deadline : Nat) : Prop :=
  ∀ f, getInode db (.ofPath p.str) = .ok f →
    deadline ≤ f.ddlLock ∨ f.valid = true ∧ f.isDirectory = true

section Held

variable {db db' : RocksDB} {p : FullPath} {d : Nat} {s : Inode}

theorem getInode_of_lookup (h : lookup db p.str = some s) :
    getInode db (.ofPath p.str) = .ok s := by
  refine getInode_eq_ok.mpr (.inl ?_)
  rwa [p.simplified]

theorem getInode_congr (h : db'.find p.str = db.find p.str) :
    getInode db' (.ofPath p.str) = getInode db (.ofPath p.str) := by
  have hkey : (Inode.ofPath p.str).fullpath.str = p.str := p.simplified
  rw [getInode, getInode, readInode, readInode, hkey, h]

theorem held_of_lookup (h : lookup db p.str = some s)
    (hs : d ≤ s.ddlLock ∨ s.valid = true ∧ s.isDirectory = true) : Held db p d := by
  intro f hf
  obtain rfl := Except.ok.inj ((getInode_of_lookup h).symm.trans hf)
  exact hs

theorem RocksDB.Held.congr (h : Held db p d) (hf : db'.find p.str = db.find p.str) :
    Held db' p d := by
  intro f hget
  exact h f (getInode_congr hf ▸ hget)

theorem RocksDB.Held.parent {names : List Str} (h : Held db p d) (hl : lookup db p.str = some s)
    (hl' : lookup db' p.str = some { s with sub := names }) : Held db' p d :=
  held_of_lookup hl' (h s (getInode_of_lookup hl))

theorem RocksDB.Held.linked {own : Inode} {names : List Str → List Str} (h : Held db p d)
    (hl : Linked db own names db') (hne : p.str ≠ own.fullpath.str) : Held db' p d := by
  by_cases hp : p.str = own.parentPath
  · obtain ⟨parent, hold, hnew⟩ := hl.lookup_parent (hp ▸ hne)
    rw [← hp] at hold hnew
    exact h.parent hold hnew
  · exact h.congr (hl.find_other hne hp)

theorem RocksDB.Held.applyOp {e : Entry} (h : Held db p d) (hwf : e.WellFormed)
    (hrel : p.str ∉ e.releases) (hlease : ∀ i ∈ e.leases, d ≤ i.ddlLock)
    (happly : RaftNN.applyOp db e = .ok db') : Held db' p d := by
  cases e with
  | opMkdir i =>
    have hl := internalMkdir_eq_ok.mp happly
    by_cases hp : p.str = i.fullpath.str
    · obtain ⟨-, path, -, rfl⟩ := hwf
      exact held_of_lookup (hp ▸ hl.lookup_self) (.inr ⟨rfl, rfl⟩)
    · exact h.linked hl hp
  | opPut i =>
    by_cases hp : p.str = i.fullpath.str
    · obtain rfl := Except.ok.inj happly
      exact held_of_lookup (hp ▸ lookup_put_self db i) (.inl (hlease i (by simp [Entry.leases])))
    · exact h.congr (find_of_applyOp happly (by simpa [Entry.writes] using hp))
  | opPutOk i =>
    obtain ⟨c, hc, hl⟩ := internalPutOk_eq_ok.mp happly
    refine h.linked hl ?_
    rw [fullpath_of_commit hc]
    simpa [Entry.releases] using hrel
  | opPutBatch is =>
    obtain rfl := Except.ok.inj happly
    rcases lookup_write_cases db is p.str with ⟨i, hi, -, hl⟩ | ⟨hne, -⟩
    · exact held_of_lookup hl (.inl (hlease i hi))
    · refine h.congr (find_of_applyOp happly ?_)
      rintro hm
      obtain ⟨i, hi, hp⟩ := List.mem_map.mp hm
      exact hne i hi hp
  | opPutOkBatch is =>
    by_cases hparent : ∃ i ∈ is, i.parentPath = p.str
    · obtain ⟨i, hi, hp⟩ := hparent
      obtain ⟨s, hl, hl'⟩ := (internalPutOkBatch_ok happly).parent i hi
      rw [hp] at hl hl'
      exact h.parent hl hl'
    · refine h.congr ((internalPutOkBatch_ok happly).other p.str ?_ ?_)
      · exact fun i hi hp ↦ hparent ⟨i, hi, hp⟩
      · exact fun i hi hp ↦ hrel (List.mem_map.mpr ⟨i, hi, hp⟩)
  | opPutAgg agg =>
    by_cases hp : p.str = agg.id
    · obtain rfl := Except.ok.inj happly
      intro f hf
      have hfind : (db.put (.agg agg)).find agg.id = some (.agg agg) := db.find_put_self (.agg agg)
      have hkey : (Inode.ofPath p.str).fullpath.str = agg.id := p.simplified.trans hp
      rw [getInode, readInode, hkey, Table.write_cons, Table.write_nil, hfind] at hf
      cases hf
    · exact h.congr (find_of_applyOp happly (by simpa [Entry.writes] using hp))
  | opRm i =>
    refine h.linked (internalRm_ok happly) ?_
    simpa [Entry.releases] using hrel

theorem held_of_leases {e : Entry} {i : Inode} (hi : i ∈ e.leases)
    (hsame : ∀ j ∈ e.leases, j.ddlLock = i.ddlLock) (happly : RaftNN.applyOp db e = .ok db') :
    Held db' i.fullpath i.ddlLock := by
  cases e with
  | opPut j =>
    obtain rfl := Except.ok.inj happly
    obtain rfl := List.mem_singleton.mp hi
    exact held_of_lookup (lookup_put_self db i) (.inl le_rfl)
  | opPutBatch is =>
    obtain rfl := Except.ok.inj happly
    rcases lookup_write_cases db is i.fullpath.str with ⟨j, hj, -, hl⟩ | ⟨hne, -⟩
    · exact held_of_lookup hl (.inl (hsame j hj).ge)
    · exact absurd rfl (hne i hi)
  | _ => cases hi

end Held

theorem deadline_of_prepare {db : RocksDB} {env : Env} {req : Request} {e : Entry} {i : Inode}
    (he : e ∈ (Namenode.prepare db env req).1) (hi : i ∈ e.leases) :
    i.ddlLock = env.now + lockRefreshInterval := by
  have hput : ∀ (r : NNPutRequest) (i : Inode), Namenode.putInode db env.now r = .ok i →
      i.ddlLock = env.now + lockRefreshInterval := by
    intro r i hr
    obtain ⟨-, j, hj, t, -, rfl⟩ := Namenode.putInode_eq_ok.mp hr
    obtain ⟨f, -, -, -, rfl⟩ := preparePut_eq_ok.mp hj
    rfl
  cases req with
  | mkdir path =>
    obtain ⟨es, hes, he⟩ := Namenode.mem_proposed he
    obtain ⟨-, -, -, rfl⟩ := Namenode.mkdir_eq_ok.mp hes
    obtain rfl := List.mem_singleton.mp he
    cases hi
  | rm path =>
    obtain ⟨es, hes, he⟩ := Namenode.mem_proposed he
    obtain ⟨-, -, rfl⟩ := Namenode.rm_eq_ok.mp hes
    obtain rfl := List.mem_singleton.mp he
    cases hi
  | put r =>
    obtain ⟨es, hes, he⟩ := Namenode.mem_proposed he
    obtain ⟨j, hj, rfl⟩ := Namenode.put_eq_ok.mp hes
    obtain rfl := List.mem_singleton.mp he
    obtain rfl := List.mem_singleton.mp hi
    exact hput r i hj
  | putBatch rs =>
    obtain ⟨es, hes, he⟩ := Namenode.mem_proposed he
    obtain ⟨is, his, rfl⟩ := Namenode.putBatch_eq_ok.mp hes
    obtain rfl := List.mem_singleton.mp he
    obtain ⟨r, -, hri⟩ := forall₂_mem_right his hi
    exact hput r i hri
  | putOk r =>
    obtain ⟨es, hes, he⟩ := Namenode.mem_proposed he
    obtain ⟨j, -, rfl⟩ := Namenode.putOk_eq_ok.mp hes
    obtain rfl := List.mem_singleton.mp he
    cases hi
  | putOkBatch rs =>
    obtain ⟨es, hes, he⟩ := Namenode.mem_proposed he
    obtain ⟨is, agg, -, -, rfl⟩ := Namenode.putOkBatch_ok hes
    simp only [List.mem_cons, List.not_mem_nil, or_false] at he
    rcases he with rfl | rfl <;> cases hi
  | updateLock paths =>
    obtain ⟨is, hes, his⟩ := Namenode.updateLock_eq db env.now paths
    simp only [Namenode.prepare, hes, List.mem_map] at he
    obtain ⟨j, hj, rfl⟩ := he
    obtain rfl := List.mem_singleton.mp hi
    obtain ⟨p, -, k, -, -, rfl⟩ := his i hj
    rfl

namespace Leader

variable {l l' : Leader} {a : Action}

/-- The log is in the order of the clock, and so are the deadlines in it. -/
structure Timed (l : Leader) : Prop where
  sorted : l.log.Pairwise (·.now ≤ ·.now)
  past : ∀ u ∈ l.log, u.now ≤ l.now
  deadline : ∀ u ∈ l.log, ∀ i ∈ u.entry.leases, i.ddlLock = u.now + lockRefreshInterval

theorem Timed.step (ht : l.Timed) (h : l.step a = some l') : l'.Timed := by
  cases a with
  | tick seconds =>
    obtain rfl := Option.some.inj h
    exact ⟨ht.sorted, fun u hu ↦ (ht.past u hu).trans (Nat.le_add_right _ _), ht.deadline⟩
  | prepare millis req =>
    obtain rfl := Option.some.inj h
    have hlog := log_prepare l millis req
    refine ⟨?_, fun u hu ↦ ?_, fun u hu i hi ↦ ?_⟩
    · rw [hlog, List.pairwise_append]
      refine ⟨ht.sorted, ?_, fun u hu v hv ↦ ?_⟩
      · refine List.pairwise_of_forall_mem_list fun u hu v hv ↦ ?_
        rw [(mem_proposals hu).2.2, (mem_proposals hv).2.2]
      · rw [(mem_proposals hv).2.2]
        exact ht.past u hu
    · rw [hlog] at hu
      rcases List.mem_append.mp hu with hu | hu
      · exact ht.past u hu
      · exact (mem_proposals hu).2.2.le
    · rw [hlog] at hu
      rcases List.mem_append.mp hu with hu | hu
      · exact ht.deadline u hu i hi
      · obtain ⟨he, -, hnow⟩ := mem_proposals hu
        rw [hnow]
        exact deadline_of_prepare he hi
  | apply =>
    have hlog := log_apply h
    obtain ⟨p, rest, answer, -, -, -, -, hnow, -⟩ := step_apply h
    refine ⟨hlog ▸ ht.sorted, fun u hu ↦ ?_, fun u hu ↦ ht.deadline u (hlog ▸ hu)⟩
    rw [hnow]
    exact ht.past u (hlog ▸ hu)

theorem timed_of_reaches {guard : Leader → Action → Prop} {myIp : Str} {now : Nat}
    (h : Reaches step guard (start myIp now) l) : l.Timed := by
  refine h.invariant ?_ fun l a l' _ ht _ hs ↦ ht.step hs
  exact ⟨List.Pairwise.nil, fun u hu ↦ (by cases hu), fun u hu ↦ (by cases hu)⟩

/-- What `on_apply` does not check again: that `prepare_put` would still accept every path
of the `put` or `put_batch` at the time at which it was prepared. -/
def LeaseFree (l : Leader) (a : Action) : Prop :=
  a = .apply → ∀ p ∈ l.pending.head?, p.request.isPut = true →
    ∀ i ∈ p.entry.leases, ∃ j, preparePut l.store p.now (.ofPath i.fullpath.str) = .ok j

def Leased (l : Leader) : Prop :=
  ∀ before r after, l.applied = before ++ r :: after → r.proposal.request.isPut = true →
    r.answer = .success → ∀ i ∈ r.proposal.entry.leases,
      (∀ m ∈ after, i.fullpath.str ∉ m.proposal.entry.releases) →
        l.store.Held i.fullpath i.ddlLock

theorem Leased.apply (hl : l.Leased) (hs : l.Sound) (ht : l.Timed)
    (h : l.step .apply = some l') : l'.Leased := by
  obtain ⟨p, rest, answer, hp, happly, -, happlied, -⟩ := step_apply h
  have hwf : p.entry.WellFormed := hs.wellFormed p (by simp [hp])
  have hplog : p ∈ l.log := by simp [log, hp]
  intro before r after hsplit hput hsucc i hi hrel
  rw [happlied] at hsplit
  rcases split_concat hsplit with ⟨rfl, rfl, -⟩ | ⟨after', rfl, hold⟩
  · obtain rfl : answer = .success := hsucc
    refine held_of_leases hi (fun j hj ↦ ?_) (onApply_eq_success.mp happly)
    rw [ht.deadline p hplog i hi, ht.deadline p hplog j hj]
  · have hheld := hl before r after' hold hput hsucc i hi fun m hm ↦ hrel m (by simp [hm])
    cases answer with
    | failure f =>
      obtain ⟨-, -, he⟩ := onApply_eq_failure.mp happly
      rwa [he]
    | success =>
      refine hheld.applyOp hwf (hrel ⟨p, .success, l.now⟩ (by simp)) (fun j hj ↦ ?_)
        (onApply_eq_success.mp happly)
      have hrlog : r.proposal ∈ l.log := by simp [log, hold]
      have hle : r.proposal.now ≤ p.now := by
        have hsorted := ht.sorted
        rw [log, List.pairwise_append] at hsorted
        exact hsorted.2.2 r.proposal (by simp [hold]) p (by simp [hp])
      rw [ht.deadline _ hrlog i hi, ht.deadline p hplog j hj]
      omega

theorem leased_of_reaches {guard : Leader → Action → Prop} {myIp : Str} {now : Nat}
    (h : Reaches step guard (start myIp now) l) : l.Leased := by
  refine h.invariant (fun before r after hn ↦ by simp [start] at hn)
    fun l a l' hr hl _ hs ↦ ?_
  cases a with
  | tick seconds =>
    obtain rfl := Option.some.inj hs
    exact hl
  | prepare millis req =>
    obtain rfl := Option.some.inj hs
    exact hl
  | apply => exact hl.apply (sound_of_reaches hr) (timed_of_reaches hr) hs

def Exclusive (l : Leader) : Prop :=
  ∀ before r mid r' after, l.applied = before ++ r :: mid ++ r' :: after →
    r.proposal.request.isPut = true → r.answer = .success →
    r'.proposal.request.isPut = true → r'.answer = .success →
    ∀ i ∈ r.proposal.entry.leases, ∀ j ∈ r'.proposal.entry.leases, j.fullpath = i.fullpath →
      (∀ m ∈ mid, i.fullpath.str ∉ m.proposal.entry.releases) → i.ddlLock < r'.time

theorem Exclusive.apply (hx : l.Exclusive) (hl : l.Leased) (ht : l.Timed)
    (hg : l.LeaseFree .apply) (h : l.step .apply = some l') : l'.Exclusive := by
  obtain ⟨p, rest, answer, hp, happly, -, happlied, -⟩ := step_apply h
  intro before r mid r' after hsplit hput hsucc hput' hsucc' i hi j hj hpath hrel
  rw [happlied] at hsplit
  rcases split_concat hsplit with ⟨rfl, rfl, hold⟩ | ⟨after', rfl, hold⟩
  · have hheld := hl before r mid hold.symm hput hsucc i hi hrel
    obtain ⟨k, hk⟩ := hg rfl p (by simp [hp]) hput' j hj
    obtain ⟨f, hf, hdir, hfree, -⟩ := preparePut_eq_ok.mp hk
    rw [hpath] at hf
    have hd := (hheld f hf).resolve_right hdir
    have hnow : p.now ≤ l.now := ht.past p (by simp [log, hp])
    exact hd.trans_lt (hfree.trans_le hnow)
  · exact hx before r mid r' after' hold hput hsucc hput' hsucc' i hi j hj hpath hrel

end Leader

/-- Write-lease exclusion, as long as every `put` would still pass its check when it is
applied. -/
theorem put_excluded_until_deadline {myIp : Str} {now : Nat} {l : Leader}
    (h : Reaches Leader.step Leader.LeaseFree (.start myIp now) l)
    {before mid after : List Record} {r r' : Record}
    (hr : l.applied = before ++ r :: mid ++ r' :: after)
    (hput : r.proposal.request.isPut = true) (hs : r.answer = .success)
    (hput' : r'.proposal.request.isPut = true) (hs' : r'.answer = .success)
    {i j : Inode} (hi : i ∈ r.proposal.entry.leases) (hj : j ∈ r'.proposal.entry.leases)
    (hp : j.fullpath = i.fullpath)
    (hrel : ∀ m ∈ mid, i.fullpath.str ∉ m.proposal.entry.releases) : i.ddlLock < r'.time := by
  suffices hx : l.Exclusive from hx before r mid r' after hr hput hs hput' hs' i hi j hj hp hrel
  refine h.invariant ?_ fun l a l' hr hx hg hs ↦ ?_
  · intro before r mid r' after hn
    simp [Leader.start] at hn
  · cases a with
    | tick seconds =>
      obtain rfl := Option.some.inj hs
      exact hx
    | prepare millis req =>
      obtain rfl := Option.some.inj hs
      exact hx
    | apply =>
      exact hx.apply (Leader.leased_of_reaches hr) (Leader.timed_of_reaches hr) hg hs

/-- Whether two puts of one path have been applied, both with success, and the lease of the
first and the record of the second pass `test`. -/
def Leader.putTwice (test : Inode → Record → Bool) (l : Leader) : Bool :=
  match l.applied with
  | [r, r'] => match r.proposal.entry, r'.proposal.entry with
    | .opPut i, .opPut j => decide (r.proposal.request.isPut = true ∧ r.answer = .success ∧
        r'.proposal.request.isPut = true ∧ r'.answer = .success ∧ j.fullpath = i.fullpath) &&
          test i r'
    | _, _ => false
  | _ => false

theorem put_excluded_until_deadline_expired :
    ∃ (l : Leader) (r r' : Record) (i : Inode), l.applied = [r, r'] ∧
      i ∈ r.proposal.entry.leases ∧ i.ddlLock < r'.time := by
  obtain ⟨l, hr, hp⟩ := exists_reached Leader.step
    (fun l a ↦ decide (a ≠ .apply) || l.pending.head?.all fun p ↦ p.entry.leases.all fun i ↦
      (preparePut l.store p.now (.ofPath i.fullpath.str)).isOk)
    (.start "10.0.0.1".toList 100)
    [.prepare 0 (.put ⟨"/f".toList, "RE<3,1>".toList⟩), .apply, .tick 61,
      .prepare 0 (.put ⟨"/f".toList, "RE<3,1>".toList⟩), .apply]
    (Leader.putTwice fun _ _ ↦ true) (by decide +kernel)
  have hfree : Reaches Leader.step Leader.LeaseFree (.start "10.0.0.1".toList 100) l := by
    refine hr.mono fun l a ht ha p hp _ i hi ↦ ?_
    subst ha
    simp only [ne_eq, not_true_eq_false, decide_false, Bool.false_or, Option.all_eq_true,
      List.all_eq_true] at ht
    have hok := ht p hp i hi
    cases hx : preparePut l.store p.now (.ofPath i.fullpath.str) with
    | ok j => exact ⟨j, rfl⟩
    | error f => simp [hx, Except.isOk, Except.toBool] at hok
  unfold Leader.putTwice at hp
  split at hp
  · rename_i r r' happlied
    split at hp
    · rename_i i j hri hrj
      obtain ⟨hput, hs, hput', hs', hpath⟩ := of_decide_eq_true (Bool.and_eq_true_iff.mp hp).1
      have hi : i ∈ r.proposal.entry.leases := by simp [hri, Entry.leases]
      have hj : j ∈ r'.proposal.entry.leases := by simp [hrj, Entry.leases]
      have hsplit : l.applied = [] ++ r :: [] ++ r' :: [] := happlied
      exact ⟨l, r, r', i, happlied, hi, put_excluded_until_deadline hfree hsplit hput hs hput' hs'
        hi hj hpath (by simp)⟩
    · cases hp
  · cases hp

/-- Two puts that are prepared before either is applied both get the lease. -/
theorem put_not_excluded :
    ¬ ∀ (l : Leader), Reaches Leader.step (fun _ _ ↦ True) (.start "10.0.0.1".toList 100) l →
      ∀ (before mid after : List Record) (r r' : Record),
        l.applied = before ++ r :: mid ++ r' :: after →
        r.proposal.request.isPut = true → r.answer = .success →
        r'.proposal.request.isPut = true → r'.answer = .success →
        ∀ i ∈ r.proposal.entry.leases, ∀ j ∈ r'.proposal.entry.leases, j.fullpath = i.fullpath →
          (∀ m ∈ mid, i.fullpath.str ∉ m.proposal.entry.releases) → i.ddlLock < r'.time := by
  intro h
  obtain ⟨l, hr, hp⟩ := exists_reached Leader.step (fun _ _ ↦ true)
    (.start "10.0.0.1".toList 100)
    [.prepare 0 (.put ⟨"/f".toList, "RE<3,1>".toList⟩),
      .prepare 0 (.put ⟨"/f".toList, "RE<3,1>".toList⟩), .apply, .apply]
    (Leader.putTwice fun i r' ↦ decide (¬ i.ddlLock < r'.time)) (by decide +kernel)
  unfold Leader.putTwice at hp
  split at hp
  · rename_i r r' happlied
    split at hp
    · rename_i i j hri hrj
      obtain ⟨hputs, hnot⟩ := Bool.and_eq_true_iff.mp hp
      obtain ⟨hput, hs, hput', hs', hpath⟩ := of_decide_eq_true hputs
      exact of_decide_eq_true hnot (h l (hr.mono fun _ _ _ ↦ trivial) [] [] [] r r' happlied hput hs hput' hs' i
        (by simp [hri, Entry.leases]) j (by simp [hrj, Entry.leases]) hpath (by simp))
    · cases hp
  · cases hp

end Spkdfs
