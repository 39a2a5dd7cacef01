import Mathlib.Logic.Function.Iterate
import Spkdfs.Node.Listing
import Spkdfs.Node.Proposals

namespace Spkdfs

open Library RocksDB

/-- `q` is the path itself or one of its ancestors. -/
def FullPath.Under (p q : FullPath) : Prop := ∃ n, FullPath.parent^[n] p = q

theorem FullPath.under_self (p : FullPath) : p.Under p := ⟨0, rfl⟩

theorem FullPath.under_parent (p : FullPath) : p.Under p.parent := ⟨1, rfl⟩

namespace Entry

def committed : Entry → List FullPath
  | .opMkdir i | .opPutOk i => [i.fullpath]
  | .opPutOkBatch is => is.map (·.fullpath)
  | _ => []

def removed : Entry → Option FullPath
  | .opRm i => some i.fullpath
  | _ => none

def Covers (db : RocksDB) (i : Inode) : Prop :=
  ∀ s, lookup db i.fullpath.str = some s → s.valid = true →
    i.isDirectory = s.isDirectory ∧ (s.isDirectory = true → ∀ name ∈ s.sub, name ∈ i.sub)

/-- What `on_apply` does not check again: the entry replaces no directory that has gained
names since it was read, and enters names in valid directories only. -/
def Current (db : RocksDB) : Entry → Prop
  | .opMkdir i => DirAt db i.parentPath ∧
      (DirAt db i.fullpath.str → subAt db i.fullpath.str = [])
  | .opPut i => Covers db i
  | .opPutBatch is => ∀ i ∈ is, Covers db i
  | .opPutOk i => FileAt db i.fullpath.str ∧ DirAt db i.parentPath
  | .opPutOkBatch is => ∀ i ∈ is, FileAt db i.fullpath.str ∧ DirAt db i.parentPath
  | .opPutAgg _ | .opRm _ => True

end Entry

def Entered (db : RocksDB) (p : FullPath) : Prop :=
  ∃ k, kindAt db p.str = some k ∧ kindAt db p.parent.str = some .dir ∧
    dentry p k ∈ subAt db p.parent.str

variable {db db' : RocksDB} {p : FullPath}

theorem Entered.absolute (h : Entered db p) (hdb : db.Regular) : p.Absolute := by
  obtain ⟨k, -, hd, -⟩ := h
  exact FullPath.absolute_of_parent (hdb.absolute _ hd)

theorem Entered.congr (h : Entered db p) (hk : ∀ path, kindAt db' path = kindAt db path)
    (hs : ∀ e ∈ subAt db p.parent.str, e ∈ subAt db' p.parent.str) : Entered db' p := by
  obtain ⟨k, hp, hd, hm⟩ := h
  exact ⟨k, (hk _).trans hp, (hk _).trans hd, hs _ hm⟩

theorem Entered.mkdir {i : Inode} (h : Entered db p) (hdir : i.kind = some .dir)
    (hl : Linked db i (addName · (dentry i.fullpath .dir)) db')
    (hempty : DirAt db i.fullpath.str → subAt db i.fullpath.str = []) : Entered db' p := by
  obtain ⟨k, hp, hd, hm⟩ := h
  have hne : p.parent.str ≠ i.fullpath.str := by
    intro he
    rw [he] at hd hm
    rw [hempty (dirAt_iff.mpr hd)] at hm
    cases hm
  have hd' : kindAt db' p.parent.str = some .dir := (hl.kindAt_of_ne hne).trans hd
  have hsub := hl.subAt hne
  by_cases hpi : p = i.fullpath
  · subst hpi
    refine ⟨.dir, (kindAt_of_lookup hl.lookup_self).trans hdir, hd', ?_⟩
    rw [hsub, if_pos i.parentPath_eq.symm, mem_addName]
    exact .inr rfl
  · have hpi : p.str ≠ i.fullpath.str := fun he ↦ hpi (FullPath.ext he)
    refine ⟨k, (hl.kindAt_of_ne hpi).trans hp, hd', ?_⟩
    rw [hsub]
    split
    · exact mem_addName.mpr (.inl hm)
    · exact hm

theorem Entered.write {is : List Inode} (h : Entered db p)
    (hv : ∀ i ∈ is, i.valid = true) (hc : ∀ i ∈ is, Entry.Covers db i) :
    Entered (db.write (is.map .inode)) p := by
  obtain ⟨k, hp, hd, hm⟩ := h
  have hkind : ∀ path k, kindAt db path = some k →
      kindAt (db.write (is.map .inode)) path = some k := by
    intro path k hk
    rcases lookup_write_cases db is path with ⟨i, hi, rfl, hl⟩ | ⟨-, hl⟩
    · rw [kindAt_of_lookup hl, ← hk]
      cases hs : lookup db i.fullpath.str with
      | none => simp [kindAt, hs] at hk
      | some s =>
        rw [kindAt_of_lookup hs] at hk ⊢
        have hsv : s.valid = true := by
          by_contra hn
          simp [Inode.kind, hn] at hk
        rw [Inode.kind, Inode.kind, hv i hi, hsv, (hc i hi s hs hsv).1]
    · rw [kindAt, hl, ← kindAt, hk]
  refine ⟨k, hkind _ _ hp, hkind _ _ hd, ?_⟩
  rcases lookup_write_cases db is p.parent.str with ⟨i, hi, he, hl⟩ | ⟨-, hl⟩
  · obtain ⟨s, hs, hsv, hsd⟩ := dirAt_iff.mpr hd
    rw [subAt_of_lookup hs] at hm
    rw [subAt_of_lookup hl]
    exact (hc i hi s (he ▸ hs) hsv).2 hsd _ hm
  · rwa [subAt_congr hl]

theorem Entered.rm {i : Inode} (h : Entered db p) (hfile : i.isDirectory = false)
    (hl : Linked db i (removeName · i.filename) db') (hp : ¬ p.Under i.fullpath) :
    Entered db' p := by
  obtain ⟨k, hk, hd, hm⟩ := h
  have hself : p ≠ i.fullpath := fun he ↦ hp (he ▸ p.under_self)
  have hparent : p.parent.str ≠ i.fullpath.str := fun he ↦ hp (FullPath.ext he ▸ p.under_parent)
  refine ⟨k, (hl.kindAt_of_ne fun he ↦ hself (FullPath.ext he)).trans hk,
    (hl.kindAt_of_ne hparent).trans hd, ?_⟩
  rw [hl.subAt hparent]
  split
  · rename_i he
    have he : p.parent = i.fullpath.parent := FullPath.ext he
    have hname : ∀ l, dentry p k ≠ dentry i.fullpath l := fun l hn ↦ hself (dentry_injective he hn)
    refine mem_removeName.mpr ⟨hm, ?_, ?_⟩
    · simpa [dentry, Inode.filename, hfile] using hname .file
    · simpa [dentry, Inode.filename, hfile] using hname .dir
  · exact hm

theorem Entered.putAgg {agg : AggInode} (h : Entered db p) (hdb : db.Regular)
    (hplain : '/' ∉ agg.id) : Entered (db.put (.agg agg)) p := by
  have hne : ∀ q : FullPath, q.Absolute → q.str ≠ agg.id := by
    intro q hq he
    exact hplain (he ▸ List.mem_of_mem_head? hq)
  have ha := h.absolute hdb
  obtain ⟨k, hk, hd, hm⟩ := h
  refine ⟨k, ?_, ?_, ?_⟩
  · rwa [kindAt_putAgg, Function.update_of_ne (hne p ha)]
  · rwa [kindAt_putAgg, Function.update_of_ne (hne _ ha.parent)]
  · rwa [subAt_congr (lookup_put_of_ne db (v := .agg agg) (hne _ ha.parent))]

theorem Entered.applyOp {e : Entry} (h : Entered db p) (hdb : db.Regular) (hwf : e.WellFormed)
    (hc : e.Current db) (hrm : ∀ q, e.removed = some q → ¬ p.Under q)
    (happly : RaftNN.applyOp db e = .ok db') : Entered db' p := by
  cases e with
  | opMkdir i =>
    obtain ⟨-, path, -, rfl⟩ := hwf
    exact h.mkdir rfl (internalMkdir_eq_ok.mp happly) hc.2
  | opPut i =>
    obtain rfl := Except.ok.inj happly
    have hcovers : Entry.Covers db i := hc
    have hw : Entered (db.write ([i].map .inode)) p := by
      refine h.write ?_ ?_ <;> rw [List.forall_mem_singleton]
      · exact hwf.2.1
      · exact hcovers
    exact hw
  | opPutOk i =>
    obtain ⟨c, hcommit, hl⟩ := internalPutOk_eq_ok.mp happly
    have hpath := fullpath_of_commit hcommit
    have hne : p.parent.str ≠ c.fullpath.str := by
      intro he
      obtain ⟨k, -, hd, -⟩ := h
      rw [he, hpath] at hd
      exact (dirAt_iff.mpr hd).not_fileAt hc.1
    refine h.congr (kindAt_of_applyOp happly) fun e he ↦ ?_
    rw [hl.subAt hne]
    split
    · exact mem_addName.mpr (.inl he)
    · exact he
  | opPutBatch is =>
    obtain rfl := Except.ok.inj happly
    exact h.write (fun i hi ↦ (hwf i hi).2.1) hc
  | opPutOkBatch is =>
    have hb := internalPutOkBatch_ok happly
    refine h.congr (kindAt_of_applyOp happly) fun e he ↦ ?_
    obtain ⟨k, -, hd, -⟩ := h
    rw [hb.subAt, mem_dentries]
    · exact .inl he
    · intro i hi hp
      rw [← hp] at hd
      exact (dirAt_iff.mpr hd).not_fileAt (hc i hi).1
  | opPutAgg agg =>
    obtain rfl := Except.ok.inj happly
    exact h.putAgg hdb hwf
  | opRm i =>
    have hfile : i.isDirectory = false := by
      obtain ⟨-, path, rfl⟩ := hwf
      rfl
    exact h.rm hfile (internalRm_ok happly) (hrm _ rfl)

theorem entered_of_committed {e : Entry} (hwf : e.WellFormed) (hc : e.Current db)
    (happly : RaftNN.applyOp db e = .ok db') (hp : p ∈ e.committed) : Entered db' p := by
  cases e with
  | opMkdir i =>
    obtain rfl := List.mem_singleton.mp hp
    have hl := internalMkdir_eq_ok.mp happly
    obtain ⟨hroot, path, ha, rfl⟩ := hwf
    have habs := FullPath.absolute_ofStr ha
    have hne : (FullPath.ofStr path).parent.str ≠ (FullPath.ofStr path).str := fun he ↦
      FullPath.parent_ne habs.ne_nil hroot (FullPath.ext he)
    refine ⟨.dir, kindAt_of_lookup hl.lookup_self, ?_, ?_⟩
    · exact (hl.kindAt_of_ne hne).trans (dirAt_iff.mp hc.1)
    · have hsub := (hl.subAt hne).trans (if_pos rfl)
      rw [Inode.fullpath_getDefaultDir, hsub]
      exact mem_addName.mpr (.inr rfl)
  | opPutOk i =>
    obtain rfl := List.mem_singleton.mp hp
    obtain ⟨c, hcommit, hl⟩ := internalPutOk_eq_ok.mp happly
    have hpath := fullpath_of_commit hcommit
    have hne : i.fullpath.parent.str ≠ c.fullpath.str := by
      intro he
      have hdir : DirAt db i.fullpath.parent.str := hc.2
      rw [he, hpath] at hdir
      exact hdir.not_fileAt hc.1
    refine ⟨.file, ?_, ?_, ?_⟩
    · exact (kindAt_of_applyOp happly _).trans (fileAt_iff.mp hc.1)
    · exact (kindAt_of_applyOp happly _).trans (dirAt_iff.mp hc.2)
    · have he : i.fullpath.parent.str = c.parentPath := by rw [Inode.parentPath_eq, hpath]
      rw [hl.subAt hne, if_pos he]
      exact mem_addName.mpr (.inr (by simp [dentry, Inode.filename, hwf.2]))
  | opPutOkBatch is =>
    obtain ⟨i, hi, rfl⟩ := List.mem_map.mp hp
    have hb := internalPutOkBatch_ok happly
    refine ⟨.file, ?_, ?_, ?_⟩
    · exact (kindAt_of_applyOp happly _).trans (fileAt_iff.mp (hc i hi).1)
    · exact (kindAt_of_applyOp happly _).trans (dirAt_iff.mp (hc i hi).2)
    · rw [hb.subAt, mem_dentries]
      · exact .inr ⟨i, hi, rfl, by simp [dentry, Inode.filename, (hwf i hi).2]⟩
      · intro j hj he
        have hdir : DirAt db i.fullpath.parent.str := (hc i hi).2
        rw [← he] at hdir
        exact hdir.not_fileAt (hc j hj).1
  | _ => cases hp

namespace Leader

variable {l l' : Leader}

def CurrentApply (l : Leader) (a : Action) : Prop :=
  a = .apply → ∀ p ∈ l.pending.head?, p.entry.Current l.store

/-- What was committed and not removed since is still entered. -/
def Durable (l : Leader) : Prop :=
  ∀ before r after, l.applied = before ++ r :: after → r.answer = .success →
    ∀ p ∈ r.proposal.entry.committed,
      (∀ r' ∈ after, ∀ q, r'.proposal.entry.removed = some q → ¬ p.Under q) → Entered l.store p

theorem Durable.step {a : Action} (hd : l.Durable) (hl : l.Sound) (hg : l.CurrentApply a)
    (h : l.step a = some l') : l'.Durable := by
  cases a with
  | tick seconds =>
    obtain rfl := Option.some.inj h
    exact hd
  | prepare millis req =>
    obtain rfl := Option.some.inj h
    exact hd
  | apply =>
    obtain ⟨p, rest, answer, hp, happly, -, happlied, -⟩ := step_apply h
    have hwf : p.entry.WellFormed := hl.wellFormed p (by simp [hp])
    have hcur : p.entry.Current l.store := hg rfl p (by simp [hp])
    intro before r after hsplit hsucc q hq hrm
    rw [happlied] at hsplit
    rcases split_concat hsplit with ⟨rfl, rfl, -⟩ | ⟨after', rfl, hold⟩
    · obtain rfl : answer = .success := hsucc
      exact entered_of_committed hwf hcur (onApply_eq_success.mp happly) hq
    · have hold := hd before r after' hold hsucc q hq fun r' hr' ↦ hrm r' (by simp [hr'])
      cases answer with
      | failure f =>
        obtain ⟨-, -, he⟩ := onApply_eq_failure.mp happly
        rwa [he]
      | success =>
        exact hold.applyOp hl.regular hwf hcur (hrm ⟨p, .success, l.now⟩ (by simp))
          (onApply_eq_success.mp happly)

end Leader

/-- No committed name is lost, as long as every entry is still current when it is applied. -/
theorem committed_stays_listed {myIp : Str} {now : Nat} {l : Leader}
    (h : Reaches Leader.step Leader.CurrentApply (.start myIp now) l)
    {before after : List Record} {r : Record} (hr : l.applied = before ++ r :: after)
    (hs : r.answer = .success) {p : FullPath} (hp : p ∈ r.proposal.entry.committed)
    (hrm : ∀ r' ∈ after, ∀ q, r'.proposal.entry.removed = some q → ¬ p.Under q) :
    ∃ i, lookup l.store p.str = some i ∧ i.valid = true ∧
      i.filename ∈ subAt l.store (getParentPath p.str) := by
  have hd : l.Durable := by
    refine h.invariant ?_ fun l a l' hr hd hg hs ↦ hd.step (Leader.sound_of_reaches hr) hg hs
    intro before r after hn
    simp [Leader.start] at hn
  obtain ⟨k, hk, -, hm⟩ := hd before r after hr hs p hp hrm
  cases hl : lookup l.store p.str with
  | none => simp [kindAt, hl] at hk
  | some i =>
    have hpath : i.fullpath = p := FullPath.ext (fullpath_of_lookup hl)
    rw [kindAt_of_lookup hl, Inode.kind] at hk
    split at hk
    · rename_i hv
      refine ⟨i, rfl, hv, ?_⟩
      have hname : i.filename = dentry p k := by
        rw [← Option.some.inj hk, Inode.filename, dentry, hpath]
        cases i.isDirectory <;> rfl
      rw [hname]
      exact hm
    · cases hk

/-- Whether what is applied next, if anything, is a mkdir that is still current. -/
def Leader.appliesCurrentMkdir (l : Leader) (a : Action) : Bool :=
  decide (a ≠ .apply) || l.pending.head?.all fun p ↦ match p.entry with
    | .opMkdir i => decide (DirAt l.store i.parentPath ∧ ¬ DirAt l.store i.fullpath.str)
    | _ => false

/-- Whether two entries have been applied, the first of which committed `path` and the second
of which removed nothing. -/
def Leader.committedThenKept (path : Str) (l : Leader) : Bool :=
  match l.applied with
  | [r, r'] => decide (r.answer = .success ∧ r'.proposal.entry.removed = none ∧
      FullPath.ofStr path ∈ r.proposal.entry.committed)
  | _ => false

theorem committed_stays_listed_mkdir :
    ∃ (l : Leader) (i : Inode), lookup l.store "/a".toList = some i ∧ i.valid = true ∧
      i.filename ∈ subAt l.store (getParentPath "/a".toList) := by
  obtain ⟨l, hr, hp⟩ := exists_reached Leader.step Leader.appliesCurrentMkdir
    (.start "10.0.0.1".toList 100)
    [.prepare 0 (.mkdir "/a".toList), .prepare 0 (.mkdir "/b".toList), .apply, .apply]
    (Leader.committedThenKept "/a".toList) (by decide +kernel)
  have hcur : Reaches Leader.step Leader.CurrentApply (.start "10.0.0.1".toList 100) l := by
    refine hr.mono fun l a ht ha p hp ↦ ?_
    subst ha
    simp only [Leader.appliesCurrentMkdir, ne_eq, not_true_eq_false, decide_false, Bool.false_or,
      Option.all_eq_true] at ht
    have ht := ht p hp
    split at ht
    · rename_i i he
      obtain ⟨hparent, hnew⟩ := of_decide_eq_true ht
      rw [he]
      exact ⟨hparent, fun hd ↦ absurd hd hnew⟩
    · cases ht
  unfold Leader.committedThenKept at hp
  split at hp
  · rename_i r r' happlied
    obtain ⟨hs, hnone, hmem⟩ := of_decide_eq_true hp
    obtain ⟨i, hi⟩ := committed_stays_listed hcur (happlied.trans (List.nil_append _).symm) hs hmem (by simp [hnone])
    exact ⟨l, i, hi⟩
  · cases hp

/-- A lease refresh of the directory, prepared before the name is entered and applied after
it, takes the name away. -/
theorem committed_name_lost :
    ¬ ∀ (l : Leader), Reaches Leader.step (fun _ _ ↦ True) (.start "10.0.0.1".toList 100) l →
      ∀ (before after : List Record) (r : Record), l.applied = before ++ r :: after →
        r.answer = .success → ∀ p ∈ r.proposal.entry.committed,
          (∀ r' ∈ after, ∀ q, r'.proposal.entry.removed = some q → ¬ p.Under q) →
            ∃ i, lookup l.store p.str = some i ∧ i.valid = true ∧
              i.filename ∈ subAt l.store (getParentPath p.str) := by
  intro h
  obtain ⟨l, hr, hp⟩ := exists_reached Leader.step (fun _ _ ↦ true)
    (.start "10.0.0.1".toList 100)
    [.prepare 0 (.mkdir "/a".toList), .prepare 0 (.updateLock [root]), .apply, .apply]
    (fun l ↦ decide (subAt l.store root = []) && l.committedThenKept "/a".toList)
    (by decide +kernel)
  simp only [Bool.and_eq_true, decide_eq_true_eq] at hp
  obtain ⟨hsub, hp⟩ := hp
  unfold Leader.committedThenKept at hp
  split at hp
  · rename_i r r' happlied
    obtain ⟨hs, hnone, hmem⟩ := of_decide_eq_true hp
    obtain ⟨i, -, -, hin⟩ := h l (hr.mono fun _ _ _ ↦ trivial) [] [r'] r happlied hs _ hmem
      (by simp [hnone])
    have hpar : getParentPath (FullPath.ofStr "/a".toList).str = root := by decide
    rw [hpar, hsub] at hin
    cases hin
  · cases hp

end Spkdfs
