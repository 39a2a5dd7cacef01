import Spkdfs.Node.Durability

namespace Spkdfs

open Library RocksDB

/-- The `rm`, `put_ok` and `put_ok_batch` requests on a path. -/
def Request.Settles (p : FullPath) : Request → Prop
  | .rm path => simplifyPath path = p.str
  | .putOk req => simplifyPath req.path = p.str
  | .putOkBatch reqs => ∃ req ∈ reqs, simplifyPath req.path = p.str
  | _ => False

instance (p : FullPath) : DecidablePred (Request.Settles p)
  | .rm path => inferInstanceAs (Decidable (simplifyPath path = p.str))
  | .putOk req => inferInstanceAs (Decidable (simplifyPath req.path = p.str))
  | .putOkBatch reqs => inferInstanceAs (Decidable (∃ req ∈ reqs, simplifyPath req.path = p.str))
  | .mkdir _ | .put _ | .putBatch _ | .updateLock _ => inferInstanceAs (Decidable False)

/-- The path is stored, or no directory lists it. -/
def Unlisted (db : RocksDB) (p : FullPath) : Prop :=
  ValidAt db p.str ∨ ∀ k, dentry p k ∉ subAt db p.parent.str

def Entry.Settles (p : FullPath) (e : Entry) : Prop :=
  e.removed = some p ∨ p ∈ e.committed ∧ (∀ i, e ≠ .opMkdir i) ∨ ∃ agg, e = .opPutAgg agg

variable {db db' : RocksDB} {p : FullPath} {e : Entry}

theorem settles_of_prepare {env : Env} {req : Request} (hreq : req.Settles p)
    (h : e ∈ (Namenode.prepare db env req).1) : e.Settles p := by
  cases req with
  | rm path =>
    obtain ⟨es, hes, he⟩ := Namenode.mem_proposed h
    obtain ⟨-, -, rfl⟩ := Namenode.rm_eq_ok.mp hes
    obtain rfl := List.mem_singleton.mp he
    exact .inl (congrArg some (FullPath.ext hreq))
  | putOk r =>
    obtain ⟨es, hes, he⟩ := Namenode.mem_proposed h
    obtain ⟨i, hi, rfl⟩ := Namenode.putOk_eq_ok.mp hes
    obtain rfl := List.mem_singleton.mp he
    obtain ⟨-, j, hj, rfl⟩ := Namenode.putOkInode_eq_ok.mp hi
    have hp : j.fullpath = p :=
      FullPath.ext ((fullpath_of_lookup (preparePutOk_eq_ok.mp hj).1).trans hreq)
    exact .inr (.inl ⟨by simp [Entry.committed, hp], by simp⟩)
  | putOkBatch rs =>
    obtain ⟨es, hes, he⟩ := Namenode.mem_proposed h
    obtain ⟨is, agg, his, -, rfl⟩ := Namenode.putOkBatch_ok hes
    simp only [List.mem_cons, List.not_mem_nil, or_false] at he
    rcases he with rfl | rfl
    · obtain ⟨r, hr, hpath⟩ := hreq
      obtain ⟨i, hi, j, hj, rfl⟩ := forall₂_mem_left his hr
      obtain ⟨-, f, hf, rfl⟩ := Namenode.putOkInode_eq_ok.mp hj
      have hp : f.fullpath = p :=
        FullPath.ext ((fullpath_of_lookup (preparePutOk_eq_ok.mp hf).1).trans hpath)
      exact .inr (.inl ⟨List.mem_map.mpr ⟨_, hi, hp⟩, by simp⟩)
    · exact .inr (.inr ⟨agg, rfl⟩)
  | _ => cases hreq

theorem Unlisted.putAgg {agg : AggInode} (h : Unlisted db p) (hdb : Regular (db.put (.agg agg)))
    (hplain : '/' ∉ agg.id) : Unlisted (db.put (.agg agg)) p := by
  have hnone : lookup (db.put (.agg agg)) agg.id = none := by
    have hf : (db.put (.agg agg)).find agg.id = some (.agg agg) := db.find_put_self (.agg agg)
    rw [lookup, hf]
  rcases h with hv | hn
  · by_cases hp : p.str = agg.id
    · refine .inr fun k hk ↦ ?_
      rw [FullPath.str_parent, hp, getParentPath_of_notMem hplain, subAt, hdb.nonempty] at hk
      cases hk
    · refine .inl ?_
      rw [validAt_iff] at hv ⊢
      rwa [kindAt_putAgg, Function.update_of_ne hp]
  · refine .inr fun k hk ↦ ?_
    by_cases hp : p.parent.str = agg.id
    · rw [subAt, hp, hnone] at hk
      cases hk
    · rw [subAt_congr (lookup_put_of_ne db (v := .agg agg) hp)] at hk
      exact hn k hk

theorem unlisted_of_rm {i : Inode} (hwf : (Entry.opRm i).WellFormed)
    (h : RaftNN.applyOp db (.opRm i) = .ok db') : Unlisted db' i.fullpath := by
  have hl := internalRm_ok h
  obtain ⟨-, path, rfl⟩ := hwf
  refine .inr fun k hk ↦ ?_
  by_cases hp : (Inode.ofPath path).fullpath.parent.str = (Inode.ofPath path).fullpath.str
  · rw [hp, subAt_of_lookup hl.lookup_self] at hk
    cases hk
  · have hsub := (hl.subAt hp).trans (if_pos rfl)
    rw [hsub, mem_removeName] at hk
    obtain ⟨-, hfile, hdir⟩ := hk
    cases k with
    | file => exact hfile (by simp [dentry, Inode.filename, Inode.ofPath])
    | dir => exact hdir (by simp [dentry, Inode.filename, Inode.ofPath])

theorem Unlisted.applyOp (h : Unlisted db p) (hdb : db.Regular) (hwf : e.WellFormed)
    (he : e.Settles p) (hv : p ∈ e.committed → ValidAt db p.str)
    (happly : RaftNN.applyOp db e = .ok db') : Unlisted db' p := by
  rcases he with hrm | ⟨hc, hmk⟩ | ⟨agg, rfl⟩
  · cases e with
    | opRm i =>
      obtain rfl := Option.some.inj hrm
      exact unlisted_of_rm hwf happly
    | _ => cases hrm
  · refine .inl ?_
    have hvalid := hv hc
    rw [validAt_iff] at hvalid ⊢
    rw [kindAt_of_applyOp happly]
    cases e with
    | opMkdir i => exact absurd rfl (hmk i)
    | opPutOk i => exact hvalid
    | opPutOkBatch is => exact hvalid
    | _ => cases hc
  · have hreg := hdb.applyOp hwf happly
    obtain rfl := Except.ok.inj happly
    exact h.putAgg hreg hwf

theorem listed_of_committed (hwf : e.WellFormed) (hc : p ∈ e.committed) (hmk : ∀ i, e ≠ .opMkdir i)
    (hroot : p.str ≠ root) (hv : ¬ ValidAt db p.str) (happly : RaftNN.applyOp db e = .ok db') :
    ¬ Unlisted db' p := by
  have hkind : kindAt db' p.str = kindAt db p.str := by
    rw [kindAt_of_applyOp happly]
    cases e with
    | opMkdir i => exact absurd rfl (hmk i)
    | opPutOk i => rfl
    | opPutOkBatch is => rfl
    | _ => cases hc
  suffices hm : dentry p .file ∈ subAt db' p.parent.str by
    rintro (hvalid | hn)
    · rw [validAt_iff, hkind, ← validAt_iff] at hvalid
      exact hv hvalid
    · exact hn .file hm
  cases e with
  | opPutOk i =>
    obtain rfl := List.mem_singleton.mp hc
    obtain ⟨c, hcommit, hl⟩ := internalPutOk_eq_ok.mp happly
    have hpath := fullpath_of_commit hcommit
    have hne : i.fullpath.parent.str ≠ c.fullpath.str := fun he ↦
      FullPath.parent_ne hwf.1 hroot (FullPath.ext (he.trans (congrArg FullPath.str hpath)))
    have he : i.fullpath.parent.str = c.parentPath := by rw [Inode.parentPath_eq, hpath]
    rw [hl.subAt hne, if_pos he]
    exact mem_addName.mpr (.inr (by simp [dentry, Inode.filename, hwf.2]))
  | opPutOkBatch is =>
    obtain ⟨i, hi, rfl⟩ := List.mem_map.mp hc
    obtain ⟨s, -, hl⟩ := (internalPutOkBatch_ok happly).parent i hi
    have hsub : subAt db' i.fullpath.parent.str = dentries is i.parentPath s.sub :=
      subAt_of_lookup hl
    rw [hsub, mem_dentries]
    exact .inr ⟨i, hi, rfl, by simp [dentry, Inode.filename, (hwf i hi).2]⟩
  | opMkdir i => exact absurd rfl (hmk i)
  | _ => cases hc

namespace Leader

variable {l₀ l l' : Leader} {a : Action}

def OnlySettles (p : FullPath) (_ : Leader) (a : Action) : Prop :=
  ∀ millis req, a = .prepare millis req → req.Settles p

/-- A `put_ok` of the path is applied only while the path is valid. -/
def ValidCommit (p : FullPath) (l : Leader) (a : Action) : Prop :=
  a = .apply → ∀ u ∈ l.pending.head?, p ∈ u.entry.committed → ValidAt l.store p.str

structure Settling (p : FullPath) (l : Leader) : Prop where
  sound : l.Sound
  settles : ∀ u ∈ l.pending, u.entry.Settles p
  unlisted : Unlisted l.store p

theorem Settling.step (hl : l.Settling p) (ho : OnlySettles p l a) (hv : ValidCommit p l a)
    (h : l.step a = some l') : l'.Settling p := by
  refine ⟨hl.sound.step h, ?_, ?_⟩
  · cases a with
    | tick seconds =>
      obtain rfl := Option.some.inj h
      exact hl.settles
    | prepare millis req =>
      obtain rfl := Option.some.inj h
      intro u hu
      rcases List.mem_append.mp hu with hu | hu
      · exact hl.settles u hu
      · obtain ⟨he, -, -⟩ := mem_proposals hu
        exact settles_of_prepare (ho millis req rfl) he
    | apply =>
      obtain ⟨u, rest, answer, hp, -, hrest, -⟩ := step_apply h
      intro v hm
      rw [hrest] at hm
      exact hl.settles v (by simp [hp, hm])
  · cases a with
    | tick seconds =>
      obtain rfl := Option.some.inj h
      exact hl.unlisted
    | prepare millis req =>
      obtain rfl := Option.some.inj h
      exact hl.unlisted
    | apply =>
      obtain ⟨u, rest, answer, hp, happly, -⟩ := step_apply h
      have hu : u ∈ l.pending := by simp [hp]
      cases answer with
      | failure f =>
        obtain ⟨-, -, he⟩ := onApply_eq_failure.mp happly
        rw [he]
        exact hl.unlisted
      | success =>
        exact hl.unlisted.applyOp hl.sound.regular (hl.sound.wellFormed u hu) (hl.settles u hu)
          (hv rfl u (by simp [hp])) (onApply_eq_success.mp happly)

end Leader

/-- A path on which only `put_ok` and `rm` race is valid or not listed, as long as no
`put_ok` is applied to it once it is removed; one that is applied then lists it. -/
theorem removed_path_not_listed {myIp : Str} {now : Nat} {l₀ l : Leader}
    (h₀ : Reaches Leader.step (fun _ _ ↦ True) (.start myIp now) l₀) (hidle : l₀.pending = [])
    (hp : ValidAt l₀.store p.str ∨ ∀ k, dentry p k ∉ subAt l₀.store (getParentPath p.str))
    (h : Reaches Leader.step
      (fun l a ↦ Leader.OnlySettles p l a ∧ Leader.ValidCommit p l a) l₀ l) :
    (ValidAt l.store p.str ∨ ∀ k, dentry p k ∉ subAt l.store (getParentPath p.str)) ∧
    (∀ u rest l', l.pending = u :: rest → p ∈ u.entry.committed →
      Leader.ValidCommit p l .apply → l.step .apply = some l' → ¬ ValidAt l.store p.str →
        (∃ f, ⟨u, .failure f, l.now⟩ ∈ l'.applied) ∧
          subAt l'.store (getParentPath p.str) = subAt l.store (getParentPath p.str)) ∧
    ∀ u rest l', l.pending = u :: rest → p ∈ u.entry.committed → p.str ≠ root →
      l.step .apply = some l' → l'.applied = l.applied ++ [⟨u, .success, l.now⟩] →
        ¬ ValidAt l.store p.str →
          ¬ (ValidAt l'.store p.str ∨ ∀ k, dentry p k ∉ subAt l'.store (getParentPath p.str)) := by
  have hstart : l₀.Settling p := ⟨Leader.sound_of_reaches h₀, by simp [hidle], hp⟩
  have hl : l.Settling p := h.invariant hstart fun l a l' _ hl hg hs ↦ hl.step hg.1 hg.2 hs
  refine ⟨hl.unlisted, fun u rest l' hpend hc hv _ hn ↦ ?_,
    fun u rest l' hpend hc hroot hs happlied hn ↦ ?_⟩
  · exact absurd (hv rfl u (by simp [hpend]) hc) hn
  · obtain ⟨v, rest', answer, hv, happly, -, happlied', -⟩ := Leader.step_apply hs
    obtain ⟨rfl, rfl⟩ := List.cons.inj (hpend.symm.trans hv)
    have he := List.append_cancel_left (happlied.symm.trans happlied')
    obtain rfl : Answer.success = answer := by simpa using he
    have hu : u ∈ l.pending := by simp [hpend]
    refine listed_of_committed (hl.sound.wellFormed u hu) hc (fun i hi ↦ ?_) hroot hn
      (onApply_eq_success.mp happly)
    rcases hl.settles u hu with hrm | ⟨-, hmk⟩ | ⟨agg, hagg⟩
    · simp [hi, Entry.removed] at hrm
    · exact hmk i hi
    · simp [hi] at hagg

/-- Whether the action prepares a request that settles `p`, or applies an entry where
`applies` allows it. -/
def Action.settles (p : FullPath) (applies : Bool) (a : Action) : Bool :=
  match a with
  | .prepare _ req => decide (req.Settles p)
  | .tick _ => false
  | .apply => applies

theorem removed_path_not_listed_put_ok_then_rm :
    ∃ l : Leader, ¬ ValidAt l.store "/f".toList ∧
      ∀ k, dentry (.ofStr "/f".toList) k ∉ subAt l.store (getParentPath "/f".toList) := by
  obtain ⟨l₀, h₀, hp₀⟩ := exists_reached Leader.step (fun _ _ ↦ true)
    (.start "10.0.0.1".toList 100)
    [.prepare 0 (.put ⟨"/f".toList, "RE<3,1>".toList⟩), .apply]
    (fun l₀ ↦ decide (l₀.pending = [] ∧ ValidAt l₀.store "/f".toList) &&
      (run Leader.step
        (fun l a ↦ a.settles (.ofStr "/f".toList) (decide (ValidAt l.store "/f".toList))) l₀
        [.prepare 0 (.putOk ⟨"/f".toList, 7, ["b0".toList]⟩), .prepare 0 (.rm "/f".toList),
          .apply, .apply]).any fun l : Leader ↦ decide (¬ ValidAt l.store "/f".toList))
    (by decide +kernel)
  simp only [Bool.and_eq_true, decide_eq_true_eq] at hp₀
  obtain ⟨⟨hidle, hv⟩, hrun⟩ := hp₀
  obtain ⟨l, hr, hp⟩ := exists_reached _ _ _ _ _ hrun
  have hn : ¬ ValidAt l.store "/f".toList := of_decide_eq_true hp
  refine ⟨l, hn, ?_⟩
  refine (removed_path_not_listed (p := .ofStr "/f".toList) (h₀.mono fun _ _ _ ↦ trivial) hidle
    (.inl hv) (hr.mono fun l a ht ↦ ⟨?_, ?_⟩)).1.resolve_left hn
  · rintro millis req rfl
    exact of_decide_eq_true ht
  · rintro rfl u - -
    exact of_decide_eq_true ht

/-- A `put_ok` that was prepared while an `rm` waited in the log enters the name again. -/
theorem removed_path_listed :
    ¬ ∀ (p : FullPath) (l₀ l : Leader),
      Reaches Leader.step (fun _ _ ↦ True) (.start "10.0.0.1".toList 100) l₀ → l₀.pending = [] →
      (ValidAt l₀.store p.str ∨ ∀ k, dentry p k ∉ subAt l₀.store (getParentPath p.str)) →
      Reaches Leader.step (Leader.OnlySettles p) l₀ l → l.pending = [] →
        ValidAt l.store p.str ∨ ∀ k, dentry p k ∉ subAt l.store (getParentPath p.str) := by
  intro h
  obtain ⟨l₀, h₀, hp₀⟩ := exists_reached Leader.step (fun _ _ ↦ true)
    (.start "10.0.0.1".toList 100)
    [.prepare 0 (.put ⟨"/f".toList, "RE<3,1>".toList⟩), .apply]
    (fun l₀ ↦ decide (l₀.pending = [] ∧ ValidAt l₀.store "/f".toList) &&
      (run Leader.step
        (fun _ a ↦ a.settles (.ofStr "/f".toList) true) l₀
        [.prepare 0 (.rm "/f".toList), .prepare 0 (.putOk ⟨"/f".toList, 7, ["b0".toList]⟩),
          .apply, .apply]).any fun l : Leader ↦ decide (l.pending = [] ∧ ¬ ValidAt l.store "/f".toList ∧
            "f".toList ∈ subAt l.store (getParentPath "/f".toList)))
    (by decide +kernel)
  simp only [Bool.and_eq_true, decide_eq_true_eq] at hp₀
  obtain ⟨⟨hidle, hv⟩, hrun⟩ := hp₀
  obtain ⟨l, hr, hp⟩ := exists_reached _ _ _ _ _ hrun
  obtain ⟨hdone, hn, hm⟩ := of_decide_eq_true hp
  have hguard : Reaches Leader.step (Leader.OnlySettles (.ofStr "/f".toList)) l₀ l := by
    refine hr.mono fun l a ht ↦ ?_
    rintro millis req rfl
    exact of_decide_eq_true ht
  rcases h (.ofStr "/f".toList) l₀ l (h₀.mono fun _ _ _ ↦ trivial) hidle (.inl hv) hguard hdone
    with hvalid | hunlisted
  · exact hn hvalid
  · exact hunlisted .file hm

end Spkdfs
