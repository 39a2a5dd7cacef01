import Spkdfs.Common.PathKeys
import Spkdfs.Node.Listing

namespace Spkdfs

open Library RocksDB

def Request.paths : Request → List Str
  | .mkdir path | .rm path => [path]
  | .put req => [req.path]
  | .putBatch reqs => reqs.map (·.path)
  | .putOk req => [req.path]
  | .putOkBatch reqs => reqs.map (·.path)
  | .updateLock paths => paths

def Call.absolute (call : Call) : Bool :=
  call.request.paths.all fun path ↦ decide (path.head? = some '/')

/-- The root is a directory, and so is the parent of every other path that is valid. -/
def TreeClosed (db : RocksDB) : Prop :=
  DirAt db root ∧ ∀ path, path ≠ root → ValidAt db path → DirAt db (getParentPath path)

/-- What no handler checks: that a parent is a directory, that a removed directory is empty
and is not the root, and that a file is created in a directory that exists. -/
def Sheltered (db : RocksDB) (call : Call) : Prop :=
  match call.request with
  | .mkdir path => ¬ FileAt db (getParentPath (simplifyPath path))
  | .rm path => simplifyPath path ≠ root ∧
      ∀ child, getParentPath child = simplifyPath path → ¬ ValidAt db child
  | .put req => ∀ entries, Namenode.put db call.env.now req = .ok entries →
      DirAt db (getParentPath (simplifyPath req.path))
  | .putBatch reqs => ∀ entries, Namenode.putBatch db call.env.now reqs = .ok entries →
      ∀ req ∈ reqs, DirAt db (getParentPath (simplifyPath req.path))
  | _ => True

variable {db db' : RocksDB} {call : Call} {ok : Bool}

theorem treeClosed_empty : TreeClosed .empty := by
  refine ⟨by decide, fun path hr hv ↦ ?_⟩
  rw [validAt_iff, kindAt_empty, if_neg hr] at hv
  exact absurd rfl hv

theorem mkdirPath_of_absolute {path : Str} (h : path.head? = some '/') :
    Namenode.mkdirPath path = path := if_pos h

theorem Served.dirAt (h : Served db call.env call.request ok db') (hl : Listing db) {d : Str}
    (hd : kindAt db d = some .dir) (hrm : ∀ p, call.request = .rm p → d ≠ simplifyPath p) :
    kindAt db' d = some .dir := by
  rw [← hd]
  exact (h.retyped d).eq (by simp [hd]) hrm (List.mem_of_mem_head? (hl.absolute d hd))

theorem TreeClosed.served (ht : TreeClosed db) (hl : Listing db)
    (h : Served db call.env call.request ok db') (ha : call.absolute = true)
    (hg : Sheltered db call) : TreeClosed db' := by
  simp only [TreeClosed, dirAt_iff, validAt_iff] at ht ⊢
  obtain ⟨hroot, hclosed⟩ := ht
  have hrm : ∀ p, call.request = .rm p → simplifyPath p ≠ root ∧
      ∀ child, getParentPath child = simplifyPath p → ¬ ValidAt db child := by
    intro p hp
    simpa only [Sheltered, hp] using hg
  refine ⟨h.dirAt hl hroot fun p hp he ↦ (hrm p hp).1 he.symm, fun path hne hv ↦ ?_⟩
  have hr := h.retyped path
  generalize hk : kindAt db path = k at hr
  generalize hk' : kindAt db' path = k' at hr hv
  cases hr with
  | kept =>
    refine h.dirAt hl (hclosed path hne (hk ▸ hv)) fun p hp he ↦ ?_
    exact (hrm p hp).2 path he (validAt_iff.mpr (hk ▸ hv))
  | @made p hreq hpath hparent =>
    refine h.dirAt hl ?_ (by simp [hreq])
    have habs : p.head? = some '/' := by simpa [Call.absolute, hreq, Request.paths] using ha
    rw [mkdirPath_of_absolute habs] at hpath
    have hfile : ¬ FileAt db (getParentPath path) := by
      simpa only [Sheltered, hreq, hpath] using hg
    rcases pathExists_eq_true.mp hparent with he | hvalid
    · rw [he, hroot]
    · rw [validAt_iff] at hvalid
      rw [fileAt_iff] at hfile
      generalize kindAt db (getParentPath path) = kp at hvalid hfile
      match kp with
      | none => exact absurd rfl hvalid
      | some .file => exact absurd rfl hfile
      | some .dir => rfl
  | removed => exact absurd rfl hv
  | @stored r i _ _ hput hpath hreq =>
    rw [hpath]
    rcases hreq with hreq | ⟨rs, is, hreq, hmem, hall⟩
    · refine h.dirAt hl ?_ (by simp [hreq])
      rw [← dirAt_iff]
      simp only [Sheltered, hreq] at hg
      exact hg _ (Namenode.put_eq_ok.mpr ⟨i, hput, rfl⟩)
    · refine h.dirAt hl ?_ (by simp [hreq])
      rw [← dirAt_iff]
      simp only [Sheltered, hreq] at hg
      exact hg _ (Namenode.putBatch_eq_ok.mpr ⟨is, hall, rfl⟩) r hmem
  | shadowed => exact absurd rfl hv

/-- Tree closure, for requests that meet what the handlers leave unchecked. -/
theorem tree_closed_of_sheltered
    (h : Reaches serve (fun db call ↦ call.absolute = true ∧ Sheltered db call) .empty db) :
    DirAt db root ∧ ∀ path, path ≠ root → ValidAt db path → DirAt db (getParentPath path) := by
  refine h.invariant (I := TreeClosed) treeClosed_empty fun db call db' hr ht hg hs ↦ ?_
  obtain ⟨ok, hserved⟩ := served_of_serve hs
  exact ht.served (listing_of_reaches hr) hserved hg.1 hg.2

/-- `Sheltered` and absolute, as a test of the calls that make or put. -/
def shelteredTest (db : RocksDB) (call : Call) : Bool :=
  call.absolute && match call.request with
    | .mkdir path => decide (¬ FileAt db (getParentPath (simplifyPath path)))
    | .put req => decide (DirAt db (getParentPath (simplifyPath req.path)))
    | _ => false

theorem tree_closed_of_sheltered_mkdir_put :
    ∃ db, ValidAt db "/a/f".toList ∧ DirAt db (getParentPath "/a/f".toList) := by
  obtain ⟨db, hr, hp⟩ := exists_reached serve shelteredTest .empty
    [.at 100 (.mkdir "/a".toList), .at 100 (.put ⟨"/a/f".toList, "RE<3,1>".toList⟩)]
    (fun db ↦ decide (ValidAt db "/a/f".toList)) (by decide +kernel)
  have hv := of_decide_eq_true hp
  refine ⟨db, hv, (tree_closed_of_sheltered (hr.mono fun db call h ↦ ?_)).2 _ (by decide) hv⟩
  obtain ⟨env, req⟩ := call
  obtain ⟨ha, ht⟩ := Bool.and_eq_true_iff.mp h
  refine ⟨ha, ?_⟩
  cases req with
  | mkdir path =>
    have hf : ¬ FileAt db (getParentPath (simplifyPath path)) := of_decide_eq_true ht
    exact hf
  | put req => exact fun _ _ ↦ of_decide_eq_true ht
  | _ => cases ht

/-- A file put where no directory is. -/
theorem tree_not_closed :
    ¬ ∀ db, Reaches serve (fun _ call ↦ call.absolute = true) .empty db →
      DirAt db root ∧ ∀ path, path ≠ root → ValidAt db path → DirAt db (getParentPath path) := by
  intro h
  obtain ⟨db, hr, hp⟩ := exists_reached serve (fun _ call ↦ call.absolute) .empty
    [.at 100 (.put ⟨"/x/y".toList, "RE<3,1>".toList⟩)]
    (fun db ↦ decide (ValidAt db "/x/y".toList ∧ ¬ DirAt db (getParentPath "/x/y".toList)))
    (by decide +kernel)
  obtain ⟨hv, hd⟩ := of_decide_eq_true hp
  exact hd ((h db hr).2 _ (by decide) hv)

end Spkdfs
