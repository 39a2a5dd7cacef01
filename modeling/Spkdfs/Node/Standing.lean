import Spkdfs.Node.Keys
import Spkdfs.Node.Proposals

namespace Spkdfs

open Library RocksDB

/-- The only kind of a path that is never removed and that nobody makes a directory. -/
def standing (path : Str) : Kind := if path = root then .dir else .file

def RocksDB.Stands (db : RocksDB) (path : Str) : Prop :=
  kindAt db path = some (standing path) ∨ path ≠ root ∧ kindAt db path = none

/-- The entry leaves the kind of the path as it is or makes it the standing one. -/
def Entry.Upholds (path : Str) (e : Entry) : Prop :=
  ∀ kinds, e.retype kinds path = kinds path ∨ e.retype kinds path = some (standing path)

/-- Neither a removal nor a directory of the path is asked for. -/
def Request.Upholds (path : Str) : Request → Prop
  | .mkdir p => simplifyPath (Namenode.mkdirPath p) ≠ path
  | .rm p => simplifyPath p ≠ path
  | .put _ | .putBatch _ | .putOk _ | .putOkBatch _ | .updateLock _ => True

def Action.Upholds (path : Str) : Action → Prop
  | .prepare _ req => req.Upholds path
  | .tick _ | .apply => True

def Request.Commits (path : Str) : Request → Prop
  | .putOk req => simplifyPath req.path = path
  | .putOkBatch reqs => ∃ req ∈ reqs, simplifyPath req.path = path
  | .mkdir _ | .rm _ | .put _ | .putBatch _ | .updateLock _ => False

def Entry.isPutAgg : Entry → Bool
  | .opPutAgg _ => true
  | .opMkdir _ | .opPut _ | .opPutOk _ | .opPutBatch _ | .opPutOkBatch _ | .opRm _ => false

/-- A request succeeds with its own entry: the record of an aggregate is another one. -/
def Leader.Accepted (l : Leader) (req : Request) : Prop :=
  ∃ record ∈ l.applied, record.proposal.request = req ∧ record.answer = .success ∧
    record.proposal.entry.isPutAgg = false

instance (l : Leader) (req : Request) : Decidable (l.Accepted req) :=
  inferInstanceAs (Decidable (∃ record ∈ l.applied, _))

variable {db db' : RocksDB} {env : Env} {req : Request} {e : Entry} {path : Str}

namespace RocksDB.Stands

theorem empty (path : Str) : Stands .empty path := by
  rw [Stands, kindAt_empty, standing]
  by_cases hroot : path = root
  · exact .inl (by rw [if_pos hroot, if_pos hroot])
  · exact .inr ⟨hroot, if_neg hroot⟩

theorem standing_eq_file (hdb : db.Stands path) (hdir : kindAt db path ≠ some .dir) :
    standing path = .file := by
  refine if_neg fun hroot ↦ ?_
  obtain hkind | ⟨hne, -⟩ := hdb
  · rw [standing, if_pos hroot] at hkind
    exact hdir hkind
  · exact hne hroot

theorem fileAt_iff (hdb : db.Stands path) :
    FileAt db path ↔ standing path = .file ∧ kindAt db path = some (standing path) := by
  rw [RocksDB.fileAt_iff]
  constructor
  · intro hfile
    have hstanding : standing path = .file := hdb.standing_eq_file (by rw [hfile]; decide)
    exact ⟨hstanding, by rw [hstanding, hfile]⟩
  · rintro ⟨hstanding, hkind⟩
    rw [hkind, hstanding]

theorem applyOp (hdb : db.Stands path) (he : e.Upholds path) (h : RaftNN.applyOp db e = .ok db') :
    db'.Stands path ∧ (FileAt db path → FileAt db' path) := by
  have hkind := kindAt_of_applyOp h path
  obtain hsame | hstanding := he (kindAt db)
  · rw [hsame] at hkind
    refine ⟨by rwa [Stands, hkind], fun hfile ↦ ?_⟩
    rw [RocksDB.fileAt_iff] at hfile ⊢
    rw [hkind, hfile]
  · rw [hstanding] at hkind
    have hdb' : db'.Stands path := .inl hkind
    exact ⟨hdb', fun hfile ↦ hdb'.fileAt_iff.mpr ⟨(hdb.fileAt_iff.mp hfile).1, hkind⟩⟩

theorem onApply {answer : Answer} (hdb : db.Stands path) (he : e.Upholds path)
    (h : RaftNN.onApply db e = some (db', answer)) :
    db'.Stands path ∧ (FileAt db path → FileAt db' path) := by
  cases answer with
  | success => exact hdb.applyOp he (onApply_eq_success.mp h)
  | failure fault =>
    obtain ⟨-, -, rfl⟩ := onApply_eq_failure.mp h
    exact ⟨hdb, id⟩

end RocksDB.Stands

theorem upholds_opPut {i : Inode} (h : i.fullpath.str = path → i.kind = some (standing path)) :
    (Entry.opPut i).Upholds path := by
  intro kinds
  rw [Entry.retype]
  split_ifs with hpath
  · exact .inr (h hpath.symm)
  · exact .inl rfl

/-- A `put` is refused where there is a directory. -/
theorem kind_of_putInode {now : Nat} {r : NNPutRequest} {i : Inode} (hdb : db.Stands path)
    (h : Namenode.putInode db now r = .ok i) (hpath : i.fullpath.str = path) :
    i.kind = some (standing path) := by
  obtain ⟨-, hkind, hdir⟩ := putInode_kind h
  rw [hpath] at hdir
  rw [hkind, hdb.standing_eq_file hdir]

theorem upholds_of_prepare (hdb : db.Stands path) (hslash : '/' ∈ path) (hreq : req.Upholds path)
    (h : e ∈ (Namenode.prepare db env req).1) : e.Upholds path := by
  cases req with
  | mkdir p =>
    obtain ⟨es, hes, he⟩ := Namenode.mem_proposed h
    obtain ⟨-, -, -, rfl⟩ := Namenode.mkdir_eq_ok.mp hes
    obtain rfl := List.mem_singleton.mp he
    exact fun kinds ↦ .inl (if_neg (Ne.symm hreq))
  | rm p =>
    obtain ⟨es, hes, he⟩ := Namenode.mem_proposed h
    obtain ⟨-, -, rfl⟩ := Namenode.rm_eq_ok.mp hes
    obtain rfl := List.mem_singleton.mp he
    exact fun kinds ↦ .inl (if_neg (Ne.symm hreq))
  | put r =>
    obtain ⟨es, hes, he⟩ := Namenode.mem_proposed h
    obtain ⟨i, hi, rfl⟩ := Namenode.put_eq_ok.mp hes
    obtain rfl := List.mem_singleton.mp he
    exact upholds_opPut (kind_of_putInode hdb hi)
  | putBatch rs =>
    obtain ⟨es, hes, he⟩ := Namenode.mem_proposed h
    obtain ⟨is, his, rfl⟩ := Namenode.putBatch_eq_ok.mp hes
    obtain rfl := List.mem_singleton.mp he
    intro kinds
    rw [Entry.retype]
    cases hlast : (is.filter (·.fullpath.str = path)).getLast? with
    | none => exact .inl rfl
    | some i =>
      obtain ⟨hi, hpath⟩ := List.mem_filter.mp (List.mem_of_getLast? hlast)
      obtain ⟨r, -, hri⟩ := forall₂_mem_right his hi
      exact .inr (kind_of_putInode hdb hri (of_decide_eq_true hpath))
  | putOk r =>
    obtain ⟨es, hes, he⟩ := Namenode.mem_proposed h
    obtain ⟨i, -, rfl⟩ := Namenode.putOk_eq_ok.mp hes
    obtain rfl := List.mem_singleton.mp he
    exact fun kinds ↦ .inl rfl
  | putOkBatch rs =>
    obtain ⟨es, hes, he⟩ := Namenode.mem_proposed h
    obtain ⟨is, agg, -, hplain, rfl⟩ := Namenode.putOkBatch_ok hes
    obtain rfl | he := List.mem_cons.mp he
    · exact fun kinds ↦ .inl rfl
    · obtain rfl := List.mem_singleton.mp he
      refine fun kinds ↦ .inl (if_neg ?_)
      rintro rfl
      exact hplain hslash
  | updateLock paths =>
    obtain ⟨is, hes, his⟩ := Namenode.updateLock_eq db env.now paths
    simp only [Namenode.prepare, hes, List.mem_map] at h
    obtain ⟨i, hi, rfl⟩ := h
    obtain ⟨p, -, j, hj, hv, rfl⟩ := his i hi
    refine upholds_opPut fun hpath ↦ ?_
    have hread : j.fullpath.str = simplifyPath p := fullpath_of_lookup hj
    have hpath : simplifyPath p = path := hread.symm.trans hpath
    have hkind : kindAt db path = j.kind := by rw [← hpath, kindAt_of_lookup hj]
    have hvalid : j.kind ≠ none := by
      rw [Inode.kind, if_pos hv]
      exact Option.some_ne_none _
    obtain hstanding | ⟨-, hnone⟩ := hdb
    · exact hkind.symm.trans hstanding
    · exact absurd (hkind.symm.trans hnone) hvalid

/-- A commit is only proposed for a valid file. -/
theorem fileAt_of_prepare (hreq : req.Commits path) (h : e ∈ (Namenode.prepare db env req).1) :
    FileAt db path := by
  have hmember : ∀ {r : NNPutOKRequest} {i : Inode}, Namenode.putOkInode db r = .ok i →
      FileAt db (simplifyPath r.path) := by
    intro r i hi
    obtain ⟨-, j, hj, -⟩ := Namenode.putOkInode_eq_ok.mp hi
    exact ⟨j, preparePutOk_eq_ok.mp hj⟩
  cases req with
  | putOk r =>
    obtain ⟨es, hes, -⟩ := Namenode.mem_proposed h
    obtain ⟨i, hi, -⟩ := Namenode.putOk_eq_ok.mp hes
    exact hreq ▸ hmember hi
  | putOkBatch rs =>
    obtain ⟨es, hes, -⟩ := Namenode.mem_proposed h
    obtain ⟨is, agg, hmembers, -⟩ := Namenode.putOkBatch_ok hes
    obtain ⟨r, hr, hpath⟩ := hreq
    obtain ⟨i, -, j, hj, -⟩ := forall₂_mem_left hmembers hr
    exact hpath ▸ hmember hj
  | mkdir | rm | put | putBatch | updateLock => cases hreq

namespace Leader

variable {l l' : Leader} {a : Action} {guard : Leader → Action → Prop} {myIp : Str} {now : Nat}

/-- The leader while the path is upheld: what a commit of it was proposed for stays a file. -/
structure Standing (l : Leader) (path : Str) : Prop where
  stands : l.store.Stands path
  pending : ∀ q ∈ l.pending, q.entry.Upholds path
  committed : ∀ q ∈ l.log, q.request.Commits path → FileAt l.store path

theorem Standing.step (h : l.Standing path) (hslash : '/' ∈ path) (ha : a.Upholds path)
    (hs : l.step a = some l') :
    l'.Standing path ∧ (FileAt l.store path → FileAt l'.store path) := by
  cases a with
  | tick seconds =>
    obtain rfl := Option.some.inj hs
    exact ⟨⟨h.stands, h.pending, h.committed⟩, id⟩
  | prepare millis req =>
    obtain rfl := Option.some.inj hs
    refine ⟨⟨h.stands, fun q hq ↦ ?_, fun q hq hcommits ↦ ?_⟩, id⟩
    · obtain hq | hq := List.mem_append.mp hq
      · exact h.pending q hq
      · exact upholds_of_prepare h.stands hslash ha (mem_proposals hq).1
    · rw [log_prepare] at hq
      obtain hq | hq := List.mem_append.mp hq
      · exact h.committed q hq hcommits
      · obtain ⟨hentry, hreq, -⟩ := mem_proposals hq
        exact fileAt_of_prepare (hreq ▸ hcommits) hentry
  | apply =>
    obtain ⟨p, rest, answer, hpending, happly, hrest, -⟩ := step_apply hs
    have hupholds := h.pending
    rw [hpending] at hupholds
    obtain ⟨hstands, hfile⟩ := h.stands.onApply (hupholds p List.mem_cons_self) happly
    refine ⟨⟨hstands, fun q hq ↦ ?_, fun q hq hcommits ↦ ?_⟩, hfile⟩
    · exact hupholds q (List.mem_cons_of_mem _ (hrest ▸ hq))
    · exact hfile (h.committed q (log_apply hs ▸ hq) hcommits)

theorem standing_start (myIp : Str) (now : Nat) (path : Str) : (start myIp now).Standing path :=
  ⟨.empty path, fun q hq ↦ (by cases hq), fun q hq ↦ (by cases hq)⟩

/-- What is in the log was proposed by a handler. -/
theorem proposed_of_reaches (h : Reaches step guard (start myIp now) l) :
    ∀ q ∈ l.log, ∃ (t : Leader) (millis : Int), q ∈ t.proposals millis q.request := by
  refine h.invariant (I := fun l ↦ ∀ q ∈ l.log, ∃ (t : Leader) (millis : Int),
    q ∈ t.proposals millis q.request) (fun q hq ↦ by cases hq) fun t a u _ ht _ hs ↦ ?_
  cases a with
  | tick seconds =>
    obtain rfl := Option.some.inj hs
    exact ht
  | prepare millis req =>
    obtain rfl := Option.some.inj hs
    intro q hq
    rw [log_prepare] at hq
    obtain hq | hq := List.mem_append.mp hq
    · exact ht q hq
    · exact ⟨t, millis, (mem_proposals hq).2.1 ▸ hq⟩
  | apply =>
    rw [log_apply hs]
    exact ht

/-- A path without a directory is never committed: its parent is never found. -/
theorem Accepted.slash (ha : l.Accepted req) (hcommits : req.Commits path)
    (h : Reaches step guard (start myIp now) l) : '/' ∈ path := by
  obtain ⟨record, hrecord, hrequest, hsuccess, hagg⟩ := ha
  obtain ⟨k, hk⟩ := List.mem_iff_getElem?.mp hrecord
  obtain ⟨t, db, ht, happly⟩ := applied_at h hk (Nat.zero_le k)
  rw [hsuccess] at happly
  have happly := onApply_eq_success.mp happly
  have hnil := (located_of_reaches ht).1
  have hlog : record.proposal ∈ l.log :=
    List.mem_append_left _ (List.mem_map.mpr ⟨record, hrecord, rfl⟩)
  obtain ⟨s, millis, hq⟩ := proposed_of_reaches h _ hlog
  have hentry := (mem_proposals hq).1
  rw [hrequest] at hentry
  generalize record.proposal.entry = e at happly hagg hentry
  cases req with
  | putOk r =>
    obtain ⟨es, hes, he⟩ := Namenode.mem_proposed hentry
    obtain ⟨i, hi, rfl⟩ := Namenode.putOk_eq_ok.mp hes
    obtain rfl := List.mem_singleton.mp he
    obtain ⟨c, hc, p, hp, -⟩ := internalPutOk_eq_ok.mp happly
    have hpath : i.fullpath.str = path := (putOk_member ⟨i, hi, rfl⟩).1.trans hcommits
    by_contra hslash
    have hparent : getParentPath path = [] := getParentPath_of_notMem hslash
    rw [Inode.parentPath, fullpath_of_commit hc, hpath, hparent, lookup_nil_of_find hnil] at hp
    cases hp
  | putOkBatch rs =>
    obtain ⟨es, hes, he⟩ := Namenode.mem_proposed hentry
    obtain ⟨is, agg, hmembers, -, rfl⟩ := Namenode.putOkBatch_ok hes
    obtain rfl | he := List.mem_cons.mp he
    · obtain ⟨r, hr, hpath⟩ := hcommits
      exact hpath ▸ slash_of_members hmembers hnil happly hr
    · rw [List.mem_singleton.mp he] at hagg
      cases hagg
  | mkdir | rm | put | putBatch | updateLock => cases hcommits

/-- What has been committed is a file. -/
theorem Standing.fileAt_of_accepted (hl : l.Standing path) (ha : l.Accepted req)
    (hcommits : req.Commits path) : FileAt l.store path := by
  obtain ⟨record, hrecord, rfl, -⟩ := ha
  exact hl.committed _ (List.mem_append_left _ (List.mem_map.mpr ⟨record, hrecord, rfl⟩)) hcommits

end Leader

end Spkdfs
