import Spkdfs.Node.Aggregate
import Spkdfs.Node.Proposals
import Spkdfs.Node.Snowflake

namespace Spkdfs

open Library RocksDB

/-- The flags of an aggregate say which of its files still belong to it. -/
structure AggInode.Accounted (db : RocksDB) (agg : AggInode) : Prop where
  count : agg.validCount = agg.valid.count true
  length : agg.valid.length = agg.files.length
  flag : ∀ (k : Nat) (file : FileInfo), agg.files[k]? = some file → (agg.valid[k]? = some true ↔
    ∃ i, lookup db file.path = some i ∧ i.valid = true ∧ i.aggInodeId = agg.id)

/-- What the namenode does not do, or does not check: an `rm` leaves the flags alone, and so
does a commit of the file in another batch; and a batch whose files are not all stamped with
its id stores an aggregate that lists them. -/
def Tracked (db : RocksDB) (call : Call) : Prop :=
  Accepted db call →
    match call.request with
    | .rm path => ∀ id agg, db.find id = some (.agg agg) →
        simplifyPath path ∉ agg.files.map (·.path)
    | .putOkBatch reqs =>
      (∀ req ∈ reqs, simplifyPath req.path = req.path ∧
        req.path ∉ Request.parents (.putOkBatch reqs) ∧ ¬ Stored db (getParentPath req.path)) ∧
      ∀ is agg, Namenode.putOkBatch db call.env reqs = .ok [.opPutOkBatch is, .opPutAgg agg] →
        agg.id ∉ reqs.map (·.path) ∧
        ∀ id other, db.find id = some (.agg other) → id ≠ agg.id →
          ∀ file ∈ other.files, file.path ≠ agg.id ∧ file.path ∉ reqs.map (·.path)
    | _ => True

/-- Every flag is set, and every listed file carries the id of the aggregate. -/
structure AggInode.Full (db : RocksDB) (agg : AggInode) : Prop where
  valid : agg.valid = agg.files.map fun _ ↦ true
  count : agg.validCount = agg.files.length
  carries : ∀ file ∈ agg.files,
    ∃ i, lookup db file.path = some i ∧ i.valid = true ∧ i.aggInodeId = agg.id

variable {db db' : RocksDB} {env : Env} {req : Request} {ok : Bool} {call : Call} {agg : AggInode}
  {is : List Inode}

theorem AggInode.Full.accounted (h : agg.Full db) : agg.Accounted db where
  count := by
    have hcount : ∀ files : List FileInfo, (files.map fun _ ↦ true).count true = files.length := by
      intro files
      simp
    rw [h.valid, hcount, h.count]
  length := by rw [h.valid, List.length_map]
  flag k file hk := by
    refine iff_of_true ?_ (h.carries file (List.mem_of_getElem? hk))
    rw [h.valid, List.getElem?_map, hk]
    rfl

theorem find_agg_of_put {i : Inode} {id : Str}
    (h : (db.put (.inode i)).find id = some (.agg agg)) : db.find id = some (.agg agg) :=
  ((find_agg_write db [i] id agg).mp h).1

theorem RocksDB.Linked.find_agg {own : Inode} {names : List Str → List Str} {id : Str}
    (h : Linked db own names db') (hf : db'.find id = some (.agg agg)) :
    db.find id = some (.agg agg) := by
  obtain ⟨parent, -, rfl⟩ := h
  exact find_agg_of_put (find_agg_of_put hf)

/-- Only batches make aggregates. -/
theorem Served.find_agg (h : Served db env req ok db') (hreq : ∀ reqs, req ≠ .putOkBatch reqs)
    {id : Str} (hf : db'.find id = some (.agg agg)) : db.find id = some (.agg agg) := by
  cases h with
  | refused => exact hf
  | mkdir _ _ _ linked => exact linked.find_agg hf
  | rm _ _ linked => exact linked.find_agg hf
  | put => exact find_agg_of_put hf
  | putBatch => exact ((find_agg_write _ _ _ _).mp hf).1
  | putOk _ _ _ _ linked => exact linked.find_agg hf
  | putOkBatch => exact absurd rfl (hreq _)
  | updateLock => exact ((find_agg_write _ _ _ _).mp hf).1

theorem Changed.carries {path : Str} {new : Option Inode} {i : Inode}
    (h : Changed db env path req ok new) (hi : lookup db path = some i) (hv : i.valid = true)
    (hrm : ok = true → ∀ p, req = .rm p → simplifyPath p ≠ path)
    (hbatch : ∀ reqs is agg, req = .putOkBatch reqs →
      Namenode.putOkBatch db env reqs = .ok [.opPutOkBatch is, .opPutAgg agg] →
        path ≠ agg.id ∧ path ∉ req.own) :
    ∃ j, new = some j ∧ j.valid = true ∧ j.aggInodeId = i.aggInodeId := by
  have hsame : ∀ {p : Inode}, lookup db path = some p → p = i := by
    intro p hp
    exact Option.some.inj (hp.symm.trans hi)
  cases h with
  | kept => exact ⟨i, hi, hv, rfl⟩
  | made _ fresh => exact absurd ⟨i, hi, hv⟩ fresh
  | removed hpath => exact absurd hpath (hrm rfl _ rfl)
  | entered found =>
    obtain rfl := hsame found
    exact ⟨_, rfl, hv, rfl⟩
  | erased found =>
    obtain rfl := hsame found
    exact ⟨_, rfl, hv, rfl⟩
  | @stored _ r k last own =>
    refine ⟨k, rfl, (putInode_wellFormed own).2.1, ?_⟩
    have hpath : simplifyPath r.path = path := (of_getLast?_filter last).2
    obtain ⟨-, ⟨-, -, hnone⟩ | ⟨f, hf, -, hid, -⟩⟩ := putInode_found own
    · rw [hpath, hi] at hnone
      cases hnone
    · obtain rfl := hsame (hpath ▸ hf)
      exact hid
  | committed _ found =>
    obtain rfl := hsame found
    exact ⟨_, rfl, hv, rfl⟩
  | @batched rs is agg r j accepted last =>
    obtain ⟨hr, hp⟩ := of_getLast?_filter last
    refine absurd ?_ (hbatch rs is agg rfl accepted).2
    rw [Request.own_putOkBatch]
    exact List.mem_map.mpr ⟨r, hr, hp⟩
  | shadowed accepted hpath => exact absurd hpath (hbatch _ _ _ rfl accepted).1
  | refreshed found =>
    obtain rfl := hsame found
    exact ⟨_, rfl, hv, rfl⟩

/-- The store when all aggregates are full. -/
def AllFull (db : RocksDB) : Prop := ∀ id agg, db.find id = some (.agg agg) → agg.Full db

theorem AllFull.step_other (h : AllFull db) (hg : Tracked db call)
    (hserved : Served db call.env call.request ok db')
    (hreq : ∀ reqs, call.request ≠ .putOkBatch reqs) : AllFull db' := by
  intro id agg hf
  have hfull := h id agg (hserved.find_agg hreq hf)
  refine ⟨hfull.valid, hfull.count, fun file hfile ↦ ?_⟩
  obtain ⟨i, hi, hv, hid⟩ := hfull.carries file hfile
  have hkeep := (hserved.changed file.path).carries hi hv ?_ fun reqs _ _ he ↦ absurd he (hreq reqs)
  · obtain ⟨j, hj, hjv, hjid⟩ := hkeep
    exact ⟨j, hj, hjv, hjid.trans hid⟩
  · obtain ⟨env, req⟩ := call
    rintro rfl p rfl hpath
    have haccepted := hserved.accepted fun paths he ↦ (nomatch he)
    refine hg haccepted id agg (hserved.find_agg hreq hf) ?_
    exact List.mem_map.mpr ⟨file, hfile, hpath.symm⟩

/-- A batch executed alone, once it is accepted. -/
theorem serve_putOkBatch {reqs : List NNPutOKRequest}
    (haccepted : Namenode.putOkBatch db env reqs = .ok [.opPutOkBatch is, .opPutAgg agg])
    (h : serve db ⟨env, .putOkBatch reqs⟩ = some db') :
    ∃ mid, db' = mid.put (.agg agg) ∧ (internalPutOkBatch db is = .ok mid ∨
      ∃ f, internalPutOkBatch db is = .error f ∧ f ≠ .assertion) := by
  simp only [serve, Option.map_eq_some_iff] at h
  obtain ⟨⟨_, answers⟩, h, rfl⟩ := h
  simp only [serveAnswered, Namenode.prepare, haccepted, Namenode.proposed, applyAll,
    Option.bind_eq_some_iff] at h
  obtain ⟨⟨mid, a⟩, hmid, h⟩ := h
  have hagg : RaftNN.onApply mid (.opPutAgg agg) = some (mid.put (.agg agg), .success) := rfl
  simp only [hagg, Option.bind_some, Option.map_some, Option.some.injEq, Prod.mk.injEq] at h
  obtain ⟨rfl, rfl⟩ := h
  refine ⟨mid, rfl, ?_⟩
  cases a with
  | success => exact .inl (onApply_eq_success.mp hmid)
  | failure f =>
    obtain ⟨he, hne, -⟩ := onApply_eq_failure.mp hmid
    exact .inr ⟨f, he, hne⟩

/-- A batch of stored files can fail in its assertion only, when no parent is an aggregate. -/
theorem internalPutOkBatch_assertion {f : Fault} (h : internalPutOkBatch db is = .error f)
    (hparents : ∀ i ∈ is, ¬ Stored db i.parentPath)
    (hmembers : ∀ i ∈ is, ∃ j, lookup db i.fullpath.str = some j) : f = .assertion := by
  obtain ⟨i, hi, h | h⟩ := internalPutOkBatch_eq_error h
  · have hnone : lookup db i.parentPath = none := by
      by_contra hne
      obtain ⟨p, hp⟩ := Option.ne_none_iff_exists'.mp hne
      rw [getParentInode_eq_ok.mpr hp] at h
      cases h
    have hmissing : getParentInode db i = .error .assertion := by
      refine getParentInode_eq_assertion.mpr ?_
      unfold lookup at hnone
      split at hnone
      · cases hnone
      · rename_i agg hf
        exact absurd (stored_of_find hf) (hparents i hi)
      · rename_i hf
        exact ⟨hf, fun hroot ↦ by simp [hroot] at hnone⟩
    exact Except.error.inj (h.symm.trans hmissing)
  · obtain ⟨j, hj⟩ := hmembers i hi
    have hget : getInode db (.ofPath i.fullpath.str) = .ok j :=
      getInode_eq_ok.mpr (.inl (by rwa [i.fullpath.simplified]))
    rw [commit_eq_ok.mpr ⟨j, hget, rfl⟩] at h
    cases h

section

variable {reqs : List NNPutOKRequest} {mid : RocksDB}
  (haccepted : Namenode.putOkBatch db env reqs = .ok [.opPutOkBatch is, .opPutAgg agg])

include haccepted

theorem own_of_accepted : List.Forall₂ (fun req i ↦ ∃ j, Namenode.putOkInode db req = .ok j ∧
    i = { j with aggInodeId := agg.id }) reqs is := by
  obtain ⟨members, hpairs, rfl, -⟩ := Namenode.putOkBatch_members haccepted
  rw [List.forall₂_map_right_iff]
  exact hpairs.imp fun req m ↦ Namenode.putOkMember_ok

theorem carries_of_batch (hmid : internalPutOkBatch db is = .ok mid) {req : NNPutOKRequest}
    (hreq : req ∈ reqs) (hpath : simplifyPath req.path = req.path)
    (hinner : req.path ∉ Request.parents (.putOkBatch reqs)) (hid : req.path ≠ agg.id) :
    ∃ i, lookup mid req.path = some i ∧ i.valid = true ∧ i.aggInodeId = agg.id := by
  have hchanged := changed_of_batch haccepted (own_of_accepted haccepted)
    (internalPutOkBatch_ok hmid) req.path
  generalize hnew : lookup mid req.path = new at hchanged
  cases hchanged with
  | kept other =>
    refine absurd ?_ (other rfl)
    rw [Request.own_putOkBatch]
    exact List.mem_map.mpr ⟨req, hreq, hpath⟩
  | entered _ parent => exact absurd parent hinner
  | stored last => cases last
  | batched accepted _ _ valid =>
    rw [haccepted] at accepted
    cases accepted
    exact ⟨_, rfl, valid, rfl⟩
  | shadowed accepted hshadow =>
    rw [haccepted] at accepted
    cases accepted
    exact absurd hshadow hid

/-- The files of a new aggregate are the members of the batch. -/
theorem full_of_batch (hmid : internalPutOkBatch db is = .ok mid)
    (hmembers : ∀ req ∈ reqs, simplifyPath req.path = req.path ∧
      req.path ∉ Request.parents (.putOkBatch reqs))
    (hid : agg.id ∉ reqs.map (·.path)) : agg.Full (mid.put (.agg agg)) := by
  obtain ⟨members, hpairs, -, hfiles, hvalid, hcount⟩ := Namenode.putOkBatch_members haccepted
  have hlen := hpairs.length_eq
  refine ⟨?_, ?_, fun file hfile ↦ ?_⟩
  · rw [hvalid, hfiles, List.map_map]
    simp only [List.map_const', Function.comp_def, hlen]
  · rw [hcount, hfiles, List.length_map, hlen]
  · rw [hfiles] at hfile
    obtain ⟨m, hm, rfl⟩ := List.mem_map.mp hfile
    obtain ⟨req, hreq, hrm⟩ := forall₂_mem_right hpairs hm
    obtain ⟨j, entry, rest, pos, hj, -, -, rfl⟩ := Namenode.putOkMember_eq_ok.mp hrm
    obtain ⟨hpath, hinner⟩ := hmembers req hreq
    have hreqId : req.path ≠ agg.id := fun he ↦ hid (List.mem_map.mpr ⟨req, hreq, he⟩)
    simp only [lookup_put_of_ne mid (v := .agg agg) hreqId]
    exact carries_of_batch haccepted hmid hreq hpath hinner hreqId

/-- An aggregate stays full when no file of it is a member of the batch. -/
theorem AggInode.Full.batch {other : AggInode} (h : other.Full db)
    (hmid : internalPutOkBatch db is = .ok mid)
    (hfiles : ∀ file ∈ other.files, file.path ≠ agg.id ∧
      file.path ∉ Request.own (.putOkBatch reqs)) : other.Full (mid.put (.agg agg)) := by
  refine ⟨h.valid, h.count, fun file hfile ↦ ?_⟩
  obtain ⟨hfileId, hfileNew⟩ := hfiles file hfile
  obtain ⟨i, hi, hv, hid⟩ := h.carries file hfile
  have hchanged := changed_of_batch haccepted (own_of_accepted haccepted)
    (internalPutOkBatch_ok hmid) file.path
  rw [lookup_put_of_ne mid (v := .agg agg) hfileId]
  have hkeep := hchanged.carries hi hv (fun _ p he ↦ (nomatch he)) ?_
  · obtain ⟨j, hj, hjv, hjid⟩ := hkeep
    exact ⟨j, hj, hjv, hjid.trans hid⟩
  · rintro _ is' agg' ⟨⟩ accepted
    rw [haccepted] at accepted
    cases accepted
    exact ⟨hfileId, hfileNew⟩

theorem AllFull.step_batch (h : AllFull db) (hg : Tracked db ⟨env, .putOkBatch reqs⟩)
    (hserve : serve db ⟨env, .putOkBatch reqs⟩ = some db') : AllFull db' := by
  obtain ⟨hmembers, hnew⟩ := hg (by rw [Accepted, Namenode.prepare, haccepted]; rfl)
  obtain ⟨hid, hothers⟩ := hnew is agg haccepted
  obtain ⟨mid, rfl, hmid | ⟨f, hf, hne⟩⟩ := serve_putOkBatch haccepted hserve
  · intro id other hf
    by_cases hsame : id = agg.id
    · have hself : (mid.put (.agg agg)).find agg.id = some (.agg agg) :=
        mid.find_put_self (.agg agg)
      rw [hsame, hself] at hf
      cases hf
      exact full_of_batch haccepted hmid (fun req hreq ↦ ⟨(hmembers req hreq).1,
        (hmembers req hreq).2.1⟩) hid
    · have hf : mid.find id = some (.agg other) := by
        rwa [mid.find_put_of_ne (v := .agg agg) hsame] at hf
      have hf := ((internalPutOkBatch_ok hmid).find_agg id other).mp hf
      refine (h id other hf).batch haccepted hmid fun file hfile ↦ ?_
      obtain ⟨hfileId, hfileNew⟩ := hothers id other hf hsame file hfile
      refine ⟨hfileId, fun hown ↦ hfileNew ?_⟩
      rw [Request.own_putOkBatch] at hown
      obtain ⟨req, hreq, hp⟩ := List.mem_map.mp hown
      exact List.mem_map.mpr ⟨req, hreq, (hmembers req hreq).1.symm.trans hp⟩
  · have hown := own_of_accepted haccepted
    refine absurd (internalPutOkBatch_assertion hf (fun i hi ↦ ?_) fun i hi ↦ ?_) hne
    · obtain ⟨req, hreq, hri⟩ := forall₂_mem_right hown hi
      obtain ⟨hpath, -, hparent⟩ := hmembers req hreq
      rwa [Inode.parentPath, (putOk_member hri).1, hpath]
    · obtain ⟨-, j, hj, -⟩ := members_of_putOk hown i hi
      exact ⟨j, hj⟩

end

theorem AllFull.step (h : AllFull db) (hg : Tracked db call) (hserve : serve db call = some db') :
    AllFull db' := by
  obtain ⟨env, req⟩ := call
  by_cases hreq : ∃ reqs, req = .putOkBatch reqs
  · obtain ⟨reqs, rfl⟩ := hreq
    cases hx : Namenode.putOkBatch db env reqs with
    | ok entries =>
      obtain ⟨is, agg, -, -, rfl⟩ := Namenode.putOkBatch_ok hx
      exact AllFull.step_batch hx h hg hserve
    | error f =>
      simp only [serve, serveAnswered, Namenode.prepare, hx, Namenode.proposed, applyAll,
        Option.map_some, Option.some.injEq] at hserve
      exact hserve ▸ h
  · obtain ⟨ok, hserved⟩ := served_of_serve hserve
    exact h.step_other hg hserved fun reqs he ↦ hreq ⟨reqs, he⟩

/-- The flags and counts of all aggregates are right while no file leaves its aggregate. -/
theorem aggregates_accounted (h : Reaches serve Tracked .empty db) {id : Str}
    (hf : db.find id = some (.agg agg)) : agg.Accounted db := by
  have hfull : AllFull db := by
    refine h.invariant ?_ fun db call db' _ hfull hg hserve ↦ hfull.step hg hserve
    intro id agg hf
    cases hf
  exact (hfull id agg hf).accounted

def Value.agg? : Value → Option AggInode
  | .agg agg => some agg
  | .inode _ => none

theorem exists_find_agg {id : Str} {p : AggInode → Bool}
    (h : ((db.find id).bind Value.agg?).any p = true) :
    ∃ agg, db.find id = some (.agg agg) ∧ p agg = true := by
  obtain ⟨agg, hagg, hp⟩ := (Option.any_eq_true _ _).mp h
  obtain ⟨v, hv, he⟩ := Option.bind_eq_some_iff.mp hagg
  cases v with
  | inode i => cases he
  | agg a =>
    obtain rfl := Option.some.inj he
    exact ⟨a, hv, hp⟩

/-- The id that the namenode draws at the reading 0. -/
def firstId : Str := (SnowflakeIDGenerator.generateID { machineId := 1 } 0 0).1

theorem aggregates_accounted_batch :
    ∃ (db : RocksDB) (agg : AggInode), db.find firstId = some (.agg agg) ∧ agg.validCount = 1 ∧
      agg.Accounted db := by
  have hruns : ((serve .empty (.at 100 (.putBatch [⟨"/f".toList, "AGG<2,1,1>".toList⟩]))).bind
      fun db₁ ↦ serve db₁ (.at 101 (.putOkBatch commitFile))).any
        (fun db₂ ↦ ((db₂.find firstId).bind Value.agg?).any fun agg ↦ decide (agg.validCount = 1))
          = true := by decide +kernel
  obtain ⟨db₂, h₂, hp⟩ := (Option.any_eq_true _ _).mp hruns
  obtain ⟨db₁, h₁, h₂⟩ := Option.bind_eq_some_iff.mp h₂
  obtain ⟨agg, hf, hcount⟩ := exists_find_agg hp
  have hnone : ∀ id agg, db₁.find id ≠ some (.agg agg) := by
    intro id agg hf
    obtain ⟨ok, hserved⟩ := served_of_serve h₁
    exact absurd (hserved.find_agg (fun reqs he ↦ (nomatch he)) hf) (by simp)
  have htracked : Tracked db₁ (.at 101 (.putOkBatch commitFile)) := by
    intro _
    refine ⟨fun req hreq ↦ ?_, fun is agg haccepted ↦ ⟨fun hid ↦ ?_, fun id other hother ↦ ?_⟩⟩
    · obtain rfl := List.mem_singleton.mp hreq
      refine ⟨by decide, by decide, ?_⟩
      rintro ⟨other, hother⟩
      exact hnone _ other hother
    · obtain ⟨is', agg', -, hplain, he⟩ := Namenode.putOkBatch_ok haccepted
      obtain rfl : agg = agg' := by simpa using (List.cons.inj (List.cons.inj he).2).1
      have hid : agg.id = "/f".toList := by simpa [commitFile] using hid
      exact hplain (hid ▸ by decide)
    · exact absurd hother (hnone id other)
  have hr : Reaches serve Tracked .empty db₂ :=
    (Reaches.refl.tail (fun _ ↦ trivial) h₁).tail htracked h₂
  exact ⟨db₂, agg, hf, of_decide_eq_true hcount, aggregates_accounted hr hf⟩

/-- The requests under which the accounting is to be kept. -/
def Request.accounts : Request → Bool
  | .put _ | .putBatch _ | .putOk _ | .putOkBatch _ | .rm _ => true
  | .mkdir _ | .updateLock _ => false

/-- An `rm` of the only file of an aggregate. -/
theorem aggregates_not_accounted :
    ¬ ∀ db, Reaches serve (fun _ call ↦ call.request.accounts = true) .empty db →
      ∀ id agg, db.find id = some (.agg agg) → agg.Accounted db := by
  intro h
  obtain ⟨db, hr, hp⟩ := exists_reached serve (fun _ call ↦ call.request.accounts) .empty
    [.at 100 (.putBatch [⟨"/f".toList, "AGG<2,1,1>".toList⟩]),
      .at 101 (.putOkBatch commitFile), .at 102 (.rm "/f".toList)]
    (fun db ↦ decide (¬ ValidAt db "/f".toList) &&
      ((db.find firstId).bind Value.agg?).any fun agg : AggInode ↦ decide (agg.valid = [true]) &&
        decide (agg.files.map (·.path) = ["/f".toList]))
    (by decide +kernel)
  rw [Bool.and_eq_true, decide_eq_true_eq] at hp
  obtain ⟨hinvalid, hp⟩ := hp
  obtain ⟨agg, hf, hagg⟩ := exists_find_agg hp
  simp only [Bool.and_eq_true, decide_eq_true_eq] at hagg
  obtain ⟨hvalid, hfiles⟩ := hagg
  obtain ⟨file, hfile, hpath⟩ := List.map_eq_singleton_iff.mp hfiles
  have hflag := (h db hr firstId agg hf).flag 0 file (by rw [hfile]; rfl)
  obtain ⟨i, hi, hv, -⟩ := hflag.mp (by rw [hvalid]; rfl)
  exact hinvalid ⟨i, hpath ▸ hi, hv⟩

end Spkdfs
