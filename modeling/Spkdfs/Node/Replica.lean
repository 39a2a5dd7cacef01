import Spkdfs.Node.Leader

namespace Spkdfs

open Library RocksDB

def Answer.outcome (entry : Entry) : Answer → Except Fault Entry
  | .success => .ok entry
  | .failure fault => .error fault

namespace Leader

/-- The store of a namenode that has applied the first `n` entries of the log. -/
def replica (l : Leader) (n : Nat) : Option RocksDB :=
  (applyAll .empty ((l.applied.take n).map (·.proposal.entry))).map (·.1)

/-- A request of a client that waits for its answer. `during` is what happens on the leader
until the client reads it. -/
def rpc (l : Leader) (req : Request) (during : List Action) :
    Option (Except Fault Entry × Leader) :=
  let index := l.log.length
  (l.step (.prepare 0 req)).bind fun proposed ↦
    match (Namenode.prepare l.store (l.env 0) req).2 with
    | some fault => some (.error fault, proposed)
    | none =>
      (run step (fun _ _ ↦ true) proposed during).bind fun answered ↦
        answered.applied[index]?.map fun record ↦
          (record.answer.outcome record.proposal.entry, answered)

variable {l l' : Leader} {a : Action}

theorem log_step (h : l.step a = some l') : l.log <+: l'.log := by
  cases a with
  | tick seconds =>
    obtain rfl := Option.some.inj h
    exact List.prefix_refl _
  | prepare millis req =>
    obtain rfl := Option.some.inj h
    exact ⟨_, (log_prepare l millis req).symm⟩
  | apply => exact log_apply h ▸ List.prefix_refl _

variable {guard : Leader → Action → Prop}

theorem log_of_reaches (h : Reaches step guard l l') : l.log <+: l'.log := by
  induction h with
  | refl => exact List.prefix_refl _
  | tail _ _ hs ih => exact ih.trans (log_step hs)

theorem applied_of_reaches (h : Reaches step guard l l') :
    ∃ rs : List Record, l'.applied = l.applied ++ rs ∧
      ∀ r ∈ rs, ∃ db db', RaftNN.onApply db r.proposal.entry = some (db', r.answer) := by
  induction h with
  | refl => exact ⟨[], by simp, by simp⟩
  | @tail t u a _ _ hs ih =>
    obtain ⟨rs, he, hrs⟩ := ih
    cases a with
    | tick seconds =>
      obtain rfl := Option.some.inj hs
      exact ⟨rs, he, hrs⟩
    | prepare millis req =>
      obtain rfl := Option.some.inj hs
      exact ⟨rs, he, hrs⟩
    | apply =>
      obtain ⟨p, rest, answer, -, happly, -, happlied, -⟩ := step_apply hs
      refine ⟨rs ++ [⟨p, answer, t.now⟩], by rw [happlied, he, List.append_assoc], ?_⟩
      intro r hr
      rcases List.mem_append.mp hr with hr | hr
      · exact hrs r hr
      · obtain rfl := List.mem_singleton.mp hr
        exact ⟨_, _, happly⟩

/-- The first entry of a request stands where the log ended when the request was handled. -/
theorem proposal_at {millis : Int} {req : Request} {p : Proposal} {more : List Proposal}
    {record : Record} (hlog : l.log ++ l.proposals millis req <+: l'.log)
    (hp : l.proposals millis req = p :: more)
    (hrecord : l'.applied[l.log.length]? = some record) : record.proposal = p := by
  obtain ⟨rest, hrest⟩ := hlog
  have hlt := (List.getElem?_eq_some_iff.mp hrecord).1
  have hat : l'.log[l.log.length]? = some record.proposal := by
    rw [log, List.getElem?_append_left (by rwa [List.length_map]), List.getElem?_map, hrecord]
    rfl
  rw [← hrest, hp, List.append_assoc, List.getElem?_append_right le_rfl, Nat.sub_self] at hat
  exact (Option.some.inj hat).symm

inductive Answered (l : Leader) (req : Request) : Except Fault Entry → Prop
  | refused {fault : Fault} (h : (Namenode.prepare l.store (l.env 0) req).2 = some fault) :
      Answered l req (.error fault)
  | applied {entry : Entry} {db db' : RocksDB} {answer : Answer}
      (handled : (Namenode.prepare l.store (l.env 0) req).2 = none)
      (own : ∀ e es, (Namenode.prepare l.store (l.env 0) req).1 = e :: es → entry = e)
      (done : RaftNN.onApply db entry = some (db', answer)) :
      Answered l req (answer.outcome entry)

theorem answered_of_rpc {req : Request} {during : List Action} {r : Except Fault Entry}
    (h : l.rpc req during = some (r, l')) : l.Answered req r := by
  simp only [rpc, step, Option.bind_some] at h
  split at h
  · rename_i fault hf
    obtain ⟨rfl, -⟩ := Prod.mk.inj (Option.some.inj h)
    exact .refused hf
  · rename_i hf
    simp only [Option.bind_eq_some_iff, Option.map_eq_some_iff, Prod.mk.injEq] at h
    obtain ⟨l₂, hrun, record, hrec, rfl, rfl⟩ := h
    have hr := reaches_of_run .refl hrun
    obtain ⟨rs, happlied, hrs⟩ := applied_of_reaches hr
    have hge : l.applied.length ≤ l.log.length := by simp [log]
    have hmem : record ∈ rs := by
      rw [happlied, List.getElem?_append_right hge] at hrec
      exact List.mem_of_getElem? hrec
    obtain ⟨db, db', hdone⟩ := hrs record hmem
    refine .applied hf (fun e es he ↦ ?_) hdone
    have hlog := log_of_reaches hr
    rw [log_prepare] at hlog
    have hp : l.proposals 0 req = ⟨e, req, l.now⟩ :: es.map fun entry ↦ ⟨entry, req, l.now⟩ := by
      rw [proposals, he]
      rfl
    rw [proposal_at hlog hp hrec]

variable {during : List Action} {entry : Entry}

theorem entry_of_rpc {req : Request} {e : Entry}
    (he : (Namenode.prepare l.store (l.env 0) req).2 = none →
      (Namenode.prepare l.store (l.env 0) req).1 = [e])
    (h : l.rpc req during = some (.ok entry, l')) : entry = e := by
  have ha := answered_of_rpc h
  generalize hr : (.ok entry : Except Fault Entry) = r at ha
  cases ha with
  | refused _ => cases hr
  | @applied own _ _ answer handled hown _ =>
    cases answer with
    | failure f => cases hr
    | success =>
      obtain rfl := Except.ok.inj hr
      exact hown e [] (he handled)

theorem rpc_putOk {req : NNPutOKRequest}
    (h : l.rpc (.putOk req) during = some (.ok entry, l')) :
    ∃ i, entry = .opPutOk i ∧ i.sub = req.sub ∧ i.filesize = req.filesize := by
  cases hp : Namenode.putOk l.store req with
  | error f => simp [rpc, step, Namenode.prepare, Namenode.proposed, hp] at h
  | ok es =>
    obtain ⟨i, hi, rfl⟩ := Namenode.putOk_eq_ok.mp hp
    obtain ⟨-, j, -, rfl⟩ := Namenode.putOkInode_eq_ok.mp hi
    have he := entry_of_rpc (fun _ ↦ by simp [Namenode.prepare, Namenode.proposed, hp]; rfl) h
    exact ⟨_, he, rfl, rfl⟩

/-- A refresh of one path is answered with success if and only if the path is valid, whatever
its lease. -/
theorem rpc_updateLock {path : Str} {r : Except Fault Entry}
    (h : l.rpc (.updateLock [path]) during = some (r, l')) :
    (∃ entry, r = .ok entry) ↔
      ∃ j, lookup l.store (simplifyPath path) = some j ∧ j.valid = true := by
  have hok : (∃ j, lookup l.store (simplifyPath path) = some j ∧ j.valid = true) ↔
      ∃ j, RocksDB.ls l.store (.ofPath path) = .ok j := exists_congr fun j ↦ ls_eq_ok.symm
  rw [hok]
  have ha := answered_of_rpc h
  cases hls : RocksDB.ls l.store (.ofPath path) with
  | error f =>
    cases ha with
    | refused _ => simp
    | applied handled _ _ =>
      simp [Namenode.prepare, Namenode.updateLock, Namenode.updateLockEntries, hls] at handled
  | ok j =>
    cases ha with
    | refused hf =>
      simp [Namenode.prepare, Namenode.updateLock, Namenode.updateLockEntries, hls] at hf
    | @applied entry _ _ answer _ own done =>
      have he : entry = .opPut (j.updateDdlLock l.now) := own _ [] (by
        simp [Namenode.prepare, Namenode.updateLock, Namenode.updateLockEntries, hls, env])
      subst he
      obtain ⟨-, rfl⟩ := Prod.mk.inj (Option.some.inj done)
      simp [Answer.outcome]

theorem applyAll_append (db : RocksDB) (es es' : List Entry) :
    (applyAll db (es ++ es')).map (·.1) =
      ((applyAll db es).map (·.1)).bind fun db' ↦ (applyAll db' es').map (·.1) := by
  induction es generalizing db with
  | nil => simp [applyAll]
  | cons e es ih =>
    simp only [List.cons_append, applyAll]
    cases RaftNN.onApply db e with
    | none => rfl
    | some p =>
      have hp := ih p.1
      simp only [Option.bind_some, Option.map_map, Function.comp_def] at hp ⊢
      exact hp

/-- The leader's store is the result of its log. -/
theorem replica_of_reaches {myIp : Str} {now : Nat}
    (h : Reaches step guard (start myIp now) l) :
    l.replica l.applied.length = some l.store := by
  rw [replica, List.take_length]
  induction h with
  | refl => rfl
  | @tail t u a _ _ hs ih =>
    cases a with
    | tick seconds =>
      obtain rfl := Option.some.inj hs
      exact ih
    | prepare millis req =>
      obtain rfl := Option.some.inj hs
      exact ih
    | apply =>
      obtain ⟨p, rest, answer, -, happly, -, happlied, -⟩ := step_apply hs
      rw [happlied, List.map_append, applyAll_append, ih]
      simp [applyAll, happly]

theorem replica_isSome {myIp : Str} {now : Nat}
    (h : Reaches step guard (start myIp now) l) (n : Nat) : (l.replica n).isSome := by
  have hall := replica_of_reaches h
  rw [replica, List.take_length, ← List.take_append_drop n l.applied, List.map_append,
    applyAll_append] at hall
  rw [replica]
  cases hn : (applyAll .empty ((l.applied.take n).map (·.proposal.entry))).map (·.1) with
  | none =>
    rw [hn] at hall
    cases hall
  | some db => rfl

end Leader

end Spkdfs
