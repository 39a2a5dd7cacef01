import Spkdfs.Node.Replica

namespace Spkdfs

open Library RocksDB

/-- The entry writes no record of the path: it is neither about the path nor about a name in it. -/
def Entry.Spares (path : Str) : Entry → Prop
  | .opPut inode => inode.fullpath.str ≠ path
  | .opPutBatch inodes => ∀ inode ∈ inodes, inode.fullpath.str ≠ path
  | .opMkdir inode | .opPutOk inode | .opRm inode =>
    inode.fullpath.str ≠ path ∧ inode.parentPath ≠ path
  | .opPutOkBatch inodes => ∀ inode ∈ inodes, inode.fullpath.str ≠ path ∧ inode.parentPath ≠ path
  | .opPutAgg agg => agg.id ≠ path

def Request.Spares (path : Str) (req : Request) : Prop :=
  ∀ db env, ∀ entry ∈ (Namenode.prepare db env req).1, entry.Spares path

def Action.Spares (path : Str) : Action → Prop
  | .prepare _ req => req.Spares path
  | .tick _ | .apply => True

variable {db db' : RocksDB} {path : Str} {e : Entry}

theorem Entry.Spares.applyOp (he : e.Spares path) (h : RaftNN.applyOp db e = .ok db') :
    db'.find path = db.find path := by
  cases e with
  | opMkdir i => exact (internalMkdir_eq_ok.mp h).find_other (Ne.symm he.1) (Ne.symm he.2)
  | opPut i =>
    rw [← Except.ok.inj h]
    exact db.find_put_of_ne (Ne.symm he)
  | opPutOk i =>
    obtain ⟨c, hc, hlinked⟩ := internalPutOk_eq_ok.mp h
    have hpath := fullpath_of_commit hc
    have hparent : c.parentPath = i.parentPath := by rw [Inode.parentPath, Inode.parentPath, hpath]
    refine hlinked.find_other ?_ ?_
    · rw [hpath]
      exact Ne.symm he.1
    · rw [hparent]
      exact Ne.symm he.2
  | opPutBatch is =>
    rw [← Except.ok.inj h]
    refine db.find_write_of_notMem fun hm ↦ ?_
    rw [List.map_map] at hm
    obtain ⟨i, hi, hpath⟩ := List.mem_map.mp hm
    exact he i hi hpath
  | opPutOkBatch is =>
    exact (internalPutOkBatch_ok h).other path (fun i hi ↦ (he i hi).2) fun i hi ↦ (he i hi).1
  | opPutAgg agg =>
    rw [← Except.ok.inj h]
    exact db.find_put_of_ne (Ne.symm he)
  | opRm i => exact (internalRm_ok h).find_other (Ne.symm he.1) (Ne.symm he.2)

theorem Entry.Spares.onApply {answer : Answer} (he : e.Spares path)
    (h : RaftNN.onApply db e = some (db', answer)) : db'.find path = db.find path := by
  cases answer with
  | success => exact he.applyOp (onApply_eq_success.mp h)
  | failure fault =>
    obtain ⟨-, -, rfl⟩ := onApply_eq_failure.mp h
    rfl

namespace Leader

variable {l l' t u : Leader} {own : Proposal} {a : Action} {during : List Action} {req : Request}

/-- The leader on the way to the answer of a request whose entry is `own`, while what else it
does spares the path. -/
inductive Handling (l : Leader) (own : Proposal) (path : Str) (t : Leader) : Prop
  | waiting {before after : List Proposal} (pending : t.pending = before ++ own :: after)
      (length : t.applied.length + before.length = l.log.length)
      (before_spares : ∀ q ∈ before, q.entry.Spares path)
      (after_spares : ∀ q ∈ after, q.entry.Spares path)
      (same : t.store.find path = l.store.find path)
  | done {db db' : RocksDB} {answer : Answer} {time : Nat}
      (pending : ∀ q ∈ t.pending, q.entry.Spares path)
      (record : t.applied[l.log.length]? = some ⟨own, answer, time⟩)
      (same : db.find path = l.store.find path)
      (applied : RaftNN.onApply db own.entry = some (db', answer))
      (kept : t.store.find path = db'.find path)

theorem spares_proposals (ha : req.Spares path) (t : Leader) (millis : Int) :
    ∀ q ∈ t.proposals millis req, q.entry.Spares path := by
  intro q hq
  obtain ⟨entry, hentry, rfl⟩ := List.mem_map.mp hq
  exact ha _ _ entry hentry

theorem Handling.step (h : Handling l own path t) (ha : a.Spares path) (hs : t.step a = some u) :
    Handling l own path u := by
  cases a with
  | tick seconds =>
    obtain rfl := Option.some.inj hs
    cases h with
    | waiting hp hlen hb haft hsame => exact .waiting hp hlen hb haft hsame
    | done hp hrec hsame happly hkept => exact .done hp hrec hsame happly hkept
  | prepare millis req =>
    obtain rfl := Option.some.inj hs
    have hnew := spares_proposals ha t millis
    cases h with
    | @waiting before after hp hlen hb haft hsame =>
      have hpending : t.pending ++ t.proposals millis req =
          before ++ own :: (after ++ t.proposals millis req) := by simp [hp]
      refine .waiting hpending hlen hb ?_ hsame
      intro q hq
      exact (List.mem_append.mp hq).elim (haft q) (hnew q)
    | done hp hrec hsame happly hkept =>
      refine .done ?_ hrec hsame happly hkept
      intro q hq
      exact (List.mem_append.mp hq).elim (hp q) (hnew q)
  | apply =>
    obtain ⟨p, rest, answer, hpend, honapply, hrest, happlied, -⟩ := step_apply hs
    cases h with
    | @waiting before after hp hlen hb haft hsame =>
      rw [hpend] at hp
      cases before with
      | nil =>
        -- the own entry is the next one
        obtain ⟨rfl, rfl⟩ := List.cons.inj hp
        have hindex : t.applied.length = l.log.length := hlen
        have hrecord : u.applied[l.log.length]? = some ⟨p, answer, t.now⟩ := by
          rw [happlied, ← hindex, List.getElem?_concat_length]
        exact .done (by rwa [hrest]) hrecord hsame honapply rfl
      | cons q before =>
        obtain ⟨rfl, rfl⟩ := List.cons.inj hp
        have hq := (hb p List.mem_cons_self).onApply honapply
        refine .waiting hrest ?_ (fun q hq ↦ hb q (List.mem_cons_of_mem _ hq)) haft
          (hq.trans hsame)
        rw [happlied, List.length_append, List.length_singleton]
        rw [List.length_cons] at hlen
        omega
    | done hp hrec hsame happly hkept =>
      rw [hpend] at hp
      have hq := (hp p List.mem_cons_self).onApply honapply
      have hrecord := hrec
      rw [← List.getElem?_append_left (List.getElem?_eq_some_iff.mp hrec).1, ← happlied] at hrecord
      refine .done ?_ hrecord hsame happly (hq.trans hkept)
      rw [hrest]
      exact fun q hq ↦ hp q (List.mem_cons_of_mem _ hq)

theorem Handling.run (h : Handling l own path t) (hduring : ∀ a ∈ during, a.Spares path)
    (hrun : Library.run Leader.step (fun _ _ ↦ true) t during = some u) : Handling l own path u := by
  induction during generalizing t with
  | nil =>
    obtain rfl := Option.some.inj hrun
    exact h
  | cons a during ih =>
    rw [Library.run, if_pos rfl, Option.bind_eq_some_iff] at hrun
    obtain ⟨s, hs, hrun⟩ := hrun
    have hstep := h.step (hduring a List.mem_cons_self) hs
    exact ih hstep (fun b hb ↦ hduring b (List.mem_cons_of_mem _ hb)) hrun

theorem reaches_of_rpc {r : Except Fault Entry} (h : l.rpc req during = some (r, l')) :
    Reaches Leader.step (fun _ _ ↦ True) l l' := by
  have hprepare : Reaches Leader.step (fun _ _ ↦ True) l
      { l with pending := l.pending ++ l.proposals 0 req } :=
    Reaches.refl.tail (a := .prepare 0 req) trivial rfl
  simp only [rpc, Leader.step, Option.bind_some] at h
  split at h
  · obtain ⟨-, rfl⟩ := Prod.mk.inj (Option.some.inj h)
    exact hprepare
  · simp only [Option.bind_eq_some_iff, Option.map_eq_some_iff, Prod.mk.injEq] at h
    obtain ⟨t, hrun, record, -, -, rfl⟩ := h
    exact hprepare.trans ((reaches_of_run .refl hrun).mono fun _ _ _ ↦ trivial)

theorem kept_step (ha : a.Spares path) (hpending : ∀ q ∈ t.pending, q.entry.Spares path)
    (hs : t.step a = some u) :
    u.store.find path = t.store.find path ∧ ∀ q ∈ u.pending, q.entry.Spares path := by
  cases a with
  | tick seconds =>
    obtain rfl := Option.some.inj hs
    exact ⟨rfl, hpending⟩
  | prepare millis req =>
    obtain rfl := Option.some.inj hs
    exact ⟨rfl, fun q hq ↦ (List.mem_append.mp hq).elim (hpending q)
      (spares_proposals ha t millis q)⟩
  | apply =>
    obtain ⟨p, rest, answer, hpend, honapply, hrest, -⟩ := step_apply hs
    rw [hpend] at hpending
    refine ⟨(hpending p List.mem_cons_self).onApply honapply, fun q hq ↦ ?_⟩
    rw [hrest] at hq
    exact hpending q (List.mem_cons_of_mem _ hq)

theorem kept_run (hduring : ∀ a ∈ during, a.Spares path)
    (hpending : ∀ q ∈ t.pending, q.entry.Spares path)
    (hrun : Library.run Leader.step (fun _ _ ↦ true) t during = some u) :
    u.store.find path = t.store.find path ∧ ∀ q ∈ u.pending, q.entry.Spares path := by
  induction during generalizing t with
  | nil =>
    obtain rfl := Option.some.inj hrun
    exact ⟨rfl, hpending⟩
  | cons a during ih =>
    rw [Library.run, if_pos rfl, Option.bind_eq_some_iff] at hrun
    obtain ⟨s, hs, hrun⟩ := hrun
    obtain ⟨hsame, hnext⟩ := kept_step (hduring a List.mem_cons_self) hpending hs
    obtain ⟨hrest, hlast⟩ := ih (fun b hb ↦ hduring b (List.mem_cons_of_mem _ hb)) hnext hrun
    exact ⟨hrest.trans hsame, hlast⟩

/-- A request about other paths. -/
theorem rpc_kept {r : Except Fault Entry} (hreq : req.Spares path)
    (hpending : ∀ q ∈ l.pending, q.entry.Spares path) (hduring : ∀ a ∈ during, a.Spares path)
    (h : l.rpc req during = some (r, l')) :
    l'.store.find path = l.store.find path ∧ ∀ q ∈ l'.pending, q.entry.Spares path := by
  have hnext : ∀ q ∈ l.pending ++ l.proposals 0 req, q.entry.Spares path := fun q hq ↦
    (List.mem_append.mp hq).elim (hpending q) (spares_proposals hreq l 0 q)
  simp only [rpc, step, Option.bind_some] at h
  split at h
  · obtain ⟨-, rfl⟩ := Prod.mk.inj (Option.some.inj h)
    exact ⟨rfl, hnext⟩
  · simp only [Option.bind_eq_some_iff, Option.map_eq_some_iff, Prod.mk.injEq] at h
    obtain ⟨t, hrun, record, -, -, rfl⟩ := h
    exact kept_run (t := { l with pending := l.pending ++ l.proposals 0 req }) hduring hnext hrun

/-- A request of which the client learns that its first entry succeeded, while everything else
spares the path. -/
theorem rpc_spared_cons (hpending : ∀ q ∈ l.pending, q.entry.Spares path)
    (hduring : ∀ a ∈ during, a.Spares path) {entry : Entry} {more : List Entry}
    (hmore : ∀ x ∈ more, x.Spares path)
    (hreq : (Namenode.prepare l.store (l.env 0) req).1 = e :: more)
    (h : l.rpc req during = some (.ok entry, l')) :
    ∃ db db', db.find path = l.store.find path ∧ RaftNN.applyOp db e = .ok db' ∧
      l'.store.find path = db'.find path ∧ ∀ q ∈ l'.pending, q.entry.Spares path := by
  simp only [rpc, step, Option.bind_some] at h
  split at h
  · cases h
  simp only [Option.bind_eq_some_iff, Option.map_eq_some_iff, Prod.mk.injEq] at h
  obtain ⟨t, hrun, record, hrecord, hok, rfl⟩ := h
  have hstart : Handling l ⟨e, req, l.now⟩ path
      { l with pending := l.pending ++ l.proposals 0 req } := by
    have hnext : l.pending ++ l.proposals 0 req =
        l.pending ++ ⟨e, req, l.now⟩ :: more.map fun x ↦ ⟨x, req, l.now⟩ := by
      simp [proposals, hreq]
    refine .waiting hnext (by simp [log]) hpending ?_ rfl
    intro q hq
    obtain ⟨x, hx, rfl⟩ := List.mem_map.mp hq
    exact hmore x hx
  have hend := hstart.run hduring hrun
  cases hend with
  | @waiting before after hp hlen _ _ _ =>
    obtain ⟨hlt, -⟩ := List.getElem?_eq_some_iff.mp hrecord
    omega
  | @done db db' answer time hp hrec hsame happly hkept =>
    rw [hrec] at hrecord
    obtain rfl := Option.some.inj hrecord
    cases answer with
    | failure fault => cases hok
    | success => exact ⟨db, db', hsame, onApply_eq_success.mp happly, hkept, hp⟩

theorem rpc_spared (hpending : ∀ q ∈ l.pending, q.entry.Spares path)
    (hduring : ∀ a ∈ during, a.Spares path) {entry : Entry}
    (hreq : (Namenode.prepare l.store (l.env 0) req).1 = [e])
    (h : l.rpc req during = some (.ok entry, l')) :
    ∃ db db', db.find path = l.store.find path ∧ RaftNN.applyOp db e = .ok db' ∧
      l'.store.find path = db'.find path ∧ ∀ q ∈ l'.pending, q.entry.Spares path :=
  rpc_spared_cons hpending hduring (by simp) hreq h

section

variable {path : Str} {entry : Entry} {j : Inode}
  (hpending : ∀ q ∈ l.pending, q.entry.Spares (simplifyPath path))
  (hduring : ∀ a ∈ during, a.Spares (simplifyPath path))

include hpending hduring

/-- A `put` of a path without an inode makes one. -/
theorem rpc_put_spared {storage : StorageType} (hstorage : ∀ n ∈ storage.parameters, n ≤ intMax)
    (hfresh : lookup l.store (simplifyPath path) = none)
    (h : l.rpc (.put ⟨path, storage.toString⟩) during = some (.ok entry, l')) :
    path ≠ [] ∧ lookup l'.store (simplifyPath path) =
        some { Inode.ofPath path with
          valid := true, ddlLock := l.now + lockRefreshInterval, storageType := some storage } ∧
      ∀ q ∈ l'.pending, q.entry.Spares (simplifyPath path) := by
  cases hput : Namenode.put l.store l.now ⟨path, storage.toString⟩ with
  | error fault => simp [rpc, step, Namenode.prepare, Namenode.proposed, hput, env] at h
  | ok es =>
    obtain ⟨i, hi, rfl⟩ := Namenode.put_eq_ok.mp hput
    obtain ⟨hne, f, hf, found, hfound, rfl⟩ := Namenode.putInode_eq_ok.mp hi
    rw [StorageType.fromString_toString hstorage] at hfound
    obtain rfl := Except.ok.inj hfound
    obtain ⟨g, hg, -, -, rfl⟩ := preparePut_eq_ok.mp hf
    obtain ⟨-, -, rfl⟩ := (getInode_eq_ok.mp hg).resolve_left (by simp [hfresh])
    obtain ⟨db, db', -, happly, hkept, hrest⟩ := rpc_spared hpending hduring
      (by simp [Namenode.prepare, Namenode.proposed, hput, env]; rfl) h
    refine ⟨hne, ?_, hrest⟩
    rw [lookup, hkept, ← lookup, ← Except.ok.inj happly]
    exact lookup_put_eq rfl

/-- A refresh of the lock changes nothing else. -/
theorem rpc_updateLock_spared (hl : lookup l.store (simplifyPath path) = some j)
    (h : l.rpc (.updateLock [path]) during = some (.ok entry, l')) :
    lookup l'.store (simplifyPath path) = some (j.updateDdlLock l.now) ∧
      ∀ q ∈ l'.pending, q.entry.Spares (simplifyPath path) := by
  obtain ⟨i, hi, hv⟩ := (rpc_updateLock h).mp ⟨entry, rfl⟩
  rw [hl] at hi
  obtain rfl := Option.some.inj hi
  have hls : RocksDB.ls l.store (.ofPath path) = .ok j := ls_eq_ok.mpr ⟨hl, hv⟩
  obtain ⟨db, db', -, happly, hkept, hrest⟩ := rpc_spared hpending hduring
    (by simp [Namenode.prepare, Namenode.updateLock, Namenode.updateLockEntries, hls, env]; rfl) h
  refine ⟨?_, hrest⟩
  have hpath : (j.updateDdlLock l.now).fullpath.str = simplifyPath path := by
    rw [← fullpath_of_lookup hl]
    rfl
  rw [lookup, hkept, ← lookup, ← Except.ok.inj happly]
  exact lookup_put_eq hpath

/-- A `put_ok` gives the inode its content and releases the lock. -/
theorem rpc_putOk_spared {filesize : Nat} {sub : List Str}
    (hl : lookup l.store (simplifyPath path) = some j)
    (h : l.rpc (.putOk ⟨path, filesize, sub⟩) during = some (.ok entry, l')) :
    lookup l'.store (simplifyPath path) =
        some { j with ddlLock := 0, sub := sub, filesize := filesize } ∧
      ∀ q ∈ l'.pending, q.entry.Spares (simplifyPath path) := by
  cases hput : Namenode.putOk l.store ⟨path, filesize, sub⟩ with
  | error fault => simp [rpc, step, Namenode.prepare, Namenode.proposed, hput] at h
  | ok es =>
    obtain ⟨i, hi, rfl⟩ := Namenode.putOk_eq_ok.mp hput
    obtain ⟨-, f, hf, rfl⟩ := Namenode.putOkInode_eq_ok.mp hi
    obtain ⟨hf, -, -⟩ := preparePutOk_eq_ok.mp hf
    have hf := hl.symm.trans hf
    obtain rfl := Option.some.inj hf
    obtain ⟨db, db', hsame, happly, hkept, hrest⟩ := rpc_spared hpending hduring
      (by simp [Namenode.prepare, Namenode.proposed, hput]; rfl) h
    refine ⟨?_, hrest⟩
    have hdb : lookup db (simplifyPath path) = some j := by rw [lookup, hsame, ← lookup, hl]
    obtain ⟨c, hc, hlinked⟩ := internalPutOk_eq_ok.mp happly
    have hself := hlinked.lookup_self
    obtain rfl := commit_of_lookup hdb hc
    rw [lookup, hkept, ← lookup, ← hself]
    exact congrArg _ (fullpath_of_lookup hl).symm

end

end Leader

end Spkdfs
