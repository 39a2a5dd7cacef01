import Spkdfs.Node.Format
import Spkdfs.Node.Batch

namespace Spkdfs

open Library RocksDB

/-- The aggregate lists the file, with the range that its first sub entry ends in. -/
def AggInode.Lists (agg : AggInode) (i : Inode) : Prop :=
  ∃ entry file, i.sub.head? = some entry ∧ file ∈ agg.files ∧ file.path = i.fullpath.str ∧
    Namenode.getLastPair entry = .ok file.pos

/-- A leader, its store, the entries that are proposed and not yet applied, and the aggregates
proposed so far. -/
structure Proposer where
  store : RocksDB
  pending : List Entry
  drawn : List AggInode

/-- A handler may be stopped before it has proposed all its entries. -/
inductive Move
  | prepare (env : Env) (req : Request) (proposed : Nat)
  | apply
deriving DecidableEq

def Entry.agg? : Entry → Option AggInode
  | .opPutAgg agg => some agg
  | _ => none

namespace Proposer

def start : Proposer := ⟨.empty, [], []⟩

def propose (l : Proposer) (entries : List Entry) : Proposer :=
  { l with pending := l.pending ++ entries, drawn := l.drawn ++ entries.filterMap Entry.agg? }

def step (l : Proposer) : Move → Option Proposer
  | .prepare env req proposed =>
    some (l.propose ((Namenode.prepare l.store env req).1.take proposed))
  | .apply =>
    match l.pending with
    | [] => none
    | entry :: rest =>
      (RaftNN.onApply l.store entry).map fun (store, _) ↦ { l with store, pending := rest }

/-- What `put_ok_batch` leaves to luck: that both entries are proposed, that the paths are sent
as they are stored, and that the id is new and no path of a file. -/
def Intact (l : Proposer) : Move → Prop
  | .prepare _ (.putBatch reqs) _ =>
    ∀ agg, .opPutAgg agg ∈ l.pending → ∀ req ∈ reqs, simplifyPath req.path ≠ agg.id
  | .prepare env (.putOkBatch reqs) proposed => proposed ≠ 0 →
    ∀ is agg, Namenode.putOkBatch l.store env reqs = .ok [.opPutOkBatch is, .opPutAgg agg] →
      (proposed = 1 → reqs = []) ∧ (∀ req ∈ reqs, simplifyPath req.path = req.path) ∧
      agg.id ∉ l.drawn.map (·.id) ∧
      ∀ js, .opPutBatch js ∈ l.pending → ∀ j ∈ js, j.fullpath.str ≠ agg.id
  | .prepare _ _ _ => False
  | .apply => True

/-- Between the two entries of a batch that is not empty. -/
def Between (l : Proposer) : Prop :=
  ∃ agg, l.pending.head? = some (.opPutAgg agg) ∧ agg.files ≠ []

end Proposer

/-- Whatever an entry writes refers to an aggregate that is there before it, or that comes
next in the log. -/
def Ready (has : Str → Prop) : List Entry → Prop
  | [] => True
  | .opPutBatch is :: rest => (∀ i ∈ is, i.aggInodeId ≠ [] → has i.aggInodeId) ∧ Ready has rest
  | .opPutOkBatch is :: rest =>
    (∀ i ∈ is, ∃ agg, rest.head? = some (.opPutAgg agg) ∧ i.aggInodeId = agg.id) ∧ Ready has rest
  | .opPutAgg agg :: rest => Ready (fun id ↦ id = agg.id ∨ has id) rest
  | _ :: _ => False

def Entry.inodesOf : Entry → List Inode
  | .opPutBatch is | .opPutOkBatch is => is
  | _ => []

def Stored (db : RocksDB) (id : Str) : Prop := ∃ agg, db.find id = some (.agg agg)

/-- The file is listed by an aggregate that was proposed under its id. -/
def Refers (drawn : List AggInode) (i : Inode) : Prop :=
  i.aggInodeId ≠ [] → ∃ agg ∈ drawn, agg.id = i.aggInodeId ∧ agg.Lists i

namespace Proposer

structure Sound (l : Proposer) : Prop where
  nonempty : ∀ agg ∈ l.drawn, agg.id ≠ []
  unique : ∀ a ∈ l.drawn, ∀ b ∈ l.drawn, a.id = b.id → a = b
  stored : ∀ id agg, l.store.find id = some (.agg agg) → agg ∈ l.drawn
  proposed : ∀ agg, .opPutAgg agg ∈ l.pending → agg ∈ l.drawn
  refers : ∀ path i, lookup l.store path = some i → Refers l.drawn i
  refersNext : ∀ e ∈ l.pending, ∀ i ∈ e.inodesOf, Refers l.drawn i
  backed : ∀ path i, lookup l.store path = some i → i.aggInodeId ≠ [] →
    Stored l.store i.aggInodeId ∨
      ∃ agg, l.pending.head? = some (.opPutAgg agg) ∧ i.aggInodeId = agg.id
  ready : Ready (Stored l.store) l.pending
  apart : ∀ is, .opPutBatch is ∈ l.pending → ∀ i ∈ is, ¬ Stored l.store i.fullpath.str ∧
    ∀ agg, .opPutAgg agg ∈ l.pending → i.fullpath.str ≠ agg.id

end Proposer

variable {db db' : RocksDB} {has has' : Str → Prop} {es es' : List Entry} {i c : Inode}

theorem Ready.mono (h : Ready has es) (hmono : ∀ id, has id → has' id) : Ready has' es := by
  induction es generalizing has has' with
  | nil => trivial
  | cons e es ih =>
    cases e with
    | opPutBatch is => exact ⟨fun i hi hid ↦ hmono _ (h.1 i hi hid), ih h.2 hmono⟩
    | opPutOkBatch is => exact ⟨h.1, ih h.2 hmono⟩
    | opPutAgg agg => exact ih h fun id hid ↦ hid.imp_right (hmono id)
    | _ => exact h.elim

theorem Ready.append (h : Ready has es)
    (h' : Ready (fun id ↦ (∃ agg, .opPutAgg agg ∈ es ∧ id = agg.id) ∨ has id) es') :
    Ready has (es ++ es') := by
  induction es generalizing has with
  | nil => exact h'.mono fun id hid ↦ hid.resolve_left (by simp)
  | cons e es ih =>
    have hrest : ∀ id, ((∃ agg, .opPutAgg agg ∈ e :: es ∧ id = agg.id) ∨ has id) →
        (∃ agg, .opPutAgg agg ∈ es ∧ id = agg.id) ∨ (∃ agg, e = .opPutAgg agg ∧ id = agg.id) ∨
          has id := by
      rintro id (⟨agg, hm, he⟩ | hid)
      · rcases List.mem_cons.mp hm with rfl | hm
        · exact .inr (.inl ⟨agg, rfl, he⟩)
        · exact .inl ⟨agg, hm, he⟩
      · exact .inr (.inr hid)
    cases e with
    | opPutBatch is =>
      refine ⟨h.1, ih h.2 (h'.mono fun id hid ↦ (hrest id hid).imp_right fun hid ↦ ?_)⟩
      exact hid.resolve_left (by simp)
    | opPutOkBatch is =>
      refine ⟨fun i hi ↦ ?_, ih h.2 (h'.mono fun id hid ↦ (hrest id hid).imp_right fun hid ↦ ?_)⟩
      · obtain ⟨agg, hhead, hid⟩ := h.1 i hi
        refine ⟨agg, ?_, hid⟩
        cases es with
        | nil => cases hhead
        | cons e es => exact hhead
      · exact hid.resolve_left (by simp)
    | opPutAgg agg =>
      refine ih h (h'.mono fun id hid ↦ (hrest id hid).imp_right fun hid ↦ ?_)
      refine hid.imp_left ?_
      rintro ⟨a, ha, hid⟩
      cases ha
      exact hid
    | _ => exact h.elim

namespace Namenode

variable {env : Env} {reqs : List NNPutOKRequest} {is : List Inode} {agg : AggInode} {id : Str}

theorem putOkMember_eq_ok {req : NNPutOKRequest} {m : Inode × FileInfo} :
    putOkMember db id req = .ok m ↔ ∃ j entry rest pos, putOkInode db req = .ok j ∧
      req.sub = entry :: rest ∧ getLastPair entry = .ok pos ∧
        m = ({ j with aggInodeId := id }, ⟨req.path, j.filesize, pos⟩) := by
  unfold putOkMember
  rw [bind_eq_ok]
  refine exists_congr fun j ↦ ?_
  cases hsub : req.sub with
  | nil => simp
  | cons entry rest =>
    simp only [bind_eq_ok, pure_eq_ok, Except.ok.injEq]
    constructor
    · rintro ⟨hj, pos, hpos, rfl⟩
      exact ⟨entry, rest, pos, hj, rfl, hpos, rfl⟩
    · rintro ⟨e, r, pos, hj, he, hpos, rfl⟩
      obtain ⟨rfl, rfl⟩ := List.cons.inj he
      exact ⟨hj, pos, hpos, rfl⟩

/-- The two entries of an accepted batch. -/
theorem putOkBatch_members (h : putOkBatch db env reqs = .ok [.opPutOkBatch is, .opPutAgg agg]) :
    ∃ members, List.Forall₂ (fun req m ↦ putOkMember db agg.id req = .ok m) reqs members ∧
      is = members.map (·.1) ∧ agg.files = members.map (·.2) ∧
        agg.valid = reqs.map (fun _ ↦ true) ∧ agg.validCount = reqs.length := by
  unfold putOkBatch at h
  simp only [bind_eq_ok, pure_eq_ok, Except.ok.injEq, mapM_eq_ok] at h
  obtain ⟨machineId, -, members, hm, he⟩ := h
  simp only [List.cons.injEq, Entry.opPutOkBatch.injEq, Entry.opPutAgg.injEq, and_true] at he
  obtain ⟨rfl, rfl⟩ := he
  exact ⟨members, hm, rfl, rfl, rfl, rfl⟩

theorem lists_of_putOkBatch
    (h : putOkBatch db env reqs = .ok [.opPutOkBatch is, .opPutAgg agg])
    (hpaths : ∀ req ∈ reqs, simplifyPath req.path = req.path) (hi : i ∈ is) :
    i.aggInodeId = agg.id ∧ agg.Lists i := by
  obtain ⟨members, hm, rfl, hfiles, -⟩ := putOkBatch_members h
  obtain ⟨m, hmem, rfl⟩ := List.mem_map.mp hi
  obtain ⟨req, hreq, hrm⟩ := forall₂_mem_right hm hmem
  obtain ⟨j, entry, rest, pos, hj, hsub, hpos, rfl⟩ := putOkMember_eq_ok.mp hrm
  refine ⟨rfl, entry, _, ?_, hfiles ▸ List.mem_map.mpr ⟨_, hmem, rfl⟩, ?_, hpos⟩
  · obtain ⟨-, f, -, rfl⟩ := putOkInode_eq_ok.mp hj
    simp [hsub]
  · have hpath := (putOk_member (i := { j with aggInodeId := agg.id }) ⟨j, hj, rfl⟩).1
    exact (hpaths req hreq).symm.trans hpath.symm

end Namenode

theorem stored_of_find {agg : AggInode} {id : Str} (h : db.find id = some (.agg agg)) :
    Stored db id := ⟨agg, h⟩

theorem Stored.lookup_eq_none {id : Str} (h : Stored db id) : lookup db id = none := by
  obtain ⟨agg, h⟩ := h
  rw [lookup, h]

theorem not_stored_of_getInode {path : Str} (h : getInode db (.ofPath path) = .ok i) :
    ¬ Stored db (simplifyPath path) := by
  intro hs
  rcases getInode_eq_ok.mp h with hl | ⟨hn, -, -⟩
  · rw [hs.lookup_eq_none] at hl
    cases hl
  · obtain ⟨agg, hagg⟩ := hs
    rw [hn] at hagg
    cases hagg

theorem commitAgg_ok (h : commitAgg db i = .ok c) :
    c.fullpath = i.fullpath ∧ c.sub = i.sub ∧
      (i.aggInodeId ≠ [] → c.aggInodeId = i.aggInodeId) ∧ ¬ Stored db i.fullpath.str := by
  have hpath := fullpath_of_commitAgg h
  rw [commitAgg, bind_eq_ok] at h
  obtain ⟨d, hd, h⟩ := h
  obtain ⟨f, hf, rfl⟩ := commit_eq_ok.mp hd
  have hs := not_stored_of_getInode hf
  rw [i.fullpath.simplified] at hs
  split at h
  · rename_i hid
    obtain rfl := Except.ok.inj h
    exact ⟨hpath, rfl, fun hne ↦ absurd hid hne, hs⟩
  · obtain rfl := Except.ok.inj h
    exact ⟨hpath, rfl, fun _ ↦ rfl, hs⟩

theorem AggInode.Lists.congr {agg : AggInode} {j : Inode} (h : agg.Lists i)
    (hsub : ∀ entry, i.sub.head? = some entry → j.sub.head? = some entry)
    (hpath : j.fullpath = i.fullpath) : agg.Lists j := by
  obtain ⟨entry, file, he, hf, hp, hpos⟩ := h
  exact ⟨entry, file, hsub entry he, hf, by rw [hp, hpath], hpos⟩

theorem Refers.congr {drawn : List AggInode} {j : Inode} (h : Refers drawn i)
    (hid : j.aggInodeId = i.aggInodeId)
    (hsub : ∀ entry, i.sub.head? = some entry → j.sub.head? = some entry)
    (hpath : j.fullpath = i.fullpath) : Refers drawn j := by
  intro hne
  obtain ⟨agg, hagg, he, hl⟩ := h (hid ▸ hne)
  exact ⟨agg, hagg, he.trans hid.symm, hl.congr hsub hpath⟩

theorem head_dentries (is : List Inode) (path : Str) {sub : List Str} {entry : Str}
    (h : sub.head? = some entry) : (dentries is path sub).head? = some entry := by
  unfold dentries
  refine List.foldlRecOn _ _ (motive := fun sub : List Str ↦ sub.head? = some entry) h fun sub hsub i _ ↦ ?_
  unfold addName
  split
  · exact hsub
  · rw [List.head?_append, hsub, Option.some_or]

/-- A batch touches no aggregate, and makes none. -/
theorem RocksDB.BatchEffect.find_agg {is : List Inode} (h : BatchEffect db is db') (id : Str)
    (agg : AggInode) : db'.find id = some (.agg agg) ↔ db.find id = some (.agg agg) := by
  by_cases hp : ∃ i ∈ is, i.parentPath = id
  · obtain ⟨i, hi, rfl⟩ := hp
    obtain ⟨p, hp, hp'⟩ := h.parent i hi
    constructor
    · intro hf
      rw [(stored_of_find hf).lookup_eq_none] at hp'
      cases hp'
    · intro hf
      rw [(stored_of_find hf).lookup_eq_none] at hp
      cases hp
  have hp : ∀ i ∈ is, i.parentPath ≠ id := fun i hi he ↦ hp ⟨i, hi, he⟩
  by_cases hm : ∃ i ∈ is, i.fullpath.str = id
  · obtain ⟨i, hi, rfl⟩ := hm
    obtain ⟨j, hj, c, hc, hl⟩ := h.member i hi hp
    have hpath : j.fullpath = i.fullpath := (of_getLast?_filter hj).2
    constructor
    · intro hf
      rw [(stored_of_find hf).lookup_eq_none] at hl
      cases hl
    · intro hf
      exact absurd (stored_of_find hf) (hpath ▸ (commitAgg_ok hc).2.2.2)
  · have hm : ∀ i ∈ is, i.fullpath.str ≠ id := fun i hi he ↦ hm ⟨i, hi, he⟩
    rw [h.other id hp hm]

theorem find_agg_write (db : RocksDB) (is : List Inode) (id : Str) (agg : AggInode) :
    (db.write (is.map .inode)).find id = some (.agg agg) ↔
      db.find id = some (.agg agg) ∧ ∀ i ∈ is, i.fullpath.str ≠ id := by
  by_cases hm : id ∈ (is.map Value.inode).map Value.key
  · obtain ⟨v, hv, -, hf⟩ := db.exists_find_write hm
    obtain ⟨i, hi, rfl⟩ := List.mem_map.mp hv
    obtain ⟨v', hv', hk⟩ := List.mem_map.mp hm
    obtain ⟨j, hj, rfl⟩ := List.mem_map.mp hv'
    rw [hf]
    exact iff_of_false (fun he ↦ (nomatch he)) fun hno ↦ hno.2 j hj hk
  · rw [db.find_write_of_notMem hm]
    refine (and_iff_left fun i hi he ↦ hm ?_).symm
    rw [List.map_map]
    exact List.mem_map.mpr ⟨i, hi, he⟩

theorem mem_filterMap_agg {agg : AggInode} : agg ∈ es.filterMap Entry.agg? ↔ .opPutAgg agg ∈ es := by
  rw [List.mem_filterMap]
  constructor
  · rintro ⟨e, he, ha⟩
    cases e with
    | opPutAgg a =>
      obtain rfl := Option.some.inj ha
      exact he
    | _ => cases ha
  · intro h
    exact ⟨_, h, rfl⟩

theorem Refers.mono {drawn more : List AggInode} (h : Refers drawn i) :
    Refers (drawn ++ more) i := by
  intro hne
  obtain ⟨agg, hagg, hrest⟩ := h hne
  exact ⟨agg, List.mem_append_left _ hagg, hrest⟩

namespace Proposer

variable {l l' : Proposer} {rest : List Entry}

theorem mem_drawn_propose {agg : AggInode} :
    agg ∈ (l.propose es).drawn ↔ agg ∈ l.drawn ∨ .opPutAgg agg ∈ es := by
  rw [propose, List.mem_append, mem_filterMap_agg]

theorem Sound.propose (hl : l.Sound)
    (hfresh : ∀ a, .opPutAgg a ∈ es → a.id ≠ [] ∧ a.id ∉ l.drawn.map (·.id))
    (hone : ∀ a b, .opPutAgg a ∈ es → .opPutAgg b ∈ es → a = b)
    (hrefers : ∀ e ∈ es, ∀ i ∈ e.inodesOf, Refers (l.propose es).drawn i)
    (hready : Ready (fun id ↦ (∃ agg, .opPutAgg agg ∈ l.pending ∧ id = agg.id) ∨
      Stored l.store id) es)
    (hapart : ∀ is, .opPutBatch is ∈ l.pending ++ es → ∀ i ∈ is, ¬ Stored l.store i.fullpath.str ∧
      ∀ agg, .opPutAgg agg ∈ l.pending ++ es → i.fullpath.str ≠ agg.id) :
    (l.propose es).Sound where
  nonempty := by
    intro agg hagg
    exact (mem_drawn_propose.mp hagg).elim (hl.nonempty agg) fun h ↦ (hfresh agg h).1
  unique := by
    intro a ha b hb hid
    rcases mem_drawn_propose.mp ha with ha | ha <;> rcases mem_drawn_propose.mp hb with hb | hb
    · exact hl.unique a ha b hb hid
    · exact absurd (List.mem_map.mpr ⟨a, ha, hid⟩) (hfresh b hb).2
    · exact absurd (List.mem_map.mpr ⟨b, hb, hid.symm⟩) (hfresh a ha).2
    · exact hone a b ha hb
  stored id agg h := mem_drawn_propose.mpr (.inl (hl.stored id agg h))
  proposed := by
    intro agg h
    refine mem_drawn_propose.mpr ?_
    exact (List.mem_append.mp h).imp_left (hl.proposed agg)
  refers path i hi := (hl.refers path i hi).mono
  refersNext := by
    intro e he
    rcases List.mem_append.mp he with he | he
    · exact fun i hi ↦ (hl.refersNext e he i hi).mono
    · exact hrefers e he
  backed := by
    intro path i hi hid
    refine (hl.backed path i hi hid).imp_right ?_
    rintro ⟨agg, hhead, he⟩
    exact ⟨agg, by rw [Proposer.propose, List.head?_append, hhead, Option.some_or], he⟩
  ready := hl.ready.append hready
  apart := hapart

theorem Sound.prepare_putBatch {env : Env} {reqs : List NNPutRequest} {n : Nat} (hl : l.Sound)
    (hg : l.Intact (.prepare env (.putBatch reqs) n)) :
    (l.propose ((Namenode.prepare l.store env (.putBatch reqs)).1.take n)).Sound := by
  -- nothing is proposed, or one entry with the records as they are stored
  have hcases : (Namenode.prepare l.store env (.putBatch reqs)).1.take n = [] ∨
      ∃ is, List.Forall₂ (fun r i ↦ Namenode.putInode l.store env.now r = .ok i) reqs is ∧
        (Namenode.prepare l.store env (.putBatch reqs)).1.take n = [.opPutBatch is] := by
    rw [Namenode.prepare]
    cases hx : Namenode.putBatch l.store env.now reqs with
    | error f => exact .inl (by simp [Namenode.proposed])
    | ok entries =>
      obtain ⟨is, his, rfl⟩ := Namenode.putBatch_eq_ok.mp hx
      cases n with
      | zero => exact .inl (by simp)
      | succ n => exact .inr ⟨is, his, by simp [Namenode.proposed]⟩
  rcases hcases with hnil | ⟨is, his, hone⟩
  · rw [hnil]
    exact hl.propose (by simp) (by simp) (by simp) trivial (by simpa using hl.apart)
  rw [hone]
  have hfrom : ∀ i ∈ is, ¬ Stored l.store i.fullpath.str ∧ (∃ r ∈ reqs,
      i.fullpath.str = simplifyPath r.path) ∧ (i.aggInodeId = [] ∨ ∃ f, lookup l.store
        i.fullpath.str = some f ∧ i.sub = f.sub ∧ i.aggInodeId = f.aggInodeId ∧
          i.fullpath = f.fullpath) := by
    intro i hi
    obtain ⟨r, hr, hri⟩ := forall₂_mem_right his hi
    have hpath := (putInode_kind hri).1
    obtain ⟨-, hfound⟩ := putInode_found hri
    obtain ⟨-, j, hj, -⟩ := Namenode.putInode_eq_ok.mp hri
    obtain ⟨f, hget, -⟩ := preparePut_eq_ok.mp hj
    refine ⟨hpath ▸ not_stored_of_getInode hget, ⟨r, hr, hpath⟩, ?_⟩
    rcases hfound with ⟨-, hid, -⟩ | ⟨g, hg, hsub, hid, -⟩
    · exact .inl hid
    · refine .inr ⟨g, hpath ▸ hg, hsub, hid, FullPath.ext ?_⟩
      rw [hpath, fullpath_of_lookup hg]
  refine hl.propose (by simp) (by simp) ?_ ⟨?_, trivial⟩ ?_
  · intro e he i hi
    rw [List.mem_singleton.mp he] at hi
    obtain ⟨-, -, hid | ⟨f, hf, hsub, hid, hpath⟩⟩ := hfrom i hi
    · exact fun hne ↦ absurd hid hne
    · refine Refers.mono ((hl.refers _ f hf).congr hid (fun entry he ↦ ?_) hpath)
      rw [hsub, he]
  · intro i hi hne
    obtain ⟨-, -, hid | ⟨f, hf, -, hid, -⟩⟩ := hfrom i hi
    · exact absurd hid hne
    · rw [hid] at hne ⊢
      rcases hl.backed _ f hf hne with hs | ⟨agg, hhead, he⟩
      · exact .inr hs
      · exact .inl ⟨agg, List.mem_of_mem_head? hhead, he⟩
  · intro js hjs j hj
    have hagg : ∀ agg, .opPutAgg agg ∈ l.pending ++ [.opPutBatch is] → .opPutAgg agg ∈ l.pending := by
      intro agg h
      simpa using h
    rcases List.mem_append.mp hjs with hjs | hjs
    · obtain ⟨hs, hids⟩ := hl.apart js hjs j hj
      exact ⟨hs, fun agg h ↦ hids agg (hagg agg h)⟩
    · obtain rfl : js = is := by simpa using hjs
      obtain ⟨hs, ⟨r, hr, hpath⟩, -⟩ := hfrom j hj
      exact ⟨hs, fun agg h ↦ hpath ▸ hg agg (hagg agg h) r hr⟩

theorem Sound.prepare_putOkBatch {env : Env} {reqs : List NNPutOKRequest} {n : Nat} (hl : l.Sound)
    (hg : l.Intact (.prepare env (.putOkBatch reqs) n)) :
    (l.propose ((Namenode.prepare l.store env (.putOkBatch reqs)).1.take n)).Sound := by
  have hnothing : ∀ es, (∀ e ∈ es, e = .opPutOkBatch []) → (l.propose es).Sound := by
    intro es hes
    have hno : ∀ {e : Entry}, e ≠ .opPutOkBatch [] → e ∉ es := fun hne he ↦ hne (hes _ he)
    refine hl.propose (fun a ha ↦ absurd ha (hno (by simp))) (fun a b ha ↦ absurd ha (hno (by simp)))
      (fun e he ↦ by simp [hes e he, Entry.inodesOf]) ?_ fun is his ↦ ?_
    · induction es with
      | nil => trivial
      | cons e es ih =>
        rw [hes e (by simp)]
        exact ⟨by simp, ih (fun e he ↦ hes e (by simp [he])) fun hne he ↦ hno hne (by simp [he])⟩
    · have his := (List.mem_append.mp his).resolve_right (hno (by simp))
      intro i hi
      refine ⟨(hl.apart is his i hi).1, fun agg hagg ↦ (hl.apart is his i hi).2 agg ?_⟩
      exact (List.mem_append.mp hagg).resolve_right (hno (by simp))
  rw [Namenode.prepare]
  cases hx : Namenode.putOkBatch l.store env reqs with
  | error f => exact hnothing _ (by simp [Namenode.proposed])
  | ok entries =>
    obtain ⟨is, agg, his, -, rfl⟩ := Namenode.putOkBatch_ok hx
    by_cases hn : n = 0
    · subst hn
      exact hnothing _ (by simp)
    obtain ⟨hcut, hpaths, hnew, hkeys⟩ := hg hn is agg hx
    rcases n with _ | _ | n
    · exact absurd rfl hn
    · have hempty : is = [] := by
        rw [hcut rfl] at his
        exact List.forall₂_nil_left_iff.mp his
      exact hnothing _ (by simp [Namenode.proposed, hempty])
    · have htake : (Namenode.proposed (.ok [.opPutOkBatch is, .opPutAgg agg])).1.take (n + 1 + 1) =
          [.opPutOkBatch is, .opPutAgg agg] := by simp [Namenode.proposed]
      have hlists : ∀ i ∈ is, i.aggInodeId = agg.id ∧ agg.Lists i := fun i hi ↦
        Namenode.lists_of_putOkBatch hx hpaths hi
      rw [htake]
      refine hl.propose ?_ ?_ ?_ ⟨?_, trivial⟩ ?_
      · intro a ha
        obtain rfl : a = agg := by simpa using ha
        exact ⟨Namenode.putOkBatch_id_ne_nil hx, hnew⟩
      · intro a b ha hb
        obtain rfl : a = agg := by simpa using ha
        obtain rfl : b = a := by simpa using hb
        rfl
      · intro e he i hi
        have hmem : i ∈ is := by
          simp only [List.mem_cons, List.not_mem_nil, or_false] at he
          rcases he with rfl | rfl
          · exact hi
          · cases hi
        intro _
        obtain ⟨hid, hlist⟩ := hlists i hmem
        exact ⟨agg, mem_drawn_propose.mpr (.inr (by simp)), hid.symm, hlist⟩
      · intro i hi
        exact ⟨agg, rfl, (hlists i hi).1⟩
      · intro js hjs j hj
        have hold : .opPutBatch js ∈ l.pending := by simpa using hjs
        obtain ⟨hs, hids⟩ := hl.apart js hold j hj
        refine ⟨hs, fun a ha ↦ ?_⟩
        rcases List.mem_append.mp ha with ha | ha
        · exact hids a ha
        · obtain rfl : a = agg := by simpa using ha
          exact hkeys js hold j hj

theorem Sound.apply_putBatch {is : List Inode} (hl : l.Sound)
    (hp : l.pending = .opPutBatch is :: rest) :
    Sound { l with store := l.store.write (is.map .inode), pending := rest } := by
  have hready : Ready (Stored l.store) (.opPutBatch is :: rest) := hp ▸ hl.ready
  have hmem : ∀ e ∈ rest, e ∈ l.pending := by
    intro e he
    simp [hp, he]
  have hhere : .opPutBatch is ∈ l.pending := by simp [hp]
  -- no aggregate is overwritten
  have hstored : ∀ id, Stored l.store id → Stored (l.store.write (is.map .inode)) id := by
    rintro id ⟨agg, hagg⟩
    refine ⟨agg, (find_agg_write _ _ _ _).mpr ⟨hagg, fun i hi he ↦ ?_⟩⟩
    exact (hl.apart is hhere i hi).1 (he ▸ stored_of_find hagg)
  have hold : ∀ id agg, (l.store.write (is.map .inode)).find id = some (.agg agg) →
      l.store.find id = some (.agg agg) := fun id agg h ↦ ((find_agg_write _ _ _ _).mp h).1
  refine ⟨hl.nonempty, hl.unique, fun id agg h ↦ hl.stored id agg (hold id agg h),
    fun agg h ↦ hl.proposed agg (hmem _ h), ?_, fun e he ↦ hl.refersNext e (hmem e he), ?_,
    hready.2.mono hstored, ?_⟩
  · intro path i hi
    rcases lookup_write_cases l.store is path with ⟨j, hj, -, hw⟩ | ⟨-, hw⟩
    · obtain rfl := Option.some.inj (hi.symm.trans hw)
      exact hl.refersNext _ hhere i hj
    · exact hl.refers path i (hw.symm.trans hi)
  · intro path i hi hid
    left
    rcases lookup_write_cases l.store is path with ⟨j, hj, -, hw⟩ | ⟨-, hw⟩
    · obtain rfl := Option.some.inj (hi.symm.trans hw)
      exact hstored _ (hready.1 i hj hid)
    · rcases hl.backed path i (hw.symm.trans hi) hid with hs | ⟨agg, hhead, -⟩
      · exact hstored _ hs
      · rw [hp] at hhead
        cases hhead
  · intro js hjs j hj
    obtain ⟨hs, hids⟩ := hl.apart js (hmem _ hjs) j hj
    refine ⟨?_, fun agg h ↦ hids agg (hmem _ h)⟩
    rintro ⟨agg, hagg⟩
    exact hs ⟨agg, hold _ agg hagg⟩

theorem Sound.apply_putAgg {agg : AggInode} (hl : l.Sound)
    (hp : l.pending = .opPutAgg agg :: rest) :
    Sound { l with store := l.store.put (.agg agg), pending := rest } := by
  have hready : Ready (fun id ↦ id = agg.id ∨ Stored l.store id) rest := by
    have h := hl.ready
    rw [hp] at h
    exact h
  have hmem : ∀ e ∈ rest, e ∈ l.pending := by
    intro e he
    simp [hp, he]
  have hhere : .opPutAgg agg ∈ l.pending := by simp [hp]
  have hself : (l.store.put (.agg agg)).find agg.id = some (.agg agg) :=
    l.store.find_put_self (.agg agg)
  have hother : ∀ id, id ≠ agg.id → (l.store.put (.agg agg)).find id = l.store.find id :=
    fun id hne ↦ l.store.find_put_of_ne (v := .agg agg) hne
  have hstored : ∀ id, id = agg.id ∨ Stored l.store id → Stored (l.store.put (.agg agg)) id := by
    rintro id (rfl | ⟨a, ha⟩)
    · exact ⟨agg, hself⟩
    · by_cases hid : id = agg.id
      · exact ⟨agg, hid ▸ hself⟩
      · exact ⟨a, (hother id hid).trans ha⟩
  have hold : ∀ path i, lookup (l.store.put (.agg agg)) path = some i →
      lookup l.store path = some i := by
    intro path i hi
    by_cases hid : path = agg.id
    · rw [hid, (stored_of_find hself).lookup_eq_none] at hi
      cases hi
    · rwa [lookup_put_of_ne l.store (v := .agg agg) hid] at hi
  refine ⟨hl.nonempty, hl.unique, ?_, fun a h ↦ hl.proposed a (hmem _ h),
    fun path i hi ↦ hl.refers path i (hold path i hi), fun e he ↦ hl.refersNext e (hmem e he), ?_,
    hready.mono hstored, ?_⟩
  · intro id a ha
    by_cases hid : id = agg.id
    · rw [hid, hself] at ha
      cases ha
      exact hl.proposed agg hhere
    · exact hl.stored id a ((hother id hid).symm.trans ha)
  · intro path i hi hid
    left
    refine hstored _ ?_
    rcases hl.backed path i (hold path i hi) hid with hs | ⟨a, hhead, he⟩
    · exact .inr hs
    · rw [hp] at hhead
      cases hhead
      exact .inl he
  · intro js hjs j hj
    obtain ⟨hs, hids⟩ := hl.apart js (hmem _ hjs) j hj
    refine ⟨?_, fun a h ↦ hids a (hmem _ h)⟩
    rintro ⟨a, ha⟩
    exact hs ⟨a, (hother _ (hids agg hhere)).symm.trans ha⟩

/-- An entry that changes no record and no aggregate. -/
theorem Sound.apply_nothing {is : List Inode} (hl : l.Sound)
    (hp : l.pending = .opPutOkBatch is :: rest) : Sound { l with pending := rest } := by
  have hready : Ready (Stored l.store) (.opPutOkBatch is :: rest) := hp ▸ hl.ready
  have hmem : ∀ e ∈ rest, e ∈ l.pending := by
    intro e he
    simp [hp, he]
  refine ⟨hl.nonempty, hl.unique, hl.stored, fun a h ↦ hl.proposed a (hmem _ h), hl.refers,
    fun e he ↦ hl.refersNext e (hmem e he), ?_, hready.2, ?_⟩
  · intro path i hi hid
    left
    rcases hl.backed path i hi hid with hs | ⟨agg, hhead, -⟩
    · exact hs
    · rw [hp] at hhead
      cases hhead
  · intro js hjs j hj
    obtain ⟨hs, hids⟩ := hl.apart js (hmem _ hjs) j hj
    exact ⟨hs, fun agg h ↦ hids agg (hmem _ h)⟩

theorem Sound.apply_putOkBatch {is : List Inode} {store : RocksDB} (hl : l.Sound)
    (hp : l.pending = .opPutOkBatch is :: rest) (h : BatchEffect l.store is store) :
    Sound { l with store, pending := rest } := by
  have hready : Ready (Stored l.store) (.opPutOkBatch is :: rest) := hp ▸ hl.ready
  have hhere : .opPutOkBatch is ∈ l.pending := by simp [hp]
  have hrest := hl.apply_nothing hp
  have hstored : ∀ id, Stored store id ↔ Stored l.store id := fun id ↦
    exists_congr fun agg ↦ h.find_agg id agg
  -- what is stored under a path: a record that was there, with more names, or a member
  have hcases : ∀ path i, lookup store path = some i →
      (∃ p, lookup l.store path = some p ∧ i.aggInodeId = p.aggInodeId ∧
        i.fullpath = p.fullpath ∧ ∀ entry, p.sub.head? = some entry → i.sub.head? = some entry) ∨
      ∃ j ∈ is, i.aggInodeId = j.aggInodeId ∧ i.fullpath = j.fullpath ∧ i.sub = j.sub := by
    intro path i hi
    by_cases hparent : ∃ k ∈ is, k.parentPath = path
    · obtain ⟨k, hk, rfl⟩ := hparent
      obtain ⟨p, hl, hl'⟩ := h.parent k hk
      obtain rfl := Option.some.inj (hi.symm.trans hl')
      exact .inl ⟨p, hl, rfl, rfl, fun entry he ↦ head_dentries is _ he⟩
    have hparent : ∀ k ∈ is, k.parentPath ≠ path := fun k hk he ↦ hparent ⟨k, hk, he⟩
    by_cases hmember : ∃ k ∈ is, k.fullpath.str = path
    · obtain ⟨k, hk, rfl⟩ := hmember
      obtain ⟨j, hj, c, hc, hl'⟩ := h.member k hk hparent
      obtain rfl := Option.some.inj (hi.symm.trans hl')
      have hj := (of_getLast?_filter hj).1
      obtain ⟨hpath, hsub, hid, -⟩ := commitAgg_ok hc
      obtain ⟨agg, hhead, he⟩ := hready.1 j hj
      have hagg : .opPutAgg agg ∈ l.pending := by
        rw [hp]
        exact List.mem_cons_of_mem _ (List.mem_of_mem_head? hhead)
      exact .inr ⟨j, hj, hid (he ▸ hl.nonempty agg (hl.proposed agg hagg)), hpath, hsub⟩
    · have hmember : ∀ k ∈ is, k.fullpath.str ≠ path := fun k hk he ↦ hmember ⟨k, hk, he⟩
      rw [lookup, h.other path hparent hmember, ← lookup] at hi
      exact .inl ⟨i, hi, rfl, rfl, fun _ he ↦ he⟩
  refine ⟨hl.nonempty, hl.unique, fun id agg hf ↦ hl.stored id agg ((h.find_agg id agg).mp hf),
    hrest.proposed, ?_, hrest.refersNext, ?_, hready.2.mono fun id ↦ (hstored id).mpr, ?_⟩
  · intro path i hi
    rcases hcases path i hi with ⟨p, hpl, hid, hpath, hsub⟩ | ⟨j, hj, hid, hpath, hsub⟩
    · exact (hl.refers path p hpl).congr hid hsub hpath
    · refine (hl.refersNext _ hhere j hj).congr hid (fun entry he ↦ ?_) hpath
      rw [hsub, he]
  · intro path i hi hne
    rcases hcases path i hi with ⟨p, hpl, hid, -⟩ | ⟨j, hj, hid, -⟩
    · rw [hid] at hne ⊢
      exact (hrest.backed path p hpl hne).imp_left (hstored _).mpr
    · obtain ⟨agg, hhead, he⟩ := hready.1 j hj
      exact .inr ⟨agg, hhead, hid.trans he⟩
  · intro js hjs j hj
    obtain ⟨hs, hids⟩ := hrest.apart js hjs j hj
    exact ⟨fun h ↦ hs ((hstored _).mp h), hids⟩

theorem Sound.apply (hl : l.Sound) (h : l.step .apply = some l') : l'.Sound := by
  rw [step] at h
  split at h
  · cases h
  rename_i e rest hp
  obtain ⟨⟨store, answer⟩, happly, rfl⟩ := Option.map_eq_some_iff.mp h
  have hready : Ready (Stored l.store) (e :: rest) := hp ▸ hl.ready
  cases e with
  | opPutBatch is =>
    obtain ⟨rfl, -⟩ := Prod.mk.inj (Option.some.inj happly)
    exact hl.apply_putBatch hp
  | opPutAgg agg =>
    obtain ⟨rfl, -⟩ := Prod.mk.inj (Option.some.inj happly)
    exact hl.apply_putAgg hp
  | opPutOkBatch is =>
    cases answer with
    | success => exact hl.apply_putOkBatch hp (internalPutOkBatch_ok (onApply_eq_success.mp happly))
    | failure f =>
      obtain ⟨-, -, rfl⟩ := onApply_eq_failure.mp happly
      exact hl.apply_nothing hp
  | _ => exact hready.elim

theorem Sound.step {a : Move} (hl : l.Sound) (hg : l.Intact a) (h : l.step a = some l') :
    l'.Sound := by
  cases a with
  | apply => exact hl.apply h
  | prepare env req n =>
    obtain rfl := Option.some.inj h
    cases req with
    | putBatch reqs => exact hl.prepare_putBatch hg
    | putOkBatch reqs => exact hl.prepare_putOkBatch hg
    | _ => exact hg.elim

theorem sound_start : start.Sound where
  nonempty := by simp [start]
  unique := by simp [start]
  stored id agg h := by cases h
  proposed agg h := by cases h
  refers path i hi := by
    have hi : (if path = root then some (Inode.getDefaultDir root) else none) = some i := hi
    split at hi
    · obtain rfl := Option.some.inj hi
      exact fun hne ↦ absurd rfl hne
    · cases hi
  refersNext e he := by cases he
  backed path i hi hid := by
    have hi : (if path = root then some (Inode.getDefaultDir root) else none) = some i := hi
    split at hi
    · obtain rfl := Option.some.inj hi
      exact absurd rfl hid
    · cases hi
  ready := trivial
  apart is his := by cases his

end Proposer

/-- The aggregate of every file is stored and lists it, except between the two entries of a
batch. -/
theorem references_not_dangling {l : Proposer} {path : Str}
    (h : Reaches Proposer.step Proposer.Intact .start l) (hl : ¬ l.Between)
    (hi : lookup l.store path = some i) (hid : i.aggInodeId ≠ []) :
    ∃ agg, l.store.find i.aggInodeId = some (.agg agg) ∧ agg.Lists i := by
  have hs : l.Sound := h.invariant Proposer.sound_start fun l a l' _ hl hg hstep ↦ hl.step hg hstep
  obtain ⟨agg, hagg, he, hlists⟩ := hs.refers path i hi hid
  rcases hs.backed path i hi hid with ⟨a, ha⟩ | ⟨a, hhead, ha⟩
  · have hkey : a.id = i.aggInodeId := l.store.keyed _ _ ha
    obtain rfl := hs.unique a (hs.stored _ a ha) agg hagg (hkey.trans he.symm)
    exact ⟨a, ha, hlists⟩
  · obtain rfl := hs.unique a (hs.proposed a (List.mem_of_mem_head? hhead)) agg hagg
      (ha.symm.trans he.symm)
    obtain ⟨entry, file, -, hf, -⟩ := hlists
    exact absurd ⟨a, hhead, List.ne_nil_of_mem hf⟩ hl

/-- Whether the move comes from a batch, and is not the first half of one. -/
def Proposer.intact (l : Proposer) : Move → Bool
  | .prepare _ (.putBatch _) _ => decide (l.pending = [])
  | .prepare _ (.putOkBatch reqs) proposed =>
    decide (l.pending = []) && decide (l.drawn = []) && decide (proposed ≠ 1) &&
      reqs.all fun req ↦ decide (simplifyPath req.path = req.path)
  | .prepare _ _ _ => false
  | .apply => true

theorem Proposer.intact_sound {l : Proposer} {a : Move} (h : l.intact a = true) : l.Intact a := by
  cases a with
  | apply => trivial
  | prepare env req n =>
    cases req with
    | putBatch reqs =>
      have hp : l.pending = [] := of_decide_eq_true h
      intro agg hagg
      rw [hp] at hagg
      cases hagg
    | putOkBatch reqs =>
      simp only [Proposer.intact, Bool.and_eq_true, decide_eq_true_eq, List.all_eq_true] at h
      obtain ⟨⟨⟨hp, hd⟩, hn⟩, hpaths⟩ := h
      intro _ is agg _
      exact ⟨fun he ↦ absurd he hn, hpaths, by simp [hd], by simp [hp]⟩
    | _ => cases h

def Move.batch : Move → Bool
  | .prepare _ (.putBatch _) _ | .prepare _ (.putOkBatch _) _ | .apply => true
  | .prepare _ _ _ => false

theorem references_not_dangling_batch :
    ∃ (l : Proposer) (i : Inode) (agg : AggInode), lookup l.store "/f".toList = some i ∧
      i.aggInodeId ≠ [] ∧ l.store.find i.aggInodeId = some (.agg agg) ∧ agg.Lists i := by
  obtain ⟨l, hr, hp⟩ := exists_reached Proposer.step Proposer.intact .start
    [.prepare ⟨"10.0.0.1".toList, 100, 0⟩ (.putBatch [⟨"/f".toList, "AGG<2,1,1>".toList⟩]) 1,
      .apply,
      .prepare ⟨"10.0.0.1".toList, 101, 5⟩ (.putOkBatch [⟨"/f".toList, 7, ["n|h,0|7".toList]⟩]) 2,
      .apply, .apply]
    (fun l ↦ decide (l.pending = []) &&
      (lookup l.store "/f".toList).any fun i : Inode ↦ decide (i.aggInodeId ≠ []))
    (by decide +kernel)
  simp only [Bool.and_eq_true, decide_eq_true_eq, Option.any_eq_true] at hp
  obtain ⟨hpending, i, hi, hid⟩ := hp
  have hbetween : ¬ l.Between := by
    rintro ⟨agg, hhead, -⟩
    rw [hpending] at hhead
    cases hhead
  obtain ⟨agg, hagg, hlists⟩ := references_not_dangling
    (hr.mono fun l a h ↦ Proposer.intact_sound h) hbetween hi hid
  exact ⟨l, i, agg, hi, hid, hagg, hlists⟩

/-- The leader stops after the first of the two entries. -/
theorem references_dangling :
    ¬ ∀ l, Reaches Proposer.step (fun _ a ↦ a.batch = true) .start l →
      ∀ path i, lookup l.store path = some i → i.valid = true → i.isDirectory = false →
        i.aggInodeId ≠ [] → ∃ agg, l.store.find i.aggInodeId = some (.agg agg) ∧ agg.Lists i := by
  intro h
  obtain ⟨l, hr, hp⟩ := exists_reached Proposer.step (fun _ a ↦ a.batch) .start
    [.prepare ⟨"10.0.0.1".toList, 100, 0⟩ (.putBatch [⟨"/f".toList, "AGG<2,1,1>".toList⟩]) 1,
      .apply,
      .prepare ⟨"10.0.0.1".toList, 101, 5⟩ (.putOkBatch [⟨"/f".toList, 7, ["n|h,0|7".toList]⟩]) 1,
      .apply]
    (fun l ↦ (lookup l.store "/f".toList).any fun i : Inode ↦ i.valid && !i.isDirectory &&
      decide (i.aggInodeId ≠ []) && decide (l.store.find i.aggInodeId = none))
    (by decide +kernel)
  simp only [Bool.and_eq_true, decide_eq_true_eq, Option.any_eq_true, Bool.not_eq_true'] at hp
  obtain ⟨i, hi, ⟨⟨hv, hd⟩, hid⟩, hnone⟩ := hp
  obtain ⟨agg, hagg, -⟩ := h l hr _ i hi hv hd hid
  rw [hnone] at hagg
  cases hagg

end Spkdfs
