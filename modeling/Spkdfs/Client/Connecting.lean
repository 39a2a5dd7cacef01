import Spkdfs.Client.NodeList
import Spkdfs.Node.RaftDN

namespace Spkdfs

/-- What a client is told while it connects: which nodes answer a scan, which namenodes a datanode
knows, and which master a namenode knows. -/
structure Surroundings where
  online : ScannedNode → Bool
  getNamenodes : Str → Except Fault (List Str)
  getMaster : Str → Except Fault Str

/-- The namenodes that an instance of `SDK` asks. -/
structure Stubs where
  slave : Str
  master : Str
deriving DecidableEq

def allNodesOffline : Fault := .runtime "all nodes offline".toList

/-- The remainder by zero has no defined behaviour. -/
def SDK.getSlaveNamenode (rand : Nat) (namenodes : List Str) : Option Str :=
  namenodes[rand % namenodes.length]?

/-- The constructor, up to the timer. A slave that turns out to be the master is drawn again. -/
def SDK.connect (s : Surroundings) (datanode namenode : Str) (rand again : Nat) :
    Option (Except Fault Stubs) :=
  match s.getNamenodes datanode with
  | .error f => some (.error f)
  | .ok namenodes =>
    (if namenode = [] then getSlaveNamenode rand namenodes else some namenode).bind fun slave ↦
      match s.getMaster slave with
      | .error f => some (.error f)
      | .ok master =>
        if master = slave then
          (getSlaveNamenode again (namenodes.filter (· ≠ slave))).map fun slave ↦ .ok ⟨slave, master⟩
        else some (.ok ⟨slave, master⟩)

namespace FUSE

/-- `node_discovery` of some nodes, and the first of them that is online. -/
def firstOnline (online : ScannedNode → Bool) (sub : List ScannedNode) : Option ScannedNode :=
  (sub.map fun node ↦
    { node with nodeStatus := if online node then .online else .offline }).find?
      (·.nodeStatus = .online)

/-- The loop of `init` and what follows it, with the nodes that are collected for the next scan. -/
def initFrom (online : ScannedNode → Bool) :
    List ScannedNode → List ScannedNode → Except Fault ScannedNode
  | [], sub =>
    if sub = [] then throw allNodesOffline
    else match firstOnline online sub with
      | some node => return node
      | none => throw allNodesOffline
  | node :: nodes, sub =>
    if sub.length = 3 then
      match firstOnline online sub with
      | some node => return node
      | none => initFrom online nodes [node]
    else initFrom online nodes (sub ++ [node])

/-- The constructor: the nodes are scanned three at a time, and the first that is found online is
the datanode that the `SDK` starts from. -/
def new (s : Surroundings) (ips : Str) (rand again : Nat) : Option (Except Fault Stubs) :=
  match parseNodes ips with
  | .error f => some (.error f)
  | .ok nodes =>
    match initFrom s.online (nodes.map fun node ↦ { node with }) [] with
    | .error f => some (.error f)
    | .ok node => SDK.connect s node.toString [] rand again

end FUSE

variable {s : Surroundings} {datanode namenode slave : Str} {namenodes : List Str}
  {rand again : Nat} {online : ScannedNode → Bool} {sub nodes : List ScannedNode} {stubs : Stubs}

namespace SDK

theorem mem_of_getSlaveNamenode (h : getSlaveNamenode rand namenodes = some slave) :
    slave ∈ namenodes := List.mem_of_getElem? h

theorem getSlaveNamenode_eq_none : getSlaveNamenode rand namenodes = none ↔ namenodes = [] := by
  constructor
  · intro h
    by_contra hne
    have hlt := Nat.mod_lt rand (List.length_pos_iff.mpr hne)
    rw [getSlaveNamenode, List.getElem?_eq_getElem hlt] at h
    cases h
  · rintro rfl
    rfl

/-- The slave that is asked for the master. -/
def firstSlave (namenode : Str) (rand : Nat) (namenodes : List Str) : Option Str :=
  if namenode = [] then getSlaveNamenode rand namenodes else some namenode

theorem connect_of_ok (h : s.getNamenodes datanode = .ok namenodes) :
    connect s datanode namenode rand again = (firstSlave namenode rand namenodes).bind fun slave ↦
      match s.getMaster slave with
      | .error f => some (.error f)
      | .ok master =>
        if master = slave then
          (getSlaveNamenode again (namenodes.filter (· ≠ slave))).map fun slave ↦ .ok ⟨slave, master⟩
        else some (.ok ⟨slave, master⟩) := by
  rw [connect, h]
  rfl

/-- An instance that is made asks a slave that is not the master. -/
theorem apart_of_connect (h : connect s datanode namenode rand again = some (.ok stubs)) :
    ∃ namenodes slave, s.getNamenodes datanode = .ok namenodes ∧
      (slave ∈ namenodes ∨ namenode ≠ [] ∧ slave = namenode) ∧
      s.getMaster slave = .ok stubs.master ∧
      (stubs.slave ∈ namenodes ∨ namenode ≠ [] ∧ stubs.slave = namenode) ∧
      stubs.slave ≠ stubs.master := by
  cases hn : s.getNamenodes datanode with
  | error f =>
    rw [connect, hn] at h
    cases h
  | ok namenodes =>
    rw [connect_of_ok hn] at h
    obtain ⟨slave, hslave, h⟩ := Option.bind_eq_some_iff.mp h
    have hlisted : slave ∈ namenodes ∨ namenode ≠ [] ∧ slave = namenode := by
      rw [firstSlave] at hslave
      split_ifs at hslave with hnil
      · exact .inl (mem_of_getSlaveNamenode hslave)
      · exact .inr ⟨hnil, (Option.some.inj hslave).symm⟩
    refine ⟨namenodes, slave, rfl, hlisted, ?_⟩
    cases hm : s.getMaster slave with
    | error f =>
      rw [hm] at h
      cases h
    | ok master =>
      simp only [hm] at h
      split_ifs at h with hsame
      · obtain ⟨other, hother, he⟩ := Option.map_eq_some_iff.mp h
        obtain rfl := Except.ok.inj he
        obtain ⟨hmem, hne⟩ := List.mem_filter.mp (mem_of_getSlaveNamenode hother)
        exact ⟨rfl, .inl hmem, hsame ▸ of_decide_eq_true hne⟩
      · obtain rfl := Except.ok.inj (Option.some.inj h)
        exact ⟨rfl, hlisted, Ne.symm hsame⟩

/-- The constructor has no defined behaviour where no namenode is left to draw from. -/
theorem connect_eq_none : connect s datanode namenode rand again = none ↔
    ∃ namenodes, s.getNamenodes datanode = .ok namenodes ∧
      (namenode = [] ∧ namenodes = [] ∨ ∃ slave, firstSlave namenode rand namenodes = some slave ∧
        s.getMaster slave = .ok slave ∧ ∀ other ∈ namenodes, other = slave) := by
  cases hn : s.getNamenodes datanode with
  | error f => simp [connect, hn]
  | ok namenodes =>
    have hfirst : firstSlave namenode rand namenodes = none ↔ namenode = [] ∧ namenodes = [] := by
      rw [firstSlave]
      split_ifs with hnil
      · rw [getSlaveNamenode_eq_none, and_iff_right hnil]
      · exact iff_of_false not_false fun he ↦ hnil he.1
    simp only [Except.ok.injEq, exists_eq_left']
    rw [connect_of_ok hn]
    cases hs : firstSlave namenode rand namenodes with
    | none => exact iff_of_true rfl (.inl (hfirst.mp hs))
    | some slave =>
      rw [or_iff_right fun he ↦ Option.some_ne_none slave (hs.symm.trans (hfirst.mpr he))]
      simp only [Option.bind_some, Option.some.injEq, exists_eq_left']
      cases hm : s.getMaster slave with
      | error f => simp
      | ok master =>
        simp only [Except.ok.injEq]
        split_ifs with hsame
        · rw [Option.map_eq_none_iff, getSlaveNamenode_eq_none, and_iff_right hsame,
            List.filter_eq_nil_iff]
          simp
        · exact iff_of_false not_false fun he ↦ hsame he.1

end SDK

namespace FUSE

theorem firstOnline_eq : firstOnline online sub =
    (sub.find? online).map fun node ↦ { node with nodeStatus := .online } := by
  induction sub with
  | nil => rfl
  | cons node sub ih =>
    rw [firstOnline] at ih ⊢
    rw [List.map_cons]
    cases hnode : online node with
    | true => simp [hnode]
    | false => simpa [hnode] using ih

/-- Three at a time, the same node is found as one after the other. -/
theorem initFrom_eq (hsub : sub.length ≤ 3) : initFrom online nodes sub =
    match (sub ++ nodes).find? online with
    | some node => .ok { node with nodeStatus := .online }
    | none => .error allNodesOffline := by
  induction nodes generalizing sub with
  | nil =>
    rw [initFrom, List.append_nil]
    split_ifs with hnil
    · rw [hnil]
      rfl
    · rw [firstOnline_eq]
      cases sub.find? online <;> rfl
  | cons node nodes ih =>
    rw [initFrom]
    split_ifs with hfull
    · rw [firstOnline_eq, List.find?_append]
      cases sub.find? online with
      | some found => rfl
      | none => exact ih (by simp)
    · rw [ih (by simp; omega), List.append_assoc, List.singleton_append]

end FUSE

/-- A mount connects through the first node of its list that is online, however many are scanned at
once. It asks a slave that is not its master, and without another namenode than the master it has no
defined behaviour. -/
theorem mount_connects {ips : Str} {nodes : List Node} (hips : parseNodes ips = .ok nodes) :
    ((∀ node ∈ nodes, s.online { node with } = false) →
      FUSE.new s ips rand again = some (.error allNodesOffline)) ∧
    ∀ before node after, nodes = before ++ node :: after →
      (∀ other ∈ before, s.online { other with } = false) → s.online { node with } = true →
      (∀ stubs, FUSE.new s ips rand again = some (.ok stubs) →
        stubs.slave ≠ stubs.master ∧ ∃ namenodes asked,
          s.getNamenodes node.toString = .ok namenodes ∧ stubs.slave ∈ namenodes ∧
            asked ∈ namenodes ∧ s.getMaster asked = .ok stubs.master) ∧
      (FUSE.new s ips rand again = none ↔ ∃ namenodes,
        s.getNamenodes node.toString = .ok namenodes ∧ (namenodes = [] ∨
          ∃ slave ∈ namenodes, s.getMaster slave = .ok slave ∧
            ∀ other ∈ namenodes, other = slave)) := by
  have hnew : FUSE.new s ips rand again =
      match (nodes.map fun node ↦ ({ node with } : ScannedNode)).find? s.online with
      | some node => SDK.connect s node.toString [] rand again
      | none => some (.error allNodesOffline) := by
    rw [FUSE.new, hips]
    simp only
    have hempty : ([] : List ScannedNode).length ≤ 3 := Nat.zero_le 3
    rw [FUSE.initFrom_eq hempty, List.nil_append]
    cases (nodes.map fun node ↦ ({ node with } : ScannedNode)).find? s.online <;> rfl
  refine ⟨fun hoffline ↦ ?_, fun before node after hsplit hbefore honline ↦ ?_⟩
  · have hnone : (nodes.map fun node ↦ ({ node with } : ScannedNode)).find? s.online = none := by
      rw [List.find?_eq_none, List.forall_mem_map]
      exact fun node hnode ↦ Bool.eq_false_iff.mp (hoffline node hnode)
    rw [hnew, hnone]
  · have hfirst : (nodes.map fun node ↦ ({ node with } : ScannedNode)).find? s.online =
        some { node with } := by
      have hnone : (before.map fun node ↦ ({ node with } : ScannedNode)).find? s.online = none := by
        rw [List.find?_eq_none, List.forall_mem_map]
        exact fun other hother ↦ Bool.eq_false_iff.mp (hbefore other hother)
      rw [hsplit, List.map_append, List.find?_append, hnone, List.map_cons,
        List.find?_cons_of_pos honline]
      rfl
    simp only [hfirst] at hnew
    rw [hnew]
    refine ⟨fun stubs hstubs ↦ ?_, SDK.connect_eq_none.trans (exists_congr fun namenodes ↦
      and_congr_right fun _ ↦ ?_)⟩
    · obtain ⟨namenodes, asked, hn, hasked, hm, hslave, hne⟩ := SDK.apart_of_connect hstubs
      have hlisted : ∀ slave : Str, (slave ∈ namenodes ∨ ([] : Str) ≠ [] ∧ slave = []) →
          slave ∈ namenodes := fun slave h ↦ h.resolve_right fun he ↦ he.1 rfl
      exact ⟨hne, namenodes, asked, hn, hlisted _ hslave, hlisted _ hasked, hm⟩
    · rw [and_iff_right rfl]
      refine or_congr_right' fun hne ↦ exists_congr fun slave ↦ ?_
      rw [SDK.firstSlave, if_pos rfl]
      constructor
      · rintro ⟨hdrawn, hm, hall⟩
        exact ⟨SDK.mem_of_getSlaveNamenode hdrawn, hm, hall⟩
      · rintro ⟨-, hm, hall⟩
        refine ⟨?_, hm, hall⟩
        obtain ⟨drawn, hdrawn⟩ := Option.ne_none_iff_exists'.mp
          (SDK.getSlaveNamenode_eq_none.not.mpr hne)
        rw [hdrawn, hall drawn (SDK.mem_of_getSlaveNamenode hdrawn)]

/-- The first node is down, and the slave that is drawn first is the master. -/
theorem mount_connects_second : ∃ stubs : Stubs,
    FUSE.new ⟨fun node ↦ node.ip = ['2'], fun _ ↦ .ok [['a'], ['b']], fun _ ↦ .ok ['a']⟩
      "1:8001,2:8001".toList 0 0 = some (.ok stubs) ∧ stubs.slave ≠ stubs.master := by
  have hips : parseNodes "1:8001,2:8001".toList = .ok [⟨['1'], 8001⟩, ⟨['2'], 8001⟩] := by
    decide +kernel
  obtain ⟨-, hmount⟩ := @mount_connects
    ⟨fun node ↦ node.ip = ['2'], fun _ ↦ .ok [['a'], ['b']], fun _ ↦ .ok ['a']⟩ 0 0 _ _ hips
  have hnew : FUSE.new ⟨fun node ↦ node.ip = ['2'], fun _ ↦ .ok [['a'], ['b']], fun _ ↦ .ok ['a']⟩
      "1:8001,2:8001".toList 0 0 = some (.ok ⟨['b'], ['a']⟩) := by decide +kernel
  obtain ⟨happart, -⟩ := hmount [⟨['1'], 8001⟩] ⟨['2'], 8001⟩ [] rfl (by decide) (by decide)
  exact ⟨_, hnew, (happart _ hnew).1⟩

end Spkdfs
