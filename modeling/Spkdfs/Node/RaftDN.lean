import Mathlib.Data.Char
import Mathlib.Data.List.Lex
import Mathlib.Data.List.Nodup
import Spkdfs.Client.Shards
import Spkdfs.Library.BinarySearch

namespace Spkdfs

open Library

inductive NodeStatus
  | online
  | offline
  | unknown
deriving DecidableEq

/-- A node with what the last scan has told of it. -/
structure ScannedNode extends Node where
  nodeStatus : NodeStatus := .unknown
deriving DecidableEq

namespace ScannedNode

/-- Nodes are compared by their ip only. -/
def eq (node other : ScannedNode) : Bool := node.ip = other.ip

def lt (node other : ScannedNode) : Bool := node.ip < other.ip

end ScannedNode

/-- `node_discovery`: each node is scanned, and some of them answer. -/
def nodeDiscovery (answers : Str → Bool) (nodes : List ScannedNode) : List ScannedNode :=
  nodes.map fun node ↦ { node with nodeStatus := if answers node.ip then .online else .offline }

structure NodeFlags where
  nnPort : Nat := 10001
  dnPort : Nat := 10002
  expectedNn : Nat := 6

/-- What the namenodes of the list, and then the datanodes, answer to the scans of an election. -/
structure Scans where
  namenodes : Str → Bool
  datanodes : Str → Bool

structure RaftDN where
  datanodeList : List ScannedNode
  namenodeList : List ScannedNode := []

namespace RaftDN

variable (flags : NodeFlags) (scans : Scans)

/-- The constructor. -/
def new (nodes : List ScannedNode) : RaftDN where
  datanodeList := nodes.map fun node ↦ { node with port := flags.dnPort }

/-- The loop over the nodes of a chunk. -/
def chooseSub : List ScannedNode → List ScannedNode → List ScannedNode
  | [], nodes => nodes
  | node :: sub, nodes =>
    if node.nodeStatus = .online then
      let nodes := nodes ++ [{ node with port := flags.nnPort }]
      if flags.expectedNn ≤ nodes.length then nodes else chooseSub sub nodes
    else chooseSub sub nodes

/-- The loop over the chunks from `i` on. -/
def chooseFrom (allnodes : List ScannedNode) : Nat → Nat → List ScannedNode → List ScannedNode
  | 0, _, nodes => nodes
  | fuel + 1, i, nodes =>
    if i < allnodes.length ∧ nodes.length < flags.expectedNn then
      let finish := min (i + flags.expectedNn) allnodes.length
      let sub := nodeDiscovery scans.datanodes ((allnodes.take finish).drop i)
      chooseFrom allnodes fuel (i + flags.expectedNn) (chooseSub flags sub nodes)
    else nodes

/-- What is proposed to the datanodes. -/
def onLeaderStart (t : RaftDN) : Except Fault (List ScannedNode) :=
  let nodes := t.namenodeList.mergeSort fun node other ↦ !other.lt node
  let nodes := (nodeDiscovery scans.namenodes nodes).filter (·.nodeStatus = .online)
  let allnodes := t.datanodeList.filter fun node ↦ !binarySearch ScannedNode.lt nodes node
  let nodes := chooseFrom flags scans allnodes allnodes.length 0 nodes
  if nodes = [] then throw (.runtime "no node ready".toList) else return nodes

/-- The proposal is printed and parsed again on the way, without the status of the nodes. -/
def onApply (t : RaftDN) (nodes : List ScannedNode) : RaftDN :=
  { t with namenodeList := nodes.map fun node ↦ { ip := node.ip, port := node.port } }

/-- An election, and its proposal applied. -/
def elect (t : RaftDN) : RaftDN :=
  match t.onLeaderStart flags scans with
  | .ok nodes => t.onApply nodes
  | .error _ => t

/-- The listed namenodes that answer. -/
def retained (t : RaftDN) : List ScannedNode :=
  t.namenodeList.filter fun node ↦ scans.namenodes node.ip

/-- The other datanodes that answer. -/
def others (t : RaftDN) : List ScannedNode :=
  t.datanodeList.filter fun node ↦
    scans.datanodes node.ip ∧ node.ip ∉ (t.retained scans).map (·.ip)

/-- A datanode that answers, as it gets into the list. -/
def asNamenode (node : ScannedNode) : ScannedNode :=
  { node with port := flags.nnPort, nodeStatus := .online }

variable {flags scans} {sub nodes allnodes : List ScannedNode} {t : RaftDN} {i fuel : Nat}

theorem chooseSub_eq (h : nodes.length < flags.expectedNn) :
    chooseSub flags (nodeDiscovery scans.datanodes sub) nodes = nodes ++
      ((sub.filter fun node ↦ scans.datanodes node.ip).map (asNamenode flags)).take
        (flags.expectedNn - nodes.length) := by
  induction sub generalizing nodes with
  | nil => simp [nodeDiscovery, chooseSub]
  | cons node sub ih =>
    rw [nodeDiscovery, List.map_cons, ← nodeDiscovery, chooseSub]
    cases hanswers : scans.datanodes node.ip with
    | false =>
      rw [List.filter_cons_of_neg (by simp [hanswers])]
      simpa using ih h
    | true =>
      have hstatus : { node with nodeStatus := if true = true then .online else .offline } =
          ({ node with nodeStatus := .online } : ScannedNode) := rfl
      obtain ⟨k, hk⟩ := Nat.exists_eq_add_of_lt h
      have hroom : flags.expectedNn - nodes.length = k + 1 := by omega
      rw [List.filter_cons_of_pos (by simp [hanswers]), List.map_cons, hroom, List.take_succ_cons,
        hstatus, if_pos rfl]
      simp only
      rw [← asNamenode]
      have hlength : (nodes ++ [asNamenode flags node]).length = nodes.length + 1 :=
        List.length_append
      rw [hlength]
      by_cases hfull : flags.expectedNn ≤ nodes.length + 1
      · have hzero : k = 0 := by omega
        rw [if_pos hfull, hzero, List.take_zero]
      · have hrest : flags.expectedNn - (nodes.length + 1) = k := by omega
        rw [if_neg hfull, ih (by omega), hlength, hrest, List.append_assoc, List.singleton_append]

/-- The loop adds the next datanodes that answer, as long as namenodes are expected. -/
theorem chooseFrom_eq (hfuel : allnodes.length ≤ i + fuel) :
    chooseFrom flags scans allnodes fuel i nodes = nodes ++
      (((allnodes.drop i).filter fun node ↦ scans.datanodes node.ip).map (asNamenode flags)).take
        (flags.expectedNn - nodes.length) := by
  induction fuel generalizing i nodes with
  | zero =>
    rw [List.drop_eq_nil_of_le (Nat.add_zero i ▸ hfuel)]
    simp [chooseFrom]
  | succ fuel ih =>
    rw [chooseFrom]
    by_cases hmore : i < allnodes.length ∧ nodes.length < flags.expectedNn
    · rw [if_pos hmore]
      have hchunk : allnodes.drop i = (allnodes.take (min (i + flags.expectedNn) allnodes.length)).drop i ++
          allnodes.drop (i + flags.expectedNn) := by
        rw [← List.take_eq_take_min, List.drop_take, Nat.add_sub_cancel_left, ← List.drop_drop,
          List.take_append_drop]
      have hleft : ∀ k, flags.expectedNn - (nodes.length + min (flags.expectedNn - nodes.length) k) =
          flags.expectedNn - nodes.length - k := by
        intro k
        omega
      simp only
      rw [ih (by omega), chooseSub_eq hmore.2, List.append_assoc, List.length_append,
        List.length_take, hleft, ← List.take_append, ← List.map_append, ← List.filter_append,
        ← hchunk]
    · rw [if_neg hmore]
      rw [not_and_or, Nat.not_lt, Nat.not_lt] at hmore
      obtain hend | hfull := hmore
      · rw [List.drop_eq_nil_of_le hend]
        simp
      · rw [Nat.sub_eq_zero_of_le hfull, List.take_zero, List.append_nil]

theorem lt_trans_false {a b c : ScannedNode} (hba : b.lt a = false) (hcb : c.lt b = false) :
    c.lt a = false := by
  have hab := not_lt.mp (of_decide_eq_false hba)
  have hbc := not_lt.mp (of_decide_eq_false hcb)
  exact decide_eq_false (not_lt.mpr (hab.trans hbc))

theorem eq_of_not_lt {a b : ScannedNode} (hab : a.lt b = false) (hba : b.lt a = false) :
    a.ip = b.ip :=
  le_antisymm (not_lt.mp (of_decide_eq_false hba)) (not_lt.mp (of_decide_eq_false hab))

/-- The first part of the list: the namenodes that answer, by their ips. -/
def keptNodes (scans : Scans) (t : RaftDN) : List ScannedNode :=
  (nodeDiscovery scans.namenodes (t.namenodeList.mergeSort fun node other ↦ !other.lt node)).filter
    (·.nodeStatus = .online)

theorem keptNodes_perm (scans : Scans) (t : RaftDN) : (keptNodes scans t).Perm
    ((t.retained scans).map fun node ↦ { node with nodeStatus := .online }) := by
  have hfilter : ∀ nodes : List ScannedNode,
      (nodeDiscovery scans.namenodes nodes).filter (·.nodeStatus = .online) =
        (nodes.filter fun node ↦ scans.namenodes node.ip).map
          fun node ↦ { node with nodeStatus := .online } := by
    intro nodes
    induction nodes with
    | nil => rfl
    | cons node nodes ih =>
      rw [nodeDiscovery, List.map_cons, ← nodeDiscovery]
      cases hanswers : scans.namenodes node.ip <;> simp [hanswers, ih]
  rw [keptNodes, hfilter, retained]
  exact ((List.mergeSort_perm ..).filter _).map _

theorem keptNodes_sorted (scans : Scans) (t : RaftDN) :
    (keptNodes scans t).Pairwise fun node other ↦ other.lt node = false := by
  have hsorted : (t.namenodeList.mergeSort fun node other ↦ !other.lt node).Pairwise
      fun node other ↦ (!other.lt node) = true := by
    refine List.pairwise_mergeSort (fun a b c hab hbc ↦ ?_) (fun a b ↦ ?_) _
    · rw [Bool.not_eq_true'] at hab hbc ⊢
      exact lt_trans_false hab hbc
    · simp only [ScannedNode.lt, Bool.or_eq_true, Bool.not_eq_true', decide_eq_false_iff_not, not_lt]
      exact le_total a.ip b.ip
  refine List.Pairwise.filter _ ?_
  rw [nodeDiscovery, List.pairwise_map]
  exact hsorted.imp fun h ↦ (Bool.not_eq_true' _).mp h

/-- `std::binary_search` finds the datanodes that are kept as namenodes. -/
theorem binarySearch_keptNodes (scans : Scans) (t : RaftDN) (node : ScannedNode) :
    binarySearch ScannedNode.lt (keptNodes scans t) node = true ↔
      node.ip ∈ (t.retained scans).map (·.ip) := by
  have hsearch : binarySearch ScannedNode.lt (keptNodes scans t) node = true ↔ _ :=
    binarySearch_iff lt_trans_false (keptNodes_sorted scans t)
  have hmem := (keptNodes_perm scans t).map (·.ip)
  rw [List.map_map] at hmem
  refine (hsearch.trans ?_).trans hmem.mem_iff
  rw [List.mem_map]
  constructor
  · rintro ⟨other, hother, hlt, hlt'⟩
    exact ⟨other, hother, eq_of_not_lt hlt hlt'⟩
  · rintro ⟨other, hother, heq⟩
    have hirrefl : ∀ {a b : ScannedNode}, a.ip = b.ip → a.lt b = false := fun h ↦
      decide_eq_false (by rw [h]; exact lt_irrefl _)
    exact ⟨other, hother, hirrefl heq, hirrefl heq.symm⟩

/-- The list in which `on_leader_start` looks for a namenode. -/
def chosen (flags : NodeFlags) (scans : Scans) (t : RaftDN) : List ScannedNode :=
  keptNodes scans t ++ ((t.others scans).map (asNamenode flags)).take
    (flags.expectedNn - (t.retained scans).length)

theorem length_keptNodes (scans : Scans) (t : RaftDN) :
    (keptNodes scans t).length = (t.retained scans).length := by
  rw [(keptNodes_perm scans t).length_eq, List.length_map]

theorem onLeaderStart_eq (flags : NodeFlags) (scans : Scans) (t : RaftDN) :
    t.onLeaderStart flags scans = if chosen flags scans t = [] then
      .error (.runtime "no node ready".toList) else .ok (chosen flags scans t) := by
  have hothers : (t.datanodeList.filter fun node ↦
      !binarySearch ScannedNode.lt (keptNodes scans t) node).filter
        (fun node ↦ scans.datanodes node.ip) = t.others scans := by
    rw [List.filter_filter, others]
    refine List.filter_congr fun node _ ↦ ?_
    rw [Bool.eq_iff_iff]
    simp only [Bool.and_eq_true, Bool.not_eq_true', ← Bool.not_eq_true, binarySearch_keptNodes,
      decide_eq_true_eq]
  rw [onLeaderStart, ← keptNodes, chooseFrom_eq (by omega), List.drop_zero, hothers,
    length_keptNodes, ← chosen]
  rfl

/-- The namenode list has different datanodes with the port of the namenodes. -/
structure Listed (flags : NodeFlags) (nodes : List ScannedNode) (t : RaftDN) : Prop where
  datanodes : t.datanodeList = (new flags nodes).datanodeList
  nodup : (t.namenodeList.map (·.ip)).Nodup
  members : ∀ node ∈ t.namenodeList, node.ip ∈ nodes.map (·.ip)
  port : ∀ node ∈ t.namenodeList, node.port = flags.nnPort

section

variable {nodes : List ScannedNode} (hnodup : (nodes.map (·.ip)).Nodup)

theorem length_chosen (flags : NodeFlags) (scans : Scans) (t : RaftDN) :
    (chosen flags scans t).length = max (t.retained scans).length
      (min flags.expectedNn ((t.retained scans).length + (t.others scans).length)) := by
  rw [chosen, List.length_append, length_keptNodes, List.length_take, List.length_map]
  omega

theorem map_ip_new (flags : NodeFlags) (nodes : List ScannedNode) :
    (new flags nodes).datanodeList.map (·.ip) = nodes.map (·.ip) := by
  rw [new, List.map_map]
  rfl

theorem keptNodes_ips (scans : Scans) (t : RaftDN) :
    ((keptNodes scans t).map (·.ip)).Perm ((t.retained scans).map (·.ip)) := by
  have hperm := (keptNodes_perm scans t).map (·.ip)
  rwa [List.map_map] at hperm

theorem Listed.chosen_mem (h : t.Listed flags nodes) {node : ScannedNode}
    (hmem : node ∈ chosen flags scans t) :
    node.ip ∈ nodes.map (·.ip) ∧ node.nodeStatus = .online ∧ node.port = flags.nnPort ∧
      (node.ip ∈ (t.retained scans).map (·.ip) ∨ scans.datanodes node.ip = true) := by
  obtain hkept | hadded := List.mem_append.mp hmem
  · obtain ⟨other, hother, rfl⟩ := List.mem_map.mp ((keptNodes_perm scans t).mem_iff.mp hkept)
    have hlisted := List.mem_of_mem_filter hother
    exact ⟨h.members other hlisted, rfl, h.port other hlisted,
      .inl (List.mem_map.mpr ⟨other, hother, rfl⟩)⟩
  · obtain ⟨other, hother, rfl⟩ := List.mem_map.mp (List.mem_of_mem_take hadded)
    obtain ⟨hdatanode, hanswers⟩ := List.mem_filter.mp hother
    rw [h.datanodes] at hdatanode
    refine ⟨?_, rfl, rfl, .inr (of_decide_eq_true hanswers).1⟩
    rw [← map_ip_new flags nodes]
    exact List.mem_map.mpr ⟨other, hdatanode, rfl⟩

include hnodup

theorem Listed.chosen_nodup (h : t.Listed flags nodes) :
    ((chosen flags scans t).map (·.ip)).Nodup := by
  have hkept : ((keptNodes scans t).map (·.ip)).Nodup := by
    rw [(keptNodes_ips scans t).nodup_iff]
    exact h.nodup.sublist (List.filter_sublist.map _)
  have hothers : ((t.others scans).map (·.ip)).Nodup := by
    refine List.Nodup.sublist (List.filter_sublist.map _) ?_
    rwa [h.datanodes, map_ip_new]
  have hadded : ((((t.others scans).map (asNamenode flags)).take
      (flags.expectedNn - (t.retained scans).length)).map (·.ip)).Sublist
        ((t.others scans).map (·.ip)) := by
    have hsub := ((List.take_sublist (flags.expectedNn - (t.retained scans).length)
      ((t.others scans).map (asNamenode flags))).map (·.ip))
    rwa [List.map_map] at hsub
  rw [chosen, List.map_append]
  refine List.nodup_append'.mpr ⟨hkept, hothers.sublist hadded, fun ip hip hip' ↦ ?_⟩
  -- the others are not among the retained
  obtain ⟨other, hother, rfl⟩ := List.mem_map.mp (hadded.subset hip')
  have hnot := (of_decide_eq_true (List.mem_filter.mp hother).2).2
  exact hnot ((keptNodes_ips scans t).mem_iff.mp hip)

theorem Listed.elect (h : t.Listed flags nodes) (scans : Scans) :
    (t.elect flags scans).Listed flags nodes := by
  rw [RaftDN.elect, onLeaderStart_eq]
  split_ifs
  · exact h
  refine ⟨h.datanodes, ?_, fun node hmem ↦ ?_, fun node hmem ↦ ?_⟩
  · have hips : ((t.onApply (chosen flags scans t)).namenodeList).map (·.ip) =
        (chosen flags scans t).map (·.ip) := by
      simp only [onApply, List.map_map]
      rfl
    exact hips ▸ h.chosen_nodup hnodup
  · obtain ⟨other, hother, rfl⟩ := List.mem_map.mp hmem
    exact (h.chosen_mem hother).1
  · obtain ⟨other, hother, rfl⟩ := List.mem_map.mp hmem
    exact (h.chosen_mem hother).2.2.1

/-- An election after the other, each with its scans. -/
theorem Listed.elections (h : t.Listed flags nodes) (rounds : List Scans) :
    (rounds.foldl (fun t scans ↦ t.elect flags scans) t).Listed flags nodes := by
  induction rounds generalizing t with
  | nil => exact h
  | cons scans rounds ih => exact ih (h.elect hnodup scans)

omit hnodup in
theorem listed_new (flags : NodeFlags) (nodes : List ScannedNode) :
    (new flags nodes).Listed flags nodes :=
  ⟨rfl, .nil, fun _ h ↦ (by cases h), fun _ h ↦ (by cases h)⟩

/-- An election proposes the listed namenodes that answer and, as long as more are expected, other
datanodes that answer. -/
theorem onLeaderStart_selects (flags : NodeFlags) (rounds : List Scans) (scans : Scans) :
    let t := rounds.foldl (fun t scans ↦ t.elect flags scans) (new flags nodes)
    let count := max (t.retained scans).length
      (min flags.expectedNn ((t.retained scans).length + (t.others scans).length))
    (count = 0 → t.onLeaderStart flags scans = .error (.runtime "no node ready".toList)) ∧
      (count ≠ 0 → ∃ chosen, t.onLeaderStart flags scans = .ok chosen ∧ chosen.length = count ∧
        (chosen.map (·.ip)).Nodup ∧
        (∀ node ∈ chosen, node.ip ∈ nodes.map (·.ip) ∧ node.nodeStatus = .online ∧
          node.port = flags.nnPort ∧
            (node.ip ∈ (t.retained scans).map (·.ip) ∨ scans.datanodes node.ip = true)) ∧
        ∀ node ∈ t.namenodeList, scans.namenodes node.ip = true →
          node.ip ∈ chosen.map (·.ip)) := by
  intro t count
  have hlisted : t.Listed flags nodes := (listed_new flags nodes).elections hnodup rounds
  have hlength : (chosen flags scans t).length = count := length_chosen flags scans t
  refine ⟨fun hzero ↦ ?_, fun hsome ↦ ⟨chosen flags scans t, ?_, hlength,
    hlisted.chosen_nodup hnodup, fun node hmem ↦ hlisted.chosen_mem hmem, fun node hmem hanswers ↦ ?_⟩⟩
  · have hnil : chosen flags scans t = [] := List.eq_nil_of_length_eq_zero (hlength.trans hzero)
    rw [onLeaderStart_eq, if_pos hnil]
  · have hcons : chosen flags scans t ≠ [] := fun hnil ↦ hsome (hlength ▸ List.length_eq_zero_iff.mpr hnil)
    rw [onLeaderStart_eq, if_neg hcons]
  · have hretained : node.ip ∈ (t.retained scans).map (·.ip) :=
      List.mem_map.mpr ⟨node, List.mem_filter.mpr ⟨hmem, hanswers⟩, rfl⟩
    rw [chosen, List.map_append]
    exact List.mem_append_left _ ((keptNodes_ips scans t).mem_iff.mpr hretained)

omit hnodup in
theorem onLeaderStart_selects_three :
    let nodes : List ScannedNode :=
      [{ ip := "10.0.0.3".toList }, { ip := "10.0.0.1".toList }, { ip := "10.0.0.2".toList }]
    ∃ chosen, (new {} nodes).onLeaderStart {} ⟨fun _ ↦ true, fun _ ↦ true⟩ = .ok chosen ∧
      chosen.length = 3 := by
  intro nodes
  have hnodup : (nodes.map (·.ip)).Nodup := by decide
  obtain ⟨chosen, hchosen, hlength, -⟩ :=
    (onLeaderStart_selects hnodup {} [] ⟨fun _ ↦ true, fun _ ↦ true⟩).2 (by decide)
  exact ⟨chosen, hchosen, hlength⟩

end

end RaftDN

end Spkdfs
