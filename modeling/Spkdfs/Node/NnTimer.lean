import Spkdfs.Library.Runs
import Spkdfs.Node.RaftDN

namespace Spkdfs

open Library

namespace RaftDN

/-- What a firing of `nn_timer` makes of the list, the ip that it gives up, and the number of the
scan after its last one. -/
structure Firing where
  namenodeList : List ScannedNode
  lossIp : Option Str
  scans : Nat

/-- The loop of `nn_timer` from a node on, which was scanned `retryCount` times in vain. The ips that
answer may be others with each scan. -/
def scanList (answers : Nat → Str → Bool) : List ScannedNode → Nat → Nat → Firing
  | [], _, k => ⟨[], none, k⟩
  | node :: rest, retryCount, k =>
    if answers k node.ip then
      let r := scanList answers rest 0 (k + 1)
      { r with namenodeList := { node with nodeStatus := .online } :: r.namenodeList }
    else if 3 ≤ retryCount then
      ⟨{ node with nodeStatus := .offline } :: rest, some node.ip, k + 1⟩
    else scanList answers ({ node with nodeStatus := .offline } :: rest) (retryCount + 1) (k + 1)
termination_by nodes retryCount => (nodes.length, 3 - retryCount)

variable {answers : Nat → Str → Bool} {node : ScannedNode} {rest nodes : List ScannedNode}
  {retryCount k : Nat}

/-- A node answers one of its scans, or none of those that are left to it. -/
theorem scanList_cons (h : retryCount ≤ 3) :
    (∃ c, retryCount + c ≤ 3 ∧ answers (k + c) node.ip = true ∧
      scanList answers (node :: rest) retryCount k =
        ⟨{ node with nodeStatus := .online } :: (scanList answers rest 0 (k + c + 1)).namenodeList,
          (scanList answers rest 0 (k + c + 1)).lossIp,
          (scanList answers rest 0 (k + c + 1)).scans⟩) ∨
    (∀ c, retryCount + c ≤ 3 → answers (k + c) node.ip = false) ∧
      scanList answers (node :: rest) retryCount k =
        ⟨{ node with nodeStatus := .offline } :: rest, some node.ip, k + (4 - retryCount)⟩ := by
  induction hleft : 3 - retryCount generalizing node retryCount k with
  | zero =>
    obtain rfl : retryCount = 3 := by omega
    rw [scanList]
    cases hk : answers k node.ip with
    | true => exact .inl ⟨0, le_rfl, hk, if_pos rfl⟩
    | false =>
      refine .inr ⟨fun c hc ↦ ?_, rfl⟩
      obtain rfl : c = 0 := by omega
      exact hk
  | succ left ih =>
    rw [scanList]
    cases hk : answers k node.ip with
    | true => exact .inl ⟨0, h, hk, if_pos rfl⟩
    | false =>
      rw [if_neg Bool.false_ne_true, if_neg (by omega)]
      obtain ⟨c, hc, hanswers, he⟩ | ⟨hsilent, he⟩ :=
        @ih { node with nodeStatus := .offline } (retryCount + 1) (k + 1) (by omega) (by omega)
      · have hshift : k + 1 + c = k + (c + 1) := by omega
        rw [hshift] at hanswers he
        exact .inl ⟨c + 1, by omega, hanswers, he⟩
      · refine .inr ⟨fun c hc ↦ ?_, ?_⟩
        · cases c with
          | zero => exact hk
          | succ c =>
            have hshift : k + (c + 1) = k + 1 + c := by omega
            rw [hshift]
            exact hsilent c (by omega)
        · have hlast : k + 1 + (4 - (retryCount + 1)) = k + (4 - retryCount) := by omega
          rw [he, hlast]

/-- A firing from scan `k` on. -/
structure Fired (answers : Nat → Str → Bool) (nodes : List ScannedNode) (k : Nat) (r : Firing) :
    Prop where
  same : r.namenodeList.map (fun node ↦ (node.ip, node.port)) =
    nodes.map fun node ↦ (node.ip, node.port)
  first : k ≤ r.scans
  bound : r.scans ≤ k + 4 * nodes.length
  answered : r.lossIp = none → ∀ node ∈ nodes, ∃ j, k ≤ j ∧ j < r.scans ∧ answers j node.ip = true
  lost : ∀ ip, r.lossIp = some ip → ∃ before node after, nodes = before ++ node :: after ∧
    node.ip = ip ∧ (∀ other ∈ before, ∃ j, k ≤ j ∧ j < r.scans ∧ answers j other.ip = true) ∧
      k + 4 ≤ r.scans ∧ ∀ j, r.scans ≤ j + 4 → j < r.scans → answers j ip = false

theorem fired_scanList (answers : Nat → Str → Bool) (nodes : List ScannedNode) (k : Nat) :
    Fired answers nodes k (scanList answers nodes 0 k) := by
  induction nodes generalizing k with
  | nil =>
    rw [scanList]
    exact ⟨rfl, le_rfl, le_rfl, fun _ node hn ↦ absurd hn List.not_mem_nil, fun ip h ↦ nomatch h⟩
  | cons node rest ih =>
    obtain ⟨c, hc, hanswers, he⟩ | ⟨hsilent, he⟩ :=
      @scanList_cons answers node rest 0 k (Nat.zero_le 3)
    · obtain ⟨hsame, hfirst, hbound, hanswered, hlost⟩ := ih (k + c + 1)
      generalize scanList answers rest 0 (k + c + 1) = r at he hsame hfirst hbound hanswered hlost
      have hnode : ∃ j, k ≤ j ∧ j < r.scans ∧ answers j node.ip = true :=
        ⟨k + c, by omega, by omega, hanswers⟩
      have hlater : ∀ other : ScannedNode, (∃ j, k + c + 1 ≤ j ∧ j < r.scans ∧
          answers j other.ip = true) → ∃ j, k ≤ j ∧ j < r.scans ∧ answers j other.ip = true := by
        rintro other ⟨j, hj, hlt, hother⟩
        exact ⟨j, by omega, hlt, hother⟩
      have hscans : k ≤ r.scans ∧ r.scans ≤ k + 4 * (rest.length + 1) := by omega
      rw [he]
      refine ⟨?_, hscans.1, hscans.2, fun hnone ↦ ?_, fun ip hip ↦ ?_⟩
      · rw [List.map_cons, List.map_cons, hsame]
      · exact List.forall_mem_cons.mpr ⟨hnode, fun other hother ↦
          hlater other (hanswered hnone other hother)⟩
      · obtain ⟨before, lost, after, rfl, hloss, hbefore, hfour, hlast⟩ := hlost ip hip
        have hfirst : k + 4 ≤ r.scans := by omega
        exact ⟨node :: before, lost, after, rfl, hloss, List.forall_mem_cons.mpr
          ⟨hnode, fun other hother ↦ hlater other (hbefore other hother)⟩, hfirst, hlast⟩
    · have hbound : k + 4 ≤ k + 4 * (rest.length + 1) := by omega
      rw [he]
      refine ⟨rfl, Nat.le_add_right k 4, hbound, fun hnone ↦ ?_, fun ip hip ↦ ?_⟩
      · cases hnone
      · obtain rfl := Option.some.inj hip
        refine ⟨[], node, rest, rfl, rfl, fun other ho ↦ absurd ho List.not_mem_nil, le_rfl,
          fun j (hj : k + 4 ≤ j + 4) (hlt : j < k + 4) ↦ ?_⟩
        obtain ⟨c, rfl⟩ := Nat.exists_eq_add_of_le (Nat.le_of_add_le_add_right hj)
        exact hsilent c (by omega)

variable {flags : NodeFlags} {scans : Scans} {t t' : RaftDN} {all : List ScannedNode} {e : Watch}

theorem ips_of_same {namenodeList : List ScannedNode}
    (h : namenodeList.map (fun node ↦ (node.ip, node.port)) =
      t.namenodeList.map fun node ↦ (node.ip, node.port)) :
    namenodeList.map (·.ip) = t.namenodeList.map (·.ip) := by
  have hips := congrArg (List.map Prod.fst) h
  rwa [List.map_map, List.map_map] at hips

theorem Listed.of_same (h : t.Listed flags all) {namenodeList : List ScannedNode}
    (hsame : namenodeList.map (fun node ↦ (node.ip, node.port)) =
      t.namenodeList.map fun node ↦ (node.ip, node.port)) :
    Listed flags all { t with namenodeList } := by
  have hmem : ∀ node ∈ namenodeList, ∃ other ∈ t.namenodeList, other.ip = node.ip ∧
      other.port = node.port := by
    intro node hnode
    have hpair : (node.ip, node.port) ∈ t.namenodeList.map fun node ↦ (node.ip, node.port) :=
      hsame ▸ List.mem_map.mpr ⟨node, hnode, rfl⟩
    obtain ⟨other, hother, he⟩ := List.mem_map.mp hpair
    exact ⟨other, hother, Prod.mk.inj he⟩
  refine ⟨h.datanodes, ?_, fun node hnode ↦ ?_, fun node hnode ↦ ?_⟩
  · rw [ips_of_same hsame]
    exact h.nodup
  · obtain ⟨other, hother, hip, -⟩ := hmem node hnode
    exact hip ▸ h.members other hother
  · obtain ⟨other, hother, -, hport⟩ := hmem node hnode
    exact hport ▸ h.port other hother

/-- A firing gives up the first namenode of the list that answers none of four scans in a row, and
it needs no more than four scans for each of them. -/
theorem nn_timer_reports (answers : Nat → Str → Bool) (t : RaftDN) :
    let r := scanList answers t.namenodeList 0 0
    r.scans ≤ 4 * t.namenodeList.length ∧
      (r.lossIp = none → ∀ node ∈ t.namenodeList, ∃ j, j < r.scans ∧ answers j node.ip = true) ∧
      ∀ ip, r.lossIp = some ip → ∃ before node after, t.namenodeList = before ++ node :: after ∧
        node.ip = ip ∧ (∀ other ∈ before, ∃ j, j < r.scans ∧ answers j other.ip = true) ∧
          4 ≤ r.scans ∧ ∀ j, r.scans ≤ j + 4 → j < r.scans → answers j ip = false := by
  intro r
  obtain ⟨-, -, hbound, hanswered, hlost⟩ := fired_scanList answers t.namenodeList 0
  simp only [Nat.zero_add, Nat.zero_le, true_and] at hbound hanswered hlost
  exact ⟨hbound, hanswered, hlost⟩

section

variable {alive : Str → Bool}

end

end RaftDN

end Spkdfs
