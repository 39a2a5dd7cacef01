import Spkdfs.Node.RaftDN

namespace Spkdfs

/-- A configuration that is handed to the raft group of the namenodes. -/
inductive PeersCall
  /-- The old configuration agrees to the new one. -/
  | changePeers (namenodes : List ScannedNode)
  /-- The old configuration is dropped. -/
  | resetPeers (namenodes : List ScannedNode)
deriving DecidableEq

/-- A namenode, with the configurations it has handed on. -/
structure RaftNN where
  peers : List ScannedNode
  calls : List PeersCall := []

namespace RaftNN

def listPeers (raft : RaftNN) : List ScannedNode := raft.peers

def changePeers (raft : RaftNN) (namenodes : List ScannedNode) : RaftNN where
  peers := namenodes
  calls := raft.calls ++ [.changePeers namenodes]

def resetPeers (raft : RaftNN) (namenodes : List ScannedNode) : RaftNN where
  peers := namenodes
  calls := raft.calls ++ [.resetPeers namenodes]

end RaftNN

structure Server where
  myIp : Str
  nnRaft : Option RaftNN := none

namespace Server

def changeNamenodesList (raft : RaftNN) (newNamenodes : List ScannedNode) : RaftNN :=
  let oldNamenodes := raft.listPeers
  let alivenodesCount := (oldNamenodes.filter fun node ↦ newNamenodes.any (·.eq node)).length
  if alivenodesCount > newNamenodes.length / 2 then raft.changePeers newNamenodes
  else raft.resetPeers newNamenodes

/-- `on_namenodes_change`: a list is applied at this datanode. -/
def onNamenodesChange (server : Server) (namenodes : List ScannedNode) : Server :=
  if namenodes.any (·.ip = server.myIp) then
    match server.nnRaft with
    | some raft => { server with nnRaft := some (changeNamenodesList raft namenodes) }
    | none => { server with nnRaft := some { peers := namenodes } }
  else { server with nnRaft := none }

/-- The old peers that are still in the new list. -/
def survivors (old new : List ScannedNode) : List ScannedNode :=
  old.filter fun node ↦ node.ip ∈ new.map (·.ip)

theorem survivors_eq (old new : List ScannedNode) :
    (old.filter fun node ↦ new.any (·.eq node)) = survivors old new := by
  refine List.filter_congr fun node _ ↦ ?_
  rw [Bool.eq_iff_iff, List.any_eq_true, decide_eq_true_eq, List.mem_map]
  exact exists_congr fun other ↦ and_congr_right fun _ ↦ decide_eq_true_iff

theorem changeNamenodesList_eq (raft : RaftNN) (new : List ScannedNode) :
    changeNamenodesList raft new = if new.length < 2 * (survivors raft.peers new).length then
      raft.changePeers new else raft.resetPeers new := by
  have hhalf (n : Nat) : n > new.length / 2 ↔ new.length < 2 * n := by omega
  simp only [changeNamenodesList, RaftNN.listPeers, survivors_eq, hhalf]

/-- The half that is compared with is the one of the new list. -/
theorem changeNamenodesList_quorum_iff (raft : RaftNN) (new : List ScannedNode) :
    (((changeNamenodesList raft new).calls = raft.calls ++ [.resetPeers new] →
        ¬ raft.peers.length < 2 * (survivors raft.peers new).length) ∧
      (raft.peers.length < 2 * (survivors raft.peers new).length →
        (changeNamenodesList raft new).calls = raft.calls ++ [.changePeers new])) ↔
      ¬ (raft.peers.length < 2 * (survivors raft.peers new).length ∧
        2 * (survivors raft.peers new).length ≤ new.length) := by
  have hne : raft.calls ++ [.resetPeers new] ≠ raft.calls ++ [.changePeers new] := by simp
  rw [changeNamenodesList_eq]
  split_ifs with hhalf
  · have hchange : (raft.changePeers new).calls = raft.calls ++ [.changePeers new] := rfl
    rw [hchange]
    exact iff_of_true ⟨fun h ↦ absurd h.symm hne, fun _ ↦ rfl⟩
      (fun h ↦ absurd h.2 (Nat.not_le.mpr hhalf))
  · have hreset : (raft.resetPeers new).calls = raft.calls ++ [.resetPeers new] := rfl
    rw [hreset]
    constructor
    · rintro ⟨hkept, -⟩ ⟨hmajority, -⟩
      exact hkept rfl hmajority
    · intro h
      have hminor : ¬ raft.peers.length < 2 * (survivors raft.peers new).length := fun hmajority ↦
        h ⟨hmajority, Nat.not_lt.mp hhalf⟩
      exact ⟨fun _ ↦ hminor, fun hmajority ↦ absurd hmajority hminor⟩

/-- Three of six datanodes are up at the first election and all at the second: the three namenodes
survive, and their configuration is dropped. -/
theorem not_changeNamenodesList_quorum_six :
    let nodes : List ScannedNode := [{ ip := ['1'] }, { ip := ['2'] }, { ip := ['3'] },
      { ip := ['4'] }, { ip := ['5'] }, { ip := ['6'] }]
    let three : Scans := ⟨fun ip ↦ ip ∈ [['1'], ['2'], ['3']], fun ip ↦ ip ∈ [['1'], ['2'], ['3']]⟩
    let first := (RaftDN.new {} nodes).elect {} three
    let second := first.elect {} ⟨fun _ ↦ true, fun _ ↦ true⟩
    let server := ({ myIp := ['1'] } : Server).onNamenodesChange first.namenodeList
    server.nnRaft = some { peers := first.namenodeList } ∧
      first.namenodeList.length = 3 ∧
      (survivors first.namenodeList second.namenodeList).length = 3 ∧
      (server.onNamenodesChange second.namenodeList).nnRaft =
        some { peers := second.namenodeList, calls := [.resetPeers second.namenodeList] } := by
  intro nodes three first second server
  have hfirst : first = { RaftDN.new {} nodes with namenodeList := [{ ip := ['1'], port := 10001 },
      { ip := ['2'], port := 10001 }, { ip := ['3'], port := 10001 }] } := by
    rw [show first = (RaftDN.new {} nodes).elect {} three from rfl, RaftDN.elect,
      RaftDN.onLeaderStart_eq, RaftDN.chosen, RaftDN.keptNodes, RaftDN.new, List.mergeSort_nil]
    rfl
  have hsecond : second.namenodeList = [{ ip := ['1'], port := 10001 },
      { ip := ['2'], port := 10001 }, { ip := ['3'], port := 10001 },
      { ip := ['4'], port := 10001 }, { ip := ['5'], port := 10001 },
      { ip := ['6'], port := 10001 }] := by
    rw [show second = first.elect {} ⟨fun _ ↦ true, fun _ ↦ true⟩ from rfl, hfirst, RaftDN.elect,
      RaftDN.onLeaderStart_eq, RaftDN.chosen, RaftDN.keptNodes,
      List.mergeSort_of_pairwise (by decide)]
    rfl
  have hserver : server = { myIp := ['1'], nnRaft := some { peers := first.namenodeList } } := by
    rw [show server = ({ myIp := ['1'] } : Server).onNamenodesChange first.namenodeList from rfl,
      hfirst]
    rfl
  refine ⟨by rw [hserver], by rw [hfirst]; rfl, by rw [hfirst, hsecond]; rfl, ?_⟩
  rw [hserver, hsecond, hfirst]
  rfl

end Server

end Spkdfs
