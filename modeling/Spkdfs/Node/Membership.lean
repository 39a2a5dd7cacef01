import Spkdfs.Library.Followers
import Spkdfs.Node.LogEntry
import Spkdfs.Node.Server

namespace Spkdfs

open Library Function

namespace RaftDN

/-- `to_json` of a node. -/
def nodeToJson (node : ScannedNode) : Json :=
  .object (Fields.ofList [("ip", .string node.ip), ("port", .number node.port)])

def nodeFromJson (j : Json) : Except Fault ScannedNode := do
  let ip ← (← j.atKey "ip").getString
  let port ← (← j.atKey "port").getInt
  return { ip, port }

def nodesToJson (nodes : List ScannedNode) : Json := .array (nodes.map nodeToJson)

def readNodes (text : JsonText) (data : Str) : Except Fault (List ScannedNode) := do
  (← Inode.parsed text data).getVector nodeFromJson

/-- The task that `on_leader_start` hands to the raft group. -/
def proposal (text : JsonText) (flags : NodeFlags) (t : RaftDN) (scans : Scans) :
    Except Fault Str := do
  return text.dump (nodesToJson (← t.onLeaderStart flags scans))

/-- `on_apply`: the loop keeps the data of the last entry, and the server is told of the list. -/
def onApplyBatch (text : JsonText) (t : RaftDN) (server : Server) (batch : List Str) :
    Except Fault (RaftDN × Server) := do
  let namenodeList ← readNodes text (batch.foldl (fun _ data ↦ data) [])
  return ({ t with namenodeList }, server.onNamenodesChange namenodeList)

/-- The file `namenodes.json`. -/
def onSnapshotSave (text : JsonText) (t : RaftDN) : Str := text.dump (nodesToJson t.namenodeList)

/-- The server is not told of the list that is loaded. -/
def onSnapshotLoad (text : JsonText) (t : RaftDN) (str : Str) : Except Fault RaftDN := do
  if str = [] then return t
  return { t with namenodeList := ← readNodes text str }

end RaftDN

/-- The process of a datanode: its part of the raft group, and the server that runs a namenode in it
or not. -/
structure DatanodeProcess where
  raft : RaftDN
  server : Server

namespace DatanodeProcess

open RaftDN

section

variable (text : JsonText) (flags : NodeFlags) (nodes : List ScannedNode) (ips : Nat → Str)

/-- An exception in a callback of the raft group ends the process. -/
def machine : LogMachine DatanodeProcess Str Str Scans where
  initial who := ⟨.new flags nodes, { myIp := ips who }⟩
  apply s batch := (s.raft.onApplyBatch text s.server batch).toOption.map fun r ↦ ⟨r.1, r.2⟩
  save s := s.raft.onSnapshotSave text
  load s str := (s.raft.onSnapshotLoad text str).toOption.map fun raft ↦ { s with raft }
  propose s scans := (s.raft.proposal text flags scans).toOption

end

/-- A list that can be proposed: different datanodes, with the port of the namenodes. -/
structure Proposable (flags : NodeFlags) (nodes ns : List ScannedNode) : Prop where
  nodup : (ns.map (·.ip)).Nodup
  members : ∀ node ∈ ns, node.ip ∈ nodes.map (·.ip)
  port : ∀ node ∈ ns, node.port = flags.nnPort

/-- What is left of a node on its way through the log. -/
def bare (node : ScannedNode) : ScannedNode := { ip := node.ip, port := node.port }

/-- The list that some entries of the log lead to. -/
def listAt (text : JsonText) (entries : List Str) : List ScannedNode :=
  match entries.getLast? with
  | none => []
  | some data => (readNodes text data).toOption.getD []

/-- The server runs a namenode exactly where the list has its ip, with the list as its peers. -/
def Stands (server : Server) (namenodes : List ScannedNode) : Prop :=
  server.nnRaft.map (·.peers) =
    if namenodes.any (·.ip = server.myIp) then some namenodes else none

structure Applied (text : JsonText) (flags : NodeFlags) (nodes : List ScannedNode) (myIp : Str)
    (entries : List Str) (s : DatanodeProcess) : Prop where
  listed : s.raft.Listed flags nodes
  list : s.raft.namenodeList = listAt text entries
  ip : s.server.myIp = myIp
  server : ∃ told, told <+: entries ∧ Stands s.server (listAt text told)

def Proposed (text : JsonText) (flags : NodeFlags) (nodes : List ScannedNode) (data : Str) :
    Prop :=
  ∃ ns, ns ≠ [] ∧ Proposable flags nodes ns ∧ data = text.dump (nodesToJson ns)

variable {text : JsonText} {flags : NodeFlags} {nodes ns : List ScannedNode}

theorem nodeFromJson_nodeToJson {node : ScannedNode} (hport : node.port = flags.nnPort)
    (hflag : flags.nnPort < 2 ^ 31) : nodeFromJson (nodeToJson node) = .ok (bare node) := by
  have hip : (nodeToJson node).atKey "ip" = .ok (.string node.ip) := rfl
  have hp : (nodeToJson node).atKey "port" = .ok (.number node.port) := rfl
  have hint : (Json.number node.port).getInt = .ok node.port :=
    Json.getInt_number (by rw [hport]; omega)
  simp only [nodeFromJson, hip, hp, ok_bind, Json.getString, hint, pure_eq_ok, bare]

theorem readNodes_dump (hreads : text.Reads (nodesToJson ns)) (hns : Proposable flags nodes ns)
    (hflag : flags.nnPort < 2 ^ 31) :
    readNodes text (text.dump (nodesToJson ns)) = .ok (ns.map bare) := by
  have hparsed : Inode.parsed text (text.dump (nodesToJson ns)) = .ok (nodesToJson ns) := by
    rw [Inode.parsed, hreads]
    rfl
  rw [readNodes, hparsed, ok_bind, nodesToJson, Json.getVector, mapM_eq_ok,
    List.forall₂_map_left_iff, List.forall₂_map_right_iff]
  exact List.forall₂_same.mpr fun node hnode ↦ nodeFromJson_nodeToJson (hns.port node hnode) hflag

theorem Proposable.map_bare (h : Proposable flags nodes ns) :
    Proposable flags nodes (ns.map bare) := by
  refine ⟨?_, fun node hnode ↦ ?_, fun node hnode ↦ ?_⟩
  · rw [List.map_map]
    exact h.nodup
  · obtain ⟨other, hother, rfl⟩ := List.mem_map.mp hnode
    exact h.members other hother
  · obtain ⟨other, hother, rfl⟩ := List.mem_map.mp hnode
    exact h.port other hother

theorem foldl_last (batch : List Str) :
    batch.foldl (fun _ data ↦ data) [] = batch.getLast?.getD [] := by
  induction batch using List.reverseRecOn with
  | nil => rfl
  | append_singleton batch data ih => simp

theorem listAt_append (entries : List Str) {batch : List Str} (h : batch ≠ []) :
    listAt text (entries ++ batch) = listAt text batch := by
  rw [listAt, listAt, List.getLast?_append_of_ne_nil _ h]

theorem stands_onNamenodesChange (server : Server) (namenodes : List ScannedNode) :
    Stands (server.onNamenodesChange namenodes) namenodes ∧
      (server.onNamenodesChange namenodes).myIp = server.myIp := by
  unfold Server.onNamenodesChange Stands
  by_cases hfound : namenodes.any (·.ip = server.myIp)
  · rw [if_pos hfound]
    cases hraft : server.nnRaft with
    | none => simp [hfound]
    | some raft =>
      have hpeers : (Server.changeNamenodesList raft namenodes).peers = namenodes := by
        simp only [Server.changeNamenodesList]
        split_ifs <;> rfl
      simp [hfound, hpeers]
  · simp [hfound]

theorem bare_of_nodeFromJson {j : Json} {node : ScannedNode} (h : nodeFromJson j = .ok node) :
    bare node = node := by
  simp only [nodeFromJson, bind_eq_ok, pure_eq_ok, Except.ok.injEq] at h
  obtain ⟨-, -, ip, -, -, -, port, -, rfl⟩ := h
  rfl

theorem map_bare_of_readNodes {data : Str} (h : readNodes text data = .ok ns) :
    ns.map bare = ns := by
  rw [readNodes, bind_eq_ok] at h
  obtain ⟨j, -, h⟩ := h
  unfold Json.getVector at h
  split at h
  · have hread := mapM_eq_ok.mp h
    refine (List.map_congr_left fun node hnode ↦ ?_).trans (List.map_id ns)
    obtain ⟨element, -, helement⟩ := forall₂_mem_right hread hnode
    exact bare_of_nodeFromJson helement
  · cases h

theorem map_bare_listAt (entries : List Str) :
    (listAt text entries).map bare = listAt text entries := by
  unfold listAt
  split
  · rfl
  · rename_i data _
    cases hread : readNodes text data with
    | error f => rfl
    | ok ns => exact map_bare_of_readNodes hread

theorem Applied.proposable {myIp : Str} {entries : List Str} {s : DatanodeProcess}
    (h : Applied text flags nodes myIp entries s) :
    Proposable flags nodes s.raft.namenodeList :=
  ⟨h.listed.nodup, h.listed.members, h.listed.port⟩

theorem apply_proposed (ips : Nat → Str) {batch : List Str} (hflag : flags.nnPort < 2 ^ 31)
    (hreads : ∀ ns, Proposable flags nodes ns →
      text.dump (nodesToJson ns) ≠ [] ∧ text.Reads (nodesToJson ns))
    (hne : batch ≠ []) (hgood : ∀ data ∈ batch, Proposed text flags nodes data)
    (s : DatanodeProcess) :
    Proposable flags nodes (listAt text batch) ∧
      (machine text flags nodes ips).apply s batch =
        some ⟨{ s.raft with namenodeList := listAt text batch },
          s.server.onNamenodesChange (listAt text batch)⟩ := by
  obtain ⟨data, hlast⟩ : ∃ data, batch.getLast? = some data :=
    Option.ne_none_iff_exists'.mp (mt List.getLast?_eq_none_iff.mp hne)
  obtain ⟨ns, -, hns, rfl⟩ := hgood data (List.mem_of_getLast? hlast)
  have hread := readNodes_dump (hreads ns hns).2 hns hflag
  have hlist : listAt text batch = ns.map bare := by
    rw [listAt, hlast]
    simp only [hread, Except.toOption, Option.getD_some]
  have happly : s.raft.onApplyBatch text s.server batch =
      .ok ({ s.raft with namenodeList := ns.map bare },
        s.server.onNamenodesChange (ns.map bare)) := by
    rw [onApplyBatch, foldl_last, hlast, Option.getD_some, hread]
    rfl
  rw [hlist]
  exact ⟨hns.map_bare, by simp only [machine, happly, Except.toOption, Option.map_some]⟩

/-- Every callback keeps to the list, where the JSON library reads what it has printed. -/
theorem carries (ips : Nat → Str) (hnodup : (nodes.map (·.ip)).Nodup)
    (hflag : flags.nnPort < 2 ^ 31)
    (hreads : ∀ ns, Proposable flags nodes ns →
      text.dump (nodesToJson ns) ≠ [] ∧ text.Reads (nodesToJson ns)) :
    (machine text flags nodes ips).Carries
      (fun who entries s ↦ Applied text flags nodes (ips who) entries s)
      (fun entries str ↦ ∃ ns, Proposable flags nodes ns ∧ ns = listAt text entries ∧
        str = text.dump (nodesToJson ns))
      (Proposed text flags nodes) where
  initial who := ⟨listed_new flags nodes, rfl, rfl, [], List.nil_prefix, rfl⟩
  apply who p b s h hne hgood := by
    obtain ⟨hns, happly⟩ := apply_proposed ips hflag hreads hne hgood s
    obtain ⟨hstands, hip⟩ := stands_onNamenodesChange s.server (listAt text b)
    rw [← listAt_append p hne] at hns happly hstands hip
    exact ⟨_, happly, ⟨h.listed.datanodes, hns.nodup, hns.members, hns.port⟩, rfl,
      hip.trans h.ip, p ++ b, List.prefix_rfl, hstands⟩
  save who p s h := ⟨s.raft.namenodeList, h.proposable, h.list, rfl⟩
  load who q p s str h hqp hsaved := by
    obtain ⟨ns, hns, hlist, rfl⟩ := hsaved
    have hread := readNodes_dump (hreads ns hns).2 hns hflag
    have hbare : ns.map bare = ns := by rw [hlist, map_bare_listAt]
    have hload : s.raft.onSnapshotLoad text (text.dump (nodesToJson ns)) =
        .ok { s.raft with namenodeList := ns } := by
      rw [onSnapshotLoad, if_neg (hreads ns hns).1, hread, hbare]
      rfl
    obtain ⟨told, htold, hstands⟩ := h.server
    refine ⟨⟨{ s.raft with namenodeList := ns }, s.server⟩, ?_, ?_⟩
    · simp only [machine, hload, Except.toOption, Option.map_some]
    · exact ⟨⟨h.listed.datanodes, hns.nodup, hns.members, hns.port⟩, hlist, h.ip, told,
        htold.trans hqp, hstands⟩
  propose who p s scans data h hdata := by
    simp only [machine, proposal, onLeaderStart_eq] at hdata
    split_ifs at hdata with hempty
    · cases hdata
    · obtain rfl := Option.some.inj hdata
      exact ⟨chosen flags scans s.raft, hempty, ⟨h.listed.chosen_nodup hnodup,
        fun node hnode ↦ (h.listed.chosen_mem hnode).1,
        fun node hnode ↦ (h.listed.chosen_mem hnode).2.2.1⟩, rfl⟩

/-- The datanodes agree on the namenodes. Elections may be held anywhere and at any time; the log
reaches the datanodes in any portions, of which `on_apply` reads the last entry only, and by
snapshots and restarts. Each datanode has the list of what it has applied, every list proposed has
different datanodes, and each server runs a namenode where a list has told it to: the current one
right after `on_apply`. Neither `on_apply` nor a restart throws; an election at which no node is found
ready does, and is no step. -/
theorem datanodes_agree_on_namenodes {ips : Nat → Str} (hnodup : (nodes.map (·.ip)).Nodup)
    (hflag : flags.nnPort < 2 ^ 31)
    (hreads : ∀ ns, Proposable flags nodes ns →
      text.dump (nodesToJson ns) ≠ [] ∧ text.Reads (nodesToJson ns))
    {g : Group DatanodeProcess Str Str}
    (h : Reaches (machine text flags nodes ips).step (fun _ _ ↦ True)
      (machine text flags nodes ips).start g) :
    (∀ data ∈ g.log, ∃ ns, readNodes text data = .ok ns ∧ ns ≠ [] ∧ Proposable flags nodes ns) ∧
      ∀ who, let f := g.followers who
        f.state.raft.namenodeList = listAt text (g.log.take f.applied) ∧
        (∃ k ≤ f.applied, Stands f.state.server (listAt text (g.log.take k))) ∧
        (∀ n, 0 < n → f.applied + n ≤ g.log.length →
          ∃ g', (machine text flags nodes ips).step g (.apply who n) = some g' ∧
            Stands (g'.followers who).state.server
              (listAt text (g.log.take (f.applied + n)))) ∧
        ((machine text flags nodes ips).step g (.restart who)).isSome = true := by
  have hm := carries ips hnodup hflag hreads
  have hf := LogMachine.follows_of_reaches hm h
  refine ⟨fun data hdata ↦ ?_, fun who ↦ ⟨(hf.state who).list, ?_, fun n hn hb ↦ ?_, ?_⟩⟩
  · obtain ⟨ns, hne, hns, rfl⟩ := hf.good data hdata
    refine ⟨ns.map bare, readNodes_dump (hreads ns hns).2 hns hflag, ?_, hns.map_bare⟩
    exact fun hnil ↦ hne (List.map_eq_nil_iff.mp hnil)
  · obtain ⟨told, htold, hstands⟩ := (hf.state who).server
    have hlength := htold.length_le
    rw [List.length_take] at hlength
    refine ⟨told.length, by omega, ?_⟩
    have htake := List.prefix_iff_eq_take.mp (htold.trans (List.take_prefix ..))
    rwa [← htake]
  · set f := g.followers who
    have hne : slice g.log f.applied n ≠ [] := by
      intro hnil
      have hlength := length_slice hb
      rw [hnil, List.length_nil] at hlength
      omega
    have hgood : ∀ data ∈ slice g.log f.applied n, Proposed text flags nodes data :=
      fun data hdata ↦ hf.good data (List.mem_of_mem_drop (List.mem_of_mem_take hdata))
    obtain ⟨-, happly⟩ := apply_proposed ips hflag hreads hne hgood f.state
    have hstands := (stands_onNamenodesChange f.state.server (listAt text (slice g.log f.applied n))).1
    rw [← listAt_append (g.log.take f.applied) hne, take_append_slice] at happly hstands
    refine ⟨_, LogMachine.step_apply hn hb happly, ?_⟩
    rw [LogMachine.setFollower_self]
    exact hstands
  · obtain ⟨f, hf', -⟩ := hf.restarted hm who
    rw [LogMachine.step, hf']
    rfl

def oneNamenode : ScannedNode := { ip := "10.0.0.1".toList, port := 10001 }

/-- The library on the lists of a group of one. -/
def groupText : JsonText := .ofDocuments [nodesToJson [], nodesToJson [oneNamenode]]

theorem groupText_reads (ns : List ScannedNode)
    (h : Proposable {} [{ ip := "10.0.0.1".toList }] ns) :
    groupText.dump (nodesToJson ns) ≠ [] ∧ groupText.Reads (nodesToJson ns) := by
  have hpair := JsonText.reads_pair
    (show (nodesToJson []).print ≠ (nodesToJson [oneNamenode]).print by decide +kernel)
  have hsame : ∀ node ∈ ns, nodeToJson node = nodeToJson oneNamenode := by
    intro node hnode
    have hip : node.ip = "10.0.0.1".toList := by simpa using h.members node hnode
    rw [nodeToJson, nodeToJson, hip, h.port node hnode]
    rfl
  match ns, h with
  | [], _ => exact ⟨by decide +kernel, hpair.1⟩
  | [node], _ =>
    have hjson : nodesToJson [node] = nodesToJson [oneNamenode] := by
      rw [nodesToJson, nodesToJson, List.map_singleton, List.map_singleton,
        hsame node List.mem_cons_self]
    rw [hjson]
    exact ⟨by decide +kernel, hpair.2⟩
  | a :: b :: _, h =>
    have ha : a.ip = "10.0.0.1".toList := by simpa using h.members a (by simp)
    have hb : b.ip = "10.0.0.1".toList := by simpa using h.members b (by simp)
    have hnodup := h.nodup
    simp [ha, hb] at hnodup

def oneMachine : LogMachine DatanodeProcess Str Str Scans :=
  machine groupText {} [{ ip := "10.0.0.1".toList }] fun _ ↦ "10.0.0.1".toList

/-- An election, a snapshot of the list, and a restart. -/
theorem datanodes_agree_on_namenodes_restart :
    ∃ g, Reaches oneMachine.step (fun _ _ ↦ True) oneMachine.start g ∧
      (g.followers 0).applied = 1 ∧ (g.followers 0).state.raft.namenodeList = [oneNamenode] := by
  obtain ⟨g, hg, hp⟩ := exists_reached oneMachine.step (fun _ _ ↦ true) oneMachine.start
    [.propose 0 ⟨fun _ ↦ true, fun _ ↦ true⟩, .apply 0 1, .save 0, .restart 0]
    (fun g ↦ decide ((g.followers 0).applied = 1 ∧
      listAt groupText (g.log.take 1) = [oneNamenode])) (by decide +kernel)
  obtain ⟨happlied, hlist⟩ := of_decide_eq_true hp
  have hreached : Reaches oneMachine.step (fun _ _ ↦ True) oneMachine.start g :=
    hg.mono fun _ _ _ ↦ trivial
  have hagree := ((datanodes_agree_on_namenodes (by decide) (by decide) groupText_reads
    hreached).2 0).1
  rw [happlied, hlist] at hagree
  exact ⟨g, hreached, happlied, hagree⟩

end DatanodeProcess

end Spkdfs
