import Spkdfs.Client.OneSub

namespace Spkdfs

open Library

namespace Node

/-- `from_string` assigns what the text names: without a port the node keeps the one it has. -/
def fromString (nodeStr : Str) (node : Node) : Except Fault Node := do
  let portStr := ((nodeStr.dropWhile (· ≠ ':')).drop 1).takeWhile (· ≠ '\n')
  let node := { node with ip := nodeStr.takeWhile (· ≠ ':') }
  if portStr = [] then return node
  return { node with port := ← stoi portStr }

theorem ofString_eq_fromString (s : Str) : ofString s = fromString s { ip := s } := rfl

end Node

/-- The loop of `parse_nodes`: one `Node` goes from line to line. -/
def parseLines : List Str → Node → Except Fault (List Node)
  | [], _ => return []
  | token :: tokens, node => do
    let node ← node.fromString token
    return node :: (← parseLines tokens node)

def parseNodes (nodesStr : Str) : Except Fault (List Node) :=
  parseLines (Namenode.getlines ',' nodesStr) { ip := [] }

/-- `to_string` of a list of nodes; without a node there is nothing to take back. -/
def nodesToString (nodes : List Node) : Option Str :=
  if nodes = [] then none
  else some (nodes.map fun node ↦ node.toString ++ [',']).flatten.dropLast

/-- An entry of a node list: an ip, and a decimal port where there is one. -/
structure NodeEntry where
  ip : Str
  port : Option Str
  ip_ne_nil : ip ≠ []
  plain : ',' ∉ ip ∧ ':' ∉ ip
  decimal : ∀ digits ∈ port, digits ≠ [] ∧ ∀ c ∈ digits, c.isDigit = true

namespace NodeEntry

def text (e : NodeEntry) : Str := e.ip ++ e.port.elim [] (':' :: ·)

def value (e : NodeEntry) : Nat := e.port.elim 0 digitsValue

def node (e : NodeEntry) : Node := ⟨e.ip, e.value⟩

def joined (entries : List NodeEntry) (trailing : Bool) : Str :=
  [','].intercalate (entries.map text) ++ if trailing then [','] else []

/-- The port of the last entry that has one, and `port` if none has. -/
def lastPort (port : Nat) (entries : List NodeEntry) : Nat :=
  ((entries.filterMap (·.port)).getLast?).elim port digitsValue

/-- Every port is an `int`, and where an entry has none, the last port before it is 0. -/
def Independent (entries : List NodeEntry) : Prop :=
  (∀ e ∈ entries, e.value ≤ intMax) ∧
    ∀ before e after, entries = before ++ e :: after → e.port = none → lastPort 0 before = 0

/-- What the loop makes of the entries when it arrives with a port. -/
def carried : Nat → List NodeEntry → List Node
  | _, [] => []
  | port, e :: entries =>
    let port := e.port.elim port digitsValue
    ⟨e.ip, port⟩ :: carried port entries

variable {entries : List NodeEntry} {port : Nat}

theorem takeWhile_ip {ip : Str} (rest : Str) (h : ':' ∉ ip) :
    (ip ++ ':' :: rest).takeWhile (· ≠ ':') = ip ∧
      (ip ++ ':' :: rest).dropWhile (· ≠ ':') = ':' :: rest := by
  have hip : ∀ c ∈ ip, decide (c ≠ ':') = true := by
    intro c hc
    refine decide_eq_true ?_
    rintro rfl
    exact h hc
  rw [List.takeWhile_append_of_pos hip, List.dropWhile_append_of_pos hip]
  simp

theorem fromString_port {ip portStr : Str} (hip : ':' ∉ ip) (hne : portStr ≠ [])
    (hline : '\n' ∉ portStr) (node : Node) :
    node.fromString (ip ++ ':' :: portStr) = do return { ip, port := ← stoi portStr } := by
  obtain ⟨htake, hdrop⟩ := takeWhile_ip portStr hip
  have hwhole : portStr.takeWhile (· ≠ '\n') = portStr := by
    refine List.takeWhile_eq_self_iff.mpr fun c hc ↦ decide_eq_true ?_
    rintro rfl
    exact hline hc
  rw [Node.fromString, htake, hdrop, List.drop_one, List.tail_cons, hwhole, if_neg hne]

theorem fromString_ip {ip : Str} (hip : ':' ∉ ip) (node : Node) :
    node.fromString ip = .ok { node with ip } := by
  have hall : ∀ c ∈ ip, decide (c ≠ ':') = true := by
    intro c hc
    refine decide_eq_true ?_
    rintro rfl
    exact hip hc
  rw [Node.fromString, List.takeWhile_eq_self_iff.mpr hall, List.dropWhile_eq_nil_iff.mpr hall]
  rfl

theorem fromString_text (e : NodeEntry) (ip : Str) (port : Nat) :
    (⟨ip, port⟩ : Node).fromString e.text =
      if e.value ≤ intMax then .ok ⟨e.ip, (e.port.elim port digitsValue : Nat)⟩
      else .error (.outOfRange "stoi".toList) := by
  have hdecimal := e.decimal
  cases hport : e.port with
  | none =>
    have hvalue : e.value = 0 := by rw [value, hport]; rfl
    have htext : e.text = e.ip := by rw [text, hport]; exact List.append_nil _
    rw [hvalue, if_pos (Nat.zero_le _), htext, fromString_ip e.plain.2]
    rfl
  | some digits =>
    obtain ⟨hne, hdigits⟩ := hdecimal digits hport
    have hline : '\n' ∉ digits := fun hc ↦ absurd (hdigits _ hc) (by decide)
    have hvalue : e.value = digitsValue digits := by rw [value, hport]; rfl
    have htext : e.text = e.ip ++ ':' :: digits := by rw [text, hport]; rfl
    rw [hvalue, htext, fromString_port e.plain.2 hne hline, stoi_of_digits hne hdigits]
    split
    · rfl
    · rfl

theorem parseLines_text (entries : List NodeEntry) (ip : Str) (port : Nat) :
    parseLines (entries.map text) ⟨ip, port⟩ =
      if ∀ e ∈ entries, e.value ≤ intMax then .ok (carried port entries)
      else .error (.outOfRange "stoi".toList) := by
  induction entries generalizing ip port with
  | nil => simp [parseLines, carried]
  | cons e entries ih =>
    simp only [List.map_cons, parseLines, fromString_text, List.forall_mem_cons]
    by_cases he : e.value ≤ intMax
    · rw [if_pos he, ok_bind, ih]
      simp only [he, true_and]
      split
      · rfl
      · rfl
    · simp [he]

theorem lastPort_cons (port : Nat) (e : NodeEntry) (entries : List NodeEntry) :
    lastPort port (e :: entries) = lastPort (e.port.elim port digitsValue) entries := by
  cases hport : e.port with
  | none => simp [lastPort, hport]
  | some digits =>
    rw [lastPort, lastPort, List.filterMap_cons_some hport]
    cases hrest : entries.filterMap (·.port) with
    | nil => simp
    | cons d ds => rw [List.getLast?_cons_cons, List.getLast?_eq_some_getLast (List.cons_ne_nil d ds)]; rfl

/-- The loop gives every entry its own port as long as no port is left over for an entry
without one. -/
theorem carried_eq_iff : carried port entries = entries.map node ↔
    ∀ before e after, entries = before ++ e :: after → e.port = none → lastPort port before = 0 := by
  induction entries generalizing port with
  | nil => simp [carried]
  | cons e entries ih =>
    have hown : e.port.elim port digitsValue = e.value ↔ (e.port = none → port = 0) := by
      rw [value]
      cases e.port <;> simp
    simp only [carried, List.map_cons, List.cons.injEq, node, Node.mk.injEq, true_and,
      Int.ofNat_inj, hown, ih]
    constructor
    · rintro ⟨hfirst, hrest⟩ before e' after hsplit hnone
      cases before with
      | nil =>
        obtain ⟨rfl, rfl⟩ := List.cons.inj hsplit
        exact hfirst hnone
      | cons e'' before =>
        obtain ⟨rfl, htail⟩ := List.cons.inj hsplit
        rw [lastPort_cons]
        exact hrest before e' after htail hnone
    · intro hall
      refine ⟨fun hnone ↦ hall [] e entries rfl hnone, fun before e' after hsplit hnone ↦ ?_⟩
      have hlast := hall (e :: before) e' after (by rw [hsplit]; rfl) hnone
      rwa [lastPort_cons] at hlast

theorem text_separated (e : NodeEntry) : e.text ≠ [] ∧ ',' ∉ e.text := by
  have hdecimal := e.decimal
  refine ⟨by simp [text, e.ip_ne_nil], ?_⟩
  rw [text, List.mem_append, not_or]
  refine ⟨e.plain.1, ?_⟩
  cases hport : e.port with
  | none => simp
  | some digits =>
    have hcomma : ',' ∉ digits := fun hc ↦ absurd ((hdecimal digits hport).2 _ hc) (by decide)
    simpa using hcomma

theorem getlines_joined (hne : entries ≠ []) (trailing : Bool) :
    Namenode.getlines ',' (joined entries trailing) = entries.map text := by
  have hparts : ∀ part ∈ entries.map text, part ≠ [] ∧ ',' ∉ part := by
    intro part hpart
    obtain ⟨e, -, rfl⟩ := List.mem_map.mp hpart
    exact e.text_separated
  have hne' : entries.map text ≠ [] := by simpa using hne
  cases trailing with
  | false =>
    have hlines := getlines_intercalate hne' hparts
    simpa [joined] using hlines
  | true =>
    -- the trailing comma is followed by one more part, which is empty and not read
    have hjoined : joined entries true = [','].intercalate (entries.map text ++ [[]]) := by
      rw [joined, intercalate_concat ',' hne', if_pos rfl]
    have hcomma : ∀ part ∈ entries.map text ++ [[]], ',' ∉ part := by
      intro part hpart
      rcases List.mem_append.mp hpart with hpart | hpart
      · exact (hparts part hpart).2
      · simp [List.mem_singleton.mp hpart]
    rw [Namenode.getlines, hjoined, List.splitOn_intercalate ',' hcomma (by simp)]
    simp

theorem parseNodes_joined (hne : entries ≠ []) (trailing : Bool) :
    parseNodes (joined entries trailing) =
      if ∀ e ∈ entries, e.value ≤ intMax then .ok (carried 0 entries)
      else .error (.outOfRange "stoi".toList) := by
  rw [parseNodes, getlines_joined hne]
  exact parseLines_text entries [] 0

theorem parseNodes_joined_iff (hne : entries ≠ []) (trailing : Bool) :
    parseNodes (joined entries trailing) = .ok (entries.map node) ↔ Independent entries := by
  rw [parseNodes_joined hne, Independent, ← carried_eq_iff]
  split
  · rename_i hfit
    rw [Except.ok.injEq]
    exact ⟨fun h ↦ ⟨hfit, h⟩, fun h ↦ h.2⟩
  · rename_i hfit
    simp [hfit]

end NodeEntry

/-- A node with an ip that an entry may have, and with an `int` as its port. -/
structure Node.Listed (node : Node) : Prop where
  ip_ne_nil : node.ip ≠ []
  plain : ',' ∉ node.ip ∧ ':' ∉ node.ip
  port : -(intMax : Int) - 1 ≤ node.port ∧ node.port ≤ intMax

theorem Node.Listed.fromString_toString {node : Node} (h : node.Listed) (old : Node) :
    old.fromString node.toString = .ok node := by
  have hline : '\n' ∉ node.portText := Node.notMem_portText (by decide) (by decide)
  rw [Node.toString_eq_portText,
    NodeEntry.fromString_port h.plain.2 node.portText_ne_nil hline, Node.stoi_portText h.port]
  rfl

theorem parseLines_toString {nodes : List Node} (h : ∀ node ∈ nodes, node.Listed) (old : Node) :
    parseLines (nodes.map Node.toString) old = .ok nodes := by
  induction nodes generalizing old with
  | nil => rfl
  | cons node nodes ih =>
    obtain ⟨hnode, hnodes⟩ := List.forall_mem_cons.mp h
    rw [List.map_cons, parseLines, hnode.fromString_toString, ok_bind, ih hnodes]
    rfl

/-- A printed list always has its ports, so it is read back whatever the ports are. -/
theorem parseNodes_nodesToString {nodes : List Node} (hne : nodes ≠ [])
    (h : ∀ node ∈ nodes, node.Listed) :
    (nodesToString nodes).map parseNodes = some (.ok nodes) := by
  have hparts : ∀ part ∈ nodes.map Node.toString, part ≠ [] ∧ ',' ∉ part := by
    intro part hpart
    obtain ⟨node, hnode, rfl⟩ := List.mem_map.mp hpart
    refine ⟨by simp [Node.toString], ?_⟩
    exact Node.notMem_toString (h node hnode).plain.1 (by decide) (by decide) (by decide)
  have hflatten := flatten_dropLast_eq_intercalate ',' (nodes.map Node.toString)
  rw [List.map_map] at hflatten
  rw [nodesToString, if_neg hne, Option.map_some, parseNodes]
  have hlines := getlines_intercalate (by simpa using hne) hparts
  rw [← hflatten] at hlines
  refine congrArg some ?_
  rw [← parseLines_toString h { ip := [] }]
  exact congrArg (parseLines · _) hlines

/-- A joined list is parsed entry by entry if and only if every entry without a port has only the
port 0 before it, and the ports are numbers that an `int` holds. -/
theorem parseNodes_entries_iff {entries : List NodeEntry} (hne : entries ≠ []) (trailing : Bool) :
    (parseNodes (NodeEntry.joined entries trailing) = .ok (entries.map NodeEntry.node) ↔
        NodeEntry.Independent entries) ∧
      ∀ nodes ≠ [], (∀ node ∈ nodes, node.Listed) →
        (nodesToString nodes).map parseNodes = some (.ok nodes) :=
  ⟨NodeEntry.parseNodes_joined_iff hne trailing, fun _ hne h ↦ parseNodes_nodesToString hne h⟩

/-- An entry with a port and one without. -/
def twoEntries : List NodeEntry :=
  [⟨"10.0.0.1".toList, some "80".toList, by decide, by decide, fun digits h ↦ by
      obtain rfl := Option.some.inj h
      exact ⟨by decide, List.all_eq_true.mp (by decide)⟩⟩,
    ⟨"10.0.0.2".toList, none, by decide, by decide, fun _ h ↦ by cases h⟩]

theorem parseNodes_ports_last :
    parseNodes "10.0.0.2,10.0.0.1:80,".toList =
        .ok [⟨"10.0.0.2".toList, 0⟩, ⟨"10.0.0.1".toList, 80⟩] ∧
      (nodesToString [⟨"10.0.0.1".toList, 80⟩]).map parseNodes =
        some (.ok [⟨"10.0.0.1".toList, 80⟩]) := by
  have hne : twoEntries.reverse ≠ [] := by decide
  obtain ⟨hentries, hnodes⟩ := parseNodes_entries_iff hne true
  have hindependent : NodeEntry.Independent twoEntries.reverse := by
    refine ⟨by decide, fun before e after hsplit hnone ↦ ?_⟩
    cases before with
    | nil => rfl
    | cons first before =>
      obtain ⟨-, hsplit⟩ := List.cons.inj hsplit
      cases before with
      | nil =>
        obtain ⟨rfl, -⟩ := List.cons.inj hsplit
        cases hnone
      | cons second before =>
        obtain ⟨-, hsplit⟩ := List.cons.inj hsplit
        cases before <;> cases hsplit
  refine ⟨hentries.mpr hindependent, hnodes _ (by decide) fun node hnode ↦ ?_⟩
  obtain rfl := List.mem_singleton.mp hnode
  exact ⟨by decide, by decide, by decide⟩

/-- The port of the first entry is also given to the second. -/
theorem parseNodes_port_inherited :
    NodeEntry.joined twoEntries false = "10.0.0.1:80,10.0.0.2".toList ∧
      parseNodes (NodeEntry.joined twoEntries false) =
        .ok [⟨"10.0.0.1".toList, 80⟩, ⟨"10.0.0.2".toList, 80⟩] ∧
      ¬ ∀ entries : List NodeEntry, entries ≠ [] → (∀ e ∈ entries, e.value ≤ intMax) →
        ∀ trailing, parseNodes (NodeEntry.joined entries trailing) =
          .ok (entries.map NodeEntry.node) := by
  have hparsed : parseNodes (NodeEntry.joined twoEntries false) =
      .ok [⟨"10.0.0.1".toList, 80⟩, ⟨"10.0.0.2".toList, 80⟩] := by decide +kernel
  refine ⟨by decide +kernel, hparsed, fun h ↦ ?_⟩
  have hclaimed := h twoEntries (by decide) (by decide) false
  rw [hparsed] at hclaimed
  exact absurd hclaimed (by decide)

end Spkdfs
