import Spkdfs.Client.Shards

namespace Spkdfs

open Library

theorem notMem_toText {c : Char} (hc : c.isDigit = false) (n : Nat) : c ∉ toText n := by
  intro hm
  rw [isDigit_of_mem_toText hm] at hc
  cases hc

theorem getlines_intercalate {c : Char} {parts : List Str} (hne : parts ≠ [])
    (hparts : ∀ part ∈ parts, part ≠ [] ∧ c ∉ part) :
    Namenode.getlines c ([c].intercalate parts) = parts := by
  have hsplit := List.splitOn_intercalate c (fun part hp ↦ (hparts part hp).2) hne
  rw [Namenode.getlines, hsplit, if_neg]
  intro hlast
  exact (hparts [] (List.mem_of_getLast? hlast)).1 rfl

theorem flatten_dropLast_eq_intercalate (c : Char) (parts : List Str) :
    ((parts.map (· ++ [c])).flatten).dropLast = [c].intercalate parts := by
  induction parts with
  | nil => rfl
  | cons part parts ih =>
    cases parts with
    | nil => simp
    | cons next parts =>
      rw [List.intercalate_cons_cons, ← ih]
      simp only [List.map_cons, List.flatten_cons]
      rw [List.dropLast_append_of_ne_nil (by simp)]

namespace Node

/-- An address as `to_string` prints it: the ip has none of the separators, and the port is an
`int`. -/
structure Separated (node : Node) : Prop where
  colon : ':' ∉ node.ip
  comma : ',' ∉ node.ip
  bar : '|' ∉ node.ip
  port : -(intMax : Int) - 1 ≤ node.port ∧ node.port ≤ intMax

/-- What `std::to_string` makes of the port. -/
def portText (node : Node) : Str :=
  if node.port < 0 then '-' :: toText node.port.natAbs else toText node.port.natAbs

variable {node : Node} {c : Char}

theorem toString_eq_portText (node : Node) : node.toString = node.ip ++ ':' :: node.portText := rfl

theorem portText_ne_nil (node : Node) : node.portText ≠ [] := by
  rw [portText]
  split_ifs
  · exact List.cons_ne_nil _ _
  · exact toText_ne_nil _

theorem notMem_portText (hdigit : c.isDigit = false) (hminus : c ≠ '-') : c ∉ node.portText := by
  rw [portText]
  split_ifs
  · simp [hminus, notMem_toText hdigit]
  · exact notMem_toText hdigit _

theorem stoi_portText (h : -(intMax : Int) - 1 ≤ node.port ∧ node.port ≤ intMax) :
    stoi node.portText = .ok node.port := by
  obtain ⟨hlow, hhigh⟩ := h
  have hmax : (intMax : Int) = 2 ^ 31 - 1 := by decide
  rw [portText]
  split_ifs with hneg
  · have hvalue : -((node.port.natAbs : Nat) : Int) = node.port := by omega
    rw [stoi_neg_toText (by omega), hvalue]
  · have hvalue : ((node.port.natAbs : Nat) : Int) = node.port := by omega
    rw [stoi_toText (by omega), hvalue]

theorem ofString_toString_of_separated (h : node.Separated) : ofString node.toString = .ok node := by
  have hcolon : ∀ c ∈ node.ip, decide (c ≠ ':') = true := by
    intro c hc
    refine decide_eq_true ?_
    rintro rfl
    exact h.colon hc
  have hip : node.toString.takeWhile (· ≠ ':') = node.ip := by
    rw [toString_eq_portText, List.takeWhile_append_of_pos hcolon]
    simp
  have hrest : node.toString.dropWhile (· ≠ ':') = ':' :: node.portText := by
    rw [toString_eq_portText, List.dropWhile_append_of_pos hcolon]
    simp
  have hline : node.portText.takeWhile (· ≠ '\n') = node.portText := by
    refine List.takeWhile_eq_self_iff.mpr fun c hc ↦ decide_eq_true ?_
    rintro rfl
    exact notMem_portText (by decide) (by decide) hc
  rw [ofString, hip, hrest, List.drop_one, List.tail_cons, hline, if_neg node.portText_ne_nil,
    stoi_portText h.port, ok_bind]
  rfl

theorem notMem_toString (hip : c ∉ node.ip) (hcolon : c ≠ ':') (hdigit : c.isDigit = false)
    (hminus : c ≠ '-') : c ∉ node.toString := by
  rw [toString_eq_portText]
  simp [hip, hcolon, notMem_portText hdigit hminus]

end Node

/-- A node, as it prints, and the hash of a shard. -/
structure Printed (pair : Str × Str) : Prop where
  node : ∃ node : Node, node.Separated ∧ pair.1 = node.toString
  hash : pair.2 ≠ [] ∧ ',' ∉ pair.2 ∧ '|' ∉ pair.2

def oneSub (pair : Str × Str) : Str := pair.1 ++ '|' :: pair.2

namespace Printed

variable {pair : Str × Str} {pairs : List (Str × Str)}

theorem separators (h : Printed pair) : ',' ∉ pair.1 ∧ '|' ∉ pair.1 := by
  obtain ⟨node, hnode, he⟩ := h.node
  rw [he]
  exact ⟨Node.notMem_toString hnode.comma (by decide) (by decide) (by decide),
    Node.notMem_toString hnode.bar (by decide) (by decide) (by decide)⟩

/-- The printer parses the node and prints it again. -/
theorem nodeHash_eq (h : Printed pair) : nodeHash pair = .ok (oneSub pair ++ [',']) := by
  obtain ⟨node, hnode, he⟩ := h.node
  rw [nodeHash, oneSub, he, Node.ofString_toString_of_separated hnode]
  rfl

theorem readNodeHash_oneSub (h : Printed pair) : readNodeHash (oneSub pair) = pair := by
  obtain ⟨node, hnode, he⟩ := h.node
  have hne : pair.1 ≠ [] := by
    rw [he, Node.toString]
    simp
  have hparts : ∀ part ∈ [pair.1, pair.2], part ≠ [] ∧ '|' ∉ part := by
    intro part hp
    simp only [List.mem_cons, List.not_mem_nil, or_false] at hp
    rcases hp with rfl | rfl
    · exact ⟨hne, h.separators.2⟩
    · exact ⟨h.hash.1, h.hash.2.2⟩
  have hsub : oneSub pair = ['|'].intercalate [pair.1, pair.2] := by
    rw [List.intercalate_cons_cons, List.intercalate_singleton]
    simp [oneSub]
  rw [readNodeHash, hsub, getlines_intercalate (by simp) hparts]
  rfl

theorem oneSub_separated (h : Printed pair) : oneSub pair ≠ [] ∧ ',' ∉ oneSub pair := by
  have hcomma := h.separators.1
  have hhash := h.hash.2.1
  exact ⟨by simp [oneSub], by simp [oneSub, hcomma, hhash]⟩

theorem encodeOneSub_eq (hne : pairs ≠ []) (hpairs : ∀ pair ∈ pairs, Printed pair) :
    encodeOneSub pairs = some (.ok ([','].intercalate (pairs.map oneSub))) := by
  have hparts : pairs.mapM nodeHash = .ok (pairs.map fun pair ↦ oneSub pair ++ [',']) := by
    refine mapM_eq_ok.mpr ?_
    rw [List.forall₂_map_right_iff]
    exact List.forall₂_same.mpr fun pair hp ↦ (hpairs pair hp).nodeHash_eq
  have hflatten := flatten_dropLast_eq_intercalate ',' (pairs.map oneSub)
  rw [List.map_map] at hflatten
  rw [encodeOneSub, if_neg hne, hparts, ← hflatten]
  rfl

theorem decodeOneSub_intercalate (hne : pairs ≠ []) (hpairs : ∀ pair ∈ pairs, Printed pair) :
    decodeOneSub ([','].intercalate (pairs.map oneSub)) = pairs := by
  have hparts : ∀ part ∈ pairs.map oneSub, part ≠ [] ∧ ',' ∉ part := by
    intro part hpart
    obtain ⟨pair, hp, rfl⟩ := List.mem_map.mp hpart
    exact (hpairs pair hp).oneSub_separated
  rw [decodeOneSub, getlines_intercalate (by simpa using hne) hparts, List.map_map]
  exact (List.map_congr_left fun pair hp ↦ (hpairs pair hp).readNodeHash_oneSub).trans pairs.map_id

end Printed

end Spkdfs
