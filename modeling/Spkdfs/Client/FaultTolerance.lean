import Mathlib.Data.Finset.Card
import Spkdfs.Client.OneSub

namespace Spkdfs

open Library

/-- An address that prints and parses: the ip has none of the separators, and the port is an
`int` that is not negative. -/
structure Node.Plain (node : Node) : Prop where
  colon : ':' ∉ node.ip
  comma : ',' ∉ node.ip
  bar : '|' ∉ node.ip
  port : 0 ≤ node.port ∧ node.port ≤ intMax

theorem Node.Plain.separated {node : Node} (h : node.Plain) : node.Separated :=
  ⟨h.colon, h.comma, h.bar, by have := h.port.1; omega, h.port.2⟩

/-- A node and the hash of a shard, as the sub of an inode records them. -/
structure Recordable (pair : Str × Str) : Prop where
  node : ∃ node : Node, node.Plain ∧ pair.1 = node.toString
  hash : pair.2 ≠ [] ∧ ',' ∉ pair.2 ∧ '|' ∉ pair.2

theorem Recordable.printed {pair : Str × Str} (h : Recordable pair) : Printed pair := by
  obtain ⟨node, hplain, he⟩ := h.node
  exact ⟨⟨node, hplain.separated, he⟩, h.hash⟩

theorem encodeOneSub_eq {pairs : List (Str × Str)} (hne : pairs ≠ [])
    (hpairs : ∀ pair ∈ pairs, Recordable pair) :
    encodeOneSub pairs = some (.ok ([','].intercalate (pairs.map oneSub))) :=
  Printed.encodeOneSub_eq hne fun pair hp ↦ (hpairs pair hp).printed

theorem decodeOneSub_intercalate {pairs : List (Str × Str)} (hne : pairs ≠ [])
    (hpairs : ∀ pair ∈ pairs, Recordable pair) :
    decodeOneSub ([','].intercalate (pairs.map oneSub)) = pairs :=
  Printed.decodeOneSub_intercalate hne fun pair hp ↦ (hpairs pair hp).printed

section

variable {sha256sum : Str → Str} {storage : StorageType} {nodes vec : List Str} {u : Upload}

theorem Upload.turn_of_lt (h : u.nodeIndex + 1 < nodes.length) :
    u.turn storage nodes = (false, { u with nodeIndex := u.nodeIndex + 1 }) := by
  rw [Upload.turn, Nat.mod_eq_of_lt h, if_neg]
  simp

theorem Upload.turn_eq (storage : StorageType) (nodes : List Str) (u : Upload) :
    (u.turn storage nodes).2.i = u.i ∧ (u.turn storage nodes).2.nodesHashs = u.nodesHashs := by
  simp only [Upload.turn]
  split_ifs <;> exact ⟨rfl, rfl⟩

theorem uploadShards_done (outcomes : List Bool) (h : vec.length ≤ u.i) :
    uploadShards sha256sum storage nodes vec outcomes u = some (u, outcomes) := by
  cases outcomes with
  | nil => rw [uploadShards, if_neg (by omega)]
  | cons stored outcomes => rw [uploadShards, List.getElem?_eq_none h]

section

variable {shard node : Str} (hshard : vec[u.i]? = some shard)
  (hnode : nodes[u.nodeIndex]? = some node) (outcomes : List Bool)

include hshard hnode

theorem uploadShards_failed (hmore : u.nodeIndex + 1 < nodes.length) :
    uploadShards sha256sum storage nodes vec (false :: outcomes) u =
      uploadShards sha256sum storage nodes vec outcomes
        { u with nodeIndex := u.nodeIndex + 1, failCount := u.failCount + 1 } := by
  simp only [uploadShards, hshard, hnode, Upload.attempt, Bool.false_eq_true, if_false]
  rw [Upload.turn_of_lt (u := { u with failCount := u.failCount + 1 }) hmore]
  rfl

theorem uploadShards_stored (hmore : u.nodeIndex + 1 < nodes.length) :
    uploadShards sha256sum storage nodes vec (true :: outcomes) u =
      uploadShards sha256sum storage nodes vec outcomes
        { u with i := u.i + 1, nodeIndex := u.nodeIndex + 1, succ := u.succ + 1,
                 nodesHashs := u.nodesHashs ++ [(node, sha256sum shard)] } := by
  simp only [uploadShards, hshard, hnode, Upload.attempt, if_true]
  rw [Upload.turn_of_lt (u := { u with i := u.i + 1, succ := u.succ + 1, nodesHashs := _ }) hmore]
  rfl

theorem uploadShards_last (hlast : u.i + 1 = vec.length) :
    ∃ v rest, uploadShards sha256sum storage nodes vec (true :: outcomes) u = some (v, rest) ∧
      v.nodesHashs = u.nodesHashs ++ [(node, sha256sum shard)] := by
  simp only [uploadShards, hshard, hnode, Upload.attempt, if_true]
  obtain ⟨hi, hhashs⟩ := Upload.turn_eq storage nodes
    { u with i := u.i + 1, succ := u.succ + 1,
             nodesHashs := u.nodesHashs ++ [(node, sha256sum shard)] }
  split_ifs
  · exact ⟨_, _, rfl, hhashs⟩
  · exact ⟨_, _, uploadShards_done outcomes (by rw [hi]; exact hlast.ge), hhashs⟩

end

theorem uploadShards_complete (outcomes : List Bool) (h : vec.length ≤ u.i) :
    ∃ v rest pairs, uploadShards sha256sum storage nodes vec outcomes u = some (v, rest) ∧
      v.nodesHashs = u.nodesHashs ++ pairs ∧ pairs.map (·.2) = (vec.drop u.i).map sha256sum ∧
        (pairs.map (·.1)).Sublist (nodes.drop u.nodeIndex) := by
  refine ⟨u, outcomes, [], uploadShards_done outcomes h, by simp, ?_, by simp⟩
  rw [List.drop_eq_nil_of_le h]
  rfl

/-- While no node is tried twice, each shard goes to the next node that takes it. -/
theorem uploadShards_eq {outcomes : List Bool}
    (hcount : vec.length - u.i ≤ (outcomes.take (nodes.length - u.nodeIndex)).count true) :
    ∃ v rest pairs, uploadShards sha256sum storage nodes vec outcomes u = some (v, rest) ∧
      v.nodesHashs = u.nodesHashs ++ pairs ∧ pairs.map (·.2) = (vec.drop u.i).map sha256sum ∧
        (pairs.map (·.1)).Sublist (nodes.drop u.nodeIndex) := by
  induction outcomes generalizing u with
  | nil =>
    simp only [List.take_nil, List.count_nil] at hcount
    exact uploadShards_complete [] (by omega)
  | cons stored outcomes ih =>
    by_cases hdone : vec.length ≤ u.i
    · exact uploadShards_complete _ hdone
    have hlt : u.i < vec.length := by omega
    have hnode : u.nodeIndex < nodes.length := by
      by_contra hge
      have hzero : nodes.length - u.nodeIndex = 0 := by omega
      rw [hzero, List.take_zero, List.count_nil] at hcount
      omega
    -- `left` nodes come after this one
    obtain ⟨left, hleft⟩ : ∃ left, nodes.length - u.nodeIndex = left + 1 :=
      ⟨nodes.length - u.nodeIndex - 1, by omega⟩
    have hnext : nodes.length - (u.nodeIndex + 1) = left := by omega
    rw [hleft, List.take_succ_cons] at hcount
    have hshard := List.getElem?_eq_getElem hlt
    have hat := List.getElem?_eq_getElem hnode
    rw [List.drop_eq_getElem_cons hnode, List.drop_eq_getElem_cons hlt]
    cases stored with
    | false =>
      rw [List.count_cons_of_ne (by simp)] at hcount
      have hmore : u.nodeIndex + 1 < nodes.length := by
        by_contra hge
        have hzero : left = 0 := by omega
        rw [hzero, List.take_zero, List.count_nil] at hcount
        omega
      rw [uploadShards_failed hshard hat outcomes hmore]
      obtain ⟨v, rest, pairs, hv, hhashs, hshards, hnodes⟩ := ih
        (u := { u with nodeIndex := u.nodeIndex + 1, failCount := u.failCount + 1 })
        (by rw [hnext]; exact hcount)
      refine ⟨v, rest, pairs, hv, hhashs, ?_, hnodes.cons _⟩
      rw [hshards, List.drop_eq_getElem_cons hlt]
    | true =>
      rw [List.count_cons_self] at hcount
      by_cases hmore : u.nodeIndex + 1 < nodes.length
      · rw [uploadShards_stored hshard hat outcomes hmore]
        obtain ⟨v, rest, pairs, hv, hhashs, hshards, hnodes⟩ := ih
          (u := { u with i := u.i + 1, nodeIndex := u.nodeIndex + 1, succ := u.succ + 1,
                         nodesHashs := u.nodesHashs ++ [(nodes[u.nodeIndex], sha256sum vec[u.i])] })
          (by rw [hnext]; show vec.length - (u.i + 1) ≤ _; omega)
        refine ⟨v, rest, (nodes[u.nodeIndex], sha256sum vec[u.i]) :: pairs, hv, ?_, ?_, ?_⟩
        · rw [hhashs, List.append_assoc, List.singleton_append]
        · rw [List.map_cons, List.map_cons, hshards]
        · exact hnodes.cons_cons _
      · -- the last node takes the last shard
        have hzero : left = 0 := by omega
        rw [hzero, List.take_zero, List.count_nil] at hcount
        have hlast : u.i + 1 = vec.length := by omega
        obtain ⟨v, rest, hv, hhashs⟩ :
            ∃ v rest, uploadShards sha256sum storage nodes vec (true :: outcomes) u = some (v, rest) ∧
              v.nodesHashs = u.nodesHashs ++ [(nodes[u.nodeIndex], sha256sum vec[u.i])] :=
          uploadShards_last hshard hat outcomes hlast
        refine ⟨v, rest, _, hv, hhashs, ?_, ?_⟩
        · rw [List.drop_eq_nil_of_le hlast.ge]
          rfl
        · exact (List.nil_sublist _).cons_cons _

end

section

variable {sha256sum : Str → Str} {storage : StorageType} {code : ErasureCode}
  {fetch : Str → Str → Except Fault Str} {block : Str}

variable (sha256sum fetch) in
/-- The shard of a pair, when it arrives. -/
def arrived (pair : Str × Str) : Option Str :=
  (getFromDatanode sha256sum fetch pair.1 pair.2).toOption

theorem downloadShards_missing {pair : Str × Str} (pairs : List (Str × Str)) (succ : Nat)
    (datas : List Str) (h : arrived sha256sum fetch pair = none) :
    downloadShards sha256sum storage code fetch (pair :: pairs) succ datas =
      downloadShards sha256sum storage code fetch pairs succ datas := by
  obtain ⟨node, blkid⟩ := pair
  rw [downloadShards]
  cases hget : getFromDatanode sha256sum fetch node blkid with
  | error fault => rfl
  | ok data =>
    rw [arrived, hget] at h
    cases h

theorem getFromDatanode_of_arrived {pair : Str × Str} {data : Str}
    (h : arrived sha256sum fetch pair = some data) :
    getFromDatanode sha256sum fetch pair.1 pair.2 = .ok data := by
  rw [arrived] at h
  cases hget : getFromDatanode sha256sum fetch pair.1 pair.2 with
  | error fault =>
    rw [hget] at h
    cases h
  | ok found =>
    rw [hget] at h
    exact congrArg Except.ok (Option.some.inj h)

/-- Once `datas` is full, nothing more may arrive. -/
theorem downloadShards_full {pairs : List (Str × Str)} {datas : List Str} :
    downloadShards sha256sum storage code fetch pairs datas.length datas =
      if pairs.filterMap (arrived sha256sum fetch) = [] then some [] else none := by
  induction pairs with
  | nil => rfl
  | cons pair pairs ih =>
    cases harrived : arrived sha256sum fetch pair with
    | none =>
      rw [downloadShards_missing _ _ _ harrived, List.filterMap_cons_none harrived]
      exact ih
    | some data =>
      rw [downloadShards, getFromDatanode_of_arrived harrived, List.filterMap_cons_some harrived,
        if_neg (List.cons_ne_nil _ _)]
      exact if_pos le_rfl

/-- The loop decides by the shards that arrive: with too few of them the block is empty, and where
the first ones are not decoded, one more is written behind the end of `datas`. -/
theorem downloadShards_run {pairs : List (Str × Str)} (datas : List Str) {k : Nat}
    (hk : storage.getDecodeBlocks = k) (hdatas : datas.length < k) :
    downloadShards sha256sum storage code fetch pairs datas.length
        (datas ++ List.replicate (k - datas.length) []) =
      if (datas ++ pairs.filterMap (arrived sha256sum fetch)).length < k then some []
      else
        match storage.decode code
            ((datas ++ pairs.filterMap (arrived sha256sum fetch)).take k) with
        | .ok block => some block
        | .error .assertion => none
        | .error _ =>
          if (datas ++ pairs.filterMap (arrived sha256sum fetch)).length = k then some []
          else none := by
  induction pairs generalizing datas with
  | nil =>
    rw [List.filterMap_nil, List.append_nil, if_pos hdatas]
    rfl
  | cons pair pairs ih =>
    cases harrived : arrived sha256sum fetch pair with
    | none =>
      rw [downloadShards_missing _ _ _ harrived, List.filterMap_cons_none harrived]
      exact ih datas hdatas
    | some data =>
      have hset : (datas ++ List.replicate (k - datas.length) []).set datas.length data =
          (datas ++ [data]) ++ List.replicate (k - (datas.length + 1)) [] := by
        obtain ⟨left, hleft⟩ : ∃ left, k - datas.length = left + 1 :=
          ⟨k - datas.length - 1, by omega⟩
        have hnext : k - (datas.length + 1) = left := by omega
        rw [hleft, hnext, List.replicate_succ, List.set_append_right _ _ le_rfl]
        simp
      have hlength : ¬ (datas ++ List.replicate (k - datas.length) []).length ≤ datas.length := by
        rw [List.length_append, List.length_replicate]
        omega
      have hnow : (datas ++ [data]).length = datas.length + 1 := by simp
      rw [downloadShards, getFromDatanode_of_arrived harrived, List.filterMap_cons_some harrived,
        ← List.singleton_append, ← List.append_assoc]
      simp only [hlength, if_false, hset, hk]
      by_cases hfull : datas.length + 1 = k
      · have hfits : (datas ++ [data]).length = k := hnow.trans hfull
        have htotal : (datas ++ [data] ++ pairs.filterMap (arrived sha256sum fetch)).length =
            k + (pairs.filterMap (arrived sha256sum fetch)).length := by
          rw [List.length_append, hfits]
        rw [if_pos hfull, if_neg (by omega), List.take_append_of_le_length hfits.ge,
          List.take_of_length_le hfits.le, hfull, Nat.sub_self, List.replicate_zero,
          List.append_nil, htotal]
        -- after a failure of the decoder the loop goes on with a full `datas`
        have hrest : downloadShards sha256sum storage code fetch pairs (datas ++ [data]).length
            (datas ++ [data]) =
              if pairs.filterMap (arrived sha256sum fetch) = [] then some [] else none :=
          downloadShards_full
        rw [hfits] at hrest
        cases hdecode : storage.decode code (datas ++ [data]) with
        | ok block => rfl
        | error fault =>
          have hempty : k + (pairs.filterMap (arrived sha256sum fetch)).length = k ↔
              pairs.filterMap (arrived sha256sum fetch) = [] := by
            rw [Nat.add_eq_left, List.length_eq_zero_iff]
          simp only [hempty]
          cases fault <;> first | rfl | exact hrest
      · rw [if_neg hfull]
        have hstep := ih (datas ++ [data]) (by omega)
        rwa [hnow] at hstep

theorem downloadShards_eq {pairs : List (Str × Str)} (datas : List Str) {k : Nat}
    (hk : storage.getDecodeBlocks = k) (hdatas : datas.length < k)
    (henough : k ≤ (datas ++ pairs.filterMap (arrived sha256sum fetch)).length)
    (hdecode : storage.decode code
      ((datas ++ pairs.filterMap (arrived sha256sum fetch)).take k) = .ok block) :
    downloadShards sha256sum storage code fetch pairs datas.length
      (datas ++ List.replicate (k - datas.length) []) = some block := by
  rw [downloadShards_run datas hk hdatas, if_neg (Nat.not_lt.mpr henough), hdecode]

variable (sha256sum fetch) in
/-- What the datanode of a pair delivers of the shard it was given; a node in `bad` has lost or
changed it. -/
def Delivers (bad : Finset Str) (shard : Str) (pair : Str × Str) : Prop :=
  if pair.1 ∈ bad then ∀ data, fetch pair.1 pair.2 = .ok data → sha256sum data ≠ pair.2
  else fetch pair.1 pair.2 = .ok shard

theorem Delivers.arrived_eq {bad : Finset Str} {shard : Str} {pair : Str × Str}
    (h : Delivers sha256sum fetch bad shard pair) (hhash : pair.2 = sha256sum shard) :
    arrived sha256sum fetch pair = if pair.1 ∈ bad then none else some shard := by
  rw [Delivers] at h
  rw [arrived, getFromDatanode]
  split_ifs at h ⊢ with hbad
  · cases hfetch : fetch pair.1 pair.2 with
    | error fault => rfl
    | ok data =>
      rw [ok_bind, if_pos (h data hfetch)]
      rfl
  · rw [h, ok_bind, if_neg (not_not.mpr hhash.symm)]
    rfl

/-- The shards of the other nodes arrive, in their order. -/
theorem filterMap_arrived {bad : Finset Str} {shards : List Str} {pairs : List (Str × Str)}
    (hdeliver : List.Forall₂ (Delivers sha256sum fetch bad) shards pairs)
    (hhash : pairs.map (·.2) = shards.map sha256sum) :
    (pairs.filterMap (arrived sha256sum fetch)).Sublist shards ∧
      (pairs.filterMap (arrived sha256sum fetch)).length =
        ((pairs.map (·.1)).filter (· ∉ bad)).length := by
  induction hdeliver with
  | nil => exact ⟨List.Sublist.refl _, rfl⟩
  | @cons shard pair shards pairs hpair _ ih =>
    rw [List.map_cons, List.map_cons, List.cons.injEq] at hhash
    obtain ⟨hsub, hlength⟩ := ih hhash.2
    have harrived := hpair.arrived_eq hhash.1
    by_cases hbad : pair.1 ∈ bad
    · rw [if_pos hbad] at harrived
      rw [List.filterMap_cons_none harrived, List.map_cons,
        List.filter_cons_of_neg (by simpa using hbad)]
      exact ⟨hsub.cons _, hlength⟩
    · rw [if_neg hbad] at harrived
      rw [List.filterMap_cons_some harrived, List.map_cons,
        List.filter_cons_of_pos (by simpa using hbad)]
      exact ⟨hsub.cons_cons _, by rw [List.length_cons, List.length_cons, hlength]⟩

theorem length_le_filter_notMem {names : List Str} (hnodup : names.Nodup) (bad : Finset Str) :
    names.length ≤ (names.filter (· ∉ bad)).length + bad.card := by
  have hsplit := List.length_eq_length_filter_add (l := names) (· ∈ bad)
  have hbad : (names.filter (· ∈ bad)).length ≤ bad.card := by
    rw [← List.toFinset_card_of_nodup (hnodup.filter _)]
    refine Finset.card_le_card fun name hname ↦ ?_
    rw [List.mem_toFinset, List.mem_filter] at hname
    simpa using hname.2
  have hgood : (names.filter fun name ↦ !decide (name ∈ bad)) = names.filter (· ∉ bad) := by
    refine List.filter_congr fun name _ ↦ ?_
    simp
  rw [hgood] at hsplit
  omega

end

/-- Of the `k + m` shards of the block any `k`, in their order, decode to it. -/
structure ErasureCode.Recovers (code : ErasureCode) (k m : Nat) (block : Str)
    (shards : List Str) : Prop where
  encode : code.encode k m block = .ok shards
  length : shards.length = k + m
  decode : ∀ vec, vec.Sublist shards → vec.length = k → code.decode k m vec = .ok block

/-- The storage type keeps at least one shard, and where it uses the code the code recovers the
block. -/
def StorageType.Recoverable (code : ErasureCode) (block : Str) : StorageType → Prop
  | .rs k m _ | .agg k m _ => 1 ≤ k ∧ ∃ shards, code.Recovers k m block shards
  | .re replications _ => 1 ≤ replications

theorem StorageType.Recoverable.shards {code : ErasureCode} {block : Str} {storage : StorageType}
    (h : storage.Recoverable code block) :
    1 ≤ storage.getDecodeBlocks ∧ storage.getDecodeBlocks ≤ storage.getBlocks ∧
      ∃ shards, storage.encode code block = .ok shards ∧ shards.length = storage.getBlocks ∧
        ∀ vec, vec.Sublist shards → vec.length = storage.getDecodeBlocks →
          storage.decode code vec = .ok block := by
  cases storage with
  | rs k m b =>
    obtain ⟨hk, shards, hshards⟩ := h
    refine ⟨hk, Nat.le_add_right k m, shards, hshards.encode, hshards.length, ?_⟩
    intro vec hsub hlength
    have hvec : vec.length = k := hlength
    rw [StorageType.decode, if_neg (by omega), List.take_of_length_le hvec.le]
    exact hshards.decode vec hsub hvec
  | agg k m b =>
    obtain ⟨hk, shards, hshards⟩ := h
    refine ⟨hk, Nat.le_add_right k m, shards, hshards.encode, hshards.length, ?_⟩
    intro vec hsub hlength
    have hvec : vec.length = k := hlength
    have hne : vec ≠ [] := List.ne_nil_of_length_pos (by omega)
    rw [StorageType.decode, if_neg hne, List.take_of_length_le hvec.le]
    exact hshards.decode vec hsub hvec
  | re replications b =>
    refine ⟨le_rfl, h, List.replicate replications block, rfl, List.length_replicate, ?_⟩
    intro vec hsub hlength
    obtain ⟨shard, rfl⟩ := List.length_eq_one_iff.mp hlength
    have hshard : shard = block := List.eq_of_mem_replicate (hsub.subset (List.mem_singleton_self _))
    rw [hshard]
    rfl

/-- `cal_sha256sum` prints in hexadecimal digits. -/
def Hexadecimal (sha256sum : Str → Str) : Prop :=
  ∀ data, sha256sum data ≠ [] ∧ ∀ c ∈ sha256sum data, c.isAlphanum

section

variable {sha256sum : Str → Str} {storage : StorageType} {code : ErasureCode} {block : Str}
  {nodes : List Str}

theorem Hexadecimal.recordable (h : Hexadecimal sha256sum)
    (hnodes : ∀ name ∈ nodes, ∃ node : Node, node.Plain ∧ name = node.toString)
    {shards : List Str} {pairs : List (Str × Str)} (hshards : pairs.map (·.2) = shards.map sha256sum)
    (hpairs : ∀ pair ∈ pairs, pair.1 ∈ nodes) : ∀ pair ∈ pairs, Recordable pair := by
  intro pair hp
  obtain ⟨shard, -, hshard⟩ : ∃ shard ∈ shards, sha256sum shard = pair.2 := by
    rw [← List.mem_map, ← hshards]
    exact List.mem_map_of_mem hp
  obtain ⟨hne, hall⟩ := h shard
  refine ⟨hnodes pair.1 (hpairs pair hp), ?_⟩
  rw [← hshard]
  refine ⟨hne, ?_, ?_⟩
  · intro hm
    exact absurd (hall _ hm) (by decide)
  · intro hm
    exact absurd (hall _ hm) (by decide)

/-- What `decode_one_block` returns when enough of the recorded shards arrive. -/
theorem decodeOneBlock_eq {fetch : Str → Str → Except Fault Str} {sub : Str} {bad : Finset Str}
    {shards : List Str} (hk : 1 ≤ storage.getDecodeBlocks)
    (hdecode : ∀ vec, vec.Sublist shards → vec.length = storage.getDecodeBlocks →
      storage.decode code vec = .ok block)
    (hhash : (decodeOneSub sub).map (·.2) = shards.map sha256sum)
    (hnodup : ((decodeOneSub sub).map (·.1)).Nodup)
    (hbad : bad.card + storage.getDecodeBlocks ≤ shards.length)
    (hdeliver : List.Forall₂ (Delivers sha256sum fetch bad) shards (decodeOneSub sub)) :
    decodeOneBlock sha256sum storage code fetch sub = some block := by
  obtain ⟨hsub, hlength⟩ := filterMap_arrived hdeliver hhash
  have hcount := length_le_filter_notMem hnodup bad
  have hpairs : shards.length = (decodeOneSub sub).length := hdeliver.length_eq
  rw [List.length_map] at hcount
  have henough : storage.getDecodeBlocks ≤
      ((decodeOneSub sub).filterMap (arrived sha256sum fetch)).length := by omega
  refine downloadShards_eq (k := storage.getDecodeBlocks) [] rfl hk henough ?_
  refine hdecode _ ((List.take_sublist _ _).trans hsub) ?_
  rw [List.nil_append, List.length_take]
  omega

/-- The shards of a block go one by one to different nodes, and the block comes back without up
to `getBlocks() - getDecodeBlocks()` of them. -/
theorem block_survives_failures (hsha : Hexadecimal sha256sum) (hnodup : nodes.Nodup)
    (hnodes : ∀ name ∈ nodes, ∃ node : Node, node.Plain ∧ name = node.toString)
    (hcode : storage.Recoverable code block) (outcomes : List Bool)
    (hstored : storage.getBlocks ≤ (outcomes.take nodes.length).count true) :
    ∃ shards sub, storage.encode code block = .ok shards ∧ shards.length = storage.getBlocks ∧
      encodeOneBlock sha256sum storage nodes code outcomes block = some (.ok sub) ∧
      (decodeOneSub sub).map (·.2) = shards.map sha256sum ∧
      ((decodeOneSub sub).map (·.1)).Nodup ∧ (∀ pair ∈ decodeOneSub sub, pair.1 ∈ nodes) ∧
      ∀ (fetch : Str → Str → Except Fault Str) (bad : Finset Str),
        bad.card ≤ storage.getBlocks - storage.getDecodeBlocks →
        List.Forall₂ (Delivers sha256sum fetch bad) shards (decodeOneSub sub) →
          decodeOneBlock sha256sum storage code fetch sub = some block := by
  obtain ⟨hk, hle, shards, hencode, hlength, hdecode⟩ := hcode.shards
  have hcount : shards.length - 0 ≤ (outcomes.take (nodes.length - 0)).count true := by
    rw [hlength]
    exact hstored
  obtain ⟨u, rest, pairs, hu, hhashs, hshards, hsub⟩ :
      ∃ v rest pairs, uploadShards sha256sum storage nodes shards outcomes {} = some (v, rest) ∧
        v.nodesHashs = [] ++ pairs ∧ pairs.map (·.2) = (shards.drop 0).map sha256sum ∧
          (pairs.map (·.1)).Sublist (nodes.drop 0) := uploadShards_eq (u := {}) hcount
  rw [List.nil_append] at hhashs
  rw [List.drop_zero] at hshards hsub
  have hne : pairs ≠ [] := by
    rintro rfl
    have hzero : ([] : List Str) = shards.map sha256sum := hshards
    rw [List.map_eq_nil_iff.mp hzero.symm, List.length_nil] at hlength
    omega
  have hpairs : ∀ pair ∈ pairs, pair.1 ∈ nodes := fun pair hp ↦
    hsub.subset (List.mem_map_of_mem hp)
  have hrecord := hsha.recordable hnodes hshards hpairs
  have hread := decodeOneSub_intercalate hne hrecord
  refine ⟨shards, [','].intercalate (pairs.map oneSub), hencode, hlength, ?_, ?_, ?_, ?_, ?_⟩
  · rw [encodeOneBlock, hencode]
    simp only [hu, Option.bind_some, hhashs, encodeOneSub_eq hne hrecord]
  · rw [hread, hshards]
  · rw [hread]
    exact hnodup.sublist hsub
  · rwa [hread]
  · intro fetch bad hbad hdeliver
    refine decodeOneBlock_eq hk hdecode ?_ ?_ (by omega) hdeliver
    · rw [hread, hshards]
    · rw [hread]
      exact hnodup.sublist hsub

end

/-- `cal_sha256sum` at a block and at nothing. -/
def mirrorSum (data : Str) : Str :=
  if data = "ab".toList then "FB8E20FC2E4C3F248C60C39BD652F3C1347298BB977B8B4D5903B85055620603".toList
  else "E3B0C44298FC1C149AFBF4C8996FB92427AE41E4649B934CA495991B7852B855".toList

theorem mirrorSum_hexadecimal : Hexadecimal mirrorSum := by
  intro data
  rw [mirrorSum]
  split_ifs
  · rw [String.toList_ofList]
    exact ⟨List.cons_ne_nil _ _, List.all_eq_true.mp rfl⟩
  · rw [String.toList_ofList]
    exact ⟨List.cons_ne_nil _ _, List.all_eq_true.mp rfl⟩

def mirrorNodes : List Str :=
  ["10.0.0.1:8001".toList, "10.0.0.2:8001".toList, "10.0.0.3:8001".toList]

/-- The second node has lost its replica. -/
def mirrorFetch (node _blkid : Str) : Except Fault Str :=
  if node = "10.0.0.2:8001".toList then return [] else return "ab".toList

theorem mirrorNodes_plain :
    ∀ name ∈ mirrorNodes, ∃ node : Node, node.Plain ∧ name = node.toString := by
  intro name hname
  simp only [mirrorNodes, List.mem_cons, List.not_mem_nil, or_false] at hname
  rcases hname with rfl | rfl | rfl
  · refine ⟨⟨"10.0.0.1".toList, 8001⟩, ?_⟩
    rw [String.toList_ofList, String.toList_ofList]
    exact ⟨⟨by decide, by decide, by decide, by decide⟩, by decide⟩
  · refine ⟨⟨"10.0.0.2".toList, 8001⟩, ?_⟩
    rw [String.toList_ofList, String.toList_ofList]
    exact ⟨⟨by decide, by decide, by decide, by decide⟩, by decide⟩
  · refine ⟨⟨"10.0.0.3".toList, 8001⟩, ?_⟩
    rw [String.toList_ofList, String.toList_ofList]
    exact ⟨⟨by decide, by decide, by decide, by decide⟩, by decide⟩

/-- No codec is used for replicas. -/
def mirrorCode : ErasureCode where
  encode _ _ _ := throw (.runtime "liberasurecode_instance_create error".toList)
  decode _ _ _ := throw (.runtime "decode error".toList)

theorem mirrorFetch_delivers {pair : Str × Str} (h : pair.2 = mirrorSum "ab".toList) :
    Delivers mirrorSum mirrorFetch {"10.0.0.2:8001".toList} "ab".toList pair := by
  rw [Delivers]
  split_ifs with hbad
  · intro data hdata
    rw [mirrorFetch, if_pos (Finset.mem_singleton.mp hbad)] at hdata
    have hfound : mirrorSum "ab".toList =
        "FB8E20FC2E4C3F248C60C39BD652F3C1347298BB977B8B4D5903B85055620603".toList := if_pos rfl
    have hempty : mirrorSum [] =
        "E3B0C44298FC1C149AFBF4C8996FB92427AE41E4649B934CA495991B7852B855".toList :=
      if_neg (by decide)
    rw [← Except.ok.inj hdata, h, hempty, hfound, String.toList_ofList, String.toList_ofList]
    decide
  · rw [mirrorFetch, if_neg (mt Finset.mem_singleton.mpr hbad)]
    rfl

/-- Two replicas; the first node refuses one and the second loses the other. -/
theorem block_survives_failures_mirrored :
    ∃ sub, encodeOneBlock mirrorSum (.re 2 4) mirrorNodes mirrorCode [false, true, true]
        "ab".toList = some (.ok sub) ∧
      decodeOneBlock mirrorSum (.re 2 4) mirrorCode mirrorFetch sub = some "ab".toList := by
  have hcode : (StorageType.re 2 4).Recoverable mirrorCode "ab".toList := Nat.le_succ 1
  obtain ⟨shards, sub, hencode, -, hsub, hhash, -, -, hdecode⟩ :=
    block_survives_failures mirrorSum_hexadecimal (by decide) mirrorNodes_plain hcode
      [false, true, true] (by decide)
  refine ⟨sub, hsub, hdecode mirrorFetch {"10.0.0.2:8001".toList} (by decide) ?_⟩
  have hshards : shards = ["ab".toList, "ab".toList] := (Except.ok.inj hencode).symm
  rw [hshards] at hhash ⊢
  cases hpairs : decodeOneSub sub with
  | nil =>
    rw [hpairs] at hhash
    simp at hhash
  | cons first rest =>
    cases rest with
    | nil =>
      rw [hpairs] at hhash
      simp at hhash
    | cons second rest =>
      rw [hpairs] at hhash
      simp only [List.map_cons, List.map_nil, List.cons.injEq, List.map_eq_nil_iff] at hhash
      obtain ⟨hfirst, hsecond, rfl⟩ := hhash
      exact .cons (mirrorFetch_delivers hfirst) (.cons (mirrorFetch_delivers hsecond) .nil)

end Spkdfs
