import Spkdfs.Library.Blocks
import Spkdfs.Node.Spared
import Spkdfs.Client.FaultTolerance
import Spkdfs.Client.Methods
import Spkdfs.Client.Transfer

namespace Spkdfs

open Library

section

variable {content : Str} {blockSize : Nat}

theorem memcpy_length {dst src : Str} {n : Nat} (hn : n ≤ src.length) (hd : n ≤ dst.length) :
    (memcpy dst src n).length = dst.length := by
  rw [memcpy, List.length_append, List.length_take, List.length_drop]
  omega

/-- After `count` turns the buffer has kept its size and the blocks are the start of the content. -/
theorem copyBlocks_spec {count : Nat} (h : count * blockSize ≤ content.length) :
    (copyBlocks content blockSize count).1.length = blockSize ∧
      Uniform blockSize (copyBlocks content blockSize count).2 ∧
      (copyBlocks content blockSize count).2.flatten = content.take (count * blockSize) := by
  induction count with
  | zero => exact ⟨List.length_replicate, Uniform.nil, by simp [copyBlocks]⟩
  | succ count ih =>
    rw [Nat.succ_mul] at h
    obtain ⟨htmp, hblocks, hflatten⟩ := ih (by omega)
    have hnext : copyBlocks content blockSize (count + 1) =
        copyBlock content blockSize (copyBlocks content blockSize count) count := by
      rw [copyBlocks, List.range_succ, List.foldl_append, ← copyBlocks]
      rfl
    have hsrc : blockSize ≤ (content.drop (count * blockSize)).length := by
      rw [List.length_drop]
      omega
    have hwhole : memcpy (copyBlocks content blockSize count).1 (content.drop (count * blockSize))
        blockSize = (content.drop (count * blockSize)).take blockSize := by
      rw [memcpy, List.drop_eq_nil_of_le htmp.le, List.append_nil]
    have hlength : ((content.drop (count * blockSize)).take blockSize).length = blockSize := by
      rw [List.length_take, Nat.min_eq_left hsrc]
    rw [hnext, copyBlock, hwhole]
    refine ⟨hlength, hblocks.concat hlength, ?_⟩
    rw [List.flatten_append, List.flatten_singleton, hflatten, Nat.succ_mul, List.take_add]

/-- All blocks are whole, and the content is what they begin with. -/
theorem splitAllBlock_spec (content : Str) (h : 0 < blockSize) :
    Uniform blockSize (splitAllBlock content blockSize) ∧
      content <+: (splitAllBlock content blockSize).flatten := by
  have hdiv := Nat.div_add_mod content.length blockSize
  rw [Nat.mul_comm] at hdiv
  have hmod := Nat.mod_lt content.length h
  obtain ⟨htmp, hblocks, hflatten⟩ :=
    copyBlocks_spec (Nat.le.intro hdiv)
  simp only [splitAllBlock]
  split_ifs with hrest
  · have hsrc : content.length % blockSize ≤
        (content.drop (content.length / blockSize * blockSize)).length := by
      rw [List.length_drop]
      omega
    refine ⟨hblocks.concat ?_, ?_⟩
    · rw [memcpy_length hsrc (by omega), htmp]
    · have hend : (content.drop (content.length / blockSize * blockSize)).take
          (content.length % blockSize) = content.drop (content.length / blockSize * blockSize) := by
        refine List.take_of_length_le ?_
        rw [List.length_drop]
        omega
      rw [List.flatten_append, List.flatten_singleton, hflatten, memcpy, hend, ← List.append_assoc,
        List.take_append_drop]
      exact List.prefix_append _ _
  · refine ⟨hblocks, ?_⟩
    rw [hflatten, List.take_of_length_le (by omega)]

/-- There are no more blocks than the content needs. -/
theorem splitAllBlock_count (content : Str) (h : 0 < blockSize) :
    (splitAllBlock content blockSize).length * blockSize < content.length + blockSize := by
  have hdiv := Nat.div_add_mod content.length blockSize
  rw [Nat.mul_comm] at hdiv
  obtain ⟨-, hblocks, hflatten⟩ := copyBlocks_spec (Nat.le.intro hdiv)
  have hlength := hblocks.length_flatten
  rw [hflatten, List.length_take, Nat.min_eq_left (by omega)] at hlength
  simp only [splitAllBlock]
  split_ifs with hrest
  · rw [List.length_append, List.length_singleton, Nat.succ_mul]
    omega
  · omega

end

section

variable {sha256sum : Str → Str} {storage : StorageType} {nodes vec : List Str} {u v : Upload}

theorem Upload.turn_accepted (storage : StorageType) (hfail : u.failCount = 0) (hne : nodes ≠ []) :
    (u.turn storage nodes).1 = false ∧ (u.turn storage nodes).2.failCount = 0 := by
  have hcount : u.failCount ≠ nodes.length := by
    rw [hfail]
    exact (List.length_pos_of_ne_nil hne).ne
  simp only [Upload.turn, hcount, if_false]
  split_ifs
  · exact ⟨rfl, rfl⟩
  · exact ⟨rfl, hfail⟩

/-- When every node takes what it is given, each shard is recorded, in order. -/
theorem uploadShards_accepted {outcomes rest : List Bool} (hall : ∀ stored ∈ outcomes, stored = true)
    (hfail : u.failCount = 0)
    (h : uploadShards sha256sum storage nodes vec outcomes u = some (v, rest)) :
    v.failCount = 0 ∧ (∀ stored ∈ rest, stored = true) ∧ ∃ pairs : List (Str × Str),
      v.nodesHashs = u.nodesHashs ++ pairs ∧ pairs.map (·.2) = (vec.drop u.i).map sha256sum ∧
        ∀ pair ∈ pairs, pair.1 ∈ nodes := by
  induction outcomes generalizing u with
  | nil =>
    rw [uploadShards] at h
    split_ifs at h with hi
    obtain ⟨rfl, rfl⟩ := Prod.mk.inj (Option.some.inj h)
    refine ⟨hfail, by simp, [], by simp, ?_, by simp⟩
    rw [List.drop_eq_nil_of_le (by omega)]
    rfl
  | cons stored outcomes ih =>
    obtain rfl := hall stored List.mem_cons_self
    have hrest : ∀ stored ∈ outcomes, stored = true := fun b hb ↦ hall b (List.mem_cons_of_mem _ hb)
    by_cases hdone : vec.length ≤ u.i
    · rw [uploadShards_done _ hdone] at h
      obtain ⟨rfl, rfl⟩ := Prod.mk.inj (Option.some.inj h)
      refine ⟨hfail, hall, [], by simp, ?_, by simp⟩
      rw [List.drop_eq_nil_of_le hdone]
      rfl
    have hlt : u.i < vec.length := by omega
    rw [uploadShards, List.getElem?_eq_getElem hlt] at h
    cases hnode : nodes[u.nodeIndex]? with
    | none =>
      rw [hnode] at h
      cases h
    | some node =>
      have hmem := List.mem_of_getElem? hnode
      have hturn := Upload.turn_accepted storage
        (u := { u with i := u.i + 1, succ := u.succ + 1,
                       nodesHashs := u.nodesHashs ++ [(node, sha256sum vec[u.i])] })
        hfail (List.ne_nil_of_mem hmem)
      have hkept := Upload.turn_eq storage nodes
        { u with i := u.i + 1, succ := u.succ + 1,
                 nodesHashs := u.nodesHashs ++ [(node, sha256sum vec[u.i])] }
      simp only [hnode, Upload.attempt, if_true] at h
      rw [if_neg (by simp [hturn.1])] at h
      obtain ⟨hv, hleft, pairs, hhashs, hshards, hnodes⟩ := ih hrest hturn.2 h
      rw [hkept.1] at hshards
      rw [hkept.2] at hhashs
      refine ⟨hv, hleft, (node, sha256sum vec[u.i]) :: pairs, ?_, ?_, ?_⟩
      · rw [hhashs, List.append_assoc, List.singleton_append]
      · rw [List.drop_eq_getElem_cons hlt, List.map_cons, List.map_cons, hshards]
      · intro pair hp
        rcases List.mem_cons.mp hp with rfl | hp
        · exact hmem
        · exact hnodes pair hp

end

/-- The names of the datanodes and the hashes are such as they are printed. -/
structure Shards.Printed (d : Shards) : Prop where
  hash : Hexadecimal d.sha256sum
  nodes : ∀ name ∈ d.nodes, ∃ node : Node, node.Plain ∧ name = node.toString

/-- The sub names the hashes of the shards, in order, and datanodes for them. -/
def Shards.Records (d : Shards) (shards : List Str) (sub : Str) : Prop :=
  (decodeOneSub sub).map (·.2) = shards.map d.sha256sum ∧
    ∀ pair ∈ decodeOneSub sub, pair.1 ∈ d.nodes

/-- From the first shards that it needs, the code decodes the block it has encoded. -/
def StorageType.Faithful (code : ErasureCode) (storage : StorageType) : Prop :=
  ∀ block shards, storage.encode code block = .ok shards →
    1 ≤ storage.getDecodeBlocks ∧ storage.getDecodeBlocks ≤ shards.length ∧
      storage.decode code (shards.take storage.getDecodeBlocks) = .ok block

section

variable {d : Shards} {storage : StorageType} {u : Upload} {shards : List Str} {sub block : Str}

theorem Shards.records_of_encodeOneSub (hd : d.Printed) {pairs : List (Str × Str)}
    (hshards : pairs.map (·.2) = shards.map d.sha256sum) (hpairs : ∀ pair ∈ pairs, pair.1 ∈ d.nodes)
    (h : encodeOneSub pairs = some (.ok sub)) : d.Records shards sub := by
  have hrecord := hd.hash.recordable hd.nodes hshards hpairs
  have hne : pairs ≠ [] := by
    intro hnil
    rw [encodeOneSub, if_pos hnil] at h
    cases h
  rw [encodeOneSub_eq hne hrecord] at h
  obtain rfl := Except.ok.inj (Option.some.inj h)
  rw [Shards.Records, decodeOneSub_intercalate hne hrecord]
  exact ⟨hshards, hpairs⟩

/-- `datanode_put` returns one sub for each block. -/
theorem Shards.datanodePut_ok (hd : d.Printed) {encoded : List (List Str)} {subs : List Str}
    {outcomes : List Bool} (hall : ∀ stored ∈ outcomes, stored = true) (hfail : u.failCount = 0)
    (h : d.datanodePut storage encoded outcomes u = some (.ok subs)) :
    List.Forall₂ d.Records encoded subs := by
  induction encoded generalizing outcomes u subs with
  | nil =>
    obtain rfl := Except.ok.inj (Option.some.inj h)
    exact .nil
  | cons vec encoded ih =>
    rw [Shards.datanodePut, Option.bind_eq_some_iff] at h
    obtain ⟨⟨v, rest⟩, hupload, h⟩ := h
    have hnext : ({ u with i := 0, nodesHashs := [] } : Upload).failCount = 0 := hfail
    obtain ⟨hv, hrest, pairs, hhashs, hshards, hnodes⟩ := uploadShards_accepted hall hnext hupload
    rw [List.nil_append] at hhashs
    rw [List.drop_zero] at hshards
    simp only [Option.bind_eq_some_iff, hhashs] at h
    obtain ⟨one, hone, h⟩ := h
    cases one with
    | error fault => cases h
    | ok oneSub =>
      obtain ⟨others, hothers, h⟩ := Option.map_eq_some_iff.mp h
      cases others with
      | error fault => cases h
      | ok others =>
        obtain rfl := Except.ok.inj h
        exact .cons (records_of_encodeOneSub hd hshards hnodes hone) (ih hrest hv hothers)

theorem filterMap_arrived_of_fetch {sha256sum : Str → Str} {fetch : Str → Str → Except Fault Str}
    {pairs : List (Str × Str)} (hshards : pairs.map (·.2) = shards.map sha256sum)
    (hfetch : ∀ shard ∈ shards, ∀ pair ∈ pairs, fetch pair.1 (sha256sum shard) = .ok shard) :
    pairs.filterMap (arrived sha256sum fetch) = shards := by
  induction shards generalizing pairs with
  | nil =>
    rw [List.map_nil, List.map_eq_nil_iff] at hshards
    rw [hshards]
    rfl
  | cons shard shards ih =>
    obtain ⟨pair, rest, rfl, hpair, hrest⟩ := List.map_eq_cons_iff.mp hshards
    have hone : arrived sha256sum fetch pair = some shard := by
      rw [arrived, hpair, getFromDatanode, hfetch shard List.mem_cons_self pair List.mem_cons_self,
        ok_bind, if_neg (not_not.mpr rfl)]
      rfl
    rw [List.filterMap_cons_some hone, ih hrest]
    intro s hs p hp
    exact hfetch s (List.mem_cons_of_mem _ hs) p (List.mem_cons_of_mem _ hp)

/-- A block whose shards all come back is decoded, whatever the sub names behind them. -/
theorem Shards.decode_recorded_append (hcode : storage.Faithful d.code)
    (hencode : storage.encode d.code block = .ok shards) {pairs more : List (Str × Str)}
    (hsub : decodeOneSub sub = pairs ++ more) (hshards : pairs.map (·.2) = shards.map d.sha256sum)
    (hpairs : ∀ pair ∈ pairs, pair.1 ∈ d.nodes)
    (hfetch : ∀ shard ∈ shards, ∀ node ∈ d.nodes, d.fetch node (d.sha256sum shard) = .ok shard) :
    d.decode (some storage) sub = .ok block := by
  obtain ⟨hk, hle, hdecode⟩ := hcode block shards hencode
  have hall : pairs.filterMap (arrived d.sha256sum d.fetch) = shards :=
    filterMap_arrived_of_fetch hshards fun shard hs pair hp ↦
      hfetch shard hs pair.1 (hpairs pair hp)
  have hblock : decodeOneBlock d.sha256sum storage d.code d.fetch sub = some block := by
    refine downloadShards_eq (k := storage.getDecodeBlocks) [] rfl hk ?_ ?_
    · rw [hsub, List.filterMap_append, hall, List.nil_append, List.length_append]
      omega
    · rw [hsub, List.filterMap_append, hall, List.nil_append, List.take_append_of_le_length hle]
      exact hdecode
  rw [Shards.decode, Option.bind_some, hblock]
  rfl

theorem Shards.decode_recorded (hcode : storage.Faithful d.code)
    (hencode : storage.encode d.code block = .ok shards) (hrecord : d.Records shards sub)
    (hfetch : ∀ shard ∈ shards, ∀ node ∈ d.nodes, d.fetch node (d.sha256sum shard) = .ok shard) :
    d.decode (some storage) sub = .ok block :=
  decode_recorded_append hcode hencode (List.append_nil _).symm hrecord.1 hrecord.2 hfetch

end

/-- The inode that `put` commits. -/
def storedInode (path : Str) (storage : StorageType) (filesize : Nat) (sub : List Str) : Inode :=
  { Inode.ofPath path with valid := true, storageType := some storage, filesize, sub }

namespace SDK

open Procedure

variable {content path storageType : Str} {d : Shards} {outcomes : List Bool} {waits : PutWaits}
  {v v' : View}

theorem caught_nil {α : Type} {x : Method α} (h : (caught x).run v = some (.ok [], v')) :
    ∃ a, x.run v = some (.ok a, v') := by
  simp only [caught, run_of, Option.map_eq_some_iff, Prod.exists] at h
  obtain ⟨r, u, hx, h⟩ := h
  cases r with
  | error fault => cases h
  | ok a =>
    obtain ⟨-, rfl⟩ := Prod.mk.inj h
    exact ⟨a, hx⟩

theorem lift_ok {α : Type} {r : Except Fault α} {a : α}
    (h : (lift r).run v = some (.ok a, v')) : r = .ok a ∧ v = v' :=
  Prod.mk.inj (Option.some.inj h)

/-- What a `put` leaves behind that prints nothing, while other clients spare the path. -/
structure Stored (content path : Str) (storage : StorageType) (d : Shards) (v v' : View)
    (sub : List Str) : Prop where
  named : path ≠ []
  records : List.Forall₂
    (fun block s ↦ ∃ shards, storage.encode d.code block = .ok shards ∧ d.Records shards s)
    (splitAllBlock content (toUInt64 storage.getBlockSize)) sub
  lookup : RocksDB.lookup v'.leader.store (simplifyPath path) =
    some (storedInode path storage content.length sub)
  pending : ∀ q ∈ v'.leader.pending, q.entry.Spares (simplifyPath path)
  leader : Reaches Leader.step (fun _ _ ↦ True) v.leader v'.leader
  progress : v'.progress = v.progress
  tmpPath : v'.sdk.tmpPath = v.sdk.tmpPath
  dirs : v'.sdk.dirs = v.sdk.dirs

theorem put_ok (hd : d.Printed) (hall : ∀ stored ∈ outcomes, stored = true)
    (hfresh : RocksDB.lookup v.leader.store (simplifyPath path) = none)
    (hpending : ∀ q ∈ v.leader.pending, q.entry.Spares (simplifyPath path))
    (hput : ∀ a ∈ waits.put, a.Spares (simplifyPath path))
    (hlock : ∀ a ∈ waits.lock, a.Spares (simplifyPath path))
    (hputOk : ∀ a ∈ waits.putOk, a.Spares (simplifyPath path))
    (h : (SDK.put content path storageType d outcomes waits).run v = some (.ok [], v')) :
    ∃ storage sub, StorageType.fromString storageType = .ok storage ∧ content ≠ [] ∧
      Stored content path storage d v v' sub := by
  obtain ⟨storage, u, hlift, h⟩ := bind_ok h
  obtain ⟨hstorage, rfl⟩ := lift_ok hlift
  split at h
  · cases h
  rename_i hne
  obtain ⟨refused, u₁, hnamenode, h⟩ := bind_ok h
  split at h
  · cases h
  obtain ⟨encoded, u₂, hlift, h⟩ := bind_ok h
  obtain ⟨hencoded, rfl⟩ := lift_ok hlift
  obtain ⟨entry, u₃, hrpc, h⟩ := bind_ok h
  split at h
  · cases h
  rename_i subs hsubs
  obtain ⟨sub, u₄, hlift, h⟩ := bind_ok h
  obtain ⟨rfl, rfl⟩ := lift_ok hlift
  obtain ⟨uncommitted, u₅, hputok, h⟩ := bind_ok h
  obtain ⟨hnil, rfl⟩ := Prod.mk.inj (Option.some.inj h)
  obtain ⟨rfl, rfl⟩ := List.append_eq_nil_iff.mp (Except.ok.inj hnil)
  -- the three requests, one after the other
  obtain ⟨made, hmade⟩ := caught_nil hnamenode
  obtain ⟨l₁, rfl, hfirst⟩ := rpc_ok hmade
  obtain ⟨hpath, hnew, hpending₁⟩ := Leader.rpc_put_spared hpending hput
    (StorageType.parameters_le hstorage) hfresh hfirst
  obtain ⟨l₂, rfl, hsecond⟩ := rpc_ok hrpc
  obtain ⟨hlocked, hpending₂⟩ := Leader.rpc_updateLock_spared hpending₁ hlock hnew hsecond
  obtain ⟨_, w, hmodify, hcommit⟩ := bind_ok hputok
  obtain ⟨-, rfl⟩ := Prod.mk.inj (Option.some.inj hmodify)
  obtain ⟨committed, hcommitted⟩ := caught_nil hcommit
  obtain ⟨l₃, rfl, hthird⟩ := rpc_ok hcommitted
  obtain ⟨hstored, hpending₃⟩ := Leader.rpc_putOk_spared hpending₂ hputOk hlocked hthird
  have hreach := ((Leader.reaches_of_rpc hfirst).trans (Leader.reaches_of_rpc hsecond)).trans
    (Leader.reaches_of_rpc hthird)
  refine ⟨storage, sub, hstorage, hne, hpath, ?_, hstored, hpending₃, hreach, rfl, rfl, rfl⟩
  have hencoded := mapM_eq_ok.mp hencoded
  have hrecords := Shards.datanodePut_ok hd hall rfl hsubs
  exact forall₂_comp hencoded hrecords

end SDK

end Spkdfs
