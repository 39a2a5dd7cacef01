import Spkdfs.Node.Namenode

namespace Spkdfs

open Library

/-- `liberasurecode` with `k` data and `m` parity fragments. -/
structure ErasureCode where
  encode : Nat → Nat → Str → Except Fault (List Str)
  decode : Nat → Nat → List Str → Except Fault Str

namespace StorageType

def encode (code : ErasureCode) (block : Str) : StorageType → Except Fault (List Str)
  | .rs k m _ | .agg k m _ => code.encode k m block
  | .re replications _ => return List.replicate replications block

def decode (code : ErasureCode) (vec : List Str) : StorageType → Except Fault Str
  | .rs k m _ =>
    if vec.length < k ∨ k + m < vec.length then throw .assertion
    else code.decode k m (vec.take k)
  | .re _ _ => return vec.headD []
  | .agg k m _ =>
    if vec = [] then throw (.runtime "no data".toList) else code.decode k m (vec.take k)

def check (succ : Nat) : StorageType → Bool
  | .rs k _ _ | .agg k _ _ => k < succ
  | .re _ _ => 1 ≤ succ

def getBlocks : StorageType → Nat
  | .rs k m _ | .agg k m _ => k + m
  | .re replications _ => replications

def getDecodeBlocks : StorageType → Nat
  | .rs k _ _ | .agg k _ _ => k
  | .re _ _ => 1

end StorageType

structure Node where
  ip : Str
  port : Int := 0
deriving DecidableEq

namespace Node

/-- The constructor of `Node` from one string. -/
def ofString (s : Str) : Except Fault Node := do
  let portStr := ((s.dropWhile (· ≠ ':')).drop 1).takeWhile (· ≠ '\n')
  let ip := s.takeWhile (· ≠ ':')
  if portStr = [] then return { ip }
  return { ip, port := ← stoi portStr }

def toString (node : Node) : Str :=
  node.ip ++ ':' :: if node.port < 0 then '-' :: toText node.port.natAbs else toText node.port.natAbs

end Node

/-- A string where a node is wanted becomes a `Node` on the way. -/
def nodeHash (pair : Str × Str) : Except Fault Str := do
  return (← Node.ofString pair.1).toString ++ '|' :: pair.2 ++ [',']

/-- Without any pair there is nothing that `pop_back` could take away. -/
def encodeOneSub (nodesHashs : List (Str × Str)) : Option (Except Fault Str) :=
  if nodesHashs = [] then none
  else some do return (← nodesHashs.mapM nodeHash).flatten.dropLast

def readNodeHash (str : Str) : Str × Str :=
  let parts := Namenode.getlines '|' str
  (parts.getD 0 [], parts.getD 1 [])

def decodeOneSub (sub : Str) : List (Str × Str) := (Namenode.getlines ',' sub).map readNodeHash

/-- The variables of the loop that stores the shards of a block. -/
structure Upload where
  i : Nat := 0
  nodeIndex : Nat := 0
  succ : Nat := 0
  failCount : Nat := 0
  nodesHashs : List (Str × Str) := []
deriving DecidableEq

section

variable (sha256sum : Str → Str) (storage : StorageType) (nodes : List Str)

/-- The end of one turn; the flag tells that all nodes have failed. -/
def Upload.turn (u : Upload) : Bool × Upload :=
  let nodeIndex := (u.nodeIndex + 1) % nodes.length
  if nodeIndex = 0 ∧ storage.check u.succ = false then
    if u.failCount = nodes.length then (true, { u with nodeIndex })
    else (false, { u with nodeIndex, failCount := 0 })
  else (false, { u with nodeIndex })

/-- One turn with the shard `vec[i]`. After a failure `i` stands where it was. -/
def Upload.attempt (u : Upload) (node shard : Str) (stored : Bool) : Bool × Upload :=
  Upload.turn storage nodes <|
    if stored then
      { u with i := u.i + 1, succ := u.succ + 1,
               nodesHashs := u.nodesHashs ++ [(node, sha256sum shard)] }
    else { u with failCount := u.failCount + 1 }

/-- The loop over the shards. The list tells of each `put_to_datanode` in turn whether it
succeeds; what is left of it is returned. There is no result as long as the loop goes on, and
with no node to index. -/
def uploadShards (vec : List Str) : List Bool → Upload → Option (Upload × List Bool)
  | [], u => if u.i < vec.length then none else some (u, [])
  | stored :: outcomes, u =>
    match vec[u.i]?, nodes[u.nodeIndex]? with
    | none, _ => some (u, stored :: outcomes)
    | some _, none => none
    | some shard, some node =>
      let (stopped, next) := u.attempt sha256sum storage nodes node shard stored
      if stopped then some (next, outcomes) else uploadShards vec outcomes next

variable (code : ErasureCode)

def encodeOneBlock (outcomes : List Bool) (block : Str) : Option (Except Fault Str) :=
  match storage.encode code block with
  | .error fault => some (.error fault)
  | .ok vec =>
    (uploadShards sha256sum storage nodes vec outcomes {}).bind fun (u, _) ↦
      encodeOneSub u.nodesHashs

variable (fetch : Str → Str → Except Fault Str)

/-- `fetch` is what the stream of the datanode delivers. -/
def getFromDatanode (node blkid : Str) : Except Fault Str := do
  let res ← fetch node blkid
  if sha256sum res ≠ blkid then throw (.runtime "sha256sum check fail".toList)
  return res

/-- The loop over the shards of a block: the first ones that arrive fill `datas`. An exception
of the decoder is caught like one of a datanode. -/
def downloadShards : List (Str × Str) → Nat → List Str → Option Str
  | [], _, _ => some []
  | (node, blkid) :: rest, succ, datas =>
    -- the right side of `datas[succ++] = …` is evaluated first: a failure is not counted
    match getFromDatanode sha256sum fetch node blkid with
    | .error _ => downloadShards rest succ datas
    | .ok data =>
      if datas.length ≤ succ then none
      else
        let datas := datas.set succ data
        if succ + 1 = storage.getDecodeBlocks then
          match storage.decode code datas with
          | .ok block => some block
          | .error .assertion => none
          | .error _ => downloadShards rest (succ + 1) datas
        else downloadShards rest (succ + 1) datas

def decodeOneBlock (sub : Str) : Option Str :=
  downloadShards sha256sum storage code fetch (decodeOneSub sub) 0
    (List.replicate storage.getDecodeBlocks [])

end

end Spkdfs
