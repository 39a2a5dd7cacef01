import Mathlib.Algebra.Group.Int.Defs
import Spkdfs.Client.SDK
import Spkdfs.Client.Shards

namespace Spkdfs

open Library Function

def memcpy (dst src : Str) (n : Nat) : Str := src.take n ++ dst.drop n

/-- One turn of the loop of `split_all_block`: the buffer, which is copied out as it is, and the
blocks so far. -/
def copyBlock (content : Str) (blockSize : Nat) (state : Str × List Str) (i : Nat) :
    Str × List Str :=
  let tmp := memcpy state.1 (content.drop (i * blockSize)) blockSize
  (tmp, state.2 ++ [tmp])

def copyBlocks (content : Str) (blockSize count : Nat) : Str × List Str :=
  (List.range count).foldl (copyBlock content blockSize) (List.replicate blockSize '\x00', [])

/-- The last block may keep the end of the one before it. -/
def splitAllBlock (content : Str) (blockSize : Nat) : List Str :=
  let blockNums := content.length / blockSize
  let bytesRemained := content.length % blockSize
  let (tmp, vec) := copyBlocks content blockSize blockNums
  if 0 < bytesRemained then
    vec ++ [memcpy tmp (content.drop (blockNums * blockSize)) bytesRemained]
  else vec

/-- The datanodes: their names, what their streams deliver, and the libraries the client uses
for shards. -/
structure Shards where
  sha256sum : Str → Str
  code : ErasureCode
  nodes : List Str
  fetch : Str → Str → Except Fault Str

namespace Shards

variable (d : Shards)

def encodeContent (storage : StorageType) (content : Str) : Except Fault (List (List Str)) :=
  (splitAllBlock content (toUInt64 storage.getBlockSize)).mapM (storage.encode d.code)

/-- `datanode_put`: the node index and the counters go on from block to block. -/
def datanodePut (storage : StorageType) :
    List (List Str) → List Bool → Upload → Option (Except Fault (List Str))
  | [], _, _ => some (.ok [])
  | vec :: encodedData, outcomes, u =>
    (uploadShards d.sha256sum storage d.nodes vec outcomes
        { u with i := 0, nodesHashs := [] }).bind fun (u, outcomes) ↦
      (encodeOneSub u.nodesHashs).bind fun
        | .error fault => some (.error fault)
        | .ok oneSub =>
          (datanodePut storage encodedData outcomes u).map fun sub ↦ sub.map (oneSub :: ·)

/-- What `decode_one_block` returns. Without a result the process ends. -/
def decode (storage : Option StorageType) (s : Str) : Except Fault Str :=
  match storage.bind fun storage ↦ decodeOneBlock d.sha256sum storage d.code d.fetch s with
  | some block => return block
  | none => throw .assertion

def toDatanodes (outcomes : List Bool) : Datanodes where
  encode storage block :=
    match storage.bind fun storage ↦
      encodeOneBlock d.sha256sum storage d.nodes d.code outcomes block with
    | some sub => sub
    | none => throw .assertion
  decode := d.decode

end Shards

/-- What happens on the leader while `put` waits for the answers to its requests. -/
structure PutWaits where
  put : List Action
  lock : List Action
  putOk : List Action
deriving DecidableEq

/-- `operator>>` of a stream into an `int`: the number and the rest of the stream. -/
def extractInt (s : Str) : Option (Int × Str) :=
  let s := s.dropWhile isSpace
  let negative := s.head? == some '-'
  let s := if negative || s.head? == some '+' then s.drop 1 else s
  let digits := s.takeWhile Char.isDigit
  let n : Int := if negative then -(digitsValue digits : Int) else digitsValue digits
  if digits = [] ∨ n < -2 ^ 31 ∨ 2 ^ 31 ≤ n then none else some (n, s.drop digits.length)

/-- `ss >> begin >> delimiter >> end`. -/
def extractRange (s : Str) : Option (Int × Int) := do
  let (first, s) ← extractInt s
  let (last, _) ← extractInt ((s.dropWhile isSpace).drop 1)
  if s.dropWhile isSpace = [] then none else return (first, last)

def resizeFile (s : Str) (size : Nat) : Str := s.take size ++ List.replicate (size - s.length) '\x00'

/-- The part of its aggregate that a member is: the sub without its last item, and the range
this names. -/
def aggregateRange (sub : Str) : Except Fault (Str × Int × Int) :=
  if ',' ∈ sub then
    match extractRange (basePart ',' sub) with
    | some range => return ((sub.reverse.dropWhile (· ≠ ',')).reverse.dropLast, range)
    | none => throw (.runtime "Invalid format: Unable to parse begin|end".toList)
  else return (sub, 0, 0)

namespace SDK

def lift {α : Type} (r : Except Fault α) : Method α := .of fun v ↦ some (r, v)

/-- An exception is only printed; the result tells what was caught. -/
def caught {α : Type} (x : Method α) : Method (List Fault) :=
  .of fun v ↦ (x.run v).map fun (r, v) ↦
    match r with
    | .ok _ => (.ok [], v)
    | .error fault => (.ok [fault], v)

def namenodePut (path : Str) (storage : StorageType) (during : List Action) :
    Method (List Fault) := caught (rpc (.put ⟨path, storage.toString⟩) during)

def namenodePutok (path : Str) (size : Nat) (sub : List Str) (during : List Action) :
    Method (List Fault) := do
  modifySDK fun s ↦ { s with remoteLocks := s.remoteLocks.filter (· ≠ path) }
  caught (rpc (.putOk ⟨path, size, sub⟩) during)

/-- `put` of a local file with this content. The list tells of each `put_to_datanode` whether it
succeeds. -/
def put (content path storageType : Str) (d : Shards) (outcomes : List Bool)
    (waits : PutWaits) : Method (List Fault) := do
  let storage ← lift (StorageType.fromString storageType)
  if content = [] then throw (.runtime "Failed to create anonymous mmap".toList)
  else do
    let refused ← namenodePut path storage waits.put
    if storage.getBlockSize = 0 then .stuck
    else do
      let encoded ← lift (d.encodeContent storage content)
      let _ ← rpc (.updateLock [path]) waits.lock
      match d.datanodePut storage encoded outcomes {} with
      | none => .stuck
      | some sub => do
        let uncommitted ← namenodePutok path content.length (← lift sub) waits.putOk
        return refused ++ uncommitted

/-- The content of an aggregated file. `substr` takes one character more than the range has. -/
def getAggregated (inode : Inode) (nodes : Datanodes) : Except Fault Str := do
  match inode.sub with
  | [] => throw (.runtime "agg file sub is empty".toList)
  | sub :: _ => do
    let (sub, first, last) ← aggregateRange sub
    let decoded ← nodes.decode inode.storageType sub
    if first < 0 ∨ last < 0 ∨ decoded.length < last ∨ last ≤ first then
      throw (.runtime "Invalid range: begin or end out of bounds".toList)
    return (decoded.drop first.toNat).take (last - first + 1).toNat

/-- `get`; the result is the content of the destination. Without a storage type there is nothing
behind the pointer it follows. -/
protected def get (path : Str) (seen : Nat) (nodes : Datanodes) : Method Str := do
  let inode ← getRemoteInode path seen
  if inode.storageType = none then .stuck
  else do
    let written ← lift <|
      if inode.aggInodeId ≠ [] then getAggregated inode nodes
      else do return (← inode.sub.mapM (nodes.decode inode.storageType)).flatten
    return resizeFile written inode.filesize

/-- The loop of `read_data` over the blocks up to `last`. -/
def readBlocks (inode : Inode) (nodes : Datanodes) (last : Int) : List Int → Method Str
  | [] => return []
  | index :: rest => do
    if inode.sub.length ≤ index then
      return List.replicate ((last - index) * inode.getBlockSize).toNat '\x00'
    else do
      fetchBlock inode index nodes
      let s := (← get).sdk
      let block := ((s.dir inode.fullpath.str).read index.toNat).getD []
      return block ++ (← readBlocks inode nodes last rest)

def readIndexs (inode : Inode) (nodes : Datanodes) (indexs : Int × Int) : Method Str :=
  let count := (indexs.2 - indexs.1).toNat
  readBlocks inode nodes indexs.2 ((List.range count).map fun i : Nat ↦ indexs.1 + i)

/-- The string between the two iterators, when they are in range and in order. -/
def readData (path : Str) (offset size : Nat) (nodes : Datanodes) : Method Str := do
  let inode ← getInode path
  if inode.filesize < offset then return []
  else if inode.getBlockSize = 0 then .stuck
  else do
    let size := if inode.filesize < (offset + size) % 2 ^ 64 then inode.filesize - offset else size
    let indexs := getIndexs inode offset size
    let s ← readIndexs inode nodes indexs
    let first := offset - indexs.1 * inode.getBlockSize
    if first < 0 ∨ s.length < first + size then .stuck
    else return (s.drop first.toNat).take size

end SDK

end Spkdfs
