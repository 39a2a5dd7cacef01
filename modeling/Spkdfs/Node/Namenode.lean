import Spkdfs.Node.RocksDB

namespace Spkdfs

open Library RocksDB

structure NNPutRequest where
  path : Str
  storageType : Str
deriving DecidableEq

structure NNPutOKRequest where
  path : Str
  filesize : Nat
  sub : List Str
deriving DecidableEq

inductive Request
  | mkdir (path : Str)
  | rm (path : Str)
  | put (req : NNPutRequest)
  | putBatch (reqs : List NNPutRequest)
  | putOk (req : NNPutOKRequest)
  | putOkBatch (reqs : List NNPutOKRequest)
  | updateLock (paths : List Str)
deriving DecidableEq

/-- A log entry: its `OpType` and the payload. -/
inductive Entry
  | opMkdir (inode : Inode)
  | opPut (inode : Inode)
  | opPutOk (inode : Inode)
  | opPutBatch (inodes : List Inode)
  | opPutOkBatch (inodes : List Inode)
  | opPutAgg (agg : AggInode)
  | opRm (inode : Inode)
deriving DecidableEq

def Entry.inodes : Entry → List Inode
  | .opMkdir inode | .opPut inode | .opPutOk inode | .opRm inode => [inode]
  | .opPutBatch inodes | .opPutOkBatch inodes => inodes
  | .opPutAgg _ => []

/-- What a handler reads besides the request: its address and its clocks, `get_time` in
seconds and `steady_clock` in milliseconds. -/
structure Env where
  myIp : Str
  now : Nat
  millis : Int
deriving DecidableEq

namespace Namenode

def requirePath (path : Str) : Except Fault Unit :=
  if path = [] then throw (.runtime "parameter path required".toList) else return ()

/-- The one handler that every namenode answers, leader or not. -/
def ls (db : RocksDB) (path : Str) : Except Fault Inode :=
  RocksDB.ls db (.ofPath (if path = [] then root else path))

def mkdirPath (path : Str) : Str := if path.head? = some '/' then path else '/' :: path

def mkdir (db : RocksDB) (path : Str) : Except Fault (List Entry) := do
  requirePath path
  return [.opMkdir (← prepareMkdir db (.getDefaultDir (mkdirPath path)))]

def rm (db : RocksDB) (path : Str) : Except Fault (List Entry) := do
  requirePath path
  return [.opRm (← prepareRm db (.ofPath path))]

def putInode (db : RocksDB) (now : Nat) (req : NNPutRequest) : Except Fault Inode := do
  requirePath req.path
  let inode ← preparePut db now (.ofPath req.path)
  return { inode with storageType := some (← StorageType.fromString req.storageType) }

def put (db : RocksDB) (now : Nat) (req : NNPutRequest) : Except Fault (List Entry) := do
  return [.opPut (← putInode db now req)]

def putBatch (db : RocksDB) (now : Nat) (reqs : List NNPutRequest) :
    Except Fault (List Entry) := do
  return [.opPutBatch (← reqs.mapM (putInode db now))]

def putOkInode (db : RocksDB) (req : NNPutOKRequest) : Except Fault Inode := do
  requirePath req.path
  let inode ← preparePutOk db (.ofPath req.path)
  return { inode with sub := req.sub, filesize := req.filesize }

def putOk (db : RocksDB) (req : NNPutOKRequest) : Except Fault (List Entry) := do
  return [.opPutOk (← putOkInode db req)]

/-- The lines that repeated `std::getline` calls read. -/
def getlines (delimiter : Char) (s : Str) : List Str :=
  let parts := s.splitOn delimiter
  if parts.getLast? = some [] then parts.dropLast else parts

def stoiPair (first second : Str) : Except Fault (Int × Int) := do
  return (← stoi first, ← stoi second)

def getLastPair (input : Str) : Except Fault (Int × Int) :=
  match (getlines ',' input).getLast? with
  | none => throw (.runtime "Empty input string.".toList)
  | some last =>
    if '|' ∈ last then
      match stoiPair (last.takeWhile (· ≠ '|')) ((last.dropWhile (· ≠ '|')).drop 1) with
      | .ok pair => return pair
      | .error (.invalidArgument _) => throw (.runtime "Invalid pair format".toList)
      | .error (.outOfRange _) => throw (.runtime "Number out of range in pair".toList)
      | .error e => throw e
    else
      throw (.runtime "Invalid pair format, missing '|' delimiter in last pair".toList)

def putOkMember (db : RocksDB) (id : Str) (req : NNPutOKRequest) :
    Except Fault (Inode × FileInfo) := do
  let inode ← putOkInode db req
  match req.sub with
  -- `*req.sub().begin()` has no meaning without a sub entry; nothing is proposed then
  | [] => throw (.runtime "no sub".toList)
  | first :: _ =>
    return ({ inode with aggInodeId := id }, ⟨req.path, inode.filesize, ← getLastPair first⟩)

def putOkBatch (db : RocksDB) (env : Env) (reqs : List NNPutOKRequest) :
    Except Fault (List Entry) := do
  let machineId ← stoi (basePart '.' env.myIp)
  let generator : SnowflakeIDGenerator := { machineId }
  let id := (generator.generateID env.millis env.millis).1
  let members ← reqs.mapM (putOkMember db id)
  let files := members.map (·.2)
  let agg : AggInode :=
    { id, files, aggregateSize := (files.map (·.size)).sum % 2 ^ 64,
      valid := reqs.map fun _ ↦ true, validCount := reqs.length }
  return [.opPutOkBatch (members.map (·.1)), .opPutAgg agg]

/-- The loop of `update_lock`: the entries proposed before the first path that `ls` refuses
stay proposed. -/
def updateLockEntries (db : RocksDB) (now : Nat) : List Str → List Entry × Option Fault
  | [] => ([], none)
  | path :: paths =>
    match RocksDB.ls db (.ofPath path) with
    | .error e => ([], some e)
    | .ok inode =>
      let (entries, error) := updateLockEntries db now paths
      (.opPut (inode.updateDdlLock now) :: entries, error)

def updateLock (db : RocksDB) (now : Nat) (paths : List Str) : List Entry × Option Fault :=
  if paths = [] then ([], some (.runtime "parameter paths required".toList))
  else updateLockEntries db now paths

def proposed (entries : Except Fault (List Entry)) : List Entry × Option Fault :=
  match entries with
  | .ok entries => (entries, none)
  | .error e => ([], some e)

/-- The handlers on the leader: the entries proposed, and the exception that answers the
request when one is thrown. -/
def prepare (db : RocksDB) (env : Env) : Request → List Entry × Option Fault
  | .mkdir path => proposed (mkdir db path)
  | .rm path => proposed (rm db path)
  | .put req => proposed (put db env.now req)
  | .putBatch reqs => proposed (putBatch db env.now reqs)
  | .putOk req => proposed (putOk db req)
  | .putOkBatch reqs => proposed (putOkBatch db env reqs)
  | .updateLock paths => updateLock db env.now paths

end Namenode

inductive Answer
  | success
  | failure (fault : Fault)
deriving DecidableEq

namespace RaftNN

def applyOp (db : RocksDB) : Entry → Except Fault RocksDB
  | .opMkdir inode => internalMkdir db inode
  | .opPut inode => internalPut db inode
  | .opPutOk inode => internalPutOk db inode
  | .opPutBatch inodes => internalPutBatch db inodes
  | .opPutOkBatch inodes => internalPutOkBatch db inodes
  | .opPutAgg agg => internalPutAgg db agg
  | .opRm inode => internalRm db inode

/-- One turn of the loop of `on_apply`. An exception becomes the answer and leaves the store
as it is, since every operation writes in one batch at its end; a failed assertion ends
the process. -/
def onApply (db : RocksDB) (entry : Entry) : Option (RocksDB × Answer) :=
  match applyOp db entry with
  | .ok db' => some (db', .success)
  | .error .assertion => none
  | .error e => some (db, .failure e)

end RaftNN

end Spkdfs
