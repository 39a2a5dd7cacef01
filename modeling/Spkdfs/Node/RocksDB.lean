import Spkdfs.Library.Table
import Spkdfs.Common.Inode

namespace Spkdfs

open Library

inductive Value
  | inode (i : Inode)
  | agg (a : AggInode)
deriving DecidableEq

def Value.key : Value → Str
  | .inode i => i.fullpath.str
  | .agg a => a.id

abbrev RocksDB := Table Value.key

namespace RocksDB

/-- `get` and the conversion of the JSON found to an `Inode`; `none` is `IsNotFound`. -/
def readInode (db : RocksDB) (key : Str) : Except Fault (Option Inode) :=
  match db.find key with
  | none => return none
  | some (.inode inode) => return some inode
  | some (.agg _) => throw (.runtime "key 'fullpath' not found".toList)

def pathExists (db : RocksDB) (path : Str) : Except Fault Bool := do
  if path = root then return true
  match ← readInode db path with
  | none => return false
  | some inode => return inode.valid

def tryToRm (db : RocksDB) (inode : Inode) : Except Fault Unit := do
  if !(← pathExists db inode.fullpath.str) then
    throw (.message .pathNotExistsException inode.fullpath.str)

def tryToAdd (db : RocksDB) (inode : Inode) : Except Fault Unit := do
  if !(← pathExists db inode.parentPath) then
    throw (.message .pathNotExistsException inode.parentPath)
  if ← pathExists db inode.fullpath.str then
    throw (.message .pathExistsException inode.fullpath.str)

def getInode (db : RocksDB) (inode : Inode) : Except Fault Inode := do
  match ← readInode db inode.fullpath.str with
  | none =>
    if inode.fullpath.str = root then return { inode with isDirectory := true, valid := true }
    return { inode with valid := false }
  | some found => return found

def ls (db : RocksDB) (inode : Inode) : Except Fault Inode := do
  let inode ← getInode db inode
  if !inode.valid then throw (.message .pathNotExistsException inode.fullpath.str)
  return inode

def prepareMkdir (db : RocksDB) (inode : Inode) : Except Fault Inode := do
  tryToAdd db inode
  return inode

def preparePut (db : RocksDB) (now : Nat) (inode : Inode) : Except Fault Inode := do
  let inode ← getInode db inode
  if inode.valid && inode.isDirectory then
    throw (.message .pathExistsException inode.fullpath.str)
  Inode.lock { inode with isDirectory := false, valid := true } now

def preparePutOk (db : RocksDB) (inode : Inode) : Except Fault Inode := do
  let inode ← getInode db inode
  if !inode.valid then throw (.message .pathNotExistsException inode.fullpath.str)
  if inode.isDirectory then throw (.message .expectedFileException inode.fullpath.str)
  return inode

def prepareRm (db : RocksDB) (inode : Inode) : Except Fault Inode := do
  tryToRm db inode
  return { inode with valid := false }

/-- The aggregate whose copy `agg_rm` marks. The inode it asks for never gets a path, and
nothing writes the marked copy back. -/
def aggRm (db : RocksDB) (path : Str) : Except Fault (Option AggInode) := do
  let inode ← getInode db (.ofPath [])
  if inode.aggInodeId = [] then return none
  match db.find inode.aggInodeId with
  | none => throw (.runtime "parse error".toList)
  | some (.inode _) => throw (.runtime "key 'id' not found".toList)
  | some (.agg agg) =>
    match agg.files.findIdx? (·.path = path) with
    | none => return some agg
    | some index => return some (agg.setFileUnValid index)

def getParentInode (db : RocksDB) (inode : Inode) : Except Fault Inode := do
  match ← readInode db inode.parentPath with
  | none =>
    if inode.parentPath = root then return .getDefaultDir root
    throw .assertion
  | some parent => return parent

/-- `push_back` of a name that `find` does not find. -/
def addName (sub : List Str) (name : Str) : List Str := if name ∈ sub then sub else sub ++ [name]

/-- The two `erase` calls of `internal_rm`. -/
def removeName (sub : List Str) (name : Str) : List Str :=
  (sub.filter (· ≠ name)).filter (· ≠ name ++ ['/'])

def internalRm (db : RocksDB) (inode : Inode) : Except Fault RocksDB := do
  let parent ← getParentInode db inode
  let _ ← aggRm db inode.fullpath.str
  return db.write [.inode { parent with sub := removeName parent.sub inode.filename },
    .inode inode]

/-- The stored inode with the content of a `put_ok`. -/
def commit (db : RocksDB) (inode : Inode) : Except Fault Inode := do
  let found ← getInode db (.ofPath inode.fullpath.str)
  return { found.unlock with sub := inode.sub, filesize := inode.filesize }

def internalPutOk (db : RocksDB) (inode : Inode) : Except Fault RocksDB := do
  let parent ← getParentInode db inode
  let committed ← commit db inode
  return db.write [.inode { parent with sub := addName parent.sub inode.filename },
    .inode committed]

def internalPutAgg (db : RocksDB) (agg : AggInode) : Except Fault RocksDB :=
  return db.write [.agg agg]

def internalPut (db : RocksDB) (inode : Inode) : Except Fault RocksDB :=
  return db.write [.inode inode]

def internalPutBatch (db : RocksDB) (inodes : List Inode) : Except Fault RocksDB :=
  return db.write (inodes.map .inode)

abbrev Parents := List (Str × Inode)

def readParent (db : RocksDB) (parents : Parents) (inode : Inode) : Except Fault Parents := do
  if parents.any (·.1 = inode.parentPath) then return parents
  return parents ++ [(inode.parentPath, ← getParentInode db inode)]

def addDentry (parents : Parents) (inode : Inode) : Parents :=
  parents.map fun (path, parent) ↦
    if path = inode.parentPath then
      (path, { parent with sub := addName parent.sub inode.filename })
    else (path, parent)

def commitAgg (db : RocksDB) (inode : Inode) : Except Fault Inode := do
  let committed ← commit db inode
  if inode.aggInodeId = [] then return committed
  return { committed with aggInodeId := inode.aggInodeId }

/-- Each parent is read once, before any name is added; the parents are written last. -/
def internalPutOkBatch (db : RocksDB) (inodes : List Inode) : Except Fault RocksDB := do
  let parents ← inodes.foldlM (readParent db) []
  let committed ← inodes.mapM (commitAgg db)
  return db.write (committed.map .inode ++ (inodes.foldl addDentry parents).map (.inode ·.2))

def internalMkdir (db : RocksDB) (inode : Inode) : Except Fault RocksDB := do
  let parent ← getParentInode db inode
  return db.write [.inode { parent with sub := addName parent.sub inode.filename },
    .inode inode]

end RocksDB

end Spkdfs
