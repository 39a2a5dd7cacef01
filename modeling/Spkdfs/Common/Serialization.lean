import Spkdfs.Common.Json

namespace Spkdfs

namespace StorageType

def toJson : StorageType → Json
  | .rs k m b =>
    .object (Fields.ofList [("type", .string "RS".toList), ("k", .number k), ("m", .number m),
      ("b", .number b)])
  | .re replications b =>
    .object (Fields.ofList [("type", .string "RE".toList), ("replications", .number replications),
      ("b", .number b)])
  | .agg k m b =>
    .object (Fields.ofList [("type", .string "AGG".toList), ("k", .number k), ("m", .number m),
      ("b", .number b)])

/-- The numbers were printed from a storage type that was named, so none is negative. -/
def fromJson (j : Json) : Except Fault StorageType := do
  let type ← (← j.atKey "type").getString
  if type = "RS".toList then
    let k ← (← j.atKey "k").getInt
    let m ← (← j.atKey "m").getInt
    let b ← (← j.atKey "b").getInt
    return .rs k.toNat m.toNat b.toNat
  else if type = "RE".toList then
    let replications ← (← j.atKey "replications").getInt
    let b ← (← j.atKey "b").getInt
    return .re replications.toNat b.toNat
  else if type = "AGG".toList then
    let k ← (← j.atKey "k").getInt
    let m ← (← j.atKey "m").getInt
    let b ← (← j.atKey "b").getInt
    return .agg k.toNat m.toNat b.toNat
  else throw (.invalidArgument "Unknown StorageType".toList)

theorem fromJson_toJson {storage : StorageType} (h : ∀ n ∈ storage.parameters, n ≤ intMax) :
    fromJson storage.toJson = .ok storage := by
  have hmax : intMax = 2 ^ 31 - 1 := rfl
  have hint : ∀ n ∈ storage.parameters, (Json.number n).getInt = .ok (n : Int) := by
    intro n hn
    have hn := h n hn
    exact Json.getInt_number ⟨by omega, by omega⟩
  cases storage with
  | rs k m b =>
    have hk : (toJson (.rs k m b)).atKey "k" = .ok (.number k) := rfl
    have hm : (toJson (.rs k m b)).atKey "m" = .ok (.number m) := rfl
    have hb : (toJson (.rs k m b)).atKey "b" = .ok (.number b) := rfl
    have htype : (toJson (.rs k m b)).atKey "type" = .ok (.string "RS".toList) := rfl
    simp only [fromJson, htype, hk, hm, hb, ok_bind, Json.getString]
    rw [if_pos trivial, hint k (by simp [parameters]), hint m (by simp [parameters]),
      hint b (by simp [parameters])]
    rfl
  | re replications b =>
    have hreplications : (toJson (.re replications b)).atKey "replications" =
        .ok (.number replications) := rfl
    have hb : (toJson (.re replications b)).atKey "b" = .ok (.number b) := rfl
    have htype : (toJson (.re replications b)).atKey "type" = .ok (.string "RE".toList) := rfl
    simp only [fromJson, htype, hreplications, hb, ok_bind, Json.getString]
    rw [if_neg (by decide), if_pos trivial, hint replications (by simp [parameters]),
      hint b (by simp [parameters])]
    rfl
  | agg k m b =>
    have hk : (toJson (.agg k m b)).atKey "k" = .ok (.number k) := rfl
    have hm : (toJson (.agg k m b)).atKey "m" = .ok (.number m) := rfl
    have hb : (toJson (.agg k m b)).atKey "b" = .ok (.number b) := rfl
    have htype : (toJson (.agg k m b)).atKey "type" = .ok (.string "AGG".toList) := rfl
    simp only [fromJson, htype, hk, hm, hb, ok_bind, Json.getString]
    rw [if_neg (by decide), if_neg (by decide), if_pos trivial, hint k (by simp [parameters]),
      hint m (by simp [parameters]), hint b (by simp [parameters])]
    rfl

end StorageType

namespace Inode

def toJson (text : JsonText) (inode : Inode) : Json :=
  let fields := Fields.ofList [("fullpath", .string inode.fullpath.str),
    ("is_directory", .boolean inode.isDirectory), ("filesize", .number inode.filesize),
    ("sub", .array (inode.sub.map .string)), ("valid", .boolean inode.valid),
    ("ddl_lock", .number inode.ddlLock)]
  let fields := inode.storageType.elim fields fun storage ↦
    fields.set "storage_type" (.string (text.dump storage.toJson))
  .object (if inode.aggInodeId = [] then fields
    else fields.set "agg_inode_id" (.string inode.aggInodeId))

def value (text : JsonText) (inode : Inode) : Str := text.dump (inode.toJson text)

/-- `nlohmann::json::parse` throws where the text is no document. -/
def parsed (text : JsonText) (s : Str) : Except Fault Json :=
  (text.parse s).elim (.error (.runtime "[json.exception.parse_error.101]".toList)) .ok

/-- The optional members: an inode without them has no storage type and belongs to no aggregate. -/
def readStorageType (text : JsonText) (j : Json) : Except Fault (Option StorageType) :=
  match j.find "storage_type" with
  | none => return none
  | some storage => do return some (← StorageType.fromJson (← parsed text (← storage.getString)))

def readAggInodeId (j : Json) : Except Fault Str :=
  match j.find "agg_inode_id" with
  | none => return []
  | some id => id.getString

def fromJson (text : JsonText) (j : Json) : Except Fault Inode := do
  let fullpath := FullPath.ofStr (← (← j.atKey "fullpath").getString)
  let isDirectory ← (← j.atKey "is_directory").getBool
  let filesize ← (← j.atKey "filesize").getUint64
  let sub ← (← j.atKey "sub").getVector Json.getString
  let valid ← (← j.atKey "valid").getBool
  let ddlLock ← (← j.atKey "ddl_lock").getUint64
  let storageType ← readStorageType text j
  let aggInodeId ← readAggInodeId j
  return { fullpath, isDirectory, filesize, storageType, sub, valid, ddlLock, aggInodeId }

/-- The fields have the widths of the C++ members. -/
structure Representable (inode : Inode) : Prop where
  filesize : inode.filesize < 2 ^ 64
  ddlLock : inode.ddlLock < 2 ^ 64
  storageType : ∀ storage ∈ inode.storageType, ∀ n ∈ storage.parameters, n ≤ intMax

variable {text : JsonText} {inode : Inode}

/-- The document of the storage type inside the document of an inode can be read. -/
def StorageReads (text : JsonText) (inode : Inode) : Prop :=
  ∀ storage ∈ inode.storageType, text.Reads storage.toJson

theorem atKey_toJson {key : String} (hstorage : key ≠ "storage_type") (hagg : key ≠ "agg_inode_id") :
    (inode.toJson text).atKey key =
      (Json.object (Fields.ofList [("fullpath", .string inode.fullpath.str),
        ("is_directory", .boolean inode.isDirectory), ("filesize", .number inode.filesize),
        ("sub", .array (inode.sub.map .string)), ("valid", .boolean inode.valid),
        ("ddl_lock", .number inode.ddlLock)])).atKey key := by
  rw [toJson]
  cases inode.storageType <;> by_cases hid : inode.aggInodeId = [] <;>
    simp [hid, Json.atKey_set, hstorage, hagg]

theorem readStorageType_toJson (h : inode.Representable) (hstorage : inode.StorageReads text) :
    readStorageType text (inode.toJson text) = .ok inode.storageType := by
  have hfind : (inode.toJson text).find "storage_type" =
      inode.storageType.map fun storage ↦ .string (text.dump storage.toJson) := by
    rw [toJson]
    cases inode.storageType with
    | none => by_cases hid : inode.aggInodeId = [] <;> simp [hid, Json.find_set] <;> rfl
    | some storage => by_cases hid : inode.aggInodeId = [] <;> simp [hid, Json.find_set]
  rw [readStorageType, hfind]
  cases hs : inode.storageType with
  | none => rfl
  | some storage =>
    have hread : text.parse (text.dump storage.toJson) = some storage.toJson := hstorage storage hs
    have hfrom := StorageType.fromJson_toJson (h.storageType storage hs)
    simp only [Option.map_some, Json.getString, ok_bind, parsed, hread, Option.elim_some, hfrom]
    rfl

theorem readAggInodeId_toJson : readAggInodeId (inode.toJson text) = .ok inode.aggInodeId := by
  have hfind : (inode.toJson text).find "agg_inode_id" =
      if inode.aggInodeId = [] then none else some (.string inode.aggInodeId) := by
    rw [toJson]
    cases inode.storageType <;> by_cases hid : inode.aggInodeId = [] <;>
      simp [hid, Json.find_set] <;> rfl
  rw [readAggInodeId, hfind]
  by_cases hid : inode.aggInodeId = []
  · rw [if_pos hid, hid]
    rfl
  · rw [if_neg hid]
    rfl

theorem fromJson_toJson (h : inode.Representable) (hstorage : inode.StorageReads text) :
    fromJson text (inode.toJson text) = .ok inode := by
  have hfullpath : (inode.toJson text).atKey "fullpath" = .ok (.string inode.fullpath.str) :=
    atKey_toJson (by decide) (by decide)
  have hdirectory : (inode.toJson text).atKey "is_directory" = .ok (.boolean inode.isDirectory) :=
    atKey_toJson (by decide) (by decide)
  have hfilesize : (inode.toJson text).atKey "filesize" = .ok (.number inode.filesize) :=
    atKey_toJson (by decide) (by decide)
  have hsub : (inode.toJson text).atKey "sub" = .ok (.array (inode.sub.map .string)) :=
    atKey_toJson (by decide) (by decide)
  have hvalid : (inode.toJson text).atKey "valid" = .ok (.boolean inode.valid) :=
    atKey_toJson (by decide) (by decide)
  have hddl : (inode.toJson text).atKey "ddl_lock" = .ok (.number inode.ddlLock) :=
    atKey_toJson (by decide) (by decide)
  have hstrings : (Json.array (inode.sub.map .string)).getVector Json.getString = .ok inode.sub :=
    Json.getVector_map fun _ _ ↦ rfl
  simp only [fromJson, hfullpath, hdirectory, hfilesize, hsub, hvalid, hddl, ok_bind,
    Json.getString, Json.getBool, Json.getUint64_number h.filesize,
    Json.getUint64_number h.ddlLock, FullPath.ofStr_str]
  rw [hstrings, ok_bind, readStorageType_toJson h hstorage, ok_bind, readAggInodeId_toJson, ok_bind]
  rfl

end Inode

namespace FileInfo

def toJson (file : FileInfo) : Json :=
  .object (Fields.ofList [("path", .string file.path), ("size", .number file.size),
    ("pos", .array [.number file.pos.1, .number file.pos.2])])

def fromJson (j : Json) : Except Fault FileInfo := do
  let path ← (← j.atKey "path").getString
  let size ← (← j.atKey "size").getUint64
  let first ← (← (← j.atKey "pos").element 0).getInt
  let second ← (← (← j.atKey "pos").element 1).getInt
  return { path, size, pos := (first, second) }

structure Representable (file : FileInfo) : Prop where
  size : file.size < 2 ^ 64
  first : -2 ^ 31 ≤ file.pos.1 ∧ file.pos.1 < 2 ^ 31
  second : -2 ^ 31 ≤ file.pos.2 ∧ file.pos.2 < 2 ^ 31

theorem fromJson_toJson {file : FileInfo} (h : file.Representable) :
    fromJson file.toJson = .ok file := by
  have hpath : file.toJson.atKey "path" = .ok (.string file.path) := rfl
  have hsize : file.toJson.atKey "size" = .ok (.number file.size) := rfl
  have hpos : file.toJson.atKey "pos" = .ok (.array [.number file.pos.1, .number file.pos.2]) := rfl
  have hfirst : (Json.array [.number file.pos.1, .number file.pos.2]).element 0 =
      .ok (.number file.pos.1) := rfl
  have hsecond : (Json.array [.number file.pos.1, .number file.pos.2]).element 1 =
      .ok (.number file.pos.2) := rfl
  simp only [fromJson, hpath, hsize, hpos, hfirst, hsecond, ok_bind, Json.getString,
    Json.getUint64_number h.size, Json.getInt_number h.first, Json.getInt_number h.second]
  rfl

end FileInfo

namespace AggInode

def toJson (agg : AggInode) : Json :=
  .object (Fields.ofList [("id", .string agg.id), ("files", .array (agg.files.map FileInfo.toJson)),
    ("aggregate_size", .number agg.aggregateSize), ("valid", .array (agg.valid.map .boolean)),
    ("valid_count", .number agg.validCount)])

def value (text : JsonText) (agg : AggInode) : Str := text.dump agg.toJson

def fromJson (j : Json) : Except Fault AggInode := do
  let id ← (← j.atKey "id").getString
  let files ← (← j.atKey "files").getVector FileInfo.fromJson
  let aggregateSize ← (← j.atKey "aggregate_size").getUint64
  let valid ← (← j.atKey "valid").getVector Json.getBool
  let validCount ← (← j.atKey "valid_count").getInt
  return { id, files, aggregateSize, valid, validCount }

structure Representable (agg : AggInode) : Prop where
  files : ∀ file ∈ agg.files, file.Representable
  aggregateSize : agg.aggregateSize < 2 ^ 64
  validCount : -2 ^ 31 ≤ agg.validCount ∧ agg.validCount < 2 ^ 31

theorem fromJson_toJson {agg : AggInode} (h : agg.Representable) :
    fromJson agg.toJson = .ok agg := by
  have hid : agg.toJson.atKey "id" = .ok (.string agg.id) := rfl
  have hfiles : agg.toJson.atKey "files" = .ok (.array (agg.files.map FileInfo.toJson)) := rfl
  have hsize : agg.toJson.atKey "aggregate_size" = .ok (.number agg.aggregateSize) := rfl
  have hvalid : agg.toJson.atKey "valid" = .ok (.array (agg.valid.map .boolean)) := rfl
  have hcount : agg.toJson.atKey "valid_count" = .ok (.number agg.validCount) := rfl
  have hread : (Json.array (agg.files.map FileInfo.toJson)).getVector FileInfo.fromJson =
      .ok agg.files := Json.getVector_map fun file hf ↦ FileInfo.fromJson_toJson (h.files file hf)
  have hbools : (Json.array (agg.valid.map .boolean)).getVector Json.getBool = .ok agg.valid :=
    Json.getVector_map fun _ _ ↦ rfl
  simp only [fromJson, hid, hfiles, hsize, hvalid, hcount, ok_bind, Json.getString,
    Json.getUint64_number h.aggregateSize, Json.getInt_number h.validCount, hread, hbools]
  rfl

end AggInode

end Spkdfs
