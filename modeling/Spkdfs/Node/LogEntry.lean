import Spkdfs.Common.Serialization
import Spkdfs.Node.Namenode

namespace Spkdfs

inductive OpType
  | opMkdir | opPut | opPutOk | opPutBatch | opPutOkBatch | opPutAgg | opRm | opUnknown
deriving DecidableEq

def OpType.code : OpType → BitVec 32
  | .opMkdir => 0
  | .opPut => 1
  | .opPutOk => 2
  | .opPutBatch => 3
  | .opPutOkBatch => 4
  | .opPutAgg => 5
  | .opRm => 6
  | .opUnknown => 7

def Json.isArray : Json → Bool
  | .array _ => true
  | _ => false

namespace Entry

def opType : Entry → OpType
  | .opMkdir _ => .opMkdir
  | .opPut _ => .opPut
  | .opPutOk _ => .opPutOk
  | .opPutBatch _ => .opPutBatch
  | .opPutOkBatch _ => .opPutOkBatch
  | .opPutAgg _ => .opPutAgg
  | .opRm _ => .opRm

/-- The document that a handler prints behind the type. -/
def document (text : JsonText) : Entry → Json
  | .opMkdir inode | .opPut inode | .opPutOk inode | .opRm inode => inode.toJson text
  | .opPutBatch inodes | .opPutOkBatch inodes => .array (inodes.map (·.toJson text))
  | .opPutAgg agg => agg.toJson

/-- `push_back` of the type, of which one byte is kept, and `append` of the text. -/
def data (text : JsonText) (entry : Entry) : Str :=
  Char.ofNat (entry.opType.code.toNat % 256) :: text.dump (entry.document text)

end Entry

namespace RaftNN

/-- `cutn` moves one byte of the buffer over the lowest byte of an `OP_UNKNOWN`. -/
def cutType : Str → BitVec 32 × Str
  | [] => (OpType.opUnknown.code, [])
  | c :: rest => ((OpType.opUnknown.code &&& 0xffffff00) ||| BitVec.ofNat 32 (c.toNat % 256), rest)

/-- What `on_apply` makes of the data of a log entry. Nothing is done for an unknown type. -/
def decode (text : JsonText) (data : Str) : Except Fault (Option Entry) := do
  let (type, jsonStr) := cutType data
  match text.parse jsonStr with
  | none => throw (.runtime "Invalid JSON format".toList)
  | some json =>
    if type = OpType.opPutAgg.code then return some (.opPutAgg (← AggInode.fromJson json))
    else if type = OpType.opPutBatch.code ∨ type = OpType.opPutOkBatch.code then
      if json.isArray = false then
        throw (.runtime "Expected a JSON array for OP_PUTBATCH or OP_PUTOKBATCH".toList)
      let inodes ← json.getVector (Inode.fromJson text)
      return some (if type = OpType.opPutBatch.code then .opPutBatch inodes
        else .opPutOkBatch inodes)
    else
      let inode ← Inode.fromJson text json
      return if type = OpType.opMkdir.code then some (.opMkdir inode)
        else if type = OpType.opPut.code then some (.opPut inode)
        else if type = OpType.opPutOk.code then some (.opPutOk inode)
        else if type = OpType.opRm.code then some (.opRm inode)
        else none

/-- One turn of the loop of `on_apply`, from the data of the entry on. -/
def onApplyData (text : JsonText) (db : RocksDB) (data : Str) : Option (RocksDB × Answer) :=
  match decode text data with
  | .ok (some entry) => onApply db entry
  | .ok none => some (db, .success)
  | .error .assertion => none
  | .error e => some (db, .failure e)

end RaftNN

theorem OpType.cut_code (type : OpType) :
    (OpType.opUnknown.code &&& 0xffffff00) |||
      BitVec.ofNat 32 ((Char.ofNat (type.code.toNat % 256)).toNat % 256) = type.code := by
  cases type <;> decide

namespace Entry

/-- The numbers in the payload have the widths of the C++ members. -/
structure Representable (entry : Entry) : Prop where
  inodes : ∀ inode ∈ entry.inodes, inode.Representable
  agg : ∀ agg, entry = .opPutAgg agg → agg.Representable

/-- The JSON library parses what it has dumped for the entry. -/
structure Readable (text : JsonText) (entry : Entry) : Prop where
  document : text.Reads (entry.document text)
  storage : ∀ inode ∈ entry.inodes, inode.StorageReads text

variable {text : JsonText} {entry : Entry}

/-- The byte that is written is the whole type that is read. -/
theorem cutType_data : RaftNN.cutType (entry.data text) =
    (entry.opType.code, text.dump (entry.document text)) := by
  rw [data, RaftNN.cutType, OpType.cut_code]

theorem fromJson_of_mem (h : entry.Representable) (hread : entry.Readable text) {inode : Inode}
    (hi : inode ∈ entry.inodes) : Inode.fromJson text (inode.toJson text) = .ok inode :=
  Inode.fromJson_toJson (h.inodes inode hi) (hread.storage inode hi)

end Entry

open Entry in
theorem RaftNN.decode_eq {text : JsonText} {entry : Entry} (h : entry.Representable)
    (hread : entry.Readable text) : decode text (entry.data text) = .ok (some entry) := by
  have hdocument : text.parse (text.dump (entry.document text)) = some (entry.document text) :=
    hread.document
  have hmem : ∀ inode ∈ entry.inodes, Inode.fromJson text (inode.toJson text) = .ok inode :=
    fun _ hi ↦ fromJson_of_mem h hread hi
  rw [decode, cutType_data]
  simp only [hdocument]
  cases entry with
  | opMkdir inode | opPut inode | opPutOk inode | opRm inode =>
    have hinode := hmem inode (by simp [inodes])
    simp only [document, hinode]
    rfl
  | opPutBatch is | opPutOkBatch is =>
    have his : (Json.array (is.map (·.toJson text))).getVector (Inode.fromJson text) = .ok is :=
      Json.getVector_map hmem
    simp only [document, his]
    rfl
  | opPutAgg agg =>
    have hagg := AggInode.fromJson_toJson (h.agg agg rfl)
    simp only [document, hagg]
    rfl

/-- A replica decodes from the log the operation and the payload that a handler has proposed,
and does with its data what it would do with the entry itself. -/
theorem log_entry_decoded {text : JsonText} {entry : Entry} (h : entry.Representable)
    (hread : entry.Readable text) :
    RaftNN.decode text (entry.data text) = .ok (some entry) ∧
      ∀ db, RaftNN.onApplyData text db (entry.data text) = RaftNN.onApply db entry := by
  have hdecode := RaftNN.decode_eq h hread
  refine ⟨hdecode, fun db ↦ ?_⟩
  rw [RaftNN.onApplyData, hdecode]

namespace Json

def escape (c : Char) : Str := if c = '"' ∨ c = '\\' then ['\\', c] else [c]

def quoted (s : Str) : Str := '"' :: s.flatMap escape ++ ['"']

mutual

/-- The compact form of a document without control characters. -/
def print : Json → Str
  | .null => "null".toList
  | .boolean b => (if b then "true" else "false").toList
  | .number n => if n < 0 then '-' :: toText n.natAbs else toText n.natAbs
  | .string s => quoted s
  | .array elements => '[' :: [','].intercalate (printElements elements) ++ [']']
  | .object fields => '{' :: [','].intercalate (printMembers fields) ++ ['}']

def printElements : List Json → List Str
  | [] => []
  | j :: elements => print j :: printElements elements

def printMembers : List (String × Json) → List Str
  | [] => []
  | member :: fields => printMember member :: printMembers fields

def printMember : String × Json → Str
  | (key, j) => quoted key.toList ++ ':' :: print j

end

end Json

/-- The library on some documents: it prints compactly, and finds the documents by their texts. -/
def JsonText.ofDocuments (documents : List Json) : JsonText :=
  ⟨Json.print, fun s ↦ documents.find? fun j ↦ j.print = s⟩

theorem JsonText.reads_pair {i j : Json} (h : i.print ≠ j.print) :
    (ofDocuments [i, j]).Reads i ∧ (ofDocuments [i, j]).Reads j := by
  simp [Reads, ofDocuments, h]

/-- A file in an aggregate, more than 4 GiB long. -/
def largeFile : Inode :=
  { fullpath := .ofStr "/a//b".toList, filesize := 5000000000, storageType := some (.agg 7 5 16),
    sub := ["10.0.0.1:8000|ab,0|7".toList], valid := true, ddlLock := 60, aggInodeId := "1f".toList }

def largeFileText : JsonText :=
  .ofDocuments [StorageType.toJson (.agg 7 5 16), largeFile.toJson (.ofDocuments [])]

theorem log_entry_decoded_large_file :
    RaftNN.decode largeFileText (Entry.data largeFileText (.opPut largeFile)) =
      .ok (some (.opPut largeFile)) := by
  have hrepresentable : (Entry.opPut largeFile).Representable := by
    refine ⟨fun inode hi ↦ ?_, fun agg he ↦ by cases he⟩
    obtain rfl := List.mem_singleton.mp hi
    refine ⟨by decide, by decide, fun storage hs ↦ ?_⟩
    obtain rfl := Option.some.inj hs
    decide
  have hne : Json.print (StorageType.toJson (.agg 7 5 16)) ≠
      Json.print (largeFile.toJson (.ofDocuments [])) := by decide +kernel
  obtain ⟨hstorage, hdocument⟩ := JsonText.reads_pair hne
  have hreadable : (Entry.opPut largeFile).Readable largeFileText := by
    refine ⟨hdocument, fun inode hi storage hs ↦ ?_⟩
    obtain rfl := List.mem_singleton.mp hi
    obtain rfl := Option.some.inj hs
    exact hstorage
  exact (log_entry_decoded hrepresentable hreadable).1

end Spkdfs
