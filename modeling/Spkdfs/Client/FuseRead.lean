import Spkdfs.Client.Members

namespace Spkdfs

open Library Procedure

namespace FUSE

/-- The `SDK` goes, with all but the files in its data directory. -/
def deinit : Method Unit :=
  modify fun v ↦
    { v with
      sdk := {
        slave := v.sdk.slave, tmpPath := v.sdk.tmpPath, dirs := v.sdk.dirs, deleted := true } }

/-- A new `SDK` on the same data directory, with the slave namenode that is found and how far this
has applied the log; without a node that is online there is none. -/
def reinit (found : Option (Nat × Nat)) : Method Unit := do
  deinit
  match found with
  | none => throw (.runtime "all nodes offline".toList)
  | some (slave, progress) =>
    modify fun v ↦ { v with progress, sdk := { v.sdk with slave, deleted := false } }

/-- What is not a `MessageException` is tried once more on a new `SDK`. -/
def read (dst : Str) (offset size : Nat) (nodes : Datanodes) (found : Option (Nat × Nat)) :
    Method Str :=
  tryCatch (SDK.readData dst offset size nodes) fun fault ↦
    match fault with
    | .message code info => throw (.message code info)
    | .assertion => throw .assertion
    | _ => do
      reinit found
      SDK.readData dst offset size nodes

end FUSE

def enoent : Int := 2

/-- What `spkdfs_read` leaves: its result, what it copies of the string that was read into the
buffer, and how many bytes it copies from behind that string. -/
structure ReadReply where
  result : Int
  copied : Str
  beyond : Nat
deriving DecidableEq

def spkdfsRead (path : Str) (size offset : Nat) (nodes : Datanodes) (found : Option (Nat × Nat)) :
    Method ReadReply :=
  tryCatch
    (do
      let s ← FUSE.read path offset size nodes found
      return ⟨toInt32 size, s.take size, size - s.length⟩)
    fun fault ↦
      match fault with
      | .assertion => throw .assertion
      | _ => return ⟨-enoent, [], 0⟩

/-- The reply of a read of the content. -/
structure ReadReply.Exact (content : Str) (offset size : Nat) (reply : ReadReply) : Prop where
  result : reply.result = max 0 (min (size : Int) (content.length - offset))
  bytes : reply.copied.take reply.result.toNat = (content.drop offset).take reply.result.toNat
  inside : reply.beyond = 0

/-- What `read_data` takes for a range of a file with one block. -/
def SDK.inFirstBlock (n : Nat) (data : Str) (offset size : Nat) : Str :=
  if offset < n then (data.drop offset).take size else List.replicate size '\x00'

/-- A file of this content is open: its inode is cached, the datanodes return its blocks, and its
block files hold nothing else. The blocks are its own, or that of the aggregate it is a range of. -/
structure OpenContent (path : Str) (nodes : Datanodes) (v : View) (inode : Inode) (n : Nat)
    (blocks : List Str) (content : Str) : Prop where
  cached : v.sdk.cache path = some inode
  decodes : SDK.Decodes nodes inode blocks
  files : SDK.BlockFiles inode.fullpath.str blocks v
  blockSize : inode.getBlockSize = n
  positive : 0 < n
  filesize : inode.filesize = content.length
  small : content.length < 2 ^ 31
  own : inode.aggInodeId = [] → Aligned n blocks ∧ content <+: blocks.flatten
  shared : inode.aggInodeId ≠ [] → ∃ data first, blocks = [data] ∧
    content = SDK.memberContent data first content.length ∧ first + content.length ≤ data.length

namespace OpenContent

variable {path : Str} {nodes : Datanodes} {v : View} {inode : Inode} {n offset size : Nat}
  {blocks : List Str} {content : Str}

/-- The bytes of an aggregate are those of the file where they are in the same place. -/
def InPlace (inode : Inode) (n : Nat) (blocks : List Str) (content : Str) (offset size : Nat) : Prop :=
  inode.aggInodeId ≠ [] →
    SDK.inFirstBlock n blocks.flatten offset size = (content.drop offset).take size

theorem length_bytes (hin : offset + size ≤ content.length) :
    ((content.drop offset).take size).length = size := by
  rw [List.length_take, List.length_drop]
  omega

theorem readData_inside (h : OpenContent path nodes v inode n blocks content)
    (hin : offset + size ≤ content.length) :
    ∃ s w, (SDK.readData path offset size nodes).run v = some (.ok s, w) ∧ s.length = size ∧
      (s = (content.drop offset).take size ↔ InPlace inode n blocks content offset size) := by
  have hsmall := h.small
  by_cases hagg : inode.aggInodeId = []
  · obtain ⟨hblocks, hcontent⟩ := h.own hagg
    obtain ⟨w, hread⟩ := SDK.readData_run h.cached h.decodes h.files h.blockSize h.positive hblocks
      hcontent h.filesize h.small (show offset + size < 2 ^ 64 by omega)
    refine ⟨_, w, hread, length_bytes hin, ?_⟩
    have hplace : InPlace inode n blocks content offset size := fun hne ↦ absurd hagg hne
    exact iff_of_true rfl hplace
  · obtain ⟨data, first, rfl, hcontent, hwithin⟩ := h.shared hagg
    have hdecodes := h.decodes
    have hfiles := h.files
    obtain ⟨w, hread⟩ := SDK.readData_single h.cached hdecodes hfiles h.blockSize h.positive
      (h.filesize ▸ hin) (by omega) (show offset + size ≤ data.length by omega)
    refine ⟨_, w, hread, ?_, ?_⟩
    · split
      · exact length_bytes (by omega)
      · exact List.length_replicate
    · rw [InPlace, List.flatten_singleton, SDK.inFirstBlock]
      exact ⟨fun heq _ ↦ heq, fun hplace ↦ hplace hagg⟩

theorem readData_returns (h : OpenContent path nodes v inode n blocks content)
    (hsum : offset + size < 2 ^ 31) :
    ∃ s w, (SDK.readData path offset size nodes).run v = some (.ok s, w) := by
  by_cases hbehind : content.length < offset
  · exact ⟨[], v, SDK.readData_behind size h.cached (h.filesize ▸ hbehind)⟩
  · obtain ⟨part, hpart, -, hrun⟩ := SDK.readData_part nodes size h.cached h.filesize
      (Nat.le_of_not_lt hbehind) (by omega)
    obtain ⟨s, w, hread, -, -⟩ := h.readData_inside hpart
    exact ⟨s, w, hrun.trans hread⟩

end OpenContent

/-- What `read_data` returns is what `spkdfs_read` copies from. -/
theorem spkdfsRead_run {path s : Str} {offset size : Nat} {nodes : Datanodes} {v w : View}
    (found : Option (Nat × Nat))
    (h : (SDK.readData path offset size nodes).run v = some (.ok s, w)) :
    (spkdfsRead path size offset nodes found).run v =
      some (.ok ⟨toInt32 size, s.take size, size - s.length⟩, w) := by
  have hread : (FUSE.read path offset size nodes found).run v = some (.ok s, w) :=
    run_tryCatch_ok h _
  refine run_tryCatch_ok ?_ _
  rw [run_bind_ok hread]
  rfl

/-- An open file is read exactly, as long as the range is in the file or empty. A file in an
aggregate moreover has to be where the aggregate has the same bytes. -/
theorem spkdfsRead_exact_iff {path : Str} {nodes : Datanodes} {v : View} {inode : Inode}
    {n offset size : Nat} {blocks : List Str} {content : Str}
    (h : OpenContent path nodes v inode n blocks content) (hsum : offset + size < 2 ^ 31)
    (found : Option (Nat × Nat)) :
    ∃ reply w, (spkdfsRead path size offset nodes found).run v = some (.ok reply, w) ∧
      (reply.Exact content offset size ↔
        (size = 0 ∨ offset + size ≤ content.length) ∧
          OpenContent.InPlace inode n blocks content offset size) := by
  have hint : toInt32 size = size := SDK.toInt32_of_lt (by omega)
  by_cases hin : offset + size ≤ content.length
  · obtain ⟨s, w, hread, hlength, hbytes⟩ := h.readData_inside hin
    refine ⟨_, w, spkdfsRead_run found hread, ?_⟩
    rw [hint, ← hbytes]
    constructor
    · intro hexact
      refine ⟨.inr hin, ?_⟩
      have hcopied := hexact.bytes
      rw [Int.toNat_natCast, List.take_take, Nat.min_self, List.take_of_length_le hlength.le]
        at hcopied
      exact hcopied
    · rintro ⟨-, heq⟩
      have hresult : (size : Int) = max 0 (min (size : Int) (content.length - offset)) := by omega
      have hinside : size - s.length = 0 := by omega
      refine ⟨hresult, ?_, hinside⟩
      rw [Int.toNat_natCast, List.take_take, Nat.min_self, List.take_of_length_le hlength.le]
      exact heq
  · obtain ⟨s, w, hread⟩ := h.readData_returns hsum
    refine ⟨_, w, spkdfsRead_run found hread, ?_⟩
    rw [hint]
    constructor
    · intro hexact
      have hresult := hexact.result
      dsimp only at hresult
      have hzero : size = 0 := by omega
      subst hzero
      refine ⟨.inl rfl, fun _ ↦ ?_⟩
      rw [SDK.inFirstBlock]
      split <;> simp
    · rintro ⟨hzero | hinside, -⟩
      · subst hzero
        have hresult : ((0 : Nat) : Int) =
            max 0 (min ((0 : Nat) : Int) (content.length - offset)) := by omega
        refine ⟨hresult, ?_, Nat.zero_sub _⟩
        rw [List.take_zero, List.take_nil]
        rfl
      · exact absurd hinside hin

/-- A file that was put and is opened is an open file of its content. -/
theorem Uploaded.openContent {content path : Str} {storage : StorageType} {d : Shards}
    {v v₁ v₂ : View} (h : Uploaded content path storage d v v₁) (ho : Opened path v₁ v₂)
    (hfiles : SDK.BlockFiles (simplifyPath path)
      (splitAllBlock content (toUInt64 storage.getBlockSize)) v₂)
    (hsmall : content.length < 2 ^ 31) :
    ∃ inode, inode.aggInodeId = [] ∧
      OpenContent path (d.toDatanodes []) v₂ inode (toUInt64 storage.getBlockSize)
        (splitAllBlock content (toUInt64 storage.getBlockSize)) content := by
  obtain ⟨-, sub, hs⟩ := h.stored
  obtain ⟨hn, hpos⟩ := h.blockSize_eq
  obtain ⟨hblocks, hcontent⟩ := splitAllBlock_spec content hpos
  obtain ⟨deadline, hcached⟩ := h.cached ho hs
  exact ⟨_, rfl, hcached, h.decodes hs _ rfl rfl, hfiles, hn, hpos, rfl, hsmall,
    fun _ ↦ ⟨hblocks.aligned, hcontent⟩, fun hne ↦ absurd rfl hne⟩

/-- The file of two bytes, opened. -/
theorem pair_openContent : ∃ inode, inode.aggInodeId = [] ∧
    OpenContent "/f".toList (pairShards.toDatanodes []) (pairOpened "/f".toList) inode
      (toUInt64 (StorageType.getBlockSize (.re 1 1)))
      (splitAllBlock pairContent (toUInt64 (StorageType.getBlockSize (.re 1 1)))) pairContent := by
  refine pairFile_uploaded.openContent pairFile_opened
    (pairFile_uploaded.blockFiles pairFile_opened ?_ (.inr (by decide))) (by decide)
  intro t ht
  cases ht

/-- Both of its bytes are asked for. -/
theorem spkdfsRead_exact_pair : ∃ reply w,
    (spkdfsRead "/f".toList 2 0 (pairShards.toDatanodes []) none).run (pairOpened "/f".toList) =
      some (.ok reply, w) ∧ reply.Exact pairContent 0 2 := by
  obtain ⟨inode, hown, hopen⟩ := pair_openContent
  obtain ⟨reply, w, hread, hexact⟩ :=
    spkdfsRead_exact_iff hopen (show 0 + 2 < 2 ^ 31 by decide) none
  exact ⟨reply, w, hread, hexact.mpr ⟨.inr (by decide), fun hne ↦ absurd hown hne⟩⟩

/-- A page is asked for: `spkdfs_read` answers with its size, and copies what is behind the two
bytes. -/
theorem spkdfsRead_short_pair : ∃ w,
    (spkdfsRead "/f".toList 4096 0 (pairShards.toDatanodes []) none).run (pairOpened "/f".toList) =
      some (.ok ⟨4096, "ab".toList, 4094⟩, w) ∧
    ¬ ReadReply.Exact pairContent 0 4096 ⟨4096, "ab".toList, 4094⟩ := by
  obtain ⟨inode, hown, hopen⟩ := pair_openContent
  obtain ⟨hblocks, hcontent⟩ := hopen.own hown
  obtain ⟨w, hread⟩ := SDK.readData_run hopen.cached hopen.decodes
    hopen.files hopen.blockSize hopen.positive hblocks hcontent hopen.filesize hopen.small
    (show 0 + 4096 < 2 ^ 64 by decide)
  refine ⟨w, spkdfsRead_run none hread, fun hexact ↦ ?_⟩
  exact absurd hexact.inside (by decide)

end Spkdfs
