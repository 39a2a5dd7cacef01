import Mathlib.Data.List.Count
import Spkdfs.Client.Shards

namespace Spkdfs

open Library

def brpcStreamChunkSize : Nat := 16 * 1024

/-- The error code `EAGAIN`. -/
def eagain : Nat := 11

/-- What brpc answers while a shard is sent: whether the stream is created, the answer to the `put`
of the datanode, the status of each `StreamWrite` in turn, and whether the stream is closed. -/
structure PutStream where
  created : Bool := true
  put : Except Fault Unit := .ok ()
  statuses : List Nat
  closed : Bool := true

/-- A `StreamWrite`: the chunk and the status. -/
abbrev StreamWrite := Str × Nat

/-- The loops of `put_to_datanode`, with the `error_flag` that they leave behind. The inner one
offers a chunk again as long as the status is `EAGAIN`. There is no result while they go on. -/
def writeStream (block : Str) : List Nat → Nat → Option (Bool × List StreamWrite)
  | [], offset => if offset < block.length then none else some (false, [])
  | status :: statuses, offset =>
    if offset < block.length then
      let currentChunkSize := min brpcStreamChunkSize (block.length - offset)
      let msg := (block.drop offset).take currentChunkSize
      if status = 0 then
        (writeStream block statuses (offset + currentChunkSize)).map fun (errorFlag, writes) ↦
          (errorFlag, (msg, status) :: writes)
      else if status = eagain then
        (writeStream block statuses offset).map fun (errorFlag, writes) ↦
          (errorFlag, (msg, status) :: writes)
      else some (true, [(msg, status)])
    else some (false, [])

/-- Nobody looks at the `error_flag` once the loops have ended. -/
def putToDatanode (sha256sum : Str → Str) (stream : PutStream) (block : Str) :
    Option (Except Fault Str × List StreamWrite) :=
  if stream.created = false then
    some (.error (.runtime "Fail to create stream".toList), [])
  else
    match stream.put with
    | .error fault => some (.error fault, [])
    | .ok () =>
      (writeStream block stream.statuses 0).map fun (_, writes) ↦
        if stream.closed then (.ok (sha256sum block), writes)
        else (.error (.runtime "stream close fail".toList), writes)

def accepted (writes : List StreamWrite) : List Str := (writes.filter (·.2 = 0)).map (·.1)

/-- A status that is neither success nor a reason to try again. -/
def RefusesChunk (status : Nat) : Prop := status ≠ 0 ∧ status ≠ eagain

instance (status : Nat) : Decidable (RefusesChunk status) := inferInstanceAs (Decidable (_ ∧ _))

/-- What the upload of the shards takes for granted of a call that has returned: a shard that is
recorded was taken as a whole. -/
structure Delivered (sha256sum : Str → Str) (block : Str) (result : Except Fault Str)
    (writes : List StreamWrite) : Prop where
  whole : ∀ hash, result = .ok hash → (accepted writes).flatten = block
  throws : (∃ write ∈ writes, RefusesChunk write.2) → ∃ fault, result = .error fault
  unrecorded : (∃ write ∈ writes, RefusesChunk write.2) → ∀ storage nodes (u : Upload) node,
    (u.attempt sha256sum storage nodes node block result.isOk).2.nodesHashs = u.nodesHashs

/-- The number of chunks that a block of `n` bytes is sent in. -/
def chunkCount (n : Nat) : Nat := (n + brpcStreamChunkSize - 1) / brpcStreamChunkSize

/-- The stream refuses a chunk before it has taken as many as the block has. -/
def RefusesBefore (statuses : List Nat) (chunks : Nat) : Prop :=
  ∃ before status after, statuses = before ++ status :: after ∧ RefusesChunk status ∧
    before.count 0 < chunks

section

variable {block : Str} {statuses : List Nat} {status offset chunks n : Nat} {flag : Bool}
  {writes : List StreamWrite}

theorem chunkCount_pos (hn : 0 < n) : 0 < chunkCount n := by
  refine Nat.div_pos ?_ (by decide)
  have hsize : 0 < brpcStreamChunkSize := by decide
  omega

theorem chunkCount_sub (hn : 0 < n) :
    chunkCount n = chunkCount (n - min brpcStreamChunkSize n) + 1 := by
  rw [chunkCount, chunkCount, brpcStreamChunkSize]
  omega

theorem accepted_cons_zero (msg : Str) (writes : List StreamWrite) :
    accepted ((msg, 0) :: writes) = msg :: accepted writes := rfl

theorem accepted_cons_of_ne (msg : Str) (writes : List StreamWrite) (h : status ≠ 0) :
    accepted ((msg, status) :: writes) = accepted writes := by
  rw [accepted, List.filter_cons_of_neg (by simpa using h), accepted]

theorem not_refusesBefore_nil : ¬ RefusesBefore [] chunks := by
  rintro ⟨before, status, after, he, -⟩
  simp at he

theorem refusesBefore_cons_of_refuses (h : RefusesChunk status) (hchunks : 0 < chunks) :
    RefusesBefore (status :: statuses) chunks := ⟨[], status, statuses, rfl, h, hchunks⟩

/-- A status that refuses nothing leaves the question to the rest. -/
theorem refusesBefore_cons (h : ¬ RefusesChunk status) :
    RefusesBefore (status :: statuses) chunks ↔
      RefusesBefore statuses (chunks - if status = 0 then 1 else 0) := by
  constructor
  · rintro ⟨before, s, after, he, hs, hcount⟩
    cases before with
    | nil =>
      obtain ⟨rfl, -⟩ := List.cons.inj he
      exact absurd hs h
    | cons t before =>
      obtain ⟨rfl, rfl⟩ := List.cons.inj he
      refine ⟨before, s, after, rfl, hs, ?_⟩
      rw [List.count_cons] at hcount
      simp only [beq_iff_eq] at hcount
      omega
  · rintro ⟨before, s, after, rfl, hs, hcount⟩
    refine ⟨status :: before, s, after, rfl, hs, ?_⟩
    rw [List.count_cons]
    simp only [beq_iff_eq]
    omega

theorem writeStream_done (h : block.length ≤ offset) :
    writeStream block statuses offset = some (false, []) := by
  cases statuses <;> simp only [writeStream, if_neg (Nat.not_lt.mpr h)]

/-- The chunk that begins at the offset. -/
def chunkAt (block : Str) (offset : Nat) : Str :=
  (block.drop offset).take (min brpcStreamChunkSize (block.length - offset))

theorem writeStream_refuses (hlt : offset < block.length) (hr : RefusesChunk status) :
    writeStream block (status :: statuses) offset =
      some (true, [(chunkAt block offset, status)]) := by
  simp only [writeStream, if_pos hlt, if_neg hr.1, if_neg hr.2, chunkAt]

/-- The offset moves only where the chunk was taken. -/
theorem writeStream_cons (hlt : offset < block.length) (hr : ¬ RefusesChunk status) :
    writeStream block (status :: statuses) offset =
      (writeStream block statuses (if status = 0 then
        offset + min brpcStreamChunkSize (block.length - offset) else offset)).map
          fun r ↦ (r.1, (chunkAt block offset, status) :: r.2) := by
  by_cases hzero : status = 0
  · simp only [writeStream, if_pos hlt, if_pos hzero, chunkAt]
  · have hagain : status = eagain := not_not.mp fun hne ↦ hr ⟨hzero, hne⟩
    simp only [writeStream, if_pos hlt, if_neg hzero, if_pos hagain, chunkAt]

/-- What the stream takes is the block, as far as the loops come. -/
theorem writeStream_accepted (h : writeStream block statuses offset = some (false, writes)) :
    (accepted writes).flatten = block.drop offset ∧ ∀ write ∈ writes, ¬ RefusesChunk write.2 := by
  induction statuses generalizing offset writes with
  | nil =>
    rw [writeStream] at h
    split_ifs at h with hlt
    obtain ⟨-, rfl⟩ := Prod.mk.inj (Option.some.inj h)
    rw [List.drop_eq_nil_of_le (by omega)]
    exact ⟨rfl, nofun⟩
  | cons status statuses ih =>
    by_cases hlt : offset < block.length
    case neg =>
      rw [writeStream_done (by omega)] at h
      obtain ⟨-, rfl⟩ := Prod.mk.inj (Option.some.inj h)
      rw [List.drop_eq_nil_of_le (by omega)]
      exact ⟨rfl, nofun⟩
    case pos =>
      by_cases hr : RefusesChunk status
      · rw [writeStream_refuses hlt hr] at h
        cases (Prod.mk.inj (Option.some.inj h)).1
      · rw [writeStream_cons hlt hr] at h
        obtain ⟨⟨f, ws⟩, hrest, he⟩ := Option.map_eq_some_iff.mp h
        obtain ⟨rfl, rfl⟩ := Prod.mk.inj he
        obtain ⟨hflatten, hnone⟩ := ih hrest
        refine ⟨?_, List.forall_mem_cons.mpr ⟨hr, hnone⟩⟩
        by_cases hzero : status = 0
        · rw [if_pos hzero] at hflatten
          subst hzero
          rw [accepted_cons_zero, List.flatten_cons, hflatten, ← List.drop_drop, chunkAt,
            List.take_append_drop]
        · rw [if_neg hzero] at hflatten
          rw [accepted_cons_of_ne _ _ hzero, hflatten]

theorem writeStream_refused (h : writeStream block statuses offset = some (true, writes)) :
    ∃ write ∈ writes, RefusesChunk write.2 := by
  induction statuses generalizing offset writes with
  | nil =>
    rw [writeStream] at h
    split_ifs at h
    cases (Prod.mk.inj (Option.some.inj h)).1
  | cons status statuses ih =>
    by_cases hlt : offset < block.length
    · by_cases hr : RefusesChunk status
      · rw [writeStream_refuses hlt hr] at h
        obtain ⟨-, rfl⟩ := Prod.mk.inj (Option.some.inj h)
        exact ⟨_, List.mem_singleton.mpr rfl, hr⟩
      · rw [writeStream_cons hlt hr] at h
        obtain ⟨⟨f, ws⟩, hrest, he⟩ := Option.map_eq_some_iff.mp h
        obtain ⟨rfl, rfl⟩ := Prod.mk.inj he
        obtain ⟨write, hw, hwr⟩ := ih hrest
        exact ⟨write, List.mem_cons_of_mem _ hw, hwr⟩
    · rw [writeStream_done (by omega)] at h
      cases (Prod.mk.inj (Option.some.inj h)).1

/-- The loops end with the `error_flag` exactly when a chunk is refused that they still need. -/
theorem refused_iff : (∃ writes, writeStream block statuses offset = some (true, writes)) ↔
    RefusesBefore statuses (chunkCount (block.length - offset)) := by
  induction statuses generalizing offset with
  | nil =>
    refine iff_of_false ?_ not_refusesBefore_nil
    rintro ⟨writes, h⟩
    rw [writeStream] at h
    split_ifs at h
    cases (Prod.mk.inj (Option.some.inj h)).1
  | cons status statuses ih =>
    by_cases hlt : offset < block.length
    case neg =>
      have hzero : chunkCount (block.length - offset) = 0 := by
        rw [Nat.sub_eq_zero_of_le (by omega)]
        decide
      rw [writeStream_done (by omega), hzero]
      refine iff_of_false ?_ ?_
      · rintro ⟨writes, he⟩
        cases (Prod.mk.inj (Option.some.inj he)).1
      · rintro ⟨before, s, after, -, -, hcount⟩
        exact absurd hcount (Nat.not_lt_zero _)
    case pos =>
      have hpos : 0 < block.length - offset := by omega
      by_cases hr : RefusesChunk status
      · rw [writeStream_refuses hlt hr]
        exact iff_of_true ⟨_, rfl⟩ (refusesBefore_cons_of_refuses hr (chunkCount_pos hpos))
      · have hchunks : chunkCount (block.length - offset) - (if status = 0 then 1 else 0) =
            chunkCount (block.length - if status = 0 then
              offset + min brpcStreamChunkSize (block.length - offset) else offset) := by
          split_ifs
          · rw [chunkCount_sub hpos, Nat.add_sub_cancel, Nat.sub_sub]
          · rfl
        rw [refusesBefore_cons hr, hchunks, ← ih, writeStream_cons hlt hr]
        constructor
        · rintro ⟨writes, h⟩
          obtain ⟨⟨f, ws⟩, hrest, he⟩ := Option.map_eq_some_iff.mp h
          obtain ⟨rfl, -⟩ := Prod.mk.inj he
          exact ⟨ws, hrest⟩
        · rintro ⟨writes, h⟩
          exact ⟨_, by rw [h]; rfl⟩

theorem attempt_nodesHashs (sha256sum : Str → Str) (storage : StorageType) (nodes : List Str)
    (u : Upload) (node shard : Str) :
    (u.attempt sha256sum storage nodes node shard false).2.nodesHashs = u.nodesHashs := by
  rw [Upload.attempt, if_neg Bool.false_ne_true, Upload.turn]
  split_ifs <;> rfl

end

/-- A refused chunk only ends the loops. So the call returns normally after it, unless there is
another reason to throw. -/
theorem delivered_iff (sha256sum : Str → Str) (stream : PutStream) (block : Str) :
    (∀ result writes, putToDatanode sha256sum stream block = some (result, writes) →
        Delivered sha256sum block result writes) ↔
      stream.created = false ∨ (∃ fault, stream.put = .error fault) ∨ stream.closed = false ∨
        ¬ RefusesBefore stream.statuses (chunkCount block.length) := by
  have hfailed : ∀ fault writes, Delivered sha256sum block (.error fault) writes ↔ True := by
    intro fault writes
    refine iff_true_intro ⟨nofun, fun _ ↦ ⟨fault, rfl⟩, fun _ storage nodes u node ↦ ?_⟩
    exact attempt_nodesHashs sha256sum storage nodes u node block
  by_cases hcreated : stream.created = false
  · refine iff_of_true (fun result writes h ↦ ?_) (.inl hcreated)
    rw [putToDatanode, if_pos hcreated] at h
    obtain ⟨rfl, -⟩ := Prod.mk.inj (Option.some.inj h)
    exact (hfailed _ _).mpr trivial
  cases hput : stream.put with
  | error fault =>
    refine iff_of_true (fun result writes h ↦ ?_) (.inr (.inl ⟨fault, rfl⟩))
    simp only [putToDatanode, if_neg hcreated, hput] at h
    obtain ⟨rfl, -⟩ := Prod.mk.inj (Option.some.inj h)
    exact (hfailed _ _).mpr trivial
  | ok _ =>
    cases hclosed : stream.closed with
    | false =>
      refine iff_of_true (fun result writes h ↦ ?_) (.inr (.inr (.inl rfl)))
      simp only [putToDatanode, if_neg hcreated, hput, hclosed, Bool.false_eq_true, if_false] at h
      obtain ⟨r, -, he⟩ := Option.map_eq_some_iff.mp h
      obtain ⟨rfl, -⟩ := Prod.mk.inj he
      exact (hfailed _ _).mpr trivial
    | true =>
      have hcall : putToDatanode sha256sum stream block =
          (writeStream block stream.statuses 0).map fun r ↦ (.ok (sha256sum block), r.2) := by
        simp only [putToDatanode, if_neg hcreated, hput, hclosed, if_true]
      have hflag : (∃ writes, writeStream block stream.statuses 0 = some (true, writes)) ↔
          RefusesBefore stream.statuses (chunkCount (block.length - 0)) := refused_iff
      rw [Nat.sub_zero] at hflag
      simp only [hcreated, false_or, reduceCtorEq, exists_false, ← hflag, hcall]
      constructor
      · rintro h ⟨writes, hw⟩
        obtain ⟨fault, hfault⟩ := (h _ writes (by rw [hw]; rfl)).throws (writeStream_refused hw)
        cases hfault
      · intro h result writes hr
        obtain ⟨⟨flag, ws⟩, hw, he⟩ := Option.map_eq_some_iff.mp hr
        obtain ⟨rfl, rfl⟩ := Prod.mk.inj he
        cases flag with
        | true => exact absurd ⟨ws, hw⟩ h
        | false =>
          obtain ⟨hflatten, hnone⟩ := writeStream_accepted hw
          have hnot : ¬ ∃ write ∈ ws, RefusesChunk write.2 := by
            rintro ⟨write, hmem, hrefuses⟩
            exact hnone write hmem hrefuses
          exact ⟨fun _ _ ↦ hflatten, fun hsome ↦ absurd hsome hnot,
            fun hsome ↦ absurd hsome hnot⟩

/-- Two chunks. The first one is taken, the connection is reset before the second one, and the call
returns the hash of the block. -/
theorem not_delivered_reset :
    ∃ writes, putToDatanode id { statuses := [0, eagain, 104] }
        (List.replicate (brpcStreamChunkSize + 1) 'a') =
          some (.ok (List.replicate (brpcStreamChunkSize + 1) 'a'), writes) ∧
      ¬ Delivered id (List.replicate (brpcStreamChunkSize + 1) 'a')
        (.ok (List.replicate (brpcStreamChunkSize + 1) 'a')) writes := by
  have hrefuses : RefusesBefore [0, eagain, 104]
      (chunkCount ((List.replicate (brpcStreamChunkSize + 1) 'a').length - 0)) := by
    rw [List.length_replicate]
    exact ⟨[0, eagain], 104, [], rfl, by decide, by decide⟩
  obtain ⟨writes, hw⟩ := refused_iff.mpr hrefuses
  refine ⟨writes, by simp only [putToDatanode, hw]; rfl, fun h ↦ ?_⟩
  obtain ⟨fault, hfault⟩ := h.throws (writeStream_refused hw)
  cases hfault

end Spkdfs
