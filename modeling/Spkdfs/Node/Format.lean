import Spkdfs.Node.Encoding

namespace Spkdfs

open Library RocksDB

/-- The two ways in which `SDK::get` reads the blocks of a file. -/
inductive Format
  | plain
  | aggregated
deriving DecidableEq

def Request.format (path : Str) : Request → Option Format
  | .putOk req => if simplifyPath req.path = path then some .plain else none
  | .putOkBatch reqs => if path ∈ reqs.map (simplifyPath ·.path) then some .aggregated else none
  | _ => none

/-- A store and the format in which each path was committed since it became valid. -/
structure Formats where
  db : RocksDB
  written : Str → Option Format

namespace Formats

def start : Formats := ⟨.empty, fun _ ↦ none⟩

def step (l : Formats) (call : Call) : Option Formats :=
  (serveAnswered l.db call).map fun (db, answers) ↦
    { db, written := fun path ↦
        if ¬ ValidAt l.db path ∧ ValidAt db path then none
        else
          (if answers.head? = some .success then call.request.format path else none).or
            (l.written path) }

/-- What the commits do not check: that a file committed alone is not part of an aggregate, and
that the record of a batch member is not written as the parent of another member. -/
def Unmixed (l : Formats) (call : Call) : Prop :=
  Accepted l.db call →
    match call.request with
    | .putOk req => ∀ i, lookup l.db (simplifyPath req.path) = some i → i.aggInodeId = []
    | .putOkBatch reqs => ∀ path ∈ reqs.map (simplifyPath ·.path),
        path ∈ Request.parents (.putOkBatch reqs) →
          ∀ i, lookup l.db path = some i → i.aggInodeId ≠ []
    | _ => True

def Marked (l : Formats) : Prop :=
  ∀ path i f, lookup l.db path = some i → i.valid = true → i.isDirectory = false →
    l.written path = some f → (i.aggInodeId ≠ [] ↔ f = .aggregated)

end Formats

variable {db : RocksDB} {l l' : Formats} {call : Call} {path : Str} {req : Request}

theorem Formats.step_eq_some (h : l.step call = some l') :
    ∃ ok, Served l.db call.env call.request ok l'.db ∧ ∀ path,
      l'.written path = if ¬ ValidAt l.db path ∧ ValidAt l'.db path then none
        else (if ok then call.request.format path else none).or (l.written path) := by
  simp only [Formats.step, Option.map_eq_some_iff] at h
  obtain ⟨⟨db, answers⟩, h, rfl⟩ := h
  exact ⟨_, served_of_serveAnswered h, fun path ↦ by simp⟩

theorem Request.format_eq_none (h : path ∉ req.own) : req.format path = none := by
  cases req with
  | putOk r =>
    rw [Request.format, if_neg]
    intro hp
    exact h (Request.own_of_commits (List.mem_singleton.mpr hp.symm))
  | putOkBatch rs =>
    rw [Request.format, if_neg]
    intro hm
    exact h (Request.own_of_commits hm)
  | _ => rfl

theorem Request.format_of_lastPut {r : NNPutRequest} (h : req.lastPut path = some r) :
    req.format path = none := by
  cases req with
  | put => rfl
  | putBatch => rfl
  | _ => cases h

theorem Formats.Marked.step (hl : l.Marked) (hg : l.Unmixed call) (h : l.step call = some l') :
    l'.Marked := by
  obtain ⟨ok, hserved, hwritten⟩ := Formats.step_eq_some h
  obtain ⟨env, req⟩ := call
  intro path i f hi hv hd hf
  rw [hwritten] at hf
  split at hf
  · cases hf
  rename_i hbefore
  have hbefore : ValidAt l.db path := by
    by_contra hn
    exact hbefore ⟨hn, i, hi, hv⟩
  have hchanged := hserved.changed path
  generalize hnew : lookup l'.db path = new at hchanged
  rw [hi] at hnew
  cases hchanged with
  | kept other =>
    refine hl path i f hnew.symm hv hd ?_
    cases ok with
    | false => exact hf
    | true => rwa [Request.format_eq_none (other rfl)] at hf
  | made =>
    obtain rfl := Option.some.inj hnew
    cases hd
  | removed =>
    obtain rfl := Option.some.inj hnew
    cases hv
  | @entered _ p sub found parent outer =>
    obtain rfl := Option.some.inj hnew
    by_cases hown : path ∈ req.own
    · obtain ⟨rs, rfl⟩ := outer hown
      rw [Request.own_putOkBatch] at hown
      have haccepted := hserved.accepted fun paths he ↦ (nomatch he)
      have hid : p.aggInodeId ≠ [] := hg haccepted path hown parent p found
      rw [if_pos rfl, Request.format, if_pos hown] at hf
      exact iff_of_true hid (Option.some.inj hf).symm
    · rw [Request.format_eq_none hown] at hf
      exact hl path p f found hv hd hf
  | @erased q p sub found fewer other =>
    obtain rfl := Option.some.inj hnew
    exact hl path p f found hv hd hf
  | @stored _ r _ last own =>
    obtain rfl := Option.some.inj hnew
    rw [Request.format_of_lastPut last] at hf
    have hpath : simplifyPath r.path = path := (of_getLast?_filter last).2
    obtain ⟨k, hk, hkv⟩ := hbefore
    obtain ⟨-, ⟨-, -, hnone⟩ | ⟨g, hgl, -, hid, hfile⟩⟩ := putInode_found own
    · rw [hpath, hk] at hnone
      cases hnone
    · rw [hpath, hk] at hgl
      obtain rfl := Option.some.inj hgl
      rw [hid]
      exact hl path k f hk hkv (hfile hkv) hf
  | @committed r j hpath found valid file =>
    obtain rfl := Option.some.inj hnew
    have haccepted := hserved.accepted fun paths he ↦ (nomatch he)
    have hid : j.aggInodeId = [] := hg haccepted j (hpath ▸ found)
    rw [if_pos rfl, Request.format, if_pos hpath] at hf
    obtain rfl := Option.some.inj hf
    exact iff_of_false (fun hne ↦ hne hid) (fun he ↦ (nomatch he))
  | @batched rs is agg r j accepted last found valid file inner =>
    obtain rfl := Option.some.inj hnew
    obtain ⟨hr, hpath⟩ := of_getLast?_filter last
    have hmem : path ∈ rs.map (simplifyPath ·.path) :=
      List.mem_map.mpr ⟨r, hr, hpath⟩
    rw [if_pos rfl, Request.format, if_pos hmem] at hf
    exact iff_of_true (Namenode.putOkBatch_id_ne_nil accepted) (Option.some.inj hf).symm
  | shadowed => cases hnew
  | @refreshed paths ok j found valid =>
    obtain rfl := Option.some.inj hnew
    refine hl path j f found hv hd ?_
    cases ok with
    | false => exact hf
    | true => exact hf

/-- A file has an aggregate id if and only if it was last committed in a batch. -/
theorem format_told_by_id (h : Reaches Formats.step Formats.Unmixed .start l) {i : Inode}
    {f : Format} (hi : lookup l.db path = some i) (hv : i.valid = true)
    (hd : i.isDirectory = false) (hf : l.written path = some f) :
    i.aggInodeId ≠ [] ↔ f = .aggregated := by
  have hl : l.Marked := by
    refine h.invariant ?_ fun l call l' _ hl hg hstep ↦ hl.step hg hstep
    intro path i f _ _ _ hf
    cases hf
  exact hl path i f hi hv hd hf

/-- Whether the entry ends in a range `,begin|end`. -/
def hasRange (entry : Str) : Bool :=
  match (entry.splitOn ',').reverse with
  | range :: _ :: _ =>
    match range.splitOn '|' with
    | [first, second] =>
      first ≠ [] && second ≠ [] && first.all Char.isDigit && second.all Char.isDigit
    | _ => false
  | _ => false

/-- Requests of clients that send a range with the entries of batches only. -/
def Request.ranged : Request → Bool
  | .put _ | .putBatch _ | .rm _ => true
  | .putOk req => req.sub.all (!hasRange ·)
  | .putOkBatch reqs => reqs.all fun req ↦ decide (req.sub.length = 1) && req.sub.all hasRange
  | _ => false

/-- Whether the call commits nothing alone, and no batch with the parent of a member. -/
def Formats.batchesFlat (_ : Formats) (call : Call) : Bool :=
  match call.request with
  | .putOk _ => false
  | .putOkBatch reqs => (reqs.map (simplifyPath ·.path)).all fun path ↦
      decide (path ∉ Request.parents (.putOkBatch reqs))
  | _ => true

theorem Formats.unmixed_of_batchesFlat (h : l.batchesFlat call = true) : l.Unmixed call := by
  obtain ⟨env, req⟩ := call
  intro _
  cases req with
  | putOk r => cases h
  | putOkBatch rs =>
    intro path hown hparent
    exact absurd hparent (of_decide_eq_true (List.all_eq_true.mp h path hown))
  | _ => trivial

theorem format_told_by_id_batch :
    ∃ (l : Formats) (i : Inode), lookup l.db "/f".toList = some i ∧
      l.written "/f".toList = some .aggregated ∧ i.aggInodeId ≠ [] := by
  obtain ⟨l, hr, hp⟩ := exists_reached Formats.step Formats.batchesFlat .start
    [.at 100 (.putBatch [⟨"/f".toList, "AGG<2,1,1>".toList⟩]),
      .at 101 (.putOkBatch [⟨"/f".toList, 7, ["n|h,0|7".toList]⟩])]
    (fun l ↦ decide (l.written "/f".toList = some .aggregated) &&
      (lookup l.db "/f".toList).any fun i : Inode ↦ i.valid && !i.isDirectory)
    (by decide +kernel)
  simp only [Bool.and_eq_true, decide_eq_true_eq, Option.any_eq_true, Bool.not_eq_true'] at hp
  obtain ⟨hf, i, hi, hv, hd⟩ := hp
  have hr := hr.mono fun l call h ↦ Formats.unmixed_of_batchesFlat h
  exact ⟨l, i, hi, hf, (format_told_by_id hr hi hv hd hf).mpr rfl⟩

/-- A file of an aggregate that is put again and committed alone. -/
theorem format_not_told_by_id :
    ¬ ∀ l, Reaches Formats.step (fun _ call ↦ call.request.ranged = true) .start l →
      ∀ path i f, lookup l.db path = some i → i.valid = true → i.isDirectory = false →
        l.written path = some f → (i.aggInodeId ≠ [] ↔ f = .aggregated) := by
  intro h
  obtain ⟨l, hr, hp⟩ := exists_reached Formats.step (fun _ call ↦ call.request.ranged) .start
    [.at 100 (.putBatch [⟨"/f".toList, "AGG<2,1,1>".toList⟩]),
      .at 101 (.putOkBatch [⟨"/f".toList, 7, ["n|h,0|7".toList]⟩]),
      .at 102 (.put ⟨"/f".toList, "RE<1,1>".toList⟩),
      .at 103 (.putOk ⟨"/f".toList, 9, ["n|h".toList]⟩)]
    (fun l ↦ decide (l.written "/f".toList = some .plain) &&
      (lookup l.db "/f".toList).any fun i : Inode ↦
        i.valid && !i.isDirectory && decide (i.aggInodeId ≠ []))
    (by decide +kernel)
  simp only [Bool.and_eq_true, decide_eq_true_eq, Option.any_eq_true, Bool.not_eq_true'] at hp
  obtain ⟨hf, i, hi, ⟨hv, hd⟩, hid⟩ := hp
  have hagg := (h l hr _ i _ hi hv hd hf).mp hid
  cases hagg

end Spkdfs
