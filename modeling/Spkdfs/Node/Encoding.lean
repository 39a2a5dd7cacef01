import Spkdfs.Node.Change

namespace Spkdfs

open Library RocksDB

def Request.namedType (req : Request) (path : Str) : Option StorageType :=
  (req.lastPut path).bind fun r ↦ (StorageType.fromString r.storageType).toOption

/-- A store, the storage type that the last put of each path named, and the one that it had
named when the path was last committed. -/
structure Codes where
  db : RocksDB
  named : Str → Option StorageType
  coded : Str → Option StorageType

namespace Codes

def start : Codes := ⟨.empty, fun _ ↦ none, fun _ ↦ none⟩

def step (l : Codes) (call : Call) : Option Codes :=
  (serveAnswered l.db call).map fun (db, answers) ↦
    let ok := decide (answers.head? = some .success)
    { db
      named := fun path ↦ (if ok then call.request.namedType path else none).or (l.named path)
      coded := fun path ↦
        if ok ∧ path ∈ call.request.commits.map (simplifyPath ·.path) then l.named path
        else l.coded path }

/-- What `put` and `put_ok` do not check: that the blocks which the inode keeps were encoded
with the storage type it gets, and that names are not entered in a file without blocks. -/
def Suited (l : Codes) (call : Call) : Prop :=
  Accepted l.db call →
    (∀ path r i, call.request.lastPut path = some r → lookup l.db path = some i → i.sub ≠ [] →
      i.valid = true ∧ i.storageType = (StorageType.fromString r.storageType).toOption) ∧
    ∀ path ∈ call.request.parents, ∀ p, lookup l.db path = some p → p.valid = true →
      p.isDirectory = false → p.sub ≠ []

structure Described (l : Codes) (path : Str) (i : Inode) : Prop where
  named : i.storageType = l.named path
  known : i.storageType ≠ none
  coded : i.sub ≠ [] → l.coded path = i.storageType

/-- The storage type of every valid file is the one that was named last and, where the file
has blocks, the one they were encoded with. -/
def Sound (l : Codes) : Prop :=
  ∀ path i, lookup l.db path = some i → i.valid = true → i.isDirectory = false →
    l.Described path i

end Codes

variable {db : RocksDB} {l l' : Codes} {call : Call} {path : Str} {req : Request}

theorem Codes.step_eq_some (h : l.step call = some l') :
    ∃ ok, Served l.db call.env call.request ok l'.db ∧
      (∀ path, l'.named path =
        (if ok then call.request.namedType path else none).or (l.named path)) ∧
      ∀ path, l'.coded path =
        if ok ∧ path ∈ call.request.commits.map (simplifyPath ·.path) then l.named path
        else l.coded path := by
  simp only [Codes.step, Option.map_eq_some_iff] at h
  obtain ⟨⟨db, answers⟩, h, rfl⟩ := h
  exact ⟨_, served_of_serveAnswered h, fun _ ↦ rfl, fun _ ↦ rfl⟩

theorem Request.lastPut_eq_none (h : path ∉ req.own) : req.lastPut path = none := by
  rw [Request.lastPut, List.getLast?_eq_none_iff, List.filter_eq_nil_iff]
  intro r hr hp
  refine h (List.mem_map.mpr ⟨r.path, ?_, of_decide_eq_true hp⟩)
  simp only [List.mem_append, List.mem_map]
  exact .inl (.inr ⟨r, hr, rfl⟩)

theorem Request.own_of_commits (h : path ∈ req.commits.map (simplifyPath ·.path)) :
    path ∈ req.own := by
  obtain ⟨r, hr, hp⟩ := List.mem_map.mp h
  refine List.mem_map.mpr ⟨r.path, ?_, hp⟩
  simp only [List.mem_append, List.mem_map]
  exact .inr ⟨r, hr, rfl⟩

theorem Request.lastPut_of_parents {d : Str} (h : d ∈ req.parents) (path : Str) :
    req.lastPut path = none := by
  cases req with
  | mkdir => rfl
  | putOk => rfl
  | putOkBatch => rfl
  | _ => cases h

theorem Request.commits_of_lastPut {r : NNPutRequest} (h : req.lastPut path = some r) :
    req.commits = [] := by
  cases req with
  | put => rfl
  | putBatch => rfl
  | _ => cases h

/-- The inode that a put stores keeps the blocks of the one it found. -/
theorem putInode_found {now : Nat} {r : NNPutRequest} {i : Inode}
    (h : Namenode.putInode db now r = .ok i) :
    (∃ t, StorageType.fromString r.storageType = .ok t ∧ i.storageType = some t) ∧
      (i.sub = [] ∧ i.aggInodeId = [] ∧ lookup db (simplifyPath r.path) = none ∨
        ∃ f, lookup db (simplifyPath r.path) = some f ∧ i.sub = f.sub ∧
          i.aggInodeId = f.aggInodeId ∧ (f.valid = true → f.isDirectory = false)) := by
  obtain ⟨-, j, hj, t, ht, rfl⟩ := Namenode.putInode_eq_ok.mp h
  obtain ⟨f, hget, hkind, -, rfl⟩ := preparePut_eq_ok.mp hj
  refine ⟨⟨t, ht, rfl⟩, ?_⟩
  rcases getInode_eq_ok.mp hget with hl | ⟨hn, hr, rfl⟩
  · refine .inr ⟨f, hl, rfl, rfl, fun hv ↦ ?_⟩
    by_contra hd
    exact hkind ⟨hv, by simpa using hd⟩
  · exact .inl ⟨rfl, rfl, by simp [lookup, hn, hr]⟩

theorem Codes.Sound.step (hl : l.Sound) (hg : l.Suited call) (h : l.step call = some l') :
    l'.Sound := by
  obtain ⟨ok, hserved, hnamed, hcoded⟩ := Codes.step_eq_some h
  obtain ⟨env, req⟩ := call
  intro path i hi hv hd
  have hchanged := hserved.changed path
  generalize hnew : lookup l'.db path = new at hchanged
  rw [hi] at hnew
  cases hchanged with
  | kept other =>
    obtain ⟨h₁, h₂, h₃⟩ := hl path i hnew.symm hv hd
    have hnamed' : l'.named path = l.named path := by
      rw [hnamed]
      cases ok with
      | false => rfl
      | true => simp [Request.namedType, Request.lastPut_eq_none (other rfl)]
    have hcoded' : l'.coded path = l.coded path := by
      rw [hcoded, if_neg]
      rintro ⟨hok, hm⟩
      exact other hok (Request.own_of_commits hm)
    exact ⟨h₁.trans hnamed'.symm, h₂, fun hs ↦ hcoded'.trans (h₃ hs)⟩
  | made =>
    obtain rfl := Option.some.inj hnew
    cases hd
  | removed =>
    obtain rfl := Option.some.inj hnew
    cases hv
  | @entered _ p sub found parent outer =>
    obtain rfl := Option.some.inj hnew
    obtain ⟨h₁, h₂, h₃⟩ := hl path p found hv hd
    have haccepted := hserved.accepted fun paths he ↦ by
      subst he
      cases parent
    refine ⟨?_, h₂, fun _ ↦ ?_⟩
    · rw [hnamed, Request.namedType, Request.lastPut_of_parents parent]
      exact h₁
    · rw [hcoded]
      split
      · exact h₁.symm
      · exact h₃ ((hg haccepted).2 path parent p found hv hd)
  | @erased q p sub found fewer other =>
    obtain rfl := Option.some.inj hnew
    obtain ⟨h₁, h₂, h₃⟩ := hl path p found hv hd
    refine ⟨?_, h₂, fun hs ↦ ?_⟩
    · rw [hnamed]
      exact h₁
    · rw [hcoded, if_neg (by simp [Request.commits])]
      obtain ⟨name, hname⟩ := List.exists_mem_of_ne_nil _ hs
      exact h₃ (List.ne_nil_of_mem (fewer name hname))
  | @stored _ r _ last own =>
    obtain rfl := Option.some.inj hnew
    obtain ⟨⟨t, ht, htype⟩, hfound⟩ := putInode_found own
    have hpath : simplifyPath r.path = path := (of_getLast?_filter last).2
    have haccepted := hserved.accepted fun paths he ↦ by
      subst he
      cases last
    refine ⟨?_, by simp [htype], fun hs ↦ ?_⟩
    · rw [hnamed, Request.namedType, last, htype]
      simp [ht, Except.toOption]
    · rw [hcoded, Request.commits_of_lastPut last, if_neg (by simp)]
      rcases hfound with ⟨hnil, -⟩ | ⟨f, hf, hsub, -, hfile⟩
      · exact absurd hnil hs
      · rw [hpath] at hf
        obtain ⟨hfv, hft⟩ := (hg haccepted).1 path r f last hf (hsub ▸ hs)
        rw [(hl path f hf hfv (hfile hfv)).coded (hsub ▸ hs), hft, htype, ht]
        rfl
  | @committed r j hpath found valid file =>
    obtain rfl := Option.some.inj hnew
    obtain ⟨h₁, h₂, -⟩ := hl path j found valid file
    refine ⟨?_, h₂, fun _ ↦ ?_⟩
    · rw [hnamed]
      exact h₁
    · rw [hcoded, if_pos ⟨rfl, by simp [Request.commits, hpath]⟩]
      exact h₁.symm
  | @batched rs is agg r j accepted last found valid file inner =>
    obtain rfl := Option.some.inj hnew
    obtain ⟨h₁, h₂, -⟩ := hl path j found valid file
    refine ⟨?_, h₂, fun _ ↦ ?_⟩
    · rw [hnamed]
      exact h₁
    · obtain ⟨hr, hpath⟩ := of_getLast?_filter last
      rw [hcoded, if_pos ⟨rfl, List.mem_map.mpr ⟨r, hr, hpath⟩⟩]
      exact h₁.symm
  | shadowed => cases hnew
  | @refreshed paths ok j found valid =>
    obtain rfl := Option.some.inj hnew
    obtain ⟨h₁, h₂, h₃⟩ := hl path j found hv hd
    refine ⟨?_, h₂, fun hs ↦ ?_⟩
    · rw [hnamed]
      cases ok with
      | false => exact h₁
      | true => exact h₁
    · rw [hcoded, if_neg (by simp [Request.commits])]
      exact h₃ hs

/-- A reader decodes the blocks of a file with the code they were encoded with. -/
theorem blocks_decoded_as_encoded (h : Reaches Codes.step Codes.Suited .start l) {i : Inode}
    (hi : lookup l.db path = some i) (hv : i.valid = true) (hd : i.isDirectory = false)
    (hs : i.sub ≠ []) : ∃ t, l.coded path = some t ∧ i.storageType = some t := by
  have hl : l.Sound := by
    refine h.invariant ?_ fun l call l' _ hl hg hstep ↦ hl.step hg hstep
    intro path i hi hv hd
    have hroot : path = root := by
      by_contra hne
      simp [Codes.start, lookup, hne] at hi
    rw [Codes.start, lookup, Table.find_empty, hroot] at hi
    obtain rfl := Option.some.inj hi
    cases hd
  obtain ⟨-, hknown, hcoded⟩ := hl path i hi hv hd
  obtain ⟨t, ht⟩ := Option.ne_none_iff_exists'.mp hknown
  exact ⟨t, (hcoded hs).trans ht, ht⟩

/-- Whether the call puts a file where there are no blocks, or commits one below a directory. -/
def Codes.putsFresh (l : Codes) (call : Call) : Bool :=
  match call.request with
  | .put req => (lookup l.db (simplifyPath req.path)).all fun i ↦ decide (i.sub = [])
  | .putOk req => decide (DirAt l.db (getParentPath (simplifyPath req.path)))
  | _ => false

theorem Codes.suited_of_putsFresh (h : l.putsFresh call = true) : l.Suited call := by
  intro _
  obtain ⟨env, req⟩ := call
  cases req with
  | put r =>
    refine ⟨fun path r' i hr hi hs ↦ ?_, by simp [Request.parents, Request.made, Request.commits]⟩
    have hpath : simplifyPath r.path = path := by
      obtain ⟨hmem, hp⟩ := of_getLast?_filter hr
      rwa [← List.mem_singleton.mp hmem]
    have h : (lookup l.db (simplifyPath r.path)).all (fun i ↦ decide (i.sub = [])) = true := h
    rw [hpath, hi] at h
    exact absurd (of_decide_eq_true h) hs
  | putOk r =>
    constructor
    · intro path r' i hr
      cases hr
    · intro path hp p hl hv hf
      rw [List.mem_singleton.mp hp] at hl
      have hdir := (of_decide_eq_true h : DirAt l.db (getParentPath (simplifyPath r.path)))
      exact absurd ⟨p, hl, hv, hf⟩ hdir.not_fileAt
  | _ => cases h

theorem blocks_decoded_as_encoded_put_ok :
    ∃ (l : Codes) (i : Inode), lookup l.db "/f".toList = some i ∧ i.sub = ["b0".toList] ∧
      l.coded "/f".toList = some (.re 3 1) ∧ i.storageType = some (.re 3 1) := by
  obtain ⟨l, hr, hp⟩ := exists_reached Codes.step Codes.putsFresh .start
    [.at 100 (.put ⟨"/f".toList, "RE<3,1>".toList⟩),
      .at 101 (.putOk ⟨"/f".toList, 7, ["b0".toList]⟩)]
    (fun l ↦ decide (l.coded "/f".toList = some (.re 3 1)) &&
      (lookup l.db "/f".toList).any fun i : Inode ↦
        i.valid && !i.isDirectory && decide (i.sub = ["b0".toList]))
    (by decide +kernel)
  simp only [Bool.and_eq_true, decide_eq_true_eq, Option.any_eq_true, Bool.not_eq_true'] at hp
  obtain ⟨hc, i, hi, ⟨hv, hd⟩, hs⟩ := hp
  obtain ⟨t, ht, htype⟩ := blocks_decoded_as_encoded
    (hr.mono fun l call h ↦ Codes.suited_of_putsFresh h) hi hv hd (by simp [hs])
  rw [hc] at ht
  exact ⟨l, i, hi, hs, hc, htype.trans ht.symm⟩

/-- A second put of the file, with another storage type, over the blocks of the first. -/
theorem blocks_not_decoded_as_encoded :
    ¬ ∀ l, Reaches Codes.step (fun _ call ↦ ∀ p, call.request ≠ .mkdir p) .start l →
      ∀ path i, lookup l.db path = some i → i.valid = true → i.isDirectory = false →
        i.sub ≠ [] → ∃ t, l.coded path = some t ∧ i.storageType = some t := by
  intro h
  obtain ⟨l, hr, hp⟩ := exists_reached Codes.step
    (fun _ call ↦ decide (call.request.made = [])) .start
    [.at 100 (.put ⟨"/f".toList, "RE<3,1>".toList⟩),
      .at 101 (.putOk ⟨"/f".toList, 7, ["b0".toList]⟩),
      .at 102 (.put ⟨"/f".toList, "RS<2,1,1>".toList⟩)]
    (fun l ↦ decide (l.coded "/f".toList = some (.re 3 1)) &&
      (lookup l.db "/f".toList).any fun i : Inode ↦ i.valid && !i.isDirectory &&
        decide (i.sub = ["b0".toList]) && decide (i.storageType = some (.rs 2 1 1)))
    (by decide +kernel)
  simp only [Bool.and_eq_true, decide_eq_true_eq, Option.any_eq_true, Bool.not_eq_true'] at hp
  obtain ⟨hc, i, hi, ⟨⟨hv, hd⟩, hs⟩, htype⟩ := hp
  have hscope : ∀ (_ : Codes) (call : Call), decide (call.request.made = []) = true →
      ∀ p, call.request ≠ .mkdir p := by
    intro _ call hmade p he
    simp [he, Request.made] at hmade
  obtain ⟨t, ht, ht'⟩ := h l (hr.mono hscope) _ i hi hv hd (by simp [hs])
  rw [hc] at ht
  rw [htype, ← ht] at ht'
  cases ht'

end Spkdfs
