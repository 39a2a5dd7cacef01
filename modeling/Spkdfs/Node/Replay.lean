import Spkdfs.Library.Replay
import Spkdfs.Node.Batch

namespace Spkdfs

open Library RocksDB

namespace RaftNN

def apply (db : RocksDB) (entry : Entry) : Option RocksDB := (onApply db entry).map (·.1)

def applyLog (db : RocksDB) (log : List Entry) : Option RocksDB := log.foldlM apply db

end RaftNN

def hexDigits : Str := "0123456789abcdef".toList

/-- Inodes are at absolute paths, and the ids of aggregates are hexadecimal numbers. -/
structure Entry.Keyed (e : Entry) : Prop where
  absolute : ∀ i ∈ e.inodes, i.fullpath.Absolute
  hex : ∀ agg, e = .opPutAgg agg → agg.id ≠ [] ∧ ∀ c ∈ agg.id, c ∈ hexDigits

def Value.SameUpToOrder : Value → Value → Prop
  | .inode i, .inode j => i.sub.Perm j.sub ∧ { i with sub := [] } = { j with sub := [] }
  | .agg a, .agg b => a = b
  | _, _ => False

def RocksDB.SameUpToOrder (db db' : RocksDB) : Prop :=
  ∀ key, Option.Rel Value.SameUpToOrder (db.find key) (db'.find key)

/-- The keys of inodes and the keys of aggregates do not mix. -/
structure RocksDB.Apart (db : RocksDB) : Prop where
  inode : ∀ key i, db.find key = some (.inode i) → key.head? = some '/'
  agg : ∀ key a, db.find key = some (.agg a) → key ≠ [] ∧ key.head? ≠ some '/'

inductive NameEdit
  | add (name : Str)
  | remove (name : Str)

def NameEdit.act (sub : List Str) : NameEdit → List Str
  | .add name => addName sub name
  | .remove name => removeName sub name

/-- What an entry does to the record under one key. -/
inductive Edit
  | keep
  | write (v : Value)
  | names (edits : List NameEdit)
  | commit (sub : List Str) (filesize : Nat) (aggInodeId : Str)

/-- The inode that is edited: an absent one is read as its default. -/
def readCell (key : Str) (cell : Option Value) : Inode :=
  match cell with
  | some (.inode i) => i
  | _ => if key = root then .getDefaultDir root else .ofPath key

def Edit.act (key : Str) (cell : Option Value) : Edit → Option Value
  | .keep => cell
  | .write v => some v
  | .names edits =>
    let i := readCell key cell
    some (.inode { i with sub := edits.foldl NameEdit.act i.sub })
  | .commit sub filesize aggInodeId =>
    let i := readCell key cell
    some (.inode { i with
      ddlLock := 0
      sub := sub
      filesize := filesize
      aggInodeId := if aggInodeId = [] then i.aggInodeId else aggInodeId })

def Edit.linked (i : Inode) (own : Edit) (name : NameEdit) (key : Str) : Edit :=
  if key = i.fullpath.str then own else if key = i.parentPath then .names [name] else .keep

def Entry.edit (key : Str) : Entry → Edit
  | .opMkdir i => .linked i (.write (.inode i)) (.add i.filename) key
  | .opRm i => .linked i (.write (.inode i)) (.remove i.filename) key
  | .opPutOk i => .linked i (.commit i.sub i.filesize []) (.add i.filename) key
  | .opPut i => if key = i.fullpath.str then .write (.inode i) else .keep
  | .opPutBatch is =>
    ((is.filter (·.fullpath.str = key)).getLast?).elim .keep fun i ↦ .write (.inode i)
  | .opPutOkBatch is =>
    if ∃ i ∈ is, i.parentPath = key then
      .names ((is.filter (·.parentPath = key)).map fun i ↦ .add i.filename)
    else
      ((is.filter (·.fullpath.str = key)).getLast?).elim .keep
        fun i ↦ .commit i.sub i.filesize i.aggInodeId
  | .opPutAgg agg => if key = agg.id then .write (.agg agg) else .keep

variable {db db' : RocksDB} {e : Entry} {key path : Str} {i c : Inode}

theorem readCell_of_lookup (h : lookup db path = some i) : readCell path (db.find path) = i := by
  unfold lookup at h
  split at h
  · rename_i hf
    rw [hf]
    exact Option.some.inj h
  · cases h
  · rename_i hf
    rw [hf]
    split at h
    · rename_i hr
      exact (if_pos hr).trans (Option.some.inj h)
    · cases h

theorem commit_eq_readCell (h : commit db i = .ok c) :
    c = { readCell i.fullpath.str (db.find i.fullpath.str) with
      ddlLock := 0, sub := i.sub, filesize := i.filesize } := by
  obtain ⟨f, hf, rfl⟩ := commit_eq_ok.mp h
  rw [getInode_eq_ok, i.fullpath.simplified] at hf
  rcases hf with hf | ⟨hn, hr, rfl⟩
  · rw [readCell_of_lookup hf]
  · have hcell : readCell i.fullpath.str none = .ofPath i.fullpath.str := if_neg hr
    rw [hn, hcell]

theorem commitAgg_eq_readCell (h : commitAgg db i = .ok c) :
    c = { readCell i.fullpath.str (db.find i.fullpath.str) with
      ddlLock := 0
      sub := i.sub
      filesize := i.filesize
      aggInodeId := if i.aggInodeId = [] then
          (readCell i.fullpath.str (db.find i.fullpath.str)).aggInodeId
        else i.aggInodeId } := by
  rw [commitAgg, bind_eq_ok] at h
  obtain ⟨d, hd, h⟩ := h
  rw [commit_eq_readCell hd] at h
  split at h <;> rename_i hid <;> obtain rfl := Except.ok.inj h <;> simp [hid]

theorem find_linked {own : Inode} {names : List Str → List Str} (h : Linked db own names db')
    (edit : Edit) (name : NameEdit) (hpath : own.fullpath = i.fullpath)
    (hown : ∀ cell, cell = db.find i.fullpath.str →
      edit.act i.fullpath.str cell = some (.inode own))
    (hname : ∀ sub, name.act sub = names sub) (key : Str) :
    db'.find key = (Edit.linked i edit name key).act key (db.find key) := by
  have hparent : own.parentPath = i.parentPath := by rw [Inode.parentPath, hpath, Inode.parentPath]
  unfold Edit.linked
  split
  · rename_i hk
    subst hk
    rw [hown _ rfl, ← hpath]
    exact h.find_self
  · rename_i hk
    split
    · rename_i hp
      subst hp
      obtain ⟨p, hl, hfind⟩ := h.find_parent (by rw [hparent, hpath]; exact hk)
      rw [hparent] at hl hfind
      rw [hfind, Edit.act, readCell_of_lookup hl]
      simp [hname]
    · rename_i hp
      exact h.find_other (by rw [hpath]; exact hk) (by rw [hparent]; exact hp)

theorem foldl_add (is : List Inode) (key : Str) (sub : List Str) :
    ((is.filter (·.parentPath = key)).map fun i ↦ NameEdit.add i.filename).foldl NameEdit.act sub =
      dentries is key sub := by
  rw [List.foldl_map, dentries]
  rfl

theorem find_internalPutOkBatch {is : List Inode} (h : internalPutOkBatch db is = .ok db')
    (key : Str) : db'.find key = ((Entry.opPutOkBatch is).edit key).act key (db.find key) := by
  have heffect := internalPutOkBatch_ok h
  simp only [Entry.edit]
  split
  · rename_i hp
    obtain ⟨i, hi, rfl⟩ := hp
    obtain ⟨p, hl, hl'⟩ := heffect.parent i hi
    rw [find_of_lookup hl' (find_parent_of_internalPutOkBatch h hi), Edit.act,
      readCell_of_lookup hl, foldl_add]
  · rename_i hp
    push Not at hp
    by_cases hm : ∃ i ∈ is, i.fullpath.str = key
    · obtain ⟨i, hi, rfl⟩ := hm
      obtain ⟨j, hj, c, hc, hfind⟩ := find_member_of_internalPutOkBatch h hi hp
      have hpath : j.fullpath = i.fullpath := (of_getLast?_filter hj).2
      rw [hfind, filter_fullpath_str, hj, Option.elim_some, Edit.act, commitAgg_eq_readCell hc, hpath]
    · push Not at hm
      have hnil : is.filter (·.fullpath.str = key) = [] := by
        rw [List.filter_eq_nil_iff]
        intro i hi he
        exact hm i hi (of_decide_eq_true he)
      rw [heffect.other key hp hm, hnil]
      rfl

theorem find_put (db : RocksDB) (v : Value) (key : Str) :
    (db.put v).find key = (if key = v.key then Edit.write v else .keep).act key (db.find key) := by
  split
  · rename_i hk
    rw [hk]
    exact Table.find_put_self db v
  · rename_i hk
    exact Table.find_put_of_ne db hk

/-- Every entry acts on each key by itself. -/
theorem find_applyOp (h : RaftNN.applyOp db e = .ok db') (key : Str) :
    db'.find key = (e.edit key).act key (db.find key) := by
  cases e with
  | opMkdir i =>
    exact find_linked (internalMkdir_eq_ok.mp h) _ _ rfl (fun _ _ ↦ rfl) (fun _ ↦ rfl) key
  | opRm i => exact find_linked (internalRm_ok h) _ _ rfl (fun _ _ ↦ rfl) (fun _ ↦ rfl) key
  | opPutOk i =>
    obtain ⟨c, hc, hlinked⟩ := internalPutOk_eq_ok.mp h
    refine find_linked hlinked _ _ (fullpath_of_commit hc) ?_ (fun _ ↦ rfl) key
    intro cell hcell
    subst hcell
    rw [commit_eq_readCell hc]
    rfl
  | opPut i =>
    obtain rfl := Except.ok.inj h
    exact find_put db (.inode i) key
  | opPutBatch is =>
    obtain rfl := Except.ok.inj h
    have hcomp : ((fun v : Value ↦ decide (v.key = key)) ∘ Value.inode) =
        fun i : Inode ↦ decide (i.fullpath.str = key) := rfl
    rw [Table.find_write, List.filter_map, List.getLast?_map, hcomp, Entry.edit]
    cases (is.filter (·.fullpath.str = key)).getLast? <;> rfl
  | opPutOkBatch is => exact find_internalPutOkBatch h key
  | opPutAgg agg =>
    obtain rfl := Except.ok.inj h
    exact find_put db (.agg agg) key

/-- The kind of record that an edit leaves goes with the key. -/
def Edit.Fits (key : Str) : Edit → Prop
  | .keep => True
  | .write (.agg _) => key ≠ [] ∧ key.head? ≠ some '/'
  | _ => key.head? = some '/'

theorem fits_linked {own : Edit} {name : NameEdit} (hi : i.fullpath.Absolute)
    (hown : own.Fits i.fullpath.str) : (Edit.linked i own name key).Fits key := by
  unfold Edit.linked
  split
  · rename_i hk
    exact hk ▸ hown
  · split
    · rename_i hk
      rw [hk]
      exact hi.parent
    · trivial

theorem Entry.Keyed.fits (he : e.Keyed) (key : Str) : (e.edit key).Fits key := by
  cases e with
  | opMkdir i => exact fits_linked (he.absolute i (by simp [Entry.inodes])) (he.absolute i (by simp [Entry.inodes]))
  | opRm i => exact fits_linked (he.absolute i (by simp [Entry.inodes])) (he.absolute i (by simp [Entry.inodes]))
  | opPutOk i => exact fits_linked (he.absolute i (by simp [Entry.inodes])) (he.absolute i (by simp [Entry.inodes]))
  | opPut i =>
    simp only [Entry.edit]
    split
    · rename_i hk
      rw [hk]
      exact he.absolute i (by simp [Entry.inodes])
    · trivial
  | opPutBatch is =>
    simp only [Entry.edit]
    cases hlast : (is.filter (·.fullpath.str = key)).getLast? with
    | none => trivial
    | some i =>
      obtain ⟨hi, hk⟩ := of_getLast?_filter hlast
      rw [← hk]
      exact he.absolute i hi
  | opPutOkBatch is =>
    simp only [Entry.edit]
    split
    · rename_i hp
      obtain ⟨i, hi, rfl⟩ := hp
      exact (he.absolute i hi).parent
    · cases hlast : (is.filter (·.fullpath.str = key)).getLast? with
      | none => trivial
      | some i =>
        obtain ⟨hi, hk⟩ := of_getLast?_filter hlast
        rw [← hk]
        exact he.absolute i hi
  | opPutAgg agg =>
    simp only [Entry.edit]
    split
    · rename_i hk
      obtain ⟨hne, hhex⟩ := he.hex agg rfl
      refine ⟨hk ▸ hne, fun hhead ↦ ?_⟩
      rw [hk] at hhead
      exact absurd (hhex '/' (List.mem_of_mem_head? hhead)) (by decide)
    · trivial

theorem RocksDB.Apart.edit (hdb : db.Apart) {edit : Str → Edit} (hfits : ∀ key, (edit key).Fits key)
    (h : ∀ key, db'.find key = (edit key).act key (db.find key)) : db'.Apart := by
  refine ⟨fun key i hi ↦ ?_, fun key a ha ↦ ?_⟩
  · rw [h key] at hi
    have hf := hfits key
    cases hedit : edit key with
    | keep => exact hdb.inode key i (by simpa [hedit, Edit.act] using hi)
    | write v =>
      obtain rfl : v = .inode i := by simpa [hedit, Edit.act] using hi
      simpa [hedit, Edit.Fits] using hf
    | names edits => simpa [hedit, Edit.Fits] using hf
    | commit sub filesize id => simpa [hedit, Edit.Fits] using hf
  · rw [h key] at ha
    have hf := hfits key
    cases hedit : edit key with
    | keep => exact hdb.agg key a (by simpa [hedit, Edit.act] using ha)
    | write v =>
      obtain rfl : v = .agg a := by simpa [hedit, Edit.act] using ha
      simpa [hedit, Edit.Fits] using hf
    | names edits => simp [hedit, Edit.act] at ha
    | commit sub filesize id => simp [hedit, Edit.act] at ha

theorem RocksDB.Apart.readInode_ok (hdb : db.Apart) (hp : path.head? = some '/' ∨ path = []) :
    ∃ r, readInode db path = .ok r := by
  unfold readInode
  split
  · exact ⟨_, rfl⟩
  · exact ⟨_, rfl⟩
  · rename_i a ha
    obtain ⟨hne, hhead⟩ := hdb.agg path a ha
    exact (hp.elim hhead hne).elim

theorem RocksDB.Apart.commit_ok (hdb : db.Apart) (hi : i.fullpath.Absolute) :
    ∃ c, commit db i = .ok c := by
  have hkey : (Inode.ofPath i.fullpath.str).fullpath.str = i.fullpath.str := i.fullpath.simplified
  obtain ⟨r, hr⟩ := hdb.readInode_ok (.inl hi)
  rw [commit, getInode, hkey, hr]
  cases r with
  | none => by_cases hroot : i.fullpath.str = root <;> simp [hroot]
  | some found => simp

theorem RocksDB.Apart.aggRm_ok (hdb : db.Apart) (path : Str) : aggRm db path = .ok none := by
  have hnone : db.find [] = none := by
    cases hf : db.find [] with
    | none => rfl
    | some v =>
      cases v with
      | inode i => cases hdb.inode [] i hf
      | agg a => exact absurd rfl (hdb.agg [] a hf).1
  have hget : getInode db (.ofPath []) = .ok (.ofPath []) :=
    getInode_eq_ok.mpr (.inr ⟨hnone, by decide, rfl⟩)
  rw [aggRm, hget]
  rfl

theorem RocksDB.Apart.getParentInode_error (hdb : db.Apart) (hi : i.fullpath.Absolute) {f : Fault}
    (h : getParentInode db i = .error f) : f = .assertion := by
  obtain ⟨r, hr⟩ : ∃ r, readInode db i.parentPath = .ok r := hdb.readInode_ok (.inl hi.parent)
  rw [getParentInode, hr] at h
  cases r with
  | none =>
    by_cases hroot : i.parentPath = root
    · simp [hroot] at h
    · simp only [ok_bind, hroot, if_false, throw_eq_error, Except.error.injEq] at h
      exact h.symm
  | some p => cases h

/-- No entry throws: what fails, fails an assertion. -/
theorem applyOp_error (hdb : db.Apart) (he : e.Keyed) {f : Fault}
    (h : RaftNN.applyOp db e = .error f) : f = .assertion := by
  cases e with
  | opMkdir i =>
    simp only [RaftNN.applyOp, internalMkdir, bind_eq_error] at h
    rcases h with h | ⟨p, -, h⟩
    · exact hdb.getParentInode_error (he.absolute i (by simp [Entry.inodes])) h
    · cases h
  | opRm i =>
    simp only [RaftNN.applyOp, internalRm, bind_eq_error, hdb.aggRm_ok] at h
    rcases h with h | ⟨p, -, h | ⟨_, -, h⟩⟩
    · exact hdb.getParentInode_error (he.absolute i (by simp [Entry.inodes])) h
    · cases h
    · cases h
  | opPutOk i =>
    have hi := he.absolute i (by simp [Entry.inodes])
    obtain ⟨c, hc⟩ := hdb.commit_ok hi
    simp only [RaftNN.applyOp, internalPutOk, bind_eq_error, hc] at h
    rcases h with h | ⟨p, -, h | ⟨_, -, h⟩⟩
    · exact hdb.getParentInode_error hi h
    · cases h
    · cases h
  | opPut i => cases h
  | opPutBatch is => cases h
  | opPutAgg agg => cases h
  | opPutOkBatch is =>
    obtain ⟨i, hi, h | h⟩ := internalPutOkBatch_eq_error h
    · exact hdb.getParentInode_error (he.absolute i hi) h
    · obtain ⟨c, hc⟩ := hdb.commit_ok (he.absolute i hi)
      rw [hc] at h
      cases h

theorem apply_eq_some (hdb : db.Apart) (he : e.Keyed) :
    RaftNN.apply db e = some db' ↔ RaftNN.applyOp db e = .ok db' := by
  unfold RaftNN.apply RaftNN.onApply
  split
  · rename_i db₁ h
    simp [h]
  · rename_i h
    simp [h]
  · rename_i f hne h
    exact absurd (applyOp_error hdb he h) hne

theorem RocksDB.Apart.apply (hdb : db.Apart) (he : e.Keyed) (h : RaftNN.apply db e = some db') :
    db'.Apart := hdb.edit he.fits (find_applyOp ((apply_eq_some hdb he).mp h))

section Observations

variable {edit : Edit}

theorem resets_cell (hk : key.head? ≠ some '/') (hfits : edit.Fits key) :
    ∃ f, Resets id f ∧ ∀ cell, edit.act key cell = f cell := by
  cases edit with
  | keep => exact ⟨id, .inl rfl, fun _ ↦ rfl⟩
  | write v => exact ⟨fun _ ↦ some v, .inr (.inr ⟨_, rfl⟩), fun _ ↦ rfl⟩
  | names edits => exact absurd hfits hk
  | commit sub filesize id => exact absurd hfits hk

theorem resets_present (key : Str) (edit : Edit) :
    ∃ f, Resets id f ∧ ∀ cell, (edit.act key cell).isSome = f cell.isSome := by
  cases edit with
  | keep => exact ⟨id, .inl rfl, fun _ ↦ rfl⟩
  | write v => exact ⟨fun _ ↦ true, .inr (.inr ⟨_, rfl⟩), fun _ ↦ rfl⟩
  | names edits => exact ⟨fun _ ↦ true, .inr (.inr ⟨_, rfl⟩), fun _ ↦ rfl⟩
  | commit sub filesize id => exact ⟨fun _ ↦ true, .inr (.inr ⟨_, rfl⟩), fun _ ↦ rfl⟩

/-- A field that commits set or keep, and that lists of names do not touch. -/
theorem resets_field {α : Type} (q : Inode → α) (hnames : ∀ i sub, q { i with sub := sub } = q i)
    (hcommit : ∀ sub filesize aggId, ∃ f, Resets id f ∧ ∀ i : Inode, q { i with
      ddlLock := 0
      sub := sub
      filesize := filesize
      aggInodeId := if aggId = [] then i.aggInodeId else aggId } = f (q i))
    (key : Str) (edit : Edit) :
    ∃ f, Resets id f ∧ ∀ cell, q (readCell key (edit.act key cell)) = f (q (readCell key cell)) := by
  cases edit with
  | keep => exact ⟨id, .inl rfl, fun _ ↦ rfl⟩
  | write v => exact ⟨fun _ ↦ q (readCell key (some v)), .inr (.inr ⟨_, rfl⟩), fun _ ↦ rfl⟩
  | names edits => exact ⟨id, .inl rfl, fun cell ↦ hnames (readCell key cell) _⟩
  | commit sub filesize aggInodeId =>
    obtain ⟨f, hf, hact⟩ := hcommit sub filesize aggInodeId
    exact ⟨f, hf, fun cell ↦ hact (readCell key cell)⟩

theorem count_addName (sub : List Str) (name x : Str) :
    (addName sub name).count x = if x = name then max 1 (sub.count x) else sub.count x := by
  unfold addName
  by_cases hx : x = name
  · subst hx
    by_cases hm : x ∈ sub
    · have hpos := List.count_pos_iff.mpr hm
      simp only [hm, if_true]
      omega
    · simp [hm, List.count_append, List.count_eq_zero_of_not_mem hm]
  · rw [if_neg hx]
    split
    · rfl
    · simp [List.count_append, Ne.symm hx]

theorem count_filter_ne (sub : List Str) (name x : Str) :
    (sub.filter (· ≠ name)).count x = if x = name then 0 else sub.count x := by
  by_cases hx : x = name
  · subst hx
    rw [if_pos rfl, List.count_eq_zero]
    simp
  · rw [if_neg hx, List.count_filter (by simpa using hx)]

theorem resets_nameEdit (edit : NameEdit) (x : Str) :
    ∃ f, Resets (max 1) f ∧ ∀ sub, (edit.act sub).count x = f (sub.count x) := by
  cases edit with
  | add name =>
    by_cases hx : x = name
    · exact ⟨max 1, .inr (.inl rfl), fun sub ↦ by rw [NameEdit.act, count_addName, if_pos hx]⟩
    · exact ⟨id, .inl rfl, fun sub ↦ by rw [NameEdit.act, count_addName, if_neg hx]; rfl⟩
  | remove name =>
    have hcount : ∀ sub, ((NameEdit.remove name).act sub).count x =
        if x = name ++ ['/'] then 0 else if x = name then 0 else sub.count x := fun sub ↦ by
      rw [NameEdit.act, removeName, count_filter_ne, count_filter_ne]
    by_cases hx : x = name ++ ['/'] ∨ x = name
    · refine ⟨fun _ ↦ 0, .inr (.inr ⟨0, rfl⟩), fun sub ↦ ?_⟩
      rw [hcount]
      rcases hx with hx | hx <;> simp [hx]
    · push Not at hx
      refine ⟨id, .inl rfl, fun sub ↦ ?_⟩
      rw [hcount, if_neg hx.1, if_neg hx.2]
      rfl

theorem max_one_idem (n : Nat) : max 1 (max 1 n) = max 1 n := by omega

theorem resets_nameEdits (edits : List NameEdit) (x : Str) :
    ∃ f, Resets (max 1) f ∧ ∀ sub, (edits.foldl NameEdit.act sub).count x = f (sub.count x) := by
  induction edits with
  | nil => exact ⟨id, .inl rfl, fun _ ↦ rfl⟩
  | cons edit edits ih =>
    obtain ⟨f, hf, hact⟩ := resets_nameEdit edit x
    obtain ⟨g, hg, hacts⟩ := ih
    refine ⟨g ∘ f, (settling_resets max_one_idem).comp f g hf hg, fun sub ↦ ?_⟩
    rw [List.foldl_cons, hacts, hact]
    rfl

theorem resets_count (x key : Str) (edit : Edit) :
    ∃ f, Resets (max 1) f ∧ ∀ cell, (readCell key (edit.act key cell)).sub.count x =
      f ((readCell key cell).sub.count x) := by
  cases edit with
  | keep => exact ⟨id, .inl rfl, fun _ ↦ rfl⟩
  | write v => exact ⟨fun _ ↦ (readCell key (some v)).sub.count x, .inr (.inr ⟨_, rfl⟩), fun _ ↦ rfl⟩
  | names edits =>
    obtain ⟨f, hf, hact⟩ := resets_nameEdits edits x
    exact ⟨f, hf, fun cell ↦ hact (readCell key cell).sub⟩
  | commit sub filesize aggInodeId => exact ⟨fun _ ↦ sub.count x, .inr (.inr ⟨_, rfl⟩), fun _ ↦ rfl⟩

end Observations

/-- What is seen of one key is an observation of the store. -/
theorem observes_of_edit {α : Type} {F : (α → α) → Prop} (key : Str) (q : Option Value → α)
    (h : ∀ edit : Edit, edit.Fits key → ∃ f, F f ∧ ∀ cell, q (edit.act key cell) = f (q cell)) :
    Observes RaftNN.apply RocksDB.Apart Entry.Keyed F fun db ↦ q (db.find key) := by
  intro e he
  obtain ⟨f, hf, hact⟩ := h (e.edit key) (he.fits key)
  refine ⟨f, hf, fun db db' hdb happly ↦ ?_⟩
  have hfind := find_applyOp ((apply_eq_some hdb he).mp happly) key
  exact (congrArg q hfind).trans (hact _)

theorem observes_field {α : Type} (q : Inode → α) (hnames : ∀ i sub, q { i with sub := sub } = q i)
    (hcommit : ∀ sub filesize aggId, ∃ f, Resets id f ∧ ∀ i : Inode, q { i with
      ddlLock := 0
      sub := sub
      filesize := filesize
      aggInodeId := if aggId = [] then i.aggInodeId else aggId } = f (q i)) (key : Str) :
    Observes RaftNN.apply RocksDB.Apart Entry.Keyed (Resets id)
      fun db ↦ q (readCell key (db.find key)) :=
  observes_of_edit key (fun cell ↦ q (readCell key cell)) fun edit _ ↦
    resets_field q hnames hcommit key edit

/-- Stores that no observation tells apart are the same up to the order of names. -/
theorem sameUpToOrder_of_observes (hdb : db.Apart) (hdb' : db'.Apart)
    (h : ∀ {α : Type} {F : (α → α) → Prop} {π : RocksDB → α}, Settling F →
      Observes RaftNN.apply RocksDB.Apart Entry.Keyed F π → π db = π db') :
    db.SameUpToOrder db' := by
  intro key
  have hid : ∀ {α : Type}, Settling (@Resets α id) := settling_resets fun _ ↦ rfl
  by_cases hk : key.head? = some '/'
  · have hpresent := h hid (observes_of_edit key (·.isSome) fun edit _ ↦ resets_present key edit)
    have hcount := fun x ↦ h (settling_resets max_one_idem) (observes_of_edit key
      (fun cell ↦ (readCell key cell).sub.count x) fun edit _ ↦ resets_count x key edit)
    have hframe := h hid (observes_field (fun i ↦ (i.fullpath, i.isDirectory, i.storageType, i.valid))
      (fun _ _ ↦ rfl) (fun _ _ _ ↦ ⟨id, .inl rfl, fun _ ↦ rfl⟩) key)
    have hsize := h hid (observes_field (·.filesize)
      (fun _ _ ↦ rfl) (fun _ filesize _ ↦ ⟨fun _ ↦ filesize, .inr (.inr ⟨_, rfl⟩), fun _ ↦ rfl⟩) key)
    have hlock := h hid (observes_field (·.ddlLock)
      (fun _ _ ↦ rfl) (fun _ _ _ ↦ ⟨fun _ ↦ 0, .inr (.inr ⟨_, rfl⟩), fun _ ↦ rfl⟩) key)
    have hagg := h hid (observes_field (·.aggInodeId) (fun _ _ ↦ rfl) (fun _ _ aggId ↦ by
      by_cases ha : aggId = []
      · exact ⟨id, .inl rfl, fun i ↦ if_pos ha⟩
      · exact ⟨fun _ ↦ aggId, .inr (.inr ⟨_, rfl⟩), fun i ↦ if_neg ha⟩) key)
    cases hf : db.find key with
    | none =>
      rw [hf] at hpresent
      have hf' : db'.find key = none := by simpa using hpresent.symm
      rw [hf']
      exact .none
    | some v =>
      rw [hf] at hpresent
      obtain ⟨w, hw⟩ := Option.isSome_iff_exists.mp hpresent.symm
      cases v with
      | agg a => exact absurd hk (hdb.agg key a hf).2
      | inode i =>
        cases w with
        | agg a => exact absurd hk (hdb'.agg key a hw).2
        | inode j =>
          simp only [hf, hw, readCell] at hcount hframe hsize hlock hagg
          obtain ⟨hpath, hdir, hstorage, hvalid⟩ : i.fullpath = j.fullpath ∧
            i.isDirectory = j.isDirectory ∧ i.storageType = j.storageType ∧ i.valid = j.valid := by
            simpa using hframe
          rw [hw]
          refine .some ⟨List.perm_iff_count.mpr hcount, ?_⟩
          rw [hpath, hdir, hstorage, hvalid, hsize, hlock, hagg]
  · have hcell : db.find key = db'.find key :=
      h hid (observes_of_edit key id fun edit hfits ↦ resets_cell hk hfits)
    rw [← hcell]
    cases hf : db.find key with
    | none => exact .none
    | some v =>
      refine .some ?_
      cases v with
      | inode i => exact ⟨.refl _, rfl⟩
      | agg a => exact rfl

/-- There is a record wherever there is one in the other store. -/
def RocksDB.Covers (db' db : RocksDB) : Prop := ∀ key, db.find key ≠ none → db'.find key ≠ none

theorem Edit.act_ne_none {edit : Edit} {cell cell' : Option Value}
    (h : cell ≠ none → cell' ≠ none) (ha : edit.act key cell ≠ none) :
    edit.act key cell' ≠ none := by
  cases edit with
  | keep => exact h ha
  | _ => simp [Edit.act]

theorem RocksDB.Covers.present (h : db'.Covers db) (hp : Present db path) : Present db' path :=
  hp.imp_right (h path)

theorem present_of_applyOp (h : RaftNN.applyOp db e = .ok db') (hi : i ∈ e.linked) :
    Present db i.parentPath := by
  cases e with
  | opMkdir j =>
    obtain rfl := List.mem_singleton.mp hi
    obtain ⟨p, hp, -⟩ := internalMkdir_eq_ok.mp h
    exact present_of_lookup hp
  | opRm j =>
    obtain rfl := List.mem_singleton.mp hi
    obtain ⟨p, hp, -⟩ := internalRm_ok h
    exact present_of_lookup hp
  | opPutOk j =>
    obtain rfl := List.mem_singleton.mp hi
    obtain ⟨c, hc, p, hp, -⟩ := internalPutOk_eq_ok.mp h
    rw [Inode.parentPath, fullpath_of_commit hc] at hp
    exact present_of_lookup hp
  | opPutOkBatch is =>
    obtain ⟨p, hp, -⟩ := (internalPutOkBatch_ok h).parent i hi
    exact present_of_lookup hp
  | _ => cases hi

/-- An entry that was applied once is applied to every store with more records. -/
theorem RocksDB.Covers.apply {db₁ db₂ : RocksDB} (hc : db₂.Covers db₁) (h₁ : db₁.Apart)
    (h₂ : db₂.Apart) (he : e.Keyed) (h : RaftNN.apply db₁ e = some db') :
    ∃ db'', RaftNN.apply db₂ e = some db'' ∧ db''.Covers db' := by
  have hop := (apply_eq_some h₁ he).mp h
  have hsome : RaftNN.apply db₂ e ≠ none := by
    rw [RaftNN.apply, Ne, Option.map_eq_none_iff]
    exact onApply_ne_none fun i hi ↦ hc.present (present_of_applyOp hop hi)
  obtain ⟨db'', hop'⟩ := Option.ne_none_iff_exists'.mp hsome
  refine ⟨db'', hop', fun key hkey ↦ ?_⟩
  rw [find_applyOp hop] at hkey
  rw [find_applyOp ((apply_eq_some h₂ he).mp hop')]
  exact Edit.act_ne_none (hc key) hkey

theorem covers_of_apply (hdb : db.Apart) (he : e.Keyed) (h : RaftNN.apply db e = some db') :
    db'.Covers db := by
  intro key hkey
  rw [find_applyOp ((apply_eq_some hdb he).mp h)]
  cases hedit : e.edit key with
  | keep => exact hkey
  | _ => simp [Edit.act]

variable {log : List Entry}

theorem apart_empty : RocksDB.Apart .empty :=
  ⟨fun _ _ h ↦ (nomatch h), fun _ _ h ↦ (nomatch h)⟩

theorem apart_of_applyLog (hdb : db.Apart) (hlog : ∀ e ∈ log, e.Keyed)
    (h : RaftNN.applyLog db log = some db') : db'.Apart :=
  foldlM_invariant (fun _ _ _ hs he hst ↦ hs.apply he hst) hlog hdb h

theorem covers_of_applyLog (hdb : db.Apart) (hlog : ∀ e ∈ log, e.Keyed)
    (h : RaftNN.applyLog db log = some db') : db'.Covers db := by
  have hboth := foldlM_invariant (I := fun s ↦ s.Apart ∧ s.Covers db)
    (fun s e t hs he hst ↦ ⟨hs.1.apply he hst, fun key hkey ↦
      covers_of_apply hs.1 he hst key (hs.2 key hkey)⟩) hlog ⟨hdb, fun _ hkey ↦ hkey⟩ h
  exact hboth.2

theorem RocksDB.Covers.applyLog {db₁ db₂ : RocksDB} (hc : db₂.Covers db₁) (h₁ : db₁.Apart)
    (h₂ : db₂.Apart) (hlog : ∀ e ∈ log, e.Keyed) (h : RaftNN.applyLog db₁ log = some db') :
    ∃ db'', RaftNN.applyLog db₂ log = some db'' ∧ db''.Covers db' := by
  induction log generalizing db₁ db₂ with
  | nil =>
    obtain rfl := Option.some.inj h
    exact ⟨db₂, rfl, hc⟩
  | cons e log ih =>
    have he := hlog e (by simp)
    rw [RaftNN.applyLog, List.foldlM_cons] at h
    obtain ⟨mid, hmid, h⟩ := Option.bind_eq_some_iff.mp h
    obtain ⟨mid', hmid', hcover⟩ := hc.apply h₁ h₂ he hmid
    obtain ⟨db'', hdb'', hlast⟩ := ih hcover (h₁.apply he hmid) (h₂.apply he hmid')
      (fun e he ↦ hlog e (List.mem_cons_of_mem _ he)) h
    refine ⟨db'', ?_, hlast⟩
    rw [RaftNN.applyLog, List.foldlM_cons, hmid']
    exact hdb''

theorem applyLog_append (db : RocksDB) (log log' : List Entry) :
    RaftNN.applyLog db (log ++ log') =
      (RaftNN.applyLog db log).bind (RaftNN.applyLog · log') := List.foldlM_append

/-- Replay safety: a persisted store that is given earlier entries again ends up, with the rest
of the log, where the log alone leads. -/
theorem replay_after_crash {log : List Entry} {db : RocksDB} {i j : Nat}
    (keyed : ∀ e ∈ log, e.Keyed) (runs : RaftNN.applyLog .empty log = some db)
    (hij : i ≤ j) (hj : j ≤ log.length) :
    ∃ persisted db', RaftNN.applyLog .empty (log.take j) = some persisted ∧
      RaftNN.applyLog persisted (log.drop i) = some db' ∧ db'.SameUpToOrder db := by
  obtain ⟨first, again, rest, htake, hdrop, hlog⟩ : ∃ first again rest,
      log.take j = first ++ again ∧ log.drop i = again ++ rest ∧
        log = first ++ (again ++ rest) := by
    have htake : log.take j = log.take i ++ (log.take j).drop i := by
      conv_lhs => rw [← List.take_append_drop i (log.take j)]
      rw [List.take_take, Nat.min_eq_left hij]
    have hdrop : log.drop i = (log.take j).drop i ++ log.drop j := by
      conv_lhs => rw [← List.take_append_drop j log]
      rw [List.drop_append_of_le_length (by rw [List.length_take]; omega)]
    exact ⟨_, _, _, htake, hdrop, by rw [← hdrop, List.take_append_drop]⟩
  have hkeyed : ∀ e ∈ first ++ (again ++ rest), e.Keyed := hlog ▸ keyed
  rw [hlog, applyLog_append, Option.bind_eq_some_iff] at runs
  obtain ⟨start, hstart, runs⟩ := runs
  rw [applyLog_append, Option.bind_eq_some_iff] at runs
  obtain ⟨persisted, hpersisted, hrest⟩ := runs
  have hgood : (∀ e ∈ first, e.Keyed) ∧ (∀ e ∈ again, e.Keyed) ∧ ∀ e ∈ rest, e.Keyed := by
    simp only [List.mem_append] at hkeyed
    exact ⟨fun e he ↦ hkeyed e (.inl he), fun e he ↦ hkeyed e (.inr (.inl he)),
      fun e he ↦ hkeyed e (.inr (.inr he))⟩
  obtain ⟨hfirst', hagain', hrest'⟩ := hgood
  have hs : start.Apart := apart_of_applyLog apart_empty hfirst' hstart
  have hp : persisted.Apart := apart_of_applyLog hs hagain' hpersisted
  have hall : ∀ e ∈ again ++ rest, e.Keyed := fun e he ↦
    (List.mem_append.mp he).elim (hagain' e) (hrest' e)
  have hrun : RaftNN.applyLog start (again ++ rest) = some db := by
    rw [applyLog_append, hpersisted]
    exact hrest
  obtain ⟨db', hdb', -⟩ := (covers_of_applyLog hs hagain' hpersisted).applyLog hs hp hall hrun
  refine ⟨persisted, db', ?_, hdrop ▸ hdb', ?_⟩
  · rw [htake, applyLog_append, hstart]
    exact hpersisted
  · refine sameUpToOrder_of_observes (apart_of_applyLog hp hall hdb')
      (apart_of_applyLog hp hrest' hrest) fun hF hobs ↦ ?_
    exact hobs.replay hF (fun _ _ _ hi he hst ↦ hi.apply he hst) hagain' hrest' hs hpersisted
      hrest hdb'

/-- A directory, a file in it and its commit, with everything delivered again. -/
theorem replay_after_crash_mkdir_put :
    let file := { Inode.ofPath "/d/f".toList with valid := true, storageType := some (.re 3 1) }
    let log : List Entry := [.opMkdir (.getDefaultDir "/d".toList), .opPut file,
      .opPutOk { file with sub := ["b0".toList], filesize := 7 }]
    ∃ db db', RaftNN.applyLog .empty log = some db ∧ RaftNN.applyLog db log = some db' ∧
      db'.SameUpToOrder db ∧ subAt db "/d".toList = ["f".toList] := by
  intro file log
  have hruns : (RaftNN.applyLog .empty log).any fun db ↦
      decide (subAt db "/d".toList = ["f".toList]) := by decide +kernel
  obtain ⟨db, hdb, hsub⟩ := (Option.any_eq_true _ _).mp hruns
  have hkeyed : ∀ e ∈ log, e.Keyed := by
    have habs : ∀ e ∈ log, ∀ i ∈ e.inodes, i.fullpath.Absolute := by decide +kernel
    exact fun e he ↦ ⟨habs e he, fun agg hagg ↦ by simp [log, hagg] at he⟩
  obtain ⟨persisted, db', hp, hdb', hsame⟩ :=
    replay_after_crash hkeyed hdb (Nat.zero_le log.length) le_rfl
  rw [List.take_length, hdb, Option.some.injEq] at hp
  subst hp
  exact ⟨db, db', hdb, hdb', hsame, of_decide_eq_true hsub⟩

end Spkdfs
