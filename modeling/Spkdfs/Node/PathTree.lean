import Spkdfs.Library.FileTree
import Spkdfs.Node.Accounting
import Spkdfs.Node.Keys
import Spkdfs.Node.LockRequest

namespace Spkdfs

open Library RocksDB Function

def FullPath.top : FullPath := .ofStr root

@[simp] theorem FullPath.str_top : FullPath.top.str = root := by decide

/-- The size and the `sub` that a commit records. -/
abbrev Contents := Nat × List Str

/-- What the namenode keeps, in its own terms: a tree of directories and files, each file with
the end of its lease, its storage type, and what was last committed. -/
abbrev PathTree := FileTree FullPath.parent .top StorageType Contents

abbrev PathOp := FileOp FullPath StorageType Contents

namespace NNPutRequest

def asked (req : NNPutRequest) : Option (FullPath × StorageType) :=
  (StorageType.fromString req.storageType).toOption.map fun t ↦ (.ofStr req.path, t)

end NNPutRequest

namespace NNPutOKRequest

def asked (req : NNPutOKRequest) : FullPath × Contents := (.ofStr req.path, req.filesize, req.sub)

/-- A member of an aggregate names its place there in its first `sub` entry. -/
def placed (req : NNPutOKRequest) : Bool :=
  req.sub.head?.any fun first ↦ (Namenode.getLastPair first).toOption.isSome

end NNPutOKRequest

/-- What a request asks of the tree; nothing, if its storage type or its places make no sense. -/
def Call.asked (call : Call) : Option (List PathOp) :=
  let lease := call.env.now + lockRefreshInterval
  match call.request with
  | .mkdir path => some [.mkdir (.ofStr path)]
  | .rm path => some [.remove (.ofStr path)]
  | .put req => req.asked.map fun file ↦ [.put call.env.now lease [file]]
  | .putBatch reqs => (reqs.mapM NNPutRequest.asked).map fun files ↦ [.put call.env.now lease files]
  | .putOk req => some [.commit [req.asked]]
  | .putOkBatch reqs =>
    if (stoi (basePart '.' call.env.myIp)).toOption.isSome ∧ ∀ req ∈ reqs, req.placed then
      some [.commit (reqs.map (·.asked))]
    else none
  | .updateLock paths =>
    if paths = [] then none else some (paths.map fun path ↦ .renew lease (.ofStr path))

/-- The tree after the request, and whether the request is granted. -/
noncomputable def PathTree.answer (t : PathTree) (call : Call) : PathTree × Bool :=
  match call.asked with
  | none => (t, false)
  | some ops => t.exec ops

def Item.kind : Item StorageType Contents → Kind
  | .dir => .dir
  | .file .. => .file

/-- What the store has where the tree has an item. What is removed leaves nothing behind, and a
file is listed in its directory once it has been committed. -/
inductive Holds (db : RocksDB) (p : FullPath) : Option (Item StorageType Contents) → Prop
  | nothing (clean : ∀ i, lookup db p.str = some i → i = .ofPath p.str) : Holds db p none
  | dir {i : Inode} (found : lookup db p.str = some i) (valid : i.valid = true)
      (isDirectory : i.isDirectory = true)
      (listed : p ≠ .top → dentry p .dir ∈ subAt db p.parent.str) : Holds db p (some .dir)
  | file {i : Inode} {lease : Nat} {storage : StorageType} {data : Option Contents}
      (found : lookup db p.str = some i) (valid : i.valid = true)
      (isDirectory : i.isDirectory = false) (leased : i.ddlLock = lease)
      (stored : i.storageType = some storage) (content : (i.filesize, i.sub) = data.getD (0, []))
      (listed : dentry p .file ∈ subAt db p.parent.str ↔ data.isSome = true) :
      Holds db p (some (.file lease storage data))

/-- The store stands for the tree. -/
structure Refines (db : RocksDB) (t : PathTree) : Prop where
  holds : ∀ p, Holds db p (t.item p)
  listing : Listing db
  plain : ∀ id agg, db.find id = some (.agg agg) → '/' ∉ id
  nil : db.find [] = none

variable {db db' : RocksDB} {t t' : PathTree} {p q : FullPath}
  {x : Option (Item StorageType Contents)} {env : Env} {path : Str}

theorem Holds.kindAt (h : Holds db p x) : kindAt db p.str = x.map Item.kind := by
  cases h with
  | nothing clean =>
    cases hl : lookup db p.str with
    | none => simp [RocksDB.kindAt, hl]
    | some i =>
      rw [kindAt_of_lookup hl, clean i hl]
      rfl
  | dir found valid isDirectory =>
    rw [kindAt_of_lookup found, Inode.kind, valid, isDirectory]
    rfl
  | file found valid isDirectory =>
    rw [kindAt_of_lookup found, Inode.kind, valid, isDirectory]
    rfl

/-- An item stays where its record stays, up to the names in a directory, and the directory
above it goes on listing it. -/
theorem Holds.frame (h : Holds db p x)
    (hlookup : lookup db' p.str = lookup db p.str ∨ x = some .dir ∧
      ∃ i sub, lookup db p.str = some i ∧ lookup db' p.str = some { i with sub := sub })
    (hlisted : x ≠ none → ∀ k, dentry p k ∈ subAt db' p.parent.str ↔
      dentry p k ∈ subAt db p.parent.str) : Holds db' p x := by
  cases h with
  | nothing clean =>
    rcases hlookup with hl | ⟨hdir, -⟩
    · exact .nothing fun i hi ↦ clean i (hl ▸ hi)
    · cases hdir
  | dir found valid isDirectory listed =>
    have hnames := fun hne ↦ (hlisted (Option.some_ne_none _) .dir).mpr (listed hne)
    rcases hlookup with hl | ⟨-, i, sub, hi, hl⟩
    · exact .dir (hl.trans found) valid isDirectory hnames
    · obtain rfl := Option.some.inj (hi.symm.trans found)
      exact .dir hl valid isDirectory hnames
  | file found valid isDirectory leased stored content listed =>
    rcases hlookup with hl | ⟨hdir, -⟩
    · exact .file (hl.trans found) valid isDirectory leased stored content
        ((hlisted (Option.some_ne_none _) .file).trans listed)
    · cases hdir

theorem exists_forall₂ {α β : Type} {R : α → β → Prop} {as : List α} (h : ∀ a ∈ as, ∃ b, R a b) :
    ∃ bs, List.Forall₂ R as bs := by
  induction as with
  | nil => exact ⟨[], .nil⟩
  | cons a as ih =>
    obtain ⟨b, hb⟩ := h a List.mem_cons_self
    obtain ⟨bs, hbs⟩ := ih fun a ha ↦ h a (List.mem_cons_of_mem _ ha)
    exact ⟨b :: bs, .cons hb hbs⟩

theorem mapM_eq_some {α β : Type} {f : α → Option β} {as : List α} {bs : List β} :
    as.mapM f = some bs ↔ List.Forall₂ (fun a b ↦ f a = some b) as bs := by
  induction as generalizing bs with
  | nil => simp [eq_comm]
  | cons a as ih =>
    simp only [List.mapM_cons, Option.bind_eq_bind, Option.bind_eq_some_iff, Option.pure_def,
      Option.some.injEq, ih]
    constructor
    · rintro ⟨b, hb, bs, hbs, rfl⟩
      exact .cons hb hbs
    · rintro (_ | ⟨hb, hbs⟩)
      exact ⟨_, hb, _, hbs, rfl⟩

/-- The records written for a list of files: which of them is the last one for a path. -/
theorem lastFor_records {α : Type} {R : FullPath × α → Inode → Prop} {files : List (FullPath × α)}
    {is : List Inode} (h : List.Forall₂ R files is) (hpath : ∀ file i, R file i → i.fullpath = file.1)
    (q : FullPath) :
    (lastFor files q = none → ∀ i ∈ is, i.fullpath ≠ q) ∧
      ∀ a, lastFor files q = some a →
        ∃ i, (is.filter (·.fullpath = q)).getLast? = some i ∧ R (q, a) i := by
  have hkeep : ∀ file i, R file i → (decide (file.1 = q) = true ↔ decide (i.fullpath = q) = true) := by
    intro file i hi
    rw [hpath file i hi]
  have hfilter := List.rel_filter @hkeep h
  refine ⟨fun hnone i hi hq ↦ ?_, fun a ha ↦ ?_⟩
  · obtain ⟨file, hfile, hr⟩ := forall₂_mem_right h hi
    rw [lastFor, Option.map_eq_none_iff, List.getLast?_eq_none_iff, List.filter_eq_nil_iff] at hnone
    exact hnone file hfile (decide_eq_true ((hpath file i hr).symm.trans hq))
  · obtain ⟨⟨p, b⟩, hlast, rfl⟩ := Option.map_eq_some_iff.mp ha
    obtain ⟨-, rfl⟩ := of_getLast?_filter hlast
    exact forall₂_getLast hfilter hlast

theorem lookup_of_last {is : List Inode} {i : Inode}
    (h : (is.filter (·.fullpath = q)).getLast? = some i) :
    lookup (db.write (is.map .inode)) q.str = some i := by
  have hkeys : is.filter (·.fullpath.str = q.str) = is.filter (·.fullpath = q) := by
    refine List.filter_congr fun k _ ↦ ?_
    rw [decide_eq_decide]
    exact ⟨FullPath.ext, fun he ↦ congrArg FullPath.str he⟩
  rw [lookup_write_last, hkeys, h]
  rfl

theorem holds_empty (p : FullPath) :
    Holds .empty p ((FileTree.bare FullPath.parent .top StorageType Contents).item p) := by
  by_cases hp : p = .top
  · rw [hp, FileTree.top_dir]
    exact .dir (i := .getDefaultDir root) (by decide) rfl rfl fun hne ↦ absurd rfl hne
  · rw [FileTree.item_bare_of_ne hp]
    refine .nothing fun i hi ↦ ?_
    have hroot : p.str ≠ root := fun he ↦ hp (FullPath.ext (he.trans FullPath.str_top.symm))
    simp [lookup, hroot] at hi

theorem refines_empty : Refines .empty (.bare _ _ _ _) where
  holds := holds_empty
  listing := listing_empty
  plain id agg h := by cases h
  nil := rfl

namespace Refines

theorem kindAt (h : Refines db t) (p : FullPath) :
    RocksDB.kindAt db p.str = (t.item p).map Item.kind := (h.holds p).kindAt

theorem dirAt (h : Refines db t) (hp : t.item p = some .dir) :
    RocksDB.kindAt db p.str = some .dir := by
  rw [h.kindAt, hp]
  rfl

theorem item_eq_dir (h : Refines db t) : t.item p = some .dir ↔ DirAt db p.str := by
  rw [dirAt_iff, h.kindAt]
  match t.item p with
  | none => simp
  | some .dir => simp [Item.kind]
  | some (.file ..) => simp [Item.kind]

theorem isFile_item (h : Refines db t) : Item.IsFile (t.item p) ↔ FileAt db p.str := by
  rw [fileAt_iff, h.kindAt]
  match t.item p with
  | none => simp [Item.IsFile]
  | some .dir => simp [Item.IsFile, Item.kind]
  | some (.file ..) => simp [Item.IsFile, Item.kind]

theorem item_ne_none (h : Refines db t) : t.item p ≠ none ↔ ValidAt db p.str := by
  rw [validAt_iff, h.kindAt, Ne, Ne, Option.map_eq_none_iff]

/-- What stands anywhere stands in a directory, at an absolute path. -/
theorem parent_dir (h : t.item p ≠ none) : t.item p.parent = some .dir := by
  by_cases hp : p = .top
  · have htop : FullPath.top.parent = .top := by decide
    rw [hp, htop]
    exact t.top_dir
  · exact t.closed p hp h

theorem absolute (h : Refines db t) (hp : t.item p ≠ none) : p.Absolute :=
  FullPath.absolute_of_parent (h.listing.absolute _ (h.dirAt (parent_dir hp)))

/-- Nothing is listed where nothing stands. -/
theorem not_listed (h : Refines db t) (hp : t.item p = none) (hparent : t.item p.parent = some .dir)
    (k : Kind) : dentry p k ∉ subAt db p.parent.str := by
  intro hmem
  obtain ⟨q, -, hq, l, hl, he⟩ := (h.listing.sound _ (h.dirAt hparent)).2 _ hmem
  obtain rfl : p = q := dentry_injective (FullPath.ext hq).symm he
  rw [h.kindAt, hp] at hl
  cases hl

theorem lookup_dir (h : Refines db t) (hp : t.item p = some .dir) :
    ∃ i, lookup db p.str = some i := by
  obtain ⟨i, hi, -⟩ := h.item_eq_dir.mp hp
  exact ⟨i, hi⟩

theorem mem_addName_dentry {k l : Kind} {sub : List Str} (hq : q ≠ p)
    (hparent : q.parent = p.parent) :
    dentry q k ∈ addName sub (dentry p l) ↔ dentry q k ∈ sub := by
  rw [mem_addName, or_iff_left]
  exact fun he ↦ hq (dentry_injective hparent he)

theorem mem_removeName_dentry {k : Kind} {sub : List Str} (hq : q ≠ p)
    (hparent : q.parent = p.parent) :
    dentry q k ∈ removeName sub (filename p.str) ↔ dentry q k ∈ sub := by
  have hfile : dentry p .file = filename p.str := by simp [dentry]
  have hdir : dentry p .dir = filename p.str ++ ['/'] := by simp [dentry]
  rw [mem_removeName, ← hfile, ← hdir.trans (congrArg (· ++ ['/']) hfile.symm)]
  refine and_iff_left ⟨fun he ↦ ?_, fun he ↦ ?_⟩
  · exact hq (dentry_injective hparent he)
  · exact hq (dentry_injective hparent he)

/-- What is written together with a name of its parent leaves everything else in its place. -/
theorem holds_linked (h : Refines db t) {own : Inode} {names : List Str → List Str}
    (hl : Linked db own names db') (hparent : t.item own.fullpath.parent = some .dir)
    (hbelow : ∀ q, q ≠ own.fullpath → t.item q ≠ none → q.parent ≠ own.fullpath)
    (hnames : ∀ q, q ≠ own.fullpath → q.parent = own.fullpath.parent → ∀ k sub,
      dentry q k ∈ names sub ↔ dentry q k ∈ sub)
    (hq : q ≠ own.fullpath) : Holds db' q (t.item q) := by
  have hstr : q.str ≠ own.fullpath.str := fun he ↦ hq (FullPath.ext he)
  refine (h.holds q).frame ?_ fun hn k ↦ ?_
  · by_cases hp : q.str = own.parentPath
    · have hqp : q = own.fullpath.parent := FullPath.ext hp
      obtain ⟨parent, hi, hi'⟩ := hl.lookup_parent (hp ▸ hstr)
      exact .inr ⟨by rw [hqp, hparent], parent, _, by rw [hp, hi], by rw [hp, hi']⟩
    · exact .inl (hl.lookup_other hstr hp)
  · have hne : q.parent.str ≠ own.fullpath.str := fun he ↦ hbelow q hq hn (FullPath.ext he)
    rw [hl.subAt hne]
    by_cases hp : q.parent.str = own.parentPath
    · rw [if_pos hp]
      exact hnames q hq (FullPath.ext hp) k _
    · rw [if_neg hp]

/-- Records written alone leave everything else in its place, if the names in the directories
stay. -/
theorem holds_written (h : Refines db t) {is : List Inode}
    (hsub : ∀ d, t.item d = some .dir →
      subAt (db.write (is.map .inode)) d.str = subAt db d.str)
    (hq : ∀ i ∈ is, i.fullpath ≠ q) : Holds (db.write (is.map .inode)) q (t.item q) := by
  refine (h.holds q).frame (.inl ?_) fun hn k ↦ by rw [hsub _ (parent_dir hn)]
  rcases lookup_write_cases db is q.str with ⟨i, hi, hpath, -⟩ | ⟨-, hl⟩
  · exact absurd (FullPath.ext hpath) (hq i hi)
  · exact hl

end Refines

end Spkdfs
