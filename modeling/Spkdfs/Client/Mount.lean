import Spkdfs.Client.FuseRead
import Spkdfs.Node.PastTrees

namespace Spkdfs

open Library Procedure RocksDB

/-- The slave namenode is asked again once, after a failure to reach it. -/
def FUSE.ls (dst : Str) (seen again : Nat) (found : Option (Nat × Nat)) : Method Inode :=
  tryCatch (SDK.getRemoteInode dst seen) fun fault ↦
    match fault with
    | .message code info => throw (.message code info)
    | .assertion => throw .assertion
    | _ => do
      reinit found
      SDK.getRemoteInode dst again

def sIfdir : Nat := 0o040000
def sIfreg : Nat := 0o100000

structure Stat where
  mode : Nat
  nlink : Nat
  size : Nat
deriving DecidableEq

def Inode.stat (inode : Inode) : Stat :=
  if inode.isDirectory then ⟨sIfdir ||| 0o755, 2, 0⟩ else ⟨sIfreg ||| 0o644, 1, inode.filesize⟩

/-- The result, and what is written in the buffer for the attributes. -/
def spkdfsGetattr (path : Str) (seen again : Nat) (found : Option (Nat × Nat)) :
    Method (Int × Option Stat) :=
  tryCatch
    (do
      let inode ← FUSE.ls path seen again found
      return (0, some inode.stat))
    fun fault ↦
      match fault with
      | .message _ _ => return (-enoent, none)
      | _ => throw fault

def popSlash (str : Str) : Str := if str.getLast? = some '/' then str.dropLast else str

/-- The names that are handed to the filler. -/
def spkdfsReaddir (path : Str) (seen again : Nat) (found : Option (Nat × Nat)) :
    Method (List Str) := do
  let inode ← FUSE.ls path seen again found
  if !inode.isDirectory then throw (.runtime "not directory error".toList)
  return dot :: dotdot :: inode.sub.map popSlash

def Item.stat : Item StorageType Contents → Stat
  | .dir => ⟨sIfdir ||| 0o755, 2, 0⟩
  | .file _ _ data => ⟨sIfreg ||| 0o644, 1, (data.getD (0, [])).1⟩

variable {db : RocksDB} {t : PathTree} {p q : FullPath} {v : View} {seen again : Nat}
  {found : Option (Nat × Nat)} {path : Str}

theorem popSlash_dentry (q : FullPath) (k : Kind) : popSlash (dentry q k) = filename q.str := by
  have hs := q.slash_notMem_filename
  cases k with
  | dir => simp [popSlash, dentry]
  | file =>
    have hname : dentry q .file = filename q.str := by simp [dentry]
    rw [popSlash, hname, if_neg]
    exact fun he ↦ hs (List.mem_of_mem_getLast? he)

namespace FullPath

theorem lsPath_str (hp : p.Absolute) : lsPath p.str = p := by
  rw [lsPath, if_neg hp.ne_nil, ofStr_str]

theorem filename_not_dot (hq : q.Absolute) (hr : q.str ≠ root) :
    filename q.str ≠ dot ∧ filename q.str ≠ dotdot := by
  obtain ⟨names, name, hc, he⟩ := hq.cases_names.resolve_left hr
  rw [he, (parent_and_name hc).2]
  refine ⟨?_, ?_⟩
  · rintro rfl
    exact hc.ne_dot (by simp)
  · rintro rfl
    exact hc.ne_dotdot (by simp)

theorem joinPath_cancel {dir name other : Str} (h : joinPath dir name = joinPath dir other) :
    name = other := by
  unfold joinPath at h
  split_ifs at h
  · exact h
  · exact (List.cons.inj h).2
  · exact (List.cons.inj (List.append_cancel_left h)).2

end FullPath

/-- The slave has this store when it answers. -/
structure View.Shows (v : View) (seen : Nat) (db : RocksDB) : Prop where
  progress : v.progress ≤ seen ∧ seen ≤ v.leader.applied.length
  replica : v.leader.replica seen = some db

namespace View.Shows

theorem remote (h : v.Shows seen db) : (SDK.getRemoteInode path seen).run v =
    some ((Namenode.ls db path).mapError failResponse, { v with progress := seen }) := by
  rw [SDK.getRemoteInode, run_of, if_pos h.progress, h.replica, Option.map_some]

theorem ls_ok (h : v.Shows seen db) {i : Inode} (hls : Namenode.ls db path = .ok i) :
    (FUSE.ls path seen again found).run v = some (.ok i, { v with progress := seen }) :=
  run_tryCatch_ok (by rw [h.remote, hls]; rfl) _

theorem ls_message (h : v.Shows seen db) {code : ErrorCode} {info : Str}
    (hls : Namenode.ls db path = .error (.message code info)) :
    (FUSE.ls path seen again found).run v =
      some (.error (.message code info), { v with progress := seen }) := by
  have hremote : (SDK.getRemoteInode path seen).run v =
      some (.error (.message code info), { v with progress := seen }) := by
    rw [h.remote, hls]
    rfl
  rw [FUSE.ls, run_tryCatch_error hremote]
  rfl

theorem getattr_ok (h : v.Shows seen db) {i : Inode} (hls : Namenode.ls db path = .ok i) :
    (spkdfsGetattr path seen again found).run v =
      some (.ok (0, some i.stat), { v with progress := seen }) :=
  run_tryCatch_ok (by rw [run_bind_ok (h.ls_ok hls)]; rfl) _

theorem getattr_message (h : v.Shows seen db) {code : ErrorCode} {info : Str}
    (hls : Namenode.ls db path = .error (.message code info)) :
    (spkdfsGetattr path seen again found).run v =
      some (.ok (-enoent, none), { v with progress := seen }) := by
  rw [spkdfsGetattr, run_tryCatch_error (run_bind_error (h.ls_message hls) _)]
  rfl

theorem readdir_ok (h : v.Shows seen db) {i : Inode} (hls : Namenode.ls db path = .ok i)
    (hdir : i.isDirectory = true) :
    (spkdfsReaddir path seen again found).run v =
      some (.ok (dot :: dotdot :: i.sub.map popSlash), { v with progress := seen }) := by
  rw [spkdfsReaddir, run_bind_ok (h.ls_ok hls), hdir]
  rfl

end View.Shows

theorem View.Shows.readdir_file (h : v.Shows seen db) {i : Inode} (hls : Namenode.ls db path = .ok i)
    (hfile : i.isDirectory = false) :
    (spkdfsReaddir path seen again found).run v =
      some (.error (.runtime "not directory error".toList), { v with progress := seen }) := by
  rw [spkdfsReaddir, run_bind_ok (h.ls_ok hls), hfile]
  rfl

theorem Refines.stat_eq (h : Refines db t) (hp : p.Absolute) {x : Item StorageType Contents}
    (hx : t.item p = some x) : ∃ i, Namenode.ls db p.str = .ok i ∧ i.stat = Item.stat x := by
  rw [← FullPath.lsPath_str hp] at hx
  cases x with
  | dir =>
    obtain ⟨i, hi, hdir, -⟩ := h.ls_of_dir hx
    exact ⟨i, hi, by rw [Inode.stat, hdir]; rfl⟩
  | file lease storage data =>
    obtain ⟨i, hi, hdir, -, -, hcontent⟩ := h.ls_of_file hx
    refine ⟨i, hi, ?_⟩
    rw [Inode.stat, hdir, Item.stat, ← hcontent]
    rfl

/-- The names in a directory are those of what is shown in it, and none of them is special. -/
theorem Refines.names_of_dir (h : Refines db t) (hp : t.item p = some .dir) :
    ∃ i, Namenode.ls db p.str = .ok i ∧ i.isDirectory = true ∧
      (dot :: dotdot :: i.sub.map popSlash).Nodup ∧
      ∀ name, name ∈ i.sub.map popSlash ↔ ∃ q x, q ≠ .top ∧ q.parent = p ∧
        joinPath p.str name = q.str ∧ t.item q = some x ∧ x.shown = true := by
  have habs : p.Absolute := h.absolute (by rw [hp]; exact Option.some_ne_none _)
  rw [← FullPath.lsPath_str habs] at hp
  obtain ⟨i, hi, hdir, hnodup, hnames⟩ := h.ls_of_dir hp
  rw [FullPath.lsPath_str habs] at hnames
  have hmem : ∀ name, name ∈ i.sub.map popSlash ↔ ∃ q x, q ≠ .top ∧ q.parent = p ∧
      filename q.str = name ∧ t.item q = some x ∧ x.shown = true := by
    intro name
    rw [List.mem_map]
    constructor
    · rintro ⟨e, he, rfl⟩
      obtain ⟨q, x, hq, hparent, hx, hshown, rfl⟩ := (hnames e).mp he
      exact ⟨q, x, hq, hparent, (popSlash_dentry q _).symm, hx, hshown⟩
    · rintro ⟨q, x, hq, hparent, rfl, hx, hshown⟩
      exact ⟨_, (hnames _).mpr ⟨q, x, hq, hparent, hx, hshown, rfl⟩, popSlash_dentry q _⟩
  refine ⟨i, hi, hdir, ?_, fun name ↦ ?_⟩
  · have habsolute : ∀ q x, t.item q = some x → q.Absolute := fun q x hx ↦
      h.absolute (by rw [hx]; exact Option.some_ne_none _)
    have hplain : ∀ name ∈ i.sub.map popSlash, name ≠ dot ∧ name ≠ dotdot := by
      intro name hname
      obtain ⟨q, x, hq, -, rfl, hx, -⟩ := (hmem name).mp hname
      exact FullPath.filename_not_dot (habsolute q x hx) fun he ↦
        hq (FullPath.ext (he.trans FullPath.str_top.symm))
    have hone : (i.sub.map popSlash).Nodup := by
      refine hnodup.map_on fun e he e' he' heq ↦ ?_
      obtain ⟨q, x, -, hparent, hx, -, rfl⟩ := (hnames e).mp he
      obtain ⟨q', x', -, hparent', hx', -, rfl⟩ := (hnames e').mp he'
      rw [popSlash_dentry, popSlash_dentry] at heq
      obtain rfl : q = q' := FullPath.eq_of_parent_eq (hparent.trans hparent'.symm) heq
      rw [Option.some.inj (hx.symm.trans hx')]
    refine List.nodup_cons.mpr ⟨fun hdot ↦ ?_, List.nodup_cons.mpr ⟨fun hdot ↦ ?_, hone⟩⟩
    · rcases List.mem_cons.mp hdot with he | hname
      · exact absurd he (by decide)
      · exact (hplain _ hname).1 rfl
    · exact (hplain _ hdot).2 rfl
  · rw [hmem]
    refine exists₂_congr fun q x ↦ and_congr_right fun _ ↦ and_congr_right fun hparent ↦
      and_congr_left fun _ ↦ ?_
    have hjoin := q.joinPath_parent
    rw [hparent] at hjoin
    constructor
    · rintro rfl
      exact hjoin
    · intro he
      exact FullPath.joinPath_cancel (hjoin.trans he.symm)

/-- What a mounted file system shows of a tree. The attributes of every path are those of what
stands there, and a directory has the entries `.`, `..` and one for each thing shown in it, by the
name under which it is found. -/
structure View.Displays (v : View) (seen again : Nat) (found : Option (Nat × Nat)) (t : PathTree) :
    Prop where
  getattr : ∀ p : FullPath, p.Absolute → (spkdfsGetattr p.str seen again found).run v =
    some (.ok (match t.item p with
      | none => (-enoent, none)
      | some x => (0, some (Item.stat x))), { v with progress := seen })
  readdir : ∀ p, t.item p = some .dir → ∃ names,
    (spkdfsReaddir p.str seen again found).run v =
      some (.ok (dot :: dotdot :: names), { v with progress := seen }) ∧
    (dot :: dotdot :: names).Nodup ∧
    ∀ name, name ∈ names ↔ ∃ q x, q ≠ .top ∧ q.parent = p ∧ joinPath p.str name = q.str ∧
      t.item q = some x ∧ x.shown = true

theorem Refines.displays (h : Refines db t) (hv : v.Shows seen db) :
    v.Displays seen again found t := by
  refine ⟨fun p hp ↦ ?_, fun p hp ↦ ?_⟩
  · cases hx : t.item p with
    | none =>
      rw [← FullPath.lsPath_str hp] at hx
      have hls := h.ls_of_none (by rw [FullPath.lsPath_str hp]; exact hp) hx
      exact hv.getattr_message hls
    | some x =>
      obtain ⟨i, hi, hstat⟩ := h.stat_eq hp hx
      rw [hv.getattr_ok hi, hstat]
  · obtain ⟨i, hi, hdir, hnodup, hnames⟩ := h.names_of_dir hp
    exact ⟨_, hv.readdir_ok hi hdir, hnodup, hnames⟩

theorem unleased_stat (x : Item StorageType Contents) : Item.stat x.unleased = Item.stat x := by
  cases x <;> rfl

theorem unleased_shown (x : Item StorageType Contents) : x.unleased.shown = x.shown := by
  cases x <;> rfl

theorem unleased_eq_dir {x : Item StorageType Contents} : x.unleased = .dir ↔ x = .dir := by
  cases x <;> simp [Item.unleased, Item.renewed]

/-- The ends of leases are not to be seen. -/
theorem View.Displays.congr {t' : PathTree} (h : v.Displays seen again found t')
    (hs : t'.SameUpToLeases t) : v.Displays seen again found t := by
  refine ⟨fun p hp ↦ ?_, fun p hp ↦ ?_⟩
  · rw [h.getattr p hp]
    have hitem := hs p
    cases hx : t'.item p with
    | none =>
      rw [hs.item_eq_none.mp hx]
    | some x =>
      rw [hx] at hitem
      obtain ⟨y, hy, he⟩ := Option.map_eq_some_iff.mp hitem.symm
      simp only [hy]
      rw [← unleased_stat y, he, unleased_stat]
  · have hdir : t'.item p = some .dir := by
      have hitem := hs p
      rw [hp] at hitem
      obtain ⟨x, hx, he⟩ := Option.map_eq_some_iff.mp hitem
      rw [hx, unleased_eq_dir.mp he]
    obtain ⟨names, hrun, hnodup, hnames⟩ := h.readdir p hdir
    refine ⟨names, hrun, hnodup, fun name ↦ (hnames name).trans (exists_congr fun q ↦ ?_)⟩
    have hshown : (∃ x, t'.item q = some x ∧ x.shown = true) ↔
        ∃ x, t.item q = some x ∧ x.shown = true := by
      have hany : ∀ o : Option (Item StorageType Contents), (∃ x, o = some x ∧ x.shown = true) ↔
          ∃ x, o.map Item.unleased = some x ∧ x.shown = true := by
        intro o
        cases o with
        | none => simp
        | some x => simp [unleased_shown]
      rw [hany, hs q, ← hany]
    constructor
    · rintro ⟨x, hq, hparent, hjoin, hx⟩
      obtain ⟨y, hy⟩ := hshown.mp ⟨x, hx⟩
      exact ⟨y, hq, hparent, hjoin, hy⟩
    · rintro ⟨x, hq, hparent, hjoin, hx⟩
      obtain ⟨y, hy⟩ := hshown.mpr ⟨x, hx⟩
      exact ⟨y, hq, hparent, hjoin, hy⟩

/-- A mounted file system shows the tree, as long as no request takes the directory away in which
something stands or puts something where no directory is. -/
theorem mount_shows_tree (h : Reaches lockstep Sheltering (.empty, .bare _ _ _ _) (db, t))
    (hv : v.Shows seen db) : v.Displays seen again found t :=
  (refines_of_reaches h).displays hv

/-- A mounted file system whose slave has not applied everything shows the tree as it was after one
of the requests: as it is if the slave is up to date, and never as it was before what was shown with
a slave that had applied less. -/
theorem mount_shows_past_tree {r : Recorded}
    (h : Reaches Recorded.step Recorded.Sheltering .start r) :
    ∃ time : Nat → Nat, Monotone time ∧ time r.log.length + 1 = r.past.length ∧
      ∀ (v : View) (seen : Nat), v.leader.applied.map (·.proposal.entry) = r.log →
        v.progress ≤ seen → seen ≤ r.log.length →
          ∃ t, r.past[time seen]? = some t ∧ ∀ again found, v.Displays seen again found t := by
  obtain ⟨time, hmono, hlast, hshows⟩ := (Recorded.kept_of_reaches h).history.exists_time
  refine ⟨time, hmono, hlast, fun v seen hlog hprogress hseen ↦ ?_⟩
  obtain ⟨t, ht, db, t', happly, hrefines, hsame⟩ := hshows seen hseen
  have hv : v.Shows seen db := by
    refine ⟨⟨hprogress, ?_⟩, ?_⟩
    · rwa [← hlog, List.length_map] at hseen
    · rw [Leader.replica, List.map_take, hlog]
      exact happly
  exact ⟨t, ht, fun again found ↦ (hrefines.displays hv).congr hsame⟩

/-- Whoever walks from the root through the directories of a mount finds this path. -/
inductive Walked (v : View) (seen again : Nat) (found : Option (Nat × Nat)) : FullPath → Prop
  | root : Walked v seen again found .top
  | entry {d q : FullPath} {names : List Str} {name : Str} (dir : Walked v seen again found d)
      (listed : (spkdfsReaddir d.str seen again found).run v =
        some (.ok (dot :: dotdot :: names), { v with progress := seen }))
      (member : name ∈ names) (path : joinPath d.str name = q.str) : Walked v seen again found q

/-- What a directory that is listed has, and that it is one. -/
theorem Refines.listed_dir (h : Refines db t) (hv : v.Shows seen db) (hp : p.Absolute)
    {names : List Str} (hrun : (spkdfsReaddir p.str seen again found).run v =
      some (.ok (dot :: dotdot :: names), { v with progress := seen })) :
    t.item p = some .dir := by
  have hls := FullPath.lsPath_str hp
  match hx : t.item p with
  | none =>
    rw [← hls] at hx
    have hrefused := h.ls_of_none (by rw [hls]; exact hp) hx
    rw [spkdfsReaddir, run_bind_error (hv.ls_message hrefused)] at hrun
    cases hrun
  | some .dir => rfl
  | some (.file lease storage data) =>
    rw [← hls] at hx
    obtain ⟨i, hi, hfile, -⟩ := h.ls_of_file hx
    rw [hv.readdir_file hi hfile] at hrun
    cases hrun

/-- On the same condition, a walk from the root finds exactly the directories and the committed
files. -/
theorem walk_finds_tree (h : Reaches lockstep Sheltering (.empty, .bare _ _ _ _) (db, t))
    (hv : v.Shows seen db) (p : FullPath) :
    Walked v seen again found p ↔ ∃ x, t.item p = some x ∧ x.shown = true := by
  have hr := refines_of_reaches h
  constructor
  · intro hw
    induction hw with
    | root => exact ⟨.dir, t.top_dir, rfl⟩
    | @entry d q names name dir listed member path ih =>
      obtain ⟨x, hx, -⟩ := ih
      have hd := hr.listed_dir hv (hr.absolute (by rw [hx]; exact Option.some_ne_none _)) listed
      obtain ⟨i, hi, hdir, -, hnames⟩ := hr.names_of_dir hd
      rw [hv.readdir_ok hi hdir] at listed
      cases listed
      obtain ⟨r, y, -, -, hr', hy, hshown⟩ := (hnames name).mp member
      obtain rfl : r = q := FullPath.ext (hr'.symm.trans path)
      exact ⟨y, hy, hshown⟩
  · rintro ⟨x, hx, hshown⟩
    induction hlength : p.str.length using Nat.strong_induction_on generalizing p x with
    | h length ih =>
      by_cases htop : p = .top
      · exact htop ▸ .root
      · have hn : t.item p ≠ none := by rw [hx]; exact Option.some_ne_none _
        have hparent := t.closed p htop hn
        have hlt := FullPath.length_parent_lt (hr.absolute hn) fun he ↦
          htop (FullPath.ext (he.trans FullPath.str_top.symm))
        rw [hlength] at hlt
        obtain ⟨i, hi, hdir, -, hnames⟩ := hr.names_of_dir hparent
        exact .entry (ih _ hlt p.parent .dir hparent rfl rfl) (hv.readdir_ok hi hdir)
          ((hnames _).mpr ⟨p, x, htop, rfl, p.joinPath_parent, hx, hshown⟩) p.joinPath_parent

/-- A directory that was just made, where the slave has applied its entry. -/
theorem exists_shown : ∃ (db : RocksDB) (t : PathTree) (v : View),
    Reaches lockstep Sheltering (.empty, .bare _ _ _ _) (db, t) ∧ v.Shows 1 db ∧
      t.item (.ofStr "/a".toList) = some .dir := by
  let call : Call := .at 100 (.mkdir "/a".toList)
  let entry : Entry := .opMkdir (.getDefaultDir "/a".toList)
  have hentries : (Namenode.prepare .empty call.env call.request).1 = [entry] := by decide +kernel
  have hmade : (serve .empty call).any (fun db ↦ decide (DirAt db "/a".toList)) = true := by
    decide +kernel
  obtain ⟨db, hserve, hdir⟩ := (Option.any_eq_true _ _).mp hmade
  have hreached : Reaches lockstep Sheltering (.empty, .bare _ _ _ _)
      (db, (PathTree.answer (.bare _ _ _ _) call).1) := by
    have hsheltered : shelteredTest .empty call = true := by decide +kernel
    refine .tail .refl (sheltered_of_test hsheltered) ?_
    simp only [lockstep, hserve, Option.map_some]
  refine ⟨db, _, ⟨⟨"10.0.0.1".toList, db, [], [⟨⟨entry, call.request, 100⟩, .success, 100⟩], 100⟩,
    0, .new 0⟩, hreached, ⟨⟨Nat.zero_le 1, le_refl 1⟩, ?_⟩, ?_⟩
  · rw [serve, serveAnswered, hentries] at hserve
    exact hserve
  · exact (refines_of_reaches hreached).item_eq_dir.mpr (of_decide_eq_true hdir)

theorem mount_shows_tree_mkdir : ∃ (v : View) (names : List Str),
    (spkdfsReaddir root 1 1 none).run v =
        some (.ok (dot :: dotdot :: names), { v with progress := 1 }) ∧ "a".toList ∈ names := by
  obtain ⟨db, t, v, h, hv, hdir⟩ := exists_shown
  obtain ⟨-, hreaddir⟩ := @mount_shows_tree db t v 1 1 none h hv
  obtain ⟨names, hrun, -, hnames⟩ := hreaddir .top t.top_dir
  rw [FullPath.str_top] at hrun
  refine ⟨v, names, hrun, (hnames _).mpr ⟨_, .dir, ?_, ?_, ?_, hdir, rfl⟩⟩
  · decide
  · decide
  · decide

theorem walk_finds_tree_mkdir : ∃ v : View, Walked v 1 1 none (.ofStr "/a".toList) := by
  obtain ⟨db, t, v, h, hv, hdir⟩ := exists_shown
  exact ⟨v, (walk_finds_tree h hv _).mpr ⟨.dir, hdir, rfl⟩⟩

theorem mount_shows_past_tree_mkdir : ∃ (v : View) (t : PathTree), v.Displays 1 1 none t ∧
    t.item (.ofStr "/a".toList) = some .dir := by
  obtain ⟨r, h, hlength, hpast, htree, hdir⟩ := exists_recorded
  obtain ⟨time, -, hlast, hshows⟩ := mount_shows_past_tree h
  let record (entry : Entry) : Record := ⟨⟨entry, .mkdir "/a".toList, 100⟩, .success, 100⟩
  let v : View := ⟨⟨"10.0.0.1".toList, r.store, [], r.log.map record, 100⟩, 0, .new 0⟩
  have hlog : v.leader.applied.map (·.proposal.entry) = r.log := by
    simp [v, record, Function.comp_def]
  rw [hlength, hpast] at hlast
  obtain ⟨t, ht, hdisplays⟩ := hshows v 1 hlog (Nat.zero_le 1) hlength.ge
  rw [Nat.succ.inj hlast, htree] at ht
  obtain rfl := Option.some.inj ht
  exact ⟨v, _, hdisplays 1 none, hdir⟩

end Spkdfs
