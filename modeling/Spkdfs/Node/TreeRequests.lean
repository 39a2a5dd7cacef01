import Spkdfs.Node.PathTree

namespace Spkdfs

open Library RocksDB Function

variable {db db' : RocksDB} {t : PathTree} {p q : FullPath}
  {x : Option (Item StorageType Contents)} {env : Env} {path : Str}

/-- The record that `put` writes for a file: what was committed stays. -/
structure PutRecord (t : PathTree) (lease : Nat) (file : FullPath × StorageType) (i : Inode) :
    Prop where
  fullpath : i.fullpath = file.1
  valid : i.valid = true
  isDirectory : i.isDirectory = false
  leased : i.ddlLock = lease
  stored : i.storageType = some file.2
  content : (i.filesize, i.sub) = ((t.item file.1).bind Item.data).getD (0, [])

/-- The record that a member of a commit brings. -/
structure CommitRecord (file : FullPath × Contents) (i : Inode) : Prop where
  fullpath : i.fullpath = file.1
  isDirectory : i.isDirectory = false
  content : (i.filesize, i.sub) = file.2

theorem ofPath_ofStr (path : Str) : Inode.ofPath (FullPath.ofStr path).str = .ofPath path :=
  congrArg (fun p : FullPath ↦ ({ fullpath := p } : Inode)) (FullPath.ofStr_str (.ofStr path))

namespace Refines

section Mkdir

theorem pathExists_eq (h : Refines db t) (hp : p.Absolute) :
    pathExists db p.str = .ok (t.item p).isSome := by
  cases hx : t.item p with
  | some x =>
    have hvalid := h.item_ne_none.mp (hx ▸ Option.some_ne_none x)
    exact pathExists_eq_true.mpr (.inr hvalid)
  | none =>
    have hroot : p.str ≠ root := by
      intro he
      rw [show p = .top from FullPath.ext (he.trans FullPath.str_top.symm), t.top_dir] at hx
      cases hx
    refine pathExists_eq_false.mpr ⟨hroot, ?_⟩
    cases hf : db.find p.str with
    | none => exact .inl rfl
    | some v =>
      cases v with
      | agg agg => exact absurd (List.mem_of_mem_head? hp) (h.plain _ _ hf)
      | inode i =>
        have hl := lookup_of_find hf
        have hholds := h.holds p
        rw [hx] at hholds
        cases hholds with
        | nothing clean =>
          refine .inr ⟨i, hl, ?_⟩
          rw [clean i hl]
          rfl

/-- `mkdir` is accepted where the tree grants it, given that the parent is no file. -/
theorem mkdir_grants (h : Refines db t) (ha : path.head? = some '/')
    (hfile : ¬ FileAt db (getParentPath (simplifyPath path))) :
    (∃ entries, Namenode.mkdir db path = .ok entries) ↔ t.Grants (.mkdir (.ofStr path)) := by
  have habs := FullPath.absolute_ofStr ha
  have hparent : pathExists db (Inode.getDefaultDir path).parentPath =
      .ok (t.item (FullPath.ofStr path).parent).isSome := h.pathExists_eq habs.parent
  have hown : pathExists db (Inode.getDefaultDir path).fullpath.str =
      .ok (t.item (.ofStr path)).isSome := h.pathExists_eq habs
  have hnofile : ¬ Item.IsFile (t.item (FullPath.ofStr path).parent) := h.isFile_item.not.mpr hfile
  simp only [Namenode.mkdir_eq_ok, mkdirPath_of_absolute ha, hparent, hown, Except.ok.injEq,
    exists_and_left, exists_eq, and_true, FileTree.Grants]
  constructor
  · rintro ⟨-, hp, ho⟩
    refine ⟨not_not.mp fun hne ↦ hnofile ?_, Option.not_isSome_iff_eq_none.mp (by simp [ho])⟩
    exact Item.isFile_of_ne (Option.isSome_iff_ne_none.mp hp) hne
  · rintro ⟨hp, ho⟩
    exact ⟨ne_nil_of_rooted ha, by simp [hp], by simp [ho]⟩

theorem ne_parent_of_dir (hp : t.item p ≠ some .dir) (hq : t.item q ≠ none) : q.parent ≠ p := by
  rintro rfl
  exact hp (parent_dir hq)

theorem linked_dentry {own : Inode} {k : Kind} {names : List Str → List Str}
    (hl : Linked db own names db') (hparent : t.item own.fullpath.parent = some .dir)
    (hown : t.item own.fullpath ≠ some .dir)
    (hnames : ∀ sub, dentry own.fullpath k ∈ names sub) :
    dentry own.fullpath k ∈ subAt db' own.fullpath.parent.str := by
  have hne : own.fullpath.parent.str ≠ own.fullpath.str := by
    intro he
    rw [FullPath.ext he] at hparent
    exact hown hparent
  rw [hl.subAt hne, if_pos own.parentPath_eq.symm]
  exact hnames _

theorem mkdir_holds (h : Refines db t) (hg : t.Grants (.mkdir (.ofStr path))) :
    ∃ db', internalMkdir db (.getDefaultDir path) = .ok db' ∧
      ∀ q, Holds db' q (t.effect (.mkdir (.ofStr path)) q) := by
  obtain ⟨hparent, hfree⟩ := hg
  obtain ⟨parent, hlookup⟩ := h.lookup_dir hparent
  have hname : (Inode.getDefaultDir path).filename = dentry (.ofStr path) .dir := rfl
  have hlinked : Linked db (.getDefaultDir path)
      (addName · (Inode.getDefaultDir path).filename) _ := ⟨parent, hlookup, rfl⟩
  refine ⟨_, internalMkdir_eq_ok.mpr hlinked, fun q ↦ ?_⟩
  have hown : t.item (.ofStr path) ≠ some .dir := by
    rw [hfree]
    exact fun he ↦ nomatch he
  rw [hname] at hlinked
  by_cases hq : q = .ofStr path
  · subst hq
    rw [FileTree.effect, update_self]
    refine .dir hlinked.lookup_self rfl rfl fun _ ↦ ?_
    exact linked_dentry hlinked hparent hown fun sub ↦ mem_addName.mpr (.inr rfl)
  · rw [FileTree.effect, update_of_ne hq]
    refine h.holds_linked hlinked hparent (fun q _ hn ↦ ne_parent_of_dir hown hn) ?_ hq
    exact fun q hq hp k sub ↦ mem_addName_dentry hq hp

end Mkdir

section Rm

theorem aggRm_of_nil (h : db.find [] = none) (path : Str) : aggRm db path = .ok none := by
  have hget : getInode db (.ofPath []) = .ok (.ofPath []) :=
    getInode_eq_ok.mpr (.inr ⟨h, by decide, rfl⟩)
  rw [aggRm, hget]
  rfl

/-- `rm` is accepted where the tree grants it, given that it asks neither for the root nor for
the directory of something. -/
theorem rm_grants (h : Refines db t) (ha : path.head? = some '/') (hroot : simplifyPath path ≠ root)
    (hchildless : ∀ child, getParentPath child = simplifyPath path → ¬ ValidAt db child) :
    (∃ entries, Namenode.rm db path = .ok entries) ↔ t.Grants (.remove (.ofStr path)) := by
  have hown : pathExists db (simplifyPath path) = .ok (t.item (.ofStr path)).isSome :=
    h.pathExists_eq (FullPath.absolute_ofStr ha)
  simp only [Namenode.rm_eq_ok, hown, Except.ok.injEq, exists_and_left, exists_eq, and_true,
    FileTree.Grants]
  constructor
  · rintro ⟨-, ho⟩
    refine ⟨fun htop ↦ hroot ?_, Option.isSome_iff_ne_none.mp ho, fun j hj ↦ ?_⟩
    · rw [← FullPath.str_ofStr, htop, FullPath.str_top]
    · have hnone := hchildless j.str (congrArg FullPath.str hj)
      exact not_not.mp (h.item_ne_none.not.mpr hnone)
  · rintro ⟨-, ho, -⟩
    exact ⟨ne_nil_of_rooted ha, Option.isSome_iff_ne_none.mpr ho⟩

theorem rm_holds (h : Refines db t) (hg : t.Grants (.remove (.ofStr path))) :
    ∃ db', internalRm db (.ofPath path) = .ok db' ∧
      ∀ q, Holds db' q (t.effect (.remove (.ofStr path)) q) := by
  obtain ⟨-, hn, hchildless⟩ := hg
  have hparent := parent_dir hn
  obtain ⟨parent, hlookup⟩ := h.lookup_dir hparent
  have hget : getParentInode db (.ofPath path) = .ok parent := getParentInode_eq_ok.mpr hlookup
  obtain ⟨db', hrm⟩ : ∃ db', internalRm db (.ofPath path) = .ok db' := by
    rw [internalRm, hget, ok_bind, aggRm_of_nil h.nil]
    exact ⟨_, rfl⟩
  have hlinked := internalRm_ok hrm
  refine ⟨db', hrm, fun q ↦ ?_⟩
  have hname : (Inode.ofPath path).filename = filename (FullPath.ofStr path).str := by
    simp [Inode.filename, Inode.ofPath]
  by_cases hq : q = .ofStr path
  · subst hq
    rw [FileTree.effect, update_self]
    refine .nothing fun i hi ↦ ?_
    obtain rfl := Option.some.inj (hi.symm.trans hlinked.lookup_self)
    exact (ofPath_ofStr path).symm
  · rw [FileTree.effect, update_of_ne hq]
    have hne : q ≠ (Inode.ofPath path).fullpath := hq
    rw [hname] at hlinked
    refine h.holds_linked hlinked hparent (fun q _ hn hp ↦ hn (hchildless q hp)) ?_ hne
    exact fun q hq hp k sub ↦ mem_removeName_dentry hq hp

end Rm

section Put

theorem getInode_of_none (h : Refines db t) (hp : p.Absolute) (hx : t.item p = none) :
    getInode db (.ofPath p.str) = .ok (.ofPath p.str) := by
  obtain ⟨hroot, hgone⟩ := pathExists_eq_false.mp ((h.pathExists_eq hp).trans (by rw [hx]; rfl))
  refine getInode_eq_ok.mpr ?_
  rw [p.simplified]
  rcases hgone with hf | ⟨i, hi, -⟩
  · exact .inr ⟨hf, hroot, rfl⟩
  · have hholds := h.holds p
    rw [hx] at hholds
    cases hholds with
    | nothing clean => exact .inl (clean i hi ▸ hi)

/-- What `put` reads at a path. -/
theorem exists_getInode (h : Refines db t) (ha : path.head? = some '/') :
    ∃ f, getInode db (.ofPath path) = .ok f ∧
      (f.valid = true ∧ f.isDirectory = true ↔ t.item (.ofStr path) = some .dir) ∧
      (t.item (.ofStr path) ≠ some .dir →
        f.ddlLock = (t.item (.ofStr path)).elim 0 Item.lease ∧
          (f.filesize, f.sub) = ((t.item (.ofStr path)).bind Item.data).getD (0, [])) := by
  rw [← ofPath_ofStr]
  have hp := FullPath.absolute_ofStr ha
  generalize FullPath.ofStr path = p at hp ⊢
  have hholds := h.holds p
  generalize hx : t.item p = x at hholds
  have hfound : ∀ i, lookup db p.str = some i → getInode db (.ofPath p.str) = .ok i := by
    intro i hi
    refine getInode_eq_ok.mpr (.inl ?_)
    rw [p.simplified, hi]
  cases hholds with
  | nothing clean =>
    refine ⟨_, h.getInode_of_none hp hx, ?_, fun _ ↦ ⟨rfl, rfl⟩⟩
    exact iff_of_false (fun hd ↦ nomatch hd.1) fun he ↦ nomatch he
  | @dir i found valid isDirectory =>
    exact ⟨i, hfound i found, iff_of_true ⟨valid, isDirectory⟩ rfl, fun hne ↦ absurd rfl hne⟩
  | @file i lease storage data found valid isDirectory leased stored content =>
    refine ⟨i, hfound i found, ?_, fun _ ↦ ⟨leased, content⟩⟩
    rw [isDirectory]
    exact iff_of_false (fun hd ↦ nomatch hd.2) fun he ↦ nomatch he

theorem asked_eq_some {req : NNPutRequest} {file : FullPath × StorageType} :
    req.asked = some file ↔ file.1 = .ofStr req.path ∧
      StorageType.fromString req.storageType = .ok file.2 := by
  unfold NNPutRequest.asked
  cases hs : StorageType.fromString req.storageType with
  | error f => simp [Except.toOption]
  | ok s =>
    simp only [Except.toOption, Option.map_some, Option.some.injEq, Except.ok.injEq, Prod.ext_iff]
    exact and_congr eq_comm Iff.rfl

/-- What `put` has checked of a path, and the record that it makes. -/
theorem record_of_putInode (h : Refines db t) {req : NNPutRequest} {now : Nat} {i : Inode}
    (ha : req.path.head? = some '/') (hput : Namenode.putInode db now req = .ok i) :
    ∃ file, req.asked = some file ∧ t.item file.1 ≠ some .dir ∧
      (t.item file.1).elim 0 Item.lease < now ∧
        PutRecord t (now + lockRefreshInterval) file i := by
  obtain ⟨-, j, hj, s, hs, rfl⟩ := Namenode.putInode_eq_ok.mp hput
  obtain ⟨f, hf, hdir, hlock, rfl⟩ := preparePut_eq_ok.mp hj
  obtain ⟨g, hg, hisdir, hfile⟩ := h.exists_getInode ha
  obtain rfl := Except.ok.inj (hf.symm.trans hg)
  rw [hisdir] at hdir
  obtain ⟨hleased, hcontent⟩ := hfile hdir
  have hpath := fullpath_of_getInode hf
  exact ⟨(.ofStr req.path, s), asked_eq_some.mpr ⟨rfl, hs⟩, hdir, hleased ▸ hlock,
    ⟨hpath, rfl, rfl, rfl, rfl, hcontent⟩⟩

theorem exists_putInode (h : Refines db t) {req : NNPutRequest} {now : Nat}
    {file : FullPath × StorageType} (ha : req.path.head? = some '/')
    (hasked : req.asked = some file) (hdir : t.item file.1 ≠ some .dir)
    (hlock : (t.item file.1).elim 0 Item.lease < now) :
    ∃ i, Namenode.putInode db now req = .ok i := by
  obtain ⟨hpath, hs⟩ := asked_eq_some.mp hasked
  rw [hpath] at hdir hlock
  obtain ⟨f, hf, hisdir, hfile⟩ := h.exists_getInode ha
  rw [← (hfile hdir).1] at hlock
  exact ⟨_, Namenode.putInode_eq_ok.mpr ⟨ne_nil_of_rooted ha, _,
    preparePut_eq_ok.mpr ⟨f, hf, hisdir.not.mpr hdir, hlock, rfl⟩, _, hs, rfl⟩⟩

section

variable {reqs : List NNPutRequest} {files : List (FullPath × StorageType)} {now : Nat}

theorem put_records (h : Refines db t) {is : List Inode}
    (ha : ∀ req ∈ reqs, req.path.head? = some '/')
    (hasked : List.Forall₂ (fun req file ↦ NNPutRequest.asked req = some file) reqs files)
    (his : List.Forall₂ (fun req i ↦ Namenode.putInode db now req = .ok i) reqs is) :
    List.Forall₂ (PutRecord t (now + lockRefreshInterval)) files is := by
  induction hasked generalizing is with
  | nil =>
    cases his
    exact .nil
  | cons hreq _ ih =>
    cases his with
    | cons hput his =>
      obtain ⟨file, hfile, -, -, hr⟩ := h.record_of_putInode (ha _ List.mem_cons_self) hput
      obtain rfl := Option.some.inj (hreq.symm.trans hfile)
      exact .cons hr (ih (fun req hmem ↦ ha req (List.mem_cons_of_mem _ hmem)) his)

/-- `put` is accepted where the tree grants it, given that it is accepted in directories only. -/
theorem put_grants (h : Refines db t) (ha : ∀ req ∈ reqs, req.path.head? = some '/')
    (hasked : List.Forall₂ (fun req file ↦ NNPutRequest.asked req = some file) reqs files)
    (hdirs : (∃ is, List.Forall₂ (fun req i ↦ Namenode.putInode db now req = .ok i) reqs is) →
      ∀ req ∈ reqs, DirAt db (getParentPath (simplifyPath req.path))) :
    (∃ is, List.Forall₂ (fun req i ↦ Namenode.putInode db now req = .ok i) reqs is) ↔
      t.Grants (.put now (now + lockRefreshInterval) files) := by
  constructor
  · rintro ⟨is, his⟩ file hfile
    obtain ⟨req, hreq, he⟩ := forall₂_mem_right hasked hfile
    obtain ⟨i, -, hput⟩ := forall₂_mem_left his hreq
    obtain ⟨file', hfile', hdir, hlock, -⟩ := h.record_of_putInode (ha req hreq) hput
    obtain rfl := Option.some.inj (he.symm.trans hfile')
    refine ⟨h.item_eq_dir.mpr ?_, hdir, hlock⟩
    have hparent := hdirs ⟨is, his⟩ req hreq
    rwa [(asked_eq_some.mp he).1]
  · intro hg
    refine exists_forall₂ fun req hreq ↦ ?_
    obtain ⟨file, hfile, he⟩ := forall₂_mem_left hasked hreq
    obtain ⟨-, hdir, hlock⟩ := hg file hfile
    exact h.exists_putInode (ha req hreq) he hdir hlock

end

theorem put_holds (h : Refines db t) {now lease : Nat} {files : List (FullPath × StorageType)}
    {is : List Inode} (hrecords : List.Forall₂ (PutRecord t lease) files is)
    (hg : t.Grants (.put now lease files)) (q : FullPath) :
    Holds (db.write (is.map .inode)) q (t.effect (.put now lease files) q) := by
  have hfiles : ∀ i ∈ is, t.item i.fullpath ≠ some .dir := by
    intro i hi
    obtain ⟨file, hfile, hr⟩ := forall₂_mem_right hrecords hi
    rw [hr.fullpath]
    exact (hg file hfile).2.1
  have hsub : ∀ d, t.item d = some .dir →
      subAt (db.write (is.map .inode)) d.str = subAt db d.str := by
    intro d hd
    refine subAt_congr ?_
    rcases lookup_write_cases db is d.str with ⟨i, hi, hpath, -⟩ | ⟨-, hl⟩
    · exact absurd (FullPath.ext hpath ▸ hd) (hfiles i hi)
    · exact hl
  obtain ⟨hnone, hsome⟩ := lastFor_records hrecords (fun _ _ hr ↦ hr.fullpath) q
  cases hlast : lastFor files q with
  | none =>
    rw [FileTree.effect_put_of_none hlast]
    exact h.holds_written hsub (hnone hlast)
  | some storage =>
    obtain ⟨i, hi, hr⟩ := hsome storage hlast
    obtain ⟨hparent, hdir, -⟩ := hg _ (mem_of_lastFor hlast)
    rw [FileTree.effect_put_of_some hlast]
    refine .file (lookup_of_last hi) hr.valid hr.isDirectory hr.leased hr.stored hr.content ?_
    rw [hsub _ hparent]
    have hholds := h.holds q
    generalize hx : t.item q = x at hholds hdir ⊢
    cases hholds with
    | nothing => exact iff_of_false (h.not_listed hx hparent .file) fun he ↦ nomatch he
    | dir => exact absurd rfl hdir
    | file _ _ _ _ _ _ listed => exact listed

end Put

section Commit

variable {i : Inode}

theorem putOkInode_grants (h : Refines db t) {req : NNPutOKRequest}
    (ha : req.path.head? = some '/') :
    (∃ i, Namenode.putOkInode db req = .ok i) ↔ Item.IsFile (t.item (.ofStr req.path)) := by
  simp only [h.isFile_item, Namenode.putOkInode_eq_ok, preparePutOk_eq_ok, FileAt,
    FullPath.str_ofStr]
  constructor
  · rintro ⟨-, -, j, hj, -⟩
    exact ⟨j, hj⟩
  · rintro ⟨j, hj⟩
    exact ⟨_, ne_nil_of_rooted ha, j, hj, rfl⟩

theorem record_of_putOkInode {req : NNPutOKRequest} (hput : Namenode.putOkInode db req = .ok i) :
    CommitRecord req.asked i := by
  obtain ⟨-, j, hj, rfl⟩ := Namenode.putOkInode_eq_ok.mp hput
  obtain ⟨hl, -, hd⟩ := preparePutOk_eq_ok.mp hj
  have hpath : j.fullpath = .ofStr req.path := FullPath.ext (fullpath_of_lookup hl)
  exact ⟨hpath, hd, rfl⟩

theorem commit_records {reqs : List NNPutOKRequest} {is : List Inode}
    {R : NNPutOKRequest → Inode → Prop} (hr : ∀ req i, R req i → CommitRecord req.asked i)
    (his : List.Forall₂ R reqs is) :
    List.Forall₂ CommitRecord (reqs.map (·.asked)) is := by
  rw [List.forall₂_map_left_iff]
  exact his.imp hr

theorem commit_grants (t : PathTree) (reqs : List NNPutOKRequest) :
    t.Grants (.commit (reqs.map (·.asked))) ↔
      ∀ req ∈ reqs, Item.IsFile (t.item (.ofStr req.path)) := by
  constructor
  · exact fun hg req hreq ↦ hg _ (List.mem_map_of_mem hreq)
  · intro hfiles file hfile
    obtain ⟨req, hreq, rfl⟩ := List.mem_map.mp hfile
    exact hfiles req hreq

/-- A batch is accepted where the tree grants the commit, given that its members have places. -/
theorem putOkBatch_grants (h : Refines db t) {reqs : List NNPutOKRequest}
    (ha : ∀ req ∈ reqs, req.path.head? = some '/')
    (hmachine : (stoi (basePart '.' env.myIp)).toOption.isSome = true)
    (hplaced : ∀ req ∈ reqs, req.placed = true) :
    (∃ entries, Namenode.putOkBatch db env reqs = .ok entries) ↔
      t.Grants (.commit (reqs.map (·.asked))) := by
  rw [commit_grants]
  constructor
  · rintro ⟨entries, hput⟩ req hreq
    obtain ⟨is, agg, his, -, -⟩ := Namenode.putOkBatch_ok hput
    obtain ⟨i, -, j, hj, -⟩ := forall₂_mem_left his hreq
    exact (h.putOkInode_grants (ha req hreq)).mp ⟨j, hj⟩
  · intro hfiles
    cases hm : stoi (basePart '.' env.myIp) with
    | error f =>
      rw [hm] at hmachine
      cases hmachine
    | ok machineId =>
      have hmembers : ∀ id, ∃ members,
          List.Forall₂ (fun req m ↦ Namenode.putOkMember db id req = .ok m) reqs members := by
        refine fun id ↦ exists_forall₂ fun req hreq ↦ ?_
        obtain ⟨j, hj⟩ := (h.putOkInode_grants (ha req hreq)).mpr (hfiles req hreq)
        obtain ⟨first, hfirst, hpair⟩ := Option.any_eq_true _ _ |>.mp (hplaced req hreq)
        obtain ⟨rest, hsub⟩ := List.head?_eq_some_iff.mp hfirst
        cases hlast : Namenode.getLastPair first with
        | error f =>
          rw [hlast] at hpair
          cases hpair
        | ok pos =>
          exact ⟨_, Namenode.putOkMember_eq_ok.mpr ⟨j, first, rest, pos, hj, hsub, hlast, rfl⟩⟩
      obtain ⟨members, hms⟩ := hmembers _
      simp only [Namenode.putOkBatch, hm, ok_bind, bind_eq_ok, mapM_eq_ok]
      exact ⟨_, members, hms, rfl⟩

/-- A commit of one file is a batch of one. -/
theorem batchEffect_of_putOk {req : NNPutOKRequest} (hput : Namenode.putOkInode db req = .ok i)
    (hne : i.parentPath ≠ i.fullpath.str) (h : internalPutOk db i = .ok db') :
    BatchEffect db [i] db' := by
  obtain ⟨-, j, hj, rfl⟩ := Namenode.putOkInode_eq_ok.mp hput
  obtain ⟨hl, -, -⟩ := preparePutOk_eq_ok.mp hj
  obtain ⟨c, hc, hlinked⟩ := internalPutOk_eq_ok.mp h
  have hcommit := commit_of_lookup hl hc
  have hagg : commitAgg db { j with sub := req.sub, filesize := req.filesize } = .ok c := by
    rw [commitAgg, hc, ok_bind]
    split
    · rfl
    · rw [hcommit]
      rfl
  have hpath : c.fullpath = j.fullpath := by rw [fullpath_of_commit hc]
  have hparent : c.parentPath = j.parentPath := by
    rw [Inode.parentPath, Inode.parentPath, hpath]
  refine ⟨fun k hk ↦ ?_, fun k hk _ ↦ ?_, fun path hp hs ↦ ?_⟩
  · obtain rfl := List.mem_singleton.mp hk
    obtain ⟨parent, hp, hp'⟩ := hlinked.lookup_parent (by rwa [hparent, hpath])
    rw [hparent] at hp hp'
    refine ⟨parent, hp, hp'.trans ?_⟩
    simp [dentries]
  · obtain rfl := List.mem_singleton.mp hk
    refine ⟨_, by simp, c, hagg, ?_⟩
    have hself := hlinked.lookup_self
    rwa [hpath] at hself
  · have hs := hs _ (List.mem_singleton_self _)
    have hp := hp _ (List.mem_singleton_self _)
    refine hlinked.find_other (fun he ↦ hs ?_) fun he ↦ hp ?_
    · rw [he, hpath]
    · rw [he, hparent]
      rfl

/-- A member of a batch keeps its storage type, and its lease ends. -/
theorem holds_member {c : Inode} {file : FullPath × Contents} (hr : CommitRecord file i)
    (hc : commitAgg db i = .ok c) (hfound : lookup db' file.1.str = some c)
    (hholds : Holds db file.1 x) (hfile : Item.IsFile x)
    (hlisted : dentry file.1 .file ∈ subAt db' file.1.parent.str) :
    Holds db' file.1 (x.map (Item.committed file.2)) := by
  obtain ⟨lease, storage, data, rfl⟩ := hfile
  cases hholds with
  | @file f _ _ _ found valid isDirectory _ stored _ _ =>
    rw [commitAgg, bind_eq_ok] at hc
    obtain ⟨d, hd, hc⟩ := hc
    obtain ⟨g, hg, rfl⟩ := commit_eq_ok.mp hd
    rw [hr.fullpath, getInode_eq_ok.mpr (.inl (by rw [FullPath.simplified]; exact found))] at hg
    obtain rfl := Except.ok.inj hg
    have hlist := iff_of_true hlisted (rfl : (some file.2).isSome = true)
    split at hc
    · obtain rfl := Except.ok.inj hc
      exact .file hfound valid isDirectory rfl stored hr.content hlist
    · obtain rfl := Except.ok.inj hc
      exact .file hfound valid isDirectory rfl stored hr.content hlist

theorem commit_holds (h : Refines db t) {files : List (FullPath × Contents)} {is : List Inode}
    (hrecords : List.Forall₂ CommitRecord files is) (hg : t.Grants (.commit files))
    (heffect : BatchEffect db is db') (q : FullPath) :
    Holds db' q (t.effect (.commit files) q) := by
  have hmember : ∀ i ∈ is, Item.IsFile (t.item i.fullpath) ∧ i.isDirectory = false := by
    intro i hi
    obtain ⟨file, hfile, hr⟩ := forall₂_mem_right hrecords hi
    rw [hr.fullpath]
    exact ⟨hg file hfile, hr.isDirectory⟩
  have hname : ∀ i ∈ is, i.filename = dentry i.fullpath .file := fun i hi ↦ by
    simp [Inode.filename, dentry, (hmember i hi).2]
  have hne : ∀ d, t.item d = some .dir → ∀ i ∈ is, i.fullpath.str ≠ d.str := by
    intro d hd i hi he
    rw [← FullPath.ext he] at hd
    exact (hmember i hi).1.ne_dir hd
  have hparent : ∀ i ∈ is, t.item i.fullpath.parent = some .dir := fun i hi ↦
    FileTree.parent_of_isFile (hmember i hi).1
  obtain ⟨hnone, hsome⟩ := lastFor_records hrecords (fun _ _ hr ↦ hr.fullpath) q
  cases hlast : lastFor files q with
  | none =>
    have hother := hnone hlast
    rw [FileTree.effect_commit_of_none hlast]
    refine (h.holds q).frame ?_ fun hn k ↦ ?_
    · by_cases hp : ∃ i ∈ is, i.fullpath.parent = q
      · obtain ⟨i, hi, rfl⟩ := hp
        obtain ⟨parent, hl, hl'⟩ := heffect.parent i hi
        exact .inr ⟨hparent i hi, parent, _, hl, hl'⟩
      · have hp' : ∀ i ∈ is, i.parentPath ≠ q.str := fun i hi he ↦ hp ⟨i, hi, FullPath.ext he⟩
        have hs : ∀ i ∈ is, i.fullpath.str ≠ q.str := fun i hi he ↦ hother i hi (FullPath.ext he)
        rw [lookup, heffect.other q.str hp' hs]
        exact .inl rfl
    · rw [heffect.subAt (hne _ (parent_dir hn)), mem_dentries, or_iff_left]
      rintro ⟨i, hi, hp, he⟩
      rw [hname i hi] at he
      exact hother i hi (dentry_injective (FullPath.ext hp) he.symm)
  | some data =>
    obtain ⟨i, hi, hr⟩ := hsome data hlast
    obtain ⟨hmem, rfl⟩ := of_getLast?_filter hi
    have hinner : ∀ k ∈ is, k.parentPath ≠ i.fullpath.str := fun k hk he ↦
      hne _ (hparent k hk) i hmem he.symm
    obtain ⟨j, hj, c, hc, hl⟩ := heffect.member i hmem hinner
    obtain rfl := Option.some.inj (hj.symm.trans hi)
    rw [FileTree.effect_commit_of_some hlast]
    refine holds_member hr hc hl (h.holds _) (hmember _ hmem).1 ?_
    rw [heffect.subAt (hne _ (hparent _ hmem)), mem_dentries]
    exact .inr ⟨_, hmem, rfl, (hname _ hmem).symm⟩

theorem putAgg_holds {agg : AggInode} (hplain : '/' ∉ agg.id) (hholds : Holds db q x)
    (habs : x ≠ none → q.Absolute) : Holds (db.put (.agg agg)) q x := by
  have hne : q.Absolute → q.str ≠ agg.id := by
    intro ha he
    exact hplain (he ▸ List.mem_of_mem_head? ha)
  have hkept : ∀ q : FullPath, q.str ≠ agg.id →
      lookup (db.put (.agg agg)) q.str = lookup db q.str := fun q hq ↦
    lookup_put_of_ne db (v := .agg agg) hq
  by_cases hq : q.str = agg.id
  · have hx : x = none := not_not.mp fun hn ↦ hne (habs hn) hq
    rw [hx]
    refine .nothing fun i hi ↦ ?_
    have hf : (db.put (.agg agg)).find agg.id = some (.agg agg) := db.find_put_self (.agg agg)
    simp [lookup, hq, hf] at hi
  · refine hholds.frame (.inl (hkept q hq)) fun hn k ↦ ?_
    have hparent : q.parent.str ≠ agg.id := fun he ↦
      hplain (he ▸ List.mem_of_mem_head? (habs hn).parent)
    rw [subAt_congr (hkept q.parent hparent)]

end Commit

section Renew

theorem renew_holds (h : Refines db t) {good : List Str} {is : List Inode} {now : Nat}
    (hr : Refreshed db now good is) (q : FullPath) :
    Holds (db.write (is.map .inode)) q (if q ∈ good.map .ofStr then
      (t.item q).map (Item.renewed (now + lockRefreshInterval)) else t.item q) := by
  have hrecord : ∀ i ∈ is, ∃ j, lookup db i.fullpath.str = some j ∧ i = j.updateDdlLock now := by
    intro i hi
    obtain ⟨p, -, hpath, j, hj, he⟩ := hr.fullpath hi
    exact ⟨j, hpath ▸ hj, he⟩
  have hsub : ∀ d, subAt (db.write (is.map .inode)) d = subAt db d := by
    intro d
    rcases lookup_write_cases db is d with ⟨i, hi, rfl, hl⟩ | ⟨-, hl⟩
    · obtain ⟨j, hj, he⟩ := hrecord i hi
      rw [subAt_of_lookup hl, subAt_of_lookup hj, he]
      rfl
    · exact subAt_congr hl
  rcases lookup_write_cases db is q.str with ⟨i, hi, hpath, hl⟩ | ⟨hno, hl⟩
  · obtain ⟨p, hp, hip, -⟩ := hr.fullpath hi
    have hq : q = .ofStr p := FullPath.ext (hpath.symm.trans hip)
    rw [if_pos (List.mem_map.mpr ⟨p, hp, hq.symm⟩)]
    obtain ⟨j, hj, rfl⟩ := hrecord i hi
    rw [hpath] at hj
    have hstands : t.item q ≠ none := h.item_ne_none.mpr (hq ▸ hr.valid hp)
    have hholds := h.holds q
    generalize t.item q = x at hholds hstands
    cases hholds with
    | nothing => exact absurd rfl hstands
    | dir found valid isDirectory listed =>
      obtain rfl := Option.some.inj (hj.symm.trans found)
      exact .dir hl valid isDirectory fun hne ↦ by rw [hsub]; exact listed hne
    | file found valid isDirectory _ stored content listed =>
      obtain rfl := Option.some.inj (hj.symm.trans found)
      exact .file hl valid isDirectory rfl stored content (by rw [hsub]; exact listed)
  · have hnot : q ∉ good.map .ofStr := by
      intro hm
      obtain ⟨p, hp, rfl⟩ := List.mem_map.mp hm
      obtain ⟨i, hi, j, hj, -, rfl⟩ := forall₂_mem_left hr.each hp
      exact hno _ hi (fullpath_of_lookup (i := j) hj)
    rw [if_neg hnot]
    exact (h.holds q).frame (.inl hl) fun _ k ↦ by rw [hsub]

end Renew

end Refines

end Spkdfs
