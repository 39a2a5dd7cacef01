import Spkdfs.Node.TreeRequests

namespace Spkdfs

open Library RocksDB Function

variable {db db' : RocksDB} {t : PathTree} {q : FullPath} {env : Env} {path : Str}

/-- The namenode does what the tree does, and says so. -/
structure Agree (db : RocksDB) (t : PathTree) (call : Call) (db' : RocksDB)
    (answers : List Answer) : Prop where
  served : serveAnswered db call = some (db', answers)
  holds : ∀ p, Holds db' p ((t.answer call).1.item p)
  accepted : Accepted db call ↔ (t.answer call).2 = true
  applied : ∀ answer ∈ answers, answer = .success

namespace Refines

variable {call : Call}

theorem agree_malformed (h : Refines db t) {result : Except Fault (List Entry)}
    (hprep : Namenode.prepare db call.env call.request = Namenode.proposed result)
    (hasked : call.asked = none) (hrefused : ¬ ∃ entries, result = .ok entries) :
    Agree db t call db [] := by
  have hanswer : t.answer call = (t, false) := by rw [PathTree.answer, hasked]
  cases result with
  | ok entries => exact absurd ⟨entries, rfl⟩ hrefused
  | error f =>
    refine ⟨by rw [serveAnswered, hprep]; rfl, ?_, ?_, fun a ha ↦ absurd ha List.not_mem_nil⟩
    · rw [hanswer]
      exact h.holds
    · rw [hanswer, Accepted, hprep]
      exact iff_of_false (Option.some_ne_none f) Bool.false_ne_true

theorem agree_single (h : Refines db t) {result : Except Fault (List Entry)} {op : PathOp}
    (hprep : Namenode.prepare db call.env call.request = Namenode.proposed result)
    (hasked : call.asked = some [op])
    (hgrants : (∃ entries, result = .ok entries) ↔ t.Grants op)
    (hdone : t.Grants op → ∀ entries, result = .ok entries → ∃ db' answers,
      applyAll db entries = some (db', answers) ∧ (∀ answer ∈ answers, answer = .success) ∧
        ∀ q, Holds db' q (t.effect op q)) :
    ∃ db' answers, Agree db t call db' answers := by
  have hanswer : t.answer call = t.exec [op] := by rw [PathTree.answer, hasked]
  cases result with
  | error f =>
    have hrefused : ¬ t.Grants op := by
      intro hg
      obtain ⟨entries, he⟩ := hgrants.mpr hg
      cases he
    rw [FileTree.exec_of_not_grants hrefused] at hanswer
    refine ⟨db, [], by rw [serveAnswered, hprep]; rfl, ?_, ?_, fun a ha ↦
      absurd ha List.not_mem_nil⟩
    · rw [hanswer]
      exact h.holds
    · rw [hanswer, Accepted, hprep]
      exact iff_of_false (Option.some_ne_none f) Bool.false_ne_true
  | ok entries =>
    have hg := hgrants.mp ⟨entries, rfl⟩
    obtain ⟨hitem, hgranted⟩ := FileTree.exec_of_grants hg
    obtain ⟨db', answers, happly, hsuccess, hholds⟩ := hdone hg entries rfl
    refine ⟨db', answers, by rw [serveAnswered, hprep]; exact happly, fun q ↦ ?_, ?_, hsuccess⟩
    · rw [hanswer, hitem]
      exact hholds q
    · rw [hanswer, hgranted, Accepted, hprep]
      exact iff_of_true rfl rfl

theorem applyAll_success (db : RocksDB) {e : Entry} (h : RaftNN.applyOp db e = .ok db') :
    applyAll db [e] = some (db', [.success]) ∧ ∀ a ∈ [Answer.success], a = .success :=
  ⟨applyAll_singleton.mpr ⟨_, onApply_eq_success.mpr h, rfl⟩, fun _ ↦ List.mem_singleton.mp⟩

theorem agree_mkdir (h : Refines db t) (ha : path.head? = some '/')
    (hfile : ¬ FileAt db (getParentPath (simplifyPath path))) :
    ∃ db' answers, Agree db t ⟨env, .mkdir path⟩ db' answers := by
  refine h.agree_single rfl rfl (h.mkdir_grants ha hfile) fun hg entries hentries ↦ ?_
  obtain ⟨-, -, -, rfl⟩ := Namenode.mkdir_eq_ok.mp hentries
  rw [mkdirPath_of_absolute ha]
  obtain ⟨db', happly, hholds⟩ := h.mkdir_holds hg
  obtain ⟨hall, hsuccess⟩ := applyAll_success db (e := .opMkdir (.getDefaultDir path)) happly
  exact ⟨db', _, hall, hsuccess, hholds⟩

theorem agree_rm (h : Refines db t) (ha : path.head? = some '/') (hroot : simplifyPath path ≠ root)
    (hchildless : ∀ child, getParentPath child = simplifyPath path → ¬ ValidAt db child) :
    ∃ db' answers, Agree db t ⟨env, .rm path⟩ db' answers := by
  refine h.agree_single rfl rfl (h.rm_grants ha hroot hchildless) fun hg entries hentries ↦ ?_
  obtain ⟨-, -, rfl⟩ := Namenode.rm_eq_ok.mp hentries
  obtain ⟨db', happly, hholds⟩ := h.rm_holds hg
  obtain ⟨hall, hsuccess⟩ := applyAll_success db (e := .opRm (.ofPath path)) happly
  exact ⟨db', _, hall, hsuccess, hholds⟩

section

variable {reqs : List NNPutRequest} {files : List (FullPath × StorageType)} {now : Nat}

theorem exists_asked {is : List Inode}
    (his : List.Forall₂ (fun req i ↦ Namenode.putInode db now req = .ok i) reqs is) :
    ∃ files, List.Forall₂ (fun req file ↦ NNPutRequest.asked req = some file) reqs files := by
  refine exists_forall₂ fun req hreq ↦ ?_
  obtain ⟨i, -, hi⟩ := forall₂_mem_left his hreq
  obtain ⟨-, -, -, s, hs, -⟩ := Namenode.putInode_eq_ok.mp hi
  exact ⟨(.ofStr req.path, s), asked_eq_some.mpr ⟨rfl, hs⟩⟩

/-- One file or a list of them is put in the same way. -/
theorem agree_puts (h : Refines db t) (reqs : List NNPutRequest)
    {result : Except Fault (List Entry)}
    (hprep : Namenode.prepare db call.env call.request = Namenode.proposed result)
    (hasked : call.asked = (reqs.mapM NNPutRequest.asked).map fun files ↦
      [.put call.env.now (call.env.now + lockRefreshInterval) files])
    (ha : ∀ req ∈ reqs, req.path.head? = some '/')
    (hdirs : ∀ entries, result = .ok entries →
      ∀ req ∈ reqs, DirAt db (getParentPath (simplifyPath req.path)))
    (hprepared : ∀ is,
      List.Forall₂ (fun req i ↦ Namenode.putInode db call.env.now req = .ok i) reqs is →
        ∃ entries, result = .ok entries)
    (happly : ∀ entries, result = .ok entries → ∃ is answers,
      List.Forall₂ (fun req i ↦ Namenode.putInode db call.env.now req = .ok i) reqs is ∧
        applyAll db entries = some (db.write (is.map .inode), answers) ∧
          ∀ answer ∈ answers, answer = .success) :
    ∃ db' answers, Agree db t call db' answers := by
  have hok : (∃ entries, result = .ok entries) ↔ ∃ is,
      List.Forall₂ (fun req i ↦ Namenode.putInode db call.env.now req = .ok i) reqs is := by
    constructor
    · rintro ⟨entries, he⟩
      obtain ⟨is, -, his, -⟩ := happly entries he
      exact ⟨is, his⟩
    · rintro ⟨is, his⟩
      exact hprepared is his
  cases hm : reqs.mapM NNPutRequest.asked with
  | none =>
    refine ⟨db, [], h.agree_malformed hprep (by rw [hasked, hm]; rfl) fun hentries ↦ ?_⟩
    obtain ⟨is, his⟩ := hok.mp hentries
    obtain ⟨files, hfiles⟩ := exists_asked his
    rw [mapM_eq_some.mpr hfiles] at hm
    cases hm
  | some files =>
    have hfiles := mapM_eq_some.mp hm
    have hgrants : _ ↔ t.Grants (.put call.env.now (call.env.now + lockRefreshInterval) files) :=
      h.put_grants ha hfiles fun his ↦ by
        obtain ⟨entries, he⟩ := hok.mpr his
        exact hdirs entries he
    refine h.agree_single hprep (by rw [hasked, hm]; rfl) (hok.trans hgrants)
      fun hg entries he ↦ ?_
    obtain ⟨is, answers, his, hall, hsuccess⟩ := happly entries he
    exact ⟨_, answers, hall, hsuccess, h.put_holds (h.put_records ha hfiles his) hg⟩

end

theorem agree_put (h : Refines db t) {req : NNPutRequest} (ha : req.path.head? = some '/')
    (hdir : ∀ entries, Namenode.put db env.now req = .ok entries →
      DirAt db (getParentPath (simplifyPath req.path))) :
    ∃ db' answers, Agree db t ⟨env, .put req⟩ db' answers := by
  refine h.agree_puts [req] rfl ?_ ?_ ?_ ?_ ?_
  · cases hasked : req.asked <;> simp [Call.asked, hasked]
  · simpa using ha
  · intro entries he r hr
    obtain rfl := List.mem_singleton.mp hr
    exact hdir entries he
  · intro is his
    obtain ⟨i, -, hi⟩ := forall₂_mem_left his List.mem_cons_self
    exact ⟨_, Namenode.put_eq_ok.mpr ⟨i, hi, rfl⟩⟩
  · intro entries he
    obtain ⟨i, hi, rfl⟩ := Namenode.put_eq_ok.mp he
    obtain ⟨hall, hsuccess⟩ := applyAll_success db (e := .opPut i) rfl
    exact ⟨[i], _, .cons hi .nil, hall, hsuccess⟩

theorem agree_putBatch (h : Refines db t) {reqs : List NNPutRequest}
    (ha : ∀ req ∈ reqs, req.path.head? = some '/')
    (hdirs : ∀ entries, Namenode.putBatch db env.now reqs = .ok entries →
      ∀ req ∈ reqs, DirAt db (getParentPath (simplifyPath req.path))) :
    ∃ db' answers, Agree db t ⟨env, .putBatch reqs⟩ db' answers := by
  refine h.agree_puts reqs rfl rfl ha hdirs ?_ ?_
  · exact fun is his ↦ ⟨_, Namenode.putBatch_eq_ok.mpr ⟨is, his, rfl⟩⟩
  · intro entries he
    obtain ⟨is, his, rfl⟩ := Namenode.putBatch_eq_ok.mp he
    obtain ⟨hall, hsuccess⟩ := applyAll_success db (e := .opPutBatch is) rfl
    exact ⟨is, _, his, hall, hsuccess⟩

theorem agree_putOk (h : Refines db t) {req : NNPutOKRequest} (ha : req.path.head? = some '/') :
    ∃ db' answers, Agree db t ⟨env, .putOk req⟩ db' answers := by
  have hgrants : (∃ entries, Namenode.putOk db req = .ok entries) ↔
      t.Grants (.commit [req.asked]) := by
    have hone := commit_grants t [req]
    rw [List.map_singleton] at hone
    rw [hone, List.forall_mem_singleton, ← h.putOkInode_grants ha]
    simp only [Namenode.putOk_eq_ok]
    exact ⟨fun he ↦ he.elim fun _ hi ↦ hi.imp fun _ ↦ And.left,
      fun hi ↦ hi.elim fun i hi ↦ ⟨_, i, hi, rfl⟩⟩
  refine h.agree_single rfl rfl hgrants fun hg entries he ↦ ?_
  obtain ⟨i, hi, rfl⟩ := Namenode.putOk_eq_ok.mp he
  have hr := record_of_putOkInode hi
  have hfile : Item.IsFile (t.item i.fullpath) := hr.fullpath ▸ hg _ (List.mem_singleton_self _)
  have hparent := FileTree.parent_of_isFile hfile
  obtain ⟨parent, hlookup⟩ := h.lookup_dir hparent
  have hne : i.parentPath ≠ i.fullpath.str := by
    intro hp
    rw [FullPath.ext (p := i.fullpath.parent) hp] at hparent
    exact hfile.ne_dir hparent
  obtain ⟨db', hput⟩ : ∃ db', internalPutOk db i = .ok db' := by
    obtain ⟨j, hj, -⟩ := h.isFile_item.mp hfile
    have hget : getInode db (.ofPath i.fullpath.str) = .ok j :=
      getInode_eq_ok.mpr (.inl (by rw [FullPath.simplified]; exact hj))
    have hcommit := commit_eq_ok.mpr ⟨j, hget, rfl⟩
    exact ⟨_, internalPutOk_eq_ok.mpr ⟨_, hcommit, parent, by
      rw [Inode.parentPath, fullpath_of_commit hcommit]; exact hlookup, rfl⟩⟩
  obtain ⟨hall, hsuccess⟩ := applyAll_success db (e := .opPutOk i) hput
  exact ⟨db', _, hall, hsuccess,
    h.commit_holds (.cons hr .nil) hg (batchEffect_of_putOk hi hne hput)⟩

/-- A batch that is accepted comes from a machine with a number, and its members have places. -/
theorem placed_of_putOkBatch {reqs : List NNPutOKRequest} {entries : List Entry}
    (hput : Namenode.putOkBatch db env reqs = .ok entries) :
    (stoi (basePart '.' env.myIp)).toOption.isSome = true ∧ ∀ req ∈ reqs, req.placed = true := by
  simp only [Namenode.putOkBatch, bind_eq_ok, mapM_eq_ok] at hput
  obtain ⟨machineId, hm, members, hms, -⟩ := hput
  refine ⟨by rw [hm]; rfl, fun req hreq ↦ ?_⟩
  obtain ⟨m, -, hmem⟩ := forall₂_mem_left hms hreq
  obtain ⟨j, first, rest, pos, -, hsub, hlast, -⟩ := Namenode.putOkMember_eq_ok.mp hmem
  rw [NNPutOKRequest.placed, hsub, List.head?_cons, Option.any_some, hlast]
  rfl

theorem exists_internalPutOkBatch (h : Refines db t) {is : List Inode}
    (hfiles : ∀ i ∈ is, Item.IsFile (t.item i.fullpath)) :
    ∃ mid, internalPutOkBatch db is = .ok mid := by
  cases hmid : internalPutOkBatch db is with
  | ok mid => exact ⟨mid, rfl⟩
  | error f =>
    obtain ⟨i, hi, herror⟩ := internalPutOkBatch_eq_error hmid
    obtain ⟨parent, hparent⟩ := h.lookup_dir (FileTree.parent_of_isFile (hfiles i hi))
    obtain ⟨j, hj, -⟩ := h.isFile_item.mp (hfiles i hi)
    have hget : getInode db (.ofPath i.fullpath.str) = .ok j :=
      getInode_eq_ok.mpr (.inl (by rw [FullPath.simplified]; exact hj))
    rcases herror with herror | herror
    · rw [getParentInode_eq_ok.mpr hparent] at herror
      cases herror
    · rw [commit_eq_ok.mpr ⟨j, hget, rfl⟩] at herror
      cases herror

/-- The first of the two entries of a batch commits its members. -/
theorem exists_mid (h : Refines db t) {reqs : List NNPutOKRequest} {entries : List Entry}
    (he : Namenode.putOkBatch db env reqs = .ok entries)
    (hg : t.Grants (.commit (reqs.map (·.asked)))) :
    ∃ is agg mid, entries = [.opPutOkBatch is, .opPutAgg agg] ∧ '/' ∉ agg.id ∧ Members db is ∧
      internalPutOkBatch db is = .ok mid ∧
      ∀ q, Holds mid q (t.effect (.commit (reqs.map (·.asked))) q) := by
  obtain ⟨is, agg, his, hplain, hentries⟩ := Namenode.putOkBatch_ok he
  have hrecords : List.Forall₂ CommitRecord (reqs.map (·.asked)) is := by
    refine commit_records (fun req i hri ↦ ?_) his
    obtain ⟨j, hj, rfl⟩ := hri
    have hr := record_of_putOkInode hj
    exact ⟨hr.fullpath, hr.isDirectory, hr.content⟩
  have hfiles : ∀ i ∈ is, Item.IsFile (t.item i.fullpath) := by
    intro i hi
    obtain ⟨file, hfile, hr⟩ := forall₂_mem_right hrecords hi
    rw [hr.fullpath]
    exact hg file hfile
  obtain ⟨mid, hmid⟩ := h.exists_internalPutOkBatch hfiles
  exact ⟨is, agg, mid, hentries, hplain, members_of_putOk his, hmid,
    h.commit_holds hrecords hg (internalPutOkBatch_ok hmid)⟩

theorem agree_putOkBatch (h : Refines db t) {reqs : List NNPutOKRequest}
    (ha : ∀ req ∈ reqs, req.path.head? = some '/') :
    ∃ db' answers, Agree db t ⟨env, .putOkBatch reqs⟩ db' answers := by
  by_cases hplaced : (stoi (basePart '.' env.myIp)).toOption.isSome = true ∧
      ∀ req ∈ reqs, req.placed = true
  swap
  · refine ⟨db, [], h.agree_malformed rfl (if_neg hplaced) fun hentries ↦ hplaced ?_⟩
    obtain ⟨entries, he⟩ := hentries
    exact placed_of_putOkBatch he
  refine h.agree_single rfl (if_pos hplaced) (h.putOkBatch_grants ha hplaced.1 hplaced.2)
    fun hg entries he ↦ ?_
  obtain ⟨is, agg, mid, rfl, hplain, -, hmid, hholds⟩ := h.exists_mid he hg
  have hfirst : RaftNN.onApply db (.opPutOkBatch is) = some (mid, .success) :=
    onApply_eq_success.mpr hmid
  have hsecond : RaftNN.onApply mid (.opPutAgg agg) = some (mid.put (.agg agg), .success) := rfl
  refine ⟨mid.put (.agg agg), [.success, .success], ?_, by simp, fun q ↦ ?_⟩
  · simp only [applyAll, hfirst, hsecond, Option.bind_some, Option.map_some]
  · refine putAgg_holds hplain (hholds q) fun hn ↦ h.absolute fun hnone ↦ hn ?_
    cases hlast : lastFor (reqs.map (·.asked)) q with
    | none => rw [FileTree.effect_commit_of_none hlast, hnone]
    | some data =>
      rw [FileTree.effect_commit_of_some hlast, hnone]
      rfl

theorem takeWhile_good (h : Refines db t) {good rest : List Str}
    (hgood : ∀ p ∈ good, ValidAt db (simplifyPath p))
    (hrest : rest = [] ∨ ∃ bad more, rest = bad :: more ∧ ¬ ValidAt db (simplifyPath bad)) :
    ((good ++ rest).map FullPath.ofStr).takeWhile (fun p ↦ (t.item p).isSome) =
      good.map .ofStr := by
  have hsome : ∀ p, (t.item (.ofStr p)).isSome = true ↔ ValidAt db (simplifyPath p) := fun p ↦
    Option.isSome_iff_ne_none.trans h.item_ne_none
  rw [List.map_append, List.takeWhile_append_of_pos]
  · rcases hrest with rfl | ⟨bad, more, rfl, hbad⟩
    · simp
    · have hbad := (hsome bad).not.mpr hbad
      simp [hbad]
  · intro q hq
    obtain ⟨p, hp, rfl⟩ := List.mem_map.mp hq
    exact (hsome p).mpr (hgood p hp)

theorem agree_updateLock (h : Refines db t) {paths : List Str} :
    ∃ db' answers, Agree db t ⟨env, .updateLock paths⟩ db' answers := by
  by_cases hnil : paths = []
  · have hprep : Namenode.prepare db env (.updateLock paths) =
        Namenode.proposed (.error (.runtime "parameter paths required".toList)) := if_pos hnil
    exact ⟨db, [], h.agree_malformed hprep (if_pos hnil) fun he ↦ nomatch he⟩
  obtain ⟨good, rest, is, hpaths, hrefreshed, hentries, hend⟩ :=
    updateLockEntries_split db env.now paths
  have hprep : Namenode.prepare db env (.updateLock paths) =
      Namenode.updateLockEntries db env.now paths := if_neg hnil
  have hanswer : t.answer ⟨env, .updateLock paths⟩ =
      t.exec ((paths.map .ofStr).map (.renew (env.now + lockRefreshInterval))) := by
    have hasked : Call.asked ⟨env, .updateLock paths⟩ = _ := if_neg hnil
    rw [PathTree.answer, hasked, List.map_map]
    rfl
  obtain ⟨hitem, hgranted⟩ := t.exec_renew (env.now + lockRefreshInterval) (paths.map .ofStr)
  have hrest : rest = [] ∨ ∃ bad more, rest = bad :: more ∧ ¬ ValidAt db (simplifyPath bad) := by
    rcases hend with ⟨hnone, -⟩ | ⟨bad, more, fault, he, hbad, -⟩
    · exact .inl hnone
    · exact .inr ⟨bad, more, he, hbad⟩
  rw [hpaths, h.takeWhile_good (fun p ↦ hrefreshed.valid) hrest] at hitem
  refine ⟨db.write (is.map .inode), List.replicate is.length .success, ?_, fun q ↦ ?_, ?_,
    fun answer hanswer ↦ ?_⟩
  · rw [serveAnswered, hprep, hentries]
    exact applyAll_map_opPut db is
  · rw [hanswer, hpaths, hitem q]
    exact h.renew_holds hrefreshed q
  · rw [hanswer, hgranted, Accepted, hprep]
    have hvalid : (∀ k ∈ paths.map FullPath.ofStr, t.item k ≠ none) ↔
        ∀ p ∈ paths, ValidAt db (simplifyPath p) := by
      simp only [List.forall_mem_map, h.item_ne_none, FullPath.str_ofStr]
    rw [hvalid]
    rcases hend with ⟨hnone, haccepted⟩ | ⟨bad, more, fault, he, hbad, hrefused⟩
    · refine iff_of_true haccepted fun p hp ↦ hrefreshed.valid ?_
      rwa [hpaths, hnone, List.append_nil] at hp
    · refine iff_of_false (fun hn ↦ ?_) fun hall ↦ hbad (hall bad ?_)
      · rw [hrefused] at hn
        cases hn
      · simp [hpaths, he]
  · exact List.eq_of_mem_replicate hanswer

theorem head_of_absolute (ha : call.absolute = true) (hp : path ∈ call.request.paths) :
    path.head? = some '/' := of_decide_eq_true (List.all_eq_true.mp ha path hp)

/-- Every request, where nothing is asked that the handlers leave unchecked. -/
theorem agree (h : Refines db t) (ha : call.absolute = true) (hg : Sheltered db call) :
    ∃ db' answers, Agree db t call db' answers := by
  obtain ⟨env, req⟩ := call
  have hhead : ∀ path ∈ req.paths, path.head? = some '/' := fun path ↦ head_of_absolute ha
  have hmem : ∀ {α : Type} (name : α → Str) (rs : List α), req.paths = rs.map name →
      ∀ r ∈ rs, (name r).head? = some '/' := by
    intro α name rs hpaths r hr
    exact hhead _ (hpaths ▸ List.mem_map_of_mem hr)
  cases req with
  | mkdir path => exact h.agree_mkdir (hhead path (List.mem_singleton_self _)) hg
  | rm path => exact h.agree_rm (hhead path (List.mem_singleton_self _)) hg.1 hg.2
  | put req => exact h.agree_put (hhead _ (List.mem_singleton_self _)) hg
  | putBatch reqs => exact h.agree_putBatch (hmem _ reqs rfl) hg
  | putOk req => exact h.agree_putOk (hhead _ (List.mem_singleton_self _))
  | putOkBatch reqs => exact h.agree_putOkBatch (hmem _ reqs rfl)
  | updateLock paths => exact h.agree_updateLock

end Refines

theorem applyAll_find_nil {es : List Entry} {answers : List Answer} (hes : ∀ e ∈ es, e.Located)
    (hdb : db.find [] = none) (h : applyAll db es = some (db', answers)) : db'.find [] = none := by
  induction es generalizing db answers with
  | nil =>
    simp only [applyAll, Option.some.injEq, Prod.mk.injEq] at h
    exact h.1 ▸ hdb
  | cons e es ih =>
    simp only [applyAll, Option.bind_eq_some_iff, Option.map_eq_some_iff] at h
    obtain ⟨⟨mid, a⟩, hmid, ⟨db₁, as⟩, hrest, he⟩ := h
    obtain ⟨rfl, -⟩ := Prod.mk.inj he
    refine ih (fun e' he' ↦ hes e' (List.mem_cons_of_mem _ he')) ?_ hrest
    cases a with
    | success => exact (hes e List.mem_cons_self).applyOp hdb (onApply_eq_success.mp hmid)
    | failure f =>
      obtain ⟨-, -, rfl⟩ := onApply_eq_failure.mp hmid
      exact hdb

theorem Served.plain {req : Request} {ok : Bool} (h : Served db env req ok db')
    (hdb : ∀ id agg, db.find id = some (.agg agg) → '/' ∉ id) :
    ∀ id agg, db'.find id = some (.agg agg) → '/' ∉ id := by
  intro id agg hf
  cases req with
  | putOkBatch reqs =>
    cases h with
    | refused => exact hdb id agg hf
    | @putOkBatch _ is a mid _ _ _ effect plain =>
      by_cases hid : id = a.id
      · exact hid ▸ plain
      · have hput : (mid.put (.agg a)).find id = mid.find id :=
          mid.find_put_of_ne (v := .agg a) hid
        rw [hput] at hf
        rcases effect with ⟨-, hmid⟩ | ⟨-, rfl⟩
        · exact hdb id agg (((internalPutOkBatch_ok hmid).find_agg id agg).mp hf)
        · exact hdb id agg hf
  | _ => exact hdb id agg (h.find_agg (fun reqs he ↦ nomatch he) hf)

theorem Refines.step {call : Call} {answers : List Answer} (h : Refines db t)
    (ha : Agree db t call db' answers) : Refines db' (t.answer call).1 where
  holds := ha.holds
  listing := h.listing.served (served_of_serveAnswered ha.served)
  plain := (served_of_serveAnswered ha.served).plain h.plain
  nil := applyAll_find_nil (Namenode.prepare_located h.nil call.request) h.nil ha.served

/-- The namenode and the tree, given the same requests. -/
noncomputable def lockstep (s : RocksDB × PathTree) (call : Call) : Option (RocksDB × PathTree) :=
  (serve s.1 call).map fun db ↦ (db, (s.2.answer call).1)

/-- What no handler checks, in either. -/
def Sheltering (s : RocksDB × PathTree) (call : Call) : Prop :=
  call.absolute = true ∧ Sheltered s.1 call

theorem refines_of_reaches (h : Reaches lockstep Sheltering (.empty, .bare _ _ _ _) (db, t)) :
    Refines db t := by
  refine h.invariant (I := fun s ↦ Refines s.1 s.2) refines_empty fun s call s' _ hs hg hstep ↦ ?_
  obtain ⟨db', hserve, rfl⟩ := Option.map_eq_some_iff.mp hstep
  obtain ⟨db₁, answers, ha⟩ := hs.agree hg.1 hg.2
  rw [serve, ha.served, Option.map_some, Option.some.injEq] at hserve
  obtain rfl := hserve
  exact hs.step ha

/-- The namenode is a tree of files. Whatever is asked of it one request at a time, its store stands
for the tree to which the same was asked, and the next request gets the answer that the tree gives:
it is accepted exactly when the tree grants it, it does to the store what it does to the tree, and
nothing that was accepted fails afterwards or ends the process. -/
theorem namenode_is_file_tree (h : Reaches lockstep Sheltering (.empty, .bare _ _ _ _) (db, t)) :
    (∀ p, Holds db p (t.item p)) ∧
      ∀ call : Call, call.absolute = true → Sheltered db call →
        ∃ db' answers, serveAnswered db call = some (db', answers) ∧
          (∀ p, Holds db' p ((t.answer call).1.item p)) ∧
          (Accepted db call ↔ (t.answer call).2 = true) ∧
          ∀ answer ∈ answers, answer = .success := by
  have hr := refines_of_reaches h
  refine ⟨hr.holds, fun call ha hg ↦ ?_⟩
  obtain ⟨db', answers, hagree⟩ := hr.agree ha hg
  exact ⟨db', answers, hagree.served, hagree.holds, hagree.accepted, hagree.applied⟩

theorem exists_lockstep
    (h : Reaches serve (fun db call ↦ call.absolute = true ∧ Sheltered db call) .empty db) :
    ∃ t, Reaches lockstep Sheltering (.empty, .bare _ _ _ _) (db, t) := by
  induction h with
  | refl => exact ⟨_, .refl⟩
  | @tail db db' call _ hg hs ih =>
    obtain ⟨t, ht⟩ := ih
    have hstep : lockstep (db, t) call = some (db', (t.answer call).1) := by
      simp only [lockstep, hs, Option.map_some]
    exact ⟨_, ht.tail hg hstep⟩

theorem sheltered_of_test {call : Call} (h : shelteredTest db call = true) :
    call.absolute = true ∧ Sheltered db call := by
  obtain ⟨env, req⟩ := call
  obtain ⟨ha, ht⟩ := Bool.and_eq_true_iff.mp h
  refine ⟨ha, ?_⟩
  cases req with
  | mkdir path =>
    have hf : ¬ FileAt db (getParentPath (simplifyPath path)) := of_decide_eq_true ht
    exact hf
  | put req => exact fun _ _ ↦ of_decide_eq_true ht
  | _ => cases ht

/-- A file is put in a directory, and then it is committed. -/
theorem namenode_is_file_tree_commit :
    ∃ db t, Reaches lockstep Sheltering (.empty, .bare _ _ _ _) (db, t) ∧
      Holds db (.ofStr "/a/f".toList) (t.item (.ofStr "/a/f".toList)) ∧
      ∃ db' answers, serveAnswered db (.at 101 (.putOk ⟨"/a/f".toList, 7, ["x".toList]⟩)) =
        some (db', answers) ∧ ∀ answer ∈ answers, answer = .success := by
  obtain ⟨db, hr, -⟩ := exists_reached serve shelteredTest .empty
    [.at 100 (.mkdir "/a".toList), .at 100 (.put ⟨"/a/f".toList, "RE<3,1>".toList⟩)]
    (fun db ↦ decide (FileAt db "/a/f".toList)) (by decide +kernel)
  obtain ⟨t, ht⟩ := exists_lockstep (hr.mono fun db call ↦ sheltered_of_test)
  obtain ⟨hholds, hanswers⟩ := namenode_is_file_tree ht
  obtain ⟨db', answers, hserved, -, -, happlied⟩ :=
    hanswers (.at 101 (.putOk ⟨"/a/f".toList, 7, ["x".toList]⟩)) (by decide) trivial
  exact ⟨db, t, ht, hholds _, db', answers, hserved, happlied⟩

theorem Refines.listed_iff (h : Refines db t) {x : Item StorageType Contents}
    (hq : t.item q = some x) (hne : q ≠ .top) :
    dentry q (Item.kind x) ∈ subAt db q.parent.str ↔ x.shown = true := by
  have hholds := h.holds q
  rw [hq] at hholds
  cases hholds with
  | dir _ _ _ listed => exact iff_of_true (listed hne) rfl
  | file _ _ _ _ _ _ listed => exact listed

/-- The path that `ls` looks at. -/
def lsPath (path : Str) : FullPath := .ofStr (if path = [] then root else path)

theorem ls_iff {i : Inode} : Namenode.ls db path = .ok i ↔
    lookup db (lsPath path).str = some i ∧ i.valid = true := ls_eq_ok

theorem absolute_lsPath (h : path = [] ∨ path.head? = some '/') : (lsPath path).Absolute := by
  refine FullPath.absolute_ofStr ?_
  rcases h with rfl | hhead
  · rfl
  · rwa [if_neg (ne_nil_of_rooted hhead)]

namespace Refines

theorem ls_of_none (h : Refines db t) (hp : (lsPath path).Absolute)
    (hx : t.item (lsPath path) = none) :
    Namenode.ls db path = .error (.message .pathNotExistsException (lsPath path).str) := by
  have hget : Inode.ofPath (if path = [] then root else path) = .ofPath (lsPath path).str :=
    (ofPath_ofStr _).symm
  have hthrown : Namenode.ls db path = .error (.message .pathNotExistsException
      (FullPath.ofStr (lsPath path).str).str) := by
    rw [Namenode.ls, RocksDB.ls, hget, h.getInode_of_none hp hx]
    rfl
  rwa [FullPath.ofStr_str] at hthrown

theorem ls_of_dir (h : Refines db t) (hx : t.item (lsPath path) = some .dir) :
    ∃ i, Namenode.ls db path = .ok i ∧ i.isDirectory = true ∧ i.sub.Nodup ∧
      ∀ name, name ∈ i.sub ↔ ∃ q x, q ≠ .top ∧ q.parent = lsPath path ∧ t.item q = some x ∧
        x.shown = true ∧ name = dentry q (Item.kind x) := by
  have hholds := h.holds (lsPath path)
  rw [hx] at hholds
  cases hholds with
  | @dir i found valid isDirectory =>
    obtain ⟨hnodup, hlisted⟩ := h.listing.sound _ (h.dirAt hx)
    rw [subAt_of_lookup found] at hnodup hlisted
    refine ⟨i, ls_iff.mpr ⟨found, valid⟩, isDirectory, hnodup, fun name ↦ ⟨fun hmem ↦ ?_, ?_⟩⟩
    · obtain ⟨q, hroot, hq, k, hk, rfl⟩ := hlisted name hmem
      rw [h.kindAt] at hk
      obtain ⟨x, hx', rfl⟩ := Option.map_eq_some_iff.mp hk
      have hne : q ≠ .top := fun he ↦ hroot (he ▸ FullPath.str_top)
      have hparent : q.parent = lsPath path := FullPath.ext hq
      refine ⟨q, x, hne, hparent, hx', (h.listed_iff hx' hne).mp ?_, rfl⟩
      rwa [hparent, subAt_of_lookup found]
    · rintro ⟨q, x, hne, hparent, hq, hshown, rfl⟩
      have hmem := (h.listed_iff hq hne).mpr hshown
      rwa [hparent, subAt_of_lookup found] at hmem

theorem ls_of_file (h : Refines db t) {lease : Nat} {storage : StorageType} {data : Option Contents}
    (hx : t.item (lsPath path) = some (.file lease storage data)) :
    ∃ i, Namenode.ls db path = .ok i ∧ i.isDirectory = false ∧ i.ddlLock = lease ∧
      i.storageType = some storage ∧ (i.filesize, i.sub) = data.getD (0, []) := by
  have hholds := h.holds (lsPath path)
  rw [hx] at hholds
  cases hholds with
  | @file i _ _ _ found valid isDirectory leased stored content =>
    exact ⟨i, ls_iff.mpr ⟨found, valid⟩, isDirectory, leased, stored, content⟩

end Refines

/-- What `ls` answers can be told from the tree: nothing where nothing stands, of a directory the
names of what is shown in it, each once, and of a file what was last committed. -/
theorem ls_shows_tree (h : Reaches lockstep Sheltering (.empty, .bare _ _ _ _) (db, t))
    (hpath : path = [] ∨ path.head? = some '/') :
    (t.item (lsPath path) = none →
      Namenode.ls db path = .error (.message .pathNotExistsException (lsPath path).str)) ∧
    (t.item (lsPath path) = some .dir →
      ∃ i, Namenode.ls db path = .ok i ∧ i.isDirectory = true ∧ i.sub.Nodup ∧
        ∀ name, name ∈ i.sub ↔ ∃ q x, q ≠ .top ∧ q.parent = lsPath path ∧ t.item q = some x ∧
          x.shown = true ∧ name = dentry q (Item.kind x)) ∧
    ∀ lease storage data, t.item (lsPath path) = some (.file lease storage data) →
      ∃ i, Namenode.ls db path = .ok i ∧ i.isDirectory = false ∧ i.ddlLock = lease ∧
        i.storageType = some storage ∧ (i.filesize, i.sub) = data.getD (0, []) := by
  have hr := refines_of_reaches h
  exact ⟨hr.ls_of_none (absolute_lsPath hpath), hr.ls_of_dir,
    fun lease storage data hx ↦ hr.ls_of_file hx⟩

/-- A directory is shown in the root. -/
theorem ls_shows_tree_root :
    ∃ db t i, Reaches lockstep Sheltering (.empty, .bare _ _ _ _) (db, t) ∧
      Namenode.ls db root = .ok i ∧ "a/".toList ∈ i.sub := by
  obtain ⟨db, hr, hp⟩ := exists_reached serve shelteredTest .empty [.at 100 (.mkdir "/a".toList)]
    (fun db ↦ decide (DirAt db "/a".toList)) (by decide +kernel)
  obtain ⟨t, ht⟩ := exists_lockstep (hr.mono fun db call ↦ sheltered_of_test)
  have hdir : t.item (.ofStr "/a".toList) = some .dir :=
    (refines_of_reaches ht).item_eq_dir.mpr (of_decide_eq_true hp)
  have htop : lsPath root = .top := rfl
  have hrooted : root = [] ∨ root.head? = some '/' := .inr rfl
  obtain ⟨-, hls, -⟩ := ls_shows_tree ht hrooted
  rw [htop] at hls
  obtain ⟨i, hi, -, -, hnames⟩ := hls t.top_dir
  have hroot : (FullPath.ofStr "/a".toList).parent = .top := by decide
  exact ⟨db, t, i, ht, hi, (hnames _).mpr
    ⟨.ofStr "/a".toList, .dir, by decide, hroot, hdir, rfl, by decide⟩⟩

end Spkdfs
