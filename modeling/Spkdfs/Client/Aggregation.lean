import Spkdfs.Client.Daemon
import Spkdfs.Client.Sequential
import Spkdfs.Node.Keys

namespace Spkdfs

open Library Procedure Function

section

variable {n first last : Nat} {res rest : Str}

/-- The digits of a number are read up to what follows them. -/
theorem extractInt_toText (hn : n < 2 ^ 31) (hrest : ∀ c ∈ rest.head?, c.isDigit = false) :
    extractInt (toText n ++ rest) = some ((n : Int), rest) := by
  have hrest' : rest.takeWhile Char.isDigit = [] := by
    cases rest with
    | nil => rfl
    | cons c rest => rw [List.takeWhile_cons_of_neg (by simp [hrest c rfl])]
  have htake : (toText n ++ rest).takeWhile Char.isDigit = toText n := by
    rw [List.takeWhile_append_of_pos fun c hc ↦ isDigit_of_mem_toText hc, hrest', List.append_nil]
  obtain ⟨c, cs, hcons⟩ := List.exists_cons_of_ne_nil (toText_ne_nil n)
  have hc : c.isDigit = true := isDigit_of_mem_toText (n := n) (by simp [hcons])
  have hdrop : (toText n ++ rest).dropWhile isSpace = toText n ++ rest := by
    rw [hcons, List.cons_append, List.dropWhile_cons_of_neg (by simp [not_isSpace_of_isDigit hc])]
  have hsign : ∀ sign : Char, sign.isDigit = false →
      ((toText n ++ rest).head? == some sign) = false := by
    intro sign hs
    rw [hcons, List.cons_append, List.head?_cons]
    refine beq_eq_false_iff_ne.mpr fun he ↦ ?_
    rw [Option.some.inj he, hs] at hc
    cases hc
  have hplus := hsign '+' (by decide)
  have hminus := hsign '-' (by decide)
  have hsmall : ¬ ((n : Int) < -2 ^ 31 ∨ 2 ^ 31 ≤ (n : Int)) := by omega
  simp only [extractInt, hdrop, hplus, hminus, Bool.false_or, Bool.false_eq_true, if_false, htake,
    digitsValue_toText, toText_ne_nil, false_or, hsmall, List.drop_left]

theorem intText_eq (n : Nat) : intText (n : Int) = toText n := by
  rw [intText, if_neg (by omega), Int.natAbs_natCast]

theorem extractRange_text (hfirst : first < 2 ^ 31) (hlast : last < 2 ^ 31) :
    extractRange (toText first ++ '|' :: toText last) = some ((first : Int), (last : Int)) := by
  have hbar : ∀ c ∈ ('|' :: toText last).head?, c.isDigit = false := by
    intro c hc
    obtain rfl := Option.some.inj hc
    decide
  have hend : extractInt (toText last ++ []) = some ((last : Int), []) :=
    extractInt_toText hlast (by simp)
  rw [List.append_nil] at hend
  have hskip : ('|' :: toText last).dropWhile isSpace = '|' :: toText last :=
    List.dropWhile_cons_of_neg (by decide)
  rw [extractRange, extractInt_toText hfirst hbar]
  simp only [Option.bind_eq_bind, Option.bind_some, hskip, List.drop_one, List.tail_cons, hend]
  rfl

/-- `get` finds the sub of the aggregate and the range again. -/
theorem aggregateRange_eq (res : Str) (hfirst : first < 2 ^ 31) (hlast : last < 2 ^ 31) :
    aggregateRange (res ++ ',' :: (toText first ++ '|' :: toText last)) =
      .ok (res, (first : Int), (last : Int)) := by
  have hcomma : ',' ∉ toText first ++ '|' :: toText last := by
    intro hm
    rcases List.mem_append.mp hm with hm | hm
    · exact notMem_toText (by decide) first hm
    · rcases List.mem_cons.mp hm with hm | hm
      · cases hm
      · exact notMem_toText (by decide) last hm
  have hdir := dirPart_append res hcomma
  rw [dirPart] at hdir
  have hmem : ',' ∈ res ++ ',' :: (toText first ++ '|' :: toText last) := by simp
  rw [aggregateRange, if_pos hmem, basePart_append res hcomma, extractRange_text hfirst hlast, hdir,
    List.dropLast_concat]
  rfl

end

namespace SDK

/-- The inode of a file inside an aggregate: the sub of the aggregate, and the range of the file. -/
structure Member (nodes : Datanodes) (data res : Str) (first : Nat) (j : Inode) : Prop where
  valid : j.valid = true
  agg : j.aggInodeId ≠ []
  storageType : j.storageType ≠ none
  sub : j.sub = [res ++ ',' :: (toText first ++ '|' :: toText (first + j.filesize))]
  decode : nodes.decode j.storageType res = .ok data
  within : first + j.filesize ≤ data.length
  small : first + j.filesize < 2 ^ 31

/-- What the file is: its range of the aggregate. -/
def memberContent (data : Str) (first filesize : Nat) : Str := (data.drop first).take filesize

end SDK

namespace Client

/-- What the local file of a task holds. -/
def content (localFiles : Str → Option Str) (task : UploadTask) : Str :=
  (localFiles task.localPath).getD []

/-- The content of a task stands in the aggregate, at the place that its file names. -/
structure Placed (localFiles : Str → Option Str) (data : Str) (t : UploadTask) (file : AggFile)
    (first : Nat) : Prop where
  path : file.path = t.remotePath
  size : file.size = t.size
  task : file.task = none
  pos : file.pos = (toInt32 first, toInt32 ((first + (content localFiles t).length : Nat) : Int))
  here : content localFiles t <+: data.drop first
  within : first + (content localFiles t).length ≤ data.length

variable {localFiles : Str → Option Str} {batch : List UploadTask} {files files' : List AggFile}
  {data data' : Str}

theorem Placed.append {t : UploadTask} {file : AggFile} {first : Nat}
    (h : Placed localFiles data t file first) (more : Str) :
    Placed localFiles (data ++ more) t file first := by
  have hwithin := h.within
  refine ⟨h.path, h.size, h.task, h.pos, ?_, ?_⟩
  · rw [List.drop_append_of_le_length (by omega)]
    exact h.here.trans (List.prefix_append _ _)
  · rw [List.length_append]
    omega

theorem Placed.content_eq {t : UploadTask} {file : AggFile} {first : Nat}
    (h : Placed localFiles data t file first) (hsize : file.size = (content localFiles t).length) :
    SDK.memberContent data first file.size = content localFiles t := by
  rw [SDK.memberContent, hsize]
  exact (List.prefix_iff_eq_take.mp h.here).symm

/-- The request for a file makes the inode of a member. -/
theorem Placed.member {t : UploadTask} {file : AggFile} {first : Nat} {nodes : Datanodes}
    {res : Str} {j : Inode} (h : Placed localFiles data t file first)
    (hsize : file.size = (content localFiles t).length) (hv : j.valid = true)
    (hagg : j.aggInodeId ≠ []) (hstorage : j.storageType ≠ none)
    (hsub : j.sub = (memberRequest res file).sub) (hfilesize : j.filesize = file.size)
    (hdecode : nodes.decode j.storageType res = .ok data) (hsmall : data.length < 2 ^ 31) :
    SDK.Member nodes data res first j := by
  have hwithin := h.within
  rw [← hsize, ← hfilesize] at hwithin
  refine ⟨hv, hagg, hstorage, ?_, hdecode, hwithin, by omega⟩
  rw [hsub, memberRequest, h.pos, ← hsize, ← hfilesize, SDK.toInt32_of_lt (by omega),
    SDK.toInt32_of_lt (by omega), intText_eq, intText_eq]

/-- The files are placed one behind the other. -/
theorem aggregateFiles_ok (h : aggregateFiles localFiles batch files data = .ok (files', data')) :
    ∃ placed, files' = files ++ placed ∧
      data' = data ++ (batch.map (content localFiles)).flatten ∧
      List.Forall₂ (fun t file ↦ ∃ first, Placed localFiles data' t file first) batch placed := by
  induction batch generalizing files data with
  | nil =>
    obtain ⟨rfl, rfl⟩ := Prod.mk.inj (Except.ok.inj h)
    exact ⟨[], by simp, by simp, .nil⟩
  | cons t batch ih =>
    rw [aggregateFiles] at h
    cases ht : localFiles t.localPath with
    | none =>
      rw [ht] at h
      cases h
    | some s =>
      simp only [ht] at h
      have hs : content localFiles t = s := by rw [content, ht, Option.getD_some]
      obtain ⟨placed, hfiles, hdata, hplaced⟩ := ih h
      refine ⟨_ :: placed, by rw [hfiles, List.append_assoc, List.singleton_append], ?_,
        .cons ⟨data.length, ?_⟩ hplaced⟩
      · rw [hdata, List.map_cons, List.flatten_cons, hs, List.append_assoc]
      · rw [hdata]
        refine Placed.append ⟨rfl, rfl, rfl, by rw [hs], ?_, ?_⟩ _
        · rw [hs, List.drop_left]
        · rw [hs, List.length_append]

section

variable {α : Type} {x : Method α} {c c' : Client}

theorem sdk_ok {a : α} (h : (sdk x).run c = some (.ok a, c')) :
    ∃ view, x.run c.view = some (.ok a, view) ∧ c' = { c with view := view } := by
  simp only [sdk, run_of, Option.map_eq_some_iff, Prod.mk.injEq] at h
  obtain ⟨⟨r, view⟩, hx, rfl, rfl⟩ := h
  exact ⟨view, hx, rfl⟩

theorem sdk_lift_ok {r : Except Fault α} {a : α} (h : (sdk (SDK.lift r)).run c = some (.ok a, c')) :
    r = .ok a ∧ c = c' := by
  obtain ⟨view, hlift, rfl⟩ := sdk_ok h
  obtain ⟨hr, rfl⟩ := SDK.lift_ok hlift
  exact ⟨hr, rfl⟩

theorem sdk_rpc_ok {req : Request} {during : List Action} {entry : Entry}
    (h : (sdk (SDK.rpc req during)).run c = some (.ok entry, c')) :
    ∃ l, c.view.leader.rpc req during = some (.ok entry, l) ∧
      c' = { c with view := { c.view with leader := l } } := by
  obtain ⟨view, hrpc, rfl⟩ := sdk_ok h
  obtain ⟨l, rfl, hl⟩ := SDK.rpc_ok hrpc
  exact ⟨l, hl, rfl⟩

/-- Without tasks, the requests are those of the files, and no status changes. -/
theorem memberRequests_run (res : Str) (hnone : ∀ file ∈ files, file.task = none)
    (waits : List (List Action)) (c : Client) :
    (memberRequests res files waits).run c = some (.ok (files.map (memberRequest res)), c) := by
  induction files with
  | nil => rfl
  | cons file files ih =>
    have htask := hnone file List.mem_cons_self
    have hrest := ih fun f hf ↦ hnone f (List.mem_cons_of_mem _ hf)
    rw [memberRequests, run_bind_ok (run_get c), htask]
    have hkeep : c.uploads.canceled none = false := rfl
    rw [hkeep, if_neg Bool.false_ne_true]
    have hstatus : (changeStatusIf none file.path .dataUploading).run c = some (.ok (), c) := rfl
    rw [run_bind_ok hstatus, run_bind_ok hrest]
    rfl

theorem unlockFiles_run (hnone : ∀ file ∈ files, file.task = none) (c : Client) :
    ∃ locks, (unlockFiles files).run c =
      some (.ok (), { c with view := { c.view with
        sdk := { c.view.sdk with remoteLocks := locks } } }) := by
  induction files generalizing c with
  | nil => exact ⟨c.view.sdk.remoteLocks, rfl⟩
  | cons file files ih =>
    have htask := hnone file List.mem_cons_self
    have hstatus : (changeStatusIf none file.path .metaUploading).run c = some (.ok (), c) := rfl
    obtain ⟨locks, hrest⟩ := ih (fun f hf ↦ hnone f (List.mem_cons_of_mem _ hf))
      { c with view := { c.view with sdk := { c.view.sdk with
        remoteLocks := c.view.sdk.remoteLocks.filter (· ≠ file.path) } } }
    refine ⟨locks, ?_⟩
    rw [unlockFiles, htask, run_bind_ok hstatus]
    exact hrest

theorem finishFiles_run (hnone : ∀ file ∈ files, file.task = none) (c : Client) :
    (finishFiles files).run c = some (.ok (), c) := by
  induction files with
  | nil => rfl
  | cons file files ih =>
    have htask := hnone file List.mem_cons_self
    have hstatus : (changeStatusIf none file.path .finished).run c = some (.ok (), c) := rfl
    rw [finishFiles, htask, run_bind_ok hstatus]
    exact ih fun f hf ↦ hnone f (List.mem_cons_of_mem _ hf)

theorem lockFiles_leader {waits : List (List Action)}
    (h : (lockFiles files waits).run c = some (.ok (), c')) :
    ∃ l, c' = { c with view := { c.view with leader := l } } ∧
      Reaches Leader.step (fun _ _ ↦ True) c.view.leader l := by
  induction files generalizing c waits with
  | nil =>
    obtain ⟨-, rfl⟩ := Prod.mk.inj (Option.some.inj h)
    exact ⟨c.view.leader, rfl, .refl⟩
  | cons file files ih =>
    rw [lockFiles] at h
    obtain ⟨entry, u, hrpc, h⟩ := bind_ok h
    obtain ⟨l, hl, rfl⟩ := sdk_rpc_ok hrpc
    obtain ⟨l', rfl, hreach⟩ := ih h
    exact ⟨l', rfl, (Leader.reaches_of_rpc hl).trans hreach⟩

/-- The locks of the files are taken; of the inode of a path this changes the deadline only. -/
theorem lockFiles_lookup {waits : List (List Action)} {path : Str} {j : Inode}
    (hpending : ∀ q ∈ c.view.leader.pending, q.entry.Spares path)
    (hwaits : ∀ during ∈ waits, ∀ a ∈ during, a.Spares path)
    (hl : RocksDB.lookup c.view.leader.store path = some j)
    (h : (lockFiles files waits).run c = some (.ok (), c')) :
    (∃ deadline, RocksDB.lookup c'.view.leader.store path =
      some { j with ddlLock := deadline }) ∧
      ∀ q ∈ c'.view.leader.pending, q.entry.Spares path := by
  induction files generalizing c waits j with
  | nil =>
    obtain ⟨-, rfl⟩ := Prod.mk.inj (Option.some.inj h)
    exact ⟨⟨j.ddlLock, hl⟩, hpending⟩
  | cons file files ih =>
    rw [lockFiles] at h
    obtain ⟨entry, u, hrpc, h⟩ := bind_ok h
    obtain ⟨l, hrun, rfl⟩ := sdk_rpc_ok hrpc
    have hfirst : ∀ a ∈ waits.headD [], a.Spares path := by
      cases waits with
      | nil => simp
      | cons during waits => exact hwaits during List.mem_cons_self
    have hrest : ∀ during ∈ waits.tail, ∀ a ∈ during, a.Spares path :=
      fun during hd ↦ hwaits during (List.mem_of_mem_tail hd)
    by_cases hsame : simplifyPath file.path = path
    · subst hsame
      obtain ⟨hlocked, hnext⟩ := Leader.rpc_updateLock_spared hpending hfirst hl hrun
      obtain ⟨⟨deadline, hfound⟩, hlast⟩ := ih hnext hrest hlocked h
      exact ⟨⟨deadline, hfound⟩, hlast⟩
    · obtain ⟨hkept, hnext⟩ := Leader.rpc_kept (Leader.spares_updateLock hsame) hpending hfirst hrun
      refine ih hnext hrest ?_ h
      rw [RocksDB.lookup, hkept]
      exact hl

/-- The requests of an upload without tasks that succeeds. -/
structure Requests (files : List AggFile) (storageType : Str) (waits : AggWaits) (res : Str)
    (c c' : Client) : Prop where
  requested : ∃ made l₁ c₂ stored l₃,
    c.view.leader.rpc (.putBatch (files.map fun file ↦ ⟨file.path, storageType⟩))
      waits.putBatch = some (.ok made, l₁) ∧
    (lockFiles files waits.locks).run { c with view := { c.view with leader := l₁ } } =
      some (.ok (), c₂) ∧
    c₂.view.leader.rpc (.putOkBatch (files.map (memberRequest res))) waits.putOkBatch =
      some (.ok stored, l₃) ∧ c'.view.leader = l₃
  progress : c'.view.progress = c.view.progress
  tmpPath : c'.view.sdk.tmpPath = c.view.sdk.tmpPath
  dirs : c'.view.sdk.dirs = c.view.sdk.dirs

theorem putAggFile_ok {storageType : Str} {d : Shards} {outcomes : List Bool} {waits : AggWaits}
    (hnone : ∀ file ∈ files, file.task = none)
    (h : (putAggFile files data storageType d outcomes waits).run c = some (.ok (), c')) :
    ∃ storage res, StorageType.fromString storageType = .ok storage ∧
      encodeOneBlock d.sha256sum storage d.nodes d.code outcomes data = some (.ok res) ∧
      Requests files storageType waits res c c' := by
  rw [putAggFile] at h
  obtain ⟨storage, u, hlift, h⟩ := bind_ok h
  obtain ⟨hstorage, rfl⟩ := sdk_lift_ok hlift
  rw [run_bind_ok (run_get _)] at h
  have hkept : (files.filter fun file ↦ !c.uploads.canceled file.task) = files := by
    refine List.filter_eq_self.mpr fun file hf ↦ ?_
    rw [hnone file hf]
    rfl
  simp only [hkept] at h
  obtain ⟨made, u, hmade, h⟩ := bind_ok h
  obtain ⟨l₁, hput, rfl⟩ := sdk_rpc_ok hmade
  obtain ⟨_, c₂, hlock, h⟩ := bind_ok h
  obtain ⟨l₂, hc₂, -⟩ := lockFiles_leader hlock
  obtain ⟨_, u, hmodify, h⟩ := bind_ok h
  obtain ⟨-, rfl⟩ := Prod.mk.inj (Option.some.inj hmodify)
  split at h
  · cases h
  rename_i encoded hencoded
  obtain ⟨res, u, hres, h⟩ := bind_ok h
  obtain ⟨rfl, rfl⟩ := sdk_lift_ok hres
  rw [run_bind_ok (memberRequests_run res hnone _ _)] at h
  obtain ⟨locks, hunlock⟩ := unlockFiles_run hnone
    (⟨c₂.view, waits.rms.foldl (·.rm .smallFile) c₂.uploads⟩ : Client)
  rw [run_bind_ok hunlock] at h
  obtain ⟨response, u, hcommit, h⟩ := bind_ok h
  rw [run_bind_ok (finishFiles_run hnone _)] at h
  obtain ⟨stored, w, hchecked, h⟩ := bind_ok h
  obtain ⟨rfl, rfl⟩ := sdk_lift_ok hchecked
  obtain ⟨-, rfl⟩ := Prod.mk.inj (Option.some.inj h)
  simp only [attempt, run_of, Option.map_eq_some_iff, Prod.mk.injEq, Except.ok.injEq] at hcommit
  obtain ⟨⟨r, view⟩, hanswer, rfl, rfl⟩ := hcommit
  obtain ⟨l₃, rfl, hstored⟩ := SDK.rpc_ok hanswer
  subst hc₂
  exact ⟨storage, res, hstorage, hencoded, ⟨made, l₁, _, stored, l₃, hput, hlock, hstored, rfl⟩,
    rfl, rfl, rfl⟩

theorem smallFileAggregateUpload_ok {aggType : Str} {d : Shards} {outcomes : List Bool}
    {waits : AggWaits} (h : (smallFileAggregateUpload batch localFiles aggType d outcomes waits).run
      c = some (.ok (), c')) :
    ∃ files storage res, List.Forall₂ (fun t file ↦
        ∃ first, Placed localFiles (batch.map (content localFiles)).flatten t file first)
        batch files ∧
      StorageType.fromString aggType = .ok storage ∧
      encodeOneBlock d.sha256sum storage d.nodes d.code outcomes
        (batch.map (content localFiles)).flatten = some (.ok res) ∧
      Requests files aggType waits res c c' := by
  rw [smallFileAggregateUpload] at h
  obtain ⟨⟨files, data⟩, u, hlift, hput⟩ := bind_ok h
  obtain ⟨hfiles, rfl⟩ := sdk_lift_ok hlift
  obtain ⟨placed, hsame, hdata, hplaced⟩ := aggregateFiles_ok hfiles
  rw [List.nil_append] at hsame hdata
  subst hsame hdata
  have hnone : ∀ file ∈ files, file.task = none := by
    intro file hf
    obtain ⟨t, -, first, hp⟩ := forall₂_mem_right hplaced hf
    exact hp.task
  obtain ⟨storage, res, hstorage, hencode, hreq⟩ := putAggFile_ok hnone hput
  exact ⟨files, storage, res, hplaced, hstorage, hencode, hreq⟩

end

end Client

namespace SDK

variable {nodes : Datanodes} {data res path : Str} {first : Nat} {j : Inode} {v : View}

theorem Member.length (h : Member nodes data res first j) :
    (memberContent data first j.filesize).length = j.filesize := by
  have hwithin := h.within
  rw [memberContent, List.length_take, List.length_drop]
  omega

/-- The range has to end in what was decoded, and may not be empty. -/
theorem getAggregated_eq {decoded : Str}
    (hsub : j.sub = [res ++ ',' :: (toText first ++ '|' :: toText (first + j.filesize))])
    (hsmall : first + j.filesize < 2 ^ 31)
    (hdecode : nodes.decode j.storageType res = .ok decoded) :
    SDK.getAggregated j nodes =
      if decoded.length < first + j.filesize ∨ j.filesize = 0 then
        .error (.runtime "Invalid range: begin or end out of bounds".toList)
      else .ok ((decoded.drop first).take (j.filesize + 1)) := by
  have hlast : ((first + j.filesize : Nat) : Int) - (first : Int) + 1 =
      ((j.filesize + 1 : Nat) : Int) := by omega
  have hrange : ((first : Int) < 0 ∨ ((first + j.filesize : Nat) : Int) < 0 ∨
      (decoded.length : Int) < ((first + j.filesize : Nat) : Int) ∨
        ((first + j.filesize : Nat) : Int) ≤ (first : Int)) ↔
      decoded.length < first + j.filesize ∨ j.filesize = 0 := by omega
  have hfirst : first < 2 ^ 31 := by omega
  rw [SDK.getAggregated, hsub]
  simp only [aggregateRange_eq res hfirst hsmall, ok_bind, hdecode]
  by_cases hbad : decoded.length < first + j.filesize ∨ j.filesize = 0
  · rw [if_pos (hrange.mpr hbad), if_pos hbad]
    rfl
  · rw [if_neg (mt hrange.mp hbad), if_neg hbad, hlast, Int.toNat_natCast, Int.toNat_natCast]
    rfl

/-- `get` of a file inside an aggregate, with an up-to-date slave. -/
theorem get_aggregated (nodes : Datanodes) {myIp : Str} {now : Nat} (hne : path ≠ [])
    (hleader : Reaches Leader.step (fun _ _ ↦ True) (.start myIp now) v.leader)
    (hprogress : v.progress ≤ v.leader.applied.length)
    (hl : RocksDB.lookup v.leader.store (simplifyPath path) = some j) (hv : j.valid = true)
    (hstorage : j.storageType ≠ none) (hagg : j.aggInodeId ≠ []) :
    (SDK.get path v.leader.applied.length nodes).run v = some
      ((SDK.getAggregated j nodes).map fun s ↦ resizeFile s j.filesize,
        { v with progress := v.leader.applied.length }) := by
  have hremote := getRemoteInode_run hne hleader hprogress hl hv
  rw [SDK.get, run_bind_ok hremote, if_neg hstorage, if_pos hagg]
  cases SDK.getAggregated j nodes <;> rfl

theorem Member.get_run (h : Member nodes data res first j) {myIp : Str} {now : Nat}
    (hne : path ≠ [])
    (hleader : Reaches Leader.step (fun _ _ ↦ True) (.start myIp now) v.leader)
    (hprogress : v.progress ≤ v.leader.applied.length)
    (hl : RocksDB.lookup v.leader.store (simplifyPath path) = some j) :
    (SDK.get path v.leader.applied.length nodes).run v = some
      (if j.filesize = 0 then
        .error (.runtime "Invalid range: begin or end out of bounds".toList)
      else .ok (memberContent data first j.filesize),
        { v with progress := v.leader.applied.length }) := by
  have hwithin : ¬ data.length < first + j.filesize := Nat.not_lt.mpr h.within
  rw [get_aggregated nodes hne hleader hprogress hl h.valid h.storageType h.agg,
    getAggregated_eq h.sub h.small h.decode]
  by_cases hzero : j.filesize = 0
  · rw [if_pos (.inr hzero), if_pos hzero]
    rfl
  · rw [if_neg (not_or.mpr ⟨hwithin, hzero⟩), if_neg hzero]
    have hpre : memberContent data first j.filesize <+:
        (data.drop first).take (j.filesize + 1) := by
      rw [memberContent]
      exact List.take_prefix_take_left (Nat.le_succ _)
    have hresize := resizeFile_eq_content hpre
    rw [h.length] at hresize
    rw [← hresize]
    rfl

end SDK

open Client in
/-- An upload of small files in one aggregate that returns: no local file has changed since its task
was made, the aggregate fits in a block, every datanode accepts its shards and returns them later,
and no other request is about the paths. -/
structure AggregateUploaded (batch : List UploadTask) (localFiles : Str → Option Str)
    (storage : StorageType) (d : Shards) (c c' : Client) : Prop where
  leader : ∃ myIp now, Reaches Leader.step (fun _ _ ↦ True) (.start myIp now) c.view.leader
  progress : c.view.progress ≤ c.view.leader.applied.length
  pending : ∀ t ∈ batch, ∀ q ∈ c.view.leader.pending, q.entry.Spares (simplifyPath t.remotePath)
  size : ∀ t ∈ batch, t.size = (content localFiles t).length
  fits : ((batch.map (content localFiles)).flatten.length : Int) ≤ storage.getBlockSize
  upload : ∃ aggType outcomes waits, StorageType.fromString aggType = .ok storage ∧
    d.Stores storage outcomes [(batch.map (content localFiles)).flatten] ∧
    (∀ during ∈ waits.putBatch :: waits.putOkBatch :: waits.locks, ∀ a ∈ during,
      ∀ t ∈ batch, a.Spares (simplifyPath t.remotePath)) ∧
    (smallFileAggregateUpload batch localFiles aggType d outcomes waits).run c = some (.ok (), c')

/-- The task whose file an upload leaves under the path. -/
def lastTask (batch : List UploadTask) (path : Str) : Option UploadTask :=
  (batch.filter fun t ↦ simplifyPath t.remotePath = path).getLast?

/-- No task is for the directory of another one. -/
def Beside (batch : List UploadTask) (path : Str) : Prop :=
  ∀ t ∈ batch, getParentPath (simplifyPath t.remotePath) ≠ path

namespace AggregateUploaded

open Client

variable {batch : List UploadTask} {localFiles : Str → Option Str} {storage : StorageType}
  {d : Shards} {c c' : Client} {t last : UploadTask}

/-- The request that decides about the path. -/
theorem last_request {files : List AggFile} {data path : Str}
    (hplaced : List.Forall₂ (fun t file ↦ ∃ first, Placed localFiles data t file first) batch files)
    (res : Str) (hlast : lastTask batch path = some last) :
    ∃ own, ((files.map (memberRequest res)).filter fun r ↦ simplifyPath r.path = path).getLast? =
        some (memberRequest res own) ∧ ∃ first, Placed localFiles data last own first := by
  have hkeep : ∀ (t : UploadTask) (file : AggFile), (∃ first, Placed localFiles data t file first) →
      (decide (simplifyPath t.remotePath = path) = true ↔
        decide (simplifyPath file.path = path) = true) := by
    rintro t file ⟨first, hp⟩
    rw [hp.path]
  obtain ⟨own, hown, hp⟩ := forall₂_getLast (List.rel_filter @hkeep hplaced) hlast
  refine ⟨own, ?_, hp⟩
  have hfun : ((fun r : NNPutOKRequest ↦ decide (simplifyPath r.path = path)) ∘ memberRequest res) =
      fun file ↦ decide (simplifyPath file.path = path) := rfl
  rw [List.filter_map, List.getLast?_map, hfun, hown]
  rfl

theorem decode_res {outcomes : List Bool} {res : Str}
    (h : AggregateUploaded batch localFiles storage d c c')
    (hstores : d.Stores storage outcomes [(batch.map (content localFiles)).flatten])
    (hencode : encodeOneBlock d.sha256sum storage d.nodes d.code outcomes
      (batch.map (content localFiles)).flatten = some (.ok res)) :
    (d.toDatanodes []).decode (some storage) res =
        .ok (batch.map (content localFiles)).flatten ∧
      (batch.map (content localFiles)).flatten.length < 2 ^ 31 := by
  obtain ⟨s, hs, hdecode⟩ := hstores.encode_ok (List.mem_singleton.mpr rfl)
  simp only [Shards.toDatanodes, Option.bind_some, hencode] at hs
  obtain rfl := Except.ok.inj hs
  refine ⟨hdecode, ?_⟩
  have hbound := storage.getBlockSize_lt
  have hfits := h.fits
  omega

theorem reached (h : AggregateUploaded batch localFiles storage d c c') :
    (∃ myIp now, Reaches Leader.step (fun _ _ ↦ True) (.start myIp now) c'.view.leader) ∧
      c'.view.progress ≤ c'.view.leader.applied.length := by
  obtain ⟨aggType, outcomes, waits, -, -, -, hrun⟩ := h.upload
  obtain ⟨myIp, now, hleader⟩ := h.leader
  obtain ⟨files, -, res, -, -, -, hreq⟩ := smallFileAggregateUpload_ok hrun
  obtain ⟨made, l₁, c₂, stored, l₃, hmade, hlock, hstored, rfl⟩ := hreq.requested
  obtain ⟨l₂, rfl, hlocked⟩ := lockFiles_leader hlock
  have hreach := ((Leader.reaches_of_rpc hmade).trans hlocked).trans (Leader.reaches_of_rpc hstored)
  refine ⟨⟨myIp, now, hleader.trans hreach⟩, ?_⟩
  obtain ⟨records, happlied, -⟩ := Leader.applied_of_reaches hreach
  rw [hreq.progress, happlied, List.length_append]
  exact h.progress.trans (Nat.le_add_right _ _)

/-- No local file of a path is touched. -/
theorem dirs (h : AggregateUploaded batch localFiles storage d c c') :
    c'.view.sdk.tmpPath = c.view.sdk.tmpPath ∧ c'.view.sdk.dirs = c.view.sdk.dirs := by
  obtain ⟨aggType, outcomes, waits, -, -, -, hrun⟩ := h.upload
  obtain ⟨files, -, res, -, -, -, hreq⟩ := smallFileAggregateUpload_ok hrun
  exact ⟨hreq.tmpPath, hreq.dirs⟩

/-- A path without a directory cannot be committed. -/
theorem slash (h : AggregateUploaded batch localFiles storage d c c') (ht : t ∈ batch) :
    '/' ∈ simplifyPath t.remotePath := by
  obtain ⟨aggType, outcomes, waits, -, -, -, hrun⟩ := h.upload
  obtain ⟨myIp, now, hleader⟩ := h.leader
  obtain ⟨files, -, res, hplaced, -, -, hreq⟩ := smallFileAggregateUpload_ok hrun
  obtain ⟨made, l₁, c₂, stored, l₃, hmade, hlock, hstored, -⟩ := hreq.requested
  obtain ⟨l₂, rfl, hlocked⟩ := lockFiles_leader hlock
  obtain ⟨file, hfile, place, hp⟩ := forall₂_mem_left hplaced ht
  have hreach := (hleader.trans (Leader.reaches_of_rpc hmade)).trans hlocked
  have hslash := Leader.slash_of_rpc_putOkBatch hreach hstored (List.mem_map_of_mem hfile)
  rw [← hp.path]
  exact hslash

/-- What the upload leaves under the path of a task. -/
theorem lookup (h : AggregateUploaded batch localFiles storage d c c') (ht : t ∈ batch)
    (hlast : lastTask batch (simplifyPath t.remotePath) = some last) :
    (Beside batch (simplifyPath t.remotePath) →
      ∃ j res first,
        RocksDB.lookup c'.view.leader.store (simplifyPath t.remotePath) = some j ∧
        SDK.Member (d.toDatanodes []) (batch.map (content localFiles)).flatten res first j ∧
        j.storageType = some storage ∧ j.filesize = (content localFiles last).length ∧
        SDK.memberContent (batch.map (content localFiles)).flatten first j.filesize =
          content localFiles last ∧
        (∃ outcomes, d.Stores storage outcomes [(batch.map (content localFiles)).flatten] ∧
          encodeOneBlock d.sha256sum storage d.nodes d.code outcomes
            (batch.map (content localFiles)).flatten = some (.ok res)) ∧
        ∀ q ∈ c'.view.leader.pending, q.entry.Spares (simplifyPath t.remotePath)) ∧
      (¬ Beside batch (simplifyPath t.remotePath) →
        RocksDB.lookup c.view.leader.store (simplifyPath t.remotePath) = none →
        ∃ j, RocksDB.lookup c'.view.leader.store (simplifyPath t.remotePath) = some j ∧
          j.valid = true ∧ j.filesize = 0) := by
  obtain ⟨aggType, outcomes, waits, hstorage, hstores, hspares, hrun⟩ := h.upload
  obtain ⟨files, storage', res, hplaced, hstorage', hencode, hreq⟩ := smallFileAggregateUpload_ok hrun
  rw [hstorage] at hstorage'
  obtain rfl := Except.ok.inj hstorage'
  obtain ⟨made, l₁, c₂, stored, l₃, hmade, hlock, hstored, hleader⟩ := hreq.requested
  have hquiet : ∀ during ∈ waits.putBatch :: waits.putOkBatch :: waits.locks, ∀ a ∈ during,
      a.Spares (simplifyPath t.remotePath) := fun during hd a ha ↦ hspares during hd a ha t ht
  obtain ⟨file, hfile, place, hp⟩ := forall₂_mem_left hplaced ht
  have hpath := hp.path
  have hmember : ∃ req ∈ files.map fun file ↦ (⟨file.path, aggType⟩ : NNPutRequest),
      simplifyPath req.path = simplifyPath t.remotePath :=
    ⟨_, List.mem_map_of_mem hfile, by rw [hpath]⟩
  -- the three kinds of requests, one after the other
  obtain ⟨⟨f, hf, hnew⟩, hpending₁⟩ := Leader.rpc_putBatch_spared (h.pending t ht)
    (hquiet _ (by simp)) hstorage (by simp) hmember hmade
  obtain ⟨⟨deadline, hlocked⟩, hpending₂⟩ := lockFiles_lookup hpending₁
    (fun during hd ↦ hquiet during (by simp [hd])) hnew hlock
  have hslash := h.slash ht
  refine ⟨fun hbeside ↦ ?_, fun hinside hfresh ↦ ?_⟩
  · have hflat : ∀ req ∈ files.map (memberRequest res),
        getParentPath (simplifyPath req.path) ≠ simplifyPath t.remotePath := by
      intro req hr
      obtain ⟨other, ho, rfl⟩ := List.mem_map.mp hr
      obtain ⟨s, hs, place, hps⟩ := forall₂_mem_right hplaced ho
      show getParentPath (simplifyPath other.path) ≠ _
      rw [hps.path]
      exact hbeside s hs
    obtain ⟨own, hown, first, hplace⟩ := last_request hplaced res hlast
    obtain ⟨⟨id, hid, hfound⟩, hpending₃⟩ := Leader.rpc_putOkBatch_spared hpending₂
      (hquiet _ (by simp)) hslash hlocked hown hflat hstored
    rw [← hleader] at hfound hpending₃
    have hmem : last ∈ batch := (of_getLast?_filter hlast).1
    have hsize : own.size = (content localFiles last).length := by rw [hplace.size, h.size last hmem]
    obtain ⟨hdecode, hsmall⟩ := h.decode_res hstores hencode
    refine ⟨_, res, first, hfound, ?_, rfl, hsize, ?_, ⟨outcomes, hstores, hencode⟩, hpending₃⟩
    · exact hplace.member hsize rfl hid (by simp) rfl rfl hdecode hsmall
    · exact hplace.content_eq hsize
  · rw [Beside] at hinside
    push Not at hinside
    obtain ⟨s, hs, hparent⟩ := hinside
    obtain ⟨other, ho, place, hps⟩ := forall₂_mem_left hplaced hs
    obtain ⟨sub, hfound⟩ := Leader.rpc_putOkBatch_directory hpending₂ (hquiet _ (by simp)) hslash
      hlocked (List.mem_map_of_mem ho) (by rw [← hparent, ← hps.path]; rfl) hstored
    rw [← hleader] at hfound
    rcases RocksDB.getInode_eq_ok.mp hf with hold | ⟨-, -, rfl⟩
    · rw [simplifyPath_idem, hfresh] at hold
      cases hold
    · exact ⟨_, hfound, rfl, rfl⟩

/-- The file of a task is read back if it is not empty, no other file of the list is in it, and the
last file of the list with this path has the same content. -/
theorem member_read_back_iff (h : AggregateUploaded batch localFiles storage d c c') (ht : t ∈ batch)
    (hdir : ¬ Beside batch (simplifyPath t.remotePath) →
      RocksDB.lookup c.view.leader.store (simplifyPath t.remotePath) = none ∧
        content localFiles t ≠ []) :
    (∃ w, (SDK.get t.remotePath c'.view.leader.applied.length (d.toDatanodes [])).run c'.view =
        some (.ok (content localFiles t), w)) ↔
      content localFiles t ≠ [] ∧ Beside batch (simplifyPath t.remotePath) ∧
        (lastTask batch (simplifyPath t.remotePath)).map (content localFiles) =
          some (content localFiles t) := by
  obtain ⟨⟨myIp, now, hleader⟩, hprogress⟩ := h.reached
  have hne : t.remotePath ≠ [] := by
    intro hnil
    have hslash := h.slash ht
    rw [hnil] at hslash
    cases hslash
  obtain ⟨last, hlast⟩ : ∃ last, lastTask batch (simplifyPath t.remotePath) = some last := by
    refine Option.ne_none_iff_exists'.mp fun hnone ↦ ?_
    rw [lastTask, List.getLast?_eq_none_iff, List.filter_eq_nil_iff] at hnone
    exact hnone t ht (decide_eq_true rfl)
  obtain ⟨hmember, hinside⟩ := h.lookup ht hlast
  rw [hlast, Option.map_some, Option.some.injEq]
  by_cases hbeside : Beside batch (simplifyPath t.remotePath)
  · obtain ⟨j, res, first, hl, hj, -, hsize, hcontent, -⟩ := hmember hbeside
    rw [hj.get_run hne hleader hprogress hl, hcontent]
    by_cases hzero : j.filesize = 0
    · have hempty : content localFiles last = [] := List.length_eq_zero_iff.mp (hsize.symm.trans hzero)
      rw [if_pos hzero]
      refine ⟨fun ⟨w, hw⟩ ↦ ?_, fun ⟨hfull, _, hsame⟩ ↦ ?_⟩
      · cases hw
      · exact absurd (hsame.symm.trans hempty) hfull
    · have hfull : content localFiles last ≠ [] := fun hnil ↦ hzero (by rw [hsize, hnil]; rfl)
      rw [if_neg hzero]
      refine ⟨fun ⟨w, hw⟩ ↦ ?_, fun ⟨_, _, hsame⟩ ↦ ⟨_, by rw [hsame]⟩⟩
      obtain ⟨hw, -⟩ := Prod.mk.inj (Option.some.inj hw)
      have hsame := Except.ok.inj hw
      exact ⟨hsame ▸ hfull, hbeside, hsame⟩
  · -- the inode stays that of an empty file
    obtain ⟨hfresh, hfull⟩ := hdir hbeside
    obtain ⟨j, hl, hv, hzero⟩ := hinside hbeside hfresh
    refine ⟨fun ⟨w, hw⟩ ↦ ?_, fun ⟨_, hno, _⟩ ↦ absurd hno hbeside⟩
    have hremote := SDK.getRemoteInode_run hne hleader hprogress hl hv
    rw [SDK.get, run_bind_ok hremote] at hw
    split at hw
    · cases hw
    · obtain ⟨written, u, -, hw⟩ := bind_ok hw
      obtain ⟨hw, -⟩ := Prod.mk.inj (Option.some.inj hw)
      have hresize := Except.ok.inj hw
      rw [hzero, resizeFile, List.take_zero, Nat.zero_sub] at hresize
      exact absurd hresize.symm hfull

end AggregateUploaded

/-- A codec with one data fragment, whose parity fragment is the same. -/
def copyCode : ErasureCode where
  encode _ _ block := return [block, block]
  decode _ _ vec := return vec.headD []

def aggShards : Shards := { abcShards with code := copyCode }

/-- Three small files, the last of them empty. -/
def aggBatch : List UploadTask :=
  [⟨"/local/a".toList, "/a".toList, 1, [], some .smallFile, .waiting⟩,
    ⟨"/local/b".toList, "/b".toList, 2, [], some .smallFile, .waiting⟩,
    ⟨"/local/c".toList, "/c".toList, 0, [], some .smallFile, .waiting⟩]

def aggLocalFiles (path : Str) : Option Str :=
  if path = "/local/a".toList then some "a".toList
  else if path = "/local/b".toList then some "bc".toList
  else if path = "/local/c".toList then some []
  else none

def aggWaits : AggWaits :=
  ⟨[.apply], [[.apply], [.apply], [.apply]], [], [], [.apply, .apply]⟩

def aggStart : Client := ⟨pairView, {}⟩

def aggUpload : Option (Except Fault Unit × Client) :=
  (Client.smallFileAggregateUpload aggBatch aggLocalFiles "AGG<1,1,1>".toList aggShards [true, true]
    aggWaits).run aggStart

def aggClient : Client := (aggUpload.map (·.2)).getD aggStart

theorem copyCode_faithful : StorageType.Faithful copyCode (.agg 1 1 1) := by
  intro block shards hencode
  obtain rfl := Except.ok.inj hencode
  exact ⟨le_rfl, Nat.le_succ 1, rfl⟩

theorem aggShards_stores :
    aggShards.Stores (.agg 1 1 1) [true, true]
      [(aggBatch.map (Client.content aggLocalFiles)).flatten] := by
  have hdata : (aggBatch.map (Client.content aggLocalFiles)).flatten = "abc".toList := by decide
  refine ⟨⟨abcShards_stores.printed.hash, abcShards_stores.printed.nodes⟩, by decide, by simp, copyCode_faithful, ?_⟩
  intro block hb
  obtain rfl := List.mem_singleton.mp hb
  rw [hdata]
  refine ⟨["abc".toList, "abc".toList], rfl, le_rfl, fun shard hs node _ ↦ ?_⟩
  obtain rfl : shard = "abc".toList := by simpa using hs
  rfl

theorem aggregate_uploaded :
    AggregateUploaded aggBatch aggLocalFiles (.agg 1 1 1) aggShards aggStart aggClient := by
  have hok : aggUpload.map (·.1) = some (.ok ()) := by decide +kernel
  have hrun : aggUpload = some (.ok (), aggClient) := by
    obtain ⟨⟨r, c⟩, hc, hr⟩ := Option.map_eq_some_iff.mp hok
    obtain rfl : r = .ok () := hr
    rw [aggClient, hc]
    rfl
  refine ⟨⟨_, _, .refl⟩, le_rfl, ?_, by decide, by decide, "AGG<1,1,1>".toList, [true, true], aggWaits,
    by decide, aggShards_stores, ?_, hrun⟩
  · intro t _ q hq
    cases hq
  · intro during hd a ha t _
    have hall : ∀ during ∈ aggWaits.putBatch :: aggWaits.putOkBatch :: aggWaits.locks,
        ∀ a ∈ during, a = .apply := by decide
    rw [hall during hd a ha]
    exact trivial

theorem beside_agg (path : Str) (h : path ≠ root) : Beside aggBatch path := by
  intro t ht
  have hall : ∀ t ∈ aggBatch, getParentPath (simplifyPath t.remotePath) = root := by decide
  rw [hall t ht]
  exact Ne.symm h

/-- The file in the middle of the aggregate. -/
theorem read_back_second :
    ∃ w, (SDK.get "/b".toList aggClient.view.leader.applied.length (aggShards.toDatanodes [])).run
      aggClient.view = some (.ok "bc".toList, w) := by
  have hbeside : Beside aggBatch (simplifyPath "/b".toList) := beside_agg _ (by decide)
  have hmem : (⟨"/local/b".toList, "/b".toList, 2, [], some .smallFile, .waiting⟩ : UploadTask) ∈
      aggBatch := by decide
  exact (aggregate_uploaded.member_read_back_iff hmem fun hno ↦ absurd hbeside hno).mpr
    ⟨by decide, hbeside, by decide⟩

/-- The empty file was committed with the others, but `get` refuses its range. -/
theorem not_read_back_empty :
    AggregateUploaded aggBatch aggLocalFiles (.agg 1 1 1) aggShards aggStart aggClient ∧
      (aggBatch.map (·.remotePath)).Nodup ∧
      ∃ t ∈ aggBatch, t.remotePath = "/c".toList ∧ Client.content aggLocalFiles t = [] ∧
        (∃ w, (SDK.get t.remotePath aggClient.view.leader.applied.length
            (aggShards.toDatanodes [])).run aggClient.view =
          some (.error (.runtime "Invalid range: begin or end out of bounds".toList), w)) ∧
        ¬ ∃ w, (SDK.get t.remotePath aggClient.view.leader.applied.length
            (aggShards.toDatanodes [])).run aggClient.view =
          some (.ok (Client.content aggLocalFiles t), w) := by
  have hbeside : Beside aggBatch (simplifyPath "/c".toList) := beside_agg _ (by decide)
  have hmem : (⟨"/local/c".toList, "/c".toList, 0, [], some .smallFile, .waiting⟩ : UploadTask) ∈
      aggBatch := by decide
  have hlast : lastTask aggBatch (simplifyPath "/c".toList) =
      some ⟨"/local/c".toList, "/c".toList, 0, [], some .smallFile, .waiting⟩ := by decide
  obtain ⟨⟨myIp, now, hleader⟩, hprogress⟩ := aggregate_uploaded.reached
  obtain ⟨hmember, -⟩ := aggregate_uploaded.lookup hmem hlast
  obtain ⟨j, res, first, hl, hj, -, hsize, -⟩ := hmember hbeside
  have hne : "/c".toList ≠ [] := by decide
  have hget := hj.get_run hne hleader hprogress hl
  have hzero : j.filesize = 0 := hsize.trans (by decide)
  rw [if_pos hzero] at hget
  refine ⟨aggregate_uploaded, by decide, _, hmem, rfl, by decide, ⟨_, hget⟩, ?_⟩
  rintro ⟨w, hw⟩
  rw [hget] at hw
  cases hw

end Spkdfs
