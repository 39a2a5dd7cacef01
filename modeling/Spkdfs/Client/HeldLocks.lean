import Spkdfs.Client.Frame
import Spkdfs.Client.Syncing

namespace Spkdfs

open Library Procedure Function

/-- The locks of block files and links that are not released: more than before when an exception
has left one, else the same. -/
def HeldSince (left : Prop) (v w : View) : Prop :=
  left ∧ v.sdk.held < w.sdk.held ∨ ¬ left ∧ w.sdk.held = v.sdk.held

section

variable {left left' : Prop} {v w u : View}

theorem View.held_lt_holding (v : View) (key : Str) : v.sdk.held < (v.holding key).sdk.held :=
  lt_update_self_iff.mpr (Nat.lt_succ_self _)

theorem HeldSince.of_eq (hno : ¬ left) (h : w.sdk.held = v.sdk.held) : HeldSince left v w :=
  .inr ⟨hno, h⟩

theorem HeldSince.le (h : HeldSince left v w) : v.sdk.held ≤ w.sdk.held := by
  obtain ⟨-, hlt⟩ | ⟨-, hsame⟩ := h
  · exact hlt.le
  · exact hsame.ge

theorem HeldSince.eq_iff (h : HeldSince left v w) : w.sdk.held = v.sdk.held ↔ ¬ left := by
  obtain ⟨hleft, hlt⟩ | ⟨hno, hsame⟩ := h
  · exact iff_of_false hlt.ne' (not_not.mpr hleft)
  · exact iff_of_true hsame hno

theorem HeldSince.trans (h : HeldSince left v w) (h' : HeldSince left' w u) :
    HeldSince (left ∨ left') v u := by
  obtain ⟨hleft, hlt⟩ | ⟨hno, hsame⟩ := h
  · exact .inl ⟨.inl hleft, hlt.trans_le h'.le⟩
  obtain ⟨hleft', hlt⟩ | ⟨hno', hsame'⟩ := h'
  · exact .inl ⟨.inr hleft', hsame ▸ hlt⟩
  · exact .inr ⟨not_or.mpr ⟨hno, hno'⟩, hsame'.trans hsame⟩

theorem HeldSince.congr (h : HeldSince left v w) (hiff : left ↔ left') : HeldSince left' v w := by
  rwa [HeldSince, ← hiff]

end

namespace SDK

/-- No lock of a block file or link is taken or released. -/
def HeldIs (held : Str → Nat) (v : View) : Prop := v.sdk.held = held

theorem remote_heldIs {held : Str → Nat} : Remote (HeldIs held) where
  leader _ _ h := h
  progress _ _ h := h
  dirs _ _ h := h

/-- A request is the affair of the leader, answered or not. -/
theorem keeps_request {P : View → Prop} (hP : Remote P) {req : Request} {during : List Action}
    {lost : Option Fault} : Keeps P (Trace.request req during lost) := by
  cases lost with
  | none => exact keeps_rpc hP
  | some fault =>
    intro v r w hv h
    simp only [Trace.request, Trace.unanswered, run_of, Option.map_eq_some_iff, Prod.mk.injEq] at h
    obtain ⟨l, -, -, rfl⟩ := h
    exact hP.leader v l hv

theorem Trace.keeps_updateInode {P : View → Prop} {Q : Mark → Prop} {path : Str} {seen : Nat}
    {error : Option (Nat × Str)} {lost : Option Fault} (hP : Remote P)
    (hcache : ∀ i, Keeps P (setCache path i)) :
    Traced.Keeps P Q (updateInode path seen error lost) := by
  cases lost with
  | none => exact Traced.keeps_lift (SDK.keeps_updateInode hP hcache)
  | some fault =>
    exact Traced.keeps_lift (keeps_get.bind fun _ ↦ (hcache _).bind fun _ ↦ keeps_throw _)

section

variable {held : Str → Nat} {path : Str} {flags size : Nat} {waits : Waits} {during : List Action}
  {lost : Option Fault}

theorem keeps_heldIs_acquire {lock : PathLocks → Str → Option PathLocks} :
    Keeps (HeldIs held) (acquire lock path) := by
  intro v r w hv h
  simp only [acquire, run_of, Option.map_eq_some_iff, Prod.mk.injEq] at h
  obtain ⟨locks, -, -, rfl⟩ := h
  exact hv

namespace Trace

theorem keeps_heldIs_rpc {req : Request} :
    Traced.Keeps (HeldIs held) (fun _ ↦ True) (rpc req during lost) :=
  Traced.keeps_note (keeps_request remote_heldIs) fun _ _ _ _ _ ↦ trivial

theorem keeps_heldIs_truncate :
    Traced.Keeps (HeldIs held) (fun _ ↦ True) (_truncate path size during lost) := by
  refine (Traced.keeps_lift keeps_getInode).bind fun inode ↦ ?_
  split
  · exact Traced.keeps_pure _
  split
  · exact Traced.keeps_lift keeps_stuck
  · exact keeps_heldIs_rpc.bind fun _ ↦
      Traced.keeps_note (keeps_modify fun _ h ↦ h) fun _ _ _ _ _ ↦ trivial

theorem keeps_heldIs_openLock {lost : Lost} :
    Traced.Keeps (HeldIs held) (fun _ ↦ True) (openLock path flags waits lost) := by
  have hacquire : ∀ lock, Traced.Keeps (HeldIs held) (fun _ ↦ True) (acquire lock path) := fun _ ↦
    Traced.keeps_note keeps_heldIs_acquire fun _ _ _ _ _ ↦ trivial
  rw [openLock]
  split
  · refine Traced.Keeps.bind ?_ fun _ ↦ (Traced.keeps_lift keeps_get).bind fun _ ↦
      (Traced.keeps_lift keeps_mkdirF).bind fun _ ↦
        Traced.keeps_lift (keeps_modifyDir remote_heldIs _)
    exact (hacquire _).bind fun _ ↦ keeps_heldIs_rpc.bind fun _ ↦
      Traced.keeps_lift (keeps_modify fun _ h ↦ h)
  · exact hacquire _

/-- `open` has to do with the lock of the path alone. -/
theorem keeps_heldIs_open {lost : Lost} :
    Traced.Keeps (HeldIs held) (fun _ ↦ True) (Trace.open path flags waits lost) := by
  have hinode : Traced.Keeps (HeldIs held) (fun _ ↦ True) (openInode path flags waits lost) := by
    refine (keeps_updateInode remote_heldIs fun _ ↦ keeps_modify fun _ h ↦ h).bind fun _ ↦ ?_
    split
    · exact keeps_heldIs_truncate
    · exact Traced.keeps_pure _
  have hrest : Traced.Keeps (HeldIs held) (fun _ ↦ True) (do
      .lift (mkdirF ((← .lift get).sdk.tmpPath path) waits.mkdir)
      .lift (modifyDir path id)
      openLock path flags waits lost
      openInode path flags waits lost) :=
    (Traced.keeps_lift keeps_get).bind fun _ ↦ (Traced.keeps_lift keeps_mkdirF).bind fun _ ↦
      (Traced.keeps_lift (keeps_modifyDir remote_heldIs _)).bind fun _ ↦
        keeps_heldIs_openLock.bind fun _ ↦ hinode
  unfold Trace.open
  split
  · exact (Traced.keeps_lift (keeps_throw _)).bind fun _ ↦ hrest
  · exact hrest

end Trace

end

/-- A block that has to be fetched, and cannot be: the directory for its file is not there, or the
datanodes do not return it. -/
structure FetchRefused (inode : Inode) (index : Int) (nodes : Datanodes) (v : View) : Prop where
  nonneg : 0 ≤ index
  missing : ((v.sdk.dir inode.fullpath.str).read index.toNat).any (· ≠ []) = false
  failing : ∃ blks, inode.sub[index.toNat]? = some blks ∧
    (v.sdk.dirs (v.sdk.tmpPath inode.fullpath.str) = none ∨
      ∃ fault, nodes.decode inode.storageType blks = .error fault)

/-- One of these blocks cannot be fetched, when those before it have been. -/
def FetchesRefused (inode : Inode) (nodes : Datanodes) : List Int → View → Prop
  | [], _ => False
  | index :: rest, v => FetchRefused inode index nodes v ∨
      ∃ w, (fetchBlock inode index nodes).run v = some (.ok (), w) ∧
        FetchesRefused inode nodes rest w

/-- The blocks that `write_data` reads before it writes. -/
def fetchedFirst (inode : Inode) (offset size : Nat) : List Int :=
  let blockSize := toUInt64 inode.getBlockSize
  let indexs := getIndexs inode offset size
  (if offset < inode.filesize ∧ offset % blockSize ≠ 0 then [indexs.1] else []) ++
    if (offset + size) % 2 ^ 64 < inode.filesize ∧ indexs.1 ≠ indexs.2 - 1 ∧
      (offset + size) % 2 ^ 64 % blockSize ≠ 0 then [indexs.2 - 1] else []

/-- `fsync` comes to a block that cannot be uploaded. -/
structure UploadRefused (path : Str) (nodes : Datanodes) (v : View) : Prop where
  names : ¬ BadName path v
  failing : ∃ inode, v.sdk.cache path = some inode ∧ ∃ block ∈ dirtyBlocks (v.sdk.dir path),
    ∃ fault, nodes.encode inode.storageType block.2 = .error fault

end SDK

/-- An access that throws while it has a block file or a link locked. -/
def Access.Leaves (path : Str) (v : View) : Access → Prop
  | .read offset size nodes => ∃ inode, v.sdk.cache path = some inode ∧ offset ≤ inode.filesize ∧
      let size := if inode.filesize < (offset + size) % 2 ^ 64 then inode.filesize - offset else size
      let indexs := SDK.getIndexs inode offset size
      SDK.FetchesRefused inode nodes
        ((List.range (indexs.2 - indexs.1).toNat).map fun i : Nat ↦ indexs.1 + i) v
  | .write offset data nodes => ∃ inode, v.sdk.cache path = some inode ∧
      SDK.FetchesRefused inode nodes (SDK.fetchedFirst inode offset data.length) v
  | .fsync nodes _ _ => SDK.UploadRefused path nodes v
  | .elsewhere _ => False

/-- One of these accesses leaves a lock, each in the state that those before it lead to. -/
def LeavesLocks (path : Str) : List Access → View → Prop
  | [], _ => False
  | a :: rest, v => a.Leaves path v ∨ ∃ w trace,
      (SDK.Trace.access path a).run v = some (.ok (), w, trace) ∧ LeavesLocks path rest w

namespace SDK

section

variable {path : Str} {inode : Inode} {index : Int} {indices : List Int} {nodes : Datanodes}
  {v w : View} {offset size : Nat}

theorem not_uploadRefused (h : dirtyBlocks (v.sdk.dir path) = []) :
    ¬ UploadRefused path nodes v := by
  rintro ⟨-, inode, -, block, hb, -⟩
  rw [h] at hb
  cases hb

theorem FetchRefused.index_lt (h : FetchRefused inode index nodes v) : index < inode.sub.length := by
  obtain ⟨blks, hsub, -⟩ := h.failing
  have hlt := (List.getElem?_eq_some_iff.mp hsub).1
  have hnonneg := h.nonneg
  omega

/-- `fetchBlock` throws exactly when it leaves a lock. -/
theorem fetchBlock_held {r : Except Fault Unit}
    (h : (fetchBlock inode index nodes).run v = some (r, w)) :
    (FetchRefused inode index nodes v ∧ (∃ f, r = .error f) ∧ v.sdk.held < w.sdk.held) ∨
      ¬ FetchRefused inode index nodes v ∧ r = .ok () ∧ w.sdk.held = v.sdk.held := by
  obtain ⟨hnonneg, hends⟩ := fetches_of_run h
  cases hends with
  | beyond hsub =>
    refine .inr ⟨fun hno ↦ ?_, rfl, rfl⟩
    obtain ⟨blks, hblks, -⟩ := hno.failing
    rw [hsub] at hblks
    cases hblks
  | present hfile =>
    refine .inr ⟨fun hno ↦ ?_, rfl, rfl⟩
    rw [hno.missing] at hfile
    cases hfile
  | absent hsub hfile hdir =>
    exact .inl ⟨⟨hnonneg, hfile, _, hsub, .inl hdir⟩, ⟨_, rfl⟩, v.held_lt_holding _⟩
  | refused hsub hfile hdir hdecode =>
    exact .inl ⟨⟨hnonneg, hfile, _, hsub, .inr ⟨_, hdecode⟩⟩, ⟨_, rfl⟩, v.held_lt_holding _⟩
  | filled hsub hfile hdir hdecode =>
    refine .inr ⟨fun hno ↦ ?_, rfl, rfl⟩
    obtain ⟨blks, hblks, hnone | ⟨fault, hfault⟩⟩ := hno.failing
    · rw [hdir] at hnone
      cases hnone
    · obtain rfl := Option.some.inj (hsub.symm.trans hblks)
      rw [hdecode] at hfault
      cases hfault

theorem not_fetchesRefused (hbeyond : ∀ index ∈ indices, inode.sub.length ≤ index) :
    ¬ FetchesRefused inode nodes indices v := by
  induction indices generalizing v with
  | nil => exact id
  | cons index rest ih =>
    rintro (hno | ⟨w, -, hrest⟩)
    · exact absurd hno.index_lt (Int.not_lt.mpr (hbeyond index List.mem_cons_self))
    · exact ih (fun i hi ↦ hbeyond i (List.mem_cons_of_mem _ hi)) hrest

/-- Past a block that was fetched, it is about those behind it. -/
theorem fetchesRefused_cons (hno : ¬ FetchRefused inode index nodes v)
    (h : (fetchBlock inode index nodes).run v = some (.ok (), w)) :
    FetchesRefused inode nodes (index :: indices) v ↔ FetchesRefused inode nodes indices w := by
  constructor
  · rintro (hrefused | ⟨u, hu, hrest⟩)
    · exact absurd hrefused hno
    · rw [h] at hu
      obtain ⟨-, rfl⟩ := Prod.mk.inj (Option.some.inj hu)
      exact hrest
  · exact fun hrest ↦ .inr ⟨w, h, hrest⟩

theorem readBlocks_held {last : Int} {r : Except Fault Str} (hsorted : indices.Pairwise (· < ·))
    (h : (readBlocks inode nodes last indices).run v = some (r, w)) :
    HeldSince (FetchesRefused inode nodes indices v) v w := by
  induction indices generalizing v r with
  | nil =>
    obtain ⟨-, rfl⟩ := Prod.mk.inj (Option.some.inj h)
    exact .of_eq id rfl
  | cons index rest ih =>
    obtain ⟨hfirst, hrest⟩ := List.pairwise_cons.mp hsorted
    rw [readBlocks] at h
    split at h
    · -- the loop ends behind the last block, and all other indices are behind it too
      rename_i hend
      obtain ⟨-, rfl⟩ := Prod.mk.inj (Option.some.inj h)
      refine .of_eq (not_fetchesRefused fun i hi ↦ ?_) rfl
      rcases List.mem_cons.mp hi with rfl | hi
      · exact hend
      · exact hend.trans (hfirst i hi).le
    obtain ⟨f, hfetch, -⟩ | ⟨_, u, hfetch, hread⟩ := bind_run h
    · obtain ⟨hrefused, -, hlt⟩ | ⟨-, hok, -⟩ := fetchBlock_held hfetch
      · exact .inl ⟨.inl hrefused, hlt⟩
      · cases hok
    obtain ⟨-, ⟨f, hf⟩, -⟩ | ⟨hno, -, hsame⟩ := fetchBlock_held hfetch
    · cases hf
    rw [run_bind_ok (run_get u)] at hread
    have hbehind : ∃ r', (readBlocks inode nodes last rest).run u = some (r', w) := by
      obtain ⟨f, hrun, -⟩ | ⟨s, x, hrun, hpure⟩ := bind_run hread
      · exact ⟨_, hrun⟩
      · obtain ⟨-, rfl⟩ := Prod.mk.inj (Option.some.inj hpure)
        exact ⟨_, hrun⟩
    obtain ⟨r', hrun⟩ := hbehind
    rw [HeldSince, fetchesRefused_cons hno hfetch, ← hsame]
    exact ih hrest hrun

/-- Whatever works on the cached inode leaves no lock when there is none. -/
theorem getInode_held {α : Type} {P : Inode → Prop} {f : Inode → Method α} {r : Except Fault α}
    (h : (getInode path >>= f).run v = some (r, w))
    (hf : ∀ inode, v.sdk.cache path = some inode → (f inode).run v = some (r, w) →
      HeldSince (P inode) v w) :
    HeldSince (∃ inode, v.sdk.cache path = some inode ∧ P inode) v w := by
  obtain ⟨fault, hget, -⟩ | ⟨inode, u, hget, hrest⟩ := bind_run h
  · refine .of_eq (fun ⟨i, hi, _⟩ ↦ ?_) (keeps_getInode (P := HeldIs v.sdk.held) v _ w rfl hget)
    rw [getInode_ok.mpr ⟨hi, rfl⟩] at hget
    cases hget
  · obtain ⟨hc, rfl⟩ := getInode_ok.mp hget
    refine (hf inode hc hrest).congr ⟨fun hP ↦ ⟨inode, hc, hP⟩, fun ⟨i, hi, hP⟩ ↦ ?_⟩
    obtain rfl := Option.some.inj (hc.symm.trans hi)
    exact hP

theorem readData_held {r : Except Fault Str}
    (h : (readData path offset size nodes).run v = some (r, w)) :
    HeldSince ((Access.read offset size nodes).Leaves path v) v w := by
  refine getInode_held h fun inode hc hrest ↦ ?_
  split at hrest
  · rename_i hbeyond
    obtain ⟨-, rfl⟩ := Prod.mk.inj (Option.some.inj hrest)
    exact .of_eq (fun hno ↦ absurd hno.1 (Nat.not_le.mpr hbeyond)) rfl
  rename_i hin
  split at hrest
  · cases hrest
  dsimp only at hrest ⊢
  rw [and_iff_right (Nat.not_lt.mp hin)]
  generalize (if inode.filesize < (offset + size) % 2 ^ 64 then inode.filesize - offset
    else size) = part at hrest ⊢
  have hread : ∃ r', (readIndexs inode nodes (getIndexs inode offset part)).run v =
      some (r', w) := by
    obtain ⟨f, hrun, -⟩ | ⟨s, x, hrun, hpart⟩ := bind_run hrest
    · exact ⟨_, hrun⟩
    · split at hpart
      · cases hpart
      · obtain ⟨-, rfl⟩ := Prod.mk.inj (Option.some.inj hpart)
        exact ⟨_, hrun⟩
  obtain ⟨r', hrun⟩ := hread
  refine readBlocks_held (List.Pairwise.map _ (fun i k hik ↦ ?_) List.pairwise_lt_range) hrun
  omega

/-- The two fetches of `write_data`, each with what is left to fetch after it. -/
theorem fetchNeeded_held {needed : Prop} [Decidable needed] {r : Except Fault Unit}
    (rest : List Int)
    (h : (if needed then fetchBlock inode index nodes else pure () : Method Unit).run v =
      some (r, w)) :
    (FetchesRefused inode nodes ((if needed then [index] else []) ++ rest) v ∧
        (∃ f, r = .error f) ∧ v.sdk.held < w.sdk.held) ∨
      r = .ok () ∧ w.sdk.held = v.sdk.held ∧
        (FetchesRefused inode nodes ((if needed then [index] else []) ++ rest) v ↔
          FetchesRefused inode nodes rest w) := by
  by_cases hneeded : needed
  · rw [if_pos hneeded] at h ⊢
    rw [List.singleton_append]
    obtain ⟨hrefused, hf, hlt⟩ | ⟨hno, rfl, hsame⟩ := fetchBlock_held h
    · exact .inl ⟨.inl hrefused, hf, hlt⟩
    · exact .inr ⟨rfl, hsame, fetchesRefused_cons hno h⟩
  · rw [if_neg hneeded] at h ⊢
    obtain ⟨rfl, rfl⟩ := Prod.mk.inj (Option.some.inj h)
    exact .inr ⟨rfl, rfl, Iff.rfl⟩

theorem writeData_held {data : Str} {r : Except Fault Unit}
    (h : (writeData path offset data nodes).run v = some (r, w)) :
    HeldSince ((Access.write offset data nodes).Leaves path v) v w := by
  refine getInode_held h fun inode hc hrest ↦ ?_
  dsimp only at hrest
  split at hrest
  · cases hrest
  rw [fetchedFirst]
  obtain ⟨f, hfirst, -⟩ | ⟨_, u, hfirst, hrest⟩ := bind_run hrest
  · obtain ⟨hrefused, -, hlt⟩ | ⟨hok, -⟩ := fetchNeeded_held _ hfirst
    · exact .inl ⟨hrefused, hlt⟩
    · cases hok
  obtain ⟨-, ⟨f, hf⟩, -⟩ | ⟨-, hsame, hiff⟩ := fetchNeeded_held _ hfirst
  · cases hf
  rw [HeldSince, hiff, ← hsame]
  rw [← List.append_nil (ite _ [_] [])]
  obtain ⟨f, hlast, -⟩ | ⟨_, u', hlast, hrest⟩ := bind_run hrest
  · obtain ⟨hrefused, -, hlt⟩ | ⟨hok, -⟩ := fetchNeeded_held [] hlast
    · exact .inl ⟨hrefused, hlt⟩
    · cases hok
  obtain ⟨-, ⟨f, hf⟩, -⟩ | ⟨-, hsame', hiff'⟩ := fetchNeeded_held [] hlast
  · cases hf
  refine .inr ⟨hiff'.not.mpr id, ?_⟩
  exact (keeps_writeBlocks remote_heldIs u' _ w rfl hrest).trans hsame'

theorem encodeBlocks_held {storage : Option StorageType} {blocks : List (Nat × Str)}
    {sub : List Str} {r : Except Fault (List Str)}
    (h : (encodeBlocks path nodes storage blocks sub).run v = some (r, w)) :
    HeldSince (∃ block ∈ blocks, ∃ fault, nodes.encode storage block.2 = .error fault) v w := by
  induction blocks generalizing sub v with
  | nil =>
    obtain ⟨-, rfl⟩ := Prod.mk.inj (Option.some.inj h)
    exact .of_eq (by simp) rfl
  | cons block rest ih =>
    obtain ⟨i, data⟩ := block
    rw [encodeBlocks] at h
    cases hs : nodes.encode storage data with
    | error f =>
      rw [hs, run_bind_error (uploadBlock_error i)] at h
      obtain ⟨-, rfl⟩ := Prod.mk.inj (Option.some.inj h)
      exact .inl ⟨⟨_, List.mem_cons_self, f, hs⟩, v.held_lt_holding _⟩
    | ok s =>
      rw [hs, run_bind_ok (uploadBlock_ok i s)] at h
      refine (ih h).congr ?_
      simp [hs]

namespace Trace

variable {during : List Action} {lost : Option Fault} {trace : List Mark} {list : List Access}

theorem fsync_held {r : Except Fault (Option Commit)}
    (h : (fsync path nodes during lost).run v = some (r, w, trace)) :
    HeldSince (UploadRefused path nodes v) v w := by
  rw [fsync, Traced.run_lift_bind (run_get v)] at h
  dsimp only at h
  split at h
  · rename_i hname
    obtain ⟨hrun, -⟩ := Traced.run_lift.mp h
    obtain ⟨-, rfl⟩ := Prod.mk.inj (Option.some.inj hrun)
    exact .of_eq (fun hno ↦ hno.names hname) rfl
  rename_i hnames
  split at h
  · rename_i hclean
    simp only [Traced.run_pure, Option.some.injEq, Prod.mk.injEq] at h
    obtain ⟨-, rfl, -⟩ := h
    exact .of_eq (not_uploadRefused (List.getLast?_eq_none_iff.mp hclean)) rfl
  obtain ⟨f, hget, -⟩ | ⟨inode, u, t₁, t₂, hget, hrest, -⟩ := Traced.bind_run h
  · obtain ⟨hrun, -⟩ := Traced.run_lift.mp hget
    refine .of_eq (fun hno ↦ ?_) (keeps_getInode (P := HeldIs v.sdk.held) v _ w rfl hrun)
    obtain ⟨i, hi, -⟩ := hno.failing
    rw [getInode_ok.mpr ⟨hi, rfl⟩] at hrun
    cases hrun
  obtain ⟨hc, rfl⟩ := getInode_ok.mp (Traced.run_lift.mp hget).1
  have hencoded : ∀ {sub r x}, (encodeBlocks path nodes inode.storageType
      (dirtyBlocks (u.sdk.dir path)) sub).run u = some (r, x) →
        HeldSince (UploadRefused path nodes u) u x := by
    intro sub r x hencode
    refine (encodeBlocks_held hencode).congr ⟨fun hfail ↦ ⟨hnames, inode, hc, hfail⟩, fun hno ↦ ?_⟩
    obtain ⟨i, hi, hfail⟩ := hno.failing
    obtain rfl := Option.some.inj (hc.symm.trans hi)
    exact hfail
  obtain ⟨f, hencode, -⟩ | ⟨sub, x, t₃, t₄, hencode, hsend, -⟩ := Traced.bind_run hrest
  · exact hencoded (Traced.run_lift.mp hencode).1
  have hsame : w.sdk.held = x.sdk.held := by
    refine (Traced.Keeps.bind keeps_heldIs_rpc (fun entry ↦ ?_) x _ w t₄ rfl hsend).1
    split
    · exact Traced.keeps_pure _
    · exact Traced.keeps_pure _
  rw [HeldSince, hsame]
  exact hencoded (Traced.run_lift.mp hencode).1

/-- What an access does to the locks of the local files. -/
theorem access_held {a : Access} {r : Except Fault Unit}
    (h : (access path a).run v = some (r, w, trace)) : HeldSince (a.Leaves path v) v w := by
  cases a with
  | read offset size nodes =>
    obtain ⟨-, r', hrun⟩ := Traced.run_settled.mp h
    exact readData_held (Traced.run_lift.mp hrun).1
  | write offset data nodes =>
    obtain ⟨-, r', hrun⟩ := Traced.run_settled.mp h
    exact writeData_held (Traced.run_lift.mp hrun).1
  | fsync nodes during lost =>
    obtain ⟨-, r', hrun⟩ := Traced.run_settled.mp h
    exact fsync_held hrun
  | elsewhere actions =>
    obtain ⟨hrun, -⟩ := Traced.run_lift.mp h
    simp only [run_of, Option.map_eq_some_iff, Prod.mk.injEq] at hrun
    obtain ⟨l, -, -, rfl⟩ := hrun
    exact .of_eq id rfl

/-- What the accesses between `open` and `close` do to them. -/
theorem accesses_held (h : (accesses path list).run v = some (.ok (), w, trace)) :
    HeldSince (LeavesLocks path list v) v w := by
  induction list generalizing v trace with
  | nil =>
    obtain ⟨-, he⟩ := Prod.mk.inj (Option.some.inj h)
    obtain ⟨rfl, -⟩ := Prod.mk.inj he
    exact .of_eq id rfl
  | cons a rest ih =>
    obtain ⟨_, u, t₁, t₂, haccess, hrest, rfl⟩ := Traced.bind_ok h
    refine ((access_held haccess).trans (ih hrest)).congr (or_congr_right ⟨?_, ?_⟩)
    · exact fun hleaves ↦ ⟨u, t₁, haccess, hleaves⟩
    · rintro ⟨x, t, hx, hleaves⟩
      rw [haccess] at hx
      obtain ⟨rfl, -⟩ := Prod.mk.inj (Prod.mk.inj (Option.some.inj hx)).2
      exact hleaves

theorem open_held {flags : Nat} {waits : Waits} {lost : Lost} {r : Except Fault Unit}
    (h : (Trace.open path flags waits lost).run v = some (r, w, trace)) :
    w.sdk.held = v.sdk.held :=
  (keeps_heldIs_open v r w trace rfl h).1

theorem close_held {r : Except Fault (Option Commit)}
    (h : (close path nodes during lost).run v = some (r, w, trace)) :
    HeldSince (UploadRefused path nodes v) v w := by
  obtain ⟨f, hsync, -⟩ | ⟨commit, u, t₁, t₂, hsync, hrest, -⟩ := Traced.bind_run h
  · exact fsync_held hsync
  · have hsame : w.sdk.held = u.sdk.held := by
      obtain ⟨-, he⟩ := Prod.mk.inj (Option.some.inj hrest)
      obtain ⟨rfl, -⟩ := Prod.mk.inj he
      rfl
    rw [HeldSince, hsame]
    exact fsync_held hsync

end Trace

end

end SDK

end Spkdfs
