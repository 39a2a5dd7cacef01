import Spkdfs.Client.Methods

namespace Spkdfs

open Library Procedure Function

namespace SDK

/-- A property of a view that neither a namenode nor the local files have to do with. -/
structure Remote (P : View → Prop) : Prop where
  leader : ∀ v leader, P v → P { v with leader }
  progress : ∀ v progress, P v → P { v with progress }
  dirs : ∀ v dirs, P v → P { v with sdk := { v.sdk with dirs } }

/-- A property that the locks of the local files have nothing to do with either. -/
structure Insulated (P : View → Prop) : Prop extends Remote P where
  held : ∀ v held, P v → P { v with sdk := { v.sdk with held } }

section

variable {P : View → Prop} {path key : Str} {error : Option (Nat × Str)} {seen offset size blockSize : Nat} {during : List Action}
  {nodes : Datanodes}

theorem keeps_modifyDir (hP : Remote P) (g : TmpDir → TmpDir) : Keeps P (modifyDir path g) :=
  keeps_modify fun v hs ↦ hP.dirs v _ hs

theorem keeps_hold (hP : Insulated P) : Keeps P (hold key) :=
  keeps_modify fun v hs ↦ hP.held v _ hs

theorem keeps_release (hP : Insulated P) : Keeps P (release key) :=
  keeps_modify fun v hs ↦ hP.held v _ hs

theorem keeps_mkdirF {dir : Str} {message : Option Str} : Keeps P (mkdirF dir message) := by
  intro v r v' hv h
  exact (mkdirF_run h).1 ▸ hv

theorem keeps_rpc (hP : Remote P) {req : Request} : Keeps P (rpc req during) := by
  intro v r v' hv h
  cases r with
  | error f =>
    obtain ⟨l, rfl, -⟩ := rpc_error h
    exact hP.leader v l hv
  | ok entry =>
    obtain ⟨l, rfl, -⟩ := rpc_ok h
    exact hP.leader v l hv

theorem keeps_getInode : Keeps P (getInode path) := by
  refine keeps_get.bind fun v ↦ ?_
  split
  · exact keeps_throw _
  · exact keeps_pure _

theorem keeps_fillBlock (hP : Insulated P) {index : Nat} {decoded : Except Fault Str} :
    Keeps P (fillBlock path index decoded) := by
  refine keeps_get.bind fun v ↦ (keeps_hold hP).bind fun _ ↦ ?_
  split
  · exact keeps_throw _
  · refine (keeps_modifyDir hP.toRemote _).bind fun _ ↦ ?_
    split
    · exact keeps_throw _
    · exact (keeps_modifyDir hP.toRemote _).bind fun _ ↦ keeps_release hP

theorem keeps_fetchBlock (hP : Insulated P) {inode : Inode} {index : Int} :
    Keeps P (fetchBlock inode index nodes) := by
  refine keeps_get.bind fun v ↦ ?_
  dsimp only
  split
  · exact keeps_stuck
  · split
    · exact keeps_pure _
    · split
      · exact keeps_pure _
      · exact keeps_fillBlock hP

theorem keeps_writeBlocks (hP : Remote P) {indexs : Int × Int} {indices : List Int}
    {data : Str} : Keeps P (writeBlocks path offset size blockSize indexs indices data) := by
  induction indices generalizing data with
  | nil => exact keeps_pure _
  | cons index rest ih =>
    refine keeps_get.bind fun v ↦ ?_
    dsimp only
    split
    · exact keeps_stuck
    · split
      · exact keeps_throw _
      · refine (keeps_modifyDir hP _).bind fun _ ↦ ?_
        split
        · exact keeps_throw _
        · exact (keeps_modifyDir hP _).bind fun _ ↦ ih

theorem keeps_writeData (hP : Insulated P) {data : Str} :
    Keeps P (writeData path offset data nodes) := by
  refine keeps_getInode.bind fun inode ↦ ?_
  dsimp only
  have hfetch : ∀ (needed : Prop) [Decidable needed] (index : Int), Keeps P
      (if needed then fetchBlock inode index nodes else pure () : Method Unit) := by
    intro needed _ index
    split
    · exact keeps_fetchBlock hP
    · exact keeps_pure _
  split
  · exact keeps_stuck
  · exact (hfetch _ _).bind fun _ ↦ (hfetch _ _).bind fun _ ↦
      keeps_writeBlocks hP.toRemote

theorem keeps_uploadBlock (hP : Insulated P) {index : Nat} {encoded : Except Fault Str} :
    Keeps P (uploadBlock path index encoded) := by
  refine keeps_get.bind fun v ↦ (keeps_hold hP).bind fun _ ↦ ?_
  split
  · exact keeps_throw _
  · exact (keeps_modifyDir hP.toRemote _).bind fun _ ↦ (keeps_release hP).bind fun _ ↦
      keeps_pure _

theorem keeps_encodeBlocks (hP : Insulated P) {storage : Option StorageType}
    {blocks : List (Nat × Str)} {sub : List Str} : Keeps P (encodeBlocks path nodes storage blocks sub) := by
  induction blocks generalizing sub with
  | nil => exact keeps_pure _
  | cons block rest ih =>
    obtain ⟨index, data⟩ := block
    exact (keeps_uploadBlock hP).bind fun _ ↦ ih

/-- `fsync` leaves the cached inodes as they are, the one it commits included. -/
theorem keeps_fsync (hP : Insulated P) : Keeps P (fsync path nodes during) := by
  refine keeps_get.bind fun v ↦ ?_
  dsimp only
  split
  · exact keeps_throw _
  · split
    · exact keeps_pure _
    · refine keeps_getInode.bind fun inode ↦ (keeps_encodeBlocks hP).bind fun sub ↦
        (keeps_rpc hP.toRemote).bind fun entry ↦ ?_
      split
      · exact keeps_pure _
      · exact keeps_pure _

theorem keeps_getRemoteInode (hP : Remote P) : Keeps P (getRemoteInode path seen) := by
  intro v r v' hv h
  simp only [getRemoteInode, run_of] at h
  split at h
  · obtain ⟨db, -, he⟩ := Option.map_eq_some_iff.mp h
    obtain ⟨-, rfl⟩ := Prod.mk.inj he
    exact hP.progress v seen hv
  · cases h

theorem keeps_removeBlocks (hP : Remote P) {blocks : List Nat} :
    Keeps P (removeBlocks path blocks error) := by
  unfold removeBlocks
  split
  · exact (keeps_modifyDir hP _).bind fun _ ↦ keeps_throw _
  · exact keeps_modifyDir hP _

theorem keeps_updateInode (hP : Remote P) (hcache : ∀ i, Keeps P (setCache path i)) :
    Keeps P (updateInode path seen error) :=
  keeps_get.bind fun _ ↦ (hcache _).bind fun _ ↦ (keeps_getRemoteInode hP).bind fun _ ↦
    (keeps_removeBlocks hP).bind fun _ ↦ hcache _

end

section

variable {path q : Str} {flags : Nat} {waits : Waits} {during : List Action} {nodes : Datanodes}
  {x : Option Inode}

def Caches (q : Str) (x : Option Inode) (v : View) : Prop := v.sdk.cache q = x

theorem insulated_caches : Insulated (Caches q x) where
  leader _ _ h := h
  progress _ _ h := h
  dirs _ _ h := h
  held _ _ h := h

theorem keeps_unlock : Keeps (Caches q x) (unlock path) := keeps_modify fun _ hs ↦ hs

theorem keeps_setCache {i : Option Inode} (hq : q ≠ path) :
    Keeps (Caches q x) (setCache path i) := by
  refine keeps_modify fun v hs ↦ ?_
  exact (update_of_ne hq ..).trans hs

theorem keeps_openInode (hq : q ≠ path) : Keeps (Caches q x) (openInode path flags waits) := by
  refine (keeps_updateInode insulated_caches.toRemote fun _ ↦ keeps_setCache hq).bind fun _ ↦ ?_
  split
  · refine keeps_getInode.bind fun inode ↦ ?_
    split
    · exact keeps_pure _
    · split
      · exact keeps_stuck
      · exact (keeps_rpc insulated_caches.toRemote).bind fun _ ↦ keeps_unlock
  · exact keeps_pure _

theorem keeps_open (hq : q ≠ path) : Keeps (Caches q x) (SDK.open path flags waits) := by
  have hlock : Keeps (Caches q x) (openLock path flags waits) := fun v r v' hv h ↦
    (congrFun (openLock_cache h) q).trans hv
  have hrest : Keeps (Caches q x) (do
      mkdirF ((← get).sdk.tmpPath path) waits.mkdir
      modifyDir path id; openLock path flags waits; openInode path flags waits) :=
    keeps_get.bind fun _ ↦ keeps_mkdirF.bind fun _ ↦ (keeps_modifyDir insulated_caches.toRemote _).bind
      fun _ ↦ hlock.bind fun _ ↦ keeps_openInode hq
  unfold SDK.open
  split
  · exact (keeps_throw _).bind fun _ ↦ hrest
  · exact hrest

theorem keeps_close (hq : q ≠ path) : Keeps (Caches q x) (SDK.close path nodes during) :=
  (keeps_fsync insulated_caches).bind fun _ ↦ (keeps_setCache hq).bind fun _ ↦ keeps_unlock.bind fun _ ↦
    keeps_pure _

end

end SDK

end Spkdfs
