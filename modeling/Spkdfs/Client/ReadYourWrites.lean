import Mathlib.Data.Nat.Find
import Spkdfs.Client.DaemonSteps

namespace Spkdfs

open Library Program Function DaemonUpload

namespace Uploads

variable {u u' : Uploads} {name : QueueName} {path path' : Str} {task other last last' : Nat}
  {t : UploadTask} {source : Option Str}

/-- The last accepted upload of a remote path. -/
def Last (u : Uploads) (path : Str) (task : Nat) : Prop :=
  u.remotePath task = some path ∧ ∀ other, task < other → u.remotePath other ≠ some path

theorem Last.unique (h : u.Last path task) (h' : u.Last path other) : task = other := by
  obtain hlt | heq | hgt := Nat.lt_trichotomy task other
  · exact absurd h'.1 (h.2 other hlt)
  · exact heq
  · exact absurd h.1 (h'.2 task hgt)

theorem exists_last (h : u.remotePath task = some path) : ∃ last, u.Last path last := by
  have hle := (lt_of_remotePath h).le
  refine ⟨Nat.findGreatest (u.remotePath · = some path) u.tasks.length,
    Nat.findGreatest_spec (P := (u.remotePath · = some path)) hle h, fun other hlt hother ↦ ?_⟩
  exact Nat.findGreatest_is_greatest hlt (lt_of_remotePath hother).le hother

theorem last_congr (h : ∀ task, u'.remotePath task = u.remotePath task) :
    u'.Last path task ↔ u.Last path task := by
  simp only [Last, h]

theorem remotePath_length (u : Uploads) : u.remotePath u.tasks.length = none := by
  rw [Uploads.remotePath, List.getElem?_eq_none (Nat.le_refl _), Option.map_none]

theorem Accepts.last_iff (h : u.Accepts t name u') :
    u'.Last path task ↔
      if path = t.remotePath then task = u.tasks.length else u.Last path task := by
  have hlast : u'.Last t.remotePath u.tasks.length := by
    refine ⟨by rw [h.remotePath, if_pos rfl], fun other hlt hother ↦ ?_⟩
    rw [h.remotePath, if_neg hlt.ne'] at hother
    exact absurd (lt_of_remotePath hother) (Nat.lt_asymm hlt)
  split_ifs with hpath
  · subst hpath
    constructor
    · exact fun htask ↦ htask.unique hlast
    · rintro rfl
      exact hlast
  · have hsame : ∀ other, u'.remotePath other = some path ↔ u.remotePath other = some path := by
      intro other
      rw [h.remotePath]
      split_ifs with hother
      · rw [hother, remotePath_length]
        exact iff_of_false (fun he ↦ hpath (Option.some.inj he).symm) nofun
      · exact Iff.rfl
    simp only [Last, ne_eq, hsame]

/-- The small file queue would serve the path from this file, if it is asked. -/
structure Serves (u : Uploads) (path : Str) (source : Option Str) : Prop where
  que : ∀ task ∈ (u.queue .smallFile).que, u.remotePath task = some path → u.localPath task = source
  map : ∃ task, u.Leads .smallFile path task ∧ u.localPath task = source

/-- Whatever a download of an accepted path would be served from is the file of its last upload. -/
structure Fresh (u : Uploads) : Prop where
  member : ∀ name, ∀ task ∈ (u.queue name).que, task < u.tasks.length
  leader : ∀ name path task, u.Leads name path task → task < u.tasks.length
  uncanceled : ∀ task, u.status task ≠ some .canceled
  key : ∀ path path' last last', SameKey path path' → u.Last path last → u.Last path' last' →
    u.localPath last = u.localPath last'
  que : ∀ path last, u.Last path last → ∀ task ∈ (u.queue .bigFile).que, u.remotePath task = some path →
    u.localPath task = u.localPath last
  map : ∀ path last task, u.Last path last → u.Leads .bigFile path task →
    u.localPath task = u.localPath last
  mapped : ∀ task ∈ (u.queue .bigFile).que, ∀ path, u.remotePath task = some path →
    ∃ lead, u.Leads .bigFile path lead
  small : ∀ path last, u.Last path last → (∀ lead, ¬ u.Leads .bigFile path lead) →
    u.Serves path (u.localPath last)

theorem fresh_empty : Fresh {} := by
  have hno : ∀ path last, ¬ Last {} path last := fun path last h ↦ (by cases h.1)
  refine ⟨fun name task h ↦ ?_, fun name path task h ↦ ?_, fun task h ↦ (by cases h),
    fun path path' last last' _ h ↦ absurd h (hno path last), fun path last h ↦ absurd h (hno path last),
    fun path last task h ↦ absurd h (hno path last), fun task h ↦ (by cases h),
    fun path last h ↦ absurd h (hno path last)⟩
  · cases name <;> cases h
  · cases name <;> cases h

theorem Serves.shrinks (h : u.Serves path source) (hs : u.Shrinks u') : u'.Serves path source := by
  obtain ⟨task, hleads, hsource⟩ := h.map
  refine ⟨fun task htask hpath ↦ ?_, task, (leads_of_map (hs.map _)).mpr hleads,
    (hs.localPath task).trans hsource⟩
  rw [hs.localPath]
  exact h.que task (hs.que .smallFile task htask) ((hs.remotePath task).symm.trans hpath)

theorem Fresh.shrinks (h : u.Fresh) (hs : u.Shrinks u')
    (hstatus : ∀ task, u'.status task ≠ some .canceled) : u'.Fresh := by
  have hlast : ∀ {path task}, u'.Last path task ↔ u.Last path task := last_congr hs.remotePath
  have hleads : ∀ {name path task}, u'.Leads name path task ↔ u.Leads name path task :=
    leads_of_map (hs.map _)
  refine ⟨fun name task htask ↦ ?_, fun name path task hled ↦ ?_, hstatus,
    fun path path' last last' hkey h₁ h₂ ↦ ?_, fun path last h₁ task htask hpath ↦ ?_,
    fun path last task h₁ hled ↦ ?_, fun task htask path hpath ↦ ?_, fun path last h₁ hnot ↦ ?_⟩
  · rw [hs.length]
    exact h.member name task (hs.que name task htask)
  · rw [hs.length]
    exact h.leader name path task (hleads.mp hled)
  · rw [hs.localPath, hs.localPath]
    exact h.key path path' last last' hkey (hlast.mp h₁) (hlast.mp h₂)
  · rw [hs.localPath, hs.localPath]
    exact h.que path last (hlast.mp h₁) task (hs.que .bigFile task htask)
      ((hs.remotePath task).symm.trans hpath)
  · rw [hs.localPath, hs.localPath]
    exact h.map path last task (hlast.mp h₁) (hleads.mp hled)
  · obtain ⟨lead, hlead⟩ := h.mapped task (hs.que .bigFile task htask) path
      ((hs.remotePath task).symm.trans hpath)
    exact ⟨lead, hleads.mpr hlead⟩
  · rw [hs.localPath]
    exact (h.small path last (hlast.mp h₁) fun lead hlead ↦ hnot lead (hleads.mpr hlead)).shrinks hs

/-- No task of the path with another file waits in the queue. -/
def Unrivaled (u : Uploads) (name : QueueName) (t : UploadTask) : Prop :=
  ∀ task ∈ (u.queue name).que, u.remotePath task = some t.remotePath →
    u.localPath task = some t.localPath

/-- When an upload may be accepted: nothing older with another file is in its way. -/
structure Welcome (u : Uploads) (t : UploadTask) (name : QueueName) : Prop where
  /-- Another spelling that the maps do not tell from the path was uploaded from the same file. -/
  spelling : ∀ task path, u.remotePath task = some path → SameKey path t.remotePath →
    path ≠ t.remotePath → u.localPath task = some t.localPath
  big : name = .bigFile → u.Unrivaled .bigFile t
  known : name = .smallFile → ∀ lead, u.Leads .bigFile t.remotePath lead →
    u.localPath lead = some t.localPath
  small : name = .smallFile → (∀ lead, ¬ u.Leads .bigFile t.remotePath lead) →
    u.Unrivaled .smallFile t

theorem Accepts.localPath_of_lt (h : u.Accepts t name u') (hlt : task < u.tasks.length) :
    u'.localPath task = u.localPath task := by
  rw [h.localPath, if_neg hlt.ne]

theorem Accepts.remotePath_of_lt (h : u.Accepts t name u') (hlt : task < u.tasks.length) :
    u'.remotePath task = u.remotePath task := by
  rw [h.remotePath, if_neg hlt.ne]

theorem Accepts.localPath_new (h : u.Accepts t name u') :
    u'.localPath u.tasks.length = some t.localPath := by
  rw [h.localPath, if_pos rfl]

theorem Accepts.remotePath_new (h : u.Accepts t name u') :
    u'.remotePath u.tasks.length = some t.remotePath := by
  rw [h.remotePath, if_pos rfl]

/-- The last upload of a path is the new one or has stayed. -/
theorem Accepts.last_cases (hacc : u.Accepts t name u') (hlast : u'.Last path last) :
    path = t.remotePath ∧ last = u.tasks.length ∨
      path ≠ t.remotePath ∧ u.Last path last ∧ u'.localPath last = u.localPath last := by
  rw [hacc.last_iff] at hlast
  split_ifs at hlast with hpath
  · exact .inl ⟨hpath, hlast⟩
  · exact .inr ⟨hpath, hlast, hacc.localPath_of_lt (lt_of_remotePath hlast.1)⟩

/-- An upload whose path the big map does not know afterwards is a small one. -/
theorem Accepts.eq_smallFile (hacc : u.Accepts t name u')
    (hnot : ∀ lead, ¬ u'.Leads .bigFile t.remotePath lead) : name = .smallFile := by
  cases name with
  | smallFile => rfl
  | bigFile => exact absurd hacc.leads_new (hnot _)

/-- The file of the last upload of another spelling is that of the new one. -/
theorem Welcome.localPath_last (hw : u.Welcome t name) (hlast : u.Last path last)
    (hkey : SameKey path t.remotePath) (hne : path ≠ t.remotePath) :
    u.localPath last = some t.localPath :=
  hw.spelling last path hlast.1 hkey hne

/-- What the small file queue would serve stays so while no upload of the path is accepted. -/
theorem Serves.accepts (h : u.Serves path (u.localPath last)) (hfresh : u.Fresh)
    (hacc : u.Accepts t name u') (hw : u.Welcome t name) (hlast : u.Last path last)
    (hne : path ≠ t.remotePath) : u'.Serves path (u'.localPath last) := by
  have hlt := lt_of_remotePath hlast.1
  rw [hacc.localPath_of_lt hlt]
  obtain ⟨lead, hlead, hsource⟩ := h.map
  refine ⟨fun task htask hpath ↦ ?_, ?_⟩
  · obtain htask | ⟨-, rfl⟩ := hacc.mem_que.mp htask
    · have htlt := hfresh.member .smallFile task htask
      rw [hacc.remotePath_of_lt htlt] at hpath
      rw [hacc.localPath_of_lt htlt]
      exact h.que task htask hpath
    · rw [hacc.remotePath_new] at hpath
      exact absurd (Option.some.inj hpath).symm hne
  · by_cases hnew : QueueName.smallFile = name ∧ SameKey path t.remotePath
    · refine ⟨u.tasks.length, hacc.leads_iff.mpr (by rw [if_pos hnew]), ?_⟩
      rw [hacc.localPath_new, hw.localPath_last hlast hnew.2 hne]
    · refine ⟨lead, hacc.leads_iff.mpr (by rw [if_neg hnew]; exact hlead), ?_⟩
      rw [hacc.localPath_of_lt (hfresh.leader .smallFile path lead hlead), hsource]

theorem Fresh.accepts_key (h : u.Fresh) (hacc : u.Accepts t name u') (hw : u.Welcome t name)
    (hkey : SameKey path path') (h₁ : u'.Last path last) (h₂ : u'.Last path' last') :
    u'.localPath last = u'.localPath last' := by
  have hnew := hacc.localPath_new
  obtain ⟨rfl, rfl⟩ | ⟨hne, hl, hold⟩ := hacc.last_cases h₁
  · obtain ⟨rfl, rfl⟩ | ⟨hne', hl', hold'⟩ := hacc.last_cases h₂
    · rfl
    · rw [hold', hnew, hw.localPath_last hl' hkey.symm hne']
  · obtain ⟨rfl, rfl⟩ | ⟨hne', hl', hold'⟩ := hacc.last_cases h₂
    · rw [hold, hnew, hw.localPath_last hl hkey hne]
    · rw [hold, hold']
      exact h.key path path' last last' hkey hl hl'

theorem Fresh.accepts_que (h : u.Fresh) (hacc : u.Accepts t name u') (hw : u.Welcome t name)
    (hlast : u'.Last path last) (htask : task ∈ (u'.queue .bigFile).que)
    (hpath : u'.remotePath task = some path) : u'.localPath task = u'.localPath last := by
  obtain hin | ⟨-, rfl⟩ := hacc.mem_que.mp htask
  · have htlt := h.member .bigFile task hin
    rw [hacc.remotePath_of_lt htlt] at hpath
    rw [hacc.localPath_of_lt htlt]
    obtain ⟨rfl, rfl⟩ | ⟨-, hl, hold⟩ := hacc.last_cases hlast
    · rw [hacc.localPath_new]
      cases name with
      | bigFile => exact hw.big rfl task hin hpath
      | smallFile =>
        obtain ⟨lead, hlead⟩ := h.mapped task hin _ hpath
        obtain ⟨old, hold⟩ := exists_last hpath
        rw [h.que _ old hold task hin hpath, ← h.map _ old lead hold hlead]
        exact hw.known rfl lead hlead
    · rw [hold]
      exact h.que path last hl task hin hpath
  · rw [hacc.remotePath_new] at hpath
    obtain ⟨-, rfl⟩ | ⟨hne, -, -⟩ := hacc.last_cases hlast
    · rfl
    · exact absurd (Option.some.inj hpath).symm hne

theorem Fresh.accepts_map (h : u.Fresh) (hacc : u.Accepts t name u') (hw : u.Welcome t name)
    (hlast : u'.Last path last) (hlead : u'.Leads .bigFile path task) :
    u'.localPath task = u'.localPath last := by
  have hnew := hacc.localPath_new
  rw [hacc.leads_iff] at hlead
  split_ifs at hlead with hkey
  · subst hlead
    obtain ⟨-, rfl⟩ | ⟨hne, hl, hold⟩ := hacc.last_cases hlast
    · rfl
    · rw [hold, hnew, hw.localPath_last hl hkey.2 hne]
  · rw [hacc.localPath_of_lt (h.leader .bigFile path task hlead)]
    obtain ⟨rfl, rfl⟩ | ⟨-, hl, hold⟩ := hacc.last_cases hlast
    · have hsmall : name = .smallFile := by
        cases name with
        | smallFile => rfl
        | bigFile => exact absurd ⟨rfl, rfl, rfl⟩ hkey
      rw [hnew, hw.known hsmall task hlead]
    · rw [hold]
      exact h.map path last task hl hlead

theorem Fresh.accepts_mapped (h : u.Fresh) (hacc : u.Accepts t name u')
    (htask : task ∈ (u'.queue .bigFile).que) (hpath : u'.remotePath task = some path) :
    ∃ lead, u'.Leads .bigFile path lead := by
  by_cases hkey : QueueName.bigFile = name ∧ SameKey path t.remotePath
  · exact ⟨u.tasks.length, hacc.leads_iff.mpr (by rw [if_pos hkey])⟩
  · obtain hin | ⟨hbig, rfl⟩ := hacc.mem_que.mp htask
    · rw [hacc.remotePath_of_lt (h.member .bigFile task hin)] at hpath
      obtain ⟨lead, hlead⟩ := h.mapped task hin path hpath
      exact ⟨lead, hacc.leads_iff.mpr (by rw [if_neg hkey]; exact hlead)⟩
    · rw [hacc.remotePath_new] at hpath
      cases hpath
      exact absurd ⟨hbig, rfl, rfl⟩ hkey

theorem Fresh.accepts_small (h : u.Fresh) (hacc : u.Accepts t name u') (hw : u.Welcome t name)
    (hlast : u'.Last path last) (hnot : ∀ lead, ¬ u'.Leads .bigFile path lead) :
    u'.Serves path (u'.localPath last) := by
  have hnot' : ∀ lead, ¬ u.Leads .bigFile path lead := by
    intro lead hlead
    by_cases hkey : QueueName.bigFile = name ∧ SameKey path t.remotePath
    · exact hnot _ (hacc.leads_iff.mpr (by rw [if_pos hkey]))
    · exact hnot lead (hacc.leads_iff.mpr (by rw [if_neg hkey]; exact hlead))
  obtain ⟨rfl, rfl⟩ | ⟨hne, hl, -⟩ := hacc.last_cases hlast
  · obtain rfl := hacc.eq_smallFile hnot
    refine ⟨fun task htask hpath ↦ ?_, u.tasks.length, hacc.leads_new, rfl⟩
    obtain hin | ⟨-, rfl⟩ := hacc.mem_que.mp htask
    · have htlt := h.member .smallFile task hin
      rw [hacc.remotePath_of_lt htlt] at hpath
      rw [hacc.localPath_of_lt htlt, hacc.localPath_new]
      exact hw.small rfl hnot' task hin hpath
    · rfl
  · exact (h.small path last hl hnot').accepts h hacc hw hl hne

theorem Fresh.accepts (h : u.Fresh) (hacc : u.Accepts t name u') (hw : u.Welcome t name) :
    u'.Fresh where
  member name' task htask := by
    rw [hacc.length]
    obtain hold | ⟨-, rfl⟩ := hacc.mem_que.mp htask
    · exact Nat.lt_succ_of_lt (h.member name' task hold)
    · exact Nat.lt_succ_self _
  leader name' path task hlead := by
    rw [hacc.length]
    rw [hacc.leads_iff] at hlead
    split_ifs at hlead
    · exact hlead ▸ Nat.lt_succ_self _
    · exact Nat.lt_succ_of_lt (h.leader name' path task hlead)
  uncanceled task := by
    rw [hacc.status]
    split_ifs
    · nofun
    · exact h.uncanceled task
  key _ _ _ _ hkey h₁ h₂ := h.accepts_key hacc hw hkey h₁ h₂
  que _ _ hlast _ htask hpath := h.accepts_que hacc hw hlast htask hpath
  map _ _ _ hlast hlead := h.accepts_map hacc hw hlast hlead
  mapped _ htask _ hpath := h.accepts_mapped hacc htask hpath
  small _ _ hlast hnot := h.accepts_small hacc hw hlast hnot

theorem Serves.pushed {task' : Nat} (h : u.Serves path source)
    (hpush : u.Pushed .bigFile task' path' u') : u'.Serves path source := by
  have hsmall : u'.queue .smallFile = u.queue .smallFile := by
    rw [hpush.queue, if_neg nofun]
  obtain ⟨task, hleads, hsource⟩ := h.map
  refine ⟨fun task htask hpath ↦ ?_, task, ?_, (hpush.localPath task).trans hsource⟩
  · rw [hsmall] at htask
    rw [hpush.remotePath] at hpath
    rw [hpush.localPath]
    exact h.que task htask hpath
  · rw [Leads, hsmall]
    exact hleads

/-- A task that an `fsync` moves has the file of the last upload of its path. -/
theorem Fresh.pushed (h : u.Fresh) (hpush : u.Pushed .bigFile task path u')
    (hcurrent : ∀ last, u.Last path last → u.localPath task = u.localPath last) : u'.Fresh := by
  have hlast : ∀ {path task}, u'.Last path task ↔ u.Last path task := last_congr hpush.remotePath
  have hlt := lt_of_remotePath hpush.found
  obtain ⟨own, hown⟩ := exists_last hpush.found
  refine ⟨fun name task' htask ↦ ?_, fun name path' task' hled ↦ ?_, fun task' ↦ ?_,
    fun path₁ path₂ last₁ last₂ hkey h₁ h₂ ↦ ?_, fun path' last h₁ task' htask hpath ↦ ?_,
    fun path' last task' h₁ hled ↦ ?_, fun task' htask path' hpath ↦ ?_, fun path' last h₁ hnot ↦ ?_⟩
  · rw [hpush.length]
    obtain hin | ⟨-, rfl⟩ := hpush.mem_que.mp htask
    · exact h.member name task' hin
    · exact hlt
  · rw [hpush.length]
    rw [hpush.leads_iff] at hled
    split_ifs at hled
    · exact hled ▸ hlt
    · exact h.leader name path' task' hled
  · rw [hpush.status]
    split_ifs
    · nofun
    · exact h.uncanceled task'
  · rw [hpush.localPath, hpush.localPath]
    exact h.key path₁ path₂ last₁ last₂ hkey (hlast.mp h₁) (hlast.mp h₂)
  · rw [hpush.remotePath] at hpath
    rw [hpush.localPath, hpush.localPath]
    obtain hin | ⟨-, rfl⟩ := hpush.mem_que.mp htask
    · exact h.que path' last (hlast.mp h₁) task' hin hpath
    · obtain rfl : path' = path := Option.some.inj (hpath.symm.trans hpush.found)
      exact hcurrent last (hlast.mp h₁)
  · rw [hpush.localPath, hpush.localPath]
    rw [hpush.leads_iff] at hled
    split_ifs at hled with hkey
    · rw [hled, hcurrent own hown]
      exact h.key path path' own last hkey.2.symm hown (hlast.mp h₁)
    · exact h.map path' last task' (hlast.mp h₁) hled
  · rw [hpush.remotePath] at hpath
    by_cases hkey : SameKey path' path
    · exact ⟨task, hpush.leads_iff.mpr (by rw [if_pos ⟨rfl, hkey⟩])⟩
    · obtain hin | ⟨-, rfl⟩ := hpush.mem_que.mp htask
      · obtain ⟨lead, hlead⟩ := h.mapped task' hin path' hpath
        exact ⟨lead, hpush.leads_iff.mpr (by rw [if_neg fun hand ↦ hkey hand.2]; exact hlead)⟩
      · obtain rfl : path' = path := Option.some.inj (hpath.symm.trans hpush.found)
        exact absurd ⟨rfl, rfl⟩ hkey
  · have hkey : ¬ SameKey path' path := fun hkey ↦
      hnot task (hpush.leads_iff.mpr (by rw [if_pos ⟨rfl, hkey⟩]))
    have hnot' : ∀ lead, ¬ u.Leads .bigFile path' lead := fun lead hlead ↦
      hnot lead (hpush.leads_iff.mpr (by rw [if_neg fun hand ↦ hkey hand.2]; exact hlead))
    rw [hpush.localPath]
    exact (h.small path' last (hlast.mp h₁) hnot').pushed hpush

/-- The status that a task gets is never `CANCELED`. -/
theorem uncanceled_changeStatus {status : UploadStatus} (h : u.status task ≠ some .canceled)
    (hstatus : status ≠ .canceled) :
    (u.changeStatus name path status).status task ≠ some .canceled := by
  by_cases hleads : u.Leads name path task
  · rw [status_changeStatus_of_leads hleads]
    cases u.status task with
    | none => nofun
    | some old => exact fun he ↦ hstatus (Option.some.inj he)
  · rwa [status_changeStatus_of_not hleads]

end Uploads

namespace DaemonUpload

variable {ν : Type} {flags : Flags} {remote : Remote ν} {m m' m₁ m₂ m₃ m₄ : DaemonUpload ν}
  {namenode : ν} {src : Str} {last : Nat} {a : Act}

/-- The steps that leave a download with the last upload: nobody removes anything, an upload is
accepted when nothing older is in its way, and an `fsync` moves no outdated task. -/
def KeepsLast (m : DaemonUpload ν) : Act → Prop
  | .accept t => ∀ name, t.belongQue = some name → m.uploads.Welcome t name
  | .push task => ∀ path last, m.uploads.remotePath task = some path → m.uploads.Last path last →
    m.uploads.localPath task = m.uploads.localPath last
  | .rm _ => False
  | _ => True

structure Current (m : DaemonUpload ν) : Prop where
  steady : m.Steady
  fresh : m.uploads.Fresh
  removals : m.removals = []

theorem uncanceled_step (hm : m.Current) (ha : KeepsLast m a) (hs : Step flags remote m a m')
    (haccept : ∀ t, a ≠ .accept t) (hpush : ∀ task, a ≠ .push task) :
    (∀ task, m'.uploads.status task ≠ some .canceled) ∧ m'.removals = [] := by
  have hstatus := hm.fresh.uncanceled
  have hnone : ∀ {before after : List Removal} {r : Removal}, m.removals ≠ before ++ r :: after := by
    intro before after r hr
    rw [hm.removals] at hr
    exact List.append_ne_nil_of_right_ne_nil before (List.cons_ne_nil r after) hr.symm
  cases hs with
  | enter | refuse | stop | turn | finish | throw | receive | receiveRm | remote | fsync =>
    exact ⟨hstatus, hm.removals⟩
  | accept => exact absurd rfl (haccept _)
  | push => exact absurd rfl (hpush _)
  | rm => exact ha.elim
  | look hr => exact absurd hr hnone
  | cancel hr => exact absurd hr hnone
  | asked hr => exact absurd hr hnone
  | failed hr => exact absurd hr hnone
  | lose =>
    refine ⟨fun task ↦ ?_, hm.removals⟩
    rw [m.uploads.status_setBelongQue]
    exact hstatus task
  | take htake =>
    refine ⟨fun task ↦ ?_, hm.removals⟩
    rw [Uploads.status, (take_takes htake).tasks, ← Uploads.status]
    exact hstatus task
  | advance hthread hstep =>
    refine ⟨fun task ↦ ?_, hm.removals⟩
    obtain heq | ⟨_, path, status, -, -, -, hnot, heq⟩ := (hm.steady _ _ _ hthread).step hstep
    · exact heq ▸ hstatus task
    · exact heq ▸ Uploads.uncanceled_changeStatus (hstatus task) hnot

theorem Current.step (hm : m.Current) (ha : KeepsLast m a) (hs : Step flags remote m a m') :
    m'.Current := by
  have hsteady := hm.steady.step hs
  cases next_step hm.steady hs with
  | accepts he hname hacc =>
    subst he
    cases hs with
    | accept => exact ⟨hsteady, hm.fresh.accepts hacc (ha _ hname), hm.removals⟩
  | pushes he hpushed =>
    subst he
    cases hs with
    | push =>
      exact ⟨hsteady, hm.fresh.pushed hpushed fun last ↦ ha _ last hpushed.found, hm.removals⟩
  | shrinks haccept hpush hshrinks =>
    obtain ⟨hstatus, hremovals⟩ := uncanceled_step hm ha hs haccept hpush
    exact ⟨hsteady, hm.fresh.shrinks hshrinks hstatus, hremovals⟩

theorem current_start (namenode : ν) : (start namenode).Current :=
  ⟨steady_start namenode, Uploads.fresh_empty, rfl⟩

theorem Current.run (hm : m.Current) (h : Run flags remote KeepsLast m m') : m'.Current :=
  h.invariant hm fun _ _ _ ht ha hs ↦ ht.step ha hs.2

/-- While a download is under way, nothing is accepted for its path. -/
def KeepsApart (src : Str) (m : DaemonUpload ν) (a : Act) : Prop :=
  KeepsLast m a ∧ ∀ t, a = .accept t → t.remotePath ≠ src

theorem last_step (hm : m.Current) (ha : KeepsApart src m a) (hs : Step flags remote m a m') :
    m'.uploads.Last src last ↔ m.uploads.Last src last := by
  cases next_step hm.steady hs with
  | accepts he _ hacc => exact hacc.last_iff.trans (by rw [if_neg (Ne.symm (ha.2 _ he))])
  | pushes _ hpushed => exact Uploads.last_congr hpushed.remotePath
  | shrinks _ _ hshrinks => exact Uploads.last_congr hshrinks.remotePath

theorem serves_step (hm : m.Current) (ha : KeepsApart src m a) (hs : Step flags remote m a m')
    (hlast : m.uploads.Last src last)
    (h : m.uploads.Serves src (m.uploads.localPath last)) :
    m'.uploads.Serves src (m'.uploads.localPath last) := by
  cases next_step hm.steady hs with
  | accepts he hname hacc =>
    have hwelcome : KeepsLast m a := ha.1
    rw [he] at hwelcome
    exact h.accepts hm.fresh hacc (hwelcome _ hname) hlast (Ne.symm (ha.2 _ he))
  | pushes _ hpushed =>
    rw [hpushed.localPath]
    exact h.pushed hpushed
  | shrinks _ _ hshrinks =>
    rw [hshrinks.localPath]
    exact h.shrinks hshrinks

/-- What a stretch of a download meets. -/
structure Apart (m : DaemonUpload ν) (src : Str) (last : Nat) (m' : DaemonUpload ν) : Prop where
  current : m'.Current
  last_iff : m'.uploads.Last src last ↔ m.uploads.Last src last
  localPath : m.uploads.Last src last → m'.uploads.localPath last = m.uploads.localPath last
  serves : m.uploads.Last src last → m.uploads.Serves src (m.uploads.localPath last) →
    m'.uploads.Serves src (m'.uploads.localPath last)

theorem Uploads.Last.localPath {u : Uploads} (h : u.Last src last) :
    ∃ path, u.localPath last = some path := by
  obtain ⟨t, ht, -⟩ := Option.map_eq_some_iff.mp h.1
  exact ⟨t.localPath, by rw [Uploads.localPath, ht, Option.map_some]⟩

theorem apart_run (hm : m.Current) (last : Nat) (h : Run flags remote (KeepsApart src) m m') :
    m.Apart src last m' := by
  refine h.invariant ⟨hm, Iff.rfl, fun _ ↦ rfl, fun _ h ↦ h⟩ fun t a u ht ha hs ↦ ?_
  refine ⟨ht.current.step ha.1 hs.2, (last_step ht.current ha hs.2).trans ht.last_iff,
    fun hlast ↦ ?_, fun hlast hserves ↦ ?_⟩
  · obtain ⟨path, hpath⟩ := Uploads.Last.localPath (ht.last_iff.mpr hlast)
    rw [(Grows.step ht.current.steady hs.2).localPath last path hpath, ← hpath]
    exact ht.localPath hlast
  · exact serves_step ht.current ha hs.2 (ht.last_iff.mpr hlast) (ht.serves hlast hserves)

/-- It reads from the file of the last upload of the path, or from the remote file that this upload
has committed. -/
def ReadsLast (m : DaemonUpload ν) (src : Str) (source : Source) : Prop :=
  ∀ last, m.uploads.Last src last → source = .localFile (m.uploads.localPath last) ∨
    source = .remoteFile src ∧
      m.committed.find? (m.uploads.remotePath · = some src) = some last

theorem lsMap_of_leads {u : Uploads} (hu : u.Fresh) {name : QueueName} {task : Nat}
    (h : u.Leads name src task) : u.lsMap name src = some task := by
  rw [Uploads.lsMap, show (u.queue name).findInMap src = some task from h, Option.filter_some,
    if_pos (decide_eq_true (hu.uncanceled task))]

theorem leads_of_lsMap {u : Uploads} {name : QueueName} {task : Nat}
    (h : u.lsMap name src = some task) : u.Leads name src task :=
  (Option.filter_eq_some_iff.mp h).1

theorem of_lsQue {u : Uploads} {name : QueueName} {task : Nat} (h : u.lsQue name src = some task) :
    task ∈ (u.queue name).que ∧ u.remotePath task = some src :=
  ⟨List.mem_of_find?_eq_some h, by simpa using List.find?_some h⟩

/-- A download reads the last upload, wherever the daemon goes on between its looks. -/
theorem download_reads_last (h₁ : Run flags remote KeepsLast (start namenode) m₁)
    (h₂ : Run flags remote (KeepsApart src) m₁ m₂) (h₃ : Run flags remote (KeepsApart src) m₂ m₃)
    (h₄ : Run flags remote (KeepsApart src) m₃ m₄) :
    ReadsLast m₄ src (download m₁.uploads m₂.uploads m₃.uploads m₄.uploads src) := by
  intro last hlast
  refine .inl ?_
  have hm₁ := (current_start namenode).run h₁
  have hm₂ := apart_run hm₁ last h₂
  have hm₃ := apart_run hm₂.current last h₃
  have hm₄ := apart_run hm₃.current last h₄
  have hlast₃ := hm₄.last_iff.mp hlast
  have hlast₂ := hm₃.last_iff.mp hlast₃
  have hlast₁ := hm₂.last_iff.mp hlast₂
  rw [download, hm₄.localPath hlast₃, hm₃.localPath hlast₂, hm₂.localPath hlast₁]
  cases hbigQue : m₁.uploads.lsQue .bigFile src with
  | some task =>
    obtain ⟨hmem, hpath⟩ := of_lsQue hbigQue
    exact congrArg Source.localFile (hm₁.fresh.que src last hlast₁ task hmem hpath)
  | none =>
    have hsame₂ := hm₂.localPath hlast₁
    cases hbigMap : m₂.uploads.lsMap .bigFile src with
    | some task =>
      have hlocal := hm₂.current.fresh.map src last task hlast₂ (leads_of_lsMap hbigMap)
      exact congrArg Source.localFile (hlocal.trans hsame₂)
    | none =>
      -- what the small file queue would serve is settled from here on
      have hserves₂ := hm₂.current.fresh.small src last hlast₂ fun lead hlead ↦ by
        rw [lsMap_of_leads hm₂.current.fresh hlead] at hbigMap
        cases hbigMap
      have hserves₃ := hm₃.serves hlast₂ hserves₂
      have hsame₃ := (hm₃.localPath hlast₂).trans hsame₂
      cases hsmallQue : m₃.uploads.lsQue .smallFile src with
      | some task =>
        obtain ⟨hmem, hpath⟩ := of_lsQue hsmallQue
        exact congrArg Source.localFile ((hserves₃.que task hmem hpath).trans hsame₃)
      | none =>
        have hserves₄ := hm₄.serves hlast₃ hserves₃
        obtain ⟨task, hleads, hlocal⟩ := hserves₄.map
        rw [lsMap_of_leads hm₄.current.fresh hleads]
        exact congrArg Source.localFile (hlocal.trans ((hm₄.localPath hlast₃).trans hsame₃))

/-- An undisturbed upload. -/
theorem upload_run {guard : DaemonUpload ν → Act → Prop} (localPath remotePath storageType : Str)
    (size : Nat) (name : QueueName) {u : Uploads} (hlive : m.terminated = false)
    (hstop : m.stop = false)
    (hname : (newTask flags localPath remotePath storageType size).belongQue = some name)
    (hlock : ¬ (m.thread (.consumer name)).Locked)
    (hpush : Uploads.pushBack
      { m.uploads with
        tasks := m.uploads.tasks ++ [newTask flags localPath remotePath storageType size] } name
      m.uploads.tasks.length = .ok u)
    (henter : guard m .other)
    (haccept : ∀ admitted, guard { m with admitted }
      (.accept (newTask flags localPath remotePath storageType size))) :
    Run flags remote guard m { m with uploads := u } := by
  let t := newTask flags localPath remotePath storageType size
  have hfirst : Run flags remote guard m { m with admitted := t :: m.admitted } :=
    .one henter ⟨hlive, .enter localPath remotePath storageType size hstop⟩
  have hsplit : t :: m.admitted = [] ++ t :: m.admitted := rfl
  have hsecond : Step flags remote { m with admitted := t :: m.admitted } (.accept t)
      { m with uploads := u } := .accept (m := { m with admitted := t :: m.admitted }) hsplit hname
    hlock hpush
  exact hfirst.tail (haccept _) ⟨hlive, hsecond⟩

/-- A namenode that is out of reach. -/
def unreachable : Remote Unit :=
  ⟨fun _ _ _ ↦ False, fun _ _ ↦ False, fun _ _ a ↦ ∃ fault, a = .error fault⟩

def smallFlags : Flags := ⟨1, 100, []⟩

/-- One small file is uploaded. -/
def oneSmall : DaemonUpload Unit :=
  { namenode := ()
    uploads := ((Uploads.pushBack { tasks := [newTask smallFlags ['x'] ['/', 'a'] [] 1] } .smallFile
      0).toOption.getD {}) }

theorem oneSmall_run : Run smallFlags unreachable KeepsLast (start ()) oneSmall := by
  refine upload_run ['x'] ['/', 'a'] [] 1 .smallFile rfl rfl rfl id rfl trivial fun admitted name hname ↦ ?_
  cases hname
  refine ⟨nofun, nofun, fun _ lead hlead ↦ ?_, fun _ _ task htask ↦ ?_⟩
  · cases hlead
  · cases htask

/-- The timer has taken it. -/
def takenSmall : DaemonUpload Unit :=
  { oneSmall with
    uploads := (batch smallFlags oneSmall.uploads).2.2
    thread := update oneSmall.thread .timer
      (.uploading [0] (batch smallFlags oneSmall.uploads).2.1) }

/-- Another file is uploaded to the same path. -/
def againSmall : DaemonUpload Unit :=
  { takenSmall with
    uploads := ((Uploads.pushBack { takenSmall.uploads with
      tasks := takenSmall.uploads.tasks ++ [newTask smallFlags ['y'] ['/', 'a'] [] 1] } .smallFile
      1).toOption.getD {}) }

/-- And a file is uploaded to another path. -/
def besideSmall : DaemonUpload Unit :=
  { againSmall with
    uploads := ((Uploads.pushBack { againSmall.uploads with
      tasks := againSmall.uploads.tasks ++ [newTask smallFlags ['z'] ['/', 'b'] [] 1] } .smallFile
      2).toOption.getD {}) }

/-- The first upload of the path is under way, and another path is written during the download. -/
theorem download_reads_last_again :
    Run smallFlags unreachable KeepsLast (start ()) againSmall ∧
    Run smallFlags unreachable (KeepsApart ['/', 'a']) againSmall besideSmall ∧
    againSmall.uploads.Last ['/', 'a'] 1 ∧
    ReadsLast besideSmall ['/', 'a']
      (download againSmall.uploads againSmall.uploads besideSmall.uploads besideSmall.uploads
        ['/', 'a']) := by
  have htaken : Run smallFlags unreachable KeepsLast (start ()) takenSmall :=
    oneSmall_run.tail (a := .other) trivial ⟨rfl, .take (w := .timer) rfl⟩
  have hagain : Run smallFlags unreachable KeepsLast takenSmall againSmall := by
    refine upload_run ['y'] ['/', 'a'] [] 1 .smallFile rfl rfl rfl id rfl trivial fun admitted name hname ↦ ?_
    cases hname
    refine ⟨fun task path hpath _ hne ↦ ?_, nofun, fun _ lead hlead ↦ ?_, fun _ _ task htask ↦ ?_⟩
    · have hlt : task < 1 := lt_of_remotePath hpath
      obtain rfl : task = 0 := by omega
      exact absurd (Option.some.inj hpath).symm hne
    · cases hlead
    · cases htask
  have hbeside : Run smallFlags unreachable (KeepsApart ['/', 'a']) againSmall besideSmall := by
    refine upload_run ['z'] ['/', 'b'] [] 1 .smallFile rfl rfl rfl id rfl ⟨trivial, nofun⟩
      fun admitted ↦ ⟨fun name hname ↦ ?_, fun t ht ↦ ?_⟩
    · cases hname
      have hpaths : ∀ task < 2, againSmall.uploads.remotePath task = some ['/', 'a'] := by decide
      refine ⟨fun task path hpath hkey _ ↦ ?_, nofun, fun _ lead hlead ↦ ?_,
        fun _ _ task htask hpath ↦ ?_⟩
      · obtain rfl := Option.some.inj (hpath.symm.trans (hpaths task (lt_of_remotePath hpath)))
        exact absurd hkey (by decide)
      · cases hlead
      · have hsame := hpath.symm.trans (hpaths task (lt_of_remotePath hpath))
        exact absurd (Option.some.inj hsame) (by decide)
    · cases ht
      decide
  have hlast : againSmall.uploads.Last ['/', 'a'] 1 := by
    refine ⟨rfl, fun other hlt hother ↦ ?_⟩
    have hin : other < 2 := lt_of_remotePath hother
    omega
  exact ⟨htaken.trans hagain, hbeside, hlast,
    download_reads_last (htaken.trans hagain) .refl hbeside .refl⟩

def firstBig : DaemonUpload Unit :=
  { namenode := ()
    uploads := ((Uploads.pushBack { tasks := [newTask smallFlags ['x'] ['/', 'a'] [] 2] } .bigFile
      0).toOption.getD {}) }

def secondBig : DaemonUpload Unit :=
  { namenode := ()
    uploads := ((Uploads.pushBack { firstBig.uploads with
      tasks := firstBig.uploads.tasks ++ [newTask smallFlags ['y'] ['/', 'a'] [] 2] } .bigFile
      1).toOption.getD {}) }

/-- Two big files are uploaded to one path. A download reads the first one. -/
theorem not_download_reads_last :
    Run smallFlags unreachable (fun _ a ↦ ∀ path, a ≠ .rm path) (start ()) secondBig ∧
    ¬ ReadsLast secondBig ['/', 'a']
      (download secondBig.uploads secondBig.uploads secondBig.uploads secondBig.uploads
        ['/', 'a']) := by
  constructor
  · have hfirst : Run smallFlags unreachable (fun _ a ↦ ∀ path, a ≠ .rm path) (start ()) firstBig :=
      upload_run ['x'] ['/', 'a'] [] 2 .bigFile rfl rfl rfl id rfl nofun nofun
    exact hfirst.trans
      (upload_run ['y'] ['/', 'a'] [] 2 .bigFile rfl rfl rfl id rfl nofun nofun)
  · intro h
    have hlast : secondBig.uploads.Last ['/', 'a'] 1 := by
      refine ⟨rfl, fun other hlt hother ↦ ?_⟩
      have hin : other < 2 := lt_of_remotePath hother
      omega
    obtain hlocal | ⟨hremote, -⟩ := h 1 hlast
    · exact absurd hlocal (by decide)
    · exact absurd hremote (by decide)

end DaemonUpload

end Spkdfs
