import Spkdfs.Client.ReadYourWrites
import Spkdfs.Client.Settling

namespace Spkdfs

open Library Program Function DaemonUpload

/-- `find_dir_in_map`: the tasks of a directory, in whatever order the map has their names. -/
def UploadQueue.FindDirInMap (q : UploadQueue) (path : Str) (entry : List Nat) : Prop :=
  ∃ names : List Str, names.Nodup ∧ (∀ name, name ∈ names ↔ q.map path name ≠ none) ∧
    entry.map some = names.map (q.map path)

/-- `DaemonUpload::ls`, from the answer to `sdk.ls` and the tasks that `find_dir_in_map` has found
among those of the small files. -/
def Uploads.ls (u : Uploads) (inode : Inode) (entry : List Nat) : Inode :=
  let pending := entry.filter fun task ↦
    u.status task ≠ some .finished ∧ u.status task ≠ some .canceled
  { inode with sub := inode.sub ++ (pending.filterMap u.remotePath).map filename }

namespace Uploads

variable {u u' : Uploads} {name : QueueName} {path own : Str} {task : Nat} {t : UploadTask}

theorem status_rm_canceled_or (u : Uploads) (name : QueueName) (path : Str) (task : Nat) :
    (u.rm name path).status task = u.status task ∨
      (u.rm name path).status task = some .canceled := by
  rw [Uploads.rm]
  cases (u.queue name).findInMap path with
  | none => exact .inl rfl
  | some other =>
    simp only
    split_ifs with hearly
    · rw [u.status_setStatus]
      split_ifs with hsame
      · subst hsame
        rcases hearly with he | he <;> exact .inr (by rw [he]; rfl)
      · exact .inl rfl
    · exact .inl rfl

/-- The map of the small files has every task that is in their queue still or was taken from it for
an aggregate, or a later one in its place. Such a task never gets beyond `WAITING`. -/
structure Listable (u : Uploads) : Prop where
  filed : ∀ path name task, u.smallFileQue.map path name = some task →
    ∃ own, u.remotePath task = some own ∧ getParentPath own = path ∧ filename own = name
  newest : ∀ task own, u.remotePath task = some own → u.belongQue task = some .smallFile →
    ∃ lead, u.Leads .smallFile own lead ∧ task ≤ lead
  apart : ∀ path task, u.Leads .bigFile path task → u.belongQue task = some .bigFile
  waiting : ∀ task, u.belongQue task = some .smallFile →
    u.status task = some .waiting ∨ u.status task = some .canceled

theorem listable_empty : Listable {} := by
  refine ⟨fun path name task h ↦ ?_, fun task own h ↦ ?_, fun path task h ↦ ?_, fun task h ↦ ?_⟩ <;>
    cases h

theorem Listable.shrinks (h : u.Listable) (hs : u.Shrinks u')
    (hbig : ∀ task, u.belongQue task = some .bigFile → u'.belongQue task = some .bigFile)
    (hsmall : ∀ task, u'.belongQue task = some .smallFile → u.belongQue task = some .smallFile ∧
      (u'.status task = u.status task ∨ u'.status task = some .canceled)) : u'.Listable := by
  refine ⟨fun path name task hmap ↦ ?_, fun task own hown hque ↦ ?_, fun path task hleads ↦ ?_,
    fun task hque ↦ ?_⟩
  · rw [hs.remotePath]
    exact h.filed path name task ((congrFun₂ (hs.map .smallFile) path name).symm.trans hmap)
  · rw [hs.remotePath] at hown
    obtain ⟨lead, hlead, hle⟩ := h.newest task own hown (hsmall task hque).1
    exact ⟨lead, (leads_of_map (hs.map .smallFile)).mpr hlead, hle⟩
  · exact hbig task (h.apart path task ((leads_of_map (hs.map .bigFile)).mp hleads))
  · obtain ⟨hwas, he | he⟩ := hsmall task hque
    · rw [he]
      exact h.waiting task hwas
    · exact .inr he

/-- A new entry of the map of the small files, under its own name. -/
theorem filed_pushed {q : UploadQueue} {task' : Nat}
    (h : ∀ path name task, q.map path name = some task →
      ∃ own, u.remotePath task = some own ∧ getParentPath own = path ∧ filename own = name)
    (hnew : u'.remotePath task' = some own)
    (hkept : ∀ task own, u.remotePath task = some own → u'.remotePath task = some own) :
    ∀ path name task, (q.pushed task' own).map path name = some task →
      ∃ own, u'.remotePath task = some own ∧ getParentPath own = path ∧ filename own = name := by
  intro path name task hmap
  simp only [UploadQueue.pushed] at hmap
  by_cases hpath : path = getParentPath own
  · subst hpath
    rw [update_self] at hmap
    by_cases hname : name = filename own
    · subst hname
      rw [update_self, Option.some.injEq] at hmap
      exact ⟨own, hmap ▸ hnew, rfl, rfl⟩
    · rw [update_of_ne hname] at hmap
      obtain ⟨own', hown', hkey⟩ := h _ _ _ hmap
      exact ⟨own', hkept _ _ hown', hkey⟩
  · rw [update_of_ne hpath] at hmap
    obtain ⟨own', hown', hkey⟩ := h _ _ _ hmap
    exact ⟨own', hkept _ _ hown', hkey⟩

theorem Listable.accepts (h : u.Listable) (hacc : u.Accepts t name u') : u'.Listable := by
  have hnew : u'.remotePath u.tasks.length = some t.remotePath := by
    rw [hacc.remotePath, if_pos rfl]
  have hkept : ∀ task own, u.remotePath task = some own → u'.remotePath task = some own :=
    (Grows.of_accepts hacc).remotePath
  have hold : ∀ {task}, task ≠ u.tasks.length → u'.belongQue task = u.belongQue task ∧
      u'.status task = u.status task := fun hne ↦
    ⟨by rw [hacc.belongQue, if_neg hne], by rw [hacc.status, if_neg hne]⟩
  refine ⟨?_, fun task own hown hque ↦ ?_, fun path task hleads ↦ ?_, fun task hque ↦ ?_⟩
  · have hqueue : u'.smallFileQue = if QueueName.smallFile = name
        then (u.queue name).pushed u.tasks.length t.remotePath else u.smallFileQue :=
      hacc.queue .smallFile
    rw [hqueue]
    split_ifs with hname
    · subst hname
      exact filed_pushed h.filed hnew hkept
    · intro path name task hmap
      obtain ⟨own, hown, hkey⟩ := h.filed path name task hmap
      exact ⟨own, hkept _ _ hown, hkey⟩
  · by_cases hlast : task = u.tasks.length
    · subst hlast
      obtain rfl := Option.some.inj (hnew.symm.trans hown)
      rw [hacc.belongQue, if_pos rfl, Option.some.injEq] at hque
      refine ⟨u.tasks.length, hacc.leads_iff.mpr ?_, le_rfl⟩
      rw [if_pos ⟨hque.symm, rfl, rfl⟩]
    · rw [(hold hlast).1] at hque
      rw [hacc.remotePath, if_neg hlast] at hown
      obtain ⟨lead, hlead, hle⟩ := h.newest task own hown hque
      by_cases hkey : QueueName.smallFile = name ∧ SameKey own t.remotePath
      · refine ⟨u.tasks.length, hacc.leads_iff.mpr ?_, (lt_of_remotePath hown).le⟩
        rw [if_pos hkey]
      · refine ⟨lead, hacc.leads_iff.mpr ?_, hle⟩
        rwa [if_neg hkey]
  · rw [hacc.leads_iff] at hleads
    split_ifs at hleads with hkey
    · rw [hacc.belongQue, if_pos hleads, hkey.1]
    · have hbig := h.apart path task hleads
      rw [(hold (lt_of_belongQue hbig).ne).1, hbig]
  · by_cases hlast : task = u.tasks.length
    · exact .inl (by rw [hacc.status, if_pos hlast])
    · rw [(hold hlast).1] at hque
      rw [(hold hlast).2]
      exact h.waiting task hque

theorem Listable.pushed (h : u.Listable) (hpush : u.Pushed .bigFile task path u') :
    u'.Listable := by
  have hsmall : u'.smallFileQue = u.smallFileQue := hpush.queue .smallFile
  have hother : ∀ {other}, u'.belongQue other = some .smallFile →
      other ≠ task ∧ u.belongQue other = some .smallFile := by
    intro other hque
    rw [hpush.belongQue] at hque
    split_ifs at hque with hsame
    · cases hque
    · exact ⟨hsame, hque⟩
  refine ⟨fun path name other hmap ↦ ?_, fun other own hown hque ↦ ?_, fun path' other hleads ↦ ?_,
    fun other hque ↦ ?_⟩
  · rw [hsmall] at hmap
    rw [hpush.remotePath]
    exact h.filed path name other hmap
  · rw [hpush.remotePath] at hown
    obtain ⟨lead, hlead, hle⟩ := h.newest other own hown (hother hque).2
    have hmap : (u'.queue .smallFile).map = (u.queue .smallFile).map :=
      congrArg UploadQueue.map hsmall
    exact ⟨lead, (leads_of_map hmap).mpr hlead, hle⟩
  · rw [hpush.leads_iff] at hleads
    by_cases hsame : other = task
    · rw [hpush.belongQue, if_pos hsame]
    · rw [hpush.belongQue, if_neg hsame]
      split_ifs at hleads
      · exact absurd hleads hsame
      · exact h.apart path' other hleads
  · obtain ⟨hne, hwas⟩ := hother hque
    rw [hpush.status, if_neg hne]
    exact h.waiting other hwas

/-- The names that `ls` adds, with those it leaves out. -/
theorem Listable.names_of_dir (h : u.Listable) {entry : List Nat} {names : List Str}
    (he : entry.map some = names.map (u.smallFileQue.map path)) :
    (entry.filterMap u.remotePath).map filename = names := by
  induction entry generalizing names with
  | nil =>
    cases names with
    | nil => rfl
    | cons name names => cases he
  | cons task entry ih =>
    cases names with
    | nil => cases he
    | cons name names =>
      obtain ⟨hmap, he⟩ := List.cons.inj he
      obtain ⟨own, hown, -, hname⟩ := h.filed path name task hmap.symm
      rw [List.filterMap_cons_some hown, List.map_cons, hname, ih he]

end Uploads

namespace DaemonUpload

variable {ν : Type} {flags : Flags} {remote : Remote ν} {m m' : DaemonUpload ν} {a : Act}
  {namenode : ν}

theorem listable_step (hm : m.Orderly) (h : m.uploads.Listable)
    (hs : Step flags remote m a m') : m'.uploads.Listable := by
  cases next_step hm.steady hs with
  | accepts _ _ hacc => exact h.accepts hacc
  | pushes _ hpushed => exact h.pushed hpushed
  | shrinks haccept hpush hshrinks =>
    refine h.shrinks hshrinks (fun task ↦ belongQue_step hm.steady hs) fun task hque ↦ ?_
    cases hs with
    | enter | refuse | stop | turn | finish | throw | rm | look | asked | failed | receive
    | receiveRm | remote | fsync => exact ⟨hque, .inl rfl⟩
    | accept => exact absurd rfl (haccept _)
    | push => exact absurd rfl (hpush _)
    | @lose _ _ moved =>
      refine ⟨?_, .inl (m.uploads.status_setBelongQue ..)⟩
      rw [Uploads.belongQue, Uploads.getElem?_setBelongQue] at hque
      rw [Uploads.belongQue]
      cases ht : m.uploads.tasks[task]? with
      | none =>
        rw [ht] at hque
        cases hque
      | some t =>
        rw [ht, Option.map_some, Option.bind_some] at hque
        split_ifs at hque
        · cases hque
        · exact hque
    | take htake =>
      have htasks := (take_takes htake).tasks
      rw [Uploads.belongQue, htasks] at hque
      exact ⟨hque, .inl (by rw [Uploads.status, htasks, Uploads.status])⟩
    | @advance w tasks x program' u seen hthread hstep =>
      obtain rfl | ⟨own, path, status, rfl, rfl, -, -, rfl⟩ := (hm.steady _ _ _ hthread).step hstep
      · exact ⟨hque, .inl rfl⟩
      · have hown := hm.owned.uploading _ _ hthread own (List.mem_singleton_self own)
        rw [hown, Option.getD_some] at hque ⊢
        rw [Uploads.belongQue_changeStatus] at hque
        refine ⟨hque, .inl (Uploads.status_changeStatus_of_not fun hleads ↦ ?_)⟩
        rw [h.apart path task hleads] at hque
        cases hque
    | @cancel _ _ path =>
      rw [Uploads.belongQue_rm] at hque
      exact ⟨hque, m.uploads.status_rm_canceled_or .smallFile path task⟩

theorem listable_run (h : Run flags remote (fun _ _ ↦ True) (start namenode) m) :
    m.uploads.Listable := by
  have hboth : m.Orderly ∧ m.uploads.Listable := by
    refine h.invariant (I := fun m ↦ m.Orderly ∧ m.uploads.Listable)
      ⟨orderly_start namenode, Uploads.listable_empty⟩ fun _ _ _ ht _ hs ↦ ?_
    exact ⟨ht.1.step hs.2, listable_step ht.1 ht.2 hs.2⟩
  exact hboth.2

/-- `ls` of the daemon adds every small file that was accepted for the directory to what the namenode
has there, each name once, whether or not it was uploaded in the meantime. Only a newer upload of the
name that was cancelled, or that an `fsync` moved and that is finished, hides it. -/
theorem ls_lists_small_uploads (h : Run flags remote (fun _ _ ↦ True) (start namenode) m)
    {path : Str} (inode : Inode) {entry : List Nat}
    (hentry : m.uploads.smallFileQue.FindDirInMap path entry) :
    ∃ names, (m.uploads.ls inode entry).sub = inode.sub ++ names ∧ names.Nodup ∧
      (∀ name ∈ names, ∃ task own, m.uploads.remotePath task = some own ∧
        getParentPath own = path ∧ filename own = name ∧
        m.uploads.status task ≠ some .finished ∧ m.uploads.status task ≠ some .canceled) ∧
      ∀ task own, m.uploads.remotePath task = some own → getParentPath own = path →
        m.uploads.belongQue task = some .smallFile →
        filename own ∈ names ∨ ∃ newest, task ≤ newest ∧ m.uploads.Leads .smallFile own newest ∧
          (m.uploads.status newest = some .canceled ∨
            m.uploads.belongQue newest ≠ some .smallFile ∧
              m.uploads.status newest = some .finished) := by
  have hlist := listable_run h
  obtain ⟨dirs, hnodup, hmem, he⟩ := hentry
  have hfound : ∀ {task}, task ∈ entry →
      ∃ name ∈ dirs, m.uploads.smallFileQue.map path name = some task := by
    intro task htask
    have hsome : some task ∈ dirs.map (m.uploads.smallFileQue.map path) :=
      he ▸ List.mem_map_of_mem htask
    exact List.mem_map.mp hsome
  refine ⟨_, rfl, ?_, fun name hname ↦ ?_, fun task own hown hpath hque ↦ ?_⟩
  · have hsub := (List.filter_sublist (l := entry) (p := fun task ↦
      decide (m.uploads.status task ≠ some .finished ∧ m.uploads.status task ≠ some .canceled)))
    exact hnodup.sublist (hlist.names_of_dir he ▸ (hsub.filterMap _).map _)
  · obtain ⟨own, hown, rfl⟩ := List.mem_map.mp hname
    obtain ⟨task, htask, hown⟩ := List.mem_filterMap.mp hown
    obtain ⟨htask, hstatus⟩ := List.mem_filter.mp htask
    obtain ⟨name, -, hmap⟩ := hfound htask
    obtain ⟨own', hown', hparent, -⟩ := hlist.filed path name task hmap
    obtain rfl := Option.some.inj (hown.symm.trans hown')
    exact ⟨task, own, hown, hparent, rfl, of_decide_eq_true hstatus⟩
  · obtain ⟨newest, hleads, hle⟩ := hlist.newest task own hown hque
    have hmap : m.uploads.smallFileQue.map path (filename own) = some newest := hpath ▸ hleads
    obtain ⟨own', hown', -, hname⟩ := hlist.filed _ _ _ hmap
    have hin : newest ∈ entry := by
      have hdir : filename own ∈ dirs := (hmem _).mpr (by rw [hmap]; exact Option.some_ne_none _)
      have hsome : some newest ∈ entry.map some := he ▸ hmap ▸ List.mem_map_of_mem hdir
      obtain ⟨other, hother, heq⟩ := List.mem_map.mp hsome
      exact Option.some.inj heq ▸ hother
    by_cases hcanceled : m.uploads.status newest = some .canceled
    · exact .inr ⟨newest, hle, hleads, .inl hcanceled⟩
    by_cases hfinished : m.uploads.status newest = some .finished
    · refine .inr ⟨newest, hle, hleads, .inr ⟨fun hsmall ↦ ?_, hfinished⟩⟩
      rcases hlist.waiting newest hsmall with he | he <;> rw [hfinished] at he <;> cases he
    · refine .inl (List.mem_map.mpr ⟨own', List.mem_filterMap.mpr ⟨newest, ?_, hown'⟩, hname⟩)
      exact List.mem_filter.mpr ⟨hin, decide_eq_true ⟨hfinished, hcanceled⟩⟩

/-- The queue has one small file, which no directory of the namenode has yet. -/
theorem ls_lists_small_uploads_one : ∃ names : List Str,
    (oneSmall.uploads.ls { fullpath := .ofStr root } [0]).sub = [] ++ names ∧ names.Nodup ∧
      ['a'] ∈ names := by
  have hrun : Run smallFlags unreachable (fun _ _ ↦ True) (start ()) oneSmall :=
    upload_run ['x'] ['/', 'a'] [] 1 .smallFile rfl rfl rfl id rfl trivial fun _ ↦ trivial
  have hentry : oneSmall.uploads.smallFileQue.FindDirInMap root [0] := by
    refine ⟨[['a']], List.nodup_singleton _, fun name ↦ ?_, rfl⟩
    by_cases hname : name = ['a']
    · subst hname
      exact iff_of_true (List.mem_singleton_self _) (Option.some_ne_none 0)
    · refine iff_of_false (fun hin ↦ hname (List.mem_singleton.mp hin)) (not_not_intro ?_)
      exact update_of_ne hname ..
  obtain ⟨names, hsub, hnodup, -, hlisted⟩ :=
    ls_lists_small_uploads hrun { fullpath := .ofStr root } hentry
  refine ⟨names, hsub, hnodup, (hlisted 0 ['/', 'a'] rfl rfl rfl).resolve_right ?_⟩
  rintro ⟨newest, -, hleads, hstatus⟩
  obtain rfl : 0 = newest := Option.some.inj hleads
  rcases hstatus with he | ⟨-, he⟩ <;> cases he

end DaemonUpload

end Spkdfs
