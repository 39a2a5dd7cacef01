import Mathlib.Logic.Function.Basic
import Mathlib.Data.List.Basic

namespace Spkdfs.Library

open Function

/-- What stands at a key of a file tree. A file is under a lease, and it has data from its first
commit on. -/
inductive Item (σ δ : Type)
  | dir
  | file (lease : Nat) (storage : σ) (data : Option δ)

/-- The requests to a file tree. A list of files is put or committed as one request. -/
inductive FileOp (κ σ δ : Type)
  | mkdir (k : κ)
  | remove (k : κ)
  | put (now lease : Nat) (files : List (κ × σ))
  | commit (files : List (κ × δ))
  | renew (lease : Nat) (k : κ)

variable {κ σ δ : Type}

/-- The same request at another time, where leases last for `hold`. -/
def FileOp.retimed (hold now : Nat) : FileOp κ σ δ → FileOp κ σ δ
  | .put _ _ files => .put now (now + hold) files
  | .renew _ k => .renew (now + hold) k
  | op => op

namespace Item

def lease : Item σ δ → Nat
  | dir => 0
  | file lease _ _ => lease

def data : Item σ δ → Option δ
  | dir => none
  | file _ _ data => data

/-- Directories are shown where they stand, and files from their first commit on. -/
def shown : Item σ δ → Bool
  | dir => true
  | file _ _ data => data.isSome

def renewed (lease : Nat) : Item σ δ → Item σ δ
  | dir => dir
  | file _ storage data => file lease storage data

def committed (data : δ) : Item σ δ → Item σ δ
  | dir => dir
  | file _ storage _ => file 0 storage (some data)

def unleased : Item σ δ → Item σ δ := renewed 0

theorem unleased_renewed (lease : Nat) (x : Item σ δ) : (x.renewed lease).unleased = x.unleased := by
  cases x <;> rfl

def IsFile (x : Option (Item σ δ)) : Prop := ∃ lease storage data, x = some (file lease storage data)

theorem IsFile.ne_dir {x : Option (Item σ δ)} (h : IsFile x) : x ≠ some dir := by
  obtain ⟨lease, storage, data, rfl⟩ := h
  exact fun he ↦ nomatch he

theorem isFile_of_ne {x : Option (Item σ δ)} (hn : x ≠ none) (hd : x ≠ some dir) : IsFile x := by
  match x with
  | none => exact absurd rfl hn
  | some dir => exact absurd rfl hd
  | some (file lease storage data) => exact ⟨lease, storage, data, rfl⟩

end Item

/-- The last value that a list of pairs has for a key. -/
def lastFor [DecidableEq κ] {α : Type} (pairs : List (κ × α)) (k : κ) : Option α :=
  ((pairs.filter (·.1 = k)).getLast?).map (·.2)

theorem lastFor_isSome [DecidableEq κ] {α : Type} {pairs : List (κ × α)} {p : κ × α}
    (h : p ∈ pairs) : ∃ a, lastFor pairs p.1 = some a := by
  have hne : pairs.filter (·.1 = p.1) ≠ [] :=
    List.ne_nil_of_mem (List.mem_filter.mpr ⟨h, decide_eq_true rfl⟩)
  exact ⟨_, by rw [lastFor, List.getLast?_eq_some_getLast hne, Option.map_some]⟩

theorem mem_of_lastFor [DecidableEq κ] {α : Type} {pairs : List (κ × α)} {k : κ} {a : α}
    (h : lastFor pairs k = some a) : (k, a) ∈ pairs := by
  obtain ⟨⟨j, b⟩, hb, rfl⟩ := Option.map_eq_some_iff.mp h
  obtain ⟨hmem, hk⟩ := List.mem_filter.mp (List.mem_of_getLast? hb)
  obtain rfl : j = k := of_decide_eq_true hk
  exact hmem

/-- A file tree over keys each of which has a parent: the top is a directory, and whatever stands
anywhere else stands in a directory. -/
@[ext] structure FileTree (parent : κ → κ) (top : κ) (σ δ : Type) where
  item : κ → Option (Item σ δ)
  top_dir : item top = some .dir
  closed : ∀ k, k ≠ top → item k ≠ none → item (parent k) = some .dir

namespace FileTree

variable {parent : κ → κ} {top : κ} {t : FileTree parent top σ δ}

/-- Where files take the place of files, and of nothing in a directory, the tree stays one. -/
theorem closed_of_files {item : κ → Option (Item σ δ)}
    (h : ∀ k, item k = t.item k ∨ t.item k ≠ some .dir ∧ t.item (parent k) = some .dir) :
    item top = some .dir ∧ ∀ k, k ≠ top → item k ≠ none → item (parent k) = some .dir := by
  have hdir : ∀ k, t.item k = some .dir → item k = some .dir := by
    intro k hk
    rcases h k with he | ⟨hne, -⟩
    · rw [he, hk]
    · exact absurd hk hne
  refine ⟨hdir top t.top_dir, fun k hk hn ↦ hdir _ ?_⟩
  rcases h k with he | ⟨-, hparent⟩
  · rw [he] at hn
    exact t.closed k hk hn
  · exact hparent

theorem parent_of_isFile {k : κ} (h : Item.IsFile (t.item k)) : t.item (parent k) = some .dir := by
  refine t.closed k ?_ ?_
  · rintro rfl
    exact h.ne_dir t.top_dir
  · obtain ⟨lease, storage, data, he⟩ := h
    rw [he]
    exact Option.some_ne_none _

section

variable {t' u : FileTree parent top σ δ}

def SameUpToLeases (t t' : FileTree parent top σ δ) : Prop :=
  ∀ k, (t.item k).map Item.unleased = (t'.item k).map Item.unleased

theorem SameUpToLeases.refl (t : FileTree parent top σ δ) : t.SameUpToLeases t := fun _ ↦ rfl

theorem SameUpToLeases.symm (h : t.SameUpToLeases t') : t'.SameUpToLeases t := fun k ↦ (h k).symm

theorem SameUpToLeases.trans (h : t.SameUpToLeases t') (h' : t'.SameUpToLeases u) :
    t.SameUpToLeases u := fun k ↦ (h k).trans (h' k)

theorem SameUpToLeases.item_eq_none (h : t.SameUpToLeases t') {k : κ} :
    t.item k = none ↔ t'.item k = none := by
  rw [← Option.map_eq_none_iff (f := Item.unleased), h k, Option.map_eq_none_iff]

theorem SameUpToLeases.file (h : t.SameUpToLeases t') {k : κ} {lease : Nat} {storage : σ}
    {data : Option δ} (hk : t.item k = some (.file lease storage data)) :
    ∃ lease', t'.item k = some (.file lease' storage data) := by
  have he := h k
  rw [hk] at he
  match hk' : t'.item k with
  | none =>
    rw [hk'] at he
    cases he
  | some .dir =>
    rw [hk'] at he
    cases he
  | some (.file lease' storage' data') =>
    rw [hk'] at he
    cases he
    exact ⟨lease', rfl⟩

def Renewals (ops : List (FileOp κ σ δ)) : Prop := ∃ lease ks, ops = List.map (.renew lease) ks

theorem map_retimed_renew (ks : List κ) (lease hold now : Nat) :
    (ks.map (FileOp.renew lease)).map (@FileOp.retimed κ σ δ hold now) =
      ks.map (FileOp.renew (now + hold)) := List.map_map

/-- The tree after requests none of which was granted; only leases may have been renewed. -/
def Pending (t : FileTree parent top σ δ) (ops : List (FileOp κ σ δ))
    (t' : FileTree parent top σ δ) : Prop :=
  t' = t ∨ Renewals ops ∧ t'.SameUpToLeases t

theorem Pending.same (h : Pending t ops t') : t'.SameUpToLeases t := by
  rcases h with rfl | ⟨-, h⟩
  · exact .refl t'
  · exact h

end

variable [DecidableEq κ]

/-- The tree of the top alone. -/
def bare (parent : κ → κ) (top : κ) (σ δ : Type) : FileTree parent top σ δ where
  item := update (fun _ ↦ none) top (some .dir)
  top_dir := update_self ..
  closed k hk hn := by
    rw [update_of_ne hk] at hn
    exact absurd rfl hn

theorem item_bare_of_ne {k : κ} (h : k ≠ top) : (bare parent top σ δ).item k = none := by
  simp [bare, h]

def Grants (t : FileTree parent top σ δ) : FileOp κ σ δ → Prop
  | .mkdir k => t.item (parent k) = some .dir ∧ t.item k = none
  | .remove k => k ≠ top ∧ t.item k ≠ none ∧ ∀ j, parent j = k → t.item j = none
  | .put now _ files => ∀ f ∈ files, t.item (parent f.1) = some .dir ∧ t.item f.1 ≠ some .dir ∧
      (t.item f.1).elim 0 Item.lease < now
  | .commit files => ∀ f ∈ files, Item.IsFile (t.item f.1)
  | .renew _ k => t.item k ≠ none

def effect (t : FileTree parent top σ δ) : FileOp κ σ δ → κ → Option (Item σ δ)
  | .mkdir k => update t.item k (some .dir)
  | .remove k => update t.item k none
  | .put _ lease files => fun k ↦ match lastFor files k with
    | none => t.item k
    | some storage => some (.file lease storage ((t.item k).bind Item.data))
  | .commit files => fun k ↦ match lastFor files k with
    | none => t.item k
    | some data => (t.item k).map (Item.committed data)
  | .renew lease k => update t.item k ((t.item k).map (Item.renewed lease))

section

variable {now lease : Nat} {puts : List (κ × σ)} {commits : List (κ × δ)} {k : κ}

theorem effect_put_of_none (h : lastFor puts k = none) :
    t.effect (.put now lease puts) k = t.item k := by
  simp only [effect, h]

theorem effect_put_of_some {storage : σ} (h : lastFor puts k = some storage) :
    t.effect (.put now lease puts) k =
      some (.file lease storage ((t.item k).bind Item.data)) := by
  simp only [effect, h]

theorem effect_commit_of_none (h : lastFor commits k = none) :
    t.effect (.commit commits) k = t.item k := by
  simp only [effect, h]

theorem effect_commit_of_some {data : δ} (h : lastFor commits k = some data) :
    t.effect (.commit commits) k = (t.item k).map (Item.committed data) := by
  simp only [effect, h]

end

theorem effect_closed {op : FileOp κ σ δ} (h : t.Grants op) :
    t.effect op top = some .dir ∧
      ∀ k, k ≠ top → t.effect op k ≠ none → t.effect op (parent k) = some .dir := by
  cases op with
  | mkdir k =>
    obtain ⟨hparent, hfree⟩ := h
    have hne : ∀ j, t.item j = some .dir → j ≠ k := by
      rintro j hj rfl
      rw [hfree] at hj
      cases hj
    refine ⟨(update_of_ne (hne _ t.top_dir) ..).trans t.top_dir, fun j hj hn ↦ ?_⟩
    suffices hdir : t.item (parent j) = some .dir from (update_of_ne (hne _ hdir) ..).trans hdir
    by_cases hjk : j = k
    · rw [hjk, hparent]
    · refine t.closed j hj ?_
      rwa [effect, update_of_ne hjk] at hn
  | remove k =>
    obtain ⟨htop, -, hchildless⟩ := h
    refine ⟨(update_of_ne htop.symm ..).trans t.top_dir, fun j hj hn ↦ ?_⟩
    have hjk : j ≠ k := by
      rintro rfl
      exact hn (update_self ..)
    rw [effect, update_of_ne hjk] at hn
    have hne : parent j ≠ k := fun he ↦ hn (hchildless j he)
    rw [effect, update_of_ne hne]
    exact t.closed j hj hn
  | put now lease files =>
    refine closed_of_files (t := t) fun k ↦ ?_
    cases hlast : lastFor files k with
    | none => exact .inl (effect_put_of_none hlast)
    | some storage =>
      obtain ⟨hparent, hdir, -⟩ := h _ (mem_of_lastFor hlast)
      exact .inr ⟨hdir, hparent⟩
  | commit files =>
    refine closed_of_files (t := t) fun k ↦ ?_
    cases hlast : lastFor files k with
    | none => exact .inl (effect_commit_of_none hlast)
    | some data =>
      have hfile : Item.IsFile (t.item k) := h _ (mem_of_lastFor hlast)
      exact .inr ⟨hfile.ne_dir, parent_of_isFile hfile⟩
  | renew lease k =>
    refine closed_of_files (t := t) fun j ↦ ?_
    by_cases hj : j = k
    · subst hj
      by_cases hdir : t.item j = some .dir
      · rw [effect, update_self, hdir]
        exact .inl rfl
      · exact .inr ⟨hdir, parent_of_isFile (Item.isFile_of_ne h hdir)⟩
    · rw [effect, update_of_ne hj]
      exact .inl rfl

open Classical in
noncomputable def step (t : FileTree parent top σ δ) (op : FileOp κ σ δ) :
    Option (FileTree parent top σ δ) :=
  if h : t.Grants op then some ⟨t.effect op, (effect_closed h).1, (effect_closed h).2⟩ else none

theorem step_eq_some {op : FileOp κ σ δ} {t' : FileTree parent top σ δ} :
    t.step op = some t' ↔ t.Grants op ∧ t'.item = t.effect op := by
  unfold step
  split
  · rename_i h
    rw [Option.some.injEq, FileTree.ext_iff]
    exact ⟨fun he ↦ ⟨h, he.symm⟩, fun he ↦ he.2.symm⟩
  · rename_i h
    exact iff_of_false (fun he ↦ nomatch he) fun he ↦ h he.1

theorem step_eq_none {op : FileOp κ σ δ} : t.step op = none ↔ ¬ t.Grants op := by
  unfold step
  split
  · rename_i h
    exact iff_of_false (fun he ↦ nomatch he) fun hn ↦ hn h
  · rename_i h
    exact iff_of_true rfl h

/-- Requests in turn, up to the first one that is not granted, and whether all of them were. -/
noncomputable def exec (t : FileTree parent top σ δ) :
    List (FileOp κ σ δ) → FileTree parent top σ δ × Bool
  | [] => (t, true)
  | op :: ops => match t.step op with
    | none => (t, false)
    | some t' => t'.exec ops

theorem exec_of_grants {op : FileOp κ σ δ} (h : t.Grants op) :
    (t.exec [op]).1.item = t.effect op ∧ (t.exec [op]).2 = true := by
  rw [exec]
  cases hs : t.step op with
  | none => exact absurd h (step_eq_none.mp hs)
  | some t' => exact ⟨(step_eq_some.mp hs).2, rfl⟩

theorem exec_of_not_grants {op : FileOp κ σ δ} (h : ¬ t.Grants op) : t.exec [op] = (t, false) := by
  rw [exec, step_eq_none.mpr h]

/-- Leases are renewed up to the first key where nothing stands. -/
theorem exec_renew (t : FileTree parent top σ δ) (lease : Nat) (ks : List κ) :
    (∀ k, (t.exec (ks.map (.renew lease))).1.item k =
      if k ∈ ks.takeWhile (fun j ↦ (t.item j).isSome) then (t.item k).map (Item.renewed lease)
      else t.item k) ∧
      ((t.exec (ks.map (.renew lease))).2 = true ↔ ∀ k ∈ ks, t.item k ≠ none) := by
  induction ks generalizing t with
  | nil => simp [exec]
  | cons j ks ih =>
    rw [List.map_cons, exec]
    cases hs : t.step (.renew lease j) with
    | none =>
      have hnone : t.item j = none := not_not.mp (step_eq_none.mp hs)
      simp [hnone]
    | some t' =>
      obtain ⟨hgrants, hitem⟩ := step_eq_some.mp hs
      have hat : ∀ k, t'.item k = if k = j then (t.item k).map (Item.renewed lease)
          else t.item k := by
        intro k
        rw [hitem, effect]
        by_cases hk : k = j
        · rw [hk, update_self, if_pos rfl]
        · rw [update_of_ne hk, if_neg hk]
      have hsome : ∀ k, (t'.item k).isSome = (t.item k).isSome := by
        intro k
        rw [hat]
        split_ifs
        · rw [Option.isSome_map]
        · rfl
      obtain ⟨hrest, hall⟩ := ih t'
      have htwice : ∀ x : Option (Item σ δ), (x.map (Item.renewed lease)).map
          (Item.renewed lease) = x.map (Item.renewed lease) := by
        intro x
        match x with
        | none => rfl
        | some .dir => rfl
        | some (.file ..) => rfl
      refine ⟨fun k ↦ ?_, ?_⟩
      · have hj : (t.item j).isSome = true := Option.isSome_iff_ne_none.mpr hgrants
        simp only [hrest, hsome, List.takeWhile_cons, hj, if_true]
        simp only [hat, List.mem_cons]
        by_cases hk : k = j
        · simp only [hk, if_true, true_or, htwice, ite_self]
        · simp only [hk, if_false, false_or]
      · rw [hall, List.forall_mem_cons]
        have hne : ∀ k, t'.item k ≠ none ↔ t.item k ≠ none := by
          intro k
          rw [← Option.isSome_iff_ne_none, ← Option.isSome_iff_ne_none, hsome]
        simp only [hne]
        exact ⟨fun h ↦ ⟨hgrants, h⟩, fun h ↦ h.2⟩

section Repeated

variable {t' : FileTree parent top σ δ} {op : FileOp κ σ δ}

/-- What a request asks for stands. -/
def Settled (t : FileTree parent top σ δ) : FileOp κ σ δ → Prop
  | .mkdir k => t.item k ≠ none
  | .remove k => t.item k = none
  | .put _ _ files => ∀ k storage, lastFor files k = some storage →
      ∃ lease data, t.item k = some (.file lease storage data)
  | .commit files => ∀ k data, lastFor files k = some data →
      ∃ lease storage, t.item k = some (.file lease storage (some data))
  | .renew _ _ => True

theorem settled_retimed {hold now : Nat} : t.Settled (op.retimed hold now) ↔ t.Settled op := by
  cases op <;> rfl

theorem Settled.congr (h : t.Settled op) (hs : t.SameUpToLeases t') : t'.Settled op := by
  cases op with
  | mkdir k => exact hs.item_eq_none.not.mp h
  | remove k => exact hs.item_eq_none.mp h
  | put now lease files =>
    intro k storage hlast
    obtain ⟨lease', data, hk⟩ := h k storage hlast
    obtain ⟨lease'', hk'⟩ := hs.file hk
    exact ⟨lease'', data, hk'⟩
  | commit files =>
    intro k data hlast
    obtain ⟨lease, storage, hk⟩ := h k data hlast
    obtain ⟨lease', hk'⟩ := hs.file hk
    exact ⟨lease', storage, hk'⟩
  | renew lease k => trivial

theorem settled_of_step (h : t.step op = some t') : t'.Settled op := by
  obtain ⟨hg, hitem⟩ := step_eq_some.mp h
  cases op with
  | mkdir k =>
    rw [Settled, hitem, effect, update_self]
    exact Option.some_ne_none _
  | remove k =>
    rw [Settled, hitem, effect, update_self]
  | put now lease files =>
    intro k storage hlast
    rw [hitem, effect_put_of_some hlast]
    exact ⟨lease, _, rfl⟩
  | commit files =>
    intro k data hlast
    obtain ⟨lease, storage, old, hk⟩ := hg _ (mem_of_lastFor hlast)
    rw [hitem, effect_commit_of_some hlast, hk]
    exact ⟨0, storage, rfl⟩
  | renew lease k => trivial

/-- Asking for what stands changes leases at most. -/
theorem Settled.step (h : t.Settled op) (hs : t.step op = some t') : t'.SameUpToLeases t := by
  obtain ⟨hg, hitem⟩ := step_eq_some.mp hs
  intro k
  rw [hitem]
  cases op with
  | mkdir j => exact absurd hg.2 h
  | remove j => exact absurd h hg.2.1
  | put now lease files =>
    cases hlast : lastFor files k with
    | none => rw [effect_put_of_none hlast]
    | some storage =>
      obtain ⟨lease', data, hk⟩ := h k storage hlast
      rw [effect_put_of_some hlast, hk]
      rfl
  | commit files =>
    cases hlast : lastFor files k with
    | none => rw [effect_commit_of_none hlast]
    | some data =>
      obtain ⟨lease, storage, hk⟩ := h k data hlast
      rw [effect_commit_of_some hlast, hk]
      rfl
  | renew lease j =>
    by_cases hk : k = j
    · subst hk
      rw [effect, update_self, Option.map_map]
      exact congrArg (Option.map · _) (funext (Item.unleased_renewed lease))
    · rw [effect, update_of_ne hk]

theorem exec_singleton : t.exec [op] = ((t.step op).getD t, (t.step op).isSome) := by
  rw [exec]
  cases t.step op <;> rfl

theorem Renewals.settled {ops : List (FileOp κ σ δ)} (h : Renewals ops) :
    ∀ op ∈ ops, t.Settled op := by
  obtain ⟨lease, ks, rfl⟩ := h
  exact List.forall_mem_map.mpr fun _ _ ↦ trivial

theorem exec_renew_same (t : FileTree parent top σ δ) (lease : Nat) (ks : List κ) :
    (t.exec (ks.map (.renew lease))).1.SameUpToLeases t := by
  intro k
  rw [(t.exec_renew lease ks).1]
  split_ifs
  · rw [Option.map_map]
    exact congrArg (Option.map · _) (funext (Item.unleased_renewed lease))
  · rfl

theorem SameUpToLeases.exec_renew (h : t.SameUpToLeases t') (lease : Nat) (ks : List κ) :
    (t.exec (ks.map (.renew lease))).2 = (t'.exec (ks.map (.renew lease))).2 := by
  rw [Bool.eq_iff_iff, (t.exec_renew lease ks).2, (t'.exec_renew lease ks).2]
  exact forall₂_congr fun k _ ↦ h.item_eq_none.not

variable {ops : List (FileOp κ σ δ)} {hold : Nat}

/-- The tree after requests one of which was granted, as it would be had that one come alone. -/
structure Done (hold : Nat) (t : FileTree parent top σ δ) (ops : List (FileOp κ σ δ))
    (t' : FileTree parent top σ δ) : Prop where
  granted : ∃ now, (t.exec (ops.map (.retimed hold now))).2 = true ∧
    t'.SameUpToLeases (t.exec (ops.map (.retimed hold now))).1
  settled : ∀ op ∈ ops, t'.Settled op

/-- A request that comes once more, after none was granted. -/
theorem Pending.exec (h : Pending t ops t') (hops : (∃ op, ops = [op]) ∨ Renewals ops)
    (hold now : Nat) :
    (t'.exec (ops.map (.retimed hold now))).2 = false ∧
        Pending t ops (t'.exec (ops.map (.retimed hold now))).1 ∨
      (t'.exec (ops.map (.retimed hold now))).2 = true ∧
        Done hold t ops (t'.exec (ops.map (.retimed hold now))).1 := by
  by_cases hrenew : Renewals ops
  · obtain ⟨lease, ks, rfl⟩ := hrenew
    have hsame := (exec_renew_same t' (now + hold) ks).trans h.same
    rw [map_retimed_renew]
    cases hb : (t'.exec (ks.map (.renew (now + hold)))).2 with
    | false => exact .inl ⟨rfl, .inr ⟨⟨lease, ks, rfl⟩, hsame⟩⟩
    | true =>
      refine .inr ⟨rfl, ⟨now, ?_, ?_⟩, Renewals.settled ⟨lease, ks, rfl⟩⟩
      · rw [map_retimed_renew, ← h.same.exec_renew]
        exact hb
      · rw [map_retimed_renew]
        exact hsame.trans (exec_renew_same t (now + hold) ks).symm
  · obtain ⟨op, rfl⟩ := hops.resolve_right hrenew
    obtain rfl := h.resolve_right fun hn ↦ hrenew hn.1
    rw [List.map_singleton, exec_singleton]
    cases hs : t'.step (op.retimed hold now) with
    | none => exact .inl ⟨rfl, .inl rfl⟩
    | some u =>
      refine .inr ⟨rfl, ⟨now, ?_, ?_⟩, ?_⟩
      · rw [List.map_singleton, exec_singleton, hs]
        rfl
      · rw [List.map_singleton, exec_singleton, hs]
        exact .refl u
      · exact List.forall_mem_singleton.mpr (settled_retimed.mp (settled_of_step hs))

/-- A request that comes once more, after one was granted. -/
theorem Done.exec (h : Done hold t ops t') (hops : (∃ op, ops = [op]) ∨ Renewals ops)
    (now : Nat) : Done hold t ops (t'.exec (ops.map (.retimed hold now))).1 := by
  suffices hsame : (t'.exec (ops.map (.retimed hold now))).1.SameUpToLeases t' by
    obtain ⟨now', hgranted, hdone⟩ := h.granted
    exact ⟨⟨now', hgranted, hsame.trans hdone⟩,
      fun op hop ↦ (h.settled op hop).congr hsame.symm⟩
  rcases hops with ⟨op, rfl⟩ | hrenew
  · rw [List.map_singleton, exec_singleton]
    cases hs : t'.step (op.retimed hold now) with
    | none => exact .refl t'
    | some u =>
      exact (settled_retimed.mpr (h.settled op (List.mem_singleton_self op))).step hs
  · obtain ⟨lease, ks, rfl⟩ := hrenew
    rw [map_retimed_renew]
    exact exec_renew_same t' (now + hold) ks

/-- Commits and renewals that were granted are granted again. -/
theorem Done.granted_again (h : Done hold t ops t')
    (hops : (∃ files, ops = [.commit files]) ∨ Renewals ops) (now : Nat) :
    (t'.exec (ops.map (.retimed hold now))).2 = true := by
  rcases hops with ⟨files, rfl⟩ | hrenew
  · rw [List.map_singleton, exec_singleton, Option.isSome_iff_ne_none, Ne, step_eq_none, not_not]
    intro f hf
    obtain ⟨data, hlast⟩ := lastFor_isSome hf
    obtain ⟨lease', storage, hk⟩ := h.settled _ (List.mem_singleton_self _) f.1 data hlast
    exact ⟨lease', storage, some data, hk⟩
  · obtain ⟨lease, ks, rfl⟩ := hrenew
    obtain ⟨now', hgranted, hsame⟩ := h.granted
    rw [map_retimed_renew] at hgranted hsame ⊢
    rwa [(hsame.trans (exec_renew_same t (now' + hold) ks)).exec_renew,
      (t.exec_renew (now + hold) ks).2, ← (t.exec_renew (now' + hold) ks).2]

end Repeated

end FileTree

end Spkdfs.Library
