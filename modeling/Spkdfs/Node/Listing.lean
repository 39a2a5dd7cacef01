import Spkdfs.Node.Kind

namespace Spkdfs

open Library RocksDB

namespace RocksDB

variable {db db' : RocksDB} {path : Str} {i : Inode} {is : List Inode}

theorem nodup_addName {sub : List Str} (h : sub.Nodup) (name : Str) : (addName sub name).Nodup := by
  unfold addName
  split
  · exact h
  · rename_i hn
    rw [List.nodup_append]
    refine ⟨h, by simp, ?_⟩
    intro a ha b hb hab
    rw [List.mem_singleton.mp hb] at hab
    exact hn (hab ▸ ha)

theorem mem_addName {sub : List Str} {name e : Str} :
    e ∈ addName sub name ↔ e ∈ sub ∨ e = name := by
  unfold addName
  split
  · rename_i h
    constructor
    · exact .inl
    · rintro (he | rfl)
      · exact he
      · exact h
  · simp

theorem mem_removeName {sub : List Str} {name e : Str} :
    e ∈ removeName sub name ↔ e ∈ sub ∧ e ≠ name ∧ e ≠ name ++ ['/'] := by
  simp only [removeName, List.mem_filter, decide_eq_true_eq, and_assoc]

theorem nodup_removeName {sub : List Str} (h : sub.Nodup) (name : Str) :
    (removeName sub name).Nodup := (h.filter _).filter _

theorem nodup_dentries {sub : List Str} (h : sub.Nodup) : (dentries is path sub).Nodup := by
  unfold dentries
  generalize is.filter (·.parentPath = path) = js
  induction js generalizing sub with
  | nil => exact h
  | cons j js ih => exact ih (nodup_addName h _)

theorem mem_dentries {sub : List Str} {e : Str} :
    e ∈ dentries is path sub ↔ e ∈ sub ∨ ∃ i ∈ is, i.parentPath = path ∧ e = i.filename := by
  unfold dentries
  induction is generalizing sub with
  | nil => simp
  | cons j js ih =>
    by_cases hj : j.parentPath = path
    · rw [List.filter_cons_of_pos (by simpa using hj), List.foldl_cons, ih, mem_addName]
      simp [hj, or_assoc]
    · rw [List.filter_cons_of_neg (by simpa using hj), ih]
      simp [hj]

theorem subAt_of_lookup (h : lookup db path = some i) : subAt db path = i.sub := by
  simp [subAt, h]

theorem subAt_congr (h : lookup db' path = lookup db path) : subAt db' path = subAt db path := by
  rw [subAt, subAt, h]

theorem Linked.subAt {names : List Str → List Str} (h : Linked db i names db')
    (hne : path ≠ i.fullpath.str) :
    subAt db' path = if path = i.parentPath then names (subAt db path) else subAt db path := by
  by_cases hp : path = i.parentPath
  · subst hp
    obtain ⟨parent, hl, hl'⟩ := h.lookup_parent hne
    rw [if_pos rfl, subAt_of_lookup hl', subAt_of_lookup hl]
  · rw [if_neg hp, subAt_congr (h.lookup_other hne hp)]

theorem BatchEffect.subAt (h : BatchEffect db is db') (hne : ∀ i ∈ is, i.fullpath.str ≠ path) :
    subAt db' path = dentries is path (subAt db path) := by
  by_cases hp : ∃ i ∈ is, i.parentPath = path
  · obtain ⟨i, hi, rfl⟩ := hp
    obtain ⟨p, hl, hl'⟩ := h.parent i hi
    rw [subAt_of_lookup hl', subAt_of_lookup hl]
  · have hp : ∀ i ∈ is, i.parentPath ≠ path := fun i hi he ↦ hp ⟨i, hi, he⟩
    have hnil : is.filter (·.parentPath = path) = [] := by
      rw [List.filter_eq_nil_iff]
      intro i hi
      simpa using hp i hi
    rw [dentries, hnil, List.foldl_nil, subAt_congr]
    rw [lookup, lookup, h.other path hp hne]

end RocksDB

def dentry (p : FullPath) (k : Kind) : Str :=
  filename p.str ++ if k = .dir then ['/'] else []

theorem dentry_injective {p q : FullPath} {k l : Kind} (hp : p.parent = q.parent)
    (h : dentry p k = dentry q l) : p = q := by
  refine FullPath.eq_of_parent_eq hp ?_
  have hs := p.slash_notMem_filename
  have ht := q.slash_notMem_filename
  have hstrip : ∀ n : Str, '/' ∉ n → ∀ m : Kind,
      (n ++ if m = .dir then ['/'] else []).takeWhile (· ≠ '/') = n := by
    intro n hn m
    have hall : ∀ c ∈ n, decide (c ≠ '/') = true := fun c hc ↦ by
      simpa using fun he : c = '/' ↦ hn (he ▸ hc)
    rw [List.takeWhile_append_of_pos hall]
    cases m <;> simp
  rw [← hstrip _ hs k, ← hstrip _ ht l]
  exact congrArg (List.takeWhile (· ≠ '/')) h

/-- A listed name stands for a stored path below the directory, with its kind. -/
def Listed (db : RocksDB) (d e : Str) : Prop :=
  ∃ p : FullPath, p.str ≠ root ∧ p.parent.str = d ∧ ∃ k, kindAt db p.str = some k ∧ e = dentry p k

def Sound (db : RocksDB) (d : Str) : Prop :=
  (subAt db d).Nodup ∧ ∀ e ∈ subAt db d, Listed db d e

structure Listing (db : RocksDB) : Prop where
  absolute : ∀ d, kindAt db d = some .dir → d.head? = some '/'
  sound : ∀ d, kindAt db d = some .dir → Sound db d

theorem Listed.keep {db db' : RocksDB} {d e : Str} (h : Listed db d e)
    (hk : ∀ p : FullPath, p.parent.str = d → (∃ k, e = dentry p k) → kindAt db p.str ≠ none →
      kindAt db' p.str = kindAt db p.str) : Listed db' d e := by
  obtain ⟨p, hr, hp, k, hkind, he⟩ := h
  refine ⟨p, hr, hp, k, ?_, he⟩
  rw [hk p hp ⟨k, he⟩ (by simp [hkind]), hkind]

theorem listing_empty : Listing .empty := by
  have hroot : ∀ d, kindAt .empty d = some .dir → d = root := by
    intro d hd
    by_contra hr
    simp [hr] at hd
  have hsub : subAt .empty root = [] := by decide
  refine ⟨fun d hd ↦ ?_, fun d hd ↦ ?_⟩
  · rw [hroot d hd]
    rfl
  · rw [hroot d hd, Sound, hsub]
    exact ⟨List.nodup_nil, by simp⟩

variable {db db' : RocksDB} {env : Env} {req : Request} {ok : Bool}

theorem Served.absolute (h : Served db env req ok db')
    (ha : ∀ d, kindAt db d = some .dir → d.head? = some '/') :
    ∀ d, kindAt db' d = some .dir → d.head? = some '/' := by
  intro d hd
  have hr := h.retyped d
  rw [hd] at hr
  generalize hk : kindAt db d = k at hr
  cases hr with
  | kept => exact ha d hk
  | made _ hpath =>
    rw [hpath]
    exact FullPath.absolute_ofStr (Namenode.head_mkdirPath _)

section Sound

variable {d : Str} {own : Inode}

theorem Sound.congr (h : Sound db d) (hsub : subAt db' d = subAt db d)
    (hk : ∀ p : FullPath, p.parent.str = d → kindAt db p.str ≠ none →
      kindAt db' p.str = kindAt db p.str) : Sound db' d := by
  rw [Sound, hsub]
  exact ⟨h.1, fun e he ↦ (h.2 e he).keep fun p hp _ hn ↦ hk p hp hn⟩

theorem Sound.link {k : Kind} (h : Sound db d)
    (hl : Linked db own (addName · (dentry own.fullpath k)) db') (hkind : own.kind = some k)
    (hold : kindAt db own.fullpath.str = none ∨ kindAt db own.fullpath.str = some k)
    (hne : d ≠ own.fullpath.str) : Sound db' d := by
  have hk : ∀ p : FullPath, kindAt db p.str ≠ none → kindAt db' p.str = kindAt db p.str := by
    intro p hp
    rw [hl.kindAt]
    by_cases hpo : p.str = own.fullpath.str
    · rw [hpo] at hp ⊢
      rw [Function.update_self, hkind]
      exact (hold.resolve_left hp).symm
    · rw [Function.update_of_ne hpo]
  have hsub := hl.subAt hne
  by_cases hd : d = own.parentPath
  · rw [if_pos hd] at hsub
    rw [Sound, hsub]
    refine ⟨nodup_addName h.1 _, fun e he ↦ ?_⟩
    rcases mem_addName.mp he with he | rfl
    · exact (h.2 e he).keep fun p _ _ hp ↦ hk p hp
    · refine ⟨own.fullpath, fun hr ↦ hne ?_, hd.symm, k, ?_, rfl⟩
      · rw [hd, Inode.parentPath, hr]
        rfl
      · rw [hl.kindAt, Function.update_self, hkind]
  · rw [if_neg hd] at hsub
    exact h.congr hsub fun p _ hp ↦ hk p hp

theorem Sound.unlink {path : Str} (h : Sound db d)
    (hl : Linked db (.ofPath path) (removeName · (Inode.ofPath path).filename) db')
    (hne : d ≠ simplifyPath path) : Sound db' d := by
  have hk : ∀ p : FullPath, p ≠ .ofStr path → kindAt db' p.str = kindAt db p.str := by
    intro p hp
    rw [hl.kindAt, Function.update_of_ne]
    exact fun he ↦ hp (FullPath.ext he)
  have hsub := hl.subAt hne
  by_cases hd : d = (Inode.ofPath path).parentPath
  · rw [if_pos hd] at hsub
    rw [Sound, hsub]
    refine ⟨nodup_removeName h.1 _, fun e he ↦ ?_⟩
    obtain ⟨he, hfile, hdir⟩ := mem_removeName.mp he
    refine (h.2 e he).keep fun p _ hname _ ↦ hk p ?_
    rintro rfl
    obtain ⟨k, rfl⟩ := hname
    cases k with
    | file => exact hfile rfl
    | dir => exact hdir (by simp [dentry, Inode.filename, Inode.ofPath])
  · rw [if_neg hd] at hsub
    refine h.congr hsub fun p hp _ ↦ hk p ?_
    rintro rfl
    exact hd hp.symm

theorem Sound.batch {is : List Inode} (h : Sound db d) (he : BatchEffect db is db')
    (hm : Members db is) (hdir : kindAt db d = some .dir) : Sound db' d := by
  have hne : ∀ i ∈ is, i.fullpath.str ≠ d := by
    rintro i hi rfl
    rw [hm.fileAt hi] at hdir
    cases hdir
  have hk := he.kindAt
  rw [Sound, he.subAt hne]
  refine ⟨nodup_dentries h.1, fun e hmem ↦ ?_⟩
  rcases mem_dentries.mp hmem with hmem | ⟨i, hi, hp, rfl⟩
  · exact (h.2 e hmem).keep fun p _ _ _ ↦ by rw [hk]
  · refine ⟨i.fullpath, fun hr ↦ hne i hi ?_, hp, .file, ?_, ?_⟩
    · rw [← hp, Inode.parentPath, hr]
      rfl
    · rw [hk, hm.fileAt hi]
    · simp [Inode.filename, dentry, (hm i hi).1]

theorem Sound.putAgg {agg : AggInode} (h : Sound db d) (hplain : '/' ∉ agg.id)
    (ha : d.head? = some '/') : Sound (db.put (.agg agg)) d := by
  have hid : ∀ p : FullPath, p.Absolute → p.str ≠ agg.id := by
    intro p hp he
    exact hplain (he ▸ List.mem_of_mem_head? hp)
  refine h.congr (subAt_congr (lookup_put_of_ne db (v := .agg agg) ?_)) fun p hp _ ↦ ?_
  · rintro rfl
    exact hplain (List.mem_of_mem_head? ha)
  · rw [kindAt_putAgg, Function.update_of_ne]
    refine hid p (FullPath.absolute_of_parent ?_)
    rw [FullPath.Absolute, hp, ha]

end Sound

theorem Listing.served (hl : Listing db) (h : Served db env req ok db') : Listing db' := by
  refine ⟨h.absolute hl.absolute, fun d hd ↦ ?_⟩
  have hk : (∀ p, req = .rm p → False) → kindAt db d = some .dir → ∀ p : FullPath, p.parent.str = d →
      kindAt db p.str ≠ none → kindAt db' p.str = kindAt db p.str := by
    intro hrm hdir p hp hn
    refine (h.retyped p.str).eq hn (fun q hq ↦ (hrm q hq).elim) (List.mem_of_mem_head? (FullPath.absolute_of_parent ?_))
    rw [FullPath.Absolute, hp, hl.absolute d hdir]
  cases h with
  | refused => exact hl.sound d hd
  | @mkdir path _ _ parent fresh linked =>
    by_cases hne : d = simplifyPath (Namenode.mkdirPath path)
    · subst hne
      have hs : subAt db' (simplifyPath (Namenode.mkdirPath path)) = [] :=
        subAt_of_lookup linked.lookup_self
      rw [Sound, hs]
      exact ⟨List.nodup_nil, by simp⟩
    · have hd : kindAt db d = some .dir := linked.kindAt_of_ne hne ▸ hd
      exact (hl.sound d hd).link (k := .dir) linked rfl
        (.inl (kindAt_of_pathExists fresh).2) hne
  | @rm path _ given found linked =>
    by_cases hne : d = simplifyPath path
    · subst hne
      have hn : kindAt db' (simplifyPath path) = none := kindAt_of_lookup linked.lookup_self
      rw [hn] at hd
      cases hd
    · have hd : kindAt db d = some .dir := linked.kindAt_of_ne hne ▸ hd
      exact (hl.sound d hd).unlink linked hne
  | @put r i own =>
    have hne : d ≠ i.fullpath.str := by
      rintro rfl
      rw [kindAt_put, Function.update_self, (putInode_kind own).2.1] at hd
      cases hd
    have hdir : kindAt db d = some .dir := by
      rwa [kindAt_put, Function.update_of_ne hne] at hd
    exact (hl.sound d hdir).congr (subAt_congr (lookup_put_of_ne db (v := .inode i) hne))
      (hk (by simp) hdir)
  | @putBatch rs is own =>
    rcases lookup_write_cases db is d with ⟨i, hi, -, hli⟩ | ⟨-, hlookup⟩
    · obtain ⟨r, -, hri⟩ := forall₂_mem_right own hi
      rw [kindAt_of_lookup hli, (putInode_kind hri).2.1] at hd
      cases hd
    · have hdir : kindAt db d = some .dir := by rwa [kindAt, hlookup] at hd
      exact (hl.sound d hdir).congr (subAt_congr hlookup) (hk (by simp) hdir)
  | @putOk r j _ given found valid file linked =>
    have hj : kindAt db j.fullpath.str = some .file := by
      rw [fullpath_of_lookup found, kindAt_of_lookup found, Inode.kind, valid, file]
      rfl
    have hne : d ≠ j.fullpath.str := by
      rintro rfl
      have hkj := kindAt_of_lookup linked.lookup_self
      simp only [Inode.kind, valid, file] at hkj
      rw [hkj] at hd
      cases hd
    have hdir : kindAt db d = some .dir := linked.kindAt_of_ne hne ▸ hd
    have hname : j.filename = dentry j.fullpath .file := by simp [Inode.filename, dentry, file]
    rw [hname] at linked
    exact (hl.sound d hdir).link (k := .file) linked
      (by simp [Inode.kind, valid, file]) (.inr hj) hne
  | @putOkBatch rs is agg mid _ _ own effect plain =>
    have hdir : kindAt mid d = some .dir := by
      by_cases hid : d = agg.id
      · rw [kindAt_putAgg, hid, Function.update_self] at hd
        cases hd
      · rwa [kindAt_putAgg, Function.update_of_ne hid] at hd
    rcases effect with ⟨-, hmid⟩ | ⟨-, rfl⟩
    · have he := internalPutOkBatch_ok hmid
      have hm := members_of_putOk own
      rw [he.kindAt] at hdir
      exact ((hl.sound d hdir).batch he hm hdir).putAgg plain (hl.absolute d hdir)
    · exact (hl.sound d hdir).putAgg plain (hl.absolute d hdir)
  | @updateLock paths is _ own =>
    rcases lookup_write_cases db is d with ⟨i, hi, hp, hli⟩ | ⟨-, hlookup⟩
    · obtain ⟨p, -, j, hj, -, rfl⟩ := own i hi
      have hp : simplifyPath p = d := (fullpath_of_lookup hj).symm.trans hp
      rw [hp] at hj
      have hdir : kindAt db d = some .dir := by
        rw [kindAt_of_lookup hli] at hd
        rw [kindAt_of_lookup hj]
        exact hd
      refine (hl.sound d hdir).congr ?_ (hk (by simp) hdir)
      rw [subAt_of_lookup hli, subAt_of_lookup hj]
      rfl
    · have hdir : kindAt db d = some .dir := by rwa [kindAt, hlookup] at hd
      exact (hl.sound d hdir).congr (subAt_congr hlookup) (hk (by simp) hdir)

theorem listing_of_reaches {guard : RocksDB → Call → Prop} (h : Reaches serve guard .empty db) :
    Listing db := by
  refine h.invariant listing_empty fun db call db' _ hl _ hs ↦ ?_
  obtain ⟨ok, hserved⟩ := served_of_serve hs
  exact hl.served hserved

/-- Listing soundness: whatever requests are executed one at a time, the names listed in a
directory are distinct and each stands for a stored path of the kind the name tells. -/
theorem directory_lists_stored_paths {i : Inode} {d : Str}
    (h : Reaches serve (fun _ _ ↦ True) .empty db) (hi : lookup db d = some i)
    (hv : i.valid = true) (hd : i.isDirectory = true) :
    i.sub.Nodup ∧
      (∀ n, n ++ ['/'] ∈ i.sub → DirAt db (simplifyPath (d ++ '/' :: n))) ∧
      ∀ n ∈ i.sub, n.getLast? ≠ some '/' → FileAt db (simplifyPath (d ++ '/' :: n)) := by
  have hl := listing_of_reaches h
  have hdir : kindAt db d = some .dir := dirAt_iff.mp ⟨i, hi, hv, hd⟩
  obtain ⟨hnodup, hlisted⟩ := hl.sound d hdir
  rw [subAt_of_lookup hi] at hnodup hlisted
  have hspell : ∀ p : FullPath, p.str ≠ root → p.parent.str = d →
      simplifyPath (d ++ '/' :: filename p.str) = p.str := by
    rintro p hr rfl
    exact (FullPath.absolute_of_parent (hl.absolute _ hdir)).simplifyPath_parent hr
  refine ⟨hnodup, fun n hn ↦ ?_, fun n hn hlast ↦ ?_⟩
  · obtain ⟨p, hr, hp, k, hk, he⟩ := hlisted _ hn
    cases k with
    | file =>
      refine absurd ?_ p.slash_notMem_filename
      have he : n ++ ['/'] = filename p.str := by simpa [dentry] using he
      rw [← he]
      simp
    | dir =>
      have he : n = filename p.str := by simpa [dentry] using he
      rw [he, hspell p hr hp, dirAt_iff, hk]
  · obtain ⟨p, hr, hp, k, hk, he⟩ := hlisted _ hn
    cases k with
    | file =>
      have he : n = filename p.str := by simpa [dentry] using he
      rw [he, hspell p hr hp, fileAt_iff, hk]
    | dir => exact absurd (by simp [he, dentry]) hlast

theorem directory_lists_stored_paths_mkdir_put :
    ∃ db i, lookup db "/a".toList = some i ∧ i.sub = ["f".toList] ∧
      FileAt db (simplifyPath ("/a".toList ++ '/' :: "f".toList)) := by
  obtain ⟨db, hr, hp⟩ := exists_reached serve (fun _ _ ↦ true) .empty
    [.at 100 (.mkdir "/a".toList), .at 100 (.put ⟨"/a/f".toList, "RE<3,1>".toList⟩),
      .at 101 (.putOk ⟨"/a/f".toList, 7, ["x".toList]⟩)]
    (fun db ↦ (lookup db "/a".toList).any fun i : Inode ↦
      i.valid && i.isDirectory && decide (i.sub = ["f".toList])) (by decide +kernel)
  simp only [Option.any_eq_true, Bool.and_eq_true, decide_eq_true_eq] at hp
  obtain ⟨i, hi, ⟨hv, hd⟩, hs⟩ := hp
  have hf : "f".toList ∈ i.sub := by simp [hs]
  exact ⟨db, i, hi, hs, (directory_lists_stored_paths (hr.mono fun _ _ _ ↦ trivial) hi hv hd).2.2 _ hf
    (by decide)⟩

end Spkdfs
