import Spkdfs.Node.Tree

namespace Spkdfs

open Library RocksDB

abbrev Content := List Str × Nat

def NNPutOKRequest.content (req : NNPutOKRequest) : Content := (req.sub, req.filesize)

def Inode.content (i : Inode) : Content := (i.sub, i.filesize)

def Request.committed (path : Str) : Request → Option Content
  | .putOk req => if simplifyPath req.path = path then some req.content else none
  | .putOkBatch reqs =>
    ((reqs.filter (simplifyPath ·.path = path)).getLast?).map (·.content)
  | _ => none

def Request.rewrites : Request → List Str
  | .rm path => [simplifyPath path]
  | .putOk req => [simplifyPath req.path]
  | .putOkBatch reqs => reqs.map (simplifyPath ·.path)
  | _ => []

/-- A store and the record of what was committed for each path since it became valid. -/
structure Ledger where
  db : RocksDB
  committed : Str → Option Content

namespace Ledger

def start : Ledger := ⟨.empty, fun _ ↦ none⟩

def step (l : Ledger) (call : Call) : Option Ledger :=
  (serveAnswered l.db call).map fun (db, answers) ↦
    { db, committed := fun path ↦
        if ¬ ValidAt l.db path ∧ ValidAt db path then none
        else
          (if answers.head? = some .success then call.request.committed path else none).or
            (l.committed path) }

def Settled (l : Ledger) (path : Str) : Prop := FileAt l.db path ∧ l.committed path ≠ none

/-- What no handler checks: that the parent in which a name is entered or erased is not a
file with blocks of its own, and that a new aggregate does not take the place of a file. -/
def Isolated (l : Ledger) (call : Call) : Prop :=
  match call.request with
  | .mkdir path => ∀ entries, Namenode.mkdir l.db path = .ok entries →
      ¬ l.Settled (getParentPath (simplifyPath (Namenode.mkdirPath path)))
  | .rm path => ∀ entries, Namenode.rm l.db path = .ok entries →
      getParentPath (simplifyPath path) ≠ simplifyPath path →
        ¬ l.Settled (getParentPath (simplifyPath path))
  | .putOk req => ∀ entries, Namenode.putOk l.db req = .ok entries →
      getParentPath (simplifyPath req.path) ≠ simplifyPath req.path →
        ¬ l.Settled (getParentPath (simplifyPath req.path))
  | .putOkBatch reqs => ∀ entries, Namenode.putOkBatch l.db call.env reqs = .ok entries →
      (∀ req ∈ reqs, ¬ l.Settled (getParentPath (simplifyPath req.path)) ∧
        ∀ other ∈ reqs, simplifyPath other.path ≠ getParentPath (simplifyPath req.path)) ∧
      ∀ agg, .opPutAgg agg ∈ entries → ¬ l.Settled agg.id
  | _ => True

end Ledger

def RocksDB.FileWith (db : RocksDB) (path : Str) (c : Content) : Prop :=
  ∃ i, lookup db path = some i ∧ i.valid = true ∧ i.isDirectory = false ∧ i.content = c

variable {db db' : RocksDB} {l l' : Ledger} {call : Call} {ok : Bool} {path : Str} {c : Content}

theorem RocksDB.FileWith.fileAt (h : FileWith db path c) : FileAt db path := by
  obtain ⟨i, hi, hv, hd, -⟩ := h
  exact ⟨i, hi, hv, hd⟩

theorem RocksDB.FileWith.congr (h : FileWith db path c) (hl : lookup db' path = lookup db path) :
    FileWith db' path c := by
  obtain ⟨i, hi, hrest⟩ := h
  exact ⟨i, hl ▸ hi, hrest⟩

theorem RocksDB.FileWith.linked {own : Inode} {names : List Str → List Str}
    (h : FileWith db path c) (hl : Linked db own names db') (hs : path ≠ own.fullpath.str)
    (hp : path ≠ own.parentPath) : FileWith db' path c := h.congr (hl.lookup_other hs hp)

theorem putInode_content {now : Nat} {req : NNPutRequest} {i : Inode}
    (h : Namenode.putInode db now req = .ok i) (hf : FileWith db i.fullpath.str c) :
    i.valid = true ∧ i.isDirectory = false ∧ i.content = c := by
  obtain ⟨-, j, hj, t, -, rfl⟩ := Namenode.putInode_eq_ok.mp h
  obtain ⟨f, hget, -, -, rfl⟩ := preparePut_eq_ok.mp hj
  obtain ⟨k, hk, -, -, rfl⟩ := hf
  refine ⟨rfl, rfl, ?_⟩
  have hp : f.fullpath.str = simplifyPath req.path := by
    rw [fullpath_of_getInode hget, FullPath.str_ofStr]
  rw [hp] at hk
  obtain rfl : f = k := by
    rcases getInode_eq_ok.mp hget with hl | ⟨hn, hr, -⟩
    · rw [hk] at hl
      exact (Option.some.inj hl).symm
    · simp [lookup, hn, hr] at hk
  rfl

theorem putOk_member {r : NNPutOKRequest} {i : Inode} {id : Str}
    (h : ∃ j, Namenode.putOkInode db r = .ok j ∧ i = { j with aggInodeId := id }) :
    i.fullpath.str = simplifyPath r.path ∧ i.content = r.content := by
  obtain ⟨j, hj, rfl⟩ := h
  obtain ⟨-, f, hf, rfl⟩ := Namenode.putOkInode_eq_ok.mp hj
  have hpath : f.fullpath.str = simplifyPath r.path :=
    fullpath_of_lookup (preparePutOk_eq_ok.mp hf).1
  exact ⟨hpath, rfl⟩

theorem commitAgg_content {i k j : Inode} (hj : lookup db i.fullpath.str = some j)
    (h : commitAgg db i = .ok k) :
    k.valid = j.valid ∧ k.isDirectory = j.isDirectory ∧ k.content = i.content := by
  unfold commitAgg at h
  simp only [bind_eq_ok, commit_eq_ok] at h
  obtain ⟨k', ⟨f, hf, rfl⟩, h⟩ := h
  obtain rfl : f = j := by
    rcases getInode_eq_ok.mp hf with hl | ⟨hn, hr, -⟩
    · rw [i.fullpath.simplified, hj] at hl
      exact (Option.some.inj hl).symm
    · rw [i.fullpath.simplified] at hn hr
      simp [lookup, hn, hr] at hj
  split at h <;> obtain rfl := Except.ok.inj h <;> exact ⟨rfl, rfl, rfl⟩

theorem Served.fileWith (h : Served l.db call.env call.request ok db') (hg : l.Isolated call)
    (hc : l.committed path ≠ none) (hf : FileWith l.db path c)
    (hp : ok = true → path ∉ call.request.rewrites) : FileWith db' path c := by
  have hsettled : l.Settled path := ⟨hf.fileAt, hc⟩
  obtain ⟨env, req⟩ := call
  cases h with
  | refused => exact hf
  | @mkdir p _ given parent fresh linked =>
    refine hf.linked linked ?_ ?_
    · rintro rfl
      have hn := (kindAt_of_pathExists fresh).2
      have hk := fileAt_iff.mp hf.fileAt
      rw [Inode.fullpath_getDefaultDir, FullPath.str_ofStr, hn] at hk
      cases hk
    · rintro rfl
      exact hg _ (Namenode.mkdir_eq_ok.mpr ⟨given, parent, fresh, rfl⟩) hsettled
  | @rm p _ given found linked =>
    have hs : path ≠ simplifyPath p := by simpa [Request.rewrites] using hp rfl
    refine hf.linked linked hs ?_
    rintro rfl
    exact hg _ (Namenode.rm_eq_ok.mpr ⟨given, found, rfl⟩) hs hsettled
  | @put r i own =>
    by_cases hs : path = i.fullpath.str
    · subst hs
      exact ⟨i, lookup_put_self l.db i, putInode_content own hf⟩
    · exact hf.congr (lookup_put_of_ne l.db (v := .inode i) hs)
  | @putBatch rs is own =>
    rcases lookup_write_cases l.db is path with ⟨i, hi, rfl, hl⟩ | ⟨-, hl⟩
    · obtain ⟨r, -, hri⟩ := forall₂_mem_right own hi
      exact ⟨i, hl, putInode_content hri hf⟩
    · exact hf.congr hl
  | @putOk r j _ given found valid file linked =>
    have hpath := fullpath_of_lookup found
    have hs : path ≠ j.fullpath.str := by simpa [Request.rewrites, hpath] using hp rfl
    refine hf.linked linked hs ?_
    rintro rfl
    have hok : Namenode.putOk l.db r = .ok [.opPutOk { j with sub := r.sub, filesize := r.filesize }] :=
      Namenode.putOk_eq_ok.mpr ⟨_, Namenode.putOkInode_eq_ok.mpr
        ⟨given, j, preparePutOk_eq_ok.mpr ⟨found, valid, file⟩, rfl⟩, rfl⟩
    have hne := hg _ hok
    rw [← hpath] at hne
    exact hne hs hsettled
  | @putOkBatch rs is agg mid _ accepted own effect plain =>
    obtain ⟨hparents, hagg⟩ := hg _ accepted
    have hid : path ≠ agg.id := by
      rintro rfl
      exact hagg agg (by simp) hsettled
    suffices hmid : FileWith mid path c from
      hmid.congr (lookup_put_of_ne mid (v := .agg agg) hid)
    rcases effect with ⟨hok, hbatch⟩ | ⟨-, rfl⟩
    · refine hf.congr ?_
      have he := (internalPutOkBatch_ok hbatch).other path (fun i hi hpath ↦ ?_) fun i hi hpath ↦ ?_
      · rw [lookup, lookup, he]
      · obtain ⟨r, hr, hri⟩ := forall₂_mem_right own hi
        refine (hparents r hr).1 ?_
        rwa [← (putOk_member hri).1, ← Inode.parentPath, hpath]
      · obtain ⟨r, hr, hri⟩ := forall₂_mem_right own hi
        refine hp hok (List.mem_map.mpr ⟨r, hr, ?_⟩)
        rw [← (putOk_member hri).1, hpath]
    · exact hf
  | @updateLock paths is _ own =>
    rcases lookup_write_cases l.db is path with ⟨i, hi, hpath, hl⟩ | ⟨-, hl⟩
    · obtain ⟨p, -, j, hj, -, rfl⟩ := own i hi
      obtain ⟨k, hk, hv, hd, rfl⟩ := hf
      have hpath : simplifyPath p = path := (fullpath_of_lookup hj).symm.trans hpath
      rw [hpath, hk] at hj
      obtain rfl := Option.some.inj hj
      exact ⟨_, hl, hv, hd, rfl⟩
    · exact hf.congr hl

theorem Served.fileWith_committed (h : Served l.db call.env call.request true db')
    (hg : l.Isolated call) (hc : call.request.committed path = some c)
    (hv : ValidAt db' path) : FileWith db' path c := by
  obtain ⟨env, req⟩ := call
  cases h with
  | mkdir => cases hc
  | rm => cases hc
  | put => cases hc
  | putBatch => cases hc
  | updateLock => cases hc
  | @putOk r j _ given found valid file linked =>
    simp only [Request.committed] at hc
    split at hc
    · rename_i hpath
      obtain rfl := Option.some.inj hc
      have hself := linked.lookup_self
      simp only [fullpath_of_lookup found, hpath] at hself
      exact ⟨_, hself, valid, file, rfl⟩
    · cases hc
  | @putOkBatch rs is agg mid _ accepted own effect plain =>
    obtain ⟨hparents, hagg⟩ := hg _ accepted
    have hid : path ≠ agg.id := by
      rintro rfl
      rw [validAt_iff, kindAt_putAgg, Function.update_self] at hv
      exact hv rfl
    suffices hmid : FileWith mid path c from
      hmid.congr (lookup_put_of_ne mid (v := .agg agg) hid)
    obtain ⟨-, hbatch⟩ := effect.resolve_right (by simp)
    have heffect := internalPutOkBatch_ok hbatch
    have hm := members_of_putOk own
    simp only [Request.committed, Option.map_eq_some_iff] at hc
    obtain ⟨r, hr, rfl⟩ := hc
    obtain ⟨hmem, hpath⟩ := of_getLast?_filter hr
    obtain ⟨i, hi, hri⟩ := forall₂_mem_left own hmem
    have hip : i.fullpath.str = path := (putOk_member hri).1.trans hpath
    have hno : ∀ k ∈ is, k.parentPath ≠ i.fullpath.str := by
      intro k hk he
      obtain ⟨q, hq, hqk⟩ := forall₂_mem_right own hk
      refine (hparents q hq).2 r hmem ?_
      rw [← (putOk_member hqk).1, hpath, ← hip]
      exact he.symm
    obtain ⟨j, hj, k, hk, hl⟩ := heffect.member i hi hno
    -- the last request for the path and the last inode for it belong together
    have hkeep : ∀ (r : NNPutOKRequest) (k : Inode), (∃ j, Namenode.putOkInode l.db r = .ok j ∧
        k = { j with aggInodeId := agg.id }) → (decide (simplifyPath r.path = path) = true ↔
          decide (k.fullpath = i.fullpath) = true) := by
      intro r k hrk
      rw [← (putOk_member hrk).1, ← hip, decide_eq_true_eq, decide_eq_true_eq]
      exact ⟨FullPath.ext, fun he ↦ by rw [he]⟩
    obtain ⟨j', hj', hrj⟩ := forall₂_getLast (List.rel_filter @hkeep own) hr
    obtain rfl : j = j' := Option.some.inj (hj.symm.trans hj')
    have hjm : j ∈ is := (of_getLast?_filter hj).1
    obtain ⟨-, s, hs, hsv, hsd⟩ := hm j hjm
    obtain ⟨hkv, hkd, hkc⟩ := commitAgg_content hs hk
    exact ⟨k, hip ▸ hl, by rw [hkv, hsv], by rw [hkd, hsd], by rw [hkc, (putOk_member hrj).2]⟩

theorem Served.not_validAt_rm {env : Env} {p : Str} (h : Served db env (.rm p) true db') :
    ¬ ValidAt db' (simplifyPath p) := by
  cases h with
  | rm _ _ linked =>
    have hk : kindAt db' (simplifyPath p) = none := kindAt_of_lookup linked.lookup_self
    exact fun hv ↦ validAt_iff.mp hv hk

theorem Ledger.step_eq_some (h : l.step call = some l') :
    ∃ ok, Served l.db call.env call.request ok l'.db ∧ ∀ path,
      l'.committed path = if ¬ ValidAt l.db path ∧ ValidAt l'.db path then none
        else (if ok then call.request.committed path else none).or (l.committed path) := by
  simp only [Ledger.step, Option.map_eq_some_iff] at h
  obtain ⟨⟨db, answers⟩, h, rfl⟩ := h
  exact ⟨_, served_of_serveAnswered h, fun path ↦ by simp⟩

theorem Request.not_rewrites_of_committed {req : Request} (h : req.committed path = none)
    (hrm : ∀ p, req = .rm p → path ≠ simplifyPath p) : path ∉ req.rewrites := by
  intro hm
  cases req with
  | rm p => exact hrm p rfl (List.mem_singleton.mp hm)
  | putOk r =>
    rw [Request.committed, if_pos (List.mem_singleton.mp hm).symm] at h
    cases h
  | putOkBatch rs =>
    obtain ⟨r, hr, he⟩ := List.mem_map.mp hm
    simp only [Request.committed, Option.map_eq_none_iff, List.getLast?_eq_none_iff,
      List.filter_eq_nil_iff, decide_eq_true_eq] at h
    exact h r hr he
  | _ => cases hm

/-- The content of every committed file that is still valid is the one committed last. -/
def Ledger.Faithful (l : Ledger) : Prop :=
  ∀ path c, l.committed path = some c → ValidAt l.db path → FileWith l.db path c

theorem Ledger.Faithful.step (hl : l.Faithful) (hg : l.Isolated call)
    (h : l.step call = some l') : l'.Faithful := by
  obtain ⟨ok, hserved, hcommitted⟩ := Ledger.step_eq_some h
  intro path c hc hv
  rw [hcommitted] at hc
  split at hc
  · cases hc
  rename_i hbefore
  have hbefore : ValidAt l.db path := by
    by_contra hn
    exact hbefore ⟨hn, hv⟩
  -- what the record held before, when the request commits nothing for the path
  have hkept : (ok = true → path ∉ call.request.rewrites) → l.committed path = some c →
      FileWith l'.db path c := by
    intro hp hold
    exact hserved.fileWith hg (by simp [hold]) (hl path c hold hbefore) hp
  cases ok with
  | false => exact hkept (by simp) (by simpa using hc)
  | true =>
    simp only [if_true] at hc
    cases hreq : call.request.committed path with
    | some c' =>
      rw [hreq] at hc
      obtain rfl : c' = c := Option.some.inj hc
      exact hserved.fileWith_committed hg hreq hv
    | none =>
      rw [hreq] at hc
      refine hkept (fun _ ↦ Request.not_rewrites_of_committed hreq fun p hp he ↦ ?_) hc
      rw [hp] at hserved
      exact hserved.not_validAt_rm (he ▸ hv)

theorem Request.rewrites_subset {req : Request} (h : path ∈ req.rewrites) :
    path ∈ req.paths.map simplifyPath := by
  cases req with
  | rm => exact h
  | putOk => exact h
  | putOkBatch rs =>
    rw [Request.paths, List.map_map]
    exact h
  | _ => cases h

/-- File content isolation, for requests that name no path below a committed file. -/
theorem content_isolated (h : Reaches Ledger.step Ledger.Isolated .start l) :
    (∀ path i c, lookup l.db path = some i → i.valid = true → i.isDirectory = false →
      l.committed path = some c → i.sub = c.1 ∧ i.filesize = c.2) ∧
    ∀ call l', l.Isolated call → l.step call = some l' →
      ∀ path i c, lookup l.db path = some i → i.valid = true → i.isDirectory = false →
        l.committed path = some c → path ∉ call.request.paths.map simplifyPath →
          ∃ i', lookup l'.db path = some i' ∧ i'.valid = true ∧ i'.isDirectory = false ∧
            i'.sub = i.sub ∧ i'.filesize = i.filesize := by
  have hl : l.Faithful := by
    refine h.invariant ?_ fun l call l' _ hl hg hs ↦ hl.step hg hs
    intro path c hc
    cases hc
  refine ⟨fun path i c hi hv hd hc ↦ ?_, fun call l' hg hs path i c hi hv hd hc hp ↦ ?_⟩
  · obtain ⟨j, hj, -, -, rfl⟩ := hl path c hc ⟨i, hi, hv⟩
    obtain rfl := Option.some.inj (hi.symm.trans hj)
    exact ⟨rfl, rfl⟩
  · obtain ⟨ok, hserved, -⟩ := Ledger.step_eq_some hs
    obtain ⟨i', hi', hv', hd', hc'⟩ := hserved.fileWith (c := i.content) hg (by simp [hc])
      ⟨i, hi, hv, hd, rfl⟩ fun _ hm ↦ hp (Request.rewrites_subset hm)
    obtain ⟨hsub, hsize⟩ := Prod.mk.inj hc'
    exact ⟨i', hi', hv', hd', hsub, hsize⟩

/-- Whether the call puts a file, or commits one that no file is above. -/
def Ledger.putsClear (l : Ledger) (call : Call) : Bool :=
  match call.request with
  | .put _ => true
  | .putOk req => decide (¬ FileAt l.db (getParentPath (simplifyPath req.path)))
  | _ => false

theorem content_isolated_put_ok :
    ∃ (l : Ledger) (i : Inode), lookup l.db "/f".toList = some i ∧ i.sub = ["b0".toList] ∧ i.filesize = 7 := by
  obtain ⟨l, hr, hp⟩ := exists_reached Ledger.step Ledger.putsClear .start
    [.at 100 (.put ⟨"/f".toList, "RE<3,1>".toList⟩),
      .at 101 (.putOk ⟨"/f".toList, 7, ["b0".toList]⟩)]
    (fun l ↦ decide (l.committed "/f".toList = some (["b0".toList], 7)) &&
      (lookup l.db "/f".toList).any fun i : Inode ↦ i.valid && !i.isDirectory)
    (by decide +kernel)
  simp only [Bool.and_eq_true, decide_eq_true_eq, Option.any_eq_true, Bool.not_eq_true'] at hp
  obtain ⟨hc, i, hi, hv, hd⟩ := hp
  refine ⟨l, i, hi, (content_isolated (hr.mono fun l call h ↦ ?_)).1 _ i _ hi hv hd hc⟩
  obtain ⟨env, req⟩ := call
  cases req with
  | put req => trivial
  | putOk req => exact fun _ _ _ hs ↦ of_decide_eq_true h hs.1
  | _ => cases h

/-- A directory made below a file enters its name among the blocks of the file. -/
theorem content_not_isolated :
    ¬ ∀ l, Reaches Ledger.step (fun _ _ ↦ True) .start l →
      ∀ path i c, lookup l.db path = some i → i.valid = true → i.isDirectory = false →
        l.committed path = some c → i.sub = c.1 ∧ i.filesize = c.2 := by
  intro h
  obtain ⟨l, hr, hp⟩ := exists_reached Ledger.step (fun _ _ ↦ true) .start
    [.at 100 (.put ⟨"/f".toList, "RE<3,1>".toList⟩),
      .at 101 (.putOk ⟨"/f".toList, 7, ["b0".toList]⟩), .at 102 (.mkdir "/f/d".toList)]
    (fun l ↦ decide (l.committed "/f".toList = some (["b0".toList], 7)) &&
      (lookup l.db "/f".toList).any fun i : Inode ↦
        i.valid && !i.isDirectory && decide (i.sub = ["b0".toList, "d/".toList]))
    (by decide +kernel)
  simp only [Bool.and_eq_true, decide_eq_true_eq, Option.any_eq_true, Bool.not_eq_true'] at hp
  obtain ⟨hc, i, hi, ⟨hv, hd⟩, hs⟩ := hp
  have hsub := (h l (hr.mono fun _ _ _ ↦ trivial) _ i _ hi hv hd hc).1
  rw [hs] at hsub
  exact absurd hsub (by decide)

end Spkdfs
