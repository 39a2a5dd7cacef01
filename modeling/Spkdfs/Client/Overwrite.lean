import Spkdfs.Client.Rewriting

namespace Spkdfs

open Library Procedure Function

/-- The blocks that `write_data` fetches before it writes. -/
def Fetches (n filesize offset size i : Nat) : Prop :=
  i = offset / n ∧ offset < filesize ∧ offset % n ≠ 0 ∨
    i = (offset + size) / n ∧ offset + size < filesize ∧ offset / n ≠ (offset + size) / n ∧
      (offset + size) % n ≠ 0

instance (n filesize offset size i : Nat) : Decidable (Fetches n filesize offset size i) :=
  inferInstanceAs (Decidable (_ ∨ _))

/-- The block is found in the directory of the path as it was given. -/
def Inode.Local (path : Str) (j : Inode) (v : View) : Prop :=
  v.sdk.tmpPath j.fullpath.str = v.sdk.tmpPath path

instance (path : Str) (j : Inode) (v : View) : Decidable (j.Local path v) :=
  inferInstanceAs (Decidable (_ = _))

/-- A client that has not written yet: what is in the block files of the path that it has open. -/
structure Fetching (path : Str) (j : Inode) (blocks : List Str) (files : Nat → Option Str)
    (v₁ v : View) : Prop where
  within : SDK.Within path (·.Shows files ∅) v₁ v
  other : ¬ j.Local path v₁ → SDK.BlockFiles j.fullpath.str blocks v

section

variable {path : Str} {storage : StorageType} {nodes : Datanodes} {content : Str}
  {blocks : List Str} {j : Inode} {v v₁ w : View} {files : Nat → Option Str} {n offset k : Nat}
  {s block : Str}

theorem SDK.fetchBlock_local {t : TmpDir} {dirty : Finset Nat} (hd : SDK.Decodes nodes j blocks)
    (hb : blocks[k]? = some block) (hlocal : j.Local path v)
    (hdir : v.sdk.dirs (v.sdk.tmpPath path) = some t) (hshows : t.Shows files dirty)
    (hempty : (files k).getD [] = []) :
    ∃ t', (fetchBlock j (k : Nat) nodes).run v = some (.ok (), v.setDir path t') ∧
      t'.Shows (update files k (some block)) dirty := by
  obtain ⟨sub, hsub, hdecode⟩ := hd.sub_of_block hb
  have hown : v.sdk.dir j.fullpath.str = t := by
    rw [SDK.dir, hlocal, hdir, Option.getD_some]
  have hfound : v.sdk.dirs (v.sdk.tmpPath j.fullpath.str) = some t := by rw [hlocal, hdir]
  have hnonneg : ¬ (k : Int) < 0 := by omega
  have hread : (t.read k).any (· ≠ []) = false := by
    rw [hshows.read]
    cases hfile : files k with
    | none => rfl
    | some c =>
      rw [hfile, Option.getD_some] at hempty
      rw [hempty]
      rfl
  have hsaves := (hshows.save k []).save k block
  rw [update_idem] at hsaves
  refine ⟨_, ?_, hsaves⟩
  rw [fetchBlock, run_bind_ok (run_get v)]
  simp only [hnonneg, if_false, Int.toNat_natCast, hsub, hown, hread, Bool.false_eq_true, hdecode]
  rw [fillBlock_ok block hfound, setDir_congr hlocal]

/-- A block is not fetched when there is something in its file, or no entry for it. -/
theorem SDK.fetchBlock_skip (nodes : Datanodes) (hlocal : j.Local path v)
    (hskip : ((v.sdk.dir path).read k).getD [] ≠ [] ∨ j.sub.length ≤ k) :
    (fetchBlock j (k : Nat) nodes).run v = some (.ok (), v) := by
  have hnonneg : ¬ (k : Int) < 0 := by omega
  rw [fetchBlock, run_bind_ok (run_get v)]
  simp only [hnonneg, if_false, Int.toNat_natCast]
  cases hsub : j.sub[k]? with
  | none => rfl
  | some s =>
    have hlt : k < j.sub.length := (List.getElem?_eq_some_iff.mp hsub).1
    have hsome := hskip.resolve_right (Nat.not_le_of_lt hlt)
    have hown : v.sdk.dir j.fullpath.str = v.sdk.dir path := by rw [SDK.dir, SDK.dir, hlocal]
    cases hread : (v.sdk.dir path).read k with
    | none => exact absurd (congrArg (Option.getD · []) hread) hsome
    | some c =>
      rw [hread, Option.getD_some] at hsome
      simp only [hown, hread, Option.any_some, hsome, ne_eq, not_false_eq_true, decide_true, if_true]
      rfl

/-- A block is fetched if it is needed. In another directory it does not help the write. -/
theorem Fetching.fetch (h : Fetching path j blocks files v₁ w) (hd : SDK.Decodes nodes j blocks)
    (needed : Prop) [Decidable needed] (hk : needed → k < blocks.length)
    (hempty : needed → files k = none) :
    ∃ w', (if needed then SDK.fetchBlock j (k : Nat) nodes else pure ()).run w =
        some (.ok (), w') ∧
      Fetching path j blocks (fun i ↦ if i = k ∧ needed ∧ j.Local path v₁ then blocks[i]? else files i)
        v₁ w' := by
  have hsame : ¬ (needed ∧ j.Local path v₁) →
      (fun i ↦ if i = k ∧ needed ∧ j.Local path v₁ then blocks[i]? else files i) = files :=
    fun hno ↦ funext fun i ↦ if_neg fun hall ↦ hno hall.2
  by_cases hneeded : needed
  · have hlt := hk hneeded
    have hb : blocks[k]? = some blocks[k] := List.getElem?_eq_getElem hlt
    rw [if_pos hneeded]
    by_cases hlocal : j.Local path v₁
    · obtain ⟨t, hdir, hshows⟩ := h.within.own
      have hlocal' : j.Local path w := by rw [Inode.Local, h.within.tmpPath]; exact hlocal
      obtain ⟨t', hrun, hshows'⟩ := SDK.fetchBlock_local hd hb hlocal' hdir hshows
        (by rw [hempty hneeded, Option.getD_none])
      have hfiles : (fun i ↦ if i = k ∧ needed ∧ j.Local path v₁ then blocks[i]? else files i) =
          update files k (some blocks[k]) := by
        funext i
        by_cases hi : i = k
        · subst hi
          rw [if_pos ⟨rfl, hneeded, hlocal⟩, update_self, hb]
        · rw [if_neg fun hall ↦ hi hall.1, update_of_ne hi]
      refine ⟨_, hrun, ?_⟩
      rw [hfiles]
      exact ⟨⟨h.within.leader, h.within.progress, h.within.cache, h.within.tmpPath, t',
        View.dirs_setDir, hshows'⟩, fun hno ↦ absurd hlocal hno⟩
    · obtain ⟨w', hrun, hfiles, -⟩ := SDK.fetchBlock_run hd (h.other hlocal) hb
      refine ⟨w', hrun, ?_⟩
      rw [hsame fun hand ↦ hlocal hand.2]
      exact ⟨SDK.keeps_within_fetchBlock (fun hsame ↦ absurd hsame hlocal) _ _ _ h.within hrun,
        fun _ ↦ hfiles⟩
  · rw [if_neg hneeded, hsame fun hand ↦ hneeded hand.1]
    exact ⟨w, rfl, h⟩

/-- What is in the block files of the path after the blocks were fetched. -/
def kept (n filesize offset size : Nat) (blocks : List Str) (found : Prop) [Decidable found]
    (i : Nat) : Option Str :=
  if Fetches n filesize offset size i ∧ found then blocks[i]? else none

theorem WriteSession.fetched_run (h : WriteSession path storage nodes content blocks j v₁)
    (hn : toUInt64 storage.getBlockSize = n) (hsum : offset + s.length < 2 ^ 31)
    (hdir : v₁.sdk.dirs (v₁.sdk.tmpPath (simplifyPath path)) ≠ none ∨
      v₁.sdk.tmpPath (simplifyPath path) = v₁.sdk.tmpPath path) :
    ∃ v₂, (SDK.writeData path offset s nodes).run v₁ = some (.ok (), v₂) ∧
      SDK.Within path (·.Shows (SDK.appended n offset s
          (kept n content.length offset s.length blocks (j.Local path v₁))
          (Finset.Icc (offset / n) ((offset + s.length) / n)))
        (Finset.Icc (offset / n) ((offset + s.length) / n))) v₁ v₂ := by
  have hc := h.contains
  obtain ⟨hsize, hpos⟩ := hc.blockSize_eq
  rw [hn] at hsize hpos
  have hfullpath : j.fullpath.str = simplifyPath path := RocksDB.fullpath_of_lookup h.lookup
  -- a block that is fetched is there
  have hthere : ∀ x < content.length, x / n < blocks.length := by
    intro x hx
    have hlength := hc.begins.length_le
    rw [hc.uniform.length_flatten, hn] at hlength
    exact Nat.div_lt_of_lt_mul (by rw [Nat.mul_comm]; omega)
  have hstart : Fetching path j blocks (fun _ ↦ none) v₁ v₁ := by
    obtain ⟨t, hown, hshows⟩ := h.own
    refine ⟨.start hown hshows, fun hno ↦ ?_⟩
    rw [Inode.Local, hfullpath] at hno
    obtain ⟨t', ht'⟩ := Option.ne_none_iff_exists'.mp (hdir.resolve_right hno)
    rw [hfullpath]
    exact ⟨t', ht', .of_files_nil (h.other hno t' ht')⟩
  obtain ⟨u, hfirst, hu⟩ := hstart.fetch (k := offset / n) hc.decodes
    (offset < content.length ∧ offset % n ≠ 0) (fun hneed ↦ hthere _ hneed.1) fun _ ↦ rfl
  obtain ⟨w, hlast, hw⟩ := hu.fetch (k := (offset + s.length) / n) hc.decodes
    (offset + s.length < content.length ∧ offset / n ≠ (offset + s.length) / n ∧
      (offset + s.length) % n ≠ 0) (fun hneed ↦ hthere _ hneed.1)
    fun hneed ↦ if_neg fun hall ↦ hneed.2.1 hall.1.symm
  have hfiles : (fun i ↦ if i = (offset + s.length) / n ∧ (offset + s.length < content.length ∧
        offset / n ≠ (offset + s.length) / n ∧ (offset + s.length) % n ≠ 0) ∧ j.Local path v₁ then
      blocks[i]? else if i = offset / n ∧ (offset < content.length ∧ offset % n ≠ 0) ∧
        j.Local path v₁ then blocks[i]? else none) =
      kept n content.length offset s.length blocks (j.Local path v₁) := by
    funext i
    by_cases hend : i = (offset + s.length) / n ∧ (offset + s.length < content.length ∧
        offset / n ≠ (offset + s.length) / n ∧ (offset + s.length) % n ≠ 0) ∧ j.Local path v₁
    · rw [if_pos hend, kept, if_pos ⟨.inr ⟨hend.1, hend.2.1⟩, hend.2.2⟩]
    by_cases hbegin : i = offset / n ∧ (offset < content.length ∧ offset % n ≠ 0) ∧ j.Local path v₁
    · rw [if_neg hend, if_pos hbegin, kept, if_pos ⟨.inl ⟨hbegin.1, hbegin.2.1⟩, hbegin.2.2⟩]
    · rw [if_neg hend, if_neg hbegin, kept, if_neg]
      rintro ⟨hleft | hright, hlocal⟩
      · exact hbegin ⟨hleft.1, hleft.2, hlocal⟩
      · exact hend ⟨hright.1, hright.2, hlocal⟩
  rw [hfiles] at hw
  rw [← hc.filesize] at hfirst hlast
  obtain ⟨t, hown, hshows⟩ := hw.within.own
  obtain ⟨t', hwrite, hshows'⟩ := SDK.writeData_fetched_run h.cache hsize hpos hsum hfirst hlast hown
    hshows
  rw [Finset.empty_union] at hshows'
  exact ⟨_, hwrite, hw.within.leader, hw.within.progress, hw.within.cache, hw.within.tmpPath, t',
    View.dirs_setDir, hshows'⟩

/-- The place of a byte that may come out wrong, and the byte that comes out there: the old one where a
block was fetched, else the first one of the next block. -/
def misplaced (n offset : Nat) (s content : Str) (found : Prop) [Decidable found] : Nat × Char :=
  if offset % n ≠ 0 then
    if found then (offset, (content[offset]?).getD '\x00')
    else (offset / n * n, (s[0]?).getD '\x00')
  else if found ∧ Fetches n content.length offset s.length ((offset + s.length) / n) then
    ((offset + s.length) / n * n, (content[(offset + s.length) / n * n]?).getD '\x00')
  else (offset + s.length, (content[((offset + s.length) / n + 1) * n]?).getD '\x00')

/-- What the block files hold after the write. -/
def blocksLeft (n filesize offset : Nat) (s : Str) (blocks : List Str) (found : Prop)
    [Decidable found] : List Str :=
  blocksAfter blocks (SDK.appended n offset s (kept n filesize offset s.length blocks found)
      (Finset.Icc (offset / n) ((offset + s.length) / n)))
    (Finset.Icc (offset / n) ((offset + s.length) / n)) ((offset + s.length) / n)

section

variable {filesize i : Nat} {found : Prop} [Decidable found]

theorem blocksLeft_written (filesize : Nat) (blocks : List Str) (found : Prop) [Decidable found]
    (hfirst : offset / n ≤ i) (hlast : i ≤ (offset + s.length) / n) :
    (blocksLeft n filesize offset s blocks found)[i]? =
      some ((kept n filesize offset s.length blocks found i).getD [] ++ SDK.dataPart n offset s i) := by
  have hin : i ∈ Finset.Icc (offset / n) ((offset + s.length) / n) :=
    Finset.mem_Icc.mpr ⟨hfirst, hlast⟩
  rw [blocksLeft, getElem?_blocksAfter (fun k hk ↦ (Finset.mem_Icc.mp hk).2) hin, SDK.appended,
    if_pos hin, Option.getD_some]

theorem blocksLeft_before (hi : i < offset / n) (hlt : i < blocks.length) :
    (blocksLeft n filesize offset s blocks found)[i]? = blocks[i]? := by
  have hout : i ∉ Finset.Icc (offset / n) ((offset + s.length) / n) := fun hin ↦ by
    have hle := (Finset.mem_Icc.mp hin).1
    omega
  rw [blocksLeft, blocksAfter, List.getElem?_map, List.getElem?_range (by omega), Option.map_some,
    if_neg hout, List.getElem?_eq_getElem hlt, Option.getD_some]

theorem length_dataPart (s : Str) (hfirst : offset / n ≤ i) (hpos : 0 < n) :
    (SDK.dataPart n offset s i).length =
      min ((i + 1) * n) (offset + s.length) - max (i * n) offset := by
  have hlt : offset < (i + 1) * n := Nat.lt_mul_of_div_lt (Nat.lt_succ_of_le hfirst) hpos
  rw [SDK.dataPart, List.length_take, List.length_drop]
  rw [Nat.succ_mul] at hlt ⊢
  omega

theorem Inode.Contains.div_le (hc : j.Contains storage nodes content blocks)
    (hn : toUInt64 storage.getBlockSize = n) (hin : offset ≤ content.length) :
    offset / n ≤ blocks.length := by
  have hlength := hc.begins.length_le
  rw [hc.uniform.length_flatten, hn, Nat.mul_comm] at hlength
  exact Nat.div_le_of_le_mul (hin.trans hlength)

/-- Up to the first block that was written the blocks are whole, and up to the last one when the data
begins with a block. -/
theorem length_blocksLeft_take (found : Prop) [Decidable found] (s : Str)
    (hc : j.Contains storage nodes content blocks)
    (hn : toUInt64 storage.getBlockSize = n) (hin : offset ≤ content.length)
    (hi : i ≤ offset / n ∨ n ∣ offset ∧ i ≤ (offset + s.length) / n) :
    ((blocksLeft n content.length offset s blocks found).take i).flatten.length = i * n := by
  have hpos : 0 < n := hn ▸ hc.blockSize_eq.2
  have hthere := hc.div_le hn hin
  refine length_flatten_take fun k hk ↦ ?_
  by_cases hbefore : k < offset / n
  · have hlt : k < blocks.length := by omega
    refine ⟨blocks[k], ?_, hn ▸ hc.uniform _ (List.getElem_mem hlt)⟩
    rw [blocksLeft_before hbefore hlt, List.getElem?_eq_getElem hlt]
  · obtain ⟨⟨a, ha⟩, hlast⟩ := hi.resolve_left (by omega)
    have hfirst : offset / n ≤ k := Nat.le_of_not_lt hbefore
    refine ⟨_, blocksLeft_written _ _ _ hfirst (by omega), ?_⟩
    have hnone : kept n content.length offset s.length blocks found k = none := by
      rw [kept, if_neg]
      rintro ⟨⟨-, -, hmod⟩ | ⟨hend, -⟩, -⟩
      · rw [ha, Nat.mul_mod_right] at hmod
        exact hmod rfl
      · omega
    have hle : (k + 1) * n ≤ offset + s.length :=
      (Nat.mul_le_mul_right n (by omega)).trans (Nat.div_mul_le_self _ n)
    have hbegin : offset ≤ k * n := by
      rw [ha, Nat.mul_div_cancel_left a hpos] at hfirst
      rw [ha, Nat.mul_comm]
      exact Nat.mul_le_mul_right n hfirst
    rw [hnone, Option.getD_none, List.nil_append, length_dataPart s hfirst hpos, Nat.min_eq_left hle,
      Nat.max_eq_left hbegin, Nat.succ_mul]
    omega

theorem Inode.Contains.length_take (hc : j.Contains storage nodes content blocks)
    (hn : toUInt64 storage.getBlockSize = n) (hin : offset ≤ content.length) :
    (blocks.take (offset / n)).flatten.length = offset / n * n := by
  have hthere := hc.div_le hn hin
  rw [(hc.uniform.take _).length_flatten, List.length_take_of_le hthere, hn]

/-- A byte of the content, in its block. -/
theorem Inode.Contains.exists_block (hc : j.Contains storage nodes content blocks)
    (hn : toUInt64 storage.getBlockSize = n) {x : Nat} (hx : x < n)
    (hin : i * n + x < content.length) :
    ∃ block, blocks[i]? = some block ∧ x < block.length ∧ block[x]? = content[i * n + x]? := by
  have hlength := hc.begins.length_le
  rw [hc.uniform.length_flatten, hn] at hlength
  have hlt : i < blocks.length := by
    by_contra hge
    have hmul : blocks.length * n ≤ i * n := Nat.mul_le_mul_right n (Nat.le_of_not_lt hge)
    omega
  have hblock : blocks[i].length = n := hn ▸ hc.uniform _ (List.getElem_mem hlt)
  have hbefore : (blocks.take i).flatten.length = i * n := by
    rw [← hn, (hc.uniform.take i).length_flatten, List.length_take_of_le hlt.le]
  have hbyte := getElem?_flatten (x := x) (List.getElem?_eq_getElem hlt) (by omega)
  obtain ⟨pad, hpad⟩ := hc.begins
  rw [hbefore, ← hpad, List.getElem?_append_left hin] at hbyte
  exact ⟨_, List.getElem?_eq_getElem hlt, by omega, hbyte.symm⟩

theorem blocksLeft_eq_writtenOver
    (hkept : ∀ i, ¬ (Fetches n filesize offset s.length i ∧ found)) :
    blocksLeft n filesize offset s blocks found = writtenOver n offset s blocks := by
  refine blocksAfter_congr _ fun i hi ↦ ?_
  rw [SDK.appended, if_pos hi, kept, if_neg (hkept i)]
  rfl

/-- The next block begins where the last one that was written ends. -/
theorem Inode.Contains.next_block (hc : j.Contains storage nodes content blocks)
    (hn : toUInt64 storage.getBlockSize = n) (i : Nat) :
    ((blocks.drop i).flatten[0]?).getD '\x00' = (content[i * n]?).getD '\x00' := by
  have hpos : 0 < n := hn ▸ hc.blockSize_eq.2
  by_cases hin : i * n < content.length
  · obtain ⟨block, hblock, hlt, hbyte⟩ := hc.exists_block hn hpos (i := i) hin
    obtain ⟨hi, rfl⟩ := List.getElem?_eq_some_iff.mp hblock
    rw [List.drop_eq_getElem_cons hi, List.flatten_cons, List.getElem?_append_left hlt, hbyte,
      Nat.add_zero]
  · have hcount := hc.count
    rw [hn] at hcount
    have hend : blocks.length ≤ i := by
      refine Nat.le_of_lt_succ (Nat.lt_of_mul_lt_mul_right (a := n) ?_)
      rw [Nat.succ_mul]
      omega
    rw [List.drop_eq_nil_of_le hend, List.getElem?_eq_none (Nat.le_of_not_lt hin)]
    rfl

theorem misplaced_spec (found : Prop) [Decidable found]
    (hc : j.Contains storage nodes content blocks)
    (hn : toUInt64 storage.getBlockSize = n) (hs : s ≠ []) (hin : offset + s.length ≤ content.length)
    (hnot : ¬ (n ∣ offset ∧ offset + s.length = content.length)) :
    (misplaced n offset s content found).1 < content.length ∧
      ((blocksLeft n content.length offset s blocks found).flatten[
          (misplaced n offset s content found).1]?).getD '\x00' =
        (misplaced n offset s content found).2 := by
  have hpos : 0 < n := hn ▸ hc.blockSize_eq.2
  have hsome := List.length_pos_of_ne_nil hs
  have hdiv := Nat.div_add_mod offset n
  rw [Nat.mul_comm] at hdiv
  have hlt := Nat.mod_lt offset hpos
  have horder : offset / n ≤ (offset + s.length) / n := Nat.div_le_div_right (Nat.le_add_right _ _)
  rw [misplaced]
  by_cases hmod : offset % n ≠ 0
  · have hbefore := length_blocksLeft_take found s hc hn (by omega)
      (.inl (le_refl (offset / n)))
    have hwritten := blocksLeft_written content.length blocks found
      (le_refl (offset / n)) horder
    rw [if_pos hmod]
    by_cases hfound : found
    · -- the data is behind the whole block
      obtain ⟨block, hblock, hx, hbyte⟩ := hc.exists_block hn hlt (i := offset / n) (by omega)
      rw [if_pos hfound]
      rw [kept, if_pos ⟨.inl ⟨rfl, by omega, hmod⟩, hfound⟩, hblock, Option.getD_some] at hwritten
      have hplace := getElem?_flatten hwritten (x := offset % n)
        (by rw [List.length_append]; omega)
      rw [hbefore, hdiv, List.getElem?_append_left hx, hbyte, hdiv] at hplace
      exact ⟨by omega, congrArg (Option.getD · _) hplace⟩
    · -- the data is at the start of the block file
      rw [if_neg hfound]
      rw [kept, if_neg fun hand ↦ hfound hand.2, Option.getD_none, List.nil_append] at hwritten
      have hpart := length_dataPart s (le_refl (offset / n)) hpos
      rw [Nat.succ_mul] at hpart
      have hnone : offset / n * n - offset = 0 := by omega
      have hfirst : (SDK.dataPart n offset s (offset / n))[0]? = s[0]? := by
        rw [SDK.dataPart, hnone, List.drop_zero, List.getElem?_take_of_lt (by rw [Nat.succ_mul]; omega)]
      have hplace := getElem?_flatten hwritten (x := 0) (by omega)
      rw [hbefore, Nat.add_zero, hfirst] at hplace
      exact ⟨by omega, congrArg (Option.getD · _) hplace⟩
  · rw [if_neg hmod]
    have hdvd : n ∣ offset := Nat.dvd_of_mod_eq_zero (not_not.mp hmod)
    by_cases hend : found ∧ Fetches n content.length offset s.length ((offset + s.length) / n)
    · obtain ⟨hfound, hfetches⟩ := id hend
      obtain ⟨-, hless, -, hrest⟩ := hfetches.resolve_left fun hleft ↦ hmod hleft.2.2
      have hstart := Nat.div_mul_le_self (offset + s.length) n
      obtain ⟨block, hblock, hx, hbyte⟩ := hc.exists_block hn hpos
        (i := (offset + s.length) / n) (by omega)
      have hbefore := length_blocksLeft_take found s hc hn (by omega)
        (.inr ⟨hdvd, le_refl ((offset + s.length) / n)⟩)
      have hwritten := blocksLeft_written content.length blocks found horder le_rfl
      rw [if_pos hend]
      rw [kept, if_pos ⟨hfetches, hfound⟩, hblock, Option.getD_some] at hwritten
      have hplace := getElem?_flatten hwritten (x := 0) (by rw [List.length_append]; omega)
      rw [hbefore, List.getElem?_append_left hx, hbyte, Nat.add_zero] at hplace
      exact ⟨by omega, congrArg (Option.getD · _) hplace⟩
    · have hnone : ∀ i, ¬ (Fetches n content.length offset s.length i ∧ found) := by
        rintro i ⟨⟨-, -, hleft⟩ | hright, hfound⟩
        · exact hmod hleft
        · obtain ⟨rfl, hrest⟩ := hright
          exact hend ⟨hfound, .inr ⟨rfl, hrest⟩⟩
      have hnext := hc.next_block hn ((offset + s.length) / n + 1)
      have hbefore : ((blocks.take (offset / n)).flatten ++ s).length = offset + s.length := by
        rw [List.length_append, hc.length_take hn (by omega)]
        omega
      rw [if_neg hend, blocksLeft_eq_writtenOver hnone, flatten_writtenOver hpos,
        List.getElem?_append_right (by rw [hbefore]), hbefore, Nat.sub_self]
      exact ⟨by omega, hnext⟩

end

section

variable {d : Shards} {outcomes : List Bool} {during : List Action}

/-- What is written from the start of a block to the end of the content. -/
theorem Inode.Contains.written_end (hc : j.Contains storage nodes content blocks)
    (hn : toUInt64 storage.getBlockSize = n) (hoffset : n ∣ offset)
    (hend : offset + s.length = content.length) :
    Aligned n (writtenOver n offset s blocks) ∧
      (writtenOver n offset s blocks).flatten = overwrite offset s content := by
  have hpos : 0 < n := hn ▸ hc.blockSize_eq.2
  have hcount := hc.count
  have hbound : offset + s.length < ((offset + s.length) / n + 1) * n :=
    Nat.lt_mul_of_div_lt (Nat.lt_succ_self _) hpos
  have hall : blocks.length ≤ (offset + s.length) / n + 1 := by
    rw [hn] at hcount
    refine Nat.le_of_lt_succ (Nat.lt_of_mul_lt_mul_right (a := n) ?_)
    rw [Nat.succ_mul]
    omega
  have hstart : content.take offset = (blocks.take (offset / n)).flatten := by
    have hlength := hc.length_take hn (show offset ≤ content.length by omega)
    rw [Nat.div_mul_cancel hoffset] at hlength
    have hpre : (blocks.take (offset / n)).flatten <+: blocks.flatten := by
      conv_rhs => rw [← List.take_append_drop (offset / n) blocks, List.flatten_append]
      exact List.prefix_append _ _
    obtain ⟨pad, hpad⟩ := hc.begins
    rw [List.prefix_iff_eq_take.mp hpre, hlength, ← hpad,
      List.take_append_of_le_length (by omega)]
  have hflatten : (writtenOver n offset s blocks).flatten = overwrite offset s content := by
    rw [flatten_writtenOver hpos, List.drop_eq_nil_of_le hall, List.flatten_nil, List.append_nil,
      overwrite_end hend, hstart]
  refine ⟨⟨fun i hi ↦ ?_, ?_⟩, hflatten⟩
  · rw [length_writtenOver, Nat.max_eq_right hall] at hi
    have hkept : ∀ i, ¬ (Fetches n content.length offset s.length i ∧ False) := fun i hand ↦ hand.2
    rw [← blocksLeft_eq_writtenOver hkept]
    exact length_blocksLeft_take _ _ hc hn (by omega) (.inr ⟨hoffset, by omega⟩)
  · rw [hflatten, length_overwrite hend.le, length_writtenOver, Nat.max_eq_right hall]
    omega

/-- The end of the data is found again from the last block. -/
theorem Inode.Contains.writtenSize_end (hc : j.Contains storage nodes content blocks)
    (hn : toUInt64 storage.getBlockSize = n) (hoffset : n ∣ offset)
    (hend : offset + s.length = content.length) (hsmall : content.length < 2 ^ 31) :
    toUInt64 (toInt32 (SDK.writtenSize j ((offset + s.length) / n)
      (SDK.dataPart n offset s ((offset + s.length) / n)))) = content.length := by
  obtain ⟨hsize, hpos⟩ := hc.blockSize_eq
  rw [hn] at hsize hpos
  have horder : offset / n ≤ (offset + s.length) / n := Nat.div_le_div_right (Nat.le_add_right _ _)
  have hlength := length_dataPart s horder hpos
  have hbound : offset + s.length < ((offset + s.length) / n + 1) * n :=
    Nat.lt_mul_of_div_lt (Nat.lt_succ_self _) hpos
  have hbegin : offset ≤ (offset + s.length) / n * n := by
    have hmul := Nat.mul_le_mul_right n horder
    rwa [Nat.div_mul_cancel hoffset] at hmul
  have hstart := Nat.div_mul_le_self (offset + s.length) n
  rw [Nat.min_eq_right hbound.le, Nat.max_eq_left hbegin] at hlength
  have hblock : toUInt64 (toInt32 (SDK.dataPart n offset s ((offset + s.length) / n)).length) =
      (SDK.dataPart n offset s ((offset + s.length) / n)).length := toUInt64_toInt32 (by omega)
  rw [SDK.writtenSize, SDK.toUInt64_getBlockSize hsize, hblock, hc.filesize, hlength,
    Nat.mod_eq_of_lt (by omega), Nat.max_eq_left (by omega), toUInt64_toInt32 hsmall]

theorem WriteSession.overwrite_end
    (h : WriteSession path storage (d.toDatanodes outcomes) content blocks j v₁)
    (hn : toUInt64 storage.getBlockSize = n) (hoffset : n ∣ offset)
    (hend : offset + s.length = content.length) (hsmall : content.length < 2 ^ 31)
    (hdir : v₁.sdk.dirs (v₁.sdk.tmpPath (simplifyPath path)) ≠ none ∨
      v₁.sdk.tmpPath (simplifyPath path) = v₁.sdk.tmpPath path)
    (hd : ∀ v₂, (SDK.writeData path offset s (d.toDatanodes outcomes)).run v₁ = some (.ok (), v₂) →
      d.Stores storage outcomes ((SDK.dirtyBlocks (v₂.sdk.dir path)).map (·.2)))
    (hduring : ∀ a ∈ during, a.Spares (simplifyPath path))
    (hput : ∀ filesize sub, ∃ entry l,
      v₁.leader.rpc (.putOk ⟨path, filesize, sub⟩) during = some (.ok entry, l)) :
    RewrittenAs (overwrite offset s content) path offset s (d.toDatanodes outcomes) during v₁ := by
  have hmod : offset % n = 0 := Nat.mod_eq_zero_of_dvd hoffset
  obtain ⟨v₂, commit, v₃, hwrite, hclose, hclosed, htmp, hholds, hothers⟩ :=
    h.rewrite_run hn (by omega) (by omega) (by omega) hd hduring hput
  obtain ⟨haligned, hflatten⟩ := h.contains.written_end hn hoffset hend
  have hlength := length_overwrite (s := s) hend.le
  rw [h.contains.writtenSize_end hn hoffset hend hsmall, ← hlength] at hclosed
  refine ⟨v₂, commit, v₃, hwrite, hclose, hclosed.rereadAs hn h.contains.blockSize haligned ?_ ?_ ?_⟩
  · rw [hflatten]
  · rwa [hlength]
  · intro v' ho
    refine ho.blockFiles hholds ?_
    rw [htmp]
    by_cases hsame : v₁.sdk.tmpPath (simplifyPath path) = v₁.sdk.tmpPath path
    · exact .inr hsame
    · rw [hothers _ hsame]
      exact hdir

/-- Without the directory that `read_data` uses, no byte of the file is read again. -/
theorem ClosedFile.not_rereadAs {filesize : Nat} (h : ClosedFile path storage nodes filesize blocks v)
    (hpos : 0 < storage.getBlockSize) (hblocks : blocks ≠ []) (hcontent : content ≠ [])
    (hsmall : content.length < 2 ^ 31)
    (hdir : v.sdk.dirs (v.sdk.tmpPath (simplifyPath path)) = none)
    (hne : v.sdk.tmpPath (simplifyPath path) ≠ v.sdk.tmpPath path) :
    ¬ RereadAs content path nodes v := by
  intro hread
  have hsize := congrArg List.length (h.get_of_rereadAs hread)
  rw [length_resizeFile] at hsize
  obtain ⟨v', ho⟩ := hread.1
  obtain ⟨j', hc, hfullpath, hblockSize, hfilesize, hdecodes⟩ := h.opened ho hpos
  obtain ⟨w, hrun⟩ := (hread.2 v' ho).2 hsmall 0 1 (by decide)
  have hnone := ho.no_blockFiles hdir hne
  rw [← hfullpath] at hnone
  have hsub : j'.sub ≠ [] := by
    intro hnil
    have hzero := hdecodes.length_eq
    rw [hnil, List.length_nil, List.length_eq_zero_iff] at hzero
    exact hblocks hzero
  have hsome := List.length_pos_of_ne_nil hcontent
  rw [SDK.readData_absent nodes hc hsub hblockSize (StorageType.blockSize_eq hpos).2 (by omega)
    hnone] at hrun
  cases hrun

/-- A block that has to be fetched cannot be, without the directory. -/
theorem WriteSession.writeData_absent (h : WriteSession path storage nodes content blocks j v₁)
    (hn : toUInt64 storage.getBlockSize = n) (hsum : offset + s.length < 2 ^ 31)
    (hneeds : ∃ i, Fetches n content.length offset s.length i)
    (hdir : v₁.sdk.dirs (v₁.sdk.tmpPath (simplifyPath path)) = none) :
    ∃ f w, (SDK.writeData path offset s nodes).run v₁ = some (.error f, w) := by
  have hc := h.contains
  obtain ⟨hsize, hpos⟩ := hc.blockSize_eq
  rw [hn] at hsize hpos
  have hlength := hc.begins.length_le
  rw [hc.uniform.length_flatten, hn, hc.decodes.length_eq, Nat.mul_comm] at hlength
  have hthere : ∀ x < content.length, x / n < j.sub.length :=
    fun x hx ↦ Nat.div_lt_of_lt_mul (hx.trans_le hlength)
  have habsent : ∀ x < content.length, ∃ f w,
      (SDK.fetchBlock j ((x / n : Nat) : Int) nodes).run v₁ = some (.error f, w) := by
    intro x hx
    rw [← RocksDB.fullpath_of_lookup h.lookup] at hdir
    exact ⟨_, _, SDK.fetchBlock_absent (hthere x hx) hdir⟩
  have hget : (SDK.getInode path).run v₁ = some (.ok j, v₁) := SDK.getInode_ok.mpr ⟨h.cache, rfl⟩
  have hne : j.getBlockSize ≠ 0 := by omega
  have hmod : (offset + s.length) % 2 ^ 64 = offset + s.length := Nat.mod_eq_of_lt (by omega)
  have hback : (((offset + s.length) / n + 1 : Nat) : Int) - 1 =
      (((offset + s.length) / n : Nat) : Int) := by omega
  have hindex : ((offset / n : Nat) : Int) ≠ (((offset + s.length) / n : Nat) : Int) ↔
      offset / n ≠ (offset + s.length) / n := by rw [Ne, Ne, Int.natCast_inj]
  rw [SDK.writeData, run_bind_ok hget]
  simp only [SDK.getIndexs_eq hsize hsum, SDK.toUInt64_getBlockSize hsize, hne, if_false, hback, hmod,
    hindex, hc.filesize]
  by_cases hfirst : offset < content.length ∧ offset % n ≠ 0
  · obtain ⟨f, w, hf⟩ := habsent _ hfirst.1
    rw [if_pos hfirst]
    exact ⟨f, w, run_bind_error hf _⟩
  · have hnothing : (pure () : Method Unit).run v₁ = some (.ok (), v₁) := rfl
    obtain ⟨i, ⟨-, hleft⟩ | ⟨-, hright⟩⟩ := hneeds
    · exact absurd hleft hfirst
    · obtain ⟨f, w, hf⟩ := habsent _ hright.1
      rw [if_neg hfirst, run_bind_ok hnothing, if_pos hright]
      exact ⟨f, w, run_bind_error hf _⟩

/-- What must hold of a write inside a file that is read again as it should be. -/
theorem WriteSession.overwrite_only
    (h : WriteSession path storage (d.toDatanodes outcomes) content blocks j v₁)
    (hs : s ≠ []) (hin : offset + s.length ≤ content.length) (hsmall : content.length < 2 ^ 31)
    (hn : toUInt64 storage.getBlockSize = n)
    (hdiffer : (overwrite offset s content)[(misplaced n offset s content (j.Local path v₁)).1]? ≠
      some (misplaced n offset s content (j.Local path v₁)).2)
    (hd : ∀ v₂, (SDK.writeData path offset s (d.toDatanodes outcomes)).run v₁ = some (.ok (), v₂) →
      d.Stores storage outcomes ((SDK.dirtyBlocks (v₂.sdk.dir path)).map (·.2)))
    (hduring : ∀ a ∈ during, a.Spares (simplifyPath path))
    (hput : ∀ filesize sub, ∃ entry l,
      v₁.leader.rpc (.putOk ⟨path, filesize, sub⟩) during = some (.ok entry, l))
    (hread : RewrittenAs (overwrite offset s content) path offset s (d.toDatanodes outcomes) during
      v₁) :
    (n ∣ offset ∧ offset + s.length = content.length) ∧
      (v₁.sdk.dirs (v₁.sdk.tmpPath (simplifyPath path)) ≠ none ∨
        v₁.sdk.tmpPath (simplifyPath path) = v₁.sdk.tmpPath path) := by
  obtain ⟨v₂, commit, v₃, hwrite, hclose, hreread⟩ := hread
  have hsum : offset + s.length < 2 ^ 31 := by omega
  have hlength := length_overwrite (s := s) hin
  have hdir : v₁.sdk.dirs (v₁.sdk.tmpPath (simplifyPath path)) ≠ none ∨
      v₁.sdk.tmpPath (simplifyPath path) = v₁.sdk.tmpPath path := by
    by_contra hno
    rw [not_or, not_not] at hno
    by_cases hneeds : ∃ i, Fetches n content.length offset s.length i
    · obtain ⟨f, w, hf⟩ := h.writeData_absent hn hsum hneeds hno.1
      rw [hwrite] at hf
      cases hf
    · obtain ⟨w₂, commit', w₃, hwrite', hclose', hclosed, htmp, -, hothers⟩ :=
        h.rewrite_run hn hsum (fun hleft ↦ hneeds ⟨_, .inl ⟨rfl, hleft⟩⟩)
          (fun hright ↦ hneeds ⟨_, .inr ⟨rfl, hright⟩⟩) hd hduring hput
      obtain ⟨-, rfl⟩ := Prod.mk.inj (Option.some.inj (hwrite.symm.trans hwrite'))
      obtain ⟨-, rfl⟩ := Prod.mk.inj (Option.some.inj (hclose.symm.trans hclose'))
      have hsome := List.length_pos_of_ne_nil hs
      refine hclosed.not_rereadAs h.contains.blockSize ?_ ?_ ?_ ?_ ?_ hreread
      · refine List.ne_nil_of_length_pos ?_
        rw [length_writtenOver]
        exact (Nat.succ_pos _).trans_le (Nat.le_max_right _ _)
      · refine List.ne_nil_of_length_pos ?_
        rw [hlength]
        omega
      · rwa [hlength]
      · rw [htmp, hothers _ hno.2]
        exact hno.1
      · rw [htmp]
        exact hno.2
  refine ⟨?_, hdir⟩
  by_contra hnot
  obtain ⟨hplace, hbyte⟩ := misplaced_spec (j.Local path v₁) h.contains hn hs hin hnot
  obtain ⟨w₂, hwrite', hwithin⟩ := h.fetched_run hn hsum hdir
  obtain ⟨-, rfl⟩ := Prod.mk.inj (Option.some.inj (hwrite.symm.trans hwrite'))
  have horder : offset / n ≤ (offset + s.length) / n := Nat.div_le_div_right (Nat.le_add_right _ _)
  have hlast : (offset + s.length) / n < 2 ^ 31 := (Nat.div_le_self _ _).trans_lt hsum
  obtain ⟨commit', w₃, hclose', hclosed, -⟩ := h.close_run hwithin (Finset.right_mem_Icc.mpr horder)
    (fun i hi ↦ (Finset.mem_Icc.mp hi).2) hlast (hd _ hwrite') hduring hput
  obtain ⟨-, rfl⟩ := Prod.mk.inj (Option.some.inj (hclose.symm.trans hclose'))
  rw [← blocksLeft] at hclosed
  have hget := hclosed.get_of_rereadAs hreread
  have hsize := congrArg List.length hget
  rw [length_resizeFile, hlength] at hsize
  rw [hsize] at hget
  refine hdiffer ?_
  rw [← hget, getElem?_resizeFile hplace, hbyte]

/-- A write inside a file is read again, with all other bytes as they were, if it starts with a block
and reaches to the end of the file. Else a byte comes out at another place, or not at all. -/
theorem overwrite_reread_iff
    (h : StoredFile path storage (d.toDatanodes outcomes) content blocks j v)
    (ho : OpenedToWrite path v v₁) (hs : s ≠ []) (hin : offset + s.length ≤ content.length)
    (hsmall : content.length < 2 ^ 31) (hn : toUInt64 storage.getBlockSize = n)
    (hdiffer : (overwrite offset s content)[(misplaced n offset s content (j.Local path v)).1]? ≠
      some (misplaced n offset s content (j.Local path v)).2)
    (hd : ∀ v₂, (SDK.writeData path offset s (d.toDatanodes outcomes)).run v₁ = some (.ok (), v₂) →
      d.Stores storage outcomes ((SDK.dirtyBlocks (v₂.sdk.dir path)).map (·.2)))
    (hduring : ∀ a ∈ during, a.Spares (simplifyPath path))
    (hput : ∀ filesize sub, ∃ entry l,
      v₁.leader.rpc (.putOk ⟨path, filesize, sub⟩) during = some (.ok entry, l)) :
    RewrittenAs (overwrite offset s content) path offset s (d.toDatanodes outcomes) during v₁ ↔
      (n ∣ offset ∧ offset + s.length = content.length) ∧
        (v.sdk.dirs (v.sdk.tmpPath (simplifyPath path)) ≠ none ∨
          v.sdk.tmpPath (simplifyPath path) = v.sdk.tmpPath path) := by
  obtain ⟨⟨deadline, hsession⟩, htmp, hothers⟩ := h.opened ho
  have hdir : (v₁.sdk.dirs (v₁.sdk.tmpPath (simplifyPath path)) ≠ none ∨
      v₁.sdk.tmpPath (simplifyPath path) = v₁.sdk.tmpPath path) ↔
        v.sdk.dirs (v.sdk.tmpPath (simplifyPath path)) ≠ none ∨
          v.sdk.tmpPath (simplifyPath path) = v.sdk.tmpPath path := by
    rw [htmp]
    by_cases hsame : v.sdk.tmpPath (simplifyPath path) = v.sdk.tmpPath path
    · exact iff_of_true (.inr hsame) (.inr hsame)
    · rw [hothers _ hsame]
  constructor
  · intro hread
    have hlocal : Inode.Local path { j with ddlLock := deadline } v₁ ↔ j.Local path v := by
      rw [Inode.Local, Inode.Local, htmp]
    simp only [← hlocal] at hdiffer
    obtain ⟨haligned, hfound⟩ := hsession.overwrite_only hs hin hsmall hn hdiffer hd hduring hput hread
    exact ⟨haligned, hdir.mp hfound⟩
  · rintro ⟨⟨hoffset, hend⟩, hfound⟩
    exact hsession.overwrite_end hn hoffset hend hsmall (hdir.mpr hfound) hd hduring hput

end

end

def editHash : Str := "BA7816BF8F01CFEA414140DE5DAE2223B00361A396177A9CB410FF61F20015AD".toList

/-- A datanode that keeps the block of a file and another one that is written later. -/
def editShards (written : Str) : Shards where
  sha256sum s := if s = written then editHash else pairHash
  code := mirrorCode
  nodes := ["10.0.0.2:8002".toList]
  fetch _ blkid := return if blkid = editHash then written else pairBlock

def editNodes (written : Str) : Datanodes := (editShards written).toDatanodes [true]

def editPut (written : Str) : Option (Except Fault (List Fault) × View) :=
  (SDK.put pairContent "/f".toList "RE<1,1>".toList (editShards written) [true]
    ⟨[.apply], [.apply], [.apply]⟩).run pairView

def editStored (written : Str) : View := ((editPut written).map (·.2)).getD pairView

def editOpen (written : Str) : Option (Except Fault Unit × View) :=
  (SDK.open "/f".toList 1 { lock := [.apply], seen := 4 }).run (editStored written)

def editOpened (written : Str) : View := ((editOpen written).map (·.2)).getD pairView

section

variable {written : Str}

theorem editShards_printed : (editShards written).Printed where
  hash s := by
    show (if s = written then editHash else pairHash) ≠ [] ∧
      ∀ c ∈ if s = written then editHash else pairHash, c.isAlphanum = true
    split_ifs
    · unfold editHash
      rw [String.toList_ofList]
      exact ⟨List.cons_ne_nil _ _, List.all_eq_true.mp rfl⟩
    · exact pairShards_printed.hash s
  nodes := pairShards_printed.nodes

theorem edit_uploaded (hne : pairBlock ≠ written)
    (hput : (editPut written).map (·.1) = some (.ok [])) :
    Uploaded pairContent "/f".toList (.re 1 1) (editShards written) pairView (editStored written) := by
  have hrun : editPut written = some (.ok [], editStored written) := by
    obtain ⟨⟨r, w⟩, hw, hr⟩ := Option.map_eq_some_iff.mp hput
    obtain rfl : r = .ok [] := hr
    rw [editStored, hw]
    rfl
  refine ⟨editShards_printed, pairShards_faithful, ?_, by decide, ⟨_, _, .refl⟩, le_rfl, by decide, ?_,
    "RE<1,1>".toList, [true], ⟨[.apply], [.apply], [.apply]⟩, by decide, ?_, ?_, hrun⟩
  · intro block hb shards hencode shard hs node _
    rw [splitAllBlock_pair, List.mem_singleton] at hb
    obtain rfl := Except.ok.inj hencode
    rw [List.eq_of_mem_replicate hs, hb]
    have hhash : (editShards written).sha256sum pairBlock = pairHash := if_neg hne
    rw [hhash]
    have hother : pairHash ≠ editHash := by
      unfold pairHash editHash
      rw [String.toList_ofList, String.toList_ofList]
      decide
    exact congrArg Except.ok (if_neg hother)
  · intro q hq
    cases hq
  · intro stored hs
    exact List.mem_singleton.mp hs
  · intro a ha
    obtain rfl : a = .apply := by simpa using ha
    exact trivial

theorem edit_opened (hopen : (editOpen written).map (fun r ↦ (r.1, r.2.leader.applied.length)) =
    some (.ok (), 4)) : OpenedToWrite "/f".toList (editStored written) (editOpened written) := by
  obtain ⟨⟨r, w⟩, hw, hr⟩ := Option.map_eq_some_iff.mp hopen
  obtain ⟨rfl, hlength⟩ := Prod.mk.inj hr
  have hview : editOpened written = w := by
    rw [editOpened, hw]
    rfl
  rw [hview]
  refine ⟨1, { lock := [.apply], seen := 4 }, by decide, by decide, ?_, hw, hlength.symm⟩
  intro a ha
  obtain rfl := List.mem_singleton.mp ha
  exact trivial

theorem edit_spares : ∀ a ∈ [Action.apply], a.Spares (simplifyPath "/f".toList) := by
  intro a ha
  obtain rfl := List.mem_singleton.mp ha
  exact trivial

theorem editShards_stores : (editShards written).Stores (.re 1 1) [true] [written] := by
  refine ⟨editShards_printed, List.cons_ne_nil _ _, by simp, pairShards_faithful, fun block hb ↦ ?_⟩
  obtain rfl := List.mem_singleton.mp hb
  refine ⟨[block], rfl, le_rfl, fun shard hs node _ ↦ ?_⟩
  rw [List.mem_singleton.mp hs]
  have hhash : (editShards block).sha256sum block = editHash := if_pos rfl
  rw [hhash]
  exact congrArg Except.ok (if_pos rfl)

/-- What is written goes to the first block. -/
theorem edit_stores {content : Str} {blocks : List Str} {j : Inode}
    (h : WriteSession "/f".toList (.re 1 1) (editNodes written) content blocks j
      (editOpened written)) (hlength : written.length < 1048576) (v₂ : View)
    (hwrite : (SDK.writeData "/f".toList 0 written (editNodes written)).run (editOpened written) =
      some (.ok (), v₂)) :
    (editShards written).Stores (.re 1 1) [true]
      ((SDK.dirtyBlocks (v₂.sdk.dir "/f".toList)).map (·.2)) := by
  have hn : toUInt64 (StorageType.getBlockSize (.re 1 1)) = 1048576 := by decide
  have hlast : (0 + written.length) / 1048576 = 0 := by omega
  have hblocks : Finset.Icc (0 / 1048576) ((0 + written.length) / 1048576) = {0} := by
    rw [hlast]
    rfl
  have hpart : SDK.dataPart 1048576 0 written 0 = written :=
    List.take_of_length_le (by rw [List.length_drop]; omega)
  rw [h.dirtyBlocks_written hn (by omega) (by omega) (by omega) hwrite, hblocks,
    Finset.sort_singleton, List.map_singleton, List.map_singleton, hpart]
  exact editShards_stores

end

/-- Both bytes of the file are written. -/
theorem overwrite_reread_whole :
    RewrittenAs "cd".toList "/f".toList 0 "cd".toList (editNodes "cd".toList) [.apply]
      (editOpened "cd".toList) := by
  obtain ⟨j, hstored⟩ : ∃ j, StoredFile "/f".toList (.re 1 1) (editNodes "cd".toList) pairContent
      (splitAllBlock pairContent (toUInt64 (StorageType.getBlockSize (.re 1 1)))) j
        (editStored "cd".toList) :=
    (edit_uploaded (by decide +kernel) (by decide +kernel)).storedFile ⟨rfl, rfl⟩
  have hopened : OpenedToWrite "/f".toList (editStored "cd".toList) (editOpened "cd".toList) :=
    edit_opened (by decide +kernel)
  obtain ⟨⟨deadline, hsession⟩, -⟩ := hstored.opened hopened
  have hdiffer : (overwrite 0 "cd".toList pairContent)[(misplaced 1048576 0 "cd".toList pairContent
      (j.Local "/f".toList (editStored "cd".toList))).1]? ≠
        some (misplaced 1048576 0 "cd".toList pairContent
          (j.Local "/f".toList (editStored "cd".toList))).2 := by
    have hfetches : ¬ (j.Local "/f".toList (editStored "cd".toList) ∧
        Fetches 1048576 pairContent.length 0 "cd".toList.length
          ((0 + "cd".toList.length) / 1048576)) := fun hand ↦ absurd hand.2 (by decide)
    rw [misplaced, if_neg (by decide), if_neg hfetches]
    decide
  refine (overwrite_reread_iff hstored hopened (by decide) (by decide) (by decide) (by decide) hdiffer
    (edit_stores hsession (by decide)) edit_spares (fun _ _ ↦ ⟨_, _, rfl⟩)).mpr
      ⟨⟨⟨0, rfl⟩, rfl⟩, .inr (by decide)⟩

/-- The first byte of the file is written, and the second one is lost. -/
theorem not_overwrite_reread_part :
    Uploaded pairContent "/f".toList (.re 1 1) (editShards "c".toList) pairView
        (editStored "c".toList) ∧
      OpenedToWrite "/f".toList (editStored "c".toList) (editOpened "c".toList) ∧
      (∃ v₂ commit v₃ w,
        (SDK.writeData "/f".toList 0 "c".toList (editNodes "c".toList)).run (editOpened "c".toList) =
          some (.ok (), v₂) ∧
        (SDK.close "/f".toList (editNodes "c".toList) [.apply]).run v₂ = some (.ok commit, v₃) ∧
        (SDK.get "/f".toList v₃.leader.applied.length (editNodes "c".toList)).run v₃ =
          some (.ok "c\x00".toList, w)) ∧
      ¬ RewrittenAs "cb".toList "/f".toList 0 "c".toList (editNodes "c".toList) [.apply]
        (editOpened "c".toList) := by
  have huploaded : Uploaded pairContent "/f".toList (.re 1 1) (editShards "c".toList) pairView
      (editStored "c".toList) := edit_uploaded (by decide +kernel) (by decide +kernel)
  obtain ⟨j, hstored⟩ : ∃ j, StoredFile "/f".toList (.re 1 1) (editNodes "c".toList) pairContent
      (splitAllBlock pairContent (toUInt64 (StorageType.getBlockSize (.re 1 1)))) j
        (editStored "c".toList) := huploaded.storedFile ⟨rfl, rfl⟩
  have hopened : OpenedToWrite "/f".toList (editStored "c".toList) (editOpened "c".toList) :=
    edit_opened (by decide +kernel)
  obtain ⟨⟨deadline, hsession⟩, -⟩ := hstored.opened hopened
  have hn : toUInt64 (StorageType.getBlockSize (.re 1 1)) = 1048576 := by decide
  obtain ⟨v₂, commit, v₃, hwrite, hclose, hclosed, -⟩ := hsession.rewrite_run hn (by decide)
    (by decide) (by decide) (edit_stores hsession (by decide)) edit_spares
    (fun _ _ ↦ ⟨_, _, rfl⟩)
  obtain ⟨w, hget⟩ := hclosed.get_run
  have hsize : toUInt64 (toInt32 (SDK.writtenSize { j with ddlLock := deadline }
      ((0 + "c".toList.length) / 1048576)
      (SDK.dataPart 1048576 0 "c".toList ((0 + "c".toList.length) / 1048576)))) = 2 := by
    have hfilesize : ({ j with ddlLock := deadline } : Inode).filesize = 2 :=
      hsession.contains.filesize
    rw [SDK.writtenSize, SDK.toUInt64_getBlockSize hsession.contains.blockSize_eq.1, hfilesize]
    rfl
  have hcontent : resizeFile (writtenOver 1048576 0 "c".toList [pairBlock]).flatten 2 =
      "c\x00".toList := by
    rw [flatten_writtenOver (by decide)]
    rfl
  rw [hsize, splitAllBlock_pair, hcontent] at hget
  refine ⟨huploaded, hopened, ⟨v₂, commit, v₃, w, hwrite, hclose, hget⟩, ?_⟩
  rintro ⟨w₂, commit', w₃, hwrite', hclose', hreread⟩
  obtain ⟨-, rfl⟩ := Prod.mk.inj (Option.some.inj (hwrite'.symm.trans hwrite))
  obtain ⟨-, rfl⟩ := Prod.mk.inj (Option.some.inj (hclose'.symm.trans hclose))
  have hsame := hclosed.get_of_rereadAs hreread
  rw [hsize, splitAllBlock_pair, hcontent] at hsame
  exact absurd hsame (by decide)

end Spkdfs
