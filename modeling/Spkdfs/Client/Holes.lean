import Spkdfs.Client.Rewriting

namespace Spkdfs

open Library Procedure Function

section

variable {path : Str} {storage : StorageType} {d : Shards} {outcomes : List Bool} {content : Str}
  {blocks : List Str} {j : Inode} {v v₁ : View} {n offset : Nat} {s : Str} {during : List Action}

/-- The blocks of a content that ends with a block. -/
theorem Inode.Contains.whole {nodes : Datanodes} (h : j.Contains storage nodes content blocks)
    (hn : toUInt64 storage.getBlockSize = n) (hwhole : n ∣ content.length) :
    blocks.length * n = content.length ∧ blocks.flatten = content := by
  have hcount := h.count
  have hlength := h.uniform.length_flatten
  have hbegins := h.begins.length_le
  rw [hn] at hcount hlength
  obtain ⟨k, hk⟩ := hwhole
  rw [Nat.mul_comm] at hk
  have hblocks : blocks.length = k := by
    rw [hlength, hk] at hbegins
    rw [hk, ← Nat.succ_mul] at hcount
    have hpos : 0 < n := hn ▸ h.blockSize_eq.2
    exact le_antisymm (Nat.le_of_lt_succ (Nat.lt_of_mul_lt_mul_right hcount))
      (Nat.le_of_mul_le_mul_right hbegins hpos)
  have hsame : blocks.length * n = content.length := by rw [hblocks, hk]
  refine ⟨hsame, (h.begins.eq_of_length ?_).symm⟩
  rw [hlength, hsame]

/-- Behind the end of a content that ends with a block, nothing is left for the hole. -/
theorem hole_lost (h : StoredFile path storage (d.toDatanodes outcomes) content blocks j v)
    (ho : OpenedToWrite path v v₁) (hwhole : n ∣ content.length) (hoffset : content.length < offset)
    (hsmall : offset + s.length < 2 ^ 31) (hn : toUInt64 storage.getBlockSize = n)
    (hd : ∀ v₂, (SDK.writeData path offset s (d.toDatanodes outcomes)).run v₁ = some (.ok (), v₂) →
      d.Stores storage outcomes ((SDK.dirtyBlocks (v₂.sdk.dir path)).map (·.2)))
    (hduring : ∀ a ∈ during, a.Spares (simplifyPath path))
    (hput : ∀ filesize sub, ∃ entry l,
      v₁.leader.rpc (.putOk ⟨path, filesize, sub⟩) during = some (.ok entry, l)) :
    ¬ RewrittenAs (content ++ List.replicate (offset - content.length) '\x00' ++ s) path offset s
      (d.toDatanodes outcomes) during v₁ := by
  rintro ⟨v₂, commit, v₃, hwrite, hclose, hreread⟩
  obtain ⟨⟨deadline, hsession⟩, htmp₁, hothers₁⟩ := h.opened ho
  obtain ⟨hblocks, hflatten⟩ := h.contains.whole hn hwhole
  have hpos : 0 < n := hn ▸ h.contains.blockSize_eq.2
  obtain ⟨w₂, commit', w₃, hwrite', hclose', hclosed, htmp, hholds, hothers⟩ :=
    hsession.rewrite_run hn hsmall (by omega) (by omega) hd hduring hput
  obtain ⟨-, rfl⟩ := Prod.mk.inj (Option.some.inj (hwrite'.symm.trans hwrite))
  obtain ⟨-, rfl⟩ := Prod.mk.inj (Option.some.inj (hclose'.symm.trans hclose))
  have hlength : (content ++ List.replicate (offset - content.length) '\x00' ++ s).length =
      offset + s.length := by
    rw [List.length_append, List.length_append, List.length_replicate]
    omega
  have hsize := congrArg List.length (hclosed.get_of_rereadAs hreread)
  rw [length_resizeFile, hlength] at hsize
  rw [hsize] at hclosed
  -- all blocks together have the old content and the data, and no more
  have hbefore : blocks.length ≤ offset / n := by
    rw [Nat.le_div_iff_mul_le hpos, hblocks]
    exact hoffset.le
  have horder : offset / n ≤ (offset + s.length) / n := Nat.div_le_div_right (Nat.le_add_right _ _)
  have hwritten : (writtenOver n offset s blocks).flatten = _ := flatten_writtenOver hpos
  rw [List.take_of_length_le hbefore, List.drop_eq_nil_of_le (by omega), hflatten, List.flatten_nil,
    List.append_nil] at hwritten
  have hcount := length_writtenOver n offset s blocks
  rw [Nat.max_eq_right (by omega)] at hcount
  obtain ⟨v', ho'⟩ := hreread.1
  obtain ⟨j', hc, hfullpath, hblockSize, hfilesize, hdecodes⟩ :=
    hclosed.opened ho' h.contains.blockSize
  rw [hn] at hblockSize
  obtain ⟨w, hread⟩ := (hreread.2 v' ho').2 (by rw [hlength]; omega) 0 (offset + s.length) (by omega)
  by_cases hdir : w₃.sdk.dirs (w₃.sdk.tmpPath (simplifyPath path)) ≠ none ∨
      w₃.sdk.tmpPath (simplifyPath path) = w₃.sdk.tmpPath path
  · have hfiles := ho'.blockFiles hholds hdir
    rw [← hfullpath] at hfiles
    obtain ⟨w', hrun⟩ := SDK.readData_blocks hc hdecodes hfiles hblockSize hpos
      (show 0 + (offset + s.length) ≤ j'.filesize by omega) (by omega)
    have hshort : (SDK.blocksRead n (writtenOver n offset s blocks) (0 / n)
        ((0 + (offset + s.length)) / n + 1)).length < 0 - 0 / n * n + (offset + s.length) := by
      rw [SDK.blocksRead, Nat.zero_div, Nat.zero_add, List.drop_zero,
        List.take_of_length_le hcount.le, hwritten, hcount, List.length_append, List.length_append,
        List.length_replicate, Nat.max_eq_right (Nat.zero_le _), Nat.sub_self, Nat.zero_mul]
      omega
    rw [hread, if_pos hshort] at hrun
    cases hrun
  · rw [not_or, not_not] at hdir
    have hnone := ho'.no_blockFiles hdir.1 hdir.2
    rw [← hfullpath] at hnone
    have hsub : 0 / n < j'.sub.length := by
      rw [← hdecodes.length_eq, hcount, Nat.zero_div]
      exact Nat.succ_pos _
    rw [SDK.readData_nodir _ hc hblockSize hpos (by omega) (by omega) hnone, if_pos hsub] at hread
    cases hread

end

def abcNodes : Datanodes := abcShards.toDatanodes [true]

theorem storedFile_empty :
    StoredFile "/f".toList (.re 1 1) abcNodes [] [] emptyInode emptyView :=
  newFile_empty.storedFile abcNodes rfl

theorem openedToWrite_empty : OpenedToWrite "/f".toList emptyView emptyOpened := by
  refine ⟨1, { lock := [.apply], seen := 2 }, by decide, by decide, ?_, rfl, by decide +kernel⟩
  intro a ha
  obtain rfl := List.mem_singleton.mp ha
  exact trivial

/-- Three bytes are to be written behind two zeros, all in the first block. -/
theorem abcShards_stores_hole (v₂ : View)
    (h : (SDK.writeData "/f".toList 2 "abc".toList abcNodes).run emptyOpened = some (.ok (), v₂)) :
    abcShards.Stores (.re 1 1) [true]
      ((SDK.dirtyBlocks (v₂.sdk.dir "/f".toList)).map (·.2)) := by
  obtain ⟨⟨deadline, hsession⟩, -⟩ := storedFile_empty.opened openedToWrite_empty
  have hn : toUInt64 (StorageType.getBlockSize (.re 1 1)) = 1048576 := by decide
  have hblocks : Finset.Icc (2 / 1048576) ((2 + "abc".toList.length) / 1048576) = {0} := by decide
  rw [hsession.dirtyBlocks_written hn (by decide) (by decide) (by decide) h, hblocks,
    Finset.sort_singleton]
  exact abcShards_stores

theorem spares_apply {path : Str} : ∀ a ∈ [Action.apply], a.Spares path := by
  intro a ha
  obtain rfl := List.mem_singleton.mp ha
  exact trivial

theorem emptyOpened_putOk (filesize : Nat) (sub : List Str) : ∃ entry l,
    emptyOpened.leader.rpc (.putOk ⟨"/f".toList, filesize, sub⟩) [.apply] = some (.ok entry, l) :=
  ⟨_, _, rfl⟩

theorem hole_lost_empty :
    ¬ RewrittenAs ("".toList ++ List.replicate 2 '\x00' ++ "abc".toList) "/f".toList 2 "abc".toList
      abcNodes [.apply] emptyOpened :=
  hole_lost storedFile_empty openedToWrite_empty ⟨0, rfl⟩ (by decide) (by decide)
    (n := 1048576) (by decide) abcShards_stores_hole spares_apply emptyOpened_putOk

/-- The file is only as long as what was written. -/
theorem not_hole_zeros :
    (∃ v₂ commit v₃ w,
      (SDK.writeData "/f".toList 2 "abc".toList abcNodes).run emptyOpened = some (.ok (), v₂) ∧
      (SDK.close "/f".toList abcNodes [.apply]).run v₂ = some (.ok commit, v₃) ∧
      (SDK.get "/f".toList v₃.leader.applied.length abcNodes).run v₃ =
        some (.ok "abc".toList, w)) ∧
      ¬ RewrittenAs "\x00\x00abc".toList "/f".toList 2 "abc".toList abcNodes [.apply]
        emptyOpened := by
  obtain ⟨⟨deadline, hsession⟩, -⟩ := storedFile_empty.opened openedToWrite_empty
  obtain ⟨v₂, commit, v₃, hwrite, hclose, hclosed, -⟩ := hsession.rewrite_run (n := 1048576)
    (by decide) (by decide) (by decide) (by decide) abcShards_stores_hole spares_apply
    emptyOpened_putOk
  obtain ⟨w, hget⟩ := hclosed.get_run
  have hcontent : resizeFile (writtenOver 1048576 2 "abc".toList []).flatten
      (toUInt64 (toInt32 (SDK.writtenSize { emptyInode with ddlLock := deadline }
        ((2 + "abc".toList.length) / 1048576)
        (SDK.dataPart 1048576 2 "abc".toList ((2 + "abc".toList.length) / 1048576))))) =
      "abc".toList := by
    rw [flatten_writtenOver (by decide)]
    rfl
  rw [hcontent] at hget
  refine ⟨⟨v₂, commit, v₃, w, hwrite, hclose, hget⟩, ?_⟩
  rintro ⟨w₂, commit', w₃, hwrite', hclose', hreread⟩
  obtain ⟨-, rfl⟩ := Prod.mk.inj (Option.some.inj (hwrite'.symm.trans hwrite))
  obtain ⟨-, rfl⟩ := Prod.mk.inj (Option.some.inj (hclose'.symm.trans hclose))
  have hsame := hclosed.get_of_rereadAs hreread
  rw [hcontent] at hsame
  exact absurd hsame (by decide)

end Spkdfs
