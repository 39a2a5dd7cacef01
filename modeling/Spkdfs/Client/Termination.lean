import Spkdfs.Client.Uploading

namespace Spkdfs

open Library

/-- The first `t` outcomes of an endless sequence. -/
def firstOutcomes (o : Nat → Bool) (t : Nat) : List Bool := (List.range t).map o

/-- From the attempt with the number `t` on, all fail. -/
def FailsFrom (o : Nat → Bool) (t : Nat) : Prop := ∀ s, t ≤ s → o s = false

section

variable {o : Nat → Bool} {t : Nat}

theorem length_firstOutcomes (o : Nat → Bool) (t : Nat) : (firstOutcomes o t).length = t := by
  rw [firstOutcomes, List.length_map, List.length_range]

theorem firstOutcomes_add (o : Nat → Bool) (s t : Nat) :
    firstOutcomes o (s + t) = firstOutcomes o s ++ firstOutcomes (fun i ↦ o (s + i)) t := by
  rw [firstOutcomes, List.range_add, List.map_append, List.map_map]
  rfl

theorem eq_firstOutcomes_of_append {used rest : List Bool} (h : firstOutcomes o t = used ++ rest) :
    used = firstOutcomes o used.length := by
  have hle := congrArg List.length h
  rw [length_firstOutcomes, List.length_append] at hle
  rw [hle, firstOutcomes_add] at h
  exact (List.append_inj_left h (length_firstOutcomes _ _)).symm

theorem FailsFrom.firstOutcomes_add (h : FailsFrom o t) (m : Nat) :
    firstOutcomes o (t + m) = firstOutcomes o t ++ List.replicate m false := by
  rw [Spkdfs.firstOutcomes_add]
  refine congrArg (firstOutcomes o t ++ ·) (List.eq_replicate_iff.mpr ⟨length_firstOutcomes _ _, ?_⟩)
  intro b hb
  obtain ⟨i, -, rfl⟩ := List.mem_map.mp hb
  exact h _ (Nat.le_add_right ..)

/-- If only so many attempts succeed, then from some attempt on all fail. -/
theorem exists_failsFrom {bound : Nat} (h : ∀ t, (firstOutcomes o t).count true ≤ bound) :
    ∃ t, FailsFrom o t := by
  induction bound generalizing o with
  | zero =>
    refine ⟨0, fun s _ ↦ ?_⟩
    have hcount := Nat.le_zero.mp (h (s + 1))
    by_contra htrue
    refine List.count_eq_zero.mp hcount (List.mem_map.mpr ⟨s, ?_, eq_true_of_ne_false htrue⟩)
    exact List.mem_range.mpr (Nat.lt_succ_self s)
  | succ bound ih =>
    by_cases hall : FailsFrom o 0
    · exact ⟨0, hall⟩
    -- the bound is smaller after an attempt that succeeds
    rw [FailsFrom] at hall
    push Not at hall
    obtain ⟨s, -, hs⟩ := hall
    have hless : ∀ t, (firstOutcomes (fun i ↦ o (s + 1 + i)) t).count true ≤ bound := by
      intro t
      have hle := h (s + 1 + t)
      have hone : 1 ≤ (firstOutcomes o (s + 1)).count true := by
        refine List.count_pos_iff.mpr (List.mem_map.mpr ⟨s, ?_, eq_true_of_ne_false hs⟩)
        exact List.mem_range.mpr (Nat.lt_succ_self s)
      rw [firstOutcomes_add, List.count_append] at hle
      omega
    obtain ⟨t, ht⟩ := ih hless
    refine ⟨s + 1 + t, fun r hr ↦ ?_⟩
    have hfalse := ht (r - (s + 1)) (by omega)
    have hindex : s + 1 + (r - (s + 1)) = r := by omega
    exact (congrArg o hindex).symm.trans hfalse

end

section

variable {sha256sum : Str → Str} {storage : StorageType} {nodes vec : List Str} {u v : Upload}
  {outcomes rest : List Bool}

theorem Upload.turn_counters (storage : StorageType) (nodes : List Str) (u : Upload) :
    (u.turn storage nodes).2.succ = u.succ ∧
      (u.turn storage nodes).2.nodeIndex = (u.nodeIndex + 1) % nodes.length := by
  rw [Upload.turn]
  split_ifs <;> exact ⟨rfl, rfl⟩

theorem Upload.attempt_succ (sha256sum : Str → Str) (storage : StorageType) (nodes : List Str)
    (u : Upload) (node shard : Str) (stored : Bool) :
    (u.attempt sha256sum storage nodes node shard stored).2.succ = u.succ + [stored].count true := by
  rw [Upload.attempt, (Upload.turn_counters ..).1]
  cases stored <;> rfl

theorem Upload.attempt_nodeIndex (sha256sum : Str → Str) (storage : StorageType) (u : Upload)
    (node shard : Str) (stored : Bool) (hne : 0 < nodes.length) :
    (u.attempt sha256sum storage nodes node shard stored).2.nodeIndex < nodes.length := by
  rw [Upload.attempt, (Upload.turn_counters ..).2]
  exact Nat.mod_lt _ hne

theorem uploadShards_cons (sha256sum : Str → Str) (storage : StorageType)
    (hin : u.nodeIndex < nodes.length) (hi : u.i < vec.length) (stored : Bool)
    (outcomes : List Bool) :
    uploadShards sha256sum storage nodes vec (stored :: outcomes) u =
      if (u.attempt sha256sum storage nodes nodes[u.nodeIndex] vec[u.i] stored).1 then
        some ((u.attempt sha256sum storage nodes nodes[u.nodeIndex] vec[u.i] stored).2, outcomes)
      else uploadShards sha256sum storage nodes vec outcomes
        (u.attempt sha256sum storage nodes nodes[u.nodeIndex] vec[u.i] stored).2 := by
  rw [uploadShards, List.getElem?_eq_getElem hi, List.getElem?_eq_getElem hin]

/-- While there is no result, the loop is in the state that its attempts have made. -/
theorem uploadShards_none (hin : u.nodeIndex < nodes.length)
    (h : uploadShards sha256sum storage nodes vec outcomes u = none) :
    ∃ w, w.nodeIndex < nodes.length ∧ w.i < vec.length ∧ w.i = u.i + outcomes.count true ∧
      w.succ = u.succ + outcomes.count true ∧
        ∀ more, uploadShards sha256sum storage nodes vec (outcomes ++ more) u =
          uploadShards sha256sum storage nodes vec more w := by
  have hi : u.i < vec.length := by
    by_contra hdone
    rw [uploadShards_done _ (Nat.le_of_not_lt hdone)] at h
    cases h
  induction outcomes generalizing u with
  | nil => exact ⟨u, hin, hi, rfl, rfl, fun _ ↦ rfl⟩
  | cons stored outcomes ih =>
    have hcons := uploadShards_cons sha256sum storage hin hi stored
    have hcount : (stored :: outcomes).count true = [stored].count true + outcomes.count true := by
      rw [← List.count_append, List.singleton_append]
    obtain ⟨hnext, -⟩ := Upload.attempt_eq sha256sum storage nodes u
      nodes[u.nodeIndex] vec[u.i] stored
    have hsucc := Upload.attempt_succ sha256sum storage nodes u nodes[u.nodeIndex]
      vec[u.i] stored
    rw [hcons] at h
    split_ifs at h with hstop
    have hmore : (u.attempt sha256sum storage nodes nodes[u.nodeIndex] vec[u.i] stored).2.i <
        vec.length := by
      by_contra hdone
      rw [uploadShards_done _ (Nat.le_of_not_lt hdone)] at h
      cases h
    obtain ⟨w, hw, hlt, hwi, hwsucc, hgo⟩ :=
      ih (Upload.attempt_nodeIndex sha256sum storage u _ _ stored (Nat.zero_lt_of_lt hin)) h hmore
    refine ⟨w, hw, hlt, by omega, by omega, fun more ↦ ?_⟩
    rw [List.cons_append, hcons, if_neg hstop, hgo]

/-- A result takes some of the outcomes and leaves the others as they are. -/
theorem uploadShards_some (hin : u.nodeIndex < nodes.length)
    (h : uploadShards sha256sum storage nodes vec outcomes u = some (v, rest)) :
    ∃ used, outcomes = used ++ rest ∧ v.nodeIndex < nodes.length ∧
      v.succ = u.succ + used.count true ∧
        ∀ more, uploadShards sha256sum storage nodes vec (used ++ more) u = some (v, more) := by
  by_cases hi : vec.length ≤ u.i
  · rw [uploadShards_done _ hi] at h
    obtain ⟨rfl, rfl⟩ := Prod.mk.inj (Option.some.inj h)
    exact ⟨[], rfl, hin, rfl, fun more ↦ uploadShards_done more hi⟩
  induction outcomes generalizing u with
  | nil =>
    rw [uploadShards, if_pos (Nat.lt_of_not_le hi)] at h
    cases h
  | cons stored outcomes ih =>
    have hlt : u.i < vec.length := Nat.lt_of_not_le hi
    have hcons := uploadShards_cons sha256sum storage hin hlt stored
    have hindex := Upload.attempt_nodeIndex sha256sum storage u
      nodes[u.nodeIndex] vec[u.i] stored (Nat.zero_lt_of_lt hin)
    have hsucc := Upload.attempt_succ sha256sum storage nodes u nodes[u.nodeIndex]
      vec[u.i] stored
    rw [hcons] at h
    split_ifs at h with hstop
    · obtain ⟨rfl, rfl⟩ := Prod.mk.inj (Option.some.inj h)
      refine ⟨[stored], rfl, hindex, hsucc, fun more ↦ ?_⟩
      rw [List.singleton_append, hcons, if_pos hstop]
    by_cases hdone : vec.length ≤
        (u.attempt sha256sum storage nodes nodes[u.nodeIndex] vec[u.i] stored).2.i
    · rw [uploadShards_done _ hdone] at h
      obtain ⟨rfl, rfl⟩ := Prod.mk.inj (Option.some.inj h)
      refine ⟨[stored], rfl, hindex, hsucc, fun more ↦ ?_⟩
      rw [List.singleton_append, hcons, if_neg hstop, uploadShards_done _ hdone]
    · obtain ⟨used, rfl, hv, hvsucc, hgo⟩ := ih hindex h hdone
      refine ⟨stored :: used, rfl, hv, ?_, fun more ↦ ?_⟩
      · have hcount : (stored :: used).count true = [stored].count true + used.count true := by
          rw [← List.count_append, List.singleton_append]
        omega
      · rw [List.cons_append, hcons, if_neg hstop, hgo]

/-- With enough shards stored the loop does not look at the failures. -/
theorem uploadShards_failing (hin : u.nodeIndex < nodes.length) (hi : u.i < vec.length)
    (hcheck : storage.check u.succ = true) (m : Nat) :
    uploadShards sha256sum storage nodes vec (List.replicate m false) u = none := by
  induction m generalizing u with
  | zero => rw [List.replicate_zero, uploadShards, if_pos hi]
  | succ m ih =>
    have hattempt : u.attempt sha256sum storage nodes nodes[u.nodeIndex] vec[u.i] false =
        (false, { u with nodeIndex := (u.nodeIndex + 1) % nodes.length,
                         failCount := u.failCount + 1 }) := by
      rw [Upload.attempt, Upload.turn, if_neg]
      · rfl
      · intro hround
        exact absurd (hcheck.symm.trans hround.2) (by decide)
    rw [List.replicate_succ, uploadShards_cons sha256sum storage hin hi, hattempt]
    exact ih (Nat.mod_lt _ (Nat.zero_lt_of_lt hin)) hi hcheck

theorem Upload.attempt_within (storage : StorageType) (node shard : Str)
    (h : u.nodeIndex + 1 < nodes.length) :
    u.attempt sha256sum storage nodes node shard false =
      (false, { u with nodeIndex := u.nodeIndex + 1, failCount := u.failCount + 1 }) := by
  have hmod := Nat.mod_eq_of_lt h
  rw [Upload.attempt, Upload.turn, if_neg]
  · simp only [Bool.false_eq_true, if_false, hmod]
  · intro hround
    exact absurd (hmod.symm.trans hround.1) (Nat.succ_ne_zero _)

theorem Upload.attempt_last (node shard : Str) (h : u.nodeIndex + 1 = nodes.length)
    (hcheck : storage.check u.succ = false) :
    u.attempt sha256sum storage nodes node shard false =
      if u.failCount + 1 = nodes.length then
        (true, { u with nodeIndex := 0, failCount := u.failCount + 1 })
      else (false, { u with nodeIndex := 0, failCount := 0 }) := by
  have hmod : (u.nodeIndex + 1) % nodes.length = 0 := by
    rw [h, Nat.mod_self]
  rw [Upload.attempt, Upload.turn]
  simp only [Bool.false_eq_true, if_false, hmod, hcheck, and_self, if_true]

/-- Without enough shards stored the failures are looked at when the round is over. -/
theorem uploadShards_round_end (sha256sum : Str → Str) {k : Nat}
    (hk : u.nodeIndex + (k + 1) = nodes.length)
    (hi : u.i < vec.length) (hcheck : storage.check u.succ = false) (outcomes : List Bool) :
    (u.failCount + (k + 1) = nodes.length → (uploadShards sha256sum storage nodes vec
        (List.replicate (k + 1) false ++ outcomes) u).isSome) ∧
      (u.failCount + (k + 1) ≠ nodes.length → uploadShards sha256sum storage nodes vec
        (List.replicate (k + 1) false ++ outcomes) u =
          uploadShards sha256sum storage nodes vec outcomes
            { u with nodeIndex := 0, failCount := 0 }) := by
  have hin : u.nodeIndex < nodes.length := by omega
  induction k generalizing u with
  | zero =>
    rw [List.replicate_succ, List.cons_append, uploadShards_cons sha256sum storage hin hi,
      Upload.attempt_last _ _ hk hcheck]
    refine ⟨fun hall ↦ ?_, fun hall ↦ ?_⟩
    · rw [if_pos hall]
      rfl
    · rw [if_neg hall]
      rfl
  | succ k ih =>
    have hwithin : u.nodeIndex + 1 < nodes.length := by omega
    have hcount : u.failCount + 1 + (k + 1) = nodes.length ↔
        u.failCount + (k + 1 + 1) = nodes.length := by omega
    have hround := ih (u := { u with nodeIndex := u.nodeIndex + 1, failCount := u.failCount + 1 })
      (show u.nodeIndex + 1 + (k + 1) = nodes.length by omega) hi hcheck hwithin
    simp only [hcount, ne_eq] at hround
    rw [List.replicate_succ, List.cons_append, uploadShards_cons sha256sum storage hin hi,
      Upload.attempt_within storage _ _ hwithin]
    exact hround

/-- Without enough shards stored, failures end the loop when a whole round has failed. -/
theorem uploadShards_round (sha256sum : Str → Str) (hin : u.nodeIndex < nodes.length) (hi : u.i < vec.length)
    (hcheck : storage.check u.succ = false) :
    ∃ m, (uploadShards sha256sum storage nodes vec (List.replicate m false) u).isSome := by
  obtain ⟨k, hk⟩ := Nat.exists_eq_add_of_lt hin
  obtain ⟨hall, hothers⟩ := uploadShards_round_end sha256sum
    ((Nat.add_assoc ..).symm.trans hk.symm) hi hcheck (List.replicate nodes.length false)
  by_cases hcount : u.failCount + (k + 1) = nodes.length
  · refine ⟨k + 1 + nodes.length, ?_⟩
    rw [List.replicate_add]
    exact hall hcount
  · -- the next round counts from zero
    obtain ⟨n, hn⟩ := Nat.exists_eq_succ_of_ne_zero (Nat.zero_lt_of_lt hin).ne'
    have hzero : ({ u with nodeIndex := 0, failCount := 0 } : Upload).nodeIndex + (n + 1) =
        nodes.length := (Nat.zero_add _).trans hn.symm
    obtain ⟨hnext, -⟩ := uploadShards_round_end sha256sum hzero hi hcheck []
    refine ⟨k + 1 + nodes.length, ?_⟩
    rw [List.replicate_add, hothers hcount, hn]
    rw [List.append_nil] at hnext
    exact hnext (by simp only; omega)

/-- The loop ends, or it goes on although enough shards are stored and nothing more is. -/
theorem uploadShards_ends (sha256sum : Str → Str) (storage : StorageType) (vec : List Str)
    (hin : u.nodeIndex < nodes.length) (o : Nat → Bool) :
    (∃ t, (uploadShards sha256sum storage nodes vec (firstOutcomes o t) u).isSome) ∨
      ∃ t, uploadShards sha256sum storage nodes vec (firstOutcomes o t) u = none ∧
        storage.check (u.succ + (firstOutcomes o t).count true) = true ∧ FailsFrom o t := by
  by_cases hends : ∃ t, (uploadShards sha256sum storage nodes vec (firstOutcomes o t) u).isSome
  · exact .inl hends
  have hnone : ∀ t, uploadShards sha256sum storage nodes vec (firstOutcomes o t) u = none :=
    fun t ↦ Option.not_isSome_iff_eq_none.mp (not_exists.mp hends t)
  have hbound : ∀ t, (firstOutcomes o t).count true ≤ vec.length := by
    intro t
    obtain ⟨w, -, hlt, hi, -⟩ := uploadShards_none hin (hnone t)
    omega
  obtain ⟨t, hfails⟩ := exists_failsFrom hbound
  refine .inr ⟨t, hnone t, ?_, hfails⟩
  by_contra hcheck
  obtain ⟨w, hw, hlt, -, hsucc, hgo⟩ := uploadShards_none hin (hnone t)
  rw [← hsucc] at hcheck
  obtain ⟨m, hm⟩ := uploadShards_round sha256sum hw hlt (eq_false_of_ne_true hcheck)
  have hlater := hnone (t + m)
  rw [hfails.firstOutcomes_add, hgo] at hlater
  rw [hlater] at hm
  cases hm

theorem uploadShards_no_nodes (hvec : vec ≠ []) (hi : u.i = 0) (outcomes : List Bool) :
    uploadShards sha256sum storage [] vec outcomes u = none := by
  have hlt : u.i < vec.length := hi ▸ List.length_pos_of_ne_nil hvec
  cases outcomes with
  | nil => rw [uploadShards, if_pos hlt]
  | cons stored outcomes => rw [uploadShards, List.getElem?_eq_getElem hlt, List.getElem?_nil]

/-- The loop of `encode_one_block` ends when all shards are stored or a round fails. -/
theorem uploadShards_ends_iff (o : Nat → Bool) :
    (∃ t, (uploadShards sha256sum storage nodes vec (firstOutcomes o t) {}).isSome) ↔
      (nodes = [] → vec = []) ∧ ((∃ t, vec.length ≤ (firstOutcomes o t).count true) ∨
        ∃ t, RoundFailed storage nodes (firstOutcomes o t)) := by
  by_cases hvec : vec = []
  · refine iff_of_true ⟨0, ?_⟩ ⟨fun _ ↦ hvec, .inl ⟨0, ?_⟩⟩
    · rw [uploadShards_done _ (by rw [hvec]; exact Nat.zero_le _)]
      rfl
    · rw [hvec]
      exact Nat.zero_le _
  by_cases hne : nodes = []
  · refine iff_of_false (fun h ↦ ?_) fun h ↦ hvec (h.1 hne)
    obtain ⟨t, ht⟩ := h
    rw [hne, uploadShards_no_nodes hvec rfl] at ht
    cases ht
  refine ⟨fun h ↦ ⟨fun hnil ↦ absurd hnil hne, ?_⟩, fun h ↦ ?_⟩
  · obtain ⟨t, ht⟩ := h
    obtain ⟨hnone, -⟩ | ⟨v, used, rest, -, hused, hi, -, hend⟩ := uploadShards_run
      hne Upload.after_nil sha256sum vec (Nat.zero_le _) (firstOutcomes o t)
    · rw [hnone] at ht
      cases ht
    have hpre := eq_firstOutcomes_of_append hused
    obtain ⟨hall, -⟩ | ⟨-, -, hround⟩ := hend
    · refine .inl ⟨used.length, ?_⟩
      rw [← hpre, ← hall, hi]
      exact (Nat.zero_add _).le
    · exact .inr ⟨used.length, hpre ▸ hround⟩
  · have hnot : ∀ t, uploadShards sha256sum storage nodes vec (firstOutcomes o t) {} = none →
        (firstOutcomes o t).count true < vec.length ∧
          ¬ RoundFailed storage nodes (firstOutcomes o t) := by
      intro t hnone
      obtain ⟨-, hfew, hno⟩ | ⟨v, used, rest, hsome, -⟩ := uploadShards_run
        hne (@Upload.after_nil storage nodes) sha256sum vec (Nat.zero_le _)
        (firstOutcomes o t)
      · refine ⟨Nat.lt_of_le_of_lt (Nat.zero_add _).ge hfew, fun hround ↦ ?_⟩
        refine hno _ ?_ List.prefix_rfl hround
        intro hnil
        obtain ⟨front, hfront, -⟩ := hround
        rw [hnil] at hfront
        have hzero := (List.append_eq_nil_iff.mp hfront.symm).2
        exact hne (List.length_eq_zero_iff.mp ((List.replicate_eq_nil_iff false).mp hzero))
      · rw [hsome] at hnone
        cases hnone
    obtain ⟨t, ht⟩ | ⟨t, ht⟩ := h.2
    · refine ⟨t, Option.isSome_iff_ne_none.mpr fun hnone ↦ ?_⟩
      exact absurd ht (Nat.not_le_of_lt (hnot t hnone).1)
    · exact ⟨t, Option.isSome_iff_ne_none.mpr fun hnone ↦ (hnot t hnone).2 ht⟩

end

namespace Shards

variable {d : Shards} {storage : StorageType} {vec : List Str} {encoded : List (List Str)}
  {outcomes used more : List Bool} {u v : Upload}

/-- After the shards of a block, the loops go on with the next block unless `encode_one_sub` throws. -/
theorem putBlocks_isSome_iff
    (h : uploadShards d.sha256sum storage d.nodes vec (used ++ more)
      { u with i := 0, nodesHashs := [] } = some (v, more)) :
    (d.putBlocks storage (vec :: encoded) (used ++ more) u).isSome ↔
      (∃ fault, encodeOneSub v.nodesHashs = some (.error fault)) ∨
        (d.putBlocks storage encoded more v).isSome := by
  rw [putBlocks, h, Option.bind_some]
  cases hsub : encodeOneSub v.nodesHashs with
  | none => simp [hsub]
  | some sub =>
    cases sub with
    | error fault => simp [hsub]
    | ok sub => simp [hsub]

theorem putBlocks_ends (storage : StorageType) (encoded : List (List Str))
    (hin : u.nodeIndex < d.nodes.length) (o : Nat → Bool) :
    (∃ t, (d.putBlocks storage encoded (firstOutcomes o t) u).isSome) ∨
      ∃ t, d.putBlocks storage encoded (firstOutcomes o t) u = none ∧
        storage.check (u.succ + (firstOutcomes o t).count true) = true ∧ FailsFrom o t := by
  induction encoded generalizing o u with
  | nil => exact .inl ⟨0, rfl⟩
  | cons vec encoded ih =>
    obtain ⟨t, ht⟩ | ⟨t, hnone, hcheck, hfails⟩ := uploadShards_ends d.sha256sum storage vec
      (u := { u with i := 0, nodesHashs := [] }) hin o
    · obtain ⟨⟨v, rest⟩, hupload⟩ := Option.isSome_iff_exists.mp ht
      obtain ⟨used, hused, hv, hsucc, hmore⟩ :=
        uploadShards_some (u := { u with i := 0, nodesHashs := [] }) hin hupload
      have hpre := eq_firstOutcomes_of_append hused
      have hthen : ∀ s, firstOutcomes o (used.length + s) =
          used ++ firstOutcomes (fun i ↦ o (used.length + i)) s := by
        intro s
        rw [firstOutcomes_add, ← hpre]
      obtain ⟨s, hs⟩ | ⟨s, hnone, hcheck, hfails⟩ := ih hv fun i ↦ o (used.length + i)
      · refine .inl ⟨used.length + s, ?_⟩
        rw [hthen]
        exact (putBlocks_isSome_iff (hmore _)).mpr (.inr hs)
      by_cases hthrows : ∃ fault, encodeOneSub v.nodesHashs = some (.error fault)
      · refine .inl ⟨used.length + s, ?_⟩
        rw [hthen]
        exact (putBlocks_isSome_iff (hmore _)).mpr (.inl hthrows)
      refine .inr ⟨used.length + s, ?_, ?_, fun r hr ↦ ?_⟩
      · rw [hthen, ← Option.not_isSome_iff_eq_none, putBlocks_isSome_iff (hmore _), hnone]
        exact fun h ↦ h.elim hthrows (by decide)
      · rw [hthen, List.count_append, ← Nat.add_assoc]
        rwa [hsucc] at hcheck
      · have hfalse := hfails (r - used.length) (by omega)
        have hindex : used.length + (r - used.length) = r := by omega
        exact (congrArg o hindex).symm.trans hfalse
    · refine .inr ⟨t, ?_, hcheck, hfails⟩
      rw [putBlocks, hnone, Option.bind_none]

/-- Further outcomes do not take a result away. -/
theorem putBlocks_append (hin : u.nodeIndex < d.nodes.length)
    (h : (d.putBlocks storage encoded outcomes u).isSome) (more : List Bool) :
    (d.putBlocks storage encoded (outcomes ++ more) u).isSome := by
  induction encoded generalizing outcomes u with
  | nil => rfl
  | cons vec encoded ih =>
    cases hupload : uploadShards d.sha256sum storage d.nodes vec outcomes
        { u with i := 0, nodesHashs := [] } with
    | none =>
      rw [putBlocks, hupload] at h
      cases h
    | some result =>
      obtain ⟨v, rest⟩ := result
      obtain ⟨used, rfl, hv, -, hmore⟩ :=
        uploadShards_some (u := { u with i := 0, nodesHashs := [] }) hin hupload
      rw [List.append_assoc, putBlocks_isSome_iff (hmore _)]
      exact ((putBlocks_isSome_iff hupload).mp h).imp_right (ih hv)

/-- With enough shards stored, failures do not end the loops. -/
theorem putBlocks_failing (hin : u.nodeIndex < d.nodes.length)
    (h : d.putBlocks storage encoded outcomes u = none)
    (hcheck : storage.check (u.succ + outcomes.count true) = true) (m : Nat) :
    d.putBlocks storage encoded (outcomes ++ List.replicate m false) u = none := by
  induction encoded generalizing outcomes u with
  | nil => cases h
  | cons vec encoded ih =>
    cases hupload : uploadShards d.sha256sum storage d.nodes vec outcomes
        { u with i := 0, nodesHashs := [] } with
    | none =>
      obtain ⟨w, hw, hlt, -, hsucc, hgo⟩ :=
        uploadShards_none (u := { u with i := 0, nodesHashs := [] }) hin hupload
      rw [← show w.succ = u.succ + outcomes.count true from hsucc] at hcheck
      rw [putBlocks, hgo, uploadShards_failing hw hlt hcheck, Option.bind_none]
    | some result =>
      obtain ⟨v, rest⟩ := result
      obtain ⟨used, rfl, hv, hsucc, hmore⟩ :=
        uploadShards_some (u := { u with i := 0, nodesHashs := [] }) hin hupload
      have hstays := mt (putBlocks_isSome_iff hupload).mpr (Option.not_isSome_iff_eq_none.mpr h)
      obtain ⟨hok, hnone⟩ := not_or.mp hstays
      rw [List.append_assoc, ← Option.not_isSome_iff_eq_none, putBlocks_isSome_iff (hmore _)]
      rw [List.count_append, ← Nat.add_assoc, ← show v.succ = _ from hsucc] at hcheck
      rw [ih hv (Option.not_isSome_iff_eq_none.mp hnone) hcheck]
      exact fun h ↦ h.elim hok (by decide)

/-- Without shards nothing has to be stored, and without nodes nothing can be. -/
theorem putBlocks_no_nodes (hne : d.nodes = []) :
    (d.putBlocks storage encoded outcomes u).isSome ↔ ∀ vec ∈ encoded, vec = [] := by
  induction encoded generalizing outcomes u with
  | nil => exact iff_of_true rfl fun _ h ↦ (by cases h)
  | cons vec encoded ih =>
    rw [List.forall_mem_cons]
    by_cases hvec : vec = []
    · have hdone : uploadShards d.sha256sum storage d.nodes vec ([] ++ outcomes)
          { u with i := 0, nodesHashs := [] } =
            some ({ u with i := 0, nodesHashs := [] }, outcomes) := by
        refine uploadShards_done _ ?_
        rw [hvec]
        exact Nat.zero_le _
      have hiff : (d.putBlocks storage (vec :: encoded) ([] ++ outcomes) u).isSome ↔ _ :=
        putBlocks_isSome_iff hdone
      rw [List.nil_append, encodeOneSub, if_pos rfl, ih] at hiff
      rw [hiff, and_iff_right hvec]
      refine or_iff_right fun hthrows ↦ ?_
      obtain ⟨fault, hfault⟩ := hthrows
      cases hfault
    · refine iff_of_false ?_ fun h ↦ hvec h.1
      rw [putBlocks, hne, uploadShards_no_nodes hvec rfl, Option.bind_none]
      exact Bool.false_ne_true

/-- The loops that store shards end if and only if there are nodes, and failures do not go on for
ever after enough shards for the storage type are stored and before all of them are. -/
theorem upload_loops_end_iff (d : Shards) (storage : StorageType) (vec : List Str)
    (encoded : List (List Str)) (o : Nat → Bool) :
    ((∃ t, (uploadShards d.sha256sum storage d.nodes vec (firstOutcomes o t) {}).isSome) ↔
        (d.nodes = [] → vec = []) ∧ ((∃ t, vec.length ≤ (firstOutcomes o t).count true) ∨
          ∃ t, RoundFailed storage d.nodes (firstOutcomes o t))) ∧
      ((∃ t, (d.putBlocks storage encoded (firstOutcomes o t) {}).isSome) ↔
        (d.nodes = [] → ∀ vec ∈ encoded, vec = []) ∧
          ∀ t, d.putBlocks storage encoded (firstOutcomes o t) {} = none →
            storage.check ((firstOutcomes o t).count true) = true → ¬ FailsFrom o t) := by
  refine ⟨uploadShards_ends_iff o, ?_⟩
  by_cases hne : d.nodes = []
  · have hiff : ∀ t, (d.putBlocks storage encoded (firstOutcomes o t) {}).isSome ↔
        ∀ vec ∈ encoded, vec = [] := fun t ↦ putBlocks_no_nodes hne
    refine ⟨fun h ↦ ?_, fun h ↦ ⟨0, (hiff 0).mpr (h.1 hne)⟩⟩
    obtain ⟨t, ht⟩ := h
    refine ⟨fun _ ↦ (hiff t).mp ht, fun s hs ↦ ?_⟩
    have hsome := (hiff s).mpr ((hiff t).mp ht)
    rw [hs] at hsome
    cases hsome
  have hin : ({} : Upload).nodeIndex < d.nodes.length := List.length_pos_of_ne_nil hne
  refine ⟨fun h ↦ ⟨fun hnil ↦ absurd hnil hne, fun t hnone hcheck hfails ↦ ?_⟩, fun h ↦ ?_⟩
  · obtain ⟨s, hs⟩ := h
    -- what has a result after `s` attempts has one after `t + s`
    have hlater := putBlocks_append hin hs (firstOutcomes (fun i ↦ o (s + i)) t)
    rw [← firstOutcomes_add, Nat.add_comm, hfails.firstOutcomes_add,
      putBlocks_failing hin hnone ((congrArg storage.check (Nat.zero_add _)).trans hcheck)] at hlater
    cases hlater
  · obtain hends | ⟨t, hnone, hcheck, hfails⟩ := putBlocks_ends storage encoded hin o
    · exact hends
    · exact absurd hfails (h.2 t hnone ((congrArg storage.check (Nat.zero_add _)).symm.trans hcheck))

end Shards

/-- Only the first attempt succeeds. -/
def onlyFirst (i : Nat) : Bool := i = 0

theorem onlyFirst_failsFrom : FailsFrom onlyFirst 1 := fun _ hs ↦ decide_eq_false (by omega)

/-- One of three replicas is stored, and then no other: both loops go on for ever. Without nodes there
is nothing to index. -/
theorem not_upload_loops_end_replica :
    (∀ t, uploadShards mirrorSum (.re 3 1) mirrorNodes mirrorVec (firstOutcomes onlyFirst t) {} =
        none) ∧
      (∀ t, mirrorShards.putBlocks (.re 3 1) [mirrorVec] (firstOutcomes onlyFirst t) {} = none) ∧
      ∀ o t, uploadShards mirrorSum (.re 3 1) [] mirrorVec (firstOutcomes o t) {} = none := by
  have hupload : ∀ t, uploadShards mirrorSum (.re 3 1) mirrorNodes mirrorVec
      (firstOutcomes onlyFirst t) {} = none := by
    intro t
    cases t with
    | zero => rfl
    | succ m =>
      have hone : uploadShards mirrorSum (.re 3 1) mirrorNodes mirrorVec
          (firstOutcomes onlyFirst 1) {} = none := rfl
      obtain ⟨w, hw, hlt, -, hsucc, hgo⟩ := uploadShards_none (by decide) hone
      rw [Nat.add_comm, onlyFirst_failsFrom.firstOutcomes_add, hgo]
      refine uploadShards_failing hw hlt ?_ m
      rw [hsucc]
      rfl
  refine ⟨hupload, fun t ↦ ?_, fun o t ↦ uploadShards_no_nodes (by decide) rfl _⟩
  rw [Shards.putBlocks]
  have hnone : uploadShards mirrorShards.sha256sum (.re 3 1) mirrorShards.nodes mirrorVec
      (firstOutcomes onlyFirst t) {} = none := hupload t
  rw [hnone, Option.bind_none]

end Spkdfs
