import Spkdfs.Common.Buckets

namespace Spkdfs.ExtendibleHashTable

open Library Function

variable {K V : Type}

section

variable {dir : List (Option Nat)} {half : Nat}

/-- The slots of the new half that were left null point where the old half does. -/
theorem fillNull_spec (h : dir.length = half + half) :
    (fillNull dir).length = dir.length ∧ ∀ j, (fillNull dir)[j]? =
      if half ≤ j ∧ dir[j]? = some none then some (dir[j - half]?).join else dir[j]? := by
  have hhalf : dir.length >>> 1 = half := by
    rw [h, Nat.shiftRight_one]
    omega
  have hturns : ∀ n ≤ half, ((List.range' half n).foldl (fun dir i ↦
      if dir[i]? = some none then dir.set i (dir[i - half]?).join else dir) dir).length =
        dir.length ∧ ∀ j, ((List.range' half n).foldl (fun dir i ↦
      if dir[i]? = some none then dir.set i (dir[i - half]?).join else dir) dir)[j]? =
        if (half ≤ j ∧ j < half + n) ∧ dir[j]? = some none then some (dir[j - half]?).join
        else dir[j]? := by
    intro n hn
    induction n with
    | zero =>
      refine ⟨rfl, fun j ↦ (if_neg fun hj ↦ ?_).symm⟩
      omega
    | succ n ih =>
      obtain ⟨hlength, hget⟩ := ih (by omega)
      rw [List.range'_1_concat, List.foldl_append, List.foldl_cons, List.foldl_nil]
      -- the last turn reads a slot of the old half, which no turn changes
      have hlast : ((List.range' half n).foldl (fun dir i ↦
          if dir[i]? = some none then dir.set i (dir[i - half]?).join else dir) dir)[half + n]? =
            dir[half + n]? := (hget _).trans (if_neg (by omega))
      have hold : ((List.range' half n).foldl (fun dir i ↦
          if dir[i]? = some none then dir.set i (dir[i - half]?).join else dir) dir)[
            half + n - half]? = dir[half + n - half]? := (hget _).trans (if_neg (by omega))
      rw [hlast, hold]
      by_cases hnull : dir[half + n]? = some none
      · rw [if_pos hnull]
        refine ⟨(List.length_set ..).trans hlength, fun j ↦ ?_⟩
        by_cases hj : j = half + n
        · rw [hj, List.getElem?_set_self (by omega), if_pos ⟨⟨by omega, by omega⟩, hnull⟩]
        · rw [List.getElem?_set_ne (Ne.symm hj), hget]
          refine if_congr (and_congr_left fun _ ↦ ?_) rfl rfl
          omega
      · rw [if_neg hnull]
        refine ⟨hlength, fun j ↦ (hget j).trans ?_⟩
        by_cases hj : j = half + n
        · rw [hj, if_neg (by omega), if_neg fun hand ↦ hnull hand.2]
        · refine if_congr (and_congr_left fun _ ↦ ?_) rfl rfl
          omega
  have hend : dir.length - half = half := by omega
  simp only [fillNull, hhalf, hend]
  refine ⟨(hturns half le_rfl).1, fun j ↦ ((hturns half le_rfl).2 j).trans ?_⟩
  refine if_congr (and_congr_left fun hnull ↦ ?_) rfl rfl
  obtain ⟨hj, -⟩ := List.getElem?_eq_some_iff.mp hnull
  omega

end

variable [DecidableEq K] {hash : K → Nat} {t : ExtendibleHashTable K V}

/-- The items go to the two new buckets by the next bit of their hash. -/
theorem reinsert_spec (t : ExtendibleHashTable K V) (heap : List (Bucket K V)) (even odd : Bucket K V)
    (l : Nat) (items : List (K × V))
    (hdir : ∀ element ∈ items, t.dir[hash element.1 % 2 ^ t.globalDepth]? =
      some (some (if (hash element.1).testBit l then heap.length + 1 else heap.length)))
    (hkeys : (items.map (·.1)).Nodup)
    (heven : ∀ element ∈ items, ∀ v, (element.1, v) ∉ even.list)
    (hodd : ∀ element ∈ items, ∀ v, (element.1, v) ∉ odd.list)
    (hevenRoom : even.list.length + items.length ≤ even.size)
    (hoddRoom : odd.list.length + items.length ≤ odd.size) :
    reinsert hash { t with heap := heap ++ [even, odd] } items = some { t with
      heap := heap ++ [even.append (items.filter fun element ↦ !(hash element.1).testBit l),
        odd.append (items.filter fun element ↦ (hash element.1).testBit l)] } := by
  induction items generalizing even odd with
  | nil => simp only [reinsert, List.filter_nil, Bucket.append_nil]
  | cons element items ih =>
    obtain ⟨key, value⟩ := element
    obtain ⟨hslot, hdir⟩ := List.forall_mem_cons.mp hdir
    obtain ⟨hevenNew, heven⟩ := List.forall_mem_cons.mp heven
    obtain ⟨hoddNew, hodd⟩ := List.forall_mem_cons.mp hodd
    rw [List.map_cons, List.nodup_cons] at hkeys
    rw [List.length_cons] at hevenRoom hoddRoom
    have hnew : ∀ {b : Bucket K V}, (∀ element ∈ items, ∀ v, (element.1, v) ∉ b.list) →
        ∀ element ∈ items, ∀ v, (element.1, v) ∉ (b.append [(key, value)]).list := by
      intro b hb element hmem v h
      obtain h | h := List.mem_append.mp h
      · exact hb element hmem v h
      · have hkey : element.1 = key := congrArg Prod.fst (List.mem_singleton.mp h)
        exact hkeys.1 (List.mem_map.mpr ⟨element, hmem, hkey⟩)
    have hroom : ∀ {b : Bucket K V}, b.list.length + (items.length + 1) ≤ b.size →
        (b.append [(key, value)]).list.length + items.length ≤ (b.append [(key, value)]).size := by
      intro b hb
      rw [Bucket.append, List.length_append, List.length_singleton]
      exact (Nat.add_assoc .. ▸ Nat.add_comm 1 items.length ▸ hb)
    have hat : ∀ {p b}, t.dir[hash key % 2 ^ t.globalDepth]? = some (some p) →
        (heap ++ [even, odd])[p]? = some b → bucketAt { t with heap := heap ++ [even, odd] }
          (indexOf hash { t with heap := heap ++ [even, odd] } key) = some (p, b) := by
      intro p b hp hb
      rw [bucketAt_eq_some, indexOf_eq]
      exact ⟨hp, hb⟩
    rw [reinsert]
    by_cases hbit : (hash key).testBit l
    · rw [if_pos hbit] at hslot
      have hset : (heap ++ [even, odd]).set (heap.length + 1) (odd.append [(key, value)]) =
          heap ++ [even, odd.append [(key, value)]] := by
        rw [List.set_append_right _ _ (by omega), Nat.add_sub_cancel_left]
        rfl
      have hpoints : (heap ++ [even, odd])[heap.length + 1]? = some odd := by simp
      rw [hat hslot hpoints, Option.bind_eq_bind, Option.bind_some]
      simp only [Bucket.insert_new hoddNew (show odd.list.length < odd.size by omega), store, hset]
      rw [ih _ _ hdir hkeys.2 heven (hnew hodd) (by omega) (hroom hoddRoom)]
      simp only [List.filter_cons, hbit, Bool.not_true, Bucket.append_append, if_true,
        Bool.false_eq_true, if_false, List.singleton_append]
    · have hbit' := eq_false_of_ne_true hbit
      rw [if_neg hbit] at hslot
      have hset : (heap ++ [even, odd]).set heap.length (even.append [(key, value)]) =
          heap ++ [even.append [(key, value)], odd] := by
        rw [List.set_append_right _ _ le_rfl, Nat.sub_self]
        rfl
      have hpoints : (heap ++ [even, odd])[heap.length]? = some even := by simp
      rw [hat hslot hpoints, Option.bind_eq_bind, Option.bind_some]
      simp only [Bucket.insert_new hevenNew (show even.list.length < even.size by omega), store, hset]
      rw [ih _ _ hdir hkeys.2 (hnew heven) hodd (hroom hevenRoom) (by omega)]
      simp only [List.filter_cons, hbit', Bool.not_false, Bucket.append_append, if_true,
        Bool.false_eq_true, if_false, List.singleton_append]

/-- One of the two buckets that `RedistributeBucket` makes of a full one. -/
def half (hash : K → Nat) (b : Bucket K V) (bit : Bool) : Bucket K V where
  list := b.list.reverse.filter fun element ↦ (hash element.1).testBit b.depth == bit
  size := b.size
  depth := b.depth + 1

/-- The slots that agree with `k` in the last bits of the bucket are null or point to it. -/
theorem redistributeBucket_spec {p k g : Nat} {b : Bucket K V} {m : K → Option V}
    (hlength : t.dir.length = 2 ^ t.globalDepth) (hl : b.depth ≤ g)
    (hmore : b.depth < t.globalDepth)
    (hslots : ∀ j < t.dir.length, j ≡ k [MOD 2 ^ b.depth] →
      t.dir[j]? = some none ∨ t.dir[j]? = some (some p))
    (hb : b.Holds hash t.bucketSize m b.depth k) :
    ∃ dir, redistributeBucket hash t p b (k % 2 ^ g) = some { t with
        numBuckets := t.numBuckets + 1
        dir := dir
        heap := t.heap.set p b.incrementDepth ++ [half hash b false, half hash b true] } ∧
      dir.length = t.dir.length ∧ ∀ j, dir[j]? = if j < t.dir.length ∧ j ≡ k [MOD 2 ^ b.depth] then
        some (some (if j.testBit b.depth then t.heap.length + 1 else t.heap.length)) else t.dir[j]? := by
  have hdvd : 2 ^ b.depth ∣ 2 ^ g := Nat.pow_dvd_pow 2 hl
  have hstart : k % 2 ^ g % 2 ^ b.depth = k % 2 ^ b.depth := Nat.mod_mod_of_dvd k hdvd
  have hmeets : ∀ j, (k % 2 ^ b.depth ≤ j ∧ j ≡ k % 2 ^ b.depth [MOD 2 ^ b.depth]) ∧
      (t.dir[j]? = some none ∨ t.dir[j]? = some (some p)) ↔
        j < t.dir.length ∧ j ≡ k [MOD 2 ^ b.depth] := by
    intro j
    constructor
    · rintro ⟨⟨-, hj⟩, hpoints⟩
      refine ⟨?_, hj.trans (Nat.mod_modEq ..)⟩
      by_contra hend
      rw [List.getElem?_eq_none (Nat.le_of_not_lt hend)] at hpoints
      exact hpoints.elim (by simp) (by simp)
    · rintro ⟨hj, hk⟩
      refine ⟨⟨?_, hk.trans (Nat.mod_modEq ..).symm⟩, hslots j hj hk⟩
      exact (show j % 2 ^ b.depth = k % 2 ^ b.depth from hk).symm.le.trans (Nat.mod_le ..)
  have hdir : ∀ j, (redirect p t.heap.length (t.heap.length + 1) b.depth t.dir.length
      (k % 2 ^ g % 2 ^ b.depth) t.dir)[j]? = if j < t.dir.length ∧ j ≡ k [MOD 2 ^ b.depth] then
        some (some (if j.testBit b.depth then t.heap.length + 1 else t.heap.length))
      else t.dir[j]? := by
    intro j
    rw [hstart, getElem?_redirect (by omega)]
    exact if_congr (hmeets j) rfl rfl
  refine ⟨_, ?_, length_redirect .., hdir⟩
  have hset : (t.heap.set p b.incrementDepth).length = t.heap.length := List.length_set ..
  have hspec := @reinsert_spec K V _ hash
    { t with
      numBuckets := t.numBuckets + 1
      dir := redirect p t.heap.length (t.heap.length + 1) b.depth t.dir.length
        (k % 2 ^ g % 2 ^ b.depth) t.dir }
    (t.heap.set p b.incrementDepth) { size := t.bucketSize, depth := b.depth + 1 }
    { size := t.bucketSize, depth := b.depth + 1 } b.depth b.list.reverse ?_ ?_ ?_ ?_ ?_ ?_
  · have hhalf : [half hash b false, half hash b true] =
        [Bucket.append { size := t.bucketSize, depth := b.depth + 1 }
            (b.list.reverse.filter fun element ↦ !(hash element.1).testBit b.depth),
          Bucket.append { size := t.bucketSize, depth := b.depth + 1 }
            (b.list.reverse.filter fun element ↦ (hash element.1).testBit b.depth)] := by
      simp [half, Bucket.append, hb.size]
    rw [hhalf]
    exact hspec
  · intro element hmem
    have hkey := ((hb.pairs element.1 element.2).mp (List.mem_reverse.mp hmem)).2
    have hindex : hash element.1 % 2 ^ t.globalDepth < t.dir.length := by
      rw [hlength]
      exact Nat.mod_lt _ (Nat.two_pow_pos _)
    have hmod := modEq_two_pow_of_le (Nat.mod_modEq (hash element.1) (2 ^ t.globalDepth)) hmore.le
    rw [hdir, if_pos ⟨hindex, hmod.trans hkey⟩, Nat.testBit_mod_two_pow, hset]
    simp only [hmore, decide_true, Bool.true_and]
  · rw [List.map_reverse, List.nodup_reverse]
    exact hb.keys
  · exact fun _ _ _ h ↦ by cases h
  · exact fun _ _ _ h ↦ by cases h
  · rw [List.length_reverse]
    exact (Nat.zero_add _).le.trans hb.room
  · rw [List.length_reverse]
    exact (Nat.zero_add _).le.trans hb.room

/-- What a turn of the loop of `Insert` makes of the table. -/
structure SplitOf (hash : K → Nat) (t : ExtendibleHashTable K V) (p : Nat) (b : Bucket K V) (k : Nat)
    (t' : ExtendibleHashTable K V) : Prop where
  globalDepth : t'.globalDepth = if b.depth = t.globalDepth then t.globalDepth + 1 else t.globalDepth
  bucketSize : t'.bucketSize = t.bucketSize
  numBuckets : t'.numBuckets = t.numBuckets + 1
  heap : t'.heap = t.heap.set p b.incrementDepth ++ [half hash b false, half hash b true]
  length : t'.dir.length = 2 ^ t'.globalDepth
  slots : ∀ h, t'.dir[h % 2 ^ t'.globalDepth]? = if h ≡ k [MOD 2 ^ b.depth] then
      some (some (if h.testBit b.depth then t.heap.length + 1 else t.heap.length))
    else t.dir[h % 2 ^ t.globalDepth]?

theorem getElem?_resize {dir : List (Option Nat)} {n : Nat} (h : dir.length ≤ n) (j : Nat) :
    (resize n dir).length = n ∧ (resize n dir)[j]? =
      if j < dir.length then dir[j]? else if j < n then some none else none := by
  rw [resize, List.take_of_length_le h]
  refine ⟨?_, ?_⟩
  · rw [List.length_append, List.length_replicate]
    omega
  · split_ifs with hj hn
    · exact List.getElem?_append_left hj
    · rw [List.getElem?_append_right (Nat.le_of_not_lt hj), List.getElem?_replicate, if_pos (by omega)]
    · rw [List.getElem?_append_right (Nat.le_of_not_lt hj), List.getElem?_replicate, if_neg (by omega)]

theorem splitBucket_spec {p k : Nat} {b : Bucket K V} {m : K → Option V}
    (hlength : t.dir.length = 2 ^ t.globalDepth) (hl : b.depth ≤ t.globalDepth)
    (hslots : ∀ j < t.dir.length, j ≡ k [MOD 2 ^ b.depth] → t.dir[j]? = some (some p))
    (hb : b.Holds hash t.bucketSize m b.depth k) :
    ∃ t', splitBucket hash t p b (k % 2 ^ t.globalDepth) = some t' ∧ SplitOf hash t p b k t' := by
  have hmod : ∀ h g, b.depth ≤ g → (h % 2 ^ g ≡ k [MOD 2 ^ b.depth] ↔ h ≡ k [MOD 2 ^ b.depth]) := by
    intro h g hg
    have hsame := modEq_two_pow_of_le (Nat.mod_modEq h (2 ^ g)) hg
    exact ⟨hsame.symm.trans, hsame.trans⟩
  by_cases hext : b.depth = t.globalDepth
  · have hdouble : 2 ^ (t.globalDepth + 1) = t.dir.length + t.dir.length := by
      rw [hlength, Nat.pow_succ, Nat.mul_two]
    have hsize : t.dir.length ≤ 2 ^ (t.globalDepth + 1) := by omega
    have hresize := getElem?_resize hsize
    have hnew : ∀ j < (resize (2 ^ (t.globalDepth + 1)) t.dir).length, j ≡ k [MOD 2 ^ b.depth] →
        (resize (2 ^ (t.globalDepth + 1)) t.dir)[j]? = some none ∨
          (resize (2 ^ (t.globalDepth + 1)) t.dir)[j]? = some (some p) := by
      intro j hj hk
      rw [(hresize j).1] at hj
      rw [(hresize j).2]
      split_ifs with hold
      · exact .inr (hslots j hold hk)
      · exact .inl rfl
    obtain ⟨dir, hrun, hdir, hget⟩ := redistributeBucket_spec
      (t := { t with globalDepth := t.globalDepth + 1,
                     dir := resize (2 ^ (t.globalDepth + 1)) t.dir })
      (hresize 0).1 hl (Nat.lt_succ_of_le hl) hnew hb
    simp only [(hresize 0).1, (hresize _).2] at hdir hget
    obtain ⟨hfilled, hfill⟩ := fillNull_spec (hdir.trans hdouble)
    have hsplit : splitBucket hash t p b (k % 2 ^ t.globalDepth) = _ := if_pos hext
    simp only [hrun, Option.bind_eq_bind, Option.bind_some, Option.pure_def] at hsplit
    refine ⟨_, hsplit, (if_pos hext).symm, rfl, rfl, rfl, hfilled.trans hdir, fun h ↦ ?_⟩
    have hindex : h % 2 ^ (t.globalDepth + 1) < 2 ^ (t.globalDepth + 1) :=
      Nat.mod_lt _ (Nat.two_pow_pos _)
    have hbelow : h % 2 ^ t.globalDepth < t.dir.length := by
      rw [hlength]
      exact Nat.mod_lt _ (Nat.two_pow_pos _)
    simp only [hfill, hget, hindex, true_and, hmod h _ (Nat.le_succ_of_le hl)]
    by_cases hk : h ≡ k [MOD 2 ^ b.depth]
    · -- the slot has just been redirected
      simp only [hk, if_true, Option.some.injEq, reduceCtorEq, and_false, if_false,
        Nat.testBit_mod_two_pow, Nat.lt_succ_of_le hl, decide_true, Bool.true_and]
    have hreduce : h % 2 ^ (t.globalDepth + 1) % t.dir.length = h % 2 ^ t.globalDepth := by
      rw [hlength]
      exact Nat.mod_mod_of_dvd h (Nat.pow_dvd_pow 2 (Nat.le_succ _))
    simp only [hk, if_false]
    by_cases hold : h % 2 ^ (t.globalDepth + 1) < t.dir.length
    · have hsame : h % 2 ^ (t.globalDepth + 1) = h % 2 ^ t.globalDepth := by
        rw [← hreduce, Nat.mod_eq_of_lt hold]
      simp only [hsame, hbelow, if_true]
      rw [if_neg fun hand ↦ absurd hbelow (Nat.not_lt_of_le hand.1)]
    · -- the slot is null and gets what the old half has
      have hsame : h % 2 ^ (t.globalDepth + 1) - t.dir.length = h % 2 ^ t.globalDepth := by
        have hsub := Nat.mod_eq_sub_mod (Nat.le_of_not_lt hold)
        have hlt : h % 2 ^ (t.globalDepth + 1) - t.dir.length < t.dir.length := by omega
        rw [hreduce, Nat.mod_eq_of_lt hlt] at hsub
        exact hsub.symm
      have hslot := hmod h t.globalDepth hl
      simp only [hold, if_false, Nat.le_of_not_lt hold, true_and, if_true, hsame, hslot, hk, and_false,
        hbelow]
      rw [List.getElem?_eq_getElem hbelow]
      rfl
  · have hlt : b.depth < t.globalDepth := lt_of_le_of_ne hl hext
    obtain ⟨dir, hrun, hdir, hget⟩ := redistributeBucket_spec hlength hl hlt
      (fun j hj hk ↦ .inr (hslots j hj hk)) hb
    refine ⟨_, (if_neg hext).trans hrun, (if_neg hext).symm, rfl, rfl, rfl, hdir.trans hlength,
      fun h ↦ ?_⟩
    have hindex : h % 2 ^ t.globalDepth < t.dir.length := by
      rw [hlength]
      exact Nat.mod_lt _ (Nat.two_pow_pos _)
    rw [hget]
    simp only [hindex, true_and, hmod h _ hl, Nat.testBit_mod_two_pow, hlt, decide_true,
      Bool.true_and]

end Spkdfs.ExtendibleHashTable
