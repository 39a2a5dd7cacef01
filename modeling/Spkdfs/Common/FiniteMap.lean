import Spkdfs.Common.Splitting

namespace Spkdfs

open Library Function

namespace ExtendibleHashTable

variable {K V : Type} {hash : K → Nat} {t t' : ExtendibleHashTable K V} {d : Directory Nat}
  {m m' : K → Option V} {b : Bucket K V} {p k : Nat} {key : K} {value : V}

/-- The slot for the number points to the bucket. -/
structure Leads (t : ExtendibleHashTable K V) (h p : Nat) (b : Bucket K V) : Prop where
  slot : t.dir[h % 2 ^ t.globalDepth]? = some (some p)
  bucket : t.heap[p]? = some b

/-- The slots of the table are those of a directory, and its buckets have the pairs of a map. -/
structure Refines (hash : K → Nat) (t : ExtendibleHashTable K V) (d : Directory Nat)
    (m : K → Option V) : Prop where
  length : t.dir.length = 2 ^ t.globalDepth
  depth : ∀ h, d.depth h ≤ t.globalDepth
  deep : ∃ h, d.depth h = t.globalDepth
  leads : ∀ h, ∃ b, t.Leads h (d.place h) b ∧ b.Holds hash t.bucketSize m (d.depth h) h
  count : t.numBuckets = d.classes t.globalDepth

theorem refines_new (hash : K → Nat) (bucketSize : Nat) :
    Refines hash (new bucketSize : ExtendibleHashTable K V) (.single 0) fun _ ↦ none where
  length := rfl
  depth _ := le_rfl
  deep := ⟨0, rfl⟩
  leads h := by
    refine ⟨{ size := bucketSize, depth := 0 }, ⟨?_, rfl⟩, rfl, rfl, Nat.zero_le _, .nil, ?_⟩
    · rw [show (new bucketSize : ExtendibleHashTable K V).globalDepth = 0 from rfl, Nat.pow_zero,
        Nat.mod_one]
      rfl
    · exact fun key value ↦ iff_of_false List.not_mem_nil fun h ↦ by cases h.1
  count := rfl

theorem Refines.leads_unique (hr : t.Refines hash d m) (h : t.Leads k p b) :
    p = d.place k ∧ b.Holds hash t.bucketSize m (d.depth k) k := by
  obtain ⟨c, hc, hholds⟩ := hr.leads k
  obtain rfl := Option.some.inj (Option.some.inj (h.slot.symm.trans hc.slot))
  obtain rfl := Option.some.inj (h.bucket.symm.trans hc.bucket)
  exact ⟨rfl, hholds⟩

theorem Refines.bucketAt (hr : t.Refines hash d m) (key : K) :
    ∃ b, t.bucketAt (t.indexOf hash key) = some (d.place (hash key), b) ∧
      t.Leads (hash key) (d.place (hash key)) b ∧
        b.Holds hash t.bucketSize m (d.depth (hash key)) (hash key) := by
  obtain ⟨b, hb, hholds⟩ := hr.leads (hash key)
  refine ⟨b, ?_, hb, hholds⟩
  rw [bucketAt_eq_some, indexOf_eq]
  exact ⟨hb.slot, hb.bucket⟩

/-- Another bucket is stored in the place of a key, and only what the map has for this key changes. -/
theorem Refines.store (hr : t.Refines hash d m)
    (hb : b.Holds hash t.bucketSize m' (d.depth (hash key)) (hash key))
    (hm : ∀ other ≠ key, m' other = m other) :
    (t.store (d.place (hash key)) b).Refines hash d m' where
  length := hr.length
  depth := hr.depth
  deep := hr.deep
  count := hr.count
  leads h := by
    obtain ⟨c, hc, hholds⟩ := hr.leads h
    have hlt := (List.getElem?_eq_some_iff.mp hc.bucket).1
    by_cases hplace : d.place h = d.place (hash key)
    · rw [hplace] at hlt
      have hdepth := Directory.depth_eq_of_place hplace
      refine ⟨b, ⟨hplace ▸ hc.slot, ?_⟩, ?_⟩
      · rw [hplace]
        exact List.getElem?_set_self hlt
      · rw [hdepth]
        exact hb.congr ((d.same _ _).mp hplace.symm) fun _ _ ↦ rfl
    · refine ⟨c, ⟨hc.slot, ?_⟩, hholds.congr rfl fun other hother ↦ hm other ?_⟩
      · exact (List.getElem?_set_ne (Ne.symm hplace)).trans hc.bucket
      · -- the key is not one of this bucket
        rintro rfl
        exact hplace ((d.same h _).mpr hother.symm)

theorem Refines.fresh (hr : t.Refines hash d m) (h : Nat) : d.place h < t.heap.length := by
  obtain ⟨b, hb, -⟩ := hr.leads h
  exact (List.getElem?_eq_some_iff.mp hb.bucket).1

variable [DecidableEq K]

theorem Refines.find_eq (hr : t.Refines hash d m) (key : K) (value : V) :
    t.find hash key value = some ((m key).isSome, (m key).getD value) := by
  obtain ⟨b, hb, -, hholds⟩ := hr.bucketAt key
  rw [find, hb, Option.bind_eq_bind, Option.bind_some]
  exact congrArg some (hholds.find_eq rfl value)

theorem Refines.remove (hr : t.Refines hash d m) (key : K) :
    ∃ t', t.remove hash key = some ((m key).isSome, t') ∧ t'.bucketSize = t.bucketSize ∧
      t'.Refines hash d (update m key none) := by
  obtain ⟨b, hb, -, hholds⟩ := hr.bucketAt key
  obtain ⟨hremoved, hholds'⟩ := hholds.remove rfl
  refine ⟨t.store (d.place (hash key)) (b.remove key).2, ?_, rfl,
    hr.store hholds' fun other hother ↦ update_of_ne hother ..⟩
  rw [ExtendibleHashTable.remove, hb, Option.bind_eq_bind, Option.bind_some, ← hremoved]
  rfl

omit [DecidableEq K] in
/-- The next bit of the hash decides to which of the two buckets a pair belongs. -/
theorem half_holds {n h : Nat} (hb : b.Holds hash n m b.depth k) (hh : h ≡ k [MOD 2 ^ b.depth]) :
    (half hash b (h.testBit b.depth)).Holds hash n m (b.depth + 1) h where
  depth := rfl
  size := hb.size
  room := by
    have hle := List.length_filter_le (fun element ↦
      (hash element.1).testBit b.depth == h.testBit b.depth) b.list.reverse
    rw [List.length_reverse] at hle
    exact hle.trans hb.room
  keys := by
    refine List.Nodup.sublist (List.filter_sublist.map _) ?_
    rw [List.map_reverse, List.nodup_reverse]
    exact hb.keys
  pairs key value := by
    rw [half, List.mem_filter, List.mem_reverse, hb.pairs, modEq_two_pow_succ, beq_iff_eq,
      and_assoc]
    have hsame : hash key ≡ k [MOD 2 ^ b.depth] ↔ hash key ≡ h [MOD 2 ^ b.depth] :=
      ⟨fun hk ↦ hk.trans hh.symm, fun hk ↦ hk.trans hh⟩
    rw [hsame]

/-- A turn of the loop of `Insert` divides a place of the directory and keeps the map. -/
theorem Refines.split (hr : t.Refines hash d m) (hholds : b.Holds hash t.bucketSize m (d.depth k) k) :
    ∃ t' hne heven hodd, splitBucket hash t (d.place k) b (k % 2 ^ t.globalDepth) = some t' ∧
      t'.bucketSize = t.bucketSize ∧
        t'.Refines hash (d.split k t.heap.length (t.heap.length + 1) hne heven hodd) m := by
  have hdepth := hholds.depth
  rw [← hdepth] at hholds
  have hl : b.depth ≤ t.globalDepth := hdepth ▸ hr.depth k
  have hslots : ∀ j < t.dir.length, j ≡ k [MOD 2 ^ b.depth] →
      t.dir[j]? = some (some (d.place k)) := by
    intro j hj hk
    obtain ⟨c, hc, -⟩ := hr.leads j
    have hslot := hc.slot
    rw [Nat.mod_eq_of_lt (hr.length ▸ hj)] at hslot
    rw [hslot, (d.same k j).mpr (hdepth ▸ hk.symm)]
  obtain ⟨t', hrun, hs⟩ := splitBucket_spec hr.length hl hslots hholds
  have hlater : t.globalDepth ≤ t'.globalDepth ∧ d.depth k < t'.globalDepth := by
    rw [hs.globalDepth, ← hdepth]
    split_ifs with hext
    · exact ⟨Nat.le_succ _, hext ▸ Nat.lt_succ_self _⟩
    · exact ⟨le_rfl, lt_of_le_of_ne hl hext⟩
  refine ⟨t', (Nat.lt_succ_self _).ne, fun h ↦ (hr.fresh h).ne,
    fun h ↦ ((hr.fresh h).trans (Nat.lt_succ_self _)).ne, hrun, hs.bucketSize, hs.length,
    Directory.depth_split_le hr.depth hlater.1 hlater.2, ?_, fun h ↦ ?_, ?_⟩
  · -- the deepest place is a new one, or it was there before
    by_cases hext : b.depth = t.globalDepth
    · refine ⟨k, (Directory.depth_split_of_modEq rfl).trans ?_⟩
      rw [hs.globalDepth, if_pos hext, ← hdepth, hext]
    · obtain ⟨h, hh⟩ := hr.deep
      refine ⟨h, (Directory.depth_split_of_not_modEq fun hk ↦ hext ?_).trans ?_⟩
      · rw [hdepth, Directory.depth_eq_of_place ((d.same k h).mpr hk.symm), hh]
      · rw [hs.globalDepth, if_neg hext, hh]
  · have hslot := hs.slots h
    have hset : (t.heap.set (d.place k) b.incrementDepth).length = t.heap.length :=
      List.length_set ..
    by_cases hk : h ≡ k [MOD 2 ^ b.depth]
    · have hk' : h ≡ k [MOD 2 ^ d.depth k] := hdepth ▸ hk
      rw [if_pos hk] at hslot
      refine ⟨half hash b (h.testBit b.depth), ⟨?_, ?_⟩, ?_⟩
      · rw [hslot, Directory.place_split_of_modEq hk', hdepth]
      · rw [hs.heap, Directory.place_split_of_modEq hk', hdepth]
        cases h.testBit (d.depth k) <;> simp
      · rw [hs.bucketSize, Directory.depth_split_of_modEq hk', ← hdepth]
        exact half_holds hholds hk
    · have hk' : ¬ h ≡ k [MOD 2 ^ d.depth k] := hdepth ▸ hk
      rw [if_neg hk] at hslot
      obtain ⟨c, hc, hcholds⟩ := hr.leads h
      refine ⟨c, ⟨?_, ?_⟩, ?_⟩
      · rw [hslot, Directory.place_split_of_not_modEq hk', hc.slot]
      · have hother : d.place k ≠ d.place h := fun heq ↦ hk' ((d.same k h).mp heq).symm
        rw [hs.heap, Directory.place_split_of_not_modEq hk',
          List.getElem?_append_left (hset ▸ hr.fresh h), List.getElem?_set_ne hother]
        exact hc.bucket
      · rw [hs.bucketSize, Directory.depth_split_of_not_modEq hk']
        exact hcholds
  · rw [hs.numBuckets, hr.count, Directory.classes_split hr.depth hlater.1 hlater.2]

omit [DecidableEq K] in
/-- More keys of the map than a bucket takes agree with the number in the last bits. -/
def Crowded (hash : K → Nat) (n : Nat) (m : K → Option V) (l i : Nat) : Prop :=
  ∃ keys : List K, keys.Nodup ∧ n < keys.length ∧
    ∀ key ∈ keys, m key ≠ none ∧ hash key ≡ i [MOD 2 ^ l]

section

variable {n l i j : Nat}

omit [DecidableEq K] in
theorem Crowded.congr (h : Crowded hash n m l i) (hij : i ≡ j [MOD 2 ^ l]) :
    Crowded hash n m l j := by
  obtain ⟨keys, hnodup, hlength, hkeys⟩ := h
  exact ⟨keys, hnodup, hlength, fun key hk ↦ ⟨(hkeys key hk).1, (hkeys key hk).2.trans hij⟩⟩

omit [DecidableEq K] in
theorem Crowded.of_le {l' : Nat} (h : Crowded hash n m l i) (hle : l' ≤ l) :
    Crowded hash n m l' i := by
  obtain ⟨keys, hnodup, hlength, hkeys⟩ := h
  exact ⟨keys, hnodup, hlength, fun key hk ↦
    ⟨(hkeys key hk).1, modEq_two_pow_of_le (hkeys key hk).2 hle⟩⟩

theorem Crowded.update (h : Crowded hash n m l i) (key : K) (value : V) :
    Crowded hash n (update m key (some value)) l i := by
  obtain ⟨keys, hnodup, hlength, hkeys⟩ := h
  refine ⟨keys, hnodup, hlength, fun other hother ↦ ⟨?_, (hkeys other hother).2⟩⟩
  by_cases hkey : other = key
  · rw [hkey, update_self]
    exact Option.some_ne_none value
  · rw [update_of_ne hkey]
    exact (hkeys other hother).1

omit [DecidableEq K] in
theorem not_crowded (hb : b.Holds hash n m l i) : ¬ Crowded hash n m l i := by
  rintro ⟨keys, hnodup, hlength, hkeys⟩
  have hsub : keys ⊆ b.list.map (·.1) := by
    intro key hk
    obtain ⟨hm, hhash⟩ := hkeys key hk
    obtain ⟨value, hvalue⟩ := Option.ne_none_iff_exists'.mp hm
    exact List.mem_map.mpr ⟨(key, value), (hb.pairs key value).mpr ⟨hvalue, hhash⟩, rfl⟩
  have hle := (hnodup.subperm hsub).length_le
  rw [List.length_map] at hle
  exact absurd hb.room (Nat.not_le_of_lt (hlength.trans_le hle))

/-- A full bucket is crowded by a key that is not in it. -/
theorem crowded_of_full (hb : b.Holds hash n m l (hash key)) (hkey : m key = none)
    (hfull : b.list.length = n) (value : V) :
    Crowded hash n (update m key (some value)) l (hash key) := by
  have hnew : key ∉ b.list.map (·.1) := by
    intro hmem
    obtain ⟨⟨k, v⟩, hpair, rfl⟩ := List.mem_map.mp hmem
    have hv := ((hb.pairs k v).mp hpair).1
    rw [hkey] at hv
    cases hv
  refine ⟨key :: b.list.map (·.1), List.nodup_cons.mpr ⟨hnew, hb.keys⟩, ?_, fun other hother ↦ ?_⟩
  · rw [List.length_cons, List.length_map, hfull]
    exact Nat.lt_succ_self n
  · obtain rfl | hmem := List.mem_cons.mp hother
    · rw [update_self]
      exact ⟨Option.some_ne_none value, rfl⟩
    · obtain ⟨⟨k, v⟩, hpair, rfl⟩ := List.mem_map.mp hmem
      obtain ⟨hv, hhash⟩ := (hb.pairs k v).mp hpair
      rw [update_of_ne (ne_of_mem_of_not_mem hmem hnew), hv]
      exact ⟨Option.some_ne_none v, hhash⟩

end

/-- No place is deeper than the keys of the map need. -/
def Tight (hash : K → Nat) (n : Nat) (d : Directory Nat) (m : K → Option V) : Prop :=
  ∀ i, ∀ l < d.depth i, Crowded hash n m l i

omit [DecidableEq K] in
theorem Tight.split {n : Nat} {even odd : Nat} {hne : even ≠ odd} {heven : ∀ i, d.place i ≠ even}
    {hodd : ∀ i, d.place i ≠ odd} (h : Tight hash n d m) (hk : Crowded hash n m (d.depth k) k) :
    Tight hash n (d.split k even odd hne heven hodd) m := by
  intro i l hl
  by_cases hi : i ≡ k [MOD 2 ^ d.depth k]
  · rw [Directory.depth_split_of_modEq hi] at hl
    obtain hlt | rfl := Nat.lt_succ_iff_lt_or_eq.mp hl
    · have hdepth := Directory.depth_eq_of_place ((d.same k i).mpr hi.symm)
      exact h i l (hdepth ▸ hlt)
    · exact hk.congr hi.symm
  · rw [Directory.depth_split_of_not_modEq hi] at hl
    exact h i l hl

/-- A turn of the loop of `Insert`: the pair is stored, or too many keys are in the place of its key,
and the loop goes on with this place divided. -/
theorem Refines.insert_turn (hr : t.Refines hash d m) (key : K) (value : V) (fuel : Nat) :
    (∃ b, t.insert hash key value (fuel + 1) = some (t.store (d.place (hash key)) b) ∧
      (t.store (d.place (hash key)) b).Refines hash d (update m key (some value))) ∨
    Crowded hash t.bucketSize (update m key (some value)) (d.depth (hash key)) (hash key) ∧
      ∃ (t₁ : ExtendibleHashTable K V) (hne : _) (heven : _) (hodd : _),
        t.insert hash key value (fuel + 1) = t₁.insert hash key value fuel ∧
        t₁.bucketSize = t.bucketSize ∧ t₁.Refines hash
          (d.split (hash key) t.heap.length (t.heap.length + 1) hne heven hodd) m := by
  obtain ⟨b, hat, -, hholds⟩ := hr.bucketAt key
  rw [ExtendibleHashTable.insert, hat, Option.bind_eq_bind, Option.bind_some]
  cases hinsert : b.insert key value with
  | mk inserted c =>
    simp only [hinsert]
    have hc := congrArg Prod.snd hinsert
    cases inserted with
    | true =>
      have hstored := hholds.insert rfl (congrArg Prod.fst hinsert)
      rw [hc] at hstored
      exact .inl ⟨c, rfl, hr.store hstored fun other hother ↦ update_of_ne hother ..⟩
    | false =>
      obtain ⟨hnone, hfull⟩ := hholds.insert_false rfl (congrArg Prod.fst hinsert)
      obtain ⟨t₁, hne, heven, hodd, hsplit, hsize, hr₁⟩ := hr.split hholds
      refine .inr ⟨crowded_of_full hholds hnone hfull value, t₁, hne, heven, hodd, ?_, hsize, hr₁⟩
      rw [indexOf_eq, hsplit, Option.bind_eq_bind, Option.bind_some]

theorem Refines.insert {fuel : Nat} (hr : t.Refines hash d m)
    (h : t.insert hash key value fuel = some t') :
    t'.bucketSize = t.bucketSize ∧ ∃ d', t'.Refines hash d' (update m key (some value)) ∧
      (Tight hash t.bucketSize d (update m key (some value)) →
        Tight hash t.bucketSize d' (update m key (some value))) := by
  induction fuel generalizing t d with
  | zero => cases h
  | succ fuel ih =>
    obtain ⟨b, hstored, hr'⟩ | ⟨hcrowded, t₁, hne, heven, hodd, hturn, hsize, hr₁⟩ :=
      hr.insert_turn key value fuel
    · obtain rfl := Option.some.inj (hstored.symm.trans h)
      exact ⟨rfl, d, hr', id⟩
    · obtain ⟨hsize', d', hr', htight⟩ := ih hr₁ (hturn.symm.trans h)
      rw [hsize] at hsize' htight
      exact ⟨hsize', d', hr', fun ht ↦ htight (ht.split hcrowded)⟩

/-- The loop ends when the keys are apart in `D` bits: each turn makes the place of the key deeper by
one, and it is in a place of less than `D` bits that there can be too many of them. -/
theorem Refines.insert_ends {D : Nat} (hr : t.Refines hash d m)
    (hapart : ∀ i, ¬ Crowded hash t.bucketSize (update m key (some value)) D i) :
    ∃ t', t.insert hash key value (D - d.depth (hash key) + 1) = some t' ∧
      t'.globalDepth ≤ max D t.globalDepth := by
  generalize hturns : D - d.depth (hash key) = turns
  induction turns generalizing t d with
  | zero =>
    obtain ⟨b, hstored, -⟩ | ⟨hcrowded, -⟩ := hr.insert_turn key value 0
    · exact ⟨_, hstored, le_max_right _ _⟩
    · exact absurd (hcrowded.of_le (by omega)) (hapart (hash key))
  | succ turns ih =>
    obtain ⟨b, hstored, -⟩ | ⟨-, t₁, hne, heven, hodd, hturn, hsize, hr₁⟩ :=
      hr.insert_turn key value (turns + 1)
    · exact ⟨_, hstored, le_max_right _ _⟩
    · have hdepth : (d.split (hash key) _ _ hne heven hodd).depth (hash key) =
          d.depth (hash key) + 1 := Directory.depth_split_of_modEq rfl
      obtain ⟨t', hinsert, hle⟩ := ih hr₁ (hsize ▸ hapart) (by omega)
      have hglobal : t₁.globalDepth ≤ max D t.globalDepth := by
        obtain ⟨h, hh⟩ := hr₁.deep
        rw [← hh]
        by_cases hkey : h ≡ hash key [MOD 2 ^ d.depth (hash key)]
        · rw [Directory.depth_split_of_modEq hkey]
          omega
        · rw [Directory.depth_split_of_not_modEq hkey]
          exact (hr.depth h).trans (le_max_right _ _)
      exact ⟨t', hturn.trans hinsert, hle.trans (max_le (le_max_left _ _) hglobal)⟩

end ExtendibleHashTable

end Spkdfs
