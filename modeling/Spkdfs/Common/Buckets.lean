import Spkdfs.Common.ExtendibleHashTable

namespace Spkdfs

open Library Function

section

variable {K V : Type} [DecidableEq K] {list : List (K × V)} {key : K} {value : V}

theorem find?_of_mem (hkeys : (list.map (·.1)).Nodup) (h : (key, value) ∈ list) :
    list.find? (·.1 = key) = some (key, value) := by
  induction list with
  | nil => cases h
  | cons element list ih =>
    rw [List.map_cons, List.nodup_cons] at hkeys
    obtain heq | hmem := List.mem_cons.mp h
    · rw [← heq, List.find?_cons_of_pos (by simp)]
    · have hne : element.1 ≠ key := fun heq ↦ hkeys.1 (heq ▸ List.mem_map_of_mem hmem)
      rw [List.find?_cons_of_neg (by simpa using hne)]
      exact ih hkeys.2 hmem

theorem find?_of_notMem (h : ∀ value, (key, value) ∉ list) : list.find? (·.1 = key) = none := by
  rw [List.find?_eq_none]
  intro element hmem heq
  obtain rfl := of_decide_eq_true heq
  exact h element.2 hmem

theorem eraseP_eq_filter (hkeys : (list.map (·.1)).Nodup) (key : K) :
    list.eraseP (·.1 = key) = list.filter (·.1 ≠ key) := by
  induction list with
  | nil => rfl
  | cons element list ih =>
    rw [List.map_cons, List.nodup_cons] at hkeys
    by_cases hkey : element.1 = key
    · have hothers : ∀ other ∈ list, other.1 ≠ key := by
        intro other hmem heq
        refine hkeys.1 ?_
        rw [hkey, ← heq]
        exact List.mem_map_of_mem hmem
      rw [List.eraseP_cons_of_pos (by simpa using hkey), List.filter_cons_of_neg (by simpa using hkey)]
      exact (List.filter_eq_self.mpr (by simpa using hothers)).symm
    · rw [List.eraseP_cons_of_neg (by simpa using hkey), List.filter_cons_of_pos (by simpa using hkey),
        ih hkeys.2]

namespace Bucket

theorem map_assign (key : K) (value : V) (list : List (K × V)) :
    (assign key value list).map (·.1) = list.map (·.1) := by
  induction list with
  | nil => rfl
  | cons element list ih =>
    rw [assign]
    split_ifs
    · rfl
    · rw [List.map_cons, ih, List.map_cons]

theorem mem_assign {old : V} (hkeys : (list.map (·.1)).Nodup) (h : (key, old) ∈ list) {k : K}
    {v : V} : (k, v) ∈ assign key value list ↔ if k = key then v = value else (k, v) ∈ list := by
  induction list with
  | nil => cases h
  | cons element list ih =>
    rw [List.map_cons, List.nodup_cons] at hkeys
    by_cases hkey : element.1 = key
    · -- no other pair has the key
      have hother : ∀ v, (key, v) ∉ list := by
        intro v hmem
        exact hkeys.1 (hkey ▸ List.mem_map_of_mem hmem)
      rw [assign, if_pos hkey, List.mem_cons, List.mem_cons, hkey, Prod.mk.injEq]
      split_ifs with hk
      · subst hk
        simp [hother]
      · have hne : (k, v) ≠ element := fun heq ↦ hk ((congrArg Prod.fst heq).trans hkey)
        simp [hk, hne]
    · have hmem : (key, old) ∈ list := by
        refine (List.mem_cons.mp h).resolve_left fun heq ↦ hkey ?_
        exact (congrArg Prod.fst heq).symm
      rw [assign, if_neg hkey, List.mem_cons, List.mem_cons, ih hkeys.2 hmem]
      split_ifs with hk
      · refine or_iff_right fun heq ↦ hkey ?_
        rw [← heq, hk]
      · exact Iff.rfl

/-- A bucket for the numbers with these last bits has the pairs of the map that belong to it. -/
structure Holds (hash : K → Nat) (n : Nat) (m : K → Option V) (l h : Nat) (b : Bucket K V) :
    Prop where
  depth : b.depth = l
  size : b.size = n
  room : b.list.length ≤ n
  keys : (b.list.map (·.1)).Nodup
  pairs : ∀ key value, (key, value) ∈ b.list ↔ m key = some value ∧ hash key ≡ h [MOD 2 ^ l]

variable {hash : K → Nat} {n l h h' : Nat} {m m' : K → Option V} {b : Bucket K V}

omit [DecidableEq K] in
theorem Holds.congr (hb : b.Holds hash n m l h) (hh : h ≡ h' [MOD 2 ^ l])
    (hm : ∀ key, hash key ≡ h [MOD 2 ^ l] → m' key = m key) : b.Holds hash n m' l h' where
  depth := hb.depth
  size := hb.size
  room := hb.room
  keys := hb.keys
  pairs key value := by
    rw [hb.pairs]
    refine ⟨fun ⟨hvalue, hkey⟩ ↦ ⟨(hm key hkey).trans hvalue, hkey.trans hh⟩, fun ⟨hvalue, hkey⟩ ↦ ?_⟩
    have hkey' := hkey.trans hh.symm
    exact ⟨(hm key hkey').symm.trans hvalue, hkey'⟩

theorem Holds.find?_eq (hb : b.Holds hash n m l h) (hkey : hash key ≡ h [MOD 2 ^ l]) :
    b.list.find? (·.1 = key) = (m key).map (key, ·) := by
  cases hm : m key with
  | none =>
    refine find?_of_notMem fun value hmem ↦ ?_
    have hvalue := ((hb.pairs key value).mp hmem).1
    rw [hm] at hvalue
    cases hvalue
  | some value => exact find?_of_mem hb.keys ((hb.pairs key value).mpr ⟨hm, hkey⟩)

theorem Holds.find_eq (hb : b.Holds hash n m l h) (hkey : hash key ≡ h [MOD 2 ^ l]) (value : V) :
    b.find key value = ((m key).isSome, (m key).getD value) := by
  rw [Bucket.find, hb.find?_eq hkey]
  cases m key <;> rfl

theorem Holds.remove (hb : b.Holds hash n m l h) (hkey : hash key ≡ h [MOD 2 ^ l]) :
    (b.remove key).1 = (m key).isSome ∧
      (b.remove key).2.Holds hash n (update m key none) l h := by
  rw [Bucket.remove, hb.find?_eq hkey]
  cases hm : m key with
  | none =>
    refine ⟨rfl, hb.congr rfl fun k _ ↦ ?_⟩
    by_cases hk : k = key
    · rw [hk, update_self, hm]
    · rw [update_of_ne hk]
  | some old =>
    refine ⟨rfl, hb.depth, hb.size, ?_, ?_, fun k v ↦ ?_⟩
    · exact (List.eraseP_sublist.length_le).trans hb.room
    · exact hb.keys.sublist (List.eraseP_sublist.map _)
    · simp only [Option.map_some, eraseP_eq_filter hb.keys, List.mem_filter, hb.pairs]
      by_cases hk : k = key
      · simp [hk]
      · simp [hk]

theorem Holds.insert_false (hb : b.Holds hash n m l h) (hkey : hash key ≡ h [MOD 2 ^ l])
    (hfull : (b.insert key value).1 = false) : m key = none ∧ b.list.length = n := by
  rw [Bucket.insert, hb.find?_eq hkey] at hfull
  cases hm : m key with
  | some old =>
    rw [hm] at hfull
    cases hfull
  | none =>
    rw [hm, Option.map_none] at hfull
    simp only at hfull
    split_ifs at hfull with hisFull
    exact ⟨rfl, (of_decide_eq_true hisFull).trans hb.size⟩

theorem Holds.insert (hb : b.Holds hash n m l h) (hkey : hash key ≡ h [MOD 2 ^ l])
    (hinsert : (b.insert key value).1 = true) :
    (b.insert key value).2.Holds hash n (update m key (some value)) l h := by
  rw [Bucket.insert, hb.find?_eq hkey] at hinsert ⊢
  cases hm : m key with
  | some old =>
    have hmem := (hb.pairs key old).mpr ⟨hm, hkey⟩
    refine ⟨hb.depth, hb.size, ?_, ?_, fun k v ↦ ?_⟩
    · have hlength := congrArg List.length (map_assign key value b.list)
      rw [List.length_map, List.length_map] at hlength
      exact hlength.le.trans hb.room
    · exact (map_assign key value b.list).symm ▸ hb.keys
    · refine (mem_assign hb.keys hmem).trans ?_
      split_ifs with hk
      · rw [hk, update_self, Option.some.injEq, and_iff_left hkey, eq_comm]
      · rw [update_of_ne hk, hb.pairs]
  | none =>
    have hnew : ∀ v, (key, v) ∉ b.list := by
      intro v hmem
      have hv := ((hb.pairs key v).mp hmem).1
      rw [hm] at hv
      cases hv
    rw [hm] at hinsert
    simp only [Option.map_none] at hinsert ⊢
    split_ifs at hinsert ⊢ with hfull
    have hroom : b.list.length < n := by
      refine lt_of_le_of_ne hb.room fun hlength ↦ hfull (decide_eq_true ?_)
      exact hlength.trans hb.size.symm
    refine ⟨hb.depth, hb.size, ?_, ?_, fun k v ↦ ?_⟩
    · rw [List.length_append, List.length_singleton]
      exact hroom
    · rw [List.map_append, List.map_singleton, ← List.concat_eq_append]
      refine hb.keys.concat ?_
      intro hmem
      obtain ⟨⟨k, v⟩, hpair, rfl⟩ := List.mem_map.mp hmem
      exact hnew v hpair
    · rw [List.mem_append, List.mem_singleton, hb.pairs, Prod.mk.injEq]
      by_cases hk : k = key
      · rw [hk, update_self, hm, Option.some.injEq]
        simp [hkey, eq_comm]
      · rw [update_of_ne hk]
        simp [hk]

def append (b : Bucket K V) (items : List (K × V)) : Bucket K V := { b with list := b.list ++ items }

omit [DecidableEq K] in
@[simp] theorem append_nil (b : Bucket K V) : b.append [] = b := by
  rw [append, List.append_nil]

omit [DecidableEq K] in
@[simp] theorem append_append (b : Bucket K V) (items more : List (K × V)) :
    (b.append items).append more = b.append (items ++ more) := by
  simp only [append, List.append_assoc]

/-- A pair with a new key goes to the end of a bucket that has room. -/
theorem insert_new {b : Bucket K V} (hnew : ∀ v, (key, v) ∉ b.list) (hroom : b.list.length < b.size) :
    b.insert key value = (true, b.append [(key, value)]) := by
  have hfull : b.isFull ≠ true := fun hfull ↦ hroom.ne (of_decide_eq_true hfull)
  rw [Bucket.insert, find?_of_notMem hnew]
  exact if_neg hfull

end Bucket

end

namespace ExtendibleHashTable

variable {K V : Type} {hash : K → Nat} {t : ExtendibleHashTable K V} {key : K}

theorem indexOf_eq : t.indexOf hash key = hash key % 2 ^ t.globalDepth := by
  rw [indexOf, Nat.one_shiftLeft, Nat.and_two_pow_sub_one_eq_mod]

theorem bucketAt_eq_some {index p : Nat} {b : Bucket K V} :
    t.bucketAt index = some (p, b) ↔ t.dir[index]? = some (some p) ∧ t.heap[p]? = some b := by
  rw [bucketAt]
  cases hdir : t.dir[index]? with
  | none => simp
  | some q =>
    cases q with
    | none => simp
    | some q => 
      simp only [Option.pure_def, Option.bind_eq_bind, Option.bind_some, Option.bind_eq_some_iff,
        Option.some.injEq, Prod.mk.injEq]
      constructor
      · rintro ⟨c, hc, rfl, rfl⟩
        exact ⟨rfl, hc⟩
      · rintro ⟨rfl, hb⟩
        exact ⟨b, hb, rfl, rfl⟩

section

variable {p even odd l i : Nat} {dir : List (Option Nat)}

theorem prefix_bit (i l even odd : Nat) :
    (if (i >>> l) &&& 1 = 0 then even else odd) = if i.testBit l then odd else even := by
  have hbit : (i >>> l) &&& 1 = 0 ↔ i.testBit l = false := by
    rw [Nat.testBit, Nat.land_comm]
    simp
  cases htest : i.testBit l
  · rw [if_pos (hbit.mpr htest), if_neg Bool.false_ne_true]
  · rw [if_neg fun h ↦ Bool.false_ne_true ((hbit.mp h).symm.trans htest), if_pos rfl]

theorem length_redirect (fuel i : Nat) (dir : List (Option Nat)) :
    (redirect p even odd l fuel i dir).length = dir.length := by
  induction fuel generalizing i dir with
  | zero => rfl
  | succ fuel ih =>
    rw [redirect]
    by_cases hi : i < dir.length
    · rw [if_pos hi, ih]
      by_cases hpoints : dir[i]? = some none ∨ dir[i]? = some (some p)
      · rw [if_pos hpoints, List.length_set]
      · rw [if_neg hpoints]
    · rw [if_neg hi]

/-- The loop meets the slots that agree with `i` in the last bits. -/
theorem getElem?_redirect {fuel : Nat} (hfuel : dir.length ≤ i + fuel) (j : Nat) :
    (redirect p even odd l fuel i dir)[j]? =
      if (i ≤ j ∧ j ≡ i [MOD 2 ^ l]) ∧ (dir[j]? = some none ∨ dir[j]? = some (some p)) then
        some (some (if j.testBit l then odd else even))
      else dir[j]? := by
  have hend : ∀ {i} {dir : List (Option Nat)}, dir.length ≤ i →
      ¬ ((i ≤ j ∧ j ≡ i [MOD 2 ^ l]) ∧ (dir[j]? = some none ∨ dir[j]? = some (some p))) := by
    intro i dir hle h
    rw [List.getElem?_eq_none (hle.trans h.1.1)] at h
    exact h.2.elim (by simp) (by simp)
  induction fuel generalizing i dir with
  | zero => rw [redirect, if_neg (hend (Nat.add_zero i ▸ hfuel))]
  | succ fuel ih =>
    have hgap := Nat.two_pow_pos l
    rw [redirect]
    by_cases hi : i < dir.length
    · rw [if_pos hi, prefix_bit, ih]
      · by_cases hji : j = i
        · subst hji
          rw [if_neg fun h ↦ absurd h.1.1 (by omega)]
          by_cases hpoints : dir[j]? = some none ∨ dir[j]? = some (some p)
          · rw [if_pos hpoints, List.getElem?_set_self hi]
            exact (if_pos ⟨⟨le_rfl, rfl⟩, hpoints⟩).symm
          · rw [if_neg hpoints, if_neg fun h ↦ hpoints h.2]
        · have hkept : (if dir[i]? = some none ∨ dir[i]? = some (some p) then
              dir.set i (some (if i.testBit l then odd else even)) else dir)[j]? = dir[j]? := by
            split_ifs <;> first | rw [List.getElem?_set_ne (Ne.symm hji)] | rfl
          have hmeets : i + 2 ^ l ≤ j ∧ j ≡ i + 2 ^ l [MOD 2 ^ l] ↔ i ≤ j ∧ j ≡ i [MOD 2 ^ l] := by
            have hsame : j ≡ i + 2 ^ l [MOD 2 ^ l] ↔ j ≡ i [MOD 2 ^ l] :=
              ⟨fun h ↦ h.trans Nat.add_modEq_right, fun h ↦ h.trans Nat.add_modEq_right.symm⟩
            rw [hsame]
            refine ⟨fun h ↦ ⟨by omega, h.2⟩, fun h ↦ ⟨?_, h.2⟩⟩
            have hdvd := (Nat.modEq_iff_dvd' h.1).mp h.2.symm
            have hle := Nat.le_of_dvd (by omega) hdvd
            omega
          simp only [hkept, hmeets]
      · split_ifs <;> (try rw [List.length_set]) <;> omega
    · rw [if_neg hi, if_neg (hend (Nat.le_of_not_lt hi))]

end

end ExtendibleHashTable

end Spkdfs
