import Spkdfs.Common.FiniteMap

namespace Spkdfs.ExtendibleHashTable

open Library Function

/-- A call that changes the table. -/
inductive Call (K V : Type)
  | insert (key : K) (value : V)
  | remove (key : K)

variable {K V : Type} [DecidableEq K]

/-- The finite map after a call. -/
def Call.apply (m : K → Option V) : Call K V → K → Option V
  | .insert key value => update m key (some value)
  | .remove key => update m key none

/-- For each key the value of its last insertion, unless it was removed after it. -/
def latest (cs : List (Call K V)) : K → Option V := cs.foldl Call.apply fun _ ↦ none

variable (hash : K → Nat)

def call (fuel : Nat) (t : ExtendibleHashTable K V) : Call K V → Option (ExtendibleHashTable K V)
  | .insert key value => t.insert hash key value fuel
  | .remove key => do return (← t.remove hash key).2

/-- The calls one after the other, if each insertion ends within so many turns of its loop. -/
def calls (fuel : Nat) (t : ExtendibleHashTable K V) (cs : List (Call K V)) :
    Option (ExtendibleHashTable K V) := cs.foldlM (call hash fuel) t

variable {hash} {fuel fuel' bucketSize : Nat} {t t' u : ExtendibleHashTable K V} {d : Directory Nat}
  {m : K → Option V} {cs : List (Call K V)} {c : Call K V}

theorem Refines.call (hr : t.Refines hash d m) (h : t.call hash fuel c = some u) :
    u.bucketSize = t.bucketSize ∧ ∃ d', u.Refines hash d' (c.apply m) := by
  cases c with
  | insert key value =>
    obtain ⟨hsize, d', hr', -⟩ := hr.insert h
    exact ⟨hsize, d', hr'⟩
  | remove key =>
    obtain ⟨t', hremove, hsize, hr'⟩ := hr.remove key
    rw [ExtendibleHashTable.call, hremove] at h
    obtain rfl := Option.some.inj h
    exact ⟨hsize, d, hr'⟩

theorem Refines.calls (hr : t.Refines hash d m) (h : t.calls hash fuel cs = some u) :
    u.bucketSize = t.bucketSize ∧ ∃ d', u.Refines hash d' (cs.foldl Call.apply m) := by
  induction cs generalizing t d m with
  | nil =>
    obtain rfl := Option.some.inj h
    exact ⟨rfl, d, hr⟩
  | cons c cs ih =>
    rw [ExtendibleHashTable.calls, List.foldlM_cons, Option.bind_eq_bind,
      Option.bind_eq_some_iff] at h
    obtain ⟨t₁, hcall, hrest⟩ := h
    obtain ⟨hsize, d₁, hr₁⟩ := hr.call hcall
    obtain ⟨hsize', hd'⟩ := ih hr₁ hrest
    exact ⟨hsize'.trans hsize, hd'⟩

theorem calls_refines (h : (new bucketSize).calls hash fuel cs = some t) :
    t.bucketSize = bucketSize ∧ ∃ d, t.Refines hash d (latest cs) :=
  (refines_new hash bucketSize).calls h

/-- Numbers are their own hashes. -/
def samplePairs : List (Nat × Char) :=
  [(1, 'a'), (2, 'b'), (3, 'c'), (4, 'd'), (5, 'e'), (6, 'f'), (7, 'g'), (8, 'h'), (9, 'i')]

def sampleCalls : List (Call Nat Char) :=
  samplePairs.map (fun element ↦ .insert element.1 element.2) ++ [.remove 8, .remove 4]

theorem sampleCalls_end : ∃ t, (new 2).calls id 9 sampleCalls = some t :=
  Option.isSome_iff_exists.mp (by decide)

/-- `Find` returns what was inserted last and not removed since, and `Remove` tells whether `Find`
would have found it. -/
theorem find_latest (h : (new bucketSize).calls hash fuel cs = some t) (key : K) :
    (∀ value, t.find hash key value = some (match latest cs key with
        | some last => (true, last)
        | none => (false, value))) ∧
      ∀ value, (t.remove hash key).map (·.1) = (t.find hash key value).map (·.1) := by
  obtain ⟨-, d, hr⟩ := calls_refines h
  have hfind := hr.find_eq key
  obtain ⟨t', hremove, -⟩ := hr.remove key
  refine ⟨fun value ↦ ?_, fun value ↦ ?_⟩
  · rw [hfind]
    cases latest cs key <;> rfl
  · rw [hremove, hfind]
    rfl

theorem find_latest_sample :
    (((new 2).calls id 9 sampleCalls).bind fun t ↦ t.find id 9 'z') = some (true, 'i') := by
  obtain ⟨t, h⟩ := sampleCalls_end
  rw [h, Option.bind_some, (find_latest h 9).1 'z']
  decide

/-- An insertion ends as soon as there is a depth at which no more keys than a bucket takes agree. -/
theorem insert_terminates {D : Nat} (h : (new bucketSize).calls hash fuel cs = some t) (key : K) (value : V)
    (hapart : ∀ i (keys : List K), keys.Nodup →
      (∀ k ∈ keys, (k = key ∨ latest cs k ≠ none) ∧ hash k ≡ i [MOD 2 ^ D]) →
        keys.length ≤ bucketSize) :
    ∃ turns t', t.insert hash key value turns = some t' ∧
      (∀ other, t'.find hash key other = some (true, value)) ∧
      t'.globalDepth ≤ max D t.globalDepth := by
  obtain ⟨hsize, d, hr⟩ := calls_refines h
  have hnot : ∀ i, ¬ Crowded hash t.bucketSize (update (latest cs) key (some value)) D i := by
    rintro i ⟨keys, hnodup, hlength, hkeys⟩
    refine absurd (hapart i keys hnodup fun k hk ↦ ⟨?_, (hkeys k hk).2⟩) (by omega)
    by_cases hkey : k = key
    · exact .inl hkey
    · have hstored := (hkeys k hk).1
      rw [update_of_ne hkey] at hstored
      exact .inr hstored
  obtain ⟨t', hinsert, hdepth⟩ := hr.insert_ends hnot
  obtain ⟨-, d', hr', -⟩ := hr.insert hinsert
  refine ⟨_, t', hinsert, fun other ↦ ?_, hdepth⟩
  rw [hr'.find_eq, update_self]
  rfl

/-- Two keys that differ in the last bit, and a bucket for one. -/
theorem insert_terminates_pair : ∃ t turns t', (new 1).calls id 1 [.insert 1 'a'] = some t ∧
    t.insert id 2 'b' turns = some t' ∧ t'.find id 2 'z' = some (true, 'b') ∧
    t'.globalDepth ≤ max 1 t.globalDepth := by
  have hfirst : (((new 1).calls id 1 [.insert 1 'a']) : Option (ExtendibleHashTable Nat Char)).isSome := by
    decide
  obtain ⟨t, h⟩ := Option.isSome_iff_exists.mp hfirst
  have hlatest : ∀ k, latest [Call.insert 1 'a'] k ≠ none → k = 1 := by
    intro k hk
    by_contra hne
    have hnone : latest [Call.insert 1 'a'] k = (none : Option Char) := by
      rw [latest, List.foldl_cons, List.foldl_nil, Call.apply, update_of_ne hne]
    exact hk hnone
  obtain ⟨turns, t', hinsert, hfind, hdepth⟩ := insert_terminates (D := 1) h 2 'b' fun i keys hnodup hkeys ↦ by
    have hall : ∀ k ∈ keys, (k = 2 ∨ k = 1) ∧ k ≡ i [MOD 2 ^ 1] := fun k hk ↦
      ⟨(hkeys k hk).1.imp_right (hlatest k), (hkeys k hk).2⟩
    match keys, hnodup, hall with
    | [], _, _ => exact Nat.zero_le 1
    | [k], _, _ => exact le_rfl
    | k :: k' :: rest, hnodup, hall =>
      obtain ⟨hk, hmod⟩ := hall k (by simp)
      obtain ⟨hk', hmod'⟩ := hall k' (by simp)
      have hsame : k ≡ k' [MOD 2 ^ 1] := hmod.trans hmod'.symm
      have hne : k ≠ k' := fun heq ↦ (List.nodup_cons.mp hnodup).1 (heq ▸ List.mem_cons_self)
      rw [Nat.ModEq] at hsame
      omega
  exact ⟨t, turns, t', h, hinsert, hfind 'z', hdepth⟩

/-- The slots of the table are never null, they share a bucket when they agree in as many last bits as
the bucket is deep, and the bucket has the pairs of just these slots. -/
theorem calls_invariant (h : (new bucketSize).calls hash fuel cs = some t) :
    t.dir.length = 2 ^ t.globalDepth ∧
      (∀ i < 2 ^ t.globalDepth, ∃ p b, t.bucketAt i = some (p, b)) ∧
      (∀ i p b, t.bucketAt i = some (p, b) → b.depth ≤ t.globalDepth ∧
        (∀ j q c, t.bucketAt j = some (q, c) → (p = q ↔ i ≡ j [MOD 2 ^ b.depth])) ∧
        (∀ element ∈ b.list, hash element.1 ≡ i [MOD 2 ^ b.depth]) ∧
        (b.list.map (·.1)).Nodup ∧ b.list.length ≤ bucketSize) ∧
      t.numBuckets = t.dir.toFinset.card := by
  obtain ⟨hsize, d, hr⟩ := calls_refines h
  have hleads : ∀ {i p b}, t.bucketAt i = some (p, b) →
      p = d.place i ∧ b.Holds hash bucketSize (latest cs) (d.depth i) i := by
    intro i p b hat
    obtain ⟨hslot, hbucket⟩ := bucketAt_eq_some.mp hat
    have hi : i < 2 ^ t.globalDepth := hr.length ▸ (List.getElem?_eq_some_iff.mp hslot).1
    rw [← hsize]
    refine hr.leads_unique ⟨?_, hbucket⟩
    rwa [Nat.mod_eq_of_lt hi]
  have hslot : ∀ i < 2 ^ t.globalDepth, t.dir[i]? = some (some (d.place i)) := by
    intro i hi
    obtain ⟨b, hb, -⟩ := hr.leads i
    have hslot := hb.slot
    rwa [Nat.mod_eq_of_lt hi] at hslot
  refine ⟨hr.length, fun i hi ↦ ?_, fun i p b hat ↦ ?_, ?_⟩
  · obtain ⟨b, hb, -⟩ := hr.leads i
    exact ⟨d.place i, b, bucketAt_eq_some.mpr ⟨hslot i hi, hb.bucket⟩⟩
  · obtain ⟨rfl, hholds⟩ := hleads hat
    rw [hholds.depth]
    refine ⟨hr.depth i, fun j q c hat' ↦ ?_, fun element hmem ↦ ?_, hholds.keys, hholds.room⟩
    · obtain ⟨rfl, -⟩ := hleads hat'
      exact d.same i j
    · exact ((hholds.pairs element.1 element.2).mp hmem).2
  · have hdir : t.dir.toFinset = ((Finset.range (2 ^ t.globalDepth)).image d.place).image some := by
      ext p
      rw [List.mem_toFinset, List.mem_iff_getElem?, Finset.mem_image]
      constructor
      · rintro ⟨i, hi⟩
        have hlt : i < 2 ^ t.globalDepth := hr.length ▸ (List.getElem?_eq_some_iff.mp hi).1
        refine ⟨d.place i, Finset.mem_image_of_mem _ (Finset.mem_range.mpr hlt), ?_⟩
        exact Option.some.inj ((hslot i hlt).symm.trans hi)
      · rintro ⟨q, hq, rfl⟩
        obtain ⟨i, hi, rfl⟩ := Finset.mem_image.mp hq
        exact ⟨i, hslot i (Finset.mem_range.mp hi)⟩
    rw [hdir, Finset.card_image_of_injective _ (Option.some_injective _), hr.count,
      Directory.classes]

theorem calls_invariant_sample : ∃ t, (new 2).calls id 9 sampleCalls = some t ∧
    t.numBuckets = t.dir.toFinset.card := by
  obtain ⟨t, h⟩ := sampleCalls_end
  exact ⟨t, h, (calls_invariant h).2.2.2⟩

example : ((new 2).calls id 9 sampleCalls).map (fun t ↦
    (t.globalDepth, (List.range 4).map fun i ↦ (t.bucketAt i).map (·.2.depth))) =
      some (3, [some 2, some 3, some 2, some 2]) := by decide

def insertions (pairs : List (K × V)) : List (Call K V) :=
  pairs.map fun element ↦ .insert element.1 element.2

/-- No place is deeper after insertions than their keys need. -/
theorem Refines.insertions {pairs : List (K × V)} (hr : t.Refines hash d m)
    (htight : Tight hash t.bucketSize d m) (h : t.calls hash fuel (insertions pairs) = some u) :
    ∃ d', u.Refines hash d' ((insertions pairs).foldl Call.apply m) ∧
      Tight hash t.bucketSize d' ((insertions pairs).foldl Call.apply m) := by
  induction pairs generalizing t d m with
  | nil =>
    obtain rfl := Option.some.inj h
    exact ⟨d, hr, htight⟩
  | cons element pairs ih =>
    rw [ExtendibleHashTable.calls, ExtendibleHashTable.insertions, List.map_cons, List.foldlM_cons,
      Option.bind_eq_bind, Option.bind_eq_some_iff] at h
    obtain ⟨t₁, hcall, hrest⟩ := h
    obtain ⟨hsize, d₁, hr₁, htight₁⟩ := hr.insert hcall
    have htight' := htight₁ fun i l hl ↦ (htight i l hl).update element.1 element.2
    rw [← hsize] at htight' ⊢
    exact ih hr₁ htight' hrest

theorem foldl_insertions {pairs : List (K × V)} (hkeys : (pairs.map (·.1)).Nodup) {key : K}
    {value : V} : (insertions pairs).foldl Call.apply m key = some value ↔
      (key, value) ∈ pairs ∨ key ∉ pairs.map (·.1) ∧ m key = some value := by
  induction pairs generalizing m with
  | nil => simp [insertions]
  | cons element pairs ih =>
    obtain ⟨k, v⟩ := element
    rw [List.map_cons, List.nodup_cons] at hkeys
    have hrest := ih (m := Call.apply m (.insert k v)) hkeys.2
    rw [insertions, List.map_cons, List.foldl_cons, ← insertions, hrest, Call.apply]
    by_cases hk : key = k
    · subst hk
      have hnot : ∀ v, (key, v) ∉ pairs := fun v hmem ↦
        hkeys.1 (List.mem_map.mpr ⟨(key, v), hmem, rfl⟩)
      simp [hnot, eq_comm]
    · rw [update_of_ne hk]
      simp [hk]

theorem latest_insertions {pairs : List (K × V)} (hkeys : (pairs.map (·.1)).Nodup) {key : K}
    {value : V} : latest (insertions pairs) key = some value ↔ (key, value) ∈ pairs := by
  rw [latest, foldl_insertions hkeys]
  simp

/-- When a table has taken insertions of different keys, its keys alone have made its directory. -/
theorem insertions_settled {pairs : List (K × V)}
    (h : (new bucketSize).calls hash fuel (insertions pairs) = some t) :
    ∃ d, t.Refines hash d (latest (insertions pairs)) ∧
      d.Settled (Crowded hash bucketSize (latest (insertions pairs))) := by
  have hnew := refines_new (V := V) hash bucketSize
  obtain ⟨d, hr, htight⟩ := hnew.insertions (fun _ l hl ↦ absurd hl (Nat.not_lt_zero l)) h
  refine ⟨d, hr, fun i ↦ ⟨?_, htight i⟩⟩
  obtain ⟨b, -, hholds⟩ := hr.leads i
  rw [(hnew.calls h).1] at hholds
  exact not_crowded hholds

/-- The order of insertions of different keys does not matter. -/
theorem insertions_order {pairs pairs' : List (K × V)} (hkeys : (pairs.map (·.1)).Nodup)
    (hperm : pairs.Perm pairs') (h : (new bucketSize).calls hash fuel (insertions pairs) = some t)
    (h' : (new bucketSize).calls hash fuel' (insertions pairs') = some t') :
    t.globalDepth = t'.globalDepth ∧ t.numBuckets = t'.numBuckets ∧
      (∀ i < 2 ^ t.globalDepth, ∃ p b p' b', t.bucketAt i = some (p, b) ∧
        t'.bucketAt i = some (p', b') ∧ b.depth = b'.depth ∧
          ∀ element, element ∈ b.list ↔ element ∈ b'.list) ∧
      ∀ key value, t.find hash key value = t'.find hash key value := by
  have hkeys' : (pairs'.map (·.1)).Nodup := (hperm.map _).nodup_iff.mp hkeys
  have hsame : latest (insertions pairs') = latest (insertions pairs) := by
    funext key
    refine Option.ext fun value ↦ ?_
    rw [latest_insertions hkeys', latest_insertions hkeys, hperm.mem_iff]
  obtain ⟨d, hr, hsettled⟩ := insertions_settled h
  obtain ⟨d', hr', hsettled'⟩ := insertions_settled h'
  rw [hsame] at hr' hsettled'
  have hdepth := hsettled.depth_eq hsettled'
  have hglobal := Directory.depth_max_eq hdepth hr.depth hr.deep hr'.depth hr'.deep
  refine ⟨hglobal, ?_, fun i hi ↦ ?_, fun key value ↦ ?_⟩
  · rw [hr.count, hr'.count, ← hglobal, Directory.classes_congr hdepth]
  · obtain ⟨b, hb, hholds⟩ := hr.leads i
    obtain ⟨b', hb', hholds'⟩ := hr'.leads i
    have hslot := hb.slot
    have hslot' := hb'.slot
    rw [Nat.mod_eq_of_lt hi] at hslot
    rw [Nat.mod_eq_of_lt (hglobal ▸ hi)] at hslot'
    refine ⟨_, b, _, b', bucketAt_eq_some.mpr ⟨hslot, hb.bucket⟩,
      bucketAt_eq_some.mpr ⟨hslot', hb'.bucket⟩, ?_, fun element ↦ ?_⟩
    · rw [hholds.depth, hholds'.depth, hdepth]
    · rw [hholds.pairs element.1 element.2, hholds'.pairs element.1 element.2, hdepth]
  · rw [hr.find_eq, hr'.find_eq]

/-- The pairs of one order and the other. -/
def evenFirst : List (Nat × Char) := [(2, 'b'), (4, 'd'), (1, 'a'), (3, 'c'), (5, 'e')]

theorem insertions_order_sample : ∃ t t' : ExtendibleHashTable Nat Char,
    (new 2).calls id 9 (insertions (samplePairs.take 5)) = some t ∧
      (new 2).calls id 9 (insertions evenFirst) = some t' ∧ t.globalDepth = t'.globalDepth := by
  have hends : ((new 2).calls id 9 (insertions (samplePairs.take 5))).isSome ∧
      ((new 2).calls id 9 (insertions evenFirst)).isSome := by decide
  obtain ⟨t, h⟩ := Option.isSome_iff_exists.mp hends.1
  obtain ⟨t', h'⟩ := Option.isSome_iff_exists.mp hends.2
  exact ⟨t, t', h, h', (insertions_order (by decide) (by decide) h h').1⟩

end Spkdfs.ExtendibleHashTable
