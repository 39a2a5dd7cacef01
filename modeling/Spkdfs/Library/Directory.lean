import Mathlib.Data.Finset.Card
import Mathlib.Data.Finset.Range
import Mathlib.Data.Nat.Bitwise
import Mathlib.Data.Nat.ModEq

namespace Spkdfs.Library

section

variable {i j l : Nat}

theorem modEq_two_pow_iff : i ≡ j [MOD 2 ^ l] ↔ ∀ k < l, i.testBit k = j.testBit k := by
  refine ⟨fun h k hk ↦ ?_, fun h ↦ Nat.eq_of_testBit_eq fun k ↦ ?_⟩
  · have hbit := congrArg (Nat.testBit · k) h
    simpa only [Nat.testBit_mod_two_pow, hk, decide_true, Bool.true_and] using hbit
  · rw [Nat.testBit_mod_two_pow, Nat.testBit_mod_two_pow]
    by_cases hk : k < l
    · rw [h k hk]
    · simp only [hk, decide_false, Bool.false_and]

theorem modEq_two_pow_succ :
    i ≡ j [MOD 2 ^ (l + 1)] ↔ i ≡ j [MOD 2 ^ l] ∧ i.testBit l = j.testBit l := by
  rw [modEq_two_pow_iff, modEq_two_pow_iff, Nat.forall_lt_succ_right]

theorem modEq_two_pow_of_le {g : Nat} (h : i ≡ j [MOD 2 ^ g]) (hle : l ≤ g) : i ≡ j [MOD 2 ^ l] :=
  h.of_dvd (Nat.pow_dvd_pow 2 hle)

/-- There is a number with the last bits of `i` and any bit before them. -/
theorem exists_modEq_testBit (i l : Nat) (bit : Bool) :
    ∃ j, j ≡ i [MOD 2 ^ l] ∧ j.testBit l = bit := by
  by_cases h : i.testBit l = bit
  · exact ⟨i, rfl, h⟩
  · refine ⟨2 ^ l + i, Nat.add_modEq_left, ?_⟩
    rw [Nat.testBit_two_pow_add_eq]
    cases bit <;> simpa using h

end

/-- Every number is placed, and its last bits decide where: as many of them as the place is deep. -/
@[ext] structure Directory (ι : Type) where
  place : Nat → ι
  depth : Nat → Nat
  same : ∀ i j, place i = place j ↔ i ≡ j [MOD 2 ^ depth i]

namespace Directory

variable {ι : Type} {d d' : Directory ι} {i j k g : Nat}

def single (p : ι) : Directory ι where
  place _ := p
  depth _ := 0
  same i j := iff_of_true rfl (Nat.modEq_one (a := i) (b := j))

/-- One place is divided into two new ones by the next bit. -/
def split (d : Directory ι) (k : Nat) (even odd : ι) (hne : even ≠ odd)
    (heven : ∀ i, d.place i ≠ even) (hodd : ∀ i, d.place i ≠ odd) : Directory ι where
  place i := if i ≡ k [MOD 2 ^ d.depth k] then if i.testBit (d.depth k) then odd else even
    else d.place i
  depth i := if i ≡ k [MOD 2 ^ d.depth k] then d.depth k + 1 else d.depth i
  same i j := by
    by_cases hi : i ≡ k [MOD 2 ^ d.depth k]
    · rw [if_pos hi, if_pos hi, modEq_two_pow_succ]
      by_cases hj : j ≡ k [MOD 2 ^ d.depth k]
      · rw [if_pos hj, and_iff_right (hi.trans hj.symm)]
        cases i.testBit (d.depth k) <;> cases j.testBit (d.depth k) <;> simp [hne, hne.symm]
      · rw [if_neg hj]
        refine iff_of_false ?_ fun h ↦ hj (h.1.symm.trans hi)
        split_ifs
        · exact (hodd j).symm
        · exact (heven j).symm
    · rw [if_neg hi, if_neg hi]
      by_cases hj : j ≡ k [MOD 2 ^ d.depth k]
      · rw [if_pos hj]
        refine iff_of_false ?_ fun h ↦ hi ?_
        · split_ifs
          · exact hodd i
          · exact heven i
        · have hik := ((d.same i j).mpr h).trans ((d.same k j).mpr hj.symm).symm
          exact ((d.same k i).mp hik.symm).symm
      · rw [if_neg hj]
        exact d.same i j

section

variable {even odd : ι} {hne : even ≠ odd} {heven : ∀ i, d.place i ≠ even}
  {hodd : ∀ i, d.place i ≠ odd}

theorem place_split_of_modEq (h : i ≡ k [MOD 2 ^ d.depth k]) :
    (d.split k even odd hne heven hodd).place i = if i.testBit (d.depth k) then odd else even :=
  if_pos h

theorem place_split_of_not_modEq (h : ¬ i ≡ k [MOD 2 ^ d.depth k]) :
    (d.split k even odd hne heven hodd).place i = d.place i := if_neg h

theorem depth_split_of_modEq (h : i ≡ k [MOD 2 ^ d.depth k]) :
    (d.split k even odd hne heven hodd).depth i = d.depth k + 1 := if_pos h

theorem depth_split_of_not_modEq (h : ¬ i ≡ k [MOD 2 ^ d.depth k]) :
    (d.split k even odd hne heven hodd).depth i = d.depth i := if_neg h

end

theorem depth_eq_of_place (h : d.place i = d.place j) : d.depth i = d.depth j := by
  have key : ∀ {i j}, d.place i = d.place j → d.depth j ≤ d.depth i := by
    intro i j h
    by_contra hlt
    -- a number that differs from `j` in a bit that the depth of `i` does not reach
    obtain ⟨m, hm, hbit⟩ := exists_modEq_testBit j (d.depth i) !(j.testBit (d.depth i))
    have hplace := (d.same i m).mpr (((d.same i j).mp h).trans hm.symm)
    have hjm := modEq_two_pow_iff.mp ((d.same j m).mp (h.symm.trans hplace)) _
      (Nat.lt_of_not_le hlt)
    rw [hbit] at hjm
    exact absurd hjm (by cases j.testBit (d.depth i) <;> decide)
  exact Nat.le_antisymm (key h.symm) (key h)

/-- How many places there are for numbers of `g` bits. -/
def classes [DecidableEq ι] (d : Directory ι) (g : Nat) : Nat :=
  ((Finset.range (2 ^ g)).image d.place).card

/-- The last `g` bits of a number are enough to find its place. -/
theorem place_mod (hg : d.depth i ≤ g) : d.place (i % 2 ^ g) = d.place i := by
  refine ((d.same i _).mpr ?_).symm
  exact (modEq_two_pow_of_le (Nat.mod_modEq i (2 ^ g)) hg).symm

variable [DecidableEq ι]

theorem mem_places (hg : ∀ i, d.depth i ≤ g) {p : ι} :
    p ∈ (Finset.range (2 ^ g)).image d.place ↔ ∃ i, d.place i = p := by
  rw [Finset.mem_image]
  refine ⟨fun ⟨i, _, h⟩ ↦ ⟨i, h⟩, fun ⟨i, h⟩ ↦ ⟨i % 2 ^ g, ?_, (place_mod (hg i)).trans h⟩⟩
  exact Finset.mem_range.mpr (Nat.mod_lt _ (Nat.two_pow_pos g))

section

variable {g' : Nat} {even odd : ι} {hne : even ≠ odd} {heven : ∀ i, d.place i ≠ even}
  {hodd : ∀ i, d.place i ≠ odd}

omit [DecidableEq ι] in
theorem depth_split_le (hg : ∀ i, d.depth i ≤ g) (hle : g ≤ g') (hk : d.depth k < g') (i : Nat) :
    (d.split k even odd hne heven hodd).depth i ≤ g' := by
  by_cases hi : i ≡ k [MOD 2 ^ d.depth k]
  · rw [depth_split_of_modEq hi]
    exact hk
  · rw [depth_split_of_not_modEq hi]
    exact (hg i).trans hle

omit [DecidableEq ι] in
theorem exists_place_split (p : ι) :
    (∃ i, (d.split k even odd hne heven hodd).place i = p) ↔
      p = even ∨ p = odd ∨ p ≠ d.place k ∧ ∃ i, d.place i = p := by
  constructor
  · rintro ⟨i, rfl⟩
    by_cases hi : i ≡ k [MOD 2 ^ d.depth k]
    · rw [place_split_of_modEq hi]
      split_ifs
      · exact .inr (.inl rfl)
      · exact .inl rfl
    · rw [place_split_of_not_modEq hi]
      refine .inr (.inr ⟨fun h ↦ hi ?_, i, rfl⟩)
      exact ((d.same k i).mp h.symm).symm
  · rintro (rfl | rfl | ⟨hne, i, rfl⟩)
    · obtain ⟨i, hi, hbit⟩ := exists_modEq_testBit k (d.depth k) false
      exact ⟨i, by rw [place_split_of_modEq hi, hbit, if_neg Bool.false_ne_true]⟩
    · obtain ⟨i, hi, hbit⟩ := exists_modEq_testBit k (d.depth k) true
      exact ⟨i, by rw [place_split_of_modEq hi, hbit, if_pos rfl]⟩
    · refine ⟨i, place_split_of_not_modEq fun hi ↦ hne ?_⟩
      exact ((d.same k i).mpr hi.symm).symm

/-- There is a place more than before. -/
theorem classes_split (hg : ∀ i, d.depth i ≤ g) (hle : g ≤ g') (hk : d.depth k < g') :
    (d.split k even odd hne heven hodd).classes g' = d.classes g + 1 := by
  have hplaces : (Finset.range (2 ^ g')).image (d.split k even odd hne heven hodd).place =
      insert even (insert odd (((Finset.range (2 ^ g)).image d.place).erase (d.place k))) := by
    ext p
    rw [mem_places (depth_split_le hg hle hk), exists_place_split, Finset.mem_insert,
      Finset.mem_insert, Finset.mem_erase, mem_places hg]
  have hmem : d.place k ∈ (Finset.range (2 ^ g)).image d.place := (mem_places hg).mpr ⟨k, rfl⟩
  have hpos := Finset.card_pos.mpr ⟨_, hmem⟩
  have hno : ∀ p, (∀ i, d.place i ≠ p) →
      p ∉ ((Finset.range (2 ^ g)).image d.place).erase (d.place k) := by
    intro p hp h
    obtain ⟨i, hi⟩ := (mem_places hg).mp (Finset.mem_of_mem_erase h)
    exact hp i hi
  rw [classes, hplaces, Finset.card_insert_of_notMem, Finset.card_insert_of_notMem (hno odd hodd),
    Finset.card_erase_of_mem hmem, classes]
  · omega
  · rw [Finset.mem_insert, not_or]
    exact ⟨hne, hno even heven⟩

end

omit [DecidableEq ι] in
theorem place_eq_iff (hd : ∀ i, d.depth i = d'.depth i) :
    d.place i = d.place j ↔ d'.place i = d'.place j := by
  rw [d.same, d'.same, hd]

/-- The depths alone tell how many places there are. -/
theorem classes_congr (hd : ∀ i, d.depth i = d'.depth i) (g : Nat) : d.classes g = d'.classes g := by
  have key : ∀ {d d' : Directory ι}, (∀ i, d.depth i = d'.depth i) → d'.classes g ≤ d.classes g := by
    intro d d' hd
    have hfactors : d'.place.FactorsThrough d.place := fun i j h ↦ (place_eq_iff hd).mp h
    have himage : (Finset.range (2 ^ g)).image d'.place =
        ((Finset.range (2 ^ g)).image d.place).image (d.place.extend d'.place id) := by
      rw [Finset.image_image]
      exact Finset.image_congr fun i _ ↦ (hfactors.extend_apply id i).symm
    rw [classes, himage, classes]
    exact Finset.card_image_le
  exact Nat.le_antisymm (key fun i ↦ (hd i).symm) (key hd)

omit [DecidableEq ι] in
theorem depth_max_eq {g' : Nat} (hd : ∀ i, d.depth i = d'.depth i) (hg : ∀ i, d.depth i ≤ g)
    (hdeep : ∃ i, d.depth i = g) (hg' : ∀ i, d'.depth i ≤ g') (hdeep' : ∃ i, d'.depth i = g') :
    g = g' := by
  obtain ⟨i, rfl⟩ := hdeep
  obtain ⟨j, rfl⟩ := hdeep'
  exact Nat.le_antisymm (hd i ▸ hg' i) (hd j ▸ hg j)

/-- A place is as deep as needed: with fewer bits it would be crowded, and now it is not. -/
def Settled (d : Directory ι) (crowded : Nat → Nat → Prop) : Prop :=
  ∀ i, ¬ crowded (d.depth i) i ∧ ∀ l < d.depth i, crowded l i

omit [DecidableEq ι] in
theorem Settled.depth_eq {crowded : Nat → Nat → Prop} (h : d.Settled crowded)
    (h' : d'.Settled crowded) (i : Nat) : d.depth i = d'.depth i := by
  rcases Nat.lt_trichotomy (d.depth i) (d'.depth i) with hlt | heq | hlt
  · exact absurd ((h' i).2 _ hlt) (h i).1
  · exact heq
  · exact absurd ((h i).2 _ hlt) (h' i).1

end Directory

end Spkdfs.Library
