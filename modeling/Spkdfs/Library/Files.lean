import Mathlib.Data.List.Infix

namespace Spkdfs.Library

variable {α : Type}

/-- A write at a position of a file. A gap in front of it is filled. -/
def writeAt (fill : α) (file : List α) (position : Nat) (data : List α) : List α :=
  file.take position ++ List.replicate (position - file.length) fill ++ data ++
    file.drop (position + data.length)

variable {fill : α} {file whole data : List α} {position n m i : Nat}

theorem length_writeAt :
    (writeAt fill file position data).length = max file.length (position + data.length) := by
  simp only [writeAt, List.length_append, List.length_take, List.length_replicate,
    List.length_drop]
  omega

theorem getElem?_writeAt (fill : α) (file : List α) (position : Nat) (data : List α) (i : Nat) :
    (writeAt fill file position data)[i]? =
      if i < position then if i < file.length then file[i]? else some fill
      else if i < position + data.length then data[i - position]? else file[i]? := by
  have hfront : (file.take position ++ List.replicate (position - file.length) fill).length =
      position := by
    rw [List.length_append, List.length_take, List.length_replicate]
    omega
  rw [writeAt]
  by_cases hlow : i < position
  · rw [if_pos hlow, List.append_assoc, List.getElem?_append_left (by omega)]
    by_cases hfile : i < file.length
    · rw [if_pos hfile, List.getElem?_append_left (by rw [List.length_take]; omega),
        List.getElem?_take_of_lt hlow]
    · rw [if_neg hfile, List.getElem?_append_right (by rw [List.length_take]; omega),
        List.getElem?_replicate, if_pos (by rw [List.length_take]; omega)]
  · rw [if_neg hlow]
    by_cases hmid : i < position + data.length
    · rw [if_pos hmid, List.getElem?_append_left (by rw [List.length_append, hfront]; omega),
        List.getElem?_append_right (by omega), hfront]
    · rw [if_neg hmid, List.getElem?_append_right (by rw [List.length_append, hfront]; omega),
        List.length_append, hfront, List.getElem?_drop]
      congr 1
      omega

theorem writeAt_of_length_eq (h : file.length = position) :
    writeAt fill file position data = file ++ data := by
  subst h
  rw [writeAt, List.take_length, Nat.sub_self, List.replicate_zero, List.append_nil,
    List.drop_eq_nil_of_le (by omega), List.append_nil]

/-- A file that several descriptors write one content into: at each position it holds what the
content has there, or the filling of a gap. -/
structure PartOf (fill : α) (whole file : List α) : Prop where
  bound : file.length ≤ whole.length
  agrees : ∀ (i : Nat) (c : α), file[i]? = some c → c = fill ∨ whole[i]? = some c

theorem PartOf.nil (fill : α) (whole : List α) : PartOf fill whole [] :=
  ⟨Nat.zero_le _, fun i c h ↦ by simp at h⟩

theorem PartOf.refl (fill : α) (whole : List α) : PartOf fill whole whole :=
  ⟨le_rfl, fun _ _ h ↦ .inr h⟩

/-- The part of a content that a write puts in its own place. -/
def slice (whole : List α) (position n : Nat) : List α := (whole.drop position).take n

theorem length_slice (h : position + n ≤ whole.length) : (slice whole position n).length = n := by
  rw [slice, List.length_take, List.length_drop]
  omega

theorem getElem?_slice (hlow : position ≤ i) (hi : i < position + n) :
    (slice whole position n)[i - position]? = whole[i]? := by
  rw [slice, List.getElem?_take_of_lt (by omega), List.getElem?_drop]
  congr 1
  omega

theorem take_append_slice (whole : List α) (position n : Nat) :
    whole.take position ++ slice whole position n = whole.take (position + n) := by
  rw [slice, List.take_add]

theorem PartOf.writeAt (h : PartOf fill whole file) (hn : position + n ≤ whole.length) :
    PartOf fill whole (writeAt fill file position (slice whole position n)) := by
  have hlength := length_slice hn
  refine ⟨?_, fun i c hc ↦ ?_⟩
  · rw [length_writeAt, hlength]
    have hb := h.bound
    omega
  · rw [getElem?_writeAt, hlength] at hc
    split_ifs at hc with hlow hfile hmid
    · exact h.agrees i c hc
    · exact .inl (Option.some.inj hc).symm
    · rw [getElem?_slice (by omega) hmid] at hc
      exact .inr hc
    · exact h.agrees i c hc

theorem take_prefix_iff (hn : n ≤ whole.length) :
    whole.take n <+: file ↔ ∀ i < n, file[i]? = whole[i]? := by
  constructor
  · rintro ⟨rest, rfl⟩ i hi
    rw [List.getElem?_append_left (by rw [List.length_take]; omega), List.getElem?_take_of_lt hi]
  · intro h
    rw [List.prefix_iff_eq_take, List.length_take, Nat.min_eq_left hn]
    refine List.ext_getElem? fun i ↦ ?_
    by_cases hi : i < n
    · rw [List.getElem?_take_of_lt hi, List.getElem?_take_of_lt hi, h i hi]
    · rw [List.getElem?_take_eq_none (by omega), List.getElem?_take_eq_none (by omega)]

/-- What one descriptor has written from the start on is not damaged by the others, which write
the same content. -/
theorem take_prefix_writeAt (h : whole.take m <+: file) (hm : m ≤ whole.length)
    (hn : position + n ≤ whole.length) :
    whole.take m <+: writeAt fill file position (slice whole position n) := by
  rw [take_prefix_iff hm] at h ⊢
  intro i hi
  have hlength : i < file.length := by
    have hsome : file[i]? = some whole[i] := by
      rw [h i hi, List.getElem?_eq_getElem (by omega)]
    exact (List.getElem?_eq_some_iff.mp hsome).1
  rw [getElem?_writeAt, length_slice hn, if_pos hlength]
  split_ifs with hlow hmid
  · exact h i hi
  · exact getElem?_slice (by omega) hmid
  · exact h i hi

/-- A descriptor that goes on where it stands. -/
theorem take_prefix_writeAt_self (h : whole.take position <+: file)
    (hn : position + n ≤ whole.length) :
    whole.take (position + n) <+: writeAt fill file position (slice whole position n) := by
  have hkept : whole.take position <+: writeAt fill file position (slice whole position n) :=
    take_prefix_writeAt h (by omega) hn
  rw [take_prefix_iff (by omega)] at hkept
  rw [take_prefix_iff hn]
  intro i hi
  by_cases hlow : i < position
  · exact hkept i hlow
  · rw [getElem?_writeAt, length_slice hn, if_neg hlow, if_pos hi]
    exact getElem?_slice (by omega) hi

theorem PartOf.eq_of_whole (h : PartOf fill whole file) (hp : whole <+: file) : file = whole :=
  (hp.eq_of_length (Nat.le_antisymm hp.length_le h.bound)).symm

end Spkdfs.Library
