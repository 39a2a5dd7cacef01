import Mathlib.Algebra.BigOperators.Group.List.Basic
import Mathlib.Algebra.Order.Group.Nat

namespace Spkdfs.Library

/-- Blocks of one size, of which a file or a stream is made. -/
def Uniform {α : Type} (n : Nat) (blocks : List (List α)) : Prop :=
  ∀ block ∈ blocks, block.length = n

/-- Each block starts at a multiple of the block size; the last one may be short. -/
structure Aligned {α : Type} (n : Nat) (blocks : List (List α)) : Prop where
  start : ∀ i < blocks.length, (blocks.take i).flatten.length = i * n
  total : blocks.flatten.length ≤ blocks.length * n

namespace Uniform

variable {α : Type} {n : Nat} {blocks : List (List α)} {block : List α}

theorem nil : Uniform n ([] : List (List α)) := by
  intro block hb
  cases hb

theorem concat (h : Uniform n blocks) (hb : block.length = n) : Uniform n (blocks ++ [block]) := by
  intro b hm
  rcases List.mem_append.mp hm with hm | hm
  · exact h b hm
  · rw [List.mem_singleton.mp hm, hb]

theorem take (h : Uniform n blocks) (i : Nat) : Uniform n (blocks.take i) :=
  fun block hb ↦ h block (List.mem_of_mem_take hb)

theorem length_flatten (h : Uniform n blocks) : blocks.flatten.length = blocks.length * n := by
  have hmap : blocks.map List.length = List.replicate blocks.length n :=
    List.map_eq_replicate_iff.mpr h
  rw [List.length_flatten, hmap, List.sum_replicate_nat]

theorem aligned (h : Uniform n blocks) : Aligned n blocks where
  start i hi := by
    rw [(h.take i).length_flatten, List.length_take, Nat.min_eq_left hi.le]
  total := h.length_flatten.le

end Uniform

namespace Aligned

variable {α : Type} {n : Nat} {blocks : List (List α)}

theorem drop_flatten (h : Aligned n blocks) {i : Nat} (hi : i ≤ blocks.length) :
    blocks.flatten.drop (i * n) = (blocks.drop i).flatten := by
  rcases Nat.lt_or_eq_of_le hi with hlt | rfl
  · have hsplit : blocks.flatten = (blocks.take i).flatten ++ (blocks.drop i).flatten := by
      rw [← List.flatten_append, List.take_append_drop]
    rw [hsplit, ← h.start i hlt, List.drop_left]
  · rw [List.drop_eq_nil_of_le h.total, List.drop_length, List.flatten_nil]

theorem take (h : Aligned n blocks) (i : Nat) : Aligned n (blocks.take i) := by
  by_cases hi : i < blocks.length
  · have hlength : (blocks.take i).length = i := List.length_take_of_le hi.le
    refine ⟨fun j hj ↦ ?_, ?_⟩
    · rw [hlength] at hj
      rw [List.take_take, Nat.min_eq_left hj.le]
      exact h.start j (hj.trans hi)
    · rw [hlength]
      exact (h.start i hi).le
  · rwa [List.take_of_length_le (by omega)]

/-- The blocks from `first` to `last`, and the part of the whole that they are. -/
theorem flatten_drop_take (h : Aligned n blocks) {first last : Nat} (hle : first ≤ last)
    (hlast : last ≤ blocks.length) :
    ((blocks.take last).drop first).flatten =
      (blocks.flatten.take (blocks.take last).flatten.length).drop (first * n) := by
  have hfirst : first ≤ (blocks.take last).length := by
    rw [List.length_take]
    omega
  have hsplit : blocks.flatten = (blocks.take last).flatten ++ (blocks.drop last).flatten := by
    rw [← List.flatten_append, List.take_append_drop]
  rw [← (h.take last).drop_flatten hfirst, hsplit, List.take_left]

theorem length_flatten_drop_take (h : Aligned n blocks) {first last : Nat} (hle : first ≤ last)
    (hlast : last ≤ blocks.length) :
    ((blocks.take last).drop first).flatten.length =
      (blocks.take last).flatten.length - first * n := by
  have hwhole : (blocks.take last).flatten.length ≤ blocks.flatten.length := by
    conv_rhs => rw [← List.take_append_drop last blocks, List.flatten_append, List.length_append]
    exact Nat.le_add_right _ _
  rw [h.flatten_drop_take hle hlast, List.length_drop, List.length_take, Nat.min_eq_left hwhole]

/-- A range of the whole, cut out of the blocks from `first` to `last`, whatever follows them. -/
theorem slice (h : Aligned n blocks) {first last offset size : Nat} (hfirst : first * n ≤ offset)
    (hle : first ≤ last) (hlast : last ≤ blocks.length)
    (hend : offset + size ≤ (blocks.take last).flatten.length) (rest : List α) :
    ((((blocks.take last).drop first).flatten ++ rest).drop (offset - first * n)).take size =
      (blocks.flatten.drop offset).take size := by
  have hlength := h.length_flatten_drop_take hle hlast
  have hsum : first * n + (offset - first * n) = offset := by omega
  rw [List.drop_append_of_le_length (by omega),
    List.take_append_of_le_length (by rw [List.length_drop]; omega), h.flatten_drop_take hle hlast,
    List.drop_drop, hsum, List.drop_take, List.take_take, Nat.min_eq_left (by omega)]

/-- Of the blocks up to the one that holds position `stop`, or one past the last, those that
exist reach as far as `stop`. -/
theorem exists_last (h : Aligned n blocks) {start stop : Nat} (hpos : 0 < n) (hle : start ≤ stop)
    (hstop : stop ≤ blocks.flatten.length) :
    ∃ last, blocks.take (stop / n + 1) = blocks.take last ∧ last ≤ blocks.length ∧
      start / n ≤ last ∧ stop ≤ (blocks.take last).flatten.length := by
  have horder : start / n ≤ stop / n := Nat.div_le_div_right hle
  by_cases hmore : stop / n + 1 < blocks.length
  · refine ⟨stop / n + 1, rfl, hmore.le, by omega, ?_⟩
    rw [h.start _ hmore]
    exact Nat.le_of_lt (Nat.lt_mul_of_div_lt (Nat.lt_succ_self _) hpos)
  · have hbound : stop / n ≤ blocks.length := by
      refine Nat.div_le_of_le_mul ?_
      rw [Nat.mul_comm]
      exact hstop.trans h.total
    refine ⟨blocks.length, ?_, le_rfl, by omega, ?_⟩
    · rw [List.take_length, List.take_of_length_le (by omega)]
    · rwa [List.take_length]

end Aligned

section

variable {α : Type}

/-- The block with index `i` of a content. -/
def chunk (n : Nat) (content : List α) (i : Nat) : List α := (content.drop (i * n)).take n

def chunks (n count : Nat) (content : List α) : List (List α) :=
  (List.range count).map (chunk n content)

variable {n count : Nat} {content : List α}

theorem take_chunks {i : Nat} (hi : i ≤ count) :
    (chunks n count content).take i = chunks n i content := by
  rw [chunks, ← List.map_take, List.take_range, Nat.min_eq_left hi, ← chunks]

theorem flatten_chunks (n count : Nat) (content : List α) :
    (chunks n count content).flatten = content.take (count * n) := by
  induction count with
  | zero => simp [chunks]
  | succ count ih =>
    rw [chunks, List.range_succ, List.map_append, List.flatten_append, ← chunks, ih,
      List.map_singleton, List.flatten_singleton, chunk, Nat.succ_mul, List.take_add]

/-- A position in a block, in the whole. -/
theorem getElem?_flatten {blocks : List (List α)} {block : List α} {i x : Nat}
    (hi : blocks[i]? = some block) (hx : x < block.length) :
    blocks.flatten[(blocks.take i).flatten.length + x]? = block[x]? := by
  obtain ⟨hlt, hblock⟩ := List.getElem?_eq_some_iff.mp hi
  have hsplit : blocks.flatten = (blocks.take i).flatten ++ (block ++ (blocks.drop (i + 1)).flatten) := by
    rw [← hblock, ← List.flatten_cons, ← List.drop_eq_getElem_cons hlt, ← List.flatten_append,
      List.take_append_drop]
  rw [hsplit, List.getElem?_append_right (Nat.le_add_right _ _), Nat.add_sub_cancel_left,
    List.getElem?_append_left hx]

theorem length_flatten_take {n i : Nat} {blocks : List (List α)}
    (h : ∀ k < i, ∃ block, blocks[k]? = some block ∧ block.length = n) :
    (blocks.take i).flatten.length = i * n := by
  induction i with
  | zero => simp
  | succ i ih =>
    obtain ⟨block, hblock, hlength⟩ := h i (Nat.lt_succ_self i)
    rw [List.take_add_one, List.flatten_append, List.length_append,
      ih fun k hk ↦ h k (Nat.lt_succ_of_lt hk), hblock, Option.toList_some, List.flatten_singleton,
      hlength, Nat.succ_mul]

/-- A content after a part of it was written over. -/
def overwrite (offset : Nat) (s content : List α) : List α :=
  content.take offset ++ s ++ content.drop (offset + s.length)

section

variable {offset : Nat} {s content : List α}

theorem length_overwrite (h : offset + s.length ≤ content.length) :
    (overwrite offset s content).length = content.length := by
  rw [overwrite, List.length_append, List.length_append, List.length_take, List.length_drop]
  omega

/-- What is written reaches to the end. -/
theorem overwrite_end (h : offset + s.length = content.length) :
    overwrite offset s content = content.take offset ++ s := by
  rw [overwrite, h, List.drop_length, List.append_nil]

end

end

/-- Ranges from `start` to `stop`, each of which begins where the one before it ends. -/
inductive Tiles {α : Type} [LE α] : α → α → List (α × α) → Prop
  | nil (start : α) : Tiles start start []
  | cons {start next stop : α} {ranges : List (α × α)} (hle : start ≤ next)
      (h : Tiles next stop ranges) : Tiles start stop ((start, next) :: ranges)

namespace Tiles

theorem le {α : Type} [Preorder α] {start stop : α} {ranges : List (α × α)}
    (h : Tiles start stop ranges) : start ≤ stop := by
  induction h with
  | nil start => exact le_rfl
  | cons hle _ ih => exact hle.trans ih

variable {α : Type} [LinearOrder α] {start stop : α} {ranges : List (α × α)}

/-- The ranges leave nothing out and reach no further. -/
theorem exists_mem_iff (h : Tiles start stop ranges) (x : α) :
    (∃ range ∈ ranges, range.1 ≤ x ∧ x < range.2) ↔ start ≤ x ∧ x < stop := by
  induction h with
  | nil start =>
    constructor
    · rintro ⟨range, hr, -⟩
      cases hr
    · rintro ⟨hle, hlt⟩
      exact absurd hlt (not_lt.mpr hle)
  | @cons start next stop ranges hle h ih =>
    rw [List.exists_mem_cons_iff, ih]
    constructor
    · rintro (⟨hx, hlt⟩ | ⟨hx, hlt⟩)
      · exact ⟨hx, hlt.trans_le h.le⟩
      · exact ⟨hle.trans hx, hlt⟩
    · rintro ⟨hx, hlt⟩
      rcases lt_or_ge x next with hnext | hnext
      · exact .inl ⟨hx, hnext⟩
      · exact .inr ⟨hnext, hlt⟩

end Tiles

end Spkdfs.Library
