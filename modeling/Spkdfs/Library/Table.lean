import Mathlib.Logic.Function.Basic
import Mathlib.Data.List.Basic
import Mathlib.Data.List.Induction

namespace Spkdfs.Library

open Function

variable {κ ν : Type}

/-- A key-value table in which every value is stored under its own key. -/
@[ext] structure Table (key : ν → κ) where
  find : κ → Option ν
  keyed : ∀ k v, find k = some v → key v = k

theorem of_getLast?_filter {q : ν → Prop} [DecidablePred q] {vs : List ν} {v : ν}
    (h : (vs.filter (q ·)).getLast? = some v) : v ∈ vs ∧ q v := by
  obtain ⟨hv, hq⟩ := List.mem_filter.mp (List.mem_of_getLast? h)
  exact ⟨hv, of_decide_eq_true hq⟩

namespace Table

variable {key : ν → κ}

def empty : Table key where
  find _ := none
  keyed _ _ h := by cases h

@[simp] theorem find_empty (k : κ) : (empty : Table key).find k = none := rfl

variable [DecidableEq κ]

def put (t : Table key) (v : ν) : Table key where
  find := update t.find (key v) (some v)
  keyed k w h := by
    by_cases hk : k = key v
    · subst hk
      simp only [update_self, Option.some.injEq] at h
      rw [h]
    · exact t.keyed k w (by simpa [update_of_ne hk] using h)

@[simp] theorem find_put_self (t : Table key) (v : ν) : (t.put v).find (key v) = some v :=
  update_self ..

theorem find_put_of_ne (t : Table key) {v : ν} {k : κ} (h : k ≠ key v) :
    (t.put v).find k = t.find k := update_of_ne h ..

def write (t : Table key) (vs : List ν) : Table key := vs.foldl put t

@[simp] theorem write_nil (t : Table key) : t.write [] = t := rfl

@[simp] theorem write_cons (t : Table key) (v : ν) (vs : List ν) :
    t.write (v :: vs) = (t.put v).write vs := rfl

theorem write_append (t : Table key) (vs ws : List ν) :
    t.write (vs ++ ws) = (t.write vs).write ws := List.foldl_append ..

theorem find_write (t : Table key) (vs : List ν) (k : κ) :
    (t.write vs).find k = ((vs.filter (key · = k)).getLast?).or (t.find k) := by
  induction vs using List.reverseRecOn generalizing t with
  | nil => simp
  | append_singleton vs v ih =>
    rw [write_append, write_cons, write_nil]
    by_cases hk : key v = k
    · subst hk
      rw [find_put_self]
      simp
    · rw [find_put_of_ne _ (Ne.symm hk), ih]
      simp [hk]

theorem find_write_of_notMem (t : Table key) {vs : List ν} {k : κ} (h : k ∉ vs.map key) :
    (t.write vs).find k = t.find k := by
  have hnil : vs.filter (key · = k) = [] := by
    rw [List.filter_eq_nil_iff]
    intro v hv hk
    exact h (List.mem_map.mpr ⟨v, hv, by simpa using hk⟩)
  rw [find_write, hnil]
  rfl

theorem exists_find_write (t : Table key) {vs : List ν} {k : κ} (h : k ∈ vs.map key) :
    ∃ v ∈ vs, key v = k ∧ (t.write vs).find k = some v := by
  obtain ⟨v₀, hv₀, hk₀⟩ := List.mem_map.mp h
  cases hl : (vs.filter (key · = k)).getLast? with
  | none =>
    rw [List.getLast?_eq_none_iff, List.filter_eq_nil_iff] at hl
    exact absurd (by simpa using hk₀) (hl v₀ hv₀)
  | some v =>
    obtain ⟨hv, hk⟩ := of_getLast?_filter hl
    exact ⟨v, hv, hk, by rw [find_write, hl]; rfl⟩

end Table

end Spkdfs.Library
