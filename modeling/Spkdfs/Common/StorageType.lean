import Mathlib.Algebra.Group.Int.Defs
import Spkdfs.Common.Exception

namespace Spkdfs

/-- A text of digits whose value is an `int`. -/
structure Numeral (digits : Str) : Prop where
  ne_nil : digits ≠ []
  digit : ∀ c ∈ digits, c.isDigit = true
  fits : digitsValue digits ≤ intMax

inductive StorageType
  | rs (k m b : Nat)
  | re (replications b : Nat)
  | agg (k m b : Nat)
deriving DecidableEq

namespace StorageType

/-- The digit groups of `(\d+),…,(\d+)>` with `n` groups. -/
def groups (n : Nat) (s : Str) : Option (List Str) :=
  let parts := s.dropLast.splitOn ','
  if s.getLast? = some '>' ∧ parts.length = n ∧
      parts.all (fun d ↦ d ≠ [] ∧ d.all Char.isDigit) then some parts
  else none

def numbers (digits : List Str) : Except Fault (List Nat) :=
  digits.mapM (fun d ↦ do return (← stoi d).toNat)

def fromString (input : Str) : Except Fault StorageType :=
  let failed := Fault.runtime ("cannot solve ".toList ++ input)
  match input with
  | 'R' :: 'S' :: '<' :: rest =>
    match groups 3 rest with
    | some digits => do
      match ← numbers digits with
      | [k, m, b] => return .rs k m b
      | _ => throw failed
    | none => throw failed
  | 'R' :: 'E' :: '<' :: rest =>
    match groups 2 rest with
    | some digits => do
      match ← numbers digits with
      | [replications, b] => return .re replications b
      | _ => throw failed
    | none => throw failed
  | 'A' :: 'G' :: 'G' :: '<' :: rest =>
    match groups 3 rest with
    | some digits => do
      match ← numbers digits with
      | [k, m, b] => return .agg k m b
      | _ => throw failed
    | none => throw failed
  | _ => throw failed

def getBlockSize : StorageType → Int
  | .rs _ _ b | .re _ b | .agg _ _ b => (BitVec.ofNat 32 (b * 1024 * 1024)).toInt

theorem getBlockSize_lt (storage : StorageType) : storage.getBlockSize < 2 ^ 31 := by
  cases storage <;> exact BitVec.toInt_lt

example : fromString "RS<7,5,16>".toList = .ok (.rs 7 5 16) := by decide

def parameters : StorageType → List Nat
  | .rs k m b | .agg k m b => [k, m, b]
  | .re replications b => [replications, b]

def name : StorageType → Str
  | .rs _ _ _ => "RS".toList
  | .re _ _ => "RE".toList
  | .agg _ _ _ => "AGG".toList

def toString (storage : StorageType) : Str :=
  storage.name ++ '<' :: [','].intercalate (storage.parameters.map toText) ++ ['>']

/-- A storage type in writing. -/
def written (name : Str) (digits : List Str) : Str :=
  name ++ '<' :: [','].intercalate digits ++ ['>']

theorem toString_eq_written (t : StorageType) :
    t.toString = written t.name (t.parameters.map toText) := rfl

variable {s : Str} {parts digits : List Str} {ns : List Nat} {t : StorageType} {n : Nat}

theorem groups_eq_some (h : groups n s = some parts) :
    parts.length = n ∧ (∀ d ∈ parts, d ≠ [] ∧ ∀ c ∈ d, c.isDigit = true) ∧
      s = [','].intercalate parts ++ ['>'] := by
  simp only [groups] at h
  split at h
  · rename_i hparts
    obtain ⟨hlast, hlength, hall⟩ := hparts
    obtain rfl := Option.some.inj h
    refine ⟨hlength, fun d hd ↦ ?_, ?_⟩
    · have hd := List.all_eq_true.mp hall d hd
      simp only [decide_eq_true_eq] at hd
      exact ⟨hd.1, List.all_eq_true.mp hd.2⟩
    · rw [List.intercalate_splitOn, List.dropLast_append_getLast? _ hlast]
  · cases h

theorem groups_of_digits (hne : digits ≠ [])
    (hd : ∀ d ∈ digits, d ≠ [] ∧ ∀ c ∈ d, c.isDigit = true) :
    groups digits.length ([','].intercalate digits ++ ['>']) = some digits := by
  have hcomma : ∀ d ∈ digits, ',' ∉ d := fun d hm hc ↦ absurd ((hd d hm).2 _ hc) (by decide)
  have hsplit := List.splitOn_intercalate ',' hcomma hne
  have hall : digits.all (fun d ↦ d ≠ [] ∧ d.all Char.isDigit) = true := by
    refine List.all_eq_true.mpr fun d hm ↦ decide_eq_true ?_
    exact ⟨(hd d hm).1, List.all_eq_true.mpr (hd d hm).2⟩
  simp only [groups, List.dropLast_concat, List.getLast?_concat, hsplit]
  rw [if_pos ⟨trivial, trivial, hall⟩]

theorem numbers_of_numerals (h : ∀ d ∈ digits, Numeral d) :
    numbers digits = .ok (digits.map digitsValue) := by
  rw [numbers, mapM_eq_ok, List.forall₂_map_right_iff]
  refine List.forall₂_same.mpr fun d hd ↦ ?_
  rw [stoi_of_digits (h d hd).ne_nil (h d hd).digit, if_pos (h d hd).fits, ok_bind]
  rfl

theorem numerals_of_numbers (hd : ∀ d ∈ digits, d ≠ [] ∧ ∀ c ∈ d, c.isDigit = true)
    (h : numbers digits = .ok ns) : ∀ d ∈ digits, Numeral d := by
  intro d hm
  obtain ⟨n, -, hn⟩ := forall₂_mem_left (mapM_eq_ok.mp h) hm
  obtain ⟨hne, hdigit⟩ := hd d hm
  refine ⟨hne, hdigit, ?_⟩
  by_contra hfits
  rw [stoi_of_digits hne hdigit, if_neg hfits] at hn
  cases hn

/-- What is written in the three forms is read, number by number. -/
theorem fromString_written (hparameters : t.parameters = digits.map digitsValue)
    (hd : ∀ d ∈ digits, Numeral d) : fromString (written t.name digits) = .ok t := by
  have hnumbers := numbers_of_numerals hd
  have hlength := congrArg List.length hparameters
  rw [List.length_map] at hlength
  have hne : digits ≠ [] := by
    rintro rfl
    cases t <;> cases hlength
  have hgroups := groups_of_digits hne fun d hm ↦ ⟨(hd d hm).ne_nil, (hd d hm).digit⟩
  rw [← hlength] at hgroups
  rw [← hparameters] at hnumbers
  cases t with
  | rs k m b =>
    show fromString ('R' :: 'S' :: '<' :: ([','].intercalate digits ++ ['>'])) = _
    simp only [fromString, parameters, List.length_cons, List.length_nil] at hgroups hnumbers ⊢
    rw [hgroups]
    simp only [hnumbers, ok_bind, pure_eq_ok]
  | re replications b =>
    show fromString ('R' :: 'E' :: '<' :: ([','].intercalate digits ++ ['>'])) = _
    simp only [fromString, parameters, List.length_cons, List.length_nil] at hgroups hnumbers ⊢
    rw [hgroups]
    simp only [hnumbers, ok_bind, pure_eq_ok]
  | agg k m b =>
    show fromString ('A' :: 'G' :: 'G' :: '<' :: ([','].intercalate digits ++ ['>'])) = _
    simp only [fromString, parameters, List.length_cons, List.length_nil] at hgroups hnumbers ⊢
    rw [hgroups]
    simp only [hnumbers, ok_bind, pure_eq_ok]

/-- Whatever is read was written in one of the three forms. -/
theorem written_of_fromString (h : fromString s = .ok t) :
    ∃ digits, (∀ d ∈ digits, Numeral d) ∧ t.parameters = digits.map digitsValue ∧
      s = written t.name digits := by
  simp only [fromString] at h
  split at h
  case h_4 => cases h
  all_goals
    split at h
    · rename_i digits hgroups
      obtain ⟨-, hdigits, rfl⟩ := groups_eq_some hgroups
      obtain ⟨ns, hns, h⟩ := bind_eq_ok.mp h
      have hnumerals := numerals_of_numbers hdigits hns
      rw [numbers_of_numerals hnumerals] at hns
      obtain rfl := Except.ok.inj hns
      split at h
      · rename_i hvalues
        obtain rfl := Except.ok.inj h
        exact ⟨digits, hnumerals, hvalues.symm, rfl⟩
      · cases h
    · cases h

/-- What `to_string` prints is read back. -/
theorem fromString_toString {storage : StorageType} (h : ∀ n ∈ storage.parameters, n ≤ intMax) :
    fromString storage.toString = .ok storage := by
  rw [toString_eq_written]
  refine fromString_written ?_ fun d hd ↦ ?_
  · rw [List.map_map]
    exact (List.map_congr_left fun n _ ↦ digitsValue_toText n).trans (List.map_id _) |>.symm
  · obtain ⟨n, hn, rfl⟩ := List.mem_map.mp hd
    refine ⟨toText_ne_nil n, fun c hc ↦ isDigit_of_mem_toText hc, ?_⟩
    rw [digitsValue_toText]
    exact h n hn

theorem parameters_le (h : fromString s = .ok t) : ∀ n ∈ t.parameters, n ≤ intMax := by
  obtain ⟨digits, hd, hparameters, -⟩ := written_of_fromString h
  intro n hn
  rw [hparameters] at hn
  obtain ⟨d, hm, rfl⟩ := List.mem_map.mp hn
  exact (hd d hm).fits

end StorageType

end Spkdfs
