import Spkdfs.Common.Serialization

namespace Spkdfs

open Library

/-- The digits without the zeros in front. -/
def trimZeros (digits : Str) : Str :=
  if digits.dropWhile (· = '0') = [] then ['0'] else digits.dropWhile (· = '0')

theorem digitsValue_concat (digits : Str) (c : Char) :
    digitsValue (digits ++ [c]) = 10 * digitsValue digits + (c.toNat - '0'.toNat) := by
  rw [digitsValue, List.foldl_append]
  rfl

theorem digitsValue_dropWhile (digits : Str) :
    digitsValue (digits.dropWhile (· = '0')) = digitsValue digits := by
  induction digits with
  | nil => rfl
  | cons c digits ih =>
    by_cases hc : c = '0'
    · subst hc
      rw [List.dropWhile_cons_of_pos (by decide), ih]
      rfl
    · rw [List.dropWhile_cons_of_neg (by simpa using hc)]

theorem digitChar_of_isDigit {c : Char} (h : c.isDigit = true) :
    Nat.digitChar (c.toNat - '0'.toNat) = c := by
  obtain ⟨hlow, hhigh⟩ := toNat_of_isDigit h
  have hchar : ∀ n < 10, (Nat.digitChar n).toNat = n + 48 := by decide
  have hzero : '0'.toNat = 48 := rfl
  have hvalue := hchar (c.toNat - 48) (by omega)
  refine Char.toNat_inj.mp ?_
  rw [hzero, hvalue]
  omega

theorem toNat_sub_lt {c : Char} (h : c.isDigit = true) : c.toNat - '0'.toNat < 10 := by
  obtain ⟨hlow, hhigh⟩ := toNat_of_isDigit h
  have hzero : '0'.toNat = 48 := rfl
  omega

/-- Digits that do not begin with a zero are the printed form of their value. -/
theorem toText_digitsValue {digits : Str} (hne : digits ≠ [])
    (hd : ∀ c ∈ digits, c.isDigit = true) (hhead : digits.head? ≠ some '0') :
    0 < digitsValue digits ∧ toText (digitsValue digits) = digits := by
  induction digits using List.reverseRecOn with
  | nil => exact absurd rfl hne
  | append_singleton front c ih =>
    have hc : c.isDigit = true := hd c (by simp)
    have hlt := toNat_sub_lt hc
    rw [digitsValue_concat, toText, Nat.toDigits_eq_if (by decide)]
    by_cases hfront : front = []
    · subst hfront
      have hc0 : c ≠ '0' := by simpa using hhead
      have hpos : c.toNat - '0'.toNat ≠ 0 := by
        intro h0
        have hchar := digitChar_of_isDigit hc
        rw [h0] at hchar
        exact hc0 hchar.symm
      have hvalue : 10 * digitsValue [] + (c.toNat - '0'.toNat) = c.toNat - '0'.toNat :=
        Nat.zero_add _
      rw [hvalue, if_pos hlt, digitChar_of_isDigit hc]
      exact ⟨Nat.pos_of_ne_zero hpos, rfl⟩
    · rw [List.head?_append_of_ne_nil _ hfront] at hhead
      obtain ⟨hpos, htext⟩ := ih hfront (fun c hc ↦ hd c (by simp [hc])) hhead
      have hdiv : (10 * digitsValue front + (c.toNat - '0'.toNat)) / 10 = digitsValue front := by
        omega
      have hmod : (10 * digitsValue front + (c.toNat - '0'.toNat)) % 10 = c.toNat - '0'.toNat := by
        omega
      rw [if_neg (by omega), hdiv, hmod, digitChar_of_isDigit hc]
      exact ⟨by omega, congrArg (· ++ [c]) htext⟩

/-- Printing the value of digits takes the zeros in front away. -/
theorem toText_digitsValue_eq {digits : Str} (hd : ∀ c ∈ digits, c.isDigit = true) :
    toText (digitsValue digits) = trimZeros digits := by
  rw [← digitsValue_dropWhile, trimZeros]
  split
  · rename_i hnil
    rw [hnil]
    rfl
  · rename_i hne
    refine (toText_digitsValue hne (fun c hc ↦ hd c (List.dropWhile_sublist _ |>.subset hc)) ?_).2
    intro hhead
    have hfirst := List.head?_dropWhile_not (· = '0') digits
    rw [hhead] at hfirst
    exact absurd hfirst (by decide)

namespace StorageType

/-- The forms `RS<k,m,b>`, `RE<r,b>` and `AGG<k,m,b>`. -/
inductive Accepted : Str → Prop
  | rs {k m b : Str} (hk : Numeral k) (hm : Numeral m) (hb : Numeral b) :
      Accepted (written "RS".toList [k, m, b])
  | re {replications b : Str} (hr : Numeral replications) (hb : Numeral b) :
      Accepted (written "RE".toList [replications, b])
  | agg {k m b : Str} (hk : Numeral k) (hm : Numeral m) (hb : Numeral b) :
      Accepted (written "AGG".toList [k, m, b])

variable {s : Str} {t : StorageType} {digits : List Str}

theorem accepted_written (hparameters : t.parameters = digits.map digitsValue)
    (hd : ∀ d ∈ digits, Numeral d) : Accepted (written t.name digits) := by
  cases t with
  | rs k m b =>
    match digits, hparameters with
    | [k, m, b], _ => exact .rs (hd k (by simp)) (hd m (by simp)) (hd b (by simp))
  | re replications b =>
    match digits, hparameters with
    | [r, b], _ => exact .re (hd r (by simp)) (hd b (by simp))
  | agg k m b =>
    match digits, hparameters with
    | [k, m, b], _ => exact .agg (hd k (by simp)) (hd m (by simp)) (hd b (by simp))

theorem fromString_of_accepted (h : Accepted s) : ∃ t, fromString s = .ok t := by
  cases h with
  | @rs k m b hk hm hb =>
    have hd : ∀ d ∈ [k, m, b], Numeral d := by simp [hk, hm, hb]
    exact ⟨_, fromString_written (t := .rs (digitsValue k) (digitsValue m) (digitsValue b)) rfl hd⟩
  | @re r b hr hb =>
    have hd : ∀ d ∈ [r, b], Numeral d := by simp [hr, hb]
    exact ⟨_, fromString_written (t := .re (digitsValue r) (digitsValue b)) rfl hd⟩
  | @agg k m b hk hm hb =>
    have hd : ∀ d ∈ [k, m, b], Numeral d := by simp [hk, hm, hb]
    exact ⟨_, fromString_written (t := .agg (digitsValue k) (digitsValue m) (digitsValue b)) rfl hd⟩

theorem accepted_iff : (∃ t, fromString s = .ok t) ↔ Accepted s := by
  refine ⟨fun ⟨t, h⟩ ↦ ?_, fromString_of_accepted⟩
  obtain ⟨digits, hd, hparameters, rfl⟩ := written_of_fromString h
  exact accepted_written hparameters hd

/-- What is read prints as it was written, but for zeros in front of a number. -/
theorem toString_fromString (h : fromString s = .ok t) :
    ∃ digits, (∀ d ∈ digits, Numeral d) ∧ s = written t.name digits ∧
      t.toString = written t.name (digits.map trimZeros) := by
  obtain ⟨digits, hd, hparameters, rfl⟩ := written_of_fromString h
  refine ⟨digits, hd, rfl, ?_⟩
  have htexts : t.parameters.map toText = digits.map trimZeros := by
    rw [hparameters, List.map_map]
    exact List.map_congr_left fun d hm ↦ toText_digitsValue_eq (hd d hm).digit
  rw [toString_eq_written, htexts]

end StorageType

/-- The texts of storage types: which of them are accepted, how they are printed, and that both the
text and the JSON document of what was accepted lead back to it. -/
theorem storage_type_texts (s : Str) :
    ((∃ t, StorageType.fromString s = .ok t) ↔ StorageType.Accepted s) ∧
      ((∃ fault, StorageType.fromString s = .error fault) ↔ ¬ StorageType.Accepted s) ∧
      ∀ t, StorageType.fromString s = .ok t →
        (∃ digits, (∀ d ∈ digits, Numeral d) ∧ s = StorageType.written t.name digits ∧
          t.toString = StorageType.written t.name (digits.map trimZeros)) ∧
        StorageType.fromString t.toString = .ok t ∧ StorageType.fromJson t.toJson = .ok t := by
  refine ⟨StorageType.accepted_iff, ?_, fun t h ↦ ?_⟩
  · rw [← StorageType.accepted_iff]
    cases StorageType.fromString s with
    | ok t => simp
    | error fault => simp
  · have hfits := StorageType.parameters_le h
    exact ⟨StorageType.toString_fromString h, StorageType.fromString_toString hfits,
      StorageType.fromJson_toJson hfits⟩

theorem storage_type_texts_zeros :
    StorageType.fromString "RE<007,0>".toList = .ok (.re 7 0) ∧
      StorageType.fromString "RE<7,0>".toList = .ok (.re 7 0) ∧
      ∃ digits, "RE<007,0>".toList = StorageType.written "RE".toList digits ∧
        "RE<7,0>".toList = StorageType.written "RE".toList (digits.map trimZeros) := by
  have hread : StorageType.fromString "RE<007,0>".toList = .ok (.re 7 0) := by decide
  obtain ⟨⟨digits, -, hwritten, hprinted⟩, hagain, -⟩ :=
    (storage_type_texts "RE<007,0>".toList).2.2 _ hread
  exact ⟨hread, hagain, digits, hwritten, hprinted⟩

end Spkdfs
