import Mathlib.Algebra.Group.Nat.Defs
import Mathlib.Algebra.GroupWithZero.Nat
import Mathlib.Data.List.Forall2
import Spkdfs.Common.Utils

namespace Spkdfs

inductive ErrorCode
  | commonException | pathExistsException | pathNotExistsException | expectedFileException
  | expectedDirException | expectedLockConflict | redirectToMaster | outOfRangeException
deriving DecidableEq

/-- What a call can throw. A failed `assert` is not an exception: it ends the process. -/
inductive Fault
  | message (code : ErrorCode) (info : Str)
  | runtime (what : Str)
  | invalidArgument (what : Str)
  | outOfRange (what : Str)
  | assertion
deriving DecidableEq

section

variable {ε α β : Type}

@[simp] theorem pure_eq_ok (a : α) : (pure a : Except ε α) = .ok a := rfl

@[simp] theorem throw_eq_error (e : ε) : (throw e : Except ε α) = .error e := rfl

@[simp] theorem ok_bind (a : α) (f : α → Except ε β) : (Except.ok a >>= f) = f a := rfl

@[simp] theorem error_bind (e : ε) (f : α → Except ε β) : (Except.error e >>= f) = .error e := rfl

theorem bind_eq_ok {x : Except ε α} {f : α → Except ε β} {r : β} :
    (x >>= f) = .ok r ↔ ∃ a, x = .ok a ∧ f a = .ok r := by
  cases x <;> simp

theorem bind_eq_error {x : Except ε α} {f : α → Except ε β} {e : ε} :
    (x >>= f) = .error e ↔ x = .error e ∨ ∃ a, x = .ok a ∧ f a = .error e := by
  cases x <;> simp

theorem mapM_eq_ok {f : α → Except ε β} {xs : List α} {ys : List β} :
    xs.mapM f = .ok ys ↔ List.Forall₂ (fun x y ↦ f x = .ok y) xs ys := by
  induction xs generalizing ys with
  | nil => simp [eq_comm]
  | cons x xs ih =>
    simp only [List.mapM_cons, bind_eq_ok, pure_eq_ok, Except.ok.injEq, ih]
    constructor
    · rintro ⟨y, hy, ys, hys, rfl⟩
      exact .cons hy hys
    · rintro (_ | ⟨hy, hys⟩)
      exact ⟨_, hy, _, hys, rfl⟩

theorem exists_of_mapM_eq_error {e : ε} {f : α → Except ε β} {xs : List α}
    (h : xs.mapM f = .error e) :
    ∃ x ∈ xs, f x = .error e := by
  induction xs with
  | nil => cases h
  | cons x xs ih =>
    simp only [List.mapM_cons, bind_eq_error] at h
    rcases h with h | ⟨y, -, h | ⟨ys, -, h⟩⟩
    · exact ⟨x, by simp, h⟩
    · obtain ⟨z, hz, he⟩ := ih h
      exact ⟨z, by simp [hz], he⟩
    · cases h

theorem exists_of_foldlM_eq_error {e : ε} {f : β → α → Except ε β} {xs : List α} {b : β}
    (h : xs.foldlM f b = .error e) : ∃ x ∈ xs, ∃ c, f c x = .error e := by
  induction xs generalizing b with
  | nil => cases h
  | cons x xs ih =>
    rw [List.foldlM_cons, bind_eq_error] at h
    rcases h with h | ⟨c, -, h⟩
    · exact ⟨x, by simp, b, h⟩
    · obtain ⟨z, hz, d, he⟩ := ih h
      exact ⟨z, by simp [hz], d, he⟩

end

section Forall₂

variable {α β : Type} {R : α → β → Prop} {xs : List α} {ys : List β}

theorem forall₂_getLast {x : α} (h : List.Forall₂ R xs ys) (hx : xs.getLast? = some x) :
    ∃ y, ys.getLast? = some y ∧ R x y := by
  induction h with
  | nil => cases hx
  | @cons x' y xs ys hxy h ih =>
    cases h with
    | nil =>
      simp only [List.getLast?_singleton, Option.some.injEq] at hx
      exact ⟨y, rfl, hx ▸ hxy⟩
    | cons hxy' h =>
      rw [List.getLast?_cons_cons] at hx ⊢
      exact ih hx

theorem forall₂_mem_right {y : β} (h : List.Forall₂ R xs ys) (hy : y ∈ ys) : ∃ x ∈ xs, R x y := by
  induction h with
  | nil => cases hy
  | @cons x y' xs ys hxy h ih =>
    rcases List.mem_cons.mp hy with rfl | hy
    · exact ⟨x, by simp, hxy⟩
    · obtain ⟨z, hz, hzy⟩ := ih hy
      exact ⟨z, by simp [hz], hzy⟩

theorem forall₂_mem_left {x : α} (h : List.Forall₂ R xs ys) (hx : x ∈ xs) : ∃ y ∈ ys, R x y :=
  forall₂_mem_right h.flip hx

theorem forall₂_comp {γ : Type} {S : β → γ → Prop} {zs : List γ} (h : List.Forall₂ R xs ys)
    (h' : List.Forall₂ S ys zs) : List.Forall₂ (fun x z ↦ ∃ y, R x y ∧ S y z) xs zs := by
  induction h generalizing zs with
  | nil =>
    cases h'
    exact .nil
  | cons hxy _ ih =>
    cases h' with
    | cons hyz h' => exact .cons ⟨_, hxy, hyz⟩ (ih h')

end Forall₂

def intMax : Nat := 2 ^ 31 - 1

def digitsValue (digits : Str) : Nat := digits.foldl (fun n c ↦ 10 * n + (c.toNat - '0'.toNat)) 0

def isSpace (c : Char) : Bool := c == ' ' || ('\t' ≤ c && c ≤ '\r')

/-- `std::stoi` in base 10: leading blanks, a sign, and as many digits as there are. -/
def stoi (s : Str) : Except Fault Int :=
  let s := s.dropWhile isSpace
  let negative := s.head? == some '-'
  let s := if negative || s.head? == some '+' then s.drop 1 else s
  let digits := s.takeWhile Char.isDigit
  let n := digitsValue digits
  if digits = [] then .error (.invalidArgument "stoi".toList)
  else if negative then
    if n ≤ intMax + 1 then .ok (-(n : Int)) else .error (.outOfRange "stoi".toList)
  else if n ≤ intMax then .ok n else .error (.outOfRange "stoi".toList)

def toText (n : Nat) : Str := Nat.toDigits 10 n

theorem toNat_of_isDigit {c : Char} (h : c.isDigit = true) : 48 ≤ c.toNat ∧ c.toNat ≤ 57 := by
  simp only [Char.isDigit, Bool.and_eq_true, decide_eq_true_eq] at h
  exact ⟨h.1, h.2⟩

theorem not_isSpace_of_isDigit {c : Char} (h : c.isDigit = true) : isSpace c = false := by
  obtain ⟨hlow, -⟩ := toNat_of_isDigit h
  have hblank : c ≠ ' ' := by
    rintro rfl
    exact absurd hlow (by decide)
  have htab : ¬ c ≤ '\r' := by
    intro hle
    have hle : c.toNat ≤ 13 := hle
    omega
  simp [isSpace, hblank, htab]

theorem isDigit_of_mem_toText {n : Nat} {c : Char} (h : c ∈ toText n) : c.isDigit = true :=
  Nat.isDigit_of_mem_toDigits (by decide) (by decide) h

theorem toText_ne_nil (n : Nat) : toText n ≠ [] := Nat.toDigits_ne_nil

theorem digitsValue_toText (n : Nat) : digitsValue (toText n) = n := by
  rw [digitsValue, ← Nat.ofDigitChars_eq_foldl]
  exact Nat.ofDigitChars_toDigits (by decide) (by decide)

theorem takeWhile_isDigit_toText (n : Nat) : (toText n).takeWhile Char.isDigit = toText n :=
  List.takeWhile_eq_self_iff.mpr fun _ hc ↦ isDigit_of_mem_toText hc

/-- A text of digits is read whole, and its value has to be an `int`. -/
theorem stoi_of_digits {digits : Str} (hne : digits ≠ []) (hd : ∀ c ∈ digits, c.isDigit = true) :
    stoi digits = if digitsValue digits ≤ intMax then .ok (digitsValue digits : Int)
      else .error (.outOfRange "stoi".toList) := by
  obtain ⟨c, cs, rfl⟩ := List.exists_cons_of_ne_nil hne
  have hc : c.isDigit = true := hd c (by simp)
  have hdrop : (c :: cs).dropWhile isSpace = c :: cs :=
    List.dropWhile_cons_of_neg (by simp [not_isSpace_of_isDigit hc])
  have hminus : c ≠ '-' := by
    rintro rfl
    exact absurd hc (by decide)
  have hplus : c ≠ '+' := by
    rintro rfl
    exact absurd hc (by decide)
  have htake : (c :: cs).takeWhile Char.isDigit = c :: cs := List.takeWhile_eq_self_iff.mpr hd
  simp [stoi, hdrop, hminus, hplus, htake]

theorem stoi_toText {n : Nat} (h : n ≤ intMax) : stoi (toText n) = .ok n := by
  rw [stoi_of_digits (toText_ne_nil n) fun _ hc ↦ isDigit_of_mem_toText hc, digitsValue_toText,
    if_pos h]

theorem stoi_neg_toText {n : Nat} (h : n ≤ intMax + 1) : stoi ('-' :: toText n) = .ok (-(n : Int)) := by
  have hdrop : ('-' :: toText n).dropWhile isSpace = '-' :: toText n :=
    List.dropWhile_cons_of_neg (by decide)
  simp [stoi, hdrop, takeWhile_isDigit_toText, digitsValue_toText, toText_ne_nil, h]

end Spkdfs
