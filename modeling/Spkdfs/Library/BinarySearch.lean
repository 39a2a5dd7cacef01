import Mathlib.Data.List.Basic

namespace Spkdfs.Library

section

variable {α : Type} (lt : α → α → Bool) (xs : List α) (value : α)

/-- The first of `count` places from `first` on whose element is not less than the value. The last
argument bounds the turns of the loop. -/
def lowerBound (first count : Nat) : Nat → Nat
  | 0 => first
  | fuel + 1 =>
    if count = 0 then first
    else
      let step := count / 2
      if xs[first + step]?.any (lt · value) then
        lowerBound (first + step + 1) (count - (step + 1)) fuel
      else lowerBound first step fuel

def binarySearch : Bool :=
  xs[lowerBound lt xs value 0 xs.length xs.length]?.any (!lt value ·)

end

section

variable {α : Type} {lt : α → α → Bool} {xs : List α} {value : α} {first count fuel i : Nat}

/-- Where the elements that are less than the value come first, the search finds how many they are. -/
theorem lowerBound_spec (hfuel : count ≤ fuel)
    (hless : ∀ i j : Nat, i ≤ j → xs[j]?.any (lt · value) → xs[i]?.any (lt · value)) :
    first ≤ lowerBound lt xs value first count fuel ∧
      lowerBound lt xs value first count fuel ≤ first + count ∧
      (∀ i, first ≤ i → i < lowerBound lt xs value first count fuel → xs[i]?.any (lt · value)) ∧
      ∀ i, lowerBound lt xs value first count fuel ≤ i → i < first + count →
        ¬ xs[i]?.any (lt · value) := by
  induction fuel generalizing first count with
  | zero =>
    obtain rfl := Nat.le_zero.mp hfuel
    refine ⟨Nat.le_refl _, Nat.le_refl _, fun i hle hlt ↦ absurd hlt (Nat.not_lt_of_le hle), fun i hle hlt ↦ ?_⟩
    exact absurd hlt (Nat.not_lt_of_le hle)
  | succ fuel ih =>
    by_cases hzero : count = 0
    · rw [lowerBound, if_pos hzero, hzero]
      refine ⟨Nat.le_refl _, Nat.le_refl _, fun i hle hlt ↦ absurd hlt (Nat.not_lt_of_le hle), fun i hle hlt ↦ ?_⟩
      exact absurd hlt (Nat.not_lt_of_le hle)
    have hhalf : count / 2 < count := Nat.div_lt_self (Nat.pos_of_ne_zero hzero) (by decide)
    by_cases hmiddle : xs[first + count / 2]?.any (lt · value)
    · obtain ⟨hfirst, hend, hbefore, hafter⟩ :=
        @ih (first + count / 2 + 1) (count - (count / 2 + 1)) (by omega)
      rw [lowerBound, if_neg hzero]
      simp only [hmiddle, if_true]
      refine ⟨by omega, by omega, fun i hle hlt ↦ ?_, fun i hle hlt ↦ hafter i hle (by omega)⟩
      by_cases hi : i ≤ first + count / 2
      · exact hless i _ hi hmiddle
      · exact hbefore i (by omega) hlt
    · obtain ⟨hfirst, hend, hbefore, hafter⟩ := @ih first (count / 2) (by omega)
      rw [lowerBound, if_neg hzero]
      simp only [hmiddle, if_false, Bool.false_eq_true]
      refine ⟨hfirst, by omega, hbefore, fun i hle hlt ↦ ?_⟩
      by_cases hi : i < first + count / 2
      · exact hafter i hle hi
      · exact fun h ↦ hmiddle (hless _ i (by omega) h)

/-- In a list that is sorted, the search finds the elements that are neither less nor greater. -/
theorem binarySearch_iff (htrans : ∀ {a b c}, lt b a = false → lt c b = false → lt c a = false)
    (hsorted : xs.Pairwise fun a b ↦ lt b a = false) :
    binarySearch lt xs value = true ↔ ∃ x ∈ xs, lt x value = false ∧ lt value x = false := by
  have hordered : ∀ {i j : Nat} {x y : α}, i < j → xs[i]? = some x → xs[j]? = some y →
      lt y x = false := by
    intro i j x y hij hx hy
    obtain ⟨hi, rfl⟩ := List.getElem?_eq_some_iff.mp hx
    obtain ⟨hj, rfl⟩ := List.getElem?_eq_some_iff.mp hy
    exact List.pairwise_iff_getElem.mp hsorted i j hi hj hij
  have hless : ∀ i j : Nat, i ≤ j → xs[j]?.any (lt · value) → xs[i]?.any (lt · value) := by
    intro i j hij hany
    obtain hlt | rfl := Nat.lt_or_eq_of_le hij
    · obtain ⟨y, hy, hyv⟩ := (Option.any_eq_true ..).mp hany
      have hi : i < xs.length := Nat.lt_trans hlt (List.getElem?_eq_some_iff.mp hy).1
      rw [List.getElem?_eq_getElem hi, Option.any_some]
      by_contra hno
      have hnot := htrans (eq_false_of_ne_true hno)
        (hordered hlt (List.getElem?_eq_getElem hi) hy)
      exact Bool.false_ne_true (hnot.symm.trans hyv)
    · exact hany
  obtain ⟨-, -, hbefore, hafter⟩ :=
    @lowerBound_spec _ lt xs value 0 xs.length xs.length (Nat.le_refl _) hless
  rw [binarySearch, Option.any_eq_true]
  constructor
  · rintro ⟨x, hx, hvx⟩
    obtain ⟨hlt, -⟩ := List.getElem?_eq_some_iff.mp hx
    have hxv := hafter _ (Nat.le_refl _) (by rwa [Nat.zero_add])
    rw [hx, Option.any_some] at hxv
    exact ⟨x, List.mem_of_getElem? hx, eq_false_of_ne_true hxv, (Bool.not_eq_true' _).mp hvx⟩
  · rintro ⟨x, hmem, hxv, hvx⟩
    obtain ⟨k, hx⟩ := List.mem_iff_getElem?.mp hmem
    have hlt := (List.getElem?_eq_some_iff.mp hx).1
    have hle : lowerBound lt xs value 0 xs.length xs.length ≤ k := by
      by_contra hno
      have hany := hbefore k (Nat.zero_le k) (Nat.lt_of_not_le hno)
      rw [hx, Option.any_some, hxv] at hany
      cases hany
    obtain hlt' | heq := Nat.lt_or_eq_of_le hle
    · have hy := List.getElem?_eq_getElem (Nat.lt_trans hlt' hlt)
      exact ⟨_, hy, (Bool.not_eq_true' _).mpr (htrans (hordered hlt' hy hx) hvx)⟩
    · exact ⟨x, heq ▸ hx, (Bool.not_eq_true' _).mpr hvx⟩

end

end Spkdfs.Library
