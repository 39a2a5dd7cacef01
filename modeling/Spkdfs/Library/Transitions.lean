import Mathlib.Logic.Basic

namespace Spkdfs.Library

variable {σ α : Type}

/-- The states reached by labelled steps that meet a guard in the state they start from. -/
inductive Steps (step : σ → α → σ → Prop) (guard : σ → α → Prop) (s : σ) : σ → Prop
  | refl : Steps step guard s s
  | tail {t u : σ} {a : α} :
      Steps step guard s t → guard t a → step t a u → Steps step guard s u

variable {step : σ → α → σ → Prop} {guard guard' : σ → α → Prop} {s t u : σ} {a : α}

theorem Steps.one (hguard : guard s a) (hstep : step s a t) : Steps step guard s t :=
  .tail .refl hguard hstep

theorem Steps.mono (h : Steps step guard s t) (hguard : ∀ t a, guard t a → guard' t a) :
    Steps step guard' s t := by
  induction h with
  | refl => exact .refl
  | tail _ ha hs ih => exact ih.tail (hguard _ _ ha) hs

theorem Steps.trans (h : Steps step guard s t) (h' : Steps step guard t u) :
    Steps step guard s u := by
  induction h' with
  | refl => exact h
  | tail _ ha hs ih => exact ih.tail ha hs

/-- What holds at the start and is kept by every guarded step holds in every state reached. -/
theorem Steps.invariant {I : σ → Prop} (h : Steps step guard s t) (hs : I s)
    (hstep : ∀ t a u, I t → guard t a → step t a u → I u) : I t := by
  induction h with
  | refl => exact hs
  | tail _ ha hs ih => exact hstep _ _ _ ih ha hs

end Spkdfs.Library
