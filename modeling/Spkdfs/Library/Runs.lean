import Mathlib.Data.List.Basic

namespace Spkdfs.Library

variable {σ α : Type}

/-- The states reached from `s` by steps whose guard holds in the state the step
starts from. With the guard `fun _ _ ↦ True` these are all the runs of the machine. -/
inductive Reaches (step : σ → α → Option σ) (guard : σ → α → Prop) (s : σ) : σ → Prop
  | refl : Reaches step guard s s
  | tail {t u : σ} {a : α} :
      Reaches step guard s t → guard t a → step t a = some u → Reaches step guard s u

variable {step : σ → α → Option σ} {guard guard' : σ → α → Prop} {s t u : σ}

theorem Reaches.mono (h : Reaches step guard s t) (hg : ∀ t a, guard t a → guard' t a) :
    Reaches step guard' s t := by
  induction h with
  | refl => exact .refl
  | tail _ ha hs ih => exact ih.tail (hg _ _ ha) hs

/-- What holds at the start and is kept by every guarded step holds in every state
reached. The step may use that the state it starts from was itself reached. -/
theorem Reaches.invariant {I : σ → Prop} (h : Reaches step guard s t) (h₀ : I s)
    (hstep : ∀ t a u, Reaches step guard s t → I t → guard t a → step t a = some u → I u) :
    I t := by
  induction h with
  | refl => exact h₀
  | tail hr ha hs ih => exact hstep _ _ _ hr ih ha hs

def run (step : σ → α → Option σ) (test : σ → α → Bool) (s : σ) : List α → Option σ
  | [] => some s
  | a :: as => if test s a then (step s a).bind (fun t ↦ run step test t as) else none

theorem run_append (test : σ → α → Bool) (s : σ) (as bs : List α) :
    run step test s (as ++ bs) = (run step test s as).bind fun t ↦ run step test t bs := by
  induction as generalizing s with
  | nil => rfl
  | cons a as ih =>
    rw [List.cons_append, run, run]
    split
    · rw [Option.bind_assoc]
      exact congrArg _ (funext fun t ↦ ih t)
    · rfl

theorem reaches_of_run {test : σ → α → Bool} {as : List α}
    (hs : Reaches step (fun s a ↦ test s a = true) u s) (h : run step test s as = some t) :
    Reaches step (fun s a ↦ test s a = true) u t := by
  induction as generalizing s with
  | nil =>
    simp only [run, Option.some.injEq] at h
    exact h ▸ hs
  | cons a as ih =>
    rw [run] at h
    split at h
    · rename_i ha
      obtain ⟨v, hv, ht⟩ := Option.bind_eq_some_iff.mp h
      exact ih (hs.tail ha hv) ht
    · cases h

/-- A run found by evaluation, given by a test of the state it ends in. -/
theorem exists_reached (step : σ → α → Option σ) (test : σ → α → Bool) (s : σ) (as : List α)
    (p : σ → Bool) (h : (run step test s as).any p = true) :
    ∃ t, Reaches step (fun s a ↦ test s a = true) s t ∧ p t = true := by
  cases hr : run step test s as with
  | none => simp [hr] at h
  | some t => exact ⟨t, reaches_of_run .refl hr, by simpa [hr] using h⟩

theorem Reaches.trans (h : Reaches step guard s t) (h' : Reaches step guard t u) :
    Reaches step guard s u := by
  induction h' with
  | refl => exact h
  | tail _ ha hs ih => exact ih.tail ha hs

/-- Where there is always a step that brings the end nearer, the end is reached. -/
theorem exists_end {I End : σ → Prop} (distance : σ → Nat) (hs : I s)
    (hstep : ∀ s, I s → ¬ End s →
      ∃ a t, guard s a ∧ step s a = some t ∧ I t ∧ distance t < distance s) :
    ∃ t, Reaches step guard s t ∧ I t ∧ End t := by
  induction hn : distance s using Nat.strongRecOn generalizing s with
  | ind n ih =>
    by_cases hend : End s
    · exact ⟨s, .refl, hs, hend⟩
    · obtain ⟨a, t, ha, ht, hkept, hlt⟩ := hstep s hs hend
      obtain ⟨u, hu, hkept', hend'⟩ := ih _ (hn ▸ hlt) hkept rfl
      exact ⟨u, Reaches.trans (.tail .refl ha ht) hu, hkept', hend'⟩

theorem split_concat {α : Type} {xs before after : List α} {x y : α}
    (h : xs ++ [y] = before ++ x :: after) :
    after = [] ∧ x = y ∧ before = xs ∨
      ∃ after', after = after' ++ [y] ∧ xs = before ++ x :: after' := by
  rcases List.eq_nil_or_concat' after with rfl | ⟨after', z, rfl⟩
  · obtain ⟨rfl, he⟩ := List.append_inj' h rfl
    exact .inl ⟨rfl, (List.cons.inj he).1.symm, rfl⟩
  · rw [← List.cons_append, ← List.append_assoc] at h
    obtain ⟨rfl, he⟩ := List.append_inj' h rfl
    rw [(List.cons.inj he).1]
    exact .inr ⟨after', rfl, rfl⟩

/-- Every event of a history, with what came before it, has the property. -/
def Everywhere {α : Type} (Q : List α → α → Prop) (xs : List α) : Prop :=
  ∀ before x after, xs = before ++ x :: after → Q before x

section

variable {Q : List α → α → Prop} {xs ys : List α} {x y : α}

theorem everywhere_nil : Everywhere Q [] := fun before x after h ↦ by simp at h

theorem Everywhere.concat (h : Everywhere Q xs) (hy : Q xs y) : Everywhere Q (xs ++ [y]) := by
  intro before x after he
  rcases split_concat he with ⟨-, rfl, rfl⟩ | ⟨after', -, hold⟩
  · exact hy
  · exact h before x after' hold

end

end Spkdfs.Library
