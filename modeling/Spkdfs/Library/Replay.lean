import Mathlib.Data.List.Basic

namespace Spkdfs.Library

variable {σ ε α : Type}

/-- Maps that can be composed, and of which none does more when it is done twice. -/
structure Settling (F : (α → α) → Prop) : Prop where
  id : F id
  comp : ∀ f g, F f → F g → F (g ∘ f)
  twice : ∀ f, F f → ∀ a, f (f a) = f a

/-- The identity, the constants, and one map more. -/
def Resets (g f : α → α) : Prop := f = id ∨ f = g ∨ ∃ a, f = fun _ ↦ a

theorem settling_resets {g : α → α} (hg : ∀ a, g (g a) = g a) : Settling (Resets g) where
  id := .inl rfl
  comp f h hf hh := by
    rcases hh with rfl | rfl | ⟨b, rfl⟩
    · exact hf
    · rcases hf with rfl | rfl | ⟨a, rfl⟩
      · exact .inr (.inl rfl)
      · exact .inr (.inl (funext hg))
      · exact .inr (.inr ⟨h a, rfl⟩)
    · exact .inr (.inr ⟨b, rfl⟩)
  twice f hf a := by
    rcases hf with rfl | rfl | ⟨b, rfl⟩
    · rfl
    · exact hg a
    · rfl

/-- What `π` shows of a state changes with every action by a map that depends on nothing but
the action. -/
def Observes (step : σ → ε → Option σ) (I : σ → Prop) (good : ε → Prop)
    (F : (α → α) → Prop) (π : σ → α) : Prop :=
  ∀ e, good e → ∃ f, F f ∧ ∀ s t, I s → step s e = some t → π t = f (π s)

section

variable {step : σ → ε → Option σ} {I : σ → Prop} {good : ε → Prop} {F : (α → α) → Prop}
  {π : σ → α}

theorem foldlM_invariant (hI : ∀ s e t, I s → good e → step s e = some t → I t)
    {es : List ε} (hes : ∀ e ∈ es, good e) {s t : σ} (hs : I s)
    (h : es.foldlM step s = some t) : I t := by
  induction es generalizing s with
  | nil =>
    obtain rfl := Option.some.inj h
    exact hs
  | cons e es ih =>
    rw [List.foldlM_cons] at h
    obtain ⟨u, hu, h⟩ := Option.bind_eq_some_iff.mp h
    exact ih (fun e he ↦ hes e (List.mem_cons_of_mem _ he)) (hI s e u hs (hes e (by simp)) hu) h

theorem Observes.foldlM (h : Observes step I good F π) (hF : Settling F)
    (hI : ∀ s e t, I s → good e → step s e = some t → I t)
    {es : List ε} (hes : ∀ e ∈ es, good e) :
    ∃ f, F f ∧ ∀ s t, I s → es.foldlM step s = some t → π t = f (π s) := by
  induction es with
  | nil => exact ⟨id, hF.id, fun s t _ hst ↦ congrArg π (Option.some.inj hst).symm⟩
  | cons e es ih =>
    obtain ⟨f, hf, he⟩ := h e (hes e (by simp))
    obtain ⟨g, hg, htail⟩ := ih fun e he ↦ hes e (List.mem_cons_of_mem _ he)
    refine ⟨g ∘ f, hF.comp f g hf hg, fun s t hs hst ↦ ?_⟩
    rw [List.foldlM_cons] at hst
    obtain ⟨u, hu, hst⟩ := Option.bind_eq_some_iff.mp hst
    rw [htail u t (hI s e u hs (hes e (by simp)) hu) hst, he s u hs hu]
    rfl

/-- A stretch of actions that is done again shows nothing new, nor do the actions after it. -/
theorem Observes.replay (h : Observes step I good F π) (hF : Settling F)
    (hI : ∀ s e t, I s → good e → step s e = some t → I t) {again rest : List ε}
    (hagain : ∀ e ∈ again, good e) (hrest : ∀ e ∈ rest, good e) {s t u u' : σ} (hs : I s)
    (ht : again.foldlM step s = some t) (hu : rest.foldlM step t = some u)
    (hu' : (again ++ rest).foldlM step t = some u') : π u' = π u := by
  obtain ⟨f, hf, hact⟩ := h.foldlM hF hI hagain
  obtain ⟨g, hg, hact'⟩ := h.foldlM hF hI hrest
  have hti : I t := foldlM_invariant hI hagain hs ht
  rw [List.foldlM_append] at hu'
  obtain ⟨t', ht', hu'⟩ := Option.bind_eq_some_iff.mp hu'
  have hsame : π t' = π t := by rw [hact t t' hti ht', hact s t hs ht, hF.twice f hf]
  rw [hact' t' u' (foldlM_invariant hI hagain hti ht') hu', hact' t u hti hu, hsame]

end

end Spkdfs.Library
