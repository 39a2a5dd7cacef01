import Mathlib.Logic.Basic

namespace Spkdfs.Library

/-- A procedure that works on a state: it may throw, and what it did before stays done; without a
result it blocks for ever or has no defined behaviour. -/
abbrev Procedure (σ ε : Type) := ExceptT ε (StateT σ Option)

namespace Procedure

variable {σ ε α β : Type}

def of (f : σ → Option (Except ε α × σ)) : Procedure σ ε α := f

def run (x : Procedure σ ε α) (s : σ) : Option (Except ε α × σ) := x s

def stuck : Procedure σ ε α := of fun _ ↦ none

variable {s t : σ} {r : Except ε α}

@[simp] theorem run_of (f : σ → Option (Except ε α × σ)) (s : σ) : (of f).run s = f s := rfl

@[simp] theorem run_pure (a : α) (s : σ) : (pure a : Procedure σ ε α).run s = some (.ok a, s) := rfl

@[simp] theorem run_throw (e : ε) (s : σ) :
    (throw e : Procedure σ ε α).run s = some (.error e, s) := rfl

@[simp] theorem run_get (s : σ) : (get : Procedure σ ε σ).run s = some (.ok s, s) := rfl

theorem run_bind (x : Procedure σ ε α) (f : α → Procedure σ ε β) (s : σ) :
    (x >>= f).run s = (x.run s).bind fun p ↦
      match p with
      | (.ok a, t) => (f a).run t
      | (.error e, t) => some (.error e, t) := by
  change Option.bind (x.run s) _ = _
  congr 1
  funext p
  obtain ⟨r, t⟩ := p
  cases r <;> rfl

/-- A first part whose outcome is known. -/
theorem run_bind_ok {x : Procedure σ ε α} {a : α} (h : x.run s = some (.ok a, t))
    (f : α → Procedure σ ε β) : (x >>= f).run s = (f a).run t := by
  rw [run_bind, h]
  rfl

theorem run_bind_error {x : Procedure σ ε α} {e : ε} (h : x.run s = some (.error e, t))
    (f : α → Procedure σ ε β) : (x >>= f).run s = some (.error e, t) := by
  rw [run_bind, h]
  rfl

theorem run_bind_none {x : Procedure σ ε α} (h : x.run s = none) (f : α → Procedure σ ε β) :
    (x >>= f).run s = none := by
  rw [run_bind, h]
  rfl

theorem run_bind_congr {x y : Procedure σ ε α} (h : x.run s = y.run s)
    (f : α → Procedure σ ε β) : (x >>= f).run s = (y >>= f).run s := by
  rw [run_bind, run_bind, h]

theorem run_tryCatch_ok {x : Procedure σ ε α} {a : α} (h : x.run s = some (.ok a, t))
    (handler : ε → Procedure σ ε α) : (tryCatch x handler).run s = some (.ok a, t) := by
  change Option.bind (x.run s) _ = _
  rw [h]
  rfl

theorem run_tryCatch_error {x : Procedure σ ε α} {e : ε} (h : x.run s = some (.error e, t))
    (handler : ε → Procedure σ ε α) : (tryCatch x handler).run s = (handler e).run t := by
  change Option.bind (x.run s) _ = _
  rw [h]
  rfl

/-- A procedure that returns has returned from its first part, or this has thrown. -/
theorem bind_run {x : Procedure σ ε α} {f : α → Procedure σ ε β} {r : Except ε β}
    (h : (x >>= f).run s = some (r, t)) :
    (∃ e, x.run s = some (.error e, t) ∧ r = .error e) ∨
      ∃ a u, x.run s = some (.ok a, u) ∧ (f a).run u = some (r, t) := by
  rw [run_bind, Option.bind_eq_some_iff] at h
  obtain ⟨⟨r', u⟩, hx, h⟩ := h
  cases r' with
  | ok a => exact .inr ⟨a, u, hx, h⟩
  | error e =>
    obtain ⟨rfl, rfl⟩ := Prod.mk.inj (Option.some.inj h)
    exact .inl ⟨e, hx, rfl⟩

theorem bind_ok {x : Procedure σ ε α} {f : α → Procedure σ ε β} {b : β}
    (h : (x >>= f).run s = some (.ok b, t)) :
    ∃ a u, x.run s = some (.ok a, u) ∧ (f a).run u = some (.ok b, t) := by
  obtain ⟨e, -, he⟩ | hx := bind_run h
  · cases he
  · exact hx

/-- However the procedure ends, the state it leaves has the property again. -/
def Keeps (P : σ → Prop) (x : Procedure σ ε α) : Prop :=
  ∀ s r t, P s → x.run s = some (r, t) → P t

section

variable {P : σ → Prop}

theorem keeps_pure (a : α) : Keeps P (pure a : Procedure σ ε α) := by
  intro s r t hs h
  obtain ⟨-, rfl⟩ := Prod.mk.inj (Option.some.inj h)
  exact hs

theorem keeps_throw (e : ε) : Keeps P (throw e : Procedure σ ε α) := by
  intro s r t hs h
  obtain ⟨-, rfl⟩ := Prod.mk.inj (Option.some.inj h)
  exact hs

theorem keeps_stuck : Keeps P (stuck : Procedure σ ε α) := by
  intro s r t hs h
  cases h

theorem keeps_modify {f : σ → σ} (hf : ∀ s, P s → P (f s)) :
    Keeps P (modify f : Procedure σ ε PUnit) := by
  intro s r t hs h
  obtain ⟨-, rfl⟩ := Prod.mk.inj (Option.some.inj h)
  exact hf s hs

theorem Keeps.bind {x : Procedure σ ε α} {f : α → Procedure σ ε β} (hx : Keeps P x)
    (hf : ∀ a, Keeps P (f a)) : Keeps P (x >>= f) := by
  intro s r t hs h
  obtain ⟨e, he, -⟩ | ⟨a, u, hu, h⟩ := bind_run h
  · exact hx s _ t hs he
  · exact hf a u r t (hx s _ u hs hu) h

theorem Keeps.tryCatch {x : Procedure σ ε α} {handler : ε → Procedure σ ε α} (hx : Keeps P x)
    (hh : ∀ e, Keeps P (handler e)) : Keeps P (tryCatch x handler) := by
  intro s r t hs h
  obtain ⟨⟨r', u⟩, hu, h'⟩ := Option.bind_eq_some_iff.mp h
  have hkept : P u := hx s r' u hs hu
  cases r' with
  | ok a =>
    obtain ⟨-, rfl⟩ := Prod.mk.inj (Option.some.inj h')
    exact hkept
  | error e => exact hh e u r t hkept h'

theorem keeps_get : Keeps P (get : Procedure σ ε σ) := by
  intro s r t hs h
  obtain ⟨-, rfl⟩ := Prod.mk.inj (Option.some.inj h)
  exact hs

end

end Procedure

end Spkdfs.Library
