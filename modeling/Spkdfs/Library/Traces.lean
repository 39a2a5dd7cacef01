import Spkdfs.Library.Procedures

namespace Spkdfs.Library

/-- A procedure that also leaves a trace of what can be seen of it from outside. -/
def Traced (σ ω ε α : Type) : Type := σ → Option (Except ε α × σ × List ω)

namespace Traced

variable {σ ω ε α β : Type}

def of (f : σ → Option (Except ε α × σ × List ω)) : Traced σ ω ε α := f

def run (x : Traced σ ω ε α) (s : σ) : Option (Except ε α × σ × List ω) := x s

instance : Monad (Traced σ ω ε) where
  pure a := of fun s ↦ some (.ok a, s, [])
  bind x f := of fun s ↦ (x.run s).bind fun
    | (.ok a, t, trace) => ((f a).run t).map fun (r, u, more) ↦ (r, u, trace ++ more)
    | (.error e, t, trace) => some (.error e, t, trace)

/-- A part whose trace depends on where it starts and how it ends. -/
def note (x : Procedure σ ε α) (marks : σ → Except ε α → σ → List ω) : Traced σ ω ε α :=
  of fun s ↦ (x.run s).map fun (r, t) ↦ (r, t, marks s r t)

/-- A part of which nothing is seen. -/
def lift (x : Procedure σ ε α) : Traced σ ω ε α := note x fun _ _ _ ↦ []

/-- An exception ends only this part. -/
def settled (x : Traced σ ω ε α) : Traced σ ω ε Unit :=
  of fun s ↦ (x.run s).map fun (_, t, trace) ↦ (.ok (), t, trace)

/-- The procedure without its trace. -/
def erase (x : Traced σ ω ε α) : Procedure σ ε α := .of fun s ↦ (x.run s).map fun (r, t, _) ↦ (r, t)

/-- The procedure returns a value, and the test holds of the state and the trace it ends with. -/
def succeeds (x : Traced σ ω ε α) (s : σ) (test : σ → List ω → Bool) : Bool :=
  (x.run s).any fun
    | (.ok _, t, trace) => test t trace
    | (.error _, _, _) => false

variable {x : Traced σ ω ε α} {f : α → Traced σ ω ε β} {s t : σ} {r : Except ε β} {trace : List ω}

@[simp] theorem run_of (g : σ → Option (Except ε α × σ × List ω)) (s : σ) : (of g).run s = g s := rfl

@[simp] theorem run_pure (a : α) (s : σ) :
    (pure a : Traced σ ω ε α).run s = some (.ok a, s, []) := rfl

theorem run_bind (x : Traced σ ω ε α) (f : α → Traced σ ω ε β) (s : σ) :
    (x >>= f).run s = (x.run s).bind fun
      | (.ok a, t, trace) => ((f a).run t).map fun (r, u, more) ↦ (r, u, trace ++ more)
      | (.error e, t, trace) => some (.error e, t, trace) := rfl

theorem run_note {y : Procedure σ ε α} {marks : σ → Except ε α → σ → List ω} {r : Except ε α} :
    (note y marks).run s = some (r, t, trace) ↔ y.run s = some (r, t) ∧ trace = marks s r t := by
  simp only [note, run_of, Option.map_eq_some_iff, Prod.exists, Prod.mk.injEq]
  constructor
  · rintro ⟨r', t', hy, rfl, rfl, rfl⟩
    exact ⟨hy, rfl⟩
  · rintro ⟨hy, rfl⟩
    exact ⟨r, t, hy, rfl, rfl, rfl⟩

theorem run_lift {y : Procedure σ ε α} {r : Except ε α} :
    (lift y : Traced σ ω ε α).run s = some (r, t, trace) ↔ y.run s = some (r, t) ∧ trace = [] :=
  run_note

/-- What a procedure that returns has done in its two parts, or in the first one if this throws. -/
theorem bind_run (h : (x >>= f).run s = some (r, t, trace)) :
    (∃ e, x.run s = some (.error e, t, trace) ∧ r = .error e) ∨
      ∃ a u before after, x.run s = some (.ok a, u, before) ∧
        (f a).run u = some (r, t, after) ∧ trace = before ++ after := by
  rw [run_bind, Option.bind_eq_some_iff] at h
  obtain ⟨⟨r', u, before⟩, hx, h⟩ := h
  cases r' with
  | error e =>
    simp only [Option.some.injEq, Prod.mk.injEq] at h
    obtain ⟨rfl, rfl, rfl⟩ := h
    exact .inl ⟨e, hx, rfl⟩
  | ok a =>
    simp only [Option.map_eq_some_iff, Prod.exists, Prod.mk.injEq] at h
    obtain ⟨r', t', after, hf, rfl, rfl, rfl⟩ := h
    exact .inr ⟨a, u, before, after, hx, hf, rfl⟩

/-- A part of which nothing is seen, at its value. -/
theorem run_lift_bind {y : Procedure σ ε α} {a : α} (hy : y.run s = some (.ok a, t))
    (f : α → Traced σ ω ε β) : ((lift y : Traced σ ω ε α) >>= f).run s = (f a).run t := by
  have hlift : (lift y : Traced σ ω ε α).run s = some (.ok a, t, []) := run_lift.mpr ⟨hy, rfl⟩
  rw [run_bind, hlift]
  exact Option.map_id'

theorem bind_ok {b : β} (h : (x >>= f).run s = some (.ok b, t, trace)) :
    ∃ a u before after, x.run s = some (.ok a, u, before) ∧
      (f a).run u = some (.ok b, t, after) ∧ trace = before ++ after := by
  obtain ⟨e, -, he⟩ | hx := bind_run h
  · cases he
  · exact hx

theorem run_settled {r : Except ε Unit} :
    x.settled.run s = some (r, t, trace) ↔ r = .ok () ∧ ∃ r', x.run s = some (r', t, trace) := by
  simp only [settled, run_of, Option.map_eq_some_iff, Prod.exists, Prod.mk.injEq]
  constructor
  · rintro ⟨r', t', trace', hx, rfl, rfl, rfl⟩
    exact ⟨rfl, r', hx⟩
  · rintro ⟨rfl, r', hx⟩
    exact ⟨r', t, trace, hx, rfl, rfl, rfl⟩

theorem run_erase {r : Except ε α} :
    x.erase.run s = some (r, t) ↔ ∃ trace, x.run s = some (r, t, trace) := by
  simp only [erase, Procedure.run_of, Option.map_eq_some_iff, Prod.exists, Prod.mk.injEq]
  constructor
  · rintro ⟨r', t', trace, hx, rfl, rfl⟩
    exact ⟨trace, hx⟩
  · rintro ⟨trace, hx⟩
    exact ⟨r, t, trace, hx, rfl, rfl⟩

@[simp] theorem erase_pure (a : α) : (pure a : Traced σ ω ε α).erase = pure a := rfl

@[simp] theorem erase_note (y : Procedure σ ε α) (marks : σ → Except ε α → σ → List ω) :
    (note y marks).erase = y := by
  funext s
  change ((y.run s).map _).map _ = y.run s
  rw [Option.map_map]
  exact Option.map_id_fun' ▸ rfl

@[simp] theorem erase_lift (y : Procedure σ ε α) : (lift y : Traced σ ω ε α).erase = y :=
  erase_note y _

@[simp] theorem erase_bind (x : Traced σ ω ε α) (f : α → Traced σ ω ε β) :
    (x >>= f).erase = x.erase >>= fun a ↦ (f a).erase := by
  funext s
  change (x >>= f).erase.run s = (x.erase >>= fun a ↦ (f a).erase).run s
  rw [Procedure.run_bind, erase, Procedure.run_of, run_bind, erase, Procedure.run_of]
  cases x.run s with
  | none => rfl
  | some p =>
    obtain ⟨r, t, trace⟩ := p
    cases r with
    | error e => rfl
    | ok a =>
      change Option.map _ (Option.map _ ((f a).run t)) = Option.map _ ((f a).run t)
      rw [Option.map_map]
      rfl

/-- A run found by evaluation. -/
theorem exists_of_succeeds {test : σ → List ω → Bool} (h : x.succeeds s test = true) :
    ∃ a t trace, x.run s = some (.ok a, t, trace) ∧ test t trace = true := by
  obtain ⟨⟨r, t, trace⟩, hrun, htest⟩ := (Option.any_eq_true _ _).mp h
  cases r with
  | error e => cases htest
  | ok a => exact ⟨a, t, trace, hrun, htest⟩

/-- However the procedure ends, it leaves the state with the property and only such marks. -/
def Keeps (P : σ → Prop) (Q : ω → Prop) (x : Traced σ ω ε α) : Prop :=
  ∀ s r t trace, P s → x.run s = some (r, t, trace) → P t ∧ ∀ w ∈ trace, Q w

section

variable {P : σ → Prop} {Q : ω → Prop}

theorem keeps_pure (a : α) : Keeps P Q (pure a : Traced σ ω ε α) := by
  intro s r t trace hs h
  simp only [run_pure, Option.some.injEq, Prod.mk.injEq] at h
  obtain ⟨-, rfl, rfl⟩ := h
  exact ⟨hs, by simp⟩

theorem keeps_note {y : Procedure σ ε α} {marks : σ → Except ε α → σ → List ω}
    (hy : Procedure.Keeps P y) (hmarks : ∀ s r t, ∀ w ∈ marks s r t, Q w) :
    Keeps P Q (note y marks) := by
  intro s r t trace hs h
  obtain ⟨hrun, rfl⟩ := run_note.mp h
  exact ⟨hy s r t hs hrun, hmarks s r t⟩

theorem keeps_lift {y : Procedure σ ε α} (hy : Procedure.Keeps P y) :
    Keeps P Q (lift y : Traced σ ω ε α) := keeps_note hy (by simp)

theorem Keeps.bind (hx : Keeps P Q x) (hf : ∀ a, Keeps P Q (f a)) : Keeps P Q (x >>= f) := by
  intro s r t trace hs h
  obtain ⟨e, he, -⟩ | ⟨a, u, before, after, hu, hrest, rfl⟩ := bind_run h
  · exact hx s _ t trace hs he
  · have hfirst := hx s _ u before hs hu
    have hsecond := hf a u r t after hfirst.1 hrest
    refine ⟨hsecond.1, fun w hw ↦ ?_⟩
    rcases List.mem_append.mp hw with hw | hw
    · exact hfirst.2 w hw
    · exact hsecond.2 w hw

theorem Keeps.settled (hx : Keeps P Q x) : Keeps P Q x.settled := by
  intro s r t trace hs h
  obtain ⟨-, r', hrun⟩ := run_settled.mp h
  exact hx s r' t trace hs hrun

end

end Traced

end Spkdfs.Library
