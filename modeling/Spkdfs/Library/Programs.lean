import Mathlib.Logic.Basic

namespace Spkdfs.Library

/-- A program that shares its state with others. It looks at the state, changes it or calls for
something that is answered from outside; before each of these the others may have changed the
state. -/
inductive Program (σ ε ι : Type) (ρ : ι → Type) (α : Type) : Type
  | done (r : Except ε α)
  | test (p : σ → Bool) (next : Bool → Program σ ε ι ρ α)
  | modify (f : σ → σ) (next : Program σ ε ι ρ α)
  | call (c : ι) (next : Except ε (ρ c) → Program σ ε ι ρ α)
  /-- No defined behaviour. -/
  | stuck

namespace Program

variable {σ ε ι α β : Type} {ρ : ι → Type}

protected def bind : Program σ ε ι ρ α → (α → Program σ ε ι ρ β) → Program σ ε ι ρ β
  | .done (.ok a), k => k a
  | .done (.error e), _ => .done (.error e)
  | .test p next, k => .test p fun b ↦ (next b).bind k
  | .modify f next, k => .modify f (next.bind k)
  | .call c next, k => .call c fun a ↦ (next a).bind k
  | .stuck, _ => .stuck

instance : Monad (Program σ ε ι ρ) where
  pure a := .done (.ok a)
  bind := Program.bind

/-- A failure is thrown. -/
def ask (c : ι) : Program σ ε ι ρ (ρ c) := .call c .done

/-- A failure is left for the caller to look at. -/
def attempt (c : ι) : Program σ ε ι ρ (Except ε (ρ c)) := .call c fun a ↦ .done (.ok a)

def access (f : σ → σ) : Program σ ε ι ρ Unit := .modify f (.done (.ok ()))

def check (p : σ → Bool) : Program σ ε ι ρ Bool := .test p fun b ↦ .done (.ok b)

/-- What can be seen of a run: the states that are reached and the answers to the calls. -/
inductive Event (σ ε ι : Type) (ρ : ι → Type) : Type
  | state (s : σ)
  | answer (c : ι) (a : Except ε (ρ c))

abbrev History (σ ε ι : Type) (ρ : ι → Type) := List (Event σ ε ι ρ)

/-- The state that a history has led to. -/
def lastState (s : σ) (h : History σ ε ι ρ) : σ :=
  h.foldl (fun s e ↦ match e with
    | .state t => t
    | .answer _ _ => s) s

@[simp] theorem lastState_state (s t : σ) (h : History σ ε ι ρ) :
    lastState s (h ++ [.state t]) = t := by
  rw [lastState, List.foldl_append]
  rfl

@[simp] theorem lastState_answer (s : σ) (h : History σ ε ι ρ) (c : ι) (a : Except ε (ρ c)) :
    lastState s (h ++ [.answer c a]) = lastState s h := by
  rw [lastState, List.foldl_append]
  rfl

/-- It is the first one or has been seen. -/
theorem lastState_mem (s : σ) (h : History σ ε ι ρ) :
    lastState s h = s ∨ .state (lastState s h) ∈ h := by
  induction h generalizing s with
  | nil => exact .inl rfl
  | cons e h ih =>
    cases e with
    | state t =>
      obtain heq | hmem := ih t
      · refine .inr (List.mem_cons.mpr (.inl ?_))
        exact congrArg Event.state heq
      · exact .inr (List.mem_cons_of_mem _ hmem)
    | answer c a => exact (ih s).imp_right (List.mem_cons_of_mem _)

/-- One access of the program, or one call with its answer. -/
inductive Step : Program σ ε ι ρ α → σ → History σ ε ι ρ → Program σ ε ι ρ α → σ → Prop
  | test (p : σ → Bool) (next : Bool → Program σ ε ι ρ α) (s : σ) :
      Step (.test p next) s [] (next (p s)) s
  | modify (f : σ → σ) (next : Program σ ε ι ρ α) (s : σ) :
      Step (.modify f next) s [.state (f s)] next (f s)
  | call (c : ι) (next : Except ε (ρ c) → Program σ ε ι ρ α) (a : Except ε (ρ c)) (s : σ) :
      Step (.call c next) s [.answer c a] (next a) s

/-- A run to the end, with what the others do in between. -/
inductive Exec (others : σ → σ → Prop) :
    Program σ ε ι ρ α → σ → History σ ε ι ρ → Except ε α → σ → Prop
  | done (r : Except ε α) (s : σ) : Exec others (.done r) s [] r s
  | other {x : Program σ ε ι ρ α} {s t u : σ} {trace : History σ ε ι ρ} {r : Except ε α} :
      (∀ r, x ≠ .done r) → others s t → Exec others x t trace r u →
        Exec others x s (.state t :: trace) r u
  | step {x y : Program σ ε ι ρ α} {s t u : σ} {seen trace : History σ ε ι ρ} {r : Except ε α} :
      Step x s seen y t → Exec others y t trace r u → Exec others x s (seen ++ trace) r u

theorem Exec.lastState_eq {others : σ → σ → Prop} {x : Program σ ε ι ρ α} {s u : σ}
    {trace : History σ ε ι ρ} {r : Except ε α} (h : Exec others x s trace r u) :
    lastState s trace = u := by
  induction h with
  | done => rfl
  | other _ _ _ ih => exact ih
  | step hs _ ih =>
    cases hs with
    | test | modify | call => exact ih

theorem bind_def (x : Program σ ε ι ρ α) (k : α → Program σ ε ι ρ β) : x >>= k = x.bind k := rfl

theorem bind_assoc {γ : Type} (x : Program σ ε ι ρ α) (k : α → Program σ ε ι ρ β)
    (k' : β → Program σ ε ι ρ γ) : (x >>= k) >>= k' = x >>= fun a ↦ k a >>= k' := by
  simp only [bind_def]
  induction x with
  | done r =>
    cases r with
    | ok a => rfl
    | error e => rfl
  | test p next ih => exact congrArg (Program.test p) (funext ih)
  | modify f next ih => exact congrArg (Program.modify f) ih
  | call c next ih => exact congrArg (Program.call c) (funext ih)
  | stuck => rfl

section

variable {others : σ → σ → Prop} {x : Program σ ε ι ρ α} {k : α → Program σ ε ι ρ β}
  {s t u : σ} {trace seen : History σ ε ι ρ}

theorem Step.bind_inv {z : Program σ ε ι ρ β} (h : Step (x.bind k) s seen z t) :
    (∃ a, x = .done (.ok a)) ∨ ∃ y, Step x s seen y t ∧ z = y.bind k := by
  cases x with
  | done r =>
    cases r with
    | ok a => exact .inl ⟨a, rfl⟩
    | error e => cases h
  | test p next =>
    cases h
    exact .inr ⟨_, .test p next s, rfl⟩
  | modify f next =>
    cases h
    exact .inr ⟨_, .modify f next s, rfl⟩
  | call c next =>
    cases h
    exact .inr ⟨_, .call c next _ s, rfl⟩
  | stuck => cases h

/-- A run of a sequence is one of its first part and, unless this throws, one of the second. -/
theorem Exec.bind_inv {r : Except ε β} (h : Exec others (x >>= k) s trace r u) :
    (∃ e, r = .error e ∧ Exec others x s trace (.error e) u) ∨
      ∃ a t first second, trace = first ++ second ∧ Exec others x s first (.ok a) t ∧
        Exec others (k a) t second r u := by
  rw [bind_def] at h
  generalize hy : x.bind k = y at h
  induction h generalizing x with
  | done r s =>
    cases x with
    | done r' =>
      cases r' with
      | ok a =>
        have hk : k a = .done r := hy
        exact .inr ⟨a, s, [], [], rfl, .done _ s, hk.symm ▸ .done r s⟩
      | error e =>
        obtain rfl := Program.done.inj hy
        exact .inl ⟨e, rfl, .done _ s⟩
    | test | modify | call | stuck => cases hy
  | other hmore ho hrest ih =>
    by_cases hx : ∃ a, x = .done (.ok a)
    · obtain ⟨a, rfl⟩ := hx
      have hk : k a = _ := hy
      exact .inr ⟨a, _, [], _, rfl, .done _ _, hk.symm ▸ .other hmore ho hrest⟩
    · have hx' : ∀ r, x ≠ .done r := by
        rintro (e | a) rfl
        · exact hmore _ hy.symm
        · exact hx ⟨a, rfl⟩
      obtain ⟨e, rfl, he⟩ | ⟨a, t, first, second, rfl, he, hk⟩ := ih hy
      · exact .inl ⟨e, rfl, .other hx' ho he⟩
      · exact .inr ⟨a, t, _ :: first, second, rfl, .other hx' ho he, hk⟩
  | step hs hrest ih =>
    rw [← hy] at hs
    obtain ⟨a, rfl⟩ | ⟨y, hx, rfl⟩ := hs.bind_inv
    · have hk : k a = _ := hy
      rw [hy] at hs
      exact .inr ⟨a, _, [], _, rfl, .done _ _, hk.symm ▸ .step hs hrest⟩
    · obtain ⟨e, rfl, he⟩ | ⟨a, t, first, second, rfl, he, hk⟩ := ih rfl
      · exact .inl ⟨e, rfl, .step hx he⟩
      · exact .inr ⟨a, t, _, second, (List.append_assoc ..).symm, .step hx he, hk⟩

end

/-! Properties of the history and of the state it has led to. -/

/-- What the others do keeps the property. -/
def Stable (others : σ → σ → Prop) (P : History σ ε ι ρ → σ → Prop) : Prop :=
  ∀ h s t, P h s → others s t → P (h ++ [.state t]) t

/-- From `P`, every run of the program that returns leads to `Q`, and every one that throws
to `E`. -/
def Triple (others : σ → σ → Prop) (P : History σ ε ι ρ → σ → Prop) (x : Program σ ε ι ρ α)
    (Q : α → History σ ε ι ρ → σ → Prop) (E : ε → History σ ε ι ρ → σ → Prop) : Prop :=
  ∀ h s trace r u, P h s → Exec others x s trace r u →
    match r with
    | .ok a => Q a (h ++ trace) u
    | .error e => E e (h ++ trace) u

section

variable {others : σ → σ → Prop} {P P' : History σ ε ι ρ → σ → Prop}
  {Q : α → History σ ε ι ρ → σ → Prop} {E : ε → History σ ε ι ρ → σ → Prop}
  {x : Program σ ε ι ρ α}

theorem Triple.pre (h : Triple others P' x Q E) (hpre : ∀ h s, P h s → P' h s) :
    Triple others P x Q E :=
  fun g s trace r u hp hexec ↦ h g s trace r u (hpre g s hp) hexec

theorem Triple.post {Q' : α → History σ ε ι ρ → σ → Prop} {E' : ε → History σ ε ι ρ → σ → Prop}
    (h : Triple others P x Q E) (hpost : ∀ a h s, Q a h s → Q' a h s)
    (herror : ∀ e h s, E e h s → E' e h s) : Triple others P x Q' E' := by
  intro g s trace r u hp hexec
  have hr := h g s trace r u hp hexec
  cases r with
  | ok a => exact hpost a _ u hr
  | error e => exact herror e _ u hr

/-- What has been seen stays seen. -/
theorem Triple.frame {X : History σ ε ι ρ → Prop} (h : Triple others P x Q E)
    (hmore : ∀ h trace, X h → X (h ++ trace)) :
    Triple others (fun h s ↦ P h s ∧ X h) x (fun a h s ↦ Q a h s ∧ X h)
      fun e h s ↦ E e h s ∧ X h := by
  intro g s trace r u hp hexec
  have hr := h g s trace r u hp.1 hexec
  cases r with
  | ok a => exact ⟨hr, hmore g trace hp.2⟩
  | error e => exact ⟨hr, hmore g trace hp.2⟩

theorem Triple.bind {R : β → History σ ε ι ρ → σ → Prop} {k : α → Program σ ε ι ρ β}
    (hx : Triple others P x Q E) (hk : ∀ a, Triple others (Q a) (k a) R E) :
    Triple others P (x >>= k) R E := by
  intro h s trace r u hp hexec
  obtain ⟨e, rfl, hfirst⟩ | ⟨a, t, first, second, rfl, hfirst, hsecond⟩ := hexec.bind_inv
  · exact hx h s trace (.error e) u hp hfirst
  · have hmid := hx h s first (.ok a) t hp hfirst
    rw [← List.append_assoc]
    exact hk a (h ++ first) t second r u hmid hsecond

theorem triple_done {r : Except ε α} (hend : ∀ h s, P h s → match r with
    | .ok a => Q a h s
    | .error e => E e h s) : Triple others P (.done r) Q E := by
  intro h s trace r' u hp hexec
  cases hexec with
  | done =>
    rw [List.append_nil]
    exact hend h s hp
  | other hmore => exact absurd rfl (hmore r)
  | step hs => cases hs

/-- The first step of the program, after some of the others. -/
theorem triple_step (hmore : ∀ r, x ≠ .done r) (hstable : Stable others P)
    (hstep : ∀ h s seen y t, P h s → Step x s seen y t → ∃ R : History σ ε ι ρ → σ → Prop,
      R (h ++ seen) t ∧ Triple others R y Q E) : Triple others P x Q E := by
  intro h s trace r u hp hexec
  induction hexec generalizing h with
  | done r => exact absurd rfl (hmore r)
  | other _ ho _ ih =>
    rw [← List.singleton_append, ← List.append_assoc]
    exact ih hmore hstep (h ++ [.state _]) (hstable h _ _ hp ho)
  | step hs hrest =>
    obtain ⟨R, hr, hy⟩ := hstep h _ _ _ _ hp hs
    rw [← List.append_assoc]
    exact hy _ _ _ _ _ hr hrest

theorem triple_pure {a : α} (hend : ∀ h s, P h s → Q a h s) : Triple others P (pure a) Q E :=
  triple_done hend

theorem triple_stuck (hstable : Stable others P) :
    Triple others P (.stuck : Program σ ε ι ρ α) Q E :=
  triple_step (fun _ h ↦ (by cases h)) hstable fun _ _ _ _ _ _ hs ↦ (by cases hs)

theorem triple_ask {c : ι} {Q : ρ c → History σ ε ι ρ → σ → Prop} (hstable : Stable others P)
    (hok : ∀ a h s, P h s → Q a (h ++ [.answer c (.ok a)]) s)
    (herror : ∀ e h s, P h s → E e (h ++ [.answer c (.error e)]) s) :
    Triple others P (ask c) Q E := by
  refine triple_step (fun _ h ↦ (by cases h)) hstable fun h s seen y t hp hs ↦ ?_
  cases hs with
  | call _ _ a =>
    refine ⟨fun g v ↦ g = h ++ [.answer c a] ∧ v = s, ⟨rfl, rfl⟩, triple_done ?_⟩
    rintro _ _ ⟨rfl, rfl⟩
    cases a with
    | ok a => exact hok a h _ hp
    | error e => exact herror e h _ hp

theorem triple_attempt {c : ι} {Q : Except ε (ρ c) → History σ ε ι ρ → σ → Prop}
    (hstable : Stable others P) (hcall : ∀ a h s, P h s → Q a (h ++ [.answer c a]) s) :
    Triple others P (attempt c) Q E := by
  refine triple_step (fun _ h ↦ (by cases h)) hstable fun h s seen y t hp hs ↦ ?_
  cases hs with
  | call _ _ a =>
    refine ⟨fun g v ↦ g = h ++ [.answer c a] ∧ v = s, ⟨rfl, rfl⟩, triple_done ?_⟩
    rintro _ _ ⟨rfl, rfl⟩
    exact hcall a h _ hp

theorem triple_access {f : σ → σ} {Q : Unit → History σ ε ι ρ → σ → Prop}
    (hstable : Stable others P) (hf : ∀ h s, P h s → Q () (h ++ [.state (f s)]) (f s)) :
    Triple others P (access f) Q E := by
  refine triple_step (fun _ h ↦ (by cases h)) hstable fun h s seen y t hp hs ↦ ?_
  cases hs
  refine ⟨fun g v ↦ g = h ++ [.state (f s)] ∧ v = f s, ⟨rfl, rfl⟩, triple_done ?_⟩
  rintro _ _ ⟨rfl, rfl⟩
  exact hf h s hp

theorem triple_check {p : σ → Bool} {Q : Bool → History σ ε ι ρ → σ → Prop}
    (hstable : Stable others P) (hp : ∀ h s, P h s → Q (p s) h s) :
    Triple others P (check p) Q E := by
  refine triple_step (fun _ h ↦ (by cases h)) hstable fun h s seen y t hpre hs ↦ ?_
  cases hs
  refine ⟨fun g v ↦ g = h ∧ v = s, ⟨List.append_nil h, rfl⟩, triple_done ?_⟩
  rintro _ _ ⟨rfl, rfl⟩
  exact hp _ _ hpre

end

/-! What the changes and the ends of a program are, however the calls are answered. -/

def Modifies (M : (σ → σ) → Prop) : Program σ ε ι ρ α → Prop
  | .done _ | .stuck => True
  | .test _ next => ∀ b, (next b).Modifies M
  | .modify f next => M f ∧ next.Modifies M
  | .call _ next => ∀ a, (next a).Modifies M

/-- Every way to return leads through an answer with the property. -/
def Ensures (A : (c : ι) → Except ε (ρ c) → Prop) : Program σ ε ι ρ α → Prop
  | .done (.ok _) => False
  | .done (.error _) | .stuck => True
  | .test p next => ∀ s, (next (p s)).Ensures A
  | .modify _ next => next.Ensures A
  | .call c next => ∀ a, A c a ∨ (next a).Ensures A

/-- All that it calls for is of the kind. -/
def Calls (C : ι → Prop) : Program σ ε ι ρ α → Prop
  | .done _ | .stuck => True
  | .test p next => ∀ s, (next (p s)).Calls C
  | .modify _ next => next.Calls C
  | .call c next => C c ∧ ∀ a, (next a).Calls C

/-- Every way to return ends with a change of the kind. -/
def EndsWith (M : (σ → σ) → Prop) : Program σ ε ι ρ α → Prop
  | .done (.ok _) => False
  | .done (.error _) | .stuck => True
  | .test p next => ∀ s, (next (p s)).EndsWith M
  | .modify f next => (M f ∧ ∃ r, next = .done r) ∨ next.EndsWith M
  | .call _ next => ∀ a, (next a).EndsWith M

/-- It throws if a call fails, and only then. -/
def Strict : Program σ ε ι ρ α → Prop
  | .done (.ok _) | .stuck => True
  | .done (.error _) => False
  | .test _ next => ∀ b, (next b).Strict
  | .modify _ next => next.Strict
  | .call _ next => (∀ a, (next (.ok a)).Strict) ∧
      ∀ e, (next (.error e)).Ensures fun _ _ ↦ False

section

variable {M : (σ → σ) → Prop} {A : (c : ι) → Except ε (ρ c) → Prop} {x y : Program σ ε ι ρ α}
  {k : α → Program σ ε ι ρ β} {others : σ → σ → Prop} {s t u : σ} {seen trace : History σ ε ι ρ}

theorem Modifies.bind (hx : x.Modifies M) (hk : ∀ a, (k a).Modifies M) : (x >>= k).Modifies M := by
  rw [bind_def]
  induction x with
  | done r =>
    cases r with
    | ok a => exact hk a
    | error e => trivial
  | test p next ih => exact fun b ↦ ih b (hx b)
  | modify f next ih => exact ⟨hx.1, ih hx.2⟩
  | call c next ih => exact fun a ↦ ih a (hx a)
  | stuck => trivial

theorem Ensures.bind (hx : x.Ensures A) (k : α → Program σ ε ι ρ β) : (x >>= k).Ensures A := by
  rw [bind_def]
  induction x with
  | done r =>
    cases r with
    | ok a => cases hx
    | error e => trivial
  | test p next ih => exact fun s ↦ ih (p s) (hx s)
  | modify f next ih => exact ih hx
  | call c next ih => exact fun a ↦ (hx a).imp_right (ih a)
  | stuck => trivial

theorem ensures_bind (x : Program σ ε ι ρ α) (hk : ∀ a, (k a).Ensures A) :
    (x >>= k).Ensures A := by
  rw [bind_def]
  induction x with
  | done r =>
    cases r with
    | ok a => exact hk a
    | error e => trivial
  | test p next ih => exact fun s ↦ ih (p s)
  | modify f next ih => exact ih
  | call c next ih => exact fun a ↦ .inr (ih a)
  | stuck => trivial

theorem Ensures.mono {B : (c : ι) → Except ε (ρ c) → Prop} (hx : x.Ensures A)
    (h : ∀ c a, A c a → B c a) : x.Ensures B := by
  induction x with
  | done r =>
    cases r with
    | ok a => cases hx
    | error e => trivial
  | test p next ih => exact fun s ↦ ih (p s) (hx s)
  | modify f next ih => exact ih hx
  | call c next ih => exact fun a ↦ (hx a).imp (h c a) (ih a)
  | stuck => trivial

/-- The answer has come or is still ahead. -/
theorem Ensures.step (hx : x.Ensures A) (hs : Step x s seen y t) :
    y.Ensures A ∨ ∃ c a, seen = [.answer c a] ∧ A c a := by
  cases hs with
  | test p next => exact .inl (hx s)
  | modify f next => exact .inl hx
  | call c next a =>
    obtain ha | hnext := hx a
    · exact .inr ⟨c, a, rfl, ha⟩
    · exact .inl hnext

theorem endsWith_bind (x : Program σ ε ι ρ α) (hk : ∀ a, (k a).EndsWith M) :
    (x >>= k).EndsWith M := by
  rw [bind_def]
  induction x with
  | done r =>
    cases r with
    | ok a => exact hk a
    | error e => trivial
  | test p next ih => exact fun s ↦ ih (p s)
  | modify f next ih => exact .inr ih
  | call c next ih => exact ih
  | stuck => trivial

/-- The last change is still ahead or has just been made. -/
theorem EndsWith.step (hx : x.EndsWith M) (hs : Step x s seen y t) :
    y.EndsWith M ∨ (∃ f, M f ∧ t = f s) ∧ ∃ r, y = .done r := by
  cases hs with
  | test p next => exact .inl (hx s)
  | modify f next =>
    obtain ⟨hf, hdone⟩ | hnext := hx
    · exact .inr ⟨⟨f, hf, rfl⟩, hdone⟩
    · exact .inl hnext
  | call c next a => exact .inl (hx a)

theorem Calls.bind {C : ι → Prop} (hx : x.Calls C) (hk : ∀ a, (k a).Calls C) :
    (x >>= k).Calls C := by
  rw [bind_def]
  induction x with
  | done r =>
    cases r with
    | ok a => exact hk a
    | error e => trivial
  | test p next ih => exact fun s ↦ ih (p s) (hx s)
  | modify f next ih => exact ih hx
  | call c next ih => exact ⟨hx.1, fun a ↦ ih a (hx.2 a)⟩
  | stuck => trivial

theorem Calls.step {C : ι → Prop} (hx : x.Calls C) (hs : Step x s seen y t) : y.Calls C := by
  cases hs with
  | test p next => exact hx s
  | modify f next => exact hx
  | call c next a => exact hx.2 a

theorem Strict.bind (hx : x.Strict) (hk : ∀ a, (k a).Strict) : (x >>= k).Strict := by
  rw [bind_def]
  induction x with
  | done r =>
    cases r with
    | ok a => exact hk a
    | error e => cases hx
  | test p next ih => exact fun b ↦ ih b (hx b)
  | modify f next ih => exact ih hx
  | call c next ih => exact ⟨fun a ↦ ih _ (hx.1 a), fun e ↦ (hx.2 e).bind k⟩
  | stuck => trivial

theorem strict_ask (c : ι) : (ask c : Program σ ε ι ρ (ρ c)).Strict :=
  ⟨fun _ ↦ trivial, fun _ ↦ trivial⟩

theorem Modifies.step (h : x.Modifies M) (hs : Step x s seen y t) : y.Modifies M := by
  cases hs with
  | test p next => exact h (p s)
  | modify f next => exact h.2
  | call c next a => exact h a

/-- What the others and the changes of the program keep holds in every state of a run. -/
theorem Exec.keeps {I : σ → Prop} {r : Except ε α} (h : Exec others x s trace r u)
    (hmodifies : x.Modifies fun f ↦ ∀ s, I s → I (f s)) (hothers : ∀ s t, I s → others s t → I t)
    (hs : I s) : I u ∧ ∀ t, .state t ∈ trace → I t := by
  induction h with
  | done => exact ⟨hs, fun t ht ↦ (by cases ht)⟩
  | other _ ho _ ih =>
    have ht := hothers _ _ hs ho
    obtain ⟨hu, hall⟩ := ih hmodifies ht
    refine ⟨hu, fun t hmem ↦ ?_⟩
    obtain hhead | htail := List.mem_cons.mp hmem
    · exact Event.state.inj hhead ▸ ht
    · exact hall t htail
  | step hstep _ ih =>
    have hnext := hmodifies.step hstep
    cases hstep with
    | test => exact ih hnext hs
    | modify f next =>
      have hf := hmodifies.1 _ hs
      obtain ⟨hu, hall⟩ := ih hnext hf
      refine ⟨hu, fun t hmem ↦ ?_⟩
      obtain hhead | htail := List.mem_cons.mp hmem
      · exact Event.state.inj hhead ▸ hf
      · exact hall t htail
    | call c next a =>
      obtain ⟨hu, hall⟩ := ih hnext hs
      refine ⟨hu, fun t hmem ↦ ?_⟩
      obtain hhead | htail := List.mem_cons.mp hmem
      · cases hhead
      · exact hall t htail

theorem Exec.ensures {r : Except ε α} (h : Exec others x s trace r u) (hx : x.Ensures A) :
    (∃ e, r = .error e) ∨ ∃ c a, .answer c a ∈ trace ∧ A c a := by
  induction h with
  | done r =>
    cases r with
    | ok a => cases hx
    | error e => exact .inl ⟨e, rfl⟩
  | other _ _ _ ih =>
    refine (ih hx).imp_right ?_
    rintro ⟨c, a, hmem, ha⟩
    exact ⟨c, a, List.mem_cons_of_mem _ hmem, ha⟩
  | step hstep _ ih =>
    cases hstep with
    | test p next => exact ih (hx _)
    | modify f next =>
      refine (ih hx).imp_right ?_
      rintro ⟨c, a, hmem, ha⟩
      exact ⟨c, a, List.mem_cons_of_mem _ hmem, ha⟩
    | call c next a =>
      obtain ha | hnext := hx a
      · exact .inr ⟨c, a, List.mem_cons_self, ha⟩
      · refine (ih hnext).imp_right ?_
        rintro ⟨c, a, hmem, ha⟩
        exact ⟨c, a, List.mem_cons_of_mem _ hmem, ha⟩

theorem Exec.strict_iff {r : Except ε α} (h : Exec others x s trace r u) (hx : x.Strict) :
    (∃ a, r = .ok a) ↔ ∀ c a, .answer c a ∈ trace → ∃ b, a = .ok b := by
  induction h with
  | done r =>
    cases r with
    | ok a => exact iff_of_true ⟨a, rfl⟩ fun c a hmem ↦ (by cases hmem)
    | error e => cases hx
  | other _ _ _ ih =>
    rw [ih hx]
    refine forall₂_congr fun c a ↦ ?_
    rw [List.mem_cons, or_iff_right (fun h ↦ (by cases h))]
  | step hstep hrest ih =>
    cases hstep with
    | test p next => exact ih (hx (p _))
    | modify f next =>
      rw [ih hx]
      refine forall₂_congr fun c a ↦ ?_
      rw [List.singleton_append, List.mem_cons, or_iff_right (fun h ↦ (by cases h))]
    | call c next a =>
      cases a with
      | ok b =>
        rw [ih (hx.1 b)]
        constructor
        · intro hall c' a' hmem
          obtain hhead | htail := List.mem_cons.mp hmem
          · cases hhead
            exact ⟨b, rfl⟩
          · exact hall c' a' htail
        · exact fun hall c' a' hmem ↦ hall c' a' (List.mem_cons_of_mem _ hmem)
      | error e =>
        -- what follows can only throw
        refine iff_of_false ?_ fun hall ↦ ?_
        · rintro ⟨b, rfl⟩
          obtain ⟨e', he⟩ | ⟨_, _, _, hfalse⟩ := hrest.ensures (hx.2 e)
          · cases he
          · exact hfalse
        · obtain ⟨b, hb⟩ := hall c _ List.mem_cons_self
          cases hb

end

/-- The run in which each call is answered in its way and the others do nothing. -/
def alone (answer : (c : ι) → Except ε (ρ c)) :
    Program σ ε ι ρ α → σ → Option (Except ε α × History σ ε ι ρ × σ)
  | .done r, s => some (r, [], s)
  | .test p next, s => (next (p s)).alone answer s
  | .modify f next, s =>
    (next.alone answer (f s)).map fun (r, trace, u) ↦ (r, .state (f s) :: trace, u)
  | .call c next, s =>
    ((next (answer c)).alone answer s).map fun (r, trace, u) ↦ (r, .answer c (answer c) :: trace, u)
  | .stuck, _ => none

theorem exec_alone (others : σ → σ → Prop) (answer : (c : ι) → Except ε (ρ c))
    {x : Program σ ε ι ρ α} {s u : σ} {r : Except ε α} {trace : History σ ε ι ρ}
    (h : x.alone answer s = some (r, trace, u)) : Exec others x s trace r u := by
  induction x generalizing s trace with
  | done r' =>
    cases h
    exact .done _ _
  | test p next ih => exact .step (.test p next s) (ih _ h)
  | modify f next ih =>
    rw [alone, Option.map_eq_some_iff] at h
    obtain ⟨⟨r', rest, u'⟩, hrest, he⟩ := h
    cases he
    exact .step (.modify f next s) (ih hrest)
  | call c next ih =>
    rw [alone, Option.map_eq_some_iff] at h
    obtain ⟨⟨r', rest, u'⟩, hrest, he⟩ := h
    cases he
    exact .step (.call c next (answer c) s) (ih _ hrest)
  | stuck => cases h

theorem answer_alone {answer : (c : ι) → Except ε (ρ c)} {x : Program σ ε ι ρ α} {s u : σ}
    {r : Except ε α} {trace : History σ ε ι ρ} (h : x.alone answer s = some (r, trace, u))
    {c : ι} {a : Except ε (ρ c)} (hmem : .answer c a ∈ trace) : a = answer c := by
  induction x generalizing s trace with
  | done r' =>
    cases h
    cases hmem
  | test p next ih => exact ih _ h hmem
  | modify f next ih =>
    rw [alone, Option.map_eq_some_iff] at h
    obtain ⟨⟨r', rest, u'⟩, hrest, he⟩ := h
    cases he
    exact ih hrest ((List.mem_cons.mp hmem).resolve_left nofun)
  | call c' next ih =>
    rw [alone, Option.map_eq_some_iff] at h
    obtain ⟨⟨r', rest, u'⟩, hrest, he⟩ := h
    cases he
    obtain hhead | htail := List.mem_cons.mp hmem
    · cases hhead
      rfl
    · exact ih _ hrest htail
  | stuck => cases h

end Program

end Spkdfs.Library
