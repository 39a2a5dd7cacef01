import Mathlib.Logic.Function.Basic
import Spkdfs.Library.Files
import Spkdfs.Library.Runs

namespace Spkdfs.Library

open Function

variable {σ τ ε ι : Type}

/-- A state machine behind a replicated log, for each of its processes: what it starts with, what it
does with some more entries, what it saves and loads again, and what it proposes. Where there is no
result the process ends. -/
structure LogMachine (σ τ ε ι : Type) where
  initial : Nat → σ
  apply : σ → List ε → Option σ
  save : σ → τ
  load : σ → τ → Option σ
  propose : σ → ι → Option ε

/-- A process, the number of entries it has applied, and the last snapshot with its index. -/
structure Follower (σ τ : Type) where
  state : σ
  applied : Nat := 0
  snapshot : Option (Nat × τ) := none

structure Group (σ τ ε : Type) where
  log : List ε
  followers : Nat → Follower σ τ

/-- A follower may get its entries in any portions. -/
inductive GroupStep (ι : Type)
  | propose (who : Nat) (input : ι)
  | apply (who n : Nat)
  | save (who : Nat)
  | install (who source : Nat)
  | restart (who : Nat)

namespace LogMachine

variable (m : LogMachine σ τ ε ι)

def start : Group σ τ ε := ⟨[], fun who ↦ { state := m.initial who }⟩

def setFollower (g : Group σ τ ε) (who : Nat) (f : Follower σ τ) : Group σ τ ε :=
  { g with followers := update g.followers who f }

/-- A process that begins anew loads its own snapshot. -/
def restarted (who : Nat) (snapshot : Option (Nat × τ)) : Option (Follower σ τ) :=
  match snapshot with
  | none => some { state := m.initial who }
  | some (index, saved) =>
    (m.load (m.initial who) saved).map fun state ↦ ⟨state, index, some (index, saved)⟩

def step (g : Group σ τ ε) : GroupStep ι → Option (Group σ τ ε)
  | .propose who input =>
    (m.propose (g.followers who).state input).map fun entry ↦ { g with log := g.log ++ [entry] }
  | .apply who n =>
    let f := g.followers who
    if 0 < n ∧ f.applied + n ≤ g.log.length then
      (m.apply f.state (slice g.log f.applied n)).map fun state ↦
        setFollower g who { f with state, applied := f.applied + n }
    else none
  | .save who =>
    let f := g.followers who
    some (setFollower g who { f with snapshot := some (f.applied, m.save f.state) })
  | .install who source =>
    match (g.followers source).snapshot with
    | none => none
    | some (index, saved) =>
      if (g.followers who).applied ≤ index then
        (m.load (g.followers who).state saved).map fun state ↦
          setFollower g who ⟨state, index, some (index, saved)⟩
      else none
  | .restart who =>
    (m.restarted who (g.followers who).snapshot).map (setFollower g who)

/-- A relation between the entries a process has applied and its state, and one between the entries
and a snapshot, that every operation keeps as long as the entries are good. -/
structure Carries (Holds : Nat → List ε → σ → Prop) (Saved : List ε → τ → Prop)
    (Good : ε → Prop) : Prop where
  initial : ∀ who, Holds who [] (m.initial who)
  apply : ∀ who p b s, Holds who p s → b ≠ [] → (∀ e ∈ b, Good e) →
    ∃ s', m.apply s b = some s' ∧ Holds who (p ++ b) s'
  save : ∀ who p s, Holds who p s → Saved p (m.save s)
  load : ∀ who q p s t, Holds who q s → q <+: p → Saved p t →
    ∃ s', m.load s t = some s' ∧ Holds who p s'
  propose : ∀ who p s input e, Holds who p s → m.propose s input = some e → Good e

structure Follows (Holds : Nat → List ε → σ → Prop) (Saved : List ε → τ → Prop)
    (Good : ε → Prop) (g : Group σ τ ε) : Prop where
  good : ∀ e ∈ g.log, Good e
  bound : ∀ who, (g.followers who).applied ≤ g.log.length
  state : ∀ who, Holds who (g.log.take (g.followers who).applied) (g.followers who).state
  snapshot : ∀ who index saved, (g.followers who).snapshot = some (index, saved) →
    index ≤ g.log.length ∧ Saved (g.log.take index) saved

variable {m} {Holds : Nat → List ε → σ → Prop} {Saved : List ε → τ → Prop} {Good : ε → Prop}
  {g g' : Group σ τ ε} {who source index n : Nat} {f : Follower σ τ} {a : GroupStep ι}

@[simp] theorem setFollower_self : (setFollower g who f).followers who = f := update_self ..

theorem step_apply {s' : σ} (hn : 0 < n) (hb : (g.followers who).applied + n ≤ g.log.length)
    (hs : m.apply (g.followers who).state (slice g.log (g.followers who).applied n) = some s') :
    m.step g (.apply who n) = some (setFollower g who
      { g.followers who with state := s', applied := (g.followers who).applied + n }) := by
  rw [LogMachine.step, if_pos ⟨hn, hb⟩, hs, Option.map_some]

theorem Follows.setFollower (h : Follows Holds Saved Good g) (hbound : f.applied ≤ g.log.length)
    (hstate : Holds who (g.log.take f.applied) f.state)
    (hsnapshot : ∀ index saved, f.snapshot = some (index, saved) →
      index ≤ g.log.length ∧ Saved (g.log.take index) saved) :
    Follows Holds Saved Good (setFollower g who f) := by
  have hcases : ∀ other, (other = who ∧ (LogMachine.setFollower g who f).followers other = f) ∨
      (LogMachine.setFollower g who f).followers other = g.followers other := by
    intro other
    by_cases ho : other = who
    · subst ho
      exact .inl ⟨rfl, update_self ..⟩
    · exact .inr (update_of_ne ho ..)
  refine ⟨h.good, fun other ↦ ?_, fun other ↦ ?_, fun other ↦ ?_⟩
  all_goals obtain ⟨rfl, he⟩ | he := hcases other <;> rw [he]
  · exact hbound
  · exact h.bound other
  · exact hstate
  · exact h.state other
  · exact hsnapshot
  · exact h.snapshot other

theorem Follows.apply (hm : m.Carries Holds Saved Good) (h : Follows Holds Saved Good g)
    (hn : 0 < n) (hb : (g.followers who).applied + n ≤ g.log.length) :
    ∃ s', m.apply (g.followers who).state (slice g.log (g.followers who).applied n) = some s' ∧
      Holds who (g.log.take ((g.followers who).applied + n)) s' := by
  have hne : slice g.log (g.followers who).applied n ≠ [] := by
    intro hnil
    have hlength := length_slice hb
    rw [hnil, List.length_nil] at hlength
    omega
  have hgood : ∀ e ∈ slice g.log (g.followers who).applied n, Good e :=
    fun e he ↦ h.good e (List.mem_of_mem_drop (List.mem_of_mem_take he))
  obtain ⟨s', hs', hholds⟩ := hm.apply who _ _ _ (h.state who) hne hgood
  exact ⟨s', hs', take_append_slice g.log _ n ▸ hholds⟩

theorem Follows.restarted (hm : m.Carries Holds Saved Good) (h : Follows Holds Saved Good g)
    (who : Nat) :
    ∃ f, m.restarted who (g.followers who).snapshot = some f ∧ f.applied ≤ g.log.length ∧
      Holds who (g.log.take f.applied) f.state ∧ f.snapshot = (g.followers who).snapshot := by
  cases hs : (g.followers who).snapshot with
  | none => exact ⟨_, rfl, Nat.zero_le _, hm.initial who, rfl⟩
  | some snapshot =>
    obtain ⟨index, saved⟩ := snapshot
    obtain ⟨hindex, hsaved⟩ := h.snapshot who index saved hs
    obtain ⟨s', hs', hholds⟩ := hm.load who [] _ _ saved (hm.initial who) List.nil_prefix hsaved
    refine ⟨⟨s', index, some (index, saved)⟩, ?_, hindex, hholds, rfl⟩
    rw [LogMachine.restarted, hs', Option.map_some]

theorem Follows.install (hm : m.Carries Holds Saved Good) (h : Follows Holds Saved Good g)
    {saved : τ} (hs : (g.followers source).snapshot = some (index, saved))
    (hi : (g.followers who).applied ≤ index) :
    ∃ s', m.load (g.followers who).state saved = some s' ∧ Holds who (g.log.take index) s' :=
  hm.load who _ _ _ saved (h.state who) (List.take_prefix_take_left hi) (h.snapshot source index saved hs).2

theorem Follows.step (hm : m.Carries Holds Saved Good) (h : Follows Holds Saved Good g)
    (hs : m.step g a = some g') : Follows Holds Saved Good g' := by
  cases a with
  | propose who input =>
    obtain ⟨e, he, rfl⟩ := Option.map_eq_some_iff.mp hs
    refine ⟨fun e' he' ↦ ?_, fun other ↦ ?_, fun other ↦ ?_, fun other index saved hsome ↦ ?_⟩
    · rcases List.mem_append.mp he' with he' | he'
      · exact h.good e' he'
      · rw [List.mem_singleton.mp he']
        exact hm.propose who _ _ input e (h.state who) he
    · rw [List.length_append]
      exact Nat.le_add_right_of_le (h.bound other)
    · rw [List.take_append_of_le_length (h.bound other)]
      exact h.state other
    · obtain ⟨hindex, hsaved⟩ := h.snapshot other index saved hsome
      rw [List.length_append, List.take_append_of_le_length hindex]
      exact ⟨Nat.le_add_right_of_le hindex, hsaved⟩
  | apply who n =>
    have henabled := hs
    rw [LogMachine.step, Option.ite_none_right_eq_some] at henabled
    obtain ⟨⟨hn, hb⟩, -⟩ := henabled
    obtain ⟨s', hs', hholds⟩ := h.apply hm hn hb
    rw [step_apply hn hb hs', Option.some.injEq] at hs
    exact hs ▸ h.setFollower hb hholds (h.snapshot who)
  | save who =>
    obtain rfl := Option.some.inj hs
    refine h.setFollower (h.bound who) (h.state who) fun index saved hsome ↦ ?_
    obtain ⟨rfl, rfl⟩ := Prod.mk.inj (Option.some.inj hsome)
    exact ⟨h.bound who, hm.save who _ _ (h.state who)⟩
  | install who source =>
    rw [LogMachine.step] at hs
    split at hs
    · cases hs
    rename_i index saved hsnapshot
    rw [Option.ite_none_right_eq_some] at hs
    obtain ⟨hi, hs⟩ := hs
    obtain ⟨s', hs', hholds⟩ := h.install hm hsnapshot hi
    rw [hs', Option.map_some, Option.some.injEq] at hs
    have hsaved := h.snapshot source index saved hsnapshot
    refine hs ▸ h.setFollower hsaved.1 hholds fun i t ht ↦ ?_
    obtain ⟨rfl, rfl⟩ := Prod.mk.inj (Option.some.inj ht)
    exact hsaved
  | restart who =>
    obtain ⟨f, hf, hbound, hholds, hsnapshot⟩ := h.restarted hm who
    rw [LogMachine.step, hf, Option.map_some, Option.some.injEq] at hs
    exact hs ▸ h.setFollower hbound hholds (hsnapshot ▸ h.snapshot who)

/-- Whatever portions the entries come in, and with whatever snapshots and restarts in between,
every process is where its entries lead to. -/
theorem follows_of_reaches (hm : m.Carries Holds Saved Good)
    (h : Reaches m.step (fun _ _ ↦ True) m.start g) : Follows Holds Saved Good g := by
  refine h.invariant ⟨fun e he ↦ ?_, fun who ↦ Nat.zero_le _, fun who ↦ hm.initial who,
    fun who index saved hs ↦ ?_⟩ fun g a g' _ hf _ hs ↦ hf.step hm hs
  · exact absurd he List.not_mem_nil
  · cases hs

end LogMachine

end Spkdfs.Library
