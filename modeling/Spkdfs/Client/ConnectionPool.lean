import Mathlib.Data.List.Nodup
import Spkdfs.Common.Exception
import Spkdfs.Library.Runs

namespace Spkdfs

open Library Function

/-- The pool, and the threads in `get_stub`. A stub is told by its number among those that were
made; a thread that has seen none for its node waits for the write lock. -/
structure ConnecttionPool where
  stubs : Str → Option (Option Nat)
  made : List Str
  waiting : Nat → Option Str
  returned : List (Str × Nat)

/-- The parts of `get_stub`, each under its lock. A stub can be made or not. -/
inductive PoolStep
  | read (thread : Nat) (node : Str)
  | write (thread : Nat) (makes : Bool)

namespace ConnecttionPool

def empty : ConnecttionPool := ⟨fun _ ↦ none, [], fun _ ↦ none, []⟩

def step (pool : ConnecttionPool) : PoolStep → Option ConnecttionPool
  | .read thread node =>
    if pool.waiting thread = none then
      match pool.stubs node with
      | some (some stub) => some { pool with returned := pool.returned ++ [(node, stub)] }
      | _ => some { pool with waiting := update pool.waiting thread (some node) }
    else none
  | .write thread makes =>
    (pool.waiting thread).map fun node ↦
      let pool := { pool with waiting := update pool.waiting thread none }
      match (pool.stubs node).join with
      | some stub => { pool with returned := pool.returned ++ [(node, stub)] }
      | none =>
        if makes then
          { pool with
            stubs := update pool.stubs node (some (some pool.made.length))
            made := pool.made ++ [node]
            returned := pool.returned ++ [(node, pool.made.length)] }
        -- the entry stays, without a stub
        else { pool with stubs := update pool.stubs node (some none) }

variable {pool pool' : ConnecttionPool} {a : PoolStep}

/-- A node has the one stub that was made for it, and this is what is returned. -/
structure Sound (pool : ConnecttionPool) : Prop where
  stub : ∀ node stub, pool.stubs node = some (some stub) ↔ pool.made[stub]? = some node
  nodup : pool.made.Nodup
  returned : ∀ r ∈ pool.returned, pool.stubs r.1 = some (some r.2)

theorem sound_empty : empty.Sound :=
  ⟨fun node stub ↦ by simp [empty], .nil, fun r hr ↦ absurd hr List.not_mem_nil⟩

theorem Sound.returned_append (h : pool.Sound) {node : Str} {stub : Nat}
    (hstub : pool.stubs node = some (some stub)) :
    ∀ r ∈ pool.returned ++ [(node, stub)], pool.stubs r.1 = some (some r.2) := by
  intro r hr
  rcases List.mem_append.mp hr with hr | hr
  · exact h.returned r hr
  · obtain rfl := List.mem_singleton.mp hr
    exact hstub

/-- A node whose entry has no stub has none that was made for it. -/
theorem Sound.notMem_made (h : pool.Sound) {node : Str} (hnone : (pool.stubs node).join = none) :
    node ∉ pool.made := by
  intro hmem
  obtain ⟨stub, hstub⟩ := List.mem_iff_getElem?.mp hmem
  rw [(h.stub node stub).mpr hstub] at hnone
  cases hnone

theorem Sound.step (h : pool.Sound) (hs : pool.step a = some pool') : pool'.Sound := by
  cases a with
  | read thread node =>
    obtain ⟨-, hs⟩ := Option.ite_none_right_eq_some.mp hs
    split at hs
    · rename_i stub hstub
      obtain rfl := Option.some.inj hs
      exact ⟨h.stub, h.nodup, h.returned_append hstub⟩
    · obtain rfl := Option.some.inj hs
      exact ⟨h.stub, h.nodup, h.returned⟩
  | write thread makes =>
    obtain ⟨node, -, rfl⟩ := Option.map_eq_some_iff.mp hs
    simp only
    cases hentry : (pool.stubs node).join with
    | some stub => exact ⟨h.stub, h.nodup, h.returned_append (Option.join_eq_some_iff.mp hentry)⟩
    | none =>
      have hnew := h.notMem_made hentry
      have hother : ∀ r ∈ pool.returned, r.1 ≠ node := by
        rintro r hr rfl
        rw [h.returned r hr] at hentry
        cases hentry
      have hkept : ∀ entry, ∀ r ∈ pool.returned,
          update pool.stubs node entry r.1 = some (some r.2) := fun entry r hr ↦
        (update_of_ne (hother r hr) ..).trans (h.returned r hr)
      cases makes with
      | false =>
        refine ⟨fun other stub ↦ ?_, h.nodup, hkept (some none)⟩
        by_cases ho : other = node
        · subst ho
          simp only [Bool.false_eq_true, if_false, update_self]
          exact iff_of_false (by simp) fun he ↦ hnew (List.mem_of_getElem? he)
        · simp only [Bool.false_eq_true, if_false, update_of_ne ho]
          exact h.stub other stub
      | true =>
        refine ⟨fun other stub ↦ ?_, ?_, fun r hr ↦ ?_⟩
        · simp only [if_true]
          rw [List.getElem?_append]
          by_cases ho : other = node
          · subst ho
            rw [update_self, Option.some.injEq, Option.some.injEq]
            split_ifs with hlt
            · exact iff_of_false (by omega) fun he ↦ hnew (List.mem_of_getElem? he)
            · rw [List.getElem?_singleton]
              split_ifs with hlast
              · exact iff_of_true (by omega) rfl
              · exact iff_of_false (by omega) not_false
          · rw [update_of_ne ho, h.stub]
            split_ifs with hlt
            · rfl
            · refine iff_of_false (fun he ↦ ?_) fun he ↦ ?_
              · exact hlt (List.getElem?_eq_some_iff.mp he).1
              · exact ho (List.mem_singleton.mp (List.mem_of_getElem? he))
        · exact List.nodup_append.mpr ⟨h.nodup, List.nodup_singleton node, fun other ho one hone ↦ by
            rw [List.mem_singleton.mp hone]
            rintro rfl
            exact hnew ho⟩
        · rcases List.mem_append.mp hr with hr | hr
          · exact hkept _ r hr
          · obtain rfl := List.mem_singleton.mp hr
            exact update_self ..

/-- Whichever threads ask for stubs at the same time, one is made for each node at most: what is
returned for a node is always the same stub, and another one than for any other node. -/
theorem one_stub_per_node (h : Reaches step (fun _ _ ↦ True) .empty pool) :
    pool.made.Nodup ∧ (∀ r ∈ pool.returned, pool.made[r.2]? = some r.1) ∧
      ∀ r ∈ pool.returned, ∀ r' ∈ pool.returned, r.1 = r'.1 ↔ r.2 = r'.2 := by
  have hsound : pool.Sound := h.invariant sound_empty fun _ _ _ _ ht _ hs ↦ ht.step hs
  have hmade : ∀ r ∈ pool.returned, pool.made[r.2]? = some r.1 := fun r hr ↦
    (hsound.stub r.1 r.2).mp (hsound.returned r hr)
  refine ⟨hsound.nodup, hmade, fun r hr r' hr' ↦ ⟨fun he ↦ ?_, fun he ↦ ?_⟩⟩
  · have hstub := hsound.returned r hr
    rw [he, hsound.returned r' hr', Option.some.injEq, Option.some.injEq] at hstub
    exact hstub.symm
  · have hnode := hmade r hr
    rw [he, hmade r' hr', Option.some.injEq] at hnode
    exact hnode.symm

/-- Two threads find no stub for the same node. -/
theorem one_stub_per_node_twice : ∃ pool : ConnecttionPool,
    pool.returned.map (·.1) = ["n".toList, "n".toList] ∧
      ∀ r ∈ pool.returned, ∀ r' ∈ pool.returned, r.2 = r'.2 := by
  obtain ⟨pool, hr, hp⟩ := exists_reached step (fun _ _ ↦ true) .empty
    [.read 0 "n".toList, .read 1 "n".toList, .write 1 true, .write 0 true]
    (fun pool ↦ decide (pool.returned.map (·.1) = ["n".toList, "n".toList])) (by decide)
  have hnodes := of_decide_eq_true hp
  obtain ⟨-, -, hsame⟩ := one_stub_per_node (hr.mono fun _ _ _ ↦ trivial)
  refine ⟨pool, hnodes, fun r h r' h' ↦ (hsame r h r' h').mp ?_⟩
  have hnode : ∀ r ∈ pool.returned, r.1 = "n".toList := by
    intro r hmem
    have hn : r.1 ∈ ["n".toList, "n".toList] := hnodes ▸ List.mem_map.mpr ⟨r, hmem, rfl⟩
    simpa using hn
  rw [hnode r h, hnode r' h']

end ConnecttionPool

end Spkdfs
