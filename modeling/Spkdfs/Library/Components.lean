import Mathlib.Data.List.Basic
import Mathlib.Data.List.Induction
import Mathlib.Data.List.TakeWhile
import Mathlib.Logic.Relation

namespace Spkdfs.Library

section Separator

variable {α : Type} (sep : α)

theorem intercalate_concat {cs : List (List α)} (h : cs ≠ []) (c : List α) :
    [sep].intercalate (cs ++ [c]) = [sep].intercalate cs ++ sep :: c := by
  induction cs with
  | nil => exact absurd rfl h
  | cons d cs ih =>
    cases cs with
    | nil => simp [List.intercalate_cons_cons]
    | cons e cs =>
      have := ih (by simp)
      simp only [List.cons_append, List.intercalate_cons_cons] at this ⊢
      rw [this]
      simp

variable [DecidableEq α]

theorem notMem_of_mem_splitOn {xs l : List α} (h : l ∈ xs.splitOn sep) : sep ∉ l := by
  induction xs generalizing l with
  | nil => simp_all
  | cons x xs ih =>
    rw [List.splitOn_cons_eq_if_modifyHead] at h
    split at h
    · rcases List.mem_cons.mp h with rfl | h
      · simp
      · exact ih h
    · rename_i hx
      cases hs : xs.splitOn sep with
      | nil => exact absurd hs (List.splitOn_ne_nil sep xs)
      | cons y ys =>
        rw [hs, List.modifyHead_cons, List.mem_cons] at h
        rcases h with rfl | h
        · have hy : sep ∉ y := ih (by simp [hs])
          have hne : x ≠ sep := by simpa using hx
          simp [hy, hne.symm]
        · exact ih (by simp [hs, h])

def basePart (p : List α) : List α := (p.reverse.takeWhile (· ≠ sep)).reverse

def dirPart (p : List α) : List α := (p.reverse.dropWhile (· ≠ sep)).reverse

variable {sep}

theorem ne_of_mem_reverse {n : List α} (h : sep ∉ n) :
    ∀ x ∈ n.reverse, decide (x ≠ sep) = true := by
  intro x hx
  have : x ≠ sep := fun he ↦ h (he ▸ List.mem_reverse.mp hx)
  simpa using this

theorem basePart_of_notMem {n : List α} (h : sep ∉ n) : basePart sep n = n := by
  rw [basePart, List.takeWhile_eq_self_iff.mpr (ne_of_mem_reverse h), List.reverse_reverse]

theorem dirPart_of_notMem {n : List α} (h : sep ∉ n) : dirPart sep n = [] := by
  rw [dirPart, List.dropWhile_eq_nil_iff.mpr (ne_of_mem_reverse h), List.reverse_nil]

theorem basePart_append (d : List α) {n : List α} (h : sep ∉ n) :
    basePart sep (d ++ sep :: n) = n := by
  rw [basePart, List.reverse_append, List.reverse_cons, List.append_assoc,
    List.takeWhile_append_of_pos (ne_of_mem_reverse h)]
  simp

theorem dirPart_append (d : List α) {n : List α} (h : sep ∉ n) :
    dirPart sep (d ++ sep :: n) = d ++ [sep] := by
  rw [dirPart, List.reverse_append, List.reverse_cons, List.append_assoc,
    List.dropWhile_append_of_pos (ne_of_mem_reverse h)]
  simp

theorem splitOn_cons_self (xs : List α) : (sep :: xs).splitOn sep = [] :: xs.splitOn sep := by
  simp [List.splitOn_cons_eq_if_modifyHead]

omit [DecidableEq α] in
theorem getLast_intercalate {cs : List (List α)} {c : List α} (hc : c ≠ []) :
    ([sep].intercalate (cs ++ [c])).getLast? = c.getLast? := by
  cases cs with
  | nil => simp
  | cons d cs =>
    rw [intercalate_concat sep (by simp) c, List.getLast?_append, List.getLast?_cons_of_ne_nil hc]
    cases h : c.getLast? with
    | none => exact absurd (List.getLast?_eq_none_iff.mp h) hc
    | some x => rfl

end Separator

section Resolution

variable {β : Type} [DecidableEq β] (skip : β → Bool) (up : β)

/-- Resolve one component against the components kept so far, innermost first.
Skipped components vanish and `up` takes back the component before it; above a
root there is nothing to take back. -/
def resolveStep (rooted : Bool) (stack : List β) (c : β) : List β :=
  if skip c then stack
  else if c = up then
    match stack with
    | [] => if rooted then [] else [up]
    | top :: rest => if top = up then up :: top :: rest else rest
  else c :: stack

def resolve (rooted : Bool) (cs : List β) : List β :=
  (cs.foldl (resolveStep skip up rooted) []).reverse

/-- No component is left to resolve: nothing to skip, and `up` only in front. -/
structure Resolved (rooted : Bool) (cs : List β) : Prop where
  kept : ∀ c ∈ cs, skip c = false
  lead : ∃ n rest, cs = List.replicate n up ++ rest ∧ up ∉ rest ∧ (rooted = true → n = 0)

variable {skip up} {rooted : Bool}

omit [DecidableEq β] in
theorem Resolved.nil : Resolved skip up rooted [] := ⟨by simp, 0, [], by simp⟩

omit [DecidableEq β] in
theorem Resolved.dropLast {cs : List β} {c : β} (h : Resolved skip up rooted (cs ++ [c])) :
    Resolved skip up rooted cs := by
  refine ⟨fun d hd ↦ h.kept d (List.mem_append_left _ hd), ?_⟩
  obtain ⟨n, rest, he, hr, hn⟩ := h.lead
  rcases List.eq_nil_or_concat' rest with rfl | ⟨rest', d, rfl⟩
  · cases n with
    | zero => simp at he
    | succ n =>
      rw [List.append_nil, List.replicate_succ'] at he
      obtain ⟨rfl, -⟩ := List.append_inj' he rfl
      refine ⟨n, [], by simp, by simp, fun hrt ↦ ?_⟩
      have := hn hrt
      omega
  · rw [← List.append_assoc] at he
    obtain ⟨rfl, -⟩ := List.append_inj' he rfl
    exact ⟨n, rest', rfl, fun hm ↦ hr (List.mem_append_left _ hm), hn⟩

omit [DecidableEq β] in
theorem Resolved.concat {cs : List β} {c : β} (h : Resolved skip up rooted cs)
    (hs : skip c = false) (hc : c ≠ up) : Resolved skip up rooted (cs ++ [c]) := by
  obtain ⟨n, rest, rfl, hr, hn⟩ := h.lead
  refine ⟨fun d hd ↦ ?_, n, rest ++ [c], by simp, ?_, hn⟩
  · rcases List.mem_append.mp hd with hd | hd
    · exact h.kept d hd
    · rw [List.mem_singleton.mp hd, hs]
  · simp [hr, hc.symm]

omit [DecidableEq β] in
theorem Resolved.eq_replicate {cs : List β} (h : Resolved skip up rooted (cs ++ [up])) :
    rooted = false ∧ ∃ n, cs = List.replicate n up := by
  obtain ⟨n, rest, he, hr, hn⟩ := h.lead
  rcases List.eq_nil_or_concat' rest with rfl | ⟨rest', d, rfl⟩
  · cases n with
    | zero => simp at he
    | succ n =>
      rw [List.append_nil, List.replicate_succ'] at he
      refine ⟨?_, n, (List.append_inj' he rfl).1⟩
      cases rooted with
      | false => rfl
      | true => exact absurd (hn rfl) (by omega)
  · rw [← List.append_assoc] at he
    have hd : [up] = [d] := (List.append_inj' he rfl).2
    simp only [List.cons.injEq, and_true] at hd
    exact absurd (List.mem_append_right _ (by simp [hd])) hr

omit [DecidableEq β] in
theorem resolved_replicate (hs : skip up = false) (n : ℕ) :
    Resolved skip up false (List.replicate n up) := by
  refine ⟨fun c hc ↦ ?_, n, [], by simp⟩
  rw [List.eq_of_mem_replicate hc, hs]

theorem resolved_step {stack : List β} (h : Resolved skip up rooted stack.reverse) (c : β) :
    Resolved skip up rooted (resolveStep skip up rooted stack c).reverse := by
  unfold resolveStep
  by_cases hs : skip c = true
  · rw [if_pos hs]
    exact h
  rw [if_neg hs]
  have hs : skip c = false := by simpa using hs
  by_cases hc : c = up
  · subst hc
    rw [if_pos rfl]
    cases stack with
    | nil =>
      cases rooted with
      | true => exact h
      | false => exact resolved_replicate hs 1
    | cons top rest =>
      rw [List.reverse_cons] at h
      by_cases ht : top = c
      · subst ht
        obtain ⟨rfl, n, hn⟩ := h.eq_replicate
        have he : (top :: top :: rest).reverse = List.replicate (n + 2) top := by
          simp [hn, List.replicate_succ']
        simpa only [if_true, he] using resolved_replicate hs (n + 2)
      · simpa only [if_neg ht] using h.dropLast
  · rw [if_neg hc, List.reverse_cons]
    exact h.concat hs hc

theorem mem_resolveStep {stack : List β} {c d : β}
    (h : d ∈ resolveStep skip up rooted stack c) : d ∈ stack ∨ d = c := by
  unfold resolveStep at h
  by_cases hs : skip c = true
  · exact .inl (by simpa [hs] using h)
  rw [if_neg hs] at h
  by_cases hc : c = up
  · subst hc
    rw [if_pos rfl] at h
    cases stack with
    | nil => cases rooted <;> simp_all
    | cons top rest =>
      simp only at h
      split at h <;> simp_all
  · simpa [hc, or_comm] using h

theorem mem_of_mem_resolve {cs : List β} {d : β} (h : d ∈ resolve skip up rooted cs) :
    d ∈ cs := by
  suffices H : ∀ stack : List β, d ∈ cs.foldl (resolveStep skip up rooted) stack →
      d ∈ stack ∨ d ∈ cs by
    simpa using H [] (List.mem_reverse.mp h)
  clear h
  induction cs with
  | nil => exact fun stack hd ↦ .inl hd
  | cons c cs ih =>
    intro stack hd
    rcases ih _ hd with hd | hd
    · rcases mem_resolveStep hd with hd | rfl
      · exact .inl hd
      · exact .inr (by simp)
    · exact .inr (by simp [hd])

theorem resolved_resolve (cs : List β) : Resolved skip up rooted (resolve skip up rooted cs) := by
  unfold resolve
  suffices H : ∀ stack : List β, Resolved skip up rooted stack.reverse →
      Resolved skip up rooted (cs.foldl (resolveStep skip up rooted) stack).reverse from
    H [] Resolved.nil
  induction cs with
  | nil => exact fun stack h ↦ h
  | cons c cs ih => exact fun stack h ↦ ih _ (resolved_step h c)

theorem resolve_of_resolved {cs : List β} (h : Resolved skip up rooted cs) :
    resolve skip up rooted cs = cs := by
  induction cs using List.reverseRecOn with
  | nil => rfl
  | append_singleton cs c ih =>
    have hf : cs.foldl (resolveStep skip up rooted) [] = cs.reverse :=
      List.reverse_eq_iff.mp (ih h.dropLast)
    have hs : skip c = false := h.kept c (by simp)
    rw [resolve, List.foldl_append, hf, List.foldl_cons, List.foldl_nil, List.reverse_eq_iff,
      List.reverse_append, List.reverse_singleton, List.singleton_append]
    unfold resolveStep
    rw [if_neg (by simp [hs])]
    by_cases hc : c = up
    · subst hc
      obtain ⟨rfl, n, rfl⟩ := h.eq_replicate
      rw [List.reverse_replicate, if_pos rfl]
      cases n with
      | zero => rfl
      | succ n => rw [List.replicate_succ]; exact if_pos rfl
    · rw [if_neg hc]

theorem resolve_concat {cs : List β} {c : β} (hs : skip c = false) (hc : c ≠ up) :
    resolve skip up rooted (cs ++ [c]) = resolve skip up rooted cs ++ [c] := by
  rw [resolve, List.foldl_append, List.foldl_cons, List.foldl_nil, resolveStep.eq_def]
  simp [hs, hc, resolve]

omit [DecidableEq β] in
theorem Resolved.last_ne {cs : List β} {c : β} (h : Resolved skip up true (cs ++ [c])) :
    c ≠ up := by
  rintro rfl
  exact absurd h.eq_replicate.1 (by simp)

/-- The rules of resolution, applied anywhere: a skipped component vanishes, `up` goes together
with the component before it, and `up` in front vanishes below a root. -/
inductive Rewrites (skip : β → Bool) (up : β) (rooted : Bool) : List β → List β → Prop
  | skipped {c : β} (before after : List β) (hs : skip c = true) :
      Rewrites skip up rooted (before ++ c :: after) (before ++ after)
  | back {c : β} (before after : List β) (hs : skip c = false) (hc : c ≠ up) :
      Rewrites skip up rooted (before ++ c :: up :: after) (before ++ after)
  | above (after : List β) (hr : rooted = true) : Rewrites skip up rooted (up :: after) after

theorem Rewrites.resolve_eq {cs ds : List β} (hup : skip up = false)
    (h : Rewrites skip up rooted cs ds) :
    resolve skip up rooted cs = resolve skip up rooted ds := by
  cases h with
  | skipped before after hs =>
    simp only [resolve, List.foldl_append, List.foldl_cons, resolveStep, if_pos hs]
  | back before after hs hc => simp [resolve, resolveStep, hs, hup, hc]
  | above _ hr => simp [resolve, resolveStep, hup, hr]

theorem rewrites_step {stack : List β} (h : Resolved skip up rooted stack.reverse) (c : β)
    (cs : List β) :
    Relation.ReflTransGen (Rewrites skip up rooted) (stack.reverse ++ c :: cs)
      ((resolveStep skip up rooted stack c).reverse ++ cs) := by
  unfold resolveStep
  by_cases hs : skip c = true
  · rw [if_pos hs]
    exact .single (.skipped _ cs hs)
  rw [if_neg hs]
  by_cases hc : c = up
  · subst hc
    rw [if_pos rfl]
    cases stack with
    | nil =>
      cases rooted with
      | true => exact .single (.above cs rfl)
      | false => exact .refl
    | cons top rest =>
      have htop : skip top = false := h.kept top (by simp)
      by_cases ht : top = c
      · simp only [if_pos ht, List.reverse_cons, List.append_assoc, List.singleton_append]
        exact .refl
      · simp only [if_neg ht, List.reverse_cons, List.append_assoc, List.singleton_append]
        exact .single (.back _ cs htop ht)
  · rw [if_neg hc, List.reverse_cons, List.append_assoc, List.singleton_append]

theorem rewrites_resolve (cs : List β) :
    Relation.ReflTransGen (Rewrites skip up rooted) cs (resolve skip up rooted cs) := by
  unfold resolve
  suffices H : ∀ stack : List β, Resolved skip up rooted stack.reverse →
      Relation.ReflTransGen (Rewrites skip up rooted) (stack.reverse ++ cs)
        (cs.foldl (resolveStep skip up rooted) stack).reverse from
    H [] Resolved.nil
  induction cs with
  | nil =>
    intro stack _
    rw [List.append_nil]
    exact .refl
  | cons c cs ih => exact fun stack h ↦ (rewrites_step h c cs).trans (ih _ (resolved_step h c))

/-- The rules can be applied in any order: two lists that they lead to one list are resolved to
the same components, and the other way round. -/
theorem join_rewrites_iff (hup : skip up = false) {cs ds : List β} :
    Relation.Join (Relation.ReflTransGen (Rewrites skip up rooted)) cs ds ↔
      resolve skip up rooted cs = resolve skip up rooted ds := by
  have hkept : ∀ {xs ys : List β}, Relation.ReflTransGen (Rewrites skip up rooted) xs ys →
      resolve skip up rooted xs = resolve skip up rooted ys := by
    intro xs ys h
    induction h with
    | refl => rfl
    | tail _ hstep ih => rw [ih, hstep.resolve_eq hup]
  constructor
  · rintro ⟨es, hcs, hds⟩
    rw [hkept hcs, hkept hds]
  · intro h
    refine ⟨resolve skip up rooted cs, rewrites_resolve cs, ?_⟩
    rw [h]
    exact rewrites_resolve ds

end Resolution

end Spkdfs.Library
