import Mathlib.Order.Monotone.Basic
import Mathlib.Data.List.Basic

namespace Spkdfs.Library

variable {ε β : Type}

/-- A log that is written in groups of entries, and what is to be seen after each group. Whoever has
applied a part of a group already sees what is to be seen after it. -/
inductive History (Shows : List ε → β → Prop) : List ε → List β → Prop
  | start {b : β} (shows : Shows [] b) : History Shows [] [b]
  | group {log es : List ε} {past : List β} {b : β} (before : History Shows log past)
      (shows : ∀ k, k ≤ es.length → (k = 0 → es = []) → Shows (log ++ es.take k) b) :
      History Shows (log ++ es) (past ++ [b])

namespace History

variable {Shows : List ε → β → Prop} {log : List ε} {past : List β}

/-- Any beginning of the log shows what was to be seen at some time, a longer one nothing earlier
than a shorter one, and the whole log what came last. -/
theorem exists_time (h : History Shows log past) :
    ∃ time : Nat → Nat, Monotone time ∧ time log.length + 1 = past.length ∧
      ∀ n ≤ log.length, ∃ b, past[time n]? = some b ∧ Shows (log.take n) b := by
  induction h with
  | @start b shows =>
    refine ⟨fun _ ↦ 0, monotone_const, rfl, fun n _ ↦ ⟨b, rfl, ?_⟩⟩
    rwa [List.take_nil]
  | @group log es past b before shows ih =>
    obtain ⟨time, hmono, hlast, hshows⟩ := ih
    -- where the last group begins to be seen
    let first := if es = [] then log.length else log.length + 1
    have hfirst : first ≤ log.length + es.length := by
      by_cases hes : es = []
      · simp [first, hes]
      · have hlength := List.length_pos_iff.mpr hes
        simp only [first, if_neg hes]
        omega
    have hold : ∀ n, n < first → n ≤ log.length := by
      intro n hn
      simp only [first] at hn
      split_ifs at hn <;> omega
    refine ⟨fun n ↦ if n < first then time n else past.length, fun n m hnm ↦ ?_, ?_, fun n hn ↦ ?_⟩
    · simp only
      split_ifs with h₁ h₂ h₂
      · exact hmono hnm
      · have hbound := hmono (hold n h₁)
        omega
      · omega
      · exact le_rfl
    · simp only [List.length_append, if_neg (Nat.not_lt.mpr hfirst), List.length_singleton]
    · by_cases hn' : n < first
      · obtain ⟨c, hc, hseen⟩ := hshows n (hold n hn')
        simp only [if_pos hn']
        rw [List.take_append_of_le_length (hold n hn')]
        have hlt := (List.getElem?_eq_some_iff.mp hc).1
        exact ⟨c, (List.getElem?_append_left hlt).trans hc, hseen⟩
      · simp only [if_neg hn']
        rw [List.length_append] at hn
        have hge : log.length ≤ n := by
          simp only [first] at hn'
          split_ifs at hn' <;> omega
        refine ⟨b, by simp, ?_⟩
        rw [List.take_append, List.take_of_length_le hge]
        refine shows _ (by omega) fun hzero ↦ ?_
        by_contra hes
        simp only [first, if_neg hes] at hn'
        omega

end History

end Spkdfs.Library
