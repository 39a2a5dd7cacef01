import Spkdfs.Client.Methods

namespace Spkdfs

open Library Procedure SDK

def Event.holding (who : Nat) (path : Str) (held : Bool) : Event → Bool
  | .opened w q write .. =>
    if w = who ∧ simplifyPath q = simplifyPath path then held || write else held
  | .closed w q => if w = who ∧ simplifyPath q = simplifyPath path then false else held
  | .refused .. | .committed .. => held

/-- The instance has opened the path with a write mode and has not closed it. -/
def holds (history : List Event) (who : Nat) (path : Str) : Bool :=
  history.foldl (Event.holding who path) false

def Event.Exclusive (before : List Event) : Event → Prop
  | .opened who path true _ deadline time =>
    ∀ a ≠ who, holds before a path = true → deadline < time
  | _ => True

namespace Cluster

variable {c c' : Cluster} {who : Nat}

/-- Where another instance holds the path and its lease runs, an `open` with a write mode
fails for a reason of its own. -/
def RefusesRival (c : Cluster) : Step → Prop
  | .call who (.open path flags waits) =>
    writeMode flags = true → (∃ a ≠ who, holds c.history a path = true) →
      c.leader.now ≤ c.leader.deadline path → OpenRefused c.leader path flags waits
  | _ => True

theorem exclusive_step {s : Step} (hx : Everywhere Event.Exclusive c.history)
    (hg : c.RefusesRival s) (h : c.step s = some c') :
    Everywhere Event.Exclusive c'.history := by
  cases s with
  | leader action => exact (step_other h (by simp)).1 ▸ hx
  | replicate slave => exact (step_other h (by simp)).1 ▸ hx
  | refresh who => exact (step_other h (by simp)).1 ▸ hx
  | call who operation =>
    obtain ⟨outcome, v, hrun, rfl⟩ := step_call h
    cases operation with
    | «open» path flags waits =>
      obtain ⟨hopen, hout⟩ | ⟨f, hopen, rfl⟩ := Operation.open_run hrun
      · subst hout
        refine hx.concat ?_
        cases hw : writeMode flags with
        | false => exact trivial
        | true =>
          intro a ha hheld
          by_contra hle
          have hrefused := hg hw ⟨a, ha, hheld⟩ (not_lt.mp hle)
          obtain ⟨f, hf⟩ := (open_error_iff hw hopen).mpr hrefused
          cases hf
      · exact hx.concat trivial
    | write path offset data nodes => simpa [Operation.events] using hx
    | fsync path nodes during => exact Operation.everywhere_commits hx fun _ _ ↦ trivial
    | close path nodes during =>
      cases outcome with
      | error f => simpa [Operation.events] using hx
      | ok commit =>
        have hcommit : Everywhere Event.Exclusive
            (c.history ++ Operation.commits who path (.ok commit)) :=
          Operation.everywhere_commits hx fun _ _ ↦ trivial
        have hclosed := hcommit.concat (y := Event.closed who path) trivial
        simpa [Operation.events] using hclosed

end Cluster

/-- Writer exclusion, as long as every `open` with a write mode that meets another holder fails
for a reason of its own. The last part says that there is no other reason to fail: the lease
plays no role. -/
theorem second_writer_excluded {myIp : Str} {now : Nat} {sdks : Nat → SDK} {c : Cluster}
    (h : Reaches Cluster.step Cluster.RefusesRival (.start myIp now sdks) c) :
    (∀ before after who path read deadline time,
      c.history = before ++ .opened who path true read deadline time :: after →
        ∀ a ≠ who, holds before a path = true → deadline < time) ∧
    ∀ who path flags waits r v, writeMode flags = true →
      (SDK.open path flags waits).run (c.view who) = some (r, v) →
        ((∃ f, r = .error f) ↔ OpenRefused c.leader path flags waits) := by
  have hx : Everywhere Event.Exclusive c.history :=
    h.invariant (I := fun c ↦ Everywhere Event.Exclusive c.history) everywhere_nil
      fun _ _ _ _ hi hg hs ↦ Cluster.exclusive_step hi hg hs
  refine ⟨fun before after who path read deadline time hs ↦ hx before _ after hs, ?_⟩
  intro who path flags waits r v hw hrun
  exact open_error_iff hw hrun

/-- Whether the step is no `open` that meets a history, save one of a path that the slave does
not list. -/
def Cluster.opensUnseen (c : Cluster) : Step → Bool
  | .call _ (.open path _ waits) => decide (c.history = []) ||
    (c.leader.rpc (.updateLock [path]) waits.lock).any fun p ↦
      p.1.isOk && (p.2.replica waits.seen).any fun db ↦ !(Namenode.ls db path).isOk
  | _ => true

theorem second_writer_excluded_unseen :
    ∃ c, Reaches Cluster.step Cluster.RefusesRival (.start "10.0.0.1".toList 100 .new) c ∧
      .refused 1 "/f".toList ∈ c.history ∧ holds c.history 0 "/f".toList = true ∧
      ∀ before after who path read deadline time,
        c.history = before ++ .opened who path true read deadline time :: after →
          ∀ a ≠ who, holds before a path = true → deadline < time := by
  obtain ⟨c, hr, hp⟩ := exists_reached Cluster.step Cluster.opensUnseen
    (.start "10.0.0.1".toList 100 .new)
    [.leader (.prepare 0 (.put ⟨"/f".toList, "RE<3,1>".toList⟩)), .leader .apply,
      .call 0 (.open "/f".toList 1 { lock := [.apply], seen := 1 }),
      .call 1 (.open "/f".toList 1 { lock := [.apply], seen := 0 })]
    (fun c ↦ decide (.refused 1 "/f".toList ∈ c.history ∧
      holds c.history 0 "/f".toList = true)) (by decide +kernel)
  have hrefused : Reaches Cluster.step Cluster.RefusesRival
      (.start "10.0.0.1".toList 100 .new) c := by
    refine hr.mono fun c s ht ↦ ?_
    unfold Cluster.RefusesRival
    unfold Cluster.opensUnseen at ht
    split at ht
    · rename_i who path flags waits
      intro _ ⟨a, _, hheld⟩ _
      rcases Bool.or_eq_true_iff.mp ht with hnil | hany
      · rw [of_decide_eq_true hnil] at hheld
        cases hheld
      · obtain ⟨⟨r, l⟩, hrpc, hslave⟩ := (Option.any_eq_true _ _).mp hany
        obtain ⟨hok, hslave⟩ := Bool.and_eq_true_iff.mp hslave
        obtain ⟨db, hdb, hls⟩ := (Option.any_eq_true _ _).mp hslave
        cases r with
        | error f => cases hok
        | ok entry =>
          cases hx : Namenode.ls db path with
          | ok i => simp [hx, Except.isOk, Except.toBool] at hls
          | error f => exact .unseen hrpc hdb hx
    · trivial
  obtain ⟨hmem, hheld⟩ := of_decide_eq_true hp
  exact ⟨c, hrefused, hmem, hheld, (second_writer_excluded hrefused).1⟩

/-- Whether client 1 was the second to open, while client 0 held the path and before the
deadline of its lease. -/
def Cluster.openedTwice (c : Cluster) : Bool :=
  match c.history with
  | [e, .opened 1 path true _ deadline time] =>
    decide (holds [e] 0 path = true ∧ ¬ deadline < time)
  | _ => false

/-- Two instances open a file for writing, one after the other. -/
theorem second_writer_not_excluded :
    ¬ ∀ c, Reaches Cluster.step (fun _ _ ↦ True) (.start "10.0.0.1".toList 100 .new) c →
      ∀ before after who path read deadline time,
        c.history = before ++ .opened who path true read deadline time :: after →
          ∀ a ≠ who, holds before a path = true → deadline < time := by
  intro h
  obtain ⟨c, hr, hp⟩ := exists_reached Cluster.step (fun _ _ ↦ true)
    (.start "10.0.0.1".toList 100 .new)
    [.leader (.prepare 0 (.put ⟨"/f".toList, "RE<3,1>".toList⟩)), .leader .apply,
      .call 0 (.open "/f".toList 1 { lock := [.apply], seen := 1 }),
      .call 1 (.open "/f".toList 1 { lock := [.apply], seen := 1 })]
    Cluster.openedTwice (by decide +kernel)
  unfold Cluster.openedTwice at hp
  split at hp
  · rename_i e path read deadline time hhist
    obtain ⟨hheld, hnot⟩ := of_decide_eq_true hp
    exact hnot (h c (hr.mono fun _ _ _ ↦ trivial) [e] [] 1 path read deadline time hhist 0
      (by decide) hheld)
  · cases hp

end Spkdfs
