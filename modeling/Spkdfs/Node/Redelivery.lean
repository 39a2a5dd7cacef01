import Spkdfs.Node.TreeRefinement

namespace Spkdfs

open Library RocksDB

/-- What becomes of one attempt at a call. -/
inductive Attempt
  | lost
  | unanswered (env : Env)
  | answered (env : Env)

/-- The loop of `RETRY_WITH_CONDITION_TIMES` around a call to the leader: what the leader stores,
and the answer that ended the loop. -/
structure Retry where
  store : RocksDB
  retries : Nat
  reply : Option Bool

namespace Retry

def start (db : RocksDB) : Retry := ⟨db, 0, none⟩

def attempt (times : Nat) (req : Request) (r : Retry) (a : Attempt) : Option Retry :=
  if r.retries < times ∧ r.reply = none then
    match a with
    | .lost => some { r with retries := r.retries + 1 }
    | .unanswered env =>
      (serve r.store ⟨env, req⟩).map fun db ↦ { r with store := db, retries := r.retries + 1 }
    | .answered env =>
      (serve r.store ⟨env, req⟩).map fun db ↦
        ⟨db, r.retries + 1, some (decide (Accepted r.store ⟨env, req⟩))⟩
  else none

/-- Every attempt goes to the same namenode. -/
def Allowed (myIp : Str) (req : Request) (r : Retry) : Attempt → Prop
  | .lost => True
  | .unanswered env | .answered env =>
    env.myIp = myIp ∧ Call.absolute ⟨env, req⟩ = true ∧ Sheltered r.store ⟨env, req⟩

def allowedTest (myIp : Str) (req : Request) (r : Retry) : Attempt → Bool
  | .lost => true
  | .unanswered env | .answered env =>
    decide (env.myIp = myIp) && shelteredTest r.store ⟨env, req⟩

theorem allowed_of_test {myIp : Str} {req : Request} {r : Retry} {a : Attempt}
    (h : allowedTest myIp req r a = true) : Allowed myIp req r a := by
  cases a with
  | lost => trivial
  | unanswered env | answered env =>
    obtain ⟨hip, hs⟩ := Bool.and_eq_true_iff.mp h
    exact ⟨of_decide_eq_true hip, sheltered_of_test hs⟩

end Retry

/-- The requests that are granted again once they have been granted. -/
def Request.repeatable : Request → Bool
  | .putOk _ | .putOkBatch _ | .updateLock _ => true
  | _ => false

variable {db : RocksDB} {t t' : PathTree} {req : Request} {env env₀ : Env} {ops : List PathOp}

namespace Call

theorem asked_retimed (h : env.myIp = env₀.myIp) :
    Call.asked ⟨env, req⟩ = (Call.asked ⟨env₀, req⟩).map
      (List.map (.retimed lockRefreshInterval env.now)) := by
  cases req with
  | mkdir path => rfl
  | rm path => rfl
  | put req => simp only [asked, Option.map_map]; rfl
  | putBatch reqs => simp only [asked, Option.map_map]; rfl
  | putOk req => rfl
  | putOkBatch reqs =>
    simp only [asked, h]
    split <;> rfl
  | updateLock paths =>
    simp only [asked]
    split
    · rfl
    · simp only [Option.map_some, List.map_map]
      rfl

theorem asked_shape {call : Call} (h : call.asked = some ops) :
    (∃ op, ops = [op]) ∨ FileTree.Renewals ops := by
  obtain ⟨env, req⟩ := call
  cases req with
  | mkdir path => exact .inl ⟨_, (Option.some.inj h).symm⟩
  | rm path => exact .inl ⟨_, (Option.some.inj h).symm⟩
  | put req =>
    obtain ⟨file, -, rfl⟩ := Option.map_eq_some_iff.mp h
    exact .inl ⟨_, rfl⟩
  | putBatch reqs =>
    obtain ⟨files, -, rfl⟩ := Option.map_eq_some_iff.mp h
    exact .inl ⟨_, rfl⟩
  | putOk req => exact .inl ⟨_, (Option.some.inj h).symm⟩
  | putOkBatch reqs =>
    obtain ⟨-, he⟩ := Option.ite_none_right_eq_some.mp h
    exact .inl ⟨_, (Option.some.inj he).symm⟩
  | updateLock paths =>
    obtain ⟨-, he⟩ := Option.ite_none_left_eq_some.mp h
    exact .inr ⟨_, paths.map .ofStr, by rw [List.map_map]; exact (Option.some.inj he).symm⟩

theorem asked_repeatable {call : Call} (h : call.asked = some ops)
    (hr : call.request.repeatable = true) :
    (∃ files, ops = [.commit files]) ∨ FileTree.Renewals ops := by
  obtain ⟨env, req⟩ := call
  cases req with
  | putOk req => exact .inl ⟨_, (Option.some.inj h).symm⟩
  | putOkBatch reqs =>
    obtain ⟨-, he⟩ := Option.ite_none_right_eq_some.mp h
    exact .inl ⟨_, (Option.some.inj he).symm⟩
  | updateLock paths =>
    obtain ⟨-, he⟩ := Option.ite_none_left_eq_some.mp h
    exact .inr ⟨_, paths.map .ofStr, by rw [List.map_map]; exact (Option.some.inj he).symm⟩
  | _ => cases hr

end Call

/-- What the tree answers, from what was asked of the same namenode at some other time. -/
theorem PathTree.answer_retimed (t : PathTree) (h : env.myIp = env₀.myIp) :
    t.answer ⟨env, req⟩ = match Call.asked ⟨env₀, req⟩ with
      | none => (t, false)
      | some ops => t.exec (ops.map (.retimed lockRefreshInterval env.now)) := by
  rw [answer, Call.asked_retimed h]
  cases Call.asked ⟨env₀, req⟩ <;> rfl

namespace Retry

variable {r r' : Retry} {times : Nat} {a : Attempt}

/-- A call under way. None of its attempts was granted so far, or one was, and then the tree is what
that one makes of it. -/
inductive Outcome (t : PathTree) (env₀ : Env) (req : Request) (r : Retry) (t' : PathTree) : Prop
  | pending (hsame : t' = t ∨ ∃ ops, Call.asked ⟨env₀, req⟩ = some ops ∧ t.Pending ops t')
      (hreply : r.reply ≠ some true)
  | done {ops : List PathOp} (hasked : Call.asked ⟨env₀, req⟩ = some ops)
      (hdone : t.Done lockRefreshInterval ops t')
      (hreply : req.repeatable = true → r.reply ≠ some false)

theorem Outcome.pending_of_none (h : t' = t ∨ ∃ ops, Call.asked ⟨env₀, req⟩ = some ops ∧
    t.Pending ops t') (hasked : Call.asked ⟨env₀, req⟩ = none) : t' = t := by
  rcases h with he | ⟨ops, hops, -⟩
  · exact he
  · rw [hasked] at hops
    cases hops

/-- One more attempt, whose answer comes back or does not. -/
theorem Outcome.executed (h : Outcome t env₀ req r t')
    (hip : env.myIp = env₀.myIp)
    (hreply : r'.reply = none ∨ r'.reply = some (t'.answer ⟨env, req⟩).2) :
    Outcome t env₀ req r' (t'.answer ⟨env, req⟩).1 := by
  rw [t'.answer_retimed hip] at hreply ⊢
  cases hasked : Call.asked ⟨env₀, req⟩ with
  | none =>
    simp only [hasked] at hreply ⊢
    cases h with
    | pending hsame _ =>
      refine .pending (.inl (pending_of_none hsame hasked)) ?_
      rcases hreply with he | he <;> simp [he]
    | done hops => rw [hasked] at hops; cases hops
  | some ops =>
    simp only [hasked] at hreply ⊢
    have hshape := Call.asked_shape hasked
    cases h with
    | pending hsame _ =>
      have hpending : t.Pending ops t' := by
        rcases hsame with rfl | ⟨ops', hops', hp⟩
        · exact .inl rfl
        · rw [hasked] at hops'
          exact Option.some.inj hops' ▸ hp
      rcases hpending.exec hshape lockRefreshInterval env.now with ⟨hb, hp⟩ | ⟨hb, hd⟩
      · refine .pending (.inr ⟨ops, hasked, hp⟩) ?_
        rcases hreply with he | he <;> simp [he, hb]
      · refine .done hasked hd fun _ ↦ ?_
        rcases hreply with he | he <;> simp [he, hb]
    | done hops hdone _ =>
      rw [hasked] at hops
      obtain rfl := Option.some.inj hops
      refine .done hasked (hdone.exec hshape env.now) fun hrep ↦ ?_
      have hb := hdone.granted_again (Call.asked_repeatable hasked hrep) env.now
      rcases hreply with he | he <;> simp [he, hb]

theorem attempt_cases (h : r.attempt times req a = some r') :
    a = .lost ∧ r'.store = r.store ∧ r'.reply = none ∨
      ∃ env, (a = .unanswered env ∨ a = .answered env) ∧
        serve r.store ⟨env, req⟩ = some r'.store ∧
        (r'.reply = none ∨ r'.reply = some (decide (Accepted r.store ⟨env, req⟩))) := by
  obtain ⟨⟨-, hnone⟩, h⟩ := Option.ite_none_right_eq_some.mp h
  cases a with
  | lost =>
    obtain rfl := Option.some.inj h
    exact .inl ⟨rfl, rfl, hnone⟩
  | unanswered env =>
    obtain ⟨db, hserve, rfl⟩ := Option.map_eq_some_iff.mp h
    exact .inr ⟨env, .inl rfl, hserve, .inl hnone⟩
  | answered env =>
    obtain ⟨db, hserve, rfl⟩ := Option.map_eq_some_iff.mp h
    exact .inr ⟨env, .inr rfl, hserve, .inr rfl⟩

theorem outcome_of_reaches (h : Refines db t) {myIp : Str}
    (hr : Reaches (attempt times req) (Allowed myIp req) (.start db) r) :
    ∃ t', Refines r.store t' ∧ Outcome t ⟨myIp, 0, 0⟩ req r t' := by
  refine hr.invariant (I := fun r ↦ ∃ t', Refines r.store t' ∧ Outcome t ⟨myIp, 0, 0⟩ req r t')
    ⟨t, h, .pending (.inl rfl) (Option.some_ne_none _).symm⟩ ?_
  rintro r a r' - ⟨t', hrefines, ho⟩ hallowed hstep
  obtain ⟨-, hstore, hreply⟩ | ⟨env, ha, hserve, hreply⟩ := attempt_cases hstep
  · refine ⟨t', hstore ▸ hrefines, ?_⟩
    cases ho with
    | pending hsame _ => exact .pending hsame (by rw [hreply]; exact (Option.some_ne_none _).symm)
    | done hasked hdone _ =>
      exact .done hasked hdone fun _ ↦ by rw [hreply]; exact (Option.some_ne_none _).symm
  · obtain ⟨hip, habsolute, hsheltered⟩ : env.myIp = myIp ∧ Call.absolute ⟨env, req⟩ = true ∧
        Sheltered r.store ⟨env, req⟩ := by
      rcases ha with rfl | rfl <;> exact hallowed
    obtain ⟨db', answers, hagree⟩ := hrefines.agree habsolute hsheltered
    rw [serve, hagree.served, Option.map_some, Option.some.injEq] at hserve
    obtain rfl := hserve
    refine ⟨_, hrefines.step hagree, ho.executed hip (hreply.imp_right fun he ↦ ?_)⟩
    rw [he, Option.some.injEq, Bool.eq_iff_iff, decide_eq_true_eq]
    exact hagree.accepted

end Retry

/-- A call that is tried again until it is answered takes effect at most once, whichever of its
attempts got through: nothing is changed but the ends of leases, or what one attempt alone would
change. An accepted call has taken effect, and a refused commit or renewal has not. -/
theorem retried_call_takes_effect_once {times : Nat} {myIp : Str} {r : Retry}
    (h : Reaches lockstep Sheltering (.empty, .bare _ _ _ _) (db, t))
    (hr : Reaches (Retry.attempt times req) (Retry.Allowed myIp req) (.start db) r) :
    ∃ t' : PathTree, (∀ p, Holds r.store p (t'.item p)) ∧
      (t'.SameUpToLeases t ∧ r.reply ≠ some true ∨
        ∃ env : Env, (t.answer ⟨env, req⟩).2 = true ∧
          t'.SameUpToLeases (t.answer ⟨env, req⟩).1 ∧
          (req.repeatable = true → r.reply ≠ some false)) := by
  obtain ⟨t', hrefines, ho⟩ := Retry.outcome_of_reaches (refines_of_reaches h) hr
  refine ⟨t', hrefines.holds, ?_⟩
  cases ho with
  | pending hsame hreply =>
    refine .inl ⟨?_, hreply⟩
    rcases hsame with rfl | ⟨ops, -, hp⟩
    · exact .refl t'
    · exact hp.same
  | @done ops hasked hdone hreply =>
    obtain ⟨now, hgranted, hsame⟩ := hdone.granted
    have hanswer : t.answer ⟨⟨myIp, now, 0⟩, req⟩ =
        t.exec (ops.map (.retimed lockRefreshInterval now)) := by
      rw [@PathTree.answer_retimed req ⟨myIp, now, 0⟩ ⟨myIp, 0, 0⟩ t rfl, hasked]
    exact .inr ⟨⟨myIp, now, 0⟩, by rw [hanswer]; exact hgranted,
      by rw [hanswer]; exact hsame, hreply⟩

/-- The answer to the first attempt is lost, and the second one is refused. -/
theorem retried_call_takes_effect_once_refused :
    ∃ (r : Retry) (env : Env), r.retries = 2 ∧ r.reply = some false ∧
      (PathTree.answer (.bare _ _ _ _) ⟨env, .mkdir "/a".toList⟩).2 = true := by
  obtain ⟨r, hr, hp⟩ := exists_reached (Retry.attempt 3 (.mkdir "/a".toList))
    (Retry.allowedTest "10.0.0.1".toList (.mkdir "/a".toList)) (.start .empty)
    [.unanswered ⟨"10.0.0.1".toList, 100, 0⟩, .answered ⟨"10.0.0.1".toList, 107, 0⟩]
    (fun r ↦ decide (r.retries = 2 ∧ r.reply = some false ∧
      kindAt r.store (FullPath.ofStr "/a".toList).str = some .dir)) (by decide +kernel)
  obtain ⟨hretries, hreply, hdir⟩ := of_decide_eq_true hp
  obtain ⟨t', hholds, htold⟩ :=
    retried_call_takes_effect_once .refl (hr.mono fun r a ↦ Retry.allowed_of_test)
  refine ⟨r, ?_⟩
  rcases htold with ⟨hsame, -⟩ | ⟨env, hgranted, -⟩
  · have hnone : (FileTree.bare FullPath.parent .top StorageType Contents).item
        (.ofStr "/a".toList) = none := FileTree.item_bare_of_ne (by decide)
    rw [(hholds _).kindAt, hsame.item_eq_none.mpr hnone] at hdir
    cases hdir
  · exact ⟨env, hretries, hreply, hgranted⟩

end Spkdfs
