import Spkdfs.Client.FuseRead
import Spkdfs.Node.Redelivery

namespace Spkdfs

open Library RocksDB

def eexist : Int := 17
def eio : Int := 5

/-- The code in the answer of a handler that throws. -/
def Fault.code : Fault → ErrorCode
  | .message code _ => code
  | _ => .commonException

def Answer.fault : Answer → Option Fault
  | .success => none
  | .failure fault => some fault

/-- The calls of a mount that make and remove what a directory has. -/
inductive MountRequest
  | mkdir (path : Str)
  | rm (path : Str)
deriving DecidableEq

/-- Where such a call is: among the attempts of the `SDK`, of the first one or of that which `reinit`
makes, in `reinit`, or back. -/
inductive MountPlace
  | trying (again : Bool) (retries : Nat)
  | reconnecting
  | returned (again : Bool) (result : Int)
  | thrown
deriving DecidableEq

structure MountCall where
  store : RocksDB
  place : MountPlace

inductive MountStep
  | attempt (a : Attempt)
  /-- `check_leader` of a namenode that is not the leader. -/
  | misled (code : ErrorCode)
  | reinit (fault : Option Fault)

def MountCall.start (db : RocksDB) : MountCall := ⟨db, .trying false 0⟩

namespace MountRequest

def request : MountRequest → Request
  | .mkdir path => .mkdir path
  | .rm path => .rm path

def op : MountRequest → PathOp
  | .mkdir path => .mkdir (.ofStr path)
  | .rm path => .remove (.ofStr path)

/-- What `spkdfs_mkdir` and `spkdfs_rm` make of a code. The second one throws the others on. -/
def caught : MountRequest → ErrorCode → MountPlace
  | _, .pathExistsException => .returned true eexist
  | _, .pathNotExistsException => .returned true enoent
  | .mkdir _, _ => .returned true eio
  | .rm _, _ => .thrown

/-- `FUSE::mkdir` and `FUSE::rm` keep a `MessageException` to themselves, unless it comes from
`reinit` or behind it. -/
def refused (q : MountRequest) (again : Bool) (code : ErrorCode) : MountPlace :=
  if again then q.caught code else .returned false 0

def answered (q : MountRequest) (again : Bool) : Option Fault → MountPlace
  | none => .returned again 0
  | some fault => q.refused again fault.code

/-- An attempt whose answer does not come. What is thrown after the last one is no
`MessageException`. -/
def unanswered (again : Bool) (retries : Nat) : MountPlace :=
  if retries + 1 < 3 then .trying again (retries + 1)
  else if again then .returned true eio
  else .reconnecting

def attempt (q : MountRequest) (again : Bool) (retries : Nat) (db : RocksDB) :
    Attempt → Option MountCall
  | .lost => some ⟨db, unanswered again retries⟩
  | .unanswered env =>
    (serve db ⟨env, q.request⟩).map fun db ↦ ⟨db, unanswered again retries⟩
  | .answered env =>
    (serveAnswered db ⟨env, q.request⟩).map fun (db', answers) ↦
      ⟨db', q.answered again
        ((Namenode.prepare db env q.request).2 <|> answers.findSome? Answer.fault)⟩

def step (q : MountRequest) (c : MountCall) (a : MountStep) : Option MountCall :=
  match c.place, a with
  | .trying again retries, .attempt a => q.attempt again retries c.store a
  | .trying again _, .misled code => some { c with place := q.refused again code }
  | .reconnecting, .reinit none => some { c with place := .trying true 0 }
  | .reconnecting, .reinit (some (.message code _)) => some { c with place := q.caught code }
  | .reconnecting, .reinit (some _) => some { c with place := .returned true eio }
  | _, _ => none

/-- What the handlers that answer before the leader does throw has none of the codes for a path. -/
def Allowed (q : MountRequest) (c : MountCall) : MountStep → Prop
  | .attempt .lost => True
  | .attempt (.unanswered env) | .attempt (.answered env) =>
    Call.absolute ⟨env, q.request⟩ = true ∧ Sheltered c.store ⟨env, q.request⟩
  | .misled code => code = .redirectToMaster ∨ code = .commonException
  | .reinit fault => ∀ f ∈ fault, f.code = .commonException

def allowedTest (q : MountRequest) (c : MountCall) : MountStep → Bool
  | .attempt .lost => true
  | .attempt (.unanswered env) | .attempt (.answered env) => shelteredTest c.store ⟨env, q.request⟩
  | .misled code => decide (code = .redirectToMaster ∨ code = .commonException)
  | .reinit fault => fault.all fun f ↦ decide (f.code = .commonException)

theorem allowed_of_test {q : MountRequest} {c : MountCall} {a : MountStep}
    (h : q.allowedTest c a = true) : q.Allowed c a := by
  match a with
  | .attempt .lost => trivial
  | .attempt (.unanswered env) | .attempt (.answered env) => exact sheltered_of_test h
  | .misled code =>
    have hcode : code = .redirectToMaster ∨ code = .commonException := of_decide_eq_true h
    exact hcode
  | .reinit none => exact fun f hf ↦ absurd hf (Option.not_mem_none f)
  | .reinit (some fault) =>
    rintro f hf
    obtain rfl := Option.some.inj hf
    exact of_decide_eq_true h

/-- What a result says about the tree. -/
def Tells (q : MountRequest) (t : PathTree) (again : Bool) (result : Int) : Prop :=
  result = 0 ∨ again = true ∧ (result = eio ∨ match q with
    | .mkdir path => result = eexist ∧ t.item (.ofStr path) ≠ none ∨
        result = enoent ∧ t.item (FullPath.ofStr path).parent = none
    | .rm path => result = enoent ∧ t.item (.ofStr path) = none)

end MountRequest

variable {db db' : RocksDB} {t t' : PathTree} {path : Str} {env : Env} {q : MountRequest}
  {c c' : MountCall} {a : MountStep} {again : Bool} {retries : Nat} {fault : Fault}

namespace Refines

theorem mkdir_refused (h : Refines db t) (ha : path.head? = some '/')
    (hf : Namenode.mkdir db path = .error fault) :
    fault.code = .pathNotExistsException ∧ t.item (FullPath.ofStr path).parent = none ∨
      fault.code = .pathExistsException ∧ t.item (.ofStr path) ≠ none := by
  have habs := FullPath.absolute_ofStr ha
  have hparent : pathExists db (Inode.getDefaultDir path).parentPath =
      .ok (t.item (FullPath.ofStr path).parent).isSome := h.pathExists_eq habs.parent
  have hown : pathExists db (Inode.getDefaultDir path).fullpath.str =
      .ok (t.item (.ofStr path)).isSome := h.pathExists_eq habs
  rw [Namenode.mkdir, Namenode.requirePath, if_neg (ne_nil_of_rooted ha), mkdirPath_of_absolute ha,
    prepareMkdir, tryToAdd, hparent, hown] at hf
  cases hp : t.item (FullPath.ofStr path).parent with
  | none =>
    rw [hp] at hf
    obtain rfl := Except.error.inj hf
    exact .inl ⟨rfl, rfl⟩
  | some x =>
    cases ho : t.item (.ofStr path) with
    | none =>
      rw [hp, ho] at hf
      cases hf
    | some y =>
      rw [hp, ho] at hf
      obtain rfl := Except.error.inj hf
      exact .inr ⟨rfl, Option.some_ne_none y⟩

theorem rm_refused (h : Refines db t) (ha : path.head? = some '/')
    (hf : Namenode.rm db path = .error fault) :
    fault.code = .pathNotExistsException ∧ t.item (.ofStr path) = none := by
  have hown : pathExists db (Inode.ofPath path).fullpath.str = .ok (t.item (.ofStr path)).isSome :=
    h.pathExists_eq (FullPath.absolute_ofStr ha)
  rw [Namenode.rm, Namenode.requirePath, if_neg (ne_nil_of_rooted ha), prepareRm, tryToRm,
    hown] at hf
  cases ho : t.item (.ofStr path) with
  | none =>
    rw [ho] at hf
    obtain rfl := Except.error.inj hf
    exact ⟨rfl, rfl⟩
  | some x =>
    rw [ho] at hf
    cases hf

end Refines

namespace MountRequest

theorem answer_request (t : PathTree) (env : Env) (q : MountRequest) :
    t.answer ⟨env, q.request⟩ = t.exec [q.op] := by
  cases q with
  | mkdir path | rm path => rfl

/-- What is granted once is not granted again. -/
theorem not_grants_of_effect (h : t'.item = t.effect q.op) : ¬ t'.Grants q.op := by
  cases q with
  | mkdir path =>
    rintro ⟨-, hfree⟩
    rw [h, op, FileTree.effect, Function.update_self] at hfree
    cases hfree
  | rm path =>
    rintro ⟨-, hin, -⟩
    rw [h, op, FileTree.effect, Function.update_self] at hin
    exact hin rfl

theorem head_of_absolute {path : Str} (h : Call.absolute ⟨env, q.request⟩ = true)
    (hq : q.request.paths = [path]) : path.head? = some '/' :=
  Refines.head_of_absolute h (hq ▸ List.mem_singleton_self path)

theorem error_of_proposed {x : Except Fault (List Entry)}
    (h : (Namenode.proposed x).2 = some fault) : x = .error fault := by
  cases x with
  | ok entries => cases h
  | error f =>
    obtain rfl := Option.some.inj h
    rfl

/-- The tree explains the refusal of a namenode that is the leader. -/
theorem tells_of_refused (h : Refines db t) (ha : Call.absolute ⟨env, q.request⟩ = true)
    (hf : (Namenode.prepare db env q.request).2 = some fault) {again' : Bool} {result : Int}
    (hp : q.refused again fault.code = .returned again' result) : q.Tells t again' result := by
  cases again with
  | false =>
    cases hp
    exact .inl rfl
  | true =>
    rw [refused, if_pos rfl] at hp
    cases q with
    | mkdir path =>
      have hmkdir : Namenode.mkdir db path = .error fault := error_of_proposed hf
      rcases h.mkdir_refused (head_of_absolute ha rfl) hmkdir with ⟨hc, hnone⟩ | ⟨hc, hsome⟩
      · rw [hc] at hp
        cases hp
        exact .inr ⟨rfl, .inr (.inr ⟨rfl, hnone⟩)⟩
      · rw [hc] at hp
        cases hp
        exact .inr ⟨rfl, .inr (.inl ⟨rfl, hsome⟩)⟩
    | rm path =>
      have hrm : Namenode.rm db path = .error fault := error_of_proposed hf
      obtain ⟨hc, hnone⟩ := h.rm_refused (head_of_absolute ha rfl) hrm
      rw [hc] at hp
      cases hp
      exact .inr ⟨rfl, .inr ⟨rfl, hnone⟩⟩

/-- Nothing has happened, or what the request asks for, once. -/
def Effect (q : MountRequest) (t t' : PathTree) : Prop :=
  t' = t ∨ t.Grants q.op ∧ t'.item = t.effect q.op

/-- An attempt that arrives, and its answer. -/
theorem Effect.served {answers : List Answer} (he : q.Effect t t') (h : Refines db t')
    (ha : Call.absolute ⟨env, q.request⟩ = true) (hg : Sheltered db ⟨env, q.request⟩)
    (hs : serveAnswered db ⟨env, q.request⟩ = some (db', answers)) :
    ∃ u, Refines db' u ∧ q.Effect t u ∧ ∀ again again' result,
      q.answered again ((Namenode.prepare db env q.request).2 <|> answers.findSome? Answer.fault) =
        .returned again' result → q.Tells u again' result := by
  obtain ⟨db₁, answers₁, hagree⟩ := h.agree ha hg
  obtain ⟨rfl, rfl⟩ := Prod.mk.inj (Option.some.inj (hs.symm.trans hagree.served))
  have hnext := h.step hagree
  have haccepted : (Namenode.prepare db env q.request).2 = none ↔ (t'.exec [q.op]).2 = true := by
    rw [← answer_request t' env q]
    exact hagree.accepted
  rw [answer_request] at hnext
  refine ⟨_, hnext, ?_⟩
  by_cases hgrants : t'.Grants q.op
  · obtain ⟨hitem, htrue⟩ := FileTree.exec_of_grants hgrants
    refine ⟨.inr ?_, fun again again' result hp ↦ ?_⟩
    · rcases he with rfl | ⟨-, hdone⟩
      · exact ⟨hgrants, hitem⟩
      · exact absurd hgrants (not_grants_of_effect hdone)
    · have hsuccess : answers.findSome? Answer.fault = none := by
        refine List.findSome?_eq_none_iff.mpr fun answer hanswer ↦ ?_
        rw [hagree.applied answer hanswer]
        rfl
      rw [haccepted.mpr htrue, hsuccess] at hp
      cases hp
      exact .inl rfl
  · have hsame := FileTree.exec_of_not_grants hgrants
    rw [hsame] at haccepted ⊢
    refine ⟨he, fun again again' result hp ↦ ?_⟩
    cases hf : (Namenode.prepare db env q.request).2 with
    | none => exact absurd (haccepted.mp hf) Bool.false_ne_true
    | some fault =>
      rw [hf] at hp
      exact tells_of_refused h ha hf hp

/-- What holds of the call wherever it is. -/
def Kept (q : MountRequest) (t : PathTree) (c : MountCall) : Prop :=
  ∃ t', Refines c.store t' ∧ q.Effect t t' ∧
    ∀ again result, c.place = .returned again result → q.Tells t' again result

theorem tells_of_unanswered {again' : Bool} {result : Int}
    (h : unanswered again retries = .returned again' result) : q.Tells t again' result := by
  rw [unanswered] at h
  split_ifs at h with hmore hagain
  cases h
  exact .inr ⟨rfl, .inl rfl⟩

theorem tells_of_caught {code : ErrorCode} {result : Int}
    (hcode : code = .redirectToMaster ∨ code = .commonException)
    (h : q.caught code = .returned again result) : q.Tells t again result := by
  rcases hcode with rfl | rfl <;> cases q with
  | mkdir path =>
    cases h
    exact .inr ⟨rfl, .inl rfl⟩
  | rm path => cases h

theorem tells_of_misled {code : ErrorCode} {again' : Bool} {result : Int}
    (hcode : code = .redirectToMaster ∨ code = .commonException)
    (h : q.refused again code = .returned again' result) : q.Tells t again' result := by
  cases again with
  | false =>
    cases h
    exact .inl rfl
  | true => exact tells_of_caught hcode h

theorem Kept.attempt {a : Attempt} (h : q.Kept t c) (ha : q.Allowed c (.attempt a))
    (hs : q.attempt again retries c.store a = some c') : q.Kept t c' := by
  obtain ⟨t', hrefines, he, -⟩ := h
  cases a with
  | lost =>
    obtain rfl := Option.some.inj hs
    exact ⟨t', hrefines, he, fun again result hp ↦ tells_of_unanswered hp⟩
  | unanswered env =>
    obtain ⟨db, hserve, rfl⟩ := Option.map_eq_some_iff.mp hs
    obtain ⟨⟨db, answers⟩, hserved, rfl⟩ := Option.map_eq_some_iff.mp hserve
    obtain ⟨u, hu, heu, -⟩ := he.served hrefines ha.1 ha.2 hserved
    exact ⟨u, hu, heu, fun again result hp ↦ tells_of_unanswered hp⟩
  | answered env =>
    obtain ⟨⟨db, answers⟩, hserved, rfl⟩ := Option.map_eq_some_iff.mp hs
    obtain ⟨u, hu, heu, htells⟩ := he.served hrefines ha.1 ha.2 hserved
    exact ⟨u, hu, heu, htells again⟩

theorem Kept.step (h : q.Kept t c) (ha : q.Allowed c a) (hs : q.step c a = some c') :
    q.Kept t c' := by
  obtain ⟨store, place⟩ := c
  cases place with
  | trying again retries =>
    cases a with
    | attempt a => exact h.attempt ha hs
    | misled code =>
      obtain rfl := Option.some.inj hs
      obtain ⟨t', hrefines, he, -⟩ := h
      exact ⟨t', hrefines, he, fun again result hp ↦ tells_of_misled ha hp⟩
    | reinit fault => cases hs
  | reconnecting =>
    obtain ⟨t', hrefines, he, -⟩ := h
    cases a with
    | attempt a | misled code => cases hs
    | reinit fault =>
      cases fault with
      | none =>
        obtain rfl := Option.some.inj hs
        exact ⟨t', hrefines, he, fun again result hp ↦ by cases hp⟩
      | some fault =>
        have hcode : fault.code = .commonException := ha fault rfl
        cases fault with
        | message code info =>
          obtain rfl := Option.some.inj hs
          exact ⟨t', hrefines, he, fun again result hp ↦ tells_of_caught (.inr hcode) hp⟩
        | runtime | invalidArgument | outOfRange | assertion =>
          obtain rfl := Option.some.inj hs
          refine ⟨t', hrefines, he, fun again result hp ↦ ?_⟩
          cases hp
          exact .inr ⟨rfl, .inl rfl⟩
  | returned | thrown => cases a <;> cases hs

theorem rm_of_caught {code : ErrorCode} (h : q.caught code = .thrown) : ∃ path, q = .rm path := by
  cases q with
  | mkdir path => cases code <;> cases h
  | rm path => exact ⟨path, rfl⟩

theorem rm_of_refused {code : ErrorCode} (h : q.refused again code = .thrown) :
    ∃ path, q = .rm path := by
  cases again with
  | false => cases h
  | true => exact rm_of_caught h

theorem unanswered_ne_thrown : unanswered again retries ≠ .thrown := by
  rw [unanswered]
  split_ifs <;> simp

theorem rm_of_attempt {a : Attempt} (hs : q.attempt again retries db a = some c')
    (ht : c'.place = .thrown) : ∃ path, q = .rm path := by
  cases a with
  | lost =>
    obtain rfl := Option.some.inj hs
    exact absurd ht unanswered_ne_thrown
  | unanswered env =>
    obtain ⟨db, -, rfl⟩ := Option.map_eq_some_iff.mp hs
    exact absurd ht unanswered_ne_thrown
  | answered env =>
    obtain ⟨⟨db, answers⟩, -, rfl⟩ := Option.map_eq_some_iff.mp hs
    have hanswered : q.answered again
        ((Namenode.prepare _ env q.request).2 <|> answers.findSome? Answer.fault) = .thrown := ht
    generalize ((Namenode.prepare _ env q.request).2 <|> _) = fault at hanswered
    cases fault with
    | none => cases hanswered
    | some fault => exact rm_of_refused hanswered

/-- Only `spkdfs_rm` lets an exception out. -/
theorem rm_of_thrown (hs : q.step c a = some c') (ht : c'.place = .thrown) :
    ∃ path, q = .rm path := by
  obtain ⟨store, place⟩ := c
  cases place with
  | trying again retries =>
    cases a with
    | attempt a => exact rm_of_attempt hs ht
    | misled code =>
      obtain rfl := Option.some.inj hs
      exact rm_of_refused ht
    | reinit fault => cases hs
  | reconnecting =>
    cases a with
    | attempt a | misled code => cases hs
    | reinit fault =>
      cases fault with
      | none =>
        obtain rfl := Option.some.inj hs
        cases ht
      | some fault =>
        cases fault with
        | message code info =>
          obtain rfl := Option.some.inj hs
          exact rm_of_caught ht
        | runtime | invalidArgument | outOfRange | assertion =>
          obtain rfl := Option.some.inj hs
          cases ht
  | returned | thrown => cases a <;> cases hs

end MountRequest

/-- A `mkdir` or `rm` of a mount takes effect at most once, however many of its messages are lost
and although it is tried on a new `SDK` again. Unless this happens, its result is 0, whatever the
namenode answers; after it, the result for a path that exists or does not exist is right about the
tree as the call leaves it. Only of an `rm` an exception can be all that comes back. -/
theorem mount_call_takes_effect_once
    (h : Reaches lockstep Sheltering (.empty, .bare _ _ _ _) (db, t))
    (hc : Reaches q.step q.Allowed (.start db) c) :
    ∃ t' : PathTree, (∀ p, Holds c.store p (t'.item p)) ∧
      (t' = t ∨ t.Grants q.op ∧ t'.item = t.effect q.op) ∧
      (∀ again result, c.place = .returned again result → q.Tells t' again result) ∧
      (c.place = .thrown → ∃ path, q = .rm path) := by
  have hstart : q.Kept t (.start db) :=
    ⟨t, refines_of_reaches h, .inl rfl, fun again result hp ↦ by cases hp⟩
  obtain ⟨t', hrefines, he, htells⟩ :=
    hc.invariant hstart fun _ _ _ _ hkept ha hs ↦ hkept.step ha hs
  have hthrown : c.place = .thrown → ∃ path, q = .rm path :=
    hc.invariant (fun hp ↦ by cases hp) fun _ _ _ _ _ _ hs ↦ MountRequest.rm_of_thrown hs
  exact ⟨t', hrefines.holds, he, htells, hthrown⟩

/-- The answers to the first three attempts are lost, and the fourth one finds the directory. -/
theorem mount_call_takes_effect_once_exists : ∃ c : MountCall, c.place = .returned true eexist ∧
    (PathTree.answer (.bare _ _ _ _) (.at 100 (.mkdir "/a".toList))).2 = true := by
  let env : Env := ⟨"10.0.0.1".toList, 100, 0⟩
  obtain ⟨c, hr, hp⟩ := exists_reached (MountRequest.step (.mkdir "/a".toList))
    (MountRequest.allowedTest (.mkdir "/a".toList)) (.start .empty)
    [.attempt (.unanswered env), .attempt .lost, .attempt .lost, .reinit none,
      .attempt (.answered env)]
    (fun c ↦ decide (c.place = .returned true eexist)) (by decide +kernel)
  have hplace := of_decide_eq_true hp
  obtain ⟨t', -, he, htells, -⟩ :=
    mount_call_takes_effect_once .refl (hr.mono fun c a ↦ MountRequest.allowed_of_test)
  refine ⟨c, hplace, ?_⟩
  rcases he with rfl | ⟨hgrants, -⟩
  · have hnone : (FileTree.bare FullPath.parent .top StorageType Contents).item
        (.ofStr "/a".toList) = none := FileTree.item_bare_of_ne (by decide)
    rcases htells _ _ hplace with he | ⟨-, he | ⟨-, hsome⟩ | ⟨he, -⟩⟩
    · exact absurd he (by decide)
    · exact absurd he (by decide)
    · exact absurd hnone hsome
    · exact absurd he (by decide)
  · exact (FileTree.exec_of_grants hgrants).2

end Spkdfs
