import Spkdfs.Node.Batch

namespace Spkdfs

open Library RocksDB

structure Response where
  success : Bool := false
  failInfo : Option Fault := none
deriving DecidableEq

namespace Response

def succResponse (response : Response) : Response := { response with success := true }

def failResponse (_ : Response) (fault : Fault) : Response := ⟨false, some fault⟩

end Response

namespace Namenode

/-- The responses that `update_lock` may send. The first entry has taken the `done_guard`: the
response goes out as its closure has written it, and the other closures have nothing to send. The
exception of the handler is written before that, between `succ_response` and the end of the
closure, or too late. -/
def lockResponses : List Entry × Option Fault → List Response
  | ([], none) => [{}]
  | ([], some fault) => [Response.failResponse {} fault]
  | (_ :: _, none) => [Response.succResponse {}]
  | (_ :: _, some fault) =>
    [(Response.failResponse {} fault).succResponse, (Response.succResponse {}).failResponse fault,
      Response.succResponse {}]

end Namenode

/-- The request is carried out, or it fails and leaves the store alone. -/
def AllOrNothing (db : RocksDB) (env : Env) (paths : List Str) (db' : RocksDB)
    (response : Response) : Prop :=
  response.success = true ∧ (∀ p ∈ paths, ∃ j, lookup db' (simplifyPath p) = some j ∧
    j.ddlLock = env.now + lockRefreshInterval) ∨
  response.success = false ∧ db' = db

/-- What the loop has done with the paths up to the first one that `ls` refuses. -/
structure Refreshed (db : RocksDB) (now : Nat) (good : List Str) (is : List Inode) : Prop where
  each : List.Forall₂ (fun p i ↦ ∃ j, lookup db (simplifyPath p) = some j ∧ j.valid = true ∧
    i = j.updateDdlLock now) good is

section

variable {db db' : RocksDB} {env : Env} {now : Nat} {paths good rest : List Str} {is : List Inode}
  {path : Str}

theorem updateLockEntries_split (db : RocksDB) (now : Nat) (paths : List Str) :
    ∃ good rest is, paths = good ++ rest ∧ Refreshed db now good is ∧
      (Namenode.updateLockEntries db now paths).1 = is.map .opPut ∧
      (rest = [] ∧ (Namenode.updateLockEntries db now paths).2 = none ∨
        ∃ bad more fault, rest = bad :: more ∧ ¬ ValidAt db (simplifyPath bad) ∧
          (Namenode.updateLockEntries db now paths).2 = some fault) := by
  induction paths with
  | nil => exact ⟨[], [], [], rfl, ⟨.nil⟩, rfl, .inl ⟨rfl, rfl⟩⟩
  | cons p paths ih =>
    cases hls : RocksDB.ls db (.ofPath p) with
    | error fault =>
      have hbad : ¬ ValidAt db (simplifyPath p) := by
        rintro ⟨j, hj⟩
        rw [ls_eq_ok.mpr hj] at hls
        cases hls
      refine ⟨[], p :: paths, [], rfl, ⟨.nil⟩, ?_, .inr ⟨p, paths, fault, rfl, hbad, ?_⟩⟩ <;>
        simp only [Namenode.updateLockEntries, hls, List.map_nil]
    | ok j =>
      obtain ⟨good, rest, is, rfl, hrefreshed, hentries, hend⟩ := ih
      obtain ⟨hj, hvalid⟩ := ls_eq_ok.mp hls
      refine ⟨p :: good, rest, j.updateDdlLock now :: is, rfl,
        ⟨.cons ⟨j, hj, hvalid, rfl⟩ hrefreshed.each⟩, ?_, ?_⟩
      · simp only [Namenode.updateLockEntries, hls, hentries, List.map_cons]
      · simpa only [Namenode.updateLockEntries, hls] using hend

/-- The default root is not locked. -/
theorem ddlLock_of_not_stored {j : Inode} (h : lookup db path = some j) (hnone : db.find path = none) :
    j.ddlLock = 0 := by
  simp only [lookup, hnone] at h
  split_ifs at h with hroot
  exact (Option.some.inj h) ▸ rfl

theorem applyAll_map_opPut (db : RocksDB) (is : List Inode) :
    applyAll db (is.map .opPut) =
      some (db.write (is.map .inode), List.replicate is.length .success) := by
  induction is generalizing db with
  | nil => rfl
  | cons i is ih =>
    have hi : RaftNN.onApply db (.opPut i) = some (db.put (.inode i), .success) := rfl
    simp only [List.map_cons, applyAll, hi, Option.bind_some, ih, Option.map_some,
      Table.write_cons, List.length_cons, List.replicate_succ]

namespace Refreshed

theorem valid (h : Refreshed db now good is) (hp : path ∈ good) : ValidAt db (simplifyPath path) := by
  obtain ⟨i, -, j, hj, hv, -⟩ := forall₂_mem_left h.each hp
  exact ⟨j, hj, hv⟩

theorem eq_nil (h : Refreshed db now [] is) : is = [] := List.forall₂_nil_left_iff.mp h.each

theorem fullpath {i : Inode} (h : Refreshed db now good is) (hi : i ∈ is) :
    ∃ p ∈ good, i.fullpath.str = simplifyPath p ∧
      ∃ j, lookup db (simplifyPath p) = some j ∧ i = j.updateDdlLock now := by
  obtain ⟨p, hp, j, hj, -, rfl⟩ := forall₂_mem_right h.each hi
  exact ⟨p, hp, fullpath_of_lookup (i := j) hj, j, hj, rfl⟩

theorem lookup_good (h : Refreshed db now good is) (hp : path ∈ good) :
    ∃ j, lookup (db.write (is.map .inode)) (simplifyPath path) = some j ∧
      j.ddlLock = now + lockRefreshInterval := by
  obtain ⟨i, hi, j, hj, -, rfl⟩ := forall₂_mem_left h.each hp
  rcases lookup_write_cases db is (simplifyPath path) with ⟨i, hi, -, hl⟩ | ⟨hnone, -⟩
  · obtain ⟨q, -, -, k, -, rfl⟩ := h.fullpath hi
    exact ⟨_, hl, rfl⟩
  · have hfull : (j.updateDdlLock now).fullpath.str = simplifyPath path :=
      fullpath_of_lookup (i := j) hj
    exact absurd hfull (hnone _ hi)

/-- The store is the same again only where the leases already ended then. -/
theorem unchanged_iff (h : Refreshed db now good is) :
    db.write (is.map .inode) = db ↔ ∀ p ∈ good, ∃ j, lookup db (simplifyPath p) = some j ∧
      j.ddlLock = now + lockRefreshInterval := by
  constructor
  · intro hsame p hp
    obtain ⟨j, hj, hddl⟩ := h.lookup_good hp
    rw [hsame] at hj
    exact ⟨j, hj, hddl⟩
  · intro hall
    refine Table.ext (funext fun key ↦ ?_)
    by_cases hkey : key ∈ (is.map Value.inode).map Value.key
    · obtain ⟨v, hv, rfl, hfind⟩ := db.exists_find_write hkey
      obtain ⟨i, hi, rfl⟩ := List.mem_map.mp hv
      obtain ⟨p, hp, hfull, j, hj, rfl⟩ := h.fullpath hi
      obtain ⟨k, hk, hddl⟩ := hall p hp
      obtain rfl := Option.some.inj (hj.symm.trans hk)
      have hrefresh : j.updateDdlLock now = j := by
        rw [Inode.updateDdlLock, ← hddl]
      have hstored : db.find (simplifyPath p) ≠ none := by
        intro hnone
        have hzero := ddlLock_of_not_stored hj hnone
        have hinterval : 0 < lockRefreshInterval := by decide
        omega
      have hkey' : Value.key (.inode (j.updateDdlLock now)) = simplifyPath p := hfull
      rw [hfind, hkey', hrefresh, find_of_lookup hj hstored]
    · exact db.find_write_of_notMem hkey

end Refreshed

/-- Behind the first path that `ls` refuses nothing is proposed, and what was proposed before
is applied all the same. -/
theorem Refreshed.partial_iff {bad : Str} {more : List Str} {fault : Fault}
    (h : Refreshed db env.now good is) (hgood : good ≠ []) (paths : List Str)
    (hpaths : paths = good ++ bad :: more) :
    (∀ response ∈ Namenode.lockResponses (is.map .opPut, some fault),
        AllOrNothing db env paths (db.write (is.map .inode)) response) ↔
      ∀ p ∈ paths, ∃ j, lookup db (simplifyPath p) = some j ∧
        j.ddlLock = env.now + lockRefreshInterval := by
  obtain ⟨i, is, rfl⟩ : ∃ i is', is = i :: is' := by
    cases is with
    | nil => exact absurd (List.forall₂_nil_right_iff.mp h.each) hgood
    | cons i is => exact ⟨i, is, rfl⟩
  simp only [List.map_cons, Namenode.lockResponses, List.forall_mem_cons, List.not_mem_nil,
    false_implies, implies_true, and_true]
  constructor
  · rintro ⟨hsucceeded, hfailed, -⟩
    obtain ⟨hfalse, -⟩ | ⟨-, hsame⟩ := hfailed
    · cases hfalse
    obtain ⟨-, hall⟩ | ⟨hfalse, -⟩ := hsucceeded
    · have hwrite : db.write ((i :: is).map .inode) = db := hsame
      rw [← List.map_cons, hwrite] at hall
      exact hall
    · cases hfalse
  · intro hall
    have hwrite : db.write ((i :: is).map .inode) = db :=
      h.unchanged_iff.mpr fun p hp ↦ hall p (hpaths ▸ List.mem_append_left _ hp)
    rw [← List.map_cons, hwrite]
    exact ⟨.inl ⟨rfl, hall⟩, .inr ⟨rfl, rfl⟩, .inl ⟨rfl, hall⟩⟩

end

/-- All or nothing happens if every path is valid, or the first one is not, or all leases ended
then already. Otherwise the paths before the first one that is not valid are refreshed, and the
request is answered with success or with a failure. -/
theorem update_lock_all_or_nothing_iff (db : RocksDB) (env : Env) {paths : List Str}
    (hne : paths ≠ []) :
    (∃ db' answers, serveAnswered db ⟨env, .updateLock paths⟩ = some (db', answers) ∧
        ∀ response ∈ Namenode.lockResponses (Namenode.prepare db env (.updateLock paths)),
          AllOrNothing db env paths db' response) ↔
      (∀ p ∈ paths, ValidAt db (simplifyPath p)) ∨
        (∃ p, paths.head? = some p ∧ ¬ ValidAt db (simplifyPath p)) ∨
        ∀ p ∈ paths, ∃ j, lookup db (simplifyPath p) = some j ∧
          j.ddlLock = env.now + lockRefreshInterval := by
  obtain ⟨good, rest, is, hpaths, hrefreshed, hentries, hend⟩ :=
    updateLockEntries_split db env.now paths
  have hprepare : Namenode.prepare db env (.updateLock paths) =
      (is.map .opPut, (Namenode.updateLockEntries db env.now paths).2) := by
    rw [Namenode.prepare, Namenode.updateLock, if_neg hne, ← hentries]
  have hserve : serveAnswered db ⟨env, .updateLock paths⟩ =
      some (db.write (is.map .inode), List.replicate is.length .success) := by
    rw [serveAnswered, hprepare, applyAll_map_opPut]
  rw [hprepare]
  have hstore : (∃ db' answers, serveAnswered db ⟨env, .updateLock paths⟩ = some (db', answers) ∧
        ∀ response ∈ Namenode.lockResponses
            (is.map .opPut, (Namenode.updateLockEntries db env.now paths).2),
          AllOrNothing db env paths db' response) ↔
      ∀ response ∈ Namenode.lockResponses
          (is.map .opPut, (Namenode.updateLockEntries db env.now paths).2),
        AllOrNothing db env paths (db.write (is.map .inode)) response := by
    simp only [hserve, Option.some.injEq, Prod.mk.injEq]
    constructor
    · rintro ⟨db', answers, ⟨rfl, rfl⟩, hall⟩
      exact hall
    · exact fun hall ↦ ⟨_, _, ⟨rfl, rfl⟩, hall⟩
  rw [hstore]
  rcases hend with ⟨rfl, hnone⟩ | ⟨bad, more, fault, rfl, hbad, hsome⟩
  · rw [List.append_nil] at hpaths
    subst hpaths
    refine iff_of_true ?_ (.inl fun p hp ↦ hrefreshed.valid hp)
    rw [hnone]
    cases is with
    | nil => exact absurd (List.forall₂_nil_right_iff.mp hrefreshed.each) hne
    | cons i is =>
      intro response hr
      obtain rfl := List.mem_singleton.mp hr
      exact .inl ⟨rfl, fun p hp ↦ hrefreshed.lookup_good hp⟩
  · rw [hsome]
    cases good with
    | nil =>
      obtain rfl := hrefreshed.eq_nil
      refine iff_of_true ?_ (.inr (.inl ⟨bad, by rw [hpaths]; rfl, hbad⟩))
      intro response hr
      obtain rfl := List.mem_singleton.mp hr
      exact .inr ⟨rfl, rfl⟩
    | cons first good =>
      rw [hrefreshed.partial_iff (List.cons_ne_nil _ _) paths hpaths]
      constructor
      · exact fun hall ↦ .inr (.inr hall)
      · rintro (hvalid | ⟨p, hp, hnot⟩ | hall)
        · exact absurd (hvalid bad (by simp [hpaths])) hbad
        · rw [hpaths, List.cons_append, List.head?_cons, Option.some.injEq] at hp
          subst hp
          exact absurd (hrefreshed.valid List.mem_cons_self) hnot
        · exact hall

/-- A store with one file. -/
def singleFile : RocksDB := Table.empty.put (.inode { fullpath := .ofStr "/a".toList, valid := true })

def twoFiles : RocksDB := singleFile.put (.inode { fullpath := .ofStr "/b".toList, valid := true })

/-- One of the files is named twice. -/
theorem update_lock_all_or_nothing_repeated :
    let paths := ["/a".toList, "/b".toList, "/a".toList]
    ∃ db' answers, serveAnswered twoFiles (.at 7 (.updateLock paths)) = some (db', answers) ∧
      ∀ response ∈ Namenode.lockResponses
          (Namenode.prepare twoFiles (Call.at 7 (.updateLock paths)).env (.updateLock paths)),
        AllOrNothing twoFiles (Call.at 7 (.updateLock paths)).env paths db' response :=
  (update_lock_all_or_nothing_iff twoFiles _ (List.cons_ne_nil _ _)).mpr (.inl (by decide))

/-- The second path does not exist. The first one is refreshed, with an answer that says that both
are, or that none is. -/
theorem not_update_lock_all_or_nothing :
    ∃ db' answers, serveAnswered singleFile (.at 7 (.updateLock ["/a".toList, "/b".toList])) =
        some (db', answers) ∧
      ∀ response ∈ Namenode.lockResponses
          (Namenode.prepare singleFile (Call.at 7 (.updateLock ["/a".toList, "/b".toList])).env
            (.updateLock ["/a".toList, "/b".toList])),
        ¬ AllOrNothing singleFile (Call.at 7 (.updateLock ["/a".toList, "/b".toList])).env
          ["/a".toList, "/b".toList] db' response := by
  refine ⟨_, _, rfl, fun response _ ↦ ?_⟩
  rintro (⟨-, hall⟩ | ⟨-, hsame⟩)
  · obtain ⟨j, hj, -⟩ := hall "/b".toList (by decide)
    exact absurd (Option.isSome_iff_exists.mpr ⟨j, hj⟩) (by decide)
  · have hlocked := congrArg (fun db ↦ (lookup db "/a".toList).map (·.ddlLock)) hsame
    exact absurd hlocked (by decide)

end Spkdfs
