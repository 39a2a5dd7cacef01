import Spkdfs.Client.Frame

namespace Spkdfs

open Library Procedure Function

/-- A number that went through an `int`. -/
theorem toUInt64_toInt32_eq (n : Nat) : toUInt64 (toInt32 n) =
    if n % 2 ^ 32 < 2 ^ 31 then n % 2 ^ 32 else 2 ^ 64 - 2 ^ 32 + n % 2 ^ 32 := by
  rw [toUInt64, toInt32, BitVec.toNat_ofInt, BitVec.toInt_ofInt, Int.bmod_def]
  split_ifs <;> omega

theorem toUInt64_toInt32 {n : Nat} (h : n < 2 ^ 31) : toUInt64 (toInt32 n) = n := by
  rw [toUInt64_toInt32_eq, Nat.mod_eq_of_lt (by omega), if_pos h]

namespace SDK

variable {v v' : View} {path : Str} {during : List Action} {nodes : Datanodes}

theorem encodeBlocks_ok {storage : Option StorageType} {blocks : List (Nat × Str)}
    {sub sub' : List Str}
    (h : (encodeBlocks path nodes storage blocks sub).run v = some (.ok sub', v')) :
    ∀ i ∉ blocks.map (·.1), sub'[i]? = sub[i]? := by
  induction blocks generalizing sub v with
  | nil =>
    obtain ⟨hs, -⟩ := Prod.mk.inj (Option.some.inj h)
    obtain rfl := Except.ok.inj hs
    exact fun _ _ ↦ rfl
  | cons block rest ih =>
    obtain ⟨index, data⟩ := block
    rw [encodeBlocks] at h
    obtain ⟨s, u, -, h⟩ := bind_ok h
    intro i hi
    obtain ⟨hne, hrest⟩ := not_or.mp (List.mem_cons.not.mp hi)
    rw [ih h i hrest, List.getElem?_set_ne (Ne.symm hne)]

theorem getElem?_resize {sub : List Str} {n i : Nat} (h : i < sub.length) :
    (resize sub n)[i]? = sub[i]? := List.getElem?_append_left h

theorem getElem?_resize_getD {sub : List Str} {i n : Nat} (hi : i < n) :
    (resize sub n)[i]? = some ((sub[i]?).getD []) := by
  by_cases hin : i < sub.length
  · rw [getElem?_resize hin, List.getElem?_eq_getElem hin, Option.getD_some]
  · rw [resize, List.getElem?_append_right (Nat.le_of_not_lt hin), List.getElem?_replicate,
      if_pos (by omega), List.getElem?_eq_none (Nat.le_of_not_lt hin), Option.getD_none]

/-- The inode that `fsync` commits: the cached one, with new entries for the blocks written. -/
theorem fsync_commit {commit : Commit}
    (h : (fsync path nodes during).run v = some (.ok (some commit), v')) :
    ∃ read last block, v.sdk.cache path = some read ∧
      (dirtyBlocks (v.sdk.dir path)).getLast? = some (last, block) ∧
      (∀ i < read.sub.length, i ∉ commit.blocks → commit.inode.sub[i]? = read.sub[i]?) ∧
      commit.inode.filesize = toUInt64 (toInt32 (writtenSize read last block)) := by
  rw [fsync, run_bind_ok (run_get v)] at h
  dsimp only at h
  split at h
  · cases h
  split at h
  · cases h
  rename_i last block hlast
  obtain ⟨read, u, hget, h⟩ := bind_ok h
  obtain ⟨hcache, rfl⟩ := getInode_ok.mp hget
  obtain ⟨sub, w, hencode, h⟩ := bind_ok h
  obtain ⟨entry, w', hrpc, h⟩ := bind_ok h
  obtain ⟨l, rfl, hanswer⟩ := rpc_ok hrpc
  obtain ⟨committed, rfl, hsub, hsize⟩ := Leader.rpc_putOk hanswer
  dsimp only at h
  obtain ⟨hc, -⟩ := Prod.mk.inj (Option.some.inj h)
  obtain rfl := Option.some.inj (Except.ok.inj hc)
  refine ⟨read, last, block, hcache, hlast, fun i hi hni ↦ ?_, hsize⟩
  dsimp only at hni ⊢
  rw [hsub, encodeBlocks_ok hencode i hni, getElem?_resize hi]

theorem close_error {f : Fault} (h : (close path nodes during).run v = some (.error f, v')) :
    v'.sdk.cache = v.sdk.cache := by
  obtain ⟨f', h, -⟩ | ⟨commit, u, -, h⟩ := bind_run h
  · funext q
    exact keeps_fsync insulated_caches v _ v' rfl h
  · cases h

theorem close_ok {commit : Option Commit}
    (h : (close path nodes during).run v = some (.ok commit, v')) :
    ∃ u, (fsync path nodes during).run v = some (.ok commit, u) := by
  obtain ⟨commit', u, hsync, h⟩ := bind_ok h
  obtain ⟨hc, -⟩ := Prod.mk.inj (Option.some.inj h)
  obtain rfl := Except.ok.inj hc
  exact ⟨u, hsync⟩

end SDK

def Event.sessionStep (who : Nat) (path : Str) (read : Option Inode) : Event → Option Inode
  | .opened w q _ r .. => if w = who ∧ q = path then some r else read
  | .refused w q | .closed w q => if w = who ∧ q = path then none else read
  | .committed .. => read

def session (history : List Event) (who : Nat) (path : Str) : Option Inode :=
  history.foldl (Event.sessionStep who path) none

def Event.commitStep (path : Str) (inode : Option Inode) : Event → Option Inode
  | .committed _ q commit =>
    if simplifyPath q = simplifyPath path then some commit.inode else inode
  | _ => inode

def lastCommit (history : List Event) (path : Str) : Option Inode :=
  history.foldl (Event.commitStep path) none

def Inode.Extends (i j : Inode) : Prop := i.sub <+: j.sub ∧ i.filesize ≤ j.filesize

/-- The commit keeps the entries of the inode for all blocks but the ones it writes, and does
not cut the size. -/
def Commit.Preserves (commit : Commit) (i : Inode) : Prop :=
  (∀ k < i.sub.length, k ∉ commit.blocks → commit.inode.sub[k]? = i.sub[k]?) ∧
    i.filesize ≤ commit.inode.filesize

theorem Commit.Preserves.of_extends {commit : Commit} {i j : Inode} (h : commit.Preserves j)
    (he : i.Extends j) : commit.Preserves i := by
  obtain ⟨⟨more, hmore⟩, hsize⟩ := he
  refine ⟨fun k hk hnot ↦ ?_, hsize.trans h.2⟩
  rw [h.1 k (by rw [← hmore, List.length_append]; omega) hnot, ← hmore,
    List.getElem?_append_left hk]

def SDK.SizeFits (s : SDK) (path : Str) : Prop :=
  ∀ read last block, s.cache path = some read →
    (dirtyBlocks (s.dir path)).getLast? = some (last, block) →
      writtenSize read last block < 2 ^ 31

theorem SDK.preserves_of_fsync {v v' : View} {path : Str} {nodes : Datanodes}
    {during : List Action} {commit : Commit} {read : Inode} (hfits : v.sdk.SizeFits path)
    (hread : v.sdk.cache path = some read)
    (h : (fsync path nodes during).run v = some (.ok (some commit), v')) :
    commit.Preserves read := by
  obtain ⟨read', last, block, hcache, hlast, hsub, hsize⟩ := fsync_commit h
  obtain rfl := Option.some.inj (hread.symm.trans hcache)
  rw [toUInt64_toInt32 (hfits read last block hcache hlast)] at hsize
  exact ⟨hsub, hsize ▸ le_max_left _ _⟩

namespace Operation

variable {who : Nat} {q : Str} {x : Option Inode}

theorem keeps_cache (operation : Operation) (hq : q ≠ operation.path) :
    Keeps (SDK.Caches q x) operation.method := by
  cases operation with
  | «open» path flags waits => exact (SDK.keeps_open hq).bind fun _ ↦ keeps_pure _
  | write path offset data nodes => exact (SDK.keeps_writeData SDK.insulated_caches).bind fun _ ↦ keeps_pure _
  | fsync path nodes during => exact SDK.keeps_fsync SDK.insulated_caches
  | close path nodes during => exact SDK.keeps_close hq

theorem session_commits (who' : Nat) (path : Str) (outcome : Except Fault (Option Commit)) :
    (commits who' path outcome).foldl (Event.sessionStep who q) x = x := by
  unfold commits
  split <;> rfl

theorem session_events {who' : Nat} {before after : View}
    {outcome : Except Fault (Option Commit)} (operation : Operation)
    (h : ¬ (who' = who ∧ operation.path = q)) :
    (operation.events who' before after outcome).foldl (Event.sessionStep who q) x = x := by
  cases operation with
  | «open» path flags waits =>
    have hne : ¬ (who' = who ∧ path = q) := h
    cases outcome <;> simp [events, Event.sessionStep, hne]
  | write path offset data nodes => rfl
  | fsync path nodes during => exact session_commits ..
  | close path nodes during =>
    have hne : ¬ (who' = who ∧ path = q) := h
    cases outcome with
    | error f => rfl
    | ok commit => simp [events, session_commits, Event.sessionStep, hne]

theorem session_own {operation : Operation} {before after : View} {read : Inode}
    {outcome : Except Fault (Option Commit)}
    (hrun : operation.method.run before = some (outcome, after))
    (hx : ∀ r, x = some r → before.sdk.cache operation.path = some r)
    (h : (operation.events who before after outcome).foldl
      (Event.sessionStep who operation.path) x = some read) :
    after.sdk.cache operation.path = some read := by
  cases operation with
  | «open» path flags waits =>
    obtain ⟨hopen, rfl⟩ | ⟨f, -, rfl⟩ := open_run hrun
    · obtain ⟨remote, hcache, -⟩ := SDK.open_ok hopen
      have hremote : after.sdk.cache path = some remote := by rw [hcache, update_self]
      simp only [events, Operation.path, List.foldl_cons, List.foldl_nil, Event.sessionStep, and_self,
        if_true, hremote, Option.getD_some, Option.some.injEq] at h
      rw [← h]
      exact hremote
    · simp [events, Operation.path, Event.sessionStep] at h
  | write path offset data nodes =>
    have hmethod : Keeps (SDK.Caches path (some read))
        (method (.write path offset data nodes)) :=
      (SDK.keeps_writeData SDK.insulated_caches).bind fun _ ↦ keeps_pure _
    exact hmethod before outcome after (hx read h) hrun
  | fsync path nodes during =>
    rw [events, session_commits] at h
    exact SDK.keeps_fsync SDK.insulated_caches before outcome after (hx read h) hrun
  | close path nodes during =>
    cases outcome with
    | error f => exact (congrFun (SDK.close_error hrun) path).trans (hx read h)
    | ok commit => simp [events, Operation.path, session_commits, Event.sessionStep] at h

end Operation

namespace Cluster

variable {c c' : Cluster}

/-- The inode cached for a session is the one that its `open` has read. -/
def Sessions (c : Cluster) : Prop :=
  ∀ who path read, session c.history who path = some read → (c.sdks who).cache path = some read

theorem Sessions.call {who : Nat} {operation : Operation} (hc : c.Sessions)
    (h : c.step (.call who operation) = some c') : c'.Sessions := by
  obtain ⟨outcome, v, hrun, rfl⟩ := step_call h
  intro who' q read hread
  change session (c.history ++ _) who' q = some read at hread
  rw [session, List.foldl_append] at hread
  change (update c.sdks who v.sdk who').cache q = some read
  by_cases hown : who = who' ∧ operation.path = q
  · obtain ⟨rfl, rfl⟩ := hown
    rw [update_self]
    exact Operation.session_own hrun (fun r hr ↦ hc who operation.path r hr) hread
  · rw [Operation.session_events operation hown] at hread
    have hcached := hc who' q read hread
    by_cases hwho : who' = who
    · subst hwho
      rw [update_self]
      have hq : q ≠ operation.path := fun he ↦ hown ⟨rfl, he.symm⟩
      exact operation.keeps_cache hq (c.view who') outcome v hcached hrun
    · rw [update_of_ne hwho]
      exact hcached

/-- The condition on the steps: an `open` with a write mode gets from the slave an inode with
the content of the last commit of the path, and the sizes that are committed fit an `int`. -/
def UpToDate (c : Cluster) : Step → Prop
  | .call _ (.open path flags waits) =>
    writeMode flags = true → ∀ entry l db remote last,
      c.leader.rpc (.updateLock [path]) waits.lock = some (.ok entry, l) →
      l.replica waits.seen = some db → Namenode.ls db path = .ok remote →
      lastCommit c.history path = some last → last.Extends remote
  | .call who (.fsync path ..) | .call who (.close path ..) => (c.sdks who).SizeFits path
  | _ => True

end Cluster

def Event.Faithful (before : List Event) : Event → Prop
  | .opened _ path true read .. => ∀ last, lastCommit before path = some last → last.Extends read
  | .committed who path commit =>
    ∀ read, session before who path = some read → commit.Preserves read
  | _ => True

namespace Cluster

variable {c c' : Cluster}

theorem Sessions.step {s : Step} (hc : c.Sessions) (h : c.step s = some c') : c'.Sessions := by
  cases s with
  | call who operation => exact hc.call h
  | _ =>
    obtain ⟨hhist, hsdks⟩ := step_other h (by simp)
    intro who path read hread
    rw [hhist] at hread
    rw [hsdks]
    exact hc who path read hread

theorem faithful_step {s : Step} (hc : c.Sessions) (hf : Everywhere Event.Faithful c.history)
    (hg : c.UpToDate s) (h : c.step s = some c') : Everywhere Event.Faithful c'.history := by
  cases s with
  | leader action => exact (step_other h (by simp)).1 ▸ hf
  | replicate slave => exact (step_other h (by simp)).1 ▸ hf
  | refresh who => exact (step_other h (by simp)).1 ▸ hf
  | call who operation =>
    obtain ⟨outcome, v, hrun, rfl⟩ := step_call h
    cases operation with
    | «open» path flags waits =>
      obtain ⟨hopen, rfl⟩ | ⟨f, hopen, rfl⟩ := Operation.open_run hrun
      · refine hf.concat ?_
        cases hw : writeMode flags with
        | false => exact trivial
        | true =>
          intro last hlast
          obtain ⟨remote, hcache, hslave⟩ := SDK.open_ok hopen
          obtain ⟨entry, l, db, hrpc, hdb, hls⟩ := hslave hw
          rw [hcache, update_self, Option.getD_some]
          exact hg hw entry l db remote last hrpc hdb hls hlast
      · exact hf.concat trivial
    | write path offset data nodes => simpa [Operation.events] using hf
    | fsync path nodes during =>
      have hfits : (c.view who).sdk.SizeFits path := hg
      refine Operation.everywhere_commits hf fun commit he read hread ↦ ?_
      subst he
      exact SDK.preserves_of_fsync hfits (hc who path read hread) hrun
    | close path nodes during =>
      cases outcome with
      | error f => simpa [Operation.events] using hf
      | ok result =>
        have hfits : (c.view who).sdk.SizeFits path := hg
        obtain ⟨u, hsync⟩ := SDK.close_ok hrun
        have hcommit : Everywhere Event.Faithful
            (c.history ++ Operation.commits who path (.ok result)) := by
          refine Operation.everywhere_commits hf fun commit he read hread ↦ ?_
          obtain rfl := Except.ok.inj he
          exact SDK.preserves_of_fsync hfits (hc who path read hread) hsync
        have hclosed := hcommit.concat (y := Event.closed who path) trivial
        simpa [Operation.events] using hclosed

theorem faithful_of_reaches {myIp : Str} {now : Nat} {sdks : Nat → SDK}
    (h : Reaches step UpToDate (start myIp now sdks) c) :
    c.Sessions ∧ Everywhere Event.Faithful c.history := by
  refine h.invariant (I := fun c ↦ c.Sessions ∧ Everywhere Event.Faithful c.history)
    ⟨fun who path read hread ↦ ?_, everywhere_nil⟩ fun c s c' _ ⟨hc, hf⟩ hg hs ↦
      ⟨hc.step hs, faithful_step hc hf hg hs⟩
  simp [start, session] at hread

end Cluster

def Event.Switches (who : Nat) (path : Str) : Event → Prop
  | .opened w q .. | .refused w q | .closed w q => w = who ∧ q = path
  | .committed .. => False

def Event.CommitsTo (path : Str) : Event → Prop
  | .committed _ q _ => simplifyPath q = simplifyPath path
  | _ => False

theorem foldl_sessionStep {who : Nat} {path : Str} {x : Option Inode} {events : List Event}
    (h : ∀ e ∈ events, ¬ e.Switches who path) :
    events.foldl (Event.sessionStep who path) x = x := by
  induction events with
  | nil => rfl
  | cons e events ih =>
    have he : Event.sessionStep who path x e = x := by
      have hno := h e (by simp)
      cases e <;> simp_all [Event.sessionStep, Event.Switches]
    rw [List.foldl_cons, he]
    exact ih fun e' he' ↦ h e' (by simp [he'])

theorem foldl_commitStep {path : Str} {x : Option Inode} {events : List Event}
    (h : ∀ e ∈ events, ¬ e.CommitsTo path) : events.foldl (Event.commitStep path) x = x := by
  induction events with
  | nil => rfl
  | cons e events ih =>
    have he : Event.commitStep path x e = x := by
      have hno := h e (by simp)
      cases e <;> simp_all [Event.commitStep, Event.CommitsTo]
    rw [List.foldl_cons, he]
    exact ih fun e' he' ↦ h e' (by simp [he'])

/-- No update is lost between serial writers, as long as the slave has the last commit when
the second one opens the file and no size is cut to an `int`. -/
theorem serial_writer_preserves {myIp : Str} {now : Nat} {sdks : Nat → SDK} {c : Cluster}
    (h : Reaches Cluster.step Cluster.UpToDate (.start myIp now sdks) c)
    {a b : Nat} {p q : Str} {first second : Commit} {read : Inode} {deadline time : Nat}
    {before between during after : List Event}
    (hhist : c.history = before ++ .committed a p first :: (between ++
      .opened b q true read deadline time :: (during ++ .committed b q second :: after)))
    (hpath : simplifyPath p = simplifyPath q) (hbetween : ∀ e ∈ between, ¬ e.CommitsTo q)
    (hduring : ∀ e ∈ during, ¬ e.Switches b q) :
    (∀ i < first.inode.sub.length, i ∉ second.blocks →
      second.inode.sub[i]? = first.inode.sub[i]?) ∧
      first.inode.filesize ≤ second.inode.filesize := by
  obtain ⟨-, hf⟩ := Cluster.faithful_of_reaches h
  have hopened : c.history = (before ++ .committed a p first :: between) ++
      .opened b q true read deadline time :: (during ++ .committed b q second :: after) := by
    rw [hhist]
    simp
  have hcommitted : c.history = (before ++ .committed a p first :: (between ++
      .opened b q true read deadline time :: during)) ++ .committed b q second :: after := by
    rw [hhist]
    simp
  have hlast : lastCommit (before ++ .committed a p first :: between) q = some first.inode := by
    rw [lastCommit, List.foldl_append, List.foldl_cons, foldl_commitStep hbetween]
    simp [Event.commitStep, hpath]
  have hsession : session (before ++ .committed a p first :: (between ++
      .opened b q true read deadline time :: during)) b q = some read := by
    rw [session, List.foldl_append, List.foldl_cons, List.foldl_append, List.foldl_cons,
      foldl_sessionStep hduring]
    simp [Event.sessionStep]
  have hread : first.inode.Extends read := hf _ _ _ hopened _ hlast
  have hpreserves : second.Preserves read := hf _ _ _ hcommitted _ hsession
  exact hpreserves.of_extends hread

/-- One instance writes block 0 and closes the file, then another one writes block 1; its slave
has applied `seen` entries when it opens the file. -/
def serialWriters (seen : Nat) : List Cluster.Step :=
  [.leader (.prepare 0 (.put ⟨"/f".toList, "RE<3,1>".toList⟩)), .leader .apply,
    .call 0 (.open "/f".toList 1 { lock := [.apply], seen := 1 }),
    .call 0 (.write "/f".toList 0 ['a'] .byContent), .call 0 (.close "/f".toList .byContent [.apply]),
    .call 1 (.open "/f".toList 1 { lock := [.apply], seen := seen }),
    .call 1 (.write "/f".toList 1048576 ['b'] .byContent),
    .call 1 (.close "/f".toList .byContent [.apply])]

/-- `Cluster.UpToDate` as a test, for runs without an `fsync`. -/
def Cluster.upToDateTest (c : Cluster) : Step → Bool
  | .call _ (.open path _ waits) => (lastCommit c.history path).all fun last ↦
    (c.leader.rpc (.updateLock [path]) waits.lock).all fun p ↦
      (p.2.replica waits.seen).all fun db ↦ match Namenode.ls db path with
        | .ok remote => decide (last.sub <+: remote.sub ∧ last.filesize ≤ remote.filesize)
        | .error _ => true
  | .call _ (.fsync ..) => false
  | .call who (.close path ..) => ((c.sdks who).cache path).all fun read ↦
    (SDK.dirtyBlocks ((c.sdks who).dir path)).getLast?.all fun p ↦
      decide (SDK.writtenSize read p.1 p.2 < 2 ^ 31)
  | _ => true

/-- Whether both clients have committed `/f`, one after the other, and their commits pass
`test`. -/
def Cluster.handedOver (test : Commit → Commit → Bool) (c : Cluster) : Bool :=
  match c.history with
  | [_, .committed 0 p first, .closed 0 r, .opened 1 q true _ _ _, .committed 1 q' second, _] =>
    decide (p = "/f".toList ∧ r = "/f".toList ∧ q = "/f".toList ∧ q' = "/f".toList) &&
      test first second
  | _ => false

theorem Cluster.history_of_handedOver {c : Cluster} {test : Commit → Commit → Bool}
    (h : c.handedOver test = true) :
    ∃ e e' first second read deadline time,
      c.history = [e, .committed 0 "/f".toList first, .closed 0 "/f".toList,
        .opened 1 "/f".toList true read deadline time, .committed 1 "/f".toList second, e'] ∧
      test first second = true := by
  unfold Cluster.handedOver at h
  split at h
  · rename_i e p first r q read deadline time q' second e' hhist
    obtain ⟨hpath, ht⟩ := Bool.and_eq_true_iff.mp h
    obtain ⟨rfl, rfl, rfl, rfl⟩ := of_decide_eq_true hpath
    exact ⟨e, e', first, second, read, deadline, time, hhist, ht⟩
  · cases h

theorem serial_writer_preserves_up_to_date :
    ∃ c first second, Reaches Cluster.step Cluster.UpToDate
        (.start "10.0.0.1".toList 100 .new) c ∧
      .committed 0 "/f".toList first ∈ c.history ∧
      .committed 1 "/f".toList second ∈ c.history ∧ first.blocks = [0] ∧ second.blocks = [1] ∧
      (∀ i < first.inode.sub.length, i ∉ second.blocks →
        second.inode.sub[i]? = first.inode.sub[i]?) ∧
        first.inode.filesize ≤ second.inode.filesize := by
  obtain ⟨c, hr, hp⟩ := exists_reached Cluster.step Cluster.upToDateTest
    (.start "10.0.0.1".toList 100 .new) (serialWriters 3)
    (Cluster.handedOver fun first second ↦
      decide (first.blocks = [0] ∧ second.blocks = [1])) (by decide +kernel)
  have hcurrent : Reaches Cluster.step Cluster.UpToDate
      (.start "10.0.0.1".toList 100 .new) c := by
    refine hr.mono fun c s ht ↦ ?_
    unfold Cluster.UpToDate
    unfold Cluster.upToDateTest at ht
    split at ht
    · intro _ entry l db remote last hrpc hdb hls hlast
      simp only [hlast, hrpc, hdb, hls, Option.all_some, decide_eq_true_eq] at ht
      exact ht
    · cases ht
    · intro read last block hread hlast
      simp only [hread, hlast, Option.all_some] at ht
      exact of_decide_eq_true ht
    · trivial
  obtain ⟨e, e', first, second, read, deadline, time, hhist, ht⟩ := Cluster.history_of_handedOver hp
  obtain ⟨hfirst, hsecond⟩ := of_decide_eq_true ht
  refine ⟨c, first, second, hcurrent, by simp [hhist], by simp [hhist], hfirst, hsecond, ?_⟩
  have hsplit : c.history = [e] ++ .committed 0 "/f".toList first :: ([.closed 0 "/f".toList] ++
      .opened 1 "/f".toList true read deadline time ::
        ([] ++ .committed 1 "/f".toList second :: [e'])) := hhist
  exact serial_writer_preserves hcurrent hsplit rfl (by simp [Event.CommitsTo]) (by simp)

/-- The slave has not applied the commit of the first writer when the second one opens the
file: the entry of block 0 is lost. -/
theorem serial_writer_loses :
    ¬ ∀ c, Reaches Cluster.step (fun _ _ ↦ True) (.start "10.0.0.1".toList 100 .new) c →
      ∀ (a b : Nat) (p q : Str) (first second : Commit) (read : Inode) (deadline time : Nat)
        (before between during after : List Event),
        c.history = before ++ .committed a p first :: (between ++
          .opened b q true read deadline time :: (during ++ .committed b q second :: after)) →
        simplifyPath p = simplifyPath q → (∀ e ∈ between, ¬ e.CommitsTo q) →
        (∀ e ∈ during, ¬ e.Switches b q) →
          (∀ i < first.inode.sub.length, i ∉ second.blocks →
            second.inode.sub[i]? = first.inode.sub[i]?) ∧
            first.inode.filesize ≤ second.inode.filesize := by
  intro h
  obtain ⟨c, hr, hp⟩ := exists_reached Cluster.step (fun _ _ ↦ true)
    (.start "10.0.0.1".toList 100 .new) (serialWriters 1)
    (Cluster.handedOver fun first second ↦
      decide (0 < first.inode.sub.length ∧ 0 ∉ second.blocks ∧
        second.inode.sub[0]? ≠ first.inode.sub[0]?)) (by decide +kernel)
  obtain ⟨e, e', first, second, read, deadline, time, hhist, ht⟩ := Cluster.history_of_handedOver hp
  obtain ⟨hlen, hnot, hne⟩ := of_decide_eq_true ht
  refine hne ((h c (hr.mono fun _ _ _ ↦ trivial) 0 1 _ _ first second read deadline time [e]
    [.closed 0 _] [] [e'] hhist rfl ?_ (by simp)).1 0 hlen hnot)
  simp [Event.CommitsTo]

end Spkdfs
