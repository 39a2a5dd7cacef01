import Spkdfs.Client.Storing

namespace Spkdfs

open Library

/-- The attempts go round the nodes; these are the nodes of those that succeed, from the attempt with
the number `t` on. -/
def acceptors (nodes : List Str) : Nat → List Bool → List Str
  | _, [] => []
  | t, true :: outcomes =>
    nodes.getD (t % nodes.length) [] :: acceptors nodes (t + 1) outcomes
  | t, false :: outcomes => acceptors nodes (t + 1) outcomes

/-- The last round over the nodes has failed as a whole, before enough shards were stored. -/
def RoundFailed (storage : StorageType) (nodes : List Str) (past : List Bool) : Prop :=
  ∃ front, past = front ++ List.replicate nodes.length false ∧ nodes.length ∣ front.length ∧
    storage.check (front.count true) = false

/-- The counters after these attempts, none of which ended a round that failed as a whole. As long as
not enough shards are stored, `fail_count` is the number of failures in the round. -/
structure Upload.After (storage : StorageType) (nodes : List Str) (past : List Bool) (u : Upload) :
    Prop where
  nodeIndex : u.nodeIndex = past.length % nodes.length
  succ : u.succ = past.count true
  failCount : storage.check (past.count true) = false →
    u.failCount = (past.drop (past.length / nodes.length * nodes.length)).count false

theorem StorageType.check_mono {storage : StorageType} {m n : Nat} (h : storage.check m = true)
    (hle : m ≤ n) : storage.check n = true := by
  cases storage <;> simp only [StorageType.check, decide_eq_true_eq] at h ⊢ <;> omega

section

variable {sha256sum : Str → Str} {storage : StorageType} {nodes vec : List Str} {u v : Upload}
  {past : List Bool} {node shard : Str} {stored : Bool}

theorem Upload.after_nil : Upload.After storage nodes [] {} := by
  refine ⟨(Nat.zero_mod _).symm, rfl, fun _ ↦ ?_⟩
  rw [List.drop_nil]
  rfl

/-- The counters do not depend on the block. -/
theorem Upload.After.block (h : u.After storage nodes past) (i : Nat)
    (nodesHashs : List (Str × Str)) :
    Upload.After storage nodes past { u with i := i, nodesHashs := nodesHashs } :=
  ⟨h.nodeIndex, h.succ, h.failCount⟩

theorem count_eq_length_iff {bs : List Bool} :
    bs.count false = bs.length ↔ bs = List.replicate bs.length false := by
  rw [List.count_eq_length, List.eq_replicate_iff]
  exact ⟨fun h ↦ ⟨rfl, fun b hb ↦ (h b hb).symm⟩, fun h b hb ↦ (h.2 b hb).symm⟩

theorem RoundFailed.drop_eq {k : Nat} (h : RoundFailed storage nodes past)
    (hk : k + nodes.length = past.length) :
    past.drop k = List.replicate nodes.length false ∧ nodes.length ∣ k ∧
      storage.check (past.count true) = false := by
  obtain ⟨front, rfl, hdvd, hcheck⟩ := h
  rw [List.length_append, List.length_replicate] at hk
  obtain rfl : k = front.length := by omega
  refine ⟨List.drop_left, hdvd, ?_⟩
  rwa [List.count_append, List.count_replicate, if_neg (by decide), Nat.add_zero]

theorem RoundFailed.last (h : RoundFailed storage nodes (past ++ [stored])) (hne : nodes ≠ []) :
    stored = false := by
  obtain ⟨front, hfront, -, -⟩ := h
  obtain ⟨k, hk⟩ := Nat.exists_eq_succ_of_ne_zero (List.length_pos_of_ne_nil hne).ne'
  rw [hk, List.replicate_succ', ← List.append_assoc] at hfront
  exact (List.append_inj' hfront rfl).2 |> List.singleton_inj.mp

/-- The end of a turn, when the counters have counted the last attempt. -/
theorem Upload.turn_after (hne : nodes ≠ []) (hindex : u.nodeIndex = past.length % nodes.length)
    (hsucc : u.succ = (past ++ [stored]).count true)
    (hfail : storage.check ((past ++ [stored]).count true) = false →
      u.failCount = ((past ++ [stored]).drop (past.length / nodes.length * nodes.length)).count
        false) :
    ((u.turn storage nodes).1 = true ↔ RoundFailed storage nodes (past ++ [stored])) ∧
      ((u.turn storage nodes).1 = false →
        (u.turn storage nodes).2.After storage nodes (past ++ [stored])) := by
  have hpos : 0 < nodes.length := List.length_pos_of_ne_nil hne
  have hlength : (past ++ [stored]).length = past.length + 1 := List.length_append
  have hnext : (u.nodeIndex + 1) % nodes.length = (past.length + 1) % nodes.length := by
    rw [hindex, Nat.mod_add_mod]
  have hdiv := Nat.div_add_mod past.length nodes.length
  rw [Nat.mul_comm] at hdiv
  by_cases hwrap : (past.length + 1) % nodes.length = 0
  · have hdvd := Nat.dvd_of_mod_eq_zero hwrap
    have hend : (past.length + 1) / nodes.length * nodes.length = past.length + 1 :=
      Nat.div_mul_cancel hdvd
    have hstart : past.length / nodes.length * nodes.length + nodes.length = past.length + 1 := by
      rw [Nat.succ_div_of_dvd hdvd, Nat.succ_mul] at hend
      exact hend
    by_cases hcheck : storage.check ((past ++ [stored]).count true) = true
    · have hturn : u.turn storage nodes =
          (false, { u with nodeIndex := (u.nodeIndex + 1) % nodes.length }) := by
        rw [Upload.turn, if_neg]
        rintro ⟨-, hno⟩
        rw [hsucc, hcheck] at hno
        cases hno
      rw [hturn]
      refine ⟨⟨fun hno ↦ (by cases hno), fun hround ↦ ?_⟩, fun _ ↦ ⟨?_, hsucc, fun hno ↦ ?_⟩⟩
      · obtain ⟨-, -, hno⟩ := hround.drop_eq (hstart.trans hlength.symm)
        rw [hcheck] at hno
        cases hno
      · rw [hlength]
        exact hnext
      · rw [hcheck] at hno
        cases hno
    · -- the round is looked at
      have hno := eq_false_of_ne_true hcheck
      have hcount := hfail hno
      have hround : ((past ++ [stored]).drop
          (past.length / nodes.length * nodes.length)).length = nodes.length := by
        rw [List.length_drop, hlength]
        omega
      have hcond : (u.nodeIndex + 1) % nodes.length = 0 ∧ storage.check u.succ = false :=
        ⟨hnext.trans hwrap, hsucc ▸ hno⟩
      by_cases hall : u.failCount = nodes.length
      · have hturn : u.turn storage nodes =
            (true, { u with nodeIndex := (u.nodeIndex + 1) % nodes.length }) := by
          rw [Upload.turn]
          simp only [if_pos hcond, if_pos hall]
        rw [hturn]
        refine ⟨⟨fun _ ↦ ?_, fun _ ↦ rfl⟩, fun hcontra ↦ by cases hcontra⟩
        rw [hall] at hcount
        have hreplicate := count_eq_length_iff.mp (hcount.symm.trans hround.symm)
        rw [hround] at hreplicate
        have hsplit := List.take_append_drop (past.length / nodes.length * nodes.length)
          (past ++ [stored])
        rw [hreplicate] at hsplit
        refine ⟨_, hsplit.symm, ?_, ?_⟩
        · rw [List.length_take, hlength, Nat.min_eq_left (by omega)]
          exact Nat.dvd_mul_left ..
        · rw [← hsplit, List.count_append, List.count_replicate, if_neg (by decide),
            Nat.add_zero] at hno
          exact hno
      · have hturn : u.turn storage nodes =
            (false, { u with nodeIndex := (u.nodeIndex + 1) % nodes.length, failCount := 0 }) := by
          rw [Upload.turn]
          simp only [if_pos hcond, if_neg hall]
        rw [hturn]
        refine ⟨⟨fun hcontra ↦ (by cases hcontra), fun hfailed ↦ ?_⟩, fun _ ↦ ⟨?_, hsucc, fun _ ↦ ?_⟩⟩
        · obtain ⟨hdrop, -, -⟩ := hfailed.drop_eq (hstart.trans hlength.symm)
          rw [hdrop, List.count_replicate, if_pos (by decide)] at hcount
          exact absurd hcount hall
        · rw [hlength]
          exact hnext
        · rw [hlength, hend, List.drop_eq_nil_of_le hlength.le]
          rfl
  · have hturn : u.turn storage nodes =
        (false, { u with nodeIndex := (u.nodeIndex + 1) % nodes.length }) := by
      rw [Upload.turn, if_neg]
      rintro ⟨hzero, -⟩
      exact hwrap (hnext.symm.trans hzero)
    have hsame : (past.length + 1) / nodes.length = past.length / nodes.length := by
      refine Nat.succ_div_of_not_dvd fun hdvd ↦ hwrap (Nat.mod_eq_zero_of_dvd hdvd)
    rw [hturn]
    refine ⟨⟨fun hcontra ↦ (by cases hcontra), fun hfailed ↦ ?_⟩, fun _ ↦ ⟨?_, hsucc, fun hno ↦ ?_⟩⟩
    · obtain ⟨front, hfront, hdvd, -⟩ := hfailed
      have hsum := congrArg List.length hfront
      rw [hlength, List.length_append, List.length_replicate] at hsum
      refine absurd ?_ hwrap
      rw [hsum]
      exact Nat.mod_eq_zero_of_dvd ((Nat.dvd_add_right hdvd).mpr dvd_rfl)
    · rw [hlength]
      exact hnext
    · rw [hlength, hsame]
      exact hfail hno

/-- One attempt. The loop is left if and only if it ends a round that has failed. -/
theorem Upload.After.attempt (h : u.After storage nodes past) (hne : nodes ≠ [])
    (sha256sum : Str → Str) (node shard : Str) (stored : Bool) :
    ((u.attempt sha256sum storage nodes node shard stored).1 = true ↔
        RoundFailed storage nodes (past ++ [stored])) ∧
      ((u.attempt sha256sum storage nodes node shard stored).1 = false →
        (u.attempt sha256sum storage nodes node shard stored).2.After storage nodes
          (past ++ [stored])) := by
  have hle : past.length / nodes.length * nodes.length ≤ past.length := Nat.div_mul_le_self _ _
  have hcount : ∀ b, (past ++ [stored]).count b = past.count b + [stored].count b :=
    fun b ↦ List.count_append
  have hdrop : ((past ++ [stored]).drop (past.length / nodes.length * nodes.length)).count false =
      (past.drop (past.length / nodes.length * nodes.length)).count false +
        [stored].count false := by
    rw [List.drop_append_of_le_length hle, List.count_append]
  have hbefore : storage.check ((past ++ [stored]).count true) = false →
      storage.check (past.count true) = false := by
    intro hno
    by_contra hyes
    have hmono := StorageType.check_mono (eq_true_of_ne_false hyes)
      (Nat.le_add_right _ ([stored].count true))
    rw [← hcount, hno] at hmono
    cases hmono
  rw [Upload.attempt]
  refine Upload.turn_after hne ?_ ?_ ?_ <;> cases stored
  · exact h.nodeIndex
  · exact h.nodeIndex
  · exact h.succ.trans (hcount true).symm
  · exact (congrArg (· + 1) h.succ).trans (hcount true).symm
  · intro hno
    rw [hdrop, ← h.failCount (hbefore hno)]
    rfl
  · intro hno
    rw [hdrop, ← h.failCount (hbefore hno)]
    rfl

/-- None of the attempts ends a round that fails. -/
def NoRoundFailed (storage : StorageType) (nodes : List Str) (past outcomes : List Bool) : Prop :=
  ∀ used, used ≠ [] → used <+: outcomes → ¬ RoundFailed storage nodes (past ++ used)

theorem NoRoundFailed.nil : NoRoundFailed storage nodes past [] := by
  intro used hne hpre
  exact absurd (List.prefix_nil.mp hpre) hne

theorem NoRoundFailed.cons {outcomes : List Bool}
    (h : NoRoundFailed storage nodes (past ++ [stored]) outcomes)
    (hround : ¬ RoundFailed storage nodes (past ++ [stored])) :
    NoRoundFailed storage nodes past (stored :: outcomes) := by
  intro used hne hpre
  cases used with
  | nil => exact absurd rfl hne
  | cons first used =>
    obtain ⟨rfl, hrest⟩ := List.cons_prefix_cons.mp hpre
    cases used with
    | nil => exact hround
    | cons next used =>
      have hno := h (next :: used) (List.cons_ne_nil _ _) hrest
      rwa [List.append_assoc, List.singleton_append] at hno

theorem Upload.attempt_eq (sha256sum : Str → Str) (storage : StorageType) (nodes : List Str)
    (u : Upload) (node shard : Str) (stored : Bool) :
    (u.attempt sha256sum storage nodes node shard stored).2.i = u.i + [stored].count true ∧
      (u.attempt sha256sum storage nodes node shard stored).2.nodesHashs = u.nodesHashs ++
        if stored then [(node, sha256sum shard)] else [] := by
  rw [Upload.attempt]
  obtain ⟨hi, hhashs⟩ := Upload.turn_eq storage nodes (if stored then
    { u with i := u.i + 1, succ := u.succ + 1,
             nodesHashs := u.nodesHashs ++ [(node, sha256sum shard)] }
    else { u with failCount := u.failCount + 1 })
  rw [hi, hhashs]
  cases stored
  · exact ⟨rfl, (List.append_nil _).symm⟩
  · exact ⟨rfl, rfl⟩

/-- The pairs of the shards from `i` on, when each of these attempts that succeeds stores the next
one. -/
def pairsFrom (sha256sum : Str → Str) (nodes vec : List Str) (past used : List Bool) (i : Nat) :
    List (Str × Str) :=
  List.zipWith (fun node shard ↦ (node, sha256sum shard)) (acceptors nodes past.length used)
    (vec.drop i)

theorem pairsFrom_cons {i : Nat} (hi : vec[i]? = some shard)
    (hnode : nodes[past.length % nodes.length]? = some node) (sha256sum : Str → Str) (stored : Bool)
    (used : List Bool) :
    pairsFrom sha256sum nodes vec past (stored :: used) i =
      (if stored then [(node, sha256sum shard)] else []) ++
        pairsFrom sha256sum nodes vec (past ++ [stored]) used (i + [stored].count true) := by
  obtain ⟨hlt, rfl⟩ := List.getElem?_eq_some_iff.mp hi
  have hlength : (past ++ [stored]).length = past.length + 1 := List.length_append
  rw [pairsFrom, pairsFrom, hlength]
  cases stored with
  | false => rfl
  | true =>
    rw [acceptors, List.getD_eq_getElem?_getD, hnode, List.drop_eq_getElem_cons hlt,
      List.zipWith_cons_cons]
    rfl

/-- How the loop goes on, from any state: each attempt that succeeds stores the next shard, until the
last one is stored or a round has failed. -/
theorem uploadShards_run (hne : nodes ≠ []) (h : u.After storage nodes past)
    (sha256sum : Str → Str) (vec : List Str) (hi : u.i ≤ vec.length) (outcomes : List Bool) :
    (uploadShards sha256sum storage nodes vec outcomes u = none ∧
        u.i + outcomes.count true < vec.length ∧ NoRoundFailed storage nodes past outcomes) ∨
      ∃ v used rest, uploadShards sha256sum storage nodes vec outcomes u = some (v, rest) ∧
        outcomes = used ++ rest ∧ v.i = u.i + used.count true ∧
        v.nodesHashs = u.nodesHashs ++ pairsFrom sha256sum nodes vec past used u.i ∧
        (v.i = vec.length ∧ v.After storage nodes (past ++ used) ∧
            NoRoundFailed storage nodes past used ∨
          used ≠ [] ∧ v.i < vec.length ∧ RoundFailed storage nodes (past ++ used)) := by
  induction outcomes generalizing past u with
  | nil =>
    rw [uploadShards]
    split_ifs with hmore
    · exact .inl ⟨rfl, by rwa [List.count_nil, Nat.add_zero], .nil⟩
    · refine .inr ⟨u, [], [], rfl, rfl, rfl, (List.append_nil _).symm, .inl ⟨?_, ?_, .nil⟩⟩
      · omega
      · rwa [List.append_nil]
  | cons stored outcomes ih =>
    by_cases hdone : vec.length ≤ u.i
    · refine .inr ⟨u, [], _, uploadShards_done _ hdone, rfl, rfl, (List.append_nil _).symm,
        .inl ⟨?_, ?_, .nil⟩⟩
      · omega
      · rwa [List.append_nil]
    have hlt : u.i < vec.length := Nat.lt_of_not_le hdone
    have hshard := List.getElem?_eq_getElem hlt
    have hin : u.nodeIndex < nodes.length := by
      rw [h.nodeIndex]
      exact Nat.mod_lt _ (List.length_pos_of_ne_nil hne)
    have hnode := List.getElem?_eq_getElem hin
    obtain ⟨hstop, hgo⟩ := h.attempt hne sha256sum nodes[u.nodeIndex] vec[u.i] stored
    obtain ⟨hnext, hhashs⟩ := Upload.attempt_eq sha256sum storage nodes u nodes[u.nodeIndex]
      vec[u.i] stored
    have hat : nodes[past.length % nodes.length]? = some nodes[u.nodeIndex] := by
      rw [← h.nodeIndex]
      exact hnode
    have hpairs := pairsFrom_cons hshard hat sha256sum stored
    have hcount : ∀ bs : List Bool,
        (stored :: bs).count true = [stored].count true + bs.count true := by
      intro bs
      rw [← List.count_append, List.singleton_append]
    have hone : [stored].count true ≤ 1 := List.count_le_length
    rw [uploadShards]
    simp only [hshard, hnode]
    by_cases hstopped : (u.attempt sha256sum storage nodes nodes[u.nodeIndex] vec[u.i] stored).1 = true
    · have hround := hstop.mp hstopped
      have hfalse := hround.last hne
      rw [if_pos hstopped]
      refine .inr ⟨_, [stored], outcomes, rfl, rfl, hnext, ?_,
        .inr ⟨List.cons_ne_nil _ _, ?_, hround⟩⟩
      · rw [hhashs, hpairs]
        exact congrArg (u.nodesHashs ++ ·) (List.append_nil _).symm
      · rw [hnext, hfalse]
        exact hlt
    · rw [if_neg hstopped]
      have hround := mt hstop.mpr hstopped
      obtain ⟨hnone, hfew, hno⟩ | ⟨v, used, rest, hrun, hused, hv, hfound, hend⟩ :=
        ih (hgo (eq_false_of_ne_true hstopped)) (by omega)
      · refine .inl ⟨hnone, ?_, hno.cons hround⟩
        rw [hcount]
        omega
      · refine .inr ⟨v, stored :: used, rest, hrun, by rw [hused, List.cons_append], ?_, ?_, ?_⟩
        · rw [hcount]
          omega
        · rw [hfound, hhashs, hpairs, List.append_assoc, hnext]
        · rw [List.append_assoc, List.singleton_append] at hend
          exact hend.imp (fun hall ↦ ⟨hall.1, hall.2.1, hall.2.2.cons hround⟩)
            fun hshort ↦ ⟨List.cons_ne_nil _ _, hshort.2⟩

/-- There is a pair for each shard that is stored. -/
theorem uploadShards_pairs {P : Str × Str → Prop} {outcomes rest : List Bool}
    (hpair : ∀ node ∈ nodes, ∀ shard, P (node, sha256sum shard)) (hi : u.i ≤ vec.length)
    (hlength : u.nodesHashs.length = u.i) (hall : ∀ pair ∈ u.nodesHashs, P pair)
    (h : uploadShards sha256sum storage nodes vec outcomes u = some (v, rest)) :
    v.i ≤ vec.length ∧ v.nodesHashs.length = v.i ∧ ∀ pair ∈ v.nodesHashs, P pair := by
  induction outcomes generalizing u with
  | nil =>
    rw [uploadShards] at h
    split_ifs at h
    obtain ⟨rfl, rfl⟩ := Prod.mk.inj (Option.some.inj h)
    exact ⟨hi, hlength, hall⟩
  | cons stored outcomes ih =>
    by_cases hdone : vec.length ≤ u.i
    · rw [uploadShards_done _ hdone] at h
      obtain ⟨rfl, rfl⟩ := Prod.mk.inj (Option.some.inj h)
      exact ⟨hi, hlength, hall⟩
    have hlt : u.i < vec.length := Nat.lt_of_not_le hdone
    have hone : [stored].count true ≤ 1 := List.count_le_length
    rw [uploadShards, List.getElem?_eq_getElem hlt] at h
    cases hnode : nodes[u.nodeIndex]? with
    | none =>
      rw [hnode] at h
      cases h
    | some node =>
      obtain ⟨hnext, hhashs⟩ := Upload.attempt_eq sha256sum storage nodes u node vec[u.i] stored
      have hnew : (u.nodesHashs ++ if stored then [(node, sha256sum vec[u.i])] else []).length =
          u.i + [stored].count true := by
        rw [List.length_append, hlength]
        cases stored <;> rfl
      have hkept : ∀ pair ∈ u.nodesHashs ++ if stored then [(node, sha256sum vec[u.i])] else [],
          P pair := by
        intro pair hp
        obtain hp | hp := List.mem_append.mp hp
        · exact hall pair hp
        · cases stored
          · cases hp
          · obtain rfl := List.mem_singleton.mp hp
            exact hpair node (List.mem_of_getElem? hnode) _
      simp only [hnode] at h
      split_ifs at h
      · obtain ⟨rfl, rfl⟩ := Prod.mk.inj (Option.some.inj h)
        rw [hhashs, hnext]
        exact ⟨by omega, hnew, hkept⟩
      · refine ih ?_ ?_ ?_ h
        · rw [hnext]
          omega
        · rw [hhashs, hnext]
          exact hnew
        · rw [hhashs]
          exact hkept

theorem acceptors_append (nodes : List Str) (t : Nat) (used more : List Bool) :
    acceptors nodes t (used ++ more) =
      acceptors nodes t used ++ acceptors nodes (t + used.length) more := by
  induction used generalizing t with
  | nil => rfl
  | cons stored used ih =>
    have hlength : t + (stored :: used).length = t + 1 + used.length := by
      rw [List.length_cons]
      omega
    rw [hlength, List.cons_append]
    cases stored
    · exact ih (t + 1)
    · exact congrArg _ (ih (t + 1))

theorem length_acceptors (nodes : List Str) (t : Nat) (used : List Bool) :
    (acceptors nodes t used).length = used.count true := by
  induction used generalizing t with
  | nil => rfl
  | cons stored used ih =>
    cases stored
    · rw [acceptors, ih, List.count_cons_of_ne (by decide)]
    · rw [acceptors, List.length_cons, ih, List.count_cons_self]

end

namespace Shards

/-- The loops of `datanode_put`, with the pairs of each block. They are left when `encode_one_sub`
throws; after a `pop_back` on the empty string they would go on. -/
def putBlocks (d : Shards) (storage : StorageType) :
    List (List Str) → List Bool → Upload →
      Option (Except Fault (List (List (Str × Str))) × List Bool)
  | [], outcomes, _ => some (.ok [], outcomes)
  | vec :: encodedData, outcomes, u =>
    (uploadShards d.sha256sum storage d.nodes vec outcomes
        { u with i := 0, nodesHashs := [] }).bind fun (u, outcomes) ↦
      match encodeOneSub u.nodesHashs with
      | some (.error fault) => some (.error fault, outcomes)
      | _ => (putBlocks d storage encodedData outcomes u).map fun (blocks, rest) ↦
          (blocks.map (u.nodesHashs :: ·), rest)

variable {d : Shards} {storage : StorageType} {vec : List Str} {encoded : List (List Str)}
  {outcomes rest : List Bool} {u : Upload} {result : Except Fault (List (List (Str × Str)))}
  {blocks : List (List (Str × Str))} {past : List Bool}

theorem Printed.recordable (hd : d.Printed) {node : Str} (hnode : node ∈ d.nodes) (shard : Str) :
    Recordable (node, d.sha256sum shard) := by
  have hshards : [(node, d.sha256sum shard)].map (·.2) = [shard].map d.sha256sum := rfl
  exact hd.hash.recordable hd.nodes hshards (by simpa using hnode) _ List.mem_cons_self

/-- The blocks go one after the other through the loop over their shards. -/
theorem putBlocks_cons (hd : d.Printed)
    (h : d.putBlocks storage (vec :: encoded) outcomes u = some (result, rest)) :
    ∃ v more others, uploadShards d.sha256sum storage d.nodes vec outcomes
        { u with i := 0, nodesHashs := [] } = some (v, more) ∧
      v.nodesHashs.length = v.i ∧ (∀ pair ∈ v.nodesHashs, Recordable pair) ∧
      d.putBlocks storage encoded more v = some (others, rest) ∧
        result = others.map (v.nodesHashs :: ·) := by
  rw [putBlocks, Option.bind_eq_some_iff] at h
  obtain ⟨⟨v, more⟩, hupload, h⟩ := h
  obtain ⟨-, hlength, hrecord⟩ := uploadShards_pairs (P := Recordable)
    (fun node hnode shard ↦ hd.recordable hnode shard) (Nat.zero_le _) rfl (fun _ hp ↦ by cases hp)
    hupload
  have hok : ∀ fault, encodeOneSub v.nodesHashs ≠ some (.error fault) := by
    intro fault hthrow
    by_cases hnil : v.nodesHashs = []
    · rw [encodeOneSub, if_pos hnil] at hthrow
      cases hthrow
    · rw [encodeOneSub_eq hnil hrecord] at hthrow
      cases hthrow
  simp only at h
  obtain ⟨⟨others, last⟩, hothers, h⟩ := Option.map_eq_some_iff.mp h
  obtain ⟨rfl, rfl⟩ := Prod.mk.inj h
  exact ⟨v, more, others, hupload, hlength, hrecord, hothers, rfl⟩

/-- What `datanode_put` makes of the pairs. -/
theorem datanodePut_eq (hd : d.Printed)
    (h : d.putBlocks storage encoded outcomes u = some (result, rest)) :
    ∃ blocks, result = .ok blocks ∧ (∀ pairs ∈ blocks, ∀ pair ∈ pairs, Recordable pair) ∧
      d.datanodePut storage encoded outcomes u = if [] ∈ blocks then none else
        some (.ok (blocks.map fun pairs ↦ [','].intercalate (pairs.map oneSub))) := by
  induction encoded generalizing outcomes u result with
  | nil =>
    obtain ⟨rfl, -⟩ := Prod.mk.inj (Option.some.inj h)
    exact ⟨[], rfl, fun _ hp ↦ (by cases hp), rfl⟩
  | cons vec encoded ih =>
    obtain ⟨v, more, others, hupload, -, hrecord, hothers, rfl⟩ := putBlocks_cons hd h
    obtain ⟨blocks, rfl, hblocks, hput⟩ := ih hothers
    refine ⟨v.nodesHashs :: blocks, rfl, List.forall_mem_cons.mpr ⟨hrecord, hblocks⟩, ?_⟩
    rw [datanodePut, hupload, Option.bind_some]
    by_cases hnil : v.nodesHashs = []
    · rw [if_pos (List.mem_cons.mpr (.inl hnil.symm))]
      simp only [encodeOneSub, if_pos hnil, Option.bind_none]
    · have hmem : [] ∈ v.nodesHashs :: blocks ↔ [] ∈ blocks := by
        rw [List.mem_cons, or_iff_right (Ne.symm hnil)]
      simp only [encodeOneSub_eq hnil hrecord, Option.bind_some, hput, hmem]
      split_ifs <;> rfl

/-- As long as no round fails before all shards are stored, each attempt that succeeds stores the next
shard; once a round has failed, a block lacks shards. -/
theorem putBlocks_run (hd : d.Printed) (hne : d.nodes ≠ []) (h : u.After storage d.nodes past)
    (hput : d.putBlocks storage encoded outcomes u = some (.ok blocks, rest)) :
    (List.Forall₂ (fun vec pairs ↦ pairs.length = vec.length) encoded blocks ↔
        ∀ used, used ≠ [] → used <+: outcomes → RoundFailed storage d.nodes (past ++ used) →
          encoded.flatten.length ≤ used.count true) ∧
      (List.Forall₂ (fun vec pairs ↦ pairs.length = vec.length) encoded blocks →
        ∃ used, outcomes = used ++ rest ∧ used.count true = encoded.flatten.length ∧
          blocks.flatten = pairsFrom d.sha256sum d.nodes encoded.flatten past used 0) := by
  induction encoded generalizing outcomes u past blocks with
  | nil =>
    obtain ⟨hblocks, rfl⟩ := Prod.mk.inj (Option.some.inj hput)
    obtain rfl := Except.ok.inj hblocks
    refine ⟨⟨fun _ _ _ _ _ ↦ Nat.zero_le _, fun _ ↦ .nil⟩, fun _ ↦ ⟨[], rfl, rfl, ?_⟩⟩
    rfl
  | cons vec encoded ih =>
    obtain ⟨v, more, others, hupload, hlength, -, hothers, hblocks⟩ := putBlocks_cons hd hput
    cases others with
    | error fault => cases hblocks
    | ok others =>
      obtain rfl := Except.ok.inj hblocks
      have htotal : (vec :: encoded).flatten.length = vec.length + encoded.flatten.length := by
        rw [List.flatten_cons, List.length_append]
      obtain ⟨hnone, -⟩ | ⟨w, used, left, hrun, rfl, hi, hhashs, hend⟩ :=
        uploadShards_run hne (h.block 0 []) d.sha256sum vec (Nat.zero_le _) outcomes
      · rw [hnone] at hupload
        cases hupload
      obtain ⟨rfl, rfl⟩ := Prod.mk.inj (Option.some.inj (hrun.symm.trans hupload))
      have hcount : w.i = used.count true := hi.trans (Nat.zero_add _)
      obtain ⟨hall, hafter, hno⟩ | ⟨hne', hshort, hround⟩ := hend
      · obtain ⟨hiff, hcomplete⟩ := ih hafter hothers
        have htail : List.Forall₂ (fun vec pairs ↦ pairs.length = vec.length) (vec :: encoded)
            (w.nodesHashs :: others) ↔
              List.Forall₂ (fun vec pairs ↦ pairs.length = vec.length) encoded others := by
          rw [List.forall₂_cons]
          exact and_iff_right (hlength.trans hall)
        rw [htail, hiff, htotal]
        refine ⟨⟨fun hrounds front hfront hpre hround ↦ ?_, fun hrounds front hfront hpre
          hround ↦ ?_⟩, fun hblocks ↦ ?_⟩
        · -- a round that fails does so after the shards of the block
          obtain hin | ⟨after, rfl⟩ :=
            List.prefix_or_prefix_of_prefix hpre (List.prefix_append used left)
          · exact absurd hround (hno front hfront hin)
          by_cases hnil : after = []
          · rw [hnil, List.append_nil] at hround hfront
            exact absurd hround (hno used hfront List.prefix_rfl)
          have hle := hrounds after hnil ((List.prefix_append_right_inj used).mp hpre)
            (by rwa [List.append_assoc])
          rw [List.count_append]
          omega
        · rw [List.append_assoc] at hround
          have hle := hrounds (used ++ front) (List.append_ne_nil_of_right_ne_nil _ hfront)
            ((List.prefix_append_right_inj used).mpr hpre) hround
          rw [List.count_append] at hle
          omega
        · obtain ⟨next, rfl, htrue, hflatten⟩ := hcomplete (hiff.mpr hblocks)
          refine ⟨used ++ next, (List.append_assoc ..).symm, ?_, ?_⟩
          · rw [List.count_append]
            omega
          · have hstored : (acceptors d.nodes past.length used).length = vec.length := by
              rw [length_acceptors]
              omega
            rw [List.flatten_cons, List.flatten_cons, hflatten, hhashs, List.nil_append, pairsFrom,
              pairsFrom, pairsFrom, List.drop_zero, List.drop_zero, List.drop_zero,
              acceptors_append, List.zipWith_append hstored, List.length_append]
      · have hlack : ¬ List.Forall₂ (fun vec pairs ↦ pairs.length = vec.length) (vec :: encoded)
            (w.nodesHashs :: others) := by
          intro hblocks
          have hfirst := (List.forall₂_cons.mp hblocks).1
          omega
        refine ⟨⟨fun hblocks ↦ absurd hblocks hlack, fun hrounds ↦ ?_⟩, fun hblocks ↦
          absurd hblocks hlack⟩
        have hle := hrounds used hne' (List.prefix_append used left) hround
        omega

theorem nil_mem_iff_of_lengths {vecs : List (List Str)}
    (h : List.Forall₂ (fun vec pairs ↦ pairs.length = vec.length) vecs blocks) :
    [] ∈ vecs ↔ [] ∈ blocks := by
  induction h with
  | nil => exact iff_of_false List.not_mem_nil List.not_mem_nil
  | cons hlength _ ih =>
    rw [List.mem_cons, List.mem_cons, ih, eq_comm, ← List.length_eq_zero_iff, ← hlength,
      List.length_eq_zero_iff, eq_comm]

/-- `datanode_put` returns the subs of complete blocks if and only if there is no empty block and no
round over the nodes fails before all shards are stored. -/
theorem datanodePut_complete_iff (hd : d.Printed) (hne : d.nodes ≠ [])
    (hends : d.putBlocks storage encoded outcomes {} = some (result, rest)) :
    (∃ r, d.datanodePut storage encoded outcomes {} = some r ∧ ∀ subs, r = .ok subs →
        List.Forall₂ (fun vec sub ↦ (decodeOneSub sub).length = vec.length) encoded subs ∧
          (subs.map decodeOneSub).flatten =
            List.zipWith (fun node shard ↦ (node, d.sha256sum shard)) (acceptors d.nodes 0 outcomes)
              encoded.flatten) ↔
      (∀ vec ∈ encoded, vec ≠ []) ∧ ∀ front, front <+: outcomes →
        RoundFailed storage d.nodes front → encoded.flatten.length ≤ front.count true := by
  obtain ⟨blocks, rfl, hrecord, hput⟩ := datanodePut_eq hd hends
  obtain ⟨hiff, hcomplete⟩ := putBlocks_run hd hne Upload.after_nil hends
  have hrounds : (∀ used, used ≠ [] → used <+: outcomes → RoundFailed storage d.nodes ([] ++ used) →
      encoded.flatten.length ≤ used.count true) ↔ ∀ front, front <+: outcomes →
        RoundFailed storage d.nodes front → encoded.flatten.length ≤ front.count true := by
    refine ⟨fun h front hpre hround ↦ h front ?_ hpre hround, fun h front _ ↦ h front⟩
    rintro rfl
    obtain ⟨front, hfront, -⟩ := hround
    have hnil := (List.append_eq_nil_iff.mp hfront.symm).2
    exact hne (List.length_eq_zero_iff.mp ((List.replicate_eq_nil_iff false).mp hnil))
  rw [← hrounds, ← hiff]
  by_cases hempty : [] ∈ blocks
  · rw [hput, if_pos hempty]
    refine iff_of_false (fun h ↦ ?_) fun h ↦ ?_
    · obtain ⟨r, hr, -⟩ := h
      cases hr
    · exact h.1 [] ((nil_mem_iff_of_lengths h.2).mpr hempty) rfl
  rw [if_neg hempty] at hput
  have hread : (blocks.map fun pairs ↦ [','].intercalate (pairs.map oneSub)).map decodeOneSub =
      blocks := by
    rw [List.map_map]
    refine (List.map_congr_left fun pairs hp ↦ ?_).trans blocks.map_id
    refine decodeOneSub_intercalate ?_ (hrecord pairs hp)
    rintro rfl
    exact hempty hp
  have hlengths : List.Forall₂ (fun vec sub ↦ (decodeOneSub sub).length = vec.length) encoded
      (blocks.map fun pairs ↦ [','].intercalate (pairs.map oneSub)) ↔
        List.Forall₂ (fun vec pairs ↦ pairs.length = vec.length) encoded blocks := by
    have hmap := List.forall₂_map_right_iff (f := decodeOneSub)
      (R := fun (vec : List Str) (pairs : List (Str × Str)) ↦ pairs.length = vec.length)
      (l := encoded) (u := blocks.map fun pairs ↦ [','].intercalate (pairs.map oneSub))
    rw [hread] at hmap
    exact hmap.symm
  rw [hput]
  constructor
  · rintro ⟨r, hr, hall⟩
    obtain ⟨hsubs, -⟩ := hall _ (Option.some.inj hr).symm
    have hblocks := hlengths.mp hsubs
    refine ⟨fun vec hvec hnil ↦ ?_, hblocks⟩
    exact hempty ((nil_mem_iff_of_lengths hblocks).mp (hnil ▸ hvec))
  · rintro ⟨-, hblocks⟩
    refine ⟨_, rfl, fun subs hsubs ↦ ?_⟩
    obtain rfl := Except.ok.inj hsubs
    refine ⟨hlengths.mpr hblocks, ?_⟩
    obtain ⟨used, rfl, hcount, hflatten⟩ := hcomplete hblocks
    have hstored : (acceptors d.nodes 0 used).length = encoded.flatten.length := by
      rw [length_acceptors, hcount]
    have hsplit : List.zipWith (fun node shard ↦ (node, d.sha256sum shard))
        (acceptors d.nodes 0 used ++ acceptors d.nodes (0 + used.length) rest)
        (encoded.flatten ++ []) =
          pairsFrom d.sha256sum d.nodes encoded.flatten [] used 0 ++ [] := by
      rw [List.zipWith_append hstored, List.zipWith_nil_right]
      rfl
    rw [List.append_nil, List.append_nil] at hsplit
    rw [hread, hflatten, acceptors_append, hsplit]

end Shards

/-- Three nodes, with a datanode apart from them. -/
def mirrorShards : Shards := ⟨mirrorSum, mirrorCode, mirrorNodes, mirrorFetch⟩

theorem mirrorShards_printed : mirrorShards.Printed := ⟨mirrorSum_hexadecimal, mirrorNodes_plain⟩

/-- The three shards of a block. -/
def mirrorVec : List Str := ["ab".toList, "ab".toList, "ab".toList]

/-- With a failure before them, all three shards reach a datanode. -/
theorem datanodePut_complete_retried :
    ∃ r, mirrorShards.datanodePut (.rs 2 1 1) [mirrorVec] [true, false, true, true] {} = some r ∧
      ∀ subs, r = .ok subs →
        List.Forall₂ (fun vec sub ↦ (decodeOneSub sub).length = vec.length) [mirrorVec] subs ∧
          (subs.map decodeOneSub).flatten =
            List.zipWith (fun node shard ↦ (node, mirrorSum shard))
              (acceptors mirrorNodes 0 [true, false, true, true]) [mirrorVec].flatten := by
  have hends : ∃ result rest, mirrorShards.putBlocks (.rs 2 1 1) [mirrorVec]
      [true, false, true, true] {} = some (result, rest) := ⟨_, _, rfl⟩
  obtain ⟨result, rest, hends⟩ := hends
  refine (Shards.datanodePut_complete_iff mirrorShards_printed (by decide) hends).mpr
    ⟨by decide, fun front hpre hround ↦ ?_⟩
  -- only one attempt fails
  obtain ⟨before, rfl, -⟩ := hround
  have hle := hpre.sublist.count_le false
  rw [List.count_append, List.count_replicate, if_pos (by decide)] at hle
  have hfew : List.count false [true, false, true, true] < mirrorNodes.length := by decide
  exact absurd (hle.trans_lt hfew) (by simp [mirrorShards])

/-- After two shards all nodes fail, and the sub names two nodes for three shards. -/
theorem not_datanodePut_complete_lost :
    (mirrorShards.putBlocks (.rs 2 1 1) [mirrorVec] [true, true, false, false, false, false]
        {}).isSome ∧
      ¬ ∃ r, mirrorShards.datanodePut (.rs 2 1 1) [mirrorVec]
          [true, true, false, false, false, false] {} = some r ∧ ∀ subs, r = .ok subs →
        List.Forall₂ (fun vec sub ↦ (decodeOneSub sub).length = vec.length) [mirrorVec] subs ∧
          (subs.map decodeOneSub).flatten =
            List.zipWith (fun node shard ↦ (node, mirrorSum shard))
              (acceptors mirrorNodes 0 [true, true, false, false, false, false])
              [mirrorVec].flatten := by
  have hshort : (mirrorShards.datanodePut (.rs 2 1 1) [mirrorVec]
      [true, true, false, false, false, false] {}).map
        (Except.map fun subs ↦ subs.map fun sub ↦ (decodeOneSub sub).length) =
          some (.ok [2]) := by
    decide +kernel
  refine ⟨rfl, fun h ↦ ?_⟩
  obtain ⟨r, hr, hall⟩ := h
  rw [hr] at hshort
  cases r with
  | error fault => cases hshort
  | ok subs =>
    obtain ⟨hsubs, -⟩ := hall subs rfl
    have htwo := Except.ok.inj (Option.some.inj hshort)
    cases hsubs with
    | cons hlength hnil =>
      have hfirst := (List.cons.inj htwo).1
      exact absurd (hlength.symm.trans hfirst) (by decide)

end Spkdfs
