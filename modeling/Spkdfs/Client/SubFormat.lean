import Spkdfs.Client.Aggregation

namespace Spkdfs

open Library

/-- One turn of the loop that prints the pairs, each with a comma behind it. -/
def DataRetrive.appendPair (res : Str) (pair : Str × Str) : Except Fault Str := do
  return res ++ (← Node.ofString pair.1).toString ++ '|' :: pair.2 ++ [',']

def DataRetrive.encodeOneSub (nodesHashs : List (Str × Str)) : Option (Except Fault Str) :=
  match nodesHashs.foldlM DataRetrive.appendPair [] with
  | .error fault => some (.error fault)
  | .ok [] => none
  | .ok res => some (.ok res.dropLast)

namespace DataRetrive

/-- The loop appends what `encode_one_sub` of the other program joins. -/
theorem foldlM_appendPair (res : Str) (pairs : List (Str × Str)) :
    pairs.foldlM appendPair res = (do return res ++ (← pairs.mapM nodeHash).flatten) := by
  induction pairs generalizing res with
  | nil => simp
  | cons pair pairs ih =>
    rw [List.foldlM_cons, List.mapM_cons, appendPair, nodeHash]
    cases hnode : Node.ofString pair.1 with
    | error fault => rfl
    | ok node =>
      simp only [ok_bind, pure_eq_ok, ih]
      cases pairs.mapM nodeHash with
      | error fault => rfl
      | ok parts => simp

theorem encodeOneSub_eq (pairs : List (Str × Str)) :
    encodeOneSub pairs = Spkdfs.encodeOneSub pairs := by
  rw [encodeOneSub, Spkdfs.encodeOneSub, foldlM_appendPair]
  cases pairs with
  | nil => rfl
  | cons pair pairs =>
    rw [if_neg (List.cons_ne_nil _ _), List.mapM_cons, nodeHash]
    cases hnode : Node.ofString pair.1 with
    | error fault => rfl
    | ok node =>
      cases hrest : pairs.mapM nodeHash with
      | error fault => rfl
      | ok parts => simp

end DataRetrive

theorem getlines_last {c : Char} (front : Str) {part : Str} (hne : part ≠ []) (hpart : c ∉ part) :
    (Namenode.getlines c (front ++ c :: part)).getLast? = some part := by
  have hsplit : (front ++ c :: part).splitOn c = front.splitOn c ++ [part] := by
    rw [List.splitOn_append_cons_self, List.splitOn_eq_singleton hpart]
  have hlast : (front.splitOn c ++ [part]).getLast? = some part := List.getLast?_concat
  have hnone : ¬ some part = some [] := fun hnil ↦ hne (Option.some.inj hnil)
  rw [Namenode.getlines, hsplit, hlast, if_neg hnone, hlast]

/-- What follows the last comma is the range, whatever stands before it. -/
theorem getLastPair_range (res : Str) {first last : Nat} (hfirst : first ≤ intMax)
    (hlast : last ≤ intMax) :
    Namenode.getLastPair (res ++ ',' :: (toText first ++ '|' :: toText last)) =
      .ok ((first : Int), (last : Int)) := by
  have hcomma : ',' ∉ toText first ++ '|' :: toText last := by
    simp [notMem_toText (c := ',') (by decide)]
  have hne : toText first ++ '|' :: toText last ≠ [] := by simp
  have hlines := getlines_last res hne hcomma
  have hbar : ∀ c ∈ toText first, decide (c ≠ '|') = true := by
    intro c hc
    refine decide_eq_true ?_
    rintro rfl
    exact notMem_toText (by decide) first hc
  have htake : (toText first ++ '|' :: toText last).takeWhile (· ≠ '|') = toText first := by
    rw [List.takeWhile_append_of_pos hbar]
    simp
  have hdrop : (toText first ++ '|' :: toText last).dropWhile (· ≠ '|') = '|' :: toText last := by
    rw [List.dropWhile_append_of_pos hbar]
    simp
  have hmem : '|' ∈ toText first ++ '|' :: toText last := by simp
  simp only [Namenode.getLastPair, hlines, if_pos hmem, htake, hdrop, List.drop_one, List.tail_cons,
    Namenode.stoiPair, stoi_toText hfirst, stoi_toText hlast, ok_bind, pure_eq_ok]

/-- The two printers agree, `decode_one_sub` reads what they print, and both readers of the range
of a file in an aggregate find it behind the sub. -/
theorem oneSub_codec {pairs : List (Str × Str)} (hne : pairs ≠ [])
    (hpairs : ∀ pair ∈ pairs, Printed pair) :
    ∃ sub, encodeOneSub pairs = some (.ok sub) ∧ DataRetrive.encodeOneSub pairs = some (.ok sub) ∧
      decodeOneSub sub = pairs ∧
      ∀ file : AggFile, 0 ≤ file.pos.1 → file.pos.1 ≤ file.pos.2 → file.pos.2 < 2 ^ 31 →
        ∃ entry, (Client.memberRequest sub file).sub = [entry] ∧
          Namenode.getLastPair entry = .ok file.pos ∧
          aggregateRange entry = .ok (sub, file.pos) := by
  refine ⟨_, Printed.encodeOneSub_eq hne hpairs,
    (DataRetrive.encodeOneSub_eq pairs).trans (Printed.encodeOneSub_eq hne hpairs),
    Printed.decodeOneSub_intercalate hne hpairs, fun file hfirst hle hlast ↦ ⟨_, rfl, ?_, ?_⟩⟩
  all_goals
    obtain ⟨first, hf⟩ := Int.eq_ofNat_of_zero_le hfirst
    obtain ⟨last, hl⟩ := Int.eq_ofNat_of_zero_le (hfirst.trans hle)
    have hpos : file.pos = ((first : Int), (last : Int)) := Prod.ext hf hl
    have hmax : intMax = 2 ^ 31 - 1 := by decide
    rw [hf, hl, intText_eq, intText_eq, hpos]
  · exact getLastPair_range _ (by omega) (by omega)
  · exact aggregateRange_eq _ (by omega) (by omega)

def datanodeHashs : List (Str × Str) :=
  [("10.0.0.1:8001".toList, "ab".toList), ("10.0.0.2:-1".toList, "cd".toList)]

/-- A port can be negative. -/
theorem oneSub_codec_pair :
    ∃ sub, encodeOneSub datanodeHashs = some (.ok sub) ∧
      DataRetrive.encodeOneSub datanodeHashs = some (.ok sub) ∧ decodeOneSub sub = datanodeHashs ∧
      ∀ file : AggFile, 0 ≤ file.pos.1 → file.pos.1 ≤ file.pos.2 → file.pos.2 < 2 ^ 31 →
        ∃ entry, (Client.memberRequest sub file).sub = [entry] ∧
          Namenode.getLastPair entry = .ok file.pos ∧
          aggregateRange entry = .ok (sub, file.pos) := by
  refine oneSub_codec (List.cons_ne_nil _ _) fun pair hp ↦ ?_
  simp only [datanodeHashs, List.mem_cons, List.not_mem_nil, or_false] at hp
  rcases hp with rfl | rfl
  · exact ⟨⟨⟨"10.0.0.1".toList, 8001⟩, ⟨by decide, by decide, by decide, by decide⟩, by decide⟩,
      by decide⟩
  · exact ⟨⟨⟨"10.0.0.2".toList, -1⟩, ⟨by decide, by decide, by decide, by decide⟩, by decide⟩,
      by decide⟩

end Spkdfs
