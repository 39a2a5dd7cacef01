import Spkdfs.Node.Datanode

namespace Spkdfs

open Library Function

namespace Datanode

variable {sha256sum : Str → Str} {s s' t : Datanode} {a : Step}

/-- What a step does to the uploads and the files. -/
inductive Uploaded (sha256sum : Str → Str) (s : Datanode) :
    Step → List Receiver → (Str → Option Str) → Prop
  | kept (a : Step) : Uploaded sha256sum s a s.puts s.files
  | put {block : Str} {stream : PutStream} {result : Except Fault Str} {writes : List StreamWrite}
      (call : putToDatanode sha256sum stream block = some (result, writes))
      (arrives : reaches stream = true) :
      Uploaded sha256sum s (.put block stream)
        (s.puts ++ [{ blkid := sha256sum block, messages := accepted writes }]) s.files
  | unanswered (block : Str) :
      Uploaded sha256sum s (.unanswered block)
        (s.puts ++ [{ blkid := sha256sum block, messages := [] }]) s.files
  | receive {i size : Nat} {r : Receiver} (found : s.puts[i]? = some r)
      (collecting : r.written = none) :
      Uploaded sha256sum s (.receive i size)
        (s.puts.set i { r with
          ss := r.ss ++ (r.messages.take size).flatten, messages := r.messages.drop size }) s.files
  | cut {i : Nat} {r : Receiver} (found : s.puts[i]? = some r) (collecting : r.written = none) :
      Uploaded sha256sum s (.cut i) (s.puts.set i { r with messages := [] }) s.files
  | opened {i : Nat} {r : Receiver} (found : s.puts[i]? = some r) (collecting : r.written = none)
      (running : r.finished = false) (arrived : r.messages = []) :
      Uploaded sha256sum s (.onClosed i true) (s.puts.set i { r with written := some 0 })
        (update s.files r.blkid (some []))
  | unopened {i : Nat} {r : Receiver} (found : s.puts[i]? = some r) :
      Uploaded sha256sum s (.onClosed i false) (s.puts.set i { r with finished := true }) s.files
  | write {i size position : Nat} {r : Receiver} (found : s.puts[i]? = some r)
      (written : r.written = some position) (running : r.finished = false)
      (bound : position + size ≤ r.ss.length) :
      Uploaded sha256sum s (.write i size)
        (s.puts.set i { r with written := some (position + size) })
        (update s.files r.blkid (some
          (writeAt nul ((s.files r.blkid).getD []) position (slice r.ss position size))))
  | finish {i : Nat} {r : Receiver} (found : s.puts[i]? = some r) (written : r.written ≠ none)
      (running : r.finished = false) :
      Uploaded sha256sum s (.finish i) (s.puts.set i { r with finished := true }) s.files

theorem withPut_eq_some {i : Nat} {act : Receiver → Option Receiver} :
    s.withPut i act = some s' ↔
      ∃ r r', s.puts[i]? = some r ∧ act r = some r' ∧ s' = { s with puts := s.puts.set i r' } := by
  simp only [withPut, Option.bind_eq_some_iff, Option.map_eq_some_iff]
  constructor
  · rintro ⟨r, hr, r', hr', rfl⟩
    exact ⟨r, r', hr, hr', rfl⟩
  · rintro ⟨r, r', hr, hr', rfl⟩
    exact ⟨r, hr, r', hr', rfl⟩

theorem withGet_eq_some {j : Nat} {act : Sender → Option Sender} :
    s.withGet j act = some s' ↔
      ∃ g g', s.gets[j]? = some g ∧ act g = some g' ∧ s' = { s with gets := s.gets.set j g' } := by
  simp only [withGet, Option.bind_eq_some_iff, Option.map_eq_some_iff]
  constructor
  · rintro ⟨g, hg, g', hg', rfl⟩
    exact ⟨g, g', hg, hg', rfl⟩
  · rintro ⟨g, g', hg, hg', rfl⟩
    exact ⟨g, hg, g', hg', rfl⟩

theorem uploaded_of_step (h : step sha256sum s a = some s') :
    Uploaded sha256sum s a s'.puts s'.files := by
  have hget : ∀ j act, s.withGet j act = some s' → Uploaded sha256sum s a s'.puts s'.files := by
    intro j act hs
    obtain ⟨g, g', -, -, rfl⟩ := withGet_eq_some.mp hs
    exact .kept a
  cases a with
  | put block stream =>
    obtain ⟨⟨result, writes⟩, hcall, rfl⟩ := Option.map_eq_some_iff.mp h
    split_ifs with hreaches
    · exact .put hcall hreaches
    · exact .kept _
  | unanswered block =>
    obtain rfl := Option.some.inj h
    exact .unanswered block
  | receive i size =>
    obtain ⟨r, r', hr, hact, rfl⟩ := withPut_eq_some.mp h
    simp only [Receiver.receive, Option.ite_none_right_eq_some] at hact
    obtain ⟨⟨hcollecting, -⟩, hr'⟩ := hact
    obtain rfl := Option.some.inj hr'
    exact .receive hr hcollecting
  | cut i =>
    obtain ⟨r, r', hr, hact, rfl⟩ := withPut_eq_some.mp h
    simp only [Receiver.cut, Option.ite_none_right_eq_some] at hact
    obtain ⟨hcollecting, hr'⟩ := hact
    obtain rfl := Option.some.inj hr'
    exact .cut hr hcollecting
  | onClosed i opened =>
    obtain ⟨r, hr, hact⟩ := Option.bind_eq_some_iff.mp h
    obtain ⟨r', hr', rfl⟩ := Option.map_eq_some_iff.mp hact
    simp only [Receiver.onClosed, Option.ite_none_right_eq_some] at hr'
    obtain ⟨⟨hcollecting, hrunning, hmessages⟩, hr'⟩ := hr'
    obtain rfl := Option.some.inj hr'
    cases opened with
    | true => exact .opened hr hcollecting hrunning hmessages
    | false => exact .unopened hr
  | write i size =>
    obtain ⟨r, hr, hact⟩ := Option.bind_eq_some_iff.mp h
    obtain ⟨w, hw, rfl⟩ := Option.map_eq_some_iff.mp hact
    unfold Receiver.write at hw
    split at hw
    · cases hw
    · rename_i position hwritten
      rw [Option.ite_none_right_eq_some] at hw
      obtain ⟨⟨hrunning, -, hbound⟩, hw⟩ := hw
      obtain rfl := Option.some.inj hw
      exact .write hr hwritten hrunning hbound
  | finish i =>
    obtain ⟨r, r', hr, hact, rfl⟩ := withPut_eq_some.mp h
    simp only [Receiver.finish, Option.ite_none_right_eq_some] at hact
    obtain ⟨⟨hwritten, hrunning⟩, hr'⟩ := hact
    obtain rfl := Option.some.inj hr'
    exact .finish hr hwritten hrunning
  | get blkid =>
    obtain rfl := Option.some.inj h
    exact .kept _
  | startSender j => exact hget j _ h
  | read j => exact hget j _ h
  | send j status => exact hget j _ h
  | receiveBack j size => exact hget j _ h
  | cutBack j => exact hget j _ h
  | answer j => exact hget j _ h

/-- An upload under the hash is one of the block: all of it is sent, arrives and is written. Other
uploads may go wrong in any way. -/
def Whole (sha256sum : Str → Str) (block : Str) (s : Datanode) : Step → Prop
  | .put other stream =>
    reaches stream = true → sha256sum other = sha256sum block →
      other = block ∧ (writeStream other stream.statuses 0).map (·.1) = some false
  | .unanswered other => sha256sum other ≠ sha256sum block
  | .cut i => ∀ r, s.puts[i]? = some r → r.blkid = sha256sum block → r.messages = []
  | .onClosed i opened =>
    opened = false → ∀ r, s.puts[i]? = some r → r.blkid ≠ sha256sum block
  | .finish i =>
    ∀ r, s.puts[i]? = some r → r.blkid = sha256sum block → r.written = some r.ss.length
  | _ => True

/-- An upload that has what it needs to write the block, and has written as much as it says. -/
structure Carries (block : Str) (r : Receiver) : Prop where
  collecting : r.written = none → r.finished = false ∧ r.ss ++ r.messages.flatten = block
  writing : ∀ position, r.written = some position →
    r.ss = block ∧ position ≤ block.length ∧ (r.finished = true → position = block.length)

/-- The uploads of the block that have opened its file agree about it. The file holds the part that
the last one to open it has written. -/
structure Agreed (blkid block : Str) (puts : List Receiver) (files : Str → Option Str) :
    Prop where
  carries : ∀ r ∈ puts, r.blkid = blkid → Carries block r
  part : ∀ file, files blkid = some file → PartOf nul block file
  latest : ((∀ r ∈ puts, r.blkid = blkid → r.written = none) ∧
      (files blkid = none ∨ files blkid = some block)) ∨
    ∃ (i : Nat) (r : Receiver) (position : Nat) (file : Str), puts[i]? = some r ∧
      r.blkid = blkid ∧ r.written = some position ∧ files blkid = some file ∧
      block.take position <+: file

section

variable {blkid block : Str} {puts : List Receiver} {files files' : Str → Option Str}
  {r r' : Receiver} {i : Nat}

theorem Agreed.add (h : Agreed blkid block puts files) (hr : r.blkid = blkid → Carries block r)
    (hw : r.written = none) : Agreed blkid block (puts ++ [r]) files := by
  refine ⟨fun q hq hid ↦ ?_, h.part, ?_⟩
  · rcases List.mem_append.mp hq with hq | hq
    · exact h.carries q hq hid
    · rw [List.mem_singleton.mp hq] at hid ⊢
      exact hr hid
  · rcases h.latest with ⟨hnone, hfile⟩ | ⟨k, q, position, file, hk, hrest⟩
    · refine .inl ⟨fun q hq hid ↦ ?_, hfile⟩
      rcases List.mem_append.mp hq with hq | hq
      · exact hnone q hq hid
      · rw [List.mem_singleton.mp hq, hw]
    · refine .inr ⟨k, q, position, file, ?_, hrest⟩
      rw [List.getElem?_append_left (List.getElem?_eq_some_iff.mp hk).1, hk]

theorem carries_set (h : Agreed blkid block puts files)
    (hr' : r'.blkid = blkid → Carries block r') :
    ∀ q ∈ puts.set i r', q.blkid = blkid → Carries block q := by
  intro q hq hid
  rcases List.mem_or_eq_of_mem_set hq with hq | rfl
  · exact h.carries q hq hid
  · exact hr' hid

/-- A change that neither touches the file nor the progress of an upload of the block. -/
theorem Agreed.set (h : Agreed blkid block puts files) (hi : puts[i]? = some r)
    (hid : r'.blkid = r.blkid) (hr' : r'.blkid = blkid → Carries block r')
    (hw : r.blkid = blkid → r'.written = r.written) (hf : files' blkid = files blkid) :
    Agreed blkid block (puts.set i r') files' := by
  refine ⟨carries_set h hr', fun file hfile ↦ h.part file (hf ▸ hfile), ?_⟩
  rw [hf]
  rcases h.latest with ⟨hnone, hfile⟩ | ⟨k, q, position, file, hk, hqid, hq, hrest⟩
  · refine .inl ⟨fun q hq hqid ↦ ?_, hfile⟩
    rcases List.mem_or_eq_of_mem_set hq with hq | rfl
    · exact hnone q hq hqid
    · rw [hw (hid ▸ hqid)]
      exact hnone r (List.mem_of_getElem? hi) (hid ▸ hqid)
  · by_cases hki : i = k
    · subst hki
      obtain rfl : r = q := Option.some.inj (hi.symm.trans hk)
      refine .inr ⟨i, r', position, file, ?_, hid.trans hqid, (hw hqid).trans hq, hrest⟩
      exact List.getElem?_set_self (List.getElem?_eq_some_iff.mp hk).1
    · exact .inr ⟨k, q, position, file, (List.getElem?_set_ne hki).trans hk, hqid, hq, hrest⟩

theorem Agreed.opened (h : Agreed r.blkid block puts files) (hi : puts[i]? = some r)
    (hw : r.written = none) (hm : r.messages = []) :
    Agreed r.blkid block (puts.set i { r with written := some 0 })
      (update files r.blkid (some [])) := by
  have hss : r.ss = block := by
    have hcollected := ((h.carries r (List.mem_of_getElem? hi) rfl).collecting hw).2
    rwa [hm, List.flatten_nil, List.append_nil] at hcollected
  refine ⟨carries_set h fun _ ↦ ⟨nofun, fun position hp ↦ ?_⟩, fun file hfile ↦ ?_, ?_⟩
  · obtain rfl := Option.some.inj hp
    refine ⟨hss, Nat.zero_le _, fun hf ↦ ?_⟩
    rw [((h.carries r (List.mem_of_getElem? hi) rfl).collecting hw).1] at hf
    cases hf
  · rw [update_self, Option.some.injEq] at hfile
    exact hfile ▸ PartOf.nil nul block
  · exact .inr ⟨i, { r with written := some 0 }, 0, [],
      List.getElem?_set_self (List.getElem?_eq_some_iff.mp hi).1, rfl, rfl, update_self .., by
        rw [List.take_zero]⟩

theorem Agreed.write {size position : Nat} (h : Agreed r.blkid block puts files)
    (hi : puts[i]? = some r) (hw : r.written = some position)
    (hf : r.finished = false) (hb : position + size ≤ r.ss.length) :
    Agreed r.blkid block (puts.set i { r with written := some (position + size) })
      (update files r.blkid
        (some (writeAt nul ((files r.blkid).getD []) position (slice r.ss position size)))) := by
  obtain ⟨rfl, -, -⟩ := (h.carries r (List.mem_of_getElem? hi) rfl).writing position hw
  rcases h.latest with ⟨hnone, -⟩ | ⟨k, q, p, file, hk, hqid, hq, hfile, hprefix⟩
  · rw [hnone r (List.mem_of_getElem? hi) rfl] at hw
    cases hw
  rw [hfile, Option.getD_some]
  refine ⟨carries_set h fun _ ↦ ⟨nofun, fun p' hp' ↦ ?_⟩, fun file' hfile' ↦ ?_, .inr ?_⟩
  · obtain rfl := Option.some.inj hp'
    refine ⟨rfl, hb, fun hfinished ↦ ?_⟩
    rw [hf] at hfinished
    cases hfinished
  · rw [update_self, Option.some.injEq] at hfile'
    exact hfile' ▸ (h.part file hfile).writeAt hb
  · by_cases hik : i = k
    · subst hik
      obtain rfl : r = q := Option.some.inj (hi.symm.trans hk)
      obtain rfl : position = p := Option.some.inj (hw.symm.trans hq)
      exact ⟨i, _, _, _, List.getElem?_set_self (List.getElem?_eq_some_iff.mp hk).1, rfl, rfl,
        update_self .., take_prefix_writeAt_self hprefix hb⟩
    · have hp : p ≤ r.ss.length := ((h.carries q (List.mem_of_getElem? hk) hqid).writing p hq).2.1
      exact ⟨k, q, p, _, (List.getElem?_set_ne hik).trans hk, hqid, hq, update_self ..,
        take_prefix_writeAt hprefix hp hb⟩

end

theorem Agreed.step {block : Str}
    (h : Agreed (sha256sum block) block s.puts s.files) (hg : Whole sha256sum block s a)
    (hs : step sha256sum s a = some s') :
    Agreed (sha256sum block) block s'.puts s'.files := by
  have hu := uploaded_of_step hs
  generalize s'.puts = puts, s'.files = files at hu ⊢
  cases hu with
  | kept => exact h
  | @put other stream result writes call arrives =>
    refine h.add (fun hid ↦ ⟨fun _ ↦ ⟨rfl, ?_⟩, nofun⟩) rfl
    obtain ⟨rfl, hflag⟩ := hg arrives hid
    obtain ⟨⟨flag, ws⟩, hw, rfl⟩ := Option.map_eq_some_iff.mp hflag
    have hwrites : ws = writes := by
      rw [reaches, Bool.and_eq_true] at arrives
      rw [putToDatanode, if_neg (by rw [arrives.1]; decide)] at call
      cases hput : stream.put with
      | error fault =>
        rw [hput] at arrives
        cases arrives.2
      | ok _ =>
        simp only [hput, hw, Option.map_some, Option.some.injEq] at call
        split_ifs at call <;> exact (Prod.mk.inj call).2
    rw [List.nil_append, ← hwrites, (writeStream_accepted hw).1, List.drop_zero]
  | unanswered other => exact h.add (fun hid ↦ absurd hid hg) rfl
  | @receive i size r found collecting =>
    refine h.set found rfl (fun hid ↦ ⟨fun hw ↦ ?_, fun p hp ↦ ?_⟩) (fun _ ↦ rfl) rfl
    · obtain ⟨hfinished, hblock⟩ := (h.carries r (List.mem_of_getElem? found) hid).collecting hw
      refine ⟨hfinished, ?_⟩
      rw [List.append_assoc, ← List.flatten_append, List.take_append_drop, hblock]
    · rw [collecting] at hp
      cases hp
  | @cut i r found collecting =>
    refine h.set found rfl (fun hid ↦ ⟨fun hw ↦ ?_, fun p hp ↦ ?_⟩) (fun _ ↦ rfl) rfl
    · have hblock := (h.carries r (List.mem_of_getElem? found) hid).collecting hw
      rwa [hg r found hid] at hblock
    · rw [collecting] at hp
      cases hp
  | @opened i r found collecting running arrived =>
    by_cases hid : r.blkid = sha256sum block
    · rw [← hid] at h ⊢
      exact h.opened found collecting arrived
    · exact h.set found rfl (fun hid' ↦ absurd hid' hid) (fun hid' ↦ absurd hid' hid)
        (update_of_ne (Ne.symm hid) ..)
  | @unopened i r found =>
    have hid := hg rfl r found
    exact h.set found rfl (fun hid' ↦ absurd hid' hid) (fun hid' ↦ absurd hid' hid) rfl
  | @write i size position r found written running bound =>
    by_cases hid : r.blkid = sha256sum block
    · rw [← hid] at h ⊢
      exact h.write found written running bound
    · exact h.set found rfl (fun hid' ↦ absurd hid' hid) (fun hid' ↦ absurd hid' hid)
        (update_of_ne (Ne.symm hid) ..)
  | @finish i r found written running =>
    refine h.set found rfl (fun hid ↦ ⟨fun hw ↦ absurd hw written, fun p hp ↦ ?_⟩) (fun _ ↦ rfl) rfl
    obtain ⟨hss, hbound, -⟩ := (h.carries r (List.mem_of_getElem? found) hid).writing p hp
    refine ⟨hss, hbound, fun _ ↦ ?_⟩
    have hall := hg r found hid
    rw [hp, hss] at hall
    exact Option.some.inj hall

/-- No upload under the hash is in the middle of writing its file. -/
def Idle (blkid : Str) (s : Datanode) : Prop :=
  ∀ r ∈ s.puts, r.blkid = blkid → r.written = none ∨ r.finished = true

theorem Agreed.file_of_idle {blkid block : Str} (h : Agreed blkid block s.puts s.files)
    (hidle : Idle blkid s) :
    s.files blkid = none ∧ (∀ r ∈ s.puts, r.blkid = blkid → r.written = none) ∨
      s.files blkid = some block := by
  rcases h.latest with ⟨hnone, hfile | hfile⟩ | ⟨i, r, p, file, hi, hid, hp, hfile, hprefix⟩
  · exact .inl ⟨hfile, hnone⟩
  · exact .inr hfile
  · have hr := List.mem_of_getElem? hi
    have hfinished := (hidle r hr hid).resolve_left (by rw [hp]; nofun)
    rw [((h.carries r hr hid).writing p hp).2.2 hfinished, List.take_length] at hprefix
    rw [hfile, (h.part file hfile).eq_of_whole hprefix]
    exact .inr rfl

/-- What a step does to the downloads. -/
inductive Downloaded (sha256sum : Str → Str) (s : Datanode) : Step → List Sender → Prop
  | kept (a : Step) : Downloaded sha256sum s a s.gets
  | get (blkid : Str) :
      Downloaded sha256sum s (.get blkid) (s.gets ++ [({ blkid := blkid } : Sender)])
  | start {j : Nat} {g g' : Sender} (found : s.gets[j]? = some g)
      (act : g.start (s.files g.blkid) = some g') :
      Downloaded sha256sum s (.startSender j) (s.gets.set j g')
  | read {j : Nat} {g g' : Sender} (found : s.gets[j]? = some g)
      (act : g.read (s.files g.blkid) = some g') :
      Downloaded sha256sum s (.read j) (s.gets.set j g')
  | send {j status : Nat} {g g' : Sender} (found : s.gets[j]? = some g)
      (act : g.send status = some g') :
      Downloaded sha256sum s (.send j status) (s.gets.set j g')
  | receive {j size : Nat} {g g' : Sender} (found : s.gets[j]? = some g)
      (act : g.receive size = some g') :
      Downloaded sha256sum s (.receiveBack j size) (s.gets.set j g')
  | cut {j : Nat} {g g' : Sender} (found : s.gets[j]? = some g) (act : g.cut = some g') :
      Downloaded sha256sum s (.cutBack j) (s.gets.set j g')
  | answer {j : Nat} {g g' : Sender} (found : s.gets[j]? = some g)
      (act : g.answer sha256sum = some g') :
      Downloaded sha256sum s (.answer j) (s.gets.set j g')

theorem downloaded_of_step (h : step sha256sum s a = some s') :
    Downloaded sha256sum s a s'.gets := by
  have hput : ∀ i act, s.withPut i act = some s' → Downloaded sha256sum s a s'.gets := by
    intro i act hs
    obtain ⟨r, r', -, -, rfl⟩ := withPut_eq_some.mp hs
    exact .kept a
  cases a with
  | put block stream =>
    obtain ⟨r, -, rfl⟩ := Option.map_eq_some_iff.mp h
    split_ifs <;> exact .kept _
  | unanswered block =>
    obtain rfl := Option.some.inj h
    exact .kept _
  | receive i size => exact hput i _ h
  | cut i => exact hput i _ h
  | onClosed i opened =>
    obtain ⟨r, -, hact⟩ := Option.bind_eq_some_iff.mp h
    obtain ⟨r', -, rfl⟩ := Option.map_eq_some_iff.mp hact
    exact .kept _
  | write i size =>
    obtain ⟨r, -, hact⟩ := Option.bind_eq_some_iff.mp h
    obtain ⟨w, -, rfl⟩ := Option.map_eq_some_iff.mp hact
    exact .kept _
  | finish i => exact hput i _ h
  | get blkid =>
    obtain rfl := Option.some.inj h
    exact .get blkid
  | startSender j =>
    obtain ⟨g, g', hg, hact, rfl⟩ := withGet_eq_some.mp h
    exact .start hg hact
  | read j =>
    obtain ⟨g, g', hg, hact, rfl⟩ := withGet_eq_some.mp h
    exact .read hg hact
  | send j status =>
    obtain ⟨g, g', hg, hact, rfl⟩ := withGet_eq_some.mp h
    exact .send hg hact
  | receiveBack j size =>
    obtain ⟨g, g', hg, hact, rfl⟩ := withGet_eq_some.mp h
    exact .receive hg hact
  | cutBack j =>
    obtain ⟨g, g', hg, hact, rfl⟩ := withGet_eq_some.mp h
    exact .cut hg hact
  | answer j =>
    obtain ⟨g, g', hg, hact, rfl⟩ := withGet_eq_some.mp h
    exact .answer hg hact

/-- How far the content of a file has come through the stream. -/
def Streams (content : Str) (g : Sender) : Prop :=
  match g.sending with
  | .accepted => g.ss ++ g.messages.flatten = []
  | .reading position =>
    position ≤ content.length ∧ g.ss ++ g.messages.flatten = content.take position
  | .writing position buffer =>
    position ≤ content.length ∧ g.ss ++ g.messages.flatten ++ buffer = content.take position ∧
      (buffer.length < brpcStreamChunkSize → position = content.length)
  | .closed => g.ss ++ g.messages.flatten = content

/-- A download that brings the content and answers with what the check of the hash says of it. -/
structure Brings (sha256sum : Str → Str) (content : Str) (g : Sender) : Prop where
  streams : Streams content g
  result : ∀ res, g.result = some res →
    res = getFromDatanode sha256sum (fun _ _ ↦ .ok content) [] g.blkid

section

variable {content : Str} {file : Option Str} {g g' : Sender} {status size : Nat}

theorem blkid_of_start (hs : g.start file = some g') : g'.blkid = g.blkid := by
  simp only [Sender.start, Option.ite_none_right_eq_some] at hs
  rw [← Option.some.inj hs.2]

theorem blkid_of_read (hs : g.read file = some g') : g'.blkid = g.blkid := by
  unfold Sender.read at hs
  split at hs
  · rw [← Option.some.inj hs]
  · cases hs

theorem blkid_of_send (hs : g.send status = some g') : g'.blkid = g.blkid := by
  unfold Sender.send at hs
  split at hs
  · split_ifs at hs <;> rw [← Option.some.inj hs]
  · cases hs

theorem blkid_of_receive (hs : g.receive size = some g') : g'.blkid = g.blkid := by
  simp only [Sender.receive, Option.ite_none_right_eq_some] at hs
  rw [← Option.some.inj hs.2]

theorem blkid_of_answer (hs : g.answer sha256sum = some g') : g'.blkid = g.blkid := by
  simp only [Sender.answer, Option.ite_none_right_eq_some] at hs
  rw [← Option.some.inj hs.2]

theorem Brings.start (h : Brings sha256sum content g) (hc : file.getD [] = content)
    (hs : g.start file = some g') : Brings sha256sum content g' := by
  simp only [Sender.start, Option.ite_none_right_eq_some] at hs
  obtain ⟨haccepted, hg'⟩ := hs
  obtain rfl := Option.some.inj hg'
  have hempty : g.ss ++ g.messages.flatten = [] := by
    have hstreams := h.streams
    rwa [Streams, haccepted] at hstreams
  refine ⟨?_, h.result⟩
  by_cases hcontent : content = []
  · simp only [Streams, if_pos (hc.trans hcontent), hempty, hcontent]
  · simp only [Streams, if_neg (fun he ↦ hcontent (hc.symm.trans he)), hempty, List.take_zero,
      Nat.zero_le, and_self]

theorem Brings.read (h : Brings sha256sum content g) (hc : file.getD [] = content)
    (hs : g.read file = some g') : Brings sha256sum content g' := by
  unfold Sender.read at hs
  split at hs
  case h_2 => cases hs
  rename_i position hreading
  obtain rfl := Option.some.inj hs
  obtain ⟨hp, hsent⟩ : position ≤ content.length ∧
      g.ss ++ g.messages.flatten = content.take position := by
    have hstreams := h.streams
    rwa [Streams, hreading] at hstreams
  refine ⟨?_, h.result⟩
  rw [hc]
  have hlength : (slice content position brpcStreamChunkSize).length =
      min brpcStreamChunkSize (content.length - position) := by
    rw [slice, List.length_take, List.length_drop]
  by_cases hempty : slice content position brpcStreamChunkSize = []
  · rw [hempty, List.length_nil, brpcStreamChunkSize] at hlength
    simp only [Streams, if_pos hempty]
    rw [hsent, List.take_of_length_le (by omega)]
  · simp only [Streams, if_neg hempty]
    refine ⟨by omega, ?_, by omega⟩
    rw [hsent, take_append_slice, hlength, List.take_eq_take_iff]
    omega

theorem Brings.send (h : Brings sha256sum content g) (hr : ¬ RefusesChunk status)
    (hs : g.send status = some g') : Brings sha256sum content g' := by
  unfold Sender.send at hs
  split at hs
  case h_2 => cases hs
  rename_i position buffer hwriting
  by_cases hzero : status = 0
  · rw [if_pos hzero] at hs
    obtain rfl := Option.some.inj hs
    obtain ⟨hp, hsent, hshort⟩ : position ≤ content.length ∧
        g.ss ++ g.messages.flatten ++ buffer = content.take position ∧
        (buffer.length < brpcStreamChunkSize → position = content.length) := by
      have hstreams := h.streams
      rwa [Streams, hwriting] at hstreams
    refine ⟨?_, h.result⟩
    have hall : g.ss ++ (g.messages ++ [buffer]).flatten = content.take position := by
      rw [List.flatten_append, List.flatten_singleton, ← List.append_assoc, hsent]
    by_cases hlast : buffer.length < brpcStreamChunkSize
    · simp only [Streams, if_pos hlast]
      rw [hall, hshort hlast, List.take_length]
    · simp only [Streams, if_neg hlast]
      exact ⟨hp, hall⟩
  · have hagain : status = eagain := not_not.mp fun hne ↦ hr ⟨hzero, hne⟩
    rw [if_neg hzero, if_pos hagain] at hs
    obtain rfl := Option.some.inj hs
    exact h

theorem Brings.receive (h : Brings sha256sum content g) (hs : g.receive size = some g') :
    Brings sha256sum content g' := by
  simp only [Sender.receive, Option.ite_none_right_eq_some] at hs
  obtain ⟨-, hg'⟩ := hs
  obtain rfl := Option.some.inj hg'
  have hsame : g.ss ++ (g.messages.take size).flatten ++ (g.messages.drop size).flatten =
      g.ss ++ g.messages.flatten := by
    rw [List.append_assoc, ← List.flatten_append, List.take_append_drop]
  refine ⟨?_, h.result⟩
  have hstreams := h.streams
  unfold Streams at hstreams ⊢
  simp only [hsame]
  exact hstreams

theorem Brings.answer (h : Brings sha256sum content g) (hs : g.answer sha256sum = some g') :
    Brings sha256sum content g' := by
  simp only [Sender.answer, Option.ite_none_right_eq_some] at hs
  obtain ⟨⟨hclosed, hmessages, -⟩, hg'⟩ := hs
  obtain rfl := Option.some.inj hg'
  have hss : g.ss = content := by
    have hstreams := h.streams
    rwa [Streams, hclosed, hmessages, List.flatten_nil, List.append_nil] at hstreams
  refine ⟨h.streams, fun res hres ↦ ?_⟩
  rw [← Option.some.inj hres, hss]

end

/-- Nobody opens or writes the file of the hash, and no download of it from number `n` on is cut
off. -/
def Undisturbed (blkid : Str) (n : Nat) (s : Datanode) : Step → Prop
  | .onClosed i opened => opened = true → ∀ r, s.puts[i]? = some r → r.blkid ≠ blkid
  | .write i _ => ∀ r, s.puts[i]? = some r → r.blkid ≠ blkid
  | .send j status => RefusesChunk status → n ≤ j → ∀ g, s.gets[j]? = some g → g.blkid ≠ blkid
  | .cutBack j => n ≤ j → ∀ g, s.gets[j]? = some g → g.blkid ≠ blkid
  | _ => True

theorem files_of_undisturbed {blkid : Str} {n : Nat} (hg : Undisturbed blkid n s a)
    (hs : step sha256sum s a = some s') : s'.files blkid = s.files blkid := by
  have hu := uploaded_of_step hs
  generalize s'.puts = puts, s'.files = files at hu ⊢
  cases hu with
  | kept => rfl
  | put => rfl
  | unanswered => rfl
  | receive => rfl
  | cut => rfl
  | @opened i r found => exact update_of_ne (Ne.symm (hg rfl r found)) ..
  | unopened => rfl
  | @write i size position r found => exact update_of_ne (Ne.symm (hg r found)) ..
  | finish => rfl

/-- Downloads of a file that nobody writes bring its content, in whatever order their steps and
those of the others come. -/
theorem undisturbed_downloads {blkid : Str}
    (h : Reaches (step sha256sum) (Undisturbed blkid s.gets.length) s t) :
    t.files blkid = s.files blkid ∧ s.gets.length ≤ t.gets.length ∧
      ∀ j g, s.gets.length ≤ j → t.gets[j]? = some g → g.blkid = blkid →
        Brings sha256sum ((s.files blkid).getD []) g := by
  refine h.invariant (I := fun t ↦ t.files blkid = s.files blkid ∧
    s.gets.length ≤ t.gets.length ∧ ∀ j g, s.gets.length ≤ j → t.gets[j]? = some g →
      g.blkid = blkid → Brings sha256sum ((s.files blkid).getD []) g)
    ⟨rfl, le_rfl, fun j g hj hg ↦ ?_⟩ fun t a u _ hinv hguard hstep ↦ ?_
  · rw [List.getElem?_eq_none hj] at hg
    cases hg
  · obtain ⟨hfiles, hlength, hbrings⟩ := hinv
    refine ⟨(files_of_undisturbed hguard hstep).trans hfiles, ?_⟩
    have hset : ∀ k g₀ g', t.gets[k]? = some g₀ → g'.blkid = g₀.blkid →
        (s.gets.length ≤ k → g₀.blkid = blkid → Brings sha256sum ((s.files blkid).getD []) g₀ →
          Brings sha256sum ((s.files blkid).getD []) g') →
        s.gets.length ≤ (t.gets.set k g').length ∧
          ∀ j g, s.gets.length ≤ j → (t.gets.set k g')[j]? = some g → g.blkid = blkid →
            Brings sha256sum ((s.files blkid).getD []) g := by
      intro k g₀ g' hk hid hkeep
      refine ⟨by rw [List.length_set]; exact hlength, fun j g hj hg hgid ↦ ?_⟩
      by_cases hkj : k = j
      · subst hkj
        rw [List.getElem?_set_self (List.getElem?_eq_some_iff.mp hk).1] at hg
        obtain rfl := Option.some.inj hg
        exact hkeep hj (hid ▸ hgid) (hbrings k g₀ hj hk (hid ▸ hgid))
      · rw [List.getElem?_set_ne hkj] at hg
        exact hbrings j g hj hg hgid
    have hd := downloaded_of_step hstep
    generalize u.gets = gets at hd ⊢
    cases hd with
    | kept => exact ⟨hlength, hbrings⟩
    | get id =>
      refine ⟨by rw [List.length_append]; omega, fun j g hj hg hgid ↦ ?_⟩
      by_cases hold : j < t.gets.length
      · rw [List.getElem?_append_left hold] at hg
        exact hbrings j g hj hg hgid
      · rw [List.getElem?_append_right (by omega)] at hg
        have hnew := List.mem_singleton.mp (List.mem_of_getElem? hg)
        subst hnew
        exact ⟨rfl, nofun⟩
    | @start k g g' found act =>
      refine hset k g g' found (blkid_of_start act) fun hk hid hb ↦ ?_
      exact hb.start (by rw [hid, hfiles]) act
    | @read k g g' found act =>
      refine hset k g g' found (blkid_of_read act) fun hk hid hb ↦ ?_
      exact hb.read (by rw [hid, hfiles]) act
    | @send k status g g' found act =>
      refine hset k g g' found (blkid_of_send act) fun hk hid hb ↦ ?_
      exact hb.send (fun hr ↦ hguard hr hk g found hid) act
    | @receive k size g g' found act =>
      exact hset k g g' found (blkid_of_receive act) fun hk hid hb ↦ hb.receive act
    | @cut k g g' found act =>
      obtain rfl := Option.some.inj act
      exact hset k g _ found rfl fun hk hid _ ↦ absurd hid (hguard hk g found)
    | @answer k g g' found act =>
      exact hset k g g' found (blkid_of_answer act) fun hk hid hb ↦ hb.answer act

/-- What is stored of a block. Uploads of the same block may overlap in any way, each writing the
one file at a position of its own, and downloads run next to them. As long as none of these uploads
falls short, the file is the block whenever nobody is writing it, and a download that is not
disturbed by another upload answers with the block. -/
theorem stored_block_is_served {files : Str → Option Str} {block : Str}
    (hfiles : files (sha256sum block) = none ∨ files (sha256sum block) = some block)
    (hs : Reaches (step sha256sum) (Whole sha256sum block) (start files) s)
    (hidle : Idle (sha256sum block) s) :
    (s.files (sha256sum block) = some block ∨ s.files (sha256sum block) = none ∧
        ∀ r ∈ s.puts, r.blkid = sha256sum block → r.finished = false) ∧
      ∀ t, s.files (sha256sum block) = some block →
        Reaches (step sha256sum) (Undisturbed (sha256sum block) s.gets.length) s t →
        ∀ j g res, s.gets.length ≤ j → t.gets[j]? = some g → g.blkid = sha256sum block →
          g.result = some res → res = .ok block := by
  have hagreed : Agreed (sha256sum block) block s.puts s.files := by
    refine hs.invariant (I := fun s ↦ Agreed (sha256sum block) block s.puts s.files) ?_
      fun t a u _ ht hg hstep ↦ ht.step hg hstep
    refine ⟨fun r hr ↦ absurd hr List.not_mem_nil, fun file hfile ↦ ?_,
      .inl ⟨fun r hr ↦ absurd hr List.not_mem_nil, hfiles⟩⟩
    rcases hfiles with hnone | hsome
    · rw [show (start files).files = files from rfl, hnone] at hfile
      cases hfile
    · rw [show (start files).files = files from rfl, hsome] at hfile
      exact Option.some.inj hfile ▸ PartOf.refl nul block
  refine ⟨?_, fun t hfile ht j g res hj hg hid hres ↦ ?_⟩
  · rcases hagreed.file_of_idle hidle with ⟨hnone, hunopened⟩ | hblock
    · refine .inr ⟨hnone, fun r hr hid ↦ ?_⟩
      exact ((hagreed.carries r hr hid).collecting (hunopened r hr hid)).1
    · exact .inl hblock
  · obtain ⟨-, -, hbrings⟩ := undisturbed_downloads ht
    have hanswer := (hbrings j g hj hg hid).result res hres
    rw [hfile, Option.getD_some, hid, getFromDatanode] at hanswer
    simpa using hanswer

/-- `Whole` of a block `"ab"` that is its own hash, as a test of the steps of an upload. -/
def wholeTest (s : Datanode) : Step → Bool
  | .put other stream =>
    decide (other = "ab".toList ∧ (writeStream other stream.statuses 0).map (·.1) = some false)
  | .receive .. | .write .. => true
  | .onClosed _ opened => opened
  | .finish i => s.puts[i]?.all fun r ↦ decide (r.written = some r.ss.length)
  | _ => false

theorem whole_of_wholeTest (h : wholeTest s a = true) : Whole id "ab".toList s a := by
  cases a with
  | put other stream => exact fun _ _ ↦ of_decide_eq_true h
  | receive | write => trivial
  | onClosed i opened =>
    intro ho
    cases ho.symm.trans h
  | finish i =>
    intro r hr _
    simp only [wholeTest, hr, Option.all_some] at h
    exact of_decide_eq_true h
  | _ => cases h

/-- `Undisturbed`, as a test of the steps of one download. -/
def undisturbedTest (_ : Datanode) : Step → Bool
  | .send _ status => decide (¬ RefusesChunk status)
  | .get _ | .startSender _ | .read _ | .receiveBack .. | .answer _ => true
  | _ => false

theorem undisturbed_of_undisturbedTest {blkid : Str} {n : Nat} (h : undisturbedTest s a = true) :
    Undisturbed blkid n s a := by
  cases a with
  | send j status => exact fun hr ↦ absurd hr (of_decide_eq_true h)
  | get | startSender | read | receiveBack | answer => trivial
  | _ => cases h

def download (j : Nat) (blkid : Str) : List Step :=
  [.get blkid, .startSender j, .read j, .send j eagain, .send j 0, .receiveBack j 1, .answer j]

/-- Two uploads of the block that write its file in turns, the second one into the file that it has
just truncated under the first one. -/
def overlapping : List Step :=
  [.put "ab".toList { statuses := [eagain, 0] }, .put "ab".toList { statuses := [0] },
   .receive 0 1, .receive 1 1, .onClosed 0 true, .write 0 1, .onClosed 1 true, .write 0 1,
   .write 1 2, .finish 0, .finish 1]

/-- The state after these steps. -/
def overlapped : Datanode :=
  (run (step id) wholeTest (start fun _ ↦ none) overlapping).get (by decide +kernel)

theorem stored_block_is_served_overlapped :
    ∃ t g, Reaches (step id) (Undisturbed "ab".toList 0) overlapped t ∧
      t.gets[0]? = some g ∧ g.result = some (.ok "ab".toList) := by
  have hrun : run (step id) wholeTest (start fun _ ↦ none) overlapping = some overlapped :=
    (Option.some_get _).symm
  have hreached := (reaches_of_run .refl hrun).mono fun t a h ↦ whole_of_wholeTest h
  have hidle : Idle "ab".toList overlapped := by
    have htest : ∀ r ∈ overlapped.puts, r.written = none ∨ r.finished = true := by decide +kernel
    exact fun r hr _ ↦ htest r hr
  obtain ⟨t, ht, hp⟩ := exists_reached (step id) undisturbedTest overlapped
    (download 0 "ab".toList)
    (fun t ↦ t.gets[0]?.any fun g : Sender ↦ decide (g.blkid = "ab".toList) && g.result.isSome)
    (by decide +kernel)
  obtain ⟨g, hg, hg'⟩ := (Option.any_eq_true ..).mp hp
  obtain ⟨hid, hres⟩ := Bool.and_eq_true_iff.mp hg'
  obtain ⟨res, hres⟩ := Option.isSome_iff_exists.mp hres
  have hundisturbed : Reaches (step id) (Undisturbed "ab".toList overlapped.gets.length)
      overlapped t := ht.mono fun t a h ↦ undisturbed_of_undisturbedTest h
  have hserved := (stored_block_is_served (.inl rfl) hreached hidle).2 t (by decide +kernel)
    hundisturbed 0 g res (by decide +kernel) hg (of_decide_eq_true hid) hres
  exact ⟨t, g, hundisturbed, hg, by rw [hres, hserved]⟩

/-- No upload of the hash opens its file. -/
def NoneOpens (blkid : Str) (s : Datanode) : Step → Prop
  | .onClosed i opened => opened = true → ∀ r, s.puts[i]? = some r → r.blkid ≠ blkid
  | _ => True

/-- The one upload of the hash that writes, and the file as far as it has written it. -/
structure Writes (blkid ss : Str) (i : Nat) (puts : List Receiver) (files : Str → Option Str) :
    Prop where
  own : ∃ r position, puts[i]? = some r ∧ r.blkid = blkid ∧ r.ss = ss ∧
    r.written = some position ∧ position ≤ ss.length ∧ files blkid = some (ss.take position)
  others : ∀ k r, k ≠ i → puts[k]? = some r → r.blkid = blkid →
    r.written = none ∨ r.finished = true

theorem Writes.set {blkid ss : Str} {i k : Nat} {puts : List Receiver}
    {files files' : Str → Option Str} {r r' : Receiver} (h : Writes blkid ss i puts files)
    (hk : puts[k]? = some r) (hid : r'.blkid = r.blkid)
    (hf : k ≠ i → files' blkid = files blkid)
    (hi : k = i → ∃ position, r'.ss = ss ∧ r'.written = some position ∧ position ≤ ss.length ∧
      files' blkid = some (ss.take position))
    (ho : k ≠ i → r.blkid = blkid → r'.written = none ∨ r'.finished = true) :
    Writes blkid ss i (puts.set k r') files' := by
  obtain ⟨q, position, hq, hqid, hss, hw, hbound, hfile⟩ := h.own
  refine ⟨?_, fun l r₀ hl hr₀ hr₀id ↦ ?_⟩
  · by_cases hki : k = i
    · subst hki
      obtain rfl : r = q := Option.some.inj (hk.symm.trans hq)
      obtain ⟨p, hss', hw', hbound', hfile'⟩ := hi rfl
      exact ⟨r', p, List.getElem?_set_self (List.getElem?_eq_some_iff.mp hk).1, hid.trans hqid,
        hss', hw', hbound', hfile'⟩
    · exact ⟨q, position, (List.getElem?_set_ne hki).trans hq, hqid, hss, hw, hbound,
        (hf hki).trans hfile⟩
  · by_cases hkl : k = l
    · subst hkl
      rw [List.getElem?_set_self (List.getElem?_eq_some_iff.mp hk).1] at hr₀
      obtain rfl := Option.some.inj hr₀
      exact ho hl (hid ▸ hr₀id)
    · rw [List.getElem?_set_ne hkl] at hr₀
      exact h.others l r₀ hl hr₀ hr₀id

theorem Writes.step {blkid ss : Str} {i : Nat} (h : Writes blkid ss i s.puts s.files)
    (hg : NoneOpens blkid s a) (hs : step sha256sum s a = some s') :
    Writes blkid ss i s'.puts s'.files := by
  obtain ⟨q, position, hq, hqid, hss, hw, hbound, hfile⟩ := h.own
  have hadd : ∀ r, r.written = none → Writes blkid ss i (s.puts ++ [r]) s.files := by
    intro r hr
    refine ⟨⟨q, position, ?_, hqid, hss, hw, hbound, hfile⟩, fun k r₀ hk hr₀ hid ↦ ?_⟩
    · rw [List.getElem?_append_left (List.getElem?_eq_some_iff.mp hq).1, hq]
    · by_cases hold : k < s.puts.length
      · rw [List.getElem?_append_left hold] at hr₀
        exact h.others k r₀ hk hr₀ hid
      · rw [List.getElem?_append_right (by omega)] at hr₀
        rw [List.mem_singleton.mp (List.mem_of_getElem? hr₀), hr]
        exact .inl rfl
  have hopened : ∀ r, s.puts[i]? = some r → r.written ≠ none := by
    intro r hr
    obtain rfl := Option.some.inj (hq.symm.trans hr)
    rw [hw]
    nofun
  have hu := uploaded_of_step hs
  generalize s'.puts = puts, s'.files = files at hu ⊢
  cases hu with
  | kept => exact h
  | put => exact hadd _ rfl
  | unanswered => exact hadd _ rfl
  | @receive k size r found collecting =>
    refine h.set found rfl (fun _ ↦ rfl) (fun hk ↦ ?_) fun hk hid ↦ h.others k r hk found hid
    exact absurd collecting (hopened r (hk ▸ found))
  | @cut k r found collecting =>
    refine h.set found rfl (fun _ ↦ rfl) (fun hk ↦ ?_) fun hk hid ↦ h.others k r hk found hid
    exact absurd collecting (hopened r (hk ▸ found))
  | @opened k r found collecting running arrived =>
    have hid := hg rfl r found
    refine h.set found rfl (fun _ ↦ update_of_ne (Ne.symm hid) ..) (fun hk ↦ ?_)
      fun _ hid' ↦ absurd hid' hid
    exact absurd collecting (hopened r (hk ▸ found))
  | @unopened k r found =>
    refine h.set found rfl (fun _ ↦ rfl) (fun hk ↦ ?_) fun _ _ ↦ .inr rfl
    subst hk
    obtain rfl := Option.some.inj (hq.symm.trans found)
    exact ⟨position, hss, hw, hbound, hfile⟩
  | @write k size p r found written running bound =>
    by_cases hk : k = i
    · subst hk
      obtain rfl := Option.some.inj (hq.symm.trans found)
      obtain rfl : p = position := Option.some.inj (written.symm.trans hw)
      rw [hss] at bound
      refine h.set found rfl (fun hne ↦ absurd rfl hne) (fun _ ↦ ?_) fun hne ↦ absurd rfl hne
      refine ⟨p + size, hss, rfl, bound, ?_⟩
      rw [hqid, update_self, hfile, Option.getD_some, hss]
      have hend : (ss.take p).length = p := by
        rw [List.length_take]
        omega
      rw [writeAt_of_length_eq hend, take_append_slice]
    · have hid : r.blkid ≠ blkid := by
        intro hid
        rcases h.others k r hk found hid with hnone | hfinished
        · rw [written] at hnone
          cases hnone
        · rw [running] at hfinished
          cases hfinished
      exact h.set found rfl (fun _ ↦ update_of_ne (Ne.symm hid) ..) (fun hki ↦ absurd hki hk)
        fun _ hid' ↦ absurd hid' hid
  | @finish k r found written running =>
    refine h.set found rfl (fun _ ↦ rfl) (fun hk ↦ ?_) fun _ _ ↦ .inr rfl
    subst hk
    obtain rfl := Option.some.inj (hq.symm.trans found)
    exact ⟨position, hss, hw, hbound, hfile⟩

/-- From the moment an upload opens the file while nobody else writes it, until the next one opens
it, this upload alone decides what the hash stands for, whatever it has received: a download that is
not disturbed answers with the part that was written where that has the hash, and throws elsewhere. -/
theorem last_upload_decides {blkid : Str} {i : Nat} {r : Receiver} {s₁ : Datanode}
    (hr : s.puts[i]? = some r) (hid : r.blkid = blkid) (hidle : Idle blkid s)
    (hopen : step sha256sum s (.onClosed i true) = some s₁)
    (ht : Reaches (step sha256sum) (NoneOpens blkid) s₁ t) :
    ∃ r' position, t.puts[i]? = some r' ∧ r'.written = some position ∧ position ≤ r.ss.length ∧
      t.files blkid = some (r.ss.take position) ∧
      ∀ u, Reaches (step sha256sum) (Undisturbed blkid t.gets.length) t u →
        ∀ j g res, t.gets.length ≤ j → u.gets[j]? = some g → g.blkid = blkid →
          g.result = some res →
          ∀ data, res = .ok data ↔ data = r.ss.take position ∧ sha256sum data = blkid := by
  have hfirst : Writes blkid r.ss i s₁.puts s₁.files := by
    obtain ⟨r₀, hr₀, hact⟩ := Option.bind_eq_some_iff.mp hopen
    obtain ⟨r', hr', rfl⟩ := Option.map_eq_some_iff.mp hact
    obtain rfl : r = r₀ := Option.some.inj (hr.symm.trans hr₀)
    simp only [Receiver.onClosed, Option.ite_none_right_eq_some, if_true] at hr'
    obtain rfl := Option.some.inj hr'.2
    refine ⟨⟨_, 0, List.getElem?_set_self (List.getElem?_eq_some_iff.mp hr).1, hid, rfl, rfl,
      Nat.zero_le _, ?_⟩, fun k q hk hq hqid ↦ ?_⟩
    · simp only [if_true, hid, update_self, List.take_zero]
    · rw [List.getElem?_set_ne (Ne.symm hk)] at hq
      exact hidle q (List.mem_of_getElem? hq) hqid
  have hwrites : Writes blkid r.ss i t.puts t.files :=
    ht.invariant (I := fun t ↦ Writes blkid r.ss i t.puts t.files) hfirst
      fun t a u _ hw hg hstep ↦ hw.step hg hstep
  obtain ⟨r', position, hr', -, -, hw, hbound, hfile⟩ := hwrites.own
  refine ⟨r', position, hr', hw, hbound, hfile, fun u hu j g res hj hg hgid hres data ↦ ?_⟩
  obtain ⟨-, -, hbrings⟩ := undisturbed_downloads hu
  have hanswer := (hbrings j g hj hg hgid).result res hres
  rw [hfile, Option.getD_some, hgid, getFromDatanode] at hanswer
  rw [hanswer]
  by_cases hsum : sha256sum (r.ss.take position) = blkid
  · simp only [ok_bind, hsum, ne_eq, not_true_eq_false, if_false, pure_eq_ok, Except.ok.injEq]
    constructor
    · rintro rfl
      exact ⟨rfl, hsum⟩
    · rintro ⟨rfl, -⟩
      rfl
  · simp only [ok_bind, hsum, ne_eq, not_false_eq_true, if_true, throw_eq_error, error_bind,
      reduceCtorEq, false_iff, not_and]
    rintro rfl
    exact hsum

/-- A block is stored, and an upload of it that breaks off after the first of two chunks opens its
file. -/
def brokenOff : Datanode :=
  (run (step id) (fun _ _ ↦ true) (start fun _ ↦ some "ab".toList)
    [.put "ab".toList { statuses := [0] }, .cut 0]).get (by decide +kernel)

def truncated : Datanode := (step id brokenOff (.onClosed 0 true)).get (by decide +kernel)

theorem last_upload_decides_truncated :
    ∃ u g res, Reaches (step id) (Undisturbed "ab".toList 0) truncated u ∧
      u.gets[0]? = some g ∧ g.result = some res ∧ res ≠ .ok "ab".toList := by
  obtain ⟨u, hu, hp⟩ := exists_reached (step id) undisturbedTest truncated
    [.get "ab".toList, .startSender 0, .answer 0]
    (fun u ↦ u.gets[0]?.any fun g : Sender ↦ decide (g.blkid = "ab".toList) && g.result.isSome)
    (by decide +kernel)
  obtain ⟨g, hg, hg'⟩ := (Option.any_eq_true ..).mp hp
  obtain ⟨hid, hres⟩ := Bool.and_eq_true_iff.mp hg'
  obtain ⟨res, hres⟩ := Option.isSome_iff_exists.mp hres
  have hundisturbed : Reaches (step id) (Undisturbed "ab".toList truncated.gets.length)
      truncated u := hu.mono fun t a h ↦ undisturbed_of_undisturbedTest h
  have hfound : brokenOff.puts[0]? = some { blkid := "ab".toList, messages := [] } := by
    decide +kernel
  have hidle : Idle "ab".toList brokenOff := by
    have htest : ∀ r ∈ brokenOff.puts, r.written = none ∨ r.finished = true := by decide +kernel
    exact fun r hr _ ↦ htest r hr
  obtain ⟨-, position, -, -, -, -, hdecides⟩ :=
    last_upload_decides hfound rfl hidle (Option.some_get _).symm .refl
  have hdata := (hdecides u hundisturbed 0 g res (by decide +kernel) hg (of_decide_eq_true hid)
    hres "ab".toList).mp
  refine ⟨u, g, res, hundisturbed, hg, hres, fun hok ↦ ?_⟩
  have hnil := (hdata hok).1
  rw [List.take_nil] at hnil
  exact absurd hnil (by decide)

end Datanode

end Spkdfs
