import IqLogger.Inputs.Tail.FollowOnly

/-!
# Files that are written line by line

In newline mode whatever a read ends with is handed on as a line, so what becomes of a file
depends on where the reads end. Programs that write a log write whole lines, and usually less than
a read takes between one `process` and the next. For these files the messages are the lines that
are not empty, each once and in their order
(`IqLogger.Tail.messages_eq_lines_of_whole`): the record has always read up to the end of a line
(`IqLogger.Tail.ReadLines`).
-/

namespace IqLogger

namespace Tail

open PointersTableInternalRecord (readBufferSize readLoop)

/-- A text of whole lines. -/
def Whole (text : Bytes) : Prop := text = [] ∨ text.getLast? = some newline

/-- After whole lines the next line begins. -/
theorem Whole.fields_append {text : Bytes} (h : Whole text) (rest : Bytes) :
    (text ++ rest).fields newline = text.fields newline ++ rest.fields newline := by
  rcases h with rfl | h
  · rfl
  · obtain ⟨line, rfl⟩ := List.getLast?_eq_some_iff.mp h
    rw [List.fields_append_self, List.append_assoc, List.singleton_append,
      List.fields_append_cons]

/-! ### One read -/

section Read

variable {r : PointersTableInternalRecord} {content : Bytes}

/-- What one read takes is handed on at once. -/
theorem messages_readLoop {added get : ℕ} (hline : r.startMsgRegEx = none) (hnew : 0 < added)
    (hle : added ≤ readBufferSize) (hsize : get + added ≤ content.length) :
    messages (readLoop content added get 0 r).2 = (substr content get added).fields newline := by
  have hneed : min readBufferSize (added - 0) = added := by omega
  have hread : (substr content get added).length = added := length_substr hsize
  have hsome : ¬(substr content get added).length = 0 := by omega
  have hrest : ∀ r', messages (readLoop content added (get + added) (0 + added) r').2 = [] := by
    intro r'
    rw [readLoop, dif_neg (by omega)]
    rfl
  rw [readLoop, dif_pos hnew]
  dsimp only
  rw [hneed, if_neg hsome, hread, messages_cons_processBuffer, messages_append, hrest,
    List.append_nil, (r.processBuffer_line hline _).1]

/-- **A `process` hands on the lines of what is new**, if one read takes that. -/
theorem messages_process_line {n : ℕ} (hline : r.startMsgRegEx = none)
    (hlink : r.symlinkPath = none) (hfail : r.streamFail = false)
    (hfollow : r.mode.followOnly = false) (hposition : r.fileCurrentPosition = n)
    (hn : n ≤ content.length) (hle : content.length ≤ n + readBufferSize) :
    messages (r.process content).2 = (content.drop n).fields newline := by
  have hsize : ¬((content.length : Int) < n) := by omega
  have hadded : ((content.length : Int) - n).toNat = content.length - n := by omega
  simp only [PointersTableInternalRecord.process, hlink, hfail, hposition, hsize, hadded, hfollow,
    Option.isSome_none, Bool.false_eq_true, and_false, if_false]
  by_cases hnew : content.length - n > 0
  · have hget : content.length - (content.length - n) = n := by omega
    have htext : substr content n (content.length - n) = content.drop n :=
      List.take_of_length_le (by rw [List.length_drop])
    simp only [hnew, Nat.sub_le, hget, if_true, messages_append,
      PointersTableInternalRecord.messages_savePosition, List.append_nil]
    rw [messages_readLoop hline hnew (by omega) (by omega), htext]
  · have hdrop : content.drop n = [] := List.drop_of_length_le (by omega)
    simp only [hnew, if_false, hdrop, PointersTableInternalRecord.messages_savePosition]
    rfl

end Read

/-! ### All of the file -/

/-- What `process` finds are whole lines, and what is new of them one read takes. -/
def FindsLines (s : TailedFile) (op : FileOp) : Prop :=
  op = .process → Whole s.content ∧
    (s.content.length : Int) ≤ s.record.fileCurrentPosition + readBufferSize

/-- **A record that has read whole lines**: they are its messages, and nothing is pending. -/
structure ReadLines (s : TailedFile) (calls : List Call) : Prop where
  line : s.record.startMsgRegEx = none
  symlinkPath : s.record.symlinkPath = none
  streamFail : s.record.streamFail = false
  follow : s.record.mode.followOnly = false
  read : ∃ before after, s.content = before ++ after ∧ Whole before ∧
    s.record.fileCurrentPosition = before.length ∧ messages calls = before.fields newline

section Steps

variable {s : TailedFile} {calls : List Call}

/-- **After a `process` all of the file has been read.** -/
theorem ReadLines.process (h : ReadLines s calls) (hfinds : FindsLines s .process) :
    ReadLines (s.step .process).1 (calls ++ (s.step .process).2) ∧
      messages (calls ++ (s.step .process).2) = s.content.fields newline := by
  obtain ⟨before, after, hcontent, hwhole, hposition, hmessages⟩ := h.read
  obtain ⟨hall, hle⟩ := hfinds rfl
  have hlength : before.length ≤ s.content.length := by
    rw [hcontent, List.length_append]
    exact Nat.le_add_right ..
  have hdrop : s.content.drop before.length = after := by rw [hcontent, List.drop_left]
  obtain ⟨c, hreads, -⟩ := s.record.process_reads h.symlinkPath h.streamFail h.follow hposition
    hlength
  have hlines : messages (calls ++ (s.step .process).2) = s.content.fields newline := by
    rw [messages_append, hmessages, hcontent, hwhole.fields_append]
    congr 1
    rw [hposition] at hle
    have hprocess := messages_process_line h.line h.symlinkPath h.streamFail h.follow hposition
      hlength (by omega)
    rwa [hdrop] at hprocess
  refine ⟨⟨hreads.sameFile.startMsgRegEx.trans h.line,
    hreads.sameFile.symlinkPath.trans h.symlinkPath, hreads.streamFail.trans h.streamFail,
    (congrArg StateMode.followOnly hreads.sameFile.mode).trans h.follow, s.content, [],
    (List.append_nil _).symm, hall, ?_, hlines⟩, hlines⟩
  change (s.record.process s.content).1.fileCurrentPosition = _
  rw [hreads.position, hposition, List.length_drop]
  omega

/-- **One operation.** In newline mode a `flush` finds nothing. -/
theorem ReadLines.step (h : ReadLines s calls) {op : FileOp} (hfinds : FindsLines s op) :
    ReadLines (s.step op).1 (calls ++ (s.step op).2) := by
  cases op with
  | append bytes =>
    obtain ⟨before, after, hcontent, hrest⟩ := h.read
    refine ⟨h.line, h.symlinkPath, h.streamFail, h.follow, before, after ++ bytes, ?_, ?_⟩
    · simp [TailedFile.step, hcontent]
    · simpa [TailedFile.step] using hrest
  | process => exact (h.process hfinds).1
  | flush =>
    have hflush : s.record.flush = (s.record, []) := by
      simp [PointersTableInternalRecord.flush, s.record.nothingPending h.line]
    rw [TailedFile.step, hflush, List.append_nil]
    exact h

/-- **Any operations**, up to another `process`. -/
theorem ReadLines.run_process : ∀ (ops : List FileOp) {s : TailedFile} {calls : List Call},
    ReadLines s calls →
    Machine.Along (fun s op => (s.step op).1) FindsLines s (ops ++ [.process]) →
    messages (calls ++ (Machine.run TailedFile.step s (ops ++ [.process])).2) =
      (Machine.run TailedFile.step s (ops ++ [.process])).1.content.fields newline
  | [], s, calls, h, ⟨hprocess, _⟩ => by
    rw [List.nil_append, Machine.run_cons, Machine.run_nil, List.append_nil]
    exact (h.process hprocess).2
  | op :: ops, s, calls, h, ⟨hop, hops⟩ => by
    rw [List.cons_append, Machine.run_cons, ← List.append_assoc]
    exact ReadLines.run_process ops (h.step hop) hops

end Steps

/-- **The lines of a file**, read from its beginning: if every `process` finds whole lines, the
messages up to the last one are the lines that are not empty. -/
theorem messages_eq_lines_of_whole {source : TailSource} {fileDescriptor : ℕ} {mode : StateMode}
    (hfollow : mode.followOnly = false) {content : Bytes} {ops : List FileOp}
    (hlines : Machine.Along (fun s op => (TailedFile.step s op).1) FindsLines
      ⟨content, .create source fileDescriptor none mode none 0⟩ (ops ++ [.process])) :
    messages (Machine.run TailedFile.step
        ⟨content, .create source fileDescriptor none mode none 0⟩ (ops ++ [.process])).2 =
      (content ++ appended ops).fields newline := by
  have hstart : ReadLines ⟨content, .create source fileDescriptor none mode none 0⟩ [] :=
    ⟨rfl, rfl, rfl, hfollow, [], content, rfl, Or.inl rfl,
      by simp [PointersTableInternalRecord.create], rfl⟩
  have hrun := hstart.run_process ops hlines
  have happended : appended (ops ++ [.process]) = appended ops := by
    rw [appended, List.flatMap_append, List.flatMap_singleton, List.append_nil]
    rfl
  rwa [List.nil_append, content_run, happended] at hrun

end Tail

end IqLogger
