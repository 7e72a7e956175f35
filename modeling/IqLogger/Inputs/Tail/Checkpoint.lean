import IqLogger.Inputs.Tail.Record
import IqLogger.Lib.Run

/-!
# Checkpoints of a growing file

In `save_state` mode the position of a file is saved after each `process` and
each `flush`, and the next run of the program starts there. The position saved is
not how far the file has been read: what is pending has not been handed on, and
is subtracted.

`IqLogger.Tail.Checkpointed` is the invariant of a file that only grows: what has
been read is a part of the file, and what is kept of it is in the messages so
far, or pending. Every operation makes calls that save nothing, and then possibly
saves the position of the record it leaves (`IqLogger.Tail.Checkpointed.step`);
so at the moment of a save the invariant gives the position and the messages.
The main result is `IqLogger.Tail.checkpoint_exact`.
-/

namespace IqLogger

namespace Tail

/-- A monitored file: its content, and the record of it. -/
structure TailedFile where
  content : Bytes
  record : PointersTableInternalRecord

/-- What happens to a monitored file that only grows. -/
inductive FileOp where
  /-- A writer appends to the file. -/
  | append (bytes : Bytes) : FileOp
  /-- The monitor thread processes the record. -/
  | process : FileOp
  /-- The timer thread flushes the record. -/
  | flush : FileOp
  deriving DecidableEq, Repr

/-- One operation on a monitored file. -/
def TailedFile.step (s : TailedFile) : FileOp → TailedFile × List Call
  | .append bytes => ({ s with content := s.content ++ bytes }, [])
  | .process =>
    let out := s.record.process s.content
    ({ s with record := out.1 }, out.2)
  | .flush =>
    let out := s.record.flush
    ({ s with record := out.1 }, out.2)

open PointersTableInternalRecord (kept)

/-- **The invariant of a growing file** that was opened with the position `p0`:
it has been read from there up to a position inside it, and what is kept of the
bytes read is in the messages or pending. -/
structure Checkpointed (re : Option DelimiterRegex) (p0 : ℕ) (s : TailedFile)
    (calls : List Call) : Prop where
  startMsgRegEx : s.record.startMsgRegEx = re
  streamFail : s.record.streamFail = false
  saveState : s.record.mode.saveState = true
  read : ∃ n : ℕ, s.record.fileCurrentPosition = n ∧ p0 ≤ n ∧ n ≤ s.content.length ∧
    (messages calls).flatten ++ s.record.buffer = kept re (between s.content p0 n)

section Checkpointed

variable {re : Option DelimiterRegex} {p0 : ℕ} {s : TailedFile} {calls : List Call}

/-- Saving a position hands nothing on. -/
theorem Checkpointed.append_of_messages (h : Checkpointed re p0 s calls) {d : List Call}
    (hd : messages d = []) : Checkpointed re p0 s (calls ++ d) := by
  obtain ⟨n, hposition, hp0, hn, hkept⟩ := h.read
  refine ⟨h.startMsgRegEx, h.streamFail, h.saveState, n, hposition, hp0, hn, ?_⟩
  rwa [messages_append, hd, List.append_nil]

/-- The invariant when the file grows. -/
theorem Checkpointed.append (h : Checkpointed re p0 s calls) (bytes : Bytes) :
    Checkpointed re p0 { s with content := s.content ++ bytes } calls := by
  obtain ⟨n, hposition, hp0, hn, hkept⟩ := h.read
  refine ⟨h.startMsgRegEx, h.streamFail, h.saveState, n, hposition, hp0, ?_, ?_⟩
  · rw [List.length_append]
    omega
  · rwa [between_append_left bytes hn]

/-- The invariant when the rest of the file is read. -/
theorem Checkpointed.reads (h : Checkpointed re p0 s calls) {n : ℕ}
    {r' : PointersTableInternalRecord} {c : List Call}
    (hposition : s.record.fileCurrentPosition = n)
    (hreads : s.record.Reads r' c (s.content.drop n)) :
    Checkpointed re p0 { s with record := r' } (calls ++ c) := by
  obtain ⟨m, hm, hp0, hn, hkept⟩ := h.read
  obtain rfl : m = n := by exact_mod_cast hm.symm.trans hposition
  refine ⟨hreads.sameFile.startMsgRegEx.trans h.startMsgRegEx,
    hreads.streamFail.trans h.streamFail, ?_, s.content.length, ?_, by omega, le_rfl, ?_⟩
  · rw [hreads.sameFile.mode]
    exact h.saveState
  · rw [hreads.position, hposition, List.length_drop]
    omega
  · rw [messages_append, List.flatten_append, List.append_assoc, hreads.kept, h.startMsgRegEx,
      ← List.append_assoc, hkept, ← PointersTableInternalRecord.kept_append,
      between_append_drop hp0 hn]

/-- The invariant when the pending text is handed on. -/
theorem Checkpointed.flush (h : Checkpointed re p0 s calls) :
    Checkpointed re p0 { s with record := { s.record with
      buffer := []
      nothingPending := fun _ => rfl } } (calls ++ [.processMessage s.record.buffer]) := by
  obtain ⟨n, hposition, hp0, hn, hkept⟩ := h.read
  refine ⟨h.startMsgRegEx, h.streamFail, h.saveState, n, hposition, hp0, hn, ?_⟩
  rw [← hkept]
  simp

/-- **One operation**: it makes calls that save nothing and keep the invariant,
and then possibly saves the position. -/
theorem Checkpointed.step (h : Checkpointed re p0 s calls) (op : FileOp) :
    ∃ c d, (s.step op).2 = c ++ d ∧ saved c = [] ∧
      (d = [] ∨ d = (s.step op).1.record.savePosition) ∧
      Checkpointed re p0 (s.step op).1 (calls ++ c) := by
  cases op with
  | append bytes =>
    refine ⟨[], [], rfl, rfl, Or.inl rfl, ?_⟩
    rw [List.append_nil]
    exact h.append bytes
  | flush =>
    by_cases hpending : s.record.buffer = []
    · refine ⟨[], [], ?_, rfl, Or.inl rfl, ?_⟩ <;>
        simp only [TailedFile.step, PointersTableInternalRecord.flush, hpending, ne_eq,
          not_true_eq_false, if_false, List.append_nil]
      exact h
    · simp only [TailedFile.step, PointersTableInternalRecord.flush, ne_eq, hpending,
        not_false_eq_true, if_true]
      exact ⟨[.processMessage s.record.buffer], _, rfl, rfl, Or.inr rfl, h.flush⟩
  | process =>
    cases hlink : s.record.symlinkPath with
    | some path =>
      -- a record on a symbolic link reads nothing
      refine ⟨[], [], ?_, rfl, Or.inl rfl, ?_⟩ <;>
        simp only [TailedFile.step, PointersTableInternalRecord.process, hlink,
          Option.isSome_some, if_true, List.append_nil]
      exact h
    | none =>
      -- a record that saves its state is not in `follow_only_mode`, so it reads from its position
      obtain ⟨n, hposition, -, hn, -⟩ := h.read
      have hfollow : s.record.mode.followOnly = false := by
        have := s.record.mode.exclusive
        rw [h.saveState] at this
        simpa using this
      obtain ⟨c, hreads, hcalls⟩ :=
        s.record.process_reads hlink h.streamFail hfollow hposition hn
      exact ⟨c, _, hcalls, hreads.saved, Or.inr rfl, h.reads hposition hreads⟩

end Checkpointed

theorem checkpointed_run {source : TailSource} {fileDescriptor : ℕ} {re : Option DelimiterRegex}
    {mode : StateMode} {symlinkPath : Option String} {content : Bytes} {p0 : ℕ}
    (hmode : mode.saveState = true) (hp0 : p0 ≤ content.length) (ops : List FileOp) :
    let s := TailedFile.mk content (.create source fileDescriptor re mode symlinkPath p0)
    Checkpointed re p0 (Machine.run TailedFile.step s ops).1
      (Machine.run TailedFile.step s ops).2 := by
  refine Machine.run_induction (P := fun _ s calls => Checkpointed re p0 s calls) ?_ ?_ ops
  · refine ⟨rfl, rfl, hmode, p0, ?_, le_rfl, hp0, by simp [PointersTableInternalRecord.create]⟩
    simp [PointersTableInternalRecord.create, hmode]
  · intro _ op s calls h
    obtain ⟨c, d, hcalls, -, hd, hnext⟩ := h.step op
    rw [hcalls, ← List.append_assoc]
    refine hnext.append_of_messages ?_
    rcases hd with rfl | rfl
    · rfl
    · exact PointersTableInternalRecord.messages_savePosition _

/-- Where a save can stand among calls that begin without one. -/
theorem split_of_saved_eq_nil {c d pre post : List Call} {f : String} {p : Int}
    (hc : saved c = []) (h : c ++ d = pre ++ .savePosition f p :: post) :
    ∃ e, pre = c ++ e ∧ d = e ++ .savePosition f p :: post := by
  rcases List.append_eq_append_iff.mp h with ⟨e, hpre, hd⟩ | ⟨e, hpre, hd⟩
  · exact ⟨e, hpre, hd⟩
  · cases e with
    | nil => exact ⟨[], by simpa using hpre.symm, by simpa using hd.symm⟩
    | cons call e =>
      obtain ⟨rfl, -⟩ := List.cons.inj hd
      simp [hpre] at hc

/-- The position saved under the invariant. -/
theorem Checkpointed.savePosition {re : Option DelimiterRegex} {p0 : ℕ} {s : TailedFile}
    {calls : List Call} (h : Checkpointed re p0 s calls) :
    ∃ q : ℕ, s.record.fileCurrentPosition - s.record.buffer.length = q ∧ p0 ≤ q ∧
      q ≤ s.content.length ∧ (messages calls).flatten = kept re (between s.content p0 q) := by
  obtain ⟨n, hposition, hp0, hn, hkept⟩ := h.read
  cases re with
  | some re =>
    -- the pending text is the end of what was read
    obtain ⟨hlen, htext⟩ := eq_between_of_append hn hkept
    exact ⟨n - s.record.buffer.length, by omega, by omega, by omega, htext⟩
  | none =>
    have hbuffer := s.record.nothingPending h.startMsgRegEx
    rw [hbuffer, List.append_nil] at hkept
    exact ⟨n, by simp [hbuffer, hposition], hp0, hn, hkept⟩

/-- **Checkpoints are exact.** Let a file that only grows be opened with the
position `p0`. Whenever a position is saved, it lies between `p0` and the size of
the file, and the messages handed on so far are the bytes of the file from `p0` to
that position, without the newlines in newline mode. -/
theorem checkpoint_exact (source : TailSource) (fileDescriptor : ℕ) (re : Option DelimiterRegex)
    (mode : StateMode) (hmode : mode.saveState = true) (symlinkPath : Option String)
    (content : Bytes) (p0 : ℕ) (hp0 : p0 ≤ content.length) (ops : List FileOp) (op : FileOp)
    (pre post : List Call) (f : String) (p : Int) :
    let s := TailedFile.mk content (.create source fileDescriptor re mode symlinkPath p0)
    let before := Machine.run TailedFile.step s ops
    let after := before.1.step op
    after.2 = pre ++ .savePosition f p :: post →
      ∃ q : ℕ, p = q ∧ p0 ≤ q ∧ q ≤ after.1.content.length ∧
        (messages (before.2 ++ pre)).flatten = kept re (between after.1.content p0 q) := by
  intro s before after hcalls
  have h : Checkpointed re p0 before.1 before.2 := checkpointed_run hmode hp0 ops
  obtain ⟨c, d, hsplit, hsaved, hd, hnext⟩ := h.step op
  obtain ⟨e, rfl, he⟩ := split_of_saved_eq_nil hsaved (hsplit.symm.trans hcalls)
  obtain ⟨q, hq, hp0, hsize, hmessages⟩ := hnext.savePosition
  rcases hd with rfl | rfl
  · simp at he
  · rw [PointersTableInternalRecord.savePosition, if_pos hnext.saveState] at he
    -- the save is the only call after those that save nothing
    obtain rfl : e = [] := by
      cases e with
      | nil => rfl
      | cons call e => simp at he
    rw [List.nil_append] at he
    obtain ⟨heq, -⟩ := List.cons.inj he
    obtain ⟨-, rfl⟩ := Call.savePosition.inj heq
    exact ⟨q, hq, hp0, hsize, by rwa [List.append_nil]⟩

/-- A file of two lines that was read up to the second one, and has grown by a
third. -/
theorem checkpoint_exact_two_lines :
    ∃ q : ℕ, (6 : Int) = q ∧ 2 ≤ q ∧ q ≤ (ascii "a\nb\nc\n").length ∧
      (messages [.processBuffer (ascii "b\nc\n"), .processMessage (ascii "b"),
        .processMessage (ascii "c")]).flatten = kept none (between (ascii "a\nb\nc\n") 2 q) :=
  checkpoint_exact ⟨"/l", none⟩ 3 none ⟨false, true, by simp⟩ rfl none (ascii "a\nb\n") 2
    (by decide) [.append (ascii "c\n")] .process
    [.processBuffer (ascii "b\nc\n"), .processMessage (ascii "b"), .processMessage (ascii "c")] []
    "/l" 6 (by decide +kernel)

end Tail

end IqLogger
