import IqLogger.Inputs.Tail.Record
import IqLogger.Lib.Run

/-!
# Segmentation by `startmsg_regex`

In `startmsg_regex` mode a record is given buffers, and now and then the timer
flushes it. The stream is the concatenation of the buffers; it is cut where the
matcher reports a match in a buffer, and where it is flushed. A flush is a cut at
position `0` of an empty buffer, so that the two operations take the same step:
`IqLogger.Tail.StreamOp.perform_spec` says that what was pending and the new
buffer are cut at the new positions.

`IqLogger.Tail.Segmented` is the invariant: the messages so far are the non-empty
pieces of the stream so far, and what follows the last cut is pending. It
survives a step by the law of cutting further on (`List.segments_append`). The
main result, `IqLogger.Tail.messages_eq_segments`, is the invariant at the end of
a run.
-/

namespace IqLogger

namespace Tail

/-- What happens to a record in `startmsg_regex` mode. -/
inductive StreamOp where
  /-- A buffer has been read. -/
  | processBuffer (buffer : Bytes) : StreamOp
  /-- The timer has fired. -/
  | flush : StreamOp
  deriving DecidableEq, Repr

namespace StreamOp

/-- The operation on the record. -/
def perform (r : PointersTableInternalRecord) : StreamOp → PointersTableInternalRecord × List Call
  | processBuffer buffer => r.processBuffer buffer
  | flush => r.flush

/-- What the operation adds to the stream. -/
def text : StreamOp → Bytes
  | processBuffer buffer => buffer
  | flush => []

/-- Where the operation cuts what it adds to the stream. -/
def positions (re : DelimiterRegex) : StreamOp → List ℕ
  | processBuffer buffer => re.positions buffer
  | flush => [0]

theorem positions_sorted (re : DelimiterRegex) (op : StreamOp) :
    (op.positions re).Pairwise (· < ·) := by
  cases op with
  | processBuffer buffer => exact re.sorted buffer
  | flush => exact List.pairwise_singleton ..

theorem positions_le_length (re : DelimiterRegex) (op : StreamOp) {p : ℕ}
    (h : p ∈ op.positions re) : p ≤ op.text.length := by
  cases op with
  | processBuffer buffer => exact re.le_length buffer p h
  | flush =>
    rw [positions, List.mem_singleton] at h
    exact h.le

/-- **One operation cuts the pending text and what it adds to it.** -/
theorem perform_spec {re : DelimiterRegex} {r : PointersTableInternalRecord}
    (hre : r.startMsgRegEx = some re) (op : StreamOp) :
    (perform r op).1.startMsgRegEx = some re ∧
      messages (perform r op).2 =
        (r.buffer ++ op.text).segments ((op.positions re).map (· + r.buffer.length)) ∧
      (perform r op).1.buffer =
        (r.buffer ++ op.text).afterCuts ((op.positions re).map (· + r.buffer.length)) := by
  cases op with
  | processBuffer buffer =>
    obtain ⟨hfile, -⟩ := r.processBuffer_spec buffer
    exact ⟨hfile.startMsgRegEx.trans hre, r.processBuffer_regex hre buffer⟩
  | flush =>
    -- an empty pending text is not handed on, and is no segment
    by_cases hpending : r.buffer = [] <;>
      simp [perform, PointersTableInternalRecord.flush, hpending, hre, text, positions,
        List.segments, List.afterCuts, List.cutFrom]

end StreamOp

/-! ### The stream and its cuts -/

/-- The concatenation of the buffers. -/
def stream (ops : List StreamOp) : Bytes := ops.flatMap StreamOp.text

/-- The offsets in the stream at which it is cut, when the operations begin at
the offset `n`. -/
def cutOffsets (re : DelimiterRegex) : ℕ → List StreamOp → List ℕ
  | _, [] => []
  | n, op :: ops => (op.positions re).map (· + n) ++ cutOffsets re (n + op.text.length) ops

theorem stream_snoc (ops : List StreamOp) (op : StreamOp) :
    stream (ops ++ [op]) = stream ops ++ op.text := by
  simp [stream]

theorem cutOffsets_snoc (re : DelimiterRegex) (n : ℕ) (ops : List StreamOp) (op : StreamOp) :
    cutOffsets re n (ops ++ [op]) =
      cutOffsets re n ops ++ (op.positions re).map (· + (n + (stream ops).length)) := by
  induction ops generalizing n with
  | nil => simp [cutOffsets, stream]
  | cons o ops ih => simp [cutOffsets, stream, ih, Nat.add_assoc]

/-- **The invariant of a record in `startmsg_regex` mode**: the operations so
far, the record and the calls it has made. -/
structure Segmented (re : DelimiterRegex) (ops : List StreamOp) (r : PointersTableInternalRecord)
    (calls : List Call) : Prop where
  startMsgRegEx : r.startMsgRegEx = some re
  sorted : (cutOffsets re 0 ops).Pairwise (· ≤ ·)
  le_length : ∀ c ∈ cutOffsets re 0 ops, c ≤ (stream ops).length
  messages : messages calls = (stream ops).segments (cutOffsets re 0 ops)
  buffer : r.buffer = (stream ops).afterCuts (cutOffsets re 0 ops)

theorem Segmented.start {re : DelimiterRegex} {r : PointersTableInternalRecord}
    (hre : r.startMsgRegEx = some re) (hbuffer : r.buffer = []) : Segmented re [] r [] where
  startMsgRegEx := hre
  sorted := List.Pairwise.nil
  le_length := by simp [cutOffsets]
  messages := rfl
  buffer := hbuffer

/-- **The invariant survives an operation.** -/
theorem Segmented.snoc {re : DelimiterRegex} {ops : List StreamOp}
    {r : PointersTableInternalRecord} {calls : List Call} (h : Segmented re ops r calls)
    (op : StreamOp) :
    Segmented re (ops ++ [op]) (op.perform r).1 (calls ++ (op.perform r).2) := by
  obtain ⟨hre, hmessages, hbuffer⟩ := StreamOp.perform_spec h.startMsgRegEx op
  rw [h.buffer] at hmessages hbuffer
  refine ⟨hre, ?_, ?_, ?_, ?_⟩
  · rw [cutOffsets_snoc, Nat.zero_add]
    refine List.pairwise_append.mpr ⟨h.sorted, ?_, ?_⟩
    · exact List.pairwise_map.mpr
        ((op.positions_sorted re).imp fun hlt => Nat.add_le_add_right hlt.le _)
    · intro c hc d hd
      obtain ⟨p, -, rfl⟩ := List.mem_map.mp hd
      exact (h.le_length c hc).trans (Nat.le_add_left ..)
  · intro c hc
    rw [cutOffsets_snoc, Nat.zero_add] at hc
    rw [stream_snoc, List.length_append]
    rcases List.mem_append.mp hc with hc | hc
    · exact (h.le_length c hc).trans (Nat.le_add_right ..)
    · obtain ⟨p, hp, rfl⟩ := List.mem_map.mp hc
      have := op.positions_le_length re hp
      omega
  · rw [messages_append, h.messages, hmessages, cutOffsets_snoc, stream_snoc, Nat.zero_add,
      List.segments_append _ _ h.le_length]
  · rw [hbuffer, cutOffsets_snoc, stream_snoc, Nat.zero_add, List.afterCuts_append _ _ h.le_length]

theorem segmented_run {re : DelimiterRegex} {r : PointersTableInternalRecord}
    (hre : r.startMsgRegEx = some re) (hbuffer : r.buffer = []) (ops : List StreamOp) :
    Segmented re ops (Machine.run StreamOp.perform r ops).1
      (Machine.run StreamOp.perform r ops).2 :=
  Machine.run_induction (.start hre hbuffer) (fun _ op _ _ h => h.snoc op) ops

/-- **Segmentation is exact.** Whatever buffers a record is given and whenever it
is flushed, the messages are the non-empty pieces of the stream up to the last
cut, and the rest of the stream is pending; so nothing is lost, repeated or
reordered, and no message is empty. -/
theorem messages_eq_segments (re : DelimiterRegex) (r : PointersTableInternalRecord)
    (hre : r.startMsgRegEx = some re) (hbuffer : r.buffer = []) (ops : List StreamOp) :
    let out := Machine.run StreamOp.perform r ops
    messages out.2 = (stream ops).segments (cutOffsets re 0 ops) ∧
      out.1.buffer = (stream ops).afterCuts (cutOffsets re 0 ops) ∧
      (messages out.2).flatten ++ out.1.buffer = stream ops ∧
      ∀ m ∈ messages out.2, m ≠ [] := by
  intro out
  have h := segmented_run hre hbuffer ops
  refine ⟨h.messages, h.buffer, ?_, ?_⟩
  · rw [h.messages, h.buffer]
    exact List.flatten_segments_append_afterCuts h.sorted
  · intro m hm
    rw [h.messages] at hm
    exact List.ne_nil_of_mem_segments hm

/-- A match ends the first message, a buffer without a match adds to the pending
text, and a flush hands it on. -/
theorem messages_eq_segments_flushed :
    let r := PointersTableInternalRecord.create ⟨"/l", none⟩ 3 (some (literalRegex (ascii "[")))
      ⟨false, false, by simp⟩ none 0
    messages (Machine.run StreamOp.perform r
        [.processBuffer (ascii "a[b"), .processBuffer (ascii "c"), .flush]).2 =
      [ascii "a", ascii "[bc"] := by
  intro r
  refine (messages_eq_segments (literalRegex (ascii "[")) r rfl rfl _).1.trans ?_
  decide

end Tail

end IqLogger
