import IqLogger.Formats.Base
import IqLogger.Lib.Fails

/-!
# Inputs

What all inputs share: `Input::importMessages` takes a batch of records from the queue
of the input, makes a message of each, and hands the messages on, to the processor or to
the main queue. A record that fails with an exception of the program is left out with a
warning; anything else a record throws leaves the function, and the whole batch is lost,
the messages that were made already included.

The loop over the batch is followed record by record
(`IqLogger.Inputs.importRecord_of_failsOnly`, `IqLogger.Inputs.importLoop_of_failsOnly`),
and `IqLogger.Inputs.imports_all_iff` says when a batch loses no message that could be
made.
-/

namespace IqLogger

namespace Inputs

variable {R M : Type} (exportMessage : R → Except Throwable M)

/-- Where the loop is: the messages in `message_output_buffer`, which are `k`, and the
warnings that were logged. -/
structure ImportBuffer (M : Type) where
  messages : List M
  warnings : List Bytes
  deriving DecidableEq

/-- The loop body: one record of the batch. -/
def importRecord (buffer : ImportBuffer M) (record : R) : Except Throwable (ImportBuffer M) :=
  match exportMessage record with
  | .ok message => pure { buffer with messages := buffer.messages ++ [message] }
  | .error e =>
    if e.isException then
      pure { buffer with
        warnings := buffer.warnings ++ [ascii "Error construct message: " ++ e.what] }
    else throw e

/-- The loop over a batch. -/
def importLoop (records : List R) : Except Throwable (ImportBuffer M) :=
  records.foldlM (importRecord exportMessage) ⟨[], []⟩

/-- What a call of `importMessages` does: the messages handed on, the warnings, the
counter of the input, and the number of messages that is returned. -/
structure Import (M : Type) where
  messages : List M
  warnings : List Bytes
  receiveCounter : ℕ
  count : ℕ
  deriving DecidableEq

/-- `importMessages`, on a batch of records from the queue. -/
def importMessages (receiveCounter : ℕ) (records : List R) : Except Throwable (Import M) := do
  let buffer ← importLoop exportMessage records
  pure ⟨buffer.messages, buffer.warnings, receiveCounter + buffer.messages.length,
    buffer.messages.length⟩

/-- The messages of the records that give one. -/
def exported (records : List R) : List M := records.filterMap fun r => (exportMessage r).toOption

variable {exportMessage}

/-- **A record whose failures are caught only adds to the buffer.** -/
theorem importRecord_of_failsOnly {buffer : ImportBuffer M} {record : R}
    (h : (exportMessage record).FailsOnly fun e => e.isException) :
    ∃ buffer', importRecord exportMessage buffer record = .ok buffer' ∧
      buffer'.messages = buffer.messages ++ exported exportMessage [record] := by
  rw [importRecord, exported]
  cases hexport : exportMessage record with
  | ok message => exact ⟨_, rfl, by simp [hexport, Except.toOption]⟩
  | error e =>
    rw [hexport, Except.failsOnly_error] at h
    exact ⟨_, if_pos h, by simp [hexport, Except.toOption]⟩

/-- The loop goes through when all failures are caught. -/
theorem importLoop_of_failsOnly {buffer : ImportBuffer M} {records : List R}
    (h : ∀ record ∈ records, (exportMessage record).FailsOnly fun e => e.isException) :
    ∃ buffer', records.foldlM (importRecord exportMessage) buffer = .ok buffer' ∧
      buffer'.messages = buffer.messages ++ exported exportMessage records := by
  induction records generalizing buffer with
  | nil => exact ⟨buffer, rfl, by simp [exported]⟩
  | cons record records ih =>
    obtain ⟨hrecord, hrecords⟩ := List.forall_mem_cons.mp h
    obtain ⟨buffer', hbuffer', hmessages'⟩ := @importRecord_of_failsOnly _ _ _ buffer _ hrecord
    obtain ⟨buffer'', hbuffer'', hmessages''⟩ := @ih buffer' hrecords
    refine ⟨buffer'', ?_, ?_⟩
    · rw [List.foldlM_cons, Except.bind_eq_ok]
      exact ⟨buffer', hbuffer', hbuffer''⟩
    · rw [hmessages'', hmessages', List.append_assoc, exported, exported, exported,
        ← List.filterMap_append, List.singleton_append]

/-- What leaves one step of the loop leaves the loop. -/
theorem failsOnly_of_importLoop {buffer buffer' : ImportBuffer M} {records : List R}
    (h : records.foldlM (importRecord exportMessage) buffer = .ok buffer') :
    ∀ record ∈ records, (exportMessage record).FailsOnly fun e => e.isException := by
  induction records generalizing buffer with
  | nil => simp
  | cons record records ih =>
    rw [List.foldlM_cons, Except.bind_eq_ok] at h
    obtain ⟨next, hnext, hrest⟩ := h
    refine List.forall_mem_cons.mpr ⟨?_, ih hrest⟩
    intro e he
    rw [importRecord, he] at hnext
    -- an exception that is not caught is what the step would throw
    by_contra hcaught
    cases (if_neg hcaught).symm.trans hnext

/-- **A batch is imported without a loss exactly when all failures of its records are
exceptions of the program**: the call returns, and every message that could be made is
handed on, in the order of the records. -/
theorem imports_all_iff {receiveCounter : ℕ} {records : List R} :
    (∃ result, importMessages exportMessage receiveCounter records = .ok result ∧
      result.messages = exported exportMessage records) ↔
      ∀ record ∈ records, (exportMessage record).FailsOnly fun e => e.isException := by
  constructor
  · rintro ⟨result, hresult, -⟩
    obtain ⟨buffer, hbuffer, -⟩ := Except.bind_eq_ok.mp hresult
    exact failsOnly_of_importLoop hbuffer
  · intro h
    obtain ⟨buffer, hbuffer, hmessages⟩ := @importLoop_of_failsOnly _ _ _ ⟨[], []⟩ _ h
    exact ⟨_, Except.bind_eq_ok.mpr ⟨buffer, hbuffer, rfl⟩, hmessages⟩

end Inputs

end IqLogger
