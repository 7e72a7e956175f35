import IqLogger.Inputs.Input
import IqLogger.Lib.ReusedBuffer

/-!
# The stages of the pipeline

A message goes from the queue of its input to the main queue, through the processor if
the input has one, and from there to the queues of the outputs. Each of these stages is a
loop that compacts a batch into a buffer, and hands the first part of the buffer on:
`Input::importMessages`, the loop of a processor thread, and `Output::importMessages`.
The buffers belong to the thread and live as long as it does, so that each batch finds
what the ones before have left.

The queue behind a stage may refuse what it is offered; then nothing was moved, and the
buffer still has all its pointers. Whether it does is part of a batch
(`IqLogger.Pipeline.Batch`).

The stages forward what the batches are converted to and nothing else
(`IqLogger.Pipeline.stages_forward`), as far as what is thrown is caught. The import of
a batch as a list (`IqLogger.Inputs.importMessages`) is what the buffers do
(`IqLogger.Pipeline.importMessages_refines`).
-/

namespace IqLogger

namespace Pipeline

open ReusedBuffer

/-- The length of the buffers. -/
def max_queue_bulk_size : ℕ := 10000

/-- `ProcessorRecord`: a message, and the script it is for. -/
abbrev ProcessorRecord (M : Type) := Slot M × UInt16

/-- What a stage takes from its queue, and whether the queue behind it accepts what it
is then offered. -/
structure Batch (α : Type) where
  got : List α
  accepts : Bool

section Stages

variable {R M O ε : Type} (isException : ε → Bool)

/-! ### The inputs -/

/-- The buffers of an import thread, the counter of the input, and the two queues an
input may send to. -/
structure ImportState (R M : Type) where
  recordInputBuffer : Buffer R
  messageOutputBuffer : Buffer M
  recordBuffer : Buffer (ProcessorRecord M)
  receiveCounter : ℕ
  mainQueue : List (Slot M)
  processQueue : List (Slot (ProcessorRecord M))

/-- A thread that has imported nothing. -/
def ImportState.start : ImportState R M :=
  ⟨.replicate max_queue_bulk_size .null, .replicate max_queue_bulk_size .null,
    .replicate max_queue_bulk_size .null, 0, [], []⟩

/-- `enqueue_bulk` of the main queue. -/
def ImportState.enqueueMain (s : ImportState R M) (accepts : Bool) (k : ℕ) :
    Except (Stop ε) (ImportState R M) :=
  if accepts then do
    let (items, rest) ← moveOut s.messageOutputBuffer k
    pure { s with messageOutputBuffer := rest, mainQueue := s.mainQueue ++ items }
  else pure s

/-- `ProcessorMachine::process_bulk`: each message becomes part of a record for the
processor, whether the queue of the processor accepts that or not. -/
def ImportState.process_bulk (s : ImportState R M) (accepts : Bool) (k : ℕ)
    (processorScriptIndex : UInt16) : Except (Stop ε) (ImportState R M) := do
  let (messages, rest) ← moveOut s.messageOutputBuffer k
  let recordBuffer ← fill s.recordBuffer (messages.map fun m => (m, processorScriptIndex))
  let s := { s with messageOutputBuffer := rest, recordBuffer := recordBuffer }
  if accepts then do
    let (items, rest) ← moveOut s.recordBuffer k
    pure { s with recordBuffer := rest, processQueue := s.processQueue ++ items }
  else pure s

/-- `Input::importMessages`: a record whose data went into its message stays where it
is. -/
def importMessages (exportMessage : R → Except ε M) (processorScriptIndex : Option UInt16)
    (s : ImportState R M) (b : Batch R) : Except (Stop ε) (ImportState R M × ℕ) := do
  let loop ← batch (fun _ => .spent) (fun r => (exportMessage r).map some) isException
    s.recordInputBuffer s.messageOutputBuffer b.got
  let s := { s with recordInputBuffer := loop.input, messageOutputBuffer := loop.output }
  if loop.k = 0 then pure (s, loop.k)
  else
    let s := { s with receiveCounter := s.receiveCounter + loop.k }
    match processorScriptIndex with
    | some index => do
      let s ← s.process_bulk b.accepts loop.k index
      pure (s, loop.k)
    | none => do
      let s ← s.enqueueMain b.accepts loop.k
      pure (s, loop.k)

/-- A thread imports one batch after the other; what the calls return. -/
def importAll (exportMessage : R → Except ε M) (processorScriptIndex : Option UInt16) :
    ImportState R M → List (Batch R) → Except (Stop ε) (ImportState R M × List ℕ)
  | s, [] => pure (s, [])
  | s, b :: bs => do
    let (s, count) ← importMessages isException exportMessage processorScriptIndex s b
    let (s, counts) ← importAll exportMessage processorScriptIndex s bs
    pure (s, count :: counts)

/-! ### The processor and the outputs -/

/-- The two buffers of a thread and the queue it sends to. -/
structure ThreadState (α β : Type) where
  input : Buffer α
  output : Buffer β
  queue : List (Slot β)

/-- A thread that has not begun. -/
def ThreadState.start {α β : Type} : ThreadState α β :=
  ⟨.replicate max_queue_bulk_size .null, .replicate max_queue_bulk_size .null, []⟩

/-- `enqueue_bulk` of the queue, when there is something to send. -/
def ThreadState.enqueue {α β : Type} (s : ThreadState α β) (accepts : Bool) (k : ℕ) :
    Except (Stop ε) (ThreadState α β) :=
  if k ≠ 0 ∧ accepts then do
    let (items, rest) ← moveOut s.output k
    pure { s with output := rest, queue := s.queue ++ items }
  else pure s

/-- The body of the loop of a processor thread: `process` takes a record with its
pointer, and yields no message if the script has it ignored. -/
def processMessages (process : ProcessorRecord M → Except ε (Option M))
    (s : ThreadState (ProcessorRecord M) M) (b : Batch (ProcessorRecord M)) :
    Except (Stop ε) (ThreadState (ProcessorRecord M) M) := do
  let loop ← batch (fun _ => .null) process isException s.input s.output b.got
  { s with input := loop.input, output := loop.output : ThreadState _ _ }.enqueue b.accepts loop.k

/-- `Output::importMessages`, on the messages that a thread of the output server has
taken from the main queue. They are only looked at, since they are for all outputs. -/
def importRecords (record : M → Except ε O) (s : ThreadState M O) (b : Batch M) :
    Except (Stop ε) (ThreadState M O) := do
  let loop ← batch .to (fun m => (record m).map some) isException s.input s.output b.got
  { s with input := loop.input, output := loop.output : ThreadState _ _ }.enqueue b.accepts loop.k

/-- One batch after the other. -/
def forwardAll {α β : Type} (stage : ThreadState α β → Batch α → Except (Stop ε) (ThreadState α β))
    (bs : List (Batch α)) : Except (Stop ε) (ThreadState α β) :=
  bs.foldlM stage .start

end Stages

/-! ### What a stage forwards -/

section Forward

variable {R M O α β ε : Type} {isException : ε → Bool}

/-- What is forwarded of some batches: what they are converted to, unless it is
refused. -/
def forwarded (convert : α → Except ε (Option β)) (bs : List (Batch α)) : List β :=
  bs.flatMap fun b => if b.accepts then converted convert b.got else []

/-- A batch that fits into the buffers, and of which all that is thrown is caught. -/
def Fits (isException : ε → Bool) (convert : α → Except ε (Option β)) (b : Batch α) : Prop :=
  b.got.length ≤ max_queue_bulk_size ∧
    ∀ a ∈ b.got, (convert a).FailsOnly fun e => isException e

/-- The buffers of a thread keep their length. -/
def ThreadState.Sized (s : ThreadState α β) : Prop :=
  s.input.length = max_queue_bulk_size ∧ s.output.length = max_queue_bulk_size

theorem ThreadState.sized_start : (ThreadState.start : ThreadState α β).Sized :=
  ⟨List.length_replicate, List.length_replicate⟩

/-- **A batch is forwarded**: what it is converted to is added to the queue, whatever
the buffers held before. -/
theorem forward_spec (left : Left α) {convert : α → Except ε (Option β)} {s : ThreadState α β}
    (hs : s.Sized) {b : Batch α} (hb : Fits isException convert b) :
    ∃ loop t, batch left convert isException s.input s.output b.got = .ok loop ∧
      ThreadState.enqueue (ε := ε) { s with input := loop.input, output := loop.output } b.accepts
        loop.k = .ok t ∧
      t.Sized ∧ t.queue = s.queue ++ (forwarded convert [b]).map .to := by
  obtain ⟨loop, rest, hloop, hk, hinput, houtput, hrest, hmove⟩ :=
    batch_spec left (hb.1.trans_eq hs.1.symm) (hb.1.trans_eq hs.2.symm) hb.2
  have hforwarded : forwarded convert [b] = if b.accepts then converted convert b.got else [] :=
    List.flatMap_singleton ..
  rw [hforwarded]
  by_cases hsend : loop.k ≠ 0 ∧ b.accepts
  · refine ⟨loop, _, hloop, (if_pos hsend).trans (Except.bind_eq_ok.mpr ⟨_, hmove, rfl⟩),
      ⟨hinput.trans hs.1, hrest.trans hs.2⟩, ?_⟩
    rw [if_pos hsend.2]
  · refine ⟨loop, _, hloop, if_neg hsend, ⟨hinput.trans hs.1, houtput.trans hs.2⟩, ?_⟩
    -- nothing was converted, or nothing is accepted
    by_cases haccepts : b.accepts
    · have hnil : converted convert b.got = [] := by
        rw [← List.length_eq_zero_iff, ← hk]
        by_contra hne
        exact hsend ⟨hne, haccepts⟩
      rw [if_pos haccepts, hnil, List.map_nil, List.append_nil]
    · rw [if_neg haccepts, List.map_nil, List.append_nil]

/-- Over all batches. -/
theorem forwardAll_spec (left : Left α) {convert : α → Except ε (Option β)}
    {stage : ThreadState α β → Batch α → Except (Stop ε) (ThreadState α β)}
    (hstage : ∀ s b, stage s b = (do
      let loop ← batch left convert isException s.input s.output b.got
      ThreadState.enqueue { s with input := loop.input, output := loop.output } b.accepts loop.k))
    {bs : List (Batch α)} (hbs : ∀ b ∈ bs, Fits isException convert b) :
    ∃ t, forwardAll stage bs = .ok t ∧ t.queue = (forwarded convert bs).map .to := by
  suffices h : ∀ s : ThreadState α β, s.Sized → ∃ t, bs.foldlM stage s = .ok t ∧
      t.queue = s.queue ++ (forwarded convert bs).map .to from h _ ThreadState.sized_start
  induction bs with
  | nil => exact fun s _ => ⟨s, rfl, by simp [forwarded]⟩
  | cons b bs ih =>
    intro s hs
    obtain ⟨hb, hbs⟩ := List.forall_mem_cons.mp hbs
    obtain ⟨loop, t, hloop, ht, hsized, hqueue⟩ := forward_spec left hs hb
    obtain ⟨u, hu, huqueue⟩ := ih hbs t hsized
    refine ⟨u, ?_, ?_⟩
    · rw [List.foldlM_cons]
      refine Except.bind_eq_ok.mpr ⟨t, ?_, hu⟩
      rw [hstage]
      exact Except.bind_eq_ok.mpr ⟨loop, hloop, ht⟩
    · have hcons : forwarded convert (b :: bs) =
          forwarded convert [b] ++ forwarded convert bs := by
        rw [forwarded, forwarded, forwarded, ← List.flatMap_append, List.singleton_append]
      rw [huqueue, hqueue, hcons, List.map_append, List.append_assoc]

end Forward

/-! ### What the inputs forward -/

section Import

variable {R M ε : Type} {isException : ε → Bool} {exportMessage : R → Except ε M}

/-- The conversion of a record, which is never ignored. -/
abbrev exporting (exportMessage : R → Except ε M) (r : R) : Except ε (Option M) :=
  (exportMessage r).map some

/-- The conversion throws what the export throws. -/
theorem failsOnly_exporting {r : R} {P : ε → Prop} :
    (exporting exportMessage r).FailsOnly P ↔ (exportMessage r).FailsOnly P := by
  rw [exporting]
  cases exportMessage r with
  | error e =>
    change Except.FailsOnly P (.error e) ↔ _
    exact Except.failsOnly_error.trans Except.failsOnly_error.symm
  | ok m => exact iff_of_true (Except.failsOnly_ok _) (Except.failsOnly_ok _)

/-- The buffers of an import thread keep their length. -/
def ImportState.Sized (s : ImportState R M) : Prop :=
  s.recordInputBuffer.length = max_queue_bulk_size ∧
    s.messageOutputBuffer.length = max_queue_bulk_size ∧
    s.recordBuffer.length = max_queue_bulk_size

/-- What is sent to the main queue, and what to the processor. -/
def sentTo (processorScriptIndex : Option UInt16) (messages : List M) :
    List (Slot M) × List (Slot (ProcessorRecord M)) :=
  match processorScriptIndex with
  | none => (messages.map .to, [])
  | some index => ([], messages.map fun m => .to (.to m, index))

theorem sentTo_append (processorScriptIndex : Option UInt16) (l l' : List M) :
    sentTo processorScriptIndex (l ++ l') =
      ((sentTo processorScriptIndex l).1 ++ (sentTo processorScriptIndex l').1,
        (sentTo processorScriptIndex l).2 ++ (sentTo processorScriptIndex l').2) := by
  cases processorScriptIndex <;> simp [sentTo]

/-- Sending messages to the main queue. -/
theorem enqueueMain_spec {s : ImportState R M} (hs : s.Sized) (accepts : Bool) {k : ℕ}
    {messages : List M} {rest : Buffer M}
    (hmove : (moveOut s.messageOutputBuffer k : Except (Stop ε) _) =
      .ok (messages.map .to, rest)) (hrest : rest.length = max_queue_bulk_size) :
    ∃ t : ImportState R M, (s.enqueueMain accepts k : Except (Stop ε) _) = .ok t ∧ t.Sized ∧
      t.receiveCounter = s.receiveCounter ∧
      t.mainQueue = s.mainQueue ++ (sentTo none (if accepts then messages else [])).1 ∧
      t.processQueue = s.processQueue := by
  cases accepts with
  | true => exact ⟨_, Except.bind_eq_ok.mpr ⟨_, hmove, rfl⟩, ⟨hs.1, hrest, hs.2.2⟩, rfl, rfl, rfl⟩
  | false => exact ⟨s, rfl, hs, rfl, (List.append_nil _).symm, rfl⟩

/-- **Sending messages to the processor**: they become part of records, in their order. -/
theorem process_bulk_spec {s : ImportState R M} (hs : s.Sized) (accepts : Bool) {k : ℕ}
    {messages : List M} {rest : Buffer M} (index : UInt16) (hk : k = messages.length)
    (hmove : (moveOut s.messageOutputBuffer k : Except (Stop ε) _) =
      .ok (messages.map .to, rest)) (hrest : rest.length = max_queue_bulk_size)
    (hle : k ≤ max_queue_bulk_size) :
    ∃ t : ImportState R M, (s.process_bulk accepts k index : Except (Stop ε) _) = .ok t ∧
      t.Sized ∧ t.receiveCounter = s.receiveCounter ∧ t.mainQueue = s.mainQueue ∧
      t.processQueue =
        s.processQueue ++ (sentTo (some index) (if accepts then messages else [])).2 := by
  have hlen := hs.2.2
  generalize hrecords : (messages.map Slot.to).map (fun m => (m, index)) = records
  have hrecordsLength : records.length = k := by
    rw [← hrecords, List.length_map, List.length_map, hk]
  obtain ⟨hfill, hmeets, hfillLength⟩ := fill_meets (ε := ε) ([] : Buffer M)
    (hrecordsLength.trans_le (hle.trans_eq hlen.symm))
  cases accepts with
  | false =>
    refine ⟨_, Except.bind_eq_ok.mpr ⟨_, hmove, Except.bind_eq_ok.mpr ⟨_, ?_, rfl⟩⟩,
      ⟨hs.1, hrest, hfillLength.trans hlen⟩, rfl, rfl, (List.append_nil _).symm⟩
    rw [hrecords]
    exact hfill
  | true =>
    have hmeets' : (records.map Slot.to ++ s.recordBuffer.drop records.length).take k =
        records.map .to := by
      rw [← hrecordsLength, List.take_left' (List.length_map _)]
    have hmove' : (moveOut (records.map Slot.to ++ s.recordBuffer.drop records.length) k :
        Except (Stop ε) _) = .ok (records.map .to, .replicate k .null ++
          (records.map Slot.to ++ s.recordBuffer.drop records.length).drop k) := by
      rw [moveOut, if_pos (hfillLength ▸ hle.trans_eq hlen.symm), hmeets']
      rfl
    refine ⟨_, Except.bind_eq_ok.mpr ⟨_, hmove, Except.bind_eq_ok.mpr ⟨_, ?_,
      Except.bind_eq_ok.mpr ⟨_, hmove', rfl⟩⟩⟩, ⟨hs.1, hrest, ?_⟩, rfl, rfl, ?_⟩
    · rw [hrecords]
      exact hfill
    · rw [List.length_append, List.length_replicate, List.length_drop, hfillLength, hlen]
      omega
    · simp [sentTo, ← hrecords]

/-- **A batch is imported**: the messages its records are exported as are sent on, and
their number is returned and counted. -/
theorem import_spec (index : Option UInt16) {s : ImportState R M} (hs : s.Sized) {b : Batch R}
    (hb : Fits isException (exporting exportMessage) b) :
    ∃ t, importMessages isException exportMessage index s b =
        .ok (t, (converted (exporting exportMessage) b.got).length) ∧ t.Sized ∧
      t.receiveCounter =
        s.receiveCounter + (converted (exporting exportMessage) b.got).length ∧
      t.mainQueue =
        s.mainQueue ++ (sentTo index (forwarded (exporting exportMessage) [b])).1 ∧
      t.processQueue =
        s.processQueue ++ (sentTo index (forwarded (exporting exportMessage) [b])).2 := by
  obtain ⟨loop, rest, hloop, hk, hinput, houtput, hrest, hmove⟩ :=
    batch_spec (fun _ => .spent) (hb.1.trans_eq hs.1.symm) (hb.1.trans_eq hs.2.1.symm) hb.2
  have hforwarded : forwarded (exporting exportMessage) [b] =
      if b.accepts then converted (exporting exportMessage) b.got else [] :=
    List.flatMap_singleton ..
  have hsized : ImportState.Sized { s with
      recordInputBuffer := loop.input, messageOutputBuffer := loop.output } :=
    ⟨hinput.trans hs.1, houtput.trans hs.2.1, hs.2.2⟩
  rw [hforwarded, ← hk]
  by_cases hzero : loop.k = 0
  · have hnil : converted (exporting exportMessage) b.got = [] := by
      rw [← List.length_eq_zero_iff, ← hk, hzero]
    refine ⟨_, Except.bind_eq_ok.mpr ⟨loop, hloop, if_pos hzero⟩, hsized, ?_, ?_, ?_⟩
    · rw [hzero]
      rfl
    · cases index <;> simp [hnil, sentTo]
    · cases index <;> simp [hnil, sentTo]
  · cases index with
    | none =>
      obtain ⟨t, ht, htsized, hcounter, hmain, hprocess⟩ := enqueueMain_spec
        (s := { s with
          recordInputBuffer := loop.input
          messageOutputBuffer := loop.output
          receiveCounter := s.receiveCounter + loop.k })
        hsized b.accepts hmove (hrest.trans hs.2.1)
      refine ⟨t, Except.bind_eq_ok.mpr ⟨loop, hloop, (if_neg hzero).trans
        (Except.bind_eq_ok.mpr ⟨t, ht, rfl⟩)⟩, htsized, hcounter, hmain, ?_⟩
      rw [hprocess]
      exact (List.append_nil _).symm
    | some index =>
      have hle : loop.k ≤ max_queue_bulk_size := by
        rw [hk]
        exact (length_converted_le b.got).trans hb.1
      obtain ⟨t, ht, htsized, hcounter, hmain, hprocess⟩ := process_bulk_spec
        (s := { s with
          recordInputBuffer := loop.input
          messageOutputBuffer := loop.output
          receiveCounter := s.receiveCounter + loop.k })
        hsized b.accepts index hk hmove (hrest.trans hs.2.1) hle
      refine ⟨t, Except.bind_eq_ok.mpr ⟨loop, hloop, (if_neg hzero).trans
        (Except.bind_eq_ok.mpr ⟨t, ht, rfl⟩)⟩, htsized, hcounter, ?_, hprocess⟩
      rw [hmain]
      exact (List.append_nil _).symm

/-- Over all batches. -/
theorem importAll_spec (index : Option UInt16) {bs : List (Batch R)}
    (hbs : ∀ b ∈ bs, Fits isException (exporting exportMessage) b) {s : ImportState R M}
    (hs : s.Sized) :
    ∃ t counts, importAll isException exportMessage index s bs = .ok (t, counts) ∧
      counts = bs.map (fun b => (converted (exporting exportMessage) b.got).length) ∧
      t.receiveCounter = s.receiveCounter + counts.sum ∧
      t.mainQueue = s.mainQueue ++ (sentTo index (forwarded (exporting exportMessage) bs)).1 ∧
      t.processQueue =
        s.processQueue ++ (sentTo index (forwarded (exporting exportMessage) bs)).2 := by
  induction bs generalizing s with
  | nil => exact ⟨s, [], rfl, rfl, rfl, by cases index <;> simp [sentTo, forwarded],
      by cases index <;> simp [sentTo, forwarded]⟩
  | cons b bs ih =>
    obtain ⟨hb, hbs⟩ := List.forall_mem_cons.mp hbs
    obtain ⟨t, ht, hsized, hcounter, hmain, hprocess⟩ := import_spec index hs hb
    obtain ⟨u, counts, hu, hcounts, hucounter, humain, huprocess⟩ := ih hbs hsized
    have hcons : forwarded (exporting exportMessage) (b :: bs) =
        forwarded (exporting exportMessage) [b] ++ forwarded (exporting exportMessage) bs := by
      rw [forwarded, forwarded, forwarded, ← List.flatMap_append, List.singleton_append]
    refine ⟨u, _ :: counts, Except.bind_eq_ok.mpr ⟨_, ht, Except.bind_eq_ok.mpr ⟨_, hu, rfl⟩⟩,
      ?_, ?_, ?_, ?_⟩
    · rw [List.map_cons, hcounts]
    · rw [hucounter, hcounter, List.sum_cons, Nat.add_assoc]
    · rw [humain, hmain, hcons, sentTo_append, List.append_assoc]
    · rw [huprocess, hprocess, hcons, sentTo_append, List.append_assoc]

end Import

/-! ### The list and the buffers -/

/-- What the records are converted to are the messages they can be exported as. -/
theorem converted_exporting {R M : Type} {exportMessage : R → Except Throwable M} (l : List R) :
    converted (exporting exportMessage) l = Inputs.exported exportMessage l := by
  refine List.filterMap_congr fun r _ => ?_
  rw [exporting]
  cases exportMessage r <;> rfl

/-- **The import of a batch as a list is what the buffers do**: the same messages are
handed on, in the same order, and the same number of them is returned and counted. -/
theorem importMessages_refines {R M : Type} {exportMessage : R → Except Throwable M}
    {s : ImportState R M} (hs : s.Sized) {b : Batch R} (haccepts : b.accepts)
    (hb : Fits Throwable.isException (exporting exportMessage) b) :
    ∃ t result, importMessages Throwable.isException exportMessage none s b =
        .ok (t, result.count) ∧
      Inputs.importMessages exportMessage s.receiveCounter b.got = .ok result ∧
      t.mainQueue = s.mainQueue ++ result.messages.map .to ∧
      t.receiveCounter = result.receiveCounter := by
  obtain ⟨t, ht, -, hcounter, hmain, -⟩ := import_spec none hs hb
  obtain ⟨buffer, hbuffer, hmessages⟩ := @Inputs.importLoop_of_failsOnly _ _ exportMessage
    ⟨[], []⟩ b.got fun r hr => failsOnly_exporting.mp (hb.2 r hr)
  rw [List.nil_append, ← converted_exporting] at hmessages
  refine ⟨t, _, ?_, Except.bind_eq_ok.mpr ⟨buffer, hbuffer, rfl⟩, ?_, ?_⟩
  · rw [ht, hmessages]
  · rw [hmain, forwarded, List.flatMap_singleton, if_pos haccepts, hmessages]
    rfl
  · rw [hcounter, hmessages]

/-! ### The three stages -/

/-- **The stages of the pipeline neither lose, duplicate, reorder nor resurrect
messages.** For every sequence of batches that fit into the buffers, whatever is
converted, thrown or ignored in them: each stage forwards what the batches are converted
to, in their order, and the import of each batch returns and counts the number of its
messages. -/
theorem stages_forward {R M O ε : Type} (isException : ε → Bool) :
    (∀ (exportMessage : R → Except ε M) (processorScriptIndex : Option UInt16)
      (bs : List (Batch R)), (∀ b ∈ bs, Fits isException (exporting exportMessage) b) →
      ∃ t counts, importAll isException exportMessage processorScriptIndex .start bs =
          .ok (t, counts) ∧
        counts = bs.map (fun b => (converted (exporting exportMessage) b.got).length) ∧
        t.receiveCounter = counts.sum ∧
        (t.mainQueue, t.processQueue) =
          sentTo processorScriptIndex (forwarded (exporting exportMessage) bs)) ∧
    (∀ (process : ProcessorRecord M → Except ε (Option M)) (bs : List (Batch (ProcessorRecord M))),
      (∀ b ∈ bs, Fits isException process b) →
      ∃ t, forwardAll (processMessages isException process) bs = .ok t ∧
        t.queue = (forwarded process bs).map .to) ∧
    (∀ (record : M → Except ε O) (bs : List (Batch M)),
      (∀ b ∈ bs, Fits isException (exporting record) b) →
      ∃ t, forwardAll (importRecords isException record) bs = .ok t ∧
        t.queue = (forwarded (exporting record) bs).map .to) := by
  refine ⟨fun exportMessage index bs hbs => ?_, fun process bs hbs => ?_,
    fun record bs hbs => ?_⟩
  · have hsized : (ImportState.start : ImportState R M).Sized :=
      ⟨List.length_replicate, List.length_replicate, List.length_replicate⟩
    obtain ⟨t, counts, ht, hcounts, hcounter, hmain, hprocess⟩ :=
      importAll_spec index hbs hsized
    refine ⟨t, counts, ht, hcounts, hcounter.trans (Nat.zero_add _), ?_⟩
    rw [hmain, hprocess]
    rfl
  · exact forwardAll_spec (fun _ => .null) (fun _ _ => rfl) hbs
  · exact forwardAll_spec .to (fun _ _ => rfl) hbs

/-- What numbers are converted to in the two batches below: even ones are caught. -/
def odd (n : ℕ) : Except Unit ℕ := if n % 2 = 0 then throw () else pure n

/-- A script that answers every record with one message, but ignores those for script 0. -/
def answer (r : ProcessorRecord ℕ) : Except Unit (Option ℕ) :=
  if r.2 = 0 then pure none else pure (some 7)

/-- A batch of three numbers, then one of a single number, which fails. -/
def twoBatches : List (Batch ℕ) := [⟨[1, 2, 3], true⟩, ⟨[4], true⟩]

/-- The stages on these batches; nothing of the first batch comes back with the second. -/
theorem stages_forward_twoBatches :
    (∃ t counts, importAll (fun _ => true) odd none .start twoBatches = .ok (t, counts) ∧
        counts = [2, 0] ∧ t.receiveCounter = counts.sum ∧
        (t.mainQueue, t.processQueue) = ([.to 1, .to 3], [])) ∧
      (∃ t, forwardAll (processMessages (fun _ => true) answer)
          [⟨[(.to 1, 0), (.to 1, 1)], true⟩] = .ok t ∧ t.queue = [.to 7]) ∧
      ∃ t, forwardAll (importRecords (fun _ => true) odd) twoBatches = .ok t ∧
        t.queue = [.to 1, .to 3] := by
  have h := stages_forward (R := ℕ) (M := ℕ) (O := ℕ) (ε := Unit) fun _ => true
  have hfits : ∀ b ∈ twoBatches, Fits (fun _ => true) (exporting odd) b := by
    intro b hb
    refine ⟨?_, fun _ _ _ _ => rfl⟩
    simp only [twoBatches, List.mem_cons, List.not_mem_nil, or_false] at hb
    rcases hb with rfl | rfl <;> decide
  refine ⟨h.1 odd none twoBatches hfits, h.2.1 answer _ fun b hb => ?_, h.2.2 odd twoBatches hfits⟩
  obtain rfl := List.mem_singleton.mp hb
  exact ⟨by decide, fun _ _ _ _ => rfl⟩

end Pipeline

end IqLogger
