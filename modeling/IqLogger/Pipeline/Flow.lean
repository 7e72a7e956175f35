import IqLogger.Pipeline.Threads

/-!
# The pipeline with all its stages

Any number of inputs, some with a script, any number of outputs, and all threads between them: the
producers of an input put records into its queue, import threads make messages of them for the
main queue or for the processor, processor threads have the scripts make messages of messages, and
export threads make records of them for every output. Each stage may fail to convert an item, and
leaves it out then, and the queue of an input may refuse a record.

Nothing is said about what conversions and scripts yield: that is part of a step. What becomes of
an item can be followed by the number of the record it was made of, which only the model knows
(`IqLogger.Pipeline.Flow.Numbered`).

The counters that are shown as metrics are those of the source: an import thread adds to that of
the input for each batch, and to the common one after a round over all inputs; an output thread
adds to both after a batch.
-/

namespace IqLogger.Pipeline.Flow

/-! ### Batches -/

/-- An item, with the number of the record it was made of. -/
abbrev Numbered (α : Type) := ℕ × α

section Batch

variable {α β : Type}

/-- The loop of a stage over a batch, with what each conversion yields: an item that is converted
keeps its number. -/
def converted (items : List (Numbered α)) (outcomes : List (Option β)) : List (Numbered β) :=
  (items.zip outcomes).filterMap fun x => x.2.map fun y => (x.1.1, y)

/-- The numbers of the items that are left out. -/
def rejected (items : List (Numbered α)) (outcomes : List (Option β)) : List ℕ :=
  (items.zip outcomes).filterMap fun x => if x.2.isNone then some x.1.1 else none

end Batch

/-! ### The threads -/

/-- The parts of the configuration that matter here: how many there are of everything, the queue
and the script of each input, and which output a thread belongs to. -/
structure Setup where
  inputs : ℕ
  producers : ℕ
  importers : ℕ
  processors : ℕ
  exporters : ℕ
  outputs : ℕ
  outputThreads : ℕ
  max_queue_size : Fin inputs → ℕ
  overflow_strategy : Fin inputs → OverflowStrategy
  processorScriptIndex : Fin inputs → Option UInt16
  output : Fin outputThreads → Fin outputs

section Threads

variable (c : Setup) (R M O : Type)

/-- A call of `enqueue` with a record, of some input. -/
structure Offer where
  input : Fin c.inputs
  record : Numbered R
  phase : Phase

/-- An import thread, with the counter of its round. -/
inductive Importer
  | top
  /-- In `importMessages` of an input, before `try_dequeue_bulk`. -/
  | taking (i : Fin c.inputs) (counter : ℕ)
  | converting (i : Fin c.inputs) (counter : ℕ) (records : List (Numbered R))
  | sending (i : Fin c.inputs) (counter : ℕ) (messages : List (Numbered M)) (phase : Phase)
  /-- After the round. -/
  | totalling (counter : ℕ)
  | ended

/-- A processor thread. -/
inductive Processor
  | top
  | taking
  | converting (records : List (Numbered (M × UInt16)))
  | sending (messages : List (Numbered M)) (phase : Phase)
  | ended

/-- An export thread. The messages it has taken stay until the last output has them. -/
inductive Exporter
  | top
  | taking
  | converting (messages : List (Numbered M)) (o : Fin c.outputs)
  | sending (messages : List (Numbered M)) (o : Fin c.outputs) (records : List (Numbered O))
    (phase : Phase)
  | ended

/-- An output thread, with the number of records it has flushed of its batch. -/
inductive OutputThread
  | top
  | taking
  | exporting (records : List (Numbered O)) (flushed : ℕ)
  /-- Between the two counters. -/
  | totalling (count : ℕ)
  | ended

/-- The flags that the threads look at. -/
inductive Flag
  | inputServer
  | processor
  | outputServer
  | output (o : Fin c.outputs)
  deriving DecidableEq

/-- The pipeline: the queues, the threads, the flags and the counters. The last six are known to
the model only: the numbers of the records that were refused by the queue of their input, that
were left out by each stage, and that were written or given up by an output. -/
structure System where
  next : ℕ
  inputQueue : Fin c.inputs → MessageQueue (Numbered R)
  processQueue : MessageQueue (Numbered (M × UInt16))
  mainQueue : MessageQueue (Numbered M)
  outputQueue : Fin c.outputs → MessageQueue (Numbered O)
  producer : Fin c.producers → Option (Offer c R)
  importer : Fin c.importers → Importer c R M
  processor : Fin c.processors → Processor M
  exporter : Fin c.exporters → Exporter c M O
  outputThread : Fin c.outputThreads → OutputThread O
  isRunning : Flag c → Bool
  receive_counter : Fin c.inputs → ℕ
  receive_total : ℕ
  send_counter : Fin c.outputs → ℕ
  sent_total : ℕ
  refused : List ℕ
  unread : List ℕ
  unprocessed : List ℕ
  unconverted : Fin c.outputs → List ℕ
  written : Fin c.outputs → List ℕ
  givenUp : Fin c.outputs → List ℕ

/-- A step of one of the threads, with what the conversions yield. -/
inductive Event
  /-- A producer has a record and calls `enqueue`. -/
  | produce (p : Fin c.producers) (i : Fin c.inputs) (record : R)
  | producer (p : Fin c.producers)
  | importer (t : Fin c.importers)
  | importerTakes (t : Fin c.importers) (got : List (Numbered R))
  | importerConverts (t : Fin c.importers) (outcomes : List (Option M))
  | processor (p : Fin c.processors)
  | processorTakes (p : Fin c.processors) (got : List (Numbered (M × UInt16)))
  | processorConverts (p : Fin c.processors) (outcomes : List (Option M))
  | exporter (e : Fin c.exporters)
  | exporterTakes (e : Fin c.exporters) (got : List (Numbered M))
  | exporterConverts (e : Fin c.exporters) (outcomes : List (Option O))
  | output (w : Fin c.outputThreads)
  | outputTakes (w : Fin c.outputThreads) (got : List (Numbered O))
  /-- The first `n` records go out together; the write may be given up after a stop. -/
  | flush (w : Fin c.outputThreads) (n : ℕ) (success : Bool)
  | clear (flag : Flag c)

end Threads

variable {c : Setup} {R M O : Type}

/-- An import thread turns to the next input, if there is one. -/
def importingFrom (i counter : ℕ) : Importer c R M :=
  if h : i < c.inputs then .taking ⟨i, h⟩ counter else .totalling counter

/-- An export thread turns to the next output, if there is one. -/
def exportingFrom (messages : List (Numbered M)) (o : ℕ) : Exporter c M O :=
  if h : o < c.outputs then .converting messages ⟨o, h⟩ else .top

/-- What a call of `enqueue` returns when it is over. -/
def accepted {T : Type} (q : MessageQueue T) (items : List T) : Phase → Bool
  | .looks => (q.enqueue_bulk items).1 ≠ .refused
  | _ => true

/-! ### The steps -/

namespace System

variable (s : System c R M O)

/-- A producer calls `enqueue`. The record gets its number. -/
def produce (p : Fin c.producers) (i : Fin c.inputs) (record : R) : Option (System c R M O) :=
  if (s.producer p).isNone then
    some { s with
      next := s.next + 1
      producer := Function.update s.producer p (some ⟨i, (s.next, record), .looks⟩) }
  else none

/-- A producer is in its call. -/
def stepProducer (p : Fin c.producers) : Option (System c R M O) :=
  match s.producer p with
  | none => none
  | some call =>
    let q := s.inputQueue call.input
    let out := offer q [call.record] call.phase
    let t := { s with inputQueue := Function.update s.inputQueue call.input out.1 }
    match out.2 with
    | some phase => some { t with
        producer := Function.update s.producer p (some { call with phase := phase }) }
    | none => some { t with
        producer := Function.update s.producer p none
        refused := if accepted q [call.record] call.phase then s.refused
          else s.refused ++ [call.record.1] }

/-- A step of an import thread without a batch of its own to look at. -/
def stepImporter (t : Fin c.importers) : Option (System c R M O) :=
  let goTo (s : System c R M O) (next : Importer c R M) : System c R M O :=
    { s with importer := Function.update s.importer t next }
  match s.importer t with
  | .top => some (goTo s (if s.isRunning .inputServer then importingFrom 0 0 else .ended))
  | .sending i counter messages phase =>
    let next := importingFrom (i + 1) (counter + messages.length)
    match c.processorScriptIndex i with
    | none =>
      let out := offer s.mainQueue messages phase
      some (goTo { s with mainQueue := out.1 } (out.2.elim next (.sending i counter messages)))
    | some index =>
      let out := offer s.processQueue (messages.map fun m => (m.1, m.2, index)) phase
      some (goTo { s with processQueue := out.1 } (out.2.elim next (.sending i counter messages)))
  | .totalling counter =>
    some (goTo { s with receive_total := s.receive_total + counter } .top)
  | _ => none

/-- `importMessages`: the messages of a batch are counted, and sent if there are any. -/
def importerConverts (t : Fin c.importers) (outcomes : List (Option M)) :
    Option (System c R M O) :=
  match s.importer t with
  | .converting i counter records =>
    if outcomes.length = records.length then
      let messages := converted records outcomes
      some { s with
        unread := s.unread ++ rejected records outcomes
        receive_counter :=
          Function.update s.receive_counter i (s.receive_counter i + messages.length)
        importer := Function.update s.importer t
          (if messages = [] then importingFrom (i + 1) counter
          else .sending i counter messages .looks) }
    else none
  | _ => none

/-- A step of a processor thread without a batch to look at. -/
def stepProcessor (p : Fin c.processors) : Option (System c R M O) :=
  let goTo (s : System c R M O) (next : Processor M) : System c R M O :=
    { s with processor := Function.update s.processor p next }
  match s.processor p with
  | .top => some (goTo s (if s.isRunning .processor then .taking else .ended))
  | .sending messages phase =>
    let out := offer s.mainQueue messages phase
    some (goTo { s with mainQueue := out.1 } (out.2.elim .top (.sending messages)))
  | _ => none

/-- The scripts run on a batch. A message can be ignored, or fail. -/
def processorConverts (p : Fin c.processors) (outcomes : List (Option M)) :
    Option (System c R M O) :=
  match s.processor p with
  | .converting records =>
    if outcomes.length = records.length then
      let messages := converted records outcomes
      some { s with
        unprocessed := s.unprocessed ++ rejected records outcomes
        processor := Function.update s.processor p
          (if messages = [] then .top else .sending messages .looks) }
    else none
  | _ => none

/-- A step of an export thread without a batch to look at. -/
def stepExporter (e : Fin c.exporters) : Option (System c R M O) :=
  let goTo (s : System c R M O) (next : Exporter c M O) : System c R M O :=
    { s with exporter := Function.update s.exporter e next }
  match s.exporter e with
  | .top => some (goTo s (if s.isRunning .outputServer then .taking else .ended))
  | .sending messages o records phase =>
    let out := offer (s.outputQueue o) records phase
    some (goTo { s with outputQueue := Function.update s.outputQueue o out.1 }
      (out.2.elim (exportingFrom messages (o + 1)) (.sending messages o records)))
  | _ => none

/-- `Output::importMessages`, for one of the outputs. -/
def exporterConverts (e : Fin c.exporters) (outcomes : List (Option O)) :
    Option (System c R M O) :=
  match s.exporter e with
  | .converting messages o =>
    if outcomes.length = messages.length then
      let records := converted messages outcomes
      some { s with
        unconverted := Function.update s.unconverted o
          (s.unconverted o ++ rejected messages outcomes)
        exporter := Function.update s.exporter e
          (if records = [] then exportingFrom messages (o + 1)
          else .sending messages o records .looks) }
    else none
  | _ => none

/-- A step of an output thread without a write. -/
def stepOutput (w : Fin c.outputThreads) : Option (System c R M O) :=
  let goTo (s : System c R M O) (next : OutputThread O) : System c R M O :=
    { s with outputThread := Function.update s.outputThread w next }
  let o := c.output w
  match s.outputThread w with
  | .top => some (goTo s (if s.isRunning (.output o) then .taking else .ended))
  | .exporting [] flushed =>
    some (goTo { s with
      send_counter := Function.update s.send_counter o (s.send_counter o + flushed) }
      (.totalling flushed))
  | .totalling count => some (goTo { s with sent_total := s.sent_total + count } .top)
  | _ => none

/-- A write. Only after a stop it may be given up, and the thread goes on all the same. -/
def flush (w : Fin c.outputThreads) (n : ℕ) (success : Bool) : Option (System c R M O) :=
  let o := c.output w
  match s.outputThread w with
  | .exporting records flushed =>
    if 0 < n ∧ n ≤ records.length ∧ (success ∨ ¬s.isRunning (.output o)) then
      let numbers := (records.take n).map Prod.fst
      some { s with
        written := if success then Function.update s.written o (s.written o ++ numbers)
          else s.written
        givenUp := if success then s.givenUp
          else Function.update s.givenUp o (s.givenUp o ++ numbers)
        outputThread := Function.update s.outputThread w
          (.exporting (records.drop n) (flushed + n)) }
    else none
  | _ => none

section Takes

variable [DecidableEq R] [DecidableEq M] [DecidableEq O]

/-- `try_dequeue_bulk` of the queue of an input. -/
def importerTakes (t : Fin c.importers) (got : List (Numbered R)) : Option (System c R M O) :=
  match s.importer t with
  | .taking i counter =>
    if got.length ≤ max_queue_bulk_size ∧ got.isSubperm (s.inputQueue i).items then
      some { s with
        inputQueue := Function.update s.inputQueue i ((s.inputQueue i).take got)
        importer := Function.update s.importer t
          (if got = [] then importingFrom (i + 1) counter else .converting i counter got) }
    else none
  | _ => none

/-- `try_dequeue_bulk` of the queue of the processor. -/
def processorTakes (p : Fin c.processors) (got : List (Numbered (M × UInt16))) :
    Option (System c R M O) :=
  match s.processor p with
  | .taking =>
    if got.length ≤ max_queue_bulk_size ∧ got.isSubperm s.processQueue.items then
      some { s with
        processQueue := s.processQueue.take got
        processor := Function.update s.processor p
          (if got = [] then .top else .converting got) }
    else none
  | _ => none

/-- `try_dequeue_bulk` of the main queue. -/
def exporterTakes (e : Fin c.exporters) (got : List (Numbered M)) : Option (System c R M O) :=
  match s.exporter e with
  | .taking =>
    if got.length ≤ max_queue_bulk_size ∧ got.isSubperm s.mainQueue.items then
      some { s with
        mainQueue := s.mainQueue.take got
        exporter := Function.update s.exporter e
          (if got = [] then .top else exportingFrom got 0) }
    else none
  | _ => none

/-- `try_dequeue_bulk` of the queue of an output. -/
def outputTakes (w : Fin c.outputThreads) (got : List (Numbered O)) : Option (System c R M O) :=
  match s.outputThread w with
  | .taking =>
    if got.length ≤ queue_bulk ∧ got.isSubperm (s.outputQueue (c.output w)).items then
      some { s with
        outputQueue := Function.update s.outputQueue (c.output w)
          ((s.outputQueue (c.output w)).take got)
        outputThread := Function.update s.outputThread w
          (if got = [] then .top else .exporting got 0) }
    else none
  | _ => none

/-- What a step does, if it is possible. -/
def step (s : System c R M O) : Event c R M O → Option (System c R M O)
  | .produce p i record => s.produce p i record
  | .producer p => s.stepProducer p
  | .importer t => s.stepImporter t
  | .importerTakes t got => s.importerTakes t got
  | .importerConverts t outcomes => s.importerConverts t outcomes
  | .processor p => s.stepProcessor p
  | .processorTakes p got => s.processorTakes p got
  | .processorConverts p outcomes => s.processorConverts p outcomes
  | .exporter e => s.stepExporter e
  | .exporterTakes e got => s.exporterTakes e got
  | .exporterConverts e outcomes => s.exporterConverts e outcomes
  | .output w => s.stepOutput w
  | .outputTakes w got => s.outputTakes w got
  | .flush w n success => s.flush w n success
  | .clear flag => some { s with isRunning := Function.update s.isRunning flag false }

end Takes

end System

variable (c R M O) in
/-- The pipeline when it starts: nothing is in the queues, and all threads run. -/
def System.start : System c R M O where
  next := 0
  inputQueue i := .new (c.max_queue_size i) (c.overflow_strategy i)
  processQueue := .byName
  mainQueue := .byName
  outputQueue _ := .byName
  producer _ := none
  importer _ := .top
  processor _ := .top
  exporter _ := .top
  outputThread _ := .top
  isRunning _ := true
  receive_counter _ := 0
  receive_total := 0
  send_counter _ := 0
  sent_total := 0
  refused := []
  unread := []
  unprocessed := []
  unconverted _ := []
  written _ := []
  givenUp _ := []

end IqLogger.Pipeline.Flow
