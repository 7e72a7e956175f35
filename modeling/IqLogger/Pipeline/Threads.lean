import IqLogger.Inputs.Tail.Checkpoint
import IqLogger.Inputs.Tail.Positions
import IqLogger.Pipeline.Stages
import IqLogger.Queues.MessageQueue
import Mathlib.Data.Fintype.Option

/-!
# The threads of the pipeline

A tail input, the input server, the output server and the outputs have their threads, each
of which does one thing over and over as long as the flag of its owner is on: a monitor
thread reads files and puts records into the queue of the input, and the timer thread
flushes what is pending; an import thread moves records from there to the main queue; an
export thread moves them from there to the queue of each output; and an output thread
exports them. The thread that stops the program clears the flags, in some order, and waits
for the threads (`IqLogger.Pipeline.stopProgram`).

One step of one thread is one step here, so that the steps of different threads come in
any order. A call of `enqueue` or `enqueue_bulk` is cut between its look at the size of the
queue and its push (`IqLogger.Pipeline.offer`); a record of a file is read by one thread at
a time, as its entry in the table is locked.

There is no processor, and nothing fails to be converted or to be sent, so that a record
stays what it is on its way. A write that is under way when the `io_service` of its output is
stopped may not be finished (`IqLogger.Pipeline.OutputThread.interrupt`).
-/

namespace IqLogger

namespace Pipeline

open Tail (TailedFile FileOp Call DelimiterRegex)

/-! ### The threads -/

/-- `Record<Tail>`: the file and the text. -/
structure TailRecord where
  filename : String
  message : Bytes
  deriving DecidableEq, Repr

/-- Where a call of `enqueue` or `enqueue_bulk` is: before its first look at the size, in
the loop that waits for room, or before its push. -/
inductive Phase
  | looks
  | waits
  | pushes
  deriving DecidableEq, Repr

/-- One step of a call that offers items to a queue: the queue afterwards, and where the
call is then, unless it is over. -/
def offer {T : Type} (q : MessageQueue T) (items : List T) : Phase → MessageQueue T × Option Phase
  | .looks =>
    match q.enqueue_bulk items with
    | (.pushes, q) => (q, some .pushes)
    | (.waits, q) => (q, some .waits)
    | (.refused, q) => (q, none)
  | .waits => (q, some (if q.isFull then .waits else .pushes))
  | .pushes => (q.push items, none)

/-- A monitor thread, or the timer thread of a tail input. -/
inductive Tailer
  /-- Before `isRunning()`. -/
  | top
  /-- In `run` or `flush`, between two records. -/
  | running
  /-- In a method of the record of a file, with the calls that are left. -/
  | reading (f : String) (calls : List Call)
  /-- In `processMessage`. -/
  | enqueueing (f : String) (message : Bytes) (phase : Phase) (calls : List Call)
  | ended
  deriving DecidableEq

/-- An import thread of the input server. -/
inductive Importer
  | top
  /-- Before `try_dequeue_bulk`. -/
  | taking
  | sending (records : List TailRecord) (phase : Phase)
  | ended
  deriving DecidableEq

/-- An export thread of the output server. It sends what it has taken to one output after
the other. -/
inductive Exporter (outputs : ℕ)
  | top
  | taking
  | sending (records : List TailRecord) (o : Fin outputs) (phase : Phase)
  | ended
  deriving DecidableEq

/-- An output thread. -/
inductive OutputThread
  | top
  | taking
  /-- There are records left to be exported; `cut` if the `io_service` was stopped
  meanwhile. -/
  | exporting (records : List TailRecord) (cut : Bool)
  | ended
  deriving DecidableEq

/-- What `m_io_service.stop()` does to a thread of the output. -/
def OutputThread.interrupt : OutputThread → OutputThread
  | .exporting records _ => .exporting records true
  | w => w

/-- The record that a thread is at. -/
def Tailer.file : Tailer → Option String
  | .reading f _ => some f
  | .enqueueing f _ _ _ => some f
  | _ => none

/-! ### The configuration -/

/-- The types of outputs. -/
inductive OutputType
  | gelf
  | log
  deriving DecidableEq, Repr

/-- The parts of the configuration that matter here: the numbers of threads, and which output
a thread belongs to. -/
structure Config where
  monitors : ℕ
  importers : ℕ
  exporters : ℕ
  outputs : ℕ
  outputThreads : ℕ
  type : Fin outputs → OutputType
  output : Fin outputThreads → Fin outputs
  max_queue_size : ℕ
  startMsgRegEx : Option DelimiterRegex

/-- The flags: of the input, of the two servers, and of each output. -/
inductive Flag (outputs : ℕ)
  | input
  | inputServer
  | outputServer
  | output (o : Fin outputs)
  deriving DecidableEq

section Config

variable (c : Config)

/-- The threads of a tail input: the timer thread, and the monitor threads. -/
abbrev Config.Tailers := Option (Fin c.monitors)

/-- All threads but the one that stops the others. -/
inductive Thread
  | tailer (t : c.Tailers)
  | importer (i : Fin c.importers)
  | exporter (e : Fin c.exporters)
  | output (w : Fin c.outputThreads)

/-- The steps of the thread that stops the others. -/
inductive StopAction
  /-- `TaskInterface::stop`, up to the call of `stopImpl`. -/
  | clear (flag : Flag c.outputs)
  /-- `m_io_service.stop()`. -/
  | stopService (o : Fin c.outputs)
  | join (t : Thread c)
  /-- An exception ends `stop`. -/
  | throw

/-- `TaskInterface::stop` of an output. That of a `LogOutput` calls itself. -/
def stopOutput (o : Fin c.outputs) : List (StopAction c) :=
  .clear (.output o) ::
    match c.type o with
    | .gelf => .stopService o ::
        ((List.finRange c.outputThreads).filter fun w => c.output w = o).map
          fun w => .join (.output w)
    | .log => [.throw]

/-- `TaskInterface::stop` of the tail input. -/
def stopInput : List (StopAction c) :=
  .clear .input :: .join (.tailer none) ::
    (List.finRange c.monitors).map fun t => .join (.tailer (some t))

/-- `TaskInterface::stop` of the input server. -/
def stopInputServer : List (StopAction c) :=
  .clear .inputServer :: stopInput c ++
    (List.finRange c.importers).map fun i => .join (.importer i)

/-- `TaskInterface::stop` of the output server. -/
def stopOutputServer : List (StopAction c) :=
  .clear .outputServer :: (List.finRange c.outputs).flatMap (stopOutput c) ++
    (List.finRange c.exporters).map fun e => .join (.exporter e)

/-- `IQLogger::stopImpl`: the input server is stopped, and then the output server. -/
def stopProgram : List (StopAction c) :=
  stopInputServer c ++ stopOutputServer c

end Config

/-! ### The steps -/

/-- The pipeline: files and the positions saved for them, the queues, the threads and the
flags, what the outputs have exported, and what was lost to an interrupt. `history` has
the calls that records have carried out, each with the file it is about. -/
structure System (c : Config) where
  file : String → TailedFile
  saved : String → Option Int
  inputQueue : MessageQueue TailRecord
  mainQueue : MessageQueue TailRecord
  outputQueue : Fin c.outputs → MessageQueue TailRecord
  tailer : c.Tailers → Tailer
  importer : Fin c.importers → Importer
  exporter : Fin c.exporters → Exporter c.outputs
  outputThread : Fin c.outputThreads → OutputThread
  isRunning : Flag c.outputs → Bool
  stopping : List (StopAction c)
  exported : Fin c.outputs → List TailRecord
  interrupted : Fin c.outputs → List TailRecord
  history : List (String × Call)

/-- A step of one of the threads, or of a writer. -/
inductive Event (c : Config)
  | append (f : String) (bytes : Bytes)
  /-- A writer truncates a file, or writes it anew. -/
  | rewrite (f : String) (content : Bytes)
  | tailer (t : c.Tailers)
  /-- A thread of the input turns to the record of a file. -/
  | turn (t : c.Tailers) (f : String)
  | importer (i : Fin c.importers)
  | importerTakes (i : Fin c.importers) (got : List TailRecord)
  | exporter (e : Fin c.exporters)
  | exporterTakes (e : Fin c.exporters) (got : List TailRecord)
  | output (w : Fin c.outputThreads)
  | outputTakes (w : Fin c.outputThreads) (got : List TailRecord)
  /-- The write that was under way is given up, with the first `n` records. -/
  | givesUp (w : Fin c.outputThreads) (n : ℕ)
  | stop

variable {c : Config}

/-- What a thread of the input does to a record. -/
def work : c.Tailers → FileOp
  | none => .flush
  | some _ => .process

/-- The length of the buffer of an output thread. -/
def queue_bulk : ℕ := 1000

namespace System

variable (s : System c)

/-- The thread has ended. -/
def Ended : Thread c → Prop
  | .tailer t => s.tailer t = .ended
  | .importer i => s.importer i = .ended
  | .exporter e => s.exporter e = .ended
  | .output w => s.outputThread w = .ended

instance : DecidablePred s.Ended
  | .tailer _ => inferInstanceAs (Decidable (_ = _))
  | .importer _ => inferInstanceAs (Decidable (_ = _))
  | .exporter _ => inferInstanceAs (Decidable (_ = _))
  | .output _ => inferInstanceAs (Decidable (_ = _))

/-- A step of a thread of the input, other than to turn to a record. -/
def stepTailer (t : c.Tailers) : Option (System c) :=
  let goTo (s : System c) (next : Tailer) : System c :=
    { s with tailer := Function.update s.tailer t next }
  match s.tailer t with
  | .top => some (goTo s (if s.isRunning .input then .running else .ended))
  | .running => some (goTo s .top)
  | .reading f calls =>
    match calls with
    | [] => some (goTo s .running)
    | .processMessage m :: calls => some (goTo s (.enqueueing f m .looks calls))
    | .processBuffer b :: calls =>
      some (goTo { s with history := s.history ++ [(f, .processBuffer b)] } (.reading f calls))
    | .savePosition filename position :: calls =>
      some (goTo { s with
        saved := Function.update s.saved filename (some position)
        history := s.history ++ [(f, .savePosition filename position)] } (.reading f calls))
  | .enqueueing f m phase calls =>
    let out := offer s.inputQueue [⟨f, m⟩] phase
    match out.2 with
    | some phase => some (goTo { s with inputQueue := out.1 } (.enqueueing f m phase calls))
    | none => some (goTo { s with
        inputQueue := out.1
        history := s.history ++ [(f, .processMessage m)] } (.reading f calls))
  | .ended => none

/-- `process` or `flush` of a record that no other thread is at. -/
def turn (t : c.Tailers) (f : String) : Option (System c) :=
  if s.tailer t = .running ∧ ∀ t', (s.tailer t').file ≠ some f then
    let out := (s.file f).step (work t)
    some { s with
      file := Function.update s.file f out.1
      tailer := Function.update s.tailer t (.reading f out.2) }
  else none

/-- A step of an import thread, other than to take records. -/
def stepImporter (i : Fin c.importers) : Option (System c) :=
  let goTo (s : System c) (next : Importer) : System c :=
    { s with importer := Function.update s.importer i next }
  match s.importer i with
  | .top => some (goTo s (if s.isRunning .inputServer then .taking else .ended))
  | .taking => none
  | .sending records phase =>
    let out := offer s.mainQueue records phase
    some (goTo { s with mainQueue := out.1 } (out.2.elim .top (.sending records)))
  | .ended => none

/-- `try_dequeue_bulk` of the queue of the input. -/
def importerTakes (i : Fin c.importers) (got : List TailRecord) : Option (System c) :=
  if s.importer i = .taking ∧ got.length ≤ max_queue_bulk_size ∧
      got.isSubperm s.inputQueue.items then
    some { s with
      inputQueue := s.inputQueue.take got
      importer := Function.update s.importer i (if got = [] then .top else .sending got .looks) }
  else none

/-- An export thread turns to the next output, if there is one. -/
def sendingFrom (records : List TailRecord) (o : ℕ) : Exporter c.outputs :=
  if h : o < c.outputs then .sending records ⟨o, h⟩ .looks else .top

/-- A step of an export thread, other than to take records. -/
def stepExporter (e : Fin c.exporters) : Option (System c) :=
  let goTo (s : System c) (next : Exporter c.outputs) : System c :=
    { s with exporter := Function.update s.exporter e next }
  match s.exporter e with
  | .top => some (goTo s (if s.isRunning .outputServer then .taking else .ended))
  | .taking => none
  | .sending records o phase =>
    let out := offer (s.outputQueue o) records phase
    some (goTo { s with outputQueue := Function.update s.outputQueue o out.1 }
      (out.2.elim (sendingFrom records (o + 1)) (.sending records o)))
  | .ended => none

/-- `try_dequeue_bulk` of the main queue. -/
def exporterTakes (e : Fin c.exporters) (got : List TailRecord) : Option (System c) :=
  if s.exporter e = .taking ∧ got.length ≤ max_queue_bulk_size ∧
      got.isSubperm s.mainQueue.items then
    some { s with
      mainQueue := s.mainQueue.take got
      exporter := Function.update s.exporter e (if got = [] then .top else sendingFrom got 0) }
  else none

/-- A step of an output thread, other than to take records: it exports one. -/
def stepOutput (w : Fin c.outputThreads) : Option (System c) :=
  let goTo (s : System c) (next : OutputThread) : System c :=
    { s with outputThread := Function.update s.outputThread w next }
  match s.outputThread w with
  | .top => some (goTo s (if s.isRunning (.output (c.output w)) then .taking else .ended))
  | .taking => none
  | .exporting [] _ => some (goTo s .top)
  | .exporting (r :: records) cut =>
    some (goTo { s with
      exported := Function.update s.exported (c.output w) (s.exported (c.output w) ++ [r]) }
      (.exporting records cut))
  | .ended => none

/-- `try_dequeue_bulk` of the queue of an output. -/
def outputTakes (w : Fin c.outputThreads) (got : List TailRecord) : Option (System c) :=
  if s.outputThread w = .taking ∧ got.length ≤ queue_bulk ∧
      got.isSubperm (s.outputQueue (c.output w)).items then
    some { s with
      outputQueue := Function.update s.outputQueue (c.output w)
        ((s.outputQueue (c.output w)).take got)
      outputThread := Function.update s.outputThread w
        (if got = [] then .top else .exporting got false) }
  else none

/-- A write does not go on after `m_io_service.stop()`. -/
def givesUp (w : Fin c.outputThreads) (n : ℕ) : Option (System c) :=
  match s.outputThread w with
  | .exporting records true =>
    some { s with
      outputThread := Function.update s.outputThread w (.exporting (records.drop n) false)
      interrupted := Function.update s.interrupted (c.output w)
        (s.interrupted (c.output w) ++ records.take n) }
  | _ => none

/-- A step of `stop`. -/
def stepStop : Option (System c) :=
  match s.stopping with
  | [] => none
  | .clear flag :: rest =>
    some { s with isRunning := Function.update s.isRunning flag false, stopping := rest }
  | .stopService o :: rest =>
    some { s with
      outputThread := fun w =>
        if c.output w = o then (s.outputThread w).interrupt else s.outputThread w
      stopping := rest }
  | .join t :: rest => if s.Ended t then some { s with stopping := rest } else none
  | .throw :: _ => none

/-- What a step does, if it is possible. -/
def step (s : System c) : Event c → Option (System c)
  | .append f bytes => some { s with
      file := Function.update s.file f ((s.file f).step (.append bytes)).1 }
  | .rewrite f content => some { s with
      file := Function.update s.file f { s.file f with content := content } }
  | .tailer t => s.stepTailer t
  | .turn t f => s.turn t f
  | .importer i => s.stepImporter i
  | .importerTakes i got => s.importerTakes i got
  | .exporter e => s.stepExporter e
  | .exporterTakes e got => s.exporterTakes e got
  | .output w => s.stepOutput w
  | .outputTakes w got => s.outputTakes w got
  | .givesUp w n => s.givesUp w n
  | .stop => s.stepStop

end System

/-- A file when the program starts: its content, the position saved for it, and where it leads
if it is a symbolic link. -/
structure FileAtStart where
  content : Bytes
  position : ℕ
  symlinkPath : Option String

/-- The pipeline when it starts: nothing is in the queues, and all threads run. -/
def System.start (c : Config) (files : String → FileAtStart) : System c where
  file f := ⟨(files f).content, .create ⟨f, none⟩ 0 c.startMsgRegEx Tail.Daemon.savingMode
    (files f).symlinkPath (files f).position⟩
  saved _ := none
  inputQueue := .new c.max_queue_size .throttle
  mainQueue := .byName
  outputQueue _ := .byName
  tailer _ := .top
  importer _ := .top
  exporter _ := .top
  outputThread _ := .top
  isRunning _ := true
  stopping := stopProgram c
  exported _ := []
  interrupted _ := []
  history := []

/-! ### What a step can change -/

section Shapes

variable {s t : System c}

/-- **A step of a thread of a server or an output** changes that thread, and queues and
what the outputs have exported. -/
inductive Downstream (s : System c) : System c → Prop
  | importer (i : Fin c.importers) (hrunning : s.importer i ≠ .ended) (next : Importer)
    (input main : MessageQueue TailRecord) : Downstream s { s with
      inputQueue := input, mainQueue := main, importer := Function.update s.importer i next }
  | exporter (e : Fin c.exporters) (hrunning : s.exporter e ≠ .ended) (next : Exporter c.outputs)
    (main : MessageQueue TailRecord) (outputs : Fin c.outputs → MessageQueue TailRecord) :
    Downstream s { s with
      mainQueue := main, outputQueue := outputs, exporter := Function.update s.exporter e next }
  | output (w : Fin c.outputThreads) (hrunning : s.outputThread w ≠ .ended) (next : OutputThread)
    (outputs : Fin c.outputs → MessageQueue TailRecord)
    (exported interrupted : Fin c.outputs → List TailRecord) : Downstream s { s with
      outputQueue := outputs
      exported := exported
      interrupted := interrupted
      outputThread := Function.update s.outputThread w next }

theorem downstream_stepImporter {i : Fin c.importers} (hstep : s.stepImporter i = some t) :
    Downstream s t := by
  simp only [System.stepImporter] at hstep
  split at hstep
  · next h => cases hstep; exact .importer i (by simp [h]) _ _ _
  · cases hstep
  · next h => cases hstep; exact .importer i (by simp [h]) _ _ _
  · cases hstep

theorem downstream_stepExporter {e : Fin c.exporters} (hstep : s.stepExporter e = some t) :
    Downstream s t := by
  simp only [System.stepExporter] at hstep
  split at hstep
  · next h => cases hstep; exact .exporter e (by simp [h]) _ _ _
  · cases hstep
  · next h => cases hstep; exact .exporter e (by simp [h]) _ _ _
  · cases hstep

theorem downstream_stepOutput {w : Fin c.outputThreads} (hstep : s.stepOutput w = some t) :
    Downstream s t := by
  simp only [System.stepOutput] at hstep
  split at hstep
  · next h => cases hstep; exact .output w (by simp [h]) _ _ _ _
  · cases hstep
  · next h => cases hstep; exact .output w (by simp [h]) _ _ _ _
  · next h => cases hstep; exact .output w (by simp [h]) _ _ _ _
  · cases hstep

theorem downstream_givesUp {w : Fin c.outputThreads} {n : ℕ} (hstep : s.givesUp w n = some t) :
    Downstream s t := by
  rw [System.givesUp] at hstep
  split at hstep
  · next h => cases hstep; exact .output w (by simp [h]) _ _ _ _
  · cases hstep

theorem downstream_importerTakes {i : Fin c.importers} {got : List TailRecord}
    (hstep : s.importerTakes i got = some t) : Downstream s t := by
  obtain ⟨⟨htaking, -⟩, hstep⟩ := Option.ite_none_right_eq_some.mp hstep
  cases hstep
  exact .importer i (by simp [htaking]) _ _ s.mainQueue

theorem downstream_exporterTakes {e : Fin c.exporters} {got : List TailRecord}
    (hstep : s.exporterTakes e got = some t) : Downstream s t := by
  obtain ⟨⟨htaking, -⟩, hstep⟩ := Option.ite_none_right_eq_some.mp hstep
  cases hstep
  exact .exporter e (by simp [htaking]) _ _ s.outputQueue

theorem downstream_outputTakes {w : Fin c.outputThreads} {got : List TailRecord}
    (hstep : s.outputTakes w got = some t) : Downstream s t := by
  obtain ⟨⟨htaking, -⟩, hstep⟩ := Option.ite_none_right_eq_some.mp hstep
  cases hstep
  exact .output w (by simp [htaking]) _ _ s.exported s.interrupted

/-- An event of a thread of a server or an output. -/
def Event.IsDownstream : Event c → Prop
  | .importer _ | .importerTakes _ _ => True
  | .exporter _ | .exporterTakes _ _ => True
  | .output _ | .outputTakes _ _ | .givesUp _ _ => True
  | .append _ _ | .rewrite _ _ | .tailer _ | .turn _ _ | .stop => False

theorem downstream_of_step {event : Event c} (hstep : s.step event = some t)
    (hevent : event.IsDownstream) : Downstream s t := by
  cases event with
  | importer i => exact downstream_stepImporter hstep
  | importerTakes i got => exact downstream_importerTakes hstep
  | exporter e => exact downstream_stepExporter hstep
  | exporterTakes e got => exact downstream_exporterTakes hstep
  | output w => exact downstream_stepOutput hstep
  | outputTakes w got => exact downstream_outputTakes hstep
  | givesUp w n => exact downstream_givesUp hstep
  | _ => exact hevent.elim

/-- A step of a thread of the input changes no other thread. -/
theorem stepTailer_shape {i : c.Tailers} (hstep : s.stepTailer i = some t) :
    s.tailer i ≠ .ended ∧ ∃ saved input next history, t = { s with
      saved := saved
      inputQueue := input
      tailer := Function.update s.tailer i next
      history := history } := by
  simp only [System.stepTailer] at hstep
  split at hstep
  · next h => cases hstep; exact ⟨by simp [h], s.saved, s.inputQueue, _, s.history, rfl⟩
  · next h => cases hstep; exact ⟨by simp [h], s.saved, s.inputQueue, _, s.history, rfl⟩
  · next h =>
    split at hstep
    · cases hstep; exact ⟨by simp [h], s.saved, s.inputQueue, _, s.history, rfl⟩
    · cases hstep; exact ⟨by simp [h], s.saved, s.inputQueue, _, s.history, rfl⟩
    · cases hstep; exact ⟨by simp [h], s.saved, s.inputQueue, _, _, rfl⟩
    · cases hstep; exact ⟨by simp [h], _, s.inputQueue, _, _, rfl⟩
  · next h =>
    split at hstep
    · cases hstep; exact ⟨by simp [h], s.saved, _, _, s.history, rfl⟩
    · cases hstep; exact ⟨by simp [h], s.saved, _, _, _, rfl⟩
  · cases hstep

end Shapes

end Pipeline

end IqLogger
