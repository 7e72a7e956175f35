import IqLogger.Formats.Gelf.Message
import IqLogger.Processor.Scripts

/-!
# What the threads of the processor make of their records

A thread of the processor makes an object of the message of each record, calls the function of
its script, and puts what is returned into a message again (`V8.IsolateScope.process`); the
messages of a bulk are handed to the main queue (`V8.Pool.step`). The engine with its heap is a
parameter of the model, and the threads take their turns in any order.

All exceptions of a script are caught by the same handler, `m_try_catch`, which lives as long as
the thread and is never reset. It is asked after every call whether it has caught something. So
the first exception is the end of a thread: whatever is returned later, the handler still has the
old exception, and the message is dropped. What a thread exports are the answers to the records
before its first exception, and once every thread has had one nothing is exported any more
(`V8.Pool.exported_eq`).
-/

namespace IqLogger.Processor.V8

/-! ### The engine -/

/-- `v8::Message`: where an exception comes from. -/
structure ErrorMessage where
  filename : Bytes
  linenum : ℕ
  sourceline : Bytes
  startColumn : ℕ
  endColumn : ℕ
  /-- `v8::TryCatch::StackTrace`, which may be empty; no string is taken for an empty one. -/
  stack_trace_string : Option Bytes

/-- What a `v8::TryCatch` has caught. -/
structure Caught where
  exception : Bytes
  message : Option ErrorMessage

/-- `v8::Value`, as far as it is asked what it is. -/
inductive Value (JsObject : Type)
  | boolean (b : Bool)
  | object (object : JsObject)
  | string (s : Bytes)
  /-- Anything else, with its text. -/
  | other (s : Bytes)

/-- **The engine**: what it parses, calls and writes, with what becomes of its heap, and what it
throws. -/
structure Isolate (Heap JsFunction JsObject : Type) where
  parse : Heap → Bytes → Heap × Except Caught (Value JsObject)
  call : Heap → JsFunction → JsObject → Heap × Except Caught (Value JsObject)
  stringify : Heap → JsObject → Heap × Except Caught Bytes

variable {Heap JsFunction JsObject Message : Type}

/-- Every exception has a message. -/
structure Isolate.Reports (v8 : Isolate Heap JsFunction JsObject) : Prop where
  parse : ∀ heap text heap' e, v8.parse heap text = (heap', .error e) → e.message.isSome
  call : ∀ heap function object heap' e,
    v8.call heap function object = (heap', .error e) → e.message.isSome
  stringify : ∀ heap object heap' e,
    v8.stringify heap object = (heap', .error e) → e.message.isSome

/-! ### The program -/

/-- `ProcessorMessage`. -/
structure ProcessorMessage where
  m_data : Bytes
  deriving DecidableEq, Repr

/-- `IsolateScope`, with the heap of its isolate. -/
structure IsolateScope (Heap JsFunction : Type) where
  heap : Heap
  m_try_catch : Option Caught
  m_functions : Functions JsFunction

/-- `IsolateScope::processException`. It does not throw where there is no message. -/
def processException (msg : Bytes) (caught : Caught) : Except ProcessorException Unit :=
  match caught.message with
  | none => .ok ()
  | some message =>
    let oss := msg ++ ascii "\n" ++ message.filename ++ ascii ":" ++
      Gelf.decimal message.linenum ++ ascii " " ++ caught.exception ++ ascii "\n" ++
      message.sourceline ++ ascii "\n" ++ List.replicate message.startColumn 32 ++
      List.replicate (message.endColumn - message.startColumn) 94 ++ ascii "\n"
    match message.stack_trace_string with
    | none => .error ⟨oss⟩
    | some stack_trace =>
      .error ⟨if stack_trace.isEmpty then oss else oss ++ stack_trace ++ ascii "\n"⟩

/-- What `process` does with a record. -/
inductive Result
  | message (message : ProcessorMessage)
  | ignored
  | throws (e : ProcessorException)
  /-- A handle without a function is called. -/
  | crashes

/-- `makeMessageObject`, of a `const char*`. -/
def makeMessageObject (message : Bytes) : ProcessorMessage := ⟨cString message⟩

namespace IsolateScope

variable (v8 : Isolate Heap JsFunction JsObject) (exportMessage2Json : Message → Bytes)
  (s : IsolateScope Heap JsFunction)

/-- The check of the handler. -/
def check : Except ProcessorException Unit :=
  match s.m_try_catch with
  | none => .ok ()
  | some caught => processException (ascii "JavaScript Error: ") caught

/-- `makeJsObject`, with the `wrapObject` of the wrapper. -/
def makeJsObject (message : Message) :
    Except ProcessorException JsObject × IsolateScope Heap JsFunction :=
  let jsonString := cString (exportMessage2Json message)
  match v8.parse s.heap jsonString with
  | (heap, .error caught) =>
    (.error ⟨ascii "Can't parse JSON Object in Processor: " ++ jsonString⟩,
      { s with heap := heap, m_try_catch := some caught })
  | (heap, .ok (.object object)) => (.ok object, { s with heap := heap })
  | (heap, .ok _) =>
    (.error ⟨ascii "Can't create JSON Object in Processor: " ++ jsonString⟩,
      { s with heap := heap })

/-- What `process` makes of what the function returns. -/
def makeResult : Value JsObject → Result × IsolateScope Heap JsFunction
  | .boolean false => (.ignored, s)
  | .object object =>
    match v8.stringify s.heap object with
    | (heap, .error caught) =>
      (.throws ⟨ascii "Something strange..."⟩, { s with heap := heap, m_try_catch := some caught })
    | (heap, .ok text) =>
      match s.check with
      | .error e => (.throws e, { s with heap := heap })
      | .ok () => (.message (makeMessageObject text), { s with heap := heap })
  | .string text => (.message (makeMessageObject text), s)
  | .boolean true => (.throws ⟨ascii "Result from processor script true is not object!"⟩, s)
  | .other text =>
    (.throws ⟨ascii "Result from processor script " ++ cString text ++ ascii " is not object!"⟩, s)

/-- The call of the function, and what follows it. -/
def callFunction (function : JsFunction) (jsObject : JsObject) :
    Result × IsolateScope Heap JsFunction :=
  match v8.call s.heap function jsObject with
  | (heap, .error caught) =>
    (.throws ⟨ascii "Something strange..."⟩, { s with heap := heap, m_try_catch := some caught })
  | (heap, .ok result) =>
    match s.check with
    | .error e => (.throws e, { s with heap := heap })
    | .ok () => makeResult v8 { s with heap := heap } result

/-- `IsolateScope::process`. -/
def process (record : ProcessorRecord Message) : Result × IsolateScope Heap JsFunction :=
  if s.m_functions.keys.length < record.scriptIndex.toNat then
    (.throws ⟨ascii "Error script index"⟩, s)
  else
    match s.makeJsObject v8 exportMessage2Json record.message with
    | (.error e, s') => (.throws e, s')
    | (.ok jsObject, s') =>
      match s'.m_functions.lookup record.scriptIndex with
      | some (some function) => s'.callFunction v8 function jsObject
      | some none => (.crashes, s')
      | none =>
        (.crashes, { s' with m_functions := s'.m_functions.insert record.scriptIndex none })

/-- A record of a bulk, in the loop of a thread: `none` where the program crashes. -/
def take (state : List ProcessorMessage × IsolateScope Heap JsFunction)
    (record : ProcessorRecord Message) :
    Option (List ProcessorMessage × IsolateScope Heap JsFunction) :=
  match state.2.process v8 exportMessage2Json record with
  | (.message message, s) => some (state.1 ++ [message], s)
  | (.ignored, s) => some (state.1, s)
  | (.throws _, s) => some (state.1, s)
  | (.crashes, _) => none

/-- A round of the loop of a thread: the messages for the main queue. -/
def round (bulk : List (ProcessorRecord Message)) :
    Option (List ProcessorMessage × IsolateScope Heap JsFunction) :=
  bulk.foldlM (take v8 exportMessage2Json) ([], s)

end IsolateScope

/-- The threads of the processor, and the bulks of messages the main queue has been handed, each
with the thread it comes from. -/
structure Pool (Thread Heap JsFunction : Type) where
  scopes : Thread → IsolateScope Heap JsFunction
  offered : List (Thread × List ProcessorMessage)

namespace Pool

variable {Thread : Type} [DecidableEq Thread] (v8 : Isolate Heap JsFunction JsObject)
  (exportMessage2Json : Message → Bytes)

/-- A thread takes a bulk of records. -/
def step (pool : Pool Thread Heap JsFunction) (event : Thread × List (ProcessorRecord Message)) :
    Option (Pool Thread Heap JsFunction) :=
  match (pool.scopes event.1).round v8 exportMessage2Json event.2 with
  | none => none
  | some (messages, s) =>
    some
      { scopes := Function.update pool.scopes event.1 s
        offered := if messages.isEmpty then pool.offered
          else pool.offered ++ [(event.1, messages)] }

/-- The messages of a thread. -/
def exportedBy (pool : Pool Thread Heap JsFunction) (t : Thread) : List ProcessorMessage :=
  (pool.offered.filter fun bulk => bulk.1 = t).flatMap Prod.snd

/-- The records of a thread. -/
def recordsOf (events : List (Thread × List (ProcessorRecord Message))) (t : Thread) :
    List (ProcessorRecord Message) :=
  (events.filter fun event => event.1 = t).flatMap Prod.snd

end Pool

/-! ### What it should do -/

/-- What is handed on of a result. -/
def Result.message? : Result → Option ProcessorMessage
  | .message m => some m
  | _ => none

namespace IsolateScope

variable (v8 : Isolate Heap JsFunction JsObject) (exportMessage2Json : Message → Bytes)
  (s : IsolateScope Heap JsFunction)

/-- **The answer to a record**, under a handler that has caught nothing. -/
def answer (record : ProcessorRecord Message) : Result × IsolateScope Heap JsFunction :=
  { s with m_try_catch := none }.process v8 exportMessage2Json record

/-- The messages the answers to some records are. -/
def answers (s : IsolateScope Heap JsFunction) :
    List (ProcessorRecord Message) → List ProcessorMessage
  | [] => []
  | record :: records =>
    (s.answer v8 exportMessage2Json record).1.message?.toList ++
      answers (s.answer v8 exportMessage2Json record).2 records

/-- The records before the first exception. -/
def untilException (s : IsolateScope Heap JsFunction) :
    List (ProcessorRecord Message) → List (ProcessorRecord Message)
  | [] => []
  | record :: records =>
    if (s.answer v8 exportMessage2Json record).2.m_try_catch.isSome then []
    else record :: untilException (s.answer v8 exportMessage2Json record).2 records

/-- A record with the number of a function. -/
def Known (functions : Functions JsFunction) (record : ProcessorRecord Message) : Prop :=
  record.scriptIndex.toNat ≤ functions.keys.length ∧
    ∃ function, functions.lookup record.scriptIndex = some (some function)

/-! ### The handler -/

/-- The handler has caught something it reports. -/
def Silent : Prop := ∃ caught, s.m_try_catch = some caught ∧ caught.message.isSome

/-- An exception that has a message is reported. -/
theorem processException_eq_error {msg : Bytes} {caught : Caught} (h : caught.message.isSome) :
    ∃ e, processException msg caught = .error e := by
  obtain ⟨message, hmessage⟩ := Option.isSome_iff_exists.mp h
  rw [processException, hmessage]
  dsimp only
  rcases message.stack_trace_string with _ | stack_trace
  · exact ⟨_, rfl⟩
  · exact ⟨_, rfl⟩

variable {v8 exportMessage2Json s}

theorem Silent.check (h : s.Silent) : ∃ e, s.check = .error e := by
  obtain ⟨caught, hcaught, hmessage⟩ := h
  rw [IsolateScope.check, hcaught]
  exact processException_eq_error hmessage

/-- **What is known of every outcome**: the functions stay, the handler is as it was or reports
something from then on, and a handler that reports something lets no message through. -/
structure Kept (s : IsolateScope Heap JsFunction) (out : Result × IsolateScope Heap JsFunction) :
    Prop where
  functions : out.2.m_functions = s.m_functions
  handler : out.2.m_try_catch = s.m_try_catch ∨ out.2.Silent ∧ out.1.message? = none
  silent : s.Silent → out.1.message? = none
  ne_crashes : out.1 ≠ .crashes

/-- Nothing but the heap changes, and nothing is handed on. -/
theorem Kept.of_throws (heap : Heap) (e : ProcessorException) :
    s.Kept (.throws e, { s with heap := heap }) :=
  ⟨rfl, Or.inl rfl, fun _ => rfl, by simp⟩

/-- Something is caught. -/
theorem Kept.of_caught (heap : Heap) (e : ProcessorException) {caught : Caught}
    (h : caught.message.isSome) :
    s.Kept (.throws e, { s with heap := heap, m_try_catch := some caught }) :=
  ⟨rfl, Or.inr ⟨⟨caught, rfl, h⟩, rfl⟩, fun _ => rfl, by simp⟩

variable (hv : v8.Reports)

include hv

/-- The result of a call, when the check has been passed. -/
theorem kept_makeResult (hcheck : s.check = .ok ()) (result : Value JsObject) :
    s.Kept (s.makeResult v8 result) := by
  have hloud : ¬s.Silent := fun h => by
    obtain ⟨e, he⟩ := h.check
    rw [hcheck] at he
    cases he
  have hsame : ∀ (heap : Heap) (out : Result), out ≠ .crashes →
      s.Kept (out, { s with heap := heap }) := fun heap out hout =>
    ⟨rfl, Or.inl rfl, fun h => absurd h hloud, hout⟩
  rcases result with (_ | _) | object | text | text
  · exact hsame s.heap .ignored (by simp)
  · exact Kept.of_throws s.heap _
  · rw [makeResult]
    rcases hstringify : v8.stringify s.heap object with ⟨heap, caught | text⟩
    · exact Kept.of_caught heap _ (hv.stringify _ _ _ _ hstringify)
    · dsimp only
      rw [hcheck]
      exact hsame heap _ (by simp)
  · exact hsame s.heap _ (by simp)
  · exact Kept.of_throws s.heap _

theorem kept_callFunction (function : JsFunction) (jsObject : JsObject) :
    s.Kept (s.callFunction v8 function jsObject) := by
  rw [callFunction]
  rcases hcall : v8.call s.heap function jsObject with ⟨heap, caught | result⟩
  · exact Kept.of_caught heap _ (hv.call _ _ _ _ _ hcall)
  · dsimp only
    rcases hcheck : s.check with e | _
    · exact Kept.of_throws heap e
    · -- The heap is not looked at by the check.
      have hnext : ({ s with heap := heap } : IsolateScope Heap JsFunction).check = .ok () := hcheck
      have hkept := kept_makeResult hv hnext result
      exact ⟨hkept.functions, hkept.handler, hkept.silent, hkept.ne_crashes⟩

/-- **The spec of `process`**, for a record with the number of a function. -/
theorem kept_process {record : ProcessorRecord Message} (h : Known s.m_functions record) :
    s.Kept (s.process v8 exportMessage2Json record) := by
  obtain ⟨hsize, function, hlookup⟩ := h
  rw [process, if_neg (by omega), makeJsObject]
  rcases hparse : v8.parse s.heap (cString (exportMessage2Json record.message)) with
    ⟨heap, caught | (b | object | text | text)⟩
  · exact Kept.of_caught heap _ (hv.parse _ _ _ _ hparse)
  · exact Kept.of_throws heap _
  · dsimp only
    rw [hlookup]
    have hkept := kept_callFunction (s := { s with heap := heap }) hv function object
    exact ⟨hkept.functions, hkept.handler, hkept.silent, hkept.ne_crashes⟩
  · exact Kept.of_throws heap _
  · exact Kept.of_throws heap _

omit hv in
theorem Kept.silent_next {out : Result × IsolateScope Heap JsFunction} (h : s.Kept out)
    (hs : s.Silent) : out.2.Silent := by
  rcases h.handler with heq | ⟨hsilent, -⟩
  · obtain ⟨caught, hcaught, hmessage⟩ := hs
    exact ⟨caught, heq.trans hcaught, hmessage⟩
  · exact hsilent

/-! ### The records of a thread -/

variable (v8 exportMessage2Json) in
omit hv in
/-- What comes of some records: the messages, and what becomes of the thread. -/
def exports (s : IsolateScope Heap JsFunction) :
    List (ProcessorRecord Message) → List ProcessorMessage × IsolateScope Heap JsFunction
  | [] => ([], s)
  | record :: records =>
    ((s.process v8 exportMessage2Json record).1.message?.toList ++
        (exports (s.process v8 exportMessage2Json record).2 records).1,
      (exports (s.process v8 exportMessage2Json record).2 records).2)

omit hv in
theorem exports_append (s : IsolateScope Heap JsFunction)
    (records records' : List (ProcessorRecord Message)) :
    s.exports v8 exportMessage2Json (records ++ records') =
      ((s.exports v8 exportMessage2Json records).1 ++
          ((s.exports v8 exportMessage2Json records).2.exports v8 exportMessage2Json records').1,
        ((s.exports v8 exportMessage2Json records).2.exports v8 exportMessage2Json
          records').2) := by
  induction records generalizing s with
  | nil => rfl
  | cons record records ih => simp [exports, ih]

/-- The functions are what they are throughout. -/
theorem exports_functions (s : IsolateScope Heap JsFunction)
    {records : List (ProcessorRecord Message)}
    (h : ∀ record ∈ records, Known s.m_functions record) :
    (s.exports v8 exportMessage2Json records).2.m_functions = s.m_functions := by
  induction records generalizing s with
  | nil => rfl
  | cons record records ih =>
    obtain ⟨hrecord, hrecords⟩ := List.forall_mem_cons.mp h
    have hkept : s.Kept (s.process v8 exportMessage2Json record) := kept_process hv hrecord
    rw [exports, ih _ (by rw [hkept.functions]; exact hrecords), hkept.functions]

/-- **A round of the loop** takes all records of the bulk. -/
theorem round_eq (s : IsolateScope Heap JsFunction) {bulk : List (ProcessorRecord Message)}
    (h : ∀ record ∈ bulk, Known s.m_functions record) :
    s.round v8 exportMessage2Json bulk = some (s.exports v8 exportMessage2Json bulk) := by
  have hfold : ∀ (bulk : List (ProcessorRecord Message)) (s : IsolateScope Heap JsFunction)
      (messages : List ProcessorMessage), (∀ record ∈ bulk, Known s.m_functions record) →
      bulk.foldlM (take v8 exportMessage2Json) (messages, s) =
        some (messages ++ (s.exports v8 exportMessage2Json bulk).1,
          (s.exports v8 exportMessage2Json bulk).2) := by
    intro bulk
    induction bulk with
    | nil => simp [exports]
    | cons record bulk ih =>
      intro s messages h
      obtain ⟨hrecord, hbulk⟩ := List.forall_mem_cons.mp h
      have hkept : s.Kept (s.process v8 exportMessage2Json record) := kept_process hv hrecord
      have htake : take v8 exportMessage2Json (messages, s) record =
          some (messages ++ (s.process v8 exportMessage2Json record).1.message?.toList,
            (s.process v8 exportMessage2Json record).2) := by
        have hne := hkept.ne_crashes
        rw [take]
        rcases hprocess : s.process v8 exportMessage2Json record with ⟨m | _ | e | _, s'⟩
        · rfl
        · simp [Result.message?]
        · simp [Result.message?]
        · exact absurd (congrArg Prod.fst hprocess) hne
      rw [List.foldlM_cons, htake]
      refine (ih _ _ (by rw [hkept.functions]; exact hbulk)).trans ?_
      rw [exports, List.append_assoc]
  exact hfold bulk s [] h

/-- **A thread whose handler reports something** exports nothing. -/
theorem exports_of_silent {s : IsolateScope Heap JsFunction} (hs : s.Silent)
    {records : List (ProcessorRecord Message)}
    (h : ∀ record ∈ records, Known s.m_functions record) :
    (s.exports v8 exportMessage2Json records).1 = [] ∧
      (s.exports v8 exportMessage2Json records).2.Silent := by
  induction records generalizing s with
  | nil => exact ⟨rfl, hs⟩
  | cons record records ih =>
    obtain ⟨hrecord, hrecords⟩ := List.forall_mem_cons.mp h
    have hkept : s.Kept (s.process v8 exportMessage2Json record) := kept_process hv hrecord
    obtain ⟨hnone, hsilent⟩ := ih (hkept.silent_next hs) (by rw [hkept.functions]; exact hrecords)
    refine ⟨?_, hsilent⟩
    rw [exports, hkept.silent hs, hnone]
    rfl

/-- **A thread exports the answers before its first exception.** Of an exception on it is
silent. -/
theorem exports_eq_answers {s : IsolateScope Heap JsFunction} (hs : s.m_try_catch = none)
    {records : List (ProcessorRecord Message)}
    (h : ∀ record ∈ records, Known s.m_functions record) :
    (s.exports v8 exportMessage2Json records).1 =
        s.answers v8 exportMessage2Json (s.untilException v8 exportMessage2Json records) ∧
      (s.untilException v8 exportMessage2Json records ≠ records →
        (s.exports v8 exportMessage2Json records).2.Silent) := by
  induction records generalizing s with
  | nil => exact ⟨rfl, fun hne => absurd rfl hne⟩
  | cons record records ih =>
    obtain ⟨hrecord, hrecords⟩ := List.forall_mem_cons.mp h
    have hkept : s.Kept (s.process v8 exportMessage2Json record) := kept_process hv hrecord
    have hanswer : s.answer v8 exportMessage2Json record =
        s.process v8 exportMessage2Json record := by
      rw [answer, ← hs]
    have hknown : ∀ record' ∈ records,
        Known (s.process v8 exportMessage2Json record).2.m_functions record' := by
      rw [hkept.functions]
      exact hrecords
    rw [untilException, hanswer, exports]
    rcases hkept.handler with hnext | ⟨hsilent, hnone⟩
    · -- Nothing has been caught, and the rest is as before.
      rw [hs] at hnext
      obtain ⟨hrest, hrestSilent⟩ := ih hnext hknown
      rw [hnext, Option.isSome_none, if_neg (by simp), hrest, answers, hanswer]
      exact ⟨rfl, fun hne => hrestSilent fun heq => hne (by rw [heq])⟩
    · obtain ⟨hrest, hrestSilent⟩ :
          _ ∧ (IsolateScope.exports v8 exportMessage2Json _ records).2.Silent :=
        exports_of_silent hv hsilent hknown
      obtain ⟨caught, hcaught, -⟩ := hsilent
      rw [hcaught, Option.isSome_some, if_pos rfl, hnone, hrest]
      exact ⟨rfl, fun _ => hrestSilent⟩

end IsolateScope

/-! ### All threads -/

namespace Pool

open IsolateScope

variable {Thread : Type} [DecidableEq Thread] {v8 : Isolate Heap JsFunction JsObject}
  {exportMessage2Json : Message → Bytes}

/-- The records of some events are those of functions of the threads that take them. -/
def AllKnown (scopes : Thread → IsolateScope Heap JsFunction)
    (events : List (Thread × List (ProcessorRecord Message))) : Prop :=
  ∀ event ∈ events, ∀ record ∈ event.2, Known (scopes event.1).m_functions record

/-- The bulk of an event. -/
theorem step_eq (hv : v8.Reports) (pool : Pool Thread Heap JsFunction)
    (event : Thread × List (ProcessorRecord Message))
    (h : ∀ record ∈ event.2, Known (pool.scopes event.1).m_functions record) :
    ∃ pool', pool.step v8 exportMessage2Json event = some pool' ∧
      pool'.scopes = Function.update pool.scopes event.1
        ((pool.scopes event.1).exports v8 exportMessage2Json event.2).2 ∧
      ∀ t, pool'.exportedBy t = pool.exportedBy t ++
        if event.1 = t then ((pool.scopes event.1).exports v8 exportMessage2Json event.2).1
        else [] := by
  rw [step, round_eq hv _ h]
  refine ⟨_, rfl, rfl, fun t => ?_⟩
  dsimp only [exportedBy]
  split_ifs with hempty ht ht
  · rw [List.isEmpty_iff.mp hempty, List.append_nil]
  · rw [List.append_nil]
  · rw [List.filter_append, List.flatMap_append, List.filter_cons_of_pos (by simpa using ht)]
    simp
  · rw [List.filter_append, List.flatMap_append, List.filter_cons_of_neg (by simpa using ht)]
    simp

/-- **Every thread goes its own way**: what it has exported, and what has become of it, comes of
the records it has taken. -/
theorem foldlM_step (hv : v8.Reports) (scopes : Thread → IsolateScope Heap JsFunction)
    (events : List (Thread × List (ProcessorRecord Message))) (h : AllKnown scopes events) :
    ∃ pool : Pool Thread Heap JsFunction,
      events.foldlM (step v8 exportMessage2Json) ⟨scopes, []⟩ = some pool ∧
      ∀ t, (pool.exportedBy t, pool.scopes t) =
        (scopes t).exports v8 exportMessage2Json (recordsOf events t) := by
  induction events using List.reverseRecOn with
  | nil => exact ⟨⟨scopes, []⟩, rfl, fun t => rfl⟩
  | append_singleton events event ih =>
    have hevents : AllKnown scopes events := fun e he => h e (List.mem_append_left _ he)
    obtain ⟨pool, hpool, hthreads⟩ := ih hevents
    have hrecords : ∀ t, ∀ record ∈ recordsOf events t, Known (scopes t).m_functions record := by
      intro t record hrecord
      obtain ⟨e, he, hmem⟩ := List.mem_flatMap.mp hrecord
      obtain ⟨he, ht⟩ := List.mem_filter.mp he
      have hknown := hevents e he record hmem
      rwa [of_decide_eq_true ht] at hknown
    have hscope : ∀ t, pool.scopes t =
        ((scopes t).exports v8 exportMessage2Json (recordsOf events t)).2 := fun t =>
      congrArg Prod.snd (hthreads t)
    have hknown : ∀ record ∈ event.2, Known (pool.scopes event.1).m_functions record := by
      rw [hscope, exports_functions hv _ (hrecords event.1)]
      exact h event (by simp)
    obtain ⟨pool', hstep, hscopes, hexported⟩ := step_eq hv pool event hknown
    refine ⟨pool', Machine.foldlM_snoc_eq_some.mpr ⟨pool, hpool, hstep⟩, fun t => ?_⟩
    have hmore : recordsOf (events ++ [event]) t =
        recordsOf events t ++ if event.1 = t then event.2 else [] := by
      rw [recordsOf, List.filter_append, List.flatMap_append, ← recordsOf]
      by_cases ht : event.1 = t
      · rw [if_pos ht, List.filter_cons_of_pos (by simpa using ht)]
        simp
      · rw [if_neg ht, List.filter_cons_of_neg (by simpa using ht)]
        simp
    rw [hmore, exports_append, hexported t, hscopes, ← hthreads t]
    by_cases ht : event.1 = t
    · subst ht
      rw [if_pos rfl, if_pos rfl, Function.update_self]
    · rw [if_neg ht, if_neg ht, Function.update_of_ne (Ne.symm ht)]
      simp [exports]

/-- Silent threads hand nothing on. -/
theorem foldlM_step_of_silent (hv : v8.Reports) (pool : Pool Thread Heap JsFunction)
    (hsilent : ∀ t, (pool.scopes t).Silent)
    (events : List (Thread × List (ProcessorRecord Message))) (h : AllKnown pool.scopes events) :
    ∃ pool' : Pool Thread Heap JsFunction,
      events.foldlM (step v8 exportMessage2Json) pool = some pool' ∧
      pool'.offered = pool.offered := by
  induction events generalizing pool with
  | nil => exact ⟨pool, rfl, rfl⟩
  | cons event events ih =>
    obtain ⟨hevent, hevents⟩ := List.forall_mem_cons.mp h
    rcases hexports : (pool.scopes event.1).exports v8 exportMessage2Json event.2 with ⟨messages, s⟩
    obtain ⟨hnone, hstill⟩ : ((pool.scopes event.1).exports v8 exportMessage2Json event.2).1 = [] ∧
        ((pool.scopes event.1).exports v8 exportMessage2Json event.2).2.Silent :=
      exports_of_silent hv (hsilent event.1) hevent
    have hfunctions : ((pool.scopes event.1).exports v8 exportMessage2Json event.2).2.m_functions =
        (pool.scopes event.1).m_functions := exports_functions hv _ hevent
    rw [hexports] at hnone hstill hfunctions
    obtain rfl : messages = [] := hnone
    have hstep : pool.step v8 exportMessage2Json event =
        some ⟨Function.update pool.scopes event.1 s, pool.offered⟩ := by
      rw [step, round_eq hv _ hevent, hexports]
      rfl
    have hsilent' : ∀ t, (Function.update pool.scopes event.1 s t).Silent := by
      intro t
      by_cases ht : t = event.1
      · subst ht
        rw [Function.update_self]
        exact hstill
      · rw [Function.update_of_ne ht]
        exact hsilent t
    have hknown' : AllKnown (Function.update pool.scopes event.1 s) events := by
      intro e he record hrecord
      have hknown := hevents e he record hrecord
      by_cases ht : e.1 = event.1
      · rw [ht, Function.update_self, hfunctions, ← ht]
        exact hknown
      · rw [Function.update_of_ne ht]
        exact hknown
    obtain ⟨pool', hpool', hoffered⟩ := ih ⟨_, pool.offered⟩ hsilent' hknown'
    refine ⟨pool', ?_, hoffered⟩
    rw [List.foldlM_cons, hstep]
    exact hpool'

/-- **An exception of a script is the end of its thread.** Threads that have caught nothing take
bulks of records of registered scripts, in any order. Then each of them has handed on the answers
to its records before its first exception, and nothing else; and from the moment when each has
had an exception, nothing is handed on any more. -/
theorem exported_eq (hv : v8.Reports) (scopes : Thread → IsolateScope Heap JsFunction)
    (hscopes : ∀ t, (scopes t).m_try_catch = none)
    (events : List (Thread × List (ProcessorRecord Message))) (h : AllKnown scopes events) :
    ∃ pool : Pool Thread Heap JsFunction,
      events.foldlM (step v8 exportMessage2Json) ⟨scopes, []⟩ = some pool ∧
      (∀ t, pool.exportedBy t = (scopes t).answers v8 exportMessage2Json
        ((scopes t).untilException v8 exportMessage2Json (recordsOf events t))) ∧
      ((∀ t, (scopes t).untilException v8 exportMessage2Json (recordsOf events t) ≠
          recordsOf events t) →
        ∀ later : List (Thread × List (ProcessorRecord Message)), AllKnown scopes later →
          ∃ pool' : Pool Thread Heap JsFunction,
            later.foldlM (step v8 exportMessage2Json) pool = some pool' ∧
            pool'.offered = pool.offered) := by
  obtain ⟨pool, hpool, hthreads⟩ := foldlM_step hv scopes events h
  have hrecords : ∀ t, ∀ record ∈ recordsOf events t, Known (scopes t).m_functions record := by
    intro t record hrecord
    obtain ⟨e, he, hmem⟩ := List.mem_flatMap.mp hrecord
    obtain ⟨he, ht⟩ := List.mem_filter.mp he
    have hknown := h e he record hmem
    rwa [of_decide_eq_true ht] at hknown
  have hthread : ∀ t, ((scopes t).exports v8 exportMessage2Json (recordsOf events t)).1 = _ ∧
      (_ → ((scopes t).exports v8 exportMessage2Json (recordsOf events t)).2.Silent) := fun t =>
    exports_eq_answers hv (hscopes t) (hrecords t)
  refine ⟨pool, hpool, fun t => ?_, fun hall later hlater => ?_⟩
  · rw [← (hthread t).1, ← hthreads t]
  · refine foldlM_step_of_silent hv pool (fun t => ?_) later fun e he record hrecord => ?_
    · have hsilent := (hthread t).2 (hall t)
      rwa [← hthreads t] at hsilent
    · have hknown := hlater e he record hrecord
      have hfunctions :
          ((scopes e.1).exports v8 exportMessage2Json (recordsOf events e.1)).2.m_functions =
            (scopes e.1).m_functions := exports_functions hv _ (hrecords e.1)
      rw [← hthreads e.1] at hfunctions
      rwa [hfunctions]

end Pool

/-! ### A script that throws -/

/-- An engine whose functions return their argument, except for one that throws. -/
def sampleIsolate : Isolate Unit Bool Bytes where
  parse _ text := ((), .ok (.object text))
  call _ function object := ((), if function then .ok (.object object) else
    .error ⟨ascii "Error", some ⟨ascii "script", 1, ascii "throw", 0, 5, none⟩⟩)
  stringify _ object := ((), .ok object)

theorem reports_sampleIsolate : sampleIsolate.Reports where
  parse heap text heap' e h := by simp [sampleIsolate] at h
  call heap function object heap' e h := by
    cases function with
    | true => simp [sampleIsolate] at h
    | false =>
      obtain rfl := Except.error.inj (Prod.mk.inj h).2
      rfl
  stringify heap object heap' e h := by simp [sampleIsolate] at h

/-- A thread with two scripts, of which the second throws. -/
def sampleScope : IsolateScope Unit Bool where
  heap := ()
  m_try_catch := none
  m_functions := ⟨[⟨0, some true⟩, ⟨1, some false⟩], by simp [List.NodupKeys, List.keys]⟩

/-- A bulk of three records, of which the second one makes its script throw. -/
def sampleBulk : List (ProcessorRecord Bytes) :=
  [⟨ascii "\x7b\x7d", 0⟩, ⟨ascii "\x7b\x7d", 1⟩, ⟨ascii "\x7b\x7d", 0⟩]

/-- Only the first of three records is exported, and a later bulk is not at all. -/
theorem exported_eq_sample :
    ∃ pool : Pool Unit Unit Bool,
      [((), sampleBulk)].foldlM (Pool.step sampleIsolate id) ⟨fun _ => sampleScope, []⟩ =
        some pool ∧
      (∀ t, pool.exportedBy t = sampleScope.answers sampleIsolate id
        (sampleScope.untilException sampleIsolate id (Pool.recordsOf [((), sampleBulk)] t))) ∧
      ((∀ t : Unit, sampleScope.untilException sampleIsolate id
          (Pool.recordsOf [((), sampleBulk)] t) ≠ Pool.recordsOf [((), sampleBulk)] t) →
        ∀ later : List (Unit × List (ProcessorRecord Bytes)),
          Pool.AllKnown (fun _ => sampleScope) later →
            ∃ pool' : Pool Unit Unit Bool,
              later.foldlM (Pool.step sampleIsolate id) pool = some pool' ∧
              pool'.offered = pool.offered) :=
  Pool.exported_eq reports_sampleIsolate (fun _ => sampleScope) (fun _ => rfl) [((), sampleBulk)]
    (by
      intro event hevent record hrecord
      obtain rfl := List.mem_singleton.mp hevent
      simp only [sampleBulk, List.mem_cons, List.not_mem_nil, or_false] at hrecord
      rcases hrecord with rfl | rfl | rfl
      · exact ⟨by decide, true, rfl⟩
      · exact ⟨by decide, false, rfl⟩
      · exact ⟨by decide, true, rfl⟩)

end IqLogger.Processor.V8
