import IqLogger.Formats.Gelf.SetField

/-!
# Records of the GELF output

What the output makes of a message: one constructor of `Record<Gelf>` for each kind of
message, and each of them ends in the text that is sent
(`IqLogger.Gelf.Record.ofMessage`). A GELF message is dumped as it is; the others are
turned into one by `setField`. A line of a file may hold JSON, either an object with
its fields under `data`, or a GELF message; and if it does not, or if one of the fields
is of a wrong type, the whole line is the short message.

An exception of the program means that the message is dropped. No other exception is
caught where the records are made.
-/

namespace IqLogger

namespace Gelf

open Rapidjson

/-! ### Messages -/

/-- `JournalMessage`. The time is in microseconds. -/
structure JournalMessage where
  data : Object
  timestamp : UInt64

/-- `TailMessage`. -/
structure TailMessage where
  data : Bytes
  filename : Bytes
  deriving DecidableEq

/-- The messages that reach the output. -/
inductive Message
  | journal (m : JournalMessage)
  | tail (m : TailMessage)
  | gelf (m : GelfMessage)
  | json (value : Nlohmann.Value)
  | dummy (data : Bytes)

/-! ### Conversions -/

/-- What the conversions use besides the message: the host name and the clock, the two
JSON libraries, the decompressors, the order maps are gone through in, and a conversion
of numbers the language leaves open. -/
structure Environment where
  hostname : Bytes
  currentTime : Float
  write : Fields → Bytes
  parse : Bytes → Except ParseResult Value
  order : IterationOrder
  boost : Decompressors
  jsonParse : Bytes → Except Nlohmann.Exception Nlohmann.Value
  jsonDump : Object → Except Nlohmann.Exception Bytes
  toUnsignedChar : Float → UInt8

namespace Environment

variable (env : Environment)

/-- The default message. -/
def gelf : GelfData := .default env.hostname env.currentTime

/-- `exportMessage` of a `GelfMessage`. -/
def exportMessage (g : GelfData) : Bytes := dump env.write env.order g

/-- The values of records, and how they convert. -/
abbrev variants : FieldType ObjectVariants := variantField env.toUnsignedChar

/-- JSON values, and how they convert. -/
abbrev jsonValues : FieldType Nlohmann.Value := jsonField env.toUnsignedChar

/-- Setting a field to a text or to another value of a record. -/
def setVariant (g : GelfData) (name : String) (value : ObjectVariants) : Except Thrown GelfData :=
  setField env.variants g (ascii name, value)

/-- A `GelfMessage` that is made of a text. -/
def decode (text : Bytes) : Except Throwable GelfData := do
  let text ← decompress env.boost text
  Gelf.gelf env.parse env.currentTime text

end Environment

namespace Record

variable (env : Environment)

/-- A dummy message. -/
def ofDummy (data : Bytes) : Except Thrown Bytes := do
  let gelf ← env.setVariant env.gelf "short_message" (.string data)
  pure (env.exportMessage gelf)

/-- A GELF message. -/
def ofGelf (m : GelfMessage) : Except Thrown Bytes := pure (env.exportMessage m.gelf)

/-- The values of an object that are set as fields. -/
def isField (value : Nlohmann.Value) : Bool :=
  value.isString || value.isNumber || value.isBoolean

/-- The loop over the members of an object. -/
def setMembers (g : GelfData) (members : List (Bytes × Nlohmann.Value)) :
    GelfData × Option Thrown :=
  setFields env.jsonValues g (members.filter fun member => isField member.2)

/-- The loop over any JSON value. Only the members of an object have a name; elsewhere
the first value that would be set throws. -/
def setValue (g : GelfData) : Nlohmann.Value → GelfData × Option Thrown
  | .object members => setMembers env g members
  -- `key()` throws for an iterator that is not over an object
  | .array elements =>
    (g, if elements.any isField then some (.json .invalidIterator) else none)
  | value => (g, if isField value then some (.json .invalidIterator) else none)

/-- After a loop that is not inside of a `try`. -/
def finishLoop : GelfData × Option Thrown → Except Thrown Bytes
  | (gelf, none) => pure (env.exportMessage gelf)
  | (_, some e) => throw e

/-- A JSON message. -/
def ofJson (value : Nlohmann.Value) : Except Thrown Bytes :=
  finishLoop env (setValue env env.gelf value)

/-- The time of a record of the journal, in seconds. -/
def seconds (timestamp : UInt64) : Float := Float.ofModel (.ofNat timestamp.toNat) / 1000000

/-- The short message of a record of the journal: its message, or else the record itself
as JSON. -/
def journalMessage (m : JournalMessage) : Except Thrown ObjectVariants :=
  match m.data.lookup (ascii "MESSAGE") with
  | some value => pure value
  -- `at("MESSAGE")` throws `std::out_of_range`, and the handler exports the record
  | none => do
    let text ← (env.jsonDump m.data).mapError .json
    pure (.string text)

/-- The host of a record of the journal, if it has one. -/
def setHostname (m : JournalMessage) (g : GelfData) : Except Thrown GelfData :=
  match m.data.lookup (ascii "_HOSTNAME") with
  | some value => env.setVariant g "host" value
  -- the handler of `std::out_of_range` is empty
  | none => pure g

/-- The fields of a record of the journal that are left for the loop. -/
def journalFields (m : JournalMessage) : Fields :=
  ((env.order.entries m.data).map fun entry => (entry.1, entry.2)).filter fun field =>
    field.1 ≠ ascii "MESSAGE" && field.1 ≠ ascii "_HOSTNAME"

/-- A record of the journal. -/
def ofJournal (m : JournalMessage) : Except Thrown Bytes := do
  let message ← journalMessage env m
  let gelf ← env.setVariant env.gelf "short_message" message
  let gelf ← env.setVariant gelf "timestamp" (.double (seconds m.timestamp))
  let gelf ← setHostname env m gelf
  finishLoop env (setFields env.variants gelf (journalFields env m))

/-- What the handler of `GelfException` makes of an exception. -/
def handleGelf (data : Bytes) (e : Throwable) : Throwable :=
  if e.isGelfException then
    ⟨.exception, ascii "Error decode tail message from: " ++ data ++ ascii ". Error: " ++ e.what⟩
  else e

/-- What is done to the message of a line at the end: the file it comes from is
added. -/
def finishTail (m : TailMessage) (g : GelfData) : Except Thrown Bytes := do
  let gelf ← env.setVariant g "file" (.string m.filename)
  pure (env.exportMessage gelf)

/-- What the handlers of the JSON library's exceptions do: the line is the short
message. -/
def lineTail (m : TailMessage) (g : GelfData) : Except Thrown Bytes := do
  let gelf ← env.setVariant g "short_message" (.string m.data)
  finishTail env m gelf

/-- A line of a file. -/
def ofTail (m : TailMessage) : Except Thrown Bytes :=
  match env.jsonParse m.data with
  -- `parse_error`, with a handler of its own
  | .error _ => lineTail env m env.gelf
  | .ok json =>
    match json.member "data" with
    -- the line may be GELF as it is; then its message is a new one, not the default
    | none =>
      match env.decode m.data with
      | .ok gelf => finishTail env m gelf
      | .error e => throw (.throwable (handleGelf m.data e))
    | some (.object members) =>
      match setMembers env env.gelf members with
      | (gelf, none) => finishTail env m gelf
      -- the handler is outside of the loop, so the fields set before stay
      | (gelf, some (.json _)) => lineTail env m gelf
      | (_, some (.throwable e)) => throw (.throwable (handleGelf m.data e))
    -- thrown inside of the `try`, but none of its handlers is for an `Exception`
    | some _ =>
      throw (.throwable ⟨.exception, ascii "Error decode tail message from " ++ m.data⟩)

/-- `Record<Gelf>::Record`. -/
def ofMessage : Message → Except Thrown Bytes
  | .journal m => ofJournal env m
  | .tail m => ofTail env m
  | .gelf m => ofGelf env m
  | .json value => ofJson env value
  | .dummy data => ofDummy env data

end Record

end Gelf

end IqLogger
