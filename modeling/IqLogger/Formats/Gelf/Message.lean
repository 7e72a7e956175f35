import IqLogger.Formats.Base
import IqLogger.Lib.Rapidjson

/-!
# GELF messages

The way from received bytes to a `GelfMessage`: `decompress` undoes a compression it
knows by the first two bytes, and the constructor of `gelf` parses the text as JSON and
checks the object that comes out field by field, in the order of the source. Every
check has a way to fail of its own.

Strings pass through a `const char*` on the way, so they end at the first NUL: the text
that is parsed, the values of fields and the names of additional fields. Members are
looked up by their whole names, the first one of a name counts, and additional fields
are added in the order of the text.

Parameters of the model are the decompressors, the JSON parser and the clock.
-/

namespace IqLogger

namespace Gelf

open Rapidjson

/-! ### Decompression -/

/-- `boost::iostreams::gzip_error`. -/
structure GzipError where
  what : Bytes
  error : Int
  zlibErrorCode : Int

/-- `boost::iostreams::zlib_error`. -/
structure ZlibError where
  what : Bytes
  error : Int

/-- The decompressors, each with the exceptions it throws. -/
structure Decompressors where
  gzip : Bytes → Except GzipError Bytes
  zlib : Bytes → Except ZlibError Bytes

/-- An integer as `operator<<` writes it. -/
def decimal (n : Int) : Bytes := ascii (toString n)

/-- The text of a buffer that was compressed with gzip, by its first two bytes. -/
def isGzip (buffer : Bytes) : Bool := buffer.take 2 = [0x1f, 0x8b]

/-- The three variants of zlib. -/
def isZlib (buffer : Bytes) : Bool :=
  buffer.take 2 = [0x78, 0x01] || buffer.take 2 = [0x78, 0x9c] || buffer.take 2 = [0x78, 0xda]

/-- The exception a `gzip_error` is turned into. -/
def GzipError.toThrowable (e : GzipError) : Throwable :=
  ⟨.gelfUncompressError, ascii "Gzip error: " ++ e.what ++ ascii ". Error code: " ++ decimal e.error
    ++ ascii " (" ++ decimal e.zlibErrorCode ++ ascii ")"⟩

/-- The exception a `zlib_error` is turned into. -/
def ZlibError.toThrowable (e : ZlibError) : Throwable :=
  ⟨.gelfUncompressError, ascii "Zlib error: " ++ e.what ++
    ascii ". Error code: " ++ decimal e.error⟩

/-- `decompress`. -/
def decompress (boost : Decompressors) (buffer : Bytes) : Except Throwable Bytes :=
  if buffer.length ≤ 2 then
    throw ⟨.gelfException, ascii "Gelf Message length less than 2 bytes!"⟩
  else if isGzip buffer then (boost.gzip buffer).mapError GzipError.toThrowable
  else if isZlib buffer then (boost.zlib buffer).mapError ZlibError.toThrowable
  else pure buffer

/-! ### The object -/

/-- `gelf`. -/
structure GelfData where
  version : Bytes
  host : Bytes
  shortMessage : Bytes
  fullMessage : Bytes
  timestamp : Float
  level : UInt8
  additionalFields : Object
  deriving DecidableEq

/-- `min_timestamp`. -/
def minTimestamp : Float := 1546300800

/-- `throw GelfParseError(…)`. -/
def parseError {α : Type} (what : String) : Except Throwable α :=
  throw ⟨.gelfParseError, ascii what⟩

/-- The object of a document. -/
abbrev Members := List (Bytes × Value)

variable (members : Members)

/-- A field that has to be there: a string, with what is checked of it. -/
def requiredString (name notString incorrect notPresent : String) (accepts : Bytes → Bool) :
    Except Throwable Bytes :=
  match findMember name members with
  | some (.string s) => if accepts (getString s) then pure (getString s) else parseError incorrect
  | some _ => parseError notString
  | none => parseError notPresent

/-- The version. -/
def version : Except Throwable Bytes :=
  requiredString members "version" "Version in GELF must be string" "Version in GELF must be 1.1"
    "Version in GELF doesn't present" (· = ascii "1.1")

/-- The host. -/
def host : Except Throwable Bytes :=
  requiredString members "host" "Host in GELF must be string" "Host in GELF must not be empty"
    "Host in GELF doesn't present" (· ≠ [])

/-- The short message. -/
def shortMessage : Except Throwable Bytes :=
  requiredString members "short_message" "Short message in GELF must be string"
    "Short message in GELF must not be empty" "hort message in GELF doesn't present" (· ≠ [])

/-- The full message, which need not be there. -/
def fullMessage : Except Throwable Bytes :=
  match findMember "full_message" members with
  | some (.string s) => pure (getString s)
  | some _ => parseError "Full message in GELF must be string"
  | none => pure []

/-- The timestamp as it is written, a number or a text. -/
def readTimestamp : Value → Except Throwable Float
  | .int n => if n.isLosslessDouble then pure n.getDouble
      else parseError "Timestamp in GELF must be UNIX time"
  | .double d => pure d
  -- `std::stod` throws, too, and that is no exception of the parser
  | .string s => stod (getString s)
  | _ => parseError "Timestamp in GELF must be UNIX time"

/-- The check of a timestamp; it holds for not-a-number, too. -/
def checkTimestamp (timestamp : Float) : Except Throwable Float :=
  if timestamp < minTimestamp then
    parseError "Incorrect timestamp in GELF. Timestamp in GELF must be UNIX time."
  else pure timestamp

/-- The timestamp; by default it is the current time, which is not checked. -/
def timestamp (currentTime : Float) : Except Throwable Float :=
  match findMember "timestamp" members with
  | some value => readTimestamp value >>= checkTimestamp
  | none => pure currentTime

/-- The level as it is written, an integer or a text; the field is an
`unsigned char`, so only the lowest eight bits are kept. -/
def readLevel : Value → Except Throwable UInt8
  | .int n => if n.isInt then pure (UInt8.ofInt n.getInt.toInt)
      else parseError "Level in GELF must be integer"
  | .string s => do
    let level ← stoi (getString s)
    pure (UInt8.ofInt level.toInt)
  | _ => parseError "Level in GELF must be integer"

/-- The check of a level. -/
def checkLevel (level : UInt8) : Except Throwable UInt8 :=
  if level < 1 ∨ 10 ≤ level then parseError "Incorrect level in GELF" else pure level

/-- The level; by default it is one. -/
def level : Except Throwable UInt8 :=
  match findMember "level" members with
  | some value => readLevel value >>= checkLevel
  | none => pure 1

/-- `isSystemField`. -/
def isSystemField (key : Bytes) : Bool :=
  key = ascii "version" || key = ascii "host" || key = ascii "short_message" ||
    key = ascii "full_message" || key = ascii "timestamp" || key = ascii "level"

/-- The name of a field, with an underscore in front. -/
def withUnderscore (key : Bytes) : Bytes := if key.head? = some 95 then key else 95 :: key

/-- The value of an additional field. -/
def fieldValue (name : Bytes) : Value → Except Throwable ObjectVariants
  | .string s => pure (.string (getString s))
  | .int n => if n.isInt then pure (.int n.getInt)
      else throw ⟨.gelfParseError, ascii "Incorrect type in GELF: " ++ getString name⟩
  | .double d => pure (.double d)
  | .bool b => pure (.bool b)
  | _ => throw ⟨.gelfParseError, ascii "Incorrect type in GELF: " ++ getString name⟩

/-- The loop body of the constructor, for one member of the document. -/
def addField (fields : Object) (member : Bytes × Value) : Except Throwable Object :=
  if isSystemField (getString member.1) then pure fields
  else do
    let value ← fieldValue member.1 member.2
    -- of two members of one name the first counts
    pure (fields.emplace (withUnderscore (getString member.1)) value)

/-- The additional fields. -/
def additionalFields : Except Throwable Object := members.foldlM addField ∅

/-- The checks of `gelf(std::string_view)` on an object, in their order. -/
def gelfOfMembers (currentTime : Float) : Except Throwable GelfData := do
  let version ← version members
  let host ← host members
  let shortMessage ← shortMessage members
  let fullMessage ← fullMessage members
  let timestamp ← timestamp members currentTime
  let level ← level members
  let additionalFields ← additionalFields members
  pure ⟨version, host, shortMessage, fullMessage, timestamp, level, additionalFields⟩

/-- The exception for a text that is no JSON. -/
def notParsed (message : Bytes) (result : ParseResult) : Throwable :=
  ⟨.gelfParseError, ascii "Coudn't construct GELF message: " ++ result.text ++ ascii "\n"
    ++ ascii "exception id: " ++ decimal result.code ++ ascii "\n"
    ++ ascii "byte position of error: " ++ decimal result.offset ++ ascii "\n"
    ++ ascii "Message: " ++ message ++ ascii "\n"⟩

variable (parse : Bytes → Except ParseResult Value) (currentTime : Float)

/-- `gelf(std::string_view)`. The text is parsed as a `const char*`. -/
def gelf (message : Bytes) : Except Throwable GelfData :=
  match parse (cString message) with
  | .error result => throw (notParsed message result)
  | .ok (.object members) => gelfOfMembers members currentTime
  | .ok _ => parseError "GELF buffer is not an object!"

/-! ### The message -/

/-- `GelfMessage`. -/
structure GelfMessage where
  input : Bytes
  gelf : GelfData
  endpoint : Endpoint
  deriving DecidableEq

/-- The constructors of `GelfMessage` from received bytes; the one without an endpoint
has the default one. -/
def GelfMessage.construct (boost : Decompressors) (input message : Bytes) (endpoint : Endpoint) :
    Except Throwable GelfMessage := do
  let text ← decompress boost message
  let gelf ← Gelf.gelf parse currentTime text
  pure ⟨input, gelf, endpoint⟩

end Gelf

end IqLogger
