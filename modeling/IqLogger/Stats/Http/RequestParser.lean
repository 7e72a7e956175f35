import IqLogger.Core.Base
import IqLogger.Lib.Scanner

/-!
# The parser of the statistics server

`RequestParser` reads an HTTP request byte after byte into a `Request`. Its state is
one of twenty; `RequestParser.consume` is the step, `RequestParser.parse` reads
up to a verdict, and `Connection.do_read` parses one read after the other for as long
as there is none.

A byte is a `char`, which is signed on the targets the program is built for, and the
character classes are functions of an `int`: the upper half of the bytes is negative to
them. The version numbers are `int`s too, and a `Request` does not initialise them.
-/

namespace IqLogger.Http

open Scanner

/-- A header, as the parser collects it. -/
structure Header where
  name : Bytes
  value : Bytes
  deriving DecidableEq, Repr

/-- `Request`. -/
structure Request where
  method : Bytes
  uri : Bytes
  http_version_major : Int32
  http_version_minor : Int32
  headers : List Header
  deriving DecidableEq

/-- A request nothing has been read into: its version numbers are whatever they are. -/
def Request.empty (major minor : Int32) : Request :=
  { method := []
    uri := []
    http_version_major := major
    http_version_minor := minor
    headers := [] }

/-- A change of `headers.back()`. -/
def modifyBack (f : Header → Header) : List Header → List Header
  | [] => []
  | [header] => [f header]
  | header :: next :: headers => header :: modifyBack f (next :: headers)

@[simp] theorem modifyBack_append_singleton (f : Header → Header) (headers : List Header)
    (header : Header) : modifyBack f (headers ++ [header]) = headers ++ [f header] := by
  induction headers with
  | nil => rfl
  | cons first rest ih =>
    cases rest with
    | nil => rfl
    | cons second rest => exact congrArg (first :: ·) ih

/-- `headers.back().name.push_back(input)`. -/
def push_back_name (input : UInt8) : List Header → List Header :=
  modifyBack fun header => { header with name := header.name ++ [input] }

/-- `headers.back().value.push_back(input)`. -/
def push_back_value (input : UInt8) : List Header → List Header :=
  modifyBack fun header => { header with value := header.value ++ [input] }

/-! ### Characters -/

/-- The `int` a `char` is passed on as. -/
def toInt (input : UInt8) : ℤ := input.toInt8.toInt

/-- `RequestParser::is_char`. -/
def is_char (c : ℤ) : Bool := 0 ≤ c && c ≤ 127

/-- `RequestParser::is_ctl`. -/
def is_ctl (c : ℤ) : Bool := (0 ≤ c && c ≤ 31) || c == 127

/-- The cases of `RequestParser::is_tspecial`. -/
def tspecials : List Char :=
  ['(', ')', '<', '>', '@', ',', ';', ':', '\\', '"', '/', '[', ']', '?', '=', '{', '}', ' ', '\t']

/-- `RequestParser::is_tspecial`. -/
def is_tspecial (c : ℤ) : Bool := tspecials.any fun t => c == t.toNat

/-- `RequestParser::is_digit`. -/
def is_digit (c : ℤ) : Bool := 48 ≤ c && c ≤ 57

/-- A character constant of the source. -/
def chr (c : Char) : UInt8 := c.toUInt8

/-- `'\r'`. -/
def CR : UInt8 := 13

/-- `'\n'`. -/
def LF : UInt8 := 10

/-- `' '`. -/
def SP : UInt8 := 32

/-- `'\t'`. -/
def HT : UInt8 := 9

/-! ### The automaton -/

/-- `RequestParser::state`. -/
inductive State
  | method_start
  | method
  | uri
  | http_version_h
  | http_version_t_1
  | http_version_t_2
  | http_version_p
  | http_version_slash
  | http_version_major_start
  | http_version_major
  | http_version_minor_start
  | http_version_minor
  | expecting_newline_1
  | header_line_start
  | header_lws
  | header_name
  | space_before_header_value
  | header_value
  | expecting_newline_2
  | expecting_newline_3
  deriving DecidableEq, Repr

namespace RequestParser

/-- `version * 10 + input - '0'`, in an `int`. -/
def version_digit (version : Int32) (input : UInt8) : Int32 :=
  version * 10 + Int32.ofInt (toInt input) - 48

/-- `RequestParser::consume`, as a step of the state of the parser and the request. -/
def consume : State × Request → UInt8 → Verdict × State × Request
  | (.method_start, req), input =>
    if !is_char (toInt input) || is_ctl (toInt input) || is_tspecial (toInt input) then
      (.bad, .method_start, req)
    else
      (.indeterminate, .method, { req with method := req.method ++ [input] })
  | (.method, req), input =>
    if input = SP then
      (.indeterminate, .uri, req)
    else if !is_char (toInt input) || is_ctl (toInt input) || is_tspecial (toInt input) then
      (.bad, .method, req)
    else
      (.indeterminate, .method, { req with method := req.method ++ [input] })
  | (.uri, req), input =>
    if input = SP then
      (.indeterminate, .http_version_h, req)
    else if is_ctl (toInt input) then
      (.bad, .uri, req)
    else
      (.indeterminate, .uri, { req with uri := req.uri ++ [input] })
  | (.http_version_h, req), input =>
    if input = chr 'H' then
      (.indeterminate, .http_version_t_1, req)
    else
      (.bad, .http_version_h, req)
  | (.http_version_t_1, req), input =>
    if input = chr 'T' then
      (.indeterminate, .http_version_t_2, req)
    else
      (.bad, .http_version_t_1, req)
  | (.http_version_t_2, req), input =>
    if input = chr 'T' then
      (.indeterminate, .http_version_p, req)
    else
      (.bad, .http_version_t_2, req)
  | (.http_version_p, req), input =>
    if input = chr 'P' then
      (.indeterminate, .http_version_slash, req)
    else
      (.bad, .http_version_p, req)
  | (.http_version_slash, req), input =>
    if input = chr '/' then
      (.indeterminate, .http_version_major_start,
        { req with http_version_major := 0, http_version_minor := 0 })
    else
      (.bad, .http_version_slash, req)
  | (.http_version_major_start, req), input =>
    if is_digit (toInt input) then
      (.indeterminate, .http_version_major,
        { req with http_version_major := version_digit req.http_version_major input })
    else
      (.bad, .http_version_major_start, req)
  | (.http_version_major, req), input =>
    if input = chr '.' then
      (.indeterminate, .http_version_minor_start, req)
    else if is_digit (toInt input) then
      (.indeterminate, .http_version_major,
        { req with http_version_major := version_digit req.http_version_major input })
    else
      (.bad, .http_version_major, req)
  | (.http_version_minor_start, req), input =>
    if is_digit (toInt input) then
      (.indeterminate, .http_version_minor,
        { req with http_version_minor := version_digit req.http_version_minor input })
    else
      (.bad, .http_version_minor_start, req)
  | (.http_version_minor, req), input =>
    if input = CR then
      (.indeterminate, .expecting_newline_1, req)
    else if is_digit (toInt input) then
      (.indeterminate, .http_version_minor,
        { req with http_version_minor := version_digit req.http_version_minor input })
    else
      (.bad, .http_version_minor, req)
  | (.expecting_newline_1, req), input =>
    if input = LF then
      (.indeterminate, .header_line_start, req)
    else
      (.bad, .expecting_newline_1, req)
  | (.header_line_start, req), input =>
    if input = CR then
      (.indeterminate, .expecting_newline_3, req)
    else if !req.headers.isEmpty && (input == SP || input == HT) then
      (.indeterminate, .header_lws, req)
    else if !is_char (toInt input) || is_ctl (toInt input) || is_tspecial (toInt input) then
      (.bad, .header_line_start, req)
    else
      (.indeterminate, .header_name, { req with headers := req.headers ++ [⟨[input], []⟩] })
  | (.header_lws, req), input =>
    if input = CR then
      (.indeterminate, .expecting_newline_2, req)
    else if input = SP ∨ input = HT then
      (.indeterminate, .header_lws, req)
    else if is_ctl (toInt input) then
      (.bad, .header_lws, req)
    else
      (.indeterminate, .header_value,
        { req with headers := push_back_value input req.headers })
  | (.header_name, req), input =>
    if input = chr ':' then
      (.indeterminate, .space_before_header_value, req)
    else if !is_char (toInt input) || is_ctl (toInt input) || is_tspecial (toInt input) then
      (.bad, .header_name, req)
    else
      (.indeterminate, .header_name,
        { req with headers := push_back_name input req.headers })
  | (.space_before_header_value, req), input =>
    if input = SP then
      (.indeterminate, .header_value, req)
    else
      (.bad, .space_before_header_value, req)
  | (.header_value, req), input =>
    if input = CR then
      (.indeterminate, .expecting_newline_2, req)
    else if is_ctl (toInt input) then
      (.bad, .header_value, req)
    else
      (.indeterminate, .header_value,
        { req with headers := push_back_value input req.headers })
  | (.expecting_newline_2, req), input =>
    if input = LF then
      (.indeterminate, .header_line_start, req)
    else
      (.bad, .expecting_newline_2, req)
  | (.expecting_newline_3, req), input =>
    (if input = LF then .good else .bad, .expecting_newline_3, req)

/-- `RequestParser::parse`: consume bytes up to a verdict. The iterator that is returned is
given by the bytes it has not passed. -/
def parse (parser : State × Request) (input : Bytes) : Verdict × (State × Request) × Bytes :=
  scan consume parser input

/-- A fresh parser, and an empty request. -/
def fresh (major minor : Int32) : State × Request := (.method_start, .empty major minor)

end RequestParser

/-- `Connection::do_read`, over all the reads there are: each is parsed from where the one
before has ended, and after a verdict nothing is read any more. -/
def Connection.do_read (parser : State × Request) (reads : List Bytes) :
    Verdict × (State × Request) × Bytes :=
  scanChunks RequestParser.consume parser reads

end IqLogger.Http
