import IqLogger.Formats.Gelf.Failures
import IqLogger.Inputs.Input

/-!
# Importing GELF records

A record of the GELF input is the received bytes with the name of the input and the
sender, and its message is what the constructor of `GelfMessage` makes of them. The
constructor should fail with a `GelfException` only, and `Input::importMessages` catches
those: one record that cannot be parsed costs no other record of its batch.

It does so as long as the numbers that are given as texts convert. A timestamp or a
level that is a text without a number at its head, or with one that is too large, makes
`std::stod` or `std::stoi` throw an exception that nobody catches. The main result,
`IqLogger.Gelf.gelfOnly_iff`, says so for the constructor and for a batch; in
`IqLogger.Gelf.level_text_not_caught` a level of `abc` ends the import of two records.
-/

namespace IqLogger

namespace Gelf

open Rapidjson Inputs

/-- `inputs::Record<Gelf>`. -/
structure Record where
  input : Bytes
  data : Bytes
  source : Endpoint
  deriving DecidableEq

variable (boost : Decompressors) (parse : Bytes → Except ParseResult Value)

/-- `Record<Gelf>::exportMessage`, when the clock reads `currentTime`. -/
def exportMessage (record : Record × Float) : Except Throwable GelfMessage :=
  GelfMessage.construct parse record.2 boost record.1.input record.1.data record.1.source

/-- **The constructor throws nothing but a `GelfException` exactly when the numbers in
the buffer convert**, and a batch of records is imported without a loss exactly when they
convert in every record of it. -/
theorem gelfOnly_iff :
    (∀ input message endpoint currentTime,
      (GelfMessage.construct parse currentTime boost input message endpoint).FailsOnly
        (fun e => e.isGelfException) ↔ Convertible boost parse message) ∧
    ∀ receiveCounter (records : List (Record × Float)),
      (∃ result, importMessages (exportMessage boost parse) receiveCounter records = .ok result ∧
        result.messages = exported (exportMessage boost parse) records) ↔
      ∀ record ∈ records, Convertible boost parse record.1.data := by
  constructor
  · intro input message endpoint currentTime
    exact handler_isGelfException.construct_iff
  · intro receiveCounter records
    rw [imports_all_iff]
    exact forall₂_congr fun record _ => handler_isException.construct_iff

section Example

/-- A message without a timestamp, and the same one with a level that is no number. -/
def plainText : Bytes := ascii "\x7b\"version\":\"1.1\",\"host\":\"h\",\"short_message\":\"s\"\x7d"

def levelText : Bytes :=
  ascii "\x7b\"version\":\"1.1\",\"host\":\"h\",\"short_message\":\"s\",\"level\":\"abc\"\x7d"

/-- The members of the two objects. -/
def plainMembers : Members :=
  [(ascii "version", .string (ascii "1.1")), (ascii "host", .string (ascii "h")),
    (ascii "short_message", .string (ascii "s"))]

def levelMembers : Members := plainMembers ++ [(ascii "level", .string (ascii "abc"))]

/-- What the parser makes of the two texts; other texts do not occur. -/
def parseTexts (text : Bytes) : Except ParseResult Value :=
  if text = plainText then .ok (.object plainMembers)
  else if text = levelText then .ok (.object levelMembers)
  else .error ⟨3, 0, ascii "Invalid value."⟩

/-- Decompressors for data that is not compressed. -/
def notCompressed : Decompressors where
  gzip _ := .error ⟨ascii "gzip error", 3, -3⟩
  zlib _ := .error ⟨ascii "zlib error", -3⟩

def sender : Endpoint := ⟨"10.0.0.1", 5000⟩

/-- **An exception of `std::stoi` leaves the constructor**, and the import of a batch, in
which the other record would have given a message. -/
theorem level_text_not_caught :
    ¬(∀ input message endpoint currentTime,
      (GelfMessage.construct parseTexts currentTime notCompressed input message endpoint).FailsOnly
        fun e => e.isGelfException) ∧
    ¬∀ receiveCounter (records : List (Record × Float)), ∃ result,
      importMessages (exportMessage notCompressed parseTexts) receiveCounter records = .ok result ∧
        result.messages = exported (exportMessage notCompressed parseTexts) records := by
  constructor
  · intro h
    have hescape : GelfMessage.construct parseTexts 1600000000 notCompressed
        (ascii "gelf") levelText
        sender = .error ⟨.invalidArgument, ascii "stoi"⟩ := by decide +kernel
    exact absurd (h _ _ _ _ _ hescape) (by decide)
  · intro h
    obtain ⟨result, hresult, -⟩ := h 0
      [(⟨ascii "gelf", plainText, sender⟩, 1600000000),
       (⟨ascii "gelf", levelText, sender⟩, 1600000000)]
    have hescape : importMessages (exportMessage notCompressed parseTexts) 0
        [(⟨ascii "gelf", plainText, sender⟩, 1600000000),
          (⟨ascii "gelf", levelText, sender⟩, 1600000000)] =
          .error ⟨.invalidArgument, ascii "stoi"⟩ := by decide +kernel
    rw [hescape] at hresult
    cases hresult

end Example

end Gelf

end IqLogger
