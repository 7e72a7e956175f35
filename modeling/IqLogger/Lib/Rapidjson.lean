import IqLogger.Core.Base
import Mathlib.Algebra.Ring.Int.Defs

/-!
# Documents of the JSON library

What `rapidjson::Document::Parse` makes of a text: an error with its code and offset,
or a value. The library keeps a number without a fraction and an exponent as an integer
when it fits 64 bits, signed or unsigned (`Rapidjson.Integer`), and as a `double`
otherwise. The members of an object are kept in the order of the text, several of one
name included.

The parser itself is a parameter of the model; here are the values it returns and the
questions that are asked of them.
-/

namespace IqLogger

namespace Rapidjson

/-- `rapidjson::ParseResult`, with the text `GetParseError_En` has for its code. -/
structure ParseResult where
  code : ℕ
  offset : ℕ
  text : Bytes
  deriving DecidableEq, Repr

/-- The integers that are kept as integers. -/
def Integer := {n : Int // -2 ^ 63 ≤ n ∧ n < 2 ^ 64}

/-- `rapidjson::Value`. -/
inductive Value
  | null
  | bool (b : Bool)
  | int (n : Integer)
  | double (d : Float)
  | string (s : Bytes)
  | array (elements : List Value)
  | object (members : List (Bytes × Value))

namespace Integer

variable (n : Integer)

/-- `IsInt`: the number fits an `int`. -/
def isInt : Bool := -2 ^ 31 ≤ n.1 && n.1 < 2 ^ 31

/-- `GetInt`. -/
def getInt : Int32 := Int32.ofInt n.1

/-- `IsUint64`. -/
def isUint64 : Bool := 0 ≤ n.1

/-- `GetDouble`. -/
def getDouble : Float := .ofModel (.ofInt n.1)

/-- `IsLosslessDouble`: converted to a `double` and back, the number is the same. The
bounds are the largest numbers of the types, rounded to a `double`. -/
def isLosslessDouble : Bool :=
  if n.isUint64 then
    0 ≤ n.getDouble && n.getDouble < 18446744073709551615 && n.getDouble.toUInt64.toNat = n.1
  else
    -9223372036854775808 ≤ n.getDouble && n.getDouble < 9223372036854775807 &&
      n.getDouble.toInt64.toInt = n.1

end Integer

/-- `FindMember`: the first member of the name. -/
def findMember (name : String) (members : List (Bytes × Value)) : Option Value :=
  members.lookup (ascii name)

/-- `GetString`, as a `std::string` is made of it. -/
def getString (s : Bytes) : Bytes := cString s

end Rapidjson

end IqLogger
