import IqLogger.Core.Base

/-!
# Values of the other JSON library

What `nlohmann::json` holds, and its conversions. A value converts to the types of C++
by itself, and throws when it is of another kind (`IqLogger.Nlohmann.Value.getString`
and the like). Numbers convert to each other as C++ converts them; there an integer
type keeps the lowest bits, and what becomes of a floating-point number that does not
fit is left open by the language, so that conversion is a parameter.

The members of an object are a `std::map`, so they are in the order of their names, no
two of them are called the same, and the parser has refused numbers that are not finite
(`IqLogger.Nlohmann.Value.WellFormed`).
-/

namespace IqLogger

namespace Nlohmann

/-- The exceptions of the library. -/
inductive Exception
  | parseError
  | invalidIterator
  | typeError
  | outOfRange
  deriving DecidableEq, Repr

/-- `nlohmann::json`. -/
inductive Value
  | null
  | boolean (b : Bool)
  | integer (n : Int64)
  | unsigned (n : UInt64)
  | float (d : Float)
  | string (s : Bytes)
  | array (elements : List Value)
  | object (members : List (Bytes × Value))

namespace Value

/-- A value as the parser makes it. -/
inductive WellFormed : Value → Prop
  | null : WellFormed null
  | boolean (b : Bool) : WellFormed (boolean b)
  | integer (n : Int64) : WellFormed (integer n)
  | unsigned (n : UInt64) : WellFormed (unsigned n)
  | float (d : Float) (hfinite : d.isFinite) : WellFormed (float d)
  | string (s : Bytes) : WellFormed (string s)
  | array (elements : List Value) (helements : ∀ value ∈ elements, WellFormed value) :
    WellFormed (array elements)
  | object (members : List (Bytes × Value)) (hnames : (members.map Prod.fst).Pairwise (· < ·))
    (hmembers : ∀ member ∈ members, WellFormed member.2) : WellFormed (object members)

/-- No two members of an object are called the same. -/
theorem WellFormed.nodup {members : List (Bytes × Value)} (h : WellFormed (.object members)) :
    (members.map Prod.fst).Nodup := by
  cases h with
  | object _ hnames _ =>
    refine hnames.imp fun hlt heq => ?_
    rw [heq] at hlt
    exact List.lt_irrefl _ hlt

theorem WellFormed.of_mem {members : List (Bytes × Value)} (h : WellFormed (.object members))
    {member : Bytes × Value} (hmem : member ∈ members) : member.2.WellFormed := by
  cases h with
  | object _ _ hmembers => exact hmembers member hmem

/-- `is_string`. -/
def isString : Value → Bool
  | string _ => true
  | _ => false

/-- `is_number`. -/
def isNumber : Value → Bool
  | integer _ => true
  | unsigned _ => true
  | float _ => true
  | _ => false

/-- `is_boolean`. -/
def isBoolean : Value → Bool
  | boolean _ => true
  | _ => false

/-- `get<std::string>`. -/
def getString : Value → Except Exception Bytes
  | string s => pure s
  | _ => throw .typeError

/-- `get<double>`. A boolean is no number for it. -/
def getDouble : Value → Except Exception Float
  | integer n => pure (.ofModel (.ofInt n.toInt))
  | unsigned n => pure (.ofModel (.ofNat n.toNat))
  | float d => pure d
  | _ => throw .typeError

/-- `get<unsigned char>`. -/
def getUnsignedChar (toUnsignedChar : Float → UInt8) : Value → Except Exception UInt8
  | integer n => pure (UInt8.ofInt n.toInt)
  | unsigned n => pure (UInt8.ofNat n.toNat)
  | float d => pure (toUnsignedChar d)
  | boolean b => pure (if b then 1 else 0)
  | _ => throw .typeError

/-- `get<std::uint64_t>`. -/
def getUint64 (toUint64 : Float → UInt64) : Value → Except Exception UInt64
  | integer n => pure (UInt64.ofInt n.toInt)
  | unsigned n => pure n
  | float d => pure (toUint64 d)
  | _ => throw .typeError

/-- `at`: the member of a name. -/
def atKey (name : String) : Value → Except Exception Value
  | object members =>
    match members.lookup (ascii name) with
    | some value => pure value
    | none => throw .outOfRange
  | _ => throw .typeError

theorem atKey_object {members : List (Bytes × Value)} {name : String} {value : Value}
    (h : members.lookup (ascii name) = some value) : (object members).atKey name = .ok value := by
  rw [atKey, h]
  rfl

/-- `count`: the member of a name, if the value is an object that has one. -/
def member (name : String) : Value → Option Value
  | object members => members.lookup (ascii name)
  | _ => none

end Value

end Nlohmann

end IqLogger
