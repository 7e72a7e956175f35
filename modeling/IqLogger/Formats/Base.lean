import IqLogger.Core.Base
import IqLogger.Lib.Strto
import IqLogger.Lib.Tables

/-!
# What the formats share

The objects messages carry, maps from names to values of four types, and what is thrown
on the way from a text to a message: the exceptions of the program, which form a
hierarchy under `iqlogger::Exception`, and those of the standard conversions, which
stand outside of it. A handler for a class catches the classes below it
(`IqLogger.Throwable.isException`, `IqLogger.Throwable.isGelfException`).
-/

namespace IqLogger

/-! ### Exceptions -/

/-- The class of what is thrown. -/
inductive ExceptionClass
  | exception
  | gelfException
  | gelfUncompressError
  | gelfParseError
  | invalidArgument
  | outOfRange
  deriving DecidableEq, Repr

/-- What is thrown: its class and the text `what()` returns. -/
structure Throwable where
  kind : ExceptionClass
  what : Bytes
  deriving DecidableEq, Repr

namespace Throwable

/-- What `catch (const GelfException&)` catches. -/
def isGelfException (e : Throwable) : Bool :=
  match e.kind with
  | .gelfException | .gelfUncompressError | .gelfParseError => true
  | _ => false

/-- What `catch (const Exception&)` catches. -/
def isException (e : Throwable) : Bool := e.kind = .exception || e.isGelfException

theorem isException_of_isGelfException {e : Throwable} (h : e.isGelfException) : e.isException := by
  rw [isException, h, Bool.or_true]

/-- A conversion's exception; its text is the name of the conversion. -/
def ofConversion (name : String) : Strto.ConversionError → Throwable
  | .invalidArgument => ⟨.invalidArgument, ascii name⟩
  | .outOfRange => ⟨.outOfRange, ascii name⟩

/-- No handler of the program catches the exceptions of the conversions. -/
@[simp] theorem isException_ofConversion (name : String) (e : Strto.ConversionError) :
    (ofConversion name e).isException = false := by
  cases e <;> rfl

@[simp] theorem isGelfException_ofConversion (name : String) (e : Strto.ConversionError) :
    (ofConversion name e).isGelfException = false := by
  cases e <;> rfl

end Throwable

/-- `std::stod` among functions that throw other things, too. -/
def stod (s : Bytes) : Except Throwable Float := (Strto.stod s).mapError (.ofConversion "stod")

/-- `std::stoi`. -/
def stoi (s : Bytes) : Except Throwable Int32 := (Strto.stoi s).mapError (.ofConversion "stoi")

/-! ### Objects -/

/-- `ObjectVariants`. -/
inductive ObjectVariants
  | string (s : Bytes)
  | int (n : Int32)
  | double (d : Float)
  | bool (b : Bool)
  deriving DecidableEq

/-- `Object`, an `std::unordered_map`. -/
abbrev Object := AList fun _ : Bytes => ObjectVariants

/-- `emplace`: an entry there is already stays. -/
def Object.emplace (object : Object) (key : Bytes) (value : ObjectVariants) : Object :=
  if key ∈ object then object else object.insert key value

namespace Object

theorem lookup_emplace (object : Object) (key : Bytes) (value : ObjectVariants) (j : Bytes) :
    (object.emplace key value).lookup j =
      (object.lookup j).or (if j = key then some value else none) := by
  rw [emplace]
  by_cases hmem : key ∈ object
  · rw [if_pos hmem]
    by_cases hj : j = key
    · obtain ⟨v, hv⟩ := Option.isSome_iff_exists.mp (AList.lookup_isSome.mpr hmem)
      rw [hj, hv, Option.some_or]
    · rw [if_neg hj, Option.or_none]
  · rw [if_neg hmem]
    by_cases hj : j = key
    · rw [hj, AList.lookup_insert, AList.lookup_eq_none.mpr hmem, if_pos rfl, Option.none_or]
    · rw [AList.lookup_insert_ne hj, if_neg hj, Option.or_none]

/-- **Of several entries with a name the first one counts.** -/
theorem lookup_foldl_emplace (fields : List (Bytes × ObjectVariants))
    (object : Object) (j : Bytes) :
    (fields.foldl (fun object field => object.emplace field.1 field.2) object).lookup j =
      (object.lookup j).or (fields.lookup j) := by
  induction fields generalizing object with
  | nil => rw [List.foldl_nil, List.lookup_nil, Option.or_none]
  | cons field fields ih =>
    rw [List.foldl_cons, ih, lookup_emplace, List.lookup_cons, Option.or_assoc]
    by_cases hj : j = field.1
    · rw [if_pos hj, beq_iff_eq.mpr hj]
      rfl
    · rw [if_neg hj, beq_false_of_ne hj]
      rfl

/-- The entries of a map, as pairs. -/
theorem lookup_map_entries (key : Bytes) (entries : List (Sigma fun _ : Bytes => ObjectVariants)) :
    (entries.map fun entry => (entry.1, entry.2)).lookup key = entries.dlookup key := by
  induction entries with
  | nil => rfl
  | cons entry entries ih =>
    rw [List.map_cons, List.lookup_cons]
    by_cases hkey : key = entry.1
    · subst hkey
      rw [List.dlookup_cons_eq, beq_self_eq_true]
    · rw [List.dlookup_cons_ne _ _ hkey, beq_false_of_ne hkey, ih]

end Object

end IqLogger
