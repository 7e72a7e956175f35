import IqLogger.Lib.Floats
import Mathlib.Algebra.Ring.Int.Defs
import Mathlib.Data.List.Basic
import Mathlib.Data.Rat.Defs

/-!
# Numbers at the head of a text

The conversions of the C and C++ libraries from text to numbers, in the "C" locale:
`strtol` in base ten and `strtod`, which read the longest number at the head of a text
after white space and ignore what follows it, and `std::stoi` and `std::stod`, which
throw when there is none or when it does not fit.

An `int` extracted from a stream in base sixteen is read by the same rules and has to fit
(`Strto.extractHex`); from two bytes it is extracted where there is a digit, and both of
them need not be one (`Strto.isSome_extractHex_iff`).

`strtod` reads decimal and hexadecimal numerals with a fraction and an exponent, and
the words for infinity and not-a-number. A numeral is read exactly (`Strto.Numeral`)
and then rounded; its value is out of range when it rounds to infinity, or when it is
below the normal numbers after rounding and not exact.

A text that is nothing but a decimal numeral (`Strto.Decimal`) is read as its number
(`Strto.Decimal.strtol_eq`), and `std::stod` returns a finite number exactly when the text
begins with no word (`Strto.isFinite_iff_of_stod`).
-/

namespace Strto

/-- What `std::stoi` and `std::stod` throw. -/
inductive ConversionError
  | invalidArgument
  | outOfRange
  deriving DecidableEq, Repr

/-! ### Characters -/

/-- What holds of 256 numbers holds of all bytes. -/
theorem forall_byte {P : UInt8 → Prop} (h : ∀ n : Fin 256, P (UInt8.ofNat n)) (b : UInt8) :
    P b := by
  have hb := h ⟨b.toNat, b.toNat_lt⟩
  rwa [UInt8.ofNat_toNat] at hb

/-- `isspace`. -/
def isSpace (c : UInt8) : Bool := c = 32 || (9 ≤ c && c ≤ 13)

/-- `tolower`. -/
def toLower (c : UInt8) : UInt8 := if 65 ≤ c && c ≤ 90 then c + 32 else c

/-- The value of a decimal digit. -/
def decimalDigit (c : UInt8) : Option ℕ := if 48 ≤ c && c ≤ 57 then some (c.toNat - 48) else none

/-- The value of a hexadecimal digit, in lower case. -/
def hexDigit (c : UInt8) : Option ℕ :=
  if 97 ≤ c && c ≤ 102 then some (c.toNat - 87) else decimalDigit c

/-- The sign, which is true for a minus, and the text after it. -/
def readSign : List UInt8 → Bool × List UInt8
  | 45 :: s => (true, s)
  | 43 :: s => (false, s)
  | s => (false, s)

/-- The digits at the head of a text, and the text after them. -/
def readDigits (digit : UInt8 → Option ℕ) : List UInt8 → List ℕ × List UInt8
  | [] => ([], [])
  | c :: s =>
    match digit c with
    | some d => (d :: (readDigits digit s).1, (readDigits digit s).2)
    | none => ([], c :: s)

/-- The number with the given digits, the first one the most significant. -/
def ofDigits (base : ℕ) (ds : List ℕ) : ℕ := ds.foldl (fun n d => base * n + d) 0

/-- A magnitude with its sign. -/
def withSign (negative : Bool) (n : ℕ) : Int := if negative then -n else n

/-! ### Integers -/

/-- `strtol(s, &end, 10)`, before the result is cut to a `long`: nothing when there
is no number. -/
def strtol (s : List UInt8) : Option Int :=
  match readSign (s.dropWhile isSpace) with
  | (negative, s) =>
    match (readDigits decimalDigit s).1 with
    | [] => none
    | ds => some (withSign negative (ofDigits 10 ds))

/-- `std::stoi`. -/
def stoi (s : List UInt8) : Except ConversionError Int32 :=
  match strtol s with
  | none => .error .invalidArgument
  | some n => if -2 ^ 31 ≤ n ∧ n < 2 ^ 31 then .ok (Int32.ofInt n) else .error .outOfRange

/-- The value of a hexadecimal digit, in either case. -/
def hexValue (c : UInt8) : Option ℕ := hexDigit (toLower c)

/-- The digits of the hexadecimal number at the head of a text, behind the prefix `0x` if it
has one. -/
def hexDigits : List UInt8 → List ℕ
  | 48 :: c :: s =>
    if toLower c = 120 then (readDigits hexValue s).1 else (readDigits hexValue (48 :: c :: s)).1
  | s => (readDigits hexValue s).1

/-- The `int` with the given digits in base sixteen: there has to be one, and it has to fit. -/
def hexInt (negative : Bool) (ds : List ℕ) : Option Int32 :=
  if ds = [] then none
  else if -2 ^ 31 ≤ withSign negative (ofDigits 16 ds) ∧
      withSign negative (ofDigits 16 ds) < 2 ^ 31 then
    some (Int32.ofInt (withSign negative (ofDigits 16 ds)))
  else none

/-- `stream >> std::hex >> value` with an `int`, on a stream over the text: white space is
skipped, and nothing is extracted when no number follows. -/
def extractHex (s : List UInt8) : Option Int32 :=
  match readSign (s.dropWhile isSpace) with
  | (negative, s) => hexInt negative (hexDigits s)

/-- The letter of a digit. -/
def digit (d : Fin 10) : UInt8 := 48 + UInt8.ofNat d

/-- A text that is a decimal numeral: a sign, which need not be there, and digits. -/
inductive Decimal : List UInt8 → Int → Prop
  | unsigned (ds : List (Fin 10)) (hds : ds ≠ []) :
    Decimal (ds.map digit) (ofDigits 10 (ds.map Fin.val))
  | plus (ds : List (Fin 10)) (hds : ds ≠ []) :
    Decimal (43 :: ds.map digit) (ofDigits 10 (ds.map Fin.val))
  | minus (ds : List (Fin 10)) (hds : ds ≠ []) :
    Decimal (45 :: ds.map digit) (-ofDigits 10 (ds.map Fin.val))

theorem decimalDigit_digit (d : Fin 10) : decimalDigit (digit d) = some d.val := by
  revert d
  decide

theorem readDigits_map_digit (ds : List (Fin 10)) :
    readDigits decimalDigit (ds.map digit) = (ds.map Fin.val, []) := by
  induction ds with
  | nil => rfl
  | cons d ds ih => rw [List.map_cons, readDigits, decimalDigit_digit, ih, List.map_cons]

/-- The first letter of a numeral is no white space, and without a sign it is none. -/
theorem head_digits {ds : List (Fin 10)} (hds : ds ≠ []) :
    (ds.map digit).dropWhile isSpace = ds.map digit ∧
      readSign (ds.map digit) = (false, ds.map digit) := by
  cases ds with
  | nil => exact absurd rfl hds
  | cons d ds =>
    have hspace : ∀ d, isSpace (digit d) = false := by decide
    have hsign : ∀ d, digit d ≠ 45 ∧ digit d ≠ 43 := by decide
    constructor
    · rw [List.map_cons, List.dropWhile_cons_of_neg (by simp [hspace])]
    · rw [List.map_cons, readSign]
      · exact fun s h => (hsign d).1 (List.cons.inj h).1
      · exact fun s h => (hsign d).2 (List.cons.inj h).1

/-- **A decimal numeral is read as its number.** -/
theorem Decimal.strtol_eq {s : List UInt8} {n : Int} (h : Decimal s n) : strtol s = some n := by
  have hdigits : ∀ (negative : Bool) {ds : List (Fin 10)}, ds ≠ [] →
      (match (readDigits decimalDigit (ds.map digit)).1 with
        | [] => none
        | ds => some (withSign negative (ofDigits 10 ds))) =
        some (withSign negative (ofDigits 10 (ds.map Fin.val))) := by
    intro negative ds hds
    rw [readDigits_map_digit]
    cases ds with
    | nil => exact absurd rfl hds
    | cons d ds => rfl
  cases h with
  | unsigned ds hds =>
    rw [strtol, (head_digits hds).1, (head_digits hds).2]
    exact hdigits false hds
  | plus ds hds => exact hdigits false hds
  | minus ds hds => exact hdigits true hds

/-! ### Hexadecimal numbers -/

section Hexadecimal

variable {x y : UInt8} {a b : ℕ}

/-- A hexadecimal digit is no white space, no sign and no `x`. -/
theorem of_hexValue (h : hexValue x = some a) :
    a < 16 ∧ isSpace x = false ∧ x ≠ 45 ∧ x ≠ 43 ∧ toLower x ≠ 120 := by
  have hall : ∀ x : UInt8, ∀ a ∈ hexValue x,
      a < 16 ∧ isSpace x = false ∧ x ≠ 45 ∧ x ≠ 43 ∧ toLower x ≠ 120 :=
    forall_byte (by decide +kernel)
  exact hall x a h

/-- White space is no hexadecimal digit, and no sign. -/
theorem of_isSpace (h : isSpace x = true) : hexValue x = none ∧ x ≠ 45 ∧ x ≠ 43 := by
  have hall : ∀ x : UInt8, isSpace x = true → hexValue x = none ∧ x ≠ 45 ∧ x ≠ 43 :=
    forall_byte (by decide +kernel)
  exact hall x h

theorem hexInt_singleton (negative : Bool) (ha : a < 16) :
    hexInt negative [a] = some (Int32.ofInt (withSign negative a)) := by
  have hdigits : ofDigits 16 [a] = a := by simp [ofDigits]
  rw [hexInt, if_neg (by simp), hdigits, if_pos]
  cases negative with
  | false =>
    simp only [withSign, Bool.false_eq_true, if_false]
    omega
  | true =>
    simp only [withSign, if_true]
    omega

theorem hexInt_pair (ha : a < 16) (hb : b < 16) :
    hexInt false [a, b] = some (Int32.ofInt (16 * a + b : ℕ)) := by
  have hdigits : ofDigits 16 [a, b] = 16 * a + b := by simp [ofDigits]
  have hsign : withSign false (16 * a + b) = (16 * a + b : ℕ) := rfl
  rw [hexInt, if_neg (by simp), hdigits, hsign, if_pos (by omega)]

/-- A text of one digit, or of none. -/
theorem isSome_hexInt_toList (negative : Bool) :
    (hexInt negative (hexValue y).toList).isSome = (hexValue y).isSome := by
  cases hy : hexValue y with
  | none => rfl
  | some b =>
    rw [Option.toList_some, hexInt_singleton negative (of_hexValue hy).1]
    rfl

theorem readDigits_singleton (y : UInt8) :
    (readDigits hexValue [y]).1 = (hexValue y).toList := by
  rw [readDigits]
  cases hexValue y <;> rfl

theorem hexDigits_singleton (y : UInt8) : hexDigits [y] = (hexValue y).toList := by
  rw [hexDigits, readDigits_singleton]
  simp

/-- What may come in front of a number is no digit of it. -/
theorem hexValue_of_front (h : isSpace x ∨ x = 45 ∨ x = 43) : hexValue x = none := by
  rcases h with h | rfl | rfl
  · exact (of_isSpace h).1
  · rfl
  · rfl

/-- Without a sign the number begins at once. -/
theorem readSign_of_ne {s : List UInt8} (hminus : x ≠ 45) (hplus : x ≠ 43) :
    readSign (x :: s) = (false, x :: s) := by
  rw [readSign]
  · exact fun s h => hminus (List.cons.inj h).1
  · exact fun s h => hplus (List.cons.inj h).1

/-! What is extracted from two bytes depends on the first one. -/

theorem extractHex_of_isSpace (h : isSpace x = true) :
    (extractHex [x, y]).isSome = (hexValue y).isSome := by
  rw [extractHex, List.dropWhile_cons_of_pos h]
  by_cases hspace : isSpace y = true
  · rw [List.dropWhile_cons_of_pos hspace, (of_isSpace hspace).1]
    rfl
  · rw [List.dropWhile_cons_of_neg hspace]
    by_cases hminus : y = 45
    · subst hminus
      rfl
    · by_cases hplus : y = 43
      · subst hplus
        rfl
      · rw [readSign_of_ne hminus hplus]
        dsimp only
        rw [hexDigits_singleton, isSome_hexInt_toList]

theorem extractHex_of_sign (h : x = 45 ∨ x = 43) :
    (extractHex [x, y]).isSome = (hexValue y).isSome := by
  rcases h with rfl | rfl
  · exact (congrArg (fun ds => (hexInt true ds).isSome) (hexDigits_singleton y)).trans
      (isSome_hexInt_toList true)
  · exact (congrArg (fun ds => (hexInt false ds).isSome) (hexDigits_singleton y)).trans
      (isSome_hexInt_toList false)

theorem extractHex_of_ne (hspace : isSpace x = false) (hminus : x ≠ 45) (hplus : x ≠ 43) :
    extractHex [x, y] = hexInt false (hexDigits [x, y]) := by
  rw [extractHex, List.dropWhile_cons_of_neg (by simp [hspace]), readSign_of_ne hminus hplus]

/-- The digits of two bytes that are no mere prefix. -/
theorem hexDigits_pair (hmark : ¬(x = 48 ∧ toLower y = 120)) :
    hexDigits [x, y] = (readDigits hexValue [x, y]).1 := by
  by_cases hx : x = 48
  · subst hx
    rw [hexDigits, if_neg fun hy => hmark ⟨rfl, hy⟩]
  · rw [hexDigits]
    exact fun c s h => absurd (List.cons.inj h).1 hx

theorem hexDigits_of_some (hx : hexValue x = some a) (hmark : ¬(x = 48 ∧ toLower y = 120)) :
    hexDigits [x, y] = a :: (hexValue y).toList := by
  rw [hexDigits_pair hmark, readDigits, hx]
  exact congrArg (a :: ·) (readDigits_singleton y)

theorem hexDigits_of_none (hx : hexValue x = none) : hexDigits [x, y] = [] := by
  have hzero : x ≠ 48 := by
    rintro rfl
    exact absurd hx (by decide)
  rw [hexDigits_pair fun h => hzero h.1, readDigits, hx]

/-- **Two hexadecimal digits are extracted as their number.** -/
theorem extractHex_of_digits (hx : hexValue x = some a) (hy : hexValue y = some b) :
    extractHex [x, y] = some (Int32.ofInt (16 * a + b : ℕ)) := by
  obtain ⟨ha, hspace, hminus, hplus, -⟩ := of_hexValue hx
  obtain ⟨hb, -, -, -, hmark⟩ := of_hexValue hy
  rw [extractHex_of_ne hspace hminus hplus, hexDigits_of_some hx fun h => hmark h.2, hy,
    Option.toList_some, hexInt_pair ha hb]

/-- **When a number is extracted from two bytes**: the first one is a digit and the two are
not a mere prefix, or it is white space or a sign and the second one is a digit. -/
theorem isSome_extractHex_iff : (extractHex [x, y]).isSome ↔
    (hexValue x).isSome ∧ ¬(x = 48 ∧ toLower y = 120) ∨
      (isSpace x ∨ x = 45 ∨ x = 43) ∧ (hexValue y).isSome := by
  by_cases hfront : isSpace x ∨ x = 45 ∨ x = 43
  · have hx := hexValue_of_front hfront
    have hy : (extractHex [x, y]).isSome = (hexValue y).isSome :=
      hfront.elim extractHex_of_isSpace extractHex_of_sign
    simp [hx, hy, hfront]
  · obtain ⟨hspace, hsign⟩ := not_or.mp hfront
    obtain ⟨hminus, hplus⟩ := not_or.mp hsign
    rw [or_iff_left fun h => hfront h.1,
      extractHex_of_ne (Bool.not_eq_true _ ▸ hspace) hminus hplus]
    cases hx : hexValue x with
    | none => simp [hexDigits_of_none hx, hexInt]
    | some a =>
      by_cases hmark : x = 48 ∧ toLower y = 120
      · obtain ⟨rfl, hy⟩ := hmark
        simp [hexDigits, hy, readDigits, hexInt]
      · rw [hexDigits_of_some hx hmark]
        have ha := (of_hexValue hx).1
        cases hy : hexValue y with
        | none => simp [hexInt_singleton false ha, hmark]
        | some b => simp [hexInt_pair ha (of_hexValue hy).1, hmark]

end Hexadecimal

/-! ### Floating point numbers -/

/-- What `strtod` reads after the sign: a word, or a numeral that stands for
`mantissa * base ^ exponent`, where the base is ten or two. -/
inductive Numeral
  | infinity
  | nan
  | decimal (mantissa : ℕ) (exponent : Int)
  | hexadecimal (mantissa : ℕ) (exponent : Int)
  deriving DecidableEq, Repr

/-- Digits with at most one point among them: the digits, how many of them come after
the point, and the text after them. There has to be one digit. -/
def readMantissa (digit : UInt8 → Option ℕ) (s : List UInt8) : Option (List ℕ × ℕ × List UInt8) :=
  match readDigits digit s with
  | (whole, 46 :: s) =>
    match readDigits digit s with
    | (fraction, rest) =>
      if whole = [] ∧ fraction = [] then none
      else some (whole ++ fraction, fraction.length, rest)
  | (whole, rest) => if whole = [] then none else some (whole, 0, rest)

/-- The exponent after its marker; without one, or without digits in it, it is zero. -/
def readExponent (marker : UInt8) : List UInt8 → Int
  | [] => 0
  | c :: s =>
    if c = marker then
      withSign (readSign s).1 (ofDigits 10 (readDigits decimalDigit (readSign s).2).1)
    else 0

/-- The numeral at the head of a text in lower case. -/
def readNumeral (s : List UInt8) : Option Numeral :=
  if [105, 110, 102] <+: s then some .infinity
  else if [110, 97, 110] <+: s then some .nan
  else match s with
    | 48 :: 120 :: s =>
      match readMantissa hexDigit s with
      | some (ds, places, rest) =>
        some (.hexadecimal (ofDigits 16 ds) (readExponent 112 rest - 4 * places))
      -- only the zero before the `x` is read
      | none => some (.decimal 0 0)
    | _ =>
      match readMantissa decimalDigit s with
      | some (ds, places, rest) =>
        some (.decimal (ofDigits 10 ds) (readExponent 101 rest - places))
      | none => none

namespace Numeral

/-- The number nearest to the numeral. -/
def toFloat : Numeral → Float
  | infinity => 1 / 0
  | nan => 0 / 0
  | decimal m e => .ofModel (.ofScientific m e)
  | hexadecimal m e =>
    .ofModel (.pack (Float.Model.UnpackedFloat.normalize Float.Model.Format.binary64 m e .positive))

/-- The exact value of a numeral that is no word. -/
def toRat : Numeral → Option ℚ
  | infinity => none
  | nan => none
  | decimal m e => some (m * 10 ^ e)
  | hexadecimal m e => some (m * 2 ^ e)

/-- `ERANGE`: the value overflows, or it is tiny after rounding and no multiple of the
least positive number. -/
def outOfRange (numeral : Numeral) : Bool :=
  match numeral.toRat with
  | none => false
  | some x =>
    numeral.toFloat.isInf || (x < (2 ^ 54 - 1) / 2 ^ 1076 && (x * 2 ^ 1074).den ≠ 1)

end Numeral

/-- `strtod(s, &end)`: the value and whether it is out of range, or nothing when there
is no number. -/
def strtod (s : List UInt8) : Option (Float × Bool) :=
  match readSign (s.dropWhile isSpace) with
  | (negative, s) =>
    match readNumeral (s.map toLower) with
    | none => none
    | some numeral =>
      some (if negative then -numeral.toFloat else numeral.toFloat, numeral.outOfRange)

/-- `std::stod`. -/
def stod (s : List UInt8) : Except ConversionError Float :=
  match strtod s with
  | none => .error .invalidArgument
  | some (_, true) => .error .outOfRange
  | some (value, false) => .ok value

/-! ### Words -/

/-- The numeral is a word. -/
def Numeral.isWord : Numeral → Bool
  | infinity => true
  | nan => true
  | _ => false

/-- The text begins, after white space and a sign, with the word for infinity or for
not-a-number. -/
def beginsWithWord (s : List UInt8) : Bool :=
  (readNumeral ((readSign (s.dropWhile isSpace)).2.map toLower)).any Numeral.isWord

/-- A numeral that is in range is finite, unless it is a word. -/
theorem Numeral.isFinite_toFloat {numeral : Numeral} (hrange : numeral.outOfRange = false) :
    numeral.toFloat.isFinite = !numeral.isWord := by
  cases numeral with
  | infinity => decide
  | nan => decide
  | decimal m e =>
    rw [outOfRange, toRat, Bool.or_eq_false_iff] at hrange
    exact Float.isFinite_iff.mpr ⟨Float.isNaN_ofScientific m e, hrange.1⟩
  | hexadecimal m e =>
    rw [outOfRange, toRat, Bool.or_eq_false_iff] at hrange
    exact Float.isFinite_iff.mpr ⟨Float.isNaN_normalize m e .positive, hrange.1⟩

/-- With a sign it is still finite, and a word is not. -/
theorem Numeral.isFinite_of_sign {numeral : Numeral} (hrange : numeral.outOfRange = false)
    (negative : Bool) :
    (if negative then -numeral.toFloat else numeral.toFloat).isFinite = !numeral.isWord := by
  cases negative with
  | false => exact isFinite_toFloat hrange
  | true =>
    cases numeral with
    | infinity => decide
    | nan => decide
    | decimal m e => exact Float.isFinite_neg (isFinite_toFloat hrange)
    | hexadecimal m e => exact Float.isFinite_neg (isFinite_toFloat hrange)

/-- **When `std::stod` returns a finite number.** -/
theorem isFinite_iff_of_stod {s : List UInt8} {x : Float} (h : stod s = .ok x) :
    x.isFinite ↔ ¬beginsWithWord s := by
  rw [stod, strtod] at h
  rw [beginsWithWord]
  rcases hsign : readSign (s.dropWhile isSpace) with ⟨negative, rest⟩
  rw [hsign] at h
  dsimp only at h
  rcases hnumeral : readNumeral (rest.map toLower) with _ | numeral
  · rw [hnumeral] at h
    cases h
  · rw [hnumeral] at h
    dsimp only at h
    rcases hrange : numeral.outOfRange with _ | _
    · rw [hrange] at h
      cases h
      rw [Option.any_some, Numeral.isFinite_of_sign hrange negative, Bool.not_eq_true',
        Bool.not_eq_true]
    · rw [hrange] at h
      cases h

end Strto
