import Mathlib.Algebra.GroupWithZero.Nat
import Mathlib.Data.List.Basic
import Mathlib.Data.List.TakeWhile

/-!
# Byte strings and endpoints

What every part of the program shares: a `std::string` is a list of bytes, with
the cuts of it the source uses (`substr`, `cString`), and an endpoint is an address and
a port. File names are `String`s.
-/

namespace IqLogger

/-- A `std::string` holding data. -/
abbrev Bytes := List UInt8

/-- The bytes of an ASCII text, for the constants of the source. -/
def ascii (s : String) : Bytes := s.toUTF8.data.toList

/-- `std::string_view::substr(pos, n)`. -/
def substr (s : Bytes) (pos n : ℕ) : Bytes := (s.drop pos).take n

theorem substr_append (s : Bytes) (pos m n : ℕ) :
    substr s pos m ++ substr s (pos + m) n = substr s pos (m + n) := by
  rw [substr, substr, substr, List.take_add, List.drop_drop]

theorem length_substr {s : Bytes} {pos n : ℕ} (h : pos + n ≤ s.length) :
    (substr s pos n).length = n := by
  rw [substr, List.length_take, List.length_drop]
  omega

/-- A text passed on as a `const char*`: what comes after the first NUL is lost. -/
def cString (s : Bytes) : Bytes := s.takeWhile (· ≠ 0)

/-- A text without a NUL is passed on whole. -/
theorem cString_eq_self {s : Bytes} (h : 0 ∉ s) : cString s = s := by
  rw [cString, List.takeWhile_eq_self_iff]
  intro c hc
  simpa using fun h0 : c = 0 => h (h0 ▸ hc)

theorem zero_notMem_cString (s : Bytes) : 0 ∉ cString s := fun h => by
  simpa using List.mem_takeWhile_imp h

theorem cString_eq_self_iff {s : Bytes} : cString s = s ↔ 0 ∉ s :=
  ⟨fun h => h ▸ zero_notMem_cString s, cString_eq_self⟩

theorem cString_idem (s : Bytes) : cString (cString s) = cString s := List.takeWhile_idem

/-- What comes behind a text changes nothing if the text holds a NUL, or if it begins with
one itself, or is nothing. -/
theorem cString_append_eq_iff {s t : Bytes} :
    cString (s ++ t) = cString s ↔ 0 ∈ s ∨ ∀ c ∈ t.head?, c = 0 := by
  induction s with
  | nil =>
    cases t with
    | nil => simp
    | cons c t => by_cases hc : c = 0 <;> simp [cString, hc]
  | cons c s ih =>
    by_cases hc : c = 0
    · simp [cString, hc]
    · have hkept : ∀ u, cString (c :: u) = c :: cString u := fun u =>
        List.takeWhile_cons_of_pos (by simpa using hc)
      have hzero : ¬0 = c := fun h => hc h.symm
      rw [List.cons_append, hkept, hkept, List.cons_inj_right, ih, List.mem_cons,
        or_iff_right hzero]

/-- The bytes of a file from the offset `p` to the offset `q`. -/
def between (s : Bytes) (p q : ℕ) : Bytes := (s.take q).drop p

section Between

variable {s : Bytes} {p q : ℕ}

theorem length_between (h : q ≤ s.length) : (between s p q).length = q - p := by
  rw [between, List.length_drop, List.length_take, Nat.min_eq_left h]

@[simp] theorem between_self : between s p p = [] := by simp [between]

/-- Growing the file changes none of its bytes. -/
theorem between_append_left (t : Bytes) (h : q ≤ s.length) :
    between (s ++ t) p q = between s p q := by
  rw [between, between, List.take_append_of_le_length h]

/-- The rest of the file comes after the bytes up to an offset. -/
theorem between_append_drop (hp : p ≤ q) (hq : q ≤ s.length) :
    between s p q ++ s.drop q = between s p s.length := by
  have hlen : p ≤ (s.take q).length := by
    rw [List.length_take, Nat.min_eq_left hq]
    exact hp
  rw [between, between, List.take_length, ← List.drop_append_of_le_length hlen,
    List.take_append_drop]

/-- What comes before the last bytes. -/
theorem eq_between_of_append {t u : Bytes} (hq : q ≤ s.length) (h : t ++ u = between s p q) :
    u.length ≤ q - p ∧ t = between s p (q - u.length) := by
  have hlen := congrArg List.length h
  rw [List.length_append, length_between hq] at hlen
  refine ⟨by omega, ?_⟩
  have ht : t = (between s p q).take t.length := by rw [← h, List.take_left]
  have hmin : min (p + t.length) q = q - u.length := by omega
  rw [ht, between, List.take_drop, List.take_take, hmin, between]

end Between

/-- `endpoint_t`, as the address and the port it is printed with. -/
structure Endpoint where
  address : String
  port : UInt16
  deriving DecidableEq, Repr

/-- The integer a `char` is converted to by `size_t`: `char` is signed on the
targets the program is built for, so the upper half of the bytes wraps around
to the top of the 64-bit range. -/
def sizeOfChar (c : UInt8) : ℕ :=
  if c < 128 then c.toNat else 2 ^ 64 - 256 + c.toNat

theorem sizeOfChar_ofNat {n : ℕ} (h : n < 128) : sizeOfChar (UInt8.ofNat n) = n := by
  have hlt : UInt8.ofNat n < 128 := by
    rw [UInt8.lt_iff_toNat_lt, UInt8.toNat_ofNat_of_lt' (Nat.lt_trans h (by decide))]
    exact h
  rw [sizeOfChar, if_pos hlt, UInt8.toNat_ofNat_of_lt' (Nat.lt_trans h (by decide))]

end IqLogger
