import Mathlib.Data.Nat.Digits.Defs
import Mathlib.Algebra.Order.Ring.Nat

/-!
# Numbers in little-endian order

A number that is written to memory is a fixed number of bytes, the lowest first
(`Nat.littleEndian`), and is read back from them (`List.readLittleEndian`) as far as
they hold it (`List.readLittleEndian_littleEndian`).
-/

/-- The lowest bytes of a number. -/
def Nat.littleEndian (width n : ℕ) : List UInt8 :=
  (List.range width).map fun i => UInt8.ofNat (n / 256 ^ i)

/-- The number that some bytes are. -/
def List.readLittleEndian (s : List UInt8) : ℕ := Nat.ofDigits 256 (s.map UInt8.toNat)

namespace Nat

@[simp] theorem length_littleEndian (width n : ℕ) : (littleEndian width n).length = width := by
  rw [littleEndian, List.length_map, List.length_range]

theorem littleEndian_succ (width n : ℕ) :
    littleEndian (width + 1) n = UInt8.ofNat n :: littleEndian width (n / 256) := by
  rw [littleEndian, List.range_succ_eq_map, List.map_cons, List.map_map, pow_zero, Nat.div_one]
  refine congrArg (UInt8.ofNat n :: ·) (List.map_congr_left fun i _ => ?_)
  show UInt8.ofNat (n / 256 ^ (i + 1)) = UInt8.ofNat (n / 256 / 256 ^ i)
  rw [Nat.div_div_eq_div_mul, pow_succ']

end Nat

/-- **A number is read back** as far as it has been written. -/
theorem List.readLittleEndian_littleEndian (width n : ℕ) :
    (Nat.littleEndian width n).readLittleEndian = n % 256 ^ width := by
  induction width generalizing n with
  | zero => simp [Nat.littleEndian, List.readLittleEndian, Nat.mod_one]
  | succ width ih =>
    have hcons : (Nat.littleEndian (width + 1) n).readLittleEndian =
        n % 256 + 256 * (Nat.littleEndian width (n / 256)).readLittleEndian := by
      rw [Nat.littleEndian_succ, List.readLittleEndian, List.map_cons, Nat.ofDigits_cons,
        UInt8.toNat_ofNat']
      rfl
    rw [hcons, ih, pow_succ', Nat.mod_mul]
