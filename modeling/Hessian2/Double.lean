import Mathlib.Data.Nat.Log
import Mathlib.Tactic.Ring

/-!
# Doubles

The few operations on IEEE 754 binary64 numbers that the codec needs, on their 64 bits: comparison,
conversion from and to integers, and the product with `0.001` by which a 32-bit "float" is read.

* `Double.eq` : the comparison `==`.
* `Double.ofScaled` : the double nearest to `m * 2 ^ e`, ties to even.
* `Double.ofInt` : `static_cast<double>`.
* `Double.thousandths` : `0.001 * z`.
* `Double.toInt32` : `static_cast<int32_t>`, with the result `INT32_MIN` that x86-64 gives where
  the value does not fit.
-/

namespace Hessian2

namespace Double

/-- The biased exponent. -/
def exponent (bits : UInt64) : ℕ := bits.toNat / 2 ^ 52 % 2 ^ 11

/-- The fraction. -/
def fraction (bits : UInt64) : ℕ := bits.toNat % 2 ^ 52

/-- The sign bit is set. -/
def negative (bits : UInt64) : Bool := 2 ^ 63 ≤ bits.toNat

/-- Not a number. -/
def isNaN (bits : UInt64) : Bool := exponent bits == 2047 && fraction bits != 0

/-- The comparison `==`: a NaN equals nothing, and the two zeros are equal. -/
def eq (a b : UInt64) : Bool :=
  !isNaN a && !isNaN b && (a == b || (a.toNat % 2 ^ 63 == 0 && b.toNat % 2 ^ 63 == 0))

/-- The double nearest to `m * 2 ^ e`, for `m ≠ 0` and a result in the normal range. -/
def ofScaled (negative : Bool) (m : ℕ) (e : Int) : UInt64 :=
  let shift : Int := (Nat.log2 m : Int) - 52
  let q := if shift ≤ 0 then m * 2 ^ (-shift).toNat else m / 2 ^ shift.toNat
  let rest := if shift ≤ 0 then 0 else m % 2 ^ shift.toNat
  let half := if shift ≤ 0 then 1 else 2 ^ shift.toNat / 2
  let q := if half < rest ∨ (rest = half ∧ q % 2 = 1) then q + 1 else q
  -- a carry out of the significand moves into the exponent field by itself
  let magnitude := (e + shift + 1075 - 1).toNat * 2 ^ 52 + q
  .ofNat (if negative then 2 ^ 63 + magnitude else magnitude)

/-- `static_cast<double>(z)` for an integer of at most 53 bits. -/
def ofInt (z : Int) : UInt64 := if z = 0 then 0 else ofScaled (z < 0) z.natAbs 0

/-- `0.001 * z`.  The literal `0.001` is `0x10624DD2F1A9FC * 2 ^ -62`. -/
def thousandths (z : Int32) : UInt64 :=
  if z = 0 then 0 else ofScaled (z < 0) (0x10624DD2F1A9FC * z.toInt.natAbs) (-62)

/-- `static_cast<int32_t>(value)`: truncation towards zero. -/
def toInt32 (bits : UInt64) : Int32 :=
  let magnitude : ℕ := if exponent bits < 1023 then 0
    else (2 ^ 52 + fraction bits) * 2 ^ (exponent bits - 1023) / 2 ^ 52
  let z : Int := if negative bits then -magnitude else magnitude
  if -2 ^ 31 ≤ z ∧ z < 2 ^ 31 then .ofInt z else .minValue

/-- The double without the sign of a zero. -/
def unsignedZero (bits : UInt64) : UInt64 := if bits.toNat % 2 ^ 63 = 0 then 0 else bits

/-- There are two zeros. -/
theorem unsignedZero_eq_self {bits : UInt64} (h : bits ≠ 0x8000000000000000) :
    unsignedZero bits = bits := by
  rw [unsignedZero]
  split
  · have hlt := bits.toNat_lt
    rw [← UInt64.toNat_inj.ne] at h
    simp only [UInt64.reduceToNat] at h
    rw [← UInt64.toNat_inj]
    simp only [UInt64.reduceToNat]
    omega
  · rfl

theorem exponent_of_zero {bits : UInt64} (h : bits.toNat % 2 ^ 63 = 0) : exponent bits = 0 := by
  rw [exponent]; omega

theorem toInt32_of_zero {bits : UInt64} (h : bits.toNat % 2 ^ 63 = 0) : toInt32 bits = 0 := by
  have he : exponent bits < 1023 := by rw [exponent_of_zero h]; decide
  simp only [toInt32, if_pos he]
  cases negative bits <;> rfl

theorem eq_zero_of_zero {bits : UInt64} (h : bits.toNat % 2 ^ 63 = 0) : eq (ofInt 0) bits := by
  have hn : isNaN bits = false := by simp [isNaN, exponent_of_zero h]
  have hzero : isNaN (ofInt 0) = false ∧ (ofInt 0).toNat % 2 ^ 63 = 0 := ⟨rfl, rfl⟩
  rw [eq, hn, hzero.1, hzero.2, h, beq_self_eq_true, Bool.and_self, Bool.and_self, Bool.or_true]
  rfl

/-- A double that equals the integer it truncates to is this integer, up to the sign of a zero. -/
theorem ofInt_of_eq {bits : UInt64} (h : eq (ofInt (toInt32 bits).toInt) bits) :
    ofInt (toInt32 bits).toInt = unsignedZero bits := by
  rw [unsignedZero]
  split
  · next hz => rw [toInt32_of_zero hz]; rfl
  · next hz =>
    simp only [eq, Bool.and_eq_true, Bool.or_eq_true, beq_iff_eq] at h
    rcases h.2 with h | h
    · exact h
    · exact absurd h.2 hz

-- `1.0`, `-129.0`, the shortest decimal of one tenth, and `4294967295.0`
example : ofInt 1 = 0x3FF0000000000000 ∧ toInt32 (ofInt (-129)) = -129 ∧
    thousandths 100 = 0x3FB999999999999A ∧ toInt32 0x41EFFFFFFFE00000 = .minValue := by decide

end Double

end Hessian2
