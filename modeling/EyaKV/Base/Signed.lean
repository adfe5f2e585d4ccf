import Mathlib.Algebra.Group.Int.Defs
import Mathlib.Algebra.Group.Nat.Defs

/-!
# Signed 64-bit numbers and sizes

`checked` is the signed arithmetic in which an overflow is an error: an exact result becomes a
number when it is in range. A size is an unsigned number; `ofSize` is its conversion to a signed
one, and `addSize` the addition of a size to a signed number, which is done on unsigned ones. Both
are exact for sizes below 2 ^ 63.
-/

set_option autoImplicit false

namespace EyaKV.Base

/-- An exact result as a signed number; none when it overflows. -/
def checked (result : Int) : Option Int64 :=
  if -2 ^ 63 ≤ result ∧ result < 2 ^ 63 then some (Int64.ofInt result) else none

/-- A size as a signed number. -/
def ofSize (size : Nat) : Int64 := (UInt64.ofNat size).toInt64

/-- The sum of a signed number and a size, which is the sum of the two as unsigned numbers. -/
def addSize (a : Int64) (size : Nat) : Int64 := (a.toUInt64 + UInt64.ofNat size).toInt64

/-- The size before a size, which wraps at 0, as a signed number. -/
def predSize (size : Nat) : Int64 := (UInt64.ofNat size - 1).toInt64

variable {a : Int64} {result : Int} {size : Nat}

theorem checked_of_range (hlow : -2 ^ 63 ≤ result) (hhigh : result < 2 ^ 63) :
    ∃ a, checked result = some a ∧ a.toInt = result :=
  ⟨Int64.ofInt result, if_pos ⟨hlow, hhigh⟩, Int64.toInt_ofInt_of_le hlow hhigh⟩

@[simp]
theorem toInt_ofSize (hsize : size < 2 ^ 63) : (ofSize size).toInt = size := by
  rw [ofSize, UInt64.toInt64_ofNat', Int64.toInt_ofNat_of_lt hsize]

/-- A size added to a negative number does not wrap. -/
theorem toInt_addSize (ha : a.toInt < 0) (hsize : size < 2 ^ 63) :
    (addSize a size).toInt = a.toInt + size := by
  -- the sum lies between the least number and the size, so the reduction modulo `2 ^ 64` keeps it
  have hlow := a.le_toInt
  rw [addSize, UInt64.toInt64_add, Int64.toInt64_toUInt64, UInt64.toInt64_ofNat', Int64.toInt_add,
    Int64.toInt_ofNat_of_lt hsize]
  apply Int.bmod_eq_of_le
  · omega
  · omega

theorem toInt_predSize (hsize : size < 2 ^ 63) : (predSize size).toInt = size - 1 := by
  have hone : (UInt64.toInt64 1).toInt = 1 := by decide
  rw [predSize, UInt64.toInt64_sub, UInt64.toInt64_ofNat', Int64.toInt_sub,
    Int64.toInt_ofNat_of_lt hsize, hone]
  apply Int.bmod_eq_of_le
  · omega
  · omega

/-- A number that is not negative is the same as an unsigned one. -/
theorem toNat_toUInt64 (ha : 0 ≤ a.toInt) : a.toUInt64.toNat = a.toInt.toNat := by
  rw [Int64.toNat_toUInt64_of_le (Int64.le_iff_toInt_le.2 ha), Int64.toNat_toInt]

theorem int64_neg_iff : a < 0 ↔ a.toInt < 0 := Int64.lt_iff_toInt_lt

end EyaKV.Base
