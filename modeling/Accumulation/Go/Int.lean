/-
# Accumulation.Go.Int — Go's fixed-width integers as integers.
-/
import Mathlib

namespace Accumulation.Go

/-- The conversion `int16(n)`. -/
def int16 (n : Int) : Int := n.bmod (2 ^ 16)

/-- The conversion `int32(n)`, which is also what an addition of `int32` leaves of the sum. -/
def int32 (n : Int) : Int := n.bmod (2 ^ 32)

/-- The conversion `uint32(n)`. -/
def uint32 (n : Int) : Nat := (n % 2 ^ 32).toNat

/-- `binary.LittleEndian.Uint16` on a two-byte slice. -/
def uint16 (head : List UInt8) : Nat := (head.getD 0 0).toNat + 256 * (head.getD 1 0).toNat

/-- A header whose high byte is zero. -/
theorem uint16_low (len : UInt8) : uint16 [len, 0] = len.toNat := by
  simp [uint16]

/-- A length that fits is not changed by `int16`. -/
theorem int16_of_lt {n : Nat} (h : n < 2 ^ 15) : int16 n = n := by
  unfold int16
  rw [Int.bmod_def]
  split <;> omega

/-- An integer in the range of `int32` is not changed. -/
theorem int32_of_range {n : Int} (hlow : -2 ^ 31 ≤ n) (hhigh : n < 2 ^ 31) : int32 n = n := by
  unfold int32
  rw [Int.bmod_def]
  split <;> omega

theorem int32_lt (n : Int) : int32 n < 2 ^ 31 := Int.bmod_lt (by decide)

/-- Where a sum is wrapped on the way does not matter. -/
theorem int32_add_left (a b : Int) : int32 (int32 a + b) = int32 (a + b) := Int.bmod_add_bmod

theorem int32_add (a b : Int) : int32 (int32 a + int32 b) = int32 (a + b) := by
  unfold int32
  rw [Int.bmod_add_bmod, Int.add_bmod_bmod]

end Accumulation.Go
