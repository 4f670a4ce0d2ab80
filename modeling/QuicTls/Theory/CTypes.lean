import Mathlib.Algebra.Group.Int.Even

/-!
# Byte strings and the type `int` of C, with 32 bits

`toInt32` is the conversion of a wider integer type to `int`; by `toInt32_of_bounds` it changes
nothing that is in the range of `int`.
-/

namespace QuicTls

/-- A byte string: the first bytes of a C buffer, as many as are in use. -/
abbrev Bytes := List UInt8

/-- `INT_MAX` -/
def intMax : Nat := 2 ^ 31 - 1

def toInt32 (x : Int) : Int := Int.bmod x (2 ^ 32)

theorem toInt32_of_bounds {x : Int} (hlow : -2 ^ 31 ≤ x) (hup : x < 2 ^ 31) : toInt32 x = x := by
  rw [toInt32, Int.bmod_eq_of_le] <;> omega

end QuicTls
