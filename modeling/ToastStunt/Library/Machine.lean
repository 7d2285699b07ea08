import Mathlib.Algebra.Order.Ring.Int

/-!
Numbers that are kept in an `int` of 32 bits.
-/

namespace Machine

/-- The `int` that a number is stored as. -/
def int32 (n : Int) : Int := n.bmod (2 ^ 32)

theorem int32_eq {n : Int} (low : -2 ^ 31 ≤ n) (high : n < 2 ^ 31) : int32 n = n :=
  Int.bmod_eq_of_le (by omega) (by omega)

theorem int32_add_left (a b : Int) : int32 (int32 a + b) = int32 (a + b) := Int.bmod_add_bmod

theorem int32_sub_left (a b : Int) : int32 (int32 a - b) = int32 (a - b) := Int.bmod_sub_bmod

end Machine
