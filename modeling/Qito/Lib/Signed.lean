import Qito.Lib.Lists
import Mathlib.Tactic.Common

/-! Signed machine integers as integers, with arithmetic that wraps. -/
namespace Signed

/-- The value a signed 32-bit object holds after n was assigned to it. -/
def int32 (n : Int) : Int := n.bmod (2 ^ 32)

def int64 (n : Int) : Int := n.bmod (2 ^ 64)

variable {n : Int}

theorem int32_id (low : -2 ^ 31 ≤ n) (high : n < 2 ^ 31) : int32 n = n :=
  Int.bmod_eq_of_le (by omega) (by omega)

theorem int32_range (n : Int) : -2 ^ 31 ≤ int32 n ∧ int32 n < 2 ^ 31 := by
  have low := Int.le_bmod (x := n) (m := 2 ^ 32) (by decide)
  have high := Int.bmod_lt (x := n) (m := 2 ^ 32) (by decide)
  unfold int32
  omega

end Signed
