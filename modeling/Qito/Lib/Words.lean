import Qito.Lib.Lists
import Mathlib.Data.Nat.Bitwise
import Mathlib.Tactic.Common

/-! Unsigned machine words as naturals. Every operation that can leave the range
reduces explicitly; the lemmas say when the reduction does nothing. -/
namespace Words

/-- The value an unsigned 64-bit object holds after n was assigned to it. -/
def wrap64 (n : Nat) : Nat := n % 2 ^ 64

/-- Unsigned 64-bit subtraction of reduced operands. -/
def sub64 (a b : Nat) : Nat := (2 ^ 64 + a - b) % 2 ^ 64

/-- (v + a - 1) & ~(a - 1) on 64-bit words. -/
def alignUp (v a : Nat) : Nat := wrap64 (v + a - 1) &&& (2 ^ 64 - 1 - (a - 1))

theorem wrap64_of_lt {n : Nat} (small : n < 2 ^ 64) : wrap64 n = n := Nat.mod_eq_of_lt small

theorem wrap64_lt (n : Nat) : wrap64 n < 2 ^ 64 := Nat.mod_lt _ (by decide)

theorem sub64_of_le {a b : Nat} (le : b ≤ a) (small : a < 2 ^ 64) : sub64 a b = a - b := by
  have split : 2 ^ 64 + a - b = (a - b) + 2 ^ 64 := by omega
  rw [sub64, split, Nat.add_mod_right, Nat.mod_eq_of_lt (by omega)]

theorem clear_low_bits {x k : Nat} (width : k ≤ 64) (small : x < 2 ^ 64) :
    x &&& (2 ^ 64 - 1 - (2 ^ k - 1)) = x / 2 ^ k * 2 ^ k := by
  have mask : 2 ^ 64 - 1 - (2 ^ k - 1) = (2 ^ (64 - k) - 1) <<< k := by
    rw [Nat.shiftLeft_eq, Nat.sub_mul, ← Nat.pow_add, Nat.sub_add_cancel width]
    have pos : 0 < 2 ^ k := Nat.two_pow_pos k
    omega
  rw [mask, ← Nat.shiftRight_eq_div_pow, ← Nat.shiftLeft_eq]
  apply Nat.eq_of_testBit_eq
  intro i
  simp only [Nat.testBit_and, Nat.testBit_shiftLeft, Nat.testBit_two_pow_sub_one,
    Nat.testBit_shiftRight]
  by_cases low : k ≤ i
  · have back : k + (i - k) = i := by omega
    by_cases high : i < 64
    · have inside : i - k < 64 - k := by omega
      simp [low, back, inside]
    · have zero : x.testBit i = false :=
        Nat.testBit_lt_two_pow (Nat.lt_of_lt_of_le small (Nat.pow_le_pow_right (by decide) (by omega)))
      simp [back, zero]
  · simp [low]

theorem alignUp_eq {v k : Nat} (width : k ≤ 64) :
    alignUp v (2 ^ k) = wrap64 (v + 2 ^ k - 1) / 2 ^ k * 2 ^ k :=
  clear_low_bits width (wrap64_lt _)

/-- Rounding up without a width. -/
def roundUp (v a : Nat) : Nat := (v + a - 1) / a * a

end Words
