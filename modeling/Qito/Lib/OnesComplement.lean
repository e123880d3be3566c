import Qito.Lib.Lists
import Mathlib.Data.List.Basic
import Mathlib.Tactic.Common

/-! Sums of sixteen-bit words with the carry brought around. Whether such a sum is all
ones is a matter of the plain sum modulo 65535, and there words can be put together in
any way. -/
namespace OnesComplement

abbrev Bytes := List UInt8

/-- The plain sum of the big-endian words; a last byte alone stands for its word's high half. -/
def total : Bytes → Nat
  | a :: b :: rest => a.toNat * 256 + b.toNat + total rest
  | [a] => a.toNat * 256
  | [] => 0

/-- Addition with the carry brought around. -/
def add (a b : Nat) : Nat := if a + b < 65536 then a + b else a + b - 65535

def sum : Bytes → Nat
  | a :: b :: rest => add (a.toNat * 256 + b.toNat) (sum rest)
  | [a] => a.toNat * 256
  | [] => 0

/-- A number that stands for a plain sum. -/
def Folds (n total : Nat) : Prop := n ≤ 65535 ∧ n % 65535 = total % 65535 ∧ (n = 0 ↔ total = 0)

theorem Folds.full {n total : Nat} (folds : Folds n total) : n = 65535 ↔ total % 65535 = 0 ∧ total ≠ 0 := by
  obtain ⟨small, same, zero⟩ := folds
  omega

theorem byte_lt (a : UInt8) : a.toNat < 256 := UInt8.toNat_lt _

theorem sum_folds (bytes : Bytes) : Folds (sum bytes) (total bytes) := by
  induction bytes using total.induct with
  | case1 a b rest ih =>
    have high := byte_lt a
    have low := byte_lt b
    obtain ⟨small, same, zero⟩ := ih
    rw [sum, total, add]
    split
    · exact ⟨by omega, by omega, by omega⟩
    · exact ⟨by omega, by omega, by omega⟩
  | case2 a =>
    have high := byte_lt a
    rw [sum, total]
    exact ⟨by omega, rfl, Iff.rfl⟩
  | case3 => exact ⟨by decide, rfl, Iff.rfl⟩

theorem sum_full (bytes : Bytes) : sum bytes = 65535 ↔ total bytes % 65535 = 0 ∧ total bytes ≠ 0 := (sum_folds bytes).full

theorem total_append {xs : Bytes} (even : xs.length % 2 = 0) (ys : Bytes) : total (xs ++ ys) = total xs + total ys := by
  induction xs using total.induct with
  | case1 a b rest ih =>
    have rest_even : rest.length % 2 = 0 := by
      rw [List.length_cons, List.length_cons] at even
      omega
    rw [List.cons_append, List.cons_append, total, total, ih rest_even]
    omega
  | case2 a => cases even
  | case3 => simp [total]

theorem total_le (bytes : Bytes) : total bytes ≤ 65535 * bytes.length := by
  induction bytes using total.induct with
  | case1 a b rest ih =>
    have high := byte_lt a
    have low := byte_lt b
    rw [total, List.length_cons, List.length_cons]
    omega
  | case2 a =>
    have high := byte_lt a
    rw [total, List.length_singleton]
    omega
  | case3 => exact Nat.zero_le _

theorem total_between {front : Bytes} (even : front.length % 2 = 0) (a b : UInt8) (back : Bytes) :
    total (front ++ a :: b :: back) = total (front ++ 0 :: 0 :: back) + (a.toNat * 256 + b.toNat) := by
  rw [total_append even, total_append even, total, total]
  change _ = _ + (0 * 256 + 0 + _) + _
  omega

end OnesComplement
