import Qito.Lib.Lists
import Mathlib.Data.Nat.Count
import Mathlib.Tactic.Common

/-! Bits packed into bytes, eight to each. The tests of a bitmap determine it, so
every fact about set and clear is a fact about tests. -/
namespace Bitmaps

abbrev Bitmap := Nat → BitVec 8

namespace Bitmap

def set (b : Bitmap) (i : Nat) : Bitmap := Function.update b (i / 8) (b (i / 8) ||| 1#8 <<< (i % 8))

def clear (b : Bitmap) (i : Nat) : Bitmap := Function.update b (i / 8) (b (i / 8) &&& ~~~(1#8 <<< (i % 8)))

def test (b : Bitmap) (i : Nat) : Bool := (b (i / 8) &&& 1#8 <<< (i % 8)) != 0

/-- The number of set bits below n. -/
def count (b : Bitmap) (n : Nat) : Nat := Nat.count (fun i => b.test i = true) n

theorem mask_bit (x : BitVec 8) (k : Fin 8) : (x &&& 1#8 <<< k.val != 0) = x.getLsbD k.val := by
  revert x k
  decide +kernel

theorem test_eq (b : Bitmap) (i : Nat) : b.test i = (b (i / 8)).getLsbD (i % 8) :=
  mask_bit (b (i / 8)) ⟨i % 8, Nat.mod_lt i (by decide)⟩

theorem one_bit (k j : Fin 8) : (1#8 <<< k.val).getLsbD j.val = decide (j = k) := by
  revert k j
  decide

theorem mask_getLsbD (i j : Nat) : (1#8 <<< (i % 8)).getLsbD (j % 8) = decide (j % 8 = i % 8) := by
  have bit := one_bit ⟨i % 8, Nat.mod_lt i (by decide)⟩ ⟨j % 8, Nat.mod_lt j (by decide)⟩
  simp only [Fin.mk.injEq] at bit
  exact bit

@[simp] theorem test_set (b : Bitmap) (i j : Nat) : (b.set i).test j = (decide (j = i) || b.test j) := by
  rw [test_eq, test_eq, set]
  by_cases byte : j / 8 = i / 8
  · have same : j % 8 = i % 8 ↔ j = i := by omega
    rw [byte, Function.update_self, BitVec.getLsbD_or, mask_getLsbD, decide_eq_decide.mpr same, Bool.or_comm]
  · have other : j ≠ i := fun same => byte (by rw [same])
    rw [Function.update_of_ne byte, decide_eq_false other, Bool.false_or]

@[simp] theorem test_clear (b : Bitmap) (i j : Nat) : (b.clear i).test j = (!decide (j = i) && b.test j) := by
  rw [test_eq, test_eq, clear]
  by_cases byte : j / 8 = i / 8
  · have same : j % 8 = i % 8 ↔ j = i := by omega
    have low : j % 8 < 8 := Nat.mod_lt j (by decide)
    rw [byte, Function.update_self, BitVec.getLsbD_and, BitVec.getLsbD_not, mask_getLsbD, decide_eq_decide.mpr same,
      decide_eq_true low, Bool.true_and, Bool.and_comm]
  · have other : j ≠ i := fun same => byte (by rw [same])
    rw [Function.update_of_ne byte, decide_eq_false other, Bool.not_false, Bool.true_and]

theorem ext_test {b c : Bitmap} (same : ∀ i, b.test i = c.test i) : b = c := by
  funext k
  apply BitVec.eq_of_getLsbD_eq
  intro j low
  have bit := same (8 * k + j)
  rw [test_eq, test_eq, show (8 * k + j) / 8 = k by omega, show (8 * k + j) % 8 = j by omega] at bit
  exact bit

theorem count_congr {b c : Bitmap} {n : Nat} (same : ∀ i, i < n → b.test i = c.test i) : b.count n = c.count n := by
  induction n with
  | zero => rfl
  | succ n ih =>
    rw [count, count, Nat.count_succ, Nat.count_succ, ← count, ← count, ih fun i low => same i (Nat.lt_succ_of_lt low),
      same n (Nat.lt_succ_self n)]

theorem count_set {b : Bitmap} {i n : Nat} (low : i < n) (free : b.test i = false) : (b.set i).count n = b.count n + 1 := by
  induction n with
  | zero => exact absurd low (Nat.not_lt_zero i)
  | succ n ih =>
    rw [count, count, Nat.count_succ, Nat.count_succ, ← count, ← count]
    rcases Nat.lt_succ_iff_lt_or_eq.mp low with below | rfl
    · have other : n ≠ i := Nat.ne_of_gt below
      rw [ih below, test_set, decide_eq_false other, Bool.false_or]
      omega
    · have rest : (b.set i).count i = b.count i := by
        apply count_congr
        intro j less
        rw [test_set, decide_eq_false (Nat.ne_of_lt less), Bool.false_or]
      rw [rest, test_set, free]
      simp

theorem count_clear {b : Bitmap} {i n : Nat} (low : i < n) (taken : b.test i = true) : (b.clear i).count n + 1 = b.count n := by
  have back : (b.clear i).set i = b := by
    apply ext_test
    intro j
    rw [test_set, test_clear]
    by_cases same : j = i
    · simp [same, taken]
    · simp [same]
  have free : (b.clear i).test i = false := by simp
  rw [← count_set low free, back]

/-- The bits from first on, n of them. -/
def setRun (b : Bitmap) (first n : Nat) : Bitmap := (List.range' first n).foldl set b

theorem test_foldl_set (b : Bitmap) (is : List Nat) (j : Nat) : (is.foldl set b).test j = (decide (j ∈ is) || b.test j) := by
  induction is generalizing b with
  | nil => simp
  | cons i rest ih =>
    rw [List.foldl_cons, ih, test_set, ← Bool.or_assoc, ← Bool.decide_or]
    simp only [List.mem_cons, or_comm]

theorem test_setRun (b : Bitmap) (first n j : Nat) :
    (b.setRun first n).test j = (decide (first ≤ j ∧ j < first + n) || b.test j) := by
  rw [setRun, test_foldl_set, decide_eq_decide.mpr List.mem_range'_1]

theorem count_setRun {b : Bitmap} {first n limit : Nat} (inside : first + n ≤ limit)
    (free : ∀ j, first ≤ j → j < first + n → b.test j = false) : (b.setRun first n).count limit = b.count limit + n := by
  induction n generalizing b first with
  | zero => rfl
  | succ n ih =>
    have here := count_set (show first < limit by omega) (free first (Nat.le_refl _) (by omega))
    have rest : ((b.set first).setRun (first + 1) n).count limit = (b.set first).count limit + n := by
      apply ih (by omega)
      intro j low high
      rw [test_set, decide_eq_false (by omega), Bool.false_or]
      exact free j (by omega) (by omega)
    change ((b.set first).setRun (first + 1) n).count limit = _
    rw [rest, here]
    omega

end Bitmap
end Bitmaps
