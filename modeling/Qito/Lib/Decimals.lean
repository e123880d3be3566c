import Qito.Lib.Lists
import Mathlib.Data.List.Basic
import Mathlib.Tactic.Common

/-! Decimal numbers in ASCII: what a row of digits stands for, and the row of
digits of a number. -/
namespace Decimals

def isDigit (c : UInt8) : Bool := 48 ≤ c && c ≤ 57

/-- The number that is read on from n. -/
def valueFrom (n : Nat) (digits : List UInt8) : Nat := digits.foldl (fun n c => n * 10 + (c.toNat - 48)) n

def value (digits : List UInt8) : Nat := valueFrom 0 digits

def digits (n : Nat) : List UInt8 := (Nat.toDigits 10 n).map fun c => UInt8.ofNat c.toNat

variable {c : UInt8} {n : Nat} {ds : List UInt8}

@[simp] theorem valueFrom_nil : valueFrom n [] = n := rfl

@[simp] theorem valueFrom_cons : valueFrom n (c :: ds) = valueFrom (n * 10 + (c.toNat - 48)) ds := by
  unfold valueFrom
  rw [List.foldl_cons]

theorem isDigit_iff : isDigit c = true ↔ 48 ≤ c.toNat ∧ c.toNat ≤ 57 := by
  unfold isDigit
  rw [Bool.and_eq_true, decide_eq_true_iff, decide_eq_true_iff, UInt8.le_iff_toNat_le, UInt8.le_iff_toNat_le]
  rfl

theorem le_valueFrom : n ≤ valueFrom n ds := by
  induction ds generalizing n with
  | nil => exact Nat.le_refl n
  | cons c ds ih =>
    rw [valueFrom_cons]
    exact Nat.le_trans (by omega) ih

theorem digits_ne_nil (n : Nat) : digits n ≠ [] := by
  unfold digits
  simp [Nat.toDigits_ne_nil]

theorem toNat_digit {c : Char} (digit : c.isDigit = true) :
    (UInt8.ofNat c.toNat).toNat = c.toNat ∧ 48 ≤ c.toNat ∧ c.toNat ≤ 57 := by
  simp only [Char.isDigit, Bool.and_eq_true, decide_eq_true_eq] at digit
  have low : 48 ≤ c.toNat := digit.1
  have high : c.toNat ≤ 57 := digit.2
  have small : c.toNat < 2 ^ 8 := by omega
  exact ⟨UInt8.toNat_ofNat_of_lt' small, low, high⟩

theorem digits_digit (n : Nat) : ∀ c ∈ digits n, isDigit c = true := by
  intro c member
  obtain ⟨d, inside, rfl⟩ := List.mem_map.mp member
  obtain ⟨same, range⟩ := toNat_digit (Nat.isDigit_of_mem_toDigits (by decide) (by decide) inside)
  rw [isDigit_iff, same]
  exact range

theorem valueFrom_chars {cs : List Char} (all : ∀ c ∈ cs, c.isDigit = true) :
    valueFrom n (cs.map fun c => UInt8.ofNat c.toNat) = Nat.ofDigitChars 10 cs n := by
  induction cs generalizing n with
  | nil => rfl
  | cons c cs ih =>
    obtain ⟨same, -⟩ := toNat_digit (all c List.mem_cons_self)
    rw [List.map_cons, valueFrom_cons, Nat.ofDigitChars_cons, ih fun d member => all d (List.mem_cons_of_mem _ member), same]
    have zero : '0'.toNat = 48 := rfl
    rw [zero, Nat.mul_comm n 10]

@[simp] theorem value_digits (n : Nat) : value (digits n) = n := by
  unfold value digits
  rw [valueFrom_chars fun c => Nat.isDigit_of_mem_toDigits (by decide) (by decide)]
  exact Nat.ofDigitChars_ten_toDigits

theorem digits_length {k : Nat} (positive : 0 < k) : (digits n).length ≤ k ↔ n < 10 ^ k := by
  unfold digits
  rw [List.length_map]
  exact Nat.length_toDigits_le_iff (by decide) positive

end Decimals
