import Qito.Lib.Lists
import Mathlib.Data.List.Basic
import Mathlib.Tactic.Common

/-! UTF-8 as RFC 3629 has it: a scalar value is written in the fewest bytes that
hold it, a text is the bytes of its scalar values one after the other. -/
namespace Utf8

/-- Up to 10FFFF, surrogates apart. -/
def Scalar (c : Nat) : Prop := c < 0xD800 ∨ 0xE000 ≤ c ∧ c < 0x110000

instance (c : Nat) : Decidable (Scalar c) := inferInstanceAs (Decidable (_ ∨ _))

/-- The continuation byte for the low six bits. -/
def tail (c : Nat) : UInt8 := UInt8.ofNat (0x80 + c % 64)

def units (c : Nat) : List UInt8 :=
  if c < 0x80 then [UInt8.ofNat c]
  else if c < 0x800 then [UInt8.ofNat (0xC0 + c / 64), tail c]
  else if c < 0x10000 then [UInt8.ofNat (0xE0 + c / 4096), tail (c / 64), tail c]
  else [UInt8.ofNat (0xF0 + c / 262144), tail (c / 4096), tail (c / 64), tail c]

/-- The text of these scalar values. -/
def Encodes (cs : List Nat) (s : List UInt8) : Prop := (∀ c ∈ cs, Scalar c) ∧ s = cs.flatMap units

def WellFormed (s : List UInt8) : Prop := ∃ cs, Encodes cs s

theorem tail_toNat (c : Nat) : (tail c).toNat = 0x80 + c % 64 := by
  have low := Nat.mod_lt c (by decide : 0 < 64)
  rw [tail, UInt8.toNat_ofNat_of_lt' (by simp only [UInt8.size]; omega)]

theorem units_length_pos (c : Nat) : 0 < (units c).length := by
  unfold units
  split_ifs <;> simp

theorem text_nil {cs : List Nat} : Encodes cs [] ↔ cs = [] := by
  constructor
  · rintro ⟨_, empty⟩
    cases cs with
    | nil => rfl
    | cons c cs =>
      have long := units_length_pos c
      have short := congrArg List.length empty
      rw [List.flatMap_cons, List.length_append, List.length_nil] at short
      omega
  · rintro rfl
    exact ⟨by simp, rfl⟩

end Utf8
