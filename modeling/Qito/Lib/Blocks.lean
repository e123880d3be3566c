import Qito.Lib.Lists
import Mathlib.Data.List.Basic
import Mathlib.Tactic.Common

/-! Items laid one after another so that none crosses the boundary of a block: an item
that does not fit in what is left of its block goes to the start of the next one. -/
namespace Blocks

variable {α : Type*} (block : Nat) (zero : α)

/-- Where an item of this length starts, at the earliest from an offset. -/
def startOf (offset n : Nat) : Nat := if block < offset % block + n then offset + (block - offset % block) else offset

/-- Where items of these lengths end. -/
def endOf : Nat → List Nat → Nat
  | offset, [] => offset
  | offset, n :: ns => endOf (startOf block offset n + n) ns

/-- The items, with what is skipped filled up. -/
def layFrom : Nat → List (List α) → List α
  | _, [] => []
  | offset, item :: items =>
    List.replicate (startOf block offset item.length - offset) zero ++ item ++ layFrom (startOf block offset item.length + item.length) items

section Laying
variable {block : Nat} {zero : α} {offset n stop : Nat} {items : List (List α)}

theorem startOf_le (block offset n : Nat) : offset ≤ startOf block offset n := by
  unfold startOf
  split
  · omega
  · exact Nat.le_refl _

theorem layFrom_length (block : Nat) (zero : α) (offset : Nat) (items : List (List α)) :
    offset + (layFrom block zero offset items).length = endOf block offset (items.map List.length) := by
  induction items generalizing offset with
  | nil => rfl
  | cons item items ih =>
    rw [List.map_cons, endOf, ← ih, layFrom, List.length_append, List.length_append, List.length_replicate]
    have := startOf_le block offset item.length
    omega

theorem startOf_boundary (small : n ≤ block) (boundary : block ∣ stop) (crosses : stop < startOf block offset n + n) :
    stop ≤ startOf block offset n := by
  obtain ⟨k, rfl⟩ := boundary
  rcases Nat.eq_zero_or_pos block with rfl | positive
  · rw [Nat.zero_mul]
    exact Nat.zero_le _
  have whole := Nat.div_add_mod offset block
  have less := Nat.mod_lt offset positive
  unfold startOf at crosses ⊢
  split at crosses
  · rename_i next
    rw [if_pos next]
    -- the item starts a block, so that its end is in the same block as its start or ends it
    have start : offset + (block - offset % block) = block * (offset / block + 1) := by
      rw [Nat.mul_succ]
      omega
    rw [start] at crosses ⊢
    apply Nat.mul_le_mul_left
    by_contra before
    have later : block * (offset / block + 1 + 1) ≤ block * k := Nat.mul_le_mul_left _ (by omega)
    rw [Nat.mul_succ] at later
    omega
  · rename_i same
    rw [if_neg same]
    by_contra before
    have earlier : offset / block < k := by
      by_contra least
      have := Nat.mul_le_mul_left block (Nat.le_of_not_lt least)
      omega
    have later : block * (offset / block + 1) ≤ block * k := Nat.mul_le_mul_left _ (by omega)
    rw [Nat.mul_succ] at later
    omega

theorem layFrom_cut (small : ∀ item ∈ items, item.length ≤ block) (boundary : block ∣ stop) (before : offset ≤ stop)
    (past : stop < endOf block offset (items.map List.length)) : ∃ front item back, items = front ++ item :: back ∧
      (layFrom block zero offset items).take (stop - offset) = layFrom block zero offset front ++
        List.replicate (stop - endOf block offset (front.map List.length)) zero ∧
      endOf block offset (front.map List.length) ≤ stop := by
  induction items generalizing offset with
  | nil => exact absurd past (Nat.not_lt_of_le before)
  | cons item items ih =>
    obtain ⟨short, small⟩ := List.forall_mem_cons.mp small
    have start := startOf_le block offset item.length
    by_cases inside : startOf block offset item.length + item.length ≤ stop
    · obtain ⟨front, next, back, rfl, taken, least⟩ := ih small inside past
      refine ⟨item :: front, next, back, rfl, ?_, least⟩
      have length : (List.replicate (startOf block offset item.length - offset) zero ++ item).length =
          startOf block offset item.length + item.length - offset := by
        rw [List.length_append, List.length_replicate]
        omega
      have split : stop - offset = (List.replicate (startOf block offset item.length - offset) zero ++ item).length +
          (stop - (startOf block offset item.length + item.length)) := by
        rw [length]
        omega
      rw [layFrom, split, List.take_length_add_append, taken, List.map_cons, endOf, layFrom]
      simp only [List.append_assoc]
    · have behind := startOf_boundary short boundary (Nat.lt_of_not_le inside)
      refine ⟨[], item, items, rfl, ?_, before⟩
      change (List.replicate (startOf block offset item.length - offset) zero ++ item ++ _).take (stop - offset) =
        List.replicate (stop - offset) zero
      rw [List.append_assoc, List.take_append_of_le_length (by rw [List.length_replicate]; omega), List.take_replicate,
        Nat.min_eq_left (by omega)]

end Laying
end Blocks
