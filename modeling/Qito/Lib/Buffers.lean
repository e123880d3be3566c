import Qito.Lib.Lists
import Mathlib.Data.List.Range
import Mathlib.Data.List.GetD
import Mathlib.Tactic.Common

/-! Finite sequences that grow: reading and writing at an offset, where every
place that was never written holds the same value zero. bytes relates such a
sequence to the front part of a larger buffer that holds it. -/
namespace Buffers

variable {α : Type*} (zero : α)

/-- The sequence in the first places of a buffer. -/
def bytes (data : Nat → α) (size : Nat) : List α := (List.range size).map data

def readAt (offset len : Nat) (xs : List α) : List α := (xs.drop offset).take len

/-- Cut the sequence, or go on with zeros. -/
def resize (size : Nat) (xs : List α) : List α := (List.range size).map fun i => xs.getD i zero

/-- Write ys from offset on; a gap before offset is filled with zeros. -/
def writeAt (offset : Nat) (ys xs : List α) : List α :=
  (List.range (max xs.length (offset + ys.length))).map fun i =>
    if offset ≤ i ∧ i < offset + ys.length then ys.getD (i - offset) zero else xs.getD i zero

@[simp] theorem bytes_length (data : Nat → α) (size : Nat) : (bytes data size).length = size := by
  simp [bytes]

theorem bytes_getD (data : Nat → α) (size i : Nat) : (bytes data size).getD i zero = if i < size then data i else zero := by
  by_cases inside : i < size
  · rw [List.getD_eq_getElem _ _ (by simpa using inside), if_pos inside]
    simp [bytes]
  · rw [List.getD_eq_default _ _ (by simpa using inside), if_neg inside]

theorem readAt_bytes (data : Nat → α) (size offset len : Nat) :
    readAt offset len (bytes data size) = bytes (fun i => data (offset + i)) (min len (size - offset)) := by
  apply List.ext_getElem
  · simp [readAt]
  · intro i left right
    simp [readAt, bytes]

theorem resize_bytes {data data' : Nat → α} {size size' : Nat} (kept : ∀ i, i < size → i < size' → data' i = data i)
    (filled : ∀ i, size ≤ i → i < size' → data' i = zero) :
    resize zero size' (bytes data size) = bytes data' size' := by
  refine List.map_congr_left fun i member => ?_
  have inside := List.mem_range.mp member
  rw [bytes_getD]
  split
  · rename_i old
    exact (kept i old inside).symm
  · rename_i new
    exact (filled i (Nat.le_of_not_lt new) inside).symm

theorem writeAt_bytes {data data' : Nat → α} {size offset : Nat} {ys : List α}
    (written : ∀ i, offset ≤ i → i < offset + ys.length → data' i = ys.getD (i - offset) zero)
    (kept : ∀ i, i < size → ¬ (offset ≤ i ∧ i < offset + ys.length) → data' i = data i)
    (gap : ∀ i, size ≤ i → i < offset → data' i = zero) :
    writeAt zero offset ys (bytes data size) = bytes data' (max size (offset + ys.length)) := by
  rw [writeAt, bytes_length]
  refine List.map_congr_left fun i member => ?_
  have inside := List.mem_range.mp member
  split
  · rename_i here
    exact (written i here.1 here.2).symm
  · rename_i outside
    rw [bytes_getD]
    split
    · rename_i old
      exact (kept i old outside).symm
    · rename_i new
      refine (gap i (Nat.le_of_not_lt new) ?_).symm
      by_contra late
      exact outside ⟨Nat.le_of_not_lt late, by omega⟩

end Buffers
