import Qito.Lib.Lists
import Mathlib.Logic.Function.Basic
import Mathlib.Tactic.Common

/-! Lists kept in a ring of slots, from a tail on. -/
namespace Rings

variable {α : Type*} {depth tail : Nat} {slots : Nat → α} {xs : List α} {x : α}

/-- The slots from tail on hold the list. -/
structure Holds (depth : Nat) (slots : Nat → α) (tail : Nat) (xs : List α) : Prop where
  fits : xs.length ≤ depth
  inside : tail < depth
  each : ∀ i < xs.length, xs[i]? = some (slots ((tail + i) % depth))

theorem holds_nil (inside : tail < depth) : Holds depth slots tail [] where
  fits := Nat.zero_le depth
  inside := inside
  each i short := absurd short (Nat.not_lt_zero i)

theorem place_ne {i j : Nat} (less : i < j) (near : j < depth) : (tail + i) % depth ≠ (tail + j) % depth := by
  intro same
  have whole : (tail + j - (tail + i)) % depth = 0 := Nat.sub_mod_eq_zero_of_mod_eq same.symm
  rw [Nat.add_sub_add_left, Nat.mod_eq_of_lt (by omega)] at whole
  omega

theorem Holds.push (holds : Holds depth slots tail xs) (room : xs.length < depth) (x : α) :
    Holds depth (Function.update slots ((tail + xs.length) % depth) x) tail (xs ++ [x]) where
  fits := by
    rw [List.length_append]
    exact room
  inside := holds.inside
  each i short := by
    rw [List.length_append, List.length_singleton] at short
    rcases Nat.lt_succ_iff_lt_or_eq.mp short with old | rfl
    · rw [List.getElem?_append_left old, Function.update_of_ne (place_ne old room)]
      exact holds.each i old
    · rw [List.getElem?_concat_length, Function.update_self]

theorem Holds.front (holds : Holds depth slots tail (x :: xs)) : slots tail = x := by
  have first := holds.each 0 (Nat.succ_pos _)
  rw [Nat.add_zero, Nat.mod_eq_of_lt holds.inside] at first
  exact (Option.some.inj first).symm

theorem Holds.pop (holds : Holds depth slots tail (x :: xs)) : Holds depth slots ((tail + 1) % depth) xs where
  fits := Nat.le_of_succ_le holds.fits
  inside := Nat.mod_lt _ (Nat.zero_lt_of_lt holds.inside)
  each i short := by
    have next := holds.each (i + 1) (Nat.succ_lt_succ short)
    rw [Nat.mod_add_mod, Nat.add_assoc, Nat.add_comm 1 i]
    exact next

theorem Holds.replace (holds : Holds depth slots tail (x :: xs)) (full : xs.length + 1 = depth) (y : α) :
    Holds depth (Function.update slots tail y) ((tail + 1) % depth) (xs ++ [y]) := by
  have room : xs.length < depth := by omega
  have round : ((tail + 1) % depth + xs.length) % depth = tail := by
    have turn : tail + 1 + xs.length = tail + depth := by omega
    rw [Nat.mod_add_mod, turn, Nat.add_mod_right, Nat.mod_eq_of_lt holds.inside]
  have pushed := holds.pop.push room y
  rw [round] at pushed
  exact pushed

theorem Holds.read (holds : Holds depth slots tail xs) (offset count : Nat) (fits : offset + count ≤ xs.length) :
    ((List.range count).map fun i => slots ((tail + offset + i) % depth)) = (xs.drop offset).take count := by
  apply List.ext_getElem?
  intro i
  rw [List.getElem?_map, List.getElem?_take, List.getElem?_drop]
  by_cases inside : i < count
  · rw [List.getElem?_range inside, if_pos inside, Option.map_some, holds.each (offset + i) (by omega), Nat.add_assoc]
  · have none_ : (List.range count)[i]? = none := by
      rw [List.getElem?_eq_none_iff, List.length_range]
      exact Nat.le_of_not_lt inside
    rw [none_, if_neg inside, Option.map_none]

end Rings
