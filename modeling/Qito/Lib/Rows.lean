import Qito.Lib.Lists
import Mathlib.Data.List.GetD
import Mathlib.Data.List.TakeWhile
import Mathlib.Tactic.Common

/-! Rows of characters that hold terminated strings. A patch is what a program
leaves in the rows: of each row the first cells, the last of them a terminator.
Reading a string that starts in such cells never depends on what was there before. -/
namespace Rows

variable {ρ : Type*}

/-- The string from cell k on, where n cells are left. -/
@[grind =] def scan (cells : Nat → UInt8) : Nat → Nat → List UInt8
  | 0, _ => []
  | n + 1, k => if cells k = 0 then [] else cells k :: scan cells n (k + 1)

/-- The new cells in front, then the old ones. -/
def cover (new : List UInt8) (old : Nat → UInt8) : Nat → UInt8 := fun k => new.getD k (old k)

/-- Nothing, or cells up to a terminator. -/
def Ended (cells : List UInt8) : Prop := cells = [] ∨ ∃ front, cells = front ++ [0]

abbrev Patch (ρ : Type*) := ρ → List UInt8

def apply (patch : Patch ρ) (rows : ρ → Nat → UInt8) : ρ → Nat → UInt8 := fun r => cover (patch r) (rows r)

def untouched : Patch ρ := fun _ => []

/-- First the old patch, then the new one. -/
def overlay (new old : Patch ρ) : Patch ρ := fun r => new r ++ (old r).drop (new r).length

/-- A string is copied to the start of a row. -/
def strcpy [DecidableEq ρ] (row : ρ) (text : List UInt8) : Patch ρ := fun r => if r = row then text ++ [0] else []

section Cells
variable {new old cells : List UInt8} {rest : Nat → UInt8} {n k : Nat}

theorem cover_inside (inside : k < new.length) : cover new rest k = new.get ⟨k, inside⟩ :=
  List.getD_eq_getElem _ _ inside

theorem cover_outside (outside : new.length ≤ k) : cover new rest k = rest k := List.getD_eq_default _ _ outside

@[simp] theorem cover_nil : cover [] rest = rest := rfl

theorem cover_cover (new old : List UInt8) (rest : Nat → UInt8) :
    cover (new ++ old.drop new.length) rest = cover new (cover old rest) := by
  funext k
  by_cases early : k < new.length
  · have inside : k < (new ++ old.drop new.length).length := by
      rw [List.length_append]
      omega
    rw [cover_inside early, cover_inside inside]
    exact List.getElem_append_left early
  · have late : new.length ≤ k := Nat.le_of_not_lt early
    rw [cover_outside late]
    by_cases covered : k < old.length
    · have inside : k < (new ++ old.drop new.length).length := by
        rw [List.length_append, List.length_drop]
        omega
      have place : new.length + (k - new.length) = k := by omega
      rw [cover_inside inside, cover_inside covered, List.get_eq_getElem, List.get_eq_getElem,
        List.getElem_append_right late, List.getElem_drop]
      simp only [place]
    · have outside : (new ++ old.drop new.length).length ≤ k := by
        rw [List.length_append, List.length_drop]
        omega
      rw [cover_outside outside, cover_outside (Nat.le_of_not_lt covered)]

theorem ended_nil : Ended [] := .inl rfl

theorem ended_string (text : List UInt8) : Ended (text ++ [0]) := .inr ⟨text, rfl⟩

theorem Ended.cover (new_ : Ended new) (old_ : Ended old) : Ended (new ++ old.drop new.length) := by
  by_cases shorter : old.length ≤ new.length
  · rw [List.drop_of_length_le shorter, List.append_nil]
    exact new_
  · obtain rfl | ⟨front, rfl⟩ := old_
    · exact absurd (Nat.zero_le _) shorter
    · rw [List.length_append, List.length_singleton] at shorter
      rw [List.drop_append_of_le_length (by omega), ← List.append_assoc]
      exact ended_string _

theorem cover_length : (new ++ old.drop new.length).length = max new.length old.length := by
  rw [List.length_append, List.length_drop]
  omega

theorem Ended.next (ended : Ended cells) (inside : k < cells.length) (full : cells[k] ≠ 0) : k + 1 < cells.length := by
  obtain rfl | ⟨front, rfl⟩ := ended
  · exact absurd inside (Nat.not_lt_zero k)
  · rw [List.length_append, List.length_singleton] at inside ⊢
    by_contra last
    have place : k = front.length := by omega
    subst place
    exact full (by simp)

theorem Ended.set (ended : Ended cells) (inside : k + 1 < cells.length) : Ended (cells.set k 0) := by
  obtain rfl | ⟨front, rfl⟩ := ended
  · exact absurd inside (Nat.not_lt_zero _)
  · rw [List.length_append, List.length_singleton] at inside
    rw [List.set_append_left _ _ (by omega)]
    exact ended_string _

theorem scan_drop {cells : Nat → UInt8} {text : List UInt8} (read : scan cells n k = text) {j : Nat} (inside : j ≤ text.length) :
    scan cells (n - j) (k + j) = text.drop j := by
  induction j generalizing n k text with
  | zero => exact read
  | succ j ih =>
    cases n with
    | zero =>
      subst read
      exact absurd inside (Nat.not_succ_le_zero j)
    | succ n =>
      unfold scan at read
      split at read
      · subst read
        exact absurd inside (Nat.not_succ_le_zero j)
      · subst read
        rw [List.length_cons] at inside
        rw [Nat.succ_sub_succ, List.drop_succ_cons, show k + (j + 1) = k + 1 + j by omega]
        exact ih rfl (by omega)

theorem scan_outside {cells : List UInt8} {rest : Nat → UInt8} (outside : cells.length ≤ k) :
    scan (cover cells rest) n k = scan rest n k := by
  induction n generalizing k with
  | zero => rfl
  | succ n ih => rw [scan, scan, cover_outside outside, ih (Nat.le_succ_of_le outside)]

theorem scan_cover (ended : Ended cells) (inside : k < cells.length) (room : cells.length ≤ k + n) :
    scan (cover cells rest) n k = (cells.drop k).takeWhile (· ≠ 0) := by
  induction n generalizing k with
  | zero => omega
  | succ n ih =>
    rw [scan, cover_inside inside, List.drop_eq_getElem_cons inside, List.takeWhile_cons, List.get_eq_getElem]
    by_cases zero : cells[k] = 0
    · simp [zero]
    · have next := ended.next inside zero
      rw [if_neg zero, ih next (by omega)]
      simp [zero]

theorem Ended.short (ended : Ended cells) (inside : k < cells.length) :
    k + ((cells.drop k).takeWhile (· ≠ 0)).length < cells.length := by
  obtain rfl | ⟨front, rfl⟩ := ended
  · exact absurd inside (Nat.not_lt_zero k)
  · rw [List.length_append, List.length_singleton] at inside ⊢
    rw [List.drop_append_of_le_length (by omega), List.takeWhile_append]
    split
    · simp only [List.takeWhile_cons, ne_eq, not_true_eq_false, decide_false, Bool.false_eq_true, if_false,
        List.append_nil, List.length_drop]
      omega
    · have length := (List.takeWhile_sublist (· ≠ (0 : UInt8)) (l := front.drop k)).length_le
      rw [List.length_drop] at length
      omega

end Cells

section Patches
variable {new old patch : Patch ρ} {rows : ρ → Nat → UInt8} {r : ρ}

@[simp] theorem apply_untouched : apply untouched rows = rows := rfl

theorem apply_overlay : apply (overlay new old) rows = apply new (apply old rows) := by
  funext r
  exact cover_cover (new r) (old r) (rows r)

@[simp] theorem overlay_untouched_left : overlay untouched old = old := rfl

end Patches

end Rows
