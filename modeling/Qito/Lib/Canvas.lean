import Qito.Lib.Lists
import Mathlib.Algebra.Order.Ring.Int
import Mathlib.Tactic.Linarith
import Mathlib.Tactic.Common

/-! Pixels in a flat buffer, row after row, pitch cells apart. A loop over such a
buffer is described by the cells it may touch; what it writes there is left open. -/
namespace Canvas

abbrev Buffer (α : Type*) := Int → α

variable {α β : Type*}

def fill (buffer : Buffer α) (start count : Int) (value : α) : Buffer α :=
  fun i => if start ≤ i ∧ i < start + count then value else buffer i

/-- Copy count cells of a source from one place to another. -/
def copy (buffer : Buffer α) (start : Int) (src : Buffer α) (origin count : Int) : Buffer α :=
  fun i => if start ≤ i ∧ i < start + count then src (origin + (i - start)) else buffer i

def poke (buffer : Buffer α) (place : Int) (value : α) : Buffer α := fun i => if i = place then value else buffer i

/-- Cells outside of a region are as they were. -/
def Touches (region : Int → Prop) (b b' : Buffer α) : Prop := ∀ i, b' i ≠ b i → region i

/-- The cells of a rectangle. -/
def Cells (pitch x y w h : Int) (i : Int) : Prop :=
  ∃ px py, (x ≤ px ∧ px < x + w) ∧ (y ≤ py ∧ py < y + h) ∧ i = py * pitch + px

section Regions
variable {region wider : Int → Prop} {a b c : Buffer α}

theorem Touches.refl (b : Buffer α) : Touches region b b := fun _ changed => absurd rfl changed

theorem Touches.trans (first : Touches region a b) (then_ : Touches region b c) : Touches region a c := by
  intro i changed
  by_cases same : c i = b i
  · rw [same] at changed
    exact first i changed
  · exact then_ i same

theorem Touches.mono (touches : Touches region a b) (within : ∀ i, region i → wider i) : Touches wider a b :=
  fun i changed => within i (touches i changed)

theorem Touches.fold {round : Buffer α → β → Buffer α} {xs : List β} (each : ∀ x ∈ xs, ∀ b, Touches region b (round b x)) :
    Touches region b (xs.foldl round b) := by
  induction xs generalizing b with
  | nil => exact Touches.refl b
  | cons x xs ih =>
    have first : Touches region b (round b x) := each x List.mem_cons_self b
    exact first.trans (ih fun x' member => each x' (List.mem_cons_of_mem x member))

theorem fill_touches (b : Buffer α) (start count : Int) (value : α) :
    Touches (fun i => start ≤ i ∧ i < start + count) b (fill b start count value) := by
  intro i changed
  by_contra outside
  exact changed (if_neg outside)

theorem copy_touches (b : Buffer α) (start : Int) (src : Buffer α) (origin count : Int) :
    Touches (fun i => start ≤ i ∧ i < start + count) b (copy b start src origin count) := by
  intro i changed
  by_contra outside
  exact changed (if_neg outside)

theorem poke_touches {place : Int} (here : region place) (b : Buffer α) (value : α) : Touches region b (poke b place value) := by
  intro i changed
  by_contra outside
  apply changed
  apply if_neg
  rintro rfl
  exact outside here

end Regions

section Grid
variable {pitch x y w h : Int}

theorem cells_row {row i : Int} (inside : 0 ≤ row ∧ row < h) (here : (y + row) * pitch + x ≤ i ∧ i < (y + row) * pitch + x + w) :
    Cells pitch x y w h i :=
  ⟨i - (y + row) * pitch, y + row, ⟨by omega, by omega⟩, ⟨by omega, by omega⟩, by omega⟩

theorem row_unique {x' y' : Int} (inside : 0 ≤ x ∧ x < pitch) (inside' : 0 ≤ x' ∧ x' < pitch)
    (same : y * pitch + x = y' * pitch + x') : x = x' ∧ y = y' := by
  have positive : 0 < pitch := by omega
  have rows : y = y' := by
    have left : (y * pitch + x) / pitch = y := by
      rw [Int.add_comm, Int.add_mul_ediv_right _ _ (by omega), Int.ediv_eq_zero_of_lt inside.1 inside.2, Int.zero_add]
    have right : (y' * pitch + x') / pitch = y' := by
      rw [Int.add_comm, Int.add_mul_ediv_right _ _ (by omega), Int.ediv_eq_zero_of_lt inside'.1 inside'.2, Int.zero_add]
    rw [← left, same, right]
  subst rows
  exact ⟨by omega, rfl⟩

/-- Rows copied from a buffer of the same shape. -/
def copyRows (pitch : Int) (dst src : Buffer α) (x y w : Int) (rows : List Nat) : Buffer α :=
  rows.foldl (fun dst (row : Nat) => copy dst ((y + row) * pitch + x) src ((y + row) * pitch + x) w) dst

theorem copyRows_either (dst src : Buffer α) (rows : List Nat) (i : Int) :
    copyRows pitch dst src x y w rows i = src i ∨ copyRows pitch dst src x y w rows i = dst i := by
  induction rows generalizing dst with
  | nil => exact .inr rfl
  | cons row rows ih =>
    obtain copied | left := ih (copy dst ((y + row) * pitch + x) src ((y + row) * pitch + x) w)
    · exact .inl copied
    · have now : copy dst ((y + row) * pitch + x) src ((y + row) * pitch + x) w i = src i ∨
          copy dst ((y + row) * pitch + x) src ((y + row) * pitch + x) w i = dst i := by
        unfold copy
        split
        · exact .inl (congrArg src (by omega))
        · exact .inr rfl
      exact now.imp left.trans left.trans

theorem copyRows_inside {dst src : Buffer α} {rows : List Nat} {row : Nat} {px : Int} (there : row ∈ rows)
    (inside : x ≤ px ∧ px < x + w) :
    copyRows pitch dst src x y w rows ((y + row) * pitch + px) = src ((y + row) * pitch + px) := by
  induction rows generalizing dst with
  | nil => cases there
  | cons first rows ih =>
    obtain rfl | later := List.mem_cons.mp there
    · have copied : copy dst ((y + row) * pitch + x) src ((y + row) * pitch + x) w ((y + row) * pitch + px) =
          src ((y + row) * pitch + px) := by
        unfold copy
        rw [if_pos (by omega)]
        exact congrArg src (by omega)
      have later := @copyRows_either _ pitch x y w (copy dst ((y + row) * pitch + x) src ((y + row) * pitch + x) w) src rows
        ((y + row) * pitch + px)
      exact later.elim id fun left => left.trans copied
    · exact ih later

end Grid

end Canvas
