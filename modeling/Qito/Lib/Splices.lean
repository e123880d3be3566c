import Qito.Lib.Lists
import Mathlib.Data.List.GetD
import Mathlib.Tactic.Common

/-! Terminated texts that are edited in place. A text stands in the first cells of a buffer,
with a terminator behind it; moving its end, and filling the gap, replaces a part of it. -/
namespace Splices

variable {α : Type*}

/-- memmove; none where a cell outside of the buffer would be read or written. -/
def move (size : Nat) (cells : Nat → α) (dst src count : Nat) : Option (Nat → α) :=
  if dst + count ≤ size ∧ src + count ≤ size then
    some fun k => if dst ≤ k ∧ k < dst + count then cells (k - dst + src) else cells k
  else none

/-- memcpy from elsewhere. -/
def fill (size : Nat) (cells : Nat → α) (dst : Nat) (text : List α) : Option (Nat → α) :=
  if dst + text.length ≤ size then some fun k => if dst ≤ k then text.getD (k - dst) (cells k) else cells k
  else none

/-- The text and its terminator stand in the first cells. -/
def Spells (stop : α) (cells : Nat → α) (text : List α) : Prop := ∀ k ≤ text.length, cells k = text.getD k stop

section Parts
variable {stop : α} {size : Nat} {cells : Nat → α} {front gone mid back text : List α} {k : Nat}

theorem Spells.inside (spells : Spells stop cells text) (inside : k < text.length) : cells k = text[k] := by
  rw [spells k (Nat.le_of_lt inside), List.getD_eq_getElem _ _ inside]

theorem Spells.ended (spells : Spells stop cells text) : cells text.length = stop := by
  rw [spells _ (Nat.le_refl _), List.getD_eq_default _ _ (Nat.le_refl _)]

theorem Spells.only (spells : Spells stop cells text) (plain : stop ∉ text) (inside : k ≤ text.length) :
    cells k = stop ↔ k = text.length := by
  constructor
  · intro ended
    by_contra other
    have early : k < text.length := Nat.lt_of_le_of_ne inside other
    rw [spells.inside early] at ended
    exact plain (ended ▸ List.getElem_mem early)
  · rintro rfl
    exact spells.ended

theorem Spells.early (spells : Spells stop cells (front ++ back)) (early : k < front.length) : cells k = front.getD k stop := by
  rw [spells k (by rw [List.length_append]; omega), List.getD_append _ _ _ _ early]

theorem Spells.late (spells : Spells stop cells (front ++ back)) (inside : k ≤ back.length) :
    cells (front.length + k) = back.getD k stop := by
  rw [spells _ (by rw [List.length_append]; omega), List.getD_append_right _ _ _ _ (Nat.le_add_right _ _), Nat.add_sub_cancel_left]

/-- A text is put together from what stands in front of a cell and what stands from it on. -/
theorem Spells.glue (early : ∀ k < front.length, cells k = front.getD k stop)
    (late : ∀ k ≤ back.length, cells (front.length + k) = back.getD k stop) : Spells stop cells (front ++ back) := by
  intro k inside
  rw [List.length_append] at inside
  obtain before | behind := Nat.lt_or_ge k front.length
  · rw [early k before, List.getD_append _ _ _ _ before]
  · obtain ⟨j, rfl⟩ := Nat.exists_eq_add_of_le behind
    rw [late j (by omega), List.getD_append_right _ _ _ _ (Nat.le_add_right _ _), Nat.add_sub_cancel_left]

theorem move_back (spells : Spells stop cells (front ++ gone ++ back)) (old : (front ++ gone ++ back).length < size) {gap : Nat}
    (new : front.length + gap + back.length < size) :
    ∃ cells', move size cells (front.length + gap) (front.length + gone.length) (back.length + 1) = some cells' ∧
      (∀ k < front.length, cells' k = front.getD k stop) ∧ ∀ k ≤ back.length, cells' (front.length + gap + k) = back.getD k stop := by
  rw [List.length_append, List.length_append] at old
  refine ⟨_, if_pos ⟨by omega, by omega⟩, ?_, ?_⟩
  · intro k early
    rw [if_neg (by omega)]
    rw [List.append_assoc] at spells
    exact spells.early early
  · intro k inside
    rw [if_pos (by omega), ← spells.late inside, List.length_append]
    congr 1
    omega

theorem Spells.cut (spells : Spells stop cells (front ++ gone ++ back)) (old : (front ++ gone ++ back).length < size) :
    ∃ cells', move size cells front.length (front.length + gone.length) (back.length + 1) = some cells' ∧
      Spells stop cells' (front ++ back) := by
  have short : front.length + 0 + back.length < size := by
    rw [List.length_append, List.length_append] at old
    omega
  obtain ⟨cells', moved, early, late⟩ := move_back spells old short
  exact ⟨cells', moved, .glue early late⟩

theorem Spells.insert (spells : Spells stop cells (front ++ back)) (room : (front ++ mid ++ back).length < size) :
    ∃ cells₁ cells', move size cells (front.length + mid.length) front.length (back.length + 1) = some cells₁ ∧
      fill size cells₁ front.length mid = some cells' ∧ Spells stop cells' (front ++ mid ++ back) := by
  rw [List.length_append, List.length_append] at room
  have spells' : Spells stop cells (front ++ [] ++ back) := by
    rw [List.append_nil]
    exact spells
  obtain ⟨cells₁, moved, early, late⟩ := move_back spells'
    (by rw [List.append_nil, List.length_append]; omega) room
  refine ⟨cells₁, _, moved, if_pos (by omega), .glue ?_ ?_⟩
  · intro k inside
    rw [List.length_append] at inside
    obtain before | behind := Nat.lt_or_ge k front.length
    · rw [if_neg (by omega), early k before, List.getD_append _ _ _ _ before]
    · rw [if_pos behind, List.getD_append_right _ _ _ _ behind]
      rw [List.getD_eq_getElem _ _ (by omega), List.getD_eq_getElem _ _ (by omega)]
  · intro k inside
    rw [List.length_append, if_pos (by omega), List.getD_eq_default _ _ (by omega), late k inside]

theorem Spells.shorten (spells : Spells stop cells (front ++ back)) :
    Spells stop (fun k => if k = front.length then stop else cells k) front := by
  intro k inside
  dsimp only
  obtain early | rfl := Nat.lt_or_eq_of_le inside
  · rw [if_neg (by omega)]
    exact spells.early early
  · rw [if_pos rfl, List.getD_eq_default _ _ (Nat.le_refl _)]

theorem fill_spells (room : text.length < size) :
    ∃ cells', fill size cells 0 (text ++ [stop]) = some cells' ∧ Spells stop cells' text := by
  refine ⟨_, if_pos (by rw [List.length_append, List.length_singleton]; omega), ?_⟩
  intro k inside
  dsimp only
  rw [if_pos (Nat.zero_le _), Nat.sub_zero]
  obtain early | rfl := Nat.lt_or_eq_of_le inside
  · rw [List.getD_append _ _ _ _ early, List.getD_eq_getElem _ _ early, List.getD_eq_getElem _ _ early]
  · rw [List.getD_append_right _ _ _ _ (Nat.le_refl _), Nat.sub_self, List.getD_cons_zero, List.getD_eq_default _ _ (Nat.le_refl _)]

theorem Spells.read (spells : Spells stop cells (front ++ text ++ back)) :
    (List.range text.length).map (fun i => cells (front.length + i)) = text := by
  apply List.ext_getElem
  · rw [List.length_map, List.length_range]
  · intro k _ inside
    rw [List.getElem_map, List.getElem_range]
    rw [List.append_assoc] at spells
    rw [spells.late (by rw [List.length_append]; omega), List.getD_append _ _ _ _ inside, List.getD_eq_getElem _ _ inside]

end Parts

end Splices
