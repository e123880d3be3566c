import Qito.Lib.Lists
import Mathlib.Data.List.Infix

/-! The first place where a text contains another. -/
namespace Search

section Infixes
variable {α : Type} {needle front back : List α} {c : α}

theorem prefix_before (leads : needle <+: front ++ c :: back) (apart : c ∉ needle) : needle <+: front := by
  induction front generalizing needle with
  | nil =>
    rcases List.prefix_cons_iff.mp leads with rfl | ⟨rest, rfl, -⟩
    · exact List.nil_prefix
    · exact absurd List.mem_cons_self apart
  | cons d front ih =>
    rcases List.prefix_cons_iff.mp leads with rfl | ⟨rest, rfl, shorter⟩
    · exact List.nil_prefix
    · have deeper := ih shorter fun member => apart (List.mem_cons_of_mem _ member)
      exact List.prefix_cons_iff.mpr (.inr ⟨rest, rfl, deeper⟩)

theorem infix_around (within : needle <:+: front ++ c :: back) (apart : c ∉ needle) :
    needle <:+: front ∨ needle <:+: back := by
  induction front with
  | nil =>
    rcases List.infix_cons_iff.mp within with leads | behind
    · have none_ := @prefix_before _ _ [] _ _ leads apart
      exact .inl none_.isInfix
    · exact .inr behind
  | cons d front ih =>
    rcases List.infix_cons_iff.mp within with leads | behind
    · exact .inl (prefix_before leads apart).isInfix
    · exact (ih behind).imp_left fun inside => List.infix_cons_iff.mpr (.inr inside)

end Infixes

variable {α : Type} [DecidableEq α]

/-- Where needle first occurs in a text; the end of the text is no place. -/
def find (needle : List α) : List α → Option Nat
  | [] => none
  | c :: rest => if needle.isPrefixOf (c :: rest) then some 0 else (find needle rest).map (· + 1)

variable {needle text front back : List α} {i : Nat} {c : α}

theorem find_some (found : find needle text = some i) :
    ∃ front back, text = front ++ (needle ++ back) ∧ front.length = i := by
  induction text generalizing i with
  | nil => cases found
  | cons c rest ih =>
    unfold find at found
    split at found
    · rename_i leads
      obtain ⟨back, whole⟩ := List.isPrefixOf_iff_prefix.mp leads
      cases found
      exact ⟨[], back, whole.symm, rfl⟩
    · obtain ⟨j, later, rfl⟩ := Option.map_eq_some_iff.mp found
      obtain ⟨front, back, rfl, rfl⟩ := ih later
      exact ⟨c :: front, back, rfl, rfl⟩

theorem find_isSome (filled : needle ≠ []) : (find needle text).isSome = true ↔ needle <:+: text := by
  induction text with
  | nil => simp [find, filled]
  | cons c rest ih =>
    unfold find
    rw [List.infix_cons_iff, ← List.isPrefixOf_iff_prefix]
    split
    · rename_i leads
      simp [leads]
    · rename_i trails
      rw [Option.isSome_map, ih]
      simp [trails]

theorem find_none (filled : needle ≠ []) : find needle text = none ↔ ¬ needle <:+: text := by
  rw [← find_isSome filled, Option.not_isSome_iff_eq_none]

theorem find_first (once : c ∉ needle) (before : ¬ c :: needle <:+: front) :
    find (c :: needle) (front ++ (c :: needle ++ back)) = some front.length := by
  induction front with
  | nil =>
    have leads : (c :: needle).isPrefixOf ([] ++ (c :: needle ++ back)) = true :=
      List.isPrefixOf_iff_prefix.mpr (List.prefix_append _ _)
    exact if_pos leads
  | cons d front ih =>
    rw [List.infix_cons_iff, not_or] at before
    have trails : ¬ (c :: needle).isPrefixOf (d :: (front ++ (c :: needle ++ back))) = true := by
      intro leads
      obtain ⟨rest, whole⟩ := List.isPrefixOf_iff_prefix.mp leads
      obtain ⟨rfl, same⟩ := List.cons.inj whole
      rcases List.append_eq_append_iff.mp same with ⟨more, rfl, -⟩ | ⟨more, rfl, tail⟩
      · exact before.1 (List.prefix_append _ _)
      · cases more with
        | nil => exact before.1 (by simp)
        | cons e more =>
          obtain ⟨rfl, -⟩ := List.cons.inj tail
          exact once (List.mem_append_right _ List.mem_cons_self)
    rw [List.cons_append, find, if_neg trails, ih before.2]
    rfl

end Search
