import Mathlib.Algebra.Group.Int.Defs
import Mathlib.Algebra.GroupWithZero.Nat
import Mathlib.Tactic.Common

/-! What every model here computes with: powers in a monoid, and statements about the
members of a list, which are decided along the list even where the type of the members
is finite. -/

instance (priority := high) decidableForallMem {α : Type} (p : α → Prop) [DecidablePred p] (xs : List α) :
    Decidable (∀ x, x ∈ xs → p x) := List.decidableBAll p xs

instance (priority := high) decidableExistsMem {α : Type} (p : α → Prop) [DecidablePred p] (xs : List α) :
    Decidable (∃ x, x ∈ xs ∧ p x) := List.decidableBEx p xs

instance lawfulBEqBytes : LawfulBEq (List UInt8) := inferInstance
