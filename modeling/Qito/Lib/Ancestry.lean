import Qito.Lib.Lists
import Mathlib.Logic.Relation

/-! Trees given by parent links. Moving a node keeps every way up to the root
exactly when its new parent does not lie below it. -/
namespace Ancestry

variable {α : Type*} {parent parent' : α → Option α}

/-- Following parent links from a arrives at b. -/
def Above (parent : α → Option α) (a b : α) : Prop :=
  Relation.ReflTransGen (fun x y => parent x = some y) a b

theorem Above.frame {a b : α} (up : Above parent a b) (P : α → Prop)
    (keep : ∀ x, P x → parent' x = parent x) (closed : ∀ x y, P x → parent x = some y → P y)
    (start : P a) : Above parent' a b := by
  induction up using Relation.ReflTransGen.head_induction_on with
  | refl => exact Relation.ReflTransGen.refl
  | head link _ ih =>
    have same := keep _ start
    exact Relation.ReflTransGen.head (same.trans link) (ih (closed _ _ start link))

theorem Above.reparent {a n d root : α} (up : Above parent a root)
    (keep : ∀ x, x ≠ n → parent' x = parent x) (link : parent' n = some d)
    (outside : ¬ Above parent d n) (top : Above parent d root) : Above parent' a root := by
  have moved : Above parent' d root := by
    refine top.frame (fun x => ¬ Above parent x n) ?_ ?_ outside
    · intro x apart
      apply keep
      rintro rfl
      exact apart Relation.ReflTransGen.refl
    · intro x y apart step below
      exact apart (Relation.ReflTransGen.head step below)
  induction up using Relation.ReflTransGen.head_induction_on with
  | refl => exact Relation.ReflTransGen.refl
  | @head x y step _ ih =>
    by_cases here : x = n
    · subst x
      exact Relation.ReflTransGen.head link moved
    · exact Relation.ReflTransGen.head ((keep x here).trans step) ih

end Ancestry
