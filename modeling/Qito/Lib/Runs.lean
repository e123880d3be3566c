import Qito.Lib.Lists
import Mathlib.Tactic.Common

/-! Runs of a transition system. A property of every reachable state is shown by
a step lemma and the invariant rule; a property of what a run returns is shown
by a simulation and the rule for outputs. -/
namespace Runs

section Reachability
variable {σ : Type*} (initial : σ → Prop) (step : σ → σ → Prop)

inductive Reachable : σ → Prop where
  | start {s : σ} (begins : initial s) : Reachable s
  | next {s t : σ} (before : Reachable s) (moves : step s t) : Reachable t

variable {initial step} (invariant : σ → Prop)

theorem Reachable.induct (base : ∀ s, initial s → invariant s)
    (preserved : ∀ s t, invariant s → step s t → invariant t) {s : σ}
    (reached : Reachable initial step s) : invariant s := by
  induction reached with
  | start begins => exact base _ begins
  | next _ moves ih => exact preserved _ _ ih moves

end Reachability
end Runs
