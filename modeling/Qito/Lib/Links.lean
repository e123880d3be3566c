import Qito.Lib.Lists
import Mathlib.Data.List.Nodup
import Mathlib.Tactic.Common

/-! Singly linked lists whose links live in the nodes. A path is determined by
its start, so a path that ends has no cycle, and a list operation is a change of
the links of a few nodes. -/
namespace Links

variable {α : Type*} {next next' : α → Option α}

/-- Following next from head visits the nodes xs and arrives at stop. -/
def Route (next : α → Option α) : Option α → List α → Option α → Prop
  | head, [], stop => head = stop
  | head, x :: xs, stop => head = some x ∧ Route next (next x) xs stop

theorem route_append {head stop : Option α} {xs ys : List α} :
    Route next head (xs ++ ys) stop ↔ ∃ mid, Route next head xs mid ∧ Route next mid ys stop := by
  induction xs generalizing head with
  | nil => simp [Route]
  | cons x xs ih => simp only [List.cons_append, Route, ih, and_assoc, exists_and_left]

theorem Route.frame {head stop : Option α} {xs : List α} (same : ∀ x ∈ xs, next' x = next x)
    (path : Route next head xs stop) : Route next' head xs stop := by
  induction xs generalizing head with
  | nil => exact path
  | cons x xs ih =>
    refine ⟨path.1, ?_⟩
    rw [same x List.mem_cons_self]
    exact ih (fun y member => same y (List.mem_cons_of_mem _ member)) path.2

theorem Route.unique {head : Option α} {xs ys : List α} (left : Route next head xs none)
    (right : Route next head ys none) : xs = ys := by
  induction xs generalizing head ys with
  | nil =>
    cases ys with
    | nil => rfl
    | cons y ys => exact absurd (left.symm.trans right.1) (by simp)
  | cons x xs ih =>
    cases ys with
    | nil => exact absurd (right.symm.trans left.1) (by simp)
    | cons y ys =>
      cases Option.some.inj (left.1.symm.trans right.1)
      rw [ih left.2 right.2]

theorem Route.nodup {head : Option α} {xs : List α} (path : Route next head xs none) : xs.Nodup := by
  induction xs generalizing head with
  | nil => exact List.nodup_nil
  | cons x xs ih =>
    refine List.nodup_cons.mpr ⟨?_, ih path.2⟩
    intro again
    obtain ⟨before, after, eq⟩ := List.append_of_mem again
    have rest := path.2
    rw [eq] at rest
    obtain ⟨mid, -, back⟩ := route_append.mp rest
    have same := congrArg List.length (back.2.unique path.2)
    rw [eq, List.length_append, List.length_cons] at same
    omega

theorem Route.head_eq {head : Option α} {xs : List α} (path : Route next head xs none) :
    head = xs.head? := by
  cases xs with
  | nil => exact path
  | cons x xs => exact path.1

theorem Route.snoc {head stop : Option α} {xs : List α} {t x : α}
    (path : Route next head (xs ++ [t]) none) (same : ∀ y ∈ xs, next' y = next y)
    (link : next' t = some x) (last : next' x = stop) : Route next' head (xs ++ [t, x]) stop := by
  obtain ⟨mid, front, back⟩ := route_append.mp path
  exact route_append.mpr ⟨mid, front.frame same, back.1, link, last⟩

theorem Route.unlink {head stop : Option α} {xs ys : List α} {p t : α}
    (path : Route next head (xs ++ p :: t :: ys) stop) (link : next' p = next t)
    (front : ∀ y ∈ xs, next' y = next y) (back : ∀ y ∈ ys, next' y = next y) :
    Route next' head (xs ++ p :: ys) stop := by
  obtain ⟨mid, before, here, -, after⟩ := route_append.mp path
  refine route_append.mpr ⟨mid, before.frame front, here, ?_⟩
  rw [link]
  exact after.frame back

end Links
