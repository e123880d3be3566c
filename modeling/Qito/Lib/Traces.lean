import Qito.Lib.Lists
import Mathlib.Data.List.Basic
import Mathlib.Tactic.Common

/-! Computations that leave a trace of events and end with a value or an error.
The rules say of a computation that all its events satisfy a predicate, and what
a loop leaves behind in terms of its single rounds. -/
namespace Traces

structure Traced (ε τ α : Type) where
  events : List τ
  result : Except ε α

variable {ε τ α β σ : Type}

instance : Monad (Traced ε τ) where
  pure a := ⟨[], .ok a⟩
  bind m f :=
    match m.result with
    | .ok a => ⟨m.events ++ (f a).events, (f a).result⟩
    | .error e => ⟨m.events, .error e⟩

def emit (event : τ) : Traced ε τ Unit := ⟨[event], .ok ()⟩

def fail (error : ε) : Traced ε τ α := ⟨[], .error error⟩

def ensure (condition : Bool) (error : ε) : Traced ε τ Unit := if condition then pure () else fail error

/-- A loop over xs with an accumulator. -/
def fold (f : σ → α → Traced ε τ σ) : σ → List α → Traced ε τ σ
  | s, [] => pure s
  | s, x :: xs => f s x >>= fun s => fold f s xs

/-- Every event satisfies P. -/
def Within (P : τ → Prop) (m : Traced ε τ α) : Prop := ∀ event ∈ m.events, P event

/-- The computation ends with this value. -/
def Ends (m : Traced ε τ α) (a : α) : Prop := m.result = .ok a

instance [DecidableEq α] (m : Traced ε τ α) (a : α) : Decidable (Ends m a) :=
  match run : m.result with
  | .ok b => decidable_of_iff (b = a) (by rw [Ends, run, Except.ok.injEq])
  | .error _ => isFalse (by rw [Ends, run]; exact nofun)

section Rules
variable {P : τ → Prop} {m : Traced ε τ α} {f : α → Traced ε τ β}

@[simp] theorem ends_pure (a b : α) : Ends (pure a : Traced ε τ α) b ↔ a = b := by
  change Except.ok a = Except.ok b ↔ a = b
  simp

@[simp] theorem ends_emit (event : τ) (u : Unit) : Ends (emit event : Traced ε τ Unit) u ↔ True :=
  iff_true_intro rfl

@[simp] theorem ends_fail (error : ε) (a : α) : Ends (fail error : Traced ε τ α) a ↔ False := by
  change Except.error error = Except.ok a ↔ False
  simp

@[simp] theorem ends_ensure (condition : Bool) (error : ε) (u : Unit) :
    Ends (ensure condition error : Traced ε τ Unit) u ↔ condition = true := by
  cases condition
  · exact (ends_fail error u).trans (by simp)
  · exact iff_of_true rfl rfl

@[simp] theorem ends_bind (b : β) : Ends (m >>= f) b ↔ ∃ a, Ends m a ∧ Ends (f a) b := by
  change (match m.result with
    | .ok a => (⟨m.events ++ (f a).events, (f a).result⟩ : Traced ε τ β)
    | .error e => ⟨m.events, .error e⟩).result = _ ↔ _
  simp only [Ends]
  split
  · rename_i a ends
    simp [ends]
  · rename_i e ends
    simp [ends]

@[simp] theorem within_pure (a : α) : Within P (pure a : Traced ε τ α) ↔ True :=
  iff_true_intro (List.forall_mem_nil P)

@[simp] theorem within_fail (error : ε) : Within P (fail error : Traced ε τ α) ↔ True :=
  iff_true_intro (List.forall_mem_nil P)

@[simp] theorem within_emit (event : τ) : Within P (emit event : Traced ε τ Unit) ↔ P event :=
  List.forall_mem_singleton

@[simp] theorem within_ensure (condition : Bool) (error : ε) :
    Within P (ensure condition error : Traced ε τ Unit) ↔ True := by
  cases condition
  · exact within_fail error
  · exact within_pure ()

@[simp] theorem within_bind : Within P (m >>= f) ↔ Within P m ∧ ∀ a, Ends m a → Within P (f a) := by
  change (∀ event ∈ (match m.result with
    | .ok a => (⟨m.events ++ (f a).events, (f a).result⟩ : Traced ε τ β)
    | .error e => ⟨m.events, .error e⟩).events, P event) ↔ _
  simp only [Ends, Within]
  split
  · rename_i a ends
    simp [ends, or_imp, forall_and]
  · rename_i e ends
    simp [ends]

end Rules

/-- The computation ends with a value in Q, and all its events satisfy P just when C. -/
def Runs (P : τ → Prop) (m : Traced ε τ α) (C : Prop) (Q : α → Prop) : Prop := (∃ a, Ends m a ∧ Q a) ∧ (Within P m ↔ C)

section Running
variable {P : τ → Prop} {m : Traced ε τ α} {f : α → Traced ε τ β} {C D : Prop} {Q : α → Prop} {R : β → Prop} {a b : α}

theorem Ends.unique (one : Ends m a) (other : Ends m b) : a = b := by
  have same : Except.ok a = Except.ok b := one.symm.trans other
  exact Except.ok.inj same

theorem runs_pure (holds : Q a) : Runs P (pure a : Traced ε τ α) True Q :=
  ⟨⟨a, (ends_pure a a).mpr rfl, holds⟩, within_pure a⟩

theorem runs_emit {Q : Unit → Prop} (event : τ) (holds : Q ()) : Runs P (emit event : Traced ε τ Unit) (P event) Q :=
  ⟨⟨(), (ends_emit event ()).mpr trivial, holds⟩, within_emit event⟩

theorem runs_ite {c : Prop} [Decidable c] {m m' : Traced ε τ α} (yes : c → Runs P m C Q) (no : ¬ c → Runs P m' C Q) :
    Runs P (if c then m else m') C Q := by
  by_cases holds : c
  · rw [if_pos holds]
    exact yes holds
  · rw [if_neg holds]
    exact no holds

theorem Runs.bind_value {D : α → Prop} (first : Runs P m C Q) (second : ∀ a, Q a → Runs P (f a) (D a) R) :
    Runs P (m >>= f) (C ∧ ∀ a, Ends m a → D a) R := by
  obtain ⟨⟨a, ends, holds⟩, within⟩ := first
  obtain ⟨⟨b, later, result⟩, rest⟩ := second a holds
  refine ⟨⟨b, (ends_bind b).mpr ⟨a, ends, later⟩, result⟩, ?_⟩
  rw [within_bind, within]
  apply and_congr_right
  intro _
  constructor
  · intro all c ends'
    cases ends.unique ends'
    exact rest.mp (all a ends)
  · intro all c ends'
    cases ends.unique ends'
    exact rest.mpr (all a ends)

theorem Runs.bind (first : Runs P m C Q) (second : ∀ a, Q a → Runs P (f a) D R) : Runs P (m >>= f) (C ∧ D) R := by
  obtain ⟨result, within⟩ := first.bind_value second
  obtain ⟨⟨a, ends, -⟩, -⟩ := first
  refine ⟨result, within.trans (and_congr_right fun _ => ?_)⟩
  exact ⟨fun all => all a ends, fun holds _ _ => holds⟩

theorem Runs.follow (first : Runs P m True Q) (second : ∀ a, Q a → Runs P (f a) D R) : Runs P (m >>= f) D R := by
  obtain ⟨result, within⟩ := first.bind second
  rw [true_and] at within
  exact ⟨result, within⟩

theorem Runs.lead (first : Runs P m C Q) (second : ∀ a, Q a → Runs P (f a) True R) : Runs P (m >>= f) C R := by
  obtain ⟨result, within⟩ := first.bind second
  rw [and_true] at within
  exact ⟨result, within⟩

theorem Runs.congr (runs : Runs P m C Q) (same : C ↔ D) : Runs P m D Q := ⟨runs.1, runs.2.trans same⟩

theorem Runs.mono {Q' : α → Prop} (runs : Runs P m C Q) (weaker : ∀ a, Q a → Q' a) : Runs P m C Q' := by
  obtain ⟨⟨a, ends, holds⟩, within⟩ := runs
  exact ⟨⟨a, ends, weaker a holds⟩, within⟩

end Running

section Loops
variable {P : τ → Prop} {f : σ → α → Traced ε τ σ} {s s' : σ} {xs : List α}

theorem ends_fold_rounds (ends : Ends (fold f s xs) s') : ∀ x ∈ xs, ∃ before after, Ends (f before x) after := by
  induction xs generalizing s with
  | nil => simp
  | cons x xs ih =>
    obtain ⟨next, first, rest⟩ := (ends_bind s').mp ends
    intro y member
    rcases List.mem_cons.mp member with rfl | later
    · exact ⟨s, next, first⟩
    · exact ih rest y later

theorem fold_total {I : List α → σ → Prop} (start : I [] s)
    (step : ∀ done, ∀ x ∈ xs, ∀ s, I done s → ∃ s', Ends (f s x) s' ∧ I (done ++ [x]) s') :
    ∃ s', Ends (fold f s xs) s' ∧ I xs s' := by
  induction xs generalizing s I with
  | nil => exact ⟨s, (ends_pure s s).mpr rfl, start⟩
  | cons x xs ih =>
    obtain ⟨next, first, kept⟩ := step [] x List.mem_cons_self s start
    have later := @ih next (fun done s => I (x :: done) s) kept fun done y member s inv =>
      step (x :: done) y (List.mem_cons_of_mem _ member) s inv
    obtain ⟨s', rest, whole⟩ := later
    exact ⟨s', (ends_bind s').mpr ⟨next, first, rest⟩, whole⟩

variable {Q R : α → Prop}

theorem ends_fold (rounds : ∀ s x, (∃ s', Ends (f s x) s') ↔ R x) :
    (∃ s', Ends (fold f s xs) s') ↔ ∀ x ∈ xs, R x := by
  induction xs generalizing s with
  | nil => exact iff_of_true ⟨s, (ends_pure s s).mpr rfl⟩ (List.forall_mem_nil R)
  | cons x xs ih =>
    rw [List.forall_mem_cons, ← rounds s x]
    constructor
    · rintro ⟨s', ends⟩
      obtain ⟨next, first, rest⟩ := (ends_bind s').mp ends
      exact ⟨⟨next, first⟩, ih.mp ⟨s', rest⟩⟩
    · rintro ⟨⟨next, first⟩, later⟩
      obtain ⟨s', rest⟩ := (ih (s := next)).mpr later
      exact ⟨s', (ends_bind s').mpr ⟨next, first, rest⟩⟩

theorem within_fold (events : ∀ s x, Within P (f s x) ↔ Q x) (rounds : ∀ s x, (∃ s', Ends (f s x) s') ↔ R x) :
    Within P (fold f s xs) ↔ ∀ before x after, xs = before ++ x :: after → (∀ y ∈ before, R y) → Q x := by
  induction xs generalizing s with
  | nil => exact iff_of_true (List.forall_mem_nil P) (by simp)
  | cons x xs ih =>
    rw [fold, within_bind, events]
    constructor
    · rintro ⟨now, later⟩ before y after whole reached
      cases before with
      | nil =>
        cases whole
        exact now
      | cons first before =>
        cases whole
        obtain ⟨next, ends⟩ := (rounds s x).mpr (reached x (List.mem_cons_self ..))
        exact ih.mp (later next ends) before y after rfl fun z member => reached z (List.mem_cons_of_mem _ member)
    · intro all
      refine ⟨all [] x xs rfl (List.forall_mem_nil R), fun next ends => ih.mpr fun before y after whole reached => ?_⟩
      refine all (x :: before) y after (by rw [whole, List.cons_append]) ?_
      rw [List.forall_mem_cons]
      exact ⟨(rounds s x).mp ⟨next, ends⟩, reached⟩

theorem within_fold_range {R Q : Nat → Prop} {f : σ → Nat → Traced ε τ σ} {n : Nat}
    (events : ∀ s i, Within P (f s i) ↔ Q i) (rounds : ∀ s i, (∃ s', Ends (f s i) s') ↔ R i) :
    Within P (fold f s (List.range n)) ↔ ∀ i < n, (∀ j < i, R j) → Q i := by
  rw [within_fold events rounds]
  constructor
  · intro all i inside reached
    have whole : List.range n = List.range i ++ i :: (List.range (n - (i + 1))).map (i + 1 + ·) := by
      have total : n = i + 1 + (n - (i + 1)) := by omega
      conv_lhs => rw [total, List.range_add, List.range_succ, List.append_assoc]
      rfl
    exact all _ i _ whole fun j member => reached j (List.mem_range.mp member)
  · intro all before i after whole reached
    have place : before.length = i := by
      have here := congrArg (·[before.length]?) whole
      have long := congrArg List.length whole
      simp only [List.length_range, List.length_append, List.length_cons] at long
      rw [List.getElem?_append_right (Nat.le_refl _), Nat.sub_self, List.getElem?_cons_zero,
        List.getElem?_range (by omega)] at here
      exact Option.some.inj here
    have front : before = List.range i := by
      have taken := congrArg (List.take before.length) whole
      have long := congrArg List.length whole
      simp only [List.length_range, List.length_append, List.length_cons] at long
      rw [List.take_left, List.take_range, Nat.min_eq_left (by omega), place] at taken
      exact taken.symm
    subst front
    refine all i ?_ fun j earlier => reached j (List.mem_range.mpr earlier)
    have member : i ∈ List.range n := by
      rw [whole]
      exact List.mem_append_right _ (List.mem_cons_self ..)
    exact List.mem_range.mp member

theorem within_fold_of_rounds (events : ∀ s, ∀ x ∈ xs, Within P (f s x)) : Within P (fold f s xs) := by
  induction xs generalizing s with
  | nil => exact List.forall_mem_nil P
  | cons x xs ih =>
    rw [fold, within_bind]
    exact ⟨events s x (List.mem_cons_self ..), fun next _ => ih fun s y member => events s y (List.mem_cons_of_mem _ member)⟩

end Loops
end Traces
