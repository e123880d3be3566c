import Qito.Lib.Lists
import Mathlib.Tactic.Common

/-! Calls that change a state and make calls of their own. A call has no outcome
when its calls nest deeper than the depth it is given. The rules say what holds
of every outcome, that there is one, and that there is none; each follows the
call from its first step to its last. -/
namespace Nesting

/-- A call on a state σ. -/
def Call (σ α : Type) := σ → Option (α × σ)

variable {σ α β ι : Type}

instance : Monad (Call σ) where
  pure a := fun s => some (a, s)
  bind m f := fun s => (m s).bind fun r => f r.1 r.2

def look (f : σ → α) : Call σ α := fun s => some (f s, s)

def update (f : σ → σ) : Call σ Unit := fun s => some ((), f s)

/-- A loop over a list. -/
def each (f : α → Call σ Unit) : List α → Call σ Unit
  | [] => pure ()
  | x :: xs => f x >>= fun _ => each f xs

/-- The body with its calls to itself, nested at most this deep. -/
def nest (body : (ι → Call σ α) → ι → Call σ α) : Nat → ι → Call σ α
  | 0 => fun _ _ => none
  | depth + 1 => body (nest body depth)

/-- Q holds of the outcome; whether there must be one is left open. -/
def After (must : Prop) (m : Call σ α) (s : σ) (Q : α → σ → Prop) : Prop :=
  match m s with
  | none => ¬ must
  | some r => Q r.1 r.2

/-- There is an outcome. -/
def Returns (m : Call σ α) (s : σ) : Prop := ∃ r, m s = some r

/-- There is no outcome. -/
def Diverges (m : Call σ α) (s : σ) : Prop := m s = none

section Rules
variable {must : Prop} {m : Call σ α} {f : α → Call σ β} {s : σ} {P Q : α → σ → Prop} {R : β → σ → Prop}

@[simp] theorem after_pure (a : α) : After must (pure a : Call σ α) s Q ↔ Q a s := Iff.rfl

@[simp] theorem after_none : After must (fun _ => none : Call σ α) s Q ↔ ¬ must := Iff.rfl

@[simp] theorem after_look (g : σ → α) : After must (look g) s Q ↔ Q (g s) s := Iff.rfl

@[simp] theorem after_update (g : σ → σ) {Q : Unit → σ → Prop} : After must (update g) s Q ↔ Q () (g s) := Iff.rfl

@[simp] theorem after_bind : After must (m >>= f) s R ↔ After must m s fun a t => After must (f a) t R := by
  change (match (m s).bind fun r => f r.1 r.2 with | none => ¬ must | some r => R r.1 r.2) ↔
    match m s with | none => ¬ must | some r => After must (f r.1) r.2 R
  cases m s with
  | none => exact Iff.rfl
  | some r => exact Iff.rfl

theorem After.mono (holds : After must m s P) (weaker : ∀ a t, P a t → Q a t) : After must m s Q := by
  unfold After at *
  cases run : m s with
  | none => simpa [run] using holds
  | some r => exact weaker r.1 r.2 (by simpa [run] using holds)

theorem After.and (left : After must m s P) (right : After must m s Q) : After must m s fun a t => P a t ∧ Q a t := by
  unfold After at *
  cases run : m s with
  | none => simpa [run] using left
  | some r => exact ⟨by simpa [run] using left, by simpa [run] using right⟩

theorem after_false : After False m s Q ↔ ∀ a t, m s = some (a, t) → Q a t := by
  unfold After
  cases m s with
  | none => simp
  | some r => exact ⟨fun holds a t run => by cases Option.some.inj run; exact holds, fun all => all r.1 r.2 rfl⟩

theorem after_any (all : ∀ a t, Q a t) : After False m s Q := after_false.mpr fun a t _ => all a t

theorem after_true : After True m s Q ↔ ∃ a t, m s = some (a, t) ∧ Q a t := by
  unfold After
  cases m s with
  | none => simp
  | some r => exact ⟨fun holds => ⟨r.1, r.2, rfl, holds⟩, fun ⟨a, t, run, holds⟩ => by cases Option.some.inj run; exact holds⟩

theorem returns_iff : Returns m s ↔ After True m s fun _ _ => True := by
  unfold Returns After
  cases m s with
  | none => simp
  | some r => simp

theorem diverges_iff : Diverges m s ↔ After False m s fun _ _ => False := by
  unfold Diverges After
  cases m s with
  | none => simp
  | some r => simp

theorem diverges_bind : Diverges (m >>= f) s ↔ After False m s fun a t => Diverges (f a) t := by
  simp only [diverges_iff, after_bind]

theorem Diverges.bind (lost : Diverges m s) : Diverges (m >>= f) s :=
  diverges_bind.mpr ((diverges_iff.mp lost).mono fun _ _ => False.elim)

theorem Diverges.not_returns (lost : Diverges m s) : ¬ Returns m s := by
  rintro ⟨r, run⟩
  exact absurd (lost.symm.trans run) nofun

end Rules

-- from here on the rules above are all that is known of it
attribute [irreducible] After

/-- What holds of a call that never returns, and of the body once it holds of its
nested calls, holds at every depth. -/
theorem nest_induct {body : (ι → Call σ α) → ι → Call σ α} (P : (ι → Call σ α) → Prop) (bottom : P fun _ _ => none)
    (round : ∀ call, P call → P (body call)) (depth : Nat) : P (nest body depth) := by
  induction depth with
  | zero => exact bottom
  | succ depth ih => exact round _ ih

end Nesting
