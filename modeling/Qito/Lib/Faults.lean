import Qito.Lib.Lists
import Mathlib.Data.List.Basic
import Mathlib.Tactic.Common

/-! Computations that end with a value unless a fault stops them. The rules say
when nothing faults, and carry an invariant through a loop. -/
namespace Faults

variable {ε α β σ : Type} {m : Except ε α} {f : α → Except ε β}

/-- No fault stops the computation. -/
def Returns (m : Except ε α) : Prop := ∃ a, m = .ok a

@[simp] theorem returns_pure (a : α) : Returns (pure a : Except ε α) ↔ True := iff_true_intro ⟨a, rfl⟩

@[simp] theorem returns_ok (a : α) : Returns (.ok a : Except ε α) ↔ True := iff_true_intro ⟨a, rfl⟩

@[simp] theorem returns_error (error : ε) : Returns (.error error : Except ε α) ↔ False := by
  simp [Returns]

theorem returns_bind : Returns (m >>= f) ↔ ∃ a, m = .ok a ∧ Returns (f a) := by
  cases m with
  | error e => exact ⟨fun ⟨b, run⟩ => absurd run nofun, fun ⟨a, run, _⟩ => absurd run nofun⟩
  | ok a =>
    constructor
    · exact fun run => ⟨a, rfl, run⟩
    · rintro ⟨a', same, run⟩
      cases Except.ok.inj same
      exact run

theorem bind_ok {b : β} : m >>= f = .ok b ↔ ∃ a, m = .ok a ∧ f a = .ok b := by
  cases m with
  | error e => exact ⟨fun run => absurd run nofun, fun ⟨a, run, _⟩ => absurd run nofun⟩
  | ok a =>
    constructor
    · exact fun run => ⟨a, rfl, run⟩
    · rintro ⟨a', same, run⟩
      cases Except.ok.inj same
      exact run

theorem returns_fold {g : σ → α → Except ε σ} {P : α → Prop} {xs : List α}
    (rounds : ∀ x ∈ xs, ∀ s, Returns (g s x) ↔ P x) (s : σ) : Returns (xs.foldlM g s) ↔ ∀ x ∈ xs, P x := by
  induction xs generalizing s with
  | nil => simp
  | cons x xs ih =>
    have later := ih fun y member => rounds y (List.mem_cons_of_mem _ member)
    rw [List.foldlM_cons, returns_bind, List.forall_mem_cons]
    constructor
    · rintro ⟨t, run, rest⟩
      exact ⟨(rounds x List.mem_cons_self s).mp ⟨t, run⟩, (later t).mp rest⟩
    · rintro ⟨here, rest⟩
      obtain ⟨t, run⟩ := (rounds x List.mem_cons_self s).mpr here
      exact ⟨t, run, (later t).mpr rest⟩

theorem fold_invariant {g : σ → α → Except ε σ} (Inv : List α → σ → Prop) {xs : List α}
    (round : ∀ before x after s, xs = before ++ x :: after → Inv before s → ∃ t, g s x = .ok t ∧ Inv (before ++ [x]) t)
    {s : σ} (start : Inv [] s) : ∃ t, xs.foldlM g s = .ok t ∧ Inv xs t := by
  have go (before after : List α) (s : σ) (whole : xs = before ++ after) (inv : Inv before s) :
      ∃ t, after.foldlM g s = .ok t ∧ Inv xs t := by
    induction after generalizing before s with
    | nil =>
      rw [List.append_nil] at whole
      exact ⟨s, rfl, whole ▸ inv⟩
    | cons x after ih =>
      obtain ⟨t, run, inv'⟩ := round before x after s whole inv
      obtain ⟨u, rest, last⟩ := ih (before ++ [x]) t (by rw [whole, List.append_assoc]; rfl) inv'
      exact ⟨u, by rw [List.foldlM_cons, run]; exact rest, last⟩
  exact go [] xs s rfl start

theorem fold_ok {g : σ → α → Except ε σ} (Inv : List α → σ → Prop) {xs : List α} {s t : σ}
    (round : ∀ before x s t, Inv before s → g s x = .ok t → Inv (before ++ [x]) t) (start : Inv [] s)
    (run : xs.foldlM g s = .ok t) : Inv xs t := by
  have go (before after : List α) (s : σ) (inv : Inv before s) (run : after.foldlM g s = .ok t) : Inv (before ++ after) t := by
    induction after generalizing before s with
    | nil =>
      cases Except.ok.inj run
      rwa [List.append_nil]
    | cons x after ih =>
      rw [List.foldlM_cons] at run
      obtain ⟨u, first, rest⟩ := bind_ok.mp run
      have last := ih (before ++ [x]) u (round before x s u inv first) rest
      rwa [List.append_assoc] at last
  exact go [] xs s start run

end Faults
