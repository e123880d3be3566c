import Qito.Lib.Lists
import Mathlib.Data.Nat.Init
import Mathlib.Tactic.Common

/-! Spans that follow on each other. A position is the number of a span and an offset
in it; it stands for one number, and lexicographic order is the order of the numbers. -/
namespace Spans

/-- Where span n starts. -/
def start (len : Nat → Nat) : Nat → Nat
  | 0 => 0
  | n + 1 => start len n + len n

variable {len : Nat → Nat} {m n d e : Nat}

theorem start_mono (le : m ≤ n) : start len m ≤ start len n := by
  induction n with
  | zero =>
    obtain rfl := Nat.le_zero.mp le
    exact Nat.le_refl _
  | succ n ih =>
    rcases Nat.of_le_succ le with before | rfl
    · exact Nat.le_trans (ih before) (Nat.le_add_right _ _)
    · exact Nat.le_refl _

theorem before_next (before : m < n) (inside : d < len m) : start len m + d < start len n := by
  have next : start len (m + 1) ≤ start len n := start_mono before
  have here : start len (m + 1) = start len m + len m := rfl
  omega

theorem place_lt (inside : d < len m) (before : m < n ∨ m = n ∧ d < e) : start len m + d < start len n + e := by
  rcases before with before | ⟨rfl, less⟩
  · exact Nat.lt_of_lt_of_le (before_next before inside) (Nat.le_add_right _ _)
  · omega

theorem place_unique (inside : d < len m) (inside' : e < len n) (same : start len m + d = start len n + e) : m = n ∧ d = e := by
  rcases Nat.lt_trichotomy m n with before | rfl | after
  · have less := @place_lt len m n d e inside (.inl before)
    omega
  · exact ⟨rfl, by omega⟩
  · have less := @place_lt len n m e d inside' (.inl after)
    omega

theorem start_le {bound : Nat} (short : ∀ i < n, len i ≤ bound) : start len n ≤ bound * n := by
  induction n with
  | zero => exact Nat.zero_le _
  | succ n ih =>
    have before := ih fun i low => short i (Nat.lt_succ_of_lt low)
    have last := short n (Nat.lt_succ_self n)
    rw [start, Nat.mul_succ]
    omega

end Spans
