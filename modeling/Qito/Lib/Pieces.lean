import Qito.Lib.Lists
import Mathlib.Tactic.Common

/-! A sequence that is laid out piece by piece. Every place of the whole is in exactly
one of the pieces. -/
namespace Pieces

variable {α β : Type*} {f : β → List α} {ms : List β} {m m' : β} {k k' n j j' : Nat} {a : α}

/-- Where piece k starts. -/
def start (f : β → List α) (ms : List β) (k : Nat) : Nat := ((ms.take k).flatMap f).length

theorem piece_of (here : (ms.flatMap f)[n]? = some a) :
    ∃ k m j, ms[k]? = some m ∧ (f m)[j]? = some a ∧ start f ms k + j = n := by
  induction ms generalizing n with
  | nil => simp at here
  | cons m ms ih =>
    rw [List.flatMap_cons, List.getElem?_append] at here
    split at here
    · exact ⟨0, m, n, rfl, here, by simp [start]⟩
    · obtain ⟨k, m', j, entry, inside, place⟩ := ih here
      refine ⟨k + 1, m', j, entry, inside, ?_⟩
      rw [start] at place ⊢
      rw [List.take_succ_cons, List.flatMap_cons, List.length_append]
      omega

theorem start_next (entry : ms[k]? = some m) (later : k < k') : start f ms k + (f m).length ≤ start f ms k' := by
  have whole : ms.take (k + 1) = ms.take k ++ [m] := by rw [List.take_add_one, entry, Option.toList_some]
  obtain ⟨more, parts⟩ : ms.take (k + 1) <+: ms.take k' := List.take_prefix_take_left later
  rw [start, start, ← parts, whole]
  simp only [List.flatMap_append, List.length_append, List.flatMap_cons, List.flatMap_nil, List.append_nil]
  omega

theorem piece_unique (entry : ms[k]? = some m) (entry' : ms[k']? = some m') (inside : j < (f m).length)
    (inside' : j' < (f m').length) (same : start f ms k + j = start f ms k' + j') : k = k' := by
  rcases Nat.lt_trichotomy k k' with before | equal | after
  · have apart := start_next (f := f) entry before
    omega
  · exact equal
  · have apart := start_next (f := f) entry' after
    omega

end Pieces
