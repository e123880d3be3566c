import Qito.Lib.Lists
import Mathlib.Data.List.Induction
import Mathlib.Data.Set.Basic
import Mathlib.Tactic.Common

/-! Tries kept in a store: a step leads from a node along an index to a child. As
long as no two paths of interest lead to one node, a change at one node and index
is seen on the paths through it and on no others. -/
namespace Tries

variable {α ι : Type*}

/-- The node at the end of a path. -/
def follow (step : α → ι → Option α) (root : α) : List ι → Option α
  | [] => some root
  | i :: rest => (step root i).bind fun child => follow step child rest

section Follow
variable {step step' : α → ι → Option α} {root a b : α} {p q : List ι} {i : ι}

theorem follow_append (step : α → ι → Option α) (root : α) (p q : List ι) :
    follow step root (p ++ q) = (follow step root p).bind fun a => follow step a q := by
  induction p generalizing root with
  | nil => rfl
  | cons i rest ih =>
    simp only [List.cons_append, follow, Option.bind_assoc]
    cases step root i with
    | none => rfl
    | some child => exact ih child

theorem follow_concat (step : α → ι → Option α) (root : α) (p : List ι) (i : ι) :
    follow step root (p ++ [i]) = (follow step root p).bind fun a => step a i := by
  rw [follow_append]
  congr 1
  funext a
  simp [follow]

theorem follow_concat_some : follow step root (p ++ [i]) = some b ↔ ∃ a, follow step root p = some a ∧ step a i = some b := by
  rw [follow_concat, Option.bind_eq_some_iff]

end Follow

section Unshared
variable (step step' : α → ι → Option α) (root : α) (paths : Set (List ι))

/-- Some path of interest leads to the node. -/
def Reached (a : α) : Prop := ∃ p ∈ paths, follow step root p = some a

/-- No two paths of interest lead to the same node. -/
def Unshared : Prop := ∀ p ∈ paths, ∀ q ∈ paths, ∀ a, follow step root p = some a → follow step root q = some a → p = q

/-- With a path come the paths it extends. -/
def PrefixClosed : Prop := ∀ p i, p ++ [i] ∈ paths → p ∈ paths

variable {step step' root paths} {a b : α} {p q : List ι} {i : ι}

theorem PrefixClosed.front (closed : PrefixClosed paths) (member : p ++ q ∈ paths) : p ∈ paths := by
  induction q using List.reverseRecOn with
  | nil => simpa using member
  | append_singleton q i ih =>
    rw [← List.append_assoc] at member
    exact ih (closed _ i member)

theorem follow_mono (closed : PrefixClosed paths) (larger : ∀ c j d, Reached step root paths c → step c j = some d → step' c j = some d)
    (member : p ∈ paths) (ends : follow step root p = some a) : follow step' root p = some a := by
  induction p using List.reverseRecOn generalizing a with
  | nil => exact ends
  | append_singleton p i ih =>
    obtain ⟨c, front, last⟩ := follow_concat_some.mp ends
    have inside := closed p i member
    exact follow_concat_some.mpr ⟨c, ih inside front, larger c i a ⟨p, inside, front⟩ last⟩

theorem follow_congr (closed : PrefixClosed paths)
    (same : ∀ q j, q ++ [j] ∈ paths → ∀ c, follow step root q = some c → step' c j = step c j) (member : p ∈ paths) :
    follow step' root p = follow step root p := by
  induction p using List.reverseRecOn with
  | nil => rfl
  | append_singleton p i ih =>
    rw [follow_concat, follow_concat, ih (closed p i member)]
    cases ends : follow step root p with
    | none => rfl
    | some c => exact same p i member c ends

theorem follow_elsewhere (closed : PrefixClosed paths) (unshared : Unshared step root paths) (inside : p ∈ paths)
    (at_ : follow step root p = some a)
    (same : ∀ c j, Reached step root paths c → ¬ (c = a ∧ j = i) → step' c j = step c j)
    (member : q ∈ paths) (apart : ¬ p ++ [i] <+: q) : follow step' root q = follow step root q := by
  induction q using List.reverseRecOn with
  | nil => rfl
  | append_singleton q j ih =>
    have front := closed q j member
    rw [follow_concat, follow_concat, ih front fun below => apart (below.trans (List.prefix_append q [j]))]
    cases before : follow step root q with
    | none => rfl
    | some c =>
      apply same c j ⟨q, front, before⟩
      rintro ⟨rfl, rfl⟩
      rw [unshared p inside q front c at_ before] at apart
      exact apart (List.prefix_refl _)

theorem follow_graft [DecidableEq ι] (closed : PrefixClosed paths) (unshared : Unshared step root paths) (inside : p ∈ paths)
    (at_ : follow step root p = some a) (absent : step a i = none) (new : step' a i = some b) (leaf : ∀ j, step' b j = none)
    (same : ∀ c j, Reached step root paths c → ¬ (c = a ∧ j = i) → step' c j = step c j) (member : q ∈ paths) :
    follow step' root q = if q = p ++ [i] then some b else follow step root q := by
  have still : follow step' root p = some a := by
    rw [← at_]
    refine follow_elsewhere closed unshared inside at_ same inside fun below => ?_
    have longer := below.length_le
    rw [List.length_append, List.length_singleton] at longer
    omega
  by_cases through : p ++ [i] <+: q
  · obtain ⟨rest, rfl⟩ := through
    have arrives : follow step' root (p ++ [i]) = some b := follow_concat_some.mpr ⟨a, still, new⟩
    have before : follow step root (p ++ [i]) = none := by
      rw [follow_concat, at_]
      exact absent
    cases rest with
    | nil =>
      rw [List.append_nil, if_pos rfl, arrives]
    | cons j rest =>
      have longer : p ++ [i] ++ j :: rest ≠ p ++ [i] := by simp
      rw [if_neg longer, follow_append, arrives, follow_append, before]
      simp [follow, leaf j]
  · have other : q ≠ p ++ [i] := by
      rintro rfl
      exact through (List.prefix_refl _)
    rw [if_neg other]
    exact follow_elsewhere closed unshared inside at_ same member through

theorem Unshared.graft [DecidableEq ι] (unshared : Unshared step root paths) (fresh : ¬ Reached step root paths b)
    (ends : ∀ q ∈ paths, follow step' root q = if q = p then some b else follow step root q) : Unshared step' root paths := by
  intro q inside r member c first second
  rw [ends q inside] at first
  rw [ends r member] at second
  split at first
  · rename_i here
    split at second
    · rename_i there
      rw [here, there]
    · cases first
      exact absurd ⟨r, member, second⟩ fresh
  · split at second
    · cases second
      exact absurd ⟨q, inside, first⟩ fresh
    · exact unshared q inside r member c first second

theorem Unshared.of_follow (unshared : Unshared step root paths)
    (ends : ∀ q ∈ paths, follow step' root q = follow step root q) : Unshared step' root paths := by
  intro q inside r member c first second
  rw [ends q inside] at first
  rw [ends r member] at second
  exact unshared q inside r member c first second

end Unshared
end Tries
