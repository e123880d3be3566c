import Qito.Lib.Lists
import Mathlib.Data.List.Nodup
import Mathlib.Data.List.Perm.Subperm
import Mathlib.Logic.Relation
import Mathlib.Data.List.Range
import Mathlib.Tactic.Common

/-! Walks over a tree that is given by the children of each node. Nodes are numbers and
a child has a higher number than its parent, as when nodes are numbered in the order
they are made. -/
namespace Forest

/-- Children have one parent, and come after it. -/
structure Tree (children : Nat → List Nat) (parent : Nat → Nat) (size : Nat) : Prop where
  up : ∀ {p c}, c ∈ children p → parent c = p
  later : ∀ {p c}, c ∈ children p → p < c
  inside : ∀ {p c}, c ∈ children p → c < size
  once : ∀ p, (children p).Nodup

/-- The loop that goes over a list while it appends the children of what it goes over. -/
def breadth (children : Nat → List Nat) : Nat → List Nat → Nat → List Nat
  | 0, out, _ => out
  | fuel + 1, out, index =>
    match out[index]? with
    | none => out
    | some node => breadth children fuel (out ++ children node) (index + 1)

/-- The nodes below one, each before what is below it. -/
def depth (children : Nat → List Nat) : Nat → Nat → List Nat
  | 0, _ => []
  | fuel + 1, node => (children node).flatMap fun child => child :: depth children fuel child

/-- One node is another, or under it. -/
def Under (children : Nat → List Nat) (top c : Nat) : Prop := Relation.ReflTransGen (fun p c => c ∈ children p) top c

section Walks
variable {children : Nat → List Nat} {parent : Nat → Nat} {size root : Nat}

/-- What the loop has done when it gets to an index. -/
structure Spread (children : Nat → List Nat) (root : Nat) (out : List Nat) (index : Nat) : Prop where
  once : out.Nodup
  first : out[0]? = some root
  reached : index ≤ out.length
  done : ∀ j p, j < index → out[j]? = some p → ∀ c ∈ children p, c ∈ out
  from_ : ∀ k c, 0 < k → out[k]? = some c → ∃ j p, j < k ∧ j < index ∧ out[j]? = some p ∧ c ∈ children p

theorem Spread.start (children : Nat → List Nat) (root : Nat) : Spread children root [root] 0 where
  once := List.nodup_singleton root
  first := rfl
  reached := Nat.zero_le _
  done := by
    intro j p before
    exact absurd before (Nat.not_lt_zero j)
  from_ := by
    intro k c positive there
    have inside := (List.getElem?_eq_some_iff.mp there).1
    rw [List.length_singleton] at inside
    omega

theorem Spread.step {out : List Nat} {index node : Nat} (tree : Tree children parent size) (spread : Spread children root out index)
    (there : out[index]? = some node) (top : ∀ p, root ∉ children p) : Spread children root (out ++ children node) (index + 1) := by
  have inside : index < out.length := (List.getElem?_eq_some_iff.mp there).1
  have fresh : ∀ c ∈ children node, c ∉ out := by
    intro c child member
    obtain ⟨k, at_⟩ := List.getElem?_of_mem member
    rcases Nat.eq_zero_or_pos k with rfl | positive
    · rw [spread.first] at at_
      cases at_
      exact top node child
    · obtain ⟨j, p, -, before, there', child'⟩ := spread.from_ k c positive at_
      have same : p = node := (tree.up child').symm.trans (tree.up child)
      have place : j = index :=
        (List.getElem?_inj (List.getElem?_eq_some_iff.mp there').1 spread.once).mp (by rw [there', there, same])
      omega
  refine ⟨?_, ?_, ?_, ?_, ?_⟩
  · rw [List.nodup_append]
    refine ⟨spread.once, tree.once node, ?_⟩
    rintro a member b child rfl
    exact fresh a child member
  · rw [List.getElem?_append_left (by omega)]
    exact spread.first
  · rw [List.length_append]
    omega
  · intro j p before at_ c child
    rw [List.getElem?_append_left (by omega)] at at_
    rcases Nat.lt_succ_iff_lt_or_eq.mp before with earlier | rfl
    · exact List.mem_append_left _ (spread.done j p earlier at_ c child)
    · cases at_.symm.trans there
      exact List.mem_append_right _ child
  · intro k c positive at_
    by_cases old : k < out.length
    · rw [List.getElem?_append_left old] at at_
      obtain ⟨j, p, less, before, there', child⟩ := spread.from_ k c positive at_
      refine ⟨j, p, less, by omega, ?_, child⟩
      rw [List.getElem?_append_left (by omega)]
      exact there'
    · rw [List.getElem?_append_right (by omega)] at at_
      refine ⟨index, node, by omega, Nat.lt_succ_self _, ?_, List.mem_of_getElem? at_⟩
      rw [List.getElem?_append_left inside]
      exact there

theorem Spread.bounded {out : List Nat} {index : Nat} (tree : Tree children parent size) (spread : Spread children root out index)
    (here : root < size) : out.length ≤ size := by
  have within : ∀ c ∈ out, c ∈ List.range size := by
    intro c member
    obtain ⟨k, at_⟩ := List.getElem?_of_mem member
    rcases Nat.eq_zero_or_pos k with rfl | positive
    · rw [spread.first] at at_
      cases at_
      exact List.mem_range.mpr here
    · obtain ⟨j, p, -, -, -, child⟩ := spread.from_ k c positive at_
      exact List.mem_range.mpr (tree.inside child)
  have shorter := (List.subperm_of_subset spread.once within).length_le
  rwa [List.length_range] at shorter

theorem breadth_spread (tree : Tree children parent size) (top : ∀ p, root ∉ children p) (here : root < size) {fuel index : Nat} {out : List Nat}
    (spread : Spread children root out index) (enough : size ≤ index + fuel) :
    Spread children root (breadth children fuel out index) (breadth children fuel out index).length := by
  induction fuel generalizing out index with
  | zero =>
    have all : index = out.length := Nat.le_antisymm spread.reached (Nat.le_trans (spread.bounded tree here) enough)
    rw [breadth, ← all]
    exact spread
  | succ fuel ih =>
    rw [breadth]
    cases there : out[index]? with
    | none =>
      have all : index = out.length := Nat.le_antisymm spread.reached (List.getElem?_eq_none_iff.mp there)
      dsimp only
      rw [← all]
      exact spread
    | some node => exact ih (spread.step tree there top) (by omega)

theorem Spread.complete {out : List Nat} (spread : Spread children root out out.length) {c : Nat}
    (under : Under children root c) : c ∈ out := by
  induction under with
  | refl => exact List.mem_of_getElem? spread.first
  | @tail p c _ child ih =>
    obtain ⟨j, at_⟩ := List.getElem?_of_mem ih
    exact spread.done j p (List.getElem?_eq_some_iff.mp at_).1 at_ c child

theorem Under.le {top c : Nat} (tree : Tree children parent size) (under : Under children top c) : top ≤ c := by
  induction under with
  | refl => exact Nat.le_refl _
  | tail _ child ih => exact Nat.le_trans ih (Nat.le_of_lt (tree.later child))

theorem Under.child {p a b : Nat} (tree : Tree children parent size) (first : a ∈ children p) (second : b ∈ children p)
    (under : Under children a b) : a = b := by
  cases under with
  | refl => rfl
  | @tail q _ above child =>
    have same : q = p := (tree.up child).symm.trans (tree.up second)
    have order := Under.le tree above
    have less := tree.later first
    omega

theorem Under.unique {p a b c : Nat} (tree : Tree children parent size) (first : a ∈ children p) (second : b ∈ children p)
    (left : Under children a c) (right : Under children b c) : a = b := by
  induction left with
  | refl => exact (Under.child tree second first right).symm
  | @tail q c above child ih =>
    cases right with
    | refl => exact Under.child tree first second (above.tail child)
    | @tail q' _ above' child' =>
      have same : q' = q := (tree.up child').symm.trans (tree.up child)
      rw [same] at above'
      exact ih above'

theorem depth_under {fuel node c : Nat} (member : c ∈ depth children fuel node) :
    ∃ child ∈ children node, Under children child c := by
  induction fuel generalizing node with
  | zero => cases member
  | succ fuel ih =>
    obtain ⟨child, here, member⟩ := List.mem_flatMap.mp member
    rcases List.mem_cons.mp member with rfl | below
    · exact ⟨c, here, Relation.ReflTransGen.refl⟩
    · obtain ⟨next, here', under⟩ := ih below
      exact ⟨child, here, Relation.ReflTransGen.head here' under⟩

theorem depth_nodup (tree : Tree children parent size) (fuel node : Nat) : (depth children fuel node).Nodup := by
  induction fuel generalizing node with
  | zero => exact List.nodup_nil
  | succ fuel ih =>
    have block : ∀ {c x}, x ∈ c :: depth children fuel c → Under children c x := by
      intro c x member
      rcases List.mem_cons.mp member with rfl | below
      · exact Relation.ReflTransGen.refl
      · obtain ⟨child, here, under⟩ := depth_under below
        exact Relation.ReflTransGen.head here under
    rw [depth, List.nodup_flatMap]
    constructor
    · intro c _
      refine List.nodup_cons.mpr ⟨fun below => ?_, ih c⟩
      obtain ⟨child, here, under⟩ := depth_under below
      have order := Under.le tree under
      have less := tree.later here
      omega
    · refine (tree.once node).imp_of_mem ?_
      intro a b first second differ x left right
      exact differ (Under.unique tree first second (block left) (block right))

theorem depth_complete {fuel node c : Nat} (tree : Tree children parent size) (enough : size ≤ node + fuel) (under : Under children node c)
    (other : c ≠ node) : c ∈ depth children fuel node := by
  induction under using Relation.ReflTransGen.head_induction_on generalizing fuel with
  | refl => exact absurd rfl other
  | @head node child here below ih =>
    have less := tree.later here
    have inside := tree.inside here
    obtain ⟨fuel, rfl⟩ : ∃ f, fuel = f + 1 := ⟨fuel - 1, by omega⟩
    refine List.mem_flatMap.mpr ⟨child, here, ?_⟩
    by_cases same : c = child
    · rw [same]
      exact List.mem_cons_self
    · exact List.mem_cons_of_mem _ (ih (by omega) same)

theorem under_root {P : Nat → Prop} (kept : ∀ c, P c → c ≠ root → parent c < c ∧ P (parent c) ∧ c ∈ children (parent c)) {c : Nat}
    (holds : P c) : Under children root c := by
  induction c using Nat.strong_induction_on with
  | _ c ih =>
    by_cases top : c = root
    · rw [top]
      exact Relation.ReflTransGen.refl
    · obtain ⟨less, holds', child⟩ := kept c holds top
      exact (ih (parent c) less holds').tail child

end Walks
end Forest
