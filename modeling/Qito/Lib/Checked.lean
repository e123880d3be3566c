import Qito.Lib.Buffers
import Qito.Lib.Faults

/-! Arrays whose accesses are checked: an index that is not inside stops the
computation with a fault. -/
namespace Checked
open Buffers

variable {ε α : Type} {fault : ε} {xs : List α}

def load (fault : ε) (xs : List α) (i : Nat) : Except ε α :=
  match xs[i]? with
  | some x => .ok x
  | none => .error fault

def store (fault : ε) (xs : List α) (i : Nat) (x : α) : Except ε (List α) :=
  if i < xs.length then .ok (xs.set i x) else .error fault

/-- Elements in a row, one by one. -/
def loadSpan (fault : ε) (xs : List α) (offset : Nat) : Nat → Except ε (List α)
  | 0 => .ok []
  | len + 1 => do
    let x ← load fault xs offset
    let rest ← loadSpan fault xs (offset + 1) len
    return x :: rest

/-- A loop that writes the places below n. -/
def fillWith (fault : ε) (value : Nat → Except ε α) (n : Nat) (xs : List α) : Except ε (List α) :=
  (List.range n).foldlM (fun xs i => do store fault xs i (← value i)) xs

/-- A loop that writes one element count times, or until the place is the limit. -/
def fillRun (fault : ε) (x : α) (limit : Nat) : Nat → Nat → List α → Except ε (Nat × List α)
  | 0, place, xs => .ok (place, xs)
  | count + 1, place, xs =>
    if place < limit then do
      let xs ← store fault xs place x
      fillRun fault x limit count (place + 1) xs
    else .ok (place, xs)

theorem load_inside {i : Nat} (inside : i < xs.length) : load fault xs i = .ok xs[i] := by
  rw [load, List.getElem?_eq_getElem inside]

theorem store_append {front back : List α} {x y : α} :
    store fault (front ++ y :: back) front.length x = .ok (front ++ x :: back) := by
  rw [store, if_pos (by simp), List.set_append_right _ _ (Nat.le_refl _), Nat.sub_self, List.set_cons_zero]

theorem loadSpan_inside {offset len : Nat} (inside : offset + len ≤ xs.length) :
    loadSpan fault xs offset len = .ok (readAt offset len xs) := by
  induction len generalizing offset with
  | zero => simp [loadSpan, readAt]
  | succ len ih =>
    have first : offset < xs.length := by omega
    have rest := @ih (offset + 1) (by omega)
    rw [loadSpan, load_inside first, rest, readAt, readAt, List.drop_eq_getElem_cons first, List.take_succ_cons]
    rfl

theorem fillWith_inside {value : Nat → Except ε α} {v : Nat → α} {n : Nat} (values : ∀ i < n, value i = .ok (v i))
    (room : n ≤ xs.length) : fillWith fault value n xs = .ok ((List.range n).map v ++ xs.drop n) := by
  induction n with
  | zero => rfl
  | succ n ih =>
    have before := ih (fun i below => values i (Nat.lt_succ_of_lt below)) (Nat.le_of_succ_le room)
    have length : ((List.range n).map v).length = n := by simp
    have last := @store_append _ _ fault ((List.range n).map v) (xs.drop (n + 1)) (v n) xs[n]
    rw [length, ← List.drop_eq_getElem_cons] at last
    rw [fillWith] at before ⊢
    rw [List.range_succ, List.foldlM_append, before, List.map_append, List.append_assoc]
    change (do store fault _ n (← value n)) >>= _ = _
    rw [values n (Nat.lt_succ_self n)]
    change store fault _ n (v n) >>= _ = _
    rw [last]
    rfl

theorem fillRun_inside {x : α} {limit count : Nat} {front back : List α} (room : front.length + back.length = limit) :
    fillRun fault x limit count front.length (front ++ back) =
      .ok (front.length + min count back.length, front ++ List.replicate (min count back.length) x ++ back.drop count) := by
  induction count generalizing front back with
  | zero => simp [fillRun]
  | succ count ih =>
    cases back with
    | nil =>
      rw [fillRun, if_neg (by simp at room; omega)]
      simp
    | cons y back =>
      have later := @ih (front ++ [x]) back (by simp at room ⊢; omega)
      rw [fillRun, if_pos (by simp at room; omega), store_append]
      change fillRun fault x limit count (front.length + 1) (front ++ x :: back) = _
      rw [List.length_append, List.length_singleton, List.append_assoc, List.singleton_append] at later
      rw [later, List.length_cons, Nat.add_min_add_right, List.replicate_succ, List.drop_succ_cons]
      have place : front.length + 1 + min count back.length = front.length + (min count back.length + 1) := by omega
      rw [place, List.append_assoc front, List.singleton_append]

end Checked
