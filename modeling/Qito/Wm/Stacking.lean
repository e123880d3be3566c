import Qito.Lib.Runs
import Qito.Wm.Events
import Mathlib.Data.List.Perm.Basic
import Mathlib.Data.List.Rotate
import Mathlib.Data.List.Sort

/-! Focus and stacking. Every operation that changes them ends in window_focus,
which puts a window above all others; Alt+Tab turns the stack by one. -/
namespace Qito.Wm
open Runs

section Orders
variable {s t : Desktop} {i j : Nat}

@[simp] theorem setWindow_self (s : Desktop) (i : Nat) (f : Window → Window) : (s.setWindow i f).windows i = f (s.windows i) :=
  Function.update_self ..

theorem setWindow_other {f : Window → Window} (other : j ≠ i) : (s.setWindow i f).windows j = s.windows j :=
  Function.update_of_ne other ..

theorem wrapInt_small {n : Int} (low : -2 ^ 31 ≤ n) (high : n ≤ intMax) : wrapInt n = n := by
  unfold wrapInt
  change n ≤ 2 ^ 31 - 1 at high
  rw [Int.emod_eq_of_lt (by omega) (by omega)]
  omega

theorem foldl_top (z : Nat → Int) (is : List Nat) (start : Int) :
    let top := is.foldl (fun top i => if z i > top then z i else top) start
    start ≤ top ∧ (∀ i ∈ is, z i ≤ top) ∧ (top = start ∨ ∃ i ∈ is, top = z i) := by
  induction is generalizing start with
  | nil => simp
  | cons i is ih =>
    dsimp only at ih ⊢
    rw [List.foldl_cons]
    by_cases larger : z i > start
    · rw [if_pos larger]
      obtain ⟨above, each, reached⟩ := ih (z i)
      refine ⟨Int.le_trans (Int.le_of_lt larger) above, ?_, ?_⟩
      · exact List.forall_mem_cons.mpr ⟨above, each⟩
      · rcases reached with here | ⟨j, later, same⟩
        · exact Or.inr ⟨i, List.mem_cons_self, here⟩
        · exact Or.inr ⟨j, List.mem_cons_of_mem _ later, same⟩
    · rw [if_neg larger]
      obtain ⟨above, each, reached⟩ := ih start
      refine ⟨above, ?_, ?_⟩
      · exact List.forall_mem_cons.mpr ⟨Int.le_trans (Int.le_of_not_gt larger) above, each⟩
      · rcases reached with here | ⟨j, later, same⟩
        · exact Or.inl here
        · exact Or.inr ⟨j, List.mem_cons_of_mem _ later, same⟩

theorem topOrder_spec (s : Desktop) : 0 ≤ topOrder s ∧ (∀ i < s.windowTotal, (s.windows i).zOrder ≤ topOrder s) ∧
    (topOrder s = 0 ∨ ∃ i < s.windowTotal, topOrder s = (s.windows i).zOrder) := by
  obtain ⟨above, each, reached⟩ := foldl_top (fun i => (s.windows i).zOrder) (List.range s.windowTotal) 0
  refine ⟨above, fun i low => each i (List.mem_range.mpr low), ?_⟩
  rcases reached with start | ⟨i, member, same⟩
  · exact Or.inl start
  · exact Or.inr ⟨i, List.mem_range.mp member, same⟩

theorem topmost_foldl (s : Desktop) (is : List Nat) (start : Option Nat) (seen : ∀ i ∈ start, (s.windows i).visible = true) :
    match is.foldl (fun top i => if (s.windows i).visible ∧ (∀ j ∈ top, (s.windows i).zOrder > (s.windows j).zOrder) then some i
      else top) start with
    | none => start = none ∧ ∀ i ∈ is, (s.windows i).visible = false
    | some top => (s.windows top).visible = true ∧ (some top = start ∨ top ∈ is) ∧
      (∀ i ∈ start, (s.windows i).zOrder ≤ (s.windows top).zOrder) ∧
      ∀ i ∈ is, (s.windows i).visible = true → (s.windows i).zOrder ≤ (s.windows top).zOrder := by
  induction is generalizing start with
  | nil =>
    cases start with
    | none => simp
    | some i => exact ⟨seen i rfl, Or.inl rfl, fun j same => by cases same; exact Int.le_refl _, by simp⟩
  | cons i is ih =>
    rw [List.foldl_cons]
    by_cases takes : (s.windows i).visible = true ∧ ∀ j ∈ start, (s.windows i).zOrder > (s.windows j).zOrder
    · rw [if_pos takes]
      have rest := ih (some i) (fun j same => by cases same; exact takes.1)
      split at rest
      · exact absurd rest.1 (by simp)
      · obtain ⟨seen', from_, above, each⟩ := rest
        have high := above i rfl
        refine ⟨seen', ?_, ?_, ?_⟩
        · rcases from_ with first | later
          · cases first
            exact Or.inr List.mem_cons_self
          · exact Or.inr (List.mem_cons_of_mem _ later)
        · intro j old
          have less := takes.2 j old
          omega
        · intro j member visible
          rcases List.mem_cons.mp member with rfl | later
          · exact high
          · exact each j later visible
    · rw [if_neg takes]
      have rest := ih start seen
      split at rest
      · obtain ⟨none_, hidden⟩ := rest
        refine ⟨none_, fun j member => ?_⟩
        rcases List.mem_cons.mp member with rfl | later
        · subst none_
          simpa using takes
        · exact hidden j later
      · obtain ⟨seen', from_, above, each⟩ := rest
        refine ⟨seen', from_.imp_right (List.mem_cons_of_mem _), above, ?_⟩
        intro j member visible
        rcases List.mem_cons.mp member with rfl | later
        · rw [visible, eq_self, true_and] at takes
          push Not at takes
          obtain ⟨k, old, less⟩ := takes
          exact Int.le_trans less (above k old)
        · exact each j later visible

theorem topmost_spec (s : Desktop) : match topmost s with
    | none => ∀ i < s.windowTotal, (s.windows i).visible = false
    | some top => top < s.windowTotal ∧ (s.windows top).visible = true ∧
      ∀ i < s.windowTotal, (s.windows i).visible = true → (s.windows i).zOrder ≤ (s.windows top).zOrder := by
  have found := topmost_foldl s (List.range s.windowTotal) none (by simp)
  unfold topmost
  split at found
  · exact fun i low => found.2 i (List.mem_range.mpr low)
  · obtain ⟨seen, from_, -, each⟩ := found
    refine ⟨?_, seen, fun i low => each i (List.mem_range.mpr low)⟩
    rcases from_ with none_ | member
    · cases none_
    · exact List.mem_range.mp member

end Orders

section Focus
variable {s t : Desktop} {i : Nat}

/-- No live window has the highest z_order an int can hold. -/
def Room (s : Desktop) : Prop := ∀ j < s.windowTotal, (s.windows j).zOrder < intMax

/-- What window_focus needs to know about the other windows. -/
structure Ready (s : Desktop) (i : Nat) : Prop where
  flagged : ∀ j < s.windowTotal, (s.windows j).focused = true → s.focusedWindow = some j
  apart : ∀ j < s.windowTotal, ∀ k < s.windowTotal, j ≠ i → k ≠ i → (s.windows j).zOrder = (s.windows k).zOrder → j = k
  positive : ∀ j < s.windowTotal, j ≠ i → 0 < (s.windows j).zOrder

/-- The flag, the pointer and the order of the windows agree, and no visible
window waits for the focus. -/
structure Stacked (s : Desktop) : Prop where
  flagged : ∀ j < s.windowTotal, (s.windows j).focused = true → s.focusedWindow = some j
  focus : ∀ j, s.focusedWindow = some j → j < s.windowTotal ∧ (s.windows j).focused = true ∧ (s.windows j).visible = true ∧
    ∀ k < s.windowTotal, (s.windows k).visible = true → (s.windows k).zOrder ≤ (s.windows j).zOrder
  apart : ∀ j < s.windowTotal, ∀ k < s.windowTotal, (s.windows j).zOrder = (s.windows k).zOrder → j = k
  positive : ∀ j < s.windowTotal, 0 < (s.windows j).zOrder
  elected : s.focusedWindow = none → ∀ j < s.windowTotal, (s.windows j).visible = false

theorem Stacked.ready (stacked : Stacked s) (i : Nat) : Ready s i where
  flagged := stacked.flagged
  apart j low k low' _ _ := stacked.apart j low k low'
  positive j low _ := stacked.positive j low

theorem unfocus_spec (s : Desktop) (i j : Nat) : ((unfocus s i).windows j).zOrder = (s.windows j).zOrder ∧
    ((unfocus s i).windows j).visible = (s.windows j).visible ∧
    (((unfocus s i).windows j).focused = true → (s.windows j).focused = true ∧ (s.focusedWindow = some j → j = i)) := by
  unfold unfocus
  split
  · rename_i f focus
    by_cases other : f ≠ i
    · rw [if_pos other]
      by_cases same : j = f
      · subst same
        simp
      · rw [setWindow_other same]
        refine ⟨rfl, rfl, fun flag => ⟨flag, fun here => ?_⟩⟩
        cases focus.symm.trans here
        exact absurd rfl same
    · rw [if_neg other]
      refine ⟨rfl, rfl, fun flag => ⟨flag, fun here => ?_⟩⟩
      cases focus.symm.trans here
      exact not_not.mp other
  · rename_i focus
    exact ⟨rfl, rfl, fun flag => ⟨flag, fun here => by rw [focus] at here; cases here⟩⟩

theorem unfocus_total (s : Desktop) (i : Nat) : (unfocus s i).windowTotal = s.windowTotal := by
  unfold unfocus
  split
  · split <;> rfl
  · rfl

theorem unfocus_top (s : Desktop) (i : Nat) : topOrder (unfocus s i) = topOrder s := by
  unfold topOrder
  rw [unfocus_total]
  simp only [(unfocus_spec s i _).1]

/-- What window_focus does to a visible window and to the others. -/
structure Raised (s t : Desktop) (i : Nat) : Prop where
  total : t.windowTotal = s.windowTotal
  focus : t.focusedWindow = some i
  flag : (t.windows i).focused = true
  order : (t.windows i).zOrder = wrapInt (topOrder s + 1)
  visible : ∀ j, (t.windows j).visible = (s.windows j).visible
  others : ∀ j, j ≠ i → (t.windows j).zOrder = (s.windows j).zOrder ∧
    ((t.windows j).focused = true → (s.windows j).focused = true ∧ s.focusedWindow ≠ some j)

theorem raise_other (s : Desktop) {i j : Nat} (other : j ≠ i) : (raise s i).windows j = s.windows j :=
  Function.update_of_ne other ..

theorem raise_self (s : Desktop) (i : Nat) :
    (raise s i).windows i = { s.windows i with zOrder := wrapInt (topOrder s + 1), focused := true } :=
  Function.update_self ..

theorem windowFocus_raised (visible : (s.windows i).visible = true) : Raised s (windowFocus s i) i := by
  have made : windowFocus s i = raise (unfocus s i) i := if_neg (by simp [visible])
  rw [made]
  refine ⟨unfocus_total s i, rfl, ?_, ?_, ?_, ?_⟩
  · rw [raise_self]
  · rw [raise_self, unfocus_top]
  · intro j
    by_cases same : j = i
    · subst same
      rw [raise_self]
      exact (unfocus_spec s j j).2.1
    · rw [raise_other _ same]
      exact (unfocus_spec s i j).2.1
  · intro j other
    rw [raise_other _ other]
    obtain ⟨order, -, flag⟩ := unfocus_spec s i j
    exact ⟨order, fun set => ⟨(flag set).1, fun here => other ((flag set).2 here)⟩⟩

theorem topOrder_room (room : Room s) : topOrder s < intMax := by
  rcases (topOrder_spec s).2.2 with zero | ⟨j, low, same⟩
  · rw [zero]
    decide
  · rw [same]
    exact room j low

theorem raised_order (raised : Raised s t i) (room : Room s) : (t.windows i).zOrder = topOrder s + 1 := by
  have low := (topOrder_spec s).1
  have high := topOrder_room room
  rw [raised.order, wrapInt_small (by omega) (by omega)]

theorem windowFocus_stacked (ready : Ready s i) (live : i < s.windowTotal) (visible : (s.windows i).visible = true)
    (room : Room s) : Stacked (windowFocus s i) := by
  have raised := windowFocus_raised visible
  obtain ⟨zero, above, -⟩ := topOrder_spec s
  have order := raised_order raised room
  have less : ∀ j < s.windowTotal, j ≠ i → ((windowFocus s i).windows j).zOrder < ((windowFocus s i).windows i).zOrder := by
    intro j low other
    have bound := above j low
    rw [order, (raised.others j other).1]
    omega
  refine ⟨?_, ?_, ?_, ?_, ?_⟩
  · intro j low flag
    rw [raised.total] at low
    by_cases same : j = i
    · rw [same, raised.focus]
    · obtain ⟨was, unfocused⟩ := (raised.others j same).2 flag
      exact absurd (ready.flagged j low was) unfocused
  · intro j here
    rw [raised.focus] at here
    cases here
    refine ⟨raised.total.symm ▸ live, raised.flag, (raised.visible i).trans visible, ?_⟩
    intro k low _
    by_cases same : k = i
    · exact Int.le_of_eq (by rw [same])
    · exact Int.le_of_lt (less k (raised.total ▸ low) same)
  · intro j low k low' same
    rw [raised.total] at low low'
    by_cases first : j = i
    · by_cases second : k = i
      · rw [first, second]
      · have below := less k low' second
        rw [first] at same
        omega
    · by_cases second : k = i
      · have below := less j low first
        rw [second] at same
        omega
      · rw [(raised.others j first).1, (raised.others k second).1] at same
        exact ready.apart j low k low' first second same
  · intro j low
    rw [raised.total] at low
    by_cases same : j = i
    · rw [same, order]
      omega
    · rw [(raised.others j same).1]
      exact ready.positive j low same
  · intro none_
    rw [raised.focus] at none_
    cases none_

end Focus

section Operations
variable {s t : Desktop} {i : Nat}

/-- The live windows have the same flags and orders. -/
structure SameStack (s t : Desktop) : Prop where
  total : t.windowTotal = s.windowTotal
  focus : t.focusedWindow = s.focusedWindow
  visible : ∀ j < s.windowTotal, (t.windows j).visible = (s.windows j).visible
  flag : ∀ j < s.windowTotal, (t.windows j).focused = (s.windows j).focused
  order : ∀ j < s.windowTotal, (t.windows j).zOrder = (s.windows j).zOrder

theorem Stacked.same (stacked : Stacked s) (same : SameStack s t) : Stacked t where
  flagged j low flag := by
    rw [same.total] at low
    rw [same.focus]
    exact stacked.flagged j low (same.flag j low ▸ flag)
  focus j here := by
    rw [same.focus] at here
    obtain ⟨live, flag, visible, highest⟩ := stacked.focus j here
    refine ⟨same.total.symm ▸ live, (same.flag j live).trans flag, (same.visible j live).trans visible, ?_⟩
    intro k low seen
    rw [same.total] at low
    rw [same.order k low, same.order j live]
    exact highest k low (same.visible k low ▸ seen)
  apart j low k low' equal := by
    rw [same.total] at low low'
    rw [same.order j low, same.order k low'] at equal
    exact stacked.apart j low k low' equal
  positive j low := by
    rw [same.total] at low
    rw [same.order j low]
    exact stacked.positive j low
  elected none_ j low := by
    rw [same.total] at low
    rw [same.visible j low]
    exact stacked.elected (same.focus ▸ none_) j low

theorem focusTopmost_stacked (ready : ∀ i, Ready s i) (none_ : s.focusedWindow = none) (room : Room s) :
    Stacked (focusTopmost s) := by
  have spec := topmost_spec s
  unfold focusTopmost
  split at spec <;> rename_i found
  · rw [found]
    refine ⟨(ready 0).flagged, ?_, ?_, ?_, fun _ => spec⟩
    · intro j here
      rw [none_] at here
      cases here
    · intro j low k low' same
      exact (ready (j + k + 1)).apart j low k low' (by omega) (by omega) same
    · intro j low
      exact (ready (j + 1)).positive j low (by omega)
  · rw [found]
    exact windowFocus_stacked (ready _) spec.1 spec.2.1 room

theorem removeWindow_slot (s : Desktop) (i : Nat) {j : Nat} (low : j < s.windowTotal - 1) :
    (removeWindow s i).windows j = s.windows (if j < i then j else j + 1) := by
  unfold removeWindow
  dsimp only
  by_cases before : j < i
  · rw [if_pos before, if_neg (by omega)]
  · rw [if_neg before, if_pos (by omega)]

theorem windowClose_stacked (stacked : Stacked s) (live : i < s.windowTotal)
    (room : ∀ j < s.windowTotal, j ≠ i → (s.windows j).zOrder < intMax) : Stacked (windowClose s i) := by
  have slot {j : Nat} (low : j < s.windowTotal - 1) :
      (if j < i then j else j + 1) < s.windowTotal ∧ (if j < i then j else j + 1) ≠ i := by
    split <;> omega
  apply focusTopmost_stacked
  · intro k
    refine ⟨?_, ?_, ?_⟩
    · intro j low flag
      dsimp only at low flag
      rw [if_pos low] at flag
      cases flag
    · intro j low m low' _ _ same
      dsimp only at low low' same
      rw [if_pos low, if_pos low'] at same
      dsimp only at same
      rw [removeWindow_slot s i low, removeWindow_slot s i low'] at same
      have equal := stacked.apart _ (slot low).1 _ (slot low').1 same
      split at equal <;> split at equal <;> omega
    · intro j low _
      dsimp only at low ⊢
      rw [if_pos low]
      dsimp only
      rw [removeWindow_slot s i low]
      exact stacked.positive _ (slot low).1
  · rfl
  · intro j low
    dsimp only at low ⊢
    rw [if_pos low]
    dsimp only
    rw [removeWindow_slot s i low]
    exact room _ (slot low).1 (slot low).2

theorem setWindow_order (s : Desktop) (i : Nat) {f : Window → Window} (same : ∀ win, (f win).zOrder = win.zOrder) (j : Nat) :
    ((s.setWindow i f).windows j).zOrder = (s.windows j).zOrder := by
  by_cases here : j = i
  · rw [here, setWindow_self, same]
  · rw [setWindow_other here]

theorem setWindow_room {f : Window → Window} (same : ∀ win, (f win).zOrder = win.zOrder) (room : Room s) :
    Room (s.setWindow i f) := by
  intro j low
  rw [setWindow_order s i same]
  exact room j low

theorem windowMinimise_stacked (stacked : Stacked s) (room : s.focusedWindow = some i → Room s) :
    Stacked (windowMinimise s i) := by
  have order := @setWindow_order s i (fun win => { win with state := .minimised, visible := false, focused := false }) fun _ => rfl
  unfold windowMinimise
  dsimp only
  split
  · rename_i focused
    apply focusTopmost_stacked
    · intro k
      refine ⟨?_, ?_, ?_⟩
      · intro j low flag
        by_cases here : j = i
        · rw [here] at flag
          simp at flag
        · have was := stacked.flagged j low (by simpa [setWindow_other here] using flag)
          exact absurd (Option.some.inj (was.symm.trans focused)) here
      · intro j low m low' _ _ same
        dsimp only at same
        rw [order, order] at same
        exact stacked.apart j low m low' same
      · intro j low _
        dsimp only
        rw [order]
        exact stacked.positive j low
    · rfl
    · exact fun j low => Int.lt_of_le_of_lt (Int.le_of_eq (order j)) (room focused j low)
  · rename_i unfocused
    refine ⟨?_, ?_, ?_, ?_, ?_⟩
    · intro j low flag
      by_cases here : j = i
      · rw [here] at flag
        simp at flag
      · rw [setWindow_other here] at flag
        exact stacked.flagged j low flag
    · intro j focus
      have other : j ≠ i := fun here => unfocused (here ▸ focus)
      obtain ⟨live, flag, visible, highest⟩ := stacked.focus j focus
      rw [setWindow_other other]
      refine ⟨live, flag, visible, fun k low seen => ?_⟩
      rw [order]
      by_cases here : k = i
      · rw [here] at seen
        simp at seen
      · rw [setWindow_other here] at seen
        exact highest k low seen
    · intro j low m low' same
      rw [order, order] at same
      exact stacked.apart j low m low' same
    · intro j low
      rw [order]
      exact stacked.positive j low
    · intro none_ j low
      by_cases here : j = i
      · rw [here]
        simp
      · rw [setWindow_other here]
        exact stacked.elected none_ j low

theorem shown_stacked {f : Window → Window} (stacked : Stacked s) (live : i < s.windowTotal) (room : Room s)
    (order : ∀ win, (f win).zOrder = win.zOrder) (flag : ∀ win, (f win).focused = win.focused)
    (shows : ∀ win, (f win).visible = true) : Stacked (windowFocus (s.setWindow i f) i) := by
  apply windowFocus_stacked
  · refine ⟨?_, ?_, ?_⟩
    · intro j low set
      by_cases here : j = i
      · rw [here, setWindow_self, flag] at set
        exact here ▸ stacked.flagged i live set
      · rw [setWindow_other here] at set
        exact stacked.flagged j low set
    · intro j low k low' _ _ same
      rw [setWindow_order s i order, setWindow_order s i order] at same
      exact stacked.apart j low k low' same
    · intro j low _
      rw [setWindow_order s i order]
      exact stacked.positive j low
  · exact live
  · rw [setWindow_self]
    exact shows _
  · exact setWindow_room order room

theorem windowRestore_stacked (stacked : Stacked s) (live : i < s.windowTotal) (room : Room s) : Stacked (windowRestore s i) := by
  refine shown_stacked stacked live room ?_ ?_ fun _ => rfl
  · intro win
    dsimp only
    split <;> rfl
  · intro win
    dsimp only
    split <;> rfl

theorem windowMaximise_stacked (env : Env) (stacked : Stacked s) (live : i < s.windowTotal)
    (room : (s.windows i).state = .maximised → Room s) : Stacked (windowMaximise env s i) := by
  unfold windowMaximise
  split
  · rename_i maximised
    exact windowRestore_stacked stacked live (room maximised)
  · refine stacked.same ⟨rfl, rfl, ?_, ?_, ?_⟩ <;>
    · intro j _
      by_cases here : j = i
      · rw [here, setWindow_self]
      · rw [setWindow_other here]

theorem clickTask_stacked (stacked : Stacked s) (x : Int) (room : Room s) : Stacked (clickTask s x) := by
  unfold clickTask
  split
  · exact stacked
  · rename_i i found
    have live : i < s.windowTotal := List.mem_range.mp (List.mem_of_find?_eq_some found)
    split
    · exact windowMinimise_stacked stacked fun _ => room
    · exact shown_stacked stacked live room (fun _ => rfl) (fun _ => rfl) fun _ => rfl

theorem windowCreateAt_stacked (env : Env) (name : String) (x y : Int) (memory : Bool) (stacked : Stacked s) (room : Room s) :
    Stacked (windowCreateAt env s name x y memory) := by
  have old {j : Nat} (low : j < s.windowTotal) (win : Window) : Function.update s.windows s.windowTotal win j = s.windows j :=
    Function.update_of_ne (Nat.ne_of_lt low) ..
  unfold windowCreateAt
  split
  · exact stacked
  · rename_i app _
    split
    · exact stacked
    · dsimp only
      split
      · refine stacked.same ⟨rfl, rfl, ?_, ?_, ?_⟩ <;>
        · intro j low
          dsimp only
          rw [old low]
      · have below {j : Nat} (low : j < s.windowTotal + 1) (other : j ≠ s.windowTotal) : j < s.windowTotal := by omega
        apply windowFocus_stacked
        · refine ⟨?_, ?_, ?_⟩
          · intro j low flag
            dsimp only at low flag ⊢
            by_cases here : j = s.windowTotal
            · rw [here, Function.update_self] at flag
              cases flag
            · rw [old (below low here)] at flag
              exact stacked.flagged j (below low here) flag
          · intro j low k low' first second same
            dsimp only at low low' same
            rw [old (below low first), old (below low' second)] at same
            exact stacked.apart j (below low first) k (below low' second) same
          · intro j low other
            dsimp only at low ⊢
            rw [old (below low other)]
            exact stacked.positive j (below low other)
        · exact Nat.lt_succ_self _
        · dsimp only
          rw [Function.update_self]
          rfl
        · intro j low
          dsimp only at low ⊢
          by_cases here : j = s.windowTotal
          · rw [here, Function.update_self]
            change (0 : Int) < intMax
            decide
          · rw [old (below low here)]
            exact room j (below low here)

end Operations

section Cycle
variable {s : Desktop}

theorem lowest_foldl (s : Desktop) (is : List Nat) (start : Option Nat × Int) :
    let found := is.foldl (fun found i =>
      if (s.windows i).visible = false ∨ s.focusedWindow = some i then found
      else if (s.windows i).zOrder < found.2 then (some i, (s.windows i).zOrder) else found) start
    found.2 ≤ start.2 ∧ (found = start ∨ ∃ i ∈ is, found = (some i, (s.windows i).zOrder) ∧ (s.windows i).visible = true ∧
      s.focusedWindow ≠ some i) ∧
    ∀ i ∈ is, (s.windows i).visible = true → s.focusedWindow ≠ some i → found.2 ≤ (s.windows i).zOrder := by
  induction is generalizing start with
  | nil => simp
  | cons i is ih =>
    dsimp only at ih ⊢
    rw [List.foldl_cons]
    by_cases skip : (s.windows i).visible = false ∨ s.focusedWindow = some i
    · rw [if_pos skip]
      obtain ⟨below, from_, each⟩ := ih start
      refine ⟨below, from_.imp_right fun ⟨j, later, facts⟩ => ⟨j, List.mem_cons_of_mem _ later, facts⟩, ?_⟩
      refine List.forall_mem_cons.mpr ⟨fun visible other => ?_, each⟩
      rcases skip with hidden | focus
      · rw [visible] at hidden
        cases hidden
      · exact absurd focus other
    · rw [if_neg skip]
      obtain ⟨seen, other⟩ := not_or.mp skip
      have visible : (s.windows i).visible = true := by simpa using seen
      by_cases less : (s.windows i).zOrder < start.2
      · rw [if_pos less]
        obtain ⟨below, from_, each⟩ := ih (some i, (s.windows i).zOrder)
        refine ⟨Int.le_trans below (Int.le_of_lt less), ?_, List.forall_mem_cons.mpr ⟨fun _ _ => below, each⟩⟩
        rcases from_ with here | ⟨j, later, facts⟩
        · exact Or.inr ⟨i, List.mem_cons_self, here, visible, other⟩
        · exact Or.inr ⟨j, List.mem_cons_of_mem _ later, facts⟩
      · rw [if_neg less]
        obtain ⟨below, from_, each⟩ := ih start
        refine ⟨below, from_.imp_right fun ⟨j, later, facts⟩ => ⟨j, List.mem_cons_of_mem _ later, facts⟩, ?_⟩
        exact List.forall_mem_cons.mpr ⟨fun _ _ => Int.le_trans below (Int.le_of_not_gt less), each⟩

/-- The visible windows from the lowest to the highest. -/
structure Ranked (s : Desktop) (order : List Nat) : Prop where
  ascending : order.Pairwise fun i j => (s.windows i).zOrder < (s.windows j).zOrder
  visible : ∀ i, i ∈ order ↔ i < s.windowTotal ∧ (s.windows i).visible = true
  focus : s.focusedWindow = order.getLast?

theorem Ranked.nodup {order : List Nat} (ranked : Ranked s order) : order.Nodup :=
  ranked.ascending.imp fun less same => by
    rw [same] at less
    exact Int.lt_irrefl _ less

def visibleWindows (s : Desktop) : List Nat := (List.range s.windowTotal).filter fun i => (s.windows i).visible

theorem visibleWindows_nodup (s : Desktop) : (visibleWindows s).Nodup := List.nodup_range.filter _

theorem mem_visibleWindows {i : Nat} : i ∈ visibleWindows s ↔ i < s.windowTotal ∧ (s.windows i).visible = true := by
  rw [visibleWindows, List.mem_filter, List.mem_range]

theorem last_highest {order : List Nat} {last : Nat}
    (ascending : order.Pairwise fun i j => (s.windows i).zOrder < (s.windows j).zOrder) (is : order.getLast? = some last) :
    last ∈ order ∧ ∀ i ∈ order, (s.windows i).zOrder ≤ (s.windows last).zOrder := by
  obtain ⟨front, rfl⟩ := List.getLast?_eq_some_iff.mp is
  refine ⟨by simp, fun i member => ?_⟩
  rcases List.mem_append.mp member with early | here
  · exact Int.le_of_lt ((List.pairwise_append.mp ascending).2.2 i early last List.mem_cons_self)
  · cases List.mem_singleton.mp here
    exact Int.le_refl _

theorem Stacked.ranked (stacked : Stacked s) : ∃ order, Ranked s order := by
  let le : Nat → Nat → Bool := fun i j => decide ((s.windows i).zOrder ≤ (s.windows j).zOrder)
  have perm : ((visibleWindows s).mergeSort le).Perm (visibleWindows s) := List.mergeSort_perm _ _
  have member (i : Nat) : i ∈ (visibleWindows s).mergeSort le ↔ i < s.windowTotal ∧ (s.windows i).visible = true := by
    rw [perm.mem_iff, mem_visibleWindows]
  have once : ((visibleWindows s).mergeSort le).Nodup := perm.nodup_iff.mpr (visibleWindows_nodup s)
  have sorted : ((visibleWindows s).mergeSort le).Pairwise fun i j => le i j = true := by
    apply List.pairwise_mergeSort
    · intro a b c first second
      simp only [le, decide_eq_true_eq] at first second ⊢
      exact Int.le_trans first second
    · intro a b
      simp only [le, Bool.or_eq_true, decide_eq_true_eq]
      exact Int.le_total _ _
  have ascending : ((visibleWindows s).mergeSort le).Pairwise fun i j => (s.windows i).zOrder < (s.windows j).zOrder := by
    apply List.Pairwise.imp_of_mem ?_ (sorted.and once)
    rintro i j first second ⟨below, other⟩
    refine lt_of_le_of_ne (by simpa [le] using below) fun same => other ?_
    exact stacked.apart i ((member i).mp first).1 j ((member j).mp second).1 same
  refine ⟨_, ascending, member, ?_⟩
  cases focus : s.focusedWindow with
  | none =>
    have empty : (visibleWindows s).mergeSort le = [] := by
      apply List.eq_nil_iff_forall_not_mem.mpr
      intro i inside
      obtain ⟨low, seen⟩ := (member i).mp inside
      rw [stacked.elected focus i low] at seen
      cases seen
    rw [empty]
    rfl
  | some f =>
    obtain ⟨live, -, seen, highest⟩ := stacked.focus f focus
    have inside := (member f).mpr ⟨live, seen⟩
    obtain ⟨last, is⟩ : ∃ last, ((visibleWindows s).mergeSort le).getLast? = some last := by
      rw [List.getLast?_eq_some_getLast (List.ne_nil_of_mem inside)]
      exact ⟨_, rfl⟩
    obtain ⟨there, above⟩ := last_highest ascending is
    have lastLive := (member last).mp there
    have same := Int.le_antisymm (above f inside) (highest last lastLive.1 lastLive.2)
    rw [is, stacked.apart f live last lastLive.1 same]

theorem altTab_alone (alone : ∀ j < s.windowTotal, (s.windows j).visible = true → s.focusedWindow = some j) : altTab s = s := by
  obtain ⟨-, from_, -⟩ := lowest_foldl s (List.range s.windowTotal) (none, intMax)
  have nothing : lowest s = none := by
    rcases from_ with start | ⟨j, member, -, visible, other⟩
    · exact congrArg Prod.fst start
    · exact absurd (alone j (List.mem_range.mp member) visible) other
  unfold altTab
  rw [nothing]
  split <;> rfl

theorem altTab_ranked {i : Nat} {order : List Nat} (stacked : Stacked s) (room : Room s) (ranked : Ranked s (i :: order)) :
    Stacked (altTab s) ∧ Ranked (altTab s) (order ++ [i]) := by
  have here := (ranked.visible i).mp List.mem_cons_self
  have above := (List.pairwise_cons.mp ranked.ascending).1
  cases rest : order.getLast? with
  | none =>
    -- A single window keeps the focus.
    have empty : order = [] := List.getLast?_eq_none_iff.mp rest
    subst empty
    have stays : altTab s = s := by
      apply altTab_alone
      intro j low visible
      cases List.mem_singleton.mp ((ranked.visible j).mpr ⟨low, visible⟩)
      exact ranked.focus
    rw [stays]
    exact ⟨stacked, ranked⟩
  | some last =>
    have focus : s.focusedWindow = some last := by
      rw [ranked.focus, List.getLast?_cons, rest]
      rfl
    have inside : last ∈ order := List.mem_of_getLast? rest
    have lastLive := (ranked.visible last).mp (List.mem_cons_of_mem _ inside)
    have other : last ≠ i := fun same => Int.lt_irrefl _ (same ▸ above last inside)
    have unfocused : s.focusedWindow ≠ some i := fun same => other (Option.some.inj (focus.symm.trans same))
    have several : s.windowTotal > 1 := by
      have first := here.1
      have second := lastLive.1
      omega
    have found : lowest s = some i := by
      obtain ⟨-, from_, each⟩ := lowest_foldl s (List.range s.windowTotal) (none, intMax)
      have bound := each i (List.mem_range.mpr here.1) here.2 unfocused
      rcases from_ with start | ⟨j, member, is, visible, -⟩
      · rw [start] at bound
        have small := room i here.1
        dsimp only at bound
        omega
      · have listed := (ranked.visible j).mpr ⟨List.mem_range.mp member, visible⟩
        rw [is] at bound
        rcases List.mem_cons.mp listed with same | later
        · rw [same] at is
          exact congrArg Prod.fst is
        · have less := above j later
          dsimp only at bound
          omega
    have made : altTab s = windowFocus s i := by
      unfold altTab
      rw [if_pos several, found]
    have raised := windowFocus_raised here.2
    have order_ := raised_order raised room
    rw [made]
    refine ⟨windowFocus_stacked (stacked.ready i) here.1 here.2 room, ?_, ?_, ?_⟩
    · have fresh : ∀ j ∈ order, j ≠ i := fun j later same => Int.lt_irrefl _ (same ▸ above j later)
      have kept : ∀ j ∈ order, ((windowFocus s i).windows j).zOrder = (s.windows j).zOrder :=
        fun j later => (raised.others j (fresh j later)).1
      refine List.pairwise_append.mpr ⟨?_, List.pairwise_singleton _ _, ?_⟩
      · apply List.Pairwise.imp_of_mem ?_ (List.pairwise_cons.mp ranked.ascending).2
        intro j k first second less
        rw [kept j first, kept k second]
        exact less
      · intro j later k last_
        cases List.mem_singleton.mp last_
        have top := (topOrder_spec s).2.1 j ((ranked.visible j).mp (List.mem_cons_of_mem _ later)).1
        rw [kept j later, order_]
        omega
    · intro j
      rw [raised.total, raised.visible, ← ranked.visible j, List.mem_append, List.mem_singleton, List.mem_cons, or_comm]
    · rw [raised.focus, List.getLast?_concat]

theorem altTab_none (ranked : Ranked s []) : altTab s = s := by
  apply altTab_alone
  intro j low visible
  cases (ranked.visible j).mpr ⟨low, visible⟩

theorem altTab_iterate {order : List Nat} (stacked : Stacked s) (ranked : Ranked s order) (k : Nat)
    (room : ∀ m < k, Room (altTab^[m] s)) : Stacked (altTab^[k] s) ∧ Ranked (altTab^[k] s) (order.rotate k) := by
  induction k with
  | zero =>
    rw [List.rotate_zero]
    exact ⟨stacked, ranked⟩
  | succ k ih =>
    obtain ⟨before, turned⟩ := ih fun m low => room m (Nat.lt_succ_of_lt low)
    have here := room k (Nat.lt_succ_self k)
    rw [Function.iterate_succ_apply', ← List.rotate_rotate]
    cases list : order.rotate k with
    | nil =>
      rw [list] at turned
      rw [altTab_none turned]
      exact ⟨before, turned⟩
    | cons i rest =>
      rw [list] at turned
      rw [List.rotate_cons_succ, List.rotate_zero]
      exact altTab_ranked before here turned

theorem rotate_last (order : List Nat) {k : Nat} (low : k < order.length) : (order.rotate (k + 1)).getLast? = order[k]? := by
  have place : (order.length - 1 + (k + 1)) % order.length = k := by
    have sum : order.length - 1 + (k + 1) = order.length + k := by omega
    rw [sum, Nat.add_mod_left, Nat.mod_eq_of_lt low]
  rw [List.getLast?_eq_getElem?, List.length_rotate, List.getElem?_rotate (by omega), place]

/-- A round of Alt+Tab presses visits every visible window once and ends where it began. -/
theorem altTab_cycle (stacked : Stacked s) (room : ∀ m < (visibleWindows s).length, Room (altTab^[m] s)) :
    ((List.range (visibleWindows s).length).map fun k => (altTab^[k + 1] s).focusedWindow).Perm ((visibleWindows s).map some) ∧
      (altTab^[(visibleWindows s).length] s).focusedWindow = s.focusedWindow := by
  obtain ⟨order, ranked⟩ := stacked.ranked
  have same : order.Perm (visibleWindows s) := by
    apply (List.perm_ext_iff_of_nodup ranked.nodup (visibleWindows_nodup s)).mpr
    intro i
    rw [ranked.visible, mem_visibleWindows]
  have length := same.length_eq
  rw [← length] at room ⊢
  have visits : ((List.range order.length).map fun k => (altTab^[k + 1] s).focusedWindow) = order.map some := by
    apply List.ext_getElem
    · simp
    · intro k low _
      have inside : k < order.length := by simpa using low
      obtain ⟨-, turned⟩ := altTab_iterate stacked ranked (k + 1) fun m early => room m (by omega)
      rw [List.getElem_map, List.getElem_range, List.getElem_map, turned.focus, rotate_last order inside,
        List.getElem?_eq_getElem inside]
  refine ⟨visits ▸ same.map some, ?_⟩
  obtain ⟨-, turned⟩ := altTab_iterate stacked ranked order.length room
  rw [turned.focus, ranked.focus, List.rotate_length]

end Cycle

/-- The operations that change the stack: calls, clicks into the task list and Alt+Tab. -/
inductive StackOp where
  | call (c : Call)
  | clickTask (x : Int)
  | altTab

def StackOp.run (env : Env) (s : Desktop) : StackOp → Desktop
  | .call c => c.run env s
  | .clickTask x => Wm.clickTask s x
  | .altTab => Wm.altTab s

/-- Pointers in calls are to live windows. -/
def StackOp.Live (s : Desktop) : StackOp → Prop
  | .call c => c.Live s
  | _ => True

/-- Whether the operation can raise a window. -/
def StackOp.Raises (s : Desktop) : StackOp → Prop
  | .call (.minimise i) => s.focusedWindow = some i
  | .call (.maximise i) => (s.windows i).state = .maximised
  | _ => True

/-- Before a window is raised none that stays has the highest z_order of an int. -/
def StackOp.Fits (s : Desktop) (op : StackOp) : Prop :=
  op.Raises s → ∀ j < s.windowTotal, op ≠ .call (.close j) → (s.windows j).zOrder < intMax

def StackStep (env : Env) (s t : Desktop) : Prop := ∃ op : StackOp, op.Live s ∧ t = op.run env s

def FittingStep (env : Env) (s t : Desktop) : Prop := ∃ op : StackOp, op.Live s ∧ op.Fits s ∧ t = op.run env s

theorem Call.run_stacked (env : Env) {s : Desktop} (c : Call) (stacked : Stacked s) (live : c.Live s)
    (fits : StackOp.Fits s (.call c)) : Stacked (c.run env s) := by
  cases c with
  | create name memory => exact windowCreateAt_stacked env _ _ _ _ stacked fun j low => fits trivial j low (by simp)
  | createAt name x y memory => exact windowCreateAt_stacked env _ _ _ _ stacked fun j low => fits trivial j low (by simp)
  | close i =>
    apply windowClose_stacked stacked (live i rfl)
    intro j low other
    exact fits trivial j low (by simpa using other.symm)
  | minimise i => exact windowMinimise_stacked stacked fun focus j low => fits focus j low (by simp)
  | maximise i => exact windowMaximise_stacked env stacked (live i rfl) fun state j low => fits state j low (by simp)
  | restore i => exact windowRestore_stacked stacked (live i rfl) fun j low => fits trivial j low (by simp)
  | focus i =>
    cases visible : (s.windows i).visible with
    | false =>
      have stays : windowFocus s i = s := if_pos visible
      change Stacked (windowFocus s i)
      rw [stays]
      exact stacked
    | true => exact windowFocus_stacked (stacked.ready i) (live i rfl) visible fun j low => fits trivial j low (by simp)

theorem altTab_stacked {s : Desktop} (stacked : Stacked s) (room : Room s) : Stacked (altTab s) := by
  obtain ⟨order, ranked⟩ := stacked.ranked
  cases order with
  | nil =>
    rw [altTab_none ranked]
    exact stacked
  | cons i order => exact (altTab_ranked stacked room ranked).1

theorem desktopStart_stacked : Stacked desktopStart where
  flagged _ low := absurd low (Nat.not_lt_zero _)
  focus _ here := by cases here
  apart _ low := absurd low (Nat.not_lt_zero _)
  positive _ low := absurd low (Nat.not_lt_zero _)
  elected _ _ low := absurd low (Nat.not_lt_zero _)

theorem run_stacked {env : Env} {s : Desktop} (reached : Reachable (· = desktopStart) (FittingStep env) s) : Stacked s := by
  refine reached.induct Stacked ?_ ?_
  · rintro _ rfl
    exact desktopStart_stacked
  · rintro s t stacked ⟨op, live, fits, rfl⟩
    cases op with
    | call c => exact c.run_stacked env stacked live fits
    | clickTask x => exact clickTask_stacked stacked x fun j low => fits trivial j low (by simp)
    | altTab => exact altTab_stacked stacked fun j low => fits trivial j low (by simp)

/-- At most one live window has the flag and it is focused_window, which is live,
visible and the highest of the visible windows; no two live windows have the same
z_order; and a round of Alt+Tab presses visits each visible window once. -/
structure FocusLaw (s : Desktop) : Prop where
  flagged : ∀ j < s.windowTotal, (s.windows j).focused = true → s.focusedWindow = some j
  focus : ∀ j, s.focusedWindow = some j → j < s.windowTotal ∧ (s.windows j).visible = true ∧
    ∀ k < s.windowTotal, (s.windows k).visible = true → (s.windows k).zOrder ≤ (s.windows j).zOrder
  apart : ∀ j < s.windowTotal, ∀ k < s.windowTotal, (s.windows j).zOrder = (s.windows k).zOrder → j = k
  cycle : (∀ m < (visibleWindows s).length, StackOp.Fits (Wm.altTab^[m] s) .altTab) →
    ((List.range (visibleWindows s).length).map fun k => (altTab^[k + 1] s).focusedWindow).Perm ((visibleWindows s).map some) ∧
      (altTab^[(visibleWindows s).length] s).focusedWindow = s.focusedWindow

theorem focus_law {env : Env} {s : Desktop} (reached : Reachable (· = desktopStart) (FittingStep env) s) : FocusLaw s := by
  have stacked := run_stacked reached
  refine ⟨stacked.flagged, ?_, stacked.apart, ?_⟩
  · intro j here
    obtain ⟨live, -, visible, highest⟩ := stacked.focus j here
    exact ⟨live, visible, highest⟩
  · intro fits
    exact altTab_cycle stacked fun m low j live => fits m low trivial j live (by simp)

/-- A screen with one application that needs no state. -/
def oneApp : Env := ⟨800, 600, [⟨"Clock", 300, 200, true, 0, false, false⟩]⟩

theorem focus_law_one_window : FocusLaw (windowCreate oneApp desktopStart "Clock" true) := by
  apply @focus_law oneApp
  refine .next (.start rfl) ⟨.call (.create "Clock" true), ?_, ?_, rfl⟩
  · intro i target
    cases target
  · intro _ j low
    exact absurd low (Nat.not_lt_zero j)

/-- Two visible windows, the second with the focus and this z_order. -/
structure TwoOpen (s : Desktop) (z : Int) : Prop where
  total : s.windowTotal = 2
  focus : s.focusedWindow = some 1
  shown : (s.windows 0).visible = true
  first : (s.windows 0).zOrder = 1
  second : (s.windows 1).zOrder = z
  visible : (s.windows 1).visible = true

theorem TwoOpen.again {s : Desktop} {z : Int} (two : TwoOpen s z) (some_ : 1 ≤ z) :
    TwoOpen (windowFocus s 1) (wrapInt (z + 1)) := by
  have raised := windowFocus_raised two.visible
  have top : topOrder s = z := by
    have range : List.range 2 = [0, 1] := rfl
    have one : (if (1 : Int) > 0 then (1 : Int) else 0) = 1 := if_pos (by decide)
    unfold topOrder
    rw [two.total, range, List.foldl_cons, List.foldl_cons, List.foldl_nil, two.first, two.second, one]
    split <;> omega
  refine ⟨raised.total.trans two.total, raised.focus, ?_, ?_, ?_, ?_⟩
  · rw [raised.visible, two.shown]
  · rw [(raised.others 0 (by decide)).1, two.first]
  · rw [raised.order, top]
  · rw [raised.visible, two.visible]

/-- Two windows are opened and the second is focused again and again. -/
def refocusing (n : Nat) : List StackOp :=
  [.call (.create "Clock" true), .call (.create "Clock" true)] ++ List.replicate n (.call (.focus 1))

theorem refocusing_succ (n : Nat) (s : Desktop) : (refocusing (n + 1)).foldl (StackOp.run oneApp) s =
    windowFocus ((refocusing n).foldl (StackOp.run oneApp) s) 1 := by
  have grown : refocusing (n + 1) = refocusing n ++ [.call (.focus 1)] := by
    rw [refocusing, List.replicate_succ', ← List.append_assoc, ← refocusing]
  rw [grown, List.foldl_append]
  rfl

theorem refocusing_two (n : Nat) (small : (n : Int) + 2 ≤ intMax) :
    Reachable (· = desktopStart) (StackStep oneApp) ((refocusing n).foldl (StackOp.run oneApp) desktopStart) ∧
      TwoOpen ((refocusing n).foldl (StackOp.run oneApp) desktopStart) (n + 2) := by
  induction n with
  | zero =>
    refine ⟨?_, ?_⟩
    · refine .next (.next (.start rfl) ⟨.call (.create "Clock" true), ?_, rfl⟩) ⟨.call (.create "Clock" true), ?_, rfl⟩
      · intro i target
        cases target
      · intro i target
        cases target
    · exact ⟨by decide, by decide, by decide, by decide, by decide, by decide⟩
  | succ n ih =>
    obtain ⟨reached, two⟩ := ih (by push_cast at small; omega)
    rw [refocusing_succ]
    refine ⟨.next reached ⟨.call (.focus 1), ?_, rfl⟩, ?_⟩
    · intro i target
      cases target
      rw [two.total]
      decide
    · have next := two.again (by omega)
      rw [wrapInt_small (by omega) (by push_cast at small; omega)] at next
      have same : (n : Int) + 2 + 1 = ((n + 1 : Nat) : Int) + 2 := by push_cast; omega
      rw [same] at next
      exact next

theorem refocusing_overflows (n : Nat) (full : (n : Int) + 2 = intMax) :
    Reachable (· = desktopStart) (StackStep oneApp) ((refocusing (n + 1)).foldl (StackOp.run oneApp) desktopStart) ∧
      ¬ FocusLaw ((refocusing (n + 1)).foldl (StackOp.run oneApp) desktopStart) := by
  obtain ⟨reached, two⟩ := refocusing_two n (Int.le_of_eq full)
  have next := two.again (by omega)
  have below : wrapInt (intMax + 1) = -2 ^ 31 := by decide
  rw [full, below] at next
  rw [refocusing_succ]
  refine ⟨.next reached ⟨.call (.focus 1), ?_, rfl⟩, fun law => ?_⟩
  · intro i target
    cases target
    rw [two.total]
    decide
  · have low : 0 < (windowFocus ((refocusing n).foldl (StackOp.run oneApp) desktopStart) 1).windowTotal := by
      rw [next.total]
      decide
    have highest := (law.focus 1 next.focus).2.2 0 low next.shown
    rw [next.first, next.second] at highest
    exact absurd highest (by decide)

theorem focus_law_overflow :
    Reachable (· = desktopStart) (StackStep oneApp) ((refocusing (2 ^ 31 - 3 + 1)).foldl (StackOp.run oneApp) desktopStart) ∧
      ¬ FocusLaw ((refocusing (2 ^ 31 - 3 + 1)).foldl (StackOp.run oneApp) desktopStart) :=
  refocusing_overflows (2 ^ 31 - 3) (by decide)

end Qito.Wm
