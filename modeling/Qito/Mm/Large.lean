import Qito.Mm.Completeness
import Qito.Mm.Counting

/-! Address spaces with large pages, as the kernel's own has them from the bootloader.
A walk stops at the entry of a large page and does not change it. With these entries
hidden the tables are those of a space that has none, and the calls act on them alike. -/
namespace Qito.Mm
open Words Bitmaps Tries

/-- The space without the entries of its large pages. -/
def Vm.hide (large : Nat → Nat → Bool) (s : Vm) : Vm :=
  { s with mem := fun t i => if large t i then 0 else s.mem t i }

section Hiding
variable {large : Nat → Nat → Bool} {s : Vm} {table i : Nat}

theorem hide_mem (clear : large table i = false) : (s.hide large).mem table i = s.mem table i := by
  change (if large table i then 0 else s.mem table i) = _
  rw [clear]
  rfl

theorem hide_pmm (large : Nat → Nat → Bool) (s : Vm) : (s.hide large).pmm = s.pmm := rfl

theorem hide_none (s : Vm) : s.hide (fun _ _ => false) = s := rfl

theorem hide_write (clear : large table i = false) (entry : Nat) : (s.write table i entry).hide large = (s.hide large).write table i entry := by
  have mem : ((s.write table i entry).hide large).mem = ((s.hide large).write table i entry).mem := by
    funext c j
    rw [write_mem]
    change (if large c j then 0 else (s.write table i entry).mem c j) = if c = table ∧ j = i then entry else if large c j then 0 else s.mem c j
    rw [write_mem]
    split
    · rename_i hidden
      rw [if_neg]
      rintro ⟨rfl, rfl⟩
      exact Bool.false_ne_true (clear.symm.trans hidden)
    · rfl
  exact congrArg (fun mem => { s with mem := mem }) mem

theorem hide_clear (mem : Memory) (page : Nat) :
    (fun t i => if large t i then 0 else Function.update mem page (fun _ => 0) t i) =
      Function.update (fun t i => if large t i then 0 else mem t i) page fun _ => 0 := by
  funext c j
  by_cases here : c = page
  · rw [here, Function.update_self, Function.update_self]
    exact ite_self 0
  · rw [Function.update_of_ne here, Function.update_of_ne here]

theorem hide_claim (large : Nat → Nat → Bool) (s : Vm) (frame : Nat) : (claimPage s frame).hide large = claimPage (s.hide large) frame :=
  congrArg (fun mem => { claimPage s frame with mem := mem }) (hide_clear s.mem (frame * pageSize))

theorem hide_alloc (large : Nat → Nat → Bool) (s : Vm) : (s.hide large).allocPage = (s.allocPage.1, s.allocPage.2.hide large) := by
  unfold Vm.allocPage
  rw [hide_pmm]
  generalize pmmAllocPage s.pmm = got
  obtain ⟨page, pmm⟩ := got
  simp only
  split
  · rfl
  · exact congrArg (fun mem => (page, { s with pmm := pmm, mem := mem })) (hide_clear s.mem page).symm

theorem hide_free (s : Vm) (addr : Nat) : (s.freePage addr).hide large = (s.hide large).freePage addr := rfl

theorem walkLevel_hide (clear : large table i = false) (create : Bool) (flags : Nat) :
    walkLevel (s.hide large) table i create flags = ((walkLevel s table i create flags).1, (walkLevel s table i create flags).2.hide large) := by
  unfold walkLevel
  simp only [hide_mem clear, hide_alloc]
  split
  · split
    · rfl
    · split
      · rfl
      · simp only [hide_write clear]
  · split
    · rfl
    · split
      · simp only [hide_write clear]
      · rfl

end Hiding

/-- A space whose large pages are the hidden entries, all of them in its upper tables. -/
structure Paged (large : Nat → Nat → Bool) (root : Nat) (s : Vm) : Prop where
  tabled : Tabled 3 root (s.hide large)
  entry : ∀ c j, large c j = true → has (s.mem c j) ptePresent = true ∧ has (s.mem c j) pteHuge = true
  upper : ∀ c j, large c j = true → ∃ q, q ++ [j] ∈ lowerPaths 3 ∧ follow (tableStep (s.hide large).mem) root q = some c

/-- What a walk does beside the large pages. -/
structure Grows (large : Nat → Nat → Bool) (root : Nat) (s t : Vm) : Prop where
  extends_ : Extends 3 root (s.hide large) (t.hide large)
  same : ∀ c j, large c j = true → t.mem c j = s.mem c j

section Walking
variable {large : Nat → Nat → Bool} {root table flags : Nat} {s t u : Vm} {p : List Nat} {r : Option Nat}

theorem Grows.refl (paged : Paged large root s) : Grows large root s s := ⟨Extends.refl paged.tabled, fun _ _ _ => rfl⟩

theorem Grows.trans (first : Grows large root s t) (second : Grows large root t u) : Grows large root s u where
  extends_ := first.extends_.trans second.extends_
  same c j hidden := (second.same c j hidden).trans (first.same c j hidden)

theorem Grows.paged (grows : Grows large root s t) (paged : Paged large root s) : Paged large root t where
  tabled := grows.extends_.tabled
  entry c j hidden := by
    rw [grows.same c j hidden]
    exact paged.entry c j hidden
  upper c j hidden := by
    obtain ⟨q, inside, ends⟩ := paged.upper c j hidden
    exact ⟨q, inside, grows.extends_.keeps q (lowerPaths_closed 3 q j inside) c ends⟩

theorem Paged.kept (paged : Paged large root s) {frame : Nat} (available : Available s.pmm frame 1) {c j : Nat}
    (hidden : large c j = true) : (claimPage s frame).mem c j = s.mem c j := by
  obtain ⟨q, inside, ends⟩ := paged.upper c j hidden
  have held := paged.tabled.held c ⟨q, lowerPaths_closed 3 q j inside, ends⟩
  have other : c ≠ frame * pageSize := by
    rintro rfl
    have taken := held.taken
    rw [page_frame] at taken
    exact Bool.false_ne_true ((claimed paged.tabled.pmm available).free.symm.trans taken)
  exact congrFun (Function.update_of_ne other _ _) j

theorem walkLevel_still {i : Nat} (plain : has flags pteUser = false) (run : walkLevel s table i false flags = (r, t)) : t = s := by
  unfold walkLevel at run
  simp only [plain, Bool.not_false, if_true, Bool.false_and, Bool.false_eq_true, if_false] at run
  split at run
  · exact (Prod.mk.inj run).2.symm
  · split at run
    · exact (Prod.mk.inj run).2.symm
    · exact (Prod.mk.inj run).2.symm

theorem walkLevel_large {i : Nat} {create : Bool} (paged : Paged large root s) (clear : large table i = false)
    (run : walkLevel s table i create flags = (r, t)) {c j : Nat} (hidden : large c j = true) : t.mem c j = s.mem c j := by
  have written (w : Vm) (entry : Nat) : (w.write table i entry).mem c j = w.mem c j := by
    rw [write_mem, if_neg]
    rintro ⟨rfl, rfl⟩
    exact Bool.false_ne_true (clear.symm.trans hidden)
  unfold walkLevel at run
  simp only at run
  split at run
  · split at run
    · obtain ⟨-, rfl⟩ := Prod.mk.inj run
      rfl
    · rcases allocPage_cases (s := s) paged.tabled.pmm with fails | ⟨frame, claims, available⟩
      · rw [fails] at run
        obtain ⟨-, rfl⟩ := Prod.mk.inj run
        rfl
      · rw [claims] at run
        simp only [if_neg (claimed (s := s) paged.tabled.pmm available).some_] at run
        obtain ⟨-, rfl⟩ := Prod.mk.inj run
        rw [written]
        exact paged.kept available hidden
  · split at run
    · obtain ⟨-, rfl⟩ := Prod.mk.inj run
      rfl
    · split at run
      · obtain ⟨-, rfl⟩ := Prod.mk.inj run
        exact written s _
      · obtain ⟨-, rfl⟩ := Prod.mk.inj run
        rfl

theorem walkDown_large {create : Bool} {rest : List Nat} (paged : Paged large root s) (inside : p ++ rest ∈ lowerPaths 3)
    (at_ : Arrives root flags (s.hide large) p table) (run : walkDown s table create flags rest = (r, t)) :
    Grows large root s t ∧ (∀ last, r = some last → follow (tableStep (t.hide large).mem) root (p ++ rest) = some last) ∧
      (create = false → has flags pteUser = false →
        t = s ∧ r = follow (tableStep (s.hide large).mem) root (p ++ rest)) := by
  induction rest generalizing s p table with
  | nil =>
    obtain ⟨rfl, rfl⟩ := Prod.mk.inj run
    rw [List.append_nil]
    refine ⟨Grows.refl paged, fun last same => ?_, fun _ _ => ⟨rfl, at_.table.symm⟩⟩
    cases Option.some.inj same
    exact at_.table
  | cons i rest ih =>
    have split : p ++ i :: rest = p ++ [i] ++ rest := by simp
    rw [split] at inside ⊢
    have here := (lowerPaths_closed 3).front inside
    unfold walkDown at run
    cases hidden : large table i with
    | true =>
      obtain ⟨present, huge⟩ := paged.entry table i hidden
      have stops : walkLevel s table i create flags = (none, s) := by
        unfold walkLevel
        simp only [present, huge, Bool.not_true, Bool.false_eq_true, if_false, if_true]
      rw [stops] at run
      obtain ⟨rfl, rfl⟩ := Prod.mk.inj run
      refine ⟨Grows.refl paged, by simp, fun _ _ => ⟨rfl, ?_⟩⟩
      have zero : (s.hide large).mem table i = 0 := by
        change (if large table i then 0 else s.mem table i) = 0
        rw [hidden]
        rfl
      rw [follow_append, follow_concat, at_.table, Option.bind_some, tableStep, zero]
      rfl
    | false =>
      obtain ⟨next, u, round⟩ : ∃ next u, walkLevel s table i create flags = (next, u) := ⟨_, _, rfl⟩
      rw [round] at run
      have view := walkLevel_hide (s := s) hidden create flags
      rw [round] at view
      obtain ⟨grows, arrives, still⟩ := walkLevel_spec paged.tabled (Nat.le_refl 3) here at_ create view
      have step : Grows large root s u := ⟨grows, fun c j covered => walkLevel_large paged hidden round covered⟩
      cases next with
      | none =>
        obtain ⟨rfl, rfl⟩ := Prod.mk.inj run
        refine ⟨step, by simp, fun none_ plain => ?_⟩
        subst none_
        refine ⟨walkLevel_still plain round, ?_⟩
        rw [follow_append, ← (still rfl plain).2]
        rfl
      | some next =>
        obtain ⟨grows', arrives', still'⟩ := ih (step.paged paged) inside (arrives next rfl) run
        refine ⟨step.trans grows', arrives', fun none_ plain => ?_⟩
        subst none_
        have same := walkLevel_still plain round
        obtain ⟨same', ends⟩ := still' rfl plain
        rw [same] at same' ends
        exact ⟨same', ends⟩

end Walking
end Qito.Mm
