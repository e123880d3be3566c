import Qito.Mm.Large

/-! What a walk takes from the frame allocator: one frame for each table that is
missing on the way. So whether vmm_map has room is a count of free frames. -/
namespace Qito.Mm
open Words Bitmaps Tries

/-- The frames that are left. -/
def freeFrames (s : Pmm) : Nat := s.frameCount - s.usedFrames

section Frames
variable {s : Vm}

theorem sound_full (sound : PmmSound s.pmm) : freeFrames s.pmm = 0 ↔ ¬ ∃ frame, Available s.pmm frame 1 := by
  have counted : s.pmm.usedFrames = Nat.count (fun i => s.pmm.frameBitmap.test i = true) s.pmm.frameCount := sound.counted
  have within : Nat.count (fun i => s.pmm.frameBitmap.test i = true) s.pmm.frameCount ≤ s.pmm.frameCount := Nat.count_le _
  unfold freeFrames
  constructor
  · rintro none_ ⟨frame, available⟩
    have all : Nat.count (fun i => s.pmm.frameBitmap.test i = true) s.pmm.frameCount = s.pmm.frameCount := by omega
    have taken := Nat.count_iff_forall.mp all frame available.below
    exact Bool.false_ne_true ((available.free frame (Nat.le_refl _) (Nat.lt_succ_self _)).symm.trans taken)
  · intro nothing
    have all : Nat.count (fun i => s.pmm.frameBitmap.test i = true) s.pmm.frameCount = s.pmm.frameCount := by
      apply Nat.count_iff_forall.mpr
      intro frame tracked
      by_contra free
      apply nothing
      refine ⟨frame, Nat.one_pos, ?_, tracked, fun j low high => ?_⟩
      · apply Nat.le_of_not_lt
        intro low
        exact free (sound.low frame low)
      · have here : j = frame := by omega
        rw [here]
        simpa using free
    omega

theorem alloc_counts (sound : PmmSound s.pmm) : s.allocPage = (0, s) ∧ freeFrames s.pmm = 0 ∨
    ∃ frame, s.allocPage = (frame * pageSize, claimPage s frame) ∧ Available s.pmm frame 1 ∧
      freeFrames (claimPage s frame).pmm + 1 = freeFrames s.pmm := by
  rcases allocPage_cases sound with fails | ⟨frame, claims, available⟩
  · left
    refine ⟨fails, (sound_full sound).mpr ?_⟩
    rintro ⟨frame, available⟩
    have zero : (pmmAllocPages s.pmm 1).1 = 0 := by
      have page := congrArg Prod.fst fails
      unfold Vm.allocPage pmmAllocPage at page
      simp only at page
      split at page
      · assumption
      · exact page
    have across := (allocPages_fails_iff sound Nat.one_pos).mp zero frame available
    omega
  · right
    refine ⟨frame, claims, available, ?_⟩
    have some_ : freeFrames s.pmm ≠ 0 := fun none_ => (sound_full sound).mp none_ ⟨frame, available⟩
    change s.pmm.frameCount - (s.pmm.usedFrames + 1) + 1 = s.pmm.frameCount - s.pmm.usedFrames
    unfold freeFrames at some_
    omega

end Frames

/-- The paths of a walk below p. -/
def fronts (p : List Nat) : List Nat → Finset (List Nat)
  | [] => ∅
  | i :: rest => insert (p ++ [i]) (fronts (p ++ [i]) rest)

/-- The paths at which there is no table yet. -/
def gaps (root : Nat) (mem : Memory) (paths : Finset (List Nat)) : Finset (List Nat) :=
  paths.filter fun q => follow (tableStep mem) root q = none

/-- A large page lies on the way. -/
def Covered (large : Nat → Nat → Bool) (root : Nat) (mem : Memory) (p rest : List Nat) : Prop :=
  ∃ front i back c, rest = front ++ i :: back ∧ follow (tableStep mem) root (p ++ front) = some c ∧ large c i = true

section Walking
variable {large : Nat → Nat → Bool} {root table flags i : Nat} {s t : Vm} {p : List Nat} {r : Option Nat}

theorem walkLevel_counts (paged : Paged large root s) (clear : large table i = false) (inside : p ++ [i] ∈ lowerPaths 3)
    (at_ : follow (tableStep (s.hide large).mem) root p = some table) (run : walkLevel s table i true flags = (r, t)) :
    (r = none ↔ follow (tableStep (s.hide large).mem) root (p ++ [i]) = none ∧ freeFrames s.pmm = 0) ∧
      (r ≠ none → freeFrames t.pmm + (if follow (tableStep (s.hide large).mem) root (p ++ [i]) = none then 1 else 0) = freeFrames s.pmm ∧
        ∀ q ∈ lowerPaths 3, follow (tableStep (t.hide large).mem) root q = none ↔
          follow (tableStep (s.hide large).mem) root q = none ∧ q ≠ p ++ [i]) := by
  have step : follow (tableStep (s.hide large).mem) root (p ++ [i]) = tableStep (s.hide large).mem table i := by
    rw [follow_concat, at_]
    rfl
  cases present : has (s.mem table i) ptePresent with
  | true =>
    have there : follow (tableStep (s.hide large).mem) root (p ++ [i]) ≠ none := by
      rw [step, tableStep, hide_mem clear, present]
      simp
    have other {q : List Nat} : follow (tableStep (s.hide large).mem) root q = none ↔
        follow (tableStep (s.hide large).mem) root q = none ∧ q ≠ p ++ [i] := by
      refine ⟨fun missing => ⟨missing, ?_⟩, And.left⟩
      rintro rfl
      exact there missing
    have plain := paged.tabled.plain p table i inside at_
    rw [hide_mem clear] at plain
    unfold walkLevel at run
    simp only [present, plain present, Bool.not_true, Bool.false_eq_true, if_false] at run
    rw [if_neg there]
    split at run
    · obtain ⟨rfl, rfl⟩ := Prod.mk.inj run
      refine ⟨⟨by simp, fun both => absurd both.1 there⟩, fun _ => ⟨rfl, fun q _ => ?_⟩⟩
      rw [hide_write clear, ← hide_mem (s := s) clear, widen_step]
      exact other
    · obtain ⟨rfl, rfl⟩ := Prod.mk.inj run
      exact ⟨⟨by simp, fun both => absurd both.1 there⟩, fun _ => ⟨rfl, fun q _ => other⟩⟩
  | false =>
    have missing : follow (tableStep (s.hide large).mem) root (p ++ [i]) = none := by
      rw [step, tableStep, hide_mem clear, present]
      rfl
    unfold walkLevel at run
    simp only [present, Bool.not_false, if_true, Bool.not_true, Bool.false_eq_true, if_false] at run
    rw [if_pos missing]
    rcases alloc_counts (s := s) paged.tabled.pmm with ⟨fails, full⟩ | ⟨frame, claims, available, count⟩
    · rw [fails] at run
      obtain ⟨rfl, rfl⟩ := Prod.mk.inj run
      exact ⟨⟨fun _ => ⟨missing, full⟩, fun _ => rfl⟩, fun some_ => absurd rfl some_⟩
    · obtain ⟨aligned, some_, -⟩ := claimed (s := s) paged.tabled.pmm available
      rw [claims] at run
      simp only [if_neg some_] at run
      rw [← tableEntry] at run
      obtain ⟨rfl, rfl⟩ := Prod.mk.inj run
      refine ⟨⟨by simp, fun both => ?_⟩, fun _ => ⟨count, fun q member => ?_⟩⟩
      · omega
      · have absent : has ((s.hide large).mem table i) ptePresent = false := by
          rw [hide_mem clear]
          exact present
        rw [hide_write clear, hide_claim, create_follow paged.tabled (Nat.le_refl 3) inside at_ absent available flags member]
        split
        · rename_i here
          simp [here]
        · rename_i other
          simp [other]

theorem fronts_longer {rest q : List Nat} (member : q ∈ fronts p rest) : p.length < q.length := by
  induction rest generalizing p with
  | nil => cases member
  | cons i rest ih =>
    rcases Finset.mem_insert.mp member with rfl | deeper
    · rw [List.length_append]
      exact Nat.lt_succ_self _
    · have longer := ih deeper
      rw [List.length_append, List.length_singleton] at longer
      omega

theorem fronts_inside {rest q : List Nat} (inside : p ++ rest ∈ lowerPaths 3) (member : q ∈ fronts p rest) : q ∈ lowerPaths 3 := by
  induction rest generalizing p with
  | nil => cases member
  | cons i rest ih =>
    have split : p ++ i :: rest = p ++ [i] ++ rest := by simp
    rw [split] at inside
    rcases Finset.mem_insert.mp member with rfl | deeper
    · exact (lowerPaths_closed 3).front inside
    · exact ih inside deeper

theorem gaps_cons {mem : Memory} {rest : List Nat} : (gaps root mem (fronts p (i :: rest))).card =
    (if follow (tableStep mem) root (p ++ [i]) = none then 1 else 0) + (gaps root mem (fronts (p ++ [i]) rest)).card := by
  have shape : fronts p (i :: rest) = insert (p ++ [i]) (fronts (p ++ [i]) rest) := rfl
  unfold gaps
  rw [shape, Finset.filter_insert]
  split
  · rw [Finset.card_insert_of_notMem, Nat.add_comm]
    intro member
    exact Nat.lt_irrefl _ (fronts_longer (Finset.mem_of_mem_filter _ member))
  · rw [Nat.zero_add]

theorem covered_cons {rest : List Nat} (clear : large table i = false) (at_ : follow (tableStep (s.hide large).mem) root p = some table) :
    Covered large root (s.hide large).mem p (i :: rest) ↔ Covered large root (s.hide large).mem (p ++ [i]) rest := by
  constructor
  · rintro ⟨front, j, back, c, split, ends, hidden⟩
    cases front with
    | nil =>
      obtain ⟨rfl, rfl⟩ := List.cons.inj split
      rw [List.append_nil, at_] at ends
      cases ends
      exact absurd (clear.symm.trans hidden) Bool.false_ne_true
    | cons k front =>
      obtain ⟨rfl, rfl⟩ := List.cons.inj split
      refine ⟨front, j, back, c, rfl, ?_, hidden⟩
      rw [List.append_assoc]
      exact ends
  · rintro ⟨front, j, back, c, rfl, ends, hidden⟩
    rw [List.append_assoc] at ends
    exact ⟨i :: front, j, back, c, rfl, ends, hidden⟩

theorem covered_grows {rest : List Nat} (paged : Paged large root s) (grows : Grows large root s t) (inside : p ++ rest ∈ lowerPaths 3) :
    Covered large root (t.hide large).mem p rest ↔ Covered large root (s.hide large).mem p rest := by
  constructor
  · rintro ⟨front, j, back, c, rfl, ends, hidden⟩
    refine ⟨front, j, back, c, rfl, ?_, hidden⟩
    rw [← List.append_assoc] at inside
    have here := (lowerPaths_closed 3).front inside
    obtain ⟨q, member, old⟩ := paged.upper c j hidden
    have within := lowerPaths_closed 3 q j member
    have same := grows.extends_.tabled.unshared _ here q within c ends (grows.extends_.keeps q within c old)
    rw [same]
    exact old
  · rintro ⟨front, j, back, c, rfl, ends, hidden⟩
    rw [← List.append_assoc] at inside
    exact ⟨front, j, back, c, rfl, grows.extends_.keeps _ ((lowerPaths_closed 3).front inside) c ends, hidden⟩

theorem walkDown_counts {rest : List Nat} (paged : Paged large root s) (inside : p ++ rest ∈ lowerPaths 3)
    (at_ : Arrives root flags (s.hide large) p table) (run : walkDown s table true flags rest = (r, t)) :
    (r = none ↔ Covered large root (s.hide large).mem p rest ∨ freeFrames s.pmm < (gaps root (s.hide large).mem (fronts p rest)).card) ∧
      (r ≠ none → freeFrames t.pmm + (gaps root (s.hide large).mem (fronts p rest)).card = freeFrames s.pmm ∧
        ∀ q ∈ lowerPaths 3, follow (tableStep (t.hide large).mem) root q = none ↔
          follow (tableStep (s.hide large).mem) root q = none ∧ q ∉ fronts p rest) := by
  induction rest generalizing s p table with
  | nil =>
    obtain ⟨rfl, rfl⟩ := Prod.mk.inj run
    refine ⟨?_, fun _ => ⟨rfl, fun q _ => by simp [fronts]⟩⟩
    simp [Covered, gaps, fronts]
  | cons i rest ih =>
    have split : p ++ i :: rest = p ++ [i] ++ rest := by simp
    rw [split] at inside
    have here := (lowerPaths_closed 3).front inside
    unfold walkDown at run
    cases hidden : large table i with
    | true =>
      obtain ⟨present, huge⟩ := paged.entry table i hidden
      have stops : walkLevel s table i true flags = (none, s) := by
        unfold walkLevel
        simp only [present, huge, Bool.not_true, Bool.false_eq_true, if_false, if_true]
      rw [stops] at run
      obtain ⟨rfl, rfl⟩ := Prod.mk.inj run
      refine ⟨⟨fun _ => Or.inl ⟨[], i, rest, table, rfl, ?_, hidden⟩, fun _ => rfl⟩, fun some_ => absurd rfl some_⟩
      rw [List.append_nil]
      exact at_.table
    | false =>
      obtain ⟨next, u, round⟩ : ∃ next u, walkLevel s table i true flags = (next, u) := ⟨_, _, rfl⟩
      have view := walkLevel_hide (s := s) hidden true flags
      rw [round] at view run
      obtain ⟨extends_, arrives, -⟩ := walkLevel_spec paged.tabled (Nat.le_refl 3) here at_ true view
      have grows : Grows large root s u := ⟨extends_, fun c j covered => walkLevel_large paged hidden round covered⟩
      have beyond {q : List Nat} (member : q ∈ fronts (p ++ [i]) rest) : q ≠ p ++ [i] ∧ q ∈ lowerPaths 3 := by
        refine ⟨?_, fronts_inside inside member⟩
        rintro rfl
        exact Nat.lt_irrefl _ (fronts_longer member)
      rw [gaps_cons, covered_cons hidden at_.table]
      obtain ⟨fails, takes⟩ := walkLevel_counts paged hidden here at_.table round
      cases next with
      | none =>
        obtain ⟨rfl, rfl⟩ := Prod.mk.inj run
        obtain ⟨gap, full⟩ := fails.mp rfl
        rw [if_pos gap]
        exact ⟨⟨fun _ => Or.inr (by omega), fun _ => rfl⟩, fun some_ => absurd rfl some_⟩
      | some next =>
        obtain ⟨free, follows⟩ := takes (by simp)
        have same : gaps root (u.hide large).mem (fronts (p ++ [i]) rest) = gaps root (s.hide large).mem (fronts (p ++ [i]) rest) := by
          apply Finset.filter_congr
          intro q member
          rw [follows q (beyond member).2]
          exact and_iff_left (beyond member).1
        obtain ⟨ends, counts⟩ := ih (grows.paged paged) inside (arrives next rfl) run
        rw [same, covered_grows paged grows inside] at ends
        rw [same] at counts
        refine ⟨ends.trans (or_congr_right ⟨fun less => by omega, fun less => by omega⟩), fun some_ => ?_⟩
        obtain ⟨count, later⟩ := counts some_
        refine ⟨by omega, fun q member => ?_⟩
        rw [later q member, follows q member, and_assoc]
        refine and_congr_right fun _ => ?_
        rw [← not_or]
        exact not_congr Finset.mem_insert.symm

end Walking
end Qito.Mm
