import Qito.Lib.Tries
import Qito.Mm.Frames
import Qito.Mm.Vmm

/-! The tables of an address space as a trie. Only the lower half belongs to the
space, so the paths of interest start below 256. What walk does to the trie is
said once, in walkLevel_spec, for tables of any depth from three levels on. -/
namespace Qito.Mm
open Words Bitmaps Tries

section Entries

theorem has_bit (e k : Nat) : has e (2 ^ k) = e.testBit k := by
  unfold has
  rw [Nat.and_two_pow]
  cases e.testBit k with
  | false => simp
  | true => simp

theorem has_present (e : Nat) : has e ptePresent = e.testBit 0 := has_bit e 0
theorem has_user (e : Nat) : has e pteUser = e.testBit 2 := has_bit e 2
theorem has_huge (e : Nat) : has e pteHuge = e.testBit 7 := has_bit e 7

theorem addrMask_bit (i : Nat) : pteAddrMask.testBit i = decide (12 ≤ i ∧ i < 52) := by
  have shape : pteAddrMask = (2 ^ 40 - 1) <<< 12 := by decide
  rw [shape, Nat.testBit_shiftLeft, Nat.testBit_two_pow_sub_one, ← Bool.decide_and]
  apply decide_eq_decide.mpr
  omega

theorem flagMask_addr {i : Nat} (low : 12 ≤ i) (high : i < 52) : pteFlagMask.testBit i = false := by
  have all : ∀ k : Fin 52, 12 ≤ k.val → pteFlagMask.testBit k.val = false := by decide
  exact all ⟨i, high⟩ low

/-- The address of a page that an entry can hold. -/
def Aligned (page : Nat) : Prop := page % pageSize = 0 ∧ page < 2 ^ 52

theorem Aligned.bit {page i : Nat} (aligned : Aligned page) (set : page.testBit i = true) : 12 ≤ i ∧ i < 52 := by
  constructor
  · by_contra low
    have whole : page = page / 4096 * 2 ^ 12 := by
      have zero : page % 4096 = 0 := aligned.1
      omega
    rw [whole, ← Nat.shiftLeft_eq, Nat.testBit_shiftLeft] at set
    simp [low] at set
  · by_contra high
    have wide : page < 2 ^ i := Nat.lt_of_lt_of_le aligned.2 (Nat.pow_le_pow_right (by decide) (Nat.le_of_not_lt high))
    rw [Nat.testBit_lt_two_pow wide] at set
    cases set

theorem addr_of {page rest : Nat} (aligned : Aligned page) (outside : ∀ i, 12 ≤ i → i < 52 → rest.testBit i = false) :
    (page ||| rest) &&& pteAddrMask = page := by
  apply Nat.eq_of_testBit_eq
  intro i
  rw [Nat.testBit_and, Nat.testBit_or, addrMask_bit]
  by_cases inside : 12 ≤ i ∧ i < 52
  · simp [inside, outside i inside.1 inside.2]
  · have clear : page.testBit i = false := by
      by_contra set
      exact inside (aligned.bit (by simpa using set))
    simp [inside, clear]

theorem Aligned.low {page : Nat} (aligned : Aligned page) (i : Nat) (low : i < 12) : page.testBit i = false := by
  by_contra set
  have above := (aligned.bit (by simpa using set)).1
  omega

def tableEntry (page flags : Nat) : Nat := page ||| ptePresent ||| pteWrite ||| (flags &&& pteUser)

def leafEntry (phys flags : Nat) : Nat := (phys &&& pteAddrMask) ||| (flags &&& pteFlagMask) ||| ptePresent

section Table
variable {page flags : Nat} (aligned : Aligned page)
theorem tableEntry_present (page flags : Nat) : has (tableEntry page flags) ptePresent = true := by
  rw [has_present, tableEntry, Nat.testBit_or, Nat.testBit_or, Nat.testBit_or]
  have bit : ptePresent.testBit 0 = true := by decide
  simp [bit]

include aligned

theorem tableEntry_addr : tableEntry page flags &&& pteAddrMask = page := by
  rw [tableEntry, Nat.or_assoc, Nat.or_assoc]
  apply addr_of aligned
  intro i low high
  have bits : ∀ k : Fin 52, 12 ≤ k.val → ptePresent.testBit k.val = false ∧ pteWrite.testBit k.val = false ∧
      pteUser.testBit k.val = false := by decide
  obtain ⟨a, b, c⟩ := bits ⟨i, high⟩ low
  simp [a, b, c]

theorem tableEntry_huge : has (tableEntry page flags) pteHuge = false := by
  have a : ptePresent.testBit 7 = false := by decide
  have b : pteWrite.testBit 7 = false := by decide
  have c : pteUser.testBit 7 = false := by decide
  rw [has_huge, tableEntry]
  simp [a, b, c, aligned.low 7 (by decide)]

theorem tableEntry_user : has (tableEntry page flags) pteUser = has flags pteUser := by
  have a : ptePresent.testBit 2 = false := by decide
  have b : pteWrite.testBit 2 = false := by decide
  have c : pteUser.testBit 2 = true := by decide
  rw [has_user, has_user, tableEntry]
  simp [a, b, c, aligned.low 2 (by decide)]

end Table

section Leaf
variable {phys : Nat} (flags : Nat)

theorem leafEntry_present (phys flags : Nat) : has (leafEntry phys flags) ptePresent = true := by
  rw [has_present, leafEntry]
  simp

theorem aligned_mask (aligned : Aligned phys) : phys &&& pteAddrMask = phys := by
  have whole : (phys ||| 0) &&& pteAddrMask = phys := addr_of aligned (by simp)
  rwa [Nat.or_zero] at whole

theorem leafEntry_addr (aligned : Aligned phys) : leafEntry phys flags &&& pteAddrMask = phys := by
  rw [leafEntry, aligned_mask aligned, Nat.or_assoc]
  apply addr_of aligned
  intro i low high
  have bits : ∀ k : Fin 52, 12 ≤ k.val → ptePresent.testBit k.val = false := by decide
  simp [flagMask_addr low high, bits ⟨i, high⟩ low]

theorem leafEntry_user (phys : Nat) : has (leafEntry phys flags) pteUser = has flags pteUser := by
  have a : ptePresent.testBit 2 = false := by decide
  have b : pteFlagMask.testBit 2 = true := by decide
  rw [has_user, has_user, leafEntry]
  simp [a, b, addrMask_bit]

theorem leafEntry_huge (phys : Nat) : has (leafEntry phys flags) pteHuge = has flags pteHuge := by
  have a : ptePresent.testBit 7 = false := by decide
  have b : pteFlagMask.testBit 7 = true := by decide
  rw [has_huge, has_huge, leafEntry]
  simp [a, b, addrMask_bit]

end Leaf

section Widen
variable (entry : Nat)

theorem widen_present : has (entry ||| pteUser) ptePresent = has entry ptePresent := by
  simp [has_present]

theorem widen_huge : has (entry ||| pteUser) pteHuge = has entry pteHuge := by
  have bit : pteUser.testBit 7 = false := by decide
  simp [has_huge, bit]

theorem widen_user : has (entry ||| pteUser) pteUser = true := by
  have bit : pteUser.testBit 2 = true := by decide
  simp [has_user, bit]

theorem widen_addr : (entry ||| pteUser) &&& pteAddrMask = entry &&& pteAddrMask := by
  have apart : pteUser &&& pteAddrMask = 0 := by decide
  rw [Nat.and_or_distrib_right, apart, Nat.or_zero]

end Widen
end Entries

/-- The table an entry leads to. -/
def tableStep (mem : Memory) (table i : Nat) : Option Nat :=
  if has (mem table i) ptePresent then some (mem table i &&& pteAddrMask) else none

/-- The same for accesses from user mode. -/
def userStep (mem : Memory) (table i : Nat) : Option Nat :=
  if has (mem table i) ptePresent && has (mem table i) pteUser then some (mem table i &&& pteAddrMask) else none

/-- The paths of the lower half, down to depth n. -/
def lowerPaths (n : Nat) : Set (List Nat) := { p | p.length ≤ n ∧ (∀ i ∈ p, i < 512) ∧ ∀ i ∈ p.head?, i < 256 }

theorem lowerPaths_closed (n : Nat) : PrefixClosed (lowerPaths n) := by
  rintro p i ⟨short, small, first⟩
  rw [List.length_append, List.length_singleton] at short
  refine ⟨by omega, fun j member => small j (List.mem_append_left _ member), ?_⟩
  cases p with
  | nil => simp
  | cons j rest => simpa using first

theorem lowerPaths_mono {m n : Nat} (le : m ≤ n) : lowerPaths m ⊆ lowerPaths n :=
  fun _ inside => ⟨Nat.le_trans inside.1 le, inside.2⟩

theorem nil_lowerPaths (n : Nat) : [] ∈ lowerPaths n := ⟨Nat.zero_le n, by simp, by simp⟩

section Space
variable (n : Nat) (root : Nat)

/-- The node is a table of the space, or a page where the depth is four. -/
abbrev TableOf (mem : Memory) (a : Nat) : Prop := Reached (tableStep mem) root (lowerPaths n) a

/-- A page that lies in an allocated frame. -/
structure InUse (s : Pmm) (a : Nat) : Prop where
  aligned : Aligned a
  taken : s.frameBitmap.test (a / pageSize) = true
  tracked : a / pageSize < s.frameCount

/-- The lower half of a space: no table is shared or lies in a free frame, and
no entry above the page tables maps a large page. -/
structure Tabled (s : Vm) : Prop where
  pmm : PmmSound s.pmm
  unshared : Unshared (tableStep s.mem) root (lowerPaths n)
  plain : ∀ p t i, p ++ [i] ∈ lowerPaths 3 → follow (tableStep s.mem) root p = some t →
    has (s.mem t i) ptePresent = true → has (s.mem t i) pteHuge = false
  held : ∀ a, TableOf n root s.mem a → InUse s.pmm a

/-- The entry of a page table, where it is present. -/
def leafAt (mem : Memory) (p : List Nat) (i : Nat) : Option Nat :=
  (follow (tableStep mem) root p).bind fun t => if has (mem t i) ptePresent then some (mem t i) else none

/-- What a walk does: it may hang tables into the trie and open them to user mode. -/
structure Extends (s t : Vm) : Prop where
  tabled : Tabled n root t
  keeps : ∀ p ∈ lowerPaths n, ∀ a, follow (tableStep s.mem) root p = some a → follow (tableStep t.mem) root p = some a
  user : ∀ p ∈ lowerPaths 3, ∀ a, follow (userStep s.mem) root p = some a → follow (userStep t.mem) root p = some a
  leaf : ∀ p ∈ lowerPaths 3, p.length = 3 → ∀ i, leafAt root t.mem p i = leafAt root s.mem p i
  taken : ∀ f, t.pmm.frameBitmap.test f = true ↔ s.pmm.frameBitmap.test f = true ∨ TableOf n root t.mem (f * pageSize)
  fresh : ∀ a, TableOf n root t.mem a → TableOf n root s.mem a ∨ s.pmm.frameBitmap.test (a / pageSize) = false
  outside : ∀ a, s.pmm.frameBitmap.test (a / pageSize) = true → ¬ TableOf n root s.mem a → t.mem a = s.mem a
  frames : t.pmm.frameCount = s.pmm.frameCount
  kernel : t.kernelPml4 = s.kernelPml4
  frees : t.frees = s.frees

variable {n root} {s t u : Vm}

theorem Extends.refl (tabled : Tabled n root s) : Extends n root s s where
  tabled := tabled
  keeps _ _ _ ends := ends
  user _ _ _ ends := ends
  leaf _ _ _ _ := rfl
  taken f := by
    refine ⟨Or.inl, fun either => either.elim id fun reached => ?_⟩
    have held := (tabled.held _ reached).taken
    rwa [Nat.mul_div_cancel f (by decide)] at held
  fresh _ reached := Or.inl reached
  outside _ _ _ := rfl
  frames := rfl
  kernel := rfl
  frees := rfl

theorem Extends.trans (first : Extends n root s t) (second : Extends n root t u) : Extends n root s u where
  tabled := second.tabled
  keeps p inside a ends := second.keeps p inside a (first.keeps p inside a ends)
  user p inside a ends := second.user p inside a (first.user p inside a ends)
  leaf p inside whole i := (second.leaf p inside whole i).trans (first.leaf p inside whole i)
  taken f := by
    rw [second.taken, first.taken]
    have keeps : TableOf n root t.mem (f * pageSize) → TableOf n root u.mem (f * pageSize) := by
      rintro ⟨p, inside, ends⟩
      exact ⟨p, inside, second.keeps p inside _ ends⟩
    tauto
  fresh a reached := by
    rcases second.fresh a reached with before | free
    · exact first.fresh a before
    · right
      by_contra taken
      have still := (first.taken (a / pageSize)).mpr (Or.inl (by simpa using taken))
      exact Bool.false_ne_true (free.symm.trans still)
  outside a taken free := by
    have still := (first.taken (a / pageSize)).mpr (Or.inl taken)
    have apart : ¬ TableOf n root t.mem a := by
      intro reached
      rcases first.fresh a reached with before | clear
      · exact free before
      · exact Bool.false_ne_true (clear.symm.trans taken)
    rw [second.outside a still apart, first.outside a taken free]
  frames := second.frames.trans first.frames
  kernel := second.kernel.trans first.kernel
  frees := second.frees.trans first.frees

end Space

section Writes

theorem write_mem (s : Vm) (table i entry c j : Nat) :
    (s.write table i entry).mem c j = if c = table ∧ j = i then entry else s.mem c j := by
  change Function.update s.mem table (Function.update (s.mem table) i entry) c j = _
  by_cases here : c = table
  · subst here
    rw [Function.update_self]
    by_cases there : j = i
    · subst there
      rw [Function.update_self, if_pos ⟨rfl, rfl⟩]
    · rw [Function.update_of_ne there, if_neg fun both => there both.2]
  · rw [Function.update_of_ne here, if_neg fun both => here both.1]

theorem write_same (s : Vm) (table i entry : Nat) : (s.write table i entry).mem table i = entry := by
  rw [write_mem]
  exact if_pos ⟨rfl, rfl⟩

/-- The state after pmm_alloc_page returned the frame. -/
def claimPage (s : Vm) (frame : Nat) : Vm :=
  { s with pmm := handOut s.pmm frame 1, mem := Function.update s.mem (frame * pageSize) fun _ => 0 }

theorem allocPage_cases {s : Vm} (sound : PmmSound s.pmm) : s.allocPage = (0, s) ∨
    ∃ frame, s.allocPage = (frame * pageSize, claimPage s frame) ∧ Available s.pmm frame 1 := by
  unfold Vm.allocPage pmmAllocPage
  rcases allocPages_cases sound 1 with fails | ⟨frame, run, available⟩
  · left
    rw [fails]
    rfl
  · right
    have some_ : frame * pageSize ≠ 0 := by
      have above : 256 ≤ frame := available.above
      change frame * 4096 ≠ 0
      omega
    refine ⟨frame, ?_, available⟩
    rw [run]
    exact if_neg some_

theorem page_frame (frame : Nat) : frame * pageSize / pageSize = frame := Nat.mul_div_cancel frame (by decide)

/-- A page that was just allocated. -/
structure Claimed (s : Vm) (frame : Nat) : Prop where
  aligned : Aligned (frame * pageSize)
  some_ : frame * pageSize ≠ 0
  free : s.pmm.frameBitmap.test frame = false

theorem claimed {s : Vm} {frame : Nat} (sound : PmmSound s.pmm) (available : Available s.pmm frame 1) : Claimed s frame := by
  have above : 256 ≤ frame := available.above
  have below := available.below
  have narrow := sound.narrow
  refine ⟨⟨Nat.mul_mod_left _ _, ?_⟩, ?_, available.free frame (Nat.le_refl _) (Nat.lt_succ_self _)⟩
  · change frame * 4096 < 2 ^ 52
    omega
  · change frame * 4096 ≠ 0
    omega

theorem claimPage_test (s : Vm) (frame f : Nat) :
    (claimPage s frame).pmm.frameBitmap.test f = (decide (f = frame) || s.pmm.frameBitmap.test f) := by
  change (s.pmm.frameBitmap.setRun frame 1).test f = _
  rw [Bitmap.test_setRun]
  congr 1
  apply decide_eq_decide.mpr
  omega

end Writes

section Level
variable {n root : Nat} {s : Vm} {p : List Nat} {table i flags : Nat}

theorem userStep_table {mem : Memory} {c j d : Nat} (step : userStep mem c j = some d) : tableStep mem c j = some d := by
  unfold userStep at step
  unfold tableStep
  split at step
  · rename_i both
    rw [Bool.and_eq_true] at both
    rw [if_pos both.1]
    exact step
  · cases step

theorem userReached_table {mem : Memory} {a : Nat} (reached : Reached (userStep mem) root (lowerPaths 3) a) :
    TableOf 3 root mem a := by
  obtain ⟨q, inside, ends⟩ := reached
  exact ⟨q, inside, follow_mono (lowerPaths_closed 3) (fun _ _ _ _ => userStep_table) inside ends⟩

theorem TableOf.deeper {mem : Memory} {a : Nat} (deep : 3 ≤ n) (reached : TableOf 3 root mem a) : TableOf n root mem a := by
  obtain ⟨q, inside, ends⟩ := reached
  exact ⟨q, lowerPaths_mono deep inside, ends⟩

theorem Tabled.above_leaves (tabled : Tabled n root s) (deep : 3 ≤ n) (inside : p ++ [i] ∈ lowerPaths 3)
    (at_ : follow (tableStep s.mem) root p = some table) {q : List Nat} {t : Nat} (member : q ∈ lowerPaths 3) (whole : q.length = 3)
    (ends : follow (tableStep s.mem) root q = some t) : t ≠ table := by
  rintro rfl
  have front := lowerPaths_closed 3 p i inside
  have same := tabled.unshared p (lowerPaths_mono deep front) q (lowerPaths_mono deep member) t at_ ends
  have short := inside.1
  rw [List.length_append, List.length_singleton, same, whole] at short
  omega

theorem widen_mem (s : Vm) (table i c j : Nat) : (s.write table i (s.mem table i ||| pteUser)).mem c j = s.mem c j ∨
    (s.write table i (s.mem table i ||| pteUser)).mem c j = s.mem c j ||| pteUser := by
  rw [write_mem]
  split
  · rename_i both
    rw [both.1, both.2]
    exact Or.inr rfl
  · exact Or.inl rfl

theorem widen_step (s : Vm) (table i : Nat) : tableStep (s.write table i (s.mem table i ||| pteUser)).mem = tableStep s.mem := by
  funext c j
  unfold tableStep
  rcases widen_mem s table i c j with same | wide
  · rw [same]
  · rw [wide, widen_present, widen_addr]

theorem widen_extends (tabled : Tabled n root s) (deep : 3 ≤ n) (inside : p ++ [i] ∈ lowerPaths 3)
    (at_ : follow (tableStep s.mem) root p = some table) :
    Extends n root s (s.write table i (s.mem table i ||| pteUser)) := by
  have entry := widen_mem s table i
  have present (c j : Nat) : has ((s.write table i (s.mem table i ||| pteUser)).mem c j) ptePresent = has (s.mem c j) ptePresent := by
    rcases entry c j with same | wide
    · rw [same]
    · rw [wide, widen_present]
  have steps := widen_step s table i
  have front := lowerPaths_closed 3 p i inside
  constructor
  · constructor
    · exact tabled.pmm
    · rw [steps]
      exact tabled.unshared
    · intro q t j member ends there
      rw [steps] at ends
      rw [present] at there
      have plain := tabled.plain q t j member ends there
      rcases entry t j with same | wide
      · rw [same]
        exact plain
      · rw [wide, widen_huge]
        exact plain
    · unfold TableOf
      rw [steps]
      exact tabled.held
  · rw [steps]
    exact fun _ _ _ ends => ends
  · intro q member a ends
    refine follow_mono (lowerPaths_closed 3) (fun c j d _ step => ?_) member ends
    unfold userStep at step ⊢
    rw [present]
    rcases entry c j with same | wide
    · rw [same]
      exact step
    · split at step
      · rename_i both
        rw [Bool.and_eq_true] at both
        rw [wide, widen_user, both.1, widen_addr]
        exact step
      · cases step
  · intro q member whole j
    unfold leafAt
    rw [steps]
    cases ends : follow (tableStep s.mem) root q with
    | none => rfl
    | some t =>
      have other := tabled.above_leaves deep inside at_ member whole ends
      have same : (s.write table i (s.mem table i ||| pteUser)).mem t j = s.mem t j := by
        rw [write_mem, if_neg fun both => other both.1]
      rw [Option.bind_some, Option.bind_some, same]
  · unfold TableOf
    rw [steps]
    exact (Extends.refl tabled).taken
  · unfold TableOf
    rw [steps]
    exact (Extends.refl tabled).fresh
  · intro a _ free
    have other : a ≠ table := by
      rintro rfl
      exact free ⟨p, lowerPaths_mono deep front, at_⟩
    funext j
    rw [write_mem, if_neg fun both => other both.1]
  · rfl
  · rfl
  · rfl

theorem Tabled.unclaimed (tabled : Tabled n root s) {frame : Nat} (available : Available s.pmm frame 1) {a : Nat}
    (reached : TableOf n root s.mem a) : a ≠ frame * pageSize := by
  rintro rfl
  have held := (tabled.held _ reached).taken
  rw [page_frame, (claimed tabled.pmm available).free] at held
  cases held

theorem create_mem (s : Vm) (frame table i entry c j : Nat) :
    ((claimPage s frame).write table i entry).mem c j =
      if c = table ∧ j = i then entry else if c = frame * pageSize then 0 else s.mem c j := by
  rw [write_mem]
  congr 1
  change Function.update s.mem (frame * pageSize) (fun _ => 0) c j = _
  by_cases here : c = frame * pageSize
  · rw [here, Function.update_self, if_pos rfl]
  · rw [Function.update_of_ne here, if_neg here]

theorem create_follow (tabled : Tabled n root s) (deep : 3 ≤ n) (inside : p ++ [i] ∈ lowerPaths 3)
    (at_ : follow (tableStep s.mem) root p = some table) (absent : has (s.mem table i) ptePresent = false) {frame : Nat}
    (available : Available s.pmm frame 1) (flags : Nat) {q : List Nat} (member : q ∈ lowerPaths n) :
    follow (tableStep ((claimPage s frame).write table i (tableEntry (frame * pageSize) flags)).mem) root q =
      if q = p ++ [i] then some (frame * pageSize) else follow (tableStep s.mem) root q := by
  have aligned := (claimed tabled.pmm available).aligned
  have within := lowerPaths_mono deep (lowerPaths_closed 3 p i inside)
  have other : table ≠ frame * pageSize := tabled.unclaimed available ⟨p, within, at_⟩
  have mem := create_mem s frame table i (tableEntry (frame * pageSize) flags)
  have entry := mem table i
  rw [if_pos ⟨rfl, rfl⟩] at entry
  have blank (j : Nat) := mem (frame * pageSize) j
  simp only [if_neg fun both : frame * pageSize = table ∧ _ => other both.1.symm, if_true] at blank
  apply follow_graft (lowerPaths_closed n) tabled.unshared within at_
  · rw [tableStep, absent]
    rfl
  · rw [tableStep, entry, tableEntry_present, tableEntry_addr aligned]
    rfl
  · intro j
    rw [tableStep, blank]
    rfl
  · intro c j reached apart
    unfold tableStep
    rw [mem, if_neg apart, if_neg (tabled.unclaimed available reached)]
  · exact member

theorem create_extends (tabled : Tabled n root s) (deep : 3 ≤ n) (inside : p ++ [i] ∈ lowerPaths 3)
    (at_ : follow (tableStep s.mem) root p = some table) (absent : has (s.mem table i) ptePresent = false) {frame : Nat}
    (available : Available s.pmm frame 1) (flags : Nat) :
    let t := (claimPage s frame).write table i (tableEntry (frame * pageSize) flags)
    Extends n root s t ∧ follow (tableStep t.mem) root (p ++ [i]) = some (frame * pageSize) := by
  intro t
  obtain ⟨aligned, some_, free⟩ := claimed tabled.pmm available
  have front := lowerPaths_closed 3 p i inside
  have within := lowerPaths_mono deep front
  have unreached {a : Nat} (reached : TableOf n root s.mem a) : a ≠ frame * pageSize := tabled.unclaimed available reached
  have other : table ≠ frame * pageSize := unreached ⟨p, within, at_⟩
  have mem (c j : Nat) : t.mem c j = if c = table ∧ j = i then tableEntry (frame * pageSize) flags
      else if c = frame * pageSize then 0 else s.mem c j := create_mem s frame table i _ c j
  have elsewhere {c j : Nat} (old : c ≠ frame * pageSize) (apart : ¬ (c = table ∧ j = i)) : t.mem c j = s.mem c j := by
    rw [mem, if_neg apart, if_neg old]
  have entry : t.mem table i = tableEntry (frame * pageSize) flags := by rw [mem, if_pos ⟨rfl, rfl⟩]
  have blank (j : Nat) : t.mem (frame * pageSize) j = 0 := by
    rw [mem, if_neg fun both => other both.1.symm, if_pos rfl]
  have gap : tableStep s.mem table i = none := by rw [tableStep, absent]; rfl
  have ends {q : List Nat} (member : q ∈ lowerPaths n) : follow (tableStep t.mem) root q =
      if q = p ++ [i] then some (frame * pageSize) else follow (tableStep s.mem) root q :=
    create_follow tabled deep inside at_ absent available flags member
  have arrives : follow (tableStep t.mem) root (p ++ [i]) = some (frame * pageSize) := by
    rw [ends (lowerPaths_mono deep inside), if_pos rfl]
  have before : follow (tableStep s.mem) root (p ++ [i]) = none := by
    rw [follow_concat, at_]
    exact gap
  have reached {a : Nat} : TableOf n root t.mem a ↔ a = frame * pageSize ∨ TableOf n root s.mem a := by
    constructor
    · rintro ⟨q, member, ends'⟩
      rw [ends member] at ends'
      split at ends'
      · exact Or.inl (Option.some.inj ends').symm
      · exact Or.inr ⟨q, member, ends'⟩
    · rintro (rfl | ⟨q, member, old⟩)
      · exact ⟨p ++ [i], lowerPaths_mono deep inside, arrives⟩
      · refine ⟨q, member, ?_⟩
        rw [ends member, if_neg, old]
        rintro rfl
        exact absurd (before.symm.trans old) (by simp)
  have test (f : Nat) : t.pmm.frameBitmap.test f = (decide (f = frame) || s.pmm.frameBitmap.test f) := claimPage_test s frame f
  refine ⟨⟨⟨handOut_sound tabled.pmm available, ?_, ?_, ?_⟩, ?_, ?_, ?_, ?_, ?_, ?_, rfl, rfl, rfl⟩, arrives⟩
  · exact tabled.unshared.graft (fun reached => unreached reached rfl) fun q member => ends member
  · intro q c j member ends' there
    have short := lowerPaths_closed 3 q j member
    rw [ends (lowerPaths_mono deep short)] at ends'
    split at ends'
    · cases ends'
      rw [blank] at there
      exact absurd there (by decide)
    · by_cases here : c = table ∧ j = i
      · rw [here.1, here.2, entry, tableEntry_huge aligned]
      · have old := unreached ⟨q, lowerPaths_mono deep short, ends'⟩
        rw [elsewhere old here] at there ⊢
        exact tabled.plain q c j member ends' there
  · intro a member
    rcases reached.mp member with rfl | old
    · refine ⟨aligned, ?_, ?_⟩
      · rw [test, page_frame, decide_eq_true rfl, Bool.true_or]
      · rw [page_frame]
        exact available.below
    · obtain ⟨whole, taken, tracked⟩ := tabled.held a old
      refine ⟨whole, ?_, tracked⟩
      rw [test, taken, Bool.or_true]
  · intro q member a old
    rw [ends member, if_neg, old]
    rintro rfl
    exact absurd (before.symm.trans old) (by simp)
  · intro q member a ends'
    refine follow_mono (lowerPaths_closed 3) (fun c j d old step => ?_) member ends'
    have apart : ¬ (c = table ∧ j = i) := by
      rintro ⟨rfl, rfl⟩
      exact absurd (gap.symm.trans (userStep_table step)) (by simp)
    unfold userStep at step ⊢
    rw [elsewhere (unreached ((userReached_table old).deeper deep)) apart]
    exact step
  · intro q member whole j
    have longer := lowerPaths_mono deep member
    unfold leafAt
    rw [ends longer]
    split
    · rename_i here
      rw [here, before, Option.bind_some, blank]
      rfl
    · cases ends' : follow (tableStep s.mem) root q with
      | none => rfl
      | some c =>
        have above := tabled.above_leaves deep inside at_ member whole ends'
        have unchanged : t.mem c j = s.mem c j := elsewhere (unreached ⟨q, longer, ends'⟩) fun both => above both.1
        rw [Option.bind_some, Option.bind_some, unchanged]
  · intro f
    rw [test, reached]
    constructor
    · intro either
      rcases Bool.or_eq_true_iff.mp either with here | old
      · rw [of_decide_eq_true here]
        exact Or.inr (Or.inl rfl)
      · exact Or.inl old
    · rintro (old | here | old)
      · rw [old, Bool.or_true]
      · have page : f = frame := Nat.eq_of_mul_eq_mul_right (by decide) here
        rw [decide_eq_true page, Bool.true_or]
      · have held := (tabled.held _ old).taken
        rw [page_frame] at held
        rw [held, Bool.or_true]
  · intro a member
    rcases reached.mp member with rfl | old
    · rw [page_frame]
      exact Or.inr free
    · exact Or.inl old
  · intro a taken outside
    funext j
    refine elsewhere ?_ ?_
    · rintro rfl
      rw [page_frame, free] at taken
      cases taken
    · rintro ⟨rfl, -⟩
      exact outside ⟨p, within, at_⟩

/-- What a walk arrives at: the table at the end of the path, for user mode too
if the flags ask for it. -/
structure Arrives (root flags : Nat) (t : Vm) (path : List Nat) (last : Nat) : Prop where
  table : follow (tableStep t.mem) root path = some last
  user : has flags pteUser = true → follow (userStep t.mem) root path = some last

theorem walkLevel_spec (tabled : Tabled n root s) (deep : 3 ≤ n) (inside : p ++ [i] ∈ lowerPaths 3)
    (at_ : Arrives root flags s p table) (create : Bool) {r : Option Nat} {t : Vm}
    (run : walkLevel s table i create flags = (r, t)) :
    Extends n root s t ∧ (∀ next, r = some next → Arrives root flags t (p ++ [i]) next) ∧
      (create = false → has flags pteUser = false → t = s ∧ r = follow (tableStep s.mem) root (p ++ [i])) := by
  have follows : follow (tableStep s.mem) root (p ++ [i]) = tableStep s.mem table i := by
    rw [follow_concat, at_.table]
    rfl
  have stays := Extends.refl tabled
  unfold walkLevel at run
  simp only at run
  cases present : has (s.mem table i) ptePresent with
  | false =>
    have missing : follow (tableStep s.mem) root (p ++ [i]) = none := by
      rw [follows, tableStep, present]
      rfl
    simp only [present, Bool.not_false, if_true] at run
    cases create with
    | false =>
      obtain ⟨rfl, rfl⟩ := Prod.mk.inj run
      exact ⟨stays, by simp, fun _ _ => ⟨rfl, missing.symm⟩⟩
    | true =>
      simp only [Bool.not_true, Bool.false_eq_true, if_false] at run
      rcases allocPage_cases tabled.pmm with fails | ⟨frame, claims, available⟩
      · rw [fails] at run
        obtain ⟨rfl, rfl⟩ := Prod.mk.inj run
        exact ⟨stays, by simp, by simp⟩
      · obtain ⟨aligned, some_, -⟩ := claimed tabled.pmm available
        rw [claims] at run
        simp only [if_neg some_] at run
        rw [← tableEntry, tableEntry_addr aligned] at run
        obtain ⟨rfl, rfl⟩ := Prod.mk.inj run
        obtain ⟨grows, arrives⟩ := create_extends tabled deep inside at_.table present available flags
        refine ⟨grows, fun next same => ?_, by simp⟩
        cases Option.some.inj same
        refine ⟨arrives, fun user => ?_⟩
        have front := grows.user p (lowerPaths_closed 3 p i inside) table (at_.user user)
        refine follow_concat_some.mpr ⟨table, front, ?_⟩
        rw [userStep, write_same, tableEntry_present, tableEntry_user aligned, user, tableEntry_addr aligned]
        rfl
  | true =>
    have step : follow (tableStep s.mem) root (p ++ [i]) = some (s.mem table i &&& pteAddrMask) := by
      rw [follows, tableStep, present]
      rfl
    have small := tabled.plain p table i inside at_.table present
    simp only [present, Bool.not_true, Bool.false_eq_true, if_false, small] at run
    cases widens : has flags pteUser && !has (s.mem table i) pteUser with
    | true =>
      simp only [widens, if_true] at run
      obtain ⟨rfl, rfl⟩ := Prod.mk.inj run
      rw [Bool.and_eq_true] at widens
      have grows := widen_extends tabled deep inside at_.table
      refine ⟨grows, fun next same => ?_, fun _ none_ => absurd (none_.symm.trans widens.1) (by simp)⟩
      cases Option.some.inj same
      refine ⟨grows.keeps _ (lowerPaths_mono deep inside) _ step, fun user => ?_⟩
      have front := grows.user p (lowerPaths_closed 3 p i inside) table (at_.user user)
      refine follow_concat_some.mpr ⟨table, front, ?_⟩
      rw [userStep, write_same, widen_present, present, widen_user, widen_addr]
      rfl
    | false =>
      simp only [widens, Bool.false_eq_true, if_false] at run
      obtain ⟨rfl, rfl⟩ := Prod.mk.inj run
      refine ⟨stays, fun next same => ?_, fun _ _ => ⟨rfl, step.symm⟩⟩
      cases Option.some.inj same
      refine ⟨step, fun user => follow_concat_some.mpr ⟨table, at_.user user, ?_⟩⟩
      have open_ : has (s.mem table i) pteUser = true := by simpa [user] using widens
      rw [userStep, present, open_]
      rfl

theorem walkDown_spec (deep : 3 ≤ n) (create : Bool) {rest : List Nat} {r : Option Nat} {t : Vm} (tabled : Tabled n root s)
    (inside : p ++ rest ∈ lowerPaths 3) (at_ : Arrives root flags s p table)
    (run : walkDown s table create flags rest = (r, t)) :
    Extends n root s t ∧ (∀ last, r = some last → Arrives root flags t (p ++ rest) last) ∧
      (create = false → has flags pteUser = false → t = s ∧ r = follow (tableStep s.mem) root (p ++ rest)) := by
  induction rest generalizing s p table with
  | nil =>
    obtain ⟨rfl, rfl⟩ := Prod.mk.inj run
    rw [List.append_nil]
    refine ⟨Extends.refl tabled, fun last same => ?_, fun _ _ => ⟨rfl, at_.table.symm⟩⟩
    cases Option.some.inj same
    exact at_
  | cons i rest ih =>
    have split : p ++ i :: rest = p ++ [i] ++ rest := by simp
    rw [split] at inside ⊢
    have here := (lowerPaths_closed 3).front inside
    unfold walkDown at run
    obtain ⟨next, u, round⟩ : ∃ next u, walkLevel s table i create flags = (next, u) := ⟨_, _, rfl⟩
    rw [round] at run
    obtain ⟨grows, arrives, still⟩ := walkLevel_spec tabled deep here at_ create round
    cases next with
    | none =>
      obtain ⟨rfl, rfl⟩ := Prod.mk.inj run
      refine ⟨grows, by simp, fun none_ plain => ⟨(still none_ plain).1, ?_⟩⟩
      rw [follow_append, ← (still none_ plain).2]
      rfl
    | some next =>
      obtain ⟨grows', arrives', still'⟩ := ih grows.tabled inside (arrives next rfl) run
      refine ⟨grows.trans grows', arrives', fun none_ plain => ?_⟩
      obtain ⟨same, -⟩ := still none_ plain
      obtain ⟨same', ends⟩ := still' none_ plain
      rw [same] at same' ends
      exact ⟨same', ends⟩

end Level

section Addresses
variable {virt : Nat}

theorem index_eq (v k : Nat) : (v >>> k) &&& 0x1FF = v / 2 ^ k % 512 := by
  have mask : 0x1FF = 2 ^ 9 - 1 := by decide
  rw [mask, Nat.and_two_pow_sub_one_eq_mod, Nat.shiftRight_eq_div_pow]

theorem indices_eq (virt : Nat) : indices virt = [virt / 2 ^ 39 % 512, virt / 2 ^ 30 % 512, virt / 2 ^ 21 % 512] := by
  simp only [indices, pml4Index, pdptIndex, pdIndex, index_eq]

theorem ptIndex_eq (virt : Nat) : ptIndex virt = virt / 2 ^ 12 % 512 := index_eq virt 12

theorem ptIndex_lt (virt : Nat) : ptIndex virt < 512 := by
  rw [ptIndex_eq]
  exact Nat.mod_lt _ (by decide)

/-- The lower half of the 48-bit addresses. -/
abbrev lowerHalf : Nat := 2 ^ 47

theorem indices_lower (lower : virt < lowerHalf) : indices virt ∈ lowerPaths 3 := by
  rw [indices_eq]
  refine ⟨by simp, ?_, ?_⟩
  · intro i member
    simp only [List.mem_cons, List.not_mem_nil, or_false] at member
    omega
  · intro i member
    simp only [List.head?_cons, Option.mem_def, Option.some.injEq] at member
    change virt < 2 ^ 47 at lower
    omega

theorem indices_length (virt : Nat) : (indices virt).length = 3 := rfl

theorem indices_page {v w : Nat} (lower : v < lowerHalf) (lower' : w < lowerHalf) :
    indices v = indices w ∧ ptIndex v = ptIndex w ↔ v / pageSize = w / pageSize := by
  change v < 2 ^ 47 at lower
  change w < 2 ^ 47 at lower'
  change _ ↔ v / 4096 = w / 4096
  rw [indices_eq, indices_eq, ptIndex_eq, ptIndex_eq]
  constructor
  · rintro ⟨path, last⟩
    simp only [List.cons.injEq, and_true] at path
    omega
  · intro same
    simp only [List.cons.injEq, and_true]
    omega

theorem alignDown_indices (virt : Nat) : indices (pageAlignDown virt) = indices virt := by
  rw [indices_eq, indices_eq]
  change [virt / 4096 * 4096 / 2 ^ 39 % 512, virt / 4096 * 4096 / 2 ^ 30 % 512, virt / 4096 * 4096 / 2 ^ 21 % 512] = _
  simp only [List.cons.injEq, and_true]
  omega

theorem alignDown_ptIndex (virt : Nat) : ptIndex (pageAlignDown virt) = ptIndex virt := by
  rw [ptIndex_eq, ptIndex_eq]
  change virt / 4096 * 4096 / 2 ^ 12 % 512 = _
  omega

end Addresses

section Walks
variable {n : Nat} {s : Vm} {space : AddressSpace} {virt flags : Nat}

theorem walk_spec (tabled : Tabled n space.pml4 s) (deep : 3 ≤ n) (lower : virt < lowerHalf) (create : Bool) {r : Option Nat}
    {t : Vm} (run : walk s space (pageAlignDown virt) create flags = (r, t)) :
    Extends n space.pml4 s t ∧ (∀ last, r = some last → Arrives space.pml4 flags t (indices virt) last) ∧
      (create = false → has flags pteUser = false → t = s ∧ r = follow (tableStep s.mem) space.pml4 (indices virt)) := by
  unfold walk at run
  rw [alignDown_indices] at run
  have start : Arrives space.pml4 flags s [] space.pml4 := ⟨rfl, fun _ => rfl⟩
  exact walkDown_spec deep create tabled (indices_lower lower) start run

/-- The physical address behind an entry, 0 without one. -/
def leafAddr (virt : Nat) : Option Nat → Nat
  | none => 0
  | some entry => (entry &&& pteAddrMask) ||| (virt &&& (pageSize - 1))

theorem resolveFrom_spec {root table level : Nat} {p rest : List Nat} (tabled : Tabled n root s)
    (inside : p ++ rest ∈ lowerPaths 3) (at_ : follow (tableStep s.mem) root p = some table) :
    resolveFrom s.mem virt level table rest = leafAddr virt (leafAt root s.mem (p ++ rest) (ptIndex virt)) := by
  induction rest generalizing p table level with
  | nil =>
    unfold leafAt resolveFrom
    rw [List.append_nil, at_, Option.bind_some]
    cases present : has (s.mem table (ptIndex virt)) ptePresent with
    | false => simp [present, leafAddr]
    | true => simp [present, leafAddr]
  | cons i rest ih =>
    have split : p ++ i :: rest = p ++ [i] ++ rest := by simp
    rw [split] at inside ⊢
    have here := (lowerPaths_closed 3).front inside
    have step : follow (tableStep s.mem) root (p ++ [i]) = tableStep s.mem table i := by
      rw [follow_concat, at_]
      rfl
    unfold resolveFrom
    cases present : has (s.mem table i) ptePresent with
    | false =>
      have missing : follow (tableStep s.mem) root (p ++ [i]) = none := by
        rw [step, tableStep, present]
        rfl
      unfold leafAt
      rw [follow_append, missing]
      simp [present, leafAddr]
    | true =>
      have small := tabled.plain p table i here at_ present
      simp only [present, small, Bool.not_true, Bool.false_eq_true, if_false]
      apply ih inside
      rw [step, tableStep, present]
      rfl

theorem vmmResolve_spec (tabled : Tabled n space.pml4 s) (lower : virt < lowerHalf) :
    vmmResolve s space virt = leafAddr virt (leafAt space.pml4 s.mem (indices virt) (ptIndex virt)) :=
  resolveFrom_spec tabled (p := []) (indices_lower lower) rfl

theorem leafAddr_leaf {phys : Nat} (aligned : Aligned phys) (flags virt : Nat) :
    leafAddr virt (some (leafEntry phys flags)) = phys + virt % pageSize := by
  have whole : phys = 2 ^ 12 * (phys / 4096) := by
    have zero : phys % 4096 = 0 := aligned.1
    omega
  have offset : virt &&& (pageSize - 1) = virt % 2 ^ 12 := Nat.and_two_pow_sub_one_eq_mod virt 12
  rw [leafAddr, leafEntry_addr flags aligned, offset]
  nth_rewrite 1 [whole]
  rw [← Nat.two_pow_add_eq_or_of_lt (Nat.mod_lt virt (by decide)) (phys / 4096), ← whole]

end Walks

section Creation
variable {s t : Vm} {memory : Bool} {space : AddressSpace}

theorem createSpace_cases (sound : PmmSound s.pmm) (run : vmmCreateSpace s memory = (some space, t)) :
    ∃ frame, Available s.pmm frame 1 ∧ space = { pml4 := frame * pageSize, refCount := 1, mappedPages := 0 } ∧
      t = kernelHalf (claimPage s frame) (frame * pageSize) := by
  unfold vmmCreateSpace at run
  split at run
  · cases run
  · rcases allocPage_cases sound with fails | ⟨frame, claims, available⟩
    · rw [fails] at run
      cases run
    · obtain ⟨-, some_, -⟩ := claimed sound available
      rw [claims] at run
      simp only [if_neg some_] at run
      obtain ⟨same, rfl⟩ := Prod.mk.inj run
      exact ⟨frame, available, (Option.some.inj same).symm, rfl⟩

theorem createSpace_follow {frame : Nat} {p : List Nat} {n a : Nat} (inside : p ∈ lowerPaths n)
    (ends : follow (tableStep (kernelHalf (claimPage s frame) (frame * pageSize)).mem) (frame * pageSize) p = some a) :
    p = [] ∧ a = frame * pageSize := by
  cases p with
  | nil => exact ⟨rfl, (Option.some.inj ends).symm⟩
  | cons i rest =>
    have low : i < 256 := inside.2.2 i rfl
    have zero : (kernelHalf (claimPage s frame) (frame * pageSize)).mem (frame * pageSize) i = 0 := by
      have upper : ¬ (256 ≤ i ∧ i < 512) := fun both => absurd both.1 (Nat.not_le_of_lt low)
      simp only [kernelHalf, claimPage, Function.update_self, if_neg upper]
    have absent : tableStep (kernelHalf (claimPage s frame) (frame * pageSize)).mem (frame * pageSize) i = none := by
      rw [tableStep, zero]
      rfl
    unfold follow at ends
    rw [absent] at ends
    cases ends

theorem createSpace_tabled (n : Nat) (sound : PmmSound s.pmm) {frame : Nat} (available : Available s.pmm frame 1) :
    Tabled n (frame * pageSize) (kernelHalf (claimPage s frame) (frame * pageSize)) where
  pmm := handOut_sound sound available
  unshared p inside q member a first second := by
    rw [(createSpace_follow inside first).1, (createSpace_follow member second).1]
  plain p c i inside ends there := by
    obtain ⟨rfl, rfl⟩ := createSpace_follow (lowerPaths_closed 3 p i inside) ends
    have none_ : follow (tableStep (kernelHalf (claimPage s frame) (frame * pageSize)).mem) (frame * pageSize) [i] ≠
        some ((kernelHalf (claimPage s frame) (frame * pageSize)).mem (frame * pageSize) i &&& pteAddrMask) := by
      intro ends'
      exact absurd (createSpace_follow inside ends').1 (by simp)
    refine absurd ?_ none_
    simp [follow, tableStep, there]
  held a reached := by
    obtain ⟨p, inside, ends⟩ := reached
    obtain ⟨-, rfl⟩ := createSpace_follow inside ends
    refine ⟨(claimed sound available).aligned, ?_, ?_⟩
    · rw [page_frame]
      change (claimPage s frame).pmm.frameBitmap.test frame = true
      rw [claimPage_test, decide_eq_true rfl, Bool.true_or]
    · rw [page_frame]
      exact available.below

end Creation

end Qito.Mm
