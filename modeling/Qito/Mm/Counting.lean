import Mathlib.Algebra.Order.Ring.Nat
import Qito.Mm.Conservation

/-! mapped_pages against the tables. Each call changes the entries of single pages, and
the counter follows as long as vmm_map is not given a page that is mapped already. -/
namespace Qito.Mm
open Words Bitmaps Tries Runs

/-- The entry for an address of the lower half, where it is present. -/
abbrev entryAt (s : Vm) (root v : Nat) : Option Nat := leafAt root s.mem (indices v) (ptIndex v)

/-- The pages of the lower half. -/
def lowerPages : Nat := 2 ^ 35

/-- The number of lower-half pages that are mapped. -/
def mappedCount (s : Vm) (root : Nat) : Nat :=
  ((Finset.range lowerPages).filter fun page => (entryAt s root (page * pageSize)).isSome = true).card

section Counts
variable {s t : Vm} {root v : Nat}

theorem page_lower {page : Nat} : page < lowerPages ↔ page * pageSize < lowerHalf := by
  have size : lowerHalf = lowerPages * pageSize := by decide
  rw [size]
  exact (Nat.mul_lt_mul_right (by decide)).symm

theorem mem_mapped {page : Nat} :
    page ∈ (Finset.range lowerPages).filter (fun page => (entryAt s root (page * pageSize)).isSome = true) ↔
      page * pageSize < lowerHalf ∧ (entryAt s root (page * pageSize)).isSome = true := by
  refine Finset.mem_filter.trans (and_congr_left' ?_)
  exact Finset.mem_range.trans page_lower

theorem mappedCount_congr (same : ∀ w < lowerHalf, (entryAt t root w).isSome = (entryAt s root w).isSome) :
    mappedCount t root = mappedCount s root := by
  apply congrArg Finset.card
  apply Finset.ext
  intro page
  refine mem_mapped.trans (Iff.trans ?_ mem_mapped.symm)
  apply and_congr_right
  intro low
  rw [same _ low]

theorem entryAt_page (s : Vm) (root : Nat) (lower : v < lowerHalf) : v / pageSize * pageSize < lowerHalf ∧
    entryAt s root (v / pageSize * pageSize) = entryAt s root v := by
  have here : v / pageSize * pageSize < lowerHalf := Nat.lt_of_le_of_lt (Nat.div_mul_le_self v pageSize) lower
  obtain ⟨path, last⟩ := (indices_page here lower).mpr (page_frame _)
  refine ⟨here, ?_⟩
  rw [entryAt, path, last]

theorem mappedCount_insert {e : Nat} (lower : v < lowerHalf) (absent : entryAt s root v = none)
    (entries : ∀ w < lowerHalf, entryAt t root w = if w / pageSize = v / pageSize then some e else entryAt s root w) :
    mappedCount t root = mappedCount s root + 1 := by
  obtain ⟨here, same⟩ := entryAt_page s root lower
  unfold mappedCount
  rw [← Finset.card_insert_of_notMem (a := v / pageSize)]
  · apply congrArg Finset.card
    apply Finset.ext
    intro page
    refine mem_mapped.trans (Iff.trans ?_ Finset.mem_insert.symm)
    by_cases equal : page = v / pageSize
    · subst equal
      rw [entries _ here, page_frame, if_pos rfl]
      exact ⟨fun _ => Or.inl rfl, fun _ => ⟨here, rfl⟩⟩
    · rw [or_iff_right equal]
      refine Iff.trans (and_congr_right fun low => ?_) mem_mapped.symm
      rw [entries _ low, page_frame, if_neg equal]
  · intro member
    have some_ := (mem_mapped.mp member).2
    rw [same, absent] at some_
    cases some_

theorem entryAt_congr {w : Nat} (lower : v < lowerHalf) (lower' : w < lowerHalf) (same : w / pageSize = v / pageSize) :
    entryAt s root w = entryAt s root v := by
  obtain ⟨path, last⟩ := (indices_page lower' lower).mpr same
  rw [entryAt, path, last]

end Counts

section Calls
variable {s t : Vm} {space space' : AddressSpace} {v : Nat} {code : Int}

/-- The address is on a page of the lower half: only 48 bits of it count. -/
def Lower (virt : Nat) : Prop := virt % 2 ^ 48 < lowerHalf

theorem indices_wrap (virt : Nat) : indices (virt % 2 ^ 48) = indices virt := by
  rw [indices_eq, indices_eq]
  simp only [List.cons.injEq, and_true]
  omega

theorem ptIndex_wrap (virt : Nat) : ptIndex (virt % 2 ^ 48) = ptIndex virt := by
  rw [ptIndex_eq, ptIndex_eq]
  omega

theorem entryAt_wrap (s : Vm) (root virt : Nat) : entryAt s root (virt % 2 ^ 48) = entryAt s root virt := by
  rw [entryAt, indices_wrap, ptIndex_wrap]

theorem vmmMap_wrap (s : Vm) (space : AddressSpace) (virt phys flags : Nat) :
    vmmMap s space (virt % 2 ^ 48) phys flags = vmmMap s space virt phys flags := by
  unfold vmmMap walk
  rw [alignDown_indices, alignDown_ptIndex, alignDown_indices, alignDown_ptIndex, indices_wrap, ptIndex_wrap]

theorem vmmUnmap_wrap (s : Vm) (space : AddressSpace) (virt : Nat) :
    vmmUnmap s space (virt % 2 ^ 48) = vmmUnmap s space virt := by
  unfold vmmUnmap walk
  rw [alignDown_indices, alignDown_ptIndex, alignDown_indices, alignDown_ptIndex, indices_wrap, ptIndex_wrap]

/-- A space whose counter is right. -/
structure Tallied (created : Nat) (s : Vm) (space : AddressSpace) : Prop where
  tabled : Tabled 3 space.pml4 s
  count : space.mappedPages = created + mappedCount s space.pml4

theorem Tallied.others {created : Nat} (tallied : Tallied created s space) (others : Others space.pml4 s t) : Tallied created t space where
  tabled := tallied.tabled.others others
  count := by
    have same : mappedCount t space.pml4 = mappedCount s space.pml4 := mappedCount_congr fun w lower => congrArg Option.isSome (others.leaf (indices_lower lower) _)
    rw [same]
    exact tallied.count

theorem vmmMap_entries {phys flags : Nat} (tabled : Tabled 3 space.pml4 s) (lower : v < lowerHalf)
    (run : vmmMap s space v phys flags = (code, t, space')) : Tabled 3 space.pml4 t ∧
      (code ≠ 0 ∧ space' = space ∧ (∀ w < lowerHalf, entryAt t space.pml4 w = entryAt s space.pml4 w) ∨
        code = 0 ∧ space' = { space with mappedPages := space.mappedPages + 1 } ∧ ∀ w < lowerHalf, entryAt t space.pml4 w =
          if w / pageSize = v / pageSize then some (leafEntry phys flags) else entryAt s space.pml4 w) := by
  unfold vmmMap at run
  obtain ⟨r, u, walked⟩ : ∃ r u, walk s space (pageAlignDown v) true flags = (r, u) := ⟨_, _, rfl⟩
  obtain ⟨grows, arrives, -⟩ := walk_spec tabled (Nat.le_refl 3) lower true walked
  have kept (w : Nat) (low : w < lowerHalf) : entryAt u space.pml4 w = entryAt s space.pml4 w :=
    grows.leaf _ (indices_lower low) (indices_length w) _
  rw [walked] at run
  cases r with
  | none =>
    simp only [Prod.mk.injEq] at run
    obtain ⟨rfl, rfl, rfl⟩ := run
    exact ⟨grows.tabled, Or.inl ⟨by decide, rfl, kept⟩⟩
  | some table =>
    simp only [Prod.mk.injEq, alignDown_ptIndex] at run
    obtain ⟨rfl, rfl, rfl⟩ := run
    have at_ := (arrives table rfl).table
    rw [← leafEntry]
    refine ⟨leaf_tabled grows.tabled lower at_, Or.inr ⟨rfl, rfl, fun w low => ?_⟩⟩
    rw [entryAt, leaf_write grows.tabled lower at_ low, leafEntry_present, if_pos rfl]
    split
    · rfl
    · exact kept w low

theorem vmmUnmap_entries (tabled : Tabled 3 space.pml4 s) (lower : v < lowerHalf)
    (run : vmmUnmap s space v = (code, t, space')) : Tabled 3 space.pml4 t ∧
      (code ≠ 0 ∧ space' = space ∧ t = s ∨
        code = 0 ∧ space' = { space with mappedPages := space.mappedPages - 1 } ∧ (entryAt s space.pml4 v).isSome = true ∧
          ∀ w < lowerHalf, entryAt t space.pml4 w = if w / pageSize = v / pageSize then none else entryAt s space.pml4 w) := by
  unfold vmmUnmap at run
  obtain ⟨r, u, walked⟩ : ∃ r u, walk s space (pageAlignDown v) false 0 = (r, u) := ⟨_, _, rfl⟩
  obtain ⟨-, -, still⟩ := walk_spec tabled (Nat.le_refl 3) lower false walked
  obtain ⟨rfl, ends⟩ := still rfl rfl
  rw [walked] at run
  cases r with
  | none =>
    simp only [Prod.mk.injEq] at run
    obtain ⟨rfl, rfl, rfl⟩ := run
    exact ⟨tabled, Or.inl ⟨by decide, rfl, rfl⟩⟩
  | some table =>
    simp only [alignDown_ptIndex] at run
    split at run
    · simp only [Prod.mk.injEq] at run
      obtain ⟨rfl, rfl, rfl⟩ := run
      exact ⟨tabled, Or.inl ⟨by decide, rfl, rfl⟩⟩
    · rename_i there
      have present : has (u.mem table (ptIndex v)) ptePresent = true := by simpa using there
      simp only [Prod.mk.injEq] at run
      obtain ⟨rfl, rfl, rfl⟩ := run
      refine ⟨leaf_tabled tabled lower ends.symm, Or.inr ⟨rfl, rfl, ?_, fun w low => ?_⟩⟩
      · rw [entryAt, leafAt, ← ends, Option.bind_some, if_pos present]
        rfl
      · rw [entryAt, leaf_write tabled lower ends.symm low]
        rfl

theorem vmmMap_tallied {created phys flags : Nat} (tallied : Tallied created s space) (lower : Lower v)
    (absent : entryAt s space.pml4 v = none) (run : vmmMap s space v phys flags = (code, t, space')) :
    Tallied created t space' ∧ space'.pml4 = space.pml4 ∧ (code = 0 → ∀ w, Lower w → entryAt t space.pml4 w =
      if w % 2 ^ 48 / pageSize = v % 2 ^ 48 / pageSize then some (leafEntry phys flags) else entryAt s space.pml4 w) := by
  rw [← vmmMap_wrap] at run
  rw [← entryAt_wrap] at absent
  obtain ⟨tabled, ⟨failed, rfl, kept⟩ | ⟨-, rfl, entries⟩⟩ := vmmMap_entries tallied.tabled lower run
  · refine ⟨⟨tabled, ?_⟩, rfl, fun success => absurd success failed⟩
    rw [mappedCount_congr fun w low => congrArg Option.isSome (kept w low)]
    exact tallied.count
  · refine ⟨⟨tabled, ?_⟩, rfl, fun _ w low => ?_⟩
    · change space.mappedPages + 1 = created + mappedCount t space.pml4
      rw [mappedCount_insert lower absent entries, tallied.count, Nat.add_assoc]
    · rw [← entryAt_wrap, entries _ low, entryAt_wrap]

theorem vmmUnmap_tallied {created : Nat} (tallied : Tallied created s space) (lower : Lower v)
    (run : vmmUnmap s space v = (code, t, space')) : Tallied created t space' := by
  rw [← vmmUnmap_wrap] at run
  obtain ⟨tabled, ⟨-, rfl, rfl⟩ | ⟨-, rfl, there, entries⟩⟩ := vmmUnmap_entries tallied.tabled lower run
  · exact tallied
  · refine ⟨tabled, ?_⟩
    obtain ⟨e, entry⟩ := Option.isSome_iff_exists.mp there
    -- mapping the page again would bring the entries back
    have back : mappedCount s space.pml4 = mappedCount t space.pml4 + 1 := by
      apply mappedCount_insert (e := e) lower
      · rw [entries _ lower, if_pos rfl]
      · intro w low
        split
        · rename_i same
          rw [entryAt_congr lower low same, entry]
        · rename_i other
          rw [entries w low, if_neg other]
    change space.mappedPages - 1 = created + mappedCount t space.pml4
    have count := tallied.count
    omega

theorem mapPagesAt_tallied {created phys flags : Nat} {offsets : List Nat} (tallied : Tallied created s space)
    (lower : ∀ o ∈ offsets, Lower (wrap64 (v + o))) (absent : ∀ o ∈ offsets, entryAt s space.pml4 (wrap64 (v + o)) = none)
    (apart : offsets.Pairwise fun o o' => wrap64 (v + o') % 2 ^ 48 / pageSize ≠ wrap64 (v + o) % 2 ^ 48 / pageSize)
    (run : mapPagesAt s space v phys flags offsets = (code, t, space')) : Tallied created t space' := by
  induction offsets generalizing s space with
  | nil =>
    simp only [mapPagesAt, Prod.mk.injEq] at run
    obtain ⟨-, rfl, rfl⟩ := run
    exact tallied
  | cons offset rest ih =>
    obtain ⟨mapCode, u, space₂, mapped⟩ : ∃ mapCode u space₂,
      vmmMap s space (wrap64 (v + offset)) (wrap64 (phys + offset)) flags = (mapCode, u, space₂) := ⟨_, _, _, rfl⟩
    have here : offset ∈ offset :: rest := List.mem_cons_self
    obtain ⟨tallied', root, entries⟩ := vmmMap_tallied tallied (lower offset here) (absent offset here) mapped
    rw [List.pairwise_cons] at apart
    unfold mapPagesAt at run
    simp only [mapped] at run
    split at run
    · simp only [Prod.mk.injEq] at run
      obtain ⟨-, rfl, rfl⟩ := run
      exact tallied'
    · rename_i success
      have done : mapCode = 0 := by simpa using success
      refine ih tallied' (fun o member => lower o (List.mem_cons_of_mem _ member)) (fun o member => ?_) apart.2 run
      have there := List.mem_cons_of_mem offset member
      rw [root, entries done _ (lower o there), if_neg (apart.1 o member)]
      exact absent o there

theorem mapRange_apart {n : Nat} (lower : ∀ o ∈ List.range' 0 n pageSize, Lower (wrap64 (v + o))) :
    (List.range' 0 n pageSize).Pairwise fun o o' => wrap64 (v + o') % 2 ^ 48 / pageSize ≠ wrap64 (v + o) % 2 ^ 48 / pageSize := by
  have all (k : Nat) (inside : k < n) : (v + 4096 * k) % 2 ^ 64 % 2 ^ 48 < 2 ^ 47 := by
    have low := lower (0 + pageSize * k) (List.mem_range'.mpr ⟨k, inside, rfl⟩)
    rw [Nat.zero_add] at low
    exact low
  rw [List.pairwise_iff_getElem]
  intro i j first last order same
  rw [List.length_range'] at first last
  simp only [List.getElem_range', Nat.zero_add] at same
  change (v + 4096 * j) % 2 ^ 64 % 2 ^ 48 / 4096 = (v + 4096 * i) % 2 ^ 64 % 2 ^ 48 / 4096 at same
  -- halfway round to the same page the range would be in the upper half
  have low := all i first
  have far : i + 2 ^ 36 ≤ j := by omega
  have half := all (i + 2 ^ 35) (by omega)
  omega

theorem claim_others {root frame : Nat} (tabled : Tabled 3 root s) (available : Available s.pmm frame 1) :
    Others root s (claimPage s frame) where
  pmm := handOut_sound tabled.pmm available
  frames := rfl
  tables a reached := by
    obtain ⟨aligned, taken, -⟩ := tabled.held a reached
    constructor
    · refine Function.update_of_ne ?_ _ _
      rintro rfl
      rw [page_frame] at taken
      exact Bool.false_ne_true ((claimed tabled.pmm available).free.symm.trans taken)
    · rw [claimPage_test, taken, Bool.or_true]

theorem drop_others {frame phys flags : Nat} (tabled : Tabled 3 space.pml4 s) (available : Available s.pmm frame 1) (lower : Lower v)
    (run : vmmMap (claimPage s frame) space v phys flags = (code, t, space')) (failed : code ≠ 0) :
    Others space.pml4 t (t.freePage (frame * pageSize)) := by
  have others := claim_others tabled available
  obtain ⟨aligned, some_, free⟩ := claimed tabled.pmm available
  have grows : Extends 3 space.pml4 (claimPage s frame) t := by
    rw [← vmmMap_wrap] at run
    unfold vmmMap at run
    obtain ⟨r, u, walked⟩ : ∃ r u, walk (claimPage s frame) space (pageAlignDown (v % 2 ^ 48)) true flags = (r, u) := ⟨_, _, rfl⟩
    obtain ⟨grows, -, -⟩ := walk_spec (tabled.others others) (Nat.le_refl 3) lower true walked
    rw [walked] at run
    cases r with
    | none =>
      simp only [Prod.mk.injEq] at run
      obtain ⟨-, rfl, -⟩ := run
      exact grows
    | some table =>
      simp only [Prod.mk.injEq] at run
      exact absurd run.1.symm failed
  have taken : (claimPage s frame).pmm.frameBitmap.test frame = true := by
    rw [claimPage_test, decide_eq_true rfl, Bool.true_or]
  have unreached : ¬ TableOf 3 space.pml4 t.mem (frame * pageSize) := by
    intro reached
    rcases grows.fresh _ reached with ⟨q, member, ends⟩ | clear
    · rw [others.follow member] at ends
      have held := (tabled.held _ ⟨q, member, ends⟩).taken
      rw [page_frame] at held
      exact Bool.false_ne_true (free.symm.trans held)
    · rw [page_frame] at clear
      exact Bool.false_ne_true (clear.symm.trans taken)
  have use : InUse t.pmm (frame * pageSize) := by
    refine ⟨aligned, ?_, ?_⟩
    · rw [page_frame]
      exact (grows.taken frame).mpr (Or.inl taken)
    · rw [grows.frames, page_frame]
      exact available.below
  have high : lowFrames ≤ frame * pageSize / pageSize := by
    rw [page_frame]
    exact available.above
  constructor
  · exact freePages_sound grows.tabled.pmm high
  · exact freePages_frames t.pmm _ 1
  · intro a reached
    refine ⟨rfl, ?_⟩
    have held := grows.tabled.held a reached
    have other : a / pageSize ≠ frame * pageSize / pageSize := by
      rw [page_frame]
      rintro rfl
      rw [Nat.div_mul_cancel (Nat.dvd_of_mod_eq_zero held.aligned.1)] at unreached
      exact unreached reached
    rw [freePage_test use high, decide_eq_false other, held.taken]
    rfl

theorem resolve_entry (tabled : Tabled 3 space.pml4 s) (lower : Lower v) :
    vmmResolve s space v = leafAddr v (entryAt s space.pml4 v) := by
  have inside := indices_lower lower
  rw [indices_wrap] at inside
  exact resolveFrom_spec tabled (p := []) inside rfl

theorem allocPagesAt_tallied {created flags : Nat} {pages : List Nat} (tallied : Tallied created s space)
    (lower : ∀ page ∈ pages, Lower page) (resolves : ∀ page ∈ pages, vmmResolve s space page = 0 → entryAt s space.pml4 page = none)
    (run : allocPagesAt s space flags pages = (code, t, space')) : Tallied created t space' := by
  induction pages generalizing s space with
  | nil =>
    simp only [allocPagesAt, Prod.mk.injEq] at run
    obtain ⟨-, rfl, rfl⟩ := run
    exact tallied
  | cons page rest ih =>
    have later : ∀ page ∈ rest, Lower page := fun page member => lower page (List.mem_cons_of_mem _ member)
    have here := lower page List.mem_cons_self
    unfold allocPagesAt at run
    split at run
    · exact ih tallied later (fun page member => resolves page (List.mem_cons_of_mem _ member)) run
    · rename_i unmapped
      have absent := resolves page List.mem_cons_self (by simpa using unmapped)
      rcases allocPage_cases tallied.tabled.pmm with fails | ⟨frame, claims, available⟩
      · rw [fails] at run
        simp only [if_true, Prod.mk.injEq] at run
        obtain ⟨-, rfl, rfl⟩ := run
        exact tallied
      · obtain ⟨aligned, some_, -⟩ := claimed tallied.tabled.pmm available
        have others := claim_others tallied.tabled available
        have entry (w : Nat) (low : Lower w) : entryAt (claimPage s frame) space.pml4 w = entryAt s space.pml4 w := by
          have inside := indices_lower low
          rw [indices_wrap] at inside
          exact others.leaf inside _
        obtain ⟨mapCode, u, space₂, mapped⟩ : ∃ mapCode u space₂,
          vmmMap (claimPage s frame) space page (frame * pageSize) (flags ||| ptePresent) = (mapCode, u, space₂) := ⟨_, _, _, rfl⟩
        have none_ := (entry page here).trans absent
        obtain ⟨tallied', root, entries⟩ := vmmMap_tallied (tallied.others others) here none_ mapped
        rw [claims] at run
        simp only [if_neg some_, mapped] at run
        split at run
        · rename_i failed
          simp only [Prod.mk.injEq] at run
          obtain ⟨-, rfl, rfl⟩ := run
          apply tallied'.others
          rw [root]
          exact drop_others tallied.tabled available here mapped failed
        · rename_i success
          have done : mapCode = 0 := by simpa using success
          refine ih tallied' later (fun w member unresolved => ?_) run
          have low := later w member
          rw [resolve_entry tallied'.tabled low, root, entries done w low] at unresolved
          rw [root, entries done w low]
          split
          · rename_i same
            -- this page was mapped just now, to a frame that is not 0
            rw [if_pos same, leafAddr_leaf aligned] at unresolved
            omega
          · rename_i other
            rw [if_neg other, entry w low] at unresolved
            rw [entry w low]
            apply resolves w (List.mem_cons_of_mem _ member)
            rw [resolve_entry tallied.tabled low, unresolved]

end Calls
inductive MapCall where
  | map (virt phys flags : Nat)
  | mapRange (virt phys size flags : Nat)
  | unmap (virt : Nat)
  | allocAt (virt size flags : Nat)

def MapCall.run (s : Vm) (space : AddressSpace) : MapCall → Int × Vm × AddressSpace
  | .map virt phys flags => vmmMap s space virt phys flags
  | .mapRange virt phys size flags => vmmMapRange s space virt phys size flags
  | .unmap virt => vmmUnmap s space virt
  | .allocAt virt size flags => vmmAllocAt s space virt size flags

/-- The pages that vmm_map_range goes through. -/
def mapRangePages (virt size : Nat) : List Nat :=
  (List.range' 0 (alignUp size pageSize / pageSize) pageSize).map fun offset => wrap64 (virt + offset)

/-- The call keeps to the lower half, and what it maps was not mapped before. A page that
vmm_alloc_at finds mapped it takes for unmapped where it resolves to physical address 0. -/
def MapCall.Fresh (s : Vm) (space : AddressSpace) : MapCall → Prop
  | .map virt _ _ => Lower virt ∧ entryAt s space.pml4 virt = none
  | .mapRange virt _ size _ => ∀ page ∈ mapRangePages virt size, Lower page ∧ entryAt s space.pml4 page = none
  | .unmap virt => Lower virt
  | .allocAt virt size _ => ∀ page ∈ allocRange virt size,
      Lower page ∧ (vmmResolve s space page = 0 → entryAt s space.pml4 page = none)

/-- A space and the value of mapped_pages when it was made. -/
structure Census where
  vm : Vm
  space : AddressSpace
  created : Nat

def CensusStart (σ : Census) : Prop :=
  ∃ s memory, PmmSound s.pmm ∧ vmmCreateSpace s memory = (some σ.space, σ.vm) ∧ σ.created = σ.space.mappedPages

/-- A call that meets the condition, or what the rest of the kernel does to memory. -/
def CensusStep (condition : Vm → AddressSpace → MapCall → Prop) (σ τ : Census) : Prop :=
  τ.created = σ.created ∧ ((∃ call code, condition σ.vm σ.space call ∧ call.run σ.vm σ.space = (code, τ.vm, τ.space)) ∨
    Others σ.space.pml4 σ.vm τ.vm ∧ τ.space = σ.space)

def Census.Exact (σ : Census) : Prop := σ.space.mappedPages = σ.created + mappedCount σ.vm σ.space.pml4

section Run
variable {s t : Vm} {space space' : AddressSpace} {code : Int} {σ : Census}

theorem run_tallied {created : Nat} {call : MapCall} (tallied : Tallied created s space) (fresh : call.Fresh s space)
    (run : call.run s space = (code, t, space')) : Tallied created t space' := by
  cases call with
  | map virt phys flags => exact (vmmMap_tallied tallied fresh.1 fresh.2 run).1
  | mapRange virt phys size flags =>
    have pages (o : Nat) (member : o ∈ List.range' 0 (alignUp size pageSize / pageSize) pageSize) :=
      fresh (wrap64 (virt + o)) (List.mem_map_of_mem member)
    exact mapPagesAt_tallied tallied (fun o member => (pages o member).1) (fun o member => (pages o member).2)
      (mapRange_apart fun o member => (pages o member).1) run
  | unmap virt => exact vmmUnmap_tallied tallied fresh run
  | allocAt virt size flags =>
    exact allocPagesAt_tallied tallied (fun page member => (fresh page member).1) (fun page member => (fresh page member).2) run

theorem createSpace_tallied {memory : Bool} (sound : PmmSound s.pmm) (run : vmmCreateSpace s memory = (some space, t)) :
    Tallied space.mappedPages t space := by
  have holds := createSpace_holds sound run
  refine ⟨holds.tabled, ?_⟩
  have nothing : mappedCount t space.pml4 = 0 := by
    apply Finset.card_eq_zero.mpr
    apply Finset.eq_empty_of_forall_notMem
    intro page member
    obtain ⟨low, there⟩ := mem_mapped.mp member
    rw [entryAt, holds.leaf _ low] at there
    cases there
  rw [nothing, Nat.add_zero]

theorem census_call {condition : Vm → AddressSpace → MapCall → Prop} (reached : Reachable CensusStart (CensusStep condition) σ)
    (call : MapCall) (meets : condition σ.vm σ.space call) (run : call.run σ.vm σ.space = (code, t, space')) :
    Reachable CensusStart (CensusStep condition) { vm := t, space := space', created := σ.created } :=
  reached.next ⟨rfl, Or.inl ⟨call, code, meets, run⟩⟩

theorem census_tallied (reached : Reachable CensusStart (CensusStep fun s space call => call.Fresh s space) σ) :
    Tallied σ.created σ.vm σ.space := by
  refine reached.induct (fun σ => Tallied σ.created σ.vm σ.space) ?_ ?_
  · rintro σ ⟨s, memory, sound, run, start⟩
    rw [start]
    exact createSpace_tallied sound run
  · rintro σ τ tallied ⟨same, ⟨call, code, fresh, run⟩ | ⟨others, kept⟩⟩
    · rw [same]
      exact run_tallied tallied fresh run
    · rw [same, kept]
      exact tallied.others others

theorem remap_miscounts {created v phys flags e : Nat} (tallied : Tallied created s space) (lower : Lower v)
    (there : entryAt s space.pml4 v = some e) (run : vmmMap s space v phys flags = (0, t, space')) :
    space'.mappedPages = created + mappedCount t space.pml4 + 1 := by
  rw [← vmmMap_wrap] at run
  rw [← entryAt_wrap] at there
  obtain ⟨-, ⟨failed, -, -⟩ | ⟨-, rfl, entries⟩⟩ := vmmMap_entries tallied.tabled lower run
  · exact absurd rfl failed
  · have same : mappedCount t space.pml4 = mappedCount s space.pml4 := by
      apply mappedCount_congr
      intro w low
      rw [entries w low]
      split
      · rename_i page
        rw [entryAt_congr lower low page, there]
        rfl
      · rfl
    change space.mappedPages + 1 = _
    rw [same, tallied.count]

/-- After any run in which no page is mapped twice, mapped_pages has risen by the number
of lower-half pages that are mapped. -/
theorem mapping_counted (reached : Reachable CensusStart (CensusStep fun s space call => call.Fresh s space) σ) : σ.Exact :=
  (census_tallied reached).count

end Run

/-- A space of the machine after two calls of vmm_map for the same page. -/
def mappedTwice : Option (Int × Int × Nat) :=
  match vmmCreateSpace blankVm true with
  | (none, _) => none
  | (some space, s) =>
    let (first, s, space) := vmmMap s space 0x400000 0x5000 pteUser
    let (second, _, space) := vmmMap s space 0x400000 0x6000 pteUser
    some (first, second, space.mappedPages)

theorem blankVm_maps_twice : mappedTwice = some (0, 0, 2) := by decide +kernel

theorem page_counted_twice : ∃ σ, Reachable CensusStart (CensusStep fun _ _ _ => True) σ ∧ ¬ σ.Exact := by
  obtain ⟨space, vm, created⟩ := blankVm_creates
  have start : Reachable CensusStart (CensusStep fun _ _ _ => True) { vm := vm, space := space, created := space.mappedPages } :=
    .start ⟨blankVm, true, blankPmm_sound, created, rfl⟩
  have tallied := createSpace_tallied blankPmm_sound created
  have lower : Lower 0x400000 := by
    unfold Lower
    decide
  have absent : entryAt vm space.pml4 0x400000 = none := by
    rw [entryAt, (createSpace_holds blankPmm_sound created).leaf _ (by decide)]
    rfl
  obtain ⟨code, s, space₁, first⟩ : ∃ code s space₁, vmmMap vm space 0x400000 0x5000 pteUser = (code, s, space₁) := ⟨_, _, _, rfl⟩
  obtain ⟨code', t, space₂, second⟩ : ∃ code' t space₂, vmmMap s space₁ 0x400000 0x6000 pteUser = (code', t, space₂) := ⟨_, _, _, rfl⟩
  have codes := blankVm_maps_twice
  unfold mappedTwice at codes
  rw [created] at codes
  simp only [first, second, Option.some.injEq, Prod.mk.injEq] at codes
  obtain ⟨rfl, rfl, -⟩ := codes
  obtain ⟨tallied₁, root, entries⟩ := vmmMap_tallied tallied lower absent first
  have there := entries rfl _ lower
  rw [if_pos rfl, ← root] at there
  have reached := census_call start (.map 0x400000 0x5000 pteUser) trivial first
  have reached' := census_call reached (.map 0x400000 0x6000 pteUser) trivial second
  have off := remap_miscounts tallied₁ lower there second
  have root₂ : space₂.pml4 = space₁.pml4 := by
    obtain ⟨-, ⟨-, same, -⟩ | ⟨-, same, -⟩⟩ := vmmMap_entries tallied₁.tabled lower second
    · rw [same]
    · rw [same]
  refine ⟨_, reached', fun exact_ => ?_⟩
  have count : space₂.mappedPages = space.mappedPages + mappedCount t space₂.pml4 := exact_
  rw [off, root₂] at count
  omega

theorem mapping_counted_once : ∃ space s code t space', vmmCreateSpace blankVm true = (some space, s) ∧
    vmmMap s space 0x400000 0x5000 pteUser = (code, t, space') ∧ space'.mappedPages = space.mappedPages + mappedCount t space'.pml4 := by
  obtain ⟨space, vm, created⟩ := blankVm_creates
  have start : Reachable CensusStart (CensusStep fun s space call => call.Fresh s space)
      { vm := vm, space := space, created := space.mappedPages } :=
    .start ⟨blankVm, true, blankPmm_sound, created, rfl⟩
  have lower : Lower 0x400000 := by
    unfold Lower
    decide
  have absent : entryAt vm space.pml4 0x400000 = none := by
    rw [entryAt, (createSpace_holds blankPmm_sound created).leaf _ (by decide)]
    rfl
  obtain ⟨code, t, space', mapped⟩ : ∃ code t space', vmmMap vm space 0x400000 0x5000 pteUser = (code, t, space') := ⟨_, _, _, rfl⟩
  have reached := census_call start (.map 0x400000 0x5000 pteUser) ⟨lower, absent⟩ mapped
  exact ⟨space, vm, code, t, space', created, mapped, mapping_counted reached⟩

end Qito.Mm
