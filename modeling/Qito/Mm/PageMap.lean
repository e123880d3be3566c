import Qito.Lib.Runs
import Qito.Mm.Tables

/-! vmm_map, vmm_unmap and vmm_resolve against a page map: a function from page
numbers to what they are mapped to. -/
namespace Qito.Mm
open Words Bitmaps Tries Runs

/-- The physical page and the flags of each page that is mapped. -/
abbrev PageMap := Nat → Option (Nat × Nat)

/-- PTE_USER is set at all four levels. -/
def UserAccessible (mem : Memory) (root virt : Nat) : Prop :=
  ∃ table, follow (userStep mem) root (indices virt) = some table ∧
    has (mem table (ptIndex virt)) ptePresent = true ∧ has (mem table (ptIndex virt)) pteUser = true

/-- The tables of the space hold the pages of the map. -/
structure Holds (s : Vm) (root : Nat) (pages : PageMap) : Prop where
  tabled : Tabled 3 root s
  leaf : ∀ v, v < lowerHalf →
    leafAt root s.mem (indices v) (ptIndex v) = (pages (v / pageSize)).map fun m => leafEntry m.1 m.2
  real : ∀ page m, pages page = some m → Aligned m.1 ∧ m.1 ≠ 0
  user : ∀ v, v < lowerHalf → ∀ m, pages (v / pageSize) = some m → has m.2 pteUser = true →
    ∃ table, follow (userStep s.mem) root (indices v) = some table

section Meaning
variable {s t : Vm} {space : AddressSpace} {root : Nat} {pages : PageMap} {v : Nat}

theorem userFollow_table {mem : Memory} {p : List Nat} {a : Nat} (inside : p ∈ lowerPaths 3)
    (ends : follow (userStep mem) root p = some a) : follow (tableStep mem) root p = some a :=
  follow_mono (lowerPaths_closed 3) (fun _ _ _ _ => userStep_table) inside ends

/-- What the map says an address resolves to. -/
def PageMap.resolve (pages : PageMap) (virt : Nat) : Nat :=
  match pages (virt / pageSize) with
  | none => 0
  | some m => m.1 + virt % pageSize

def PageMap.User (pages : PageMap) (virt : Nat) : Prop := ∃ m, pages (virt / pageSize) = some m ∧ has m.2 pteUser = true

theorem Holds.resolve (holds : Holds s space.pml4 pages) (lower : v < lowerHalf) :
    vmmResolve s space v = pages.resolve v := by
  rw [vmmResolve_spec holds.tabled lower, holds.leaf v lower, PageMap.resolve]
  cases mapped : pages (v / pageSize) with
  | none => rfl
  | some m => exact leafAddr_leaf (holds.real _ m mapped).1 m.2 v

theorem Holds.accessible (holds : Holds s root pages) (lower : v < lowerHalf) :
    UserAccessible s.mem root v ↔ pages.User v := by
  have leaf := holds.leaf v lower
  constructor
  · rintro ⟨table, ends, present, user⟩
    rw [leafAt, userFollow_table (indices_lower lower) ends, Option.bind_some, if_pos present] at leaf
    obtain ⟨m, mapped, entry⟩ := Option.map_eq_some_iff.mp leaf.symm
    refine ⟨m, mapped, ?_⟩
    rw [← leafEntry_user m.2 m.1, entry]
    exact user
  · rintro ⟨m, mapped, user⟩
    obtain ⟨table, ends⟩ := holds.user v lower m mapped user
    rw [leafAt, userFollow_table (indices_lower lower) ends, Option.bind_some, mapped, Option.map_some] at leaf
    split at leaf
    · rename_i present
      refine ⟨table, ends, present, ?_⟩
      rw [Option.some.inj leaf, leafEntry_user]
      exact user
    · cases leaf

theorem Holds.extends (holds : Holds s root pages) (grows : Extends 3 root s t) : Holds t root pages where
  tabled := grows.tabled
  leaf v lower := (grows.leaf _ (indices_lower lower) (indices_length v) _).trans (holds.leaf v lower)
  real := holds.real
  user v lower m mapped user := by
    obtain ⟨table, ends⟩ := holds.user v lower m mapped user
    exact ⟨table, grows.user _ (indices_lower lower) table ends⟩

end Meaning

section Leaves
variable {s : Vm} {root table : Nat} {v entry : Nat}

theorem leaf_follow (step : Memory → Nat → Nat → Option Nat) (tabled : Tabled 3 root s) (lower : v < lowerHalf)
    (at_ : follow (tableStep s.mem) root (indices v) = some table)
    (sub : ∀ c j d, step s.mem c j = some d → tableStep s.mem c j = some d)
    (local_ : ∀ (m m' : Memory) (c j : Nat), m c j = m' c j → step m c j = step m' c j) {q : List Nat} (member : q ∈ lowerPaths 3) :
    follow (step (s.write table (ptIndex v) entry).mem) root q = follow (step s.mem) root q := by
  refine follow_congr (lowerPaths_closed 3) (fun q j inside c ends => ?_) member
  have old := follow_mono (lowerPaths_closed 3) (fun c j d _ => sub c j d) (lowerPaths_closed 3 q j inside) ends
  have other := tabled.above_leaves (Nat.le_refl 3) inside old (indices_lower lower) (indices_length v) at_
  apply local_
  rw [write_mem, if_neg fun both => other both.1.symm]

theorem leaf_tables (tabled : Tabled 3 root s) (lower : v < lowerHalf) (at_ : follow (tableStep s.mem) root (indices v) = some table)
    {q : List Nat} (member : q ∈ lowerPaths 3) :
    follow (tableStep (s.write table (ptIndex v) entry).mem) root q = follow (tableStep s.mem) root q := by
  refine leaf_follow tableStep tabled lower at_ (fun _ _ _ step => step) (fun m m' c j same => ?_) member
  unfold tableStep
  rw [same]

theorem leaf_tabled (tabled : Tabled 3 root s) (lower : v < lowerHalf)
    (at_ : follow (tableStep s.mem) root (indices v) = some table) : Tabled 3 root (s.write table (ptIndex v) entry) := by
  have tables {q : List Nat} (member : q ∈ lowerPaths 3) := @leaf_tables s root table v entry tabled lower at_ q member
  constructor
  · exact tabled.pmm
  · exact tabled.unshared.of_follow fun q member => tables member
  · intro q c j inside ends there
    rw [tables (lowerPaths_closed 3 q j inside)] at ends
    have other := tabled.above_leaves (Nat.le_refl 3) inside ends (indices_lower lower) (indices_length v) at_
    rw [write_mem, if_neg fun both => other both.1.symm] at there ⊢
    exact tabled.plain q c j inside ends there
  · rintro a ⟨q, member, ends⟩
    rw [tables member] at ends
    exact tabled.held a ⟨q, member, ends⟩

theorem leaf_write (tabled : Tabled 3 root s) (lower : v < lowerHalf) (at_ : follow (tableStep s.mem) root (indices v) = some table)
    {w : Nat} (lower' : w < lowerHalf) : leafAt root (s.write table (ptIndex v) entry).mem (indices w) (ptIndex w) =
      if w / pageSize = v / pageSize then if has entry ptePresent then some entry else none
      else leafAt root s.mem (indices w) (ptIndex w) := by
  rw [leafAt, leaf_tables tabled lower at_ (indices_lower lower')]
  by_cases same : w / pageSize = v / pageSize
  · obtain ⟨path, last⟩ := (indices_page lower' lower).mpr same
    rw [if_pos same, path, last, at_, Option.bind_some, write_same]
  · rw [if_neg same, leafAt]
    cases ends : follow (tableStep s.mem) root (indices w) with
    | none => rfl
    | some c =>
      have apart : ¬ (c = table ∧ ptIndex w = ptIndex v) := by
        rintro ⟨rfl, last⟩
        have path := tabled.unshared _ (indices_lower lower') _ (indices_lower lower) c ends at_
        exact same ((indices_page lower' lower).mp ⟨path, last⟩)
      have kept : (s.write table (ptIndex v) entry).mem c (ptIndex w) = s.mem c (ptIndex w) := by
        rw [write_mem, if_neg apart]
      rw [Option.bind_some, Option.bind_some, kept]

theorem leaf_holds {pages : PageMap} {mapped : Option (Nat × Nat)} (holds : Holds s root pages) (lower : v < lowerHalf)
    (at_ : follow (tableStep s.mem) root (indices v) = some table)
    (means : (if has entry ptePresent then some entry else none) = mapped.map fun m => leafEntry m.1 m.2)
    (real : ∀ m, mapped = some m → Aligned m.1 ∧ m.1 ≠ 0)
    (user : ∀ m, mapped = some m → has m.2 pteUser = true → ∃ t, follow (userStep s.mem) root (indices v) = some t) :
    Holds (s.write table (ptIndex v) entry) root (Function.update pages (v / pageSize) mapped) := by
  have users {q : List Nat} (member : q ∈ lowerPaths 3) :
      follow (userStep (s.write table (ptIndex v) entry).mem) root q = follow (userStep s.mem) root q := by
    refine leaf_follow userStep holds.tabled lower at_ (fun _ _ _ => userStep_table) (fun m m' c j same => ?_) member
    unfold userStep
    rw [same]
  constructor
  · exact leaf_tabled holds.tabled lower at_
  · intro w lower'
    rw [leaf_write holds.tabled lower at_ lower']
    by_cases same : w / pageSize = v / pageSize
    · rw [if_pos same, same, Function.update_self]
      exact means
    · rw [if_neg same, Function.update_of_ne same, ← holds.leaf w lower']
  · intro page m here
    by_cases same : page = v / pageSize
    · rw [same, Function.update_self] at here
      exact real m here
    · rw [Function.update_of_ne same] at here
      exact holds.real page m here
  · intro w lower' m here open_
    rw [users (indices_lower lower')]
    by_cases same : w / pageSize = v / pageSize
    · rw [same, Function.update_self] at here
      rw [((indices_page lower' lower).mpr same).1]
      exact user m here open_
    · rw [Function.update_of_ne same] at here
      exact holds.user w lower' m here open_

end Leaves

section Calls
variable {s t : Vm} {space space' : AddressSpace} {pages : PageMap} {virt : Nat} {code : Int}

theorem vmmMap_spec {phys flags : Nat} (holds : Holds s space.pml4 pages) (lower : virt < lowerHalf)
    (real : Aligned phys ∧ phys ≠ 0) (run : vmmMap s space virt phys flags = (code, t, space')) :
    space'.pml4 = space.pml4 ∧
      Holds t space.pml4 (if code = 0 then Function.update pages (virt / pageSize) (some (phys, flags)) else pages) := by
  unfold vmmMap at run
  obtain ⟨r, u, walked⟩ : ∃ r u, walk s space (pageAlignDown virt) true flags = (r, u) := ⟨_, _, rfl⟩
  obtain ⟨grows, arrives, -⟩ := walk_spec holds.tabled (Nat.le_refl 3) lower true walked
  have kept := holds.extends grows
  rw [walked] at run
  cases r with
  | none =>
    simp only [Prod.mk.injEq] at run
    obtain ⟨rfl, rfl, rfl⟩ := run
    exact ⟨rfl, kept⟩
  | some table =>
    simp only [Prod.mk.injEq] at run
    obtain ⟨rfl, rfl, rfl⟩ := run
    rw [if_pos rfl, alignDown_ptIndex, ← leafEntry]
    refine ⟨rfl, leaf_holds kept lower (arrives table rfl).table ?_ ?_ ?_⟩
    · rw [leafEntry_present]
      rfl
    · rintro m same
      cases Option.some.inj same
      exact real
    · rintro m same user
      cases Option.some.inj same
      exact ⟨table, (arrives table rfl).user user⟩

theorem vmmUnmap_spec (holds : Holds s space.pml4 pages) (lower : virt < lowerHalf)
    (run : vmmUnmap s space virt = (code, t, space')) :
    space'.pml4 = space.pml4 ∧ Holds t space.pml4 (Function.update pages (virt / pageSize) none) := by
  unfold vmmUnmap at run
  obtain ⟨r, u, walked⟩ : ∃ r u, walk s space (pageAlignDown virt) false 0 = (r, u) := ⟨_, _, rfl⟩
  obtain ⟨-, -, still⟩ := walk_spec holds.tabled (Nat.le_refl 3) lower false walked
  obtain ⟨rfl, ends⟩ := still rfl rfl
  rw [walked] at run
  -- where there is no entry to clear the page was not mapped
  have unmapped (absent : leafAt space.pml4 u.mem (indices virt) (ptIndex virt) = none) :
      Function.update pages (virt / pageSize) none = pages := by
    rw [holds.leaf virt lower, Option.map_eq_none_iff] at absent
    rw [← absent, Function.update_eq_self]
  cases r with
  | none =>
    simp only [Prod.mk.injEq] at run
    obtain ⟨rfl, rfl, rfl⟩ := run
    rw [unmapped (by rw [leafAt, ← ends]; rfl)]
    exact ⟨rfl, holds⟩
  | some table =>
    simp only [alignDown_ptIndex] at run
    split at run
    · rename_i absent
      simp only [Prod.mk.injEq] at run
      obtain ⟨rfl, rfl, rfl⟩ := run
      have clear : has (u.mem table (ptIndex virt)) ptePresent = false := by simpa using absent
      rw [unmapped (by rw [leafAt, ← ends, Option.bind_some, clear]; rfl)]
      exact ⟨rfl, holds⟩
    · simp only [Prod.mk.injEq] at run
      obtain ⟨rfl, rfl, rfl⟩ := run
      exact ⟨rfl, leaf_holds holds lower ends.symm rfl (by simp) (by simp)⟩

theorem createSpace_holds {memory : Bool} (sound : PmmSound s.pmm) (run : vmmCreateSpace s memory = (some space, t)) :
    Holds t space.pml4 fun _ => none := by
  obtain ⟨frame, available, rfl, rfl⟩ := createSpace_cases sound run
  refine ⟨createSpace_tabled 3 sound available, fun v lower => ?_, by simp, by simp⟩
  unfold leafAt
  cases ends : follow (tableStep (kernelHalf (claimPage s frame) (frame * pageSize)).mem) (frame * pageSize) (indices v) with
  | none => rfl
  | some c => exact absurd (createSpace_follow (indices_lower lower) ends).1 (by simp [indices])

/-- The rest of the kernel uses memory, but not the tables of the space. -/
structure Others (root : Nat) (s t : Vm) : Prop where
  pmm : PmmSound t.pmm
  frames : t.pmm.frameCount = s.pmm.frameCount
  tables : ∀ a, TableOf 3 root s.mem a → t.mem a = s.mem a ∧ t.pmm.frameBitmap.test (a / pageSize) = true

section Others
variable {root : Nat}

theorem Others.follow (others : Others root s t) {q : List Nat} (member : q ∈ lowerPaths 3) :
    follow (tableStep t.mem) root q = follow (tableStep s.mem) root q := by
  refine follow_congr (lowerPaths_closed 3) (fun q j inside c ends => ?_) member
  unfold tableStep
  rw [(others.tables c ⟨q, lowerPaths_closed 3 q j inside, ends⟩).1]

theorem Tabled.others (tabled : Tabled 3 root s) (others : Others root s t) : Tabled 3 root t := by
  constructor
  · exact others.pmm
  · exact tabled.unshared.of_follow fun q member => others.follow member
  · intro q c i inside ends there
    have front := lowerPaths_closed 3 q i inside
    rw [others.follow front] at ends
    rw [(others.tables c ⟨q, front, ends⟩).1] at there ⊢
    exact tabled.plain q c i inside ends there
  · rintro a ⟨q, member, ends⟩
    rw [others.follow member] at ends
    have held := tabled.held a ⟨q, member, ends⟩
    refine ⟨held.aligned, (others.tables a ⟨q, member, ends⟩).2, ?_⟩
    rw [others.frames]
    exact held.tracked

theorem Others.leaf (others : Others root s t) {p : List Nat} (inside : p ∈ lowerPaths 3) (i : Nat) :
    leafAt root t.mem p i = leafAt root s.mem p i := by
  rw [leafAt, leafAt, others.follow inside]
  cases ends : Tries.follow (tableStep s.mem) root p with
  | none => rfl
  | some c => rw [Option.bind_some, Option.bind_some, (others.tables c ⟨_, inside, ends⟩).1]

theorem Holds.others (holds : Holds s root pages) (others : Others root s t) : Holds t root pages := by
  have users {q : List Nat} (member : q ∈ lowerPaths 3) :
      Tries.follow (userStep t.mem) root q = Tries.follow (userStep s.mem) root q := by
    refine follow_congr (lowerPaths_closed 3) (fun q j inside c ends => ?_) member
    have front := lowerPaths_closed 3 q j inside
    unfold userStep
    rw [(others.tables c ⟨q, front, userFollow_table front ends⟩).1]
  constructor
  · exact holds.tabled.others others
  · intro v lower
    rw [← holds.leaf v lower, others.leaf (indices_lower lower)]
  · exact holds.real
  · intro v lower
    rw [users (indices_lower lower)]
    exact holds.user v lower

end Others
end Calls

/-- A space beside the map of what was mapped in it. -/
structure Mapping where
  vm : Vm
  space : AddressSpace
  pages : PageMap

inductive MapOp where
  | map (virt phys flags : Nat)
  | unmap (virt : Nat)

def MapOp.virt : MapOp → Nat
  | .map virt _ _ => virt
  | .unmap virt => virt

/-- Addresses in the lower half, and pages that an entry can hold. -/
def MapOp.Allowed : MapOp → Prop
  | .map virt phys _ => virt < lowerHalf ∧ phys % pageSize = 0 ∧ phys < 2 ^ 52 ∧ phys ≠ 0
  | .unmap virt => virt < lowerHalf

def Mapping.perform (σ : Mapping) : MapOp → Int × Mapping
  | .map virt phys flags =>
    let (code, vm, space) := vmmMap σ.vm σ.space virt phys flags
    (code, { vm := vm, space := space, pages :=
      if code = 0 then Function.update σ.pages (virt / pageSize) (some (phys, flags)) else σ.pages })
  | .unmap virt =>
    let (code, vm, space) := vmmUnmap σ.vm σ.space virt
    (code, { vm := vm, space := space, pages := Function.update σ.pages (virt / pageSize) none })

def MappingStart (σ : Mapping) : Prop :=
  ∃ s memory, PmmSound s.pmm ∧ vmmCreateSpace s memory = (some σ.space, σ.vm) ∧ σ.pages = fun _ => none

def MappingStep (σ τ : Mapping) : Prop :=
  (∃ op, op.Allowed ∧ τ = (σ.perform op).2) ∨
    Others σ.space.pml4 σ.vm τ.vm ∧ τ.space = σ.space ∧ τ.pages = σ.pages

section Run
variable {σ τ : Mapping}

abbrev Mapping.Sound (σ : Mapping) : Prop := Holds σ.vm σ.space.pml4 σ.pages

theorem perform_holds (sound : σ.Sound) {op : MapOp} (allowed : op.Allowed) : (σ.perform op).2.Sound := by
  cases op with
  | map virt phys flags =>
    obtain ⟨code, vm, space, run⟩ : ∃ code vm space, vmmMap σ.vm σ.space virt phys flags = (code, vm, space) := ⟨_, _, _, rfl⟩
    obtain ⟨lower, whole, small, some_⟩ := allowed
    obtain ⟨root, holds⟩ := vmmMap_spec sound lower ⟨⟨whole, small⟩, some_⟩ run
    simp only [Mapping.perform, run, Mapping.Sound, root]
    exact holds
  | unmap virt =>
    obtain ⟨code, vm, space, run⟩ : ∃ code vm space, vmmUnmap σ.vm σ.space virt = (code, vm, space) := ⟨_, _, _, rfl⟩
    obtain ⟨root, holds⟩ := vmmUnmap_spec sound allowed run
    simp only [Mapping.perform, run, Mapping.Sound, root]
    exact holds

theorem mapping_sound (reached : Reachable MappingStart MappingStep σ) : σ.Sound := by
  refine reached.induct Mapping.Sound ?_ ?_
  · rintro σ ⟨s, memory, sound, run, empty⟩
    rw [Mapping.Sound, empty]
    exact createSpace_holds sound run
  · rintro σ τ sound (⟨op, allowed, rfl⟩ | ⟨others, space, pages⟩)
    · exact perform_holds sound allowed
    · rw [Mapping.Sound, space, pages]
      exact sound.others others

/-- An operation writes the map at its own page at most, and a map that fails not there. -/
theorem perform_pages (σ : Mapping) (op : MapOp) {page : Nat}
    (apart : page ≠ op.virt / pageSize ∨ (∃ virt phys flags, op = .map virt phys flags) ∧ (σ.perform op).1 ≠ 0) :
    (σ.perform op).2.pages page = σ.pages page := by
  cases op with
  | map virt phys flags =>
    simp only [Mapping.perform, MapOp.virt] at apart ⊢
    split
    · rename_i success
      rcases apart with other | ⟨-, failed⟩
      · rw [Function.update_of_ne other]
      · exact absurd success failed
    · rfl
  | unmap virt =>
    rcases apart with other | ⟨⟨_, _, _, same⟩, -⟩
    · exact Function.update_of_ne other _ _
    · cases same

/-- After any run resolving and user access are what the map says, and the next
operation changes them for its own page alone, or not at all where a map fails. -/
theorem pages_refined (reached : Reachable MappingStart MappingStep σ) :
    (∀ v, v < lowerHalf → vmmResolve σ.vm σ.space v = σ.pages.resolve v ∧
      (UserAccessible σ.vm.mem σ.space.pml4 v ↔ σ.pages.User v)) ∧
    ∀ op, op.Allowed → ∀ v, v < lowerHalf →
      (v / pageSize ≠ op.virt / pageSize ∨ (∃ virt phys flags, op = .map virt phys flags) ∧ (σ.perform op).1 ≠ 0) →
      vmmResolve (σ.perform op).2.vm (σ.perform op).2.space v = vmmResolve σ.vm σ.space v ∧
      (UserAccessible (σ.perform op).2.vm.mem (σ.perform op).2.space.pml4 v ↔ UserAccessible σ.vm.mem σ.space.pml4 v) := by
  have sound := mapping_sound reached
  refine ⟨fun v lower => ⟨sound.resolve lower, sound.accessible lower⟩, fun op allowed v lower apart => ?_⟩
  have after := perform_holds sound allowed
  have same := perform_pages σ op apart
  rw [after.resolve lower, sound.resolve lower, after.accessible lower, sound.accessible lower]
  unfold PageMap.resolve PageMap.User
  rw [same]
  exact ⟨rfl, Iff.rfl⟩

end Run

/-- A machine with 256 frames above the first MiB, all free, and cleared memory. -/
def blankPmm : Pmm where
  frameBitmap := fun byte => if byte < 32 then 0xFF#8 else 0
  frameCount := 512
  usedFrames := 256
  lastAllocHint := 256

def blankVm : Vm where
  pmm := blankPmm
  mem := fun _ _ => 0
  kernelPml4 := 0x20000
  frees := []

theorem blankPmm_sound : PmmSound blankPmm := by
  have counted : 256 = blankPmm.frameBitmap.count 512 := by decide +kernel
  have low : ∀ frame, frame < 256 → blankPmm.frameBitmap.test frame = true := by decide +kernel
  exact ⟨counted, by decide, by decide, by decide, low⟩

theorem blankVm_creates : ∃ space vm, vmmCreateSpace blankVm true = (some space, vm) := by
  have found : searchRun blankPmm.frameBitmap 1 512 256 = some 256 := by
    unfold searchRun
    rfl
  have claims : blankVm.allocPage = (256 * pageSize, claimPage blankVm 256) := by
    simp only [Vm.allocPage, pmmAllocPage, pmmAllocPages, show blankVm.pmm = blankPmm from rfl,
      show blankPmm.frameCount = 512 from rfl, show blankPmm.lastAllocHint = 256 from rfl, found]
    rfl
  refine ⟨{ pml4 := 256 * pageSize, refCount := 1, mappedPages := 0 },
    kernelHalf (claimPage blankVm 256) (256 * pageSize), ?_⟩
  simp only [vmmCreateSpace, claims]
  rfl

theorem pages_refined_after_map : ∃ space vm, vmmCreateSpace blankVm true = (some space, vm) ∧
    let σ := (Mapping.perform { vm := vm, space := space, pages := fun _ => none } (.map 0x400000 0x5000 pteUser)).2
    ∀ v, v < lowerHalf → vmmResolve σ.vm σ.space v = σ.pages.resolve v ∧
      (UserAccessible σ.vm.mem σ.space.pml4 v ↔ σ.pages.User v) := by
  obtain ⟨space, vm, run⟩ := blankVm_creates
  have first : Reachable MappingStart MappingStep { vm := vm, space := space, pages := fun _ => none } :=
    .start ⟨blankVm, true, blankPmm_sound, run, rfl⟩
  have allowed : (MapOp.map 0x400000 0x5000 pteUser).Allowed := by
    simp only [MapOp.Allowed]
    decide
  exact ⟨space, vm, run, (pages_refined (.next first (Or.inl ⟨_, allowed, rfl⟩))).1⟩

end Qito.Mm
