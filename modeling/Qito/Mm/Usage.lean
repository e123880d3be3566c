import Qito.Mm.Mappings

/-! Runs of mmap and munmap in one address space. Beside the state are the live
mappings: what mmap returned, less what was unmapped since. -/
namespace Qito.Mm
open Words Bitmaps Tries Runs

/-- A mapping, with the pages of it that are live and their frames. -/
structure Area where
  null : Bool
  pages : List (Nat × Nat)

structure Usage where
  ready : Bool
  vm : Vm
  space : AddressSpace
  /-- The large pages of the space. -/
  large : Nat → Nat → Bool
  areas : List Area

def Usage.pages (σ : Usage) : List (Nat × Nat) := σ.areas.flatMap Area.pages

inductive AreaCall where
  | map (addr length prot flags : Nat)
  | unmap (addr length : Nat)

/-- The addresses of the pages that a call goes through. -/
def AreaCall.range : AreaCall → List Nat
  | .map addr length _ _ => addresses (mmapAddress addr) (pageOffsets length)
  | .unmap addr length => addresses addr (pageOffsets length)

def AreaCall.touches (call : AreaCall) (page : Nat) : Bool := decide (page ∈ call.range.map (· / pageSize))

def Usage.perform (σ : Usage) : AreaCall → Usage
  | .map addr length prot flags =>
    match mmap σ.ready σ.vm σ.space addr length prot flags with
    | (none, vm, space) => { σ with vm := vm, space := space }
    | (some (va, pages), vm, space) => { σ with
        vm := vm, space := space, areas := σ.areas ++ [{ null := decide (addr = 0), pages := framesOf va pages }] }
  | .unmap addr length =>
    let (vm, space) := munmap σ.vm σ.space addr length
    { σ with vm := vm, space := space, areas := σ.areas.map fun a =>
      { a with pages := a.pages.filter fun m => !(AreaCall.unmap addr length).touches m.1 } }

/-- The range lies in the lower half. -/
def AreaCall.Within : AreaCall → Prop
  | .map addr length _ _ => mmapAddress addr + length ≤ lowerHalf
  | .unmap addr length => addr + length ≤ lowerHalf

/-- The range of mmap is not mapped, and either all of it finds room or its first page does
not. The range of munmap has no pages but mmap's with allocated frames behind them. -/
def AreaCall.Harmless (σ : Usage) (call : AreaCall) : Prop :=
  match call with
  | .map _ _ _ _ => σ.ready = true → (∀ v ∈ call.range, entryAt (σ.vm.hide σ.large) σ.space.pml4 v = none) ∧
      (Fits σ.large σ.space.pml4 σ.vm call.range ∨ ∀ v ∈ call.range.head?, NoRoom σ.large σ.space.pml4 σ.vm v)
  | .unmap _ _ => ∀ v ∈ call.range, Ours σ.vm σ.space σ.pages v

/-- A failed mmap leaves the data frames and the entries, and munmap gives back the
frames that mmap took for the pages of its range, and no others. -/
def AreaCall.Accounted (σ : Usage) : AreaCall → Prop
  | .map addr length prot flags => (mmap σ.ready σ.vm σ.space addr length prot flags).1 = none →
      Unchanged σ.large σ.space.pml4 σ.vm (mmap σ.ready σ.vm σ.space addr length prot flags).2.1
  | .unmap addr length => ∀ f, Allocated (munmap σ.vm σ.space addr length).1.pmm f ↔
      Allocated σ.vm.pmm f ∧ ¬ ∃ m ∈ σ.pages, (AreaCall.unmap addr length).touches m.1 = true ∧ m.2 = f

/-- No two live mappings that were made without an address share a page. -/
def Usage.Separate (σ : Usage) : Prop :=
  σ.areas.Pairwise fun a b => a.null = true → b.null = true → ∀ m ∈ a.pages, ∀ n ∈ b.pages, m.1 ≠ n.1

/-- The rest of the kernel uses memory, but not the tables or the frames of mmap. -/
structure Elsewhere (σ τ : Usage) : Prop where
  vm : Others σ.space.pml4 (σ.vm.hide σ.large) (τ.vm.hide σ.large)
  same : ∀ c j, σ.large c j = true → τ.vm.mem c j = σ.vm.mem c j
  held : ∀ m ∈ σ.pages, Allocated τ.vm.pmm m.2
  space : τ.space = σ.space
  large : τ.large = σ.large
  areas : τ.areas = σ.areas

/-- A space with any pages and large pages of others, and none of mmap's. -/
def UsageStart (σ : Usage) : Prop := Paged σ.large σ.space.pml4 σ.vm ∧ σ.areas = []

/-- A call that meets the condition, or what the rest of the kernel does to memory. -/
def UsageStep (condition : Usage → AreaCall → Prop) (σ τ : Usage) : Prop :=
  (∃ call : AreaCall, call.Within ∧ condition σ call ∧ τ = σ.perform call) ∨ Elsewhere σ τ

section Ranges
variable {va length : Nat}

theorem addresses_range (within : va + length ≤ lowerHalf) :
    addresses va (pageOffsets length) = (List.range ((length + 4095) / 4096)).map fun k => va + 4096 * k := by
  change va + length ≤ 2 ^ 47 at within
  have size : alignUp length pageSize = wrap64 (length + 4096 - 1) / 4096 * 4096 := alignUp_eq (k := 12) (by decide)
  unfold addresses pageOffsets
  rw [size, wrap64_of_lt (by omega), Nat.mul_div_cancel _ (by decide)]
  apply List.ext_getElem
  · simp
  · intro k first _
    rw [List.length_map, List.length_range'] at first
    rw [List.getElem_map, List.getElem_range', List.getElem_map, List.getElem_range]
    change wrap64 (va + (0 + 4096 * k)) = va + 4096 * k
    rw [Nat.zero_add, wrap64_of_lt (by omega)]

theorem range_lower (within : va + length ≤ lowerHalf) : ∀ v ∈ addresses va (pageOffsets length), v < lowerHalf := by
  rw [addresses_range within]
  intro v member
  obtain ⟨k, inside, rfl⟩ := List.mem_map.mp member
  have small := List.mem_range.mp inside
  change va + length ≤ 2 ^ 47 at within
  change va + 4096 * k < 2 ^ 47
  omega

theorem range_apart (within : va + length ≤ lowerHalf) :
    (addresses va (pageOffsets length)).Pairwise fun v w => w / pageSize ≠ v / pageSize := by
  rw [addresses_range within, List.pairwise_map]
  refine List.pairwise_lt_range.imp ?_
  intro i j order
  change (va + 4096 * j) / 4096 ≠ (va + 4096 * i) / 4096
  omega

end Ranges

section Run
variable {σ τ : Usage} {call : AreaCall}

abbrev Usage.Sound (σ : Usage) : Prop := Owns σ.large σ.space.pml4 σ.vm σ.pages

theorem mmap_cases {addr length prot flags : Nat} {r : Option (Nat × List (Nat × Nat))} {t : Vm} {space' : AddressSpace} (sound : σ.Sound)
    (within : (AreaCall.map addr length prot flags).Within) (harmless : (AreaCall.map addr length prot flags).Harmless σ)
    (run : mmap σ.ready σ.vm σ.space addr length prot flags = (r, t, space')) : space'.pml4 = σ.space.pml4 ∧
      (r = none ∧ Owns σ.large σ.space.pml4 t σ.pages ∧ Unchanged σ.large σ.space.pml4 σ.vm t ∨
        ∃ va pages, r = some (va, pages) ∧ Extended σ.large σ.space.pml4 σ.vm t σ.pages (framesOf va pages)) := by
  unfold mmap at run
  split at run
  · simp only [Prod.mk.injEq] at run
    obtain ⟨rfl, rfl, rfl⟩ := run
    exact ⟨rfl, Or.inl ⟨rfl, sound, fun _ => Iff.rfl, fun _ _ => rfl⟩⟩
  · rename_i ready
    obtain ⟨entry, room⟩ := harmless (by simpa using ready)
    have unmapped : Unmapped σ.large σ.space.pml4 σ.vm (addresses (mmapAddress addr) (pageOffsets length)) :=
      ⟨range_lower within, entry, range_apart within⟩
    obtain ⟨r', u, space₂, mapped⟩ : ∃ r' u space₂, mmapPages σ.vm σ.space (mmapAddress addr) (mmapFlags prot flags) []
      (pageOffsets length) = (r', u, space₂) := ⟨_, _, _, rfl⟩
    rw [mapped] at run
    have fitting (fits : Fits σ.large σ.space.pml4 σ.vm (addresses (mmapAddress addr) (pageOffsets length))) :
        space'.pml4 = σ.space.pml4 ∧ ∃ va pages, r = some (va, pages) ∧
          Extended σ.large σ.space.pml4 σ.vm t σ.pages (framesOf va pages) := by
      obtain ⟨root, new, rfl, -, extended⟩ := mmapPages_fits sound unmapped fits mapped
      simp only [List.nil_append, Prod.mk.injEq] at run
      obtain ⟨rfl, rfl, rfl⟩ := run
      exact ⟨root, _, _, rfl, extended⟩
    rcases room with fits | none_
    · obtain ⟨root, extended⟩ := fitting fits
      exact ⟨root, Or.inr extended⟩
    · change ∀ v ∈ (addresses (mmapAddress addr) (pageOffsets length)).head?, _ at none_
      cases offsets : pageOffsets length with
      | nil =>
        rw [offsets] at fitting
        obtain ⟨root, extended⟩ := fitting ⟨by simp [addresses], by simp [addresses, ways, gaps]⟩
        exact ⟨root, Or.inr extended⟩
      | cons offset rest =>
        rw [offsets] at mapped none_ unmapped
        obtain ⟨root, rfl, owns, unchanged⟩ := mmapPages_refused sound (unmapped.lower _ List.mem_cons_self) (none_ _ rfl) mapped
        simp only [Prod.mk.injEq] at run
        obtain ⟨rfl, rfl, rfl⟩ := run
        exact ⟨root, Or.inl ⟨rfl, owns, unchanged⟩⟩

theorem munmap_cases {addr length : Nat} (sound : σ.Sound) (within : (AreaCall.unmap addr length).Within)
    (harmless : (AreaCall.unmap addr length).Harmless σ) : (munmap σ.vm σ.space addr length).2.pml4 = σ.space.pml4 ∧
      Returned σ.large σ.space.pml4 σ.vm (munmap σ.vm σ.space addr length).1 σ.pages (AreaCall.unmap addr length).touches :=
  munmapPages_returns sound (range_lower within) (range_apart within) harmless rfl

theorem perform_owns (sound : σ.Sound) (within : call.Within) (harmless : call.Harmless σ) : (σ.perform call).Sound := by
  cases call with
  | map addr length prot flags =>
    obtain ⟨r, t, space', run⟩ : ∃ r t space', mmap σ.ready σ.vm σ.space addr length prot flags = (r, t, space') := ⟨_, _, _, rfl⟩
    obtain ⟨root, ⟨rfl, owns, -⟩ | ⟨va, pages, rfl, extended⟩⟩ := mmap_cases sound within harmless run
    · simp only [Usage.perform, run, Usage.Sound, root]
      exact owns
    · simp only [Usage.perform, run, Usage.Sound, root, Usage.pages, List.flatMap_append, List.flatMap_singleton]
      exact extended.owns
  | unmap addr length =>
    obtain ⟨root, returned⟩ := munmap_cases sound within harmless
    have kept : (σ.perform (.unmap addr length)).pages = σ.pages.filter fun m => !(AreaCall.unmap addr length).touches m.1 := by
      unfold Usage.pages
      rw [List.filter_flatMap]
      exact List.flatMap_map _ _ _
    unfold Usage.Sound
    rw [kept]
    change Owns σ.large (munmap σ.vm σ.space addr length).2.pml4 (munmap σ.vm σ.space addr length).1 _
    rw [root]
    exact returned.owns

theorem elsewhere_sound (sound : σ.Sound) (elsewhere : Elsewhere σ τ) : τ.Sound := by
  have pages : τ.pages = σ.pages := by
    unfold Usage.pages
    rw [elsewhere.areas]
  have tables : SameTables σ.large σ.space.pml4 σ.vm τ.vm := ⟨fun q member => elsewhere.vm.follow member, elsewhere.same⟩
  unfold Usage.Sound
  rw [pages, elsewhere.space, elsewhere.large]
  refine sound.kept (tables.paged sound.paged (sound.paged.tabled.others elsewhere.vm)) ?_ ?_
  · exact fun w lower => elsewhere.vm.leaf (indices_lower lower) _
  · intro m member
    refine ⟨elsewhere.held m member, ?_⟩
    rw [tables.tableOf]
    exact (sound.data m member).1.2

theorem usage_sound (reached : Reachable UsageStart (UsageStep fun σ call => call.Harmless σ) σ) : σ.Sound := by
  refine reached.induct Usage.Sound ?_ ?_
  · rintro σ ⟨paged, empty⟩
    have nothing : σ.pages = [] := by
      unfold Usage.pages
      rw [empty]
      rfl
    unfold Usage.Sound
    rw [nothing]
    exact ⟨paged, by simp, by simp, by simp, List.Pairwise.nil⟩
  · rintro σ τ sound (⟨call, within, harmless, rfl⟩ | elsewhere)
    · exact perform_owns sound within harmless
    · exact elsewhere_sound sound elsewhere

theorem call_accounted (sound : σ.Sound) (within : call.Within) (harmless : call.Harmless σ) : call.Accounted σ := by
  cases call with
  | map addr length prot flags =>
    obtain ⟨r, t, space', run⟩ : ∃ r t space', mmap σ.ready σ.vm σ.space addr length prot flags = (r, t, space') := ⟨_, _, _, rfl⟩
    simp only [AreaCall.Accounted, run]
    obtain ⟨-, ⟨-, -, unchanged⟩ | ⟨va, pages, rfl, -⟩⟩ := mmap_cases sound within harmless run
    · exact fun _ => unchanged
    · exact fun fails => absurd fails (by simp)
  | unmap addr length => exact (munmap_cases sound within harmless).2.allocated

/-- In a run of harmless calls no two mappings overlap, and every harmless call that
follows keeps the account of the frames. -/
theorem mmap_accounted (reached : Reachable UsageStart (UsageStep fun σ call => call.Harmless σ) σ) :
    σ.Separate ∧ ∀ call : AreaCall, call.Within → call.Harmless σ → call.Accounted σ := by
  have sound := usage_sound reached
  refine ⟨?_, fun call => call_accounted sound⟩
  refine (List.pairwise_flatMap.mp sound.apart).2.imp ?_
  intro a b apart _ _ m member n there
  exact (apart m member n there).1

end Run

/-- A new space, for a kernel where mmap_init has run. -/
def newUsage (vm : Vm) (space : AddressSpace) : Usage :=
  { ready := true, vm := vm, space := space, large := fun _ _ => false, areas := [] }

theorem newUsage_start {s vm : Vm} {space : AddressSpace} {memory : Bool} (sound : PmmSound s.pmm)
    (created : vmmCreateSpace s memory = (some space, vm)) : UsageStart (newUsage vm space) :=
  ⟨⟨(createSpace_holds sound created).tabled, by simp [newUsage], by simp [newUsage]⟩, rfl⟩

/-- The areas after two calls of mmap for a page, with no address given. -/
def mappedNull : Option (List (Bool × List Nat)) :=
  match vmmCreateSpace blankVm true with
  | (none, _) => none
  | (some space, vm) =>
    let σ := ((newUsage vm space).perform (.map 0 4096 protWrite 0x22)).perform (.map 0 4096 protWrite 0x22)
    some (σ.areas.map fun a => (a.null, a.pages.map Prod.fst))

theorem mappedNull_eq : mappedNull = some [(true, [0x600000000]), (true, [0x600000000])] := by decide +kernel

theorem null_mappings_overlap : ∃ σ, Reachable UsageStart (UsageStep fun _ _ => True) σ ∧ ¬ σ.Separate := by
  obtain ⟨space, vm, created⟩ := blankVm_creates
  have within : (AreaCall.map 0 4096 protWrite 0x22).Within := by
    unfold AreaCall.Within
    decide
  have start : Reachable UsageStart (UsageStep fun _ _ => True) (newUsage vm space) := .start (newUsage_start blankPmm_sound created)
  refine ⟨_, (start.next (Or.inl ⟨_, within, trivial, rfl⟩)).next (Or.inl ⟨_, within, trivial, rfl⟩), fun separate => ?_⟩
  have areas := mappedNull_eq
  unfold mappedNull at areas
  rw [created] at areas
  obtain ⟨a, rest, split, first, rest_⟩ := List.map_eq_cons_iff.mp (Option.some.inj areas)
  obtain ⟨b, rest', rfl, second, -⟩ := List.map_eq_cons_iff.mp rest_
  unfold Usage.Separate at separate
  rw [split] at separate
  have apart := List.rel_of_pairwise_cons separate List.mem_cons_self
  obtain ⟨null, pages⟩ := Prod.mk.inj first
  obtain ⟨null', pages'⟩ := Prod.mk.inj second
  obtain ⟨m, tail, one, page, -⟩ := List.map_eq_cons_iff.mp pages
  obtain ⟨n, tail', one', page', -⟩ := List.map_eq_cons_iff.mp pages'
  refine apart null null' m ?_ n ?_ (page.trans page'.symm)
  · rw [one]
    exact List.mem_cons_self
  · rw [one']
    exact List.mem_cons_self

theorem gaps_fronts_le (root : Nat) (mem : Memory) (p rest : List Nat) : (gaps root mem (fronts p rest)).card ≤ rest.length := by
  induction rest generalizing p with
  | nil => rfl
  | cons i rest ih =>
    rw [gaps_cons, List.length_cons]
    have deeper := ih (p ++ [i])
    split
    · omega
    · omega

example : (vmmCreateSpace blankVm true).1.isSome = true := by decide +kernel

theorem blankVm_frames : (vmmCreateSpace blankVm true).2.pmm.frameCount - (vmmCreateSpace blankVm true).2.pmm.usedFrames = 255 := by
  decide +kernel

theorem mmap_accounted_null : ∃ space vm, vmmCreateSpace blankVm true = (some space, vm) ∧
    let σ := (newUsage vm space).perform (.map 0 4096 protWrite 0x22)
    σ.Separate ∧ ∀ call : AreaCall, call.Within → call.Harmless σ → call.Accounted σ := by
  obtain ⟨space, vm, created⟩ := blankVm_creates
  have range : (AreaCall.map 0 4096 protWrite 0x22).range = [0x600000000000] := by decide
  have within : (AreaCall.map 0 4096 protWrite 0x22).Within := by
    unfold AreaCall.Within
    decide
  have harmless : (AreaCall.map 0 4096 protWrite 0x22).Harmless (newUsage vm space) := by
    intro _
    rw [range]
    refine ⟨fun v member => ?_, Or.inl ⟨?_, ?_⟩⟩
    · rw [List.mem_singleton.mp member]
      exact (createSpace_holds blankPmm_sound created).leaf _ (by decide)
    · rintro v - ⟨front, i, back, c, -, -, hidden⟩
      exact Bool.false_ne_true hidden
    · have frames := blankVm_frames
      rw [created] at frames
      have few := gaps_fronts_le space.pml4 vm.mem [] (indices 0x600000000000)
      rw [ways, ways, Finset.union_empty]
      change 1 + (gaps space.pml4 vm.mem (fronts [] (indices 0x600000000000))).card ≤ vm.pmm.frameCount - vm.pmm.usedFrames
      rw [indices_length] at few
      change vm.pmm.frameCount - vm.pmm.usedFrames = 255 at frames
      omega
  have start : Reachable UsageStart (UsageStep fun σ call => call.Harmless σ) (newUsage vm space) :=
    .start (newUsage_start blankPmm_sound created)
  exact ⟨space, vm, created, mmap_accounted (start.next (Or.inl ⟨_, within, harmless, rfl⟩))⟩

end Qito.Mm
