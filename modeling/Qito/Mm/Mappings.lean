import Qito.Mm.Areas

/-! The loops of mmap and munmap over their pages, and runs of both calls in one address
space. The pages that are mapped are kept beside the state, for each live mapping. -/
namespace Qito.Mm
open Words Bitmaps Tries Runs

/-- The paths of the walks to the pages. -/
def ways : List Nat → Finset (List Nat)
  | [] => ∅
  | v :: rest => fronts [] (indices v) ∪ ways rest

/-- The addresses behind the offsets. -/
def addresses (va : Nat) (offsets : List Nat) : List Nat := offsets.map fun offset => wrap64 (va + offset)

/-- The pages of a record of mmap with their frames. -/
def framesOf (va : Nat) (pages : List (Nat × Nat)) : List (Nat × Nat) :=
  pages.map fun m => (wrap64 (va + m.1) / pageSize, m.2 / pageSize)

section Room
variable {large : Nat → Nat → Bool} {root : Nat} {s t : Vm}

theorem ways_inside {vs : List Nat} (lower : ∀ v ∈ vs, v < lowerHalf) {q : List Nat} (member : q ∈ ways vs) : q ∈ lowerPaths 3 := by
  induction vs with
  | nil => cases member
  | cons v rest ih =>
    rcases Finset.mem_union.mp member with here | later
    · exact fronts_inside (indices_lower (lower v List.mem_cons_self)) here
    · exact ih (fun w there => lower w (List.mem_cons_of_mem _ there)) later

theorem gaps_union {paths more : Finset (List Nat)} (inside : ∀ q ∈ more, q ∈ lowerPaths 3)
    (follows : ∀ q ∈ lowerPaths 3, follow (tableStep (t.hide large).mem) root q = none ↔
      follow (tableStep (s.hide large).mem) root q = none ∧ q ∉ paths) :
    (gaps root (s.hide large).mem (paths ∪ more)).card =
      (gaps root (s.hide large).mem paths).card + (gaps root (t.hide large).mem more).card := by
  rw [← Finset.card_union_of_disjoint]
  · apply congrArg Finset.card
    ext q
    simp only [gaps, Finset.mem_filter, Finset.mem_union]
    constructor
    · rintro ⟨here | later, gap⟩
      · exact Or.inl ⟨here, gap⟩
      · by_cases here : q ∈ paths
        · exact Or.inl ⟨here, gap⟩
        · exact Or.inr ⟨later, (follows q (inside q later)).mpr ⟨gap, here⟩⟩
    · rintro (⟨here, gap⟩ | ⟨later, gap⟩)
      · exact ⟨Or.inl here, gap⟩
      · exact ⟨Or.inr later, ((follows q (inside q later)).mp gap).1⟩
  · rw [Finset.disjoint_left]
    intro q first second
    obtain ⟨here, -⟩ := Finset.mem_filter.mp first
    obtain ⟨later, gap⟩ := Finset.mem_filter.mp second
    exact ((follows q (inside q later)).mp gap).2 here

end Room

section Mapping
variable {large : Nat → Nat → Bool} {s t : Vm} {space space' : AddressSpace} {pages : List (Nat × Nat)} {va vmmFlags : Nat}
  {r : Option (List (Nat × Nat))}

/-- Pages of the lower half that are different ones and not mapped. -/
structure Unmapped (large : Nat → Nat → Bool) (root : Nat) (s : Vm) (vs : List Nat) : Prop where
  lower : ∀ v ∈ vs, v < lowerHalf
  entry : ∀ v ∈ vs, entryAt (s.hide large) root v = none
  apart : vs.Pairwise fun v w => w / pageSize ≠ v / pageSize

/-- There is a frame for every page and for every table that is missing on the way to one. -/
structure Fits (large : Nat → Nat → Bool) (root : Nat) (s : Vm) (vs : List Nat) : Prop where
  open_ : ∀ v ∈ vs, ¬ Covered large root (s.hide large).mem [] (indices v)
  room : vs.length + (gaps root (s.hide large).mem (ways vs)).card ≤ freeFrames s.pmm

theorem Unmapped.next {v frame flags : Nat} {rest : List Nat} (unmapped : Unmapped large space.pml4 s (v :: rest))
    (gains : Gains large space.pml4 s t v frame flags) : Unmapped large space.pml4 t rest where
  lower w member := unmapped.lower w (List.mem_cons_of_mem _ member)
  entry w member := by
    rw [gains.entries w (unmapped.lower w (List.mem_cons_of_mem _ member)), if_neg (List.rel_of_pairwise_cons unmapped.apart member)]
    exact unmapped.entry w (List.mem_cons_of_mem _ member)
  apart := (List.pairwise_cons.mp unmapped.apart).2

theorem Fits.next {v frame flags : Nat} {rest : List Nat} (fits : Fits large space.pml4 s (v :: rest))
    (lower : ∀ w ∈ v :: rest, w < lowerHalf) (gains : Gains large space.pml4 s t v frame flags) : Fits large space.pml4 t rest where
  open_ w member := by
    rw [gains.covered w (lower w (List.mem_cons_of_mem _ member))]
    exact fits.open_ w (List.mem_cons_of_mem _ member)
  room := by
    have inside (q : List Nat) (member : q ∈ ways rest) : q ∈ lowerPaths 3 :=
      ways_inside (fun w there => lower w (List.mem_cons_of_mem _ there)) member
    have union := gaps_union inside gains.follow
    have room := fits.room
    have count := gains.count
    rw [ways, union, List.length_cons] at room
    omega

theorem Fits.head {v : Nat} {rest : List Nat} (fits : Fits large space.pml4 s (v :: rest)) : ¬ NoRoom large space.pml4 s v := by
  rintro (covered | short)
  · exact fits.open_ v List.mem_cons_self covered
  · have room := fits.room
    have part : (gaps space.pml4 (s.hide large).mem (fronts [] (indices v))).card ≤ (gaps space.pml4 (s.hide large).mem (ways (v :: rest))).card :=
      Finset.card_le_card (Finset.filter_subset_filter _ Finset.subset_union_left)
    rw [List.length_cons] at room
    omega

/-- What a successful mmap leaves: the pages lie in frames that held no data before. -/
structure Extended (large : Nat → Nat → Bool) (root : Nat) (s t : Vm) (pages new : List (Nat × Nat)) : Prop where
  owns : Owns large root t (pages ++ new)
  data : ∀ f, DataFrame large root t f ↔ DataFrame large root s f ∨ ∃ m ∈ new, m.2 = f
  fresh : ∀ m ∈ new, ¬ DataFrame large root s m.2
  entries : ∀ w < lowerHalf, (∀ m ∈ new, w / pageSize ≠ m.1) → entryAt (t.hide large) root w = entryAt (s.hide large) root w

theorem mmapPages_fits {done : List (Nat × Nat)} {offsets : List Nat} (owns : Owns large space.pml4 s pages)
    (unmapped : Unmapped large space.pml4 s (addresses va offsets)) (fits : Fits large space.pml4 s (addresses va offsets))
    (run : mmapPages s space va vmmFlags done offsets = (r, t, space')) : space'.pml4 = space.pml4 ∧
      ∃ new, r = some (done ++ new) ∧ new.map Prod.fst = offsets ∧ Extended large space.pml4 s t pages (framesOf va new) := by
  induction offsets generalizing s space done pages with
  | nil =>
    simp only [mmapPages, Prod.mk.injEq] at run
    obtain ⟨rfl, rfl, rfl⟩ := run
    refine ⟨rfl, [], by rw [List.append_nil], rfl, ?_, ?_, ?_, fun _ _ _ => rfl⟩
    · rw [framesOf, List.map_nil, List.append_nil]
      exact owns
    · simp [framesOf]
    · simp [framesOf]
  | cons offset rest ih =>
    have lower := unmapped.lower (wrap64 (va + offset)) List.mem_cons_self
    unfold mmapPages at run
    rcases alloc_counts (s := s) owns.paged.tabled.pmm with ⟨-, full⟩ | ⟨frame, claims, available, count⟩
    · refine absurd (Or.inr ?_) fits.head
      omega
    · have some_ := (claimed (s := s) owns.paged.tabled.pmm available).some_
      obtain ⟨code, u, space₂, mapped⟩ : ∃ code u space₂,
        vmmMap (claimPage s frame) space (wrap64 (va + offset)) (frame * pageSize) vmmFlags = (code, u, space₂) := ⟨_, _, _, rfl⟩
      rw [claims] at run
      simp only [if_neg some_, mapped] at run
      obtain ⟨root, ⟨-, none_, -⟩ | ⟨rfl, -, paged, gains⟩⟩ := mapFresh_cases owns lower available count mapped
      · exact absurd none_ fits.head
      · simp only [ne_eq, not_true_eq_false, if_false] at run
        have owns' := gains.owns owns paged lower (unmapped.entry _ List.mem_cons_self) available.above
        rw [← root] at owns'
        have unmapped' := unmapped.next gains
        have fits' := fits.next unmapped.lower gains
        rw [← root] at unmapped' fits'
        obtain ⟨root', new, rfl, firsts, extended⟩ := ih owns' unmapped' fits' run
        rw [root] at extended
        have page : framesOf va ((offset, frame * pageSize) :: new) = (wrap64 (va + offset) / pageSize, frame) :: framesOf va new := by
          rw [framesOf, List.map_cons, page_frame]
          rfl
        refine ⟨root'.trans root, (offset, frame * pageSize) :: new, by simp, by rw [List.map_cons, firsts], ?_⟩
        rw [page]
        constructor
        · have owned := extended.owns
          rw [List.append_assoc] at owned
          exact owned
        · intro f
          rw [extended.data, gains.data]
          simp only [List.mem_cons, exists_eq_or_imp]
          rw [or_assoc, eq_comm (a := f)]
        · intro m member held
          rcases List.mem_cons.mp member with rfl | later
          · exact gains.free held.1
          · exact extended.fresh m later ((gains.data m.2).mpr (Or.inl held))
        · intro w lower' other
          have first := other _ List.mem_cons_self
          rw [extended.entries w lower' fun m member => other m (List.mem_cons_of_mem _ member), gains.entries w lower', if_neg first]

/-- What mmap leaves where it fails. -/
structure Unchanged (large : Nat → Nat → Bool) (root : Nat) (s t : Vm) : Prop where
  data : ∀ f, DataFrame large root t f ↔ DataFrame large root s f
  entries : ∀ w < lowerHalf, entryAt (t.hide large) root w = entryAt (s.hide large) root w

theorem mmapPages_refused {offset : Nat} {rest : List Nat} (owns : Owns large space.pml4 s pages) (lower : wrap64 (va + offset) < lowerHalf)
    (room : NoRoom large space.pml4 s (wrap64 (va + offset))) (run : mmapPages s space va vmmFlags [] (offset :: rest) = (r, t, space')) :
    space'.pml4 = space.pml4 ∧ r = none ∧ Owns large space.pml4 t pages ∧ Unchanged large space.pml4 s t := by
  unfold mmapPages at run
  rcases alloc_counts (s := s) owns.paged.tabled.pmm with ⟨fails, -⟩ | ⟨frame, claims, available, count⟩
  · rw [fails] at run
    simp only [if_true, List.map_nil, unmapPages, Prod.mk.injEq] at run
    obtain ⟨rfl, rfl, rfl⟩ := run
    exact ⟨rfl, rfl, owns, fun _ => Iff.rfl, fun _ _ => rfl⟩
  · have some_ := (claimed (s := s) owns.paged.tabled.pmm available).some_
    obtain ⟨code, u, space₂, mapped⟩ : ∃ code u space₂,
      vmmMap (claimPage s frame) space (wrap64 (va + offset)) (frame * pageSize) vmmFlags = (code, u, space₂) := ⟨_, _, _, rfl⟩
    rw [claims] at run
    simp only [if_neg some_, mapped] at run
    obtain ⟨root, ⟨failed, -, grows⟩ | ⟨-, room', -⟩⟩ := mapFresh_cases owns lower available count mapped
    · simp only [if_pos failed, List.map_nil, unmapPages, Prod.mk.injEq] at run
      obtain ⟨rfl, rfl, rfl⟩ := run
      obtain ⟨owns', data, entries⟩ := giveBack_spec owns available grows
      exact ⟨root, rfl, owns', data, entries⟩
    · exact absurd room room'

end Mapping

section Unmapping
variable {large : Nat → Nat → Bool} {s t : Vm} {space space' : AddressSpace} {root : Nat} {pages : List (Nat × Nat)} {v : Nat}
  {code : Int}

/-- What vmm_unmap does to the entries. -/
structure Unmaps (large : Nat → Nat → Bool) (root : Nat) (s t : Vm) (v : Nat) : Prop where
  paged : Paged large root t
  pmm : t.pmm = s.pmm
  tables : SameTables large root s t
  entries : ∀ w < lowerHalf, entryAt (t.hide large) root w = if w / pageSize = v / pageSize then none else entryAt (s.hide large) root w

theorem vmmUnmap_unmaps (paged : Paged large space.pml4 s) (lower : v < lowerHalf) (run : vmmUnmap s space v = (code, t, space')) :
    space'.pml4 = space.pml4 ∧ Unmaps large space.pml4 s t v := by
  unfold vmmUnmap at run
  rw [walk_way, alignDown_ptIndex] at run
  obtain ⟨r, u, walked⟩ : ∃ r u, walkDown s space.pml4 false 0 (indices v) = (r, u) := ⟨_, _, rfl⟩
  have start : Arrives space.pml4 0 (s.hide large) [] space.pml4 := ⟨rfl, fun _ => rfl⟩
  obtain ⟨-, -, still⟩ := walkDown_large paged (show [] ++ indices v ∈ lowerPaths 3 from indices_lower lower) start walked
  obtain ⟨rfl, ends⟩ := still rfl rfl
  rw [walked] at run
  -- where there is no entry to clear the page was not mapped
  have idle (absent : entryAt (u.hide large) space.pml4 v = none) : Unmaps large space.pml4 u u v := by
    refine ⟨paged, rfl, ⟨fun _ _ => rfl, fun _ _ _ => rfl⟩, fun w lower' => ?_⟩
    split
    · rename_i same
      rw [entryAt_congr lower lower' same, absent]
    · rfl
  cases r with
  | none =>
    simp only [Prod.mk.injEq] at run
    obtain ⟨rfl, rfl, rfl⟩ := run
    refine ⟨rfl, idle ?_⟩
    change leafAt space.pml4 (u.hide large).mem ([] ++ indices v) _ = none
    rw [leafAt, ← ends]
    rfl
  | some table =>
    have at_ : follow (tableStep (u.hide large).mem) space.pml4 (indices v) = some table := ends.symm
    simp only at run
    split at run
    · rename_i absent
      simp only [Prod.mk.injEq] at run
      obtain ⟨rfl, rfl, rfl⟩ := run
      refine ⟨rfl, idle ?_⟩
      have clear : has ((u.hide large).mem table (ptIndex v)) ptePresent = false := by
        rw [hide_mem (leaf_clear paged lower at_ _)]
        simpa using absent
      rw [entryAt, leafAt, at_, Option.bind_some, clear]
      rfl
    · simp only [Prod.mk.injEq] at run
      obtain ⟨rfl, rfl, rfl⟩ := run
      refine ⟨rfl, leaf_paged paged lower at_ 0, rfl, leaf_same paged lower at_ 0, fun w lower' => ?_⟩
      rw [leaf_entry paged lower at_ 0 lower']
      rfl

theorem present_same {a b : Nat} {f : Nat → Nat}
    (same : (if has a ptePresent then some (f a) else none) = if has b ptePresent then some (f b) else none) :
    has a ptePresent = has b ptePresent ∧ (has b ptePresent = true → f a = f b) := by
  cases first : has a ptePresent with
  | true =>
    cases second : has b ptePresent with
    | true =>
      rw [first, second] at same
      exact ⟨rfl, fun _ => Option.some.inj same⟩
    | false =>
      rw [first, second] at same
      cases same
  | false =>
    cases second : has b ptePresent with
    | true =>
      rw [first, second] at same
      cases same
    | false => exact ⟨rfl, by simp⟩

theorem resolveFrom_same {table level : Nat} {p rest : List Nat} (paged : Paged large root s) (paged' : Paged large root t)
    (tables : SameTables large root s t) (inside : p ++ rest ∈ lowerPaths 3) (whole : (p ++ rest).length = 3)
    (at_ : follow (tableStep (s.hide large).mem) root p = some table)
    (leaf : leafAt root (t.hide large).mem (p ++ rest) (ptIndex v) = leafAt root (s.hide large).mem (p ++ rest) (ptIndex v)) :
    resolveFrom t.mem v level table rest = resolveFrom s.mem v level table rest := by
  have at' : follow (tableStep (t.hide large).mem) root p = some table := by
    rw [tables.follow p ((lowerPaths_closed 3).front inside)]
    exact at_
  induction rest generalizing p table level with
  | nil =>
    rw [List.append_nil] at inside whole leaf
    have clear : large table (ptIndex v) = false := by
      by_contra hidden
      obtain ⟨q, inside', ends⟩ := paged.upper table (ptIndex v) (by simpa using hidden)
      exact paged.tabled.above_leaves (Nat.le_refl 3) inside' ends inside whole at_ rfl
    rw [leafAt, leafAt, at_, at', Option.bind_some, Option.bind_some, hide_mem clear, hide_mem clear] at leaf
    obtain ⟨present, entry⟩ := present_same (f := id) leaf
    unfold resolveFrom
    simp only [present]
    cases here : has (s.mem table (ptIndex v)) ptePresent with
    | true =>
      have same : t.mem table (ptIndex v) = s.mem table (ptIndex v) := entry here
      rw [same]
    | false => rfl
  | cons i rest ih =>
    have split : p ++ i :: rest = p ++ [i] ++ rest := by simp
    rw [split] at inside whole leaf
    have front := (lowerPaths_closed 3).front inside
    unfold resolveFrom
    cases hidden : large table i with
    | true =>
      rw [tables.same table i hidden]
      simp only [paged.entry table i hidden, Bool.not_true, Bool.false_eq_true, if_false, if_true]
    | false =>
      have step : tableStep (t.hide large).mem table i = tableStep (s.hide large).mem table i := by
        have ends := tables.follow (p ++ [i]) front
        rw [follow_concat, follow_concat, at_, at'] at ends
        exact ends
      have plain := paged.tabled.plain p table i front at_
      have plain' := paged'.tabled.plain p table i front at'
      have next := follow_concat (tableStep (s.hide large).mem) root p i
      unfold tableStep at step
      rw [at_, Option.bind_some, tableStep] at next
      rw [hide_mem hidden] at plain plain' next
      rw [hide_mem hidden, hide_mem hidden] at step
      obtain ⟨present, entry⟩ := present_same (f := fun e => e &&& pteAddrMask) step
      cases here : has (s.mem table i) ptePresent with
      | true =>
        rw [here] at present next
        simp only [present, here, plain here, plain' present, Bool.not_true, Bool.false_eq_true, if_false, entry here]
        refine ih inside whole next leaf ?_
        rw [tables.follow _ front]
        exact next
      | false =>
        rw [here] at present
        simp only [present, here, Bool.not_false, if_true]

theorem resolveFrom_hide {table level : Nat} {p rest : List Nat} (paged : Paged large root s) (inside : p ++ rest ∈ lowerPaths 3)
    (whole : (p ++ rest).length = 3) (at_ : follow (tableStep (s.hide large).mem) root p = some table)
    (arrives : follow (tableStep (s.hide large).mem) root (p ++ rest) ≠ none) :
    resolveFrom s.mem v level table rest = resolveFrom (s.hide large).mem v level table rest := by
  induction rest generalizing p table level with
  | nil =>
    rw [List.append_nil] at inside whole
    have clear : large table (ptIndex v) = false := by
      by_contra hidden
      obtain ⟨q, inside', ends⟩ := paged.upper table (ptIndex v) (by simpa using hidden)
      exact paged.tabled.above_leaves (Nat.le_refl 3) inside' ends inside whole at_ rfl
    unfold resolveFrom
    rw [hide_mem clear]
  | cons i rest ih =>
    have split : p ++ i :: rest = p ++ [i] ++ rest := by simp
    rw [split] at inside whole arrives
    cases ends : follow (tableStep (s.hide large).mem) root (p ++ [i]) with
    | none =>
      rw [follow_append, ends] at arrives
      exact absurd rfl arrives
    | some next =>
      have step := ends
      rw [follow_concat, at_, Option.bind_some] at step
      have clear : large table i = false := by
        by_contra hidden
        have zero : (s.hide large).mem table i = 0 := if_pos (by simpa using hidden)
        rw [tableStep, zero] at step
        cases step
      unfold tableStep at step
      split at step
      · rename_i present
        rw [← Option.some.inj step] at ends
        have plain := paged.tabled.plain p table i ((lowerPaths_closed 3).front inside) at_ present
        unfold resolveFrom
        rw [hide_mem clear] at present plain ends ⊢
        simp only [present, plain, Bool.not_true, Bool.false_eq_true, if_false]
        exact ih inside whole ends arrives
      · cases step

theorem Owns.resolve (owns : Owns large space.pml4 s pages) {m : Nat × Nat} (member : m ∈ pages) (lower : v < lowerHalf)
    (page : m.1 = v / pageSize) : vmmResolve s space v = m.2 * pageSize + v % pageSize := by
  obtain ⟨flags, entry⟩ := owns.mapped m member
  rw [page, (entryAt_page (s.hide large) space.pml4 lower).2] at entry
  have inside : [] ++ indices v ∈ lowerPaths 3 := indices_lower lower
  have arrives : follow (tableStep (s.hide large).mem) space.pml4 ([] ++ indices v) ≠ none := by
    intro missing
    have absent : leafAt space.pml4 (s.hide large).mem ([] ++ indices v) (ptIndex v) = none := by
      rw [leafAt, missing]
      rfl
    exact absurd (absent.symm.trans entry) (by simp)
  have aligned : Aligned (m.2 * pageSize) := by
    have tracked := (owns.data m member).1.1.1
    have narrow : s.pmm.frameCount ≤ 2 ^ 20 := owns.paged.tabled.pmm.narrow
    refine ⟨Nat.mul_mod_left _ _, ?_⟩
    change m.2 * 4096 < 2 ^ 52
    omega
  have same : vmmResolve s space v = resolveFrom (s.hide large).mem v 0 space.pml4 (indices v) :=
    resolveFrom_hide owns.paged inside rfl rfl arrives
  refine same.trans ((resolveFrom_spec (s := s.hide large) owns.paged.tabled inside rfl).trans ?_)
  change leafAddr v (entryAt (s.hide large) space.pml4 v) = _
  rw [entry]
  exact leafAddr_leaf aligned flags v

/-- The page that munmap comes to: unmapped, and its frame freed where it resolved. -/
def unmapOne (s : Vm) (space : AddressSpace) (v : Nat) : Vm × AddressSpace :=
  let phys := vmmResolve s space v
  let (_, s, space) := vmmUnmap s space v
  (if phys ≠ 0 then s.freePage phys else s, space)

/-- Where munmap may go: a page of mmap's, or one with no allocated frame behind it. -/
def Ours (s : Vm) (space : AddressSpace) (pages : List (Nat × Nat)) (v : Nat) : Prop :=
  vmmResolve s space v ≠ 0 → (∃ m ∈ pages, m.1 = v / pageSize) ∨ ¬ Allocated s.pmm (vmmResolve s space v / pageSize)

/-- What munmap does at the pages of ps. -/
structure Returned (large : Nat → Nat → Bool) (root : Nat) (s t : Vm) (pages : List (Nat × Nat)) (gone : Nat → Bool) : Prop where
  owns : Owns large root t (pages.filter fun m => !gone m.1)
  allocated : ∀ f, Allocated t.pmm f ↔ Allocated s.pmm f ∧ ¬ ∃ m ∈ pages, gone m.1 = true ∧ m.2 = f
  tables : SameTables large root s t
  entries : ∀ w < lowerHalf, gone (w / pageSize) = false → entryAt (t.hide large) root w = entryAt (s.hide large) root w

theorem vmmResolve_same (paged : Paged large space.pml4 s) (paged' : Paged large space.pml4 t) (tables : SameTables large space.pml4 s t)
    (lower : v < lowerHalf) (entry : entryAt (t.hide large) space.pml4 v = entryAt (s.hide large) space.pml4 v) :
    vmmResolve t space v = vmmResolve s space v :=
  resolveFrom_same (p := []) paged paged' tables (indices_lower lower) rfl rfl entry

theorem Unmaps.returned {u : Vm} (unmaps : Unmaps large root s u v) (owns : Owns large root s pages) (paged : Paged large root t)
    (same : t.mem = u.mem) (data : ∀ m ∈ pages, m.1 ≠ v / pageSize → DataFrame large root t m.2)
    (freed : ∀ f, Allocated t.pmm f ↔ Allocated s.pmm f ∧ ¬ ∃ m ∈ pages, m.1 = v / pageSize ∧ m.2 = f) :
    Returned large root s t pages fun page => decide (page = v / pageSize) := by
  have hidden : (t.hide large).mem = (u.hide large).mem := by
    unfold Vm.hide
    rw [same]
  have entries (a : Nat) (low : a < lowerHalf) (other : a / pageSize ≠ v / pageSize) :
      entryAt (t.hide large) root a = entryAt (s.hide large) root a := by
    rw [entryAt, hidden]
    exact (unmaps.entries a low).trans (if_neg other)
  refine ⟨⟨paged, ?_, ?_, ?_, ?_⟩, fun f => ?_, ⟨fun q member => ?_, fun c j covered => ?_⟩, fun a low other => ?_⟩
  · exact fun m member => owns.lower m (List.mem_of_mem_filter member)
  · intro m member
    obtain ⟨old, other⟩ := List.mem_filter.mp member
    have apart : m.1 ≠ v / pageSize := by simpa using other
    rw [entries _ (owns.lower m old) (by rw [page_frame]; exact apart)]
    exact owns.mapped m old
  · intro m member
    obtain ⟨old, other⟩ := List.mem_filter.mp member
    exact ⟨data m old (by simpa using other), (owns.data m old).2⟩
  · exact owns.apart.filter _
  · rw [freed]
    simp only [decide_eq_true_eq]
  · rw [hidden]
    exact unmaps.tables.follow q member
  · rw [same]
    exact unmaps.tables.same c j covered
  · exact entries a low (by simpa using other)

theorem Owns.unique (owns : Owns large root s pages) {m n : Nat × Nat} (member : m ∈ pages) (there : n ∈ pages) : n.1 = m.1 ↔ n.2 = m.2 := by
  have symmetric : Std.Symm fun m n : Nat × Nat => m.1 ≠ n.1 ∧ m.2 ≠ n.2 := ⟨fun _ _ both => ⟨both.1.symm, both.2.symm⟩⟩
  by_cases same : n = m
  · rw [same]
    exact iff_of_true rfl rfl
  · obtain ⟨first, second⟩ := owns.apart.forall there member same
    exact iff_of_false first second

theorem unmapOne_returns (owns : Owns large space.pml4 s pages) (lower : v < lowerHalf) (ours : Ours s space pages v)
    (run : unmapOne s space v = (t, space')) : space'.pml4 = space.pml4 ∧
      Returned large space.pml4 s t pages fun page => decide (page = v / pageSize) := by
  unfold unmapOne at run
  obtain ⟨code, u, space₂, unmapped⟩ : ∃ code u space₂, vmmUnmap s space v = (code, u, space₂) := ⟨_, _, _, rfl⟩
  obtain ⟨root, unmaps⟩ := vmmUnmap_unmaps owns.paged lower unmapped
  rw [unmapped] at run
  obtain ⟨rfl, rfl⟩ := Prod.mk.inj run
  refine ⟨root, ?_⟩
  have allocated (f : Nat) : Allocated u.pmm f ↔ Allocated s.pmm f := by rw [unmaps.pmm]
  have dataU (f : Nat) : DataFrame large space.pml4 u f ↔ DataFrame large space.pml4 s f := by
    unfold DataFrame
    rw [unmaps.tables.tableOf, allocated]
  by_cases live : ∃ m ∈ pages, m.1 = v / pageSize
  · obtain ⟨m, member, page⟩ := live
    obtain ⟨held, above⟩ := owns.data m member
    have phys := owns.resolve member lower page
    have some_ : vmmResolve s space v ≠ 0 := by
      have pos : 0 < m.2 * pageSize := Nat.mul_pos (Nat.lt_of_lt_of_le (by decide) above) (by decide)
      omega
    have frame : vmmResolve s space v / pageSize = m.2 := by
      rw [phys, Nat.mul_comm, Nat.mul_add_div (by decide), Nat.div_eq_of_lt (Nat.mod_lt _ (by decide)), Nat.add_zero]
    have unique {n : Nat × Nat} (there : n ∈ pages) : n.1 = v / pageSize ↔ n.2 = m.2 := by
      rw [← page]
      exact owns.unique member there
    rw [if_pos some_]
    apply unmaps.returned owns
    · apply free_paged some_ unmaps.paged
      · rw [frame]
        exact above
      · rw [frame]
        exact ((dataU m.2).mpr held).2
    · rfl
    · intro n there other
      rw [free_data some_, frame, dataU]
      exact ⟨(owns.data n there).1, fun same => other ((unique there).mpr same)⟩
    · intro f
      rw [free_allocated some_, frame, allocated]
      refine and_congr_right fun _ => not_congr ⟨?_, ?_⟩
      · rintro rfl
        exact ⟨m, member, page, rfl⟩
      · rintro ⟨n, there, here, rfl⟩
        exact (unique there).mp here
  · have none_ (f : Nat) : ¬ ∃ m ∈ pages, m.1 = v / pageSize ∧ m.2 = f := by
      rintro ⟨m, member, here, -⟩
      exact live ⟨m, member, here⟩
    split
    · rename_i some_
      have idle := (ours some_).resolve_left live
      have missing : ¬ Allocated u.pmm (vmmResolve s space v / pageSize) := fun held => idle ((allocated _).mp held)
      have lost {f : Nat} (held : Allocated u.pmm f) : f ≠ vmmResolve s space v / pageSize := by
        rintro rfl
        exact missing held
      apply unmaps.returned owns
      · apply free_paged some_ unmaps.paged
        · apply Nat.le_of_not_lt
          intro low
          have sound := owns.paged.tabled.pmm
          have tracked : lowFrames ≤ s.pmm.frameCount := Nat.le_trans sound.above sound.below
          exact idle ⟨Nat.lt_of_lt_of_le low tracked, sound.low _ low⟩
        · intro reached
          have held := unmaps.paged.tabled.held _ reached
          have tracked := held.tracked
          have taken := held.taken
          rw [page_frame] at tracked taken
          exact missing ⟨tracked, taken⟩
      · rfl
      · intro n there _
        rw [free_data some_, dataU]
        exact ⟨(owns.data n there).1, lost ((allocated _).mpr (owns.data n there).1.1)⟩
      · intro f
        rw [free_allocated some_, allocated]
        exact and_congr_right fun held => iff_of_true (lost ((allocated f).mpr held)) (none_ f)
    · apply unmaps.returned owns unmaps.paged rfl
      · intro n there _
        exact (dataU n.2).mpr (owns.data n there).1
      · intro f
        rw [allocated]
        exact (and_iff_left (none_ f)).symm

theorem Returned.trans {u : Vm} {gone gone' : Nat → Bool} (first : Returned large root s u pages gone)
    (second : Returned large root u t (pages.filter fun m => !gone m.1) gone') :
    Returned large root s t pages fun page => gone page || gone' page where
  owns := by
    have owns := second.owns
    rw [List.filter_filter] at owns
    refine cast (congrArg _ (List.filter_congr fun m _ => ?_)) owns
    rw [Bool.not_or, Bool.and_comm]
  allocated f := by
    rw [second.allocated, first.allocated, and_assoc]
    refine and_congr_right fun _ => ⟨?_, ?_⟩
    · rintro ⟨before, after⟩ ⟨m, member, either, rfl⟩
      cases here : gone m.1 with
      | true => exact before ⟨m, member, here, rfl⟩
      | false =>
        rw [here, Bool.false_or] at either
        exact after ⟨m, List.mem_filter.mpr ⟨member, by rw [here]; rfl⟩, either, rfl⟩
    · intro none_
      refine ⟨?_, ?_⟩
      · rintro ⟨m, member, here, same⟩
        exact none_ ⟨m, member, by rw [here, Bool.true_or], same⟩
      · rintro ⟨m, member, here, same⟩
        exact none_ ⟨m, List.mem_of_mem_filter member, by rw [here, Bool.or_true], same⟩
  tables := ⟨fun q member => (second.tables.follow q member).trans (first.tables.follow q member),
    fun c j hidden => (second.tables.same c j hidden).trans (first.tables.same c j hidden)⟩
  entries w lower outside := by
    obtain ⟨before, after⟩ := Bool.or_eq_false_iff.mp outside
    rw [second.entries w lower after, first.entries w lower before]

theorem munmapPages_cons (s : Vm) (space : AddressSpace) (addr offset : Nat) (rest : List Nat) : munmapPages s space addr (offset :: rest) =
    munmapPages (unmapOne s space (wrap64 (addr + offset))).1 (unmapOne s space (wrap64 (addr + offset))).2 addr rest := rfl

/-- munmap gives back the frames of the pages of its range that mmap holds, and no others. -/
theorem munmapPages_returns {addr : Nat} {offsets : List Nat} (owns : Owns large space.pml4 s pages)
    (lower : ∀ v ∈ addresses addr offsets, v < lowerHalf) (apart : (addresses addr offsets).Pairwise fun v w => w / pageSize ≠ v / pageSize)
    (ours : ∀ v ∈ addresses addr offsets, Ours s space pages v) (run : munmapPages s space addr offsets = (t, space')) :
    space'.pml4 = space.pml4 ∧
      Returned large space.pml4 s t pages fun page => decide (page ∈ (addresses addr offsets).map (· / pageSize)) := by
  induction offsets generalizing s space pages with
  | nil =>
    obtain ⟨rfl, rfl⟩ := Prod.mk.inj run
    have all : (pages.filter fun m => !decide (m.1 ∈ (addresses addr []).map (· / pageSize))) = pages := by
      apply List.filter_eq_self.mpr
      intro m _
      simp [addresses]
    refine ⟨rfl, ?_, ?_, ⟨fun _ _ => rfl, fun _ _ _ => rfl⟩, fun _ _ _ => rfl⟩
    · rw [all]
      exact owns
    · simp [addresses]
  | cons offset rest ih =>
    obtain ⟨u, space₂, one⟩ : ∃ u space₂, unmapOne s space (wrap64 (addr + offset)) = (u, space₂) := ⟨_, _, rfl⟩
    rw [munmapPages_cons, one] at run
    obtain ⟨root, first⟩ := unmapOne_returns owns (lower _ List.mem_cons_self) (ours _ List.mem_cons_self) one
    obtain ⟨others, apart'⟩ := List.pairwise_cons.mp apart
    have owns' := first.owns
    rw [← root] at owns'
    have later : ∀ w ∈ addresses addr rest, Ours u space₂ (pages.filter fun m => !decide (m.1 = wrap64 (addr + offset) / pageSize)) w := by
      intro w member
      have low := lower w (List.mem_cons_of_mem _ member)
      have other := others w member
      have resolves : vmmResolve u space₂ w = vmmResolve s space w := by
        have same := vmmResolve_same owns.paged first.owns.paged first.tables low (first.entries w low (decide_eq_false other))
        unfold vmmResolve at same ⊢
        rw [root, same]
      unfold Ours
      rw [resolves]
      intro some_
      rcases ours w (List.mem_cons_of_mem _ member) some_ with ⟨m, held, page⟩ | idle
      · refine Or.inl ⟨m, List.mem_filter.mpr ⟨held, ?_⟩, page⟩
        simp [page, other]
      · exact Or.inr fun taken => idle ((first.allocated _).mp taken).1
    obtain ⟨root', second⟩ := ih owns' (fun v member => lower v (List.mem_cons_of_mem _ member)) apart' later run
    rw [root] at second
    refine ⟨root'.trans root, ?_⟩
    have both := first.trans second
    refine cast (congrArg _ (funext fun page => ?_)) both
    rw [← Bool.decide_or]
    apply decide_eq_decide.mpr
    exact List.mem_cons.symm

end Unmapping
end Qito.Mm
