import Qito.Mm.Mmap
import Qito.Mm.Room

/-! The frames behind mmap. Four moves make up both calls: a frame is claimed, a walk
hangs tables in, the entry of a page is written, a frame is freed. What each does to
the data frames and to the entries is said once. -/
namespace Qito.Mm
open Words Bitmaps Tries

def Allocated (s : Pmm) (frame : Nat) : Prop := frame < s.frameCount ∧ s.frameBitmap.test frame = true

/-- An allocated frame that holds no table of the space. -/
def DataFrame (large : Nat → Nat → Bool) (root : Nat) (s : Vm) (frame : Nat) : Prop :=
  Allocated s.pmm frame ∧ ¬ TableOf 3 root (s.hide large).mem (frame * pageSize)

section Moves
variable {large : Nat → Nat → Bool} {root : Nat} {s t : Vm}

/-- The tables and the entries of the large pages are as they were. -/
structure SameTables (large : Nat → Nat → Bool) (root : Nat) (s t : Vm) : Prop where
  follow : ∀ q ∈ lowerPaths 3, follow (tableStep (t.hide large).mem) root q = follow (tableStep (s.hide large).mem) root q
  same : ∀ c j, large c j = true → t.mem c j = s.mem c j

theorem SameTables.tableOf (tables : SameTables large root s t) {a : Nat} :
    TableOf 3 root (t.hide large).mem a ↔ TableOf 3 root (s.hide large).mem a := by
  constructor
  · rintro ⟨q, member, ends⟩
    rw [tables.follow q member] at ends
    exact ⟨q, member, ends⟩
  · rintro ⟨q, member, ends⟩
    rw [← tables.follow q member] at ends
    exact ⟨q, member, ends⟩

theorem SameTables.paged (tables : SameTables large root s t) (paged : Paged large root s) (tabled : Tabled 3 root (t.hide large)) :
    Paged large root t where
  tabled := tabled
  entry c j hidden := by
    rw [tables.same c j hidden]
    exact paged.entry c j hidden
  upper c j hidden := by
    obtain ⟨q, inside, ends⟩ := paged.upper c j hidden
    refine ⟨q, inside, ?_⟩
    rw [tables.follow q (lowerPaths_closed 3 q j inside)]
    exact ends

theorem SameTables.covered (tables : SameTables large root s t) {rest : List Nat} (inside : rest ∈ lowerPaths 3) :
    Covered large root (t.hide large).mem [] rest ↔ Covered large root (s.hide large).mem [] rest := by
  unfold Covered
  constructor
  · rintro ⟨front, j, back, c, rfl, ends, hidden⟩
    rw [List.nil_append, tables.follow _ ((lowerPaths_closed 3).front inside)] at ends
    exact ⟨front, j, back, c, rfl, ends, hidden⟩
  · rintro ⟨front, j, back, c, rfl, ends, hidden⟩
    refine ⟨front, j, back, c, rfl, ?_, hidden⟩
    rw [List.nil_append, tables.follow _ ((lowerPaths_closed 3).front inside)]
    exact ends

section Claim
variable {frame : Nat} (paged : Paged large root s) (available : Available s.pmm frame 1)
include paged available

theorem claim_hidden : Others root (s.hide large) ((claimPage s frame).hide large) := by
  rw [hide_claim]
  exact claim_others paged.tabled available

theorem claim_tables : SameTables large root s (claimPage s frame) where
  follow _ member := (claim_hidden paged available).follow member
  same _ _ hidden := paged.kept available hidden

theorem claim_paged : Paged large root (claimPage s frame) :=
  (claim_tables paged available).paged paged (paged.tabled.others (claim_hidden paged available))

theorem claim_data (f : Nat) : DataFrame large root (claimPage s frame) f ↔ DataFrame large root s f ∨ f = frame := by
  unfold DataFrame Allocated
  rw [(claim_tables paged available).tableOf, claimPage_test, Bool.or_eq_true, decide_eq_true_eq]
  change (f < s.pmm.frameCount ∧ _) ∧ _ ↔ _
  have tracked : frame < s.pmm.frameCount := available.below
  have unreached : ¬ TableOf 3 root (s.hide large).mem (frame * pageSize) := fun reached =>
    paged.tabled.unclaimed (s := s.hide large) available reached rfl
  constructor
  · rintro ⟨⟨inside, rfl | taken⟩, other⟩
    · exact Or.inr rfl
    · exact Or.inl ⟨⟨inside, taken⟩, other⟩
  · rintro (⟨⟨inside, taken⟩, other⟩ | rfl)
    · exact ⟨⟨inside, Or.inr taken⟩, other⟩
    · exact ⟨⟨tracked, Or.inl rfl⟩, unreached⟩

theorem claim_entry {w : Nat} (lower : w < lowerHalf) :
    entryAt ((claimPage s frame).hide large) root w = entryAt (s.hide large) root w :=
  (claim_hidden paged available).leaf (indices_lower lower) _

end Claim

section Growth
variable (grows : Grows large root s t)
include grows

theorem grows_data (f : Nat) : DataFrame large root t f ↔ DataFrame large root s f := by
  have frames : t.pmm.frameCount = s.pmm.frameCount := grows.extends_.frames
  have taken : t.pmm.frameBitmap.test f = true ↔ s.pmm.frameBitmap.test f = true ∨ TableOf 3 root (t.hide large).mem (f * pageSize) :=
    grows.extends_.taken f
  unfold DataFrame Allocated
  rw [frames, taken]
  constructor
  · rintro ⟨⟨inside, held | reached⟩, other⟩
    · refine ⟨⟨inside, held⟩, ?_⟩
      rintro ⟨q, member, ends⟩
      exact other ⟨q, member, grows.extends_.keeps q member _ ends⟩
    · exact absurd reached other
  · rintro ⟨⟨inside, held⟩, other⟩
    refine ⟨⟨inside, Or.inl held⟩, fun reached => ?_⟩
    rcases grows.extends_.fresh _ reached with before | free
    · exact other before
    · rw [page_frame] at free
      exact Bool.false_ne_true (free.symm.trans held)

theorem grows_entry {w : Nat} (lower : w < lowerHalf) : entryAt (t.hide large) root w = entryAt (s.hide large) root w :=
  grows.extends_.leaf _ (indices_lower lower) (indices_length w) _

end Growth

section Leaf
variable {table v : Nat} (paged : Paged large root s) (lower : v < lowerHalf)
  (at_ : follow (tableStep (s.hide large).mem) root (indices v) = some table)
include paged lower at_

theorem leaf_clear (i : Nat) : large table i = false := by
  by_contra hidden
  obtain ⟨q, inside, ends⟩ := paged.upper table i (by simpa using hidden)
  exact paged.tabled.above_leaves (Nat.le_refl 3) inside ends (indices_lower lower) (indices_length v) at_ rfl

variable (entry : Nat)

theorem leaf_same : SameTables large root s (s.write table (ptIndex v) entry) where
  follow q member := by
    rw [hide_write (leaf_clear paged lower at_ _)]
    exact leaf_tables paged.tabled lower at_ member
  same c j hidden := by
    rw [write_mem, if_neg]
    rintro ⟨rfl, rfl⟩
    exact Bool.false_ne_true ((leaf_clear paged lower at_ _).symm.trans hidden)

theorem leaf_paged : Paged large root (s.write table (ptIndex v) entry) := by
  refine (leaf_same paged lower at_ entry).paged paged ?_
  rw [hide_write (leaf_clear paged lower at_ _)]
  exact leaf_tabled paged.tabled lower at_

theorem leaf_data (f : Nat) : DataFrame large root (s.write table (ptIndex v) entry) f ↔ DataFrame large root s f := by
  unfold DataFrame
  rw [(leaf_same paged lower at_ entry).tableOf]
  exact Iff.rfl

theorem leaf_entry {w : Nat} (lower' : w < lowerHalf) : entryAt ((s.write table (ptIndex v) entry).hide large) root w =
    if w / pageSize = v / pageSize then if has entry ptePresent then some entry else none else entryAt (s.hide large) root w := by
  rw [hide_write (leaf_clear paged lower at_ _)]
  exact leaf_write paged.tabled lower at_ lower'

end Leaf

section Free
variable {a : Nat} (some_ : a ≠ 0)
include some_

theorem free_allocated (f : Nat) : Allocated (s.freePage a).pmm f ↔ Allocated s.pmm f ∧ f ≠ a / pageSize := by
  have frames : (s.freePage a).pmm.frameCount = s.pmm.frameCount := freePages_frames s.pmm a 1
  have test : (s.freePage a).pmm.frameBitmap.test f = _ := freePages_test (s := s.pmm) some_ f
  unfold Allocated
  rw [frames, test, Bool.and_eq_true, Bool.not_eq_true', decide_eq_false_iff_not]
  constructor
  · rintro ⟨inside, outside, taken⟩
    exact ⟨⟨inside, taken⟩, by omega⟩
  · rintro ⟨⟨inside, taken⟩, other⟩
    exact ⟨inside, by omega, taken⟩

theorem free_data (f : Nat) : DataFrame large root (s.freePage a) f ↔ DataFrame large root s f ∧ f ≠ a / pageSize := by
  unfold DataFrame
  rw [free_allocated some_ f, hide_free]
  exact and_right_comm

theorem free_paged (paged : Paged large root s) (high : lowFrames ≤ a / pageSize)
    (other : ¬ TableOf 3 root (s.hide large).mem (a / pageSize * pageSize)) : Paged large root (s.freePage a) := by
  have tables : SameTables large root s (s.freePage a) := ⟨fun _ _ => rfl, fun _ _ _ => rfl⟩
  refine tables.paged paged ⟨?_, paged.tabled.unshared, paged.tabled.plain, fun b reached => ?_⟩
  · exact freePages_sound paged.tabled.pmm high
  · have old : TableOf 3 root (s.hide large).mem b := reached
    obtain ⟨aligned, taken, tracked⟩ := paged.tabled.held b old
    have apart : b / pageSize ≠ a / pageSize := by
      intro same
      rw [← same, Nat.div_mul_cancel (Nat.dvd_of_mod_eq_zero aligned.1)] at other
      exact other old
    have held := (free_allocated (s := s) some_ (b / pageSize)).mpr ⟨⟨tracked, taken⟩, apart⟩
    exact ⟨aligned, held.2, held.1⟩

end Free
end Moves

/-- The pages that mmap holds in the space, each with its frame. -/
structure Owns (large : Nat → Nat → Bool) (root : Nat) (s : Vm) (pages : List (Nat × Nat)) : Prop where
  paged : Paged large root s
  lower : ∀ m ∈ pages, m.1 * pageSize < lowerHalf
  mapped : ∀ m ∈ pages, ∃ flags, entryAt (s.hide large) root (m.1 * pageSize) = some (leafEntry (m.2 * pageSize) flags)
  data : ∀ m ∈ pages, DataFrame large root s m.2 ∧ lowFrames ≤ m.2
  apart : pages.Pairwise fun m m' => m.1 ≠ m'.1 ∧ m.2 ≠ m'.2

section Pages
variable {large : Nat → Nat → Bool} {root : Nat} {s t : Vm} {space space' : AddressSpace} {pages : List (Nat × Nat)} {v : Nat} {code : Int}

theorem Owns.kept (owns : Owns large root s pages) (paged : Paged large root t)
    (entries : ∀ w < lowerHalf, entryAt (t.hide large) root w = entryAt (s.hide large) root w)
    (data : ∀ m ∈ pages, DataFrame large root t m.2) : Owns large root t pages where
  paged := paged
  lower := owns.lower
  mapped m member := by
    rw [entries _ (owns.lower m member)]
    exact owns.mapped m member
  data m member := ⟨data m member, (owns.data m member).2⟩
  apart := owns.apart

theorem walk_way (s : Vm) (space : AddressSpace) (v : Nat) (create : Bool) (flags : Nat) :
    walk s space (pageAlignDown v) create flags = walkDown s space.pml4 create flags (indices v) := by
  unfold walk
  rw [alignDown_indices]

/-- There is no way for vmm_map to the page: a large page lies there, or frames are missing. -/
def Refused (large : Nat → Nat → Bool) (root : Nat) (s : Vm) (v : Nat) : Prop :=
  Covered large root (s.hide large).mem [] (indices v) ∨
    freeFrames s.pmm < (gaps root (s.hide large).mem (fronts [] (indices v))).card

/-- What a successful walk leaves of the frames and the gaps. -/
structure Filled (large : Nat → Nat → Bool) (root : Nat) (s t : Vm) (v : Nat) : Prop where
  free : freeFrames t.pmm + (gaps root (s.hide large).mem (fronts [] (indices v))).card = freeFrames s.pmm
  follow : ∀ q ∈ lowerPaths 3, follow (tableStep (t.hide large).mem) root q = none ↔
    follow (tableStep (s.hide large).mem) root q = none ∧ q ∉ fronts [] (indices v)

theorem vmmMap_cases {phys flags : Nat} (paged : Paged large space.pml4 s) (lower : v < lowerHalf)
    (run : vmmMap s space v phys flags = (code, t, space')) : space'.pml4 = space.pml4 ∧
      (code ≠ 0 ∧ Refused large space.pml4 s v ∧ Grows large space.pml4 s t ∨
        code = 0 ∧ ¬ Refused large space.pml4 s v ∧ ∃ u table, Grows large space.pml4 s u ∧ Filled large space.pml4 s u v ∧
          follow (tableStep (u.hide large).mem) space.pml4 (indices v) = some table ∧
          t = u.write table (ptIndex v) (leafEntry phys flags)) := by
  unfold vmmMap at run
  rw [walk_way, alignDown_ptIndex] at run
  obtain ⟨r, u, walked⟩ : ∃ r u, walkDown s space.pml4 true flags (indices v) = (r, u) := ⟨_, _, rfl⟩
  have start : Arrives space.pml4 flags (s.hide large) [] space.pml4 := ⟨rfl, fun _ => rfl⟩
  have inside : [] ++ indices v ∈ lowerPaths 3 := indices_lower lower
  obtain ⟨grows, arrives, -⟩ := walkDown_large paged inside start walked
  obtain ⟨fails, takes⟩ := walkDown_counts paged inside start walked
  rw [walked] at run
  cases r with
  | none =>
    simp only [Prod.mk.injEq] at run
    obtain ⟨rfl, rfl, rfl⟩ := run
    exact ⟨rfl, Or.inl ⟨by decide, fails.mp rfl, grows⟩⟩
  | some table =>
    simp only [Prod.mk.injEq] at run
    obtain ⟨rfl, rfl, rfl⟩ := run
    obtain ⟨free, follows⟩ := takes (by simp)
    refine ⟨rfl, Or.inr ⟨rfl, fun refused => ?_, u, table, grows, ⟨free, follows⟩, arrives table rfl, rfl⟩⟩
    cases fails.mpr refused

theorem giveBack_spec {frame : Nat} (owns : Owns large space.pml4 s pages) (available : Available s.pmm frame 1)
    (grows : Grows large space.pml4 (claimPage s frame) t) : Owns large space.pml4 (t.freePage (frame * pageSize)) pages ∧
      (∀ f, DataFrame large space.pml4 (t.freePage (frame * pageSize)) f ↔ DataFrame large space.pml4 s f) ∧
      ∀ w < lowerHalf, entryAt ((t.freePage (frame * pageSize)).hide large) space.pml4 w = entryAt (s.hide large) space.pml4 w := by
  have some_ := (claimed (s := s) owns.paged.tabled.pmm available).some_
  have free := (claimed (s := s) owns.paged.tabled.pmm available).free
  have paged := grows.paged (claim_paged owns.paged available)
  have claim := (grows_data grows frame).mpr ((claim_data owns.paged available frame).mpr (Or.inr rfl))
  have data (f : Nat) : DataFrame large space.pml4 (t.freePage (frame * pageSize)) f ↔ DataFrame large space.pml4 s f := by
    rw [free_data some_, page_frame, grows_data grows, claim_data owns.paged available]
    constructor
    · rintro ⟨old | new, other⟩
      · exact old
      · exact absurd new other
    · intro old
      refine ⟨Or.inl old, ?_⟩
      rintro rfl
      exact Bool.false_ne_true (free.symm.trans old.1.2)
  have entries (w : Nat) (lower : w < lowerHalf) :
      entryAt ((t.freePage (frame * pageSize)).hide large) space.pml4 w = entryAt (s.hide large) space.pml4 w :=
    (grows_entry grows lower).trans (claim_entry owns.paged available lower)
  have paged' : Paged large space.pml4 (t.freePage (frame * pageSize)) := by
    apply free_paged some_ paged
    · rw [page_frame]
      exact available.above
    · rw [page_frame]
      exact claim.2
  exact ⟨owns.kept paged' entries fun m member => (data m.2).mpr (owns.data m member).1, data, entries⟩

/-- No frame for the page, or no way to it. -/
def NoRoom (large : Nat → Nat → Bool) (root : Nat) (s : Vm) (v : Nat) : Prop :=
  Covered large root (s.hide large).mem [] (indices v) ∨
    freeFrames s.pmm < 1 + (gaps root (s.hide large).mem (fronts [] (indices v))).card

/-- A page was mapped to a frame that had been free. -/
structure Gains (large : Nat → Nat → Bool) (root : Nat) (s t : Vm) (v frame flags : Nat) : Prop where
  data : ∀ f, DataFrame large root t f ↔ DataFrame large root s f ∨ f = frame
  free : ¬ Allocated s.pmm frame
  entries : ∀ w < lowerHalf, entryAt (t.hide large) root w =
    if w / pageSize = v / pageSize then some (leafEntry (frame * pageSize) flags) else entryAt (s.hide large) root w
  count : freeFrames t.pmm + 1 + (gaps root (s.hide large).mem (fronts [] (indices v))).card = freeFrames s.pmm
  follow : ∀ q ∈ lowerPaths 3, follow (tableStep (t.hide large).mem) root q = none ↔
    follow (tableStep (s.hide large).mem) root q = none ∧ q ∉ fronts [] (indices v)
  covered : ∀ w < lowerHalf, Covered large root (t.hide large).mem [] (indices w) ↔ Covered large root (s.hide large).mem [] (indices w)

theorem mapFresh_cases {frame flags : Nat} (owns : Owns large space.pml4 s pages) (lower : v < lowerHalf)
    (available : Available s.pmm frame 1) (count : freeFrames (claimPage s frame).pmm + 1 = freeFrames s.pmm)
    (run : vmmMap (claimPage s frame) space v (frame * pageSize) flags = (code, t, space')) : space'.pml4 = space.pml4 ∧
      (code ≠ 0 ∧ NoRoom large space.pml4 s v ∧ Grows large space.pml4 (claimPage s frame) t ∨
        code = 0 ∧ ¬ NoRoom large space.pml4 s v ∧ Paged large space.pml4 t ∧ Gains large space.pml4 s t v frame flags) := by
  have paged := claim_paged owns.paged available
  have tables := claim_tables owns.paged available
  have inside := indices_lower lower
  have gaps_ : gaps space.pml4 ((claimPage s frame).hide large).mem (fronts [] (indices v)) =
      gaps space.pml4 (s.hide large).mem (fronts [] (indices v)) := by
    apply Finset.filter_congr
    intro q member
    rw [tables.follow q (fronts_inside inside member)]
  have refused : Refused large space.pml4 (claimPage s frame) v ↔ NoRoom large space.pml4 s v := by
    unfold Refused NoRoom
    rw [tables.covered inside, gaps_]
    exact or_congr_right ⟨fun less => by omega, fun less => by omega⟩
  obtain ⟨root, ⟨failed, room, grows⟩ | ⟨done, room, u, table, grows, filled, at_, rfl⟩⟩ := vmmMap_cases paged lower run
  · exact ⟨root, Or.inl ⟨failed, refused.mp room, grows⟩⟩
  · have paged' := grows.paged paged
    have same := leaf_same paged' lower at_ (leafEntry (frame * pageSize) flags)
    refine ⟨root, Or.inr ⟨done, fun none_ => room (refused.mpr none_), leaf_paged paged' lower at_ _, ?_⟩⟩
    constructor
    · intro f
      rw [leaf_data paged' lower at_, grows_data grows, claim_data owns.paged available]
    · intro taken
      exact Bool.false_ne_true ((claimed (s := s) owns.paged.tabled.pmm available).free.symm.trans taken.2)
    · intro w lower'
      rw [leaf_entry paged' lower at_ _ lower', leafEntry_present, if_pos rfl, grows_entry grows lower',
        claim_entry owns.paged available lower']
    · have free := filled.free
      rw [gaps_] at free
      change freeFrames u.pmm + 1 + _ = _
      omega
    · intro q member
      rw [same.follow q member, filled.follow q member, tables.follow q member]
    · intro w lower'
      have inside' := indices_lower lower'
      have grown := covered_grows paged grows (show [] ++ indices w ∈ lowerPaths 3 from inside')
      exact (same.covered inside').trans (grown.trans (tables.covered inside'))

theorem Gains.owns {frame flags : Nat} (gains : Gains large root s t v frame flags) (owns : Owns large root s pages) (paged : Paged large root t)
    (lower : v < lowerHalf) (unmapped : entryAt (s.hide large) root v = none) (above : lowFrames ≤ frame) :
    Owns large root t (pages ++ [(v / pageSize, frame)]) := by
  obtain ⟨here, same⟩ := entryAt_page (s.hide large) root lower
  have other {m : Nat × Nat} (member : m ∈ pages) : m.1 ≠ v / pageSize ∧ m.2 ≠ frame := by
    constructor
    · intro page
      obtain ⟨flags', entry⟩ := owns.mapped m member
      rw [page, same, unmapped] at entry
      cases entry
    · rintro rfl
      exact gains.free (owns.data m member).1.1
  constructor
  · exact paged
  · intro m member
    rcases List.mem_append.mp member with old | new
    · exact owns.lower m old
    · rw [List.mem_singleton.mp new]
      exact here
  · intro m member
    rcases List.mem_append.mp member with old | new
    · rw [gains.entries _ (owns.lower m old), page_frame, if_neg (other old).1]
      exact owns.mapped m old
    · rw [List.mem_singleton.mp new]
      refine ⟨flags, ?_⟩
      rw [gains.entries _ here, page_frame, if_pos rfl]
  · intro m member
    rcases List.mem_append.mp member with old | new
    · exact ⟨(gains.data m.2).mpr (Or.inl (owns.data m old).1), (owns.data m old).2⟩
    · rw [List.mem_singleton.mp new]
      exact ⟨(gains.data frame).mpr (Or.inr rfl), above⟩
  · refine List.pairwise_append.mpr ⟨owns.apart, List.pairwise_singleton _ _, fun m member m' last => ?_⟩
    rw [List.mem_singleton.mp last]
    exact other member

end Pages
end Qito.Mm
