import Mathlib.Data.List.TakeWhile
import Qito.Qtx.Model

/-! Where the loader touches memory. The validator bounds every section by
64-bit sums that can wrap, so an accepted image may still be copied and patched
outside of its buffer; the main result says exactly when this does not happen. -/
namespace Qito.Qtx
open Traces Words

/-- An access inside the image, a store inside the buffer. -/
def Inside (len : Nat) : Touch → Prop
  | .read offset n => offset + n ≤ len
  | .store size offset n => offset + n ≤ size

@[grind =] def Accepted (data : Bytes) : Prop := Ends (qtxValidate data) ()

/-- Every access is inside, and so is the entry address where there is one. -/
def LoadsSafely (env : Env) (data : Bytes) : Prop :=
  Within (Inside data.length) (qtxLoadMemory env data) ∧ ∀ image, Ends (qtxLoadMemory env data) image →
    (header data).entryPoint ≠ 0 → image.base ≤ image.entry ∧ image.entry < image.base + image.size

/-- The allocation succeeds, with a buffer that lies in the address space. -/
def Allocates (env : Env) : Prop := ∀ size ≤ sizeLimit, ∃ base, env.kzalloc size = some base ∧ base + size ≤ 2 ^ 64

section Fields
variable {data : Bytes}

theorem byteAt_lt (data : Bytes) (i : Nat) : byteAt data i < 256 := UInt8.toNat_lt _

theorem le_lt (data : Bytes) (i n : Nat) : le data i n < 256 ^ n := by
  induction n generalizing i with
  | zero => exact Nat.one_pos
  | succ n ih =>
    have byte := byteAt_lt data i
    have rest := ih (i + 1)
    rw [le, Nat.pow_succ]
    omega

theorem inBounds_sound {offset length len : Nat} (small : offset + length < 2 ^ 64)
    (ok : inBounds offset length len = true) : offset + length ≤ len := by
  simp only [inBounds, Bool.and_eq_true, decide_eq_true_eq] at ok
  have sum := ok.2
  rwa [wrap64_of_lt small] at sum

end Fields

/-- What the validator has checked of a section. -/
structure ValidSection (len : Nat) (s : Section) : Prop where
  file : s.fileSize ≤ s.memorySize
  sized : s.memorySize ≤ sizeLimit
  inside : s.kind = sectionBss ∨ s.fileOffset + s.fileSize ≤ len

/-- What the validator has checked of an image. -/
structure Valid (data : Bytes) : Prop where
  long : headerSize ≤ data.length
  table : (header data).sectionOffset + (header data).sectionCount * sectionSize ≤ data.length
  imports : (header data).importCount = 0 ∨
    (header data).importOffset + (header data).importCount * importSize ≤ data.length
  sections : ∀ i < (header data).sectionCount, ValidSection data.length (section_ data i)
  names : ∀ i < (header data).importCount, 0 ∈ (import_ data i).name
  entry : (header data).entryPoint ≠ 0 → ∃ i < (header data).sectionCount,
    (section_ data i).virtualAddress ≤ (header data).entryPoint ∧ (header data).entryPoint < endOf (section_ data i)

section Validation
variable {data : Bytes}

theorem table_sound {i count size : Nat} (few : count ≤ qtxMaxImports) (small : size ≤ 36)
    (ok : inBounds (le data i 4) (count * size) data.length = true) : le data i 4 + count * size ≤ data.length := by
  have offset := le_lt data i 4
  have table : count * size ≤ 64 * 36 := Nat.mul_le_mul few small
  exact inBounds_sound (by omega) ok

theorem validateHeader_ends (ends : Ends (validateHeader data) ()) : headerSize ≤ data.length ∧
    ((header data).format = 0x58 ∨ (header data).format = 0x44) ∧
    (header data).sectionOffset + (header data).sectionCount * sectionSize ≤ data.length ∧
    ((header data).importCount = 0 ∨
      (header data).importOffset + (header data).importCount * importSize ≤ data.length) := by
  simp only [validateHeader, require, ends_bind, ends_ensure, ends_emit, exists_const, true_and, decide_eq_true_eq,
    Bool.or_eq_true] at ends
  obtain ⟨long, -, format, -, -, -, -, ⟨-, sections⟩, imports, -, table, importTable, -⟩ := ends
  refine ⟨long, format, ?_, importTable.imp_right ?_⟩
  · exact table_sound (Nat.le_trans sections (by decide)) (by decide) table
  · exact table_sound imports (by decide)

theorem validateSection_ends {before after : Bool} {i : Nat} (ends : Ends (validateSection data before i) after) :
    ValidSection data.length (section_ data i) := by
  simp only [validateSection, require, ends_bind, ends_ensure, ends_emit, exists_const, true_and, decide_eq_true_eq,
    Bool.or_eq_true] at ends
  obtain ⟨file, sized, inside, -⟩ := ends
  refine ⟨file, sized, inside.imp_right fun ok => inBounds_sound ?_ ok⟩
  have offset : (section_ data i).fileOffset < 256 ^ 4 := le_lt ..
  have size : (section_ data i).fileSize < 256 ^ 4 := le_lt ..
  omega

theorem entryInside_ends {found : Bool} {indices : List Nat} (ends : Ends (fold (entryInside data) found indices) true) :
    found = true ∨ ∃ i ∈ indices, (section_ data i).virtualAddress ≤ (header data).entryPoint ∧
      (header data).entryPoint < endOf (section_ data i) := by
  induction indices generalizing found with
  | nil => exact Or.inl ((ends_pure _ _).mp ends)
  | cons i indices ih =>
    obtain ⟨next, round, rest⟩ := (ends_bind _).mp ends
    rcases ih rest with rfl | ⟨j, member, here⟩
    · cases found with
      | true => exact Or.inl rfl
      | false =>
        simp only [entryInside, Bool.false_eq_true, if_false, ends_bind, ends_emit, ends_pure, exists_const, true_and,
          Bool.and_eq_true, decide_eq_true_eq] at round
        exact Or.inr ⟨i, List.mem_cons_self .., round.1.2, round.2⟩
    · exact Or.inr ⟨j, List.mem_cons_of_mem _ member, here⟩

theorem validateExecutable_ends {hasCode : Bool} (ends : Ends (validateExecutable data hasCode) ())
    (entry : (header data).entryPoint ≠ 0) : ∃ i < (header data).sectionCount,
      (section_ data i).virtualAddress ≤ (header data).entryPoint ∧
      (header data).entryPoint < endOf (section_ data i) := by
  simp only [validateExecutable, require, if_pos entry, ends_bind, ends_ensure, exists_const] at ends
  obtain ⟨-, -, found, search, ok⟩ := ends
  subst ok
  rcases entryInside_ends search with absurd | ⟨i, member, here⟩
  · cases absurd
  · exact ⟨i, List.mem_range.mp member, here⟩

theorem validateImport_ends {i : Nat} (ends : Ends (validateImport data () i) ()) : 0 ∈ (import_ data i).name := by
  simp only [validateImport, require, ends_bind, ends_ensure, ends_emit, exists_const, true_and] at ends
  exact List.contains_iff_mem.mp ends

theorem accepted_valid (accepted : Accepted data) : Valid data := by
  simp only [Accepted, qtxValidate, require, ends_bind, ends_ensure, ends_emit, exists_const, true_and] at accepted
  obtain ⟨⟨⟩, head, hasCode, rounds, ⟨⟩, kind, ⟨⟩, names, -⟩ := accepted
  obtain ⟨long, format, table, imports⟩ := validateHeader_ends head
  refine ⟨long, table, imports, fun i inside => ?_, fun i inside => ?_, fun entry => ?_⟩
  · obtain ⟨before, after, round⟩ := ends_fold_rounds rounds i (List.mem_range.mpr inside)
    exact validateSection_ends round
  · obtain ⟨⟨⟩, ⟨⟩, round⟩ := ends_fold_rounds names i (List.mem_range.mpr inside)
    exact validateImport_ends round
  · rw [validateKind] at kind
    split at kind
    · exact validateExecutable_ends kind entry
    · simp only [validateLibrary, require, ends_bind, ends_ensure, exists_const, decide_eq_true_eq] at kind
      exact absurd kind.1 entry

end Validation

section Bounds
variable {ss : List Section} {acc : Nat × Nat}

theorem widen_spec (ss : List Section) (acc : Nat × Nat) :
    (ss.foldl widen acc).1 ≤ acc.1 ∧ acc.2 ≤ (ss.foldl widen acc).2 ∧
    (∀ s ∈ ss, (ss.foldl widen acc).1 ≤ s.virtualAddress ∧ endOf s ≤ (ss.foldl widen acc).2) ∧
    ((ss.foldl widen acc).2 = acc.2 ∨ ∃ s ∈ ss, endOf s = (ss.foldl widen acc).2) := by
  induction ss generalizing acc with
  | nil => exact ⟨Nat.le_refl _, Nat.le_refl _, List.forall_mem_nil _, Or.inl rfl⟩
  | cons s ss ih =>
    obtain ⟨low, high, all, attained⟩ := ih (widen acc s)
    have lower : (widen acc s).1 ≤ acc.1 ∧ (widen acc s).1 ≤ s.virtualAddress := by
      simp only [widen]
      split <;> omega
    have upper : acc.2 ≤ (widen acc s).2 ∧ endOf s ≤ (widen acc s).2 := by
      simp only [widen]
      split <;> omega
    have reached : (widen acc s).2 = acc.2 ∨ endOf s = (widen acc s).2 := by
      simp only [widen]
      split
      · exact Or.inr rfl
      · exact Or.inl rfl
    rw [List.foldl_cons]
    refine ⟨Nat.le_trans low lower.1, Nat.le_trans upper.1 high, List.forall_mem_cons.mpr ⟨?_, all⟩, ?_⟩
    · exact ⟨Nat.le_trans low lower.2, Nat.le_trans upper.2 high⟩
    · rcases attained with same | ⟨t, member, here⟩
      · rcases reached with old | new
        · exact Or.inl (same.trans old)
        · exact Or.inr ⟨s, List.mem_cons_self .., new.trans same.symm⟩
      · exact Or.inr ⟨t, List.mem_cons_of_mem _ member, here⟩

theorem bounds_spec {lowest highest : Nat} (whole : bounds ss = (lowest, highest)) (some_ : lowest < highest) :
    (∀ s ∈ ss, lowest ≤ s.virtualAddress ∧ endOf s ≤ highest) ∧ ∃ s ∈ ss, endOf s = highest := by
  obtain ⟨-, -, all, attained⟩ := widen_spec ss (2 ^ 64 - 1, 0)
  change (∀ s ∈ ss, (bounds ss).1 ≤ s.virtualAddress ∧ endOf s ≤ (bounds ss).2) at all
  change (bounds ss).2 = 0 ∨ ∃ s ∈ ss, endOf s = (bounds ss).2 at attained
  rw [whole] at all attained
  refine ⟨all, attained.resolve_left fun none_ => ?_⟩
  change highest = 0 at none_
  omega

end Bounds

/-- memcpy is called for the section. -/
def Copied (s : Section) : Prop := s.kind ≠ sectionBss ∧ s.fileSize ≠ 0

/-- The bytes of the section end no later than some section whose end does not
wrap, which is the section itself in an honest image. -/
def Covered (data : Bytes) (s : Section) : Prop :=
  ∃ t ∈ sections data, t.virtualAddress + t.memorySize < 2 ^ 64 ∧
    s.virtualAddress + s.fileSize ≤ t.virtualAddress + t.memorySize

/-- The import is found and its patch address passes the test. -/
def Links (env : Env) (data : Bytes) (lowest highest i : Nat) : Prop :=
  (∃ target, resolveImport env i (import_ data i).name = some target) ∧
    lowest ≤ (import_ data i).patchAddress ∧ wrap64 ((import_ data i).patchAddress + 8) ≤ highest

/-- What the validator leaves unchecked: sections that wrap, patches that wrap,
and a header without a terminator for its name. -/
structure Placed (env : Env) (data : Bytes) (lowest highest : Nat) : Prop where
  sections : ∀ i < (header data).sectionCount, Copied (section_ data i) → Covered data (section_ data i)
  patches : ∀ i < (header data).importCount, (∀ j ≤ i, Links env data lowest highest j) →
    (import_ data i).patchAddress + 8 < 2 ^ 64
  name : (∀ i < (header data).importCount, Links env data lowest highest i) → 0 ∈ data.drop 64

section Accesses
variable {data : Bytes} {env : Env} {lowest highest : Nat}

theorem mem_sections {s : Section} : s ∈ sections data ↔ ∃ i < (header data).sectionCount, section_ data i = s := by
  simp [sections]

theorem scan_lt {l : Bytes} {n : Nat} (terminated : 0 ∈ l.take n) : (l.takeWhile (· != 0)).length < n := by
  induction l generalizing n with
  | nil => simp at terminated
  | cons b l ih =>
    cases n with
    | zero => simp at terminated
    | succ n =>
      by_cases stop : b = 0
      · simp [stop]
      · have later : 0 ∈ l.take n := by
          rw [List.take_succ_cons, List.mem_cons] at terminated
          exact terminated.resolve_left fun same => stop same.symm
        rw [List.takeWhile_cons_of_pos (by simpa using stop), List.length_cons]
        exact Nat.succ_lt_succ (ih later)

theorem strlenReads_inside {i : Nat} (start : i ≤ data.length) :
    i + strlenReads data i ≤ data.length ↔ 0 ∈ data.drop i := by
  have rest : (data.drop i).length = data.length - i := List.length_drop
  rw [strlenReads]
  constructor
  · intro inside
    by_contra missing
    have all : (data.drop i).takeWhile (· != 0) = data.drop i := by
      rw [List.takeWhile_eq_self_iff]
      intro b member
      simpa using fun zero : b = 0 => missing (zero ▸ member)
    rw [all, rest] at inside
    omega
  · intro terminated
    have before := scan_lt (n := (data.drop i).length) (by rwa [List.take_length])
    omega

theorem copy_inside {i : Nat} (valid : Valid data) (whole : bounds (sections data) = (lowest, highest))
    (some_ : lowest < highest) (inside : i < (header data).sectionCount) :
    sub64 (section_ data i).virtualAddress lowest + (section_ data i).fileSize ≤ highest - lowest ↔
      Covered data (section_ data i) := by
  obtain ⟨all, last, member, attained⟩ := bounds_spec whole some_
  have low := (all _ (mem_sections.mpr ⟨i, inside, rfl⟩)).1
  have address : (section_ data i).virtualAddress < 256 ^ 8 := le_lt ..
  rw [sub64_of_le low (by omega)]
  constructor
  · intro stored
    obtain ⟨j, within, rfl⟩ := mem_sections.mp member
    have lastAddress : (section_ data j).virtualAddress < 256 ^ 8 := le_lt ..
    have sized : (section_ data j).memorySize ≤ 64 * 1024 * 1024 := (valid.sections j within).sized
    have own : (section_ data i).memorySize ≤ 64 * 1024 * 1024 := (valid.sections i inside).sized
    have file := (valid.sections i inside).file
    by_cases wraps : (section_ data j).virtualAddress + (section_ data j).memorySize < 2 ^ 64
    · rw [endOf, wrap64_of_lt wraps] at attained
      exact ⟨_, mem_sections.mpr ⟨j, within, rfl⟩, wraps, by omega⟩
    · -- highest is then so low that the section itself cannot wrap
      rw [endOf, wrap64] at attained
      exact ⟨_, mem_sections.mpr ⟨i, inside, rfl⟩, by omega, by omega⟩
  · rintro ⟨t, member, small, covered⟩
    have high := (all t member).2
    rw [endOf, wrap64_of_lt small] at high
    omega

theorem patch_inside {i : Nat} (bound : highest < 2 ^ 64) (links : Links env data lowest highest i) :
    sub64 (import_ data i).patchAddress lowest + 8 ≤ highest - lowest ↔ (import_ data i).patchAddress + 8 < 2 ^ 64 := by
  obtain ⟨-, low, high⟩ := links
  have address : (import_ data i).patchAddress < 256 ^ 8 := le_lt ..
  rw [sub64_of_le low (by omega)]
  constructor
  · intro stored
    omega
  · intro small
    rw [wrap64_of_lt small] at high
    omega

theorem sectionAt_inside {i : Nat} (valid : Valid data) (inside : i < (header data).sectionCount) :
    sectionAt data i + sectionSize ≤ data.length := by
  have table := valid.table
  have places : (i + 1) * sectionSize ≤ (header data).sectionCount * sectionSize := Nat.mul_le_mul_right _ inside
  rw [Nat.add_mul, Nat.one_mul] at places
  rw [sectionAt]
  omega

theorem importAt_inside {i : Nat} (valid : Valid data) (inside : i < (header data).importCount) :
    importAt data i + importSize ≤ data.length := by
  have places : (i + 1) * importSize ≤ (header data).importCount * importSize := Nat.mul_le_mul_right _ inside
  rw [Nat.add_mul, Nat.one_mul] at places
  rw [importAt]
  rcases valid.imports with none_ | table
  · omega
  · omega

theorem validate_inside (valid : Valid data) : Within (Inside data.length) (qtxValidate data) := by
  have sectionRead {i : Nat} (inside : i ∈ List.range (header data).sectionCount) :
      Inside data.length (.read (sectionAt data i) sectionSize) := sectionAt_inside valid (List.mem_range.mp inside)
  simp only [qtxValidate, require, within_bind, within_ensure, within_emit, implies_true, and_true]
  refine ⟨?_, fun _ _ => ⟨?_, fun hasCode _ => ⟨?_, fun _ _ => ⟨?_, fun _ _ => ?_⟩⟩⟩⟩
  · have whole : Inside data.length (.read 0 headerSize) := Nat.le_trans (Nat.le_of_eq (Nat.zero_add _)) valid.long
    simp [validateHeader, require, whole]
  · refine within_fold_of_rounds fun hasCode i inside => ?_
    simp [validateSection, require, sectionRead inside]
  · rw [validateKind]
    split
    · simp only [validateExecutable, require, within_bind, within_ensure, true_and]
      intro _ _ _ _
      split
      · simp only [within_bind, within_ensure, implies_true, and_true]
        refine within_fold_of_rounds fun found i inside => ?_
        rw [entryInside]
        split
        · simp
        · simp [sectionRead inside]
      · simp
    · simp [validateLibrary, require]
  · refine within_fold_of_rounds fun _ i inside => ?_
    have entry := importAt_inside valid (List.mem_range.mp inside)
    simp only [validateImport, require, within_bind, within_ensure, within_emit, implies_true, and_true]
    refine Nat.le_trans (Nat.add_le_add_left ?_ _) entry
    exact Nat.le_trans (Nat.min_le_left _ _) (by decide)
  · exact Nat.le_of_eq (Nat.zero_add _)

theorem copySection_within {P : Touch → Prop} (span : Nat) (loaded : Loaded) (i : Nat) :
    Within P (copySection data lowest span loaded i) ↔ P (.read (sectionAt data i) sectionSize) ∧
      (Copied (section_ data i) → P (.read (section_ data i).fileOffset (section_ data i).fileSize) ∧
        P (.store span (sub64 (section_ data i).virtualAddress lowest) (section_ data i).fileSize)) := by
  simp only [copySection, within_bind, within_emit, ends_emit, forall_const]
  refine and_congr_right fun _ => ?_
  split
  case isTrue copied => simp [show Copied (section_ data i) from copied]
  case isFalse kept => simp [show ¬ Copied (section_ data i) from kept]

theorem copySection_ends (span : Nat) (loaded : Loaded) (i : Nat) :
    (∃ after, Ends (copySection data lowest span loaded i) after) ↔ True := by
  simp only [copySection, ends_bind, ends_emit, true_and, exists_const, iff_true]
  split
  · simp
  · simp

theorem linkImport_within {P : Touch → Prop} (span : Nat) (loaded : Loaded) (i : Nat) :
    Within P (linkImport env data lowest highest span loaded i) ↔
      P (.read (importAt data i) (strlenReads data (importAt data i))) ∧
      ((∃ target, resolveImport env i (import_ data i).name = some target) → P (.read (importAt data i + 24) 8)) ∧
      (Links env data lowest highest i → P (.store span (sub64 (import_ data i).patchAddress lowest) 8)) := by
  simp only [linkImport, within_bind, within_emit, ends_emit, forall_const]
  refine and_congr_right fun _ => ?_
  split
  case h_1 missing => simp [Links, missing]
  case h_2 target found =>
    simp only [within_bind, within_emit, ends_emit, forall_const, found, Option.some.injEq, exists_eq', Links, true_and]
    refine and_congr_right fun _ => ?_
    split
    case isTrue outside =>
      have refused : ¬ (lowest ≤ (import_ data i).patchAddress ∧ wrap64 ((import_ data i).patchAddress + 8) ≤ highest) := by
        omega
      simp [refused]
    case isFalse passed =>
      have accepted : lowest ≤ (import_ data i).patchAddress ∧ wrap64 ((import_ data i).patchAddress + 8) ≤ highest := by
        omega
      simp [accepted]

theorem linkImport_ends (span : Nat) (loaded : Loaded) (i : Nat) :
    (∃ after, Ends (linkImport env data lowest highest span loaded i) after) ↔ Links env data lowest highest i := by
  simp only [linkImport, ends_bind, ends_emit, true_and, exists_const]
  split
  case h_1 missing => simp [Links, missing]
  case h_2 target found =>
    simp only [ends_bind, ends_emit, true_and, exists_const, found, Option.some.injEq, exists_eq', Links]
    split
    case isTrue outside =>
      simp only [ends_fail, exists_false, false_iff]
      omega
    case isFalse passed =>
      simp only [ends_bind, ends_emit, ends_pure, true_and, exists_const, exists_eq', true_iff]
      omega

theorem copies_inside (valid : Valid data) (whole : bounds (sections data) = (lowest, highest)) (some_ : lowest < highest)
    (loaded : Loaded) : Within (Inside data.length)
      (fold (copySection data lowest (highest - lowest)) loaded (List.range (header data).sectionCount)) ↔
      ∀ i < (header data).sectionCount, Copied (section_ data i) → Covered data (section_ data i) := by
  rw [within_fold_range (copySection_within _) (copySection_ends _)]
  refine forall₂_congr fun i inside => ?_
  simp only [implies_true, forall_const]
  constructor
  · intro accesses copied
    exact (copy_inside valid whole some_ inside).mp (accesses.2 copied).2
  · intro covered
    refine ⟨sectionAt_inside valid inside, fun copied => ⟨?_, ?_⟩⟩
    · exact (valid.sections i inside).inside.resolve_left copied.1
    · exact (copy_inside valid whole some_ inside).mpr (covered copied)

theorem patches_inside (valid : Valid data) (bound : highest < 2 ^ 64) (loaded : Loaded) : Within (Inside data.length)
      (fold (linkImport env data lowest highest (highest - lowest)) loaded (List.range (header data).importCount)) ↔
      ∀ i < (header data).importCount, (∀ j ≤ i, Links env data lowest highest j) →
        (import_ data i).patchAddress + 8 < 2 ^ 64 := by
  rw [within_fold_range (linkImport_within _) (linkImport_ends _)]
  refine forall₂_congr fun i inside => ?_
  constructor
  · intro accesses reached
    have links := reached i (Nat.le_refl i)
    exact (patch_inside bound links).mp ((accesses fun j earlier => reached j (Nat.le_of_lt earlier)).2.2 links)
  · intro small reached
    have entry := importAt_inside valid inside
    refine ⟨?_, fun _ => ?_, fun links => (patch_inside bound links).mpr (small fun j earlier => ?_)⟩
    · refine Nat.le_trans (Nat.add_le_add_left ?_ _) entry
      exact Nat.le_trans (Nat.succ_le_of_lt (scan_lt (valid.names i inside))) (by decide)
    · exact entry
    · rcases Nat.lt_or_eq_of_le earlier with before | rfl
      · exact reached j before
      · exact links

theorem loadInto_inside {base : Nat} (valid : Valid data) (whole : bounds (sections data) = (lowest, highest))
    (some_ : lowest < highest) :
    Within (Inside data.length) (loadInto env data lowest highest base) ↔ Placed env data lowest highest := by
  have bound : highest < 2 ^ 64 := by
    obtain ⟨-, s, -, attained⟩ := bounds_spec whole some_
    rw [← attained]
    exact wrap64_lt _
  have linked (copied : Loaded) : (∃ after, Ends (fold (linkImport env data lowest highest (highest - lowest)) copied
      (List.range (header data).importCount)) after) ↔ ∀ i < (header data).importCount, Links env data lowest highest i := by
    rw [ends_fold (linkImport_ends _)]
    simp only [List.mem_range]
  have name : 64 + strlenReads data 64 ≤ data.length ↔ 0 ∈ data.drop 64 :=
    strlenReads_inside (Nat.le_trans (by decide) valid.long)
  simp only [loadInto, within_bind, within_emit, within_pure, implies_true, and_true, copies_inside valid whole some_,
    patches_inside valid bound]
  constructor
  · rintro ⟨copies, rest⟩
    have ends : ∃ after, Ends (fold (copySection data lowest (highest - lowest)) ⟨fun _ => 0, []⟩
        (List.range (header data).sectionCount)) after := (ends_fold (copySection_ends _)).mpr fun _ _ => trivial
    obtain ⟨copied, ends⟩ := ends
    obtain ⟨patches, last⟩ := rest copied ends
    refine ⟨copies, patches, fun all => name.mp ?_⟩
    obtain ⟨after, ends⟩ := (linked copied).mpr all
    exact last after ends
  · intro placed
    refine ⟨placed.sections, fun copied _ => ⟨placed.patches, fun after ends => name.mpr (placed.name ?_)⟩⟩
    exact (linked copied).mp ⟨after, ends⟩

/-- The entry point lies between lowest and highest: its section's end counts as
wrapped in both tests. -/
theorem loadInto_entry {base : Nat} {image : Image} (valid : Valid data)
    (whole : bounds (sections data) = (lowest, highest)) (some_ : lowest < highest)
    (fits : base + (highest - lowest) ≤ 2 ^ 64) (ends : Ends (loadInto env data lowest highest base) image)
    (entry : (header data).entryPoint ≠ 0) : image.base ≤ image.entry ∧ image.entry < image.base + image.size := by
  obtain ⟨i, inside, low, high⟩ := valid.entry entry
  obtain ⟨lower, upper⟩ := (bounds_spec whole some_).1 _ (mem_sections.mpr ⟨i, inside, rfl⟩)
  have small : (header data).entryPoint < 256 ^ 8 := le_lt ..
  have fields : image.base = base ∧ image.size = highest - lowest ∧
      image.entry = wrap64 (base + sub64 (header data).entryPoint lowest) := by
    simp only [loadInto, if_pos entry, ends_bind, ends_emit, ends_pure, true_and, exists_const] at ends
    obtain ⟨copied, -, linked, -, made⟩ := ends
    rw [← made]
    exact ⟨rfl, rfl, rfl⟩
  obtain ⟨start, size, address⟩ := fields
  rw [start, size, address, sub64_of_le (by omega) (by omega), wrap64_of_lt (by omega)]
  omega

end Accesses

section Loading
variable {data : Bytes} {env : Env}

/-- An accepted image is loaded inside its buffer just when nothing wraps that is
copied or patched, and the name in its header ends in the image. -/
theorem loads_safely_iff (allocates : Allocates env) (accepted : Accepted data) : LoadsSafely env data ↔
    ((bounds (sections data)).1 < (bounds (sections data)).2 →
      (bounds (sections data)).2 - (bounds (sections data)).1 ≤ sizeLimit →
        Placed env data (bounds (sections data)).1 (bounds (sections data)).2) := by
  have valid := accepted_valid accepted
  have reads : Within (Inside data.length) (fold (readSection data) () (List.range (header data).sectionCount)) :=
    within_fold_of_rounds fun _ i inside => (within_emit _).mpr (sectionAt_inside valid (List.mem_range.mp inside))
  have readsEnd : Ends (fold (readSection data) () (List.range (header data).sectionCount)) () := by
    obtain ⟨⟨⟩, ends⟩ := (ends_fold (R := fun _ => True) fun _ i => iff_true_intro ⟨(), (ends_emit _ _).mpr trivial⟩).mpr
      fun i (_ : i ∈ List.range (header data).sectionCount) => trivial
    exact ends
  generalize whole : bounds (sections data) = extent
  obtain ⟨lowest, highest⟩ := extent
  constructor
  · rintro ⟨accesses, -⟩ some_ fits
    obtain ⟨base, found, -⟩ := allocates (highest - lowest) fits
    simp only [qtxLoadMemory, within_bind, within_ensure, ends_ensure, whole, found, decide_eq_true_eq] at accesses
    exact (loadInto_inside valid whole some_).mp (((accesses.2 () accepted).2 () readsEnd).2 () some_ |>.2 () fits)
  · intro placed
    constructor
    · simp only [qtxLoadMemory, within_bind, within_ensure, ends_ensure, whole, decide_eq_true_eq, true_and]
      refine ⟨validate_inside valid, fun _ _ => ⟨reads, fun _ _ _ some_ _ fits => ?_⟩⟩
      obtain ⟨base, found, -⟩ := allocates (highest - lowest) fits
      rw [found]
      exact (loadInto_inside valid whole some_).mpr (placed some_ fits)
    · intro image ends entry
      simp only [qtxLoadMemory, ends_bind, ends_ensure, whole, decide_eq_true_eq] at ends
      obtain ⟨-, -, -, -, -, some_, -, fits, loads⟩ := ends
      obtain ⟨base, found, room⟩ := allocates (highest - lowest) fits
      rw [found] at loads
      exact loadInto_entry valid whole some_ room loads entry

end Loading

section Images

def sectionBytes (s : Section) : Bytes :=
  List.replicate 12 0x73 ++ [UInt8.ofNat s.kind, UInt8.ofNat s.flags] ++ number 1 2 ++ number s.virtualAddress 8 ++
    number s.fileOffset 4 ++ number s.fileSize 4 ++ number s.memorySize 4

def importBytes (name : String) (patchAddress : Nat) : Bytes :=
  ascii name ++ List.replicate (qtxNameMax - name.length) 0 ++ number patchAddress 8

/-- A header for tables that follow it at once. -/
def headerBytes (format : UInt8) (flags total entry sectionCount importCount checksum : Nat) (name : String) : Bytes :=
  [0x51, 0x58, format, 1] ++ number qtxMachine 2 ++ number flags 2 ++ number headerSize 4 ++ number total 4 ++
    number entry 8 ++ number 0 8 ++ number sectionCount 4 ++ number headerSize 4 ++ number importCount 4 ++
    number (headerSize + sectionCount * sectionSize) 4 ++ number 0 8 ++ number checksum 4 ++ number 0 4 ++
    ascii name ++ List.replicate (qtxNameMax - name.length) 0

/-- A program of eight bytes that is linked against console_puts. -/
def helloImage : Bytes :=
  headerBytes 0x58 flagExecutable 164 0x400000 1 1 5771 "hello" ++
    sectionBytes ⟨sectionCode, 0x05, 0x400000, 156, 8, 16⟩ ++
    importBytes "console_puts" 0x400008 ++ [0x90, 0x90, 0x90, 0x90, 0x90, 0x90, 0x90, 0xc3]

/-- The first section ends behind the last address, the second one at 64. -/
def wrappingImage : Bytes :=
  headerBytes 0x44 flagLibrary 160 0 2 0 6321 "wrap" ++
    sectionBytes ⟨2, 0x01, 2 ^ 64 - 16, 0, 16, 32⟩ ++ sectionBytes ⟨sectionBss, 0x01, 0, 0, 0, 64⟩

def kernelEnv : Env where
  kzalloc _ := some 0x100000
  address _ := 0x8000
  library _ _ := none
  provider _ _ := none

theorem kernelEnv_allocates : Allocates kernelEnv := by
  intro size fits
  refine ⟨0x100000, rfl, ?_⟩
  have small : size ≤ 64 * 1024 * 1024 := fits
  omega

theorem helloImage_accepted : Accepted helloImage := by
  rw [Accepted]
  decide +kernel

theorem hello_loads_safely : Allocates kernelEnv ∧ Accepted helloImage ∧ LoadsSafely kernelEnv helloImage := by
  refine ⟨kernelEnv_allocates, helloImage_accepted, (loads_safely_iff kernelEnv_allocates helloImage_accepted).mpr ?_⟩
  intro _ _
  have one : (header helloImage).sectionCount = 1 ∧ (header helloImage).importCount = 1 := by decide
  have placed : (section_ helloImage 0).virtualAddress = 0x400000 ∧ (section_ helloImage 0).fileSize = 8 ∧
    (section_ helloImage 0).memorySize = 16 ∧ (import_ helloImage 0).patchAddress = 0x400008 := by decide
  obtain ⟨address, file, memory, patch⟩ := placed
  refine ⟨fun i inside _ => ?_, fun i inside _ => ?_, fun _ => by decide⟩
  · obtain rfl : i = 0 := by omega
    refine ⟨_, mem_sections.mpr ⟨0, by omega, rfl⟩, ?_, ?_⟩
    · omega
    · omega
  · obtain rfl : i = 0 := by omega
    omega

example : (header wrappingImage).sectionCount = 2 := by decide +kernel

/-- The section at the top of the address space is copied far behind the buffer
of 64 bytes. -/
theorem section_copied_outside : ¬ ∀ (env : Env) (data : Bytes), Allocates env → Accepted data → LoadsSafely env data := by
  intro all
  have accepted : Accepted wrappingImage := by
    rw [Accepted]
    decide +kernel
  have store : Touch.store 64 (2 ^ 64 - 16) 16 ∈ (qtxLoadMemory kernelEnv wrappingImage).events := by decide +kernel
  have inside : 2 ^ 64 - 16 + 16 ≤ 64 := (all kernelEnv wrappingImage kernelEnv_allocates accepted).1 _ store
  exact absurd inside (by decide)

end Images

end Qito.Qtx
