import Mathlib.Algebra.Order.BigOperators.Group.List
import Mathlib.Algebra.Order.Group.Nat
import Mathlib.Data.List.Find
import Mathlib.Data.List.Forall2
import Mathlib.Data.List.Pairwise
import Qito.Qtx.Writer

/-! From the ELF file to the loaded image: the kernel accepts what build_qtx
writes, and every address of the image it makes holds the byte that belongs there. -/
namespace Qito.Qtx
open Buffers Packed Traces Words

def taken (elf : Elf) (m : Mapping) : Option (Mapping × ElfSection) :=
  (elf.find (ascii m.name)).bind fun s => if s.size = 0 then none else some (m, s)

/-- The sections of SECTION_MAP that are there and not empty. -/
def mapped (elf : Elf) : List (Mapping × ElfSection) := sectionMap.filterMap (taken elf)

/-- What is kept of a section: a piece of the list, with its bytes in the payload. -/
structure Holds (elf : Elf) (payload : Bytes) (t : Mapping × ElfSection) (p : Piece) : Prop where
  fields : p = piece t.1 t.2 p.fileOffset p.fileSize
  inside : p.fileOffset + p.fileSize ≤ payload.length
  stored : t.1.kind ≠ sectionBss → readAt p.fileOffset p.fileSize payload = elf.contents t.2
  short : p.fileSize ≤ (elf.contents t.2).length
  empty : t.1.kind = sectionBss → p.fileSize = 0

section Gathering
variable {elf : Elf} {payload : Bytes} {t : Mapping × ElfSection} {p : Piece}

theorem Holds.append (holds : Holds elf payload t p) (more : Bytes) : Holds elf (payload ++ more) t p where
  fields := holds.fields
  inside := by
    rw [List.length_append]
    exact Nat.le_add_right_of_le holds.inside
  stored kind := by
    rw [readAt_within holds.inside]
    exact holds.stored kind
  short := holds.short
  empty := holds.empty

/-- How much the payload grows in a round. -/
def room (elf : Elf) (t : Mapping × ElfSection) : Nat := (elf.contents t.2).length + 15

theorem addSection_holds {done : List (Mapping × ElfSection)} {acc : List Piece × Bytes} (m : Mapping)
    (holds : List.Forall₂ (Holds elf acc.2) done acc.1) (bound : acc.2.length ≤ (done.map (room elf)).sum) :
    List.Forall₂ (Holds elf (addSection elf acc m).2) (done ++ (taken elf m).toList) (addSection elf acc m).1 ∧
      (addSection elf acc m).2.length ≤ ((done ++ (taken elf m).toList).map (room elf)).sum := by
  unfold addSection taken
  cases elf.find (ascii m.name) with
  | none => simpa using ⟨holds, bound⟩
  | some s =>
    by_cases none_ : s.size = 0
    · simpa [none_] using ⟨holds, bound⟩
    simp only [none_, if_false, Option.bind_some, Option.toList_some]
    split
    · have new : Holds elf (acc.2 ++ elf.contents s) (m, s) (piece m s acc.2.length (elf.contents s).length) := by
        constructor
        · rfl
        · exact Nat.le_of_eq List.length_append.symm
        · intro _
          change readAt acc.2.length _ _ = _
          rw [readAt_skip (Nat.le_refl _), Nat.sub_self]
          exact readAt_all rfl
        · exact Nat.le_refl _
        · exact fun bss => absurd bss ‹_›
      constructor
      · apply List.rel_append
        · exact holds.imp fun t p held => (held.append _).append _
        · exact .cons (new.append _) .nil
      · have padding : (16 - (acc.2 ++ elf.contents s).length % 16) % 16 ≤ 15 := by omega
        have step : room elf (m, s) = (elf.contents s).length + 15 := rfl
        rw [pad16, List.length_append, List.length_replicate, List.map_append, List.sum_append, List.map_singleton,
          List.sum_singleton, step]
        rw [List.length_append] at padding ⊢
        omega
    · rename_i kind
      have new : Holds elf acc.2 (m, s) (piece m s 0 0) :=
        ⟨rfl, Nat.zero_le _, fun other => absurd other kind, Nat.zero_le _, fun _ => rfl⟩
      constructor
      · apply List.rel_append
        · exact holds
        · exact .cons new .nil
      · rw [List.map_append, List.sum_append]
        exact Nat.le_add_right_of_le bound

theorem gather_holds (elf : Elf) : List.Forall₂ (Holds elf (gather elf).2) (mapped elf) (gather elf).1 ∧
    (gather elf).2.length ≤ ((mapped elf).map (room elf)).sum := by
  have run (maps : List Mapping) (done : List (Mapping × ElfSection)) (acc : List Piece × Bytes)
      (holds : List.Forall₂ (Holds elf acc.2) done acc.1) (bound : acc.2.length ≤ (done.map (room elf)).sum) :
      List.Forall₂ (Holds elf (maps.foldl (addSection elf) acc).2) (done ++ maps.filterMap (taken elf))
        (maps.foldl (addSection elf) acc).1 ∧
      (maps.foldl (addSection elf) acc).2.length ≤ ((done ++ maps.filterMap (taken elf)).map (room elf)).sum := by
    induction maps generalizing done acc with
    | nil => simpa using ⟨holds, bound⟩
    | cons m maps ih =>
      obtain ⟨holds, bound⟩ := addSection_holds m holds bound
      have rest := ih _ _ holds bound
      have order : done ++ (m :: maps).filterMap (taken elf) = done ++ (taken elf m).toList ++ maps.filterMap (taken elf) := by
        cases here : taken elf m <;> simp [here]
      rw [List.foldl_cons, order]
      exact rest
  exact run sectionMap [] ([], []) .nil (by simp)

end Gathering

/-- The lowest address of the sections, and the end of the last one. -/
def lowest (elf : Elf) : Nat := ((mapped elf).map fun t => t.2.addr.toNat).foldl min (2 ^ 64 - 1)

def highest (elf : Elf) : Nat := ((mapped elf).map fun t => t.2.addr.toNat + t.2.size.toNat).foldl max 0

/-- What the tool chain is given: sections that lie apart and in the file, code
with the entry of a program, and imports of kernel services inside the image. -/
structure Linkable (elf : Elf) (shared : Bool) (imports : List (Bytes × Nat)) : Prop where
  present : ∀ t ∈ mapped elf, t.2.type ≠ shtNobits → t.2.offset.toNat + t.2.size.toNat ≤ elf.data.length
  ends : ∀ t ∈ mapped elf, t.2.addr.toNat + t.2.size.toNat < 2 ^ 64
  apart : (mapped elf).Pairwise fun a b =>
    a.2.addr.toNat + a.2.size.toNat ≤ b.2.addr.toNat ∨ b.2.addr.toNat + b.2.size.toNat ≤ a.2.addr.toNat
  span : highest elf - lowest elf ≤ sizeLimit
  text : ∃ s, elf.find (ascii ".text") = some s ∧ s.size ≠ 0 ∧
    (shared = false → s.addr.toNat ≤ elf.entry.toNat ∧ elf.entry.toNat < s.addr.toNat + s.size.toNat)
  few : imports.length ≤ qtxMaxImports
  names : ∀ entry ∈ imports, (∃ e ∈ exports, ascii e = entry.1) ∧ entry.1.length < qtxNameMax
  patches : ∀ entry ∈ imports, lowest elf ≤ entry.2 ∧ entry.2 + 8 ≤ highest elf

section Extent
variable {elf : Elf} {shared : Bool} {imports : List (Bytes × Nat)} {t : Mapping × ElfSection}

theorem mem_mapped : t ∈ mapped elf ↔ t.1 ∈ sectionMap ∧ elf.find (ascii t.1.name) = some t.2 ∧ t.2.size ≠ 0 := by
  simp only [mapped, List.mem_filterMap, taken, Option.bind_eq_some_iff, Option.ite_none_left_eq_some, Option.some.injEq]
  constructor
  · rintro ⟨m, member, s, found, full, rfl⟩
    exact ⟨member, found, full⟩
  · rintro ⟨member, found, full⟩
    exact ⟨t.1, member, t.2, found, full, rfl⟩

theorem mapped_length (elf : Elf) : (mapped elf).length ≤ 5 := List.length_filterMap_le _ _

theorem foldl_min_le {xs : List Nat} {start n : Nat} (among : start ≤ n ∨ n ∈ xs) : xs.foldl min start ≤ n := by
  induction xs generalizing start with
  | nil => exact among.resolve_right List.not_mem_nil
  | cons x xs ih =>
    rcases among with below | member
    · exact ih (.inl (Nat.le_trans (Nat.min_le_left _ _) below))
    · rcases List.mem_cons.mp member with rfl | later
      · exact ih (.inl (Nat.min_le_right _ _))
      · exact ih (.inr later)

theorem le_foldl_max {xs : List Nat} {start n : Nat} (among : n ≤ start ∨ n ∈ xs) : n ≤ xs.foldl max start := by
  induction xs generalizing start with
  | nil => exact among.resolve_right List.not_mem_nil
  | cons x xs ih =>
    rcases among with above | member
    · exact ih (.inl (Nat.le_trans above (Nat.le_max_left _ _)))
    · rcases List.mem_cons.mp member with rfl | later
      · exact ih (.inl (Nat.le_max_right _ _))
      · exact ih (.inr later)

theorem lowest_le (member : t ∈ mapped elf) : lowest elf ≤ t.2.addr.toNat :=
  foldl_min_le (.inr (List.mem_map_of_mem member))

theorem le_highest (member : t ∈ mapped elf) : t.2.addr.toNat + t.2.size.toNat ≤ highest elf :=
  le_foldl_max (.inr (List.mem_map.mpr ⟨t, member, rfl⟩))

theorem foldl_max_lt {xs : List Nat} {start bound : Nat} (first : start < bound) (each : ∀ n ∈ xs, n < bound) :
    xs.foldl max start < bound := by
  induction xs generalizing start with
  | nil => exact first
  | cons x xs ih =>
    obtain ⟨here, rest⟩ := List.forall_mem_cons.mp each
    exact ih (Nat.max_lt.mpr ⟨first, here⟩) rest

theorem Linkable.highest_lt (given : Linkable elf shared imports) : highest elf < 2 ^ 64 := by
  apply foldl_max_lt (by decide)
  rw [List.forall_mem_map]
  exact given.ends

theorem contents_length (elf : Elf) (s : ElfSection) : (elf.contents s).length ≤ s.size.toNat := by
  unfold Elf.contents
  split
  · exact Nat.zero_le _
  · exact List.length_take_le _ _

theorem Linkable.sized (given : Linkable elf shared imports) (member : t ∈ mapped elf) : t.2.size.toNat ≤ sizeLimit := by
  have low := lowest_le member
  have high := le_highest member
  have span := given.span
  change _ ≤ 64 * 1024 * 1024 at span ⊢
  omega

theorem Linkable.payload (given : Linkable elf shared imports) : (gather elf).2.length ≤ 5 * (sizeLimit + 15) := by
  have each : ∀ n ∈ (mapped elf).map (room elf), n ≤ sizeLimit + 15 := by
    simp only [List.forall_mem_map]
    intro t member
    exact Nat.add_le_add_right (Nat.le_trans (contents_length elf t.2) (given.sized member)) 15
  calc (gather elf).2.length
    _ ≤ ((mapped elf).map (room elf)).sum := (gather_holds elf).2
    _ ≤ ((mapped elf).map (room elf)).length • (sizeLimit + 15) := List.sum_le_card_nsmul _ _ each
    _ ≤ 5 * (sizeLimit + 15) := by
      rw [List.length_map, nsmul_eq_mul]
      exact Nat.mul_le_mul_right _ (mapped_length elf)

end Extent

/-- A section of the image that stands for a section of the ELF file. -/
structure Lies (elf : Elf) (data : Bytes) (t : Mapping × ElfSection) (s : Section) : Prop where
  kind : s.kind = t.1.kind
  flags : s.flags = t.1.perm
  addr : s.virtualAddress = t.2.addr.toNat
  memory : s.memorySize = t.2.size.toNat
  short : s.fileSize ≤ s.memorySize
  inside : s.kind ≠ sectionBss → s.fileOffset + s.fileSize ≤ data.length
  stored : s.kind ≠ sectionBss → field data s.fileOffset s.fileSize = elf.contents t.2

section Writing
variable {elf : Elf} {shared : Bool} {imports : List (Bytes × Nat)} {name : Bytes} {flags stackSize fmt chk : Nat}

theorem forall₂_right {α β : Type} {R : α → β → Prop} {as : List α} {bs : List β} {b : β} (related : List.Forall₂ R as bs)
    (member : b ∈ bs) : ∃ a ∈ as, R a b := by
  induction related with
  | nil => cases member
  | cons here _ ih =>
    rcases List.mem_cons.mp member with rfl | later
    · exact ⟨_, List.mem_cons_self, here⟩
    · obtain ⟨a, inside, there⟩ := ih later
      exact ⟨a, List.mem_cons_of_mem _ inside, there⟩

theorem sectionMap_fits : ∀ m ∈ sectionMap, m.kind < 256 ∧ m.perm < 256 ∧ (m.kind = sectionCode → has m.perm secExec = true) ∧
    (has m.perm secWrite && has m.perm secExec) = false := by
  decide

theorem keptSymbols_length (elf : Elf) : (keptSymbols elf).length ≤ qtxMaxSymbols := by
  rw [keptSymbols, List.length_map]
  exact List.length_take_le _ _

theorem payloadOffset_le (given : Linkable elf shared imports) :
    (programOf elf name flags imports stackSize fmt).payloadOffset ≤ 88 + 5 * 36 + 64 * 32 + 128 * 32 := by
  have symbols := keptSymbols_length elf
  have sections : (gather elf).1.length ≤ 5 := by
    rw [← (gather_holds elf).1.length_eq]
    exact mapped_length elf
  rw [programOf_payloadOffset]
  exact Nat.add_le_add (Nat.add_le_add (Nat.add_le_add_left (Nat.mul_le_mul_right _ sections) _)
    (Nat.mul_le_mul_right _ given.few)) (Nat.mul_le_mul_right _ symbols)

theorem piece_fits (given : Linkable elf shared imports) {t : Mapping × ElfSection} {p : Piece} {offset : Nat}
    (member : t ∈ mapped elf) (holds : Holds elf (gather elf).2 t p) (early : offset ≤ 10000) : (relocate offset p).Fits := by
  obtain ⟨kind, perm, -, -⟩ := sectionMap_fits t.1 (mem_mapped.mp member).1
  have size : t.2.size.toNat ≤ 64 * 1024 * 1024 := given.sized member
  have payload : (gather elf).2.length ≤ 5 * (64 * 1024 * 1024 + 15) := given.payload
  have inside := holds.inside
  have addr : t.2.addr.toNat < 2 ^ 64 := t.2.addr.toNat_lt
  have fits : p.Fits ∧ p.fileOffset + offset < 256 ^ 4 := by
    rw [holds.fields]
    exact ⟨⟨kind, perm, by change 16 < 256 ^ 2; decide, addr, by simp only [piece]; omega, by simp only [piece]; omega,
      by simp only [piece]; omega⟩, by simp only [piece]; omega⟩
  unfold relocate
  split
  · exact { fits.1 with fileOffset := fits.2 }
  · exact fits.1

theorem programOf_fits (given : Linkable elf shared imports) (format : fmt < 256) (marks : flags < 2 ^ 16)
    (stack : stackSize < 2 ^ 32) : (programOf elf name flags imports stackSize fmt).Fits := by
  generalize whole : programOf elf name flags imports stackSize fmt = x
  have early : x.payloadOffset ≤ 10000 := by
    rw [← whole]
    exact Nat.le_trans (payloadOffset_le given) (by decide)
  have payload : x.payload.length ≤ 5 * (64 * 1024 * 1024 + 15) := by
    rw [← whole]
    exact given.payload
  have order : x.pieces.length * 36 ≤ x.importOffset ∧ x.importOffset + x.imports.length * 32 = x.symbolOffset ∧
      x.symbolOffset + x.symbols.length * 32 = x.payloadOffset := ⟨Nat.le_add_left _ _, rfl, rfl⟩
  constructor
  · constructor
    · rw [← whole]
      exact format
    · rw [← whole]
      exact marks
    · change x.payloadOffset + x.payload.length < 256 ^ 4
      omega
    · rw [← whole]
      exact elf.entry.toNat_lt
    · exact Nat.lt_of_le_of_lt (foldl_min_le (.inl (Nat.le_refl _))) (by decide)
    · change x.pieces.length < 256 ^ 4
      omega
    · change x.imports.length < 256 ^ 4
      omega
    · change x.importOffset < 256 ^ 4
      omega
    · change x.symbols.length < 256 ^ 4
      omega
    · change x.symbolOffset < 256 ^ 4
      omega
    · rw [← whole]
      exact stack
  · have pieces : x.pieces = (gather elf).1.map (relocate x.payloadOffset) := by
      rw [← whole, programOf_payloadOffset]
      rfl
    rw [pieces, List.forall_mem_map]
    intro p member
    obtain ⟨t, there, holds⟩ := forall₂_right (gather_holds elf).1 member
    exact piece_fits given there holds early
  · rw [← whole]
    intro entry member
    have patch := (given.patches entry member).2
    have high := given.highest_lt
    change entry.2 < 2 ^ 64
    omega
  · rw [← whole]
    simp only [programOf, keptSymbols, List.forall_mem_map]
    exact fun symbol _ => symbol.2.1.toNat_lt

theorem sections_image {x : Program} (fits : x.Fits) (small : chk < 256 ^ 4) :
    sections (x.image chk) = x.pieces.map Piece.toSection := by
  have count : (header (x.image chk)).sectionCount = x.pieces.length := by
    rw [Program.image, header_imageOf fits.header small]
    rfl
  rw [sections, count]
  apply List.ext_getElem
  · simp
  · intro i left right
    have inside : i < x.pieces.length := by simpa using right
    rw [List.getElem_map, List.getElem_range, List.getElem_map]
    exact section_image fits small (List.getElem?_eq_getElem inside)

theorem Holds.lies {x : Program} {t : Mapping × ElfSection} {p : Piece} (holds : Holds elf x.payload t p) :
    Lies elf (x.image chk) t (relocate x.payloadOffset p).toSection := by
  have fields := holds.fields
  have kind : p.kind = t.1.kind := congrArg Piece.kind fields
  have memory : p.memorySize = t.2.size.toNat := congrArg Piece.memorySize fields
  have moved : (relocate x.payloadOffset p).toSection =
      ⟨p.kind, p.flags, p.addr, if p.kind ≠ sectionBss then p.fileOffset + x.payloadOffset else p.fileOffset,
        p.fileSize, p.memorySize⟩ := by
    unfold relocate
    split
    · rfl
    · rfl
  rw [moved]
  constructor
  · exact kind
  · exact congrArg Piece.flags fields
  · exact congrArg Piece.addr fields
  · exact memory
  · change p.fileSize ≤ p.memorySize
    rw [memory]
    exact Nat.le_trans holds.short (contents_length elf t.2)
  · intro (other : p.kind ≠ sectionBss)
    have inside := holds.inside
    simp only [if_pos other, image_length]
    omega
  · intro (other : p.kind ≠ sectionBss)
    simp only [if_pos other]
    rw [Nat.add_comm, field_image]
    exact holds.stored (kind ▸ other)

theorem sections_lie (fits : (programOf elf name flags imports stackSize fmt).Fits) (small : chk < 256 ^ 4) :
    List.Forall₂ (Lies elf ((programOf elf name flags imports stackSize fmt).image chk)) (mapped elf)
      (sections ((programOf elf name flags imports stackSize fmt).image chk)) := by
  have pieces : (programOf elf name flags imports stackSize fmt).pieces =
      (gather elf).1.map (relocate (programOf elf name flags imports stackSize fmt).payloadOffset) := by
    rw [programOf_payloadOffset]
    rfl
  rw [sections_image fits small, pieces, List.map_map, List.forall₂_map_right_iff]
  exact (gather_holds elf).1.imp fun t p holds => Holds.lies holds

end Writing

section Acceptance
variable {elf : Elf} {shared : Bool} {imports : List (Bytes × Nat)} {x : Program} {data : Bytes} {chk : Nat}

theorem inBounds_intro {offset length len : Nat} (inside : offset + length ≤ len) (small : len < 2 ^ 64) :
    inBounds offset length len = true := by
  simp only [inBounds, Bool.and_eq_true, decide_eq_true_eq]
  rw [wrap64_of_lt (by omega)]
  omega

theorem accepts_header (fits : x.Fits) (small : chk < 256 ^ 4) (format : x.format = 0x58 ∨ x.format = 0x44)
    (some_ : x.pieces ≠ []) (sections : x.pieces.length ≤ qtxMaxSections) (few : x.imports.length ≤ qtxMaxImports)
    (symbols : x.symbols.length ≤ qtxMaxSymbols) : Ends (validateHeader (x.image chk)) () := by
  have head := header_imageOf (t := x.tables) fits.header small
  have length : (x.image chk).length = x.payloadOffset + x.payload.length := image_length
  have whole : (x.image chk).length < 2 ^ 64 := by
    rw [length]
    exact Nat.lt_trans fits.header.total (by decide)
  have order : 88 + x.pieces.length * 36 = x.importOffset ∧ x.importOffset + x.imports.length * 32 = x.symbolOffset ∧
      x.symbolOffset + x.symbols.length * 32 = x.payloadOffset := ⟨rfl, rfl, rfl⟩
  have count : x.pieces.length ≠ 0 := by simpa using some_
  simp only [validateHeader, require, ends_bind, ends_ensure, ends_emit, exists_const, true_and, decide_eq_true_eq,
    Bool.or_eq_true, Program.image, head]
  refine ⟨?_, format, length.symm, ⟨count, sections⟩, few, symbols, ?_, .inr ?_, .inr ?_⟩
  · apply decide_eq_true
    change 88 ≤ (x.image chk).length
    omega
  · exact inBounds_intro (by change 88 + x.pieces.length * 36 ≤ (x.image chk).length; omega) whole
  · exact inBounds_intro (by change x.importOffset + x.imports.length * 32 ≤ (x.image chk).length; omega) whole
  · exact inBounds_intro (by change x.symbolOffset + x.symbols.length * 32 ≤ (x.image chk).length; omega) whole

theorem forall₂_left {α β : Type} {R : α → β → Prop} {as : List α} {bs : List β} {a : α} (related : List.Forall₂ R as bs)
    (member : a ∈ as) : ∃ b ∈ bs, R a b := by
  obtain ⟨b, inside, there⟩ := forall₂_right (R := flip R) (List.Forall₂.flip related) member
  exact ⟨b, inside, there⟩

theorem text_lies (given : Linkable elf shared imports) (lies : List.Forall₂ (Lies elf data) (mapped elf) (sections data)) :
    ∃ i < (header data).sectionCount, (section_ data i).kind = sectionCode ∧
      (shared = false → has (section_ data i).flags secExec = true ∧ (section_ data i).virtualAddress ≤ elf.entry.toNat ∧
        elf.entry.toNat < endOf (section_ data i)) := by
  obtain ⟨s, found, full, entry⟩ := given.text
  have member : (⟨".text", 1, 0x05⟩, s) ∈ mapped elf := mem_mapped.mpr ⟨List.mem_cons_self, found, full⟩
  obtain ⟨here, there, lie⟩ := forall₂_left lies member
  obtain ⟨i, inside, rfl⟩ := mem_sections.mp there
  refine ⟨i, inside, lie.kind, fun program => ?_⟩
  have ends : endOf (section_ data i) = s.addr.toNat + s.size.toNat := by
    rw [endOf, lie.addr, lie.memory]
    exact wrap64_of_lt (given.ends _ member)
  rw [lie.flags, lie.addr, ends]
  exact ⟨by change has 5 secExec = true; decide, entry program⟩

theorem accepts_sections (given : Linkable elf shared imports) (small : data.length < 2 ^ 64)
    (lies : List.Forall₂ (Lies elf data) (mapped elf) (sections data)) :
    Ends (fold (validateSection data) false (List.range (header data).sectionCount)) true := by
  obtain ⟨i, inside, code, -⟩ := text_lies given lies
  have run : ∃ b, Ends (fold (validateSection data) false (List.range (header data).sectionCount)) b ∧
      b = (List.range (header data).sectionCount).any fun i => decide ((section_ data i).kind = sectionCode) := by
    apply fold_total (I := fun done b => b = done.any fun i => decide ((section_ data i).kind = sectionCode)) rfl
    intro done j member b inv
    obtain ⟨t, there, lie⟩ := forall₂_right lies (mem_sections.mpr ⟨j, List.mem_range.mp member, rfl⟩)
    obtain ⟨-, -, exec, apart⟩ := sectionMap_fits t.1 (mem_mapped.mp there).1
    refine ⟨b || decide ((section_ data j).kind = sectionCode), ?_, ?_⟩
    · simp only [validateSection, require, ends_bind, ends_ensure, ends_emit, exists_const, true_and, decide_eq_true_eq,
        Bool.or_eq_true, ends_pure, and_true]
      refine ⟨lie.short, ?_, ?_, ?_, ?_⟩
      · rw [lie.memory]
        exact given.sized there
      · exact or_iff_not_imp_left.mpr fun other => inBounds_intro (lie.inside other) small
      · rw [lie.kind, lie.flags]
        exact or_iff_not_imp_left.mpr fun other => exec (Decidable.not_not.mp other)
      · rw [lie.flags, apart]
        rfl
    · simp [inv]
  obtain ⟨b, ends, same⟩ := run
  have found : b = true := by
    rw [same, List.any_eq_true]
    exact ⟨i, List.mem_range.mpr inside, decide_eq_true code⟩
  rwa [found] at ends

theorem entry_found {i : Nat} (inside : i < (header data).sectionCount) (exec : has (section_ data i).flags secExec = true)
    (above : (section_ data i).virtualAddress ≤ (header data).entryPoint)
    (below : (header data).entryPoint < endOf (section_ data i)) :
    Ends (fold (entryInside data) false (List.range (header data).sectionCount)) true := by
  have run : ∃ b, Ends (fold (entryInside data) false (List.range (header data).sectionCount)) b ∧
      (i ∈ List.range (header data).sectionCount → b = true) := by
    apply fold_total (I := fun done b => i ∈ done → b = true) (by simp)
    intro done j member b inv
    unfold entryInside
    cases b with
    | true => exact ⟨true, (ends_pure _ _).mpr rfl, fun _ => rfl⟩
    | false =>
      simp only [Bool.false_eq_true, if_false, ends_bind, ends_emit, exists_const, true_and, ends_pure]
      refine ⟨_, rfl, fun reached => ?_⟩
      rcases List.mem_append.mp reached with earlier | here
      · exact absurd (inv earlier) (by decide)
      · cases List.mem_singleton.mp here
        simp [exec, above, below]
  obtain ⟨b, ends, found⟩ := run
  rwa [found (List.mem_range.mpr inside)] at ends

theorem zero_mem_packString {width : Nat} {text : Bytes} (short : text.length < width) : 0 ∈ packString width text := by
  apply List.mem_append_right
  exact List.mem_replicate.mpr ⟨by omega, rfl⟩

theorem accepts_imports (fits : x.Fits) (small : chk < 256 ^ 4) (short : ∀ entry ∈ x.imports, entry.1.length < qtxNameMax) :
    Ends (fold (validateImport (x.image chk)) () (List.range x.imports.length)) () := by
  have run : ∃ u, Ends (fold (validateImport (x.image chk)) () (List.range x.imports.length)) u ∧ True := by
    apply fold_total (I := fun _ _ => True) trivial
    intro done i member u _
    have inside := List.mem_range.mp member
    have there : x.imports[i]? = some x.imports[i] := List.getElem?_eq_getElem inside
    have name : (x.imports[i].1.take 24).length < 24 := by
      have length := short _ (List.getElem_mem inside)
      rw [List.length_take]
      exact Nat.lt_of_le_of_lt (Nat.min_le_right _ _) length
    refine ⟨(), ?_, trivial⟩
    simp only [validateImport, require, ends_bind, ends_ensure, ends_emit, exists_const, true_and, import_image fits small there]
    exact List.contains_iff_mem.mpr (zero_mem_packString name)
  obtain ⟨⟨⟩, ends, -⟩ := run
  exact ends

/-- The image of a program, or of a library, for which the sections of the ELF
file were packed. -/
theorem accepted_image (given : Linkable elf shared imports) (fits : x.Fits) (chk_ : chk = computeChecksum (x.image 0))
    (lies : List.Forall₂ (Lies elf (x.image chk)) (mapped elf) (sections (x.image chk)))
    (imports_ : x.imports = imports) (symbols : x.symbols.length ≤ qtxMaxSymbols)
    (kind : shared = false ∧ x.format = 0x58 ∧ x.entry = elf.entry.toNat ∧ elf.entry ≠ 0 ∨
      shared = true ∧ x.format = 0x44 ∧ x.entry = 0 ∧ x.flags = flagLibrary) : Accepted (x.image chk) := by
  have small : chk < 256 ^ 4 := by
    rw [chk_]
    exact computeChecksum_lt
  have head := header_imageOf (t := x.tables) fits.header small
  have count : (header (x.image chk)).sectionCount = x.pieces.length := by
    rw [Program.image, head]
    rfl
  have pieces : x.pieces.length = (mapped elf).length := by
    rw [lies.length_eq, sections, List.length_map, List.length_range, count]
  have length : (x.image chk).length < 2 ^ 64 := by
    rw [image_length]
    exact Nat.lt_trans fits.header.total (by decide)
  have format : x.format = 0x58 ∨ x.format = 0x44 := kind.imp (fun k => k.2.1) (fun k => k.2.1)
  have some_ : x.pieces ≠ [] := by
    obtain ⟨i, inside, -⟩ := text_lies given lies
    rw [count] at inside
    exact List.ne_nil_of_length_pos (Nat.zero_lt_of_lt inside)
  simp only [Accepted, qtxValidate, require, ends_bind, ends_ensure, ends_emit, exists_const, true_and, decide_eq_true_eq]
  refine ⟨(), ?_, true, accepts_sections given length lies, (), ?_, (), ?_, ?_⟩
  · apply accepts_header fits small format some_ _ (imports_ ▸ given.few) symbols
    rw [pieces]
    exact Nat.le_trans (mapped_length elf) (by decide)
  · rcases kind with ⟨program, x_, entry, there⟩ | ⟨-, d, entry, library⟩
    · obtain ⟨i, inside, code, text⟩ := text_lies given lies
      obtain ⟨exec, above, below⟩ := text program
      have point : (header (x.image chk)).entryPoint = elf.entry.toNat := by
        rw [Program.image, head]
        exact entry
      have set_ : (header (x.image chk)).entryPoint ≠ 0 := by
        rw [point]
        exact fun zero => there (UInt64.toNat_inj.mp zero)
      have mark : (header (x.image chk)).format = 0x58 := by
        rw [Program.image, head]
        exact x_
      rw [← point] at above below
      simp only [validateKind, if_pos mark, validateExecutable, require, ends_bind, ends_ensure, exists_const, if_pos set_,
        Bool.or_true, decide_eq_true set_, true_and]
      exact ⟨true, entry_found inside exec above below, rfl⟩
    · have mark : (header (x.image chk)).format ≠ 0x58 := by
        rw [Program.image, head]
        change x.format ≠ 0x58
        rw [d]
        decide
      have none_ : (header (x.image chk)).entryPoint = 0 := by
        rw [Program.image, head]
        exact entry
      have flags : (header (x.image chk)).flags = flagLibrary := by
        rw [Program.image, head]
        exact library
      rw [validateKind, if_neg mark]
      simp only [validateLibrary, require, ends_bind, ends_ensure, exists_const, decide_eq_true_eq]
      rw [flags]
      exact ⟨none_, by decide⟩
  · have number : (header (x.image chk)).importCount = x.imports.length := by
      rw [Program.image, head]
      rfl
    rw [number]
    exact accepts_imports fits small fun entry member => (given.names entry (imports_ ▸ member)).2
  · rw [checksum_image, ← chk_, Program.image, head]

end Acceptance

/-- The buffer after some stores. -/
def stored (buffer : Nat → UInt8) (writes : List (Nat × Bytes)) : Nat → UInt8 :=
  writes.foldl (fun b w => storeBytes b w.1 w.2) buffer

def covers (k : Nat) (w : Nat × Bytes) : Bool := decide (w.1 ≤ k ∧ k < w.1 + w.2.length)

section Stores
variable {buffer : Nat → UInt8} {writes : List (Nat × Bytes)} {k : Nat}

theorem storeBytes_nil (offset : Nat) : storeBytes buffer offset [] = buffer := by
  funext k
  rw [storeBytes, List.length_nil, if_neg (by omega)]

theorem stored_append (w : Nat × Bytes) : stored buffer (writes ++ [w]) = storeBytes (stored buffer writes) w.1 w.2 := by
  rw [stored, List.foldl_append]
  rfl

theorem stored_last : stored buffer writes k = ((writes.reverse.find? (covers k)).elim (buffer k) fun w => w.2.getD (k - w.1) 0) := by
  induction writes using List.reverseRecOn with
  | nil => rfl
  | append_singleton writes w ih =>
    rw [stored_append, List.reverse_append, List.reverse_singleton, List.singleton_append, List.find?_cons, storeBytes, covers]
    split
    · rename_i here
      rw [decide_eq_true here]
      rfl
    · rename_i elsewhere
      rw [decide_eq_false elsewhere]
      exact ih

end Stores

/-- The store the loop makes for a section; none where it makes none. -/
def copyOf (data : Bytes) (low i : Nat) : Nat × Bytes :=
  (sub64 (section_ data i).virtualAddress low,
    if (section_ data i).kind ≠ sectionBss then field data (section_ data i).fileOffset (section_ data i).fileSize else [])

section Loading
variable {env : Env} {data : Bytes} {low high span : Nat}

theorem copySection_run (loaded : Loaded) (i : Nat) : Ends (copySection data low span loaded i)
    { loaded with buffer := storeBytes loaded.buffer (copyOf data low i).1 (copyOf data low i).2 } := by
  unfold copySection copyOf
  by_cases kind : (section_ data i).kind = sectionBss
  · simp [kind, storeBytes_nil]
  · by_cases empty : (section_ data i).fileSize = 0
    · simp [empty, field, storeBytes_nil]
    · simp [kind, empty]

theorem copies_end (data : Bytes) (low span n : Nat) : ∃ loaded,
    Ends (fold (copySection data low span) ⟨fun _ => 0, []⟩ (List.range n)) loaded ∧
      loaded.buffer = stored (fun _ => 0) ((List.range n).map (copyOf data low)) := by
  apply fold_total (I := fun done (loaded : Loaded) => loaded.buffer = stored (fun _ => 0) (done.map (copyOf data low))) rfl
  intro done i _ loaded inv
  refine ⟨_, copySection_run loaded i, ?_⟩
  rw [List.map_append, List.map_singleton, stored_append, ← inv]

/-- The store for an import that resolves to target. -/
def patchOf (data : Bytes) (low : Nat) (target : Nat → Nat) (i : Nat) : Nat × Bytes :=
  (sub64 (import_ data i).patchAddress low, number (target i) 8)

theorem patches_end (copied : Loaded) (span : Nat) {n : Nat} {target : Nat → Nat}
    (found : ∀ i < n, resolveImport env i (import_ data i).name = some (target i))
    (inside : ∀ i < n, low ≤ (import_ data i).patchAddress ∧ wrap64 ((import_ data i).patchAddress + 8) ≤ high) :
    ∃ linked, Ends (fold (linkImport env data low high span) copied (List.range n)) linked ∧
      linked.buffer = stored copied.buffer ((List.range n).map (patchOf data low target)) := by
  apply fold_total (I := fun done (linked : Loaded) => linked.buffer = stored copied.buffer (done.map (patchOf data low target))) rfl
  intro done i member loaded inv
  have bound := List.mem_range.mp member
  have within : ¬ ((import_ data i).patchAddress < low ∨ wrap64 ((import_ data i).patchAddress + 8) > high) := by
    have patch := inside i bound
    omega
  refine ⟨⟨storeBytes loaded.buffer (patchOf data low target i).1 (patchOf data low target i).2,
    retain loaded.deps (env.provider i (cstr (import_ data i).name))⟩, ?_, ?_⟩
  · simp [linkImport, found i bound, within, patchOf]
  · rw [List.map_append, List.map_singleton, stored_append, ← inv]

theorem bounds_lie {elf : Elf} {ts : List (Mapping × ElfSection)} {ss : List Section}
    (lies : List.Forall₂ (Lies elf data) ts ss) (ends : ∀ t ∈ ts, t.2.addr.toNat + t.2.size.toNat < 2 ^ 64) (acc : Nat × Nat) :
    ss.foldl widen acc = ((ts.map fun t => t.2.addr.toNat).foldl min acc.1,
      (ts.map fun t => t.2.addr.toNat + t.2.size.toNat).foldl max acc.2) := by
  induction lies generalizing acc with
  | nil => rfl
  | @cons t s ts ss lie _ ih =>
    obtain ⟨here, rest⟩ := List.forall_mem_cons.mp ends
    have last : endOf s = t.2.addr.toNat + t.2.size.toNat := by
      rw [endOf, lie.addr, lie.memory]
      exact wrap64_of_lt here
    have step : widen acc s = (min acc.1 t.2.addr.toNat, max acc.2 (t.2.addr.toNat + t.2.size.toNat)) := by
      rw [widen, last, lie.addr, Prod.mk.injEq]
      constructor
      · split <;> omega
      · split <;> omega
    rw [List.foldl_cons, ih rest, step]
    rfl

theorem cstr_packString {width : Nat} {text : Bytes} (short : text.length < width) (full : 0 ∉ text) :
    cstr (packString width text) = text := by
  rw [cstr, packString, List.take_of_length_le (Nat.le_of_lt short), List.takeWhile_append_of_pos, List.takeWhile_replicate]
  · simp
  · intro b member
    simp only [bne_iff_ne]
    exact fun zero => full (zero ▸ member)

end Loading

/-- The eight bytes an import puts at its address. -/
def importByte (env : Env) (entry : Bytes × Nat) (v : Nat) : UInt8 :=
  (number ((qtxResolveExport env entry.1).getD 0) 8).getD (v - entry.2) 0

def patches (v : Nat) (entry : Bytes × Nat) : Bool := decide (entry.2 ≤ v ∧ v < entry.2 + 8)

def contains (v : Nat) (t : Mapping × ElfSection) : Bool :=
  decide (t.2.addr.toNat ≤ v ∧ v < t.2.addr.toNat + t.2.size.toNat)

/-- The byte the ELF file has for an address, zero outside of all contents. -/
def elfByte (elf : Elf) (v : Nat) : UInt8 :=
  ((mapped elf).find? (contains v)).elim 0 fun t => (elf.contents t.2).getD (v - t.2.addr.toNat) 0

/-- The same, where nothing is taken from .bss. -/
def sectionByte (elf : Elf) (v : Nat) : UInt8 :=
  ((mapped elf).find? (contains v)).elim 0 fun t =>
    if t.1.kind = sectionBss then 0 else (elf.contents t.2).getD (v - t.2.addr.toNat) 0

/-- The byte of the last import at an address, else that of the ELF file. -/
def imageByte (env : Env) (elf : Elf) (imports : List (Bytes × Nat)) (v : Nat) : UInt8 :=
  (imports.reverse.find? (patches v)).elim (sectionByte elf v) fun entry => importByte env entry v

/-- The tool writes an image that the kernel accepts and, when it has the memory,
loads with the right byte at every address. -/
def Agrees (env : Env) (elf : Elf) (shared : Bool) (name : Bytes) (imports : List (Bytes × Nat)) (stackSize : UInt32)
    (right : Nat → UInt8 → Prop) : Prop :=
  ∃ data, qasm elf shared name imports stackSize = some data ∧ Accepted data ∧
    ∀ base, env.kzalloc (highest elf - lowest elf) = some base → ∃ image, Ends (qtxLoadMemory env data) image ∧
      image.base = base ∧ image.size = highest elf - lowest elf ∧
      ∀ v, lowest elf ≤ v → v < highest elf → right v (image.buffer (v - lowest elf))

section Bytes
variable {elf : Elf} {shared : Bool} {imports : List (Bytes × Nat)} {env : Env} {v : Nat}

theorem Linkable.unique (given : Linkable elf shared imports) {t t' : Mapping × ElfSection} (member : t ∈ mapped elf)
    (member' : t' ∈ mapped elf) (here : contains v t = true) (here' : contains v t' = true) : t = t' := by
  by_contra different
  have : Std.Symm fun a b : Mapping × ElfSection =>
      a.2.addr.toNat + a.2.size.toNat ≤ b.2.addr.toNat ∨ b.2.addr.toNat + b.2.size.toNat ≤ a.2.addr.toNat :=
    ⟨fun _ _ => Or.symm⟩
  have apart := given.apart.forall member member' different
  simp only [contains, decide_eq_true_eq] at here here'
  omega

theorem stored_sections (given : Linkable elf shared imports) (above : lowest elf ≤ v) :
    stored (fun _ => 0) ((mapped elf).map fun t => (t.2.addr.toNat - lowest elf,
      if t.1.kind ≠ sectionBss then elf.contents t.2 else [])) (v - lowest elf) = sectionByte elf v := by
  rw [stored_last, ← List.map_reverse, List.find?_map, sectionByte]
  cases search : (mapped elf).reverse.find? (covers (v - lowest elf) ∘ fun t => (t.2.addr.toNat - lowest elf,
      if t.1.kind ≠ sectionBss then elf.contents t.2 else [])) with
  | some t =>
    have member := List.mem_reverse.mp (List.mem_of_find?_eq_some search)
    have hit := List.find?_some search
    have low := lowest_le member
    have short := contents_length elf t.2
    simp only [Function.comp, covers, decide_eq_true_eq] at hit
    have kind : t.1.kind ≠ sectionBss := by
      intro bss
      simp only [bss, ne_eq, not_true_eq_false, if_false, List.length_nil] at hit
      omega
    rw [if_pos kind] at hit
    have inside : contains v t = true := by
      simp only [contains, decide_eq_true_eq]
      omega
    obtain ⟨t', there⟩ := Option.isSome_iff_exists.mp (List.find?_isSome.mpr ⟨t, member, inside⟩)
    have same : t = t' := given.unique member (List.mem_of_find?_eq_some there) inside (List.find?_some there)
    have place : v - lowest elf - (t.2.addr.toNat - lowest elf) = v - t.2.addr.toNat := by omega
    simp only [there, ← same, Option.map_some, Option.elim_some, if_pos kind, if_neg kind, place]
  | none =>
    have missed := List.find?_eq_none.mp search
    cases there : (mapped elf).find? (contains v) with
    | none => rfl
    | some t =>
      have member := List.mem_of_find?_eq_some there
      have inside := List.find?_some there
      have low := lowest_le member
      have miss := missed t (List.mem_reverse.mpr member)
      simp only [contains, decide_eq_true_eq] at inside
      simp only [Option.map_none, Option.elim_none, Option.elim_some]
      split
      · rfl
      · rename_i kind
        simp only [Function.comp, covers, decide_eq_true_eq, if_pos kind] at miss
        rw [List.getD_eq_default]
        omega

theorem stored_patches (given : Linkable elf shared imports) (above : lowest elf ≤ v) (buffer : Nat → UInt8) :
    stored buffer (imports.map fun entry => (entry.2 - lowest elf, number ((qtxResolveExport env entry.1).getD 0) 8))
      (v - lowest elf) =
      (imports.reverse.find? (patches v)).elim (buffer (v - lowest elf)) fun entry => importByte env entry v := by
  have same : ∀ entry ∈ imports.reverse, (covers (v - lowest elf) ∘ fun entry : Bytes × Nat =>
      (entry.2 - lowest elf, number ((qtxResolveExport env entry.1).getD 0) 8)) entry = patches v entry := by
    intro entry member
    have low := (given.patches entry (List.mem_reverse.mp member)).1
    simp only [Function.comp, covers, patches, number, List.length_map, List.length_range, decide_eq_decide]
    omega
  rw [stored_last, ← List.map_reverse, List.find?_map, List.find?_congr same]
  cases search : imports.reverse.find? (patches v) with
  | none => rfl
  | some entry =>
    have low := (given.patches entry (List.mem_reverse.mp (List.mem_of_find?_eq_some search))).1
    have place : v - lowest elf - (entry.2 - lowest elf) = v - entry.2 := by omega
    simp only [Option.map_some, Option.elim_some, place, importByte]

end Bytes

section Images
variable {elf : Elf} {shared : Bool} {imports : List (Bytes × Nat)} {env : Env} {x : Program} {data : Bytes} {chk : Nat}

theorem copies_eq {low : Nat} {ts : List (Mapping × ElfSection)} {ss : List Section}
    (lies : List.Forall₂ (Lies elf data) ts ss) (above : ∀ t ∈ ts, low ≤ t.2.addr.toNat) :
    (ss.map fun s => (sub64 s.virtualAddress low,
        if s.kind ≠ sectionBss then field data s.fileOffset s.fileSize else [])) =
      ts.map fun t => (t.2.addr.toNat - low, if t.1.kind ≠ sectionBss then elf.contents t.2 else []) := by
  induction lies with
  | nil => rfl
  | @cons t s ts ss lie _ ih =>
    obtain ⟨here, rest⟩ := List.forall_mem_cons.mp above
    rw [List.map_cons, List.map_cons, ih rest, lie.addr, sub64_of_le here t.2.addr.toNat_lt]
    congr 2
    by_cases kind : s.kind = sectionBss
    · rw [if_neg (not_not.mpr kind), if_neg (not_not.mpr (lie.kind ▸ kind))]
    · rw [if_pos kind, if_pos (lie.kind ▸ kind), lie.stored kind]

theorem exports_full : ∀ e ∈ exports, 0 ∉ ascii e := by decide

theorem import_resolves (given : Linkable elf shared imports) {entry : Bytes × Nat} (member : entry ∈ imports) (i : Nat) :
    resolveImport env i (packString 24 (entry.1.take 24)) = some ((qtxResolveExport env entry.1).getD 0) := by
  obtain ⟨⟨e, exported, same⟩, short⟩ := given.names entry member
  have full : 0 ∉ entry.1 := same ▸ exports_full e exported
  have name : cstr (packString 24 (entry.1.take 24)) = entry.1 := by
    rw [List.take_of_length_le (Nat.le_of_lt short)]
    exact cstr_packString short full
  have plain : cstr entry.1 = entry.1 := by
    rw [cstr, List.takeWhile_eq_self_iff]
    intro b there
    simp only [bne_iff_ne]
    exact fun zero => full (zero ▸ there)
  have known : ((exports.find? fun e => ascii e == entry.1).map env.address).isSome := by
    rw [Option.isSome_map, List.find?_isSome]
    exact ⟨e, exported, beq_iff_eq.mpr same⟩
  obtain ⟨target, there⟩ := Option.isSome_iff_exists.mp known
  rw [resolveImport, qtxResolveExport, qtxResolveExport, name, plain, there]
  rfl

theorem links_end (env : Env) (given : Linkable elf shared imports) (fits : x.Fits) (small : chk < 256 ^ 4)
    (imports_ : x.imports = imports) (copied : Loaded) (span : Nat) : ∃ linked,
      Ends (fold (linkImport env (x.image chk) (lowest elf) (highest elf) span) copied (List.range imports.length)) linked ∧
      linked.buffer = stored copied.buffer (imports.map fun entry =>
        (entry.2 - lowest elf, number ((qtxResolveExport env entry.1).getD 0) 8)) := by
  have high := given.highest_lt
  have read {i : Nat} (inside : i < imports.length) :
      import_ (x.image chk) i = ⟨packString 24 (imports[i].1.take 24), imports[i].2⟩ := by
    apply import_image fits small
    rw [imports_]
    exact List.getElem?_eq_getElem inside
  have found : ∀ i < imports.length, resolveImport env i (import_ (x.image chk) i).name =
      some ((qtxResolveExport env (imports.getD i ([], 0)).1).getD 0) := by
    intro i inside
    rw [read inside, List.getD_eq_getElem _ _ inside]
    exact import_resolves given (List.getElem_mem inside) i
  have within : ∀ i < imports.length, lowest elf ≤ (import_ (x.image chk) i).patchAddress ∧
      wrap64 ((import_ (x.image chk) i).patchAddress + 8) ≤ highest elf := by
    intro i inside
    obtain ⟨above, below⟩ := given.patches _ (List.getElem_mem inside)
    rw [read inside, wrap64_of_lt (Nat.lt_of_le_of_lt below high)]
    exact ⟨above, below⟩
  obtain ⟨linked, links, buffer⟩ := patches_end copied span found within
  refine ⟨linked, links, ?_⟩
  rw [buffer]
  congr 1
  apply List.ext_getElem
  · simp
  · intro i left right
    have inside : i < imports.length := by simpa using right
    obtain ⟨above, below⟩ := given.patches _ (List.getElem_mem inside)
    simp only [List.getElem_map, List.getElem_range, patchOf, read inside, List.getD_eq_getElem _ _ inside]
    rw [sub64_of_le above (by omega)]

theorem load_image (given : Linkable elf shared imports) (fits : x.Fits) (small : chk < 256 ^ 4)
    (accepted : Accepted (x.image chk)) (lies : List.Forall₂ (Lies elf (x.image chk)) (mapped elf) (sections (x.image chk)))
    (imports_ : x.imports = imports) {base : Nat} (alloc : env.kzalloc (highest elf - lowest elf) = some base) :
    ∃ image, Ends (qtxLoadMemory env (x.image chk)) image ∧ image.base = base ∧ image.size = highest elf - lowest elf ∧
      ∀ v, lowest elf ≤ v → v < highest elf → image.buffer (v - lowest elf) = imageByte env elf imports v := by
  have extent : bounds (sections (x.image chk)) = (lowest elf, highest elf) := bounds_lie lies given.ends (2 ^ 64 - 1, 0)
  have some_ : lowest elf < highest elf := by
    obtain ⟨s, found, full, -⟩ := given.text
    have member : (⟨".text", 1, 0x05⟩, s) ∈ mapped elf := mem_mapped.mpr ⟨List.mem_cons_self, found, full⟩
    have low := lowest_le member
    have high := le_highest member
    have size : s.size.toNat ≠ 0 := fun zero => full (UInt64.toNat_inj.mp zero)
    change lowest elf ≤ s.addr.toNat at low
    change s.addr.toNat + s.size.toNat ≤ highest elf at high
    omega
  have count : (header (x.image chk)).importCount = imports.length := by
    rw [Program.image, header_imageOf fits.header small, ← imports_]
    rfl
  obtain ⟨copied, copies, sections_⟩ := copies_end (x.image chk) (lowest elf) (highest elf - lowest elf)
    (header (x.image chk)).sectionCount
  obtain ⟨linked, links, buffer⟩ := links_end env given fits small imports_ copied (highest elf - lowest elf)
  have written : copied.buffer = stored (fun _ => 0) ((mapped elf).map fun t => (t.2.addr.toNat - lowest elf,
      if t.1.kind ≠ sectionBss then elf.contents t.2 else [])) := by
    rw [sections_, ← copies_eq lies fun t member => lowest_le member, sections, List.map_map]
    rfl
  obtain ⟨⟨⟩, reads, -⟩ : ∃ u, Ends (fold (readSection (x.image chk)) () (List.range (header (x.image chk)).sectionCount)) u ∧
      True := by
    apply fold_total (I := fun _ _ => True) trivial
    exact fun _ i _ u _ => ⟨u, (ends_emit _ _).mpr trivial, trivial⟩
  rw [← count] at links
  have run : ∃ image, Ends (qtxLoadMemory env (x.image chk)) image ∧ image.base = base ∧
      image.size = highest elf - lowest elf ∧ image.buffer = linked.buffer := by
    simp only [qtxLoadMemory, ends_bind, extent, ends_ensure, exists_const, decide_eq_true_eq, alloc, loadInto, ends_emit,
      true_and, ends_pure]
    exact ⟨_, ⟨(), accepted, (), reads, some_, given.span, copied, copies, linked, links, rfl⟩, rfl, rfl, rfl⟩
  obtain ⟨image, ends, at_, size, holds⟩ := run
  refine ⟨image, ends, at_, size, fun v above _ => ?_⟩
  rw [holds, buffer, stored_patches given above, written, stored_sections given above, imageByte]

theorem build_agrees (given : Linkable elf shared imports) {name : Bytes} {flags fmt : Nat} (stackSize : UInt32)
    (kind : shared = false ∧ fmt = 0x58 ∧ elf.entry ≠ 0 ∧ flags = flagExecutable ∨
      shared = true ∧ fmt = 0x44 ∧ elf.entry = 0 ∧ flags = flagLibrary) :
    ∃ data, buildQtx elf name flags imports stackSize.toNat fmt = some data ∧ Accepted data ∧
      ∀ base, env.kzalloc (highest elf - lowest elf) = some base → ∃ image, Ends (qtxLoadMemory env data) image ∧
        image.base = base ∧ image.size = highest elf - lowest elf ∧
        ∀ v, lowest elf ≤ v → v < highest elf → image.buffer (v - lowest elf) = imageByte env elf imports v := by
  have bounds : fmt < 256 ∧ flags < 2 ^ 16 := by
    rcases kind with ⟨-, rfl, -, rfl⟩ | ⟨-, rfl, -, rfl⟩
    · decide
    · decide
  have some_ : (gather elf).1 ≠ [] := by
    obtain ⟨s, found, full, -⟩ := given.text
    have member : (⟨".text", 1, 0x05⟩, s) ∈ mapped elf := mem_mapped.mpr ⟨List.mem_cons_self, found, full⟩
    obtain ⟨p, there, -⟩ := forall₂_left (gather_holds elf).1 member
    exact List.ne_nil_of_mem there
  have fits : (programOf elf name flags imports stackSize.toNat fmt).Fits :=
    programOf_fits given bounds.1 bounds.2 stackSize.toNat_lt
  have small : computeChecksum ((programOf elf name flags imports stackSize.toNat fmt).image 0) < 2 ^ 32 := computeChecksum_lt
  have lies := sections_lie fits small
  have accepted : Accepted ((programOf elf name flags imports stackSize.toNat fmt).image
      (computeChecksum ((programOf elf name flags imports stackSize.toNat fmt).image 0))) := by
    apply accepted_image given fits rfl lies rfl (keptSymbols_length elf)
    rcases kind with ⟨program, x_, there, -⟩ | ⟨library, d, none_, set_⟩
    · exact .inl ⟨program, x_, rfl, there⟩
    · exact .inr ⟨library, d, congrArg UInt64.toNat none_, set_⟩
  refine ⟨_, (buildQtx_eq some_).trans (packed_ok fits), accepted, fun base alloc => ?_⟩
  exact load_image given fits small accepted lies rfl alloc

end Images

/-- The tool chain and the loader agree on every ELF file with an entry; .bss has
no contents, and of several imports at one place the last one counts. -/
theorem toolchain_agrees (env : Env) (elf : Elf) (shared : Bool) (name : Bytes) (imports : List (Bytes × Nat))
    (stackSize : UInt32) (given : Linkable elf shared imports) (entry : shared = false → elf.entry ≠ 0) :
    Agrees env elf shared name imports stackSize fun v b => b = imageByte env elf imports v := by
  cases shared with
  | false => exact build_agrees given stackSize (.inl ⟨rfl, rfl, entry rfl, rfl⟩)
  | true =>
    have given : Linkable { elf with entry := 0 } true imports :=
      { present := given.present
        ends := given.ends
        apart := given.apart
        span := given.span
        text := given.text.imp fun s text => ⟨text.1, text.2.1, nofun⟩
        few := given.few
        names := given.names
        patches := given.patches }
    exact build_agrees given stackSize (.inr ⟨rfl, rfl, rfl, rfl⟩)

section Files

/-- One section of code at the entry, and possibly more sections. -/
def smallElf (entry : UInt64) (more : List ElfSection) : Elf where
  data := List.replicate 16 0x90
  entry := entry
  sections := ⟨ascii ".text", 1, entry, 0, 16⟩ :: more
  symbols := []

def servicesEnv : Env := { kernelEnv with address := fun e => 0x8000 + 16 * exports.idxOf e }

theorem smallElf_linkable : Linkable (smallElf 0x400000 []) false [(ascii "kmalloc", 0x400008)] :=
  ⟨by decide, by decide, by decide, by decide,
    ⟨⟨ascii ".text", 1, 0x400000, 0, 16⟩, by decide, by decide, by decide⟩,
    by decide, by decide, by decide⟩

theorem smallElf_agrees : Linkable (smallElf 0x400000 []) false [(ascii "kmalloc", 0x400008)] ∧
    Agrees servicesEnv (smallElf 0x400000 []) false (ascii "small") [(ascii "kmalloc", 0x400008)] 0
      fun v b => b = imageByte servicesEnv (smallElf 0x400000 []) [(ascii "kmalloc", 0x400008)] v :=
  ⟨smallElf_linkable, toolchain_agrees _ _ _ _ _ _ smallElf_linkable fun _ => by decide⟩

/-- Every import at its address, and elsewhere the byte of the ELF file. -/
def EachByte (env : Env) (elf : Elf) (imports : List (Bytes × Nat)) (v : Nat) (b : UInt8) : Prop :=
  (∀ entry ∈ imports, patches v entry = true → b = importByte env entry v) ∧
    ((∀ entry ∈ imports, patches v entry = false) → b = elfByte elf v)

/-- The byte at an offset of a loaded image. -/
def loadedByte (env : Env) (data : Bytes) (k : Nat) : Option UInt8 :=
  match (qtxLoadMemory env data).result with
  | .ok image => some (image.buffer k)
  | .error _ => none

theorem Agrees.byte {env : Env} {elf : Elf} {shared : Bool} {name data : Bytes} {imports : List (Bytes × Nat)}
    {stackSize : UInt32} {right : Nat → UInt8 → Prop} {base v : Nat} {b : UInt8}
    (agrees : Agrees env elf shared name imports stackSize right) (written : qasm elf shared name imports stackSize = some data)
    (alloc : env.kzalloc (highest elf - lowest elf) = some base) (above : lowest elf ≤ v) (below : v < highest elf)
    (here : loadedByte env data (v - lowest elf) = some b) : right v b := by
  obtain ⟨data', same, -, loads⟩ := agrees
  cases Option.some.inj (written.symm.trans same)
  obtain ⟨image, ends, -, -, holds⟩ := loads base alloc
  rw [loadedByte, ends] at here
  cases Option.some.inj here
  exact holds v above below

/-- Its .bss has contents. -/
def filledBss : Elf := smallElf 0x400000 [⟨ascii ".bss", 1, 0x401000, 0, 16⟩]

/-- A program that starts at address zero is refused, of two imports at one place
only one is there, and a .bss with contents is loaded without them. -/
theorem three_disagreements :
    (Linkable (smallElf 0 []) false [] ∧
      ¬ Agrees servicesEnv (smallElf 0 []) false (ascii "small") [] 0 (EachByte servicesEnv (smallElf 0 []) [])) ∧
    (Linkable (smallElf 0x400000 []) false [(ascii "kmalloc", 0x400008), (ascii "kfree", 0x400008)] ∧
      ¬ Agrees servicesEnv (smallElf 0x400000 []) false (ascii "small")
        [(ascii "kmalloc", 0x400008), (ascii "kfree", 0x400008)] 0
        (EachByte servicesEnv (smallElf 0x400000 []) [(ascii "kmalloc", 0x400008), (ascii "kfree", 0x400008)])) ∧
    (Linkable filledBss false [] ∧
      ¬ Agrees servicesEnv filledBss false (ascii "small") [] 0
        (EachByte servicesEnv filledBss [])) := by
  refine ⟨⟨?_, ?_⟩, ⟨?_, ?_⟩, ⟨?_, ?_⟩⟩
  · exact ⟨by decide, by decide, by decide, by decide,
      ⟨⟨ascii ".text", 1, 0, 0, 16⟩, by decide, by decide, by decide⟩,
      by decide, by decide, by decide⟩
  · rintro ⟨data, written, accepted, -⟩
    have refused : ¬ Ends (qtxValidate ((qasm (smallElf 0 []) false (ascii "small") [] 0).getD [])) () := by decide +kernel
    rw [written] at refused
    exact refused accepted
  · exact ⟨by decide, by decide, by decide, by decide,
      ⟨⟨ascii ".text", 1, 0x400000, 0, 16⟩, by decide, by decide, by decide⟩,
      by decide, by decide, by decide⟩
  · rintro ⟨data, -, -, loads⟩
    obtain ⟨image, -, -, -, holds⟩ := loads 0x100000 rfl
    obtain ⟨each, -⟩ := holds 0x400008 (by decide) (by decide)
    have first := each (ascii "kmalloc", 0x400008) List.mem_cons_self (by decide)
    have second := each (ascii "kfree", 0x400008) (List.mem_cons_of_mem _ List.mem_cons_self) (by decide)
    exact absurd (first.symm.trans second) (by decide)
  · exact ⟨by decide, by decide, by decide, by decide,
      ⟨⟨ascii ".text", 1, 0x400000, 0, 16⟩, by decide, by decide, by decide⟩,
      by decide, by decide, by decide⟩
  · intro agrees
    obtain ⟨data, written, rest⟩ := agrees
    have zero : loadedByte servicesEnv ((qasm filledBss false (ascii "small") [] 0).getD []) 0x1000 = some 0 := by
      decide +kernel
    have offset : 0x401000 - lowest filledBss = 0x1000 := by decide
    rw [written, ← offset] at zero
    have right := Agrees.byte ⟨data, written, rest⟩ written rfl (by decide) (by decide) zero
    exact absurd (right.2 (by simp)) (by decide)

end Files

end Qito.Qtx
