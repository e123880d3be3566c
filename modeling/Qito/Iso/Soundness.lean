import Qito.Iso.Contents

/-! Extents apart, directories that list their children, files that are unchanged: what
the image says, and when it says it. -/
namespace Qito.Iso.IsoBuilder
open Buffers Extents

/-- Every extent of the image in bytes: where it starts, and its length. -/
def byteExtents (b : IsoBuilder) (p : Plan) : List (Nat × Nat) :=
  [(20 * sector, sector)] ++
  (b.allDirs.map fun d => (p.layout.extent d * sector, p.layout.length d)) ++
  (b.allDirs.map fun d => (p.layout.jolietExtent d * sector, p.layout.jolietLength d)) ++
  (p.tables.map fun t => (t.1 * sector, t.2.length)) ++
  (b.files.map fun f => (p.layout.extent f * sector, p.layout.length f))

structure Sound (b : IsoBuilder) (p : Plan) (image : Bytes) : Prop where
  apart : (b.byteExtents p).Pairwise fun e f => e.1 + e.2 ≤ f.1 ∨ f.1 + f.2 ≤ e.1
  inside : ∀ e ∈ b.byteExtents p, e.1 + e.2 ≤ image.length
  listed : ∀ d, b.IsDir d → ∀ joliet,
    readDirectory image (b.extentOf p.layout joliet d) (b.lengthOf p.layout joliet d) = b.entries p.layout joliet d
  kept : ∀ f ∈ b.files, p.layout.length f = (b.node f).data.length ∧ ∀ i < (b.node f).data.length,
    ¬ (b.bootNode = some f ∧ b.patchBootInfo = true ∧ 8 ≤ i ∧ i < 24) → image[p.layout.extent f * sector + i]? = (b.node f).data[i]?

/-- Laid so that none crosses a sector boundary, the records of a directory take no more
sectors than their lengths together. -/
def PadsFit (b : IsoBuilder) (joliet : Bool) (d : Nat) : Prop := Blocks.endOf sector 0 (b.recordLengths joliet d) ≤ b.dirLength joliet d

instance (b : IsoBuilder) (joliet : Bool) (d : Nat) : Decidable (b.PadsFit joliet d) := inferInstanceAs (Decidable (_ ≤ _))

/-- The bytes of its sectors that an item has. -/
def Item.bytes (p : Plan) : Item → Nat
  | .descriptor _ _ => sector
  | .dir joliet d => declaredLength p.layout joliet d
  | .table _ bytes => bytes.length
  | .file f => p.layout.length f

section Slots
variable {b : IsoBuilder} {p : Plan} {image : Bytes} {descriptors : List (Nat × Bytes)} {item : Item}

theorem whole_sectors (value : Nat) : alignUp value sector / sector * sector = alignUp value sector := Nat.div_mul_cancel (alignUp_dvd value)

theorem placed_spans (b : IsoBuilder) (p : Plan) : (b.placedItems p).map (fun item => (item.lba p, item.sectors b)) = b.spans p := by
  simp [placedItems, spans, Item.lba, Item.sectors, dirExtent, Function.comp_def]

theorem written_perm (b : IsoBuilder) (p : Plan) (descriptors : List (Nat × Bytes)) :
    (b.writtenItems p descriptors).Perm ((descriptors.map fun w => .descriptor w.1 w.2) ++ b.placedItems p) := by
  have pairs : (b.allDirs.flatMap fun d => [Item.dir false d, .dir true d]).Perm (b.allDirs.map (.dir false) ++ b.allDirs.map (.dir true)) := by
    induction b.allDirs with
    | nil => exact .nil
    | cons d dirs ih => exact (ih.cons (.dir true d)).cons (.dir false d) |>.trans ((List.perm_middle.symm).cons _)
  have placed : (b.files.map Item.file ++ (b.allDirs.flatMap fun d => [Item.dir false d, .dir true d]) ++
      p.tables.map fun t => Item.table t.1 t.2).Perm (b.placedItems p) := by
    rw [List.append_assoc]
    exact List.perm_append_comm.trans ((pairs.append_right _).append_right _)
  exact List.perm_append_comm.trans (placed.append_left _)

theorem slots_apart (planned : Planned b p) (described : Described descriptors) :
    (b.writtenItems p descriptors).Pairwise fun x y => (x.slot b p).Apart (y.slot b p) := by
  have symmetric : ∀ {x y : Item}, (x.slot b p).Apart (y.slot b p) → (y.slot b p).Apart (x.slot b p) := fun apart => apart.symm
  rw [List.Perm.pairwise_iff symmetric (written_perm b p descriptors)]
  have sectors : ∀ x y : Item, x.lba p + x.sectors b ≤ y.lba p → (x.slot b p).Apart (y.slot b p) := by
    intro x y before
    left
    change x.lba p * sector + x.sectors b * sector ≤ y.lba p * sector
    rw [← Nat.add_mul]
    exact Nat.mul_le_mul_right sector before
  obtain ⟨stop, chained, -⟩ := planned.chained
  have within := chained.within
  have apart := chained.apart
  rw [← placed_spans] at within apart
  rw [List.pairwise_append]
  refine ⟨?_, ?_, ?_⟩
  · rw [List.pairwise_map]
    exact described.ordered.imp fun before => sectors _ _ before
  · exact (List.pairwise_map.mp apart).imp fun before => sectors _ _ before
  · intro x member y member'
    obtain ⟨w, here, rfl⟩ := List.mem_map.mp member
    have low := described.low w here
    have high := (within _ (List.mem_map_of_mem member')).1
    apply sectors
    change w.1 + 1 ≤ y.lba p
    have : 21 ≤ y.lba p := high
    omega

theorem written_file {f : Nat} (member : f ∈ b.files) : Item.file f ∈ b.writtenItems p descriptors := by
  simp [writtenItems, member]

theorem written_dir {joliet : Bool} {d : Nat} (dir : b.IsDir d) : Item.dir joliet d ∈ b.writtenItems p descriptors := by
  have member := mem_allDirs.mpr dir
  cases joliet with
  | false => simp [writtenItems, member]
  | true => simp [writtenItems, member]

theorem isDir_of_written {joliet : Bool} {d : Nat} (member : Item.dir joliet d ∈ b.writtenItems p descriptors) : b.IsDir d := by
  rw [← mem_allDirs]
  simp only [writtenItems, List.mem_append, List.mem_map, List.mem_flatMap, List.mem_cons, List.not_mem_nil] at member
  grind

theorem inTable_slot {i : Nat} (here : b.InTable p i) : ∃ f ∈ b.files, b.bootNode = some f ∧ b.patchBootInfo = true ∧
    p.layout.extent f * sector + 8 ≤ i ∧ i < p.layout.extent f * sector + 24 ∧
    i < ((Item.file f).slot b p).start + ((Item.file f).slot b p).size := by
  obtain ⟨f, boot, patches, large, low, high⟩ := here
  refine ⟨f, bootNode_file boot, boot, patches, low, high, ?_⟩
  change i < p.layout.extent f * sector + alignUp (b.node f).data.length sector / sector * sector
  rw [whole_sectors]
  have := alignUp_ge (b.node f).data.length
  omega

theorem inTable_apart (planned : Planned b p) (described : Described descriptors) (member : item ∈ b.writtenItems p descriptors)
    (other : ∀ f, b.bootNode = some f → item ≠ .file f) {i : Nat} (inside : i < (item.slot b p).size) :
    ¬ b.InTable p ((item.slot b p).start + i) := by
  intro here
  obtain ⟨f, file, boot, -, low, -, high⟩ := inTable_slot here
  have symmetric : Std.Symm fun x y : Item => (x.slot b p).Apart (y.slot b p) := ⟨fun x y apart => apart.symm⟩
  have apart := (slots_apart planned described).forall member (written_file file) (other f boot)
  have start : ((Item.file f).slot b p).start = p.layout.extent f * sector := rfl
  unfold Slot.Apart at apart
  omega

theorem fits_other (described : Described descriptors) (member : item ∈ b.writtenItems p descriptors) (other : ∀ joliet d, item ≠ .dir joliet d) :
    (item.slot b p).Fits := by
  cases item with
  | descriptor lba bytes =>
    simp only [writtenItems, List.mem_append, List.mem_map, List.mem_flatMap, List.mem_cons, List.not_mem_nil] at member
    change bytes.length ≤ 1 * sector
    have here : (lba, bytes) ∈ descriptors := by simpa using member
    rw [described.lengths _ here, Nat.one_mul]
  | dir joliet d => exact absurd rfl (other joliet d)
  | table lba bytes =>
    change bytes.length ≤ alignUp bytes.length sector / sector * sector
    rw [whole_sectors]
    exact alignUp_ge _
  | file f =>
    change (b.node f).data.length ≤ alignUp (b.node f).data.length sector / sector * sector
    rw [whole_sectors]
    exact alignUp_ge _

theorem fits_dir (rendered : Rendered b p image descriptors) {joliet : Bool} {d : Nat} (dir : b.IsDir d) :
    ((Item.dir joliet d).slot b p).Fits ↔ b.PadsFit joliet d := by
  obtain ⟨records, -, is, lengths⟩ := dirBuffer_spec (rendered.buffers d dir joliet)
  have length := Blocks.layFrom_length sector (0 : UInt8) 0 records
  rw [← is, lengths, Nat.zero_add] at length
  change (b.bufferOf p joliet d).length ≤ b.dirLength joliet d / sector * sector ↔ _
  rw [length, PadsFit, dirLength, whole_sectors]

theorem placed_inside (planned : Planned b p) (member : item ∈ b.placedItems p) :
    (item.slot b p).start + (item.slot b p).size ≤ p.total * sector := by
  obtain ⟨stop, chained, total⟩ := planned.chained
  have within := (chained.within (item.lba p, item.sectors b) (by rw [← placed_spans]; exact List.mem_map_of_mem member)).2
  change item.lba p * sector + item.sectors b * sector ≤ p.total * sector
  rw [← Nat.add_mul]
  apply Nat.mul_le_mul_right
  have : item.lba p + item.sectors b ≤ stop := within
  omega

theorem placed_file {f : Nat} (member : f ∈ b.files) : Item.file f ∈ b.placedItems p := by
  simp [placedItems, member]

theorem placed_dir {joliet : Bool} {d : Nat} (dir : b.IsDir d) : Item.dir joliet d ∈ b.placedItems p := by
  have member := mem_allDirs.mpr dir
  cases joliet with
  | false => simp [placedItems, member]
  | true => simp [placedItems, member]

theorem padded_getD (ys : Bytes) (k i : Nat) : (ys ++ List.replicate k 0).getD i 0 = ys.getD i 0 := by
  by_cases inside : i < ys.length
  · rw [List.getD_append _ _ _ _ inside]
  · rw [List.getD_append_right _ _ _ _ (Nat.le_of_not_lt inside), List.getD_eq_default ys _ (Nat.le_of_not_lt inside)]
    by_cases short : i - ys.length < k
    · rw [List.getD_eq_getElem _ _ (by rw [List.length_replicate]; exact short), List.getElem_replicate]
    · rw [List.getD_eq_default _ _ (by rw [List.length_replicate]; omega)]

theorem slot_bytes (planned : Planned b p) (rendered : Rendered b p image descriptors)
    (fits : ∀ x ∈ b.writtenItems p descriptors, (x.slot b p).Fits) (member : item ∈ b.writtenItems p descriptors) {i : Nat}
    (inside : i < (item.slot b p).size) (outside : ¬ b.InTable p ((item.slot b p).start + i)) :
    image.getD ((item.slot b p).start + i) 0 = (item.payload b p).getD i 0 := by
  rw [rendered.filled _ outside]
  obtain ⟨before, after, split⟩ := List.append_of_mem member
  have apart := slots_apart planned rendered.described
  rw [split] at apart fits
  obtain ⟨-, later, crossed⟩ := List.pairwise_append.mp apart
  rw [split, List.map_append, List.map_cons]
  have fitsOf : ∀ items : List Item, (∀ x ∈ items, x ∈ before ++ item :: after) → ∀ t ∈ items.map (Item.slot b p), t.Fits := by
    rintro items among t here
    obtain ⟨x, at_, rfl⟩ := List.mem_map.mp here
    exact fits x (among x at_)
  have apartAfter : ∀ t ∈ after.map (Item.slot b p), (item.slot b p).Apart t := by
    rintro t here
    obtain ⟨x, at_, rfl⟩ := List.mem_map.mp here
    exact (List.pairwise_cons.mp later).1 x at_
  have apartBefore : ∀ t ∈ before.map (Item.slot b p), (item.slot b p).Apart t := by
    rintro t here
    obtain ⟨x, at_, rfl⟩ := List.mem_map.mp here
    exact (crossed x at_ item List.mem_cons_self).symm
  by_cases written : i < (item.payload b p).length
  · exact fill_slot (fitsOf after fun x here => List.mem_append_right _ (List.mem_cons_of_mem _ here)) apartAfter inside written
  · have behind := Nat.le_of_not_lt written
    rw [List.getD_eq_default (item.payload b p) _ behind, fill_behind (List.forall_mem_append.mpr
      ⟨fitsOf before fun x here => List.mem_append_left _ here, fitsOf after fun x here => List.mem_append_right _ (List.mem_cons_of_mem _ here)⟩)
      (List.forall_mem_append.mpr ⟨apartBefore, apartAfter⟩) inside behind]
    exact padded_getD [] _ _

theorem read_fit (planned : Planned b p) (rendered : Rendered b p image descriptors)
    (fits : ∀ x ∈ b.writtenItems p descriptors, (x.slot b p).Fits) {joliet : Bool} {d : Nat} (dir : b.IsDir d) :
    readDirectory image (dirExtent p.layout joliet d) (b.dirLength joliet d) = b.entries p.layout joliet d := by
  obtain ⟨records, recorded, is, -⟩ := dirBuffer_spec (rendered.buffers d dir joliet)
  have size : ((Item.dir joliet d).slot b p).size = b.dirLength joliet d := whole_sectors _
  have fit : (b.bufferOf p joliet d).length ≤ b.dirLength joliet d := size ▸ fits _ (written_dir dir)
  have room : ((Item.dir joliet d).slot b p).start + ((Item.dir joliet d).slot b p).size ≤ p.total * sector :=
    placed_inside planned (placed_dir dir)
  have region : readAt (dirExtent p.layout joliet d * sector) (b.dirLength joliet d) image =
      b.bufferOf p joliet d ++ List.replicate (b.dirLength joliet d - (b.bufferOf p joliet d).length) 0 := by
    apply @readAt_of_getD UInt8 0
    · rw [size] at room
      exact Nat.le_trans room rendered.long
    · rw [List.length_append, List.length_replicate]
      omega
    · intro i inside
      rw [padded_getD]
      exact slot_bytes planned rendered fits (written_dir dir) (size ▸ inside)
        (inTable_apart planned rendered.described (written_dir dir) (by simp) (size ▸ inside))
  rw [readDirectory, region, is]
  apply readRecords_lay recorded
  rw [← is, List.length_append, List.length_replicate]
  omega

theorem read_unfit (planned : Planned b p) (rendered : Rendered b p image descriptors) {joliet : Bool} {d : Nat} {before after : List Item}
    (split : b.writtenItems p descriptors = before ++ Item.dir joliet d :: after) (fits : ∀ x ∈ after, (x.slot b p).Fits)
    (unfit : ¬ ((Item.dir joliet d).slot b p).Fits) (dir : b.IsDir d) :
    readDirectory image (dirExtent p.layout joliet d) (b.dirLength joliet d) ≠ b.entries p.layout joliet d := by
  obtain ⟨records, recorded, is, lengths⟩ := dirBuffer_spec (rendered.buffers d dir joliet)
  have size : ((Item.dir joliet d).slot b p).size = b.dirLength joliet d := whole_sectors _
  have long : b.dirLength joliet d < (b.bufferOf p joliet d).length := size ▸ Nat.lt_of_not_le unfit
  have member : Item.dir joliet d ∈ b.writtenItems p descriptors := written_dir dir
  have room : ((Item.dir joliet d).slot b p).start + ((Item.dir joliet d).slot b p).size ≤ p.total * sector :=
    placed_inside planned (placed_dir dir)
  have apart := slots_apart planned rendered.described
  rw [split] at apart
  have apartAfter : ∀ t ∈ after.map (Item.slot b p), ((Item.dir joliet d).slot b p).Apart t := by
    rintro t here
    obtain ⟨x, at_, rfl⟩ := List.mem_map.mp here
    exact (List.pairwise_cons.mp (List.pairwise_append.mp apart).2.1).1 x at_
  have fitsAfter : ∀ t ∈ after.map (Item.slot b p), t.Fits := by
    rintro t here
    obtain ⟨x, at_, rfl⟩ := List.mem_map.mp here
    exact fits x at_
  have region : readAt (dirExtent p.layout joliet d * sector) (b.dirLength joliet d) image =
      (b.bufferOf p joliet d).take (b.dirLength joliet d) := by
    apply @readAt_of_getD UInt8 0
    · rw [size] at room
      exact Nat.le_trans room rendered.long
    · exact List.length_take_of_le (Nat.le_of_lt long)
    · intro i inside
      have inside' : i < ((Item.dir joliet d).slot b p).size := size ▸ inside
      have outside := inTable_apart planned rendered.described member (by simp) inside'
      have written : i < (b.bufferOf p joliet d).length := Nat.lt_trans inside long
      have here : image.getD (((Item.dir joliet d).slot b p).start + i) 0 = (b.bufferOf p joliet d).getD i 0 := by
        rw [rendered.filled _ outside, split, List.map_append, List.map_cons]
        exact fill_slot fitsAfter apartAfter inside' written
      refine here.trans ?_
      rw [List.getD_eq_getElem _ _ written, List.getD_eq_getElem _ _ (by rw [List.length_take]; omega), List.getElem_take]
  rw [is] at long
  have past : b.dirLength joliet d < Blocks.endOf sector 0 (records.map List.length) := by
    rw [← Blocks.layFrom_length sector (0 : UInt8) 0 records, Nat.zero_add]
    exact long
  obtain ⟨front, lost, back, rfl, cut, -⟩ :=
    @Blocks.layFrom_cut _ sector (0 : UInt8) 0 _ records (recorded_small recorded) (alignUp_dvd _) (Nat.zero_le _) past
  rw [Nat.sub_zero] at cut
  have read : readDirectory image (dirExtent p.layout joliet d) (b.dirLength joliet d) = (b.entries p.layout joliet d).take front.length := by
    rw [readDirectory, region, is, dirLength, cut]
    apply readRecords_lay (List.forall₂_take_append _ _ _ recorded)
    rw [← cut, List.length_take]
    exact Nat.min_le_left _ _
  intro whole
  have length := congrArg List.length (read.symm.trans whole)
  rw [List.length_take, recorded.length_eq, List.length_append, List.length_cons] at length
  omega

theorem byteExtents_items (b : IsoBuilder) (p : Plan) :
    b.byteExtents p = (20 * sector, sector) :: (b.placedItems p).map fun item => (item.lba p * sector, item.bytes p) := by
  simp [byteExtents, placedItems, Item.lba, Item.bytes, dirExtent, declaredLength, Function.comp_def]

theorem bytes_le (planned : Planned b p) (member : item ∈ b.placedItems p) : item.bytes p ≤ item.sectors b * sector := by
  have lengths : ∀ joliet d, b.IsDir d → declaredLength p.layout joliet d = b.dirLength joliet d := by
    intro joliet d dir
    cases joliet with
    | false => exact (planned.dirLengths d dir).1
    | true => exact (planned.dirLengths d dir).2
  cases item with
  | descriptor lba bytes => exact Nat.le_of_eq (Nat.one_mul sector).symm
  | dir joliet d =>
    have dir : b.IsDir d := by
      rw [← mem_allDirs]
      simp only [placedItems, List.mem_append, List.mem_map] at member
      grind
    change declaredLength p.layout joliet d ≤ b.dirLength joliet d / sector * sector
    rw [lengths joliet d dir, dirLength, whole_sectors]
  | table lba bytes =>
    change bytes.length ≤ alignUp bytes.length sector / sector * sector
    rw [whole_sectors]
    exact alignUp_ge _
  | file f =>
    have file : f ∈ b.files := by
      simp only [placedItems, List.mem_append, List.mem_map] at member
      grind
    change p.layout.length f ≤ alignUp (b.node f).data.length sector / sector * sector
    rw [planned.fileLengths f file, whole_sectors]
    exact alignUp_ge _

theorem extents_apart (planned : Planned b p) : (b.byteExtents p).Pairwise fun e f => e.1 + e.2 ≤ f.1 ∨ f.1 + f.2 ≤ e.1 := by
  obtain ⟨stop, chained, -⟩ := planned.chained
  have within := chained.within
  have apart := chained.apart
  rw [← placed_spans] at within apart
  rw [byteExtents_items, List.pairwise_cons]
  constructor
  · intro e member
    obtain ⟨item, here, rfl⟩ := List.mem_map.mp member
    left
    have low : 21 ≤ item.lba p := (within _ (List.mem_map_of_mem here)).1
    change 20 * sector + sector ≤ item.lba p * sector
    rw [← Nat.succ_mul]
    exact Nat.mul_le_mul_right sector low
  · rw [List.pairwise_map]
    refine (List.pairwise_map.mp apart).imp_of_mem ?_
    intro x y here _ before
    left
    calc x.lba p * sector + x.bytes p ≤ x.lba p * sector + x.sectors b * sector := Nat.add_le_add_left (bytes_le planned here) _
      _ = (x.lba p + x.sectors b) * sector := (Nat.add_mul _ _ _).symm
      _ ≤ y.lba p * sector := Nat.mul_le_mul_right sector before

theorem extents_inside (planned : Planned b p) (rendered : Rendered b p image descriptors) :
    ∀ e ∈ b.byteExtents p, e.1 + e.2 ≤ image.length := by
  rw [byteExtents_items]
  refine List.forall_mem_cons.mpr ⟨?_, fun e member => ?_⟩
  · obtain ⟨stop, -, total⟩ := planned.chained
    have room : 32 * sector ≤ p.total * sector := Nat.mul_le_mul_right sector (total ▸ Nat.le_max_right _ _)
    exact Nat.le_trans (Nat.le_trans (by decide) room) rendered.long
  · obtain ⟨item, here, rfl⟩ := List.mem_map.mp member
    have room := placed_inside planned here
    have less := bytes_le planned here
    change item.lba p * sector + item.sectors b * sector ≤ p.total * sector at room
    exact Nat.le_trans (Nat.le_trans (Nat.add_le_add_left less _) room) rendered.long

theorem file_kept (planned : Planned b p) (rendered : Rendered b p image descriptors)
    (fits : ∀ x ∈ b.writtenItems p descriptors, (x.slot b p).Fits) {f i : Nat} (file : f ∈ b.files) (inside : i < (b.node f).data.length)
    (outside : ¬ (b.bootNode = some f ∧ b.patchBootInfo = true ∧ 8 ≤ i ∧ i < 24)) :
    image[p.layout.extent f * sector + i]? = (b.node f).data[i]? := by
  have size : ((Item.file f).slot b p).size = alignUp (b.node f).data.length sector := whole_sectors _
  have here : i < ((Item.file f).slot b p).size := by
    rw [size]
    exact Nat.lt_of_lt_of_le inside (alignUp_ge _)
  have member : Item.file f ∈ b.writtenItems p descriptors := written_file file
  have apart : ¬ b.InTable p (((Item.file f).slot b p).start + i) := by
    by_cases boot : b.bootNode = some f
    · rintro ⟨g, boot', patches, -, low, high⟩
      cases boot.symm.trans boot'
      change p.layout.extent f * sector + 8 ≤ p.layout.extent f * sector + i at low
      change p.layout.extent f * sector + i < p.layout.extent f * sector + 24 at high
      exact outside ⟨boot, patches, by omega, by omega⟩
    · refine inTable_apart planned rendered.described member (fun g boot' same => ?_) here
      cases same
      exact boot boot'
  have bytes := slot_bytes planned rendered fits member here apart
  have room : ((Item.file f).slot b p).start + ((Item.file f).slot b p).size ≤ p.total * sector := placed_inside planned (placed_file file)
  have within : p.layout.extent f * sector + i < image.length :=
    Nat.lt_of_lt_of_le (Nat.add_lt_add_left here _) (Nat.le_trans room rendered.long)
  change image.getD (p.layout.extent f * sector + i) 0 = (b.node f).data.getD i 0 at bytes
  rw [List.getD_eq_getElem _ _ within, List.getD_eq_getElem _ _ inside] at bytes
  rw [List.getElem?_eq_getElem within, List.getElem?_eq_getElem inside, bytes]

theorem directory_extent (planned : Planned b p) (joliet : Bool) {d : Nat} (dir : b.IsDir d) :
    b.extentOf p.layout joliet d = dirExtent p.layout joliet d ∧ b.lengthOf p.layout joliet d = b.dirLength joliet d := by
  have isDir : (b.node d).isDir = true := dir
  obtain ⟨primary, supplementary⟩ := planned.dirLengths d dir
  cases joliet with
  | false => exact ⟨rfl, primary⟩
  | true =>
    rw [extentOf, lengthOf, isDir]
    exact ⟨rfl, supplementary⟩

theorem sound_of_fits (planned : Planned b p) (rendered : Rendered b p image descriptors)
    (fit : ∀ d, b.IsDir d → ∀ joliet, b.PadsFit joliet d) : Sound b p image := by
  have fits : ∀ x ∈ b.writtenItems p descriptors, (x.slot b p).Fits := by
    intro x member
    by_cases directory : ∃ joliet d, x = .dir joliet d
    · obtain ⟨joliet, d, rfl⟩ := directory
      have dir : b.IsDir d := isDir_of_written member
      exact (fits_dir rendered dir).mpr (fit d dir joliet)
    · refine fits_other rendered.described member fun joliet d same => directory ⟨joliet, d, same⟩
  refine ⟨extents_apart planned, extents_inside planned rendered, ?_, ?_⟩
  · intro d dir joliet
    obtain ⟨extent, length⟩ := directory_extent planned joliet dir
    rw [extent, length]
    exact read_fit planned rendered fits dir
  · intro f file
    exact ⟨planned.fileLengths f file, fun i inside outside => file_kept planned rendered fits file inside outside⟩

theorem fits_of_sound (planned : Planned b p) (rendered : Rendered b p image descriptors) (sound : Sound b p image) :
    ∀ d, b.IsDir d → ∀ joliet, b.PadsFit joliet d := by
  intro d dir joliet
  rw [← fits_dir rendered dir]
  rcases last_unfit ((b.writtenItems p descriptors).map (Item.slot b p)) with all | ⟨before, s, after, split, unfit, fits⟩
  · exact all _ (List.mem_map_of_mem (written_dir dir))
  · exfalso
    obtain ⟨front, rest, whole, rfl, parts⟩ := List.map_eq_append_iff.mp split
    obtain ⟨item, back, rfl, rfl, rfl⟩ := List.map_eq_cons_iff.mp parts
    have member : item ∈ b.writtenItems p descriptors := by
      rw [whole]
      exact List.mem_append_right _ List.mem_cons_self
    by_cases directory : ∃ joliet d, item = .dir joliet d
    · obtain ⟨joliet', d', rfl⟩ := directory
      have dir' : b.IsDir d' := isDir_of_written member
      have read := sound.listed d' dir' joliet'
      obtain ⟨extent, length⟩ := directory_extent planned joliet' dir'
      rw [extent, length] at read
      exact read_unfit planned rendered whole (fun x here => fits _ (List.mem_map_of_mem here)) unfit dir' read
    · exact unfit (fits_other rendered.described member fun joliet d same => directory ⟨joliet, d, same⟩)

end Slots

theorem build_spec {b : IsoBuilder} {p : Plan} {image : Bytes} (built : b.build = some (p, image)) :
    Planned b p ∧ ∃ descriptors, Rendered b p image descriptors := by
  simp only [build, Option.bind_eq_bind, Option.bind_eq_some_iff, Option.some.injEq, Prod.mk.injEq] at built
  obtain ⟨p', planned, image', rendered, rfl, rfl⟩ := built
  exact ⟨plan_spec planned, render_spec rendered⟩

/-- The image says what was added exactly if no directory, in either tree, loses more at the
ends of its sectors than rounding its length up gives back. -/
theorem image_sound_iff (b : IsoBuilder) (p : Plan) (image : Bytes) (built : b.build = some (p, image)) :
    Sound b p image ↔ ∀ d, b.IsDir d → ∀ joliet, b.PadsFit joliet d := by
  obtain ⟨planned, descriptors, rendered⟩ := build_spec built
  exact ⟨fits_of_sound planned rendered, sound_of_fits planned rendered⟩

def newBuilder : IsoBuilder := IsoBuilder.empty "QITOTEST".toList "QITO OS".toList ⟨2024, 1, 1, 0, 0, 0, by decide, by decide⟩

/-- A file in the root and one in a directory. -/
def guided : Option IsoBuilder := do
  let b ← newBuilder.addFile "readme.txt".toList [104, 105]
  b.addFile "docs/guide.txt".toList [103]

theorem image_sound_guided : ∃ b p image, guided = some b ∧ b.build = some (p, image) ∧ Sound b p image := by
  have made : guided.isSome = true := by decide
  have built : (guided.bind fun b => b.build).isSome = true := by decide
  have fit : (guided.map fun b => decide (∀ d ∈ b.allDirs, b.PadsFit false d ∧ b.PadsFit true d)) = some true := by decide
  obtain ⟨b, isB⟩ := Option.isSome_iff_exists.mp made
  rw [isB] at built fit
  obtain ⟨⟨p, image⟩, built⟩ := Option.isSome_iff_exists.mp built
  have fit := of_decide_eq_true (Option.some.inj fit)
  refine ⟨b, p, image, isB, built, (image_sound_iff b p image built).mpr fun d dir joliet => ?_⟩
  cases joliet with
  | false => exact (fit d (mem_allDirs.mpr dir)).1
  | true => exact (fit d (mem_allDirs.mpr dir)).2

/-- Fifteen files with names of 110 characters and one with a name of 91. -/
def crowded : Option IsoBuilder :=
  (((List.range 15).map fun i => List.replicate 109 'a' ++ [Char.ofNat (97 + i)]) ++ [List.replicate 90 'a' ++ ['p']]).foldlM
    (fun b name => b.addFile name []) newBuilder

set_option maxRecDepth 100000 in
/-- Their Joliet records take 4094 bytes, but three sectors: the last file is not listed. -/
theorem image_crowded : ∃ b p image, crowded = some b ∧ ((b.children 0).map fun c => (b.node c).name).Nodup ∧
    b.build = some (p, image) ∧ ¬ Sound b p image := by
  have made : crowded.isSome = true := by decide
  have names : (crowded.map fun b => decide (((b.children 0).map fun c => (b.node c).name).map List.getLast?).Nodup) = some true := by
    decide
  have built : (crowded.bind fun b => b.build).isSome = true := by decide
  have unfit : (crowded.map fun b => decide (b.PadsFit true 0)) = some false := by decide
  obtain ⟨b, isB⟩ := Option.isSome_iff_exists.mp made
  rw [isB] at names built unfit
  obtain ⟨⟨p, image⟩, built⟩ := Option.isSome_iff_exists.mp built
  obtain ⟨planned, descriptors, rendered⟩ := build_spec built
  refine ⟨b, p, image, isB, List.Nodup.of_map _ (of_decide_eq_true (Option.some.inj names)), built, fun sound => ?_⟩
  exact of_decide_eq_false (Option.some.inj unfit) (fits_of_sound planned rendered sound 0 b.isDir_root true)

end Qito.Iso.IsoBuilder
