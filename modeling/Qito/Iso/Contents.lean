import Qito.Iso.Layout

/-! What render writes: every part with its sectors, and the boot-info table over them. -/
namespace Qito.Iso.IsoBuilder
open Buffers Extents

section Sectors
variable {b : IsoBuilder} {p : Plan} {parts : List (Nat × Bytes)} {bytes : Bytes} {size lba lba' : Nat} {joliet : Bool}

theorem sectorOf_length (inside : ∀ part ∈ parts, part.1 + part.2.length ≤ sector) : (sectorOf parts).length = sector := by
  unfold sectorOf
  have start : (List.replicate sector (0 : UInt8)).length = sector := List.length_replicate
  generalize List.replicate sector (0 : UInt8) = d at start
  induction parts generalizing d with
  | nil => exact start
  | cons part parts ih =>
    obtain ⟨here, inside⟩ := List.forall_mem_cons.mp inside
    apply ih inside
    rw [writeAt_length, start]
    exact Nat.max_eq_left here

theorem ljust_length (text : Bytes) (length : Nat) (fill : UInt8) (short : text.length ≤ length) : (ljust text length fill).length = length := by
  rw [ljust, List.length_append, List.length_replicate]
  omega

@[simp] theorem padStr_length (text : Text) (length : Nat) : (padStr text length).length = length :=
  ljust_length _ _ _ (List.length_take_le _ _)

@[simp] theorem padUcs2_length (text : Text) (length : Nat) : (padUcs2 text length).length = length :=
  ljust_length _ _ _ (List.length_take_le _ _)

theorem bothEndian_length {width value : Nat} (packed : bothEndian width value = some bytes) : bytes.length = 2 * width := by
  obtain ⟨little, big, rfl, length, length', -⟩ := bothEndian_spec packed
  rw [List.length_append, length, length', Nat.two_mul]

theorem volumeParts_inside (made : b.volumeParts p joliet size lba lba' = some parts) : ∀ part ∈ parts, part.1 + part.2.length ≤ sector := by
  simp only [volumeParts, Option.bind_eq_bind, Option.bind_eq_some_iff, Option.some.injEq] at made
  obtain ⟨total, isTotal, one, isOne, block, isBlock, tableSize, isSize, little, isLittle, none_, isNone, big, isBig, root, isRoot, rfl⟩ := made
  have rootLength : root.length = 34 := (dirRecord_recorded isRoot).length.trans (by simp [recordLength])
  have date : (isoDatetime b.timestamp).length = 17 := rfl
  simp [bothEndian_length isTotal, bothEndian_length isOne, bothEndian_length isBlock, bothEndian_length isSize, (pack_spec isLittle).2.1,
    (pack_spec isNone).2.1, (pack_spec isBig).2.1, rootLength, date, cd001, noDate, sector]

theorem pvd_length (made : b.pvd p size lba lba' = some bytes) : bytes.length = sector := by
  simp only [pvd, Option.bind_eq_bind, Option.bind_eq_some_iff, Option.some.injEq] at made
  obtain ⟨parts, isParts, rfl⟩ := made
  apply sectorOf_length
  refine List.forall_mem_append.mpr ⟨?_, volumeParts_inside isParts⟩
  simp [sector]

theorem svd_length (made : b.svd p size lba lba' = some bytes) : bytes.length = sector := by
  simp only [svd, Option.bind_eq_bind, Option.bind_eq_some_iff, Option.some.injEq] at made
  obtain ⟨parts, isParts, rfl⟩ := made
  apply sectorOf_length
  refine List.forall_mem_append.mpr ⟨?_, volumeParts_inside isParts⟩
  simp [ljust_length, sector]

theorem bootRecord_length (made : bootRecord lba = some bytes) : bytes.length = sector := by
  simp only [bootRecord, Option.bind_eq_bind, Option.bind_eq_some_iff, Option.some.injEq] at made
  obtain ⟨packed, isPacked, rfl⟩ := made
  apply sectorOf_length
  simp [ljust_length, encodeAscii, cd001, (pack_spec isPacked).2.1, sector]

theorem terminator_length : terminator.length = sector := by
  apply sectorOf_length
  simp [cd001, sector]

theorem bootCatalog_length (made : b.bootCatalog lba = some bytes) : bytes.length = sector := by
  simp only [bootCatalog, Option.bind_eq_bind, Option.bind_eq_some_iff, Option.some.injEq] at made
  obtain ⟨segment, isSegment, load, isLoad, boot, isBoot, rfl⟩ := made
  apply sectorOf_length
  have entry : validation.length = 32 := by
    rw [validation, writeAt_length]
    simp
  simp [entry, (pack_spec isSegment).2.1, (pack_spec isLoad).2.1, (pack_spec isBoot).2.1, sector]

end Sectors

/-- What stands in the image. -/
inductive Item where
  | descriptor (lba : Nat) (bytes : Bytes)
  | dir (joliet : Bool) (d : Nat)
  | table (lba : Nat) (bytes : Bytes)
  | file (f : Nat)

section Items
variable (b : IsoBuilder) (p : Plan)

def bufferOf (joliet : Bool) (d : Nat) : Bytes := (b.dirBuffer p.layout joliet d).getD []

def Item.lba : Item → Nat
  | .descriptor lba _ => lba
  | .dir joliet d => dirExtent p.layout joliet d
  | .table lba _ => lba
  | .file f => p.layout.extent f

def Item.sectors : Item → Nat
  | .descriptor _ _ => 1
  | .dir joliet d => b.dirLength joliet d / sector
  | .table _ bytes => alignUp bytes.length sector / sector
  | .file f => alignUp (b.node f).data.length sector / sector

def Item.payload : Item → Bytes
  | .descriptor _ bytes => bytes
  | .dir joliet d => b.bufferOf p joliet d
  | .table _ bytes => bytes
  | .file f => (b.node f).data

def Item.slot (item : Item) : Slot UInt8 := ⟨item.lba p * sector, item.sectors b * sector, item.payload b p⟩

/-- The items from sector 21 on, as they follow one another. -/
def placedItems : List Item :=
  b.allDirs.map (.dir false) ++ b.allDirs.map (.dir true) ++ p.tables.map (fun t => .table t.1 t.2) ++ b.files.map .file

/-- The items as they are written. -/
def writtenItems (descriptors : List (Nat × Bytes)) : List Item :=
  b.files.map .file ++ b.allDirs.flatMap (fun d => [.dir false d, .dir true d]) ++ p.tables.map (fun t => .table t.1 t.2) ++
    descriptors.map fun w => .descriptor w.1 w.2

/-- The places of the boot-info table. -/
def InTable (i : Nat) : Prop :=
  ∃ f, b.bootNode = some f ∧ b.patchBootInfo = true ∧ 64 ≤ (b.node f).data.length ∧
    p.layout.extent f * sector + 8 ≤ i ∧ i < p.layout.extent f * sector + 24

/-- The descriptors are in sectors 16 to 20, one each. -/
structure Described (descriptors : List (Nat × Bytes)) : Prop where
  ordered : descriptors.Pairwise fun v w => v.1 + 1 ≤ w.1
  low : ∀ w ∈ descriptors, w.1 ≤ 20
  lengths : ∀ w ∈ descriptors, w.2.length = sector

variable {b p} {descriptors : List (Nat × Bytes)}

theorem descriptorWrites_spec (made : b.descriptorWrites p = some descriptors) : Described descriptors := by
  simp only [descriptorWrites, Option.bind_eq_bind, Option.bind_eq_some_iff, Option.some.injEq] at made
  obtain ⟨pvd, isPvd, record, isRecord, svd, isSvd, catalog, isCatalog, rfl⟩ := made
  have front : Described [(16, pvd), (17, record), (18, svd), (19, terminator)] := by
    refine ⟨by simp, by simp, ?_⟩
    simp [pvd_length isPvd, bootRecord_length isRecord, svd_length isSvd, terminator_length]
  unfold catalogWrites at isCatalog
  split at isCatalog
  · cases isCatalog
    exact front
  · simp only [Option.bind_eq_bind, Option.bind_eq_some_iff, Option.some.injEq] at isCatalog
    obtain ⟨bytes, isBytes, rfl⟩ := isCatalog
    refine ⟨by simp, by simp, ?_⟩
    rw [List.forall_mem_append, List.forall_mem_singleton]
    exact ⟨front.lengths, bootCatalog_length isBytes⟩

theorem fill_puts (image : Bytes) (items : List Item) :
    (items.map fun item => (item.lba p, item.payload b p)).foldl put image = fill 0 image (items.map (Item.slot b p)) := by
  rw [List.foldl_map, fill, List.foldl_map]
  rfl

theorem writes_spec {writes : List (Nat × Bytes)} (made : b.writes p = some writes) : ∃ descriptors, Described descriptors ∧
    writes = (b.writtenItems p descriptors).map (fun item => (item.lba p, item.payload b p)) ∧
    ∀ d, b.IsDir d → ∀ joliet, b.dirBuffer p.layout joliet d = some (b.bufferOf p joliet d) := by
  simp only [IsoBuilder.writes, Option.bind_eq_bind, Option.bind_eq_some_iff, Option.some.injEq] at made
  obtain ⟨dirs, isDirs, descriptors, isDescriptors, rfl⟩ := made
  have each := mapM_some_iff.mp isDirs
  have pair : ∀ d w, b.dirWrites p.layout d = some w → b.dirBuffer p.layout false d = some (b.bufferOf p false d) ∧
      b.dirBuffer p.layout true d = some (b.bufferOf p true d) ∧
      w = [(p.layout.extent d, b.bufferOf p false d), (p.layout.jolietExtent d, b.bufferOf p true d)] := by
    intro d w made
    simp only [dirWrites, Option.bind_eq_bind, Option.bind_eq_some_iff, Option.some.injEq] at made
    obtain ⟨iso, isIso, joliet, isJoliet, rfl⟩ := made
    rw [bufferOf, bufferOf, isIso, isJoliet]
    exact ⟨rfl, rfl, rfl⟩
  refine ⟨descriptors, descriptorWrites_spec isDescriptors, ?_, ?_⟩
  · have same : dirs.flatten = (b.allDirs.flatMap fun d => [Item.dir false d, .dir true d]).map fun item => (item.lba p, item.payload b p) := by
      clear isDirs
      generalize b.allDirs = nodes at each
      induction each with
      | nil => rfl
      | cons here _ ih =>
        rw [List.flatten_cons, ih, (pair _ _ here).2.2]
        rfl
    rw [same, writtenItems]
    simp [fileWrites, Item.lba, Item.payload, Function.comp_def]
  · intro d dir joliet
    obtain ⟨w, here⟩ := mapM_mem isDirs (mem_allDirs.mpr dir)
    cases joliet with
    | false => exact (pair d w here).1
    | true => exact (pair d w here).2.1

theorem bootNode_file {f : Nat} (boot : b.bootNode = some f) : f ∈ b.files :=
  List.mem_of_mem_filter (List.mem_of_getLast? boot)

theorem patch_spec {f : Nat} {image image' : Bytes} (boot : b.bootNode = some f) (patches : b.patchBootInfo = true)
    (patched : b.patchBootInfoTable p.layout f image = some image') : image.length ≤ image'.length ∧
      ∀ i, ¬ b.InTable p i → image'.getD i 0 = image.getD i 0 := by
  unfold patchBootInfoTable at patched
  dsimp only at patched
  split at patched
  · cases patched
    exact ⟨Nat.le_refl _, fun i _ => rfl⟩
  · rename_i large
    simp only [Option.bind_eq_bind, Option.bind_eq_some_iff, Option.some.injEq] at patched
    obtain ⟨lba, isLba, own, isOwn, length, isLength, checksum, isChecksum, rfl⟩ := patched
    refine ⟨?_, fun i outside => ?_⟩
    · rw [writeAt_length]
      exact Nat.le_max_left _ _
    · rw [writeAt_getD, if_neg]
      intro inside
      apply outside
      simp only [List.length_append, (pack_spec isLba).2.1, (pack_spec isOwn).2.1, (pack_spec isLength).2.1, (pack_spec isChecksum).2.1] at inside
      exact ⟨f, boot, patches, by omega, inside.1, by omega⟩

/-- What render leaves: the items in their slots, and the boot-info table. -/
structure Rendered (b : IsoBuilder) (p : Plan) (image : Bytes) (descriptors : List (Nat × Bytes)) : Prop where
  described : Described descriptors
  long : p.total * sector ≤ image.length
  filled : ∀ i, ¬ b.InTable p i → image.getD i 0 =
    (fill 0 (List.replicate (p.total * sector) 0) ((b.writtenItems p descriptors).map (Item.slot b p))).getD i 0
  buffers : ∀ d, b.IsDir d → ∀ joliet, b.dirBuffer p.layout joliet d = some (b.bufferOf p joliet d)

theorem render_spec {image : Bytes} (rendered : b.render p = some image) : ∃ descriptors, Rendered b p image descriptors := by
  simp only [render, Option.bind_eq_bind, Option.bind_eq_some_iff] at rendered
  obtain ⟨writes, made, rendered⟩ := rendered
  obtain ⟨descriptors, described, rfl, buffers⟩ := writes_spec made
  rw [fill_puts] at rendered
  have long := fill_length 0 (List.replicate (p.total * sector) 0) ((b.writtenItems p descriptors).map (Item.slot b p))
  rw [List.length_replicate] at long
  refine ⟨descriptors, described, ?_, ?_, buffers⟩
  · split at rendered
    · rename_i boot
      split at rendered
      · rename_i patches
        exact Nat.le_trans long (patch_spec boot patches rendered).1
      · cases rendered
        exact long
    · cases rendered
      exact long
  · intro i outside
    split at rendered
    · rename_i boot
      split at rendered
      · rename_i patches
        exact (patch_spec boot patches rendered).2 i outside
      · cases rendered
        rfl
    · cases rendered
      rfl

theorem recorded_lengths {entries : List Entry} {records : List Bytes} (recorded : List.Forall₂ Recorded entries records) :
    records.map List.length = entries.map fun e => recordLength e.identifier.length := by
  induction recorded with
  | nil => rfl
  | cons here _ ih => rw [List.map_cons, List.map_cons, ih, here.length]

theorem recorded_small {entries : List Entry} {records : List Bytes} (recorded : List.Forall₂ Recorded entries records) :
    ∀ record ∈ records, record.length ≤ sector := by
  induction recorded with
  | nil => simp
  | cons here _ ih => exact List.forall_mem_cons.mpr ⟨Nat.le_trans here.short (by decide), ih⟩

theorem dirBuffer_spec {a : Layout} {joliet : Bool} {d : Nat} {buf : Bytes} (made : b.dirBuffer a joliet d = some buf) :
    ∃ records, List.Forall₂ Recorded (b.entries a joliet d) records ∧ buf = Blocks.layFrom sector 0 0 records ∧
      records.map List.length = b.recordLengths joliet d := by
  simp only [dirBuffer, Option.bind_eq_bind, Option.bind_eq_some_iff, Option.some.injEq] at made
  obtain ⟨self, isSelf, up, isUp, records, isRecords, rfl⟩ := made
  have first := dirRecord_recorded isSelf
  have second := dirRecord_recorded isUp
  have others : List.Forall₂ Recorded ((b.sortedChildren d).map (b.entryOf a joliet none)) records :=
    (mapM_some_iff.mp isRecords).imp fun _ _ => dirRecord_recorded
  have one : recordLength 1 = 34 := rfl
  have length : self.length = 34 := first.length.trans one
  have length' : up.length = 34 := second.length.trans one
  refine ⟨self :: up :: records, .cons first (.cons second others), ?_, ?_⟩
  · have start : Blocks.startOf sector 0 34 = 0 := rfl
    have next : Blocks.startOf sector 34 34 = 34 := rfl
    rw [foldl_appendRecord, Blocks.layFrom, Blocks.layFrom, length, start, Nat.zero_add, length', next, List.length_append, length, length']
    simp
  · rw [List.map_cons, List.map_cons, length, length', recordLengths]
    congr 2
    rw [recorded_lengths others, List.map_map]
    rfl

end Items
end Qito.Iso.IsoBuilder
