import Qito.Ramdisk.Bounds
import Qito.Vfs.Frame

/-! mkqitofs.build of tools/mkqitofs.py, and what the loader reads in an image it
built: the table of the entries and their bytes. -/
namespace Qito.Ramdisk
open Buffers Faults Packed Words

/-- An entry of mkqitofs.collect. The path is in UTF-8, and only files carry the
time of their last change. -/
structure Item where
  path : Bytes
  type : Nat
  perms : Nat
  data : Bytes
  modified : Option Int

inductive BuildError where
  | pathTooLong (path : Bytes)
  | structError

/-- One unsigned integer of struct.pack, which refuses a value out of range. -/
def packWord (width : Nat) (value : Int) : Except BuildError Bytes :=
  if 0 ≤ value ∧ value < 256 ^ width then .ok (pack width value.toNat) else .error .structError

/-- A byte string of struct.pack. -/
def packString (width : Nat) (text : Bytes) : Bytes := text.take width ++ List.replicate (width - text.length) 0

structure Packing where
  table : List Bytes
  blob : Bytes
  checksum : Nat

/-- One round of build; clock is the time at each round. -/
def packItem (clock : Nat → Int) (packing : Packing) (item : Item) : Except BuildError Packing := do
  let offset := packing.blob.length
  if item.path.length ≥ 192 then .error (.pathTooLong item.path)
  else
    let record := packString 192 item.path ++ (← packWord 4 item.type) ++ (← packWord 4 item.perms) ++
      (← packWord 8 item.data.length) ++ (← packWord 8 offset) ++
      (← packWord 8 (item.modified.getD (clock packing.table.length))) ++ pack 4 0 ++ pack 4 0
    let blob := packing.blob ++ item.data
    return {
      table := packing.table ++ [record]
      blob := blob ++ List.replicate ((16 - blob.length % 16) % 16) 0
      checksum := (packing.checksum + (item.data.map UInt8.toNat).sum) % 2 ^ 32 }

def build (clock : Nat → Int) (items : List Item) (label : Bytes) : Except BuildError Bytes := do
  let dataOffset := roundUp (headerSize + entrySize * items.length) 16
  let packing ← items.foldlM (packItem clock) ⟨[], [], 0⟩
  let total := dataOffset + packing.blob.length
  let header := packString 8 qitofsMagic ++ (← packWord 4 qitofsVersion) ++ (← packWord 4 items.length) ++
    (← packWord 8 total) ++ (← packWord 8 dataOffset) ++ pack 4 0 ++ (← packWord 4 packing.checksum) ++
    packString 32 (label.take 32)
  let image := header ++ packing.table.flatten
  return image ++ List.replicate (dataOffset - image.length) 0 ++ packing.blob

theorem packWord_ok {width : Nat} {value : Int} {bytes : Bytes} (run : packWord width value = .ok bytes) :
    0 ≤ value ∧ value < 256 ^ width ∧ bytes = pack width value.toNat := by
  unfold packWord at run
  split at run
  · rename_i fits
    exact ⟨fits.1, fits.2, (Except.ok.inj run).symm⟩
  · cases run

theorem packWord_nat {width value : Nat} {bytes : Bytes} (run : packWord width value = .ok bytes) :
    value < 256 ^ width ∧ bytes = pack width value := by
  obtain ⟨-, fits, rfl⟩ := packWord_ok run
  rw [Int.toNat_natCast]
  exact ⟨by exact_mod_cast fits, rfl⟩

theorem packString_length {width : Nat} {text : Bytes} (fits : text.length ≤ width) : (packString width text).length = width := by
  rw [packString, List.length_append, List.length_take, List.length_replicate]
  omega

/-- The record of an entry in the table. -/
def record (item : Item) (offset modified : Nat) : Bytes :=
  packString 192 item.path ++ pack 4 item.type ++ pack 4 item.perms ++ pack 8 item.data.length ++ pack 8 offset ++
    pack 8 modified ++ pack 4 0 ++ pack 4 0

/-- An item that build packs: its record, and its bytes in the blob. -/
structure PackedAt (item : Item) (offset modified : Nat) (blob : Bytes) : Prop where
  path : item.path.length < 192
  type : item.type < 2 ^ 32
  perms : item.perms < 2 ^ 32
  modified : modified < 2 ^ 64
  placed : offset < 2 ^ 64
  inside : offset + item.data.length ≤ blob.length
  data : readAt offset item.data.length blob = item.data

/-- The table and the blob after these items. -/
structure Packs (items : List Item) (packing : Packing) : Prop where
  count : packing.table.length = items.length
  even : ∀ r ∈ packing.table, r.length = entrySize
  packed : ∀ (i : Nat) (item : Item), items[i]? = some item → ∃ offset modified,
    PackedAt item offset modified packing.blob ∧ packing.table[i]? = some (record item offset modified)
  checksum : packing.checksum = (items.map fun item => (item.data.map UInt8.toNat).sum).sum % 2 ^ 32

theorem record_length {item : Item} {offset modified : Nat} (short : item.path.length < 192) :
    (record item offset modified).length = entrySize := by
  simp [record, packString_length (Nat.le_of_lt short)]

theorem PackedAt.append {item : Item} {offset modified : Nat} {blob : Bytes} (packed : PackedAt item offset modified blob)
    (more : Bytes) : PackedAt item offset modified (blob ++ more) where
  path := packed.path
  type := packed.type
  perms := packed.perms
  modified := packed.modified
  placed := packed.placed
  inside := by
    rw [List.length_append]
    exact Nat.le_add_right_of_le packed.inside
  data := by
    rw [readAt_within packed.inside]
    exact packed.data

theorem packItem_packs {clock : Nat → Int} {before : List Item} {item : Item} {packing packing' : Packing}
    (packs : Packs before packing) (run : packItem clock packing item = .ok packing') : Packs (before ++ [item]) packing' := by
  unfold packItem at run
  split at run
  · cases run
  rename_i short
  have short : item.path.length < 192 := Nat.lt_of_not_le short
  obtain ⟨type, typeRun, run⟩ := bind_ok.mp run
  obtain ⟨perms, permsRun, run⟩ := bind_ok.mp run
  obtain ⟨size, sizeRun, run⟩ := bind_ok.mp run
  obtain ⟨offset, offsetRun, run⟩ := bind_ok.mp run
  obtain ⟨modified, modifiedRun, run⟩ := bind_ok.mp run
  obtain ⟨typeFits, rfl⟩ := packWord_nat typeRun
  obtain ⟨permsFits, rfl⟩ := packWord_nat permsRun
  obtain ⟨-, rfl⟩ := packWord_nat sizeRun
  obtain ⟨offsetFits, rfl⟩ := packWord_nat offsetRun
  obtain ⟨known, modifiedFits, rfl⟩ := packWord_ok modifiedRun
  cases Except.ok.inj run
  have here : PackedAt item packing.blob.length (item.modified.getD (clock packing.table.length)).toNat
      (packing.blob ++ item.data) := by
    refine ⟨short, by omega, by omega, by omega, by omega, by rw [List.length_append], ?_⟩
    rw [readAt_skip (Nat.le_refl _), Nat.sub_self, readAt_all rfl]
  constructor
  · simp [packs.count]
  · intro r member
    rcases List.mem_append.mp member with old | new
    · exact packs.even r old
    · rw [List.mem_singleton.mp new]
      exact record_length short
  · intro i other there
    by_cases old : i < before.length
    · rw [List.getElem?_append_left old] at there
      obtain ⟨offset, modified, packed, row⟩ := packs.packed i other there
      refine ⟨offset, modified, (packed.append _).append _, ?_⟩
      rw [List.getElem?_append_left (by rw [packs.count]; exact old)]
      exact row
    · have last : i = before.length := by
        have bound := (List.getElem?_eq_some_iff.mp there).1
        rw [List.length_append, List.length_singleton] at bound
        omega
      rw [last, List.getElem?_append_right (Nat.le_refl _), Nat.sub_self] at there
      cases Option.some.inj there
      refine ⟨_, _, here.append _, ?_⟩
      rw [last, List.getElem?_append_right (by rw [packs.count]), packs.count, Nat.sub_self]
      rfl
  · rw [packs.checksum, List.map_append, List.sum_append]
    simp

theorem fold_packs {clock : Nat → Int} {items : List Item} {packing : Packing}
    (run : items.foldlM (packItem clock) ⟨[], [], 0⟩ = .ok packing) : Packs items packing := by
  refine fold_ok Packs (fun before item s t packs step => packItem_packs packs step) ?_ run
  exact ⟨rfl, by simp, by simp, rfl⟩

section Decoding
variable {item : Item} {offset modified : Nat} {blob : Bytes}

theorem field_flatten {parts : List Bytes} {k offset width value : Nat} (there : parts[k]? = some (pack width value))
    (before : ((parts.take k).map List.length).sum = offset) (fits : value < 256 ^ width) :
    field parts.flatten offset width = value := by
  rw [field, readAt_flatten there before (pack_length width value), unpack_pack fits]

theorem record_fields (packed : PackedAt item offset modified blob) (small : item.data.length < 2 ^ 64) :
    field (record item offset modified) 192 4 = item.type ∧ field (record item offset modified) 196 4 = item.perms ∧
    field (record item offset modified) 200 8 = item.data.length ∧ field (record item offset modified) 208 8 = offset ∧
    field (record item offset modified) 216 8 = modified ∧ field (record item offset modified) 224 4 = 0 ∧
    field (record item offset modified) 228 4 = 0 := by
  have path := packString_length (Nat.le_of_lt packed.path)
  have parts : record item offset modified = [packString 192 item.path, pack 4 item.type, pack 4 item.perms,
      pack 8 item.data.length, pack 8 offset, pack 8 modified, pack 4 0, pack 4 0].flatten := by
    simp [record]
  rw [parts]
  refine ⟨?_, ?_, ?_, ?_, ?_, ?_, ?_⟩
  · exact field_flatten (k := 1) rfl (by simp [path]) packed.type
  · exact field_flatten (k := 2) rfl (by simp [path]) packed.perms
  · exact field_flatten (k := 3) rfl (by simp [path]) small
  · exact field_flatten (k := 4) rfl (by simp [path]) packed.placed
  · exact field_flatten (k := 5) rfl (by simp [path]) packed.modified
  · exact field_flatten (k := 6) rfl (by simp [path]) (by decide)
  · exact field_flatten (k := 7) rfl (by simp [path]) (by decide)

/-- The data_offset of an image with this many entries. -/
def dataStart (items : List Item) : Nat := roundUp (headerSize + entrySize * items.length) 16

/-- The fields of the header that build makes. -/
def headerParts (items : List Item) (packing : Packing) (label : Bytes) : List Bytes :=
  [qitofsMagic, pack 4 qitofsVersion, pack 4 items.length, pack 8 (dataStart items + packing.blob.length),
    pack 8 (dataStart items), pack 4 0, pack 4 packing.checksum, packString 32 (label.take 32)]

/-- What build puts together. -/
structure Built (items : List Item) (image : Bytes) (packing : Packing) (label : Bytes) : Prop where
  packs : Packs items packing
  count : items.length < 2 ^ 32
  total : dataStart items + packing.blob.length < 2 ^ 64
  parts : image = (headerParts items packing label).flatten ++ (packing.table.flatten ++
    (List.replicate (dataStart items - (headerSize + entrySize * items.length)) 0 ++ packing.blob))

theorem headerParts_length (items : List Item) (packing : Packing) (label : Bytes) :
    (headerParts items packing label).flatten.length = headerSize := by
  have labelLength : (packString 32 (label.take 32)).length = 32 := packString_length (List.length_take_le _ _)
  have magicLength : qitofsMagic.length = 8 := by decide
  simp [headerParts, labelLength, magicLength]

theorem table_length {items : List Item} {packing : Packing} (packs : Packs items packing) :
    packing.table.flatten.length = entrySize * items.length := by
  have lengths : packing.table.map List.length = List.replicate items.length entrySize := by
    rw [← packs.count]
    exact List.map_eq_replicate_iff.mpr packs.even
  rw [List.length_flatten, lengths, List.sum_replicate_nat, Nat.mul_comm]

theorem build_ok {clock : Nat → Int} {items : List Item} {label image : Bytes} (run : build clock items label = .ok image) :
    ∃ packing, Built items image packing label := by
  unfold build at run
  obtain ⟨packing, fold, run⟩ := bind_ok.mp run
  obtain ⟨version, versionRun, run⟩ := bind_ok.mp run
  obtain ⟨count, countRun, run⟩ := bind_ok.mp run
  obtain ⟨total, totalRun, run⟩ := bind_ok.mp run
  obtain ⟨start, startRun, run⟩ := bind_ok.mp run
  obtain ⟨checksum, checksumRun, run⟩ := bind_ok.mp run
  obtain ⟨-, rfl⟩ := packWord_nat versionRun
  obtain ⟨countFits, rfl⟩ := packWord_nat countRun
  obtain ⟨totalFits, rfl⟩ := packWord_nat totalRun
  obtain ⟨-, rfl⟩ := packWord_nat startRun
  obtain ⟨-, rfl⟩ := packWord_nat checksumRun
  have packs := fold_packs fold
  refine ⟨packing, packs, countFits, totalFits, ?_⟩
  have magic : packString 8 qitofsMagic = qitofsMagic := by decide
  have front : packString 8 qitofsMagic ++ pack 4 qitofsVersion ++ pack 4 items.length ++
      pack 8 (dataStart items + packing.blob.length) ++ pack 8 (dataStart items) ++ pack 4 0 ++ pack 4 packing.checksum ++
      packString 32 (label.take 32) = (headerParts items packing label).flatten := by
    simp [headerParts, magic]
  have made : image = packString 8 qitofsMagic ++ pack 4 qitofsVersion ++ pack 4 items.length ++
      pack 8 (dataStart items + packing.blob.length) ++ pack 8 (dataStart items) ++ pack 4 0 ++ pack 4 packing.checksum ++
      packString 32 (label.take 32) ++ packing.table.flatten ++ List.replicate (dataStart items -
        (packString 8 qitofsMagic ++ pack 4 qitofsVersion ++ pack 4 items.length ++
          pack 8 (dataStart items + packing.blob.length) ++ pack 8 (dataStart items) ++ pack 4 0 ++ pack 4 packing.checksum ++
          packString 32 (label.take 32) ++ packing.table.flatten).length) 0 ++ packing.blob := (Except.ok.inj run).symm
  rw [made, front, List.length_append, headerParts_length, table_length packs, List.append_assoc, List.append_assoc]

section Image
variable {items : List Item} {image label : Bytes} {packing : Packing}

theorem table_before_data (items : List Item) : headerSize + entrySize * items.length ≤ dataStart items := by
  unfold dataStart roundUp
  omega

theorem Built.length (built : Built items image packing label) : image.length = dataStart items + packing.blob.length := by
  have before := table_before_data items
  rw [built.parts, List.length_append, List.length_append, List.length_append, headerParts_length, table_length built.packs,
    List.length_replicate]
  omega

theorem Built.reads (built : Built items image packing label) {k offset width value : Nat} (inside : offset + width ≤ headerSize)
    (there : (headerParts items packing label)[k]? = some (pack width value))
    (before : (((headerParts items packing label).take k).map List.length).sum = offset) (fits : value < 256 ^ width) :
    field image offset width = value := by
  rw [field, built.parts, readAt_within (by rwa [headerParts_length])]
  exact field_flatten there before fits

theorem Built.header (built : Built items image packing label) : headerOf image =
    { magic := qitofsMagic
      version := qitofsVersion
      entryCount := items.length
      totalSize := image.length
      dataOffset := dataStart items
      checksum := packing.checksum } := by
  have magicLength : qitofsMagic.length = 8 := by decide
  have start : dataStart items < 2 ^ 64 := Nat.lt_of_le_of_lt (Nat.le_add_right _ _) built.total
  have small : packing.checksum < 2 ^ 32 := by
    rw [built.packs.checksum]
    exact Nat.mod_lt _ (by decide)
  have magic : readAt 0 8 image = qitofsMagic := by
    rw [built.parts, readAt_within (by rw [headerParts_length]; decide)]
    exact readAt_flatten (k := 0) rfl rfl magicLength
  have version : field image 8 4 = qitofsVersion :=
    built.reads (k := 1) (by decide) rfl (by simp [headerParts, magicLength]) (by decide)
  have count : field image 12 4 = items.length :=
    built.reads (k := 2) (by decide) rfl (by simp [headerParts, magicLength]) built.count
  have total : field image 16 8 = image.length := by
    rw [built.length]
    exact built.reads (k := 3) (by decide) rfl (by simp [headerParts, magicLength]) built.total
  have offset : field image 24 8 = dataStart items :=
    built.reads (k := 4) (by decide) rfl (by simp [headerParts, magicLength]) start
  have checksum : field image 36 4 = packing.checksum :=
    built.reads (k := 6) (by decide) rfl (by simp [headerParts, magicLength]) small
  simp only [headerOf, magic, version, count, total, offset, checksum]

theorem takeWhile_string {width : Nat} {text rest : Bytes} (short : text.length < width) (whole : 0 ∉ text) :
    (packString width text ++ rest).takeWhile (· != 0) = text := by
  obtain ⟨pad, padding⟩ : ∃ pad, List.replicate (width - text.length) (0 : UInt8) = 0 :: pad :=
    ⟨_, by rw [← Nat.succ_pred_eq_of_pos (Nat.sub_pos_of_lt short)]; exact List.replicate_succ⟩
  have plain : ∀ b ∈ text, (b != 0) = true := by
    intro b member
    exact bne_iff_ne.mpr fun zero => whole (zero ▸ member)
  rw [packString, List.take_of_length_le (Nat.le_of_lt short), padding, List.append_assoc, List.takeWhile_append_of_pos plain]
  simp

/-- What the loader finds of an entry in the image that was built. -/
structure Found (image : Bytes) (start i : Nat) (item : Item) : Prop where
  table : entryAt i + entrySize ≤ image.length
  ends : 0 ∈ image.drop (entryAt i)
  path : (entryOf image i).path = item.path
  short : item.path.length < 192
  type : (entryOf image i).type = item.type
  permissions : (entryOf image i).permissions = item.perms
  size : (entryOf image i).size = item.data.length
  inside : start + (entryOf image i).offset + item.data.length ≤ image.length
  data : readAt (start + (entryOf image i).offset) item.data.length image = item.data

theorem Built.found (built : Built items image packing label) {i : Nat} {item : Item} (there : items[i]? = some item)
    (whole : 0 ∉ item.path) : Found image (dataStart items) i item := by
  obtain ⟨offset, modified, packed, row⟩ := built.packs.packed i item there
  have rowLength : (record item offset modified).length = entrySize := record_length packed.path
  have small : item.data.length < 2 ^ 64 := by
    have total := built.total
    have inside := packed.inside
    omega
  obtain ⟨rest, from_⟩ : ∃ rest, image.drop (entryAt i) = record item offset modified ++ rest := by
    rw [built.parts, entryAt, ← List.drop_drop, ← headerParts_length items packing label, List.drop_left]
    rw [List.drop_append_of_le_length, drop_table built.packs.even row, List.append_assoc]
    · exact ⟨_, rfl⟩
    · have bound := (List.getElem?_eq_some_iff.mp there).1
      rw [table_length built.packs]
      exact Nat.mul_le_mul_left _ (Nat.le_of_lt bound)
  have fields (k width : Nat) (inside : k + width ≤ entrySize) :
      field image (entryAt i + k) width = field (record item offset modified) k width := by
    rw [field, readAt_add, from_, readAt_within (by rwa [rowLength])]
    rfl
  obtain ⟨type, perms, size, offset_, -⟩ := record_fields packed small
  have string : record item offset modified = packString 192 item.path ++ (pack 4 item.type ++ pack 4 item.perms ++
      pack 8 item.data.length ++ pack 8 offset ++ pack 8 modified ++ pack 4 0 ++ pack 4 0) := by
    simp only [record, List.append_assoc]
  have stored : (entryOf image i).offset = offset := (fields 208 8 (by decide)).trans offset_
  constructor
  · have length := congrArg List.length from_
    rw [List.length_drop, List.length_append, rowLength] at length
    have pos : 0 < entrySize := by decide
    omega
  · rw [from_, string]
    apply List.mem_append_left
    apply List.mem_append_left
    exact List.mem_append_right _ (List.mem_replicate.mpr ⟨by have short := packed.path; omega, rfl⟩)
  · change (image.drop (entryAt i)).takeWhile (· != 0) = item.path
    rw [from_, string, List.append_assoc, takeWhile_string packed.path whole]
  · exact packed.path
  · exact (fields 192 4 (by decide)).trans type
  · exact (fields 196 4 (by decide)).trans perms
  · exact (fields 200 8 (by decide)).trans size
  · rw [stored, built.length]
    have inside := packed.inside
    omega
  · have before := table_before_data items
    rw [stored, readAt_add, built.parts, ← List.append_assoc, ← List.append_assoc]
    rw [List.drop_left']
    · exact packed.data
    · rw [List.length_append, List.length_append, headerParts_length, table_length built.packs, List.length_replicate]
      omega

end Image

end Decoding

end Qito.Ramdisk
