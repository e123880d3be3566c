import Qito.Iso.Image
import Qito.Lib.Blocks

/-! The records of a directory, read back from its extent: a record says its own length,
and where there is none the rest of the sector is skipped. -/
namespace Qito.Iso
open Buffers

def parseRecord (bytes : Bytes) : Entry where
  identifier := readAt 33 (Packed.unpack (readAt 32 1 bytes)) bytes
  isDir := Packed.unpack (readAt 25 1 bytes) / 2 % 2 == 1
  extent := Packed.unpack (readAt 2 4 bytes)
  length := Packed.unpack (readAt 10 4 bytes)

def readRecords : Nat → Nat → Bytes → List Entry
  | 0, _, _ => []
  | _ + 1, _, [] => []
  | fuel + 1, offset, n :: rest =>
    if n = 0 then readRecords fuel (offset + (sector - offset % sector)) ((n :: rest).drop (sector - offset % sector))
    else parseRecord (n :: rest) :: readRecords fuel (offset + n.toNat) ((n :: rest).drop n.toNat)

/-- A directory, read from its extent and length. -/
def readDirectory (image : Bytes) (extent length : Nat) : List Entry := readRecords length 0 (readAt (extent * sector) length image)

section Records
variable {stamp : Stamp} {e : Entry} {record : Bytes} {fuel offset : Nat}

/-- What is in a packed record. -/
structure Recorded (e : Entry) (record : Bytes) : Prop where
  short : record.length ≤ 255
  length : record.length = recordLength e.identifier.length
  first : record.head? = some (UInt8.ofNat record.length)
  parsed : ∀ rest, parseRecord (record ++ rest) = e

theorem bothEndian_spec {width value : Nat} {bytes : Bytes} (packed : bothEndian width value = some bytes) :
    ∃ little big, bytes = little ++ big ∧ little.length = width ∧ big.length = width ∧ Packed.unpack little = value := by
  simp only [bothEndian, Option.bind_eq_bind, Option.bind_eq_some_iff, Option.some.injEq] at packed
  obtain ⟨little, isLittle, big, isBig, rfl⟩ := packed
  obtain ⟨-, length, value⟩ := pack_spec isLittle
  exact ⟨little, big, rfl, length, (pack_spec isBig).2.1, value⟩

theorem dirRecord_recorded (packed : dirRecord stamp e = some record) : Recorded e record := by
  unfold dirRecord at packed
  split at packed
  · rename_i short
    simp only [Option.bind_eq_bind, Option.bind_eq_some_iff, Option.some.injEq] at packed
    obtain ⟨extent, isExtent, size, isSize, sequence, isSequence, rfl⟩ := packed
    obtain ⟨extent, extent', rfl, four, four', isExtent⟩ := bothEndian_spec isExtent
    obtain ⟨size, size', rfl, four'', four''', isSize⟩ := bothEndian_spec isSize
    obtain ⟨one, one', rfl, two, two', -⟩ := bothEndian_spec isSequence
    have count : e.identifier.length < 256 := by
      unfold recordLength at short
      omega
    have seven : (dirDatetime stamp).length = 7 := rfl
    have pad : (List.replicate ((33 + e.identifier.length) % 2) (0 : UInt8)).length = (33 + e.identifier.length) % 2 := List.length_replicate
    generalize dirDatetime stamp = date at seven
    generalize List.replicate ((33 + e.identifier.length) % 2) (0 : UInt8) = padding at pad
    have parts : ∀ rest, UInt8.ofNat (recordLength e.identifier.length) :: 0 :: (extent ++ extent' ++ (size ++ size') ++ date ++
          [if e.isDir = true then 2 else 0, 0, 0] ++ (one ++ one') ++ UInt8.ofNat e.identifier.length :: e.identifier ++ padding) ++ rest =
        [[UInt8.ofNat (recordLength e.identifier.length), 0], extent, extent', size, size', date, [if e.isDir = true then 2 else 0], [0, 0], one, one',
          [UInt8.ofNat e.identifier.length], e.identifier, padding, rest].flatten := by
      intro rest
      simp
    have length : (UInt8.ofNat (recordLength e.identifier.length) :: 0 :: (extent ++ extent' ++ (size ++ size') ++ date ++
          [if e.isDir = true then 2 else 0, 0, 0] ++ (one ++ one') ++ UInt8.ofNat e.identifier.length :: e.identifier ++ padding)).length =
        recordLength e.identifier.length := by
      simp only [List.length_cons, List.length_append, List.length_nil, four, four', four'', four''', two, two', seven, pad]
      unfold recordLength
      omega
    refine ⟨length ▸ short, length, ?_, fun rest => ?_⟩
    · rw [length]
      rfl
    · rw [parts]
      generalize whole : [[UInt8.ofNat (recordLength e.identifier.length), 0], extent, extent', size, size', date,
        [if e.isDir = true then 2 else 0], [0, 0], one, one', [UInt8.ofNat e.identifier.length], e.identifier, padding, rest] = fields
      have extentAt : readAt 2 4 fields.flatten = extent := Packed.readAt_flatten (k := 1) (by rw [← whole]; rfl) (by simp [← whole]) four
      have sizeAt : readAt 10 4 fields.flatten = size :=
        Packed.readAt_flatten (k := 3) (by rw [← whole]; rfl) (by simp [← whole, four, four']) four''
      have flagAt : readAt 25 1 fields.flatten = [if e.isDir = true then 2 else 0] :=
        Packed.readAt_flatten (k := 6) (by rw [← whole]; rfl) (by simp [← whole, four, four', four'', four''', seven]) rfl
      have countAt : readAt 32 1 fields.flatten = [UInt8.ofNat e.identifier.length] :=
        Packed.readAt_flatten (k := 10) (by rw [← whole]; rfl) (by simp [← whole, four, four', four'', four''', seven, two, two']) rfl
      have value : Packed.unpack [UInt8.ofNat e.identifier.length] = e.identifier.length := by
        rw [Packed.unpack, Packed.unpack, UInt8.toNat_ofNat']
        omega
      have nameAt : readAt 33 e.identifier.length fields.flatten = e.identifier :=
        Packed.readAt_flatten (k := 11) (by rw [← whole]; rfl) (by simp [← whole, four, four', four'', four''', seven, two, two']) rfl
      have flag : (Packed.unpack [if e.isDir = true then (2 : UInt8) else 0] / 2 % 2 == 1) = e.isDir := by
        cases e.isDir with
        | true => decide
        | false => decide
      unfold parseRecord
      rw [extentAt, sizeAt, flagAt, countAt, value, nameAt, flag, isExtent, isSize]
  · cases packed

theorem Recorded.cons (recorded : Recorded e record) : ∃ n rest, record = n :: rest ∧ n ≠ 0 ∧ n.toNat = record.length := by
  cases record with
  | nil => cases recorded.first
  | cons n rest =>
    have first := congrArg UInt8.toNat (Option.some.inj recorded.first)
    have short := recorded.short
    have value : n.toNat = (n :: rest).length := by
      rw [UInt8.toNat_ofNat'] at first
      omega
    refine ⟨n, rest, rfl, ?_, value⟩
    rintro rfl
    cases value

theorem readRecords_record (recorded : Recorded e record) (rest : Bytes) :
    readRecords (fuel + 1) offset (record ++ rest) = e :: readRecords fuel (offset + record.length) rest := by
  have parsed := recorded.parsed rest
  obtain ⟨n, tail, rfl, some_, value⟩ := recorded.cons
  rw [List.cons_append] at parsed ⊢
  rw [readRecords, if_neg some_, parsed, value, ← List.cons_append, List.drop_left]

theorem readRecords_zeros (fuel offset k : Nat) : readRecords fuel offset (List.replicate k 0) = [] := by
  induction fuel generalizing offset k with
  | zero => rfl
  | succ fuel ih =>
    cases k with
    | zero => rfl
    | succ k =>
      rw [List.replicate_succ, readRecords, if_pos rfl, ← List.replicate_succ, List.drop_replicate]
      exact ih _ _

theorem readRecords_lay {entries : List Entry} {records : List Bytes} (recorded : List.Forall₂ Recorded entries records) {k : Nat}
    (enough : (Blocks.layFrom sector 0 offset records ++ List.replicate k 0).length ≤ fuel) :
    readRecords fuel offset (Blocks.layFrom sector 0 offset records ++ List.replicate k 0) = entries := by
  induction recorded generalizing fuel offset with
  | nil => exact readRecords_zeros fuel offset k
  | @cons e record entries records here _ ih =>
    have start := Blocks.startOf_le sector offset record.length
    have positive : 0 < record.length := by
      obtain ⟨n, rest, rfl, -, -⟩ := here.cons
      exact Nat.succ_pos _
    rw [Blocks.layFrom, List.append_assoc, List.append_assoc, List.length_append, List.length_append, List.length_replicate] at enough
    rw [Blocks.layFrom, List.append_assoc, List.append_assoc]
    by_cases next : sector < offset % sector + record.length
    · have gap : Blocks.startOf sector offset record.length = offset + (sector - offset % sector) := if_pos next
      have some_ : 0 < sector - offset % sector := Nat.sub_pos_of_lt (Nat.mod_lt _ (by decide))
      obtain ⟨g, is⟩ : ∃ g, sector - offset % sector = g + 1 := ⟨sector - offset % sector - 1, by omega⟩
      rw [gap, Nat.add_sub_cancel_left] at enough ⊢
      obtain ⟨fuel, rfl⟩ : ∃ f, fuel = f + 2 := ⟨fuel - 2, by omega⟩
      have skip : readRecords (fuel + 2) offset (List.replicate (sector - offset % sector) 0 ++ (record ++
            (Blocks.layFrom sector 0 (offset + (sector - offset % sector) + record.length) records ++ List.replicate k 0))) =
          readRecords (fuel + 1) (offset + (sector - offset % sector)) (record ++
            (Blocks.layFrom sector 0 (offset + (sector - offset % sector) + record.length) records ++ List.replicate k 0)) := by
        have dropped : ∀ rest : Bytes, (List.replicate (sector - offset % sector) 0 ++ rest).drop (sector - offset % sector) = rest :=
          fun rest => List.drop_left' List.length_replicate
        conv_lhs =>
          rw [is, List.replicate_succ, List.cons_append, readRecords, if_pos rfl, ← List.cons_append, ← List.replicate_succ, ← is, dropped]
      rw [skip, readRecords_record here, ih (by omega)]
    · have same : Blocks.startOf sector offset record.length = offset := if_neg next
      rw [same, Nat.sub_self] at enough ⊢
      obtain ⟨fuel, rfl⟩ : ∃ f, fuel = f + 1 := ⟨fuel - 1, by omega⟩
      rw [List.replicate_zero, List.nil_append, readRecords_record here, ih (by omega)]

theorem foldl_appendRecord (records : List Bytes) (buf : Bytes) :
    records.foldl IsoBuilder.appendRecord buf = buf ++ Blocks.layFrom sector 0 buf.length records := by
  induction records generalizing buf with
  | nil => exact (List.append_nil buf).symm
  | cons record records ih =>
    rw [List.foldl_cons, ih, Blocks.layFrom]
    unfold IsoBuilder.appendRecord Blocks.startOf
    split
    · rw [List.length_append, List.length_append, List.length_replicate, Nat.add_sub_cancel_left]
      simp
    · rw [List.length_append, Nat.sub_self]
      simp

end Records
end Qito.Iso
