import Qito.Lib.Packed
import Qito.Qtx.Safety

/-! qasm.build_qtx of tools/qasm.py: the image it writes for an ELF file, and what
the kernel's structures read in that image. -/
namespace Qito.Qtx
open Buffers Packed Traces Words

abbrev shtNobits : UInt32 := 8

/-- A section header of the ELF file, with its name looked up. -/
structure ElfSection where
  name : Bytes
  type : UInt32
  addr : UInt64
  offset : UInt64
  size : UInt64
deriving DecidableEq

/-- ElfFile, once it has been read; names are in UTF-8. -/
structure Elf where
  data : Bytes
  entry : UInt64
  sections : List ElfSection
  symbols : List (Bytes × UInt64 × UInt8)

def Elf.find (elf : Elf) (name : Bytes) : Option ElfSection := elf.sections.find? fun s => s.name == name

def Elf.contents (elf : Elf) (s : ElfSection) : Bytes :=
  if s.type = shtNobits then [] else readAt s.offset.toNat s.size.toNat elf.data

/-- An entry of SECTION_MAP. -/
structure Mapping where
  name : String
  kind : Nat
  perm : Nat
deriving DecidableEq

def sectionMap : List Mapping :=
  [⟨".text", 1, 0x05⟩, ⟨".rodata", 3, 0x01⟩, ⟨".data", 2, 0x03⟩, ⟨".bss", 4, 0x03⟩, ⟨".qito_resource", 5, 0x01⟩]

/-- A dictionary of the list of sections. -/
structure Piece where
  name : Bytes
  kind : Nat
  flags : Nat
  align : Nat
  addr : Nat
  fileOffset : Nat
  fileSize : Nat
  memorySize : Nat

def pad16 (bytes : Bytes) : Bytes := bytes ++ List.replicate ((16 - bytes.length % 16) % 16) 0

def piece (m : Mapping) (s : ElfSection) (fileOffset fileSize : Nat) : Piece :=
  ⟨(ascii m.name).take 12, m.kind, m.perm, 16, s.addr.toNat, fileOffset, fileSize, s.size.toNat⟩

/-- One round of the loop over SECTION_MAP: the sections so far and the payload. -/
def addSection (elf : Elf) (acc : List Piece × Bytes) (m : Mapping) : List Piece × Bytes :=
  match elf.find (ascii m.name) with
  | none => acc
  | some s =>
    if s.size = 0 then acc
    else if m.kind ≠ sectionBss then
      (acc.1 ++ [piece m s acc.2.length (elf.contents s).length], pad16 (acc.2 ++ elf.contents s))
    else (acc.1 ++ [piece m s 0 0], acc.2)

def gather (elf : Elf) : List Piece × Bytes := sectionMap.foldl (addSection elf) ([], [])

def relocate (payloadOffset : Nat) (p : Piece) : Piece :=
  if p.kind ≠ sectionBss then { p with fileOffset := p.fileOffset + payloadOffset } else p

def skipped (name : Bytes) : Bool :=
  (ascii "$").isPrefixOf name || (ascii ".L").isPrefixOf name || (ascii "__").isPrefixOf name

/-- The function symbols, 128 at most. -/
def keptSymbols (elf : Elf) : List (Bytes × Nat) :=
  ((elf.symbols.filter fun (name, _, info) => !skipped name && info &&& 0xF == 2).take 128).map
    fun (name, addr, _) => (name.take 24, addr.toNat)

/-- One unsigned integer of struct.pack; none stands for struct.error. -/
def packInt (width value : Nat) : Option Bytes := if value < 256 ^ width then some (pack width value) else none

def packString (width : Nat) (text : Bytes) : Bytes := text.take width ++ List.replicate (width - text.length) 0

def packSection (p : Piece) : Option Bytes := do
  return packString 12 p.name ++ (← packInt 1 p.kind) ++ (← packInt 1 p.flags) ++ (← packInt 2 p.align) ++
    (← packInt 8 p.addr) ++ (← packInt 4 p.fileOffset) ++ (← packInt 4 p.fileSize) ++ (← packInt 4 p.memorySize)

/-- The format of imports and symbols. -/
def packEntry (entry : Bytes × Nat) : Option Bytes := do
  return packString 24 (entry.1.take 24) ++ (← packInt 8 entry.2)

/-- The values of the header that depend on the program. -/
structure HeaderValues where
  format : Nat
  flags : Nat
  total : Nat
  entry : Nat
  loadBase : Nat
  sectionCount : Nat
  importCount : Nat
  importOffset : Nat
  symbolCount : Nat
  symbolOffset : Nat
  stackSize : Nat
  name : Bytes

def packHeader (h : HeaderValues) : Option Bytes := do
  return packString 2 (ascii "QX") ++ (← packInt 1 h.format) ++ (← packInt 1 qtxVersion) ++ (← packInt 2 qtxMachine) ++
    (← packInt 2 h.flags) ++ (← packInt 4 headerSize) ++ (← packInt 4 h.total) ++ (← packInt 8 h.entry) ++
    (← packInt 8 h.loadBase) ++ (← packInt 4 h.sectionCount) ++ (← packInt 4 headerSize) ++ (← packInt 4 h.importCount) ++
    (← packInt 4 h.importOffset) ++ (← packInt 4 h.symbolCount) ++ (← packInt 4 h.symbolOffset) ++ (← packInt 4 0) ++
    (← packInt 4 h.stackSize) ++ packString 24 (h.name.take 24)

/-- The sum over all bytes but those of the checksum. -/
def checksumOf (body : Bytes) : Nat :=
  body.zipIdx.foldl (fun chk (b, i) => if 56 ≤ i ∧ i < 60 then chk else (chk + b.toNat) % 2 ^ 32) 0

def lowestAddr (pieces : List Piece) : Nat := (pieces.map Piece.addr).foldl min (2 ^ 64 - 1)

/-- none stands for an exception: no usable section, or struct.error. -/
def buildQtx (elf : Elf) (name : Bytes) (flags : Nat) (imports : List (Bytes × Nat)) (stackSize fmt : Nat) :
    Option Bytes :=
  let (pieces, payload) := gather elf
  if pieces.isEmpty then none
  else do
    let symbols := keptSymbols elf
    let importOffset := headerSize + pieces.length * sectionSize
    let symbolOffset := importOffset + imports.length * importSize
    let payloadOffset := symbolOffset + symbols.length * symbolSize
    let pieces := pieces.map (relocate payloadOffset)
    let header ← packHeader {
      format := fmt
      flags := flags
      total := payloadOffset + payload.length
      entry := elf.entry.toNat
      loadBase := lowestAddr pieces
      sectionCount := pieces.length
      importCount := imports.length
      importOffset := importOffset
      symbolCount := symbols.length
      symbolOffset := symbolOffset
      stackSize := stackSize
      name := name }
    let sectionTable ← pieces.mapM packSection
    let importTable ← imports.mapM packEntry
    let symbolTable ← symbols.mapM packEntry
    let body := header ++ sectionTable.flatten ++ importTable.flatten ++ symbolTable.flatten ++ payload
    return body.take 56 ++ pack 4 (checksumOf body) ++ body.drop 60

/-- The two ways main calls build_qtx: a program, or with --shared a library. -/
def qasm (elf : Elf) (shared : Bool) (name : Bytes) (imports : List (Bytes × Nat)) (stackSize : UInt32) : Option Bytes :=
  if shared then buildQtx { elf with entry := 0 } name flagLibrary imports stackSize.toNat 0x44
  else buildQtx elf name flagExecutable imports stackSize.toNat 0x58

section Fields
variable {data : Bytes}

theorem le_eq_unpack (data : Bytes) (i n : Nat) : le data i n = unpack (readAt i n data) := by
  induction n generalizing i with
  | zero => simp [le, readAt, unpack]
  | succ n ih =>
    have rest := ih (i + 1)
    rw [le, rest]
    cases there : data[i]? with
    | none =>
      have short : data.length ≤ i := List.getElem?_eq_none_iff.mp there
      have byte : byteAt data i = 0 := by simp [byteAt, there]
      simp [readAt, byte, List.drop_of_length_le short, List.drop_of_length_le (Nat.le_succ_of_le short), unpack]
    | some b =>
      have byte : byteAt data i = b.toNat := by simp [byteAt, there]
      obtain ⟨inside, here⟩ := List.getElem?_eq_some_iff.mp there
      rw [byte, readAt, readAt, List.drop_eq_getElem_cons inside, here, List.take_succ_cons, unpack]

theorem le_part {parts : List Bytes} {k offset width value : Nat} (there : parts[k]? = some (pack width value))
    (before : ((parts.take k).map List.length).sum = offset) (fits : value < 256 ^ width) :
    le parts.flatten offset width = value := by
  rw [le_eq_unpack, readAt_flatten there before (pack_length width value), unpack_pack fits]

theorem byteAt_eq (data : Bytes) (i : Nat) : byteAt data i = le data i 1 := by simp [le]

theorem packString_length (width : Nat) (text : Bytes) : (packString width text).length = width := by
  rw [packString, List.length_append, List.length_take, List.length_replicate]
  omega

end Fields

/-- The fields of the header, in their order. -/
def headerParts (h : HeaderValues) (chk : Nat) : List Bytes :=
  [packString 2 (ascii "QX"), pack 1 h.format, pack 1 qtxVersion, pack 2 qtxMachine, pack 2 h.flags, pack 4 headerSize,
    pack 4 h.total, pack 8 h.entry, pack 8 h.loadBase, pack 4 h.sectionCount, pack 4 headerSize, pack 4 h.importCount,
    pack 4 h.importOffset, pack 4 h.symbolCount, pack 4 h.symbolOffset, pack 4 chk, pack 4 h.stackSize,
    packString 24 (h.name.take 24)]

/-- The parts of the image after the header. -/
structure Tables where
  sections : List Bytes
  imports : List Bytes
  symbols : List Bytes
  payload : Bytes

def imageParts (h : HeaderValues) (chk : Nat) (t : Tables) : List Bytes :=
  headerParts h chk ++ [t.sections.flatten, t.imports.flatten, t.symbols.flatten, t.payload]

def imageOf (h : HeaderValues) (chk : Nat) (t : Tables) : Bytes := (imageParts h chk t).flatten

/-- All values have room in their fields. -/
structure HeaderValues.Fits (h : HeaderValues) : Prop where
  format : h.format < 256 ^ 1
  flags : h.flags < 256 ^ 2
  total : h.total < 256 ^ 4
  entry : h.entry < 256 ^ 8
  loadBase : h.loadBase < 256 ^ 8
  sectionCount : h.sectionCount < 256 ^ 4
  importCount : h.importCount < 256 ^ 4
  importOffset : h.importOffset < 256 ^ 4
  symbolCount : h.symbolCount < 256 ^ 4
  symbolOffset : h.symbolOffset < 256 ^ 4
  stackSize : h.stackSize < 256 ^ 4

section Layout
variable {h : HeaderValues} {t : Tables} {chk : Nat}

theorem packInt_ok {width value : Nat} (fits : value < 256 ^ width) : packInt width value = some (pack width value) :=
  if_pos fits

theorem packHeader_ok (fits : h.Fits) : packHeader h = some (headerParts h 0).flatten := by
  have version : packInt 1 qtxVersion = some (pack 1 qtxVersion) := packInt_ok (by decide)
  have machine : packInt 2 qtxMachine = some (pack 2 qtxMachine) := packInt_ok (by decide)
  have size : packInt 4 headerSize = some (pack 4 headerSize) := packInt_ok (by decide)
  have zero : packInt 4 0 = some (pack 4 0) := packInt_ok (by decide)
  simp only [packHeader, packInt_ok fits.format, version, machine, packInt_ok fits.flags, size, packInt_ok fits.total,
    packInt_ok fits.entry, packInt_ok fits.loadBase, packInt_ok fits.sectionCount, packInt_ok fits.importCount,
    packInt_ok fits.importOffset, packInt_ok fits.symbolCount, packInt_ok fits.symbolOffset, zero,
    packInt_ok fits.stackSize, headerParts]
  simp

/-- What comes before the checksum, and what after it. -/
def frontBytes (h : HeaderValues) : Bytes := ((headerParts h 0).take 15).flatten

def backBytes (h : HeaderValues) (t : Tables) : Bytes :=
  pack 4 h.stackSize ++ packString 24 (h.name.take 24) ++ t.sections.flatten ++ t.imports.flatten ++
    t.symbols.flatten ++ t.payload

theorem imageOf_split : imageOf h chk t = frontBytes h ++ (pack 4 chk ++ backBytes h t) := by
  simp [imageOf, imageParts, headerParts, frontBytes, backBytes]

theorem frontBytes_length : (frontBytes h).length = 56 := by
  simp [frontBytes, headerParts, packString_length]

theorem imageOf_patch : (imageOf h 0 t).take 56 ++ pack 4 chk ++ (imageOf h 0 t).drop 60 = imageOf h chk t := by
  have front := frontBytes_length (h := h)
  have skip : 60 = (frontBytes h).length + (pack 4 0).length := by rw [front, pack_length]
  have taken : (imageOf h 0 t).take 56 = frontBytes h := by
    rw [imageOf_split, ← front, List.take_left]
  have dropped : (imageOf h 0 t).drop 60 = backBytes h t := by
    rw [imageOf_split, skip, ← List.drop_drop, List.drop_left, List.drop_left]
  rw [taken, dropped, imageOf_split, List.append_assoc]

theorem before_imports : (((imageParts h chk t).take 19).map List.length).sum = headerSize + t.sections.flatten.length := by
  have front : (imageParts h chk t).take 19 = headerParts h chk ++ [t.sections.flatten] := rfl
  have lengths : ((headerParts h chk).map List.length).sum = headerSize := by simp [headerParts, packString_length]
  rw [front, List.map_append, List.sum_append, lengths, List.map_singleton, List.sum_singleton]

theorem header_imageOf (fits : h.Fits) (small : chk < 256 ^ 4) : header (imageOf h chk t) =
    { signature := (0x51, 0x58)
      format := h.format
      version := qtxVersion
      machine := qtxMachine
      flags := h.flags
      headerSize := headerSize
      totalSize := h.total
      entryPoint := h.entry
      sectionCount := h.sectionCount
      sectionOffset := headerSize
      importCount := h.importCount
      importOffset := h.importOffset
      symbolCount := h.symbolCount
      symbolOffset := h.symbolOffset
      checksum := chk
      name := packString 24 (h.name.take 24) } := by
  have part {k offset width value : Nat} (there : (imageParts h chk t)[k]? = some (pack width value))
      (before : (((imageParts h chk t).take k).map List.length).sum = offset) (fits : value < 256 ^ width) :
      le (imageOf h chk t) offset width = value := le_part there before fits
  have sign : byteAt (imageOf h chk t) 0 = 0x51 ∧ byteAt (imageOf h chk t) 1 = 0x58 := by
    constructor <;> simp [byteAt, imageOf, imageParts, headerParts, packString, ascii]
  have name : field (imageOf h chk t) 64 qtxNameMax = packString 24 (h.name.take 24) :=
    readAt_flatten (k := 17) rfl (by simp [imageParts, headerParts, packString_length]) (packString_length _ _)
  have part {k offset width value : Nat} (there : (imageParts h chk t)[k]? = some (pack width value))
      (before : (((imageParts h chk t).take k).map List.length).sum = offset) (fits : value < 256 ^ width) :
      le (imageOf h chk t) offset width = value := le_part there before fits
  have format : byteAt (imageOf h chk t) 2 = h.format := by
    rw [byteAt_eq]
    exact part (k := 1) rfl (by simp [imageParts, headerParts, packString_length]) fits.format
  have version : byteAt (imageOf h chk t) 3 = qtxVersion := by
    rw [byteAt_eq]
    exact part (k := 2) rfl (by simp [imageParts, headerParts, packString_length]) (by decide)
  have machine : le (imageOf h chk t) 4 2 = qtxMachine :=
    part (k := 3) rfl (by simp [imageParts, headerParts, packString_length]) (by decide)
  have flags : le (imageOf h chk t) 6 2 = h.flags :=
    part (k := 4) rfl (by simp [imageParts, headerParts, packString_length]) fits.flags
  have size : le (imageOf h chk t) 8 4 = headerSize :=
    part (k := 5) rfl (by simp [imageParts, headerParts, packString_length]) (by decide)
  have total : le (imageOf h chk t) 12 4 = h.total :=
    part (k := 6) rfl (by simp [imageParts, headerParts, packString_length]) fits.total
  have entry : le (imageOf h chk t) 16 8 = h.entry :=
    part (k := 7) rfl (by simp [imageParts, headerParts, packString_length]) fits.entry
  have sectionCount : le (imageOf h chk t) 32 4 = h.sectionCount :=
    part (k := 9) rfl (by simp [imageParts, headerParts, packString_length]) fits.sectionCount
  have sectionOffset : le (imageOf h chk t) 36 4 = headerSize :=
    part (k := 10) rfl (by simp [imageParts, headerParts, packString_length]) (by decide)
  have importCount : le (imageOf h chk t) 40 4 = h.importCount :=
    part (k := 11) rfl (by simp [imageParts, headerParts, packString_length]) fits.importCount
  have importOffset : le (imageOf h chk t) 44 4 = h.importOffset :=
    part (k := 12) rfl (by simp [imageParts, headerParts, packString_length]) fits.importOffset
  have symbolCount : le (imageOf h chk t) 48 4 = h.symbolCount :=
    part (k := 13) rfl (by simp [imageParts, headerParts, packString_length]) fits.symbolCount
  have symbolOffset : le (imageOf h chk t) 52 4 = h.symbolOffset :=
    part (k := 14) rfl (by simp [imageParts, headerParts, packString_length]) fits.symbolOffset
  have checksum : le (imageOf h chk t) 56 4 = chk :=
    part (k := 15) rfl (by simp [imageParts, headerParts, packString_length]) small
  unfold header
  rw [sign.1, sign.2, format, version, machine, flags, size, total, entry, sectionCount, sectionOffset, importCount,
    importOffset, symbolCount, symbolOffset, checksum, name]

end Layout

/-- All that build_qtx packs, with the places of the sections in the image. -/
structure Program where
  format : Nat
  flags : Nat
  entry : Nat
  stackSize : Nat
  name : Bytes
  pieces : List Piece
  imports : List (Bytes × Nat)
  symbols : List (Bytes × Nat)
  payload : Bytes

def sectionRecord (p : Piece) : List Bytes :=
  [packString 12 p.name, pack 1 p.kind, pack 1 p.flags, pack 2 p.align, pack 8 p.addr, pack 4 p.fileOffset,
    pack 4 p.fileSize, pack 4 p.memorySize]

def entryRecord (entry : Bytes × Nat) : List Bytes := [packString 24 (entry.1.take 24), pack 8 entry.2]

namespace Program

def importOffset (x : Program) : Nat := headerSize + x.pieces.length * sectionSize

def symbolOffset (x : Program) : Nat := x.importOffset + x.imports.length * importSize

def payloadOffset (x : Program) : Nat := x.symbolOffset + x.symbols.length * symbolSize

def header (x : Program) : HeaderValues where
  format := x.format
  flags := x.flags
  total := x.payloadOffset + x.payload.length
  entry := x.entry
  loadBase := lowestAddr x.pieces
  sectionCount := x.pieces.length
  importCount := x.imports.length
  importOffset := x.importOffset
  symbolCount := x.symbols.length
  symbolOffset := x.symbolOffset
  stackSize := x.stackSize
  name := x.name

def tables (x : Program) : Tables where
  sections := x.pieces.map fun p => (sectionRecord p).flatten
  imports := x.imports.map fun entry => (entryRecord entry).flatten
  symbols := x.symbols.map fun entry => (entryRecord entry).flatten
  payload := x.payload

def image (x : Program) (chk : Nat) : Bytes := imageOf x.header chk x.tables

end Program

structure Piece.Fits (p : Piece) : Prop where
  kind : p.kind < 256 ^ 1
  flags : p.flags < 256 ^ 1
  align : p.align < 256 ^ 2
  addr : p.addr < 256 ^ 8
  fileOffset : p.fileOffset < 256 ^ 4
  fileSize : p.fileSize < 256 ^ 4
  memorySize : p.memorySize < 256 ^ 4

structure Program.Fits (x : Program) : Prop where
  header : x.header.Fits
  pieces : ∀ p ∈ x.pieces, p.Fits
  imports : ∀ entry ∈ x.imports, entry.2 < 256 ^ 8
  symbols : ∀ entry ∈ x.symbols, entry.2 < 256 ^ 8

/-- The struct qtx_section of a dictionary. -/
def Piece.toSection (p : Piece) : Section := ⟨p.kind, p.flags, p.addr, p.fileOffset, p.fileSize, p.memorySize⟩

section Records
variable {x : Program} {chk i : Nat}

theorem sectionRecord_length (p : Piece) : (sectionRecord p).flatten.length = sectionSize := by
  simp [sectionRecord, packString_length]

theorem entryRecord_length (entry : Bytes × Nat) : (entryRecord entry).flatten.length = importSize := by
  simp [entryRecord, packString_length]

theorem packSection_ok {p : Piece} (fits : p.Fits) : packSection p = some (sectionRecord p).flatten := by
  simp only [packSection, packInt_ok fits.kind, packInt_ok fits.flags, packInt_ok fits.align, packInt_ok fits.addr,
    packInt_ok fits.fileOffset, packInt_ok fits.fileSize, packInt_ok fits.memorySize, sectionRecord]
  simp

theorem packEntry_ok {entry : Bytes × Nat} (fits : entry.2 < 256 ^ 8) :
    packEntry entry = some (entryRecord entry).flatten := by
  simp [packEntry, packInt_ok fits, entryRecord]

theorem le_record {data record : Bytes} {start size k width : Nat} (there : readAt start size data = record)
    (inside : k + width ≤ size) : le data (start + k) width = le record k width := by
  rw [le_eq_unpack, le_eq_unpack, ← there, readAt_readAt inside]

theorem even_sections : ∀ r ∈ x.tables.sections, r.length = sectionSize := by
  simp only [Program.tables, List.forall_mem_map]
  exact fun p _ => sectionRecord_length p

theorem even_imports : ∀ r ∈ x.tables.imports, r.length = importSize := by
  simp only [Program.tables, List.forall_mem_map]
  exact fun entry _ => entryRecord_length entry

theorem section_image {p : Piece} (fits : x.Fits) (small : chk < 256 ^ 4) (there : x.pieces[i]? = some p) :
    section_ (x.image chk) i = p.toSection := by
  have good := fits.pieces p (List.mem_of_getElem? there)
  have row : x.tables.sections[i]? = some (sectionRecord p).flatten := by simp [Program.tables, there]
  have place : sectionAt (x.image chk) i = headerSize + sectionSize * i := by
    rw [sectionAt, Program.image, header_imageOf fits.header small, Nat.mul_comm]
  have record : readAt (headerSize + sectionSize * i) sectionSize (x.image chk) = (sectionRecord p).flatten :=
    readAt_table (k := 18) rfl (by simp [imageParts, headerParts, packString_length]) even_sections row
  have part {k offset width value : Nat} (here : (sectionRecord p)[k]? = some (pack width value))
      (before : (((sectionRecord p).take k).map List.length).sum = offset) (inside : offset + width ≤ sectionSize)
      (room : value < 256 ^ width) : le (x.image chk) (headerSize + sectionSize * i + offset) width = value := by
    rw [le_record record inside]
    exact le_part here before room
  have kind : le (x.image chk) (headerSize + sectionSize * i + 12) 1 = p.kind :=
    part (k := 1) rfl (by simp [sectionRecord, packString_length]) (by decide) good.kind
  have flags : le (x.image chk) (headerSize + sectionSize * i + 13) 1 = p.flags :=
    part (k := 2) rfl (by simp [sectionRecord, packString_length]) (by decide) good.flags
  have addr : le (x.image chk) (headerSize + sectionSize * i + 16) 8 = p.addr :=
    part (k := 4) rfl (by simp [sectionRecord, packString_length]) (by decide) good.addr
  have start : le (x.image chk) (headerSize + sectionSize * i + 24) 4 = p.fileOffset :=
    part (k := 5) rfl (by simp [sectionRecord, packString_length]) (by decide) good.fileOffset
  have size : le (x.image chk) (headerSize + sectionSize * i + 28) 4 = p.fileSize :=
    part (k := 6) rfl (by simp [sectionRecord, packString_length]) (by decide) good.fileSize
  have room : le (x.image chk) (headerSize + sectionSize * i + 32) 4 = p.memorySize :=
    part (k := 7) rfl (by simp [sectionRecord, packString_length]) (by decide) good.memorySize
  rw [section_, place, byteAt_eq, byteAt_eq, kind, flags, addr, start, size, room, Piece.toSection]

theorem sections_length : x.tables.sections.flatten.length = x.pieces.length * sectionSize := by
  have lengths : x.tables.sections.map List.length = List.replicate x.pieces.length sectionSize := by
    rw [List.eq_replicate_iff]
    exact ⟨by simp [Program.tables], by simpa using even_sections⟩
  rw [List.length_flatten, lengths, List.sum_replicate_nat]

theorem entries_length (entries : List (Bytes × Nat)) :
    (entries.map fun entry => (entryRecord entry).flatten).flatten.length = entries.length * importSize := by
  induction entries with
  | nil => rfl
  | cons entry entries ih =>
    rw [List.map_cons, List.flatten_cons, List.length_append, entryRecord_length, ih, List.length_cons, Nat.succ_mul,
      Nat.add_comm]

theorem import_image {entry : Bytes × Nat} (fits : x.Fits) (small : chk < 256 ^ 4) (there : x.imports[i]? = some entry) :
    import_ (x.image chk) i = ⟨packString 24 (entry.1.take 24), entry.2⟩ := by
  have row : x.tables.imports[i]? = some (entryRecord entry).flatten := by simp [Program.tables, there]
  have place : importAt (x.image chk) i = x.importOffset + importSize * i := by
    rw [importAt, Program.image, header_imageOf fits.header small, Nat.mul_comm]
    rfl
  have record : readAt (x.importOffset + importSize * i) importSize (x.image chk) = (entryRecord entry).flatten := by
    apply readAt_table (k := 19) rfl _ even_imports row
    rw [before_imports, sections_length, Program.importOffset]
  have name : field (x.image chk) (x.importOffset + importSize * i) qtxNameMax = packString 24 (entry.1.take 24) := by
    have front := @readAt_readAt _ 0 24 (x.importOffset + importSize * i) importSize (by decide) (x.image chk)
    rw [record, Nat.add_zero] at front
    exact front.symm.trans (readAt_flatten (k := 0) rfl rfl (packString_length _ _))
  have patch : le (x.image chk) (x.importOffset + importSize * i + 24) 8 = entry.2 := by
    rw [le_record record (by decide)]
    exact le_part (k := 1) rfl (by simp [entryRecord, packString_length]) (fits.imports entry (List.mem_of_getElem? there))
  rw [import_, place, name, patch]

theorem image_length : (x.image chk).length = x.payloadOffset + x.payload.length := by
  have sections := sections_length (x := x)
  have imports := entries_length x.imports
  have symbols := entries_length x.symbols
  rw [Program.image, imageOf_split, List.length_append, List.length_append, frontBytes_length, pack_length, backBytes]
  simp only [List.length_append, pack_length, packString_length, sections]
  simp only [Program.tables, imports, symbols, Program.payloadOffset, Program.symbolOffset, Program.importOffset]
  change 56 + (4 + (4 + 24 + _ + _ + x.symbols.length * 32 + _)) = 88 + _ + _ + x.symbols.length * 32 + _
  omega

theorem field_image {offset size : Nat} : field (x.image chk) (x.payloadOffset + offset) size = readAt offset size x.payload := by
  have whole : x.image chk = ((imageParts x.header chk x.tables).take 21).flatten ++ x.payload := by
    simp [Program.image, imageOf, imageParts, headerParts, Program.tables]
  have front : ((imageParts x.header chk x.tables).take 21).flatten.length = x.payloadOffset := by
    have length : (x.image chk).length = _ := image_length
    rw [whole, List.length_append] at length
    exact Nat.add_right_cancel length
  change readAt _ _ _ = _
  rw [readAt_add, whole, ← front, List.drop_left]

end Records

section Sums
variable {x : Program} {chk : Nat} {body other : Bytes}

theorem checksumOf_eq : checksumOf body = computeChecksum body := by
  have indexed : body.zipIdx = (List.range body.length).map fun i => (body.getD i 0, i) := by
    apply List.ext_getElem
    · simp
    · intro i left right
      have inside : i < body.length := by simpa using right
      simp [inside]
  rw [checksumOf, computeChecksum, indexed, List.foldl_map]
  rfl

theorem computeChecksum_lt : computeChecksum body < 2 ^ 32 := by
  unfold computeChecksum
  have bound (indices : List Nat) (sum : Nat) (small : sum < 2 ^ 32) :
      indices.foldl (fun sum i => if 56 ≤ i ∧ i < 60 then sum else (sum + byteAt body i) % 2 ^ 32) sum < 2 ^ 32 := by
    induction indices generalizing sum with
    | nil => exact small
    | cons i indices ih =>
      rw [List.foldl_cons]
      apply ih
      split
      · exact small
      · exact Nat.mod_lt _ (by decide)
  exact bound _ 0 (by decide)

theorem computeChecksum_congr (length : body.length = other.length)
    (same : ∀ i, ¬ (56 ≤ i ∧ i < 60) → body[i]? = other[i]?) : computeChecksum body = computeChecksum other := by
  unfold computeChecksum
  rw [length]
  congr 1
  funext sum i
  split
  · rfl
  · rename_i outside
    rw [byteAt, byteAt, List.getD_eq_getElem?_getD, List.getD_eq_getElem?_getD, same i outside]

theorem checksum_image : computeChecksum (x.image chk) = computeChecksum (x.image 0) := by
  apply computeChecksum_congr
  · rw [image_length, image_length]
  · intro i outside
    have front := frontBytes_length (h := x.header)
    rw [Program.image, Program.image, imageOf_split, imageOf_split]
    by_cases early : i < 56
    · rw [List.getElem?_append_left (by omega), List.getElem?_append_left (by omega)]
    · have late (c : Nat) : (frontBytes x.header ++ (pack 4 c ++ backBytes x.header x.tables))[i]? =
          (backBytes x.header x.tables)[i - 60]? := by
        have past : 4 ≤ i - (frontBytes x.header).length := by omega
        have back : i - (frontBytes x.header).length - 4 = i - 60 := by omega
        rw [List.getElem?_append_right (by omega), List.getElem?_append_right (by rwa [pack_length]), pack_length, back]
      rw [late, late]

end Sums

/-- The program that build_qtx packs. -/
def programOf (elf : Elf) (name : Bytes) (flags : Nat) (imports : List (Bytes × Nat)) (stackSize fmt : Nat) : Program :=
  let payloadOffset := headerSize + (gather elf).1.length * sectionSize + imports.length * importSize +
    (keptSymbols elf).length * symbolSize
  { format := fmt
    flags := flags
    entry := elf.entry.toNat
    stackSize := stackSize
    name := name
    pieces := (gather elf).1.map (relocate payloadOffset)
    imports := imports
    symbols := keptSymbols elf
    payload := (gather elf).2 }

theorem mapM_some {α β : Type} {f : α → Option β} {g : α → β} {xs : List α} (each : ∀ a ∈ xs, f a = some (g a)) :
    xs.mapM f = some (xs.map g) := by
  induction xs with
  | nil => rfl
  | cons a xs ih =>
    have rest := ih fun b member => each b (List.mem_cons_of_mem _ member)
    simp [List.mapM_cons, each a List.mem_cons_self, rest]

/-- build_qtx once the sections and the symbols have their places. -/
def Program.packed (x : Program) : Option Bytes := do
  let header ← packHeader x.header
  let sectionTable ← x.pieces.mapM packSection
  let importTable ← x.imports.mapM packEntry
  let symbolTable ← x.symbols.mapM packEntry
  let body := header ++ sectionTable.flatten ++ importTable.flatten ++ symbolTable.flatten ++ x.payload
  return body.take 56 ++ pack 4 (checksumOf body) ++ body.drop 60

theorem packed_ok {x : Program} (fits : x.Fits) : x.packed = some (x.image (computeChecksum (x.image 0))) := by
  have sections : x.pieces.mapM packSection = some x.tables.sections :=
    mapM_some fun p member => packSection_ok (fits.pieces p member)
  have imports : x.imports.mapM packEntry = some x.tables.imports :=
    mapM_some fun entry member => packEntry_ok (fits.imports entry member)
  have symbols : x.symbols.mapM packEntry = some x.tables.symbols :=
    mapM_some fun entry member => packEntry_ok (fits.symbols entry member)
  have whole : (headerParts x.header 0).flatten ++ x.tables.sections.flatten ++ x.tables.imports.flatten ++
      x.tables.symbols.flatten ++ x.payload = imageOf x.header 0 x.tables := by
    simp [imageOf, imageParts, Program.tables]
  simp only [Program.packed, packHeader_ok fits.header, sections, imports, symbols, whole, checksumOf_eq, Option.bind_eq_bind,
    Option.bind_some, imageOf_patch]
  rfl

section Building
variable {elf : Elf} {name : Bytes} {flags stackSize fmt : Nat} {imports : List (Bytes × Nat)}

theorem programOf_payloadOffset : (programOf elf name flags imports stackSize fmt).payloadOffset =
    headerSize + (gather elf).1.length * sectionSize + imports.length * importSize +
      (keptSymbols elf).length * symbolSize := by
  simp [Program.payloadOffset, Program.symbolOffset, Program.importOffset, programOf]

theorem buildQtx_eq (some_ : (gather elf).1 ≠ []) : buildQtx elf name flags imports stackSize fmt =
    (programOf elf name flags imports stackSize fmt).packed := by
  have there : (gather elf).1.isEmpty = false := by simpa using some_
  simp only [buildQtx, there, Bool.false_eq_true, if_false, Program.packed, programOf, Program.header,
    Program.importOffset, Program.symbolOffset, Program.payloadOffset, List.length_map]

end Building

end Qito.Qtx
