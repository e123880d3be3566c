import Qito.Lib.Traces
import Qito.Lib.Words

/-! The loader of sys/qtx.c. An image is a list of bytes in the packed layout of
kernel/qtx.h; every access to it, and every store to the buffer it is loaded
into, is an event of the trace. -/
namespace Qito.Qtx
open Traces Words

abbrev Bytes := List UInt8

abbrev qtxVersion : Nat := 1
abbrev qtxMaxSections : Nat := 16
abbrev qtxMaxImports : Nat := 64
abbrev qtxMaxSymbols : Nat := 128
abbrev qtxNameMax : Nat := 24
abbrev qtxMachine : Nat := 0x8664

abbrev flagExecutable : Nat := 0x0001
abbrev flagLibrary : Nat := 0x0002

abbrev secWrite : Nat := 0x02
abbrev secExec : Nat := 0x04

abbrev sectionCode : Nat := 1
abbrev sectionBss : Nat := 4

abbrev headerSize : Nat := 88
abbrev sectionSize : Nat := 36
abbrev importSize : Nat := 32
abbrev symbolSize : Nat := 32

abbrev sizeLimit : Nat := 64 * 1024 * 1024

def byteAt (data : Bytes) (i : Nat) : Nat := (data.getD i 0).toNat

/-- The little-endian number in n bytes. -/
def le (data : Bytes) : Nat → Nat → Nat
  | _, 0 => 0
  | i, n + 1 => byteAt data i + 256 * le data (i + 1) n

/-- The bytes of a fixed field. -/
def field (data : Bytes) (i n : Nat) : Bytes := (data.drop i).take n

/-- How many bytes strlen reads, with the terminator. -/
def strlenReads (data : Bytes) (i : Nat) : Nat := ((data.drop i).takeWhile (· != 0)).length + 1

/-- struct qx_header. -/
structure Header where
  signature : Nat × Nat
  format : Nat
  version : Nat
  machine : Nat
  flags : Nat
  headerSize : Nat
  totalSize : Nat
  entryPoint : Nat
  sectionCount : Nat
  sectionOffset : Nat
  importCount : Nat
  importOffset : Nat
  symbolCount : Nat
  symbolOffset : Nat
  checksum : Nat
  name : Bytes

def header (data : Bytes) : Header where
  signature := (byteAt data 0, byteAt data 1)
  format := byteAt data 2
  version := byteAt data 3
  machine := le data 4 2
  flags := le data 6 2
  headerSize := le data 8 4
  totalSize := le data 12 4
  entryPoint := le data 16 8
  sectionCount := le data 32 4
  sectionOffset := le data 36 4
  importCount := le data 40 4
  importOffset := le data 44 4
  symbolCount := le data 48 4
  symbolOffset := le data 52 4
  checksum := le data 56 4
  name := field data 64 qtxNameMax

/-- struct qtx_section. -/
structure Section where
  kind : Nat
  flags : Nat
  virtualAddress : Nat
  fileOffset : Nat
  fileSize : Nat
  memorySize : Nat

def sectionAt (data : Bytes) (i : Nat) : Nat := (header data).sectionOffset + i * sectionSize

def section_ (data : Bytes) (i : Nat) : Section where
  kind := byteAt data (sectionAt data i + 12)
  flags := byteAt data (sectionAt data i + 13)
  virtualAddress := le data (sectionAt data i + 16) 8
  fileOffset := le data (sectionAt data i + 24) 4
  fileSize := le data (sectionAt data i + 28) 4
  memorySize := le data (sectionAt data i + 32) 4

/-- struct qtx_import. -/
structure Import where
  name : Bytes
  patchAddress : Nat

def importAt (data : Bytes) (i : Nat) : Nat := (header data).importOffset + i * importSize

def import_ (data : Bytes) (i : Nat) : Import where
  name := field data (importAt data i) qtxNameMax
  patchAddress := le data (importAt data i + 24) 8

/-- An access to the image, or to a buffer of size bytes. -/
inductive Touch where
  | read (offset len : Nat)
  | store (size offset len : Nat)
deriving DecidableEq

inductive LoadError where
  | rejected (reason : String)
  | noAddressableContent
  | spanTooLarge
  | noMemory
  | unresolvedImport (name : Bytes)
  | patchesOutside (name : Bytes)

abbrev Loading := Traced LoadError Touch

@[grind =]
def require (condition : Bool) (reason : String) : Loading Unit := ensure condition (.rejected reason)

def inBounds (offset length len : Nat) : Bool :=
  decide (offset ≤ len) && decide (length ≤ len) && decide (wrap64 (offset + length) ≤ len)

def has (flags bit : Nat) : Bool := flags &&& bit != 0

def computeChecksum (data : Bytes) : Nat :=
  (List.range data.length).foldl
    (fun sum i => if 56 ≤ i ∧ i < 60 then sum else (sum + byteAt data i) % 2 ^ 32) 0

def endOf (s : Section) : Nat := wrap64 (s.virtualAddress + s.memorySize)

/-- One round of the loop over the sections; the accumulator is has_code. -/
def validateSection (data : Bytes) (hasCode : Bool) (i : Nat) : Loading Bool := do
  emit (.read (sectionAt data i) sectionSize)
  let s := section_ data i
  require (decide (s.fileSize ≤ s.memorySize)) "section memory less than file"
  require (decide (s.memorySize ≤ sizeLimit)) "section implausibly large"
  require (decide (s.kind = sectionBss) || inBounds s.fileOffset s.fileSize data.length) "section data out of bounds"
  require (decide (s.kind ≠ sectionCode) || has s.flags secExec) "code section not executable"
  require (!(has s.flags secWrite && has s.flags secExec)) "section both writable and executable"
  pure (hasCode || decide (s.kind = sectionCode))

/-- One round of the search for the section of the entry point. -/
def entryInside (data : Bytes) (found : Bool) (i : Nat) : Loading Bool :=
  if found then pure true
  else do
    emit (.read (sectionAt data i) sectionSize)
    let s := section_ data i
    pure (has s.flags secExec && decide (s.virtualAddress ≤ (header data).entryPoint) &&
      decide ((header data).entryPoint < endOf s))

def validateExecutable (data : Bytes) (hasCode : Bool) : Loading Unit := do
  let h := header data
  require (!has h.flags flagExecutable || hasCode) "executable has no code"
  require (!has h.flags flagExecutable || decide (h.entryPoint ≠ 0)) "executable has no entry"
  if h.entryPoint ≠ 0 then do
    let found ← fold (entryInside data) false (List.range h.sectionCount)
    require found "entry point not inside executable section"
  else pure ()

def validateLibrary (data : Bytes) : Loading Unit := do
  let h := header data
  require (decide (h.entryPoint = 0)) "QDL must have no entry point"
  require (has h.flags flagLibrary) "QDL must set library flag"

def validateKind (data : Bytes) (hasCode : Bool) : Loading Unit :=
  if (header data).format = 0x58 then validateExecutable data hasCode else validateLibrary data

/-- The name of an import, read up to its terminator. -/
def validateImport (data : Bytes) (_ : Unit) (i : Nat) : Loading Unit := do
  let name := (import_ data i).name
  emit (.read (importAt data i) (min qtxNameMax ((name.takeWhile (· != 0)).length + 1)))
  require (name.contains 0) "import name not terminated"

def validateHeader (data : Bytes) : Loading Unit := do
  require (decide (headerSize ≤ data.length)) "file smaller than QX header"
  emit (.read 0 headerSize)
  let h := header data
  require (decide (h.signature = (0x51, 0x58))) "missing QX signature"
  require (decide (h.format = 0x58 ∨ h.format = 0x44)) "not a QTX or QDL image (format byte must be X or D)"
  require (decide (h.version = qtxVersion)) "unsupported QTX version"
  require (decide (h.machine = qtxMachine)) "built for different machine"
  require (decide (h.headerSize = headerSize)) "header size mismatch"
  require (decide (h.totalSize = data.length)) "recorded size mismatch"
  require (decide (h.sectionCount ≠ 0 ∧ h.sectionCount ≤ qtxMaxSections)) "section count out of range"
  require (decide (h.importCount ≤ qtxMaxImports)) "too many imports"
  require (decide (h.symbolCount ≤ qtxMaxSymbols)) "too many symbols"
  require (inBounds h.sectionOffset (h.sectionCount * sectionSize) data.length) "section table out of bounds"
  require (decide (h.importCount = 0) || inBounds h.importOffset (h.importCount * importSize) data.length)
    "import table out of bounds"
  require (decide (h.symbolCount = 0) || inBounds h.symbolOffset (h.symbolCount * symbolSize) data.length)
    "symbol table out of bounds"

def qtxValidate (data : Bytes) : Loading Unit := do
  validateHeader data
  let h := header data
  let hasCode ← fold (validateSection data) false (List.range h.sectionCount)
  validateKind data hasCode
  fold (validateImport data) () (List.range h.importCount)
  emit (.read 0 data.length)
  require (decide (computeChecksum data = h.checksum)) "checksum mismatch"

/-- One round of the loop for lowest and highest. -/
def widen (acc : Nat × Nat) (s : Section) : Nat × Nat :=
  (if s.virtualAddress < acc.1 then s.virtualAddress else acc.1, if endOf s > acc.2 then endOf s else acc.2)

def bounds (sections : List Section) : Nat × Nat := sections.foldl widen (2 ^ 64 - 1, 0)

def sections (data : Bytes) : List Section := (List.range (header data).sectionCount).map (section_ data)

/-- What lies outside this file: the allocator, the addresses of the exported
services, the libraries loaded when the i-th import is looked up, and the index
of the library that provides it. -/
structure Env where
  kzalloc : Nat → Option Nat
  address : String → Nat
  library : Nat → Bytes → Option Nat
  provider : Nat → Bytes → Option Int

def exports : List String :=
  ["console_write", "console_puts", "console_clear", "kmalloc", "kzalloc", "kfree", "strlen", "strcmp", "strlcpy",
    "strlcat", "memcpy", "memset", "snprintf", "fs_read_file", "fs_write_file", "fs_lookup", "fs_unlink", "fs_mkdir",
    "time_uptime_ms", "time_sleep_ms", "rtc_unix_time", "sched_yield", "sched_sleep_ms", "sched_current_pid",
    "qti_load", "qti_draw", "qti_free", "qti_get", "qdl_resolve_symbol"]

def ascii (s : String) : Bytes := s.toList.map fun c => UInt8.ofNat c.toNat

theorem ascii_ofList (cs : List Char) : ascii (String.ofList cs) = cs.map fun c => UInt8.ofNat c.toNat := by
  rw [ascii, String.toList_ofList]

/-- The bytes of a name before its terminator. -/
def cstr (name : Bytes) : Bytes := name.takeWhile (· != 0)

def qtxResolveExport (env : Env) (name : Bytes) : Option Nat :=
  (exports.find? fun e => ascii e == cstr name).map env.address

def resolveImport (env : Env) (i : Nat) (name : Bytes) : Option Nat :=
  (qtxResolveExport env name).or (env.library i (cstr name))

/-- The buffer and the libraries retained so far. -/
structure Loaded where
  buffer : Nat → UInt8
  deps : List Int

def storeBytes (buffer : Nat → UInt8) (offset : Nat) (bytes : Bytes) : Nat → UInt8 := fun k =>
  if offset ≤ k ∧ k < offset + bytes.length then bytes.getD (k - offset) 0 else buffer k

/-- n as a little-endian number of width bytes. -/
def number (n width : Nat) : Bytes := (List.range width).map fun k => UInt8.ofNat (n / 256 ^ k)

def copySection (data : Bytes) (lowest span : Nat) (loaded : Loaded) (i : Nat) : Loading Loaded := do
  emit (.read (sectionAt data i) sectionSize)
  let s := section_ data i
  if s.kind ≠ sectionBss ∧ s.fileSize ≠ 0 then do
    emit (.read s.fileOffset s.fileSize)
    emit (.store span (sub64 s.virtualAddress lowest) s.fileSize)
    pure { loaded with
      buffer := storeBytes loaded.buffer (sub64 s.virtualAddress lowest) (field data s.fileOffset s.fileSize) }
  else pure loaded

def retain (deps : List Int) : Option Int → List Int
  | none => deps
  | some index => if index ∉ deps ∧ deps.length < 8 ∧ 0 ≤ index then deps ++ [index] else deps

@[grind =]
def linkImport (env : Env) (data : Bytes) (lowest highest span : Nat) (loaded : Loaded) (i : Nat) : Loading Loaded := do
  emit (.read (importAt data i) (strlenReads data (importAt data i)))
  let m := import_ data i
  match resolveImport env i m.name with
  | none => fail (.unresolvedImport m.name)
  | some target => do
    emit (.read (importAt data i + 24) 8)
    if m.patchAddress < lowest ∨ wrap64 (m.patchAddress + 8) > highest then fail (.patchesOutside m.name)
    else do
      emit (.store span (sub64 m.patchAddress lowest) 8)
      pure
        { buffer := storeBytes loaded.buffer (sub64 m.patchAddress lowest) (number target 8)
          deps := retain loaded.deps (env.provider i (cstr m.name)) }

/-- struct qtx_image, with what the buffer holds. -/
structure Image where
  name : Bytes
  base : Nat
  size : Nat
  entry : Nat
  flags : Nat
  sectionCount : Nat
  importCount : Nat
  symbolCount : Nat
  deps : List Int
  buffer : Nat → UInt8

def readSection (data : Bytes) (_ : Unit) (i : Nat) : Loading Unit := emit (.read (sectionAt data i) sectionSize)

/-- qtx_load_memory once the buffer is there. -/
def loadInto (env : Env) (data : Bytes) (lowest highest base : Nat) : Loading Image := do
  let h := header data
  let span := highest - lowest
  let copied ← fold (copySection data lowest span) ⟨fun _ => 0, []⟩ (List.range h.sectionCount)
  let linked ← fold (linkImport env data lowest highest span) copied (List.range h.importCount)
  emit (.read 64 (strlenReads data 64))
  pure
    { name := (cstr (data.drop 64)).take (qtxNameMax - 1)
      base := base
      size := span
      entry := if h.entryPoint ≠ 0 then wrap64 (base + sub64 h.entryPoint lowest) else 0
      flags := h.flags
      sectionCount := h.sectionCount
      importCount := h.importCount
      symbolCount := h.symbolCount
      deps := linked.deps
      buffer := linked.buffer }

def qtxLoadMemory (env : Env) (data : Bytes) : Loading Image := do
  qtxValidate data
  fold (readSection data) () (List.range (header data).sectionCount)
  let lowest := (bounds (sections data)).1
  let highest := (bounds (sections data)).2
  ensure (decide (lowest < highest)) .noAddressableContent
  ensure (decide (highest - lowest ≤ sizeLimit)) .spanTooLarge
  match env.kzalloc (highest - lowest) with
  | none => fail .noMemory
  | some base => loadInto env data lowest highest base

end Qito.Qtx
