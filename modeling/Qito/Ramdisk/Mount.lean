import Qito.Lib.Faults
import Qito.Lib.Packed
import Qito.Vfs.Model

/-! fs_mount_ramdisk of fs/qitofs.c. The image is the sequence of bytes handed
over with its length, and a read of a byte that is not in it is a fault. What the
loader asks of the filesystem and the allocator is an interface. -/
namespace Qito.Ramdisk
open Buffers Faults Packed Words

abbrev Bytes := List UInt8

def qitofsMagic : Bytes := Vfs.ascii "QITOFS01"
abbrev qitofsVersion : Nat := 1

abbrev typeFile : Nat := 1
abbrev typeDir : Nat := 2

abbrev headerSize : Nat := 72
abbrev entrySize : Nat := 232

abbrev qeIo : Int := 5

/-- Why the loader does not return: bytes of the image that are not there, or a
call that does not come back. -/
inductive Fault where
  | outside (offset len : Nat)
  | stuck
deriving DecidableEq

/-- len bytes from offset on. A range that would wrap around the address space
holds its last address, and no image does. -/
def bytesAt (image : Bytes) (offset len : Nat) : Except Fault Bytes :=
  if offset + len ≤ image.length then .ok (readAt offset len image) else .error (.outside offset len)

def field (image : Bytes) (offset width : Nat) : Nat := unpack (readAt offset width image)

def wordAt (image : Bytes) (offset width : Nat) : Except Fault Nat := do
  return unpack (← bytesAt image offset width)

/-- The string strlen finds at offset; it reads up to the terminator. -/
def stringAt (image : Bytes) (offset : Nat) : Except Fault Bytes :=
  if 0 ∈ image.drop offset then .ok ((image.drop offset).takeWhile (· != 0))
  else .error (.outside offset (image.length + 1 - offset))

/-- The fields of struct qitofs_header that the loader decides on. -/
structure Header where
  magic : Bytes
  version : Nat
  entryCount : Nat
  totalSize : Nat
  dataOffset : Nat
  checksum : Nat

def readHeader (image : Bytes) : Except Fault Header := do
  return {
    magic := ← bytesAt image 0 8
    version := ← wordAt image 8 4
    entryCount := ← wordAt image 12 4
    totalSize := ← wordAt image 16 8
    dataOffset := ← wordAt image 24 8
    checksum := ← wordAt image 36 4 }

/-- What the loader asks of the rest of the kernel; none where a call does not
return. kmalloc stores what it got in the node, and copy fills it. -/
structure Filesystem (σ ν : Type) where
  lookup : σ → Bytes → Option (Option ν)
  mkdir : σ → Bytes → Nat → Option (Int × σ)
  create : σ → Bytes → Nat → Option (Option ν × σ)
  kmalloc : σ → ν → Nat → Bool × σ
  copy : σ → ν → Bytes → σ
  describe : σ → ν → Nat → Nat → Nat → Nat → σ

variable {σ ν : Type}

def call {α : Type} : Option α → Except Fault α
  | some a => .ok a
  | none => .error .stuck

def entryAt (i : Nat) : Nat := headerSize + entrySize * i

/-- Where the data of an entry starts, by the pointer arithmetic of the loader. -/
def dataAt (header : Header) (offset : Nat) : Nat := wrap64 (header.dataOffset + offset)

/-- One round of the checksum loop. -/
def sumEntry (image : Bytes) (header : Header) (checksum i : Nat) : Except Fault Nat := do
  if (← wordAt image (entryAt i + 192) 4) ≠ typeFile then return checksum
  else
    let size ← wordAt image (entryAt i + 200) 8
    if size = 0 then return checksum
    else
      let offset ← wordAt image (entryAt i + 208) 8
      let data ← bytesAt image (dataAt header offset) size
      return (checksum + (data.map UInt8.toNat).sum) % 2 ^ 32

def ensureParent (F : Filesystem σ ν) (s : σ) (path : Bytes) : Except Fault σ :=
  match Vfs.splitLast path with
  | none => return s
  | some (parent, _) =>
    if parent = [] then return s
    else do
      match ← call (F.lookup s parent) with
      | some _ => return s
      | none =>
        let (_, s) ← call (F.mkdir s parent 0o755)
        return s

def fileNode (F : Filesystem σ ν) (image : Bytes) (i : Nat) (s : σ) (path : Bytes) : Except Fault (Option ν × σ) := do
  match ← call (F.lookup s path) with
  | some node => return (some node, s)
  | none => call (F.create s path (← wordAt image (entryAt i + 196) 4))

/-- The bytes of a file and what its entry says of it. -/
def fillNode (F : Filesystem σ ν) (image : Bytes) (header : Header) (i offset size : Nat) (s : σ) (node : ν) :
    Except Fault σ := do
  let describe (s : σ) : Except Fault σ := do
    return F.describe s node (← wordAt image (entryAt i + 196) 4) (← wordAt image (entryAt i + 216) 8)
      (← wordAt image (entryAt i + 224) 4) (← wordAt image (entryAt i + 228) 4)
  if size = 0 then describe s
  else
    match F.kmalloc s node size with
    | (false, s) => return s
    | (true, s) => describe (F.copy s node (← bytesAt image (dataAt header offset) size))

def unpackFile (F : Filesystem σ ν) (image : Bytes) (header : Header) (i : Nat) (s : σ) (path : Bytes) : Except Fault σ := do
  let offset ← wordAt image (entryAt i + 208) 8
  let size ← wordAt image (entryAt i + 200) 8
  if wrap64 (offset + size) > sub64 header.totalSize header.dataOffset then return s
  else
    let s ← ensureParent F s path
    match ← fileNode F image i s path with
    | (none, s) => return s
    | (some node, s) => fillNode F image header i offset size s node

def unpackDir (F : Filesystem σ ν) (image : Bytes) (i : Nat) (s : σ) (path : Bytes) : Except Fault σ := do
  match ← call (F.lookup s path) with
  | some _ => return s
  | none =>
    let (_, s) ← call (F.mkdir s path (← wordAt image (entryAt i + 196) 4))
    return s

/-- One round of the loop that fills the filesystem. -/
def unpackEntry (F : Filesystem σ ν) (image : Bytes) (header : Header) (s : σ) (i : Nat) : Except Fault σ := do
  let path := Vfs.strlcpy (← stringAt image (entryAt i)) Vfs.fsPathMax
  if (← wordAt image (entryAt i + 192) 4) = typeDir then unpackDir F image i s path
  else unpackFile F image header i s path

def fsMountRamdisk (F : Filesystem σ ν) (image : Option Bytes) (s : σ) : Except Fault (Int × σ) :=
  match image with
  | none => return (-Vfs.qeInval, s)
  | some image => do
    if image.length < headerSize then return (-Vfs.qeInval, s)
    else
      let header ← readHeader image
      if header.magic ≠ qitofsMagic then return (-Vfs.qeInval, s)
      else if header.version ≠ qitofsVersion then return (-Vfs.qeInval, s)
      else if header.totalSize > image.length then return (-Vfs.qeInval, s)
      else
        let checksum ← (List.range header.entryCount).foldlM (sumEntry image header) 0
        if checksum ≠ header.checksum then return (-qeIo, s)
        else
          let s ← (List.range header.entryCount).foldlM (unpackEntry F image header) s
          let _label ← bytesAt image 40 32
          return (0, s)

end Qito.Ramdisk
