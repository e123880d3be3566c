import Qito.Lib.Bitmaps
import Qito.Lib.Words

/-! The physical memory manager of mm/pmm.c. A frame is its number, a run of
frames its first one and their count. The contents of the frames and the
statistics over the memory map are not part of the state. -/
namespace Qito.Mm
open Words Bitmaps

abbrev pageSize : Nat := 4096

/-- The first frame above the real mode memory and the BIOS, 0x100000 / PAGE_SIZE. -/
abbrev lowFrames : Nat := 256

abbrev memUsable : Nat := 1

structure MmapEntry where
  base : Nat
  length : Nat
  type : Nat

structure BootInfo where
  mmap : List MmapEntry
  ramdiskPhys : Nat
  ramdiskSize : Nat
  fbValid : Bool
  fbAddr : Nat
  fbPitch : Nat
  fbHeight : Nat
  /-- The linker's symbols. -/
  kernelPhysStart : Nat
  kernelPhysEnd : Nat

structure Pmm where
  frameBitmap : Bitmap
  frameCount : Nat
  usedFrames : Nat
  lastAllocHint : Nat

def reserveFrame (s : Pmm) (frame : Nat) : Pmm :=
  if s.frameBitmap.test frame then s
  else { s with frameBitmap := s.frameBitmap.set frame, usedFrames := s.usedFrames + 1 }

def releaseFrame (s : Pmm) (frame : Nat) : Pmm :=
  if s.frameBitmap.test frame then
    { s with frameBitmap := s.frameBitmap.clear frame, usedFrames := s.usedFrames - 1 }
  else s

/-- The frames from first to last that the bitmap tracks. -/
def tracked (s : Pmm) (first last : Nat) : List Nat := List.range' first (min last s.frameCount - first)

def pmmReserveRegion (s : Pmm) (base length : Nat) : Pmm :=
  if length = 0 then s
  else (tracked s (base / pageSize) (wrap64 (base + length + pageSize - 1) / pageSize)).foldl reserveFrame s

def regionEnd (e : MmapEntry) : Nat := wrap64 (e.base + e.length)

def highestUsable (mmap : List MmapEntry) : Nat :=
  mmap.foldl (fun highest e => if e.type = memUsable ∧ regionEnd e > highest then regionEnd e else highest) 0

def kernelEnd (boot : BootInfo) : Nat := alignUp boot.kernelPhysEnd pageSize

def ramdiskEnd (boot : BootInfo) : Nat := wrap64 (boot.ramdiskPhys + boot.ramdiskSize)

/-- Where a bitmap could start in a usable region. -/
def bitmapBase (boot : BootInfo) (e : MmapEntry) : Nat :=
  let base := alignUp e.base pageSize
  let base := if base < 0x100000 then 0x100000 else base
  let base := if base < kernelEnd boot ∧ regionEnd e > boot.kernelPhysStart then kernelEnd boot else base
  if boot.ramdiskSize ≠ 0 ∧ base < ramdiskEnd boot ∧ regionEnd e > boot.ramdiskPhys then
    alignUp (ramdiskEnd boot) pageSize
  else base

/-- The first region with room for the bitmap, 0 without one. -/
def placeBitmap (boot : BootInfo) (bytes : Nat) : List MmapEntry → Nat
  | [] => 0
  | e :: rest =>
    if e.type = memUsable ∧ wrap64 (bitmapBase boot e + bytes) ≤ regionEnd e ∧
        wrap64 (bitmapBase boot e + bytes) ≤ 0x100000000 then bitmapBase boot e
    else placeBitmap boot bytes rest

def releaseRegion (s : Pmm) (e : MmapEntry) : Pmm :=
  if e.type = memUsable then
    (tracked s (alignUp e.base pageSize / pageSize) (regionEnd e / pageSize)).foldl releaseFrame s
  else s

def frameCountOf (boot : BootInfo) : Nat := min (highestUsable boot.mmap) 0x100000000 / pageSize

def bitmapBytes (boot : BootInfo) : Nat := (frameCountOf boot + 7) / 8

/-- Everything is allocated before the usable regions are released. -/
def allReserved (boot : BootInfo) : Pmm where
  frameBitmap := fun byte => if byte < bitmapBytes boot then 0xFF#8 else 0
  frameCount := frameCountOf boot
  usedFrames := frameCountOf boot
  lastAllocHint := 0

def reserveRamdisk (boot : BootInfo) (s : Pmm) : Pmm :=
  if boot.ramdiskSize ≠ 0 then pmmReserveRegion s boot.ramdiskPhys boot.ramdiskSize else s

def reserveFramebuffer (boot : BootInfo) (s : Pmm) : Pmm :=
  if boot.fbValid ∧ boot.fbAddr < min (highestUsable boot.mmap) 0x100000000 then
    pmmReserveRegion s boot.fbAddr (boot.fbPitch * boot.fbHeight)
  else s

/-- None is the panic for want of room for the bitmap. -/
def pmmInit (boot : BootInfo) : Option Pmm :=
  let bitmapPhys := placeBitmap boot (bitmapBytes boot) boot.mmap
  if bitmapPhys = 0 then none
  else
    let s := boot.mmap.foldl releaseRegion (allReserved boot)
    let s := pmmReserveRegion s 0 0x100000
    let s := pmmReserveRegion s boot.kernelPhysStart (sub64 (kernelEnd boot) boot.kernelPhysStart)
    let s := pmmReserveRegion s bitmapPhys (bitmapBytes boot)
    let s := reserveRamdisk boot s
    let s := pmmReserveRegion s 0x20000 (6 * pageSize)
    let s := reserveFramebuffer boot s
    some { s with lastAllocHint := lowFrames }

/-- How many of the next count frames are free before the first that is not. -/
def freeRun (b : Bitmap) (frame : Nat) : Nat → Nat
  | 0 => 0
  | count + 1 => if b.test frame then 0 else freeRun b (frame + 1) count + 1

/-- One pass of the first-fit search. -/
def searchRun (b : Bitmap) (count limit frame : Nat) : Option Nat :=
  if frame + count ≤ limit then
    if b.test frame then searchRun b count limit (frame + 1)
    else if freeRun b frame count = count then some frame
    else searchRun b count limit (frame + freeRun b frame count + 1)
  else none
termination_by limit + 1 - frame

/-- The address of the run, 0 where there is none. -/
def pmmAllocPages (s : Pmm) (count : Nat) : Nat × Pmm :=
  if count = 0 then (0, s)
  else
    match searchRun s.frameBitmap count s.frameCount s.lastAllocHint <|>
        searchRun s.frameBitmap count s.lastAllocHint lowFrames with
    | none => (0, s)
    | some frame => (frame * pageSize, { s with
        frameBitmap := s.frameBitmap.setRun frame count
        usedFrames := s.usedFrames + count
        lastAllocHint := frame + count })

def pmmAllocPage (s : Pmm) : Nat × Pmm := pmmAllocPages s 1

def pmmFreePages (s : Pmm) (addr count : Nat) : Pmm :=
  if addr = 0 ∨ count = 0 then s
  else
    let frame := addr / pageSize
    let t := (tracked s frame (frame + count)).foldl releaseFrame s
    { t with lastAllocHint := if frame < s.lastAllocHint then frame else s.lastAllocHint }

def pmmFreePage (s : Pmm) (addr : Nat) : Pmm := pmmFreePages s addr 1

end Qito.Mm
