import Qito.Lib.Packed

/-! QTI icons: the decoder of gfx/qti.c, the encoders of tools/mkqti.py, and the
file that Paint saves. A decoder returns none for -1; memory says whether the
pixels of the image can be allocated. -/
namespace Qito.Gfx
open Buffers Packed

abbrev qtiMaxFrames : Nat := 5
abbrev qtiMaxDim : Nat := 256
abbrev qtiHeaderSize : Nat := 32
abbrev qtiEntrySize : Nat := 16
abbrev qtiRaw : Nat := 0
abbrev qtiRle : Nat := 1
abbrev qtiIndex : Nat := 2

/-- The bytes QTI1. -/
def qtiMagic : List UInt8 := [81, 84, 73, 49]

structure QtiHeader where
  frameCount : Nat
  payloadSize : Nat
  checksum : Nat

structure QtiEntry where
  width : Nat
  height : Nat
  encoding : Nat
  paletteSize : Nat
  offset : Nat
  size : Nat

structure QtiImage where
  width : Nat
  height : Nat
  pixels : List UInt32

def fieldAt (data : List UInt8) (offset width : Nat) : Nat := unpack (readAt offset width data)

def qtiProbe (data : List UInt8) : Option QtiHeader :=
  if data.length < qtiHeaderSize then none
  else if readAt 0 4 data ≠ qtiMagic then none
  else if fieldAt data 4 2 ≠ 1 then none
  else if fieldAt data 6 2 = 0 ∨ fieldAt data 6 2 > qtiMaxFrames then none
  else if fieldAt data 8 4 > 4 * 1024 * 1024 then none
  else some { frameCount := fieldAt data 6 2, payloadSize := fieldAt data 8 4, checksum := fieldAt data 12 4 }

/-- An entry of the table, from its 16 bytes. -/
def entryOf (data : List UInt8) : QtiEntry where
  width := fieldAt data 0 2
  height := fieldAt data 2 2
  encoding := fieldAt data 4 1
  paletteSize := fieldAt data 5 1
  offset := fieldAt data 8 4
  size := fieldAt data 12 4

/-- Four bytes, blue first. -/
def pixelOf (bytes : List UInt8) : UInt32 := UInt32.ofNat (unpack bytes)

/-- The loop over the runs, and the pixels written so far. -/
def readRuns (pixelCount : Nat) : List UInt32 → List UInt8 → List UInt32
  | written, count :: b :: g :: r :: a :: rest =>
    if written.length < pixelCount then
      if count = 0 then written
      else readRuns pixelCount (written ++ List.replicate (min count.toNat (pixelCount - written.length)) (pixelOf [b, g, r, a])) rest
    else written
  | written, _ => written

def decodeRaw (pixelCount : Nat) (src : List UInt8) : Option (List UInt32) :=
  if src.length < pixelCount * 4 then none
  else some ((List.range pixelCount).map fun i => pixelOf (readAt (i * 4) 4 src))

def decodeRle (pixelCount : Nat) (src : List UInt8) : List UInt32 :=
  let written := readRuns pixelCount [] src
  written ++ List.replicate (pixelCount - written.length) 0

def decodeIndex (pixelCount paletteSize : Nat) (src : List UInt8) : Option (List UInt32) :=
  let paletteSize := if paletteSize = 0 then 256 else paletteSize
  let tableBytes := paletteSize * 4
  if src.length < tableBytes + pixelCount then none
  else
    let palette := (List.range paletteSize).map fun i => pixelOf (readAt (i * 4) 4 src)
    some ((List.range pixelCount).map fun i =>
      let idx := (src.getD (tableBytes + i) 0).toNat
      if idx < paletteSize then palette.getD idx 0 else 0)

/-- The switch of decode_frame over the encoding. -/
def decodePixels (pixelCount encoding paletteSize : Nat) (src : List UInt8) : Option (List UInt32) :=
  if encoding = qtiRaw then decodeRaw pixelCount src
  else if encoding = qtiRle then some (decodeRle pixelCount src)
  else if encoding = qtiIndex then decodeIndex pixelCount paletteSize src
  else none

def decodeFrame (memory : Bool) (entry : QtiEntry) (payload : List UInt8) : Option QtiImage :=
  if entry.width = 0 ∨ entry.height = 0 ∨ entry.width > qtiMaxDim ∨ entry.height > qtiMaxDim then none
  else if entry.offset + entry.size > payload.length then none
  else if !memory then none
  else
    let src := readAt entry.offset entry.size payload
    let pixels := decodePixels (entry.width * entry.height) entry.encoding entry.paletteSize src
    pixels.map fun pixels => { width := entry.width, height := entry.height, pixels := pixels }

/-- One round of the search for the entry closest to the preferred size. -/
def closer (entries : List QtiEntry) (preferred : Int) (best : Nat × Nat) (i : Nat) : Nat × Nat :=
  let width := (entries.map QtiEntry.width).getD i 0
  let diff := ((width : Int) - preferred).natAbs
  if diff < best.2 ∨ diff = best.2 ∧ width > (entries.map QtiEntry.width).getD best.1 0 then (i, diff) else best

def qtiDecode (memory : Bool) (data : List UInt8) (preferred : Int) : Option QtiImage := do
  let header ← qtiProbe data
  let tableBytes := header.frameCount * qtiEntrySize
  if data.length < qtiHeaderSize + tableBytes then none
  else
    let entries := (List.range header.frameCount).map fun i => entryOf (readAt (qtiHeaderSize + qtiEntrySize * i) qtiEntrySize data)
    let payload := data.drop (qtiHeaderSize + tableBytes)
    let sum := (payload.map UInt8.toNat).sum % 2 ^ 32
    if sum ≠ header.checksum then none
    else if entries.any fun e => decide ((e.offset + e.size) % 2 ^ 32 > payload.length) || e.width == 0 || e.height == 0 || decide (e.encoding > 2) then none
    else
      let best := (List.range header.frameCount).foldl (closer entries preferred) (0, 0x7FFF)
      decodeFrame memory ((entries.getD best.1 ⟨0, 0, 0, 0, 0, 0⟩)) payload

/-- The four bytes of a pixel, blue first. -/
def bgra (p : UInt32) : List UInt8 := pack 4 p.toNat

def encodeRaw (pixels : List UInt32) : List UInt8 := pixels.flatMap bgra

/-- encode_rle from inside a run: the pixel of the run and its length so far. -/
def encodeRun (pix : UInt32) : Nat → List UInt32 → List UInt8
  | run, [] => UInt8.ofNat run :: bgra pix
  | run, p :: rest =>
    if p = pix ∧ run < 255 then encodeRun pix (run + 1) rest
    else UInt8.ofNat run :: bgra pix ++ encodeRun p 1 rest

def encodeRle : List UInt32 → List UInt8
  | [] => []
  | p :: rest => encodeRun p 1 rest

/-- The palette of encode_indexed, in the order the colours come up. -/
def paletteOf : List UInt32 → List UInt32 → Option (List UInt32)
  | palette, [] => some palette
  | palette, pix :: rest =>
    if pix ∈ palette then paletteOf palette rest
    else if palette.length ≥ 256 then none
    else paletteOf (palette ++ [pix]) rest

def encodeIndexed (pixels : List UInt32) : Option (List UInt8 × Nat) :=
  (paletteOf [] pixels).map fun palette =>
    (palette.flatMap bgra ++ pixels.map fun pix => UInt8.ofNat (palette.idxOf pix), palette.length)

/-- An encoded frame: its encoding, its data and the palette size of its entry. -/
structure Encoded where
  encoding : Nat
  data : List UInt8
  paletteSize : Nat

def candidates (pixels : List UInt32) : List Encoded :=
  [⟨qtiRaw, encodeRaw pixels, 0⟩, ⟨qtiRle, encodeRle pixels, 0⟩] ++
    ((encodeIndexed pixels).map fun (data, size) => ⟨qtiIndex, data, size % 256⟩).toList

def bestEncoding (pixels : List UInt32) : Encoded :=
  ((candidates pixels).mergeSort fun a b => decide (a.data.length ≤ b.data.length)).headD ⟨0, [], 0⟩

def packEntry (size encoding paletteSize offset length : Nat) : List UInt8 :=
  pack 2 size ++ pack 2 size ++ pack 1 encoding ++ pack 1 paletteSize ++ pack 2 0 ++ pack 4 offset ++ pack 4 length

/-- A field of 12 characters. -/
def packName (name : List UInt8) : List UInt8 := (name ++ List.replicate 12 0).take 12

def packHeader (frameCount payloadSize checksum : Nat) (name : List UInt8) : List UInt8 :=
  qtiMagic ++ pack 2 1 ++ pack 2 frameCount ++ pack 4 payloadSize ++ pack 4 checksum ++ pack 4 0 ++ packName name

/-- One round of the loop of build over the sizes: the entries and the payload. -/
def addFrame (frames : Nat → List UInt32) (built : List UInt8 × List UInt8) (size : Nat) : List UInt8 × List UInt8 :=
  let best := bestEncoding (frames size)
  (built.1 ++ packEntry size best.encoding best.paletteSize built.2.length best.data.length, built.2 ++ best.data)

/-- build: the keys of the dictionary, and the pixels under each. -/
def build (keys : List Nat) (frames : Nat → List UInt32) (name : List UInt8) : List UInt8 :=
  let sizes := (keys.mergeSort fun a b => decide (b ≤ a)).take 5
  let built := sizes.foldl (addFrame frames) ([], [])
  packHeader sizes.length built.2.length ((built.2.map UInt8.toNat).sum % 2 ^ 32) name ++ built.1 ++ built.2

abbrev canvasSize : Nat := 32
abbrev paintFileSize : Nat := 16384
abbrev paintPayloadAt : Nat := qtiHeaderSize + 3 * qtiEntrySize

/-- The loop variables of save_qac within a frame; payload is what stands in the
file from payload_at up to position. -/
structure Saving where
  payload : List UInt8
  previous : UInt32
  run : Nat
  started : Bool

def paintPixel (s : Saving) (pixel : UInt32) : Option Saving :=
  if !s.started then some { s with previous := pixel, run := 1, started := true }
  else if pixel = s.previous ∧ s.run < 255 then some { s with run := s.run + 1 }
  else if paintPayloadAt + s.payload.length + 5 > paintFileSize then none
  else some { s with payload := s.payload ++ UInt8.ofNat s.run :: bgra s.previous, previous := pixel, run := 1 }

/-- The pixels of the canvas scaled to a size. -/
def scaled (canvas : Nat → UInt32) (size : Nat) : List UInt32 :=
  (List.range (size * size)).map fun i => canvas ((i / size) * canvasSize / size * canvasSize + (i % size) * canvasSize / size)

/-- One frame of the file: none where save_qac returns -1. -/
def paintFrame (canvas : Nat → UInt32) (payload : List UInt8) (size : Nat) : Option (List UInt8) := do
  let s ← (scaled canvas size).foldlM paintPixel { payload := payload, previous := 0, run := 0, started := false }
  return if s.started && decide (paintPayloadAt + s.payload.length + 5 ≤ paintFileSize) then
      s.payload ++ UInt8.ofNat s.run :: bgra s.previous
    else s.payload

/-- The frames of save_qac in turn: the entry table and the payload. -/
def paintFrames (canvas : Nat → UInt32) : List Nat → List UInt8 × List UInt8 → Option (List UInt8 × List UInt8)
  | [], built => some built
  | size :: rest, (entries, payload) => do
    let grown ← paintFrame canvas payload size
    paintFrames canvas rest
      (entries ++ packEntry size qtiRle 0 payload.length (grown.length - payload.length), grown)

/-- The bytes save_qac hands to fs_write_file. -/
def saveQac (canvas : Nat → UInt32) : Option (List UInt8) := do
  let (entries, payload) ← paintFrames canvas [32, 24, 16] ([], [])
  return packHeader 3 payload.length ((payload.map UInt8.toNat).sum % 2 ^ 32) [112, 97, 105, 110, 116] ++ entries ++ payload

end Qito.Gfx
