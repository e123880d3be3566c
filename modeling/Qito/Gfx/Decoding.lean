import Qito.Lib.Checked
import Qito.Gfx.Qti

/-! The memory that qti_decode touches. Every byte of the file is read through a
checked access, every pixel is written through one, and the allocations that are
live are counted; the lists of the decoder say what the result is. -/
namespace Qito.Gfx
open Buffers Packed Checked

inductive Fault where
  | file
  | pixels
  | palette

abbrev Decoding := Except Fault

/-- What a call leaves: the image, and the allocations of the call that are live. -/
structure Decoded where
  image : Option QtiImage
  live : Nat

/-- A return of -1 before anything is allocated. -/
def Decoded.failed : Decoded := ⟨none, 0⟩

def fieldIn (data : List UInt8) (offset width : Nat) : Decoding Nat := do
  return unpack (← loadSpan .file data offset width)

def probeIn (data : List UInt8) : Decoding (Option QtiHeader) := do
  if data.length < qtiHeaderSize then return none
  if (← loadSpan .file data 0 4) ≠ qtiMagic then return none
  if (← fieldIn data 4 2) ≠ 1 then return none
  let frameCount ← fieldIn data 6 2
  if frameCount = 0 ∨ frameCount > qtiMaxFrames then return none
  let payloadSize ← fieldIn data 8 4
  if payloadSize > 4 * 1024 * 1024 then return none
  -- the copy of the whole header
  let header ← loadSpan .file data 0 qtiHeaderSize
  return some { frameCount := frameCount, payloadSize := payloadSize, checksum := fieldAt header 12 4 }

def pixelIn (data : List UInt8) (offset : Nat) : Decoding UInt32 := do
  return pixelOf (← loadSpan .file data offset 4)

def rawIn (data : List UInt8) (src pixelCount : Nat) (pixels : List UInt32) : Decoding (List UInt32) :=
  fillWith .pixels (fun i => pixelIn data (src + i * 4)) pixelCount pixels

/-- The loop over the runs: what is written, and the pixels. -/
def runsIn (data : List UInt8) (src len pixelCount offset written : Nat) (pixels : List UInt32) :
    Decoding (Nat × List UInt32) :=
  if written < pixelCount ∧ offset + 5 ≤ len then do
    let count ← load .file data (src + offset)
    let pixel ← pixelIn data (src + offset + 1)
    if count = 0 then return (written, pixels)
    let (written, pixels) ← fillRun .pixels pixel pixelCount count.toNat written pixels
    runsIn data src len pixelCount (offset + 5) written pixels
  else return (written, pixels)
termination_by len - offset

def rleIn (data : List UInt8) (src len pixelCount : Nat) (pixels : List UInt32) : Decoding (List UInt32) := do
  let (written, pixels) ← runsIn data src len pixelCount 0 0 pixels
  let (_, pixels) ← fillRun .pixels 0 pixelCount pixelCount written pixels
  return pixels

/-- The palette is an array of 256 on the stack; fresh is what it held before. -/
def indexIn (data : List UInt8) (src pixelCount paletteSize : Nat) (fresh pixels : List UInt32) : Decoding (List UInt32) := do
  let palette ← fillWith .palette (fun i => pixelIn data (src + i * 4)) paletteSize fresh
  fillWith .pixels (fun i => do
    let idx ← load .file data (src + paletteSize * 4 + i)
    if idx.toNat < paletteSize then load .palette palette idx.toNat else return 0) pixelCount pixels

/-- The switch: none where the buffer is freed again, and the allocations that are live then. -/
def pixelsIn (data : List UInt8) (src len pixelCount encoding paletteSize : Nat) (fresh pixels : List UInt32) (live : Nat) :
    Decoding (Option (List UInt32) × Nat) :=
  if encoding = qtiRaw then
    if len < pixelCount * 4 then return (none, live - 1)
    else return (some (← rawIn data src pixelCount pixels), live)
  else if encoding = qtiRle then
    return (some (← rleIn data src len pixelCount pixels), live)
  else if encoding = qtiIndex then
    let paletteSize := if paletteSize = 0 then 256 else paletteSize
    if len < paletteSize * 4 + pixelCount then return (none, live - 1)
    else return (some (← indexIn data src pixelCount paletteSize fresh pixels), live)
  else return (none, live - 1)

/-- The payload starts at start; heap is what the allocation and the stack held before. -/
def frameIn (memory : Bool) (heap : Nat → UInt32) (data : List UInt8) (start : Nat) (entry : QtiEntry) : Decoding Decoded := do
  if entry.width = 0 ∨ entry.height = 0 ∨ entry.width > qtiMaxDim ∨ entry.height > qtiMaxDim then return .failed
  if entry.offset + entry.size > data.length - start then return .failed
  if !memory then return .failed
  let pixelCount := entry.width * entry.height
  let (pixels, live) ← pixelsIn data (start + entry.offset) entry.size pixelCount entry.encoding entry.paletteSize
    ((List.range 256).map heap) ((List.range pixelCount).map heap) 1
  return ⟨pixels.map fun pixels => ⟨entry.width, entry.height, pixels⟩, live⟩

def entryIn (data : List UInt8) (i : Nat) : Decoding QtiEntry := do
  return entryOf (← loadSpan .file data (qtiHeaderSize + qtiEntrySize * i) qtiEntrySize)

def decodeIn (memory : Bool) (heap : Nat → UInt32) (data : List UInt8) (preferred : Int) : Decoding Decoded := do
  match ← probeIn data with
  | none => return .failed
  | some header =>
    let tableBytes := header.frameCount * qtiEntrySize
    if data.length < qtiHeaderSize + tableBytes then return .failed
    let start := qtiHeaderSize + tableBytes
    let payload ← loadSpan .file data start (data.length - start)
    if (payload.map UInt8.toNat).sum % 2 ^ 32 ≠ header.checksum then return .failed
    let entries ← (List.range header.frameCount).mapM (entryIn data)
    if entries.any fun e => decide ((e.offset + e.size) % 2 ^ 32 > data.length - start) || e.width == 0 || e.height == 0 ||
        decide (e.encoding > 2) then return .failed
    let best := (List.range header.frameCount).foldl (closer entries preferred) (0, 0x7FFF)
    frameIn memory heap data start (entries.getD best.1 ⟨0, 0, 0, 0, 0, 0⟩)

section Safety
variable {data : List UInt8} {src pixelCount : Nat} {pixels : List UInt32}

theorem fieldIn_inside {offset width : Nat} (inside : offset + width ≤ data.length) :
    fieldIn data offset width = .ok (fieldAt data offset width) := by
  rw [fieldIn, loadSpan_inside inside]
  rfl

theorem pixelIn_inside {offset : Nat} (inside : offset + 4 ≤ data.length) :
    pixelIn data offset = .ok (pixelOf (readAt offset 4 data)) := by
  rw [pixelIn, loadSpan_inside inside]
  rfl

theorem probeIn_eq (data : List UInt8) : probeIn data = .ok (qtiProbe data) := by
  unfold probeIn qtiProbe
  by_cases short : data.length < qtiHeaderSize
  · simp [short]
    rfl
  have long : 32 ≤ data.length := Nat.le_of_not_lt short
  have checksum : fieldAt (readAt 0 qtiHeaderSize data) 12 4 = fieldAt data 12 4 := by
    rw [fieldAt, fieldAt, readAt_readAt (by decide)]
  rw [if_neg short, if_neg short, loadSpan_inside (Nat.le_trans (by decide) long), fieldIn_inside (Nat.le_trans (by decide) long),
    fieldIn_inside (Nat.le_trans (by decide) long), fieldIn_inside (Nat.le_trans (by decide) long),
    loadSpan_inside (by simpa using long)]
  simp only [bind, Except.bind, pure, Except.pure, checksum]
  split_ifs <;> rfl

theorem rawIn_inside (inside : src + pixelCount * 4 ≤ data.length) (room : pixels.length = pixelCount) :
    rawIn data src pixelCount pixels = .ok ((List.range pixelCount).map fun i => pixelOf (readAt (src + i * 4) 4 data)) := by
  rw [rawIn, fillWith_inside (fun i below => pixelIn_inside (by omega)) (Nat.le_of_eq room.symm), List.drop_of_length_le (Nat.le_of_eq room),
    List.append_nil]

theorem readRuns_full {done : List UInt32} (full : ¬ done.length < pixelCount) (runs : List UInt8) :
    readRuns pixelCount done runs = done := by
  unfold readRuns
  split
  · rw [if_neg full]
  · rfl

theorem readRuns_short {runs : List UInt8} (short : runs.length < 5) (done : List UInt32) :
    readRuns pixelCount done runs = done := by
  unfold readRuns
  split
  · simp at short
    omega
  · rfl

theorem run_bytes {len offset : Nat} (inside : src + len ≤ data.length) (more : offset + 5 ≤ len) :
    ∃ count b g r a, (readAt src len data).drop offset = count :: b :: g :: r :: a :: (readAt src len data).drop (offset + 5) ∧
      load Fault.file data (src + offset) = .ok count ∧ readAt (src + offset + 1) 4 data = [b, g, r, a] := by
  have length : (readAt src len data).length = len := by
    rw [readAt, List.length_take, List.length_drop]
    omega
  have next (k : Nat) (below : offset + k < len) : (readAt src len data).drop (offset + k) =
      data[src + (offset + k)] :: (readAt src len data).drop (offset + k + 1) := by
    rw [List.drop_eq_getElem_cons (by omega)]
    simp [readAt]
  have shape := next 0 (by omega)
  rw [next 1 (by omega), next 2 (by omega), next 3 (by omega), next 4 (by omega)] at shape
  refine ⟨_, _, _, _, _, shape, load_inside _, ?_⟩
  have pixel := @readAt_readAt _ (offset + 1) 4 src len (by omega) data
  rw [Nat.add_assoc, ← pixel, readAt, next 1 (by omega), next 2 (by omega), next 3 (by omega), next 4 (by omega)]
  rfl

theorem runsIn_inside {len offset : Nat} {done back : List UInt32} (inside : src + len ≤ data.length)
    (room : done.length + back.length = pixelCount) :
    ∃ rest, (readRuns pixelCount done ((readAt src len data).drop offset)).length + rest.length = pixelCount ∧
      runsIn data src len pixelCount offset done.length (done ++ back) =
        .ok ((readRuns pixelCount done ((readAt src len data).drop offset)).length,
          readRuns pixelCount done ((readAt src len data).drop offset) ++ rest) := by
  generalize measure : len - offset = n
  induction n using Nat.strongRecOn generalizing offset done back with
  | ind n ih =>
    rw [runsIn]
    by_cases going : done.length < pixelCount ∧ offset + 5 ≤ len
    · obtain ⟨count, b, g, r, a, shape, byte, pixel⟩ := run_bytes inside going.2
      rw [if_pos going, byte, pixelIn_inside (by omega), pixel, shape, readRuns, if_pos going.1]
      by_cases zero : count = 0
      · subst zero
        exact ⟨back, room, rfl⟩
      · have below : back.length = pixelCount - done.length := by omega
        have run := @fillRun_inside _ _ Fault.pixels (pixelOf [b, g, r, a]) _ count.toNat _ _ room
        obtain ⟨rest, whole, later⟩ := @ih (len - (offset + 5)) (by omega) (offset + 5)
          (done ++ List.replicate (min count.toNat back.length) (pixelOf [b, g, r, a])) (back.drop count.toNat)
          (by rw [List.length_append, List.length_replicate, List.length_drop]; omega) rfl
        rw [List.length_append, List.length_replicate] at later
        rw [if_neg zero, ← below]
        refine ⟨rest, whole, ?_⟩
        simp only [bind, Except.bind, pure, Except.pure, if_neg zero, run]
        exact later
    · rw [if_neg going]
      have stops : readRuns pixelCount done ((readAt src len data).drop offset) = done := by
        rcases Classical.not_and_iff_not_or_not.mp going with full | short
        · exact readRuns_full full _
        · apply readRuns_short
          rw [List.length_drop, readAt, List.length_take]
          omega
      rw [stops]
      exact ⟨back, room, rfl⟩

theorem rleIn_inside {len : Nat} (inside : src + len ≤ data.length) (room : pixels.length = pixelCount) :
    rleIn data src len pixelCount pixels = .ok (decodeRle pixelCount (readAt src len data)) := by
  obtain ⟨rest, whole, runs⟩ := @runsIn_inside data src pixelCount len 0 [] pixels inside (by simpa using room)
  rw [List.drop_zero, List.nil_append, List.length_nil] at runs
  rw [List.drop_zero] at whole
  have tail := @fillRun_inside _ _ Fault.pixels 0 _ pixelCount _ _ whole
  have left : min pixelCount rest.length = rest.length := by omega
  rw [left, List.drop_of_length_le (by omega), List.append_nil] at tail
  have fill : pixelCount - (readRuns pixelCount [] (readAt src len data)).length = rest.length := by omega
  rw [rleIn, runs, decodeRle, fill]
  simp only [bind, Except.bind, tail]
  rfl

theorem indexIn_inside {paletteSize len : Nat} {fresh : List UInt32} (inside : src + len ≤ data.length)
    (enough : paletteSize * 4 + pixelCount ≤ len) (few : paletteSize ≤ fresh.length) (room : pixels.length = pixelCount) :
    indexIn data src pixelCount paletteSize fresh pixels = .ok ((List.range pixelCount).map fun i =>
      if ((readAt src len data).getD (paletteSize * 4 + i) 0).toNat < paletteSize then
        ((List.range paletteSize).map fun i => pixelOf (readAt (i * 4) 4 (readAt src len data))).getD
          ((readAt src len data).getD (paletteSize * 4 + i) 0).toNat 0
      else 0) := by
  have colour (i : Nat) (below : i < paletteSize) :
      pixelIn data (src + i * 4) = .ok (pixelOf (readAt (i * 4) 4 (readAt src len data))) := by
    rw [pixelIn_inside (by omega), readAt_readAt (by omega)]
  rw [indexIn, fillWith_inside colour few]
  change fillWith _ _ _ _ = _
  rw [fillWith_inside (v := fun i => if ((readAt src len data).getD (paletteSize * 4 + i) 0).toNat < paletteSize then
      ((List.range paletteSize).map fun i => pixelOf (readAt (i * 4) 4 (readAt src len data))).getD
        ((readAt src len data).getD (paletteSize * 4 + i) 0).toNat 0
      else 0) ?_ (Nat.le_of_eq room.symm), List.drop_of_length_le (Nat.le_of_eq room), List.append_nil]
  intro i below
  have idx : (readAt src len data).getD (paletteSize * 4 + i) 0 = data[src + paletteSize * 4 + i] := by
    have bound : paletteSize * 4 + i < (readAt src len data).length := by
      rw [readAt, List.length_take, List.length_drop]
      omega
    rw [List.getD_eq_getElem _ _ bound]
    simp [readAt, Nat.add_assoc]
  rw [idx, load_inside (by omega)]
  simp only [bind, Except.bind, pure, Except.pure]
  split
  · rename_i known
    have place : data[src + paletteSize * 4 + i].toNat < ((List.range paletteSize).map fun i =>
        pixelOf (readAt (i * 4) 4 (readAt src len data))).length := by simpa using known
    rw [load_inside (by rw [List.length_append]; omega), List.getElem_append_left place, List.getD_eq_getElem _ _ place]
  · rfl

theorem pixelsIn_inside {encoding paletteSize len : Nat} {fresh : List UInt32} (inside : src + len ≤ data.length)
    (few : paletteSize ≤ 256) (stack : fresh.length = 256) (room : pixels.length = pixelCount) :
    pixelsIn data src len pixelCount encoding paletteSize fresh pixels 1 =
      .ok (decodePixels pixelCount encoding paletteSize (readAt src len data),
        if (decodePixels pixelCount encoding paletteSize (readAt src len data)).isSome then 1 else 0) := by
  have length : (readAt src len data).length = len := by
    rw [readAt, List.length_take, List.length_drop]
    omega
  unfold pixelsIn decodePixels
  split
  · rw [decodeRaw, length]
    split
    · rfl
    · have same : ((List.range pixelCount).map fun i => pixelOf (readAt (i * 4) 4 (readAt src len data))) =
          (List.range pixelCount).map fun i => pixelOf (readAt (src + i * 4) 4 data) := by
        apply List.map_congr_left
        intro i member
        rw [List.mem_range] at member
        rw [readAt_readAt (by omega)]
      rw [rawIn_inside (by omega) room, same]
      rfl
  split
  · rw [rleIn_inside inside room]
    rfl
  split
  · rw [decodeIndex, length]
    dsimp only
    generalize size : (if paletteSize = 0 then 256 else paletteSize) = paletteSize'
    have few' : paletteSize' ≤ fresh.length := by
      rw [← size, stack]
      split <;> omega
    split
    · rfl
    · rw [indexIn_inside inside (by omega) few' room]
      rfl
  · rfl

theorem unpack_byte (offset : Nat) (data : List UInt8) : fieldAt data offset 1 < 256 := by
  rw [fieldAt, readAt]
  cases data.drop offset with
  | nil => decide
  | cons b rest => exact b.toNat_lt

theorem entries_palette (data : Nat → List UInt8) (is : List Nat) (best : Nat) :
    ((is.map fun i => entryOf (data i)).getD best ⟨0, 0, 0, 0, 0, 0⟩).paletteSize ≤ 256 := by
  rw [List.getD_eq_getElem?_getD, List.getElem?_map]
  cases is[best]? with
  | none => exact Nat.zero_le _
  | some i => exact Nat.le_of_lt (unpack_byte 5 (data i))

/-- A frame is decoded without a fault, and the buffer is live just if there is an image. -/
theorem frameIn_eq {memory : Bool} {heap : Nat → UInt32} {start : Nat} {entry : QtiEntry} (inside : start ≤ data.length)
    (few : entry.paletteSize ≤ 256) : frameIn memory heap data start entry = .ok ⟨decodeFrame memory entry (data.drop start),
      if (decodeFrame memory entry (data.drop start)).isSome then 1 else 0⟩ := by
  unfold frameIn decodeFrame
  rw [List.length_drop]
  split
  · rfl
  split
  · rfl
  cases memory with
  | false => rfl
  | true =>
    have run := @pixelsIn_inside data (start + entry.offset) (entry.width * entry.height)
      ((List.range (entry.width * entry.height)).map heap) entry.encoding entry.paletteSize entry.size ((List.range 256).map heap)
      (by omega) few (by simp) (by simp)
    rw [readAt_add] at run
    simp [run, bind, Except.bind, pure, Except.pure]

theorem entryIn_inside {count : Nat} (inside : qtiHeaderSize + count * qtiEntrySize ≤ data.length) :
    (List.range count).mapM (entryIn data) =
      .ok ((List.range count).map fun i => entryOf (readAt (qtiHeaderSize + qtiEntrySize * i) qtiEntrySize data)) := by
  have all (is : List Nat) (below : ∀ i ∈ is, i < count) : is.mapM (entryIn data) =
      .ok (is.map fun i => entryOf (readAt (qtiHeaderSize + qtiEntrySize * i) qtiEntrySize data)) := by
    induction is with
    | nil => rfl
    | cons i is ih =>
      have bound := below i List.mem_cons_self
      have whole : qtiHeaderSize + qtiEntrySize * i + qtiEntrySize ≤ data.length := by
        change 32 + count * 16 ≤ data.length at inside
        change 32 + 16 * i + 16 ≤ data.length
        omega
      rw [List.mapM_cons, ih fun j member => below j (List.mem_cons_of_mem _ member), entryIn, loadSpan_inside whole]
      rfl
  exact all _ fun i => List.mem_range.mp

end Safety

/-- qti_decode reads inside the file and writes inside the buffer of the frame, whatever the
file holds; it is the decoder of the lists, and its buffer is live just if it returns an image. -/
theorem decoding_safe (memory : Bool) (heap : Nat → UInt32) (data : List UInt8) (preferred : Int) :
    ∃ d, decodeIn memory heap data preferred = .ok d ∧ d.image = qtiDecode memory data preferred ∧
      d.live = if d.image.isSome then 1 else 0 := by
  unfold decodeIn qtiDecode
  rw [probeIn_eq]
  cases qtiProbe data with
  | none => exact ⟨.failed, rfl, rfl, rfl⟩
  | some header =>
    simp only [bind, Except.bind, Option.bind_some, pure, Except.pure]
    split
    · exact ⟨.failed, rfl, rfl, rfl⟩
    rename_i long
    have bound : qtiHeaderSize + header.frameCount * qtiEntrySize ≤ data.length := Nat.le_of_not_lt long
    have payload : readAt (qtiHeaderSize + header.frameCount * qtiEntrySize)
        (data.length - (qtiHeaderSize + header.frameCount * qtiEntrySize)) data =
        data.drop (qtiHeaderSize + header.frameCount * qtiEntrySize) :=
      List.take_of_length_le (by rw [List.length_drop])
    rw [loadSpan_inside (by omega), payload, entryIn_inside bound]
    dsimp only
    split
    · exact ⟨.failed, rfl, rfl, rfl⟩
    rw [List.length_drop]
    split
    · exact ⟨.failed, rfl, rfl, rfl⟩
    rw [frameIn_eq bound]
    · exact ⟨_, rfl, rfl, rfl⟩
    · exact entries_palette _ _ _

end Qito.Gfx
