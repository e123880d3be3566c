import Qito.Gfx.Qti

/-! Icons read back. Every encoding of a frame decodes to its pixels, the entry of
the preferred size is the one the decoder picks, and so the files of mkqti and of
Paint decode to what they were built from. -/
namespace Qito.Gfx
open Buffers Packed

section Encodings
variable {pixels : List UInt32}

@[simp] theorem bgra_length (p : UInt32) : (bgra p).length = 4 := pack_length 4 _

theorem pixelOf_bgra (p : UInt32) : pixelOf (bgra p) = p := by
  have fits : p.toNat < 256 ^ 4 := p.toNat_lt
  rw [pixelOf, bgra, unpack_pack fits, UInt32.ofNat_toNat]

theorem flatMap_bgra_length (pixels : List UInt32) : (pixels.flatMap bgra).length = pixels.length * 4 := by
  induction pixels with
  | nil => rfl
  | cons p pixels ih =>
    rw [List.flatMap_cons, List.length_append, ih, bgra_length, List.length_cons]
    omega

theorem table_pixels (pixels : List UInt32) (rest : List UInt8) :
    ((List.range pixels.length).map fun i => pixelOf (readAt (i * 4) 4 (pixels.flatMap bgra ++ rest))) = pixels := by
  apply List.ext_getElem
  · simp
  · intro i left right
    have even : ∀ record ∈ pixels.map bgra, record.length = 4 := by simp
    have row : (pixels.map bgra)[i]? = some (bgra (pixels[i])) := by simp [right]
    have parts : pixels.flatMap bgra ++ rest = [(pixels.map bgra).flatten, rest].flatten := by
      simp [List.flatMap_def]
    have found : readAt (0 + 4 * i) 4 [(pixels.map bgra).flatten, rest].flatten = bgra (pixels[i]) :=
      readAt_table (k := 0) rfl rfl even row
    have start : i * 4 = 0 + 4 * i := by omega
    rw [List.getElem_map, List.getElem_range, start, parts, found, pixelOf_bgra]

theorem raw_decodes (pixels : List UInt32) : decodeRaw pixels.length (encodeRaw pixels) = some pixels := by
  have enough : ¬ (encodeRaw pixels).length < pixels.length * 4 := by
    rw [encodeRaw, flatMap_bgra_length]
    omega
  have table := table_pixels pixels []
  rw [List.append_nil] at table
  rw [decodeRaw, if_neg enough, encodeRaw, table]

theorem readRuns_run {pixelCount run : Nat} {written : List UInt32} (pix : UInt32) (more : List UInt8) (positive : 0 < run)
    (short : run ≤ 255) (fits : written.length + run ≤ pixelCount) :
    readRuns pixelCount written (UInt8.ofNat run :: bgra pix ++ more) =
      readRuns pixelCount (written ++ List.replicate run pix) more := by
  obtain ⟨b, g, r, a, bytes⟩ : ∃ b g r a, bgra pix = [b, g, r, a] := ⟨_, _, _, _, rfl⟩
  have count : (UInt8.ofNat run).toNat = run := by
    rw [UInt8.toNat_ofNat']
    omega
  have counted : UInt8.ofNat run ≠ 0 := by
    intro zero
    rw [zero] at count
    exact absurd count.symm (Nat.ne_of_gt positive)
  have room : written.length < pixelCount := by omega
  have whole : min run (pixelCount - written.length) = run := by omega
  rw [bytes]
  simp only [List.cons_append, List.nil_append, readRuns, if_pos room, if_neg counted, count, whole]
  rw [← bytes, pixelOf_bgra]

theorem readRuns_encodeRun {pixelCount run : Nat} {written rest : List UInt32} {pix : UInt32} (positive : 0 < run)
    (short : run ≤ 255) (fits : written.length + run + rest.length ≤ pixelCount) :
    readRuns pixelCount written (encodeRun pix run rest) = written ++ List.replicate run pix ++ rest := by
  induction rest generalizing pix run written with
  | nil =>
    have last := readRuns_run pix [] positive short (Nat.le_of_add_right_le fits)
    rw [List.append_nil] at last
    rw [encodeRun, last, List.append_nil]
    rfl
  | cons p rest ih =>
    rw [List.length_cons] at fits
    unfold encodeRun
    split
    · rename_i same
      rw [ih (Nat.succ_pos run) same.2 (by omega), same.1, List.replicate_succ']
      simp only [List.append_assoc, List.cons_append, List.nil_append]
    · rw [readRuns_run pix _ positive short (by omega)]
      rw [ih Nat.one_pos (by decide) (by simp only [List.length_append, List.length_replicate]; omega)]
      simp only [List.append_assoc, List.replicate_one, List.cons_append, List.nil_append]

theorem rle_decodes (pixels : List UInt32) : decodeRle pixels.length (encodeRle pixels) = pixels := by
  have runs : readRuns pixels.length [] (encodeRle pixels) = pixels := by
    cases pixels with
    | nil => rfl
    | cons p rest =>
      rw [encodeRle, readRuns_encodeRun Nat.one_pos (by decide) (by simp only [List.length_nil, List.length_cons]; omega)]
      rfl
  rw [decodeRle]
  simp only [runs, Nat.sub_self, List.replicate_zero, List.append_nil]

theorem paletteOf_spec {palette found : List UInt32} (built : paletteOf palette pixels = some found)
    (few : palette.length ≤ 256) : (∀ p ∈ palette, p ∈ found) ∧ (∀ p ∈ pixels, p ∈ found) ∧ found.length ≤ 256 := by
  induction pixels generalizing palette with
  | nil =>
    cases Option.some.inj built
    exact ⟨fun _ member => member, nofun, few⟩
  | cons pix rest ih =>
    unfold paletteOf at built
    split at built
    · rename_i known
      obtain ⟨kept, all, small⟩ := ih built few
      exact ⟨kept, List.forall_mem_cons.mpr ⟨kept pix known, all⟩, small⟩
    · split at built
      · cases built
      · rename_i room
        have few' : (palette ++ [pix]).length ≤ 256 := by
          rw [List.length_append, List.length_singleton]
          omega
        obtain ⟨kept, all, small⟩ := ih built few'
        have pix_ : pix ∈ found := kept pix (List.mem_append_right _ List.mem_cons_self)
        exact ⟨fun p member => kept p (List.mem_append_left _ member), List.forall_mem_cons.mpr ⟨pix_, all⟩, small⟩

theorem index_decodes {palette : List UInt32} (all : ∀ p ∈ pixels, p ∈ palette) (small : palette.length ≤ 256)
    (used : 0 < palette.length) :
    decodeIndex pixels.length (palette.length % 256)
      (palette.flatMap bgra ++ pixels.map fun pix => UInt8.ofNat (palette.idxOf pix)) = some pixels := by
  have size : (if palette.length % 256 = 0 then 256 else palette.length % 256) = palette.length := by
    split <;> omega
  have enough : ¬ (palette.flatMap bgra ++ pixels.map fun pix => UInt8.ofNat (palette.idxOf pix)).length <
      palette.length * 4 + pixels.length := by
    rw [List.length_append, flatMap_bgra_length, List.length_map]
    omega
  rw [decodeIndex]
  simp only [size, if_neg enough, table_pixels]
  congr 1
  apply List.ext_getElem
  · simp
  · intro i left right
    have place : palette.idxOf pixels[i] < palette.length := List.idxOf_lt_length_iff.mpr (all _ (List.getElem_mem right))
    have index : (UInt8.ofNat (palette.idxOf pixels[i])).toNat = palette.idxOf pixels[i] := by
      rw [UInt8.toNat_ofNat']
      omega
    have byte : (palette.flatMap bgra ++ pixels.map fun pix => UInt8.ofNat (palette.idxOf pix)).getD
        (palette.length * 4 + i) 0 = UInt8.ofNat (palette.idxOf pixels[i]) := by
      rw [← flatMap_bgra_length, List.getD_append_right _ _ _ _ (Nat.le_add_right _ _), Nat.add_sub_cancel_left]
      simp [List.getD, right]
    simp only [List.getElem_map, List.getElem_range, byte, index, if_pos place]
    rw [List.getD_eq_getElem _ _ place, List.getElem_idxOf]

theorem encodeRun_length (pix : UInt32) (run : Nat) (rest : List UInt32) :
    (encodeRun pix run rest).length ≤ 5 * (rest.length + 1) := by
  induction rest generalizing pix run with
  | nil => simp [encodeRun]
  | cons p rest ih =>
    unfold encodeRun
    split
    · have shorter := ih pix (run + 1)
      rw [List.length_cons]
      omega
    · have after := ih p 1
      simp only [List.cons_append, List.length_cons, List.length_append, bgra_length]
      omega

theorem encodeRle_length (pixels : List UInt32) : (encodeRle pixels).length ≤ 5 * pixels.length := by
  cases pixels with
  | nil => exact Nat.zero_le _
  | cons p rest => exact encodeRun_length p 1 rest

/-- What an entry and its data have to be for the decoder to return the pixels. -/
structure Decodes (pixels : List UInt32) (encoded : Encoded) : Prop where
  known : encoded.encoding ≤ 2
  palette : encoded.paletteSize < 256
  length : encoded.data.length ≤ 5 * pixels.length + 1024
  pixels : decodePixels pixels.length encoded.encoding encoded.paletteSize encoded.data = some pixels

theorem rle_frame (pixels : List UInt32) : Decodes pixels ⟨qtiRle, encodeRle pixels, 0⟩ where
  known := Nat.le_succ 1
  palette := Nat.zero_lt_succ 255
  length := Nat.le_add_right_of_le (encodeRle_length pixels)
  pixels := congrArg some (rle_decodes pixels)

theorem candidates_decode (any : pixels ≠ []) {encoded : Encoded} (member : encoded ∈ candidates pixels) :
    Decodes pixels encoded := by
  simp only [candidates, List.cons_append, List.nil_append, List.mem_cons, Option.mem_toList, Option.map_eq_some_iff] at member
  obtain rfl | rfl | ⟨⟨data, size⟩, indexed, rfl⟩ := member
  · refine ⟨Nat.zero_le 2, Nat.zero_lt_succ 255, ?_, raw_decodes pixels⟩
    rw [encodeRaw, flatMap_bgra_length]
    omega
  · exact rle_frame pixels
  · obtain ⟨palette, built, same⟩ := Option.map_eq_some_iff.mp indexed
    cases same
    obtain ⟨-, all, small⟩ := paletteOf_spec built (Nat.zero_le _)
    obtain ⟨p, rest, rfl⟩ := List.exists_cons_of_ne_nil any
    have used : 0 < palette.length := List.length_pos_of_mem (all p List.mem_cons_self)
    refine ⟨Nat.le_refl 2, Nat.mod_lt _ (by decide), ?_, index_decodes all small used⟩
    rw [List.length_append, flatMap_bgra_length, List.length_map]
    omega

theorem bestEncoding_decodes (any : pixels ≠ []) : Decodes pixels (bestEncoding pixels) := by
  apply candidates_decode any
  unfold bestEncoding
  set sorted := (candidates pixels).mergeSort fun a b => decide (a.data.length ≤ b.data.length) with sorted_
  have same : sorted.Perm (candidates pixels) := List.mergeSort_perm _ _
  have filled : sorted ≠ [] := by
    intro none_
    rw [none_] at same
    exact absurd same.nil_eq (by simp [candidates])
  rw [← same.mem_iff, List.headD_eq_head?_getD, List.head?_eq_some_head filled]
  exact List.head_mem filled

end Encodings

section Container
variable {parts : List (Nat × Encoded)} {part : Nat × Encoded}

/-- The data of the frames, one after the other. -/
def payloadOf (parts : List (Nat × Encoded)) : List UInt8 := (parts.map fun part => part.2.data).flatten

/-- The entries of frames whose data starts at an offset. -/
def describe : Nat → List (Nat × Encoded) → List QtiEntry
  | _, [] => []
  | offset, (size, encoded) :: rest =>
    ⟨size, size, encoded.encoding, encoded.paletteSize, offset, encoded.data.length⟩ ::
      describe (offset + encoded.data.length) rest

def packed (e : QtiEntry) : List UInt8 := packEntry e.width e.encoding e.paletteSize e.offset e.size

def table (offset : Nat) (parts : List (Nat × Encoded)) : List UInt8 := ((describe offset parts).map packed).flatten

/-- A file of square frames. -/
def container (parts : List (Nat × Encoded)) (name : List UInt8) : List UInt8 :=
  packHeader parts.length (payloadOf parts).length (((payloadOf parts).map UInt8.toNat).sum % 2 ^ 32) name ++ table 0 parts ++
    payloadOf parts

theorem describe_append (offset : Nat) (parts more : List (Nat × Encoded)) :
    describe offset (parts ++ more) = describe offset parts ++ describe (offset + (payloadOf parts).length) more := by
  induction parts generalizing offset with
  | nil => rfl
  | cons part parts ih =>
    rw [List.cons_append, describe, ih, describe, List.cons_append, Nat.add_assoc]
    simp [payloadOf]

@[simp] theorem describe_length (offset : Nat) (parts : List (Nat × Encoded)) : (describe offset parts).length = parts.length := by
  induction parts generalizing offset with
  | nil => rfl
  | cons part parts ih => rw [describe, List.length_cons, ih, List.length_cons]

theorem describe_widths (offset : Nat) (parts : List (Nat × Encoded)) :
    (describe offset parts).map QtiEntry.width = parts.map Prod.fst := by
  induction parts generalizing offset with
  | nil => rfl
  | cons part parts ih => rw [describe, List.map_cons, ih, List.map_cons]

/-- An entry, and the data it leads to. -/
structure Describes (payload : List UInt8) (part : Nat × Encoded) (e : QtiEntry) : Prop where
  width : e.width = part.1
  height : e.height = part.1
  encoding : e.encoding = part.2.encoding
  palette : e.paletteSize = part.2.paletteSize
  inside : e.offset + e.size ≤ payload.length
  data : readAt e.offset e.size payload = part.2.data

theorem describe_at {k : Nat} {offset : Nat} {front : List UInt8} (there : parts[k]? = some part) (start : front.length = offset) :
    ∃ e, (describe offset parts)[k]? = some e ∧ Describes (front ++ payloadOf parts) part e := by
  induction parts generalizing k offset front with
  | nil => simp at there
  | cons first parts ih =>
    have split_ : front ++ payloadOf (first :: parts) = (front ++ first.2.data) ++ payloadOf parts := by simp [payloadOf]
    cases k with
    | zero =>
      cases Option.some.inj there
      refine ⟨_, rfl, rfl, rfl, rfl, rfl, ?_, ?_⟩
      · simp only [split_, List.length_append, start]
        omega
      · dsimp only
        rw [split_, List.append_assoc, readAt_skip (Nat.le_of_eq start), start, Nat.sub_self, readAt_front rfl]
    | succ k =>
      rw [split_]
      exact ih there (by rw [List.length_append, start])

theorem describe_mem {e : QtiEntry} (member : e ∈ describe 0 parts) : ∃ part ∈ parts, Describes (payloadOf parts) part e := by
  obtain ⟨k, there⟩ := List.mem_iff_getElem?.mp member
  have inside : k < parts.length := by
    rw [← describe_length 0 parts]
    exact (List.getElem?_eq_some_iff.mp there).1
  obtain ⟨e', found, described⟩ := describe_at (List.getElem?_eq_getElem inside) (List.length_nil : ([] : List UInt8).length = 0)
  rw [there] at found
  cases Option.some.inj found
  exact ⟨parts[k], List.getElem_mem inside, described⟩

theorem fieldAt_parts {parts : List (List UInt8)} {data : List UInt8} {k offset width value : Nat} (whole : data = parts.flatten)
    (there : parts[k]? = some (pack width value)) (before : ((parts.take k).map List.length).sum = offset)
    (fits : value < 256 ^ width) : fieldAt data offset width = value := by
  rw [fieldAt, whole, readAt_flatten there before (pack_length width value), unpack_pack fits]

theorem entryOf_packed {e : QtiEntry} (square : e.height = e.width) (width : e.width < 2 ^ 16) (encoding : e.encoding < 256)
    (palette : e.paletteSize < 256) (offset : e.offset < 2 ^ 32) (size : e.size < 2 ^ 32) : entryOf (packed e) = e := by
  have fields : packed e = [pack 2 e.width, pack 2 e.width, pack 1 e.encoding, pack 1 e.paletteSize, pack 2 0, pack 4 e.offset,
      pack 4 e.size].flatten := by simp [packed, packEntry]
  have at0 : fieldAt (packed e) 0 2 = e.width := fieldAt_parts (k := 0) fields rfl rfl width
  have at2 : fieldAt (packed e) 2 2 = e.width := fieldAt_parts (k := 1) fields rfl rfl width
  have at4 : fieldAt (packed e) 4 1 = e.encoding := fieldAt_parts (k := 2) fields rfl rfl encoding
  have at5 : fieldAt (packed e) 5 1 = e.paletteSize := fieldAt_parts (k := 3) fields rfl rfl palette
  have at8 : fieldAt (packed e) 8 4 = e.offset := fieldAt_parts (k := 5) fields rfl rfl offset
  have at12 : fieldAt (packed e) 12 4 = e.size := fieldAt_parts (k := 6) fields rfl rfl size
  rw [entryOf, at0, at2, at4, at5, at8, at12]
  cases e
  dsimp only at square
  rw [square]

theorem closer_search {entries : List QtiEntry} {preferred k : Nat} (wanted : (entries.map QtiEntry.width)[k]? = some preferred)
    (only : ∀ i, (entries.map QtiEntry.width)[i]? = some preferred → i = k) (n : Nat) (inside : n ≤ entries.length) :
    let best := (List.range n).foldl (closer entries preferred) (0, 0x7FFF)
    if k < n then best = (k, 0) else 0 < best.2 := by
  induction n with
  | zero => exact Nat.zero_lt_succ _
  | succ n ih =>
    have ih := ih (Nat.le_of_succ_le inside)
    rw [List.range_succ, List.foldl_append, List.foldl_cons, List.foldl_nil]
    generalize (List.range n).foldl (closer entries preferred) (0, 0x7FFF) = best at ih
    have width : (entries.map QtiEntry.width)[n]? = some ((entries.map QtiEntry.width).getD n 0) := by
      rw [List.getD_eq_getElem _ _ (by rw [List.length_map]; omega)]
      exact List.getElem?_eq_getElem _
    dsimp only at ih ⊢
    unfold closer
    dsimp only
    by_cases here : n = k
    · -- the difference is zero, and smaller than every one before it
      subst here
      have same : (entries.map QtiEntry.width).getD n 0 = preferred := Option.some.inj (width.symm.trans wanted)
      rw [if_neg (Nat.lt_irrefl n)] at ih
      rw [if_pos (Nat.lt_succ_self n), same, Int.sub_self, Int.natAbs_zero, if_pos (Or.inl ih)]
    · have other : (entries.map QtiEntry.width).getD n 0 ≠ preferred := by
        intro same
        rw [same] at width
        exact here (only n width)
      have apart : ((((entries.map QtiEntry.width).getD n 0 : Nat) : Int) - preferred).natAbs ≠ 0 := by omega
      by_cases past : k < n
      · rw [if_pos past] at ih
        subst ih
        rw [if_pos (by omega), if_neg (by simp only; omega)]
      · rw [if_neg past] at ih
        rw [if_neg (by omega)]
        split
        · simp only
          omega
        · exact ih

/-- Frames that fit a file: up to five, of distinct sizes, and their payload within
the limit of the probe. -/
structure Framed (parts : List (Nat × Encoded)) : Prop where
  any : parts ≠ []
  few : parts.length ≤ 5
  distinct : (parts.map Prod.fst).Nodup
  sized : ∀ part ∈ parts, 1 ≤ part.1 ∧ part.1 ≤ 256
  known : ∀ part ∈ parts, part.2.encoding ≤ 2
  palette : ∀ part ∈ parts, part.2.paletteSize < 256
  small : (payloadOf parts).length ≤ 4 * 1024 * 1024

theorem table_length (offset : Nat) (parts : List (Nat × Encoded)) : (table offset parts).length = 16 * parts.length := by
  induction parts generalizing offset with
  | nil => rfl
  | cons part parts ih =>
    have grown := ih (offset + part.2.data.length)
    rw [table] at grown ⊢
    rw [describe, List.map_cons, List.flatten_cons, List.length_append, grown]
    simp only [packed, packEntry, List.length_append, pack_length, List.length_cons]
    omega

theorem packName_length (name : List UInt8) : (packName name).length = 12 := by simp [packName]

/-- The file by its parts. -/
def fileParts (parts : List (Nat × Encoded)) (name : List UInt8) : List (List UInt8) :=
  [qtiMagic, pack 2 1, pack 2 parts.length, pack 4 (payloadOf parts).length,
    pack 4 (((payloadOf parts).map UInt8.toNat).sum % 2 ^ 32), pack 4 0, packName name, table 0 parts, payloadOf parts]

theorem container_parts (parts : List (Nat × Encoded)) (name : List UInt8) :
    container parts name = (fileParts parts name).flatten := by
  simp [container, packHeader, fileParts]

theorem container_length (parts : List (Nat × Encoded)) (name : List UInt8) :
    (container parts name).length = 32 + 16 * parts.length + (payloadOf parts).length := by
  rw [container, List.length_append, List.length_append, table_length]
  simp only [packHeader, List.length_append, pack_length, packName_length]
  rfl

theorem container_probe (fits : Framed parts) (name : List UInt8) :
    qtiProbe (container parts name) =
      some ⟨parts.length, (payloadOf parts).length, ((payloadOf parts).map UInt8.toNat).sum % 2 ^ 32⟩ := by
  have whole := container_parts parts name
  have few : parts.length < 256 ^ 2 := Nat.lt_of_le_of_lt fits.few (by decide)
  have small : (payloadOf parts).length < 256 ^ 4 := Nat.lt_of_le_of_lt fits.small (by decide)
  have magic : readAt 0 4 (container parts name) = qtiMagic := by
    rw [whole]
    exact readAt_flatten (k := 0) rfl rfl rfl
  have version : fieldAt (container parts name) 4 2 = 1 := fieldAt_parts (k := 1) whole rfl rfl (by decide)
  have count : fieldAt (container parts name) 6 2 = parts.length := fieldAt_parts (k := 2) whole rfl rfl few
  have size : fieldAt (container parts name) 8 4 = (payloadOf parts).length := fieldAt_parts (k := 3) whole rfl rfl small
  have sum : fieldAt (container parts name) 12 4 = ((payloadOf parts).map UInt8.toNat).sum % 2 ^ 32 :=
    fieldAt_parts (k := 4) whole rfl rfl (Nat.mod_lt _ (by decide))
  have long : ¬ (container parts name).length < qtiHeaderSize := by
    rw [container_length]
    unfold qtiHeaderSize
    omega
  have counted : ¬ (parts.length = 0 ∨ parts.length > qtiMaxFrames) := by
    unfold qtiMaxFrames
    have any := List.length_pos_iff.mpr fits.any
    have few := fits.few
    omega
  rw [qtiProbe, if_neg long, magic, if_neg (not_not_intro rfl), version, if_neg (not_not_intro rfl), count, if_neg counted, size,
    if_neg (Nat.not_lt.mpr fits.small), sum]

theorem container_entries (fits : Framed parts) (name : List UInt8) :
    ((List.range parts.length).map fun i => entryOf (readAt (qtiHeaderSize + qtiEntrySize * i) qtiEntrySize (container parts name))) =
      describe 0 parts := by
  apply List.ext_getElem
  · simp
  · intro i left right
    have row : ((describe 0 parts).map packed)[i]? = some (packed (describe 0 parts)[i]) := by
      rw [List.getElem?_map, List.getElem?_eq_getElem right, Option.map_some]
    have even : ∀ record ∈ (describe 0 parts).map packed, record.length = 16 := by
      intro record member
      obtain ⟨e, -, rfl⟩ := List.mem_map.mp member
      simp [packed, packEntry]
    have before : (((fileParts parts name).take 7).map List.length).sum = 32 := by simp [fileParts, packName_length, qtiMagic]
    have found : readAt (32 + 16 * i) 16 (fileParts parts name).flatten = packed (describe 0 parts)[i] :=
      readAt_table (k := 7) rfl before even row
    obtain ⟨part, member, described⟩ := describe_mem (List.getElem_mem right)
    obtain ⟨-, large⟩ := fits.sized part member
    have known := fits.known part member
    have palette := fits.palette part member
    have inside := described.inside
    have small := fits.small
    rw [← described.width] at large
    rw [← described.encoding] at known
    rw [← described.palette] at palette
    rw [List.getElem_map, List.getElem_range, container_parts, found]
    exact entryOf_packed (described.height.trans described.width.symm) (by omega) (by omega) palette (by omega) (by omega)

theorem container_accepted (fits : Framed parts) :
    ((describe 0 parts).any fun e => decide ((e.offset + e.size) % 2 ^ 32 > (payloadOf parts).length) || e.width == 0 ||
      e.height == 0 || decide (e.encoding > 2)) = false := by
  rw [List.any_eq_false]
  intro e member
  obtain ⟨part, there, described⟩ := describe_mem member
  have width := (fits.sized part there).1
  have known := fits.known part there
  have inside := described.inside
  have small := fits.small
  rw [← described.encoding] at known
  have wrapped : ¬ (e.offset + e.size) % 2 ^ 32 > (payloadOf parts).length := by omega
  have wide : e.width ≠ 0 := by
    rw [described.width]
    omega
  have high : e.height ≠ 0 := by
    rw [described.height]
    omega
  intro refused
  simp only [Bool.or_eq_true, decide_eq_true_eq, beq_iff_eq] at refused
  omega

theorem container_decodes (fits : Framed parts) (name : List UInt8) (member : part ∈ parts) :
    qtiDecode true (container parts name) part.1 =
      (decodePixels (part.1 * part.1) part.2.encoding part.2.paletteSize part.2.data).map fun pixels => ⟨part.1, part.1, pixels⟩ := by
  obtain ⟨k, there⟩ := List.mem_iff_getElem?.mp member
  have start : ([] : List UInt8).length = 0 := rfl
  obtain ⟨e, found, described⟩ := describe_at there start
  rw [List.nil_append] at described
  have wanted : ((describe 0 parts).map QtiEntry.width)[k]? = some part.1 := by
    rw [List.getElem?_map, found, Option.map_some, described.width]
  have only : ∀ i, ((describe 0 parts).map QtiEntry.width)[i]? = some part.1 → i = k := by
    intro i same
    rw [describe_widths] at same wanted
    have inside := (List.getElem?_eq_some_iff.mp same).1
    exact (List.getElem?_inj inside fits.distinct).mp (same.trans wanted.symm)
  have search := closer_search wanted only (describe 0 parts).length (Nat.le_refl _)
  have inside : k < (describe 0 parts).length := (List.getElem?_eq_some_iff.mp found).1
  rw [describe_length] at search inside
  dsimp only at search
  rw [if_pos inside] at search
  have payload : (container parts name).drop (qtiHeaderSize + parts.length * qtiEntrySize) = payloadOf parts := by
    have front : qtiHeaderSize + parts.length * qtiEntrySize =
        (packHeader parts.length (payloadOf parts).length (((payloadOf parts).map UInt8.toNat).sum % 2 ^ 32) name ++
          table 0 parts).length := by
      have length := container_length parts name
      rw [container, List.length_append] at length
      unfold qtiHeaderSize qtiEntrySize
      omega
    rw [container, front, List.drop_left]
  have long : ¬ (container parts name).length < qtiHeaderSize + parts.length * qtiEntrySize := by
    rw [container_length]
    unfold qtiHeaderSize qtiEntrySize
    omega
  have sized := fits.sized part member
  have dimensions : ¬ (e.width = 0 ∨ e.height = 0 ∨ e.width > qtiMaxDim ∨ e.height > qtiMaxDim) := by
    rw [described.width, described.height]
    unfold qtiMaxDim
    omega
  rw [qtiDecode, container_probe fits name]
  simp only [Option.bind_eq_bind, Option.bind_some, if_neg long, container_entries fits name, payload, ne_eq, not_true,
    if_false, container_accepted fits, search]
  rw [List.getD_eq_getElem?_getD, found]
  simp only [Option.getD_some, decodeFrame, if_neg dimensions, if_neg (Nat.not_lt.mpr described.inside)]
  simp [described.width, described.height, described.encoding, described.palette, described.data]

end Container

section Files

theorem payloadOf_append (parts more : List (Nat × Encoded)) : payloadOf (parts ++ more) = payloadOf parts ++ payloadOf more := by
  simp [payloadOf]

theorem table_append (parts more : List (Nat × Encoded)) :
    table 0 (parts ++ more) = table 0 parts ++ table (payloadOf parts).length more := by
  rw [table, describe_append, List.map_append, List.flatten_append, Nat.zero_add]
  rfl

theorem table_single (offset size : Nat) (encoded : Encoded) :
    table offset [(size, encoded)] = packEntry size encoded.encoding encoded.paletteSize offset encoded.data.length :=
  List.append_nil _

theorem payloadOf_single (size : Nat) (encoded : Encoded) : payloadOf [(size, encoded)] = encoded.data := List.append_nil _

theorem payloadOf_length {parts : List (Nat × Encoded)} {most : Nat} (each : ∀ part ∈ parts, part.2.data.length ≤ most) :
    (payloadOf parts).length ≤ parts.length * most := by
  induction parts with
  | nil => exact Nat.zero_le _
  | cons part parts ih =>
    have first := each part List.mem_cons_self
    have rest := ih fun part' member => each part' (List.mem_cons_of_mem part member)
    rw [← List.singleton_append, payloadOf_append, payloadOf_single, List.length_append, List.singleton_append, List.length_cons,
      Nat.succ_mul]
    omega

/-- The frames that build puts into its file. -/
def builtParts (frames : Nat → List UInt32) (sizes : List Nat) : List (Nat × Encoded) :=
  sizes.map fun size => (size, bestEncoding (frames size))

theorem addFrame_fold (frames : Nat → List UInt32) (done : List (Nat × Encoded)) (sizes : List Nat) :
    sizes.foldl (addFrame frames) (table 0 done, payloadOf done) =
      (table 0 (done ++ builtParts frames sizes), payloadOf (done ++ builtParts frames sizes)) := by
  induction sizes generalizing done with
  | nil => rw [builtParts, List.map_nil, List.append_nil, List.foldl_nil]
  | cons size sizes ih =>
    have next : addFrame frames (table 0 done, payloadOf done) size =
        (table 0 (done ++ [(size, bestEncoding (frames size))]), payloadOf (done ++ [(size, bestEncoding (frames size))])) := by
      rw [table_append, payloadOf_append, table_single, payloadOf_single]
      rfl
    rw [List.foldl_cons, next, ih, List.append_assoc]
    rfl

theorem build_container (keys : List Nat) (frames : Nat → List UInt32) (name : List UInt8) :
    build keys frames name = container (builtParts frames ((keys.mergeSort fun a b => decide (b ≤ a)).take 5)) name := by
  have folded := addFrame_fold frames [] ((keys.mergeSort fun a b => decide (b ≤ a)).take 5)
  rw [List.nil_append] at folded
  change List.foldl _ ([], []) _ = _ at folded
  rw [build, container, folded, builtParts, List.length_map]

theorem built_fits {sizes : List Nat} (frames : Nat → List UInt32) (any : sizes ≠ []) (few : sizes.length ≤ 5)
    (distinct : sizes.Nodup) (sized : ∀ size ∈ sizes, 1 ≤ size ∧ size ≤ 256)
    (square : ∀ size ∈ sizes, (frames size).length = size * size) : Framed (builtParts frames sizes) := by
  have each : ∀ part ∈ builtParts frames sizes, ∃ size ∈ sizes, part = (size, bestEncoding (frames size)) ∧
      Decodes (frames size) (bestEncoding (frames size)) := by
    intro part member
    obtain ⟨size, there, rfl⟩ := List.mem_map.mp member
    have filled : frames size ≠ [] := by
      rw [← List.length_pos_iff, square size there]
      exact Nat.mul_pos (sized size there).1 (sized size there).1
    exact ⟨size, there, rfl, bestEncoding_decodes filled⟩
  constructor
  case any => simpa [builtParts] using any
  case few => simpa [builtParts] using few
  case distinct =>
    have same : (builtParts frames sizes).map Prod.fst = sizes := by simp [builtParts, Function.comp_def]
    rw [same]
    exact distinct
  case sized =>
    intro part member
    obtain ⟨size, there, rfl, -⟩ := each part member
    exact sized size there
  case known =>
    intro part member
    obtain ⟨size, -, rfl, decodes⟩ := each part member
    exact decodes.known
  case palette =>
    intro part member
    obtain ⟨size, -, rfl, decodes⟩ := each part member
    exact decodes.palette
  case small =>
    have most : ∀ part ∈ builtParts frames sizes, part.2.data.length ≤ 5 * 65536 + 1024 := by
      intro part member
      obtain ⟨size, there, rfl, decodes⟩ := each part member
      have pixels : size * size ≤ 256 * 256 := Nat.mul_le_mul (sized size there).2 (sized size there).2
      have length := decodes.length
      rw [square size there] at length
      dsimp only
      omega
    have count : (builtParts frames sizes).length ≤ 5 := by simpa [builtParts] using few
    calc (payloadOf (builtParts frames sizes)).length
        ≤ (builtParts frames sizes).length * (5 * 65536 + 1024) := payloadOf_length most
      _ ≤ 5 * (5 * 65536 + 1024) := Nat.mul_le_mul_right _ count
      _ ≤ 4 * 1024 * 1024 := by decide

theorem paint_runs {payload : List UInt8} {rest : List UInt32} (pix : UInt32) (run : Nat)
    (room : paintPayloadAt + payload.length + 5 * (rest.length + 1) ≤ paintFileSize) :
    ∃ s, rest.foldlM paintPixel ⟨payload, pix, run, true⟩ = some s ∧ s.started = true ∧
      s.payload.length ≤ payload.length + 5 * rest.length ∧
      s.payload ++ UInt8.ofNat s.run :: bgra s.previous = payload ++ encodeRun pix run rest := by
  induction rest generalizing payload pix run with
  | nil => exact ⟨_, rfl, rfl, Nat.le_refl _, rfl⟩
  | cons p rest ih =>
    rw [List.length_cons] at room
    rw [List.foldlM_cons]
    unfold encodeRun
    by_cases same : p = pix ∧ run < 255
    · have longer : paintPixel ⟨payload, pix, run, true⟩ p = some ⟨payload, pix, run + 1, true⟩ := by simp [paintPixel, same]
      have room' : paintPayloadAt + payload.length + 5 * (rest.length + 1) ≤ paintFileSize := by omega
      obtain ⟨s, ran, started, length, written⟩ := ih pix (run + 1) room'
      refine ⟨s, ?_, started, ?_, ?_⟩
      · rw [longer]
        exact ran
      · rw [List.length_cons]
        omega
      · rw [if_pos same]
        exact written
    · have there : ¬ paintPayloadAt + payload.length + 5 > paintFileSize := by omega
      have grown : (payload ++ UInt8.ofNat run :: bgra pix).length = payload.length + 5 := by simp
      have next : paintPixel ⟨payload, pix, run, true⟩ p = some ⟨payload ++ UInt8.ofNat run :: bgra pix, p, 1, true⟩ := by
        simp [paintPixel, same, there]
      have room' : paintPayloadAt + (payload ++ UInt8.ofNat run :: bgra pix).length + 5 * (rest.length + 1) ≤ paintFileSize := by
        omega
      obtain ⟨s, ran, started, length, written⟩ := ih p 1 room'
      refine ⟨s, ?_, started, ?_, ?_⟩
      · rw [next]
        exact ran
      · rw [List.length_cons]
        omega
      · rw [if_neg same, written, List.append_assoc]

theorem paintFrame_runs (canvas : Nat → UInt32) {payload : List UInt8} {size : Nat}
    (room : paintPayloadAt + payload.length + 5 * (size * size) ≤ paintFileSize) :
    paintFrame canvas payload size = some (payload ++ encodeRle (scaled canvas size)) := by
  have length : (scaled canvas size).length = size * size := by simp [scaled]
  rw [← length] at room
  unfold paintFrame
  cases pixels : scaled canvas size with
  | nil => simp [encodeRle]
  | cons p rest =>
    rw [pixels, List.length_cons] at room
    obtain ⟨s, ran, started, length, written⟩ := paint_runs p 1 room
    have first : paintPixel ⟨payload, 0, 0, false⟩ p = some ⟨payload, p, 1, true⟩ := rfl
    have last : paintPayloadAt + s.payload.length + 5 ≤ paintFileSize := by omega
    have whole : (p :: rest).foldlM paintPixel ⟨payload, 0, 0, false⟩ = some s := by
      rw [List.foldlM_cons, first]
      exact ran
    rw [whole]
    simp [started, last, written, encodeRle]

/-- The frames that Paint puts into its file. -/
def paintParts (canvas : Nat → UInt32) (sizes : List Nat) : List (Nat × Encoded) :=
  sizes.map fun size => (size, ⟨qtiRle, encodeRle (scaled canvas size), 0⟩)

theorem paintFrames_parts (canvas : Nat → UInt32) {sizes : List Nat} {done : List (Nat × Encoded)}
    (room : paintPayloadAt + (payloadOf done).length + 5 * (sizes.map fun size => size * size).sum ≤ paintFileSize) :
    paintFrames canvas sizes (table 0 done, payloadOf done) =
      some (table 0 (done ++ paintParts canvas sizes), payloadOf (done ++ paintParts canvas sizes)) := by
  induction sizes generalizing done with
  | nil => rw [paintParts, List.map_nil, List.append_nil, paintFrames]
  | cons size sizes ih =>
    rw [List.map_cons, List.sum_cons] at room
    have pixels : (scaled canvas size).length = size * size := by simp [scaled]
    have length := encodeRle_length (scaled canvas size)
    have here : paintPayloadAt + (payloadOf done).length + 5 * (size * size) ≤ paintFileSize := by omega
    have frame := paintFrame_runs canvas here
    have room' : paintPayloadAt + (payloadOf (done ++ [(size, ⟨qtiRle, encodeRle (scaled canvas size), 0⟩)])).length +
        5 * (sizes.map fun size => size * size).sum ≤ paintFileSize := by
      rw [payloadOf_append, payloadOf_single, List.length_append]
      dsimp only
      omega
    have next := ih room'
    rw [table_append, payloadOf_append, table_single, payloadOf_single, List.append_assoc] at next
    rw [paintFrames, frame, Option.bind_eq_bind, Option.bind_some, List.length_append, Nat.add_sub_cancel_left]
    exact next

theorem saveQac_container (canvas : Nat → UInt32) :
    saveQac canvas = some (container (paintParts canvas [32, 24, 16]) [112, 97, 105, 110, 116]) := by
  have room : paintPayloadAt + (payloadOf []).length + 5 * ([32, 24, 16].map fun size => size * size).sum ≤ paintFileSize := by
    decide
  have frames := paintFrames_parts canvas room
  change paintFrames canvas [32, 24, 16] ([], []) = _ at frames
  rw [saveQac, frames]
  rfl

theorem paint_fits (canvas : Nat → UInt32) : Framed (paintParts canvas [32, 24, 16]) := by
  have each : ∀ part ∈ paintParts canvas [32, 24, 16], ∃ size ∈ [32, 24, 16],
      part = (size, ⟨qtiRle, encodeRle (scaled canvas size), 0⟩) := by
    intro part member
    obtain ⟨size, there, rfl⟩ := List.mem_map.mp member
    exact ⟨size, there, rfl⟩
  have bounds : ∀ size ∈ [32, 24, 16], 1 ≤ size ∧ size ≤ 32 := by decide
  constructor
  case any => exact List.cons_ne_nil _ _
  case few => exact Nat.le_of_ble_eq_true rfl
  case distinct =>
    change [32, 24, 16].Nodup
    decide
  case sized =>
    intro part member
    obtain ⟨size, there, rfl⟩ := each part member
    exact ⟨(bounds size there).1, (bounds size there).2.trans (by decide)⟩
  case known =>
    intro part member
    obtain ⟨size, -, rfl⟩ := each part member
    exact Nat.le_succ 1
  case palette =>
    intro part member
    obtain ⟨size, -, rfl⟩ := each part member
    exact Nat.zero_lt_succ 255
  case small =>
    have most : ∀ part ∈ paintParts canvas [32, 24, 16], part.2.data.length ≤ 5 * 1024 := by
      intro part member
      obtain ⟨size, there, rfl⟩ := each part member
      have pixels : (scaled canvas size).length = size * size := by simp [scaled]
      have square : size * size ≤ 32 * 32 := Nat.mul_le_mul (bounds size there).2 (bounds size there).2
      have length := encodeRle_length (scaled canvas size)
      dsimp only
      omega
    have three : (paintParts canvas [32, 24, 16]).length = 3 := rfl
    have total := payloadOf_length most
    rw [three] at total
    exact total.trans (by decide)

theorem scaled_full (canvas : Nat → UInt32) : scaled canvas 32 = (List.range 1024).map canvas := by
  apply List.map_congr_left
  intro i _
  have place : i / 32 * 32 / 32 * 32 + i % 32 * 32 / 32 = i := by omega
  exact congrArg canvas place

end Files

/-- The decoder agrees with both encoders. -/
theorem icons_read_back (keys : List Nat) (frames : Nat → List UInt32) (name : List UInt8) (canvas : Nat → UInt32)
    (any : 1 ≤ keys.length) (few : keys.length ≤ 5) (distinct : keys.Nodup) (sized : ∀ size ∈ keys, 1 ≤ size ∧ size ≤ 256)
    (square : ∀ size ∈ keys, (frames size).length = size * size) :
    (∀ size ∈ keys, qtiDecode true (build keys frames name) size = some ⟨size, size, frames size⟩) ∧
    ∃ file, saveQac canvas = some file ∧ qtiDecode true file 32 = some ⟨32, 32, (List.range 1024).map canvas⟩ := by
  constructor
  · intro size member
    have sorted : (keys.mergeSort fun a b => decide (b ≤ a)).Perm keys := List.mergeSort_perm _ _
    have all : (keys.mergeSort fun a b => decide (b ≤ a)).take 5 = keys.mergeSort fun a b => decide (b ≤ a) :=
      List.take_of_length_le (by rwa [sorted.length_eq])
    have some_ : (keys.mergeSort fun a b => decide (b ≤ a)) ≠ [] := by
      rw [← List.length_pos_iff, sorted.length_eq]
      exact any
    have fits := built_fits frames some_ (by rwa [sorted.length_eq]) (sorted.nodup_iff.mpr distinct)
      (fun s there => sized s (sorted.mem_iff.mp there)) (fun s there => square s (sorted.mem_iff.mp there))
    have there : (size, bestEncoding (frames size)) ∈ builtParts frames (keys.mergeSort fun a b => decide (b ≤ a)) :=
      List.mem_map_of_mem (sorted.mem_iff.mpr member)
    have filled : frames size ≠ [] := by
      rw [← List.length_pos_iff, square size member]
      exact Nat.mul_pos (sized size member).1 (sized size member).1
    have pixels := (bestEncoding_decodes filled).pixels
    rw [square size member] at pixels
    have decoded := container_decodes fits name there
    rw [build_container, all]
    rw [pixels] at decoded
    exact decoded
  · have there : (32, (⟨qtiRle, encodeRle (scaled canvas 32), 0⟩ : Encoded)) ∈ paintParts canvas [32, 24, 16] :=
      List.mem_cons_self
    have decoded := container_decodes (paint_fits canvas) [112, 97, 105, 110, 116] there
    have length : (scaled canvas 32).length = 32 * 32 := by simp [scaled]
    have pixels := (rle_frame (scaled canvas 32)).pixels
    rw [length] at pixels
    rw [pixels, scaled_full] at decoded
    exact ⟨_, saveQac_container canvas, decoded⟩

/-- Two sizes, one of them of a single pixel. -/
theorem small_icon_reads_back :
    (∀ size ∈ ([1, 2] : List Nat), qtiDecode true (build [1, 2] (fun n => List.replicate (n * n) 0xFF336699) []) size =
      some ⟨size, size, List.replicate (size * size) 0xFF336699⟩) ∧
    ∃ file, saveQac (fun _ => 0) = some file ∧ qtiDecode true file 32 = some ⟨32, 32, (List.range 1024).map fun _ => 0⟩ :=
  icons_read_back [1, 2] (fun n => List.replicate (n * n) 0xFF336699) [] (fun _ => 0) (by decide) (by decide) (by decide)
    (by decide) (by simp)

end Qito.Gfx
