import Qito.Ramdisk.Mount

/-! Which images the loader reads only inside. The entry count and the ranges of
the entries are not compared with the length of the image before they are used, so
this is a condition on every entry the header announces. -/
namespace Qito.Ramdisk
open Buffers Faults Packed Words

def headerOf (image : Bytes) : Header where
  magic := readAt 0 8 image
  version := field image 8 4
  entryCount := field image 12 4
  totalSize := field image 16 8
  dataOffset := field image 24 8
  checksum := field image 36 4

/-- struct qitofs_entry. -/
structure Entry where
  path : Bytes
  type : Nat
  permissions : Nat
  size : Nat
  offset : Nat
  modified : Nat
  uid : Nat
  gid : Nat

def entryOf (image : Bytes) (i : Nat) : Entry where
  path := (image.drop (entryAt i)).takeWhile (· != 0)
  type := field image (entryAt i + 192) 4
  permissions := field image (entryAt i + 196) 4
  size := field image (entryAt i + 200) 8
  offset := field image (entryAt i + 208) 8
  modified := field image (entryAt i + 216) 8
  uid := field image (entryAt i + 224) 4
  gid := field image (entryAt i + 228) 4

/-- The header is complete and names a version and a size that can be. -/
def Announced (image : Bytes) : Prop :=
  headerSize ≤ image.length ∧ (headerOf image).magic = qitofsMagic ∧ (headerOf image).version = qitofsVersion ∧
    (headerOf image).totalSize ≤ image.length

def payload (image : Bytes) (i : Nat) : Bytes :=
  readAt (dataAt (headerOf image) (entryOf image i).offset) (entryOf image i).size image

/-- What entry i adds to the checksum. -/
def entrySum (image : Bytes) (i : Nat) : Nat :=
  if (entryOf image i).type = typeFile then ((payload image i).map UInt8.toNat).sum else 0

/-- The sum of the bytes of all files. -/
def payloadSum (image : Bytes) : Nat :=
  ((List.range (headerOf image).entryCount).map (entrySum image)).sum % 2 ^ 32

/-- The data of an entry lies in the image. -/
def DataInside (image : Bytes) (i : Nat) : Prop :=
  dataAt (headerOf image) (entryOf image i).offset + (entryOf image i).size ≤ image.length

/-- What the checksum needs of entry i is in the image. -/
def SumInside (image : Bytes) (i : Nat) : Prop :=
  entryAt i + 196 ≤ image.length ∧ ((entryOf image i).type = typeFile → entryAt i + 208 ≤ image.length ∧
    ((entryOf image i).size ≠ 0 → entryAt i + 216 ≤ image.length ∧ DataInside image i))

/-- The bounds test of the loader, in its own 64-bit arithmetic. -/
def PassesTest (image : Bytes) (i : Nat) : Prop :=
  wrap64 ((entryOf image i).offset + (entryOf image i).size) ≤ sub64 (headerOf image).totalSize (headerOf image).dataOffset

/-- What is unpacked of entry i is in the image. -/
def UnpackInside (image : Bytes) (i : Nat) : Prop :=
  0 ∈ image.drop (entryAt i) ∧ entryAt i + 196 ≤ image.length ∧
    if (entryOf image i).type = typeDir then entryAt i + 200 ≤ image.length
    else entryAt i + 216 ≤ image.length ∧ (PassesTest image i →
      ((entryOf image i).size ≠ 0 → DataInside image i) ∧ entryAt i + entrySize ≤ image.length)

/-- Every entry the header announces lies in the image as far as it is used. -/
def Contained (image : Bytes) : Prop :=
  Announced image → (∀ i < (headerOf image).entryCount, SumInside image i) ∧
    (payloadSum image = (headerOf image).checksum → ∀ i < (headerOf image).entryCount, UnpackInside image i)

section Reads
variable {α : Type} {image : Bytes} {offset len : Nat}

theorem bytesAt_inside (inside : offset + len ≤ image.length) : bytesAt image offset len = .ok (readAt offset len image) :=
  if_pos inside

theorem wordAt_inside (inside : offset + len ≤ image.length) : wordAt image offset len = .ok (field image offset len) := by
  unfold wordAt
  rw [bytesAt_inside inside]
  rfl

theorem returns_bytes {f : Bytes → Except Fault α} :
    Returns (bytesAt image offset len >>= f) ↔ offset + len ≤ image.length ∧ Returns (f (readAt offset len image)) := by
  by_cases inside : offset + len ≤ image.length
  · simp [bytesAt_inside inside, inside, returns_bind]
  · simp [bytesAt, inside, returns_bind]

theorem returns_word {f : Nat → Except Fault α} :
    Returns (wordAt image offset len >>= f) ↔ offset + len ≤ image.length ∧ Returns (f (field image offset len)) := by
  by_cases inside : offset + len ≤ image.length
  · simp [wordAt_inside inside, inside, returns_bind]
  · have fault : wordAt image offset len = .error (.outside offset len) := by
      simp only [wordAt, bytesAt, if_neg inside]
      rfl
    simp [fault, inside, returns_bind]

theorem returns_string {f : Bytes → Except Fault α} : Returns (stringAt image offset >>= f) ↔
    0 ∈ image.drop offset ∧ Returns (f ((image.drop offset).takeWhile (· != 0))) := by
  by_cases ends : 0 ∈ image.drop offset
  · simp [stringAt, ends, returns_bind]
  · simp [stringAt, ends, returns_bind]

theorem readHeader_inside (inside : headerSize ≤ image.length) : readHeader image = .ok (headerOf image) := by
  have whole : 72 ≤ image.length := inside
  unfold readHeader
  rw [bytesAt_inside (by omega), wordAt_inside (by omega), wordAt_inside (by omega), wordAt_inside (by omega),
    wordAt_inside (by omega), wordAt_inside (by omega)]
  rfl

end Reads

section Checksum
variable {image : Bytes}

theorem sumEntry_returns (i checksum : Nat) : Returns (sumEntry image (headerOf image) checksum i) ↔ SumInside image i := by
  simp only [sumEntry, returns_word, SumInside, entryOf]
  by_cases file : field image (entryAt i + 192) 4 = typeFile
  · by_cases empty : field image (entryAt i + 200) 8 = 0
    · simp [file, empty, returns_word]
    · simp only [file, empty, ne_eq, not_true_eq_false, not_false_eq_true, if_false, returns_word, returns_bytes,
        returns_pure, and_true, true_implies, DataInside, entryOf]
  · simp [file]

theorem sumEntry_inside {i checksum : Nat} (inside : SumInside image i) (small : checksum < 2 ^ 32) :
    sumEntry image (headerOf image) checksum i = .ok ((checksum + entrySum image i) % 2 ^ 32) := by
  obtain ⟨known, file⟩ := inside
  have kept : checksum % 2 ^ 32 = checksum := Nat.mod_eq_of_lt small
  unfold sumEntry entrySum
  rw [wordAt_inside (by omega)]
  by_cases isFile : (entryOf image i).type = typeFile
  · obtain ⟨sized, data⟩ := file isFile
    have same : field image (entryAt i + 192) 4 = typeFile := isFile
    rw [wordAt_inside (by omega)]
    by_cases empty : (entryOf image i).size = 0
    · have zero : field image (entryAt i + 200) 8 = 0 := empty
      simp only [same, zero, isFile, payload, empty, readAt, List.take_zero, List.map_nil, List.sum_nil, if_true,
        Nat.add_zero, kept]
      rfl
    · obtain ⟨placed, within⟩ := data empty
      have some_ : field image (entryAt i + 200) 8 ≠ 0 := empty
      have reads : bytesAt image (dataAt (headerOf image) (field image (entryAt i + 208) 8)) (field image (entryAt i + 200) 8) =
          .ok (payload image i) := bytesAt_inside within
      rw [wordAt_inside (by omega)]
      simp [same, some_, isFile, reads, bind, Except.bind, pure, Except.pure]
  · have other : field image (entryAt i + 192) 4 ≠ typeFile := isFile
    simp only [bind, Except.bind, if_pos other, if_neg isFile, Nat.add_zero, kept]
    rfl

theorem checksum_inside (inside : ∀ i < (headerOf image).entryCount, SumInside image i) :
    (List.range (headerOf image).entryCount).foldlM (sumEntry image (headerOf image)) 0 = .ok (payloadSum image) := by
  have round (before : List Nat) (i : Nat) (after : List Nat) (sum : Nat)
      (whole : List.range (headerOf image).entryCount = before ++ i :: after)
      (same : sum = (before.map (entrySum image)).sum % 2 ^ 32) : ∃ sum', sumEntry image (headerOf image) sum i = .ok sum' ∧
        sum' = ((before ++ [i]).map (entrySum image)).sum % 2 ^ 32 := by
    have member : i ∈ List.range (headerOf image).entryCount := by
      rw [whole]
      simp
    refine ⟨_, sumEntry_inside (inside i (List.mem_range.mp member)) (same ▸ Nat.mod_lt _ (by decide)), ?_⟩
    simp [same]
  obtain ⟨sum, run, same⟩ := fold_invariant _ round (rfl : 0 = _)
  rw [run, same]
  rfl

end Checksum

/-- The calls return wherever the invariant holds, and keep it. -/
structure Filesystem.Sound {σ ν : Type} (F : Filesystem σ ν) (Inv : σ → Prop) : Prop where
  lookup : ∀ s path, Inv s → ∃ found, F.lookup s path = some found
  mkdir : ∀ s path perms, Inv s → ∃ code t, F.mkdir s path perms = some (code, t) ∧ Inv t
  create : ∀ s path perms, Inv s → ∃ node t, F.create s path perms = some (node, t) ∧ Inv t
  kmalloc : ∀ s node size, Inv s → Inv (F.kmalloc s node size).2
  copy : ∀ s node bytes, Inv s → Inv (F.copy s node bytes)
  describe : ∀ s node perms modified uid gid, Inv s → Inv (F.describe s node perms modified uid gid)

section Unpacking
variable {σ ν : Type} {F : Filesystem σ ν} {Inv : σ → Prop} {image : Bytes} {s : σ}

theorem ensureParent_sound (sound : F.Sound Inv) (inv : Inv s) (path : Bytes) :
    ∃ t, ensureParent F s path = .ok t ∧ Inv t := by
  unfold ensureParent
  split
  · exact ⟨s, rfl, inv⟩
  · rename_i parent _ _
    split
    · exact ⟨s, rfl, inv⟩
    · obtain ⟨found, search⟩ := sound.lookup s parent inv
      obtain ⟨code, t, make, inv'⟩ := sound.mkdir s parent 0o755 inv
      cases found with
      | some node => exact ⟨s, by rw [search]; rfl, inv⟩
      | none => exact ⟨t, by rw [search, make]; rfl, inv'⟩

theorem fileNode_sound (sound : F.Sound Inv) (inv : Inv s) {i : Nat} (inside : entryAt i + 200 ≤ image.length) (path : Bytes) :
    ∃ node t, fileNode F image i s path = .ok (node, t) ∧ Inv t := by
  obtain ⟨found, search⟩ := sound.lookup s path inv
  unfold fileNode
  rw [search, wordAt_inside (by omega)]
  cases found with
  | some node => exact ⟨some node, s, rfl, inv⟩
  | none =>
    obtain ⟨node, t, make, inv'⟩ := sound.create s path (field image (entryAt i + 196) 4) inv
    refine ⟨node, t, ?_, inv'⟩
    change call (F.create s path (field image (entryAt i + 196) 4)) = _
    rw [make]
    rfl

theorem fillNode_sound (sound : F.Sound Inv) (inv : Inv s) {header : Header} {i offset size : Nat}
    (entry : entryAt i + entrySize ≤ image.length) (data : size ≠ 0 → dataAt header offset + size ≤ image.length) (node : ν) :
    ∃ t, fillNode F image header i offset size s node = .ok t ∧ Inv t := by
  have whole : entryAt i + 232 ≤ image.length := entry
  unfold fillNode
  rw [wordAt_inside (by omega), wordAt_inside (by omega), wordAt_inside (by omega), wordAt_inside (by omega)]
  by_cases empty : size = 0
  · exact ⟨_, if_pos empty, sound.describe s node _ _ _ _ inv⟩
  · have grown := sound.kmalloc s node size inv
    simp only [if_neg empty, bytesAt_inside (data empty)]
    cases memory : F.kmalloc s node size with
    | mk got t =>
      rw [memory] at grown
      cases got with
      | false => exact ⟨t, rfl, grown⟩
      | true => exact ⟨_, rfl, sound.describe _ node _ _ _ _ (sound.copy t node _ grown)⟩

theorem unpackEntry_inside (sound : F.Sound Inv) (inv : Inv s) {i : Nat} (inside : UnpackInside image i) :
    ∃ t, unpackEntry F image (headerOf image) s i = .ok t ∧ Inv t := by
  obtain ⟨ends, known, rest⟩ := inside
  have typed : wordAt image (entryAt i + 192) 4 = .ok (field image (entryAt i + 192) 4) := wordAt_inside known
  unfold unpackEntry
  simp only [stringAt, if_pos ends, typed, bind, Except.bind]
  generalize Vfs.strlcpy _ Vfs.fsPathMax = path
  by_cases dir : (entryOf image i).type = typeDir
  · have isDir : field image (entryAt i + 192) 4 = typeDir := dir
    rw [if_pos dir] at rest
    rw [if_pos isDir]
    obtain ⟨found, search⟩ := sound.lookup s path inv
    obtain ⟨code, t, make, inv'⟩ := sound.mkdir s path (field image (entryAt i + 196) 4) inv
    unfold unpackDir
    rw [search, wordAt_inside (by omega)]
    cases found with
    | some node => exact ⟨s, rfl, inv⟩
    | none =>
      refine ⟨t, ?_, inv'⟩
      simp only [call, bind, Except.bind, make]
      rfl
  · have noDir : ¬ field image (entryAt i + 192) 4 = typeDir := dir
    rw [if_neg dir] at rest
    rw [if_neg noDir]
    obtain ⟨numbers, tested⟩ := rest
    unfold unpackFile
    rw [wordAt_inside (by omega), wordAt_inside (by omega)]
    by_cases passes : PassesTest image i
    · obtain ⟨data, entry⟩ := tested passes
      have past : ¬ wrap64 (field image (entryAt i + 208) 8 + field image (entryAt i + 200) 8) >
          sub64 (headerOf image).totalSize (headerOf image).dataOffset := Nat.not_lt.mpr passes
      obtain ⟨t, parent, inv'⟩ := ensureParent_sound sound inv path
      obtain ⟨node, u, make, inv''⟩ := fileNode_sound sound inv' (by omega : entryAt i + 200 ≤ image.length) path
      simp only [bind, Except.bind, if_neg past, parent, make]
      cases node with
      | none => exact ⟨u, rfl, inv''⟩
      | some node => exact fillNode_sound sound inv'' entry data node
    · exact ⟨s, if_pos (Nat.lt_of_not_le passes), inv⟩

/-- A filesystem that has nothing yet and makes whatever is asked for. -/
def blank : Filesystem Unit Unit where
  lookup _ _ := some none
  mkdir _ _ _ := some (0, ())
  create _ _ _ := some (some (), ())
  kmalloc _ _ _ := (true, ())
  copy _ _ _ := ()
  describe _ _ _ _ _ _ := ()

theorem blank_sound : blank.Sound fun _ => True where
  lookup _ _ _ := ⟨none, rfl⟩
  mkdir _ _ _ _ := ⟨0, (), rfl, trivial⟩
  create _ _ _ _ := ⟨some (), (), rfl, trivial⟩
  kmalloc _ _ _ _ := trivial
  copy _ _ _ _ := trivial
  describe _ _ _ _ _ _ _ := trivial

theorem fileNode_blank {i : Nat} {u : Unit} {path : Bytes} {made : Option Unit × Unit}
    (run : fileNode blank image i u path = .ok made) : made = (some (), ()) := by
  change (wordAt image (entryAt i + 196) 4 >>= fun _ => .ok (some (), ())) = .ok made at run
  obtain ⟨_, -, same⟩ := bind_ok.mp run
  exact (Except.ok.inj same).symm

theorem fillNode_blank {header : Header} {i offset size : Nat} {u : Unit}
    (run : Returns (fillNode blank image header i offset size u ())) :
    (size ≠ 0 → dataAt header offset + size ≤ image.length) ∧ entryAt i + entrySize ≤ image.length := by
  unfold fillNode at run
  by_cases empty : size = 0
  · simp only [if_pos empty, returns_word] at run
    exact ⟨fun some_ => absurd empty some_, run.2.2.2.1⟩
  · simp only [if_neg empty, blank, returns_bytes, returns_word] at run
    exact ⟨fun _ => run.1, run.2.2.2.2.1⟩

theorem unpackEntry_blank (i : Nat) (u : Unit) :
    Returns (unpackEntry blank image (headerOf image) u i) ↔ UnpackInside image i := by
  constructor
  · intro run
    simp only [unpackEntry, returns_string, returns_word] at run
    obtain ⟨ends, known, run⟩ := run
    refine ⟨ends, known, ?_⟩
    by_cases dir : (entryOf image i).type = typeDir
    · have isDir : field image (entryAt i + 192) 4 = typeDir := dir
      rw [if_pos isDir] at run
      rw [if_pos dir]
      exact (returns_word.mp run).1
    · have noDir : ¬ field image (entryAt i + 192) 4 = typeDir := dir
      rw [if_neg noDir] at run
      rw [if_neg dir]
      simp only [unpackFile, returns_word] at run
      obtain ⟨placed, sized, run⟩ := run
      refine ⟨placed, fun passes => ?_⟩
      have past : ¬ wrap64 (field image (entryAt i + 208) 8 + field image (entryAt i + 200) 8) >
          sub64 (headerOf image).totalSize (headerOf image).dataOffset := Nat.not_lt.mpr passes
      rw [if_neg past, returns_bind] at run
      obtain ⟨_, -, run⟩ := run
      obtain ⟨made, make, run⟩ := returns_bind.mp run
      cases fileNode_blank make
      exact fillNode_blank run
  · intro inside
    obtain ⟨t, run, -⟩ := unpackEntry_inside blank_sound (s := u) trivial inside
    exact ⟨t, run⟩

theorem fsMountRamdisk_announced (announced : Announced image) : fsMountRamdisk F (some image) s =
    ((List.range (headerOf image).entryCount).foldlM (sumEntry image (headerOf image)) 0 >>= fun checksum =>
      if checksum ≠ (headerOf image).checksum then pure (-qeIo, s)
      else (List.range (headerOf image).entryCount).foldlM (unpackEntry F image (headerOf image)) s >>= fun s =>
        bytesAt image 40 32 >>= fun _ => pure (0, s)) := by
  obtain ⟨long, magic, version, total⟩ := announced
  have fits : ¬ (headerOf image).totalSize > image.length := Nat.not_lt.mpr total
  have whole : ¬ image.length < headerSize := Nat.not_lt.mpr long
  simp only [fsMountRamdisk, if_neg whole, readHeader_inside long]
  change (if (headerOf image).magic ≠ qitofsMagic then _ else _) = _
  rw [if_neg (not_not.mpr magic), if_neg (not_not.mpr version), if_neg fits]

theorem fsMountRamdisk_refused (refused : ¬ Announced image) : fsMountRamdisk F (some image) s = .ok (-Vfs.qeInval, s) := by
  by_cases long : headerSize ≤ image.length
  · have whole : ¬ image.length < headerSize := Nat.not_lt.mpr long
    simp only [fsMountRamdisk, if_neg whole, readHeader_inside long]
    change (if (headerOf image).magic ≠ qitofsMagic then _ else _) = _
    split
    · rfl
    · rename_i magic
      split
      · rfl
      · rename_i version
        split
        · rfl
        · rename_i fits
          exact absurd ⟨long, not_not.mp magic, not_not.mp version, Nat.le_of_not_lt fits⟩ refused
  · simp only [fsMountRamdisk, if_pos (Nat.lt_of_not_le long)]
    rfl

theorem mount_returns (sound : F.Sound Inv) (inv : Inv s) (contained : Contained image) :
    ∃ code t, fsMountRamdisk F (some image) s = .ok (code, t) ∧ Inv t := by
  by_cases announced : Announced image
  · obtain ⟨summed, unpacked⟩ := contained announced
    rw [fsMountRamdisk_announced announced, checksum_inside summed]
    by_cases matches_ : payloadSum image = (headerOf image).checksum
    · have round (before : List Nat) (i : Nat) (after : List Nat) (s : σ)
          (whole : List.range (headerOf image).entryCount = before ++ i :: after) (inv : Inv s) :
          ∃ t, unpackEntry F image (headerOf image) s i = .ok t ∧ Inv t := by
        have member : i ∈ List.range (headerOf image).entryCount := by
          rw [whole]
          simp
        exact unpackEntry_inside sound inv (unpacked matches_ i (List.mem_range.mp member))
      obtain ⟨t, run, inv'⟩ := fold_invariant (fun _ => Inv) round inv
      refine ⟨0, t, ?_, inv'⟩
      change (if payloadSum image ≠ (headerOf image).checksum then _ else _) = _
      rw [if_neg (not_not.mpr matches_), run, bytesAt_inside announced.1]
      rfl
    · exact ⟨-qeIo, s, if_pos matches_, inv⟩
  · exact ⟨-Vfs.qeInval, s, fsMountRamdisk_refused announced, inv⟩

end Unpacking

/-- The loader stays inside an image, whatever filesystem it fills, just when the
image contains what it announces. -/
theorem mount_inside_iff (image : Bytes) :
    (∀ (σ ν : Type) (F : Filesystem σ ν) (Inv : σ → Prop) (s : σ), F.Sound Inv → Inv s →
      Returns (fsMountRamdisk F (some image) s)) ↔ Contained image := by
  constructor
  · intro always announced
    have run := always Unit Unit blank (fun _ => True) () blank_sound trivial
    rw [fsMountRamdisk_announced announced, returns_bind] at run
    obtain ⟨checksum, sum, run⟩ := run
    have summed : ∀ i < (headerOf image).entryCount, SumInside image i := by
      intro i inside
      exact (returns_fold (fun i _ checksum => sumEntry_returns i checksum) 0).mp ⟨checksum, sum⟩ i (List.mem_range.mpr inside)
    refine ⟨summed, fun matches_ i inside => ?_⟩
    cases Except.ok.inj ((checksum_inside summed).symm.trans sum)
    rw [if_neg (not_not.mpr matches_), returns_bind] at run
    obtain ⟨u, unpack, -⟩ := run
    exact (returns_fold (fun i _ u => unpackEntry_blank i u) ()).mp ⟨u, unpack⟩ i (List.mem_range.mpr inside)
  · intro contained σ ν F Inv s sound inv
    obtain ⟨code, t, run, -⟩ := mount_returns sound inv contained
    exact ⟨(code, t), run⟩

/-- A header alone that announces one entry. -/
def headerOnly : Bytes := qitofsMagic ++ pack 4 1 ++ pack 4 1 ++ pack 8 72 ++ pack 8 72 ++ pack 4 0 ++ pack 4 0 ++ List.replicate 32 0

/-- The type of the entry is read behind the end of the image. -/
theorem headerOnly_read_outside : headerOnly.length = 72 ∧
    fsMountRamdisk blank (some headerOnly) () = .error (.outside 264 4) ∧
    ¬ ∀ (image : Bytes) (σ ν : Type) (F : Filesystem σ ν) (Inv : σ → Prop) (s : σ), F.Sound Inv → Inv s →
      Returns (fsMountRamdisk F (some image) s) := by
  have fault : fsMountRamdisk blank (some headerOnly) () = .error (.outside 264 4) := by decide +kernel
  refine ⟨by decide +kernel, fault, fun always => ?_⟩
  have run := always headerOnly Unit Unit blank (fun _ => True) () blank_sound trivial
  rw [fault, returns_error] at run
  exact run

end Qito.Ramdisk
