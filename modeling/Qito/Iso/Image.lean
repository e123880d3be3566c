import Mathlib.Data.List.Forall2
import Mathlib.Logic.Function.Basic
import Qito.Iso.Tree
import Qito.Lib.Packed

/-! IsoBuilder.build. A number that struct.pack refuses, or a length that does not fit a
byte, ends it without an image. -/
namespace Qito.Iso
open Buffers

abbrev sector : Nat := 2048

def alignUp (value boundary : Nat) : Nat := (value + boundary - 1) / boundary * boundary

/-- struct.pack of one number. -/
def pack (big : Bool) (width value : Nat) : Option Bytes :=
  if value < 256 ^ width then some (if big then (Packed.pack width value).reverse else Packed.pack width value) else none

def bothEndian (width value : Nat) : Option Bytes := do
  let little ← pack false width value
  let big ← pack true width value
  some (little ++ big)

def dirDatetime (t : Stamp) : Bytes :=
  [UInt8.ofNat (min 255 (t.year - 1900)), UInt8.ofNat t.mon, UInt8.ofNat t.mday, UInt8.ofNat t.hour, UInt8.ofNat t.min, UInt8.ofNat t.sec, 0]

/-- A number in this many decimal digits. -/
def decimal (width n : Nat) : Bytes := (List.range width).reverse.map fun k => UInt8.ofNat (48 + n / 10 ^ k % 10)

def isoDatetime (t : Stamp) : Bytes :=
  decimal 4 t.year ++ decimal 2 t.mon ++ decimal 2 t.mday ++ decimal 2 t.hour ++ decimal 2 t.min ++ decimal 2 t.sec ++ [48, 48, 0]

def ljust (text : Bytes) (length : Nat) (fill : UInt8) : Bytes := text ++ List.replicate (length - text.length) fill

def padStr (text : Text) (length : Nat) : Bytes :=
  ljust ((text.map fun c => if c.toNat < 128 then UInt8.ofNat c.toNat else 63).take length) length 32

def padUcs2 (text : Text) (length : Nat) : Bytes := ljust ((utf16be text).take length) length 0

/-- What a directory record says. -/
structure Entry where
  identifier : Bytes
  isDir : Bool
  extent : Nat
  length : Nat

def identifier (name : Text) (isDir joliet : Bool) (special : Option UInt8) : Bytes :=
  match special with
  | some c => [c]
  | none => if joliet then utf16be name else encodeAscii (isoName name isDir)

/-- The length of a record, with the byte that keeps records 16-bit aligned. -/
def recordLength (n : Nat) : Nat := 33 + n + (33 + n) % 2

def dirRecord (stamp : Stamp) (e : Entry) : Option Bytes :=
  if recordLength e.identifier.length ≤ 255 then do
    let extent ← bothEndian 4 e.extent
    let size ← bothEndian 4 e.length
    let sequence ← bothEndian 2 1
    some (UInt8.ofNat (recordLength e.identifier.length) :: 0 :: (extent ++ size ++ dirDatetime stamp ++
      [if e.isDir then 2 else 0, 0, 0] ++ sequence ++ UInt8.ofNat e.identifier.length :: e.identifier ++
      List.replicate ((33 + e.identifier.length) % 2) 0))
  else none

/-- What build fills in at the nodes. -/
structure Layout where
  extent : Nat → Nat
  length : Nat → Nat
  jolietExtent : Nat → Nat
  jolietLength : Nat → Nat

namespace IsoBuilder
variable (b : IsoBuilder)

def initialLayout : Layout := ⟨fun _ => 0, fun i => (b.node i).data.length, fun _ => 0, fun _ => 0⟩

/-- The record of a node with the extent and length that are in it. -/
def nodeRecord (a : Layout) (joliet : Bool) (special : Option UInt8) (i : Nat) : Option Bytes :=
  dirRecord b.timestamp ⟨identifier (b.node i).name (b.node i).isDir joliet special, (b.node i).isDir, a.extent i, a.length i⟩

def dirSize (a : Layout) (joliet : Bool) (d : Nat) : Option Nat := do
  let self ← b.nodeRecord a joliet (some 0) d
  let up ← b.nodeRecord a joliet (some 1) d
  let records ← (b.sortedChildren d).mapM (b.nodeRecord a joliet none)
  some (alignUp (self.length + up.length + (records.map List.length).sum) sector)

def placeDir (joliet : Bool) (s : Layout × Nat) (d : Nat) : Option (Layout × Nat) := do
  let length ← b.dirSize s.1 joliet d
  let a :=
    if joliet then
      { s.1 with jolietLength := Function.update s.1.jolietLength d length, jolietExtent := Function.update s.1.jolietExtent d s.2 }
    else { s.1 with length := Function.update s.1.length d length, extent := Function.update s.1.extent d s.2 }
  some (a, s.2 + length / sector)

def placeFile (s : Layout × Nat) (f : Nat) : Layout × Nat :=
  ({ s.1 with extent := Function.update s.1.extent f s.2, length := Function.update s.1.length f (b.node f).data.length },
    s.2 + alignUp (b.node f).data.length sector / sector)

def tableIdentifier (joliet : Bool) (d : Nat) : Bytes := if d = 0 then [0] else identifier (b.node d).name true joliet none

def pathRecord (a : Layout) (joliet little : Bool) (d : Nat) : Option Bytes :=
  let name := b.tableIdentifier joliet d
  if name.length ≤ 255 then do
    let extent ← pack (!little) 4 (if joliet then a.jolietExtent d else a.extent d)
    let parent ← pack (!little) 2 (b.parentNumber d)
    some (UInt8.ofNat name.length :: 0 :: (extent ++ parent ++ name ++ List.replicate (name.length % 2) 0))
  else none

/-- The L-path or M-path table. -/
def pathTable (a : Layout) (joliet little : Bool) : Option Bytes := do
  let records ← b.allDirs.mapM (b.pathRecord a joliet little)
  some records.flatten

/-- Where everything goes: the four path tables with their sectors, and the sectors of the image. -/
structure Plan where
  layout : Layout
  tables : List (Nat × Bytes)
  total : Nat

def plan : Option Plan := do
  let (a, cursor) ← b.allDirs.foldlM (b.placeDir false) (b.initialLayout, 21)
  let (a, cursor) ← b.allDirs.foldlM (b.placeDir true) (a, cursor)
  let ptL ← b.pathTable a false true
  let ptM ← b.pathTable a false false
  let jptL ← b.pathTable a true true
  let jptM ← b.pathTable a true false
  let ptMLba := cursor + alignUp ptL.length sector / sector
  let jptLLba := ptMLba + alignUp ptM.length sector / sector
  let jptMLba := jptLLba + alignUp jptL.length sector / sector
  let (a', end_) := b.files.foldl b.placeFile (a, jptMLba + alignUp jptM.length sector / sector)
  some ⟨a', [(cursor, ptL), (ptMLba, ptM), (jptLLba, jptL), (jptMLba, jptM)], max end_ 32⟩

def extentOf (a : Layout) (joliet : Bool) (i : Nat) : Nat :=
  if joliet && (b.node i).isDir then a.jolietExtent i else a.extent i

def lengthOf (a : Layout) (joliet : Bool) (i : Nat) : Nat :=
  if joliet && (b.node i).isDir then a.jolietLength i else a.length i

/-- What the record of a node in its directory says. -/
def entryOf (a : Layout) (joliet : Bool) (special : Option UInt8) (i : Nat) : Entry :=
  ⟨identifier (b.node i).name (b.node i).isDir joliet special, (b.node i).isDir, b.extentOf a joliet i, b.lengthOf a joliet i⟩

def parentOf (d : Nat) : Nat := (b.allDirs.find? fun p => b.dirNumber p == b.parentNumber d).getD 0

/-- The records of a directory, those of . and .. first. -/
def entries (a : Layout) (joliet : Bool) (d : Nat) : List Entry :=
  b.entryOf a joliet (some 0) d :: b.entryOf a joliet (some 1) (b.parentOf d) :: (b.sortedChildren d).map (b.entryOf a joliet none)

/-- A record does not straddle a sector boundary. -/
def appendRecord (buf record : Bytes) : Bytes :=
  if sector < buf.length % sector + record.length then buf ++ List.replicate (sector - buf.length % sector) 0 ++ record
  else buf ++ record

def dirBuffer (a : Layout) (joliet : Bool) (d : Nat) : Option Bytes := do
  let self ← dirRecord b.timestamp (b.entryOf a joliet (some 0) d)
  let up ← dirRecord b.timestamp (b.entryOf a joliet (some 1) (b.parentOf d))
  let records ← ((b.sortedChildren d).map (b.entryOf a joliet none)).mapM (dirRecord b.timestamp)
  some (records.foldl appendRecord (self ++ up))

/-- A sector of zeros with these parts in it. -/
def sectorOf (parts : List (Nat × Bytes)) : Bytes :=
  parts.foldl (fun d part => writeAt 0 part.1 part.2 d) (List.replicate sector 0)

@[grind =] def cd001 : Bytes := [67, 68, 48, 48, 49]

def rootRecord (a : Layout) (joliet : Bool) : Option Bytes :=
  dirRecord b.timestamp ⟨[0], true, if joliet then a.jolietExtent 0 else a.extent 0, if joliet then a.jolietLength 0 else a.length 0⟩

def noDate : Bytes := List.replicate 16 48 ++ [0]

/-- What the primary and the supplementary descriptor have in common. -/
def volumeParts (p : Plan) (joliet : Bool) (size lba lba' : Nat) : Option (List (Nat × Bytes)) := do
  let total ← bothEndian 4 p.total
  let one ← bothEndian 2 1
  let block ← bothEndian 2 sector
  let tableSize ← bothEndian 4 size
  let little ← pack false 4 lba
  let none_ ← pack false 4 0
  let big ← pack true 4 lba'
  let root ← b.rootRecord p.layout joliet
  some [(1, cd001), (6, [1]), (80, total), (120, one), (124, one), (128, block), (132, tableSize), (140, little), (144, none_), (148, big),
    (152, none_), (156, root), (813, isoDatetime b.timestamp), (830, isoDatetime b.timestamp), (847, noDate), (864, noDate), (881, [1])]

def pvd (p : Plan) (size lba lba' : Nat) : Option Bytes := do
  let parts ← b.volumeParts p false size lba lba'
  some (sectorOf ([(0, [1]), (8, padStr [] 32), (40, padStr b.volumeId 32), (190, padStr [] 128), (318, padStr b.appId 128),
    (446, padStr b.appId 128), (574, padStr b.appId 128), (702, padStr [] 37), (739, padStr [] 37), (776, padStr [] 37)] ++ parts))

def svd (p : Plan) (size lba lba' : Nat) : Option Bytes := do
  let parts ← b.volumeParts p true size lba lba'
  some (sectorOf ([(0, [2]), (8, padUcs2 [] 32), (40, padUcs2 b.volumeId 32), (88, ljust [37, 47, 69] 32 0), (190, padUcs2 [] 128),
    (318, padUcs2 b.appId 128), (446, padUcs2 b.appId 128), (574, padUcs2 b.appId 128)] ++ parts))

def bootRecord (catalog : Nat) : Option Bytes := do
  let lba ← pack false 4 catalog
  some (sectorOf [(0, [0]), (1, cd001), (6, [1]), (7, ljust (encodeAscii "EL TORITO SPECIFICATION".toList) 32 0), (71, lba)])

def terminator : Bytes := sectorOf [(0, [255]), (1, cd001), (6, [1])]

/-- The sum of the numbers of this width in a sequence, without what is left at its end. -/
def wordSum (width : Nat) : Nat → Bytes → Nat
  | 0, _ => 0
  | n + 1, bytes => Packed.unpack (bytes.take width) + wordSum width n (bytes.drop width)

def validation : Bytes :=
  let entry : Bytes := [1, 0, 0, 0] ++ padStr "QitoOS".toList 24 ++ [0, 0, 0x55, 0xaa]
  writeAt 0 28 (Packed.pack 2 ((65536 - wordSum 2 16 entry % 65536) % 65536)) entry

def bootCatalog (lba : Nat) : Option Bytes := do
  let segment ← pack false 2 0
  let load ← pack false 2 b.bootLoadSize
  let boot ← pack false 4 lba
  some (sectorOf [(0, validation), (32, [0x88, 0] ++ segment ++ [0, 0] ++ load ++ boot)])

def isBoot (f : Nat) : Bool :=
  match b.bootImage with
  | none => false
  | some path => path ≠ [] && b.pathOf f == path

/-- The last file whose path is that of the boot image. -/
def bootNode : Option Nat := (b.files.filter b.isBoot).getLast?

def patchBootInfoTable (a : Layout) (f : Nat) (image : Bytes) : Option Bytes :=
  let base := a.extent f * sector
  let size := (b.node f).data.length
  if size < 64 then some image
  else do
    let data := readAt (base + 64) (alignUp size 4 - 64) image
    let lba ← pack false 4 16
    let own ← pack false 4 (a.extent f)
    let length ← pack false 4 size
    let checksum ← pack false 4 (wordSum 4 (data.length / 4) data % 2 ^ 32)
    some (writeAt 0 (base + 8) (lba ++ own ++ length ++ checksum) image)

def dirWrites (a : Layout) (d : Nat) : Option (List (Nat × Bytes)) := do
  let iso ← b.dirBuffer a false d
  let joliet ← b.dirBuffer a true d
  some [(a.extent d, iso), (a.jolietExtent d, joliet)]

def fileWrites (a : Layout) : List (Nat × Bytes) := b.files.map fun f => (a.extent f, (b.node f).data)

def catalogWrites (a : Layout) : Option (List (Nat × Bytes)) :=
  match b.bootNode with
  | none => some []
  | some f => do
    let catalog ← b.bootCatalog (a.extent f)
    some [(20, catalog)]

/-- The volume descriptors and the boot catalogue. -/
def descriptorWrites (p : Plan) : Option (List (Nat × Bytes)) := do
  let table (i : Nat) : Nat × Bytes := p.tables.getD i (0, [])
  let pvd ← b.pvd p (table 0).2.length (table 0).1 (table 1).1
  let record ← bootRecord 20
  let svd ← b.svd p (table 2).2.length (table 2).1 (table 3).1
  let catalog ← b.catalogWrites p.layout
  some ([(16, pvd), (17, record), (18, svd), (19, terminator)] ++ catalog)

/-- Everything that build puts into the image, with its sectors, in this order. -/
def writes (p : Plan) : Option (List (Nat × Bytes)) := do
  let dirs ← b.allDirs.mapM (b.dirWrites p.layout)
  let descriptors ← b.descriptorWrites p
  some (b.fileWrites p.layout ++ dirs.flatten ++ p.tables ++ descriptors)

def put (image : Bytes) (write : Nat × Bytes) : Bytes := writeAt 0 (write.1 * sector) write.2 image

def render (p : Plan) : Option Bytes := do
  let writes ← b.writes p
  let image := writes.foldl put (List.replicate (p.total * sector) 0)
  match b.bootNode with
  | some f => if b.patchBootInfo then b.patchBootInfoTable p.layout f image else some image
  | none => some image

/-- The image, with where everything went. -/
def build : Option (Plan × Bytes) := do
  let p ← b.plan
  let image ← b.render p
  some (p, image)

end IsoBuilder

theorem mapM_some_iff {α β : Type} {f : α → Option β} {xs : List α} {ys : List β} :
    xs.mapM f = some ys ↔ List.Forall₂ (fun x y => f x = some y) xs ys := by
  induction xs generalizing ys with
  | nil => simp [eq_comm]
  | cons x xs ih =>
    simp only [List.mapM_cons, Option.bind_eq_bind, Option.bind_eq_some_iff, Option.pure_def, Option.some.injEq, List.forall₂_cons_left_iff]
    constructor
    · rintro ⟨y, here, ys', rest, rfl⟩
      exact ⟨y, ys', here, ih.mp rest, rfl⟩
    · rintro ⟨y, ys', here, rest, rfl⟩
      exact ⟨y, here, ys', ih.mpr rest, rfl⟩

theorem mapM_mem {α β : Type} {f : α → Option β} {xs : List α} {ys : List β} (made : xs.mapM f = some ys) {x : α} (member : x ∈ xs) :
    ∃ y, f x = some y := by
  have each := mapM_some_iff.mp made
  clear made
  induction each with
  | nil => cases member
  | cons here _ ih =>
    rcases List.mem_cons.mp member with rfl | later
    · exact ⟨_, here⟩
    · exact ih later

/-- A packed number, read back. -/
def unpackAs (big : Bool) (bytes : Bytes) : Nat := Packed.unpack (if big then bytes.reverse else bytes)

theorem pack_spec {big : Bool} {width value : Nat} {bytes : Bytes} (packed : pack big width value = some bytes) :
    value < 256 ^ width ∧ bytes.length = width ∧ unpackAs big bytes = value := by
  unfold pack at packed
  split at packed
  · rename_i fits
    cases packed
    cases big with
    | true => simp [unpackAs, fits, Packed.unpack_pack]
    | false => simp [unpackAs, fits, Packed.unpack_pack]
  · cases packed

end Qito.Iso
