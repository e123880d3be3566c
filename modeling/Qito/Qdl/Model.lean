import Mathlib.Data.List.FinRange
import Qito.Lib.Nesting
import Qito.Qtx.Model

/-! The dynamic libraries of sys/qdl.c, with the part of sys/qtx.c that links an
image against them. A call of the loader works on the table of loaded libraries;
qdl_load, qtx_load_memory and qdl_load_needed call each other, and qdl_release
and qtx_unload do, so each takes the depth to which its calls may nest. What an
image holds besides its links is in Qtx.Model. -/
namespace Qito.Qdl
open Nesting Qtx Words

abbrev maxLoaded : Nat := 32
abbrev pathMax : Nat := 64
abbrev maxDeps : Nat := 8
abbrev qdlLimit : Nat := 4 * 1024 * 1024
abbrev qtxLimit : Nat := 16 * 1024 * 1024

abbrev Slot := Fin maxLoaded

/-- struct qtx_symbol. -/
structure Symbol where
  name : Bytes
  address : Nat

def symbolAt (data : Bytes) (i : Nat) : Nat := (header data).symbolOffset + i * symbolSize

def symbol_ (data : Bytes) (i : Nat) : Symbol where
  name := field data (symbolAt data i) qtxNameMax
  address := le data (symbolAt data i + 24) 8

def symbols (data : Bytes) : List Symbol := (List.range (header data).symbolCount).map (symbol_ data)

/-- A patched import slot: the address stored there, the library it lies in, and
how long the account was when it was stored. -/
structure Link where
  patchAddress : Nat
  target : Nat
  provider : Option Slot
  since : Nat

/-- struct qtx_image as far as linking reads it, with the import slots patched in
its buffer. -/
structure Image where
  name : Bytes
  base : Nat
  size : Nat
  deps : List Slot
  links : List Link

/-- struct qdl_entry, of a slot that is in use. -/
structure Entry where
  name : Bytes
  path : Bytes
  image : Image
  symbols : List Symbol
  refcount : Nat
  lowestVa : Nat

abbrev Table := Slot → Option Entry

/-- On whose behalf a library is loaded. -/
inductive Asked where
  | caller
  | need
deriving DecidableEq

inductive Event where
  | recorded (asked : Asked) (slot : Slot) (entry : Entry)
  | retained (slot : Slot)
  | released (slot : Slot)
  | removed (slot : Slot)

/-- The table, how often the allocator was asked, and an account of what was done
to the table. -/
structure State where
  table : Table
  requests : Nat
  account : List Event

/-- What the volume answers: the names fs_readdir lists in /lib, the sizes of
files, and what fs_read_file reads into a buffer. -/
structure Volume where
  lib : Option (List Bytes)
  stat : Bytes → Option Nat
  readFile : Bytes → Nat → Option Bytes

/-- The volume, the allocator's answer to its n-th request, and the addresses of
the exported services. -/
structure Env where
  volume : Volume
  kmalloc : Nat → Nat → Option Nat
  address : String → Nat

/-- The first slot with a property. -/
def firstSlot (t : Table) (p : Option Entry → Bool) : Option Slot := (List.finRange maxLoaded).find? fun k => p (t k)

def findFreeSlot (t : Table) : Option Slot := firstSlot t Option.isNone

def qdlFind (t : Table) (name : Bytes) : Option Slot := firstSlot t (·.any (·.name == name))

def findPath (t : Table) (path : Bytes) : Option Slot := firstSlot t (·.any (·.path == path))

def Entry.exports (e : Entry) (name : Bytes) : Bool := e.symbols.any (cstr ·.name == name)

def qdlFindExporter (t : Table) (name : Bytes) : Option Slot := firstSlot t (·.any (·.exports name))

/-- The address of a symbol in the buffer the library was loaded into. -/
def Entry.translate (e : Entry) (s : Symbol) : Nat := wrap64 (e.image.base + sub64 s.address e.lowestVa)

def Entry.resolve (e : Entry) (name : Bytes) : Option Nat := (e.symbols.find? (cstr ·.name == name)).map e.translate

/-- An address of zero is none. -/
def qdlResolveSymbol (t : Table) (name : Bytes) : Option Nat :=
  ((List.finRange maxLoaded).findSome? fun k => (t k).bind (·.resolve name)).filter (· != 0)

def setSlot (k : Slot) (e : Option Entry) (event : Event) (s : State) : State :=
  { s with table := Function.update s.table k e, account := s.account ++ [event] }

def qdlRetain (k : Slot) : Call State Unit := update fun s =>
  match s.table k with
  | none => s
  | some e => setSlot k (some { e with refcount := e.refcount + 1 }) (.retained k) s

/-- qdl_release, with qtx_unload for the image of the library. -/
def releaseBody (release : Slot → Call State Unit) (k : Slot) : Call State Unit := do
  match ← look (·.table k) with
  | none => pure ()
  | some e =>
    update (setSlot k (some { e with refcount := e.refcount - 1 }) (.released k))
    if e.refcount - 1 = 0 then do
      each release e.image.deps
      update (setSlot k none (.removed k))
    else pure ()

def qdlReleaseByIndex (depth : Nat) : Slot → Call State Unit := nest releaseBody depth

def qtxUnload (depth : Nat) (image : Image) : Call State Unit := each (qdlReleaseByIndex depth) image.deps

def qdlUnload (depth : Nat) (name : Bytes) : Call State Bool := do
  match ← look fun s => qdlFind s.table name with
  | none => pure false
  | some k =>
    if ← look fun s => (s.table k).any (1 < ·.refcount) then pure false
    else do
      qdlReleaseByIndex depth k
      pure true

/-- kmalloc and kzalloc. -/
def request (env : Env) (size : Nat) : Call State (Option Nat) := fun s =>
  some (env.kmalloc s.requests size, { s with requests := s.requests + 1 })

/-- How both loads begin: fs_stat, the test of the size, the buffer, the file. -/
def readImage (env : Env) (limit : Nat) (path : Bytes) : Call State (Option Bytes) :=
  match env.volume.stat path with
  | none => pure none
  | some size =>
    if size < headerSize ∨ limit < size then pure none
    else do
      match ← request env size with
      | none => pure none
      | some _ => pure ((env.volume.readFile path size).filter fun data => data.length == size)

def services (env : Env) : Qtx.Env where
  kzalloc := env.kmalloc 0
  address := env.address
  library _ _ := none
  provider _ _ := none

/-- The target of an import. -/
def resolveImport (env : Env) (needed : Bytes → Call State Bool) (name : Bytes) : Call State (Option Nat) :=
  match qtxResolveExport (services env) name with
  | some address => pure (some address)
  | none => do
    match ← look fun s => qdlResolveSymbol s.table name with
    | some target => pure (some target)
    | none =>
      if ← needed name then look fun s => qdlResolveSymbol s.table name else pure none

/-- The import slots patched so far, and the libraries retained for them. -/
structure Linked where
  links : List Link
  deps : List Slot

/-- The library that exports the name is retained, unless it was or the table of
dependencies is full. -/
def retainProvider (linked : Linked) : Option Slot → Call State Linked
  | none => pure linked
  | some k =>
    if k ∉ linked.deps ∧ linked.deps.length < maxDeps then do
      qdlRetain k
      pure { linked with deps := linked.deps ++ [k] }
    else pure linked

def patchInside (lowest highest patchAddress : Nat) : Bool :=
  decide (lowest ≤ patchAddress) && decide (wrap64 (patchAddress + 8) ≤ highest)

/-- An import that was found: its slot is patched, and the library that exports
the name retained. -/
def linkTarget (env : Env) (data : Bytes) (linked : Linked) (i target : Nat) : Call State (Option Linked) := do
  let m := import_ data i
  if !patchInside (bounds (sections data)).1 (bounds (sections data)).2 m.patchAddress then pure none
  else do
    let provider ← look fun s => qdlFindExporter s.table (cstr m.name)
    let since ← look fun s => s.account.length
    let inLibrary := if (qtxResolveExport (services env) (cstr m.name)).isSome then none else provider
    let link : Link := ⟨m.patchAddress, target, inLibrary, since⟩
    let linked ← retainProvider { linked with links := linked.links ++ [link] } provider
    pure (some linked)

/-- One round of the loop over the imports. -/
def linkImport (env : Env) (needed : Bytes → Call State Bool) (data : Bytes) (linked : Linked) (i : Nat) :
    Call State (Option Linked) := do
  match ← resolveImport env needed (cstr (import_ data i).name) with
  | none => pure none
  | some target => linkTarget env data linked i target

def linkImports (env : Env) (needed : Bytes → Call State Bool) (data : Bytes) :
    Linked → List Nat → Call State (Option Linked)
  | linked, [] => pure (some linked)
  | linked, i :: rest => do
    match ← linkImport env needed data linked i with
    | none => pure none
    | some linked => linkImports env needed data linked rest

/-- strlcpy of the name in the header. -/
def imageName (data : Bytes) : Bytes := (cstr (data.drop 64)).take (qtxNameMax - 1)

def qtxLoadMemory (env : Env) (needed : Bytes → Call State Bool) (data : Bytes) : Call State (Option Image) :=
  let lowest := (bounds (sections data)).1
  let highest := (bounds (sections data)).2
  if ¬ Traces.Ends (qtxValidate data) () then pure none
  else if highest ≤ lowest then pure none
  else if sizeLimit < highest - lowest then pure none
  else do
    match ← request env (highest - lowest) with
    | none => pure none
    | some base =>
      match ← linkImports env needed data ⟨[], []⟩ (List.range (header data).importCount) with
      | none => pure none
      | some linked =>
        pure (some { name := imageName data, base, size := highest - lowest, deps := linked.deps, links := linked.links })

def isLibrary (name : Bytes) : Bool := decide (5 ≤ name.length) && name.drop (name.length - 4) == ascii ".qdl"

/-- snprintf of the path of a file in /lib. -/
def libPath (name : Bytes) : Bytes := (ascii "/lib/" ++ name).take (pathMax - 1)

/-- The loop over the entries of /lib. -/
def tryLibraries (load : Asked × Bytes → Call State Bool) (name : Bytes) : List Bytes → Call State Bool
  | [] => pure false
  | file :: rest =>
    if !isLibrary file then tryLibraries load name rest
    else do
      if ← look fun s => (findPath s.table (libPath file)).isSome then
        if ← look fun s => (qdlFindExporter s.table name).isSome then pure true
        else tryLibraries load name rest
      else do
        let loaded ← load (.need, libPath file)
        let target ← look fun s => qdlResolveSymbol s.table name
        if loaded && target.isSome then pure true else tryLibraries load name rest

def qdlLoadNeeded (env : Env) (load : Asked × Bytes → Call State Bool) (name : Bytes) : Call State Bool :=
  match env.volume.lib with
  | none => pure false
  | some files => tryLibraries load name files

/-- The symbols are copied if there are any. -/
def copySymbols (env : Env) (data : Bytes) : Call State Bool :=
  if (header data).symbolCount = 0 then pure true
  else do
    let copy ← request env (symbolSize * (header data).symbolCount)
    pure copy.isSome

def newEntry (path data : Bytes) (image : Image) : Entry where
  name := imageName data
  path := path.take (pathMax - 1)
  image := image
  symbols := symbols data
  refcount := 1
  lowestVa := (bounds (sections data)).1

/-- qdl_load from the slot on: it is chosen before the imports are linked. -/
def loadLibrary (env : Env) (unload : Image → Call State Unit) (load : Asked × Bytes → Call State Bool)
    (asked : Asked) (path data : Bytes) (slot : Slot) : Call State Bool := do
  match ← qtxLoadMemory env (qdlLoadNeeded env load) data with
  | none => pure false
  | some image =>
    if ← copySymbols env data then do
      let e := newEntry path data image
      update (setSlot slot (some e) (.recorded asked slot e))
      pure true
    else do
      unload image
      pure false

def loadBody (env : Env) (unload : Image → Call State Unit) (load : Asked × Bytes → Call State Bool) :
    Asked × Bytes → Call State Bool := fun (asked, path) => do
  match ← look fun s => findPath s.table path with
  | some k => do
    qdlRetain k
    pure true
  | none =>
    match ← readImage env qdlLimit path with
    | none => pure false
    | some data =>
      if ¬ Traces.Ends (qtxValidate data) () then pure false
      else if (header data).format ≠ 0x44 then pure false
      else
        match ← look fun s => findFreeSlot s.table with
        | none => pure false
        | some slot => loadLibrary env unload load asked path data slot

/-- qdl_load. The image of a load that fails late is unloaded at the same depth. -/
def qdlLoad (env : Env) (depth : Nat) : Asked × Bytes → Call State Bool :=
  nest (loadBody env (qtxUnload depth)) depth

def qtxLoad (env : Env) (depth : Nat) (path : Bytes) : Call State (Option Image) := do
  match ← readImage env qtxLimit path with
  | none => pure none
  | some data => qtxLoadMemory env (qdlLoadNeeded env (qdlLoad env depth)) data

/-- qdl_init. -/
def qdlInit : State := ⟨fun _ => none, 0, []⟩

end Qito.Qdl
