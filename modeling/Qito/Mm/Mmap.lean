import Qito.Mm.Vmm

/-! mmap and munmap of mm/mmap.c, in the address space of the caller or in the
kernel's where the caller has none. The pages that mmap returns with the address are
a record: the offset of each and the frame it was given. -/
namespace Qito.Mm
open Words

abbrev protWrite : Nat := 0x2
abbrev protExec : Nat := 0x4
abbrev mapPrivate : Nat := 0x02

/-- Where every mapping goes for which no address is given. -/
abbrev mmapBase : Nat := 0x600000000000

def mmapFlags (prot flags : Nat) : Nat :=
  let vmmFlags := ptePresent ||| pteUser
  let vmmFlags := if has prot protWrite then vmmFlags ||| pteWrite else vmmFlags
  let vmmFlags := if !has prot protExec then vmmFlags ||| pteNx else vmmFlags
  if has flags mapPrivate then vmmFlags ||| pteWrite else vmmFlags

/-- The offsets that both loops go through. -/
def pageOffsets (length : Nat) : List Nat := List.range' 0 (alignUp length pageSize / pageSize) pageSize

/-- The rollback of mmap. -/
def unmapPages (s : Vm) (space : AddressSpace) (va : Nat) : List Nat → Vm × AddressSpace
  | [] => (s, space)
  | offset :: rest =>
    let (_, s, space) := vmmUnmap s space (wrap64 (va + offset))
    unmapPages s space va rest

/-- The loop of mmap, with the pages it has mapped so far. -/
def mmapPages (s : Vm) (space : AddressSpace) (va vmmFlags : Nat) (pages : List (Nat × Nat)) :
    List Nat → Option (List (Nat × Nat)) × Vm × AddressSpace
  | [] => (some pages, s, space)
  | offset :: rest =>
    let (page, s) := s.allocPage
    if page = 0 then (none, unmapPages s space va (pages.map Prod.fst))
    else
      match vmmMap s space (wrap64 (va + offset)) page vmmFlags with
      | (code, s, space) =>
        if code ≠ 0 then (none, unmapPages (s.freePage page) space va (pages.map Prod.fst))
        else mmapPages s space va vmmFlags (pages ++ [(offset, page)]) rest

def mmapAddress (addr : Nat) : Nat := if addr = 0 then mmapBase else addr

/-- None is NULL. -/
def mmap (ready : Bool) (s : Vm) (space : AddressSpace) (addr length prot flags : Nat) :
    Option (Nat × List (Nat × Nat)) × Vm × AddressSpace :=
  if !ready then (none, s, space)
  else
    match mmapPages s space (mmapAddress addr) (mmapFlags prot flags) [] (pageOffsets length) with
    | (none, s, space) => (none, s, space)
    | (some pages, s, space) => (some (mmapAddress addr, pages), s, space)

def munmapPages (s : Vm) (space : AddressSpace) (addr : Nat) : List Nat → Vm × AddressSpace
  | [] => (s, space)
  | offset :: rest =>
    let phys := vmmResolve s space (wrap64 (addr + offset))
    let (_, s, space) := vmmUnmap s space (wrap64 (addr + offset))
    munmapPages (if phys ≠ 0 then s.freePage phys else s) space addr rest

/-- It returns 0 always. -/
def munmap (s : Vm) (space : AddressSpace) (addr length : Nat) : Vm × AddressSpace :=
  munmapPages s space addr (pageOffsets length)

end Qito.Mm
