import Qito.Mm.Pmm

/-! The page tables of mm/vmm.c. A table is the physical address of its page,
which is also where the kernel sees it, and mem holds the 512 words of each
page. The frees are recorded: the frame, and whether it was allocated when
pmm_free_page was called on it. -/
namespace Qito.Mm

abbrev ptePresent : Nat := 0x1
abbrev pteWrite : Nat := 0x2
abbrev pteUser : Nat := 0x4
abbrev pteHuge : Nat := 0x80
abbrev pteNx : Nat := 0x8000000000000000
abbrev pteAddrMask : Nat := 0x000FFFFFFFFFF000

/-- ~PTE_ADDR_MASK on 64 bits. -/
abbrev pteFlagMask : Nat := 0xFFF0000000000FFF

abbrev Memory := Nat → Nat → Nat

structure AddressSpace where
  pml4 : Nat
  refCount : Nat
  mappedPages : Nat

structure Vm where
  pmm : Pmm
  mem : Memory
  kernelPml4 : Nat
  frees : List (Nat × Bool)

def has (entry bits : Nat) : Bool := entry &&& bits != 0

def pml4Index (virt : Nat) : Nat := (virt >>> 39) &&& 0x1FF
def pdptIndex (virt : Nat) : Nat := (virt >>> 30) &&& 0x1FF
def pdIndex (virt : Nat) : Nat := (virt >>> 21) &&& 0x1FF
def ptIndex (virt : Nat) : Nat := (virt >>> 12) &&& 0x1FF

/-- The indices of the three levels above the page table. -/
def indices (virt : Nat) : List Nat := [pml4Index virt, pdptIndex virt, pdIndex virt]

def pageAlignDown (virt : Nat) : Nat := virt / pageSize * pageSize

def Vm.write (s : Vm) (table i entry : Nat) : Vm :=
  { s with mem := Function.update s.mem table (Function.update (s.mem table) i entry) }

/-- pmm_alloc_page, which clears the page it returns. -/
def Vm.allocPage (s : Vm) : Nat × Vm :=
  let (page, pmm) := pmmAllocPage s.pmm
  if page = 0 then (0, { s with pmm := pmm })
  else (page, { s with pmm := pmm, mem := Function.update s.mem page fun _ => 0 })

def Vm.freePage (s : Vm) (addr : Nat) : Vm :=
  { s with
    pmm := pmmFreePage s.pmm addr
    frees := (addr / pageSize, s.pmm.frameBitmap.test (addr / pageSize)) :: s.frees }

/-- One round of walk: the next table, none where walk returns NULL. -/
def walkLevel (s : Vm) (table i : Nat) (create : Bool) (parentFlags : Nat) : Option Nat × Vm :=
  let entry := s.mem table i
  if !has entry ptePresent then
    if !create then (none, s)
    else
      let (page, s) := s.allocPage
      if page = 0 then (none, s)
      else
        let entry := page ||| ptePresent ||| pteWrite ||| (parentFlags &&& pteUser)
        (some (entry &&& pteAddrMask), s.write table i entry)
  else if has entry pteHuge then (none, s)
  else if has parentFlags pteUser && !has entry pteUser then
    (some (entry &&& pteAddrMask), s.write table i (entry ||| pteUser))
  else (some (entry &&& pteAddrMask), s)

def walkDown (s : Vm) (table : Nat) (create : Bool) (parentFlags : Nat) : List Nat → Option Nat × Vm
  | [] => (some table, s)
  | i :: rest =>
    match walkLevel s table i create parentFlags with
    | (none, s) => (none, s)
    | (some next, s) => walkDown s next create parentFlags rest

/-- The page table that holds the entry for virt. -/
def walk (s : Vm) (space : AddressSpace) (virt : Nat) (create : Bool) (parentFlags : Nat) : Option Nat × Vm :=
  walkDown s space.pml4 create parentFlags (indices virt)

def kernelHalf (s : Vm) (pml4 : Nat) : Vm :=
  { s with mem := Function.update s.mem pml4 fun i => if 256 ≤ i ∧ i < 512 then s.mem s.kernelPml4 i else s.mem pml4 i }

/-- memory says whether kzalloc finds room for the structure. -/
def vmmCreateSpace (s : Vm) (memory : Bool) : Option AddressSpace × Vm :=
  if !memory then (none, s)
  else
    let (pml4, s) := s.allocPage
    if pml4 = 0 then (none, s)
    else (some { pml4 := pml4, refCount := 1, mappedPages := 0 }, kernelHalf s pml4)

def freeTable (s : Vm) (table : Nat) : Nat → Vm
  | 0 => s
  | level + 1 => (List.range 512).foldl (fun s i =>
      let entry := s.mem table i
      if !has entry ptePresent || has entry pteHuge then s
      else (freeTable s (entry &&& pteAddrMask) level).freePage (entry &&& pteAddrMask)) s

/-- The space is none once its structure is freed. -/
def vmmDestroySpace (s : Vm) (space : AddressSpace) : Option AddressSpace × Vm :=
  if space.pml4 = s.kernelPml4 then (some space, s)
  else if space.refCount - 1 > 0 then (some { space with refCount := space.refCount - 1 }, s)
  else
    let s := (List.range 256).foldl (fun s i =>
      let entry := s.mem space.pml4 i
      if !has entry ptePresent then s
      else (freeTable s (entry &&& pteAddrMask) 3).freePage (entry &&& pteAddrMask)) s
    (none, s.freePage space.pml4)

def vmmMap (s : Vm) (space : AddressSpace) (virt phys flags : Nat) : Int × Vm × AddressSpace :=
  match walk s space (pageAlignDown virt) true flags with
  | (none, s) => (-1, s, space)
  | (some table, s) =>
    (0, s.write table (ptIndex (pageAlignDown virt)) ((phys &&& pteAddrMask) ||| (flags &&& pteFlagMask) ||| ptePresent),
      { space with mappedPages := space.mappedPages + 1 })

/-- The loop of vmm_map_range over its offsets. -/
def mapPagesAt (s : Vm) (space : AddressSpace) (virt phys flags : Nat) : List Nat → Int × Vm × AddressSpace
  | [] => (0, s, space)
  | offset :: rest =>
    match vmmMap s space (Words.wrap64 (virt + offset)) (Words.wrap64 (phys + offset)) flags with
    | (code, s, space) => if code ≠ 0 then (-1, s, space) else mapPagesAt s space virt phys flags rest

def vmmMapRange (s : Vm) (space : AddressSpace) (virt phys size flags : Nat) : Int × Vm × AddressSpace :=
  mapPagesAt s space virt phys flags (List.range' 0 (Words.alignUp size pageSize / pageSize) pageSize)

def vmmUnmap (s : Vm) (space : AddressSpace) (virt : Nat) : Int × Vm × AddressSpace :=
  match walk s space (pageAlignDown virt) false 0 with
  | (none, s) => (-1, s, space)
  | (some table, s) =>
    if !has (s.mem table (ptIndex (pageAlignDown virt))) ptePresent then (-1, s, space)
    else (0, s.write table (ptIndex (pageAlignDown virt)) 0, { space with mappedPages := space.mappedPages - 1 })

def resolveFrom (mem : Memory) (virt : Nat) : Nat → Nat → List Nat → Nat
  | _, table, [] =>
    let entry := mem table (ptIndex virt)
    if !has entry ptePresent then 0 else (entry &&& pteAddrMask) ||| (virt &&& (pageSize - 1))
  | level, table, i :: rest =>
    let entry := mem table i
    if !has entry ptePresent then 0
    else if has entry pteHuge then
      -- a 1 GiB page at the PDPT level, 2 MiB at the PD level
      let mask := 2 ^ (if level = 1 then 30 else 21) - 1
      (entry &&& pteAddrMask &&& (2 ^ 64 - 1 - mask)) ||| (virt &&& mask)
    else resolveFrom mem virt (level + 1) (entry &&& pteAddrMask) rest

def vmmResolve (s : Vm) (space : AddressSpace) (virt : Nat) : Nat := resolveFrom s.mem virt 0 space.pml4 (indices virt)

/-- The loop of vmm_alloc_at over its pages. -/
def allocPagesAt (s : Vm) (space : AddressSpace) (flags : Nat) : List Nat → Int × Vm × AddressSpace
  | [] => (0, s, space)
  | page :: rest =>
    if vmmResolve s space page ≠ 0 then allocPagesAt s space flags rest
    else
      let (frame, s) := s.allocPage
      if frame = 0 then (-1, s, space)
      else
        match vmmMap s space page frame (flags ||| ptePresent) with
        | (code, s, space) =>
          if code ≠ 0 then (-1, s.freePage frame, space) else allocPagesAt s space flags rest

/-- The pages vmm_alloc_at goes through. -/
def allocRange (virt size : Nat) : List Nat :=
  let start := pageAlignDown virt
  let stop := Words.alignUp (Words.wrap64 (virt + size)) pageSize
  List.range' start ((stop - start) / pageSize) pageSize

def vmmAllocAt (s : Vm) (space : AddressSpace) (virt size flags : Nat) : Int × Vm × AddressSpace :=
  allocPagesAt s space flags (allocRange virt size)

end Qito.Mm
