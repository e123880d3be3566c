import Qito.Lib.Memory
import Qito.Lib.Words

/-! The kernel heap of mm/heap.c over byte memory. Pointers are addresses and
NULL is 0. Walks along next pointers carry fuel: none is a walk that does not
end, and no result below hides it. -/
namespace Qito.Heap
open ByteMemory Words

abbrev heapBase : Nat := 0xFFFFC00000000000
abbrev heapInitSize : Nat := 4 * 1024 * 1024
abbrev heapMaxSize : Nat := 256 * 1024 * 1024
abbrev heapGrowStep : Nat := 1 * 1024 * 1024
abbrev blockMagicUsed : Nat := 0x5153454455534544
abbrev blockMagicFree : Nat := 0x5153454446524545
abbrev minSplitSize : Nat := 64
abbrev heapAlign : Nat := 16
abbrev pageSize : Nat := 4096

/-- sizeof(struct block): four 8-byte words, a 4-byte bool_t and 7 bytes of
padding, rounded up to the alignment of the words. -/
abbrev headerSize : Nat := 48

/-- The fields of struct block as they are read from memory. -/
structure Block where
  magic : Nat
  size : Nat
  next : Nat
  prev : Nat
  free : Bool

def block (m : Memory) (b : Nat) : Block where
  magic := load m b 8
  size := load m (b + 8) 8
  next := load m (b + 16) 8
  prev := load m (b + 24) 8
  free := load m (b + 32) 4 != 0

def setMagic (m : Memory) (b v : Nat) : Memory := store m b 8 v
def setSize (m : Memory) (b v : Nat) : Memory := store m (b + 8) 8 v
def setNext (m : Memory) (b v : Nat) : Memory := store m (b + 16) 8 v
def setPrev (m : Memory) (b v : Nat) : Memory := store m (b + 24) 8 v
def setFree (m : Memory) (b : Nat) (v : Bool) : Memory := store m (b + 32) 4 (if v then 1 else 0)

/-- The counters heap.c keeps between calls. -/
structure HeapStats where
  totalBytes : Nat
  usedBytes : Nat
  allocations : Nat
  frees : Nat

structure HeapState where
  mem : Memory
  heapHead : Nat
  heapStart : Nat
  heapEnd : Nat
  heapCommitted : Nat
  stats : HeapStats

/-- What pmm_alloc_page and vmm_map answer for one page of a growth. -/
inductive PageOutcome where
  | mapped
  | noFrame
  | mapFailed

/-- Every block takes headerSize bytes of the committed range, so a block list
that ends has fewer blocks than this. -/
def walkFuel (s : HeapState) : Nat := s.heapCommitted + 1

/-- The mapping loop of heap_grow: how many pages were mapped when it stopped,
with n pages left to do and i done. -/
def mapPages (page : Nat → PageOutcome) : Nat → Nat → Nat
  | 0, i => i
  | n + 1, i =>
    match page i with
    | .mapped => mapPages page n (i + 1)
    | .noFrame => i
    | .mapFailed => i

def lastBlock : Nat → Memory → Nat → Option Nat
  | 0, _, _ => none
  | fuel + 1, m, tail =>
    if (block m tail).next ≠ 0 then lastBlock fuel m (block m tail).next else some tail

/-- The header heap_grow writes at the old end of the heap. -/
def freshBlock (m : Memory) (b amount : Nat) : Memory :=
  let m := setMagic m b blockMagicFree
  let m := setSize m b (sub64 amount headerSize)
  let m := setFree m b true
  let m := setNext m b 0
  setPrev m b 0

/-- Append a block behind the tail, and merge it into a free adjacent tail. -/
def appendBlock (m : Memory) (tail b : Nat) : Memory :=
  let m := setNext m tail b
  let m := setPrev m b tail
  if (block m tail).free ∧ wrap64 (tail + headerSize + (block m tail).size) = b then
    let m := setSize m tail (wrap64 ((block m tail).size + (headerSize + (block m b).size)))
    setNext m tail 0
  else m

/-- The amount heap_grow asks for before it maps anything. -/
def growAmount (s : HeapState) (needed : Nat) : Nat :=
  let amount := alignUp (wrap64 (needed + headerSize)) heapGrowStep
  if wrap64 (s.heapCommitted + amount) > heapMaxSize then sub64 heapMaxSize s.heapCommitted
  else amount

/-- Link amount freshly mapped bytes at heap_end into the heap. -/
def linkGrowth (s : HeapState) (amount : Nat) : Option HeapState := do
  let m := freshBlock s.mem s.heapEnd amount
  let committed := wrap64 (s.heapCommitted + amount)
  let grown (mem : Memory) (head : Nat) : HeapState :=
    { s with
      mem := mem
      heapHead := head
      heapEnd := wrap64 (s.heapEnd + amount)
      heapCommitted := committed
      stats := { s.stats with totalBytes := committed } }
  if s.heapHead = 0 then
    return grown m s.heapEnd
  else
    let tail ← lastBlock (walkFuel s) m s.heapHead
    return grown (appendBlock m tail s.heapEnd) s.heapHead

def heapGrow (page : Nat → PageOutcome) (s : HeapState) (needed : Nat) :
    Option (Bool × HeapState) := do
  let amount := growAmount s needed
  if amount < wrap64 (needed + headerSize) then
    return (false, s)
  let total := (amount + pageSize - 1) / pageSize
  let got := mapPages page total 0
  if got = total then
    return (true, ← linkGrowth s amount)
  else if got = 0 then
    return (false, s)
  else
    return (true, ← linkGrowth s (got * pageSize))

def splitBlock (m : Memory) (b size : Nat) : Memory :=
  if (block m b).size < wrap64 (size + headerSize + minSplitSize) then m
  else
    let rest := wrap64 (b + headerSize + size)
    let m := setMagic m rest blockMagicFree
    let m := setSize m rest (sub64 (sub64 (block m b).size size) headerSize)
    let m := setFree m rest true
    let m := setNext m rest (block m b).next
    let m := setPrev m rest b
    let m := if (block m b).next ≠ 0 then setPrev m (block m b).next rest else m
    let m := setNext m b rest
    setSize m b size

/-- One turn of the forward loop of coalesce. -/
def mergeNext (m : Memory) (b : Nat) : Memory :=
  let next := (block m b).next
  let m := setSize m b (wrap64 ((block m b).size + (headerSize + (block m next).size)))
  let m := setNext m b (block m next).next
  let m := if (block m next).next ≠ 0 then setPrev m (block m next).next b else m
  setMagic m next 0

def coalesceForward : Nat → Memory → Nat → Option Memory
  | 0, _, _ => none
  | fuel + 1, m, b =>
    if (block m b).next ≠ 0 ∧ (block m (block m b).next).free ∧
        wrap64 (b + headerSize + (block m b).size) = (block m b).next then
      coalesceForward fuel (mergeNext m b) b
    else some m

def coalesceBackward (m : Memory) (b : Nat) : Memory :=
  let prev := (block m b).prev
  if prev ≠ 0 ∧ (block m prev).free ∧
      wrap64 (prev + headerSize + (block m prev).size) = b then
    let m := setSize m prev (wrap64 ((block m prev).size + (headerSize + (block m b).size)))
    let m := setNext m prev (block m b).next
    let m := if (block m b).next ≠ 0 then setPrev m (block m b).next prev else m
    setMagic m b 0
  else m

def coalesce (fuel : Nat) (m : Memory) (b : Nat) : Option Memory := do
  let m ← coalesceForward fuel m b
  return coalesceBackward m b

/-- The first-fit search of kmalloc; 0 when the list has no fitting block. -/
def findFit : Nat → Memory → Nat → Nat → Option Nat
  | 0, _, _, _ => none
  | fuel + 1, m, b, size =>
    if b = 0 then some 0
    else if (block m b).free = false ∨ (block m b).size < size then
      findFit fuel m (block m b).next size
    else some b

/-- The body of the search loop once a block fits. -/
def takeBlock (s : HeapState) (b size : Nat) : HeapState :=
  let m := splitBlock s.mem b size
  let m := setFree m b false
  let m := setMagic m b blockMagicUsed
  { s with
    mem := m
    stats :=
      { s.stats with
        usedBytes := wrap64 (s.stats.usedBytes + (block m b).size)
        allocations := wrap64 (s.stats.allocations + 1) } }

def kmalloc (page : Nat → PageOutcome) (s : HeapState) (size : Nat) :
    Option (Nat × HeapState) := do
  if size = 0 then
    return (0, s)
  let size := alignUp size heapAlign
  let b ← findFit (walkFuel s) s.mem s.heapHead size
  if b ≠ 0 then
    return (b + headerSize, takeBlock s b size)
  let (grew, s) ← heapGrow page s size
  if !grew then
    return (0, s)
  let b ← findFit (walkFuel s) s.mem s.heapHead size
  if b ≠ 0 then
    return (b + headerSize, takeBlock s b size)
  return (0, s)

def kzalloc (page : Nat → PageOutcome) (s : HeapState) (size : Nat) :
    Option (Nat × HeapState) := do
  let (ptr, s) ← kmalloc page s size
  if ptr ≠ 0 then
    return (ptr, { s with mem := fill s.mem ptr size 0 })
  return (ptr, s)

def kcalloc (page : Nat → PageOutcome) (s : HeapState) (count size : Nat) :
    Option (Nat × HeapState) :=
  if count ≠ 0 ∧ size > (2 ^ 64 - 1) / count then some (0, s)
  else kzalloc page s (wrap64 (count * size))

def kfree (s : HeapState) (ptr : Nat) : Option HeapState := do
  if ptr = 0 then
    return s
  let b := sub64 ptr headerSize
  if (block s.mem b).magic = blockMagicFree then
    return s
  if (block s.mem b).magic ≠ blockMagicUsed then
    return s
  let m := setFree s.mem b true
  let m := setMagic m b blockMagicFree
  let size := (block m b).size
  let used := if s.stats.usedBytes ≥ size then s.stats.usedBytes - size else s.stats.usedBytes
  let m ← coalesce (walkFuel s) m b
  return { s with
    mem := m
    stats := { s.stats with usedBytes := used, frees := wrap64 (s.stats.frees + 1) } }

def krealloc (page : Nat → PageOutcome) (s : HeapState) (ptr size : Nat) :
    Option (Nat × HeapState) := do
  if ptr = 0 then
    kmalloc page s size
  else if size = 0 then
    return (0, ← kfree s ptr)
  else
    let b := sub64 ptr headerSize
    if (block s.mem b).magic ≠ blockMagicUsed then
      return (0, s)
    if (block s.mem b).size ≥ size then
      return (ptr, s)
    let (fresh, s) ← kmalloc page s size
    if fresh = 0 then
      return (0, s)
    let s := { s with mem := copy s.mem fresh ptr (block s.mem b).size }
    return (fresh, ← kfree s ptr)

def validateFrom : Nat → HeapState → Nat → Option Bool
  | 0, _, _ => none
  | fuel + 1, s, b =>
    if b = 0 then some true
    else
      let blk := block s.mem b
      if blk.magic ≠ blockMagicUsed ∧ blk.magic ≠ blockMagicFree then some false
      else if blk.next ≠ 0 ∧ (block s.mem blk.next).prev ≠ b then some false
      else if b < s.heapStart ∨ b ≥ s.heapEnd then some false
      else validateFrom fuel s blk.next

def heapValidate (s : HeapState) : Option Bool := validateFrom (walkFuel s) s s.heapHead

/-- The heap before its first growth, over whatever memory holds at boot. -/
def emptyHeap (boot : Memory) : HeapState where
  mem := boot
  heapHead := 0
  heapStart := heapBase
  heapEnd := heapBase
  heapCommitted := 0
  stats := ⟨0, 0, 0, 0⟩

/-- none is the panic of heap_init when nothing could be mapped. -/
def heapInit (page : Nat → PageOutcome) (boot : Memory) : Option HeapState := do
  let (grew, s) ← heapGrow page (emptyHeap boot) heapInitSize
  if grew then return s else none

end Qito.Heap
