import Qito.Heap.Operations
import Qito.Lib.Runs

/-! Runs of the kernel heap: any sequence of calls by clients that free only what
they hold and write only inside their own payloads, with any outcome of every
page the heap asks for. -/
namespace Qito.Heap
open ByteMemory Words Runs

inductive HeapOp where
  | kmalloc (size : Nat)
  | kzalloc (size : Nat)
  | kcalloc (count size : Nat)
  | krealloc (ptr size : Nat)
  | kfree (ptr : Nat)
  | write (ptr : Nat) (bytes : Memory)

/-- The heap with the pointers its clients hold. -/
structure HeapRun where
  heap : HeapState
  live : List Nat

/-- A client write to the payload behind ptr. -/
def clientWrite (s : HeapState) (ptr : Nat) (bytes : Memory) : HeapState :=
  let size := (block s.mem (sub64 ptr headerSize)).size
  { s with mem := fun x => if ptr ≤ x ∧ x < ptr + size then bytes x else s.mem x }

/-- One call, with the pointer it returns (NULL for a call that returns none). -/
def call (page : Nat → PageOutcome) (s : HeapState) : HeapOp → Option (Nat × HeapState)
  | .kmalloc size => Heap.kmalloc page s size
  | .kzalloc size => Heap.kzalloc page s size
  | .kcalloc count size => Heap.kcalloc page s count size
  | .krealloc ptr size => Heap.krealloc page s ptr size
  | .kfree ptr => (Heap.kfree s ptr).map fun s => (0, s)
  | .write ptr bytes => some (0, clientWrite s ptr bytes)

/-- What the clients hold after a call that returned p. -/
@[grind =] def holds (live : List Nat) (p : Nat) : HeapOp → List Nat
  | .krealloc ptr size =>
    if ptr ≠ 0 ∧ size = 0 then live.erase ptr
    else if p = 0 then live
    else p :: live.erase ptr
  | .kfree ptr => live.erase ptr
  | .write .. => live
  | _ => if p = 0 then live else p :: live

/-- Only NULL and held pointers are passed back, and only held payloads are written. -/
def Allowed (live : List Nat) : HeapOp → Prop
  | .krealloc ptr _ => ptr = 0 ∨ ptr ∈ live
  | .kfree ptr => ptr = 0 ∨ ptr ∈ live
  | .write ptr _ => ptr ∈ live
  | _ => True

/-- The bytes a call asks for. -/
def requested : HeapOp → Nat
  | .kmalloc size => size
  | .kzalloc size => size
  | .kcalloc count size => count * size
  | .krealloc _ size => size
  | .kfree _ => 0
  | .write .. => 0

def Boots (r : HeapRun) : Prop :=
  r.live = [] ∧ ∃ page boot, heapInit page boot = some r.heap

section Steps
variable (request : HeapState → HeapOp → Prop)

def Steps (r t : HeapRun) : Prop :=
  ∃ page op p, Allowed r.live op ∧ request r.heap op ∧
    call page r.heap op = some (p, t.heap) ∧ t.live = holds r.live p op

/-- The runs whose calls all meet request in the state they are made in. -/
abbrev Reached : HeapRun → Prop := Reachable Boots (Steps request)

end Steps

/-- The blocks along the next pointers from b. -/
def blocksFrom : Nat → Memory → Nat → Option (List Nat)
  | 0, _, _ => none
  | fuel + 1, m, b =>
    if b = 0 then some []
    else (blocksFrom fuel m (block m b).next).map (b :: ·)

def heapBlocks (s : HeapState) : Option (List Nat) := blocksFrom (walkFuel s) s.mem s.heapHead

/-- The blocks bs cover the addresses from a to e without gap or overlap. -/
def Tiles (m : Memory) : Nat → List Nat → Nat → Prop
  | a, [], e => a = e
  | a, b :: bs, e => b = a ∧ Tiles m (b + headerSize + (block m b).size) bs e

structure HeapInvariant (s : HeapState) (bs : List Nat) : Prop where
  walked : heapBlocks s = some bs
  tiles : Tiles s.mem s.heapStart bs s.heapEnd
  nextPrev : ∀ b ∈ bs, (block s.mem b).next ≠ 0 →
    (block s.mem b).next ∈ bs ∧ (block s.mem (block s.mem b).next).prev = b
  prevNext : ∀ b ∈ bs, (block s.mem b).prev ≠ 0 →
    (block s.mem b).prev ∈ bs ∧ (block s.mem (block s.mem b).prev).next = b
  magic : ∀ b ∈ bs, (block s.mem b).magic = magicOf (block s.mem b).free
  separated : bs.IsChain (fun b c => ¬ ((block s.mem b).free = true ∧ (block s.mem c).free = true))
  committed : (bs.map fun b => headerSize + (block s.mem b).size).sum = s.heapCommitted
  limit : s.heapCommitted ≤ heapMaxSize
  used : s.stats.usedBytes =
    ((bs.filter fun b => !(block s.mem b).free).map fun b => (block s.mem b).size).sum
  valid : heapValidate s = some true

/-- A grant of n bytes at p: inside one used block, clear of every header and of
every other pointer's payload. -/
structure Grants (s : HeapState) (live : List Nat) (p n : Nat) : Prop where
  aligned : p % heapAlign = 0
  inside : ∃ bs, heapBlocks s = some bs ∧
    (∃ b ∈ bs, (block s.mem b).free = false ∧
      b + headerSize ≤ p ∧ p + n ≤ b + headerSize + (block s.mem b).size) ∧
    ∀ b ∈ bs, Apart p n b headerSize
  within : s.heapStart ≤ p ∧ p + n ≤ s.heapEnd
  others : ∀ q ∈ live, q ≠ p → Apart p n q (block s.mem (sub64 q headerSize)).size

section Walk

/-- The headers of the chunks cs tiled from a on. -/
@[grind =] def addresses : Nat → List Chunk → List Nat
  | _, [] => []
  | a, c :: cs => a :: addresses (a + headerSize + c.size) cs

theorem addresses_split {a b : Nat} {cs : List Chunk} (member : b ∈ addresses a cs) :
    ∃ pre c post, cs = pre ++ c :: post ∧ b = a + span pre := by
  induction cs generalizing a with
  | nil => simp [addresses] at member
  | cons c cs ih =>
    rcases List.mem_cons.mp member with rfl | later
    · exact ⟨[], c, cs, rfl, rfl⟩
    · obtain ⟨pre, d, post, eq, addr⟩ := ih later
      refine ⟨c :: pre, d, post, by rw [eq]; rfl, ?_⟩
      rw [addr, span_cons]
      omega

theorem mem_addresses (a : Nat) (pre : List Chunk) (c : Chunk) (post : List Chunk) :
    a + span pre ∈ addresses a (pre ++ c :: post) := by
  induction pre generalizing a with
  | nil => exact List.mem_cons_self
  | cons d pre ih =>
    have shift : a + span (d :: pre) = a + headerSize + d.size + span pre := by
      rw [span_cons]
      omega
    rw [shift]
    exact List.mem_cons_of_mem _ (ih _)

theorem addresses_bounds {a b : Nat} {cs : List Chunk} (member : b ∈ addresses a cs) :
    a ≤ b ∧ b + headerSize ≤ a + span cs := by
  obtain ⟨pre, c, post, rfl, rfl⟩ := addresses_split member
  simp only [span_append, span_cons]
  omega

theorem allocations_headers {a p n b : Nat} {cs : List Chunk} (used : (p, n) ∈ allocations a cs)
    (header : b ∈ addresses a cs) : Apart p n b headerSize := by
  induction cs generalizing a with
  | nil => simp [allocations] at used
  | cons c cs ih =>
    simp only [allocations] at used
    rcases List.mem_cons.mp header with rfl | later
    · split at used
      · have bounds := allocations_bounds used
        omega
      · rcases List.mem_cons.mp used with same | used
        · obtain ⟨rfl, rfl⟩ := Prod.mk.inj same
          omega
        · have bounds := allocations_bounds used
          omega
    · split at used
      · exact ih used later
      · rcases List.mem_cons.mp used with same | used
        · obtain ⟨rfl, rfl⟩ := Prod.mk.inj same
          have bounds := addresses_bounds later
          omega
        · exact ih used later

theorem blocksFrom_spec {m : Memory} {a p fuel : Nat} {cs : List Chunk} (seg : Seg m a p cs 0)
    (pos : 0 < a) (enough : cs.length < fuel) :
    blocksFrom fuel m (nextLink a cs 0) = some (addresses a cs) := by
  induction cs generalizing a p fuel with
  | nil =>
    obtain ⟨fuel, rfl⟩ := Nat.exists_eq_add_of_lt enough
    simp [blocksFrom, nextLink, addresses]
  | cons c cs ih =>
    cases fuel with
    | zero => exact absurd enough (by simp)
    | succ fuel =>
      have next : (block m a).next = nextLink (a + headerSize + c.size) cs 0 := by rw [seg.1]; rfl
      have rest := ih seg.2 (by omega) (Nat.lt_of_succ_lt_succ enough)
      have nonzero : a ≠ 0 := by omega
      change blocksFrom (fuel + 1) m a = _
      simp only [blocksFrom, if_neg nonzero, next, rest, addresses, Option.map_some]

theorem tiles_addresses {m : Memory} {a p : Nat} {cs : List Chunk} (seg : Seg m a p cs 0) :
    Tiles m a (addresses a cs) (a + span cs) := by
  induction cs generalizing a p with
  | nil => rfl
  | cons c cs ih =>
    have size : (block m a).size = c.size := by rw [seg.1]; rfl
    have shift : a + span (c :: cs) = a + headerSize + c.size + span cs := by
      rw [span_cons]
      omega
    refine ⟨rfl, ?_⟩
    rw [size, shift]
    exact ih seg.2

theorem separated_addresses {m : Memory} {a p : Nat} {cs : List Chunk} (seg : Seg m a p cs 0)
    (separated : Separated cs) :
    (addresses a cs).IsChain (fun b c => ¬ ((block m b).free = true ∧ (block m c).free = true)) := by
  induction cs generalizing a p with
  | nil => exact List.IsChain.nil
  | cons c cs ih =>
    obtain ⟨link, rest⟩ := List.isChain_cons.mp separated
    refine List.isChain_cons.mpr ⟨?_, ih seg.2 rest⟩
    intro b first both
    cases cs with
    | nil => simp [addresses] at first
    | cons d ds =>
      obtain rfl : a + headerSize + c.size = b := by simpa [addresses] using first
      rw [seg.1, seg.2.1] at both
      exact link d rfl both

theorem committed_addresses {m : Memory} {a p : Nat} {cs : List Chunk} (seg : Seg m a p cs 0) :
    ((addresses a cs).map fun b => headerSize + (block m b).size).sum = span cs := by
  induction cs generalizing a p with
  | nil => rfl
  | cons c cs ih =>
    have size : (block m a).size = c.size := by rw [seg.1]; rfl
    simp only [addresses, List.map_cons, List.sum_cons, size, ih seg.2, span_cons]

theorem used_addresses {m : Memory} {a p : Nat} {cs : List Chunk} (seg : Seg m a p cs 0) :
    (((addresses a cs).filter fun b => !(block m b).free).map fun b => (block m b).size).sum =
      usedSum cs := by
  induction cs generalizing a p with
  | nil => rfl
  | cons c cs ih =>
    have size : (block m a).size = c.size := by rw [seg.1]; rfl
    have free : (block m a).free = c.free := by rw [seg.1]; rfl
    have rest := ih seg.2
    cases busy : c.free with
    | true => simp [addresses, free, busy, rest, usedSum]
    | false => simp [addresses, free, busy, rest, usedSum, size]

end Walk

section Concrete
variable {s : HeapState} {L : Layout} (rep : Represents s L)
include rep

theorem Represents.blocks : heapBlocks s = some (addresses heapBase L.chunks) := by
  rw [heapBlocks, rep.head]
  exact blocksFrom_spec rep.seg (by decide) rep.enough

theorem Represents.header {b : Nat} (member : b ∈ addresses heapBase L.chunks) :
    ∃ pre c post, L.chunks = pre ++ c :: post ∧ b = heapBase + span pre ∧
      block s.mem b = headerOf b (lastAddr heapBase 0 pre) c post 0 := by
  obtain ⟨pre, c, post, eq, rfl⟩ := addresses_split member
  have seg := rep.seg
  rw [eq] at seg
  exact ⟨pre, c, post, eq, rfl, ((seg_append ..).mp seg).2.1⟩

theorem Represents.next_prev {b : Nat} (member : b ∈ addresses heapBase L.chunks)
    (followed : (block s.mem b).next ≠ 0) :
    (block s.mem b).next ∈ addresses heapBase L.chunks ∧
      (block s.mem (block s.mem b).next).prev = b := by
  obtain ⟨pre, c, post, eq, rfl, header⟩ := rep.header member
  cases post with
  | nil =>
    rw [header] at followed
    exact absurd rfl followed
  | cons d post =>
    have next : (block s.mem (heapBase + span pre)).next = heapBase + span (pre ++ [c]) := by
      rw [header, span_append, span_cons, span_nil]
      simp only [headerOf, nextLink]
      omega
    have regroup : pre ++ c :: d :: post = (pre ++ [c]) ++ d :: post := by simp
    have seg := rep.seg
    rw [eq, regroup] at seg
    have following := ((seg_append ..).mp seg).2.1
    rw [next, following]
    refine ⟨?_, lastAddr_snoc ..⟩
    rw [eq, regroup]
    exact mem_addresses ..

theorem Represents.prev_next {b : Nat} (member : b ∈ addresses heapBase L.chunks)
    (preceded : (block s.mem b).prev ≠ 0) :
    (block s.mem b).prev ∈ addresses heapBase L.chunks ∧
      (block s.mem (block s.mem b).prev).next = b := by
  obtain ⟨pre, c, post, eq, rfl, header⟩ := rep.header member
  rcases List.eq_nil_or_concat' pre with rfl | ⟨xs, d, rfl⟩
  · rw [header] at preceded
    exact absurd rfl preceded
  · have prev : (block s.mem (heapBase + span (xs ++ [d]))).prev = heapBase + span xs := by
      rw [header]
      exact lastAddr_snoc ..
    have regroup : xs ++ [d] ++ c :: post = xs ++ d :: c :: post := by simp
    have seg := rep.seg
    rw [eq, regroup] at seg
    have preceding := ((seg_append ..).mp seg).2.1
    rw [prev, preceding]
    constructor
    · rw [eq, regroup]
      exact mem_addresses ..
    · simp only [headerOf, nextLink, span_append, span_cons, span_nil]
      omega

theorem Represents.invariant : HeapInvariant s (addresses heapBase L.chunks) where
  walked := rep.blocks
  tiles := by
    rw [rep.start, rep.stop]
    exact tiles_addresses rep.seg
  nextPrev := fun _ member => rep.next_prev member
  prevNext := fun _ member => rep.prev_next member
  magic := by
    intro b member
    obtain ⟨pre, c, post, -, -, header⟩ := rep.header member
    rw [header]
    rfl
  separated := separated_addresses rep.seg L.separated
  committed := by rw [committed_addresses rep.seg, rep.committed]
  limit := rep.committed ▸ L.bounded
  used := by rw [rep.used, used_addresses rep.seg]
  valid := rep.validates

end Concrete

section Clients
variable {s : HeapState} {L : Layout} {live : List Nat}

/-- The clients hold exactly the payloads in use. -/
@[grind =] def Holds (live : List Nat) (L : Layout) : Prop :=
  live.Perm ((allocations heapBase L.chunks).map Prod.fst)

theorem Holds.payload (held : Holds live L) {p : Nat} (member : p ∈ live) :
    ∃ n, (p, n) ∈ allocations heapBase L.chunks := by
  obtain ⟨⟨q, n⟩, used, rfl⟩ := List.mem_map.mp (held.mem_iff.mp member)
  exact ⟨n, used⟩

theorem Holds.erase (held : Holds live L) {p n : Nat} {L' : Layout}
    (fewer : (allocations heapBase L.chunks).Perm ((p, n) :: allocations heapBase L'.chunks)) :
    Holds (live.erase p) L' := by
  have all := (held.trans (fewer.map Prod.fst)).erase p
  rwa [List.map_cons, List.erase_cons_head] at all

theorem Holds.insert (held : Holds live L) {p n : Nat} {L' : Layout}
    (more : (allocations heapBase L'.chunks).Perm ((p, n) :: allocations heapBase L.chunks)) :
    Holds (p :: live) L' :=
  (List.Perm.cons p held).trans (more.map Prod.fst).symm

theorem Holds.not_null (held : Holds live L) : 0 ∉ live := by
  intro member
  obtain ⟨n, used⟩ := held.payload member
  exact live_positive used rfl

theorem allocations_aligned {p n : Nat} (used : (p, n) ∈ allocations heapBase L.chunks) :
    p % heapAlign = 0 := by
  obtain ⟨pre, post, eq, rfl⟩ := allocations_split used
  have front : span pre % 16 = 0 :=
    span_aligned (fun d hd => L.aligned d (by simp [eq, hd]))
  change (0xFFFFC00000000000 + span pre + 48) % 16 = 0
  omega

theorem grants_live (rep : Represents s L) (held : Holds live L) {p n size : Nat}
    (used : (p, n) ∈ allocations heapBase L.chunks) (enough : size ≤ n) : Grants s live p size where
  aligned := allocations_aligned used
  inside := by
    refine ⟨_, rep.blocks, ?_, ?_⟩
    · obtain ⟨pre, post, eq, rfl⟩ := allocations_split used
      have seg := rep.seg
      rw [eq] at seg
      have header := ((seg_append ..).mp seg).2.1
      refine ⟨heapBase + span pre, ?_, ?_⟩
      · rw [eq]
        exact mem_addresses ..
      · rw [header]
        refine ⟨rfl, Nat.le_refl _, ?_⟩
        change _ ≤ heapBase + span pre + headerSize + n
        omega
    · intro b member
      have apart := allocations_headers used member
      omega
  within := by
    have bounds := allocations_bounds used
    rw [rep.start, rep.stop]
    omega
  others := by
    intro q member other
    obtain ⟨k, busy⟩ := held.payload member
    rw [(live_header rep busy).2.2]
    obtain ⟨before, after, eq⟩ := List.append_of_mem used
    have rest : (q, k) ∈ before ++ after := by
      rw [eq] at busy
      rcases List.mem_append.mp busy with left | right
      · exact List.mem_append_left _ left
      · rcases List.mem_cons.mp right with same | right
        · exact absurd (Prod.mk.inj same).1 other
        · exact List.mem_append_right _ right
    have apart := (allocations_unique eq rest).1
    omega

end Clients

section Calls

/-- Requests whose arithmetic heap.c handles as meant in the state s. -/
def OpOk (s : HeapState) : HeapOp → Prop
  | .kmalloc size => RequestOk s size
  | .kzalloc size => RequestOk s size
  | .kcalloc count size => CallocOk s count size
  | .krealloc _ size => RequestOk s size
  | .kfree _ => True
  | .write .. => True

structure Represented (r : HeapRun) (L : Layout) : Prop where
  rep : Represents r.heap L
  held : Holds r.live L

variable {r : HeapRun} {L : Layout} (good : Represented r L) {op : HeapOp} (page : Nat → PageOutcome)

/-- What an allowed call returns and how it leaves the run. -/
def CallOk (page : Nat → PageOutcome) (r : HeapRun) (op : HeapOp) : Prop :=
  ∃ p s', call page r.heap op = some (p, s') ∧ (∃ L', Represented ⟨s', holds r.live p op⟩ L') ∧
    (p ≠ 0 → Grants s' (holds r.live p op) p (requested op))

include good

theorem allocated_ok {size p : Nat} {s' : HeapState} (done : Allocated L size p s') :
    (∃ L', Represented ⟨s', if p = 0 then r.live else p :: r.live⟩ L') ∧
      (p ≠ 0 → Grants s' (if p = 0 then r.live else p :: r.live) p size) := by
  obtain ⟨L', rep', ⟨rfl, same⟩ | ⟨n, large, more⟩⟩ := done
  · refine ⟨⟨L', rep', ?_⟩, fun nonzero => absurd rfl nonzero⟩
    have held := good.held
    rw [Holds, ← same] at held
    exact held
  · have used : (p, n) ∈ allocations heapBase L'.chunks := more.mem_iff.mpr List.mem_cons_self
    have held := good.held.insert more
    rw [if_neg (live_positive used)]
    exact ⟨⟨L', rep', held⟩, fun _ => grants_live rep' held used large⟩

theorem kfree_ok {ptr : Nat} (allowed : ptr = 0 ∨ ptr ∈ r.live) : CallOk page r (.kfree ptr) := by
  rcases allowed with rfl | member
  · refine ⟨0, r.heap, by simp [call, kfree], ⟨L, good.rep, ?_⟩, fun nonzero => absurd rfl nonzero⟩
    simp only [holds, List.erase_of_not_mem good.held.not_null]
    exact good.held
  · obtain ⟨n, used⟩ := good.held.payload member
    obtain ⟨s', L', run, rep', fewer⟩ := kfree_live good.rep used
    exact ⟨0, s', by simp [call, run], ⟨L', rep', good.held.erase fewer⟩, fun nonzero => absurd rfl nonzero⟩

theorem krealloc_ok {ptr size : Nat} (allowed : ptr = 0 ∨ ptr ∈ r.live) (ok : RequestOk r.heap size) :
    CallOk page r (.krealloc ptr size) := by
  rcases allowed with rfl | member
  · obtain ⟨p, s', run, done⟩ := kmalloc_spec good.rep ok page
    have outcome := allocated_ok good done
    refine ⟨p, s', by simp [call, krealloc, run], ?_⟩
    simp only [holds, requested, List.erase_of_not_mem good.held.not_null, ne_eq, not_true_eq_false,
      false_and, if_false]
    exact outcome
  · obtain ⟨n, used⟩ := good.held.payload member
    have nonzero := live_positive used
    obtain ⟨q, s', run, L', rep', outcome⟩ := krealloc_spec good.rep used ok page
    refine ⟨q, s', run, ?_⟩
    rcases outcome with ⟨positive, same, rfl | ⟨rfl, large⟩⟩ | ⟨rfl, zero, fewer⟩ | ⟨k, large, positive, fresh, other, moved⟩
    · have held := good.held
      rw [Holds, ← same] at held
      simp only [holds, positive, and_false, if_false, if_true]
      exact ⟨⟨L', rep', held⟩, fun wrong => absurd rfl wrong⟩
    · have held := good.held
      rw [Holds, ← same] at held
      have kept : Holds (q :: r.live.erase q) L' := (List.perm_cons_erase member).symm.trans held
      rw [← same] at used
      simp only [holds, positive, and_false, if_false, nonzero]
      exact ⟨⟨L', rep', kept⟩, fun _ => grants_live rep' kept used large⟩
    · simp only [holds, zero, ne_eq, nonzero, not_false_eq_true, and_self, if_true]
      exact ⟨⟨L', rep', good.held.erase fewer⟩, fun wrong => absurd trivial wrong⟩
    · have kept : Holds (q :: r.live.erase ptr) L' := by
        have all := ((List.Perm.cons q good.held).trans (moved.map Prod.fst).symm).erase ptr
        rwa [List.erase_cons_tail (by simpa using other), List.map_cons, List.erase_cons_head] at all
      have busy : (q, k) ∈ allocations heapBase L'.chunks := by
        rcases List.mem_cons.mp (moved.mem_iff.mpr List.mem_cons_self) with same | busy
        · exact absurd (Prod.mk.inj same).1 other
        · exact busy
      simp only [holds, positive, and_false, if_false, fresh]
      exact ⟨⟨L', rep', kept⟩, fun _ => grants_live rep' kept busy large⟩

theorem write_ok {ptr : Nat} {bytes : Memory} (allowed : ptr ∈ r.live) :
    CallOk page r (.write ptr bytes) := by
  obtain ⟨n, used⟩ := good.held.payload allowed
  have size := (live_header good.rep used).2.2
  refine ⟨0, _, rfl, ⟨L, ?_, good.held⟩, fun nonzero => absurd rfl nonzero⟩
  refine good.rep.write used ?_
  intro x outside
  have beyond : ¬ (ptr ≤ x ∧ x < ptr + n) := by omega
  simp only [size, if_neg beyond]

theorem call_ok (allowed : Allowed r.live op) (ok : OpOk r.heap op) : CallOk page r op := by
  cases op with
  | kmalloc size =>
    obtain ⟨p, s', run, done⟩ := kmalloc_spec good.rep ok page
    exact ⟨p, s', run, allocated_ok good done⟩
  | kzalloc size =>
    obtain ⟨p, s', run, done⟩ := kzalloc_spec good.rep ok page
    exact ⟨p, s', run, allocated_ok good done⟩
  | kcalloc count size =>
    obtain ⟨p, s', run, done⟩ := kcalloc_spec good.rep ok page
    exact ⟨p, s', run, allocated_ok good done⟩
  | krealloc ptr size => exact krealloc_ok good page allowed ok
  | kfree ptr => exact kfree_ok good page allowed
  | write ptr bytes => exact write_ok good page allowed

end Calls

section Boot

def emptyLayout : Layout where
  chunks := []
  aligned := by simp
  paged := rfl
  bounded := by decide
  separated := List.IsChain.nil

theorem emptyHeap_represents (boot : Memory) : Represents (emptyHeap boot) emptyLayout :=
  ⟨trivial, rfl, rfl, rfl, rfl, rfl⟩

theorem boot_represented {r : HeapRun} (boots : Boots r) : ∃ L, Represented r L := by
  obtain ⟨empty, page, boot, started⟩ := boots
  have first : GrowOk (emptyHeap boot).heapCommitted heapInitSize := by
    refine ⟨by decide, by decide, by decide, fun _ => ?_⟩
    change 0 + roundUp (heapInitSize + headerSize) heapGrowStep < 2 ^ 64
    decide
  simp only [heapInit] at started
  rcases heapGrow_spec (emptyHeap_represents boot) first page with refused | ⟨s', amount, pages, large, fits, grown, rep⟩
  · simp [refused] at started
  · simp only [grown, Option.bind_eq_bind, Option.bind_some, if_true] at started
    cases Option.some.inj started
    refine ⟨_, rep, ?_⟩
    rw [Holds, empty]
    change [].Perm ((allocations heapBase (extend amount [])).map Prod.fst)
    rw [allocations_extend]
    exact List.Perm.refl _

end Boot

section Reached
variable {request : HeapState → HeapOp → Prop} {r : HeapRun}

theorem reached_represented (meant : ∀ r L op, Represented r L → request r.heap op → OpOk r.heap op)
    (reached : Reached request r) : ∃ L, Represented r L := by
  refine reached.induct (fun r => ∃ L, Represented r L) (fun r => boot_represented) ?_
  rintro r t ⟨L, good⟩ ⟨page, op, p, allowed, asked, run, live⟩
  obtain ⟨p', s', run', next, -⟩ := call_ok good page allowed (meant r L op good asked)
  obtain ⟨rfl, rfl⟩ := Prod.mk.inj (Option.some.inj (run.symm.trans run'))
  rwa [← live] at next

/-- The requests a client can make for less than half the address space. -/
def SmallRequest (_ : HeapState) (op : HeapOp) : Prop := requested op < 2 ^ 63

theorem RequestOk.of_small {s : HeapState} {size : Nat} (small : size < 2 ^ 63)
    (bounded : s.heapCommitted ≤ heapMaxSize) : RequestOk s size := by
  have limit : s.heapCommitted ≤ 268435456 := bounded
  refine ⟨?_, ?_, ?_⟩
  · change size + 16 - 1 < 2 ^ 64
    omega
  · change (size + 16 - 1) / 16 * 16 ≠ 2 ^ 64 - 48
    omega
  · intro _
    change s.heapCommitted + ((size + 16 - 1) / 16 * 16 + 48 + 1048576 - 1) / 1048576 * 1048576 < 2 ^ 64
    omega

theorem small_ok {L : Layout} {op : HeapOp} (good : Represented r L) (small : SmallRequest r.heap op) :
    OpOk r.heap op := by
  have bounded : r.heap.heapCommitted ≤ heapMaxSize := good.rep.committed ▸ L.bounded
  cases op with
  | kmalloc size => exact RequestOk.of_small small bounded
  | kzalloc size => exact RequestOk.of_small small bounded
  | kcalloc count size => exact Or.inr (RequestOk.of_small small bounded)
  | krealloc ptr size => exact RequestOk.of_small small bounded
  | kfree ptr => trivial
  | write ptr bytes => trivial

/-- The representation invariant of the heap, over every run with requests below
2^63, together with the fact that no call loops. -/
theorem heap_invariant_reached (reached : Reached SmallRequest r) :
    (∃ bs, HeapInvariant r.heap bs) ∧
    ∀ page op, Allowed r.live op → SmallRequest r.heap op → (call page r.heap op).isSome := by
  obtain ⟨L, good⟩ := reached_represented (fun _ _ _ => small_ok) reached
  refine ⟨⟨_, good.rep.invariant⟩, ?_⟩
  intro page op allowed small
  obtain ⟨p, s', run, -⟩ := call_ok good page allowed (small_ok good small)
  rw [run]
  rfl

theorem live_bound (reached : Reached SmallRequest r) : r.live.length * headerSize ≤ heapMaxSize := by
  obtain ⟨L, good⟩ := reached_represented (fun _ _ _ => small_ok) reached
  calc r.live.length * headerSize
      = (allocations heapBase L.chunks).length * headerSize := by rw [good.held.length_eq, List.length_map]
    _ ≤ L.chunks.length * headerSize := Nat.mul_le_mul_right _ (allocations_length ..)
    _ ≤ span L.chunks := length_headers_le_span _
    _ ≤ heapMaxSize := L.bounded

/-- Memory at boot and a machine with a single free frame. -/
def zeroed : Memory := fun _ => 0
def onePage (i : Nat) : PageOutcome := if i = 0 then .mapped else .noFrame

theorem heap_invariant_after_kmalloc :
    ∃ s p s', heapInit onePage zeroed = some s ∧ call onePage s (.kmalloc 100) = some (p, s') ∧
      p = heapBase + headerSize ∧ ∃ bs, HeapInvariant s' bs := by
  have runs : ((heapInit onePage zeroed).bind fun s => (call onePage s (.kmalloc 100)).map Prod.fst) =
      some (heapBase + headerSize) := by decide
  obtain ⟨s, started, call⟩ := Option.bind_eq_some_iff.mp runs
  obtain ⟨⟨p, s'⟩, run, rfl⟩ := Option.map_eq_some_iff.mp call
  have small : SmallRequest s (.kmalloc 100) := by
    change 100 < 2 ^ 63
    decide
  have reached : Reached SmallRequest ⟨s', holds [] (heapBase + headerSize) (.kmalloc 100)⟩ :=
    .next (.start (s := ⟨s, []⟩) ⟨rfl, onePage, zeroed, started⟩)
      ⟨onePage, .kmalloc 100, _, trivial, small, run, rfl⟩
  exact ⟨s, _, s', started, run, rfl, (heap_invariant_reached reached).1⟩

/-- The allocation contract, over every run whose requests heap.c handles as meant. -/
theorem allocation_contract (reached : Reached OpOk r) {op : HeapOp} (allowed : Allowed r.live op)
    (ok : OpOk r.heap op) (page : Nat → PageOutcome) :
    ∃ p s', call page r.heap op = some (p, s') ∧ s'.heapCommitted ≤ heapMaxSize ∧
      (p ≠ 0 → Grants s' (holds r.live p op) p (requested op)) := by
  obtain ⟨L, good⟩ := reached_represented (fun _ _ _ _ ok => ok) reached
  obtain ⟨p, s', run, ⟨L', next⟩, grants⟩ := call_ok good page allowed ok
  exact ⟨p, s', run, next.rep.committed ▸ L'.bounded, grants⟩

theorem allocation_contract_at_boot :
    ∃ s p s', heapInit onePage zeroed = some s ∧ call onePage s (.kcalloc 5 20) = some (p, s') ∧
      p = heapBase + headerSize ∧ Grants s' [p] p 100 := by
  have runs : ((heapInit onePage zeroed).bind fun s =>
      (call onePage s (.kcalloc 5 20)).map fun r => (r.1, s.heapCommitted)) =
      some (heapBase + headerSize, 4096) := by decide
  obtain ⟨s, started, called⟩ := Option.bind_eq_some_iff.mp runs
  obtain ⟨⟨p, s'⟩, run, result⟩ := Option.map_eq_some_iff.mp called
  obtain ⟨rfl, committed⟩ := Prod.mk.inj result
  have ok : OpOk s (.kcalloc 5 20) := Or.inr (RequestOk.of_small (by decide) (by rw [committed]; decide))
  have allowed : Allowed [] (.kcalloc 5 20) := trivial
  obtain ⟨q, t, run', -, grants⟩ := allocation_contract (r := ⟨s, []⟩)
    (.start ⟨rfl, onePage, zeroed, started⟩) allowed ok onePage
  obtain ⟨rfl, rfl⟩ := Prod.mk.inj (Option.some.inj (run.symm.trans run'))
  exact ⟨s, _, s', started, run, rfl, grants (by decide)⟩

/-- Calls whose arguments are 64-bit words. -/
def WordRequest (_ : HeapState) : HeapOp → Prop
  | .kmalloc size => size < 2 ^ 64
  | .kzalloc size => size < 2 ^ 64
  | .kcalloc count size => count < 2 ^ 64 ∧ size < 2 ^ 64
  | .krealloc ptr size => ptr < 2 ^ 64 ∧ size < 2 ^ 64
  | .kfree ptr => ptr < 2 ^ 64
  | .write ptr _ => ptr < 2 ^ 64

/-- Rounding the largest sizes up to the alignment wraps to 0: kmalloc answers
2^64 - 1 bytes with an empty payload. -/
theorem allocation_contract_wraps :
    ¬ ∀ r, Reached WordRequest r → ∀ page op p s', Allowed r.live op → WordRequest r.heap op →
      call page r.heap op = some (p, s') →
      s'.heapCommitted ≤ heapMaxSize ∧ (p ≠ 0 → Grants s' (holds r.live p op) p (requested op)) := by
  intro contract
  have runs : ((heapInit onePage zeroed).bind fun s =>
      (call onePage s (.kmalloc (2 ^ 64 - 1))).map fun r => (r.1, r.2.heapEnd)) =
      some (heapBase + headerSize, heapBase + 4096) := by decide
  obtain ⟨s, started, called⟩ := Option.bind_eq_some_iff.mp runs
  obtain ⟨⟨p, s'⟩, run, result⟩ := Option.map_eq_some_iff.mp called
  obtain ⟨rfl, stop⟩ := Prod.mk.inj result
  have word : WordRequest s (.kmalloc (2 ^ 64 - 1)) := by
    change 2 ^ 64 - 1 < 2 ^ 64
    decide
  have grants := (contract ⟨s, []⟩ (.start ⟨rfl, onePage, zeroed, started⟩) onePage
    (.kmalloc (2 ^ 64 - 1)) _ s' trivial word run).2 (by decide)
  have inside := grants.within.2
  rw [stop] at inside
  exact absurd inside (by decide)

end Reached

end Qito.Heap
