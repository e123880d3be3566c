import Qito.Heap.Resizing

/-! Frees of pointers that are no longer live. A dead header is told from a live one by
its first word, so the runs below keep track of every aligned word of the heap that holds
BLOCK_MAGIC_USED: those words are the headers of the live blocks and no others. -/
namespace Qito.Heap
open ByteMemory Words Runs

/-- A run with every pointer that was ever returned in it. -/
structure HeapHistory extends HeapRun where
  returned : List Nat

/-- Requests are below 2^63 bytes, or products that kcalloc refuses, and no word of a
payload becomes BLOCK_MAGIC_USED by a client's write. -/
def Unforged (s : HeapState) : HeapOp → Prop
  | .kmalloc size => size < 2 ^ 63
  | .kzalloc size => size < 2 ^ 63
  | .kcalloc count size => (count ≠ 0 ∧ size > (2 ^ 64 - 1) / count) ∨ count * size < 2 ^ 63
  | .krealloc _ size => size < 2 ^ 63
  | .kfree _ => True
  | .write ptr bytes => ∀ a, a % 8 = 0 → ptr ≤ a → a + 8 ≤ ptr + (block s.mem (sub64 ptr headerSize)).size →
      (∃ x, a ≤ x ∧ x < a + 8 ∧ bytes x ≠ s.mem x) → load bytes a 8 ≠ blockMagicUsed

/-- Any pointer that was ever returned may be freed or reallocated; only live payloads are written. -/
def Attempted (h : HeapHistory) : HeapOp → Prop
  | .krealloc ptr _ => ptr = 0 ∨ ptr ∈ h.returned
  | .kfree ptr => ptr = 0 ∨ ptr ∈ h.returned
  | .write ptr _ => ptr ∈ h.live
  | _ => True

/-- The heap after heap_init. The frames it maps, now and later, come cleared from
pmm_alloc_page. -/
def HistoryStart (h : HeapHistory) : Prop :=
  h.live = [] ∧ h.returned = [] ∧ ∃ page boot, (∀ a, heapBase ≤ a → a < heapBase + heapMaxSize → boot a = 0) ∧
    heapInit page boot = some h.heap

def HistoryStep (h t : HeapHistory) : Prop :=
  ∃ page op p, Attempted h op ∧ Unforged h.heap op ∧ call page h.heap op = some (p, t.heap) ∧
    t.live = holds h.live p op ∧ t.returned = if p = 0 then h.returned else p :: h.returned

/-- The words that hold BLOCK_MAGIC_USED are headers of live blocks. -/
def Marks (m : Memory) (live : List Nat) : Prop :=
  ∀ a, heapBase ≤ a → a + 8 ≤ heapBase + heapMaxSize → a % heapAlign = 0 → load m a 8 = blockMagicUsed → a + headerSize ∈ live

section Words
variable {m : Memory} {a : Nat}

theorem used_bytes (marked : load m a 8 = blockMagicUsed) {x : Nat} (low : a ≤ x) (high : x < a + 8) : m x ≠ 0 := by
  intro zero
  have byte := load_byte m a (i := x - a) (k := 8) (by omega)
  rw [Nat.add_sub_cancel' low, zero, marked] at byte
  have digits : ∀ i < 8, blockMagicUsed / 256 ^ i % 256 ≠ 0 := by decide
  exact digits (x - a) (by omega) byte.symm

theorem fill_words {p n : Nat} (marked : load (fill m p n 0) a 8 = blockMagicUsed) : load m a 8 = blockMagicUsed := by
  have same : load m a 8 = load (fill m p n 0) a 8 := by
    apply load_congr
    intro x low high
    have some_ := used_bytes marked low high
    rw [fill] at some_ ⊢
    split
    · rename_i inside
      rw [if_pos inside] at some_
      exact absurd rfl some_
    · rfl
  exact same.trans marked

theorem load_copy_within {dst src n k : Nat} (low : dst ≤ a) (high : a + k ≤ dst + n) :
    load (copy m dst src n) a k = load m (src + (a - dst)) k := by
  induction k generalizing a with
  | zero => rfl
  | succ k ih =>
    have inside : dst ≤ a ∧ a < dst + n := by omega
    have rest := @ih (a + 1) (by omega) (by omega)
    have shift : src + (a + 1 - dst) = src + (a - dst) + 1 := by omega
    rw [shift] at rest
    simp only [load, rest]
    rw [copy, if_pos inside]

end Words

section Calls
variable {r : HeapRun} {s' : HeapState} {L : Layout} {page : Nat → PageOutcome} {p size : Nat}

theorem kmalloc_words (good : Represented r L) (marks : Marks r.heap.mem r.live) (ok : RequestOk r.heap size)
    (run : kmalloc page r.heap size = some (p, s')) : Marks s'.mem (if p = 0 then r.live else p :: r.live) := by
  intro a low high aligned marked
  rcases (kmalloc_serves good.rep ok run).words a aligned marked with before | rfl
  · have live := marks a low high aligned before
    split
    · exact live
    · exact List.mem_cons_of_mem _ live
  · rw [if_neg (Nat.ne_of_gt (Nat.add_pos_right a (by decide)))]
    exact List.mem_cons_self

theorem kzalloc_words (good : Represented r L) (marks : Marks r.heap.mem r.live) (ok : RequestOk r.heap size)
    (run : kzalloc page r.heap size = some (p, s')) : Marks s'.mem (if p = 0 then r.live else p :: r.live) := by
  simp only [kzalloc] at run
  obtain ⟨⟨q, t⟩, allocated, run⟩ := Option.bind_eq_some_iff.mp run
  have words := kmalloc_words good marks ok allocated
  simp only at run
  split at run
  · obtain ⟨rfl, rfl⟩ := Prod.mk.inj (Option.some.inj run)
    exact fun a low high aligned marked => words a low high aligned (fill_words marked)
  · obtain ⟨rfl, rfl⟩ := Prod.mk.inj (Option.some.inj run)
    exact words

theorem kfree_words (rep : Represents r.heap L) (marks : Marks r.heap.mem r.live) {n : Nat}
    (used : (p, n) ∈ allocations heapBase L.chunks) (run : kfree r.heap p = some s') : Marks s'.mem (r.live.erase p) := by
  obtain ⟨pre, post, eq, rfl⟩ := allocations_split used
  obtain ⟨tidy, gone⟩ := kfree_tidy rep eq run
  intro a low high aligned marked
  have live := marks a low high aligned (tidy.words a aligned marked)
  apply (List.mem_erase_of_ne _).mpr live
  intro same
  rw [Nat.add_right_cancel same] at marked
  exact gone marked

theorem live_apart (good : Represented r L) {q n : Nat} (live : p ∈ r.live) (used : (q, n) ∈ allocations heapBase L.chunks) :
    ∃ b, p = b + headerSize ∧ Apart q n b headerSize := by
  obtain ⟨k, there⟩ := good.held.payload live
  obtain ⟨pre, post, eq, rfl⟩ := allocations_split there
  refine ⟨_, rfl, allocations_headers used ?_⟩
  rw [eq]
  exact mem_addresses ..

theorem copy_words (good : Represented r L) (marks : Marks r.heap.mem r.live) {q n k : Nat}
    (old : (p, n) ∈ allocations heapBase L.chunks) (new : (q, k) ∈ allocations heapBase L.chunks) (whole : n % heapAlign = 0) :
    Marks (copy r.heap.mem q p n) r.live := by
  have place : p % 16 = 0 := allocations_aligned old
  have target : q % 16 = 0 := allocations_aligned new
  have bounds := allocations_bounds old
  have bounded := L.bounded
  change n % 16 = 0 at whole
  intro a low high aligned marked
  change a % 16 = 0 at aligned
  by_cases inside : q ≤ a ∧ a < q + n
  · rw [load_copy_within inside.1 (by omega)] at marked
    have live := marks (p + (a - q)) (by omega) (by omega) (by change (p + (a - q)) % 16 = 0; omega) marked
    obtain ⟨b, same, apart⟩ := live_apart good live old
    have here := Nat.add_right_cancel same
    have width : headerSize = 48 := rfl
    omega
  · rw [load_copy_apart _ (by omega)] at marked
    exact marks a low high aligned marked

theorem write_words (good : Represented r L) (marks : Marks r.heap.mem r.live) {bytes : Memory} (live : p ∈ r.live)
    (honest : Unforged r.heap (.write p bytes)) : Marks (clientWrite r.heap p bytes).mem r.live := by
  obtain ⟨n, used⟩ := good.held.payload live
  have size := (live_header good.rep used).2.2
  have place : p % 16 = 0 := allocations_aligned used
  have whole : n % 16 = 0 := by
    obtain ⟨pre, post, eq, -⟩ := allocations_split used
    exact L.aligned ⟨n, false⟩ (by simp [eq])
  intro a low high aligned marked
  change a % 16 = 0 at aligned
  simp only [clientWrite, size] at marked
  by_cases inside : p ≤ a ∧ a < p + n
  · have written : load bytes a 8 = blockMagicUsed := by
      rw [← marked]
      apply load_congr
      intro x lo hi
      rw [if_pos (by omega)]
    have same : ∀ x, a ≤ x → x < a + 8 → bytes x = r.heap.mem x := by
      intro x lo hi
      by_contra changed
      exact honest a (by omega) inside.1 (by rw [size]; omega) ⟨x, lo, hi, changed⟩ written
    exact marks a low high aligned ((load_congr fun x lo hi => (same x lo hi).symm).trans written)
  · have same : load r.heap.mem a 8 = blockMagicUsed := by
      rw [← marked]
      apply load_congr
      intro x lo hi
      rw [if_neg (by omega)]
    exact marks a low high aligned same

theorem krealloc_words (good : Represented r L) (marks : Marks r.heap.mem r.live) {ptr : Nat} (live : ptr ∈ r.live)
    (ok : RequestOk r.heap size) (run : krealloc page r.heap ptr size = some (p, s')) :
    Marks s'.mem (holds r.live p (.krealloc ptr size)) := by
  obtain ⟨n, used⟩ := good.held.payload live
  have nonzero := live_positive used
  obtain ⟨-, magic, old⟩ := live_header good.rep used
  simp only [krealloc, if_neg nonzero, magic, ne_eq, not_true_eq_false, if_false, old] at run
  split at run
  · rename_i zero
    obtain ⟨t, freed, done⟩ := Option.bind_eq_some_iff.mp run
    obtain ⟨rfl, rfl⟩ := Prod.mk.inj (Option.some.inj done)
    rw [holds, if_pos ⟨nonzero, zero⟩]
    exact kfree_words good.rep marks used freed
  · rename_i positive
    rw [holds, if_neg fun both => positive both.2]
    split at run
    · obtain ⟨rfl, rfl⟩ := Prod.mk.inj (Option.some.inj run)
      rw [if_neg nonzero]
      exact fun a low high aligned marked => (List.perm_cons_erase live).mem_iff.mp (marks a low high aligned marked)
    · rename_i short
      obtain ⟨⟨q', s₁'⟩, allocated, run⟩ := Option.bind_eq_some_iff.mp run
      obtain ⟨q, s₁, run', done⟩ := kmalloc_spec good.rep ok page
      obtain ⟨rfl, rfl⟩ := Prod.mk.inj (Option.some.inj (run'.symm.trans allocated))
      have marks₁ := kmalloc_words good marks ok allocated
      obtain ⟨L₁, rep₁, ⟨rfl, -⟩ | ⟨k, large, more⟩⟩ := done
      · obtain ⟨rfl, rfl⟩ := Prod.mk.inj (Option.some.inj run)
        exact marks₁
      · have new : (q, k) ∈ allocations heapBase L₁.chunks := more.mem_iff.mpr List.mem_cons_self
        have kept : (ptr, n) ∈ allocations heapBase L₁.chunks := more.mem_iff.mpr (List.mem_cons_of_mem _ used)
        have fresh := live_positive new
        rw [if_neg fresh] at marks₁
        simp only [if_neg fresh, (live_header rep₁ kept).2.2] at run
        obtain ⟨t, freed, result⟩ := Option.bind_eq_some_iff.mp run
        obtain ⟨rfl, rfl⟩ := Prod.mk.inj (Option.some.inj result)
        have whole : n % heapAlign = 0 := by
          obtain ⟨pre, post, eq, -⟩ := allocations_split used
          exact L.aligned ⟨n, false⟩ (by simp [eq])
        have copied := copy_words (r := ⟨s₁, q :: r.live⟩) ⟨rep₁, good.held.insert more⟩ marks₁ kept new whole
        have rep₂ : Represents { s₁ with mem := copy s₁.mem q ptr n } L₁ := by
          refine rep₁.write new fun x outside => ?_
          have beyond : ¬ (q ≤ x ∧ x < q + n) := by omega
          rw [copy, if_neg beyond]
        have words := kfree_words (r := ⟨{ s₁ with mem := copy s₁.mem q ptr n }, q :: r.live⟩) rep₂ copied kept freed
        have other : q ≠ ptr := by
          rintro rfl
          have distinct := (more.map Prod.fst).nodup_iff.mp (allocations_nodup ..)
          exact (List.nodup_cons.mp distinct).1 (List.mem_map.mpr ⟨_, used, rfl⟩)
        rw [List.erase_cons_tail (by simpa using other)] at words
        rw [if_neg fresh]
        exact words

theorem call_words {op : HeapOp} (good : Represented r L) (marks : Marks r.heap.mem r.live) (allowed : Allowed r.live op)
    (ok : OpOk r.heap op) (honest : Unforged r.heap op) (run : call page r.heap op = some (p, s')) :
    Marks s'.mem (holds r.live p op) := by
  cases op with
  | kmalloc size => exact kmalloc_words good marks ok run
  | kzalloc size => exact kzalloc_words good marks ok run
  | kcalloc count size =>
    simp only [call, kcalloc] at run
    split at run
    · obtain ⟨rfl, rfl⟩ := Prod.mk.inj (Option.some.inj run)
      exact marks
    · rename_i fits
      have request : RequestOk r.heap (count * size) := ok.resolve_left fits
      have product : wrap64 (count * size) = count * size := by
        have small : count * size + 16 - 1 < 2 ^ 64 := request.1
        exact wrap64_of_lt (by omega)
      rw [product] at run
      exact kzalloc_words good marks request run
  | krealloc ptr size =>
    rcases allowed with rfl | live
    · simp only [call, krealloc, if_true] at run
      have words := kmalloc_words good marks ok run
      rw [holds, List.erase_of_not_mem good.held.not_null, if_neg fun both => both.1 rfl]
      exact words
    · exact krealloc_words good marks live ok run
  | kfree ptr =>
    obtain ⟨t, freed, done⟩ := Option.map_eq_some_iff.mp run
    obtain ⟨rfl, rfl⟩ := Prod.mk.inj done
    rcases allowed with rfl | live
    · cases Option.some.inj freed
      rw [holds, List.erase_of_not_mem good.held.not_null]
      exact marks
    · obtain ⟨n, used⟩ := good.held.payload live
      exact kfree_words good.rep marks used freed
  | write ptr bytes =>
    obtain ⟨rfl, rfl⟩ := Prod.mk.inj (Option.some.inj run)
    exact write_words good marks allowed honest

end Calls

section Histories
variable {h t : HeapHistory}

/-- The invariant of a history. -/
structure Guarded (h : HeapHistory) (L : Layout) : Prop where
  good : Represented h.toHeapRun L
  marks : Marks h.heap.mem h.live
  known : ∀ p ∈ h.live, p ∈ h.returned
  placed : ∀ p ∈ h.returned, p % heapAlign = 0 ∧ heapBase + headerSize ≤ p ∧ p ≤ heapBase + heapMaxSize

theorem Guarded.dead {L : Layout} (guarded : Guarded h L) {p : Nat} (known : p ∈ h.returned) (dead : p ∉ h.live) :
    p ≠ 0 ∧ (block h.heap.mem (sub64 p headerSize)).magic ≠ blockMagicUsed := by
  obtain ⟨aligned, low, high⟩ := guarded.placed p known
  change p % 16 = 0 at aligned
  change 0xFFFFC00000000000 + 48 ≤ p at low
  change p ≤ 0xFFFFC00000000000 + 268435456 at high
  have back : sub64 p headerSize = p - 48 := sub64_of_le (by change 48 ≤ p; omega) (by omega)
  refine ⟨by omega, fun marked => dead ?_⟩
  rw [back] at marked
  have live := guarded.marks (p - 48) (by change 0xFFFFC00000000000 ≤ _; omega)
    (by change _ ≤ 0xFFFFC00000000000 + 268435456; omega) (by change (p - 48) % 16 = 0; omega) marked
  rwa [Nat.sub_add_cancel (by omega)] at live

theorem kfree_dead {s : HeapState} {p : Nat} (dead : p ≠ 0 ∧ (block s.mem (sub64 p headerSize)).magic ≠ blockMagicUsed) :
    kfree s p = some s := by
  simp only [kfree, if_neg dead.1, dead.2, ne_eq, not_false_eq_true, if_true, ite_self]
  rfl

theorem krealloc_dead {s : HeapState} {p n : Nat} (dead : p ≠ 0 ∧ (block s.mem (sub64 p headerSize)).magic ≠ blockMagicUsed)
    (page : Nat → PageOutcome) : krealloc page s p n = some (0, s) := by
  by_cases zero : n = 0
  · simp [krealloc, dead.1, zero, kfree_dead dead]
  · simp [krealloc, dead.1, dead.2, zero]

theorem unforged_ok {r : HeapRun} {L : Layout} {op : HeapOp} (good : Represented r L) (honest : Unforged r.heap op) :
    OpOk r.heap op := by
  have bounded : r.heap.heapCommitted ≤ heapMaxSize := good.rep.committed ▸ L.bounded
  cases op with
  | kmalloc size => exact RequestOk.of_small honest bounded
  | kzalloc size => exact RequestOk.of_small honest bounded
  | kcalloc count size => exact honest.imp_right fun small => RequestOk.of_small small bounded
  | krealloc ptr size => exact RequestOk.of_small honest bounded
  | kfree ptr => trivial
  | write ptr bytes => trivial

theorem holds_mem {live : List Nat} {p x : Nat} {op : HeapOp} (member : x ∈ holds live p op) : (p ≠ 0 ∧ x = p) ∨ x ∈ live := by
  have added (member : x ∈ if p = 0 then live else p :: live) : (p ≠ 0 ∧ x = p) ∨ x ∈ live := by
    split at member
    · exact Or.inr member
    · rename_i some_
      exact (List.mem_cons.mp member).imp_left fun same => ⟨some_, same⟩
  cases op with
  | kmalloc size => exact added member
  | kzalloc size => exact added member
  | kcalloc count size => exact added member
  | krealloc ptr size =>
    rw [holds] at member
    split at member
    · exact Or.inr (List.mem_of_mem_erase member)
    · split at member
      · exact Or.inr member
      · rename_i some_
        exact (List.mem_cons.mp member).imp (fun same => ⟨some_, same⟩) List.mem_of_mem_erase
  | kfree ptr => exact Or.inr (List.mem_of_mem_erase member)
  | write ptr bytes => exact Or.inr member

theorem holds_returned {s s' : HeapState} {page : Nat → PageOutcome} {live : List Nat} {p : Nat} {op : HeapOp} (some_ : p ≠ 0)
    (run : call page s op = some (p, s')) : p ∈ holds live p op := by
  have added : p ∈ if p = 0 then live else p :: live := by
    rw [if_neg some_]
    exact List.mem_cons_self
  cases op with
  | kmalloc size => exact added
  | kzalloc size => exact added
  | kcalloc count size => exact added
  | krealloc ptr size =>
    rw [holds]
    split
    · rename_i freed
      simp only [call, krealloc, if_neg freed.1, if_pos freed.2] at run
      obtain ⟨t, -, done⟩ := Option.bind_eq_some_iff.mp run
      exact absurd (Prod.mk.inj (Option.some.inj done)).1.symm some_
    · exact List.mem_cons_self
  | kfree ptr =>
    obtain ⟨t, -, done⟩ := Option.map_eq_some_iff.mp run
    exact absurd (Prod.mk.inj done).1.symm some_
  | write ptr bytes => exact absurd (Prod.mk.inj (Option.some.inj run)).1.symm some_

theorem Represented.placed {r : HeapRun} {L : Layout} (good : Represented r L) {p : Nat} (live : p ∈ r.live) :
    p % heapAlign = 0 ∧ heapBase + headerSize ≤ p ∧ p ≤ heapBase + heapMaxSize := by
  obtain ⟨n, used⟩ := good.held.payload live
  have bounds := allocations_bounds used
  have bounded := L.bounded
  exact ⟨allocations_aligned used, bounds.1, by omega⟩

theorem dead_call {L : Layout} (guarded : Guarded h L) {page : Nat → PageOutcome} {op : HeapOp} {p : Nat} {s' : HeapState}
    (attempted : Attempted h op) (wild : ¬ Allowed h.live op) (run : call page h.heap op = some (p, s')) :
    p = 0 ∧ s' = h.heap ∧ holds h.live p op = h.live := by
  cases op with
  | krealloc ptr size =>
    have dead : ptr ∉ h.live := fun live => wild (Or.inr live)
    have known := attempted.resolve_left fun null => wild (Or.inl null)
    have same := krealloc_dead (n := size) (guarded.dead known dead) page
    obtain ⟨rfl, rfl⟩ := Prod.mk.inj (Option.some.inj (same.symm.trans run))
    refine ⟨rfl, rfl, ?_⟩
    rw [holds, List.erase_of_not_mem dead, if_pos rfl, ite_self]
  | kfree ptr =>
    have dead : ptr ∉ h.live := fun live => wild (Or.inr live)
    have known := attempted.resolve_left fun null => wild (Or.inl null)
    obtain ⟨t, freed, done⟩ := Option.map_eq_some_iff.mp run
    obtain ⟨rfl, rfl⟩ := Prod.mk.inj done
    cases Option.some.inj ((kfree_dead (guarded.dead known dead)).symm.trans freed)
    exact ⟨rfl, rfl, List.erase_of_not_mem dead⟩
  | write ptr bytes => exact absurd attempted wild
  | _ => exact absurd trivial wild

theorem start_guarded (start : HistoryStart h) : ∃ L, Guarded h L := by
  obtain ⟨empty, unknown, page, boot, cleared, started⟩ := start
  obtain ⟨L, good⟩ := boot_represented (r := h.toHeapRun) ⟨empty, page, boot, started⟩
  refine ⟨L, good, ?_, ?_, ?_⟩
  · simp only [heapInit] at started
    obtain ⟨⟨grew, s⟩, grown, done⟩ := Option.bind_eq_some_iff.mp started
    have tidy := heapGrow_tidy (emptyHeap_represents boot) grown
    cases grew with
    | false => cases done
    | true =>
      cases Option.some.inj done
      intro a low high aligned marked
      have before : load boot a 8 = blockMagicUsed := tidy.words a aligned marked
      exact absurd (cleared a low (by omega)) (used_bytes before (Nat.le_refl a) (by omega))
  · rw [empty]
    exact List.forall_mem_nil _
  · rw [unknown]
    exact List.forall_mem_nil _

theorem step_guarded {L : Layout} (guarded : Guarded h L) (step : HistoryStep h t) : ∃ M, Guarded t M := by
  obtain ⟨page, op, p, attempted, honest, run, live, returned⟩ := step
  obtain ⟨⟨heap, live'⟩, returned'⟩ := t
  simp only at run live returned
  subst live returned
  by_cases allowed : Allowed h.live op
  · have ok := unforged_ok guarded.good honest
    obtain ⟨q, s', run', ⟨M, good⟩, -⟩ := call_ok guarded.good page allowed ok
    obtain ⟨rfl, rfl⟩ := Prod.mk.inj (Option.some.inj (run'.symm.trans run))
    refine ⟨M, good, call_words guarded.good guarded.marks allowed ok honest run, fun x member => ?_, fun x member => ?_⟩
    · rcases holds_mem member with ⟨some_, rfl⟩ | old
      · change x ∈ if x = 0 then _ else _
        rw [if_neg some_]
        exact List.mem_cons_self
      · change x ∈ if q = 0 then _ else _
        split
        · exact guarded.known x old
        · exact List.mem_cons_of_mem _ (guarded.known x old)
    · change x ∈ if q = 0 then _ else _ at member
      split at member
      · exact guarded.placed x member
      · rename_i some_
        rcases List.mem_cons.mp member with rfl | old
        · exact good.placed (holds_returned some_ run)
        · exact guarded.placed x old
  · obtain ⟨rfl, rfl, same⟩ := dead_call guarded attempted allowed run
    refine ⟨L, ?_⟩
    rw [same, if_pos rfl]
    exact ⟨guarded.good, guarded.marks, guarded.known, guarded.placed⟩

/-- After any history, a free or a reallocation of a dead pointer changes nothing. -/
theorem stale_frees_harmless (reached : Reachable HistoryStart HistoryStep h) {p : Nat} (known : p ∈ h.returned)
    (dead : p ∉ h.live) :
    kfree h.heap p = some h.heap ∧ ∀ page n, 0 < n → krealloc page h.heap p n = some (0, h.heap) := by
  obtain ⟨L, guarded⟩ := reached.induct (fun h => ∃ L, Guarded h L) (fun _ start => start_guarded start)
    fun _ _ ⟨_, guarded⟩ step => step_guarded guarded step
  have spared := guarded.dead known dead
  exact ⟨kfree_dead spared, fun page n _ => krealloc_dead spared page⟩

theorem stale_frees_harmless_twice : ∃ s p s₁ s₂, heapInit onePage zeroed = some s ∧
    call onePage s (.kmalloc 100) = some (p, s₁) ∧ call onePage s₁ (.kfree p) = some (0, s₂) ∧
    kfree s₂ p = some s₂ ∧ ∀ page n, 0 < n → krealloc page s₂ p n = some (0, s₂) := by
  have runs : ((heapInit onePage zeroed).bind fun s => (call onePage s (.kmalloc 100)).bind fun a =>
      (call onePage a.2 (.kfree a.1)).map fun b => (a.1, b.1)) = some (heapBase + headerSize, 0) := by decide +kernel
  obtain ⟨s, started, runs⟩ := Option.bind_eq_some_iff.mp runs
  obtain ⟨⟨p, s₁⟩, first, runs⟩ := Option.bind_eq_some_iff.mp runs
  obtain ⟨⟨n, s₂⟩, second, result⟩ := Option.map_eq_some_iff.mp runs
  obtain ⟨rfl, rfl⟩ := Prod.mk.inj result
  have begun : Reachable HistoryStart HistoryStep ⟨⟨s, []⟩, []⟩ :=
    .start ⟨rfl, rfl, onePage, zeroed, fun _ _ _ => rfl, started⟩
  have taken : Reachable HistoryStart HistoryStep ⟨⟨s₁, [heapBase + headerSize]⟩, [heapBase + headerSize]⟩ :=
    .next begun ⟨onePage, .kmalloc 100, _, trivial, (by decide : 100 < 2 ^ 63), first, rfl, rfl⟩
  have freed : Reachable HistoryStart HistoryStep ⟨⟨s₂, []⟩, [heapBase + headerSize]⟩ :=
    .next taken ⟨onePage, .kfree (heapBase + headerSize), _, Or.inr List.mem_cons_self, trivial, second, rfl, rfl⟩
  exact ⟨s, _, s₁, s₂, started, first, second, stale_frees_harmless freed List.mem_cons_self List.not_mem_nil⟩

end Histories
end Qito.Heap
