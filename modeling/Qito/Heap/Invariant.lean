import Qito.Heap.Blocks
import Mathlib.Data.List.Chain

/-! The layouts a kernel heap can have, and when memory represents one. A layout
carries its own well-formedness, so an allocation, a release or a growth is a
map between layouts and every later fact is about represented layouts only. -/
namespace Qito.Heap
open ByteMemory Words

def Separated (cs : List Chunk) : Prop :=
  cs.IsChain (fun c d => ¬ (c.free = true ∧ d.free = true))

structure Layout where
  chunks : List Chunk
  aligned : ∀ c ∈ chunks, c.size % heapAlign = 0
  paged : span chunks % pageSize = 0
  bounded : span chunks ≤ heapMaxSize
  separated : Separated chunks

/-- Bytes of payload in blocks that are in use. -/
@[grind =] def usedSum : List Chunk → Nat
  | [] => 0
  | c :: cs => (if c.free then 0 else c.size) + usedSum cs

/-- Payload address and size of every block in use. -/
@[grind =] def allocations : Nat → List Chunk → List (Nat × Nat)
  | _, [] => []
  | a, c :: cs =>
    if c.free then allocations (a + headerSize + c.size) cs
    else (a + headerSize, c.size) :: allocations (a + headerSize + c.size) cs

structure Represents (s : HeapState) (L : Layout) : Prop where
  seg : Seg s.mem heapBase 0 L.chunks 0
  head : s.heapHead = nextLink heapBase L.chunks 0
  start : s.heapStart = heapBase
  stop : s.heapEnd = heapBase + span L.chunks
  committed : s.heapCommitted = span L.chunks
  used : s.stats.usedBytes = usedSum L.chunks

@[simp] theorem usedSum_append (xs ys : List Chunk) :
    usedSum (xs ++ ys) = usedSum xs + usedSum ys := by
  induction xs with
  | nil => simp [usedSum]
  | cons x xs ih => simp [usedSum, ih, Nat.add_assoc]

theorem usedSum_le_span (cs : List Chunk) : usedSum cs ≤ span cs := by
  induction cs with
  | nil => simp [usedSum]
  | cons c cs ih =>
    simp only [usedSum, span_cons]
    split <;> omega

@[simp] theorem allocations_append (a : Nat) (xs ys : List Chunk) :
    allocations a (xs ++ ys) = allocations a xs ++ allocations (a + span xs) ys := by
  induction xs generalizing a with
  | nil => simp [allocations]
  | cons x xs ih =>
    have shift : a + headerSize + x.size + span xs = a + (headerSize + x.size + span xs) := by omega
    simp only [List.cons_append, allocations, ih, span_cons, shift]
    split <;> simp

theorem allocations_bounds {a : Nat} {cs : List Chunk} {p n : Nat} (member : (p, n) ∈ allocations a cs) :
    a + headerSize ≤ p ∧ p + n ≤ a + span cs := by
  induction cs generalizing a with
  | nil => simp [allocations] at member
  | cons c cs ih =>
    simp only [allocations] at member
    simp only [span_cons]
    split at member
    · have h := ih member
      omega
    · rcases List.mem_cons.mp member with h | h
      · obtain ⟨rfl, rfl⟩ := Prod.mk.inj h
        omega
      · have h := ih h
        omega

theorem allocations_split {a : Nat} {cs : List Chunk} {p n : Nat} (member : (p, n) ∈ allocations a cs) :
    ∃ pre post, cs = pre ++ ⟨n, false⟩ :: post ∧ p = a + span pre + headerSize := by
  induction cs generalizing a with
  | nil => simp [allocations] at member
  | cons c cs ih =>
    simp only [allocations] at member
    split at member
    · obtain ⟨pre, post, eq, addr⟩ := ih member
      refine ⟨c :: pre, post, by rw [eq]; rfl, ?_⟩
      rw [addr, span_cons]
      omega
    · rename_i busy
      rcases List.mem_cons.mp member with h | h
      · obtain ⟨rfl, rfl⟩ := Prod.mk.inj h
        refine ⟨[], cs, ?_, by simp⟩
        cases c
        simp_all
      · obtain ⟨pre, post, eq, addr⟩ := ih h
        refine ⟨c :: pre, post, by rw [eq]; rfl, ?_⟩
        rw [addr, span_cons]
        omega

theorem allocations_apart (a : Nat) (cs : List Chunk) :
    (allocations a cs).Pairwise (fun x y => x.1 + x.2 + headerSize ≤ y.1) := by
  induction cs generalizing a with
  | nil => exact List.Pairwise.nil
  | cons c cs ih =>
    simp only [allocations]
    split
    · exact ih _
    · refine List.pairwise_cons.mpr ⟨?_, ih _⟩
      rintro ⟨q, k⟩ member
      have bounds := allocations_bounds member
      simp only
      omega

theorem allocations_nodup (a : Nat) (cs : List Chunk) : ((allocations a cs).map Prod.fst).Nodup := by
  have width : headerSize = 48 := rfl
  refine List.pairwise_map.mpr ((allocations_apart a cs).imp ?_)
  intro x y gap same
  omega

theorem allocations_unique {a : Nat} {cs : List Chunk} {before after : List (Nat × Nat)} {p n : Nat}
    (eq : allocations a cs = before ++ (p, n) :: after) {q k : Nat} (member : (q, k) ∈ before ++ after) :
    Apart q k p n ∧ q ≠ p := by
  have apart := allocations_apart a cs
  have width : headerSize = 48 := rfl
  rw [eq] at apart
  obtain ⟨-, right, across⟩ := List.pairwise_append.mp apart
  rcases List.mem_append.mp member with h | h
  · have gap := across _ h (p, n) (by simp)
    simp only at gap
    omega
  · have gap := (List.pairwise_cons.mp right).1 _ h
    simp only at gap
    omega

theorem length_headers_le_span (cs : List Chunk) : cs.length * headerSize ≤ span cs := by
  induction cs with
  | nil => simp
  | cons c cs ih =>
    simp only [List.length_cons, span_cons, Nat.succ_mul]
    omega

theorem length_le_span (cs : List Chunk) : cs.length ≤ span cs := by
  have headers : cs.length * 48 ≤ span cs := length_headers_le_span cs
  omega

theorem allocations_length (a : Nat) (cs : List Chunk) : (allocations a cs).length ≤ cs.length := by
  induction cs generalizing a with
  | nil => exact Nat.le_refl 0
  | cons c cs ih =>
    have rest := ih (a + headerSize + c.size)
    unfold allocations
    split
    · rw [List.length_cons]
      omega
    · rw [List.length_cons, List.length_cons]
      omega

section Represented
variable {s : HeapState} {L : Layout} (rep : Represents s L)
include rep

theorem Represents.enough : L.chunks.length < walkFuel s := by
  have h := length_le_span L.chunks
  rw [walkFuel, rep.committed]
  omega

theorem Represents.validates : heapValidate s = some true := by
  rw [heapValidate, rep.head]
  exact validateFrom_spec rep.seg (by decide) (Nat.le_of_eq rep.start) (Nat.le_of_eq rep.stop.symm) rep.enough

end Represented

theorem Layout.room (L : Layout) : heapBase + span L.chunks < 2 ^ 64 := by
  have h := L.bounded
  have top : heapBase + heapMaxSize < 2 ^ 64 := by decide
  omega

/-- What is left of a free chunk after an allocation of size from it. -/
def carve (size : Nat) (c : Chunk) : List Chunk :=
  if c.size < size + headerSize + minSplitSize then [⟨c.size, false⟩]
  else [⟨size, false⟩, ⟨c.size - size - headerSize, true⟩]

theorem span_carve (size : Nat) (c : Chunk) : span (carve size c) = headerSize + c.size := by
  unfold carve
  split
  · simp
  · have width : minSplitSize = 64 := rfl
    simp only [span_cons, span_nil]
    omega

theorem separated_carve {size : Nat} {c : Chunk} {pre post : List Chunk} (free : c.free = true)
    (separated : Separated (pre ++ c :: post)) : Separated (pre ++ carve size c ++ post) := by
  obtain ⟨front, back⟩ := List.isChain_split.mp separated
  have left := (List.isChain_append.mp front).1
  have right := List.isChain_cons.mp back
  have tail : Separated (carve size c ++ post) := by
    unfold carve
    split
    · exact List.isChain_cons.mpr ⟨by simp, right.2⟩
    · refine List.isChain_cons.mpr ⟨by simp, List.isChain_cons.mpr ⟨?_, right.2⟩⟩
      intro d hd both
      exact right.1 d hd ⟨free, both.2⟩
  rw [List.append_assoc]
  refine List.isChain_append.mpr ⟨left, tail, ?_⟩
  intro x _ y hy both
  have busy : y.free = false := by
    unfold carve at hy
    split at hy
    · rw [← Option.some.inj hy]
    · rw [← Option.some.inj hy]
  simp [busy] at both

/-- The layout after an allocation of size from the free chunk c. -/
def Layout.take (L : Layout) {size : Nat} {c : Chunk} {pre post : List Chunk}
    (eq : L.chunks = pre ++ c :: post) (free : c.free = true) (multiple : size % heapAlign = 0) : Layout where
  chunks := pre ++ carve size c ++ post
  aligned := by
    intro d hd
    have whole := L.aligned
    rw [eq] at whole
    have hc : c.size % heapAlign = 0 := whole c (by simp)
    rcases List.mem_append.mp hd with h | h
    · rcases List.mem_append.mp h with h | h
      · exact whole d (by simp [h])
      · have chunk : c.size % 16 = 0 := hc
        have request : size % 16 = 0 := multiple
        unfold carve at h
        split at h
        · rw [List.mem_singleton.mp h]
          exact hc
        · rename_i wide
          rcases List.mem_pair.mp h with rfl | rfl
          · exact multiple
          · change (c.size - size - 48) % 16 = 0
            omega
    · exact whole d (by simp [h])
  paged := by
    have h := L.paged
    rw [eq] at h
    simpa [span_carve, Nat.add_assoc] using h
  bounded := by
    have h := L.bounded
    rw [eq] at h
    simpa [span_carve, Nat.add_assoc] using h
  separated := separated_carve free (eq ▸ L.separated)

/-- The chunks after amount fresh bytes were linked behind them. -/
@[grind =] def extend (amount : Nat) : List Chunk → List Chunk
  | [] => [⟨amount - headerSize, true⟩]
  | [c] => if c.free then [⟨c.size + amount, true⟩] else [c, ⟨amount - headerSize, true⟩]
  | c :: d :: cs => c :: extend amount (d :: cs)

theorem extend_snoc (amount : Nat) (pre : List Chunk) (c : Chunk) :
    extend amount (pre ++ [c]) =
      if c.free then pre ++ [⟨c.size + amount, true⟩] else pre ++ [c, ⟨amount - headerSize, true⟩] := by
  induction pre with
  | nil => rfl
  | cons d pre ih =>
    cases pre with
    | nil => simp [extend]; split <;> rfl
    | cons e pre =>
      simp only [List.cons_append, extend] at ih ⊢
      rw [ih]
      split <;> rfl

section Extend
variable {amount : Nat} (large : headerSize ≤ amount) (cs : List Chunk)

include large in
theorem span_extend : span (extend amount cs) = span cs + amount := by
  rcases List.eq_nil_or_concat' cs with rfl | ⟨pre, c, rfl⟩
  · simp only [extend, span_cons, span_nil]
    omega
  · rw [extend_snoc]
    split
    · simp only [span_append, span_cons, span_nil]
      omega
    · simp only [span_append, span_cons, span_nil]
      omega

theorem usedSum_extend : usedSum (extend amount cs) = usedSum cs := by
  rcases List.eq_nil_or_concat' cs with rfl | ⟨pre, c, rfl⟩
  · simp [extend, usedSum]
  · rw [extend_snoc]
    cases h : c.free <;> simp [usedSum, h]

theorem allocations_extend (a : Nat) : allocations a (extend amount cs) = allocations a cs := by
  rcases List.eq_nil_or_concat' cs with rfl | ⟨pre, c, rfl⟩
  · simp [extend, allocations]
  · rw [extend_snoc]
    cases h : c.free <;> simp [allocations, h]

theorem separated_extend {cs : List Chunk} (separated : Separated cs) : Separated (extend amount cs) := by
  rcases List.eq_nil_or_concat' cs with rfl | ⟨pre, c, rfl⟩
  · exact List.isChain_singleton _
  · rw [extend_snoc]
    obtain ⟨front, -, link⟩ := List.isChain_append.mp separated
    cases h : c.free with
    | true =>
      refine List.isChain_append.mpr ⟨front, List.isChain_singleton _, ?_⟩
      intro x hx y _ both
      exact link x hx c rfl ⟨both.1, h⟩
    | false =>
      refine List.isChain_append.mpr ⟨front, List.isChain_pair.mpr (by simp [h]), ?_⟩
      intro x hx y hy both
      rw [← Option.some.inj hy, h] at both
      exact absurd both.2 (by simp)

end Extend

/-- The layout after a growth by amount bytes. -/
def Layout.extend (L : Layout) {amount : Nat} (pages : amount % pageSize = 0) (large : headerSize ≤ amount)
    (fits : span L.chunks + amount ≤ heapMaxSize) : Layout where
  chunks := Heap.extend amount L.chunks
  aligned := by
    have multiple : amount % 16 = 0 := by
      have h : amount % 4096 = 0 := pages
      omega
    have width : headerSize = 48 := rfl
    intro d hd
    change d.size % 16 = 0
    rcases List.eq_nil_or_concat' L.chunks with h | ⟨pre, c, h⟩
    · rw [h] at hd
      rw [List.mem_singleton.mp hd]
      change (amount - headerSize) % 16 = 0
      omega
    · have whole := L.aligned
      rw [h] at whole
      have hc : c.size % 16 = 0 := whole c (by simp)
      rw [h, extend_snoc] at hd
      split at hd <;> rcases List.mem_append.mp hd with hd | hd
      · exact whole d (by simp [hd])
      · rw [List.mem_singleton.mp hd]
        change (c.size + amount) % 16 = 0
        omega
      · exact whole d (by simp [hd])
      · rcases List.mem_pair.mp hd with rfl | rfl
        · exact hc
        · change (amount - headerSize) % 16 = 0
          omega
  paged := by
    have h : span L.chunks % 4096 = 0 := L.paged
    have k : amount % 4096 = 0 := pages
    rw [span_extend large]
    change (span L.chunks + amount) % 4096 = 0
    omega
  bounded := by rw [span_extend large]; exact fits
  separated := separated_extend L.separated

/-- The chunks after a free block of n bytes between pre and post was merged
into a free block at the end of pre, if there is one. -/
@[grind =] def mergeBack (pre : List Chunk) (n : Nat) (post : List Chunk) : List Chunk :=
  match pre.getLast? with
  | some d => if d.free then pre.dropLast ++ ⟨d.size + (headerSize + n), true⟩ :: post
    else pre ++ ⟨n, true⟩ :: post
  | none => ⟨n, true⟩ :: post

theorem mergeBack_snoc (pre : List Chunk) (d : Chunk) (n : Nat) (post : List Chunk) :
    mergeBack (pre ++ [d]) n post =
      if d.free then pre ++ ⟨d.size + (headerSize + n), true⟩ :: post
      else (pre ++ [d]) ++ ⟨n, true⟩ :: post := by
  simp [mergeBack]

section MergeBack
variable (pre : List Chunk) (n : Nat) (post : List Chunk)

theorem span_mergeBack : span (mergeBack pre n post) = span pre + (headerSize + n) + span post := by
  rcases List.eq_nil_or_concat' pre with rfl | ⟨xs, d, rfl⟩
  · simp [mergeBack]
  · rw [mergeBack_snoc]
    split <;> simp only [span_append, span_cons, span_nil] <;> omega

theorem usedSum_mergeBack : usedSum (mergeBack pre n post) = usedSum pre + usedSum post := by
  rcases List.eq_nil_or_concat' pre with rfl | ⟨xs, d, rfl⟩
  · simp [mergeBack, usedSum]
  · rw [mergeBack_snoc]
    cases h : d.free <;> simp [usedSum, h, Nat.add_assoc]

theorem allocations_mergeBack (a : Nat) :
    allocations a (mergeBack pre n post) =
      allocations a pre ++ allocations (a + span pre + headerSize + n) post := by
  rcases List.eq_nil_or_concat' pre with rfl | ⟨xs, d, rfl⟩
  · simp [mergeBack, allocations]
  · rw [mergeBack_snoc]
    cases h : d.free <;> simp [allocations, h, Nat.add_assoc]

variable {pre n post}

theorem aligned_mergeBack (front : ∀ c ∈ pre, c.size % heapAlign = 0)
    (back : ∀ c ∈ post, c.size % heapAlign = 0) (multiple : n % heapAlign = 0) :
    ∀ c ∈ mergeBack pre n post, c.size % heapAlign = 0 := by
  have whole : ∀ c ∈ pre ++ ⟨n, true⟩ :: post, c.size % heapAlign = 0 := by
    intro c hc
    rcases List.mem_append.mp hc with hc | hc
    · exact front c hc
    · rcases List.mem_cons.mp hc with rfl | hc
      · exact multiple
      · exact back c hc
  rcases List.eq_nil_or_concat' pre with rfl | ⟨xs, d, rfl⟩
  · exact whole
  · rw [mergeBack_snoc]
    split
    · intro c hc
      rcases List.mem_append.mp hc with hc | hc
      · exact front c (by simp [hc])
      · rcases List.mem_cons.mp hc with rfl | hc
        · have last : d.size % 16 = 0 := front d (by simp)
          have size : n % 16 = 0 := multiple
          change (d.size + (48 + n)) % 16 = 0
          omega
        · exact back c hc
    · exact whole

theorem separated_mergeBack (front : Separated pre) (back : Separated post)
    (busy : ∀ c ∈ post.head?, c.free = false) : Separated (mergeBack pre n post) := by
  have tail (k : Nat) : Separated (⟨k, true⟩ :: post) :=
    List.isChain_cons.mpr ⟨fun c hc both => by simp [busy c hc] at both, back⟩
  rcases List.eq_nil_or_concat' pre with rfl | ⟨xs, d, rfl⟩
  · exact tail n
  · rw [mergeBack_snoc]
    obtain ⟨inner, -, link⟩ := List.isChain_append.mp front
    cases h : d.free with
    | true =>
      refine List.isChain_append.mpr ⟨inner, tail _, ?_⟩
      intro x hx y _ both
      exact link x hx d rfl ⟨both.1, h⟩
    | false =>
      refine List.isChain_append.mpr ⟨front, tail _, ?_⟩
      intro x hx y _ both
      rw [List.getLast?_concat] at hx
      rw [← Option.some.inj hx, h] at both
      exact absurd both.1 (by simp)

end MergeBack

section FreeRun
variable (cs : List Chunk)

theorem span_aligned {cs : List Chunk} (aligned : ∀ c ∈ cs, c.size % heapAlign = 0) :
    span cs % heapAlign = 0 := by
  induction cs with
  | nil => rfl
  | cons c cs ih =>
    have head : c.size % 16 = 0 := aligned c (by simp)
    have tail : span cs % 16 = 0 := ih (fun d hd => aligned d (by simp [hd]))
    change (48 + c.size + span cs) % 16 = 0
    omega

theorem span_free_run :
    span (cs.takeWhile Chunk.free) + span (cs.dropWhile Chunk.free) = span cs := by
  rw [← span_append, List.takeWhile_append_dropWhile]

theorem usedSum_free_run : usedSum (cs.dropWhile Chunk.free) = usedSum cs := by
  induction cs with
  | nil => rfl
  | cons c cs ih => cases h : c.free <;> simp [List.dropWhile, usedSum, h, ih]

theorem allocations_free_run (a : Nat) :
    allocations (a + span (cs.takeWhile Chunk.free)) (cs.dropWhile Chunk.free) = allocations a cs := by
  induction cs generalizing a with
  | nil => rfl
  | cons c cs ih =>
    cases h : c.free with
    | false => simp [List.dropWhile, h]
    | true =>
      have shift : a + span (List.takeWhile Chunk.free (c :: cs)) =
          a + headerSize + c.size + span (cs.takeWhile Chunk.free) := by
        rw [List.takeWhile_cons_of_pos h, span_cons]
        omega
      rw [shift, List.dropWhile_cons_of_pos h, ih]
      simp [allocations, h]

theorem busy_after_free_run : ∀ c ∈ (cs.dropWhile Chunk.free).head?, c.free = false := by
  induction cs with
  | nil => simp
  | cons d cs ih =>
    cases h : d.free with
    | false => simp [List.dropWhile, h]
    | true => simpa [List.dropWhile, h] using ih

end FreeRun

/-- The chunks after the used block of n bytes between pre and post is freed. -/
@[grind =] def release (pre : List Chunk) (n : Nat) (post : List Chunk) : List Chunk :=
  mergeBack pre (n + span (post.takeWhile Chunk.free)) (post.dropWhile Chunk.free)

theorem span_release (pre : List Chunk) (n : Nat) (post : List Chunk) :
    span (release pre n post) = span (pre ++ ⟨n, false⟩ :: post) := by
  have run := span_free_run post
  simp only [release, span_mergeBack, span_append, span_cons]
  omega

theorem usedSum_release (pre : List Chunk) (n : Nat) (post : List Chunk) :
    usedSum (release pre n post) + n = usedSum (pre ++ ⟨n, false⟩ :: post) := by
  simp only [release, usedSum_mergeBack, usedSum_free_run, usedSum_append, usedSum, Bool.false_eq_true,
    if_false]
  omega

theorem allocations_release (a : Nat) (pre : List Chunk) (n : Nat) (post : List Chunk) :
    allocations a (release pre n post) =
      allocations a pre ++ allocations (a + span pre + headerSize + n) post := by
  rw [release, allocations_mergeBack, ← Nat.add_assoc, allocations_free_run]

/-- The layout after the block of n bytes between pre and post is freed. -/
def Layout.free (L : Layout) {n : Nat} {pre post : List Chunk}
    (eq : L.chunks = pre ++ ⟨n, false⟩ :: post) : Layout where
  chunks := release pre n post
  aligned := by
    have whole := L.aligned
    rw [eq] at whole
    have behind : ∀ c ∈ post, c.size % heapAlign = 0 := fun c hc => whole c (by simp [hc])
    have run : span (post.takeWhile Chunk.free) % 16 = 0 :=
      span_aligned (fun c hc => behind c ((List.takeWhile_prefix _).subset hc))
    have block : n % 16 = 0 := whole ⟨n, false⟩ (by simp)
    have grown : (n + span (post.takeWhile Chunk.free)) % heapAlign = 0 := by
      change _ % 16 = 0
      omega
    exact aligned_mergeBack (fun c hc => whole c (by simp [hc]))
      (fun c hc => behind c ((List.dropWhile_suffix _).subset hc)) grown
  paged := by rw [span_release, ← eq]; exact L.paged
  bounded := by rw [span_release, ← eq]; exact L.bounded
  separated := by
    have whole := L.separated
    rw [eq] at whole
    obtain ⟨front, back, -⟩ := List.isChain_append.mp whole
    exact separated_mergeBack front ((List.isChain_cons.mp back).2.suffix (List.dropWhile_suffix _))
      (busy_after_free_run post)

end Qito.Heap
