import Qito.Heap.Invariant

/- Every heap function maps a represented heap to a represented heap, and says
which layout it reaches. Callers use these facts only. -/
namespace Qito.Heap
open ByteMemory Words

theorem seg_mark {m : Memory} {a p e n : Nat} {f : Bool} (g : Bool) {pre post : List Chunk}
    (seg : Seg m a p (pre ++ ⟨n, f⟩ :: post) e) :
    Seg (setMagic (setFree m (a + span pre) g) (a + span pre) (magicOf g)) a p
      (pre ++ ⟨n, g⟩ :: post) e := by
  obtain ⟨front, here, back⟩ := (seg_append ..).mp seg
  simp only at back
  have magic : magicOf g < 2 ^ 64 := by cases g <;> decide
  refine (seg_append ..).mpr ⟨seg_frame ?_ front, ?_, seg_frame ?_ back⟩
  · intro x lo hi
    simp (disch := omega)
  · simp (disch := omega) [here, headerOf]
  · intro x lo hi
    simp (disch := omega)

section Grow
variable {s : HeapState} {L : Layout}

/-- The walk of heap_grow ends at the last block, whatever header was written behind it. -/
theorem lastBlock_fresh (rep : Represents s L) {pre : List Chunk} {c : Chunk} (eq : L.chunks = pre ++ [c]) (amount : Nat) :
    s.heapHead = heapBase ∧ Seg (freshBlock s.mem s.heapEnd amount) heapBase 0 (pre ++ [c]) 0 ∧
      lastBlock (walkFuel s) (freshBlock s.mem s.heapEnd amount) s.heapHead = some (heapBase + span pre) := by
  have head : s.heapHead = heapBase := by
    rw [rep.head]
    exact nextLink_of_ne (by simp [eq])
  have old : Seg (freshBlock s.mem s.heapEnd amount) heapBase 0 (pre ++ [c]) 0 := by
    have seg := rep.seg
    rw [eq] at seg
    refine seg_frame (fun b lo hi => freshBlock_apart (Or.inr ?_)) seg
    rw [rep.stop, eq]
    exact hi
  refine ⟨head, old, ?_⟩
  rw [head]
  apply lastBlock_spec old
  have enough := rep.enough
  rw [eq, List.length_append] at enough
  omega

theorem linkGrowth_spec (rep : Represents s L) {amount : Nat} (pages : amount % pageSize = 0)
    (large : headerSize ≤ amount) (fits : span L.chunks + amount ≤ heapMaxSize) :
    ∃ s', linkGrowth s amount = some s' ∧ Represents s' (L.extend pages large fits) := by
  have top : heapBase + heapMaxSize < 2 ^ 64 := by decide
  have committed : wrap64 (s.heapCommitted + amount) = span L.chunks + amount := by
    rw [rep.committed]; exact wrap64_of_lt (by omega)
  have stop : wrap64 (s.heapEnd + amount) = heapBase + (span L.chunks + amount) := by
    rw [rep.stop, Nat.add_assoc]; exact wrap64_of_lt (by omega)
  have whole : span (extend amount L.chunks) = span L.chunks + amount := span_extend large _
  have fresh := freshBlock_block (m := s.mem) (b := s.heapEnd) large (by omega)
  rcases List.eq_nil_or_concat' L.chunks with empty | ⟨pre, c, eq⟩
  · have head : s.heapHead = 0 := by rw [rep.head, empty]; rfl
    have base : s.heapEnd = heapBase := by rw [rep.stop, empty]; rfl
    refine ⟨_, by simp only [linkGrowth, if_pos head]; rfl, ?_⟩
    refine ⟨?_, ?_, rep.start, ?_, ?_, ?_⟩
    · rw [base] at fresh
      simp only [Layout.extend, empty, extend, base]
      exact ⟨fresh, trivial⟩
    · simp only [Layout.extend, empty, extend, base, nextLink]
    · simp only [Layout.extend, whole, stop]
    · simp only [Layout.extend, whole, committed]
    · simp only [Layout.extend, usedSum_extend, rep.used]
  · obtain ⟨some_head, old, tail⟩ := lastBlock_fresh rep eq amount
    have head : ¬ s.heapHead = 0 := by
      rw [some_head]
      decide
    refine ⟨_, by simp only [linkGrowth, if_neg head, tail]; rfl, ?_⟩
    have place : s.heapEnd = heapBase + span (pre ++ [c]) := by rw [rep.stop, eq]
    have linked := appendBlock_seg old (by rw [← place]; exact fresh) large
      (by rw [eq] at fits; omega)
    rw [← place] at linked
    refine ⟨?_, ?_, rep.start, ?_, ?_, ?_⟩
    · simp only [Layout.extend, eq, extend_snoc]
      exact linked
    · simp only [Layout.extend, some_head]
      exact (nextLink_of_ne (by rw [eq, extend_snoc]; split <;> simp)).symm
    · simp only [Layout.extend, whole, stop]
    · simp only [Layout.extend, whole, committed]
    · simp only [Layout.extend, usedSum_extend, rep.used]

theorem mapPages_le (page : Nat → PageOutcome) (n i : Nat) : mapPages page n i ≤ i + n := by
  induction n generalizing i with
  | zero => simp [mapPages]
  | succ n ih =>
    have rest := ih (i + 1)
    rw [mapPages]
    split <;> omega

/-- The sizes for which the arithmetic of heap_grow does what it is meant to:
either no sum wraps, or the wrapped amount is refused or harmless. -/
def GrowOk (committed needed : Nat) : Prop :=
  needed < 2 ^ 64 ∧ needed % heapAlign = 0 ∧ needed ≠ 2 ^ 64 - headerSize ∧
  (needed + headerSize ≤ 2 ^ 64 - heapGrowStep →
    committed + roundUp (needed + headerSize) heapGrowStep < 2 ^ 64)

/- The three ways the rounded request can come out: as it should, wrapped to
nothing, or one step because adding the header wrapped. -/
theorem growStep_ok {committed needed : Nat} (bounded : committed ≤ heapMaxSize)
    (ok : GrowOk committed needed) :
    alignUp (wrap64 (needed + headerSize)) heapGrowStep % pageSize = 0 ∧
    committed + alignUp (wrap64 (needed + headerSize)) heapGrowStep < 2 ^ 64 ∧
    0 < wrap64 (needed + headerSize) := by
  obtain ⟨small, multiple, hole, sum⟩ := ok
  have aligned : needed % 16 = 0 := multiple
  have limit : committed ≤ 268435456 := bounded
  have step : alignUp (wrap64 (needed + headerSize)) heapGrowStep =
      wrap64 (wrap64 (needed + headerSize) + 1048576 - 1) / 1048576 * 1048576 :=
    alignUp_eq (k := 20) (by decide)
  rw [step]
  change _ % 4096 = 0 ∧ _ ∧ _
  change needed ≠ 2 ^ 64 - 48 at hole
  change needed + 48 ≤ 2 ^ 64 - 1048576 →
    committed + (needed + 48 + 1048576 - 1) / 1048576 * 1048576 < 2 ^ 64 at sum
  by_cases plain : needed + 48 ≤ 2 ^ 64 - 1048576
  · have request : wrap64 (needed + headerSize) = needed + 48 :=
      wrap64_of_lt (Nat.lt_of_le_of_lt plain (by decide))
    rw [request, wrap64_of_lt (n := needed + 48 + 1048576 - 1) (by omega)]
    have total := sum plain
    clear step sum
    omega
  · clear sum
    by_cases header : needed + 48 < 2 ^ 64
    · have request : wrap64 (needed + headerSize) = needed + 48 := wrap64_of_lt header
      have nothing : wrap64 (needed + 48 + 1048576 - 1) / 1048576 = 0 := by
        unfold wrap64
        omega
      rw [request, nothing]
      omega
    · have request : wrap64 (needed + headerSize) = needed + 48 - 2 ^ 64 := by
        change (needed + 48) % 2 ^ 64 = _
        omega
      have one : wrap64 (needed + 48 - 2 ^ 64 + 1048576 - 1) / 1048576 = 1 := by
        unfold wrap64
        omega
      rw [request, one]
      omega

theorem growAmount_ok (rep : Represents s L) {needed : Nat} (ok : GrowOk s.heapCommitted needed) :
    growAmount s needed % pageSize = 0 ∧ span L.chunks + growAmount s needed ≤ heapMaxSize := by
  have bounded := L.bounded
  have paged : span L.chunks % 4096 = 0 := L.paged
  rw [rep.committed] at ok
  obtain ⟨whole, sum, -⟩ := growStep_ok bounded ok
  simp only [growAmount, rep.committed]
  rw [wrap64_of_lt sum]
  split
  · rw [sub64_of_le bounded (by decide)]
    refine ⟨?_, by omega⟩
    change (268435456 - span L.chunks) % 4096 = 0
    change span L.chunks ≤ 268435456 at bounded
    omega
  · exact ⟨whole, by omega⟩

theorem heapGrow_spec (rep : Represents s L) {needed : Nat} (ok : GrowOk s.heapCommitted needed)
    (page : Nat → PageOutcome) :
    heapGrow page s needed = some (false, s) ∨
    ∃ s' amount, ∃ (pages : amount % pageSize = 0) (large : headerSize ≤ amount)
      (fits : span L.chunks + amount ≤ heapMaxSize),
      heapGrow page s needed = some (true, s') ∧ Represents s' (L.extend pages large fits) := by
  obtain ⟨paged, fits⟩ := growAmount_ok rep ok
  have positive := (growStep_ok (rep.committed ▸ L.bounded) ok).2.2
  by_cases refused : growAmount s needed < wrap64 (needed + headerSize)
  · left
    simp only [heapGrow, if_pos refused]
    rfl
  · simp only [heapGrow, if_neg refused]
    generalize growAmount s needed = amount at *
    have le := mapPages_le page ((amount + pageSize - 1) / pageSize) 0
    have whole : amount % 4096 = 0 := paged
    have total : (amount + pageSize - 1) / pageSize * 4096 = amount := by
      change (amount + 4096 - 1) / 4096 * 4096 = amount
      omega
    generalize (amount + pageSize - 1) / pageSize = count at *
    generalize mapPages page count 0 = got at *
    by_cases full : got = count
    · have large : headerSize ≤ amount := by
        change 48 ≤ amount
        omega
      obtain ⟨s', run, rep'⟩ := linkGrowth_spec rep paged large fits
      refine Or.inr ⟨s', amount, paged, large, fits, ?_, rep'⟩
      simp [full, run]
    · by_cases zero : got = 0
      · left
        simp only [if_neg full, if_pos zero]
        rfl
      · have large : headerSize ≤ got * pageSize := by
          change 48 ≤ got * 4096
          omega
        have partly : got * pageSize % pageSize = 0 := Nat.mul_mod_left ..
        have within : span L.chunks + got * pageSize ≤ heapMaxSize := by
          change _ + got * 4096 ≤ _
          omega
        obtain ⟨s', run, rep'⟩ := linkGrowth_spec rep partly large within
        refine Or.inr ⟨s', got * pageSize, partly, large, within, ?_, rep'⟩
        simp [full, zero, run]

end Grow

section Take
variable {s : HeapState} {L : Layout} {size : Nat} {c : Chunk} {pre post : List Chunk}

theorem splitBlock_carve (rep : Represents s L) (eq : L.chunks = pre ++ c :: post) (free : c.free = true)
    (fits : size ≤ c.size) :
    ∃ n rest, carve size c = ⟨n, false⟩ :: rest ∧ size ≤ n ∧
      Seg (splitBlock s.mem (heapBase + span pre) size) heapBase 0 (pre ++ ⟨n, true⟩ :: (rest ++ post)) 0 := by
  have seg := rep.seg
  have room := L.room
  have bounded := L.bounded
  rw [eq] at seg room bounded
  simp only [span_append, span_cons] at bounded
  have top : heapMaxSize + headerSize + minSplitSize < 2 ^ 64 := by decide
  have threshold : wrap64 (size + headerSize + minSplitSize) = size + headerSize + minSplitSize :=
    wrap64_of_lt (by omega)
  obtain ⟨n, f⟩ := c
  simp only at free fits bounded
  subst free
  have old : (block s.mem (heapBase + span pre)).size = n := by
    rw [((seg_append ..).mp seg).2.1]; rfl
  by_cases narrow : n < size + headerSize + minSplitSize
  · refine ⟨n, [], by simp only [carve, if_pos narrow], fits, ?_⟩
    simp only [splitBlock, old, threshold, if_pos narrow]
    exact seg
  · refine ⟨size, [⟨n - size - headerSize, true⟩], by simp only [carve, if_neg narrow], Nat.le_refl _, ?_⟩
    exact splitBlock_seg seg room (by omega)

theorem takeBlock_spec (rep : Represents s L) (eq : L.chunks = pre ++ c :: post) (free : c.free = true)
    (fits : size ≤ c.size) (multiple : size % heapAlign = 0) :
    Represents (takeBlock s (heapBase + span pre) size) (L.take eq free multiple) := by
  obtain ⟨n, rest, carved, -, seg⟩ := splitBlock_carve rep eq free fits
  have marked : Seg (setMagic (setFree (splitBlock s.mem (heapBase + span pre) size)
      (heapBase + span pre) false) (heapBase + span pre) blockMagicUsed) heapBase 0
      (pre ++ ⟨n, false⟩ :: (rest ++ post)) 0 := seg_mark false seg
  have chunks : (L.take eq free multiple).chunks = pre ++ ⟨n, false⟩ :: (rest ++ post) := by
    simp only [Layout.take, carved, List.append_assoc, List.cons_append]
  have whole : span (L.take eq free multiple).chunks = span L.chunks := by
    simp only [Layout.take, span_append, span_carve, eq, span_cons]
    omega
  have size_eq : (block (setMagic (setFree (splitBlock s.mem (heapBase + span pre) size)
      (heapBase + span pre) false) (heapBase + span pre) blockMagicUsed) (heapBase + span pre)).size = n := by
    rw [((seg_append ..).mp marked).2.1]; rfl
  have sum : usedSum L.chunks + n = usedSum (L.take eq free multiple).chunks := by
    have none_used : usedSum rest = 0 := by
      unfold carve at carved
      split at carved <;> obtain ⟨-, rfl⟩ := List.cons.inj carved <;> rfl
    simp only [chunks, eq, usedSum_append, usedSum, free, none_used, Bool.false_eq_true, if_true, if_false]
    omega
  have bounded := (L.take eq free multiple).bounded
  have le := usedSum_le_span (L.take eq free multiple).chunks
  refine ⟨?_, ?_, rep.start, ?_, ?_, ?_⟩
  · rw [chunks]
    exact marked
  · change s.heapHead = _
    rw [rep.head, nextLink_of_ne (by simp [eq]), nextLink_of_ne (by simp [chunks])]
  · exact rep.stop.trans (by rw [whole])
  · exact rep.committed.trans whole.symm
  · simp only [takeBlock, size_eq, rep.used, sum]
    exact wrap64_of_lt (Nat.lt_of_le_of_lt (Nat.le_trans le bounded) (by decide))

end Take

section Free
variable {s : HeapState} {L : Layout} {n : Nat} {pre post : List Chunk}

theorem coalesce_seg {m : Memory} (eq : L.chunks = pre ++ ⟨n, false⟩ :: post)
    (seg : Seg m heapBase 0 (pre ++ ⟨n, true⟩ :: post) 0) {fuel : Nat} (enough : L.chunks.length < fuel) :
    ∃ m', coalesce fuel m (heapBase + span pre) = some m' ∧ Seg m' heapBase 0 (release pre n post) 0 := by
  have room : heapBase + span (pre ++ ⟨n, true⟩ :: post) < 2 ^ 64 := by
    have h := L.room
    simpa only [eq, span_append, span_cons] using h
  rw [eq, List.length_append, List.length_cons] at enough
  have behind : post.length < fuel := by omega
  obtain ⟨m', run, forward⟩ := coalesceForward_spec seg (by decide) room behind
  refine ⟨coalesceBackward m' (heapBase + span pre), by simp [coalesce, run], ?_⟩
  have run_span := span_free_run post
  simp only [span_append, span_cons] at room
  rcases List.eq_nil_or_concat' pre with rfl | ⟨xs, d, rfl⟩
  · rw [coalesceBackward_first (by simpa using forward)]
    exact forward
  · have behind_last : Seg m' heapBase 0 (xs ++ d :: ⟨n + span (post.takeWhile Chunk.free), true⟩ ::
        post.dropWhile Chunk.free) 0 := by simpa using forward
    have back := coalesceBackward_spec (d := d) behind_last
      (by decide) (by
        simp only [span_append, span_cons, span_nil] at room ⊢
        omega)
    have place : heapBase + span (xs ++ [d]) = heapBase + span xs + headerSize + d.size := by
      simp only [span_append, span_cons, span_nil]
      omega
    rw [place, release, mergeBack_snoc]
    simpa using back

theorem kfree_spec (rep : Represents s L) (eq : L.chunks = pre ++ ⟨n, false⟩ :: post) :
    ∃ s', kfree s (heapBase + span pre + headerSize) = some s' ∧ Represents s' (L.free eq) := by
  have seg := rep.seg
  have room := L.room
  rw [eq] at seg
  rw [eq, span_append, span_cons] at room
  have header := ((seg_append ..).mp seg).2.1
  have nonzero : ¬ heapBase + span pre + headerSize = 0 := by
    have base : 0 < heapBase := by decide
    omega
  have back : sub64 (heapBase + span pre + headerSize) headerSize = heapBase + span pre := by
    rw [sub64_of_le (by omega) (by omega)]
    omega
  have magic : (block s.mem (heapBase + span pre)).magic = blockMagicUsed := by rw [header]; rfl
  have marked : Seg (setMagic (setFree s.mem (heapBase + span pre) true) (heapBase + span pre)
      blockMagicFree) heapBase 0 (pre ++ ⟨n, true⟩ :: post) 0 := seg_mark true seg
  have size_eq : (block (setMagic (setFree s.mem (heapBase + span pre) true) (heapBase + span pre)
      blockMagicFree) (heapBase + span pre)).size = n := by
    rw [((seg_append ..).mp marked).2.1]; rfl
  obtain ⟨m', run, seg'⟩ := coalesce_seg (L := L) eq marked rep.enough
  have sum := usedSum_release pre n post
  refine ⟨_, by
    simp only [kfree, if_neg nonzero, back, magic, size_eq, ne_eq, not_true_eq_false,
      if_false, run]
    rfl, ?_⟩
  have used : s.stats.usedBytes = usedSum (release pre n post) + n := by rw [rep.used, eq, sum]
  have whole : span (L.free eq).chunks = span L.chunks := by
    simp only [Layout.free, span_release, eq]
  have stop : s.heapEnd = heapBase + span (L.free eq).chunks := by rw [rep.stop, whole]
  refine ⟨seg', ?_, rep.start, stop, rep.committed.trans whole.symm, ?_⟩
  · change s.heapHead = _
    have nonempty : (L.free eq).chunks ≠ [] := by
      intro h
      rw [h, eq] at whole
      have width : headerSize = 48 := rfl
      simp only [span_append, span_cons, span_nil] at whole
      omega
    rw [rep.head, nextLink_of_ne (by simp [eq]), nextLink_of_ne nonempty]
  · have enough : s.stats.usedBytes ≥ n := by omega
    simp only [Layout.free, if_pos enough]
    omega

end Free

section Clients
variable {s : HeapState} {L : Layout} {p n : Nat}

theorem Represents.write (rep : Represents s L) (live : (p, n) ∈ allocations heapBase L.chunks)
    {m : Memory} (inside : ∀ x, x < p ∨ p + n ≤ x → m x = s.mem x) :
    Represents { s with mem := m } L := by
  obtain ⟨pre, post, eq, rfl⟩ := allocations_split live
  have seg := rep.seg
  rw [eq] at seg
  obtain ⟨front, here, back⟩ := (seg_append ..).mp seg
  simp only at back
  refine ⟨?_, rep.head, rep.start, rep.stop, rep.committed, rep.used⟩
  rw [eq]
  refine (seg_append ..).mpr ⟨seg_frame ?_ front, ?_, seg_frame ?_ back⟩
  · exact fun b _ hi => block_congr (fun x _ _ => inside x (Or.inl (by omega)))
  · exact (block_congr (fun x _ _ => inside x (Or.inl (by omega)))).trans here
  · intro b lo _
    simp only at lo
    exact block_congr (fun x _ _ => inside x (Or.inr (by omega)))

theorem live_header (rep : Represents s L) (live : (p, n) ∈ allocations heapBase L.chunks) :
    sub64 p headerSize + headerSize = p ∧
    (block s.mem (sub64 p headerSize)).magic = blockMagicUsed ∧
    (block s.mem (sub64 p headerSize)).size = n := by
  obtain ⟨pre, post, eq, rfl⟩ := allocations_split live
  have seg := rep.seg
  have room := L.room
  rw [eq] at seg
  rw [eq, span_append, span_cons] at room
  have back : sub64 (heapBase + span pre + headerSize) headerSize = heapBase + span pre := by
    rw [sub64_of_le (by omega) (by omega)]
    omega
  have header := ((seg_append ..).mp seg).2.1
  rw [back, header]
  exact ⟨rfl, rfl, rfl⟩

theorem live_positive (live : (p, n) ∈ allocations heapBase L.chunks) : p ≠ 0 := by
  have bounds := allocations_bounds live
  have base : 0 < heapBase := by decide
  omega

end Clients

section Requests
variable {s : HeapState} {L : Layout}

/-- The sizes kmalloc handles as meant with committed bytes in the heap: rounding
to the alignment does not wrap, and neither does the growth it may ask for. -/
def RequestOk (s : HeapState) (size : Nat) : Prop :=
  size + heapAlign - 1 < 2 ^ 64 ∧
  roundUp size heapAlign ≠ 2 ^ 64 - headerSize ∧
  (roundUp size heapAlign + headerSize ≤ 2 ^ 64 - heapGrowStep →
    s.heapCommitted + roundUp (roundUp size heapAlign + headerSize) heapGrowStep < 2 ^ 64)

theorem alignUp_request {size : Nat} (small : size + heapAlign - 1 < 2 ^ 64) :
    alignUp size heapAlign = roundUp size heapAlign := by
  have h : alignUp size heapAlign = wrap64 (size + 16 - 1) / 16 * 16 := alignUp_eq (k := 4) (by decide)
  rw [h, wrap64_of_lt (n := size + 16 - 1) small]
  rfl

theorem RequestOk.grow {size : Nat} (ok : RequestOk s size) :
    GrowOk s.heapCommitted (roundUp size heapAlign) := by
  obtain ⟨small, hole, sum⟩ := ok
  refine ⟨?_, ?_, hole, sum⟩
  · change (size + 16 - 1) / 16 * 16 < 2 ^ 64
    change size + 16 - 1 < 2 ^ 64 at small
    omega
  · exact Nat.mul_mod_left ..

theorem request_bounds (size : Nat) : size ≤ roundUp size heapAlign ∧ roundUp size heapAlign % heapAlign = 0 := by
  refine ⟨?_, Nat.mul_mod_left ..⟩
  change size ≤ (size + 16 - 1) / 16 * 16
  omega

/-- How an allocating call may leave the heap: NULL and the same blocks in use,
or one more block in use that holds size bytes. -/
def Allocated (L : Layout) (size p : Nat) (s' : HeapState) : Prop :=
  ∃ L', Represents s' L' ∧
    ((p = 0 ∧ allocations heapBase L'.chunks = allocations heapBase L.chunks) ∨
    ∃ n, size ≤ n ∧ (allocations heapBase L'.chunks).Perm ((p, n) :: allocations heapBase L.chunks))

theorem allocated_take {size request : Nat} {c : Chunk} {pre post : List Chunk} (rep : Represents s L)
    (eq : L.chunks = pre ++ c :: post) (free : c.free = true) (fits : request ≤ c.size)
    (multiple : request % heapAlign = 0) (enough : size ≤ request) :
    Allocated L size (heapBase + span pre + headerSize) (takeBlock s (heapBase + span pre) request) := by
  refine ⟨_, takeBlock_spec rep eq free fits multiple, Or.inr ?_⟩
  obtain ⟨n, rest, carved, large, -⟩ := splitBlock_carve rep eq free fits
  have whole := span_carve request c
  refine ⟨n, by omega, ?_⟩
  have old : allocations heapBase L.chunks =
      allocations heapBase pre ++ allocations (heapBase + span pre + headerSize + c.size) post := by
    simp [eq, allocations, free]
  have rest_free : allocations (heapBase + span pre + headerSize + n) rest = [] := by
    unfold carve at carved
    split at carved <;> obtain ⟨-, rfl⟩ := List.cons.inj carved <;> rfl
  have shift : heapBase + span pre + headerSize + n + span rest =
      heapBase + span pre + headerSize + c.size := by
    rw [carved, span_cons] at whole
    simp only at whole
    omega
  simp only [Layout.take, carved, List.append_assoc, List.cons_append, allocations_append, allocations,
    Bool.false_eq_true, if_false, rest_free, shift, List.nil_append, old]
  exact List.perm_middle

theorem allocated_extend {size p : Nat} {s' : HeapState} {amount : Nat} {pages : amount % pageSize = 0}
    {large : headerSize ≤ amount} {fits : span L.chunks + amount ≤ heapMaxSize}
    (done : Allocated (L.extend pages large fits) size p s') : Allocated L size p s' := by
  have same : allocations heapBase (L.extend pages large fits).chunks = allocations heapBase L.chunks :=
    allocations_extend _ _
  obtain ⟨L', rep', outcome⟩ := done
  rw [same] at outcome
  exact ⟨L', rep', outcome⟩

theorem search_spec (rep : Represents s L) (size : Nat) :
    (∃ b, findFit (walkFuel s) s.mem s.heapHead (roundUp size heapAlign) = some b ∧ b ≠ 0 ∧
      Allocated L size (b + headerSize) (takeBlock s b (roundUp size heapAlign))) ∨
    findFit (walkFuel s) s.mem s.heapHead (roundUp size heapAlign) = some 0 := by
  have request := request_bounds size
  have found := findFit_spec (roundUp size heapAlign) rep.seg (by decide) rep.enough
  rw [← rep.head] at found
  rcases found with ⟨pre, c, post, eq, free, fits, -, run⟩ | ⟨-, run⟩
  · have base : 0 < heapBase := by decide
    exact Or.inl ⟨_, run, by omega, allocated_take rep eq free fits request.2 request.1⟩
  · exact Or.inr run

theorem kmalloc_spec (rep : Represents s L) {size : Nat} (ok : RequestOk s size) (page : Nat → PageOutcome) :
    ∃ p s', kmalloc page s size = some (p, s') ∧ Allocated L size p s' := by
  have same : Allocated L size 0 s := ⟨L, rep, Or.inl ⟨rfl, rfl⟩⟩
  by_cases zero : size = 0
  · exact ⟨0, s, by simp [kmalloc, zero], same⟩
  · have align := alignUp_request ok.1
    rcases search_spec rep size with ⟨b, run, nonzero, done⟩ | full
    · exact ⟨_, _, by simp [kmalloc, zero, align, run, nonzero], done⟩
    · rcases heapGrow_spec rep ok.grow page with refused | ⟨s', amount, pages, large, fits, grown, rep'⟩
      · exact ⟨0, s, by simp [kmalloc, zero, align, full, refused], same⟩
      · rcases search_spec rep' size with ⟨b, run, nonzero, done⟩ | full'
        · exact ⟨_, _, by simp [kmalloc, zero, align, full, grown, run, nonzero], allocated_extend done⟩
        · exact ⟨0, s', by simp [kmalloc, zero, align, full, grown, full'],
            allocated_extend ⟨_, rep', Or.inl ⟨rfl, rfl⟩⟩⟩

theorem kzalloc_spec (rep : Represents s L) {size : Nat} (ok : RequestOk s size) (page : Nat → PageOutcome) :
    ∃ p s', kzalloc page s size = some (p, s') ∧ Allocated L size p s' := by
  obtain ⟨p, s', run, L', rep', outcome⟩ := kmalloc_spec rep ok page
  rcases outcome with ⟨rfl, same⟩ | ⟨n, large, more⟩
  · exact ⟨0, s', by simp [kzalloc, run], L', rep', Or.inl ⟨rfl, same⟩⟩
  · have live : (p, n) ∈ allocations heapBase L'.chunks := more.mem_iff.mpr List.mem_cons_self
    have nonzero := live_positive live
    refine ⟨p, _, by simp only [kzalloc, run, Option.bind_eq_bind, Option.bind_some, if_pos nonzero]; rfl,
      L', ?_, Or.inr ⟨n, large, more⟩⟩
    refine rep'.write live (fun x outside => ?_)
    have beyond : ¬ (p ≤ x ∧ x < p + size) := by omega
    simp only [fill, if_neg beyond]

/-- The pairs kcalloc handles as meant: it refuses the product, or the product is
a size kmalloc handles as meant. -/
def CallocOk (s : HeapState) (count size : Nat) : Prop :=
  (count ≠ 0 ∧ size > (2 ^ 64 - 1) / count) ∨ RequestOk s (count * size)

theorem kcalloc_spec (rep : Represents s L) {count size : Nat} (ok : CallocOk s count size)
    (page : Nat → PageOutcome) :
    ∃ p s', kcalloc page s count size = some (p, s') ∧ Allocated L (count * size) p s' := by
  by_cases overflow : count ≠ 0 ∧ size > (2 ^ 64 - 1) / count
  · exact ⟨0, s, by simp only [kcalloc, if_pos overflow], L, rep, Or.inl ⟨rfl, rfl⟩⟩
  · rcases ok with refused | ok
    · exact absurd refused overflow
    · have product : wrap64 (count * size) = count * size := by
        have small := ok.1
        exact wrap64_of_lt (by have width : heapAlign = 16 := rfl; omega)
      obtain ⟨p, s', run, done⟩ := kzalloc_spec rep ok page
      exact ⟨p, s', by simp only [kcalloc, if_neg overflow, product, run], done⟩

theorem kfree_live (rep : Represents s L) {p n : Nat} (live : (p, n) ∈ allocations heapBase L.chunks) :
    ∃ s' L', kfree s p = some s' ∧ Represents s' L' ∧
      (allocations heapBase L.chunks).Perm ((p, n) :: allocations heapBase L'.chunks) := by
  obtain ⟨pre, post, eq, rfl⟩ := allocations_split live
  obtain ⟨s', run, rep'⟩ := kfree_spec rep eq
  refine ⟨s', _, run, rep', ?_⟩
  have old : allocations heapBase L.chunks = allocations heapBase pre ++
      (heapBase + span pre + headerSize, n) :: allocations (heapBase + span pre + headerSize + n) post := by
    simp [eq, allocations]
  have new : allocations heapBase (L.free eq).chunks = _ := allocations_release ..
  rw [old, new]
  exact List.perm_middle

/-- How krealloc may leave a heap in which p holds n bytes. -/
def Reallocated (L : Layout) (p n size q : Nat) (s' : HeapState) : Prop :=
  ∃ L', Represents s' L' ∧
    ((size ≠ 0 ∧ allocations heapBase L'.chunks = allocations heapBase L.chunks ∧
      (q = 0 ∨ q = p ∧ size ≤ n)) ∨
    (q = 0 ∧ size = 0 ∧
      (allocations heapBase L.chunks).Perm ((p, n) :: allocations heapBase L'.chunks)) ∨
    ∃ k, size ≤ k ∧ size ≠ 0 ∧ q ≠ 0 ∧ q ≠ p ∧
      ((p, n) :: allocations heapBase L'.chunks).Perm ((q, k) :: allocations heapBase L.chunks))

theorem krealloc_spec (rep : Represents s L) {p n : Nat} (live : (p, n) ∈ allocations heapBase L.chunks)
    {size : Nat} (ok : RequestOk s size) (page : Nat → PageOutcome) :
    ∃ q s', krealloc page s p size = some (q, s') ∧ Reallocated L p n size q s' := by
  have nonzero := live_positive live
  obtain ⟨-, magic, old_size⟩ := live_header rep live
  by_cases zero : size = 0
  · obtain ⟨s', L', run, rep', fewer⟩ := kfree_live rep live
    exact ⟨0, s', by simp [krealloc, nonzero, zero, run], L', rep',
      Or.inr (Or.inl ⟨rfl, zero, fewer⟩)⟩
  · by_cases enough : n ≥ size
    · exact ⟨p, s, by simp [krealloc, nonzero, zero, magic, old_size, enough], L, rep,
        Or.inl ⟨zero, rfl, Or.inr ⟨rfl, enough⟩⟩⟩
    · obtain ⟨q, s₁, run, L₁, rep₁, outcome⟩ := kmalloc_spec rep ok page
      rcases outcome with ⟨rfl, same⟩ | ⟨k, large, more⟩
      · refine ⟨0, s₁, ?_, L₁, rep₁, Or.inl ⟨zero, same, Or.inl rfl⟩⟩
        simp [krealloc, nonzero, zero, magic, old_size, enough, run]
      · have fresh : (q, k) ∈ allocations heapBase L₁.chunks := more.mem_iff.mpr List.mem_cons_self
        have kept : (p, n) ∈ allocations heapBase L₁.chunks :=
          more.mem_iff.mpr (List.mem_cons_of_mem _ live)
        have other : q ≠ p := by
          have distinct := (more.map Prod.fst).nodup_iff.mp (allocations_nodup ..)
          rintro rfl
          exact (List.nodup_cons.mp distinct).1 (List.mem_map.mpr ⟨_, live, rfl⟩)
        have copied := live_header rep₁ kept
        have rep₂ := rep₁.write (m := copy s₁.mem q p n) fresh (fun x outside => by
          have beyond : ¬ (q ≤ x ∧ x < q + n) := by omega
          simp only [copy, if_neg beyond])
        obtain ⟨s₃, L₃, freed, rep₃, fewer⟩ := kfree_live rep₂ kept
        refine ⟨q, s₃, ?_, L₃, rep₃, Or.inr (Or.inr ⟨k, large, zero, live_positive fresh,
          other, fewer.symm.trans more⟩)⟩
        simp [krealloc, nonzero, zero, magic, old_size, enough, run, live_positive fresh, copied.2.2, freed]

end Requests
end Qito.Heap
