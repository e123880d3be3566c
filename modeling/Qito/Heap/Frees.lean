import Qito.Heap.Runs

/-! Freeing and the block list. The list that frees leave is the one in which the
freed blocks are marked and all runs of free blocks are merged, in whatever order
they come. -/
namespace Qito.Heap
open ByteMemory Words Runs

/-- The headers along the next pointers, with their addresses. -/
def blockList (s : HeapState) : Option (List (Nat × Block)) :=
  (heapBlocks s).map fun bs => bs.map fun b => (b, block s.mem b)

/-- kfree for each pointer in turn. -/
def kfreeAll (s : HeapState) (ptrs : List Nat) : Option HeapState := ptrs.foldlM kfree s

/-- An allocation that did not grow the heap is undone by a free, freed pointers
leave the same list in every order, and freeing them all leaves one free block. -/
structure FreesExact (request : HeapState → HeapOp → Prop) (r : HeapRun) : Prop where
  undone : ∀ page n p s, request r.heap (.kmalloc n) → kmalloc page r.heap n = some (p, s) →
    s.heapCommitted = r.heap.heapCommitted → ∃ t, kfree s p = some t ∧ blockList t = blockList r.heap
  unordered : ∀ ps qs : List Nat, ps.Nodup → (∀ p ∈ ps, p ∈ r.live) → ps.Perm qs →
    ∃ s t, kfreeAll r.heap ps = some s ∧ kfreeAll r.heap qs = some t ∧ blockList s = blockList t
  emptied : ∀ ps : List Nat, ps.Perm r.live → ∃ s b, kfreeAll r.heap ps = some s ∧
    blockList s = some [(s.heapStart, b)] ∧ b.free = true ∧ headerSize + b.size = s.heapCommitted ∧
      s.heapStart + s.heapCommitted = s.heapEnd

section Headers

/-- The headers of the chunks cs tiled from a on, linked behind p and in front of e. -/
def headers : Nat → Nat → List Chunk → Nat → List (Nat × Block)
  | _, _, [], _ => []
  | a, p, c :: cs, e => (a, headerOf a p c cs e) :: headers (a + headerSize + c.size) a cs e

theorem headers_addresses {m : Memory} {a p e : Nat} {cs : List Chunk} (seg : Seg m a p cs e) :
    ((addresses a cs).map fun b => (b, block m b)) = headers a p cs e := by
  induction cs generalizing a p with
  | nil => rfl
  | cons c cs ih =>
    obtain ⟨header, rest⟩ := seg
    rw [addresses, List.map_cons, header, ih rest]
    rfl

theorem Represents.blockList {s : HeapState} {L : Layout} (rep : Represents s L) :
    blockList s = some (headers heapBase 0 L.chunks 0) := by
  rw [Heap.blockList, rep.blocks, Option.map_some, headers_addresses rep.seg]

end Headers

section Merging

/-- A chunk in front of chunks, merged with a free one behind it. -/
@[grind =] def join (c : Chunk) : List Chunk → List Chunk
  | [] => [c]
  | d :: ds => if c.free && d.free then ⟨c.size + (headerSize + d.size), true⟩ :: ds else c :: d :: ds

/-- All runs of free chunks merged. -/
@[grind =] def merged : List Chunk → List Chunk
  | [] => []
  | c :: cs => join c (merged cs)

/-- The chunks whose payload is in P marked free, the first one at a. -/
@[grind =] def marked (P : Nat → Bool) : Nat → List Chunk → List Chunk
  | _, [] => []
  | a, c :: cs => ⟨c.size, c.free || P (a + headerSize)⟩ :: marked P (a + headerSize + c.size) cs

variable {P Q : Nat → Bool} {a n : Nat} {c d : Chunk} {cs pre post : List Chunk}

theorem join_free (cfree : c.free = true) (dfree : d.free = true) :
    join c (d :: cs) = ⟨c.size + (headerSize + d.size), true⟩ :: cs := by
  rw [join, cfree, dfree, Bool.and_true, if_pos rfl]

theorem join_join (cfree : c.free = true) (dfree : d.free = true) :
    join c (join d cs) = join ⟨c.size + (headerSize + d.size), true⟩ cs := by
  cases cs with
  | nil => exact join_free cfree dfree
  | cons e es =>
    cases efree : e.free with
    | true =>
      rw [join_free dfree efree, join_free cfree rfl, join_free rfl efree]
      simp only [Nat.add_assoc]
    | false =>
      have stays (x : Chunk) : join x (e :: es) = x :: e :: es := by
        rw [join, efree, Bool.and_false, if_neg Bool.false_ne_true]
      rw [stays, stays, join_free cfree dfree]

theorem merged_marked_merged (P : Nat → Bool) (a : Nat) (cs : List Chunk) :
    merged (marked P a (merged cs)) = merged (marked P a cs) := by
  induction cs generalizing a with
  | nil => rfl
  | cons c cs ih =>
    have behind := ih (a + headerSize + c.size)
    change merged (marked P a (join c (merged cs))) =
      join ⟨c.size, c.free || P (a + headerSize)⟩ (merged (marked P (a + headerSize + c.size) cs))
    rw [← behind]
    cases rest : merged cs with
    | nil => rfl
    | cons d ds =>
      by_cases both : c.free = true ∧ d.free = true
      · obtain ⟨cfree, dfree⟩ := both
        rw [join_free cfree dfree]
        simp only [marked, merged, cfree, dfree, Bool.true_or]
        rw [join_join rfl rfl]
        simp only [Nat.add_assoc]
      · have apart : (c.free && d.free) = false := by
          rw [← Bool.not_eq_true, Bool.and_eq_true]
          exact both
        rw [join, apart, if_neg Bool.false_ne_true]
        rfl

theorem marked_marked : marked P a (marked Q a cs) = marked (fun p => Q p || P p) a cs := by
  induction cs generalizing a with
  | nil => rfl
  | cons c cs ih => rw [marked, marked, marked, ih, Bool.or_assoc]

theorem marked_append : marked P a (pre ++ cs) = marked P a pre ++ marked P (a + span pre) cs := by
  induction pre generalizing a with
  | nil => rfl
  | cons c pre ih =>
    rw [List.cons_append, marked, marked, ih, span_cons, List.cons_append]
    simp only [Nat.add_assoc]

theorem marked_none (none_ : ∀ p, a + headerSize ≤ p → p < a + span cs + headerSize → P p = false) :
    marked P a cs = cs := by
  induction cs generalizing a with
  | nil => rfl
  | cons c cs ih =>
    have width : 0 < headerSize := by decide
    rw [span_cons] at none_
    rw [marked, none_ _ (Nat.le_refl _) (by omega), Bool.or_false, ih fun p low high => none_ p (by omega) (by omega)]

theorem marked_one (f : Bool) : marked (· == a + span pre + headerSize) a (pre ++ ⟨n, f⟩ :: post) =
    pre ++ ⟨n, true⟩ :: post := by
  have width : 0 < headerSize := by decide
  rw [marked_append, marked, beq_self_eq_true, Bool.or_true]
  rw [marked_none, marked_none]
  · intro p low _
    rw [beq_eq_false_iff_ne]
    simp only at low
    omega
  · intro p _ high
    rw [beq_eq_false_iff_ne]
    omega

theorem join_separated (separated : Separated (c :: cs)) : join c cs = c :: cs := by
  cases cs with
  | nil => rfl
  | cons d ds =>
    have apart : (c.free && d.free) = false := by
      rw [← Bool.not_eq_true, Bool.and_eq_true]
      exact (List.isChain_cons.mp separated).1 d rfl
    rw [join, apart, if_neg Bool.false_ne_true]

theorem merged_separated (separated : Separated cs) : merged cs = cs := by
  induction cs with
  | nil => rfl
  | cons c cs ih => rw [merged, ih (List.isChain_cons.mp separated).2, join_separated separated]

theorem merged_front (separated : Separated (pre ++ merged cs)) : merged (pre ++ cs) = pre ++ merged cs := by
  induction pre with
  | nil => rfl
  | cons c pre ih =>
    have rest := ih (List.isChain_cons.mp separated).2
    rw [List.cons_append, merged, rest]
    exact join_separated separated

theorem join_release (separated : Separated post) :
    join ⟨n, true⟩ post = ⟨n + span (post.takeWhile Chunk.free), true⟩ :: post.dropWhile Chunk.free := by
  cases post with
  | nil => rfl
  | cons d ds =>
    cases dfree : d.free with
    | false => rw [join, dfree, Bool.and_false, List.takeWhile_cons_of_neg (by simp [dfree]),
        List.dropWhile_cons_of_neg (by simp [dfree]), if_neg Bool.false_ne_true, span_nil, Nat.add_zero]
    | true =>
      have busy : ds.takeWhile Chunk.free = [] ∧ ds.dropWhile Chunk.free = ds := by
        cases ds with
        | nil => exact ⟨rfl, rfl⟩
        | cons e es =>
          have used : ¬ e.free = true := fun efree => (List.isChain_cons.mp separated).1 e rfl ⟨dfree, efree⟩
          exact ⟨List.takeWhile_cons_of_neg used, List.dropWhile_cons_of_neg used⟩
      rw [join_free rfl dfree, List.takeWhile_cons_of_pos dfree, List.dropWhile_cons_of_pos dfree, busy.1, busy.2,
        span_cons, span_nil, Nat.add_zero]

theorem merged_release (separated : Separated (pre ++ ⟨n, false⟩ :: post)) :
    merged (pre ++ ⟨n, true⟩ :: post) = release pre n post := by
  obtain ⟨front, back, -⟩ := List.isChain_append.mp separated
  have behind : Separated post := (List.isChain_cons.mp back).2
  have freed : merged (⟨n, true⟩ :: post) =
      ⟨n + span (post.takeWhile Chunk.free), true⟩ :: post.dropWhile Chunk.free := by
    rw [merged, merged_separated behind, join_release behind]
  have whole : Separated (release pre n post) :=
    separated_mergeBack front (behind.suffix (List.dropWhile_suffix _)) (busy_after_free_run post)
  rw [release] at whole ⊢
  rcases List.eq_nil_or_concat' pre with rfl | ⟨xs, d, rfl⟩
  · exact freed
  · rw [mergeBack_snoc] at whole ⊢
    cases dfree : d.free with
    | true =>
      rw [dfree, if_pos rfl] at whole
      have joined : merged (d :: ⟨n, true⟩ :: post) =
          ⟨d.size + (headerSize + (n + span (post.takeWhile Chunk.free))), true⟩ :: post.dropWhile Chunk.free := by
        rw [merged, freed, join_free dfree rfl]
      rw [if_pos rfl, List.append_assoc, List.singleton_append, merged_front (joined ▸ whole), joined]
    | false =>
      rw [dfree, if_neg Bool.false_ne_true] at whole
      rw [if_neg Bool.false_ne_true, merged_front (freed ▸ whole), freed]

end Merging

section Frees
variable {s : HeapState} {L : Layout} {p n : Nat} {ps : List Nat}

theorem kfree_marks (rep : Represents s L) (live : (p, n) ∈ allocations heapBase L.chunks) :
    ∃ s' L', kfree s p = some s' ∧ Represents s' L' ∧ L'.chunks = merged (marked (· == p) heapBase L.chunks) ∧
      (allocations heapBase L.chunks).Perm ((p, n) :: allocations heapBase L'.chunks) := by
  obtain ⟨pre, post, eq, rfl⟩ := allocations_split live
  obtain ⟨s', run, rep'⟩ := kfree_spec rep eq
  have separated := L.separated
  rw [eq] at separated
  refine ⟨s', L.free eq, run, rep', ?_, ?_⟩
  · rw [eq, marked_one, merged_release separated]
    rfl
  · have old : allocations heapBase L.chunks = allocations heapBase pre ++
        (heapBase + span pre + headerSize, n) :: allocations (heapBase + span pre + headerSize + n) post := by
      simp [eq, allocations]
    have new : allocations heapBase (L.free eq).chunks = _ := allocations_release ..
    rw [old, new]
    exact List.perm_middle

theorem kfreeAll_marks (rep : Represents s L) (nodup : ps.Nodup)
    (held : ∀ p ∈ ps, p ∈ (allocations heapBase L.chunks).map Prod.fst) :
    ∃ s' L', kfreeAll s ps = some s' ∧ Represents s' L' ∧
      L'.chunks = merged (marked (ps.contains ·) heapBase L.chunks) ∧
      ((allocations heapBase L.chunks).map Prod.fst).Perm (ps ++ (allocations heapBase L'.chunks).map Prod.fst) := by
  induction ps generalizing s L with
  | nil =>
    refine ⟨s, L, rfl, rep, ?_, List.Perm.refl _⟩
    have unmarked : marked (([] : List Nat).contains ·) heapBase L.chunks = L.chunks := marked_none fun _ _ _ => rfl
    rw [unmarked, merged_separated L.separated]
  | cons p ps ih =>
    obtain ⟨fresh, rest⟩ := List.nodup_cons.mp nodup
    obtain ⟨⟨q, n⟩, live, rfl⟩ := List.mem_map.mp (held p List.mem_cons_self)
    obtain ⟨s₁, L₁, run, rep₁, chunks, fewer⟩ := kfree_marks rep live
    have fewer := fewer.map Prod.fst
    rw [List.map_cons] at fewer
    have left : ∀ x ∈ ps, x ∈ (allocations heapBase L₁.chunks).map Prod.fst := by
      intro x member
      rcases List.mem_cons.mp (fewer.mem_iff.mp (held x (List.mem_cons_of_mem _ member))) with rfl | later
      · exact absurd member fresh
      · exact later
    obtain ⟨s', L', runs, rep', result, remain⟩ := ih rep₁ rest left
    refine ⟨s', L', ?_, rep', ?_, fewer.trans (remain.cons q)⟩
    · rw [kfreeAll, List.foldlM_cons, run]
      exact runs
    · rw [result, chunks, merged_marked_merged, marked_marked]
      simp only [List.contains_cons]

theorem merged_congr {pre xs ys : List Chunk} (same : merged xs = merged ys) : merged (pre ++ xs) = merged (pre ++ ys) := by
  induction pre with
  | nil => exact same
  | cons c pre ih => exact congrArg (join c) ih

theorem merged_carve {size : Nat} {c : Chunk} {rest post : List Chunk} (free : c.free = true)
    (carved : carve size c = ⟨n, false⟩ :: rest) : merged (⟨n, true⟩ :: (rest ++ post)) = merged (c :: post) := by
  obtain ⟨k, f⟩ := c
  cases free
  unfold carve at carved
  split at carved
  · obtain ⟨first, rfl⟩ := List.cons.inj carved
    cases first
    rfl
  · obtain ⟨first, rfl⟩ := List.cons.inj carved
    cases first
    have whole : n + (headerSize + (k - n - headerSize)) = k := by
      have width : minSplitSize = 64 := rfl
      simp only at *
      omega
    change join ⟨n, true⟩ (join ⟨k - n - headerSize, true⟩ (merged post)) = join ⟨k, true⟩ (merged post)
    rw [join_join rfl rfl, whole]

theorem kmalloc_still {size : Nat} {s' : HeapState} {page : Nat → PageOutcome} (rep : Represents s L)
    (ok : RequestOk s size) (run : kmalloc page s size = some (p, s')) (still : s'.heapCommitted = s.heapCommitted) :
    (p = 0 ∧ s' = s) ∨ ∃ pre c post, L.chunks = pre ++ c :: post ∧ c.free = true ∧ roundUp size heapAlign ≤ c.size ∧
      p = heapBase + span pre + headerSize ∧ s' = takeBlock s (heapBase + span pre) (roundUp size heapAlign) := by
  by_cases zero : size = 0
  · simp only [kmalloc, if_pos zero] at run
    cases run
    exact .inl ⟨rfl, rfl⟩
  · have align := alignUp_request ok.1
    have found := findFit_spec (roundUp size heapAlign) rep.seg (by decide) rep.enough
    rw [← rep.head] at found
    rcases found with ⟨pre, c, post, eq, free, fits, -, fit⟩ | ⟨-, full⟩
    · have nonzero : heapBase + span pre ≠ 0 := by
        have base : 0 < heapBase := by decide
        omega
      simp [kmalloc, zero, align, fit] at run
      exact .inr ⟨pre, c, post, eq, free, fits, run.1.symm, run.2.symm⟩
    · rcases heapGrow_spec rep ok.grow page with refused | ⟨s₁, amount, pages, large, fits, grown, rep₁⟩
      · simp [kmalloc, zero, align, full, refused] at run
        exact .inl ⟨run.1.symm, run.2.symm⟩
      · have more : s₁.heapCommitted = s.heapCommitted + amount := by
          rw [rep₁.committed, rep.committed]
          exact span_extend large _
        have width : 0 < headerSize := by decide
        have same : s'.heapCommitted = s₁.heapCommitted := by
          rcases search_spec rep₁ size with ⟨b, fit, nonzero, -⟩ | full'
          · simp [kmalloc, zero, align, full, grown, fit, nonzero] at run
            rw [← run.2]
            rfl
          · simp [kmalloc, zero, align, full, grown, full'] at run
            rw [run.2]
        omega

theorem undo (rep : Represents s L) {size : Nat} (ok : RequestOk s size) {page : Nat → PageOutcome} {s' : HeapState}
    (run : kmalloc page s size = some (p, s')) (still : s'.heapCommitted = s.heapCommitted) :
    ∃ t, kfree s' p = some t ∧ blockList t = blockList s := by
  rcases kmalloc_still rep ok run still with ⟨rfl, rfl⟩ | ⟨pre, c, post, eq, free, fits, rfl, rfl⟩
  · exact ⟨s', rfl, rfl⟩
  · have multiple := (request_bounds size).2
    have rep' := takeBlock_spec rep eq free fits multiple
    obtain ⟨n, rest, carved, -, -⟩ := splitBlock_carve rep eq free fits
    have chunks : (L.take eq free multiple).chunks = pre ++ ⟨n, false⟩ :: (rest ++ post) := by
      simp only [Layout.take, carved, List.append_assoc, List.cons_append]
    obtain ⟨t, freed, rep''⟩ := kfree_spec rep' chunks
    have separated := (L.take eq free multiple).separated
    rw [chunks] at separated
    have back : ((L.take eq free multiple).free chunks).chunks = L.chunks := by
      change release pre n (rest ++ post) = _
      rw [← merged_release separated, merged_congr (merged_carve free carved), ← eq, merged_separated L.separated]
    refine ⟨t, freed, ?_⟩
    rw [rep''.blockList, rep.blockList, back]

theorem single_chunk {cs : List Chunk} (separated : Separated cs) (unused : allocations heapBase cs = [])
    (some_ : cs ≠ []) : ∃ n, cs = [⟨n, true⟩] := by
  have free {a : Nat} {ds : List Chunk} (none_ : allocations a ds = []) : ∀ d ∈ ds, d.free = true := by
    induction ds generalizing a with
    | nil => exact List.forall_mem_nil _
    | cons d ds ih =>
      rw [allocations] at none_
      split at none_
      case isTrue dfree => exact List.forall_mem_cons.mpr ⟨dfree, ih none_⟩
      case isFalse => cases none_
  cases cs with
  | nil => exact absurd rfl some_
  | cons c cs =>
    have first := free unused c List.mem_cons_self
    cases cs with
    | nil =>
      obtain ⟨n, f⟩ := c
      cases first
      exact ⟨n, rfl⟩
    | cons d ds =>
      have second := free unused d (List.mem_cons_of_mem _ List.mem_cons_self)
      exact absurd ⟨first, second⟩ ((List.isChain_cons.mp separated).1 d rfl)

end Frees

section Heads
variable {s s' : HeapState} {page : Nat → PageOutcome} {p size : Nat}

theorem linkGrowth_head {amount : Nat} (set : s.heapHead ≠ 0) (run : linkGrowth s amount = some s') :
    s'.heapHead = s.heapHead := by
  simp only [linkGrowth, if_neg set, Option.bind_eq_bind, Option.bind_eq_some_iff] at run
  obtain ⟨tail, -, done⟩ := run
  rw [← Option.some.inj done]

theorem heapGrow_head {needed : Nat} {grew : Bool} (set : s.heapHead ≠ 0)
    (run : heapGrow page s needed = some (grew, s')) : s'.heapHead = s.heapHead := by
  simp only [heapGrow] at run
  split at run
  · cases run
    rfl
  · split at run
    · obtain ⟨t, linked, done⟩ := Option.bind_eq_some_iff.mp run
      cases done
      exact linkGrowth_head set linked
    · split at run
      · cases run
        rfl
      · obtain ⟨t, linked, done⟩ := Option.bind_eq_some_iff.mp run
        cases done
        exact linkGrowth_head set linked

theorem kmalloc_head (set : s.heapHead ≠ 0) (run : kmalloc page s size = some (p, s')) : s'.heapHead = s.heapHead := by
  simp only [kmalloc] at run
  split at run
  · cases run
    rfl
  · obtain ⟨b, -, run⟩ := Option.bind_eq_some_iff.mp run
    split at run
    · cases run
      rfl
    · obtain ⟨⟨grew, t⟩, grown, run⟩ := Option.bind_eq_some_iff.mp run
      have head := heapGrow_head set grown
      simp only at run
      split at run
      · cases run
        exact head
      · obtain ⟨b, -, run⟩ := Option.bind_eq_some_iff.mp run
        split at run
        · cases run
          exact head
        · cases run
          exact head

theorem kzalloc_head (set : s.heapHead ≠ 0) (run : kzalloc page s size = some (p, s')) : s'.heapHead = s.heapHead := by
  simp only [kzalloc] at run
  obtain ⟨⟨q, t⟩, allocated, run⟩ := Option.bind_eq_some_iff.mp run
  have head := kmalloc_head set allocated
  simp only at run
  split at run
  · cases run
    exact head
  · cases run
    exact head

theorem kfree_head (run : kfree s p = some s') : s'.heapHead = s.heapHead := by
  simp only [kfree] at run
  split at run
  · cases run
    rfl
  · split at run
    · cases run
      rfl
    · split at run
      · cases run
        rfl
      · obtain ⟨m, -, run⟩ := Option.bind_eq_some_iff.mp run
        cases run
        rfl

theorem krealloc_head {ptr : Nat} (set : s.heapHead ≠ 0) (run : krealloc page s ptr size = some (p, s')) :
    s'.heapHead = s.heapHead := by
  simp only [krealloc] at run
  split at run
  · exact kmalloc_head set run
  · split at run
    · obtain ⟨t, freed, run⟩ := Option.bind_eq_some_iff.mp run
      cases run
      exact kfree_head freed
    · split at run
      · cases run
        rfl
      · split at run
        · cases run
          rfl
        · obtain ⟨⟨fresh, t⟩, allocated, run⟩ := Option.bind_eq_some_iff.mp run
          have head := kmalloc_head set allocated
          simp only at run
          split at run
          · cases run
            exact head
          · obtain ⟨u, freed, run⟩ := Option.bind_eq_some_iff.mp run
            cases run
            exact (kfree_head freed).trans head

theorem call_head {op : HeapOp} (set : s.heapHead ≠ 0) (run : call page s op = some (p, s')) : s'.heapHead ≠ 0 := by
  have same : s'.heapHead = s.heapHead := by
    cases op with
    | kmalloc size => exact kmalloc_head set run
    | kzalloc size => exact kzalloc_head set run
    | kcalloc count size =>
      simp only [call, kcalloc] at run
      split at run
      · cases run
        rfl
      · exact kzalloc_head set run
    | krealloc ptr size => exact krealloc_head set run
    | kfree ptr =>
      obtain ⟨t, freed, done⟩ := Option.map_eq_some_iff.mp run
      cases done
      exact kfree_head freed
    | write ptr bytes =>
      cases run
      rfl
  rw [same]
  exact set

theorem kfreeAll_head {ps : List Nat} (run : kfreeAll s ps = some s') : s'.heapHead = s.heapHead := by
  induction ps generalizing s with
  | nil =>
    cases run
    rfl
  | cons p ps ih =>
    obtain ⟨t, freed, rest⟩ := Option.bind_eq_some_iff.mp run
    exact (ih rest).trans (kfree_head freed)

theorem boots_head {r : HeapRun} (boots : Boots r) : r.heap.heapHead ≠ 0 := by
  obtain ⟨-, page, boot, started⟩ := boots
  simp only [heapInit] at started
  obtain ⟨⟨grew, t⟩, grown, started⟩ := Option.bind_eq_some_iff.mp started
  cases grew with
  | false => cases started
  | true =>
    cases started
    have linked {amount : Nat} {u : HeapState} (run : linkGrowth (emptyHeap boot) amount = some u) : u.heapHead ≠ 0 := by
      cases run
      exact Nat.ne_of_gt (by decide : 0 < heapBase)
    simp only [heapGrow] at grown
    split at grown
    · cases grown
    · split at grown
      · obtain ⟨u, run, done⟩ := Option.bind_eq_some_iff.mp grown
        cases done
        exact linked run
      · split at grown
        · cases grown
        · obtain ⟨u, run, done⟩ := Option.bind_eq_some_iff.mp grown
          cases done
          exact linked run

end Heads

section Reached
variable {r : HeapRun}

theorem reached_head {request : HeapState → HeapOp → Prop} (reached : Reached request r) : r.heap.heapHead ≠ 0 := by
  refine reached.induct (fun r => r.heap.heapHead ≠ 0) (fun _ boots => boots_head boots) ?_
  rintro r t set ⟨page, op, p, -, -, run, -⟩
  exact call_head set run

/-- In every run whose requests heap.c handles as meant, frees are exact. -/
theorem frees_exact (reached : Reached OpOk r) : FreesExact OpOk r := by
  obtain ⟨L, rep, held⟩ := reached_represented (fun _ _ _ _ ok => ok) reached
  have set := reached_head reached
  have live : r.live.Nodup := held.nodup_iff.mpr (allocations_nodup _ _)
  constructor
  · intro page n p s ok run still
    exact undo rep ok run still
  · intro ps qs nodup mine perm
    have within {xs : List Nat} (same : ps.Perm xs) : ∀ p ∈ xs, p ∈ (allocations heapBase L.chunks).map Prod.fst :=
      fun p member => held.mem_iff.mp (mine p (same.mem_iff.mpr member))
    obtain ⟨s, L₁, run₁, rep₁, chunks₁, -⟩ := kfreeAll_marks rep nodup (within (List.Perm.refl _))
    obtain ⟨t, L₂, run₂, rep₂, chunks₂, -⟩ := kfreeAll_marks rep (perm.nodup_iff.mp nodup) (within perm)
    have same : (fun p => ps.contains p) = fun p => qs.contains p := by
      funext p
      rw [Bool.eq_iff_iff, List.contains_iff_mem, List.contains_iff_mem]
      exact perm.mem_iff
    refine ⟨s, t, run₁, run₂, ?_⟩
    rw [rep₁.blockList, rep₂.blockList, chunks₁, chunks₂, same]
  · intro ps perm
    have within : ∀ p ∈ ps, p ∈ (allocations heapBase L.chunks).map Prod.fst :=
      fun p member => held.mem_iff.mp (perm.mem_iff.mp member)
    obtain ⟨s, L', run, rep', -, left⟩ := kfreeAll_marks rep (perm.nodup_iff.mpr live) within
    have empty : allocations heapBase L'.chunks = [] := by
      have sizes := (left.symm.trans (held.symm.trans perm.symm)).length_eq
      rw [List.length_append, List.length_map] at sizes
      exact List.eq_nil_of_length_eq_zero (by omega)
    have nonempty : L'.chunks ≠ [] := by
      intro none_
      have head := rep'.head
      rw [none_, kfreeAll_head run] at head
      exact set head
    obtain ⟨n, chunks⟩ := single_chunk L'.separated empty nonempty
    have whole := rep'.committed
    rw [chunks] at whole
    refine ⟨s, headerOf heapBase 0 ⟨n, true⟩ [] 0, run, ?_, ?_, ?_, ?_⟩
    · rw [rep'.blockList, chunks, rep'.start]
      rfl
    · rfl
    · rw [whole, span_cons, span_nil, Nat.add_zero]
      rfl
    · rw [rep'.start, rep'.committed, rep'.stop]

theorem frees_exact_after_kmalloc : ∃ s p s', heapInit onePage zeroed = some s ∧
    call onePage s (.kmalloc 100) = some (p, s') ∧ p ≠ 0 ∧ FreesExact OpOk ⟨s', [p]⟩ := by
  have runs : ((heapInit onePage zeroed).bind fun s => (call onePage s (.kmalloc 100)).map fun r =>
      (r.1, s.heapCommitted)) = some (heapBase + headerSize, 4096) := by decide
  obtain ⟨s, started, called⟩ := Option.bind_eq_some_iff.mp runs
  obtain ⟨⟨p, s'⟩, run, result⟩ := Option.map_eq_some_iff.mp called
  obtain ⟨rfl, committed⟩ := Prod.mk.inj result
  have ok : OpOk s (.kmalloc 100) := RequestOk.of_small (by decide) (by rw [committed]; decide)
  have reached : Reached OpOk ⟨s', [heapBase + headerSize]⟩ :=
    .next (.start (s := ⟨s, []⟩) ⟨rfl, onePage, zeroed, started⟩) ⟨onePage, .kmalloc 100, _, trivial, ok, run, rfl⟩
  exact ⟨s, _, s', started, run, by decide, frees_exact reached⟩

/-- A krealloc to 2^64 - 1 bytes gets an empty payload and copies the old one over
the header behind it: freeing what is left does not make the heap one block. -/
theorem realloc_breaks_frees : ¬ ∀ r, Reached WordRequest r → FreesExact WordRequest r := by
  intro all
  have runs : ((heapInit onePage zeroed).bind fun s => (call onePage s (.kmalloc 96)).bind fun a =>
      (call onePage a.2 (.krealloc a.1 (2 ^ 64 - 1))).bind fun b => (kfree b.2 b.1).bind fun t =>
        (heapBlocks t).map fun bs => (a.1, b.1, bs.length)) =
      some (heapBase + headerSize, heapBase + 192, 2) := by decide
  obtain ⟨s, started, runs⟩ := Option.bind_eq_some_iff.mp runs
  obtain ⟨⟨p, s₁⟩, first, runs⟩ := Option.bind_eq_some_iff.mp runs
  obtain ⟨⟨q, s₂⟩, second, runs⟩ := Option.bind_eq_some_iff.mp runs
  obtain ⟨t, freed, runs⟩ := Option.bind_eq_some_iff.mp runs
  obtain ⟨bs, walked, result⟩ := Option.map_eq_some_iff.mp runs
  obtain ⟨rfl, rest⟩ := Prod.mk.inj result
  obtain ⟨rfl, two⟩ := Prod.mk.inj rest
  have begun : Reached WordRequest ⟨s₁, [heapBase + headerSize]⟩ :=
    .next (.start (s := ⟨s, []⟩) ⟨rfl, onePage, zeroed, started⟩)
      ⟨onePage, .kmalloc 96, _, trivial, (by decide : 96 < 2 ^ 64), first, rfl⟩
  have reached : Reached WordRequest ⟨s₂, [heapBase + 192]⟩ :=
    .next begun ⟨onePage, .krealloc (heapBase + headerSize) (2 ^ 64 - 1), _, .inr List.mem_cons_self,
      ⟨by decide, by decide⟩, second, rfl⟩
  obtain ⟨u, b, run, single, -⟩ := (all _ reached).emptied [heapBase + 192] (List.Perm.refl _)
  have same : kfreeAll s₂ [heapBase + 192] = some t := by
    rw [kfreeAll, List.foldlM_cons, freed]
    rfl
  cases Option.some.inj (run.symm.trans same)
  rw [blockList, walked, Option.map_some] at single
  have one := congrArg List.length (Option.some.inj single)
  rw [List.length_map, two] at one
  cases one

end Reached
end Qito.Heap
