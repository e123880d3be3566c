import Qito.Heap.Layout

/- What each list operation of heap.c does to the headers it touches, and from
that what it does to the layout. -/
namespace Qito.Heap
open ByteMemory Words

theorem lastAddr_snoc (a p : Nat) (xs : List Chunk) (c : Chunk) :
    lastAddr a p (xs ++ [c]) = a + span xs := by
  induction xs generalizing a p with
  | nil => simp [lastAddr]
  | cons x xs ih =>
    simp only [List.cons_append, lastAddr, ih, span_cons]
    omega

section Effects
variable {m : Memory} {b q r s size : Nat}

theorem splitBlock_block
    (link : (block m b).next = q) (old : (block m b).size = s) (rest : r = b + headerSize + size)
    (fits : size + headerSize + minSplitSize ≤ s) (room : b + headerSize + s < 2 ^ 64)
    (small : q < 2 ^ 64) (beyond : q ≠ 0 → b + headerSize + s ≤ q) :
    block (splitBlock m b size) b = { block m b with size := size, next := r } ∧
    block (splitBlock m b size) r = ⟨blockMagicFree, s - size - headerSize, q, b, true⟩ ∧
    (q ≠ 0 → block (splitBlock m b size) q = { block m q with prev := r }) ∧
    ∀ x, Apart b headerSize x headerSize → Apart r headerSize x headerSize →
      (q ≠ 0 → Apart q headerSize x headerSize) → block (splitBlock m b size) x = block m x := by
  have magic : blockMagicFree < 2 ^ 64 := by decide
  have wide : ¬ s < wrap64 (size + headerSize + minSplitSize) := by
    rw [wrap64_of_lt (by omega)]; omega
  have here : wrap64 (b + headerSize + size) = r := by rw [rest]; exact wrap64_of_lt (by omega)
  have left : sub64 (sub64 s size) headerSize = s - size - headerSize := by
    rw [sub64_of_le (b := size) (by omega) (by omega), sub64_of_le (by omega) (by omega)]
  by_cases zero : q = 0
  · simp (disch := omega) [splitBlock, old, if_neg wide, here, link, left, zero]
    intro x h1 h2
    simp (disch := omega)
  · have far := beyond zero
    simp (disch := omega) [splitBlock, old, if_neg wide, here, link, left, zero]
    intro x h1 h2 h3
    simp (disch := omega)

theorem mergeNext_block {t sq : Nat} (link : (block m b).next = q) (old : (block m b).size = s)
    (after : (block m q).next = t) (taken : (block m q).size = sq)
    (qfar : b + headerSize + s = q) (room : q + headerSize + sq < 2 ^ 64) (small : t < 2 ^ 64)
    (beyond : t ≠ 0 → q + headerSize + sq ≤ t) :
    block (mergeNext m b) b = { block m b with size := s + (headerSize + sq), next := t } ∧
    (t ≠ 0 → block (mergeNext m b) t = { block m t with prev := b }) ∧
    ∀ x, Apart b headerSize x headerSize → Apart q headerSize x headerSize →
      (t ≠ 0 → Apart t headerSize x headerSize) → block (mergeNext m b) x = block m x := by
  have width : headerSize = 48 := rfl
  have sum : wrap64 (s + (headerSize + sq)) = s + (headerSize + sq) := wrap64_of_lt (by omega)
  by_cases zero : t = 0
  · simp (disch := omega) [mergeNext, link, old, after, taken, sum, zero]
    intro x h1 h2
    simp (disch := omega)
  · have far := beyond zero
    simp (disch := omega) [mergeNext, link, old, after, taken, sum, zero]
    intro x h1 h2 h3
    simp (disch := omega)

theorem freshBlock_block {amount : Nat} (large : headerSize ≤ amount) (small : amount < 2 ^ 64) :
    block (freshBlock m b amount) b = ⟨blockMagicFree, amount - headerSize, 0, 0, true⟩ := by
  have magic : blockMagicFree < 2 ^ 64 := by decide
  have left : sub64 amount headerSize = amount - headerSize := sub64_of_le large small
  simp (disch := omega) [freshBlock, left]

theorem freshBlock_apart {x amount : Nat} (apart : Apart b headerSize x headerSize) :
    block (freshBlock m b amount) x = block m x := by
  simp (disch := omega) [freshBlock]

theorem appendBlock_block {tail amount : Nat} (apart : tail + headerSize + s = b)
    (old : (block m tail).size = s) (fresh : block m b = ⟨blockMagicFree, amount - headerSize, 0, 0, true⟩)
    (large : headerSize ≤ amount) (room : b + amount < 2 ^ 64) :
    ((block m tail).free = true →
      block (appendBlock m tail b) tail = { block m tail with size := s + amount, next := 0 }) ∧
    ((block m tail).free = false →
      block (appendBlock m tail b) tail = { block m tail with next := b } ∧
      block (appendBlock m tail b) b = { block m b with prev := tail }) ∧
    ∀ x, Apart tail headerSize x headerSize → Apart b headerSize x headerSize →
      block (appendBlock m tail b) x = block m x := by
  have adjacent : wrap64 (tail + headerSize + s) = b := by rw [apart]; exact wrap64_of_lt (by omega)
  have sum : wrap64 (s + amount) = s + amount := wrap64_of_lt (by omega)
  cases hf : (block m tail).free
  · simp (disch := omega) [appendBlock, hf, old, adjacent, fresh]
    intro x h1 h2
    simp (disch := omega)
  · simp (disch := omega) [appendBlock, hf, old, adjacent, fresh, sum]
    intro x h1 h2
    simp (disch := omega)

theorem coalesceBackward_eq {prev : Nat} (back : (block m b).prev = prev) (link : (block m prev).next = b)
    (apart : Apart prev headerSize b headerSize) :
    coalesceBackward m b =
      if prev ≠ 0 ∧ (block m prev).free ∧ wrap64 (prev + headerSize + (block m prev).size) = b then
        mergeNext m prev
      else m := by
  simp (disch := omega) only [coalesceBackward, mergeNext, back, link, block_setSize_apart,
    block_setNext_apart]

end Effects

theorem nextLink_cases (q : Nat) (cs : List Chunk) :
    (cs = [] ∧ nextLink q cs 0 = 0) ∨ (cs ≠ [] ∧ nextLink q cs 0 = q) := by
  cases cs <;> simp [nextLink]

theorem nextLink_of_ne {q e : Nat} {cs : List Chunk} (nonempty : cs ≠ []) : nextLink q cs e = q := by
  cases cs with
  | nil => exact absurd rfl nonempty
  | cons c cs => rfl

theorem splitBlock_seg {m : Memory} {a p size s : Nat} {f : Bool} {pre post : List Chunk}
    (seg : Seg m a p (pre ++ ⟨s, f⟩ :: post) 0)
    (room : a + span (pre ++ ⟨s, f⟩ :: post) < 2 ^ 64) (fits : size + headerSize + minSplitSize ≤ s) :
    Seg (splitBlock m (a + span pre) size) a p
      (pre ++ ⟨size, f⟩ :: ⟨s - size - headerSize, true⟩ :: post) 0 := by
  obtain ⟨front, here, back⟩ := (seg_append ..).mp seg
  generalize bdef : a + span pre = b at *
  simp only at back
  generalize qdef : b + headerSize + s = q at *
  simp only [span_append, span_cons] at room
  have width : headerSize = 48 := rfl
  have link : (block m b).next = nextLink q post 0 := by rw [here, ← qdef]; rfl
  have old : (block m b).size = s := by rw [here]; rfl
  have target := nextLink_cases q post
  obtain ⟨e1, e2, e3, e4⟩ := splitBlock_block link old rfl fits (by omega) (by omega)
    (by intro h; omega)
  have tail : b + headerSize + size + headerSize + (s - size - headerSize) = q := by omega
  rw [seg_append, bdef]
  refine ⟨seg_frame ?_ front, ?_, ?_, ?_⟩
  · intro x lo hi
    exact e4 x (Or.inr (by omega)) (Or.inr (by omega)) (fun h => Or.inr (by omega))
  · rw [e1, here]
    rfl
  · rw [e2]
    simp only [headerOf, magicOf, if_true, tail]
  · simp only [tail]
    refine seg_relink back ?_ ?_
    · intro nonempty
      rw [nextLink_of_ne nonempty] at e3
      exact e3 (by omega)
    · intro x lo hi
      exact e4 x (Or.inl (by omega)) (Or.inl (by omega)) (fun h => Or.inl (by omega))

theorem mergeNext_seg {m : Memory} {a p s : Nat} {f : Bool} {d : Chunk} {pre post : List Chunk}
    (seg : Seg m a p (pre ++ ⟨s, f⟩ :: d :: post) 0)
    (room : a + span (pre ++ ⟨s, f⟩ :: d :: post) < 2 ^ 64) :
    Seg (mergeNext m (a + span pre)) a p (pre ++ ⟨s + (headerSize + d.size), f⟩ :: post) 0 := by
  obtain ⟨front, here, gone, back⟩ := (seg_append ..).mp seg
  generalize bdef : a + span pre = b at *
  simp only at gone back
  generalize qdef : b + headerSize + s = q at *
  generalize tdef : q + headerSize + d.size = t at *
  simp only [span_append, span_cons] at room
  have width : headerSize = 48 := rfl
  have link : (block m b).next = q := by rw [here, ← qdef]; rfl
  have old : (block m b).size = s := by rw [here]; rfl
  have after : (block m q).next = nextLink t post 0 := by rw [gone, ← tdef]; rfl
  have taken : (block m q).size = d.size := by rw [gone]; rfl
  have target := nextLink_cases t post
  obtain ⟨e1, e2, e3⟩ := mergeNext_block link old after taken qdef (by omega) (by omega)
    (by intro h; omega)
  have tail : b + headerSize + (s + (headerSize + d.size)) = t := by omega
  rw [seg_append, bdef]
  refine ⟨seg_frame ?_ front, ?_, ?_⟩
  · intro x lo hi
    exact e3 x (Or.inr (by omega)) (Or.inr (by omega)) (fun h => Or.inr (by omega))
  · rw [e1, here]
    simp only [headerOf, tail]
  · simp only [tail]
    refine seg_relink back ?_ ?_
    · intro nonempty
      rw [nextLink_of_ne nonempty] at e2
      exact e2 (by omega)
    · intro x lo hi
      exact e3 x (Or.inl (by omega)) (Or.inl (by omega)) (fun h => Or.inl (by omega))

theorem appendBlock_seg {m : Memory} {a p amount : Nat} {pre : List Chunk} {c : Chunk}
    (seg : Seg m a p (pre ++ [c]) 0)
    (fresh : block m (a + span (pre ++ [c])) = ⟨blockMagicFree, amount - headerSize, 0, 0, true⟩)
    (large : headerSize ≤ amount) (room : a + span (pre ++ [c]) + amount < 2 ^ 64) :
    Seg (appendBlock m (a + span pre) (a + span (pre ++ [c]))) a p
      (if c.free then pre ++ [⟨c.size + amount, true⟩]
        else pre ++ [c, ⟨amount - headerSize, true⟩]) 0 := by
  obtain ⟨front, here, -⟩ := (seg_append ..).mp seg
  simp only [span_append, span_cons, span_nil, Nat.add_zero, ← Nat.add_assoc] at fresh room ⊢
  have old : (block m (a + span pre)).size = c.size := by rw [here]; rfl
  have free_eq : (block m (a + span pre)).free = c.free := by rw [here]; rfl
  obtain ⟨e1, e2, e3⟩ := appendBlock_block rfl old fresh large room
  rw [free_eq] at e1 e2
  have frame : Seg (appendBlock m (a + span pre) (a + span pre + headerSize + c.size)) a p pre
      (a + span pre) := by
    refine seg_frame ?_ front
    intro x lo hi
    exact e3 x (Or.inr (by omega)) (Or.inr (by omega))
  cases hc : c.free with
  | true =>
    refine (seg_append ..).mpr ⟨frame, ?_, trivial⟩
    rw [e1 hc, here]
    simp [headerOf, nextLink, hc]
  | false =>
    obtain ⟨f1, f2⟩ := e2 hc
    refine (seg_append ..).mpr ⟨frame, ?_, ?_, trivial⟩
    · rw [f1, here]
      rfl
    · rw [f2, fresh]
      rfl

theorem findFit_spec {m : Memory} {a p fuel : Nat} {cs : List Chunk} (size : Nat) (seg : Seg m a p cs 0)
    (pos : 0 < a) (enough : cs.length < fuel) :
    (∃ pre c post, cs = pre ++ c :: post ∧ c.free = true ∧ size ≤ c.size ∧
      (∀ d ∈ pre, d.free = true → d.size < size) ∧
      findFit fuel m (nextLink a cs 0) size = some (a + span pre)) ∨
    ((∀ c ∈ cs, c.free = true → c.size < size) ∧
      findFit fuel m (nextLink a cs 0) size = some 0) := by
  induction cs generalizing a p fuel with
  | nil =>
    obtain ⟨fuel, rfl⟩ := Nat.exists_eq_add_of_lt enough
    exact Or.inr ⟨by simp, by simp [nextLink, findFit]⟩
  | cons c cs ih =>
    cases fuel with
    | zero => exact absurd enough (by simp)
    | succ fuel =>
      have fuel_ok : cs.length < fuel := by simpa using enough
      have next : (block m a).next = nextLink (a + headerSize + c.size) cs 0 := by rw [seg.1]; rfl
      have size_eq : (block m a).size = c.size := by rw [seg.1]; rfl
      have free_eq : (block m a).free = c.free := by rw [seg.1]; rfl
      have nonzero : a ≠ 0 := by omega
      by_cases fits : c.free = true ∧ size ≤ c.size
      · refine Or.inl ⟨[], c, cs, rfl, fits.1, fits.2, by simp, ?_⟩
        have skip : ¬ (c.free = false ∨ c.size < size) := by simp [fits.1, fits.2]
        simp [findFit, nextLink, nonzero, free_eq, size_eq, skip]
      · have skip : c.free = false ∨ c.size < size := by
          cases h : c.free
          · exact Or.inl rfl
          · exact Or.inr (by simpa [h] using fits)
        have small : c.free = true → c.size < size := by
          intro h
          simpa [h] using fits
        have step : findFit (fuel + 1) m (nextLink a (c :: cs) 0) size =
            findFit fuel m (nextLink (a + headerSize + c.size) cs 0) size := by
          simp only [findFit, nextLink, nonzero, if_false, free_eq, size_eq, if_pos skip, next]
        rw [step]
        rcases ih seg.2 (by omega) fuel_ok with ⟨pre, d, post, eq, hf, hs, first, found⟩ | ⟨none_fit, found⟩
        · refine Or.inl ⟨c :: pre, d, post, by rw [eq]; rfl, hf, hs, ?_, ?_⟩
          · intro x hx
            rcases List.mem_cons.mp hx with rfl | hx
            · exact small
            · exact first x hx
          · rw [found, span_cons]
            exact congrArg some (by omega)
        · refine Or.inr ⟨?_, found⟩
          intro x hx
          rcases List.mem_cons.mp hx with rfl | hx
          · exact small
          · exact none_fit x hx

theorem lastBlock_spec {m : Memory} {a p fuel : Nat} {cs : List Chunk} {c : Chunk}
    (seg : Seg m a p (cs ++ [c]) 0) (enough : cs.length < fuel) :
    lastBlock fuel m a = some (a + span cs) := by
  induction cs generalizing a p fuel with
  | nil =>
    cases fuel with
    | zero => exact absurd enough (by simp)
    | succ fuel =>
      have next : (block m a).next = 0 := by rw [seg.1]; rfl
      simp [lastBlock, next]
  | cons d cs ih =>
    cases fuel with
    | zero => exact absurd enough (by simp)
    | succ fuel =>
      have next : (block m a).next = a + headerSize + d.size := by
        rw [seg.1]
        exact nextLink_of_ne (by simp)
      have nonzero : a + headerSize + d.size ≠ 0 := by
        have width : headerSize = 48 := rfl
        omega
      simp only [lastBlock, next, if_pos nonzero]
      rw [ih seg.2 (by simpa using enough), span_cons]
      exact congrArg some (by omega)

theorem validateFrom_spec {s : HeapState} {a p fuel : Nat} {cs : List Chunk} (seg : Seg s.mem a p cs 0)
    (pos : 0 < a) (low : s.heapStart ≤ a) (high : a + span cs ≤ s.heapEnd) (enough : cs.length < fuel) :
    validateFrom fuel s (nextLink a cs 0) = some true := by
  induction cs generalizing a p fuel with
  | nil =>
    obtain ⟨fuel, rfl⟩ := Nat.exists_eq_add_of_lt enough
    simp [nextLink, validateFrom]
  | cons c cs ih =>
    cases fuel with
    | zero => exact absurd enough (by simp)
    | succ fuel =>
      have width : headerSize = 48 := rfl
      rw [span_cons] at high
      have next : (block s.mem a).next = nextLink (a + headerSize + c.size) cs 0 := by
        rw [seg.1]; rfl
      have magic : ¬ ((block s.mem a).magic ≠ blockMagicUsed ∧ (block s.mem a).magic ≠ blockMagicFree) := by
        rw [seg.1]
        cases h : c.free <;> simp [headerOf, magicOf, h]
      have links : ¬ ((block s.mem a).next ≠ 0 ∧ (block s.mem (block s.mem a).next).prev ≠ a) := by
        rintro ⟨some_next, wrong⟩
        rw [next] at some_next wrong
        cases cs with
        | nil => exact some_next rfl
        | cons d ds =>
          apply wrong
          change (block s.mem (a + headerSize + c.size)).prev = a
          rw [seg.2.1]
          rfl
      have inside : ¬ (a < s.heapStart ∨ a ≥ s.heapEnd) := by omega
      have nonzero : a ≠ 0 := by omega
      have rest := ih seg.2 (by omega) (by omega) (by omega) (Nat.lt_of_succ_lt_succ enough)
      change validateFrom (fuel + 1) s a = some true
      rw [validateFrom, if_neg nonzero]
      simp only [if_neg magic, if_neg links, if_neg inside]
      exact next ▸ rest

theorem coalesceForward_spec {m : Memory} {a p s fuel : Nat} {f : Bool} {pre post : List Chunk}
    (seg : Seg m a p (pre ++ ⟨s, f⟩ :: post) 0) (pos : 0 < a)
    (room : a + span (pre ++ ⟨s, f⟩ :: post) < 2 ^ 64) (enough : post.length < fuel) :
    ∃ m', coalesceForward fuel m (a + span pre) = some m' ∧
      Seg m' a p (pre ++ ⟨s + span (post.takeWhile Chunk.free), f⟩ :: post.dropWhile Chunk.free) 0 := by
  induction post generalizing m s fuel with
  | nil =>
    cases fuel with
    | zero => exact absurd enough (by simp)
    | succ fuel =>
      have here := ((seg_append ..).mp seg).2.1
      have next : (block m (a + span pre)).next = 0 := by rw [here]; rfl
      exact ⟨m, by simp [coalesceForward, next], by simpa using seg⟩
  | cons d post ih =>
    cases fuel with
    | zero => exact absurd enough (by simp)
    | succ fuel =>
      obtain ⟨-, here, other, -⟩ := (seg_append ..).mp seg
      simp only at other
      have next : (block m (a + span pre)).next = a + span pre + headerSize + s := by rw [here]; rfl
      have size_eq : (block m (a + span pre)).size = s := by rw [here]; rfl
      have free_eq : (block m (a + span pre + headerSize + s)).free = d.free := by rw [other]; rfl
      simp only [span_append, span_cons] at room
      have adjacent : wrap64 (a + span pre + headerSize + s) = a + span pre + headerSize + s :=
        wrap64_of_lt (by omega)
      have nonzero : a + span pre + headerSize + s ≠ 0 := by omega
      cases hd : d.free with
      | false =>
        refine ⟨m, ?_, ?_⟩
        · simp [coalesceForward, next, free_eq, hd]
        · simpa [hd] using seg
      | true =>
        have merged := mergeNext_seg (d := d) seg
          (by simp only [span_append, span_cons]; omega)
        obtain ⟨m', run, seg'⟩ := ih merged (by simp only [span_append, span_cons]; omega)
          (Nat.lt_of_succ_lt_succ enough)
        refine ⟨m', ?_, ?_⟩
        · have go : (block m (a + span pre)).next ≠ 0 ∧
              (block m (block m (a + span pre)).next).free ∧
              wrap64 (a + span pre + headerSize + (block m (a + span pre)).size) =
                (block m (a + span pre)).next := by
            rw [next, size_eq, free_eq, hd]
            exact ⟨nonzero, rfl, adjacent⟩
          rw [coalesceForward, if_pos go]
          exact run
        · simpa [hd, Nat.add_assoc] using seg'

theorem coalesceBackward_first {m : Memory} {a s : Nat} {f : Bool} {post : List Chunk}
    (seg : Seg m a 0 (⟨s, f⟩ :: post) 0) : coalesceBackward m a = m := by
  have prev : (block m a).prev = 0 := by rw [seg.1]; rfl
  simp [coalesceBackward, prev]

theorem coalesceBackward_spec {m : Memory} {a p s : Nat} {f : Bool} {d : Chunk} {pre post : List Chunk}
    (seg : Seg m a p (pre ++ d :: ⟨s, f⟩ :: post) 0) (pos : 0 < a)
    (room : a + span (pre ++ d :: ⟨s, f⟩ :: post) < 2 ^ 64) :
    Seg (coalesceBackward m (a + span pre + headerSize + d.size)) a p
      (if d.free then pre ++ ⟨d.size + (headerSize + s), true⟩ :: post
        else pre ++ d :: ⟨s, f⟩ :: post) 0 := by
  obtain ⟨-, prior, here, -⟩ := (seg_append ..).mp seg
  have back : (block m (a + span pre + headerSize + d.size)).prev = a + span pre := by rw [here]; rfl
  have link : (block m (a + span pre)).next = a + span pre + headerSize + d.size := by rw [prior]; rfl
  have size_eq : (block m (a + span pre)).size = d.size := by rw [prior]; rfl
  have free_eq : (block m (a + span pre)).free = d.free := by rw [prior]; rfl
  have adjacent : wrap64 (a + span pre + headerSize + d.size) = a + span pre + headerSize + d.size := by
    simp only [span_append, span_cons] at room
    exact wrap64_of_lt (by omega)
  rw [coalesceBackward_eq back link (Or.inl (by omega)), size_eq, free_eq, adjacent]
  cases busy : d.free with
  | false => simpa using seg
  | true =>
    have nonzero : a + span pre ≠ 0 := by omega
    simp only [ne_eq, nonzero, not_false_eq_true, and_self, if_true]
    have merged := mergeNext_seg (s := d.size) (f := d.free) seg room
    rwa [busy] at merged

end Qito.Heap
