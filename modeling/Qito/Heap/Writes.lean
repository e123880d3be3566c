import Qito.Heap.Runs

/-! Where heap.c writes. Every store of a heap operation goes into a header that is
clear of the payloads in use, and only an allocation stores BLOCK_MAGIC_USED. -/
namespace Qito.Heap
open ByteMemory Words

/-- A place for a header: aligned, and apart from every payload in use. -/
structure Clear (L : Layout) (b : Nat) : Prop where
  aligned : b % heapAlign = 0
  apart : ∀ p n, (p, n) ∈ allocations heapBase L.chunks → Apart b headerSize p n

/-- What the stores into headers leave: the payloads in use as they were, and
BLOCK_MAGIC_USED in no aligned word that did not hold it before. -/
structure Tidy (L : Layout) (m m' : Memory) : Prop where
  bytes : ∀ p n, (p, n) ∈ allocations heapBase L.chunks → ∀ x, p ≤ x → x < p + n → m' x = m x
  words : ∀ a, a % heapAlign = 0 → load m' a 8 = blockMagicUsed → load m a 8 = blockMagicUsed

section Setters
variable {L : Layout} {m m' : Memory} {b v : Nat}

theorem Tidy.refl (L : Layout) (m : Memory) : Tidy L m m := ⟨fun _ _ _ _ _ _ => rfl, fun _ _ marked => marked⟩

theorem Tidy.trans {m'' : Memory} (first : Tidy L m m') (second : Tidy L m' m'') : Tidy L m m'' where
  bytes p n used x low high := (second.bytes p n used x low high).trans (first.bytes p n used x low high)
  words a aligned marked := first.words a aligned (second.words a aligned marked)

theorem Clear.store_bytes (clear : Clear L b) (m : Memory) {j k : Nat} (v : Nat) (inside : j + k ≤ headerSize) {p n : Nat}
    (used : (p, n) ∈ allocations heapBase L.chunks) {x : Nat} (low : p ≤ x) (high : x < p + n) :
    store m (b + j) k v x = m x := by
  have apart := clear.apart p n used
  have outside : ¬ (b + j ≤ x ∧ x < b + j + k) := by omega
  rw [store, if_neg outside]

theorem Tidy.between (tidy : Tidy L m m') (clear : Clear L b) {j : Nat} (inside : j + 8 ≤ headerSize) (odd : j % 16 = 8) :
    Tidy L m (store m' (b + j) 8 v) := by
  have aligned : b % 16 = 0 := clear.aligned
  apply tidy.trans
  constructor
  · intro p n used x low high
    exact clear.store_bytes m' v inside used low high
  · intro a whole marked
    change a % 16 = 0 at whole
    rw [load_store_apart m' v (by omega)] at marked
    exact marked

theorem Tidy.onto (tidy : Tidy L m m') (clear : Clear L b) {j : Nat} (inside : j + 8 ≤ headerSize) (even : j % 16 = 0)
    (small : v < 2 ^ 64) (other : v ≠ blockMagicUsed) : Tidy L m (store m' (b + j) 8 v) := by
  have aligned : b % 16 = 0 := clear.aligned
  apply tidy.trans
  constructor
  · intro p n used x low high
    exact clear.store_bytes m' v inside used low high
  · intro a whole marked
    change a % 16 = 0 at whole
    rcases Nat.lt_trichotomy a (b + j) with before | rfl | behind
    · rw [load_store_apart m' v (by omega)] at marked
      exact marked
    · rw [load_store_same, Nat.mod_eq_of_lt (show v < 256 ^ 8 from small)] at marked
      exact absurd marked other
    · rw [load_store_apart m' v (by omega)] at marked
      exact marked

theorem Tidy.setMagic (tidy : Tidy L m m') (clear : Clear L b) (small : v < 2 ^ 64) (other : v ≠ blockMagicUsed) :
    Tidy L m (setMagic m' b v) :=
  tidy.onto (j := 0) clear (by decide) rfl small other

theorem Tidy.setSize (tidy : Tidy L m m') (clear : Clear L b) (v : Nat) : Tidy L m (setSize m' b v) :=
  tidy.between clear (by decide) rfl

theorem Tidy.setNext (tidy : Tidy L m m') (clear : Clear L b) (small : v < 2 ^ 64) (other : v ≠ blockMagicUsed) :
    Tidy L m (setNext m' b v) :=
  tidy.onto clear (by decide) rfl small other

theorem Tidy.setPrev (tidy : Tidy L m m') (clear : Clear L b) (v : Nat) : Tidy L m (setPrev m' b v) :=
  tidy.between clear (by decide) rfl

theorem Tidy.setFree (tidy : Tidy L m m') (clear : Clear L b) (f : Bool) : Tidy L m (setFree m' b f) := by
  have aligned : b % 16 = 0 := clear.aligned
  apply tidy.trans
  constructor
  · intro p n used x low high
    exact clear.store_bytes m' _ (by decide) used low high
  · intro a whole marked
    change a % 16 = 0 at whole
    unfold Heap.setFree at marked
    rcases Nat.lt_trichotomy a (b + 32) with before | rfl | behind
    · rw [load_store_apart m' _ (by omega)] at marked
      exact marked
    · have byte := load_byte (Heap.setFree m' b f) (b + 32) (i := 0) (k := 8) (by decide)
      have flag : (Heap.setFree m' b f (b + 32 + 0)).toNat = if f then 1 else 0 := by
        cases f <;> simp [Heap.setFree, store]
      unfold Heap.setFree at byte flag
      rw [marked, flag] at byte
      cases f <;> exact absurd byte (by decide)
    · rw [load_store_apart m' _ (by omega)] at marked
      exact marked

end Setters

section Places
variable {L : Layout}

theorem clear_header {b : Nat} (member : b ∈ addresses heapBase L.chunks) : Clear L b := by
  constructor
  · obtain ⟨pre, c, post, eq, rfl⟩ := addresses_split member
    have front : span pre % 16 = 0 := span_aligned fun d inside => L.aligned d (by simp [eq, inside])
    change (0xFFFFC00000000000 + span pre) % 16 = 0
    omega
  · intro p n used
    have apart := allocations_headers used member
    omega

theorem clear_free {c : Chunk} {pre post : List Chunk} (eq : L.chunks = pre ++ c :: post) (free : c.free = true) {b : Nat}
    (low : heapBase + span pre ≤ b) (high : b ≤ heapBase + span pre + c.size) (aligned : b % heapAlign = 0) : Clear L b := by
  refine ⟨aligned, fun p n used => ?_⟩
  rw [eq, allocations_append, allocations, if_pos free] at used
  rcases List.mem_append.mp used with front | back
  · have bounds := allocations_bounds front
    omega
  · have bounds := allocations_bounds back
    omega

theorem clear_end (L : Layout) : Clear L (heapBase + span L.chunks) := by
  constructor
  · have whole : span L.chunks % 16 = 0 := span_aligned L.aligned
    change (0xFFFFC00000000000 + span L.chunks) % 16 = 0
    omega
  · intro p n used
    have bounds := allocations_bounds used
    omega

theorem nextLink_plain {q : Nat} (low : heapBase ≤ q) (room : q < 2 ^ 64) (cs : List Chunk) :
    nextLink q cs 0 < 2 ^ 64 ∧ nextLink q cs 0 ≠ blockMagicUsed := by
  cases cs with
  | nil =>
    change 0 < 2 ^ 64 ∧ 0 ≠ blockMagicUsed
    decide
  | cons c cs =>
    change 0xFFFFC00000000000 ≤ q at low
    change q < 2 ^ 64 ∧ q ≠ 0x5153454455534544
    omega

end Places

section Lists
variable {L : Layout} {m m' : Memory} {n : Nat} {f : Bool} {c d : Chunk} {pre post : List Chunk}

theorem mergeNext_stores {b q t : Nat} (link : (block m b).next = q) (after : (block m q).next = t)
    (apart : Apart b headerSize q headerSize) (first : Clear L b) (second : Clear L q) (third : t ≠ 0 → Clear L t)
    (small : t < 2 ^ 64) (other : t ≠ blockMagicUsed) : Tidy L m (mergeNext m b) := by
  have sized (v : Nat) : Tidy L m (setSize m b v) := (Tidy.refl L m).setSize first v
  simp only [mergeNext, link, block_setSize_apart _ apart, after, block_setNext_apart _ apart]
  split
  · rename_i behind
    exact (((sized _).setNext first small other).setPrev (third behind) b).setMagic second (by decide) (by decide)
  · exact ((sized _).setNext first small other).setMagic second (by decide) (by decide)

theorem mergeNext_tidy (seg : Seg m heapBase 0 (pre ++ ⟨n, f⟩ :: d :: post) 0)
    (room : heapBase + span (pre ++ ⟨n, f⟩ :: d :: post) < 2 ^ 64)
    (clear : ∀ b ∈ addresses heapBase (pre ++ ⟨n, f⟩ :: d :: post), Clear L b) :
    Tidy L m (mergeNext m (heapBase + span pre)) := by
  obtain ⟨-, here, gone, -⟩ := (seg_append ..).mp seg
  have place (xs : List Chunk) (x : Chunk) (ys : List Chunk) (eq : pre ++ ⟨n, f⟩ :: d :: post = xs ++ x :: ys) :
      Clear L (heapBase + span xs) := clear _ (eq ▸ mem_addresses ..)
  have second : heapBase + span (pre ++ [⟨n, f⟩]) = heapBase + span pre + headerSize + n := by
    simp only [span_append, span_cons, span_nil]
    omega
  have third : heapBase + span (pre ++ [⟨n, f⟩, d]) = heapBase + span pre + headerSize + n + headerSize + d.size := by
    simp only [span_append, span_cons, span_nil]
    omega
  simp only [span_append, span_cons] at room
  have plain := nextLink_plain (q := heapBase + span pre + headerSize + n + headerSize + d.size) (by omega) (by omega) post
  refine mergeNext_stores (q := heapBase + span pre + headerSize + n)
    (t := nextLink (heapBase + span pre + headerSize + n + headerSize + d.size) post 0) ?_ ?_ (Or.inl (by omega))
    (place pre _ _ rfl) ?_ ?_ plain.1 plain.2
  · rw [here]
    rfl
  · rw [gone]
    rfl
  · rw [← second]
    exact place (pre ++ [⟨n, f⟩]) d post (by simp)
  · intro behind
    cases post with
    | nil => exact absurd rfl behind
    | cons e post =>
      change Clear L (heapBase + span pre + headerSize + n + headerSize + d.size)
      rw [← third]
      exact place (pre ++ [⟨n, f⟩, d]) e post (by simp)

theorem addresses_merge (a : Nat) : ∀ b ∈ addresses a (pre ++ ⟨n + (headerSize + d.size), f⟩ :: post),
    b ∈ addresses a (pre ++ ⟨n, f⟩ :: d :: post) := by
  induction pre generalizing a with
  | nil =>
    intro b member
    have shift : a + headerSize + (n + (headerSize + d.size)) = a + headerSize + n + headerSize + d.size := by omega
    rw [List.nil_append, addresses, shift] at member
    rcases List.mem_cons.mp member with rfl | later
    · exact List.mem_cons_self
    · exact List.mem_cons_of_mem _ (List.mem_cons_of_mem _ later)
  | cons c pre ih =>
    intro b member
    rcases List.mem_cons.mp member with rfl | later
    · exact List.mem_cons_self
    · exact List.mem_cons_of_mem _ (ih _ b later)

theorem coalesceForward_tidy {fuel : Nat} (seg : Seg m heapBase 0 (pre ++ ⟨n, f⟩ :: post) 0)
    (room : heapBase + span (pre ++ ⟨n, f⟩ :: post) < 2 ^ 64)
    (clear : ∀ b ∈ addresses heapBase (pre ++ ⟨n, f⟩ :: post), Clear L b)
    (run : coalesceForward fuel m (heapBase + span pre) = some m') : Tidy L m m' := by
  induction post generalizing m n fuel with
  | nil =>
    cases fuel with
    | zero => cases run
    | succ fuel =>
      have next : (block m (heapBase + span pre)).next = 0 := by
        rw [((seg_append ..).mp seg).2.1]
        rfl
      simp only [coalesceForward, next, ne_eq, not_true_eq_false, false_and, if_false] at run
      cases run
      exact Tidy.refl L _
  | cons d post ih =>
    cases fuel with
    | zero => cases run
    | succ fuel =>
      unfold coalesceForward at run
      split at run
      · have merged := mergeNext_seg seg room
        have tidy := mergeNext_tidy seg room clear
        have whole : span (pre ++ ⟨n + (headerSize + d.size), f⟩ :: post) = span (pre ++ ⟨n, f⟩ :: d :: post) := by
          simp only [span_append, span_cons]
          omega
        exact tidy.trans (ih merged (whole ▸ room) (fun b member => clear b (addresses_merge _ b member)) run)
      · cases run
        exact Tidy.refl L _

theorem coalesceBackward_tidy (seg : Seg m heapBase 0 (pre ++ ⟨n, f⟩ :: post) 0)
    (room : heapBase + span (pre ++ ⟨n, f⟩ :: post) < 2 ^ 64)
    (clear : ∀ b ∈ addresses heapBase (pre ++ ⟨n, f⟩ :: post), Clear L b) :
    Tidy L m (coalesceBackward m (heapBase + span pre)) := by
  rcases List.eq_nil_or_concat' pre with rfl | ⟨xs, d, rfl⟩
  · have first : coalesceBackward m (heapBase + span []) = m := coalesceBackward_first (by simpa using seg)
    rw [first]
    exact Tidy.refl L m
  · have regroup : xs ++ [d] ++ ⟨n, f⟩ :: post = xs ++ d :: ⟨n, f⟩ :: post := by simp
    rw [regroup] at seg room clear
    obtain ⟨-, prior, here, -⟩ := (seg_append ..).mp seg
    have place : heapBase + span (xs ++ [d]) = heapBase + span xs + headerSize + d.size := by
      simp only [span_append, span_cons, span_nil]
      omega
    have back : (block m (heapBase + span xs + headerSize + d.size)).prev = heapBase + span xs := by
      rw [here]
      rfl
    have link : (block m (heapBase + span xs)).next = heapBase + span xs + headerSize + d.size := by
      rw [prior]
      rfl
    rw [place, coalesceBackward_eq back link (Or.inl (by omega))]
    split
    · exact mergeNext_tidy seg room clear
    · exact Tidy.refl L m

end Lists

section Operations
variable {s s' : HeapState} {L : Layout} {page : Nat → PageOutcome} {p n size : Nat} {c : Chunk} {pre post : List Chunk}

theorem addresses_mark (a : Nat) (f g : Bool) : addresses a (pre ++ ⟨n, f⟩ :: post) = addresses a (pre ++ ⟨n, g⟩ :: post) := by
  induction pre generalizing a with
  | nil => rfl
  | cons c pre ih => exact congrArg (a :: ·) (ih _)

theorem addresses_dropFree {a : Nat} : ∀ b ∈ addresses a (pre ++ ⟨n + span (post.takeWhile Chunk.free), true⟩ :: post.dropWhile Chunk.free),
    b ∈ addresses a (pre ++ ⟨n, true⟩ :: post) := by
  induction post generalizing n with
  | nil => exact fun b member => member
  | cons d post ih =>
    cases free : d.free with
    | false =>
      rw [List.takeWhile_cons_of_neg (by simp [free]), List.dropWhile_cons_of_neg (by simp [free])]
      exact fun b member => member
    | true =>
      intro b member
      rw [List.takeWhile_cons_of_pos free, List.dropWhile_cons_of_pos free, span_cons, ← Nat.add_assoc] at member
      exact addresses_merge a b (ih b member)

theorem coalesce_tidy {m m' : Memory} {fuel : Nat} (seg : Seg m heapBase 0 (pre ++ ⟨n, true⟩ :: post) 0)
    (room : heapBase + span (pre ++ ⟨n, true⟩ :: post) < 2 ^ 64) (enough : post.length < fuel)
    (clear : ∀ b ∈ addresses heapBase (pre ++ ⟨n, true⟩ :: post), Clear L b)
    (run : coalesce fuel m (heapBase + span pre) = some m') : Tidy L m m' := by
  obtain ⟨m₁, forward, seg₁⟩ := coalesceForward_spec seg (by decide) room enough
  simp only [coalesce, forward, Option.bind_eq_bind, Option.bind_some, Option.pure_def, Option.some.injEq] at run
  subst run
  have free_run := span_free_run post
  refine (coalesceForward_tidy seg room clear forward).trans (coalesceBackward_tidy seg₁ ?_ fun b member => ?_)
  · simp only [span_append, span_cons] at room ⊢
    omega
  · exact clear b (addresses_dropFree b member)

theorem kfree_tidy (rep : Represents s L) (eq : L.chunks = pre ++ ⟨n, false⟩ :: post)
    (run : kfree s (heapBase + span pre + headerSize) = some s') :
    Tidy L s.mem s'.mem ∧ load s'.mem (heapBase + span pre) 8 ≠ blockMagicUsed := by
  have seg := rep.seg
  have room := L.room
  have enough := rep.enough
  have clear : ∀ b ∈ addresses heapBase (pre ++ ⟨n, true⟩ :: post), Clear L b := by
    intro b member
    rw [addresses_mark heapBase true false, ← eq] at member
    exact clear_header member
  rw [eq] at seg room enough
  have whole : span (pre ++ ⟨n, true⟩ :: post) = span (pre ++ ⟨n, false⟩ :: post) := by
    simp only [span_append, span_cons]
  have here : Clear L (heapBase + span pre) := clear _ (mem_addresses ..)
  rw [span_append, span_cons] at room
  have nonzero : ¬ heapBase + span pre + headerSize = 0 := by
    have base : 0 < heapBase := by decide
    omega
  have back : sub64 (heapBase + span pre + headerSize) headerSize = heapBase + span pre := by
    rw [sub64_of_le (by omega) (by omega)]
    omega
  have magic : (block s.mem (heapBase + span pre)).magic = blockMagicUsed := by
    rw [((seg_append ..).mp seg).2.1]
    rfl
  have marked : Seg (setMagic (setFree s.mem (heapBase + span pre) true) (heapBase + span pre) blockMagicFree) heapBase 0
      (pre ++ ⟨n, true⟩ :: post) 0 := seg_mark true seg
  have first : Tidy L s.mem (setMagic (setFree s.mem (heapBase + span pre) true) (heapBase + span pre) blockMagicFree) :=
    ((Tidy.refl L _).setFree here true).setMagic here (by decide) (by decide)
  have gone : load (setMagic (setFree s.mem (heapBase + span pre) true) (heapBase + span pre) blockMagicFree)
      (heapBase + span pre) 8 ≠ blockMagicUsed := by
    rw [Heap.setMagic, load_store_same]
    decide
  simp only [kfree, if_neg nonzero, back, magic, ne_eq, not_true_eq_false, if_false, Option.bind_eq_bind] at run
  rw [if_neg (by decide)] at run
  obtain ⟨m', merged, done⟩ := Option.bind_eq_some_iff.mp run
  obtain rfl := Option.some.inj done
  rw [List.length_append, List.length_cons] at enough
  have second := coalesce_tidy marked (by rw [whole, span_append, span_cons]; exact room) (by omega) clear merged
  exact ⟨first.trans second, fun stays => gone (second.words _ here.aligned stays)⟩

theorem splitBlock_tidy (rep : Represents s L) (eq : L.chunks = pre ++ c :: post) (free : c.free = true)
    (fits : size ≤ c.size) (multiple : size % heapAlign = 0) :
    Tidy L s.mem (splitBlock s.mem (heapBase + span pre) size) := by
  have seg := rep.seg
  have room := L.room
  have clear : ∀ b ∈ addresses heapBase (pre ++ c :: post), Clear L b := by
    intro b member
    rw [← eq] at member
    exact clear_header member
  rw [eq] at seg room
  simp only [span_append, span_cons] at room
  have here : Clear L (heapBase + span pre) := clear _ (mem_addresses ..)
  have header := ((seg_append ..).mp seg).2.1
  have link : (block s.mem (heapBase + span pre)).next = nextLink (heapBase + span pre + headerSize + c.size) post 0 := by
    rw [header]
    rfl
  have old : (block s.mem (heapBase + span pre)).size = c.size := by
    rw [header]
    rfl
  unfold splitBlock
  split
  · exact Tidy.refl L _
  · rename_i wide
    have threshold : wrap64 (size + headerSize + minSplitSize) = size + headerSize + minSplitSize := by
      have top : heapMaxSize + headerSize + minSplitSize < 2 ^ 64 := by decide
      have bounded := L.bounded
      rw [eq] at bounded
      simp only [span_append, span_cons] at bounded
      exact wrap64_of_lt (by omega)
    rw [old, threshold] at wide
    have base : heapBase % 16 = 0 := by decide
    have front : span pre % 16 = 0 := span_aligned fun d inside => L.aligned d (by simp [eq, inside])
    have whole : size % 16 = 0 := multiple
    have rest : Clear L (heapBase + span pre + headerSize + size) := by
      apply clear_free eq free (by omega) (by omega)
      change (heapBase + span pre + 48 + size) % 16 = 0
      omega
    have apart : Apart (heapBase + span pre + headerSize + size) headerSize (heapBase + span pre) headerSize := Or.inr (by omega)
    have plain := nextLink_plain (q := heapBase + span pre + headerSize + c.size) (by omega) (by omega) post
    have own := nextLink_plain (q := heapBase + span pre + headerSize + size) (by omega) (by omega) [c]
    have behind : nextLink (heapBase + span pre + headerSize + c.size) post 0 ≠ 0 →
        Clear L (nextLink (heapBase + span pre + headerSize + c.size) post 0) := by
      intro some_
      cases post with
      | nil => exact absurd rfl some_
      | cons d post =>
        have place : heapBase + span (pre ++ [c]) = heapBase + span pre + headerSize + c.size := by
          simp only [span_append, span_cons, span_nil]
          omega
        change Clear L (heapBase + span pre + headerSize + c.size)
        rw [← place]
        apply clear
        rw [show pre ++ c :: d :: post = (pre ++ [c]) ++ d :: post by simp]
        exact mem_addresses ..
    rw [wrap64_of_lt (n := heapBase + span pre + headerSize + size) (by omega)]
    simp only [block_setMagic_apart _ apart, block_setSize_apart _ apart, block_setFree_apart apart,
      block_setNext_apart _ apart, block_setPrev_apart _ apart, link]
    have written := (((((Tidy.refl L s.mem).setMagic rest (v := blockMagicFree) (by decide) (by decide)).setSize rest
      (sub64 (sub64 (block s.mem (heapBase + span pre)).size size) headerSize)).setFree rest true).setNext rest plain.1
        plain.2).setPrev rest (heapBase + span pre)
    split
    · rename_i some_
      exact ((written.setPrev (behind some_) _).setNext here own.1 own.2).setSize here size
    · exact (written.setNext here own.1 own.2).setSize here size

theorem linkGrowth_tidy (rep : Represents s L) {amount : Nat} (run : linkGrowth s amount = some s') : Tidy L s.mem s'.mem := by
  have here : Clear L s.heapEnd := rep.stop ▸ clear_end L
  have fresh : Tidy L s.mem (freshBlock s.mem s.heapEnd amount) :=
    (((((Tidy.refl L s.mem).setMagic here (by decide) (by decide)).setSize here _).setFree here true).setNext here
      (by decide) (by decide)).setPrev here 0
  rcases List.eq_nil_or_concat' L.chunks with empty | ⟨pre, c, eq⟩
  · have head : s.heapHead = 0 := by
      rw [rep.head, empty]
      rfl
    simp only [linkGrowth, if_pos head] at run
    obtain rfl := Option.some.inj run
    exact fresh
  · obtain ⟨some_head, -, tail⟩ := lastBlock_fresh rep eq amount
    have head : ¬ s.heapHead = 0 := by
      rw [some_head]
      decide
    have last : Clear L (heapBase + span pre) := by
      apply clear_header
      rw [eq]
      exact mem_addresses ..
    have room := L.room
    have plain := nextLink_plain (q := s.heapEnd) (by rw [rep.stop]; omega) (by rw [rep.stop]; exact room) [c]
    simp only [linkGrowth, if_neg head, tail, Option.bind_eq_bind, Option.bind_some] at run
    obtain rfl := Option.some.inj run
    have linked := (fresh.setNext last plain.1 plain.2).setPrev here (heapBase + span pre)
    dsimp only [appendBlock]
    split
    · exact (linked.setSize last _).setNext last (by decide) (by decide)
    · exact linked

theorem heapGrow_tidy (rep : Represents s L) {needed : Nat} {grew : Bool} (run : heapGrow page s needed = some (grew, s')) :
    Tidy L s.mem s'.mem := by
  simp only [heapGrow] at run
  split at run
  · cases run
    exact Tidy.refl L _
  · split at run
    · obtain ⟨t, linked, done⟩ := Option.bind_eq_some_iff.mp run
      cases done
      exact linkGrowth_tidy rep linked
    · split at run
      · cases run
        exact Tidy.refl L _
      · obtain ⟨t, linked, done⟩ := Option.bind_eq_some_iff.mp run
        cases done
        exact linkGrowth_tidy rep linked

/-- What an allocation at p leaves: the payloads in use, and BLOCK_MAGIC_USED in no
aligned word but its own header's. -/
structure Serves (L : Layout) (p : Nat) (m m' : Memory) : Prop where
  bytes : ∀ q n, (q, n) ∈ allocations heapBase L.chunks → ∀ x, q ≤ x → x < q + n → m' x = m x
  words : ∀ a, a % heapAlign = 0 → load m' a 8 = blockMagicUsed → load m a 8 = blockMagicUsed ∨ a + headerSize = p

theorem Tidy.serves {m m' : Memory} (tidy : Tidy L m m') (p : Nat) : Serves L p m m' :=
  ⟨tidy.bytes, fun a aligned marked => Or.inl (tidy.words a aligned marked)⟩

theorem takeBlock_serves (rep : Represents s L) (eq : L.chunks = pre ++ c :: post) (free : c.free = true)
    (fits : size ≤ c.size) (multiple : size % heapAlign = 0) :
    Serves L (heapBase + span pre + headerSize) s.mem (takeBlock s (heapBase + span pre) size).mem := by
  have here : Clear L (heapBase + span pre) := by
    apply clear_header
    rw [eq]
    exact mem_addresses ..
  have tidy := (splitBlock_tidy rep eq free fits multiple).setFree here false
  constructor
  · intro q n used x low high
    exact (here.store_bytes _ (j := 0) (k := 8) blockMagicUsed (by decide) used low high).trans (tidy.bytes q n used x low high)
  · intro a aligned marked
    change load (setMagic _ _ blockMagicUsed) a 8 = blockMagicUsed at marked
    have place : (heapBase + span pre) % 16 = 0 := here.aligned
    change a % 16 = 0 at aligned
    rcases Nat.lt_trichotomy a (heapBase + span pre) with before | rfl | behind
    · rw [Heap.setMagic, load_store_apart _ _ (by omega)] at marked
      exact Or.inl (tidy.words a aligned marked)
    · exact Or.inr rfl
    · rw [Heap.setMagic, load_store_apart _ _ (by omega)] at marked
      exact Or.inl (tidy.words a aligned marked)

theorem search_serves (rep : Represents s L) {b : Nat} (some_ : b ≠ 0)
    (run : findFit (walkFuel s) s.mem s.heapHead (roundUp size heapAlign) = some b) :
    Serves L (b + headerSize) s.mem (takeBlock s b (roundUp size heapAlign)).mem := by
  have found := findFit_spec (roundUp size heapAlign) rep.seg (by decide) rep.enough
  rw [← rep.head, run] at found
  rcases found with ⟨pre, c, post, eq, free, fits, -, same⟩ | ⟨-, none_⟩
  · cases Option.some.inj same
    exact takeBlock_serves rep eq free fits (request_bounds size).2
  · exact absurd (Option.some.inj none_) some_

theorem kmalloc_serves (rep : Represents s L) (ok : RequestOk s size) (run : kmalloc page s size = some (p, s')) :
    Serves L p s.mem s'.mem := by
  simp only [kmalloc, alignUp_request ok.1] at run
  split at run
  · obtain ⟨rfl, rfl⟩ := Prod.mk.inj (Option.some.inj run)
    exact (Tidy.refl L _).serves _
  · obtain ⟨b, found, run⟩ := Option.bind_eq_some_iff.mp run
    split at run
    · rename_i some_
      obtain ⟨rfl, rfl⟩ := Prod.mk.inj (Option.some.inj run)
      exact search_serves rep some_ found
    · rcases heapGrow_spec rep ok.grow page with refused | ⟨t, amount, pages, large, fits, grown, rep'⟩
      · rw [refused] at run
        obtain ⟨rfl, rfl⟩ := Prod.mk.inj (Option.some.inj run)
        exact (Tidy.refl L _).serves _
      · simp only [grown, Option.bind_eq_bind, Option.bind_some, Bool.not_true, Bool.false_eq_true, if_false] at run
        have tidy := heapGrow_tidy rep grown
        obtain ⟨c, found', run⟩ := Option.bind_eq_some_iff.mp run
        split at run
        · rename_i some_
          obtain ⟨rfl, rfl⟩ := Prod.mk.inj (Option.some.inj run)
          have later := search_serves rep' some_ found'
          have same : allocations heapBase (L.extend pages large fits).chunks = allocations heapBase L.chunks :=
            allocations_extend _ _
          constructor
          · intro q n used x low high
            exact (later.bytes q n (same ▸ used) x low high).trans (tidy.bytes q n used x low high)
          · intro a aligned marked
            exact (later.words a aligned marked).imp_left (tidy.words a aligned)
        · obtain ⟨rfl, rfl⟩ := Prod.mk.inj (Option.some.inj run)
          exact tidy.serves _

end Operations
end Qito.Heap
