import Qito.Lib.Memory
import Qito.Lib.Words

/-! The block routines of lib/libq/string.c over byte-addressed memory. Each loop
is a walk that carries the memory, its pointers and what is left to do; a word
access is a load and a store of its width. Pointers inside a range are plain sums,
which a range of the address space does not exceed. -/
namespace Qito.Libq

open ByteMemory Words

/-- Where a fill has come to. -/
structure Filling where
  memory : Memory
  p : Nat
  count : Nat

/-- The prologue of memset, up to the next multiple of eight. -/
def setHead (v : Nat) (m : Memory) (p : Nat) : Nat → Filling
  | 0 => ⟨m, p, 0⟩
  | count + 1 =>
    if p % 8 ≠ 0 then setHead v (store m p 1 v) (p + 1) count else ⟨m, p, count + 1⟩

/-- The fill byte in each byte of a word. -/
def spread (v : Nat) : Nat :=
  let pattern := v
  let pattern := pattern ||| wrap64 (pattern <<< 8)
  let pattern := pattern ||| wrap64 (pattern <<< 16)
  pattern ||| wrap64 (pattern <<< 32)

def setWords (pattern : Nat) (m : Memory) (q count : Nat) : Filling :=
  if 8 ≤ count then setWords pattern (store m q 8 pattern) (q + 8) (count - 8)
  else ⟨m, q, count⟩
termination_by count

def setBytes (v : Nat) (m : Memory) (p : Nat) : Nat → Memory
  | 0 => m
  | count + 1 => setBytes v (store m p 1 v) (p + 1) count

def memset (m : Memory) (dst : Nat) (value : Int) (count : Nat) : Memory :=
  let v := (UInt8.ofInt value).toNat
  let head := setHead v m dst count
  let words := if 8 ≤ head.count then setWords (spread v) head.memory head.p head.count else head
  setBytes v words.memory words.p words.count

/-- The paired stores of memset32. -/
def setPairs (pattern : Nat) (m : Memory) (q : Nat) : Nat → Memory × Nat
  | 0 => (m, q)
  | pairs + 1 => setPairs pattern (store m q 8 pattern) (q + 8) pairs

def setInts (value : Nat) (m : Memory) (p : Nat) : Nat → Memory
  | 0 => m
  | count + 1 => setInts value (store m p 4 value) (p + 4) count

def memset32 (m : Memory) (dst : Nat) (value : UInt32) (count : Nat) : Memory :=
  if 2 ≤ count ∧ dst % 8 = 0 then
    let pattern := value.toNat <<< 32 ||| value.toNat
    let paired := setPairs pattern m dst (count / 2)
    setInts value.toNat paired.1 paired.2 (count % 2)
  else setInts value.toNat m dst count

/-- Where a copy has come to. -/
structure Copying where
  memory : Memory
  d : Nat
  s : Nat
  count : Nat

def copyHead (m : Memory) (d s : Nat) : Nat → Copying
  | 0 => ⟨m, d, s, 0⟩
  | count + 1 =>
    if d % 8 ≠ 0 then copyHead (store m d 1 (load m s 1)) (d + 1) (s + 1) count
    else ⟨m, d, s, count + 1⟩

/-- One turn of the unrolled loop: the words numbered from i, n of them. -/
def copyUnrolled (m : Memory) (d s i : Nat) : Nat → Memory
  | 0 => m
  | n + 1 => copyUnrolled (store m (d + 8 * i) 8 (load m (s + 8 * i) 8)) d s (i + 1) n

def copyBlocks (m : Memory) (d s count : Nat) : Copying :=
  if 64 ≤ count then copyBlocks (copyUnrolled m d s 0 8) (d + 64) (s + 64) (count - 64)
  else ⟨m, d, s, count⟩
termination_by count

def copyWords (m : Memory) (d s count : Nat) : Copying :=
  if 8 ≤ count then copyWords (store m d 8 (load m s 8)) (d + 8) (s + 8) (count - 8)
  else ⟨m, d, s, count⟩
termination_by count

def copyBytes (m : Memory) (d s : Nat) : Nat → Memory
  | 0 => m
  | count + 1 => copyBytes (store m d 1 (load m s 1)) (d + 1) (s + 1) count

def memcpy (m : Memory) (dst src count : Nat) : Memory :=
  let start : Copying := ⟨m, dst, src, count⟩
  let aligned :=
    if dst % 8 = src % 8 then
      let head := copyHead m dst src count
      let blocks := copyBlocks head.memory head.d head.s head.count
      copyWords blocks.memory blocks.d blocks.s blocks.count
    else start
  copyBytes aligned.memory aligned.d aligned.s aligned.count

/-- The backward loop of memmove, from the ends of both ranges. -/
def copyBack (m : Memory) (d s : Nat) : Nat → Memory
  | 0 => m
  | count + 1 => copyBack (store m (d - 1) 1 (load m (s - 1) 1)) (d - 1) (s - 1) count

/-- The end of the source is a pointer sum of 64 bits. -/
def memmove (m : Memory) (dst src count : Nat) : Memory :=
  if dst = src ∨ count = 0 then m
  else if dst < src ∨ wrap64 (src + count) ≤ dst then memcpy m dst src count
  else copyBack m (dst + count) (src + count) count

/-! Each phase of a fill covers some of what is left. -/
section Fills

/-- From the first state to the second the next k bytes were filled. -/
def Filled (b : UInt8) (before after : Filling) : Prop :=
  ∃ k, before.count = k + after.count ∧ after.p = before.p + k ∧
    after.memory = fill before.memory before.p k b

variable {b : UInt8}

theorem Filled.refl (f : Filling) : Filled b f f :=
  ⟨0, (Nat.zero_add _).symm, rfl, (fill_zero _ _ _).symm⟩

theorem Filled.trans {f g h : Filling} (first : Filled b f g) (second : Filled b g h) : Filled b f h := by
  obtain ⟨k, left, moved, written⟩ := first
  obtain ⟨j, left', moved', written'⟩ := second
  refine ⟨k + j, by omega, by omega, ?_⟩
  rw [written', written, moved, fill_append]

/-- Storing the word is filling with the byte, wherever it goes. -/
def Fills (b : UInt8) (k v : Nat) : Prop := ∀ m a, store m a k v = fill m a k b

theorem Fills.byte (b : UInt8) : Fills b 1 b.toNat := fun m a => store_byte m a b

theorem Fills.double {k v : Nat} (half : Fills b k v) (narrow : k ≤ 4) (low : v < 256 ^ k) :
    Fills b (k + k) (v ||| wrap64 (v <<< (8 * k))) ∧ v ||| wrap64 (v <<< (8 * k)) < 256 ^ (k + k) := by
  have base : 2 ^ (8 * k) = 256 ^ k := Nat.pow_mul 2 8 k
  have bound : 256 ^ (k + k) ≤ 2 ^ 64 := by
    have widest : 256 ^ (k + k) ≤ 256 ^ 8 := Nat.pow_le_pow_right (by decide) (by omega)
    exact widest
  have sum : v + 256 ^ k * v < 256 ^ (k + k) := by
    have rows : 256 ^ k * v + 256 ^ k ≤ 256 ^ k * 256 ^ k := Nat.mul_le_mul_left (256 ^ k) low
    rw [Nat.pow_add]
    omega
  have joined : v ||| wrap64 (v <<< (8 * k)) = v + 256 ^ k * v := by
    have shifted : v <<< (8 * k) = 256 ^ k * v := by rw [Nat.shiftLeft_eq, base, Nat.mul_comm]
    have fits : 256 ^ k * v < 2 ^ 64 := by omega
    rw [wrap64_of_lt (shifted ▸ fits), Nat.or_comm, ← Nat.shiftLeft_add_eq_or_of_lt (base ▸ low), shifted, Nat.add_comm]
  rw [joined]
  refine ⟨fun m a => ?_, sum⟩
  rw [store_append m low, half, half, fill_append]

theorem spread_fills (b : UInt8) : Fills b 8 (spread b.toNat) := by
  have two := (Fills.byte b).double (by decide) b.toNat_lt
  have four := two.1.double (by decide) two.2
  exact (four.1.double (by decide) four.2).1

theorem Filled.store {v k count : Nat} (m : Memory) (p : Nat) (enough : k ≤ count) (fills : Fills b k v) :
    Filled b ⟨m, p, count⟩ ⟨store m p k v, p + k, count - k⟩ :=
  ⟨k, by simp only; omega, rfl, fills m p⟩

theorem setHead_filled (b : UInt8) (m : Memory) (p count : Nat) :
    Filled b ⟨m, p, count⟩ (setHead b.toNat m p count) := by
  induction count generalizing m p with
  | zero => exact .refl _
  | succ count ih =>
    unfold setHead
    split
    · exact (Filled.store m p (by omega) (.byte b)).trans (ih _ _)
    · exact .refl _

theorem setWords_filled (b : UInt8) (m : Memory) (q count : Nat) :
    Filled b ⟨m, q, count⟩ (setWords (spread b.toNat) m q count) := by
  fun_induction setWords (spread b.toNat) m q count with
  | case1 m q count more ih => exact (Filled.store m q more (spread_fills b)).trans ih
  | case2 m q count less => exact .refl _

theorem setBytes_eq (b : UInt8) (m : Memory) (p count : Nat) :
    setBytes b.toNat m p count = fill m p count b := by
  induction count generalizing m p with
  | zero => exact (fill_zero m p b).symm
  | succ count ih =>
    rw [setBytes, ih, store_byte, fill_append, Nat.add_comm]

theorem Filled.finish {before after : Filling} (done : Filled b before after) :
    setBytes b.toNat after.memory after.p after.count = fill before.memory before.p before.count b := by
  obtain ⟨k, left, moved, written⟩ := done
  rw [setBytes_eq, written, moved, fill_append, ← left]

theorem memset_eq (m : Memory) (dst : Nat) (value : Int) (count : Nat) :
    memset m dst value count = fill m dst count (UInt8.ofInt value) := by
  have head := setHead_filled (UInt8.ofInt value) m dst count
  unfold memset
  simp only
  split
  · exact (head.trans (setWords_filled (UInt8.ofInt value) _ _ _)).finish
  · exact head.finish

theorem setInts_eq (value : Nat) (m : Memory) (p count : Nat) :
    setInts value m p count = fillWords m p 4 count value := by
  induction count generalizing m p with
  | zero =>
    funext x
    have outside : ¬ (p ≤ x ∧ x < p + 4 * 0) := by omega
    simp only [setInts, fillWords, if_neg outside]
  | succ count ih => rw [setInts, ih, fillWords_succ m count value (by decide)]

theorem store_pair {value : Nat} (m : Memory) (q : Nat) (word : value < 2 ^ 32) :
    store m q 8 (value <<< 32 ||| value) = store (store m q 4 value) (q + 4) 4 value := by
  have joined : value <<< 32 ||| value = value + 256 ^ 4 * value := by
    rw [← Nat.shiftLeft_add_eq_or_of_lt word, Nat.shiftLeft_eq]
    omega
  rw [joined]
  exact store_append (k := 4) (j := 4) m (by omega)

theorem setPairs_filled {value : Nat} (m : Memory) (q pairs rest : Nat) (word : value < 2 ^ 32) :
    let paired := setPairs (value <<< 32 ||| value) m q pairs
    setInts value paired.1 paired.2 rest = fillWords m q 4 (2 * pairs + rest) value := by
  induction pairs generalizing m q with
  | zero =>
    rw [Nat.mul_zero, Nat.zero_add]
    exact setInts_eq value m q rest
  | succ pairs ih =>
    have more : 2 * (pairs + 1) + rest = 2 * pairs + rest + 1 + 1 := by omega
    have turn := ih (store m q 8 (value <<< 32 ||| value)) (q + 8)
    simp only at turn ⊢
    rw [setPairs, turn, more, ← fillWords_succ m _ value (by decide), ← fillWords_succ _ _ value (by decide),
      store_pair m q word, Nat.add_assoc q 4 4]

theorem memset32_eq (m : Memory) (dst : Nat) (value : UInt32) (count : Nat) :
    memset32 m dst value count = fillWords m dst 4 count value.toNat := by
  unfold memset32
  split
  · have halves : 2 * (count / 2) + count % 2 = count := by omega
    have paired := setPairs_filled m dst (count / 2) (count % 2) value.toNat_lt
    rw [halves] at paired
    exact paired
  · exact setInts_eq _ _ _ _

end Fills

/-! Each phase of a copy moves some of what is left. -/
section Copies

/-- From the first state to the second the next k bytes were copied. -/
def Copied (before after : Copying) : Prop :=
  ∃ k, before.count = k + after.count ∧ after.d = before.d + k ∧ after.s = before.s + k ∧
    after.memory = copy before.memory before.d before.s k

/-- What is read forward is not what was written before: the ranges are apart, or the
destination lies at or below the source. -/
def Forward (c : Copying) : Prop := c.d ≤ c.s ∨ c.s + c.count ≤ c.d

theorem Copied.refl (c : Copying) : Copied c c :=
  ⟨0, (Nat.zero_add _).symm, rfl, rfl, (copy_zero _ _ _).symm⟩

theorem Copied.forward {before after : Copying} (step : Copied before after) (order : Forward before) :
    Forward after := by
  obtain ⟨k, left, moved, read, _⟩ := step
  unfold Forward at order ⊢
  omega

theorem Copied.trans {c e f : Copying} (order : Forward c) (first : Copied c e) (second : Copied e f) :
    Copied c f := by
  obtain ⟨k, left, moved, read, written⟩ := first
  obtain ⟨j, left', moved', read', written'⟩ := second
  unfold Forward at order
  refine ⟨k + j, by omega, by omega, by omega, ?_⟩
  rw [written', written, moved, read, copy_append _ (by omega)]

theorem Copied.word {k count : Nat} (m : Memory) (d s : Nat) (enough : k ≤ count) :
    Copied ⟨m, d, s, count⟩ ⟨store m d k (load m s k), d + k, s + k, count - k⟩ :=
  ⟨k, by simp only; omega, rfl, rfl, store_load m d s k⟩

theorem copyHead_copied {m : Memory} {d s count : Nat} (order : Forward ⟨m, d, s, count⟩) :
    Copied ⟨m, d, s, count⟩ (copyHead m d s count) := by
  induction count generalizing m d s with
  | zero => exact .refl _
  | succ count ih =>
    unfold copyHead
    split
    · have byte := Copied.word m d s (Nat.le_add_left 1 count)
      exact byte.trans order (ih (byte.forward order))
    · exact .refl _

theorem copyUnrolled_copied {m : Memory} {d s count i n : Nat} (order : Forward ⟨m, d, s, count⟩)
    {now : Memory} (before : Copied ⟨m, d, s, count⟩ ⟨now, d + 8 * i, s + 8 * i, count - 8 * i⟩)
    (enough : 8 * (i + n) ≤ count) :
    Copied ⟨m, d, s, count⟩ ⟨copyUnrolled now d s i n, d + 8 * (i + n), s + 8 * (i + n), count - 8 * (i + n)⟩ := by
  induction n generalizing now i with
  | zero => exact before
  | succ n ih =>
    have word := Copied.word now (d + 8 * i) (s + 8 * i) (by omega : 8 ≤ count - 8 * i)
    have next := before.trans order word
    have size : 8 * i + 8 = 8 * (i + 1) := by omega
    have turns : i + (n + 1) = i + 1 + n := by omega
    rw [Nat.add_assoc, Nat.add_assoc, Nat.sub_sub, size] at next
    rw [copyUnrolled, turns]
    exact ih next (by omega)

theorem copyBlocks_copied {m : Memory} {d s count : Nat} (order : Forward ⟨m, d, s, count⟩) :
    Copied ⟨m, d, s, count⟩ (copyBlocks m d s count) := by
  fun_induction copyBlocks m d s count with
  | case1 m d s count more ih =>
    have block := copyUnrolled_copied (i := 0) (n := 8) order (.refl _) (by omega)
    exact block.trans order (ih (block.forward order))
  | case2 m d s count less => exact .refl _

theorem copyWords_copied {m : Memory} {d s count : Nat} (order : Forward ⟨m, d, s, count⟩) :
    Copied ⟨m, d, s, count⟩ (copyWords m d s count) := by
  fun_induction copyWords m d s count with
  | case1 m d s count more ih =>
    have word := Copied.word m d s more
    exact word.trans order (ih (word.forward order))
  | case2 m d s count less => exact .refl _

theorem copyBytes_eq {m : Memory} {d s count : Nat} (order : Forward ⟨m, d, s, count⟩) :
    copyBytes m d s count = copy m d s count := by
  induction count generalizing m d s with
  | zero => exact (copy_zero m d s).symm
  | succ count ih =>
    have byte := Copied.word m d s (Nat.le_add_left 1 count)
    have rest := ih (byte.forward order)
    simp only [Forward] at order
    rw [copyBytes, rest, store_load, Nat.add_comm count 1, copy_append m (by omega)]

theorem Copied.finish {before after : Copying} (done : Copied before after) (order : Forward before) :
    copyBytes after.memory after.d after.s after.count = copy before.memory before.d before.s before.count := by
  have left := copyBytes_eq (done.forward order)
  obtain ⟨k, count, moved, read, written⟩ := done
  unfold Forward at order
  rw [left, written, moved, read, copy_append _ (by omega), ← count]

theorem memcpy_forward {m : Memory} {dst src count : Nat} (order : Forward ⟨m, dst, src, count⟩) :
    memcpy m dst src count = copy m dst src count := by
  have head := copyHead_copied order
  have blocks := head.trans order (copyBlocks_copied (head.forward order))
  have words := blocks.trans order (copyWords_copied (blocks.forward order))
  unfold memcpy
  simp only
  split
  · exact words.finish order
  · exact (Copied.refl ⟨m, dst, src, count⟩).finish order

theorem copyBack_eq {m : Memory} {d s : Nat} (count : Nat) (below : s ≤ d) :
    copyBack m (d + count) (s + count) count = copy m d s count := by
  induction count generalizing m with
  | zero => exact (copy_zero m d s).symm
  | succ count ih =>
    have last (a : Nat) : a + (count + 1) - 1 = a + count := by omega
    rw [copyBack, last, last, ih, store_load, copy_last m count below]

theorem memmove_eq {m : Memory} {dst src count : Nat} (written : dst + count ≤ 2 ^ 64) (read : src + count ≤ 2 ^ 64) :
    memmove m dst src count = copy m dst src count := by
  unfold memmove
  by_cases still : dst = src ∨ count = 0
  · rw [if_pos still]
    rcases still with rfl | rfl
    · exact (copy_self m dst count).symm
    · exact (copy_zero m dst src).symm
  · rw [if_neg still]
    split
    · -- above the end of the source there is no overlap, below its start the walk goes forward
      rename_i order
      apply memcpy_forward
      unfold Forward
      rcases order with below | beyond
      · exact .inl (Nat.le_of_lt below)
      · rcases Nat.lt_or_ge (src + count) (2 ^ 64) with fits | edge
        · rw [wrap64_of_lt fits] at beyond
          exact .inr beyond
        · exact .inl (by simp only; omega)
    · rename_i order
      exact copyBack_eq count (by omega)

end Copies

/-- memset and memset32 fill their range with the byte and with the words, memcpy copies
between ranges that are apart, memmove between any two ranges of the address space. -/
theorem block_routines (m : Memory) (dst src count : Nat) :
    (∀ value, memset m dst value count = fill m dst count (UInt8.ofInt value)) ∧
    (∀ value, memset32 m dst value count = fillWords m dst 4 count value.toNat) ∧
    (Apart dst count src count → memcpy m dst src count = copy m dst src count) ∧
    (dst + count ≤ 2 ^ 64 → src + count ≤ 2 ^ 64 → memmove m dst src count = copy m dst src count) := by
  refine ⟨fun value => memset_eq m dst value count, fun value => memset32_eq m dst value count, ?_, memmove_eq⟩
  intro apart
  apply memcpy_forward
  unfold Forward
  rcases apart with below | above
  · exact .inl (by simp only; omega)
  · exact .inr above

/-- Nineteen bytes moved up by three, onto themselves. -/
theorem block_routines_overlap (m : Memory) :
    memcpy m 4096 8192 100 = copy m 4096 8192 100 ∧ memmove m 4099 4096 19 = copy m 4099 4096 19 :=
  ⟨(block_routines m 4096 8192 100).2.2.1 (by decide),
    (block_routines m 4099 4096 19).2.2.2 (by decide) (by decide)⟩

end Qito.Libq
