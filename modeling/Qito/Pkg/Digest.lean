import Qito.Lib.Sha2
import Qito.Pkg.Sha256
import Mathlib.Data.List.GetD

/-! sha256.c computes the standard's function. A context stands for the bytes it
has taken: its state is the hash of the whole blocks, its data the rest. -/
namespace Qito.Pkg
open Sha2 (Bits bitsOf bitsOf_length)

/-- The bits of a message, the first byte's most significant one first. -/
def messageBits (bytes : Bytes) : Bits := bytes.flatMap fun b => bitsOf 8 b.toNat

@[grind =] def Digest.hash (s : Digest) : Sha2.Hash := ⟨s.a, s.b, s.c, s.d, s.e, s.f, s.g, s.h⟩

section Messages

theorem messageBits_append (front back : Bytes) : messageBits (front ++ back) = messageBits front ++ messageBits back :=
  List.flatMap_append

theorem messageBits_cons (b : UInt8) (bytes : Bytes) : messageBits (b :: bytes) = bitsOf 8 b.toNat ++ messageBits bytes :=
  List.flatMap_cons

theorem messageBits_length (bytes : Bytes) : (messageBits bytes).length = 8 * bytes.length := by
  induction bytes with
  | nil => rfl
  | cons b bytes ih =>
    rw [messageBits_cons, List.length_append, ih, bitsOf_length, List.length_cons]
    omega

theorem messageBits_drop (bytes : Bytes) (n : Nat) : (messageBits bytes).drop (8 * n) = messageBits (bytes.drop n) := by
  induction n generalizing bytes with
  | zero => rfl
  | succ n ih =>
    cases bytes with
    | nil => exact List.drop_nil
    | cons b bytes =>
      rw [List.drop_succ_cons, messageBits_cons, ← ih, List.drop_append, bitsOf_length, Nat.mul_succ, Nat.add_sub_cancel,
        List.drop_eq_nil_of_le (by rw [bitsOf_length]; omega), List.nil_append]

theorem messageBits_take (bytes : Bytes) (n : Nat) : (messageBits bytes).take (8 * n) = messageBits (bytes.take n) := by
  have length := messageBits_length (bytes.take n)
  have whole := messageBits_append (bytes.take n) (bytes.drop n)
  rw [List.take_append_drop] at whole
  rw [List.length_take] at length
  by_cases short : n ≤ bytes.length
  · rw [Nat.min_eq_left short] at length
    rw [whole, ← length, List.take_left]
  · have all := messageBits_length bytes
    rw [@List.take_of_length_le _ n bytes (by omega), List.take_of_length_le (by omega)]

theorem messageBits_replicate (n : Nat) : messageBits (List.replicate n 0) = List.replicate (8 * n) false := by
  induction n with
  | zero => rfl
  | succ n ih =>
    rw [List.replicate_succ, messageBits_cons, ih, Nat.mul_succ, Nat.add_comm, ← List.replicate_append_replicate]
    rfl

end Messages

section Words

theorem ep0_sigma (x : Word) : ep0 x = Sha2.bigSigma0 x := rfl
theorem ep1_sigma (x : Word) : ep1 x = Sha2.bigSigma1 x := rfl
theorem sig0_sigma (x : Word) : sig0 x = Sha2.smallSigma0 x := rfl
theorem sig1_sigma (x : Word) : sig1 x = Sha2.smallSigma1 x := rfl

theorem quad_word (a b c d : UInt8) :
    (BitVec.ofNat 32 a.toNat <<< 24 ||| BitVec.ofNat 32 b.toNat <<< 16 ||| BitVec.ofNat 32 c.toNat <<< 8 |||
      BitVec.ofNat 32 d.toNat) = BitVec.ofNat 32 (Sha2.valueOf (messageBits [a, b, c, d])) := by
  have small (x : UInt8) : x.toNat < 2 ^ 8 := x.toNat_lt
  have value : Sha2.valueOf (messageBits [a, b, c, d]) = ((a.toNat * 2 ^ 8 + b.toNat) * 2 ^ 8 + c.toNat) * 2 ^ 8 + d.toNat := by
    simp only [messageBits_cons, Sha2.valueOf, List.foldl_append, Sha2.foldl_bitsOf, Nat.mod_eq_of_lt (small _)]
    simp [messageBits]
  have join {high low k : Nat} (fits : low < 2 ^ k) : high * 2 ^ k ||| low = high * 2 ^ k + low := by
    rw [← Nat.shiftLeft_eq, Nat.shiftLeft_add_eq_or_of_lt fits]
  have sa := small a
  have sb := small b
  have sc := small c
  have sd := small d
  apply BitVec.eq_of_toNat_eq
  rw [value]
  simp only [BitVec.toNat_or, BitVec.toNat_shiftLeft, BitVec.toNat_ofNat, Nat.shiftLeft_eq]
  simp only [Nat.mod_eq_of_lt (show a.toNat < 2 ^ 32 by omega), Nat.mod_eq_of_lt (show b.toNat < 2 ^ 32 by omega),
    Nat.mod_eq_of_lt (show c.toNat < 2 ^ 32 by omega), Nat.mod_eq_of_lt (show d.toNat < 2 ^ 32 by omega),
    Nat.mod_eq_of_lt (show a.toNat * 2 ^ 24 < 2 ^ 32 by omega), Nat.mod_eq_of_lt (show b.toNat * 2 ^ 16 < 2 ^ 32 by omega),
    Nat.mod_eq_of_lt (show c.toNat * 2 ^ 8 < 2 ^ 32 by omega)]
  rw [Nat.or_assoc, Nat.or_assoc, join sd, join (show c.toNat * 2 ^ 8 + d.toNat < 2 ^ 16 by omega),
    join (show b.toNat * 2 ^ 16 + (c.toNat * 2 ^ 8 + d.toNat) < 2 ^ 24 by omega), Nat.mod_eq_of_lt (by omega)]
  omega

theorem take_quad {block : Bytes} {j : Nat} (inside : j + 4 ≤ block.length) :
    (block.drop j).take 4 = [block.getD j 0, block.getD (j + 1) 0, block.getD (j + 2) 0, block.getD (j + 3) 0] := by
  have at_ {i : Nat} (low : i < block.length) : block.getD i 0 = block[i] := List.getD_eq_getElem _ _ low
  rw [at_ (by omega), at_ (show j + 1 < _ by omega), at_ (show j + 2 < _ by omega), at_ (show j + 3 < _ by omega),
    List.drop_eq_getElem_cons (by omega), List.drop_eq_getElem_cons (show j + 1 < _ by omega),
    List.drop_eq_getElem_cons (show j + 1 + 1 < _ by omega), List.drop_eq_getElem_cons (show j + 1 + 1 + 1 < _ by omega)]
  rfl

theorem word_block {block : Bytes} {t : Nat} (inside : 4 * t + 4 ≤ block.length) :
    word block (4 * t) = Sha2.blockWord (messageBits block) t := by
  have bits : ((messageBits block).drop (32 * t)).take 32 = messageBits ((block.drop (4 * t)).take 4) := by
    have scale : 32 * t = 8 * (4 * t) := by omega
    rw [scale, messageBits_drop]
    exact messageBits_take _ 4
  rw [word, quad_word, Sha2.blockWord, bits, take_quad inside]

end Words

section Blocks
variable {block : Bytes}

theorem getD_reverse_range {α : Type} (f : Nat → α) (default : α) {n i : Nat} (inside : i < n) :
    ((List.range n).map f).reverse.getD i default = f (n - 1 - i) := by
  rw [List.getD_eq_getElem _ _ (by simpa using inside), List.getElem_reverse, List.getElem_map, List.getElem_range,
    List.length_map, List.length_range]

theorem extend_schedule (bits : Bits) (n k : Nat) : extend n ((List.range (16 + k)).map (Sha2.scheduleWord bits)).reverse =
    ((List.range (16 + k + n)).map (Sha2.scheduleWord bits)).reverse := by
  induction n generalizing k with
  | zero => rfl
  | succ n ih =>
    have one : 16 + k - 1 - 1 = 14 + k := by omega
    have six : 16 + k - 1 - 6 = 9 + k := by omega
    have fourteen : 16 + k - 1 - 14 = 1 + k := by omega
    have fifteen : 16 + k - 1 - 15 = k := by omega
    rw [extend, getD_reverse_range _ _ (by omega), getD_reverse_range _ _ (by omega), getD_reverse_range _ _ (by omega),
      getD_reverse_range _ _ (by omega), one, six, fourteen, fifteen, sig0_sigma, sig1_sigma, ← Sha2.scheduleWord_next]
    have grown : Sha2.scheduleWord bits (16 + k) :: ((List.range (16 + k)).map (Sha2.scheduleWord bits)).reverse =
        ((List.range (16 + (k + 1))).map (Sha2.scheduleWord bits)).reverse := by
      rw [← Nat.add_assoc, List.range_succ, List.map_append, List.reverse_append]
      rfl
    have count : 16 + (k + 1) + n = 16 + k + (n + 1) := by omega
    rw [grown, ih, count]

theorem schedule_words (full : block.length = 64) :
    schedule block = (List.range 64).map (Sha2.scheduleWord (messageBits block)) := by
  have first : ((List.range 16).map fun i => word block (4 * i)) =
      (List.range (16 + 0)).map (Sha2.scheduleWord (messageBits block)) := by
    apply List.map_congr_left
    intro t member
    have low := List.mem_range.mp member
    rw [Sha2.scheduleWord_first low, word_block (by omega)]
  rw [schedule, first, extend_schedule, List.reverse_reverse]

theorem word_fraction (i : Nat) (w : Word) : BitVec.ofNat 32 (i * 2 ^ 32 + w.toNat) = w := by
  apply BitVec.eq_of_toNat_eq
  rw [BitVec.toNat_ofNat, Nat.mul_comm, Nat.mul_add_mod, Nat.mod_eq_of_lt w.isLt]

set_option maxRecDepth 4000 in
theorem roundConstants_roots : roundConstants = (List.range 64).map Sha2.roundConstant := by
  have roots : ∀ t < 64, ∃ i < 8,
      (i * 2 ^ 32 + (roundConstants.getD t 0).toNat) ^ 3 ≤ Sha2.primes.getD t 0 * 2 ^ 96 ∧
      Sha2.primes.getD t 0 * 2 ^ 96 < (i * 2 ^ 32 + (roundConstants.getD t 0).toNat + 1) ^ 3 := by
    rw [Sha2.primes_eq]
    decide
  have size : roundConstants.length = 64 := rfl
  apply List.ext_getElem
  · rw [size, List.length_map, List.length_range]
  · intro t low high
    have inside : t < 64 := size ▸ low
    obtain ⟨i, -, above, below⟩ := roots t inside
    rw [List.getElem_map, List.getElem_range, Sha2.roundConstant, Sha2.rootFraction_eq above below (word_fraction _ _),
      List.getD_eq_getElem _ _ low]

theorem sha256Init_roots : sha256Init.state.hash = Sha2.initialHash := by
  have root {p i : Nat} {w : Word} (above : (i * 2 ^ 32 + w.toNat) ^ 2 ≤ p * 2 ^ 64)
      (below : p * 2 ^ 64 < (i * 2 ^ 32 + w.toNat + 1) ^ 2) : w = Sha2.rootFraction 2 p :=
    (Sha2.rootFraction_eq above below (word_fraction i w)).symm
  rw [Sha2.initialHash, Sha2.primes_eq, Digest.hash, Sha2.Hash.mk.injEq]
  refine ⟨@root _ 1 _ ?_ ?_, @root _ 1 _ ?_ ?_, @root _ 2 _ ?_ ?_, @root _ 2 _ ?_ ?_, @root _ 3 _ ?_ ?_, @root _ 3 _ ?_ ?_,
    @root _ 4 _ ?_ ?_, @root _ 4 _ ?_ ?_⟩ <;> decide

theorem sha256Round_round (bits : Bits) (s : Digest) (t : Nat) :
    (sha256Round s (Sha2.roundConstant t, Sha2.scheduleWord bits t)).hash = Sha2.round bits s.hash t := rfl

theorem sha256Transform_compress (state : Digest) (full : block.length = 64) :
    (sha256Transform state block).hash = Sha2.compress state.hash (messageBits block) := by
  have rounds : ((roundConstants.zip (schedule block)).foldl sha256Round state).hash =
      (List.range 64).foldl (Sha2.round (messageBits block)) state.hash := by
    rw [roundConstants_roots, schedule_words full, List.zip_map', List.foldl_map]
    exact (List.foldl_hom Digest.hash fun s t => (sha256Round_round (messageBits block) s t).symm).symm
  rw [Sha2.compress, ← rounds]
  simp only [sha256Transform, Digest.hash, Sha2.Hash.add, BitVec.add_comm]

end Blocks

section Contexts
variable {ctx : Sha256Ctx} {taken : Bytes}

/-- The context has taken these bytes. -/
structure Holds (ctx : Sha256Ctx) (taken : Bytes) : Prop where
  state : ctx.state.hash = Sha2.hashAfter (messageBits taken) (taken.length / 64)
  data : ctx.data = taken.drop (64 * (taken.length / 64))
  bitlen : ctx.bitlen = 512 * (taken.length / 64) % 2 ^ 64

theorem sha256Init_holds : Holds sha256Init [] where
  state := by
    rw [sha256Init_roots]
    simp only [List.length_nil, Nat.zero_div, Sha2.hashAfter, List.range_zero, List.foldl_nil]
  data := rfl
  bitlen := rfl

theorem blockAt_bits (bytes : Bytes) (i : Nat) :
    Sha2.blockAt (messageBits bytes) i = messageBits ((bytes.drop (64 * i)).take 64) := by
  have scale : 512 * i = 8 * (64 * i) := by omega
  rw [Sha2.blockAt, scale, messageBits_drop]
  exact messageBits_take _ 64

theorem sha256Byte_holds (holds : Holds ctx taken) (byte : UInt8) : Holds (sha256Byte ctx byte) (taken ++ [byte]) := by
  have length : (taken ++ [byte]).length = taken.length + 1 := by simp
  have bits := messageBits_length taken
  have grown : ctx.data ++ [byte] = (taken ++ [byte]).drop (64 * (taken.length / 64)) := by
    rw [holds.data, List.drop_append_of_le_length (by omega)]
  have size : (ctx.data ++ [byte]).length = taken.length % 64 + 1 := by
    rw [grown, List.length_drop, length]
    omega
  have before : Sha2.hashAfter (messageBits (taken ++ [byte])) (taken.length / 64) = ctx.state.hash := by
    rw [messageBits_append, Sha2.hashAfter_append (by omega), holds.state]
  by_cases full : (ctx.data ++ [byte]).length = 64
  · have next : (taken ++ [byte]).length / 64 = taken.length / 64 + 1 := by omega
    have block : Sha2.blockAt (messageBits (taken ++ [byte])) (taken.length / 64) = messageBits (ctx.data ++ [byte]) := by
      rw [blockAt_bits, ← grown, List.take_of_length_le (Nat.le_of_eq full)]
    have made : sha256Byte ctx byte =
        { state := sha256Transform ctx.state (ctx.data ++ [byte]), bitlen := (ctx.bitlen + 512) % 2 ^ 64, data := [] } :=
      if_pos full
    rw [made]
    refine ⟨?_, ?_, ?_⟩
    · rw [next, Sha2.hashAfter_succ, before, block, sha256Transform_compress _ full]
    · rw [List.drop_eq_nil_of_le (by omega)]
    · rw [next]
      change (ctx.bitlen + 512) % 2 ^ 64 = _
      rw [holds.bitlen, Nat.mod_add_mod, Nat.mul_succ]
  · have same : (taken ++ [byte]).length / 64 = taken.length / 64 := by omega
    have made : sha256Byte ctx byte = { ctx with data := ctx.data ++ [byte] } := if_neg full
    rw [made]
    refine ⟨?_, ?_, ?_⟩
    · rw [same, before]
    · rw [same]
      exact grown
    · rw [same]
      exact holds.bitlen

theorem sha256Update_holds (holds : Holds ctx taken) (data : Bytes) : Holds (sha256Update ctx data) (taken ++ data) := by
  induction data generalizing ctx taken with
  | nil =>
    rw [List.append_nil]
    exact holds
  | cons byte data ih =>
    have rest := ih (sha256Byte_holds holds byte)
    rw [List.append_assoc] at rest
    exact rest

theorem sha256Updates_holds (holds : Holds ctx taken) (cuts : List Bytes) :
    Holds (cuts.foldl sha256Update ctx) (taken ++ cuts.flatten) := by
  induction cuts generalizing ctx taken with
  | nil =>
    rw [List.flatten_nil, List.append_nil]
    exact holds
  | cons cut cuts ih =>
    have rest := ih (sha256Update_holds holds cut)
    rw [List.append_assoc] at rest
    exact rest

end Contexts

section Finals
variable {ctx : Sha256Ctx} {taken : Bytes}

theorem shifted_bits (k n : Nat) :
    messageBits ((List.range k).map fun i => UInt8.ofNat (n >>> (8 * (k - 1 - i)))) = bitsOf (8 * k) n := by
  induction k generalizing n with
  | zero => rfl
  | succ k ih =>
    have front : ((List.range k).map fun i => UInt8.ofNat (n >>> (8 * (k + 1 - 1 - i)))) =
        (List.range k).map fun i => UInt8.ofNat ((n / 2 ^ 8) >>> (8 * (k - 1 - i))) := by
      apply List.map_congr_left
      intro i member
      have inside := List.mem_range.mp member
      have shift : 8 * (k + 1 - 1 - i) = 8 + 8 * (k - 1 - i) := by omega
      rw [shift, Nat.shiftRight_add, Nat.shiftRight_eq_div_pow n 8]
    have last : bitsOf 8 (UInt8.ofNat (n >>> (8 * (k + 1 - 1 - k)))).toNat = bitsOf 8 n := by
      have none_ : 8 * (k + 1 - 1 - k) = 0 := by omega
      rw [none_, Nat.shiftRight_zero, UInt8.toNat_ofNat', bitsOf, bitsOf]
      apply List.map_congr_left
      intro i member
      have inside := List.mem_range.mp member
      rw [Nat.testBit_mod_two_pow, decide_eq_true (by omega), Bool.true_and]
    rw [List.range_succ, List.map_append, messageBits_append, front, ih, List.map_singleton, messageBits_cons, last,
      Nat.mul_succ, Sha2.bitsOf_append]
    exact congrArg _ (List.append_nil _)

theorem lengthBytes_bits (n : Nat) : messageBits (lengthBytes n) = bitsOf 64 n := by
  have same : lengthBytes n = (List.range 8).map fun i => UInt8.ofNat (n >>> (8 * (8 - 1 - i))) := by
    apply List.map_congr_left
    intro i member
    have inside := List.mem_range.mp member
    have shift : 56 - 8 * i = 8 * (8 - 1 - i) := by omega
    rw [shift]
  rw [same]
  exact shifted_bits 8 n

theorem bigEndian_bits (w : Word) : messageBits (bigEndian w) = bitsOf 32 w.toNat := by
  have same : bigEndian w = (List.range 4).map fun i => UInt8.ofNat (w.toNat >>> (8 * (4 - 1 - i))) := by
    apply List.map_congr_left
    intro i member
    have inside := List.mem_range.mp member
    have shift : 24 - 8 * i = 8 * (4 - 1 - i) := by omega
    rw [shift]
  rw [same]
  exact shifted_bits 4 w.toNat

theorem digest_bits (s : Digest) : messageBits s.bytes = s.hash.bits := by
  simp only [Digest.bytes, List.flatMap_cons, List.flatMap_nil, messageBits_append, bigEndian_bits, Sha2.Hash.bits, Digest.hash]
  rfl

/-- The message with the bytes that sha256_final adds. -/
@[grind =] def padBytes (taken : Bytes) (zeros : Nat) : Bytes :=
  taken ++ ([0x80] ++ List.replicate zeros 0 ++ lengthBytes (8 * taken.length))

theorem padBytes_length (taken : Bytes) (zeros : Nat) : (padBytes taken zeros).length = taken.length + zeros + 9 := by
  simp only [padBytes, lengthBytes, List.length_append, List.length_replicate, List.length_map, List.length_range,
    List.length_singleton]
  omega

theorem padBytes_bits {zeros : Nat} (count : Sha2.zeroCount (8 * taken.length) = 7 + 8 * zeros) :
    messageBits (padBytes taken zeros) = Sha2.pad (messageBits taken) := by
  have mark : messageBits [0x80] = true :: List.replicate 7 false := by decide
  rw [padBytes, messageBits_append, messageBits_append, messageBits_append, mark, messageBits_replicate, lengthBytes_bits,
    Sha2.pad, messageBits_length, count, ← List.replicate_append_replicate]
  simp only [List.cons_append, List.append_assoc]

theorem sha256_blocks {zeros : Nat} (count : Sha2.zeroCount (8 * taken.length) = 7 + 8 * zeros) :
    Sha2.sha256 (messageBits taken) =
      (Sha2.hashAfter (messageBits (padBytes taken zeros)) ((padBytes taken zeros).length / 64)).bits := by
  have blocks : 8 * (padBytes taken zeros).length / 512 = (padBytes taken zeros).length / 64 := by omega
  rw [Sha2.sha256, ← padBytes_bits count, messageBits_length, blocks]

theorem padBytes_rest (holds : Holds ctx taken) (zeros : Nat) : (padBytes taken zeros).drop (64 * (taken.length / 64)) =
    ctx.data ++ ([0x80] ++ List.replicate zeros 0 ++ lengthBytes (8 * taken.length)) := by
  rw [padBytes, List.drop_append_of_le_length (by omega), holds.data]

theorem padBytes_before (holds : Holds ctx taken) (zeros : Nat) :
    Sha2.hashAfter (messageBits (padBytes taken zeros)) (taken.length / 64) = ctx.state.hash := by
  have bits := messageBits_length taken
  rw [padBytes, messageBits_append, Sha2.hashAfter_append (by omega), holds.state]

theorem sha256Final_holds (holds : Holds ctx taken) (short : taken.length < 2 ^ 61) :
    messageBits (sha256Final ctx) = Sha2.sha256 (messageBits taken) := by
  have size : ctx.data.length = taken.length % 64 := by
    rw [holds.data, List.length_drop]
    omega
  have bitlen : (ctx.bitlen + ctx.data.length * 8) % 2 ^ 64 = 8 * taken.length := by
    rw [holds.bitlen, size]
    omega
  have eight : (lengthBytes (8 * taken.length)).length = 8 := by rw [lengthBytes, List.length_map, List.length_range]
  have marked : (ctx.data ++ [0x80]).length = ctx.data.length + 1 := by simp
  unfold sha256Final
  dsimp only
  rw [bitlen, marked]
  by_cases one : ctx.data.length < 56
  · -- The length fits behind the mark.
    have count : Sha2.zeroCount (8 * taken.length) = 7 + 8 * (55 - ctx.data.length) := by
      unfold Sha2.zeroCount
      omega
    have total := padBytes_length taken (55 - ctx.data.length)
    have blocks : (padBytes taken (55 - ctx.data.length)).length / 64 = taken.length / 64 + 1 := by omega
    have rest := padBytes_rest holds (55 - ctx.data.length)
    have room : 56 - (ctx.data.length + 1) = 55 - ctx.data.length := by omega
    rw [if_pos one, digest_bits, sha256_blocks count, blocks, Sha2.hashAfter_succ, padBytes_before holds, blockAt_bits, rest,
      room, List.append_assoc, List.append_assoc, ← List.append_assoc [0x80]]
    have full : (ctx.data ++ ([0x80] ++ List.replicate (55 - ctx.data.length) 0 ++ lengthBytes (8 * taken.length))).length = 64 := by
      simp only [List.length_append, List.length_replicate, List.length_singleton, eight]
      omega
    rw [List.take_of_length_le (Nat.le_of_eq full), sha256Transform_compress _ full]
  · have count : Sha2.zeroCount (8 * taken.length) = 7 + 8 * (63 - ctx.data.length + 56) := by
      unfold Sha2.zeroCount
      omega
    have total := padBytes_length taken (63 - ctx.data.length + 56)
    have blocks : (padBytes taken (63 - ctx.data.length + 56)).length / 64 = taken.length / 64 + 1 + 1 := by omega
    have rest := padBytes_rest holds (63 - ctx.data.length + 56)
    have room : 64 - (ctx.data.length + 1) = 63 - ctx.data.length := by omega
    have full : (ctx.data ++ [0x80] ++ List.replicate (63 - ctx.data.length) 0).length = 64 := by
      simp only [List.length_append, List.length_replicate, List.length_singleton]
      omega
    have last : (List.replicate 56 0 ++ lengthBytes (8 * taken.length)).length = 64 := by
      simp only [List.length_append, List.length_replicate, eight]
    have parts : ctx.data ++ ([0x80] ++ List.replicate (63 - ctx.data.length + 56) 0 ++ lengthBytes (8 * taken.length)) =
        ctx.data ++ [0x80] ++ List.replicate (63 - ctx.data.length) 0 ++
          (List.replicate 56 0 ++ lengthBytes (8 * taken.length)) := by
      rw [← List.replicate_append_replicate]
      simp only [List.append_assoc]
    rw [parts] at rest
    have first : ((padBytes taken (63 - ctx.data.length + 56)).drop (64 * (taken.length / 64))).take 64 =
        ctx.data ++ [0x80] ++ List.replicate (63 - ctx.data.length) 0 := by
      rw [rest, List.take_append_of_le_length (Nat.le_of_eq full.symm), List.take_of_length_le (Nat.le_of_eq full)]
    have second : ((padBytes taken (63 - ctx.data.length + 56)).drop (64 * (taken.length / 64 + 1))).take 64 =
        List.replicate 56 0 ++ lengthBytes (8 * taken.length) := by
      rw [Nat.mul_succ, ← List.drop_drop, rest, ← full, List.drop_left, List.take_of_length_le]
      omega
    rw [if_neg one, digest_bits, sha256_blocks count, blocks, Sha2.hashAfter_succ, Sha2.hashAfter_succ,
      padBytes_before holds, blockAt_bits, blockAt_bits, first, second, room, sha256Transform_compress _ last,
      sha256Transform_compress _ full]

end Finals

theorem sha256_correct (cuts : List Bytes) (short : cuts.flatten.length < 2 ^ 61) :
    messageBits (sha256Final (cuts.foldl sha256Update sha256Init)) = Sha2.sha256 (messageBits cuts.flatten) := by
  have holds := sha256Updates_holds sha256Init_holds cuts
  rw [List.nil_append] at holds
  exact sha256Final_holds holds short

/-- The string abc in two parts. -/
theorem sha256_abc : messageBits (sha256Final ([[97], [98, 99]].foldl sha256Update sha256Init)) =
    Sha2.sha256 (messageBits [97, 98, 99]) :=
  sha256_correct [[97], [98, 99]] (by decide)

end Qito.Pkg
