import Qito.Lib.Lists
import Mathlib.Analysis.SpecialFunctions.Pow.NthRootLemmas

/-! SHA-256 as FIPS 180-4 defines it: a function of strings of bits. The words of
the tables are the first bits of the fractions of roots of primes. -/
namespace Sha2

abbrev Word := BitVec 32

abbrev Bits := List Bool

def rotr (n : Nat) (x : Word) : Word := x.rotateRight n
def shr (n : Nat) (x : Word) : Word := x >>> n

def Ch (x y z : Word) : Word := (x &&& y) ^^^ (~~~x &&& z)
def Maj (x y z : Word) : Word := (x &&& y) ^^^ (x &&& z) ^^^ (y &&& z)
def bigSigma0 (x : Word) : Word := rotr 2 x ^^^ rotr 13 x ^^^ rotr 22 x
def bigSigma1 (x : Word) : Word := rotr 6 x ^^^ rotr 11 x ^^^ rotr 25 x
def smallSigma0 (x : Word) : Word := rotr 7 x ^^^ rotr 18 x ^^^ shr 3 x
def smallSigma1 (x : Word) : Word := rotr 17 x ^^^ rotr 19 x ^^^ shr 10 x

/-- The first 32 bits of the fraction of the k-th root of n. -/
def rootFraction (k n : Nat) : Word := BitVec.ofNat 32 (Nat.nthRoot k (n * 2 ^ (32 * k)))

/-- A number below 324 that is not prime has a divisor below 18. -/
def isPrime (n : Nat) : Bool := 2 ≤ n && (List.range 18).all fun d => d < 2 || d == n || n % d != 0

/-- The first 64 primes. -/
def primes : List Nat := (List.range 312).filter isPrime

def roundConstant (t : Nat) : Word := rootFraction 3 (primes.getD t 0)

/-- The hash value, or the working variables a to h. -/
structure Hash where
  a : Word
  b : Word
  c : Word
  d : Word
  e : Word
  f : Word
  g : Word
  h : Word

def initialHash : Hash where
  a := rootFraction 2 (primes.getD 0 0)
  b := rootFraction 2 (primes.getD 1 0)
  c := rootFraction 2 (primes.getD 2 0)
  d := rootFraction 2 (primes.getD 3 0)
  e := rootFraction 2 (primes.getD 4 0)
  f := rootFraction 2 (primes.getD 5 0)
  g := rootFraction 2 (primes.getD 6 0)
  h := rootFraction 2 (primes.getD 7 0)

/-- The most significant bit comes first. -/
def bitsOf (width n : Nat) : Bits := (List.range width).map fun i => n.testBit (width - 1 - i)

def valueOf (bits : Bits) : Nat := bits.foldl (fun n bit => 2 * n + bit.toNat) 0

/-- The smallest k with l + 1 + k = 448 modulo 512. -/
def zeroCount (l : Nat) : Nat := (959 - l % 512) % 512

def pad (message : Bits) : Bits :=
  message ++ true :: List.replicate (zeroCount message.length) false ++ bitsOf 64 message.length

def blockAt (padded : Bits) (i : Nat) : Bits := (padded.drop (512 * i)).take 512

def blockWord (block : Bits) (t : Nat) : Word := BitVec.ofNat 32 (valueOf ((block.drop (32 * t)).take 32))

/-- The message schedule of a block. -/
def scheduleWord (block : Bits) (t : Nat) : Word :=
  if t < 16 then blockWord block t
  else smallSigma1 (scheduleWord block (t - 2)) + scheduleWord block (t - 7) + smallSigma0 (scheduleWord block (t - 15)) +
    scheduleWord block (t - 16)

def round (block : Bits) (v : Hash) (t : Nat) : Hash :=
  let t1 := v.h + bigSigma1 v.e + Ch v.e v.f v.g + roundConstant t + scheduleWord block t
  let t2 := bigSigma0 v.a + Maj v.a v.b v.c
  { a := t1 + t2, b := v.a, c := v.b, d := v.c, e := v.d + t1, f := v.e, g := v.f, h := v.g }

def Hash.add (v w : Hash) : Hash where
  a := v.a + w.a
  b := v.b + w.b
  c := v.c + w.c
  d := v.d + w.d
  e := v.e + w.e
  f := v.f + w.f
  g := v.g + w.g
  h := v.h + w.h

def compress (hash : Hash) (block : Bits) : Hash :=
  ((List.range 64).foldl (round block) hash).add hash

def Hash.bits (v : Hash) : Bits := [v.a, v.b, v.c, v.d, v.e, v.f, v.g, v.h].flatMap fun w => bitsOf 32 w.toNat

/-- The hash value after n blocks. -/
def hashAfter (padded : Bits) (n : Nat) : Hash :=
  (List.range n).foldl (fun hash i => compress hash (blockAt padded i)) initialHash

def sha256 (message : Bits) : Bits := (hashAfter (pad message) ((pad message).length / 512)).bits

section Constants

theorem primes_eq : primes =
    [2, 3, 5, 7, 11, 13, 17, 19, 23, 29, 31, 37, 41, 43, 47, 53, 59, 61, 67, 71, 73, 79, 83, 89, 97, 101, 103, 107, 109, 113,
      127, 131, 137, 139, 149, 151, 157, 163, 167, 173, 179, 181, 191, 193, 197, 199, 211, 223, 227, 229, 233, 239, 241, 251,
      257, 263, 269, 271, 277, 281, 283, 293, 307, 311] := by
  decide +kernel

theorem rootFraction_eq {k n c : Nat} {w : Word} (low : c ^ k ≤ n * 2 ^ (32 * k)) (high : n * 2 ^ (32 * k) < (c + 1) ^ k)
    (word : BitVec.ofNat 32 c = w) : rootFraction k n = w := by
  rw [rootFraction, Nat.nthRoot_eq_of_le_of_lt low high, word]

end Constants

section Bits

theorem bitsOf_length (width n : Nat) : (bitsOf width n).length = width := by
  rw [bitsOf, List.length_map, List.length_range]

theorem bitsOf_succ (width n : Nat) : bitsOf (width + 1) n = bitsOf width (n / 2) ++ [n.testBit 0] := by
  unfold bitsOf
  rw [List.range_succ, List.map_append, List.map_singleton, Nat.add_sub_cancel, Nat.sub_self]
  congr 1
  apply List.map_congr_left
  intro i member
  have inside := List.mem_range.mp member
  rw [Nat.testBit_div_two]
  congr 1
  omega

theorem foldl_bitsOf (width n start : Nat) :
    (bitsOf width n).foldl (fun n bit => 2 * n + bit.toNat) start = start * 2 ^ width + n % 2 ^ width := by
  induction width generalizing n with
  | zero => simp [bitsOf, Nat.mod_one]
  | succ width ih =>
    rw [bitsOf_succ, List.foldl_append, ih, List.foldl_cons, List.foldl_nil, Nat.testBit_zero, Nat.pow_succ]
    have half : n % (2 ^ width * 2) = 2 * (n / 2 % 2 ^ width) + n % 2 := by
      rw [Nat.mul_comm (2 ^ width) 2, Nat.mod_mul]
      omega
    have low : (decide (n % 2 = 1)).toNat = n % 2 := by
      rcases Nat.mod_two_eq_zero_or_one n with even | odd
      · simp [even]
      · simp [odd]
    rw [half, low, Nat.mul_add, Nat.mul_comm (2 ^ width) 2, Nat.mul_left_comm start, Nat.add_assoc]

theorem bitsOf_append (high low n : Nat) : bitsOf (high + low) n = bitsOf high (n / 2 ^ low) ++ bitsOf low n := by
  induction low generalizing n with
  | zero => simp [bitsOf]
  | succ low ih =>
    rw [← Nat.add_assoc, bitsOf_succ, ih, bitsOf_succ low, List.append_assoc, Nat.div_div_eq_div_mul, Nat.pow_succ,
      Nat.mul_comm 2]

end Bits

section Schedule
variable {block : Bits} {t : Nat}

theorem scheduleWord_first (first : t < 16) : scheduleWord block t = blockWord block t := by
  rw [scheduleWord, if_pos first]

theorem scheduleWord_next (block : Bits) (n : Nat) : scheduleWord block (16 + n) =
    smallSigma1 (scheduleWord block (14 + n)) + scheduleWord block (9 + n) + smallSigma0 (scheduleWord block (1 + n)) +
      scheduleWord block n := by
  have later : ¬ 16 + n < 16 := by omega
  have two : 16 + n - 2 = 14 + n := by omega
  have seven : 16 + n - 7 = 9 + n := by omega
  have fifteen : 16 + n - 15 = 1 + n := by omega
  have sixteen : 16 + n - 16 = n := by omega
  rw [scheduleWord, if_neg later, two, seven, fifteen, sixteen]

end Schedule

section Blocks

theorem blockAt_append {front back : Bits} {i : Nat} (inside : 512 * (i + 1) ≤ front.length) :
    blockAt (front ++ back) i = blockAt front i := by
  have rest : 512 ≤ (front.drop (512 * i)).length := by
    rw [List.length_drop]
    omega
  rw [blockAt, List.drop_append_of_le_length (by omega), List.take_append_of_le_length rest, blockAt]

theorem hashAfter_succ (padded : Bits) (n : Nat) :
    hashAfter padded (n + 1) = compress (hashAfter padded n) (blockAt padded n) := by
  rw [hashAfter, List.range_succ, List.foldl_append, List.foldl_cons, List.foldl_nil, ← hashAfter]

theorem hashAfter_append {front back : Bits} {n : Nat} (inside : 512 * n ≤ front.length) :
    hashAfter (front ++ back) n = hashAfter front n := by
  induction n with
  | zero => simp only [hashAfter, List.range_zero, List.foldl_nil]
  | succ n ih => rw [hashAfter_succ, hashAfter_succ, ih (by omega), blockAt_append inside]

end Blocks

section Padding

end Padding
end Sha2
