import Qito.Lib.Lists
import Mathlib.Data.FinEnum
import Mathlib.Data.Nat.Periodic
import Mathlib.Tactic.Common

/-! The random number generator of sys/env.c. What random_init gathers from the clocks
is a parameter of the calls that may have to seed the generator. -/
namespace Qito.Random

structure Generator where
  s0 : UInt64
  s1 : UInt64
  s2 : UInt64
  s3 : UInt64
  seeded : Bool
  generated : UInt64

def rotateLeft (value : UInt64) (count : UInt64) : UInt64 := (value <<< count) ||| (value >>> (64 - count))

/-- The result and the seed it leaves. -/
def splitmix64 (seed : UInt64) : UInt64 × UInt64 :=
  let seed := seed + 0x9E3779B97F4A7C15
  let result := (seed ^^^ (seed >>> 30)) * 0xBF58476D1CE4E5B9
  let result := (result ^^^ (result >>> 27)) * 0x94D049BB133111EB
  (result ^^^ (result >>> 31), seed)

def randomSeed (g : Generator) (seed : UInt64) : Generator :=
  let first := splitmix64 seed
  let second := splitmix64 first.2
  let third := splitmix64 second.2
  let fourth := splitmix64 third.2
  { g with s0 := first.1, s1 := second.1, s2 := third.1, s3 := fourth.1, seeded := true }

def randomU64 (entropy : UInt64) (g : Generator) : UInt64 × Generator :=
  let g := if g.seeded then g else randomSeed g entropy
  let result := rotateLeft (g.s1 * 5) 7 * 9
  let t := g.s1 <<< 17
  let s2 := g.s2 ^^^ g.s0
  let s3 := g.s3 ^^^ g.s1
  let s1 := g.s1 ^^^ s2
  let s0 := g.s0 ^^^ s3
  let s2 := s2 ^^^ t
  let s3 := rotateLeft s3 45
  (result, { g with s0 := s0, s1 := s1, s2 := s2, s3 := s3, generated := g.generated + 1 })

def randomU32 (entropy : UInt64) (g : Generator) : UInt32 × Generator :=
  ((randomU64 entropy g).1 >>> 32 |>.toUInt32, (randomU64 entropy g).2)

/-- (uint32_t)(-(int32_t)bound) % bound. -/
def threshold (bound : UInt32) : UInt32 := (0 - bound) % bound

/-- What one round of random_below returns for an output of the generator. -/
def belowRound (bound value : UInt32) : Option UInt32 := if value ≥ threshold bound then some (value % bound) else none

/-- The loop of random_below for so many rounds at most. -/
def belowLoop (entropy : UInt64) (bound : UInt32) : Nat → Generator → Option (UInt32 × Generator)
  | 0, _ => none
  | rounds + 1, g =>
    match belowRound bound (randomU32 entropy g).1 with
    | some value => some (value, (randomU32 entropy g).2)
    | none => belowLoop entropy bound rounds (randomU32 entropy g).2

def randomBelow (entropy : UInt64) (bound : UInt32) (rounds : Nat) (g : Generator) : Option (UInt32 × Generator) :=
  if bound = 0 then some (0, g) else belowLoop entropy bound rounds g

section Counting

theorem residues_card {b : Nat} (positive : 0 < b) (first rounds r : Nat) :
    ((Finset.Ico first (first + b * rounds)).filter fun v => v % b = r).card = if r < b then rounds else 0 := by
  have periodic : Function.Periodic (fun v => v % b = r) b := fun v => by simp only [Nat.add_mod_right]
  have once : Nat.count (fun v => v % b = r) b = if r < b then 1 else 0 := by
    rw [Nat.count_eq_card_filter_range]
    have low : (Finset.range b).filter (fun v => v % b = r) = if r < b then {r} else ∅ := by
      ext v
      split
      · rename_i inside
        simp only [Finset.mem_filter, Finset.mem_range, Finset.mem_singleton]
        constructor
        · rintro ⟨below, is⟩
          rwa [Nat.mod_eq_of_lt below] at is
        · rintro rfl
          exact ⟨inside, Nat.mod_eq_of_lt inside⟩
      · rename_i outside
        simp only [Finset.mem_filter, Finset.notMem_empty, iff_false]
        rintro ⟨-, is⟩
        exact outside (is ▸ Nat.mod_lt v positive)
    rw [low]
    split <;> rfl
  induction rounds with
  | zero => simp
  | succ rounds ih =>
    have parts : Finset.Ico first (first + b * (rounds + 1)) =
        Finset.Ico first (first + b * rounds) ∪ Finset.Ico (first + b * rounds) (first + b * rounds + b) := by
      rw [Finset.Ico_union_Ico_eq_Ico (by omega) (by omega), Nat.mul_add, Nat.mul_one, Nat.add_assoc]
    have apart : Disjoint (Finset.Ico first (first + b * rounds))
        (Finset.Ico (first + b * rounds) (first + b * rounds + b)) := Finset.Ico_disjoint_Ico_consecutive _ _ _
    rw [parts, Finset.filter_union, Finset.card_union_of_disjoint (Finset.disjoint_filter_filter apart), ih,
      Nat.filter_Ico_card_eq_of_periodic _ _ _ periodic, once]
    split <;> rfl

theorem threshold_toNat {bound : UInt32} (positive : 0 < bound) : (threshold bound).toNat = 2 ^ 32 % bound.toNat := by
  have low : 0 < bound.toNat := positive
  have high := bound.toNat_lt
  have negated : (0 - bound).toNat = 2 ^ 32 - bound.toNat := by
    rw [UInt32.toNat_sub]
    simp only [UInt32.toNat_zero, Nat.add_zero]
    omega
  rw [threshold, UInt32.toNat_mod, negated]
  exact (Nat.mod_eq_sub_mod (by omega)).symm

theorem belowRound_iff {bound : UInt32} (positive : 0 < bound) (value r : UInt32) :
    belowRound bound value = some r ↔ 2 ^ 32 % bound.toNat ≤ value.toNat ∧ value.toNat % bound.toNat = r.toNat := by
  unfold belowRound
  rw [← threshold_toNat positive, ← UInt32.toNat_mod, UInt32.toNat_inj]
  constructor
  · intro returned
    split at returned
    · exact ⟨‹_›, Option.some.inj returned⟩
    · exact absurd returned nofun
  · rintro ⟨late, is⟩
    rw [if_pos (show value ≥ threshold bound from late), is]

/-- The outputs accepted for a result. -/
def accepted (bound r : UInt32) : Finset UInt32 := Finset.univ.filter fun value => belowRound bound value = some r

theorem accepted_card {bound : UInt32} (positive : 0 < bound) (r : UInt32) :
    (accepted bound r).card = if r < bound then 2 ^ 32 / bound.toNat else 0 := by
  have low : 0 < bound.toNat := positive
  have limit := threshold_toNat positive
  have whole : 2 ^ 32 % bound.toNat + bound.toNat * (2 ^ 32 / bound.toNat) = 2 ^ 32 := Nat.mod_add_div _ _
  have count := residues_card low (2 ^ 32 % bound.toNat) (2 ^ 32 / bound.toNat) r.toNat
  rw [whole] at count
  have same : (accepted bound r).card =
      ((Finset.Ico (2 ^ 32 % bound.toNat) (2 ^ 32)).filter fun v => v % bound.toNat = r.toNat).card := by
    refine Finset.card_bij (fun value _ => value.toNat) ?_ (fun a _ b _ => UInt32.toNat_inj.mp) ?_
    · intro value member
      obtain ⟨late, is⟩ := (belowRound_iff positive value r).mp (Finset.mem_filter.mp member).2
      exact Finset.mem_filter.mpr ⟨Finset.mem_Ico.mpr ⟨late, value.toNat_lt⟩, is⟩
    · intro v member
      obtain ⟨inside, is⟩ := Finset.mem_filter.mp member
      obtain ⟨late, small⟩ := Finset.mem_Ico.mp inside
      have back : (UInt32.ofNat v).toNat = v := UInt32.toNat_ofNat_of_lt' small
      refine ⟨UInt32.ofNat v, Finset.mem_filter.mpr ⟨Finset.mem_univ _, (belowRound_iff positive _ r).mpr ?_⟩, back⟩
      rw [back]
      exact ⟨late, is⟩
  rw [same, count]
  rfl

end Counting

section Nonzero

theorem xorShift_zero {x k : UInt64} (low : 0 < k.toNat) (high : k.toNat < 64) (zero : x ^^^ (x >>> k) = 0) : x = 0 := by
  have same : x.toNat = x.toNat / 2 ^ k.toNat := by
    have equal := congrArg UInt64.toNat (UInt64.xor_eq_zero_iff.mp zero)
    rwa [UInt64.toNat_shiftRight, Nat.mod_eq_of_lt high, Nat.shiftRight_eq_div_pow] at equal
  apply UInt64.toNat_inj.mp
  by_contra some_
  have less := Nat.div_lt_self (Nat.pos_of_ne_zero some_) (Nat.one_lt_two_pow (Nat.ne_of_gt low))
  omega

theorem mul_zero_of_inverse {x c d : UInt64} (one : c * d = 1) (zero : x * c = 0) : x = 0 :=
  calc
    x = x * (c * d) := by rw [one, UInt64.mul_one]
    _ = x * c * d := (UInt64.mul_assoc _ _ _).symm
    _ = 0 := by rw [zero, UInt64.zero_mul]

theorem splitmix64_zero {seed : UInt64} (zero : (splitmix64 seed).1 = 0) : seed + 0x9E3779B97F4A7C15 = 0 := by
  have third := xorShift_zero (k := 31) (by decide) (by decide) zero
  have second := mul_zero_of_inverse (d := 3573116690164977347) (by decide) third
  have first := xorShift_zero (k := 27) (by decide) (by decide) second
  have start := mul_zero_of_inverse (d := 10871156337175269513) (by decide) first
  exact xorShift_zero (k := 30) (by decide) (by decide) start

/-- Some word of the state is not zero. -/
def Alive (g : Generator) : Prop := ¬ (g.s0 = 0 ∧ g.s1 = 0 ∧ g.s2 = 0 ∧ g.s3 = 0)

theorem randomSeed_alive (g : Generator) (seed : UInt64) : Alive (randomSeed g seed) := by
  rintro ⟨first, second, -, -⟩
  have a := splitmix64_zero first
  have b := splitmix64_zero second
  change seed + 0x9E3779B97F4A7C15 + 0x9E3779B97F4A7C15 = 0 at b
  rw [a] at b
  exact absurd b (by decide)

theorem rotateLeft_zero {x : UInt64} (zero : rotateLeft x 45 = 0) : x = 0 := by
  obtain ⟨up, down⟩ := UInt64.or_eq_zero_iff.mp zero
  have small := x.toNat_lt
  have high := congrArg UInt64.toNat up
  have low := congrArg UInt64.toNat down
  rw [UInt64.toNat_shiftLeft] at high
  rw [UInt64.toNat_shiftRight] at low
  change x.toNat <<< 45 % 2 ^ 64 = 0 at high
  change x.toNat >>> 19 = 0 at low
  rw [Nat.shiftLeft_eq] at high
  rw [Nat.shiftRight_eq_div_pow] at low
  apply UInt64.toNat_inj.mp
  change x.toNat = 0
  omega

theorem shift17_mul (x : UInt64) : x <<< 17 = x * 131072 := by
  apply UInt64.toNat_inj.mp
  rw [UInt64.toNat_shiftLeft, UInt64.toNat_mul, Nat.shiftLeft_eq]
  rfl

theorem shift17_fixed {x : UInt64} (fixed : x = x <<< 17) : x = 0 := by
  rw [shift17_mul] at fixed
  have zero : x * 131071 = 0 :=
    calc
      x * 131071 = x * (131072 - 1) := rfl
      _ = x * 131072 - x := by rw [UInt64.mul_sub, UInt64.mul_one]
      _ = 0 := by rw [← fixed, UInt64.sub_self]
  exact mul_zero_of_inverse (d := 18444492256715866111) (by decide) zero

theorem randomU64_alive (entropy : UInt64) {g : Generator} (alive : Alive g) : Alive (randomU64 entropy g).2 := by
  have seeded : Alive (if g.seeded then g else randomSeed g entropy) := by
    split
    · exact alive
    · exact randomSeed_alive g entropy
  generalize same : (if g.seeded then g else randomSeed g entropy) = h at seeded
  unfold randomU64
  rw [same]
  rintro ⟨zero0, zero1, zero2, zero3⟩
  have third : h.s3 ^^^ h.s1 = 0 := rotateLeft_zero zero3
  have first : h.s0 = 0 := by
    have sum : h.s0 ^^^ (h.s3 ^^^ h.s1) = 0 := zero0
    rwa [third, UInt64.xor_zero] at sum
  have second : h.s1 = h.s2 := by
    have sum : h.s1 ^^^ (h.s2 ^^^ h.s0) = 0 := zero1
    rw [first, UInt64.xor_zero] at sum
    exact UInt64.xor_eq_zero_iff.mp sum
  have shifted : h.s2 = h.s1 <<< 17 := by
    have sum : h.s2 ^^^ h.s0 ^^^ (h.s1 <<< 17) = 0 := zero2
    rw [first, UInt64.xor_zero] at sum
    exact UInt64.xor_eq_zero_iff.mp sum
  have still : h.s1 = 0 := shift17_fixed (second.trans shifted)
  exact seeded ⟨first, still, second ▸ still, (UInt64.xor_eq_zero_iff.mp third).trans still⟩

/-- The state after so many calls of random_u64. -/
def steps (entropy : UInt64) : Nat → Generator → Generator
  | 0, g => g
  | n + 1, g => steps entropy n (randomU64 entropy g).2

theorem steps_alive (entropy : UInt64) (n : Nat) {g : Generator} (alive : Alive g) : Alive (steps entropy n g) := by
  induction n generalizing g with
  | zero => exact alive
  | succ n ih => exact ih (randomU64_alive entropy alive)

end Nonzero

theorem belowLoop_lt {entropy : UInt64} {bound : UInt32} (positive : 0 < bound) {rounds : Nat} {g h : Generator} {r : UInt32}
    (returned : belowLoop entropy bound rounds g = some (r, h)) : r < bound := by
  induction rounds generalizing g with
  | zero => exact absurd returned nofun
  | succ rounds ih =>
    rw [belowLoop] at returned
    split at returned
    · rename_i value round
      obtain ⟨rfl, -⟩ := Prod.mk.inj (Option.some.inj returned)
      obtain ⟨-, is⟩ := (belowRound_iff positive _ _).mp round
      exact show value.toNat < bound.toNat from is ▸ Nat.mod_lt _ positive
    · exact ih returned

end Qito.Random
