import Qito.Lib.Lists
import Mathlib.Data.Nat.ModEq
import Mathlib.Tactic.Common

/-! Byte-addressed memory with little-endian words. A word access of k bytes is
a plain function of the bytes in its range, so every frame fact below is a
statement about two ranges being apart. -/
namespace ByteMemory

abbrev Memory := Nat → UInt8

/-- The k-byte little-endian word at an address. -/
@[grind =] def load (m : Memory) (a : Nat) : Nat → Nat
  | 0 => 0
  | k + 1 => (m a).toNat + 256 * load m (a + 1) k

@[grind =] def store (m : Memory) (a k v : Nat) : Memory :=
  fun x => if a ≤ x ∧ x < a + k then UInt8.ofNat (v / 256 ^ (x - a)) else m x

@[grind =] def fill (m : Memory) (a n : Nat) (b : UInt8) : Memory :=
  fun x => if a ≤ x ∧ x < a + n then b else m x

/-- Bytewise copy between ranges that do not overlap. -/
@[grind =] def copy (m : Memory) (dst src n : Nat) : Memory :=
  fun x => if dst ≤ x ∧ x < dst + n then m (src + (x - dst)) else m x

abbrev Apart (a n b k : Nat) : Prop := a + n ≤ b ∨ b + k ≤ a

theorem load_congr {m m' : Memory} {a k : Nat}
    (same : ∀ x, a ≤ x → x < a + k → m x = m' x) : load m a k = load m' a k := by
  induction k generalizing a with
  | zero => rfl
  | succ k ih =>
    have head : m a = m' a := same a (by omega) (by omega)
    have tail : load m (a + 1) k = load m' (a + 1) k :=
      ih (fun x lo hi => same x (by omega) (by omega))
    simp only [load, head, tail]

theorem load_byte (m : Memory) (a : Nat) {i k : Nat} (inside : i < k) : (m (a + i)).toNat = load m a k / 256 ^ i % 256 := by
  induction k generalizing a i with
  | zero => exact absurd inside (Nat.not_lt_zero i)
  | succ k ih =>
    have byte := (m a).toNat_lt
    cases i with
    | zero =>
      simp only [load, Nat.add_zero, Nat.pow_zero, Nat.div_one]
      omega
    | succ i =>
      have rest : load m a (k + 1) / 256 = load m (a + 1) k := by
        simp only [load]
        omega
      rw [Nat.pow_succ, Nat.mul_comm, ← Nat.div_div_eq_div_mul, rest, ← ih (a + 1) (Nat.lt_of_succ_lt_succ inside),
        Nat.add_assoc, Nat.add_comm 1 i]

theorem load_store_within (m : Memory) (a k v j i : Nat) (inside : j + i ≤ k) :
    load (store m a k v) (a + j) i = v / 256 ^ j % 256 ^ i := by
  induction i generalizing j with
  | zero => simp [load, Nat.mod_one]
  | succ i ih =>
    have tail := ih (j + 1) (by omega)
    have byte : (store m a k v (a + j)).toNat = v / 256 ^ j % 256 := by
      have here : a ≤ a + j ∧ a + j < a + k := by omega
      simp only [store, if_pos here, Nat.add_sub_cancel_left, UInt8.toNat_ofNat']
    have shift : v / 256 ^ (j + 1) = v / 256 ^ j / 256 := by
      rw [Nat.pow_succ, Nat.div_div_eq_div_mul]
    simp only [load, byte, Nat.add_assoc, tail, shift]
    rw [Nat.pow_succ, Nat.mul_comm (256 ^ i) 256, Nat.mod_mul]

theorem load_store_same (m : Memory) (a k v : Nat) :
    load (store m a k v) a k = v % 256 ^ k := by
  simpa using load_store_within m a k v 0 k (by omega)

theorem load_store_apart (m : Memory) {a k b i : Nat} (v : Nat) (apart : Apart a k b i) :
    load (store m a k v) b i = load m b i := by
  apply load_congr
  intro x lo hi
  have outside : ¬ (a ≤ x ∧ x < a + k) := by
    rcases apart with h | h <;> omega
  simp only [store, if_neg outside]

theorem load_copy_apart (m : Memory) {dst src n b i : Nat} (apart : Apart dst n b i) :
    load (copy m dst src n) b i = load m b i := by
  apply load_congr
  intro x lo hi
  have outside : ¬ (dst ≤ x ∧ x < dst + n) := by
    rcases apart with h | h <;> omega
  simp only [copy, if_neg outside]

theorem fill_append (m : Memory) (a k j : Nat) (b : UInt8) : fill (fill m a k b) (a + k) j b = fill m a (k + j) b := by
  funext x
  by_cases second : a + k ≤ x ∧ x < a + k + j
  · have inside : a ≤ x ∧ x < a + (k + j) := by omega
    simp only [fill, if_pos second, if_pos inside]
  · by_cases first : a ≤ x ∧ x < a + k
    · have inside : a ≤ x ∧ x < a + (k + j) := by omega
      simp only [fill, if_neg second, if_pos first, if_pos inside]
    · have outside : ¬ (a ≤ x ∧ x < a + (k + j)) := by omega
      simp only [fill, if_neg second, if_neg first, if_neg outside]

theorem fill_zero (m : Memory) (a : Nat) (b : UInt8) : fill m a 0 b = m := by
  funext x
  have outside : ¬ (a ≤ x ∧ x < a + 0) := by omega
  simp only [fill, if_neg outside]

theorem store_byte (m : Memory) (a : Nat) (b : UInt8) : store m a 1 b.toNat = fill m a 1 b := by
  funext x
  by_cases here : a ≤ x ∧ x < a + 1
  · have first : x - a = 0 := by omega
    simp only [store, fill, if_pos here, first, Nat.pow_zero, Nat.div_one, UInt8.ofNat_toNat]
  · simp only [store, fill, if_neg here]

theorem store_append (m : Memory) {a k j v w : Nat} (low : v < 256 ^ k) :
    store m a (k + j) (v + 256 ^ k * w) = store (store m a k v) (a + k) j w := by
  funext x
  by_cases second : a + k ≤ x ∧ x < a + k + j
  · have inside : a ≤ x ∧ x < a + (k + j) := by omega
    have place : x - a = k + (x - (a + k)) := by omega
    have whole : (v + 256 ^ k * w) / 256 ^ k = w := by
      rw [Nat.add_mul_div_left _ _ (Nat.pow_pos (by decide)), Nat.div_eq_of_lt low, Nat.zero_add]
    simp only [store, if_pos second, if_pos inside]
    rw [place, Nat.pow_add, ← Nat.div_div_eq_div_mul, whole]
  · by_cases first : a ≤ x ∧ x < a + k
    · have inside : a ≤ x ∧ x < a + (k + j) := by omega
      obtain ⟨r, above⟩ : ∃ r, k = x - a + (r + 1) := ⟨k - (x - a) - 1, by omega⟩
      have split : 256 ^ k * w = 256 ^ (x - a) * (256 * (256 ^ r * w)) := by
        have power : 256 ^ k = 256 ^ (x - a) * (256 * 256 ^ r) := by
          rw [← Nat.pow_succ', ← Nat.pow_add, ← above]
        rw [power, Nat.mul_assoc, Nat.mul_assoc]
      have byte : (v + 256 ^ k * w) / 256 ^ (x - a) % 256 = v / 256 ^ (x - a) % 256 := by
        rw [split, Nat.add_mul_div_left _ _ (Nat.pow_pos (by decide)), Nat.add_mul_mod_self_left]
      simp only [store, if_neg second, if_pos first, if_pos inside]
      apply UInt8.toNat_inj.mp
      rw [UInt8.toNat_ofNat', UInt8.toNat_ofNat', byte]
    · have outside : ¬ (a ≤ x ∧ x < a + (k + j)) := by omega
      simp only [store, if_neg second, if_neg first, if_neg outside]

/-- n words of k bytes, one after the other. -/
def fillWords (m : Memory) (a k n v : Nat) : Memory :=
  fun x => if a ≤ x ∧ x < a + k * n then UInt8.ofNat (v / 256 ^ ((x - a) % k)) else m x

theorem fillWords_succ (m : Memory) {a k : Nat} (n v : Nat) (wide : 0 < k) :
    fillWords (store m a k v) (a + k) k n v = fillWords m a k (n + 1) v := by
  funext x
  have size : k * (n + 1) = k * n + k := Nat.mul_succ k n
  by_cases first : a ≤ x ∧ x < a + k
  · have outside : ¬ (a + k ≤ x ∧ x < a + k + k * n) := by omega
    have inside : a ≤ x ∧ x < a + k * (n + 1) := by omega
    have place : (x - a) % k = x - a := Nat.mod_eq_of_lt (by omega)
    simp only [fillWords, store, if_neg outside, if_pos first, if_pos inside, place]
  · by_cases rest : a + k ≤ x ∧ x < a + k + k * n
    · have inside : a ≤ x ∧ x < a + k * (n + 1) := by omega
      have place : (x - a) % k = (x - (a + k)) % k := by
        have split : x - a = x - (a + k) + k := by omega
        rw [split, Nat.add_mod_right]
      simp only [fillWords, if_pos rest, if_pos inside, place]
    · have outside : ¬ (a ≤ x ∧ x < a + k * (n + 1)) := by omega
      simp only [fillWords, store, if_neg rest, if_neg first, if_neg outside]

theorem store_load (m : Memory) (d s k : Nat) : store m d k (load m s k) = copy m d s k := by
  funext x
  by_cases inside : d ≤ x ∧ x < d + k
  · have small : x - d < k := by omega
    have byte := load_byte m s small
    simp only [store, copy, if_pos inside]
    apply UInt8.toNat_inj.mp
    rw [UInt8.toNat_ofNat', byte]
  · simp only [store, copy, if_neg inside]

theorem copy_append (m : Memory) {d s k j : Nat} (order : d ≤ s ∨ s + (k + j) ≤ d) :
    copy (copy m d s k) (d + k) (s + k) j = copy m d s (k + j) := by
  funext x
  by_cases first : d ≤ x ∧ x < d + k
  · have outside : ¬ (d + k ≤ x ∧ x < d + k + j) := by omega
    have inside : d ≤ x ∧ x < d + (k + j) := by omega
    simp only [copy, if_neg outside, if_pos first, if_pos inside]
  · by_cases second : d + k ≤ x ∧ x < d + k + j
    · have inside : d ≤ x ∧ x < d + (k + j) := by omega
      have unread : ¬ (d ≤ s + (x - d) ∧ s + (x - d) < d + k) := by omega
      have place : s + k + (x - (d + k)) = s + (x - d) := by omega
      simp only [copy, if_pos second, place, if_neg unread, if_pos inside]
    · have outside : ¬ (d ≤ x ∧ x < d + (k + j)) := by omega
      simp only [copy, if_neg second, if_neg first, if_neg outside]

theorem copy_last (m : Memory) {d s : Nat} (n : Nat) (below : s ≤ d) :
    copy (copy m (d + n) (s + n) 1) d s n = copy m d s (n + 1) := by
  funext x
  by_cases first : d ≤ x ∧ x < d + n
  · have inside : d ≤ x ∧ x < d + (n + 1) := by omega
    have unwritten : ¬ (d + n ≤ s + (x - d) ∧ s + (x - d) < d + n + 1) := by omega
    simp only [copy, if_pos first, if_neg unwritten, if_pos inside]
  · by_cases last : d + n ≤ x ∧ x < d + n + 1
    · have inside : d ≤ x ∧ x < d + (n + 1) := by omega
      have place : s + n + (x - (d + n)) = s + (x - d) := by omega
      simp only [copy, if_neg first, if_pos last, if_pos inside, place]
    · have outside : ¬ (d ≤ x ∧ x < d + (n + 1)) := by omega
      simp only [copy, if_neg first, if_neg last, if_neg outside]

theorem copy_zero (m : Memory) (d s : Nat) : copy m d s 0 = m := by
  funext x
  have outside : ¬ (d ≤ x ∧ x < d + 0) := by omega
  simp only [copy, if_neg outside]

theorem copy_self (m : Memory) (a n : Nat) : copy m a a n = m := by
  funext x
  by_cases inside : a ≤ x ∧ x < a + n
  · have place : a + (x - a) = x := by omega
    simp only [copy, if_pos inside, place]
  · simp only [copy, if_neg inside]

end ByteMemory
