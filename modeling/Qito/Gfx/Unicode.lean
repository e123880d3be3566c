import Qito.Lib.Faults
import Qito.Lib.Signed
import Qito.Lib.Utf8

/-! The UTF-8 routines of gfx/unicode.c. A string is the bytes from its pointer to the
end of the object it lies in; a read behind them is a fault. -/
namespace Qito.Gfx

open Faults Signed Utf8

inductive Overread where
  | past
deriving DecidableEq

def byteAt (s : List UInt8) (i : Nat) : Except Overread Nat :=
  match s[i]? with
  | some b => .ok b.toNat
  | none => .error .past

/-- The number of bytes or -1, and *out_cp, which holds out before the call. -/
def utf8Decode (s : List UInt8) (out : Nat) : Except Overread (Int × Nat) := do
  let c0 ← byteAt s 0
  if c0 < 0x80 then pure (1, c0)
  else if c0 &&& 0xE0 = 0xC0 then
    let c1 ← byteAt s 1
    if c1 &&& 0xC0 ≠ 0x80 then pure (-1, out)
    else
      let cp := (c0 &&& 0x1F) <<< 6 ||| (c1 &&& 0x3F)
      if cp < 0x80 then pure (-1, cp) else pure (2, cp)
  else if c0 &&& 0xF0 = 0xE0 then
    let c1 ← byteAt s 1
    let c2 ← byteAt s 2
    if c1 &&& 0xC0 ≠ 0x80 ∨ c2 &&& 0xC0 ≠ 0x80 then pure (-1, out)
    else
      let cp := (c0 &&& 0x0F) <<< 12 ||| (c1 &&& 0x3F) <<< 6 ||| (c2 &&& 0x3F)
      if cp < 0x800 then pure (-1, cp)
      else if 0xD800 ≤ cp ∧ cp ≤ 0xDFFF then pure (-1, cp)
      else pure (3, cp)
  else if c0 &&& 0xF8 = 0xF0 then
    let c1 ← byteAt s 1
    let c2 ← byteAt s 2
    let c3 ← byteAt s 3
    if c1 &&& 0xC0 ≠ 0x80 ∨ c2 &&& 0xC0 ≠ 0x80 ∨ c3 &&& 0xC0 ≠ 0x80 then pure (-1, out)
    else
      let cp := (c0 &&& 0x07) <<< 18 ||| (c1 &&& 0x3F) <<< 12 ||| (c2 &&& 0x3F) <<< 6 ||| (c3 &&& 0x3F)
      if cp < 0x10000 ∨ cp > 0x10FFFF then pure (-1, cp) else pure (4, cp)
  else pure (-1, out)

/-- The bytes put to out; their number is the result. -/
def utf8Encode (cp : UInt32) : List UInt8 :=
  let cp := cp.toNat
  if cp < 0x80 then [UInt8.ofNat cp]
  else if cp < 0x800 then [UInt8.ofNat (0xC0 ||| cp >>> 6), UInt8.ofNat (0x80 ||| cp &&& 0x3F)]
  else if cp < 0x10000 then
    [UInt8.ofNat (0xE0 ||| cp >>> 12), UInt8.ofNat (0x80 ||| (cp >>> 6) &&& 0x3F), UInt8.ofNat (0x80 ||| cp &&& 0x3F)]
  else if cp ≤ 0x10FFFF then
    [UInt8.ofNat (0xF0 ||| cp >>> 18), UInt8.ofNat (0x80 ||| (cp >>> 12) &&& 0x3F),
      UInt8.ofNat (0x80 ||| (cp >>> 6) &&& 0x3F), UInt8.ofNat (0x80 ||| cp &&& 0x3F)]
  else []

/-- The walk of utf8_strlen, from len on; a byte that starts nothing counts for one. -/
def strlenFrom (len : Int) : List UInt8 → Except Overread Int
  | [] => .error .past
  | c :: cs =>
    if c = 0 then .ok len
    else
      match utf8Decode (c :: cs) 0 with
      | .error e => .error e
      | .ok (bytes, _) =>
        if bytes ≤ 0 then strlenFrom (int32 (len + 1)) cs
        else strlenFrom (int32 (len + 1)) (cs.drop (bytes.toNat - 1))
termination_by s => s.length

def utf8Strlen (s : List UInt8) : Except Overread Int := strlenFrom 0 s

def utf8IsValid : List UInt8 → Except Overread Bool
  | [] => .error .past
  | c :: cs =>
    if c = 0 then .ok true
    else
      match utf8Decode (c :: cs) 0 with
      | .error e => .error e
      | .ok (b, _) => if b ≤ 0 then .ok false else utf8IsValid (cs.drop (b.toNat - 1))
termination_by s => s.length

/-- The code points of successive calls, up to the terminator. -/
def codePoints : List UInt8 → Except Overread (List Nat)
  | [] => .error .past
  | c :: cs =>
    if c = 0 then .ok []
    else
      match utf8Decode (c :: cs) 0 with
      | .error e => .error e
      | .ok (b, cp) =>
        if b ≤ 0 then .ok [] else (codePoints (cs.drop (b.toNat - 1))).map (cp :: ·)
termination_by s => s.length

/-! The masks of the decoder as ranges and sums. -/
section Masks
variable {n : Nat}

set_option maxRecDepth 100000 in
theorem mask_two : ∀ n < 256, n &&& 0xE0 = 0xC0 ↔ 0xC0 ≤ n ∧ n < 0xE0 := by decide

set_option maxRecDepth 100000 in
theorem mask_three : ∀ n < 256, n &&& 0xF0 = 0xE0 ↔ 0xE0 ≤ n ∧ n < 0xF0 := by decide

set_option maxRecDepth 100000 in
theorem mask_four : ∀ n < 256, n &&& 0xF8 = 0xF0 ↔ 0xF0 ≤ n ∧ n < 0xF8 := by decide

set_option maxRecDepth 100000 in
theorem mask_tail : ∀ n < 256, n &&& 0xC0 = 0x80 ↔ 0x80 ≤ n ∧ n < 0xC0 := by decide

theorem low_three (n : Nat) : n &&& 0x07 = n % 8 := Nat.and_two_pow_sub_one_eq_mod n 3

theorem low_four (n : Nat) : n &&& 0x0F = n % 16 := Nat.and_two_pow_sub_one_eq_mod n 4

theorem low_five (n : Nat) : n &&& 0x1F = n % 32 := Nat.and_two_pow_sub_one_eq_mod n 5

theorem low_six (n : Nat) : n &&& 0x3F = n % 64 := Nat.and_two_pow_sub_one_eq_mod n 6

theorem join_six (a n : Nat) : a <<< 6 ||| n % 64 = a * 64 + n % 64 := by
  rw [← Nat.shiftLeft_add_eq_or_of_lt (Nat.mod_lt n (by decide) : n % 64 < 2 ^ 6), Nat.shiftLeft_eq]

theorem join_twelve (a m n : Nat) : a <<< 12 ||| (m % 64) <<< 6 ||| n % 64 = (a * 64 + m % 64) * 64 + n % 64 := by
  have high : a <<< 12 = (a <<< 6) <<< 6 := by rw [← Nat.shiftLeft_add]
  rw [high, ← Nat.shiftLeft_or_distrib, join_six, join_six]

theorem join_eighteen (a l m n : Nat) : a <<< 18 ||| (l % 64) <<< 12 ||| (m % 64) <<< 6 ||| n % 64 =
    ((a * 64 + l % 64) * 64 + m % 64) * 64 + n % 64 := by
  have high : a <<< 18 = (a <<< 6) <<< 12 := by rw [← Nat.shiftLeft_add]
  rw [high, ← Nat.shiftLeft_or_distrib, join_six, join_twelve]

end Masks

/-! One call of the decoder, class by class of the leading byte. -/
section Decoding
variable {b0 b1 b2 b3 : UInt8} {s : List UInt8} {out cp : Nat}

def Cont (b : UInt8) : Prop := 0x80 ≤ b.toNat ∧ b.toNat < 0xC0

instance (b : UInt8) : Decidable (Cont b) := inferInstanceAs (Decidable (_ ∧ _))

theorem cont_mask (b : UInt8) : b.toNat &&& 0xC0 = 0x80 ↔ Cont b := mask_tail b.toNat b.toNat_lt

@[simp] theorem byteAt_nil (i : Nat) : byteAt [] i = .error .past := rfl

@[simp] theorem byteAt_zero : byteAt (b0 :: s) 0 = pure b0.toNat := rfl

@[simp] theorem byteAt_one : byteAt (b0 :: s) 1 = byteAt s 0 := rfl

@[simp] theorem byteAt_two : byteAt (b0 :: s) 2 = byteAt s 1 := rfl

@[simp] theorem byteAt_three : byteAt (b0 :: s) 3 = byteAt s 2 := rfl

theorem decode_one (small : b0.toNat < 0x80) : utf8Decode (b0 :: s) out = .ok (1, b0.toNat) := by
  simp only [utf8Decode, byteAt_zero, pure_bind, if_pos small]
  rfl

theorem decode_stray (stray : 0x80 ≤ b0.toNat ∧ b0.toNat < 0xC0 ∨ 0xF8 ≤ b0.toNat) :
    utf8Decode (b0 :: s) out = .ok (-1, out) := by
  have byte := b0.toNat_lt
  have one : ¬ b0.toNat < 0x80 := by omega
  have two : ¬ b0.toNat &&& 0xE0 = 0xC0 := by rw [mask_two _ byte]; omega
  have three : ¬ b0.toNat &&& 0xF0 = 0xE0 := by rw [mask_three _ byte]; omega
  have four : ¬ b0.toNat &&& 0xF8 = 0xF0 := by rw [mask_four _ byte]; omega
  simp only [utf8Decode, byteAt_zero, pure_bind, if_neg one, if_neg two, if_neg three, if_neg four]
  rfl

section Two
variable (low : 0xC0 ≤ b0.toNat) (high : b0.toNat < 0xE0)
include low high

theorem decode_two_reads : utf8Decode (b0 :: s) out = (do
    let c1 ← byteAt s 0
    if c1 &&& 0xC0 ≠ 0x80 then pure (-1, out)
    else
      let cp := b0.toNat % 32 * 64 + c1 % 64
      if cp < 0x80 then pure (-1, cp) else pure (2, cp)) := by
  have one : ¬ b0.toNat < 0x80 := by omega
  have two : b0.toNat &&& 0xE0 = 0xC0 := (mask_two _ b0.toNat_lt).mpr ⟨low, high⟩
  simp only [utf8Decode, byteAt_zero, byteAt_one, pure_bind, if_neg one, if_pos two, low_five, low_six, join_six]

theorem decode_two_broken (broken : ¬ Cont b1) : utf8Decode (b0 :: b1 :: s) out = .ok (-1, out) := by
  simp only [decode_two_reads low high, byteAt_zero, pure_bind, cont_mask, ne_eq, if_pos broken]
  rfl

theorem decode_two (next : Cont b1) (value : cp = b0.toNat % 32 * 64 + b1.toNat % 64) :
    utf8Decode (b0 :: b1 :: s) out = .ok (if cp < 0x80 then (-1, cp) else (2, cp)) := by
  simp only [decode_two_reads low high, byteAt_zero, pure_bind, cont_mask, ne_eq, if_neg (not_not.mpr next), ← value]
  split <;> rfl

end Two

section Three
variable (low : 0xE0 ≤ b0.toNat) (high : b0.toNat < 0xF0)
include low high

theorem decode_three_reads : utf8Decode (b0 :: s) out = (do
    let c1 ← byteAt s 0
    let c2 ← byteAt s 1
    if c1 &&& 0xC0 ≠ 0x80 ∨ c2 &&& 0xC0 ≠ 0x80 then pure (-1, out)
    else
      let cp := (b0.toNat % 16 * 64 + c1 % 64) * 64 + c2 % 64
      if cp < 0x800 then pure (-1, cp)
      else if 0xD800 ≤ cp ∧ cp ≤ 0xDFFF then pure (-1, cp)
      else pure (3, cp)) := by
  have byte := b0.toNat_lt
  have one : ¬ b0.toNat < 0x80 := by omega
  have two : ¬ b0.toNat &&& 0xE0 = 0xC0 := by rw [mask_two _ byte]; omega
  have three : b0.toNat &&& 0xF0 = 0xE0 := (mask_three _ byte).mpr ⟨low, high⟩
  simp only [utf8Decode, byteAt_zero, byteAt_one, byteAt_two, pure_bind, if_neg one, if_neg two, if_pos three,
    low_four, low_six, join_twelve]

theorem decode_three_broken (broken : ¬ (Cont b1 ∧ Cont b2)) :
    utf8Decode (b0 :: b1 :: b2 :: s) out = .ok (-1, out) := by
  rw [not_and_or] at broken
  simp only [decode_three_reads low high, byteAt_zero, byteAt_one, pure_bind, cont_mask, ne_eq, if_pos broken]
  rfl

theorem decode_three (next : Cont b1) (last : Cont b2)
    (value : cp = (b0.toNat % 16 * 64 + b1.toNat % 64) * 64 + b2.toNat % 64) :
    utf8Decode (b0 :: b1 :: b2 :: s) out =
      .ok (if cp < 0x800 then (-1, cp) else if 0xD800 ≤ cp ∧ cp ≤ 0xDFFF then (-1, cp) else (3, cp)) := by
  have whole : ¬ (¬ Cont b1 ∨ ¬ Cont b2) := by simp only [not_or, not_not]; exact ⟨next, last⟩
  simp only [decode_three_reads low high, byteAt_zero, byteAt_one, pure_bind, cont_mask, ne_eq, if_neg whole, ← value]
  split_ifs <;> rfl

end Three

section Four
variable (low : 0xF0 ≤ b0.toNat) (high : b0.toNat < 0xF8)
include low high

theorem decode_four_reads : utf8Decode (b0 :: s) out = (do
    let c1 ← byteAt s 0
    let c2 ← byteAt s 1
    let c3 ← byteAt s 2
    if c1 &&& 0xC0 ≠ 0x80 ∨ c2 &&& 0xC0 ≠ 0x80 ∨ c3 &&& 0xC0 ≠ 0x80 then pure (-1, out)
    else
      let cp := ((b0.toNat % 8 * 64 + c1 % 64) * 64 + c2 % 64) * 64 + c3 % 64
      if cp < 0x10000 ∨ cp > 0x10FFFF then pure (-1, cp) else pure (4, cp)) := by
  have byte := b0.toNat_lt
  have one : ¬ b0.toNat < 0x80 := by omega
  have two : ¬ b0.toNat &&& 0xE0 = 0xC0 := by rw [mask_two _ byte]; omega
  have three : ¬ b0.toNat &&& 0xF0 = 0xE0 := by rw [mask_three _ byte]; omega
  have four : b0.toNat &&& 0xF8 = 0xF0 := (mask_four _ byte).mpr ⟨low, high⟩
  simp only [utf8Decode, byteAt_zero, byteAt_one, byteAt_two, byteAt_three, pure_bind, if_neg one, if_neg two,
    if_neg three, if_pos four, low_three, low_six, join_eighteen]

theorem decode_four_broken (broken : ¬ (Cont b1 ∧ Cont b2 ∧ Cont b3)) :
    utf8Decode (b0 :: b1 :: b2 :: b3 :: s) out = .ok (-1, out) := by
  rw [not_and_or, not_and_or] at broken
  simp only [decode_four_reads low high, byteAt_zero, byteAt_one, byteAt_two, pure_bind, cont_mask, ne_eq, if_pos broken]
  rfl

theorem decode_four (second : Cont b1) (third : Cont b2) (last : Cont b3)
    (value : cp = ((b0.toNat % 8 * 64 + b1.toNat % 64) * 64 + b2.toNat % 64) * 64 + b3.toNat % 64) :
    utf8Decode (b0 :: b1 :: b2 :: b3 :: s) out =
      .ok (if cp < 0x10000 ∨ cp > 0x10FFFF then (-1, cp) else (4, cp)) := by
  have whole : ¬ (¬ Cont b1 ∨ ¬ Cont b2 ∨ ¬ Cont b3) := by
    simp only [not_or, not_not]
    exact ⟨second, third, last⟩
  simp only [decode_four_reads low high, byteAt_zero, byteAt_one, byteAt_two, pure_bind, cont_mask, ne_eq, if_neg whole, ← value]
  split_ifs <;> rfl

end Four
end Decoding

/-! The decoder against the standard. -/
section Standard
variable {s : List UInt8} {out : Nat}

theorem tail_cont (c : Nat) : Cont (tail c) := by
  have low := Nat.mod_lt c (by decide : 0 < 64)
  rw [Cont, tail_toNat]
  omega

theorem tail_low (c : Nat) : (tail c).toNat % 64 = c % 64 := by
  rw [tail_toNat]
  omega

theorem tail_of {b : UInt8} {c : Nat} (cont : Cont b) (low : c % 64 = b.toNat % 64) : tail c = b := by
  obtain ⟨above, below⟩ := cont
  apply UInt8.toNat_inj.mp
  rw [tail_toNat, low]
  omega

theorem lead_toNat {n : Nat} (small : n < 256) : (UInt8.ofNat n).toNat = n :=
  UInt8.toNat_ofNat_of_lt' small

theorem lead_of {b : UInt8} {n : Nat} (same : n = b.toNat) : UInt8.ofNat n = b := by
  rw [same, UInt8.ofNat_toNat]

theorem decode_units {c : Nat} (scalar : Scalar c) : utf8Decode (units c ++ s) out = .ok ((units c).length, c) := by
  unfold Scalar at scalar
  unfold units
  split_ifs with one two three
  · have lead := lead_toNat (n := c) (by omega)
    rw [List.singleton_append, decode_one (by omega), lead]
    rfl
  · have lead := lead_toNat (n := 0xC0 + c / 64) (by omega)
    have value : c = (UInt8.ofNat (0xC0 + c / 64)).toNat % 32 * 64 + (tail c).toNat % 64 := by
      rw [lead, tail_low]
      omega
    rw [List.cons_append, List.singleton_append, decode_two (by omega) (by omega) (tail_cont c) value, if_neg one]
    rfl
  · have lead := lead_toNat (n := 0xE0 + c / 4096) (by omega)
    have value : c = ((UInt8.ofNat (0xE0 + c / 4096)).toNat % 16 * 64 + (tail (c / 64)).toNat % 64) * 64 +
        (tail c).toNat % 64 := by
      rw [lead, tail_low, tail_low]
      omega
    have surrogate : ¬ (0xD800 ≤ c ∧ c ≤ 0xDFFF) := by omega
    simp only [List.cons_append, List.nil_append]
    rw [decode_three (by omega) (by omega) (tail_cont _) (tail_cont c) value, if_neg two, if_neg surrogate]
    rfl
  · have lead := lead_toNat (n := 0xF0 + c / 262144) (by omega)
    have value : c = (((UInt8.ofNat (0xF0 + c / 262144)).toNat % 8 * 64 + (tail (c / 4096)).toNat % 64) * 64 +
        (tail (c / 64)).toNat % 64) * 64 + (tail c).toNat % 64 := by
      rw [lead, tail_low, tail_low, tail_low]
      omega
    have range : ¬ (c < 0x10000 ∨ c > 0x10FFFF) := by omega
    simp only [List.cons_append, List.nil_append]
    rw [decode_four (by omega) (by omega) (tail_cont _) (tail_cont _) (tail_cont c) value, if_neg range]
    rfl

/-- What one call does with a string: it reads behind the object, it refuses, or the
string starts with the bytes of the scalar value it returns. -/
inductive Step (s : List UInt8) : Except Overread (Int × Nat) → Prop
  | fault : Step s (.error .past)
  | refuse (cp : Nat) : Step s (.ok (-1, cp))
  | accept (cp : Nat) (rest : List UInt8) : Scalar cp → s = units cp ++ rest → Step s (.ok ((units cp).length, cp))

theorem step_two {b0 b1 : UInt8} (low : 0xC0 ≤ b0.toNat) (high : b0.toNat < 0xE0) (next : Cont b1) :
    Step (b0 :: b1 :: s) (utf8Decode (b0 :: b1 :: s) out) := by
  obtain ⟨cp, value⟩ : ∃ cp, cp = b0.toNat % 32 * 64 + b1.toNat % 64 := ⟨_, rfl⟩
  rw [decode_two low high next value]
  split
  · exact .refuse cp
  · rename_i long
    have bytes : units cp = [b0, b1] := by
      have lead : 0xC0 + cp / 64 = b0.toNat := by omega
      unfold units
      rw [if_neg long, if_pos (by omega), lead_of lead, tail_of next (by omega)]
    have two : (2 : Int) = (units cp).length := by rw [bytes]; rfl
    rw [two]
    exact .accept cp s (.inl (by omega)) (by rw [bytes]; rfl)

theorem step_three {b0 b1 b2 : UInt8} (low : 0xE0 ≤ b0.toNat) (high : b0.toNat < 0xF0) (next : Cont b1) (last : Cont b2) :
    Step (b0 :: b1 :: b2 :: s) (utf8Decode (b0 :: b1 :: b2 :: s) out) := by
  obtain ⟨cp, value⟩ : ∃ cp, cp = (b0.toNat % 16 * 64 + b1.toNat % 64) * 64 + b2.toNat % 64 := ⟨_, rfl⟩
  rw [decode_three low high next last value]
  split_ifs with short surrogate
  · exact .refuse cp
  · exact .refuse cp
  · have bytes : units cp = [b0, b1, b2] := by
      have lead : 0xE0 + cp / 4096 = b0.toNat := by omega
      unfold units
      rw [if_neg (by omega), if_neg short, if_pos (by omega), lead_of lead, tail_of next (by omega), tail_of last (by omega)]
    have three : (3 : Int) = (units cp).length := by rw [bytes]; rfl
    have scalar : Scalar cp := by unfold Scalar; omega
    rw [three]
    exact .accept cp s scalar (by rw [bytes]; rfl)

theorem step_four {b0 b1 b2 b3 : UInt8} (low : 0xF0 ≤ b0.toNat) (high : b0.toNat < 0xF8) (second : Cont b1)
    (third : Cont b2) (last : Cont b3) :
    Step (b0 :: b1 :: b2 :: b3 :: s) (utf8Decode (b0 :: b1 :: b2 :: b3 :: s) out) := by
  obtain ⟨cp, value⟩ : ∃ cp, cp = ((b0.toNat % 8 * 64 + b1.toNat % 64) * 64 + b2.toNat % 64) * 64 + b3.toNat % 64 :=
    ⟨_, rfl⟩
  rw [decode_four low high second third last value]
  split_ifs with beyond
  · exact .refuse cp
  · have bytes : units cp = [b0, b1, b2, b3] := by
      have lead : 0xF0 + cp / 262144 = b0.toNat := by omega
      unfold units
      rw [if_neg (by omega), if_neg (by omega), if_neg (by omega), lead_of lead, tail_of second (by omega),
        tail_of third (by omega), tail_of last (by omega)]
    have four : (4 : Int) = (units cp).length := by rw [bytes]; rfl
    have scalar : Scalar cp := by unfold Scalar; omega
    rw [four]
    exact .accept cp s scalar (by rw [bytes]; rfl)

theorem decode_step (s : List UInt8) (out : Nat) : Step s (utf8Decode s out) := by
  rcases s with _ | ⟨b0, s⟩
  · exact .fault
  by_cases one : b0.toNat < 0x80
  · have bytes : units b0.toNat = [b0] := by rw [units, if_pos one, UInt8.ofNat_toNat]
    have count : (1 : Int) = (units b0.toNat).length := by rw [bytes]; rfl
    rw [decode_one one, count]
    exact .accept b0.toNat s (.inl (by omega)) (by rw [bytes]; rfl)
  by_cases stray : b0.toNat < 0xC0 ∨ 0xF8 ≤ b0.toNat
  · rw [decode_stray (by omega)]
    exact .refuse out
  by_cases two : b0.toNat < 0xE0
  · rcases s with _ | ⟨b1, s⟩
    · rw [decode_two_reads (by omega) two]
      exact .fault
    by_cases next : Cont b1
    · exact step_two (by omega) two next
    · rw [decode_two_broken (by omega) two next]
      exact .refuse out
  by_cases three : b0.toNat < 0xF0
  · rcases s with _ | ⟨b1, _ | ⟨b2, s⟩⟩
    · rw [decode_three_reads (by omega) three]
      exact .fault
    · rw [decode_three_reads (by omega) three]
      exact .fault
    by_cases next : Cont b1 ∧ Cont b2
    · exact step_three (by omega) three next.1 next.2
    · rw [decode_three_broken (by omega) three next]
      exact .refuse out
  · rcases s with _ | ⟨b1, _ | ⟨b2, _ | ⟨b3, s⟩⟩⟩
    · rw [decode_four_reads (by omega) (by omega)]
      exact .fault
    · rw [decode_four_reads (by omega) (by omega)]
      exact .fault
    · rw [decode_four_reads (by omega) (by omega)]
      exact .fault
    by_cases next : Cont b1 ∧ Cont b2 ∧ Cont b3
    · exact step_four (by omega) (by omega) next.1 next.2.1 next.2.2
    · rw [decode_four_broken (by omega) (by omega) next]
      exact .refuse out

theorem returned (a : Int × Nat) : (pure a : Except Overread (Int × Nat)) ≠ .error .past := by
  intro same
  cases same

/-- The decoder reads behind the object when the leading byte asks for more than there is. -/
theorem decode_fault {b0 : UInt8} : utf8Decode (b0 :: s) out = .error .past ↔
    0xC0 ≤ b0.toNat ∧ b0.toNat < 0xE0 ∧ s.length < 1 ∨ 0xE0 ≤ b0.toNat ∧ b0.toNat < 0xF0 ∧ s.length < 2 ∨
      0xF0 ≤ b0.toNat ∧ b0.toNat < 0xF8 ∧ s.length < 3 := by
  by_cases one : b0.toNat < 0x80
  · rw [decode_one one]
    exact ⟨fun run => absurd run (returned _), fun lead => by omega⟩
  by_cases stray : b0.toNat < 0xC0 ∨ 0xF8 ≤ b0.toNat
  · rw [decode_stray (by omega)]
    exact ⟨fun run => absurd run (returned _), fun lead => by omega⟩
  by_cases two : b0.toNat < 0xE0
  · rw [decode_two_reads (by omega) two]
    rcases s with _ | ⟨b1, s⟩
    · exact ⟨fun _ => .inl ⟨by omega, two, Nat.one_pos⟩, fun _ => rfl⟩
    · simp only [byteAt_zero, pure_bind, List.length_cons]
      refine ⟨fun run => ?_, fun lead => by omega⟩
      split_ifs at run <;> exact absurd run (returned _)
  by_cases three : b0.toNat < 0xF0
  · rw [decode_three_reads (by omega) three]
    rcases s with _ | ⟨b1, _ | ⟨b2, s⟩⟩
    · exact ⟨fun _ => .inr (.inl ⟨by omega, three, by decide⟩), fun _ => rfl⟩
    · exact ⟨fun _ => .inr (.inl ⟨by omega, three, Nat.lt_succ_self 1⟩), fun _ => rfl⟩
    · simp only [byteAt_zero, byteAt_one, pure_bind, List.length_cons]
      refine ⟨fun run => ?_, fun lead => by omega⟩
      split_ifs at run <;> exact absurd run (returned _)
  · rw [decode_four_reads (by omega) (by omega)]
    rcases s with _ | ⟨b1, _ | ⟨b2, _ | ⟨b3, s⟩⟩⟩
    · exact ⟨fun _ => .inr (.inr ⟨by omega, by omega, by decide⟩), fun _ => rfl⟩
    · exact ⟨fun _ => .inr (.inr ⟨by omega, by omega, Nat.lt_of_sub_eq_succ rfl⟩), fun _ => rfl⟩
    · exact ⟨fun _ => .inr (.inr ⟨by omega, by omega, Nat.lt_succ_self 2⟩), fun _ => rfl⟩
    · simp only [byteAt_zero, byteAt_one, byteAt_two, pure_bind, List.length_cons]
      refine ⟨fun run => ?_, fun lead => by omega⟩
      split_ifs at run <;> exact absurd run (returned _)

theorem units_plain {c : Nat} (scalar : Scalar c) (some : c ≠ 0) : 0 ∉ units c := by
  have tails (n : Nat) : (0 : UInt8) ≠ tail n := by
    intro same
    have value := congrArg UInt8.toNat same
    rw [tail_toNat] at value
    exact absurd value (by simp only [UInt8.toNat_zero]; omega)
  have lead {n : Nat} (pos : 0 < n) (small : n < 256) : (0 : UInt8) ≠ UInt8.ofNat n := by
    intro same
    have value := congrArg UInt8.toNat same
    rw [lead_toNat small] at value
    exact absurd value (Nat.ne_of_lt pos)
  unfold Scalar at scalar
  unfold units
  split_ifs
  · simp only [List.mem_singleton]
    exact lead (by omega) (by omega)
  · simp only [List.mem_cons, List.not_mem_nil, or_false, not_or]
    exact ⟨lead (by omega) (by omega), tails _⟩
  · simp only [List.mem_cons, List.not_mem_nil, or_false, not_or]
    exact ⟨lead (by omega) (by omega), tails _, tails _⟩
  · simp only [List.mem_cons, List.not_mem_nil, or_false, not_or]
    exact ⟨lead (by omega) (by omega), tails _, tails _, tails _⟩

theorem units_append {c d : Nat} {a b : List UInt8} (first : Scalar c) (second : Scalar d)
    (same : units c ++ a = units d ++ b) : c = d ∧ a = b := by
  have run : utf8Decode (units c ++ a) 0 = .ok ((units c).length, c) := decode_units first
  rw [same, decode_units second] at run
  have value : d = c := congrArg Prod.snd (Except.ok.inj run)
  subst value
  exact ⟨rfl, List.append_cancel_left same⟩

theorem text_units {c : Nat} {cs : List Nat} {t : List UInt8} (scalar : Scalar c) :
    Encodes cs (units c ++ t) ↔ ∃ cs', cs = c :: cs' ∧ Encodes cs' t := by
  constructor
  · rintro ⟨scalars, same⟩
    cases cs with
    | nil =>
      have long := units_length_pos c
      have short := congrArg List.length same
      rw [List.length_append, List.flatMap_nil, List.length_nil] at short
      omega
    | cons c' cs =>
      rw [List.flatMap_cons] at same
      obtain ⟨rfl, rest⟩ := units_append scalar (scalars c' List.mem_cons_self) same
      exact ⟨cs, rfl, fun d member => scalars d (List.mem_cons_of_mem _ member), rest⟩
  · rintro ⟨cs', rfl, scalars, same⟩
    exact ⟨List.forall_mem_cons.mpr ⟨scalar, scalars⟩, by rw [List.flatMap_cons, same]⟩

theorem wellFormed_units {c : Nat} {t : List UInt8} (scalar : Scalar c) : WellFormed (units c ++ t) ↔ WellFormed t := by
  constructor
  · rintro ⟨cs, text⟩
    obtain ⟨cs', _, rest⟩ := (text_units scalar).mp text
    exact ⟨cs', rest⟩
  · rintro ⟨cs, text⟩
    exact ⟨c :: cs, (text_units scalar).mpr ⟨cs, rfl, text⟩⟩

/-- A leading byte of three or four with fewer than two or three bytes up to the end:
the decoder reads them all before it looks at the first. -/
def Truncated : List UInt8 → Prop
  | [] => False
  | b0 :: s => 0xE0 ≤ b0.toNat ∧ b0.toNat < 0xF0 ∧ s.length < 1 ∨ 0xF0 ≤ b0.toNat ∧ b0.toNat < 0xF8 ∧ s.length < 2

/-- Behind well-formed bytes the string breaks off inside a sequence of three or four. -/
def Cut (t : List UInt8) : Prop := ∃ front u, WellFormed front ∧ Truncated u ∧ t = front ++ u

theorem truncated_fault {u : List UInt8} (cut : Truncated u) : utf8Decode u out = .error .past := by
  cases u with
  | nil => exact False.elim cut
  | cons b0 s =>
    unfold Truncated at cut
    exact decode_fault.mpr (by omega)

theorem cut_units {c : Nat} {t : List UInt8} (scalar : Scalar c) : Cut (units c ++ t) ↔ Cut t := by
  constructor
  · rintro ⟨front, u, ⟨cs, scalars, same⟩, cut, split⟩
    cases cs with
    | nil =>
      rw [same, List.flatMap_nil, List.nil_append] at split
      have fault : utf8Decode u 0 = .error .past := truncated_fault cut
      rw [← split, decode_units scalar] at fault
      exact absurd fault (returned _)
    | cons c' cs =>
      rw [same, List.flatMap_cons, List.append_assoc] at split
      obtain ⟨_, rest⟩ := units_append scalar (scalars c' List.mem_cons_self) split
      exact ⟨cs.flatMap units, u, ⟨cs, fun d member => scalars d (List.mem_cons_of_mem _ member), rfl⟩, cut, rest⟩
  · rintro ⟨front, u, formed, cut, rfl⟩
    exact ⟨units c ++ front, u, (wellFormed_units scalar).mpr formed, cut, (List.append_assoc _ _ _).symm⟩

theorem decode_head {c : Nat} (scalar : Scalar c) (some : c ≠ 0) (s : List UInt8) : ∃ b bs, units c = b :: bs ∧
    b ≠ 0 ∧ utf8Decode (b :: (bs ++ s)) 0 = .ok ((bs.length + 1 : Nat), c) := by
  have plain := units_plain scalar some
  have long := units_length_pos c
  have run : utf8Decode (units c ++ s) 0 = .ok ((units c).length, c) := decode_units scalar
  cases bytes : units c with
  | nil =>
    rw [bytes] at long
    exact absurd long (Nat.lt_irrefl 0)
  | cons b bs =>
    rw [bytes] at plain run
    exact ⟨b, bs, rfl, fun zero => plain (zero ▸ List.mem_cons_self), run⟩

end Standard

/-! The walks over a string, one scalar value at a time. -/
section Walks
variable {c : Nat} {s : List UInt8}

theorem advances (n : Nat) : ¬ ((n + 1 : Nat) : Int) ≤ 0 := by omega

theorem valid_accept (scalar : Scalar c) (some : c ≠ 0) :
    utf8IsValid (units c ++ s) = utf8IsValid s := by
  obtain ⟨b, bs, bytes, plain, run⟩ := decode_head scalar some s
  rw [bytes, List.cons_append, utf8IsValid, if_neg plain, run]
  simp only [if_neg (advances bs.length), Int.toNat_natCast, Nat.add_sub_cancel, List.drop_left]

theorem strlen_accept (len : Int) (scalar : Scalar c) (some : c ≠ 0) :
    strlenFrom len (units c ++ s) = strlenFrom (int32 (len + 1)) s := by
  obtain ⟨b, bs, bytes, plain, run⟩ := decode_head scalar some s
  rw [bytes, List.cons_append, strlenFrom, if_neg plain, run]
  simp only [if_neg (advances bs.length), Int.toNat_natCast, Nat.add_sub_cancel, List.drop_left]

theorem points_accept (scalar : Scalar c) (some : c ≠ 0) :
    codePoints (units c ++ s) = (codePoints s).map (c :: ·) := by
  obtain ⟨b, bs, bytes, plain, run⟩ := decode_head scalar some s
  rw [bytes, List.cons_append, codePoints, if_neg plain, run]
  simp only [if_neg (advances bs.length), Int.toNat_natCast, Nat.add_sub_cancel, List.drop_left]

theorem text_plain {cs : List Nat} {t : List UInt8} (text : Encodes (c :: cs) t) (plain : 0 ∉ t) :
    ∃ t', t = units c ++ t' ∧ Scalar c ∧ c ≠ 0 ∧ Encodes cs t' ∧ 0 ∉ t' := by
  obtain ⟨scalars, same⟩ := text
  rw [List.flatMap_cons] at same
  refine ⟨cs.flatMap units, same, scalars c List.mem_cons_self, ?_,
    ⟨fun d member => scalars d (List.mem_cons_of_mem _ member), rfl⟩, ?_⟩
  · rintro rfl
    exact plain (same ▸ List.mem_append_left _ List.mem_cons_self)
  · exact fun member => plain (same ▸ List.mem_append_right _ member)

theorem int32_step {len : Int} (n : Nat) : int32 (int32 (len + 1) + n) = int32 (len + (n + 1 : Nat)) := by
  unfold int32
  rw [Int.bmod_add_bmod]
  congr 1
  omega

theorem text_walks {cs : List Nat} {t : List UInt8} (rest : List UInt8) (len : Int) (text : Encodes cs t) (plain : 0 ∉ t)
    (reduced : int32 len = len) : utf8IsValid (t ++ 0 :: rest) = .ok true ∧
      strlenFrom len (t ++ 0 :: rest) = .ok (int32 (len + cs.length)) ∧ codePoints (t ++ 0 :: rest) = .ok cs := by
  induction cs generalizing t len with
  | nil =>
    obtain ⟨_, rfl⟩ := text
    simp [utf8IsValid, strlenFrom, codePoints, reduced]
  | cons c cs ih =>
    obtain ⟨t', rfl, scalar, some, text', plain'⟩ := text_plain text plain
    have reduced' : int32 (int32 (len + 1)) = int32 (len + 1) := Int.bmod_bmod
    obtain ⟨valid, strlen, points⟩ := ih (int32 (len + 1)) text' plain' reduced'
    rw [List.append_assoc, valid_accept scalar some, strlen_accept len scalar some, points_accept scalar some, valid,
      strlen, points, int32_step]
    exact ⟨rfl, rfl, rfl⟩

theorem accept_within {t rest r : List UInt8} {b : UInt8} (plain : 0 ∉ b :: t) (scalar : Scalar c)
    (same : b :: t ++ 0 :: rest = units c ++ r) : c ≠ 0 ∧ ∃ t', b :: t = units c ++ t' ∧ r = t' ++ 0 :: rest := by
  have some : c ≠ 0 := by
    rintro rfl
    have head : b = 0 := (List.cons.inj same).1
    exact plain (head ▸ List.mem_cons_self)
  refine ⟨some, ?_⟩
  rcases List.append_eq_append_iff.mp same with ⟨a, bytes, rest'⟩ | ⟨a, whole, behind⟩
  · cases a with
    | nil => exact ⟨[], by rw [bytes, List.append_nil, List.append_nil], rest'.symm⟩
    | cons x a =>
      have head : 0 = x := (List.cons.inj rest').1
      exact absurd (bytes ▸ List.mem_append_right _ (head ▸ List.mem_cons_self)) (units_plain scalar some)
  · exact ⟨a, whole, behind⟩

theorem valid_front {cs : List Nat} {t : List UInt8} (text : Encodes cs t) (plain : 0 ∉ t) :
    utf8IsValid (t ++ s) = utf8IsValid s := by
  induction cs generalizing t with
  | nil =>
    obtain ⟨_, rfl⟩ := text
    rfl
  | cons c cs ih =>
    obtain ⟨t', rfl, scalar, some, text', plain'⟩ := text_plain text plain
    rw [List.append_assoc, valid_accept scalar some, ih text' plain']

theorem valid_cut {t : List UInt8} (plain : 0 ∉ t) (cut : Cut t) : utf8IsValid (t ++ [0]) = .error .past := by
  obtain ⟨front, u, ⟨cs, text⟩, broken, rfl⟩ := cut
  rw [List.append_assoc, valid_front text fun member => plain (List.mem_append_left _ member)]
  cases u with
  | nil => exact False.elim broken
  | cons b0 u =>
    have some : b0 ≠ 0 := fun zero => plain (List.mem_append_right _ (zero ▸ List.mem_cons_self))
    have fault : utf8Decode (b0 :: (u ++ [0])) 0 = .error .past := by
      unfold Truncated at broken
      rw [decode_fault, List.length_append, List.length_singleton]
      omega
    rw [List.cons_append, utf8IsValid, if_neg some, fault]

theorem valid_walk {t : List UInt8} (plain : 0 ∉ t) (rest : List UInt8) (whole : ¬ Cut t) :
    ∃ b, utf8IsValid (t ++ 0 :: rest) = .ok b ∧ (b = true ↔ WellFormed t) := by
  induction size : t.length using Nat.strongRecOn generalizing t with
  | ind n ih =>
    cases t with
    | nil => exact ⟨true, by simp [utf8IsValid], iff_of_true rfl ⟨[], text_nil.mpr rfl⟩⟩
    | cons b0 u =>
      have some : b0 ≠ 0 := fun zero => plain (zero ▸ List.mem_cons_self)
      have call := decode_step (b0 :: u ++ 0 :: rest) 0
      generalize run : utf8Decode (b0 :: u ++ 0 :: rest) 0 = answer at call
      cases call with
      | fault =>
        rw [List.cons_append, decode_fault, List.length_append, List.length_cons] at run
        have broken : Truncated (b0 :: u) := by unfold Truncated; omega
        exact absurd ⟨[], b0 :: u, ⟨[], text_nil.mpr rfl⟩, broken, rfl⟩ whole
      | refuse cp =>
        have answer : utf8IsValid (b0 :: u ++ 0 :: rest) = .ok false := by
          rw [List.cons_append] at run ⊢
          rw [utf8IsValid, if_neg some, run]
          rfl
        refine ⟨false, answer, iff_of_false (by decide) ?_⟩
        rintro ⟨cs, text⟩
        have accepted := (text_walks rest 0 text plain rfl).1
        rw [answer] at accepted
        exact absurd (Except.ok.inj accepted) (by decide)
      | accept cp r scalar same =>
        obtain ⟨some', t', front, rfl⟩ := accept_within plain scalar same
        have shorter : t'.length < n := by
          have long := units_length_pos cp
          rw [← size, front, List.length_append]
          omega
        have plain' : 0 ∉ t' := fun member => plain (front ▸ List.mem_append_right _ member)
        rw [front, cut_units scalar] at whole
        obtain ⟨b, answer, exact⟩ := ih _ shorter plain' whole rfl
        refine ⟨b, ?_, ?_⟩
        · rw [front, List.append_assoc, valid_accept scalar some', answer]
        · rw [front, wellFormed_units scalar, exact]

end Walks

section Encoding

theorem put_tail (n : Nat) : UInt8.ofNat (0x80 ||| n &&& 0x3F) = tail n := by
  have joined : ∀ m < 64, 0x80 ||| m = 0x80 + m := by decide
  rw [low_six, joined _ (Nat.mod_lt n (by decide)), tail]

theorem encode_eq (cp : UInt32) : utf8Encode cp = if cp.toNat ≤ 0x10FFFF then units cp.toNat else [] := by
  have two : ∀ m < 32, 0xC0 ||| m = 0xC0 + m := by decide
  have three : ∀ m < 16, 0xE0 ||| m = 0xE0 + m := by decide
  have four : ∀ m < 8, 0xF0 ||| m = 0xF0 + m := by decide
  unfold utf8Encode units
  simp only [put_tail, Nat.shiftRight_eq_div_pow]
  generalize cp.toNat = c
  split_ifs
  · rfl
  · omega
  · rw [two _ (by omega)]
  · omega
  · rw [three _ (by omega)]
  · omega
  · rw [four _ (by omega)]
  · rfl

theorem encode_text {cs : List Nat} {t : List UInt8} (text : Encodes cs t) :
    (cs.flatMap fun c => utf8Encode (UInt32.ofNat c)) = t := by
  obtain ⟨scalars, rfl⟩ := text
  apply List.flatMap_congr
  intro c member
  have scalar := scalars c member
  unfold Scalar at scalar
  have value : (UInt32.ofNat c).toNat = c := UInt32.toNat_ofNat_of_lt' (by simp only [UInt32.size]; omega)
  rw [encode_eq, value, if_pos (by omega)]

end Encoding

theorem not_cut_nil : ¬ Cut [] := by
  rintro ⟨front, u, _, broken, same⟩
  obtain ⟨_, rfl⟩ := List.append_eq_nil_iff.mp same.symm
  exact broken

/-- The string with this text before its terminator is judged rightly, whatever lies behind
the terminator or whether anything does, and a well-formed one is counted, taken apart and
put together again. -/
def Handled (t : List UInt8) : Prop := ∀ rest,
  (∃ b, utf8IsValid (t ++ 0 :: rest) = .ok b ∧ (b = true ↔ WellFormed t)) ∧
  ∀ cs, Encodes cs t → utf8Strlen (t ++ 0 :: rest) = .ok cs.length ∧ codePoints (t ++ 0 :: rest) = .ok cs ∧
    (cs.flatMap fun c => utf8Encode (UInt32.ofNat c)) = t

/-- What the encoder makes of the code point, if it takes it, decodes to it. -/
def ReadsBack (cp : UInt32) : Prop := utf8Encode cp ≠ [] → ∀ s out,
  utf8Decode (utf8Encode cp ++ s) out = .ok ((utf8Encode cp).length, cp.toNat)

theorem handled_iff {t : List UInt8} (plain : 0 ∉ t) :
    Handled t ↔ ¬ Cut t ∧ ∀ cs, Encodes cs t → cs.length < 2 ^ 31 := by
  constructor
  · intro handled
    obtain ⟨⟨b, answer, _⟩, texts⟩ := handled []
    refine ⟨fun cut => ?_, fun cs text => ?_⟩
    · rw [valid_cut plain cut] at answer
      cases answer
    · have counted := (texts cs text).1
      rw [utf8Strlen, (text_walks [] 0 text plain rfl).2.1] at counted
      have same := Except.ok.inj counted
      have range := (int32_range (0 + cs.length)).2
      omega
  · rintro ⟨whole, short⟩ rest
    refine ⟨valid_walk plain rest whole, fun cs text => ?_⟩
    obtain ⟨_, strlen, points⟩ := text_walks rest 0 text plain rfl
    have count : int32 (0 + cs.length) = cs.length := by
      have bound := short cs text
      rw [Int.zero_add, int32_id (by omega) (by omega)]
    exact ⟨by rw [utf8Strlen, strlen, count], points, encode_text text⟩

theorem decode_surrogate {c : Nat} (low : 0xD800 ≤ c) (high : c ≤ 0xDFFF) (s : List UInt8) (out : Nat) :
    utf8Decode (units c ++ s) out = .ok (-1, c) := by
  have lead := lead_toNat (n := 0xE0 + c / 4096) (by omega)
  have value : c = ((UInt8.ofNat (0xE0 + c / 4096)).toNat % 16 * 64 + (tail (c / 64)).toNat % 64) * 64 +
      (tail c).toNat % 64 := by
    rw [lead, tail_low, tail_low]
    omega
  unfold units
  rw [if_neg (by omega), if_neg (by omega), if_pos (by omega)]
  simp only [List.cons_append, List.nil_append]
  rw [decode_three (by omega) (by omega) (tail_cont _) (tail_cont c) value, if_neg (by omega), if_pos ⟨low, high⟩]

theorem decodes_iff (cp : UInt32) : ReadsBack cp ↔ ¬ (0xD800 ≤ cp.toNat ∧ cp.toNat ≤ 0xDFFF) := by
  unfold ReadsBack
  rw [encode_eq]
  constructor
  · rintro decodes ⟨low, high⟩
    have long := units_length_pos cp.toNat
    rw [if_pos (by omega)] at decodes
    have run := decodes (List.ne_nil_of_length_pos long) [] 0
    rw [decode_surrogate low high] at run
    have count := congrArg Prod.fst (Except.ok.inj run)
    simp only at count
    omega
  · intro plain some s out
    split_ifs at some with range
    · rw [if_pos range]
      exact decode_units (by unfold Scalar; omega)
    · exact absurd rfl some

/-- A string is handled exactly when it does not break off inside a sequence of three or
four bytes that its decoder reads to the end, and has code points an int counts; a code
point comes back exactly when it is no surrogate. -/
theorem utf8_codec (t : List UInt8) (plain : 0 ∉ t) (cp : UInt32) :
    (Handled t ↔ ¬ Cut t ∧ ∀ cs, Encodes cs t → cs.length < 2 ^ 31) ∧
      (ReadsBack cp ↔ ¬ (0xD800 ≤ cp.toNat ∧ cp.toNat ≤ 0xDFFF)) :=
  ⟨handled_iff plain, decodes_iff cp⟩

/-- The two bytes of U+00E9. -/
theorem utf8_codec_accent : Handled [0xC3, 0xA9] := by
  have scalar : Scalar 0xE9 := by decide
  have bytes : [0xC3, 0xA9] = units 0xE9 ++ [] := by decide
  refine (utf8_codec [0xC3, 0xA9] (by decide) 0xE9).1.mpr ⟨?_, fun cs text => ?_⟩
  · rw [bytes, cut_units scalar]
    exact not_cut_nil
  · rw [bytes, text_units scalar] at text
    obtain ⟨cs', rfl, rest⟩ := text
    rw [text_nil.mp rest]
    decide

/-- A string that is the leading byte E2 alone is read behind its terminator, and the
surrogate U+D800 is encoded but not decoded. -/
theorem lone_lead_overread : ¬ Handled [0xE2] ∧ ¬ ReadsBack 0xD800 := by
  have cut : Cut [0xE2] := ⟨[], [0xE2], ⟨[], text_nil.mpr rfl⟩, .inl (by decide), rfl⟩
  refine ⟨fun handled => ?_, fun decodes => ?_⟩
  · obtain ⟨⟨b, answer, _⟩, _⟩ := handled []
    have fault : utf8IsValid ([0xE2] ++ [0]) = .error .past := valid_cut (by decide) cut
    rw [fault] at answer
    cases answer
  · have run := decodes (by decide) [] 0
    exact absurd run (by decide)

end Qito.Gfx
