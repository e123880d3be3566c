import Qito.Lib.Lists
import Mathlib.Tactic.Common

/-! Base64 text. Three bytes are four characters of the alphabet, the last one or
two bytes are padded; a lenient reader skips what is not in the alphabet and stops
at the padding. -/
namespace Base64

/-- The character for six bits. -/
def symbol (n : Nat) : UInt8 :=
  if n < 26 then UInt8.ofNat (65 + n)
  else if n < 52 then UInt8.ofNat (97 + (n - 26))
  else if n < 62 then UInt8.ofNat (48 + (n - 52))
  else if n = 62 then 43
  else 47

def value (c : UInt8) : Option Nat :=
  if 65 ≤ c ∧ c ≤ 90 then some (c.toNat - 65)
  else if 97 ≤ c ∧ c ≤ 122 then some (c.toNat - 97 + 26)
  else if 48 ≤ c ∧ c ≤ 57 then some (c.toNat - 48 + 52)
  else if c = 43 then some 62
  else if c = 47 then some 63
  else none

/-- The padding character. -/
abbrev pad : UInt8 := 61

/-- The four characters of 24 bits. -/
def quad (triple : Nat) : List UInt8 :=
  [symbol (triple / 2 ^ 18 % 64), symbol (triple / 2 ^ 12 % 64), symbol (triple / 2 ^ 6 % 64), symbol (triple % 64)]

def encode : List UInt8 → List UInt8
  | a :: b :: c :: rest => quad (a.toNat * 65536 + b.toNat * 256 + c.toNat) ++ encode rest
  | [a, b] =>
    let triple := a.toNat * 65536 + b.toNat * 256
    [symbol (triple / 2 ^ 18 % 64), symbol (triple / 2 ^ 12 % 64), symbol (triple / 2 ^ 6 % 64), pad]
  | [a] =>
    let triple := a.toNat * 65536
    [symbol (triple / 2 ^ 18 % 64), symbol (triple / 2 ^ 12 % 64), pad, pad]
  | [] => []

/-- The lenient reader: its place in a group of four, the bits left over and the
padding seen. A text that ends inside a group is an error. -/
@[grind =] def decodeFrom : Nat → Nat → Nat → List UInt8 → Option (List UInt8)
  | place, _, _, [] => if place = 0 then some [] else none
  | place, left, pads, c :: cs =>
    if c = pad then
      if 2 ≤ place then
        if place + (pads + 1) ≥ 4 then some [] else decodeFrom place left (pads + 1) cs
      else decodeFrom place left pads cs
    else
      match value c with
      | none => decodeFrom place left pads cs
      | some v =>
        match place with
        | 0 => decodeFrom 1 v 0 cs
        | 1 => (decodeFrom 2 (v % 16) 0 cs).map (UInt8.ofNat (left * 4 + v / 16) :: ·)
        | 2 => (decodeFrom 3 (v % 4) 0 cs).map (UInt8.ofNat (left * 16 + v / 4) :: ·)
        | _ => (decodeFrom 0 0 0 cs).map (UInt8.ofNat (left * 64 + v) :: ·)

def decode (text : List UInt8) : Option (List UInt8) := decodeFrom 0 0 0 text

/-- The character can stand in a base64 text. -/
def isText (c : UInt8) : Bool := (value c).isSome || c == pad

theorem value_symbol : ∀ n < 64, value (symbol n) = some n := by decide

theorem symbol_plain : ∀ n < 64, symbol n ≠ pad := by decide

section Reading
variable {place left pads v : Nat} {cs : List UInt8}

theorem decode_first (small : v < 64) : decodeFrom 0 left pads (symbol v :: cs) = decodeFrom 1 v 0 cs := by
  simp [decodeFrom, symbol_plain v small, value_symbol v small]

theorem decode_second (small : v < 64) : decodeFrom 1 left pads (symbol v :: cs) =
    (decodeFrom 2 (v % 16) 0 cs).map (UInt8.ofNat (left * 4 + v / 16) :: ·) := by
  simp [decodeFrom, symbol_plain v small, value_symbol v small]

theorem decode_third (small : v < 64) : decodeFrom 2 left pads (symbol v :: cs) =
    (decodeFrom 3 (v % 4) 0 cs).map (UInt8.ofNat (left * 16 + v / 4) :: ·) := by
  simp [decodeFrom, symbol_plain v small, value_symbol v small]

theorem decode_fourth (small : v < 64) : decodeFrom 3 left pads (symbol v :: cs) =
    (decodeFrom 0 0 0 cs).map (UInt8.ofNat (left * 64 + v) :: ·) := by
  simp [decodeFrom, symbol_plain v small, value_symbol v small]

theorem decode_quad (a b c : UInt8) (cs : List UInt8) :
    decodeFrom 0 0 0 (quad (a.toNat * 65536 + b.toNat * 256 + c.toNat) ++ cs) =
      (decodeFrom 0 0 0 cs).map fun rest => a :: b :: c :: rest := by
  have ha := a.toNat_lt
  have hb := b.toNat_lt
  have hc := c.toNat_lt
  generalize triple : a.toNat * 65536 + b.toNat * 256 + c.toNat = t
  have first : t / 2 ^ 18 % 64 * 4 + t / 2 ^ 12 % 64 / 16 = a.toNat := by omega
  have second : t / 2 ^ 12 % 64 % 16 * 16 + t / 2 ^ 6 % 64 / 4 = b.toNat := by omega
  have third : t / 2 ^ 6 % 64 % 4 * 64 + t % 64 = c.toNat := by omega
  have six (n : Nat) : n % 64 < 64 := Nat.mod_lt n (by decide)
  simp only [quad, List.cons_append, List.nil_append]
  rw [decode_first (six _), decode_second (six _), decode_third (six _), decode_fourth (six _), first, second, third]
  simp only [UInt8.ofNat_toNat, Option.map_map]
  rfl

theorem decode_encode (bs : List UInt8) : decode (encode bs) = some bs := by
  have six (n : Nat) : n % 64 < 64 := Nat.mod_lt n (by decide)
  unfold decode
  fun_induction encode bs with
  | case1 a b c rest ih =>
    rw [decode_quad, ih]
    rfl
  | case2 a b triple =>
    have ha := a.toNat_lt
    have hb := b.toNat_lt
    have first : triple / 2 ^ 18 % 64 * 4 + triple / 2 ^ 12 % 64 / 16 = a.toNat := by omega
    have second : triple / 2 ^ 12 % 64 % 16 * 16 + triple / 2 ^ 6 % 64 / 4 = b.toNat := by omega
    rw [decode_first (six _), decode_second (six _), decode_third (six _), first, second]
    simp [decodeFrom]
  | case3 a triple =>
    have ha := a.toNat_lt
    have first : triple / 2 ^ 18 % 64 * 4 + triple / 2 ^ 12 % 64 / 16 = a.toNat := by omega
    rw [decode_first (six _), decode_second (six _), first]
    simp [decodeFrom]
  | case4 => rfl

theorem symbol_text : ∀ n < 64, isText (symbol n) = true := by decide

theorem quad_text (t : Nat) : ∀ c ∈ quad t, isText c = true := by
  intro c member
  simp only [quad, List.mem_cons, List.not_mem_nil, or_false] at member
  rcases member with rfl | rfl | rfl | rfl
  all_goals exact symbol_text _ (Nat.mod_lt _ (by decide))

theorem encode_text (bs : List UInt8) : ∀ c ∈ encode bs, isText c = true := by
  have six (n : Nat) : isText (symbol (n % 64)) = true := symbol_text _ (Nat.mod_lt n (by decide))
  have padding : isText pad = true := by decide
  fun_induction encode bs with
  | case1 a b c rest ih =>
    intro x member
    rcases List.mem_append.mp member with front | back
    · exact quad_text _ x front
    · exact ih x back
  | case2 a b triple =>
    intro x member
    simp only [List.mem_cons, List.not_mem_nil, or_false] at member
    rcases member with rfl | rfl | rfl | rfl
    · exact six _
    · exact six _
    · exact six _
    · exact padding
  | case3 a triple =>
    intro x member
    simp only [List.mem_cons, List.not_mem_nil, or_false] at member
    rcases member with rfl | rfl | rfl | rfl
    · exact six _
    · exact six _
    · exact padding
    · exact padding
  | case4 => simp

end Reading
end Base64
