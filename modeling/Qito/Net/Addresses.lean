import Qito.Lib.Decimals

/-! Dotted quads: what net_parse_ip reads as an address and what net_format_ip writes.
A text is the bytes before the NUL. -/
namespace Qito.Net
open Decimals

/-- IPV4. -/
def ipv4 (a b c d : UInt32) : UInt32 := (a <<< 24) ||| (b <<< 16) ||| (c <<< 8) ||| d

/-- The loop of net_parse_ip: the octets before the index, the one at the index, and the
text. A fourth dot ends it with an index that is rejected. -/
def scanIp : List Nat → Nat → List UInt8 → Option (List Nat)
  | done, n, [] => some (done ++ [n])
  | done, n, c :: rest =>
    if isDigit c then
      if 255 < n * 10 + (c.toNat - 48) then none else scanIp done (n * 10 + (c.toNat - 48)) rest
    else if c = 46 then
      if done.length = 3 then none else scanIp (done ++ [n]) 0 rest
    else none

def netParseIp (text : List UInt8) : Option UInt32 :=
  match scanIp [] 0 text with
  | some [a, b, c, d] => some (ipv4 (UInt32.ofNat a) (UInt32.ofNat b) (UInt32.ofNat c) (UInt32.ofNat d))
  | _ => none

def octet (address shift : UInt32) : UInt32 := (address >>> shift) &&& 0xff

/-- snprintf cuts the text where the buffer ends. -/
def netFormatIp (address : UInt32) (size : Nat) : List UInt8 :=
  (digits (octet address 24).toNat ++ 46 :: (digits (octet address 16).toNat ++
    46 :: (digits (octet address 8).toNat ++ 46 :: digits (octet address 0).toNat))).take (size - 1)

section Octets
variable {a b c d : Nat} {x : UInt32}

theorem or_octets (hb : b < 256) (hc : c < 256) (hd : d < 256) :
    a <<< 24 ||| b <<< 16 ||| c <<< 8 ||| d = a * 2 ^ 24 + b * 2 ^ 16 + c * 2 ^ 8 + d := by
  have nested : a <<< 24 ||| b <<< 16 ||| c <<< 8 ||| d = ((a <<< 8 ||| b) <<< 8 ||| c) <<< 8 ||| d := by
    rw [Nat.shiftLeft_or_distrib, Nat.shiftLeft_or_distrib, Nat.shiftLeft_or_distrib, ← Nat.shiftLeft_add, ← Nat.shiftLeft_add,
      ← Nat.shiftLeft_add]
  rw [nested, ← Nat.shiftLeft_add_eq_or_of_lt hd, ← Nat.shiftLeft_add_eq_or_of_lt hc, ← Nat.shiftLeft_add_eq_or_of_lt hb,
    Nat.shiftLeft_eq, Nat.shiftLeft_eq, Nat.shiftLeft_eq]
  omega

theorem ipv4_toNat (ha : a < 256) (hb : b < 256) (hc : c < 256) (hd : d < 256) :
    (ipv4 (UInt32.ofNat a) (UInt32.ofNat b) (UInt32.ofNat c) (UInt32.ofNat d)).toNat = a * 2 ^ 24 + b * 2 ^ 16 + c * 2 ^ 8 + d := by
  have small {n : Nat} (fits : n < 256) : (UInt32.ofNat n).toNat = n := UInt32.toNat_ofNat_of_lt' (Nat.lt_trans fits (by decide))
  have shifted {n : Nat} (k : Nat) (fits : n < 256) (shift : k ≤ 24) : (n <<< k) % 2 ^ 32 = n <<< k := by
    apply Nat.mod_eq_of_lt
    rw [Nat.shiftLeft_eq]
    calc n * 2 ^ k < 256 * 2 ^ k := Nat.mul_lt_mul_of_pos_right fits (Nat.two_pow_pos k)
      _ ≤ 256 * 2 ^ 24 := Nat.mul_le_mul_left _ (Nat.pow_le_pow_right (by decide) shift)
  unfold ipv4
  simp only [UInt32.toNat_or, UInt32.toNat_shiftLeft, small ha, small hb, small hc, small hd]
  change (a <<< 24 % 2 ^ 32) ||| (b <<< 16 % 2 ^ 32) ||| (c <<< 8 % 2 ^ 32) ||| d = _
  rw [shifted 24 ha (by decide), shifted 16 hb (by decide), shifted 8 hc (by decide), or_octets hb hc hd]

theorem octet_toNat (x shift : UInt32) : (octet x shift).toNat = x.toNat / 2 ^ (shift.toNat % 32) % 256 := by
  unfold octet
  rw [UInt32.toNat_and, UInt32.toNat_shiftRight, Nat.shiftRight_eq_div_pow]
  exact Nat.and_two_pow_sub_one_eq_mod _ 8

theorem ipv4_octets (x : UInt32) : ipv4 (octet x 24) (octet x 16) (octet x 8) (octet x 0) = x := by
  have small (shift : UInt32) : (octet x shift).toNat < 256 := by
    rw [octet_toNat]
    exact Nat.mod_lt _ (by decide)
  have whole := ipv4_toNat (small 24) (small 16) (small 8) (small 0)
  simp only [UInt32.ofNat_toNat] at whole
  apply UInt32.toNat_inj.mp
  rw [whole, octet_toNat, octet_toNat, octet_toNat, octet_toNat]
  have below := x.toNat_lt
  change x.toNat / 2 ^ 24 % 256 * 2 ^ 24 + x.toNat / 2 ^ 16 % 256 * 2 ^ 16 + x.toNat / 2 ^ 8 % 256 * 2 ^ 8 + x.toNat / 2 ^ 0 % 256 = _
  omega

end Octets

section Scanning
variable {done octets : List Nat} {n : Nat} {text : List UInt8}

/-- A row of digits, perhaps empty, that stands for at most 255. -/
def Part (part : List UInt8) : Prop := (∀ c ∈ part, isDigit c = true) ∧ value part ≤ 255

/-- Parts that are put behind dots. -/
def dotted (parts : List (List UInt8)) : List UInt8 := parts.flatMap (46 :: ·)

/-- What the loop reads: the rest of a part, and at most three parts in all behind dots. -/
theorem scanIp_iff (few : done.length ≤ 3) (small : n ≤ 255) : scanIp done n text = some octets ↔
    ∃ part parts, text = part ++ dotted parts ∧ (∀ c ∈ part, isDigit c = true) ∧ valueFrom n part ≤ 255 ∧
      (∀ q ∈ parts, Part q) ∧ done.length + parts.length ≤ 3 ∧ octets = done ++ valueFrom n part :: parts.map value := by
  induction text generalizing done n with
  | nil =>
    constructor
    · rintro ⟨⟩
      exact ⟨[], [], rfl, nofun, small, nofun, few, rfl⟩
    · rintro ⟨part, parts, whole, -, -, -, -, rfl⟩
      obtain ⟨rfl, none_⟩ := List.append_eq_nil_iff.mp whole.symm
      obtain rfl : parts = [] := by
        cases parts with
        | nil => rfl
        | cons q parts => cases none_
      rfl
  | cons c rest ih =>
    unfold scanIp
    cases digit : isDigit c with
    | true =>
      -- The character goes on with the part.
      have dot : c ≠ 46 := by
        rintro rfl
        cases digit
      have first {part : List UInt8} {parts : List (List UInt8)} (whole : c :: rest = part ++ dotted parts) :
          ∃ more, part = c :: more ∧ rest = more ++ dotted parts := by
        cases part with
        | nil =>
          cases parts with
          | nil => cases whole
          | cons q parts => exact absurd (List.cons.inj whole).1 dot
        | cons d more =>
          obtain ⟨rfl, same⟩ := List.cons.inj whole
          exact ⟨more, rfl, same⟩
      simp only [if_true]
      split
      · rename_i large
        refine iff_of_false nofun ?_
        rintro ⟨part, parts, whole, -, fits, -⟩
        obtain ⟨more, rfl, -⟩ := first whole
        rw [valueFrom_cons] at fits
        exact absurd (Nat.le_trans le_valueFrom fits) (Nat.not_le_of_lt large)
      · rename_i fits
        rw [ih few (Nat.le_of_not_lt fits)]
        constructor
        · rintro ⟨part, parts, rfl, all, rest⟩
          exact ⟨c :: part, parts, rfl, List.forall_mem_cons.mpr ⟨digit, all⟩, rest⟩
        · rintro ⟨part, parts, whole, all, rest⟩
          obtain ⟨more, rfl, same⟩ := first whole
          exact ⟨more, parts, same, fun d member => all d (List.mem_cons_of_mem _ member), rest⟩
    | false =>
      -- The part ends here.
      have last {part : List UInt8} {parts : List (List UInt8)} (whole : c :: rest = part ++ dotted parts)
          (all : ∀ d ∈ part, isDigit d = true) : part = [] ∧ ∃ q more, parts = q :: more ∧ c = 46 ∧ rest = q ++ dotted more := by
        cases part with
        | nil =>
          cases parts with
          | nil => cases whole
          | cons q more =>
            obtain ⟨rfl, same⟩ := List.cons.inj whole
            exact ⟨rfl, q, more, rfl, rfl, same⟩
        | cons d more =>
          obtain ⟨rfl, -⟩ := List.cons.inj whole
          rw [all c List.mem_cons_self] at digit
          cases digit
      simp only [Bool.false_eq_true, if_false]
      split
      · rename_i dot
        split
        · rename_i full
          refine iff_of_false nofun ?_
          rintro ⟨part, parts, whole, all, -, -, room, -⟩
          obtain ⟨-, q, more, rfl, -⟩ := last whole all
          rw [full, List.length_cons] at room
          omega
        · rename_i room
          have more_ : (done ++ [n]).length ≤ 3 := by
            rw [List.length_append, List.length_singleton]
            omega
          rw [ih more_ (Nat.zero_le _)]
          constructor
          · rintro ⟨part, parts, rfl, all, fits, others, few, rfl⟩
            refine ⟨[], part :: parts, ?_, nofun, small, List.forall_mem_cons.mpr ⟨⟨all, fits⟩, others⟩, ?_, ?_⟩
            · rw [dot]
              rfl
            · rw [List.length_append, List.length_singleton] at few
              rw [List.length_cons]
              omega
            · rw [List.append_assoc]
              rfl
          · rintro ⟨part, parts, whole, all, -, others, few, rfl⟩
            obtain ⟨rfl, q, more, rfl, -, rfl⟩ := last whole all
            obtain ⟨⟨digits, fits⟩, others⟩ := List.forall_mem_cons.mp others
            refine ⟨q, more, rfl, digits, fits, others, ?_, ?_⟩
            · rw [List.length_append, List.length_singleton]
              rw [List.length_cons] at few
              omega
            · rw [List.append_assoc]
              rfl
      · rename_i other
        refine iff_of_false nofun ?_
        rintro ⟨part, parts, whole, all, -⟩
        obtain ⟨-, q, more, -, dot, -⟩ := last whole all
        exact other dot

end Scanning

section Quads
variable {text a b c d : List UInt8} {address : UInt32}

/-- A text of four parts, any of which may be empty. -/
structure Quad (text a b c d : List UInt8) : Prop where
  text : text = a ++ 46 :: (b ++ 46 :: (c ++ 46 :: d))
  parts : Part a ∧ Part b ∧ Part c ∧ Part d

/-- The address of four parts. -/
def quadAddress (a b c d : List UInt8) : UInt32 :=
  ipv4 (UInt32.ofNat (value a)) (UInt32.ofNat (value b)) (UInt32.ofNat (value c)) (UInt32.ofNat (value d))

theorem netParseIp_iff : netParseIp text = some address ↔ ∃ a b c d, Quad text a b c d ∧ quadAddress a b c d = address := by
  have scan (octets : List Nat) := @scanIp_iff [] octets _ text (Nat.zero_le 3) (Nat.zero_le 255)
  unfold netParseIp
  constructor
  · intro parsed
    split at parsed
    · rename_i octets w x y z read
      obtain ⟨a, parts, rfl, digits, fits, others, -, values⟩ := (scan _).mp read
      obtain ⟨rfl, behind⟩ := List.cons.inj values
      obtain ⟨b, parts, rfl, rfl, behind'⟩ := List.map_eq_cons_iff.mp behind.symm
      obtain ⟨c, parts, rfl, rfl, behind''⟩ := List.map_eq_cons_iff.mp behind'
      obtain ⟨d, parts, rfl, rfl, none_⟩ := List.map_eq_cons_iff.mp behind''
      obtain rfl := List.map_eq_nil_iff.mp none_
      simp only [List.forall_mem_cons] at others
      refine ⟨a, b, c, d, ⟨by simp [dotted], ⟨digits, fits⟩, others.1, others.2.1, others.2.2.1⟩, ?_⟩
      exact Option.some.inj parsed
    · cases parsed
  · rintro ⟨a, b, c, d, ⟨rfl, pa, pb, pc, pd⟩, rfl⟩
    have read : scanIp [] 0 (a ++ 46 :: (b ++ 46 :: (c ++ 46 :: d))) = some [value a, value b, value c, value d] := by
      apply (scan _).mpr
      refine ⟨a, [b, c, d], by simp [dotted], pa.1, pa.2, ?_, by simp, rfl⟩
      simp only [List.forall_mem_cons]
      exact ⟨pb, pc, pd, nofun⟩
    rw [read]
    rfl

theorem Part.no_dot (part : Part a) : 46 ∉ a := by
  intro member
  exact absurd (part.1 46 member) (by decide)

theorem first_dot {front front' back back' : List UInt8} (same : front ++ 46 :: back = front' ++ 46 :: back')
    (plain : 46 ∉ front) (plain' : 46 ∉ front') : front = front' ∧ back = back' := by
  induction front generalizing front' with
  | nil =>
    cases front' with
    | nil => exact ⟨rfl, (List.cons.inj same).2⟩
    | cons c front' => exact absurd ((List.cons.inj same).1 ▸ List.mem_cons_self) plain'
  | cons c front ih =>
    cases front' with
    | nil => exact absurd ((List.cons.inj same).1 ▸ List.mem_cons_self) plain
    | cons d front' =>
      obtain ⟨rfl, behind⟩ := List.cons.inj same
      obtain ⟨rfl, rfl⟩ := ih behind (fun member => plain (List.mem_cons_of_mem _ member))
        fun member => plain' (List.mem_cons_of_mem _ member)
      exact ⟨rfl, rfl⟩

theorem Quad.unique {a' b' c' d' : List UInt8} (quad : Quad text a b c d) (other : Quad text a' b' c' d') :
    a = a' ∧ b = b' ∧ c = c' ∧ d = d' := by
  obtain ⟨rfl, pa, pb, pc, -⟩ := quad
  obtain ⟨same, pa', pb', pc', -⟩ := other
  obtain ⟨rfl, behind⟩ := first_dot same pa.no_dot pa'.no_dot
  obtain ⟨rfl, behind'⟩ := first_dot behind pb.no_dot pb'.no_dot
  obtain ⟨rfl, rfl⟩ := first_dot behind' pc.no_dot pc'.no_dot
  exact ⟨rfl, rfl, rfl, rfl⟩

/-- Every part has a digit. -/
def Digits (a b c d : List UInt8) : Prop := a ≠ [] ∧ b ≠ [] ∧ c ≠ [] ∧ d ≠ []

/-- Four decimal numbers between 0 and 255, each of at least one digit. -/
def Named (text : List UInt8) (address : UInt32) : Prop :=
  ∃ a b c d, Quad text a b c d ∧ Digits a b c d ∧ quadAddress a b c d = address

/-- net_parse_ip accepts a text for just the address it names. -/
def Exact (text : List UInt8) : Prop := ∀ address, netParseIp text = some address ↔ Named text address

theorem exact_iff : Exact text ↔ ∀ a b c d, Quad text a b c d → Digits a b c d := by
  constructor
  · intro exact_ a b c d quad
    obtain ⟨a', b', c', d', other, digits, -⟩ := (exact_ _).mp (netParseIp_iff.mpr ⟨a, b, c, d, quad, rfl⟩)
    obtain ⟨rfl, rfl, rfl, rfl⟩ := quad.unique other
    exact digits
  · intro all address
    rw [netParseIp_iff]
    constructor
    · rintro ⟨a, b, c, d, quad, same⟩
      exact ⟨a, b, c, d, quad, all a b c d quad, same⟩
    · rintro ⟨a, b, c, d, quad, -, same⟩
      exact ⟨a, b, c, d, quad, same⟩

end Quads

section Formatting
variable {n : Nat}

theorem part_digits (small : n < 256) : Part (digits n) := by
  refine ⟨digits_digit n, ?_⟩
  rw [value_digits]
  exact Nat.le_of_lt_succ small

theorem parse_format (address : UInt32) {size : Nat} (room : 16 ≤ size) : netParseIp (netFormatIp address size) = some address := by
  have small (shift : UInt32) : (octet address shift).toNat < 256 := by
    rw [octet_toNat]
    exact Nat.mod_lt _ (by decide)
  have short (shift : UInt32) : (digits (octet address shift).toNat).length ≤ 3 :=
    (digits_length (by decide)).mpr (Nat.lt_trans (small shift) (by decide))
  have part (shift : UInt32) := part_digits (small shift)
  have fits : netFormatIp address size = digits (octet address 24).toNat ++ 46 :: (digits (octet address 16).toNat ++
      46 :: (digits (octet address 8).toNat ++ 46 :: digits (octet address 0).toNat)) := by
    apply List.take_of_length_le
    have a := short 24
    have b := short 16
    have c := short 8
    have d := short 0
    simp only [List.length_append, List.length_cons]
    omega
  apply netParseIp_iff.mpr
  refine ⟨_, _, _, _, ⟨fits, part 24, part 16, part 8, part 0⟩, ?_⟩
  unfold quadAddress
  simp only [value_digits, UInt32.ofNat_toNat]
  exact ipv4_octets address

end Formatting

/-- A text is read for just what it names when none of four parts is empty; and every
address that is written is read back. -/
theorem dotted_quads_exact_iff (text : List UInt8) :
    (Exact text ↔ ∀ a b c d, Quad text a b c d → Digits a b c d) ∧
      ∀ (address : UInt32) (size : Nat), 16 ≤ size → netParseIp (netFormatIp address size) = some address :=
  ⟨exact_iff, fun address _ room => parse_format address room⟩

theorem dotted_quads_exact_local : netParseIp (netFormatIp 0x7f000001 24) = some 0x7f000001 :=
  (dotted_quads_exact_iff []).2 0x7f000001 24 (by decide)

/-- Three dots are enough. -/
theorem dots_accepted : ¬ ∀ text, Exact text := by
  intro all
  have parsed : netParseIp [46, 46, 46] = some 0 := by decide
  obtain ⟨a, b, c, d, ⟨whole, -⟩, ⟨filled, -⟩, -⟩ := (all [46, 46, 46] 0).mp parsed
  cases a with
  | nil => exact filled rfl
  | cons x a =>
    have long := congrArg List.length whole
    simp only [List.length_cons, List.length_append, List.length_nil] at long
    omega

end Qito.Net
