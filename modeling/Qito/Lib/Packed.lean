import Qito.Lib.Buffers

/-! Numbers packed into bytes, lowest byte first, and fields read back out of a
sequence that was put together from parts. -/
namespace Packed
open Buffers

def pack : Nat → Nat → List UInt8
  | 0, _ => []
  | width + 1, value => UInt8.ofNat value :: pack width (value / 256)

def unpack : List UInt8 → Nat
  | [] => 0
  | b :: bs => b.toNat + 256 * unpack bs

@[simp] theorem pack_length (width value : Nat) : (pack width value).length = width := by
  induction width generalizing value with
  | zero => rfl
  | succ width ih => rw [pack, List.length_cons, ih]

theorem unpack_pack {width value : Nat} (fits : value < 256 ^ width) : unpack (pack width value) = value := by
  induction width generalizing value with
  | zero =>
    rw [Nat.pow_zero, Nat.lt_one_iff] at fits
    rw [fits]
    rfl
  | succ width ih =>
    have high : value / 256 < 256 ^ width := by
      rw [Nat.pow_succ] at fits
      exact Nat.div_lt_of_lt_mul (by rwa [Nat.mul_comm])
    have low : (UInt8.ofNat value).toNat = value % 256 := UInt8.toNat_ofNat'
    rw [pack, unpack, ih high, low]
    omega

section Parts
variable {α : Type*} {front rest : List α} {offset len : Nat}

theorem readAt_front (length : front.length = len) : readAt 0 len (front ++ rest) = front := by
  rw [readAt, List.drop_zero, ← length, List.take_left]

theorem readAt_all {xs : List α} (length : xs.length = len) : readAt 0 len xs = xs := by
  rw [readAt, List.drop_zero, ← length, List.take_length]

theorem readAt_skip (past : front.length ≤ offset) :
    readAt offset len (front ++ rest) = readAt (offset - front.length) len rest := by
  rw [readAt, readAt, List.drop_append, List.drop_of_length_le past, List.nil_append]

theorem readAt_within (inside : offset + len ≤ front.length) : readAt offset len (front ++ rest) = readAt offset len front := by
  have length : len ≤ (front.drop offset).length := by
    rw [List.length_drop]
    omega
  rw [readAt, readAt, List.drop_append_of_le_length (by omega), List.take_append_of_le_length length]

theorem readAt_flatten {parts : List (List α)} {k : Nat} {part : List α} (there : parts[k]? = some part)
    (before : ((parts.take k).map List.length).sum = offset) (length : part.length = len) :
    readAt offset len parts.flatten = part := by
  induction parts generalizing k offset with
  | nil => simp at there
  | cons first rest ih =>
    rw [List.flatten_cons]
    cases k with
    | zero =>
      cases Option.some.inj there
      rw [← before]
      exact readAt_front length
    | succ k =>
      rw [List.take_succ_cons, List.map_cons, List.sum_cons] at before
      rw [readAt_skip (by omega)]
      exact ih there (by omega)

theorem readAt_add (start : Nat) (xs : List α) : readAt (start + offset) len xs = readAt offset len (xs.drop start) := by
  rw [readAt, readAt, List.drop_drop]

theorem readAt_readAt {start n : Nat} (inside : offset + len ≤ n) (xs : List α) :
    readAt offset len (readAt start n xs) = readAt (start + offset) len xs := by
  have short : min len (n - offset) = len := by omega
  rw [readAt, readAt, readAt, List.drop_take, List.take_take, short, List.drop_drop]

theorem drop_table {records : List (List α)} {size i : Nat} {record : List α} (even : ∀ r ∈ records, r.length = size)
    (there : records[i]? = some record) : records.flatten.drop (size * i) = record ++ (records.drop (i + 1)).flatten := by
  induction records generalizing i with
  | nil => simp at there
  | cons r rs ih =>
    rw [List.flatten_cons]
    cases i with
    | zero =>
      cases Option.some.inj there
      rfl
    | succ i =>
      have length : r.length = size := even r List.mem_cons_self
      rw [Nat.mul_succ, Nat.add_comm, ← List.drop_drop, ← length, List.drop_left, length]
      exact ih (fun r' member => even r' (List.mem_cons_of_mem _ member)) there

theorem readAt_table {parts records : List (List α)} {k size i : Nat} {record : List α}
    (there : parts[k]? = some records.flatten) (before : ((parts.take k).map List.length).sum = offset)
    (even : ∀ r ∈ records, r.length = size) (row : records[i]? = some record) :
    readAt (offset + size * i) size parts.flatten = record := by
  obtain ⟨inside, here⟩ := List.getElem?_eq_some_iff.mp there
  have skip : parts.flatten.drop offset = records.flatten ++ (parts.drop (k + 1)).flatten := by
    have whole : parts = parts.take k ++ records.flatten :: parts.drop (k + 1) := by
      rw [← here, List.getElem_cons_drop, List.take_append_drop]
    have front : offset = (parts.take k).flatten.length := by rw [← before, List.length_flatten]
    conv_lhs => rw [whole, List.flatten_append, front, List.drop_left, List.flatten_cons]
  have start : size * i ≤ records.flatten.length := by
    have row_ := (List.getElem?_eq_some_iff.mp row).1
    have lengths : records.map List.length = List.replicate records.length size :=
      List.eq_replicate_iff.mpr ⟨List.length_map _, by simpa using even⟩
    rw [List.length_flatten, lengths, List.sum_replicate_nat, Nat.mul_comm]
    exact Nat.mul_le_mul_right size (Nat.le_of_lt row_)
  rw [readAt_add, skip, readAt, List.drop_append_of_le_length start, drop_table even row, List.append_assoc]
  rw [← even record (List.mem_of_getElem? row), List.take_left]

end Parts

end Packed
