import Qito.Lib.Rings

/-! The kernel log of log/log.c. A record is appended byte by byte to a ring that
forgets its oldest bytes; sinks, levels and time stamps are not part of it. -/
namespace Qito.Log
open Rings

def logRingSize : Nat := 128 * 1024

theorem logRingSize_pos : 0 < logRingSize := by decide

/-- log_dropped and bytes_written are counters without a width. -/
structure LogState where
  logRing : Nat → UInt8
  logHead : Nat
  logStored : Nat
  logDropped : Nat
  bytesWritten : Nat

/-- log_init leaves the bytes of the ring as they are. -/
def logInit (ring : Nat → UInt8) : LogState where
  logRing := ring
  logHead := 0
  logStored := 0
  logDropped := 0
  bytesWritten := 0

/-- One byte of ring_append. -/
def ringByte (s : LogState) (c : UInt8) : LogState :=
  let t := { s with logRing := Function.update s.logRing s.logHead c, logHead := (s.logHead + 1) % logRingSize }
  if s.logStored < logRingSize then { t with logStored := s.logStored + 1 }
  else { t with logDropped := s.logDropped + 1 }

def ringAppend (s : LogState) (text : List UInt8) : LogState :=
  let text := if text.length ≥ logRingSize then text.drop (text.length - logRingSize / 2) else text
  let t := text.foldl ringByte s
  { t with bytesWritten := s.bytesWritten + text.length }

/-- The bytes log_read puts into the buffer; it returns their number. -/
def logRead (s : LogState) (size offset : Nat) : List UInt8 :=
  let available := s.logStored
  if offset ≥ available then []
  else
    let start := (s.logHead + logRingSize - available) % logRingSize
    let start := (start + offset) % logRingSize
    let count := min size (available - offset)
    (List.range count).map fun i => s.logRing ((start + i) % logRingSize)

def logSize (s : LogState) : Nat := s.logStored

/-- The last bytes of everything appended, as many as the ring has places. -/
def kept (all : List UInt8) : List UInt8 := all.drop (all.length - logRingSize)

section Ring
variable {s : LogState} {all : List UInt8}

theorem kept_length (all : List UInt8) : (kept all).length = min all.length logRingSize := by
  rw [kept, List.length_drop]
  omega

theorem kept_short (short : all.length ≤ logRingSize) : kept all = all := by
  rw [kept, Nat.sub_eq_zero_of_le short, List.drop_zero]

theorem kept_full (full : logRingSize ≤ all.length) (c : UInt8) : ∃ x, kept all = x :: (kept (all ++ [c])).dropLast ∧
    kept (all ++ [c]) = (kept (all ++ [c])).dropLast ++ [c] := by
  have inside : all.length - logRingSize < all.length := by
    have some_ := logRingSize_pos
    omega
  have next : kept (all ++ [c]) = all.drop (all.length - logRingSize + 1) ++ [c] := by
    have shift : all.length + 1 - logRingSize = all.length - logRingSize + 1 := by omega
    rw [kept, List.length_append, List.length_singleton, shift, List.drop_append_of_le_length (by omega)]
  have front : (kept (all ++ [c])).dropLast = all.drop (all.length - logRingSize + 1) := by
    rw [next, List.dropLast_concat]
  refine ⟨all[all.length - logRingSize], ?_, ?_⟩
  · rw [front, kept, List.drop_eq_getElem_cons inside]
  · rw [front, next]

/-- The ring holds the last bytes, and the counters count the rest. -/
structure Keeps (s : LogState) (all : List UInt8) : Prop where
  holds : Holds logRingSize s.logRing ((s.logHead + logRingSize - s.logStored) % logRingSize) (kept all)
  head : s.logHead < logRingSize
  stored : s.logStored = min all.length logRingSize
  dropped : s.logDropped = all.length - logRingSize

theorem logInit_keeps (ring : Nat → UInt8) : Keeps (logInit ring) [] where
  holds := holds_nil (Nat.mod_lt _ logRingSize_pos)
  head := logRingSize_pos
  stored := (Nat.zero_min _).symm
  dropped := (Nat.zero_sub _).symm

theorem ringByte_keeps (keeps : Keeps s all) (c : UInt8) : Keeps (ringByte s c) (all ++ [c]) := by
  have head := keeps.head
  have stored := keeps.stored
  have dropped := keeps.dropped
  have length : (all ++ [c]).length = all.length + 1 := by simp
  have holds := keeps.holds
  by_cases room : s.logStored < logRingSize
  · have short : all.length < logRingSize := by omega
    have tail : ((s.logHead + 1) % logRingSize + logRingSize - (s.logStored + 1)) % logRingSize =
        (s.logHead + logRingSize - s.logStored) % logRingSize := by
      unfold logRingSize at *
      omega
    have place : ((s.logHead + logRingSize - s.logStored) % logRingSize + all.length) % logRingSize = s.logHead := by
      unfold logRingSize at *
      omega
    rw [kept_short (Nat.le_of_lt short)] at holds
    have pushed := holds.push short c
    rw [place, ← tail] at pushed
    have next : ringByte s c = { s with
        logRing := Function.update s.logRing s.logHead c
        logHead := (s.logHead + 1) % logRingSize
        logStored := s.logStored + 1 } := if_pos room
    rw [next]
    refine ⟨?_, Nat.mod_lt _ logRingSize_pos, ?_, ?_⟩
    · rw [kept_short (by omega)]
      exact pushed
    · change s.logStored + 1 = _
      omega
    · change s.logDropped = _
      omega
  · have full : s.logStored = logRingSize := by omega
    have long : logRingSize ≤ all.length := by omega
    obtain ⟨x, old, new⟩ := kept_full long c
    have tail : (s.logHead + logRingSize - s.logStored) % logRingSize = s.logHead := by
      rw [full, Nat.add_sub_cancel, Nat.mod_eq_of_lt head]
    have size := kept_length all
    rw [old, List.length_cons, Nat.min_eq_right long] at size
    rw [tail, old] at holds
    have replaced := holds.replace size c
    rw [← new] at replaced
    have next : ringByte s c = { s with
        logRing := Function.update s.logRing s.logHead c
        logHead := (s.logHead + 1) % logRingSize
        logDropped := s.logDropped + 1 } := if_neg room
    rw [next]
    refine ⟨?_, Nat.mod_lt _ logRingSize_pos, ?_, ?_⟩
    · change Holds _ _ (((s.logHead + 1) % logRingSize + logRingSize - s.logStored) % logRingSize) _
      rw [full, Nat.add_sub_cancel, Nat.mod_mod]
      exact replaced
    · change s.logStored = _
      omega
    · change s.logDropped + 1 = _
      omega

theorem ringBytes_keeps (keeps : Keeps s all) (text : List UInt8) : Keeps (text.foldl ringByte s) (all ++ text) := by
  induction text generalizing s all with
  | nil =>
    rw [List.append_nil]
    exact keeps
  | cons c text ih =>
    have rest := ih (ringByte_keeps keeps c)
    rw [List.append_assoc] at rest
    exact rest

theorem ringAppend_keeps (keeps : Keeps s all) {text : List UInt8} (short : text.length < logRingSize) :
    Keeps (ringAppend s text) (all ++ text) := by
  have whole : ringAppend s text =
      { text.foldl ringByte s with bytesWritten := s.bytesWritten + text.length } := by
    rw [ringAppend, if_neg (Nat.not_le.mpr short)]
  have bytes := ringBytes_keeps keeps text
  rw [whole]
  exact ⟨bytes.holds, bytes.head, bytes.stored, bytes.dropped⟩

theorem ringAppends_keeps (keeps : Keeps s all) {records : List (List UInt8)}
    (short : ∀ record ∈ records, record.length < logRingSize) :
    Keeps (records.foldl ringAppend s) (all ++ records.flatten) := by
  induction records generalizing s all with
  | nil =>
    rw [List.flatten_nil, List.append_nil]
    exact keeps
  | cons record records ih =>
    have first := ringAppend_keeps keeps (short record List.mem_cons_self)
    have rest := ih first fun r member => short r (List.mem_cons_of_mem _ member)
    rw [List.append_assoc] at rest
    exact rest

theorem logRead_keeps (keeps : Keeps s all) (size offset : Nat) :
    logRead s size offset = ((kept all).drop offset).take size := by
  have length : (kept all).length = s.logStored := by
    rw [kept_length, keeps.stored]
  unfold logRead
  dsimp only
  split
  · rename_i past
    rw [List.drop_eq_nil_of_le (by omega), List.take_nil]
  · rename_i near
    have window := keeps.holds.read offset (min size (s.logStored - offset)) (by omega)
    have cut : ((kept all).drop offset).take (min size (s.logStored - offset)) = ((kept all).drop offset).take size := by
      have all_ : ((kept all).drop offset).take (s.logStored - offset) = (kept all).drop offset := by
        apply List.take_of_length_le
        simp only [List.length_drop, length, Nat.le_refl]
      rw [← List.take_take, all_]
    rw [← cut, ← window]
    apply List.map_congr_left
    intro i _
    rw [Nat.mod_add_mod ((_ % _) + offset)]

end Ring

theorem log_exact (ring : Nat → UInt8) (records : List (List UInt8)) (short : ∀ record ∈ records, record.length < logRingSize) :
    (∀ size offset, logRead (records.foldl ringAppend (logInit ring)) size offset =
      ((kept records.flatten).drop offset).take size) ∧
    (kept records.flatten).length = min records.flatten.length logRingSize ∧
    kept records.flatten <:+ records.flatten ∧
    logSize (records.foldl ringAppend (logInit ring)) = min records.flatten.length logRingSize ∧
    (records.foldl ringAppend (logInit ring)).logDropped + logSize (records.foldl ringAppend (logInit ring)) =
      records.flatten.length := by
  have keeps := ringAppends_keeps (logInit_keeps ring) short
  rw [List.nil_append] at keeps
  have stored := keeps.stored
  have dropped := keeps.dropped
  refine ⟨logRead_keeps keeps, kept_length _, List.drop_suffix _ _, stored, ?_⟩
  change _ + LogState.logStored _ = _
  omega

theorem log_of_two_records : logRead ([[72, 105], [33]].foldl ringAppend (logInit fun _ => 0)) 2 1 = [105, 33] :=
  ((log_exact (fun _ => 0) [[72, 105], [33]] (by decide)).1 2 1).trans (by decide)

end Qito.Log
