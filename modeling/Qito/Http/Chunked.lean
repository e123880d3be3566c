import Mathlib.Data.List.TakeWhile
import Qito.Lib.Words
import Qito.Lib.Faults

/-! decode_chunked of net/http.c. The memory it may use is the list of bytes from
body on; an access behind its end is a fault. -/
namespace Qito.Http
open Words Faults

abbrev Bytes := List UInt8

inductive Fault where
  | outside
  | uninitialised
  | endless
deriving DecidableEq

/-- body[at]. -/
def charAt (body : Bytes) (at_ : Nat) : Except Fault UInt8 :=
  match body[at_]? with
  | none => .error .outside
  | some c => .ok c

/-- body[at] = c. -/
def putChar (body : Bytes) (at_ : Nat) (c : UInt8) : Except Fault Bytes :=
  if at_ < body.length then .ok (body.set at_ c) else .error .outside

/-- memmove(body + target, body + source, count). -/
def memmove (body : Bytes) (target source count : Nat) : Except Fault Bytes :=
  if target + count ≤ body.length ∧ source + count ≤ body.length then
    .ok (body.take target ++ (body.drop source).take count ++ body.drop (target + count))
  else .error .outside

def hexValue (c : UInt8) : Option Nat :=
  if 48 ≤ c ∧ c ≤ 57 then some (c.toNat - 48)
  else if 97 ≤ c ∧ c ≤ 102 then some (c.toNat - 97 + 10)
  else if 65 ≤ c ∧ c ≤ 70 then some (c.toNat - 65 + 10)
  else none

/-- The digits of a chunk size: where they end, the number and whether there were any. -/
def readSize (body : Bytes) (len : Nat) : Nat → Nat → Nat → Bool → Except Fault (Nat × Nat × Bool)
  | 0, _, _, _ => .error .endless
  | fuel + 1, readAt, chunkSize, anyDigits =>
    if readAt < len then do
      let c ← charAt body readAt
      match hexValue c with
      | none => return (readAt, chunkSize, anyDigits)
      | some value => readSize body len fuel (readAt + 1) (wrap64 (wrap64 (chunkSize * 16) + value)) true
    else return (readAt, chunkSize, anyDigits)

/-- while (read_at < len && p(body[read_at])) read_at++ -/
def skipWhile (p : UInt8 → Bool) (body : Bytes) (len : Nat) : Nat → Nat → Except Fault Nat
  | 0, _ => .error .endless
  | fuel + 1, readAt =>
    if readAt < len then do
      let c ← charAt body readAt
      if p c then skipWhile p body len fuel (readAt + 1) else return readAt
    else return readAt

def inLine (c : UInt8) : Bool := c != 10

def isEnd (c : UInt8) : Bool := c == 13 || c == 10

/-- The rounds of the outer loop; the length and the memory they end with. -/
def decodeRounds (len : Nat) : Nat → Bytes → Nat → Nat → Except Fault (Nat × Bytes)
  | 0, _, _, _ => .error .endless
  | fuel + 1, body, readAt, writeAt =>
    if readAt < len then do
      let (readAt, chunkSize, anyDigits) ← readSize body len (len + 1) readAt 0 false
      if !anyDigits then return (writeAt, body)
      let readAt ← skipWhile inLine body len (len + 1) readAt
      let readAt := wrap64 (readAt + 1)
      if chunkSize = 0 then return (writeAt, body)
      let chunkSize := if wrap64 (readAt + chunkSize) > len then sub64 len readAt else chunkSize
      let body ← memmove body writeAt readAt chunkSize
      let readAt ← skipWhile isEnd body len (len + 1) (wrap64 (readAt + chunkSize))
      decodeRounds len fuel body readAt (wrap64 (writeAt + chunkSize))
    else return (writeAt, body)

def decodeChunked (body : Bytes) (len : Nat) : Except Fault (Nat × Bytes) := do
  let (writeAt, body) ← decodeRounds len (len + 1) body 0 0
  let body ← putChar body writeAt 0
  return (writeAt, body)

section Scans
variable {front text last : Bytes} {p : UInt8 → Bool} {fuel : Nat}

theorem charAt_front {c : UInt8} : charAt (front ++ c :: text ++ last) front.length = .ok c := by
  simp [charAt]

theorem pass {c : UInt8} : front ++ c :: text ++ last = front ++ [c] ++ text ++ last := by simp

theorem pass_length {c : UInt8} : front.length + (c :: text).length = (front ++ [c]).length + text.length := by
  rw [List.length_cons, List.length_append, List.length_singleton]
  omega

theorem skipWhile_stops (enough : text.length < fuel) :
    skipWhile p (front ++ text ++ last) (front.length + text.length) fuel front.length =
      .ok (front.length + (text.takeWhile p).length) := by
  induction text generalizing front fuel with
  | nil =>
    cases fuel with
    | zero => cases enough
    | succ fuel =>
      rw [skipWhile, if_neg (by simp)]
      rfl
  | cons c text ih =>
    cases fuel with
    | zero => cases enough
    | succ fuel =>
      have inside : front.length < front.length + (c :: text).length := by simp
      rw [skipWhile, if_pos inside, charAt_front]
      cases here : p c with
      | false =>
        rw [List.takeWhile_cons_of_neg (by simp [here])]
        simp [bind, Except.bind, pure, Except.pure, here]
      | true =>
        have next := @ih (front ++ [c]) _ (Nat.lt_of_succ_lt_succ enough)
        rw [← pass, ← pass_length, List.length_append, List.length_singleton] at next
        simp only [bind, Except.bind, here, if_true]
        rw [List.takeWhile_cons_of_pos here, next, List.length_cons, Nat.add_assoc, Nat.add_comm 1]

def isHex (c : UInt8) : Bool := (hexValue c).isSome

/-- The number that hexadecimal digits go on with after n. -/
def numberFrom (n : Nat) (digits : Bytes) : Nat := digits.foldl (fun n c => n * 16 + (hexValue c).getD 0) n

theorem wrap64_step (n value : Nat) : wrap64 (wrap64 (wrap64 n * 16) + value) = wrap64 (n * 16 + value) := by
  unfold wrap64
  omega

theorem readSize_stops {n : Nat} {anyDigits : Bool} (enough : text.length < fuel) :
    readSize (front ++ text ++ last) (front.length + text.length) fuel front.length (wrap64 n) anyDigits =
      .ok (front.length + (text.takeWhile isHex).length, wrap64 (numberFrom n (text.takeWhile isHex)),
        anyDigits || !(text.takeWhile isHex).isEmpty) := by
  induction text generalizing front fuel n anyDigits with
  | nil =>
    cases fuel with
    | zero => cases enough
    | succ fuel =>
      rw [readSize, if_neg (by simp)]
      simp [numberFrom, pure, Except.pure]
  | cons c text ih =>
    cases fuel with
    | zero => cases enough
    | succ fuel =>
      have inside : front.length < front.length + (c :: text).length := by simp
      rw [readSize, if_pos inside, charAt_front]
      cases here : hexValue c with
      | none =>
        rw [List.takeWhile_cons_of_neg (by simp [isHex, here])]
        simp [bind, Except.bind, pure, Except.pure, here, numberFrom]
      | some value =>
        have next := @ih (front ++ [c]) _ (n * 16 + value) true (Nat.lt_of_succ_lt_succ enough)
        rw [← pass, ← pass_length, List.length_append, List.length_singleton] at next
        have digit : isHex c = true := by rw [isHex, here]; rfl
        have total : numberFrom n (c :: text.takeWhile isHex) = numberFrom (n * 16 + value) (text.takeWhile isHex) := by
          simp [numberFrom, here]
        simp only [bind, Except.bind, here, wrap64_step]
        rw [List.takeWhile_cons_of_pos digit, total, next, List.length_cons, Nat.add_assoc, Nat.add_comm 1]
        simp

theorem memmove_down {out gap data rest : Bytes} : memmove (out ++ gap ++ data ++ rest) out.length (out ++ gap).length data.length =
    .ok (out ++ data ++ (gap ++ data).drop data.length ++ rest) := by
  have fits : out.length + data.length ≤ (out ++ gap ++ data ++ rest).length ∧
      (out ++ gap).length + data.length ≤ (out ++ gap ++ data ++ rest).length := by
    simp only [List.length_append]
    omega
  have before : (out ++ gap ++ data ++ rest).take out.length = out := by
    rw [List.append_assoc, List.append_assoc, List.take_left]
  have moved : ((out ++ gap ++ data ++ rest).drop (out ++ gap).length).take data.length = data := by
    rw [List.append_assoc, List.drop_left, List.take_left]
  have after : (out ++ gap ++ data ++ rest).drop (out.length + data.length) = (gap ++ data).drop data.length ++ rest := by
    have short : data.length ≤ (gap ++ data).length := by simp
    rw [List.append_assoc, List.append_assoc, ← List.drop_drop, List.drop_left, ← List.append_assoc,
      List.drop_append_of_le_length short]
  rw [memmove, if_pos fits, before, moved, after, ← List.append_assoc]

end Scans

section Rounds

/-- The number at the start of a text, as 64 bits. -/
def leadingSize (text : Bytes) : Nat := wrap64 (numberFrom 0 (text.takeWhile isHex))

/-- Where a chunk with data starts, its size line has an end, and the position of its
data, with that many bytes unread, and its size add up to less than 2^64. -/
inductive Framed (len : Nat) : Bytes → Prop where
  | last {text : Bytes} (zero : leadingSize text = 0) : Framed len text
  | chunk {text ext after : Bytes} (line : text.dropWhile isHex = ext ++ 10 :: after) (whole : ∀ c ∈ ext, c ≠ 10)
      (small : len - after.length + leadingSize text < 2 ^ 64)
      (next : Framed len ((after.drop (leadingSize text)).dropWhile isEnd)) : Framed len text

variable {out gap text ext after : Bytes} {spare : UInt8} {len fuel : Nat}

theorem memmove_far {body : Bytes} {target source count : Nat} (far : body.length < source + count) :
    memmove body target source count = .error .outside := by
  rw [memmove, if_neg (by omega)]

/-- The state between two rounds: what is decoded, what is left over, what is unread. -/
structure Unread (out gap text : Bytes) (spare : UInt8) (len : Nat) (body : Bytes) : Prop where
  shape : body = out ++ gap ++ text ++ [spare]
  total : len = (out ++ gap).length + text.length
  word : len + 1 < 2 ^ 64

variable {body : Bytes} (unread : Unread out gap text spare len body)
include unread

theorem Unread.length : body.length = len + 1 := by
  rw [unread.shape, unread.total, List.length_append, List.length_append, List.length_singleton]

theorem Unread.reads : readSize body len (len + 1) (out ++ gap).length 0 false =
    .ok ((out ++ gap).length + (text.takeWhile isHex).length, leadingSize text, !(text.takeWhile isHex).isEmpty) := by
  have enough : text.length < len + 1 := by
    rw [unread.total]
    omega
  have run := @readSize_stops (out ++ gap) text [spare] _ 0 false enough
  rw [← unread.shape, ← unread.total, Bool.false_or] at run
  exact run

theorem Unread.skips : skipWhile inLine body len (len + 1) ((out ++ gap).length + (text.takeWhile isHex).length) =
    .ok ((out ++ gap).length + (text.takeWhile isHex).length + ((text.dropWhile isHex).takeWhile inLine).length) := by
  have split : text = text.takeWhile isHex ++ text.dropWhile isHex := List.takeWhile_append_dropWhile.symm
  have total : len = (out ++ gap ++ text.takeWhile isHex).length + (text.dropWhile isHex).length := by
    have parts := congrArg List.length split
    rw [List.length_append] at parts
    rw [unread.total, @List.length_append _ (out ++ gap), Nat.add_assoc, ← parts]
  have enough : (text.dropWhile isHex).length < len + 1 := by
    rw [total]
    omega
  have run := @skipWhile_stops (out ++ gap ++ text.takeWhile isHex) _ [spare] inLine _ enough
  rw [← total, List.append_assoc (out ++ gap), ← split, ← unread.shape, List.length_append] at run
  exact run

theorem Unread.ends : skipWhile isEnd body len (len + 1) (out ++ gap).length =
    .ok (out ++ (gap ++ text.takeWhile isEnd)).length ∧
      Unread out (gap ++ text.takeWhile isEnd) (text.dropWhile isEnd) spare len body := by
  have enough : text.length < len + 1 := by
    rw [unread.total]
    omega
  have split := List.takeWhile_append_dropWhile (p := isEnd) (l := text)
  have run := @skipWhile_stops (out ++ gap) _ [spare] isEnd _ enough
  rw [← unread.shape, ← unread.total] at run
  constructor
  · rw [run, ← List.append_assoc, @List.length_append _ _ (text.takeWhile isEnd)]
  · constructor
    · rw [unread.shape, ← List.append_assoc, List.append_assoc (out ++ gap) (text.takeWhile isEnd), split]
    · have parts := congrArg List.length split
      rw [List.length_append] at parts
      rw [unread.total, ← List.append_assoc, @List.length_append _ _ (text.takeWhile isEnd), Nat.add_assoc, parts]
    · exact unread.word

theorem Unread.round_last (zero : leadingSize text = 0) :
    decodeRounds len (fuel + 1) body (out ++ gap).length out.length = .ok (out.length, body) := by
  rw [decodeRounds]
  split
  · rw [unread.reads]
    simp only [bind, Except.bind, unread.skips, zero, if_true]
    split
    · rfl
    · rfl
  · rfl

theorem Unread.round (positive : leadingSize text ≠ 0) :
    decodeRounds len (fuel + 1) body (out ++ gap).length out.length = (do
      let readAt := wrap64 ((out ++ gap).length + (text.takeWhile isHex).length +
        ((text.dropWhile isHex).takeWhile inLine).length + 1)
      let chunkSize := if wrap64 (readAt + leadingSize text) > len then sub64 len readAt else leadingSize text
      let body ← memmove body out.length readAt chunkSize
      let readAt ← skipWhile isEnd body len (len + 1) (wrap64 (readAt + chunkSize))
      decodeRounds len fuel body readAt (wrap64 (out.length + chunkSize))) := by
  have digits : text.takeWhile isHex ≠ [] := by
    intro none_
    apply positive
    rw [leadingSize, none_]
    rfl
  have inside : (out ++ gap).length < len := by
    cases text with
    | nil => cases digits rfl
    | cons c text =>
      rw [unread.total, List.length_cons]
      omega
  rw [decodeRounds, if_pos inside, unread.reads]
  simp only [bind, Except.bind, unread.skips, positive, if_false, List.isEmpty_eq_false_iff.mpr digits]
  rfl

theorem Unread.round_cut (positive : leadingSize text ≠ 0) (open_ : ∀ c ∈ text.dropWhile isHex, c ≠ 10) :
    decodeRounds len (fuel + 1) body (out ++ gap).length out.length = .error .outside := by
  have line : (text.dropWhile isHex).takeWhile inLine = text.dropWhile isHex := by
    rw [List.takeWhile_eq_self_iff]
    exact fun c member => bne_iff_ne.mpr (open_ c member)
  have parts := congrArg List.length (List.takeWhile_append_dropWhile (p := isHex) (l := text))
  rw [List.length_append] at parts
  have word := unread.word
  have readAt : wrap64 ((out ++ gap).length + (text.takeWhile isHex).length + (text.dropWhile isHex).length + 1) = len + 1 := by
    rw [Nat.add_assoc (out ++ gap).length, parts, ← unread.total]
    exact wrap64_of_lt word
  have size : leadingSize text < 2 ^ 64 := wrap64_lt _
  have far : len + 1 < len + 1 + (if wrap64 (len + 1 + leadingSize text) > len then sub64 len (len + 1) else leadingSize text) := by
    split
    · have all : sub64 len (len + 1) = 2 ^ 64 - 1 := by
        unfold sub64
        omega
      omega
    · omega
  have lost : body.length < len + 1 + (if wrap64 (len + 1 + leadingSize text) > len then sub64 len (len + 1)
      else leadingSize text) := by
    rw [unread.length]
    exact far
  rw [unread.round positive, line]
  simp only [readAt, memmove_far lost]
  rfl

variable (line : text.dropWhile isHex = ext ++ 10 :: after) (whole : ∀ c ∈ ext, c ≠ 10)
include line

theorem Unread.parts : len = (out ++ gap).length + (text.takeWhile isHex).length + ext.length + 1 + after.length := by
  have parts := congrArg List.length (List.takeWhile_append_dropWhile (p := isHex) (l := text))
  rw [List.length_append, line, List.length_append, List.length_cons] at parts
  rw [unread.total]
  omega

theorem Unread.moved {data more : Bytes} (split : after = data ++ more) : ∃ gap' body',
    memmove body out.length (len - after.length) data.length = .ok body' ∧
      Unread (out ++ data) gap' more spare len body' ∧ (out ++ data ++ gap').length = len - more.length := by
  have parts := unread.parts line
  have long : after.length = data.length + more.length := by rw [split, List.length_append]
  have pieces : text = text.takeWhile isHex ++ (ext ++ 10 :: (data ++ more)) := by
    rw [← split, ← line]
    exact List.takeWhile_append_dropWhile.symm
  have shape : body = out ++ (gap ++ text.takeWhile isHex ++ ext ++ [10]) ++ data ++ (more ++ [spare]) := by
    apply unread.shape.trans
    apply (congrArg (fun t => out ++ gap ++ t ++ [spare]) pieces).trans
    simp
  have start : len - after.length = (out ++ (gap ++ text.takeWhile isHex ++ ext ++ [10])).length := by
    simp only [List.length_append, List.length_singleton] at parts ⊢
    omega
  have left : ((gap ++ text.takeWhile isHex ++ ext ++ [10] ++ data).drop data.length).length =
      (gap ++ text.takeWhile isHex ++ ext ++ [10]).length := by
    rw [List.length_drop, List.length_append, Nat.add_sub_cancel]
  have place : (out ++ data ++ (gap ++ text.takeWhile isHex ++ ext ++ [10] ++ data).drop data.length).length =
      len - more.length := by
    rw [List.length_append, left]
    simp only [List.length_append, List.length_singleton] at parts ⊢
    omega
  refine ⟨(gap ++ text.takeWhile isHex ++ ext ++ [10] ++ data).drop data.length, _, ?_, ⟨rfl, ?_, unread.word⟩, place⟩
  · rw [start, shape, memmove_down, List.append_assoc]
    simp
  · rw [place]
    omega

include whole

theorem Unread.start : wrap64 ((out ++ gap).length + (text.takeWhile isHex).length +
    ((text.dropWhile isHex).takeWhile inLine).length + 1) = len - after.length := by
  have parts := unread.parts line
  have word := unread.word
  have plain : ∀ c ∈ ext, inLine c = true := fun c member => bne_iff_ne.mpr (whole c member)
  have stop : (text.dropWhile isHex).takeWhile inLine = ext := by
    rw [line, List.takeWhile_append_of_pos plain, List.takeWhile_cons_of_neg (by decide), List.append_nil]
  rw [stop, wrap64_of_lt (by omega)]
  omega

theorem Unread.round_wraps (positive : leadingSize text ≠ 0) (big : 2 ^ 64 ≤ len - after.length + leadingSize text) :
    decodeRounds len (fuel + 1) body (out ++ gap).length out.length = .error .outside := by
  have word := unread.word
  have size : leadingSize text < 2 ^ 64 := wrap64_lt _
  have uncut : ¬ wrap64 (len - after.length + leadingSize text) > len := by
    unfold wrap64
    omega
  have far : body.length < len - after.length + leadingSize text := by
    rw [unread.length]
    omega
  rw [unread.round positive, unread.start line whole]
  simp only [if_neg uncut, memmove_far far]
  rfl

theorem Unread.round_chunk (positive : leadingSize text ≠ 0) (small : len - after.length + leadingSize text < 2 ^ 64) :
    ∃ gap' body', Unread (out ++ after.take (leadingSize text)) gap' ((after.drop (leadingSize text)).dropWhile isEnd) spare len body' ∧
      decodeRounds len (fuel + 1) body (out ++ gap).length out.length =
        decodeRounds len fuel body' (out ++ after.take (leadingSize text) ++ gap').length
          (out ++ after.take (leadingSize text)).length := by
  have parts := unread.parts line
  have word := unread.word
  have cut : (if wrap64 (len - after.length + leadingSize text) > len then sub64 len (len - after.length) else leadingSize text) =
      (after.take (leadingSize text)).length := by
    rw [wrap64_of_lt small, sub64_of_le (Nat.sub_le ..) (by omega), List.length_take]
    split
    · omega
    · omega
  obtain ⟨gap₁, body₁, run, unread₁, place⟩ := unread.moved line (List.take_append_drop (leadingSize text) after).symm
  obtain ⟨ends, unread₂⟩ := unread₁.ends
  have total := unread₁.total
  have moved : wrap64 (len - after.length + (after.take (leadingSize text)).length) =
      (out ++ after.take (leadingSize text) ++ gap₁).length := by
    have long := congrArg List.length (List.take_append_drop (leadingSize text) after)
    rw [List.length_append] at long
    rw [place, wrap64_of_lt (by omega)]
    omega
  have written : wrap64 (out.length + (after.take (leadingSize text)).length) = (out ++ after.take (leadingSize text)).length := by
    rw [← List.length_append, wrap64_of_lt]
    rw [List.length_append] at total
    omega
  refine ⟨_, body₁, unread₂, ?_⟩
  rw [unread.round positive, unread.start line whole]
  simp only [cut, run, bind, Except.bind, moved, ends, written]

end Rounds

section Safety
variable {body : Bytes} {len : Nat}

theorem dropWhile_length (p : UInt8 → Bool) (text : Bytes) : (text.dropWhile p).length ≤ text.length :=
  (List.dropWhile_sublist p).length_le

theorem line_feed (text : Bytes) :
    (∀ c ∈ text, c ≠ 10) ∨ ∃ ext after, text = ext ++ 10 :: after ∧ ∀ c ∈ ext, c ≠ 10 := by
  induction text with
  | nil => exact .inl (fun c member => absurd member List.not_mem_nil)
  | cons c text ih =>
    by_cases here : c = 10
    · subst here
      exact .inr ⟨[], text, rfl, fun c member => absurd member List.not_mem_nil⟩
    · rcases ih with open_ | ⟨ext, after, rfl, whole⟩
      · exact .inl (List.forall_mem_cons.mpr ⟨here, open_⟩)
      · exact .inr ⟨c :: ext, after, rfl, List.forall_mem_cons.mpr ⟨here, whole⟩⟩

theorem round_shorter {text ext after : Bytes} (line : text.dropWhile isHex = ext ++ 10 :: after) :
    ((after.drop (leadingSize text)).dropWhile isEnd).length < text.length := by
  have parts := congrArg List.length line
  rw [List.length_append, List.length_cons] at parts
  have less := dropWhile_length isHex text
  have less' := dropWhile_length isEnd (after.drop (leadingSize text))
  rw [List.length_drop] at less'
  omega

theorem rounds_safe {out gap text : Bytes} {spare : UInt8} {fuel : Nat} (unread : Unread out gap text spare len body)
    (enough : text.length < fuel) (framed : Framed len text) :
    ∃ n body', decodeRounds len fuel body (out ++ gap).length out.length = .ok (n, body') ∧ n ≤ len ∧ body'.length = len + 1 := by
  induction framed generalizing out gap body fuel with
  | @last text zero =>
    cases fuel with
    | zero => cases enough
    | succ fuel =>
      refine ⟨out.length, body, unread.round_last zero, ?_, unread.length⟩
      rw [unread.total, List.length_append]
      omega
  | @chunk text ext after line whole small next ih =>
    cases fuel with
    | zero => cases enough
    | succ fuel =>
      by_cases zero : leadingSize text = 0
      · refine ⟨out.length, body, unread.round_last zero, ?_, unread.length⟩
        rw [unread.total, List.length_append]
        omega
      · obtain ⟨gap', body', unread', run⟩ := unread.round_chunk line whole zero small
        rw [run]
        have shorter := round_shorter line
        exact ih unread' (by omega)

theorem rounds_framed {out gap text : Bytes} {spare : UInt8} {fuel : Nat} (unread : Unread out gap text spare len body)
    (enough : text.length < fuel) (returns : Returns (decodeRounds len fuel body (out ++ gap).length out.length)) :
    Framed len text := by
  induction fuel generalizing out gap text body with
  | zero => cases enough
  | succ fuel ih =>
    by_cases zero : leadingSize text = 0
    · exact .last zero
    · rcases line_feed (text.dropWhile isHex) with open_ | ⟨ext, after, line, whole⟩
      · rw [unread.round_cut zero open_] at returns
        cases (returns_error _).mp returns
      · by_cases small : len - after.length + leadingSize text < 2 ^ 64
        · obtain ⟨gap', body', unread', run⟩ := unread.round_chunk line whole zero small
          rw [run] at returns
          have shorter := round_shorter line
          exact .chunk line whole small (ih unread' (by omega) returns)
        · rw [unread.round_wraps line whole zero (Nat.le_of_not_lt small)] at returns
          cases (returns_error _).mp returns

theorem unread_start (stored : body.length = len + 1) (word : len + 1 < 2 ^ 64) :
    ∃ spare, Unread [] [] (body.take len) spare len body := by
  obtain ⟨text, spare, rfl⟩ : ∃ text spare, body = text ++ [spare] := by
    have some_ : body ≠ [] := by
      rintro rfl
      cases stored
    exact ⟨body.dropLast, body.getLast some_, (List.dropLast_append_getLast some_).symm⟩
  rw [List.length_append, List.length_singleton, Nat.add_right_cancel_iff] at stored
  have text_ : (text ++ [spare]).take len = text := by rw [← stored, List.take_left]
  refine ⟨spare, ?_, ?_, word⟩
  · rw [text_]
    rfl
  · rw [text_, stored]
    simp

/-- decode_chunked stays in the body, and ends, exactly for the bodies whose chunks are framed. -/
theorem decodeChunked_safe_iff (body : Bytes) (len : Nat) (stored : body.length = len + 1) (word : len + 1 < 2 ^ 64) :
    (∃ n body', decodeChunked body len = .ok (n, body') ∧ n ≤ len ∧ body'.length = len + 1) ↔ Framed len (body.take len) := by
  obtain ⟨spare, unread⟩ := unread_start stored word
  have enough : (body.take len).length < len + 1 := Nat.lt_succ_of_le (List.length_take_le ..)
  constructor
  · rintro ⟨n, body', run, -, -⟩
    obtain ⟨r, rounds, -⟩ := bind_ok.mp run
    exact rounds_framed unread enough ⟨r, rounds⟩
  · intro framed
    obtain ⟨n, body', run, short, length⟩ := rounds_safe unread enough framed
    have inside : n < body'.length := by omega
    refine ⟨n, body'.set n 0, ?_, short, ?_⟩
    · rw [decodeChunked]
      change decodeRounds len (len + 1) body 0 0 = _ at run
      simp only [run, bind, Except.bind, putChar, if_pos inside]
      rfl
    · rw [List.length_set, length]

/-- A body that is cut off inside its first size line. -/
theorem decodeChunked_cut : ¬ ∀ (body : Bytes) (len : Nat), body.length = len + 1 → len + 1 < 2 ^ 64 →
    ∃ n body', decodeChunked body len = .ok (n, body') ∧ n ≤ len ∧ body'.length = len + 1 := by
  intro always
  obtain ⟨n, body', run, -⟩ := always [53, 0] 1 rfl (by decide)
  have lost : decodeChunked [53, 0] 1 = .error .outside := rfl
  cases lost.symm.trans run

/-- The chunk 1, 2, 3 and the last one. -/
theorem decodeChunked_safe_three : ∃ n body', decodeChunked [51, 13, 10, 1, 2, 3, 13, 10, 48, 13, 10, 7] 11 = .ok (n, body') ∧
    n ≤ 11 ∧ body'.length = 12 := by
  apply (decodeChunked_safe_iff _ 11 rfl (by decide)).mpr
  apply @Framed.chunk _ _ [13]
  · rfl
  · decide
  · decide
  · exact .last rfl

end Safety

end Qito.Http
