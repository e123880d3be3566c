import Qito.Http.Chunked

/-! The chunked coding and decode_chunked. A message is any list of chunks with data,
a last chunk of size zero and a trailer. -/
namespace Qito.Http
open Words Faults

/-- A chunk as it is sent: the digits of its size, its extension and its data. -/
structure Chunk where
  size : Bytes
  extension : Bytes
  data : Bytes

def crlf : Bytes := [13, 10]

def Chunk.text (c : Chunk) : Bytes := c.size ++ c.extension ++ crlf ++ c.data ++ crlf

/-- The digits are there; what follows them is on their line and no digit. -/
structure SizeLine (size extension : Bytes) : Prop where
  some : size ≠ []
  digits : ∀ c ∈ size, isHex c = true
  apart : ∀ c ∈ extension.head?, isHex c = false
  whole : ∀ c ∈ extension, c ≠ 10

structure Chunk.Sound (c : Chunk) : Prop where
  line : SizeLine c.size c.extension
  number : numberFrom 0 c.size = c.data.length
  data : c.data ≠ []

structure Message where
  chunks : List Chunk
  zeros : Bytes
  extension : Bytes
  trailer : Bytes

structure Message.Sound (m : Message) : Prop where
  chunks : ∀ c ∈ m.chunks, c.Sound
  line : SizeLine m.zeros m.extension
  number : numberFrom 0 m.zeros = 0

/-- The chunk that ends a message, and the trailer. -/
def Message.ending (m : Message) : Bytes := m.zeros ++ m.extension ++ crlf ++ m.trailer

def Message.encoded (m : Message) : Bytes := m.chunks.flatMap Chunk.text ++ m.ending

def Message.body (m : Message) : Bytes := m.chunks.flatMap Chunk.data

section Lines
variable {size extension rest : Bytes}

theorem SizeLine.split (line : SizeLine size extension) :
    (size ++ extension ++ crlf ++ rest).takeWhile isHex = size ∧
      (size ++ extension ++ crlf ++ rest).dropWhile isHex = (extension ++ [13]) ++ 10 :: rest := by
  have stop : ((extension ++ [13]) ++ 10 :: rest).takeWhile isHex = [] ∧
      ((extension ++ [13]) ++ 10 :: rest).dropWhile isHex = (extension ++ [13]) ++ 10 :: rest := by
    cases ext : extension with
    | nil => exact ⟨List.takeWhile_cons_of_neg (by decide), List.dropWhile_cons_of_neg (by decide)⟩
    | cons c more =>
      have other : ¬ isHex c = true := by
        rw [line.apart c (by rw [ext]; rfl)]
        decide
      exact ⟨List.takeWhile_cons_of_neg other, List.dropWhile_cons_of_neg other⟩
  have shape : size ++ extension ++ crlf ++ rest = size ++ ((extension ++ [13]) ++ 10 :: rest) := by
    simp [crlf]
  rw [shape, List.takeWhile_append_of_pos line.digits, List.dropWhile_append_of_pos line.digits, stop.1, stop.2, List.append_nil]
  exact ⟨rfl, rfl⟩

theorem SizeLine.leads (line : SizeLine size extension) (small : numberFrom 0 size < 2 ^ 64) :
    leadingSize (size ++ extension ++ crlf ++ rest) = numberFrom 0 size := by
  rw [leadingSize, line.split.1, wrap64_of_lt small]

theorem SizeLine.resumes (line : SizeLine size extension) :
    (crlf ++ (size ++ extension ++ crlf ++ rest)).dropWhile isEnd = size ++ extension ++ crlf ++ rest := by
  cases shape : size with
  | nil => cases line.some shape
  | cons c more =>
    have digit : isHex c = true := line.digits c (by rw [shape]; exact List.mem_cons_self)
    have first : ¬ isEnd c = true := by
      intro ends
      rw [isEnd, Bool.or_eq_true, beq_iff_eq, beq_iff_eq] at ends
      rcases ends with rfl | rfl
      · cases digit
      · cases digit
    exact List.dropWhile_cons_of_neg first

theorem SizeLine.kept (line : SizeLine size extension) : ∀ c ∈ extension ++ [13], c ≠ 10 := by
  intro c member
  rcases List.mem_append.mp member with old | new
  · exact line.whole c old
  · cases List.mem_singleton.mp new
    decide

end Lines

section Messages
variable {chunks : List Chunk} {m : Message} {out gap : Bytes} {spare : UInt8} {len fuel : Nat} {body : Bytes}

theorem text_shape (c : Chunk) (rest : Bytes) : c.text ++ rest = c.size ++ c.extension ++ crlf ++ (c.data ++ (crlf ++ rest)) := by
  simp [Chunk.text]

theorem resumes (sound : m.Sound) (all : ∀ c ∈ chunks, c.Sound) :
    (crlf ++ (chunks.flatMap Chunk.text ++ m.ending)).dropWhile isEnd = chunks.flatMap Chunk.text ++ m.ending := by
  cases chunks with
  | nil => exact sound.line.resumes
  | cons c chunks =>
    rw [List.flatMap_cons, List.append_assoc, text_shape]
    exact (all c List.mem_cons_self).line.resumes

theorem rounds_decode (sound : m.Sound) (all : ∀ c ∈ chunks, c.Sound)
    (unread : Unread out gap (chunks.flatMap Chunk.text ++ m.ending) spare len body) (enough : chunks.length < fuel) :
    ∃ c rest, decodeRounds len fuel body (out ++ gap).length out.length =
      .ok ((out ++ chunks.flatMap Chunk.data).length, out ++ chunks.flatMap Chunk.data ++ c :: rest) := by
  induction chunks generalizing out gap body fuel with
  | nil =>
    cases fuel with
    | zero => cases enough
    | succ fuel =>
      have zero : leadingSize m.ending = 0 := by
        rw [Message.ending, sound.line.leads (by rw [sound.number]; decide), sound.number]
      obtain ⟨c, rest, left⟩ : ∃ c rest, gap ++ m.ending ++ [spare] = c :: rest := by
        apply List.exists_cons_of_ne_nil
        simp
      refine ⟨c, rest, ?_⟩
      rw [unread.round_last zero, List.flatMap_nil, List.append_nil, unread.shape, ← left]
      simp
  | cons c chunks ih =>
    cases fuel with
    | zero => cases enough
    | succ fuel =>
      obtain ⟨here, later⟩ := List.forall_mem_cons.mp all
      have word := unread.word
      have shape : (c :: chunks).flatMap Chunk.text ++ m.ending =
          c.size ++ c.extension ++ crlf ++ (c.data ++ (crlf ++ (chunks.flatMap Chunk.text ++ m.ending))) := by
        rw [List.flatMap_cons, List.append_assoc, text_shape]
      rw [shape] at unread
      obtain ⟨-, line⟩ := here.line.split
      have parts := unread.parts line
      rw [@List.length_append _ c.data] at parts
      have size := @SizeLine.leads _ _ (c.data ++ (crlf ++ (chunks.flatMap Chunk.text ++ m.ending))) here.line
        (by rw [here.number]; omega)
      rw [here.number] at size
      have some_ : c.data.length ≠ 0 := fun none_ => here.data (List.eq_nil_of_length_eq_zero none_)
      obtain ⟨gap', body', unread', run⟩ := unread.round_chunk line here.line.kept (by rwa [size])
        (by rw [size, List.length_append]; omega)
      rw [size, List.take_left, List.drop_left, resumes sound later] at unread'
      rw [size, List.take_left] at run
      obtain ⟨c', rest, run'⟩ := ih later unread' (Nat.lt_of_succ_lt_succ enough)
      rw [run, run', List.flatMap_cons, ← List.append_assoc]
      exact ⟨c', rest, rfl⟩

theorem chunks_short (all : ∀ c ∈ chunks, c.Sound) : chunks.length ≤ (chunks.flatMap Chunk.text).length := by
  induction chunks with
  | nil => exact Nat.zero_le _
  | cons c chunks ih =>
    have rest := ih fun c' member => all c' (List.mem_cons_of_mem _ member)
    rw [List.length_cons, List.flatMap_cons, List.length_append, Chunk.text, List.length_append]
    simp only [crlf, List.length_cons, List.length_nil]
    omega

/-- Decoding in place gives the body of every message, and its length. -/
theorem decodeChunked_encoded (m : Message) (sound : m.Sound) (spare : UInt8) (word : m.encoded.length + 1 < 2 ^ 64) :
    ∃ body', decodeChunked (m.encoded ++ [spare]) m.encoded.length = .ok (m.body.length, body') ∧
      body'.take m.body.length = m.body ∧ body'[m.body.length]? = some 0 := by
  have unread : Unread [] [] (m.chunks.flatMap Chunk.text ++ m.ending) spare m.encoded.length (m.encoded ++ [spare]) :=
    ⟨rfl, (Nat.zero_add _).symm, word⟩
  have enough : m.chunks.length < m.encoded.length + 1 := by
    rw [Message.encoded, List.length_append]
    exact Nat.lt_succ_of_le (Nat.le_add_right_of_le (chunks_short sound.chunks))
  obtain ⟨c, rest, run⟩ := rounds_decode sound sound.chunks unread enough
  change decodeRounds m.encoded.length (m.encoded.length + 1) (m.encoded ++ [spare]) 0 0 =
    .ok (m.body.length, m.body ++ c :: rest) at run
  have put : putChar (m.body ++ c :: rest) m.body.length 0 = .ok (m.body ++ 0 :: rest) := by
    simp [putChar]
  refine ⟨m.body ++ 0 :: rest, ?_, List.take_left, by simp⟩
  rw [decodeChunked, run]
  simp only [bind, Except.bind, put]
  rfl

/-- Two chunks, the first with an extension, its data ending in line ends and digits. -/
def twoChunks : Message where
  chunks := [⟨[48, 53], [59, 97], [1, 13, 10, 97, 57]⟩, ⟨[49], [], [10]⟩]
  zeros := [48, 48]
  extension := []
  trailer := [13, 10]

theorem twoChunks_sound : twoChunks.Sound where
  chunks := by
    intro c member
    rcases List.mem_cons.mp member with rfl | member
    · exact ⟨⟨by decide, by decide +kernel, by decide +kernel, by decide +kernel⟩, rfl, by decide⟩
    · cases List.mem_singleton.mp member
      exact ⟨⟨by decide, by decide +kernel, by decide +kernel, by decide +kernel⟩, rfl, by decide⟩
  line := ⟨by decide, by decide +kernel, by decide +kernel, by decide +kernel⟩
  number := rfl

theorem decodeChunked_encoded_two : ∃ body', decodeChunked (twoChunks.encoded ++ [0]) twoChunks.encoded.length = .ok (6, body') ∧
    body'.take 6 = [1, 13, 10, 97, 57, 10] ∧ body'[6]? = some 0 :=
  decodeChunked_encoded twoChunks twoChunks_sound 0 (by decide)

end Messages

end Qito.Http
