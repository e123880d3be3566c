import Qito.Net.Tcp

/-! The reply half of dns_resolve. A read outside the received bytes and a loop that
goes on for ever are none; some none is the return of -1. The parser takes a name
in an answer to be labels or a pointer, not labels that end in a pointer. -/
namespace Qito.Net

abbrev udpHeaderSize : Nat := 8
abbrev udpBuffer : Nat := 1024
abbrev dnsHeaderSize : Nat := 12

/-- The datagram a resolution waits for; buffer is the length bytes it received. -/
structure UdpPending where
  waiting : Bool
  port : Nat
  buffer : Bytes

def udpInput (wait : UdpPending) (data : Bytes) : UdpPending :=
  if data.length < udpHeaderSize then wait
  else if wait.waiting && decide (wait.port = be16 data 2) then
    { wait with waiting := false, buffer := (data.drop udpHeaderSize).take udpBuffer }
  else wait

def readByte (response : Bytes) (position : Nat) : Option Nat :=
  if position < response.length then some (byteAt response position) else none

def read16 (response : Bytes) (position : Nat) : Option Nat :=
  if position + 2 ≤ response.length then some (be16 response position) else none

def read32 (response : Bytes) (position : Nat) : Option Nat :=
  if position + 4 ≤ response.length then some (be32 response position) else none

def isPointer (b : Nat) : Bool := b &&& 0xC0 == 0xC0

/-- The position behind the name of a question. -/
def skipQuestionName : Nat → Bytes → Nat → Option Nat
  | 0, _, _ => none
  | fuel + 1, response, position =>
    if position < response.length then do
      let b ← readByte response position
      if b = 0 then return position + 1
      else if isPointer b then return position + 2
      else skipQuestionName fuel response (position + b + 1)
    else some (position + 1)

def skipQuestions : Nat → Bytes → Nat → Option Nat
  | 0, _, position => some position
  | q + 1, response, position => do
    let position ← skipQuestionName (response.length + 1) response position
    skipQuestions q response (position + 4)

/-- The position behind the labels of an answer, as the loop takes them. -/
def skipLabels : Nat → Bytes → Nat → Option Nat
  | 0, _, _ => none
  | fuel + 1, response, position =>
    if position < response.length then do
      let b ← readByte response position
      if b = 0 then return position + 1
      else skipLabels fuel response (position + b + 1)
    else some (position + 1)

def skipAnswerName (response : Bytes) (position : Nat) : Option Nat := do
  let b ← readByte response position
  if isPointer b then return position + 2
  else skipLabels (response.length + 1) response position

/-- The walk over the answers for the first A record. -/
def walkAnswers : Nat → Bytes → Nat → Option (Option Nat)
  | 0, _, _ => some none
  | a + 1, response, position =>
    if position + 12 ≤ response.length then do
      let position ← skipAnswerName response position
      if position + 10 > response.length then return none
      else
        let type ← read16 response position
        let dataLen ← read16 response (position + 8)
        let position := position + 10
        if type = 1 ∧ dataLen = 4 ∧ position + 4 ≤ response.length then
          let address ← read32 response position
          return some address
        else walkAnswers a response (position + dataLen)
    else some none

/-- dns_resolve from the moment a datagram has come in: the address, or -1. -/
def dnsResolveReply (id : Nat) (wait : UdpPending) : Option (Option Nat) :=
  let response := wait.buffer
  if response.length < dnsHeaderSize then some none
  else do
    let replyId ← read16 response 0
    if replyId ≠ id then return none
    else
      let flags ← read16 response 2
      if flags &&& 0x000F ≠ 0 then return none
      else
        let answerCount ← read16 response 6
        if answerCount = 0 then return none
        else
          let questions ← read16 response 4
          let position ← skipQuestions questions response dnsHeaderSize
          walkAnswers answerCount response position

section Total
variable (response : Bytes)

theorem skipQuestionName_total (fuel position : Nat) (enough : response.length - position < fuel) :
    (skipQuestionName fuel response position).isSome := by
  induction fuel generalizing position with
  | zero => omega
  | succ fuel ih =>
    unfold skipQuestionName
    split
    · rename_i inside
      simp only [readByte, if_pos inside, Option.bind_eq_bind, Option.bind_some]
      split
      · rfl
      · split
        · rfl
        · exact ih _ (by omega)
    · rfl

theorem skipQuestions_total (q position : Nat) : (skipQuestions q response position).isSome := by
  induction q generalizing position with
  | zero => rfl
  | succ q ih =>
    have first := skipQuestionName_total response (response.length + 1) position (by omega)
    obtain ⟨next, run⟩ := Option.isSome_iff_exists.mp first
    simp only [skipQuestions, run, Option.bind_eq_bind, Option.bind_some]
    exact ih (next + 4)

theorem skipLabels_total (fuel position : Nat) (enough : response.length - position < fuel) :
    (skipLabels fuel response position).isSome := by
  induction fuel generalizing position with
  | zero => omega
  | succ fuel ih =>
    unfold skipLabels
    split
    · rename_i inside
      simp only [readByte, if_pos inside, Option.bind_eq_bind, Option.bind_some]
      split
      · rfl
      · exact ih _ (by omega)
    · rfl

theorem walkAnswers_total (a position : Nat) : (walkAnswers a response position).isSome := by
  induction a generalizing position with
  | zero => rfl
  | succ a ih =>
    unfold walkAnswers
    split
    · rename_i room
      have name : (skipAnswerName response position).isSome := by
        have inside : position < response.length := by omega
        simp only [skipAnswerName, readByte, if_pos inside, Option.bind_eq_bind, Option.bind_some]
        split
        · rfl
        · exact skipLabels_total response _ _ (by omega)
      obtain ⟨next, run⟩ := Option.isSome_iff_exists.mp name
      simp only [run, Option.bind_eq_bind, Option.bind_some]
      split
      · rfl
      · rename_i fits
        have type : next + 2 ≤ response.length := by omega
        have length : next + 8 + 2 ≤ response.length := by omega
        simp only [read16, if_pos type, if_pos length, Option.bind_some]
        split
        · rename_i hit
          simp only [read32, if_pos hit.2.2, Option.bind_some]
          rfl
        · exact ih _
    · rfl

theorem dnsResolveReply_total (id : Nat) (wait : UdpPending) : (dnsResolveReply id wait).isSome := by
  unfold dnsResolveReply
  simp only
  split
  · rfl
  · rename_i long
    have header (k : Nat) (inside : k + 2 ≤ 12) : read16 wait.buffer k = some (be16 wait.buffer k) :=
      if_pos (by change ¬ wait.buffer.length < 12 at long; omega)
    simp only [header 0 (by decide), header 2 (by decide), header 4 (by decide), header 6 (by decide),
      Option.bind_eq_bind, Option.bind_some]
    split
    · rfl
    · split
      · rfl
      · split
        · rfl
        · obtain ⟨next, run⟩ := Option.isSome_iff_exists.mp
            (skipQuestions_total wait.buffer (be16 wait.buffer 4) dnsHeaderSize)
          simp only [run, Option.bind_some]
          exact walkAnswers_total wait.buffer _ _

end Total

/-- A name as it stands in a message: labels, and the root label or a pointer. -/
structure Name where
  labels : List Bytes
  pointer : Option Nat

structure Name.WellFormed (n : Name) : Prop where
  labels : ∀ label ∈ n.labels, 0 < label.length ∧ label.length < 64
  pointer : ∀ offset, n.pointer = some offset → offset < 2 ^ 14

structure Question where
  name : Name
  type : Nat
  class_ : Nat

structure Record where
  name : Name
  type : Nat
  class_ : Nat
  ttl : Nat
  data : Bytes

/-- A reply; rest is the authority and the additional section. -/
structure Reply where
  id : Nat
  flags : Nat
  questions : List Question
  answers : List Record
  authority : Nat
  additional : Nat
  rest : Bytes

def net16 (n : Nat) : Bytes := [UInt8.ofNat (n / 256), UInt8.ofNat n]

def net32 (n : Nat) : Bytes := net16 (n / 65536) ++ net16 n

def labelBytes (label : Bytes) : Bytes := UInt8.ofNat label.length :: label

def tailBytes : Option Nat → Bytes
  | none => [0]
  | some offset => net16 (0xC000 + offset)

def Name.bytes (n : Name) : Bytes := n.labels.flatMap labelBytes ++ tailBytes n.pointer

def Question.bytes (q : Question) : Bytes := q.name.bytes ++ net16 q.type ++ net16 q.class_

def Record.bytes (r : Record) : Bytes :=
  r.name.bytes ++ (net16 r.type ++ net16 r.class_ ++ net32 r.ttl ++ net16 r.data.length ++ r.data)

def Reply.bytes (m : Reply) : Bytes :=
  net16 m.id ++ net16 m.flags ++ net16 m.questions.length ++ net16 m.answers.length ++ net16 m.authority ++
    net16 m.additional ++ (m.questions.flatMap Question.bytes ++ (m.answers.flatMap Record.bytes ++ m.rest))

/-- The record holds an Internet host address. -/
def Record.isA (r : Record) : Bool := r.type == 1 && r.class_ == 1

def Record.address (r : Record) : Nat := be32 r.data 0

/-- Names, numbers and lengths are as the format has them. -/
structure Reply.WellFormed (m : Reply) : Prop where
  id : m.id < 2 ^ 16
  flags : m.flags < 2 ^ 16
  questions : m.questions.length < 2 ^ 16
  answers : m.answers.length < 2 ^ 16
  asked : ∀ q ∈ m.questions, q.name.WellFormed
  names : ∀ r ∈ m.answers, r.name.WellFormed
  types : ∀ r ∈ m.answers, r.type < 2 ^ 16
  lengths : ∀ r ∈ m.answers, r.data.length < 2 ^ 16
  addresses : ∀ r ∈ m.answers, r.isA = true → r.data.length = 4

/-- The name is labels up to the root, or a pointer alone. -/
def Name.Simple (n : Name) : Prop := n.labels = [] ∨ n.pointer = none

/-- What the parser takes for an A record. -/
def Record.isHit (r : Record) : Bool := r.type == 1 && r.data.length == 4

/-- The names up to the first record that the parser takes for an A record are
simple, and that record holds this address. -/
def Readable (address : Nat) : List Record → Prop
  | [] => False
  | r :: rs => r.name.Simple ∧ if r.isHit then r.address = address else Readable address rs

section Bytes
variable {response rest : Bytes} {position : Nat}

theorem byteAt_drop (data : Bytes) (p i : Nat) : byteAt data (p + i) = byteAt (data.drop p) i := by
  simp [byteAt, List.getD_eq_getElem?_getD]

theorem byteAt_append {data : Bytes} {i : Nat} (inside : i < data.length) (rest : Bytes) :
    byteAt (data ++ rest) i = byteAt data i := by
  simp [byteAt, List.getD_eq_getElem?_getD, List.getElem?_append_left inside]

theorem be32_append {data : Bytes} (four : 4 ≤ data.length) (rest : Bytes) : be32 (data ++ rest) 0 = be32 data 0 := by
  simp only [be32, be16, Nat.zero_add]
  rw [byteAt_append (by omega), byteAt_append (by omega), byteAt_append (by omega), byteAt_append (by omega)]

theorem be16_drop (data : Bytes) (p i : Nat) : be16 data (p + i) = be16 (data.drop p) i := by
  rw [be16, be16, Nat.add_assoc, byteAt_drop, byteAt_drop]

theorem be32_drop (data : Bytes) (p i : Nat) : be32 data (p + i) = be32 (data.drop p) i := by
  rw [be32, be32, Nat.add_assoc, be16_drop, be16_drop]

theorem be16_net16 {n : Nat} (small : n < 2 ^ 16) (rest : Bytes) : be16 (net16 n ++ rest) 0 = n := by
  have high : n / 256 % 256 = n / 256 := Nat.mod_eq_of_lt (by omega)
  simp only [be16, byteAt, net16, List.cons_append, List.getD_cons_zero, List.getD_cons_succ, UInt8.toNat_ofNat', high]
  omega

theorem drop_length {bytes : Bytes} (here : response.drop position = bytes ++ rest) (some_ : bytes ≠ []) :
    position + bytes.length + rest.length = response.length := by
  have lengths := congrArg List.length here
  have positive := List.length_pos_iff.mpr some_
  simp only [List.length_drop, List.length_append] at lengths
  omega

theorem drop_next {bytes : Bytes} (here : response.drop position = bytes ++ rest) :
    response.drop (position + bytes.length) = rest := by
  rw [← List.drop_drop, here, List.drop_left]

theorem readByte_here {b : UInt8} (here : response.drop position = b :: rest) : readByte response position = some b.toNat := by
  have length := @drop_length response rest position [b] here (by simp)
  have inside : position < response.length := by
    simp only [List.length_singleton] at length
    omega
  rw [readByte, if_pos inside]
  have byte := byteAt_drop response position 0
  rw [Nat.add_zero, here] at byte
  rw [byte]
  rfl

end Bytes

section Names
variable {response rest : Bytes} {position fuel : Nat} {labels : List Bytes} {pointer : Option Nat}

theorem isPointer_label : ∀ b : Nat, b < 64 → isPointer b = false := by decide

theorem isPointer_high : ∀ b : Nat, b < 256 → 192 ≤ b → isPointer b = true := by decide +kernel

theorem pointer_byte {offset : Nat} (small : offset < 2 ^ 14) :
    ∃ b c, tailBytes (some offset) = [b, c] ∧ 192 ≤ b.toNat ∧ isPointer b.toNat = true := by
  have byte : (UInt8.ofNat ((0xC000 + offset) / 256)).toNat = 192 + offset / 256 := by
    rw [UInt8.toNat_ofNat']
    omega
  refine ⟨UInt8.ofNat ((0xC000 + offset) / 256), _, rfl, ?_, ?_⟩
  · rw [byte]
    omega
  · rw [byte]
    exact isPointer_high _ (by omega) (by omega)

theorem label_byte {label more : Bytes} (small : label.length < 64)
    (here : response.drop position = labelBytes label ++ more) :
    readByte response position = some label.length ∧ response.drop (position + label.length + 1) = more ∧
      position < response.length := by
  have byte : (UInt8.ofNat label.length).toNat = label.length := by
    rw [UInt8.toNat_ofNat']
    omega
  refine ⟨?_, ?_, ?_⟩
  · rw [readByte_here here, byte]
  · have next := drop_next here
    rwa [labelBytes, List.length_cons, ← Nat.add_assoc] at next
  · have length := drop_length here (by simp [labelBytes])
    simp only [labelBytes, List.length_cons] at length
    omega

theorem skipQuestionName_bytes (names : ∀ label ∈ labels, 0 < label.length ∧ label.length < 64)
    (offsets : ∀ offset, pointer = some offset → offset < 2 ^ 14) (enough : labels.length < fuel)
    (here : response.drop position = labels.flatMap labelBytes ++ tailBytes pointer ++ rest) :
    skipQuestionName fuel response position = some (position + (labels.flatMap labelBytes ++ tailBytes pointer).length) := by
  induction labels generalizing fuel position with
  | nil =>
    obtain ⟨fuel, rfl⟩ := Nat.exists_eq_add_of_lt enough
    simp only [List.length_nil, Nat.zero_add, List.flatMap_nil, List.nil_append] at here ⊢
    have length := drop_length here (by cases pointer <;> simp [tailBytes, net16])
    cases pointer with
    | none =>
      have inside : position < response.length := by
        simp only [tailBytes, List.length_singleton] at length
        omega
      simp only [skipQuestionName, if_pos inside, readByte_here here, Option.bind_eq_bind, Option.bind_some]
      rfl
    | some offset =>
      obtain ⟨b, c, bytes, high, marks⟩ := pointer_byte (offsets offset rfl)
      rw [bytes] at here length ⊢
      have inside : position < response.length := by
        simp only [List.length_cons] at length
        omega
      have nonzero : b.toNat ≠ 0 := by omega
      simp only [skipQuestionName, if_pos inside, readByte_here here, Option.bind_eq_bind, Option.bind_some, if_neg nonzero,
        marks, if_true]
      rfl
  | cons label labels ih =>
    obtain ⟨fuel, rfl⟩ := Nat.exists_eq_add_of_lt enough
    obtain ⟨positive, small⟩ := names label (by simp)
    rw [List.flatMap_cons, List.append_assoc, List.append_assoc] at here
    obtain ⟨byte, next, inside⟩ := label_byte small here
    rw [← List.append_assoc] at next
    have deeper : labels.length < (label :: labels).length + fuel := by
      simp only [List.length_cons]
      omega
    have rest_ := ih (fun l member => names l (by simp [member])) deeper next
    simp only [skipQuestionName, if_pos inside, byte, Option.bind_eq_bind, Option.bind_some, if_neg (Nat.ne_of_gt positive),
      isPointer_label _ small, Bool.false_eq_true, if_false, rest_]
    simp only [List.flatMap_cons, labelBytes, List.length_append, List.length_cons, Option.some.injEq]
    omega

theorem skipLabels_labels (names : ∀ label ∈ labels, 0 < label.length ∧ label.length < 64)
    (here : response.drop position = labels.flatMap labelBytes ++ rest) :
    skipLabels (labels.length + fuel) response position =
      skipLabels fuel response (position + (labels.flatMap labelBytes).length) := by
  induction labels generalizing position with
  | nil => simp
  | cons label labels ih =>
    obtain ⟨positive, small⟩ := names label (by simp)
    rw [List.flatMap_cons, List.append_assoc] at here
    obtain ⟨byte, next, inside⟩ := label_byte small here
    have rest_ := ih (fun l member => names l (by simp [member])) next
    have more : (label :: labels).length + fuel = labels.length + fuel + 1 := by
      simp only [List.length_cons]
      omega
    simp only [more, skipLabels, if_pos inside, byte, Option.bind_eq_bind, Option.bind_some, if_neg (Nat.ne_of_gt positive), rest_]
    simp only [List.flatMap_cons, labelBytes, List.length_append, List.length_cons]
    congr 1
    omega

theorem labels_few (here : response.drop position = labels.flatMap labelBytes ++ rest) :
    labels.length + rest.length ≤ response.length := by
  have count : labels.length ≤ (labels.flatMap labelBytes).length := by
    clear here
    induction labels with
    | nil => simp
    | cons label labels ih =>
      simp only [List.flatMap_cons, labelBytes, List.length_append, List.length_cons]
      omega
  have length := congrArg List.length here
  simp only [List.length_drop, List.length_append] at length
  omega

theorem skipLabels_answer (names : ∀ label ∈ labels, 0 < label.length ∧ label.length < 64)
    (here : response.drop position = labels.flatMap labelBytes ++ rest) :
    ∃ fuel, rest.length ≤ fuel ∧ skipLabels (response.length + 1) response position =
      skipLabels (fuel + 1) response (position + (labels.flatMap labelBytes).length) := by
  have few := labels_few here
  refine ⟨response.length - labels.length, by omega, ?_⟩
  rw [← skipLabels_labels names here]
  congr 1
  omega

theorem skipLabels_root (here : response.drop position = 0 :: rest) : skipLabels (fuel + 1) response position = some (position + 1) := by
  have length := @drop_length response rest position [0] here (by simp)
  have inside : position < response.length := by
    simp only [List.length_singleton] at length
    omega
  simp only [skipLabels, if_pos inside, readByte_here here, Option.bind_eq_bind, Option.bind_some]
  rfl

theorem skipAnswerName_simple {n : Name} (formed : n.WellFormed) (simple : n.Simple)
    (here : response.drop position = n.bytes ++ rest) : skipAnswerName response position = some (position + n.bytes.length) := by
  obtain ⟨labels, pointer⟩ := n
  cases pointer with
  | some offset =>
    have alone : labels = [] := simple.resolve_right (by simp)
    subst alone
    obtain ⟨b, c, bytes, -, marks⟩ := pointer_byte (formed.pointer offset rfl)
    simp only [Name.bytes, List.flatMap_nil, List.nil_append, bytes] at here ⊢
    simp only [skipAnswerName, readByte_here here, Option.bind_eq_bind, Option.bind_some, marks, if_true]
    rfl
  | none =>
    have last := here
    simp only [Name.bytes, tailBytes, List.append_assoc] at last
    obtain ⟨fuel, -, walk⟩ := skipLabels_answer formed.labels last
    have root := drop_next last
    have behind : skipLabels (response.length + 1) response position =
        some (position + (Name.mk labels none).bytes.length) := by
      rw [walk, skipLabels_root root]
      simp only [Name.bytes, tailBytes, List.length_append, List.length_singleton, Nat.add_assoc]
    cases labels with
    | nil =>
      have byte := readByte_here (here : response.drop position = 0 :: rest)
      simp only [skipAnswerName, byte, Option.bind_eq_bind, Option.bind_some]
      exact behind
    | cons label labels =>
      obtain ⟨-, small⟩ := formed.labels label (by simp)
      rw [List.flatMap_cons, List.append_assoc] at last
      obtain ⟨byte, -, -⟩ := label_byte small last
      simp only [skipAnswerName, byte, Option.bind_eq_bind, Option.bind_some, isPointer_label _ small, Bool.false_eq_true, if_false]
      exact behind

theorem skipAnswerName_mixed {n : Name} (formed : n.WellFormed) (mixed : ¬ n.Simple)
    (here : response.drop position = n.bytes ++ rest) (short : response.length ≤ 204) (behind : 12 ≤ position) :
    ∃ next, skipAnswerName response position = some next ∧ response.length < next := by
  obtain ⟨labels, pointer⟩ := n
  simp only [Name.Simple, not_or] at mixed
  obtain ⟨offset, rfl⟩ := Option.ne_none_iff_exists'.mp mixed.2
  obtain ⟨label, others, rfl⟩ := List.exists_cons_of_ne_nil mixed.1
  obtain ⟨b, c, bytes, high, -⟩ := pointer_byte (formed.pointer offset rfl)
  obtain ⟨-, small⟩ := formed.labels label (by simp)
  simp only [Name.bytes, bytes, List.append_assoc] at here
  obtain ⟨fuel, enough, walk⟩ := skipLabels_answer formed.labels here
  have pointed := drop_next here
  have length := @drop_length response rest _ [b, c] pointed (by simp)
  have later : position ≤ position + ((label :: others).flatMap labelBytes).length := Nat.le_add_right _ _
  generalize position + ((label :: others).flatMap labelBytes).length = middle at walk pointed length later
  have inside : middle < response.length := by
    simp only [List.length_cons] at length
    omega
  have nonzero : b.toNat ≠ 0 := by omega
  have outside : ¬ middle + b.toNat + 1 < response.length := by omega
  have taken : skipLabels (response.length + 1) response position = some (middle + b.toNat + 1 + 1) := by
    obtain ⟨more, rfl⟩ : ∃ more, fuel = more + 1 := ⟨fuel - 1, by simp only [List.length_append, List.length_cons] at enough; omega⟩
    rw [walk]
    simp only [skipLabels, if_pos inside, readByte_here pointed, Option.bind_eq_bind, Option.bind_some, if_neg nonzero,
      if_neg outside]
  rw [List.flatMap_cons, List.append_assoc] at here
  obtain ⟨byte, -, -⟩ := label_byte small here
  refine ⟨middle + b.toNat + 1 + 1, ?_, by omega⟩
  simp only [skipAnswerName, byte, Option.bind_eq_bind, Option.bind_some, isPointer_label _ small, Bool.false_eq_true, if_false]
  exact taken

end Names

section Walk
variable {response rest : Bytes} {position : Nat}

theorem record_fields {r : Record} (type : r.type < 2 ^ 16) (length : r.data.length < 2 ^ 16)
    (here : response.drop position =
      net16 r.type ++ net16 r.class_ ++ net32 r.ttl ++ net16 r.data.length ++ r.data ++ rest) :
    be16 response position = r.type ∧ be16 response (position + 8) = r.data.length ∧
      response.drop (position + 10) = r.data ++ rest := by
  refine ⟨?_, ?_, ?_⟩
  · have at0 := be16_drop response position 0
    rw [Nat.add_zero, here] at at0
    simp only [List.append_assoc] at at0
    rw [at0, be16_net16 type]
  · have at8 := be16_drop response (position + 8) 0
    rw [Nat.add_zero, ← List.drop_drop, here] at at8
    rw [at8]
    exact be16_net16 length (r.data ++ rest)
  · rw [← List.drop_drop, here]
    rfl

theorem walkAnswers_record {r : Record} (formed : r.name.WellFormed) (simple : r.name.Simple) (type : r.type < 2 ^ 16)
    (length : r.data.length < 2 ^ 16) (room : position + 12 ≤ response.length)
    (here : response.drop position = r.bytes ++ rest) (a : Nat) :
    walkAnswers (a + 1) response position =
      if r.isHit then some (some r.address) else walkAnswers a response (position + r.bytes.length) := by
  rw [Record.bytes, List.append_assoc] at here
  have name := skipAnswerName_simple formed simple here
  have behind := drop_next here
  obtain ⟨kind, size, data⟩ := record_fields type length behind
  have bytes := drop_length behind (by simp [net16])
  simp only [List.length_append, net16, net32, List.length_cons, List.length_nil] at bytes
  have total : position + r.bytes.length = position + r.name.bytes.length + 10 + r.data.length := by
    simp only [Record.bytes, List.length_append, net16, net32, List.length_cons, List.length_nil]
    omega
  generalize position + r.name.bytes.length = next at name behind kind size data bytes total
  have fits : ¬ next + 10 > response.length := by omega
  have kindIn : next + 2 ≤ response.length := by omega
  have sizeIn : next + 8 + 2 ≤ response.length := by omega
  simp only [walkAnswers, if_pos room, name, Option.bind_eq_bind, Option.bind_some, if_neg fits, read16, if_pos kindIn,
    if_pos sizeIn, kind, size]
  by_cases hit : r.type = 1 ∧ r.data.length = 4
  · have inside : next + 10 + 4 ≤ response.length := by omega
    have found : be32 response (next + 10) = r.address := by
      have value := be32_drop response (next + 10) 0
      rw [Nat.add_zero, data] at value
      rw [value, Record.address, be32_append (by omega)]
    simp [hit, Record.isHit, inside, read32, found]
  · have miss : r.isHit = false := by
      simp only [Record.isHit, Bool.and_eq_false_imp, beq_iff_eq, beq_eq_false_iff_ne]
      exact fun one four => hit ⟨one, four⟩
    have none_ : ¬ (r.type = 1 ∧ r.data.length = 4 ∧ next + 10 + 4 ≤ response.length) := fun all => hit ⟨all.1, all.2.1⟩
    have onward : next + 10 + r.data.length = position + r.bytes.length := by omega
    rw [if_neg none_, miss, onward]
    rfl

theorem name_length (n : Name) : 1 ≤ n.bytes.length := by
  have tail : 1 ≤ (tailBytes n.pointer).length := by
    cases n.pointer with
    | none => simp [tailBytes]
    | some offset => simp [tailBytes, net16]
  rw [Name.bytes, List.length_append]
  omega

theorem hit_room {r : Record} {rs : List Record} (member : r ∈ rs) (hit : r.isHit = true) :
    12 ≤ (rs.flatMap Record.bytes).length := by
  have own : 12 ≤ r.bytes.length := by
    have name := name_length r.name
    simp only [Record.isHit, Bool.and_eq_true, beq_iff_eq] at hit
    simp only [Record.bytes, List.length_append, net16, net32, List.length_cons, List.length_nil]
    omega
  obtain ⟨before, after, rfl⟩ := List.append_of_mem member
  simp only [List.flatMap_append, List.flatMap_cons, List.length_append]
  omega

theorem walkAnswers_readable {r : Record} {rs : List Record} (names : ∀ x ∈ rs, x.name.WellFormed)
    (types : ∀ x ∈ rs, x.type < 2 ^ 16) (lengths : ∀ x ∈ rs, x.data.length < 2 ^ 16) (member : r ∈ rs) (hit : r.isHit = true)
    (here : response.drop position = rs.flatMap Record.bytes ++ rest) :
    (Readable r.address rs → walkAnswers rs.length response position = some (some r.address)) ∧
      (response.length ≤ 204 → 12 ≤ position → walkAnswers rs.length response position = some (some r.address) →
        Readable r.address rs) := by
  induction rs generalizing position with
  | nil => simp at member
  | cons x xs ih =>
    rw [List.flatMap_cons, List.append_assoc] at here
    have room : position + 12 ≤ response.length := by
      have enough := hit_room member hit
      have length := congrArg List.length here
      simp only [List.flatMap_cons, List.length_append] at enough
      simp only [List.length_drop, List.length_append] at length
      omega
    by_cases simple : x.name.Simple
    · have step := walkAnswers_record (names x (by simp)) simple (types x (by simp)) (lengths x (by simp)) room here xs.length
      rw [List.length_cons, step]
      cases took : x.isHit with
      | true => simp [Readable, simple, took]
      | false =>
        have deeper : r ∈ xs := by
          rcases List.mem_cons.mp member with rfl | inside
          · exact absurd (hit.symm.trans took) (by simp)
          · exact inside
        obtain ⟨forth, back⟩ := ih (fun y m => names y (by simp [m])) (fun y m => types y (by simp [m]))
          (fun y m => lengths y (by simp [m])) deeper (drop_next here)
        simp only [Readable, simple, took, true_and, Bool.false_eq_true, if_false]
        exact ⟨forth, fun short low => back short (by omega)⟩
    · constructor
      · exact fun readable => absurd readable.1 simple
      · intro short low found
        rw [Record.bytes, List.append_assoc] at here
        obtain ⟨next, name, past⟩ := skipAnswerName_mixed (names x (by simp)) simple here short low
        have past : next + 10 > response.length := by omega
        simp [walkAnswers, room, name, past] at found

theorem skipQuestions_bytes {qs : List Question} (names : ∀ q ∈ qs, q.name.WellFormed)
    (here : response.drop position = qs.flatMap Question.bytes ++ rest) :
    skipQuestions qs.length response position = some (position + (qs.flatMap Question.bytes).length) := by
  induction qs generalizing position with
  | nil => rfl
  | cons q qs ih =>
    have formed := names q (by simp)
    rw [List.flatMap_cons, List.append_assoc] at here
    have next := drop_next here
    simp only [Question.bytes, List.append_assoc] at here
    have few : q.name.labels.length < response.length + 1 := by
      simp only [Name.bytes, List.append_assoc] at here
      have bound := labels_few here
      omega
    have name := skipQuestionName_bytes formed.labels formed.pointer few here
    have size : q.bytes.length = q.name.bytes.length + 4 := by
      simp [Question.bytes, net16]
    have rest_ := ih (fun q' member => names q' (by simp [member])) next
    change skipQuestionName (response.length + 1) response position = some (position + q.name.bytes.length) at name
    rw [size, ← Nat.add_assoc] at rest_
    simp only [List.length_cons, skipQuestions, name, Option.bind_eq_bind, Option.bind_some, rest_, List.flatMap_cons,
      List.length_append, size, Option.some.injEq]
    omega

end Walk

section Replies
variable {m : Reply}

theorem reply_header (formed : m.WellFormed) : be16 m.bytes 0 = m.id ∧ be16 m.bytes 2 = m.flags ∧
    be16 m.bytes 4 = m.questions.length ∧ be16 m.bytes 6 = m.answers.length ∧
    m.bytes.drop 12 = m.questions.flatMap Question.bytes ++ (m.answers.flatMap Record.bytes ++ m.rest) := by
  have field (k : Nat) {n : Nat} (small : n < 2 ^ 16) (there : m.bytes.drop k = net16 n ++ m.bytes.drop (k + 2)) :
      be16 m.bytes k = n := by
    have value := be16_drop m.bytes k 0
    rw [Nat.add_zero, there, be16_net16 small] at value
    exact value
  exact ⟨field 0 formed.id rfl, field 2 formed.flags rfl, field 4 formed.questions rfl, field 6 formed.answers rfl, rfl⟩

theorem udpInput_buffer {wait : UdpPending} {header body : Bytes} (waits : wait.waiting = true)
    (whole : header.length = udpHeaderSize) (port : be16 header 2 = wait.port) (fits : body.length ≤ udpBuffer) :
    (udpInput wait (header ++ body)).buffer = body := by
  have eight : header.length = 8 := whole
  have long : ¬ (header ++ body).length < udpHeaderSize := by
    simp only [List.length_append]
    omega
  have same : wait.port = be16 (header ++ body) 2 := by
    rw [be16, byteAt_append (by omega), byteAt_append (by omega)]
    exact port.symm
  have taken : (header ++ body).drop udpHeaderSize = body := by
    rw [← whole, List.drop_left]
  simp only [udpInput, if_neg long, waits, ← same, decide_true, Bool.and_self, if_true, taken]
  exact List.take_of_length_le fits

theorem dnsResolveReply_walk {wait : UdpPending} (formed : m.WellFormed) (received : wait.buffer = m.bytes)
    (clean : m.flags &&& 0x000F = 0) (some_ : m.answers ≠ []) :
    dnsResolveReply m.id wait =
      walkAnswers m.answers.length m.bytes (12 + (m.questions.flatMap Question.bytes).length) := by
  obtain ⟨id, flags, questions, answers, body⟩ := reply_header formed
  have long : 12 ≤ m.bytes.length := by
    simp only [Reply.bytes, List.length_append, net16, List.length_cons, List.length_nil]
    omega
  have short : ¬ m.bytes.length < dnsHeaderSize := Nat.not_lt_of_le long
  have header (k : Nat) (inside : k + 2 ≤ 12) : read16 m.bytes k = some (be16 m.bytes k) := if_pos (by omega)
  have counted : m.answers.length ≠ 0 := fun none_ => some_ (List.length_eq_zero_iff.mp none_)
  have asked := skipQuestions_bytes formed.asked body
  change skipQuestions m.questions.length m.bytes dnsHeaderSize = _ at asked
  simp only [dnsResolveReply, received, if_neg short, header 0 (by decide), header 2 (by decide), header 4 (by decide),
    header 6 (by decide), Option.bind_eq_bind, Option.bind_some, id, flags, questions, answers, ne_eq, not_true_eq_false,
    if_false, clean, counted, asked]

theorem dns_reply_handling (m : Reply) (wait : UdpPending) (header : Bytes) (r : Record) :
    (∀ id wait, (dnsResolveReply id wait).isSome) ∧
    (m.WellFormed → m.flags &&& 0x000F = 0 → wait.waiting = true → header.length = udpHeaderSize →
      be16 header 2 = wait.port → m.bytes.length ≤ udpBuffer → m.answers.find? Record.isA = some r →
      (Readable r.address m.answers → dnsResolveReply m.id (udpInput wait (header ++ m.bytes)) = some (some r.address)) ∧
      (m.bytes.length ≤ 204 → dnsResolveReply m.id (udpInput wait (header ++ m.bytes)) = some (some r.address) →
        Readable r.address m.answers)) := by
  refine ⟨dnsResolveReply_total, ?_⟩
  intro formed clean waits whole port fits first
  have member : r ∈ m.answers := List.mem_of_find?_eq_some first
  have isA : r.isA = true := List.find?_some first
  have hit : r.isHit = true := by
    have four := formed.addresses r member isA
    simp only [Record.isA, Bool.and_eq_true, beq_iff_eq] at isA
    simp [Record.isHit, isA.1, four]
  have received := udpInput_buffer waits whole port fits
  have walk := dnsResolveReply_walk formed received clean (List.ne_nil_of_mem member)
  have behind := drop_next (reply_header formed).2.2.2.2
  obtain ⟨forth, back⟩ := walkAnswers_readable formed.names formed.types formed.lengths member hit behind
  rw [walk]
  exact ⟨forth, fun short => back short (by omega)⟩

end Replies

section Messages

/-- The question for a.b. -/
def askedName : Name := ⟨[[97], [98]], none⟩

/-- A reply about a.b with one A record, whose name is written so. -/
def replyUnder (name : Name) : Reply where
  id := 1
  flags := 0x8180
  questions := [⟨askedName, 1, 1⟩]
  answers := [⟨name, 1, 1, 60, [10, 0, 0, 1]⟩]
  authority := 0
  additional := 0
  rest := []

def waitingPort : UdpPending := ⟨true, 49152, []⟩

def udpHeader : Bytes := [0, 53, 0xC0, 0, 0, 0, 0, 0]

theorem replyUnder_formed {name : Name} (formed : name.WellFormed) : (replyUnder name).WellFormed := by
  have only {r : Record} (member : r ∈ (replyUnder name).answers) : r = ⟨name, 1, 1, 60, [10, 0, 0, 1]⟩ :=
    List.mem_singleton.mp member
  constructor
  · change 1 < 2 ^ 16
    decide
  · change 0x8180 < 2 ^ 16
    decide
  · change 1 < 2 ^ 16
    decide
  · change 1 < 2 ^ 16
    decide
  · intro q member
    cases List.mem_singleton.mp member
    exact ⟨by decide, nofun⟩
  · intro r member
    rw [only member]
    exact formed
  · intro r member
    rw [only member]
    change 1 < 2 ^ 16
    decide
  · intro r member
    rw [only member]
    change 4 < 2 ^ 16
    decide
  · intro r member _
    rw [only member]
    rfl

/-- The name is a pointer to the question. -/
theorem pointer_reply_read :
    dnsResolveReply 1 (udpInput waitingPort (udpHeader ++ (replyUnder ⟨[], some 12⟩).bytes)) = some (some 0x0A000001) := by
  have formed : Name.WellFormed ⟨[], some 12⟩ := ⟨by simp, fun offset same => by cases same; decide⟩
  have readable : Readable 0x0A000001 (replyUnder ⟨[], some 12⟩).answers := ⟨Or.inl rfl, rfl⟩
  exact ((dns_reply_handling (replyUnder ⟨[], some 12⟩) waitingPort udpHeader _).2 (replyUnder_formed formed) (by decide) rfl rfl
    (by decide) (by decide) rfl).1 readable

/-- The name is the label a and a pointer to b. -/
theorem mixed_name_misread : ¬ ∀ (m : Reply) (wait : UdpPending) (header : Bytes) (r : Record), m.WellFormed →
    m.flags &&& 0x000F = 0 → wait.waiting = true → header.length = udpHeaderSize → be16 header 2 = wait.port →
    m.bytes.length ≤ udpBuffer → m.answers.find? Record.isA = some r →
    dnsResolveReply m.id (udpInput wait (header ++ m.bytes)) = some (some r.address) := by
  intro always
  have formed : Name.WellFormed ⟨[[97]], some 14⟩ := ⟨by decide, fun offset same => by cases same; decide⟩
  have wrong := always (replyUnder ⟨[[97]], some 14⟩) waitingPort udpHeader _ (replyUnder_formed formed) (by decide) rfl rfl
    (by decide) (by decide) rfl
  revert wrong
  decide

end Messages

end Qito.Net
