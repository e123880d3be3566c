import Mathlib.Data.List.TakeWhile
import Qito.Net.Dns
import Qito.Net.Addresses

/-! The names of dns_resolve's questions: dns_encode_name keeps to its output, and
encodes a name whole unless its first labels end just where the loop stops. -/
namespace Qito.Net

/-- What dns_encode_name has stored, and what it returns. -/
structure Encoded where
  stored : Bytes
  length : Nat

/-- The loop over the labels, with the rounds it may go; out is what is stored so far. -/
def encodeLabels (capacity : Nat) : Nat → Bytes → Bytes → Encoded
  | 0, _, out => ⟨out, 0⟩
  | n + 1, label, out =>
    if label ≠ [] ∧ out.length < capacity - 2 then
      let text := label.takeWhile (· != 46)
      if text.length = 0 ∨ 63 < text.length ∨ capacity ≤ out.length + text.length + 1 then ⟨out, 0⟩
      else
        match label.drop text.length with
        | [] => ⟨out ++ labelBytes text ++ [0], (out ++ labelBytes text).length + 1⟩
        | _ :: rest => encodeLabels capacity n rest (out ++ labelBytes text)
    else ⟨out ++ [0], out.length + 1⟩

def dnsEncodeName (name : Bytes) (capacity : Nat) : Encoded := encodeLabels capacity (name.length + 1) name []

/-- The labels of a name, without the empty one behind a last dot. -/
def labelsOf (name : Bytes) : List Bytes :=
  if (name.splitOn 46).getLast? = some [] then (name.splitOn 46).dropLast else name.splitOn 46

/-- Labels with dots between them. -/
def joined (labels : List Bytes) : Bytes := [46].intercalate labels

def fullName (labels : List Bytes) : Name := ⟨labels, none⟩

/-- What is stored keeps to the output; a length is that of an encoding of the name; and
there is none only for a label that cannot be encoded, or for want of room. -/
structure Faithful (name : Bytes) (capacity : Nat) (e : Encoded) : Prop where
  inside : e.stored.length ≤ capacity
  encodes : e.length ≠ 0 → e.length = e.stored.length ∧ ∃ labels, e.stored = (fullName labels).bytes ∧
    (fullName labels).WellFormed ∧ (name = joined labels ∨ name = joined labels ++ [46])
  refuses : e.length = 0 → (∃ l ∈ labelsOf name, l = [] ∨ 63 < l.length) ∨ capacity < (fullName (labelsOf name)).bytes.length

/-- Labels with a dot behind each. -/
def ended (labels : List Bytes) : Bytes := labels.flatMap (· ++ [46])

def Proper (labels : List Bytes) : Prop := ∀ l ∈ labels, (0 < l.length ∧ l.length < 64) ∧ 46 ∉ l

/-- The first labels fill all but one or two bytes, and the name goes on behind them. -/
def CutAt (name : Bytes) (capacity : Nat) (front : List Bytes) (rest : Bytes) : Prop :=
  name = ended front ++ rest ∧ rest ≠ [] ∧ Proper front ∧ capacity ≤ (ended front).length + 2 ∧ (ended front).length < capacity

def Cut (name : Bytes) (capacity : Nat) : Prop := ∃ front rest, CutAt name capacity front rest

section Names
variable {front labels : List Bytes} {l text rest : Bytes}

@[simp] theorem ended_cons : ended (l :: labels) = l ++ 46 :: ended labels := by
  unfold ended
  rw [List.flatMap_cons, List.append_assoc]
  rfl

theorem ended_append (front labels : List Bytes) : ended (front ++ labels) = ended front ++ ended labels := List.flatMap_append

theorem joined_ended (filled : labels ≠ []) : joined labels ++ [46] = ended labels := by
  induction labels with
  | nil => exact absurd rfl filled
  | cons l labels ih =>
    cases labels with
    | nil => simp [joined, ended]
    | cons m labels =>
      rw [ended_cons, ← ih nofun]
      simp [joined]

theorem joined_snoc (front : List Bytes) (l : Bytes) : joined (front ++ [l]) = ended front ++ l := by
  have whole := @joined_ended (front ++ [l]) (by simp)
  rw [ended_append] at whole
  have last : ended [l] = l ++ [46] := by simp [ended]
  rw [last, ← List.append_assoc] at whole
  exact List.append_cancel_right whole

theorem labelBytes_length (labels : List Bytes) : (labels.flatMap labelBytes).length = (ended labels).length := by
  induction labels with
  | nil => rfl
  | cons l labels ih =>
    rw [List.flatMap_cons, List.length_append, ih, ended_cons, List.length_append]
    simp only [labelBytes, List.length_cons]
    omega

theorem fullName_bytes (labels : List Bytes) : (fullName labels).bytes = labels.flatMap labelBytes ++ [0] := rfl

theorem fullName_length (labels : List Bytes) : (fullName labels).bytes.length = (ended labels).length + 1 := by
  rw [fullName_bytes, List.length_append, labelBytes_length]
  rfl

theorem labelsOf_dot (plain : 46 ∉ l) (rest : Bytes) : labelsOf (l ++ 46 :: rest) = l :: labelsOf rest := by
  unfold labelsOf
  rw [List.splitOn_append_cons_self_of_not_mem plain]
  obtain ⟨p, ps, split⟩ := List.exists_cons_of_ne_nil (List.splitOn_ne_nil 46 rest)
  rw [split, List.getLast?_cons_cons]
  split
  · rfl
  · rfl

theorem labelsOf_plain (plain : 46 ∉ l) (filled : l ≠ []) : labelsOf l = [l] := by
  unfold labelsOf
  rw [List.splitOn_eq_singleton plain]
  simp [filled]

theorem labelsOf_ended (proper : Proper front) (rest : Bytes) : labelsOf (ended front ++ rest) = front ++ labelsOf rest := by
  induction front with
  | nil => rfl
  | cons l front ih =>
    have next := ih fun m member => proper m (List.mem_cons_of_mem _ member)
    rw [ended_cons, List.append_assoc, List.cons_append, labelsOf_dot (proper l List.mem_cons_self).2, next]
    rfl

theorem label_cases (text : Bytes) : 46 ∉ text.takeWhile (· != 46) ∧
    (text.drop (text.takeWhile (· != 46)).length = [] ∧ text = text.takeWhile (· != 46) ∨
      ∃ rest, text.drop (text.takeWhile (· != 46)).length = 46 :: rest ∧ text = text.takeWhile (· != 46) ++ 46 :: rest) := by
  have whole : text.takeWhile (· != 46) ++ text.dropWhile (· != 46) = text := List.takeWhile_append_dropWhile
  have behind : text.drop (text.takeWhile (· != 46)).length = text.dropWhile (· != 46) := by
    conv_lhs => rw [← whole]
    rw [List.takeWhile_append_dropWhile]
    exact (congrArg (List.drop _) whole.symm).trans List.drop_left
  refine ⟨fun member => absurd (List.mem_takeWhile_imp member) (by decide), ?_⟩
  rw [behind]
  cases dropped : text.dropWhile (· != 46) with
  | nil =>
    rw [dropped, List.append_nil] at whole
    exact .inl ⟨rfl, whole.symm⟩
  | cons c rest =>
    have dot : (c != 46) = false := by
      have head := List.head?_dropWhile_not (· != 46) text
      rw [dropped] at head
      simpa using head
    obtain rfl : c = 46 := by simpa using dot
    rw [dropped] at whole
    exact .inr ⟨rest, rfl, whole.symm⟩

theorem Proper.head (proper : Proper (l :: labels)) : (0 < l.length ∧ l.length < 64) ∧ 46 ∉ l := proper l List.mem_cons_self

theorem Proper.tail (proper : Proper (l :: labels)) : Proper labels := fun m member => proper m (List.mem_cons_of_mem _ member)

theorem Proper.snoc (proper : Proper front) (small : 0 < l.length ∧ l.length < 64) (plain : 46 ∉ l) : Proper (front ++ [l]) := by
  intro m member
  rcases List.mem_append.mp member with old | new
  · exact proper m old
  · obtain rfl := List.mem_singleton.mp new
    exact ⟨small, plain⟩

/-- Of two runs of labels at the start of a name, the longer one goes on from the other. -/
theorem ended_prefix {front' : List Bytes} (proper : Proper front) (proper' : Proper front')
    (same : ended front ++ text = ended front' ++ rest) (longer : (ended front).length ≤ (ended front').length) :
    ∃ more, front' = front ++ more ∧ text = ended more ++ rest := by
  induction front generalizing front' with
  | nil => exact ⟨front', rfl, same⟩
  | cons l front ih =>
    cases front' with
    | nil =>
      rw [ended_cons, List.length_append, List.length_cons] at longer
      exact absurd longer (by simp [ended])
    | cons m front' =>
      rw [ended_cons, ended_cons] at same longer
      simp only [List.append_assoc, List.cons_append] at same
      obtain ⟨rfl, behind⟩ := first_dot same proper.head.2 proper'.head.2
      simp only [List.length_append, List.length_cons] at longer
      obtain ⟨more, rfl, split⟩ := ih proper.tail proper'.tail behind (by omega)
      exact ⟨more, rfl, split⟩

theorem CutAt.next {name : Bytes} {capacity : Nat} {front' : List Bytes} (cut : CutAt name capacity front' rest)
    (whole : name = ended front ++ text) (proper : Proper front) (later : (ended front).length ≤ (ended front').length)
    (room : (ended front).length < capacity - 2) :
    ∃ m more, front' = front ++ m :: more ∧ text = m ++ 46 :: (ended more ++ rest) ∧ 46 ∉ m := by
  obtain ⟨split, filled, proper', full, inside⟩ := cut
  obtain ⟨more, rfl, rfl⟩ := ended_prefix proper proper' (whole.symm.trans split) later
  cases more with
  | nil =>
    rw [List.append_nil] at full
    omega
  | cons m more =>
    refine ⟨m, more, rfl, ?_, (proper' m (by simp)).2⟩
    rw [ended_cons, List.append_assoc, List.cons_append]

end Names

section Encoding
variable {name : Bytes} {capacity : Nat} {front : List Bytes} {label text rest : Bytes}

theorem faithful_whole {labels : List Bytes} (proper : Proper labels) (room : (ended labels).length < capacity)
    (whole : name = joined labels ∨ name = joined labels ++ [46]) :
    Faithful name capacity ⟨labels.flatMap labelBytes ++ [0], (labels.flatMap labelBytes).length + 1⟩ := by
  have length : (labels.flatMap labelBytes ++ [0]).length = (ended labels).length + 1 := fullName_length labels
  constructor
  · rw [length]
    omega
  · intro _
    exact ⟨by simp only [List.length_append, List.length_singleton], labels, rfl, ⟨fun l member => (proper l member).1, nofun⟩, whole⟩
  · intro none_
    exact absurd none_ (Nat.succ_ne_zero _)

theorem faithful_refused (proper : Proper front) (whole : name = ended front ++ label) (room : (ended front).length < capacity)
    {more : List Bytes} (next : labelsOf label = text :: more)
    (bad : text.length = 0 ∨ 63 < text.length ∨ capacity ≤ (ended front).length + text.length + 1) :
    Faithful name capacity ⟨front.flatMap labelBytes, 0⟩ := by
  have labels : labelsOf name = front ++ text :: more := by
    rw [whole, labelsOf_ended proper, next]
  constructor
  · rw [labelBytes_length]
    omega
  · intro some_
    exact absurd rfl some_
  · intro _
    have member : text ∈ labelsOf name := by
      rw [labels]
      simp
    rcases bad with empty | long | tight
    · exact .inl ⟨text, member, .inl (List.length_eq_zero_iff.mp empty)⟩
    · exact .inl ⟨text, member, .inr long⟩
    · right
      rw [fullName_length, labels, ended_append, ended_cons]
      simp only [List.length_append, List.length_cons]
      omega

theorem shortened (h : 3 ≤ capacity) (whole : name = ended front ++ label) (filled : label ≠ [])
    (full : capacity - 2 ≤ (ended front).length) :
    ¬ Faithful name capacity ⟨front.flatMap labelBytes ++ [0], (front.flatMap labelBytes).length + 1⟩ := by
  intro faithful
  obtain ⟨-, labels, stored, -, text⟩ := faithful.encodes (Nat.succ_ne_zero _)
  have same : (ended front).length = (ended labels).length := by
    have lengths : (fullName front).bytes.length = (fullName labels).bytes.length := congrArg List.length stored
    rw [fullName_length, fullName_length] at lengths
    omega
  have more : (ended front).length < name.length := by
    rw [whole, List.length_append]
    have := List.length_pos_of_ne_nil filled
    omega
  have some_ : labels ≠ [] := by
    rintro rfl
    rw [same] at full
    exact absurd full (by simp [ended]; omega)
  have last := congrArg List.length (joined_ended some_)
  rw [List.length_append] at last
  rcases text with rfl | rfl
  · omega
  · rw [List.length_append] at more
    omega

theorem encodeLabels_faithful_iff (h : 3 ≤ capacity) (n : Nat) (whole : name = ended front ++ label) (proper : Proper front)
    (room : (ended front).length < capacity) (fuel : label.length < n)
    (first : ∀ front' rest', CutAt name capacity front' rest' → (ended front).length ≤ (ended front').length) :
    Faithful name capacity (encodeLabels capacity n label (front.flatMap labelBytes)) ↔ ¬ Cut name capacity := by
  induction n generalizing front label with
  | zero => omega
  | succ n ih =>
    rw [encodeLabels, labelBytes_length]
    obtain rfl | filled := eq_or_ne label []
    · -- the labels end with a dot, or there are none
      rw [if_neg (fun both => both.1 rfl)]
      rw [List.append_nil] at whole
      have text : name = joined front ∨ name = joined front ++ [46] := by
        cases front with
        | nil => exact .inl whole
        | cons l front => exact .inr (whole.trans (joined_ended (List.cons_ne_nil _ _)).symm)
      rw [← labelBytes_length]
      refine iff_of_true (faithful_whole proper room text) ?_
      rintro ⟨front', rest', cut⟩
      have later := first _ _ cut
      obtain ⟨split, more, -⟩ := cut
      have lengths := congrArg List.length (whole.symm.trans split)
      rw [List.length_append] at lengths
      have := List.length_pos_of_ne_nil more
      omega
    obtain tight | loose := Nat.lt_or_ge (ended front).length (capacity - 2)
    case inr =>
      -- the loop stops with a label left
      rw [if_neg (by omega), ← labelBytes_length]
      exact iff_of_false (shortened h whole filled loose) fun none_ =>
        none_ ⟨front, label, whole, filled, proper, by omega, room⟩
    rw [if_pos ⟨filled, tight⟩]
    obtain ⟨plain, shape⟩ := label_cases label
    generalize label.takeWhile (· != 46) = text at plain shape
    dsimp only
    by_cases bad : text.length = 0 ∨ 63 < text.length ∨ capacity ≤ (ended front).length + text.length + 1
    · rw [if_pos bad]
      have next : ∃ more, labelsOf label = text :: more := by
        rcases shape with ⟨-, last⟩ | ⟨rest, -, dotted⟩
        · exact ⟨[], last ▸ labelsOf_plain (last ▸ plain) (last ▸ filled)⟩
        · exact ⟨labelsOf rest, dotted ▸ labelsOf_dot plain rest⟩
      obtain ⟨more, next⟩ := next
      refine iff_of_true (faithful_refused proper whole room next bad) ?_
      rintro ⟨front', rest', cut⟩
      obtain ⟨m, more', rfl, behind, plain'⟩ := cut.next whole proper (first _ _ cut) tight
      rcases shape with ⟨-, last⟩ | ⟨rest, -, dotted⟩
      · exact plain (last ▸ behind ▸ by simp)
      · obtain ⟨rfl, -⟩ := first_dot (dotted.symm.trans behind) plain plain'
        obtain ⟨-, -, proper', -, inside⟩ := cut
        have small := (proper' text (by simp)).1
        rw [ended_append, ended_cons] at inside
        simp only [List.length_append, List.length_cons] at inside
        omega
    rw [if_neg bad]
    rcases shape with ⟨nothing, last⟩ | ⟨rest, behind, dotted⟩
    · -- the last label, without a dot
      rw [nothing]
      have snoc := proper.snoc (l := text) (by omega) plain
      have fits : (ended (front ++ [text])).length < capacity := by
        rw [ended_append, ended_cons]
        simp only [List.length_append, List.length_cons, ended, List.flatMap_nil, List.length_nil]
        simp only [ended] at bad
        omega
      have stored := @faithful_whole name _ _ snoc fits (.inl (by rw [joined_snoc, whole, ← last]))
      rw [List.flatMap_append, List.flatMap_singleton] at stored
      refine iff_of_true stored ?_
      rintro ⟨front', rest', cut⟩
      obtain ⟨m, more', -, split, -⟩ := cut.next whole proper (first _ _ cut) tight
      exact plain (last ▸ split ▸ by simp)
    · rw [behind]
      dsimp only
      have longer : ended (front ++ [text]) = ended front ++ (text ++ [46]) := by
        rw [ended_append]
        simp [ended]
      have next := @ih (front ++ [text]) rest
        (by rw [whole, dotted, longer]; simp)
        (proper.snoc (by omega) plain) (by rw [longer]; simp only [List.length_append, List.length_singleton]; omega)
        (by rw [dotted, List.length_append, List.length_cons] at fuel; omega) (by
          intro front' rest' cut
          obtain ⟨m, more', rfl, split, plain'⟩ := cut.next whole proper (first _ _ cut) tight
          obtain ⟨rfl, -⟩ := first_dot (dotted.symm.trans split) plain plain'
          rw [longer, ended_append, ended_cons]
          simp only [List.length_append, List.length_cons, List.length_nil]
          omega)
      rw [List.flatMap_append, List.flatMap_singleton] at next
      exact next

end Encoding

/-- dns_encode_name encodes a name whole, or refuses it for a reason, unless its first
labels fill all but one or two bytes of the room and more of the name follows. -/
theorem names_encoded_whole_iff (name : Bytes) (capacity : Nat) (h : 3 ≤ capacity) :
    Faithful name capacity (dnsEncodeName name capacity) ↔ ¬ Cut name capacity :=
  @encodeLabels_faithful_iff _ _ [] _ h _ rfl nofun (by simp [ended]; omega) (Nat.lt_succ_self _)
    fun _ _ _ => Nat.zero_le _

theorem names_encoded_whole_six :
    Faithful [97, 46, 98] 6 (dnsEncodeName [97, 46, 98] 6) ↔ ¬ Cut [97, 46, 98] 6 :=
  names_encoded_whole_iff [97, 46, 98] 6 (by decide)

/-- "ab.c" in five bytes is encoded as "ab". -/
theorem name_shortened : ¬ ∀ (name : Bytes) (capacity : Nat), 3 ≤ capacity → Faithful name capacity (dnsEncodeName name capacity) := by
  intro all
  have faithful := all [97, 98, 46, 99] 5 (by decide)
  exact @shortened _ _ [[97, 98]] [99] (by decide) (by decide) (by decide) (by decide) faithful

end Qito.Net
