import Mathlib.Data.List.Induction
import Qito.Shells.Editor

/-! What the line editor is for: a text with a cursor in it, as the texts on the two sides
of the cursor. Every key does to the buffer what it does to the two texts. -/
namespace Qito.Shells
open Rows Splices

/-- The text before the cursor and the one behind it, and the place in the history. -/
structure Typed where
  before : Bytes
  after : Bytes
  pos : Int
deriving DecidableEq

inductive Entered where
  | going (t : Typed)
  | line (text : Bytes)
deriving DecidableEq

/-- The word that ends at the cursor. -/
def wordBefore (before : Bytes) : Bytes := (before.reverse.takeWhile fun c => !isSpace c).reverse

section Keys
variable (S : Session) (size : Nat)

/-- Tab puts in what all names for the word have behind it, where there is room. -/
def completed (listing : Bytes → List Text) (t : Typed) : Typed :=
  let word := wordBefore t.before
  let insert := extension (candidates S listing (word.length = t.before.length) (word.take 255))
  if (t.before ++ insert ++ t.after).length < size - 1 then { t with before := t.before ++ insert } else t

def browsed (up : Bool) (t : Typed) : Typed :=
  let pos := target S t.pos up
  if pos = S.historyCount then ⟨[], [], pos⟩ else ⟨(S.history (pos.toNat % shellHistoryMax)).val.take (size - 1), [], pos⟩

def typeKey (input : Input) (t : Typed) : Entered :=
  let ch := input.ch
  if ch = 10 ∨ ch = 13 then .line (t.before ++ t.after)
  else if ch = 3 then .line []
  else if ch = 4 then if t.before ++ t.after = [] then .line (ascii "exit") else .going t
  else if ch = 1 then .going ⟨[], t.before ++ t.after, t.pos⟩
  else if ch = 5 then .going ⟨t.before ++ t.after, [], t.pos⟩
  else if ch = 21 then .going ⟨[], t.after, t.pos⟩
  else if ch = 11 then .going ⟨t.before, [], t.pos⟩
  else if ch = 12 then .going t
  else if ch = 9 then .going (completed S size input.listing t)
  else if ch = 8 ∨ ch = 127 then .going ⟨t.before.dropLast, t.after, t.pos⟩
  else if ch = keyLeft then .going ⟨t.before.dropLast, t.before.getLast?.toList ++ t.after, t.pos⟩
  else if ch = keyRight then .going ⟨t.before ++ t.after.head?.toList, t.after.tail, t.pos⟩
  else if ch = keyHome then .going ⟨[], t.before ++ t.after, t.pos⟩
  else if ch = keyEnd then .going ⟨t.before ++ t.after, [], t.pos⟩
  else if ch = keyDelete then .going ⟨t.before, t.after.tail, t.pos⟩
  else if ch = keyUp ∨ ch = keyDown then .going (browsed S size (ch = keyUp) t)
  else if ch < 32 ∨ 126 < ch then .going t
  else if size ≤ (t.before ++ t.after).length + 1 then .going t
  else .going ⟨t.before ++ [UInt8.ofNat ch.toNat], t.after, t.pos⟩

def typeKeys : List Input → Typed → Entered
  | [], t => .going t
  | input :: more, t =>
    match typeKey S size input t with
    | .going t => typeKeys more t
    | .line text => .line text

end Keys

/-- The buffer shows a text with a cursor. -/
structure Shows (size : Nat) (e : Editor) (t : Typed) : Prop where
  spells : Spells 0 e.cells (t.before ++ t.after)
  plain : 0 ∉ t.before ++ t.after
  room : (t.before ++ t.after).length < size
  length : e.length = (t.before ++ t.after).length
  cursor : e.cursor = t.before.length
  pos : e.pos = t.pos

/-- The editor is where the text is, or has returned it. -/
def Agrees (size : Nat) : Press → Entered → Prop
  | .going e, .going t => Shows size e t
  | .line cells length, .line text => length = text.length ∧ Spells 0 cells text ∧ 0 ∉ text ∧ length < size
  | _, _ => False

section Words
variable {S : Session} {cells : Nat → UInt8} {before after : Bytes} {listing : Bytes → List Text}

theorem wordBefore_snoc (before : Bytes) (c : UInt8) :
    wordBefore (before ++ [c]) = if isSpace c then [] else wordBefore before ++ [c] := by
  unfold wordBefore
  rw [List.reverse_append, List.reverse_singleton, List.singleton_append, List.takeWhile_cons]
  cases isSpace c with
  | true => rfl
  | false => simp

theorem wordStart_spec (early : ∀ k < before.length, cells k = before.getD k 0) :
    ∃ lead, before = lead ++ wordBefore before ∧ wordStart cells before.length = lead.length := by
  induction before using List.reverseRecOn with
  | nil => exact ⟨[], rfl, rfl⟩
  | append_singleton before c ih =>
    rw [List.length_append, List.length_singleton] at early ⊢
    have last : cells before.length = c := by
      rw [early _ (Nat.lt_succ_self _), List.getD_append_right _ _ _ _ (Nat.le_refl _), Nat.sub_self, List.getD_cons_zero]
    rw [wordStart, last, wordBefore_snoc]
    cases isSpace c with
    | true => exact ⟨before ++ [c], (List.append_nil _).symm, by simp⟩
    | false =>
      obtain ⟨lead, split, start⟩ := ih fun k inside => by
        rw [early k (Nat.lt_succ_of_lt inside), List.getD_append _ _ _ _ inside]
      refine ⟨lead, ?_, start⟩
      rw [if_neg Bool.false_ne_true, ← List.append_assoc, ← split]

theorem candidates_plain (first : Bool) (word : Bytes) : ∀ name ∈ (candidates S listing first word).1, 0 ∉ name := by
  intro name member
  unfold candidates at member
  split at member
  · have there := List.mem_of_mem_filter (List.mem_of_mem_take member)
    obtain ⟨text, -, rfl⟩ := List.mem_map.mp there
    exact text.property
  · obtain ⟨whole, there, rfl⟩ := List.mem_map.mp member
    obtain ⟨text, -, rfl⟩ := List.mem_map.mp (List.mem_of_mem_filter (List.mem_of_mem_take there))
    exact fun zero => text.property (List.mem_of_mem_take zero)

theorem extension_plain {found : List Bytes × Nat} (plain : ∀ name ∈ found.1, 0 ∉ name) : 0 ∉ extension found := by
  unfold extension
  split
  · exact List.not_mem_nil
  · rename_i first more names
    rw [names] at plain
    exact fun zero => plain first List.mem_cons_self (List.mem_of_mem_take (List.mem_of_mem_drop zero))

end Words

theorem scan_text {cells : Nat → UInt8} {text : Bytes} {n k : Nat} (stands : ∀ j ≤ text.length, cells (k + j) = text.getD j 0)
    (plain : 0 ∉ text) (room : text.length < n) : scan cells n k = text := by
  induction text generalizing n k with
  | nil =>
    obtain ⟨n, rfl⟩ := Nat.exists_eq_succ_of_ne_zero (Nat.ne_of_gt room)
    exact if_pos (stands 0 (Nat.le_refl _))
  | cons c text ih =>
    obtain ⟨n, rfl⟩ := Nat.exists_eq_succ_of_ne_zero (Nat.ne_of_gt (Nat.zero_lt_of_lt room))
    have head : cells k = c := stands 0 (Nat.zero_le _)
    have other : c ≠ 0 := fun zero => plain (zero ▸ List.mem_cons_self)
    have tail : ∀ j ≤ text.length, cells (k + 1 + j) = text.getD j 0 := by
      intro j inside
      have there := stands (j + 1) (Nat.succ_le_succ inside)
      rw [List.getD_cons_succ] at there
      rw [Nat.add_assoc, Nat.add_comm 1]
      exact there
    rw [scan, head, if_neg other, ih tail (fun member => plain (List.mem_cons_of_mem _ member)) (Nat.lt_of_succ_lt_succ room)]

section Commands
variable {S : Session} {size : Nat} {e : Editor} {t : Typed} {listing : Bytes → List Text}

theorem Shows.moved (shows_ : Shows size e t) {before after : Bytes} (same : before ++ after = t.before ++ t.after) {cursor : Nat}
    (here : cursor = before.length) : Shows size { e with cursor := cursor } ⟨before, after, t.pos⟩ := by
  constructor
  · rw [same]
    exact shows_.spells
  · rw [same]
    exact shows_.plain
  · rw [same]
    exact shows_.room
  · rw [same]
    exact shows_.length
  · exact here
  · exact shows_.pos

theorem Shows.taken (shows_ : Shows size e t) (front gone back : Bytes) (parts : t.before ++ t.after = front ++ gone ++ back)
    {dst src count length : Nat} (here : dst = front.length) (from_ : src = front.length + gone.length)
    (many : count = back.length + 1) (left : length = front.length + back.length) :
    ∃ cells, move size e.cells dst src count = some cells ∧ Shows size ⟨cells, length, dst, e.pos⟩ ⟨front, back, t.pos⟩ := by
  subst here from_ many
  have spells := shows_.spells
  have room := shows_.room
  have plain := shows_.plain
  rw [parts] at spells room plain
  obtain ⟨cells, moved, spells'⟩ := spells.cut room
  refine ⟨cells, moved, ?_⟩
  constructor
  · exact spells'
  · simp only [List.mem_append, not_or] at plain ⊢
    exact ⟨plain.1.1, plain.2⟩
  · simp only [List.length_append] at room ⊢
    omega
  · rw [List.length_append]
    exact left
  · rfl
  · exact shows_.pos

theorem Shows.inserted (shows_ : Shows size e t) {mid : Bytes} (plain : 0 ∉ mid) (room : (t.before ++ mid ++ t.after).length < size) :
    ∃ cells₁ cells, move size e.cells (e.cursor + mid.length) e.cursor (e.length - e.cursor + 1) = some cells₁ ∧
      fill size cells₁ e.cursor mid = some cells ∧
      Shows size ⟨cells, e.length + mid.length, e.cursor + mid.length, e.pos⟩ ⟨t.before ++ mid, t.after, t.pos⟩ := by
  obtain ⟨cells₁, cells, moved, filled, spells⟩ := shows_.spells.insert room
  have behind : e.length - e.cursor = t.after.length := by
    rw [shows_.length, shows_.cursor, List.length_append]
    omega
  refine ⟨cells₁, cells, ?_, ?_, ?_⟩
  · rw [behind, shows_.cursor]
    exact moved
  · rw [shows_.cursor]
    exact filled
  · have old := shows_.plain
    constructor
    · exact spells
    · simp only [List.mem_append, not_or] at old ⊢
      exact ⟨⟨old.1, plain⟩, old.2⟩
    · exact room
    · rw [shows_.length]
      simp only [List.length_append]
      omega
    · rw [shows_.cursor, List.length_append]
    · exact shows_.pos

theorem complete_shows (shows_ : Shows size e t) :
    ∃ e', complete S size listing e = some e' ∧ Shows size e' (completed S size listing t) := by
  have spells := shows_.spells
  obtain ⟨lead, split, start⟩ := wordStart_spec fun k early => spells.early early
  have word : cstr ((List.range (min (e.cursor - lead.length) 255)).map fun i => e.cells (lead.length + i)) =
      (wordBefore t.before).take 255 := by
    have long : min (e.cursor - lead.length) 255 = ((wordBefore t.before).take 255).length := by
      rw [shows_.cursor, List.length_take]
      have lengths := congrArg List.length split
      rw [List.length_append] at lengths
      omega
    have whole : t.before ++ t.after = lead ++ (wordBefore t.before).take 255 ++ ((wordBefore t.before).drop 255 ++ t.after) := by
      rw [List.append_assoc, ← List.append_assoc ((wordBefore t.before).take 255), List.take_append_drop, ← List.append_assoc, ← split]
    rw [whole] at spells
    rw [long, spells.read]
    apply cstr_plain
    intro zero
    apply shows_.plain
    rw [whole]
    exact List.mem_append_left _ (List.mem_append_right _ zero)
  have first : (lead.length = 0) = ((wordBefore t.before).length = t.before.length) := by
    have lengths := congrArg List.length split
    rw [List.length_append] at lengths
    apply propext
    omega
  unfold complete completed
  simp only [shows_.cursor] at word ⊢
  simp only [start, word, first]
  have plain := extension_plain (@candidates_plain S listing (decide ((wordBefore t.before).length = t.before.length))
    ((wordBefore t.before).take 255))
  generalize extension (candidates S listing (decide ((wordBefore t.before).length = t.before.length))
    ((wordBefore t.before).take 255)) = mid at plain
  have lengths : (t.before ++ mid ++ t.after).length = e.length + mid.length := by
    rw [shows_.length]
    simp only [List.length_append]
    omega
  rw [lengths]
  by_cases nothing : mid = []
  · subst nothing
    rw [if_pos rfl, List.append_nil]
    refine ⟨e, rfl, ?_⟩
    split
    · exact shows_
    · exact shows_
  rw [if_neg nothing]
  by_cases room : e.length + mid.length < size - 1
  · rw [if_pos room, if_pos room]
    obtain ⟨cells₁, cells, moved, filled, after_⟩ := shows_.inserted plain (by omega)
    rw [shows_.cursor] at moved filled after_
    rw [moved, Option.bind_some, filled]
    exact ⟨_, rfl, after_⟩
  · rw [if_neg room, if_neg room]
    exact ⟨e, rfl, shows_⟩

theorem browse_shows (shows_ : Shows size e t) (up : Bool) : ∃ e', browse S size up e = some e' ∧ Shows size e' (browsed S size up t) := by
  have space : 0 < size := Nat.lt_of_le_of_lt (Nat.zero_le _) shows_.room
  unfold browse browsed
  simp only [shows_.pos]
  by_cases newest : target S t.pos up = S.historyCount
  · rw [if_pos newest, if_pos newest, store_inside space]
    refine ⟨_, rfl, ?_⟩
    have spells : Spells 0 e.cells ([] ++ (t.before ++ t.after)) := shows_.spells
    exact ⟨spells.shorten, List.not_mem_nil, space, rfl, rfl, rfl⟩
  · rw [if_neg newest, if_neg newest]
    have plain := (S.history ((target S t.pos up).toNat % shellHistoryMax)).property
    generalize (S.history ((target S t.pos up).toNat % shellHistoryMax)).val = line at plain
    have cut : strlcpy line size = line.take (size - 1) := by
      unfold strlcpy
      rw [cstr_plain plain]
    have room : (line.take (size - 1)).length < size := by
      rw [List.length_take]
      omega
    have clean : 0 ∉ line.take (size - 1) := fun zero => plain (List.mem_of_mem_take zero)
    obtain ⟨cells, filled, spells⟩ := fill_spells room
    have length : (scan cells size 0).length = (line.take (size - 1)).length := by
      rw [scan_text (fun j inside => (congrArg cells (Nat.zero_add j)).trans (spells j inside)) clean room]
    rw [cut, filled]
    refine ⟨_, rfl, ?_⟩
    constructor
    · rw [List.append_nil]
      exact spells
    · rw [List.append_nil]
      exact clean
    · rw [List.append_nil]
      exact room
    · rw [List.append_nil]
      exact length
    · exact length
    · rfl

theorem line_agrees {text : Bytes} {length : Nat} (o : Option (Nat → UInt8))
    (written : ∃ cells, o = some cells ∧ Spells 0 cells text) (same : length = text.length) (plain : 0 ∉ text) (room : length < size) :
    ∃ press, (o.map fun cells => Press.line cells length) = some press ∧ Agrees size press (.line text) := by
  obtain ⟨cells, rfl, spells⟩ := written
  exact ⟨.line cells length, rfl, same, spells, plain, room⟩

theorem store_ends {cells : Nat → UInt8} {front back : Bytes} (spells : Spells 0 cells (front ++ back)) (inside : front.length < size) :
    ∃ cells', store size cells front.length 0 = some cells' ∧ Spells 0 cells' front :=
  ⟨_, store_inside inside 0, spells.shorten⟩

theorem backspace_agrees (shows_ : Shows size e t) :
    ∃ press, (if 0 < e.cursor then
        (move size e.cells (e.cursor - 1) e.cursor (e.length - e.cursor + 1)).map fun cells =>
          Press.going ⟨cells, e.length - 1, e.cursor - 1, e.pos⟩
      else some (.going e)) = some press ∧ Agrees size press (.going ⟨t.before.dropLast, t.after, t.pos⟩) := by
  obtain ⟨before, after, pos⟩ := t
  obtain rfl | ⟨before, c, rfl⟩ := List.eq_nil_or_concat before
  · rw [if_neg (by rw [shows_.cursor]; exact Nat.lt_irrefl 0)]
    exact ⟨_, rfl, shows_⟩
  · rw [List.concat_eq_append] at shows_ ⊢
    have cursor := shows_.cursor
    have length := shows_.length
    simp only [List.length_append, List.length_singleton] at cursor length
    have here : e.cursor - 1 = before.length := by omega
    have from_ : e.cursor = before.length + [c].length := cursor
    have many : e.length - e.cursor + 1 = after.length + 1 := by omega
    have left : e.length - 1 = before.length + after.length := by omega
    obtain ⟨cells, moved, after_⟩ := shows_.taken before [c] after rfl here from_ many left
    rw [if_pos (by omega), moved, List.dropLast_concat]
    exact ⟨_, rfl, after_⟩

theorem delete_agrees (shows_ : Shows size e t) :
    ∃ press, (if e.cursor < e.length then
        (move size e.cells e.cursor (e.cursor + 1) (e.length - e.cursor)).map fun cells =>
          Press.going ⟨cells, e.length - 1, e.cursor, e.pos⟩
      else some (.going e)) = some press ∧ Agrees size press (.going ⟨t.before, t.after.tail, t.pos⟩) := by
  obtain ⟨before, after, pos⟩ := t
  have cursor := shows_.cursor
  have length := shows_.length
  simp only [List.length_append] at cursor length
  cases after with
  | nil =>
    rw [if_neg (by rw [List.length_nil] at length; omega)]
    exact ⟨_, rfl, shows_⟩
  | cons c after =>
    rw [List.length_cons] at length
    have parts : before ++ c :: after = before ++ [c] ++ after := by rw [List.append_assoc, List.singleton_append]
    have from_ : e.cursor + 1 = before.length + [c].length := congrArg Nat.succ cursor
    have many : e.length - e.cursor = after.length + 1 := by omega
    have left : e.length - 1 = before.length + after.length := by omega
    obtain ⟨cells, moved, after_⟩ := shows_.taken before [c] after parts cursor from_ many left
    rw [if_pos (by omega), moved]
    exact ⟨_, rfl, after_⟩

theorem left_shows (shows_ : Shows size e t) : Shows size (if 0 < e.cursor then { e with cursor := e.cursor - 1 } else e)
    ⟨t.before.dropLast, t.before.getLast?.toList ++ t.after, t.pos⟩ := by
  have cursor := shows_.cursor
  obtain none_ | ⟨before, c, last⟩ := List.eq_nil_or_concat t.before
  · rw [none_, List.length_nil] at cursor
    rw [if_neg (by omega)]
    exact shows_.moved (by rw [none_]; rfl) (by rw [none_]; exact cursor)
  · rw [List.concat_eq_append] at last
    rw [last, List.length_append, List.length_singleton] at cursor
    rw [if_pos (by omega)]
    apply shows_.moved
    · rw [last]
      simp
    · rw [last, List.dropLast_concat]
      omega

theorem right_shows (shows_ : Shows size e t) : Shows size (if e.cursor < e.length then { e with cursor := e.cursor + 1 } else e)
    ⟨t.before ++ t.after.head?.toList, t.after.tail, t.pos⟩ := by
  have cursor := shows_.cursor
  have length := shows_.length
  rw [List.length_append] at length
  cases rest : t.after with
  | nil =>
    rw [rest, List.length_nil] at length
    rw [if_neg (by omega)]
    exact shows_.moved (by rw [rest]; simp) (by simpa using cursor)
  | cons c after =>
    rw [rest, List.length_cons] at length
    rw [if_pos (by omega)]
    apply shows_.moved
    · rw [rest]
      simp
    · rw [cursor]
      simp

theorem fill_one {cells : Nat → UInt8} (k : Nat) (c : UInt8) : fill size cells k [c] = store size cells k c := by
  unfold fill store
  have written : (fun i => if k ≤ i then [c].getD (i - k) (cells i) else cells i) = fun i => if i = k then c else cells i := by
    funext i
    obtain before | rfl | behind := Nat.lt_trichotomy i k
    · rw [if_neg (by omega), if_neg (by omega)]
    · rw [if_pos (Nat.le_refl _), if_pos rfl, Nat.sub_self, List.getD_cons_zero]
    · rw [if_pos (by omega), if_neg (by omega), List.getD_eq_default _ _ (by rw [List.length_singleton]; omega)]
  rw [written]
  rfl

theorem insert_agrees (shows_ : Shows size e t) {ch : Int} (printable : 32 ≤ ch ∧ ch ≤ 126) (room : e.length + 1 < size) :
    ∃ press, ((move size e.cells (e.cursor + 1) e.cursor (e.length - e.cursor + 1)).bind fun cells =>
        (store size cells e.cursor (UInt8.ofNat ch.toNat)).map fun cells =>
          Press.going ⟨cells, e.length + 1, e.cursor + 1, e.pos⟩) = some press ∧
      Agrees size press (.going ⟨t.before ++ [UInt8.ofNat ch.toNat], t.after, t.pos⟩) := by
  have other : (0 : UInt8) ∉ [UInt8.ofNat ch.toNat] := by
    intro zero
    have value := congrArg UInt8.toNat (List.mem_singleton.mp zero)
    rw [UInt8.toNat_ofNat'] at value
    change 0 = ch.toNat % 256 at value
    omega
  have longer : (t.before ++ [UInt8.ofNat ch.toNat] ++ t.after).length < size := by
    have length := shows_.length
    simp only [List.length_append, List.length_singleton] at length ⊢
    omega
  obtain ⟨cells₁, cells, moved, filled, after_⟩ := shows_.inserted other longer
  rw [fill_one] at filled
  rw [List.length_singleton] at moved after_
  rw [moved, Option.bind_some, filled]
  exact ⟨_, rfl, after_⟩

theorem pressKey_agrees (enough : 8 ≤ size) (input : Input) (shows_ : Shows size e t) :
    ∃ press, pressKey S size input e = some press ∧ Agrees size press (typeKey S size input t) := by
  obtain ⟨ch, listing⟩ := input
  have stays : ∃ press, some (Press.going e) = some press ∧ Agrees size press (.going t) := ⟨_, rfl, shows_⟩
  have front : Shows size { e with cursor := 0 } ⟨[], t.before ++ t.after, t.pos⟩ := shows_.moved (List.nil_append _) rfl
  have back : Shows size { e with cursor := e.length } ⟨t.before ++ t.after, [], t.pos⟩ :=
    shows_.moved (List.append_nil _) shows_.length
  have behind : e.length - e.cursor = t.after.length := by
    rw [shows_.length, shows_.cursor, List.length_append]
    omega
  have room := shows_.room
  have plain := shows_.plain
  unfold pressKey typeKey
  dsimp only
  by_cases enter : ch = 10 ∨ ch = 13
  · rw [if_pos enter, if_pos enter]
    have spells : Spells 0 e.cells (t.before ++ t.after ++ []) := by
      rw [List.append_nil]
      exact shows_.spells
    rw [shows_.length]
    exact line_agrees _ (store_ends spells room) rfl plain room
  rw [if_neg enter, if_neg enter]
  by_cases abandon : ch = 3
  · rw [if_pos abandon, if_pos abandon]
    have spells : Spells 0 e.cells ([] ++ (t.before ++ t.after)) := shows_.spells
    exact line_agrees _ (store_ends spells (by rw [List.length_nil]; omega)) rfl List.not_mem_nil (by omega)
  rw [if_neg abandon, if_neg abandon]
  by_cases leave : ch = 4
  · rw [if_pos leave, if_pos leave]
    by_cases empty : t.before ++ t.after = []
    · have nothing : e.length = 0 := by rw [shows_.length, empty, List.length_nil]
      have cut : strlcpy (ascii "exit") size = ascii "exit" := by
        have whole : cstr (ascii "exit") = ascii "exit" := by decide
        unfold strlcpy
        rw [whole, List.take_of_length_le (Nat.le_sub_one_of_lt (Nat.lt_of_lt_of_le (by decide) enough))]
      rw [if_pos nothing, if_pos empty, cut]
      exact line_agrees _ (fill_spells (Nat.lt_of_lt_of_le (by decide) enough)) (by decide) (by decide) (by omega)
    · have some_ : e.length ≠ 0 := by
        rw [shows_.length]
        exact fun none_ => empty (List.length_eq_zero_iff.mp none_)
      rw [if_neg some_, if_neg empty]
      exact stays
  rw [if_neg leave, if_neg leave]
  by_cases home : ch = 1
  · rw [if_pos home, if_pos home]
    exact ⟨_, rfl, front⟩
  rw [if_neg home, if_neg home]
  by_cases last : ch = 5
  · rw [if_pos last, if_pos last]
    exact ⟨_, rfl, back⟩
  rw [if_neg last, if_neg last]
  by_cases clear_ : ch = 21
  · rw [if_pos clear_, if_pos clear_]
    have here : 0 = ([] : Bytes).length := rfl
    have from_ : e.cursor = ([] : Bytes).length + t.before.length := by rw [shows_.cursor, List.length_nil, Nat.zero_add]
    have left : e.length - e.cursor = ([] : Bytes).length + t.after.length := by rw [behind, List.length_nil, Nat.zero_add]
    obtain ⟨cells, moved, after_⟩ := shows_.taken [] t.before t.after rfl here from_ (congrArg Nat.succ behind) left
    rw [moved]
    exact ⟨_, rfl, after_⟩
  rw [if_neg clear_, if_neg clear_]
  by_cases kill : ch = 11
  · rw [if_pos kill, if_pos kill]
    have inside : t.before.length < size := by
      rw [List.length_append] at room
      omega
    obtain ⟨cells, stored, spells⟩ := store_ends shows_.spells inside
    rw [shows_.cursor, stored]
    refine ⟨_, rfl, ?_⟩
    constructor
    · rw [List.append_nil]
      exact spells
    · rw [List.append_nil]
      exact fun zero => plain (List.mem_append_left _ zero)
    · rw [List.append_nil]
      exact inside
    · rw [List.append_nil]
    · rfl
    · exact shows_.pos
  rw [if_neg kill, if_neg kill]
  by_cases redraw : ch = 12
  · rw [if_pos redraw, if_pos redraw]
    exact stays
  rw [if_neg redraw, if_neg redraw]
  by_cases tab : ch = 9
  · rw [if_pos tab, if_pos tab]
    obtain ⟨e', done, after_⟩ := complete_shows (S := S) shows_
    rw [done]
    exact ⟨_, rfl, after_⟩
  rw [if_neg tab, if_neg tab]
  by_cases backspace : ch = 8 ∨ ch = 127
  · rw [if_pos backspace, if_pos backspace]
    exact backspace_agrees shows_
  rw [if_neg backspace, if_neg backspace]
  by_cases left : ch = keyLeft
  · rw [if_pos left, if_pos left]
    exact ⟨_, rfl, left_shows shows_⟩
  rw [if_neg left, if_neg left]
  by_cases right : ch = keyRight
  · rw [if_pos right, if_pos right]
    exact ⟨_, rfl, right_shows shows_⟩
  rw [if_neg right, if_neg right]
  by_cases start : ch = keyHome
  · rw [if_pos start, if_pos start]
    exact ⟨_, rfl, front⟩
  rw [if_neg start, if_neg start]
  by_cases stop : ch = keyEnd
  · rw [if_pos stop, if_pos stop]
    exact ⟨_, rfl, back⟩
  rw [if_neg stop, if_neg stop]
  by_cases delete : ch = keyDelete
  · rw [if_pos delete, if_pos delete]
    exact delete_agrees shows_
  rw [if_neg delete, if_neg delete]
  by_cases history : ch = keyUp ∨ ch = keyDown
  · rw [if_pos history, if_pos history]
    obtain ⟨e', done, after_⟩ := browse_shows (S := S) shows_ (ch = keyUp)
    rw [done]
    exact ⟨_, rfl, after_⟩
  rw [if_neg history, if_neg history]
  by_cases control : ch < 32 ∨ 126 < ch
  · rw [if_pos control, if_pos control]
    exact stays
  rw [if_neg control, if_neg control, shows_.length]
  by_cases full : size ≤ (t.before ++ t.after).length + 1
  · rw [if_pos full, if_pos full]
    exact stays
  rw [if_neg full, if_neg full, ← shows_.length]
  exact insert_agrees shows_ (by omega) (by rw [shows_.length]; omega)

theorem pressKeys_agrees (enough : 8 ≤ size) (inputs : List Input) (shows_ : Shows size e t) :
    ∃ press, pressKeys S size inputs e = some press ∧ Agrees size press (typeKeys S size inputs t) := by
  induction inputs generalizing e t with
  | nil => exact ⟨_, rfl, shows_⟩
  | cons input more ih =>
    obtain ⟨press, pressed, agrees⟩ := pressKey_agrees (S := S) enough input shows_
    rw [pressKeys, pressed, Option.bind_some, typeKeys]
    cases press with
    | going e =>
      cases entered : typeKey S size input t with
      | going t =>
        rw [entered] at agrees
        exact ih agrees
      | line text =>
        rw [entered] at agrees
        exact agrees.elim
    | line cells length =>
      cases entered : typeKey S size input t with
      | going t =>
        rw [entered] at agrees
        exact agrees.elim
      | line text =>
        rw [entered] at agrees
        exact ⟨_, rfl, agrees⟩

end Commands

/-- After every key the cursor is in the line, the line is in the buffer, and the NUL behind
it is the only one up to there. -/
def Bounded (size : Nat) : Press → Prop
  | .going e => e.cursor ≤ e.length ∧ e.length < size ∧ ∀ k ≤ e.length, e.cells k = 0 ↔ k = e.length
  | .line cells length => length < size ∧ ∀ k ≤ length, cells k = 0 ↔ k = length

theorem Agrees.bounded {size : Nat} {press : Press} {entered : Entered} (agrees : Agrees size press entered) : Bounded size press := by
  cases press with
  | going e =>
    cases entered with
    | going t =>
      obtain ⟨spells, plain, room, length, cursor, -⟩ := agrees
      refine ⟨?_, ?_, ?_⟩
      · rw [length, cursor, List.length_append]
        exact Nat.le_add_right _ _
      · rw [length]
        exact room
      · rw [length]
        exact fun k inside => spells.only plain inside
    | line text => exact agrees.elim
  | line cells length =>
    cases entered with
    | going t => exact agrees.elim
    | line text =>
      obtain ⟨rfl, spells, plain, room⟩ := agrees
      exact ⟨room, fun k inside => spells.only plain inside⟩

/-- Whatever keys come, shell_read_line stays in its buffer and edits and returns what a
text with a cursor comes to under the same keys. -/
theorem line_editor_refines (S : Session) (size : Nat) (cells : Nat → UInt8) (inputs : List Input) (enough : 8 ≤ size) :
    ∃ press, shellReadLine S size cells inputs = some press ∧ Bounded size press ∧
      Agrees size press (typeKeys S size inputs ⟨[], [], S.historyCount⟩) := by
  have space : 0 < size := by omega
  have start : Shows size ⟨fun i => if i = 0 then 0 else cells i, 0, 0, S.historyCount⟩ ⟨[], [], S.historyCount⟩ := by
    refine ⟨?_, List.not_mem_nil, space, rfl, rfl, rfl⟩
    intro k inside
    obtain rfl := Nat.le_zero.mp inside
    change (if 0 = 0 then (0 : UInt8) else cells 0) = 0
    exact if_pos rfl
  obtain ⟨press, pressed, agrees⟩ := pressKeys_agrees (S := S) enough inputs start
  refine ⟨press, ?_, agrees.bounded, agrees⟩
  unfold shellReadLine
  rw [store_inside space]
  exact pressed

def oneLine : Session := ⟨fun _ => ⟨ascii "pwd", by decide⟩, 1, [⟨ascii "echo", by decide⟩], id⟩

/-- The keys of "ec", Tab, Home and Delete. -/
def sampleKeys : List Input := [101, 99, 9, 1, keyDelete].map fun ch => ⟨ch, fun _ => []⟩

example : (typeKeys oneLine 8 sampleKeys ⟨[], [], 1⟩) = .going ⟨[], ascii "cho", 1⟩ := by decide +kernel

theorem line_editor_refines_sample :
    ∃ press, shellReadLine oneLine 8 (fun _ => 1) sampleKeys = some press ∧ Bounded 8 press ∧
      Agrees 8 press (typeKeys oneLine 8 sampleKeys ⟨[], [], oneLine.historyCount⟩) :=
  line_editor_refines oneLine 8 (fun _ => 1) sampleKeys (by decide)

end Qito.Shells
