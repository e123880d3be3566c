import Mathlib.Data.List.Forall2
import Qito.Shells.Blanks

/-! shell_tokenize with the storage it cuts the words into. A store outside of storage
or of argv is none; with three bytes more than the line the bound on the storage never
stops a word, and quoted words come back as they were. -/
namespace Qito.Shells

def store (size : Nat) (cells : Nat → UInt8) (k : Nat) (c : UInt8) : Option (Nat → UInt8) :=
  if k < size then some (fun i => if i = k then c else cells i) else none

/-- A pointer, or the NULL at the end, into argv with so many slots. -/
def putArg (slots : Nat) (argv : List Nat) : Option Unit := if argv.length < slots then some () else none

/-- The loop over the characters of a word: its length, the storage and what is left of
the line. escaped says that a backslash has just been passed over. -/
def wordLoop (size used : Nat) : Option UInt8 → Bool → Nat → (Nat → UInt8) → Bytes → Option (Nat × (Nat → UInt8) × Bytes)
  | _, _, len, cells, [] => some (len, cells, [])
  | quote, true, len, cells, c :: rest =>
    if size ≤ used + len + 2 then some (len, cells, c :: rest)
    else (store size cells (used + len) c).bind fun cells => wordLoop size used quote false (len + 1) cells rest
  | quote, false, len, cells, c :: rest =>
    if quote = some c then wordLoop size used none false len cells rest
    else if quote = none ∧ (c = 34 ∨ c = 39) then wordLoop size used (some c) false len cells rest
    else if quote = none ∧ isSpace c then some (len, cells, c :: rest)
    else if c = 92 ∧ quote ≠ some 39 ∧ rest ≠ [] then wordLoop size used quote true len cells rest
    else if size ≤ used + len + 2 then some (len, cells, c :: rest)
    else (store size cells (used + len) c).bind fun cells => wordLoop size used quote false (len + 1) cells rest

/-- The loop over the words, with the arguments that may still come; argv holds where
the words start in storage. -/
def wordsLoop (slots size : Nat) : Nat → Nat → (Nat → UInt8) → List Nat → Bytes → Option ((Nat → UInt8) × List Nat)
  | 0, _, cells, argv, _ => (putArg slots argv).map fun _ => (cells, argv)
  | n + 1, used, cells, argv, text =>
    if text.dropWhile isSpace = [] then (putArg slots argv).map fun _ => (cells, argv)
    else
      (wordLoop size used none false 0 cells (text.dropWhile isSpace)).bind fun (len, cells, rest) =>
        (store size cells (used + len) 0).bind fun cells =>
          (putArg slots argv).bind fun _ => wordsLoop slots size n (used + len + 1) cells (argv ++ [used]) rest

def tokenizeInto (input : Bytes) (maxArgs slots size : Nat) (cells : Nat → UInt8) : Option ((Nat → UInt8) × List Nat) :=
  wordsLoop slots size maxArgs 0 cells [] (cstr input)

/-- The string that starts at a cell; none where no terminator stands in front of the end. -/
def stringAt (cells : Nat → UInt8) : Nat → Nat → Option Bytes
  | 0, _ => none
  | n + 1, k => if cells k = 0 then some [] else (stringAt cells n (k + 1)).map (cells k :: ·)

/-- The strings that argv points to. -/
def argvStrings (size : Nat) (result : (Nat → UInt8) × List Nat) : Option (List Bytes) :=
  result.2.mapM fun start => stringAt result.1 (size - start) start

/-- A word with its terminator at a place of the storage. -/
def Standing (cells : Nat → UInt8) (start : Nat) (word : Bytes) : Prop :=
  (∀ k (inside : k < word.length), cells (start + k) = word[k]) ∧ cells (start + word.length) = 0

section Storage
variable {size used : Nat} {cells cells' : Nat → UInt8} {quote : Option UInt8} {escaped : Bool} {text token word rest : Bytes}

theorem store_inside {k : Nat} (inside : k < size) (c : UInt8) :
    store size cells k c = some fun i => if i = k then c else cells i := if_pos inside

theorem Standing.string {start : Nat} (standing : Standing cells start word) (plain : 0 ∉ word) (n : Nat) (room : word.length < n) :
    stringAt cells n start = some word := by
  induction word generalizing start n with
  | nil =>
    obtain ⟨n, rfl⟩ := Nat.exists_eq_succ_of_ne_zero (Nat.ne_of_gt room)
    exact if_pos standing.2
  | cons c word ih =>
    obtain ⟨n, rfl⟩ := Nat.exists_eq_succ_of_ne_zero (Nat.ne_of_gt (Nat.zero_lt_of_lt room))
    have head : cells start = c := standing.1 0 (Nat.succ_pos _)
    have tail : Standing cells (start + 1) word := by
      constructor
      · intro k inside
        have := standing.1 (k + 1) (Nat.succ_lt_succ inside)
        rw [Nat.add_assoc, Nat.add_comm 1 k]
        exact this
      · have := standing.2
        rw [List.length_cons] at this
        rw [Nat.add_assoc, Nat.add_comm 1]
        exact this
    have other : c ≠ 0 := fun zero => plain (zero ▸ List.mem_cons_self)
    rw [stringAt, head, if_neg other, ih tail (fun member => plain (List.mem_cons_of_mem _ member)) n
      (Nat.lt_of_succ_lt_succ room)]
    rfl

theorem Standing.kept {start : Nat} (standing : Standing cells start word) (below : start + word.length < used)
    (same : ∀ k < used, cells' k = cells k) : Standing cells' start word := by
  constructor
  · intro k inside
    rw [same _ (by omega)]
    exact standing.1 k inside
  · rw [same _ below]
    exact standing.2

theorem tokensFrom_fresh {c : UInt8} (other : isSpace c = false) (rest : Bytes) :
    tokensFrom none none false (c :: rest) = tokensFrom (some []) none false (c :: rest) := by
  rw [tokensFrom, tokensFrom]
  simp [other]

theorem tokensFrom_drop (text : Bytes) : tokensFrom none none false (text.dropWhile isSpace) = tokensFrom none none false text := by
  induction text with
  | nil => rfl
  | cons c rest ih =>
    rw [List.dropWhile_cons]
    split
    · rename_i blank
      rw [ih, tokensFrom, if_pos ⟨rfl, blank⟩]
    · rfl

/-- The first characters of a word at a place of the storage. -/
def Begun (cells : Nat → UInt8) (start : Nat) (token : Bytes) : Prop := ∀ k (inside : k < token.length), cells (start + k) = token[k]

theorem Begun.snoc {c : UInt8} (begun : Begun cells used token) :
    Begun (fun i => if i = used + token.length then c else cells i) used (token ++ [c]) := by
  intro k inside
  rw [List.length_append, List.length_singleton] at inside
  dsimp only
  by_cases last : k = token.length
  · subst last
    rw [if_pos rfl, List.getElem_concat_length rfl]
  · rw [if_neg (by omega), begun k (by omega), List.getElem_append_left]

/-- What the loop over the characters leaves: the next token of the line stands in the
storage, and white space comes behind it. -/
structure WordDone (used : Nat) (token text : Bytes) (tokens : List Bytes) (cells : Nat → UInt8)
    (result : Option (Nat × (Nat → UInt8) × Bytes)) (word : Bytes) (cells' : Nat → UInt8) (rest : Bytes) : Prop where
  ended : result = some (word.length, cells', rest)
  first : tokens = word :: tokensFrom none none false rest
  stands : Begun cells' used word
  front : ∀ k < used, cells' k = cells k
  shorter : word.length + rest.length ≤ token.length + text.length
  blank : ∀ c ∈ rest.head?, isSpace c

def Finishes (used : Nat) (token text : Bytes) (tokens : List Bytes) (cells : Nat → UInt8)
    (result : Option (Nat × (Nat → UInt8) × Bytes)) : Prop :=
  ∃ word cells' rest, WordDone used token text tokens cells result word cells' rest

theorem Finishes.take {tokens : List Bytes} {c : UInt8} {next : (Nat → UInt8) → Option (Nat × (Nat → UInt8) × Bytes)}
    (begun : Begun cells used token) (room : used + token.length + rest.length + 4 ≤ size)
    (follows : ∀ cells, Begun cells used (token ++ [c]) → Finishes used (token ++ [c]) rest tokens cells (next cells)) :
    Finishes used token (c :: rest) tokens cells (if size ≤ used + token.length + 2 then some (token.length, cells, c :: rest)
      else (store size cells (used + token.length) c).bind next) := by
  rw [if_neg (by omega), store_inside (by omega)]
  obtain ⟨word, cells', left, done⟩ := follows _ begun.snoc
  refine ⟨word, cells', left, ?_⟩
  constructor
  · exact done.ended
  · exact done.first
  · exact done.stands
  · intro k below
    rw [done.front k below, if_neg (by omega)]
  · have shorter := done.shorter
    rw [List.length_append, List.length_singleton] at shorter
    rw [List.length_cons]
    omega
  · exact done.blank

theorem Finishes.pass {tokens : List Bytes} {c : UInt8} {result : Option (Nat × (Nat → UInt8) × Bytes)}
    (follows : Finishes used token rest tokens cells result) : Finishes used token (c :: rest) tokens cells result := by
  obtain ⟨word, cells', left, done⟩ := follows
  refine ⟨word, cells', left, { done with shorter := ?_ }⟩
  exact Nat.le_trans done.shorter (Nat.le_succ _)

theorem wordLoop_finishes (begun : Begun cells used token) (room : used + token.length + text.length + 3 ≤ size) :
    Finishes used token text (tokensFrom (some token) quote escaped text) cells
      (wordLoop size used quote escaped token.length cells text) := by
  induction text generalizing quote escaped token cells with
  | nil =>
    refine ⟨token, cells, [], ?_⟩
    constructor
    · simp [wordLoop]
    · cases escaped with
      | true => rfl
      | false => rfl
    · exact begun
    · exact fun _ _ => rfl
    · exact Nat.le_refl _
    · simp
  | cons c rest ih =>
    rw [List.length_cons] at room
    -- the character that comes behind the token
    have taken (quote : Option UInt8) : Finishes used token (c :: rest) (tokensFrom (some (token ++ [c])) quote false rest) cells
        (if size ≤ used + token.length + 2 then some (token.length, cells, c :: rest)
          else (store size cells (used + token.length) c).bind fun cells =>
            wordLoop size used quote false (token.length + 1) cells rest) := by
      refine Finishes.take begun (by omega) fun cells begun => ?_
      have next := @ih _ quote false _ begun (by rw [List.length_append, List.length_singleton]; omega)
      rw [List.length_append, List.length_singleton] at next
      exact next
    have passed (quote : Option UInt8) (escaped : Bool) : Finishes used token (c :: rest) (tokensFrom (some token) quote escaped rest)
        cells (wordLoop size used quote escaped token.length cells rest) := (ih begun (by omega)).pass
    cases escaped with
    | true =>
      rw [wordLoop, tokensFrom]
      exact taken quote
    | false =>
      rw [wordLoop, tokensFrom, if_neg (fun both => absurd both.1 (by simp))]
      by_cases closes : quote = some c
      · rw [if_pos closes, if_pos closes]
        exact passed none false
      rw [if_neg closes, if_neg closes]
      by_cases opens : quote = none ∧ (c = 34 ∨ c = 39)
      · rw [if_pos opens, if_pos opens]
        exact passed (some c) false
      rw [if_neg opens, if_neg opens]
      by_cases ends : quote = none ∧ isSpace c = true
      · rw [if_pos ends, if_pos ends]
        refine ⟨token, cells, c :: rest, rfl, ?_, begun, fun _ _ => rfl, Nat.le_refl _, ?_⟩
        · rw [tokensFrom, if_pos ⟨rfl, ends.2⟩]
          rfl
        · rintro d same
          obtain rfl := Option.some.inj same
          exact ends.2
      rw [if_neg ends, if_neg ends]
      by_cases escapes : c = 92 ∧ quote ≠ some 39 ∧ rest ≠ []
      · rw [if_pos escapes, if_pos escapes]
        exact passed quote true
      rw [if_neg escapes, if_neg escapes]
      exact taken quote

end Storage

section Words
variable {slots size used : Nat} {cells : Nat → UInt8} {argv : List Nat} {text : Bytes} {words : List Bytes}

/-- The words that argv points to stand in the storage in front of a cell. -/
def Filed (cells : Nat → UInt8) (used : Nat) (argv : List Nat) (words : List Bytes) : Prop :=
  List.Forall₂ (fun start word => Standing cells start word ∧ start + word.length < used) argv words

theorem dropWhile_shorter (blank : ∀ c ∈ text.head?, isSpace c) :
    text.dropWhile isSpace = [] ∨ (text.dropWhile isSpace).length < text.length := by
  cases text with
  | nil => exact .inl rfl
  | cons c rest =>
    right
    rw [List.dropWhile_cons, if_pos (blank c rfl), List.length_cons]
    exact Nat.lt_succ_of_le (List.dropWhile_suffix _).length_le

theorem Filed.kept {cells' : Nat → UInt8} (filed : Filed cells used argv words) (same : ∀ k < used, cells' k = cells k) {used' : Nat}
    (further : used ≤ used') : Filed cells' used' argv words := by
  refine List.Forall₂.imp ?_ filed
  rintro start word ⟨standing, below⟩
  exact ⟨standing.kept below same, Nat.lt_of_lt_of_le below further⟩

theorem wordsLoop_filed (n : Nat) (filed : Filed cells used argv words) (inside : used ≤ size) (slot : argv.length + n < slots)
    (room : text.dropWhile isSpace = [] ∨ used + (text.dropWhile isSpace).length + 3 ≤ size) :
    ∃ cells' argv' used', wordsLoop slots size n used cells argv text = some (cells', argv') ∧
      Filed cells' used' argv' (words ++ (tokensFrom none none false text).take n) ∧ used' ≤ size := by
  induction n generalizing used cells argv words text with
  | zero =>
    refine ⟨cells, argv, used, ?_, ?_, inside⟩
    · rw [wordsLoop, putArg, if_pos (by exact slot)]
      rfl
    · rw [List.take_zero, List.append_nil]
      exact filed
  | succ n ih =>
    rw [wordsLoop, ← tokensFrom_drop text]
    have skipped : ∀ c ∈ (text.dropWhile isSpace).head?, isSpace c = false := by
      intro c same
      have head := List.head?_dropWhile_not isSpace text
      rw [same] at head
      simpa using head
    generalize text.dropWhile isSpace = text at skipped room
    cases text with
    | nil =>
      refine ⟨cells, argv, used, ?_, ?_, inside⟩
      · rw [if_pos rfl, putArg, if_pos (by omega)]
        rfl
      · simpa [tokensFrom] using filed
    | cons c rest =>
      have room : used + (c :: rest).length + 3 ≤ size := room.resolve_left (List.cons_ne_nil _ _)
      have begun : Begun cells used [] := fun i inside => absurd inside (Nat.not_lt_zero i)
      obtain ⟨word, cells₁, left, done⟩ := @wordLoop_finishes _ _ _ _ _ (c :: rest) _ begun (by simpa using room)
      have shorter := done.shorter
      have ended := done.ended
      rw [List.length_nil, Nat.zero_add] at shorter
      rw [List.length_nil] at ended
      rw [if_neg (List.cons_ne_nil _ _), tokensFrom_fresh (skipped c rfl), ended, done.first, Option.bind_some]
      dsimp only
      rw [store_inside (by omega), Option.bind_some, putArg, if_pos (by omega), Option.bind_some]
      have apart : ∀ k < used, (if k = used + word.length then 0 else cells₁ k) = cells k := by
        intro k below
        rw [if_neg (by omega), done.front k below]
      have standing : Standing (fun i => if i = used + word.length then 0 else cells₁ i) used word := by
        constructor
        · intro k inside
          dsimp only
          rw [if_neg (by omega), done.stands k inside]
        · exact if_pos rfl
      have filed' := List.rel_append (filed.kept apart (Nat.le_trans (Nat.le_add_right used word.length) (Nat.le_succ _)))
        (.cons ⟨standing, Nat.lt_succ_self _⟩ .nil)
      obtain ⟨cells', argv', used', ran, whole, below⟩ := ih filed' (by omega)
        (by rw [List.length_append, List.length_singleton]; omega) (by
          rcases dropWhile_shorter done.blank with nothing | less
          · exact .inl nothing
          · exact .inr (by omega))
      refine ⟨cells', argv', used', ran, ?_, below⟩
      rw [List.append_assoc] at whole
      rw [List.take_succ_cons]
      exact whole

theorem tokensFrom_plain {token : Option Bytes} {quote : Option UInt8} {escaped : Bool} (begun : 0 ∉ token.getD []) (plain : 0 ∉ text) :
    ∀ word ∈ tokensFrom token quote escaped text, 0 ∉ word := by
  induction text generalizing token quote escaped with
  | nil =>
    intro word member
    rw [tokensFrom] at member
    obtain rfl := Option.mem_toList.mp member
    exact begun
  | cons c rest ih =>
    obtain ⟨other, plain⟩ := not_or.mp (mt List.mem_cons.mpr plain)
    have snoc : 0 ∉ (some (token.getD [] ++ [c])).getD [] := by
      rw [Option.getD_some, List.mem_append, List.mem_singleton]
      exact not_or.mpr ⟨begun, other⟩
    cases escaped with
    | true =>
      rw [tokensFrom]
      exact ih snoc plain
    | false =>
      rw [tokensFrom]
      split
      · exact ih List.not_mem_nil plain
      split
      · exact ih begun plain
      split
      · exact ih begun plain
      split
      · intro word member
        rcases List.mem_cons.mp member with rfl | later
        · exact begun
        · exact ih List.not_mem_nil plain word later
      split
      · exact ih begun plain
      · exact ih snoc plain

theorem cstr_plain (plain : 0 ∉ text) : cstr text = text := by
  apply List.takeWhile_eq_self_iff.mpr
  intro c member
  rw [bne_iff_ne]
  rintro rfl
  exact plain member

theorem argvStrings_filed (filed : Filed cells used argv words) (inside : used ≤ size) (plain : ∀ word ∈ words, 0 ∉ word) :
    argvStrings size (cells, argv) = some words := by
  induction filed with
  | nil => rfl
  | @cons start word argv words first filed ih =>
    have head := first.1.string (plain word List.mem_cons_self) (size - start) (by omega)
    have tail := ih fun w member => plain w (List.mem_cons_of_mem _ member)
    unfold argvStrings at tail ⊢
    rw [List.mapM_cons, head, tail]
    rfl

/-- With room for the line, its terminator and two bytes more, shell_tokenize stores only
inside its buffers and cuts the line into its tokens. -/
theorem tokenizeInto_tokens (maxArgs : Nat) (slot : maxArgs < slots) (room : (cstr text).length + 3 ≤ size) :
    (tokenizeInto text maxArgs slots size cells).bind (argvStrings size) =
      some ((tokensFrom none none false (cstr text)).take maxArgs) := by
  have shorter : ((cstr text).dropWhile isSpace).length ≤ (cstr text).length := (List.dropWhile_suffix _).length_le
  have filed : Filed cells 0 [] [] := .nil
  have space : (cstr text).dropWhile isSpace = [] ∨ 0 + ((cstr text).dropWhile isSpace).length + 3 ≤ size := .inr (by omega)
  obtain ⟨cells', argv, used, ran, whole, inside⟩ := wordsLoop_filed maxArgs filed (Nat.zero_le size) (by simpa using slot) space
  rw [List.nil_append] at whole
  unfold tokenizeInto
  rw [ran, Option.bind_some]
  apply argvStrings_filed whole inside
  intro word member
  refine tokensFrom_plain List.not_mem_nil ?_ word (List.mem_of_mem_take member)
  intro zero
  exact absurd (List.mem_takeWhile_imp zero) (by decide)

/-- The buffers of run_pipeline have this room: what is cut is what the model of
run_pipeline cuts. -/
theorem tokenizeInto_shellTokenize (plain : 0 ∉ text) (fits : text.length < shellLineMax) :
    (tokenizeInto text (shellArgsMax - 1) shellArgsMax (shellLineMax * 2) cells).bind (argvStrings (shellLineMax * 2)) =
      some (shellTokenize text) := by
  have room : (cstr text).length + 3 ≤ shellLineMax * 2 := by
    rw [cstr_plain plain]
    exact Nat.le_trans (Nat.add_le_add_right (Nat.le_of_lt fits) 3) (by decide)
  rw [tokenizeInto_tokens (shellArgsMax - 1) (by decide) room, cstr_plain plain]
  rfl

theorem shellExpand_room (sh : Shell) (pid : Int) (segment : Bytes) : (shellExpand sh pid segment).length + 3 ≤ shellLineMax * 2 := by
  have cut : (shellExpand sh pid segment).length ≤ shellLineMax - 1 := List.length_take_le _ _
  exact Nat.le_trans (Nat.add_le_add_right cut 3) (by decide)

end Words

/-- A word in quotes: single ones, or double ones with a backslash in front of every character. -/
inductive Quoted (word : Bytes) : Bytes → Prop where
  | single : Quoted word (39 :: word.flatMap (fun c => if c = 39 then [39, 92, 39, 39] else [c]) ++ [39])
  | double : Quoted word (34 :: word.flatMap (fun c => [92, c]) ++ [34])

/-- Quoted words with white space between them. -/
inductive Line : List Bytes → Bytes → Prop where
  | empty : Line [] []
  | last {word text : Bytes} : Quoted word text → Line [word] text
  | more {word text gap rest : Bytes} {words : List Bytes} : Quoted word text → Blank gap → gap ≠ [] → words ≠ [] →
      Line words rest → Line (word :: words) (text ++ gap ++ rest)

section RoundTrip
variable {word text gap rest line : Bytes} {words : List Bytes}

theorem singles_read (word token rest : Bytes) :
    tokensFrom (some token) (some 39) false (word.flatMap (fun c => if c = 39 then [39, 92, 39, 39] else [c]) ++ [39] ++ rest) =
      tokensFrom (some (token ++ word)) none false rest := by
  induction word generalizing token with
  | nil => simp [tokensFrom]
  | cons c word ih =>
    rw [List.flatMap_cons]
    by_cases apostrophe : c = 39
    · subst apostrophe
      rw [if_pos rfl]
      have next := ih (token ++ [39])
      rw [List.append_assoc] at next
      simpa [tokensFrom, isSpace] using next
    · rw [if_neg apostrophe]
      have next := ih (token ++ [c])
      rw [List.append_assoc] at next
      simpa [tokensFrom, Ne.symm apostrophe] using next

theorem doubles_read (word token rest : Bytes) :
    tokensFrom (some token) (some 34) false (word.flatMap (fun c => [92, c]) ++ [34] ++ rest) =
      tokensFrom (some (token ++ word)) none false rest := by
  induction word generalizing token with
  | nil => simp [tokensFrom]
  | cons c word ih =>
    have next := ih (token ++ [c])
    rw [List.append_assoc] at next
    simpa [tokensFrom] using next

theorem Quoted.read (quoted : Quoted word text) (rest : Bytes) :
    tokensFrom none none false (text ++ rest) = tokensFrom (some word) none false rest := by
  cases quoted with
  | single =>
    have inner := singles_read word [] rest
    rw [List.nil_append] at inner
    simpa [tokensFrom, isSpace] using inner
  | double =>
    have inner := doubles_read word [] rest
    rw [List.nil_append] at inner
    simpa [tokensFrom, isSpace] using inner

theorem Quoted.plain (quoted : Quoted word text) (inner : 0 ∉ word) : 0 ∉ text := by
  cases quoted with
  | single =>
    simp only [List.cons_append, List.mem_cons, List.mem_append, List.mem_flatMap]
    rintro (zero | ⟨c, member, zero⟩ | zero)
    · exact absurd zero (by decide)
    · split at zero
      · simp at zero
      · simp only [List.mem_singleton] at zero
        exact inner (zero ▸ member)
    · simp at zero
  | double =>
    simp only [List.cons_append, List.mem_cons, List.mem_append, List.mem_flatMap]
    rintro (zero | ⟨c, member, zero⟩ | zero)
    · exact absurd zero (by decide)
    · simp only [List.not_mem_nil, or_false] at zero
      exact inner (zero.resolve_left (by decide) ▸ member)
    · simp at zero

theorem gap_read (blank : Blank gap) (some_ : gap ≠ []) (word rest : Bytes) :
    tokensFrom (some word) none false (gap ++ rest) = word :: tokensFrom none none false rest := by
  cases gap with
  | nil => exact absurd rfl some_
  | cons c gap =>
    obtain ⟨here, later⟩ := List.forall_mem_cons.mp blank
    obtain ⟨double, single, -⟩ := isSpace_plain here
    rw [List.cons_append, tokensFrom]
    simp [double, single, here, tokensFrom_blank later]

theorem Line.read (lined : Line words line) : tokensFrom none none false line = words := by
  induction lined with
  | empty => rfl
  | last quoted =>
    have read := quoted.read []
    rw [List.append_nil] at read
    rw [read]
    rfl
  | more quoted blank some_ _ _ ih => rw [List.append_assoc, quoted.read, gap_read blank some_, ih]

theorem Line.plain (lined : Line words line) (inner : ∀ word ∈ words, 0 ∉ word) : 0 ∉ line := by
  induction lined with
  | empty => exact List.not_mem_nil
  | last quoted => exact quoted.plain (inner _ List.mem_cons_self)
  | more quoted blank _ _ _ ih =>
    simp only [List.mem_append, not_or]
    refine ⟨⟨quoted.plain (inner _ List.mem_cons_self), ?_⟩, ih fun w member => inner w (List.mem_cons_of_mem _ member)⟩
    exact fun zero => absurd (blank 0 zero) (by decide)

/-- Quoted words come back as they were, with no store outside of the buffers; and
run_pipeline has the room that this takes. -/
theorem quoted_words_read_back (words : List Bytes) (line : Bytes) (maxArgs slots size : Nat) (cells : Nat → UInt8)
    (lined : Line words line) (plain : ∀ word ∈ words, 0 ∉ word) (few : words.length ≤ maxArgs) (slot : maxArgs < slots)
    (room : line.length + 3 ≤ size) :
    (tokenizeInto line maxArgs slots size cells).bind (argvStrings size) = some words ∧
      ∀ sh pid segment, (shellExpand sh pid segment).length + 3 ≤ shellLineMax * 2 := by
  refine ⟨?_, shellExpand_room⟩
  have whole := cstr_plain (lined.plain plain)
  rw [tokenizeInto_tokens maxArgs slot (by rw [whole]; exact room), whole, lined.read, List.take_of_length_le few]

theorem quoted_words_read_back_two :
    (tokenizeInto [39, 97, 32, 39, 32, 34, 34] 2 3 10 fun _ => 0).bind (argvStrings 10) = some [[97, 32], []] ∧
      ∀ sh pid segment, (shellExpand sh pid segment).length + 3 ≤ shellLineMax * 2 :=
  quoted_words_read_back [[97, 32], []] [39, 97, 32, 39, 32, 34, 34] 2 3 10 (fun _ => 0)
    (.more .single (List.forall_mem_singleton.mpr rfl) (List.cons_ne_nil _ _)
      (List.cons_ne_nil _ _) (.last .double)) (by decide) (by decide)
    (by decide) (by decide)

end RoundTrip

end Qito.Shells
