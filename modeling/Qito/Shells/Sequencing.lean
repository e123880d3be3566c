import Qito.Shells.Blanks

/-! Statements and stages run as they are written as long as no line that is run in
turn changes an entry that is still to be read. Two lines that are put together
with a semicolon then do what they do one after the other. -/
namespace Qito.Shells
open Rows

variable {σ : Type}

/-- The string in a row from some column on. -/
def unread (mem : Row → Nat → UInt8) (row : Row) (col : Nat) : Bytes := scan (mem row) (rowSize row - col) col

def noBuffers : Row → Nat → UInt8 := fun _ _ => 0

/-- The world a computation leads to. -/
def worldAfter (f : State σ → State σ × Int) (w : World σ) : World σ := (f ⟨w, noBuffers⟩).1.world

/-- A computation leaves a text that stands in a row as it is. -/
def Keeps (f : State σ → State σ × Int) (w : World σ) (row : Row) (col : Nat) (text : Bytes) : Prop :=
  ∀ mem, unread mem row col = text → unread (f ⟨w, mem⟩).1.mem row col = text

section Settling
variable {f : State σ → State σ × Int} {w : World σ}

theorem Settled.world (settled : Settled untouched f) (mem : Row → Nat → UInt8) :
    (f ⟨w, mem⟩).1.world = worldAfter f w := by
  obtain ⟨w', status, after, -, -, run⟩ := settled w
  have here := run mem
  have there := run noBuffers
  rw [apply_untouched] at here there
  unfold worldAfter
  rw [here, there]

theorem Settled.agree (settled : Settled untouched f) (mem mem' : Row → Nat → UInt8) : Agree (f ⟨w, mem⟩) (f ⟨w, mem'⟩) := by
  obtain ⟨w', status, after, -, -, run⟩ := settled w
  have here := run mem
  have there := run mem'
  rw [apply_untouched] at here there
  rw [here, there]
  exact ⟨rfl, rfl⟩

theorem Settled.keeps (settled : Settled untouched f) {row : Row} {col : Nat} {text : Bytes} (sample : Row → Nat → UInt8)
    (kept : unread (f ⟨w, sample⟩).1.mem row col = text) : Keeps f w row col text := by
  intro mem here
  obtain ⟨w', status, after, good, -, run⟩ := settled w
  have shown := run sample
  have ran := run mem
  rw [apply_untouched] at shown ran
  rw [shown] at kept
  rw [ran]
  unfold unread apply at *
  have sized := good.sized row
  by_cases inside : col < (after row).length
  · rw [scan_cover (good.ended row) inside (by omega)] at kept ⊢
    exact kept
  · rw [scan_outside (Nat.le_of_not_lt inside)]
    exact here

end Settling

section Texts
variable (K : Kernel σ) (commands : List (ShellCommand σ)) (exec : Exec σ)

/-- A statement that is run as it is written, whatever stands in the buffers. -/
def asWritten (text : Bytes) : State σ → State σ × Int := runText K commands exec text fun col _ => text.drop col

def inOrder : List Bytes → Int → State σ → State σ × Int
  | [], status, state => (state, status)
  | text :: more, _, state =>
    let ran := asWritten K commands exec text state
    inOrder more ran.2 ran.1

/-- The texts stand in the entries from base on, and no statement changes a text that is
still to be read: the right side of its own chain, or a later statement. -/
def Undisturbed : Nat → List Bytes → World σ → Prop
  | _, [], _ => True
  | base, text :: more, w =>
    (∀ useAnd split, chainAt text = some (useAnd, split) →
      Keeps (fun state => exec state (text.take split)) w (.entry .statements base) (split + 2) (text.drop (split + 2))) ∧
    (∀ i later, more[i]? = some later →
      Keeps (asWritten K commands exec text) w (.entry .statements (base + 1 + i)) 0 later) ∧
    Undisturbed (base + 1) more (worldAfter (asWritten K commands exec text) w)

end Texts

section Loop
variable {K : Kernel σ} {commands : List (ShellCommand σ)} {exec : Exec σ} {text : Bytes} {w : World σ}
  {mem : Row → Nat → UInt8} {base : Nat}

theorem asWritten_settled (K : Kernel σ) (commands : List (ShellCommand σ)) (lines : LinesSettle exec) (text : Bytes) :
    Settled untouched (asWritten K commands exec text) := by
  apply runText_settled K commands lines proper_untouched
  intro useAnd split middle w' chain good grows
  exact ⟨text.drop (split + 2), fun _ => rfl⟩

theorem inOrder_settled (K : Kernel σ) (commands : List (ShellCommand σ)) (lines : LinesSettle exec) (texts : List Bytes)
    (status : Int) : Settled untouched (inOrder K commands exec texts status) := by
  induction texts generalizing status with
  | nil => exact fun w => ⟨w, status, untouched, proper_untouched, fun _ => Nat.le_refl _, fun _ => rfl⟩
  | cons text more ih =>
    intro w
    obtain ⟨w', status', middle, good, -, run⟩ := asWritten_settled K commands lines text w
    obtain ⟨w'', status'', after, fine, grows, rest⟩ := (ih status').behind good w'
    refine ⟨w'', status'', after, fine, fun r => Nat.zero_le _, fun mem => ?_⟩
    rw [inOrder, run mem]
    exact rest mem

theorem unread_drop {row : Row} {col : Nat} (read : unread mem row 0 = text) (inside : col ≤ text.length) :
    unread mem row col = text.drop col := by
  have later := scan_drop read inside
  rwa [Nat.sub_zero, Nat.zero_add] at later

theorem runStatement_written (read : unread mem (.entry .statements base) 0 = text)
    (chained : ∀ useAnd split, chainAt text = some (useAnd, split) →
      Keeps (fun state => exec state (text.take split)) w (.entry .statements base) (split + 2) (text.drop (split + 2))) :
    runStatement K commands exec base ⟨w, mem⟩ = asWritten K commands exec text ⟨w, mem⟩ := by
  have here : entryText .statements base 0 ⟨w, mem⟩ = text := read
  unfold runStatement asWritten runText
  rw [here]
  cases chain : chainAt text with
  | none => rfl
  | some found =>
    obtain ⟨useAnd, split⟩ := found
    have kept := chained useAnd split chain mem (unread_drop read (chainAt_bound chain))
    have right (s : World σ → World σ) : entryText .statements base (split + 2)
        ((exec ⟨w, mem⟩ (text.take split)).1.map s) = text.drop (split + 2) := kept
    simp only [right]

theorem runStatements_written (lines : LinesSettle exec) (texts : List Bytes) (status : Int)
    (read : ∀ i text, texts[i]? = some text → unread mem (.entry .statements (base + i)) 0 = text)
    (quiet : Undisturbed K commands exec base texts w) :
    runStatements K commands exec (List.range' base texts.length) status ⟨w, mem⟩ =
      inOrder K commands exec texts status ⟨w, mem⟩ := by
  induction texts generalizing base w mem status with
  | nil => rfl
  | cons text more ih =>
    obtain ⟨chained, later, rest⟩ := quiet
    have first : unread mem (.entry .statements base) 0 = text := read 0 text rfl
    rw [List.length_cons, List.range'_succ, runStatements, inOrder, runStatement_written first chained]
    have world := (asWritten_settled K commands lines text).world (w := w) mem
    rw [← world] at rest
    apply ih _ _ rest
    intro i next there
    apply later i next there mem
    have place : base + 1 + i = base + (i + 1) := by omega
    rw [place]
    exact read (i + 1) next there

theorem entries_kept {f : State σ → State σ × Int} (settled : Settled untouched f) {texts : List Bytes} (mem : Row → Nat → UInt8)
    (shown : ((List.range texts.length).all fun i =>
      unread (f ⟨w, mem⟩).1.mem (.entry .statements (base + i)) 0 == texts.getD i []) = true) :
    ∀ i text, texts[i]? = some text → Keeps f w (.entry .statements (base + i)) 0 text := by
  simp only [List.all_eq_true, List.mem_range, beq_iff_eq] at shown
  intro i text there
  obtain ⟨inside, here⟩ := List.getElem?_eq_some_iff.mp there
  apply settled.keeps mem
  rw [shown i inside, List.getD_eq_getElem _ _ inside, here]

/-- Undisturbed in one run with some memory. -/
def staysUndisturbed (K : Kernel σ) (commands : List (ShellCommand σ)) (exec : Exec σ) : Nat → List Bytes → State σ → Bool
  | _, [], _ => true
  | base, text :: more, state =>
    ((chainAt text).all fun found =>
      unread (exec state (text.take found.2)).1.mem (.entry .statements base) (found.2 + 2) == text.drop (found.2 + 2)) &&
    ((List.range more.length).all fun i =>
      unread (asWritten K commands exec text state).1.mem (.entry .statements (base + 1 + i)) 0 == more.getD i []) &&
    staysUndisturbed K commands exec (base + 1) more (asWritten K commands exec text state).1

theorem undisturbed_of_run (lines : LinesSettle exec) {texts : List Bytes} (mem : Row → Nat → UInt8)
    (stays : staysUndisturbed K commands exec base texts ⟨w, mem⟩ = true) : Undisturbed K commands exec base texts w := by
  induction texts generalizing base w mem with
  | nil => trivial
  | cons text more ih =>
    simp only [staysUndisturbed, Bool.and_eq_true] at stays
    obtain ⟨⟨chained, later⟩, rest⟩ := stays
    have settled := asWritten_settled K commands lines text
    refine ⟨?_, ?_, ?_⟩
    · intro useAnd split chain
      rw [chain] at chained
      exact (lines (text.take split)).keeps mem (beq_iff_eq.mp chained)
    · exact entries_kept settled mem later
    · rw [← settled.world mem]
      exact ih _ rest

theorem runStatements_append (front back : List Nat) (status : Int) (state : State σ) :
    runStatements K commands exec (front ++ back) status state =
      runStatements K commands exec back (runStatements K commands exec front status state).2
        (runStatements K commands exec front status state).1 := by
  induction front generalizing status state with
  | nil => rfl
  | cons s more ih => exact ih _ _

theorem inOrder_agree (lines : LinesSettle exec) (texts : List Bytes) {one other : State σ × Int}
    (agree : Agree one other) :
    Agree (inOrder K commands exec texts one.2 one.1) (inOrder K commands exec texts other.2 other.1) := by
  obtain ⟨⟨w, mem⟩, status⟩ := one
  obtain ⟨⟨w', mem'⟩, status'⟩ := other
  obtain ⟨rfl, rfl⟩ := agree
  exact (inOrder_settled K commands lines texts status).agree mem mem'

end Loop

section Lines
variable {K : Kernel σ} {commands : List (ShellCommand σ)} {room : Nat} {front text line : Bytes} {w : World σ}
  {mem : Row → Nat → UInt8}

theorem dropWhile_blank (blank : Blank front) : (front ++ text).dropWhile isSpace = text.dropWhile isSpace :=
  List.dropWhile_append_of_pos blank

theorem shellExecuteLine_blank (blank : Blank front) (state : State σ) :
    shellExecuteLine K commands room state (front ++ text) = shellExecuteLine K commands room state text := by
  cases room with
  | zero => simp only [shellExecuteLine, dropWhile_blank blank]
  | succ room => simp only [shellExecuteLine, dropWhile_blank blank]

theorem blank_takeWhile (line : Bytes) : Blank (line.takeWhile isSpace) := fun _ member => List.mem_takeWhile_imp member

theorem parts_start (separator : UInt8) (solid : isSpace separator = false) (line : Bytes) :
    parts separator line = (parts separator (line.dropWhile isSpace)).modifyHead (line.takeWhile isSpace ++ ·) := by
  rw [← parts_blank (blank_takeWhile line) solid, List.takeWhile_append_dropWhile]

theorem quoteAfter_blank (blank : Blank front) : quoteAfter none (front ++ text) = quoteAfter none text := by
  induction front with
  | nil => rfl
  | cons c rest ih =>
    obtain ⟨here, later⟩ := List.forall_mem_cons.mp blank
    obtain ⟨double, single, -⟩ := isSpace_plain here
    rw [List.cons_append, quoteAfter, if_neg (by simp [double, single]), ih later]

theorem asWritten_blank (commands : List (ShellCommand σ)) (room : Nat) (mem : Row → Nat → UInt8) (blank : Blank front)
    (clean : 0 ∉ front ++ text) (short : (front ++ text).length < shellLineMax)
    (fits : chainAt text = none → Fits K w (front ++ (parts 124 text).headD [])) :
    Agree (asWritten K commands (shellExecuteLine K commands room) (front ++ text) ⟨w, mem⟩)
      (asWritten K commands (shellExecuteLine K commands room) text ⟨w, mem⟩) := by
  unfold asWritten runText
  rw [chainAt_blank blank]
  cases chain : chainAt text with
  | none =>
    obtain ⟨world, status⟩ := runPipeline_blank (shellExecuteLine_settled K commands room) blank clean short (fits chain) mem
    simp only [Option.map_none, Agree, State.map]
    rw [world, status]
    exact ⟨rfl, rfl⟩
  | some found =>
    simp only [Option.map_some, take_shift, shellExecuteLine_blank blank, drop_shift]
    exact ⟨rfl, rfl⟩

theorem shellExecuteLine_few (solid : skipped (line.dropWhile isSpace) = false) (short : line.length < shellLineMax)
    (few : (parts 59 (line.dropWhile isSpace)).length ≤ shellPipeMax) :
    shellExecuteLine K commands (room + 1) ⟨w, mem⟩ line =
      runStatements K commands (shellExecuteLine K commands room) (List.range (parts 59 (line.dropWhile isSpace)).length)
        w.sh.lastStatus ⟨w, apply (fillTable .statements (parts 59 (line.dropWhile isSpace))) mem⟩ := by
  have length := (List.dropWhile_sublist isSpace (l := line)).length_le
  have all : splitOn 59 (line.dropWhile isSpace) = parts 59 (line.dropWhile isSpace) := by
    rw [splitOn_short (Nat.lt_of_le_of_lt length short), List.take_of_length_le few]
  rw [shellExecuteLine, if_neg (by simp [solid]), all]

theorem unread_fill (clean : 0 ∉ line) (short : line.length < shellLineMax) {entries : List Bytes} {base i : Nat}
    (here : (parts 59 line)[i]? = some text) (there : entries[base + i]? = some text) :
    unread (apply (fillTable .statements entries) mem) (.entry .statements (base + i)) 0 = text := by
  have member := List.mem_of_getElem? here
  exact scan_fill there (parts_clean _ clean text member) (parts_short _ short text member) mem

theorem apply_prefix (front back : List Bytes) (mem : Row → Nat → UInt8) :
    apply (fillTable .statements front) (apply (fillTable .statements (front ++ back)) mem) =
      apply (fillTable .statements (front ++ back)) mem := by
  funext r
  cases r with
  | scratch => rfl
  | entry t i =>
    unfold apply fillTable
    simp only
    split
    · by_cases inside : i < front.length
      · rw [List.getElem?_append_left inside, List.getElem?_eq_getElem inside, Option.elim_some, ← cover_cover,
          List.drop_length, List.append_nil]
      · rw [List.getElem?_eq_none (Nat.le_of_not_lt inside)]
        rfl
    · rfl

end Lines

section Together

/-- The line 'a; b'. -/
def joined (a b : Bytes) : Bytes := a ++ 59 :: 32 :: b

/-- Both lines have commands and a closed quote stands before the semicolon, there are entries for all
statements, and none of these is changed before it has been read. -/
structure Separable (K : Kernel σ) (commands : List (ShellCommand σ)) (room : Nat) (w : World σ) (a b : Bytes) : Prop where
  cleanFirst : 0 ∉ a
  cleanSecond : 0 ∉ b
  short : (joined a b).length < shellLineMax
  first : skipped (a.dropWhile isSpace) = false
  second : skipped (b.dropWhile isSpace) = false
  closed : quoteAfter none a = none
  few : (parts 59 a).length + (parts 59 b).length ≤ shellPipeMax
  kept : ∀ i text, (parts 59 (32 :: b))[i]? = some text →
    Keeps (fun state => shellExecuteLine K commands (room + 1) state a) w (.entry .statements ((parts 59 a).length + i)) 0 text
  behind : Undisturbed K commands (shellExecuteLine K commands room) (parts 59 a).length (parts 59 (32 :: b))
    (worldAfter (fun state => shellExecuteLine K commands (room + 1) state a) w)
  alone : Undisturbed K commands (shellExecuteLine K commands room) 0 (parts 59 (b.dropWhile isSpace))
    (worldAfter (fun state => shellExecuteLine K commands (room + 1) state a) w)
  fits : chainAt ((parts 59 (32 :: b)).headD []) = none →
    Fits K (worldAfter (fun state => shellExecuteLine K commands (room + 1) state a) w)
      ((parts 124 ((parts 59 (32 :: b)).headD [])).headD [])

variable {K : Kernel σ} {commands : List (ShellCommand σ)} {room : Nat} {w : World σ} {mem : Row → Nat → UInt8} {a b : Bytes}

theorem not_skipped {line : Bytes} (solid : skipped line = false) : line ≠ [] := by
  rintro rfl
  cases solid

theorem parts_start_length (line : Bytes) : (parts 59 (line.dropWhile isSpace)).length = (parts 59 line).length := by
  rw [parts_start 59 (by decide) line, List.length_modifyHead]

theorem joined_start (first : skipped (a.dropWhile isSpace) = false) :
    (joined a b).dropWhile isSpace = joined (a.dropWhile isSpace) b := by
  unfold joined
  rw [List.dropWhile_append, if_neg]
  rw [List.isEmpty_iff]
  exact not_skipped first

theorem joined_parts (closed : quoteAfter none a = none) :
    parts 59 (joined (a.dropWhile isSpace) b) = parts 59 (a.dropWhile isSpace) ++ parts 59 (32 :: b) := by
  rw [← List.takeWhile_append_dropWhile (p := isSpace) (l := a), quoteAfter_blank (blank_takeWhile a)] at closed
  exact partsFrom_split closed (by decide)

theorem joined_first (ok : Separable K commands room w a b) :
    shellExecuteLine K commands (room + 1) ⟨w, mem⟩ (joined a b) =
      runStatements K commands (shellExecuteLine K commands room)
        (List.range' (parts 59 a).length (parts 59 (32 :: b)).length)
        (shellExecuteLine K commands (room + 1) ⟨w, apply (fillTable .statements
          (parts 59 (a.dropWhile isSpace) ++ parts 59 (32 :: b))) mem⟩ a).2
        (shellExecuteLine K commands (room + 1) ⟨w, apply (fillTable .statements
          (parts 59 (a.dropWhile isSpace) ++ parts 59 (32 :: b))) mem⟩ a).1 := by
  have start := joined_start (b := b) ok.first
  have split := joined_parts (b := b) ok.closed
  have lengthB : (parts 59 (32 :: b)).length = (parts 59 b).length := by
    rw [← parts_start_length (32 :: b), ← parts_start_length b]
    rfl
  have few := ok.few
  have fewFirst : (parts 59 (a.dropWhile isSpace)).length ≤ shellPipeMax := by
    rw [parts_start_length]
    omega
  have shortFirst : a.length < shellLineMax := by
    have short := ok.short
    rw [joined, List.length_append] at short
    omega
  have solid : skipped ((joined a b).dropWhile isSpace) = false := by
    have first := ok.first
    rw [start]
    unfold joined
    cases front : a.dropWhile isSpace with
    | nil =>
      rw [front] at first
      cases first
    | cons c rest =>
      rw [front] at first
      exact first
  rw [shellExecuteLine_few solid ok.short, shellExecuteLine_few ok.first shortFirst fewFirst]
  · rw [start, split, apply_prefix, List.length_append, parts_start_length, List.range_eq_range', List.range_eq_range',
      ← List.range'_append_1, Nat.zero_add, runStatements_append]
  · rw [start, split, List.length_append, parts_start_length, lengthB]
    exact few

theorem statements_behind (b : Bytes) : ∃ front text more, Blank front ∧ parts 59 (b.dropWhile isSpace) = text :: more ∧
    parts 59 (32 :: b) = (front ++ text) :: more := by
  have start : (32 :: b).dropWhile isSpace = b.dropWhile isSpace := rfl
  have whole := parts_start 59 (by decide) (32 :: b)
  rw [start] at whole
  cases texts : parts 59 (b.dropWhile isSpace) with
  | nil => exact absurd texts partsFrom_ne_nil
  | cons text more =>
    rw [texts, List.modifyHead_cons] at whole
    exact ⟨_, text, more, blank_takeWhile (32 :: b), rfl, whole⟩

theorem parts_head_blank {front text : Bytes} (blank : Blank front) :
    (parts 124 (front ++ text)).headD [] = front ++ (parts 124 text).headD [] := by
  rw [parts_blank blank (by decide)]
  cases stages : parts 124 text with
  | nil => exact absurd stages partsFrom_ne_nil
  | cons first rest => rfl

theorem second_agrees (ok : Separable K commands room w a b) (one other : State σ) (status status' : Int)
    (oneWorld : one.world = worldAfter (fun state => shellExecuteLine K commands (room + 1) state a) w)
    (otherWorld : other.world = worldAfter (fun state => shellExecuteLine K commands (room + 1) state a) w) :
    Agree (inOrder K commands (shellExecuteLine K commands room) (parts 59 (32 :: b)) status one)
      (inOrder K commands (shellExecuteLine K commands room) (parts 59 (b.dropWhile isSpace)) status' other) := by
  obtain ⟨front, text, more, blank, alone, behind⟩ := statements_behind b
  have clean : 0 ∉ 32 :: b := by
    simpa using ok.cleanSecond
  have short : (32 :: b).length < shellLineMax := by
    have short := ok.short
    rw [joined, List.length_append, List.length_cons] at short
    omega
  have member : front ++ text ∈ parts 59 (32 :: b) := by
    rw [behind]
    exact List.mem_cons_self
  have fits := ok.fits
  rw [behind, List.headD_cons, chainAt_blank blank, Option.map_eq_none_iff, parts_head_blank blank, ← oneWorld] at fits
  have lines := shellExecuteLine_settled K commands room
  obtain ⟨world, mem⟩ := one
  obtain ⟨world', mem'⟩ := other
  cases oneWorld.trans otherWorld.symm
  rw [behind, alone, inOrder, inOrder]
  apply inOrder_agree lines
  obtain ⟨sameWorld, sameStatus⟩ := asWritten_blank commands room mem blank
    (parts_clean _ clean _ member) (parts_short _ short _ member) fits
  obtain ⟨againWorld, againStatus⟩ := (asWritten_settled K commands lines text).agree (w := world) mem mem'
  exact ⟨sameWorld.trans againWorld, sameStatus.trans againStatus⟩

theorem joined_agrees (ok : Separable K commands room w a b) (mem : Row → Nat → UInt8) :
    Agree (shellExecuteLine K commands (room + 1) ⟨w, mem⟩ (joined a b))
      (shellExecuteLine K commands (room + 1) (shellExecuteLine K commands (room + 1) ⟨w, mem⟩ a).1 b) := by
  have lines := shellExecuteLine_settled K commands room
  have settled := shellExecuteLine_settled K commands (room + 1) a
  have shortB : (32 :: b).length < shellLineMax := by
    have short := ok.short
    rw [joined, List.length_append, List.length_cons] at short
    omega
  have cleanB : 0 ∉ 32 :: b := by
    simpa using ok.cleanSecond
  have shorter : (b.dropWhile isSpace).length < shellLineMax := by
    have length := (List.dropWhile_sublist isSpace (l := b)).length_le
    rw [List.length_cons] at shortB
    omega
  have few : (parts 59 (b.dropWhile isSpace)).length ≤ shellPipeMax := by
    have few := ok.few
    rw [parts_start_length]
    omega
  -- the entries of b after a has run as a part of the whole line
  have entries : ∀ i text, (parts 59 (32 :: b))[i]? = some text →
      unread (shellExecuteLine K commands (room + 1) ⟨w, apply (fillTable .statements
        (parts 59 (a.dropWhile isSpace) ++ parts 59 (32 :: b))) mem⟩ a).1.mem
        (.entry .statements ((parts 59 a).length + i)) 0 = text := by
    intro i text here
    apply ok.kept i text here
    apply unread_fill cleanB shortB here
    rw [← parts_start_length a, List.getElem?_append_right (Nat.le_add_right _ _), Nat.add_sub_cancel_left]
    exact here
  rw [joined_first ok]
  have world := settled.world (w := w) (apply (fillTable .statements
    (parts 59 (a.dropWhile isSpace) ++ parts 59 (32 :: b))) mem)
  have world' := settled.world (w := w) mem
  generalize shellExecuteLine K commands (room + 1) ⟨w, apply (fillTable .statements
    (parts 59 (a.dropWhile isSpace) ++ parts 59 (32 :: b))) mem⟩ a = ran at entries world ⊢
  generalize shellExecuteLine K commands (room + 1) ⟨w, mem⟩ a = apart at world' ⊢
  obtain ⟨⟨now, memory⟩, status⟩ := ran
  obtain ⟨⟨now', memory'⟩, status'⟩ := apart
  have quiet := ok.behind
  have alone := ok.alone
  rw [← world] at quiet
  rw [← world'] at alone
  rw [shellExecuteLine_few ok.second (Nat.lt_of_succ_lt shortB) few, runStatements_written lines _ _ entries quiet,
    List.range_eq_range', runStatements_written lines _ _ _ alone]
  · exact second_agrees ok _ _ _ _ world world'
  · intro i text here
    apply unread_fill _ shorter here
    · rw [Nat.zero_add]
      exact here
    · exact fun zero => ok.cleanSecond ((List.dropWhile_sublist isSpace).subset zero)

end Together

section Pipelines
variable (K : Kernel σ) (commands : List (ShellCommand σ)) (exec : Exec σ)

/-- The stages of a pipeline as they are written. -/
def runWritten : List Bytes → Flow σ → Flow σ
  | [], flow => flow
  | text :: more, flow =>
    if flow.stopped then flow else runWritten more (runStage K commands exec text (!more.isEmpty) flow)

/-- The texts stand in the entries from k on, and no stage changes one that is still to be read. -/
def StagesUndisturbed : Nat → List Bytes → Flow σ → Prop
  | _, [], _ => True
  | k, text :: more, flow => flow.stopped = false →
    (∀ i later, more[i]? = some later → unread flow.state.mem (.entry .stages (k + 1 + i)) 0 = later →
      unread (runStage K commands exec text (!more.isEmpty) flow).state.mem (.entry .stages (k + 1 + i)) 0 = later) ∧
    StagesUndisturbed (k + 1) more (runStage K commands exec text (!more.isEmpty) flow)

def pipelineStart (text : Bytes) (state : State σ) : Flow σ :=
  ⟨{ state with mem := apply (fillTable .stages (parts 124 text)) state.mem }, 0, none, false⟩

/-- There are entries for all stages, and none of these is changed before it has been read. -/
structure Straight (text : Bytes) (state : State σ) : Prop where
  clean : 0 ∉ text
  short : text.length < shellLineMax
  few : (parts 124 text).length ≤ shellPipeMax
  kept : StagesUndisturbed K commands exec 0 (parts 124 text) (pipelineStart text state)

variable {K commands exec}

theorem runStages_written {k count : Nat} (texts : List Bytes) (flow : Flow σ) (whole : count = k + texts.length)
    (read : ∀ i text, texts[i]? = some text → unread flow.state.mem (.entry .stages (k + i)) 0 = text)
    (quiet : StagesUndisturbed K commands exec k texts flow) :
    runStages K commands exec count (List.range' k texts.length) flow = runWritten K commands exec texts flow := by
  induction texts generalizing k flow with
  | nil => rfl
  | cons text more ih =>
    rw [List.length_cons] at whole
    rw [List.length_cons, List.range'_succ, runStages, runWritten]
    cases stopped : flow.stopped with
    | true => simp
    | false =>
      obtain ⟨kept, rest⟩ := quiet stopped
      have first : entryText .stages k 0 flow.state = text := read 0 text rfl
      have piped : decide (k + 1 < count) = !more.isEmpty := by
        cases more with
        | nil => simp [whole]
        | cons next others => simp [whole]
      rw [first, piped]
      simp only [Bool.false_eq_true, if_false]
      apply ih _ (by omega) _ rest
      intro i later there
      apply kept i later there
      have place : k + 1 + i = k + (i + 1) := by omega
      rw [place]
      exact read (i + 1) later there

/-- The same, as it can be seen. -/
def stagesStay (K : Kernel σ) (commands : List (ShellCommand σ)) (exec : Exec σ) : Nat → List Bytes → Flow σ → Bool
  | _, [], _ => true
  | k, text :: more, flow => flow.stopped ||
    (((List.range more.length).all fun i => unread
        (runStage K commands exec text (!more.isEmpty) flow).state.mem (.entry .stages (k + 1 + i)) 0 == more.getD i []) &&
      stagesStay K commands exec (k + 1) more (runStage K commands exec text (!more.isEmpty) flow))

theorem stagesUndisturbed_of_run {k : Nat} {texts : List Bytes} {flow : Flow σ}
    (stay : stagesStay K commands exec k texts flow = true) : StagesUndisturbed K commands exec k texts flow := by
  induction texts generalizing k flow with
  | nil => trivial
  | cons text more ih =>
    intro going
    simp only [stagesStay, going, Bool.false_or, Bool.and_eq_true, List.all_eq_true, List.mem_range, beq_iff_eq] at stay
    obtain ⟨kept, rest⟩ := stay
    refine ⟨?_, ih rest⟩
    intro i later there _
    obtain ⟨inside, here⟩ := List.getElem?_eq_some_iff.mp there
    rw [kept i inside, List.getD_eq_getElem _ _ inside, here]

theorem runPipeline_written {text : Bytes} {state : State σ} (straight : Straight K commands exec text state) :
    runPipeline K commands exec text state = endPipeline (runWritten K commands exec (parts 124 text) (pipelineStart text state)) := by
  simp only [runPipeline, splitOn_short straight.short, List.take_of_length_le straight.few]
  rw [List.range_eq_range', ← runStages_written (parts 124 text) _ (Nat.zero_add _).symm _ straight.kept]
  · rfl
  · intro i stage here
    have member := List.mem_of_getElem? here
    rw [Nat.zero_add]
    exact scan_fill here (parts_clean _ straight.clean stage member) (parts_short _ straight.short stage member) _

end Pipelines

/-- Two lines put together do what they do one after the other, and a pipeline runs the stages that are written. -/
theorem lines_run_as_written (K : Kernel σ) (commands : List (ShellCommand σ)) (room : Nat) :
    (∀ (state : State σ) (a b : Bytes), Separable K commands room state.world a b →
      Agree (shellExecuteLine K commands (room + 1) state (joined a b))
        (shellExecuteLine K commands (room + 1) (shellExecuteLine K commands (room + 1) state a).1 b)) ∧
    ∀ (state : State σ) (text : Bytes), Straight K commands (shellExecuteLine K commands room) text state →
      runPipeline K commands (shellExecuteLine K commands room) text state =
        endPipeline (runWritten K commands (shellExecuteLine K commands room) (parts 124 text) (pipelineStart text state)) :=
  ⟨fun state _ _ ok => joined_agrees ok state.mem, fun _ _ straight => runPipeline_written straight⟩

section Samples

/-- A system of which only the console is seen. -/
def console : Kernel Bytes where
  consoleWrite := fun out text => out ++ text
  kmalloc := fun out => (true, out)
  resolvePath := fun _ path => path
  readFile := fun out _ => (none, out)
  writeFile := fun out _ _ _ => (false, out)
  currentPid := fun _ => 1
  privileged := fun _ => true

def echoAndRepeat : List (ShellCommand Bytes) :=
  [⟨ascii "echo", false, .other (cmdEcho console)⟩, ⟨ascii "repeat", false, .other (cmdRepeat console)⟩]

def freshShell : Shell := ⟨ascii "ultrash", [], [], ascii "/", 0, false, none, 0⟩

def freshState : State Bytes := ⟨⟨freshShell, [], false⟩, noBuffers⟩

/-- The line that repeat runs has two statements, and the second one takes the place of 'echo b'. -/
theorem repeat_takes_the_next_statement : ¬ ∀ a b : Bytes, (joined a b).length < shellLineMax → 0 ∉ joined a b →
    35 ∉ joined a b → Agree (shellExecuteLine console echoAndRepeat 9 freshState (joined a b))
      (shellExecuteLine console echoAndRepeat 9 (shellExecuteLine console echoAndRepeat 9 freshState a).1 b) := by
  intro all
  have agree := all (ascii "repeat 1 'echo a; echo c'") (ascii "echo b") (by decide) (by decide) (by decide)
  have output := congrArg World.sys agree.1
  revert output
  decide

theorem separable_sample : Separable console echoAndRepeat 8 freshState.world (ascii "repeat 2 echo a") (ascii "echo b; echo c") where
  cleanFirst := by decide
  cleanSecond := by decide
  short := by decide
  first := by decide
  second := by decide
  closed := by decide
  few := by decide
  kept := entries_kept (shellExecuteLine_settled console echoAndRepeat 9 (ascii "repeat 2 echo a"))
    (apply (fillTable .statements (parts 59 (ascii "repeat 2 echo a; echo b; echo c"))) noBuffers) (by decide)
  behind := undisturbed_of_run (shellExecuteLine_settled console echoAndRepeat 8)
    (apply (fillTable .statements (parts 59 (ascii "repeat 2 echo a; echo b; echo c"))) noBuffers) (by decide)
  alone := undisturbed_of_run (shellExecuteLine_settled console echoAndRepeat 8)
    (apply (fillTable .statements (parts 59 (ascii "echo b; echo c"))) noBuffers) (by decide)
  fits := fun _ => by decide

theorem straight_sample : Straight console echoAndRepeat (shellExecuteLine console echoAndRepeat 8) (ascii "echo a | echo b") freshState where
  clean := by decide
  short := by decide
  few := by decide
  kept := by
    apply stagesUndisturbed_of_run
    decide

theorem repeat_run_as_written :
    Agree (shellExecuteLine console echoAndRepeat 9 freshState (joined (ascii "repeat 2 echo a") (ascii "echo b; echo c")))
      (shellExecuteLine console echoAndRepeat 9
        (shellExecuteLine console echoAndRepeat 9 freshState (ascii "repeat 2 echo a")).1 (ascii "echo b; echo c")) ∧
    runPipeline console echoAndRepeat (shellExecuteLine console echoAndRepeat 8) (ascii "echo a | echo b") freshState =
      endPipeline (runWritten console echoAndRepeat (shellExecuteLine console echoAndRepeat 8)
        (parts 124 (ascii "echo a | echo b")) (pipelineStart (ascii "echo a | echo b") freshState)) :=
  ⟨(lines_run_as_written console echoAndRepeat 8).1 freshState _ _ separable_sample,
    (lines_run_as_written console echoAndRepeat 8).2 freshState _ straight_sample⟩

end Samples

end Qito.Shells
