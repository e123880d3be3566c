import Mathlib.Data.List.DropRight
import Qito.Shells.Sourcing

/-! Commands that are chained with && and ||. The line is split at its first operator
and what is behind it is one command to it: the chain ends at the first operator
that does not let its command run. -/
namespace Qito.Shells
open Rows

variable {σ : Type}

section Texts

def operator (useAnd : Bool) : Bytes := if useAnd then [38, 38] else [124, 124]

/-- The first command and, behind each operator, one more. -/
@[grind =] def chainText (command : Bytes) (rest : List (Bool × Bytes)) : Bytes :=
  command ++ rest.flatMap fun next => operator next.1 ++ next.2

/-- A command that can stand in a chain: it is one statement with closed quotes, is not blank and
has no operator of a chain in it or at its end. -/
structure Operand (c : Bytes) : Prop where
  clean : 0 ∉ c
  filled : skipped (c.dropWhile isSpace) = false
  whole : parts 59 c = [c]
  closed : quoteAfter none c = none
  noAnd : strstr [38, 38] (c ++ [38]) = none
  noOr : strstr [124, 124] (c ++ [124]) = none

variable {x y : UInt8} {c rest : Bytes}

theorem strstr_cons_none {needle : Bytes} {d : UInt8} (nowhere : strstr needle (d :: c) = none) :
    needle.isPrefixOf (d :: c) = false ∧ strstr needle c = none := by
  unfold strstr at nowhere
  split at nowhere
  · cases nowhere
  · rename_i other
    exact ⟨Bool.eq_false_iff.mpr other, Option.map_eq_none_iff.mp nowhere⟩

theorem strstr_at (nowhere : strstr [x, x] (c ++ [x]) = none) : strstr [x, x] (c ++ x :: x :: rest) = some c.length := by
  induction c with
  | nil => simp [strstr, List.isPrefixOf]
  | cons d c ih =>
    obtain ⟨here, later⟩ := strstr_cons_none nowhere
    have same : [x, x].isPrefixOf (d :: (c ++ x :: x :: rest)) = [x, x].isPrefixOf (d :: (c ++ [x])) := by
      cases c with
      | nil => simp [List.isPrefixOf]
      | cons e c => simp [List.isPrefixOf]
    have other : [x, x].isPrefixOf (d :: (c ++ x :: x :: rest)) = false := same.trans here
    rw [List.cons_append, strstr, other, ih later]
    rfl

theorem strstr_behind (nowhere : strstr [y, y] (c ++ [y]) = none) (differ : x ≠ y) {j : Nat}
    (found : strstr [y, y] (c ++ x :: x :: rest) = some j) : c.length < j := by
  induction c generalizing j with
  | nil =>
    have other : (y == x) = false := beq_eq_false_iff_ne.mpr (Ne.symm differ)
    have first : [y, y].isPrefixOf (x :: x :: rest) = false := by simp [List.isPrefixOf, other]
    rw [List.nil_append, strstr, first] at found
    obtain ⟨i, -, rfl⟩ := Option.map_eq_some_iff.mp found
    exact Nat.succ_pos i
  | cons d c ih =>
    obtain ⟨here, later⟩ := strstr_cons_none nowhere
    have other : [y, y].isPrefixOf (d :: (c ++ x :: x :: rest)) = false := by
      cases c with
      | nil =>
        have other : (y == x) = false := beq_eq_false_iff_ne.mpr (Ne.symm differ)
        simp [List.isPrefixOf, other]
      | cons e c =>
        simpa [List.isPrefixOf] using here
    rw [List.cons_append, strstr, other] at found
    obtain ⟨i, inside, rfl⟩ := Option.map_eq_some_iff.mp found
    exact Nat.succ_lt_succ (ih later inside)

theorem Operand.chain (operand : Operand c) (useAnd : Bool) (rest : Bytes) :
    chainAt (c ++ (operator useAnd ++ rest)) = some (useAnd, c.length) := by
  cases useAnd with
  | true =>
    change chainAt (c ++ 38 :: 38 :: rest) = some (true, c.length)
    rw [chainAt, strstr_at operand.noAnd]
    cases found : strstr [124, 124] (c ++ 38 :: 38 :: rest) with
    | none => rfl
    | some j => exact if_pos (strstr_behind operand.noOr (by decide) found)
  | false =>
    change chainAt (c ++ 124 :: 124 :: rest) = some (false, c.length)
    rw [chainAt, strstr_at operand.noOr]
    cases found : strstr [38, 38] (c ++ 124 :: 124 :: rest) with
    | none => rfl
    | some j => exact if_neg (Nat.not_lt_of_lt (strstr_behind operand.noAnd (by decide) found))

theorem partsFrom_single {separator : UInt8} {q : Option UInt8} {part : Bytes} (rest : Bytes)
    (single : partsFrom separator q part c = [part ++ c]) :
    partsFrom separator q part (c ++ rest) = partsFrom separator (quoteAfter q c) (part ++ c) rest := by
  induction c generalizing q part with
  | nil => simp [quoteAfter]
  | cons d c ih =>
    have step (q : Option UInt8) (single : partsFrom separator q (part ++ [d]) c = [part ++ d :: c]) :
        partsFrom separator q (part ++ [d]) (c ++ rest) = partsFrom separator (quoteAfter q c) (part ++ d :: c) rest := by
      rw [List.append_cons part d c] at single
      have again := ih single
      rwa [← List.append_cons] at again
    cases q with
    | some q => exact step _ single
    | none =>
      simp only [partsFrom, List.cons_append, quoteAfter] at single ⊢
      split
      · rename_i quote
        rw [if_pos quote] at single
        exact step _ single
      · rename_i quote
        rw [if_neg quote] at single
        split
        · rename_i here
          rw [if_pos here] at single
          exact absurd (List.cons.inj single).2 partsFrom_ne_nil
        · rename_i other
          rw [if_neg other] at single
          exact step _ single

theorem Operand.parts_append (operand : Operand c) (rest : Bytes) :
    parts 59 (c ++ rest) = (parts 59 rest).modifyHead (c ++ ·) := by
  have split := partsFrom_single rest operand.whole
  rw [operand.closed, ← List.append_nil ([] ++ c), partsFrom_front] at split
  exact split

theorem chainText_parts {more : List (Bool × Bytes)} (operand : Operand c) (operands : ∀ next ∈ more, Operand next.2) :
    parts 59 (chainText c more) = [chainText c more] := by
  induction more generalizing c with
  | nil =>
    rw [chainText, List.flatMap_nil, List.append_nil]
    exact operand.whole
  | cons next more ih =>
    obtain ⟨useAnd, d⟩ := next
    obtain ⟨here, later⟩ := List.forall_mem_cons.mp operands
    have rest := ih here later
    have whole : chainText c ((useAnd, d) :: more) = c ++ (operator useAnd ++ chainText d more) := by
      simp [chainText]
    have op : parts 59 (operator useAnd ++ chainText d more) = [operator useAnd ++ chainText d more] := by
      have front : parts 59 (operator useAnd ++ chainText d more) =
          partsFrom 59 none (operator useAnd ++ []) (chainText d more) := by
        cases useAnd with
        | true => rfl
        | false => rfl
      rw [front, partsFrom_front]
      change (parts 59 (chainText d more)).modifyHead _ = _
      rw [rest]
      rfl
    rw [whole, operand.parts_append, op]
    rfl

theorem Operand.trim (operand : Operand c) : Operand (c.dropWhile isSpace) := by
  have blank := blank_takeWhile c
  have split := List.takeWhile_append_dropWhile (p := isSpace) (l := c)
  constructor
  · exact fun zero => operand.clean ((List.dropWhile_sublist isSpace).subset zero)
  · rw [List.dropWhile_idempotent]
    exact operand.filled
  · have whole := operand.whole
    rw [parts_start 59 (by decide) c] at whole
    cases texts : parts 59 (c.dropWhile isSpace) with
    | nil => exact absurd texts partsFrom_ne_nil
    | cons text more =>
      rw [texts, List.modifyHead_cons] at whole
      obtain ⟨head, tail⟩ := List.cons.inj whole
      rw [List.append_cancel_left (head.trans split.symm), tail]
  · have closed := operand.closed
    rwa [← split, quoteAfter_blank blank] at closed
  · have noAnd := operand.noAnd
    rw [← split, List.append_assoc, strstr_blank blank (by simp [isSpace]) (by decide)] at noAnd
    exact Option.map_eq_none_iff.mp noAnd
  · have noOr := operand.noOr
    rw [← split, List.append_assoc, strstr_blank blank (by simp [isSpace]) (by decide)] at noOr
    exact Option.map_eq_none_iff.mp noOr

end Texts

section Leaving
variable {K : Kernel σ} {commands : List (ShellCommand σ)} {exec : Exec σ} {i : Nat}

/-- A computation that does not write to an entry of the statements. -/
def Leaves (i : Nat) (state after : State σ) : Prop := after.mem (.entry .statements i) = state.mem (.entry .statements i)

/-- No line that is run in turn writes to the entry. -/
def ExecLeaves (i : Nat) (exec : Exec σ) : Prop := ∀ state line, Leaves i state (exec state line).1

theorem runProg_leaves (leaves : ExecLeaves i exec) (prog : Prog σ) (mem : Row → Nat → UInt8) :
    (runProg exec prog mem).1.mem (.entry .statements i) = mem (.entry .statements i) := by
  induction prog generalizing mem with
  | done w status => rfl
  | call w line next ih => exact (ih _ _ _).trans (leaves ⟨w, mem⟩ line)
  | load text next ih => exact ih _

theorem sourceLines_leaves (leaves : ExecLeaves i exec) (n save : Nat) (status : Int) (state : State σ) :
    Leaves i state (sourceLines K exec n save status state).1 := by
  induction n generalizing save status state with
  | zero => rfl
  | succ n ih =>
    unfold sourceLines
    split
    · rfl
    · exact (ih _ _ _).trans (leaves _ _)

theorem cmdSource_leaves (leaves : ExecLeaves i exec) (argv : List Bytes) (state : State σ) :
    Leaves i state (cmdSource K exec argv state).1 := by
  unfold cmdSource
  split
  · simp only
    split
    · rfl
    · split
      · rfl
      · exact sourceLines_leaves leaves _ _ _ _
  · rfl

theorem runSimple_leaves (leaves : ExecLeaves i exec) (argv : List Bytes) (state : State σ) :
    Leaves i state (runSimple K commands exec argv state).1 := by
  unfold runSimple
  split
  · rfl
  · split
    · rfl
    · split
      · rfl
      · split
        · exact cmdSource_leaves leaves _ _
        · exact runProg_leaves leaves _ _

theorem wordsOf_leaves (pipe : Option Bytes) (redirect : Option (Bytes × Bool)) (text : Bytes) (state : State σ) :
    Leaves i state (wordsOf pipe redirect text state).2 := by
  cases pipe with
  | none => rfl
  | some input => rfl

theorem readInput_leaves {raw : Bytes} {state after : State σ} {opened : Bool} (read : readInput K raw state = (opened, after)) :
    Leaves i state after := by
  unfold readInput at read
  simp only at read
  split at read
  · cases read
    rfl
  · split at read
    · cases read
      rfl
    · cases read
      rfl

theorem prepareStage_leaves (segment : Bytes) (pipe : Option Bytes) (state : State σ) :
    Leaves i state (prepareStage K segment pipe state).2 := by
  unfold prepareStage
  simp only
  split
  · exact wordsOf_leaves pipe _ _ state
  · split
    · rename_i opened
      exact readInput_leaves opened
    · rename_i opened
      exact (wordsOf_leaves pipe _ _ _).trans (readInput_leaves opened)

theorem deliver_leaves (redirect : Option (Bytes × Bool)) (output : Bytes) (ran : State σ × Int) :
    Leaves i ran.1 (deliver K redirect output ran).1 := by
  unfold deliver
  split
  · rfl
  · split
    · rfl
    · rfl

theorem runStage_leaves (leaves : ExecLeaves i exec) (text : Bytes) (piped : Bool) (flow : Flow σ) :
    Leaves i flow.state (runStage K commands exec text piped flow).state := by
  have prepared : Leaves i flow.state (prepareStage K text flow.pipe flow.state).2 := prepareStage_leaves text flow.pipe flow.state
  unfold runStage
  split
  · rename_i failed
    rw [failed] at prepared
    exact prepared
  · rename_i empty
    rw [empty] at prepared
    exact prepared
  · rename_i argv redirect state ready
    rw [ready] at prepared
    split
    · split
      · have ran : Leaves i state (runSimple K commands exec argv
            (state.map fun w => setSink (some ⟨[], false⟩) { w with sys := (K.kmalloc w.sys).2 })).1 :=
          runSimple_leaves leaves argv _
        exact (deliver_leaves redirect _ _).trans (ran.trans prepared)
      · exact prepared
    · exact (runSimple_leaves leaves argv state).trans prepared

theorem runPipeline_leaves (leaves : ExecLeaves i exec) (text : Bytes) (state : State σ) :
    Leaves i state (runPipeline K commands exec text state).1 := by
  have stages (count : Nat) (more : List Nat) (flow : Flow σ) :
      Leaves i flow.state (runStages K commands exec count more flow).state := by
    induction more generalizing flow with
    | nil => rfl
    | cons k more ih =>
      unfold runStages
      split
      · rfl
      · exact (ih _).trans (runStage_leaves leaves _ _ flow)
  unfold runPipeline
  simp only [endPipeline]
  split
  · exact stages _ _ _
  · exact stages _ _ _

theorem Leaves.map {after : State σ} (leaves : Leaves i state after) (f : World σ → World σ) : Leaves i state (after.map f) := leaves

theorem runStatement_leaves (leaves : ExecLeaves i exec) (s : Nat) (state : State σ) :
    Leaves i state (runStatement K commands exec s state).1 := by
  unfold runStatement runText
  split
  · exact (runPipeline_leaves leaves _ state).map _
  · simp only
    split
    · exact (leaves _ _).trans (leaves state _)
    · exact leaves state _

end Leaving

section Effects
variable (K : Kernel σ) (commands : List (ShellCommand σ))

/-- Where a line leads to, which does not depend on the buffers. -/
def effect (room : Nat) (w : World σ) (line : Bytes) : World σ × Int :=
  ((shellExecuteLine K commands room ⟨w, noBuffers⟩ line).1.world, (shellExecuteLine K commands room ⟨w, noBuffers⟩ line).2)

/-- What the code does with a chain: the commands it runs, and where that leads to. The guard refuses a line. -/
def chainRuns : Nat → Bytes → List (Bool × Bytes) → World σ → List Bytes × (World σ × Int)
  | 0, c, _, w => ([], effect K commands 0 w c)
  | room + 1, c, [], w => ([c], effect K commands (room + 1) w c)
  | room + 1, c, (useAnd, d) :: more, w =>
    let left := effect K commands room w c
    let front := if room = 0 then [] else [c]
    let w := setStatus left.2 left.1
    if useAnd = decide (left.2 = 0) then
      let right := chainRuns room d more w
      (front ++ right.1, setStatus right.2.2 right.2.1, right.2.2)
    else (front, w, left.2)

/-- From left to right: each next command runs if and only if the status so far lets it. -/
def leftToRight (run : World σ → Bytes → World σ × Int) : List (Bool × Bytes) → World σ × Int → List Bytes × (World σ × Int)
  | [], now => ([], now)
  | (useAnd, c) :: more, now =>
    if useAnd = decide (now.2 = 0) then (c :: (leftToRight run more (run now.1 c)).1, (leftToRight run more (run now.1 c)).2)
    else leftToRight run more now

def chainMeans (run : World σ → Bytes → World σ × Int) (c : Bytes) (more : List (Bool × Bytes)) (w : World σ) :
    List Bytes × (World σ × Int) := (c :: (leftToRight run more (run w c)).1, (leftToRight run more (run w c)).2)

/-- The commands of the chain that are run are simple ones: none of them runs a line in turn. -/
def SimpleRun : Bytes → List (Bool × Bytes) → World σ → Prop
  | c, [], w => Shallow K commands 1 w c
  | c, (useAnd, d) :: more, w => Shallow K commands 1 w c ∧
    (useAnd = decide ((effect K commands 1 w c).2 = 0) → SimpleRun d more (effect K commands 1 w c).1)

/-- At the first operator that does not let its command run the ones behind it are the same, and no
command is nested too deep. -/
def Regular (run : World σ → Bytes → World σ × Int) : Nat → Bytes → List (Bool × Bytes) → World σ → Prop
  | room, _, [], _ => 1 ≤ room
  | room, c, (useAnd, d) :: more, w => 2 ≤ room ∧
    if useAnd = decide ((run w c).2 = 0) then Regular run (room - 1) d more (run w c).1 else ∀ next ∈ more, next.1 = useAnd

variable {K commands} {room : Nat} {w : World σ} {c line : Bytes}

theorem effect_eq {K : Kernel σ} {commands : List (ShellCommand σ)} {room : Nat} (state : State σ) (line : Bytes) : (shellExecuteLine K commands room state line).1.world =
      (effect K commands room state.world line).1 ∧
    (shellExecuteLine K commands room state line).2 = (effect K commands room state.world line).2 :=
  (shellExecuteLine_settled K commands room line).agree state.mem noBuffers

theorem effect_blank {front : Bytes} (blank : Blank front) : effect K commands room w (front ++ line) = effect K commands room w line := by
  unfold effect
  rw [shellExecuteLine_blank blank]

theorem effect_trim (c : Bytes) : effect K commands room w (c.dropWhile isSpace) = effect K commands room w c := by
  have same : effect K commands room w (c.takeWhile isSpace ++ c.dropWhile isSpace) = _ := effect_blank (blank_takeWhile c)
  rw [List.takeWhile_append_dropWhile] at same
  exact same.symm

theorem runText_status (exec : Exec σ) (text : Bytes) (right : Nat → State σ → Bytes) (state : State σ) :
    (runText K commands exec text right state).1.world.sh.lastStatus = (runText K commands exec text right state).2 := by
  unfold runText
  split
  · rfl
  · simp only
    split
    · rfl
    · rfl

theorem effect_status (filled : skipped (line.dropWhile isSpace) = false) :
    setStatus (effect K commands (room + 1) w line).2 (effect K commands (room + 1) w line).1 =
      (effect K commands (room + 1) w line).1 := by
  have statements (s : Nat) (more : List Nat) (status : Int) (state : State σ) :
      (runStatements K commands (shellExecuteLine K commands room) (s :: more) status state).1.world.sh.lastStatus =
        (runStatements K commands (shellExecuteLine K commands room) (s :: more) status state).2 := by
    induction more generalizing s status state with
    | nil => exact runText_status _ _ _ _
    | cons next more ih =>
      exact ih next (runStatement K commands (shellExecuteLine K commands room) s state).2
        (runStatement K commands (shellExecuteLine K commands room) s state).1
  have some_ : ∃ n, (splitOn 59 (line.dropWhile isSpace)).length = n + 1 := by
    apply Nat.exists_eq_succ_of_ne_zero
    rw [splitOn, List.length_map, List.length_take]
    have full : 0 < (parts 59 (line.dropWhile isSpace)).length := List.length_pos_iff.mpr partsFrom_ne_nil
    change min 8 _ ≠ 0
    omega
  obtain ⟨n, length⟩ := some_
  have last : (effect K commands (room + 1) w line).1.sh.lastStatus = (effect K commands (room + 1) w line).2 := by
    unfold effect
    rw [shellExecuteLine, if_neg (by simp [filled])]
    simp only [length, List.range_succ_eq_map]
    exact statements _ _ _ _
  unfold setStatus
  rw [← last]

theorem Shallow.effect (simple : Shallow K commands 1 w c) (room : Nat) :
    effect K commands (room + 1) w c = effect K commands 1 w c := by
  unfold Shells.effect
  rw [Nat.add_comm, simple.deeper]

/-- A simple command writes its own text to the first entry, and nothing else to the statements. -/
theorem Shallow.keeps (simple : Shallow K commands 1 w c) (operand : Operand c) {col : Nat} {text : Bytes}
    (behind : (c.dropWhile isSpace).length < col) :
    Keeps (fun state => shellExecuteLine K commands (room + 1) state c) w (.entry .statements 0) col text := by
  intro mem read
  have idle : ExecLeaves 0 (fun (state : State σ) (_ : Bytes) => (state, (0 : Int))) := fun _ _ => rfl
  have deep := simple.deeper room mem
  rw [Nat.add_comm] at deep
  have alone : splitOn 59 (c.dropWhile isSpace) = [(c.dropWhile isSpace).take (shellLineMax - 1)] := by
    rw [splitOn, operand.trim.whole]
    rfl
  have run := (simple (fun state _ => (state, 0)) mem).symm
  simp only [executeOver, operand.filled, Bool.false_eq_true, if_false, alone] at run
  simp only
  rw [deep, run]
  unfold unread at read ⊢
  have row (state : State σ) : (runStatement K commands (fun state _ => (state, 0)) 0 state).1.mem (.entry .statements 0) =
      state.mem (.entry .statements 0) := runStatement_leaves idle 0 state
  change scan ((runStatement K commands _ 0 _).1.mem (.entry .statements 0)) _ _ = text
  rw [row]
  change scan (cover ((c.dropWhile isSpace).take (shellLineMax - 1) ++ [0]) (mem (.entry .statements 0))) _ _ = text
  rw [scan_outside]
  · exact read
  · rw [List.length_append, List.length_take, List.length_singleton]
    omega

theorem chainText_trim {more : List (Bool × Bytes)} (filled : skipped (c.dropWhile isSpace) = false) :
    (chainText c more).dropWhile isSpace = chainText (c.dropWhile isSpace) more := by
  unfold chainText
  rw [List.dropWhile_append, if_neg]
  rw [List.isEmpty_iff]
  exact not_skipped filled

theorem chainText_filled {more : List (Bool × Bytes)} (operand : Operand c) :
    skipped ((chainText c more).dropWhile isSpace) = false := by
  have filled := operand.filled
  rw [chainText_trim filled]
  unfold chainText
  cases front : c.dropWhile isSpace with
  | nil =>
    rw [front] at filled
    cases filled
  | cons d rest =>
    rw [front] at filled
    exact filled

theorem chainText_clean {more : List (Bool × Bytes)} (operand : Operand c) (operands : ∀ next ∈ more, Operand next.2) :
    0 ∉ chainText c more := by
  intro zero
  rcases List.mem_append.mp zero with first | later
  · exact operand.clean first
  · obtain ⟨next, member, inside⟩ := List.mem_flatMap.mp later
    rcases List.mem_append.mp inside with op | command
    · revert op
      cases next.1 with
      | true => decide
      | false => decide
    · exact (operands next member).clean command

theorem effect_chain {useAnd : Bool} {d : Bytes} {more : List (Bool × Bytes)} (operand : Operand c)
    (operands : ∀ next ∈ (useAnd, d) :: more, Operand next.2) (short : (chainText c ((useAnd, d) :: more)).length < shellLineMax)
    (kept : Keeps (fun state => shellExecuteLine K commands room state (c.dropWhile isSpace)) w (.entry .statements 0)
      ((c.dropWhile isSpace).length + 2) (chainText d more)) :
    effect K commands (room + 1) w (chainText c ((useAnd, d) :: more)) =
      if useAnd = decide ((effect K commands room w c).2 = 0) then
        (setStatus
          (effect K commands room (setStatus (effect K commands room w c).2 (effect K commands room w c).1) (chainText d more)).2
          (effect K commands room (setStatus (effect K commands room w c).2 (effect K commands room w c).1) (chainText d more)).1,
          (effect K commands room (setStatus (effect K commands room w c).2 (effect K commands room w c).1) (chainText d more)).2)
      else (setStatus (effect K commands room w c).2 (effect K commands room w c).1, (effect K commands room w c).2) := by
  have trimmed := operand.trim
  have whole : chainText (c.dropWhile isSpace) ((useAnd, d) :: more) =
      c.dropWhile isSpace ++ (operator useAnd ++ chainText d more) := by
    simp [chainText]
  have chain := trimmed.chain useAnd (chainText d more)
  have single := chainText_parts trimmed operands
  have two : (operator useAnd).length = 2 := by
    cases useAnd with
    | true => rfl
    | false => rfl
  have left : (c.dropWhile isSpace ++ (operator useAnd ++ chainText d more)).take (c.dropWhile isSpace).length = c.dropWhile isSpace :=
    List.take_left
  have right : (c.dropWhile isSpace ++ (operator useAnd ++ chainText d more)).drop ((c.dropWhile isSpace).length + 2) =
      chainText d more := by
    rw [List.drop_length_add_append, ← two, List.drop_left]
  have trim : (chainText c ((useAnd, d) :: more)).dropWhile isSpace = _ := chainText_trim operand.filled
  rw [whole] at trim single
  have clean : 0 ∉ c.dropWhile isSpace ++ (operator useAnd ++ chainText d more) := by
    rw [← whole]
    exact chainText_clean trimmed operands
  have shorter : (c.dropWhile isSpace ++ (operator useAnd ++ chainText d more)).length < shellLineMax := by
    rw [← trim]
    exact Nat.lt_of_le_of_lt (List.dropWhile_sublist isSpace).length_le short
  have run : shellExecuteLine K commands (room + 1) ⟨w, noBuffers⟩ (chainText c ((useAnd, d) :: more)) =
      asWritten K commands (shellExecuteLine K commands room) (c.dropWhile isSpace ++ (operator useAnd ++ chainText d more))
        ⟨w, apply (fillTable .statements [c.dropWhile isSpace ++ (operator useAnd ++ chainText d more)]) noBuffers⟩ := by
    rw [shellExecuteLine_few (chainText_filled operand) short]
    · rw [trim, single]
      apply runStatement_written
      · exact scan_fill rfl clean shorter noBuffers
      · intro useAnd' split found
        rw [chain] at found
        cases found
        rw [left, right]
        exact kept
    · rw [trim, single, List.length_singleton]
      decide
  have lines (state : State σ) (line : Bytes) : shellExecuteLine K commands room state line =
      (⟨(effect K commands room state.world line).1, (shellExecuteLine K commands room state line).1.mem⟩,
        (effect K commands room state.world line).2) := by
    obtain ⟨world, status⟩ := effect_eq state line
    rw [← world, ← status]
  conv_lhs => unfold effect
  rw [run]
  unfold asWritten runText
  simp only [chain, left, right, State.map]
  rw [lines _ (c.dropWhile isSpace), effect_trim]
  simp only
  split
  · rw [lines _ (chainText d more)]
  · rfl

theorem Shallow.trim (simple : Shallow K commands 1 w c) : Shallow K commands 1 w (c.dropWhile isSpace) := by
  intro base mem
  have run := simple base mem
  simp only [executeOver, shellExecuteLine, List.dropWhile_idempotent] at run ⊢
  exact run

theorem effect_refused (filled : skipped (line.dropWhile isSpace) = false) :
    effect K commands 0 w line = (shellError K w (ascii "maximum command nesting depth exceeded"), 1) := by
  unfold effect shellExecuteLine
  rw [filled]
  rfl

theorem chainText_rest {useAnd : Bool} {d : Bytes} {more : List (Bool × Bytes)}
    (short : (chainText c ((useAnd, d) :: more)).length < shellLineMax) : (chainText d more).length < shellLineMax := by
  have whole : chainText c ((useAnd, d) :: more) = (c ++ operator useAnd) ++ chainText d more := by
    simp [chainText]
  rw [whole, List.length_append] at short
  omega

theorem effect_chainRuns {more : List (Bool × Bytes)} (operand : Operand c) (operands : ∀ next ∈ more, Operand next.2)
    (short : (chainText c more).length < shellLineMax) (simple : SimpleRun K commands c more w) :
    effect K commands room w (chainText c more) = (chainRuns K commands room c more w).2 := by
  induction more generalizing room c w with
  | nil =>
    have whole : chainText c [] = c := List.append_nil c
    rw [whole]
    cases room with
    | zero => rfl
    | succ room => rfl
  | cons next more ih =>
    obtain ⟨useAnd, d⟩ := next
    obtain ⟨here, later⟩ := List.forall_mem_cons.mp operands
    obtain ⟨alone, rest⟩ := simple
    cases room with
    | zero => rw [effect_refused (chainText_filled operand), chainRuns, effect_refused operand.filled]
    | succ room =>
      rw [effect_chain operand operands short, chainRuns]
      · cases room with
        | zero =>
          rw [effect_refused (chainText_filled here), chainRuns, effect_refused here.filled]
          split
          · rfl
          · rfl
        | succ room =>
          simp only
          rw [alone.effect, effect_status operand.filled]
          by_cases fires : useAnd = decide ((effect K commands 1 w c).2 = 0)
          · rw [if_pos fires, if_pos fires, ih here later (chainText_rest short) (rest fires)]
          · rw [if_neg fires, if_neg fires]
      · cases room with
        | zero =>
          intro mem read
          have same : (shellExecuteLine K commands 0 ⟨w, mem⟩ (c.dropWhile isSpace)).1.mem = mem := by
            unfold shellExecuteLine
            split
            · rfl
            · rfl
          simp only
          rw [same]
          exact read
        | succ room =>
          apply alone.trim.keeps operand.trim
          rw [List.dropWhile_idempotent]
          omega

theorem leftToRight_idle (run : World σ → Bytes → World σ × Int) (more : List (Bool × Bytes)) (now : World σ × Int) :
    ((leftToRight run more now).1 = [] ↔ ∀ next ∈ more, next.1 ≠ decide (now.2 = 0)) ∧
    ((leftToRight run more now).1 = [] → (leftToRight run more now).2 = now) := by
  induction more with
  | nil => simp [leftToRight]
  | cons next more ih =>
    obtain ⟨useAnd, c⟩ := next
    unfold leftToRight
    by_cases fires : useAnd = decide (now.2 = 0)
    · simp [fires]
    · rw [if_neg fires]
      refine ⟨?_, ih.2⟩
      rw [ih.1, List.forall_mem_cons]
      exact (and_iff_right fires).symm

/-- The code runs the commands of the chain that are to be run exactly when it is regular. -/
theorem chainRuns_iff {more : List (Bool × Bytes)} (operand : Operand c) (operands : ∀ next ∈ more, Operand next.2)
    (short : (chainText c more).length < shellLineMax) (simple : SimpleRun K commands c more w) :
    chainRuns K commands room c more w = chainMeans (effect K commands 1) c more w ↔
      Regular (effect K commands 1) room c more w := by
  induction more generalizing room c w with
  | nil =>
    cases room with
    | zero => simp [chainRuns, chainMeans, Regular]
    | succ room =>
      have same := simple.effect room
      simp [chainRuns, chainMeans, leftToRight, Regular, same]
  | cons next more ih =>
    obtain ⟨useAnd, d⟩ := next
    obtain ⟨here, later⟩ := List.forall_mem_cons.mp operands
    obtain ⟨alone, rest⟩ := simple
    cases room with
    | zero => simp [chainRuns, chainMeans, Regular]
    | succ room =>
      cases room with
      | zero =>
        have refused : (chainRuns K commands 1 c ((useAnd, d) :: more) w).1 = [] := by
          unfold chainRuns
          simp only [if_true]
          split
          · rfl
          · rfl
        have differ : chainRuns K commands 1 c ((useAnd, d) :: more) w ≠ chainMeans (effect K commands 1) c ((useAnd, d) :: more) w := by
          intro same
          rw [same] at refused
          cases refused
        simp [differ, Regular]
      | succ room =>
        have enough : 2 ≤ room + 1 + 1 := by omega
        unfold chainRuns Regular chainMeans leftToRight
        simp only [alone.effect, effect_status operand.filled, enough, true_and, Nat.add_sub_cancel]
        by_cases fires : useAnd = decide ((effect K commands 1 w c).2 = 0)
        · have next : chainRuns K commands (room + 1) d more _ = _ ↔ _ := ih here later (chainText_rest short) (rest fires)
          have status : effect K commands (room + 1) _ (chainText d more) = _ :=
            effect_chainRuns here later (chainText_rest short) (rest fires)
          have kept : setStatus (effect K commands (room + 1) (effect K commands 1 w c).1 (chainText d more)).2 _ = _ :=
            effect_status (chainText_filled here)
          rw [status] at kept
          rw [if_pos fires, if_pos fires, if_pos fires, ← next, kept]
          simp [chainMeans, Prod.ext_iff]
        · rw [if_neg fires, if_neg fires, if_neg fires]
          obtain ⟨idle, stays⟩ := leftToRight_idle (effect K commands 1) more (effect K commands 1 w c)
          have stop : (∀ next ∈ more, next.1 = useAnd) ↔ ∀ next ∈ more, next.1 ≠ decide ((effect K commands 1 w c).2 = 0) := by
            apply forall₂_congr
            intro next _
            revert fires
            cases useAnd <;> cases next.1 <;> cases decide ((effect K commands 1 w c).2 = 0) <;> simp
          rw [stop, ← idle]
          constructor
          · intro same
            exact (List.cons.inj (Prod.mk.inj same).1).2.symm
          · intro empty
            rw [empty, stays empty]
            rfl

end Effects

/-- A chain of simple commands runs those that chainRuns says, and these are the ones of the evaluation from left to
right, with its world and status, exactly when the chain is regular. -/
theorem chain_runs_left_to_right (K : Kernel σ) (commands : List (ShellCommand σ)) (room : Nat) (state : State σ) (c : Bytes)
    (more : List (Bool × Bytes)) (operand : Operand c) (operands : ∀ next ∈ more, Operand next.2)
    (short : (chainText c more).length < shellLineMax) (simple : SimpleRun K commands c more state.world) :
    (shellExecuteLine K commands room state (chainText c more)).1.world = (chainRuns K commands room c more state.world).2.1 ∧
    (shellExecuteLine K commands room state (chainText c more)).2 = (chainRuns K commands room c more state.world).2.2 ∧
    (chainRuns K commands room c more state.world = chainMeans (effect K commands 1) c more state.world ↔
      Regular (effect K commands 1) room c more state.world) := by
  obtain ⟨world, status⟩ := effect_eq state (chainText c more)
  have runs : effect K commands room state.world (chainText c more) = _ := effect_chainRuns operand operands short simple
  refine ⟨?_, ?_, chainRuns_iff operand operands short simple⟩
  · rw [world, runs]
  · rw [status, runs]

section Samples

def echoAndFalse : List (ShellCommand Bytes) :=
  [⟨ascii "echo", false, .other (cmdEcho console)⟩, ⟨ascii "false", false, .other fun _ w => .done w 1⟩]

/-- The last command is to run after the first one has failed. -/
theorem mixed_chain_stops :
    (shellExecuteLine console echoAndFalse 9 freshState (chainText (ascii "false") [(true, ascii "echo b"), (false, ascii "echo c")])).2 ≠
      (chainMeans (effect console echoAndFalse 1) (ascii "false") [(true, ascii "echo b"), (false, ascii "echo c")]
        freshState.world).2.2 ∧
    (shellExecuteLine console echoAndFalse 9 freshState
        (chainText (ascii "false") [(true, ascii "echo b"), (false, ascii "echo c")])).1.world.sys ≠
      (chainMeans (effect console echoAndFalse 1) (ascii "false") [(true, ascii "echo b"), (false, ascii "echo c")]
        freshState.world).2.1.sys := by
  constructor
  · decide
  · decide

theorem echoAndFalse_silent : Silent echoAndFalse := by
  intro c member
  rcases List.mem_cons.mp member with rfl | later
  · exact ⟨_, rfl, fun _ _ => trivial⟩
  · cases List.mem_singleton.mp later
    exact ⟨_, rfl, fun _ _ => trivial⟩

theorem or_chain_runs :
    (shellExecuteLine console echoAndFalse 9 freshState (chainText (ascii "false") [(false, ascii "echo b")])).1.world =
      (chainMeans (effect console echoAndFalse 1) (ascii "false") [(false, ascii "echo b")] freshState.world).2.1 ∧
    (shellExecuteLine console echoAndFalse 9 freshState (chainText (ascii "false") [(false, ascii "echo b")])).2 =
      (chainMeans (effect console echoAndFalse 1) (ascii "false") [(false, ascii "echo b")] freshState.world).2.2 := by
  have first : Operand (ascii "false") := ⟨by decide, by decide, by decide, by decide, by decide, by decide⟩
  have second : Operand (ascii "echo b") := ⟨by decide, by decide, by decide, by decide, by decide, by decide⟩
  have simple : SimpleRun console echoAndFalse (ascii "false") [(false, ascii "echo b")] freshState.world :=
    ⟨shallow_silent echoAndFalse_silent (ascii "false") (by decide) (by decide) (by decide) (by decide),
      fun _ => shallow_silent echoAndFalse_silent (ascii "echo b") (by decide) (by decide) (by decide) (by decide)⟩
  have regular : Regular (effect console echoAndFalse 1) 9 (ascii "false") [(false, ascii "echo b")] freshState.world := by
    have fails : false = decide ((effect console echoAndFalse 1 freshState.world (ascii "false")).2 = 0) := by decide
    refine ⟨by decide, ?_⟩
    rw [if_pos fails]
    exact (by decide : 1 ≤ 8)
  obtain ⟨world, status, same⟩ := chain_runs_left_to_right console echoAndFalse 9 freshState (ascii "false")
    [(false, ascii "echo b")] first (fun next member => by cases List.mem_singleton.mp member; exact second) (by decide) simple
  rw [same.mpr regular] at world status
  exact ⟨world, status⟩

end Samples

end Qito.Shells
