import Qito.Shells.Sequencing

/-! A script is read line by line out of the scratch buffer. Each line runs as if it
had been typed as long as it leaves the lines behind it where they stand. -/
namespace Qito.Shells
open Rows

variable {σ : Type}

section Scripts

/-- The non-empty lines, each with the text behind it. -/
@[grind =] def linesFrom : Bytes → Bytes → List (Bytes × Bytes)
  | part, [] => if part = [] then [] else [(part, [])]
  | part, c :: rest =>
    if c = 10 then if part = [] then linesFrom [] rest else (part, rest) :: linesFrom [] rest
    else linesFrom (part ++ [c]) rest

def scriptLines (text : Bytes) : List Bytes := (text.splitOn 10).filter (· ≠ [])

theorem linesFrom_plain {part front : Bytes} (plain : 10 ∉ front) (text : Bytes) :
    linesFrom part (front ++ text) = linesFrom (part ++ front) text := by
  induction front generalizing part with
  | nil => simp
  | cons c rest ih =>
    obtain ⟨here, later⟩ := not_or.mp (mt List.mem_cons.mpr plain)
    rw [List.cons_append, linesFrom, if_neg (Ne.symm here), ih later, List.append_assoc]
    rfl

theorem linesFrom_fst (part text : Bytes) (plain : 10 ∉ part) :
    (linesFrom part text).map Prod.fst = scriptLines (part ++ text) := by
  induction text generalizing part with
  | nil =>
    unfold scriptLines linesFrom
    rw [List.append_nil, List.splitOn_eq_singleton plain]
    by_cases empty : part = []
    · simp [empty]
    · simp [empty]
  | cons c rest ih =>
    unfold linesFrom
    by_cases newline : c = 10
    · subst newline
      have after := ih [] (List.not_mem_nil)
      unfold scriptLines at after ⊢
      rw [List.splitOn_append_cons_self_of_not_mem plain, if_pos rfl]
      by_cases empty : part = []
      · simpa [empty] using after
      · simpa [empty] using after
    · rw [if_neg newline, ih (part ++ [c]), List.append_assoc]
      · rfl
      · simp [plain, Ne.symm newline]

theorem linesFrom_length (part text : Bytes) : (linesFrom part text).length ≤ part.length + text.length := by
  induction text generalizing part with
  | nil =>
    unfold linesFrom
    split
    · exact Nat.zero_le _
    · rename_i full
      exact List.length_pos_iff.mpr full
  | cons c rest ih =>
    have fresh := ih []
    have longer := ih (part ++ [c])
    rw [List.length_append, List.length_singleton] at longer
    rw [List.length_nil] at fresh
    rw [List.length_cons]
    unfold linesFrom
    split
    · split
      · omega
      · rw [List.length_cons]
        omega
    · omega

theorem linesFrom_newlines {front : Bytes} (newlines : ∀ c ∈ front, c = 10) (text : Bytes) :
    linesFrom [] (front ++ text) = linesFrom [] text := by
  induction front with
  | nil => rfl
  | cons c rest ih =>
    obtain ⟨here, later⟩ := List.forall_mem_cons.mp newlines
    rw [List.cons_append, linesFrom, if_pos here, if_pos rfl, ih later]

theorem linesFrom_cut (text : Bytes) : (∀ c ∈ text, c = 10) ∧ linesFrom [] text = [] ∨
    ∃ newlines line tail, text = newlines ++ (line ++ tail) ∧ (∀ c ∈ newlines, c = 10) ∧ 10 ∉ line ∧ line ≠ [] ∧
      (tail = [] ∨ ∃ behind, tail = 10 :: behind) ∧ linesFrom [] text = (line, tail.tail) :: linesFrom [] tail.tail := by
  have split := List.takeWhile_append_dropWhile (p := (· == (10 : UInt8))) (l := text)
  have newlines : ∀ c ∈ text.takeWhile (· == (10 : UInt8)), c = 10 := by
    intro c member
    have newline := List.mem_takeWhile_imp member
    exact beq_iff_eq.mp newline
  have same := linesFrom_newlines newlines (text.dropWhile (· == (10 : UInt8)))
  rw [split] at same
  cases start : text.dropWhile (· == (10 : UInt8)) with
  | nil =>
    rw [start, List.append_nil] at split
    rw [split] at newlines
    rw [start] at same
    exact .inl ⟨newlines, same⟩
  | cons c rest =>
    have first : c ≠ 10 := by
      have head := List.head?_dropWhile_not (· == (10 : UInt8)) text
      rw [start] at head
      exact beq_eq_false_iff_ne.mp head
    rw [start] at split same
    have cut := List.takeWhile_append_dropWhile (p := (· != (10 : UInt8))) (l := c :: rest)
    have plain : 10 ∉ (c :: rest).takeWhile (· != (10 : UInt8)) := by
      intro member
      exact absurd (List.mem_takeWhile_imp member) (by decide)
    have full : (c :: rest).takeWhile (· != (10 : UInt8)) ≠ [] := by
      have here : (c != 10) = true := bne_iff_ne.mpr first
      simp [here]
    have lines : linesFrom [] _ = linesFrom ([] ++ _) _ := linesFrom_plain plain ((c :: rest).dropWhile (· != (10 : UInt8)))
    rw [cut, List.nil_append] at lines
    rw [lines] at same
    refine .inr ⟨_, _, (c :: rest).dropWhile (· != (10 : UInt8)), by rw [cut, split], newlines, plain, full, ?_, ?_⟩
    · cases tail : (c :: rest).dropWhile (· != (10 : UInt8)) with
      | nil => exact .inl rfl
      | cons d behind =>
        have head := List.head?_dropWhile_not (· != (10 : UInt8)) (c :: rest)
        rw [tail] at head
        cases (bne_eq_false_iff_eq.mp head)
        exact .inr ⟨behind, rfl⟩
    · rw [same]
      cases tail : (c :: rest).dropWhile (· != (10 : UInt8)) with
      | nil => rw [linesFrom, if_neg full]; rfl
      | cons d behind =>
        have head := List.head?_dropWhile_not (· != (10 : UInt8)) (c :: rest)
        rw [tail] at head
        cases (bne_eq_false_iff_eq.mp head)
        rw [linesFrom, if_pos rfl, if_neg full]
        rfl

end Scripts

section Tokens
variable {cells : Nat → UInt8} {n k : Nat} {text : Bytes}

theorem scan_get (read : scan cells n k = text) {i : Nat} (inside : i < text.length) : cells (k + i) = text[i] := by
  have later := scan_drop read (Nat.le_of_lt inside)
  rw [List.drop_eq_getElem_cons inside] at later
  cases rest : n - i with
  | zero =>
    rw [rest] at later
    cases later
  | succ m =>
    rw [rest] at later
    unfold scan at later
    split at later
    · cases later
    · exact (List.cons.inj later).1

theorem scan_end (read : scan cells n k = text) (room : text.length < n) : cells (k + text.length) = 0 := by
  have later := scan_drop read (Nat.le_refl _)
  rw [List.drop_length] at later
  cases rest : n - text.length with
  | zero => omega
  | succ m =>
    rw [rest] at later
    unfold scan at later
    split at later
    · assumption
    · cases later

theorem scan_full (read : scan cells n k = text) : 0 ∉ text := by
  induction n generalizing k text with
  | zero =>
    subst read
    exact List.not_mem_nil
  | succ n ih =>
    unfold scan at read
    split at read
    · subst read
      exact List.not_mem_nil
    · rename_i full
      subst read
      exact mt List.mem_cons.mp (not_or.mpr ⟨Ne.symm full, ih rfl⟩)

theorem passOver_scan (skip : UInt8 → Bool) (stops : skip 0 = false) (read : scan cells n k = text) (room : text.length < n) :
    passOver cells skip n k = k + (text.takeWhile skip).length := by
  induction n generalizing k text with
  | zero => omega
  | succ n ih =>
    unfold scan at read
    unfold passOver
    split at read
    · rename_i zero
      subst read
      rw [zero, stops]
      rfl
    · subst read
      rw [List.length_cons] at room
      rw [List.takeWhile_cons]
      cases skip (cells k) with
      | false => rfl
      | true =>
        simp only [if_true]
        rw [ih rfl (by omega), List.length_cons]
        omega

theorem scan_elsewhere {old : Nat → UInt8} (same : ∀ i, k ≤ i → cells i = old i) : scan cells n k = scan old n k := by
  induction n generalizing k with
  | zero => rfl
  | succ n ih => rw [scan, scan, same k (Nat.le_refl k), ih fun i above => same i (Nat.le_of_succ_le above)]

theorem range_cells (read : scan cells n k = text) {m : Nat} (inside : m ≤ text.length) :
    ((List.range m).map fun i => cells (k + i)) = text.take m := by
  apply List.ext_getElem
  · rw [List.length_map, List.length_range, List.length_take]
    omega
  · intro i left right
    rw [List.length_map, List.length_range] at left
    rw [List.getElem_map, List.getElem_range, List.getElem_take]
    exact scan_get read (by omega)

variable {save : Nat} {rest : Bytes}

theorem strtok_last (read : scan cells (shellScratchSize - save) save = rest) (room : save + rest.length < shellScratchSize)
    (newlines : ∀ c ∈ rest, c = 10) : strtok cells save = none := by
  have start := passOver_scan (· == 10) (by decide) read (by omega)
  have all : rest.takeWhile (· == 10) = rest := List.takeWhile_eq_self_iff.mpr fun c member => beq_iff_eq.mpr (newlines c member)
  rw [all] at start
  have zero := scan_end read (by omega)
  simp only [strtok, start, zero, true_or, if_true]

theorem strtok_next {newlines line tail : Bytes} (read : scan cells (shellScratchSize - save) save = newlines ++ (line ++ tail))
    (room : save + (newlines ++ (line ++ tail)).length < shellScratchSize) (empty : ∀ c ∈ newlines, c = 10) (plain : 10 ∉ line)
    (full : line ≠ []) (cut : tail = [] ∨ ∃ behind, tail = 10 :: behind) :
    ∃ cells' save', strtok cells save = some (line, cells', save') ∧
      save' + tail.tail.length = save + (newlines ++ (line ++ tail)).length ∧
      scan cells' (shellScratchSize - save') save' = tail.tail := by
  have clean := scan_full read
  rw [List.length_append] at room
  have solid : ∀ c ∈ line, c ≠ 10 ∧ c ≠ 0 := by
    intro c member
    constructor
    · rintro rfl
      exact plain member
    · rintro rfl
      exact clean (List.mem_append_right _ (List.mem_append_left _ member))
  obtain ⟨c, more, rfl⟩ := List.exists_cons_of_ne_nil full
  obtain ⟨first, nonzero⟩ := solid c List.mem_cons_self
  have start := passOver_scan (· == 10) (by decide) read (by rw [List.length_append]; omega)
  rw [List.takeWhile_append_of_pos fun c member => beq_iff_eq.mpr (empty c member), List.cons_append,
    List.takeWhile_cons_of_neg (by simp [first]), List.append_nil] at start
  have here := scan_drop (j := newlines.length) read (by rw [List.length_append]; omega)
  rw [List.drop_left, Nat.sub_sub] at here
  have stop := passOver_scan (fun c => c != 10 && c != 0) (by decide) here (by omega)
  have ends : tail.takeWhile (fun c => c != 10 && c != 0) = [] := by
    rcases cut with rfl | ⟨behind, rfl⟩
    · rfl
    · rfl
  rw [List.takeWhile_append_of_pos fun c member => by simp [solid c member], ends, List.append_nil] at stop
  have now : cells (save + newlines.length) = c := by
    have zeroth := scan_get here (i := 0) (by simp)
    simpa using zeroth
  have behind := scan_drop (j := (c :: more).length) here (by rw [List.length_append]; omega)
  rw [List.drop_left, Nat.sub_sub] at behind
  have taken := range_cells here (m := (c :: more).length) (by rw [List.length_append]; omega)
  rw [List.take_left] at taken
  rw [List.length_append] at room
  have inside : ¬ (cells (save + newlines.length) = 0 ∨ shellScratchSize ≤ save + newlines.length) := by
    rw [now]
    exact not_or.mpr ⟨nonzero, by omega⟩
  rw [List.length_append, List.length_append]
  rcases cut with rfl | ⟨next, rfl⟩
  · have zero := scan_end behind (by rw [List.length_nil]; omega)
    rw [List.length_nil, Nat.add_zero] at zero
    refine ⟨cells, save + newlines.length + (c :: more).length, ?_, ?_, behind⟩
    · simp only [strtok, start, if_neg inside, stop, zero, if_true, Nat.add_sub_cancel_left, taken]
    · simp only [List.tail_nil, List.length_nil]
      omega
  · have newline : cells (save + newlines.length + (c :: more).length) = 10 := by
      have zeroth := scan_get behind (i := 0) (by simp)
      simpa using zeroth
    have rest := scan_drop (j := 1) behind (by simp)
    rw [List.drop_one, Nat.sub_sub] at rest
    refine ⟨fun k => if k = save + newlines.length + (c :: more).length then 0 else cells k,
      save + newlines.length + (c :: more).length + 1, ?_, ?_, ?_⟩
    · simp only [strtok, start, if_neg inside, stop, newline, Nat.add_sub_cancel_left, taken]
      rfl
    · rw [List.tail_cons, List.length_cons (a := 10)]
      omega
    · rw [← rest]
      exact scan_elsewhere fun k above => if_neg (by omega)

end Tokens

section Levels
variable (K : Kernel σ) (commands : List (ShellCommand σ))

/-- shell_execute_line where base stands for what happens once the nesting is too deep. -/
def executeOver (base : Exec σ) : Nat → Exec σ
  | 0 => base
  | room + 1 => fun state line =>
    if skipped (line.dropWhile isSpace) then (state, state.world.sh.lastStatus)
    else
      let statements := splitOn 59 (line.dropWhile isSpace)
      runStatements K commands (executeOver base room) (List.range statements.length)
        state.world.sh.lastStatus { state with mem := apply (fillTable .statements statements) state.mem }

/-- A line that does not reach the nesting guard: what is done there does not matter. -/
def Shallow (room : Nat) (w : World σ) (line : Bytes) : Prop :=
  ∀ base mem, executeOver K commands base room ⟨w, mem⟩ line = shellExecuteLine K commands room ⟨w, mem⟩ line

variable {K commands}

theorem shellExecuteLine_over (room extra : Nat) :
    shellExecuteLine K commands (room + extra) = executeOver K commands (shellExecuteLine K commands extra) room := by
  induction room with
  | zero => rw [Nat.zero_add, executeOver]
  | succ room ih =>
    rw [Nat.succ_add]
    funext state line
    rw [shellExecuteLine, executeOver, ih]

theorem Shallow.deeper {room : Nat} {w : World σ} {line : Bytes} (shallow : Shallow K commands room w line) (extra : Nat)
    (mem : Row → Nat → UInt8) :
    shellExecuteLine K commands (room + extra) ⟨w, mem⟩ line = shellExecuteLine K commands room ⟨w, mem⟩ line := by
  rw [shellExecuteLine_over]
  exact shallow _ mem

/-- A command that runs no other line. -/
def Prog.Silent : Prog σ → Prop
  | .done _ _ => True
  | .call _ _ _ => False
  | .load _ next => next.Silent

def Silent (commands : List (ShellCommand σ)) : Prop :=
  ∀ c ∈ commands, ∃ run, c.handler = .other run ∧ ∀ argv w, (run argv w).Silent

theorem runProg_silent {prog : Prog σ} (silent : prog.Silent) (exec exec' : Exec σ) (mem : Row → Nat → UInt8) :
    runProg exec prog mem = runProg exec' prog mem := by
  induction prog generalizing mem with
  | done w status => rfl
  | call w line next ih => cases silent
  | load text next ih => exact ih silent _

theorem runSimple_silent (silent : Silent commands) (exec exec' : Exec σ) :
    runSimple K commands exec = runSimple K commands exec' := by
  funext argv state
  unfold runSimple
  cases argv with
  | nil => rfl
  | cons name args =>
    cases search : commands.find? fun c => c.name == name with
    | none => simp only [search]
    | some command =>
      obtain ⟨run, handler, quiet⟩ := silent command (List.mem_of_find?_eq_some search)
      simp only [search, handler]
      rw [runProg_silent (quiet _ _) exec exec']

theorem runPipeline_silent (silent : Silent commands) (exec exec' : Exec σ) (text : Bytes) (state : State σ) :
    runPipeline K commands exec text state = runPipeline K commands exec' text state := by
  have stage : runStage K commands exec = runStage K commands exec' := by
    funext text piped flow
    unfold runStage
    rw [runSimple_silent silent exec exec']
  have stages (count : Nat) (more : List Nat) (flow : Flow σ) :
      runStages K commands exec count more flow = runStages K commands exec' count more flow := by
    induction more generalizing flow with
    | nil => rfl
    | cons k more ih => rw [runStages, runStages, stage, ih]
  unfold runPipeline
  simp only [stages]

theorem shallow_silent {room : Nat} {w : World σ} {line : Bytes} (silent : Silent commands) (text : Bytes)
    (single : splitOn 59 (line.dropWhile isSpace) = [text]) (clean : 0 ∉ text) (short : text.length < shellLineMax)
    (plain : chainAt text = none) : Shallow K commands (room + 1) w line := by
  intro base mem
  have read : entryText .statements 0 0 ⟨w, apply (fillTable .statements [text]) mem⟩ = text := scan_fill rfl clean short mem
  rw [shellExecuteLine, executeOver]
  simp only [single, List.length_singleton, List.range_one, runStatements, runStatement, runText, read, plain,
    runPipeline_silent silent (executeOver K commands base room) (shellExecuteLine K commands room)]

end Levels

section Sourced
variable (K : Kernel σ) (commands : List (ShellCommand σ))

/-- Lines that are typed one after another. -/
def typeLines (room : Nat) : List Bytes → Int → State σ → State σ × Int
  | [], status, state => (state, status)
  | line :: more, _, state =>
    let ran := shellExecuteLine K commands room state line
    typeLines room more ran.2 ran.1

/-- No line of the script changes the lines behind it, or switches echoing on, or reaches the nesting guard. -/
def Unharmed (room length : Nat) : List (Bytes × Bytes) → World σ → Prop
  | [], _ => True
  | (line, behind) :: more, w =>
    w.sh.echoCommands = false ∧ Shallow K commands room w line ∧
    Keeps (fun state => shellExecuteLine K commands room state line) w .scratch (length - behind.length) behind ∧
    Unharmed room length more (worldAfter (fun state => shellExecuteLine K commands room state line) w)

variable {K commands} {room : Nat}

theorem echoLine_off {w : World σ} (off : w.sh.echoCommands = false) (line : Bytes) : echoLine K line w = w := by
  rw [echoLine, off]
  rfl

theorem sourceLines_typed (extra n save : Nat) (status : Int) (w : World σ) (mem typed : Row → Nat → UInt8) (rest : Bytes)
    (read : scan (mem .scratch) (shellScratchSize - save) save = rest) (inside : save + rest.length < shellScratchSize)
    (enough : (linesFrom [] rest).length ≤ n)
    (kept : Unharmed K commands room (save + rest.length) (linesFrom [] rest) w) :
    Agree (sourceLines K (shellExecuteLine K commands room) n save status ⟨w, mem⟩)
      (typeLines K commands (room + extra) ((linesFrom [] rest).map Prod.fst) status ⟨w, typed⟩) := by
  induction n generalizing save status w mem typed rest with
  | zero =>
    rw [List.eq_nil_of_length_eq_zero (Nat.le_zero.mp enough)]
    exact ⟨rfl, rfl⟩
  | succ n ih =>
    rcases linesFrom_cut rest with ⟨newlines, none_⟩ | ⟨newlines, line, tail, whole, empty, plain, full, cut, lines⟩
    · rw [sourceLines_none (strtok_last read inside newlines), none_]
      exact ⟨rfl, rfl⟩
    · rw [whole] at read inside
      obtain ⟨cells, save', token, place, behind⟩ := strtok_next read inside empty plain full cut
      rw [lines] at kept enough ⊢
      rw [whole, ← place] at kept
      obtain ⟨quiet, shallow, keeps, later⟩ := kept
      rw [Nat.add_sub_cancel] at keeps
      have settled := shellExecuteLine_settled K commands room line
      have after : unread (shellExecuteLine K commands room ⟨w, setScratch cells mem⟩ line).1.mem .scratch save' = tail.tail :=
        keeps (setScratch cells mem) behind
      have world := settled.world (w := w) (setScratch cells mem)
      rw [← world] at later
      rw [sourceLines_some token, echoLine_off quiet, List.map_cons, typeLines, shallow.deeper]
      obtain ⟨sameWorld, sameStatus⟩ := settled.agree (w := w) (setScratch cells mem) typed
      generalize shellExecuteLine K commands room ⟨w, setScratch cells mem⟩ line = ran at after later sameWorld sameStatus ⊢
      generalize shellExecuteLine K commands room ⟨w, typed⟩ line = other at sameWorld sameStatus ⊢
      obtain ⟨⟨now, memory⟩, result⟩ := ran
      obtain ⟨⟨now', memory'⟩, result'⟩ := other
      cases sameWorld
      cases sameStatus
      rw [List.length_cons] at enough
      apply ih save' _ _ _ _ _ after _ (Nat.le_of_succ_le_succ enough) later
      rw [place]
      exact inside

/-- A script that the kernel can read and that is not harmed is run as if it had been typed. -/
theorem source_runs_the_script (K : Kernel σ) (commands : List (ShellCommand σ)) (room : Nat) (name script : Bytes)
    (more : List Bytes) (state : State σ) (w : World σ) (text : Bytes) (sys : σ)
    (scratch : shellScratch K state.world = (true, w))
    (read : K.readFile w.sys (K.resolvePath state.world.sh.cwd script) = (some text, sys))
    (small : text.length ≤ shellScratchSize - 1) (clean : 0 ∉ text)
    (kept : Unharmed K commands room text.length (linesFrom [] text) { w with sys := sys }) :
    Agree (cmdSource K (shellExecuteLine K commands room) (name :: script :: more) state)
      (typeLines K commands (room + 1) (scriptLines text) 0 ⟨{ w with sys := sys }, state.mem⟩) := by
  have room_ : text.length < shellScratchSize := Nat.lt_of_le_of_lt small (by decide)
  have loaded : scan (apply (scratchText text) state.mem .scratch) shellScratchSize 0 = text := by
    have cells : scratchText text .scratch = text ++ [0] := by
      rw [scratchText, strcpy, if_pos rfl, List.take_of_length_le small]
    rw [apply, cells, scan_cover (ended_string text), List.drop_zero, takeWhile_clean clean]
    · rw [List.length_append, List.length_singleton]
      omega
    · rw [List.length_append, List.length_singleton, Nat.zero_add]
      exact room_
  have lines : (linesFrom [] text).length ≤ shellScratchSize := by
    have length := linesFrom_length [] text
    rw [List.length_nil] at length
    omega
  have first : (linesFrom [] text).map Prod.fst = scriptLines text := linesFrom_fst [] text List.not_mem_nil
  simp only [cmdSource, scratch, read]
  rw [← first]
  apply sourceLines_typed 1 _ 0 0 _ _ _ text loaded _ lines
  · rw [Nat.zero_add]
    exact kept
  · rw [Nat.zero_add]
    exact room_

end Sourced

section Samples

/-- A system with a console and the files f and g. -/
def twoFiles (f g : Bytes) : Kernel Bytes :=
  { console with
    readFile := fun out path =>
      (if path = ascii "f" then some f else if path = ascii "g" then some g else none, out) }

def onlyEcho (K : Kernel Bytes) : List (ShellCommand Bytes) := [⟨ascii "echo", false, .other (cmdEcho K)⟩]

theorem onlyEcho_silent (K : Kernel Bytes) : Silent (onlyEcho K) := by
  intro c member
  cases List.mem_singleton.mp member
  exact ⟨_, rfl, fun _ _ => trivial⟩

def bufferedState : State Bytes := ⟨⟨freshShell, [], true⟩, noBuffers⟩

/-- The second line reads a file of thirty characters over what is left of the script. -/
theorem input_replaces_the_script : ¬ ∀ f g : Bytes, f.length ≤ shellScratchSize - 1 → 0 ∉ f →
    Agree (cmdSource (twoFiles f g) (shellExecuteLine (twoFiles f g) (onlyEcho (twoFiles f g)) 8) [ascii "source", ascii "f"] bufferedState)
      (typeLines (twoFiles f g) (onlyEcho (twoFiles f g)) 9 (scriptLines f) 0 bufferedState) := by
  intro all
  have agree := all (ascii "echo a\necho x < g\necho c\n") (List.replicate 30 122) (by decide) (by decide)
  have output := congrArg World.sys agree.1
  revert output
  decide

theorem two_echoes_sourced :
    Agree (cmdSource (twoFiles (ascii "echo a\n\necho b\n") []) (shellExecuteLine (twoFiles (ascii "echo a\n\necho b\n") [])
        (onlyEcho (twoFiles (ascii "echo a\n\necho b\n") [])) 8) [ascii "source", ascii "f"] bufferedState)
      (typeLines (twoFiles (ascii "echo a\n\necho b\n") []) (onlyEcho (twoFiles (ascii "echo a\n\necho b\n") [])) 9
        (scriptLines (ascii "echo a\n\necho b\n")) 0 bufferedState) := by
  have silent := onlyEcho_silent (twoFiles (ascii "echo a\n\necho b\n") [])
  have settled := shellExecuteLine_settled (twoFiles (ascii "echo a\n\necho b\n") [])
    (onlyEcho (twoFiles (ascii "echo a\n\necho b\n") [])) 8
  have lines : linesFrom [] (ascii "echo a\n\necho b\n") = [(ascii "echo a", ascii "\necho b\n"), (ascii "echo b", [])] := by decide
  apply source_runs_the_script _ _ 8 (ascii "source") (ascii "f") [] bufferedState bufferedState.world (ascii "echo a\n\necho b\n") []
    rfl (by decide) (by decide) (by decide)
  rw [lines]
  refine ⟨rfl, ?_, ?_, ?_, ?_, ?_, trivial⟩
  · exact shallow_silent silent (ascii "echo a") (by decide) (by decide) (by decide) (by decide)
  · exact (settled (ascii "echo a")).keeps (apply (scratchText (ascii "echo a\n\necho b\n")) noBuffers) (by decide)
  · decide
  · exact shallow_silent silent (ascii "echo b") (by decide) (by decide) (by decide) (by decide)
  · exact (settled (ascii "echo b")).keeps (apply (scratchText (ascii "echo a\n\necho b\n")) noBuffers) (by decide)

end Samples

end Qito.Shells
