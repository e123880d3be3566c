import Mathlib.Data.List.Count
import Qito.Shells.Tokens

/-! What lines and commands do to the variables and the sink of their shell. Commands reach
the variables only through shell_set_var and shell_unset_var, and write to the sink. -/
namespace Qito.Shells

variable {σ : Type}

/-- Writes to the sink, variables set and unset, and changes of the other fields. -/
inductive Touched (sh : Shell) : Shell → Prop
  | start : Touched sh sh
  | write {sh' : Shell} {sink : Sink} (more : Bytes) (truncated : Bool) : Touched sh sh' → sh'.sink = some sink →
      Touched sh { sh' with sink := some ⟨sink.buffer ++ more, truncated⟩ }
  | set {sh' : Shell} {name : Bytes} (value : Bytes) : Touched sh sh' → 0 ∉ name → Touched sh (shellSetVar sh' name value)
  | unset {sh' : Shell} (name : Bytes) : Touched sh sh' → Touched sh (shellUnsetVar sh' name)
  | other {sh' sh'' : Shell} : Touched sh sh' → sh''.vars = sh'.vars → sh''.sink = sh'.sink → Touched sh sh''

/-- What a command does up to each line that it runs, and up to its end. -/
def Prog.Touches : Shell → Prog σ → Prop
  | sh, .done w _ => Touched sh w.sh
  | sh, .call w _ next => Touched sh w.sh ∧ ∀ w' status, (next w' status).Touches w'.sh
  | sh, .load _ next => next.Touches sh

def CommandsTouch (commands : List (ShellCommand σ)) : Prop :=
  ∀ command ∈ commands, ∀ run, command.handler = .other run → ∀ argv w, (run argv w).Touches w.sh

def LinesTouch (exec : Exec σ) : Prop := ∀ state line, Touched state.world.sh (exec state line).1.world.sh

section Relation
variable {a b c sh sh' : Shell}

theorem Touched.trans (first : Touched a b) (second : Touched b c) : Touched a c := by
  induction second with
  | start => exact first
  | write more truncated _ there ih => exact .write more truncated ih there
  | set value _ plain ih => exact .set value ih plain
  | unset name _ ih => exact .unset name ih
  | other _ vars sink ih => exact .other ih vars sink

theorem shellSetVar_sink (sh : Shell) (sink : Option Sink) (name value : Bytes) :
    shellSetVar { sh with sink := sink } name value = { shellSetVar sh name value with sink := sink } := by
  unfold shellSetVar
  dsimp only
  split
  · rfl
  · split
    · rfl
    · rfl

theorem shellUnsetVar_sink (sh : Shell) (sink : Option Sink) (name : Bytes) :
    shellUnsetVar { sh with sink := sink } name = { shellUnsetVar sh name with sink := sink } := by
  unfold shellUnsetVar
  dsimp only
  split
  · rfl
  · split
    · rfl
    · rfl

theorem Touched.captured {inner : Option Sink} (touched : Touched { sh with sink := inner } sh') :
    Touched sh { sh' with sink := sh.sink } := by
  induction touched with
  | start => exact .start
  | write more truncated _ _ ih => exact ih
  | @set sh' name value _ plain ih =>
    rw [← shellSetVar_sink]
    exact .set value ih plain
  | @unset sh' name _ ih =>
    rw [← shellUnsetVar_sink]
    exact .unset name ih
  | other _ vars _ ih => exact .other ih vars rfl

end Relation

section Interpreter
variable {K : Kernel σ} {commands : List (ShellCommand σ)} {exec : Exec σ}

theorem shellWrite_touches (w : World σ) (text : Bytes) : Touched w.sh (shellWrite K w text).sh := by
  unfold shellWrite
  split
  · rename_i sink there
    exact .write _ _ .start there
  · exact .start

theorem shellPrintf_touches (w : World σ) (text : Bytes) : Touched w.sh (shellPrintf K w text).sh := by
  unfold shellPrintf
  split
  · exact .start
  · exact shellWrite_touches w _

theorem shellColor_touches (w : World σ) (text : Bytes) : Touched w.sh (shellColor K w text).sh := by
  unfold shellColor
  split
  · exact shellWrite_touches w _
  · exact .start

theorem shellError_touches (w : World σ) (message : Bytes) : Touched w.sh (shellError K w message).sh :=
  ((shellColor_touches w _).trans (shellPrintf_touches _ _)).trans (shellColor_touches _ _)

theorem notFound_touches (name : Bytes) (w : World σ) : Touched w.sh (notFound K name w).sh :=
  (((shellColor_touches w _).trans (shellPrintf_touches _ _)).trans (shellColor_touches _ _)).trans (shellPrintf_touches _ _)

theorem echoLine_touches (line : Bytes) (w : World σ) : Touched w.sh (echoLine K line w).sh := by
  unfold echoLine
  split
  · exact shellPrintf_touches w _
  · exact .start

theorem shellScratch_sh (w : World σ) : (shellScratch K w).2.sh = w.sh := by
  unfold shellScratch
  split
  · rfl
  · rfl

theorem setPipe_touches (text : Bytes) (w : World σ) : Touched w.sh (setPipe text w).sh := .set text .start (by decide)

theorem sourceLines_touches (lines : LinesTouch exec) (n save : Nat) (status : Int) (state : State σ) :
    Touched state.world.sh (sourceLines K exec n save status state).1.world.sh := by
  induction n generalizing save status state with
  | zero => exact .start
  | succ n ih =>
    unfold sourceLines
    split
    · exact .start
    · rename_i line cells save _
      have ran := lines ⟨echoLine K line state.world, setScratch cells state.mem⟩ line
      exact ((echoLine_touches line state.world).trans ran).trans (ih _ _ _)

theorem cmdSource_touches (lines : LinesTouch exec) (argv : List Bytes) (state : State σ) :
    Touched state.world.sh (cmdSource K exec argv state).1.world.sh := by
  unfold cmdSource
  split
  · rename_i name script more
    have kept := shellScratch_sh (K := K) state.world
    cases scratch : shellScratch K state.world with
    | mk there w =>
      rw [scratch] at kept
      simp only at kept ⊢
      rw [← kept]
      cases there with
      | false => exact shellError_touches w _
      | true =>
        cases read : K.readFile w.sys (K.resolvePath w.sh.cwd script) with
        | mk text sys =>
          cases text with
          | none =>
            simp only [Bool.not_true, Bool.false_eq_true, if_false]
            exact shellError_touches { w with sys := sys } _
          | some text =>
            simp only [Bool.not_true, Bool.false_eq_true, if_false]
            exact sourceLines_touches lines _ _ _ ⟨{ w with sys := sys }, _⟩
  · exact shellError_touches state.world _

theorem runProg_touches (lines : LinesTouch exec) {sh : Shell} (prog : Prog σ) (touches : prog.Touches sh) (mem : Row → Nat → UInt8) :
    Touched sh (runProg exec prog mem).1.world.sh := by
  induction prog generalizing sh mem with
  | done w status => exact touches
  | call w line next ih => exact (touches.1.trans (lines ⟨w, mem⟩ line)).trans (ih _ _ (touches.2 _ _) _)
  | load text next ih => exact ih touches _

theorem countRun_touches (w : World σ) : Touched w.sh (countRun w).sh := .other .start rfl rfl

theorem setStatus_touches (status : Int) (w : World σ) : Touched w.sh (setStatus status w).sh := .other .start rfl rfl

theorem runSimple_touches (tame : CommandsTouch commands) (lines : LinesTouch exec) (argv : List Bytes) (state : State σ) :
    Touched state.world.sh (runSimple K commands exec argv state).1.world.sh := by
  unfold runSimple
  split
  · exact .start
  · split
    · exact notFound_touches _ _
    · rename_i command found
      split
      · exact shellError_touches _ _
      · split
        · exact (countRun_touches state.world).trans (cmdSource_touches lines _ (state.map countRun))
        · rename_i run handler
          have member := List.mem_of_find?_eq_some found
          exact (countRun_touches state.world).trans (runProg_touches lines _ (tame command member run handler _ _) _)

theorem readInput_touches {raw : Bytes} {state after : State σ} {opened : Bool} (input : readInput K raw state = (opened, after)) :
    Touched state.world.sh after.world.sh := by
  have kept := shellScratch_sh (K := K) state.world
  obtain rfl : (readInput K raw state).2 = after := congrArg Prod.snd input
  clear input
  unfold readInput
  cases scratch : shellScratch K state.world with
  | mk there w =>
    rw [scratch] at kept
    simp only at kept ⊢
    rw [← kept]
    cases there with
    | false => exact shellError_touches w _
    | true =>
      cases read : K.readFile w.sys (K.resolvePath w.sh.cwd raw) with
      | mk text sys =>
        cases text with
        | none =>
          simp only [Bool.not_true, Bool.false_eq_true, if_false]
          exact shellError_touches { w with sys := sys } _
        | some text =>
          simp only [Bool.not_true, Bool.false_eq_true, if_false]
          exact setPipe_touches _ { w with sys := sys }

theorem wordsOf_touches (pipe : Option Bytes) (redirect : Option (Bytes × Bool)) (text : Bytes) (state : State σ) :
    Touched state.world.sh (wordsOf pipe redirect text state).2.world.sh := by
  cases pipe with
  | none => exact .start
  | some piped => exact setPipe_touches piped state.world

theorem prepareStage_touches (segment : Bytes) (pipe : Option Bytes) (state : State σ) :
    Touched state.world.sh (prepareStage K segment pipe state).2.world.sh := by
  unfold prepareStage
  dsimp only
  split
  · exact wordsOf_touches _ _ _ state
  · split
    · rename_i failed
      exact readInput_touches failed
    · rename_i opened
      exact (readInput_touches opened).trans (wordsOf_touches _ _ _ _)

theorem deliver_touches (redirect : Option (Bytes × Bool)) (output : Bytes) (state : State σ) (status : Int) :
    Touched state.world.sh (deliver K redirect output (state, status)).1.world.sh := by
  unfold deliver
  split
  · exact .start
  · split
    · exact Touched.start
    · rename_i sys _
      exact shellError_touches { state.world with sys := sys } _

theorem runStage_touches (tame : CommandsTouch commands) (lines : LinesTouch exec) (text : Bytes) (piped : Bool) (flow : Flow σ) :
    Touched flow.state.world.sh (runStage K commands exec text piped flow).state.world.sh := by
  have prepared := prepareStage_touches (K := K) text flow.pipe flow.state
  unfold runStage
  split
  · rename_i same
    rw [same] at prepared
    exact prepared
  · rename_i same
    rw [same] at prepared
    exact prepared
  · rename_i argv redirect state same
    rw [same] at prepared
    split
    · split
      · have ran := (runSimple_touches (K := K) tame lines argv
          (state.map fun w => setSink (some ⟨[], false⟩) { w with sys := (K.kmalloc w.sys).2 })).captured
        generalize runSimple K commands exec argv (state.map fun w =>
          setSink (some ⟨[], false⟩) { w with sys := (K.kmalloc w.sys).2 }) = result at ran ⊢
        exact (prepared.trans ran).trans (deliver_touches redirect _ (result.1.map (setSink state.world.sh.sink)) result.2)
      · exact prepared.trans (shellError_touches { state.world with sys := (K.kmalloc state.world.sys).2 } _)
    · exact prepared.trans (runSimple_touches tame lines argv state)

theorem runStages_touches (tame : CommandsTouch commands) (lines : LinesTouch exec) (count : Nat) (ks : List Nat) (flow : Flow σ) :
    Touched flow.state.world.sh (runStages K commands exec count ks flow).state.world.sh := by
  induction ks generalizing flow with
  | nil => exact .start
  | cons k more ih =>
    unfold runStages
    split
    · exact .start
    · exact (runStage_touches tame lines _ _ flow).trans (ih _)

theorem runPipeline_touches (tame : CommandsTouch commands) (lines : LinesTouch exec) (text : Bytes) (state : State σ) :
    Touched state.world.sh (runPipeline K commands exec text state).1.world.sh := by
  unfold runPipeline
  dsimp only
  have ran := runStages_touches (K := K) tame lines (splitOn 124 text).length (List.range (splitOn 124 text).length)
    ⟨{ state with mem := Rows.apply (fillTable .stages (splitOn 124 text)) state.mem }, 0, none, false⟩
  unfold endPipeline
  split
  · exact ran
  · exact .unset pipeInput ran

theorem runText_touches (tame : CommandsTouch commands) (lines : LinesTouch exec) (text : Bytes) (right : Nat → State σ → Bytes)
    (state : State σ) : Touched state.world.sh (runText K commands exec text right state).1.world.sh := by
  unfold runText
  split
  · exact (runPipeline_touches tame lines text state).trans (setStatus_touches _ _)
  · rename_i split _
    have left := (lines state (text.take split)).trans (setStatus_touches (exec state (text.take split)).2 _)
    dsimp only
    split
    · exact (left.trans (lines ((exec state (text.take split)).1.map (setStatus (exec state (text.take split)).2)) _)).trans
        (setStatus_touches _ _)
    · exact left

theorem runStatements_touches (tame : CommandsTouch commands) (lines : LinesTouch exec) (more : List Nat) (status : Int)
    (state : State σ) : Touched state.world.sh (runStatements K commands exec more status state).1.world.sh := by
  induction more generalizing status state with
  | nil => exact .start
  | cons s more ih => exact (runText_touches tame lines _ _ state).trans (ih _ _)

theorem shellExecuteLine_touches (K : Kernel σ) (tame : CommandsTouch commands) (room : Nat) :
    LinesTouch (shellExecuteLine K commands room) := by
  induction room with
  | zero =>
    intro state line
    unfold shellExecuteLine
    split
    · exact .start
    · exact shellError_touches _ _
  | succ room ih =>
    intro state line
    unfold shellExecuteLine
    split
    · exact .start
    · have ran := runStatements_touches (K := K) tame ih (List.range (splitOn 59 (line.dropWhile isSpace)).length)
        state.world.sh.lastStatus ⟨state.world, Rows.apply (fillTable .statements (splitOn 59 (line.dropWhile isSpace))) state.mem⟩
      exact ran

theorem cmdEcho_touches (argv : List Bytes) (w : World σ) : (cmdEcho K argv w).Touches w.sh := by
  have printed (texts : List Bytes) (w : World σ) : Touched w.sh (texts.foldl (shellPrintf K) w).sh := by
    induction texts generalizing w with
    | nil => exact .start
    | cons text texts ih => exact (shellPrintf_touches w text).trans (ih _)
  unfold cmdEcho
  dsimp only
  split
  · exact (printed _ w).trans (shellPrintf_touches _ _)
  · exact printed _ w

theorem cmdRepeat_touches (argv : List Bytes) (w : World σ) : (cmdRepeat K argv w).Touches w.sh := by
  have loop (n : Nat) (command : Bytes) (status : Int) (w : World σ) : (repeatLoop command n status w).Touches w.sh := by
    induction n generalizing status w with
    | zero => exact .start
    | succ n ih => exact ⟨.start, fun w' status => ih status w'⟩
  unfold cmdRepeat
  split
  · split
    · exact shellError_touches _ _
    · exact loop _ _ _ w
  · exact shellError_touches _ _

end Interpreter

end Qito.Shells
