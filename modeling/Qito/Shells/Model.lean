import Qito.Lib.Rows

/-! The interpreter of user/shells/shell_core.c, with cmd_source and cmd_repeat of
the UltraShell. Statements and stages are kept in static buffers that all nested
calls share, and a script in the scratch buffer that all commands share. -/
namespace Qito.Shells
open Rows

abbrev Bytes := List UInt8

abbrev shellLineMax : Nat := 1024
abbrev shellArgsMax : Nat := 64
abbrev shellVarsMax : Nat := 64
abbrev shellPipeMax : Nat := 8
abbrev shellNameMax : Nat := 32
abbrev shellValueMax : Nat := 256
abbrev shellScratchSize : Nat := 16384
abbrev pipeBufferSize : Nat := 32768
abbrev fsPathMax : Nat := 512

def ascii (s : String) : Bytes := s.toList.map fun c => UInt8.ofNat c.toNat

theorem ascii_ofList (cs : List Char) : ascii (String.ofList cs) = cs.map fun c => UInt8.ofNat c.toNat := by
  rw [ascii, String.toList_ofList]

def isSpace (c : UInt8) : Bool := c == 32 || decide (9 ≤ c ∧ c ≤ 13)

def isNameChar (c : UInt8) : Bool :=
  decide (97 ≤ c ∧ c ≤ 122) || decide (65 ≤ c ∧ c ≤ 90) || decide (48 ≤ c ∧ c ≤ 57) || c == 95

/-- The text before the terminator. -/
def cstr (text : Bytes) : Bytes := text.takeWhile (· != 0)

def strlcpy (text : Bytes) (size : Nat) : Bytes := (cstr text).take (size - 1)

/-- Where a text first occurs; the needle is not empty. -/
def strstr (needle : Bytes) : Bytes → Option Nat
  | [] => none
  | c :: rest => if needle.isPrefixOf (c :: rest) then some 0 else (strstr needle rest).map (· + 1)

def stripEnd (drop : UInt8 → Bool) (text : Bytes) : Bytes := (text.reverse.dropWhile drop).reverse

structure ShellVar where
  name : Bytes
  value : Bytes
  readonly : Bool

structure ShellAlias where
  name : Bytes
  expansion : Bytes

/-- What has been captured of a command's output. -/
structure Sink where
  buffer : Bytes
  truncated : Bool
deriving DecidableEq

structure Shell where
  name : Bytes
  vars : List ShellVar
  aliases : List ShellAlias
  cwd : Bytes
  lastStatus : Int
  echoCommands : Bool
  sink : Option Sink
  commandsRun : Nat

/-- The shell and the rest of the system, and whether there is a scratch buffer. -/
structure World (σ : Type) where
  sh : Shell
  sys : σ
  scratch : Bool

/-- The kernel as the interpreter uses it; readFile reads one byte less than the
scratch buffer has, and writeFile opens, appends or truncates, and writes. -/
structure Kernel (σ : Type) where
  consoleWrite : σ → Bytes → σ
  kmalloc : σ → Bool × σ
  resolvePath : Bytes → Bytes → Bytes
  readFile : σ → Bytes → Option Bytes × σ
  writeFile : σ → Bytes → Bool → Bytes → Bool × σ
  currentPid : σ → Int
  privileged : σ → Bool

inductive Table where
  | statements
  | stages
deriving DecidableEq

inductive Row where
  | entry (table : Table) (i : Nat)
  | scratch
deriving DecidableEq

structure State (σ : Type) where
  world : World σ
  mem : Row → Nat → UInt8

variable {σ : Type}

section Variables

def shellGetVar (sh : Shell) (name : Bytes) : Option Bytes := (sh.vars.find? fun v => v.name == name).map ShellVar.value

def shellSetVar (sh : Shell) (name value : Bytes) : Shell :=
  match sh.vars.findIdx? fun v => v.name == name with
  | some i => { sh with
      vars := sh.vars.modify i fun v => if v.readonly then v else { v with value := strlcpy value shellValueMax } }
  | none =>
    if sh.vars.length < shellVarsMax then
      { sh with vars := sh.vars ++ [⟨strlcpy name shellNameMax, strlcpy value shellValueMax, false⟩] }
    else sh

/-- The last variable takes the place of the one that goes. -/
def shellUnsetVar (sh : Shell) (name : Bytes) : Shell :=
  match sh.vars.findIdx? fun v => v.name == name with
  | none => sh
  | some i =>
    if (sh.vars[i]?.map ShellVar.readonly).getD false then sh
    else { sh with vars := (sh.vars.modify i fun v => sh.vars.getLastD v).dropLast }

def shellGetAlias (sh : Shell) (name : Bytes) : Option Bytes :=
  (sh.aliases.find? fun a => a.name == name).map ShellAlias.expansion

end Variables

section Output
variable (K : Kernel σ)

def shellWrite (w : World σ) (text : Bytes) : World σ :=
  match w.sh.sink with
  | some sink =>
    let space := pipeBufferSize - sink.buffer.length - 1
    { w with sh := { w.sh with
        sink := some ⟨sink.buffer ++ text.take space, sink.truncated || decide (space < text.length)⟩ } }
  | none => { w with sys := K.consoleWrite w.sys text }

def shellPrintf (w : World σ) (text : Bytes) : World σ := if text = [] then w else shellWrite K w (text.take 2047)

def colorEnabled (sh : Shell) : Bool :=
  sh.sink.isNone && ((shellGetVar sh (ascii "COLOR")).map fun value => value.head? != some 48).getD false

def shellColor (w : World σ) (ansi : Bytes) : World σ := if colorEnabled w.sh then shellWrite K w ansi else w

def shellError (w : World σ) (message : Bytes) : World σ :=
  let w := shellColor K w (ascii "\x1b[91m")
  let w := shellPrintf K w (w.sh.name ++ ascii ": " ++ message.take 1023 ++ ascii "\n")
  shellColor K w (ascii "\x1b[0m")

end Output

section Parsing

/-- What comes for a dollar: a text and how much of the input it stands for; none
where the dollar stands for itself. -/
def dollar (sh : Shell) (pid : Int) (rest : Bytes) : Option (Bytes × Nat) :=
  if rest.head? = some 63 then some (ascii (toString sh.lastStatus), 1)
  else if rest.head? = some 36 then some (ascii (toString pid), 1)
  else
    let braced := rest.head? = some 123
    let start := if braced then rest.tail else rest
    let name := (start.takeWhile isNameChar).take (shellNameMax - 1)
    if name = [] then none
    else if braced ∧ (start.drop name.length).head? ≠ some 125 then none
    else some ((shellGetVar sh name).getD [], name.length + if braced then 2 else 0)

/-- The loop of shell_expand without the bound on the output. skip characters are
passed over, and start says that a word can start here. -/
def expandFrom (sh : Shell) (pid : Int) : Nat → Bool → Bool → Bytes → Bytes
  | _, _, _, [] => []
  | skip + 1, single, _, c :: rest => expandFrom sh pid skip single (isSpace c) rest
  | 0, single, start, c :: rest =>
    if c = 39 then c :: expandFrom sh pid 0 (!single) (isSpace c) rest
    else if single then c :: expandFrom sh pid 0 single (isSpace c) rest
    else if c = 92 ∧ rest ≠ [] then c :: rest.take 1 ++ expandFrom sh pid 1 single (isSpace c) rest
    else if c = 126 ∧ start ∧ (rest = [] ∨ rest.head? = some 47 ∨ (rest.head?.map isSpace).getD false) ∧
        (shellGetVar sh (ascii "HOME")).isSome then
      (shellGetVar sh (ascii "HOME")).getD [] ++ expandFrom sh pid 0 single (isSpace c) rest
    else if c ≠ 36 then c :: expandFrom sh pid 0 single (isSpace c) rest
    else
      match dollar sh pid rest with
      | none => c :: expandFrom sh pid 0 single (isSpace c) rest
      | some (text, used) => text ++ expandFrom sh pid used single (isSpace c) rest

/-- The output is cut where the buffer ends. -/
def shellExpand (sh : Shell) (pid : Int) (input : Bytes) : Bytes :=
  (expandFrom sh pid 0 false true input).take (shellLineMax - 1)

/-- The token so far, the open quote, and whether the next character is taken as it is. -/
def tokensFrom : Option Bytes → Option UInt8 → Bool → Bytes → List Bytes
  | token, _, _, [] => token.toList
  | token, quote, true, c :: rest => tokensFrom (some (token.getD [] ++ [c])) quote false rest
  | token, quote, false, c :: rest =>
    if token = none ∧ isSpace c then tokensFrom none quote false rest
    else if quote = some c then tokensFrom (some (token.getD [])) none false rest
    else if quote = none ∧ (c = 34 ∨ c = 39) then tokensFrom (some (token.getD [])) (some c) false rest
    else if quote = none ∧ isSpace c then token.getD [] :: tokensFrom none none false rest
    else if c = 92 ∧ quote ≠ some 39 ∧ rest ≠ [] then tokensFrom (some (token.getD [])) quote true rest
    else tokensFrom (some (token.getD [] ++ [c])) quote false rest

def shellTokenize (input : Bytes) : List Bytes := (tokensFrom none none false input).take (shellArgsMax - 1)

/-- The parts between the unquoted separators; the open quote and the part so far. -/
@[grind =] def partsFrom (separator : UInt8) : Option UInt8 → Bytes → Bytes → List Bytes
  | _, part, [] => [part]
  | some q, part, c :: rest => partsFrom separator (if c = q then none else some q) (part ++ [c]) rest
  | none, part, c :: rest =>
    if c = 34 ∨ c = 39 then partsFrom separator (some c) (part ++ [c]) rest
    else if c = separator then part :: partsFrom separator none [] rest
    else partsFrom separator none (part ++ [c]) rest

def parts (separator : UInt8) (line : Bytes) : List Bytes := partsFrom separator none [] line

/-- The first of && and ||, and whether it is &&. -/
def chainAt (text : Bytes) : Option (Bool × Nat) :=
  match strstr [38, 38] text, strstr [124, 124] text with
  | none, none => none
  | some i, none => some (true, i)
  | none, some j => some (false, j)
  | some i, some j => if i < j then some (true, i) else some (false, j)

/-- The arrow of an output redirection, and whether it appends. -/
def arrowAt (text : Bytes) : Option (Nat × Bool) :=
  match strstr [62, 62] text with
  | some i => some (i, true)
  | none => (text.findIdx? (· == 62)).map fun i => (i, false)

def redirectName (text : Bytes) (arrow : Nat × Bool) : Bytes :=
  let raw := ((text.drop (arrow.1 + if arrow.2 then 2 else 1)).dropWhile isSpace).take (fsPathMax - 1)
  let raw := stripEnd (fun c => isSpace c || c == 34) raw
  if raw.head? = some 34 then raw.tail else raw

def inputName (text : Bytes) (arrow : Nat) : Bytes :=
  stripEnd isSpace (((text.drop (arrow + 1)).dropWhile isSpace).take (fsPathMax - 1))

end Parsing

/-- What a command does: it ends, runs a line in the same shell, or fills the
scratch buffer. -/
inductive Prog (σ : Type) where
  | done (world : World σ) (status : Int)
  | call (world : World σ) (line : Bytes) (next : World σ → Int → Prog σ)
  | load (text : Bytes) (next : Prog σ)

/-- Only cmd_source reads the scratch buffer after it has run other commands. -/
inductive Handler (σ : Type) where
  | source
  | other (run : List Bytes → World σ → Prog σ)

structure ShellCommand (σ : Type) where
  name : Bytes
  privileged : Bool
  handler : Handler σ

abbrev Exec (σ : Type) := State σ → Bytes → State σ × Int

section Scratch
variable (K : Kernel σ)

/-- shell_scratch: whether there is a buffer. -/
def shellScratch (w : World σ) : Bool × World σ :=
  if w.scratch then (true, w)
  else ((K.kmalloc w.sys).1, { w with sys := (K.kmalloc w.sys).2, scratch := (K.kmalloc w.sys).1 })

def scratchText (text : Bytes) : Patch Row := strcpy .scratch (text.take (shellScratchSize - 1))

/-- The first cell from k on that does not satisfy skip. -/
def passOver (cells : Nat → UInt8) (skip : UInt8 → Bool) : Nat → Nat → Nat
  | 0, k => k
  | n + 1, k => if skip (cells k) then passOver cells skip n (k + 1) else k

/-- strtok_r(NULL, "\n", &save) in the scratch buffer: the line, what is left of the
buffer, and the new save. -/
def strtok (cells : Nat → UInt8) (save : Nat) : Option (Bytes × (Nat → UInt8) × Nat) :=
  let start := passOver cells (· == 10) (shellScratchSize - save) save
  if cells start = 0 ∨ shellScratchSize ≤ start then none
  else
    let stop := passOver cells (fun c => c != 10 && c != 0) (shellScratchSize - start) start
    let line := (List.range (stop - start)).map fun i => cells (start + i)
    if cells stop = 0 then some (line, cells, stop)
    else some (line, fun k => if k = stop then 0 else cells k, stop + 1)

def setScratch (cells : Nat → UInt8) (mem : Row → Nat → UInt8) : Row → Nat → UInt8 := fun r =>
  if r = .scratch then cells else mem r

def echoLine (line : Bytes) (w : World σ) : World σ :=
  if w.sh.echoCommands then shellPrintf K w (ascii "+ " ++ line ++ ascii "\n") else w

/-- The loop of cmd_source. -/
def sourceLines (exec : Exec σ) : Nat → Nat → Int → State σ → State σ × Int
  | 0, _, status, state => (state, status)
  | n + 1, save, status, state =>
    match strtok (state.mem .scratch) save with
    | none => (state, status)
    | some (line, cells, save) =>
      let ran := exec ⟨echoLine K line state.world, setScratch cells state.mem⟩ line
      sourceLines exec n save ran.2 ran.1

def cmdSource (exec : Exec σ) (argv : List Bytes) (state : State σ) : State σ × Int :=
  match argv with
  | _ :: script :: _ =>
    let resolved := K.resolvePath state.world.sh.cwd script
    let (there, w) := shellScratch K state.world
    if !there then ({ state with world := shellError K w (ascii "out of memory") }, 1)
    else
      match K.readFile w.sys resolved with
      | (none, sys) =>
        let w := { w with sys := sys }
        ({ state with world := shellError K w (ascii "source: " ++ script ++ ascii ": no such file or directory") }, 1)
      | (some text, sys) =>
        sourceLines K exec shellScratchSize 0 0 ⟨{ w with sys := sys }, apply (scratchText text) state.mem⟩
  | _ => ({ state with world := shellError K state.world (ascii "usage: source <script>") }, 1)

end Scratch

section Commands
variable (K : Kernel σ)

def atoi (text : Bytes) : Int :=
  let text := text.dropWhile isSpace
  let negative := text.head? = some 45
  let digits := if negative ∨ text.head? = some 43 then text.tail else text
  let value : Nat := (digits.takeWhile fun c => decide (48 ≤ c ∧ c ≤ 57)).foldl (fun v c => v * 10 + (c.toNat - 48)) 0
  Int.bmod (if negative then -(value : Int) else value) (2 ^ 32)

/-- The arguments with blanks between them, as strlcat puts them together. -/
def joinArgs (args : List Bytes) : Bytes := ((args.intersperse [32]).flatten).take (shellLineMax - 1)

def repeatLoop (command : Bytes) : Nat → Int → World σ → Prog σ
  | 0, status, w => .done w status
  | n + 1, _, w => .call w command fun w status => repeatLoop command n status w

def cmdRepeat (argv : List Bytes) (w : World σ) : Prog σ :=
  match argv with
  | _ :: count :: first :: more =>
    if atoi count < 1 ∨ 1000 < atoi count then
      .done (shellError K w (ascii "repeat: count must be between 1 and 1000")) 1
    else repeatLoop (joinArgs (first :: more)) (atoi count).toNat 0 w
  | _ => .done (shellError K w (ascii "usage: repeat <count> <command>...")) 1

def cmdEcho (argv : List Bytes) (w : World σ) : Prog σ :=
  let newline := argv[1]? ≠ some (ascii "-n")
  let args := argv.drop (if newline then 1 else 2)
  let w := (args.dropLast.map (· ++ [32]) ++ args.getLast?.toList).foldl (shellPrintf K) w
  .done (if newline then shellPrintf K w [10] else w) 0

end Commands

section Running
variable (K : Kernel σ) (commands : List (ShellCommand σ)) (exec : Exec σ)

def runProg : Prog σ → (Row → Nat → UInt8) → State σ × Int
  | .done w status, mem => (⟨w, mem⟩, status)
  | .call w line next, mem =>
    let ran := exec ⟨w, mem⟩ line
    runProg (next ran.1.world ran.2) ran.1.mem
  | .load text next, mem => runProg next (apply (scratchText text) mem)

def State.map (state : State σ) (f : World σ → World σ) : State σ := { state with world := f state.world }

def setStatus (status : Int) (w : World σ) : World σ := { w with sh := { w.sh with lastStatus := status } }

def setSink (sink : Option Sink) (w : World σ) : World σ := { w with sh := { w.sh with sink := sink } }

def countRun (w : World σ) : World σ := { w with sh := { w.sh with commandsRun := w.sh.commandsRun + 1 } }

def notFound (name : Bytes) (w : World σ) : World σ :=
  let w := shellColor K w (ascii "\x1b[91m")
  let w := shellPrintf K w (w.sh.name ++ ascii ": command not found: " ++ name ++ ascii "\n")
  let w := shellColor K w (ascii "\x1b[0m")
  shellPrintf K w (ascii "Try 'help' for a list of available commands.\n")

def runSimple (argv : List Bytes) (state : State σ) : State σ × Int :=
  match argv with
  | [] => (state, 0)
  | name :: _ =>
    match commands.find? fun c => c.name == name with
    | none => (state.map (notFound K name), 127)
    | some command =>
      if command.privileged && !K.privileged state.world.sys then
        (state.map fun w => shellError K w (command.name ++ ascii ": permission denied (requires root)"), 126)
      else
        match command.handler with
        | .source => cmdSource K exec argv (state.map countRun)
        | .other run => runProg exec (run argv (countRun state.world)) state.mem

def pipeInput : Bytes := ascii "QITO_PIPE_INPUT"

def setPipe (text : Bytes) (w : World σ) : World σ := { w with sh := shellSetVar w.sh pipeInput text }

/-- The input redirection; none when the file cannot be opened. -/
def readInput (raw : Bytes) (state : State σ) : Bool × State σ :=
  let path := K.resolvePath state.world.sh.cwd raw
  let (there, w) := shellScratch K state.world
  if !there then (false, { state with world := shellError K w (path ++ ascii ": cannot open input file") })
  else
    match K.readFile w.sys path with
    | (none, sys) =>
      let w := { w with sys := sys }
      (false, { state with world := shellError K w (path ++ ascii ": cannot open input file") })
    | (some text, sys) =>
      (true, ⟨setPipe (text.take (shellScratchSize - 1)) { w with sys := sys }, apply (scratchText text) state.mem⟩)

/-- The first half of a round of run_pipeline: the pipeline ends, the stage is empty,
or a command is to be run. -/
inductive Stage where
  | failed
  | empty
  | ready (argv : List Bytes) (redirect : Option (Bytes × Bool))
deriving DecidableEq

def withAlias (sh : Shell) (argv : List Bytes) : List Bytes :=
  match argv with
  | [] => []
  | name :: args =>
    match shellGetAlias sh name with
    | none => argv
    | some expansion => shellTokenize ((expansion ++ (args.map ([32] ++ ·)).flatten).take (shellLineMax - 1))

/-- A stage once its redirections are taken off. -/
def wordsOf (pipe : Option Bytes) (redirect : Option (Bytes × Bool)) (text : Bytes) (state : State σ) :
    Stage × State σ :=
  let state := match pipe with
    | some text => state.map (setPipe text)
    | none => state
  let argv := shellTokenize text
  (if argv = [] then .empty else .ready (withAlias state.world.sh argv) redirect, state)

def prepareStage (segment : Bytes) (pipe : Option Bytes) (state : State σ) : Stage × State σ :=
  let expanded := shellExpand state.world.sh (K.currentPid state.world.sys) segment
  let arrow := arrowAt expanded
  let redirect := arrow.map fun a => (K.resolvePath state.world.sh.cwd (redirectName expanded a), a.2)
  let expanded := match arrow with
    | some a => expanded.take a.1
    | none => expanded
  match expanded.findIdx? (· == 60) with
  | none => wordsOf pipe redirect expanded state
  | some i =>
    match readInput K (inputName expanded i) state with
    | (false, state) => (.failed, state)
    | (true, state) => wordsOf pipe redirect (expanded.take i) state

/-- The output of a captured command goes to a file or to the next stage. -/
def deliver (redirect : Option (Bytes × Bool)) (output : Bytes) (ran : State σ × Int) : State σ × Int × Option Bytes :=
  match redirect with
  | none => (ran.1, ran.2, some output)
  | some (path, append) =>
    match K.writeFile ran.1.world.sys path append output with
    | (true, sys) => (ran.1.map fun w => { w with sys := sys }, ran.2, none)
    | (false, sys) =>
      (ran.1.map fun w => shellError K { w with sys := sys } (path ++ ascii ": cannot open for writing"), 1, none)

/-- The text of an entry from some column on, as it stands in the static buffer. -/
def entryText (table : Table) (i col : Nat) (state : State σ) : Bytes :=
  scan (state.mem (.entry table i)) (shellLineMax - col) col

/-- split_on fills eight entries of 1023 characters at most. -/
def splitOn (separator : UInt8) (line : Bytes) : List Bytes :=
  ((parts separator line).take shellPipeMax).map (·.take (shellLineMax - 1))

def fillTable (table : Table) (entries : List Bytes) : Patch Row
  | .entry t i => if t = table then (entries[i]?).elim [] (· ++ [0]) else []
  | .scratch => []

/-- What the loop of run_pipeline carries along; stopped is its early return. -/
structure Flow (σ : Type) where
  state : State σ
  status : Int
  pipe : Option Bytes
  stopped : Bool

/-- One round of run_pipeline; piped says that there is a stage after it. -/
def runStage (text : Bytes) (piped : Bool) (flow : Flow σ) : Flow σ :=
  match prepareStage K text flow.pipe flow.state with
  | (.failed, state) => ⟨state, 1, none, true⟩
  | (.empty, state) => { flow with state := state }
  | (.ready argv redirect, state) =>
    if piped || redirect.isSome then
      if (K.kmalloc state.world.sys).1 then
        let saved := state.world.sh.sink
        let ran := runSimple K commands exec argv
          (state.map fun w => setSink (some ⟨[], false⟩) { w with sys := (K.kmalloc w.sys).2 })
        let output := (ran.1.world.sh.sink.map Sink.buffer).getD []
        let (state, status, pipe) := deliver K redirect output (ran.1.map (setSink saved), ran.2)
        ⟨state, status, pipe, false⟩
      else
        ⟨state.map fun w => shellError K { w with sys := (K.kmalloc w.sys).2 }
          (ascii "out of memory setting up the pipeline"), 1, none, true⟩
    else
      let ran := runSimple K commands exec argv state
      ⟨ran.1, ran.2, none, false⟩

def endPipeline (flow : Flow σ) : State σ × Int :=
  if flow.stopped then (flow.state, flow.status)
  else (flow.state.map fun w => { w with sh := shellUnsetVar w.sh pipeInput }, flow.status)

/-- The loop of run_pipeline over the stages that are left. -/
def runStages (count : Nat) : List Nat → Flow σ → Flow σ
  | [], flow => flow
  | k :: more, flow =>
    if flow.stopped then flow
    else runStages count more (runStage K commands exec (entryText .stages k 0 flow.state) (decide (k + 1 < count)) flow)

def runPipeline (text : Bytes) (state : State σ) : State σ × Int :=
  let stages := splitOn 124 text
  endPipeline (runStages K commands exec stages.length (List.range stages.length)
    ⟨{ state with mem := apply (fillTable .stages stages) state.mem }, 0, none, false⟩)

/-- A statement with a text; right gives the right side of a chain, which is read
where it stands after the left side has run. -/
def runText (text : Bytes) (right : Nat → State σ → Bytes) (state : State σ) : State σ × Int :=
  match chainAt text with
  | none =>
    let ran := runPipeline K commands exec text state
    (ran.1.map (setStatus ran.2), ran.2)
  | some (useAnd, split) =>
    let left := exec state (text.take split)
    let state := left.1.map (setStatus left.2)
    if useAnd = decide (left.2 = 0) then
      let second := exec state (right (split + 2) state)
      (second.1.map (setStatus second.2), second.2)
    else (state, left.2)

/-- One round of the loop over the statements. -/
def runStatement (s : Nat) (state : State σ) : State σ × Int :=
  runText K commands exec (entryText .statements s 0 state) (entryText .statements s) state

def runStatements : List Nat → Int → State σ → State σ × Int
  | [], status, state => (state, status)
  | s :: more, _, state =>
    let ran := runStatement K commands exec s state
    runStatements more ran.2 ran.1

end Running

/-- Blank lines and comments. -/
def skipped (start : Bytes) : Bool := start = [] || start.head? == some 35

/-- room is how often lines may still be nested. -/
def shellExecuteLine (K : Kernel σ) (commands : List (ShellCommand σ)) : Nat → State σ → Bytes → State σ × Int
  | 0, state, line =>
    if skipped (line.dropWhile isSpace) then (state, state.world.sh.lastStatus)
    else (state.map fun w => shellError K w (ascii "maximum command nesting depth exceeded"), 1)
  | room + 1, state, line =>
    if skipped (line.dropWhile isSpace) then (state, state.world.sh.lastStatus)
    else
      let statements := splitOn 59 (line.dropWhile isSpace)
      runStatements K commands (shellExecuteLine K commands room) (List.range statements.length)
        state.world.sh.lastStatus { state with mem := apply (fillTable .statements statements) state.mem }

end Qito.Shells
