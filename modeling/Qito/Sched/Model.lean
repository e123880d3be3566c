import Qito.Lib.Words
import Mathlib.Logic.Function.Basic
import Mathlib.Data.List.FinRange

/-! The scheduler of sched/sched.c. A task pointer is a slot of the task table,
NULL is none. The two ghost fields enqueuedAt and enqueues number the calls of
enqueue; nothing of the code reads them. -/
namespace Qito.Sched
open Words

abbrev maxTasks : Nat := 128
abbrev prioCount : Nat := 5
abbrev prioIdle : Nat := 0
abbrev prioNormal : Nat := 2
abbrev timerVector : Nat := 32
abbrev kernelStackSize : Nat := 65536
abbrev interruptFrameSize : Nat := 176

abbrev Slot := Fin maxTasks

instance : NeZero maxTasks := ⟨by decide⟩

inductive TaskState where
  | unused
  | ready
  | running
  | blocked
  | sleeping
  | zombie
deriving DecidableEq

structure Task where
  pid : Int
  ppid : Int
  state : TaskState
  priority : Nat
  frame : Nat
  kernelStack : Nat
  kernelStackTop : Nat
  space : Nat
  isKernel : Bool
  ticksTotal : Nat
  timeSlice : Nat
  wakeAtMs : Nat
  createdAtMs : Nat
  exitCode : Int
  uid : Nat
  gid : Nat
  capabilities : Nat
  blockReason : Option String
  next : Option Slot
  enqueuedAt : Nat

structure SchedState where
  tasks : Slot → Task
  current : Option Slot
  idleTask : Option Slot
  nextPid : Int
  schedulerRunning : Bool
  contextSwitches : Nat
  readyHead : Nat → Option Slot
  readyTail : Nat → Option Slot
  tssStack : Nat
  activeSpace : Nat
  enqueues : Nat

/-- The ways an operation can fail to come back. -/
inductive Halt where
  | panic
  | fault
  | spin

/-- What the rest of the machine answers during one operation: the uptime when
it is called and when its interrupt is served, the stack kmalloc returns, whether
a stack guard is intact, and the address of the frame a software interrupt pushes. -/
structure Env where
  now : Nat
  later : Nat
  stack : Nat
  guardIntact : Slot → Bool
  frame : Nat

structure InterruptFrame where
  addr : Nat
  vector : Nat

def sliceTicks (p : Nat) : Nat := wrap64 (2 + wrap64 (p * 2))

def emptyTask : Task where
  pid := 0
  ppid := 0
  state := .unused
  priority := 0
  frame := 0
  kernelStack := 0
  kernelStackTop := 0
  space := 0
  isKernel := false
  ticksTotal := 0
  timeSlice := 0
  wakeAtMs := 0
  createdAtMs := 0
  exitCode := 0
  uid := 0
  gid := 0
  capabilities := 0
  blockReason := none
  next := none
  enqueuedAt := 0

def setTask (s : SchedState) (t : Slot) (change : Task → Task) : SchedState :=
  { s with tasks := Function.update s.tasks t (change (s.tasks t)) }

def setNext (s : SchedState) (t : Slot) (link : Option Slot) : SchedState :=
  setTask s t fun k => { k with next := link }

def setHead (s : SchedState) (level : Nat) (t : Option Slot) : SchedState :=
  { s with readyHead := Function.update s.readyHead level t }

def setTail (s : SchedState) (level : Nat) (t : Option Slot) : SchedState :=
  { s with readyTail := Function.update s.readyTail level t }

/-- The task as enqueue writes it before it is linked. -/
def readied (stamp : Nat) (k : Task) : Task :=
  { k with
    priority := if k.priority ≥ prioCount then prioNormal else k.priority
    next := none
    state := .ready
    enqueuedAt := stamp }

def enqueue (s : SchedState) (t : Slot) : SchedState :=
  let s := { setTask s t (readied s.enqueues) with enqueues := s.enqueues + 1 }
  let level := (s.tasks t).priority
  match s.readyTail level with
  | some last => setTail (setNext s last (some t)) level (some t)
  | none => setTail (setHead s level (some t)) level (some t)

/-- The downward search of dequeue_highest over the levels below n. -/
@[grind =] def dequeueBelow : Nat → SchedState → Option Slot × SchedState
  | 0, s => (none, s)
  | level + 1, s =>
    match s.readyHead level with
    | none => dequeueBelow level s
    | some t =>
      let s := setHead s level (s.tasks t).next
      let s := if s.readyHead level = none then setTail s level none else s
      (some t, setNext s t none)

def dequeueHighest (s : SchedState) : Option Slot × SchedState := dequeueBelow prioCount s

/-- The body of unlink_ready once the walk has found the task behind prev. -/
def unlinkNode (s : SchedState) (level : Nat) (prev : Option Slot) (task : Slot) : SchedState :=
  let link := (s.tasks task).next
  let s := match prev with
    | some p => setNext s p link
    | none => setHead s level link
  let s := if s.readyTail level = some task then setTail s level prev else s
  setNext s task none

/-- The walk of unlink_ready along one queue; none when the queue does not hold
the target. -/
def unlinkFrom (target : Slot) (level : Nat) :
    Nat → SchedState → Option Slot → Option Slot → Except Halt (Option SchedState)
  | 0, _, _, _ => .error .spin
  | _ + 1, _, _, none => .ok none
  | fuel + 1, s, prev, some task =>
    if task = target then .ok (some (unlinkNode s level prev task))
    else unlinkFrom target level fuel s (some task) (s.tasks task).next

def unlinkLevels (target : Slot) : List Nat → SchedState → Except Halt SchedState
  | [], s => .ok s
  | level :: rest, s => do
    match ← unlinkFrom target level (maxTasks + 1) s none (s.readyHead level) with
    | some s => return s
    | none => unlinkLevels target rest s

def unlinkReady (s : SchedState) (target : Slot) : Except Halt SchedState :=
  unlinkLevels target (List.range prioCount) s

def allocTask (s : SchedState) : Option Slot :=
  (List.finRange maxTasks).find? fun t => (s.tasks t).state = .unused

def schedFind (s : SchedState) (pid : Int) : Option Slot :=
  (List.finRange maxTasks).find? fun t => (s.tasks t).state ≠ .unused ∧ (s.tasks t).pid = pid

def currentPid (s : SchedState) : Int :=
  match s.current with
  | some c => (s.tasks c).pid
  | none => 0

/-- What the two creation functions differ in. -/
structure TaskKind where
  priority : Nat
  isKernel : Bool
  uid : Nat
  gid : Nat
  capabilities : Nat
  space : Nat

/-- The top of a new stack; the first frame is carved out right below it. -/
def stackTop (stack : Nat) : Nat := wrap64 (stack + kernelStackSize) / 16 * 16

/-- The task as both functions fill it in before they have a stack for it. -/
def newTask (env : Env) (s : SchedState) (kind : TaskKind) : Task :=
  { emptyTask with
    pid := s.nextPid
    ppid := currentPid s
    priority := kind.priority
    isKernel := kind.isKernel
    uid := kind.uid
    gid := kind.gid
    capabilities := kind.capabilities
    createdAtMs := env.now
    timeSlice := sliceTicks kind.priority
    space := kind.space }

def stackMark (stack top frame : Nat) (k : Task) : Task :=
  { k with kernelStack := stack, kernelStackTop := top, frame := frame }

/-- The rest of both functions, outside the first critical section. -/
def placeTask (env : Env) (s : SchedState) (t : Slot) (pid : Int) : Int × SchedState :=
  if env.stack = 0 then (-1, setTask s t fun k => { k with state := .unused })
  else
    let top := stackTop env.stack
    (pid, enqueue (setTask s t (stackMark env.stack top (top - interruptFrameSize))) t)

def createTask (env : Env) (s : SchedState) (kind : TaskKind) : Int × SchedState :=
  match allocTask s with
  | none => (-1, s)
  | some t =>
    let pid := s.nextPid
    placeTask env { setTask s t (fun _ => newTask env s kind) with nextPid := pid + 1 } t pid

def schedCreateKernelTask (env : Env) (s : SchedState) (priority : Nat) : Int × SchedState :=
  createTask env s ⟨priority, true, 0, 0, 2 ^ 64 - 1, 0⟩

def schedCreateUserTask (env : Env) (s : SchedState) (space priority : Nat) : Int × SchedState :=
  createTask env s ⟨priority, false, 1000, 1000, 0, space⟩

def schedInit (env : Env) (s : SchedState) : SchedState :=
  let s := { s with
    tasks := fun _ => emptyTask
    readyHead := fun _ => none
    readyTail := fun _ => none
    current := none
    schedulerRunning := false }
  let (pid, s) := schedCreateKernelTask env s prioIdle
  { s with idleTask := schedFind s pid }

def wakeOne (now : Nat) (s : SchedState) (t : Slot) : SchedState :=
  if (s.tasks t).state = .sleeping ∧ now ≥ (s.tasks t).wakeAtMs then
    enqueue (setTask s t fun k => { k with wakeAtMs := 0 }) t
  else s

def wakeSleepers (now : Nat) (s : SchedState) : SchedState :=
  (List.finRange maxTasks).foldl (wakeOne now) s

/-- switch_to_next up to the search: the previous task keeps its frame and goes
back to its queue if it is still running. -/
def requeuePrevious (s : SchedState) (frame : Nat) : SchedState :=
  match s.current with
  | none => s
  | some previous =>
    let s := setTask s previous fun k => { k with frame := frame }
    if (s.tasks previous).state = .running then enqueue s previous else s

def pickNext (s : SchedState) : Except Halt (Slot × SchedState) :=
  match dequeueHighest s with
  | (some next, s) => .ok (next, s)
  | (none, s) =>
    match s.idleTask with
    | none => .error .fault
    | some idle =>
      if (s.tasks idle).state = .ready ∨ (s.tasks idle).state = .running then do
        return (idle, ← unlinkReady s idle)
      else .ok (idle, s)

def resume (previous : Option Slot) (t : Slot) (s : SchedState) : SchedState :=
  let s := setTask { s with current := some t } t fun k =>
    { k with state := .running, timeSlice := sliceTicks k.priority }
  if previous ≠ some t then
    { s with
      contextSwitches := wrap64 (s.contextSwitches + 1)
      tssStack := (s.tasks t).kernelStackTop
      activeSpace := (s.tasks t).space }
  else s

def switchToNext (s : SchedState) (frame : Nat) : Except Halt (Nat × SchedState) := do
  let (next, s') ← pickNext (requeuePrevious s frame)
  let s' := resume s.current next s'
  return ((s'.tasks next).frame, s')

def checkStackGuard (env : Env) (s : SchedState) : Except Halt Unit :=
  match s.current with
  | none => .ok ()
  | some t =>
    if (s.tasks t).kernelStack = 0 then .ok ()
    else if env.guardIntact t then .ok ()
    else .error .panic

def tickMark (timer : Bool) (k : Task) : Task :=
  { k with
    ticksTotal := wrap64 (k.ticksTotal + if timer then 1 else 0)
    timeSlice := if timer ∧ k.timeSlice > 0 then k.timeSlice - 1 else k.timeSlice }

/-- Charge the tick to the current task, and whether it has to make way. -/
def tick (timer : Bool) (s : SchedState) : Bool × SchedState :=
  match s.current with
  | none => (true, s)
  | some c =>
    let s := setTask s c (tickMark timer)
    if (s.tasks c).state = .running ∧ (s.tasks c).timeSlice > 0 then (false, s) else (true, s)

/-- sched_on_interrupt_return up to its call of switch_to_next: whether it comes
to that call, and in which state. -/
def reschedule (env : Env) (s : SchedState) (frame : InterruptFrame) :
    Except Halt (Bool × SchedState) := do
  if !s.schedulerRunning then
    return (false, s)
  checkStackGuard env s
  return tick (frame.vector == timerVector) (wakeSleepers env.later s)

def schedOnInterruptReturn (env : Env) (s : SchedState) (frame : InterruptFrame) :
    Except Halt (Nat × SchedState) := do
  let (switch, s) ← reschedule env s frame
  if switch then switchToNext s frame.addr else return (frame.addr, s)

def schedStart (s : SchedState) : SchedState := { s with schedulerRunning := true }

/-- The state a caller of sched_yield, sched_sleep_ms or sched_block leaves when
it raises int 32; none when the call returns without it. -/
def giveUp (s : SchedState) (mark : Task → Task) : Option SchedState :=
  match s.current with
  | none => none
  | some c => if s.schedulerRunning then some (setTask s c mark) else none

def yieldMark (k : Task) : Task := { k with timeSlice := 0 }

def sleepMark (env : Env) (ms : Nat) (k : Task) : Task :=
  { k with wakeAtMs := wrap64 (env.now + ms), state := .sleeping, timeSlice := 0 }

def blockMark (reason : Option String) (k : Task) : Task :=
  { k with state := .blocked, blockReason := reason, timeSlice := 0 }

def zombieMark (code : Int) (k : Task) : Task :=
  { k with exitCode := code, state := .zombie, timeSlice := 0 }

def schedUnblock (s : SchedState) : Option Slot → SchedState
  | none => s
  | some t =>
    if (s.tasks t).state ≠ .blocked then s
    else enqueue (setTask s t fun k => { k with blockReason := none }) t

/-- sched_exit up to the software interrupt it then raises for ever. -/
def exitMark (s : SchedState) (code : Int) : SchedState :=
  match s.current with
  | none => s
  | some c =>
    let s := setTask s c (zombieMark code)
    match schedFind s (s.tasks c).ppid with
    | none => s
    | some parent =>
      if (s.tasks parent).state = .blocked then schedUnblock s (some parent) else s

def softInterrupt (env : Env) : InterruptFrame := ⟨env.frame, timerVector⟩

def schedKillCurrent (s : SchedState) (code : Int) : Except Halt SchedState :=
  match s.current with
  | none => .error .panic
  | some c => if s.current = s.idleTask then .error .panic else .ok (setTask s c (zombieMark code))

def schedKill (s : SchedState) (pid : Int) : Except Halt (Int × SchedState) :=
  match schedFind s pid with
  | none => .ok (-1, s)
  | some t =>
    if some t = s.idleTask then .ok (-1, s)
    else do
      let s ← unlinkReady s t
      return (0, setTask s t fun k => { k with state := .zombie, exitCode := 130 })

inductive SchedOp where
  | start
  | createKernel (priority : Nat)
  | createUser (space priority : Nat)
  | interrupt (frame : InterruptFrame)
  | yield
  | sleepMs (ms : Nat)
  | block (reason : Option String)
  | unblock (task : Option Slot)
  | exit (code : Int)
  | killCurrent (code : Int)
  | kill (pid : Int)

/-- The state and frame with which an operation enters the interrupt return path. -/
def raises (env : Env) (s : SchedState) : SchedOp → Option (SchedState × InterruptFrame)
  | .interrupt frame => some (s, frame)
  | .yield => (giveUp s yieldMark).map (·, softInterrupt env)
  | .sleepMs ms => (giveUp s (sleepMark env ms)).map (·, softInterrupt env)
  | .block reason => (giveUp s (blockMark reason)).map (·, softInterrupt env)
  | .exit code => some (exitMark s code, softInterrupt env)
  | _ => none

/-- The rest of an operation, when it does not raise an interrupt. -/
def plain (env : Env) (s : SchedState) : SchedOp → Except Halt SchedState
  | .start => .ok (schedStart s)
  | .createKernel priority => .ok (schedCreateKernelTask env s priority).2
  | .createUser space priority => .ok (schedCreateUserTask env s space priority).2
  | .unblock task => .ok (schedUnblock s task)
  | .killCurrent code => schedKillCurrent s code
  | .kill pid => (schedKill s pid).map Prod.snd
  | _ => .ok s

def step (env : Env) (s : SchedState) (op : SchedOp) : Except Halt SchedState :=
  match raises env s op with
  | some (s, frame) => (schedOnInterruptReturn env s frame).map Prod.snd
  | none => plain env s op

/-- The state in which an operation calls switch_to_next, if it does. -/
def switchPoint (env : Env) (s : SchedState) (op : SchedOp) : Option (SchedState × Nat) :=
  match raises env s op with
  | none => none
  | some (s, frame) =>
    match reschedule env s frame with
    | .ok (true, s) => some (s, frame.addr)
    | _ => none

end Qito.Sched
