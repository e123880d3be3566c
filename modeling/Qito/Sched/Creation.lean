import Qito.Sched.Turns

/-! Creation of tasks, in the sections it has: sched_create_kernel_task and
sched_create_user_task pick a slot under the lock, set the stack up without it and
enqueue the task under the lock again. Any number of calls may be on their way. -/
namespace Qito.Sched
open Links Runs Words

abbrev selKernelCode : Nat := 0x08
abbrev selKernelData : Nat := 0x10
abbrev selUserData : Nat := 0x18
abbrev selUserCode : Nat := 0x20

/-- What a call asks for. -/
inductive Request where
  | kernel (entry arg : Nat) (priority : Fin prioCount)
  | user (entry space stackTop argc argv : Nat) (priority : Fin prioCount)

/-- The registers of a first frame that are not zero. -/
structure Start where
  rip : Nat
  cs : Nat
  rflags : Nat
  rsp : Nat
  ss : Nat
  rdi : Nat
  rsi : Nat

def Request.kind : Request → TaskKind
  | .kernel _ _ priority => ⟨priority, true, 0, 0, 2 ^ 64 - 1, 0⟩
  | .user _ space _ _ _ priority => ⟨priority, false, 1000, 1000, 0, space⟩

/-- The first frame of a task lies at the top of its kernel stack. -/
def frameOf (stack : Nat) : Nat := stackTop stack - interruptFrameSize

def Request.start (stack : Nat) : Request → Start
  | .kernel entry arg _ => ⟨entry, selKernelCode, 0x202, frameOf stack / 16 * 16 - 8, selKernelData, arg, 0⟩
  | .user entry _ top argc argv _ => ⟨entry, selUserCode + 3, 0x202, top, selUserData + 3, argc, argv⟩

/-- How far a call has come, with its local variables. -/
inductive Phase where
  | idle
  | failed
  | claimed (request : Request) (slot : Slot)
  | stacked (request : Request) (slot : Slot) (stack : Nat)
  | placed (request : Request) (slot : Slot) (stack : Nat)
  | returned (request : Request) (slot : Slot) (stack : Nat) (pid : Int)

/-- The scheduler, the frames that creation has built by their address, and the calls. -/
structure Creating where
  sched : SchedState
  frames : Nat → Option Start
  calls : Nat → Phase

inductive CreateOp where
  | claim (call : Nat) (request : Request)
  | stack (call : Nat)
  | place (call : Nat)
  | answer (call : Nat)
  | other (op : SchedOp)

/-- The first critical section, once alloc_task has found a slot. -/
def claimTask (env : Env) (s : SchedState) (kind : TaskKind) (t : Slot) : SchedState :=
  { setTask s t (fun _ => newTask env s kind) with nextPid := s.nextPid + 1 }

/-- The way out when there is no memory for the stack. -/
def giveBack (s : SchedState) (t : Slot) : SchedState := setTask s t fun k => { k with state := .unused }

def stackTask (s : SchedState) (t : Slot) (stack : Nat) : SchedState :=
  setTask s t (stackMark stack (stackTop stack) (frameOf stack))

theorem createTask_sections (env : Env) (s : SchedState) (kind : TaskKind) :
    createTask env s kind = match allocTask s with
      | none => (-1, s)
      | some t =>
        if env.stack = 0 then (-1, giveBack (claimTask env s kind t) t)
        else (s.nextPid, enqueue (stackTask (claimTask env s kind t) t env.stack) t) := by
  rw [createTask]
  cases allocTask s with
  | none => rfl
  | some t => rfl

/-- The stack that a call has got from kmalloc, and has not given back. -/
def Phase.holds : Phase → Option Nat
  | .stacked _ _ stack | .placed _ _ stack | .returned _ _ stack _ => some stack
  | _ => none

/-- kmalloc hands out memory that nobody holds. -/
def FreshStack (c : Creating) (stack : Nat) : Prop :=
  stack + kernelStackSize < 2 ^ 64 ∧
  ∀ i taken, (c.calls i).holds = some taken →
    stack + kernelStackSize ≤ taken ∨ taken + kernelStackSize ≤ stack

def Creating.set (c : Creating) (i : Nat) (phase : Phase) : Creating :=
  { c with calls := Function.update c.calls i phase }

def Creating.claimed (env : Env) (c : Creating) (i : Nat) (request : Request) (t : Slot) : Creating :=
  { c with sched := claimTask env c.sched request.kind t }.set i (.claimed request t)

def Creating.stacked (c : Creating) (i : Nat) (request : Request) (t : Slot) (stack : Nat) : Creating :=
  ({ c with
    sched := stackTask c.sched t stack
    frames := Function.update c.frames (frameOf stack) (some (request.start stack)) } : Creating).set i
      (.stacked request t stack)

def Creating.placed (c : Creating) (i : Nat) (request : Request) (t : Slot) (stack : Nat) : Creating :=
  { c with sched := enqueue c.sched t }.set i (.placed request t stack)

/-- The pid is read back from the slot. -/
def Creating.answered (c : Creating) (i : Nat) (request : Request) (t : Slot) (stack : Nat) : Creating :=
  c.set i (.returned request t stack (c.sched.tasks t).pid)

def CreateMove (env : Env) (c : Creating) (op : CreateOp) (c' : Creating) : Prop :=
  match op with
  | .claim i request =>
    c.calls i = .idle ∧
    match allocTask c.sched with
    | none => c' = c.set i .failed
    | some t => c' = c.claimed env i request t
  | .stack i => ∃ request t, c.calls i = .claimed request t ∧
    if env.stack = 0 then c' = { c with sched := giveBack c.sched t }.set i .failed
    else FreshStack c env.stack ∧ c' = c.stacked i request t env.stack
  | .place i => ∃ request t stack, c.calls i = .stacked request t stack ∧ c' = c.placed i request t stack
  | .answer i => ∃ request t stack, c.calls i = .placed request t stack ∧ c' = c.answered i request t stack
  | .other op => ¬ op.Creates ∧ ∃ s, step env c.sched op = .ok s ∧ c' = { c with sched := s }

def CreateBoots (c : Creating) : Prop :=
  Boots c.sched ∧ c.frames = (fun _ => none) ∧ c.calls = fun _ => .idle

/-- The call has a slot that is not in a queue yet. -/
def Phase.Pending : Phase → Prop
  | .claimed _ _ | .stacked _ _ _ => True
  | _ => False

/-- No call picks a slot while another is between its two critical sections. -/
def CreateOk (c : Creating) : CreateOp → Prop
  | .claim _ _ => ∀ j, ¬ (c.calls j).Pending
  | _ => True

def CreateStep (c c' : Creating) : Prop := ∃ env op, CreateOk c op ∧ CreateMove env c op c'

/-- The task in the slot has the priority, the stack and the first frame of the request. -/
structure Built (s : SchedState) (frames : Nat → Option Start) (request : Request) (t : Slot) (stack : Nat) : Prop where
  priority : (s.tasks t).priority = request.kind.priority
  kernelStack : (s.tasks t).kernelStack = stack
  start : frames (frameOf stack) = some (request.start stack)

/-- Calls that have succeeded own slots of their own, and the pids they have
returned name the tasks they have built. -/
def OwnTasks (c : Creating) : Prop :=
  ∀ i request t stack pid, c.calls i = .returned request t stack pid →
    schedFind c.sched pid = some t ∧ Built c.sched c.frames request t stack ∧
    ∀ j request' t' stack' pid', c.calls j = .returned request' t' stack' pid' → j ≠ i → t' ≠ t

section Sections
variable {s : SchedState} {t : Slot}

theorem fill_kept (kept : Kept s) (unused : (s.tasks t).state = .unused) {f : Task → Task}
    (still : (f (s.tasks t)).state = .unused) : Kept (setTask s t f) := by
  obtain ⟨⟨q, queued⟩, settled⟩ := kept
  have waits : ¬ Ready s t := by
    rw [Ready, unused]
    decide
  have quiet : (f (s.tasks t)).state ≠ .ready := by
    rw [still]
    decide
  exact ⟨⟨q, queued.outside waits quiet⟩, settled.setTask f fun c => settled.other unused (by decide) (by decide)⟩

theorem claimTask_kept (env : Env) (kept : Kept s) (kind : TaskKind) (unused : (s.tasks t).state = .unused) :
    Kept (claimTask env s kind t) := by
  obtain ⟨⟨q, queued⟩, settled⟩ := fill_kept kept unused (f := fun _ => newTask env s kind) rfl
  exact ⟨⟨q, queued.same rfl rfl rfl rfl⟩, settled⟩

theorem enqueue_kept (kept : Kept s) (unused : (s.tasks t).state = .unused) : Kept (enqueue s t) := by
  obtain ⟨⟨q, queued⟩, settled⟩ := kept
  have waits : ¬ Ready s t := by
    rw [Ready, unused]
    decide
  exact ⟨⟨_, queued.enqueue waits⟩, settled.enqueue fun c => settled.other unused (by decide) (by decide)⟩

theorem allocTask_unused (found : allocTask s = some t) : (s.tasks t).state = .unused := by
  simpa using List.find?_some found

end Sections

/-- A slot that a call has picked: it is free still, and its pid is new. -/
structure Picked (s : SchedState) (level : Nat) (t : Slot) : Prop where
  unused : (s.tasks t).state = .unused
  priority : (s.tasks t).priority = level
  below : (s.tasks t).pid < s.nextPid
  new : ∀ u, (s.tasks u).state ≠ .unused → (s.tasks u).pid ≠ (s.tasks t).pid

/-- The slot of a call that has enqueued its task. -/
def Phase.owned : Phase → Option Slot
  | .placed _ t _ | .returned _ t _ _ => some t
  | _ => none

/-- The pids of the tasks are their own, and from below the next one. -/
structure Named (s : SchedState) : Prop where
  below : ∀ t, (s.tasks t).state ≠ .unused → (s.tasks t).pid < s.nextPid
  once : ∀ t u, (s.tasks t).state ≠ .unused → (s.tasks u).state ≠ .unused → (s.tasks t).pid = (s.tasks u).pid → t = u

/-- What a call on its way, or at its end, can count on. -/
def CallOk (s : SchedState) (frames : Nat → Option Start) : Phase → Prop
  | .claimed request t => Picked s request.kind.priority t
  | .stacked request t stack => Picked s request.kind.priority t ∧ Built s frames request t stack
  | .placed request t stack => (s.tasks t).state ≠ .unused ∧ Built s frames request t stack
  | .returned request t stack pid =>
    (s.tasks t).state ≠ .unused ∧ Built s frames request t stack ∧ (s.tasks t).pid = pid
  | _ => True

/-- Two calls are not in each other's way. -/
structure Separate (p p' : Phase) : Prop where
  single : p.Pending → ¬ p'.Pending
  slots : ∀ t, p.owned = some t → p'.owned ≠ some t
  blocks : ∀ stack stack', p.holds = some stack → p'.holds = some stack' →
    stack + kernelStackSize ≤ stack' ∨ stack' + kernelStackSize ≤ stack

/-- What holds between the steps when no two calls are between their sections. -/
structure Orderly (c : Creating) : Prop where
  kept : Kept c.sched
  used : IdleUsed c.sched
  named : Named c.sched
  calls : ∀ i, CallOk c.sched c.frames (c.calls i)
  separate : ∀ i j, i ≠ j → Separate (c.calls i) (c.calls j)
  valid : ∀ i stack, (c.calls i).holds = some stack → stack + kernelStackSize < 2 ^ 64

section Steps
variable {c c' : Creating} {s s' : SchedState} {t : Slot} {request : Request} {i : Nat} {phase : Phase} {env : Env}

theorem Request.priority_lt (request : Request) : request.kind.priority < prioCount := by
  cases request with
  | kernel entry arg priority => exact priority.isLt
  | user entry space top argc argv priority => exact priority.isLt

theorem SameTask.pid {k k' : Task} (same : SameTask k k') : k'.pid = k.pid := congrArg (·.1) same.identity

theorem SameTask.built {frames : Nat → Option Start} {stack : Nat} (same : SameTask (s.tasks t) (s'.tasks t))
    (built : Built s frames request t stack) : Built s' frames request t stack := by
  constructor
  · have kept := same.priority
    rw [built.priority] at kept
    exact kept request.priority_lt
  · have kept : (s'.tasks t).kernelStack = (s.tasks t).kernelStack := congrArg (·.2.2.1) same.identity
    exact kept.trans built.kernelStack
  · exact built.start

theorem Stable.named (stable : Stable s s') (named : Named s) : Named s' := by
  constructor
  · intro t used
    rw [(stable.same t).pid, stable.pids]
    exact named.below t ((stable.unused t).not.mp used)
  · intro t u used used'
    rw [(stable.same _).pid, (stable.same _).pid]
    exact named.once t u ((stable.unused t).not.mp used) ((stable.unused u).not.mp used')

theorem Stable.picked {level : Nat} (stable : Stable s s') (valid : level < prioCount) (picked : Picked s level t) :
    Picked s' level t := by
  constructor
  · exact (stable.unused t).mpr picked.unused
  · have same := (stable.same t).priority
    rw [picked.priority] at same
    exact same valid
  · rw [(stable.same t).pid, stable.pids]
    exact picked.below
  · intro u used
    rw [(stable.same _).pid, (stable.same _).pid]
    exact picked.new u ((stable.unused u).not.mp used)

theorem Stable.callOk {frames : Nat → Option Start} (stable : Stable s s') (ok : CallOk s frames phase) :
    CallOk s' frames phase := by
  cases phase with
  | idle => trivial
  | failed => trivial
  | claimed request t => exact stable.picked request.priority_lt ok
  | stacked request t stack => exact ⟨stable.picked request.priority_lt ok.1, (stable.same t).built ok.2⟩
  | placed request t stack => exact ⟨(stable.unused t).not.mpr ok.1, (stable.same t).built ok.2⟩
  | returned request t stack pid =>
    exact ⟨(stable.unused t).not.mpr ok.1, (stable.same t).built ok.2.1, (stable.same t).pid.trans ok.2.2⟩

theorem other_orderly (orderly : Orderly c) (kept : Kept s) (stable : Stable c.sched s) :
    Orderly { c with sched := s } where
  kept := kept
  used := stable.idleUsed orderly.used
  named := stable.named orderly.named
  calls := fun i => stable.callOk (orderly.calls i)
  separate := orderly.separate
  valid := orderly.valid

theorem Separate.symm {p p' : Phase} (separate : Separate p p') : Separate p' p := by
  constructor
  · exact fun pending pending' => separate.single pending' pending
  · exact fun t owned owned' => separate.slots t owned' owned
  · exact fun stack stack' held held' => (separate.blocks stack' stack held' held).symm

theorem set_orderly {frames : Nat → Option Start} (orderly : Orderly c) (kept : Kept s) (used : IdleUsed s) (named : Named s)
    (ok : CallOk s frames phase) (others : ∀ j, j ≠ i → CallOk s frames (c.calls j))
    (apart : ∀ j, j ≠ i → Separate phase (c.calls j))
    (valid : ∀ stack, phase.holds = some stack → stack + kernelStackSize < 2 ^ 64) :
    Orderly (({ c with sched := s, frames := frames } : Creating).set i phase) where
  kept := kept
  used := used
  named := named
  calls := by
    intro j
    by_cases here : j = i
    · subst here
      simpa [Creating.set] using ok
    · simpa [Creating.set, here] using others j here
  separate := by
    intro j k ne
    by_cases here : j = i
    · subst here
      simpa [Creating.set, ne.symm] using apart k ne.symm
    · by_cases there : k = i
      · subst there
        simpa [Creating.set, here] using (apart j here).symm
      · simpa [Creating.set, here, there] using orderly.separate j k ne
  valid := by
    intro j stack held
    by_cases here : j = i
    · subst here
      simp only [Creating.set, Function.update_self] at held
      exact valid stack held
    · simp only [Creating.set, Function.update_of_ne here] at held
      exact orderly.valid j stack held

/-- A free slot is written, and stays free. -/
structure Fills (t : Slot) (s s' : SchedState) : Prop where
  before : (s.tasks t).state = .unused
  after : (s'.tasks t).state = .unused
  others : ∀ u, u ≠ t → s'.tasks u = s.tasks u
  idle : s'.idleTask = s.idleTask
  pids : s.nextPid ≤ s'.nextPid

theorem Fills.task (fills : Fills t s s') {u : Slot} (used : (s.tasks u).state ≠ .unused) : s'.tasks u = s.tasks u := by
  apply fills.others
  rintro rfl
  exact used fills.before

theorem Fills.task_after (fills : Fills t s s') {u : Slot} (used : (s'.tasks u).state ≠ .unused) :
    s'.tasks u = s.tasks u := by
  apply fills.others
  rintro rfl
  exact used fills.after

theorem Fills.idleUsed (fills : Fills t s s') (used : IdleUsed s) : IdleUsed s' := by
  intro i idle
  rw [fills.idle] at idle
  rw [fills.task (used i idle)]
  exact used i idle

theorem Fills.named (fills : Fills t s s') (named : Named s) : Named s' := by
  constructor
  · intro u used
    have same := fills.task_after used
    rw [same] at used ⊢
    exact Int.lt_of_lt_of_le (named.below u used) fills.pids
  · intro u v used used' eq
    have same := fills.task_after used
    have same' := fills.task_after used'
    rw [same] at used eq
    rw [same'] at used' eq
    exact named.once u v used used' eq

theorem Fills.built {frames frames' : Nat → Option Start} {stack : Nat} {u : Slot} (fills : Fills t s s')
    (used : (s.tasks u).state ≠ .unused) (same : frames' (frameOf stack) = frames (frameOf stack))
    (built : Built s frames request u stack) : Built s' frames' request u stack := by
  constructor
  · rw [fills.task used]
    exact built.priority
  · rw [fills.task used]
    exact built.kernelStack
  · exact same.trans built.start

theorem Fills.callOk {frames frames' : Nat → Option Start} (fills : Fills t s s') (done : ¬ phase.Pending)
    (same : ∀ stack, phase.holds = some stack → frames' (frameOf stack) = frames (frameOf stack))
    (ok : CallOk s frames phase) : CallOk s' frames' phase := by
  cases phase with
  | idle => trivial
  | failed => trivial
  | claimed request u => exact absurd trivial done
  | stacked request u stack => exact absurd trivial done
  | placed request u stack =>
    refine ⟨?_, fills.built ok.1 (same stack rfl) ok.2⟩
    rw [fills.task ok.1]
    exact ok.1
  | returned request u stack pid =>
    refine ⟨?_, fills.built ok.1 (same stack rfl) ok.2.1, ?_⟩
    · rw [fills.task ok.1]
      exact ok.1
    · rw [fills.task ok.1]
      exact ok.2.2

theorem claimTask_tasks (env : Env) (s : SchedState) (kind : TaskKind) (t : Slot) :
    (claimTask env s kind t).tasks = (setTask s t fun _ => newTask env s kind).tasks := rfl

theorem claimTask_fills (env : Env) (kind : TaskKind) (unused : (s.tasks t).state = .unused) :
    Fills t s (claimTask env s kind t) where
  before := unused
  after := by
    rw [claimTask_tasks, setTask_same]
    rfl
  others := by
    intro u ne
    rw [claimTask_tasks, setTask_other ne]
  idle := rfl
  pids := by
    change s.nextPid ≤ s.nextPid + 1
    omega

theorem setTask_fills {f : Task → Task} (unused : (s.tasks t).state = .unused)
    (still : (f (s.tasks t)).state = .unused) : Fills t s (setTask s t f) where
  before := unused
  after := by
    rw [setTask_same]
    exact still
  others := fun u ne => setTask_other ne
  idle := rfl
  pids := Int.le_refl _

theorem stackTask_fills (unused : (s.tasks t).state = .unused) (stack : Nat) : Fills t s (stackTask s t stack) := by
  have still (top frame : Nat) : (stackMark stack top frame (s.tasks t)).state = .unused := unused
  exact setTask_fills unused (still _ _)

theorem stackTask_kept (kept : Kept s) (unused : (s.tasks t).state = .unused) (stack : Nat) :
    Kept (stackTask s t stack) := by
  have still (top frame : Nat) : (stackMark stack top frame (s.tasks t)).state = .unused := unused
  exact fill_kept kept unused (still _ _)

theorem claimTask_picked (env : Env) (kind : TaskKind) (named : Named s) (unused : (s.tasks t).state = .unused) :
    Picked (claimTask env s kind t) kind.priority t := by
  have fills := claimTask_fills env kind unused
  have new : (claimTask env s kind t).tasks t = newTask env s kind := by
    rw [claimTask_tasks, setTask_same]
  refine ⟨fills.after, ?_, ?_, ?_⟩
  · rw [new]
    rfl
  · rw [new]
    change s.nextPid < s.nextPid + 1
    omega
  · intro u used
    have same := fills.task_after used
    rw [same] at used ⊢
    rw [new]
    exact (named.below u used).ne

theorem claim_orderly (orderly : Orderly c) (quiet : ∀ j, ¬ (c.calls j).Pending)
    (unused : (c.sched.tasks t).state = .unused) :
    Orderly (c.claimed env i request t) := by
  have fills := claimTask_fills env request.kind unused
  apply set_orderly orderly
  · exact claimTask_kept env orderly.kept request.kind unused
  · exact fills.idleUsed orderly.used
  · exact fills.named orderly.named
  · exact claimTask_picked env request.kind orderly.named unused
  · exact fun j _ => fills.callOk (quiet j) (fun _ _ => rfl) (orderly.calls j)
  · exact fun j _ => ⟨fun _ => quiet j, nofun, nofun⟩
  · exact nofun

theorem Orderly.others (orderly : Orderly c) (pending : (c.calls i).Pending) {j : Nat} (ne : j ≠ i) :
    ¬ (c.calls j).Pending := (orderly.separate i j ne.symm).single pending

theorem giveBack_orderly (orderly : Orderly c) (at_ : c.calls i = .claimed request t) :
    Orderly ({ c with sched := giveBack c.sched t }.set i .failed) := by
  have picked : Picked c.sched request.kind.priority t := by
    have ok := orderly.calls i
    rw [at_] at ok
    exact ok
  have pending : (c.calls i).Pending := by
    rw [at_]
    trivial
  have fills : Fills t c.sched (giveBack c.sched t) := setTask_fills picked.unused rfl
  apply set_orderly orderly
  · exact fill_kept orderly.kept picked.unused rfl
  · exact fills.idleUsed orderly.used
  · exact fills.named orderly.named
  · trivial
  · exact fun j ne => fills.callOk (orderly.others pending ne) (fun _ _ => rfl) (orderly.calls j)
  · exact fun j _ => ⟨nofun, nofun, nofun⟩
  · exact nofun

theorem frameOf_ne {a b : Nat} (ha : a + kernelStackSize < 2 ^ 64) (hb : b + kernelStackSize < 2 ^ 64)
    (apart : a + kernelStackSize ≤ b ∨ b + kernelStackSize ≤ a) : frameOf a ≠ frameOf b := by
  have size : kernelStackSize = 65536 := rfl
  have frame : interruptFrameSize = 176 := rfl
  intro same
  unfold frameOf stackTop at same
  rw [wrap64_of_lt ha, wrap64_of_lt hb, size, frame] at same
  rw [size] at apart
  omega

theorem stackMark_task (stack top frame : Nat) (k : Task) : (stackMark stack top frame k).priority = k.priority ∧
    (stackMark stack top frame k).pid = k.pid ∧ (stackMark stack top frame k).kernelStack = stack := ⟨rfl, rfl, rfl⟩

theorem stackTask_task (s : SchedState) (t : Slot) (stack : Nat) :
    ((stackTask s t stack).tasks t).priority = (s.tasks t).priority ∧
    ((stackTask s t stack).tasks t).pid = (s.tasks t).pid ∧
    ((stackTask s t stack).tasks t).kernelStack = stack := by
  rw [stackTask, setTask_same]
  exact stackMark_task stack _ _ _

theorem stackTask_picked {level : Nat} (picked : Picked s level t) (stack : Nat) : Picked (stackTask s t stack) level t := by
  have fills := stackTask_fills picked.unused stack
  obtain ⟨priority, pid, -⟩ := stackTask_task s t stack
  refine ⟨fills.after, priority.trans picked.priority, ?_, ?_⟩
  · rw [pid]
    exact picked.below
  · intro u used
    have same := fills.task_after used
    rw [same] at used ⊢
    rw [pid]
    exact picked.new u used

theorem stack_orderly {stack : Nat} (orderly : Orderly c) (at_ : c.calls i = .claimed request t)
    (fresh : FreshStack c stack) : Orderly (c.stacked i request t stack) := by
  have picked : Picked c.sched request.kind.priority t := by
    have ok := orderly.calls i
    rw [at_] at ok
    exact ok
  have pending : (c.calls i).Pending := by
    rw [at_]
    trivial
  have fills : Fills t c.sched (stackTask c.sched t stack) := stackTask_fills picked.unused _
  apply set_orderly orderly
  · exact stackTask_kept orderly.kept picked.unused _
  · exact fills.idleUsed orderly.used
  · exact fills.named orderly.named
  · have ready := stackTask_picked picked stack
    exact ⟨ready, ready.priority, (stackTask_task ..).2.2, Function.update_self ..⟩
  · intro j ne
    apply fills.callOk (orderly.others pending ne) _ (orderly.calls j)
    intro taken held
    apply Function.update_of_ne
    exact (frameOf_ne fresh.1 (orderly.valid j taken held) (fresh.2 j taken held)).symm
  · intro j ne
    refine ⟨fun _ => orderly.others pending ne, nofun, ?_⟩
    intro mine theirs mine_eq theirs_eq
    cases mine_eq
    exact fresh.2 j theirs theirs_eq
  · intro mine mine_eq
    cases mine_eq
    exact fresh.1

theorem CallOk.used {frames : Nat → Option Start} (ok : CallOk s frames phase) (owned : phase.owned = some t) :
    (s.tasks t).state ≠ .unused := by
  cases phase with
  | idle => cases owned
  | failed => cases owned
  | claimed request u => cases owned
  | stacked request u stack => cases owned
  | placed request u stack =>
    cases owned
    exact ok.1
  | returned request u stack pid =>
    cases owned
    exact ok.1

theorem enqueue_other {u : Slot} (unused : (s.tasks t).state = .unused) (used : (s.tasks u).state ≠ .unused) :
    ((enqueue s t).tasks u).state = (s.tasks u).state := by
  have ne : u ≠ t := by
    rintro rfl
    exact used unused
  exact (enqueue_task ne).1

theorem enqueue_idleUsed (unused : (s.tasks t).state = .unused) (used : IdleUsed s) : IdleUsed (enqueue s t) := by
  intro i idle
  rw [(enqueue_control s t).2.1] at idle
  rw [enqueue_other unused (used i idle)]
  exact used i idle

theorem enqueue_named {level : Nat} (named : Named s) (picked : Picked s level t) : Named (enqueue s t) := by
  have before {u : Slot} (ne : u ≠ t) (used : ((enqueue s t).tasks u).state ≠ .unused) :
      (s.tasks u).state ≠ .unused := by
    rw [(enqueue_task ne).1] at used
    exact used
  constructor
  · intro u used
    rw [(enqueue_same s t u).pid, enqueue_pids]
    by_cases here : u = t
    · rw [here]
      exact picked.below
    · exact named.below u (before here used)
  · intro u v used used' eq
    rw [(enqueue_same s t u).pid, (enqueue_same s t v).pid] at eq
    by_cases here : u = t
    · by_cases there : v = t
      · rw [here, there]
      · rw [here] at eq
        exact absurd eq.symm (picked.new v (before there used'))
    · by_cases there : v = t
      · rw [there] at eq
        exact absurd eq (picked.new u (before here used))
      · exact named.once u v (before here used) (before there used') eq

theorem enqueue_callOk {frames : Nat → Option Start} (unused : (s.tasks t).state = .unused) (done : ¬ phase.Pending)
    (ok : CallOk s frames phase) : CallOk (enqueue s t) frames phase := by
  cases phase with
  | idle => trivial
  | failed => trivial
  | claimed request u => exact absurd trivial done
  | stacked request u stack => exact absurd trivial done
  | placed request u stack =>
    refine ⟨?_, (enqueue_same s t u).built ok.2⟩
    rw [enqueue_other unused ok.1]
    exact ok.1
  | returned request u stack pid =>
    refine ⟨?_, (enqueue_same s t u).built ok.2.1, (enqueue_same s t u).pid.trans ok.2.2⟩
    rw [enqueue_other unused ok.1]
    exact ok.1

theorem place_orderly {stack : Nat} (orderly : Orderly c) (at_ : c.calls i = .stacked request t stack) :
    Orderly (c.placed i request t stack) := by
  obtain ⟨picked, built⟩ : Picked c.sched request.kind.priority t ∧ Built c.sched c.frames request t stack := by
    have ok := orderly.calls i
    rw [at_] at ok
    exact ok
  have pending : (c.calls i).Pending := by
    rw [at_]
    trivial
  have held : (c.calls i).holds = some stack := by
    rw [at_]
    rfl
  apply set_orderly orderly
  · exact enqueue_kept orderly.kept picked.unused
  · exact enqueue_idleUsed picked.unused orderly.used
  · exact enqueue_named orderly.named picked
  · refine ⟨?_, (enqueue_same _ t t).built built⟩
    rw [enqueue_state]
    exact nofun
  · exact fun j ne => enqueue_callOk picked.unused (orderly.others pending ne) (orderly.calls j)
  · intro j ne
    refine ⟨nofun, ?_, ?_⟩
    · intro u mine theirs
      cases mine
      exact (orderly.calls j).used theirs picked.unused
    · intro mine theirs mine_eq theirs_eq
      cases mine_eq
      exact (orderly.separate i j ne.symm).blocks stack theirs held theirs_eq
  · intro mine mine_eq
    cases mine_eq
    exact orderly.valid i stack held

theorem answer_orderly {stack : Nat} (orderly : Orderly c) (at_ : c.calls i = .placed request t stack) :
    Orderly (c.answered i request t stack) := by
  have ok := orderly.calls i
  rw [at_] at ok
  apply set_orderly orderly orderly.kept orderly.used orderly.named
  · exact ⟨ok.1, ok.2, rfl⟩
  · exact fun j _ => orderly.calls j
  · intro j ne
    have before := orderly.separate i j ne.symm
    rw [at_] at before
    exact ⟨nofun, before.slots, before.blocks⟩
  · intro mine mine_eq
    apply orderly.valid i mine
    rw [at_]
    exact mine_eq

theorem create_orderly {op : CreateOp} (orderly : Orderly c) (ok : CreateOk c op) (move : CreateMove env c op c') :
    Orderly c' := by
  cases op with
  | claim i request =>
    obtain ⟨-, move⟩ := move
    split at move
    case h_1 =>
      cases move
      apply set_orderly orderly orderly.kept orderly.used orderly.named
      · trivial
      · exact fun j _ => orderly.calls j
      · exact fun j _ => ⟨(fun pending => by cases pending), (fun _ owned => by cases owned), (fun _ _ held => by cases held)⟩
      · exact fun _ held => by cases held
    case h_2 t found =>
      cases move
      exact claim_orderly orderly ok (allocTask_unused found)
  | stack i =>
    obtain ⟨request, t, at_, move⟩ := move
    split at move
    · cases move
      exact giveBack_orderly orderly at_
    · obtain ⟨fresh, rfl⟩ := move
      exact stack_orderly orderly at_ fresh
  | place i =>
    obtain ⟨request, t, stack, at_, rfl⟩ := move
    exact place_orderly orderly at_
  | answer i =>
    obtain ⟨request, t, stack, at_, rfl⟩ := move
    exact answer_orderly orderly at_
  | other op =>
    obtain ⟨plain, s, run, rfl⟩ := move
    exact other_orderly orderly (step_kept orderly.kept run) (step_stable orderly.kept orderly.used plain run)

end Steps

section Runs
variable {c : Creating}

theorem createTask_named {s : SchedState} (env : Env) (kind : TaskKind) (named : Named s) :
    Named (createTask env s kind).2 := by
  rw [createTask_sections]
  cases found : allocTask s with
  | none => exact named
  | some t =>
    have unused := allocTask_unused found
    have fills := claimTask_fills env kind unused
    have picked := claimTask_picked env kind named unused
    simp only
    split
    · have back : Fills t (claimTask env s kind t) (giveBack (claimTask env s kind t) t) := setTask_fills fills.after rfl
      exact back.named (fills.named named)
    · have stacked := stackTask_fills fills.after env.stack
      exact enqueue_named (stacked.named (fills.named named)) (stackTask_picked picked env.stack)

theorem createTask_idleUsed {s : SchedState} (env : Env) (kind : TaskKind) (used : IdleUsed s) :
    IdleUsed (createTask env s kind).2 := by
  rw [createTask_sections]
  cases found : allocTask s with
  | none => exact used
  | some t =>
    have fills := claimTask_fills env kind (allocTask_unused found)
    simp only
    split
    · have back : Fills t (claimTask env s kind t) (giveBack (claimTask env s kind t) t) := setTask_fills fills.after rfl
      exact back.idleUsed (fills.idleUsed used)
    · have stacked := stackTask_fills fills.after env.stack
      exact enqueue_idleUsed stacked.after (stacked.idleUsed (fills.idleUsed used))

theorem schedInit_named (env : Env) (before : SchedState) :
    IdleUsed (schedInit env before) ∧ Named (schedInit env before) := by
  let blank : SchedState := { before with
    tasks := fun _ => emptyTask
    readyHead := fun _ => none
    readyTail := fun _ => none
    current := none
    schedulerRunning := false }
  have named : Named blank := ⟨fun t used => absurd rfl used, fun t u used => absurd rfl used⟩
  have created := createTask_named env ⟨prioIdle, true, 0, 0, 2 ^ 64 - 1, 0⟩ named
  constructor
  · intro i idle
    have test := List.find?_some idle
    simp only [decide_eq_true_eq] at test
    exact test.1
  · exact ⟨created.below, created.once⟩

theorem reached_named {s : SchedState} (reached : Reached s) : Kept s ∧ IdleUsed s ∧ Named s := by
  apply reached.induct fun s => Kept s ∧ IdleUsed s ∧ Named s
  · rintro s ⟨env, before, rfl⟩
    exact ⟨schedInit_spec env before, schedInit_named env before⟩
  · rintro s s' ⟨kept, used, named⟩ ⟨env, op, run⟩
    have after := step_kept kept run
    by_cases creates : op.Creates
    · cases op with
      | createKernel priority =>
        cases run
        exact ⟨after, createTask_idleUsed env _ used, createTask_named env _ named⟩
      | createUser space priority =>
        cases run
        exact ⟨after, createTask_idleUsed env _ used, createTask_named env _ named⟩
      | _ => exact absurd creates id
    · have stable := step_stable kept used creates run
      exact ⟨after, stable.idleUsed used, stable.named named⟩

theorem created_orderly (run : Reachable CreateBoots CreateStep c) : Orderly c := by
  apply run.induct Orderly
  · rintro c ⟨⟨env, before, boots⟩, -, calls⟩
    have quiet (i : Nat) : c.calls i = .idle := congrFun calls i
    constructor
    · exact boots ▸ schedInit_spec env before
    · exact boots ▸ (schedInit_named env before).1
    · exact boots ▸ (schedInit_named env before).2
    · intro i
      rw [quiet i]
      trivial
    · intro i j _
      rw [quiet i]
      exact ⟨nofun, nofun, nofun⟩
    · intro i stack held
      rw [quiet i] at held
      cases held
  · rintro c c' orderly ⟨env, op, ok, move⟩
    exact create_orderly orderly ok move

theorem schedFind_named {s : SchedState} {t : Slot} (named : Named s) (used : (s.tasks t).state ≠ .unused) :
    schedFind s (s.tasks t).pid = some t := by
  obtain ⟨u, found⟩ : ∃ u, schedFind s (s.tasks t).pid = some u := by
    apply Option.isSome_iff_exists.mp
    rw [schedFind, List.find?_isSome]
    exact ⟨t, List.mem_finRange t, by simpa using used⟩
  have test := List.find?_some found
  simp only [decide_eq_true_eq] at test
  rw [found, named.once u t test.1 used test.2]

def quietBoot : Creating := ⟨schedInit calm blankTable, fun _ => none, fun _ => .idle⟩

/-- The calm machine, with the next stack that kmalloc returns. -/
def giving (stack : Nat) : Env := { calm with stack := stack }

def low : Request := .kernel 0x400000 0 1
def high : Request := .kernel 0x500000 0 3

/-- One call after sched_init, from its first section to its answer. -/
def oneCall : Creating :=
  (((quietBoot.claimed calm 0 low 1).stacked 0 low 1 0x200000).placed 0 low 1 0x200000).answered 0 low 1 0x200000

theorem stacked_move (i : Nat) (request : Request) (t : Slot) {stack : Nat} (at_ : c.calls i = .claimed request t)
    (given : stack ≠ 0) (fresh : FreshStack c stack) :
    CreateMove (giving stack) c (.stack i) (c.stacked i request t stack) := by
  have some_ : (giving stack).stack ≠ 0 := given
  refine ⟨request, t, at_, ?_⟩
  rw [if_neg some_]
  exact ⟨fresh, rfl⟩

end Runs

end Qito.Sched
