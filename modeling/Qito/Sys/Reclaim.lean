import Qito.Sched.Creation
import Qito.Sched.Finality
import Qito.Sys.Descriptors
import Mathlib.Data.Fintype.Card

/-! What becomes of the slot and the descriptors of a task that has come to its
end. Neither sched_exit nor sched_kill closes a file, and no function of the
scheduler makes a slot UNUSED again once its task has been enqueued. -/
namespace Qito.Sys
open Faults Runs

/-- The scheduler and the filesystem, with the descriptor tables of all tasks. Three
fields are ghosts: how many tasks have been created, which of them have exited or
been killed, and whether a creation found no slot with fewer than MAX_TASKS alive. -/
structure Machine where
  sched : Sched.SchedState
  fs : Vfs.FsState
  fds : Sched.Slot → Nat → Option Vfs.FileId
  created : Nat
  dead : Sched.Slot → Bool
  starved : Bool

/-- The system calls on files. -/
inductive FileCall where
  | fd (call : FdCall)
  | unlink (path : UInt64)

def runFile (env : Vfs.Env) (k : Kernel) : FileCall → Except Fault (Int × Kernel)
  | .fd call => runFd env k call
  | .unlink path => sysUnlink k path.toNat

inductive MachineOp where
  | sched (op : Sched.SchedOp)
  | file (call : FileCall)

/-- The task that an operation ends. -/
def ends (s : Sched.SchedState) : Sched.SchedOp → Option Sched.Slot
  | .exit _ | .killCurrent _ => s.current
  | .kill pid => (Sched.schedFind s pid).filter fun t => some t ≠ s.idleTask
  | _ => none

def creates : Sched.SchedOp → Bool
  | .createKernel _ | .createUser _ _ => true
  | _ => false

@[grind =] def used (s : Sched.SchedState) (t : Sched.Slot) : Bool := (s.tasks t).state ≠ .unused

/-- The tasks that have neither exited nor been killed. -/
def liveTasks (m : Machine) : Nat := (Finset.univ.filter fun t => used m.sched t && !m.dead t).card

/-- The machine after an operation that leaves the scheduler in s. alloc_task clears
the descriptors of the slot it picks. -/
@[grind =]
def Machine.after (m : Machine) (env : Sched.Env) (op : Sched.SchedOp) (s : Sched.SchedState) : Machine :=
  if creates op then
    match Sched.allocTask m.sched with
    | none => { m with sched := s, starved := m.starved || decide (liveTasks m < Sched.maxTasks) }
    | some t => { m with
      sched := s
      fds := Function.update m.fds t fun _ => none
      created := if env.stack = 0 then m.created else m.created + 1 }
  else
    match ends m.sched op with
    | none => { m with sched := s }
    | some t => { m with sched := s, dead := Function.update m.dead t true }

def MachineMove (env : Sched.Env) (fsEnv : Vfs.Env) (m : Machine) (op : MachineOp) (m' : Machine) : Prop :=
  match op with
  | .sched op => ∃ s, Sched.step env m.sched op = .ok s ∧ m' = m.after env op s
  | .file call => ∃ c k code k', m.sched.current = some c ∧
    k.fs = m.fs ∧ k.task.fds = m.fds c ∧ k.task.isKernel = (m.sched.tasks c).isKernel ∧
    runFile fsEnv k call = .ok (code, k') ∧ m' = { m with fs := k'.fs, fds := Function.update m.fds c k'.task.fds }

def MachineBoots (m : Machine) : Prop :=
  ∃ env before, m.sched = Sched.schedInit env before ∧ m.fds = (fun _ _ => none) ∧
    m.created = (if env.stack = 0 then 0 else 1) ∧ m.dead = (fun _ => false) ∧ m.starved = false

/-- A task is created while fewer than MAX_TASKS have been, or while none has come to
its end; a task ends with all its descriptors closed, and opens none after that. -/
def MachineOk (m : Machine) : MachineOp → Prop
  | .sched op => (creates op = true → m.created < Sched.maxTasks ∨ ∀ t, m.dead t = false) ∧
    ∀ t, ends m.sched op = some t → ∀ fd, m.fds t fd = none
  | .file (.fd (.openAt _ _)) => ∀ c, m.sched.current = some c → m.dead c = false
  | _ => True

def MachineStep (m m' : Machine) : Prop := ∃ env fsEnv op, MachineOk m op ∧ MachineMove env fsEnv m op m'

/-- How many of the opens that a node counts are those of a task. -/
def onAccount (m : Machine) (t : Sched.Slot) (id : Vfs.NodeId) : Nat :=
  ((List.range maxFds).filter fun fd => ((m.fds t fd).bind m.fs.files).map (·.node) = some id).length

/-- No creation went without a slot that was not due to MAX_TASKS tasks being alive,
and no task that has come to its end keeps a file open. -/
def Reclaimed (m : Machine) : Prop :=
  m.starved = false ∧ ∀ t, m.dead t = true → ∀ id, onAccount m t id = 0

/-- What holds in every run: each task created keeps its slot. -/
structure Counted (m : Machine) : Prop where
  kept : Sched.Kept m.sched
  idle : Sched.IdleUsed m.sched
  count : (Finset.univ.filter fun t => used m.sched t).card = m.created
  dead : ∀ t, m.dead t = true → used m.sched t = true

section Slots
variable {s s' : Sched.SchedState} {t : Sched.Slot} {env : Sched.Env}

theorem used_iff : used s t = true ↔ (s.tasks t).state ≠ .unused := by simp [used]

theorem used_congr (unused : ∀ t, (s'.tasks t).state = .unused ↔ (s.tasks t).state = .unused) : used s' = used s := by
  funext t
  simp only [used, ne_eq, unused t]

theorem fills_used (fills : Sched.Fills t s s') : used s' = used s := by
  apply used_congr
  intro u
  by_cases here : u = t
  · rw [here, fills.before, fills.after]
  · rw [fills.others u here]

theorem enqueue_used (s : Sched.SchedState) (t : Sched.Slot) :
    used (Sched.enqueue s t) = Function.update (used s) t true := by
  funext u
  by_cases here : u = t
  · rw [here, Function.update_self, used_iff, Sched.enqueue_state]
    exact nofun
  · rw [Function.update_of_ne here, used, used, (Sched.enqueue_task here).1]

theorem createTask_used (env : Sched.Env) (kind : Sched.TaskKind) (found : Sched.allocTask s = some t) :
    used (Sched.createTask env s kind).2 = if env.stack = 0 then used s else Function.update (used s) t true := by
  have claimed := Sched.claimTask_fills env kind (Sched.allocTask_unused found)
  rw [Sched.createTask_sections, found]
  by_cases memory : env.stack = 0
  · have back : Sched.Fills t (Sched.claimTask env s kind t) (Sched.giveBack (Sched.claimTask env s kind t) t) :=
      Sched.setTask_fills claimed.after rfl
    simp only [memory, if_true]
    rw [fills_used back, fills_used claimed]
  · have stacked := Sched.stackTask_fills claimed.after env.stack
    simp only [memory, if_false]
    rw [enqueue_used, fills_used stacked, fills_used claimed]

theorem createTask_none (kind : Sched.TaskKind) (found : Sched.allocTask s = none) :
    (Sched.createTask env s kind).2 = s := by
  rw [Sched.createTask, found]

theorem allocTask_none : Sched.allocTask s = none ↔ ∀ t, used s t = true := by
  simp [Sched.allocTask, used]

theorem card_update {f : Sched.Slot → Bool} (fresh : f t = false) :
    (Finset.univ.filter fun u => Function.update f t true u).card = (Finset.univ.filter fun u => f u).card + 1 := by
  have grows : (Finset.univ.filter fun u => Function.update f t true u = true) =
      insert t (Finset.univ.filter fun u => f u = true) := by
    ext u
    by_cases here : u = t
    · simp [here]
    · simp [here]
  rw [grows, Finset.card_insert_of_notMem]
  simp [fresh]

theorem card_full {f : Sched.Slot → Bool} :
    (Finset.univ.filter fun u => f u).card = Sched.maxTasks ↔ ∀ t, f t = true := by
  have size : (Finset.univ : Finset Sched.Slot).card = Sched.maxTasks := Fintype.card_fin _
  constructor
  · intro full t
    exact Finset.card_filter_eq_iff.mp (full.trans size.symm) t (Finset.mem_univ t)
  · intro all
    exact (Finset.card_filter_eq_iff.mpr fun t _ => all t).trans size

end Slots

section Steps
variable {m m' : Machine} {env : Sched.Env} {op : Sched.SchedOp} {s : Sched.SchedState} {t : Sched.Slot}

theorem creates_task (creating : creates op = true) :
    ∃ kind, ∀ env s, Sched.step env s op = .ok (Sched.createTask env s kind).2 := by
  cases op with
  | createKernel priority => exact ⟨_, fun _ _ => rfl⟩
  | createUser space priority => exact ⟨_, fun _ _ => rfl⟩
  | _ => cases creating

theorem creates_iff : op.Creates ↔ creates op = true := by
  cases op with
  | createKernel priority => exact iff_of_true trivial rfl
  | createUser space priority => exact iff_of_true trivial rfl
  | _ => exact iff_of_false id nofun

theorem ends_used (kept : Sched.Kept m.sched) (ended : ends m.sched op = some t) : used m.sched t = true := by
  rw [used_iff]
  cases op with
  | exit code => exact kept.settled.used ended
  | killCurrent code => exact kept.settled.used ended
  | kill pid =>
    have found := (Option.filter_eq_some_iff.mp ended).1
    have test := List.find?_some found
    simp only [decide_eq_true_eq] at test
    exact test.1
  | _ => cases ended

theorem create_counted (counted : Counted m) (creating : creates op = true) (run : Sched.step env m.sched op = .ok s) :
    Counted (m.after env op s) := by
  obtain ⟨kind, makes⟩ := creates_task creating
  have lands := Except.ok.inj ((makes env m.sched).symm.trans run)
  have kept := Sched.step_kept counted.kept run
  have idle : Sched.IdleUsed s := lands ▸ Sched.createTask_idleUsed env kind counted.idle
  cases found : Sched.allocTask m.sched with
  | none =>
    rw [createTask_none kind found] at lands
    simp only [Machine.after, creating, found, if_true]
    exact ⟨kept, idle, lands ▸ counted.count, lands ▸ counted.dead⟩
  | some t =>
    have slots := createTask_used env kind found
    rw [lands] at slots
    have fresh : used m.sched t = false := by simp [used, Sched.allocTask_unused found]
    simp only [Machine.after, creating, found, if_true]
    refine ⟨kept, idle, ?_, ?_⟩
    · simp only [slots]
      split
      · exact counted.count
      · rw [card_update fresh, counted.count]
    · intro u dead
      have before := counted.dead u dead
      have ne : u ≠ t := by
        rintro rfl
        exact Bool.false_ne_true (fresh.symm.trans before)
      simp only [slots]
      split
      · exact before
      · rw [Function.update_of_ne ne]
        exact before

theorem after_other (m : Machine) (env : Sched.Env) (s : Sched.SchedState) (other : creates op = false) :
    (m.after env op s).sched = s ∧ (m.after env op s).fds = m.fds ∧ (m.after env op s).created = m.created ∧
    (m.after env op s).starved = m.starved ∧
    ∀ u, (m.after env op s).dead u = true ↔ m.dead u = true ∨ ends m.sched op = some u := by
  simp only [Machine.after, other]
  cases ended : ends m.sched op with
  | none => simp
  | some t =>
    refine ⟨rfl, rfl, rfl, rfl, ?_⟩
    intro u
    by_cases here : u = t
    · simp [here]
    · simp [here, Ne.symm here]

theorem other_counted (counted : Counted m) (other : creates op = false) (run : Sched.step env m.sched op = .ok s) :
    Counted (m.after env op s) := by
  have plain : ¬ op.Creates := by simp [creates_iff, other]
  have stable := Sched.step_stable counted.kept counted.idle plain run
  have slots : used s = used m.sched := used_congr stable.unused
  obtain ⟨sched, -, created, -, dead⟩ := after_other m env s other
  constructor
  · rw [sched]
    exact Sched.step_kept counted.kept run
  · rw [sched]
    exact stable.idleUsed counted.idle
  · rw [sched, created, slots]
    exact counted.count
  · intro u here
    rw [sched, slots]
    rcases (dead u).mp here with before | ended
    · exact counted.dead u before
    · exact ends_used counted.kept ended

theorem move_counted {fsEnv : Vfs.Env} {op : MachineOp} (counted : Counted m) (move : MachineMove env fsEnv m op m') :
    Counted m' := by
  cases op with
  | sched op =>
    obtain ⟨s, run, rfl⟩ := move
    cases creating : creates op with
    | true => exact create_counted counted creating run
    | false => exact other_counted counted creating run
  | file call =>
    obtain ⟨c, k, code, k', -, -, -, -, -, rfl⟩ := move
    exact ⟨counted.kept, counted.idle, counted.count, counted.dead⟩

theorem boots_counted (boots : MachineBoots m) : Counted m := by
  obtain ⟨env, before, sched, -, created, dead, -⟩ := boots
  let blank : Sched.SchedState := { before with
    tasks := fun _ => Sched.emptyTask
    readyHead := fun _ => none
    readyTail := fun _ => none
    current := none
    schedulerRunning := false }
  have free (t : Sched.Slot) : used blank t = false := rfl
  have slots : used m.sched = if env.stack = 0 then used blank else Function.update (used blank) 0 true := by
    rw [sched]
    exact createTask_used (s := blank) env _ rfl
  have none_ : (Finset.univ.filter fun t => used blank t).card = 0 := by simp [free]
  refine ⟨sched ▸ Sched.schedInit_spec env before, sched ▸ (Sched.schedInit_named env before).1, ?_, ?_⟩
  · simp only [slots, created]
    split
    · exact none_
    · rw [card_update (free 0), none_]
  · intro t gone
    rw [dead] at gone
    cases gone

/-- In any run at all: once as many tasks have been created as there are slots, a
creation finds none, and if one of the tasks has come to its end it is not for
want of MAX_TASKS living ones. -/
theorem full_table_starves (run : Reachable MachineBoots (fun m m' => ∃ env fsEnv op, MachineMove env fsEnv m op m') m)
    (full : m.created = Sched.maxTasks) (gone : m.dead t = true) :
    Sched.allocTask m.sched = none ∧ liveTasks m < Sched.maxTasks := by
  have counted : Counted m := by
    apply run.induct Counted
    · exact fun m boots => boots_counted boots
    · rintro m m' counted ⟨env, fsEnv, op, move⟩
      exact move_counted counted move
  have all := card_full.mp (counted.count.trans full)
  refine ⟨allocTask_none.mpr all, ?_⟩
  have size : (Finset.univ : Finset Sched.Slot).card = Sched.maxTasks := Fintype.card_fin _
  apply Nat.lt_of_le_of_ne
  · exact (Finset.card_filter_le _ _).trans_eq size
  · intro everybody
    have here := card_full.mp everybody t
    simp [gone] at here

/-- What holds as well when the steps meet the condition. -/
structure Tidy (m : Machine) : Prop where
  counted : Counted m
  closed : ∀ t, m.dead t = true → ∀ fd, m.fds t fd = none
  fed : m.starved = false

theorem runFile_closed {fsEnv : Vfs.Env} {k k' : Kernel} {code : Int} {call : FileCall}
    (opens : ∀ path flags, call ≠ .fd (.openAt path flags)) (empty : ∀ fd, k.task.fds fd = none)
    (run : runFile fsEnv k call = .ok (code, k')) : ∀ fd, k'.task.fds fd = none := by
  intro fd
  cases call with
  | unlink path =>
    simp only [runFile, sysUnlink] at run
    split at run
    · cases Except.ok.inj run
      exact empty fd
    · obtain ⟨resolved, -, rest⟩ := bind_ok.mp run
      obtain ⟨⟨answer, fs⟩, -, rest⟩ := bind_ok.mp rest
      cases Except.ok.inj rest
      exact empty fd
  | fd call =>
    cases call with
    | openAt path flags => exact absurd rfl (opens path flags)
    | close number =>
      simp only [runFile, runFd, sysClose] at run
      split at run
      · cases Except.ok.inj run
        exact empty fd
      · obtain ⟨fs, -, rest⟩ := bind_ok.mp run
        cases Except.ok.inj rest
        change Function.update k.task.fds number.toInt.toNat none fd = none
        by_cases here : fd = number.toInt.toNat
        · rw [here, Function.update_self]
        · rw [Function.update_of_ne here]
          exact empty fd
    | read number buf len =>
      rw [(sysRead_keeps run).1]
      exact empty fd
    | write number buf len =>
      rw [(sysWrite_keeps run).1]
      exact empty fd
    | seek number offset origin =>
      rw [(sysSeek_keeps run).1]
      exact empty fd

theorem file_tidy {fsEnv : Vfs.Env} {call : FileCall} (tidy : Tidy m) (ok : MachineOk m (.file call))
    (move : MachineMove env fsEnv m (.file call) m') : Tidy m' := by
  refine ⟨move_counted tidy.counted move, ?_, ?_⟩
  · obtain ⟨c, k, code, k', current, -, table, -, run, rfl⟩ := move
    intro t gone fd
    by_cases here : t = c
    · subst here
      simp only [Function.update_self]
      apply runFile_closed _ _ run
      · rintro path flags rfl
        exact Bool.false_ne_true ((ok t current).symm.trans gone)
      · rw [table]
        exact tidy.closed t gone
    · simp only [Function.update_of_ne here]
      exact tidy.closed t gone fd
  · obtain ⟨c, k, code, k', -, -, -, -, -, rfl⟩ := move
    exact tidy.fed

theorem sched_tidy (tidy : Tidy m) (ok : MachineOk m (.sched op)) (run : Sched.step env m.sched op = .ok s) :
    Tidy (m.after env op s) := by
  have counted : Counted (m.after env op s) := by
    cases creating : creates op with
    | true => exact create_counted tidy.counted creating run
    | false => exact other_counted tidy.counted creating run
  cases creating : creates op with
  | false =>
    obtain ⟨-, fds, -, starved, dead⟩ := after_other m env s creating
    refine ⟨counted, ?_, starved.trans tidy.fed⟩
    intro t gone fd
    rw [fds]
    rcases (dead t).mp gone with before | ended
    · exact tidy.closed t before fd
    · exact ok.2 t ended fd
  | true =>
    cases found : Sched.allocTask m.sched with
    | none =>
      have full : m.created = Sched.maxTasks := tidy.counted.count.symm.trans (card_full.mpr (allocTask_none.mp found))
      have all : liveTasks m = Sched.maxTasks := by
        apply card_full.mpr
        intro t
        rcases ok.1 creating with room | living
        · exact absurd full room.ne
        · rw [allocTask_none.mp found t, living t]
          rfl
      refine ⟨counted, ?_, ?_⟩
      · simp only [Machine.after, creating, found, if_true]
        exact tidy.closed
      · simp only [Machine.after, creating, found, if_true, all, tidy.fed]
        rfl
    | some t =>
      refine ⟨counted, ?_, ?_⟩
      · simp only [Machine.after, creating, found, if_true]
        intro u gone fd
        by_cases here : u = t
        · rw [here, Function.update_self]
        · rw [Function.update_of_ne here]
          exact tidy.closed u gone fd
      · simp only [Machine.after, creating, found, if_true]
        exact tidy.fed

/-- In every run that meets the condition, slots and descriptors suffice. -/
theorem resources_reclaimed (run : Reachable MachineBoots MachineStep m) : Reclaimed m := by
  have tidy : Tidy m := by
    apply run.induct Tidy
    · intro m boots
      refine ⟨boots_counted boots, ?_, ?_⟩
      · obtain ⟨env, before, -, -, -, dead, -⟩ := boots
        intro t gone
        rw [dead] at gone
        cases gone
      · obtain ⟨env, before, -, -, -, -, starved⟩ := boots
        exact starved
    · rintro m m' tidy ⟨env, fsEnv, op, ok, move⟩
      cases op with
      | sched op =>
        obtain ⟨s, ran, rfl⟩ := move
        exact sched_tidy tidy ok ran
      | file call => exact file_tidy tidy ok move
  refine ⟨tidy.fed, ?_⟩
  intro t gone id
  simp [onAccount, tidy.closed t gone]

end Steps

section Booted

/-- The machine after boot, with an empty root directory. -/
def booted : Machine where
  sched := Sched.schedInit Sched.calm Sched.blankTable
  fs := { Vfs.grown Vfs.bootEnv Vfs.bareFs (Vfs.ascii "/") .dir 0o755 with root := 1 }
  fds := fun _ _ => none
  created := 1
  dead := fun _ => false
  starved := false

def scheduled (m : Machine) (op : Sched.SchedOp) : Machine := m.after Sched.calm op (Sched.after m.sched op)

/-- Task 1 runs, beside the idle task. -/
def running : Machine := scheduled (scheduled (scheduled booted (.createKernel 2)) .start) (.interrupt ⟨0x9000, 32⟩)

theorem scheduled_move (fsEnv : Vfs.Env) (m : Machine) (op : Sched.SchedOp)
    (ok : (Sched.step Sched.calm m.sched op).isOk = true) :
    MachineMove Sched.calm fsEnv m (.sched op) (scheduled m op) :=
  ⟨_, (Sched.move_after m.sched op ok).1, rfl⟩

set_option maxRecDepth 100000 in
theorem running_reached {steps : Machine → Machine → Prop}
    (allowed : ∀ m m' op, (op = .createKernel 2 ∧ m.created = 1 ∨ op = .start ∨ op = .interrupt ⟨0x9000, 32⟩) →
      MachineMove Sched.calm Vfs.bootEnv m (.sched op) m' → steps m m') : Reachable MachineBoots steps running := by
  have boots : Reachable MachineBoots steps booted := .start ⟨Sched.calm, Sched.blankTable, rfl, rfl, rfl, rfl, rfl⟩
  have create := scheduled_move Vfs.bootEnv booted (.createKernel 2) (by decide)
  have created := boots.next (allowed _ _ _ (.inl ⟨rfl, rfl⟩) create)
  have start := scheduled_move Vfs.bootEnv (scheduled booted (.createKernel 2)) .start (by decide)
  have started := created.next (allowed _ _ _ (.inr (.inl rfl)) start)
  have switch := scheduled_move Vfs.bootEnv (scheduled (scheduled booted (.createKernel 2)) .start)
    (.interrupt ⟨0x9000, 32⟩) (by decide)
  exact started.next (allowed _ _ _ (.inr (.inr rfl)) switch)

theorem after_closed {m : Machine} {env : Sched.Env} {op : Sched.SchedOp} {s : Sched.SchedState}
    (closed : ∀ t fd, m.fds t fd = none) : ∀ t fd, (m.after env op s).fds t fd = none := by
  intro t fd
  unfold Machine.after
  split
  · split
    · exact closed t fd
    case h_2 u _ =>
      by_cases here : t = u
      · simp [here]
      · simp [here, closed t fd]
  · split
    · exact closed t fd
    · exact closed t fd

theorem scheduled_closed {m : Machine} (op : Sched.SchedOp) (closed : ∀ t fd, m.fds t fd = none) :
    ∀ t fd, (scheduled m op).fds t fd = none := after_closed closed

theorem running_closed : ∀ t fd, running.fds t fd = none := by
  have boots : ∀ t fd, booted.fds t fd = none := fun _ _ => rfl
  unfold running
  exact scheduled_closed _ (scheduled_closed _ (scheduled_closed _ boots))

set_option maxRecDepth 100000 in
theorem resources_reclaimed_exit : (scheduled running (.exit 0)).dead 1 = true ∧ Reclaimed (scheduled running (.exit 0)) := by
  have reached : Reachable MachineBoots MachineStep running := by
    apply running_reached
    intro m m' op which move
    refine ⟨Sched.calm, Vfs.bootEnv, .sched op, ?_, move⟩
    rcases which with ⟨rfl, one⟩ | rfl | rfl
    · exact ⟨fun _ => .inl (by rw [one]; decide), nofun⟩
    · exact ⟨nofun, nofun⟩
    · exact ⟨nofun, nofun⟩
  have exits := scheduled_move Vfs.bootEnv running (.exit 0) (by decide)
  have ok : MachineOk running (.sched (.exit 0)) := ⟨nofun, fun t _ fd => running_closed t fd⟩
  exact ⟨by decide, resources_reclaimed (reached.next ⟨_, _, _, ok, exits⟩)⟩

/-- Task 1 opens /f with O_RDWR and O_CREATE. -/
def opener (m : Machine) : Kernel :=
  let k := onePage fun a => if a = 0x1000 then 47 else if a = 0x1001 then 102 else 0
  { k with fs := m.fs, task := { k.task with isKernel := true, fds := m.fds 1 } }

def opening (m : Machine) : Machine :=
  match runFile Vfs.bootEnv (opener m) (.fd (.openAt 0x1000 0x0103)) with
  | .ok (_, k) => { m with fs := k.fs, fds := Function.update m.fds 1 k.task.fds }
  | .error _ => m

theorem opening_move (m : Machine) (current : m.sched.current = some 1) (kernel : (m.sched.tasks 1).isKernel = true)
    (ok : (runFile Vfs.bootEnv (opener m) (.fd (.openAt 0x1000 0x0103))).isOk = true) :
    MachineMove Sched.calm Vfs.bootEnv m (.file (.fd (.openAt 0x1000 0x0103))) (opening m) := by
  unfold opening
  cases run : runFile Vfs.bootEnv (opener m) (.fd (.openAt 0x1000 0x0103)) with
  | error fault =>
    rw [run] at ok
    cases ok
  | ok result => exact ⟨1, opener m, result.1, result.2, current, rfl, rfl, kernel.symm, run, rfl⟩

set_option maxRecDepth 100000 in
/-- A task opens a file and exits; the file cannot be unlinked any more. -/
theorem exit_keeps_file_open :
    ((Vfs.fsUnlink (scheduled (opening running) (.exit 0)).fs (Vfs.ascii "/f")).map Prod.fst = some (-Vfs.qePerm)) ∧
    ¬ ∀ m, Reachable MachineBoots (fun m m' => ∃ env fsEnv op, MachineMove env fsEnv m op m') m → Reclaimed m := by
  refine ⟨by decide, ?_⟩
  intro claim
  have reached : Reachable MachineBoots (fun m m' => ∃ env fsEnv op, MachineMove env fsEnv m op m') running :=
    running_reached fun m m' op _ move => ⟨_, _, _, move⟩
  have opens := opening_move running (by decide) (by decide) (by decide)
  have exits := scheduled_move Vfs.bootEnv (opening running) (.exit 0) (by decide)
  obtain ⟨-, closed⟩ := claim _ ((reached.next ⟨_, _, _, opens⟩).next ⟨_, _, _, exits⟩)
  have kept : onAccount (scheduled (opening running) (.exit 0)) 1 2 = 1 := by decide
  have gone : (scheduled (opening running) (.exit 0)).dead 1 = true := by decide
  cases kept.symm.trans (closed 1 gone 2)

end Booted

end Qito.Sys
