import Qito.Sched.Turns

/-! Whether a dead task stays dead. sched_unblock tests the state of a task before
it takes the lock and enqueues it after, so the two are steps of their own here;
the same holds for the first lines of sched_exit. -/
namespace Qito.Sched
open Links Runs

/-- The scheduler and the calls of sched_unblock between their test and their lock. -/
structure Racing where
  sched : SchedState
  waking : List Slot

inductive RaceOp where
  | whole (op : SchedOp)
  | test (task : Option Slot)
  | wake (task : Slot)
  | die (code : Int)

/-- The part of sched_unblock behind its test. -/
def wakeUp (s : SchedState) (t : Slot) : SchedState := enqueue (setTask s t fun k => { k with blockReason := none }) t

/-- The lines of sched_exit before it looks for the parent. -/
def dieMark (s : SchedState) (code : Int) : SchedState :=
  match s.current with
  | none => s
  | some c => setTask s c (zombieMark code)

def RaceMove (env : Env) (r : Racing) (op : RaceOp) (r' : Racing) : Prop :=
  match op with
  | .whole op => step env r.sched op = .ok r'.sched ∧ r'.waking = r.waking
  | .test none => r' = r
  | .test (some t) =>
    r' = if (r.sched.tasks t).state ≠ .blocked then r else { r with waking := t :: r.waking }
  | .wake t => t ∈ r.waking ∧ r' = { sched := wakeUp r.sched t, waking := r.waking.erase t }
  | .die code => r' = { r with sched := dieMark r.sched code }

def RaceBoots (r : Racing) : Prop := Boots r.sched ∧ r.waking = []

/-- No task that has been killed goes to sleep, a task is still blocked when it is
enqueued, and the idle task does not exit. -/
def RaceOk (r : Racing) : RaceOp → Prop
  | .whole (.sleepMs _) | .whole (.block _) =>
    r.sched.schedulerRunning = true → ∀ c, r.sched.current = some c → (r.sched.tasks c).state ≠ .zombie
  | .whole (.exit _) | .die _ => ∀ c, r.sched.current = some c → r.sched.idleTask ≠ some c
  | .wake t => (r.sched.tasks t).state = .blocked
  | _ => True

def RaceStep (r r' : Racing) : Prop := ∃ env op, RaceOk r op ∧ RaceMove env r op r'

/-- The task is dead, and stays so: it is only current if it has been all along. -/
def StaysDead (t : Slot) (s s' : SchedState) : Prop :=
  (s.tasks t).state = .zombie → (s'.tasks t).state = .zombie ∧ (s'.current = some t → s.current = some t)

section Dead
variable {s s' s'' : SchedState} {t u : Slot}

/-- The same tasks are dead, and the idle task is the same. -/
structure SameDead (s s' : SchedState) : Prop where
  dead : ∀ t, (s'.tasks t).state = .zombie ↔ (s.tasks t).state = .zombie
  idle : s'.idleTask = s.idleTask

theorem SameDead.refl (s : SchedState) : SameDead s s := ⟨fun _ => Iff.rfl, rfl⟩

theorem SameDead.trans (first : SameDead s s') (second : SameDead s' s'') : SameDead s s'' :=
  ⟨fun t => (second.dead t).trans (first.dead t), second.idle.trans first.idle⟩

theorem setTask_dead {f : Task → Task} (dead : (f (s.tasks t)).state = .zombie ↔ (s.tasks t).state = .zombie) :
    SameDead s (setTask s t f) := by
  constructor
  · intro u
    by_cases here : u = t
    · subst here
      rw [setTask_same]
      exact dead
    · rw [setTask_other here]
  · rfl

theorem enqueue_dead (alive : (s.tasks t).state ≠ .zombie) : SameDead s (enqueue s t) := by
  constructor
  · intro u
    by_cases here : u = t
    · subst here
      rw [enqueue_state]
      exact iff_of_false nofun alive
    · rw [(enqueue_task here).1]
  · exact (enqueue_control s t).2.1

/-- The idle task is not dead. -/
def IdleAlive (s : SchedState) : Prop := ∀ i, s.idleTask = some i → (s.tasks i).state ≠ .zombie

theorem SameDead.idleAlive (same : SameDead s s') (alive : IdleAlive s) : IdleAlive s' := by
  intro i idle dead
  exact alive i (same.idle ▸ idle) ((same.dead i).mp dead)

theorem Turned.sameDead (turned : Turned s s') (alive : IdleAlive s) : SameDead s s' := by
  refine ⟨?_, turned.idle⟩
  intro t
  rcases turned.turn t with same | ⟨from_, active⟩
  · rw [same]
  · apply iff_of_false
    · intro dead
      rw [dead] at active
      rcases active with here | here
      · cases here
      · cases here
    · intro dead
      rw [dead] at from_
      rcases from_ with here | (here | here) | idle
      · cases here
      · cases here
      · cases here
      · exact alive t idle dead

end Dead

section Operations
variable {s s' s'' : SchedState} {t : Slot}

/-- No dead task comes back and the idle task does not die, without a switch. -/
structure Buries (s s' : SchedState) : Prop where
  dead : ∀ t, (s.tasks t).state = .zombie → (s'.tasks t).state = .zombie
  alive : IdleAlive s → IdleAlive s'
  current : s'.current = s.current

theorem SameDead.buries (same : SameDead s s') (current : s'.current = s.current) : Buries s s' :=
  ⟨fun t => (same.dead t).mpr, same.idleAlive, current⟩

theorem Buries.trans (first : Buries s s') (second : Buries s' s'') : Buries s s'' :=
  ⟨fun t dead => second.dead t (first.dead t dead), fun alive => second.alive (first.alive alive),
    second.current.trans first.current⟩

theorem kill_buries {f : Task → Task} (other : s.idleTask ≠ some t) (dies : (f (s.tasks t)).state = .zombie) :
    Buries s (setTask s t f) := by
  constructor
  · intro u dead
    by_cases here : u = t
    · subst here
      rw [setTask_same]
      exact dies
    · rw [setTask_other here]
      exact dead
  · intro alive i idle
    have ne : i ≠ t := fun same => other (same ▸ idle)
    rw [setTask_other ne]
    exact alive i idle
  · rfl

theorem wakeUp_dead (blocked : (s.tasks t).state = .blocked) :
    SameDead s (wakeUp s t) ∧ (wakeUp s t).current = s.current := by
  have cleared : SameDead s (setTask s t fun k => { k with blockReason := none }) := setTask_dead Iff.rfl
  have alive : ((setTask s t fun k => { k with blockReason := none }).tasks t).state ≠ .zombie := by
    rw [setTask_same]
    change (s.tasks t).state ≠ _
    rw [blocked]
    exact nofun
  exact ⟨cleared.trans (enqueue_dead alive), (enqueue_control ..).1⟩

theorem schedUnblock_dead (s : SchedState) (task : Option Slot) :
    SameDead s (schedUnblock s task) ∧ (schedUnblock s task).current = s.current := by
  cases task with
  | none => exact ⟨SameDead.refl s, rfl⟩
  | some t =>
    rw [schedUnblock]
    split
    · exact ⟨SameDead.refl s, rfl⟩
    case isFalse asleep => exact wakeUp_dead (not_not.mp asleep)

theorem schedUnblock_buries (task : Option Slot) : Buries s (schedUnblock s task) := by
  obtain ⟨dead, current⟩ := schedUnblock_dead s task
  exact dead.buries current

theorem dieMark_buries (code : Int) (other : ∀ c, s.current = some c → s.idleTask ≠ some c) : Buries s (dieMark s code) := by
  rw [dieMark]
  split
  · exact (SameDead.refl s).buries rfl
  case h_2 c current => exact kill_buries (other c current) rfl

theorem exitMark_buries {code : Int} (other : ∀ c, s.current = some c → s.idleTask ≠ some c) :
    Buries s (exitMark s code) := by
  rw [exitMark]
  split
  · exact (SameDead.refl s).buries rfl
  case h_2 c current =>
    have died : Buries s (setTask s c (zombieMark code)) := kill_buries (other c current) rfl
    simp only
    split
    · exact died
    · split
      · exact died.trans (schedUnblock_buries _)
      · exact died

theorem markTask_dead (alive : (s.tasks t).state ≠ .zombie) (stack top frame : Nat) :
    SameDead s (enqueue (setTask s t (stackMark stack top frame)) t) ∧
      (enqueue (setTask s t (stackMark stack top frame)) t).current = s.current := by
  have same : SameDead s (setTask s t (stackMark stack top frame)) := setTask_dead Iff.rfl
  have living : ((setTask s t (stackMark stack top frame)).tasks t).state ≠ .zombie :=
    fun dead => alive ((same.dead t).mp dead)
  exact ⟨same.trans (enqueue_dead living), (enqueue_control ..).1⟩

theorem placeTask_dead (env : Env) (alive : (s.tasks t).state ≠ .zombie) (pid : Int) :
    SameDead s (placeTask env s t pid).2 ∧ (placeTask env s t pid).2.current = s.current := by
  rw [placeTask]
  split
  · change SameDead s (setTask s t fun k => { k with state := .unused }) ∧ _
    constructor
    · apply setTask_dead
      apply iff_of_false _ alive
      intro dead
      cases dead
    · rfl
  · exact markTask_dead alive env.stack _ _

theorem createTask_dead (env : Env) (kind : TaskKind) :
    SameDead s (createTask env s kind).2 ∧ (createTask env s kind).2.current = s.current := by
  rw [createTask]
  split
  · exact ⟨SameDead.refl s, rfl⟩
  case h_2 t alloc =>
    let filled : SchedState := { setTask s t (fun _ => newTask env s kind) with nextPid := s.nextPid + 1 }
    have unused : (s.tasks t).state = .unused := by simpa using List.find?_some alloc
    have fresh : (filled.tasks t).state = .unused := by
      change ((setTask s t fun _ => newTask env s kind).tasks t).state = _
      rw [setTask_same]
      rfl
    have same : SameDead s (setTask s t fun _ => newTask env s kind) := by
      apply setTask_dead
      rw [unused]
      exact iff_of_false (by simp [newTask, emptyTask]) (by decide)
    have first : SameDead s filled := ⟨same.dead, same.idle⟩
    have living : (filled.tasks t).state ≠ .zombie := by
      rw [fresh]
      decide
    obtain ⟨second, current⟩ := placeTask_dead env living s.nextPid
    exact ⟨first.trans second, current⟩

theorem schedInit_alive (env : Env) (before : SchedState) : IdleAlive (schedInit env before) := by
  let blank : SchedState := { before with
    tasks := fun _ => emptyTask
    readyHead := fun _ => none
    readyTail := fun _ => none
    current := none
    schedulerRunning := false }
  have same := (createTask_dead (s := blank) env ⟨prioIdle, true, 0, 0, 2 ^ 64 - 1, 0⟩).1
  intro i idle dead
  have empty : (blank.tasks i).state = .zombie := (same.dead i).mp dead
  cases empty

theorem plain_buries {env : Env} {op : SchedOp} {q : Nat → List Slot} (queued : Queued s q) (alive : IdleAlive s)
    (run : plain env s op = .ok s') : Buries s s' := by
  have same : Buries s s := (SameDead.refl s).buries rfl
  cases op with
  | start =>
    cases run
    exact SameDead.buries ⟨fun _ => Iff.rfl, rfl⟩ rfl
  | createKernel priority =>
    cases run
    obtain ⟨dead, current⟩ := createTask_dead (s := s) env _
    exact dead.buries current
  | createUser space priority =>
    cases run
    obtain ⟨dead, current⟩ := createTask_dead (s := s) env _
    exact dead.buries current
  | unblock task =>
    cases run
    exact schedUnblock_buries task
  | killCurrent code =>
    simp only [plain, schedKillCurrent] at run
    split at run
    · cases run
    case h_2 c current =>
      split at run
      · cases run
      case isFalse other =>
        cases run
        exact kill_buries (fun idle => other (current.trans idle.symm)) rfl
  | kill pid =>
    simp only [plain, schedKill] at run
    split at run
    · cases run
      exact same
    case h_2 t found =>
      split at run
      · cases run
        exact same
      case isFalse other =>
        obtain ⟨s₁, unlinked, -⟩ := unlinkReady_spec queued t
        rw [unlinked] at run
        cases run
        obtain ⟨turned, current⟩ := unlinkReady_turned queued unlinked
        have dead := turned.sameDead alive
        have spared : s₁.idleTask ≠ some t := by
          rw [dead.idle]
          exact fun idle => other idle.symm
        have died : Buries s₁ (setTask s₁ t fun k => { k with state := .zombie, exitCode := 130 }) :=
          kill_buries spared rfl
        exact (dead.buries current).trans died
  | interrupt frame =>
    cases run
    exact same
  | yield =>
    cases run
    exact same
  | sleepMs ms =>
    cases run
    exact same
  | block reason =>
    cases run
    exact same
  | exit code =>
    cases run
    exact same

theorem raises_buries {env : Env} {op : SchedOp} {r : Racing} {frame : InterruptFrame} (ok : RaceOk r (.whole op))
    (raised : raises env r.sched op = some (s', frame)) : Buries r.sched s' := by
  have gives {mark : Task → Task} (dead : r.sched.schedulerRunning = true → ∀ c, r.sched.current = some c →
      ((mark (r.sched.tasks c)).state = .zombie ↔ (r.sched.tasks c).state = .zombie))
      (marked : (giveUp r.sched mark).map (·, softInterrupt env) = some (s', frame)) : Buries r.sched s' := by
    obtain ⟨s₁, given, pair⟩ := Option.map_eq_some_iff.mp marked
    cases pair
    unfold giveUp at given
    split at given
    · cases given
    case h_2 c current =>
      split at given
      case isTrue armed =>
        cases given
        exact (setTask_dead (dead armed c current)).buries rfl
      case isFalse => cases given
  cases op with
  | interrupt vector =>
    cases raised
    exact (SameDead.refl _).buries rfl
  | yield => exact gives (fun _ _ _ => Iff.rfl) raised
  | sleepMs ms =>
    apply gives _ raised
    intro armed c current
    apply iff_of_false _ (ok armed c current)
    intro dead
    cases dead
  | block reason =>
    apply gives _ raised
    intro armed c current
    apply iff_of_false _ (ok armed c current)
    intro dead
    cases dead
  | exit code =>
    cases raised
    exact exitMark_buries ok
  | start => cases raised
  | createKernel priority => cases raised
  | createUser space priority => cases raised
  | unblock task => cases raised
  | killCurrent code => cases raised
  | kill pid => cases raised

end Operations

section Races
variable {r r' : Racing} {t : Slot}

/-- What holds between the steps of a run that meets the condition. -/
structure Sane (r : Racing) : Prop where
  kept : Kept r.sched
  alive : IdleAlive r.sched

theorem Buries.staysDead {s s' : SchedState} (buries : Buries s s') (t : Slot) : StaysDead t s s' := by
  intro dead
  refine ⟨buries.dead t dead, ?_⟩
  rw [buries.current]
  exact id

theorem StaysDead.trans {s s' s'' : SchedState} (first : StaysDead t s s') (second : StaysDead t s' s'') :
    StaysDead t s s'' := by
  intro dead
  obtain ⟨dead', current⟩ := first dead
  obtain ⟨dead'', current'⟩ := second dead'
  exact ⟨dead'', fun here => current (current' here)⟩

theorem dieMark_kept {s : SchedState} (kept : Kept s) (code : Int) : Kept (dieMark s code) := by
  obtain ⟨⟨q, queued⟩, settled⟩ := kept
  rw [dieMark]
  split
  · exact ⟨⟨q, queued⟩, settled⟩
  case h_2 c current =>
    constructor
    · exact ⟨q, queued.outside (settled.waits current) (by simp [zombieMark])⟩
    · intro d same
      cases Option.some.inj (current.symm.trans same)
      right
      simp [zombieMark]

theorem whole_sane {env : Env} {op : SchedOp} (sane : Sane r) (ok : RaceOk r (.whole op))
    (run : step env r.sched op = .ok r'.sched) : Sane r' ∧ ∀ t, StaysDead t r.sched r'.sched := by
  have kept : Kept r'.sched := step_kept sane.kept run
  unfold step at run
  split at run
  case h_1 s₁ frame raised =>
    have first := raises_buries ok raised
    obtain ⟨⟨q, queued⟩, -⟩ := raises_spec sane.kept raised
    cases returned : schedOnInterruptReturn env s₁ frame with
    | error halt =>
      rw [returned] at run
      cases run
    | ok result =>
      rw [returned] at run
      have lands : result.2 = r'.sched := Except.ok.inj run
      obtain ⟨turned, moves⟩ := interrupt_turned queued returned
      rw [lands] at turned moves
      have second := turned.sameDead (first.alive sane.alive)
      refine ⟨⟨kept, second.idleAlive (first.alive sane.alive)⟩, ?_⟩
      intro t dead
      have later := (second.dead t).mpr (first.dead t dead)
      refine ⟨later, ?_⟩
      rcases moves with stays | ⟨c, current, running⟩
      · rw [stays, first.current]
        exact id
      · intro here
        cases Option.some.inj (current.symm.trans here)
        cases running.symm.trans later
  case h_2 =>
    obtain ⟨q, queued⟩ := sane.kept.queued
    have buries := plain_buries queued sane.alive run
    exact ⟨⟨kept, buries.alive sane.alive⟩, buries.staysDead⟩

theorem race_sane {env : Env} {op : RaceOp} (sane : Sane r) (ok : RaceOk r op) (move : RaceMove env r op r') :
    Sane r' ∧ ∀ t, StaysDead t r.sched r'.sched := by
  have idle : Buries r.sched r.sched := (SameDead.refl _).buries rfl
  cases op with
  | whole op => exact whole_sane sane ok move.1
  | test task =>
    have same : r'.sched = r.sched := by
      cases task with
      | none =>
        cases move
        rfl
      | some t =>
        rw [move]
        split
        · rfl
        · rfl
    exact ⟨⟨same ▸ sane.kept, same ▸ sane.alive⟩, same ▸ idle.staysDead⟩
  | wake t =>
    obtain ⟨-, rfl⟩ := move
    have blocked : (r.sched.tasks t).state = .blocked := ok
    obtain ⟨dead, current⟩ := wakeUp_dead blocked
    have buries := dead.buries current
    have atomic : schedUnblock r.sched (some t) = wakeUp r.sched t := by
      rw [schedUnblock, if_neg (not_not.mpr blocked)]
      rfl
    have kept := (schedUnblock_spec sane.kept (some t)).1
    rw [atomic] at kept
    exact ⟨⟨kept, buries.alive sane.alive⟩, buries.staysDead⟩
  | die code =>
    cases move
    have buries := dieMark_buries code ok
    exact ⟨⟨dieMark_kept sane.kept code, buries.alive sane.alive⟩, buries.staysDead⟩

/-- Once a task is dead it stays dead, and no switch leads to it. -/
theorem termination_final (run : Reachable RaceBoots RaceStep r) (later : Relation.ReflTransGen RaceStep r r')
    (t : Slot) : StaysDead t r.sched r'.sched := by
  have sane : Sane r := by
    apply run.induct Sane
    · rintro r ⟨⟨env, before, boots⟩, -⟩
      exact ⟨boots ▸ schedInit_spec env before, boots ▸ schedInit_alive env before⟩
    · rintro r r' sane ⟨env, op, ok, move⟩
      exact (race_sane sane ok move).1
  -- the induction is on the run after the death, with the invariant at each of its states
  have both : Sane r' ∧ StaysDead t r.sched r'.sched := by
    induction later with
    | refl => exact ⟨sane, fun dead => ⟨dead, id⟩⟩
    | tail _ moves ih =>
      obtain ⟨env, op, ok, move⟩ := moves
      obtain ⟨sane', stays⟩ := race_sane ih.1 ok move
      exact ⟨sane', ih.2.trans (stays t)⟩
  exact both.2

/-- The state after an operation on the calm machine. -/
def after (s : SchedState) (op : SchedOp) : SchedState :=
  match step calm s op with
  | .ok s' => s'
  | .error _ => s

theorem move_after (s : SchedState) (op : SchedOp) (ok : (step calm s op).isOk = true) :
    RaceMove calm ⟨s, []⟩ (.whole op) ⟨after s op, []⟩ := by
  refine ⟨?_, rfl⟩
  unfold after
  cases run : step calm s op with
  | ok s' => rfl
  | error halt =>
    rw [run] at ok
    cases ok

/-- A second task runs, next to the idle task. -/
def twoTasks : SchedState :=
  after (schedStart (after (schedInit calm blankTable) (.createKernel 2))) (.interrupt ⟨0x9000, 32⟩)

set_option maxRecDepth 100000 in
theorem twoTasks_reached {steps : Racing → Racing → Prop}
    (allowed : ∀ r r' op, (op = .createKernel 2 ∨ op = .start ∨ op = .interrupt ⟨0x9000, 32⟩) →
      RaceMove calm r (.whole op) r' → steps r r') : Reachable RaceBoots steps ⟨twoTasks, []⟩ := by
  have boots : Reachable RaceBoots steps ⟨schedInit calm blankTable, []⟩ := .start ⟨⟨calm, blankTable, rfl⟩, rfl⟩
  have create := move_after (schedInit calm blankTable) (.createKernel 2) (by decide)
  have created := Reachable.next boots (allowed _ _ _ (.inl rfl) create)
  have start : RaceMove calm ⟨after (schedInit calm blankTable) (.createKernel 2), []⟩ (.whole .start)
    ⟨schedStart (after (schedInit calm blankTable) (.createKernel 2)), []⟩ := ⟨rfl, rfl⟩
  have started := Reachable.next created (allowed _ _ _ (.inr (.inl rfl)) start)
  have switch := move_after (schedStart (after (schedInit calm blankTable) (.createKernel 2)))
    (.interrupt ⟨0x9000, 32⟩) (by decide)
  exact .next started (allowed _ _ _ (.inr (.inr rfl)) switch)

set_option maxRecDepth 100000 in
/-- A task that kills itself is dead at the next interrupt, and the idle task runs. -/
theorem termination_final_kill :
    ((after twoTasks (.kill 2)).tasks 1).state = .zombie ∧ twoTasks.current = some 1 ∧
    ((after (after twoTasks (.kill 2)) (.interrupt ⟨0x9000, 32⟩)).tasks 1).state = .zombie ∧
    (after (after twoTasks (.kill 2)) (.interrupt ⟨0x9000, 32⟩)).current = some 0 := by
  have reached : Reachable RaceBoots RaceStep ⟨twoTasks, []⟩ := by
    apply twoTasks_reached
    intro r r' op which move
    refine ⟨calm, .whole op, ?_, move⟩
    rcases which with rfl | rfl | rfl
    · trivial
    · trivial
    · trivial
  have kill : RaceStep ⟨twoTasks, []⟩ ⟨after twoTasks (.kill 2), []⟩ :=
    ⟨calm, .whole (.kill 2), trivial, move_after twoTasks (.kill 2) (by decide)⟩
  have later : RaceStep ⟨after twoTasks (.kill 2), []⟩ ⟨after (after twoTasks (.kill 2)) (.interrupt ⟨0x9000, 32⟩), []⟩ :=
    ⟨calm, .whole (.interrupt ⟨0x9000, 32⟩), trivial,
      move_after (after twoTasks (.kill 2)) (.interrupt ⟨0x9000, 32⟩) (by decide)⟩
  have dead : ((after twoTasks (.kill 2)).tasks 1).state = .zombie := by decide
  have final {s s' : SchedState} (run : Reachable RaceBoots RaceStep ⟨s, []⟩) (later : RaceStep ⟨s, []⟩ ⟨s', []⟩) :
      StaysDead 1 s s' := termination_final run (.single later) 1
  exact ⟨dead, by decide, (final (.next reached kill) later dead).1, by decide⟩

set_option maxRecDepth 100000 in
/-- A task that kills itself goes on running, and can still go to sleep. -/
theorem killed_task_sleeps :
    ¬ ∀ r r', Reachable RaceBoots (fun r r' => ∃ env op, RaceMove env r op r') r →
      Relation.ReflTransGen (fun r r' => ∃ env op, RaceMove env r op r') r r' →
      ∀ t, StaysDead t r.sched r'.sched := by
  intro claim
  have final {s s' : SchedState} (run : Reachable RaceBoots (fun r r' => ∃ env op, RaceMove env r op r') ⟨s, []⟩)
      (later : ∃ env op, RaceMove env ⟨s, []⟩ op ⟨s', []⟩) : StaysDead 1 s s' := claim _ _ run (.single later) 1
  have reached : Reachable RaceBoots (fun r r' => ∃ env op, RaceMove env r op r') ⟨twoTasks, []⟩ :=
    twoTasks_reached fun r r' op _ move => ⟨calm, .whole op, move⟩
  have kill := move_after twoTasks (.kill 2) (by decide)
  have killed := Reachable.next reached ⟨calm, _, kill⟩
  have sleep := move_after (after twoTasks (.kill 2)) (.sleepMs 50) (by decide)
  have dead : ((after twoTasks (.kill 2)).tasks 1).state = .zombie := by decide
  have stays := final killed ⟨calm, _, sleep⟩ dead
  have sleeping : ((after (after twoTasks (.kill 2)) (.sleepMs 50)).tasks 1).state = .sleeping := by decide
  cases sleeping.symm.trans stays.1

end Races

end Qito.Sched
