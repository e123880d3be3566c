import Qito.Sched.Runs

/-! What the way back from an interrupt does to the tasks: it passes the turn on
among the tasks that are ready, running or asleep, and to the idle task when there
is no other. Who a task is does not change after its creation. -/
namespace Qito.Sched

/-- The fields of a task that only its creation writes. -/
def identity (k : Task) : Int × Int × Nat × Nat × Nat × Bool × Nat × Nat × Nat :=
  (k.pid, k.ppid, k.kernelStack, k.kernelStackTop, k.space, k.isKernel, k.uid, k.gid, k.capabilities)

/-- The same task, with a valid priority left as it is. -/
structure SameTask (k k' : Task) : Prop where
  identity : identity k' = identity k
  priority : k.priority < prioCount → k'.priority = k.priority

theorem SameTask.trans {k k' k'' : Task} (first : SameTask k k') (second : SameTask k' k'') : SameTask k k'' := by
  refine ⟨second.identity.trans first.identity, ?_⟩
  intro valid
  have kept := first.priority valid
  exact (second.priority (kept ▸ valid)).trans kept

def Active (a : TaskState) : Prop := a = .ready ∨ a = .running

/-- A task keeps its state, or its turn has come or gone. -/
def Turn (idle : Prop) (a b : TaskState) : Prop := b = a ∨ ((a = .sleeping ∨ Active a ∨ idle) ∧ Active b)

theorem Turn.trans {idle : Prop} {a b c : TaskState} (first : Turn idle a b) (second : Turn idle b c) :
    Turn idle a c := by
  rcases second with rfl | ⟨middle, active⟩
  · exact first
  · rcases first with rfl | ⟨start, -⟩
    · exact .inr ⟨middle, active⟩
    · exact .inr ⟨start, active⟩

structure Turned (s s' : SchedState) : Prop where
  same : ∀ t, SameTask (s.tasks t) (s'.tasks t)
  turn : ∀ t, Turn (s.idleTask = some t) (s.tasks t).state (s'.tasks t).state
  idle : s'.idleTask = s.idleTask
  pids : s'.nextPid = s.nextPid

section Turned
variable {s s' s'' : SchedState} {t : Slot} {q : Nat → List Slot}

theorem Turned.refl (s : SchedState) : Turned s s := ⟨fun _ => ⟨rfl, fun _ => rfl⟩, fun _ => .inl rfl, rfl, rfl⟩

theorem Turned.trans (first : Turned s s') (second : Turned s' s'') : Turned s s'' := by
  constructor
  · exact fun t => (first.same t).trans (second.same t)
  · intro t
    have later := second.turn t
    rw [first.idle] at later
    exact (first.turn t).trans later
  · exact second.idle.trans first.idle
  · exact second.pids.trans first.pids

theorem Turned.of_tasks (tasks : s'.tasks = s.tasks) (idle : s'.idleTask = s.idleTask) (pids : s'.nextPid = s.nextPid) :
    Turned s s' := by
  constructor
  · intro t
    rw [tasks]
    exact ⟨rfl, fun _ => rfl⟩
  · intro t
    rw [tasks]
    exact .inl rfl
  · exact idle
  · exact pids

theorem setTask_turned {f : Task → Task} (same : SameTask (s.tasks t) (f (s.tasks t)))
    (turn : Turn (s.idleTask = some t) (s.tasks t).state (f (s.tasks t)).state) : Turned s (setTask s t f) := by
  constructor
  · intro u
    by_cases here : u = t
    · subst here
      rw [setTask_same]
      exact same
    · rw [setTask_other here]
      exact ⟨rfl, fun _ => rfl⟩
  · intro u
    by_cases here : u = t
    · subst here
      rw [setTask_same]
      exact turn
    · rw [setTask_other here]
      exact .inl rfl
  · rfl
  · rfl

theorem setNext_turned (s : SchedState) (t : Slot) (link : Option Slot) : Turned s (setNext s t link) :=
  setTask_turned ⟨rfl, fun _ => rfl⟩ (.inl rfl)

theorem setTail_turned (s : SchedState) (level : Nat) (t : Option Slot) (c : Prop) [Decidable c] :
    Turned s (if c then setTail s level t else s) := by
  split
  · exact .of_tasks rfl rfl rfl
  · exact Turned.refl s

theorem readied_same (stamp : Nat) (k : Task) : SameTask k (readied stamp k) := by
  constructor
  · rfl
  · intro valid
    exact if_neg (Nat.not_le.mpr valid)

theorem enqueue_same (s : SchedState) (t u : Slot) : SameTask (s.tasks u) ((enqueue s t).tasks u) := by
  have marked : SameTask (s.tasks u) ((setTask s t (readied s.enqueues)).tasks u) := by
    by_cases here : u = t
    · rw [here, setTask_same]
      exact readied_same _ _
    · rw [setTask_other here]
      exact ⟨rfl, fun _ => rfl⟩
  rw [enqueue_eq]
  cases s.readyTail (homeLevel (s.tasks t)) with
  | none => exact marked
  | some last => exact marked.trans ((setNext_turned _ last _).same u)

theorem enqueue_state (s : SchedState) (t : Slot) : ((enqueue s t).tasks t).state = .ready := by
  rw [enqueue_eq]
  cases s.readyTail (homeLevel (s.tasks t)) with
  | none => simp [setTail, setHead, readied]
  | some last => simp [setTail, readied]

theorem enqueue_pids (s : SchedState) (t : Slot) : (enqueue s t).nextPid = s.nextPid := by
  rw [enqueue_eq]
  cases s.readyTail (homeLevel (s.tasks t)) with
  | none => rfl
  | some last => rfl

theorem enqueue_turned (turns : (s.tasks t).state = .sleeping ∨ Active (s.tasks t).state) : Turned s (enqueue s t) := by
  refine ⟨enqueue_same s t, ?_, (enqueue_control s t).2.1, enqueue_pids s t⟩
  intro u
  by_cases here : u = t
  · rw [here, enqueue_state]
    exact .inr ⟨turns.imp_right .inl, .inl rfl⟩
  · rw [(enqueue_task here).1]
    exact .inl rfl

theorem unlinkNode_turned (level : Nat) (prev : Option Slot) : Turned s (unlinkNode s level prev t) := by
  cases prev with
  | none =>
    have linked : Turned s (setHead s level (s.tasks t).next) := .of_tasks rfl rfl rfl
    exact (linked.trans (setTail_turned ..)).trans (setNext_turned _ t none)
  | some p =>
    have linked : Turned s (setNext s p (s.tasks t).next) := setNext_turned s p _
    exact (linked.trans (setTail_turned ..)).trans (setNext_turned _ t none)

theorem dequeueAt_turned (s : SchedState) (level : Nat) (t : Slot) : Turned s (dequeueAt s level t) := by
  have headed : Turned s (setHead s level (s.tasks t).next) := .of_tasks rfl rfl rfl
  exact (headed.trans (setTail_turned ..)).trans (setNext_turned _ t none)

theorem unlinkReady_turned (queued : Queued s q) (run : unlinkReady s t = .ok s') :
    Turned s s' ∧ s'.current = s.current := by
  obtain ⟨s₁, run₁, shape, -⟩ := unlinkReady_spec queued t
  cases Except.ok.inj (run.symm.trans run₁)
  rcases shape with rfl | ⟨level, prev, rfl⟩
  · exact ⟨Turned.refl _, rfl⟩
  · exact ⟨unlinkNode_turned level prev, (unlinkNode_control s level prev t).1⟩

theorem wakeOne_turned (now : Nat) : Turned s (wakeOne now s t) ∧ (wakeOne now s t).current = s.current := by
  unfold wakeOne
  split
  case isTrue due =>
    have cleared : Turned s (setTask s t fun k => { k with wakeAtMs := 0 }) :=
      setTask_turned ⟨rfl, fun _ => rfl⟩ (.inl rfl)
    have asleep : ((setTask s t fun k => { k with wakeAtMs := 0 }).tasks t).state = .sleeping := by
      rw [setTask_same]
      exact due.1
    exact ⟨cleared.trans (enqueue_turned (.inl asleep)), (enqueue_control ..).1⟩
  case isFalse => exact ⟨Turned.refl _, rfl⟩

theorem wakeSleepers_turned (now : Nat) :
    Turned s (wakeSleepers now s) ∧ (wakeSleepers now s).current = s.current := by
  unfold wakeSleepers
  generalize List.finRange maxTasks = slots
  induction slots generalizing s with
  | nil => exact ⟨Turned.refl _, rfl⟩
  | cons t slots ih =>
    obtain ⟨one, current⟩ := wakeOne_turned (s := s) (t := t) now
    obtain ⟨rest, current'⟩ := ih (s := wakeOne now s t)
    exact ⟨one.trans rest, current'.trans current⟩

theorem tick_turned (timer : Bool) : Turned s (tick timer s).2 ∧ (tick timer s).2.current = s.current := by
  unfold tick
  cases current : s.current with
  | none => exact ⟨Turned.refl _, current⟩
  | some c =>
    have ticked : Turned s (setTask s c (tickMark timer)) := setTask_turned ⟨rfl, fun _ => rfl⟩ (.inl rfl)
    simp only
    split
    · exact ⟨ticked, current⟩
    · exact ⟨ticked, current⟩

theorem requeuePrevious_turned (frame : Nat) : Turned s (requeuePrevious s frame) := by
  unfold requeuePrevious
  cases s.current with
  | none => exact Turned.refl _
  | some previous =>
    have framed : Turned s (setTask s previous fun k => { k with frame := frame }) :=
      setTask_turned ⟨rfl, fun _ => rfl⟩ (.inl rfl)
    simp only
    split
    case isTrue running => exact framed.trans (enqueue_turned (.inr (.inr running)))
    case isFalse => exact framed

theorem pickNext_turned (queued : Queued s q) (run : pickNext s = .ok (t, s')) :
    Turned s s' ∧ (s'.idleTask = some t ∨ (s'.tasks t).state = .ready) := by
  rcases dequeueBelow_spec queued (Nat.le_refl prioCount) with ⟨level, u, rest, valid, eq, -, found⟩ | ⟨-, found⟩
  · simp only [pickNext, dequeueHighest, found] at run
    cases run
    have ready : (s.tasks t).state = .ready := ((queued.member level valid t).mp (eq ▸ List.mem_cons_self)).1
    refine ⟨dequeueAt_turned s level t, .inr ?_⟩
    rw [(dequeueAt_fields s level t).1, Function.update_self]
    exact ready
  · cases idle : s.idleTask with
    | none =>
      simp only [pickNext, dequeueHighest, found, idle] at run
      cases run
    | some i =>
      simp only [pickNext, dequeueHighest, found, idle] at run
      split at run
      · obtain ⟨s₁, unlinked, -⟩ := unlinkReady_spec queued i
        rw [unlinked] at run
        cases run
        have turned := (unlinkReady_turned queued unlinked).1
        exact ⟨turned, .inl (turned.idle.trans idle)⟩
      · cases run
        exact ⟨Turned.refl _, .inl idle⟩

theorem resume_turned (previous : Option Slot) (turns : s.idleTask = some t ∨ (s.tasks t).state = .ready) :
    Turned s (resume previous t s) ∧ (resume previous t s).current = some t ∧
      ((resume previous t s).tasks t).state = .running := by
  let marked := setTask { s with current := some t } t fun k =>
    { k with state := .running, timeSlice := sliceTicks k.priority }
  have turned : Turned s marked := by
    have placed : Turned s { s with current := some t } := .of_tasks rfl rfl rfl
    apply placed.trans
    apply setTask_turned ⟨rfl, fun _ => rfl⟩
    refine .inr ⟨?_, .inr rfl⟩
    rcases turns with idle | ready
    · exact .inr (.inr idle)
    · exact .inr (.inl (.inl ready))
  have running : (marked.tasks t).state = .running := by simp [marked]
  simp only [resume]
  split
  · exact ⟨turned.trans (.of_tasks rfl rfl rfl), rfl, running⟩
  · exact ⟨turned, rfl, running⟩

/-- The processor stays with its task, or goes to one that then runs. -/
def Moves (s s' : SchedState) : Prop :=
  s'.current = s.current ∨ ∃ c, s'.current = some c ∧ (s'.tasks c).state = .running

theorem switchToNext_turned {frame frame' : Nat} (queued : Queued s q)
    (run : switchToNext s frame = .ok (frame', s')) : Turned s s' ∧ Moves s s' := by
  obtain ⟨⟨q₁, requeued⟩, -⟩ := requeuePrevious_spec queued frame
  have first := requeuePrevious_turned (s := s) frame
  rcases pickNext_spec requeued with ⟨failed, -⟩ | ⟨t, s₁, picked, -⟩
  · simp only [switchToNext, failed] at run
    cases run
  · simp only [switchToNext, picked] at run
    cases run
    obtain ⟨second, turns⟩ := pickNext_turned requeued picked
    obtain ⟨third, current, running⟩ := resume_turned s.current turns
    exact ⟨first.trans (second.trans third), .inr ⟨t, current, running⟩⟩

theorem interrupt_turned {env : Env} {frame : InterruptFrame} {frame' : Nat} (queued : Queued s q)
    (run : schedOnInterruptReturn env s frame = .ok (frame', s')) : Turned s s' ∧ Moves s s' := by
  cases armed : s.schedulerRunning with
  | false =>
    simp only [schedOnInterruptReturn, reschedule, armed] at run
    cases run
    exact ⟨Turned.refl _, .inl rfl⟩
  | true =>
    rcases checkStackGuard_cases env s with intact | broken
    · obtain ⟨⟨q₁, woken⟩, -⟩ := wakeSleepers_spec env.later queued
      obtain ⟨⟨q₂, ticked⟩, -⟩ := tick_spec (frame.vector == timerVector) woken
      obtain ⟨first, current⟩ := wakeSleepers_turned (s := s) env.later
      obtain ⟨second, current'⟩ := tick_turned (s := wakeSleepers env.later s) (frame.vector == timerVector)
      have both := first.trans second
      have enters : schedOnInterruptReturn env s frame =
          if (tick (frame.vector == timerVector) (wakeSleepers env.later s)).1 then
            switchToNext (tick (frame.vector == timerVector) (wakeSleepers env.later s)).2 frame.addr
          else .ok (frame.addr, (tick (frame.vector == timerVector) (wakeSleepers env.later s)).2) := by
        simp [schedOnInterruptReturn, reschedule, armed, intact, bind, Except.bind, pure, Except.pure]
      rw [enters] at run
      split at run
      · obtain ⟨third, moves⟩ := switchToNext_turned ticked run
        refine ⟨both.trans third, ?_⟩
        rcases moves with stays | goes
        · exact .inl (stays.trans (current'.trans current))
        · exact .inr goes
      · cases run
        exact ⟨both, .inl (current'.trans current)⟩
    · simp only [schedOnInterruptReturn, reschedule, armed, broken] at run
      cases run

end Turned

/-- What every operation but creation leaves: who the tasks are, and which slots are free. -/
structure Stable (s s' : SchedState) : Prop where
  same : ∀ t, SameTask (s.tasks t) (s'.tasks t)
  unused : ∀ t, (s'.tasks t).state = .unused ↔ (s.tasks t).state = .unused
  idle : s'.idleTask = s.idleTask
  pids : s'.nextPid = s.nextPid

/-- The idle task has been created. -/
def IdleUsed (s : SchedState) : Prop := ∀ i, s.idleTask = some i → (s.tasks i).state ≠ .unused

section Stable
variable {s s' s'' : SchedState} {t : Slot} {q : Nat → List Slot}

theorem Stable.refl (s : SchedState) : Stable s s := ⟨fun _ => ⟨rfl, fun _ => rfl⟩, fun _ => Iff.rfl, rfl, rfl⟩

theorem Stable.trans (first : Stable s s') (second : Stable s' s'') : Stable s s'' := by
  constructor
  · exact fun t => (first.same t).trans (second.same t)
  · exact fun t => (second.unused t).trans (first.unused t)
  · exact second.idle.trans first.idle
  · exact second.pids.trans first.pids

theorem Stable.idleUsed (stable : Stable s s') (used : IdleUsed s) : IdleUsed s' := by
  intro i idle unused
  exact used i (stable.idle ▸ idle) ((stable.unused i).mp unused)

theorem Turned.stable (turned : Turned s s') (used : IdleUsed s) : Stable s s' := by
  refine ⟨turned.same, ?_, turned.idle, turned.pids⟩
  intro t
  rcases turned.turn t with same | ⟨start, active⟩
  · rw [same]
  · apply iff_of_false
    · intro unused
      rw [unused] at active
      rcases active with here | here
      · cases here
      · cases here
    · intro unused
      rw [unused] at start
      rcases start with here | (here | here) | idle
      · cases here
      · cases here
      · cases here
      · exact used t idle unused

theorem setTask_stable {f : Task → Task} (used : (s.tasks t).state ≠ .unused)
    (same : SameTask (s.tasks t) (f (s.tasks t))) (still : (f (s.tasks t)).state ≠ .unused) :
    Stable s (setTask s t f) := by
  constructor
  · intro u
    by_cases here : u = t
    · subst here
      rw [setTask_same]
      exact same
    · rw [setTask_other here]
      exact ⟨rfl, fun _ => rfl⟩
  · intro u
    by_cases here : u = t
    · subst here
      rw [setTask_same]
      exact iff_of_false still used
    · rw [setTask_other here]
  · rfl
  · rfl

theorem Stable.of_tasks (tasks : s'.tasks = s.tasks) (idle : s'.idleTask = s.idleTask) (pids : s'.nextPid = s.nextPid) :
    Stable s s' := by
  refine ⟨(Turned.of_tasks tasks idle pids).same, ?_, idle, pids⟩
  intro t
  rw [tasks]

theorem enqueue_stable (used : (s.tasks t).state ≠ .unused) : Stable s (enqueue s t) := by
  refine ⟨enqueue_same s t, ?_, (enqueue_control s t).2.1, enqueue_pids s t⟩
  intro u
  by_cases here : u = t
  · rw [here, enqueue_state]
    exact iff_of_false nofun used
  · rw [(enqueue_task here).1]

theorem schedUnblock_stable (task : Option Slot) : Stable s (schedUnblock s task) := by
  cases task with
  | none => exact Stable.refl s
  | some t =>
    rw [schedUnblock]
    split
    · exact Stable.refl s
    case isFalse asleep =>
      have blocked : (s.tasks t).state = .blocked := not_not.mp asleep
      have used : (s.tasks t).state ≠ .unused := by
        rw [blocked]
        decide
      have cleared : Stable s (setTask s t fun k => { k with blockReason := none }) :=
        setTask_stable used ⟨rfl, fun _ => rfl⟩ used
      exact cleared.trans (enqueue_stable ((cleared.unused t).not.mpr used))

theorem Settled.used (settled : Settled s) {c : Slot} (current : s.current = some c) : (s.tasks c).state ≠ .unused := by
  rcases settled c current with state | state
  · rw [state]
    exact nofun
  · rw [state]
    exact nofun

theorem exitMark_stable (settled : Settled s) (code : Int) : Stable s (exitMark s code) := by
  rw [exitMark]
  split
  · exact Stable.refl s
  case h_2 c current =>
    have died : Stable s (setTask s c (zombieMark code)) :=
      setTask_stable (settled.used current) ⟨rfl, fun _ => rfl⟩ (by simp [zombieMark])
    simp only
    split
    · exact died
    · split
      · exact died.trans (schedUnblock_stable _)
      · exact died

theorem giveUp_stable {mark : Task → Task} (settled : Settled s) (same : ∀ k, SameTask k (mark k))
    (still : ∀ k : Task, k.state ≠ .unused → (mark k).state ≠ .unused) (run : giveUp s mark = some s') : Stable s s' := by
  unfold giveUp at run
  split at run
  · cases run
  case h_2 c current =>
    split at run
    · cases run
      exact setTask_stable (settled.used current) (same _) (still _ (settled.used current))
    · cases run

theorem schedKill_stable {pid r : Int} (queued : Queued s q) (used : IdleUsed s)
    (run : schedKill s pid = .ok (r, s')) : Stable s s' := by
  unfold schedKill at run
  split at run
  · cases run
    exact Stable.refl s
  case h_2 t found =>
    split at run
    · cases run
      exact Stable.refl s
    · obtain ⟨s₁, unlinked, -⟩ := unlinkReady_spec queued t
      rw [unlinked] at run
      cases run
      have first := (unlinkReady_turned queued unlinked).1.stable used
      have live : (s.tasks t).state ≠ .unused := by
        have test := List.find?_some found
        simp only [decide_eq_true_eq] at test
        exact test.1
      have second : Stable s₁ (setTask s₁ t fun k => { k with state := .zombie, exitCode := 130 }) :=
        setTask_stable ((first.unused t).not.mpr live) ⟨rfl, fun _ => rfl⟩ fun same => by cases same
      exact first.trans second

/-- The operations that create a task. -/
def SchedOp.Creates : SchedOp → Prop
  | .createKernel _ | .createUser _ _ => True
  | _ => False

theorem raises_stable {env : Env} {op : SchedOp} {frame : InterruptFrame} (settled : Settled s)
    (raised : raises env s op = some (s', frame)) : Stable s s' := by
  have gives (mark : Task → Task) (same : ∀ k, SameTask k (mark k))
      (still : ∀ k : Task, k.state ≠ .unused → (mark k).state ≠ .unused)
      (marked : (giveUp s mark).map (·, softInterrupt env) = some (s', frame)) : Stable s s' := by
    obtain ⟨s₁, given, pair⟩ := Option.map_eq_some_iff.mp marked
    cases pair
    exact giveUp_stable settled same still given
  cases op with
  | interrupt vector =>
    cases raised
    exact Stable.refl s
  | yield => exact gives yieldMark (fun _ => ⟨rfl, fun _ => rfl⟩) (fun _ used => used) raised
  | sleepMs ms => exact gives (sleepMark env ms) (fun _ => ⟨rfl, fun _ => rfl⟩) (fun _ _ => nofun) raised
  | block reason => exact gives (blockMark reason) (fun _ => ⟨rfl, fun _ => rfl⟩) (fun _ _ => nofun) raised
  | exit code =>
    cases raised
    exact exitMark_stable settled code
  | start => cases raised
  | createKernel priority => cases raised
  | createUser space priority => cases raised
  | unblock task => cases raised
  | killCurrent code => cases raised
  | kill pid => cases raised

theorem plain_stable {env : Env} {op : SchedOp} (kept : Kept s) (used : IdleUsed s) (other : ¬ op.Creates)
    (run : plain env s op = .ok s') : Stable s s' := by
  obtain ⟨⟨q, queued⟩, settled⟩ := kept
  cases op with
  | start =>
    cases run
    exact .of_tasks rfl rfl rfl
  | createKernel priority => exact absurd trivial other
  | createUser space priority => exact absurd trivial other
  | unblock task =>
    cases run
    exact schedUnblock_stable task
  | killCurrent code =>
    simp only [plain, schedKillCurrent] at run
    split at run
    · cases run
    case h_2 c current =>
      split at run
      · cases run
      · cases run
        exact setTask_stable (settled.used current) ⟨rfl, fun _ => rfl⟩ (by simp [zombieMark])
  | kill pid =>
    cases killed : schedKill s pid with
    | error halt =>
      simp only [plain, killed] at run
      cases run
    | ok result =>
      simp only [plain, killed] at run
      cases run
      exact schedKill_stable queued used killed
  | interrupt frame =>
    cases run
    exact Stable.refl s
  | yield =>
    cases run
    exact Stable.refl s
  | sleepMs ms =>
    cases run
    exact Stable.refl s
  | block reason =>
    cases run
    exact Stable.refl s
  | exit code =>
    cases run
    exact Stable.refl s

theorem step_stable {env : Env} {op : SchedOp} (kept : Kept s) (used : IdleUsed s) (other : ¬ op.Creates)
    (run : step env s op = .ok s') : Stable s s' := by
  unfold step at run
  split at run
  case h_1 s₁ frame raised =>
    have first := raises_stable kept.settled raised
    obtain ⟨⟨q, queued⟩, -⟩ := raises_spec kept raised
    cases returned : schedOnInterruptReturn env s₁ frame with
    | error halt =>
      rw [returned] at run
      cases run
    | ok result =>
      rw [returned] at run
      cases run
      exact first.trans ((interrupt_turned queued returned).1.stable (first.idleUsed used))
  case h_2 => exact plain_stable kept used other run

end Stable

end Qito.Sched
