import Qito.Sched.Queues
import Qito.Lib.Runs

/-! Runs of the scheduler: every operation keeps the ready queues, and every
switch resumes the task that has waited longest at the highest level. -/
namespace Qito.Sched
open Links Runs

/-- The ready queues as the task table has them. -/
structure ReadyQueues (s : SchedState) (q : Nat → List Slot) : Prop where
  links : ∀ level < prioCount, Route (fun t => (s.tasks t).next) (s.readyHead level) (q level) none
  tails : ∀ level < prioCount, s.readyTail level = (q level).getLast?
  acyclic : ∀ level < prioCount, (q level).Nodup
  ready : ∀ t, (s.tasks t).state = .ready → (s.tasks t).priority < prioCount ∧
    ∀ level < prioCount, (q level).count t = if level = (s.tasks t).priority then 1 else 0
  waits : ∀ t, (s.tasks t).state ≠ .ready → ∀ level < prioCount, t ∉ q level

/-- The task t heads the highest queue that is not empty and was put there before
all others of that queue; with no task queued it is the idle task. -/
def Picks (s : SchedState) (q : Nat → List Slot) (t : Slot) : Prop :=
  (∃ level < prioCount, t ∈ q level ∧ (∀ l < prioCount, level < l → q l = []) ∧
    ∀ u ∈ q level, u ≠ t → (s.tasks t).enqueuedAt < (s.tasks u).enqueuedAt) ∨
  ((∀ l < prioCount, q l = []) ∧ s.idleTask = some t)

theorem Queued.readyQueues {s : SchedState} {q : Nat → List Slot} (queued : Queued s q) : ReadyQueues s q where
  links := queued.path
  tails := queued.tail
  acyclic := fun level valid => (queued.path level valid).nodup
  ready := by
    intro t ready
    refine ⟨queued.bounded t ready, fun level valid => ?_⟩
    split
    · rename_i home
      exact List.count_eq_one_of_mem (queued.path level valid).nodup
        ((queued.member level valid t).mpr ⟨ready, home.symm⟩)
    · rename_i elsewhere
      refine List.count_eq_zero_of_not_mem (fun member => elsewhere ?_)
      exact ((queued.member level valid t).mp member).2.symm
  waits := fun t idle level valid => queued.waits valid idle

section Switch
variable {s : SchedState} {q : Nat → List Slot} {t : Slot}

theorem dequeueBelow_spec (queued : Queued s q) {n : Nat} (levels : n ≤ prioCount) :
    (∃ level t rest, level < n ∧ q level = t :: rest ∧ (∀ l < n, level < l → q l = []) ∧
      dequeueBelow n s = (some t, dequeueAt s level t)) ∨
    ((∀ l < n, q l = []) ∧ dequeueBelow n s = (none, s)) := by
  induction n with
  | zero => exact Or.inr ⟨fun l lt => absurd lt (by omega), rfl⟩
  | succ n ih =>
    have head := (queued.path n (by omega)).head_eq
    cases here : q n with
    | cons t rest =>
      rw [here] at head
      refine Or.inl ⟨n, t, rest, by omega, here, fun l lt above => by omega, ?_⟩
      simp only [dequeueBelow, head, List.head?_cons]
      rfl
    | nil =>
      rw [here] at head
      have skip : dequeueBelow (n + 1) s = dequeueBelow n s := by
        simp only [dequeueBelow, head, List.head?_nil]
      rw [skip]
      rcases ih (by omega) with ⟨level, t, rest, lt, eq, above, run⟩ | ⟨empty, run⟩
      · refine Or.inl ⟨level, t, rest, by omega, eq, ?_, run⟩
        intro l bound higher
        by_cases last : l = n
        · rw [last]
          exact here
        · exact above l (by omega) higher
      · refine Or.inr ⟨?_, run⟩
        intro l bound
        by_cases last : l = n
        · rw [last]
          exact here
        · exact empty l (by omega)

theorem unlinkReady_spec (queued : Queued s q) (t : Slot) :
    ∃ s', unlinkReady s t = .ok s' ∧ (s' = s ∨ ∃ level prev, s' = unlinkNode s level prev t) ∧
      ∀ f : Task → Task, (∀ k, (f k).state ≠ .ready) → (∀ k, (f k).next = k.next) →
        ∃ q', Queued (setTask s' t f) q' := by
  have levels : ∀ l ∈ List.range prioCount, l < prioCount := fun l member => List.mem_range.mp member
  by_cases ready : Ready s t
  · have valid := queued.bounded t ready
    obtain ⟨pre, post, eq⟩ := List.append_of_mem ((queued.member _ valid t).mpr ⟨ready, rfl⟩)
    refine ⟨_, unlinkLevels_found queued eq _ levels (List.mem_range.mpr valid), Or.inr ⟨_, _, rfl⟩, ?_⟩
    intro f leaves link
    exact ⟨_, queued.unlink valid eq leaves link⟩
  · refine ⟨s, unlinkLevels_absent queued _ levels ?_, Or.inl rfl, ?_⟩
    · exact fun l member => queued.waits (levels l member) ready
    · exact fun f leaves _ => ⟨q, queued.outside ready (leaves _)⟩

theorem unlinkNode_control (s : SchedState) (level : Nat) (prev : Option Slot) (t : Slot) :
    (unlinkNode s level prev t).current = s.current ∧
    (unlinkNode s level prev t).schedulerRunning = s.schedulerRunning ∧
    (unlinkNode s level prev t).idleTask = s.idleTask := by
  cases prev with
  | none =>
    simp only [unlinkNode]
    split <;> exact ⟨rfl, rfl, rfl⟩
  | some p =>
    simp only [unlinkNode]
    split <;> exact ⟨rfl, rfl, rfl⟩

theorem pickNext_spec (queued : Queued s q) :
    (pickNext s = .error .fault ∧ s.idleTask = none) ∨
    ∃ t s', pickNext s = .ok (t, s') ∧ Picks s q t ∧
      ∀ f : Task → Task, (∀ k, (f k).state ≠ .ready) → (∀ k, (f k).next = k.next) →
        ∃ q', Queued (setTask s' t f) q' := by
  rcases dequeueBelow_spec queued (Nat.le_refl prioCount) with ⟨level, t, rest, valid, eq, above, run⟩ | ⟨empty, run⟩
  · refine Or.inr ⟨t, dequeueAt s level t, by simp only [pickNext, dequeueHighest, run], Or.inl ?_, ?_⟩
    · refine ⟨level, valid, by simp [eq], above, ?_⟩
      intro u member other
      have order := queued.order level valid
      rw [eq] at order member
      rcases List.mem_cons.mp member with same | later
      · exact absurd same other
      · exact (List.pairwise_cons.mp order).1 u later
    · exact fun f leaves _ => ⟨_, queued.dequeue valid eq leaves⟩
  · cases idle : s.idleTask with
    | none => exact Or.inl ⟨by simp only [pickNext, dequeueHighest, run, idle], rfl⟩
    | some t =>
      obtain ⟨s', unlinked, -, after⟩ := unlinkReady_spec queued t
      have waits : ¬ Ready s t := by
        intro ready
        have valid := queued.bounded t ready
        have member := (queued.member _ valid t).mpr ⟨ready, rfl⟩
        simp [empty _ valid] at member
      by_cases linked : (s.tasks t).state = .ready ∨ (s.tasks t).state = .running
      · refine Or.inr ⟨t, s', ?_, Or.inr ⟨empty, idle⟩, after⟩
        simp only [pickNext, dequeueHighest, run, idle, if_pos linked, unlinked]
        rfl
      · refine Or.inr ⟨t, s, ?_, Or.inr ⟨empty, idle⟩, fun f leaves _ => ⟨q, queued.outside waits (leaves _)⟩⟩
        simp only [pickNext, dequeueHighest, run, idle, if_neg linked]

theorem resume_queued (previous : Option Slot) {t : Slot}
    (after : ∀ f : Task → Task, (∀ k, (f k).state ≠ .ready) → (∀ k, (f k).next = k.next) →
      ∃ q', Queued (setTask s t f) q') :
    (∃ q', Queued (resume previous t s) q') ∧ (resume previous t s).current = some t ∧
      ((resume previous t s).tasks t).state = .running := by
  obtain ⟨q', queued⟩ := after (fun k => { k with state := .running, timeSlice := sliceTicks k.priority })
    (by simp) (by simp)
  simp only [resume]
  split
  · exact ⟨⟨q', queued.same rfl rfl rfl rfl⟩, rfl, by simp [setTask]⟩
  · exact ⟨⟨q', queued.same rfl rfl rfl rfl⟩, rfl, by simp [setTask]⟩

theorem enqueue_control (s : SchedState) (t : Slot) :
    (enqueue s t).current = s.current ∧ (enqueue s t).idleTask = s.idleTask ∧
      (enqueue s t).schedulerRunning = s.schedulerRunning := by
  rw [enqueue_eq]
  cases s.readyTail (homeLevel (s.tasks t)) <;> exact ⟨rfl, rfl, rfl⟩

theorem requeuePrevious_spec (queued : Queued s q) (frame : Nat) :
    (∃ q', Queued (requeuePrevious s frame) q') ∧ (requeuePrevious s frame).idleTask = s.idleTask := by
  unfold requeuePrevious
  cases s.current with
  | none => exact ⟨⟨q, queued⟩, rfl⟩
  | some previous =>
    have framed : Queued (setTask s previous fun k => { k with frame := frame }) q :=
      queued.keep rfl rfl rfl rfl
    simp only
    split
    · rename_i running
      have waits : ¬ Ready (setTask s previous fun k => { k with frame := frame }) previous := by
        rw [Ready, running]
        decide
      exact ⟨⟨_, framed.enqueue waits⟩, (enqueue_control ..).2.1⟩
    · exact ⟨⟨q, framed⟩, rfl⟩

/-- What every switch does: it resumes the task that has waited longest at the
highest level, or the idle task when none waits. -/
def Switches (s : SchedState) (frame frame' : Nat) (s' : SchedState) : Prop :=
  switchToNext s frame = .ok (frame', s') ∧
  ∃ t, s'.current = some t ∧ (s'.tasks t).state = .running ∧
    (∃ q, ReadyQueues s' q ∧ ∀ level < prioCount, t ∉ q level) ∧
    ∃ q, ReadyQueues (requeuePrevious s frame) q ∧ Picks (requeuePrevious s frame) q t

theorem switchToNext_spec (queued : Queued s q) (frame : Nat) :
    (switchToNext s frame = .error .fault ∧ s.idleTask = none) ∨
    ∃ frame' s', Switches s frame frame' s' ∧ ∃ q', Queued s' q' := by
  obtain ⟨⟨q₁, requeued⟩, idle⟩ := requeuePrevious_spec queued frame
  rcases pickNext_spec requeued with ⟨failed, none_idle⟩ | ⟨t, s₁, picked, picks, after⟩
  · refine Or.inl ⟨?_, idle ▸ none_idle⟩
    simp only [switchToNext, failed]
    rfl
  · obtain ⟨⟨q₂, resumed⟩, current, running⟩ := resume_queued s.current after
    have waits : ¬ Ready (resume s.current t s₁) t := by
      rw [Ready, running]
      decide
    refine Or.inr ⟨_, _, ⟨by simp only [switchToNext, picked]; rfl, t, current, running, ?_, ?_⟩, q₂, resumed⟩
    · exact ⟨q₂, resumed.readyQueues, fun level valid => resumed.waits valid waits⟩
    · exact ⟨q₁, requeued.readyQueues, picks⟩

end Switch

section Interrupt
variable {s : SchedState} {q : Nat → List Slot}

theorem wakeOne_spec (now : Nat) (queued : Queued s q) (t : Slot) :
    (∃ q', Queued (wakeOne now s t) q') ∧ (wakeOne now s t).current = s.current ∧
      (wakeOne now s t).idleTask = s.idleTask := by
  unfold wakeOne
  split
  · rename_i due
    have waits : ¬ Ready s t := by
      rw [Ready, due.1]
      decide
    have cleared : Queued (setTask s t fun k => { k with wakeAtMs := 0 }) q := queued.keep rfl rfl rfl rfl
    have still : ¬ Ready (setTask s t fun k => { k with wakeAtMs := 0 }) t := by simpa [Ready] using waits
    obtain ⟨current, idle, -⟩ := enqueue_control (setTask s t fun k => { k with wakeAtMs := 0 }) t
    exact ⟨⟨_, cleared.enqueue still⟩, current, idle⟩
  · exact ⟨⟨q, queued⟩, rfl, rfl⟩

theorem wakeSleepers_spec (now : Nat) (queued : Queued s q) :
    (∃ q', Queued (wakeSleepers now s) q') ∧ (wakeSleepers now s).current = s.current ∧
      (wakeSleepers now s).idleTask = s.idleTask := by
  unfold wakeSleepers
  generalize List.finRange maxTasks = slots
  induction slots generalizing s q with
  | nil => exact ⟨⟨q, queued⟩, rfl, rfl⟩
  | cons t slots ih =>
    obtain ⟨⟨q', woken⟩, current, idle⟩ := wakeOne_spec now queued t
    obtain ⟨rest, current', idle'⟩ := ih woken
    exact ⟨rest, current'.trans current, idle'.trans idle⟩

/-- The current task may be between two of its slices or already dead. -/
def Settled (s : SchedState) : Prop :=
  ∀ c, s.current = some c → (s.tasks c).state = .running ∨ (s.tasks c).state = .zombie

theorem tick_spec (timer : Bool) (queued : Queued s q) :
    (∃ q', Queued (tick timer s).2 q') ∧ (tick timer s).2.idleTask = s.idleTask ∧
      ((tick timer s).1 = false → Settled (tick timer s).2) := by
  unfold tick
  cases current : s.current with
  | none => exact ⟨⟨q, queued⟩, rfl, fun wrong => absurd wrong (by simp)⟩
  | some c =>
    have ticked : Queued (setTask s c (tickMark timer)) q := queued.keep rfl rfl rfl rfl
    simp only
    split
    · rename_i goes
      refine ⟨⟨q, ticked⟩, rfl, fun _ d same => Or.inl ?_⟩
      obtain rfl : c = d := Option.some.inj (current.symm.trans same)
      exact goes.1
    · exact ⟨⟨q, ticked⟩, rfl, fun wrong => absurd wrong (by simp)⟩

theorem checkStackGuard_cases (env : Env) (s : SchedState) :
    checkStackGuard env s = .ok () ∨ checkStackGuard env s = .error .panic := by
  unfold checkStackGuard
  cases s.current with
  | none => exact Or.inl rfl
  | some t =>
    simp only
    split
    · exact Or.inl rfl
    · split
      · exact Or.inl rfl
      · exact Or.inr rfl

theorem reschedule_spec (env : Env) (frame : InterruptFrame) (queued : Queued s q)
    (settled : s.schedulerRunning = false → Settled s) :
    reschedule env s frame = .error .panic ∨
    ∃ switch s', reschedule env s frame = .ok (switch, s') ∧ (∃ q', Queued s' q') ∧
      s'.idleTask = s.idleTask ∧ (switch = false → Settled s') := by
  cases armed : s.schedulerRunning with
  | false =>
    refine Or.inr ⟨false, s, ?_, ⟨q, queued⟩, rfl, fun _ => settled armed⟩
    simp only [reschedule, armed]
    rfl
  | true =>
    rcases checkStackGuard_cases env s with intact | broken
    · obtain ⟨⟨q', woken⟩, -, idle⟩ := wakeSleepers_spec env.later queued
      obtain ⟨ticked, same, stays⟩ := tick_spec (frame.vector == timerVector) woken
      refine Or.inr ⟨_, _, ?_, ticked, same.trans idle, stays⟩
      simp [reschedule, armed, intact, bind, Except.bind, pure, Except.pure]
    · left
      simp only [reschedule, armed, broken]
      rfl

theorem interrupt_spec (env : Env) (frame : InterruptFrame) (queued : Queued s q)
    (settled : s.schedulerRunning = false → Settled s) :
    schedOnInterruptReturn env s frame = .error .panic ∨
    (schedOnInterruptReturn env s frame = .error .fault ∧ s.idleTask = none) ∨
    ∃ frame' s', schedOnInterruptReturn env s frame = .ok (frame', s') ∧ (∃ q', Queued s' q') ∧ Settled s' := by
  rcases reschedule_spec env frame queued settled with broken | ⟨switch, s₁, run, ⟨q₁, kept⟩, idle, stays⟩
  · left
    simp only [schedOnInterruptReturn, broken]
    rfl
  · right
    cases switch with
    | false =>
      refine Or.inr ⟨frame.addr, s₁, ?_, ⟨q₁, kept⟩, stays rfl⟩
      simp only [schedOnInterruptReturn, run]
      rfl
    | true =>
      have enters : schedOnInterruptReturn env s frame = switchToNext s₁ frame.addr := by
        simp only [schedOnInterruptReturn, run]
        rfl
      rw [enters]
      rcases switchToNext_spec kept frame.addr with ⟨failed, none_idle⟩ | ⟨frame', s₂, ⟨ran, t, current, running, -⟩, after⟩
      · exact Or.inl ⟨failed, idle ▸ none_idle⟩
      · refine Or.inr ⟨frame', s₂, ran, after, ?_⟩
        intro c here
        cases Option.some.inj (current.symm.trans here)
        exact Or.inl running

end Interrupt

section Operations
variable {s : SchedState} {q : Nat → List Slot}

/-- What every operation keeps. -/
structure Kept (s : SchedState) : Prop where
  queued : ∃ q, Queued s q
  settled : Settled s

theorem Settled.waits (settled : Settled s) {c : Slot} (current : s.current = some c) : ¬ Ready s c := by
  rw [Ready]
  rcases settled c current with state | state
  · rw [state]
    decide
  · rw [state]
    decide

theorem Settled.setTask (settled : Settled s) {t : Slot} (f : Task → Task)
    (other : ∀ c, s.current = some c → c ≠ t) : Settled (setTask s t f) := by
  intro c current
  rw [setTask_other (other c current)]
  exact settled c current

theorem Settled.enqueue (settled : Settled s) {t : Slot} (other : ∀ c, s.current = some c → c ≠ t) :
    Settled (enqueue s t) := by
  intro c current
  rw [(enqueue_control s t).1] at current
  rw [(enqueue_task (other c current)).1]
  exact settled c current

theorem Settled.other (settled : Settled s) {t : Slot} {state : TaskState} (eq : (s.tasks t).state = state)
    (running : state ≠ .running) (zombie : state ≠ .zombie) {c : Slot} (current : s.current = some c) :
    c ≠ t := by
  rintro rfl
  rcases settled c current with now | now
  · exact running (eq.symm.trans now)
  · exact zombie (eq.symm.trans now)

theorem schedUnblock_spec (kept : Kept s) (t : Option Slot) :
    Kept (schedUnblock s t) ∧ (schedUnblock s t).idleTask = s.idleTask := by
  obtain ⟨⟨q, queued⟩, settled⟩ := kept
  cases t with
  | none => exact ⟨⟨⟨q, queued⟩, settled⟩, rfl⟩
  | some t =>
    simp only [schedUnblock]
    split
    · exact ⟨⟨⟨q, queued⟩, settled⟩, rfl⟩
    · rename_i asleep
      have blocked : (s.tasks t).state = .blocked := by simpa using asleep
      have cleared : Queued (setTask s t fun k => { k with blockReason := none }) q :=
        queued.keep rfl rfl rfl rfl
      have waits : ¬ Ready (setTask s t fun k => { k with blockReason := none }) t := by
        simp [Ready, blocked]
      have other {c : Slot} := settled.other (c := c) blocked (by decide) (by decide)
      refine ⟨⟨⟨_, cleared.enqueue waits⟩, ?_⟩, (enqueue_control ..).2.1⟩
      exact (settled.setTask _ (fun c => other)).enqueue (fun c => other)

theorem stackMark_spec (queued : Queued s q) {t : Slot} (waits : ¬ Ready s t) (stack top frame : Nat) :
    Queued (setTask s t (stackMark stack top frame)) q ∧
      ¬ Ready (setTask s t (stackMark stack top frame)) t := by
  have quiet : (stackMark stack top frame (s.tasks t)).state ≠ .ready := waits
  refine ⟨queued.outside waits quiet, ?_⟩
  rw [Ready, setTask_same]
  exact quiet

theorem placeTask_spec (env : Env) (queued : Queued s q) (settled : Settled s) {t : Slot} (waits : ¬ Ready s t)
    (other : ∀ c, s.current = some c → c ≠ t) (pid : Int) : Kept (placeTask env s t pid).2 := by
  unfold placeTask
  split
  · have unused : Queued (setTask s t fun k => { k with state := .unused }) q :=
      queued.outside waits (by simp)
    exact ⟨⟨q, unused⟩, settled.setTask _ other⟩
  · obtain ⟨framed, still⟩ := stackMark_spec queued waits env.stack (stackTop env.stack)
      (stackTop env.stack - interruptFrameSize)
    exact ⟨⟨_, framed.enqueue still⟩, (settled.setTask _ other).enqueue other⟩

theorem createTask_spec (env : Env) (kept : Kept s) (kind : TaskKind) : Kept (createTask env s kind).2 := by
  obtain ⟨⟨q, queued⟩, settled⟩ := kept
  simp only [createTask]
  cases alloc : allocTask s with
  | none => exact ⟨⟨q, queued⟩, settled⟩
  | some t =>
    have unused : (s.tasks t).state = .unused := by simpa using List.find?_some alloc
    have other (c : Slot) := settled.other (c := c) unused (by decide) (by decide)
    have waits : ¬ Ready s t := by simp [Ready, unused]
    have filled := queued.outside waits (f := fun _ => newTask env s kind) (by simp [newTask, emptyTask])
    have named : Queued { setTask s t (fun _ => newTask env s kind) with nextPid := s.nextPid + 1 } q :=
      filled.same rfl rfl rfl rfl
    refine placeTask_spec env named ?_ ?_ other s.nextPid
    · exact settled.setTask (fun _ => newTask env s kind) other
    · simp [Ready, setTask, newTask, emptyTask]

theorem schedInit_spec (env : Env) (s : SchedState) : Kept (schedInit env s) := by
  have blank : Kept { s with
      tasks := fun _ => emptyTask
      readyHead := fun _ => none
      readyTail := fun _ => none
      current := none
      schedulerRunning := false } := by
    refine ⟨⟨fun _ => [], ?_⟩, fun c current => absurd current (by simp)⟩
    constructor
    · exact fun _ _ => rfl
    · exact fun _ _ => rfl
    · intro level _ t
      simp [Ready, emptyTask]
    · intro t ready
      simp [Ready, emptyTask] at ready
    · exact fun _ _ => List.Pairwise.nil
    · intro t ready
      simp [Ready, emptyTask] at ready
  obtain ⟨⟨q, queued⟩, settled⟩ := createTask_spec env blank ⟨prioIdle, true, 0, 0, 2 ^ 64 - 1, 0⟩
  exact ⟨⟨q, queued.same rfl rfl rfl rfl⟩, settled⟩

theorem exitMark_spec (kept : Kept s) (code : Int) :
    Kept (exitMark s code) ∧ (exitMark s code).idleTask = s.idleTask := by
  obtain ⟨⟨q, queued⟩, settled⟩ := kept
  simp only [exitMark]
  cases current : s.current with
  | none => exact ⟨⟨⟨q, queued⟩, settled⟩, rfl⟩
  | some c =>
    have dead : Kept (setTask s c (zombieMark code)) := by
      refine ⟨⟨q, queued.outside (settled.waits current) (by simp [zombieMark])⟩, ?_⟩
      intro d same
      cases Option.some.inj (current.symm.trans same)
      right
      simp [zombieMark]
    simp only
    split
    · exact ⟨dead, rfl⟩
    · split
      · obtain ⟨woken, idle⟩ := schedUnblock_spec dead (some _)
        exact ⟨woken, idle⟩
      · exact ⟨dead, rfl⟩

/-- Every operation that enters the interrupt return path does so with its queues
in order, and only while the scheduler runs may the current task give itself up. -/
theorem raises_spec {env : Env} {op : SchedOp} {s₁ : SchedState} {frame : InterruptFrame} (kept : Kept s)
    (raised : raises env s op = some (s₁, frame)) :
    (∃ q, Queued s₁ q) ∧ (s₁.schedulerRunning = false → Settled s₁) ∧ s₁.idleTask = s.idleTask := by
  have gives {mark : Task → Task} (quiet : ∀ k : Task, k.state ≠ .ready → (mark k).state ≠ .ready)
      (marked : (giveUp s mark).map (·, softInterrupt env) = some (s₁, frame)) :
      (∃ q, Queued s₁ q) ∧ (s₁.schedulerRunning = false → Settled s₁) ∧ s₁.idleTask = s.idleTask := by
    obtain ⟨⟨q, queued⟩, settled⟩ := kept
    obtain ⟨s', given, pair⟩ := Option.map_eq_some_iff.mp marked
    cases pair
    unfold giveUp at given
    split at given
    · exact absurd given (by simp)
    · rename_i c current
      split at given
      · rename_i armed
        cases Option.some.inj given
        refine ⟨⟨q, queued.outside (settled.waits current) (quiet _ (settled.waits current))⟩, ?_, rfl⟩
        intro off
        exact absurd (armed.symm.trans off) (by simp)
      · exact absurd given (by simp)
  cases op with
  | interrupt vector =>
    cases Option.some.inj raised
    exact ⟨kept.queued, fun _ => kept.settled, rfl⟩
  | yield => exact gives (fun k waits => by simpa [yieldMark] using waits) raised
  | sleepMs ms => exact gives (fun k _ => by simp [sleepMark]) raised
  | block reason => exact gives (fun k _ => by simp [blockMark]) raised
  | exit code =>
    cases Option.some.inj raised
    obtain ⟨after, idle⟩ := exitMark_spec kept code
    exact ⟨after.queued, fun _ => after.settled, idle⟩
  | start => exact absurd raised (by simp [raises])
  | createKernel priority => exact absurd raised (by simp [raises])
  | createUser space priority => exact absurd raised (by simp [raises])
  | unblock task => exact absurd raised (by simp [raises])
  | killCurrent code => exact absurd raised (by simp [raises])
  | kill pid => exact absurd raised (by simp [raises])

theorem schedKill_spec (kept : Kept s) (pid : Int) :
    ∃ r s', schedKill s pid = .ok (r, s') ∧ Kept s' := by
  obtain ⟨⟨q, queued⟩, settled⟩ := kept
  unfold schedKill
  cases schedFind s pid with
  | none => exact ⟨-1, s, rfl, ⟨q, queued⟩, settled⟩
  | some t =>
    simp only
    split
    · exact ⟨-1, s, rfl, ⟨q, queued⟩, settled⟩
    · obtain ⟨s', unlinked, shape, after⟩ := unlinkReady_spec queued t
      have same : s'.current = s.current ∧ ∀ u, (s'.tasks u).state = (s.tasks u).state := by
        rcases shape with rfl | ⟨level, prev, rfl⟩
        · exact ⟨rfl, fun u => rfl⟩
        · exact ⟨(unlinkNode_control ..).1, fun u => ((unlinkNode_fields ..).1 u).1⟩
      refine ⟨0, _, by simp only [unlinked]; rfl, after _ (by simp) (by simp), ?_⟩
      intro c current
      by_cases killed : c = t
      · subst c
        right
        simp
      · rw [setTask_other killed, same.2 c]
        exact settled c (same.1 ▸ current)

theorem plain_spec (env : Env) (kept : Kept s) (op : SchedOp) :
    plain env s op = .error .panic ∨ ∃ s', plain env s op = .ok s' ∧ Kept s' := by
  obtain ⟨⟨q, queued⟩, settled⟩ := kept
  cases op with
  | start => exact Or.inr ⟨_, rfl, ⟨q, queued.same rfl rfl rfl rfl⟩, settled⟩
  | createKernel priority => exact Or.inr ⟨_, rfl, createTask_spec env ⟨⟨q, queued⟩, settled⟩ _⟩
  | createUser space priority => exact Or.inr ⟨_, rfl, createTask_spec env ⟨⟨q, queued⟩, settled⟩ _⟩
  | unblock task => exact Or.inr ⟨_, rfl, (schedUnblock_spec ⟨⟨q, queued⟩, settled⟩ task).1⟩
  | killCurrent code =>
    simp only [plain, schedKillCurrent]
    split
    · exact Or.inl rfl
    · rename_i c current
      split
      · exact Or.inl rfl
      · refine Or.inr ⟨_, rfl, ⟨q, queued.outside (settled.waits current) (by simp [zombieMark])⟩, ?_⟩
        intro d same
        cases Option.some.inj (current.symm.trans same)
        right
        simp [zombieMark]
  | kill pid =>
    obtain ⟨r, s', run, after⟩ := schedKill_spec ⟨⟨q, queued⟩, settled⟩ pid
    exact Or.inr ⟨s', by simp [plain, run, Except.map], after⟩
  | interrupt frame => exact Or.inr ⟨s, rfl, ⟨q, queued⟩, settled⟩
  | yield => exact Or.inr ⟨s, rfl, ⟨q, queued⟩, settled⟩
  | sleepMs ms => exact Or.inr ⟨s, rfl, ⟨q, queued⟩, settled⟩
  | block reason => exact Or.inr ⟨s, rfl, ⟨q, queued⟩, settled⟩
  | exit code => exact Or.inr ⟨s, rfl, ⟨q, queued⟩, settled⟩

end Operations

section Reached
variable {s : SchedState}

def Boots (s : SchedState) : Prop := ∃ env before, s = schedInit env before

def Steps (s t : SchedState) : Prop := ∃ env op, step env s op = .ok t

/-- The states after sched_init and any operations, whatever the machine answers. -/
abbrev Reached : SchedState → Prop := Reachable Boots Steps

theorem step_spec (env : Env) (kept : Kept s) (op : SchedOp) :
    step env s op = .error .panic ∨ (step env s op = .error .fault ∧ s.idleTask = none) ∨
    ∃ s', step env s op = .ok s' ∧ Kept s' := by
  unfold step
  cases raised : raises env s op with
  | none =>
    rcases plain_spec env kept op with panic | done
    · exact Or.inl panic
    · exact Or.inr (Or.inr done)
  | some entry =>
    obtain ⟨s₁, frame⟩ := entry
    obtain ⟨⟨q, queued⟩, settled, idle⟩ := raises_spec kept raised
    rcases interrupt_spec env frame queued settled with panic | ⟨fault, none_idle⟩ | ⟨frame', s', run, after, settled'⟩
    · left
      simp only [panic]
      rfl
    · refine Or.inr (Or.inl ⟨?_, idle ▸ none_idle⟩)
      simp only [fault]
      rfl
    · exact Or.inr (Or.inr ⟨s', by simp only [run]; rfl, after, settled'⟩)

theorem step_kept {env : Env} {op : SchedOp} {s' : SchedState} (kept : Kept s) (run : step env s op = .ok s') : Kept s' := by
  rcases step_spec env kept op with panic | ⟨fault, -⟩ | ⟨s'', run', after⟩
  · exact absurd (run.symm.trans panic) (by simp)
  · exact absurd (run.symm.trans fault) (by simp)
  · cases Except.ok.inj (run.symm.trans run')
    exact after

theorem reached_kept (reached : Reached s) : Kept s := by
  refine reached.induct Kept ?_ ?_
  · rintro s ⟨env, before, rfl⟩
    exact schedInit_spec env before
  · rintro s t kept ⟨env, op, run⟩
    exact step_kept kept run

/-- Over every run: the ready queues hold each ready task once and nothing else,
every switch picks by priority and age, and no operation loops. A switch can only
fault when sched_init found no memory for the idle task. -/
theorem ready_queues_reached (reached : Reached s) :
    (∃ q, ReadyQueues s q) ∧
    (∀ env op s₁ frame, switchPoint env s op = some (s₁, frame) →
      (switchToNext s₁ frame = .error .fault ∧ s.idleTask = none) ∨
      ∃ frame' s₂, Switches s₁ frame frame' s₂ ∧ step env s op = .ok s₂) ∧
    ∀ env op, step env s op ≠ .error .spin := by
  have kept := reached_kept reached
  obtain ⟨q, queued⟩ := kept.queued
  refine ⟨⟨q, queued.readyQueues⟩, ?_, ?_⟩
  · intro env op s₂ frame point
    unfold switchPoint at point
    split at point
    · exact absurd point (by simp)
    · rename_i s₁ entry raised
      split at point
      · rename_i s' run
        cases Option.some.inj point
        obtain ⟨⟨q₁, queued₁⟩, settled, idle⟩ := raises_spec kept raised
        rcases reschedule_spec env entry queued₁ settled with panic | ⟨switch, s'', run', ⟨q₂, queued₂⟩, idle', -⟩
        · exact absurd (run.symm.trans panic) (by simp)
        · cases Except.ok.inj (run.symm.trans run')
          have enters : step env s op = (switchToNext s₂ entry.addr).map Prod.snd := by
            simp only [step, raised, schedOnInterruptReturn, run]
            rfl
          rcases switchToNext_spec queued₂ entry.addr with ⟨fault, none_idle⟩ | ⟨frame', t, switches, -⟩
          · exact Or.inl ⟨fault, (idle'.trans idle) ▸ none_idle⟩
          · refine Or.inr ⟨frame', t, switches, ?_⟩
            rw [enters, switches.1]
            rfl
      · exact absurd point (by simp)
  · intro env op spins
    rcases step_spec env kept op with panic | ⟨fault, -⟩ | ⟨s', run, -⟩
    · exact absurd (spins.symm.trans panic) (by simp)
    · exact absurd (spins.symm.trans fault) (by simp)
    · exact absurd (spins.symm.trans run) (by simp)

/-- A machine on which every allocation succeeds, and the table before sched_init. -/
def calm : Env where
  now := 0
  later := 10
  stack := 0x100000
  guardIntact := fun _ => true
  frame := 0x8000

def blankTable : SchedState where
  tasks := fun _ => emptyTask
  current := none
  idleTask := none
  nextPid := 1
  schedulerRunning := false
  contextSwitches := 0
  readyHead := fun _ => none
  readyTail := fun _ => none
  tssStack := 0
  activeSpace := 0
  enqueues := 0

theorem first_switch (env : Env) (frame : InterruptFrame) (reached : Reached s) (armed : s.schedulerRunning = true)
    (fresh : s.current = none) :
    switchPoint env s (.interrupt frame) = some (wakeSleepers env.later s, frame.addr) := by
  obtain ⟨q, queued⟩ := (reached_kept reached).queued
  have current := (wakeSleepers_spec env.later queued).2.1.trans fresh
  have run : reschedule env s frame = .ok (true, wakeSleepers env.later s) := by
    simp [reschedule, armed, checkStackGuard, fresh, tick, current, bind, Except.bind, pure, Except.pure]
  simp only [switchPoint, raises, run]

theorem ready_queues_first_switch :
    (∃ q, ReadyQueues (schedStart (schedInit calm blankTable)) q) ∧
    ∃ s₁ frame, switchPoint calm (schedStart (schedInit calm blankTable)) (.interrupt ⟨0x9000, 32⟩) =
      some (s₁, frame) ∧ ∃ frame' s₂, Switches s₁ frame frame' s₂ := by
  have reached : Reached (schedStart (schedInit calm blankTable)) :=
    .next (.start ⟨calm, blankTable, rfl⟩) ⟨calm, .start, rfl⟩
  obtain ⟨queues, switches, -⟩ := ready_queues_reached reached
  have idle : (schedStart (schedInit calm blankTable)).idleTask.isSome := by decide
  have enters := first_switch calm ⟨0x9000, 32⟩ reached rfl (Option.isNone_iff_eq_none.mp (by decide))
  refine ⟨queues, _, _, enters, ?_⟩
  rcases switches _ _ _ _ enters with ⟨-, missing⟩ | ⟨frame', s₂, done, -⟩
  · rw [missing] at idle
    exact absurd idle (by simp)
  · exact ⟨frame', s₂, done⟩

end Reached

end Qito.Sched
