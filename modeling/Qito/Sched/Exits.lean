import Qito.Sched.Creation
import Qito.Sched.Finality

/-! sched_exit line by line, with interrupts between its lines. A task that has
set its own state to ZOMBIE does not come back from an interrupt, so what it has
not done by then it will not do. -/
namespace Qito.Sched
open Links Runs

/-- The line of sched_exit that a task has come to. -/
inductive ExitPc where
  | called
  | recorded
  | marked
  | sliced
  | found (parent : Option Slot)
  | finished

/-- A call of sched_exit. The fields waits and issued are ghosts: the parent that
has been BLOCKED since the call, and whether the child has woken it. -/
structure Exiting where
  pc : ExitPc
  code : Int
  waits : Option Slot
  issued : Bool

structure Leaving where
  sched : SchedState
  exits : Slot → Option Exiting

/-- The next line of sched_exit, up to the loop at its end. -/
@[grind =] def advance (s : SchedState) (c : Slot) (e : Exiting) : SchedState × Exiting :=
  match e.pc with
  | .called => (setTask s c fun k => { k with exitCode := e.code }, { e with pc := .recorded })
  | .recorded => (setTask s c fun k => { k with state := .zombie }, { e with pc := .marked })
  | .marked => (setTask s c fun k => { k with timeSlice := 0 }, { e with pc := .sliced })
  | .sliced => (s, { e with pc := .found (schedFind s (s.tasks c).ppid) })
  | .found none => (s, { e with pc := .finished })
  | .found (some p) =>
    if (s.tasks p).state = .blocked then
      (schedUnblock s (some p), { e with pc := .finished, issued := e.waits = some p })
    else (s, { e with pc := .finished })
  | .finished => (s, e)

def blockedOnly (s : SchedState) (p : Option Slot) : Option Slot := p.filter fun p => (s.tasks p).state = .blocked

/-- A parent that is not BLOCKED any more has stopped waiting. -/
def Leaving.observe (x : Leaving) : Leaving :=
  { x with exits := fun t => (x.exits t).map fun e => { e with waits := blockedOnly x.sched e.waits } }

def Leaving.set (x : Leaving) (t : Slot) (e : Exiting) : Leaving :=
  { x with exits := Function.update x.exits t (some e) }

inductive ExitOp where
  | call (code : Int)
  | advance
  | interrupt (frame : InterruptFrame)
  | other (op : SchedOp)

/-- What a task may do that neither ends a task nor makes one. -/
def SchedOp.Harmless : SchedOp → Prop
  | .start | .yield | .sleepMs _ | .block _ | .unblock _ => True
  | _ => False

/-- A task in sched_exit does nothing else; interrupts come at any time. -/
def ExitMove (env : Env) (x : Leaving) (op : ExitOp) (x' : Leaving) : Prop :=
  match op with
  | .call code => ∃ c, x.sched.current = some c ∧ x.exits c = none ∧
    x' = x.set c ⟨.called, code, blockedOnly x.sched (schedFind x.sched (x.sched.tasks c).ppid), false⟩
  | .advance => ∃ c e, x.sched.current = some c ∧ x.exits c = some e ∧
    x' = ({ x with sched := (advance x.sched c e).1 }.set c (advance x.sched c e).2).observe
  | .interrupt frame => ∃ frame' s, schedOnInterruptReturn env x.sched frame = .ok (frame', s) ∧
    x' = { x with sched := s }.observe
  | .other op => (∀ c, x.sched.current = some c → x.exits c = none) ∧ op.Harmless ∧
    ∃ s, step env x.sched op = .ok s ∧ x' = { x with sched := s }.observe

/-- Any state of the scheduler, with no task in sched_exit. -/
def ExitBoots (x : Leaving) : Prop := Reached x.sched ∧ x.exits = fun _ => none

/-- No interrupt comes while the task that runs is a ZOMBIE in sched_exit and a
parent waits for it. -/
def ExitOk (x : Leaving) : ExitOp → Prop
  | .interrupt _ => x.sched.schedulerRunning = true → ∀ c e p, x.sched.current = some c → x.exits c = some e →
    e.waits = some p → (x.sched.tasks c).state ≠ .zombie
  | _ => True

def ExitStep (x x' : Leaving) : Prop := ∃ env op, ExitOk x op ∧ ExitMove env x op x'

/-- A child has been switched away as a ZOMBIE, and the parent that was BLOCKED when
it called sched_exit still is, without a wake-up from the child. -/
def WakeUpLost (x : Leaving) : Prop :=
  ∃ t e p, x.exits t = some e ∧ e.waits = some p ∧ e.issued = false ∧ (x.sched.tasks p).state = .blocked ∧
    (x.sched.tasks t).state = .zombie ∧ x.sched.current ≠ some t

section Lines
variable {s s' : SchedState} {c t : Slot}

theorem setTask_setTask (f g : Task → Task) : setTask (setTask s t f) t g = setTask s t (g ∘ f) := by
  simp [setTask]

theorem advance_exitMark (code : Int) (current : s.current = some c) {e : Exiting} (begins : e.pc = .called)
    (same : e.code = code) :
    ((fun x : SchedState × Exiting => advance x.1 c x.2)^[5] (s, e)).1 = exitMark s code := by
  have marks : setTask (setTask (setTask s c fun k => { k with exitCode := code }) c fun k => { k with state := .zombie })
      c (fun k => { k with timeSlice := 0 }) = setTask s c (zombieMark code) := by
    rw [setTask_setTask, setTask_setTask]
    rfl
  simp only [Function.iterate_succ, Function.iterate_zero, Function.comp, id, advance, begins, same, marks, exitMark,
    current]
  cases schedFind (setTask s c (zombieMark code)) ((setTask s c (zombieMark code)).tasks c).ppid with
  | none => rfl
  | some p =>
    simp only
    split
    · rfl
    · rfl

theorem schedFind_stable (stable : Stable s s') (pid : Int) : schedFind s' pid = schedFind s pid := by
  unfold schedFind
  congr 1
  funext t
  have used := (stable.unused t).not
  simp only [ne_eq, used, (stable.same t).pid]

theorem Stable.ppid (stable : Stable s s') (t : Slot) : (s'.tasks t).ppid = (s.tasks t).ppid :=
  congrArg (·.2.1) (stable.same t).identity

theorem advance_shape (s : SchedState) (c : Slot) (e : Exiting) :
    (∃ f : Task → Task, (advance s c e).1 = setTask s c f ∧ (∀ k, SameTask k (f k)) ∧
      ((∀ k, (f k).state = k.state) ∨ ∀ k, (f k).state = .zombie)) ∨
    ∃ p, (advance s c e).1 = schedUnblock s p := by
  unfold advance
  split
  · exact .inl ⟨fun k => { k with exitCode := e.code }, rfl, fun _ => ⟨rfl, fun _ => rfl⟩, .inl fun _ => rfl⟩
  · exact .inl ⟨fun k => { k with state := .zombie }, rfl, fun _ => ⟨rfl, fun _ => rfl⟩, .inr fun _ => rfl⟩
  · exact .inl ⟨fun k => { k with timeSlice := 0 }, rfl, fun _ => ⟨rfl, fun _ => rfl⟩, .inl fun _ => rfl⟩
  · exact .inr ⟨none, rfl⟩
  · exact .inr ⟨none, rfl⟩
  case h_6 p _ =>
    split
    · exact .inr ⟨some p, rfl⟩
    · exact .inr ⟨none, rfl⟩
  · exact .inr ⟨none, rfl⟩

theorem advance_stable (kept : Kept s) (current : s.current = some c) (e : Exiting) :
    Stable s (advance s c e).1 ∧ Kept (advance s c e).1 ∧ (advance s c e).1.current = s.current := by
  have used := kept.settled.used current
  rcases advance_shape s c e with ⟨f, run, same, state⟩ | ⟨p, run⟩
  · rw [run]
    have later : (f (s.tasks c)).state = (s.tasks c).state ∨ (f (s.tasks c)).state = .zombie :=
      state.imp (fun keeps => keeps _) (fun dies => dies _)
    refine ⟨setTask_stable used (same _) ?_, ?_, rfl⟩
    · rcases later with eq | eq
      · rw [eq]
        exact used
      · rw [eq]
        exact nofun
    · obtain ⟨⟨q, queued⟩, settled⟩ := kept
      refine ⟨⟨q, queued.outside (settled.waits current) ?_⟩, ?_⟩
      · rcases later with eq | eq
        · rw [eq]
          exact settled.waits current
        · rw [eq]
          exact nofun
      · intro d here
        cases Option.some.inj (current.symm.trans here)
        rw [setTask_same]
        rcases later with eq | eq
        · rw [eq]
          exact settled c current
        · exact .inr eq
  · rw [run]
    exact ⟨schedUnblock_stable p, (schedUnblock_spec kept p).1, (schedUnblock_dead s p).2⟩

theorem advance_zombie {e : Exiting} (ne : t ≠ c) (dead : ((advance s c e).1.tasks t).state = .zombie) :
    (s.tasks t).state = .zombie := by
  rcases advance_shape s c e with ⟨f, run, -⟩ | ⟨p, run⟩
  · rw [run, setTask_other ne] at dead
    exact dead
  · rw [run] at dead
    exact ((schedUnblock_dead s p).1.dead t).mp dead

theorem Turned.zombie (turned : Turned s s') (dead : (s'.tasks t).state = .zombie) : (s.tasks t).state = .zombie := by
  rcases turned.turn t with same | ⟨-, active⟩
  · exact same.symm.trans dead
  · rw [dead] at active
    rcases active with here | here
    · cases here
    · cases here

theorem harmless_zombie {env : Env} {op : SchedOp} (kept : Kept s) (harmless : op.Harmless)
    (run : step env s op = .ok s') (dead : (s'.tasks t).state = .zombie) : (s.tasks t).state = .zombie := by
  have gives (mark : Task → Task) (alive : ∀ k : Task, (mark k).state = .zombie → k.state = .zombie)
      (raised : raises env s op = (giveUp s mark).map (·, softInterrupt env))
      (quiet : plain env s op = .ok s) : (s.tasks t).state = .zombie := by
    unfold step at run
    cases given : giveUp s mark with
    | none =>
      rw [given] at raised
      simp only [raised, Option.map_none, quiet] at run
      cases run
      exact dead
    | some s₁ =>
      rw [given] at raised
      obtain ⟨⟨q, queued⟩, -⟩ := raises_spec kept raised
      simp only [raised, Option.map_some] at run
      cases returned : schedOnInterruptReturn env s₁ (softInterrupt env) with
      | error halt =>
        rw [returned] at run
        cases run
      | ok result =>
        rw [returned] at run
        cases run
        have dead₁ := (interrupt_turned queued returned).1.zombie dead
        unfold giveUp at given
        split at given
        · cases given
        case h_2 c current =>
          split at given
          · cases given
            by_cases here : t = c
            · subst here
              rw [setTask_same] at dead₁
              exact alive _ dead₁
            · rw [setTask_other here] at dead₁
              exact dead₁
          · cases given
  cases op with
  | start =>
    cases run
    exact dead
  | unblock task =>
    cases run
    exact ((schedUnblock_dead s task).1.dead t).mp dead
  | yield => exact gives yieldMark (fun _ => id) rfl rfl
  | sleepMs ms => exact gives (sleepMark env ms) (fun _ same => by cases same) rfl rfl
  | block reason => exact gives (blockMark reason) (fun _ same => by cases same) rfl rfl
  | interrupt frame => exact absurd harmless id
  | createKernel priority => exact absurd harmless id
  | createUser space priority => exact absurd harmless id
  | exit code => exact absurd harmless id
  | killCurrent code => exact absurd harmless id
  | kill pid => exact absurd harmless id

end Lines

/-- What a child in sched_exit is to the parent that waits for it. -/
structure Watch (s : SchedState) (t : Slot) (e : Exiting) (p : Slot) : Prop where
  parent : schedFind s (s.tasks t).ppid = some p
  blocked : (s.tasks p).state = .blocked
  open_ : e.pc ≠ .finished
  found : ∀ q, e.pc = .found q → q = some p
  here : (s.tasks t).state = .zombie → s.current = some t

structure Watched (x : Leaving) : Prop where
  kept : Kept x.sched
  used : IdleUsed x.sched
  watch : ∀ t e p, x.exits t = some e → e.waits = some p → Watch x.sched t e p

section Waits
variable {x x' : Leaving} {s s' : SchedState} {t c p : Slot} {e : Exiting} {env : Env}

theorem Watch.keep (stable : Stable s s') (watch : Watch s t e p) (blocked : (s'.tasks p).state = .blocked)
    (here : (s'.tasks t).state = .zombie → s'.current = some t) : Watch s' t e p := by
  refine ⟨?_, blocked, watch.open_, watch.found, here⟩
  rw [stable.ppid, schedFind_stable stable]
  exact watch.parent

theorem blockedOnly_some {o : Option Slot} (eq : blockedOnly s o = some p) : o = some p ∧ (s.tasks p).state = .blocked := by
  simpa [blockedOnly, Option.filter_eq_some_iff] using eq

theorem observe_watched (kept : Kept x.sched) (used : IdleUsed x.sched)
    (watch : ∀ t e p, x.exits t = some e → e.waits = some p → (x.sched.tasks p).state = .blocked →
      Watch x.sched t e p) : Watched x.observe := by
  refine ⟨kept, used, ?_⟩
  intro t e' p exits waits
  obtain ⟨e, at_, rfl⟩ := Option.map_eq_some_iff.mp exits
  obtain ⟨before, blocked⟩ := blockedOnly_some waits
  have watch := watch t e p at_ before blocked
  exact ⟨watch.parent, watch.blocked, watch.open_, watch.found, watch.here⟩

theorem advance_waits (s : SchedState) (c : Slot) (e : Exiting) : (advance s c e).2.waits = e.waits := by
  unfold advance
  split
  · rfl
  · rfl
  · rfl
  · rfl
  · rfl
  · split
    · rfl
    · rfl
  · rfl

theorem advance_watch (kept : Kept s) (current : s.current = some c) (watch : Watch s c e p)
    (blocked : ((advance s c e).1.tasks p).state = .blocked) : Watch (advance s c e).1 c (advance s c e).2 p := by
  obtain ⟨stable, -, stays⟩ := advance_stable kept current e
  have here : ((advance s c e).1.tasks c).state = .zombie → (advance s c e).1.current = some c :=
    fun _ => stays.trans current
  have parent : schedFind (advance s c e).1 ((advance s c e).1.tasks c).ppid = some p := by
    rw [stable.ppid, schedFind_stable stable]
    exact watch.parent
  suffices pc : (advance s c e).2.pc ≠ .finished ∧ ∀ q, (advance s c e).2.pc = .found q → q = some p from
    ⟨parent, blocked, pc.1, pc.2, here⟩
  cases at_ : e.pc with
  | called => simp [advance, at_]
  | recorded => simp [advance, at_]
  | marked => simp [advance, at_]
  | sliced => simp [advance, at_, watch.parent]
  | found q =>
    -- the parent is blocked when the child looks, so this line readies it
    cases watch.found q at_
    simp only [advance, at_, if_pos watch.blocked, schedUnblock, if_neg (not_not.mpr watch.blocked)] at blocked
    rw [enqueue_state] at blocked
    cases blocked
  | finished => exact absurd at_ watch.open_

theorem exit_watched {op : ExitOp} (watched : Watched x) (ok : ExitOk x op) (move : ExitMove env x op x') :
    Watched x' := by
  cases op with
  | call code =>
    obtain ⟨c, current, -, rfl⟩ := move
    refine ⟨watched.kept, watched.used, ?_⟩
    intro t e p exits waits
    by_cases here : t = c
    · subst here
      simp only [Leaving.set, Function.update_self, Option.some.injEq] at exits
      subst exits
      obtain ⟨parent, blocked⟩ := blockedOnly_some waits
      exact ⟨parent, blocked, nofun, nofun, fun _ => current⟩
    · simp only [Leaving.set, Function.update_of_ne here] at exits
      exact watched.watch t e p exits waits
  | advance =>
    obtain ⟨c, e, current, at_, rfl⟩ := move
    obtain ⟨stable, kept, stays⟩ := advance_stable watched.kept current e
    apply observe_watched kept (stable.idleUsed watched.used)
    intro t e' p exits waits blocked
    by_cases here : t = c
    · subst here
      simp only [Leaving.set, Function.update_self, Option.some.injEq] at exits
      subst exits
      rw [advance_waits] at waits
      exact advance_watch watched.kept current (watched.watch t e p at_ waits) blocked
    · simp only [Leaving.set, Function.update_of_ne here] at exits
      have watch := watched.watch t e' p exits waits
      apply watch.keep stable blocked
      intro dead
      exact stays.trans (watch.here (advance_zombie here dead))
  | interrupt frame =>
    obtain ⟨frame', s, run, rfl⟩ := move
    obtain ⟨q, queued⟩ := watched.kept.queued
    obtain ⟨turned, -⟩ := interrupt_turned queued run
    have stable := turned.stable watched.used
    have whole : step env x.sched (.interrupt frame) = .ok s := by simp [step, raises, run, Except.map]
    apply observe_watched (step_kept watched.kept whole) (stable.idleUsed watched.used)
    intro t e p exits waits blocked
    have watch := watched.watch t e p exits waits
    apply watch.keep stable blocked
    intro dead
    have dead' := turned.zombie dead
    cases armed : x.sched.schedulerRunning with
    | true => exact absurd dead' (ok armed t e p (watch.here dead') exits waits)
    | false =>
      simp only [schedOnInterruptReturn, reschedule, armed] at run
      cases run
      exact watch.here dead
  | other op =>
    obtain ⟨outside, harmless, s, run, rfl⟩ := move
    have plain : ¬ op.Creates := by
      intro creates
      cases op with
      | createKernel priority => exact harmless
      | createUser space priority => exact harmless
      | _ => exact creates
    have stable := step_stable watched.kept watched.used plain run
    apply observe_watched (step_kept watched.kept run) (stable.idleUsed watched.used)
    intro t e p exits waits blocked
    have watch := watched.watch t e p exits waits
    apply watch.keep stable blocked
    intro dead
    have here := watch.here (harmless_zombie watched.kept harmless run dead)
    cases exits.symm.trans (outside t here)

/-- In every run in which no interrupt takes a dying child from the processor before
it has woken the parent that waits for it, no wake-up is lost. -/
theorem exit_wakes_parent (run : Reachable ExitBoots ExitStep x) : ¬ WakeUpLost x := by
  have watched : Watched x := by
    apply run.induct Watched
    · rintro x ⟨reached, exits⟩
      obtain ⟨kept, used, -⟩ := reached_named reached
      refine ⟨kept, used, ?_⟩
      intro t e p at_
      rw [exits] at at_
      cases at_
    · rintro x x' watched ⟨env, op, ok, move⟩
      exact exit_watched watched ok move
  rintro ⟨t, e, p, exits, waits, -, -, dead, away⟩
  exact away ((watched.watch t e p exits waits).here dead)

/-- The second task creates a third, and blocks; the third runs. -/
def parentBlocks : SchedState := after (after twoTasks (.createKernel 2)) (.block none)

set_option maxRecDepth 100000 in
theorem parentBlocks_reached : Reached parentBlocks := by
  have steps {s : SchedState} {op : SchedOp} (reached : Reached s) (ok : (step calm s op).isOk = true) :
      Reached (after s op) := .next reached ⟨calm, op, (move_after s op ok).1⟩
  have boots : Reached (schedInit calm blankTable) := .start ⟨calm, blankTable, rfl⟩
  have created : Reached (after (schedInit calm blankTable) (.createKernel 2)) := steps boots (by decide)
  have started : Reached (schedStart (after (schedInit calm blankTable) (.createKernel 2))) :=
    .next created ⟨calm, .start, rfl⟩
  have runs : Reached twoTasks := steps started (by decide)
  exact steps (steps runs (by decide)) (by decide)

/-- The third task calls sched_exit and comes to the given line. -/
def leaving : Nat → Leaving
  | 0 => Leaving.set ⟨parentBlocks, fun _ => none⟩ 2 ⟨.called, 0, some 1, false⟩
  | n + 1 =>
    match (leaving n).exits 2 with
    | none => leaving n
    | some e => ({ leaving n with sched := (advance (leaving n).sched 2 e).1 }.set 2
        (advance (leaving n).sched 2 e).2).observe

def interrupted (x : Leaving) : Leaving := { x with sched := after x.sched (.interrupt ⟨0x9000, 32⟩) }.observe

theorem advance_move {n : Nat} {c : Slot} (current : (leaving n).sched.current = some c) (third : c = 2)
    (on : ((leaving n).exits 2).isSome = true) : ExitMove calm (leaving n) .advance (leaving (n + 1)) := by
  obtain ⟨e, at_⟩ := Option.isSome_iff_exists.mp on
  subst third
  refine ⟨2, e, current, at_, ?_⟩
  rw [leaving, at_]

set_option maxRecDepth 100000 in
theorem leaving_reached {steps : Leaving → Leaving → Prop}
    (allowed : ∀ x x' op, (op = .call 0 ∨ op = .advance) → ExitMove calm x op x' → steps x x') :
    Reachable ExitBoots steps (leaving 2) ∧ Reachable ExitBoots steps (leaving 5) := by
  have start {s : SchedState} (reached : Reached s) : ExitBoots ⟨s, fun _ => none⟩ := ⟨reached, rfl⟩
  have boots : Reachable ExitBoots steps _ := .start (start parentBlocks_reached)
  have waits : blockedOnly parentBlocks (schedFind parentBlocks (parentBlocks.tasks 2).ppid) = some 1 := by decide
  have call : ExitMove calm ⟨parentBlocks, fun _ => none⟩ (.call 0) (leaving 0) := by
    refine ⟨2, by decide, rfl, ?_⟩
    rw [leaving, waits]
  have called := boots.next (allowed _ _ _ (.inl rfl) call)
  have on (n : Nat) (reached : Reachable ExitBoots steps (leaving n))
      (current : (leaving n).sched.current = some 2) (open_ : ((leaving n).exits 2).isSome = true) :
      Reachable ExitBoots steps (leaving (n + 1)) :=
    reached.next (allowed _ _ _ (.inr rfl) (advance_move current rfl open_))
  have recorded := on 0 called (by decide) (by decide)
  have marked := on 1 recorded (by decide) (by decide)
  have sliced := on 2 marked (by decide) (by decide)
  have found := on 3 sliced (by decide) (by decide)
  exact ⟨marked, on 4 found (by decide) (by decide)⟩

theorem interrupt_move (x : Leaving) (ok : (step calm x.sched (.interrupt ⟨0x9000, 32⟩)).isOk = true) :
    ExitMove calm x (.interrupt ⟨0x9000, 32⟩) (interrupted x) := by
  have run := (move_after x.sched (.interrupt ⟨0x9000, 32⟩) ok).1
  cases returned : schedOnInterruptReturn calm x.sched ⟨0x9000, 32⟩ with
  | error halt =>
    simp [step, raises, returned, Except.map] at run
  | ok result =>
    have lands : result.2 = after x.sched (.interrupt ⟨0x9000, 32⟩) := by
      simpa [step, raises, returned, Except.map] using run
    exact ⟨result.1, result.2, returned, by rw [interrupted, lands]⟩

set_option maxRecDepth 100000 in
/-- An interrupt right after the child's last line finds the parent awake. -/
theorem exit_wakes_parent_late :
    ¬ WakeUpLost (interrupted (leaving 5)) ∧ ((interrupted (leaving 5)).sched.tasks 2).state = .zombie ∧
    ((leaving 0).sched.tasks 1).state = .blocked ∧ (interrupted (leaving 5)).sched.current = some 1 := by
  have reached : Reachable ExitBoots ExitStep (leaving 5) := by
    apply (leaving_reached _).2
    intro x x' op which move
    refine ⟨calm, op, ?_, move⟩
    rcases which with rfl | rfl
    · trivial
    · trivial
  have move := interrupt_move (leaving 5) (by decide)
  have woken : ((leaving 5).exits 2).bind (·.waits) = none := by decide
  have current : (leaving 5).sched.current = some 2 := by decide
  have ok : ExitOk (leaving 5) (.interrupt ⟨0x9000, 32⟩) := by
    intro _ c e p here exits waits
    cases Option.some.inj (current.symm.trans here)
    rw [exits, Option.bind_some, waits] at woken
    cases woken
  exact ⟨exit_wakes_parent (reached.next ⟨calm, _, ok, move⟩), by decide, by decide, by decide⟩

set_option maxRecDepth 100000 in
/-- An interrupt right after the child has set its state loses the wake-up. -/
theorem interrupt_loses_wake_up :
    ¬ ∀ x, Reachable ExitBoots (fun x x' => ∃ env op, ExitMove env x op x') x → ¬ WakeUpLost x := by
  intro claim
  have reached : Reachable ExitBoots (fun x x' => ∃ env op, ExitMove env x op x') (leaving 2) := by
    apply (leaving_reached _).1
    intro x x' op _ move
    exact ⟨calm, op, move⟩
  have move := interrupt_move (leaving 2) (by decide)
  apply claim (interrupted (leaving 2)) (reached.next ⟨calm, _, move⟩)
  have exits : ((interrupted (leaving 2)).exits 2).map (fun e => (e.waits, e.issued)) = some (some 1, false) := by
    decide
  obtain ⟨e, at_, ghosts⟩ := Option.map_eq_some_iff.mp exits
  obtain ⟨waits, issued⟩ := Prod.mk.inj ghosts
  exact ⟨2, e, 1, at_, waits, issued, by decide, by decide, by decide⟩

end Waits

end Qito.Sched
