import Qito.Lib.Rings

/-! The input event queue of dev/input.c, and what it is for: a queue that drops its
oldest event where it has no room for another one. -/
namespace Qito.Dev
open Rings

def eventQueueSize : Nat := 256

inductive InputEventType where
  | keyDown
  | keyUp
  | mouseMove
  | mouseDown
  | mouseUp
  | mouseScroll
deriving DecidableEq

structure InputEvent where
  type : InputEventType
  code : UInt32
  modifiers : UInt32
  x : Int32
  y : Int32
  dx : Int32
  dy : Int32
  timestamp : UInt64

structure Input where
  queue : Nat → InputEvent
  queueHead : Nat
  queueTail : Nat
  mouseX : Int32
  mouseY : Int32
  mouseButtons : UInt32
  modifierState : UInt32
  eventsPosted : UInt64

/-- The state after input_init. The slots keep what they held, and the pointer starts
in the middle of the screen where there is one. -/
def inputInit (screen : Option (Int32 × Int32)) (s : Input) : Input :=
  { s with
    queueHead := 0
    queueTail := 0
    mouseX := match screen with
      | some (width, _) => width / 2
      | none => 400
    mouseY := match screen with
      | some (_, height) => height / 2
      | none => 300
    mouseButtons := 0
    modifierState := 0 }

def inputPost (s : Input) (event : InputEvent) : Input :=
  let next := (s.queueHead + 1) % eventQueueSize
  -- full: the oldest event goes so that the newest always lands
  let s := if next = s.queueTail then { s with queueTail := (s.queueTail + 1) % eventQueueSize } else s
  let s := { s with
    queue := Function.update s.queue s.queueHead event
    queueHead := next
    eventsPosted := s.eventsPosted + 1 }
  let s := if event.type = .mouseMove ∨ event.type = .mouseDown ∨ event.type = .mouseUp then
      { s with mouseX := event.x, mouseY := event.y, mouseButtons := event.code }
    else s
  { s with modifierState := event.modifiers }

def inputPoll (s : Input) : Option InputEvent × Input :=
  if s.queueTail = s.queueHead then (none, s)
  else (some (s.queue s.queueTail), { s with queueTail := (s.queueTail + 1) % eventQueueSize })

def inputHasEvents (s : Input) : Bool := s.queueHead != s.queueTail

def inputFlush (s : Input) : Input := { s with queueTail := s.queueHead }

inductive Call where
  | post (event : InputEvent)
  | poll
  | hasEvents
  | flush

/-- What a call returns to its caller. -/
inductive Reply where
  | done
  | event (polled : Option InputEvent)
  | flag (answer : Bool)

def perform (s : Input) : Call → Reply × Input
  | .post event => (.done, inputPost s event)
  | .poll => (.event (inputPoll s).1, (inputPoll s).2)
  | .hasEvents => (.flag (inputHasEvents s), s)
  | .flush => (.done, inputFlush s)

/-- The abstract queue takes an event at its end, and loses its first one where it
already holds room events. -/
def append (room : Nat) (events : List InputEvent) (event : InputEvent) : List InputEvent :=
  (if events.length = room then events.tail else events) ++ [event]

def serve (room : Nat) (events : List InputEvent) : Call → Reply × List InputEvent
  | .post event => (.done, append room events event)
  | .poll => (.event events.head?, events.tail)
  | .hasEvents => (.flag (!events.isEmpty), events)
  | .flush => (.done, [])

/-- The replies to a sequence of calls. -/
def replies {σ : Type} (step : σ → Call → Reply × σ) : σ → List Call → List Reply
  | _, [] => []
  | s, call :: calls => (step s call).1 :: replies step (step s call).2 calls

def posted (calls : List Call) : List InputEvent :=
  calls.filterMap fun
    | .post event => some event
    | _ => none

def polled (answers : List Reply) : List InputEvent :=
  answers.filterMap fun
    | .event found => found
    | _ => none

section
variable {s : Input} {events : List InputEvent}

/-- The ring holds the queue, with one slot always empty. -/
structure Keeps (s : Input) (events : List InputEvent) : Prop where
  holds : Holds eventQueueSize s.queue s.queueTail events
  head : s.queueHead = (s.queueTail + events.length) % eventQueueSize
  room : events.length ≤ eventQueueSize - 1

theorem inputInit_keeps (screen : Option (Int32 × Int32)) (s : Input) : Keeps (inputInit screen s) [] where
  holds := holds_nil (show 0 < eventQueueSize by decide)
  head := rfl
  room := Nat.zero_le _

theorem Keeps.empty_iff (keeps : Keeps s events) : s.queueTail = s.queueHead ↔ events = [] := by
  have inside := keeps.holds.inside
  have head := keeps.head
  have room := keeps.room
  rw [← List.length_eq_zero_iff]
  unfold eventQueueSize at *
  omega

theorem Keeps.full_iff (keeps : Keeps s events) :
    (s.queueHead + 1) % eventQueueSize = s.queueTail ↔ events.length = eventQueueSize - 1 := by
  have inside := keeps.holds.inside
  have head := keeps.head
  have room := keeps.room
  unfold eventQueueSize at *
  omega

theorem inputPost_ring (s : Input) (event : InputEvent) :
    (inputPost s event).queue = Function.update s.queue s.queueHead event ∧
      (inputPost s event).queueHead = (s.queueHead + 1) % eventQueueSize ∧
      (inputPost s event).queueTail =
        if (s.queueHead + 1) % eventQueueSize = s.queueTail then (s.queueTail + 1) % eventQueueSize else s.queueTail := by
  unfold inputPost
  by_cases full : (s.queueHead + 1) % eventQueueSize = s.queueTail
  · simp only [full, if_true]
    split
    · exact ⟨rfl, rfl, rfl⟩
    · exact ⟨rfl, rfl, rfl⟩
  · simp only [full, if_false]
    split
    · exact ⟨rfl, rfl, rfl⟩
    · exact ⟨rfl, rfl, rfl⟩

theorem inputPost_keeps (keeps : Keeps s events) (event : InputEvent) :
    Keeps (inputPost s event) (append (eventQueueSize - 1) events event) := by
  obtain ⟨queue, head, tail⟩ := inputPost_ring s event
  have inside := keeps.holds.inside
  have place := keeps.head
  have room := keeps.room
  unfold append
  by_cases full : events.length = eventQueueSize - 1
  · rw [if_pos (keeps.full_iff.mpr full)] at tail
    rw [if_pos full]
    cases events with
    | nil => exact absurd full (by decide)
    | cons oldest rest =>
      have short : rest.length = eventQueueSize - 2 := Nat.succ.inj full
      have behind : ((s.queueTail + 1) % eventQueueSize + rest.length) % eventQueueSize = s.queueHead := by
        rw [place, Nat.mod_add_mod, List.length_cons, Nat.add_assoc, Nat.add_comm 1]
      have pushed := keeps.holds.pop.push (by rw [short]; decide) event
      rw [behind] at pushed
      refine ⟨?_, ?_, ?_⟩
      · rw [queue, tail]
        exact pushed
      · rw [head, tail, List.tail_cons, List.length_append, List.length_singleton, ← behind, Nat.mod_add_mod, Nat.add_assoc]
      · rw [List.tail_cons, List.length_append, short]
        change eventQueueSize - 2 + 1 ≤ eventQueueSize - 1
        decide
  · rw [if_neg (mt keeps.full_iff.mp full)] at tail
    rw [if_neg full]
    have pushed := keeps.holds.push (by unfold eventQueueSize at *; omega) event
    rw [← place] at pushed
    refine ⟨?_, ?_, ?_⟩
    · rw [queue, tail]
      exact pushed
    · rw [head, tail, List.length_append, List.length_singleton, ← Nat.add_assoc, place, Nat.mod_add_mod]
    · rw [List.length_append, List.length_singleton]
      omega

theorem inputPoll_keeps (keeps : Keeps s events) :
    (inputPoll s).1 = events.head? ∧ Keeps (inputPoll s).2 events.tail := by
  unfold inputPoll
  cases events with
  | nil =>
    rw [if_pos (keeps.empty_iff.mpr rfl)]
    exact ⟨rfl, keeps⟩
  | cons oldest rest =>
    rw [if_neg (mt keeps.empty_iff.mp (List.cons_ne_nil _ _))]
    refine ⟨congrArg some keeps.holds.front, keeps.holds.pop, ?_, Nat.le_of_succ_le keeps.room⟩
    change s.queueHead = ((s.queueTail + 1) % eventQueueSize + rest.length) % eventQueueSize
    rw [keeps.head, Nat.mod_add_mod, List.length_cons, Nat.add_assoc, Nat.add_comm 1]

theorem inputFlush_keeps (keeps : Keeps s events) : Keeps (inputFlush s) [] where
  holds := by
    have inside : s.queueHead < eventQueueSize := keeps.head ▸ Nat.mod_lt _ (by decide)
    exact holds_nil inside
  head := by
    have inside : s.queueHead < eventQueueSize := keeps.head ▸ Nat.mod_lt _ (by decide)
    exact (Nat.mod_eq_of_lt inside).symm
  room := Nat.zero_le _

theorem inputHasEvents_eq (keeps : Keeps s events) : inputHasEvents s = !events.isEmpty := by
  have empty := keeps.empty_iff
  unfold inputHasEvents
  cases events with
  | nil =>
    rw [empty.mpr rfl, bne_self_eq_false]
    rfl
  | cons oldest rest =>
    have differ : s.queueHead ≠ s.queueTail := fun same => absurd (empty.mp same.symm) (List.cons_ne_nil _ _)
    exact bne_iff_ne.mpr differ

theorem perform_serves (keeps : Keeps s events) (call : Call) :
    (perform s call).1 = (serve (eventQueueSize - 1) events call).1 ∧
      Keeps (perform s call).2 (serve (eventQueueSize - 1) events call).2 := by
  cases call with
  | post event => exact ⟨rfl, inputPost_keeps keeps event⟩
  | poll => exact ⟨congrArg Reply.event (inputPoll_keeps keeps).1, (inputPoll_keeps keeps).2⟩
  | hasEvents => exact ⟨congrArg Reply.flag (inputHasEvents_eq keeps), keeps⟩
  | flush => exact ⟨rfl, inputFlush_keeps keeps⟩

theorem replies_serve (keeps : Keeps s events) (calls : List Call) :
    replies perform s calls = replies (serve (eventQueueSize - 1)) events calls := by
  induction calls generalizing s events with
  | nil => rfl
  | cons call calls ih =>
    obtain ⟨answer, next⟩ := perform_serves keeps call
    rw [replies, replies, answer, ih next]

theorem polled_sublist (room : Nat) (events : List InputEvent) (calls : List Call) :
    (polled (replies (serve room) events calls)).Sublist (events ++ posted calls) := by
  induction calls generalizing events with
  | nil => exact List.nil_sublist _
  | cons call calls ih =>
    cases call with
    | post event =>
      have kept : (append room events event).Sublist (events ++ [event]) := by
        unfold append
        split
        · exact (List.tail_sublist _).append_right _
        · exact List.Sublist.refl _
      have later := (ih (append room events event)).trans (kept.append_right (posted calls))
      rw [List.append_assoc] at later
      exact later
    | poll =>
      cases events with
      | nil => exact ih []
      | cons oldest rest => exact (ih rest).cons_cons oldest
    | hasEvents => exact ih events
    | flush => exact (ih []).trans (List.sublist_append_right _ _)

/-- From input_init on, every sequence of calls gets the answers of the queue that
drops its oldest event, and the events polled are posted events in their order. -/
theorem input_queue (screen : Option (Int32 × Int32)) (before : Input) (calls : List Call) :
    replies perform (inputInit screen before) calls = replies (serve (eventQueueSize - 1)) [] calls ∧
      (polled (replies perform (inputInit screen before) calls)).Sublist (posted calls) := by
  have same := replies_serve (inputInit_keeps screen before) calls
  exact ⟨same, same ▸ polled_sublist (eventQueueSize - 1) [] calls⟩

end

end Qito.Dev
