import Qito.Lib.Runs
import Qito.Lib.Rings
import Qito.Ipc.Ports

/-! Message ports as queues. A run keeps the history of its calls; what a port has
accepted and returned since it was last created is read off the history. -/
namespace Qito.Ipc
open Runs Rings

inductive Call where
  | create (pid : Int) (name : Bytes)
  | destroy (port : Int)
  | send (now : Nat) (pid : Int) (port : Int) (type : UInt32) (data : Source) (len : Nat)
  | receive (port : Int) (out : Bool)

structure Reply where
  code : Int
  message : Option IpcMessage

def perform (s : PortTable) : Call → Reply × PortTable
  | .create pid name => (⟨(ipcPortCreate pid s name).1, none⟩, (ipcPortCreate pid s name).2)
  | .destroy port => (⟨0, none⟩, ipcPortDestroy s port)
  | .send now pid port type data len =>
    (⟨(ipcSend now pid s port type data len).1, none⟩, (ipcSend now pid s port type data len).2)
  | .receive port out => (⟨(ipcReceive s port out).1, (ipcReceive s port out).2.1⟩, (ipcReceive s port out).2.2)

/-- Bytes are passed with a length. -/
def Call.Fair : Call → Prop
  | .send _ _ _ _ data len => 0 < len → data.isSome = true
  | _ => True

/-- A message as a sender passes it and a receiver reads it. -/
structure Content where
  sender : Int
  type : UInt32
  length : Nat
  timestamp : Nat
  bytes : Bytes
deriving DecidableEq

def IpcMessage.content (m : IpcMessage) : Content where
  sender := m.senderPid
  type := m.type
  length := m.length
  timestamp := m.timestamp
  bytes := m.data.take m.length

structure Event where
  before : PortTable
  call : Call
  reply : Reply

/-- The call has made this port. -/
def Event.creates (e : Event) (k : Fin ipcMaxPorts) : Bool :=
  match e.call with
  | .create _ _ => e.reply.code == k.val
  | _ => false

/-- The message of a successful ipc_send to the port. -/
def Event.accepts (e : Event) (k : Fin ipcMaxPorts) : List Content :=
  match e.call with
  | .send now pid port type data len =>
    if e.reply.code = 0 ∧ portAt port = some k then [⟨pid, type, len, now, data.bytes len⟩] else []
  | _ => []

/-- The message of a successful ipc_receive from the port. -/
def Event.returns (e : Event) (k : Fin ipcMaxPorts) : List Content :=
  match e.call with
  | .receive port _ => if e.reply.code = 0 ∧ portAt port = some k then e.reply.message.toList.map (·.content) else []
  | _ => []

def Event.sends (e : Event) : Bool :=
  match e.call with
  | .send .. => e.reply.code == 0
  | _ => false

/-- The call is an ipc_send that would be accepted if the queue were not full. -/
def Event.overflows (e : Event) : Bool :=
  match e.call with
  | .send _ _ port _ _ len =>
    match portAt port with
    | none => false
    | some k => decide (len ≤ ipcMsgMax) && (e.before.ports k).inUse && (e.before.ports k).count == ipcQueueDepth
  | _ => false

/-- The table and the calls so far, the last one first. -/
structure Session where
  table : PortTable
  history : List Event

def Opening (s : Session) : Prop := s = ⟨ipcInit, []⟩

def performed (s : Session) (call : Call) : Session where
  table := (perform s.table call).2
  history := ⟨s.table, call, (perform s.table call).1⟩ :: s.history

def Step (s t : Session) : Prop := ∃ call : Call, call.Fair ∧ t = performed s call

section Accounts
variable (k : Fin ipcMaxPorts)

/-- How often the port has been created. -/
def incarnation (history : List Event) : Nat := history.countP (·.creates k)

/-- What the calls on the n-th incarnation of the port have left, in order. -/
def during (part : Event → List Content) (n : Nat) : List Event → List Content
  | [] => []
  | e :: earlier => during part n earlier ++ if incarnation k earlier = n then part e else []

def accepted (n : Nat) (history : List Event) : List Content := during k (·.accepts k) n history

def returned (n : Nat) (history : List Event) : List Content := during k (·.returns k) n history

end Accounts

section Rings

/-- The part of a port that its queue is made of. -/
structure Ring where
  slots : Nat → Content
  head : Nat
  tail : Nat
  count : Int

def IpcPort.ring (p : IpcPort) : Ring where
  slots := fun i => (p.queue i).content
  head := p.head
  tail := p.tail
  count := p.count

def Ring.push (r : Ring) (c : Content) : Ring where
  slots := Function.update r.slots r.head c
  head := (r.head + 1) % ipcQueueDepth
  tail := r.tail
  count := r.count + 1

def Ring.pop (r : Ring) : Ring :=
  { r with tail := (r.tail + 1) % ipcQueueDepth, count := r.count - 1 }

/-- The ring holds this list and its indices agree with it. -/
structure Queued (r : Ring) (queue : List Content) : Prop where
  holds : Holds ipcQueueDepth r.slots r.tail queue
  head : r.head = (r.tail + queue.length) % ipcQueueDepth
  count : r.count = queue.length

variable {r : Ring} {queue : List Content}

theorem zeroPort_queued : Queued zeroPort.ring [] where
  holds := holds_nil (by decide)
  head := rfl
  count := rfl

theorem Queued.push (queued : Queued r queue) (room : r.count < ipcQueueDepth) (c : Content) :
    Queued (r.push c) (queue ++ [c]) where
  holds := by
    have free : queue.length < ipcQueueDepth := by
      rw [queued.count] at room
      exact_mod_cast room
    rw [Ring.push, queued.head]
    exact queued.holds.push free c
  head := by
    rw [Ring.push, queued.head, List.length_append]
    simp only [Nat.mod_add_mod]
    rfl
  count := by
    rw [Ring.push, queued.count, List.length_append]
    rfl

theorem Queued.pop (queued : Queued r queue) (some_ : r.count ≠ 0) :
    ∃ rest, queue = r.slots r.tail :: rest ∧ Queued r.pop rest := by
  cases queue with
  | nil => exact absurd queued.count some_
  | cons c rest =>
    refine ⟨rest, by rw [queued.holds.front], queued.holds.pop, ?_, ?_⟩
    · rw [Ring.pop, queued.head, List.length_cons]
      simp only [Nat.mod_add_mod]
      rw [Nat.add_assoc, Nat.add_comm 1]
    · rw [Ring.pop, queued.count, List.length_cons]
      push_cast
      omega

end Rings

section Moves
variable {s : PortTable} {k : Fin ipcMaxPorts}

@[simp] theorem setPort_same (p : IpcPort) : (setPort s k p).ports k = p := Function.update_self ..

@[simp] theorem setPort_other {j : Fin ipcMaxPorts} (ne : j ≠ k) (p : IpcPort) : (setPort s k p).ports j = s.ports j :=
  Function.update_of_ne ne ..

/-- What a call does to the ring of one port, beside what the history says of it. -/
inductive PortMove (k : Fin ipcMaxPorts) (e : Event) (before after : Ring) : Prop where
  | keep (same : after = before) (old : e.creates k = false) (none_ : e.accepts k = []) (nothing : e.returns k = [])
  | create (fresh : after = zeroPort.ring) (new : e.creates k = true) (none_ : e.accepts k = []) (nothing : e.returns k = [])
  | push (c : Content) (room : before.count < ipcQueueDepth) (grown : after = before.push c) (old : e.creates k = false)
      (taken : e.accepts k = [c]) (nothing : e.returns k = [])
  | pop (some_ : before.count ≠ 0) (shrunk : after = before.pop) (old : e.creates k = false) (none_ : e.accepts k = [])
      (given : e.returns k = [before.slots before.tail])

/-- The event of a call. -/
def eventOf (s : PortTable) (call : Call) : Event := ⟨s, call, (perform s call).1⟩

theorem create_move (pid : Int) (name : Bytes) : PortMove k (eventOf s (.create pid name)) (s.ports k).ring
    ((perform s (.create pid name)).2.ports k).ring := by
  have code_ne (n : Int) (negative : n < 0) : (n == (k.val : Int)) = false := by
    rw [beq_eq_false_iff_ne]
    omega
  simp only [perform, ipcPortCreate]
  split
  case h_1 found =>
    apply PortMove.keep rfl _ rfl rfl
    simp only [eventOf, perform, ipcPortCreate, Event.creates, found]
    exact code_ne _ (by decide)
  case h_2 missing =>
    split
    case h_1 full =>
      apply PortMove.keep rfl _ rfl rfl
      simp only [eventOf, perform, ipcPortCreate, Event.creates, missing, full]
      exact code_ne _ (by decide)
    case h_2 j free =>
      have code : (eventOf s (.create pid name)).creates k = ((j.val : Int) == (k.val : Int)) := by
        simp only [eventOf, perform, ipcPortCreate, Event.creates, missing, free]
      by_cases here : k = j
      · subst here
        apply PortMove.create _ _ rfl rfl
        · rw [setPort_same]
          rfl
        · rw [code, beq_self_eq_true]
      · apply PortMove.keep _ _ rfl rfl
        · rw [setPort_other here]
        · rw [code, beq_eq_false_iff_ne]
          omega

theorem destroy_move (port : Int) : PortMove k (eventOf s (.destroy port)) (s.ports k).ring
    ((perform s (.destroy port)).2.ports k).ring := by
  apply PortMove.keep _ rfl rfl rfl
  simp only [perform, ipcPortDestroy]
  split
  · rfl
  case h_2 j _ =>
    by_cases here : k = j
    · subst here
      rw [setPort_same]
      rfl
    · rw [setPort_other here]

theorem fillMessage_content {now : Nat} {pid : Int} {type : UInt32} {data : Source} {len : Nat} (slot : IpcMessage)
    (fair : 0 < len → data.isSome = true) (short : len ≤ ipcMsgMax) :
    (fillMessage now pid type data len slot).content = ⟨pid, type, len, now, data.bytes len⟩ := by
  have whole : len % 2 ^ 32 = len := Nat.mod_eq_of_lt (Nat.lt_of_le_of_lt short (by decide))
  simp only [fillMessage, IpcMessage.content, whole, Content.mk.injEq, true_and]
  rcases Nat.eq_zero_or_pos len with rfl | positive
  · cases data with
    | none => simp [Source.bytes]
    | some memory => simp [Source.bytes]
  · cases data with
    | none => exact absurd (fair positive) (by decide)
    | some memory =>
      rw [if_pos ⟨rfl, by omega⟩]
      simp [Source.bytes]

/-- A port that takes messages of this length, or a full one. -/
structure Meets (s : PortTable) (port : Int) (len : Nat) (k : Fin ipcMaxPorts) : Prop where
  inside : portAt port = some k
  short : len ≤ ipcMsgMax
  used : (s.ports k).inUse = true

inductive SendCases (now : Nat) (pid : Int) (s : PortTable) (port : Int) (type : UInt32) (data : Source) (len : Nat) : Prop where
  | refused (code : Int) (failed : code ≠ 0) (missed : ∀ k, ¬ Meets s port len k)
      (run : ipcSend now pid s port type data len = (code, s))
  | full (k : Fin ipcMaxPorts) (met : Meets s port len k) (full : ipcQueueDepth ≤ (s.ports k).count)
      (run : ipcSend now pid s port type data len =
        (-qeAgain, { s with messagesDropped := (s.messagesDropped + 1) % 2 ^ 64 }))
  | taken (k : Fin ipcMaxPorts) (met : Meets s port len k) (room : (s.ports k).count < ipcQueueDepth)
      (run : ipcSend now pid s port type data len =
        (0, { setPort s k { s.ports k with
            queue := Function.update (s.ports k).queue (s.ports k).head
              (fillMessage now pid type data len ((s.ports k).queue (s.ports k).head))
            head := ((s.ports k).head + 1) % ipcQueueDepth
            count := (s.ports k).count + 1 } with
          messagesSent := (s.messagesSent + 1) % 2 ^ 64 }))

theorem ipcSend_cases (now : Nat) (pid : Int) (s : PortTable) (port : Int) (type : UInt32) (data : Source) (len : Nat) :
    SendCases now pid s port type data len := by
  cases inside : portAt port with
  | none =>
    apply SendCases.refused (-qeInval) (by decide)
    · intro k met
      cases inside.symm.trans met.inside
    · simp only [ipcSend, inside]
  | some k =>
    by_cases long : len > ipcMsgMax
    · apply SendCases.refused (-qeInval) (by decide)
      · intro j met
        exact absurd met.short (Nat.not_le.mpr long)
      · simp only [ipcSend, inside, if_pos long]
    · cases used : (s.ports k).inUse with
      | false =>
        apply SendCases.refused (-qeNoent) (by decide)
        · intro j met
          cases inside.symm.trans met.inside
          cases used.symm.trans met.used
        · simp only [ipcSend, inside, if_neg long, used]
          rfl
      | true =>
        have met : Meets s port len k := ⟨inside, Nat.not_lt.mp long, used⟩
        by_cases full : (s.ports k).count ≥ ipcQueueDepth
        · apply SendCases.full k met full
          simp only [ipcSend, inside, if_neg long, used, if_pos full]
          rfl
        · apply SendCases.taken k met (Int.not_le.mp full)
          simp only [ipcSend, inside, if_neg long, used, if_neg full]
          rfl

theorem send_move {now : Nat} {pid port : Int} {type : UInt32} {data : Source} {len : Nat}
    (fair : 0 < len → data.isSome = true) : PortMove k (eventOf s (.send now pid port type data len)) (s.ports k).ring
      ((perform s (.send now pid port type data len)).2.ports k).ring := by
  have accepts : (eventOf s (.send now pid port type data len)).accepts k =
      if (ipcSend now pid s port type data len).1 = 0 ∧ portAt port = some k then
        [⟨pid, type, len, now, data.bytes len⟩] else [] := rfl
  have after : (perform s (.send now pid port type data len)).2 = (ipcSend now pid s port type data len).2 := rfl
  rw [after]
  cases ipcSend_cases now pid s port type data len with
  | refused code failed missed run =>
    rw [run] at accepts ⊢
    exact .keep rfl rfl (accepts.trans (if_neg fun both => failed both.1)) rfl
  | full j met full run =>
    have failed : -qeAgain ≠ 0 := by decide
    rw [run] at accepts ⊢
    exact .keep rfl rfl (accepts.trans (if_neg fun both => failed both.1)) rfl
  | taken j met room run =>
    rw [run, met.inside] at accepts
    rw [run]
    by_cases here : k = j
    · subst here
      apply PortMove.push ⟨pid, type, len, now, data.bytes len⟩ room _ rfl (accepts.trans (if_pos ⟨rfl, rfl⟩)) rfl
      rw [← fillMessage_content ((s.ports k).queue (s.ports k).head) fair met.short]
      simp only [setPort_same, IpcPort.ring, Ring.push, Ring.mk.injEq, and_true]
      funext i
      exact Function.apply_update (fun _ => IpcMessage.content) (s.ports k).queue (s.ports k).head _ i
    · apply PortMove.keep _ rfl (accepts.trans (if_neg fun both => here (Option.some.inj both.2).symm)) rfl
      simp only [setPort_other here]

theorem receive_move (port : Int) (out : Bool) : PortMove k (eventOf s (.receive port out)) (s.ports k).ring
    ((perform s (.receive port out)).2.ports k).ring := by
  have returns : (eventOf s (.receive port out)).returns k =
      if (ipcReceive s port out).1 = 0 ∧ portAt port = some k then
        (ipcReceive s port out).2.1.toList.map (·.content) else [] := rfl
  have after : (perform s (.receive port out)).2 = (ipcReceive s port out).2.2 := rfl
  have refused {c : Int} (failed : c ≠ 0) (run : ipcReceive s port out = (c, none, s)) :
      PortMove k (eventOf s (.receive port out)) (s.ports k).ring ((perform s (.receive port out)).2.ports k).ring := by
    rw [run] at returns
    rw [after, run]
    exact .keep rfl rfl rfl (returns.trans (if_neg fun both => failed both.1))
  cases inside : portAt port with
  | none => exact refused (c := -qeInval) (by decide) (by simp only [ipcReceive, inside])
  | some j =>
    cases out with
    | false =>
      apply refused (c := -qeInval) (by decide)
      simp only [ipcReceive, inside]
      rfl
    | true =>
      cases used : (s.ports j).inUse with
      | false =>
        apply refused (c := -qeNoent) (by decide)
        simp only [ipcReceive, inside, used]
        rfl
      | true =>
        by_cases empty : (s.ports j).count = 0
        · apply refused (c := -qeAgain) (by decide)
          simp only [ipcReceive, inside, used, if_pos empty]
          rfl
        · have run : ipcReceive s port true = (0, some ((s.ports j).queue (s.ports j).tail), setPort s j { s.ports j with
              tail := ((s.ports j).tail + 1) % ipcQueueDepth, count := (s.ports j).count - 1 }) := by
            simp only [ipcReceive, inside, used, if_neg empty]
            rfl
          rw [run, inside] at returns
          rw [after, run]
          by_cases here : k = j
          · subst here
            apply PortMove.pop empty _ rfl rfl (returns.trans (if_pos ⟨rfl, rfl⟩))
            rw [setPort_same]
            rfl
          · apply PortMove.keep _ rfl rfl (returns.trans (if_neg fun both => here (Option.some.inj both.2).symm))
            rw [setPort_other here]

theorem perform_move {call : Call} (fair : call.Fair) (k : Fin ipcMaxPorts) :
    PortMove k (eventOf s call) (s.ports k).ring ((perform s call).2.ports k).ring := by
  cases call with
  | create pid name => exact create_move pid name
  | destroy port => exact destroy_move port
  | send now pid port type data len => exact send_move fair
  | receive port out => exact receive_move port out

theorem perform_counts {call : Call} (bounded : ∀ k, (s.ports k).count ≤ ipcQueueDepth)
    (sent : s.messagesSent < 2 ^ 64) (dropped : s.messagesDropped < 2 ^ 64) :
    (perform s call).2.messagesSent = (s.messagesSent + (eventOf s call).sends.toNat) % 2 ^ 64 ∧
      (perform s call).2.messagesDropped = (s.messagesDropped + (eventOf s call).overflows.toNat) % 2 ^ 64 := by
  have unsent := (Nat.mod_eq_of_lt sent).symm
  have undropped := (Nat.mod_eq_of_lt dropped).symm
  cases call with
  | create pid name =>
    simp only [perform, ipcPortCreate]
    split
    · exact ⟨unsent, undropped⟩
    · split
      · exact ⟨unsent, undropped⟩
      · exact ⟨unsent, undropped⟩
  | destroy port =>
    simp only [perform, ipcPortDestroy]
    split
    · exact ⟨unsent, undropped⟩
    · exact ⟨unsent, undropped⟩
  | receive port out =>
    simp only [perform, ipcReceive]
    split
    · exact ⟨unsent, undropped⟩
    · split
      · exact ⟨unsent, undropped⟩
      · split
        · exact ⟨unsent, undropped⟩
        · split
          · exact ⟨unsent, undropped⟩
          · exact ⟨unsent, undropped⟩
  | send now pid port type data len =>
    have sends : (eventOf s (.send now pid port type data len)).sends = ((ipcSend now pid s port type data len).1 == 0) := rfl
    have overflows : (eventOf s (.send now pid port type data len)).overflows = true ↔
        ∃ k, Meets s port len k ∧ (s.ports k).count = ipcQueueDepth := by
      simp only [eventOf, Event.overflows]
      split
      case h_1 outside =>
        refine iff_of_false (by decide) ?_
        rintro ⟨k, met, -⟩
        cases outside.symm.trans met.inside
      case h_2 k inside =>
        simp only [Bool.and_eq_true, decide_eq_true_eq, beq_iff_eq]
        constructor
        · rintro ⟨⟨short, used⟩, full⟩
          exact ⟨k, ⟨inside, short, used⟩, full⟩
        · rintro ⟨j, met, full⟩
          cases inside.symm.trans met.inside
          exact ⟨⟨met.short, met.used⟩, full⟩
    have after : (perform s (.send now pid port type data len)).2 = (ipcSend now pid s port type data len).2 := rfl
    rw [after]
    cases ipcSend_cases now pid s port type data len with
    | refused code failed missed run =>
      have calm : (eventOf s (.send now pid port type data len)).overflows = false := by
        rw [← Bool.not_eq_true, overflows]
        rintro ⟨k, met, -⟩
        exact missed k met
      rw [sends, calm, run, beq_eq_false_iff_ne.mpr failed]
      exact ⟨unsent, undropped⟩
    | full k met full run =>
      have lost := overflows.mpr ⟨k, met, Int.le_antisymm (bounded k) full⟩
      rw [sends, lost, run]
      exact ⟨unsent, rfl⟩
    | taken k met room run =>
      have calm : (eventOf s (.send now pid port type data len)).overflows = false := by
        rw [← Bool.not_eq_true, overflows]
        rintro ⟨j, other, full⟩
        cases met.inside.symm.trans other.inside
        exact absurd full (Int.ne_of_lt room)
      rw [sends, calm, run]
      exact ⟨rfl, undropped⟩

end Moves

section Histories
variable {k : Fin ipcMaxPorts} {part : Event → List Content} {e : Event} {earlier : List Event} {n : Nat}

theorem during_later (late : incarnation k earlier < n) : during k part n earlier = [] := by
  induction earlier with
  | nil => rfl
  | cons e earlier ih =>
    have less : incarnation k earlier ≤ incarnation k (e :: earlier) := by
      rw [incarnation, incarnation, List.countP_cons]
      exact Nat.le_add_right ..
    rw [during, ih (Nat.lt_of_le_of_lt less late), if_neg (by omega), List.append_nil]

theorem incarnation_old (old : e.creates k = false) : incarnation k (e :: earlier) = incarnation k earlier := by
  rw [incarnation, List.countP_cons, old]
  rfl

theorem incarnation_new (new : e.creates k = true) : incarnation k (e :: earlier) = incarnation k earlier + 1 := by
  rw [incarnation, List.countP_cons, new]
  rfl

theorem during_now : during k part (incarnation k earlier) (e :: earlier) =
    during k part (incarnation k earlier) earlier ++ part e := by
  rw [during, if_pos rfl]

theorem during_silent (silent : part e = []) : during k part n (e :: earlier) = during k part n earlier := by
  rw [during, silent]
  split
  · exact List.append_nil _
  · exact List.append_nil _

theorem during_other (ne : n ≠ incarnation k earlier) : during k part n (e :: earlier) = during k part n earlier := by
  rw [during, if_neg ne.symm, List.append_nil]

end Histories

section Sessions
variable {k : Fin ipcMaxPorts} {s t : Session}

/-- The ring of a port holds what its incarnation has accepted and not returned. -/
structure InStep (k : Fin ipcMaxPorts) (r : Ring) (history : List Event) : Prop where
  waiting : ∃ queue, Queued r queue ∧
    accepted k (incarnation k history) history = returned k (incarnation k history) history ++ queue
  order : ∀ n, returned k n history <+: accepted k n history

theorem PortMove.inStep {e : Event} {before after : Ring} {history : List Event} (move : PortMove k e before after)
    (agree : InStep k before history) : InStep k after (e :: history) := by
  obtain ⟨⟨queue, queued, whole⟩, order⟩ := agree
  -- Past incarnations are left alone, whatever the call does to this one.
  have past (n : Nat) (ne : n ≠ incarnation k history) : returned k n (e :: history) <+: accepted k n (e :: history) := by
    rw [returned, accepted, during_other ne, during_other ne]
    exact order n
  have settle (queue : List Content) (queued : Queued after queue) (old : e.creates k = false)
      (balance : accepted k (incarnation k history) (e :: history) =
        returned k (incarnation k history) (e :: history) ++ queue) : InStep k after (e :: history) := by
    constructor
    · rw [incarnation_old old]
      exact ⟨queue, queued, balance⟩
    · intro n
      by_cases now : n = incarnation k history
      · rw [now, balance]
        exact List.prefix_append ..
      · exact past n now
  cases move with
  | keep same old none_ nothing =>
    apply settle queue (same ▸ queued) old
    rw [accepted, returned, during_silent none_, during_silent nothing]
    exact whole
  | create fresh new none_ nothing =>
    constructor
    · refine ⟨[], fresh ▸ zeroPort_queued, ?_⟩
      rw [accepted, returned, during_silent none_, during_silent nothing, incarnation_new new,
        during_later (Nat.lt_succ_self _), during_later (Nat.lt_succ_self _), List.append_nil]
    · intro n
      rw [accepted, returned, during_silent nothing, during_silent none_]
      exact order n
  | push c room grown old taken nothing =>
    apply settle (queue ++ [c]) (grown ▸ queued.push room c) old
    rw [accepted, returned, during_now, during_silent nothing, taken, ← List.append_assoc]
    exact congrArg (· ++ [c]) whole
  | pop some_ shrunk old none_ given =>
    obtain ⟨rest, front, rested⟩ := queued.pop some_
    apply settle rest (shrunk ▸ rested) old
    have kept : accepted k (incarnation k history) (e :: history) = accepted k (incarnation k history) history :=
      during_silent none_
    rw [kept, returned, during_now, given, List.append_assoc, List.singleton_append, ← front]
    exact whole

/-- Every port is in step with the history and the counters count its calls. -/
structure Sound (s : Session) : Prop where
  ports : ∀ k, InStep k (s.table.ports k).ring s.history
  sent : s.table.messagesSent = s.history.countP (·.sends) % 2 ^ 64
  dropped : s.table.messagesDropped = s.history.countP (·.overflows) % 2 ^ 64

theorem InStep.bounds {r : Ring} {history : List Event} (agree : InStep k r history) :
    0 ≤ r.count ∧ r.count ≤ ipcQueueDepth ∧ (r.head : Int) = (r.tail + r.count) % ipcQueueDepth := by
  obtain ⟨queue, queued, -⟩ := agree.waiting
  rw [queued.count, queued.head]
  exact ⟨Int.natCast_nonneg _, Int.ofNat_le.mpr queued.holds.fits, by push_cast; rfl⟩

theorem Sound.step (sound : Sound s) (step : Step s t) : Sound t := by
  obtain ⟨call, fair, rfl⟩ := step
  have event : (performed s call).history = eventOf s.table call :: s.history := rfl
  have small (n : Nat) : n % 2 ^ 64 < 2 ^ 64 := Nat.mod_lt n (by decide)
  obtain ⟨sends, drops⟩ := perform_counts (s := s.table) (fun k => (sound.ports k).bounds.2.1)
    (sound.sent ▸ small _) (sound.dropped ▸ small _)
  constructor
  · intro k
    rw [event]
    exact (perform_move fair k).inStep (sound.ports k)
  · rw [event, List.countP_cons]
    refine sends.trans ?_
    rw [sound.sent, Nat.mod_add_mod]
    cases (eventOf s.table call).sends
    · rfl
    · rfl
  · rw [event, List.countP_cons]
    refine drops.trans ?_
    rw [sound.dropped, Nat.mod_add_mod]
    cases (eventOf s.table call).overflows
    · rfl
    · rfl

theorem opening_sound (opening : Opening s) : Sound s := by
  rw [opening]
  exact ⟨fun k => ⟨⟨[], zeroPort_queued, rfl⟩, fun n => List.prefix_refl _⟩, rfl, rfl⟩

theorem reached_sound (run : Reachable Opening Step s) : Sound s :=
  run.induct Sound (fun _ opening => opening_sound opening) fun _ _ sound step => sound.step step

/-- In every run a port returns what its incarnation has accepted, in order and
once; its indices agree with what is left, and the counters with the calls. -/
theorem ports_are_queues (run : Reachable Opening Step s) :
    (∀ k n, returned k n s.history <+: accepted k n s.history) ∧
    (∀ k, 0 ≤ (s.table.ports k).count ∧ (s.table.ports k).count ≤ ipcQueueDepth ∧
      ((s.table.ports k).head : Int) = ((s.table.ports k).tail + (s.table.ports k).count) % ipcQueueDepth ∧
      (accepted k (incarnation k s.history) s.history).length =
        (returned k (incarnation k s.history) s.history).length + (s.table.ports k).count) ∧
    s.table.messagesSent = s.history.countP (·.sends) % 2 ^ 64 ∧
    s.table.messagesDropped = s.history.countP (·.overflows) % 2 ^ 64 := by
  have sound := reached_sound run
  refine ⟨fun k => (sound.ports k).order, fun k => ?_, sound.sent, sound.dropped⟩
  obtain ⟨low, high, head⟩ := (sound.ports k).bounds
  obtain ⟨queue, queued, whole⟩ := (sound.ports k).waiting
  refine ⟨low, high, head, ?_⟩
  rw [whole, List.length_append, Int.natCast_add]
  exact congrArg _ queued.count.symm

/-- A port is made, a message sent and received. -/
def pingPong : Session :=
  performed (performed (performed ⟨ipcInit, []⟩ (.create 1 [112])) (.send 5 1 0 7 (some fun _ => 9) 2)) (.receive 0 true)

theorem pingPong_reached : Reachable Opening Step pingPong := by
  refine Reachable.next ?_ ⟨.receive 0 true, trivial, rfl⟩
  refine Reachable.next ?_ ⟨.send 5 1 0 7 (some fun _ => 9) 2, fun _ => rfl, rfl⟩
  refine Reachable.next ?_ ⟨.create 1 [112], trivial, rfl⟩
  exact Reachable.start rfl

theorem ports_are_queues_ping : returned 0 1 pingPong.history = [⟨1, 7, 2, 5, [9, 9]⟩] ∧
    returned 0 1 pingPong.history <+: accepted 0 1 pingPong.history ∧ pingPong.table.messagesSent = 1 :=
  ⟨by decide +kernel, (ports_are_queues pingPong_reached).1 0 1, by decide +kernel⟩

end Sessions
end Qito.Ipc
