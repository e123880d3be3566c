import Qito.Lib.Pieces
import Qito.Net.Acks

/-! The stream that tcp_send makes. Its bytes are numbered by send_next, which
tcp_transmit moves on whether or not net_send_ipv4 takes the segment; what tcp_send
counts as sent is only what was taken. -/
namespace Qito.Net
open Runs Pieces

/-- The session with the data segments of every connection, each with what
net_send_ipv4 said to it, and the bytes that tcp_send has counted as sent. -/
structure Transfer where
  session : Session
  segments : Fin tcpMaxSockets → List (Sent × Bool)
  reported : Fin tcpMaxSockets → Bytes

/-- What the call that sends on a socket has still to send. -/
def unsent : Phase → Bytes
  | .sending rest => rest
  | _ => []

/-- The segments handed over in a step. -/
def handedOver (s t : Session) : List Sent := t.stack.tcp.outbox.drop s.stack.tcp.outbox.length

def TransferMove (s : Transfer) (op : SocketOp) (t : Transfer) : Prop :=
  SocketMove s.session op t.session ∧
    match op with
    | .connect iface memory now address port =>
      match (tcpConnect iface memory now address port s.session.stack).1 with
      | none => t.segments = s.segments ∧ t.reported = s.reported
      | some i => t.segments = Function.update s.segments i [] ∧ t.reported = Function.update s.reported i []
    | .chunk i sent =>
      t.segments = Function.update s.segments i
        (s.segments i ++ (handedOver s.session t.session).map fun m => (m, sent)) ∧
      t.reported = Function.update s.reported i
        (s.reported i ++ if sent then (unsent (s.session.phase i)).take tcpMss else [])
    | _ => t.segments = s.segments ∧ t.reported = s.reported

def TransferStep (s t : Transfer) : Prop := ∃ op, TransferMove s op t

/-- Nothing has been connected yet. -/
def Unconnected (s : Transfer) : Prop := Fresh s.session ∧ (∀ i, s.segments i = []) ∧ ∀ i, s.reported i = []

/-- The segments that net_send_ipv4 took. -/
@[grind =]
def carried (segments : List (Sent × Bool)) : List Sent := (segments.filter Prod.snd).map Prod.fst

/-- How many bytes were in those it did not take. -/
def lost (segments : List (Sent × Bool)) : Nat := (segments.map fun p => if p.2 then 0 else p.1.payload.length).sum

/-- The segments that went out carry the reported bytes one after another, and the
n-th of them is in one segment only, at the n-th number behind the SYN. -/
structure InStep (syn : Nat) (out : List Sent) (reported : Bytes) : Prop where
  whole : out.flatMap Sent.payload = reported
  once : ∀ n b, reported[n]? = some b → ∃! k, ∃ m, out[k]? = some m ∧ ∃ j, m.payload[j]? = some b ∧
    start Sent.payload out k + j = n ∧ wrap32 (m.sequence + j) = wrap32 (syn + 1 + n)

/-- Before a segment that is taken no bytes were lost, or they went round. -/
def Unbroken (segments : List (Sent × Bool)) : Prop :=
  ∀ before m after, segments = before ++ (m, true) :: after → lost before % 2 ^ 32 = 0

section Numbers
variable {segments before after : List (Sent × Bool)} {syn k : Nat} {m : Sent}

/-- The bytes of all the segments. -/
def total (segments : List (Sent × Bool)) : Nat := (segments.map fun p => p.1.payload.length).sum

theorem total_eq (segments : List (Sent × Bool)) :
    total segments = ((carried segments).flatMap Sent.payload).length + lost segments := by
  induction segments with
  | nil => rfl
  | cons p segments ih =>
    obtain ⟨m, sent⟩ := p
    rw [total, carried, lost] at *
    cases sent with
    | true =>
      simp only [List.map_cons, List.sum_cons, List.filter_cons_of_pos, List.flatMap_cons, List.length_append, if_true]
      omega
    | false =>
      simp only [List.map_cons, List.sum_cons, List.filter_cons, Bool.false_eq_true, if_false]
      omega

theorem carried_append (before after : List (Sent × Bool)) : carried (before ++ after) = carried before ++ carried after := by
  rw [carried, List.filter_append, List.map_append]
  rfl

theorem carried_split (entry : (carried segments)[k]? = some m) :
    ∃ before after, segments = before ++ (m, true) :: after ∧ carried before = (carried segments).take k := by
  induction segments generalizing k with
  | nil => simp [carried] at entry
  | cons p segments ih =>
    obtain ⟨m', sent⟩ := p
    cases sent with
    | false =>
      obtain ⟨before, after, whole, kept⟩ := ih entry
      exact ⟨(m', false) :: before, after, congrArg _ whole, kept⟩
    | true =>
      cases k with
      | zero =>
        cases Option.some.inj entry
        exact ⟨[], segments, rfl, rfl⟩
      | succ k =>
        obtain ⟨before, after, whole, kept⟩ := ih (k := k) entry
        exact ⟨(m', true) :: before, after, congrArg _ whole, congrArg (m' :: ·) kept⟩

/-- Every segment has the number behind the SYN and all data before it. -/
def Placed (syn : Nat) (segments : List (Sent × Bool)) : Prop :=
  ∀ before p after, segments = before ++ p :: after → p.1.sequence = wrap32 (syn + 1 + total before)

theorem Placed.append {p : Sent × Bool} (placed : Placed syn segments) (here : p.1.sequence = wrap32 (syn + 1 + total segments)) :
    Placed syn (segments ++ [p]) := by
  intro before q after whole
  rcases List.eq_nil_or_concat after with rfl | ⟨after, last, rfl⟩
  · obtain ⟨rfl, same⟩ := List.append_inj' whole rfl
    cases same
    exact here
  · rw [List.concat_eq_append, ← List.cons_append, ← List.append_assoc] at whole
    obtain ⟨same, -⟩ := List.append_inj' whole rfl
    exact placed before q after same

/-- The numbers of the segments that went out are those of their bytes exactly where
nothing was lost before them. -/
theorem inStep_iff (placed : Placed syn segments) (full : ∀ p ∈ segments, p.1.payload ≠ []) :
    InStep syn (carried segments) ((carried segments).flatMap Sent.payload) ↔ Unbroken segments := by
  constructor
  · intro stepped before m after whole
    have parts : carried segments = carried before ++ m :: carried after := by
      rw [whole, carried_append]
      rfl
    have entry : (carried segments)[(carried before).length]? = some m := by
      rw [parts, List.getElem?_append_right (Nat.le_refl _), Nat.sub_self]
      rfl
    have starts : start Sent.payload (carried segments) (carried before).length =
        ((carried before).flatMap Sent.payload).length := by
      rw [start, parts, List.take_left]
    have sequence : m.sequence = wrap32 (syn + 1 + total before) := placed before (m, true) after whole
    rw [total_eq] at sequence
    obtain ⟨b, rest, bytes⟩ : ∃ b rest, m.payload = b :: rest := by
      apply List.exists_cons_of_ne_nil
      exact full (m, true) (by rw [whole]; simp)
    have first : ((carried segments).flatMap Sent.payload)[((carried before).flatMap Sent.payload).length]? = some b := by
      rw [parts, List.flatMap_append, List.getElem?_append_right (Nat.le_refl _), Nat.sub_self, List.flatMap_cons, bytes]
      rfl
    obtain ⟨k, ⟨m', entry', j, inside, place, number⟩, -⟩ := stepped.once _ b first
    have short : j < m'.payload.length := (List.getElem?_eq_some_iff.mp inside).1
    have same : k = (carried before).length := by
      apply piece_unique (f := Sent.payload) (j := j) entry' entry short
      · rw [bytes]
        exact Nat.zero_lt_succ _
      · rw [starts, place, Nat.add_zero]
    subst same
    cases entry.symm.trans entry'
    rw [starts] at place
    rw [wrap32, wrap32] at number
    rw [wrap32] at sequence
    omega
  · intro unbroken
    refine ⟨rfl, ?_⟩
    intro n b here
    obtain ⟨k, m, j, entry, inside, place⟩ := piece_of here
    refine ⟨k, ⟨m, entry, j, inside, place, ?_⟩, ?_⟩
    · obtain ⟨before, after, whole, kept⟩ := carried_split entry
      have sequence : m.sequence = wrap32 (syn + 1 + total before) := placed before (m, true) after whole
      have none_ := unbroken before m after whole
      rw [total_eq, kept, ← start] at sequence
      rw [wrap32] at sequence
      rw [wrap32, wrap32]
      omega
    · rintro k' ⟨m', entry', j', inside', place', -⟩
      apply piece_unique (f := Sent.payload) entry' entry (List.getElem?_eq_some_iff.mp inside').1
        (List.getElem?_eq_some_iff.mp inside).1
      rw [place, place']

end Numbers

section Steps
variable {s t : Session} {i j : Fin tcpMaxSockets}

/-- What a step may do to a socket that it does not send data on. -/
structure Steady (s t : Session) (i : Fin tcpMaxSockets) : Prop where
  busy : t.phase i ≠ .free → s.phase i ≠ .free ∧ (t.socket i).inUse = (s.socket i).inUse
  speaking : t.phase i ≠ .free → t.phase i ≠ .closing → s.phase i ≠ .closing ∧ (t.socket i).sendNext = (s.socket i).sendNext

theorem Steady.of_view (phase : t.phase i = s.phase i) (used : (t.socket i).inUse = (s.socket i).inUse)
    (next : (t.socket i).sendNext = (s.socket i).sendNext) : Steady s t i := by
  constructor
  · intro busy
    exact ⟨phase ▸ busy, used⟩
  · intro _ speaks
    exact ⟨phase ▸ speaks, next⟩

theorem Steady.of_free (free : t.phase i = .free) : Steady s t i := ⟨fun busy => absurd free busy, fun busy => absurd free busy⟩

theorem take_next (w : Wire) (data : Bytes) : (w.take data).next = w.next ∧ (w.take data).inUse = w.inUse := by
  unfold Wire.take
  split
  · exact ⟨rfl, rfl⟩
  · split
    · split
      · exact ⟨rfl, rfl⟩
      · exact ⟨rfl, rfl⟩
    · exact ⟨rfl, rfl⟩
    · exact ⟨rfl, rfl⟩
    · exact ⟨rfl, rfl⟩
    · exact ⟨rfl, rfl⟩

theorem Steady.elsewhere {phase : Phase} (ne : i ≠ j) (phases : t.phase = Function.update s.phase j phase)
    (same : t.socket i = s.socket i) : Steady s t i := by
  apply Steady.of_view
  · rw [phases]
    exact Function.update_of_ne ne ..
  · rw [same]
  · rw [same]

theorem arrive_steady {now iface source : Nat} {data : Bytes} (move : SocketMove s (.arrive now iface source data) t) :
    Steady s t i := by
  subst move
  have wire : ((tcpInput now iface source s.stack.tcp data).sockets i).wire.next = (s.socket i).sendNext ∧
      ((tcpInput now iface source s.stack.tcp data).sockets i).wire.inUse = (s.socket i).inUse := by
    by_cases meant : Meant s.stack.tcp source data i
    · rw [tcpInput_wire now iface source meant]
      exact take_next _ data
    · rw [tcpInput_other now iface source meant]
      exact ⟨rfl, rfl⟩
  exact Steady.of_view rfl wire.2 wire.1

theorem move_steady {op : SocketOp} (connects : ∀ iface memory now address port, op ≠ .connect iface memory now address port)
    (sends : ∀ j sent, op ≠ .chunk j sent) (move : SocketMove s op t) : t.syn = s.syn ∧ Steady s t i := by
  cases op with
  | arrive now iface source data =>
    refine ⟨?_, arrive_steady move⟩
    subst move
    rfl
  | connect iface memory now address port => exact absurd rfl (connects iface memory now address port)
  | chunk j sent => exact absurd rfl (sends j sent)
  | connected j expired =>
    obtain ⟨phase, -, rfl⟩ := move
    refine ⟨rfl, ?_⟩
    unfold tcpConnectEnd
    split
    · by_cases here : i = j
      · subst here
        exact Steady.of_free (Function.update_self ..)
      · exact Steady.elsewhere here rfl (release_other here)
    · by_cases here : i = j
      · subst here
        constructor
        · intro _
          rw [phase]
          exact ⟨nofun, rfl⟩
        · intro _ _
          rw [phase]
          exact ⟨nofun, rfl⟩
      · exact Steady.elsewhere here rfl rfl
  | send j data =>
    obtain ⟨phase, rfl⟩ := move
    split
    · refine ⟨rfl, ?_⟩
      by_cases here : i = j
      · subst here
        constructor
        · intro _
          rw [phase]
          exact ⟨nofun, rfl⟩
        · intro _ _
          rw [phase]
          exact ⟨nofun, rfl⟩
      · exact Steady.elsewhere here rfl rfl
    · exact ⟨rfl, Steady.of_view rfl rfl rfl⟩
  | receive j len expired =>
    obtain ⟨-, bytes, tcp, run, rfl⟩ := move
    have wire : (tcp.sockets i).wire = (s.socket i).wire := tcpReceive_wire run
    exact ⟨rfl, Steady.of_view rfl (congrArg Wire.inUse wire) (congrArg Wire.next wire)⟩
  | close j =>
    obtain ⟨phase, rfl⟩ := move
    refine ⟨rfl, ?_⟩
    unfold tcpClose
    split
    · by_cases here : i = j
      · subst here
        have closing : (setPhase s i .closing s.stack).phase i = .closing := Function.update_self ..
        constructor
        · intro _
          rw [phase]
          refine ⟨nofun, ?_⟩
          change ((setSocket (tcpTransmitData s.stack.tcp i (tcpFin ||| tcpAck) []) i _).sockets i).inUse = _
          rw [setSocket_same]
          exact congrArg Wire.inUse (transmitData_wire s.stack.tcp (j := i) (tcpFin ||| tcpAck) [])
        · exact fun _ speaks => absurd closing speaks
      · apply Steady.elsewhere here rfl
        exact (setSocket_other here _).trans (transmitData_other here ..)
    · by_cases here : i = j
      · subst here
        exact Steady.of_free (Function.update_self ..)
      · apply Steady.elsewhere here rfl
        exact (release_other here).trans (transmitData_other here ..)
    · by_cases here : i = j
      · subst here
        exact Steady.of_free (Function.update_self ..)
      · exact Steady.elsewhere here rfl (release_other here)
  | closed j expired =>
    obtain ⟨phase, -, rfl⟩ := move
    refine ⟨rfl, ?_⟩
    by_cases here : i = j
    · subst here
      exact Steady.of_free (Function.update_self ..)
    · exact Steady.elsewhere here rfl (release_other here)

/-- What holds of a socket's stream between the steps. -/
structure Paced (s : Transfer) (i : Fin tcpMaxSockets) : Prop where
  used : s.session.phase i ≠ .free → (s.session.socket i).inUse = true
  next : s.session.phase i ≠ .free → s.session.phase i ≠ .closing →
    (s.session.socket i).sendNext = wrap32 (s.session.syn i + 1 + total (s.segments i))
  placed : Placed (s.session.syn i) (s.segments i)
  full : ∀ p ∈ s.segments i, p.1.payload ≠ []
  told : s.reported i = (carried (s.segments i)).flatMap Sent.payload

theorem Paced.steady {s t : Transfer} (paced : Paced s i) (steady : Steady s.session t.session i)
    (syn : t.session.syn i = s.session.syn i) (segments : t.segments i = s.segments i)
    (reported : t.reported i = s.reported i) : Paced t i := by
  constructor
  · intro busy
    obtain ⟨before, same⟩ := steady.busy busy
    rw [same]
    exact paced.used before
  · intro busy speaks
    obtain ⟨before, same⟩ := steady.speaking busy speaks
    rw [same, syn, segments]
    exact paced.next (steady.busy busy).1 before
  · rw [syn, segments]
    exact paced.placed
  · rw [segments]
    exact paced.full
  · rw [reported, segments]
    exact paced.told

theorem chunk_paced {s t : Transfer} {sent : Bool} (paced : Paced s i) (move : TransferMove s (.chunk i sent) t) : Paced t i := by
  obtain ⟨⟨rest, phase, after⟩, segments, reported⟩ := move
  have here : t.segments i = s.segments i ++ (handedOver s.session t.session).map fun m => (m, sent) := by
    rw [segments, Function.update_self]
  have told : t.reported i = s.reported i ++ if sent then rest.take tcpMss else [] := by
    rw [reported, Function.update_self, phase, unsent]
  have busy : s.session.phase i ≠ .free := by
    simp [phase]
  have speaks : s.session.phase i ≠ .closing := by
    simp [phase]
  by_cases done : rest = []
  · rw [if_pos done] at after
    have none_ : handedOver s.session t.session = [] := by
      rw [after, handedOver]
      exact List.drop_length
    rw [none_, List.map_nil, List.append_nil] at here
    rw [done, List.take_nil, ite_self, List.append_nil] at told
    refine paced.steady ?_ (by rw [after]; rfl) here told
    rw [after]
    exact ⟨fun _ => ⟨busy, rfl⟩, fun _ _ => ⟨speaks, rfl⟩⟩
  · rw [if_neg done] at after
    let m : Sent := (tcpTransmitData s.session.stack.tcp i (tcpAck ||| tcpPsh) (rest.take tcpMss)).outbox.getLast (by
      simp [tcpTransmitData])
    have payload : m.payload = rest.take tcpMss := by
      simp only [m, tcpTransmitData, List.getLast_append_singleton, List.take_take, Nat.min_self]
    have sequence : m.sequence = wrap32 (s.session.syn i + 1 + total (s.segments i)) := by
      rw [← paced.next busy speaks]
      simp only [m, tcpTransmitData, List.getLast_append_singleton]
      rfl
    have one : handedOver s.session t.session = [m] := by
      rw [after]
      simp only [handedOver, setPhase, tcpSendChunk, m, tcpTransmitData, List.getLast_append_singleton, List.drop_left]
    rw [one, List.map_singleton] at here
    have quiet : has (tcpAck ||| tcpPsh) (tcpSyn ||| tcpFin) = false := by decide
    have wire : (t.session.socket i).wire =
        { (s.session.socket i).wire with next := wrap32 ((s.session.socket i).sendNext + (rest.take tcpMss).length) } := by
      have wire := transmitData_wire s.session.stack.tcp (j := i) (tcpAck ||| tcpPsh) (rest.take tcpMss)
      rw [quiet, List.take_take, Nat.min_self] at wire
      rw [after]
      exact wire
    have syn : t.session.syn i = s.session.syn i := by
      rw [after]
      rfl
    have more : total (t.segments i) = total (s.segments i) + (rest.take tcpMss).length := by
      rw [here, total, List.map_append, List.sum_append, ← payload]
      rfl
    constructor
    · intro _
      exact (congrArg Wire.inUse wire).trans (paced.used busy)
    · intro _ _
      have next : (t.session.socket i).sendNext = _ := congrArg Wire.next wire
      rw [next, syn, more, paced.next busy speaks, wrap32_add, Nat.add_assoc]
    · rw [syn, here]
      exact paced.placed.append sequence
    · rw [here]
      intro p member
      rcases List.mem_append.mp member with old | new
      · exact paced.full p old
      · cases List.mem_singleton.mp new
        rw [payload]
        obtain ⟨b, rest', rfl⟩ := List.exists_cons_of_ne_nil done
        simp
    · rw [told, here, paced.told, carried_append, List.flatMap_append]
      cases sent with
      | true => simp [carried, payload]
      | false => rfl

theorem syn_wire {tcp : TcpTable} {socket : TcpSocket} {n : Nat} (used : socket.inUse = true) (next : socket.sendNext = n) :
    ((tcpTransmitData (setSocket tcp i socket) i tcpSyn []).sockets i).inUse = true ∧
      ((tcpTransmitData (setSocket tcp i socket) i tcpSyn []).sockets i).sendNext = wrap32 (wrap32 (n + 1) + 0) := by
  have begins : has tcpSyn (tcpSyn ||| tcpFin) = true := by decide
  have sent := transmitData_wire (setSocket tcp i socket) (j := i) tcpSyn []
  rw [begins, setSocket_same, if_pos rfl, next] at sent
  exact ⟨(congrArg Wire.inUse sent).trans used, congrArg Wire.next sent⟩

theorem connect_paced {s t : Transfer} {iface : Option (Nat × Nat)} {memory : Bool} {now address port : Nat}
    (paced : Paced s i) (move : TransferMove s (.connect iface memory now address port) t) : Paced t i := by
  obtain ⟨move, told⟩ := move
  cases iface with
  | none =>
    obtain ⟨segments, reported⟩ := told
    have same : t.session = s.session := move
    refine paced.steady ?_ (by rw [same]) (congrFun segments i) (congrFun reported i)
    rw [same]
    exact Steady.of_view rfl rfl rfl
  | some place =>
    rcases socketAllocate_cases memory s.session.stack with none_ | ⟨j, unused, zeroed | taken⟩
    · simp only [tcpConnect, none_] at told
      simp only [SocketMove, tcpConnect, none_] at move
      obtain ⟨segments, reported⟩ := told
      refine paced.steady ?_ (by rw [move]) (congrFun segments i) (congrFun reported i)
      rw [move]
      exact Steady.of_view rfl rfl rfl
    · simp only [tcpConnect, zeroed] at told
      simp only [SocketMove, tcpConnect, zeroed] at move
      obtain ⟨segments, reported⟩ := told
      refine paced.steady ?_ (by rw [move]) (congrFun segments i) (congrFun reported i)
      rw [move]
      by_cases here : i = j
      · subst here
        apply Steady.of_free
        by_contra busy
        cases unused.symm.trans (paced.used busy)
      · have same := setSocket_other (t := s.session.stack.tcp) here zeroSocket
        exact Steady.of_view rfl (congrArg TcpSocket.inUse same) (congrArg TcpSocket.sendNext same)
    · simp only [tcpConnect, taken] at told
      simp only [SocketMove, tcpConnect, taken] at move
      obtain ⟨segments, reported⟩ := told
      by_cases here : i = j
      · subst here
        have empty : t.segments i = [] := by rw [segments, Function.update_self]
        have silent : t.reported i = [] := by rw [reported, Function.update_self]
        have syn : t.session.syn i = initialSequence now := by
          rw [move]
          exact Function.update_self ..
        have wire : (t.session.socket i).inUse = true ∧
            (t.session.socket i).sendNext = wrap32 (wrap32 (initialSequence now + 1) + 0) := by
          rw [move, Session.socket]
          apply syn_wire
          · rw [setSocket_same]
          · rfl
        constructor
        · exact fun _ => wire.1
        · intro _ _
          rw [wire.2, syn, empty, wrap32_add]
          rfl
        · rw [empty]
          intro before p after whole
          cases List.append_eq_nil_iff.mp whole.symm with | intro _ none_ => cases none_
        · rw [empty]
          exact fun _ member => by cases member
        · rw [empty, silent]
          rfl
      · have elsewhere : t.session.socket i = s.session.socket i := by
          rw [move, Session.socket]
          simp only [setPhase]
          rw [transmitData_other here, setSocket_other here, setSocket_other here]
          rfl
        have syn : t.session.syn i = s.session.syn i := by
          rw [move]
          exact Function.update_of_ne here ..
        apply paced.steady _ syn
        · rw [segments, Function.update_of_ne here]
        · rw [reported, Function.update_of_ne here]
        · apply Steady.elsewhere here _ elsewhere
          · exact .connecting
          · rw [move]
            rfl

theorem step_paced {s t : Transfer} (paced : Paced s i) (step : TransferStep s t) : Paced t i := by
  obtain ⟨op, move⟩ := step
  by_cases connects : ∃ iface memory now address port, op = .connect iface memory now address port
  · obtain ⟨iface, memory, now, address, port, rfl⟩ := connects
    exact connect_paced paced move
  · by_cases sends : ∃ j sent, op = .chunk j sent
    · obtain ⟨j, sent, rfl⟩ := sends
      by_cases here : i = j
      · subst here
        exact chunk_paced paced move
      · obtain ⟨⟨rest, phase, after⟩, segments, reported⟩ := move
        have syn : t.session.syn = s.session.syn := by
          rw [after]
          split
          · rfl
          · rfl
        apply paced.steady _ (congrFun syn i)
        · rw [segments, Function.update_of_ne here]
        · rw [reported, Function.update_of_ne here]
        · rw [after]
          split
          · exact Steady.elsewhere here rfl rfl
          · exact Steady.elsewhere here rfl (transmitData_other here ..)
    · push Not at connects sends
      obtain ⟨syn, steady⟩ := move_steady (i := i) connects sends move.1
      have told : t.segments = s.segments ∧ t.reported = s.reported := by
        cases op with
        | connect iface memory now address port => exact absurd rfl (connects iface memory now address port)
        | chunk j sent => exact absurd rfl (sends j sent)
        | _ => exact move.2
      exact paced.steady steady (congrFun syn i) (congrFun told.1 i) (congrFun told.2 i)

theorem reached_paced {s : Transfer} (run : Reachable Unconnected TransferStep s) (i : Fin tcpMaxSockets) : Paced s i := by
  apply run.induct fun s => Paced s i
  · rintro s ⟨⟨-, free⟩, none_, silent⟩
    constructor
    · exact fun busy => absurd (free i) busy
    · exact fun busy => absurd (free i) busy
    · rw [none_ i]
      intro before p after whole
      cases List.append_eq_nil_iff.mp whole.symm with | intro _ none_ => cases none_
    · rw [none_ i]
      exact fun _ member => nomatch member
    · rw [none_ i, silent i]
      rfl
  · exact fun _ _ => step_paced

/-- In every run the bytes that tcp_send reports are in step with the segments that
carry them exactly where no segment is taken after one that was not. -/
theorem stream_in_step_iff {s : Transfer} (run : Reachable Unconnected TransferStep s) (i : Fin tcpMaxSockets) :
    InStep (s.session.syn i) (carried (s.segments i)) (s.reported i) ↔ Unbroken (s.segments i) := by
  have paced := reached_paced run i
  rw [paced.told]
  exact inStep_iff paced.placed paced.full

end Steps

section Failures

/-- The stack before its first connection, with no stream begun. -/
def untold (session : Session) : Transfer where
  session := session
  segments := fun _ => []
  reported := fun _ => []

/-- Socket 0 after the handshake. -/
def opened : Session := setPhase (answered 1) 0 .idle (answered 1).stack

/-- A call that sends this byte on socket 0. -/
def askByte (s : Transfer) (b : UInt8) : Transfer :=
  { s with session := setPhase s.session 0 (.sending [b]) s.session.stack }

/-- Its first round. -/
def sendByte (s : Transfer) (b : UInt8) (sent : Bool) : Transfer :=
  let after := setPhase (askByte s b).session 0 (if sent then .sending [] else .idle) (tcpSendChunk s.session.stack 0 [b])
  { session := after
    segments := Function.update s.segments 0
      (s.segments 0 ++ (handedOver (askByte s b).session after).map fun m => (m, sent))
    reported := Function.update s.reported 0 (s.reported 0 ++ if sent then [b] else []) }

theorem sendByte_reached {s : Transfer} (run : Reachable Unconnected TransferStep s) (idle : s.session.phase 0 = .idle)
    (open_ : (s.session.socket 0).state = .established) (b : UInt8) (sent : Bool) :
    Reachable Unconnected TransferStep (sendByte s b sent) := by
  have asked : TransferStep s (askByte s b) := by
    refine ⟨.send 0 [b], ⟨idle, ?_⟩, rfl, rfl⟩
    rw [if_pos open_]
    rfl
  have sending : (askByte s b).session.phase 0 = .sending [b] := by simp [askByte, setPhase]
  have round : TransferStep (askByte s b) (sendByte s b sent) := by
    refine ⟨.chunk 0 sent, ⟨[b], sending, ?_⟩, rfl, ?_⟩
    · rw [if_neg (List.cons_ne_nil b [])]
      cases sent with
      | true => rfl
      | false => rfl
    · rw [sending]
      rfl
  exact (run.next asked).next round

theorem opened_reached : Reachable Unconnected TransferStep (untold opened) := by
  have start : Reachable Unconnected TransferStep (untold unused) :=
    .start ⟨⟨fun _ => rfl, fun _ => rfl⟩, fun _ => rfl, fun _ => rfl⟩
  have connect : TransferStep (untold unused) (untold waiting) :=
    ⟨.connect (some (0, 2)) true 0 1 80, waiting_move, (Function.update_eq_self ..).symm, (Function.update_eq_self ..).symm⟩
  have answer : TransferStep (untold waiting) (untold (answered 1)) := ⟨.arrive 0 0 1 (answer 1), rfl, rfl, rfl⟩
  have connected : TransferStep (untold (answered 1)) (untold opened) := by
    have state : ((answered 1).stack.tcp.sockets 0).state = .established := by decide
    have ends : tcpConnectEnd (answered 1).stack 0 = (some 0, (answered 1).stack) := if_neg (not_not.mpr state)
    refine ⟨.connected 0 false, ⟨by decide, .inl ?_, ?_⟩, rfl, rfl⟩
    · change ((answered 1).stack.tcp.sockets 0).state ≠ _
      rw [state]
      exact nofun
    · change opened = setPhase (answered 1) 0 (if (tcpConnectEnd (answered 1).stack 0).1.isSome then .idle else .free)
        (tcpConnectEnd (answered 1).stack 0).2
      rw [ends]
      rfl
  exact ((start.next connect).next answer).next connected

theorem opened_ready : (untold opened).session.phase 0 = .idle ∧ ((untold opened).session.socket 0).state = .established :=
  ⟨by decide, by decide⟩

theorem stream_in_step_iff_byte : let s := sendByte (untold opened) 7 true
    s.reported 0 = [7] ∧ InStep (s.session.syn 0) (carried (s.segments 0)) (s.reported 0) := by
  intro s
  have run : Reachable Unconnected TransferStep s := sendByte_reached opened_reached opened_ready.1 opened_ready.2 7 true
  refine ⟨rfl, (stream_in_step_iff run 0).mpr ?_⟩
  intro before m after whole
  have one : (s.segments 0).length = 1 := by decide
  rw [whole, List.length_append, List.length_cons] at one
  have none_ : before = [] := List.length_eq_zero_iff.mp (by omega)
  rw [none_]
  rfl

/-- The segment with the first byte is not taken; the second byte, the first one that
is reported, goes out at the second number. -/
theorem failed_send_leaves_gap : ¬ ∀ s i, Reachable Unconnected TransferStep s →
    InStep (s.session.syn i) (carried (s.segments i)) (s.reported i) := by
  intro always
  let failed := sendByte (untold opened) 7 false
  have first : Reachable Unconnected TransferStep failed := sendByte_reached opened_reached opened_ready.1 opened_ready.2 7 false
  have second := sendByte_reached first (by decide) (by decide) 8 true
  obtain ⟨k, ⟨m, entry, j, inside, place, number⟩, -⟩ := (always _ 0 second).once 0 8 (by decide)
  have one : (carried ((sendByte failed 8 true).segments 0)).map (fun m => (m.sequence, m.payload)) = [(2, [8])] := by
    decide
  have member := List.mem_map_of_mem (f := fun m : Sent => (m.sequence, m.payload)) (List.mem_of_getElem? entry)
  rw [one] at member
  obtain ⟨sequence, payload⟩ := Prod.mk.inj (List.mem_singleton.mp member)
  have syn : (sendByte failed 8 true).session.syn 0 = 0 := by decide
  have here : j = 0 := by omega
  rw [sequence, here, syn] at number
  exact absurd number (by decide)

end Failures
end Qito.Net
