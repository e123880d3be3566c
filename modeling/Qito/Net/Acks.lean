import Qito.Lib.Runs
import Qito.Net.Sockets
import Qito.Net.Delivery

/-! What a socket makes of acknowledgements. tcp_input takes any acknowledgement
number; where the numbers that come in are in the window of what has been sent,
the sending side keeps to it. -/
namespace Qito.Net
open Runs

/-- Where the calls of a socket's owner stand. -/
inductive Phase where
  | free
  | connecting
  | idle
  | sending (rest : Bytes)
  | closing
deriving DecidableEq

/-- The stack, the calls on each socket, and the sequence numbers its SYN and its
FIN were sent with. -/
structure Session where
  stack : TcpStack
  phase : Fin tcpMaxSockets → Phase
  syn : Fin tcpMaxSockets → Nat
  fin : Fin tcpMaxSockets → Nat

def Session.socket (s : Session) (i : Fin tcpMaxSockets) : TcpSocket := s.stack.tcp.sockets i

inductive SocketOp where
  | arrive (now iface source : Nat) (data : Bytes)
  | connect (iface : Option (Nat × Nat)) (memory : Bool) (now address port : Nat)
  | connected (i : Fin tcpMaxSockets) (expired : Bool)
  | send (i : Fin tcpMaxSockets) (data : Bytes)
  | chunk (i : Fin tcpMaxSockets) (sent : Bool)
  | receive (i : Fin tcpMaxSockets) (len : Nat) (expired : Bool)
  | close (i : Fin tcpMaxSockets)
  | closed (i : Fin tcpMaxSockets) (expired : Bool)

def setPhase (s : Session) (i : Fin tcpMaxSockets) (phase : Phase) (stack : TcpStack) : Session :=
  { s with stack := stack, phase := Function.update s.phase i phase }

/-- A segment comes in, or a call of a socket's owner goes on. -/
def SocketMove (s : Session) (op : SocketOp) (t : Session) : Prop :=
  match op with
  | .arrive now iface source data =>
    t = { s with stack := { s.stack with tcp := tcpInput now iface source s.stack.tcp data } }
  | .connect iface memory now address port =>
    match tcpConnect iface memory now address port s.stack with
    | (none, stack) => t = { s with stack := stack }
    | (some i, stack) => t = { setPhase s i .connecting stack with syn := Function.update s.syn i (initialSequence now) }
  | .connected i expired =>
    s.phase i = .connecting ∧ ((s.socket i).state ≠ .synSent ∨ expired = true) ∧
      t = setPhase s i (if (tcpConnectEnd s.stack i).1.isSome then .idle else .free) (tcpConnectEnd s.stack i).2
  | .send i data =>
    s.phase i = .idle ∧ t = if (s.socket i).state = .established then setPhase s i (.sending data) s.stack else s
  | .chunk i sent =>
    ∃ rest, s.phase i = .sending rest ∧
      t = if rest = [] then setPhase s i .idle s.stack
        else setPhase s i (if sent then .sending (rest.drop tcpMss) else .idle) (tcpSendChunk s.stack i rest)
  | .receive i len expired =>
    s.phase i = .idle ∧ ∃ bytes tcp, tcpReceive s.stack.tcp i len expired = some (bytes, tcp) ∧
      t = { s with stack := { s.stack with tcp := tcp } }
  | .close i =>
    s.phase i = .idle ∧
      t = { setPhase s i (if (tcpClose s.stack i).1 then .closing else .free) (tcpClose s.stack i).2 with
        fin := Function.update s.fin i (s.socket i).sendNext }
  | .closed i expired =>
    s.phase i = .closing ∧ ((s.socket i).state = .closed ∨ expired = true) ∧
      t = setPhase s i .free (socketRelease s.stack i)

/-- No socket has been used yet. -/
def Fresh (s : Session) : Prop :=
  (∀ i, s.socket i = zeroSocket) ∧ (∀ i, s.phase i = .free)

/-- The distance from a to b in sequence numbers, and the order it gives. -/
def distance (a b : Nat) : Nat := wrap32 (b + 2 ^ 32 - a)

def SeqLe (a b : Nat) : Prop := distance a b < 2 ^ 31

instance (a b : Nat) : Decidable (SeqLe a b) := inferInstanceAs (Decidable (_ < _))

/-- The segment is looked at and is for this socket. -/
def Meant (t : TcpTable) (source : Nat) (data : Bytes) (i : Fin tcpMaxSockets) : Prop :=
  tcpHeaderSize ≤ headerLen data ∧ headerLen data ≤ data.length ∧
    socketFind t source (sourcePort data) (destPort data) = some i

def synAck (data : Bytes) : Prop := flagsOf data &&& (tcpSyn ||| tcpAck) = tcpSyn ||| tcpAck

instance (data : Bytes) : Decidable (synAck data) := inferInstanceAs (Decidable (_ = _))

/-- A socket becomes established only through a segment that acknowledges its
SYN; send_unack goes forward and stays behind send_next; an acknowledgement
closes a connection only if it covers the FIN. -/
structure Disciplined (s : Session) (op : SocketOp) (t : Session) (i : Fin tcpMaxSockets) : Prop where
  establishes : (s.socket i).state = .synSent → (t.socket i).state = .established →
    ∃ now iface source data, op = .arrive now iface source data ∧ has (flagsOf data) tcpAck = true ∧
      acknowledgementOf data = wrap32 (s.syn i + 1)
  forward : s.phase i ≠ .free → t.phase i ≠ .free → SeqLe (s.socket i).sendUnack (t.socket i).sendUnack
  within : t.phase i ≠ .free → SeqLe (t.socket i).sendUnack (t.socket i).sendNext
  closes : (s.socket i).state = .finWait → (t.socket i).state = .closed → ∀ now iface source data,
    op = .arrive now iface source data → has (flagsOf data) tcpRst = false → has (flagsOf data) tcpAck = true →
      acknowledgementOf data = wrap32 (s.fin i + 1)

/-- The acknowledgement is of something in flight, and not more than half the
sequence numbers are. -/
def AckOk (s : Session) : SocketOp → Prop
  | .arrive _ _ source data => ∀ i, Meant s.stack.tcp source data i → has (flagsOf data) tcpRst = false →
    match (s.socket i).state with
    | .synSent => synAck data → acknowledgementOf data = (s.socket i).sendNext
    | .established | .closeWait => has (flagsOf data) tcpAck = true →
      SeqLe (s.socket i).sendUnack (acknowledgementOf data) ∧ SeqLe (acknowledgementOf data) (s.socket i).sendNext
    | .finWait => has (flagsOf data) tcpAck = true → acknowledgementOf data = (s.socket i).sendNext
    | .closed => True
  | .chunk i _ => ∀ rest, s.phase i = .sending rest →
    distance (s.socket i).sendUnack (s.socket i).sendNext + min rest.length tcpMss < 2 ^ 31
  | .close i => (s.socket i).state = .established →
    distance (s.socket i).sendUnack (s.socket i).sendNext + 1 < 2 ^ 31
  | _ => True

def AckStep (s t : Session) : Prop := ∃ op, AckOk s op ∧ SocketMove s op t

section Input
variable {t : TcpTable} {j k : Fin tcpMaxSockets} {data : Bytes}

/-- The sending side of a socket. -/
structure Wire where
  inUse : Bool
  state : TcpState
  next : Nat
  unack : Nat

@[grind =] def TcpSocket.wire (s : TcpSocket) : Wire where
  inUse := s.inUse
  state := s.state
  next := s.sendNext
  unack := s.sendUnack

/-- The sending side after a segment. -/
@[grind =] def Wire.take (w : Wire) (data : Bytes) : Wire :=
  if has (flagsOf data) tcpRst then { w with state := .closed }
  else
    match w.state with
    | .synSent => if synAck data then { w with state := .established, unack := acknowledgementOf data } else w
    | .established | .closeWait =>
      { w with
        unack := if has (flagsOf data) tcpAck then acknowledgementOf data else w.unack
        state := if has (flagsOf data) tcpFin then .closeWait else w.state }
    | .finWait =>
      { w with state := if has (flagsOf data) tcpAck || has (flagsOf data) tcpFin then .closed else .finWait }
    | .closed => w

theorem tcpTransmit_wire : ((tcpTransmit t j tcpAck).sockets j).wire = (t.sockets j).wire := by
  have plain : has tcpAck (tcpSyn ||| tcpFin) = false := by decide
  simp [tcpTransmit, TcpSocket.wire, plain]

theorem accept_wire (s : TcpSocket) (sequence : Nat) (payload : Bytes) : (accept s sequence payload).wire = s.wire := by
  rw [accept]
  split
  · rfl
  · rfl

theorem inputOpen_wire : ((inputOpen t j data).sockets j).wire = { (t.sockets j).wire with
    unack := if has (flagsOf data) tcpAck then acknowledgementOf data else (t.sockets j).wire.unack
    state := if has (flagsOf data) tcpFin then .closeWait else (t.sockets j).wire.state } := by
  let acked := if has (flagsOf data) tcpAck then
      setSocket t j { t.sockets j with
        sendUnack := acknowledgementOf data
        pending := none
        retries := if (t.sockets j).pending.isSome then 0 else (t.sockets j).retries }
    else t
  have first : (acked.sockets j).wire = { (t.sockets j).wire with
      unack := if has (flagsOf data) tcpAck then acknowledgementOf data else (t.sockets j).wire.unack } := by
    simp only [acked]
    split
    · simp [TcpSocket.wire]
    · rfl
  let taken := if (payloadOf data).length > 0 then
      tcpTransmit (setSocket acked j (accept (acked.sockets j) (sequenceOf data) (payloadOf data))) j tcpAck
    else acked
  have second : (taken.sockets j).wire = (acked.sockets j).wire := by
    simp only [taken]
    split
    · rw [tcpTransmit_wire, setSocket_same, accept_wire]
    · rfl
  change ((if has (flagsOf data) tcpFin then
    tcpTransmit (setSocket taken j { taken.sockets j with
      receiveNext := wrap32 (sequenceOf data + (payloadOf data).length + 1)
      state := .closeWait }) j tcpAck
    else taken).sockets j).wire = _
  split
  · rw [tcpTransmit_wire, setSocket_same]
    change { (taken.sockets j).wire with state := .closeWait } = _
    rw [second, first]
  · rw [second, first]

theorem inputSynSent_wire : ((inputSynSent t j data).sockets j).wire =
    if synAck data then { (t.sockets j).wire with state := .established, unack := acknowledgementOf data }
    else (t.sockets j).wire := by
  by_cases both : synAck data
  · have flags : flagsOf data &&& (tcpSyn ||| tcpAck) = tcpSyn ||| tcpAck := both
    rw [if_pos both, inputSynSent, if_pos flags, tcpTransmit_wire, setSocket_same]
    rfl
  · have flags : ¬ flagsOf data &&& (tcpSyn ||| tcpAck) = tcpSyn ||| tcpAck := both
    rw [if_neg both, inputSynSent, if_neg flags]

theorem receiveNext_wire (s : TcpSocket) (n : Nat) : { s with receiveNext := n }.wire = s.wire := rfl

theorem inputFinWait_wire (waits : (t.sockets j).state = .finWait) : ((inputFinWait t j data).sockets j).wire =
    { (t.sockets j).wire with
      state := if has (flagsOf data) tcpAck || has (flagsOf data) tcpFin then .closed else .finWait } := by
  let acked := if has (flagsOf data) tcpAck then setSocket t j { t.sockets j with state := .closed } else t
  have first : (acked.sockets j).wire = { (t.sockets j).wire with
      state := if has (flagsOf data) tcpAck then .closed else .finWait } := by
    simp only [acked]
    split
    · rw [setSocket_same]
      rfl
    · rw [TcpSocket.wire, waits]
  let replied := tcpTransmit (setSocket acked j { acked.sockets j with receiveNext := wrap32 (sequenceOf data + 1) }) j tcpAck
  have second : (replied.sockets j).wire = (acked.sockets j).wire := by
    rw [tcpTransmit_wire, setSocket_same]
    exact receiveNext_wire _ _
  change ((if has (flagsOf data) tcpFin then setSocket replied j { replied.sockets j with state := .closed }
    else acked).sockets j).wire = _
  split
  case isTrue fin =>
    rw [setSocket_same, fin, Bool.or_true]
    change { (replied.sockets j).wire with state := .closed } = _
    rw [second, first]
    rfl
  case isFalse fin =>
    rw [first, Bool.eq_false_iff.mpr fin, Bool.or_false]

theorem inputSynSent_other (ne : k ≠ j) : (inputSynSent t j data).sockets k = t.sockets k := by
  rw [inputSynSent]
  split
  · simp [ne]
  · rfl

theorem inputFinWait_other (ne : k ≠ j) : (inputFinWait t j data).sockets k = t.sockets k := by
  simp only [inputFinWait]
  split <;> split <;> simp [ne]

/-- The part of tcp_input behind the search for the socket. -/
def handle (t : TcpTable) (j : Fin tcpMaxSockets) (data : Bytes) : TcpTable :=
  if has (flagsOf data) tcpRst then setSocket t j { t.sockets j with state := .closed }
  else
    match (t.sockets j).state with
    | .synSent => inputSynSent t j data
    | .established => inputOpen t j data
    | .closeWait => inputOpen t j data
    | .finWait => inputFinWait t j data
    | .closed => t

theorem handle_wire : ((handle t j data).sockets j).wire = (t.sockets j).wire.take data := by
  have state : (t.sockets j).wire.state = (t.sockets j).state := rfl
  rw [handle, Wire.take, state]
  split
  · rw [setSocket_same]
    rfl
  · split
    case h_1 => rw [inputSynSent_wire]
    case h_2 open_ => rw [inputOpen_wire, state, open_]
    case h_3 open_ => rw [inputOpen_wire, state, open_]
    case h_4 waits => rw [inputFinWait_wire waits]
    case h_5 => rfl

theorem handle_other (ne : k ≠ j) : (handle t j data).sockets k = t.sockets k := by
  rw [handle]
  split
  · rw [setSocket_other ne]
  · split
    · exact inputSynSent_other ne
    · exact inputOpen_other ne
    · exact inputOpen_other ne
    · exact inputFinWait_other ne
    · rfl

theorem tcpInput_found (now iface source : Nat) (meant : Meant t source data j) : tcpInput now iface source t data =
    handle (setSocket t j { t.sockets j with
      iface := iface
      lastActivityMs := now
      remoteWindow := windowOf data }) j data := by
  obtain ⟨low, high, found⟩ := meant
  have long : ¬ data.length < tcpHeaderSize := by omega
  have whole : ¬ (headerLen data < tcpHeaderSize ∨ headerLen data > data.length) := by omega
  rw [tcpInput, if_neg long, if_neg whole, found]
  rfl

theorem tcpInput_unfound (now iface source : Nat) (unmeant : ∀ j, ¬ Meant t source data j) :
    tcpInput now iface source t data = t := by
  rw [tcpInput]
  split
  · rfl
  · split
    · rfl
    · split
      · rfl
      case h_2 j found => exact absurd ⟨by omega, by omega, found⟩ (unmeant j)

theorem tcpInput_wire (now iface source : Nat) (meant : Meant t source data j) :
    ((tcpInput now iface source t data).sockets j).wire = (t.sockets j).wire.take data := by
  rw [tcpInput_found now iface source meant, handle_wire, setSocket_same]
  rfl

theorem tcpInput_other (now iface source : Nat) (unmeant : ¬ Meant t source data k) :
    (tcpInput now iface source t data).sockets k = t.sockets k := by
  by_cases some_ : ∃ j, Meant t source data j
  · obtain ⟨j, meant⟩ := some_
    have ne : k ≠ j := fun same => unmeant (same ▸ meant)
    rw [tcpInput_found now iface source meant, handle_other ne, setSocket_other ne]
  · rw [tcpInput_unfound now iface source (not_exists.mp some_)]

end Input

section Windows

theorem distance_self (a : Nat) : distance a a = 0 := by
  rw [distance, Nat.add_sub_cancel_left]
  exact Nat.mod_self _

theorem seqLe_refl (a : Nat) : SeqLe a a := by
  rw [SeqLe, distance_self]
  decide

theorem distance_add {a b : Nat} (inside : a < 2 ^ 32) (n : Nat) : distance a (wrap32 (b + n)) = wrap32 (distance a b + n) := by
  rw [distance, distance, wrap32, wrap32, wrap32, wrap32]
  omega

theorem wrap32_lt (n : Nat) : wrap32 n < 2 ^ 32 := Nat.mod_lt n (by decide)

theorem seqLe_add {a b n : Nat} (inside : a < 2 ^ 32) (room : distance a b + n < 2 ^ 31) : SeqLe a (wrap32 (b + n)) := by
  rw [SeqLe, distance_add inside, wrap32, Nat.mod_eq_of_lt (by omega)]
  exact room

theorem acknowledgementOf_lt (data : Bytes) : acknowledgementOf data < 2 ^ 32 := by
  have byte (i : Nat) : byteAt data i < 256 := UInt8.toNat_lt _
  have a := byte 8
  have b := byte (8 + 1)
  have c := byte (8 + 2)
  have d := byte (8 + 2 + 1)
  rw [acknowledgementOf, be32, be16, be16]
  omega

end Windows

section Steps
variable {s t : Session} {op : SocketOp} {i : Fin tcpMaxSockets} {data : Bytes}

/-- The sending side of a socket, where the calls on it stand, and the numbers of
its SYN and FIN. -/
structure View where
  wire : Wire
  phase : Phase
  syn : Nat
  fin : Nat

@[grind =] def Session.view (s : Session) (i : Fin tcpMaxSockets) : View where
  wire := (s.socket i).wire
  phase := s.phase i
  syn := s.syn i
  fin := s.fin i

/-- What holds of a socket between the steps. -/
structure View.Sane (v : View) : Prop where
  used : v.wire.inUse = true ↔ v.phase ≠ .free
  words : v.wire.unack < 2 ^ 32 ∧ v.wire.next < 2 ^ 32
  window : v.phase ≠ .free → SeqLe v.wire.unack v.wire.next
  opening : v.wire.state = .synSent → v.phase = .connecting ∧ v.wire.next = wrap32 (v.syn + 1)
  ending : v.wire.state = .finWait → v.phase = .closing ∧ v.wire.next = wrap32 (v.fin + 1)

theorem still (sane : (s.view i).Sane) (same : t.view i = s.view i) : (t.view i).Sane ∧ Disciplined s op t i := by
  have wire : (t.socket i).wire = (s.socket i).wire := congrArg View.wire same
  have state : (t.socket i).state = (s.socket i).state := congrArg Wire.state wire
  have unack : (t.socket i).sendUnack = (s.socket i).sendUnack := congrArg Wire.unack wire
  constructor
  · rw [same]
    exact sane
  · constructor
    · intro before after
      rw [state, before] at after
      cases after
    · intro _ _
      rw [unack]
      exact seqLe_refl _
    · intro busy
      rw [← same] at sane
      exact sane.window busy
    · intro before after
      rw [state, before] at after
      cases after

theorem zero_sane (phase : t.phase i = .free) (zero : t.socket i = zeroSocket) : (t.view i).Sane := by
  have wire : (t.view i).wire = zeroSocket.wire := congrArg TcpSocket.wire zero
  have free : (t.view i).phase = .free := phase
  constructor
  · rw [wire, free]
    decide
  · rw [wire]
    decide
  · exact fun busy => absurd free busy
  · intro state
    rw [wire] at state
    cases state
  · intro state
    rw [wire] at state
    cases state

theorem gone (local_ : ∀ now iface source data, op ≠ .arrive now iface source data) (phase : t.phase i = .free)
    (zero : t.socket i = zeroSocket) : (t.view i).Sane ∧ Disciplined s op t i := by
  refine ⟨zero_sane phase zero, ?_⟩
  constructor
  · intro _ state
    rw [zero] at state
    cases state
  · exact fun _ busy => absurd phase busy
  · exact fun busy => absurd phase busy
  · exact fun _ _ now iface source data arrives => absurd arrives (local_ now iface source data)

theorem moved {w : Wire} (sane : (s.view i).Sane) (view : t.view i = { s.view i with wire := w })
    (used : w.inUse = (s.socket i).inUse) (next : w.next = (s.socket i).sendNext) (word : w.unack < 2 ^ 32)
    (forward : SeqLe (s.socket i).sendUnack w.unack)
    (within : s.phase i ≠ .free → SeqLe w.unack (s.socket i).sendNext)
    (opening : w.state = .synSent → (s.socket i).state = .synSent)
    (ending : w.state = .finWait → (s.socket i).state = .finWait)
    (establishes : (s.socket i).state = .synSent → w.state = .established →
      ∃ now iface source data, op = .arrive now iface source data ∧ has (flagsOf data) tcpAck = true ∧
        acknowledgementOf data = wrap32 (s.syn i + 1))
    (closes : (s.socket i).state = .finWait → w.state = .closed → ∀ now iface source data,
      op = .arrive now iface source data → has (flagsOf data) tcpRst = false → has (flagsOf data) tcpAck = true →
        acknowledgementOf data = wrap32 (s.fin i + 1)) : (t.view i).Sane ∧ Disciplined s op t i := by
  have wire : (t.socket i).wire = w := congrArg View.wire view
  have state : (t.socket i).state = w.state := congrArg Wire.state wire
  have unack : (t.socket i).sendUnack = w.unack := congrArg Wire.unack wire
  have after : (t.socket i).sendNext = (s.socket i).sendNext := (congrArg Wire.next wire).trans next
  have phase : t.phase i = s.phase i := congrArg View.phase view
  constructor
  · rw [view]
    constructor
    · rw [used]
      exact sane.used
    · rw [next]
      exact ⟨word, sane.words.2⟩
    · intro busy
      rw [next]
      exact within busy
    · intro opens
      rw [next]
      exact sane.opening (opening opens)
    · intro ends
      rw [next]
      exact sane.ending (ending ends)
  · constructor
    · rw [state]
      exact establishes
    · rw [unack]
      exact fun _ _ => forward
    · rw [unack, after, phase]
      exact within
    · rw [state]
      exact closes

theorem ack_of_synAck (both : synAck data) : has (flagsOf data) tcpAck = true := by
  have bits := congrArg (·.testBit 4) both
  simp only [Nat.testBit_and] at bits
  have set : (flagsOf data).testBit 4 = true := by
    have mask : (tcpSyn ||| tcpAck).testBit 4 = true := by decide
    rw [mask, Bool.and_true] at bits
    exact bits
  rw [has, bne_iff_ne]
  intro none_
  have bit := congrArg (·.testBit 4) none_
  simp only [Nat.testBit_and, set] at bit
  exact absurd bit (by decide)

section Arrivals
variable {now iface source : Nat} (sane : (s.view i).Sane)
  (view : t.view i = { s.view i with wire := (s.socket i).wire.take data })
include sane view

theorem reset_sane (reset : has (flagsOf data) tcpRst = true) :
    (t.view i).Sane ∧ Disciplined s (.arrive now iface source data) t i := by
  have after : (s.socket i).wire.take data = { (s.socket i).wire with state := .closed } := by
    rw [Wire.take, reset]
    rfl
  rw [after] at view
  refine moved sane view rfl rfl sane.words.1 (seqLe_refl _) sane.window nofun nofun nofun ?_
  intro _ _ _ _ _ _ same unset
  cases same
  cases reset.symm.trans unset

variable (unset : has (flagsOf data) tcpRst = false)
include unset

theorem handshake_sane (state : (s.socket i).state = .synSent)
    (asked : synAck data → acknowledgementOf data = (s.socket i).sendNext) :
    (t.view i).Sane ∧ Disciplined s (.arrive now iface source data) t i := by
  have here : (s.socket i).wire.state = .synSent := state
  by_cases both : synAck data
  · have after : (s.socket i).wire.take data =
        { (s.socket i).wire with state := .established, unack := acknowledgementOf data } := by
      simp only [Wire.take, unset, here, if_pos both]
      rfl
    obtain ⟨connecting, own⟩ := sane.opening state
    rw [after] at view
    refine moved sane view rfl rfl (acknowledgementOf_lt data) ?_ ?_ nofun nofun ?_ nofun
    · rw [asked both]
      apply sane.window
      rw [connecting]
      exact nofun
    · intro _
      rw [asked both]
      exact seqLe_refl _
    · intro _ _
      exact ⟨now, iface, source, data, rfl, ack_of_synAck both, (asked both).trans own⟩
  · have after : (s.socket i).wire.take data = (s.socket i).wire := by
      simp only [Wire.take, unset, here, if_neg both]
      rfl
    rw [after] at view
    exact still sane view

theorem open_sane (state : (s.socket i).state = .established ∨ (s.socket i).state = .closeWait)
    (asked : has (flagsOf data) tcpAck = true →
      SeqLe (s.socket i).sendUnack (acknowledgementOf data) ∧ SeqLe (acknowledgementOf data) (s.socket i).sendNext) :
    (t.view i).Sane ∧ Disciplined s (.arrive now iface source data) t i := by
  have after : (s.socket i).wire.take data = { (s.socket i).wire with
      unack := if has (flagsOf data) tcpAck then acknowledgementOf data else (s.socket i).sendUnack
      state := if has (flagsOf data) tcpFin then .closeWait else (s.socket i).state } := by
    rcases state with state | state
    · have here : (s.socket i).wire.state = .established := state
      simp only [Wire.take, unset, here, state]
      rfl
    · have here : (s.socket i).wire.state = .closeWait := state
      simp only [Wire.take, unset, here, state]
      rfl
  have open_ : (if has (flagsOf data) tcpFin then .closeWait else (s.socket i).state) ≠ TcpState.synSent ∧
      (if has (flagsOf data) tcpFin then .closeWait else (s.socket i).state) ≠ TcpState.finWait := by
    split
    · exact ⟨nofun, nofun⟩
    · rcases state with state | state
      · rw [state]
        exact ⟨nofun, nofun⟩
      · rw [state]
        exact ⟨nofun, nofun⟩
  have shut : (s.socket i).state ≠ .synSent ∧ (s.socket i).state ≠ .finWait := by
    rcases state with state | state
    · rw [state]
      exact ⟨nofun, nofun⟩
    · rw [state]
      exact ⟨nofun, nofun⟩
  rw [after] at view
  refine moved sane view rfl rfl ?_ ?_ ?_ (fun opens => absurd opens open_.1) (fun ends => absurd ends open_.2)
    (fun opens => absurd opens shut.1) (fun ends => absurd ends shut.2)
  · change (if _ then _ else _) < _
    split
    · exact acknowledgementOf_lt data
    · exact sane.words.1
  · change SeqLe _ (if _ then _ else _)
    split
    case isTrue acked => exact (asked acked).1
    case isFalse => exact seqLe_refl _
  · intro busy
    change SeqLe (if _ then _ else _) _
    split
    case isTrue acked => exact (asked acked).2
    case isFalse => exact sane.window busy

theorem finWait_sane (state : (s.socket i).state = .finWait)
    (asked : has (flagsOf data) tcpAck = true → acknowledgementOf data = (s.socket i).sendNext) :
    (t.view i).Sane ∧ Disciplined s (.arrive now iface source data) t i := by
  have after : (s.socket i).wire.take data = { (s.socket i).wire with
      state := if has (flagsOf data) tcpAck || has (flagsOf data) tcpFin then .closed else .finWait } := by
    have here : (s.socket i).wire.state = .finWait := state
    simp only [Wire.take, unset, here]
    rfl
  have shut : (if has (flagsOf data) tcpAck || has (flagsOf data) tcpFin then .closed else .finWait) ≠ TcpState.synSent := by
    split
    · exact nofun
    · exact nofun
  rw [after] at view
  refine moved sane view rfl rfl sane.words.1 (seqLe_refl _) sane.window (fun opens => absurd opens shut)
    (fun _ => state) ?_ ?_
  · intro opens
    cases state.symm.trans opens
  · intro _ _ _ _ _ _ same _ acked
    cases same
    exact (asked acked).trans (sane.ending state).2

end Arrivals

theorem arrive_sane {now iface source : Nat} (sane : (s.view i).Sane) (ok : AckOk s (.arrive now iface source data))
    (move : SocketMove s (.arrive now iface source data) t) :
    (t.view i).Sane ∧ Disciplined s (.arrive now iface source data) t i := by
  subst move
  by_cases meant : Meant s.stack.tcp source data i
  case neg =>
    apply still sane
    rw [Session.view, Session.socket]
    simp only [tcpInput_other now iface source meant]
    rfl
  case pos =>
    let t : Session := { s with stack := { s.stack with tcp := tcpInput now iface source s.stack.tcp data } }
    have view : t.view i = { s.view i with wire := (s.socket i).wire.take data } := by
      rw [Session.view, Session.socket]
      simp only [t, tcpInput_wire now iface source meant]
      rfl
    cases reset : has (flagsOf data) tcpRst with
    | true => exact reset_sane sane view reset
    | false =>
      have asked := ok i meant reset
      cases state : (s.socket i).state with
      | synSent =>
        rw [state] at asked
        exact handshake_sane sane view reset state asked
      | established =>
        rw [state] at asked
        exact open_sane sane view reset (.inl state) asked
      | closeWait =>
        rw [state] at asked
        exact open_sane sane view reset (.inr state) asked
      | finWait =>
        rw [state] at asked
        exact finWait_sane sane view reset state asked
      | closed =>
        have after : (s.socket i).wire.take data = (s.socket i).wire := by
          have here : (s.socket i).wire.state = .closed := state
          simp only [Wire.take, reset, here]
          rfl
        rw [after] at view
        exact still sane view

section Calls
variable {j : Fin tcpMaxSockets}

theorem transmitData_wire (tcp : TcpTable) (flags : Nat) (payload : Bytes) :
    ((tcpTransmitData tcp j flags payload).sockets j).wire = { (tcp.sockets j).wire with
      next := wrap32 ((if has flags (tcpSyn ||| tcpFin) then wrap32 ((tcp.sockets j).sendNext + 1)
        else (tcp.sockets j).sendNext) + (payload.take tcpMss).length) } := by
  simp [tcpTransmitData, TcpSocket.wire]

theorem transmitData_other {tcp : TcpTable} (ne : i ≠ j) (flags : Nat) (payload : Bytes) :
    (tcpTransmitData tcp j flags payload).sockets i = tcp.sockets i := by
  simp [tcpTransmitData, ne]

theorem release_other {stack : TcpStack} (ne : i ≠ j) : (socketRelease stack j).tcp.sockets i = stack.tcp.sockets i := by
  rw [socketRelease]
  split
  · rfl
  · exact setSocket_other ne _

theorem release_same {stack : TcpStack} (used : (stack.tcp.sockets j).inUse = true) :
    (socketRelease stack j).tcp.sockets j = zeroSocket := by
  rw [socketRelease, used]
  exact setSocket_same _

theorem setPhase_other {phase : Phase} {stack : TcpStack} (ne : i ≠ j) (same : stack.tcp.sockets i = s.socket i) :
    (setPhase s j phase stack).view i = s.view i := by
  have kept : (setPhase s j phase stack).phase i = s.phase i := Function.update_of_ne ne ..
  have socket : (setPhase s j phase stack).socket i = s.socket i := same
  rw [Session.view, kept, socket]
  rfl

theorem spoke {n : Nat} {phase : Phase} (sane : (s.view i).Sane) (busy : s.phase i ≠ .free)
    (plain : (s.socket i).state ≠ .synSent ∧ (s.socket i).state ≠ .finWait) (active : phase ≠ .free) (word : n < 2 ^ 32)
    (window : SeqLe (s.socket i).sendUnack n)
    (view : t.view i = { s.view i with wire := { (s.socket i).wire with next := n }, phase := phase }) :
    (t.view i).Sane ∧ Disciplined s op t i := by
  have wire : (t.socket i).wire = { (s.socket i).wire with next := n } := congrArg View.wire view
  have unack : (t.socket i).sendUnack = (s.socket i).sendUnack := congrArg Wire.unack wire
  have next : (t.socket i).sendNext = n := congrArg Wire.next wire
  constructor
  · rw [view]
    constructor
    · exact iff_of_true (sane.used.mpr busy) active
    · exact ⟨sane.words.1, word⟩
    · exact fun _ => window
    · exact fun opens => absurd opens plain.1
    · exact fun ends => absurd ends plain.2
  · constructor
    · exact fun opens => absurd opens plain.1
    · rw [unack]
      exact fun _ _ => seqLe_refl _
    · rw [unack, next]
      exact fun _ => window
    · exact fun ends => absurd ends plain.2

theorem plain_of (sane : (s.view i).Sane) (opening : s.phase i ≠ .connecting) (ending : s.phase i ≠ .closing) :
    (s.socket i).state ≠ .synSent ∧ (s.socket i).state ≠ .finWait :=
  ⟨fun opens => opening (sane.opening opens).1, fun ends => ending (sane.ending ends).1⟩

theorem setPhase_same {phase : Phase} {stack : TcpStack} : (setPhase s i phase stack).view i =
    { s.view i with wire := (stack.tcp.sockets i).wire, phase := phase } := by
  rw [Session.view, setPhase]
  simp only [Function.update_self]
  rfl

theorem connected_sane {expired : Bool} (sane : (s.view i).Sane) (move : SocketMove s (.connected j expired) t) :
    (t.view i).Sane ∧ Disciplined s (.connected j expired) t i := by
  obtain ⟨phase, -, rfl⟩ := move
  rw [tcpConnectEnd]
  split
  case isTrue =>
    by_cases here : i = j
    · subst here
      have busy : s.phase i ≠ .free := by
        rw [phase]
        exact nofun
      exact gone nofun (Function.update_self ..) (release_same (sane.used.mpr busy))
    · exact still sane (setPhase_other here (release_other here))
  case isFalse state =>
    by_cases here : i = j
    · subst here
      have busy : s.phase i ≠ .free := by
        rw [phase]
        exact nofun
      have established : (s.socket i).state = .established := not_not.mp state
      refine spoke sane busy ?_ (nofun : Phase.idle ≠ .free) sane.words.2 (sane.window busy) setPhase_same
      rw [established]
      exact ⟨nofun, nofun⟩
    · exact still sane (setPhase_other here rfl)

theorem send_sane {bytes : Bytes} (sane : (s.view i).Sane) (move : SocketMove s (.send j bytes) t) :
    (t.view i).Sane ∧ Disciplined s (.send j bytes) t i := by
  obtain ⟨phase, rfl⟩ := move
  split
  · by_cases here : i = j
    · subst here
      have busy : s.phase i ≠ .free := by
        rw [phase]
        exact nofun
      have plain := plain_of sane (by rw [phase]; exact nofun) (by rw [phase]; exact nofun)
      exact spoke sane busy plain (nofun : Phase.sending bytes ≠ .free) sane.words.2 (sane.window busy) setPhase_same
    · exact still sane (setPhase_other here rfl)
  · exact still sane rfl

theorem chunk_sane {sent : Bool} (sane : (s.view i).Sane) (ok : AckOk s (.chunk j sent))
    (move : SocketMove s (.chunk j sent) t) : (t.view i).Sane ∧ Disciplined s (.chunk j sent) t i := by
  obtain ⟨rest, phase, rfl⟩ := move
  by_cases here : i = j
  · subst here
    have busy : s.phase i ≠ .free := by
      rw [phase]
      exact nofun
    have plain := plain_of sane (by rw [phase]; exact nofun) (by rw [phase]; exact nofun)
    split
    · exact spoke sane busy plain (nofun : Phase.idle ≠ .free) sane.words.2 (sane.window busy) setPhase_same
    · have quiet : has (tcpAck ||| tcpPsh) (tcpSyn ||| tcpFin) = false := by decide
      have size : ((rest.take tcpMss).take tcpMss).length = min rest.length tcpMss := by
        rw [List.take_take, Nat.min_self, List.length_take, Nat.min_comm]
      have wire : ((tcpSendChunk s.stack i rest).tcp.sockets i).wire = { (s.socket i).wire with
          next := wrap32 ((s.socket i).sendNext + min rest.length tcpMss) } := by
        rw [tcpSendChunk, transmitData_wire, quiet, size]
        rfl
      have active : (if sent then Phase.sending (rest.drop tcpMss) else .idle) ≠ .free := by
        split
        · exact nofun
        · exact nofun
      apply spoke sane busy plain active (wrap32_lt _) (seqLe_add sane.words.1 (ok rest phase))
      rw [setPhase_same, wire]
  · split
    · exact still sane (setPhase_other here rfl)
    · exact still sane (setPhase_other here (transmitData_other here ..))

theorem tcpReceive_wire {tcp tcp' : TcpTable} {bytes : Bytes} {len : Nat} {expired : Bool}
    (run : tcpReceive tcp j len expired = some (bytes, tcp')) : (tcp'.sockets i).wire = (tcp.sockets i).wire := by
  rw [tcpReceive] at run
  split at run
  · split at run
    · cases run
      rfl
    · cases run
  · cases run
    by_cases here : i = j
    · subst here
      rw [setSocket_same]
      rfl
    · rw [setSocket_other here]

theorem receive_sane {len : Nat} {expired : Bool} (sane : (s.view i).Sane) (move : SocketMove s (.receive j len expired) t) :
    (t.view i).Sane ∧ Disciplined s (.receive j len expired) t i := by
  obtain ⟨-, bytes, tcp, run, rfl⟩ := move
  have wire : (tcp.sockets i).wire = (s.socket i).wire := tcpReceive_wire run
  exact still sane (congrArg (fun w => { s.view i with wire := w }) wire)

theorem close_sane (sane : (s.view i).Sane) (ok : AckOk s (.close j)) (move : SocketMove s (.close j) t) :
    (t.view i).Sane ∧ Disciplined s (.close j) t i := by
  obtain ⟨phase, rfl⟩ := move
  by_cases here : i = j
  case neg =>
    have socket : (tcpClose s.stack j).2.tcp.sockets i = s.socket i := by
      rw [tcpClose]
      split
      · exact (setSocket_other here _).trans (transmitData_other here ..)
      · exact (release_other here).trans (transmitData_other here ..)
      · exact release_other here
    have fin : Function.update s.fin j (s.socket j).sendNext i = s.fin i := Function.update_of_ne here ..
    apply still sane
    rw [← setPhase_other (s := s) here socket, Session.view]
    simp only [fin]
    rfl
  case pos =>
    subst here
    have busy : s.phase i ≠ .free := by
      rw [phase]
      exact nofun
    have used : (s.stack.tcp.sockets i).inUse = true := sane.used.mpr busy
    have plain := plain_of sane (by rw [phase]; exact nofun) (by rw [phase]; exact nofun)
    rw [tcpClose]
    split
    case h_1 established =>
      have finishes : has (tcpFin ||| tcpAck) (tcpSyn ||| tcpFin) = true := by decide
      have window := seqLe_add sane.words.1 (ok established)
      let sent := tcpTransmitData s.stack.tcp i (tcpFin ||| tcpAck) []
      let stack : TcpStack :=
        { s.stack with tcp := setSocket sent i { sent.sockets i with state := .finWait } }
      let t : Session := { setPhase s i .closing stack with fin := Function.update s.fin i (s.socket i).sendNext }
      have next : wrap32 (wrap32 ((s.socket i).sendNext + 1) + 0) = wrap32 ((s.socket i).sendNext + 1) := by
        rw [wrap32_add, Nat.add_zero]
      have wire : (t.socket i).wire =
          { (s.socket i).wire with state := .finWait, next := wrap32 ((s.socket i).sendNext + 1) } := by
        have wire := transmitData_wire s.stack.tcp (j := i) (tcpFin ||| tcpAck) []
        rw [finishes] at wire
        rw [← next]
        change TcpSocket.wire ((setSocket sent i _).sockets i) = _
        rw [setSocket_same]
        exact congrArg (fun w : Wire => { w with state := .finWait }) wire
      have phases : t.phase i = .closing := Function.update_self ..
      have fin : t.fin i = (s.socket i).sendNext := Function.update_self ..
      change (t.view i).Sane ∧ Disciplined s (.close i) t i
      constructor
      · rw [Session.view, wire, phases, fin]
        constructor
        · exact iff_of_true used nofun
        · exact ⟨sane.words.1, wrap32_lt _⟩
        · exact fun _ => window
        · intro opens
          cases opens
        · exact fun _ => ⟨rfl, rfl⟩
      · have unack : (t.socket i).sendUnack = (s.socket i).sendUnack := congrArg Wire.unack wire
        have after : (t.socket i).sendNext = wrap32 ((s.socket i).sendNext + 1) := congrArg Wire.next wire
        constructor
        · exact fun opens => absurd opens plain.1
        · rw [unack]
          exact fun _ _ => seqLe_refl _
        · rw [unack, after]
          exact fun _ => window
        · exact fun ends => absurd ends plain.2
    case h_2 =>
      have sent := congrArg Wire.inUse (transmitData_wire s.stack.tcp (j := i) (tcpFin ||| tcpAck) [])
      exact gone nofun (Function.update_self ..) (release_same (sent.trans used))
    case h_3 => exact gone nofun (Function.update_self ..) (release_same used)

theorem closed_sane {expired : Bool} (sane : (s.view i).Sane) (move : SocketMove s (.closed j expired) t) :
    (t.view i).Sane ∧ Disciplined s (.closed j expired) t i := by
  obtain ⟨phase, -, rfl⟩ := move
  by_cases here : i = j
  · subst here
    have busy : s.phase i ≠ .free := by
      rw [phase]
      exact nofun
    exact gone nofun (Function.update_self ..) (release_same (sane.used.mpr busy))
  · exact still sane (setPhase_other here (release_other here))

theorem socketAllocate_cases (memory : Bool) (stack : TcpStack) :
    (socketAllocate memory stack = (none, stack)) ∨
    ∃ j, (stack.tcp.sockets j).inUse = false ∧
      (socketAllocate memory stack = (none, { stack with tcp := setSocket stack.tcp j zeroSocket }) ∨
        socketAllocate memory stack = (some j,
          { tcp := setSocket stack.tcp j { zeroSocket with inUse := true, localPort := stack.nextEphemeralPort }
            nextEphemeralPort := advancePort stack.nextEphemeralPort })) := by
  rw [socketAllocate]
  split
  case h_1 => exact .inl rfl
  case h_2 j found =>
    have unused := List.find?_some found
    rw [Bool.not_eq_true'] at unused
    cases memory with
    | false => exact .inr ⟨j, unused, .inl rfl⟩
    | true => exact .inr ⟨j, unused, .inr rfl⟩

theorem refused_sane {iface : Option (Nat × Nat)} {memory : Bool} {now address port : Nat} (sane : (s.view i).Sane)
    (unused : (s.socket j).inUse = false) :
    let t : Session := { s with stack := { s.stack with tcp := setSocket s.stack.tcp j zeroSocket } }
    (t.view i).Sane ∧ Disciplined s (.connect iface memory now address port) t i := by
  intro t
  by_cases here : i = j
  · subst here
    have free : s.phase i = .free := by
      by_contra busy
      cases unused.symm.trans (sane.used.mpr busy)
    exact gone nofun free (setSocket_same _)
  · apply still sane
    exact congrArg (fun socket => { s.view i with wire := TcpSocket.wire socket }) (setSocket_other here _)

theorem started_sane {iface : Option (Nat × Nat)} {memory : Bool} {now address port : Nat} (sane : (s.view i).Sane)
    (unused : (s.socket j).inUse = false) {opened : TcpSocket} {stack : TcpStack} {tcp : TcpTable}
    (used : opened.inUse = true) (next : opened.sendNext = initialSequence now)
    (unack : opened.sendUnack = initialSequence now) (state : opened.state = .synSent)
    (others : ∀ k, k ≠ j → tcp.sockets k = s.socket k) (table : stack.tcp = tcpTransmitData (setSocket tcp j opened) j tcpSyn []) :
    let t : Session := { setPhase s j .connecting stack with syn := Function.update s.syn j (initialSequence now) }
    (t.view i).Sane ∧ Disciplined s (.connect iface memory now address port) t i := by
  intro t
  by_cases here : i = j
  · subst here
    have free : s.phase i = .free := by
      by_contra busy
      cases unused.symm.trans (sane.used.mpr busy)
    have begins : has tcpSyn (tcpSyn ||| tcpFin) = true := by decide
    have word : initialSequence now < 2 ^ 32 := wrap32_lt _
    have wire : (t.socket i).wire =
        { inUse := true, state := .synSent, next := wrap32 (initialSequence now + 1), unack := initialSequence now } := by
      have sent := transmitData_wire (setSocket tcp i opened) (j := i) tcpSyn []
      rw [begins, setSocket_same, if_pos rfl, List.take_nil, List.length_nil, wrap32_add, Nat.add_zero, next] at sent
      change ((stack.tcp.sockets i).wire) = _
      rw [table, sent, TcpSocket.wire, used, unack, state]
    have window : SeqLe (initialSequence now) (wrap32 (initialSequence now + 1)) := by
      apply seqLe_add word
      rw [distance_self]
      decide
    have phase : t.phase i = .connecting := Function.update_self ..
    have syn : t.syn i = initialSequence now := Function.update_self ..
    have after : (t.socket i).state = .synSent := congrArg Wire.state wire
    constructor
    · rw [Session.view, wire, phase, syn]
      constructor
      · exact iff_of_true rfl nofun
      · exact ⟨word, wrap32_lt _⟩
      · exact fun _ => window
      · exact fun _ => ⟨rfl, rfl⟩
      · intro ends
        cases ends
    · constructor
      · intro _ opens
        cases after.symm.trans opens
      · exact fun busy => absurd free busy
      · intro _
        have start : (t.socket i).sendUnack = initialSequence now := congrArg Wire.unack wire
        have end_ : (t.socket i).sendNext = wrap32 (initialSequence now + 1) := congrArg Wire.next wire
        rw [start, end_]
        exact window
      · intro _ shut
        cases after.symm.trans shut
  · have socket : stack.tcp.sockets i = s.socket i := by
      rw [table, transmitData_other here, setSocket_other here]
      exact others i here
    have syn : Function.update s.syn j (initialSequence now) i = s.syn i := Function.update_of_ne here ..
    apply still sane
    rw [← setPhase_other (s := s) here socket, Session.view]
    simp only [t, syn]
    rfl

theorem connect_sane {iface : Option (Nat × Nat)} {memory : Bool} {now address port : Nat} (sane : (s.view i).Sane)
    (move : SocketMove s (.connect iface memory now address port) t) :
    (t.view i).Sane ∧ Disciplined s (.connect iface memory now address port) t i := by
  cases iface with
  | none =>
    cases move
    exact still sane rfl
  | some place =>
    rcases socketAllocate_cases memory s.stack with none_ | ⟨j, unused, zeroed | taken⟩
    · simp only [SocketMove, tcpConnect, none_] at move
      cases move
      exact still sane rfl
    · simp only [SocketMove, tcpConnect, zeroed] at move
      cases move
      exact refused_sane sane unused
    · simp only [SocketMove, tcpConnect, taken] at move
      subst move
      apply started_sane sane unused _ _ _ _ (fun k ne => setSocket_other ne _) rfl
      · rw [setSocket_same]
      · rfl
      · rfl
      · rfl

end Calls

theorem step_sane (sane : (s.view i).Sane) (ok : AckOk s op) (move : SocketMove s op t) :
    (t.view i).Sane ∧ Disciplined s op t i := by
  cases op with
  | arrive now iface source data => exact arrive_sane sane ok move
  | connect iface memory now address port => exact connect_sane sane move
  | connected j expired => exact connected_sane sane move
  | send j data => exact send_sane sane move
  | chunk j sent => exact chunk_sane sane ok move
  | receive j len expired => exact receive_sane sane move
  | close j => exact close_sane sane ok move
  | closed j expired => exact closed_sane sane move

theorem reached_sane (run : Reachable Fresh AckStep s) (i : Fin tcpMaxSockets) : (s.view i).Sane :=
  run.induct (fun s => (s.view i).Sane) (fun _ fresh => zero_sane (fresh.2 i) (fresh.1 i))
    fun _ _ sane ⟨_, ok, move⟩ => (step_sane sane ok move).1

/-- In every run in which no acknowledgement is out of place, every further such
step keeps the discipline. -/
theorem acks_disciplined (run : Reachable Fresh AckStep s) (ok : AckOk s op) (move : SocketMove s op t)
    (i : Fin tcpMaxSockets) : Disciplined s op t i := (step_sane (reached_sane run i) ok move).2

end Steps

section Forged

/-- A stack before its first connection. -/
def unused : Session where
  stack :=
    { tcp := { sockets := fun _ => zeroSocket, outbox := [] }
      nextEphemeralPort := firstEphemeralPort }
  phase := fun _ => .free
  syn := fun _ => 0
  fin := fun _ => 0

/-- A SYN to port 80 of host 1 has been sent, with sequence number 0. -/
def waiting : Session :=
  { setPhase unused 0 .connecting (tcpConnect (some (0, 2)) true 0 1 80 unused.stack).2 with
    syn := Function.update unused.syn 0 (initialSequence 0) }

theorem waiting_move : SocketMove unused (.connect (some (0, 2)) true 0 1 80) waiting := rfl

/-- A SYN and an acknowledgement of this number. -/
def answer (number : UInt8) : Bytes :=
  [0, 80, 0xC0, 0, 0, 0, 0, 9, 0, 0, 0, number, 0x50, 0x12, 0, 0, 0, 0, 0, 0]

def answered (number : UInt8) : Session :=
  { waiting with stack := { waiting.stack with tcp := tcpInput 0 0 1 waiting.stack.tcp (answer number) } }

theorem acks_disciplined_handshake : ((answered 1).socket 0).state = .established ∧
    Disciplined waiting (.arrive 0 0 1 (answer 1)) (answered 1) 0 := by
  have start : Reachable Fresh AckStep unused := .start ⟨fun _ => rfl, fun _ => rfl⟩
  have run : Reachable Fresh AckStep waiting := start.next ⟨.connect (some (0, 2)) true 0 1 80, trivial, waiting_move⟩
  have ok : AckOk waiting (.arrive 0 0 1 (answer 1)) := by
    rintro i ⟨-, -, found⟩ -
    have here : socketFind waiting.stack.tcp 1 (sourcePort (answer 1)) (destPort (answer 1)) = some 0 := by decide
    cases here.symm.trans found
    have state : (waiting.socket 0).state = .synSent := by decide
    rw [state]
    intro _
    decide
  exact ⟨by decide, acks_disciplined run ok rfl 0⟩

/-- A connection is established by an acknowledgement of a SYN never sent. -/
theorem forged_ack_establishes : ¬ ∀ (s t : Session) (op : SocketOp) (i : Fin tcpMaxSockets),
    Reachable Fresh (fun s t => ∃ op, SocketMove s op t) s → SocketMove s op t → Disciplined s op t i := by
  intro all
  have start : Reachable Fresh (fun s t => ∃ op, SocketMove s op t) unused := .start ⟨fun _ => rfl, fun _ => rfl⟩
  have disciplined := all waiting (answered 7) (.arrive 0 0 1 (answer 7)) 0 (start.next ⟨_, waiting_move⟩) rfl
  have before : (waiting.socket 0).state = .synSent := by decide
  have after : ((answered 7).socket 0).state = .established := by decide
  obtain ⟨now, iface, source, data, same, -, number⟩ := disciplined.establishes before after
  cases same
  exact absurd number (by decide)

end Forged

end Qito.Net
