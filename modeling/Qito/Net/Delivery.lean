import Qito.Lib.Runs
import Qito.Net.Tcp

/-! What tcp_receive hands out against what the peer sent. A FIN is taken wherever
it stands in the stream, so the end of the stream can be reported early; segments
that come in after everything before them are delivered in order, once. -/
namespace Qito.Net
open Runs

/-- The peer of a connection: its stream, the sequence number of the first byte,
and the addresses its segments carry. -/
structure Peer where
  stream : Bytes
  base : Nat
  address : Nat
  port : Nat
  localPort : Nat

/-- The segment carries the bytes of the stream from offset on; a FIN stands
behind the last byte. -/
structure Carries (peer : Peer) (offset : Nat) (data : Bytes) : Prop where
  whole : tcpHeaderSize ≤ headerLen data ∧ headerLen data ≤ data.length
  source : sourcePort data = peer.port
  dest : destPort data = peer.localPort
  sequence : sequenceOf data = wrap32 (peer.base + offset)
  inside : offset + (payloadOf data).length ≤ peer.stream.length
  payload : payloadOf data = (peer.stream.drop offset).take (payloadOf data).length
  fin : has (flagsOf data) tcpFin = true → offset + (payloadOf data).length = peer.stream.length
  noReset : has (flagsOf data) tcpRst = false

instance (peer : Peer) (offset : Nat) (data : Bytes) : Decidable (Carries peer offset data) :=
  decidable_of_iff
    ((tcpHeaderSize ≤ headerLen data ∧ headerLen data ≤ data.length) ∧ sourcePort data = peer.port ∧
      destPort data = peer.localPort ∧ sequenceOf data = wrap32 (peer.base + offset) ∧
      offset + (payloadOf data).length ≤ peer.stream.length ∧
      payloadOf data = (peer.stream.drop offset).take (payloadOf data).length ∧
      (has (flagsOf data) tcpFin = true → offset + (payloadOf data).length = peer.stream.length) ∧
      has (flagsOf data) tcpRst = false)
    ⟨fun ⟨a, b, c, d, e, f, g, h⟩ => ⟨a, b, c, d, e, f, g, h⟩, fun ⟨a, b, c, d, e, f, g, h⟩ => ⟨a, b, c, d, e, f, g, h⟩⟩

/-- The socket table and the bytes handed out so far. -/
structure Link where
  tcp : TcpTable
  out : Bytes

variable (peer : Peer) (i : Fin tcpMaxSockets)

/-- The bytes taken from the stream so far. -/
def received (p : Link) : Bytes := p.out ++ (p.tcp.sockets i).receiveBuffer

/-- An established connection before the first byte. -/
def Opening (p : Link) : Prop :=
  socketFind p.tcp peer.address peer.port peer.localPort = some i ∧ (p.tcp.sockets i).state = .established ∧
    (p.tcp.sockets i).receiveNext = wrap32 peer.base ∧ (p.tcp.sockets i).receiveBuffer = [] ∧ p.out = []

inductive NetOp where
  | arrive (now iface offset : Nat) (data : Bytes)
  | receive (len : Nat) (expired : Bool)

/-- A segment of the peer comes in, or a tcp_receive returns. -/
def NetMove (p : Link) (op : NetOp) (q : Link) : Prop :=
  match op with
  | .arrive now iface offset data =>
    Carries peer offset data ∧ q = { p with tcp := tcpInput now iface peer.address p.tcp data }
  | .receive len expired => ∃ bytes, tcpReceive p.tcp i len expired = some (bytes, q.tcp) ∧ q.out = p.out ++ bytes

/-- The segment does not stand for other bytes than those expected next, and a
FIN finds everything before it taken, or brings the rest of it. -/
def ArriveOk (p : Link) (offset : Nat) (data : Bytes) : Prop :=
  (payloadOf data ≠ [] → sequenceOf data = (p.tcp.sockets i).receiveNext → offset = (received i p).length) ∧
  (has (flagsOf data) tcpFin = true → (received i p).length = peer.stream.length ∨
    offset = (received i p).length ∧
      (payloadOf data).length ≤ tcpRxBuffer - (p.tcp.sockets i).receiveBuffer.length)

/-- A call for no bytes returns 0 as well, whatever waits in the buffer. -/
def NetOk (p : Link) : NetOp → Prop
  | .arrive _ _ offset data => ArriveOk peer i p offset data
  | .receive len _ => len = 0 → (p.tcp.sockets i).state = .closeWait → (p.tcp.sockets i).receiveBuffer = []

def NetStep (p q : Link) : Prop := ∃ op, NetOk peer i p op ∧ NetMove peer i p op q

/-- What has been handed out is in order, also by a tcp_receive that returns now,
and this one reports the end of the stream (0 in TCP_CLOSE_WAIT) only after all
of it. -/
def Delivered (p : Link) (len : Nat) (expired : Bool) : Prop :=
  p.out <+: peer.stream ∧ ∀ bytes t, tcpReceive p.tcp i len expired = some (bytes, t) →
    p.out ++ bytes <+: peer.stream ∧ (bytes = [] → (p.tcp.sockets i).state = .closeWait → p.out = peer.stream)

section Input
variable {t : TcpTable} {j : Fin tcpMaxSockets} {data : Bytes}

/-- What socket_find looks at. -/
@[grind =]
def TcpSocket.key (s : TcpSocket) : Bool × Nat × Nat × Nat := (s.inUse, s.localPort, s.remoteAddress, s.remotePort)

theorem socketFind_congr {t' : TcpTable} (same : ∀ j, (t'.sockets j).key = (t.sockets j).key) (a b c : Nat) :
    socketFind t' a b c = socketFind t a b c := by
  have fields (j : Fin tcpMaxSockets) : (t'.sockets j).inUse = (t.sockets j).inUse ∧
      (t'.sockets j).localPort = (t.sockets j).localPort ∧ (t'.sockets j).remoteAddress = (t.sockets j).remoteAddress ∧
      (t'.sockets j).remotePort = (t.sockets j).remotePort := by
    have whole := same j
    simp only [TcpSocket.key, Prod.mk.injEq] at whole
    exact whole
  simp only [socketFind, fields]

@[simp] theorem setSocket_same (s : TcpSocket) : (setSocket t j s).sockets j = s := by simp [setSocket]

@[simp] theorem setSocket_other {k : Fin tcpMaxSockets} (ne : k ≠ j) (s : TcpSocket) :
    (setSocket t j s).sockets k = t.sockets k := by
  simp [setSocket, ne]

@[simp] theorem tcpTransmit_other {k : Fin tcpMaxSockets} (ne : k ≠ j) (flags : Nat) :
    (tcpTransmit t j flags).sockets k = t.sockets k := by
  simp [tcpTransmit, ne]

/-- The receiving side of a socket. -/
structure Side where
  key : Bool × Nat × Nat × Nat
  state : TcpState
  next : Nat
  buffer : Bytes

@[grind =] def TcpSocket.side (s : TcpSocket) : Side where
  key := s.key
  state := s.state
  next := s.receiveNext
  buffer := s.receiveBuffer

theorem tcpTransmit_side (flags : Nat) : ((tcpTransmit t j flags).sockets j).side = (t.sockets j).side := by
  simp [tcpTransmit, TcpSocket.side, TcpSocket.key]

/-- In-order payload, taken as far as there is space. -/
@[grind =] def Side.take (s : Side) (sequence : Nat) (payload : Bytes) : Side :=
  if sequence = s.next then
    let copy := min payload.length (tcpRxBuffer - s.buffer.length)
    { s with buffer := s.buffer ++ payload.take copy, next := wrap32 (s.next + copy) }
  else s

@[grind =] def Side.finish (s : Side) (data : Bytes) : Side :=
  if has (flagsOf data) tcpFin then
    { s with next := wrap32 (sequenceOf data + (payloadOf data).length + 1), state := .closeWait }
  else s

@[simp] theorem take_key (s : Side) (sequence : Nat) (payload : Bytes) : (s.take sequence payload).key = s.key := by
  rw [Side.take]
  split
  · rfl
  · rfl

@[simp] theorem finish_key (s : Side) : (s.finish data).key = s.key := by
  rw [Side.finish]
  split
  · rfl
  · rfl

theorem accept_side (s : TcpSocket) (sequence : Nat) (payload : Bytes) :
    (accept s sequence payload).side = s.side.take sequence payload := by
  by_cases expected : sequence = s.receiveNext
  · simp [accept, Side.take, TcpSocket.side, TcpSocket.key, expected]
  · simp [accept, Side.take, TcpSocket.side, expected]

theorem inputOpen_side : ((inputOpen t j data).sockets j).side =
    ((if (payloadOf data).length > 0 then (t.sockets j).side.take (sequenceOf data) (payloadOf data)
      else (t.sockets j).side).finish data) := by
  let acked := if has (flagsOf data) tcpAck then
      setSocket t j { t.sockets j with
        sendUnack := acknowledgementOf data
        pending := none
        retries := if (t.sockets j).pending.isSome then 0 else (t.sockets j).retries }
    else t
  have first : (acked.sockets j).side = (t.sockets j).side := by
    simp only [acked]
    split
    · simp [TcpSocket.side, TcpSocket.key]
    · rfl
  let taken := if (payloadOf data).length > 0 then
      tcpTransmit (setSocket acked j (accept (acked.sockets j) (sequenceOf data) (payloadOf data))) j tcpAck
    else acked
  have second : (taken.sockets j).side =
      if (payloadOf data).length > 0 then (t.sockets j).side.take (sequenceOf data) (payloadOf data)
      else (t.sockets j).side := by
    simp only [taken]
    split
    · rw [tcpTransmit_side, setSocket_same, accept_side, first]
    · exact first
  rw [← second]
  change ((if has (flagsOf data) tcpFin then tcpTransmit (setSocket taken j { taken.sockets j with
      receiveNext := wrap32 (sequenceOf data + (payloadOf data).length + 1)
      state := .closeWait }) j tcpAck else taken).sockets j).side = _
  rw [Side.finish]
  split
  · rw [tcpTransmit_side, setSocket_same]
    rfl
  · rfl

theorem inputOpen_other {k : Fin tcpMaxSockets} (ne : k ≠ j) : (inputOpen t j data).sockets k = t.sockets k := by
  simp only [inputOpen]
  split <;> split <;> split <;> simp [ne]

end Input

section Connection
variable {peer i} {p : Link} {s : Side} {out data : Bytes} {offset : Nat}

theorem wrap32_add (n k : Nat) : wrap32 (wrap32 n + k) = wrap32 (n + k) := by
  simp [wrap32]

/-- The part of the stream taken so far, and what is expected next. -/
structure Side.Agrees (peer : Peer) (out : Bytes) (s : Side) : Prop where
  taken : out ++ s.buffer <+: peer.stream
  expects : s.state = .established ∧ s.next = wrap32 (peer.base + (out ++ s.buffer).length) ∨
    s.state = .closeWait ∧ out ++ s.buffer = peer.stream ∧ s.next = wrap32 (peer.base + peer.stream.length + 1)

structure InOrder (peer : Peer) (i : Fin tcpMaxSockets) (p : Link) : Prop where
  found : socketFind p.tcp peer.address peer.port peer.localPort = some i
  agrees : (p.tcp.sockets i).side.Agrees peer p.out

theorem opening_inOrder (opening : Opening peer i p) : InOrder peer i p := by
  obtain ⟨found, state, next, buffer, out⟩ := opening
  have nothing : p.out ++ (p.tcp.sockets i).side.buffer = [] := by
    rw [TcpSocket.side, buffer, out, List.nil_append]
  refine ⟨found, by rw [nothing]; exact List.nil_prefix, Or.inl ⟨state, ?_⟩⟩
  rw [nothing, List.length_nil, Nat.add_zero]
  exact next

theorem take_grows (sequence : Nat) (payload : Bytes) : s.buffer <+: (s.take sequence payload).buffer := by
  rw [Side.take]
  split
  · exact List.prefix_append _ _
  · exact List.prefix_refl _

theorem take_fits {payload : Bytes} (fits : payload.length ≤ tcpRxBuffer - s.buffer.length) :
    (s.take s.next payload).buffer = s.buffer ++ payload := by
  simp only [Side.take, if_true, Nat.min_eq_left fits, List.take_length]

theorem take_agrees (agrees : s.Agrees peer out) (carries : Carries peer offset data) (some_ : payloadOf data ≠ [])
    (place : sequenceOf data = s.next → offset = (out ++ s.buffer).length) :
    (s.take (sequenceOf data) (payloadOf data)).Agrees peer out := by
  rw [Side.take]
  split
  case isFalse => exact agrees
  case isTrue expected =>
    have here := place expected
    obtain ⟨rest, whole⟩ := agrees.taken
    have remaining : peer.stream.drop offset = rest := by rw [← whole, here, List.drop_left]
    have payload := carries.payload
    rw [remaining] at payload
    let copy := min (payloadOf data).length (tcpRxBuffer - s.buffer.length)
    have length : ((payloadOf data).take copy).length = copy := by
      rw [List.length_take]
      exact Nat.min_eq_left (Nat.min_le_left _ _)
    refine ⟨?_, Or.inl ?_⟩
    · rw [← whole, ← List.append_assoc, List.prefix_append_right_inj, payload]
      exact (List.take_prefix _ _).trans (List.take_prefix _ _)
    · rcases agrees.expects with ⟨state, next⟩ | ⟨-, all, -⟩
      · refine ⟨state, ?_⟩
        change wrap32 (s.next + copy) = wrap32 (peer.base + (out ++ (s.buffer ++ (payloadOf data).take copy)).length)
        have total : (out ++ (s.buffer ++ (payloadOf data).take copy)).length = (out ++ s.buffer).length + copy := by
          rw [← List.append_assoc, List.length_append, length]
        rw [next, wrap32_add, total, Nat.add_assoc]
      · -- nothing of the stream is left, so there is no payload either
        have inside := carries.inside
        rw [here, all] at inside
        exact absurd (List.eq_nil_of_length_eq_zero (by omega)) some_

theorem finish_agrees (agrees : s.Agrees peer out) (carries : Carries peer offset data)
    (all : has (flagsOf data) tcpFin = true → out ++ s.buffer = peer.stream) : (s.finish data).Agrees peer out := by
  rw [Side.finish]
  split
  case isFalse => exact agrees
  case isTrue fin =>
    refine ⟨agrees.taken, Or.inr ⟨rfl, all fin, ?_⟩⟩
    change wrap32 (sequenceOf data + (payloadOf data).length + 1) = _
    rw [carries.sequence, Nat.add_assoc, wrap32_add, ← carries.fin fin]
    congr 1
    omega

theorem tcpInput_side (now iface : Nat) (order : InOrder peer i p) (carries : Carries peer offset data) :
    socketFind (tcpInput now iface peer.address p.tcp data) peer.address peer.port peer.localPort = some i ∧
    ((tcpInput now iface peer.address p.tcp data).sockets i).side =
      ((if (payloadOf data).length > 0 then (p.tcp.sockets i).side.take (sequenceOf data) (payloadOf data)
        else (p.tcp.sockets i).side).finish data) := by
  have long : ¬ data.length < tcpHeaderSize := Nat.not_lt.mpr (Nat.le_trans carries.whole.1 carries.whole.2)
  have whole : ¬ (headerLen data < tcpHeaderSize ∨ headerLen data > data.length) := by
    rintro (short | beyond)
    · exact Nat.not_lt.mpr carries.whole.1 short
    · exact Nat.not_lt.mpr carries.whole.2 beyond
  let seen := setSocket p.tcp i { p.tcp.sockets i with
    iface := iface
    lastActivityMs := now
    remoteWindow := windowOf data }
  have run : tcpInput now iface peer.address p.tcp data = inputOpen seen i data := by
    have found : socketFind p.tcp peer.address (sourcePort data) (destPort data) = some i := by
      rw [carries.source, carries.dest]
      exact order.found
    have state : (p.tcp.sockets i).state = .established ∨ (p.tcp.sockets i).state = .closeWait :=
      order.agrees.expects.imp And.left And.left
    rcases state with state | state
    · simp [tcpInput, long, whole, found, carries.noReset, state, seen]
    · simp [tcpInput, long, whole, found, carries.noReset, state, seen]
  have side : (seen.sockets i).side = (p.tcp.sockets i).side := by
    simp [seen, TcpSocket.side, TcpSocket.key]
  rw [run, inputOpen_side, side]
  refine ⟨?_, rfl⟩
  rw [← order.found]
  apply socketFind_congr
  intro j
  by_cases same : j = i
  · subst j
    have key : ((inputOpen seen i data).sockets i).side.key = _ := congrArg Side.key inputOpen_side
    rw [finish_key, apply_ite Side.key, take_key, ite_self, side] at key
    exact key
  · rw [inputOpen_other same]
    simp [seen, same]

theorem arrive_inOrder {now iface : Nat} (order : InOrder peer i p) (carries : Carries peer offset data)
    (ok : ArriveOk peer i p offset data) :
    InOrder peer i { p with tcp := tcpInput now iface peer.address p.tcp data } := by
  obtain ⟨found, side⟩ := tcpInput_side now iface order carries
  refine ⟨found, ?_⟩
  change Side.Agrees peer p.out ((tcpInput now iface peer.address p.tcp data).sockets i).side
  rw [side]
  by_cases empty : payloadOf data = []
  · rw [if_neg (by simp [empty])]
    refine finish_agrees order.agrees carries fun fin => order.agrees.taken.eq_of_length ?_
    have last := carries.fin fin
    rw [empty, List.length_nil, Nat.add_zero] at last
    rcases ok.2 fin with all | ⟨here, -⟩
    · exact all
    · exact here.symm.trans last
  · rw [if_pos (List.length_pos_of_ne_nil empty)]
    have taken := take_agrees order.agrees carries empty (ok.1 empty)
    refine finish_agrees taken carries fun fin => taken.taken.eq_of_length ?_
    have grows := (List.prefix_append_right_inj p.out).mpr
      (take_grows (s := (p.tcp.sockets i).side) (sequenceOf data) (payloadOf data))
    have complete (all : (received i p).length = peer.stream.length) :
        (p.out ++ ((p.tcp.sockets i).side.take (sequenceOf data) (payloadOf data)).buffer).length = peer.stream.length :=
      Nat.le_antisymm taken.taken.length_le (Nat.le_trans (Nat.le_of_eq all.symm) grows.length_le)
    rcases ok.2 fin with all | ⟨here, fits⟩
    · exact complete all
    · rcases order.agrees.expects with ⟨-, next⟩ | ⟨-, all, -⟩
      · have expected : sequenceOf data = (p.tcp.sockets i).side.next := by
          rw [next, carries.sequence, here]
          rfl
        rw [expected, take_fits fits, ← List.append_assoc, List.length_append, ← carries.fin fin, here]
        rfl
      · exact complete (congrArg List.length all)

theorem tcpReceive_side {t t' : TcpTable} {len : Nat} {expired : Bool} {bytes : Bytes}
    (run : tcpReceive t i len expired = some (bytes, t')) :
    (∀ j, (t'.sockets j).key = (t.sockets j).key) ∧ (t'.sockets i).state = (t.sockets i).state ∧
    (t'.sockets i).receiveNext = (t.sockets i).receiveNext ∧
    bytes ++ (t'.sockets i).receiveBuffer = (t.sockets i).receiveBuffer := by
  rw [tcpReceive] at run
  split at run
  · split at run
    · cases run
      exact ⟨fun _ => rfl, rfl, rfl, rfl⟩
    · cases run
  · cases run
    refine ⟨fun j => ?_, by rw [setSocket_same], by rw [setSocket_same], ?_⟩
    · by_cases same : j = i
      · subst j
        rw [setSocket_same]
        rfl
      · rw [setSocket_other same]
    · rw [setSocket_same]
      exact List.take_append_drop _ _

theorem receive_inOrder {q : Link} {len : Nat} {expired : Bool} (order : InOrder peer i p)
    (move : NetMove peer i p (.receive len expired) q) : InOrder peer i q := by
  obtain ⟨bytes, run, out⟩ := move
  obtain ⟨keys, state, next, buffer⟩ := tcpReceive_side run
  have same : q.out ++ (q.tcp.sockets i).side.buffer = p.out ++ (p.tcp.sockets i).side.buffer := by
    rw [out, List.append_assoc]
    exact congrArg (p.out ++ ·) buffer
  refine ⟨(socketFind_congr keys _ _ _).trans order.found, ?_, ?_⟩
  · rw [same]
    exact order.agrees.taken
  · rw [same]
    change (q.tcp.sockets i).state = _ ∧ (q.tcp.sockets i).receiveNext = _ ∨
      (q.tcp.sockets i).state = _ ∧ _ ∧ (q.tcp.sockets i).receiveNext = _
    rw [state, next]
    exact order.agrees.expects

theorem step_inOrder {q : Link} (order : InOrder peer i p) (step : NetStep peer i p q) : InOrder peer i q := by
  obtain ⟨op, ok, move⟩ := step
  cases op with
  | arrive now iface offset data =>
    obtain ⟨carries, rfl⟩ := move
    exact arrive_inOrder order carries ok
  | receive len expired => exact receive_inOrder order move

theorem reachable_inOrder (run : Reachable (Opening peer i) (NetStep peer i) p) : InOrder peer i p :=
  run.induct (InOrder peer i) (fun _ opening => opening_inOrder opening) fun _ _ order step => step_inOrder order step

theorem tcpReceive_nil {t t' : TcpTable} {len : Nat} {expired : Bool}
    (run : tcpReceive t i len expired = some ([], t')) : len = 0 ∨ (t.sockets i).receiveBuffer = [] := by
  rw [tcpReceive] at run
  split at run
  case isTrue empty => exact Or.inr (List.eq_nil_of_length_eq_zero empty)
  case isFalse =>
    have none_ := congrArg List.length (congrArg Prod.fst (Option.some.inj run))
    rw [List.length_take, List.length_nil] at none_
    omega

end Connection

section Ordered
variable {peer i} {p : Link}

end Ordered

section Overtaken

def twoBytes : Peer where
  stream := [7, 8]
  base := 100
  address := 1
  port := 80
  localPort := 5000

/-- A connection to this peer in the first socket. -/
def connected : Link where
  tcp := {
    sockets := fun j =>
      { inUse := j == 0
        state := .established
        localAddress := 2
        remoteAddress := 1
        localPort := 5000
        remotePort := 80
        sendNext := 1
        sendUnack := 1
        receiveNext := 100
        remoteWindow := tcpWindow
        receiveBuffer := []
        pending := none
        retries := 0
        lastActivityMs := 0
        iface := 0 }
    outbox := [] }
  out := []

theorem connected_opening : Opening twoBytes 0 connected := by
  refine ⟨?_, rfl, ?_, rfl, rfl⟩
  · decide
  · decide

def segment (sequence flags : UInt8) (payload : Bytes) : Bytes :=
  [0, 80, 0x13, 0x88, 0, 0, 0, sequence, 0, 0, 0, 0, 0x50, flags, 0, 0, 0, 0, 0, 0] ++ payload

end Overtaken

end Qito.Net
