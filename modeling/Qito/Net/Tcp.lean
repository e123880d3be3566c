import Qito.Lib.Lists
import Mathlib.Logic.Function.Basic
import Mathlib.Data.List.FinRange
import Mathlib.Tactic.Common

/-! The receiving half of net/tcp.c. The receive buffer of a socket is the list of
the bytes in it, receive_length its length; the packet counters and the log are
left out. A segment handed to net_send_ipv4 is kept in the outbox. -/
namespace Qito.Net

abbrev Bytes := List UInt8

abbrev tcpFin : Nat := 0x01
abbrev tcpSyn : Nat := 0x02
abbrev tcpRst : Nat := 0x04
abbrev tcpAck : Nat := 0x10

abbrev tcpWindow : Nat := 8192
abbrev tcpMaxSockets : Nat := 8
abbrev tcpRxBuffer : Nat := 16384
abbrev tcpHeaderSize : Nat := 20

instance : NeZero tcpMaxSockets := ⟨by decide⟩

inductive TcpState where
  | closed
  | synSent
  | established
  | finWait
  | closeWait
deriving DecidableEq

structure TcpSocket where
  inUse : Bool
  state : TcpState
  localAddress : Nat
  remoteAddress : Nat
  localPort : Nat
  remotePort : Nat
  sendNext : Nat
  sendUnack : Nat
  receiveNext : Nat
  remoteWindow : Nat
  receiveBuffer : Bytes
  pending : Option Bytes
  retries : Nat
  lastActivityMs : Nat
  iface : Nat

/-- What tcp_transmit puts into the header of a segment, its payload, the addresses
in the pseudo-header of its checksum and the interface it is handed to. -/
structure Sent where
  localAddress : Nat
  remoteAddress : Nat
  iface : Nat
  sourcePort : Nat
  destPort : Nat
  sequence : Nat
  acknowledgement : Nat
  flags : Nat
  payload : Bytes

structure TcpTable where
  sockets : Fin tcpMaxSockets → TcpSocket
  outbox : List Sent

def wrap32 (n : Nat) : Nat := n % 2 ^ 32

def has (flags bits : Nat) : Bool := flags &&& bits != 0

def byteAt (data : Bytes) (i : Nat) : Nat := (data.getD i 0).toNat

/-- Fields of a header in network byte order. -/
def be16 (data : Bytes) (i : Nat) : Nat := byteAt data i * 256 + byteAt data (i + 1)

def be32 (data : Bytes) (i : Nat) : Nat := be16 data i * 65536 + be16 data (i + 2)

def sourcePort (data : Bytes) : Nat := be16 data 0
def destPort (data : Bytes) : Nat := be16 data 2
def sequenceOf (data : Bytes) : Nat := be32 data 4
def acknowledgementOf (data : Bytes) : Nat := be32 data 8
def headerLen (data : Bytes) : Nat := byteAt data 12 / 16 * 4
def flagsOf (data : Bytes) : Nat := byteAt data 13
def windowOf (data : Bytes) : Nat := be16 data 14
def payloadOf (data : Bytes) : Bytes := data.drop (headerLen data)

def socketFind (t : TcpTable) (remote remotePort localPort : Nat) : Option (Fin tcpMaxSockets) :=
  (List.finRange tcpMaxSockets).find? fun i =>
    (t.sockets i).inUse && decide ((t.sockets i).localPort = localPort) &&
      decide ((t.sockets i).remoteAddress = remote) && decide ((t.sockets i).remotePort = remotePort)

def setSocket (t : TcpTable) (i : Fin tcpMaxSockets) (socket : TcpSocket) : TcpTable :=
  { t with sockets := Function.update t.sockets i socket }

/-- tcp_transmit without a payload, as the receive path calls it. -/
def tcpTransmit (t : TcpTable) (i : Fin tcpMaxSockets) (flags : Nat) : TcpTable :=
  let socket := t.sockets i
  let segment : Sent :=
    { localAddress := socket.localAddress
      remoteAddress := socket.remoteAddress
      iface := socket.iface
      sourcePort := socket.localPort
      destPort := socket.remotePort
      sequence := socket.sendNext
      acknowledgement := if has flags tcpAck then socket.receiveNext else 0
      flags := flags
      payload := [] }
  let sendNext := if has flags (tcpSyn ||| tcpFin) then wrap32 (socket.sendNext + 1) else socket.sendNext
  { sockets := Function.update t.sockets i { socket with sendNext := sendNext }
    outbox := t.outbox ++ [segment] }

/-- Take in-order payload into the receive buffer as far as there is space. -/
def accept (socket : TcpSocket) (sequence : Nat) (payload : Bytes) : TcpSocket :=
  if sequence = socket.receiveNext then
    let copy := min payload.length (tcpRxBuffer - socket.receiveBuffer.length)
    { socket with
      receiveBuffer := socket.receiveBuffer ++ payload.take copy
      receiveNext := wrap32 (socket.receiveNext + copy) }
  else socket

/-- The part of tcp_input for an open connection. -/
def inputOpen (t : TcpTable) (i : Fin tcpMaxSockets) (data : Bytes) : TcpTable :=
  let flags := flagsOf data
  let payload := payloadOf data
  let t := if has flags tcpAck then
      setSocket t i { t.sockets i with
        sendUnack := acknowledgementOf data
        pending := none
        retries := if (t.sockets i).pending.isSome then 0 else (t.sockets i).retries }
    else t
  let t := if payload.length > 0 then
      tcpTransmit (setSocket t i (accept (t.sockets i) (sequenceOf data) payload)) i tcpAck
    else t
  if has flags tcpFin then
    tcpTransmit (setSocket t i { t.sockets i with
      receiveNext := wrap32 (sequenceOf data + payload.length + 1)
      state := .closeWait }) i tcpAck
  else t

def inputSynSent (t : TcpTable) (i : Fin tcpMaxSockets) (data : Bytes) : TcpTable :=
  if flagsOf data &&& (tcpSyn ||| tcpAck) = tcpSyn ||| tcpAck then
    tcpTransmit (setSocket t i { t.sockets i with
      receiveNext := wrap32 (sequenceOf data + 1)
      sendUnack := acknowledgementOf data
      state := .established }) i tcpAck
  else t

def inputFinWait (t : TcpTable) (i : Fin tcpMaxSockets) (data : Bytes) : TcpTable :=
  let t := if has (flagsOf data) tcpAck then setSocket t i { t.sockets i with state := .closed } else t
  if has (flagsOf data) tcpFin then
    let t := tcpTransmit (setSocket t i { t.sockets i with receiveNext := wrap32 (sequenceOf data + 1) }) i tcpAck
    setSocket t i { t.sockets i with state := .closed }
  else t

def tcpInput (now iface source : Nat) (t : TcpTable) (data : Bytes) : TcpTable :=
  if data.length < tcpHeaderSize then t
  else if headerLen data < tcpHeaderSize ∨ headerLen data > data.length then t
  else
    match socketFind t source (sourcePort data) (destPort data) with
    | none => t
    | some i =>
      let t := setSocket t i { t.sockets i with
        iface := iface
        lastActivityMs := now
        remoteWindow := windowOf data }
      if has (flagsOf data) tcpRst then setSocket t i { t.sockets i with state := .closed }
      else
        match (t.sockets i).state with
        | .synSent => inputSynSent t i data
        | .established => inputOpen t i data
        | .closeWait => inputOpen t i data
        | .finWait => inputFinWait t i data
        | .closed => t

/-- tcp_receive at the moment it returns: the bytes it hands out. It goes on
waiting (none) while the buffer is empty, the connection open and the deadline
not reached. -/
@[grind =]
def tcpReceive (t : TcpTable) (i : Fin tcpMaxSockets) (len : Nat) (expired : Bool) : Option (Bytes × TcpTable) :=
  let socket := t.sockets i
  if socket.receiveBuffer.length = 0 then
    if socket.state = .closed ∨ socket.state = .closeWait ∨ expired then some ([], t) else none
  else
    let copy := min len socket.receiveBuffer.length
    some (socket.receiveBuffer.take copy,
      setSocket t i { socket with receiveBuffer := socket.receiveBuffer.drop copy })

end Qito.Net
