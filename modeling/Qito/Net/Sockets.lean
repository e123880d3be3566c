import Qito.Net.Tcp

/-! The sending half of net/tcp.c: connecting, sending and closing. A call that
waits is cut where it waits; the interface is its number and its address. -/
namespace Qito.Net

abbrev tcpPsh : Nat := 0x08
abbrev tcpMss : Nat := 1400
abbrev firstEphemeralPort : Nat := 49152

structure TcpStack where
  tcp : TcpTable
  nextEphemeralPort : Nat

/-- What memset leaves of a socket. -/
def zeroSocket : TcpSocket where
  inUse := false
  state := .closed
  localAddress := 0
  remoteAddress := 0
  localPort := 0
  remotePort := 0
  sendNext := 0
  sendUnack := 0
  receiveNext := 0
  remoteWindow := 0
  receiveBuffer := []
  pending := none
  retries := 0
  lastActivityMs := 0
  iface := 0

/-- tcp_transmit with a payload. -/
def tcpTransmitData (t : TcpTable) (i : Fin tcpMaxSockets) (flags : Nat) (payload : Bytes) : TcpTable :=
  let payload := payload.take tcpMss
  let socket := t.sockets i
  let segment : Sent :=
    { localAddress := socket.localAddress
      remoteAddress := socket.remoteAddress
      iface := socket.iface
      sourcePort := socket.localPort
      destPort := socket.remotePort
      sequence := socket.sendNext
      acknowledgement := if has flags tcpAck then socket.receiveNext else 0
      flags := flags
      payload := payload }
  let sendNext := if has flags (tcpSyn ||| tcpFin) then wrap32 (socket.sendNext + 1) else socket.sendNext
  { sockets := Function.update t.sockets i { socket with sendNext := wrap32 (sendNext + payload.length) }
    outbox := t.outbox ++ [segment] }

def advancePort (port : Nat) : Nat :=
  if (port + 1) % 2 ^ 16 < firstEphemeralPort then firstEphemeralPort else (port + 1) % 2 ^ 16

/-- The first socket that is not in use; memory says whether its buffer can be
allocated. -/
def socketAllocate (memory : Bool) (s : TcpStack) : Option (Fin tcpMaxSockets) × TcpStack :=
  match (List.finRange tcpMaxSockets).find? fun i => !(s.tcp.sockets i).inUse with
  | none => (none, s)
  | some i =>
    if !memory then (none, { s with tcp := setSocket s.tcp i zeroSocket })
    else
      (some i,
        { tcp := setSocket s.tcp i { zeroSocket with inUse := true, localPort := s.nextEphemeralPort }
          nextEphemeralPort := advancePort s.nextEphemeralPort })

def socketRelease (s : TcpStack) (i : Fin tcpMaxSockets) : TcpStack :=
  if !(s.tcp.sockets i).inUse then s else { s with tcp := setSocket s.tcp i zeroSocket }

/-- The sequence number a connection starts with. -/
def initialSequence (now : Nat) : Nat := wrap32 (now * 2654435761)

/-- tcp_connect up to its wait for the peer. -/
def tcpConnect (iface : Option (Nat × Nat)) (memory : Bool) (now address port : Nat) (s : TcpStack) :
    Option (Fin tcpMaxSockets) × TcpStack :=
  match iface with
  | none => (none, s)
  | some (iface, localAddress) =>
    match socketAllocate memory s with
    | (none, s) => (none, s)
    | (some i, s) =>
      let tcp := setSocket s.tcp i { s.tcp.sockets i with
        iface := iface
        localAddress := localAddress
        remoteAddress := address
        remotePort := port
        sendNext := initialSequence now
        sendUnack := initialSequence now
        state := .synSent }
      (some i, { s with tcp := tcpTransmitData tcp i tcpSyn [] })

/-- tcp_connect after its wait. -/
def tcpConnectEnd (s : TcpStack) (i : Fin tcpMaxSockets) : Option (Fin tcpMaxSockets) × TcpStack :=
  if (s.tcp.sockets i).state ≠ .established then (none, socketRelease s i) else (some i, s)

/-- One round of the loop of tcp_send. -/
def tcpSendChunk (s : TcpStack) (i : Fin tcpMaxSockets) (rest : Bytes) : TcpStack :=
  { s with tcp := tcpTransmitData s.tcp i (tcpAck ||| tcpPsh) (rest.take tcpMss) }

/-- tcp_close up to its wait: true when it waits. -/
def tcpClose (s : TcpStack) (i : Fin tcpMaxSockets) : Bool × TcpStack :=
  match (s.tcp.sockets i).state with
  | .established =>
    let tcp := tcpTransmitData s.tcp i (tcpFin ||| tcpAck) []
    (true, { s with tcp := setSocket tcp i { tcp.sockets i with state := .finWait } })
  | .closeWait => (false, socketRelease { s with tcp := tcpTransmitData s.tcp i (tcpFin ||| tcpAck) [] } i)
  | _ => (false, socketRelease s i)

end Qito.Net
