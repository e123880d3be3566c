import Qito.Lib.Words
import Qito.Lib.Faults
import Qito.Net.Ephemeral
import Qito.Net.Packets

/-! The receive path of net/net.c and net/tcp.c. A frame is the list of its bytes; a read
behind its end and a write behind the end of a buffer are faults. What the loopback
interface sends is received at once, inside the call that sends it, and loop is that
reception. The clock stands still during a call. -/
namespace Qito.Net.Frames
open Faults Words

abbrev arpCacheSize : Nat := 16

inductive Fault where
  | outside
  | nested

structure ArpEntry where
  address : Nat
  mac : Mac
  expiresMs : Nat
  valid : Bool

structure Stack where
  ifaces : List NetInterface
  arp : Fin arpCacheSize → ArpEntry
  identification : Nat
  pingReceived : Bool
  pingExpect : Nat
  udp : UdpPending
  tcp : TcpStack

def Stack.socket (s : Stack) (i : Fin tcpMaxSockets) : TcpSocket := s.tcp.tcp.sockets i

def Stack.setSocket (s : Stack) (i : Fin tcpMaxSockets) (socket : TcpSocket) : Stack :=
  { s with tcp := { s.tcp with tcp := Net.setSocket s.tcp.tcp i socket } }

/-- Reads of a frame. -/
def getByte (frame : Bytes) (i : Nat) : Except Fault Nat :=
  if i < frame.length then .ok (byteAt frame i) else .error .outside

def get16 (frame : Bytes) (i : Nat) : Except Fault Nat :=
  if i + 2 ≤ frame.length then .ok (be16 frame i) else .error .outside

def get32 (frame : Bytes) (i : Nat) : Except Fault Nat :=
  if i + 4 ≤ frame.length then .ok (be32 frame i) else .error .outside

def getBytes (frame : Bytes) (i count : Nat) : Except Fault Bytes :=
  if i + count ≤ frame.length then .ok ((frame.drop i).take count) else .error .outside

def getMac (frame : Bytes) (i : Nat) : Except Fault Mac :=
  if inside : i + ethAlen ≤ frame.length then
    .ok ⟨(frame.drop i).take ethAlen, by rw [List.length_take, List.length_drop]; omega⟩
  else .error .outside

/-- Bytes written to the front of a buffer. -/
def fill (capacity : Nat) (bytes : Bytes) : Except Fault Unit :=
  if bytes.length ≤ capacity then .ok () else .error .outside

/-- The place of an address in the cache: its own, a free one or the first. -/
def arpSlot (s : Stack) (address : Nat) : Fin arpCacheSize :=
  match (List.finRange arpCacheSize).find? fun i => (s.arp i).valid && decide ((s.arp i).address = address) with
  | some i => i
  | none => ((List.finRange arpCacheSize).find? fun i => !(s.arp i).valid).getD 0

def arpCacheInsert (now address : Nat) (mac : Mac) (s : Stack) : Stack :=
  let entry : ArpEntry := { address := address, mac := mac, expiresMs := now + 120000, valid := true }
  { s with arp := Function.update s.arp (arpSlot s address) entry }

def arpCacheLookup (now address : Nat) (s : Stack) : Option Mac × Stack :=
  match (List.finRange arpCacheSize).find? fun i => (s.arp i).valid && decide ((s.arp i).address = address) with
  | none => (none, s)
  | some i =>
    if now > (s.arp i).expiresMs then (none, { s with arp := Function.update s.arp i { s.arp i with valid := false } })
    else (some (s.arp i).mac, s)

def zeroMac : Mac := ⟨List.replicate 6 0, rfl⟩

def broadcast : Mac := ⟨[0xFF, 0xFF, 0xFF, 0xFF, 0xFF, 0xFF], rfl⟩

def arpPacket (operation : Nat) (senderMac : Mac) (senderIp : Nat) (targetMac : Mac) (targetIp : Nat) : Bytes :=
  store16 (bswap16 1) ++ store16 (bswap16 ethertypeIpv4) ++ [UInt8.ofNat ethAlen, 4] ++ store16 (bswap16 operation) ++
    senderMac.bytes ++ store32 (bswap32 senderIp) ++ targetMac.bytes ++ store32 (bswap32 targetIp)

section Sending
variable (loop : Nat → Bytes → Stack → Except Fault Stack) (now : Nat)

def ethSend (n : Nat) (destination : Mac) (type : Nat) (payload : Bytes) (s : Stack) : Except Fault Stack :=
  match s.ifaces[n]? with
  | none => return s
  | some iface =>
    match ethFrame iface destination type payload with
    | none => return s
    | some frame => do
      fill (ethHeaderSize + netMtu) frame
      if iface.transmit = some .loopback then loop n frame s else return s

def netSendIpv4 (n destination protocol : Nat) (payload : Bytes) (s : Stack) : Except Fault Stack :=
  match s.ifaces[n]? with
  | none => return s
  | some iface =>
    if payload.length + ipv4HeaderSize > netMtu then return s
    else do
      let s := { s with identification := (s.identification + 1) % 2 ^ 16 }
      let packet := ipv4Packet iface.address s.identification destination protocol payload
      fill netMtu packet
      if iface.loopback then ethSend loop n iface.mac ethertypeIpv4 packet s
      else
        match arpCacheLookup now destination s with
        | (some mac, s) => ethSend loop n mac ethertypeIpv4 packet s
        | (none, s) => ethSend loop n broadcast ethertypeArp (arpPacket 1 iface.mac iface.address zeroMac destination) s

def tcpTransmit (i : Fin tcpMaxSockets) (flags : Nat) (payload : Bytes) (s : Stack) : Except Fault Stack := do
  let m := segmentOf (s.socket i) flags payload
  fill (tcpHeaderSize + tcpMss) (tcpSegment m)
  let s := { s with tcp := { s.tcp with tcp := { s.tcp.tcp with outbox := s.tcp.tcp.outbox ++ [m] } } }
  let s ← netSendIpv4 loop now m.iface m.remoteAddress ipProtoTcp (tcpSegment m) s
  let socket := s.socket i
  let sendNext := if has flags (tcpSyn ||| tcpFin) then wrap32 (socket.sendNext + 1) else socket.sendNext
  return s.setSocket i { socket with sendNext := wrap32 (sendNext + m.payload.length) }

def udpSend (n : Option Nat) (address port sourcePort : Nat) (data : Bytes) (s : Stack) : Except Fault Stack :=
  match n.bind fun n => s.ifaces[n]?.map fun iface => (n, iface) with
  | none => return s
  | some (n, iface) =>
    match udpDatagram iface.address address port sourcePort data with
    | none => return s
    | some datagram => do
      fill netMtu datagram
      netSendIpv4 loop now n address ipProtoUdp datagram s

end Sending

section Receiving
variable (loop : Nat → Bytes → Stack → Except Fault Stack) (now : Nat)

def arpHandle (n : Nat) (iface : NetInterface) (frame : Bytes) (arp : Nat) (s : Stack) : Except Fault Stack := do
  let hardwareType ← get16 frame arp
  let protocolType ← get16 frame (arp + 2)
  if hardwareType ≠ 1 ∨ protocolType ≠ ethertypeIpv4 then return s
  else
    let sender ← get32 frame (arp + 14)
    let target ← get32 frame (arp + 24)
    let senderMac ← getMac frame (arp + 8)
    let s := arpCacheInsert now sender senderMac s
    let operation ← get16 frame (arp + 6)
    if operation = 1 then
      if target ≠ iface.address then return s
      else ethSend loop n senderMac ethertypeArp (arpPacket 2 iface.mac iface.address senderMac sender) s
    else return s

def icmpHandle (n : Nat) (frame : Bytes) (ip payload len : Nat) (s : Stack) : Except Fault Stack :=
  if len < icmpHeaderSize then return s
  else do
    let type ← getByte frame payload
    if type = 8 then
      let request ← getBytes frame payload (min len netMtu)
      fill netMtu request
      let source ← get32 frame (ip + 12)
      netSendIpv4 loop now n source ipProtoIcmp (echoReply request) s
    else if type = 0 then
      let sequence ← get16 frame (payload + 6)
      return if sequence = s.pingExpect then { s with pingReceived := true } else s
    else return s

/-- In-order data is copied behind what is in the receive buffer. -/
def takePayload (i : Fin tcpMaxSockets) (sequence : Nat) (frame : Bytes) (payload len : Nat) (s : Stack) : Except Fault Stack :=
  let socket := s.socket i
  if sequence = socket.receiveNext then
    let copy := min len (sub64 tcpRxBuffer socket.receiveBuffer.length)
    if copy > 0 then do
      let bytes ← getBytes frame payload copy
      fill tcpRxBuffer (socket.receiveBuffer ++ bytes)
      return s.setSocket i { socket with
        receiveBuffer := socket.receiveBuffer ++ bytes
        receiveNext := wrap32 (socket.receiveNext + copy) }
    else return s
  else return s

/-- The payload of a segment, and an acknowledgement of whatever is now in order. -/
def inputPayload (i : Fin tcpMaxSockets) (sequence : Nat) (frame : Bytes) (payload len : Nat) (s : Stack) : Except Fault Stack :=
  if len > 0 then do
    let s ← takePayload i sequence frame payload len s
    tcpTransmit loop now i tcpAck [] s
  else return s

/-- tcp_input for an open connection. -/
def inputOpen (i : Fin tcpMaxSockets) (sequence acknowledgement flags : Nat) (frame : Bytes) (payload len : Nat) (s : Stack) :
    Except Fault Stack := do
  let s := if has flags tcpAck then
      s.setSocket i { s.socket i with
        sendUnack := acknowledgement
        pending := none
        retries := if (s.socket i).pending.isSome then 0 else (s.socket i).retries }
    else s
  let s ← inputPayload loop now i sequence frame payload len s
  if has flags tcpFin then
    tcpTransmit loop now i tcpAck [] (s.setSocket i { s.socket i with
      receiveNext := wrap32 (sequence + len + 1)
      state := .closeWait })
  else return s

def inputSynSent (i : Fin tcpMaxSockets) (sequence acknowledgement flags : Nat) (s : Stack) : Except Fault Stack :=
  if flags &&& (tcpSyn ||| tcpAck) = tcpSyn ||| tcpAck then
    tcpTransmit loop now i tcpAck [] (s.setSocket i { s.socket i with
      receiveNext := wrap32 (sequence + 1)
      sendUnack := acknowledgement
      state := .established })
  else return s

def inputFinWait (i : Fin tcpMaxSockets) (sequence flags : Nat) (s : Stack) : Except Fault Stack :=
  let s := if has flags tcpAck then s.setSocket i { s.socket i with state := .closed } else s
  if has flags tcpFin then do
    let s ← tcpTransmit loop now i tcpAck [] (s.setSocket i { s.socket i with receiveNext := wrap32 (sequence + 1) })
    return s.setSocket i { s.socket i with state := .closed }
  else return s

def tcpInput (n source : Nat) (frame : Bytes) (data len : Nat) (s : Stack) : Except Fault Stack :=
  if len < tcpHeaderSize then return s
  else do
    let sourcePort ← get16 frame data
    let destPort ← get16 frame (data + 2)
    let dataOffset ← getByte frame (data + 12)
    let headerLen := dataOffset / 16 * 4
    if headerLen < tcpHeaderSize ∨ headerLen > len then return s
    else
      let payload := data + headerLen
      let payloadLen := len - headerLen
      match socketFind s.tcp.tcp source sourcePort destPort with
      | none => return s
      | some i =>
        let window ← get16 frame (data + 14)
        let s := s.setSocket i { s.socket i with
          iface := n
          lastActivityMs := now
          remoteWindow := window }
        let sequence ← get32 frame (data + 4)
        let acknowledgement ← get32 frame (data + 8)
        let flags ← getByte frame (data + 13)
        if has flags tcpRst then return s.setSocket i { s.socket i with state := .closed }
        else
          match (s.socket i).state with
          | .synSent => inputSynSent loop now i sequence acknowledgement flags s
          | .established => inputOpen loop now i sequence acknowledgement flags frame payload payloadLen s
          | .closeWait => inputOpen loop now i sequence acknowledgement flags frame payload payloadLen s
          | .finWait => inputFinWait loop now i sequence flags s
          | .closed => return s

def udpInput (frame : Bytes) (data len : Nat) (s : Stack) : Except Fault Stack :=
  if len < udpHeaderSize then return s
  else do
    let destPort ← get16 frame (data + 2)
    let bodyLen := len - udpHeaderSize
    if s.udp.waiting && decide (s.udp.port = destPort) then
      let bytes ← getBytes frame (data + udpHeaderSize) (min bodyLen udpBuffer)
      fill udpBuffer bytes
      return { s with udp := { s.udp with waiting := false, buffer := bytes } }
    else return s

/-- The packet of an IPv4 frame. -/
def ipv4Receive (n : Nat) (frame : Bytes) (ip payloadLen : Nat) (s : Stack) : Except Fault Stack :=
  if payloadLen < ipv4HeaderSize then return s
  else do
    let versionIhl ← getByte frame ip
    let headerLen := versionIhl % 16 * 4
    if versionIhl / 16 ≠ 4 ∨ headerLen < ipv4HeaderSize then return s
    else
      let total ← get16 frame (ip + 2)
      if total > payloadLen ∨ total < headerLen then return s
      else
        let body := ip + headerLen
        let bodyLen := total - headerLen
        let protocol ← getByte frame (ip + 9)
        if protocol = ipProtoIcmp then icmpHandle loop now n frame ip body bodyLen s
        else if protocol = ipProtoTcp then
          let source ← get32 frame (ip + 12)
          tcpInput loop now n source frame body bodyLen s
        else if protocol = ipProtoUdp then udpInput frame body bodyLen s
        else return s

def receiveWith (n : Nat) (frame : Bytes) (s : Stack) : Except Fault Stack :=
  match s.ifaces[n]? with
  | none => return s
  | some iface =>
    if frame.length < ethHeaderSize then return s
    else do
      let payloadLen := frame.length - ethHeaderSize
      let type ← get16 frame 12
      if type = ethertypeArp then
        if payloadLen ≥ arpPacketSize then arpHandle loop now n iface frame ethHeaderSize s else return s
      else if type = ethertypeIpv4 then ipv4Receive loop now n frame ethHeaderSize payloadLen s
      else return s

end Receiving

/-- net_receive with so many receptions inside one another. -/
def netReceive (now : Nat) : Nat → Nat → Bytes → Stack → Except Fault Stack
  | 0 => fun _ _ _ => .error .nested
  | depth + 1 => receiveWith (netReceive now depth) now

section Calls
variable (loop : Nat → Bytes → Stack → Except Fault Stack) (now : Nat)

def Stack.defaultInterface (s : Stack) : Option Nat :=
  netDefaultInterface (s.ifaces.map fun f => { address := f.address, up := f.up, loopback := f.loopback })

/-- tcp_connect up to its wait. -/
def tcpConnect (memory : Bool) (address port : Nat) (s : Stack) : Except Fault Stack :=
  match s.defaultInterface.bind fun n => s.ifaces[n]?.map fun iface => (n, iface) with
  | none => return s
  | some (n, iface) =>
    match socketAllocate memory s.tcp with
    | (none, tcp) => return { s with tcp := tcp }
    | (some i, tcp) =>
      let s := { s with tcp := tcp }
      tcpTransmit loop now i tcpSyn [] (s.setSocket i { s.socket i with
        iface := n
        localAddress := iface.address
        remoteAddress := address
        remotePort := port
        sendNext := initialSequence now
        sendUnack := initialSequence now
        state := .synSent })

/-- tcp_close up to its wait. -/
def tcpClose (i : Fin tcpMaxSockets) (s : Stack) : Except Fault Stack :=
  match (s.socket i).state with
  | .established => do
    let s ← tcpTransmit loop now i (tcpFin ||| tcpAck) [] s
    return s.setSocket i { s.socket i with state := .finWait }
  | .closeWait => do
    let s ← tcpTransmit loop now i (tcpFin ||| tcpAck) [] s
    return { s with tcp := socketRelease s.tcp i }
  | _ => return { s with tcp := socketRelease s.tcp i }

/-- dns_resolve up to its wait, with this query. -/
def dnsQuery (server : Nat) (query : Bytes) (s : Stack) : Except Fault Stack :=
  let (port, tcp) := dnsSourcePort s.tcp
  udpSend loop now s.defaultInterface server 53 port query
    { s with tcp := tcp, udp := { waiting := true, port := port, buffer := [] } }

/-- The echo request of net_ping. -/
def pingRequest (sequence : Nat) : Bytes :=
  let icmp := [8, 0, 0, 0] ++ store16 (bswap16 0x9110) ++ store16 (bswap16 sequence) ++
    (List.range 56).map fun k => UInt8.ofNat (97 + (k + icmpHeaderSize) % 23)
  putAt icmp 2 (store16 (bswap16 (checksum16 icmp)))

def ping (n target sequence : Nat) (s : Stack) : Except Fault Stack :=
  netSendIpv4 loop now n target ipProtoIcmp (pingRequest sequence) { s with pingReceived := false, pingExpect := sequence }

end Calls

/-- What drivers and the users of the network do. -/
inductive Call where
  | receive (n : Nat) (frame : Bytes)
  | configure (ifaces : List NetInterface)
  | connect (memory : Bool) (address port : Nat)
  | chunk (i : Fin tcpMaxSockets) (data : Bytes)
  | take (i : Fin tcpMaxSockets) (len : Nat)
  | close (i : Fin tcpMaxSockets)
  | release (i : Fin tcpMaxSockets)
  | query (server : Nat) (data : Bytes)
  | giveUp
  | ping (n target sequence : Nat)

def runCall (now depth : Nat) (call : Call) (s : Stack) : Except Fault Stack :=
  let loop := netReceive now depth
  match call with
  | .receive n frame => netReceive now depth n frame s
  | .configure ifaces => return { s with ifaces := ifaces }
  | .connect memory address port => tcpConnect loop now memory address port s
  | .chunk i data => tcpTransmit loop now i (tcpAck ||| tcpPsh) data s
  | .take i len =>
    match tcpReceive s.tcp.tcp i len true with
    | none => return s
    | some (_, tcp) => return { s with tcp := { s.tcp with tcp := tcp } }
  | .close i => tcpClose loop now i s
  | .release i => return { s with tcp := socketRelease s.tcp i }
  | .query server data => dnsQuery loop now server data s
  | .giveUp => return { s with udp := { s.udp with waiting := false } }
  | .ping n target sequence => ping loop now n target sequence s

/-- No socket and no resolution has been begun. -/
def Booted (s : Stack) : Prop := (∀ i, s.socket i = zeroSocket) ∧ s.udp.waiting = false ∧ s.udp.buffer = []

def Step (depth : Nat) (s t : Stack) : Prop := ∃ now call, runCall now depth call s = .ok t

end Qito.Net.Frames
