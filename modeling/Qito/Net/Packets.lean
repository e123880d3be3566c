import Qito.Lib.OnesComplement
import Qito.Net.Binding
import Qito.Net.Dns

/-! The bytes that net/net.c and net/tcp.c put on the wire. A field is stored in the
order of the machine, low byte first, after its bytes have been swapped. -/
namespace Qito.Net.Frames
open OnesComplement

abbrev ethAlen : Nat := 6
abbrev ethHeaderSize : Nat := 14
abbrev icmpHeaderSize : Nat := 8
abbrev arpPacketSize : Nat := 28
abbrev ethertypeIpv4 : Nat := 0x0800
abbrev ethertypeArp : Nat := 0x0806
abbrev ipProtoIcmp : Nat := 1
abbrev ipProtoTcp : Nat := 6
abbrev ipProtoUdp : Nat := 17

structure Mac where
  bytes : Bytes
  six : bytes.length = ethAlen

/-- How the frames of an interface leave. -/
inductive Transmit where
  | loopback
  | driver
deriving DecidableEq

/-- Only the loopback interface sends through loopback_transmit. -/
structure NetInterface where
  mac : Mac
  address : Nat
  up : Bool
  loopback : Bool
  transmit : Option Transmit
  looped : transmit = some .loopback → loopback = true

def bswap16 (value : Nat) : Nat := (value <<< 8 ||| value >>> 8) % 2 ^ 16

def bswap32 (value : Nat) : Nat :=
  (value &&& 0x000000FF) <<< 24 ||| (value &&& 0x0000FF00) <<< 8 ||| (value &&& 0x00FF0000) >>> 8 |||
    (value &&& 0xFF000000) >>> 24

def store16 (value : Nat) : Bytes := [UInt8.ofNat value, UInt8.ofNat (value >>> 8)]

def store32 (value : Nat) : Bytes := store16 value ++ store16 (value >>> 16)

/-- The loop of checksum16 over the words. -/
def addWords : Bytes → Nat → Nat
  | a :: b :: rest, sum => addWords rest (wrap32 (sum + (a.toNat * 256 + b.toNat)))
  | [a], sum => wrap32 (sum + a.toNat * 256)
  | [], sum => sum

/-- while (sum >> 16) sum = (sum & 0xFFFF) + (sum >> 16) -/
def foldSum (sum : Nat) : Nat :=
  if sum / 65536 = 0 then sum else foldSum (sum % 65536 + sum / 65536)
termination_by sum
decreasing_by omega

def checksum16 (data : Bytes) : Nat := 65535 - foldSum (addWords data 0)

/-- The bytes of a packet replaced from a place on. -/
def putAt (bytes : Bytes) (place : Nat) (new : Bytes) : Bytes :=
  bytes.take place ++ new ++ bytes.drop (place + new.length)

def ethBytes (iface : NetInterface) (destination : Mac) (type : Nat) (payload : Bytes) : Bytes :=
  destination.bytes ++ iface.mac.bytes ++ store16 (bswap16 type) ++ payload

/-- The frame that eth_send hands to the interface. -/
def ethFrame (iface : NetInterface) (destination : Mac) (type : Nat) (payload : Bytes) : Option Bytes :=
  if !iface.up || iface.transmit.isNone then none
  else if payload.length > netMtu then none
  else
    let frame := ethBytes iface destination type payload
    some (frame ++ List.replicate (60 - frame.length) 0)

def ipv4Header (source identification destination protocol len checksum : Nat) : Bytes :=
  [0x45, 0] ++ store16 (bswap16 ((ipv4HeaderSize + len) % 2 ^ 16)) ++ store16 (bswap16 identification) ++ [0, 0] ++
    [64, UInt8.ofNat protocol] ++ store16 checksum ++ store32 (bswap32 source) ++ store32 (bswap32 destination)

def ipv4Packet (source identification destination protocol : Nat) (payload : Bytes) : Bytes :=
  let header := ipv4Header source identification destination protocol payload.length
  header (bswap16 (checksum16 (header 0))) ++ payload

/-- The frame of net_send_ipv4 once the next hop is known. -/
def ipv4Frame (iface : NetInterface) (hop : Mac) (identification destination protocol : Nat) (payload : Bytes) :
    Option Bytes :=
  if payload.length + ipv4HeaderSize > netMtu then none
  else ethFrame iface hop ethertypeIpv4 (ipv4Packet iface.address identification destination protocol payload)

/-- The reply that icmp_handle makes of a request. -/
def echoReply (request : Bytes) : Bytes :=
  let reply := putAt (putAt (request.take netMtu) 0 [0]) 2 (store16 0)
  putAt reply 2 (store16 (bswap16 (checksum16 reply)))

def pseudoHeader (source destination protocol len : Nat) : Bytes :=
  store32 (bswap32 source) ++ store32 (bswap32 destination) ++ [0, UInt8.ofNat protocol] ++
    store16 (bswap16 (len % 2 ^ 16))

def transportChecksum (source destination protocol : Nat) (segment : Bytes) : Nat :=
  if segment.length > netMtu then 0 else checksum16 (pseudoHeader source destination protocol segment.length ++ segment)

def tcpHeader (m : Sent) (checksum : Nat) : Bytes :=
  store16 (bswap16 m.sourcePort) ++ store16 (bswap16 m.destPort) ++ store32 (bswap32 m.sequence) ++
    store32 (bswap32 m.acknowledgement) ++ [0x50, UInt8.ofNat m.flags] ++ store16 (bswap16 tcpWindow) ++
    store16 checksum ++ [0, 0]

/-- The segment that tcp_transmit builds. -/
def tcpSegment (m : Sent) : Bytes :=
  tcpHeader m (bswap16 (transportChecksum m.localAddress m.remoteAddress ipProtoTcp (tcpHeader m 0 ++ m.payload))) ++
    m.payload

/-- What tcp_transmit fills in. -/
def segmentOf (socket : TcpSocket) (flags : Nat) (payload : Bytes) : Sent where
  localAddress := socket.localAddress
  remoteAddress := socket.remoteAddress
  iface := socket.iface
  sourcePort := socket.localPort
  destPort := socket.remotePort
  sequence := socket.sendNext
  acknowledgement := if has flags tcpAck then socket.receiveNext else 0
  flags := flags
  payload := payload.take tcpMss

def udpHeader (sourcePort port len checksum : Nat) : Bytes :=
  store16 (bswap16 sourcePort) ++ store16 (bswap16 port) ++ store16 (bswap16 ((udpHeaderSize + len) % 2 ^ 16)) ++
    store16 checksum

/-- The datagram that udp_send builds on an interface with this address. -/
def udpDatagram (source address port sourcePort : Nat) (data : Bytes) : Option Bytes :=
  if data.length > netMtu - udpHeaderSize then none
  else
    let header := udpHeader sourcePort port data.length
    let checksum := bswap16 (transportChecksum source address ipProtoUdp (header 0 ++ data))
    some (header (if checksum = 0 then 0xFFFF else checksum) ++ data)

section Words
variable {front back bytes : Bytes} {c n : Nat}

theorem bswap16_eq (small : n < 65536) : bswap16 n = n % 256 * 256 + n / 256 := by
  have high : n >>> 8 < 2 ^ 8 := by
    rw [Nat.shiftRight_eq_div_pow]
    omega
  rw [bswap16, ← Nat.shiftLeft_add_eq_or_of_lt high, Nat.shiftLeft_eq, Nat.shiftRight_eq_div_pow]
  omega

theorem store_swapped (small : n < 65536) : store16 (bswap16 n) = net16 n := by
  have low : (UInt8.ofNat (bswap16 n)) = UInt8.ofNat (n / 256) := by
    apply UInt8.toNat_inj.mp
    rw [bswap16_eq small, UInt8.toNat_ofNat', UInt8.toNat_ofNat']
    omega
  have high : (UInt8.ofNat (bswap16 n >>> 8)) = UInt8.ofNat n := by
    have upper : (n % 256 * 256 + n / 256) / 2 ^ 8 = n % 256 := by
      change _ / 256 = _
      rw [Nat.mul_comm, Nat.mul_add_div (by decide), Nat.div_eq_of_lt (by omega), Nat.add_zero]
    apply UInt8.toNat_inj.mp
    rw [bswap16_eq small, Nat.shiftRight_eq_div_pow, UInt8.toNat_ofNat', UInt8.toNat_ofNat', upper]
    omega
  rw [store16, net16, low, high]

theorem foldSum_folds (n : Nat) : Folds (foldSum n) n := by
  induction n using foldSum.induct with
  | case1 n small =>
    rw [foldSum, if_pos small]
    exact ⟨by omega, rfl, Iff.rfl⟩
  | case2 n large ih =>
    obtain ⟨small, same, zero⟩ := ih
    rw [foldSum, if_neg large]
    exact ⟨small, by omega, by omega⟩

theorem addWords_eq (fits : n + total bytes < 2 ^ 32) : addWords bytes n = n + total bytes := by
  induction bytes, n using addWords.induct with
  | case1 a b rest n ih =>
    rw [total] at fits ⊢
    have whole : wrap32 (n + (a.toNat * 256 + b.toNat)) = n + (a.toNat * 256 + b.toNat) := by
      unfold wrap32
      omega
    rw [whole] at ih
    rw [addWords, whole, ih (by omega)]
    omega
  | case2 a n =>
    rw [total] at fits ⊢
    rw [addWords]
    unfold wrap32
    omega
  | case3 n => rw [addWords, total, Nat.add_zero]

/-- What a checksum adds to the words it was made of. -/
structure Completes (total c : Nat) : Prop where
  word : c ≤ 65535
  rest : (total + c) % 65535 = 0
  some_ : total + c ≠ 0

theorem checksum16_completes (short : bytes.length ≤ 2000) : Completes (total bytes) (checksum16 bytes) := by
  have bound := total_le bytes
  have whole : addWords bytes 0 = total bytes := by
    rw [addWords_eq (by omega), Nat.zero_add]
  obtain ⟨small, same, zero⟩ := foldSum_folds (total bytes)
  rw [checksum16, whole]
  exact ⟨by omega, by omega, by omega⟩

theorem completed_full (even : front.length % 2 = 0) (completes : Completes (total (front ++ 0 :: 0 :: back)) c) :
    sum (front ++ (net16 c ++ back)) = 65535 := by
  obtain ⟨word, rest, some_⟩ := completes
  rw [sum_full, net16, List.cons_append, List.cons_append, List.nil_append, total_between even, UInt8.toNat_ofNat',
    UInt8.toNat_ofNat']
  have same : c / 256 % 2 ^ 8 * 256 + c % 2 ^ 8 = c := by omega
  rw [same]
  exact ⟨rest, some_⟩

end Words

end Qito.Net.Frames
