import Qito.Net.Packets

/-! What a receiver adds up. Every checksum is filled in over words that have a zero in
its place, so that with it the words of a packet add up to all ones. -/
namespace Qito.Net.Frames
open OnesComplement

/-- What a receiver makes of a frame: the header of its packet, the body that the total
length leaves, and the bytes that the checksum of a segment or a datagram covers. -/
def headerOf (frame : Bytes) : Bytes := (frame.drop ethHeaderSize).take ipv4HeaderSize

def bodyOf (frame : Bytes) : Bytes :=
  ((frame.drop ethHeaderSize).take (be16 (frame.drop ethHeaderSize) 2)).drop ipv4HeaderSize

def coveredOf (frame : Bytes) : Bytes :=
  (headerOf frame).drop 12 ++ [0, (headerOf frame).getD 9 0] ++ net16 (bodyOf frame).length ++ bodyOf frame


section Layout
variable {iface : NetInterface} {hop : Mac} {type identification destination protocol source : Nat} {payload frame : Bytes}

theorem net16_zero : net16 0 = [0, 0] := rfl

theorem ethFrame_parts (run : ethFrame iface hop type payload = some frame) :
    iface.up = true ∧ payload.length ≤ netMtu ∧ ∃ padding, frame = ethBytes iface hop type payload ++ padding ∧
      padding.length = 60 - (ethBytes iface hop type payload).length := by
  unfold ethFrame at run
  split at run
  · cases run
  · rename_i usable
    split at run
    · cases run
    · rename_i short
      cases run
      refine ⟨?_, Nat.le_of_not_gt short, _, rfl, List.length_replicate⟩
      cases up : iface.up with
      | true => rfl
      | false => simp [up] at usable

theorem ethBytes_front : (hop.bytes ++ iface.mac.bytes ++ store16 (bswap16 type)).length = ethHeaderSize := by
  rw [List.length_append, List.length_append, hop.six, iface.mac.six]
  rfl

theorem ethFrame_payload (run : ethFrame iface hop type payload = some frame) : ∃ padding, frame.drop ethHeaderSize = payload ++ padding := by
  obtain ⟨-, -, padding, whole, -⟩ := ethFrame_parts run
  refine ⟨padding, ?_⟩
  rw [whole, ethBytes, List.append_assoc _ payload, ← ethBytes_front, List.drop_left]

theorem ipv4Header_length (checksum : Nat) :
    (ipv4Header source identification destination protocol payload.length checksum).length = ipv4HeaderSize := rfl

theorem ipv4Frame_packet (run : ipv4Frame iface hop identification destination protocol payload = some frame) :
    payload.length + ipv4HeaderSize ≤ netMtu ∧ ethFrame iface hop ethertypeIpv4
      (ipv4Packet iface.address identification destination protocol payload) = some frame ∧
      be16 (frame.drop ethHeaderSize) 2 = ipv4HeaderSize + payload.length := by
  unfold ipv4Frame at run
  split at run
  · cases run
  · rename_i fits
    obtain ⟨padding, whole⟩ := ethFrame_payload run
    have word : ipv4HeaderSize + payload.length < 65536 := by
      have short : ¬ payload.length + 20 > 1500 := fits
      change 20 + payload.length < 65536
      omega
    refine ⟨Nat.le_of_not_gt fits, run, ?_⟩
    have kept : (ipv4HeaderSize + payload.length) % 2 ^ 16 = ipv4HeaderSize + payload.length := Nat.mod_eq_of_lt word
    rw [whole, be16_drop _ 2 0, ipv4Packet, ipv4Header, kept, store_swapped word]
    exact be16_net16 word _

theorem ipv4Frame_parts (run : ipv4Frame iface hop identification destination protocol payload = some frame) :
    payload.length + ipv4HeaderSize ≤ netMtu ∧
      headerOf frame = ipv4Header iface.address identification destination protocol payload.length
        (bswap16 (checksum16 (ipv4Header iface.address identification destination protocol payload.length 0))) ∧
      bodyOf frame = payload := by
  obtain ⟨fits, sent, length⟩ := ipv4Frame_packet run
  obtain ⟨padding, whole⟩ := ethFrame_payload sent
  rw [ipv4Packet] at whole
  generalize filled : bswap16 (checksum16 (ipv4Header iface.address identification destination protocol payload.length 0)) =
    checksum at whole
  refine ⟨fits, ?_, ?_⟩
  · rw [headerOf, whole, List.append_assoc, List.take_left' (ipv4Header_length checksum)]
  · rw [bodyOf, length, whole]
    have reached : (ipv4Header iface.address identification destination protocol payload.length checksum ++ payload).length =
        ipv4HeaderSize + payload.length := by rw [List.length_append, ipv4Header_length]
    rw [List.take_left' reached, List.drop_left' (ipv4Header_length checksum)]

theorem ipv4Header_full (source identification destination protocol len : Nat) :
    let header := ipv4Header source identification destination protocol len
    sum (header (bswap16 (checksum16 (header 0)))) = 65535 := by
  intro header
  let front := [0x45, 0] ++ store16 (bswap16 ((ipv4HeaderSize + len) % 2 ^ 16)) ++ store16 (bswap16 identification) ++
    [0, 0] ++ [64, UInt8.ofNat protocol]
  let back := store32 (bswap32 source) ++ store32 (bswap32 destination)
  have zero : header 0 = front ++ 0 :: 0 :: back := rfl
  have completes : Completes (total (front ++ 0 :: 0 :: back)) (checksum16 (header 0)) := by
    rw [← zero]
    apply checksum16_completes
    change 20 ≤ 2000
    decide
  have filled : header (bswap16 (checksum16 (header 0))) = front ++ (net16 (checksum16 (header 0)) ++ back) := by
    rw [← store_swapped (Nat.lt_succ_of_le completes.word)]
    rfl
  have ten : front.length = 10 := rfl
  rw [filled]
  exact completed_full (by rw [ten]) completes

theorem ipv4Frame_covered (run : ipv4Frame iface hop identification destination protocol payload = some frame) :
    coveredOf frame = pseudoHeader iface.address destination protocol payload.length ++ payload := by
  obtain ⟨fits, header, body⟩ := ipv4Frame_parts run
  have short : payload.length + 20 ≤ 1500 := fits
  have length : net16 payload.length = store16 (bswap16 (payload.length % 2 ^ 16)) := by
    rw [Nat.mod_eq_of_lt (by omega), store_swapped (by omega)]
  rw [coveredOf, header, body, length]
  rfl

/-- A segment or a datagram whose field was filled in over the pseudo-header and a
zero in its place. -/
theorem transport_full {destination protocol c : Nat} {front back : Bytes} (even : front.length % 2 = 0)
    (short : (front ++ 0 :: 0 :: back).length ≤ netMtu)
    (filled : c = transportChecksum source destination protocol (front ++ 0 :: 0 :: back) ∨
      c = 65535 ∧ transportChecksum source destination protocol (front ++ 0 :: 0 :: back) = 0) :
    sum (pseudoHeader source destination protocol (front ++ 0 :: 0 :: back).length ++ (front ++ (net16 c ++ back))) = 65535 := by
  let pseudo := pseudoHeader source destination protocol (front ++ 0 :: 0 :: back).length
  have twelve : pseudo.length = 12 := rfl
  have whole : transportChecksum source destination protocol (front ++ 0 :: 0 :: back) =
      checksum16 (pseudo ++ front ++ 0 :: 0 :: back) := by
    rw [transportChecksum, if_neg (Nat.not_lt_of_le short), List.append_assoc]
  have made : Completes (total (pseudo ++ front ++ 0 :: 0 :: back)) (checksum16 (pseudo ++ front ++ 0 :: 0 :: back)) := by
    apply checksum16_completes
    have bound : (front ++ 0 :: 0 :: back).length ≤ 1500 := short
    rw [List.append_assoc, List.length_append, twelve]
    omega
  have completes : Completes (total (pseudo ++ front ++ 0 :: 0 :: back)) c := by
    obtain ⟨word, rest, some_⟩ := made
    rw [whole] at filled
    rcases filled with same | ⟨ones, zero⟩
    · exact ⟨same ▸ word, same ▸ rest, same ▸ some_⟩
    · exact ⟨by omega, by omega, by omega⟩
  rw [← List.append_assoc]
  apply completed_full _ completes
  rw [List.length_append, twelve]
  omega

theorem tcpSegment_full (m : Sent) (short : m.payload.length ≤ tcpMss) :
    sum (pseudoHeader m.localAddress m.remoteAddress ipProtoTcp (tcpSegment m).length ++ tcpSegment m) = 65535 := by
  let front := store16 (bswap16 m.sourcePort) ++ store16 (bswap16 m.destPort) ++ store32 (bswap32 m.sequence) ++
    store32 (bswap32 m.acknowledgement) ++ [0x50, UInt8.ofNat m.flags] ++ store16 (bswap16 tcpWindow)
  let back := 0 :: 0 :: m.payload
  have zero : tcpHeader m 0 ++ m.payload = front ++ 0 :: 0 :: back := rfl
  have length : (front ++ 0 :: 0 :: back).length = m.payload.length + 20 := rfl
  have fits : (front ++ 0 :: 0 :: back).length ≤ netMtu := by
    have small : m.payload.length ≤ 1400 := short
    change _ ≤ 1500
    omega
  let c := transportChecksum m.localAddress m.remoteAddress ipProtoTcp (front ++ 0 :: 0 :: back)
  have word : c < 65536 := by
    change transportChecksum _ _ _ _ < _
    rw [transportChecksum, if_neg (Nat.not_lt_of_le fits), checksum16]
    omega
  have segment : tcpSegment m = front ++ (net16 c ++ back) := by
    rw [tcpSegment, zero, ← store_swapped word]
    rfl
  have same : (tcpSegment m).length = (front ++ 0 :: 0 :: back).length := rfl
  have sixteen : front.length = 16 := rfl
  rw [same, segment]
  exact transport_full (by rw [sixteen]) fits (.inl rfl)

theorem udpDatagram_full {source address port sourcePort : Nat} {data datagram : Bytes}
    (run : udpDatagram source address port sourcePort data = some datagram) :
    sum (pseudoHeader source address ipProtoUdp datagram.length ++ datagram) = 65535 := by
  unfold udpDatagram at run
  split at run
  · cases run
  · rename_i short
    let front := store16 (bswap16 sourcePort) ++ store16 (bswap16 port) ++ store16 (bswap16 ((udpHeaderSize + data.length) % 2 ^ 16))
    have zero : udpHeader sourcePort port data.length 0 ++ data = front ++ 0 :: 0 :: data := rfl
    have length : (front ++ 0 :: 0 :: data).length = data.length + 8 := rfl
    have fits : (front ++ 0 :: 0 :: data).length ≤ netMtu := by
      have small : ¬ data.length > 1500 - 8 := short
      change _ ≤ 1500
      omega
    let c := transportChecksum source address ipProtoUdp (front ++ 0 :: 0 :: data)
    have word : c < 65536 := by
      change transportChecksum _ _ _ _ < _
      rw [transportChecksum, if_neg (Nat.not_lt_of_le fits), checksum16]
      omega
    have six : front.length = 6 := rfl
    have built : datagram = udpHeader sourcePort port data.length (if bswap16 c = 0 then 0xFFFF else bswap16 c) ++ data :=
      (Option.some.inj run).symm
    have same : datagram.length = (front ++ 0 :: 0 :: data).length := by
      rw [built]
      rfl
    rw [same]
    split at built
    · rename_i none_
      -- A computed zero goes out as all ones.
      have absent : c = 0 := by
        rw [bswap16_eq word] at none_
        omega
      have datagram_ : datagram = front ++ (net16 65535 ++ data) := built
      rw [datagram_]
      exact transport_full (by rw [six]) fits (.inr ⟨rfl, absent⟩)
    · have datagram_ : datagram = front ++ (net16 c ++ data) := by
        rw [built, ← store_swapped word]
        rfl
      rw [datagram_]
      exact transport_full (by rw [six]) fits (.inl rfl)

theorem four_bytes {bytes : Bytes} (four : 4 ≤ bytes.length) : ∃ a b c d rest, bytes = a :: b :: c :: d :: rest := by
  match bytes, four with
  | a :: b :: c :: d :: rest, _ => exact ⟨a, b, c, d, rest, rfl⟩

theorem echoReply_parts {request : Bytes} (header : icmpHeaderSize ≤ request.length) :
    ∃ b rest c, echoReply request = 0 :: b :: (net16 c ++ rest) ∧ Completes (total (0 :: b :: 0 :: 0 :: rest)) c := by
  have length : (request.take netMtu).length = min 1500 request.length := List.length_take
  have eight : 8 ≤ request.length := header
  obtain ⟨a, b, x, y, rest, copied⟩ := @four_bytes (request.take netMtu) (by omega)
  have short : (0 :: b :: 0 :: 0 :: rest).length ≤ 2000 := by
    rw [copied] at length
    simp only [List.length_cons] at length ⊢
    omega
  have completes := checksum16_completes short
  refine ⟨b, rest, _, ?_, completes⟩
  rw [echoReply, copied, ← store_swapped (Nat.lt_succ_of_le completes.word)]
  rfl

theorem echoReply_full {request : Bytes} (header : icmpHeaderSize ≤ request.length) : sum (echoReply request) = 65535 := by
  obtain ⟨b, rest, c, reply, completes⟩ := echoReply_parts header
  rw [reply]
  exact @completed_full [0, b] _ _ (by rw [List.length_cons, List.length_singleton]) completes

end Layout

section Emitted
variable {frame : Bytes}

/-- Whatever is sent, the checksums of the frames that go out add up: of the header of
every packet, of every echo reply, datagram and segment. -/
theorem emitted_checksums_verify (iface : NetInterface) (hop : Mac) (identification destination : Nat) :
    (∀ protocol payload frame, ipv4Frame iface hop identification destination protocol payload = some frame →
      sum (headerOf frame) = 0xFFFF) ∧
    (∀ request frame, icmpHeaderSize ≤ request.length →
      ipv4Frame iface hop identification destination ipProtoIcmp (echoReply request) = some frame →
      sum (bodyOf frame) = 0xFFFF) ∧
    (∀ port sourcePort data datagram frame, udpDatagram iface.address destination port sourcePort data = some datagram →
      ipv4Frame iface hop identification destination ipProtoUdp datagram = some frame → sum (coveredOf frame) = 0xFFFF) ∧
    (∀ socket flags payload frame, socket.localAddress = iface.address →
      ipv4Frame iface hop identification socket.remoteAddress ipProtoTcp (tcpSegment (segmentOf socket flags payload)) =
        some frame → sum (coveredOf frame) = 0xFFFF) := by
  refine ⟨?_, ?_, ?_, ?_⟩
  · intro protocol payload frame run
    rw [(ipv4Frame_parts run).2.1]
    exact ipv4Header_full ..
  · intro request frame header run
    rw [(ipv4Frame_parts run).2.2]
    exact echoReply_full header
  · intro port sourcePort data datagram frame built run
    rw [ipv4Frame_covered run]
    exact udpDatagram_full built
  · intro socket flags payload frame bound run
    rw [ipv4Frame_covered run, ← bound]
    apply tcpSegment_full (segmentOf socket flags payload)
    exact List.length_take_le ..

/-- The loopback interface. -/
def lo : NetInterface where
  mac := ⟨[0, 0, 0, 0, 0, 0], rfl⟩
  address := 0x7F000001
  up := true
  loopback := true
  transmit := some .loopback
  looped := fun _ => rfl

def echoRequest : Bytes := [8, 0, 0, 0, 0x91, 0x10, 0, 1]

theorem emitted_checksums_verify_echo : ∃ frame,
    ipv4Frame lo lo.mac 1 0x7F000001 ipProtoIcmp (echoReply echoRequest) = some frame ∧ sum (bodyOf frame) = 0xFFFF := by
  have whole : icmpHeaderSize ≤ echoRequest.length := by decide
  exact ⟨_, rfl, (emitted_checksums_verify lo lo.mac 1 0x7F000001).2.1 echoRequest _ whole rfl⟩

end Emitted

end Qito.Net.Frames
