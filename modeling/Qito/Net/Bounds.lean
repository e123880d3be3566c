import Qito.Lib.Runs
import Qito.Net.Checksums
import Qito.Net.Receive

/-! Reception stays inside the frame. What is received can be answered once, and the
answers are such that receiving them is not answered. -/
namespace Qito.Net.Frames
open Faults Words Runs

/-- The buffers hold what they may. -/
structure Stocked (s : Stack) : Prop where
  sockets : ∀ i, (s.socket i).receiveBuffer.length ≤ tcpRxBuffer
  udp : s.udp.buffer.length ≤ udpBuffer

/-- No fault, and the buffers are kept. -/
def Keeps (m : Except Fault Stack) : Prop := ∃ t, m = .ok t ∧ Stocked t

/-- A frame whose reception is not answered. -/
def Mute (frame : Bytes) : Prop :=
  be16 frame 12 = ethertypeArp ∧ be16 frame 20 ≠ 1 ∨
  be16 frame 12 = ethertypeIpv4 ∧ byteAt frame 14 = 0x45 ∧
    (byteAt frame 23 = ipProtoIcmp ∧ byteAt frame 34 ≠ 8 ∨
      byteAt frame 23 = ipProtoTcp ∧ be16 frame 16 = 40 ∧ byteAt frame 46 = 0x50 ∧ byteAt frame 47 = tcpAck)

/-- Frames of this kind are received. -/
def Hears (loop : Nat → Bytes → Stack → Except Fault Stack) (P : Bytes → Prop) : Prop :=
  ∀ n frame s, P frame → Stocked s → Keeps (loop n frame s)

section Rules
variable {ε α β : Type} {frame bytes : Bytes} {i count capacity : Nat} {s : Stack}

theorem ok_bind (a : α) (f : α → Except ε β) : (Except.ok a >>= f) = f a := rfl

theorem Keeps.of_stocked (stocked : Stocked s) : Keeps (pure s) := ⟨s, rfl, stocked⟩

theorem Keeps.bind {m : Except Fault Stack} {f : Stack → Except Fault Stack} (first : Keeps m)
    (rest : ∀ t, Stocked t → Keeps (f t)) : Keeps (m >>= f) := by
  obtain ⟨t, run, stocked⟩ := first
  rw [run, ok_bind]
  exact rest t stocked

theorem getByte_ok (inside : i + 1 ≤ frame.length) : getByte frame i = .ok (byteAt frame i) := if_pos inside

theorem get16_ok (inside : i + 2 ≤ frame.length) : get16 frame i = .ok (be16 frame i) := if_pos inside

theorem get32_ok (inside : i + 4 ≤ frame.length) : get32 frame i = .ok (be32 frame i) := if_pos inside

theorem getBytes_ok (inside : i + count ≤ frame.length) : getBytes frame i count = .ok ((frame.drop i).take count) := if_pos inside

theorem getMac_ok (inside : i + ethAlen ≤ frame.length) : ∃ mac, getMac frame i = .ok mac := ⟨_, dif_pos inside⟩

theorem fill_ok (fits : bytes.length ≤ capacity) : fill capacity bytes = .ok () := if_pos fits

theorem Stocked.set {j : Fin tcpMaxSockets} {socket : TcpSocket} (stocked : Stocked s)
    (short : socket.receiveBuffer.length ≤ tcpRxBuffer) : Stocked (s.setSocket j socket) := by
  refine ⟨?_, stocked.udp⟩
  intro k
  by_cases here : k = j
  · subst here
    change ((Net.setSocket s.tcp.tcp k socket).sockets k).receiveBuffer.length ≤ _
    rw [setSocket_same]
    exact short
  · change ((Net.setSocket s.tcp.tcp j socket).sockets k).receiveBuffer.length ≤ _
    rw [setSocket_other here]
    exact stocked.sockets k

end Rules

section Sending
variable {loop : Nat → Bytes → Stack → Except Fault Stack} {P : Bytes → Prop} {now n : Nat} {s : Stack}

theorem ethSend_keeps {hop : Mac} {type : Nat} {payload : Bytes} (hears : Hears loop P) (stocked : Stocked s)
    (spoken : ∀ iface frame, s.ifaces[n]? = some iface → iface.transmit = some .loopback →
      ethFrame iface hop type payload = some frame → P frame) : Keeps (ethSend loop n hop type payload s) := by
  unfold ethSend
  split
  · exact .of_stocked stocked
  · rename_i iface entry
    split
    · exact .of_stocked stocked
    · rename_i frame run
      obtain ⟨-, short, padding, whole, size⟩ := ethFrame_parts run
      have length : (ethBytes iface hop type payload).length = ethHeaderSize + payload.length := by
        rw [ethBytes, List.length_append, ethBytes_front]
      have fits : frame.length ≤ ethHeaderSize + netMtu := by
        have small : payload.length ≤ 1500 := short
        have front : (ethBytes iface hop type payload).length = 14 + payload.length := length
        change _ ≤ 14 + 1500
        rw [whole, List.length_append, size]
        omega
      rw [fill_ok fits, ok_bind]
      split
      · rename_i looped
        exact hears n frame s (spoken iface frame entry looped run) stocked
      · exact .of_stocked stocked

theorem arpCacheLookup_same (address : Nat) : (arpCacheLookup now address s).2.ifaces = s.ifaces ∧
    (Stocked s → Stocked (arpCacheLookup now address s).2) := by
  unfold arpCacheLookup
  split
  · exact ⟨rfl, id⟩
  · split
    · exact ⟨rfl, fun stocked => ⟨stocked.sockets, stocked.udp⟩⟩
    · exact ⟨rfl, id⟩

theorem netSendIpv4_keeps {destination protocol : Nat} {payload : Bytes} (hears : Hears loop P) (stocked : Stocked s)
    (spoken : ∀ iface hop identification frame,
      ipv4Frame iface hop identification destination protocol payload = some frame → P frame) :
    Keeps (netSendIpv4 loop now n destination protocol payload s) := by
  unfold netSendIpv4
  split
  · exact .of_stocked stocked
  · rename_i iface entry
    split
    · exact .of_stocked stocked
    · rename_i fits
      have counted : Stocked { s with identification := (s.identification + 1) % 2 ^ 16 } := ⟨stocked.sockets, stocked.udp⟩
      have made (hop : Mac) (frame : Bytes) (run : ethFrame iface hop ethertypeIpv4
          (ipv4Packet iface.address ((s.identification + 1) % 2 ^ 16) destination protocol payload) = some frame) : P frame := by
        apply spoken iface hop ((s.identification + 1) % 2 ^ 16) frame
        rw [ipv4Frame, if_neg fits]
        exact run
      have size : (ipv4Packet iface.address ((s.identification + 1) % 2 ^ 16) destination protocol payload).length ≤ netMtu := by
        have short : ¬ payload.length + 20 > 1500 := fits
        rw [ipv4Packet, List.length_append, ipv4Header_length]
        change 20 + _ ≤ 1500
        omega
      dsimp only
      rw [fill_ok size, ok_bind]
      split
      · apply ethSend_keeps hears counted
        intro iface' frame entry' _ run
        cases entry.symm.trans entry'
        exact made _ frame run
      · rename_i card
        obtain ⟨ifaces, keeps⟩ := arpCacheLookup_same
          (s := { s with identification := (s.identification + 1) % 2 ^ 16 }) destination
        -- A card does not hear itself.
        have away (iface' : NetInterface) (entry' : (arpCacheLookup now destination
            { s with identification := (s.identification + 1) % 2 ^ 16 }).2.ifaces[n]? = some iface')
            (looped : iface'.transmit = some .loopback) : False := by
          rw [ifaces] at entry'
          cases entry.symm.trans entry'
          exact card (iface.looped looped)
        split
        · rename_i mac t found
          rw [found] at away keeps
          exact ethSend_keeps hears (keeps counted) fun iface' _ entry' looped _ => (away iface' entry' looped).elim
        · rename_i t found
          rw [found] at away keeps
          exact ethSend_keeps hears (keeps counted) fun iface' _ entry' looped _ => (away iface' entry' looped).elim

theorem tcpTransmit_keeps {i : Fin tcpMaxSockets} {flags : Nat} {payload : Bytes} (hears : Hears loop P) (stocked : Stocked s)
    (spoken : ∀ iface hop identification socket frame, ipv4Frame iface hop identification socket.remoteAddress ipProtoTcp
      (tcpSegment (segmentOf socket flags payload)) = some frame → P frame) :
    Keeps (tcpTransmit loop now i flags payload s) := by
  have size : (tcpSegment (segmentOf (s.socket i) flags payload)).length ≤ tcpHeaderSize + tcpMss := by
    have short : (payload.take tcpMss).length ≤ 1400 := List.length_take_le ..
    have length : (tcpSegment (segmentOf (s.socket i) flags payload)).length = (payload.take tcpMss).length + 20 := rfl
    change _ ≤ 20 + 1400
    omega
  unfold tcpTransmit
  dsimp only
  rw [fill_ok size, ok_bind]
  apply Keeps.bind
  · apply netSendIpv4_keeps hears
    · exact ⟨stocked.sockets, stocked.udp⟩
    · intro iface hop identification frame run
      exact spoken iface hop identification (s.socket i) frame run
  · intro t after
    apply Keeps.of_stocked
    exact after.set (after.sockets i)

end Sending

section Answers
variable {iface : NetInterface} {hop : Mac} {identification destination protocol type : Nat} {payload frame : Bytes}

theorem ethFrame_type (small : type < 65536) (run : ethFrame iface hop type payload = some frame) : be16 frame 12 = type := by
  obtain ⟨-, -, padding, whole, -⟩ := ethFrame_parts run
  have twelve : (hop.bytes ++ iface.mac.bytes).length = 12 := by
    rw [List.length_append, hop.six, iface.mac.six]
    rfl
  rw [be16_drop frame 12 0, whole, ethBytes, List.append_assoc, List.append_assoc, List.drop_left' twelve, store_swapped small]
  exact be16_net16 small _

theorem packet_bytes (run : ipv4Frame iface hop identification destination protocol payload = some frame) :
    be16 frame 12 = ethertypeIpv4 ∧ ∃ checksum padding, ∀ i, byteAt frame (ethHeaderSize + i) =
      byteAt (ipv4Header iface.address identification destination protocol payload.length checksum ++ payload ++ padding) i := by
  obtain ⟨-, sent, -⟩ := ipv4Frame_packet run
  obtain ⟨padding, whole⟩ := ethFrame_payload sent
  rw [ipv4Packet] at whole
  exact ⟨ethFrame_type (by decide) sent, _, padding, fun i => (byteAt_drop frame ethHeaderSize i).trans (by rw [whole])⟩

theorem mute_segment {socket : TcpSocket} (run : ipv4Frame iface hop identification socket.remoteAddress ipProtoTcp
    (tcpSegment (segmentOf socket tcpAck [])) = some frame) : Mute frame := by
  obtain ⟨-, -, length⟩ := ipv4Frame_packet run
  obtain ⟨type, checksum, padding, byte⟩ := packet_bytes run
  rw [← be16_drop frame] at length
  exact .inr ⟨type, byte 0, .inr ⟨byte 9, length, byte 32, byte 33⟩⟩

theorem mute_reply {request : Bytes} (header : icmpHeaderSize ≤ request.length)
    (run : ipv4Frame iface hop identification destination ipProtoIcmp (echoReply request) = some frame) : Mute frame := by
  obtain ⟨type, checksum, padding, byte⟩ := packet_bytes run
  obtain ⟨b, rest, c, reply, -⟩ := echoReply_parts header
  rw [reply] at byte
  refine .inr ⟨type, byte 0, .inl ⟨byte 9, ?_⟩⟩
  have zero : byteAt frame 34 = 0 := byte 20
  rw [zero]
  decide

theorem mute_arp {operation senderIp targetIp : Nat} {senderMac targetMac : Mac} (small : operation < 65536)
    (answer : operation ≠ 1) (run : ethFrame iface hop ethertypeArp
      (arpPacket operation senderMac senderIp targetMac targetIp) = some frame) : Mute frame := by
  obtain ⟨padding, whole⟩ := ethFrame_payload run
  have word := be16_drop frame ethHeaderSize 6
  rw [whole, arpPacket, store_swapped small] at word
  refine .inl ⟨ethFrame_type (by decide) run, ?_⟩
  have same : be16 frame 20 = operation := by
    rw [show (20 : Nat) = ethHeaderSize + 6 from rfl, word, be16_drop _ 6 0]
    exact be16_net16 small _
  rw [same]
  exact answer

end Answers

section Receiving
variable {loop : Nat → Bytes → Stack → Except Fault Stack} {now n : Nat} {s : Stack} {frame : Bytes}
  {i : Fin tcpMaxSockets} {sequence acknowledgement flags : Nat}

theorem acknowledge_keeps (hears : Hears loop Mute) (stocked : Stocked s) : Keeps (tcpTransmit loop now i tcpAck [] s) :=
  tcpTransmit_keeps hears stocked fun _ _ _ _ _ run => mute_segment run

theorem arpHandle_keeps {iface : NetInterface} {arp : Nat} (stocked : Stocked s) (inside : arp + arpPacketSize ≤ frame.length)
    (reply : Hears loop Mute ∨ be16 frame (arp + 6) ≠ 1) : Keeps (arpHandle loop now n iface frame arp s) := by
  have room : arp + 28 ≤ frame.length := inside
  have within : arp + 8 + ethAlen ≤ frame.length := by
    change arp + 8 + 6 ≤ _
    omega
  obtain ⟨mac, sender⟩ := getMac_ok within
  unfold arpHandle
  rw [get16_ok (by omega), ok_bind, get16_ok (by omega), ok_bind]
  split
  · exact .of_stocked stocked
  · rw [get32_ok (by omega), ok_bind, get32_ok (by omega), ok_bind, sender, ok_bind, get16_ok (by omega), ok_bind]
    have cached : Stocked (arpCacheInsert now (be32 frame (arp + 14)) mac s) := ⟨stocked.sockets, stocked.udp⟩
    split
    · rename_i asked
      split
      · exact .of_stocked cached
      · rcases reply with hears | unasked
        · apply ethSend_keeps hears cached
          intro _ _ _ _ run
          exact mute_arp (by decide) (by decide) run
        · exact absurd asked unasked
    · exact .of_stocked cached

theorem icmpHandle_keeps {ip payload len : Nat} (stocked : Stocked s) (header : ip + ipv4HeaderSize ≤ frame.length)
    (inside : payload + len ≤ frame.length) (reply : Hears loop Mute ∨ byteAt frame payload ≠ 8) :
    Keeps (icmpHandle loop now n frame ip payload len s) := by
  have room : ip + 20 ≤ frame.length := header
  unfold icmpHandle
  split
  · exact .of_stocked stocked
  · rename_i short
    have eight : ¬ len < 8 := short
    rw [getByte_ok (by omega), ok_bind]
    split
    · rename_i asked
      rcases reply with hears | unasked
      · have within : payload + min len netMtu ≤ frame.length := by omega
        have size : ((frame.drop payload).take (min len netMtu)).length = min len netMtu := by
          rw [List.length_take, List.length_drop]
          omega
        have fits : ((frame.drop payload).take (min len netMtu)).length ≤ netMtu := by
          rw [size]
          exact Nat.min_le_right ..
        have whole : icmpHeaderSize ≤ ((frame.drop payload).take (min len netMtu)).length := by
          rw [size]
          change 8 ≤ min len 1500
          omega
        rw [getBytes_ok within, ok_bind, fill_ok fits, ok_bind, get32_ok (by omega), ok_bind]
        apply netSendIpv4_keeps hears stocked
        intro _ _ _ _ run
        exact mute_reply whole run
      · exact absurd asked unasked
    · split
      · rw [get16_ok (by omega), ok_bind]
        apply Keeps.of_stocked
        split
        · exact ⟨stocked.sockets, stocked.udp⟩
        · exact stocked
      · exact .of_stocked stocked

theorem takePayload_keeps {payload len : Nat} (stocked : Stocked s) (inside : payload + len ≤ frame.length) :
    Keeps (takePayload i sequence frame payload len s) := by
  have full := stocked.sockets i
  have space : sub64 tcpRxBuffer (s.socket i).receiveBuffer.length = tcpRxBuffer - (s.socket i).receiveBuffer.length := by
    have bound : (s.socket i).receiveBuffer.length ≤ 16384 := full
    change (2 ^ 64 + 16384 - (s.socket i).receiveBuffer.length) % 2 ^ 64 = 16384 - (s.socket i).receiveBuffer.length
    omega
  unfold takePayload
  dsimp only
  rw [space]
  split
  · split
    · have within : payload + min len (tcpRxBuffer - (s.socket i).receiveBuffer.length) ≤ frame.length := by omega
      have fits : ((s.socket i).receiveBuffer ++
          (frame.drop payload).take (min len (tcpRxBuffer - (s.socket i).receiveBuffer.length))).length ≤ tcpRxBuffer := by
        rw [List.length_append, List.length_take]
        omega
      rw [getBytes_ok within, ok_bind, fill_ok fits, ok_bind]
      exact .of_stocked (stocked.set fits)
    · exact .of_stocked stocked
  · exact .of_stocked stocked

theorem inputPayload_keeps {payload len : Nat} (stocked : Stocked s) (inside : payload + len ≤ frame.length)
    (reply : Hears loop Mute ∨ len = 0) : Keeps (inputPayload loop now i sequence frame payload len s) := by
  unfold inputPayload
  split
  · rename_i some_
    rcases reply with hears | none_
    · exact (takePayload_keeps stocked inside).bind fun _ taken => acknowledge_keeps hears taken
    · omega
  · exact .of_stocked stocked

theorem inputOpen_keeps {payload len : Nat} (stocked : Stocked s) (inside : payload + len ≤ frame.length)
    (reply : Hears loop Mute ∨ flags = tcpAck ∧ len = 0) :
    Keeps (inputOpen loop now i sequence acknowledgement flags frame payload len s) := by
  have acknowledged : Stocked (if has flags tcpAck then
      s.setSocket i { s.socket i with
        sendUnack := acknowledgement
        pending := none
        retries := if (s.socket i).pending.isSome then 0 else (s.socket i).retries }
    else s) := by
    split
    · exact stocked.set (stocked.sockets i)
    · exact stocked
  have finished {s : Stack} (stocked : Stocked s) : Keeps (if has flags tcpFin then
      tcpTransmit loop now i tcpAck [] (s.setSocket i { s.socket i with
        receiveNext := wrap32 (sequence + len + 1)
        state := .closeWait })
    else return s) := by
    split
    · rename_i fin
      rcases reply with hears | ⟨alone, -⟩
      · apply acknowledge_keeps hears
        exact stocked.set (stocked.sockets i)
      · rw [alone] at fin
        exact absurd fin (by decide)
    · exact .of_stocked stocked
  have accepted := @inputPayload_keeps _ now _ _ i sequence _ _ acknowledged inside
    (reply.imp_right And.right)
  exact accepted.bind fun _ taken => finished taken

theorem inputSynSent_keeps (stocked : Stocked s) (reply : Hears loop Mute ∨ flags = tcpAck) :
    Keeps (inputSynSent loop now i sequence acknowledgement flags s) := by
  unfold inputSynSent
  split
  · rename_i both
    rcases reply with hears | alone
    · apply acknowledge_keeps hears
      exact stocked.set (stocked.sockets i)
    · rw [alone] at both
      exact absurd both (by decide)
  · exact .of_stocked stocked

theorem inputFinWait_keeps (stocked : Stocked s) (reply : Hears loop Mute ∨ flags = tcpAck) :
    Keeps (inputFinWait loop now i sequence flags s) := by
  have acknowledged : Stocked (if has flags tcpAck then s.setSocket i { s.socket i with state := .closed } else s) := by
    split
    · exact stocked.set (stocked.sockets i)
    · exact stocked
  have finished {s : Stack} (stocked : Stocked s) : Keeps (if has flags tcpFin then do
      let s ← tcpTransmit loop now i tcpAck [] (s.setSocket i { s.socket i with receiveNext := wrap32 (sequence + 1) })
      return s.setSocket i { s.socket i with state := .closed }
    else return s) := by
    split
    · rename_i fin
      rcases reply with hears | alone
      · apply Keeps.bind
        · apply acknowledge_keeps hears
          exact stocked.set (stocked.sockets i)
        · intro t after
          apply Keeps.of_stocked
          exact after.set (after.sockets i)
      · rw [alone] at fin
        exact absurd fin (by decide)
    · exact .of_stocked stocked
  exact finished acknowledged

theorem tcpInput_keeps {source data len : Nat} (stocked : Stocked s) (inside : data + len ≤ frame.length)
    (reply : Hears loop Mute ∨ len = 20 ∧ byteAt frame (data + 12) = 0x50 ∧ byteAt frame (data + 13) = tcpAck) :
    Keeps (tcpInput loop now n source frame data len s) := by
  unfold tcpInput
  split
  · exact .of_stocked stocked
  · rename_i short
    have twenty : ¬ len < 20 := short
    rw [get16_ok (by omega), ok_bind, get16_ok (by omega), ok_bind, getByte_ok (by omega), ok_bind]
    dsimp only
    split
    · exact .of_stocked stocked
    · rename_i whole
      have within : data + byteAt frame (data + 12) / 16 * 4 + (len - byteAt frame (data + 12) / 16 * 4) ≤ frame.length := by
        omega
      have alone : Hears loop Mute ∨ byteAt frame (data + 13) = tcpAck := reply.imp_right fun ack => ack.2.2
      have empty : Hears loop Mute ∨ byteAt frame (data + 13) = tcpAck ∧ len - byteAt frame (data + 12) / 16 * 4 = 0 := by
        rcases reply with hears | ⟨exact_, offset, ack⟩
        · exact .inl hears
        · refine .inr ⟨ack, ?_⟩
          rw [offset]
          omega
      split
      · exact .of_stocked stocked
      · rename_i j found
        rw [get16_ok (by omega), ok_bind, get32_ok (by omega), ok_bind, get32_ok (by omega), ok_bind,
          getByte_ok (by omega), ok_bind]
        have bound : Stocked (s.setSocket j { s.socket j with
            iface := n
            lastActivityMs := now
            remoteWindow := be16 frame (data + 14) }) := stocked.set (stocked.sockets j)
        split
        · apply Keeps.of_stocked
          exact bound.set (bound.sockets j)
        · split
          · exact inputSynSent_keeps bound alone
          · exact inputOpen_keeps bound within empty
          · exact inputOpen_keeps bound within empty
          · exact inputFinWait_keeps bound alone
          · exact .of_stocked bound

theorem udpInput_keeps {data len : Nat} (stocked : Stocked s) (inside : data + len ≤ frame.length) :
    Keeps (udpInput frame data len s) := by
  unfold udpInput
  split
  · exact .of_stocked stocked
  · rename_i short
    have eight : ¬ len < 8 := short
    rw [get16_ok (by omega), ok_bind]
    dsimp only
    split
    · have within : data + udpHeaderSize + min (len - udpHeaderSize) udpBuffer ≤ frame.length := by
        change data + 8 + min (len - 8) 1024 ≤ _
        omega
      have fits : ((frame.drop (data + udpHeaderSize)).take (min (len - udpHeaderSize) udpBuffer)).length ≤ udpBuffer := by
        rw [List.length_take]
        omega
      rw [getBytes_ok within, ok_bind, fill_ok fits, ok_bind]
      exact .of_stocked ⟨stocked.sockets, fits⟩
    · exact .of_stocked stocked

theorem ipv4Receive_keeps (stocked : Stocked s) (long : ethHeaderSize ≤ frame.length)
    (reply : Hears loop Mute ∨ byteAt frame 14 = 0x45 ∧
      (byteAt frame 23 = ipProtoIcmp ∧ byteAt frame 34 ≠ 8 ∨
        byteAt frame 23 = ipProtoTcp ∧ be16 frame 16 = 40 ∧ byteAt frame 46 = 0x50 ∧ byteAt frame 47 = tcpAck)) :
    Keeps (ipv4Receive loop now n frame ethHeaderSize (frame.length - ethHeaderSize) s) := by
  have ether : ethHeaderSize = 14 := rfl
  have least : ipv4HeaderSize = 20 := rfl
  unfold ipv4Receive
  split
  · exact .of_stocked stocked
  · rename_i short
    have header : ethHeaderSize + ipv4HeaderSize ≤ frame.length := by omega
    rw [getByte_ok (by omega), ok_bind]
    dsimp only
    split
    · exact .of_stocked stocked
    · rename_i version
      rw [get16_ok (by omega), ok_bind]
      split
      · exact .of_stocked stocked
      · rename_i total
        have within : ethHeaderSize + byteAt frame ethHeaderSize % 16 * 4 +
            (be16 frame (ethHeaderSize + 2) - byteAt frame ethHeaderSize % 16 * 4) ≤ frame.length := by omega
        rw [getByte_ok (by omega), ok_bind]
        split
        · rename_i icmp
          apply icmpHandle_keeps stocked header within
          rcases reply with hears | ⟨four, ⟨-, unasked⟩ | ⟨tcp, -⟩⟩
          · exact .inl hears
          · have start : byteAt frame ethHeaderSize = 0x45 := four
            rw [start]
            exact .inr unasked
          · exact absurd (icmp.symm.trans tcp) (by decide)
        · split
          · rename_i tcp
            rw [get32_ok (by omega), ok_bind]
            apply tcpInput_keeps stocked within
            rcases reply with hears | ⟨four, ⟨icmp, -⟩ | ⟨-, length, offset, ack⟩⟩
            · exact .inl hears
            · exact absurd (icmp.symm.trans tcp) (by decide)
            · have start : byteAt frame ethHeaderSize = 0x45 := four
              have whole : be16 frame (ethHeaderSize + 2) = 40 := length
              rw [start, whole]
              exact .inr ⟨rfl, offset, ack⟩
          · split
            · exact udpInput_keeps stocked within
            · exact .of_stocked stocked

theorem receiveWith_keeps (stocked : Stocked s) (reply : Hears loop Mute ∨ Mute frame) : Keeps (receiveWith loop now n frame s) := by
  unfold receiveWith
  split
  · exact .of_stocked stocked
  · split
    · exact .of_stocked stocked
    · rename_i long
      have fourteen : ¬ frame.length < 14 := long
      dsimp only
      rw [get16_ok (by omega), ok_bind]
      split
      · rename_i arp
        split
        · rename_i size
          apply arpHandle_keeps stocked (by omega)
          rcases reply with hears | ⟨-, answer⟩ | ⟨ip, -⟩
          · exact .inl hears
          · exact .inr answer
          · exact absurd (arp.symm.trans ip) (by decide)
        · exact .of_stocked stocked
      · split
        · rename_i arp ip
          apply ipv4Receive_keeps stocked (Nat.le_of_not_lt long)
          rcases reply with hears | ⟨other, -⟩ | ⟨-, parts⟩
          · exact .inl hears
          · exact absurd other arp
          · exact .inr parts
        · exact .of_stocked stocked

theorem netReceive_hears (now depth : Nat) : Hears (netReceive now (depth + 1)) Mute :=
  fun _ _ _ mute stocked => receiveWith_keeps stocked (.inr mute)

theorem netReceive_keeps (depth : Nat) (stocked : Stocked s) : Keeps (netReceive now (depth + 2) n frame s) :=
  receiveWith_keeps stocked (.inl (netReceive_hears now depth))

end Receiving

section Calls
variable {s t : Stack} {now depth : Nat} {i : Fin tcpMaxSockets}

theorem netReceive_hears_all (now depth : Nat) : Hears (netReceive now (depth + 2)) fun _ => True :=
  fun _ _ _ _ stocked => netReceive_keeps depth stocked

theorem transmit_keeps (stocked : Stocked s) (flags : Nat) (payload : Bytes) :
    Keeps (tcpTransmit (netReceive now (depth + 2)) now i flags payload s) :=
  tcpTransmit_keeps (netReceive_hears_all now depth) stocked fun _ _ _ _ _ _ => trivial

theorem release_stocked (stocked : Stocked s) : Stocked { s with tcp := socketRelease s.tcp i } := by
  unfold socketRelease
  split
  · exact stocked
  · exact stocked.set (Nat.zero_le _)

theorem socketAllocate_stocked (stocked : Stocked s) (memory : Bool) : Stocked { s with tcp := (socketAllocate memory s.tcp).2 } := by
  rcases socketAllocate_cases memory s.tcp with none_ | ⟨j, -, zeroed | taken⟩
  · rw [none_]
    exact stocked
  · rw [zeroed]
    exact stocked.set (Nat.zero_le _)
  · rw [taken]
    exact ⟨(stocked.set (j := j)
      (Nat.zero_le _)).sockets, stocked.udp⟩

theorem connect_keeps (stocked : Stocked s) (memory : Bool) (address port : Nat) :
    Keeps (tcpConnect (netReceive now (depth + 2)) now memory address port s) := by
  have allocated := socketAllocate_stocked stocked memory
  unfold tcpConnect
  split
  · exact .of_stocked stocked
  · split
    · rename_i tcp none_
      rw [none_] at allocated
      exact .of_stocked allocated
    · rename_i j tcp taken
      rw [taken] at allocated
      apply transmit_keeps
      apply Stocked.set allocated
      exact allocated.sockets j

theorem close_keeps (stocked : Stocked s) : Keeps (tcpClose (netReceive now (depth + 2)) now i s) := by
  unfold tcpClose
  split
  · exact (transmit_keeps stocked _ _).bind fun t sent => .of_stocked (sent.set (sent.sockets i))
  · exact (transmit_keeps stocked _ _).bind fun t sent => .of_stocked (release_stocked sent)
  · exact .of_stocked (release_stocked stocked)

theorem udpSend_keeps {n : Option Nat} {address port sourcePort : Nat} {data : Bytes} (stocked : Stocked s) :
    Keeps (udpSend (netReceive now (depth + 2)) now n address port sourcePort data s) := by
  unfold udpSend
  split
  · exact .of_stocked stocked
  · split
    · exact .of_stocked stocked
    · rename_i datagram built
      have size : datagram.length ≤ netMtu := by
        unfold udpDatagram at built
        split at built
        · cases built
        · rename_i short
          cases built
          have small : ¬ data.length > 1500 - 8 := short
          rw [List.length_append]
          change 8 + _ ≤ 1500
          omega
      rw [fill_ok size, ok_bind]
      exact netSendIpv4_keeps (netReceive_hears_all now depth) stocked fun _ _ _ _ _ => trivial

theorem take_stocked {tcp : TcpTable} {bytes : Bytes} {len : Nat} {expired : Bool} (stocked : Stocked s)
    (run : tcpReceive s.tcp.tcp i len expired = some (bytes, tcp)) : Stocked { s with tcp := { s.tcp with tcp := tcp } } := by
  unfold tcpReceive at run
  dsimp only at run
  split at run
  · split at run
    · cases run
      exact stocked
    · cases run
  · cases run
    apply Stocked.set stocked
    have full : (s.tcp.tcp.sockets i).receiveBuffer.length ≤ tcpRxBuffer := stocked.sockets i
    rw [List.length_drop]
    omega

theorem runCall_keeps (stocked : Stocked s) (call : Call) : Keeps (runCall now (depth + 2) call s) := by
  cases call with
  | receive n frame => exact netReceive_keeps depth stocked
  | configure ifaces => exact .of_stocked ⟨stocked.sockets, stocked.udp⟩
  | connect memory address port => exact connect_keeps stocked memory address port
  | chunk i data => exact transmit_keeps stocked _ _
  | take i len =>
    unfold runCall
    dsimp only
    split
    · exact .of_stocked stocked
    · rename_i run
      exact .of_stocked (take_stocked stocked run)
  | close i => exact close_keeps stocked
  | release i => exact .of_stocked (release_stocked stocked)
  | query server data => exact udpSend_keeps ⟨stocked.sockets, Nat.zero_le _⟩
  | giveUp => exact .of_stocked ⟨stocked.sockets, stocked.udp⟩
  | ping n target sequence =>
    apply netSendIpv4_keeps (netReceive_hears_all now depth)
    · exact ⟨stocked.sockets, stocked.udp⟩
    · exact fun _ _ _ _ _ => trivial

theorem reached_stocked (run : Reachable Booted (Step (depth + 2)) s) : Stocked s := by
  apply run.induct Stocked
  · rintro s ⟨zero, -, empty⟩
    constructor
    · intro i
      rw [zero i]
      exact Nat.zero_le _
    · rw [empty]
      exact Nat.zero_le _
  · rintro s t stocked ⟨now, call, run⟩
    obtain ⟨t', same, kept⟩ := runCall_keeps stocked call
    cases run.symm.trans same
    exact kept

/-- In every state that is reached, every frame on every interface is received without a
read outside it or a write outside a buffer, and the receive buffers are not overrun. -/
theorem reception_stays_inside (run : Reachable Booted (Step (depth + 2)) s) :
    (∀ now n frame, ∃ t, netReceive now (depth + 2) n frame s = .ok t) ∧
      ∀ i, (s.socket i).receiveBuffer.length ≤ tcpRxBuffer := by
  have stocked := reached_stocked run
  constructor
  · intro now n frame
    obtain ⟨t, same, -⟩ := netReceive_keeps (n := n) depth stocked
    exact ⟨t, same⟩
  · exact stocked.sockets

/-- The stack with the loopback interface alone. -/
def loStack : Stack where
  ifaces := [lo]
  arp := fun _ => { address := 0, mac := zeroMac, expiresMs := 0, valid := false }
  identification := 0
  pingReceived := false
  pingExpect := 0
  udp := { waiting := false, port := 0, buffer := [] }
  tcp := unused.stack

theorem reception_stays_inside_echo : ∃ t, netReceive 0 2 0 (ethBytes lo lo.mac ethertypeIpv4
    (ipv4Packet 0x7F000001 1 0x7F000001 ipProtoIcmp echoRequest)) loStack = .ok t :=
  (reception_stays_inside (.start ⟨fun _ => rfl, rfl, rfl⟩)).1 0 0 _

end Calls
end Qito.Net.Frames
