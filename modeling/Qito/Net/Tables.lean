import Qito.Net.Bounds

/-! The socket table behind the receive path. On a card, which does not hear itself, a
segment in a frame changes the sockets as the same segment alone does. -/
namespace Qito.Net.Frames
open Faults Words

section Sending
variable {loop : Nat → Bytes → Stack → Except Fault Stack} {now n : Nat} {s t : Stack} {i : Fin tcpMaxSockets}

/-- The interface with this number is not the loopback. -/
def Card (s : Stack) (n : Nat) : Prop := ∀ iface, s.ifaces[n]? = some iface → iface.loopback = false

theorem ethSend_card {hop : Mac} {type : Nat} {payload : Bytes} (card : Card s n)
    (run : ethSend loop n hop type payload s = .ok t) : t = s := by
  unfold ethSend at run
  split at run
  · cases run
    rfl
  · rename_i iface entry
    split at run
    · cases run
      rfl
    · obtain ⟨-, -, run⟩ := bind_ok.mp run
      split at run
      · rename_i looped
        have loops := iface.looped looped
        rw [card iface entry] at loops
        cases loops
      · cases run
        rfl

theorem arpCacheLookup_tcp (address : Nat) : (arpCacheLookup now address s).2.tcp = s.tcp := by
  unfold arpCacheLookup
  split
  · rfl
  · split
    · rfl
    · rfl

theorem netSendIpv4_card {destination protocol : Nat} {payload : Bytes} (card : Card s n)
    (run : netSendIpv4 loop now n destination protocol payload s = .ok t) : t.tcp = s.tcp ∧ t.ifaces = s.ifaces := by
  unfold netSendIpv4 at run
  split at run
  · cases run
    exact ⟨rfl, rfl⟩
  · rename_i iface entry
    split at run
    · cases run
      exact ⟨rfl, rfl⟩
    · dsimp only at run
      obtain ⟨-, -, run⟩ := bind_ok.mp run
      split at run
      · rename_i loops
        rw [card iface entry] at loops
        cases loops
      · let counted := { s with identification := (s.identification + 1) % 2 ^ 16 }
        have ifaces : (arpCacheLookup now destination counted).2.ifaces = s.ifaces := (arpCacheLookup_same destination).1
        have tcp : (arpCacheLookup now destination counted).2.tcp = s.tcp := arpCacheLookup_tcp destination
        split at run
        · rename_i mac u found
          have found : arpCacheLookup now destination counted = (some mac, u) := found
          rw [found] at ifaces tcp
          have card' : Card u n := fun iface entry => card iface (ifaces ▸ entry)
          rw [ethSend_card card' run]
          exact ⟨tcp, ifaces⟩
        · rename_i u found
          have found : arpCacheLookup now destination counted = (none, u) := found
          rw [found] at ifaces tcp
          have card' : Card u n := fun iface entry => card iface (ifaces ▸ entry)
          rw [ethSend_card card' run]
          exact ⟨tcp, ifaces⟩

theorem socket_set (socket : TcpSocket) : (s.setSocket i socket).socket i = socket := setSocket_same socket

/-- The socket sends by a card. -/
structure Carded (n : Nat) (i : Fin tcpMaxSockets) (s : Stack) : Prop where
  iface : (s.socket i).iface = n
  card : Card s n
  next : (s.socket i).sendNext < 2 ^ 32

theorem Carded.set (carded : Carded n i s) (socket : TcpSocket) (iface : socket.iface = (s.socket i).iface)
    (next : socket.sendNext = (s.socket i).sendNext) : Carded n i (s.setSocket i socket) := by
  constructor
  · rw [socket_set, iface]
    exact carded.iface
  · exact carded.card
  · rw [socket_set, next]
    exact carded.next

theorem tcpTransmit_card (carded : Carded n i s) (run : tcpTransmit loop now i tcpAck [] s = .ok t) :
    t.tcp.tcp = Net.tcpTransmit s.tcp.tcp i tcpAck ∧ Carded n i t := by
  unfold tcpTransmit at run
  dsimp only at run
  obtain ⟨-, -, run⟩ := bind_ok.mp run
  obtain ⟨u, sent, run⟩ := bind_ok.mp run
  have card : Card s (segmentOf (s.socket i) tcpAck []).iface := by
    change Card s (s.socket i).iface
    rw [carded.iface]
    exact carded.card
  obtain ⟨tcp, ifaces⟩ := netSendIpv4_card (s := { s with tcp := { s.tcp with tcp := { s.tcp.tcp with
    outbox := s.tcp.tcp.outbox ++ [segmentOf (s.socket i) tcpAck []] } } }) card sent
  have socket : u.socket i = s.socket i := by
    rw [Stack.socket, tcp]
    rfl
  have plain : has tcpAck (tcpSyn ||| tcpFin) = false := by decide
  have whole : wrap32 ((s.socket i).sendNext + 0) = (s.socket i).sendNext := Nat.mod_eq_of_lt carded.next
  have next : (u.setSocket i { u.socket i with sendNext := wrap32 ((if has tcpAck (tcpSyn ||| tcpFin) then
      wrap32 ((u.socket i).sendNext + 1) else (u.socket i).sendNext) + (segmentOf (s.socket i) tcpAck []).payload.length) }) = t :=
    Except.ok.inj run
  rw [plain, socket] at next
  have same : (segmentOf (s.socket i) tcpAck []).payload.length = 0 := rfl
  rw [same, if_neg Bool.false_ne_true, whole] at next
  subst next
  have card' : Card u n := fun iface entry => carded.card iface (ifaces ▸ entry)
  constructor
  · change Net.setSocket u.tcp.tcp i (s.socket i) = _
    rw [tcp]
    rfl
  · constructor
    · rw [socket_set]
      exact carded.iface
    · exact card'
    · rw [socket_set]
      exact carded.next

end Sending

section Receiving
variable {loop : Nat → Bytes → Stack → Except Fault Stack} {now n : Nat} {s t : Stack} {i : Fin tcpMaxSockets}
  {frame segment : Bytes} {data len payload sequence acknowledgement flags : Nat}

theorem byteAt_segment {k : Nat} (within : k < len) : byteAt ((frame.drop data).take len) k = byteAt frame (data + k) := by
  rw [byteAt, byteAt, List.getD_eq_getElem?_getD, List.getD_eq_getElem?_getD, List.getElem?_take_of_lt within,
    List.getElem?_drop]

theorem be16_segment {k : Nat} (within : k + 1 < len) : be16 ((frame.drop data).take len) k = be16 frame (data + k) := by
  rw [be16, be16, byteAt_segment (by omega), byteAt_segment within, Nat.add_assoc]

theorem be32_segment {k : Nat} (within : k + 3 < len) : be32 ((frame.drop data).take len) k = be32 frame (data + k) := by
  rw [be32, be32, be16_segment (by omega), be16_segment (by omega), Nat.add_assoc]

/-- What a handler that has the fields of a segment is told of it. -/
structure Fields (segment frame : Bytes) (sequence acknowledgement flags payload len : Nat) : Prop where
  number : sequenceOf segment = sequence
  acked : acknowledgementOf segment = acknowledgement
  bits : flagsOf segment = flags
  bytes : payloadOf segment = (frame.drop payload).take len
  inside : payload + len ≤ frame.length

theorem Fields.length (fields : Fields segment frame sequence acknowledgement flags payload len) :
    (payloadOf segment).length = len := by
  have inside := fields.inside
  rw [fields.bytes, List.length_take, List.length_drop]
  omega

theorem takePayload_card (fields : Fields segment frame sequence acknowledgement flags payload len) (carded : Carded n i s)
    (word : (s.socket i).receiveNext < 2 ^ 32) (full : (s.socket i).receiveBuffer.length ≤ tcpRxBuffer)
    (run : takePayload i sequence frame payload len s = .ok t) :
    t.tcp.tcp = Net.setSocket s.tcp.tcp i (accept (s.socket i) sequence (payloadOf segment)) ∧ Carded n i t := by
  have length := fields.length
  have inside := fields.inside
  have space : sub64 tcpRxBuffer (s.socket i).receiveBuffer.length = tcpRxBuffer - (s.socket i).receiveBuffer.length := by
    have bound : (s.socket i).receiveBuffer.length ≤ 16384 := full
    change (2 ^ 64 + 16384 - (s.socket i).receiveBuffer.length) % 2 ^ 64 = 16384 - (s.socket i).receiveBuffer.length
    omega
  have unchanged : Net.setSocket s.tcp.tcp i (s.socket i) = s.tcp.tcp := by
    rw [Net.setSocket, Stack.socket, Function.update_eq_self]
  unfold takePayload at run
  dsimp only at run
  rw [space] at run
  unfold accept
  split at run
  · rename_i expected
    rw [if_pos expected, length]
    dsimp only
    split at run
    · obtain ⟨bytes, read, run⟩ := bind_ok.mp run
      rw [getBytes_ok (by omega)] at read
      obtain ⟨-, -, run⟩ := bind_ok.mp run
      have taken : (payloadOf segment).take (min len (tcpRxBuffer - (s.socket i).receiveBuffer.length)) = bytes := by
        rw [fields.bytes, List.take_take, Nat.min_eq_left (Nat.min_le_left ..)]
        exact Except.ok.inj read
      rw [taken]
      cases Except.ok.inj run
      exact ⟨rfl, carded.set _ rfl rfl⟩
    · rename_i none_
      have zero : min len (tcpRxBuffer - (s.socket i).receiveBuffer.length) = 0 := by omega
      cases Except.ok.inj run
      have whole : wrap32 ((s.socket i).receiveNext + 0) = (s.socket i).receiveNext := Nat.mod_eq_of_lt word
      rw [zero, List.take_zero, List.append_nil, whole]
      exact ⟨unchanged.symm, carded⟩
  · rename_i unexpected
    rw [if_neg unexpected]
    cases Except.ok.inj run
    exact ⟨unchanged.symm, carded⟩

theorem inputOpen_card (fields : Fields segment frame sequence acknowledgement flags payload len) (carded : Carded n i s)
    (word : (s.socket i).receiveNext < 2 ^ 32) (full : (s.socket i).receiveBuffer.length ≤ tcpRxBuffer)
    (run : inputOpen loop now i sequence acknowledgement flags frame payload len s = .ok t) :
    t.tcp.tcp = Net.inputOpen s.tcp.tcp i segment := by
  let acked := if has flags tcpAck then
      s.setSocket i { s.socket i with
        sendUnack := acknowledgement
        pending := none
        retries := if (s.socket i).pending.isSome then 0 else (s.socket i).retries }
    else s
  have first : acked.tcp.tcp = (if has flags tcpAck then
      Net.setSocket s.tcp.tcp i { s.tcp.tcp.sockets i with
        sendUnack := acknowledgement
        pending := none
        retries := if (s.tcp.tcp.sockets i).pending.isSome then 0 else (s.tcp.tcp.sockets i).retries }
    else s.tcp.tcp) ∧ Carded n i acked ∧ (acked.socket i).receiveNext = (s.socket i).receiveNext ∧
      (acked.socket i).receiveBuffer = (s.socket i).receiveBuffer := by
    simp only [acked]
    split
    · refine ⟨rfl, carded.set _ rfl rfl, ?_, ?_⟩
      · rw [socket_set]
      · rw [socket_set]
    · exact ⟨rfl, carded, rfl, rfl⟩
  obtain ⟨table, carded, next, buffer⟩ := first
  unfold inputOpen at run
  obtain ⟨u, taken, run⟩ := bind_ok.mp run
  have second : u.tcp.tcp = (if (payloadOf segment).length > 0 then
      Net.tcpTransmit (Net.setSocket acked.tcp.tcp i (accept (acked.tcp.tcp.sockets i) (sequenceOf segment) (payloadOf segment))) i
        tcpAck
    else acked.tcp.tcp) ∧ Carded n i u := by
    have taken : inputPayload loop now i sequence frame payload len acked = .ok u := taken
    rw [fields.length, fields.number]
    unfold inputPayload at taken
    split at taken
    · rename_i some_
      obtain ⟨v, copied, sent⟩ := bind_ok.mp taken
      obtain ⟨accepted, carded⟩ := takePayload_card fields carded (next ▸ word) (buffer ▸ full) copied
      obtain ⟨after, carded⟩ := tcpTransmit_card carded sent
      rw [if_pos some_, after, accepted]
      exact ⟨rfl, carded⟩
    · rename_i none_
      cases Except.ok.inj taken
      rw [if_neg none_]
      exact ⟨rfl, carded⟩
  obtain ⟨table', carded⟩ := second
  rw [Net.inputOpen]
  dsimp only
  rw [fields.bits, fields.acked, ← table, ← table']
  split at run
  · rename_i fin
    obtain ⟨after, -⟩ := tcpTransmit_card (carded.set { u.socket i with
      receiveNext := wrap32 (sequence + len + 1)
      state := .closeWait } rfl rfl) run
    rw [if_pos fin, after, fields.number, fields.length]
    rfl
  · rename_i fin
    cases Except.ok.inj run
    rw [if_neg fin]

theorem inputSynSent_card (fields : Fields segment frame sequence acknowledgement flags payload len) (carded : Carded n i s)
    (run : inputSynSent loop now i sequence acknowledgement flags s = .ok t) :
    t.tcp.tcp = Net.inputSynSent s.tcp.tcp i segment := by
  unfold inputSynSent at run
  rw [Net.inputSynSent, fields.bits, fields.number, fields.acked]
  split at run
  · rename_i both
    obtain ⟨after, -⟩ := tcpTransmit_card (carded.set { s.socket i with
      receiveNext := wrap32 (sequence + 1)
      sendUnack := acknowledgement
      state := .established } rfl rfl) run
    rw [if_pos both, after]
    rfl
  · rename_i both
    cases Except.ok.inj run
    rw [if_neg both]

theorem inputFinWait_card (fields : Fields segment frame sequence acknowledgement flags payload len) (carded : Carded n i s)
    (run : inputFinWait loop now i sequence flags s = .ok t) : t.tcp.tcp = Net.inputFinWait s.tcp.tcp i segment := by
  let acked := if has flags tcpAck then s.setSocket i { s.socket i with state := .closed } else s
  have first : acked.tcp.tcp = (if has flags tcpAck then
      Net.setSocket s.tcp.tcp i { s.tcp.tcp.sockets i with state := .closed } else s.tcp.tcp) ∧ Carded n i acked := by
    simp only [acked]
    split
    · exact ⟨rfl, carded.set _ rfl rfl⟩
    · exact ⟨rfl, carded⟩
  obtain ⟨table, carded⟩ := first
  unfold inputFinWait at run
  dsimp only at run
  rw [Net.inputFinWait]
  dsimp only
  rw [fields.bits, fields.number, ← table]
  split at run
  · rename_i fin
    obtain ⟨u, sent, run⟩ := bind_ok.mp run
    obtain ⟨after, -⟩ := tcpTransmit_card ((show Carded n i acked from carded).set { acked.socket i with
      receiveNext := wrap32 (sequence + 1) } rfl rfl) sent
    cases Except.ok.inj run
    rw [if_pos fin]
    change Net.setSocket u.tcp.tcp i { u.tcp.tcp.sockets i with state := .closed } = _
    rw [after]
    rfl
  · rename_i fin
    cases Except.ok.inj run
    rw [if_neg fin]

theorem tcpInput_card {source : Nat} (inside : data + len ≤ frame.length) (card : Card s n)
    (words : ∀ i, (s.socket i).sendNext < 2 ^ 32 ∧ (s.socket i).receiveNext < 2 ^ 32)
    (full : ∀ i, (s.socket i).receiveBuffer.length ≤ tcpRxBuffer)
    (run : tcpInput loop now n source frame data len s = .ok t) :
    t.tcp.tcp = Net.tcpInput now n source s.tcp.tcp ((frame.drop data).take len) := by
  have length : ((frame.drop data).take len).length = len := by
    rw [List.length_take, List.length_drop]
    omega
  unfold tcpInput at run
  rw [Net.tcpInput, length]
  split at run
  · rename_i short
    cases Except.ok.inj run
    rw [if_pos short]
  · rename_i short
    have twenty : ¬ len < 20 := short
    have header : headerLen ((frame.drop data).take len) = byteAt frame (data + 12) / 16 * 4 := by
      rw [headerLen, byteAt_segment (by omega)]
    rw [if_neg short, header]
    rw [get16_ok (by omega), ok_bind, get16_ok (by omega), ok_bind, getByte_ok (by omega), ok_bind] at run
    dsimp only at run
    split at run
    · rename_i broken
      cases Except.ok.inj run
      rw [if_pos broken]
    · rename_i whole
      rw [if_neg whole, sourcePort, destPort, be16_segment (by omega), be16_segment (by omega)]
      have zero : data + 0 = data := rfl
      rw [zero]
      cases found : socketFind s.tcp.tcp source (be16 frame data) (be16 frame (data + 2)) with
      | none =>
        rw [found] at run
        cases Except.ok.inj run
        rfl
      | some i =>
        rw [found] at run
        dsimp only at run ⊢
        rw [get16_ok (by omega), ok_bind, get32_ok (by omega), ok_bind, get32_ok (by omega), ok_bind,
          getByte_ok (by omega), ok_bind] at run
        have fields : Fields ((frame.drop data).take len) frame (be32 frame (data + 4)) (be32 frame (data + 8))
            (byteAt frame (data + 13)) (data + byteAt frame (data + 12) / 16 * 4) (len - byteAt frame (data + 12) / 16 * 4) := by
          constructor
          · exact be32_segment (by omega)
          · exact be32_segment (by omega)
          · exact byteAt_segment (by omega)
          · rw [payloadOf, header, List.drop_take, List.drop_drop]
          · omega
        have window : windowOf ((frame.drop data).take len) = be16 frame (data + 14) := be16_segment (by omega)
        let u := s.setSocket i { s.socket i with
          iface := n
          lastActivityMs := now
          remoteWindow := be16 frame (data + 14) }
        have carded : Carded n i u := by
          constructor
          · rw [socket_set]
          · exact card
          · rw [socket_set]
            exact (words i).1
        have word : (u.socket i).receiveNext < 2 ^ 32 := by
          rw [socket_set]
          exact (words i).2
        have stocked : (u.socket i).receiveBuffer.length ≤ tcpRxBuffer := by
          rw [socket_set]
          exact full i
        rw [window]
        change _ = handle u.tcp.tcp i ((frame.drop data).take len)
        rw [handle, fields.bits]
        split at run
        · rename_i reset
          rw [if_pos reset]
          cases Except.ok.inj run
          rfl
        · rename_i reset
          rw [if_neg reset]
          split at run
          · rename_i state
            have here : (u.tcp.tcp.sockets i).state = .synSent := state
            rw [here]
            exact inputSynSent_card fields carded run
          · rename_i state
            have here : (u.tcp.tcp.sockets i).state = .established := state
            rw [here]
            exact inputOpen_card fields carded word stocked run
          · rename_i state
            have here : (u.tcp.tcp.sockets i).state = .closeWait := state
            rw [here]
            exact inputOpen_card fields carded word stocked run
          · rename_i state
            have here : (u.tcp.tcp.sockets i).state = .finWait := state
            rw [here]
            exact inputFinWait_card fields carded run
          · rename_i state
            have here : (u.tcp.tcp.sockets i).state = .closed := state
            rw [here]
            cases Except.ok.inj run
            rfl

end Receiving
end Qito.Net.Frames
