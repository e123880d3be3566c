import Qito.Net.Acks

/-! The source address of what a socket sends. The checksum of a segment covers the
address the socket was connected from; the packet around it carries the address of
the interface that the last segment for the socket came in on. A frame that the
loopback interface sends comes in as a frame of its own. -/
namespace Qito.Net
open Runs

structure Interface where
  address : Nat
  up : Bool
  loopback : Bool

/-- The first interface that is up and not the loopback, or else the first one. -/
def netDefaultInterface (ifaces : List Interface) : Option Nat :=
  match ifaces.findIdx? fun f => f.up && !f.loopback with
  | some n => some n
  | none => if ifaces.length = 0 then none else some 0

abbrev netMtu : Nat := 1500
abbrev ipv4HeaderSize : Nat := 20

structure Packet where
  source : Nat
  destination : Nat
  segment : Sent

/-- The packet net_send_ipv4 makes of a segment. -/
def netSendIpv4 (ifaces : List Interface) (sent : Sent) : Option Packet :=
  match ifaces[sent.iface]? with
  | none => none
  | some iface =>
    if tcpHeaderSize + sent.payload.length + ipv4HeaderSize > netMtu then none
    else some { source := iface.address, destination := sent.remoteAddress, segment := sent }

def addressOf (ifaces : List Interface) (n : Nat) : Option Nat := ifaces[n]?.map Interface.address

/-- Frames come in on registered interfaces and connections leave by the default one. -/
def Registered (ifaces : List Interface) : SocketOp → Prop
  | .arrive _ iface _ _ => iface < ifaces.length
  | .connect iface _ _ _ _ =>
    iface = (netDefaultInterface ifaces).bind fun n => (addressOf ifaces n).map fun address => (n, address)
  | _ => True

/-- A segment for a socket comes in on an interface with the address of the socket. -/
def BindOk (ifaces : List Interface) (s : Session) : SocketOp → Prop
  | .arrive _ iface source data => ∀ i, Meant s.stack.tcp source data i →
    addressOf ifaces iface = some (s.socket i).localAddress
  | _ => True

def BindStep (ifaces : List Interface) (s t : Session) : Prop :=
  ∃ op, Registered ifaces op ∧ BindOk ifaces s op ∧ SocketMove s op t

/-- Nothing has been sent yet. -/
def Silent (s : Session) : Prop := Fresh s ∧ s.stack.tcp.outbox = []

/-- Every segment handed over goes out under the address its checksum covers. -/
def Truthful (ifaces : List Interface) (s : Session) : Prop :=
  ∀ sent ∈ s.stack.tcp.outbox, ∃ packet, netSendIpv4 ifaces sent = some packet ∧ packet.source = sent.localAddress

section Tables
variable {ifaces : List Interface} {phase phase' : Fin tcpMaxSockets → Phase} {t : TcpTable} {i : Fin tcpMaxSockets} {data : Bytes}

/-- What the address of a socket's packets depends on. -/
def TcpSocket.anchor (s : TcpSocket) : Bool × Nat × Nat := (s.inUse, s.iface, s.localAddress)

/-- The sockets whose owners are busy with them are in use, and a socket in use
has the address of its interface. -/
structure Anchored (ifaces : List Interface) (phase : Fin tcpMaxSockets → Phase) (t : TcpTable) : Prop where
  used : ∀ i, phase i ≠ .free → (t.sockets i).inUse = true
  bound : ∀ i, (t.sockets i).inUse = true → addressOf ifaces (t.sockets i).iface = some (t.sockets i).localAddress
  sent : ∀ m ∈ t.outbox, addressOf ifaces m.iface = some m.localAddress ∧ m.payload.length ≤ tcpMss

theorem Anchored.truthful {s : Session} (anchored : Anchored ifaces s.phase s.stack.tcp) : Truthful ifaces s := by
  intro m member
  obtain ⟨address, short⟩ := anchored.sent m member
  obtain ⟨iface, entry, same⟩ := Option.map_eq_some_iff.mp address
  have fits : ¬ tcpHeaderSize + m.payload.length + ipv4HeaderSize > netMtu := by
    change ¬ 20 + m.payload.length + 20 > 1500
    change m.payload.length ≤ 1400 at short
    omega
  exact ⟨⟨iface.address, m.remoteAddress, m⟩, by simp only [netSendIpv4, entry, if_neg fits], same⟩

theorem Anchored.put {socket : TcpSocket} (anchored : Anchored ifaces phase t)
    (others : ∀ k, k ≠ i → phase' k ≠ .free → phase k ≠ .free) (used : phase' i ≠ .free → socket.inUse = true)
    (bound : socket.inUse = true → addressOf ifaces socket.iface = some socket.localAddress) :
    Anchored ifaces phase' (setSocket t i socket) where
  used k busy := by
    by_cases here : k = i
    · subst here
      rw [setSocket_same]
      exact used busy
    · rw [setSocket_other here]
      exact anchored.used k (others k here busy)
  bound k live := by
    by_cases here : k = i
    · subst here
      rw [setSocket_same] at live ⊢
      exact bound live
    · rw [setSocket_other here] at live ⊢
      exact anchored.bound k live
  sent := anchored.sent

theorem Anchored.rephase (anchored : Anchored ifaces phase t) (used : ∀ k, phase' k ≠ .free → (t.sockets k).inUse = true) :
    Anchored ifaces phase' t := ⟨used, anchored.bound, anchored.sent⟩

/-- The table keeps to its addresses and this socket is in use. -/
def Held (ifaces : List Interface) (phase : Fin tcpMaxSockets → Phase) (t : TcpTable) (i : Fin tcpMaxSockets) : Prop :=
  Anchored ifaces phase t ∧ (t.sockets i).inUse = true

theorem Held.edit {socket : TcpSocket} (held : Held ifaces phase t i) (same : socket.anchor = (t.sockets i).anchor) :
    Held ifaces phase (setSocket t i socket) i := by
  obtain ⟨anchored, live⟩ := held
  have use : socket.inUse = (t.sockets i).inUse := congrArg Prod.fst same
  have iface : socket.iface = (t.sockets i).iface := congrArg (fun a => a.2.1) same
  have address : socket.localAddress = (t.sockets i).localAddress := congrArg (fun a => a.2.2) same
  have live' : socket.inUse = true := use.trans live
  constructor
  · apply anchored.put (fun k _ busy => busy) (fun _ => live')
    intro _
    rw [iface, address]
    exact anchored.bound i live
  · rw [setSocket_same]
    exact live'

theorem Held.send {m : Sent} {socket : TcpSocket} (held : Held ifaces phase t i) (same : socket.anchor = (t.sockets i).anchor)
    (iface : m.iface = (t.sockets i).iface) (address : m.localAddress = (t.sockets i).localAddress)
    (short : m.payload.length ≤ tcpMss) :
    Held ifaces phase { sockets := Function.update t.sockets i socket, outbox := t.outbox ++ [m] } i := by
  obtain ⟨edited, live⟩ := held.edit same
  refine ⟨⟨edited.used, edited.bound, ?_⟩, live⟩
  intro m' member
  rcases List.mem_append.mp member with old | new
  · exact held.1.sent m' old
  · cases List.mem_singleton.mp new
    rw [iface, address]
    exact ⟨held.1.bound i held.2, short⟩

theorem Held.transmit (held : Held ifaces phase t i) (flags : Nat) : Held ifaces phase (tcpTransmit t i flags) i :=
  held.send rfl rfl rfl (by simp)

theorem Held.transmitData (held : Held ifaces phase t i) (flags : Nat) (payload : Bytes) :
    Held ifaces phase (tcpTransmitData t i flags payload) i :=
  held.send rfl rfl rfl (by simp)

theorem accept_anchor (s : TcpSocket) (sequence : Nat) (payload : Bytes) : (accept s sequence payload).anchor = s.anchor := by
  unfold accept
  split
  · rfl
  · rfl

theorem Held.inputOpen (held : Held ifaces phase t i) : Held ifaces phase (inputOpen t i data) i := by
  have acknowledged : Held ifaces phase (if has (flagsOf data) tcpAck then
      setSocket t i { t.sockets i with
        sendUnack := acknowledgementOf data
        pending := none
        retries := if (t.sockets i).pending.isSome then 0 else (t.sockets i).retries }
    else t) i := by
    split
    · exact held.edit rfl
    · exact held
  have accepted {t : TcpTable} (held : Held ifaces phase t i) : Held ifaces phase (if (payloadOf data).length > 0 then
      tcpTransmit (setSocket t i (accept (t.sockets i) (sequenceOf data) (payloadOf data))) i tcpAck
    else t) i := by
    split
    · exact (held.edit (accept_anchor _ _ _)).transmit tcpAck
    · exact held
  have finished {t : TcpTable} (held : Held ifaces phase t i) : Held ifaces phase (if has (flagsOf data) tcpFin then
      tcpTransmit (setSocket t i { t.sockets i with
        receiveNext := wrap32 (sequenceOf data + (payloadOf data).length + 1)
        state := .closeWait }) i tcpAck
    else t) i := by
    split
    · apply Held.transmit
      exact held.edit rfl
    · exact held
  exact finished (accepted acknowledged)

theorem Held.inputSynSent (held : Held ifaces phase t i) : Held ifaces phase (inputSynSent t i data) i := by
  unfold Net.inputSynSent
  split
  · apply Held.transmit
    exact held.edit rfl
  · exact held

theorem receiveNext_anchor (s : TcpSocket) (n : Nat) : { s with receiveNext := n }.anchor = s.anchor := rfl

theorem Held.inputFinWait (held : Held ifaces phase t i) : Held ifaces phase (inputFinWait t i data) i := by
  have acknowledged : Held ifaces phase
      (if has (flagsOf data) tcpAck then setSocket t i { t.sockets i with state := .closed } else t) i := by
    split
    · exact held.edit rfl
    · exact held
  have finished {t : TcpTable} (held : Held ifaces phase t i) : Held ifaces phase (if has (flagsOf data) tcpFin then
      let t := tcpTransmit (setSocket t i { t.sockets i with receiveNext := wrap32 (sequenceOf data + 1) }) i tcpAck
      setSocket t i { t.sockets i with state := .closed }
    else t) i := by
    split
    · apply Held.edit
      · apply Held.transmit
        exact held.edit (receiveNext_anchor _ _)
      · rfl
    · exact held
  exact finished acknowledged

theorem Held.handle (held : Held ifaces phase t i) : Held ifaces phase (handle t i data) i := by
  unfold Net.handle
  split
  · exact held.edit rfl
  · split
    · exact held.inputSynSent
    · exact held.inputOpen
    · exact held.inputOpen
    · exact held.inputFinWait
    · exact held

theorem Anchored.input {now iface source : Nat} (anchored : Anchored ifaces phase t)
    (ok : ∀ i, Meant t source data i → addressOf ifaces iface = some (t.sockets i).localAddress) :
    Anchored ifaces phase (tcpInput now iface source t data) := by
  by_cases some_ : ∃ j, Meant t source data j
  · obtain ⟨j, meant⟩ := some_
    have live : (t.sockets j).inUse = true := by
      have found := List.find?_some meant.2.2
      simp only [Bool.and_eq_true] at found
      exact found.1.1.1
    rw [tcpInput_found now iface source meant]
    refine (Held.handle ⟨?_, ?_⟩).1
    · exact anchored.put (fun k _ busy => busy) (fun _ => live) fun _ => ok j meant
    · rw [setSocket_same]
      exact live
  · rw [tcpInput_unfound now iface source (not_exists.mp some_)]
    exact anchored

theorem Anchored.release (stack : TcpStack) (anchored : Anchored ifaces phase stack.tcp) (free : phase' i = .free)
    (others : ∀ k, k ≠ i → phase' k = phase k) : Anchored ifaces phase' (socketRelease stack i).tcp := by
  unfold socketRelease
  split
  · apply anchored.rephase
    intro k busy
    have ne : k ≠ i := by
      rintro rfl
      exact busy free
    exact anchored.used k (others k ne ▸ busy)
  · exact anchored.put (fun k ne busy => others k ne ▸ busy) (fun busy => absurd free busy) (fun live => by cases live)

end Tables

section Steps
variable {ifaces : List Interface} {s t : Session} {i : Fin tcpMaxSockets}

theorem setPhase_busy {phase : Phase} (stack : TcpStack) (anchored : Anchored ifaces s.phase stack.tcp)
    (busy : s.phase i ≠ .free) : Anchored ifaces (setPhase s i phase stack).phase stack.tcp := by
  apply anchored.rephase
  intro k active
  by_cases here : k = i
  · subst here
    exact anchored.used k busy
  · exact anchored.used k (by simpa [setPhase, here] using active)

theorem connect_anchored {iface : Option (Nat × Nat)} {memory : Bool} {now address port : Nat}
    (anchored : Anchored ifaces s.phase s.stack.tcp)
    (place : ∀ n a, iface = some (n, a) → addressOf ifaces n = some a)
    (move : SocketMove s (.connect iface memory now address port) t) : Anchored ifaces t.phase t.stack.tcp := by
  cases iface with
  | none =>
    cases move
    exact anchored
  | some place_ =>
    obtain ⟨n, a⟩ := place_
    have known := place n a rfl
    have free {j : Fin tcpMaxSockets} (unused : (s.stack.tcp.sockets j).inUse = false) : s.phase j = .free := by
      by_contra busy
      cases unused.symm.trans (anchored.used j busy)
    rcases socketAllocate_cases memory s.stack with none_ | ⟨j, unused, zeroed | taken⟩
    · simp only [SocketMove, tcpConnect, none_] at move
      cases move
      exact anchored
    · simp only [SocketMove, tcpConnect, zeroed] at move
      cases move
      exact anchored.put (fun k _ busy => busy) (fun busy => absurd (free unused) busy) (fun live => by cases live)
    · simp only [SocketMove, tcpConnect, taken] at move
      subst move
      have held : Held ifaces (Function.update s.phase j .connecting) (setSocket s.stack.tcp j
          { zeroSocket with
            inUse := true
            localPort := s.stack.nextEphemeralPort
            iface := n
            localAddress := a
            remoteAddress := address
            remotePort := port
            sendNext := initialSequence now
            sendUnack := initialSequence now
            state := .synSent }) j := by
        constructor
        · exact anchored.put (fun k ne busy => by simpa [ne] using busy) (fun _ => rfl) fun _ => known
        · rw [setSocket_same]
      have sent := (held.transmitData tcpSyn []).1
      simpa [setPhase, setSocket, Function.update_self, Function.update_idem] using sent

theorem step_anchored (anchored : Anchored ifaces s.phase s.stack.tcp) (step : BindStep ifaces s t) :
    Anchored ifaces t.phase t.stack.tcp := by
  obtain ⟨op, registered, ok, move⟩ := step
  cases op with
  | arrive now iface source data =>
    cases move
    exact anchored.input ok
  | connect iface memory now address port =>
    apply connect_anchored anchored _ move
    intro n a same
    rw [registered] at same
    obtain ⟨m, -, entry⟩ := Option.bind_eq_some_iff.mp same
    obtain ⟨a', known, both⟩ := Option.map_eq_some_iff.mp entry
    cases both
    exact known
  | connected j expired =>
    obtain ⟨phase, -, rfl⟩ := move
    have busy : s.phase j ≠ .free := by simp [phase]
    by_cases done : (s.stack.tcp.sockets j).state = .established
    · simp only [tcpConnectEnd, done, ne_eq, not_true_eq_false, if_false]
      exact setPhase_busy s.stack anchored busy
    · simp only [tcpConnectEnd, done, ne_eq, not_false_eq_true, if_true]
      exact anchored.release s.stack (Function.update_self ..) fun k ne => Function.update_of_ne ne ..
  | send j data =>
    obtain ⟨phase, rfl⟩ := move
    have busy : s.phase j ≠ .free := by simp [phase]
    split
    · exact setPhase_busy s.stack anchored busy
    · exact anchored
  | chunk j sent =>
    obtain ⟨rest, phase, rfl⟩ := move
    have busy : s.phase j ≠ .free := by simp [phase]
    split
    · exact setPhase_busy s.stack anchored busy
    · have held : Held ifaces s.phase s.stack.tcp j := ⟨anchored, anchored.used j busy⟩
      exact setPhase_busy (tcpSendChunk s.stack j rest) (held.transmitData _ _).1 busy
  | receive j len expired =>
    obtain ⟨phase, bytes, tcp, run, rfl⟩ := move
    have busy : s.phase j ≠ .free := by simp [phase]
    have held : Held ifaces s.phase s.stack.tcp j := ⟨anchored, anchored.used j busy⟩
    simp only [tcpReceive] at run
    split at run
    · split at run
      · cases run
        exact anchored
      · cases run
    · cases run
      have edited : Held ifaces s.phase (setSocket s.stack.tcp j { s.stack.tcp.sockets j with
          receiveBuffer := (s.stack.tcp.sockets j).receiveBuffer.drop (min len (s.stack.tcp.sockets j).receiveBuffer.length) }) j :=
        held.edit rfl
      exact edited.1
  | close j =>
    obtain ⟨phase, rfl⟩ := move
    have busy : s.phase j ≠ .free := by simp [phase]
    have held : Held ifaces s.phase s.stack.tcp j := ⟨anchored, anchored.used j busy⟩
    have sent := held.transmitData (tcpFin ||| tcpAck) []
    rw [tcpClose]
    split
    · have waits : Held ifaces s.phase (setSocket (tcpTransmitData s.stack.tcp j (tcpFin ||| tcpAck) []) j
          { (tcpTransmitData s.stack.tcp j (tcpFin ||| tcpAck) []).sockets j with state := .finWait }) j := sent.edit rfl
      exact setPhase_busy { s.stack with tcp := _ } waits.1 busy
    · exact Anchored.release { s.stack with tcp := _ } sent.1 (Function.update_self ..)
        fun k ne => Function.update_of_ne ne ..
    · exact anchored.release s.stack (Function.update_self ..) fun k ne => Function.update_of_ne ne ..
  | closed j expired =>
    obtain ⟨phase, -, rfl⟩ := move
    exact anchored.release s.stack (Function.update_self ..) fun k ne => Function.update_of_ne ne ..

theorem packets_carry_the_checked_source (run : Reachable Silent (BindStep ifaces) s) : Truthful ifaces s := by
  have anchored : Anchored ifaces s.phase s.stack.tcp := by
    apply run.induct fun s => Anchored ifaces s.phase s.stack.tcp
    · rintro s ⟨fresh, empty⟩
      constructor
      · exact fun i busy => absurd (fresh.2 i) busy
      · intro i live
        have zero : s.stack.tcp.sockets i = zeroSocket := fresh.1 i
        rw [zero] at live
        cases live
      · simp [empty]
    · exact fun _ _ => step_anchored
  exact anchored.truthful

end Steps

section Strays

/-- The loopback interface and two cards. -/
def twoCards : List Interface :=
  [⟨0x7F000001, true, true⟩, ⟨0x0A00020F, true, false⟩, ⟨0xC0A8010F, true, false⟩]

/-- A SYN to port 80 of host 1 has left by the first card. -/
def calling : Session :=
  { setPhase unused 0 .connecting (tcpConnect (some (1, 0x0A00020F)) true 0 1 80 unused.stack).2 with
    syn := Function.update unused.syn 0 (initialSequence 0) }

/-- The answer to it has come in on this interface. -/
def called (iface : Nat) : Session :=
  { calling with stack := { calling.stack with tcp := tcpInput 0 iface 1 calling.stack.tcp (answer 1) } }

theorem calling_move : SocketMove unused (.connect (some (1, 0x0A00020F)) true 0 1 80) calling := rfl

theorem unused_silent : Silent unused := ⟨⟨fun _ => rfl, fun _ => rfl⟩, rfl⟩

theorem calling_registered : Registered twoCards (.connect (some (1, 0x0A00020F)) true 0 1 80) := by
  change _ = _
  decide

theorem answer_registered {n : Nat} (known : n < 3) : Registered twoCards (.arrive 0 n 1 (answer 1)) := known

theorem packets_carry_the_checked_source_handshake :
    (called 1).stack.tcp.outbox.length = 2 ∧ Truthful twoCards (called 1) := by
  have start : Reachable Silent (BindStep twoCards) unused := .start unused_silent
  have first : Reachable Silent (BindStep twoCards) calling := start.next ⟨_, calling_registered, trivial, calling_move⟩
  have ok : BindOk twoCards calling (.arrive 0 1 1 (answer 1)) := by
    rintro i ⟨-, -, found⟩
    have here : socketFind calling.stack.tcp 1 (sourcePort (answer 1)) (destPort (answer 1)) = some 0 := by decide
    cases here.symm.trans found
    decide
  have second : Reachable Silent (BindStep twoCards) (called 1) := first.next ⟨_, answer_registered (by decide), ok, rfl⟩
  exact ⟨by decide, packets_carry_the_checked_source second⟩

/-- The answer comes in on the other card: the next segment leaves from there, under
an address that its checksum does not cover. -/
theorem answer_on_the_other_card : ¬ ∀ ifaces s,
    Reachable Silent (fun s t => ∃ op, Registered ifaces op ∧ SocketMove s op t) s → Truthful ifaces s := by
  intro always
  have start : Reachable Silent (fun s t => ∃ op, Registered twoCards op ∧ SocketMove s op t) unused := .start unused_silent
  have first := start.next ⟨_, calling_registered, calling_move⟩
  have second := first.next (t := called 2) ⟨_, answer_registered (by decide), rfl⟩
  have checked : (called 2).stack.tcp.outbox.all (fun sent =>
      (netSendIpv4 twoCards sent).any fun packet => packet.source == sent.localAddress) = true := by
    rw [List.all_eq_true]
    intro sent member
    obtain ⟨packet, same, source⟩ := always twoCards (called 2) second sent member
    simp [same, source]
  revert checked
  decide

end Strays

end Qito.Net
