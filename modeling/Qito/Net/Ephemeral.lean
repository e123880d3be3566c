import Qito.Net.Acks

/-! Local ports. One counter serves the sockets and the queries of dns_resolve; only
socket_allocate takes it back to the first ephemeral port when it has gone round, and
neither of them looks at the ports of the sockets in use. -/
namespace Qito.Net
open Runs

/-- The source port of a query of dns_resolve. -/
def dnsSourcePort (s : TcpStack) : Nat × TcpStack :=
  (s.nextEphemeralPort, { s with nextEphemeralPort := (s.nextEphemeralPort + 1) % 2 ^ 16 })

/-- The sockets with every local port that has been handed out. -/
structure PortSession where
  session : Session
  handed : List Nat

inductive PortOp where
  | socket (op : SocketOp)
  | resolve

/-- The local port that a call takes. -/
def portTaken (s : Session) : SocketOp → List Nat
  | .connect iface memory now address port =>
    match tcpConnect iface memory now address port s.stack with
    | (none, _) => []
    | (some i, stack) => [(stack.tcp.sockets i).localPort]
  | _ => []

/-- A step of the sockets, or dns_resolve up to its query. -/
def PortMove (s : PortSession) (op : PortOp) (t : PortSession) : Prop :=
  match op with
  | .socket op => SocketMove s.session op t.session ∧ t.handed = s.handed ++ portTaken s.session op
  | .resolve => t =
    { session := { s.session with stack := (dnsSourcePort s.session.stack).2 }
      handed := s.handed ++ [(dnsSourcePort s.session.stack).1] }

/-- Nothing has been handed out yet. -/
def Unported (s : PortSession) : Prop :=
  Fresh s.session ∧ s.session.stack.nextEphemeralPort = firstEphemeralPort ∧ s.handed = []

def Ephemeral (port : Nat) : Prop := firstEphemeralPort ≤ port ∧ port ≤ 65535

/-- No two sockets in use have the local port and the peer in common. -/
def Unambiguous (t : TcpTable) : Prop :=
  ∀ i j, (t.sockets i).inUse = true → (t.sockets i).key = (t.sockets j).key → i = j

def Assigned (s : PortSession) : Prop :=
  (∀ port ∈ s.handed, Ephemeral port) ∧ Unambiguous s.session.stack.tcp

/-- No socket in use has the next port and this peer. -/
def Unmet (s : TcpStack) (address port : Nat) : Prop :=
  ∀ j, (s.tcp.sockets j).inUse = true → (s.tcp.sockets j).localPort = s.nextEphemeralPort →
    (s.tcp.sockets j).remoteAddress = address → (s.tcp.sockets j).remotePort ≠ port

/-- A query does not take the last port; a socket that is taken does not come upon
one in use with its port and its peer. -/
def PortOk (s : Session) : PortOp → Prop
  | .socket (.connect iface memory _ address port) =>
    iface.isSome = true → (socketAllocate memory s.stack).1.isSome = true → Unmet s.stack address port
  | .socket _ => True
  | .resolve => s.stack.nextEphemeralPort ≠ 65535

def PortStep (s t : PortSession) : Prop := ∃ op, PortOk s.session op ∧ PortMove s op t

section Keys
variable {t u : TcpTable} {j : Fin tcpMaxSockets} {data : Bytes}

/-- Every socket has the ports and the peer it had. -/
def Alike (t u : TcpTable) : Prop := ∀ k, (u.sockets k).key = (t.sockets k).key

theorem Alike.edit {socket : TcpSocket} (alike : Alike t u) (same : socket.key = (u.sockets j).key) :
    Alike t (setSocket u j socket) := by
  intro k
  by_cases here : k = j
  · subst here
    rw [setSocket_same, same]
    exact alike k
  · rw [setSocket_other here]
    exact alike k

theorem Alike.transmit (alike : Alike t u) (flags : Nat) : Alike t (tcpTransmit u j flags) :=
  alike.edit (u := u) (j := j) rfl

theorem Alike.transmitData (alike : Alike t u) (flags : Nat) (payload : Bytes) : Alike t (tcpTransmitData u j flags payload) :=
  alike.edit (u := u) (j := j) rfl

theorem receiveNext_key (s : TcpSocket) (n : Nat) : { s with receiveNext := n }.key = s.key := rfl

theorem accept_key (s : TcpSocket) (sequence : Nat) (payload : Bytes) : (accept s sequence payload).key = s.key := by
  unfold accept
  split
  · rfl
  · rfl

theorem Alike.inputOpen (alike : Alike t u) : Alike t (inputOpen u j data) := by
  have acknowledged : Alike t (if has (flagsOf data) tcpAck then
      setSocket u j { u.sockets j with
        sendUnack := acknowledgementOf data
        pending := none
        retries := if (u.sockets j).pending.isSome then 0 else (u.sockets j).retries }
    else u) := by
    split
    · exact alike.edit rfl
    · exact alike
  have accepted {u : TcpTable} (alike : Alike t u) : Alike t (if (payloadOf data).length > 0 then
      tcpTransmit (setSocket u j (accept (u.sockets j) (sequenceOf data) (payloadOf data))) j tcpAck
    else u) := by
    split
    · exact (alike.edit (accept_key ..)).transmit tcpAck
    · exact alike
  have finished {u : TcpTable} (alike : Alike t u) : Alike t (if has (flagsOf data) tcpFin then
      tcpTransmit (setSocket u j { u.sockets j with
        receiveNext := wrap32 (sequenceOf data + (payloadOf data).length + 1)
        state := .closeWait }) j tcpAck
    else u) := by
    split
    · apply Alike.transmit
      exact alike.edit rfl
    · exact alike
  exact finished (accepted acknowledged)

theorem Alike.inputSynSent (alike : Alike t u) : Alike t (inputSynSent u j data) := by
  unfold Net.inputSynSent
  split
  · apply Alike.transmit
    exact alike.edit rfl
  · exact alike

theorem Alike.inputFinWait (alike : Alike t u) : Alike t (inputFinWait u j data) := by
  have acknowledged : Alike t
      (if has (flagsOf data) tcpAck then setSocket u j { u.sockets j with state := .closed } else u) := by
    split
    · exact alike.edit rfl
    · exact alike
  have finished {u : TcpTable} (alike : Alike t u) : Alike t (if has (flagsOf data) tcpFin then
      let u := tcpTransmit (setSocket u j { u.sockets j with receiveNext := wrap32 (sequenceOf data + 1) }) j tcpAck
      setSocket u j { u.sockets j with state := .closed }
    else u) := by
    split
    · apply Alike.edit
      · apply Alike.transmit
        exact alike.edit (receiveNext_key _ _)
      · rfl
    · exact alike
  exact finished acknowledged

theorem Alike.handle (alike : Alike t u) : Alike t (handle u j data) := by
  unfold Net.handle
  split
  · exact alike.edit rfl
  · split
    · exact alike.inputSynSent
    · exact alike.inputOpen
    · exact alike.inputOpen
    · exact alike.inputFinWait
    · exact alike

theorem tcpInput_alike (now iface source : Nat) (t : TcpTable) (data : Bytes) : Alike t (tcpInput now iface source t data) := by
  have self : Alike t t := fun _ => rfl
  by_cases some_ : ∃ j, Meant t source data j
  · obtain ⟨j, meant⟩ := some_
    rw [tcpInput_found now iface source meant]
    apply Alike.handle
    exact self.edit rfl
  · rw [tcpInput_unfound now iface source (not_exists.mp some_)]
    exact self

end Keys

section Steps
variable {s t : Session} {i j : Fin tcpMaxSockets}

/-- Every socket in use had its port and its peer before, and the counter stands
where it stood. -/
structure Calm (s t : TcpStack) : Prop where
  kept : ∀ k, (t.tcp.sockets k).inUse = true → (t.tcp.sockets k).key = (s.tcp.sockets k).key
  counter : t.nextEphemeralPort = s.nextEphemeralPort

theorem Alike.calm {s : TcpStack} {tcp : TcpTable} (alike : Alike s.tcp tcp) : Calm s { s with tcp := tcp } :=
  ⟨fun k _ => alike k, rfl⟩

theorem Calm.unambiguous {s t : TcpStack} (calm : Calm s t) (clear : Unambiguous s.tcp) : Unambiguous t.tcp := by
  intro i j live same
  have mine := calm.kept i live
  have use : (t.tcp.sockets i).inUse = (t.tcp.sockets j).inUse := congrArg Prod.fst same
  have other := calm.kept j (use ▸ live)
  apply clear i j
  · have before : (t.tcp.sockets i).inUse = (s.tcp.sockets i).inUse := congrArg Prod.fst mine
    exact before ▸ live
  · rw [← mine, ← other]
    exact same

theorem Calm.release {s t : TcpStack} (calm : Calm s t) : Calm s (socketRelease t i) := by
  unfold socketRelease
  split
  · exact calm
  · constructor
    · intro k live
      by_cases here : k = i
      · subst here
        rw [setSocket_same] at live
        cases live
      · rw [setSocket_other here] at live ⊢
        exact calm.kept k live
    · exact calm.counter

theorem move_calm {op : SocketOp} (other : ∀ iface memory now address port, op ≠ .connect iface memory now address port)
    (move : SocketMove s op t) : Calm s.stack t.stack := by
  have self : Alike s.stack.tcp s.stack.tcp := fun _ => rfl
  cases op with
  | arrive now iface source data =>
    cases move
    exact (tcpInput_alike now iface source s.stack.tcp data).calm
  | connect iface memory now address port => exact absurd rfl (other iface memory now address port)
  | connected j expired =>
    obtain ⟨-, -, rfl⟩ := move
    change Calm s.stack (tcpConnectEnd s.stack j).2
    unfold tcpConnectEnd
    split
    · exact self.calm.release
    · exact self.calm
  | send j data =>
    obtain ⟨-, rfl⟩ := move
    split
    · exact self.calm
    · exact self.calm
  | chunk j sent =>
    obtain ⟨rest, -, rfl⟩ := move
    split
    · exact self.calm
    · exact (self.transmitData _ _).calm
  | receive j len expired =>
    obtain ⟨-, bytes, tcp, run, rfl⟩ := move
    unfold tcpReceive at run
    dsimp only at run
    split at run
    · split at run
      · cases run
        exact self.calm
      · cases run
    · cases run
      apply Alike.calm
      exact self.edit rfl
  | close j =>
    obtain ⟨-, rfl⟩ := move
    have sent : Alike s.stack.tcp (tcpTransmitData s.stack.tcp j (tcpFin ||| tcpAck) []) := self.transmitData _ _
    change Calm s.stack (tcpClose s.stack j).2
    unfold tcpClose
    split
    · apply Alike.calm
      exact sent.edit rfl
    · exact sent.calm.release
    · exact self.calm.release
  | closed j expired =>
    obtain ⟨-, -, rfl⟩ := move
    exact self.calm.release

theorem transmitData_key {t : TcpTable} (flags : Nat) (payload : Bytes) :
    ((tcpTransmitData t j flags payload).sockets j).key = (t.sockets j).key := by
  simp [tcpTransmitData, TcpSocket.key]

theorem transmitData_port {t : TcpTable} (flags : Nat) (payload : Bytes) :
    ((tcpTransmitData t j flags payload).sockets j).localPort = (t.sockets j).localPort := by
  simp [tcpTransmitData]

/-- What a connection does: it takes a free socket with the next port, or it leaves
the ports alone. -/
theorem connect_cases {iface : Option (Nat × Nat)} {memory : Bool} {now address port : Nat}
    (move : SocketMove s (.connect iface memory now address port) t) :
    (Calm s.stack t.stack ∧ portTaken s (.connect iface memory now address port) = []) ∨
    (iface.isSome = true ∧ (socketAllocate memory s.stack).1.isSome = true ∧
      portTaken s (.connect iface memory now address port) = [s.stack.nextEphemeralPort] ∧
      t.stack.nextEphemeralPort = advancePort s.stack.nextEphemeralPort ∧
      ∃ j, (∀ k, k ≠ j → (t.stack.tcp.sockets k).key = (s.stack.tcp.sockets k).key) ∧
        (t.stack.tcp.sockets j).key = (true, s.stack.nextEphemeralPort, address, port)) := by
  have self : Alike s.stack.tcp s.stack.tcp := fun _ => rfl
  cases iface with
  | none =>
    cases move
    exact .inl ⟨self.calm, rfl⟩
  | some place =>
    rcases socketAllocate_cases memory s.stack with none_ | ⟨j, unused, zeroed | taken⟩
    · simp only [SocketMove, tcpConnect, none_] at move
      subst move
      exact .inl ⟨self.calm, by simp only [portTaken, tcpConnect, none_]⟩
    · simp only [SocketMove, tcpConnect, zeroed] at move
      subst move
      refine .inl ⟨⟨?_, rfl⟩, by simp only [portTaken, tcpConnect, zeroed]⟩
      intro k live
      by_cases here : k = j
      · subst here
        rw [setSocket_same] at live
        cases live
      · rw [setSocket_other here]
    · have free : (socketAllocate memory s.stack).1.isSome = true := by
        rw [taken]
        rfl
      simp only [SocketMove, tcpConnect, taken] at move
      subst move
      refine .inr ⟨rfl, free, ?_, rfl, j, ?_, ?_⟩
      · simp only [portTaken, tcpConnect, taken]
        rw [transmitData_port, setSocket_same, setSocket_same]
      · intro k ne
        simp only [setPhase]
        rw [transmitData_other ne, setSocket_other ne, setSocket_other ne]
      · simp only [setPhase]
        rw [transmitData_key, setSocket_same, setSocket_same]
        rfl

theorem advancePort_ephemeral {port : Nat} (inside : Ephemeral port) : Ephemeral (advancePort port) := by
  obtain ⟨low, high⟩ := inside
  unfold Ephemeral advancePort firstEphemeralPort at *
  split
  · omega
  · omega

theorem unambiguous_taken {t u : TcpTable} {port address peer : Nat} (clear : Unambiguous t)
    (others : ∀ k, k ≠ j → (u.sockets k).key = (t.sockets k).key) (here : (u.sockets j).key = (true, port, address, peer))
    (unmet : ∀ k, (t.sockets k).inUse = true → (t.sockets k).key ≠ (true, port, address, peer)) : Unambiguous u := by
  have fresh {k : Fin tcpMaxSockets} (ne : k ≠ j) : (u.sockets k).key ≠ (true, port, address, peer) := by
    rw [others k ne]
    intro same
    exact unmet k (congrArg Prod.fst same) same
  intro a b live same
  by_cases left : a = j
  · subst left
    by_contra ne
    exact fresh (Ne.symm ne) (same ▸ here)
  · by_cases right : b = j
    · subst right
      exact absurd (same.trans here) (fresh left)
    · rw [others a left, others b right] at same
      have use : (u.sockets a).inUse = (t.sockets a).inUse := congrArg Prod.fst (others a left)
      exact clear a b (use ▸ live) same

/-- What holds of the ports between the steps. -/
structure Ported (s : PortSession) : Prop where
  counter : Ephemeral s.session.stack.nextEphemeralPort
  handed : ∀ port ∈ s.handed, Ephemeral port
  clear : Unambiguous s.session.stack.tcp

theorem Ported.handing {s : PortSession} (ported : Ported s) {extra : List Nat}
    (next : extra = [] ∨ extra = [s.session.stack.nextEphemeralPort]) : ∀ port ∈ s.handed ++ extra, Ephemeral port := by
  intro port member
  rcases List.mem_append.mp member with old | new
  · exact ported.handed port old
  · rcases next with rfl | rfl
    · cases new
    · rw [List.mem_singleton.mp new]
      exact ported.counter

theorem step_ported {s t : PortSession} (ported : Ported s) (step : PortStep s t) : Ported t := by
  obtain ⟨op, ok, move⟩ := step
  cases op with
  | resolve =>
    subst move
    have last : s.session.stack.nextEphemeralPort ≠ 65535 := ok
    obtain ⟨low, high⟩ := ported.counter
    refine ⟨?_, ported.handing (.inr rfl), ported.clear⟩
    change Ephemeral ((s.session.stack.nextEphemeralPort + 1) % 2 ^ 16)
    rw [Nat.mod_eq_of_lt (by omega)]
    exact ⟨by omega, by omega⟩
  | socket op =>
    obtain ⟨move, handed⟩ := move
    by_cases other : ∀ iface memory now address port, op ≠ .connect iface memory now address port
    · have calm := move_calm other move
      have none_ : portTaken s.session op = [] := by
        cases op with
        | connect iface memory now address port => exact absurd rfl (other iface memory now address port)
        | _ => rfl
      refine ⟨calm.counter ▸ ported.counter, ?_, calm.unambiguous ported.clear⟩
      rw [handed]
      exact ported.handing (.inl none_)
    · push Not at other
      obtain ⟨iface, memory, now, address, port, rfl⟩ := other
      rcases connect_cases move with ⟨calm, none_⟩ | ⟨usable, free, taken, counter, j, others, key⟩
      · refine ⟨calm.counter ▸ ported.counter, ?_, calm.unambiguous ported.clear⟩
        rw [handed]
        exact ported.handing (.inl none_)
      · refine ⟨counter ▸ advancePort_ephemeral ported.counter, ?_, ?_⟩
        · rw [handed]
          exact ported.handing (.inr taken)
        · apply unambiguous_taken ported.clear others key
          intro k live same
          simp only [TcpSocket.key, Prod.mk.injEq] at same
          exact ok usable free k live same.2.1 same.2.2.1 same.2.2.2

/-- In every run in which no query takes the last port and no connection comes upon a
live one with its port and peer, the ports handed out are ephemeral ones and tell the
sockets apart. -/
theorem ports_assigned {s : PortSession} (run : Reachable Unported PortStep s) : Assigned s := by
  have ported : Ported s := by
    apply run.induct Ported
    · rintro s ⟨⟨zero, -⟩, counter, none_⟩
      constructor
      · rw [counter]
        exact ⟨by decide, by decide⟩
      · rw [none_]
        exact fun _ member => nomatch member
      · intro i j live _
        have empty : s.session.stack.tcp.sockets i = zeroSocket := zero i
        rw [empty] at live
        cases live
    · exact fun _ _ => step_ported
  exact ⟨ported.handed, ported.clear⟩

end Steps

section Lookups

/-- The stack before its first connection with the counter at a port. -/
def countedTo (port : Nat) (handed : List Nat) : PortSession where
  session := { unused with stack := { unused.stack with nextEphemeralPort := port } }
  handed := handed

theorem countedTo_start : Unported (countedTo firstEphemeralPort []) := ⟨⟨fun _ => rfl, fun _ => rfl⟩, rfl, rfl⟩

theorem lookup_move (port : Nat) (handed : List Nat) :
    PortMove (countedTo port handed) .resolve (countedTo ((port + 1) % 2 ^ 16) (handed ++ [port])) := rfl

theorem ports_assigned_lookup : Assigned (countedTo 49153 [49152]) := by
  have start : Reachable Unported PortStep (countedTo firstEphemeralPort []) := .start countedTo_start
  exact ports_assigned (start.next ⟨.resolve, by change (49152 : Nat) ≠ 65535; decide, lookup_move _ _⟩)

theorem lookups_reach {step : PortSession → PortSession → Prop} (lookup : ∀ s t, PortMove s .resolve t → step s t) (n : Nat)
    (few : n < 16384) : ∃ handed, Reachable Unported step (countedTo (firstEphemeralPort + n) handed) := by
  induction n with
  | zero => exact ⟨[], .start countedTo_start⟩
  | succ n ih =>
    obtain ⟨handed, before⟩ := ih (by omega)
    have small : (firstEphemeralPort + n + 1) % 2 ^ 16 = firstEphemeralPort + (n + 1) := by
      unfold firstEphemeralPort
      omega
    have move := lookup_move (firstEphemeralPort + n) handed
    rw [small] at move
    exact ⟨_, before.next (lookup _ _ move)⟩

/-- The query that takes port 65535 leaves the counter at 0, and the next one has that
for its source port. -/
theorem lookups_hand_out_zero : ¬ ∀ s, Reachable Unported (fun s t => ∃ op, PortMove s op t) s → Assigned s := by
  intro always
  obtain ⟨handed, last⟩ :=
    @lookups_reach (fun s t => ∃ op, PortMove s op t) (fun _ _ move => ⟨.resolve, move⟩) 16383 (by decide)
  have wrapped := last.next ⟨.resolve, lookup_move _ _⟩
  have zero := wrapped.next ⟨.resolve, lookup_move _ _⟩
  obtain ⟨low, -⟩ := (always _ zero).1 0 (List.mem_append_right _ (List.mem_singleton_self _))
  exact absurd low (by decide)

end Lookups

end Qito.Net
