import Qito.Lib.Lists
import Mathlib.Logic.Function.Basic
import Mathlib.Data.List.FinRange
import Mathlib.Tactic.Common

/-! The message ports of sys/ipc.c. Every call holds ipc_lock from its first to its
last access to a port and is one step; the log is left out. -/
namespace Qito.Ipc

abbrev Bytes := List UInt8

abbrev ipcMsgMax : Nat := 256
abbrev ipcQueueDepth : Nat := 16
abbrev ipcMaxPorts : Nat := 32
abbrev ipcPortNameMax : Nat := 24

abbrev qeNoent : Int := 2
abbrev qeAgain : Int := 11
abbrev qeExist : Int := 17
abbrev qeInval : Int := 22
abbrev qeNfile : Int := 23

structure IpcMessage where
  senderPid : Int
  type : UInt32
  length : Nat
  timestamp : Nat
  data : Bytes

structure IpcPort where
  name : Bytes
  inUse : Bool
  ownerPid : Int
  queue : Nat → IpcMessage
  head : Nat
  tail : Nat
  count : Int

/-- The counters are 64 bits wide. -/
structure PortTable where
  ports : Fin ipcMaxPorts → IpcPort
  messagesSent : Nat
  messagesDropped : Nat

def zeroMessage : IpcMessage where
  senderPid := 0
  type := 0
  length := 0
  timestamp := 0
  data := List.replicate ipcMsgMax 0

/-- What memset leaves of a port. -/
def zeroPort : IpcPort where
  name := []
  inUse := false
  ownerPid := 0
  queue := fun _ => zeroMessage
  head := 0
  tail := 0
  count := 0

def ipcInit : PortTable where
  ports := fun _ => zeroPort
  messagesSent := 0
  messagesDropped := 0

def setPort (s : PortTable) (k : Fin ipcMaxPorts) (p : IpcPort) : PortTable := { s with ports := Function.update s.ports k p }

/-- The bounds check on a port number. -/
def portAt (port : Int) : Option (Fin ipcMaxPorts) :=
  if inside : 0 ≤ port ∧ port < ipcMaxPorts then some ⟨port.toNat, by omega⟩ else none

def ipcPortLookup (s : PortTable) (name : Bytes) : Option (Fin ipcMaxPorts) :=
  (List.finRange ipcMaxPorts).find? fun k => (s.ports k).inUse && (s.ports k).name == name

/-- strlcpy cuts the name; a name is compared as a whole. -/
def ipcPortCreate (pid : Int) (s : PortTable) (name : Bytes) : Int × PortTable :=
  match ipcPortLookup s name with
  | some _ => (-qeExist, s)
  | none =>
    match (List.finRange ipcMaxPorts).find? fun k => !(s.ports k).inUse with
    | none => (-qeNfile, s)
    | some k =>
      (k.val, setPort s k { zeroPort with name := name.take (ipcPortNameMax - 1), inUse := true, ownerPid := pid })

def ipcPortDestroy (s : PortTable) (port : Int) : PortTable :=
  match portAt port with
  | none => s
  | some k => setPort s k { s.ports k with inUse := false }

/-- The bytes a caller passes: none for a null pointer, else the memory behind it. -/
abbrev Source := Option (Nat → UInt8)

/-- The first bytes of what is passed. -/
def Source.bytes (data : Source) (len : Nat) : Bytes :=
  match data with
  | none => []
  | some memory => (List.range len).map memory

/-- A slot keeps the bytes of its last message behind those of the new one. -/
def fillMessage (now : Nat) (pid : Int) (type : UInt32) (data : Source) (len : Nat) (slot : IpcMessage) : IpcMessage where
  senderPid := pid
  type := type
  length := len % 2 ^ 32
  timestamp := now
  data := if data.isSome ∧ len ≠ 0 then data.bytes len ++ slot.data.drop len else slot.data

def ipcSend (now : Nat) (pid : Int) (s : PortTable) (port : Int) (type : UInt32) (data : Source) (len : Nat) : Int × PortTable :=
  match portAt port with
  | none => (-qeInval, s)
  | some k =>
    let p := s.ports k
    if len > ipcMsgMax then (-qeInval, s)
    else if !p.inUse then (-qeNoent, s)
    else if p.count ≥ ipcQueueDepth then
      (-qeAgain, { s with messagesDropped := (s.messagesDropped + 1) % 2 ^ 64 })
    else
      let p := { p with
        queue := Function.update p.queue p.head (fillMessage now pid type data len (p.queue p.head))
        head := (p.head + 1) % ipcQueueDepth
        count := p.count + 1 }
      (0, { setPort s k p with messagesSent := (s.messagesSent + 1) % 2 ^ 64 })

/-- The code, and what is copied to the caller's buffer. -/
def ipcReceive (s : PortTable) (port : Int) (out : Bool) : Int × Option IpcMessage × PortTable :=
  match portAt port with
  | none => (-qeInval, none, s)
  | some k =>
    let p := s.ports k
    if !out then (-qeInval, none, s)
    else if !p.inUse then (-qeNoent, none, s)
    else if p.count = 0 then (-qeAgain, none, s)
    else
      (0, some (p.queue p.tail),
        setPort s k { p with tail := (p.tail + 1) % ipcQueueDepth, count := p.count - 1 })

def ipcPending (s : PortTable) (port : Int) : Int :=
  match portAt port with
  | none => 0
  | some k => if (s.ports k).inUse then (s.ports k).count else 0

end Qito.Ipc
