import Qito.Lib.Faults
import Qito.Lib.Packed
import Qito.Mm.Vmm
import Qito.Vfs.Model

/-! The system calls of sys/syscall.c that take pointers and descriptors. User
memory is what the task sees through its page tables; touching a byte that it
does not see is a fault. -/
namespace Qito.Sys
open Faults Packed

abbrev Bytes := List UInt8

abbrev maxFds : Nat := 32
abbrev cwdMax : Nat := 256

/-- The end of the lower half of the address space. -/
abbrev userTop : Nat := 0x0000800000000000

abbrev qeNotdir : Int := 20
abbrev qeMfile : Int := 24

/-- Why a call does not come back: a user byte that is not there, or a part of
the kernel that does not return. -/
inductive Fault where
  | page (addr : Nat)
  | stuck
deriving DecidableEq

structure Task where
  isKernel : Bool
  space : Mm.AddressSpace
  cwd : Bytes
  fds : Nat → Option Vfs.FileId

/-- The current task and what its calls work on. -/
structure Kernel where
  fs : Vfs.FsState
  vm : Mm.Vm
  memory : Nat → UInt8
  task : Task

/-- The walk of the processor: whether the tables lead to a present page. -/
def presentFrom (mem : Mm.Memory) (virt : Nat) : Nat → List Nat → Bool
  | table, [] => Mm.has (mem table (Mm.ptIndex virt)) Mm.ptePresent
  | table, i :: rest =>
    Mm.has (mem table i) Mm.ptePresent &&
      (Mm.has (mem table i) Mm.pteHuge || presentFrom mem virt (mem table i &&& Mm.pteAddrMask) rest)

def mapped (vm : Mm.Vm) (space : Mm.AddressSpace) (page : Nat) : Bool :=
  presentFrom vm.mem page space.pml4 (Mm.indices page)

/-- The byte lies in the lower half and in a mapped page. Kernel tasks are trusted. -/
def accessible (k : Kernel) (addr : Nat) : Bool :=
  k.task.isKernel || (addr < userTop && mapped k.vm k.task.space (Mm.pageAlignDown addr))

def readByte (k : Kernel) (addr : Nat) : Except Fault UInt8 :=
  if accessible k addr then .ok (k.memory addr) else .error (.page addr)

def readBytes (k : Kernel) : Nat → Nat → Except Fault Bytes
  | _, 0 => return []
  | addr, len + 1 => do
    let byte ← readByte k addr
    return byte :: (← readBytes k (addr + 1) len)

/-- strlen from addr on; the fuel ends with the addresses. -/
def stringFrom (k : Kernel) : Nat → Nat → Except Fault Bytes
  | 0, _ => .error .stuck
  | fuel + 1, addr => do
    let byte ← readByte k addr
    if byte = 0 then return []
    else return byte :: (← stringFrom k fuel (addr + 1))

def stringAt (k : Kernel) (addr : Nat) : Except Fault Bytes := stringFrom k (2 ^ 64 - addr) addr

def writeBytes (k : Kernel) : Nat → Bytes → Except Fault Kernel
  | _, [] => return k
  | addr, byte :: rest =>
    if accessible k addr then
      writeBytes { k with memory := Function.update k.memory addr byte } (addr + 1) rest
    else .error (.page addr)

def call {α : Type} : Option α → Except Fault α
  | some a => .ok a
  | none => .error .stuck

/-- The pages the loop of user_pointer_ok visits. -/
def pagesOf (start stop : Nat) : List Nat :=
  List.range' (Mm.pageAlignDown start) ((stop - Mm.pageAlignDown start + Mm.pageSize - 1) / Mm.pageSize) Mm.pageSize

def userPointerOk (k : Kernel) (ptr len : Nat) : Bool :=
  if ptr = 0 then false
  else if k.task.isKernel then true
  else
    let stop := Words.wrap64 (ptr + len)
    if stop < ptr ∨ ptr ≥ userTop ∨ stop > userTop then false
    else (pagesOf ptr stop).all fun page => Mm.vmmResolve k.vm k.task.space page != 0

def fdAlloc (task : Task) (file : Vfs.FileId) : Option (Nat × Task) :=
  match (List.range maxFds).find? fun fd => (task.fds fd).isNone with
  | some fd => some (fd, { task with fds := Function.update task.fds fd (some file) })
  | none => none

def fdGet (task : Task) (fd : Int) : Option Vfs.FileId :=
  if fd < 0 ∨ fd ≥ maxFds then none else task.fds fd.toNat

/-- The segments of a path with . and .. collapsed; a segment past the 64th is dropped. -/
def collapse : List Bytes → List Bytes → List Bytes
  | segments, [] => segments
  | segments, token :: rest =>
    if token = Vfs.dot then collapse segments rest
    else if token = Vfs.dotDot then collapse segments.dropLast rest
    else if segments.length < 64 then collapse (segments ++ [token]) rest
    else collapse segments rest

def fsResolvePath (cwd path : Bytes) : Bytes :=
  let work :=
    if path.head? = some 47 then path
    else if cwd.getLast? = some 47 then cwd ++ path
    else cwd ++ 47 :: path
  match collapse [] (Vfs.tokens (Vfs.strlcpy work Vfs.fsPathMax)) with
  | [] => [47]
  | segments => Vfs.strlcpy (segments.flatMap (47 :: ·)) Vfs.fsPathMax

/-- The path argument of a call, read to its end and made absolute. -/
def resolvedPath (k : Kernel) (path : Nat) : Except Fault Bytes := do
  return fsResolvePath k.task.cwd (← stringAt k path)

def sysOpen (env : Vfs.Env) (k : Kernel) (path flags : Nat) : Except Fault (Int × Kernel) := do
  if !userPointerOk k path 1 then return (-Vfs.qeInval, k)
  else
    let resolved ← resolvedPath k path
    match ← call (Vfs.fsOpen env k.fs resolved flags) with
    | (none, fs) => return (-Vfs.qeNoent, { k with fs := fs })
    | (some file, fs) =>
      match fdAlloc k.task file with
      | some (fd, task) => return (fd, { k with fs := fs, task := task })
      | none => return (-qeMfile, { k with fs := ← call (Vfs.fsClose fs file) })

def sysClose (k : Kernel) (fd : Int) : Except Fault (Int × Kernel) :=
  match fdGet k.task fd with
  | none => return (-Vfs.qeBadf, k)
  | some file => do
    let fs ← call (Vfs.fsClose k.fs file)
    return (0, { k with fs := fs, task := { k.task with fds := Function.update k.task.fds fd.toNat none } })

/-- What a descriptor stands for in a call. -/
inductive Target where
  | console
  | file (file : Vfs.FileId)
deriving DecidableEq

def readTarget (task : Task) (fd : Int) : Option Target :=
  if fd = 0 then some .console else (fdGet task fd).map .file

def writeTarget (task : Task) (fd : Int) : Option Target :=
  if fd = 1 ∨ fd = 2 then some .console else (fdGet task fd).map .file

def seekTarget (task : Task) (fd : Int) : Option Target := (fdGet task fd).map .file

def sysRead (env : Vfs.Env) (k : Kernel) (fd : Int) (buf len : Nat) : Except Fault (Int × Kernel) := do
  if !userPointerOk k buf len then return (-Vfs.qeInval, k)
  else
    match readTarget k.task fd with
    | some .console =>
      let bytes := (env.device len).take len
      return (Vfs.ssize bytes.length, ← writeBytes k buf bytes)
    | some (.file file) =>
      let (got, bytes, fs) ← call (Vfs.fsRead env k.fs file len)
      return (got, ← writeBytes { k with fs := fs } buf bytes)
    | none => return (-Vfs.qeBadf, k)

/-- The bytes are read as a whole; every write entry of fs_write takes all of them. -/
def sysWrite (env : Vfs.Env) (k : Kernel) (fd : Int) (buf len : Nat) : Except Fault (Int × Kernel) := do
  if !userPointerOk k buf len then return (-Vfs.qeInval, k)
  else
    match writeTarget k.task fd with
    | some .console =>
      let _bytes ← readBytes k buf len
      return (Vfs.ssize len, k)
    | some (.file file) =>
      let (written, fs) ← call (Vfs.fsWrite env k.fs file (← readBytes k buf len))
      return (written, { k with fs := fs })
    | none => return (-Vfs.qeBadf, k)

def sysSeek (k : Kernel) (fd offset : Int) (origin : Vfs.Origin) : Except Fault (Int × Kernel) := do
  match seekTarget k.task fd with
  | some (.file file) =>
    let (position, fs) ← call (Vfs.fsSeek k.fs file offset origin)
    return (position, { k with fs := fs })
  | _ => return (-Vfs.qeBadf, k)

def typeCode : Vfs.NodeType → Nat
  | .file => 1
  | .dir => 2
  | .dev => 3
  | .link => 4

abbrev statSize : Nat := 48
abbrev direntSize : Nat := 80

/-- struct fs_stat. -/
def statBytes (id : Vfs.NodeId) (node : Vfs.FsNode) : Bytes :=
  pack 8 node.size ++ pack 4 (typeCode node.type) ++ pack 4 node.permissions ++ pack 4 node.uid ++ pack 4 node.gid ++
    pack 8 node.created ++ pack 8 node.modified ++ pack 8 id

def sysStat (env : Vfs.Env) (k : Kernel) (path out : Nat) : Except Fault (Int × Kernel) := do
  if !userPointerOk k path 1 || !userPointerOk k out statSize then return (-Vfs.qeInval, k)
  else
    let resolved ← resolvedPath k path
    match ← call (Vfs.fsLookup k.fs resolved) with
    | none => return (-Vfs.qeNoent, k)
    | some id =>
      let node ← call (k.fs.nodes id)
      let node ← call (Vfs.refresh env id node)
      return (0, ← writeBytes { k with fs := Vfs.putNode k.fs id node } out (statBytes id node))

/-- The loop of fs_readdir. -/
def childAt : Nat → Vfs.FsState → Option Vfs.NodeId → Nat → Option (Option Vfs.NodeId)
  | 0, _, _, _ => none
  | _ + 1, _, none, _ => some none
  | _ + 1, _, some child, 0 => some (some child)
  | fuel + 1, s, some child, index + 1 => do
    let node ← s.nodes child
    childAt fuel s node.sibling index

/-- fs_readdir: where the entry is written only up to the end of its name. -/
def fsReaddir (env : Vfs.Env) (k : Kernel) (dir : Option Vfs.NodeId) (index : Int) (out : Nat) :
    Except Fault (Int × Kernel) := do
  match dir with
  | none => return (-qeNotdir, k)
  | some dir =>
    let node ← call (k.fs.nodes dir)
    if node.type ≠ .dir ∨ index < 0 then return (-qeNotdir, k)
    else
      match ← call (childAt (Vfs.walkFuel k.fs) k.fs node.children index.toNat) with
      | none => return (-Vfs.qeNoent, k)
      | some id =>
        let child ← call (k.fs.nodes id)
        let k ← writeBytes k out (Vfs.strlcpy child.name Vfs.fsNameMax ++ [0])
        let k ← writeBytes k (out + 64) (pack 4 (typeCode child.type))
        let child ← call (Vfs.refresh env id child)
        let k ← writeBytes { k with fs := Vfs.putNode k.fs id child } (out + 72) (pack 8 child.size)
        return (0, k)

def sysReaddir (env : Vfs.Env) (k : Kernel) (path : Nat) (index : Int) (out : Nat) : Except Fault (Int × Kernel) := do
  if !userPointerOk k path 1 || !userPointerOk k out direntSize then return (-Vfs.qeInval, k)
  else
    let resolved ← resolvedPath k path
    fsReaddir env k (← call (Vfs.fsLookup k.fs resolved)) index out

def sysChdir (k : Kernel) (path : Nat) : Except Fault (Int × Kernel) := do
  if !userPointerOk k path 1 then return (-Vfs.qeInval, k)
  else
    let resolved ← resolvedPath k path
    match ← call (Vfs.fsLookup k.fs resolved) with
    | none => return (-Vfs.qeNoent, k)
    | some id =>
      let node ← call (k.fs.nodes id)
      if node.type ≠ .dir then return (-qeNotdir, k)
      else return (0, { k with task := { k.task with cwd := Vfs.strlcpy resolved cwdMax } })

def sysGetcwd (k : Kernel) (buf len : Nat) : Except Fault (Int × Kernel) := do
  if !userPointerOk k buf len then return (-Vfs.qeInval, k)
  else
    let k ← if len = 0 then pure k else writeBytes k buf (Vfs.strlcpy k.task.cwd len ++ [0])
    return ((← stringAt k buf).length, k)

def sysMkdir (env : Vfs.Env) (k : Kernel) (path perms : Nat) : Except Fault (Int × Kernel) := do
  if !userPointerOk k path 1 then return (-Vfs.qeInval, k)
  else
    let (code, fs) ← call (Vfs.fsMkdir env k.fs (← resolvedPath k path) perms)
    return (code, { k with fs := fs })

def sysUnlink (k : Kernel) (path : Nat) : Except Fault (Int × Kernel) := do
  if !userPointerOk k path 1 then return (-Vfs.qeInval, k)
  else
    let (code, fs) ← call (Vfs.fsUnlink k.fs (← resolvedPath k path))
    return (code, { k with fs := fs })

def sysPuts (k : Kernel) (text : Nat) : Except Fault (Int × Kernel) := do
  if !userPointerOk k text 1 then return (-Vfs.qeInval, k)
  else
    let length := (← stringAt k text).length
    let _bytes ← readBytes k text length
    return (0, k)

/-- The calls of syscall_dispatch that take a pointer; addresses and lengths are registers. -/
inductive Call where
  | openAt (path : UInt64) (flags : UInt32)
  | stat (path out : UInt64)
  | readdir (path : UInt64) (index : Int32) (out : UInt64)
  | chdir (path : UInt64)
  | mkdir (path : UInt64) (perms : UInt32)
  | unlink (path : UInt64)
  | puts (text : UInt64)
  | getcwd (buf len : UInt64)
  | read (fd : Int32) (buf len : UInt64)
  | write (fd : Int32) (buf len : UInt64)

def dispatch (env : Vfs.Env) (k : Kernel) : Call → Except Fault (Int × Kernel)
  | .openAt path flags => sysOpen env k path.toNat flags.toNat
  | .stat path out => sysStat env k path.toNat out.toNat
  | .readdir path index out => sysReaddir env k path.toNat index.toInt out.toNat
  | .chdir path => sysChdir k path.toNat
  | .mkdir path perms => sysMkdir env k path.toNat perms.toNat
  | .unlink path => sysUnlink k path.toNat
  | .puts text => sysPuts k text.toNat
  | .getcwd buf len => sysGetcwd k buf.toNat len.toNat
  | .read fd buf len => sysRead env k fd.toInt buf.toNat len.toNat
  | .write fd buf len => sysWrite env k fd.toInt buf.toNat len.toNat

end Qito.Sys
