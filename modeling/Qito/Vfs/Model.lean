import Qito.Lib.Words
import Mathlib.Logic.Function.Basic
import Mathlib.Tactic.Common

/-! The virtual filesystem of fs/vfs.c. A node pointer is the inode number the
node was given, NULL is none, and a freed node has no entry in the table. A
function returns none where the kernel would not return: a walk that never ends,
a dereference of a freed node, or a copy outside a buffer. -/
namespace Qito.Vfs
open Words

abbrev Bytes := List UInt8
abbrev NodeId := Nat
abbrev FileId := Nat

abbrev fsNameMax : Nat := 64
abbrev fsPathMax : Nat := 512
abbrev procBuffer : Nat := 8192

abbrev oRdonly : Nat := 0x0001
abbrev oWronly : Nat := 0x0002
abbrev oRdwr : Nat := 0x0003
abbrev oCreate : Nat := 0x0100
abbrev oAppend : Nat := 0x0200
abbrev oTrunc : Nat := 0x0400
abbrev oExcl : Nat := 0x0800
abbrev oDir : Nat := 0x1000

abbrev qePerm : Int := 1
abbrev qeNoent : Int := 2
abbrev qeBadf : Int := 9
abbrev qeNomem : Int := 12
abbrev qeExist : Int := 17
abbrev qeIsdir : Int := 21
abbrev qeInval : Int := 22
abbrev qeNotempty : Int := 39

inductive NodeType where
  | file
  | dir
  | dev
  | link
deriving DecidableEq

/-- The ops tables of devfs.c and procfs.c. None of them has an open, close or
truncate entry, so the calls of those entries never happen. -/
inductive OpsTable where
  | null
  | zero
  | random
  | console
  | serial
  | kmsg
  | proc
deriving DecidableEq

structure FsNode where
  name : Bytes
  type : NodeType
  permissions : Nat
  uid : Nat
  gid : Nat
  size : Nat
  capacity : Nat
  data : Nat → UInt8
  created : Nat
  modified : Nat
  accessed : Nat
  ops : Option OpsTable
  backing : Option Nat
  parent : Option NodeId
  children : Option NodeId
  sibling : Option NodeId
  openCount : Nat

structure File where
  node : NodeId
  offset : Nat
  flags : Nat
  refs : Nat

structure FsState where
  nodes : NodeId → Option FsNode
  root : NodeId
  nextInode : Nat
  files : FileId → Option File
  nextFile : Nat
  openFileCount : Nat

structure Cred where
  uid : Nat
  gid : Nat

/-- What the rest of the kernel answers during one call: the current task, the
clock, which allocations succeed and what fresh memory holds, and what the
devices deliver. -/
structure Env where
  task : Option Cred
  now : Nat
  nodeAlloc : Bool
  fileAlloc : Bool
  dataAlloc : Bool
  junk : Nat → UInt8
  device : Nat → Bytes
  log : Bytes
  procText : NodeId → Bytes

def has (flags bits : Nat) : Bool := flags &&& bits != 0

/-- A value returned as ssize_t. -/
def ssize (n : Nat) : Int := if n < 2 ^ 63 then n else n - 2 ^ 64

def strlcpy (src : Bytes) (size : Nat) : Bytes := src.take (size - 1)

/-- The tokens strtok_r finds between slashes, with the bytes of the token it is in. -/
def tokensFrom : Bytes → Bytes → List Bytes
  | token, [] => if token = [] then [] else [token]
  | token, c :: cs =>
    if c = 47 then
      if token = [] then tokensFrom [] cs else token :: tokensFrom [] cs
    else tokensFrom (token ++ [c]) cs

def tokens (path : Bytes) : List Bytes := tokensFrom [] path

def dot : Bytes := [46]
def dotDot : Bytes := [46, 46]

/-- What stands before and after the last slash, as strrchr finds it. -/
def splitLast : Bytes → Option (Bytes × Bytes)
  | [] => none
  | c :: cs =>
    match splitLast cs with
    | some (front, name) => some (c :: front, name)
    | none => if c = 47 then some ([], cs) else none

def setNode (s : FsState) (id : NodeId) (change : FsNode → FsNode) : FsState :=
  { s with nodes := Function.update s.nodes id ((s.nodes id).map change) }

def setFile (s : FsState) (id : FileId) (change : File → File) : FsState :=
  { s with files := Function.update s.files id ((s.files id).map change) }

/-- Inode numbers bound the length of every child list that ends. -/
def walkFuel (s : FsState) : Nat := s.nextInode + 1

def freshNode (env : Env) (name : Bytes) (type : NodeType) (perms : Nat) : FsNode where
  name := strlcpy name fsNameMax
  type := type
  permissions := perms
  uid := 0
  gid := 0
  size := 0
  capacity := 0
  data := fun _ => 0
  created := env.now
  modified := env.now
  accessed := env.now
  ops := none
  backing := none
  parent := none
  children := none
  sibling := none
  openCount := 0

def nodeAlloc (env : Env) (s : FsState) (name : Bytes) (type : NodeType) (perms : Nat) :
    Option NodeId × FsState :=
  if env.nodeAlloc then
    (some s.nextInode, { s with
      nodes := Function.update s.nodes s.nextInode (some (freshNode env name type perms))
      nextInode := s.nextInode + 1 })
  else (none, s)

def lastSibling : Nat → FsState → NodeId → Option NodeId
  | 0, _, _ => none
  | fuel + 1, s, last => do
    let node ← s.nodes last
    match node.sibling with
    | some next => lastSibling fuel s next
    | none => return last

@[grind =] def nodeLink (s : FsState) (parent child : NodeId) : Option FsState := do
  let s := setNode s child fun n => { n with parent := some parent }
  let dir ← s.nodes parent
  match dir.children with
  | none => return setNode s parent fun n => { n with children := some child }
  | some first =>
    let last ← lastSibling (walkFuel s) s first
    return setNode s last fun n => { n with sibling := some child }

/-- The walk of node_unlink for the entry in front of node. -/
def unlinkSibling : Nat → FsState → NodeId → Option NodeId → Option NodeId → Option FsState
  | 0, _, _, _, _ => none
  | _ + 1, s, _, _, none => some s
  | fuel + 1, s, node, link, some iter => do
    let entry ← s.nodes iter
    if entry.sibling = some node then return setNode s iter fun n => { n with sibling := link }
    else unlinkSibling fuel s node link entry.sibling

def nodeUnlink (s : FsState) (id : NodeId) : Option FsState := do
  let node ← s.nodes id
  match node.parent with
  | none => return s
  | some parent =>
    let dir ← s.nodes parent
    if dir.children = some id then
      return setNode s parent fun n => { n with children := node.sibling }
    else unlinkSibling (walkFuel s) s id node.sibling dir.children

mutual

/-- node_free; the fuel bounds the height of the subtree and the length of its lists. -/
def nodeFree : Nat → FsState → NodeId → Option FsState
  | 0, _, _ => none
  | fuel + 1, s, id => do
    let node ← s.nodes id
    let s ← freeSiblings fuel s node.children
    return { s with nodes := Function.update s.nodes id none }

def freeSiblings : Nat → FsState → Option NodeId → Option FsState
  | 0, _, _ => none
  | _ + 1, s, none => some s
  | fuel + 1, s, some child => do
    let node ← s.nodes child
    let s ← nodeFree fuel s child
    freeSiblings fuel s node.sibling

end

def findSibling : Nat → FsState → Option NodeId → Bytes → Option (Option NodeId)
  | 0, _, _, _ => none
  | _ + 1, _, none, _ => some none
  | fuel + 1, s, some child, name => do
    let node ← s.nodes child
    if node.name = name then return some child else findSibling fuel s node.sibling name

def findChild (s : FsState) (dir : NodeId) (name : Bytes) : Option (Option NodeId) := do
  let node ← s.nodes dir
  if node.type ≠ .dir then return none
  else findSibling (walkFuel s) s node.children name

/-- The token loop of fs_lookup_at. -/
def lookupFrom (s : FsState) : NodeId → List Bytes → Option (Option NodeId)
  | node, [] => some (some node)
  | node, token :: rest => do
    if token = dot then lookupFrom s node rest
    else if token = dotDot then
      let n ← s.nodes node
      lookupFrom s (n.parent.getD s.root) rest
    else
      match ← findChild s node token with
      | none => return none
      | some child => lookupFrom s child rest

/-- fs_lookup: relative paths start at the root as well. -/
def fsLookup (s : FsState) (path : Bytes) : Option (Option NodeId) :=
  lookupFrom s s.root (tokens (strlcpy path fsPathMax))

def resolveParent (s : FsState) (path : Bytes) : Option (Option NodeId × Bytes) := do
  let work := strlcpy path fsPathMax
  match splitLast work with
  | none => return (some s.root, strlcpy work fsNameMax)
  | some (front, name) =>
    if front = [] then return (some s.root, strlcpy name fsNameMax)
    else return (← fsLookup s front, strlcpy name fsNameMax)

/-- Give a new node to the current task, as fs_create does. -/
def owned (env : Env) (n : FsNode) : FsNode :=
  match env.task with
  | some task => { n with uid := task.uid, gid := task.gid }
  | none => n

@[grind =] def fsCreate (env : Env) (s : FsState) (path : Bytes) (type : NodeType) (perms : Nat) :
    Option (Option NodeId × FsState) := do
  match ← resolveParent s path with
  | (none, _) => return (none, s)
  | (some parent, name) =>
    let dir ← s.nodes parent
    if dir.type ≠ .dir ∨ name = [] then return (none, s)
    if (← findChild s parent name).isSome then return (none, s)
    match nodeAlloc env s name type perms with
    | (none, s) => return (none, s)
    | (some id, s) =>
      let s := setNode s id (owned env)
      let s ← nodeLink s parent id
      return (some id, setNode s parent fun n => { n with modified := env.now })

def fsMkdir (env : Env) (s : FsState) (path : Bytes) (perms : Nat) : Option (Int × FsState) := do
  if (← fsLookup s path).isSome then return (-qeExist, s)
  match ← fsCreate env s path .dir perms with
  | (some _, s) => return (0, s)
  | (none, s) => return (-qeNoent, s)

def fsUnlink (s : FsState) (path : Bytes) : Option (Int × FsState) := do
  match ← fsLookup s path with
  | none => return (-qeNoent, s)
  | some id =>
    let node ← s.nodes id
    if id = s.root then return (-qePerm, s)
    if node.type = .dir ∧ node.children ≠ none then return (-qeNotempty, s)
    if node.openCount > 0 then return (-qePerm, s)
    let s ← nodeUnlink s id
    return (0, ← nodeFree (2 * walkFuel s) s id)

def fsRename (env : Env) (s : FsState) (src dst : Bytes) : Option (Int × FsState) := do
  match ← fsLookup s src with
  | none => return (-qeNoent, s)
  | some id =>
    if id = s.root then return (-qeNoent, s)
    if (← fsLookup s dst).isSome then return (-qeExist, s)
    match ← resolveParent s dst with
    | (none, _) => return (-qeNoent, s)
    | (some parent, name) =>
      let dir ← s.nodes parent
      if dir.type ≠ .dir then return (-qeNoent, s)
      let s ← nodeUnlink s id
      let s := setNode s id fun n => { n with sibling := none, name := strlcpy name fsNameMax }
      let s ← nodeLink s parent id
      return (0, setNode s id fun n => { n with modified := env.now })

def fsRegisterNode (env : Env) (s : FsState) (dir name : Bytes) (type : NodeType)
    (ops : Option OpsTable) (backing : Option Nat) : Option (Option NodeId × FsState) := do
  match ← fsLookup s dir with
  | none => return (none, s)
  | some parent =>
    let node ← s.nodes parent
    if node.type ≠ .dir then return (none, s)
    if (← findChild s parent name).isSome then return (none, s)
    match nodeAlloc env s name type 0o644 with
    | (none, s) => return (none, s)
    | (some id, s) =>
      let s := setNode s id fun n => { n with ops := ops, backing := backing }
      let s ← nodeLink s parent id
      return (some id, s)

/-- An ASCII string literal of the source. -/
def ascii (text : String) : Bytes := text.toList.map fun c => UInt8.ofNat c.toNat

theorem ascii_ofList (cs : List Char) : ascii (String.ofList cs) = cs.map fun c => UInt8.ofNat c.toNat := by
  rw [ascii, String.toList_ofList]

def skeleton : List Bytes :=
  ["/bin", "/dev", "/etc", "/home", "/home/user", "/proc", "/sys", "/tmp", "/var", "/var/log",
    "/usr", "/usr/share", "/usr/share/doc"].map ascii

/-- The loop of fs_init over the skeleton; what fs_mkdir returns is ignored. -/
def mkdirs (envs : Bytes → Env) : FsState → List Bytes → Option FsState
  | s, [] => some s
  | s, path :: rest => do
    let (_, s) ← fsMkdir (envs path) s path 0o755
    mkdirs envs s rest

def bareFs : FsState where
  nodes := fun _ => none
  root := 0
  nextInode := 1
  files := fun _ => none
  nextFile := 0
  openFileCount := 0

/-- none also stands for the panic when the root cannot be allocated. -/
def fsInit (env : Env) (envs : Bytes → Env) : Option FsState := do
  match nodeAlloc env bareFs (ascii "/") .dir 0o755 with
  | (none, _) => none
  | (some root, s) =>
    let s ← mkdirs envs { s with root := root } skeleton
    match ← fsLookup s (ascii "/tmp") with
    | none => return s
    | some tmp => return setNode s tmp fun n => { n with permissions := 0o777 }

/-- The permission class of the current task for a node, as a shift of its bits. -/
def classShift (node : FsNode) (task : Cred) : Nat :=
  if node.uid = task.uid then 6 else if node.gid = task.gid then 3 else 0

def fsCanAccess (env : Env) (node : FsNode) (wantFlags : Nat) : Bool :=
  match env.task with
  | none => true
  | some task =>
    if task.uid = 0 then true
    else
      let canRead := has (node.permissions >>> classShift node task) 4
      let canWrite := has (node.permissions >>> classShift node task) 2
      !(has wantFlags oWronly && !canWrite) && !(has wantFlags oRdonly && !canRead)

/-- The doubling loop of ensure_capacity. In 64-bit arithmetic the capacity is 0
after 64 doublings, and then it stays there. -/
def doubleCapacity : Nat → Nat → Nat → Option Nat
  | 0, _, _ => none
  | fuel + 1, capacity, needed =>
    if capacity < needed then doubleCapacity fuel (wrap64 (capacity * 2)) needed else some capacity

def ensureCapacity (env : Env) (node : FsNode) (needed : Nat) : Option (Int × FsNode) := do
  if needed ≤ node.capacity then return (0, node)
  let capacity ← doubleCapacity 65 (if node.capacity = 0 then 256 else node.capacity) needed
  if !env.dataAlloc then return (-qeNomem, node)
  return (0, { node with
    data := fun i => if i < node.size then node.data i else 0
    capacity := capacity })

def putNode (s : FsState) (id : NodeId) (node : FsNode) : FsState := setNode s id fun _ => node

/-- The node fs_open goes on with: the one it found, or a new one. -/
def openTarget (env : Env) (s : FsState) (path : Bytes) (flags : Nat) : Option (Option NodeId × FsState) := do
  match ← fsLookup s path with
  | none => if has flags oCreate then fsCreate env s path .file 0o644 else return (none, s)
  | some id => if has flags oExcl && has flags oCreate then return (none, s) else return (some id, s)

def truncated (flags : Nat) (node : FsNode) : FsNode :=
  if has flags oTrunc && node.type = .file then { node with size := 0 } else node

/-- fs_open from the O_DIR check on. -/
def openNode (env : Env) (s : FsState) (id : NodeId) (flags : Nat) : Option (Option FileId × FsState) := do
  let node ← s.nodes id
  if has flags oDir && node.type ≠ .dir then return (none, s)
  if node.type = .dir && has flags oWronly then return (none, s)
  if !fsCanAccess env node flags then return (none, s)
  let node := truncated flags node
  let s := putNode s id node
  if !env.fileAlloc then return (none, s)
  let file : File :=
    { node := id, offset := if has flags oAppend then node.size else 0, flags := flags, refs := 1 }
  let s := setNode s id fun n => { n with openCount := (n.openCount + 1) % 2 ^ 32, accessed := env.now }
  return (some s.nextFile, { s with
    files := Function.update s.files s.nextFile (some file)
    nextFile := s.nextFile + 1
    openFileCount := wrap64 (s.openFileCount + 1) })

def fsOpen (env : Env) (s : FsState) (path : Bytes) (flags : Nat) : Option (Option FileId × FsState) := do
  match ← openTarget env s path flags with
  | (none, s) => return (none, s)
  | (some id, s) => openNode env s id flags

def fsClose (s : FsState) (handle : FileId) : Option FsState := do
  let file ← s.files handle
  let refs := (2 ^ 32 + file.refs - 1) % 2 ^ 32
  if refs > 0 then return setFile s handle fun f => { f with refs := refs }
  let _ ← s.nodes file.node
  let s := setNode s file.node fun n => { n with openCount := n.openCount - 1 }
  return { s with
    files := Function.update s.files handle none
    openFileCount := s.openFileCount - 1 }

/-- The refresh entry of an ops table, where it has one. -/
def refresh (env : Env) (id : NodeId) (node : FsNode) : Option FsNode :=
  match node.ops with
  | some .kmsg => some { node with size := env.log.length }
  | some .proc =>
    if node.backing = none then some node
    else if node.capacity = 0 ∧ !env.dataAlloc then some node
    else
      let node := if node.capacity = 0 then { node with data := env.junk, capacity := procBuffer } else node
      let text := (env.procText id).take (procBuffer - 1)
      -- the generator trusts the buffer to be procBuffer bytes long
      if text.length + 1 > node.capacity then none
      else some { node with
        data := fun i => if i < text.length then text.getD i 0 else if i = text.length then 0 else node.data i
        size := text.length }
  | _ => some node

/-- count bytes of a node's buffer from offset on. -/
def slice (node : FsNode) (offset count : Nat) : Bytes :=
  (List.range count).map fun i => node.data (offset + i)

/-- The in-memory part of fs_read and all of proc_read: what is copied out. -/
def readData (node : FsNode) (offset len : Nat) : Option Bytes :=
  if offset ≥ node.size then some []
  else
    let count := min len (node.size - offset)
    if offset + count > node.capacity then none else some (slice node offset count)

/-- The read entry of an ops table: none when it has no entry. -/
def opsRead (env : Env) (node : FsNode) (offset len : Nat) : Option (Option Bytes) :=
  match node.ops with
  | none => none
  | some .null => some (some [])
  | some .zero => some (some (List.replicate len 0))
  | some .random => some (some ((env.device len).take len))
  | some .console => some (some ((env.device len).take len))
  | some .serial => some (some ((env.device len).take len))
  | some .kmsg => some (some ((env.log.drop offset).take len))
  | some .proc => some (readData node offset len)

def fsRead (env : Env) (s : FsState) (handle : FileId) (len : Nat) : Option (Int × Bytes × FsState) := do
  let file ← s.files handle
  if file.flags &&& oRdwr = oWronly then return (-qeBadf, [], s)
  let node ← s.nodes file.node
  let node ← refresh env file.node node
  let s := putNode s file.node node
  match opsRead env node file.offset len with
  | some got =>
    let got ← got
    let s := if ssize got.length > 0 then
        setFile s handle fun f => { f with offset := wrap64 (f.offset + got.length) }
      else s
    return (ssize got.length, got, s)
  | none =>
    if node.type = .dir then return (-qeIsdir, [], s)
    let got ← readData node file.offset len
    if file.offset ≥ node.size then return (0, [], s)
    let s := setFile s handle fun f => { f with offset := wrap64 (f.offset + got.length) }
    return (ssize got.length, got, setNode s file.node fun n => { n with accessed := env.now })

/-- Whether an ops table has a write entry; every such entry takes all bytes. -/
def opsWrites : Option OpsTable → Bool
  | some .null => true
  | some .zero => true
  | some .random => true
  | some .console => true
  | some .serial => true
  | _ => false

def overlay (data : Nat → UInt8) (offset : Nat) (buf : Bytes) : Nat → UInt8 :=
  fun i => if offset ≤ i ∧ i < offset + buf.length then buf.getD (i - offset) 0 else data i

def fsWrite (env : Env) (s : FsState) (handle : FileId) (buf : Bytes) : Option (Int × FsState) := do
  let file ← s.files handle
  if !has file.flags (oWronly ||| oRdwr) then return (-qeBadf, s)
  let node ← s.nodes file.node
  if opsWrites node.ops then
    let s := if ssize buf.length > 0 then
        setFile s handle fun f => { f with offset := wrap64 (f.offset + buf.length) }
      else s
    return (ssize buf.length, s)
  if node.type = .dir then return (-qeIsdir, s)
  let offset := if has file.flags oAppend then node.size else file.offset
  let s := setFile s handle fun f => { f with offset := offset }
  let (error, node) ← ensureCapacity env node (wrap64 (offset + buf.length))
  if error ≠ 0 then return (error, s)
  if offset + buf.length > node.capacity then none
  else
    let s := setFile s handle fun f => { f with offset := offset + buf.length }
    return (ssize buf.length, putNode s file.node
      { node with
        data := overlay node.data offset buf
        size := max node.size (offset + buf.length)
        modified := env.now })

inductive Origin where
  | set
  | cur
  | fromEnd
  | other

/-- The value of an int64_t after a sum was assigned to it. -/
def int64 (n : Int) : Int := (n + 2 ^ 63) % 2 ^ 64 - 2 ^ 63

def fsSeek (s : FsState) (handle : FileId) (offset : Int) (origin : Origin) : Option (Int × FsState) := do
  let file ← s.files handle
  let node ← s.nodes file.node
  let move (base : Nat) : Int × FsState :=
    let target := int64 (int64 base + offset)
    if target < 0 then (-qeInval, s)
    else (target, setFile s handle fun f => { f with offset := target.toNat })
  match origin with
  | .set => return move 0
  | .cur => return move file.offset
  | .fromEnd => return move node.size
  | .other => return (-qeInval, s)

/-- The size fs_stat reports; the other fields are copies of the node's. -/
def fsStat (env : Env) (s : FsState) (path : Bytes) : Option (Except Int Nat × FsState) := do
  match ← fsLookup s path with
  | none => return (.error (-qeNoent), s)
  | some id =>
    let node ← s.nodes id
    let node ← refresh env id node
    return (.ok node.size, putNode s id node)

def fsTruncate (env : Env) (s : FsState) (path : Bytes) (size : Nat) : Option (Int × FsState) := do
  match ← fsLookup s path with
  | none => return (-qeNoent, s)
  | some id =>
    let node ← s.nodes id
    if node.type ≠ .file then return (-qeIsdir, s)
    if size > node.size then
      let (error, node') ← ensureCapacity env node size
      if error ≠ 0 then return (error, s)
      if size > node'.capacity then none
      else
        return (0, putNode s id
          { node' with
            data := fun i => if node.size ≤ i ∧ i < size then 0 else node'.data i
            size := size
            modified := env.now })
    else return (0, putNode s id { node with size := size, modified := env.now })

end Qito.Vfs
