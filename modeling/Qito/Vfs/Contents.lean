import Qito.Lib.Buffers
import Qito.Vfs.Access

/-! Regular files as byte sequences. Ideal says what the calls are for: each file
is a list of bytes, a shrink discards its tail, and a gap is filled with zeros.
The buffers of the filesystem follow it as long as no write leaves a gap over
bytes that an earlier, longer version of the file left in the buffer. -/
namespace Qito.Vfs
open Buffers Runs

/-- An in-memory regular file. -/
def Body.Regular (b : Body) : Prop := b.type = .file ∧ b.ops = none

instance (b : Body) : Decidable b.Regular := inferInstanceAs (Decidable (_ ∧ _))

@[grind =] def Body.contents (b : Body) : Bytes := bytes b.data b.size

/-- The bytes of the file lie in its buffer. -/
def Body.Sound (b : Body) : Prop := b.size ≤ b.capacity ∧ b.size < 2 ^ 41

structure Handle where
  node : NodeId
  offset : Nat
  flags : Nat

structure Ideal where
  files : NodeId → Bytes
  handles : FileId → Option Handle

/-- A call whose path and handle are known. -/
inductive FileOp where
  | open (h : FileId) (id : NodeId) (flags : Nat)
  | read (h : FileId) (len : Nat)
  | write (h : FileId) (buf : Bytes)
  | seek (h : FileId) (offset : Int) (origin : Origin)
  | close (h : FileId)
  | truncate (id : NodeId) (size : Nat)
  | stat (id : NodeId)

namespace Ideal

@[grind =] def badHandle : Reply := .code (-qeBadf) []

/-- Where a seek counts from; none is an origin fs_seek does not know. -/
def base (α : Ideal) (f : Handle) : Origin → Option Int
  | .set => some 0
  | .cur => some f.offset
  | .fromEnd => some (α.files f.node).length
  | .other => none

@[grind =] def step (α : Ideal) : FileOp → Reply × Ideal
  | .open h id flags =>
    let kept := if has flags oTrunc then [] else α.files id
    let offset := if has flags oAppend then kept.length else 0
    (.handle (some h), {
      files := Function.update α.files id kept
      handles := Function.update α.handles h (some { node := id, offset := offset, flags := flags }) })
  | .read h len =>
    match α.handles h with
    | none => (badHandle, α)
    | some f =>
      if f.flags &&& oRdwr = oWronly then (badHandle, α)
      else
        let got := readAt f.offset len (α.files f.node)
        (.code got.length got, { α with
          handles := Function.update α.handles h (some { f with offset := f.offset + got.length }) })
  | .write h buf =>
    match α.handles h with
    | none => (badHandle, α)
    | some f =>
      if !has f.flags (oWronly ||| oRdwr) then (badHandle, α)
      else
        let offset := if has f.flags oAppend then (α.files f.node).length else f.offset
        (.code buf.length [], {
          files := Function.update α.files f.node (writeAt 0 offset buf (α.files f.node))
          handles := Function.update α.handles h (some { f with offset := offset + buf.length }) })
  | .seek h offset origin =>
    match α.handles h with
    | none => (badHandle, α)
    | some f =>
      match α.base f origin with
      | none => (.code (-qeInval) [], α)
      | some start =>
        if start + offset < 0 then (.code (-qeInval) [], α)
        else (.code (start + offset) [], { α with
          handles := Function.update α.handles h (some { f with offset := (start + offset).toNat }) })
  | .close h =>
    match α.handles h with
    | none => (badHandle, α)
    | some _ => (.code 0 [], { α with handles := Function.update α.handles h none })
  | .truncate id size => (.code 0 [], { α with files := Function.update α.files id (resize 0 size (α.files id)) })
  | .stat id => (.code (α.files id).length [], α)

end Ideal

/-- The calls of a session together with those that name a file by its path. -/
inductive Op where
  | call (c : Call)
  | truncate (path : Bytes) (size : Nat)
  | stat (path : Bytes)

def runOp (env : Env) (σ : Session) : Op → Option (Reply × Session)
  | .call c => perform env σ c
  | .truncate path size => do
    let (code, s) ← fsTruncate env σ.fs path size
    return (.code code [], { σ with fs := s })
  | .stat path => do
    let (result, s) ← fsStat env σ.fs path
    match result with
    | .ok size => return (.code size [], { σ with fs := s })
    | .error code => return (.code code [], { σ with fs := s })

/-- The file operation a call from σ to τ stands for; a path that names no file,
or an fs_open that returns NULL, stands for none. -/
@[grind =] def resolve (σ : Session) (τ : Session) : Op → Reply → Option FileOp
  | .call (.open _ flags), .handle (some h) => (τ.fs.files h).map fun f => .open h f.node flags
  | .call (.open _ _), _ => none
  | .call (.read h len), _ => some (.read h len)
  | .call (.write h buf), _ => some (.write h buf)
  | .call (.seek h offset origin), _ => some (.seek h offset origin)
  | .call (.close h), _ => some (.close h)
  | .truncate path size, _ => ((fsLookup σ.fs path).getD none).map fun id => .truncate id size
  | .stat path, _ => ((fsLookup σ.fs path).getD none).map .stat

end Qito.Vfs
