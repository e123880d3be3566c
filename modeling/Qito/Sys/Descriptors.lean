import Qito.Lib.Runs
import Qito.Sys.Pointers
import Qito.Vfs.Calls

/-! The descriptors of a task. Beside the kernel's table runs a record of what was
opened under each number; the table agrees with it in every run. What read and
write make of a number agrees with it except for the numbers of the console. -/
namespace Qito.Sys
open Faults Runs

inductive FdCall where
  | openAt (path : UInt64) (flags : UInt32)
  | close (fd : Int32)
  | read (fd : Int32) (buf len : UInt64)
  | write (fd : Int32) (buf len : UInt64)
  | seek (fd : Int32) (offset : Int64) (origin : Vfs.Origin)

def runFd (env : Vfs.Env) (k : Kernel) : FdCall → Except Fault (Int × Kernel)
  | .openAt path flags => sysOpen env k path.toNat flags.toNat
  | .close fd => sysClose k fd.toInt
  | .read fd buf len => sysRead env k fd.toInt buf.toNat len.toNat
  | .write fd buf len => sysWrite env k fd.toInt buf.toNat len.toNat
  | .seek fd offset origin => sysSeek k fd.toInt offset.toInt origin

/-- The file a successful open gave a number to, and the node it was opened on. -/
structure Grant where
  file : Vfs.FileId
  node : Vfs.NodeId
deriving DecidableEq

/-- A task, and what its successful opens returned under each number that is not closed since. -/
structure Session where
  k : Kernel
  opened : Nat → Option Grant

/-- What fs_open returns inside the call. -/
def fileOpened (env : Vfs.Env) (k : Kernel) (path flags : Nat) : Option Grant :=
  match resolvedPath k path with
  | .error _ => none
  | .ok resolved => do
    let (file, fs) ← Vfs.fsOpen env k.fs resolved flags
    let file ← file
    let handle ← fs.files file
    return { file := file, node := handle.node }

def note (env : Vfs.Env) (σ : Session) (code : Int) : FdCall → Nat → Option Grant
  | .openAt path flags =>
    if 0 ≤ code then Function.update σ.opened code.toNat (fileOpened env σ.k path.toNat flags.toNat) else σ.opened
  | .close fd => if code = 0 then Function.update σ.opened fd.toInt.toNat none else σ.opened
  | _ => σ.opened

/-- The handles of the filesystem are the ones it gave out. -/
def FreshFiles (s : Vfs.FsState) : Prop := ∀ h f, s.files h = some f → h < s.nextFile

/-- alloc_task clears the table. -/
def FdStart (σ : Session) : Prop :=
  σ.k.task.fds = (fun _ => none) ∧ σ.opened = (fun _ => none) ∧ FreshFiles σ.k.fs

def FdStep (σ τ : Session) : Prop :=
  ∃ env call code k, runFd env σ.k call = .ok (code, k) ∧ τ = { k := k, opened := note env σ code call }

/-- The table holds what was opened, each file once and still open. -/
structure Agrees (σ : Session) : Prop where
  table : ∀ fd, σ.k.task.fds fd = (σ.opened fd).map Grant.file
  range : ∀ fd grant, σ.opened fd = some grant → fd < maxFds
  live : ∀ fd grant, σ.opened fd = some grant → ∃ f, σ.k.fs.files grant.file = some f ∧ f.node = grant.node
  once : ∀ fd fd' grant grant', σ.opened fd = some grant → σ.opened fd' = some grant' → grant.file = grant'.file → fd = fd'
  fresh : FreshFiles σ.k.fs

section Files
variable {env : Vfs.Env} {s t : Vfs.FsState} {h : Vfs.FileId}

/-- Handles that were there are there, on the same nodes. -/
def KeepsFiles (s t : Vfs.FsState) : Prop :=
  FreshFiles s → FreshFiles t ∧ ∀ h f, s.files h = some f → ∃ g, t.files h = some g ∧ g.node = f.node

theorem KeepsFiles.refl (s : Vfs.FsState) : KeepsFiles s s := fun fresh => ⟨fresh, fun _ f live => ⟨f, live, rfl⟩⟩

theorem KeepsFiles.of_files (files : t.files = s.files) (next : t.nextFile = s.nextFile) : KeepsFiles s t := by
  unfold KeepsFiles FreshFiles
  rw [files, next]
  exact KeepsFiles.refl s

theorem KeepsFiles.moved {f : Vfs.File} {offset : Nat} (handle : s.files h = some f) (next : t.nextFile = s.nextFile)
    (files : t.files = Function.update s.files h (some { f with offset := offset })) : KeepsFiles s t := by
  refine fun fresh => ⟨fun c g live => ?_, fun c g live => ?_⟩
  · rw [next]
    by_cases same : c = h
    · subst c
      exact fresh h f handle
    · rw [files, Function.update_of_ne same] at live
      exact fresh c g live
  · rw [files]
    by_cases same : c = h
    · subst c
      cases Option.some.inj (handle.symm.trans live)
      exact ⟨_, Function.update_self _ _ _, rfl⟩
    · exact ⟨g, by rw [Function.update_of_ne same, live], rfl⟩

theorem fsOpen_files {path : Vfs.Bytes} {flags : Nat} {got : Option Vfs.FileId} (run : Vfs.fsOpen env s path flags = some (got, t)) :
    (got = none ∧ t.files = s.files ∧ t.nextFile = s.nextFile) ∨
    ∃ f, got = some s.nextFile ∧ t.nextFile = s.nextFile + 1 ∧ t.files = Function.update s.files s.nextFile (some f) := by
  rcases Vfs.fsOpen_cases run with ⟨rfl, rfl⟩ | ⟨id, n, -, -, -, -, opened⟩ | ⟨u, n, -, -, created, -, -, ⟨rfl, rfl⟩ | ⟨-, opened⟩⟩
  · exact Or.inl ⟨rfl, rfl, rfl⟩
  · rcases opened.handle with ⟨-, rfl, files, next⟩ | ⟨rfl, next, files⟩
    · exact Or.inl ⟨rfl, files, next⟩
    · exact Or.inr ⟨_, rfl, next, files⟩
  · exact Or.inl ⟨rfl, created.files, created.nextFile⟩
  · rcases opened.handle with ⟨-, rfl, files, next⟩ | ⟨rfl, next, files⟩
    · exact Or.inl ⟨rfl, files.trans created.files, next.trans created.nextFile⟩
    · rw [created.nextFile, created.files] at files
      exact Or.inr ⟨_, by rw [created.nextFile], by rw [next, created.nextFile], files⟩

theorem call_ok {α : Type} {o : Option α} {a : α} (run : call o = .ok a) : o = some a := by
  cases o with
  | none => cases run
  | some b => exact congrArg some (Except.ok.inj run)

theorem writeBytes_keeps {bytes : Bytes} {k k' : Kernel} {addr : Nat} (run : writeBytes k addr bytes = .ok k') :
    k'.fs = k.fs ∧ k'.task = k.task := by
  induction bytes generalizing k addr with
  | nil =>
    cases Except.ok.inj run
    exact ⟨rfl, rfl⟩
  | cons byte rest ih =>
    unfold writeBytes at run
    split at run
    · obtain ⟨fs, task⟩ := ih run
      exact ⟨fs, task⟩
    · cases run

end Files

section Calls
variable {env : Vfs.Env} {k k' : Kernel} {code : Int}

theorem sysRead_keeps {fd : Int} {buf len : Nat} (run : sysRead env k fd buf len = .ok (code, k')) :
    k'.task = k.task ∧ KeepsFiles k.fs k'.fs := by
  unfold sysRead at run
  split at run
  · cases Except.ok.inj run
    exact ⟨rfl, KeepsFiles.refl _⟩
  split at run
  · obtain ⟨k₁, write, rest⟩ := bind_ok.mp run
    cases Except.ok.inj rest
    obtain ⟨fs, task⟩ := writeBytes_keeps write
    exact ⟨task, by rw [fs]; exact KeepsFiles.refl _⟩
  · obtain ⟨⟨got, bytes, fs'⟩, reads, rest⟩ := bind_ok.mp run
    obtain ⟨k₁, write, rest⟩ := bind_ok.mp rest
    cases Except.ok.inj rest
    obtain ⟨fs, task⟩ := writeBytes_keeps write
    obtain ⟨f, handle, -, -, next, ⟨offset, files⟩, -⟩ := Vfs.fsRead_cases (call_ok reads)
    refine ⟨task, ?_⟩
    rw [fs]
    exact KeepsFiles.moved handle next files
  · cases Except.ok.inj run
    exact ⟨rfl, KeepsFiles.refl _⟩

theorem sysWrite_keeps {fd : Int} {buf len : Nat} (run : sysWrite env k fd buf len = .ok (code, k')) :
    k'.task = k.task ∧ KeepsFiles k.fs k'.fs := by
  unfold sysWrite at run
  split at run
  · cases Except.ok.inj run
    exact ⟨rfl, KeepsFiles.refl _⟩
  split at run
  · obtain ⟨bytes, -, rest⟩ := bind_ok.mp run
    cases Except.ok.inj rest
    exact ⟨rfl, KeepsFiles.refl _⟩
  · obtain ⟨bytes, -, rest⟩ := bind_ok.mp run
    obtain ⟨⟨written, fs⟩, writes, rest⟩ := bind_ok.mp rest
    cases Except.ok.inj rest
    obtain ⟨f, handle, -, -, next, ⟨offset, files⟩, -⟩ := Vfs.fsWrite_cases (call_ok writes)
    exact ⟨rfl, KeepsFiles.moved handle next files⟩
  · cases Except.ok.inj run
    exact ⟨rfl, KeepsFiles.refl _⟩

theorem sysSeek_keeps {fd offset : Int} {origin : Vfs.Origin} (run : sysSeek k fd offset origin = .ok (code, k')) :
    k'.task = k.task ∧ KeepsFiles k.fs k'.fs := by
  unfold sysSeek at run
  split at run
  · obtain ⟨⟨position, fs⟩, seeks, rest⟩ := bind_ok.mp run
    cases Except.ok.inj rest
    obtain ⟨f, handle, -, -, -, next, at', files⟩ := Vfs.fsSeek_cases (call_ok seeks)
    exact ⟨rfl, KeepsFiles.moved handle next files⟩
  · cases Except.ok.inj run
    exact ⟨rfl, KeepsFiles.refl _⟩

theorem fdAlloc_free {task task' : Task} {file : Vfs.FileId} {fd : Nat} (run : fdAlloc task file = some (fd, task')) :
    fd < maxFds ∧ task.fds fd = none ∧ task'.fds = Function.update task.fds fd (some file) := by
  unfold fdAlloc at run
  split at run
  · rename_i free found
    obtain ⟨rfl, rfl⟩ := Prod.mk.inj (Option.some.inj run)
    have member := List.mem_of_find?_eq_some found
    have none_ := List.find?_some found
    exact ⟨List.mem_range.mp member, Option.isNone_iff_eq_none.mp none_, rfl⟩
  · cases run

theorem fsClose_files {s t : Vfs.FsState} {h : Vfs.FileId} (run : Vfs.fsClose s h = some t) (fresh : FreshFiles s) :
    FreshFiles t ∧ ∀ c, c ≠ h → t.files c = s.files c := by
  obtain ⟨-, -, -, next, others⟩ := Vfs.fsClose_cases run
  refine ⟨fun c f live => ?_, others⟩
  rw [next]
  by_cases same : c = h
  · subst c
    obtain ⟨g, handle, -⟩ := Option.bind_eq_some_iff.mp run
    exact fresh h g handle
  · rw [others c same] at live
    exact fresh c f live

/-- What sys_open does: it fails and leaves every descriptor, or it gives a free
number to the file fs_open returned. -/
theorem sysOpen_cases {path flags : Nat} (run : sysOpen env k path flags = .ok (code, k')) (fresh : FreshFiles k.fs) :
    (code < 0 ∧ k'.task = k.task ∧ KeepsFiles k.fs k'.fs) ∨
    ∃ (fd : Nat) (f : Vfs.File), code = fd ∧ fd < maxFds ∧ k.task.fds fd = none ∧
      k'.task.fds = Function.update k.task.fds fd (some k.fs.nextFile) ∧ k'.fs.nextFile = k.fs.nextFile + 1 ∧
      k'.fs.files = Function.update k.fs.files k.fs.nextFile (some f) ∧
      fileOpened env k path flags = some { file := k.fs.nextFile, node := f.node } := by
  unfold sysOpen at run
  split at run
  · cases Except.ok.inj run
    exact Or.inl ⟨by decide, rfl, KeepsFiles.refl _⟩
  obtain ⟨resolved, string, run⟩ := bind_ok.mp run
  obtain ⟨⟨file, fs⟩, opens, run⟩ := bind_ok.mp run
  have opens := call_ok opens
  rcases fsOpen_files opens with ⟨rfl, files, next⟩ | ⟨f, rfl, next, files⟩
  · cases Except.ok.inj run
    exact Or.inl ⟨by decide, rfl, KeepsFiles.of_files files next⟩
  simp only at run
  split at run
  · rename_i fd task alloc
    cases Except.ok.inj run
    obtain ⟨bound, free, table⟩ := fdAlloc_free alloc
    refine Or.inr ⟨fd, f, rfl, bound, free, table, next, files, ?_⟩
    have handle : fs.files k.fs.nextFile = some f := by rw [files, Function.update_self]
    simp [fileOpened, string, opens, handle]
  · obtain ⟨fs', closes, run⟩ := bind_ok.mp run
    cases Except.ok.inj run
    have fresh' : FreshFiles fs := by
      intro c g live
      rw [next]
      by_cases new : c = k.fs.nextFile
      · rw [new]
        exact Nat.lt_succ_self _
      · rw [files, Function.update_of_ne new] at live
        exact Nat.lt_succ_of_lt (fresh c g live)
    obtain ⟨last, others⟩ := fsClose_files (call_ok closes) fresh'
    refine Or.inl ⟨by decide, rfl, fun _ => ⟨last, fun c g live => ?_⟩⟩
    have other : c ≠ k.fs.nextFile := Nat.ne_of_lt (fresh c g live)
    exact ⟨g, by rw [others c other, files, Function.update_of_ne other, live], rfl⟩

theorem sysClose_cases {fd : Int} (run : sysClose k fd = .ok (code, k')) (fresh : FreshFiles k.fs) :
    (code ≠ 0 ∧ k' = k) ∨ ∃ file, code = 0 ∧ fdGet k.task fd = some file ∧
      k'.task.fds = Function.update k.task.fds fd.toNat none ∧ FreshFiles k'.fs ∧
      ∀ c, c ≠ file → k'.fs.files c = k.fs.files c := by
  unfold sysClose at run
  split at run
  · cases Except.ok.inj run
    exact Or.inl ⟨by decide, rfl⟩
  · rename_i file held
    obtain ⟨fs, closes, run⟩ := bind_ok.mp run
    cases Except.ok.inj run
    obtain ⟨fresh', others⟩ := fsClose_files (call_ok closes) fresh
    exact Or.inr ⟨file, rfl, held, rfl, fresh', others⟩

end Calls

section Invariant
variable {σ τ : Session}

theorem Agrees.start (starts : FdStart σ) : Agrees σ := by
  obtain ⟨table, opened, fresh⟩ := starts
  refine ⟨fun fd => ?_, fun fd grant there => ?_, fun fd grant there => ?_, fun fd fd' grant grant' there => ?_, fresh⟩
  · rw [table, opened]
    rfl
  · rw [opened] at there
    cases there
  · rw [opened] at there
    cases there
  · rw [opened] at there
    cases there

theorem Agrees.kept {k : Kernel} (agrees : Agrees σ) (task : k.task.fds = σ.k.task.fds) (files : KeepsFiles σ.k.fs k.fs) :
    Agrees { k := k, opened := σ.opened } := by
  obtain ⟨fresh, live⟩ := files agrees.fresh
  refine ⟨fun fd => ?_, agrees.range, fun fd grant there => ?_, agrees.once, fresh⟩
  · rw [task]
    exact agrees.table fd
  · obtain ⟨f, handle, node⟩ := agrees.live fd grant there
    obtain ⟨g, handle', same⟩ := live _ f handle
    exact ⟨g, handle', same.trans node⟩

theorem Agrees.grant {k : Kernel} {fd : Nat} {f : Vfs.File} (agrees : Agrees σ) (bound : fd < maxFds)
    (table : k.task.fds = Function.update σ.k.task.fds fd (some σ.k.fs.nextFile))
    (next : k.fs.nextFile = σ.k.fs.nextFile + 1)
    (files : k.fs.files = Function.update σ.k.fs.files σ.k.fs.nextFile (some f)) :
    Agrees { k := k, opened := Function.update σ.opened fd (some { file := σ.k.fs.nextFile, node := f.node }) } := by
  -- a grant from before is of an older file
  have older {c : Nat} {grant : Grant} (there : σ.opened c = some grant) : grant.file < σ.k.fs.nextFile := by
    obtain ⟨g, handle, -⟩ := agrees.live c grant there
    exact agrees.fresh _ g handle
  have before {c : Nat} {grant : Grant} (other : c ≠ fd)
      (there : Function.update σ.opened fd (some { file := σ.k.fs.nextFile, node := f.node }) c = some grant) :
      σ.opened c = some grant := by
    rwa [Function.update_of_ne other] at there
  have now {grant : Grant} (there : Function.update σ.opened fd (some { file := σ.k.fs.nextFile, node := f.node }) fd = some grant) :
      grant.file = σ.k.fs.nextFile ∧ grant.node = f.node := by
    rw [Function.update_self] at there
    cases Option.some.inj there
    exact ⟨rfl, rfl⟩
  refine ⟨fun c => ?_, fun c grant there => ?_, fun c grant there => ?_, fun c c' grant grant' there there' same => ?_,
    fun c g live => ?_⟩
  · simp only [table]
    by_cases here : c = fd
    · simp [here]
    · simp [here, agrees.table c]
  · by_cases here : c = fd
    · rw [here]
      exact bound
    · exact agrees.range c grant (before here there)
  · by_cases here : c = fd
    · subst c
      obtain ⟨file, node⟩ := now there
      exact ⟨f, by rw [file, files, Function.update_self], node.symm⟩
    · obtain ⟨g, handle, node⟩ := agrees.live c grant (before here there)
      have other : grant.file ≠ σ.k.fs.nextFile := Nat.ne_of_lt (older (before here there))
      exact ⟨g, by rw [files, Function.update_of_ne other, handle], node⟩
  · by_cases here : c = fd
    · by_cases here' : c' = fd
      · rw [here, here']
      · subst c
        exact absurd (same.symm.trans (now there).1) (Nat.ne_of_lt (older (before here' there')))
    · by_cases here' : c' = fd
      · subst c'
        exact absurd (same.trans (now there').1) (Nat.ne_of_lt (older (before here there)))
      · exact agrees.once c c' grant grant' (before here there) (before here' there') same
  · rw [next]
    by_cases new : c = σ.k.fs.nextFile
    · rw [new]
      exact Nat.lt_succ_self _
    · rw [files, Function.update_of_ne new] at live
      exact Nat.lt_succ_of_lt (agrees.fresh c g live)

theorem Agrees.release {k : Kernel} {fd : Int} {file : Vfs.FileId} (agrees : Agrees σ) (held : fdGet σ.k.task fd = some file)
    (table : k.task.fds = Function.update σ.k.task.fds fd.toNat none) (fresh : FreshFiles k.fs)
    (others : ∀ c, c ≠ file → k.fs.files c = σ.k.fs.files c) :
    Agrees { k := k, opened := Function.update σ.opened fd.toNat none } := by
  have here : σ.k.task.fds fd.toNat = some file := by
    unfold fdGet at held
    split at held
    · cases held
    · exact held
  rw [agrees.table] at here
  obtain ⟨grant, there, same⟩ := Option.map_eq_some_iff.mp here
  have before {c : Nat} {other : Grant} (after : Function.update σ.opened fd.toNat none c = some other) :
      c ≠ fd.toNat ∧ σ.opened c = some other := by
    by_cases gone : c = fd.toNat
    · rw [gone, Function.update_self] at after
      cases after
    · rw [Function.update_of_ne gone] at after
      exact ⟨gone, after⟩
  refine ⟨fun c => ?_, fun c other after => agrees.range c other (before after).2, fun c other after => ?_,
    fun c c' other other' after after' => agrees.once c c' other other' (before after).2 (before after').2, fresh⟩
  · simp only [table]
    by_cases gone : c = fd.toNat
    · simp [gone]
    · simp [gone, agrees.table c]
  · obtain ⟨apart, was⟩ := before after
    obtain ⟨f, handle, node⟩ := agrees.live c other was
    have different : other.file ≠ file := by
      intro equal
      exact apart (agrees.once c fd.toNat other grant was there (equal.trans same.symm))
    exact ⟨f, by rw [others _ different, handle], node⟩

theorem Agrees.step (agrees : Agrees σ) (moves : FdStep σ τ) : Agrees τ := by
  obtain ⟨env, call, code, k, run, rfl⟩ := moves
  cases call with
  | openAt path flags =>
    rcases sysOpen_cases run agrees.fresh with ⟨failed, task, files⟩ | ⟨fd, f, rfl, bound, -, table, next, files, grant⟩
    · have same : note env σ code (.openAt path flags) = σ.opened := if_neg (Int.not_le.mpr failed)
      rw [same]
      exact agrees.kept (congrArg Task.fds task) files
    · have same : note env σ (fd : Int) (.openAt path flags) =
          Function.update σ.opened fd (some { file := σ.k.fs.nextFile, node := f.node }) := by
        rw [note, if_pos (Int.natCast_nonneg fd), grant, Int.toNat_natCast]
      rw [same]
      exact agrees.grant bound table next files
  | close fd =>
    rcases sysClose_cases run agrees.fresh with ⟨failed, rfl⟩ | ⟨file, rfl, held, table, fresh, others⟩
    · have same : note env σ code (.close fd) = σ.opened := if_neg failed
      rw [same]
      exact agrees
    · exact agrees.release held table fresh others
  | read fd buf len =>
    obtain ⟨task, files⟩ := sysRead_keeps run
    exact agrees.kept (congrArg Task.fds task) files
  | write fd buf len =>
    obtain ⟨task, files⟩ := sysWrite_keeps run
    exact agrees.kept (congrArg Task.fds task) files
  | seek fd offset origin =>
    obtain ⟨task, files⟩ := sysSeek_keeps run
    exact agrees.kept (congrArg Task.fds task) files

theorem agrees_reached (reached : Reachable FdStart FdStep σ) : Agrees σ :=
  reached.induct Agrees (fun _ starts => Agrees.start starts) fun _ _ agrees moves => agrees.step moves

theorem Agrees.get (agrees : Agrees σ) {fd : Nat} {grant : Grant} (there : σ.opened fd = some grant) :
    fdGet σ.k.task fd = some grant.file := by
  have bound := agrees.range fd grant there
  have inside : ¬ ((fd : Int) < 0 ∨ (fd : Int) ≥ maxFds) := by
    have limit : maxFds = 32 := rfl
    omega
  rw [fdGet, if_neg inside, Int.toNat_natCast, agrees.table, there]
  rfl

end Invariant

/-- A task that has opened nothing, with the path of the root at 0x1000. -/
def idle : Session where
  k := { onePage (fun a => if a = 0x1000 then 47 else 0) with
    fs := { Vfs.grown Vfs.bootEnv Vfs.bareFs (Vfs.ascii "/") .dir 0o755 with root := 1 } }
  opened := fun _ => none

theorem idle_start : FdStart idle := ⟨rfl, rfl, fun _ _ live => absurd (live : none = some _) nofun⟩

theorem first_open : ∃ σ : Session, Reachable FdStart FdStep σ ∧ σ.opened 0 = some { file := 0, node := 1 } := by
  have outcome : (match runFd Vfs.bootEnv idle.k (.openAt 0x1000 0x0001) with
      | .ok (code, _) => some code
      | .error _ => none) = some 0 := by decide
  have grant : fileOpened Vfs.bootEnv idle.k 0x1000 0x0001 = some { file := 0, node := 1 } := by decide
  cases run : runFd Vfs.bootEnv idle.k (.openAt 0x1000 0x0001) with
  | error e =>
    rw [run] at outcome
    cases outcome
  | ok result =>
    obtain ⟨code, k⟩ := result
    rw [run] at outcome
    cases Option.some.inj outcome
    refine ⟨_, (Reachable.start idle_start).next ⟨Vfs.bootEnv, _, 0, k, run, rfl⟩, ?_⟩
    change (if (0 : Int) ≤ 0 then Function.update idle.opened 0 (fileOpened Vfs.bootEnv idle.k 0x1000 0x0001)
      else idle.opened) 0 = _
    rw [if_pos (Int.le_refl 0), Function.update_self, grant]

end Qito.Sys
