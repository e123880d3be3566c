import Qito.Lib.Runs
import Qito.Vfs.Calls
import Qito.Vfs.Tree

/-! What one task can change. The open check tests the write flag, but fs_write
accepts every handle with one of the two access bits and fs_open truncates
without asking for either; apart from these two cases a task without the write
permission leaves a file as it is. -/
namespace Qito.Vfs
open Runs

/-- The filesystem and the handles one task has open. -/
structure Session where
  fs : FsState
  mine : List FileId

inductive Call where
  | open (path : Bytes) (flags : Nat)
  | read (handle : FileId) (len : Nat)
  | write (handle : FileId) (buf : Bytes)
  | seek (handle : FileId) (offset : Int) (origin : Origin)
  | close (handle : FileId)

inductive Reply where
  | handle (got : Option FileId)
  | code (value : Int) (bytes : Bytes)
deriving DecidableEq

/-- A handle the task does not hold reaches the filesystem as NULL. -/
def perform (env : Env) (σ : Session) : Call → Option (Reply × Session)
  | .open path flags => do
    let (got, s) ← fsOpen env σ.fs path flags
    return (.handle got, { fs := s, mine := got.toList ++ σ.mine })
  | .read h len =>
    if h ∈ σ.mine then do
      let (value, bytes, s) ← fsRead env σ.fs h len
      return (.code value bytes, { σ with fs := s })
    else return (.code (-qeBadf) [], σ)
  | .write h buf =>
    if h ∈ σ.mine then do
      let (value, s) ← fsWrite env σ.fs h buf
      return (.code value [], { σ with fs := s })
    else return (.code (-qeBadf) [], σ)
  | .seek h offset origin =>
    if h ∈ σ.mine then do
      let (value, s) ← fsSeek σ.fs h offset origin
      return (.code value [], { σ with fs := s })
    else return (.code (-qeBadf) [], σ)
  | .close h =>
    if h ∈ σ.mine then do
      let s ← fsClose σ.fs h
      return (.code 0 [], { fs := s, mine := σ.mine.filter (· ≠ h) })
    else return (.code (-qeBadf) [], σ)

/-- What one call can do. -/
inductive Performed (env : Env) (σ : Session) : Call → Reply → Session → Prop where
  | opened {path : Bytes} {flags : Nat} {got : Option FileId} {s : FsState}
      (run : fsOpen env σ.fs path flags = some (got, s)) :
      Performed env σ (.open path flags) (.handle got) { fs := s, mine := got.toList ++ σ.mine }
  | read {h : FileId} {len : Nat} {value : Int} {bytes : Bytes} {s : FsState} (held : h ∈ σ.mine)
      (run : fsRead env σ.fs h len = some (value, bytes, s)) :
      Performed env σ (.read h len) (.code value bytes) { σ with fs := s }
  | written {h : FileId} {buf : Bytes} {value : Int} {s : FsState} (held : h ∈ σ.mine)
      (run : fsWrite env σ.fs h buf = some (value, s)) :
      Performed env σ (.write h buf) (.code value []) { σ with fs := s }
  | sought {h : FileId} {offset : Int} {origin : Origin} {value : Int} {s : FsState} (held : h ∈ σ.mine)
      (run : fsSeek σ.fs h offset origin = some (value, s)) :
      Performed env σ (.seek h offset origin) (.code value []) { σ with fs := s }
  | closed {h : FileId} {s : FsState} (held : h ∈ σ.mine) (run : fsClose σ.fs h = some s) :
      Performed env σ (.close h) (.code 0 []) { fs := s, mine := σ.mine.filter (· ≠ h) }
  | refused {call : Call} : Performed env σ call (.code (-qeBadf) []) σ

theorem perform_cases {env : Env} {σ τ : Session} {call : Call} {reply : Reply}
    (run : perform env σ call = some (reply, τ)) : Performed env σ call reply τ := by
  cases call with
  | «open» path flags =>
    obtain ⟨⟨got, s⟩, opens, rest⟩ := Option.bind_eq_some_iff.mp run
    cases Option.some.inj rest
    exact .opened opens
  | read h len =>
    simp only [perform] at run
    split at run
    · obtain ⟨⟨value, bytes, s⟩, reads, rest⟩ := Option.bind_eq_some_iff.mp run
      cases Option.some.inj rest
      exact .read (by assumption) reads
    · cases Option.some.inj run
      exact .refused
  | write h buf =>
    simp only [perform] at run
    split at run
    · obtain ⟨⟨value, s⟩, writes, rest⟩ := Option.bind_eq_some_iff.mp run
      cases Option.some.inj rest
      exact .written (by assumption) writes
    · cases Option.some.inj run
      exact .refused
  | seek h offset origin =>
    simp only [perform] at run
    split at run
    · obtain ⟨⟨value, s⟩, seeks, rest⟩ := Option.bind_eq_some_iff.mp run
      cases Option.some.inj rest
      exact .sought (by assumption) seeks
    · cases Option.some.inj run
      exact .refused
  | close h =>
    simp only [perform] at run
    split at run
    · obtain ⟨s, closes, rest⟩ := Option.bind_eq_some_iff.mp run
      cases Option.some.inj rest
      exact .closed (by assumption) closes
    · cases Option.some.inj run
      exact .refused

section Flags
variable {flags : Nat}

theorem has_or (flags a b : Nat) : has flags (a ||| b) = (has flags a || has flags b) := by
  rw [Bool.eq_iff_iff, Bool.or_eq_true]
  simp only [has, bne_iff_ne, ne_eq, Nat.and_or_distrib_left, Nat.or_eq_zero_iff, not_and_or]

theorem has_rdwr (flags : Nat) : has flags (oWronly ||| oRdwr) = (has flags oRdonly || has flags oWronly) :=
  has_or flags oRdonly oWronly

/-- Whether the permission class of a task grants writing, or reading. -/
def mayWrite (cred : Cred) (n : FsNode) : Bool := has (n.permissions >>> classShift n cred) 2

def mayRead (cred : Cred) (n : FsNode) : Bool := has (n.permissions >>> classShift n cred) 4

theorem mayWrite_owner {cred : Cred} {n m : FsNode} (same : n.body.SameOwner m.body) :
    mayWrite cred n = mayWrite cred m := by
  obtain ⟨-, permissions, uid, gid⟩ : n.type = m.type ∧ n.permissions = m.permissions ∧ n.uid = m.uid ∧ n.gid = m.gid :=
    same
  simp only [mayWrite, classShift, permissions, uid, gid]

theorem mayRead_owner {cred : Cred} {n m : FsNode} (same : n.body.SameOwner m.body) :
    mayRead cred n = mayRead cred m := by
  obtain ⟨-, permissions, uid, gid⟩ : n.type = m.type ∧ n.permissions = m.permissions ∧ n.uid = m.uid ∧ n.gid = m.gid :=
    same
  simp only [mayRead, classShift, permissions, uid, gid]

theorem fsCanAccess_user {env : Env} {cred : Cred} {n : FsNode} (task : env.task = some cred) (user : cred.uid ≠ 0)
    (access : fsCanAccess env n flags = true) :
    (has flags oWronly = true → mayWrite cred n = true) ∧ (has flags oRdonly = true → mayRead cred n = true) := by
  simp only [fsCanAccess, task, if_neg user, Bool.and_eq_true, Bool.not_eq_true', Bool.and_eq_false_imp,
    Bool.not_eq_false'] at access
  exact access

theorem write_denied {env : Env} {cred : Cred} {n : FsNode} (task : env.task = some cred) (user : cred.uid ≠ 0)
    (denied : mayWrite cred n = false) (access : fsCanAccess env n flags = true) : has flags oWronly = false := by
  have allowed := (fsCanAccess_user task user access).1
  rw [denied] at allowed
  exact Bool.eq_false_iff.mpr (fun asked => absurd (allowed asked) (by decide))

theorem read_denied {env : Env} {cred : Cred} {n : FsNode} (task : env.task = some cred) (user : cred.uid ≠ 0)
    (denied : mayRead cred n = false) (access : fsCanAccess env n flags = true) : has flags oRdonly = false := by
  have allowed := (fsCanAccess_user task user access).2
  rw [denied] at allowed
  exact Bool.eq_false_iff.mpr (fun asked => absurd (allowed asked) (by decide))

end Flags

section Writing
variable {env : Env} {s t : FsState} {flags : Nat} {x : NodeId} {n : FsNode}

/-- fs_open does not empty a file that it opens without the write flag. -/
def TruncOk (env : Env) (s : FsState) (path : Bytes) (flags : Nat) : Prop :=
  ∀ x n, fsLookup s path = some (some x) → s.nodes x = some n → n.type = .file → has flags oTrunc = true →
    (has flags oExcl && has flags oCreate) = false → has flags oDir = false → fsCanAccess env n flags = true →
    has flags oWronly = false → n.size = 0

theorem truncated_same (kept : has flags oTrunc = true → n.type = .file → n.size = 0) : truncated flags n = n := by
  rw [truncated]
  split
  · rename_i both
    rw [Bool.and_eq_true, decide_eq_true_iff] at both
    rw [← kept both.1 both.2]
  · rfl

theorem fsOpen_body {path : Bytes} {got : Option FileId} (run : fsOpen env s path flags = some (got, t))
    (fresh : Fresh s) (live : s.nodes x = some n) (ok : TruncOk env s path flags)
    (unarmed : fsCanAccess env n flags = true → has flags oWronly = false) : bodies t x = some n.body := by
  have older : x ≠ s.nextInode := Nat.ne_of_lt (fresh x n live)
  rcases fsOpen_cases run with ⟨-, rfl⟩ | ⟨id, m, search, plain, here, admitted, opened⟩ |
    ⟨s₁, m, -, -, created, -, -, ⟨-, rfl⟩ | ⟨-, opened⟩⟩
  · exact bodies_live live
  · rw [opened.table]
    by_cases same : x = id
    · subst id
      cases Option.some.inj (live.symm.trans here)
      have kept : truncated flags n = n := by
        refine truncated_same (fun trunc file => ?_)
        have notDir : has flags oDir = false := by
          by_contra asked
          have dir := admitted.dirOnly (by simpa using asked)
          rw [file] at dir
          exact absurd dir (by decide)
        exact ok x n search live file trunc plain notDir admitted.access (unarmed admitted.access)
      rw [kept, Function.update_self]
    · rw [Function.update_of_ne same]
      exact bodies_live live
  · rw [created.table, Function.update_of_ne older]
    exact bodies_live live
  · rw [opened.table, Function.update_of_ne older, created.table, Function.update_of_ne older]
    exact bodies_live live

/-- fs_write is not asked to write a file through a handle opened for reading only. -/
def WriteHandleOk (s : FsState) (h : FileId) : Prop :=
  ∀ f n, s.files h = some f → s.nodes f.node = some n → has f.flags oRdonly = true → has f.flags oWronly = false →
    opsWrites n.ops = true ∨ n.type = .dir

theorem fsWrite_body {h : FileId} {buf : Bytes} {code : Int} (run : fsWrite env s h buf = some (code, t))
    (live : s.nodes x = some n) (ok : WriteHandleOk s h)
    (unarmed : ∀ f, s.files h = some f → f.node = x → has f.flags oWronly = false) : bodies t x = some n.body := by
  obtain ⟨f, handle, -, -, -, -, same | ⟨m, b, here, accepted, memory, notDir, -, table⟩⟩ := fsWrite_cases run
  · rw [same]
    exact bodies_live live
  · rw [table]
    by_cases target : x = f.node
    · have noWrite := unarmed f handle target.symm
      rw [has_rdwr, noWrite, Bool.or_false] at accepted
      rcases ok f m handle here accepted noWrite with device | dir
      · rw [memory] at device
        exact absurd device (by decide)
      · exact absurd dir notDir
    · rw [Function.update_of_ne target]
      exact bodies_live live

end Writing

section Sessions

/-- The condition on a call under which it keeps to the write flag. -/
def WriteOk (env : Env) (σ : Session) : Call → Prop
  | .open path flags => TruncOk env σ.fs path flags
  | .write h _ => h ∈ σ.mine → WriteHandleOk σ.fs h
  | _ => True

def Call.isRead : Call → Prop
  | .read _ _ => True
  | _ => False

/-- A call by the task cred that opens, writes, seeks or closes. -/
def WriterStep (cred : Cred) (σ τ : Session) : Prop :=
  ∃ env call reply, env.task = some cred ∧ ¬ call.isRead ∧ WriteOk env σ call ∧ perform env σ call = some (reply, τ)

/-- Neither the flags of an fs_open nor those of the handle have the write bit. -/
def Unarmed (σ : Session) : Call → Prop
  | .open _ flags => has flags oWronly = false
  | .read h _ => ∀ f, σ.fs.files h = some f → has f.flags oWronly = false
  | .write h _ => ∀ f, σ.fs.files h = some f → has f.flags oWronly = false
  | .seek h _ _ => ∀ f, σ.fs.files h = some f → has f.flags oWronly = false
  | .close h => ∀ f, σ.fs.files h = some f → has f.flags oWronly = false

/-- No handle of the task on the node x has the access bit. -/
def Unheld (bit : Nat) (x : NodeId) (σ : Session) : Prop :=
  ∀ h ∈ σ.mine, h < σ.fs.nextFile ∧ ∃ f, σ.fs.files h = some f ∧ (f.node = x → has f.flags bit = false)

structure Guarded (x : NodeId) (b : Body) (σ : Session) : Prop where
  fresh : Fresh σ.fs
  node : bodies σ.fs x = some b
  handles : Unheld oWronly x σ

variable {env : Env} {σ τ : Session} {reply : Reply} {x : NodeId} {b : Body}

theorem perform_fresh {call : Call} (run : perform env σ call = some (reply, τ)) (fresh : Fresh σ.fs) : Fresh τ.fs := by
  cases perform_cases run with
  | opened opens => exact fsOpen_fresh opens fresh
  | read _ reads =>
    obtain ⟨f, -, -, inode, -, -, same | ⟨n, b, live, -, table⟩⟩ := fsRead_cases reads
    · exact fresh.of_bodies same inode
    · exact fresh.of_update table (by rw [inode]; exact fresh _ n live) (Nat.le_of_eq inode.symm)
  | written _ writes =>
    obtain ⟨f, -, -, inode, -, -, same | ⟨n, b, live, -, -, -, -, table⟩⟩ := fsWrite_cases writes
    · exact fresh.of_bodies same inode
    · exact fresh.of_update table (by rw [inode]; exact fresh _ n live) (Nat.le_of_eq inode.symm)
  | sought _ seeks =>
    obtain ⟨f, -, nodes, -, inode, -⟩ := fsSeek_cases seeks
    exact fresh.of_bodies (bodies_nodes nodes) inode
  | closed _ closes =>
    obtain ⟨same, -, inode, -⟩ := fsClose_cases closes
    exact fresh.of_bodies same inode
  | refused => exact fresh

theorem perform_body {call : Call} {n : FsNode} (run : perform env σ call = some (reply, τ)) (writer : ¬ call.isRead)
    (fresh : Fresh σ.fs) (ok : WriteOk env σ call) (live : σ.fs.nodes x = some n)
    (opening : ∀ path flags, call = .open path flags → fsCanAccess env n flags = true → has flags oWronly = false)
    (writing : ∀ h buf, call = .write h buf → h ∈ σ.mine →
      ∀ f, σ.fs.files h = some f → f.node = x → has f.flags oWronly = false) :
    bodies τ.fs x = some n.body := by
  cases perform_cases run with
  | opened opens => exact fsOpen_body opens fresh live ok (opening _ _ rfl)
  | read => exact absurd trivial writer
  | written held writes => exact fsWrite_body writes live (ok held) (writing _ _ rfl held)
  | sought _ seeks =>
    obtain ⟨f, -, nodes, -⟩ := fsSeek_cases seeks
    exact bodies_live (by rw [nodes]; exact live)
  | closed _ closes =>
    obtain ⟨same, -⟩ := fsClose_cases closes
    rw [same]
    exact bodies_live live
  | refused => exact bodies_live live

theorem Unheld.move {bit : Nat} {s : FsState} {h : FileId} {f : File} {offset : Nat} (held : Unheld bit x σ)
    (handle : σ.fs.files h = some f) (next : s.nextFile = σ.fs.nextFile)
    (files : s.files = Function.update σ.fs.files h (some { f with offset := offset })) :
    Unheld bit x { σ with fs := s } := by
  intro k member
  obtain ⟨older, g, here, unarmed⟩ := held k member
  obtain ⟨g', there, node, flags⟩ := moved_handle handle files here
  exact ⟨by rw [next]; exact older, g', there, by rw [node, flags]; exact unarmed⟩

theorem perform_unheld {call : Call} {bit : Nat} {n : FsNode} (run : perform env σ call = some (reply, τ))
    (fresh : Fresh σ.fs) (live : σ.fs.nodes x = some n)
    (denied : ∀ flags, fsCanAccess env n flags = true → has flags bit = false) (held : Unheld bit x σ) :
    Unheld bit x τ := by
  cases perform_cases run with
  | opened opens =>
    rcases fsOpen_handle opens fresh with ⟨rfl, files, next⟩ | ⟨f, rfl, next, files, rfl, access⟩
    · intro h member
      obtain ⟨older, f, handle, unarmed⟩ := held h member
      exact ⟨by rw [next]; exact older, f, by rw [files]; exact handle, unarmed⟩
    · intro h member
      rcases List.mem_cons.mp member with rfl | old
      · refine ⟨by rw [next]; exact Nat.lt_succ_self _, f, by rw [files, Function.update_self], ?_⟩
        rintro rfl
        exact denied f.flags (access n live)
      · obtain ⟨older, g, handle, unarmed⟩ := held h old
        refine ⟨by rw [next]; exact Nat.lt_succ_of_lt older, g, ?_, unarmed⟩
        rw [files, Function.update_of_ne (Nat.ne_of_lt older)]
        exact handle
  | read _ reads =>
    obtain ⟨f, handle, -, -, next, ⟨offset, files⟩, -⟩ := fsRead_cases reads
    exact held.move handle next files
  | written _ writes =>
    obtain ⟨f, handle, -, -, next, ⟨offset, files⟩, -⟩ := fsWrite_cases writes
    exact held.move handle next files
  | sought _ seeks =>
    obtain ⟨f, handle, -, -, -, next, offset, files⟩ := fsSeek_cases seeks
    exact held.move handle next files
  | closed _ closes =>
    obtain ⟨-, -, -, next, files⟩ := fsClose_cases closes
    intro h member
    obtain ⟨old, other⟩ := List.mem_filter.mp member
    obtain ⟨older, g, here, unarmed⟩ := held h old
    exact ⟨by rw [next]; exact older, g, by rw [files h (by simpa using other)]; exact here, unarmed⟩
  | refused => exact held

theorem Guarded.step {cred : Cred} (user : cred.uid ≠ 0) (denied : ∀ n : FsNode, n.body = b → mayWrite cred n = false)
    (guarded : Guarded x b σ) (moves : WriterStep cred σ τ) : Guarded x b τ := by
  obtain ⟨env, call, reply, task, writer, ok, run⟩ := moves
  obtain ⟨n, live, rfl⟩ := live_of_body guarded.node
  have locked : ∀ flags, fsCanAccess env n flags = true → has flags oWronly = false :=
    fun flags => write_denied task user (denied n rfl)
  refine ⟨perform_fresh run guarded.fresh, ?_, perform_unheld run guarded.fresh live locked guarded.handles⟩
  refine perform_body run writer guarded.fresh ok live (fun path flags _ => locked flags) ?_
  intro h buf _ held f handle target
  obtain ⟨-, g, here, unarmed⟩ := guarded.handles h held
  cases Option.some.inj (handle.symm.trans here)
  exact unarmed target

/-- The bytes of a file. -/
def FsNode.contents (n : FsNode) : Bytes := slice n 0 n.size

theorem contents_body {n m : FsNode} (same : n.body = m.body) : n.contents = m.contents := by
  have size : n.size = m.size := congrArg Body.size same
  have data : n.data = m.data := congrArg Body.data same
  simp only [FsNode.contents, slice, size, data]

/-- What a task may do to files it may not write, and what any call may do
without the write flag: nothing, in any run whose calls all meet WriteOk. -/
theorem write_integrity {s₀ : FsState} (fresh : Fresh s₀) :
    (∀ cred σ, cred.uid ≠ 0 → Reachable (fun σ => σ = { fs := s₀, mine := [] }) (WriterStep cred) σ →
      ∀ x n₀, s₀.nodes x = some n₀ → n₀.type = .file → mayWrite cred n₀ = false →
        ∃ n, σ.fs.nodes x = some n ∧ n.size = n₀.size ∧ n.contents = n₀.contents) ∧
    (∀ env mine call reply τ, ¬ call.isRead → WriteOk env { fs := s₀, mine := mine } call →
      Unarmed { fs := s₀, mine := mine } call → perform env { fs := s₀, mine := mine } call = some (reply, τ) →
        ∀ x n, s₀.nodes x = some n → ∃ n', τ.fs.nodes x = some n' ∧ n'.size = n.size ∧ n'.contents = n.contents) := by
  constructor
  · intro cred σ user reached x n₀ live _ denied
    have start : ∀ σ : Session, σ = { fs := s₀, mine := [] } → Guarded x n₀.body σ := by
      rintro σ rfl
      exact ⟨fresh, bodies_live live, by simp [Unheld]⟩
    have locked : ∀ n : FsNode, n.body = n₀.body → mayWrite cred n = false := by
      intro n same
      have owner : n.body.SameOwner n₀.body := by
        rw [same]
        exact .refl _
      rw [mayWrite_owner owner]
      exact denied
    have guarded := reached.induct (Guarded x n₀.body) start (fun σ τ held moves => held.step user locked moves)
    obtain ⟨n, here, same⟩ := live_of_body guarded.node
    exact ⟨n, here, congrArg Body.size same, contents_body same⟩
  · intro env mine call reply τ writer ok unarmed run x n live
    have kept : bodies τ.fs x = some n.body := by
      refine perform_body run writer fresh ok live ?_ ?_
      · rintro path flags rfl _
        exact unarmed
      · rintro h buf rfl _ f handle _
        exact unarmed f handle
    obtain ⟨n', here, same⟩ := live_of_body kept
    exact ⟨n', here, congrArg Body.size same, contents_body same⟩

/-- The kernel writes hello to the new file /etc/motd. -/
def writeMotd (s : FsState) : Option Session := do
  let (_, σ) ← perform bootEnv { fs := s, mine := [] } (.open (ascii "/etc/motd") (oCreate ||| oWronly))
  let (_, σ) ← perform bootEnv σ (.write 0 (ascii "hello"))
  let (_, σ) ← perform bootEnv σ (.close 0)
  return σ

/-- The filesystem after boot with /etc/motd as inode 15. -/
def motd : Option Session := (fsInit bootEnv fun _ => bootEnv).bind writeMotd

theorem writeMotd_fresh {s : FsState} (fresh : Fresh s) (run : writeMotd s = some σ) : Fresh σ.fs := by
  rw [writeMotd] at run
  obtain ⟨⟨r₁, σ₁⟩, opens, rest⟩ := Option.bind_eq_some_iff.mp run
  obtain ⟨⟨r₂, σ₂⟩, writes, rest⟩ := Option.bind_eq_some_iff.mp rest
  obtain ⟨⟨r₃, σ₃⟩, closes, rest⟩ := Option.bind_eq_some_iff.mp rest
  cases Option.some.inj rest
  exact perform_fresh closes (perform_fresh writes (perform_fresh opens fresh))

theorem motd_fresh (boot : motd = some σ) : Fresh σ.fs := by
  rw [motd] at boot
  obtain ⟨s, started, rest⟩ := Option.bind_eq_some_iff.mp boot
  obtain ⟨s', kids, started', tree⟩ := fsInit_tree bootEnv (fun _ => bootEnv) rfl
  obtain rfl : s = s' := Option.some.inj (started.symm.trans started')
  exact writeMotd_fresh (fun c n live => tree.fresh c n.shape (shapes_live live)) rest

/-- The user of the examples, and a call it makes. -/
def guest : Cred := { uid := 1000, gid := 1000 }

def guestEnv : Env := { bootEnv with task := some guest }

theorem write_integrity_of_motd :
    ∃ σ₀ n₀, motd = some σ₀ ∧ σ₀.fs.nodes 15 = some n₀ ∧ n₀.contents = ascii "hello" ∧
      ∀ σ, Reachable (fun σ => σ = { fs := σ₀.fs, mine := [] }) (WriterStep guest) σ →
        ∃ n, σ.fs.nodes 15 = some n ∧ n.contents = ascii "hello" := by
  have boot : (motd.bind fun σ => (σ.fs.nodes 15).map fun n => (n.contents, n.type, mayWrite guest n)) =
      some (ascii "hello", .file, false) := by
    decide +kernel
  obtain ⟨σ₀, started, rest⟩ := Option.bind_eq_some_iff.mp boot
  obtain ⟨n₀, live, facts⟩ := Option.map_eq_some_iff.mp rest
  obtain ⟨bytes, type, denied⟩ : n₀.contents = ascii "hello" ∧ n₀.type = .file ∧ mayWrite guest n₀ = false := by
    simpa using facts
  refine ⟨σ₀, n₀, started, live, bytes, ?_⟩
  intro σ reached
  obtain ⟨n, here, -, same⟩ :=
    (write_integrity (motd_fresh started)).1 guest σ (by decide) reached 15 n₀ live type denied
  exact ⟨n, here, same.trans bytes⟩

example : (motd.map fun σ => σ.fs.nextInode) = some 16 := by decide +kernel

/-- The guest opens /etc/motd for reading only and overwrites its first byte. -/
theorem read_only_handle_writes :
    ¬ ∀ s₀, Fresh s₀ → ∀ cred σ, cred.uid ≠ 0 →
      Reachable (fun σ => σ = { fs := s₀, mine := [] })
        (fun σ τ => ∃ env call reply, env.task = some cred ∧ ¬ call.isRead ∧ perform env σ call = some (reply, τ)) σ →
      ∀ x n₀, s₀.nodes x = some n₀ → n₀.type = .file → mayWrite cred n₀ = false →
        ∃ n, σ.fs.nodes x = some n ∧ n.size = n₀.size ∧ n.contents = n₀.contents := by
  intro always
  have attack : (motd.bind fun σ₀ => (σ₀.fs.nodes 15).bind fun n₀ =>
      (perform guestEnv { fs := σ₀.fs, mine := [] } (.open (ascii "/etc/motd") oRdonly)).bind fun first =>
        (perform guestEnv first.2 (.write 1 (ascii "H"))).bind fun second =>
          (second.2.fs.nodes 15).map fun n => (n₀.contents, n₀.type, mayWrite guest n₀, n.contents)) =
      some (ascii "hello", .file, false, ascii "Hello") := by
    decide +kernel
  obtain ⟨σ₀, started, rest⟩ := Option.bind_eq_some_iff.mp attack
  obtain ⟨n₀, live, rest⟩ := Option.bind_eq_some_iff.mp rest
  obtain ⟨⟨r₁, σ₁⟩, opens, rest⟩ := Option.bind_eq_some_iff.mp rest
  obtain ⟨⟨r₂, σ₂⟩, writes, rest⟩ := Option.bind_eq_some_iff.mp rest
  obtain ⟨n, here, facts⟩ := Option.map_eq_some_iff.mp rest
  obtain ⟨before, type, denied, after⟩ : n₀.contents = ascii "hello" ∧ n₀.type = .file ∧
      mayWrite guest n₀ = false ∧ n.contents = ascii "Hello" := by
    simpa using facts
  obtain ⟨m, there, -, same⟩ := always σ₀.fs (motd_fresh started) guest σ₂ (by decide)
    (.next (.next (.start rfl) ⟨guestEnv, _, _, rfl, id, opens⟩) ⟨guestEnv, _, _, rfl, id, writes⟩)
    15 n₀ live type denied
  cases Option.some.inj (here.symm.trans there)
  rw [before, after] at same
  exact absurd same (by decide)

end Sessions

end Qito.Vfs
