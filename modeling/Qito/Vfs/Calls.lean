import Qito.Vfs.Namespace

/-! What the calls on open files do to the node table. A body is what a node
holds apart from its place in the tree, its clocks and its open count; each call
changes the body of one node at most. -/
namespace Qito.Vfs

structure Body where
  type : NodeType
  permissions : Nat
  uid : Nat
  gid : Nat
  size : Nat
  capacity : Nat
  data : Nat → UInt8
  ops : Option OpsTable
  backing : Option Nat

def FsNode.body (n : FsNode) : Body where
  type := n.type
  permissions := n.permissions
  uid := n.uid
  gid := n.gid
  size := n.size
  capacity := n.capacity
  data := n.data
  ops := n.ops
  backing := n.backing

abbrev Bodies := NodeId → Option Body

def bodies (s : FsState) : Bodies := fun id => (s.nodes id).map FsNode.body

/-- The attributes that no call on an open file changes. -/
def Body.SameOwner (a b : Body) : Prop :=
  a.type = b.type ∧ a.permissions = b.permissions ∧ a.uid = b.uid ∧ a.gid = b.gid

theorem Body.SameOwner.refl (b : Body) : b.SameOwner b := ⟨rfl, rfl, rfl, rfl⟩

/-- Inode numbers are handed out once. -/
def Fresh (s : FsState) : Prop := ∀ c n, s.nodes c = some n → c < s.nextInode

section Bodies
variable {s t : FsState} {id : NodeId}

theorem bodies_live {n : FsNode} (live : s.nodes id = some n) : bodies s id = some n.body := by
  simp [bodies, live]

theorem live_of_body {b : Body} (live : bodies s id = some b) : ∃ n, s.nodes id = some n ∧ n.body = b :=
  Option.map_eq_some_iff.mp live

theorem bodies_nodes (same : t.nodes = s.nodes) : bodies t = bodies s := by
  funext c
  simp only [bodies, same]

theorem bodies_touch {f : FsNode → FsNode} (keep : ∀ n, (f n).body = n.body) : bodies (setNode s id f) = bodies s := by
  funext c
  by_cases same : c = id
  · subst c
    cases live : s.nodes id with
    | none => simp [bodies, setNode, live]
    | some n => simp [bodies, setNode, live, keep]
  · simp [bodies, setNode, same]

theorem bodies_putNode {n m : FsNode} (live : s.nodes id = some n) :
    bodies (putNode s id m) = Function.update (bodies s) id (some m.body) := by
  funext c
  by_cases same : c = id
  · subst c
    simp [bodies, putNode, setNode, live]
  · simp [bodies, putNode, setNode, same]

theorem Fresh.of_bodies (fresh : Fresh s) (same : bodies t = bodies s) (inode : t.nextInode = s.nextInode) : Fresh t := by
  intro c n live
  obtain ⟨m, before, -⟩ := live_of_body (same ▸ bodies_live live : bodies s c = some n.body)
  rw [inode]
  exact fresh c m before

theorem Fresh.of_update {b : Body} (fresh : Fresh s) (same : bodies t = Function.update (bodies s) id (some b))
    (before : id < t.nextInode) (inode : s.nextInode ≤ t.nextInode) : Fresh t := by
  intro c n live
  by_cases here : c = id
  · rw [here]
    exact before
  · have old : bodies s c = some n.body := by
      have after := bodies_live live
      rwa [same, Function.update_of_ne here] at after
    obtain ⟨m, there, -⟩ := live_of_body old
    exact Nat.lt_of_lt_of_le (fresh c m there) inode

end Bodies

section Create
variable {env : Env} {s t : FsState}

theorem nodeLink_bodies {d c : NodeId} (run : nodeLink s d c = some t) :
    bodies t = bodies s ∧ t.root = s.root ∧ t.nextInode = s.nextInode ∧ t.files = s.files ∧ t.nextFile = s.nextFile := by
  let moved := setNode s c fun n => { n with parent := some d }
  have first : bodies moved = bodies s := bodies_touch (fun n => rfl)
  obtain ⟨dir, -, rest⟩ := Option.bind_eq_some_iff.mp run
  cases children : dir.children with
  | none =>
    simp only [children] at rest
    obtain rfl := Option.some.inj rest
    refine ⟨?_, rfl, rfl, rfl, rfl⟩
    refine (bodies_touch ?_).trans first
    exact fun n => rfl
  | some entry =>
    simp only [children] at rest
    obtain ⟨last, -, rest⟩ := Option.bind_eq_some_iff.mp rest
    obtain rfl := Option.some.inj rest
    refine ⟨?_, rfl, rfl, rfl, rfl⟩
    refine (bodies_touch ?_).trans first
    exact fun n => rfl

theorem fsCreate_bodies {path : Bytes} {type : NodeType} {perms : Nat} {got : Option NodeId}
    (run : fsCreate env s path type perms = some (got, t)) :
    t.root = s.root ∧ t.files = s.files ∧ t.nextFile = s.nextFile ∧
      (got = none ∧ t = s ∨
        got = some s.nextInode ∧ t.nextInode = s.nextInode + 1 ∧
          bodies t = Function.update (bodies s) s.nextInode (some (owned env (freshNode env [] type perms)).body)) := by
  obtain ⟨⟨dir, name⟩, -, rest⟩ := Option.bind_eq_some_iff.mp run
  cases dir with
  | none =>
    cases Option.some.inj rest
    exact ⟨rfl, rfl, rfl, Or.inl ⟨rfl, rfl⟩⟩
  | some d =>
    obtain ⟨nd, -, rest⟩ := Option.bind_eq_some_iff.mp rest
    split at rest
    · cases Option.some.inj rest
      exact ⟨rfl, rfl, rfl, Or.inl ⟨rfl, rfl⟩⟩
    obtain ⟨found, -, rest⟩ := Option.bind_eq_some_iff.mp rest
    split at rest
    · cases Option.some.inj rest
      exact ⟨rfl, rfl, rfl, Or.inl ⟨rfl, rfl⟩⟩
    cases memory : env.nodeAlloc with
    | false =>
      simp only [nodeAlloc, memory] at rest
      cases Option.some.inj rest
      exact ⟨rfl, rfl, rfl, Or.inl ⟨rfl, rfl⟩⟩
    | true =>
      simp only [nodeAlloc, memory, if_true] at rest
      obtain ⟨linked, link, rest⟩ := Option.bind_eq_some_iff.mp rest
      obtain ⟨same, rootKept, inodeKept, filesKept, nextKept⟩ := nodeLink_bodies link
      cases Option.some.inj rest
      refine ⟨rootKept, filesKept, nextKept, Or.inr ⟨rfl, inodeKept, ?_⟩⟩
      rw [bodies_touch, same]
      · funext c
        by_cases here : c = s.nextInode
        · subst c
          cases task : env.task with
          | none => simp [bodies, setNode, owned, task, FsNode.body, freshNode]
          | some cred => simp [bodies, setNode, owned, task, FsNode.body, freshNode]
        · simp [bodies, setNode, here]
      · exact fun n => rfl

end Create

section Open
variable {env : Env} {s t : FsState} {flags : Nat}

/-- The body fs_create gives to a file opened with O_CREATE. -/
def newBody (env : Env) : Body := (owned env (freshNode env [] .file 0o644)).body

theorem openTarget_cases {path : Bytes} {got : Option NodeId} (run : openTarget env s path flags = some (got, t)) :
    (t = s ∧ (got = none ∨
      ∃ id, got = some id ∧ fsLookup s path = some (some id) ∧ (has flags oExcl && has flags oCreate) = false)) ∨
    (got = some s.nextInode ∧ fsLookup s path = some none ∧ fsCreate env s path .file 0o644 = some (got, t) ∧
      t.root = s.root ∧ t.files = s.files ∧ t.nextFile = s.nextFile ∧ t.nextInode = s.nextInode + 1 ∧
      bodies t = Function.update (bodies s) s.nextInode (some (newBody env))) := by
  obtain ⟨found, search, rest⟩ := Option.bind_eq_some_iff.mp run
  cases found with
  | none =>
    simp only at rest
    split at rest
    · obtain ⟨rootKept, filesKept, nextKept, ⟨rfl, rfl⟩ | ⟨rfl, inode, same⟩⟩ := fsCreate_bodies rest
      · exact Or.inl ⟨rfl, Or.inl rfl⟩
      · exact Or.inr ⟨rfl, search, rest, rootKept, filesKept, nextKept, inode, same⟩
    · cases Option.some.inj rest
      exact Or.inl ⟨rfl, Or.inl rfl⟩
  | some id =>
    simp only at rest
    split at rest
    · cases Option.some.inj rest
      exact Or.inl ⟨rfl, Or.inl rfl⟩
    · rename_i allowed
      cases Option.some.inj rest
      exact Or.inl ⟨rfl, Or.inr ⟨id, rfl, search, Bool.eq_false_iff.mpr allowed⟩⟩

/-- The checks of fs_open passed for this node. -/
structure Admitted (env : Env) (n : FsNode) (flags : Nat) : Prop where
  dirOnly : has flags oDir = true → n.type = .dir
  noDirWrite : n.type = .dir → has flags oWronly = false
  access : fsCanAccess env n flags = true

theorem truncated_shape (flags : Nat) (n : FsNode) : (truncated flags n).shape = n.shape := by
  rw [truncated]
  split
  · rfl
  · rfl

/-- The node id was opened: its body may have lost its bytes, and a handle was
added unless there was no memory for one. -/
structure Opened (env : Env) (s : FsState) (id : NodeId) (n : FsNode) (flags : Nat) (got : Option FileId) (t : FsState) :
    Prop where
  root : t.root = s.root
  inode : t.nextInode = s.nextInode
  shape : shapes t = shapes s
  table : bodies t = Function.update (bodies s) id (some (truncated flags n).body)
  handle : (env.fileAlloc = false ∧ got = none ∧ t.files = s.files ∧ t.nextFile = s.nextFile) ∨
    (got = some s.nextFile ∧ t.nextFile = s.nextFile + 1 ∧ t.files = Function.update s.files s.nextFile (some
      { node := id, offset := if has flags oAppend then (truncated flags n).size else 0, flags := flags, refs := 1 }))

theorem openNode_cases {id : NodeId} {got : Option FileId} (run : openNode env s id flags = some (got, t)) :
    ∃ n, s.nodes id = some n ∧ ((got = none ∧ t = s) ∨ (Admitted env n flags ∧ Opened env s id n flags got t)) := by
  obtain ⟨n, live, rest⟩ := Option.bind_eq_some_iff.mp run
  refine ⟨n, live, ?_⟩
  split at rest
  · cases Option.some.inj rest
    exact Or.inl ⟨rfl, rfl⟩
  rename_i dirOnly
  split at rest
  · cases Option.some.inj rest
    exact Or.inl ⟨rfl, rfl⟩
  rename_i noDirWrite
  split at rest
  · cases Option.some.inj rest
    exact Or.inl ⟨rfl, rfl⟩
  rename_i access
  have admitted : Admitted env n flags := by
    constructor
    · intro asked
      by_contra other
      exact dirOnly (by simp [asked, other])
    · intro dir
      by_contra asked
      exact noDirWrite (by simp [dir, asked])
    · simpa using access
  have shape : shapes (putNode s id (truncated flags n)) = shapes s := shapes_putNode live (truncated_shape flags n)
  right
  split at rest
  · rename_i memory
    cases Option.some.inj rest
    exact ⟨admitted, rfl, rfl, shape, bodies_putNode live, Or.inl ⟨by simpa using memory, rfl, rfl, rfl⟩⟩
  · cases Option.some.inj rest
    refine ⟨admitted, rfl, rfl, ?_, ?_, Or.inr ⟨rfl, rfl, rfl⟩⟩
    · refine Eq.trans ?_ shape
      exact shapes_touch (s := putNode s id (truncated flags n)) (fun m => rfl)
    · refine Eq.trans ?_ (bodies_putNode live)
      exact bodies_touch (s := putNode s id (truncated flags n)) (fun m => rfl)

/-- A new file of the current task with no other change. -/
structure Created (env : Env) (s t : FsState) : Prop where
  root : t.root = s.root
  inode : t.nextInode = s.nextInode + 1
  files : t.files = s.files
  nextFile : t.nextFile = s.nextFile
  table : bodies t = Function.update (bodies s) s.nextInode (some (newBody env))

theorem Created.fresh (created : Created env s t) (fresh : Fresh s) : Fresh t := by
  refine fresh.of_update created.table ?_ ?_
  · rw [created.inode]
    exact Nat.lt_succ_self _
  · rw [created.inode]
    exact Nat.le_succ _

theorem Opened.fresh {id : NodeId} {n : FsNode} {got : Option FileId} (opened : Opened env s id n flags got t)
    (live : s.nodes id = some n) (fresh : Fresh s) : Fresh t := by
  refine fresh.of_update opened.table ?_ (Nat.le_of_eq opened.inode.symm)
  rw [opened.inode]
  exact fresh id n live

theorem fsOpen_cases {path : Bytes} {got : Option FileId} (run : fsOpen env s path flags = some (got, t)) :
    (got = none ∧ t = s) ∨
    (∃ id n, fsLookup s path = some (some id) ∧ (has flags oExcl && has flags oCreate) = false ∧
      s.nodes id = some n ∧ Admitted env n flags ∧ Opened env s id n flags got t) ∨
    (∃ s₁ n, fsLookup s path = some none ∧ fsCreate env s path .file 0o644 = some (some s.nextInode, s₁) ∧
      Created env s s₁ ∧ s₁.nodes s.nextInode = some n ∧ n.body = newBody env ∧
      ((got = none ∧ t = s₁) ∨ (Admitted env n flags ∧ Opened env s₁ s.nextInode n flags got t))) := by
  obtain ⟨⟨target, s₁⟩, aim, rest⟩ := Option.bind_eq_some_iff.mp run
  rcases openTarget_cases aim with
    ⟨rfl, rfl | ⟨id, rfl, search, plain⟩⟩ | ⟨rfl, search, create, root, files, nextFile, inode, table⟩
  · cases Option.some.inj rest
    exact Or.inl ⟨rfl, rfl⟩
  · obtain ⟨n, live, ⟨rfl, rfl⟩ | ⟨admitted, opened⟩⟩ := openNode_cases rest
    · exact Or.inl ⟨rfl, rfl⟩
    · exact Or.inr (Or.inl ⟨id, n, search, plain, live, admitted, opened⟩)
  · obtain ⟨n, live, result⟩ := openNode_cases rest
    have body : n.body = newBody env := by
      have here := bodies_live live
      rw [table, Function.update_self] at here
      exact (Option.some.inj here).symm
    exact Or.inr (Or.inr ⟨s₁, n, search, create, ⟨root, inode, files, nextFile, table⟩, live, body, result⟩)

theorem fsOpen_fresh {path : Bytes} {got : Option FileId} (run : fsOpen env s path flags = some (got, t))
    (fresh : Fresh s) : Fresh t := by
  rcases fsOpen_cases run with ⟨-, rfl⟩ | ⟨id, n, -, -, live, -, opened⟩ |
    ⟨s₁, n, -, -, created, live, -, ⟨-, rfl⟩ | ⟨-, opened⟩⟩
  · exact fresh
  · exact opened.fresh live fresh
  · exact created.fresh fresh
  · exact opened.fresh live (created.fresh fresh)

/-- The handle fs_open returns; its node passed the access check, if it was there before. -/
theorem fsOpen_handle {path : Bytes} {got : Option FileId} (run : fsOpen env s path flags = some (got, t))
    (fresh : Fresh s) :
    (got = none ∧ t.files = s.files ∧ t.nextFile = s.nextFile) ∨
    (∃ f, got = some s.nextFile ∧ t.nextFile = s.nextFile + 1 ∧ t.files = Function.update s.files s.nextFile (some f) ∧
      f.flags = flags ∧ ∀ n, s.nodes f.node = some n → fsCanAccess env n flags = true) := by
  rcases fsOpen_cases run with ⟨rfl, rfl⟩ | ⟨id, n, -, -, live, admitted, opened⟩ |
    ⟨s₁, n, -, -, created, live, -, ⟨rfl, rfl⟩ | ⟨-, opened⟩⟩
  · exact Or.inl ⟨rfl, rfl, rfl⟩
  · rcases opened.handle with ⟨-, rfl, files, next⟩ | ⟨rfl, next, files⟩
    · exact Or.inl ⟨rfl, files, next⟩
    · refine Or.inr ⟨_, rfl, next, files, rfl, ?_⟩
      intro m here
      cases Option.some.inj (live.symm.trans here)
      exact admitted.access
  · exact Or.inl ⟨rfl, created.files, created.nextFile⟩
  · rcases opened.handle with ⟨-, rfl, files, next⟩ | ⟨rfl, next, files⟩
    · exact Or.inl ⟨rfl, files.trans created.files, next.trans created.nextFile⟩
    · rw [created.nextFile, created.files] at files
      refine Or.inr ⟨_, by rw [created.nextFile], by rw [next, created.nextFile], files, rfl, ?_⟩
      intro m here
      exact absurd (fresh _ m here) (Nat.lt_irrefl _)

end Open

section Handles
variable {env : Env} {s t : FsState} {h : FileId}

theorem ensureCapacity_body {node node' : FsNode} {needed : Nat} {code : Int}
    (run : ensureCapacity env node needed = some (code, node')) :
    node'.type = node.type ∧ node'.permissions = node.permissions ∧ node'.uid = node.uid ∧ node'.gid = node.gid ∧
      node'.size = node.size ∧ node'.ops = node.ops := by
  unfold ensureCapacity at run
  split at run
  · cases Option.some.inj run
    exact ⟨rfl, rfl, rfl, rfl, rfl, rfl⟩
  obtain ⟨capacity, -, rest⟩ := Option.bind_eq_some_iff.mp run
  split at rest
  · cases Option.some.inj rest
    exact ⟨rfl, rfl, rfl, rfl, rfl, rfl⟩
  · cases Option.some.inj rest
    exact ⟨rfl, rfl, rfl, rfl, rfl, rfl⟩

theorem files_setFile {f : File} {change : File → File} (handle : s.files h = some f) :
    (setFile s h change).files = Function.update s.files h (some (change f)) := by
  simp [setFile, handle]

theorem files_same {f : File} (handle : s.files h = some f) :
    ∃ offset, s.files = Function.update s.files h (some { f with offset := offset }) := by
  refine ⟨f.offset, ?_⟩
  rw [← handle]
  exact (Function.update_eq_self h s.files).symm

theorem moved_handle {f g : File} {offset : Nat} {k : FileId} (handle : s.files h = some f)
    (files : t.files = Function.update s.files h (some { f with offset := offset })) (here : s.files k = some g) :
    ∃ g', t.files k = some g' ∧ g'.node = g.node ∧ g'.flags = g.flags := by
  by_cases same : k = h
  · subst k
    cases Option.some.inj (handle.symm.trans here)
    exact ⟨{ f with offset := offset }, by rw [files, Function.update_self], rfl, rfl⟩
  · exact ⟨g, by rw [files, Function.update_of_ne same]; exact here, rfl, rfl⟩

/-- fs_write moves the offset of its handle and changes at most the body of the
node behind it, and that only where the handle passed the flag test. -/
theorem fsWrite_cases {buf : Bytes} {code : Int} (run : fsWrite env s h buf = some (code, t)) :
    ∃ f, s.files h = some f ∧ t.root = s.root ∧ t.nextInode = s.nextInode ∧ t.nextFile = s.nextFile ∧
      (∃ offset, t.files = Function.update s.files h (some { f with offset := offset })) ∧
      (bodies t = bodies s ∨ ∃ n b, s.nodes f.node = some n ∧ has f.flags (oWronly ||| oRdwr) = true ∧
        opsWrites n.ops = false ∧ n.type ≠ .dir ∧ b.SameOwner n.body ∧
        bodies t = Function.update (bodies s) f.node (some b)) := by
  obtain ⟨f, handle, rest⟩ := Option.bind_eq_some_iff.mp run
  refine ⟨f, handle, ?_⟩
  split at rest
  · cases Option.some.inj rest
    exact ⟨rfl, rfl, rfl, files_same handle, Or.inl rfl⟩
  rename_i allowed
  obtain ⟨n, live, rest⟩ := Option.bind_eq_some_iff.mp rest
  split at rest
  · cases Option.some.inj rest
    refine ⟨?_, ?_, ?_, ?_, Or.inl ?_⟩
    all_goals split
    all_goals first
      | rfl
      | exact files_same handle
      | exact ⟨_, files_setFile handle⟩
  rename_i memory
  split at rest
  · cases Option.some.inj rest
    exact ⟨rfl, rfl, rfl, files_same handle, Or.inl rfl⟩
  rename_i notDir
  simp only at rest
  generalize (if has f.flags oAppend = true then n.size else f.offset) = offset at rest
  obtain ⟨⟨error, node⟩, grow, rest⟩ := Option.bind_eq_some_iff.mp rest
  simp only at rest
  split at rest
  · cases Option.some.inj rest
    exact ⟨rfl, rfl, rfl, ⟨_, files_setFile handle⟩, Or.inl rfl⟩
  split at rest
  · contradiction
  cases Option.some.inj rest
  obtain ⟨type, permissions, uid, gid, -⟩ := ensureCapacity_body grow
  refine ⟨rfl, rfl, rfl, ⟨offset + buf.length, ?_⟩, Or.inr ⟨n, _, live, by simpa using allowed,
    by simpa using memory, notDir, ⟨type, permissions, uid, gid⟩, bodies_putNode live⟩⟩
  simp [putNode, setNode, setFile, handle]

theorem refresh_owner {id : NodeId} {n m : FsNode} (run : refresh env id n = some m) : m.body.SameOwner n.body := by
  unfold refresh at run
  split at run
  · cases Option.some.inj run
    exact ⟨rfl, rfl, rfl, rfl⟩
  · split at run
    · cases Option.some.inj run
      exact .refl _
    split at run
    · cases Option.some.inj run
      exact .refl _
    simp only at run
    split at run
    · split at run
      · contradiction
      cases Option.some.inj run
      exact ⟨rfl, rfl, rfl, rfl⟩
    · split at run
      · contradiction
      cases Option.some.inj run
      exact ⟨rfl, rfl, rfl, rfl⟩
  · cases Option.some.inj run
    exact .refl _

theorem fsRead_refreshed {len : Nat} {code : Int} {bytes : Bytes} (run : fsRead env s h len = some (code, bytes, t)) :
    ∃ f, s.files h = some f ∧ t.root = s.root ∧ t.nextInode = s.nextInode ∧ t.nextFile = s.nextFile ∧
      (∃ offset, t.files = Function.update s.files h (some { f with offset := offset })) ∧
      (bodies t = bodies s ∨ ∃ n m, s.nodes f.node = some n ∧ refresh env f.node n = some m ∧
        bodies t = Function.update (bodies s) f.node (some m.body)) := by
  obtain ⟨f, handle, rest⟩ := Option.bind_eq_some_iff.mp run
  refine ⟨f, handle, ?_⟩
  split at rest
  · cases Option.some.inj rest
    exact ⟨rfl, rfl, rfl, files_same handle, Or.inl rfl⟩
  obtain ⟨n, live, rest⟩ := Option.bind_eq_some_iff.mp rest
  obtain ⟨m, renewed, rest⟩ := Option.bind_eq_some_iff.mp rest
  simp only at rest
  have put := bodies_putNode (m := m) live
  have handle' : (putNode s f.node m).files h = some f := handle
  split at rest
  · obtain ⟨got, -, rest⟩ := Option.bind_eq_some_iff.mp rest
    cases Option.some.inj rest
    split
    · exact ⟨rfl, rfl, rfl, ⟨_, files_setFile handle'⟩, Or.inr ⟨n, m, live, renewed, put⟩⟩
    · exact ⟨rfl, rfl, rfl, files_same handle', Or.inr ⟨n, m, live, renewed, put⟩⟩
  split at rest
  · cases Option.some.inj rest
    exact ⟨rfl, rfl, rfl, files_same handle', Or.inr ⟨n, m, live, renewed, put⟩⟩
  obtain ⟨got, -, rest⟩ := Option.bind_eq_some_iff.mp rest
  split at rest
  · cases Option.some.inj rest
    exact ⟨rfl, rfl, rfl, files_same handle', Or.inr ⟨n, m, live, renewed, put⟩⟩
  cases Option.some.inj rest
  refine ⟨rfl, rfl, rfl, ⟨_, files_setFile handle'⟩, Or.inr ⟨n, m, live, renewed, ?_⟩⟩
  refine (bodies_touch ?_).trans put
  exact fun k => rfl

theorem fsRead_cases {len : Nat} {code : Int} {bytes : Bytes} (run : fsRead env s h len = some (code, bytes, t)) :
    ∃ f, s.files h = some f ∧ t.root = s.root ∧ t.nextInode = s.nextInode ∧ t.nextFile = s.nextFile ∧
      (∃ offset, t.files = Function.update s.files h (some { f with offset := offset })) ∧
      (bodies t = bodies s ∨ ∃ n b, s.nodes f.node = some n ∧ b.SameOwner n.body ∧
        bodies t = Function.update (bodies s) f.node (some b)) := by
  obtain ⟨f, handle, root, inode, next, files, same | ⟨n, m, live, renewed, table⟩⟩ := fsRead_refreshed run
  · exact ⟨f, handle, root, inode, next, files, Or.inl same⟩
  · exact ⟨f, handle, root, inode, next, files, Or.inr ⟨n, m.body, live, refresh_owner renewed, table⟩⟩

theorem fsSeek_cases {offset code : Int} {origin : Origin} (run : fsSeek s h offset origin = some (code, t)) :
    ∃ f, s.files h = some f ∧ t.nodes = s.nodes ∧ t.root = s.root ∧ t.nextInode = s.nextInode ∧
      t.nextFile = s.nextFile ∧ ∃ at', t.files = Function.update s.files h (some { f with offset := at' }) := by
  obtain ⟨f, handle, rest⟩ := Option.bind_eq_some_iff.mp run
  obtain ⟨n, -, rest⟩ := Option.bind_eq_some_iff.mp rest
  have moved {target : Int} (move : (if target < 0 then (-qeInval, s)
      else (target, setFile s h fun f => { f with offset := target.toNat })) = (code, t)) :
      t.nodes = s.nodes ∧ t.root = s.root ∧ t.nextInode = s.nextInode ∧ t.nextFile = s.nextFile ∧
        ∃ at', t.files = Function.update s.files h (some { f with offset := at' }) := by
    split at move
    · obtain ⟨-, rfl⟩ := Prod.mk.inj move
      exact ⟨rfl, rfl, rfl, rfl, files_same handle⟩
    · obtain ⟨-, rfl⟩ := Prod.mk.inj move
      exact ⟨rfl, rfl, rfl, rfl, _, files_setFile handle⟩
  refine ⟨f, handle, ?_⟩
  cases origin with
  | set => exact moved (Option.some.inj rest)
  | cur => exact moved (Option.some.inj rest)
  | fromEnd => exact moved (Option.some.inj rest)
  | other =>
    cases Option.some.inj rest
    exact ⟨rfl, rfl, rfl, rfl, files_same handle⟩

theorem fsClose_cases (run : fsClose s h = some t) :
    bodies t = bodies s ∧ t.root = s.root ∧ t.nextInode = s.nextInode ∧ t.nextFile = s.nextFile ∧
      ∀ k, k ≠ h → t.files k = s.files k := by
  obtain ⟨f, handle, rest⟩ := Option.bind_eq_some_iff.mp run
  simp only at rest
  split at rest
  · cases Option.some.inj rest
    exact ⟨rfl, rfl, rfl, rfl, fun k other => by simp [setFile, other]⟩
  · obtain ⟨n, -, rest⟩ := Option.bind_eq_some_iff.mp rest
    cases Option.some.inj rest
    refine ⟨?_, rfl, rfl, rfl, fun k other => by simp [setNode, other]⟩
    exact bodies_touch (s := s) (fun n => rfl)

end Handles

end Qito.Vfs
