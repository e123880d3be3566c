import Qito.Heap.Runs
import Qito.Vfs.Access

/-! The counts of open handles. No call but fs_open and fs_close changes one, and
fs_unlink frees a single node, one that its own count says is not open. -/
namespace Qito.Vfs
open Runs Words

/-- Only directories have entries. -/
def FsNode.Leaf (n : FsNode) : Prop := n.type ≠ .dir → n.children = none

/-- The names and places of nodes changed at most: no handle was touched, no node
was freed, and new nodes are not open. -/
structure Undisturbed (s t : FsState) : Prop where
  files : t.files = s.files
  nextFile : t.nextFile = s.nextFile
  count : t.openFileCount = s.openFileCount
  inode : s.nextInode ≤ t.nextInode
  stays : ∀ id n, s.nodes id = some n →
    ∃ m, t.nodes id = some m ∧ m.type = n.type ∧ m.openCount = n.openCount ∧ (n.Leaf → m.Leaf)
  nodes : ∀ id m, t.nodes id = some m →
    (∃ n, s.nodes id = some n) ∨ (s.nextInode ≤ id ∧ id < t.nextInode ∧ m.openCount = 0 ∧ m.Leaf)

section Names
variable {env : Env} {s t u : FsState}

theorem Undisturbed.refl (s : FsState) : Undisturbed s s where
  files := rfl
  nextFile := rfl
  count := rfl
  inode := Nat.le_refl _
  stays _ n live := ⟨n, live, rfl, rfl, fun leaf => leaf⟩
  nodes _ m live := Or.inl ⟨m, live⟩

theorem Undisturbed.trans (first : Undisturbed s t) (second : Undisturbed t u) : Undisturbed s u where
  files := second.files.trans first.files
  nextFile := second.nextFile.trans first.nextFile
  count := second.count.trans first.count
  inode := Nat.le_trans first.inode second.inode
  stays id n live := by
    obtain ⟨m, here, type, count, leaf⟩ := first.stays id n live
    obtain ⟨k, there, type', count', leaf'⟩ := second.stays id m here
    exact ⟨k, there, type'.trans type, count'.trans count, fun before => leaf' (leaf before)⟩
  nodes id k live := by
    rcases second.nodes id k live with ⟨m, here⟩ | ⟨new, below, closed, leaf⟩
    · rcases first.nodes id m here with old | ⟨new, below, closed, leaf⟩
      · exact Or.inl old
      · obtain ⟨k', there, -, count, leaf'⟩ := second.stays id m here
        cases Option.some.inj (there.symm.trans live)
        exact Or.inr ⟨new, Nat.lt_of_lt_of_le below second.inode, count.trans closed, leaf' leaf⟩
    · exact Or.inr ⟨Nat.le_trans first.inode new, below, closed, leaf⟩

theorem Undisturbed.fresh (calm : Undisturbed s t) (fresh : Fresh s) : Fresh t := by
  intro id m live
  rcases calm.nodes id m live with ⟨n, here⟩ | ⟨-, below, -⟩
  · exact Nat.lt_of_lt_of_le (fresh id n here) calm.inode
  · exact below

theorem setNode_undisturbed {id : NodeId} {f : FsNode → FsNode}
    (keep : ∀ n, s.nodes id = some n → (f n).type = n.type ∧ (f n).openCount = n.openCount ∧ (n.Leaf → (f n).Leaf)) :
    Undisturbed s (setNode s id f) where
  files := rfl
  nextFile := rfl
  count := rfl
  inode := Nat.le_refl _
  stays c n live := by
    by_cases same : c = id
    · subst c
      exact ⟨f n, by simp [setNode, live], keep n live⟩
    · exact ⟨n, by simp [setNode, same, live], rfl, rfl, fun leaf => leaf⟩
  nodes c m live := by
    by_cases same : c = id
    · subst c
      have changed : (s.nodes id).map f = some m := by simpa [setNode] using live
      obtain ⟨n, here, -⟩ := Option.map_eq_some_iff.mp changed
      exact Or.inl ⟨n, here⟩
    · exact Or.inl ⟨m, by simpa [setNode, same] using live⟩

theorem nodeAlloc_undisturbed (fresh : Fresh s) {name : Bytes} {type : NodeType} {perms : Nat} :
    Undisturbed s (nodeAlloc env s name type perms).2 := by
  unfold nodeAlloc
  split
  · constructor
    · rfl
    · rfl
    · rfl
    · exact Nat.le_succ _
    · intro id n live
      have older : id ≠ s.nextInode := Nat.ne_of_lt (fresh id n live)
      exact ⟨n, (Function.update_of_ne older _ _).trans live, rfl, rfl, fun leaf => leaf⟩
    · intro id m live
      by_cases same : id = s.nextInode
      · subst id
        cases (Function.update_self s.nextInode _ s.nodes).symm.trans live
        exact Or.inr ⟨Nat.le_refl _, Nat.lt_succ_self _, rfl, fun _ => rfl⟩
      · exact Or.inl ⟨m, (Function.update_of_ne same _ _).symm.trans live⟩
  · exact Undisturbed.refl s

theorem nodeLink_undisturbed {d c : NodeId} {nd : FsNode} (target : s.nodes d = some nd) (dir : nd.type = .dir)
    (run : nodeLink s d c = some t) : Undisturbed s t := by
  let moved := setNode s c fun n => { n with parent := some d }
  have first : Undisturbed s moved := setNode_undisturbed fun n _ => ⟨rfl, rfl, fun leaf => leaf⟩
  obtain ⟨md, still, type, -⟩ := first.stays d nd target
  obtain ⟨holder, here, rest⟩ := Option.bind_eq_some_iff.mp run
  cases children : holder.children with
  | none =>
    simp only [children] at rest
    obtain rfl := Option.some.inj rest
    refine first.trans (setNode_undisturbed fun m live => ⟨rfl, rfl, fun _ other => absurd ?_ other⟩)
    cases Option.some.inj (still.symm.trans live)
    exact type.trans dir
  | some entry =>
    simp only [children] at rest
    obtain ⟨last, -, rest⟩ := Option.bind_eq_some_iff.mp rest
    obtain rfl := Option.some.inj rest
    exact first.trans (setNode_undisturbed fun m _ => ⟨rfl, rfl, fun leaf => leaf⟩)

theorem unlinkSibling_undisturbed {fuel : Nat} {id : NodeId} {link head : Option NodeId}
    (run : unlinkSibling fuel s id link head = some t) :
    Undisturbed s t ∧ ∀ c n, s.nodes c = some n → ∃ m, t.nodes c = some m ∧ m.children = n.children := by
  induction fuel generalizing head with
  | zero => cases run
  | succ fuel ih =>
    cases head with
    | none =>
      cases Option.some.inj run
      exact ⟨Undisturbed.refl s, fun c n live => ⟨n, live, rfl⟩⟩
    | some iter =>
      obtain ⟨entry, here, rest⟩ := Option.bind_eq_some_iff.mp run
      split at rest
      · cases Option.some.inj rest
        refine ⟨setNode_undisturbed fun m _ => ⟨rfl, rfl, fun leaf => leaf⟩, fun c n live => ?_⟩
        by_cases same : c = iter
        · subst c
          exact ⟨{ n with sibling := link }, by simp [setNode, live], rfl⟩
        · exact ⟨n, by simp [setNode, same, live], rfl⟩
      · exact ih rest

theorem nodeUnlink_undisturbed {id : NodeId} (run : nodeUnlink s id = some t) :
    Undisturbed s t ∧
      ∀ c n, s.nodes c = some n → n.children = none → ∃ m, t.nodes c = some m ∧ m.children = none := by
  obtain ⟨n, live, rest⟩ := Option.bind_eq_some_iff.mp run
  cases place : n.parent with
  | none =>
    simp only [place] at rest
    cases Option.some.inj rest
    exact ⟨Undisturbed.refl s, fun c m here empty => ⟨m, here, empty⟩⟩
  | some d =>
    simp only [place] at rest
    obtain ⟨dir, holder, rest⟩ := Option.bind_eq_some_iff.mp rest
    split at rest
    · rename_i head
      cases Option.some.inj rest
      refine ⟨setNode_undisturbed fun m here => ⟨rfl, rfl, fun leaf other => ?_⟩, fun c m here empty => ?_⟩
      · cases Option.some.inj (holder.symm.trans here)
        exact absurd ((leaf other).symm.trans head) (by simp)
      · by_cases same : c = d
        · subst c
          cases Option.some.inj (holder.symm.trans here)
          exact absurd (empty.symm.trans head) (by simp)
        · exact ⟨m, by simp [setNode, same, here], empty⟩
    · obtain ⟨calm, kept⟩ := unlinkSibling_undisturbed rest
      refine ⟨calm, fun c m here empty => ?_⟩
      obtain ⟨k, there, same⟩ := kept c m here
      exact ⟨k, there, same.trans empty⟩

theorem owned_same (env : Env) (n : FsNode) : 
    (owned env n).type = n.type ∧ (owned env n).openCount = n.openCount ∧ (n.Leaf → (owned env n).Leaf) := by
  unfold owned
  split
  · exact ⟨rfl, rfl, fun leaf => leaf⟩
  · exact ⟨rfl, rfl, fun leaf => leaf⟩

theorem fsCreate_undisturbed {path : Bytes} {type : NodeType} {perms : Nat} {got : Option NodeId} (fresh : Fresh s)
    (run : fsCreate env s path type perms = some (got, t)) : Undisturbed s t := by
  obtain ⟨⟨dir, name⟩, -, rest⟩ := Option.bind_eq_some_iff.mp run
  cases dir with
  | none =>
    cases Option.some.inj rest
    exact Undisturbed.refl s
  | some d =>
    obtain ⟨nd, target, rest⟩ := Option.bind_eq_some_iff.mp rest
    split at rest
    · cases Option.some.inj rest
      exact Undisturbed.refl s
    rename_i admitted
    obtain ⟨found, -, rest⟩ := Option.bind_eq_some_iff.mp rest
    split at rest
    · cases Option.some.inj rest
      exact Undisturbed.refl s
    have dir : nd.type = .dir := by
      by_contra other
      exact admitted (Or.inl other)
    have grows : Undisturbed s (nodeAlloc env s name type perms).2 := nodeAlloc_undisturbed fresh
    cases memory : env.nodeAlloc with
    | false =>
      simp only [nodeAlloc, memory] at rest
      cases Option.some.inj rest
      exact Undisturbed.refl s
    | true =>
      have made := nodeAlloc_grown (s := s) name type perms memory
      rw [made] at rest grows
      obtain ⟨linked, link, rest⟩ := Option.bind_eq_some_iff.mp rest
      cases Option.some.inj rest
      have older : d ≠ s.nextInode := Nat.ne_of_lt (fresh d nd target)
      have there : (setNode (grown env s name type perms) s.nextInode (owned env)).nodes d = some nd := by
        simp [setNode, grown, older, target]
      have given : Undisturbed (grown env s name type perms)
          (setNode (grown env s name type perms) s.nextInode (owned env)) :=
        setNode_undisturbed fun n _ => owned_same env n
      have linked' := nodeLink_undisturbed there dir link
      have stamped : Undisturbed linked (setNode linked d fun n => { n with modified := env.now }) :=
        setNode_undisturbed fun n _ => ⟨rfl, rfl, fun leaf => leaf⟩
      exact ((grows.trans given).trans linked').trans stamped

theorem fsMkdir_undisturbed {path : Bytes} {perms : Nat} {code : Int} (fresh : Fresh s)
    (run : fsMkdir env s path perms = some (code, t)) : Undisturbed s t := by
  obtain ⟨found, -, rest⟩ := Option.bind_eq_some_iff.mp run
  split at rest
  · cases Option.some.inj rest
    exact Undisturbed.refl s
  · obtain ⟨⟨got, made⟩, create, rest⟩ := Option.bind_eq_some_iff.mp rest
    have calm := fsCreate_undisturbed fresh create
    cases got with
    | none =>
      cases Option.some.inj rest
      exact calm
    | some id =>
      cases Option.some.inj rest
      exact calm

theorem fsRename_undisturbed {src dst : Bytes} {code : Int} (run : fsRename env s src dst = some (code, t)) :
    Undisturbed s t := by
  obtain ⟨found, -, rest⟩ := Option.bind_eq_some_iff.mp run
  cases found with
  | none =>
    cases Option.some.inj rest
    exact Undisturbed.refl s
  | some id =>
    simp only at rest
    split at rest
    · cases Option.some.inj rest
      exact Undisturbed.refl s
    obtain ⟨taken, -, rest⟩ := Option.bind_eq_some_iff.mp rest
    split at rest
    · cases Option.some.inj rest
      exact Undisturbed.refl s
    obtain ⟨⟨parent, name⟩, -, rest⟩ := Option.bind_eq_some_iff.mp rest
    cases parent with
    | none =>
      cases Option.some.inj rest
      exact Undisturbed.refl s
    | some d =>
      obtain ⟨dir, target, rest⟩ := Option.bind_eq_some_iff.mp rest
      split at rest
      · cases Option.some.inj rest
        exact Undisturbed.refl s
      rename_i admitted
      obtain ⟨freed, unlink, rest⟩ := Option.bind_eq_some_iff.mp rest
      obtain ⟨linked, link, rest⟩ := Option.bind_eq_some_iff.mp rest
      cases Option.some.inj rest
      obtain ⟨first, -⟩ := nodeUnlink_undisturbed unlink
      have named : Undisturbed freed
          (setNode freed id fun n => { n with sibling := none, name := strlcpy name fsNameMax }) :=
        setNode_undisturbed fun n _ => ⟨rfl, rfl, fun leaf => leaf⟩
      obtain ⟨nd, there, type, -⟩ := (first.trans named).stays d dir target
      have last := nodeLink_undisturbed there (type.trans (not_not.mp admitted)) link
      have stamped : Undisturbed linked (setNode linked id fun n => { n with modified := env.now }) :=
        setNode_undisturbed fun n _ => ⟨rfl, rfl, fun leaf => leaf⟩
      exact ((first.trans named).trans last).trans stamped

theorem fsRegisterNode_undisturbed {dir name : Bytes} {type : NodeType} {ops : Option OpsTable} {backing : Option Nat}
    {got : Option NodeId} (fresh : Fresh s) (run : fsRegisterNode env s dir name type ops backing = some (got, t)) :
    Undisturbed s t := by
  obtain ⟨found, -, rest⟩ := Option.bind_eq_some_iff.mp run
  cases found with
  | none =>
    cases Option.some.inj rest
    exact Undisturbed.refl s
  | some d =>
    obtain ⟨nd, target, rest⟩ := Option.bind_eq_some_iff.mp rest
    split at rest
    · cases Option.some.inj rest
      exact Undisturbed.refl s
    rename_i admitted
    obtain ⟨taken, -, rest⟩ := Option.bind_eq_some_iff.mp rest
    split at rest
    · cases Option.some.inj rest
      exact Undisturbed.refl s
    have grows : Undisturbed s (nodeAlloc env s name type 0o644).2 := nodeAlloc_undisturbed fresh
    cases memory : env.nodeAlloc with
    | false =>
      simp only [nodeAlloc, memory] at rest
      cases Option.some.inj rest
      exact Undisturbed.refl s
    | true =>
      have made := nodeAlloc_grown (s := s) name type 0o644 memory
      rw [made] at rest grows
      obtain ⟨linked, link, rest⟩ := Option.bind_eq_some_iff.mp rest
      cases Option.some.inj rest
      have given : Undisturbed (grown env s name type 0o644)
          (setNode (grown env s name type 0o644) s.nextInode fun n => { n with ops := ops, backing := backing }) :=
        setNode_undisturbed fun n _ => ⟨rfl, rfl, fun leaf => leaf⟩
      obtain ⟨md, there, type', -⟩ := (grows.trans given).stays d nd target
      exact (grows.trans given).trans (nodeLink_undisturbed there (type'.trans (not_not.mp admitted)) link)

theorem fsUnlink_cases {path : Bytes} {code : Int} (leafy : ∀ id n, s.nodes id = some n → n.Leaf)
    (run : fsUnlink s path = some (code, t)) :
    t = s ∨ ∃ id n u, s.nodes id = some n ∧ n.openCount = 0 ∧ Undisturbed s u ∧
      t = { u with nodes := Function.update u.nodes id none } := by
  obtain ⟨found, -, rest⟩ := Option.bind_eq_some_iff.mp run
  cases found with
  | none =>
    cases Option.some.inj rest
    exact Or.inl rfl
  | some id =>
    obtain ⟨n, live, rest⟩ := Option.bind_eq_some_iff.mp rest
    split at rest
    · cases Option.some.inj rest
      exact Or.inl rfl
    split at rest
    · cases Option.some.inj rest
      exact Or.inl rfl
    rename_i empty
    split at rest
    · cases Option.some.inj rest
      exact Or.inl rfl
    rename_i closed
    obtain ⟨u, unlink, rest⟩ := Option.bind_eq_some_iff.mp rest
    obtain ⟨freed, free, rest⟩ := Option.bind_eq_some_iff.mp rest
    cases Option.some.inj rest
    obtain ⟨calm, kept⟩ := nodeUnlink_undisturbed unlink
    have childless : n.children = none := by
      by_cases dir : n.type = .dir
      · by_contra full
        exact empty ⟨dir, full⟩
      · exact leafy id n live dir
    obtain ⟨m, here, bare⟩ := kept id n live childless
    rw [nodeFree_leaf here bare] at free
    exact Or.inr ⟨id, n, u, live, Nat.le_zero.mp (Nat.le_of_not_lt closed), calm, (Option.some.inj free).symm⟩

end Names

section Counts

/-- The open handles of a session on one node. -/
@[grind =] def handlesOn (σ : Session) (id : NodeId) : Nat :=
  σ.mine.countP fun h => (σ.fs.files h).map File.node = some id

/-- The handles of the session are the open ones, and every count says so. -/
structure Accounted (σ : Session) : Prop where
  fresh : Fresh σ.fs
  leafy : ∀ id n, σ.fs.nodes id = some n → n.Leaf
  nodup : σ.mine.Nodup
  below : ∀ h ∈ σ.mine, h < σ.fs.nextFile
  held : ∀ h ∈ σ.mine, ∃ f n, σ.fs.files h = some f ∧ f.refs = 1 ∧ σ.fs.nodes f.node = some n
  total : σ.fs.openFileCount = σ.mine.length
  onNode : ∀ id n, σ.fs.nodes id = some n → n.openCount = handlesOn σ id

/-- Every handle is a block of the kernel heap, and a new one is one block more. -/
def Backed (env : Env) (σ : Session) : Prop :=
  env.fileAlloc = true → ∃ r, Heap.Reached Heap.SmallRequest r ∧ ∃ place : FileId → Nat,
    ((σ.fs.nextFile :: σ.mine).map place).Nodup ∧ ∀ h ∈ σ.fs.nextFile :: σ.mine, place h ∈ r.live

variable {env : Env} {σ τ : Session} {s : FsState}

theorem Backed.few (backed : Backed env σ) (memory : env.fileAlloc = true) : σ.mine.length + 1 < 2 ^ 32 := by
  obtain ⟨r, reached, place, apart, blocks⟩ := backed memory
  have bounded : r.live.length * 48 ≤ 268435456 := Heap.live_bound reached
  have inside : (σ.fs.nextFile :: σ.mine).map place ⊆ r.live := by
    intro p member
    obtain ⟨h, among, rfl⟩ := List.mem_map.mp member
    exact blocks h among
  have length := (apart.subperm inside).length_le
  rw [List.length_map, List.length_cons] at length
  omega

theorem Accounted.calm (accounted : Accounted σ) (calm : Undisturbed σ.fs s) : Accounted { σ with fs := s } := by
  have handles (id : NodeId) : handlesOn { σ with fs := s } id = handlesOn σ id := by
    simp only [handlesOn, calm.files]
  constructor
  · exact calm.fresh accounted.fresh
  · intro id m live
    rcases calm.nodes id m live with ⟨n, here⟩ | ⟨-, -, -, leaf⟩
    · obtain ⟨m', there, -, -, leaf⟩ := calm.stays id n here
      cases Option.some.inj (there.symm.trans live)
      exact leaf (accounted.leafy id n here)
    · exact leaf
  · exact accounted.nodup
  · intro h member
    change h < s.nextFile
    rw [calm.nextFile]
    exact accounted.below h member
  · intro h member
    obtain ⟨f, n, handle, refs, live⟩ := accounted.held h member
    obtain ⟨m, there, -⟩ := calm.stays f.node n live
    exact ⟨f, m, calm.files ▸ handle, refs, there⟩
  · exact calm.count.trans accounted.total
  · intro id m live
    rw [handles]
    rcases calm.nodes id m live with ⟨n, here⟩ | ⟨new, -, closed, -⟩
    · obtain ⟨m', there, -, count, -⟩ := calm.stays id n here
      cases Option.some.inj (there.symm.trans live)
      exact count.trans (accounted.onNode id n here)
    · rw [closed, eq_comm, handlesOn, List.countP_eq_zero]
      intro h member here
      obtain ⟨f, n, handle, -, live'⟩ := accounted.held h member
      have node : f.node = id := by simpa [handle] using here
      have old : f.node < σ.fs.nextInode := accounted.fresh f.node n live'
      rw [node] at old
      exact absurd old (Nat.not_lt_of_le new)

theorem Accounted.free (accounted : Accounted σ) {id : NodeId} {n : FsNode} (live : σ.fs.nodes id = some n)
    (closed : n.openCount = 0) :
    Accounted { σ with fs := { σ.fs with nodes := Function.update σ.fs.nodes id none } } := by
  have other {c : NodeId} {m : FsNode} (after : Function.update σ.fs.nodes id none c = some m) :
      σ.fs.nodes c = some m := by
    by_cases same : c = id
    · subst c
      simp at after
    · exact (Function.update_of_ne same _ _).symm.trans after
  have none_on : ∀ h ∈ σ.mine, ∀ f, σ.fs.files h = some f → f.node ≠ id := by
    intro h member f handle node
    have none := (accounted.onNode id n live).symm.trans closed
    rw [handlesOn, List.countP_eq_zero] at none
    exact none h member (by simp [handle, node])
  constructor
  · intro c m after
    exact accounted.fresh c m (other after)
  · intro c m after
    exact accounted.leafy c m (other after)
  · exact accounted.nodup
  · exact accounted.below
  · intro h member
    obtain ⟨f, m, handle, refs, there⟩ := accounted.held h member
    exact ⟨f, m, handle, refs, (Function.update_of_ne (none_on h member f handle) _ _).trans there⟩
  · exact accounted.total
  · intro c m after
    exact accounted.onNode c m (other after)

theorem truncated_counts (flags : Nat) (n : FsNode) :
    (truncated flags n).type = n.type ∧ (truncated flags n).openCount = n.openCount ∧
      (n.Leaf → (truncated flags n).Leaf) := by
  unfold truncated
  split
  · exact ⟨rfl, rfl, fun leaf => leaf⟩
  · exact ⟨rfl, rfl, fun leaf => leaf⟩

/-- The node table and the handles after a successful open of the node id. -/
structure Grants (s : FsState) (id : NodeId) (n : FsNode) (got : Option FileId) (t : FsState) : Prop where
  handle : got = some s.nextFile
  inode : t.nextInode = s.nextInode
  nextFile : t.nextFile = s.nextFile + 1
  count : t.openFileCount = wrap64 (s.openFileCount + 1)
  files : ∃ f, f.node = id ∧ f.refs = 1 ∧ t.files = Function.update s.files s.nextFile (some f)
  nodes : ∃ m, t.nodes = Function.update s.nodes id (some m) ∧
    m.openCount = (n.openCount + 1) % 2 ^ 32 ∧ (n.Leaf → m.Leaf)

theorem openNode_counts {s t : FsState} {id : NodeId} {flags : Nat} {got : Option FileId}
    (run : openNode env s id flags = some (got, t)) :
    (got = none ∧ Undisturbed s t) ∨ ∃ n, env.fileAlloc = true ∧ s.nodes id = some n ∧ Grants s id n got t := by
  obtain ⟨n, live, rest⟩ := Option.bind_eq_some_iff.mp run
  split at rest
  · cases Option.some.inj rest
    exact Or.inl ⟨rfl, Undisturbed.refl _⟩
  split at rest
  · cases Option.some.inj rest
    exact Or.inl ⟨rfl, Undisturbed.refl _⟩
  split at rest
  · cases Option.some.inj rest
    exact Or.inl ⟨rfl, Undisturbed.refl _⟩
  obtain ⟨type, count, leaf⟩ := truncated_counts flags n
  split at rest
  · cases Option.some.inj rest
    refine Or.inl ⟨rfl, setNode_undisturbed fun m here => ?_⟩
    cases Option.some.inj (live.symm.trans here)
    exact ⟨type, count, leaf⟩
  · rename_i memory
    cases Option.some.inj rest
    refine Or.inr ⟨n, by simpa using memory, live, rfl, rfl, rfl, rfl, ⟨_, rfl, rfl, rfl⟩, ?_⟩
    refine ⟨{ truncated flags n with openCount := ((truncated flags n).openCount + 1) % 2 ^ 32, accessed := env.now },
      ?_, ?_, leaf⟩
    · funext c
      by_cases same : c = id
      · subst c
        simp [setNode, putNode, live]
      · simp [setNode, putNode, same]
    · rw [← count]

theorem Accounted.grant (accounted : Accounted σ) (few : σ.mine.length + 1 < 2 ^ 32) {id : NodeId} {n : FsNode}
    {got : Option FileId} (live : σ.fs.nodes id = some n) (grants : Grants σ.fs id n got s) :
    Accounted { fs := s, mine := got.toList ++ σ.mine } := by
  obtain ⟨f, on, once, files⟩ := grants.files
  obtain ⟨m, nodes, count, leaf⟩ := grants.nodes
  have mine : got.toList ++ σ.mine = σ.fs.nextFile :: σ.mine := by
    rw [grants.handle]
    rfl
  rw [mine]
  have new : σ.fs.nextFile ∉ σ.mine := fun member => Nat.lt_irrefl _ (accounted.below _ member)
  have older {h : FileId} (member : h ∈ σ.mine) : s.files h = σ.fs.files h := by
    rw [files, Function.update_of_ne (ne_of_mem_of_not_mem member new)]
  have table {c : NodeId} {k : FsNode} (after : s.nodes c = some k) :
      c = id ∧ k = m ∨ c ≠ id ∧ σ.fs.nodes c = some k := by
    rw [nodes] at after
    by_cases same : c = id
    · subst c
      rw [Function.update_self] at after
      exact Or.inl ⟨rfl, (Option.some.inj after).symm⟩
    · rw [Function.update_of_ne same] at after
      exact Or.inr ⟨same, after⟩
  have stays {c : NodeId} {k : FsNode} (before : σ.fs.nodes c = some k) : ∃ k', s.nodes c = some k' := by
    rw [nodes]
    by_cases same : c = id
    · subst c
      exact ⟨m, Function.update_self ..⟩
    · exact ⟨k, (Function.update_of_ne same _ _).trans before⟩
  have counted (c : NodeId) : handlesOn { fs := s, mine := σ.fs.nextFile :: σ.mine } c =
      handlesOn σ c + if id = c then 1 else 0 := by
    have rest : σ.mine.countP (fun h => (s.files h).map File.node = some c) = handlesOn σ c := by
      apply List.countP_congr
      intro h member
      rw [older member]
    have first : (s.files σ.fs.nextFile).map File.node = some id := by simp [files, on]
    rw [handlesOn, List.countP_cons, rest]
    simp [first]
  constructor
  · intro c k after
    rw [grants.inode]
    rcases table after with ⟨rfl, -⟩ | ⟨-, before⟩
    · exact accounted.fresh c n live
    · exact accounted.fresh c k before
  · intro c k after
    rcases table after with ⟨rfl, rfl⟩ | ⟨-, before⟩
    · exact leaf (accounted.leafy c n live)
    · exact accounted.leafy c k before
  · exact List.nodup_cons.mpr ⟨new, accounted.nodup⟩
  · intro h member
    change h < s.nextFile
    rw [grants.nextFile]
    rcases List.mem_cons.mp member with rfl | member
    · exact Nat.lt_succ_self _
    · exact Nat.lt_succ_of_lt (accounted.below h member)
  · intro h member
    rcases List.mem_cons.mp member with rfl | member
    · obtain ⟨k, here⟩ := stays live
      exact ⟨f, k, by simp [files], once, on ▸ here⟩
    · obtain ⟨g, k, handle, refs, there⟩ := accounted.held h member
      obtain ⟨k', here⟩ := stays there
      exact ⟨g, k', (older member).trans handle, refs, here⟩
  · change s.openFileCount = σ.mine.length + 1
    rw [grants.count, accounted.total]
    exact Nat.mod_eq_of_lt (Nat.lt_trans few (by decide))
  · intro c k after
    rw [counted]
    have most : handlesOn σ id ≤ σ.mine.length := List.countP_le_length
    rcases table after with ⟨rfl, rfl⟩ | ⟨other, before⟩
    · rw [count, accounted.onNode c n live, if_pos rfl]
      exact Nat.mod_eq_of_lt (by omega)
    · rw [if_neg (Ne.symm other)]
      exact accounted.onNode c k before

theorem Accounted.close (accounted : Accounted σ) {h : FileId} (held : h ∈ σ.mine) (run : fsClose σ.fs h = some s) :
    Accounted { fs := s, mine := σ.mine.filter (· ≠ h) } := by
  obtain ⟨f, n, handle, once, live⟩ := accounted.held h held
  have closed : s = { setNode σ.fs f.node (fun n => { n with openCount := n.openCount - 1 }) with
      files := Function.update σ.fs.files h none
      openFileCount := σ.fs.openFileCount - 1 } := by
    simp only [fsClose, handle, once, live, Option.bind_eq_bind, Option.bind_some] at run
    exact (Option.some.inj run).symm
  have kept {k : FileId} (other : k ≠ h) : s.files k = σ.fs.files k := by
    rw [closed]
    exact Function.update_of_ne other _ _
  have table {c : NodeId} {m : FsNode} (after : s.nodes c = some m) : ∃ k, σ.fs.nodes c = some k ∧
      (k.Leaf → m.Leaf) ∧ m.openCount = k.openCount - (if f.node = c then 1 else 0) := by
    rw [closed] at after
    by_cases same : f.node = c
    · subst c
      have changed : some { n with openCount := n.openCount - 1 } = some m := by
        simpa [setNode, live] using after
      rw [← Option.some.inj changed, if_pos rfl]
      exact ⟨n, live, fun leaf => leaf, rfl⟩
    · have before : σ.fs.nodes c = some m := by simpa [setNode, Ne.symm same] using after
      rw [if_neg same]
      exact ⟨m, before, fun leaf => leaf, rfl⟩
  have stays {c : NodeId} {m : FsNode} (before : σ.fs.nodes c = some m) : ∃ m', s.nodes c = some m' := by
    rw [closed]
    by_cases same : c = f.node
    · subst c
      exact ⟨_, by simp [setNode, live]; rfl⟩
    · exact ⟨m, by simp [setNode, same, before]⟩
  have rest : σ.mine.filter (· ≠ h) = σ.mine.erase h := by
    rw [accounted.nodup.erase_eq_filter h]
    exact List.filter_congr fun k _ => by rw [Bool.eq_iff_iff]; simp
  have split : σ.mine.Perm (h :: σ.mine.erase h) := List.perm_cons_erase held
  have counted (c : NodeId) :
      handlesOn σ c = handlesOn { fs := s, mine := σ.mine.erase h } c + if f.node = c then 1 else 0 := by
    have same : (σ.mine.erase h).countP (fun k => (s.files k).map File.node = some c) =
        (σ.mine.erase h).countP (fun k => (σ.fs.files k).map File.node = some c) := by
      apply List.countP_congr
      intro k member
      rw [kept ((accounted.nodup.mem_erase_iff.mp member).1)]
    rw [handlesOn, split.countP_eq, List.countP_cons, handlesOn, same]
    simp [handle]
  rw [rest]
  constructor
  · intro c m after
    obtain ⟨k, before, -⟩ := table after
    rw [closed]
    exact accounted.fresh c k before
  · intro c m after
    obtain ⟨k, before, leaf, -⟩ := table after
    exact leaf (accounted.leafy c k before)
  · exact accounted.nodup.erase h
  · intro k member
    rw [closed]
    exact accounted.below k (List.mem_of_mem_erase member)
  · intro k member
    obtain ⟨other, among⟩ := accounted.nodup.mem_erase_iff.mp member
    obtain ⟨g, m, handle', refs, there⟩ := accounted.held k among
    obtain ⟨m', here⟩ := stays there
    exact ⟨g, m', (kept other).trans handle', refs, here⟩
  · rw [closed]
    change σ.fs.openFileCount - 1 = (σ.mine.erase h).length
    rw [accounted.total, List.length_erase_of_mem held]
  · intro c m after
    obtain ⟨k, before, -, count⟩ := table after
    have all := accounted.onNode c k before
    rw [counted c] at all
    rw [count, all]
    exact Nat.add_sub_cancel ..

end Counts

section Run

/-- A call that opens or closes a file or changes the tree, in any order. -/
inductive HandleStep (σ : Session) : Session → Prop where
  | opens {env : Env} {path : Bytes} {flags : Nat} {reply : Reply} {τ : Session} (backed : Backed env σ)
      (run : perform env σ (.open path flags) = some (reply, τ)) : HandleStep σ τ
  | closes {env : Env} {h : FileId} {reply : Reply} {τ : Session}
      (run : perform env σ (.close h) = some (reply, τ)) : HandleStep σ τ
  | names {env : Env} {op : TreeOp} {s : FsState} (run : runTree env σ.fs op = some s) :
      HandleStep σ { fs := s, mine := σ.mine }

def HandleStart (σ : Session) : Prop := TreeStart σ.fs ∧ σ.mine = []

variable {env : Env} {σ τ : Session} {s : FsState}

theorem mkdirs_undisturbed {envs : Bytes → Env} {paths : List Bytes} {t : FsState} (fresh : Fresh s)
    (run : mkdirs envs s paths = some t) : Undisturbed s t := by
  induction paths generalizing s with
  | nil =>
    cases Option.some.inj run
    exact Undisturbed.refl _
  | cons path rest ih =>
    obtain ⟨⟨code, made⟩, mkdir, later⟩ := Option.bind_eq_some_iff.mp run
    have calm := fsMkdir_undisturbed fresh mkdir
    exact calm.trans (ih (calm.fresh fresh) later)

theorem fsInit_undisturbed {envs : Bytes → Env} {t : FsState} (run : fsInit env envs = some t) :
    Undisturbed bareFs t := by
  have bare : Fresh bareFs := by
    intro c n live
    cases live
  have grows : Undisturbed bareFs (nodeAlloc env bareFs (ascii "/") .dir 0o755).2 := nodeAlloc_undisturbed bare
  rw [fsInit] at run
  cases memory : env.nodeAlloc with
  | false =>
    simp only [nodeAlloc, memory] at run
    cases run
  | true =>
    rw [nodeAlloc_grown (ascii "/") .dir 0o755 memory] at run grows
    obtain ⟨made, skeleton, rest⟩ := Option.bind_eq_some_iff.mp run
    let top : FsState := { grown env bareFs (ascii "/") .dir 0o755 with root := bareFs.nextInode }
    have named : Undisturbed bareFs top :=
      ⟨grows.files, grows.nextFile, grows.count, grows.inode, grows.stays, grows.nodes⟩
    have full := named.trans (mkdirs_undisturbed (named.fresh bare) skeleton)
    obtain ⟨found, -, rest⟩ := Option.bind_eq_some_iff.mp rest
    cases found with
    | none =>
      cases Option.some.inj rest
      exact full
    | some tmp =>
      cases Option.some.inj rest
      exact full.trans (setNode_undisturbed fun n _ => ⟨rfl, rfl, fun leaf => leaf⟩)

theorem accounted_start (start : HandleStart σ) : Accounted σ := by
  obtain ⟨⟨env, envs, run⟩, none⟩ := start
  have bare : Accounted { fs := bareFs, mine := [] } := by
    constructor
    · intro c n live
      cases live
    · intro c n live
      cases live
    · exact List.nodup_nil
    · intro h member
      cases member
    · intro h member
      cases member
    · rfl
    · intro c n live
      cases live
  have begun := bare.calm (fsInit_undisturbed run)
  rw [← none] at begun
  exact begun

theorem Accounted.tree (accounted : Accounted σ) {op : TreeOp} (run : runTree env σ.fs op = some s) :
    Accounted { σ with fs := s } := by
  cases op with
  | create path type perms =>
    obtain ⟨⟨got, t⟩, create, rfl⟩ := Option.map_eq_some_iff.mp run
    exact accounted.calm (fsCreate_undisturbed accounted.fresh create)
  | mkdir path perms =>
    obtain ⟨⟨code, t⟩, mkdir, rfl⟩ := Option.map_eq_some_iff.mp run
    exact accounted.calm (fsMkdir_undisturbed accounted.fresh mkdir)
  | unlink path =>
    obtain ⟨⟨code, t⟩, unlink, rfl⟩ := Option.map_eq_some_iff.mp run
    rcases fsUnlink_cases accounted.leafy unlink with rfl | ⟨id, n, u, live, closed, calm, rfl⟩
    · exact accounted
    · obtain ⟨m, here, -, count, -⟩ := calm.stays id n live
      exact (accounted.calm calm).free here (count.trans closed)
  | rename src dst =>
    obtain ⟨⟨code, t⟩, rename, rfl⟩ := Option.map_eq_some_iff.mp run
    exact accounted.calm (fsRename_undisturbed rename)
  | registerNode dir name type ops backing =>
    obtain ⟨⟨got, t⟩, register, rfl⟩ := Option.map_eq_some_iff.mp run
    exact accounted.calm (fsRegisterNode_undisturbed accounted.fresh register)

theorem Accounted.opens (accounted : Accounted σ) (backed : Backed env σ) {path : Bytes} {flags : Nat}
    {got : Option FileId} (run : fsOpen env σ.fs path flags = some (got, s)) :
    Accounted { fs := s, mine := got.toList ++ σ.mine } := by
  obtain ⟨⟨target, t⟩, aim, rest⟩ := Option.bind_eq_some_iff.mp run
  have first : Undisturbed σ.fs t := by
    rcases openTarget_cases aim with ⟨rfl, -⟩ | ⟨-, -, create, -⟩
    · exact Undisturbed.refl _
    · exact fsCreate_undisturbed accounted.fresh create
  have there := accounted.calm first
  cases target with
  | none =>
    cases Option.some.inj rest
    exact there
  | some id =>
    rcases openNode_counts rest with ⟨rfl, second⟩ | ⟨n, memory, live, grants⟩
    · exact there.calm second
    · exact there.grant (backed.few memory) live grants

theorem Accounted.step (accounted : Accounted σ) (moves : HandleStep σ τ) : Accounted τ := by
  cases moves with
  | opens backed run =>
    cases perform_cases run with
    | opened opens => exact accounted.opens backed opens
    | refused => exact accounted
  | closes run =>
    cases perform_cases run with
    | closed held closes => exact accounted.close held closes
    | refused => exact accounted
  | names run => exact accounted.tree run

theorem accounted_reached (reached : Reachable HandleStart HandleStep σ) : Accounted σ :=
  reached.induct Accounted (fun _ => accounted_start) (fun _ _ accounted moves => accounted.step moves)

/-- The counts over every run, and that an open handle keeps its node. -/
theorem handles_accounted (reached : Reachable HandleStart HandleStep σ) :
    σ.fs.openFileCount = σ.mine.length ∧
    (∀ id n, σ.fs.nodes id = some n → n.openCount = handlesOn σ id) ∧
    (∀ h ∈ σ.mine, ∃ f n, σ.fs.files h = some f ∧ f.refs = 1 ∧ σ.fs.nodes f.node = some n) ∧
    ∀ path code t, fsUnlink σ.fs path = some (code, t) →
      ∀ h ∈ σ.mine, ∃ f n, σ.fs.files h = some f ∧ t.files h = some f ∧ t.nodes f.node = some n := by
  have accounted := accounted_reached reached
  refine ⟨accounted.total, accounted.onNode, accounted.held, ?_⟩
  intro path code t run h member
  have after : runTree bootEnv σ.fs (.unlink path) = some t := by
    rw [runTree, run]
    rfl
  obtain ⟨f, n, handle, -⟩ := accounted.held h member
  obtain ⟨g, m, handle', -, live⟩ := (accounted.tree after).held h member
  have files : t.files = σ.fs.files := by
    rcases fsUnlink_cases accounted.leafy run with rfl | ⟨id, k, u, -, -, calm, rfl⟩
    · rfl
    · exact calm.files
  rw [files] at handle'
  cases Option.some.inj (handle.symm.trans handle')
  exact ⟨f, m, handle, files ▸ handle, live⟩

theorem one_block : ∃ r p, Heap.Reached Heap.SmallRequest r ∧ p ∈ r.live := by
  have runs : ((Heap.heapInit Heap.onePage Heap.zeroed).bind fun s =>
      (Heap.call Heap.onePage s (.kmalloc 24)).map Prod.fst) = some (Heap.heapBase + Heap.headerSize) := by
    decide
  obtain ⟨s, started, call⟩ := Option.bind_eq_some_iff.mp runs
  obtain ⟨⟨p, t⟩, run, rfl⟩ := Option.map_eq_some_iff.mp call
  have small : Heap.SmallRequest s (.kmalloc 24) := by
    change 24 < 2 ^ 63
    decide
  have booted : Heap.Reached Heap.SmallRequest ⟨s, []⟩ := .start ⟨rfl, Heap.onePage, Heap.zeroed, started⟩
  refine ⟨⟨t, [Heap.heapBase + Heap.headerSize]⟩, _, .next booted ?_, List.mem_singleton_self _⟩
  exact ⟨Heap.onePage, .kmalloc 24, _, trivial, small, run, rfl⟩

theorem handles_accounted_of_etc : ∃ σ : Session, Reachable HandleStart HandleStep σ ∧ σ.mine = [0] ∧
    σ.fs.openFileCount = 1 ∧ ∃ n, σ.fs.nodes 4 = some n ∧ n.openCount = 1 := by
  have run : ((fsInit bootEnv fun _ => bootEnv).bind fun s =>
      (perform bootEnv { fs := s, mine := [] } (.open (ascii "/etc") oRdonly)).map fun r =>
        (r.2.mine, (r.2.fs.files 0).map File.node, (r.2.fs.nodes 4).isSome)) = some ([0], some 4, true) := by
    decide +kernel
  obtain ⟨s, started, rest⟩ := Option.bind_eq_some_iff.mp run
  obtain ⟨⟨reply, σ⟩, opens, facts⟩ := Option.map_eq_some_iff.mp rest
  obtain ⟨mine, facts⟩ := Prod.mk.inj facts
  obtain ⟨node, live⟩ := Prod.mk.inj facts
  simp only at mine node live
  have backed : Backed bootEnv { fs := s, mine := [] } := by
    obtain ⟨r, p, reached, member⟩ := one_block
    exact fun _ => ⟨r, reached, fun _ => p, List.nodup_singleton _, fun _ _ => member⟩
  have reached : Reachable HandleStart HandleStep σ := by
    refine .next (.start (s := { fs := s, mine := [] }) ⟨⟨_, _, started⟩, rfl⟩) ?_
    exact .opens backed opens
  obtain ⟨total, onNode, -⟩ := handles_accounted reached
  obtain ⟨n, here⟩ := Option.isSome_iff_exists.mp live
  refine ⟨σ, reached, mine, ?_, n, here, ?_⟩
  · rw [total, mine]
    rfl
  · rw [onNode 4 n here, handlesOn, mine, List.countP_singleton]
    exact if_pos (decide_eq_true node)

end Run

end Qito.Vfs
