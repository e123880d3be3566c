import Qito.Lib.Runs
import Qito.Vfs.Namespace
import Mathlib.Data.Set.Finite.Lattice

/-! The node tree over runs of the namespace operations. fs_rename does not ask
whether the destination lies inside the moved directory, and both fs_rename and
fs_register_node cut a name after they looked for it; the tree survives every
run that avoids these two cases. -/
namespace Qito.Vfs
open Links Ancestry Runs

/-- The live nodes form a finite tree: parent links lead to the root, and the
child list of a directory holds each of its nodes once, under its own name. -/
structure TreeInvariant (s : FsState) : Prop where
  finite : {c | ∃ n, s.nodes c = some n}.Finite
  rootLive : ∃ n, s.nodes s.root = some n ∧ n.type = .dir ∧ n.parent = none
  reaches : ∀ c n, s.nodes c = some n → Above (parentOf (shapes s)) c s.root
  lists : ∀ d n, s.nodes d = some n → ∃ xs, Route (siblingOf (shapes s)) n.children xs none ∧
    (∀ c ∈ xs, ∃ m, s.nodes c = some m ∧ m.parent = some d ∧ m.name ≠ []) ∧
    (∀ a ∈ xs, ∀ b ∈ xs, ∀ m k, s.nodes a = some m → s.nodes b = some k → m.name = k.name → a = b)
  once : ∀ c m d, s.nodes c = some m → m.parent = some d → ∃ n xs, s.nodes d = some n ∧ n.type = .dir ∧
    Route (siblingOf (shapes s)) n.children xs none ∧ xs.count c = 1

theorem Tree.invariant {s : FsState} {kids : NodeId → List NodeId} (tree : Tree s kids) : TreeInvariant s := by
  have inside (c : NodeId) : (none : Option NodeId) ≠ some c := by simp
  constructor
  · refine (Set.finite_lt_nat s.nextInode).subset ?_
    rintro c ⟨n, live⟩
    exact tree.fresh c n.shape (shapes_live live)
  · exact tree.root_live
  · exact fun c n live => tree.rooted c n.shape (shapes_live live) (inside c)
  · intro d n live
    refine ⟨kids d, tree.path d n.shape (shapes_live live), ?_, ?_⟩
    · intro c member
      obtain ⟨m, here, parent⟩ := tree.kids_live member
      exact ⟨m, here, parent, tree.named c m.shape d (shapes_live here) parent (inside c)⟩
    · intro a left b right m k here there same
      obtain ⟨m', here', parent⟩ := tree.kids_live left
      obtain ⟨k', there', parent'⟩ := tree.kids_live right
      cases Option.some.inj (here.symm.trans here')
      cases Option.some.inj (there.symm.trans there')
      exact tree.distinct a b m.shape k.shape d (shapes_live here) (shapes_live there) parent parent'
        (inside a) (inside b) same
  · intro c m d live parent
    obtain ⟨k, there, type⟩ := tree.dirs c m.shape d (shapes_live live) parent
    obtain ⟨n, here, rfl⟩ := live_of_shape there
    refine ⟨n, kids d, here, type, tree.path d n.shape there, ?_⟩
    have member := (tree.member d c).mpr ⟨m.shape, shapes_live live, parent, inside c⟩
    exact List.count_eq_one_of_mem (tree.nodup there) member

section Operations
variable {s : FsState} {kids : NodeId → List NodeId} (env : Env)

theorem fsCreate_tree (tree : Tree s kids) (path : Bytes) (type : NodeType) (perms : Nat) :
    ∃ got s' kids', fsCreate env s path type perms = some (got, s') ∧ Tree s' kids' := by
  obtain ⟨dir, name, resolved, cut, alive⟩ := resolveParent_spec tree path
  cases dir with
  | none => exact ⟨none, s, kids, by simp only [fsCreate, resolved]; rfl, tree⟩
  | some d =>
    obtain ⟨nd, target⟩ := alive d rfl
    by_cases refused : nd.type ≠ .dir ∨ name = []
    · exact ⟨none, s, kids, by simp [fsCreate, resolved, target, refused], tree⟩
    · obtain ⟨found, search, -, miss⟩ := findChild_spec tree name target
      cases found with
      | some c => exact ⟨none, s, kids, by simp [fsCreate, resolved, target, search], tree⟩
      | none =>
        obtain ⟨isDir, named⟩ := not_or.mp refused
        have dirType := not_not.mp isDir
        cases memory : env.nodeAlloc with
        | false =>
          have failed : nodeAlloc env s name type perms = (none, s) := by simp [nodeAlloc, memory]
          exact ⟨none, s, kids, by simp [fsCreate, resolved, target, search, failed], tree⟩
        | true =>
          have taken := nodeAlloc_grown (s := s) name type perms memory
          have keep : ∀ n, (owned env n).shape = n.shape := by
            intro n
            rw [owned]
            split <;> rfl
          obtain ⟨s', kids', run, tree'⟩ := tree.grow env type perms keep target dirType
            (by rw [cut]; exact named) (by rw [cut]; exact miss rfl dirType)
          refine ⟨some s.nextInode, setNode s' d fun n => { n with modified := env.now }, kids', ?_, ?_⟩
          · simp [fsCreate, resolved, target, refused, search, taken, run]
          · exact tree'.touch (fun n => rfl)

theorem fsMkdir_tree (tree : Tree s kids) (path : Bytes) (perms : Nat) :
    ∃ code s' kids', fsMkdir env s path perms = some (code, s') ∧ Tree s' kids' := by
  obtain ⟨found, search, -⟩ := fsLookup_spec tree path
  cases found with
  | some x => exact ⟨-qeExist, s, kids, by simp [fsMkdir, search], tree⟩
  | none =>
    obtain ⟨got, s', kids', run, tree'⟩ := fsCreate_tree env tree path .dir perms
    cases got with
    | none => exact ⟨-qeNoent, s', kids', by simp [fsMkdir, search, run], tree'⟩
    | some id => exact ⟨0, s', kids', by simp [fsMkdir, search, run], tree'⟩

theorem Tree.parent_of (tree : Tree s kids) {x : NodeId} {n : FsNode} (live : s.nodes x = some n) (inner : x ≠ s.root) :
    ∃ d, n.parent = some d := by
  cases place : n.parent with
  | some d => exact ⟨d, rfl⟩
  | none => exact absurd (tree.top (shapes_live live) (by simp) place) inner

theorem Tree.childless (tree : Tree s kids) {x : NodeId} {n : FsNode} (live : s.nodes x = some n)
    (free : ¬ (n.type = .dir ∧ n.children ≠ none)) : kids x = [] ∧ n.children = none := by
  have path := tree.path x n.shape (shapes_live live)
  have empty : kids x = [] := by
    refine List.eq_nil_iff_forall_not_mem.mpr (fun c member => free ?_)
    obtain ⟨m, here, parent⟩ := tree.kid_live member
    obtain ⟨k, there, type⟩ := tree.dirs c m x here parent
    cases Option.some.inj ((shapes_live live).symm.trans there)
    refine ⟨type, fun nothing => ?_⟩
    have head := path.head_eq
    rw [show n.shape.children = none from nothing] at head
    rw [List.head?_eq_none_iff.mp head.symm] at member
    exact absurd member (by simp)
  rw [empty] at path
  exact ⟨empty, path⟩

theorem nodeFree_leaf {x : NodeId} {n : FsNode} (live : s.nodes x = some n) (leaf : n.children = none) :
    nodeFree (2 * walkFuel s) s x = some { s with nodes := Function.update s.nodes x none } := by
  have fuel : 2 * walkFuel s = 2 * s.nextInode + 1 + 1 := by
    rw [walkFuel]
    omega
  simp [fuel, nodeFree, freeSiblings, live, leaf]

theorem shapes_drop {x : NodeId} :
    shapes { s with nodes := Function.update s.nodes x none } = Function.update (shapes s) x none := by
  funext c
  by_cases same : c = x
  · subst c
    simp [shapes]
  · simp [shapes, same]

theorem fsUnlink_tree (tree : Tree s kids) (path : Bytes) :
    ∃ code s' kids', fsUnlink s path = some (code, s') ∧ Tree s' kids' := by
  obtain ⟨found, search, alive⟩ := fsLookup_spec tree path
  cases found with
  | none => exact ⟨-qeNoent, s, kids, by simp [fsUnlink, search], tree⟩
  | some x =>
    obtain ⟨nx, live⟩ := alive x rfl
    by_cases top : x = s.root
    · refine ⟨-qePerm, s, kids, ?_, tree⟩
      subst x
      simp [fsUnlink, search, live]
    by_cases busy : nx.type = .dir ∧ nx.children ≠ none
    · exact ⟨-qeNotempty, s, kids, by simp [fsUnlink, search, live, top, busy], tree⟩
    by_cases held : nx.openCount > 0
    · exact ⟨-qePerm, s, kids, by simp [fsUnlink, search, live, top, busy, held], tree⟩
    obtain ⟨d, place⟩ := tree.parent_of live top
    obtain ⟨pre, post, eq⟩ := List.append_of_mem ((tree.member d x).mpr ⟨nx.shape, shapes_live live, place, by simp⟩)
    obtain ⟨s', run, after, rootKept, inodeKept⟩ := nodeUnlink_spec tree live place eq
    obtain ⟨leaf, children⟩ := tree.childless live busy
    have apart : x ≠ d := by
      rintro rfl
      simp [leaf] at eq
    have leaf' : Function.update kids d (pre ++ post) x = [] := by rw [Function.update_of_ne apart, leaf]
    obtain ⟨m, here, -, -, -, entries, -⟩ := detach_shape (d := d) pre.getLast? (siblingOf (shapes s) x) (shapes_live live)
    rw [← after] at here
    obtain ⟨n', alive', rfl⟩ := live_of_shape here
    have children' : n'.children = none := by
      refine entries.trans ((if_neg ?_).trans children)
      exact fun both => apart both.2
    have freed := nodeFree_leaf alive' children'
    refine ⟨0, { s' with nodes := Function.update s'.nodes x none }, Function.update kids d (pre ++ post), ?_, ?_⟩
    · simp [fsUnlink, search, live, top, busy, held, run, freed]
    · have whole := (tree.detach eq).drop leaf'
      rw [← after, ← rootKept, ← inodeKept, ← shapes_drop] at whole
      exact whole

/-- fs_rename keeps the tree where the destination directory is neither the moved
node nor below it, and has no other entry of the name that is written. -/
def RenameOk (s : FsState) (src dst : Bytes) : Prop :=
  ∀ x d n name, fsLookup s src = some (some x) → x ≠ s.root → fsLookup s dst = some none →
    resolveParent s dst = some (some d, name) → s.nodes d = some n → n.type = .dir →
    ¬ Above (parentOf (shapes s)) d x ∧
      ∀ c m, s.nodes c = some m → m.parent = some d → c ≠ x → m.name ≠ name

theorem Tree.move (tree : Tree s kids) {x e : NodeId} {nx ne : FsNode} {name : Bytes} (live : s.nodes x = some nx)
    (inner : x ≠ s.root) (target : s.nodes e = some ne) (dir : ne.type = .dir)
    (outside : ¬ Above (parentOf (shapes s)) e x) (named : name ≠ [])
    (distinct : ∀ c m, s.nodes c = some m → m.parent = some e → c ≠ x → m.name ≠ name) :
    ∃ s₁ s₂ kids', nodeUnlink s x = some s₁ ∧
      nodeLink (setNode s₁ x fun n => { n with sibling := none, name := name }) e x = some s₂ ∧ Tree s₂ kids' := by
  obtain ⟨d, place⟩ := tree.parent_of live inner
  obtain ⟨pre, post, eq⟩ := List.append_of_mem ((tree.member d x).mpr ⟨nx.shape, shapes_live live, place, by simp⟩)
  obtain ⟨s₁, unlinked, after, rootKept, inodeKept⟩ := nodeUnlink_spec tree live place eq
  let σ := detach (shapes s) d pre.getLast? (siblingOf (shapes s) x)
  let renamed : Shape → Shape := fun n => { n with sibling := none, name := name }
  let s₂ := setNode s₁ x fun n => { n with sibling := none, name := name }
  have table : shapes s₂ = modify σ x renamed := by
    rw [show σ = shapes s₁ from after.symm]
    exact shapes_setNode (fun n => rfl)
  have forest := (tree.detach eq).loosen (f := renamed) (fun n => rfl) (fun n => rfl) (fun n => rfl)
  have parents : parentOf (modify σ x renamed) = parentOf (shapes s) := by
    rw [parentOf_modify (f := renamed) (fun n => rfl)]
    exact detach_parent _ _
  have apart : e ≠ x := by
    rintro rfl
    exact outside Relation.ReflTransGen.refl
  obtain ⟨mx, hereX, -⟩ := detach_shape (d := d) pre.getLast? (siblingOf (shapes s) x) (shapes_live live)
  obtain ⟨me, hereE, -, typeE, -⟩ := detach_shape (d := d) pre.getLast? (siblingOf (shapes s) x) (shapes_live target)
  have liveX : modify σ x renamed x = some (renamed mx) := modify_same hereX
  have liveE : modify σ x renamed e = some me := (modify_other apart).trans hereE
  have unlike : ∀ c n, modify σ x renamed c = some n → n.parent = some e → c ≠ x → n.name ≠ (renamed mx).name := by
    intro c n here parent other
    rw [modify_other other] at here
    obtain ⟨k, before⟩ := detach_live _ _ here
    obtain ⟨k', here', sameName, -, sameParent, -⟩ := detach_shape (d := d) pre.getLast? (siblingOf (shapes s) x) before
    cases Option.some.inj (here.symm.trans here')
    obtain ⟨m, there, rfl⟩ := live_of_shape before
    rw [sameName]
    exact distinct c m there (sameParent.symm.trans parent) other
  have whole := forest.attach liveX liveE (typeE.trans dir) rfl (by rw [parents]; exact outside) named unlike
  rw [← table, ← inodeKept] at forest whole
  rw [← table] at liveE
  obtain ⟨me', targetE, -⟩ := live_of_shape liveE
  obtain ⟨s₃, linked, after', rootKept', inodeKept'⟩ := nodeLink_spec (s := s₂) forest targetE apart
  have rootSame : s₃.root = s.root := rootKept'.trans rootKept
  have inodeSame : s₃.nextInode = s₁.nextInode := inodeKept'
  rw [← after', ← rootSame, ← inodeSame] at whole
  exact ⟨s₁, s₃, _, unlinked, linked, whole⟩

theorem fsRename_tree (tree : Tree s kids) {src dst : Bytes} (ok : RenameOk s src dst) :
    ∃ code s' kids', fsRename env s src dst = some (code, s') ∧ Tree s' kids' := by
  obtain ⟨found, search, alive⟩ := fsLookup_spec tree src
  cases found with
  | none => exact ⟨-qeNoent, s, kids, by simp [fsRename, search], tree⟩
  | some x =>
    by_cases top : x = s.root
    · exact ⟨-qeNoent, s, kids, by simp [fsRename, search, top], tree⟩
    obtain ⟨other, probe, -⟩ := fsLookup_spec tree dst
    cases other with
    | some y => exact ⟨-qeExist, s, kids, by simp [fsRename, search, top, probe], tree⟩
    | none =>
      obtain ⟨dir, name, resolved, cut, alive'⟩ := resolveParent_spec tree dst
      cases dir with
      | none => exact ⟨-qeNoent, s, kids, by simp [fsRename, search, probe, resolved], tree⟩
      | some e =>
        obtain ⟨ne, target⟩ := alive' e rfl
        by_cases dirType : ne.type = .dir
        · obtain ⟨outside, distinct⟩ := ok x e ne name search top probe resolved target dirType
          have named := resolveParent_named probe resolved
          obtain ⟨nx, live⟩ := alive x rfl
          obtain ⟨s₁, s₂, kids', unlinked, linked, tree'⟩ :=
            tree.move live top target dirType outside named distinct
          refine ⟨0, setNode s₂ x fun n => { n with modified := env.now }, kids', ?_, tree'.touch (fun n => rfl)⟩
          simp [fsRename, search, top, probe, resolved, target, dirType, unlinked, cut, linked]
        · exact ⟨-qeNoent, s, kids, by simp [fsRename, search, probe, resolved, target, dirType], tree⟩

/-- fs_register_node looks for the whole name and writes it cut to 63 bytes; an
empty name passes the search as well. -/
def RegisterOk (env : Env) (s : FsState) (dir name : Bytes) : Prop :=
  ∀ d n, fsLookup s dir = some (some d) → s.nodes d = some n → n.type = .dir → findChild s d name = some none →
    env.nodeAlloc = true → name ≠ [] ∧
      ∀ c m, s.nodes c = some m → m.parent = some d → m.name ≠ strlcpy name fsNameMax

theorem fsRegisterNode_tree (tree : Tree s kids) {dir name : Bytes} (type : NodeType) (ops : Option OpsTable)
    (backing : Option Nat) (ok : RegisterOk env s dir name) :
    ∃ got s' kids', fsRegisterNode env s dir name type ops backing = some (got, s') ∧ Tree s' kids' := by
  obtain ⟨found, search, alive⟩ := fsLookup_spec tree dir
  cases found with
  | none => exact ⟨none, s, kids, by simp [fsRegisterNode, search], tree⟩
  | some d =>
    obtain ⟨nd, target⟩ := alive d rfl
    by_cases dirType : nd.type = .dir
    · obtain ⟨other, probe, -⟩ := findChild_spec tree name target
      cases other with
      | some c => exact ⟨none, s, kids, by simp [fsRegisterNode, search, target, probe], tree⟩
      | none =>
        cases memory : env.nodeAlloc with
        | false =>
          have failed : nodeAlloc env s name type 0o644 = (none, s) := by simp [nodeAlloc, memory]
          exact ⟨none, s, kids, by simp [fsRegisterNode, search, target, probe, failed], tree⟩
        | true =>
          obtain ⟨named, distinct⟩ := ok d nd search target dirType probe memory
          have taken := nodeAlloc_grown (s := s) name type 0o644 memory
          have named' : strlcpy name fsNameMax ≠ [] := by
            simpa [strlcpy] using named
          have distinct' : ∀ c ∈ kids d, ∀ m, s.nodes c = some m → m.name ≠ strlcpy name fsNameMax := by
            intro c member m here
            obtain ⟨m', there, parent⟩ := tree.kids_live member
            cases Option.some.inj (here.symm.trans there)
            exact distinct c m here parent
          obtain ⟨s', kids', run, tree'⟩ := tree.grow env type 0o644
            (f := fun n => { n with ops := ops, backing := backing }) (fun n => rfl) target dirType named' distinct'
          exact ⟨some s.nextInode, s', kids',
            by simp [fsRegisterNode, search, target, dirType, probe, taken, run], tree'⟩
    · exact ⟨none, s, kids, by simp [fsRegisterNode, search, target, dirType], tree⟩

theorem mkdirs_tree (envs : Bytes → Env) (tree : Tree s kids) (paths : List Bytes) :
    ∃ s' kids', mkdirs envs s paths = some s' ∧ Tree s' kids' := by
  induction paths generalizing s kids with
  | nil => exact ⟨s, kids, rfl, tree⟩
  | cons path rest ih =>
    obtain ⟨code, s', kids', made, tree'⟩ := fsMkdir_tree (envs path) tree path 0o755
    obtain ⟨t, kids'', run, whole⟩ := ih tree'
    exact ⟨t, kids'', by simp [mkdirs, made, run], whole⟩

theorem root_tree : Tree { grown env bareFs (ascii "/") .dir 0o755 with root := 1 } fun _ => [] := by
  let top := (freshNode env (ascii "/") .dir 0o755).shape
  have only {c : NodeId} {n : Shape}
      (live : shapes { grown env bareFs (ascii "/") .dir 0o755 with root := 1 } c = some n) : c = 1 ∧ n = top := by
    by_cases same : c = 1
    · subst c
      exact ⟨rfl, by simpa [shapes, grown, bareFs] using live.symm⟩
    · simp [shapes, grown, bareFs, same] at live
  constructor
  · exact ⟨top, rfl, rfl, rfl, by simp⟩
  · intro d n live
    obtain ⟨rfl, rfl⟩ := only live
    rfl
  · intro d c
    refine ⟨fun member => absurd member (by simp), ?_⟩
    rintro ⟨n, live, parent, -⟩
    obtain ⟨rfl, rfl⟩ := only live
    exact absurd parent (by simp [top, freshNode, FsNode.shape])
  · intro c n d live parent
    obtain ⟨rfl, rfl⟩ := only live
    exact absurd parent (by simp [top, freshNode, FsNode.shape])
  · intro c n live _
    obtain ⟨rfl, rfl⟩ := only live
    exact Relation.ReflTransGen.refl
  · intro c n d live parent _
    obtain ⟨rfl, rfl⟩ := only live
    exact absurd parent (by simp [top, freshNode, FsNode.shape])
  · intro a b n m d left right _ _ _ _ _
    rw [(only left).1, (only right).1]
  · intro c n live
    obtain ⟨rfl, rfl⟩ := only live
    exact Nat.lt_succ_self 1

theorem fsInit_tree (envs : Bytes → Env) (memory : env.nodeAlloc = true) :
    ∃ s kids, fsInit env envs = some s ∧ Tree s kids := by
  have taken := nodeAlloc_grown (s := bareFs) (ascii "/") .dir 0o755 memory
  obtain ⟨s, kids, made, tree⟩ := mkdirs_tree envs (root_tree env) skeleton
  have made' : mkdirs envs { grown env bareFs (ascii "/") .dir 0o755 with root := bareFs.nextInode } skeleton = some s :=
    made
  obtain ⟨found, search, -⟩ := fsLookup_spec tree (ascii "/tmp")
  cases found with
  | none => exact ⟨s, kids, by simp [fsInit, taken, made', search], tree⟩
  | some tmp =>
    refine ⟨setNode s tmp fun n => { n with permissions := 0o777 }, kids, ?_, tree.touch (fun n => rfl)⟩
    simp [fsInit, taken, made', search]

end Operations

section Run

inductive TreeOp where
  | create (path : Bytes) (type : NodeType) (perms : Nat)
  | mkdir (path : Bytes) (perms : Nat)
  | unlink (path : Bytes)
  | rename (src dst : Bytes)
  | registerNode (dir name : Bytes) (type : NodeType) (ops : Option OpsTable) (backing : Option Nat)

def runTree (env : Env) (s : FsState) : TreeOp → Option FsState
  | .create path type perms => (fsCreate env s path type perms).map Prod.snd
  | .mkdir path perms => (fsMkdir env s path perms).map Prod.snd
  | .unlink path => (fsUnlink s path).map Prod.snd
  | .rename src dst => (fsRename env s src dst).map Prod.snd
  | .registerNode dir name type ops backing => (fsRegisterNode env s dir name type ops backing).map Prod.snd

def TreeOpOk (env : Env) (s : FsState) : TreeOp → Prop
  | .rename src dst => RenameOk s src dst
  | .registerNode dir name _ _ _ => RegisterOk env s dir name
  | _ => True

def TreeStart (s : FsState) : Prop := ∃ env envs, fsInit env envs = some s

def TreeStep (s t : FsState) : Prop := ∃ env op, TreeOpOk env s op ∧ runTree env s op = some t

theorem runTree_tree {env : Env} {s : FsState} {kids : NodeId → List NodeId} {op : TreeOp} (tree : Tree s kids)
    (ok : TreeOpOk env s op) : ∃ t kids', runTree env s op = some t ∧ Tree t kids' := by
  cases op with
  | create path type perms =>
    obtain ⟨got, t, kids', run, tree'⟩ := fsCreate_tree env tree path type perms
    exact ⟨t, kids', by simp [runTree, run], tree'⟩
  | mkdir path perms =>
    obtain ⟨code, t, kids', run, tree'⟩ := fsMkdir_tree env tree path perms
    exact ⟨t, kids', by simp [runTree, run], tree'⟩
  | unlink path =>
    obtain ⟨code, t, kids', run, tree'⟩ := fsUnlink_tree tree path
    exact ⟨t, kids', by simp [runTree, run], tree'⟩
  | rename src dst =>
    obtain ⟨code, t, kids', run, tree'⟩ := fsRename_tree env tree ok
    exact ⟨t, kids', by simp [runTree, run], tree'⟩
  | registerNode dir name type ops backing =>
    obtain ⟨got, t, kids', run, tree'⟩ := fsRegisterNode_tree env tree type ops backing ok
    exact ⟨t, kids', by simp [runTree, run], tree'⟩

theorem tree_reached {s : FsState} (reached : Reachable TreeStart TreeStep s) : ∃ kids, Tree s kids := by
  refine reached.induct (fun s => ∃ kids, Tree s kids) ?_ ?_
  · rintro s ⟨env, envs, started⟩
    have memory : env.nodeAlloc = true := by
      cases full : env.nodeAlloc with
      | true => rfl
      | false => simp [fsInit, nodeAlloc, full] at started
    obtain ⟨s', kids, run, tree⟩ := fsInit_tree env envs memory
    cases Option.some.inj (started.symm.trans run)
    exact ⟨kids, tree⟩
  · rintro s t ⟨kids, tree⟩ ⟨env, op, ok, moves⟩
    obtain ⟨t', kids', run, tree'⟩ := runTree_tree tree ok
    cases Option.some.inj (moves.symm.trans run)
    exact ⟨kids', tree'⟩

theorem tree_invariant_reached {s : FsState} (reached : Reachable TreeStart TreeStep s) :
    TreeInvariant s ∧ ∀ env op, TreeOpOk env s op → ∃ t, runTree env s op = some t := by
  obtain ⟨kids, tree⟩ := tree_reached reached
  refine ⟨tree.invariant, ?_⟩
  intro env op ok
  obtain ⟨t, -, run, -⟩ := runTree_tree tree ok
  exact ⟨t, run⟩

/-- A call by the kernel itself, with all the memory it asks for. -/
def bootEnv : Env where
  task := none
  now := 0
  nodeAlloc := true
  fileAlloc := true
  dataAlloc := true
  junk := fun _ => 0
  device := fun _ => []
  log := []
  procText := fun _ => []

theorem tree_invariant_after_mkdir :
    ∃ s t, fsInit bootEnv (fun _ => bootEnv) = some s ∧
      runTree bootEnv s (.mkdir (ascii "/home/user/docs") 0o755) = some t ∧ TreeInvariant t := by
  obtain ⟨s, kids, started, -⟩ := fsInit_tree bootEnv (fun _ => bootEnv) rfl
  have first : Reachable TreeStart TreeStep s := .start ⟨_, _, started⟩
  obtain ⟨t, run⟩ := (tree_invariant_reached first).2 bootEnv (.mkdir (ascii "/home/user/docs") 0o755) trivial
  have second : Reachable TreeStart TreeStep t := .next first ⟨bootEnv, .mkdir _ _, trivial, run⟩
  exact ⟨s, t, started, run, (tree_invariant_reached second).1⟩

/-- Renaming /home to /home/x makes the directory its own parent: no parent link
leads from it to the root any more. -/
theorem rename_into_itself : ¬ ∀ s, Reachable TreeStart (fun s t => ∃ env op, runTree env s op = some t) s →
    TreeInvariant s := by
  intro always
  have run : ((fsInit bootEnv fun _ => bootEnv).bind fun s =>
      (runTree bootEnv s (.rename (ascii "/home") (ascii "/home/x"))).map fun t =>
        (t.root, (t.nodes 5).map FsNode.parent)) = some (1, some (some 5)) := by
    decide +kernel
  obtain ⟨s, started, rest⟩ := Option.bind_eq_some_iff.mp run
  obtain ⟨t, renamed, facts⟩ := Option.map_eq_some_iff.mp rest
  have top : t.root = 1 := congrArg Prod.fst facts
  have loop : parentOf (shapes t) 5 = some 5 := by
    have entry : (t.nodes 5).map FsNode.parent = some (some 5) := congrArg Prod.snd facts
    obtain ⟨n, live, parent⟩ := Option.map_eq_some_iff.mp entry
    simp [parentOf, shapes, live, FsNode.shape, parent]
  have tree := always t (.next (.start ⟨_, _, started⟩) ⟨_, _, renamed⟩)
  have live : ∃ n, t.nodes 5 = some n := by
    cases here : t.nodes 5 with
    | none => simp [parentOf, shapes, here] at loop
    | some n => exact ⟨n, rfl⟩
  obtain ⟨n, here⟩ := live
  have stuck : ∀ c, Above (parentOf (shapes t)) 5 c → c = 5 := by
    intro c up
    induction up with
    | refl => rfl
    | tail _ link same =>
      subst same
      exact (Option.some.inj (loop.symm.trans link)).symm
  have ends := stuck t.root (tree.reaches 5 n here)
  rw [top] at ends
  exact absurd ends (by decide)

end Run

end Qito.Vfs
