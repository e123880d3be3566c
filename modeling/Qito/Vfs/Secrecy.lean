import Qito.Vfs.Access

/-! What one task can learn. hide replaces the bytes of one file by zeros; every
call but a read of that file gives the same reply before and after, so a task
that never gets to read the file cannot tell two contents apart. -/
namespace Qito.Vfs

def wipe (n : FsNode) : FsNode := { n with data := fun _ => 0 }

def hide (x : NodeId) (s : FsState) : FsState := setNode s x wipe

/-- The node c as it appears when x is hidden. -/
def blank (x c : NodeId) (n : FsNode) : FsNode := if c = x then wipe n else n

section Nodes
variable {x : NodeId} {s : FsState}

theorem blank_self : blank x x = wipe := by
  funext n
  rw [blank, if_pos rfl]

theorem blank_other {c : NodeId} (other : c ≠ x) : blank x c = id := by
  funext n
  rw [blank, if_neg other, id]

@[simp] theorem hide_nodes (c : NodeId) : (hide x s).nodes c = (s.nodes c).map (blank x c) := by
  by_cases same : c = x
  · subst c
    simp [hide, setNode, blank_self]
  · simp [hide, setNode, blank_other same, same]

@[simp] theorem hide_root : (hide x s).root = s.root := rfl

@[simp] theorem hide_nextInode : (hide x s).nextInode = s.nextInode := rfl

@[simp] theorem hide_files : (hide x s).files = s.files := rfl

@[simp] theorem hide_nextFile : (hide x s).nextFile = s.nextFile := rfl

@[simp] theorem hide_walkFuel : walkFuel (hide x s) = walkFuel s := rfl

variable (x) (c : NodeId) (n : FsNode)

theorem blank_fields : (blank x c n).name = n.name ∧ (blank x c n).type = n.type ∧ (blank x c n).parent = n.parent ∧
    (blank x c n).children = n.children ∧ (blank x c n).sibling = n.sibling ∧
    (blank x c n).permissions = n.permissions ∧ (blank x c n).uid = n.uid ∧ (blank x c n).gid = n.gid ∧
    (blank x c n).size = n.size ∧ (blank x c n).openCount = n.openCount := by
  rw [blank]
  split
  · exact ⟨rfl, rfl, rfl, rfl, rfl, rfl, rfl, rfl, rfl, rfl⟩
  · exact ⟨rfl, rfl, rfl, rfl, rfl, rfl, rfl, rfl, rfl, rfl⟩

@[simp] theorem blank_name : (blank x c n).name = n.name := (blank_fields x c n).1

@[simp] theorem blank_type : (blank x c n).type = n.type := (blank_fields x c n).2.1

@[simp] theorem blank_parent : (blank x c n).parent = n.parent := (blank_fields x c n).2.2.1

@[simp] theorem blank_children : (blank x c n).children = n.children := (blank_fields x c n).2.2.2.1

@[simp] theorem blank_sibling : (blank x c n).sibling = n.sibling := (blank_fields x c n).2.2.2.2.1

@[simp] theorem blank_size : (blank x c n).size = n.size := (blank_fields x c n).2.2.2.2.2.2.2.2.1

theorem fsCanAccess_blank (env : Env) (flags : Nat) : fsCanAccess env (blank x c n) flags = fsCanAccess env n flags := by
  obtain ⟨-, -, -, -, -, permissions, uid, gid, -⟩ := blank_fields x c n
  simp only [fsCanAccess, classShift, permissions, uid, gid]

theorem hide_setNode {f : FsNode → FsNode} (commutes : ∀ n, f (wipe n) = wipe (f n)) :
    setNode (hide x s) c f = hide x (setNode s c f) := by
  have nodes : (setNode (hide x s) c f).nodes = (hide x (setNode s c f)).nodes := by
    funext k
    rw [hide_nodes]
    by_cases same : k = c
    · subst k
      cases live : s.nodes c with
      | none => simp [setNode, live]
      | some m =>
        by_cases secret : c = x
        · subst c
          simp [setNode, live, blank_self, commutes]
        · simp [setNode, live, blank_other secret]
    · simp [setNode, same]
  exact congrArg (fun ns => { s with nodes := ns }) nodes

end Nodes

section Walks
variable (x : NodeId) (s : FsState)

theorem findSibling_hide (fuel : Nat) (head : Option NodeId) (name : Bytes) :
    findSibling fuel (hide x s) head name = findSibling fuel s head name := by
  induction fuel generalizing head with
  | zero => rfl
  | succ fuel ih =>
    cases head with
    | none => rfl
    | some c =>
      cases live : s.nodes c with
      | none => simp [findSibling, live]
      | some n => simp [findSibling, live, ih]

theorem findChild_hide (d : NodeId) (name : Bytes) : findChild (hide x s) d name = findChild s d name := by
  cases live : s.nodes d with
  | none => simp [findChild, live]
  | some n => simp [findChild, live, findSibling_hide]

theorem lookupFrom_hide (c : NodeId) (ts : List Bytes) : lookupFrom (hide x s) c ts = lookupFrom s c ts := by
  induction ts generalizing c with
  | nil => rfl
  | cons token rest ih =>
    cases live : s.nodes c with
    | none => simp [lookupFrom, ih, live, findChild_hide]
    | some n => simp [lookupFrom, ih, live, findChild_hide]

theorem fsLookup_hide (path : Bytes) : fsLookup (hide x s) path = fsLookup s path :=
  lookupFrom_hide x s s.root _

theorem resolveParent_hide (path : Bytes) : resolveParent (hide x s) path = resolveParent s path := by
  simp only [resolveParent, fsLookup_hide, hide_root]

theorem lastSibling_hide (fuel : Nat) (c : NodeId) : lastSibling fuel (hide x s) c = lastSibling fuel s c := by
  induction fuel generalizing c with
  | zero => rfl
  | succ fuel ih =>
    cases live : s.nodes c with
    | none => simp [lastSibling, live]
    | some n => simp [lastSibling, live, ih]

theorem nodeLink_hide (d c : NodeId) : nodeLink (hide x s) d c = (nodeLink s d c).map (hide x) := by
  have first : setNode (hide x s) c (fun n => { n with parent := some d }) =
      hide x (setNode s c fun n => { n with parent := some d }) := hide_setNode x c (fun n => rfl)
  simp only [nodeLink, first]
  generalize setNode s c (fun n => { n with parent := some d }) = moved
  cases live : moved.nodes d with
  | none => simp [live]
  | some n =>
    cases children : n.children with
    | none =>
      simp only [hide_nodes, live, Option.map_some, Option.bind_eq_bind, Option.bind_some, blank_children, children]
      exact congrArg some (hide_setNode x d (fun n => rfl))
    | some entry =>
      simp only [hide_nodes, live, Option.map_some, Option.bind_eq_bind, Option.bind_some, blank_children, children,
        hide_walkFuel, lastSibling_hide]
      cases lastSibling (walkFuel moved) moved entry with
      | none => rfl
      | some last => exact congrArg some (hide_setNode x last (fun n => rfl))

end Walks

section Calls
variable (x : NodeId) (env : Env) (s : FsState)

theorem nodeAlloc_hide (name : Bytes) (type : NodeType) (perms : Nat) :
    nodeAlloc env (hide x s) name type perms = Prod.map id (hide x) (nodeAlloc env s name type perms) := by
  cases memory : env.nodeAlloc with
  | false => simp [nodeAlloc, memory]
  | true =>
    have nodes : Function.update (hide x s).nodes s.nextInode (some (freshNode env name type perms)) =
        (hide x { s with nodes := Function.update s.nodes s.nextInode (some (freshNode env name type perms)) }).nodes := by
      funext c
      rw [hide_nodes]
      by_cases same : c = s.nextInode
      · subst c
        by_cases secret : s.nextInode = x
        · subst x
          simp only [Function.update_self, blank_self, Option.map_some]
          rfl
        · simp [blank_other secret]
      · simp [same]
    simp only [nodeAlloc, memory, if_true, hide_nextInode, Prod.map, id]
    exact congrArg (fun ns => (some s.nextInode, { s with nodes := ns, nextInode := s.nextInode + 1 })) nodes

theorem owned_wipe (n : FsNode) : owned env (wipe n) = wipe (owned env n) := by
  cases task : env.task with
  | none => simp [owned, task]
  | some cred => simp [owned, task, wipe]

theorem fsCreate_hide (path : Bytes) (type : NodeType) (perms : Nat) :
    fsCreate env (hide x s) path type perms = (fsCreate env s path type perms).map (Prod.map id (hide x)) := by
  simp only [fsCreate, resolveParent_hide, findChild_hide, nodeAlloc_hide, hide_nodes]
  cases resolveParent s path with
  | none => rfl
  | some parts =>
    obtain ⟨dir, name⟩ := parts
    cases dir with
    | none => rfl
    | some d =>
      simp only [Option.bind_eq_bind, Option.bind_some]
      cases s.nodes d with
      | none => rfl
      | some n =>
        simp only [Option.map_some, Option.bind_some, blank_type]
        by_cases refused : n.type ≠ .dir ∨ name = []
        · simp only [if_pos refused]
          rfl
        simp only [if_neg refused]
        cases findChild s d name with
        | none => rfl
        | some found =>
          simp only [Option.bind_some]
          cases found with
          | some c => rfl
          | none =>
            rcases nodeAlloc env s name type perms with ⟨_ | new, s₁⟩
            · rfl
            · simp only [Prod.map, id, Option.isSome_none, Bool.false_eq_true, if_false,
                hide_setNode x new (owned_wipe env), nodeLink_hide]
              cases nodeLink (setNode s₁ new (owned env)) d new with
              | none => rfl
              | some s₂ =>
                exact congrArg (fun t => some (some new, t)) (hide_setNode x d (fun n => rfl))

theorem openTarget_hide (path : Bytes) (flags : Nat) :
    openTarget env (hide x s) path flags = (openTarget env s path flags).map (Prod.map id (hide x)) := by
  simp only [openTarget, fsLookup_hide, fsCreate_hide]
  cases fsLookup s path with
  | none => rfl
  | some found =>
    simp only [Option.bind_eq_bind, Option.bind_some]
    cases found with
    | none =>
      simp only
      split
      · rfl
      · rfl
    | some id =>
      simp only
      split
      · rfl
      · rfl

theorem truncated_wipe (flags : Nat) (n : FsNode) : truncated flags (wipe n) = wipe (truncated flags n) := by
  by_cases both : (has flags oTrunc && decide (n.type = .file)) = true
  · rw [truncated, truncated, if_pos both]
    exact if_pos both
  · rw [truncated, truncated, if_neg both]
    exact if_neg both

theorem truncated_blank (flags : Nat) (c : NodeId) (n : FsNode) :
    truncated flags (blank x c n) = blank x c (truncated flags n) := by
  by_cases secret : c = x
  · subst c
    rw [blank_self, truncated_wipe]
  · rw [blank_other secret, id, id]

theorem putNode_hide (c : NodeId) (n : FsNode) : putNode (hide x s) c (blank x c n) = hide x (putNode s c n) := by
  have nodes : (putNode (hide x s) c (blank x c n)).nodes = (hide x (putNode s c n)).nodes := by
    funext k
    rw [hide_nodes]
    by_cases same : k = c
    · subst k
      cases live : s.nodes c with
      | none => simp [putNode, setNode, live]
      | some m => simp [putNode, setNode, live]
    · simp [putNode, setNode, same]
  exact congrArg (fun ns => { s with nodes := ns }) nodes

theorem openNode_hide (c : NodeId) (flags : Nat) :
    openNode env (hide x s) c flags = (openNode env s c flags).map (Prod.map id (hide x)) := by
  simp only [openNode, hide_nodes]
  cases s.nodes c with
  | none => rfl
  | some n =>
    simp only [Option.map_some, Option.bind_eq_bind, Option.bind_some, blank_type, fsCanAccess_blank,
      truncated_blank, putNode_hide, blank_size]
    by_cases dirOnly : (has flags oDir && decide (n.type ≠ .dir)) = true
    · simp only [if_pos dirOnly]
      rfl
    by_cases dirWrite : (decide (n.type = .dir) && has flags oWronly) = true
    · simp only [if_neg dirOnly, if_pos dirWrite]
      rfl
    by_cases denied : (!fsCanAccess env n flags) = true
    · simp only [if_neg dirOnly, if_neg dirWrite, if_pos denied]
      rfl
    by_cases memory : (!env.fileAlloc) = true
    · simp only [if_neg dirOnly, if_neg dirWrite, if_neg denied, if_pos memory]
      rfl
    simp only [if_neg dirOnly, if_neg dirWrite, if_neg denied, if_neg memory]
    rw [hide_setNode]
    · rfl
    · exact fun m => rfl

theorem fsOpen_hide (path : Bytes) (flags : Nat) :
    fsOpen env (hide x s) path flags = (fsOpen env s path flags).map (Prod.map id (hide x)) := by
  simp only [fsOpen, openTarget_hide]
  cases openTarget env s path flags with
  | none => rfl
  | some target =>
    obtain ⟨_ | c, s₁⟩ := target
    · rfl
    · exact openNode_hide x env s₁ c flags

theorem fsSeek_hide (h : FileId) (offset : Int) (origin : Origin) :
    fsSeek (hide x s) h offset origin = (fsSeek s h offset origin).map (Prod.map id (hide x)) := by
  have moved (target : Int) : (if target < 0 then (-qeInval, hide x s)
      else (target, setFile (hide x s) h fun f => { f with offset := target.toNat })) =
      Prod.map id (hide x) (if target < 0 then (-qeInval, s)
        else (target, setFile s h fun f => { f with offset := target.toNat })) := by
    split
    · rfl
    · rfl
  simp only [fsSeek, hide_files, hide_nodes]
  cases s.files h with
  | none => rfl
  | some f =>
    simp only [Option.bind_eq_bind, Option.bind_some]
    cases s.nodes f.node with
    | none => rfl
    | some n =>
      simp only [Option.map_some, Option.bind_some, blank_size]
      cases origin with
      | set => exact congrArg some (moved _)
      | cur => exact congrArg some (moved _)
      | fromEnd => exact congrArg some (moved _)
      | other => rfl

theorem fsClose_hide (h : FileId) : fsClose (hide x s) h = (fsClose s h).map (hide x) := by
  simp only [fsClose, hide_files, hide_nodes]
  cases s.files h with
  | none => rfl
  | some f =>
    simp only [Option.bind_eq_bind, Option.bind_some]
    split
    · rfl
    cases s.nodes f.node with
    | none => rfl
    | some n =>
      simp only [Option.map_some, Option.bind_some]
      rw [hide_setNode]
      · rfl
      · exact fun m => rfl

theorem fsRead_hide (h : FileId) (len : Nat)
    (apart : ∀ f, s.files h = some f → f.node = x → f.flags &&& oRdwr = oWronly) :
    fsRead env (hide x s) h len = (fsRead env s h len).map fun r => (r.1, r.2.1, hide x r.2.2) := by
  simp only [fsRead, hide_files, hide_nodes]
  cases handle : s.files h with
  | none => rfl
  | some f =>
    simp only [Option.bind_eq_bind, Option.bind_some]
    by_cases refused : f.flags &&& oRdwr = oWronly
    · simp only [if_pos refused]
      rfl
    have other : f.node ≠ x := fun same => refused (apart f handle same)
    simp only [if_neg refused, blank_other other, Option.map_id_fun, id]
    cases s.nodes f.node with
    | none => rfl
    | some n =>
      simp only [Option.bind_some]
      cases refresh env f.node n with
      | none => rfl
      | some n =>
        have put : putNode (hide x s) f.node n = hide x (putNode s f.node n) := by
          have same := putNode_hide x s f.node n
          rwa [blank_other other] at same
        simp only [Option.bind_some, put]
        generalize putNode s f.node n = t
        cases opsRead env n f.offset len with
        | some got =>
          cases got with
          | none => rfl
          | some got =>
            simp only [Option.bind_some]
            split
            · rfl
            · rfl
        | none =>
          simp only
          split
          · rfl
          cases readData n f.offset len with
          | none => rfl
          | some got =>
            simp only [Option.bind_some]
            split
            · rfl
            · rw [show setFile (hide x t) h _ = hide x (setFile t h _) from rfl, hide_setNode]
              · rfl
              · exact fun m => rfl

end Calls

section Sessions

def hideSession (x : NodeId) (σ : Session) : Session := { σ with fs := hide x σ.fs }

def Call.isWrite : Call → Prop
  | .write _ _ => True
  | _ => False

/-- fs_read is not asked to read x through a handle opened with neither access bit. -/
def ReadOk (x : NodeId) (σ : Session) : Call → Prop
  | .read h _ => h ∈ σ.mine → ∀ f, σ.fs.files h = some f → f.node = x →
      has f.flags oRdonly = true ∨ has f.flags oWronly = true
  | _ => True

/-- The replies to a list of calls; the last one is none if that call does not return. -/
def trace : Session → List (Env × Call) → List (Option Reply)
  | _, [] => []
  | σ, (env, call) :: rest =>
    match perform env σ call with
    | none => [none]
    | some (reply, τ) => some reply :: trace τ rest

/-- Every read of a run is one that ReadOk allows. -/
def ReadsOk (x : NodeId) : Session → List (Env × Call) → Prop
  | _, [] => True
  | σ, (env, call) :: rest =>
    ReadOk x σ call ∧ ∀ reply τ, perform env σ call = some (reply, τ) → ReadsOk x τ rest

variable {x : NodeId} {env : Env} {σ τ : Session} {reply : Reply} {call : Call}

theorem perform_hide (reader : ¬ call.isWrite)
    (apart : ∀ h len, call = .read h len → h ∈ σ.mine →
      ∀ f, σ.fs.files h = some f → f.node = x → f.flags &&& oRdwr = oWronly) :
    perform env (hideSession x σ) call = (perform env σ call).map (Prod.map id (hideSession x)) := by
  cases call with
  | «open» path flags =>
    simp only [perform, hideSession, fsOpen_hide]
    cases fsOpen env σ.fs path flags with
    | none => rfl
    | some result => rfl
  | read h len =>
    by_cases held : h ∈ σ.mine
    · simp only [perform, hideSession, if_pos held, fsRead_hide x env σ.fs h len (apart h len rfl held)]
      cases fsRead env σ.fs h len with
      | none => rfl
      | some result => rfl
    · simp [perform, hideSession, held]
  | write h buf => exact absurd trivial reader
  | seek h offset origin =>
    by_cases held : h ∈ σ.mine
    · simp only [perform, hideSession, if_pos held, fsSeek_hide]
      cases fsSeek σ.fs h offset origin with
      | none => rfl
      | some result => rfl
    · simp [perform, hideSession, held]
  | close h =>
    by_cases held : h ∈ σ.mine
    · simp only [perform, hideSession, if_pos held, fsClose_hide]
      cases fsClose σ.fs h with
      | none => rfl
      | some result => rfl
    · simp [perform, hideSession, held]

theorem only_write {flags : Nat} (noRead : has flags oRdonly = false) (write : has flags oWronly = true) :
    flags &&& oRdwr = oWronly := by
  have split : flags &&& oRdwr = (flags &&& oRdonly) ||| (flags &&& oWronly) := Nat.and_or_distrib_left flags 1 2
  have low : flags &&& oRdonly = 0 := by simpa [has] using noRead
  have high : flags &&& oWronly = oWronly := by
    have bit : flags &&& 2 ^ 1 = (flags.testBit 1).toNat * 2 ^ 1 := Nat.and_two_pow flags 1
    have nonzero : flags &&& 2 ^ 1 ≠ 0 := by simpa [has] using write
    cases test : flags.testBit 1 with
    | false =>
      rw [test] at bit
      exact absurd bit nonzero
    | true =>
      rw [test] at bit
      exact bit
  rw [split, low, high]
  rfl

/-- The task holds no handle that reads x. -/
structure Locked (cred : Cred) (x : NodeId) (σ : Session) : Prop where
  fresh : Fresh σ.fs
  node : ∃ n, σ.fs.nodes x = some n ∧ mayRead cred n = false
  handles : Unheld oRdonly x σ

theorem truncated_owner (flags : Nat) (n : FsNode) : (truncated flags n).body.SameOwner n.body := by
  rw [truncated]
  split
  · exact ⟨rfl, rfl, rfl, rfl⟩
  · exact .refl _

theorem perform_owner {n : FsNode} (run : perform env σ call = some (reply, τ)) (reader : ¬ call.isWrite)
    (fresh : Fresh σ.fs) (live : σ.fs.nodes x = some n) :
    ∃ m, τ.fs.nodes x = some m ∧ m.body.SameOwner n.body := by
  have kept {s : FsState} (same : bodies s x = some n.body) : ∃ m, s.nodes x = some m ∧ m.body.SameOwner n.body := by
    obtain ⟨m, here, body⟩ := live_of_body same
    exact ⟨m, here, by rw [body]; exact .refl _⟩
  have changed {s : FsState} {id : NodeId} {k : FsNode} {b : Body} (here : σ.fs.nodes id = some k)
      (owner : b.SameOwner k.body) (table : bodies s = Function.update (bodies σ.fs) id (some b)) :
      ∃ m, s.nodes x = some m ∧ m.body.SameOwner n.body := by
    by_cases same : x = id
    · subst id
      cases Option.some.inj (live.symm.trans here)
      obtain ⟨m, there, body⟩ := live_of_body (by rw [table, Function.update_self] : bodies s x = some b)
      exact ⟨m, there, by rw [body]; exact owner⟩
    · exact kept (by rw [table, Function.update_of_ne same]; exact bodies_live live)
  have older : x ≠ σ.fs.nextInode := Nat.ne_of_lt (fresh x n live)
  cases perform_cases run with
  | opened opens =>
    rcases fsOpen_cases opens with ⟨-, rfl⟩ | ⟨id, k, -, -, here, -, opened⟩ |
      ⟨s₁, k, -, -, created, -, -, ⟨-, rfl⟩ | ⟨-, opened⟩⟩
    · exact kept (bodies_live live)
    · exact changed here (truncated_owner _ k) opened.table
    · exact kept (by rw [created.table, Function.update_of_ne older]; exact bodies_live live)
    · refine kept ?_
      rw [opened.table, Function.update_of_ne older, created.table, Function.update_of_ne older]
      exact bodies_live live
  | read _ reads =>
    obtain ⟨f, -, -, -, -, -, same | ⟨k, b, here, owner, table⟩⟩ := fsRead_cases reads
    · exact kept (by rw [same]; exact bodies_live live)
    · exact changed here owner table
  | written => exact absurd trivial reader
  | sought _ seeks =>
    obtain ⟨f, -, nodes, -⟩ := fsSeek_cases seeks
    exact kept (bodies_live (by rw [nodes]; exact live))
  | closed _ closes =>
    obtain ⟨same, -⟩ := fsClose_cases closes
    exact kept (by rw [same]; exact bodies_live live)
  | refused => exact kept (bodies_live live)

theorem Locked.step {cred : Cred} (user : cred.uid ≠ 0) (task : env.task = some cred) (reader : ¬ call.isWrite)
    (locked : Locked cred x σ) (run : perform env σ call = some (reply, τ)) : Locked cred x τ := by
  obtain ⟨n, live, denied⟩ := locked.node
  have refused : ∀ flags, fsCanAccess env n flags = true → has flags oRdonly = false :=
    fun flags => read_denied task user denied
  obtain ⟨m, here, owner⟩ := perform_owner run reader locked.fresh live
  exact ⟨perform_fresh run locked.fresh, ⟨m, here, (mayRead_owner owner).trans denied⟩,
    perform_unheld run locked.fresh live refused locked.handles⟩

theorem trace_hide {cred : Cred} (user : cred.uid ≠ 0) (calls : List (Env × Call))
    (tasks : ∀ c ∈ calls, c.1.task = some cred) (readers : ∀ c ∈ calls, ¬ c.2.isWrite)
    (locked : Locked cred x σ) (alike : hideSession x σ = hideSession x τ) (ok : ReadsOk x σ calls) :
    trace σ calls = trace τ calls := by
  induction calls generalizing σ τ with
  | nil => rfl
  | cons first rest ih =>
    obtain ⟨env, call⟩ := first
    have task : env.task = some cred := tasks _ List.mem_cons_self
    have reader : ¬ call.isWrite := readers _ List.mem_cons_self
    have files : σ.fs.files = τ.fs.files := congrArg (fun σ => σ.fs.files) alike
    have mine : σ.mine = τ.mine := congrArg (fun σ => σ.mine) alike
    -- a handle on x has no read bit, so what ReadOk leaves has the write bit alone
    have apart : ∀ h len, call = .read h len → h ∈ σ.mine →
        ∀ f, σ.fs.files h = some f → f.node = x → f.flags &&& oRdwr = oWronly := by
      rintro h len rfl held f handle target
      obtain ⟨-, g, here, noRead⟩ := locked.handles h held
      cases Option.some.inj (handle.symm.trans here)
      rcases ok.1 held f handle target with read | write
      · rw [noRead target] at read
        exact absurd read (by decide)
      · exact only_write (noRead target) write
    have left : perform env (hideSession x σ) call = (perform env σ call).map (Prod.map id (hideSession x)) :=
      perform_hide reader apart
    have right : perform env (hideSession x τ) call = (perform env τ call).map (Prod.map id (hideSession x)) := by
      refine perform_hide reader ?_
      rw [← files, ← mine]
      exact apart
    rw [alike, right] at left
    cases runσ : perform env σ call with
    | none =>
      rw [runσ, Option.map_none, Option.map_eq_none_iff] at left
      simp [trace, runσ, left]
    | some result =>
      obtain ⟨reply, σ'⟩ := result
      rw [runσ, Option.map_some, Option.map_eq_some_iff] at left
      obtain ⟨⟨reply', τ'⟩, runτ, same⟩ := left
      obtain ⟨rfl, alike'⟩ := Prod.mk.inj same
      simp only [trace, runσ, runτ, List.cons.injEq]
      refine ⟨rfl, ih (fun c member => tasks c (List.mem_cons_of_mem _ member))
        (fun c member => readers c (List.mem_cons_of_mem _ member)) (locked.step user task reader runσ) alike'.symm
        (ok.2 _ _ runσ)⟩

/-- A task that may not read the file x gets the same replies whatever
bytes x holds, if no read of x goes through a handle without access bits. -/
theorem read_confidentiality {cred : Cred} (user : cred.uid ≠ 0) {s : FsState} (fresh : Fresh s) {n : FsNode}
    (live : s.nodes x = some n) (denied : mayRead cred n = false) (secret : Nat → UInt8)
    (calls : List (Env × Call)) (tasks : ∀ c ∈ calls, c.1.task = some cred) (readers : ∀ c ∈ calls, ¬ c.2.isWrite)
    (ok : ReadsOk x { fs := s, mine := [] } calls) :
    trace { fs := setNode s x fun n => { n with data := secret }, mine := [] } calls =
      trace { fs := s, mine := [] } calls := by
  have locked : Locked cred x { fs := s, mine := [] } := ⟨fresh, ⟨n, live, denied⟩, by simp [Unheld]⟩
  have alike : hide x s = hide x (setNode s x fun n => { n with data := secret }) := by
    have nodes : (hide x s).nodes = (hide x (setNode s x fun n => { n with data := secret })).nodes := by
      funext c
      by_cases same : c = x
      · subst c
        simp [setNode, live, blank_self, wipe]
      · simp [setNode, same]
    exact congrArg (fun ns => { s with nodes := ns }) nodes
  have sessions : hideSession x { fs := s, mine := [] } =
      hideSession x { fs := setNode s x fun n => { n with data := secret }, mine := [] } := by
    simp only [hideSession, alike]
  exact (trace_hide user calls tasks readers locked sessions ok).symm

/-- The kernel writes hello to /etc/shadow, which others may write but not read. -/
def writeShadow (s : FsState) : Option Session := do
  let (_, s) ← fsCreate bootEnv s (ascii "/etc/shadow") .file 0o602
  let (_, σ) ← perform bootEnv { fs := s, mine := [] } (.open (ascii "/etc/shadow") oWronly)
  let (_, σ) ← perform bootEnv σ (.write 0 (ascii "hello"))
  return σ

/-- The filesystem after boot with /etc/shadow as inode 15. -/
def shadow : Option Session := (fsInit bootEnv fun _ => bootEnv).bind writeShadow

theorem shadow_fresh (boot : shadow = some σ) : Fresh σ.fs := by
  rw [shadow] at boot
  obtain ⟨s, started, run⟩ := Option.bind_eq_some_iff.mp boot
  obtain ⟨s', kids, started', tree⟩ := fsInit_tree bootEnv (fun _ => bootEnv) rfl
  obtain rfl : s = s' := Option.some.inj (started.symm.trans started')
  rw [writeShadow] at run
  obtain ⟨⟨got, s₁⟩, creates, rest⟩ := Option.bind_eq_some_iff.mp run
  obtain ⟨got', s₁', kids', creates', tree'⟩ := fsCreate_tree bootEnv tree (ascii "/etc/shadow") .file 0o602
  obtain ⟨-, rfl⟩ := Prod.mk.inj (Option.some.inj (creates.symm.trans creates'))
  have first : Fresh s₁ := fun c n live => tree'.fresh c n.shape (shapes_live live)
  obtain ⟨⟨r₁, σ₁⟩, opens, rest⟩ := Option.bind_eq_some_iff.mp rest
  obtain ⟨⟨r₂, σ₂⟩, writes, rest⟩ := Option.bind_eq_some_iff.mp rest
  cases Option.some.inj rest
  exact perform_fresh writes (perform_fresh opens first)

theorem readsOk_of_writer {s : FsState} {path : Bytes} {flags len : Nat} {h : FileId} (fresh : Fresh s)
    (write : has flags oWronly = true) :
    ReadsOk x { fs := s, mine := [] } [(env, .open path flags), (env, .read h len)] := by
  refine ⟨trivial, fun reply τ run => ⟨?_, fun _ _ _ => trivial⟩⟩
  intro held f handle _
  cases perform_cases run with
  | opened opens =>
    rcases fsOpen_handle opens fresh with ⟨rfl, -⟩ | ⟨g, rfl, -, files, rfl, -⟩
    · simp at held
    · obtain rfl : h = s.nextFile := by simpa using held
      rw [files, Function.update_self] at handle
      cases Option.some.inj handle
      exact Or.inr write
  | refused => simp at held

theorem read_confidentiality_of_shadow :
    ∃ σ₀ n, shadow = some σ₀ ∧ σ₀.fs.nodes 15 = some n ∧ n.contents = ascii "hello" ∧ ∀ secret,
      trace { fs := setNode σ₀.fs 15 fun n => { n with data := secret }, mine := [] }
          [(guestEnv, .open (ascii "/etc/shadow") oWronly), (guestEnv, .read 1 5)] =
        trace { fs := σ₀.fs, mine := [] }
          [(guestEnv, .open (ascii "/etc/shadow") oWronly), (guestEnv, .read 1 5)] := by
  have boot : (shadow.bind fun σ => (σ.fs.nodes 15).map fun n => (n.contents, mayRead guest n)) =
      some (ascii "hello", false) := by
    decide +kernel
  obtain ⟨σ₀, started, rest⟩ := Option.bind_eq_some_iff.mp boot
  obtain ⟨n, live, facts⟩ := Option.map_eq_some_iff.mp rest
  obtain ⟨bytes, denied⟩ := Prod.mk.inj facts
  refine ⟨σ₀, n, started, live, bytes, fun secret => ?_⟩
  have fresh := shadow_fresh started
  exact read_confidentiality (by decide : guest.uid ≠ 0) fresh live denied secret _ (by simp [guestEnv])
    (by simp [Call.isWrite]) (readsOk_of_writer fresh (by decide))

/-- The guest opens /etc/shadow with the flag word 0 and reads it. -/
def flagless : List (Env × Call) := [(guestEnv, .open (ascii "/etc/shadow") 0), (guestEnv, .read 1 5)]

example : (shadow.map fun σ => σ.fs.nextInode) = some 16 := by decide +kernel

theorem flagless_handle_reads :
    ¬ ∀ (cred : Cred) (s : FsState) (x : NodeId) (n : FsNode) (secret : Nat → UInt8) (calls : List (Env × Call)),
      cred.uid ≠ 0 → Fresh s → s.nodes x = some n → n.type = .file → mayRead cred n = false →
      (∀ c ∈ calls, c.1.task = some cred) → (∀ c ∈ calls, ¬ c.2.isWrite) →
      trace { fs := setNode s x fun n => { n with data := secret }, mine := [] } calls =
        trace { fs := s, mine := [] } calls := by
  intro always
  have attack : (shadow.bind fun σ => (σ.fs.nodes 15).map fun n => (n.type, mayRead guest n,
      trace { fs := setNode σ.fs 15 fun n => { n with data := fun _ => 0 }, mine := [] } flagless,
      trace { fs := σ.fs, mine := [] } flagless)) =
      some (.file, false, [some (.handle (some 1)), some (.code 5 [0, 0, 0, 0, 0])],
        [some (.handle (some 1)), some (.code 5 (ascii "hello"))]) := by
    decide +kernel
  obtain ⟨σ₀, started, rest⟩ := Option.bind_eq_some_iff.mp attack
  obtain ⟨n, live, facts⟩ := Option.map_eq_some_iff.mp rest
  simp only [Prod.mk.injEq] at facts
  obtain ⟨type, denied, zeros, hello⟩ := facts
  have same := always guest σ₀.fs 15 n (fun _ => 0) flagless (by decide) (shadow_fresh started) live type
    denied (by simp [flagless, guestEnv]) (by simp [flagless, Call.isWrite])
  rw [zeros, hello] at same
  exact absurd same (by decide)

end Sessions

end Qito.Vfs
