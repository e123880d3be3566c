import Qito.Vfs.WholeFile

/-! What a failed fs_open or fs_write_file leaves behind. The new file and the
truncation come before the O_DIR check of a new file, the memory for the handle
and the memory for the bytes, and none of them is undone. -/
namespace Qito.Vfs
open Words

/-- No node was added, freed or moved, and each holds the bytes it held. -/
def SameFiles (s t : FsState) : Prop :=
  shapes t = shapes s ∧ ∀ id, (t.nodes id).map (fun n => (n.size, n.contents)) =
    (s.nodes id).map fun n => (n.size, n.contents)

/-- fs_create makes a node at the path. -/
def Creatable (env : Env) (s : FsState) (path : Bytes) : Prop :=
  ∃ d nd name, resolveParent s path = some (some d, name) ∧ s.nodes d = some nd ∧ nd.type = .dir ∧ name ≠ [] ∧
    findChild s d name = some none ∧ env.nodeAlloc = true

/-- fs_open makes a new file. -/
def Creates (env : Env) (s : FsState) (path : Bytes) (flags : Nat) : Prop :=
  fsLookup s path = some none ∧ has flags oCreate = true ∧ Creatable env s path

/-- fs_open empties a file that has bytes. -/
def Cuts (env : Env) (s : FsState) (path : Bytes) (flags : Nat) (n : FsNode) : Prop :=
  ∃ id, fsLookup s path = some (some id) ∧ s.nodes id = some n ∧ (has flags oExcl && has flags oCreate) = false ∧
    Admitted env n flags ∧ has flags oTrunc = true ∧ n.type = .file ∧ n.size ≠ 0

section Files
variable {env : Env} {s t u : FsState} {id : NodeId} {n : FsNode} {flags : Nat}

theorem Fresh.unused (fresh : Fresh s) : s.nodes s.nextInode = none := by
  cases here : s.nodes s.nextInode with
  | none => rfl
  | some k => exact absurd (fresh _ k here) (Nat.lt_irrefl _)

theorem Cuts.facts {path : Bytes} {k : FsNode} (cuts : Cuts env s path flags k) (search : fsLookup s path = some (some id))
    (live : s.nodes id = some n) : k = n ∧ Admitted env n flags ∧ has flags oTrunc = true ∧ n.type = .file ∧ n.size ≠ 0 := by
  obtain ⟨id', found, live', -, facts⟩ := cuts
  cases Option.some.inj (Option.some.inj (search.symm.trans found))
  cases Option.some.inj (live.symm.trans live')
  exact ⟨rfl, facts⟩

theorem SameFiles.refl (s : FsState) : SameFiles s s := ⟨rfl, fun _ => rfl⟩

theorem sameFiles_of_bodies (shape : shapes t = shapes s) (table : bodies t = bodies s) : SameFiles s t := by
  refine ⟨shape, fun c => ?_⟩
  have body : (t.nodes c).map FsNode.body = (s.nodes c).map FsNode.body := congrFun table c
  have same := congrArg (Option.map fun b : Body => (b.size, b.contents)) body
  simp only [Option.map_map] at same
  cases here : t.nodes c with
  | none =>
    rw [here] at same
    cases there : s.nodes c with
    | none => rfl
    | some n =>
      rw [there] at same
      cases same
  | some m =>
    rw [here] at same
    cases there : s.nodes c with
    | none =>
      rw [there] at same
      cases same
    | some n =>
      rw [there] at same
      have equal : (m.size, m.body.contents) = (n.size, n.body.contents) := Option.some.inj same
      rw [Option.map_some, Option.map_some, contents_node, contents_node, equal]

theorem SameFiles.trans_bodies (shape : shapes u = shapes t) (table : bodies u = bodies t) :
    SameFiles s u ↔ SameFiles s t := by
  obtain ⟨-, same⟩ := sameFiles_of_bodies shape table
  rw [SameFiles, SameFiles, shape]
  refine and_congr_right fun _ => forall_congr' fun c => ?_
  rw [same]

theorem not_sameFiles (dead : s.nodes id = none) (live : t.nodes id = some n) : ¬ SameFiles s t := by
  rintro ⟨shape, -⟩
  have here := congrFun shape id
  simp [shapes, dead, live] at here

theorem sameFiles_truncated (live : s.nodes id = some n) (shape : shapes t = shapes s)
    (table : bodies t = Function.update (bodies s) id (some (truncated flags n).body)) :
    SameFiles s t ↔ ¬ (has flags oTrunc = true ∧ n.type = .file ∧ n.size ≠ 0) := by
  have still : bodies s = Function.update (bodies s) id (some n.body) := by
    rw [← bodies_live live]
    exact (Function.update_eq_self id (bodies s)).symm
  by_cases cut : (has flags oTrunc && decide (n.type = .file)) = true
  · rw [truncated, if_pos cut] at table
    rw [Bool.and_eq_true, decide_eq_true_eq] at cut
    by_cases empty : n.size = 0
    · have same : { n with size := 0 } = n := by rw [← empty]
      rw [same, ← still] at table
      exact ⟨fun _ both => both.2.2 empty, fun _ => sameFiles_of_bodies shape table⟩
    · refine ⟨?_, fun kept => absurd ⟨cut.1, cut.2, empty⟩ kept⟩
      rintro ⟨-, same⟩
      have body : bodies t id = some { n with size := 0 }.body := by
        rw [table]
        exact Function.update_self ..
      obtain ⟨m, here, eq⟩ := live_of_body body
      have size : m.size = 0 := congrArg Body.size eq
      have both := same id
      rw [here, live] at both
      have sizes : m.size = n.size := congrArg Prod.fst (Option.some.inj both)
      exact absurd (sizes.symm.trans size) empty
  · rw [truncated, if_neg cut, ← still] at table
    rw [Bool.and_eq_true, decide_eq_true_eq] at cut
    exact ⟨fun _ both => cut ⟨both.1, both.2.1⟩, fun _ => sameFiles_of_bodies shape table⟩

end Files

section Opening
variable {env : Env} {s t : FsState} {id : NodeId} {n : FsNode} {flags : Nat} {path : Bytes}

theorem fsCreate_creatable {type : NodeType} {perms : Nat} {got : Option NodeId}
    (run : fsCreate env s path type perms = some (got, t)) :
    (got = none ∧ t = s ∧ ¬ Creatable env s path) ∨ (got = some s.nextInode ∧ Creatable env s path) := by
  obtain ⟨⟨dir, name⟩, resolved, rest⟩ := Option.bind_eq_some_iff.mp run
  cases dir with
  | none =>
    cases Option.some.inj rest
    refine Or.inl ⟨rfl, rfl, fun able => ?_⟩
    obtain ⟨d, nd, name', resolved', -⟩ := able
    rw [resolved] at resolved'
    cases resolved'
  | some d =>
    obtain ⟨nd, live, rest⟩ := Option.bind_eq_some_iff.mp rest
    -- a node could only be made in this directory, under this name
    have only (able : Creatable env s path) : nd.type = .dir ∧ name ≠ [] ∧ findChild s d name = some none ∧
        env.nodeAlloc = true := by
      obtain ⟨d', nd', name', resolved', live', facts⟩ := able
      rw [resolved] at resolved'
      cases Option.some.inj resolved'
      cases Option.some.inj (live.symm.trans live')
      exact facts
    split at rest
    · rename_i refused
      cases Option.some.inj rest
      refine Or.inl ⟨rfl, rfl, fun able => ?_⟩
      obtain ⟨dir, named, -⟩ := only able
      exact refused.elim (fun other => other dir) named
    rename_i allowed
    obtain ⟨found, search, rest⟩ := Option.bind_eq_some_iff.mp rest
    split at rest
    · rename_i taken
      cases Option.some.inj rest
      refine Or.inl ⟨rfl, rfl, fun able => ?_⟩
      obtain ⟨-, -, free, -⟩ := only able
      rw [search] at free
      cases Option.some.inj free
      cases taken
    rename_i free
    cases memory : env.nodeAlloc with
    | false =>
      simp only [nodeAlloc, memory] at rest
      cases Option.some.inj rest
      refine Or.inl ⟨rfl, rfl, fun able => ?_⟩
      have paid := (only able).2.2.2
      rw [memory] at paid
      cases paid
    | true =>
      rw [nodeAlloc_grown name type perms memory] at rest
      obtain ⟨linked, link, rest⟩ := Option.bind_eq_some_iff.mp rest
      cases Option.some.inj rest
      have absent : found = none := by simpa using free
      obtain ⟨dir, named⟩ := not_or.mp allowed
      exact Or.inr ⟨rfl, d, nd, name, resolved, live, not_not.mp dir, named, absent ▸ search, memory⟩

theorem newBody_admitted (body : n.body = newBody env) (plain : has flags oDir = false) : Admitted env n flags := by
  have type : n.type = .file := by
    rw [← show n.body.type = n.type from rfl, body, newBody, owned]
    split
    · rfl
    · rfl
  refine ⟨fun asked => ?_, fun dir => ?_, ?_⟩
  · rw [plain] at asked
    cases asked
  · rw [type] at dir
    cases dir
  · have permissions : n.permissions = 0o644 := by
      rw [← show n.body.permissions = n.permissions from rfl, body, newBody, owned]
      split
      · rfl
      · rfl
    unfold fsCanAccess
    cases task : env.task with
    | none => rfl
    | some cred =>
      have owner : n.uid = cred.uid := by
        rw [← show n.body.uid = n.uid from rfl, body, newBody, owned, task]
        rfl
      have bits : has 6 2 = true ∧ has 6 4 = true := by decide
      simp [classShift, owner, permissions, bits]

theorem openNode_null (run : openNode env s id flags = some (none, t)) (live : s.nodes id = some n) :
    (¬ Admitted env n flags ∧ t = s) ∨
      (Admitted env n flags ∧ env.fileAlloc = false ∧ t = putNode s id (truncated flags n)) := by
  obtain ⟨n', live', rest⟩ := Option.bind_eq_some_iff.mp run
  cases Option.some.inj (live.symm.trans live')
  split at rest
  · rename_i wrong
    cases Option.some.inj rest
    refine Or.inl ⟨fun admitted => ?_, rfl⟩
    rw [Bool.and_eq_true, decide_eq_true_eq] at wrong
    exact wrong.2 (admitted.dirOnly wrong.1)
  rename_i dirOnly
  split at rest
  · rename_i wrong
    cases Option.some.inj rest
    refine Or.inl ⟨fun admitted => ?_, rfl⟩
    rw [Bool.and_eq_true, decide_eq_true_eq] at wrong
    have unarmed := admitted.noDirWrite wrong.1
    rw [wrong.2] at unarmed
    cases unarmed
  rename_i noDirWrite
  split at rest
  · rename_i wrong
    cases Option.some.inj rest
    refine Or.inl ⟨fun admitted => ?_, rfl⟩
    rw [admitted.access] at wrong
    cases wrong
  rename_i access
  split at rest
  · rename_i memory
    cases Option.some.inj rest
    refine Or.inr ⟨⟨fun asked => ?_, fun dir => ?_, by simpa using access⟩, by simpa using memory, rfl⟩
    · by_contra other
      exact dirOnly (by simp [asked, other])
    · by_contra asked
      exact noDirWrite (by simp [dir, asked])
  · cases rest

/-- What fs_open leaves when it returns NULL, and why it returns it where it has
already made or emptied the file. -/
theorem fsOpen_null (fresh : Fresh s) (run : fsOpen env s path flags = some (none, t)) :
    (SameFiles s t ↔ ¬ Creates env s path flags ∧ ∀ n, ¬ Cuts env s path flags n) ∧
    (Creates env s path flags → has flags oDir = true ∨ env.fileAlloc = false) ∧
    ∀ n, Cuts env s path flags n → env.fileAlloc = false := by
  obtain ⟨⟨target, u⟩, aim, rest⟩ := Option.bind_eq_some_iff.mp run
  obtain ⟨found, search, aim⟩ := Option.bind_eq_some_iff.mp aim
  cases found with
  | none =>
    have uncut (n : FsNode) : ¬ Cuts env s path flags n := by
      rintro ⟨id, found, -⟩
      rw [search] at found
      cases found
    have plain (n : FsNode) (cuts : Cuts env s path flags n) : env.fileAlloc = false := absurd cuts (uncut n)
    cases asked : has flags oCreate with
    | false =>
      simp only [asked] at aim
      cases Option.some.inj aim
      cases Option.some.inj rest
      have uncreated : ¬ Creates env s path flags := by
        rintro ⟨-, create, -⟩
        rw [asked] at create
        cases create
      exact ⟨⟨fun _ => ⟨uncreated, uncut⟩, fun _ => .refl _⟩, fun creates => absurd creates uncreated, plain⟩
    | true =>
      simp only [asked, if_true] at aim
      rcases fsCreate_creatable aim with ⟨rfl, rfl, unable⟩ | ⟨rfl, able⟩
      · have uncreated : ¬ Creates env u path flags := fun creates => unable creates.2.2
        cases Option.some.inj rest
        exact ⟨⟨fun _ => ⟨uncreated, uncut⟩, fun _ => .refl _⟩, fun creates => absurd creates uncreated, plain⟩
      · obtain ⟨-, -, -, ⟨none_, -⟩ | ⟨-, inode, table⟩⟩ := fsCreate_bodies aim
        · cases none_
        have creates : Creates env s path flags := ⟨search, asked, able⟩
        have body : bodies u s.nextInode = some (newBody env) := by
          rw [table]
          exact Function.update_self ..
        obtain ⟨n, live, eq⟩ := live_of_body body
        have here : ∃ m, t.nodes s.nextInode = some m := by
          rcases openNode_null rest live with ⟨-, rfl⟩ | ⟨-, -, rfl⟩
          · exact ⟨n, live⟩
          · exact ⟨_, by simp [putNode, setNode, live]; rfl⟩
        obtain ⟨m, here⟩ := here
        refine ⟨⟨fun same => absurd same (not_sameFiles fresh.unused here), fun ok => absurd creates ok.1⟩, ?_, plain⟩
        intro _
        rcases openNode_null rest live with ⟨refused, -⟩ | ⟨-, broke, -⟩
        · left
          by_contra plain
          exact refused (newBody_admitted eq (Bool.eq_false_iff.mpr plain))
        · exact Or.inr broke
  | some id =>
    have old : ¬ Creates env s path flags := by
      rintro ⟨absent, -⟩
      rw [search] at absent
      cases absent
    have never (creates : Creates env s path flags) : has flags oDir = true ∨ env.fileAlloc = false := absurd creates old
    simp only at aim
    split at aim
    · rename_i excluded
      have uncut (n : FsNode) : ¬ Cuts env s path flags n := by
        rintro ⟨-, -, -, allowed, -⟩
        rw [excluded] at allowed
        cases allowed
      cases Option.some.inj aim
      cases Option.some.inj rest
      exact ⟨⟨fun _ => ⟨old, uncut⟩, fun _ => .refl _⟩, never, fun n cuts => absurd cuts (uncut n)⟩
    · rename_i allowed
      cases Option.some.inj aim
      obtain ⟨n, live, -⟩ := Option.bind_eq_some_iff.mp rest
      rcases openNode_null rest live with ⟨refused, rfl⟩ | ⟨admitted, broke, rfl⟩
      · have uncut (k : FsNode) (cuts : Cuts env t path flags k) : False := refused (cuts.facts search live).2.1
        exact ⟨⟨fun _ => ⟨old, uncut⟩, fun _ => .refl _⟩, never, fun k cuts => (uncut k cuts).elim⟩
      · refine ⟨?_, never, fun _ _ => broke⟩
        rw [sameFiles_truncated live (shapes_putNode live (truncated_shape flags n)) (bodies_putNode live)]
        constructor
        · exact fun kept => ⟨old, fun k cuts => kept (cuts.facts search live).2.2⟩
        · exact fun ok both => ok.2 n ⟨id, search, live, Bool.eq_false_iff.mpr allowed, admitted, both⟩

theorem fsOpen_some {h : FileId} (fresh : Fresh s) (run : fsOpen env s path flags = some (some h, t)) :
    (SameFiles s t ↔ ¬ Creates env s path flags ∧ ∀ n, ¬ Cuts env s path flags n) ∧
    ∃ f m, t.files h = some f ∧ f.flags = flags ∧ (has flags oAppend = false → f.offset = 0) ∧ t.nodes f.node = some m ∧
      (Creates env s path flags → m.type = .file ∧ m.ops = none ∧ m.capacity = 0) ∧
      ∀ n, Cuts env s path flags n → m.type = .file ∧ m.ops = n.ops ∧ m.capacity = n.capacity := by
  -- the handle and the node after openNode
  have granted {u : FsState} {id : NodeId} {n : FsNode} (live : u.nodes id = some n)
      (opened : Opened env u id n flags (some h) t) : ∃ f m, t.files h = some f ∧ f.flags = flags ∧
        (has flags oAppend = false → f.offset = 0) ∧ t.nodes f.node = some m ∧ f.node = id ∧
          m.body = (truncated flags n).body := by
    rcases opened.handle with ⟨-, none_, -⟩ | ⟨given, -, files⟩
    · cases none_
    · cases Option.some.inj given
      have body : bodies t id = some (truncated flags n).body := by
        rw [opened.table]
        exact Function.update_self ..
      obtain ⟨m, here, eq⟩ := live_of_body body
      refine ⟨_, m, by rw [files]; exact Function.update_self .., rfl, fun plain => ?_, here, rfl, eq⟩
      exact if_neg (by simp [plain])
  have kept (n : FsNode) : (truncated flags n).type = n.type ∧ (truncated flags n).ops = n.ops ∧
      (truncated flags n).capacity = n.capacity := by
    unfold truncated
    split
    · exact ⟨rfl, rfl, rfl⟩
    · exact ⟨rfl, rfl, rfl⟩
  rcases fsOpen_cases run with ⟨none_, -⟩ | ⟨id, n, search, allowed, live, admitted, opened⟩ |
    ⟨s₁, n, search, create, created, live, body, ⟨none_, -⟩ | ⟨-, opened⟩⟩
  · cases none_
  · have old : ¬ Creates env s path flags := by
      rintro ⟨absent, -⟩
      rw [search] at absent
      cases absent
    obtain ⟨f, m, handle, eq, offset, here, node, same⟩ := granted live opened
    constructor
    · rw [sameFiles_truncated live opened.shape opened.table]
      constructor
      · exact fun kept => ⟨old, fun k cuts => kept (cuts.facts search live).2.2⟩
      · exact fun ok both => ok.2 n ⟨id, search, live, allowed, admitted, both⟩
    · refine ⟨f, m, handle, eq, offset, here, fun creates => absurd creates old, fun k cuts => ?_⟩
      obtain ⟨rfl, -, -, file, -⟩ := cuts.facts search live
      obtain ⟨type, ops, capacity⟩ := kept k
      exact ⟨(congrArg Body.type same).trans (type.trans file), (congrArg Body.ops same).trans ops,
        (congrArg Body.capacity same).trans capacity⟩
  · cases none_
  · have able : Creates env s path flags := by
      rcases fsCreate_creatable create with ⟨none_, -⟩ | ⟨-, able⟩
      · cases none_
      · refine ⟨search, ?_, able⟩
        by_contra plain
        obtain ⟨⟨target, u⟩, aim, rest⟩ := Option.bind_eq_some_iff.mp run
        have refused : openTarget env s path flags = some (none, s) := by simp [openTarget, search, plain]
        rw [refused] at aim
        cases Option.some.inj aim
        cases Option.some.inj rest
    obtain ⟨f, m, handle, eq, offset, here, node, same⟩ := granted live opened
    obtain ⟨type, ops, capacity⟩ := kept n
    obtain ⟨empty, file, memory⟩ := newBody_empty env
    have none_ : (newBody env).capacity = 0 := by
      rw [newBody, owned]
      split
      · rfl
      · rfl
    refine ⟨⟨fun same => absurd same (not_sameFiles fresh.unused (node ▸ here)), fun ok => absurd able ok.1⟩,
      f, m, handle, eq, offset, here, fun _ => ?_, fun k cuts => ?_⟩
    · refine ⟨(congrArg Body.type same).trans (type.trans ?_), (congrArg Body.ops same).trans (ops.trans ?_),
        (congrArg Body.capacity same).trans (capacity.trans ?_)⟩
      · exact (congrArg Body.type body).trans file
      · exact (congrArg Body.ops body).trans memory
      · exact (congrArg Body.capacity body).trans none_
    · obtain ⟨id, found, -⟩ := cuts
      rw [search] at found
      cases found

/-- What a failing fs_open would leave behind it does not leave: a new file that
cannot be opened, or an emptied one. -/
def OpenOk (env : Env) (s : FsState) (path : Bytes) (flags : Nat) : Prop :=
  ¬ (Creates env s path flags ∧ (has flags oDir = true ∨ env.fileAlloc = false)) ∧
    ∀ n, Cuts env s path flags n → env.fileAlloc = true

theorem fsOpen_failed (fresh : Fresh s) (run : fsOpen env s path flags = some (none, t)) :
    SameFiles s t ↔ OpenOk env s path flags := by
  obtain ⟨same, made, cut⟩ := fsOpen_null fresh run
  rw [same]
  constructor
  · exact fun ok => ⟨fun both => ok.1 both.1, fun n cuts => absurd cuts (ok.2 n)⟩
  · refine fun ok => ⟨fun creates => ok.1 ⟨creates, made creates⟩, fun n cuts => ?_⟩
    have memory := ok.2 n cuts
    rw [cut n cuts] at memory
    cases memory

end Opening

section Writing
variable {env : Env} {s t u : FsState} {h : FileId} {f : File} {n : FsNode} {path buf : Bytes}

/-- The flags fs_write_file opens its file with. -/
abbrev rewriteFlags : Nat := oWronly ||| oCreate ||| oTrunc

theorem fsWrite_failed {code : Int} (handle : s.files h = some f) (live : s.nodes f.node = some n)
    (writable : has f.flags (oWronly ||| oRdwr) = true) (start : writeOffset f n = 0) (short : buf.length < 2 ^ 63)
    (run : fsWrite env s h buf = some (code, t)) (failed : code < 0) :
    shapes t = shapes s ∧ bodies t = bodies s ∧
      (n.type = .file → opsWrites n.ops = false ∧ n.capacity < buf.length ∧ env.dataAlloc = false) := by
  obtain ⟨f', handle', rest⟩ := Option.bind_eq_some_iff.mp run
  cases Option.some.inj (handle.symm.trans handle')
  rw [writable] at rest
  simp only [Bool.not_true, Bool.false_eq_true, if_false] at rest
  obtain ⟨n', live', rest⟩ := Option.bind_eq_some_iff.mp rest
  cases Option.some.inj (live.symm.trans live')
  have positive : ¬ ssize buf.length < 0 := by
    rw [ssize_small short]
    omega
  split at rest
  · obtain ⟨rfl, -⟩ := Prod.mk.inj (Option.some.inj rest)
    exact absurd failed positive
  rename_i memory
  split at rest
  · rename_i dir
    cases Option.some.inj rest
    refine ⟨rfl, rfl, fun file => ?_⟩
    rw [file] at dir
    cases dir
  have begin_ : (if has f.flags oAppend = true then n.size else f.offset) = 0 := start
  have exact' : wrap64 (0 + buf.length) = buf.length := by
    rw [Nat.zero_add]
    exact Nat.mod_eq_of_lt (Nat.lt_trans short (by decide))
  rw [begin_, exact'] at rest
  obtain ⟨⟨error, m⟩, grow, rest⟩ := Option.bind_eq_some_iff.mp rest
  simp only at rest
  split at rest
  · rename_i refused
    cases Option.some.inj rest
    refine ⟨rfl, rfl, fun _ => ⟨by simpa using memory, ?_⟩⟩
    unfold ensureCapacity at grow
    split at grow
    · cases Option.some.inj grow
      exact absurd rfl refused
    rename_i large
    obtain ⟨c, -, grow⟩ := Option.bind_eq_some_iff.mp grow
    split at grow
    · rename_i broke
      exact ⟨Nat.lt_of_not_le large, by simpa using broke⟩
    · cases Option.some.inj grow
      exact absurd rfl refused
  split at rest
  · cases rest
  · obtain ⟨rfl, -⟩ := Prod.mk.inj (Option.some.inj rest)
    exact absurd failed positive

theorem fsClose_shapes (run : fsClose s h = some t) : shapes t = shapes s := by
  have still := (fsClose_still (fun _ => True) run).frame
  funext c
  have same := congrArg (Option.map Prod.fst) (congrFun still c)
  simp only [frames, Option.map_map] at same
  exact same

/-- There is memory for what fs_write_file does after it made or emptied the file. -/
def RewriteOk (env : Env) (s : FsState) (path buf : Bytes) : Prop :=
  (Creates env s path rewriteFlags → env.fileAlloc = true ∧ (buf = [] ∨ env.dataAlloc = true)) ∧
    ∀ n, Cuts env s path rewriteFlags n →
      env.fileAlloc = true ∧ (opsWrites n.ops = true ∨ buf.length ≤ n.capacity ∨ env.dataAlloc = true)

theorem fsWriteFile_failed {code : Int} (fresh : Fresh s) (short : buf.length < 2 ^ 63)
    (run : fsWriteFile env s path buf = some (code, t)) (failed : code < 0) :
    SameFiles s t ↔ RewriteOk env s path buf := by
  obtain ⟨⟨got, u⟩, opens, rest⟩ := Option.bind_eq_some_iff.mp run
  cases got with
  | none =>
    cases Option.some.inj rest
    obtain ⟨same, made, cut⟩ := fsOpen_null fresh opens
    rw [same]
    constructor
    · exact fun ok => ⟨fun creates => absurd creates ok.1, fun n cuts => absurd cuts (ok.2 n)⟩
    · refine fun ok => ⟨fun creates => ?_, fun n cuts => ?_⟩
      · have memory := (ok.1 creates).1
        rcases made creates with dir | broke
        · exact absurd dir (by decide)
        · rw [memory] at broke
          cases broke
      · have memory := (ok.2 n cuts).1
        rw [cut n cuts] at memory
        cases memory
  | some h =>
    obtain ⟨⟨written, v⟩, writes, rest⟩ := Option.bind_eq_some_iff.mp rest
    obtain ⟨w, closes, rest⟩ := Option.bind_eq_some_iff.mp rest
    obtain ⟨result, rfl⟩ := Prod.mk.inj (Option.some.inj rest)
    have negative : written < 0 := by
      by_contra whole
      rw [if_neg whole] at result
      omega
    obtain ⟨same, f, m, handle, eq, offset, live, made, cut⟩ := fsOpen_some fresh opens
    have start : writeOffset f m = 0 := by
      rw [writeOffset, eq, if_neg (by decide)]
      exact offset (by decide)
    have writable : has f.flags (oWronly ||| oRdwr) = true := by
      rw [eq]
      decide
    obtain ⟨shape, table, broke⟩ := fsWrite_failed handle live writable start short writes negative
    have shape' := (fsClose_shapes closes).trans shape
    have table' := (fsClose_cases closes).1.trans table
    rw [SameFiles.trans_bodies shape' table', same]
    constructor
    · exact fun ok => ⟨fun creates => absurd creates ok.1, fun n cuts => absurd cuts (ok.2 n)⟩
    · refine fun ok => ⟨fun creates => ?_, fun n cuts => ?_⟩
      · obtain ⟨file, -, capacity⟩ := made creates
        obtain ⟨-, large, poor⟩ := broke file
        rcases (ok.1 creates).2 with rfl | memory
        · exact absurd large (Nat.not_lt_zero _)
        · rw [memory] at poor
          cases poor
      · obtain ⟨file, ops, capacity⟩ := cut n cuts
        obtain ⟨plain, large, poor⟩ := broke file
        rcases (ok.2 n cuts).2 with device | fits | memory
        · rw [← ops, plain] at device
          cases device
        · rw [capacity] at large
          exact absurd fits (Nat.not_le.mpr large)
        · rw [memory] at poor
          cases poor

/-- A failed fs_open and a failed fs_write_file change nothing exactly when there
is memory for all that comes after the file was made or emptied, and no new file
was to be opened as a directory. -/
theorem failures_change_nothing (fresh : Fresh s) (path : Bytes) :
    (∀ flags t, fsOpen env s path flags = some (none, t) → (SameFiles s t ↔ OpenOk env s path flags)) ∧
    ∀ buf code t, buf.length < 2 ^ 63 → fsWriteFile env s path buf = some (code, t) → code < 0 →
      (SameFiles s t ↔ RewriteOk env s path buf) :=
  ⟨fun _ _ run => fsOpen_failed fresh run, fun _ _ _ short run failed => fsWriteFile_failed fresh short run failed⟩

theorem boot_fresh (boot : fsInit bootEnv (fun _ => bootEnv) = some s) : Fresh s := by
  obtain ⟨s', kids, boot', tree⟩ := fsInit_tree bootEnv (fun _ => bootEnv) rfl
  cases Option.some.inj (boot.symm.trans boot')
  exact fun id n live => tree.fresh id n.shape (shapes_live live)

theorem failures_change_nothing_at_boot : ∃ s t, fsInit bootEnv (fun _ => bootEnv) = some s ∧
    fsOpen bootEnv s (ascii "/tmp/f") oRdonly = some (none, t) ∧ SameFiles s t := by
  have run : ((fsInit bootEnv fun _ => bootEnv).bind fun s =>
      (fsOpen bootEnv s (ascii "/tmp/f") oRdonly).map Prod.fst) = some none := by
    decide +kernel
  obtain ⟨s, boot, rest⟩ := Option.bind_eq_some_iff.mp run
  obtain ⟨⟨got, t⟩, opens, rfl⟩ := Option.map_eq_some_iff.mp rest
  refine ⟨s, t, boot, opens, ((failures_change_nothing (boot_fresh boot) (ascii "/tmp/f")).1 oRdonly t opens).mpr ⟨?_, ?_⟩⟩
  · rintro ⟨⟨-, create, -⟩, -⟩
    exact absurd create (by decide)
  · rintro n ⟨-, -, -, -, -, cut, -⟩
    exact absurd cut (by decide)

example : ((fsInit bootEnv fun _ => bootEnv).map fun s => s.nextInode) = some 15 := by decide +kernel

/-- A new file that was to be opened as a directory stays behind. -/
theorem failed_open_creates :
    ¬ ∀ env s path, Fresh s →
      (∀ flags t, fsOpen env s path flags = some (none, t) → SameFiles s t) ∧
      ∀ buf code t, fsWriteFile env s path buf = some (code, t) → code < 0 → SameFiles s t := by
  intro always
  have run : ((fsInit bootEnv fun _ => bootEnv).bind fun s =>
      (fsOpen bootEnv s (ascii "/tmp/f") (oCreate ||| oDir)).map fun r =>
        (r.1, (s.nodes 15).isNone, (r.2.nodes 15).isSome)) = some (none, true, true) := by
    decide +kernel
  obtain ⟨s, boot, rest⟩ := Option.bind_eq_some_iff.mp run
  obtain ⟨⟨got, t⟩, opens, facts⟩ := Option.map_eq_some_iff.mp rest
  obtain ⟨rfl, facts⟩ := Prod.mk.inj facts
  obtain ⟨dead, live⟩ := Prod.mk.inj facts
  obtain ⟨n, here⟩ := Option.isSome_iff_exists.mp live
  have same := (always bootEnv s (ascii "/tmp/f") (boot_fresh boot)).1 _ t opens
  exact not_sameFiles (Option.isNone_iff_eq_none.mp dead) here same

end Writing

end Qito.Vfs
