import Qito.Vfs.WholeFile

/-! fs_create and fs_mkdir at a path that is written out component by component:
when they succeed, where the new node is found, and which paths lead somewhere
afterwards. -/
namespace Qito.Vfs

/-- What a component of a path is made of. -/
def Component (c : Bytes) : Prop := c ≠ [] ∧ c ≠ dot ∧ c ≠ dotDot ∧ 47 ∉ c ∧ 0 ∉ c

instance (c : Bytes) : Decidable (Component c) := inferInstanceAs (Decidable (_ ∧ _))

def absolute (cs : List Bytes) : Bytes := cs.flatMap (47 :: ·)

section Paths
variable {cs ts : List Bytes} {name : Bytes}

theorem absolute_snoc (ts : List Bytes) (name : Bytes) : absolute (ts ++ [name]) = absolute ts ++ 47 :: name := by
  simp [absolute]

theorem tokens_segments (whole : ∀ c ∈ cs, c ≠ [] ∧ 47 ∉ c) : tokens (absolute cs) = cs := by
  induction cs using List.reverseRecOn with
  | nil => rfl
  | append_singleton ts name ih =>
    obtain ⟨some_, clean⟩ := whole name (by simp)
    rw [absolute_snoc, tokens, tokensFrom_append, ← tokens, ih fun c member => whole c (by simp [member])]
    exact congrArg (ts ++ ·) (tokensFrom_one clean (by simpa using some_))

theorem tokens_absolute (whole : ∀ c ∈ cs, Component c) : tokens (absolute cs) = cs := by
  apply tokens_segments
  intro c member
  obtain ⟨some_, -, -, clean, -⟩ := whole c member
  exact ⟨some_, clean⟩

theorem steps_absolute (whole : ∀ c ∈ cs, Component c) (short : (absolute cs).length < fsPathMax) : steps (absolute cs) = cs := by
  rw [steps, strlcpy, List.take_of_length_le (Nat.le_sub_one_of_lt short), tokens_absolute whole]

theorem splitLast_append (front : Bytes) (clean : 47 ∉ name) : splitLast (front ++ 47 :: name) = some (front, name) := by
  have last : splitLast name = none := by
    cases split : splitLast name with
    | none => rfl
    | some parts =>
      rw [splitLast_spec split] at clean
      simp at clean
  induction front with
  | nil => simp [splitLast, last]
  | cons c cs ih => simp [splitLast, ih]

theorem absolute_eq_nil : absolute cs = [] ↔ cs = [] := by
  cases cs with
  | nil => simp [absolute]
  | cons c cs => simp [absolute]

theorem resolveParent_absolute {s : FsState} {d : NodeId} (whole : ∀ c ∈ ts ++ [name], Component c)
    (short : (absolute (ts ++ [name])).length < fsPathMax) (few : name.length < fsNameMax)
    (front : lookupFrom s s.root ts = some (some d)) :
    resolveParent s (absolute (ts ++ [name])) = some (some d, name) := by
  have uncut : strlcpy name fsNameMax = name := List.take_of_length_le (Nat.le_sub_one_of_lt few)
  have all : strlcpy (absolute (ts ++ [name])) fsPathMax = absolute ts ++ 47 :: name := by
    rw [strlcpy, List.take_of_length_le (Nat.le_sub_one_of_lt short), absolute_snoc]
  have split : splitLast (strlcpy (absolute (ts ++ [name])) fsPathMax) = some (absolute ts, name) := by
    rw [all]
    exact splitLast_append _ (whole name (by simp)).2.2.2.1
  simp only [resolveParent, split, uncut]
  by_cases top : ts = []
  · subst top
    cases Option.some.inj (Option.some.inj front)
    rfl
  · have inner : absolute ts ≠ [] := fun empty => top (absolute_eq_nil.mp empty)
    have found : fsLookup s (absolute ts) = some (some d) := by
      have fits : (absolute ts).length < fsPathMax := by
        rw [absolute_snoc, List.length_append] at short
        omega
      rw [fsLookup, ← steps, steps_absolute (fun c member => whole c (by simp [member])) fits]
      exact front
    rw [if_neg inner, found]
    rfl

end Paths

/-- One node was added, and ts leads to it; the others kept name, place and body. -/
structure Adds (s t : FsState) (ts : List Bytes) (x : NodeId) : Prop where
  new : s.nodes x = none
  root : t.root = s.root
  kept : ∀ id n, s.nodes id = some n → ∃ m, t.nodes id = some m ∧ m.name = n.name ∧ m.parent = n.parent ∧ m.body = n.body
  only : ∀ id, id ≠ x → s.nodes id = none → t.nodes id = none
  reached : lookupFrom t t.root ts = some (some x)

section Adding
variable {env : Env} {s t : FsState} {kids kids' : NodeId → List NodeId} {ts us : List Bytes} {name : Bytes} {x : NodeId}

theorem Adds.places (adds : Adds s t ts x) : Places s t where
  root := adds.root
  placed id n live := by
    obtain ⟨m, here, name, parent, body⟩ := adds.kept id n live
    exact ⟨m, here, name, parent, congrArg Body.type body, congrArg Body.ops body⟩

theorem Places.trans {u : FsState} (first : Places s t) (second : Places t u) : Places s u where
  root := second.root.trans first.root
  placed id n live := by
    obtain ⟨m, here, a, b, c, d⟩ := first.placed id n live
    obtain ⟨k, there, a', b', c', d'⟩ := second.placed id m here
    exact ⟨k, there, a'.trans a, b'.trans b, c'.trans c, d'.trans d⟩

theorem Adds.back (adds : Adds s t ts x) (tree : Tree s kids) (tree' : Tree t kids') (plain : Dotless ts) (plain' : Dotless us)
    {y : NodeId} (run : lookupFrom t t.root us = some (some y)) : lookupFrom s s.root us = some (some y) ∨ us = ts := by
  by_cases made : y = x
  · subst y
    exact Or.inr (tree'.descent_unique plain' plain run adds.reached)
  · obtain ⟨r, root, -⟩ := tree'.root_live
    obtain ⟨found, walk, alive⟩ := lookupFrom_spec tree' us root
    obtain ⟨m, live'⟩ := alive y (Option.some.inj (walk.symm.trans run))
    cases live : s.nodes y with
    | none => exact absurd ((adds.only y made live).symm.trans live') (by simp)
    | some n => exact Or.inl (adds.places.descent_back tree tree' plain' live run)

theorem Adds.set {f : FsNode → FsNode} (adds : Adds s t ts x) (tree' : Tree t kids')
    (keep : ∀ n, (f n).shape = n.shape ∧ (f n).ops = n.ops) : Adds s (setNode t x f) ts x where
  new := adds.new
  root := adds.root
  kept id n live := by
    have other : id ≠ x := fun same => absurd ((same ▸ adds.new).symm.trans live) (by simp)
    obtain ⟨m, here, rest⟩ := adds.kept id n live
    exact ⟨m, by simp [setNode, other, here], rest⟩
  only id other dead := by simp [setNode, other, adds.only id other dead]
  reached := by
    have places : Places t (setNode t x f) := by
      refine ⟨rfl, fun id n live => ?_⟩
      by_cases same : id = x
      · subst id
        obtain ⟨shape, ops⟩ := keep n
        exact ⟨f n, by simp [setNode, live], congrArg Shape.name shape, congrArg Shape.parent shape,
          congrArg Shape.type shape, ops⟩
      · exact ⟨n, by simp [setNode, same, live], rfl, rfl, rfl, rfl⟩
    obtain ⟨r, root, -⟩ := tree'.root_live
    exact places.lookupFrom tree' (tree'.touch fun n => (keep n).1) root adds.reached

theorem owned_fresh (env : Env) (name : Bytes) (type : NodeType) (perms : Nat) :
    (owned env (freshNode env name type perms)).body.type = type ∧ (owned env (freshNode env name type perms)).body.size = 0 := by
  unfold owned
  split
  · exact ⟨rfl, rfl⟩
  · exact ⟨rfl, rfl⟩

theorem fsCreate_adds (tree : Tree s kids) (whole : ∀ c ∈ ts ++ [name], Component c)
    (short : (absolute (ts ++ [name])).length < fsPathMax) (few : name.length < fsNameMax) {d : NodeId} {nd : FsNode}
    (front : lookupFrom s s.root ts = some (some d)) (dir : s.nodes d = some nd) (isDir : nd.type = .dir)
    (absent : fsLookup s (absolute (ts ++ [name])) = some none) (memory : env.nodeAlloc = true) (type : NodeType) (perms : Nat) :
    ∃ t kids' n, fsCreate env s (absolute (ts ++ [name])) type perms = some (some s.nextInode, t) ∧ Tree t kids' ∧
      Adds s t (ts ++ [name]) s.nextInode ∧ t.nodes s.nextInode = some n ∧ n.type = type ∧ n.size = 0 := by
  have plain : Dotless (ts ++ [name]) := fun c member => ⟨(whole c member).2.1, (whole c member).2.2.1⟩
  have resolved := resolveParent_absolute whole short few front
  have free : findChild s d name = some none := by
    obtain ⟨found, search, -⟩ := findChild_spec tree name dir
    cases found with
    | none => exact search
    | some c =>
      have there := (lookupFrom_last (plain name (by simp))).mpr ⟨d, front, search⟩
      rw [fsLookup, ← steps, steps_absolute whole short, there] at absent
      exact absurd (Option.some.inj absent) (by simp)
  obtain ⟨got, t, kids', run, tree'⟩ := fsCreate_tree env tree (absolute (ts ++ [name])) type perms
  have made : got = some s.nextInode := by
    have taken := nodeAlloc_grown (s := s) name type perms memory
    have some_ : name ≠ [] := (whole name (by simp)).1
    simp only [fsCreate, resolved, dir, isDir, some_, free, taken, Option.bind_eq_bind, Option.bind_some, ne_eq,
      not_true_eq_false, or_self, if_false, Option.isSome_none, Bool.false_eq_true] at run
    obtain ⟨u, -, rest⟩ := Option.bind_eq_some_iff.mp run
    exact (Prod.mk.inj (Option.some.inj rest)).1.symm
  subst made
  have born : s.nodes s.nextInode = none := by
    cases live : s.nodes s.nextInode with
    | none => rfl
    | some m => exact absurd (tree.fresh _ m.shape (shapes_live live)) (Nat.lt_irrefl _)
  rcases fsCreate_nodes run with ⟨none_, -⟩ | ⟨-, d', name', n, resolved', -, live, called, parent, body, change, minor, nodes⟩
  · exact absurd none_ (by simp)
  obtain ⟨same, same'⟩ := Prod.mk.inj (Option.some.inj (resolved'.symm.trans resolved))
  cases Option.some.inj same
  subst name'
  have kept (id : NodeId) (k : FsNode) (here : s.nodes id = some k) :
      ∃ m, t.nodes id = some m ∧ m.name = k.name ∧ m.parent = k.parent ∧ m.body = k.body := by
    have other : id ≠ s.nextInode := Nat.ne_of_lt (tree.fresh id k.shape (shapes_live here))
    exact ⟨change id k, by rw [nodes id other, here]; rfl, (minor id k).1, (minor id k).2.2, (minor id k).2.1⟩
  obtain ⟨rootSame, -⟩ := fsCreate_bodies run
  have places : Places s t := by
    refine ⟨rootSame, fun id k here => ?_⟩
    obtain ⟨m, there, a, b, c⟩ := kept id k here
    exact ⟨m, there, a, b, congrArg Body.type c, congrArg Body.ops c⟩
  obtain ⟨typed, empty⟩ := owned_fresh env name type perms
  refine ⟨t, kids', n, run, tree', ⟨born, rootSame, kept, ?_, ?_⟩, live, (congrArg Body.type body).trans typed,
    (congrArg Body.size body).trans empty⟩
  · intro id other dead
    rw [nodes id other, dead]
    rfl
  · obtain ⟨r, root, -⟩ := tree.root_live
    apply (tree'.descent_last plain).mpr
    refine ⟨d, n, ?_, live, parent, called.trans (List.take_of_length_le (Nat.le_sub_one_of_lt few))⟩
    rw [rootSame]
    exact places.lookupFrom tree tree' root front

end Adding

/-- Every name fits the array of a node. -/
def Named (s : FsState) : Prop := ∀ id n, s.nodes id = some n → n.name.length < fsNameMax

section Names
variable {env : Env} {s t : FsState} {kids : NodeId → List NodeId}

theorem Named.create {path : Bytes} {type : NodeType} {perms : Nat} {got : Option NodeId} (named : Named s)
    (run : fsCreate env s path type perms = some (got, t)) : Named t := by
  rcases fsCreate_nodes run with ⟨-, rfl⟩ | ⟨-, d, name, n, -, -, live, called, -, -, change, minor, nodes⟩
  · exact named
  intro id m here
  by_cases new : id = s.nextInode
  · subst id
    cases Option.some.inj (live.symm.trans here)
    rw [called]
    exact Nat.lt_of_le_of_lt (List.length_take_le _ _) (by decide)
  · rw [nodes id new] at here
    obtain ⟨k, before, rfl⟩ := Option.map_eq_some_iff.mp here
    rw [(minor id k).1]
    exact named id k before

theorem Named.mkdir {path : Bytes} {perms : Nat} {code : Int} (named : Named s)
    (run : fsMkdir env s path perms = some (code, t)) : Named t := by
  obtain ⟨found, -, rest⟩ := Option.bind_eq_some_iff.mp run
  split at rest
  · cases Option.some.inj rest
    exact named
  · obtain ⟨⟨got, u⟩, create, rest⟩ := Option.bind_eq_some_iff.mp rest
    cases got with
    | none =>
      cases Option.some.inj rest
      exact named.create create
    | some id =>
      cases Option.some.inj rest
      exact named.create create

theorem Named.set {x : NodeId} {f : FsNode → FsNode} (named : Named s) (keep : ∀ n, (f n).name = n.name) :
    Named (setNode s x f) := by
  intro id m here
  rw [setNode_nodes] at here
  obtain ⟨n, before, rfl⟩ := Option.map_eq_some_iff.mp here
  split
  · rw [keep]
    exact named id n before
  · exact named id n before

theorem Named.lost (named : Named s) (tree : Tree s kids) {ts : List Bytes} (plain : Dotless ts) {c : Bytes} (member : c ∈ ts)
    (long : fsNameMax ≤ c.length) (x : NodeId) : lookupFrom s s.root ts ≠ some (some x) := by
  intro run
  induction ts using List.reverseRecOn generalizing x with
  | nil => simp at member
  | append_singleton ts name ih =>
    obtain ⟨d, n, front, live, -, called⟩ := (tree.descent_last plain).mp run
    rcases List.mem_append.mp member with inner | last
    · exact ih plain.front inner d front
    · rw [← called.trans (List.mem_singleton.mp last).symm] at long
      exact absurd (named x n live) (Nat.not_lt.mpr long)

theorem Named.mkdirs {envs : Bytes → Env} {paths : List Bytes} (named : Named s)
    (run : Vfs.mkdirs envs s paths = some t) : Named t := by
  induction paths generalizing s with
  | nil =>
    cases Option.some.inj run
    exact named
  | cons path rest ih =>
    obtain ⟨⟨code, u⟩, make, rest⟩ := Option.bind_eq_some_iff.mp run
    exact ih (named.mkdir make) rest

theorem fsInit_named {envs : Bytes → Env} (run : fsInit env envs = some s) : Named s := by
  unfold fsInit at run
  cases memory : env.nodeAlloc with
  | false => simp [nodeAlloc, memory] at run
  | true =>
    rw [nodeAlloc_grown (ascii "/") .dir 0o755 memory] at run
    obtain ⟨t, made, rest⟩ := Option.bind_eq_some_iff.mp run
    have first : Named { grown env bareFs (ascii "/") .dir 0o755 with root := bareFs.nextInode } := by
      intro id n here
      by_cases root : id = 1
      · subst id
        cases Option.some.inj here
        change (strlcpy (ascii "/") fsNameMax).length < fsNameMax
        decide
      · have none_ : (grown env bareFs (ascii "/") .dir 0o755).nodes id = none := by
          simp [grown, bareFs, root]
        exact absurd (none_.symm.trans here) (by simp)
    have named := first.mkdirs made
    obtain ⟨found, -, rest⟩ := Option.bind_eq_some_iff.mp rest
    cases found with
    | none =>
      cases Option.some.inj rest
      exact named
    | some tmp =>
      cases Option.some.inj rest
      exact named.set fun n => rfl

end Names

end Qito.Vfs
