import Qito.Vfs.Forest

/-! The namespace operations of vfs.c over the tree of the node table: each of
them returns, and leaves a tree again. -/
namespace Qito.Vfs
open Links Ancestry

def FsNode.shape (n : FsNode) : Shape where
  name := n.name
  type := n.type
  parent := n.parent
  children := n.children
  sibling := n.sibling

def shapes (s : FsState) : Shapes := fun id => (s.nodes id).map FsNode.shape

abbrev Tree (s : FsState) (kids : NodeId → List NodeId) : Prop :=
  Forest (shapes s) s.root s.nextInode kids none

section Shapes
variable {s : FsState} {id c : NodeId} {f : FsNode → FsNode}

theorem shapes_live {n : FsNode} (live : s.nodes id = some n) : shapes s id = some n.shape := by
  simp [shapes, live]

theorem live_of_shape {m : Shape} (live : shapes s id = some m) : ∃ n, s.nodes id = some n ∧ n.shape = m :=
  Option.map_eq_some_iff.mp live

theorem shapes_setNode {g : Shape → Shape} (commutes : ∀ n, (f n).shape = g n.shape) :
    shapes (setNode s id f) = modify (shapes s) id g := by
  funext c
  by_cases same : c = id
  · subst c
    simp [shapes, setNode, modify, commutes, Function.comp_def]
  · simp [shapes, setNode, modify, same]

theorem shapes_touch (keep : ∀ n, (f n).shape = n.shape) : shapes (setNode s id f) = shapes s := by
  rw [shapes_setNode (g := fun m => m) keep]
  funext c
  by_cases same : c = id
  · subst c
    simp [modify]
  · simp [modify, same]

theorem Tree.touch {kids : NodeId → List NodeId} (tree : Tree s kids) (keep : ∀ n, (f n).shape = n.shape) :
    Tree (setNode s id f) kids := by
  have same : shapes (setNode s id f) = shapes s := shapes_touch keep
  rw [Tree, same]
  exact tree

theorem shapes_putNode {n m : FsNode} (live : s.nodes id = some n) (same : m.shape = n.shape) :
    shapes (putNode s id m) = shapes s := by
  funext c
  by_cases here : c = id
  · subst c
    simp [shapes, putNode, setNode, live, same]
  · simp [shapes, putNode, setNode, here]

theorem Tree.of_shapes {t : FsState} {kids : NodeId → List NodeId} (tree : Tree s kids) (shape : shapes t = shapes s)
    (root : t.root = s.root) (inode : t.nextInode = s.nextInode) : Tree t kids := by
  rw [Tree, shape, root, inode]
  exact tree

end Shapes

section Walks
variable {s : FsState}

theorem findSibling_spec (name : Bytes) {fuel : Nat} {xs : List NodeId} {head : Option NodeId}
    (path : Route (siblingOf (shapes s)) head xs none) (alive : ∀ c ∈ xs, ∃ n, s.nodes c = some n)
    (enough : xs.length < fuel) :
    ∃ found, findSibling fuel s head name = some found ∧
      (∀ c, found = some c → c ∈ xs ∧ ∃ n, s.nodes c = some n ∧ n.name = name) ∧
      (found = none → ∀ c ∈ xs, ∀ n, s.nodes c = some n → n.name ≠ name) := by
  induction xs generalizing head fuel with
  | nil =>
    obtain ⟨fuel, rfl⟩ := Nat.exists_eq_add_of_lt enough
    cases (path : head = none)
    exact ⟨none, by simp [findSibling], by simp, by simp⟩
  | cons x xs ih =>
    cases fuel with
    | zero => exact absurd enough (by simp)
    | succ fuel =>
      cases path.1
      obtain ⟨n, live⟩ := alive x List.mem_cons_self
      by_cases here : n.name = name
      · refine ⟨some x, by simp [findSibling, live, here], ?_, by simp⟩
        intro c same
        cases Option.some.inj same
        exact ⟨List.mem_cons_self, n, live, here⟩
      · have next : siblingOf (shapes s) x = n.sibling := by simp [siblingOf, shapes, live, FsNode.shape]
        have rest := path.2
        rw [next] at rest
        obtain ⟨found, run, hit, miss⟩ := ih rest (fun c member => alive c (List.mem_cons_of_mem _ member))
          (Nat.lt_of_succ_lt_succ enough)
        refine ⟨found, by simp [findSibling, live, here, run], ?_, ?_⟩
        · intro c same
          obtain ⟨member, facts⟩ := hit c same
          exact ⟨List.mem_cons_of_mem _ member, facts⟩
        · intro nothing c member m alive'
          rcases List.mem_cons.mp member with rfl | later
          · cases Option.some.inj (live.symm.trans alive')
            exact here
          · exact miss nothing c later m alive'

theorem lastSibling_spec {fuel : Nat} {xs : List NodeId} {first last : NodeId}
    (path : Route (siblingOf (shapes s)) (some first) (xs ++ [last]) none)
    (alive : ∀ c ∈ xs ++ [last], ∃ n, s.nodes c = some n) (enough : xs.length < fuel) :
    lastSibling fuel s first = some last := by
  induction xs generalizing first fuel with
  | nil =>
    cases fuel with
    | zero => exact absurd enough (by simp)
    | succ fuel =>
      obtain rfl : first = last := Option.some.inj path.1
      obtain ⟨n, live⟩ := alive first (by simp)
      have next : n.sibling = none := by
        have ends := path.2
        simpa [Route, siblingOf, shapes, live, FsNode.shape] using ends
      simp [lastSibling, live, next]
  | cons x xs ih =>
    cases fuel with
    | zero => exact absurd enough (by simp)
    | succ fuel =>
      obtain rfl : first = x := Option.some.inj path.1
      obtain ⟨n, live⟩ := alive first (by simp)
      have next : siblingOf (shapes s) first = n.sibling := by simp [siblingOf, shapes, live, FsNode.shape]
      have rest := path.2
      rw [next] at rest
      have more : ∃ y, n.sibling = some y := by
        cases xs with
        | nil => exact ⟨_, rest.1⟩
        | cons y xs => exact ⟨_, rest.1⟩
      obtain ⟨y, link⟩ := more
      rw [link] at rest
      have run := ih rest (fun c member => alive c (List.mem_cons_of_mem _ member))
        (Nat.lt_of_succ_lt_succ enough)
      simp [lastSibling, live, link, run]

theorem unlinkSibling_spec {fuel : Nat} {xs ys : List NodeId} {p x : NodeId} {head : Option NodeId}
    (link : Option NodeId) (path : Route (siblingOf (shapes s)) head (xs ++ p :: x :: ys) none)
    (alive : ∀ c ∈ xs ++ p :: x :: ys, ∃ n, s.nodes c = some n)
    (enough : (xs ++ p :: x :: ys).length < fuel) :
    unlinkSibling fuel s x link head = some (setNode s p fun n => { n with sibling := link }) := by
  have nodup := path.nodup
  induction xs generalizing head fuel with
  | nil =>
    cases fuel with
    | zero => exact absurd enough (by simp)
    | succ fuel =>
      cases path.1
      obtain ⟨n, live⟩ := alive p (by simp)
      have next : n.sibling = some x := by
        have second := path.2.1
        simpa [siblingOf, shapes, live, FsNode.shape] using second
      simp [unlinkSibling, live, next]
  | cons y xs ih =>
    cases fuel with
    | zero => exact absurd enough (by simp)
    | succ fuel =>
      cases path.1
      obtain ⟨n, live⟩ := alive y (by simp)
      have next : siblingOf (shapes s) y = n.sibling := by simp [siblingOf, shapes, live, FsNode.shape]
      have rest := path.2
      rw [next] at rest
      have other : n.sibling ≠ some x := by
        intro same
        have distinct := (List.nodup_cons.mp nodup).2
        cases xs with
        | nil =>
          obtain rfl : x = p := Option.some.inj (same.symm.trans rest.1)
          exact (List.nodup_cons.mp distinct).1 List.mem_cons_self
        | cons z xs =>
          obtain rfl : x = z := Option.some.inj (same.symm.trans rest.1)
          exact (List.nodup_cons.mp distinct).1 (by simp)
      have run := ih rest (fun c member => alive c (List.mem_cons_of_mem _ member))
        (Nat.lt_of_succ_lt_succ enough) (List.nodup_cons.mp nodup).2
      simp [unlinkSibling, live, other, run]

end Walks

section Lookup
variable {s : FsState} {kids : NodeId → List NodeId} (tree : Tree s kids)
include tree

theorem Tree.kids_live {d c : NodeId} (member : c ∈ kids d) : ∃ n, s.nodes c = some n ∧ n.parent = some d := by
  obtain ⟨m, live, parent⟩ := tree.kid_live member
  obtain ⟨n, here, rfl⟩ := live_of_shape live
  exact ⟨n, here, parent⟩

theorem Tree.root_live : ∃ n, s.nodes s.root = some n ∧ n.type = .dir ∧ n.parent = none := by
  obtain ⟨m, live, type, orphan, -⟩ := tree.rootDir
  obtain ⟨n, here, rfl⟩ := live_of_shape live
  exact ⟨n, here, type, orphan⟩

theorem findChild_spec (name : Bytes) {d : NodeId} {n : FsNode} (live : s.nodes d = some n) :
    ∃ found, findChild s d name = some found ∧
      (∀ c, found = some c → c ∈ kids d ∧ ∃ m, s.nodes c = some m ∧ m.name = name) ∧
      (found = none → n.type = .dir → ∀ c ∈ kids d, ∀ m, s.nodes c = some m → m.name ≠ name) := by
  by_cases dir : n.type = .dir
  · have path := tree.path d n.shape (shapes_live live)
    have alive : ∀ c ∈ kids d, ∃ m, s.nodes c = some m := by
      intro c member
      obtain ⟨m, here, -⟩ := tree.kids_live member
      exact ⟨m, here⟩
    have enough : (kids d).length < walkFuel s := Nat.lt_succ_of_le (tree.short (shapes_live live))
    obtain ⟨found, run, hit, miss⟩ := findSibling_spec name path alive enough
    refine ⟨found, ?_, hit, fun nothing _ => miss nothing⟩
    simpa [findChild, live, dir, FsNode.shape] using run
  · exact ⟨none, by simp [findChild, live, dir], by simp, fun _ same => absurd same dir⟩

theorem lookupFrom_spec (ts : List Bytes) {c : NodeId} {n : FsNode} (live : s.nodes c = some n) :
    ∃ found, lookupFrom s c ts = some found ∧ ∀ x, found = some x → ∃ m, s.nodes x = some m := by
  induction ts generalizing c n with
  | nil =>
    refine ⟨some c, rfl, ?_⟩
    intro x same
    cases Option.some.inj same
    exact ⟨n, live⟩
  | cons token rest ih =>
    by_cases stay : token = dot
    · obtain ⟨found, run, alive⟩ := ih live
      exact ⟨found, by simp [lookupFrom, stay, run], alive⟩
    · by_cases up : token = dotDot
      · have above : ∃ m, s.nodes (n.parent.getD s.root) = some m := by
          cases parent : n.parent with
          | none =>
            obtain ⟨r, here, -⟩ := tree.root_live
            exact ⟨r, here⟩
          | some d =>
            obtain ⟨m, there, -⟩ := tree.dirs c n.shape d (shapes_live live) parent
            obtain ⟨k, here, -⟩ := live_of_shape there
            exact ⟨k, here⟩
        obtain ⟨m, here⟩ := above
        obtain ⟨found, run, alive⟩ := ih here
        have apart : dotDot ≠ dot := by decide
        exact ⟨found, by simp [lookupFrom, up, apart, live, run], alive⟩
      · obtain ⟨child, search, hit, -⟩ := findChild_spec tree token live
        cases child with
        | none => exact ⟨none, by simp [lookupFrom, stay, up, search], by simp⟩
        | some x =>
          obtain ⟨-, m, here, -⟩ := hit x rfl
          obtain ⟨found, run, alive⟩ := ih here
          exact ⟨found, by simp [lookupFrom, stay, up, search, run], alive⟩

theorem fsLookup_spec (path : Bytes) :
    ∃ found, fsLookup s path = some found ∧ ∀ x, found = some x → ∃ m, s.nodes x = some m := by
  obtain ⟨r, live, -⟩ := tree.root_live
  exact lookupFrom_spec tree _ live

theorem resolveParent_spec (path : Bytes) :
    ∃ dir name, resolveParent s path = some (dir, name) ∧ strlcpy name fsNameMax = name ∧
      ∀ d, dir = some d → ∃ m, s.nodes d = some m := by
  obtain ⟨r, live, -⟩ := tree.root_live
  have cut (text : Bytes) : strlcpy (strlcpy text fsNameMax) fsNameMax = strlcpy text fsNameMax :=
    List.take_of_length_le (List.length_take_le _ _)
  have rootLive : ∀ d, some s.root = some d → ∃ m, s.nodes d = some m := by
    intro d same
    cases Option.some.inj same
    exact ⟨r, live⟩
  cases split : splitLast (strlcpy path fsPathMax) with
  | none => exact ⟨some s.root, _, by simp only [resolveParent, split]; rfl, cut _, rootLive⟩
  | some parts =>
    obtain ⟨front, name⟩ := parts
    by_cases empty : front = []
    · exact ⟨some s.root, _, by simp only [resolveParent, split, if_pos empty]; rfl, cut _, rootLive⟩
    · obtain ⟨found, run, alive⟩ := fsLookup_spec tree front
      exact ⟨found, _, by simp only [resolveParent, split, if_neg empty, run]; rfl, cut _, alive⟩

end Lookup

section Names

theorem splitLast_spec {path front name : Bytes} (split : splitLast path = some (front, name)) :
    path = front ++ 47 :: name := by
  induction path generalizing front name with
  | nil => simp [splitLast] at split
  | cons c cs ih =>
    cases rest : splitLast cs with
    | some parts =>
      obtain ⟨front', name'⟩ := parts
      simp only [splitLast, rest, Option.some.injEq, Prod.mk.injEq] at split
      obtain ⟨rfl, rfl⟩ := split
      rw [ih rest, List.cons_append]
    | none =>
      by_cases slash : c = 47
      · simp only [splitLast, rest, slash, if_true, Option.some.injEq, Prod.mk.injEq] at split
        obtain ⟨rfl, rfl⟩ := split
        rw [slash, List.nil_append]
      · simp [splitLast, rest, slash] at split

theorem tokensFrom_slash (token path : Bytes) : tokensFrom token (path ++ [47]) = tokensFrom token path := by
  induction path generalizing token with
  | nil =>
    by_cases empty : token = []
    · simp [tokensFrom, empty]
    · simp [tokensFrom, empty]
  | cons c cs ih =>
    by_cases slash : c = 47
    · simp [tokensFrom, slash, ih]
    · simp [tokensFrom, slash, ih]

/-- A destination whose last name is empty is refused as an existing one, or has no parent. -/
theorem resolveParent_named {s : FsState} {path name : Bytes} {d : NodeId}
    (absent : fsLookup s path = some none) (parent : resolveParent s path = some (some d, name)) : name ≠ [] := by
  rintro rfl
  cases split : splitLast (strlcpy path fsPathMax) with
  | none =>
    simp only [resolveParent, split] at parent
    have cut : strlcpy (strlcpy path fsPathMax) fsNameMax = [] := by
      have pair := Option.some.inj parent
      exact congrArg Prod.snd pair
    have empty : strlcpy path fsPathMax = [] := by simpa [strlcpy] using cut
    rw [fsLookup, empty] at absent
    exact absurd (Option.some.inj absent) (by simp)
  | some parts =>
    obtain ⟨front, last⟩ := parts
    have whole := splitLast_spec split
    have short : front.length ≤ 511 := by
      have length := congrArg List.length whole
      have bound : (strlcpy path fsPathMax).length ≤ 511 := List.length_take_le _ _
      rw [List.length_append, List.length_cons] at length
      omega
    have cut : strlcpy last fsNameMax = [] := by
      by_cases empty : front = []
      · simp only [resolveParent, split, if_pos empty] at parent
        exact congrArg Prod.snd (Option.some.inj parent)
      · simp only [resolveParent, split, if_neg empty] at parent
        obtain ⟨found, -, pair⟩ := Option.bind_eq_some_iff.mp parent
        exact congrArg Prod.snd (Option.some.inj pair)
    have nothing : last = [] := by simpa [strlcpy] using cut
    have same : tokens (strlcpy path fsPathMax) = tokens front := by
      rw [whole, nothing]
      exact tokensFrom_slash [] front
    by_cases empty : front = []
    · rw [fsLookup, same, empty] at absent
      exact absurd (Option.some.inj absent) (by simp)
    · have whole_front : strlcpy front fsPathMax = front := List.take_of_length_le short
      simp only [resolveParent, split, if_neg empty] at parent
      obtain ⟨found, run, pair⟩ := Option.bind_eq_some_iff.mp parent
      rw [fsLookup, whole_front, ← same, ← fsLookup, absent] at run
      cases Option.some.inj run
      exact absurd (congrArg Prod.fst (Option.some.inj pair)) (by simp)

end Names

section Links
variable {s : FsState} {kids : NodeId → List NodeId} {x d : NodeId}

theorem lastSibling_last {xs : List NodeId} {first : NodeId}
    (path : Route (siblingOf (shapes s)) (some first) xs none)
    (alive : ∀ c ∈ xs, ∃ n, s.nodes c = some n) (short : xs.length ≤ s.nextInode) :
    ∃ last, lastSibling (walkFuel s) s first = some last ∧ xs.getLast? = some last := by
  rcases List.eq_nil_or_concat' xs with rfl | ⟨front, last, rfl⟩
  · exact absurd path (by simp [Route])
  · rw [List.length_append] at short
    have enough : front.length < walkFuel s := Nat.lt_succ_of_le (Nat.le_of_add_right_le short)
    exact ⟨last, lastSibling_spec path alive enough, List.getLast?_concat⟩

theorem nodeLink_spec {root : NodeId} {nd : FsNode}
    (forest : Forest (shapes s) root s.nextInode kids (some x)) (target : s.nodes d = some nd) (apart : d ≠ x) :
    ∃ s', nodeLink s d x = some s' ∧ shapes s' = attach (shapes s) d x (kids d).getLast? ∧
      s'.root = s.root ∧ s'.nextInode = s.nextInode := by
  let moved := setNode s x fun n => { n with parent := some d }
  have first : shapes moved = modify (shapes s) x fun n => { n with parent := some d } :=
    shapes_setNode (fun n => rfl)
  have target' : moved.nodes d = some nd := by simp [moved, setNode, apart, target]
  have path := forest.path d nd.shape (shapes_live target)
  cases children : nd.children with
  | none =>
    have empty : kids d = [] := by
      have head := path.head_eq
      rw [show nd.shape.children = none from children] at head
      exact List.head?_eq_none_iff.mp head.symm
    have run : nodeLink s d x = some (setNode moved d fun n => { n with children := some x }) := by
      change (moved.nodes d).bind _ = _
      rw [target', Option.bind_some]
      simp only [children]
      rfl
    refine ⟨_, run, ?_, rfl, rfl⟩
    rw [shapes_setNode (g := fun n => { n with children := some x }) (fun n => rfl), first, empty]
    rfl
  | some entry =>
    rw [show nd.shape.children = some entry from children] at path
    have links : siblingOf (shapes moved) = siblingOf (shapes s) := by
      rw [first]
      exact siblingOf_modify (fun n => rfl)
    have alive : ∀ c ∈ kids d, ∃ n, moved.nodes c = some n := by
      intro c member
      obtain ⟨m, here, -⟩ := forest.kid_live member
      obtain ⟨n, there, -⟩ := live_of_shape here
      have ne : c ≠ x := by
        rintro rfl
        exact forest.not_kid rfl member
      exact ⟨n, by simp [moved, setNode, ne, there]⟩
    rw [← links] at path
    obtain ⟨last, walk, ends⟩ := lastSibling_last path alive (forest.short (shapes_live target))
    have run : nodeLink s d x = some (setNode moved last fun n => { n with sibling := some x }) := by
      change (moved.nodes d).bind _ = _
      rw [target', Option.bind_some]
      simp only [children]
      change (lastSibling (walkFuel moved) moved entry).bind _ = _
      rw [walk]
      rfl
    refine ⟨_, run, ?_, rfl, rfl⟩
    rw [shapes_setNode (g := fun n => { n with sibling := some x }) (fun n => rfl), first, ends]
    rfl

theorem nodeUnlink_spec {pre post : List NodeId} {nx : FsNode} (tree : Tree s kids) (live : s.nodes x = some nx)
    (place : nx.parent = some d) (eq : kids d = pre ++ x :: post) :
    ∃ s', nodeUnlink s x = some s' ∧ shapes s' = detach (shapes s) d pre.getLast? (siblingOf (shapes s) x) ∧
      s'.root = s.root ∧ s'.nextInode = s.nextInode := by
  have link : siblingOf (shapes s) x = nx.sibling := by simp [siblingOf, shapes, live, FsNode.shape]
  obtain ⟨md, there, -⟩ := tree.dirs x nx.shape d (shapes_live live) place
  obtain ⟨nd, target, rfl⟩ := live_of_shape there
  have path := tree.path d nd.shape there
  have short := tree.short there
  have alive : ∀ c ∈ kids d, ∃ n, s.nodes c = some n := by
    intro c member
    obtain ⟨n, here, -⟩ := tree.kids_live member
    exact ⟨n, here⟩
  rw [eq] at path short alive
  rw [link]
  rcases List.eq_nil_or_concat' pre with rfl | ⟨ys, p, rfl⟩
  · have head : nd.children = some x := path.1
    have run : nodeUnlink s x = some (setNode s d fun n => { n with children := nx.sibling }) := by
      simp [nodeUnlink, live, place, target, head]
    exact ⟨_, run, shapes_setNode (fun n => rfl), rfl, rfl⟩
  · have nodup := path.nodup
    rw [List.append_assoc, List.singleton_append] at path short alive nodup
    have other : nd.children ≠ some x := by
      intro head
      have start : nd.shape.children = some x := head
      rw [start] at path
      cases ys with
      | nil =>
        obtain rfl : x = p := Option.some.inj path.1
        exact (List.nodup_cons.mp nodup).1 List.mem_cons_self
      | cons y ys =>
        obtain rfl : x = y := Option.some.inj path.1
        exact (List.nodup_cons.mp nodup).1 (by simp)
    have walk := unlinkSibling_spec nx.sibling path alive (Nat.lt_succ_of_le short)
    have run : nodeUnlink s x = some (setNode s p fun n => { n with sibling := nx.sibling }) := by
      simp only [nodeUnlink, live, place, target, Option.bind_eq_bind, Option.bind_some, if_neg other]
      exact walk
    refine ⟨_, run, ?_, rfl, rfl⟩
    rw [List.getLast?_concat]
    exact shapes_setNode (fun n => rfl)

end Links

section Growth
variable {s : FsState} {kids : NodeId → List NodeId} {d : NodeId}

/-- The node table after node_alloc. -/
def grown (env : Env) (s : FsState) (name : Bytes) (type : NodeType) (perms : Nat) : FsState :=
  { s with
    nodes := Function.update s.nodes s.nextInode (some (freshNode env name type perms))
    nextInode := s.nextInode + 1 }

theorem nodeAlloc_grown {env : Env} (name : Bytes) (type : NodeType) (perms : Nat) (memory : env.nodeAlloc = true) :
    nodeAlloc env s name type perms = (some s.nextInode, grown env s name type perms) := by
  rw [nodeAlloc, if_pos memory]
  rfl

theorem Forest.fresh_outside {σ : Shapes} {root next x : NodeId} (forest : Forest σ root next kids (some x)) {n : Shape}
    (live : σ x = some n) (orphan : n.parent = none) (leaf : kids x = []) (apart : d ≠ x) :
    ¬ Above (parentOf σ) d x := by
  intro below
  rcases Relation.ReflTransGen.cases_tail below with same | ⟨c, -, link⟩
  · exact apart same.symm
  · obtain ⟨m, here, parent⟩ := Option.bind_eq_some_iff.mp link
    have other : some x ≠ some c := by
      intro same
      cases Option.some.inj same
      cases Option.some.inj (here.symm.trans live)
      rw [orphan] at parent
      exact absurd parent (by simp)
    have member := (forest.member x c).mpr ⟨m, here, parent, other⟩
    rw [leaf] at member
    exact absurd member (by simp)

theorem Tree.grow (tree : Tree s kids) (env : Env) {name : Bytes} (type : NodeType) (perms : Nat)
    {f : FsNode → FsNode} (keep : ∀ n, (f n).shape = n.shape) {nd : FsNode} (target : s.nodes d = some nd)
    (dir : nd.type = .dir) (named : strlcpy name fsNameMax ≠ [])
    (distinct : ∀ c ∈ kids d, ∀ m, s.nodes c = some m → m.name ≠ strlcpy name fsNameMax) :
    ∃ s' kids', nodeLink (setNode (grown env s name type perms) s.nextInode f) d s.nextInode = some s' ∧
      Tree s' kids' := by
  have older : d ≠ s.nextInode := Nat.ne_of_lt (tree.fresh d nd.shape (shapes_live target))
  let entry := freshNode env name type perms
  have table : shapes (setNode (grown env s name type perms) s.nextInode f) =
      Function.update (shapes s) s.nextInode (some entry.shape) := by
    rw [shapes_touch keep]
    funext c
    by_cases same : c = s.nextInode
    · subst c
      simp [shapes, grown, entry]
    · simp [shapes, grown, same]
  obtain ⟨forest, leaf⟩ := tree.sprout (n := entry.shape) rfl rfl
  have live : Function.update (shapes s) s.nextInode (some entry.shape) s.nextInode = some entry.shape :=
    Function.update_self ..
  have there : Function.update (shapes s) s.nextInode (some entry.shape) d = some nd.shape := by
    rw [Function.update_of_ne older]
    exact shapes_live target
  have outside := forest.fresh_outside live rfl leaf older
  have unlike : ∀ c n, Function.update (shapes s) s.nextInode (some entry.shape) c = some n →
      n.parent = some d → c ≠ s.nextInode → n.name ≠ entry.shape.name := by
    intro c n here parent ne
    rw [Function.update_of_ne ne] at here
    obtain ⟨m, before, rfl⟩ := live_of_shape here
    exact distinct c ((tree.member d c).mpr ⟨m.shape, here, parent, by simp⟩) m before
  have whole := forest.attach live there dir rfl outside named unlike
  rw [← table] at forest whole
  have target' : (setNode (grown env s name type perms) s.nextInode f).nodes d = some nd := by
    simp [setNode, grown, older, target]
  obtain ⟨s', run, after, rootKept, inodeKept⟩ := nodeLink_spec (s := setNode (grown env s name type perms) s.nextInode f)
    forest target' older
  refine ⟨s', Function.update kids d (kids d ++ [s.nextInode]), run, ?_⟩
  rw [Tree, after, rootKept, inodeKept]
  exact whole

end Growth

end Qito.Vfs
