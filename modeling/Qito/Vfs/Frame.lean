import Qito.Vfs.Refinement

/-! What a call that only adds nodes and writes named files leaves as it was. Two
paths without . and .. that lead to the same node of a tree are the same, so a
file is safe from such a call unless the call writes the file of that very name. -/
namespace Qito.Vfs

/-- The tokens a lookup of the path goes through. -/
def steps (path : Bytes) : List Bytes := tokens (strlcpy path fsPathMax)

/-- Each token names an entry of the directory before it. -/
def Dotless (ts : List Bytes) : Prop := ∀ token ∈ ts, token ≠ dot ∧ token ≠ dotDot

instance (ts : List Bytes) : Decidable (Dotless ts) := inferInstanceAs (Decidable (∀ token ∈ ts, _))

section Descent
variable {s : FsState} {kids : NodeId → List NodeId}

theorem lookupFrom_append (s : FsState) (c : NodeId) (ts us : List Bytes) : lookupFrom s c (ts ++ us) =
    (lookupFrom s c ts).bind fun found => match found with
      | none => some none
      | some d => lookupFrom s d us := by
  induction ts generalizing c with
  | nil => rfl
  | cons token rest ih =>
    by_cases stay : token = dot
    · simp only [List.cons_append, lookupFrom, stay, if_true]
      exact ih c
    · by_cases up : token = dotDot
      · simp only [List.cons_append, lookupFrom, if_neg stay, if_pos up]
        cases s.nodes c with
        | none => rfl
        | some n => exact ih _
      · simp only [List.cons_append, lookupFrom, if_neg stay, if_neg up]
        cases findChild s c token with
        | none => rfl
        | some found =>
          cases found with
          | none => rfl
          | some child => exact ih child

theorem lookupFrom_last {c x : NodeId} {ts : List Bytes} {name : Bytes} (plain : name ≠ dot ∧ name ≠ dotDot) :
    lookupFrom s c (ts ++ [name]) = some (some x) ↔
      ∃ d, lookupFrom s c ts = some (some d) ∧ findChild s d name = some (some x) := by
  have one (d : NodeId) : lookupFrom s d [name] = some (some x) ↔ findChild s d name = some (some x) := by
    simp only [lookupFrom, if_neg plain.1, if_neg plain.2]
    cases findChild s d name with
    | none => simp
    | some found =>
      cases found with
      | none => simp
      | some child => simp
  rw [lookupFrom_append]
  constructor
  · intro run
    obtain ⟨found, front, rest⟩ := Option.bind_eq_some_iff.mp run
    cases found with
    | none => exact absurd (Option.some.inj rest) (by simp)
    | some d => exact ⟨d, front, (one d).mp rest⟩
  · rintro ⟨d, front, child⟩
    rw [front]
    exact (one d).mpr child

theorem Tree.findChild_iff (tree : Tree s kids) {d c : NodeId} {nd : FsNode} (live : s.nodes d = some nd) (name : Bytes) :
    findChild s d name = some (some c) ↔ ∃ n, s.nodes c = some n ∧ n.parent = some d ∧ n.name = name := by
  obtain ⟨found, run, hit, miss⟩ := findChild_spec tree name live
  constructor
  · intro search
    obtain ⟨member, m, here, same⟩ := hit c (Option.some.inj (run.symm.trans search))
    obtain ⟨n, there, parent⟩ := tree.kids_live member
    cases Option.some.inj (here.symm.trans there)
    exact ⟨m, here, parent, same⟩
  · rintro ⟨n, here, parent, rfl⟩
    have member : c ∈ kids d := (tree.member d c).mpr ⟨n.shape, shapes_live here, parent, by simp⟩
    have isDir : nd.type = .dir := by
      obtain ⟨m, there, dir⟩ := tree.dirs c n.shape d (shapes_live here) parent
      cases Option.some.inj ((shapes_live live).symm.trans there)
      exact dir
    cases found with
    | none => exact absurd rfl (miss rfl isDir c member n here)
    | some c' =>
      obtain ⟨member', m, here', same⟩ := hit c' rfl
      obtain ⟨m', there', parent'⟩ := tree.kids_live member'
      cases Option.some.inj (here'.symm.trans there')
      have equal := tree.distinct c c' n.shape m.shape d (shapes_live here) (shapes_live here') parent parent'
        (by simp) (by simp) same.symm
      rw [run, equal]

theorem Tree.descent_last (tree : Tree s kids) {ts : List Bytes} {name : Bytes} {x : NodeId} (plain : Dotless (ts ++ [name])) :
    lookupFrom s s.root (ts ++ [name]) = some (some x) ↔
      ∃ d n, lookupFrom s s.root ts = some (some d) ∧ s.nodes x = some n ∧ n.parent = some d ∧ n.name = name := by
  rw [lookupFrom_last (plain name (by simp))]
  obtain ⟨r, root, -⟩ := tree.root_live
  obtain ⟨found, walk, alive⟩ := lookupFrom_spec tree ts root
  constructor
  · rintro ⟨d, front, child⟩
    obtain ⟨nd, live⟩ := alive d (Option.some.inj (walk.symm.trans front))
    obtain ⟨n, low, parent, same⟩ := (tree.findChild_iff live name).mp child
    exact ⟨d, n, front, low, parent, same⟩
  · rintro ⟨d, n, front, low, parent, same⟩
    obtain ⟨nd, live⟩ := alive d (Option.some.inj (walk.symm.trans front))
    exact ⟨d, front, (tree.findChild_iff live name).mpr ⟨n, low, parent, same⟩⟩

theorem Dotless.front {ts : List Bytes} {name : Bytes} (plain : Dotless (ts ++ [name])) : Dotless ts :=
  fun token member => plain token (List.mem_append_left _ member)

theorem Tree.descent_unique (tree : Tree s kids) {ts us : List Bytes} {x : NodeId} (plain : Dotless ts) (plain' : Dotless us)
    (here : lookupFrom s s.root ts = some (some x)) (there : lookupFrom s s.root us = some (some x)) : ts = us := by
  obtain ⟨r, root, -, orphan⟩ := tree.root_live
  have top {vs : List Bytes} {name : Bytes} (dotless : Dotless (vs ++ [name]))
      (run : lookupFrom s s.root (vs ++ [name]) = some (some s.root)) : False := by
    obtain ⟨d, n, -, low, parent, -⟩ := (tree.descent_last dotless).mp run
    cases Option.some.inj (root.symm.trans low)
    exact absurd (orphan.symm.trans parent) (by simp)
  induction ts using List.reverseRecOn generalizing us x with
  | nil =>
    cases Option.some.inj (Option.some.inj here)
    rcases List.eq_nil_or_concat' us with rfl | ⟨vs, name, rfl⟩
    · rfl
    · exact (top plain' there).elim
  | append_singleton ts name ih =>
    rcases List.eq_nil_or_concat' us with rfl | ⟨vs, name', rfl⟩
    · cases Option.some.inj (Option.some.inj there)
      exact (top plain here).elim
    · obtain ⟨d, n, front, low, parent, rfl⟩ := (tree.descent_last plain).mp here
      obtain ⟨e, m, front', low', parent', rfl⟩ := (tree.descent_last plain').mp there
      cases Option.some.inj (low.symm.trans low')
      cases Option.some.inj (parent.symm.trans parent')
      rw [ih plain.front plain'.front front front']

end Descent

/-- The bytes of the in-memory regular file at the path. -/
def contentAt (s : FsState) (path : Bytes) : Option Bytes := do
  let id ← (← fsLookup s path)
  let n ← s.nodes id
  if n.body.Regular then some n.contents else none

/-- Every node is still in its place. -/
structure Places (s t : FsState) : Prop where
  root : t.root = s.root
  placed : ∀ id n, s.nodes id = some n → ∃ m, t.nodes id = some m ∧ m.name = n.name ∧ m.parent = n.parent ∧
    m.type = n.type ∧ m.ops = n.ops

/-- Only nodes were added and only the files at these paths written or made. -/
structure Keeps (paths : List Bytes) (s t : FsState) : Prop extends Places s t where
  written : ∀ id n m, s.nodes id = some n → t.nodes id = some m → n.body.Regular → m.contents = n.contents ∨
    ∃ q ∈ paths, fsLookup s q = some (some id)
  made : ∀ id m, s.nodes id = none → t.nodes id = some m → m.type = .file → ∃ q ∈ paths, fsLookup t q = some (some id)
  memory : ∀ id m, s.nodes id = none → t.nodes id = some m → m.ops = none

/-- The call that writes these files leaves the one at path alone. -/
def Spared (paths : List Bytes) (s : FsState) (path : Bytes) : Prop :=
  (contentAt s path ≠ none ∧ ∀ q ∈ paths, fsLookup s q ≠ fsLookup s path) ∨
    Dotless (steps path) ∧ ∀ q ∈ paths, steps q ≠ steps path

section Frame
variable {s t u : FsState} {kids kids' kids'' : NodeId → List NodeId} {paths paths' : List Bytes}

theorem contentAt_eq_some {path bytes : Bytes} : contentAt s path = some bytes ↔ ∃ id n, fsLookup s path = some (some id) ∧
    s.nodes id = some n ∧ n.body.Regular ∧ n.contents = bytes := by
  simp only [contentAt, Option.bind_eq_bind, Option.bind_eq_some_iff]
  constructor
  · rintro ⟨found, search, id, rfl, n, live, rest⟩
    split at rest
    · rename_i regular
      exact ⟨id, n, search, live, regular, Option.some.inj rest⟩
    · cases rest
  · rintro ⟨id, n, search, live, regular, same⟩
    exact ⟨some id, search, id, rfl, n, live, by rw [if_pos regular, same]⟩

theorem Keeps.refl (s : FsState) : Keeps [] s s where
  root := rfl
  placed _ n live := ⟨n, live, rfl, rfl, rfl, rfl⟩
  written id n m live live' _ := by
    cases Option.some.inj (live.symm.trans live')
    exact Or.inl rfl
  made id m dead live := absurd (dead.symm.trans live) (by simp)
  memory id m dead live := absurd (dead.symm.trans live) (by simp)

theorem Keeps.mono (keeps : Keeps paths s t) (sub : paths ⊆ paths') : Keeps paths' s t where
  root := keeps.root
  placed := keeps.placed
  written id n m live live' regular := (keeps.written id n m live live' regular).imp_right fun ⟨q, member, at_⟩ =>
    ⟨q, sub member, at_⟩
  made id m dead live file :=
    let ⟨q, member, at_⟩ := keeps.made id m dead live file
    ⟨q, sub member, at_⟩
  memory := keeps.memory

theorem Places.regular (keeps : Places s t) {id : NodeId} {n m : FsNode} (live : s.nodes id = some n)
    (live' : t.nodes id = some m) : m.body.Regular ↔ n.body.Regular := by
  obtain ⟨m', here, -, -, type, ops⟩ := keeps.placed id n live
  cases Option.some.inj (here.symm.trans live')
  simp only [Body.Regular, FsNode.body, type, ops]

theorem Places.lookupFrom (keeps : Places s t) (tree : Tree s kids) (tree' : Tree t kids') {ts : List Bytes}
    {c x : NodeId} {n : FsNode} (live : s.nodes c = some n) (run : lookupFrom s c ts = some (some x)) :
    lookupFrom t c ts = some (some x) := by
  induction ts generalizing c n with
  | nil => exact run
  | cons token rest ih =>
    obtain ⟨m, live', -, parent, -⟩ := keeps.placed c n live
    by_cases stay : token = dot
    · simp only [Vfs.lookupFrom, stay, if_true] at run ⊢
      exact ih live run
    · by_cases up : token = dotDot
      · have above : ∃ k, s.nodes (n.parent.getD s.root) = some k := by
          cases link : n.parent with
          | none =>
            obtain ⟨r, here, -⟩ := tree.root_live
            exact ⟨r, here⟩
          | some d =>
            obtain ⟨m, there, -⟩ := tree.dirs c n.shape d (shapes_live live) link
            obtain ⟨k, here, -⟩ := live_of_shape there
            exact ⟨k, here⟩
        obtain ⟨k, here⟩ := above
        simp only [Vfs.lookupFrom, if_neg stay, if_pos up, live, live', Option.bind_eq_bind, Option.bind_some] at run ⊢
        rw [parent, keeps.root]
        exact ih here run
      · simp only [Vfs.lookupFrom, if_neg stay, if_neg up] at run ⊢
        obtain ⟨found, search, rest⟩ := Option.bind_eq_some_iff.mp run
        cases found with
        | none => exact absurd (Option.some.inj rest) (by simp)
        | some child =>
          obtain ⟨k, here, up', name⟩ := (tree.findChild_iff live token).mp search
          obtain ⟨k', there, name', parent', -⟩ := keeps.placed child k here
          have search' : findChild t c token = some (some child) :=
            (tree'.findChild_iff live' token).mpr ⟨k', there, parent'.trans up', name'.trans name⟩
          rw [search']
          exact ih here rest

theorem Places.lookup (keeps : Places s t) (tree : Tree s kids) (tree' : Tree t kids') {path : Bytes} {x : NodeId}
    (run : fsLookup s path = some (some x)) : fsLookup t path = some (some x) := by
  obtain ⟨r, live, -⟩ := tree.root_live
  rw [fsLookup, keeps.root]
  exact keeps.lookupFrom tree tree' live run

theorem Places.descent_back (keeps : Places s t) (tree : Tree s kids) (tree' : Tree t kids') {ts : List Bytes}
    {x : NodeId} {n : FsNode} (plain : Dotless ts) (live : s.nodes x = some n)
    (run : Vfs.lookupFrom t t.root ts = some (some x)) : Vfs.lookupFrom s s.root ts = some (some x) := by
  induction ts using List.reverseRecOn generalizing x n with
  | nil =>
    rw [← keeps.root]
    exact run
  | append_singleton ts name ih =>
    obtain ⟨d, m, front, low, parent, named⟩ := (tree'.descent_last plain).mp run
    obtain ⟨m', low', named', parent', -⟩ := keeps.placed x n live
    cases Option.some.inj (low.symm.trans low')
    have above : n.parent = some d := parent'.symm.trans parent
    obtain ⟨k, there, -⟩ := tree.dirs x n.shape d (shapes_live live) above
    obtain ⟨nd, here, -⟩ := live_of_shape there
    exact (tree.descent_last plain).mpr ⟨d, n, ih plain.front here front, live, above, named'.symm.trans named⟩

theorem Keeps.trans (first : Keeps paths s t) (second : Keeps paths' t u) (tree : Tree s kids) (tree' : Tree t kids')
    (tree'' : Tree u kids'') (plain : ∀ q ∈ paths', Dotless (steps q)) : Keeps (paths ++ paths') s u where
  root := second.root.trans first.root
  placed id n live := by
    obtain ⟨m, here, a, b, c, d⟩ := first.placed id n live
    obtain ⟨k, there, a', b', c', d'⟩ := second.placed id m here
    exact ⟨k, there, a'.trans a, b'.trans b, c'.trans c, d'.trans d⟩
  written id n k live live'' regular := by
    obtain ⟨m, here, -⟩ := first.placed id n live
    rcases first.written id n m live here regular with same | ⟨q, member, at_⟩
    · rcases second.written id m k here live'' ((first.regular live here).mpr regular) with same' | ⟨q, member, at_⟩
      · exact Or.inl (same'.trans same)
      · refine Or.inr ⟨q, List.mem_append_right _ member, ?_⟩
        exact first.descent_back tree tree' (plain q member) live at_
    · exact Or.inr ⟨q, List.mem_append_left _ member, at_⟩
  made id k dead live'' file := by
    cases before : t.nodes id with
    | none =>
      obtain ⟨q, member, at_⟩ := second.made id k before live'' file
      exact ⟨q, List.mem_append_right _ member, at_⟩
    | some m =>
      obtain ⟨k', here, -, -, type, -⟩ := second.placed id m before
      cases Option.some.inj (here.symm.trans live'')
      obtain ⟨q, member, at_⟩ := first.made id m dead before (type.symm.trans file)
      exact ⟨q, List.mem_append_left _ member, second.lookup tree' tree'' at_⟩
  memory id k dead live'' := by
    cases before : t.nodes id with
    | none => exact second.memory id k before live''
    | some m =>
      obtain ⟨k', here, -, -, -, ops⟩ := second.placed id m before
      cases Option.some.inj (here.symm.trans live'')
      exact ops.trans (first.memory id m dead before)

theorem Keeps.content (keeps : Keeps paths s t) (tree : Tree s kids) (tree' : Tree t kids') {path : Bytes}
    (plain : ∀ q ∈ paths, Dotless (steps q)) (spared : Spared paths s path) : contentAt t path = contentAt s path := by
  have stays {bytes : Bytes} (before : contentAt s path = some bytes) : contentAt t path = some bytes := by
    obtain ⟨id, n, search, live, regular, rfl⟩ := contentAt_eq_some.mp before
    obtain ⟨m, here, -⟩ := keeps.placed id n live
    refine contentAt_eq_some.mpr ⟨id, m, keeps.lookup tree tree' search, here, (keeps.regular live here).mpr regular, ?_⟩
    refine (keeps.written id n m live here regular).resolve_right ?_
    rintro ⟨q, member, at_⟩
    rcases spared with ⟨-, apart⟩ | ⟨dotless, apart⟩
    · exact apart q member (at_.trans search.symm)
    · exact apart q member (tree.descent_unique (plain q member) dotless at_ search)
  cases before : contentAt s path with
  | some bytes => exact stays before
  | none =>
    rcases spared with ⟨there, -⟩ | ⟨dotless, apart⟩
    · exact absurd before there
    · by_contra appeared
      obtain ⟨bytes, after⟩ := Option.ne_none_iff_exists'.mp appeared
      obtain ⟨id, m, search, live', regular, -⟩ := contentAt_eq_some.mp after
      cases old : s.nodes id with
      | none =>
        obtain ⟨q, member, at_⟩ := keeps.made id m old live' regular.1
        exact apart q member (tree'.descent_unique (plain q member) dotless at_ search)
      | some n =>
        have here := keeps.descent_back tree tree' dotless old search
        have was := contentAt_eq_some.mpr ⟨id, n, here, old, (keeps.regular old live').mp regular, rfl⟩
        exact absurd (before.symm.trans was) (by simp)

end Frame

end Qito.Vfs
