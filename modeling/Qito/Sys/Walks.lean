import Qito.Sys.Paths

/-! A path resolved as text against the same path walked from node to node. In a
tree the names from the root to a node are its only path without dots, and a walk
does to them what the components do to the canonical stack. -/
namespace Qito.Vfs
open Sys

/-- fs_lookup_at; an empty path stays at base. -/
def fsLookupAt (s : FsState) (base : NodeId) (path : Bytes) : Option (Option NodeId) :=
  if path = [] then some (some base)
  else lookupFrom s (if path.head? = some 47 then s.root else base) (tokens (strlcpy path fsPathMax))

/-- Every node but the root has a name that a path can spell. -/
def Spelled (s : FsState) : Prop :=
  ∀ id n, s.nodes id = some n → id ≠ s.root → n.name ≠ [] ∧ 47 ∉ n.name ∧ n.name ≠ dot ∧ n.name ≠ dotDot

/-- The names from the root down to a node. -/
structure Stands (s : FsState) (cs : List Bytes) (d : NodeId) : Prop where
  plain : Dotless cs
  found : lookupFrom s s.root cs = some (some d)

section Standing
variable {s : FsState} {kids : NodeId → List NodeId} {cs ts : List Bytes} {d x : NodeId}

theorem Dotless.snoc {t : Bytes} (plain : Dotless cs) (name : t ≠ dot ∧ t ≠ dotDot) : Dotless (cs ++ [t]) := by
  intro u member
  rcases List.mem_append.mp member with old | new
  · exact plain u old
  · cases List.mem_singleton.mp new
    exact name

theorem Tree.not_root {n : FsNode} (tree : Tree s kids) (live : s.nodes x = some n) (parent : n.parent = some d) : x ≠ s.root := by
  rintro rfl
  obtain ⟨r, root, -, orphan⟩ := tree.root_live
  cases Option.some.inj (root.symm.trans live)
  exact absurd (orphan.symm.trans parent) (by simp)

theorem Stands.root (s : FsState) : Stands s [] s.root := ⟨by simp [Dotless], rfl⟩

theorem Stands.up {name : Bytes} (tree : Tree s kids) (stands : Stands s (cs ++ [name]) x) :
    ∃ n d, s.nodes x = some n ∧ n.parent = some d ∧ n.name = name ∧ Stands s cs d := by
  obtain ⟨d, n, front, live, parent, same⟩ := (tree.descent_last stands.plain).mp stands.found
  exact ⟨n, d, live, parent, same, stands.plain.front, front⟩

theorem Stands.whole (tree : Tree s kids) (spelled : Spelled s) (stands : Stands s cs d) : ∀ t ∈ cs, t ≠ [] ∧ 47 ∉ t := by
  induction cs using List.reverseRecOn generalizing d with
  | nil => simp
  | append_singleton cs name ih =>
    obtain ⟨n, e, live, parent, same, above⟩ := stands.up tree
    obtain ⟨some_, clean, -⟩ := spelled d n live (tree.not_root live parent)
    intro t member
    rcases List.mem_append.mp member with old | new
    · exact ih above t old
    · cases List.mem_singleton.mp new
      exact same ▸ ⟨some_, clean⟩

end Standing

section Walking
variable {s : FsState} {kids : NodeId → List NodeId} {cs ts : List Bytes} {d x : NodeId}

theorem Stands.walk (tree : Tree s kids) (whole : ∀ t ∈ ts, t ≠ []) (stands : Stands s cs d)
    (walk : lookupFrom s d ts = some (some x)) : Stands s (ts.foldl canonicalStep cs) x := by
  induction ts generalizing cs d with
  | nil =>
    cases Option.some.inj (Option.some.inj walk)
    exact stands
  | cons t ts ih =>
    have some_ : t ≠ [] := whole t (by simp)
    have rest : ∀ u ∈ ts, u ≠ [] := fun u member => whole u (by simp [member])
    simp only [List.foldl_cons, canonicalStep, some_, false_or]
    by_cases stay : t = dot
    · simp only [lookupFrom, if_pos stay] at walk
      rw [if_pos stay]
      exact ih rest stands walk
    · by_cases up : t = dotDot
      · simp only [lookupFrom, if_neg stay, if_pos up] at walk
        rw [if_neg stay, if_pos up]
        obtain ⟨n, live, onward⟩ := Option.bind_eq_some_iff.mp walk
        rcases List.eq_nil_or_concat' cs with rfl | ⟨front, name, rfl⟩
        · -- The root has no parent, and .. leaves both where they are.
          cases Option.some.inj (Option.some.inj stands.found)
          obtain ⟨r, root, -, orphan⟩ := tree.root_live
          cases Option.some.inj (root.symm.trans live)
          rw [orphan] at onward
          exact ih rest stands onward
        · obtain ⟨m, e, here, parent, -, above⟩ := stands.up tree
          cases Option.some.inj (here.symm.trans live)
          rw [parent] at onward
          rw [List.dropLast_concat]
          exact ih rest above onward
      · simp only [lookupFrom, if_neg stay, if_neg up] at walk
        rw [if_neg stay, if_neg up]
        obtain ⟨found, search, onward⟩ := Option.bind_eq_some_iff.mp walk
        cases found with
        | none => exact absurd (Option.some.inj onward) (by simp)
        | some child =>
          exact ih rest ⟨stands.plain.snoc ⟨stay, up⟩, (lookupFrom_last ⟨stay, up⟩).mpr ⟨d, stands.found, search⟩⟩ onward

theorem tokens_combined (whole : ∀ t ∈ cs, t ≠ [] ∧ 47 ∉ t) (path : Bytes) :
    tokens (combined (joined cs) path) = if path.head? = some 47 then tokens path else cs ++ tokens path := by
  unfold combined
  split
  · rfl
  · rcases List.eq_nil_or_concat' cs with rfl | ⟨front, name, rfl⟩
    · rfl
    · obtain ⟨some_, clean⟩ := whole name (by simp)
      have text : joined (front ++ [name]) = absolute (front ++ [name]) := by simp [joined]
      have last : (joined (front ++ [name])).getLast? ≠ some 47 := by
        rw [text, absolute_snoc]
        intro slash
        rw [List.getLast?_append_of_ne_nil _ (by simp), List.getLast?_cons_of_ne_nil some_] at slash
        exact clean (List.mem_of_getLast? slash)
      rw [if_neg last, text, tokens, tokensFrom_append, ← tokens, tokens_segments whole]

theorem canonicalStep_plain (plain : Dotless ts) (whole : ∀ t ∈ ts, t ≠ []) : ts.foldl canonicalStep cs = cs ++ ts := by
  induction ts generalizing cs with
  | nil => simp
  | cons t ts ih =>
    obtain ⟨stay, up⟩ := plain t (by simp)
    have some_ : t ≠ [] := whole t (by simp)
    simp only [List.foldl_cons, canonicalStep, some_, stay, or_self, if_false, if_neg up]
    rw [ih (fun u member => plain u (by simp [member])) (fun u member => whole u (by simp [member])),
      List.append_assoc, List.singleton_append]

theorem Stands.lookup {path : Bytes} (tree : Tree s kids) (spelled : Spelled s) (stands : Stands s cs d)
    (short : path.length < fsPathMax) (found : fsLookupAt s d path = some (some x)) :
    Stands s (canonicalStack (combined (joined cs) path)) x := by
  have whole := stands.whole tree spelled
  have uncut : strlcpy path fsPathMax = path := List.take_of_length_le (Nat.le_sub_one_of_lt short)
  have names : ∀ t ∈ tokens path, t ≠ [] := fun t member => (tokensFrom_whole (by simp) path t member).1
  rw [canonicalStack_tokens, tokens_combined whole]
  unfold fsLookupAt at found
  rw [uncut] at found
  split
  · rename_i top
    have some_ : path ≠ [] := by
      rintro rfl
      simp at top
    rw [if_neg some_, if_pos top] at found
    exact (Stands.root s).walk tree names found
  · rename_i below
    rw [List.foldl_append, canonicalStep_plain stands.plain (fun t member => (whole t member).1), List.nil_append]
    by_cases empty : path = []
    · subst empty
      rw [if_pos rfl] at found
      cases Option.some.inj (Option.some.inj found)
      exact stands
    · rw [if_neg empty, if_neg below] at found
      exact stands.walk tree names found

theorem fsLookup_joined {k : List Bytes} (whole : ∀ t ∈ k, t ≠ [] ∧ 47 ∉ t) (short : (joined k).length < fsPathMax) :
    fsLookup s (joined k) = lookupFrom s s.root k := by
  rw [fsLookup, strlcpy, List.take_of_length_le (Nat.le_sub_one_of_lt short), tokens_joined whole]

theorem combined_head (cs : List Bytes) (path : Bytes) : (combined (joined cs) path).head? = some 47 := by
  unfold combined
  split
  · assumption
  · have top := joined_head cs
    cases text : joined cs with
    | nil => simp [text] at top
    | cons c rest =>
      rw [text] at top
      split
      · exact top
      · exact top

theorem combined_length (cwd path : Bytes) : path.length ≤ (combined cwd path).length := by
  unfold combined
  split
  · exact le_rfl
  · split
    · simp
    · simp only [List.length_append, List.length_cons]
      omega

theorem text_finds_what_the_walk_finds (s : FsState) (kids : NodeId → List NodeId) (tree : Tree s kids) (spelled : Spelled s)
    (d x : NodeId) (cs : List Bytes) (stands : Stands s cs d) (path : Bytes)
    (short : (combined (joined cs) path).length < fsPathMax) (found : fsLookupAt s d path = some (some x)) :
    fsLookup s (fsResolvePath (joined cs) path) = some (some x) ↔ Unlost (combined (joined cs) path) := by
  have there := stands.lookup tree spelled (Nat.lt_of_le_of_lt (combined_length _ path) short) found
  have rooted := combined_head cs path
  have whole := collapse_whole (combined (joined cs) path)
  have resolved := fsResolvePath_joined rooted short
  have bound := collapse_fits rooted short
  rw [resolved, fsLookup_joined whole bound, ← collapse_canonical]
  constructor
  · intro here
    exact tree.descent_unique (collapse_dotless _) there.plain here there.found
  · intro same
    rw [same]
    exact there.found

end Walking

section Chain

def chainNode (n id : Nat) : FsNode where
  name := if id = 1 then [47] else [97]
  type := .dir
  permissions := 0o755
  uid := 0
  gid := 0
  size := 0
  capacity := 0
  data := fun _ => 0
  created := 0
  modified := 0
  accessed := 0
  ops := none
  backing := none
  parent := if id = 1 then none else some (id - 1)
  children := if id < n then some (id + 1) else none
  sibling := none
  openCount := 0

/-- Directories called a inside each other, n of them with the root. -/
def chain (n : Nat) : FsState where
  nodes id := if 1 ≤ id ∧ id ≤ n then some (chainNode n id) else none
  root := 1
  nextInode := n + 1
  files := fun _ => none
  nextFile := 0
  openFileCount := 0

def chainKids (n id : Nat) : List NodeId := if 1 ≤ id ∧ id < n then [id + 1] else []

variable {n : Nat}

theorem chain_shape {id : Nat} {m : Shape} (live : shapes (chain n) id = some m) :
    1 ≤ id ∧ id ≤ n ∧ m = (chainNode n id).shape := by
  obtain ⟨node, here, rfl⟩ := live_of_shape live
  simp only [chain] at here
  split at here
  · rename_i inside
    exact ⟨inside.1, inside.2, by rw [Option.some.inj here]⟩
  · simp at here

theorem chain_live {id : Nat} (low : 1 ≤ id) (high : id ≤ n) : shapes (chain n) id = some (chainNode n id).shape :=
  shapes_live (if_pos ⟨low, high⟩)

theorem chain_parent {id d : Nat} (parent : (chainNode n id).shape.parent = some d) : id ≠ 1 ∧ d = id - 1 := by
  simp only [FsNode.shape, chainNode] at parent
  split at parent
  · simp at parent
  · exact ⟨‹_›, (Option.some.inj parent).symm⟩

theorem chain_above {id : Nat} (low : 1 ≤ id) (high : id ≤ n) : Ancestry.Above (parentOf (shapes (chain n))) id 1 := by
  induction id with
  | zero => omega
  | succ id ih =>
    cases id with
    | zero => exact Relation.ReflTransGen.refl
    | succ id =>
      have link : parentOf (shapes (chain n)) (id + 1 + 1) = some (id + 1) := by
        rw [parentOf, chain_live low high]
        rfl
      exact Relation.ReflTransGen.head link (ih (by omega) (by omega))

theorem chain_tree (some_ : 1 ≤ n) : Tree (chain n) (chainKids n) := by
  constructor
  · exact ⟨_, chain_live (le_refl 1) some_, rfl, rfl, by simp⟩
  · intro (d : Nat) m live
    obtain ⟨low, -, rfl⟩ := chain_shape live
    by_cases inner : d < n
    · have next : siblingOf (shapes (chain n)) (d + 1) = none := by
        rw [siblingOf, chain_live (by omega) inner]
        rfl
      simp [chainKids, low, inner, FsNode.shape, chainNode, Links.Route, next]
    · simp [chainKids, inner, FsNode.shape, chainNode, Links.Route]
  · intro (d : Nat) (c : Nat)
    constructor
    · intro member
      unfold chainKids at member
      split at member
      · cases List.mem_singleton.mp member
        rename_i inside
        refine ⟨_, chain_live (by omega) inside.2, ?_, by simp⟩
        have deep : d ≠ 0 := by omega
        simp [FsNode.shape, chainNode, deep]
      · simp at member
    · rintro ⟨m, live, parent, -⟩
      obtain ⟨low, high, rfl⟩ := chain_shape live
      obtain ⟨deep, rfl⟩ := chain_parent parent
      have back : c = c - 1 + 1 := by omega
      rw [chainKids, if_pos (by omega), List.mem_singleton]
      exact back
  · intro (c : Nat) m (d : Nat) live parent
    obtain ⟨low, high, rfl⟩ := chain_shape live
    obtain ⟨deep, rfl⟩ := chain_parent parent
    exact ⟨_, chain_live (by omega) (by omega), rfl⟩
  · intro (c : Nat) m live _
    obtain ⟨low, high, -⟩ := chain_shape live
    exact chain_above low high
  · intro (c : Nat) m (d : Nat) live parent _
    obtain ⟨-, -, rfl⟩ := chain_shape live
    obtain ⟨deep, -⟩ := chain_parent parent
    simp [FsNode.shape, chainNode, deep]
  · intro (a : Nat) (b : Nat) m k (d : Nat) left right parent parent' _ _ _
    obtain ⟨low, -, rfl⟩ := chain_shape left
    obtain ⟨low', -, rfl⟩ := chain_shape right
    obtain ⟨deep, rfl⟩ := chain_parent parent
    obtain ⟨deep', same⟩ := chain_parent parent'
    change (a : Nat) = b
    omega
  · intro c m live
    obtain ⟨-, high, -⟩ := chain_shape live
    exact Nat.lt_succ_of_le high

theorem chain_spelled : Spelled (chain n) := by
  intro id node live inner
  simp only [chain] at live inner
  split at live
  · cases Option.some.inj live
    simp [chainNode, inner, dot, dotDot]
  · simp at live

/-- In /a/a, the path ../a from the inner directory. -/
theorem sibling_found_by_text : fsLookup (chain 3) (fsResolvePath (ascii "/a/a") (ascii "../a")) = some (some 3) := by
  have found : fsLookupAt (chain 3) 3 (ascii "../a") = some (some 3) := by decide
  exact (text_finds_what_the_walk_finds (chain 3) (chainKids 3) (chain_tree (by decide)) chain_spelled 3 3
    [[97], [97]] ⟨by decide, by decide⟩ (ascii "../a") (by decide) found).mpr (by decide)

set_option maxRecDepth 100000 in
/-- From the directory 60 levels down, a path of five names leads to the node 65
levels down; its text leads to the one above it. -/
theorem text_stops_above : ¬ ∀ s kids, Tree s kids → Spelled s → ∀ d x cs, Stands s cs d → ∀ path,
    (tokens path).length ≤ 64 → (combined (joined cs) path).length < fsPathMax → fsLookupAt s d path = some (some x) →
    fsLookup s (fsResolvePath (joined cs) path) = some (some x) := by
  intro always
  have wrong := always (chain 66) (chainKids 66) (chain_tree (by decide)) chain_spelled 61 66 (List.replicate 60 [97])
    ⟨by decide, by decide⟩ (ascii "a/a/a/a/a") (by decide) (by decide) (by decide)
  revert wrong
  decide

end Chain

end Qito.Vfs
