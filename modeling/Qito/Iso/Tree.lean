import Mathlib.Data.Char
import Mathlib.Data.List.GetD
import Mathlib.Data.List.Lex
import Mathlib.Data.List.Sort
import Qito.Iso.Names
import Qito.Lib.Forest

/-! The tree of an IsoBuilder. Nodes are numbered in the order in which they are added,
from the root 0 on, and a node records the directory it was added to: the children
of a directory are the nodes added to it, in that order. -/
namespace Qito.Iso

structure Node where
  name : Text
  isDir : Bool
  data : Bytes
  parent : Nat

def rootNode : Node := ⟨[], true, [], 0⟩

/-- What gmtime makes of the time at which the builder was made. -/
structure Stamp where
  year : Nat
  mon : Nat
  mday : Nat
  hour : Nat
  min : Nat
  sec : Nat
  fourDigits : year < 10000
  inDay : mon ≤ 12 ∧ mday ≤ 31 ∧ hour < 24 ∧ min < 60 ∧ sec ≤ 61

structure IsoBuilder where
  volumeId : Text
  appId : Text
  nodes : List Node
  bootImage : Option Text
  bootLoadSize : Nat
  patchBootInfo : Bool
  timestamp : Stamp
  root : nodes[0]? = some rootNode
  parents : ∀ i n, 0 < i → nodes[i]? = some n → n.parent < i ∧ ∃ up, nodes[n.parent]? = some up ∧ up.isDir = true

namespace IsoBuilder

def empty (volumeId appId : Text) (timestamp : Stamp) : IsoBuilder where
  volumeId := volumeId
  appId := appId
  nodes := [rootNode]
  bootImage := none
  bootLoadSize := 4
  patchBootInfo := true
  timestamp := timestamp
  root := rfl
  parents := by
    intro i n positive there
    have inside := (List.getElem?_eq_some_iff.mp there).1
    rw [List.length_singleton] at inside
    omega

def node (b : IsoBuilder) (i : Nat) : Node := b.nodes.getD i ⟨[], false, [], 0⟩

def children (b : IsoBuilder) (p : Nat) : List Nat :=
  (List.range b.nodes.length).filter fun c => decide (0 < c) && (b.node c).parent == p

def key (b : IsoBuilder) (i : Nat) : Text := isoName (b.node i).name (b.node i).isDir

def sortedChildren (b : IsoBuilder) (p : Nat) : List Nat := (b.children p).insertionSort fun x y => b.key x ≤ b.key y

/-- A directory of the tree. -/
def IsDir (b : IsoBuilder) (i : Nat) : Prop := (b.node i).isDir = true

instance (b : IsoBuilder) (i : Nat) : Decidable (b.IsDir i) := inferInstanceAs (Decidable ((b.node i).isDir = true))

theorem node_of_get {b : IsoBuilder} {i : Nat} {n : Node} (there : b.nodes[i]? = some n) : b.node i = n := by
  rw [node, List.getD_eq_getElem?_getD, there]
  rfl

theorem get_of_inside {b : IsoBuilder} {i : Nat} (inside : i < b.nodes.length) : b.nodes[i]? = some (b.node i) := by
  rw [node, List.getD_eq_getElem?_getD, List.getElem?_eq_getElem inside]
  rfl

theorem IsDir.inside {b : IsoBuilder} {i : Nat} (dir : b.IsDir i) : i < b.nodes.length := by
  by_contra outside
  rw [IsDir, node, List.getD_eq_default _ _ (Nat.le_of_not_lt outside)] at dir
  cases dir

/-- Node.add of a new node. -/
def add (b : IsoBuilder) (p : Nat) (dir : b.IsDir p) (name : Text) (isDir : Bool) (data : Bytes) : IsoBuilder :=
  { b with
    nodes := b.nodes ++ [⟨name, isDir, data, p⟩]
    root := by
      have start := (List.getElem?_eq_some_iff.mp b.root).1
      rw [List.getElem?_append_left start]
      exact b.root
    parents := by
      intro i n positive there
      by_cases old : i < b.nodes.length
      · rw [List.getElem?_append_left old] at there
        obtain ⟨less, up, above, isUp⟩ := b.parents i n positive there
        refine ⟨less, up, ?_, isUp⟩
        rw [List.getElem?_append_left (by omega)]
        exact above
      · rw [List.getElem?_append_right (by omega), List.getElem?_singleton] at there
        have last : i = b.nodes.length := by
          by_contra other
          rw [if_neg (by omega)] at there
          cases there
        rw [if_pos (by omega)] at there
        cases there
        refine ⟨last ▸ dir.inside, b.node p, ?_, dir⟩
        rw [List.getElem?_append_left dir.inside]
        exact get_of_inside dir.inside }

/-- A builder and one of its directories. -/
structure Place where
  builder : IsoBuilder
  node : Nat
  dir : builder.IsDir node

theorem isDir_root (b : IsoBuilder) : b.IsDir 0 := by
  rw [IsDir, node_of_get b.root]
  rfl

theorem isDir_added (b : IsoBuilder) (p : Nat) (dir : b.IsDir p) (name : Text) (data : Bytes) :
    (b.add p dir name true data).IsDir b.nodes.length := by
  rw [IsDir, node_of_get (n := ⟨name, true, data, p⟩)]
  exact List.getElem?_concat_length

/-- The directory of this name in a directory. -/
def findDir (b : IsoBuilder) (p : Nat) (part : Text) : Option { c : Nat // b.IsDir c } :=
  ((b.children p).find? fun c => (b.node c).isDir && (b.node c).name == part).bind fun c =>
    if dir : b.IsDir c then some ⟨c, dir⟩ else none

def walkStep (create : Bool) (place : Place) (part : Text) : Option Place :=
  match place.builder.findDir place.node part with
  | some c => some ⟨place.builder, c.1, c.2⟩
  | none =>
    if create then some ⟨place.builder.add place.node place.dir part true [], place.builder.nodes.length, isDir_added _ _ place.dir part []⟩
    else none

def walkTo (b : IsoBuilder) (path : Text) (create : Bool) : Option Place :=
  ((path.splitOn '/').filter (· ≠ [])).foldlM (walkStep create) ⟨b, 0, b.isDir_root⟩

def addDir (b : IsoBuilder) (path : Text) : Option Place := b.walkTo path true

def strip (path : Text) : Text := ((path.dropWhile (· = '/')).reverse.dropWhile (· = '/')).reverse

def addFile (b : IsoBuilder) (path : Text) (data : Bytes) : Option IsoBuilder :=
  match rpartition '/' (strip path) with
  | none => some (b.add 0 b.isDir_root (strip path) false data)
  | some (directory, name) => do
    let place ← if directory = [] then some (Place.mk b 0 b.isDir_root) else b.walkTo directory true
    some (place.builder.add place.node place.dir name false data)

def addBootImage (b : IsoBuilder) (path : Text) (data : Bytes) (loadSize : Option Nat) : Option IsoBuilder := do
  let added ← b.addFile path data
  some { added with bootImage := some (strip path), bootLoadSize := loadSize.getD ((data.length + 511) / 512) }

/-- The directories in a directory. -/
def dirChildren (b : IsoBuilder) (p : Nat) : List Nat := (b.sortedChildren p).filter fun c => (b.node c).isDir

def allDirs (b : IsoBuilder) : List Nat := Forest.breadth b.dirChildren b.nodes.length [0] 0

def dirNumber (b : IsoBuilder) (d : Nat) : Nat := b.allDirs.idxOf d + 1

def parentNumber (b : IsoBuilder) (d : Nat) : Nat := if d = 0 then 1 else b.dirNumber (b.node d).parent

def iterNodes (b : IsoBuilder) : Nat → Nat → List Nat
  | 0, _ => []
  | fuel + 1, node => (b.sortedChildren node).flatMap fun c => c :: if (b.node c).isDir then b.iterNodes fuel c else []

def files (b : IsoBuilder) : List Nat := (b.iterNodes b.nodes.length 0).filter fun c => !(b.node c).isDir

/-- The names on the way from the root, joined. -/
def pathFrom (b : IsoBuilder) : Nat → Nat → Text
  | 0, _ => []
  | fuel + 1, i =>
    if i = 0 then []
    else
      match b.pathFrom fuel (b.node i).parent with
      | [] => (b.node i).name
      | c :: cs => (c :: cs) ++ '/' :: (b.node i).name

def pathOf (b : IsoBuilder) (i : Nat) : Text := b.pathFrom (i + 1) i

section Shape
variable {b : IsoBuilder} {p c : Nat}

theorem mem_children : c ∈ b.children p ↔ c < b.nodes.length ∧ 0 < c ∧ (b.node c).parent = p := by
  simp [children]

theorem mem_sortedChildren : c ∈ b.sortedChildren p ↔ c < b.nodes.length ∧ 0 < c ∧ (b.node c).parent = p := by
  rw [sortedChildren, List.mem_insertionSort, mem_children]

theorem parent_dir (inside : c < b.nodes.length) (positive : 0 < c) : (b.node c).parent < c ∧ b.IsDir (b.node c).parent := by
  obtain ⟨less, up, there, dir⟩ := b.parents c _ positive (get_of_inside inside)
  refine ⟨less, ?_⟩
  rw [IsDir, node_of_get there]
  exact dir

theorem tree (b : IsoBuilder) : Forest.Tree b.sortedChildren (fun i => (b.node i).parent) b.nodes.length where
  up member := (mem_sortedChildren.mp member).2.2
  later member := by
    obtain ⟨inside, positive, rfl⟩ := mem_sortedChildren.mp member
    exact (parent_dir inside positive).1
  inside member := (mem_sortedChildren.mp member).1
  once p := by
    rw [sortedChildren, (List.perm_insertionSort _ _).nodup_iff]
    exact (List.nodup_range).filter _

theorem dirTree (b : IsoBuilder) : Forest.Tree b.dirChildren (fun i => (b.node i).parent) b.nodes.length where
  up member := b.tree.up (List.mem_of_mem_filter member)
  later member := b.tree.later (List.mem_of_mem_filter member)
  inside member := b.tree.inside (List.mem_of_mem_filter member)
  once p := (b.tree.once p).filter _

theorem root_inside (b : IsoBuilder) : 0 < b.nodes.length := b.isDir_root.inside

theorem spread (b : IsoBuilder) : Forest.Spread b.dirChildren 0 b.allDirs b.allDirs.length := by
  apply Forest.breadth_spread b.dirTree
  · intro p member
    exact absurd (b.dirTree.later member) (Nat.not_lt_zero p)
  · exact b.root_inside
  · exact Forest.Spread.start _ 0
  · omega

theorem mem_allDirs : c ∈ b.allDirs ↔ b.IsDir c := by
  constructor
  · intro member
    obtain ⟨k, there⟩ := List.getElem?_of_mem member
    rcases Nat.eq_zero_or_pos k with rfl | positive
    · rw [b.spread.first] at there
      cases there
      exact b.isDir_root
    · obtain ⟨j, q, -, -, -, child⟩ := b.spread.from_ k c positive there
      exact (List.mem_filter.mp child).2
  · intro dir
    apply b.spread.complete
    refine @Forest.under_root _ (fun i => (b.node i).parent) 0 b.IsDir (fun d dir other => ?_) c dir
    have positive : 0 < d := Nat.pos_of_ne_zero other
    obtain ⟨less, up⟩ := parent_dir dir.inside positive
    exact ⟨less, up, List.mem_filter.mpr ⟨mem_sortedChildren.mpr ⟨dir.inside, positive, rfl⟩, dir⟩⟩

theorem allDirs_nodup (b : IsoBuilder) : b.allDirs.Nodup := b.spread.once

theorem parent_before {k : Nat} (positive : 0 < k) (there : b.allDirs[k]? = some c) :
    ∃ j, j < k ∧ b.allDirs[j]? = some (b.node c).parent ∧ b.parentNumber c = j + 1 := by
  obtain ⟨j, q, less, -, above, child⟩ := b.spread.from_ k c positive there
  have up := b.dirTree.up child
  have later := b.dirTree.later child
  subst up
  refine ⟨j, less, above, ?_⟩
  obtain ⟨inside, is⟩ := List.getElem?_eq_some_iff.mp above
  rw [parentNumber, if_neg (by omega), dirNumber, ← is, b.allDirs_nodup.idxOf_getElem]

theorem sortedChildren_file (file : ¬ b.IsDir p) : b.sortedChildren p = [] := by
  rw [List.eq_nil_iff_forall_not_mem]
  intro c member
  obtain ⟨inside, positive, rfl⟩ := mem_sortedChildren.mp member
  exact file (parent_dir inside positive).2

theorem iterNodes_eq (b : IsoBuilder) (fuel i : Nat) : b.iterNodes fuel i = Forest.depth b.sortedChildren fuel i := by
  induction fuel generalizing i with
  | zero => rfl
  | succ fuel ih =>
    have below : ∀ c, (if (b.node c).isDir then b.iterNodes fuel c else []) = Forest.depth b.sortedChildren fuel c := by
      intro c
      split
      · exact ih c
      · rename_i file
        cases fuel with
        | zero => rfl
        | succ fuel => rw [Forest.depth, sortedChildren_file file, List.flatMap_nil]
    rw [iterNodes, Forest.depth]
    simp only [below]

theorem files_nodup (b : IsoBuilder) : b.files.Nodup := by
  rw [files, iterNodes_eq]
  exact (Forest.depth_nodup b.tree _ _).filter _

theorem mem_files : c ∈ b.files ↔ c < b.nodes.length ∧ ¬ b.IsDir c := by
  rw [files, List.mem_filter, iterNodes_eq]
  constructor
  · rintro ⟨member, file⟩
    refine ⟨?_, by simpa [IsDir] using file⟩
    obtain ⟨child, here, under⟩ := Forest.depth_under member
    cases under with
    | refl => exact b.tree.inside here
    | tail _ child' => exact b.tree.inside child'
  · rintro ⟨inside, file⟩
    refine ⟨?_, by simpa [IsDir] using file⟩
    have other : c ≠ 0 := fun top => file (top ▸ b.isDir_root)
    apply Forest.depth_complete b.tree (by omega) ?_ other
    refine @Forest.under_root _ (fun i => (b.node i).parent) 0 (· < b.nodes.length) (fun d inside other => ?_) c inside
    have positive : 0 < d := Nat.pos_of_ne_zero other
    obtain ⟨less, up⟩ := parent_dir inside positive
    exact ⟨less, up.inside, mem_sortedChildren.mpr ⟨inside, positive, rfl⟩⟩

end Shape
end IsoBuilder
end Qito.Iso
