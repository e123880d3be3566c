import Qito.Lib.Links
import Qito.Lib.Ancestry
import Qito.Vfs.Model
import Mathlib.Logic.Function.Basic
import Mathlib.Data.List.Perm.Subperm

/-! The tree a node table holds, as far as names and links go. Forest describes a
tree from which at most one node, out, has been taken out of its child list. -/
namespace Qito.Vfs
open Links Ancestry

structure Shape where
  name : Bytes
  type : NodeType
  parent : Option NodeId
  children : Option NodeId
  sibling : Option NodeId

abbrev Shapes := NodeId → Option Shape

def siblingOf (σ : Shapes) (c : NodeId) : Option NodeId := (σ c).bind Shape.sibling

def parentOf (σ : Shapes) (c : NodeId) : Option NodeId := (σ c).bind Shape.parent

def modify (σ : Shapes) (c : NodeId) (f : Shape → Shape) : Shapes :=
  Function.update σ c ((σ c).map f)

structure Forest (σ : Shapes) (root next : NodeId) (kids : NodeId → List NodeId) (out : Option NodeId) :
    Prop where
  rootDir : ∃ n, σ root = some n ∧ n.type = .dir ∧ n.parent = none ∧ out ≠ some root
  path : ∀ d n, σ d = some n → Route (siblingOf σ) n.children (kids d) none
  member : ∀ d c, c ∈ kids d ↔ ∃ n, σ c = some n ∧ n.parent = some d ∧ out ≠ some c
  dirs : ∀ c n d, σ c = some n → n.parent = some d → ∃ m, σ d = some m ∧ m.type = .dir
  rooted : ∀ c n, σ c = some n → out ≠ some c → Above (parentOf σ) c root
  named : ∀ c n d, σ c = some n → n.parent = some d → out ≠ some c → n.name ≠ []
  distinct : ∀ a b n m d, σ a = some n → σ b = some m → n.parent = some d → m.parent = some d →
    out ≠ some a → out ≠ some b → n.name = m.name → a = b
  fresh : ∀ c n, σ c = some n → c < next

section Modify
variable {σ : Shapes} {c x : NodeId} {f : Shape → Shape}

@[simp] theorem modify_same {n : Shape} (live : σ c = some n) : modify σ c f c = some (f n) := by
  simp [modify, live]

@[simp] theorem modify_other (ne : c ≠ x) : modify σ x f c = σ c := by
  simp [modify, ne]

theorem modify_cases {m : Shape} (after : modify σ x f c = some m) :
    ∃ n, σ c = some n ∧ (c = x ∧ m = f n ∨ c ≠ x ∧ m = n) := by
  by_cases same : c = x
  · subst c
    simp only [modify, Function.update_self, Option.map_eq_some_iff] at after
    obtain ⟨n, live, rfl⟩ := after
    exact ⟨n, live, Or.inl ⟨rfl, rfl⟩⟩
  · rw [modify_other same] at after
    exact ⟨m, after, Or.inr ⟨same, rfl⟩⟩

theorem siblingOf_modify (keep : ∀ n, (f n).sibling = n.sibling) :
    siblingOf (modify σ x f) = siblingOf σ := by
  funext c
  by_cases same : c = x
  · subst c
    cases live : σ x with
    | none => simp [siblingOf, modify, live]
    | some n => simp [siblingOf, modify, live, keep]
  · simp [siblingOf, same]

theorem parentOf_modify (keep : ∀ n, (f n).parent = n.parent) : parentOf (modify σ x f) = parentOf σ := by
  funext c
  by_cases same : c = x
  · subst c
    cases live : σ x with
    | none => simp [parentOf, modify, live]
    | some n => simp [parentOf, modify, live, keep]
  · simp [parentOf, same]

end Modify

section Facts
variable {σ : Shapes} {root next : NodeId} {kids : NodeId → List NodeId} {out : Option NodeId}
  (forest : Forest σ root next kids out)
include forest

theorem Forest.kid_live {d c : NodeId} (member : c ∈ kids d) : ∃ n, σ c = some n ∧ n.parent = some d := by
  obtain ⟨n, live, parent, -⟩ := (forest.member d c).mp member
  exact ⟨n, live, parent⟩

theorem Forest.nodup {d : NodeId} {n : Shape} (live : σ d = some n) : (kids d).Nodup :=
  (forest.path d n live).nodup

theorem Forest.not_kid {d x : NodeId} (detached : out = some x) : x ∉ kids d := by
  intro member
  obtain ⟨n, -, -, inside⟩ := (forest.member d x).mp member
  exact inside detached

theorem Forest.kid_unique {d e c : NodeId} (here : c ∈ kids d) (there : c ∈ kids e) : d = e := by
  obtain ⟨n, live, parent⟩ := forest.kid_live here
  obtain ⟨m, live', parent'⟩ := forest.kid_live there
  cases Option.some.inj (live.symm.trans live')
  exact Option.some.inj (parent.symm.trans parent')

theorem Forest.top {c : NodeId} {n : Shape} (live : σ c = some n) (inside : out ≠ some c) (no_parent : n.parent = none) :
    c = root := by
  have up := forest.rooted c n live inside
  rcases Relation.ReflTransGen.cases_head up with same | ⟨d, link, -⟩
  · exact same
  · simp [parentOf, live, no_parent] at link

theorem Forest.short {d : NodeId} {n : Shape} (live : σ d = some n) : (kids d).length ≤ next := by
  have bound : ∀ c ∈ kids d, c < next := by
    intro c member
    obtain ⟨m, alive, -⟩ := forest.kid_live member
    exact forest.fresh c m alive
  have subset : kids d ⊆ List.range next := fun c member => List.mem_range.mpr (bound c member)
  have le := (List.subperm_of_subset (forest.nodup live) subset).length_le
  rwa [List.length_range] at le

end Facts

section Attach
variable {σ : Shapes} {root next : NodeId} {kids : NodeId → List NodeId} {x d : NodeId}

/-- Put the node x under the directory d, behind the entry last if there is one. -/
def attach (σ : Shapes) (d x : NodeId) (last : Option NodeId) : Shapes :=
  let σ := modify σ x fun n => { n with parent := some d }
  match last with
  | none => modify σ d fun n => { n with children := some x }
  | some l => modify σ l fun n => { n with sibling := some x }

theorem attach_shape (last : Option NodeId) {c : NodeId} {n : Shape} (live : σ c = some n) :
    ∃ m, attach σ d x last c = some m ∧ m.name = n.name ∧ m.type = n.type ∧
      m.parent = (if c = x then some d else n.parent) ∧
      m.children = (if last = none ∧ c = d then some x else n.children) ∧
      m.sibling = (if last = some c then some x else n.sibling) := by
  have first : modify σ x (fun n => { n with parent := some d }) c =
      some { n with parent := if c = x then some d else n.parent } := by
    by_cases same : c = x
    · subst c
      simp [modify, live]
    · simp [same, live]
  cases last with
  | none =>
    by_cases here : c = d
    · subst c
      refine ⟨_, modify_same first, rfl, rfl, rfl, ?_, rfl⟩
      simp
    · refine ⟨_, (modify_other here).trans first, rfl, rfl, rfl, ?_, rfl⟩
      simp [here]
  | some l =>
    by_cases here : c = l
    · subst c
      refine ⟨_, modify_same first, rfl, rfl, rfl, rfl, ?_⟩
      simp
    · refine ⟨_, (modify_other here).trans first, rfl, rfl, rfl, rfl, ?_⟩
      have other : ¬ l = c := fun same => here same.symm
      simp [other]

theorem attach_live (last : Option NodeId) {c : NodeId} {m : Shape} (live : attach σ d x last c = some m) :
    ∃ n, σ c = some n := by
  cases last with
  | none =>
    obtain ⟨n, before, -⟩ := modify_cases live
    obtain ⟨k, older, -⟩ := modify_cases before
    exact ⟨k, older⟩
  | some l =>
    obtain ⟨n, before, -⟩ := modify_cases live
    obtain ⟨k, older, -⟩ := modify_cases before
    exact ⟨k, older⟩

theorem attach_parent (last : Option NodeId) {c : NodeId} (ne : c ≠ x) :
    parentOf (attach σ d x last) c = parentOf σ c := by
  cases before : σ c with
  | none =>
    cases after : attach σ d x last c with
    | none => simp [parentOf, before, after]
    | some m =>
      obtain ⟨n, live⟩ := attach_live _ after
      simp [before] at live
  | some n =>
    obtain ⟨m, after, -, -, parent, -⟩ := attach_shape (d := d) (x := x) last before
    simp [parentOf, before, after, parent, ne]

theorem attach_sibling {last : Option NodeId} {c : NodeId} (inner : last ≠ some c) :
    siblingOf (attach σ d x last) c = siblingOf σ c := by
  cases before : σ c with
  | none =>
    cases after : attach σ d x last c with
    | none => simp [siblingOf, before, after]
    | some m =>
      obtain ⟨n, live⟩ := attach_live _ after
      simp [before] at live
  | some n =>
    obtain ⟨m, after, -, -, -, -, sibling⟩ := attach_shape (d := d) (x := x) last before
    simp [siblingOf, before, after, sibling, inner]

theorem Forest.attach_path (forest : Forest σ root next kids (some x)) {nx : Shape} (live : σ x = some nx)
    (loose : nx.sibling = none) {e : NodeId} {m : Shape}
    (after : Vfs.attach σ d x (kids d).getLast? e = some m) :
    Route (siblingOf (Vfs.attach σ d x (kids d).getLast?)) m.children
      (Function.update kids d (kids d ++ [x]) e) none := by
  have not_kid : x ∉ kids d := forest.not_kid rfl
  have ends : siblingOf (Vfs.attach σ d x (kids d).getLast?) x = none := by
    rw [attach_sibling (fun last => not_kid (List.mem_of_getLast? last))]
    simp [siblingOf, live, loose]
  obtain ⟨n, before⟩ := attach_live _ after
  obtain ⟨m', after', -, -, -, children, -⟩ := attach_shape (d := d) (x := x) (kids d).getLast? before
  cases Option.some.inj (after.symm.trans after')
  by_cases here : e = d
  · subst e
    rw [Function.update_self]
    have old := forest.path d n before
    rcases List.eq_nil_or_concat' (kids d) with empty | ⟨ys, l, eq⟩
    · rw [empty, children, empty, if_pos ⟨rfl, rfl⟩]
      rw [empty] at ends
      exact ⟨rfl, ends⟩
    · have nodup := forest.nodup before
      rw [eq] at old nodup not_kid
      have last : (kids d).getLast? = some l := by rw [eq, List.getLast?_concat]
      rw [last] at children ends ⊢
      rw [children, if_neg (by simp), eq, List.append_assoc]
      obtain ⟨k, alive, -⟩ := forest.kid_live (d := d) (c := l) (by simp [eq])
      obtain ⟨k', alive', -, -, -, -, sibling⟩ := attach_shape (d := d) (x := x) (some l) alive
      refine old.snoc ?_ (by simp [siblingOf, alive', sibling]) ends
      intro y member
      apply attach_sibling
      intro same
      cases Option.some.inj same
      exact (List.nodup_append.mp nodup).2.2 l member l (by simp) rfl
  · rw [Function.update_of_ne here, children, if_neg (by simp [here])]
    refine (forest.path e n before).frame ?_
    intro c member
    apply attach_sibling
    intro last
    exact here (forest.kid_unique member (List.mem_of_getLast? last))

theorem Forest.attach (forest : Forest σ root next kids (some x)) {nx nd : Shape} (live : σ x = some nx)
    (target : σ d = some nd) (dir : nd.type = .dir) (loose : nx.sibling = none)
    (outside : ¬ Above (parentOf σ) d x) (named : nx.name ≠ [])
    (distinct : ∀ c n, σ c = some n → n.parent = some d → c ≠ x → n.name ≠ nx.name) :
    Forest (attach σ d x (kids d).getLast?) root next (Function.update kids d (kids d ++ [x])) none := by
  have apart : d ≠ x := by
    rintro rfl
    exact outside Relation.ReflTransGen.refl
  have inside {c : NodeId} (ne : c ≠ x) : some x ≠ some c := fun same => ne (Option.some.inj same).symm
  -- every node of the new table, with what it was before
  have old {c : NodeId} {m : Shape} (after : Vfs.attach σ d x (kids d).getLast? c = some m) :
      ∃ n, σ c = some n ∧ m.name = n.name ∧ m.type = n.type ∧
        m.parent = (if c = x then some d else n.parent) := by
    obtain ⟨n, before⟩ := attach_live _ after
    obtain ⟨m', after', name, type, parent, -⟩ := attach_shape (d := d) (x := x) (kids d).getLast? before
    cases Option.some.inj (after.symm.trans after')
    exact ⟨n, before, name, type, parent⟩
  have new {c : NodeId} {n : Shape} (before : σ c = some n) :
      ∃ m, Vfs.attach σ d x (kids d).getLast? c = some m ∧ m.type = n.type ∧
        m.parent = (if c = x then some d else n.parent) := by
    obtain ⟨m, after, -, type, parent, -⟩ := attach_shape (d := d) (x := x) (kids d).getLast? before
    exact ⟨m, after, type, parent⟩
  constructor
  · obtain ⟨n, alive, type, no_parent, ne⟩ := forest.rootDir
    obtain ⟨m, after, type', parent⟩ := new alive
    have other : root ≠ x := fun same => ne (by rw [same])
    refine ⟨m, after, type'.trans type, ?_, by simp⟩
    rw [parent, if_neg other, no_parent]
  · exact fun e m after => forest.attach_path live loose after
  · intro e c
    by_cases moved : c = x
    · subst c
      obtain ⟨m, after, -, parent⟩ := new live
      rw [if_pos rfl] at parent
      constructor
      · intro member
        by_cases here : e = d
        · exact ⟨m, after, by rw [parent, here], by simp⟩
        · rw [Function.update_of_ne here] at member
          exact absurd member (forest.not_kid rfl)
      · rintro ⟨m', after', place, -⟩
        cases Option.some.inj (after.symm.trans after')
        cases Option.some.inj (parent.symm.trans place)
        rw [Function.update_self]
        simp
    · have split : c ∈ Function.update kids d (kids d ++ [x]) e ↔ c ∈ kids e := by
        by_cases here : e = d
        · subst e
          rw [Function.update_self, List.mem_append, List.mem_singleton]
          exact ⟨fun h => h.resolve_right moved, Or.inl⟩
        · rw [Function.update_of_ne here]
      rw [split, forest.member e c]
      constructor
      · rintro ⟨n, before, place, -⟩
        obtain ⟨m, after, -, parent⟩ := new before
        exact ⟨m, after, by rw [parent, if_neg moved, place], by simp⟩
      · rintro ⟨m, after, place, -⟩
        obtain ⟨n, before, -, -, parent⟩ := old after
        exact ⟨n, before, by rw [← place, parent, if_neg moved], inside moved⟩
  · intro c m e after place
    obtain ⟨n, before, -, -, parent⟩ := old after
    have found : ∃ k, σ e = some k ∧ k.type = .dir := by
      by_cases moved : c = x
      · rw [parent, if_pos moved] at place
        cases Option.some.inj place
        exact ⟨nd, target, dir⟩
      · rw [parent, if_neg moved] at place
        exact forest.dirs c n e before place
    obtain ⟨k, alive, type⟩ := found
    obtain ⟨k', after', type', -⟩ := new alive
    exact ⟨k', after', type'.trans type⟩
  · intro c m after _
    have top := forest.rooted d nd target (inside apart)
    have link : parentOf (Vfs.attach σ d x (kids d).getLast?) x = some d := by
      obtain ⟨k, alive, -, parent⟩ := new live
      simp [parentOf, alive, parent]
    by_cases moved : c = x
    · subst c
      refine Relation.ReflTransGen.head link ?_
      exact top.reparent (fun y ne => attach_parent _ ne) link outside top
    · obtain ⟨n, before, -⟩ := old after
      exact (forest.rooted c n before (inside moved)).reparent (fun y ne => attach_parent _ ne) link outside top
  · intro c m e after place _
    obtain ⟨n, before, name, -, parent⟩ := old after
    rw [name]
    by_cases moved : c = x
    · subst c
      cases Option.some.inj (before.symm.trans live)
      exact named
    · rw [parent, if_neg moved] at place
      exact forest.named c n e before place (inside moved)
  · intro a b m k e after after' place place' _ _ same
    obtain ⟨n, before, name, -, parent⟩ := old after
    obtain ⟨j, before', name', -, parent'⟩ := old after'
    rw [name, name'] at same
    by_cases left : a = x
    · by_cases right : b = x
      · rw [left, right]
      · subst a
        cases Option.some.inj (before.symm.trans live)
        rw [parent, if_pos rfl] at place
        rw [parent', if_neg right, ← place] at place'
        exact absurd same.symm (distinct b j before' place' right)
    · by_cases right : b = x
      · subst b
        cases Option.some.inj (before'.symm.trans live)
        rw [parent', if_pos rfl] at place'
        rw [parent, if_neg left, ← place'] at place
        exact absurd same (distinct a n before place left)
      · rw [parent, if_neg left] at place
        rw [parent', if_neg right] at place'
        exact forest.distinct a b n j e before before' place place' (inside left) (inside right) same
  · intro c m after
    obtain ⟨n, before, -⟩ := old after
    exact forest.fresh c n before

end Attach

section Detach
variable {σ : Shapes} {root next : NodeId} {kids : NodeId → List NodeId} {x d : NodeId}

/-- Take an entry out of the child list of d: what stood in front of it, d itself
or the entry prev, gets the link the entry had. -/
def detach (σ : Shapes) (d : NodeId) (prev link : Option NodeId) : Shapes :=
  match prev with
  | none => modify σ d fun n => { n with children := link }
  | some p => modify σ p fun n => { n with sibling := link }

theorem detach_shape (prev link : Option NodeId) {c : NodeId} {n : Shape} (live : σ c = some n) :
    ∃ m, detach σ d prev link c = some m ∧ m.name = n.name ∧ m.type = n.type ∧ m.parent = n.parent ∧
      m.children = (if prev = none ∧ c = d then link else n.children) ∧
      m.sibling = (if prev = some c then link else n.sibling) := by
  cases prev with
  | none =>
    by_cases here : c = d
    · subst c
      exact ⟨_, modify_same live, rfl, rfl, rfl, by simp, rfl⟩
    · exact ⟨n, (modify_other here).trans live, rfl, rfl, rfl, by simp [here], rfl⟩
  | some p =>
    by_cases here : c = p
    · subst c
      exact ⟨_, modify_same live, rfl, rfl, rfl, rfl, by simp⟩
    · have other : ¬ p = c := fun same => here same.symm
      exact ⟨n, (modify_other here).trans live, rfl, rfl, rfl, rfl, by simp [other]⟩

theorem detach_live (prev link : Option NodeId) {c : NodeId} {m : Shape}
    (live : detach σ d prev link c = some m) : ∃ n, σ c = some n := by
  cases prev with
  | none =>
    obtain ⟨n, before, -⟩ := modify_cases live
    exact ⟨n, before⟩
  | some p =>
    obtain ⟨n, before, -⟩ := modify_cases live
    exact ⟨n, before⟩

theorem detach_parent (prev link : Option NodeId) : parentOf (detach σ d prev link) = parentOf σ := by
  cases prev with
  | none => exact parentOf_modify (fun n => rfl)
  | some p => exact parentOf_modify (fun n => rfl)

theorem detach_sibling {prev : Option NodeId} (link : Option NodeId) {c : NodeId} (inner : prev ≠ some c) :
    siblingOf (detach σ d prev link) c = siblingOf σ c := by
  cases prev with
  | none =>
    have same : siblingOf (detach σ d none link) = siblingOf σ := siblingOf_modify (fun n => rfl)
    rw [same]
  | some p =>
    have other : c ≠ p := fun same => inner (by rw [same])
    simp [detach, siblingOf, other]

theorem Forest.detach_path (forest : Forest σ root next kids none) {pre post : List NodeId}
    (eq : kids d = pre ++ x :: post) {e : NodeId} {m : Shape}
    (after : detach σ d pre.getLast? (siblingOf σ x) e = some m) :
    Route (siblingOf (detach σ d pre.getLast? (siblingOf σ x))) m.children
      (Function.update kids d (pre ++ post) e) none := by
  obtain ⟨n, before⟩ := detach_live _ _ after
  obtain ⟨m', after', -, -, -, children, -⟩ := detach_shape (d := d) pre.getLast? (siblingOf σ x) before
  cases Option.some.inj (after.symm.trans after')
  have old := forest.path e n before
  by_cases here : e = d
  · subst e
    have nodup := forest.nodup before
    rw [eq] at old nodup
    rw [Function.update_self, children]
    rcases List.eq_nil_or_concat' pre with rfl | ⟨ys, p, rfl⟩
    · rw [if_pos ⟨rfl, rfl⟩]
      exact old.2.frame (fun c _ => detach_sibling _ (by simp))
    · rw [List.append_assoc, List.singleton_append] at old nodup
      simp only [List.getLast?_concat]
      rw [if_neg (by simp), List.append_assoc, List.singleton_append]
      obtain ⟨-, back, across⟩ := List.nodup_append.mp nodup
      have first := (List.nodup_cons.mp back).1
      obtain ⟨k, alive, -⟩ := forest.kid_live (d := d) (c := p) (by simp [eq])
      obtain ⟨k', alive', -, -, -, -, sibling⟩ := detach_shape (d := d) (some p) (siblingOf σ x) alive
      have link : siblingOf (Vfs.detach σ d (some p) (siblingOf σ x)) p = siblingOf σ x := by
        rw [siblingOf, alive']
        exact sibling.trans (if_pos rfl)
      refine old.unlink link ?_ ?_
      · intro y member
        apply detach_sibling
        intro same
        exact across y member p (by simp) (Option.some.inj same).symm
      · intro y member
        apply detach_sibling
        intro same
        rw [Option.some.inj same] at first
        exact first (List.mem_cons_of_mem _ member)
  · rw [Function.update_of_ne here, children, if_neg (by simp [here])]
    refine old.frame ?_
    intro c member
    apply detach_sibling
    intro last
    exact here (forest.kid_unique member (by rw [eq]; exact List.mem_append_left _ (List.mem_of_getLast? last)))

theorem Forest.detach (forest : Forest σ root next kids none) {pre post : List NodeId}
    (eq : kids d = pre ++ x :: post) :
    Forest (detach σ d pre.getLast? (siblingOf σ x)) root next (Function.update kids d (pre ++ post)) (some x) := by
  obtain ⟨nx, live, place⟩ := forest.kid_live (d := d) (c := x) (by simp [eq])
  obtain ⟨nd, target, -⟩ := forest.dirs x nx d live place
  have nodup := forest.nodup target
  rw [eq] at nodup
  have gone : x ∉ pre ++ post := (List.nodup_cons.mp (List.nodup_middle.mp nodup)).1
  have inside (c : NodeId) : (none : Option NodeId) ≠ some c := by simp
  have old {c : NodeId} {m : Shape} (after : Vfs.detach σ d pre.getLast? (siblingOf σ x) c = some m) :
      ∃ n, σ c = some n ∧ m.name = n.name ∧ m.type = n.type ∧ m.parent = n.parent := by
    obtain ⟨n, before⟩ := detach_live _ _ after
    obtain ⟨m', after', name, type, parent, -⟩ := detach_shape (d := d) pre.getLast? (siblingOf σ x) before
    cases Option.some.inj (after.symm.trans after')
    exact ⟨n, before, name, type, parent⟩
  have new {c : NodeId} {n : Shape} (before : σ c = some n) :
      ∃ m, Vfs.detach σ d pre.getLast? (siblingOf σ x) c = some m ∧ m.type = n.type ∧ m.parent = n.parent := by
    obtain ⟨m, after, -, type, parent, -⟩ := detach_shape (d := d) pre.getLast? (siblingOf σ x) before
    exact ⟨m, after, type, parent⟩
  constructor
  · obtain ⟨n, alive, type, no_parent, -⟩ := forest.rootDir
    obtain ⟨m, after, type', parent⟩ := new alive
    refine ⟨m, after, type'.trans type, parent.trans no_parent, ?_⟩
    intro same
    cases Option.some.inj same
    cases Option.some.inj (alive.symm.trans live)
    rw [no_parent] at place
    exact absurd place (by simp)
  · exact fun e m after => forest.detach_path eq after
  · intro e c
    have split : c ∈ Function.update kids d (pre ++ post) e ↔ c ∈ kids e ∧ c ≠ x := by
      by_cases here : e = d
      · subst e
        rw [Function.update_self, eq, List.mem_append, List.mem_append, List.mem_cons]
        constructor
        · rintro (left | right)
          · exact ⟨Or.inl left, fun same => gone (by rw [← same]; exact List.mem_append_left _ left)⟩
          · exact ⟨Or.inr (Or.inr right), fun same => gone (by rw [← same]; exact List.mem_append_right _ right)⟩
        · rintro ⟨left | same | right, ne⟩
          · exact Or.inl left
          · exact absurd same ne
          · exact Or.inr right
      · rw [Function.update_of_ne here]
        refine ⟨fun member => ⟨member, fun same => here ?_⟩, And.left⟩
        exact forest.kid_unique member (by rw [same, eq]; simp)
    rw [split, forest.member e c]
    constructor
    · rintro ⟨⟨n, before, parent, -⟩, ne⟩
      obtain ⟨m, after, -, parent'⟩ := new before
      exact ⟨m, after, parent'.trans parent, fun same => ne (Option.some.inj same).symm⟩
    · rintro ⟨m, after, parent, ne⟩
      obtain ⟨n, before, -, -, parent'⟩ := old after
      exact ⟨⟨n, before, parent'.symm.trans parent, by simp⟩, fun same => ne (by rw [same])⟩
  · intro c m e after parent
    obtain ⟨n, before, -, -, parent'⟩ := old after
    obtain ⟨k, alive, type⟩ := forest.dirs c n e before (parent'.symm.trans parent)
    obtain ⟨k', after', type', -⟩ := new alive
    exact ⟨k', after', type'.trans type⟩
  · intro c m after _
    obtain ⟨n, before, -⟩ := old after
    rw [detach_parent]
    exact forest.rooted c n before (inside c)
  · intro c m e after parent _
    obtain ⟨n, before, name, -, parent'⟩ := old after
    rw [name]
    exact forest.named c n e before (parent'.symm.trans parent) (inside c)
  · intro a b m k e after after' parent parent' _ _ same
    obtain ⟨n, before, name, -, was⟩ := old after
    obtain ⟨j, before', name', -, was'⟩ := old after'
    exact forest.distinct a b n j e before before' (was.symm.trans parent) (was'.symm.trans parent')
      (inside a) (inside b) (name.symm.trans (same.trans name'))
  · intro c m after
    obtain ⟨n, before, -⟩ := old after
    exact forest.fresh c n before

theorem Forest.drop (forest : Forest σ root next kids (some x)) (leaf : kids x = []) :
    Forest (Function.update σ x none) root next kids none := by
  have other {c : NodeId} {n : Shape} (after : Function.update σ x none c = some n) : c ≠ x ∧ σ c = some n := by
    by_cases same : c = x
    · subst c
      simp at after
    · rw [Function.update_of_ne same] at after
      exact ⟨same, after⟩
  have inside {c : NodeId} (ne : c ≠ x) : some x ≠ some c := fun same => ne (Option.some.inj same).symm
  have childless {c : NodeId} {n : Shape} {e : NodeId} (ne : c ≠ x) (live : σ c = some n)
      (parent : n.parent = some e) : e ≠ x := by
    rintro rfl
    have member := (forest.member e c).mpr ⟨n, live, parent, inside ne⟩
    simp [leaf] at member
  constructor
  · obtain ⟨n, alive, type, no_parent, ne⟩ := forest.rootDir
    have kept : root ≠ x := fun same => ne (by rw [same])
    exact ⟨n, by rw [Function.update_of_ne kept]; exact alive, type, no_parent, by simp⟩
  · intro e n after
    obtain ⟨-, live⟩ := other after
    refine (forest.path e n live).frame ?_
    intro c member
    have ne : c ≠ x := by
      rintro rfl
      exact forest.not_kid rfl member
    simp [siblingOf, ne]
  · intro e c
    rw [forest.member e c]
    constructor
    · rintro ⟨n, live, parent, ne⟩
      have kept : c ≠ x := fun same => ne (by rw [same])
      exact ⟨n, by rw [Function.update_of_ne kept]; exact live, parent, by simp⟩
    · rintro ⟨n, after, parent, -⟩
      obtain ⟨ne, live⟩ := other after
      exact ⟨n, live, parent, inside ne⟩
  · intro c n e after parent
    obtain ⟨ne, live⟩ := other after
    obtain ⟨k, alive, type⟩ := forest.dirs c n e live parent
    exact ⟨k, by rw [Function.update_of_ne (childless ne live parent)]; exact alive, type⟩
  · intro c n after _
    obtain ⟨ne, live⟩ := other after
    refine (forest.rooted c n live (inside ne)).frame (fun y => y ≠ x ∧ σ y ≠ none) ?_ ?_ ⟨ne, by simp [live]⟩
    · rintro y ⟨apart, -⟩
      simp [parentOf, apart]
    · rintro y z ⟨apart, alive⟩ link
      obtain ⟨k, here⟩ := Option.ne_none_iff_exists'.mp alive
      have parent : k.parent = some z := by simpa [parentOf, here] using link
      obtain ⟨j, there, -⟩ := forest.dirs y k z here parent
      exact ⟨childless apart here parent, by simp [there]⟩
  · intro c n e after parent _
    obtain ⟨ne, live⟩ := other after
    exact forest.named c n e live parent (inside ne)
  · intro a b n m e after after' parent parent' _ _ same
    obtain ⟨left, live⟩ := other after
    obtain ⟨right, live'⟩ := other after'
    exact forest.distinct a b n m e live live' parent parent' (inside left) (inside right) same
  · intro c n after
    exact forest.fresh c n (other after).2

theorem Forest.loosen {σ : Shapes} {root next x : NodeId} (forest : Forest σ root next kids (some x)) {f : Shape → Shape}
    (type : ∀ n, (f n).type = n.type) (parent : ∀ n, (f n).parent = n.parent)
    (children : ∀ n, (f n).children = n.children) : Forest (modify σ x f) root next kids (some x) := by
  have old {c : NodeId} {m : Shape} (after : modify σ x f c = some m) :
      ∃ n, σ c = some n ∧ m.type = n.type ∧ m.parent = n.parent ∧ m.children = n.children ∧ (c ≠ x → m = n) := by
    obtain ⟨n, before, ⟨same, rfl⟩ | ⟨other, rfl⟩⟩ := modify_cases after
    · exact ⟨n, before, type n, parent n, children n, fun ne => absurd same ne⟩
    · exact ⟨m, before, rfl, rfl, rfl, fun _ => rfl⟩
  have new {c : NodeId} {n : Shape} (before : σ c = some n) :
      ∃ m, modify σ x f c = some m ∧ m.type = n.type ∧ m.parent = n.parent := by
    by_cases same : c = x
    · subst c
      exact ⟨f n, modify_same before, type n, parent n⟩
    · exact ⟨n, (modify_other same).trans before, rfl, rfl⟩
  have kept {c : NodeId} {m : Shape} (after : modify σ x f c = some m) (inside : some x ≠ some c) : σ c = some m := by
    have ne : c ≠ x := fun same => inside (by rw [same])
    rwa [modify_other ne] at after
  constructor
  · obtain ⟨n, alive, dir, orphan, ne⟩ := forest.rootDir
    obtain ⟨m, after, type', parent'⟩ := new alive
    exact ⟨m, after, type'.trans dir, parent'.trans orphan, ne⟩
  · intro d m after
    obtain ⟨n, before, -, -, entries, -⟩ := old after
    rw [entries]
    refine (forest.path d n before).frame ?_
    intro c member
    have ne : c ≠ x := by
      rintro rfl
      exact forest.not_kid rfl member
    simp [siblingOf, ne]
  · intro d c
    rw [forest.member d c]
    constructor
    · rintro ⟨n, before, place, inside⟩
      obtain ⟨m, after, -, parent'⟩ := new before
      exact ⟨m, after, parent'.trans place, inside⟩
    · rintro ⟨m, after, place, inside⟩
      exact ⟨m, kept after inside, place, inside⟩
  · intro c m d after place
    obtain ⟨n, before, -, parent', -⟩ := old after
    obtain ⟨k, alive, dir⟩ := forest.dirs c n d before (parent'.symm.trans place)
    obtain ⟨k', after', type', -⟩ := new alive
    exact ⟨k', after', type'.trans dir⟩
  · intro c m after inside
    rw [parentOf_modify parent]
    exact forest.rooted c m (kept after inside) inside
  · exact fun c m d after place inside => forest.named c m d (kept after inside) place inside
  · intro a b m k d after after' place place' left right same
    exact forest.distinct a b m k d (kept after left) (kept after' right) place place' left right same
  · intro c m after
    obtain ⟨n, before, -⟩ := old after
    exact forest.fresh c n before

theorem Forest.sprout (forest : Forest σ root next kids none) {n : Shape} (orphan : n.parent = none)
    (empty : n.children = none) :
    Forest (Function.update σ next (some n)) root (next + 1) kids (some next) ∧ kids next = [] := by
  have unused : σ next = none := by
    cases live : σ next with
    | none => rfl
    | some m => exact absurd (forest.fresh next m live) (Nat.lt_irrefl next)
  have older {c : NodeId} {m : Shape} (live : σ c = some m) : c ≠ next := by
    rintro rfl
    simp [unused] at live
  have childless : kids next = [] := by
    refine List.eq_nil_iff_forall_not_mem.mpr (fun c member => ?_)
    obtain ⟨m, live, parent⟩ := forest.kid_live member
    obtain ⟨k, alive, -⟩ := forest.dirs c m next live parent
    simp [unused] at alive
  have inside {c : NodeId} (ne : c ≠ next) : some next ≠ some c := fun same => ne (Option.some.inj same).symm
  have other {c : NodeId} {m : Shape} (after : Function.update σ next (some n) c = some m) :
      (c = next ∧ m = n) ∨ (c ≠ next ∧ σ c = some m) := by
    by_cases same : c = next
    · subst c
      exact Or.inl ⟨rfl, by simpa using after.symm⟩
    · rw [Function.update_of_ne same] at after
      exact Or.inr ⟨same, after⟩
  have kept {c : NodeId} {m : Shape} (live : σ c = some m) : Function.update σ next (some n) c = some m := by
    rw [Function.update_of_ne (older live)]
    exact live
  have none_out (c : NodeId) : (none : Option NodeId) ≠ some c := by simp
  refine ⟨?_, childless⟩
  constructor
  · obtain ⟨r, alive, type, no_parent, -⟩ := forest.rootDir
    exact ⟨r, kept alive, type, no_parent, inside (older alive)⟩
  · intro e m after
    rcases other after with ⟨rfl, rfl⟩ | ⟨ne, live⟩
    · rw [childless, empty]
      rfl
    · refine (forest.path e m live).frame ?_
      intro c member
      obtain ⟨k, alive, -⟩ := forest.kid_live member
      simp [siblingOf, older alive]
  · intro e c
    rw [forest.member e c]
    constructor
    · rintro ⟨m, live, parent, -⟩
      exact ⟨m, kept live, parent, inside (older live)⟩
    · rintro ⟨m, after, parent, ne⟩
      rcases other after with ⟨rfl, rfl⟩ | ⟨-, live⟩
      · exact absurd rfl ne
      · exact ⟨m, live, parent, none_out c⟩
  · intro c m e after parent
    rcases other after with ⟨rfl, rfl⟩ | ⟨-, live⟩
    · rw [orphan] at parent
      exact absurd parent (by simp)
    · obtain ⟨k, alive, type⟩ := forest.dirs c m e live parent
      exact ⟨k, kept alive, type⟩
  · intro c m after ne
    rcases other after with ⟨rfl, rfl⟩ | ⟨-, live⟩
    · exact absurd rfl ne
    · refine (forest.rooted c m live (none_out c)).frame (fun y => σ y ≠ none) ?_ ?_ (by simp [live])
      · intro y alive
        obtain ⟨k, here⟩ := Option.ne_none_iff_exists'.mp alive
        simp [parentOf, older here]
      · intro y z alive link
        obtain ⟨k, here⟩ := Option.ne_none_iff_exists'.mp alive
        have parent : k.parent = some z := by simpa [parentOf, here] using link
        obtain ⟨j, there, -⟩ := forest.dirs y k z here parent
        simp [there]
  · intro c m e after parent ne
    rcases other after with ⟨rfl, rfl⟩ | ⟨-, live⟩
    · exact absurd rfl ne
    · exact forest.named c m e live parent (none_out c)
  · intro a b m k e after after' parent parent' left right same
    rcases other after with ⟨rfl, rfl⟩ | ⟨-, live⟩
    · exact absurd rfl left
    · rcases other after' with ⟨rfl, rfl⟩ | ⟨-, live'⟩
      · exact absurd rfl right
      · exact forest.distinct a b m k e live live' parent parent' (none_out a) (none_out b) same
  · intro c m after
    rcases other after with ⟨rfl, rfl⟩ | ⟨-, live⟩
    · exact Nat.lt_succ_self c
    · exact Nat.lt_succ_of_lt (forest.fresh c m live)

end Detach

end Qito.Vfs
