import Qito.Sched.Model
import Qito.Lib.Links
import Mathlib.Data.Fintype.Card

/-! The ready queues as lists. Queued says that heads, tails and next links hold
the lists q, that these are the ready tasks by priority, and that each list is in
the order of enqueue. -/
namespace Qito.Sched
open Links

def nextOf (s : SchedState) (t : Slot) : Option Slot := (s.tasks t).next

def Ready (s : SchedState) (t : Slot) : Prop := (s.tasks t).state = .ready

structure Queued (s : SchedState) (q : Nat → List Slot) : Prop where
  path : ∀ level < prioCount, Route (nextOf s) (s.readyHead level) (q level) none
  tail : ∀ level < prioCount, s.readyTail level = (q level).getLast?
  member : ∀ level < prioCount, ∀ t, t ∈ q level ↔ Ready s t ∧ (s.tasks t).priority = level
  bounded : ∀ t, Ready s t → (s.tasks t).priority < prioCount
  order : ∀ level < prioCount,
    (q level).Pairwise fun a b => (s.tasks a).enqueuedAt < (s.tasks b).enqueuedAt
  stamped : ∀ t, Ready s t → (s.tasks t).enqueuedAt < s.enqueues

section Touch
variable {s : SchedState} {q : Nat → List Slot} {t u : Slot} {f : Task → Task}

@[simp] theorem setTask_same : (setTask s t f).tasks t = f (s.tasks t) := by simp [setTask]

@[simp] theorem setTask_other (other : u ≠ t) : (setTask s t f).tasks u = s.tasks u := by
  simp [setTask, other]

@[simp] theorem setNext_state (link : Option Slot) :
    ((setNext s t link).tasks u).state = (s.tasks u).state := by
  by_cases same : u = t
  · subst u
    simp [setNext]
  · simp [setNext, same]

@[simp] theorem setNext_priority (link : Option Slot) :
    ((setNext s t link).tasks u).priority = (s.tasks u).priority := by
  by_cases same : u = t
  · subst u
    simp [setNext]
  · simp [setNext, same]

@[simp] theorem setNext_stamp (link : Option Slot) :
    ((setNext s t link).tasks u).enqueuedAt = (s.tasks u).enqueuedAt := by
  by_cases same : u = t
  · subst u
    simp [setNext]
  · simp [setNext, same]

@[simp] theorem nextOf_setNext_other {link : Option Slot} (ne : u ≠ t) :
    nextOf (setNext s t link) u = nextOf s u := by
  simp [nextOf, setNext, ne]

theorem Queued.same {s' : SchedState} (queued : Queued s q) (tasks : s'.tasks = s.tasks)
    (head : s'.readyHead = s.readyHead) (tail : s'.readyTail = s.readyTail)
    (count : s'.enqueues = s.enqueues) : Queued s' q := by
  obtain ⟨path, last, member, bounded, order, stamped⟩ := queued
  have next : nextOf s' = nextOf s := by
    funext t
    rw [nextOf, tasks, nextOf]
  have mark : Ready s' = Ready s := by
    funext t
    rw [Ready, tasks, Ready]
  constructor
  · rwa [next, head]
  · rwa [tail]
  · rwa [mark, tasks]
  · rwa [mark, tasks]
  · rwa [tasks]
  · rwa [mark, tasks, count]

theorem Queued.waits (queued : Queued s q) {level : Nat} (lt : level < prioCount) (idle : ¬ Ready s t) :
    t ∉ q level := by
  intro member
  exact idle ((queued.member level lt t).mp member).1

theorem Queued.outside (queued : Queued s q) (before : ¬ Ready s t)
    (after : (f (s.tasks t)).state ≠ .ready) : Queued (setTask s t f) q := by
  have same {u : Slot} (ready : Ready (setTask s t f) u ∨ Ready s u) :
      (setTask s t f).tasks u = s.tasks u := by
    apply setTask_other
    rintro rfl
    rcases ready with ready | ready
    · exact after (by simpa [Ready] using ready)
    · exact before ready
  have mark (u : Slot) : Ready (setTask s t f) u ↔ Ready s u := by
    constructor
    · intro ready
      rwa [Ready, same (Or.inl ready)] at ready
    · intro ready
      rwa [Ready, same (Or.inr ready)]
  have ready_in {level : Nat} (lt : level < prioCount) {u : Slot} (member : u ∈ q level) : Ready s u :=
    ((queued.member level lt u).mp member).1
  constructor
  · intro level lt
    refine (queued.path level lt).frame ?_
    intro u member
    rw [nextOf, nextOf, same (Or.inr (ready_in lt member))]
  · exact queued.tail
  · intro level lt u
    rw [queued.member level lt u, mark]
    constructor
    · rintro ⟨ready, priority⟩
      exact ⟨ready, by rwa [same (Or.inr ready)]⟩
    · rintro ⟨ready, priority⟩
      exact ⟨ready, by rwa [same (Or.inr ready)] at priority⟩
  · intro u ready
    rw [same (Or.inl ready)]
    exact queued.bounded u ((mark u).mp ready)
  · intro level lt
    refine (queued.order level lt).imp_of_mem ?_
    intro a b first second less
    rwa [same (Or.inr (ready_in lt first)), same (Or.inr (ready_in lt second))]
  · intro u ready
    rw [same (Or.inl ready)]
    exact queued.stamped u ((mark u).mp ready)

theorem Queued.keep (queued : Queued s q) (state : (f (s.tasks t)).state = (s.tasks t).state)
    (priority : (f (s.tasks t)).priority = (s.tasks t).priority)
    (next : (f (s.tasks t)).next = (s.tasks t).next)
    (stamp : (f (s.tasks t)).enqueuedAt = (s.tasks t).enqueuedAt) : Queued (setTask s t f) q := by
  have same (u : Slot) : ((setTask s t f).tasks u).state = (s.tasks u).state ∧
      ((setTask s t f).tasks u).priority = (s.tasks u).priority ∧
      ((setTask s t f).tasks u).next = (s.tasks u).next ∧
      ((setTask s t f).tasks u).enqueuedAt = (s.tasks u).enqueuedAt := by
    by_cases h : u = t
    · subst u
      simp [state, priority, next, stamp]
    · simp [h]
  have mark (u : Slot) : Ready (setTask s t f) u ↔ Ready s u := by rw [Ready, Ready, (same u).1]
  constructor
  · intro level lt
    exact (queued.path level lt).frame (fun u _ => (same u).2.2.1)
  · exact queued.tail
  · intro level lt u
    rw [queued.member level lt u, mark, (same u).2.1]
  · intro u ready
    rw [(same u).2.1]
    exact queued.bounded u ((mark u).mp ready)
  · intro level lt
    refine (queued.order level lt).imp ?_
    intro a b less
    rwa [(same a).2.2.2, (same b).2.2.2]
  · intro u ready
    rw [(same u).2.2.2]
    exact queued.stamped u ((mark u).mp ready)

end Touch

/-- One task t joins or leaves the queue of one level: the new queue there, and
what the step leaves alone. -/
structure Relinked (s s' : SchedState) (q : Nat → List Slot) (t : Slot) (level : Nat) (xs : List Slot) :
    Prop where
  valid : level < prioCount
  path : Route (nextOf s') (s'.readyHead level) xs none
  tail : s'.readyTail level = xs.getLast?
  member : ∀ u, u ∈ xs ↔ Ready s' u ∧ (s'.tasks u).priority = level
  order : xs.Pairwise fun a b => (s'.tasks a).enqueuedAt < (s'.tasks b).enqueuedAt
  home : Ready s' t → (s'.tasks t).priority = level ∧ (s'.tasks t).enqueuedAt < s'.enqueues
  left : Ready s t → (s.tasks t).priority = level
  state : ∀ u ≠ t, (s'.tasks u).state = (s.tasks u).state
  priority : ∀ u ≠ t, (s'.tasks u).priority = (s.tasks u).priority
  stamp : ∀ u ≠ t, (s'.tasks u).enqueuedAt = (s.tasks u).enqueuedAt
  count : s.enqueues ≤ s'.enqueues
  head : ∀ l ≠ level, s'.readyHead l = s.readyHead l
  last : ∀ l ≠ level, s'.readyTail l = s.readyTail l
  links : ∀ l < prioCount, l ≠ level → ∀ u ∈ q l, nextOf s' u = nextOf s u

theorem Queued.relink {s s' : SchedState} {q : Nat → List Slot} {t : Slot} {level : Nat} {xs : List Slot}
    (queued : Queued s q) (step : Relinked s s' q t level xs) :
    Queued s' (Function.update q level xs) := by
  have other {l : Nat} (lt : l < prioCount) (ne : l ≠ level) {u : Slot} (member : u ∈ q l) : u ≠ t := by
    rintro rfl
    obtain ⟨ready, priority⟩ := (queued.member l lt u).mp member
    exact ne (priority.symm.trans (step.left ready))
  have mark {u : Slot} (ne : u ≠ t) : Ready s' u ↔ Ready s u := by rw [Ready, Ready, step.state u ne]
  constructor
  · intro l lt
    by_cases same : l = level
    · subst l
      rw [Function.update_self]
      exact step.path
    · rw [Function.update_of_ne same, step.head l same]
      exact (queued.path l lt).frame (step.links l lt same)
  · intro l lt
    by_cases same : l = level
    · subst l
      rw [Function.update_self]
      exact step.tail
    · rw [Function.update_of_ne same, step.last l same]
      exact queued.tail l lt
  · intro l lt u
    by_cases same : l = level
    · subst l
      rw [Function.update_self]
      exact step.member u
    · rw [Function.update_of_ne same]
      by_cases moved : u = t
      · subst u
        constructor
        · intro member
          exact absurd rfl (other lt same member)
        · rintro ⟨ready, priority⟩
          exact absurd (priority.symm.trans (step.home ready).1) same
      · rw [mark moved, step.priority u moved]
        exact queued.member l lt u
  · intro u ready
    by_cases moved : u = t
    · subst u
      rw [(step.home ready).1]
      exact step.valid
    · rw [step.priority u moved]
      exact queued.bounded u ((mark moved).mp ready)
  · intro l lt
    by_cases same : l = level
    · subst l
      rw [Function.update_self]
      exact step.order
    · rw [Function.update_of_ne same]
      refine (queued.order l lt).imp_of_mem ?_
      intro a b first second less
      rwa [step.stamp a (other lt same first), step.stamp b (other lt same second)]
  · intro u ready
    by_cases moved : u = t
    · subst u
      exact (step.home ready).2
    · rw [step.stamp u moved]
      exact Nat.lt_of_lt_of_le (queued.stamped u ((mark moved).mp ready)) step.count

section Enqueue
variable {s : SchedState} {q : Nat → List Slot} {t : Slot}

/-- The queue enqueue appends a task to. -/
def homeLevel (k : Task) : Nat := if k.priority ≥ prioCount then prioNormal else k.priority

theorem homeLevel_lt (k : Task) : homeLevel k < prioCount := by
  unfold homeLevel
  split
  · decide
  · omega

theorem enqueue_eq (s : SchedState) (t : Slot) :
    enqueue s t =
      let s₁ := { setTask s t (readied s.enqueues) with enqueues := s.enqueues + 1 }
      match s.readyTail (homeLevel (s.tasks t)) with
      | some last => setTail (setNext s₁ last (some t)) (homeLevel (s.tasks t)) (some t)
      | none => setTail (setHead s₁ (homeLevel (s.tasks t)) (some t)) (homeLevel (s.tasks t)) (some t) := by
  have level : ((setTask s t (readied s.enqueues)).tasks t).priority = homeLevel (s.tasks t) := by
    simp [readied, homeLevel]
  simp only [enqueue, level]
  rfl

theorem enqueue_task {u : Slot} (ne : u ≠ t) :
    ((enqueue s t).tasks u).state = (s.tasks u).state ∧
    ((enqueue s t).tasks u).priority = (s.tasks u).priority ∧
    ((enqueue s t).tasks u).enqueuedAt = (s.tasks u).enqueuedAt := by
  rw [enqueue_eq]
  cases s.readyTail (homeLevel (s.tasks t)) with
  | none => simp [setTail, setHead, ne]
  | some last =>
    by_cases tail : u = last
    · subst u
      simp [setTail, setNext, setTask, ne]
    · simp [setTail, setNext, setTask, ne, tail]

theorem enqueue_self (waits : s.readyTail (homeLevel (s.tasks t)) ≠ some t) :
    (enqueue s t).tasks t = readied s.enqueues (s.tasks t) := by
  rw [enqueue_eq]
  cases tail : s.readyTail (homeLevel (s.tasks t)) with
  | none => simp [setTail, setHead]
  | some last =>
    have ne : t ≠ last := by
      rintro rfl
      exact waits tail
    simp [setTail, setNext, setTask, ne]

theorem enqueue_next {u : Slot} (ne : u ≠ t) (inner : s.readyTail (homeLevel (s.tasks t)) ≠ some u) :
    nextOf (enqueue s t) u = nextOf s u := by
  rw [enqueue_eq]
  cases tail : s.readyTail (homeLevel (s.tasks t)) with
  | none => simp [nextOf, setTail, setHead, ne]
  | some last =>
    have behind : u ≠ last := by
      rintro rfl
      exact inner tail
    simp [nextOf, setTail, setNext, setTask, ne, behind]

theorem enqueue_link {last : Slot} (tail : s.readyTail (homeLevel (s.tasks t)) = some last) :
    nextOf (enqueue s t) last = some t ∧ (enqueue s t).readyHead = s.readyHead := by
  rw [enqueue_eq, tail]
  simp [nextOf, setTail, setNext, setTask]

theorem enqueue_first (tail : s.readyTail (homeLevel (s.tasks t)) = none) :
    (enqueue s t).readyHead = Function.update s.readyHead (homeLevel (s.tasks t)) (some t) := by
  rw [enqueue_eq, tail]
  rfl

theorem enqueue_tail : (enqueue s t).readyTail =
    Function.update s.readyTail (homeLevel (s.tasks t)) (some t) := by
  rw [enqueue_eq]
  cases s.readyTail (homeLevel (s.tasks t)) <;> rfl

theorem enqueue_count : (enqueue s t).enqueues = s.enqueues + 1 := by
  rw [enqueue_eq]
  cases s.readyTail (homeLevel (s.tasks t)) <;> rfl

theorem enqueue_path (queued : Queued s q) (idle : ¬ Ready s t) :
    Route (nextOf (enqueue s t)) ((enqueue s t).readyHead (homeLevel (s.tasks t)))
      (q (homeLevel (s.tasks t)) ++ [t]) none := by
  have lt := homeLevel_lt (s.tasks t)
  have outside := queued.waits lt idle
  have path := queued.path _ lt
  have tail := queued.tail _ lt
  have fresh : s.readyTail (homeLevel (s.tasks t)) ≠ some t := by
    rw [tail]
    exact fun last => outside (List.mem_of_getLast? last)
  have ends : nextOf (enqueue s t) t = none := by
    rw [nextOf, enqueue_self fresh]
    rfl
  rcases List.eq_nil_or_concat' (q (homeLevel (s.tasks t))) with empty | ⟨ys, last, eq⟩
  · rw [empty] at tail
    rw [empty, enqueue_first tail, Function.update_self]
    exact ⟨rfl, ends⟩
  · rw [eq, List.getLast?_concat] at tail
    rw [eq] at path outside
    have nodup := path.nodup
    obtain ⟨link, heads⟩ := enqueue_link tail
    rw [eq, heads, List.append_assoc]
    refine path.snoc ?_ link ends
    intro y member
    apply enqueue_next
    · rintro rfl
      exact outside (List.mem_append_left _ member)
    · rw [tail]
      intro same
      cases Option.some.inj same
      exact (List.nodup_append.mp nodup).2.2 last member last (by simp) rfl

theorem Queued.enqueue (queued : Queued s q) (idle : ¬ Ready s t) :
    Queued (enqueue s t) (Function.update q (homeLevel (s.tasks t)) (q (homeLevel (s.tasks t)) ++ [t])) := by
  have lt := homeLevel_lt (s.tasks t)
  have tail := queued.tail _ lt
  have fresh : s.readyTail (homeLevel (s.tasks t)) ≠ some t := by
    rw [tail]
    exact fun last => queued.waits lt idle (List.mem_of_getLast? last)
  have self := enqueue_self fresh
  have ready : Ready (Sched.enqueue s t) t := by
    rw [Ready, self]
    rfl
  have home : ((Sched.enqueue s t).tasks t).priority = homeLevel (s.tasks t) := by
    rw [self]
    rfl
  have stamp : ((Sched.enqueue s t).tasks t).enqueuedAt = s.enqueues := by
    rw [self]
    rfl
  have busy {u : Slot} (member : u ∈ q (homeLevel (s.tasks t))) : u ≠ t := by
    rintro rfl
    exact queued.waits lt idle member
  refine queued.relink (t := t) ⟨lt, enqueue_path queued idle, ?_, ?_, ?_, ?_, ?_, ?_, ?_, ?_, ?_, ?_, ?_, ?_⟩
  · rw [enqueue_tail, Function.update_self, List.getLast?_concat]
  · intro u
    rw [List.mem_append, List.mem_singleton]
    by_cases moved : u = t
    · subst u
      simp [ready, home]
    · rw [Ready, (enqueue_task moved).1, (enqueue_task moved).2.1, queued.member _ lt u, Ready]
      simp [moved]
  · refine List.pairwise_append.mpr ⟨?_, List.pairwise_singleton .., ?_⟩
    · refine (queued.order _ lt).imp_of_mem ?_
      intro a b first second less
      rwa [(enqueue_task (busy first)).2.2, (enqueue_task (busy second)).2.2]
    · intro a member b last
      rw [List.mem_singleton.mp last, stamp, (enqueue_task (busy member)).2.2]
      exact queued.stamped a ((queued.member _ lt a).mp member).1
  · intro _
    exact ⟨home, by rw [stamp, enqueue_count]; omega⟩
  · exact fun was => absurd was idle
  · exact fun u ne => (enqueue_task ne).1
  · exact fun u ne => (enqueue_task ne).2.1
  · exact fun u ne => (enqueue_task ne).2.2
  · rw [enqueue_count]
    omega
  · intro l ne
    cases old : s.readyTail (homeLevel (s.tasks t)) with
    | none => rw [enqueue_first old, Function.update_of_ne ne]
    | some last => rw [(enqueue_link old).2]
  · intro l ne
    rw [enqueue_tail, Function.update_of_ne ne]
  · intro l valid ne u member
    obtain ⟨was, level⟩ := (queued.member l valid u).mp member
    apply enqueue_next
    · rintro rfl
      exact idle was
    · rw [tail]
      intro last
      have place := ((queued.member _ lt u).mp (List.mem_of_getLast? last)).2
      exact ne (level.symm.trans place)

end Enqueue

section Remove
variable {s s' : SchedState} {q : Nat → List Slot} {t : Slot} {level : Nat} {pre post : List Slot}

theorem Queued.remove (queued : Queued s q) (valid : level < prioCount) (eq : q level = pre ++ t :: post)
    (path : Route (nextOf s') (s'.readyHead level) (pre ++ post) none)
    (tail : s'.readyTail level = (pre ++ post).getLast?) (gone : ¬ Ready s' t)
    (tasks : ∀ u ≠ t, (s'.tasks u).state = (s.tasks u).state ∧
      (s'.tasks u).priority = (s.tasks u).priority ∧ (s'.tasks u).enqueuedAt = (s.tasks u).enqueuedAt)
    (count : s'.enqueues = s.enqueues) (head : ∀ l ≠ level, s'.readyHead l = s.readyHead l)
    (last : ∀ l ≠ level, s'.readyTail l = s.readyTail l)
    (links : ∀ u, u ∉ q level → nextOf s' u = nextOf s u) :
    Queued s' (Function.update q level (pre ++ post)) := by
  have nodup := (queued.path level valid).nodup
  rw [eq] at nodup
  have distinct := List.nodup_middle.mp nodup
  have apart : t ∉ pre ++ post := (List.nodup_cons.mp distinct).1
  have split (u : Slot) : u ∈ q level ↔ u = t ∨ u ∈ pre ++ post := by
    rw [eq, List.mem_append, List.mem_append, List.mem_cons]
    exact or_left_comm
  have here := (queued.member level valid t).mp ((split t).mpr (Or.inl rfl))
  have other {u : Slot} (member : u ∈ pre ++ post) : u ≠ t := by
    rintro rfl
    exact apart member
  refine queued.relink (t := t) ⟨valid, path, tail, ?_, ?_, fun ready => absurd ready gone, fun _ => here.2,
    fun u ne => (tasks u ne).1, fun u ne => (tasks u ne).2.1, fun u ne => (tasks u ne).2.2,
    Nat.le_of_eq count.symm, head, last, ?_⟩
  · intro u
    by_cases moved : u = t
    · subst u
      exact ⟨fun member => absurd member apart, fun ready => absurd ready.1 gone⟩
    · have old := queued.member level valid u
      rw [split u] at old
      rw [Ready, (tasks u moved).1, (tasks u moved).2.1]
      simpa only [moved, false_or, Ready] using old
  · have old := queued.order level valid
    rw [eq] at old
    have kept : (pre ++ post).Sublist (pre ++ t :: post) :=
      List.Sublist.append_left (List.sublist_cons_self t post) pre
    refine (old.sublist kept).imp_of_mem ?_
    intro a b first second less
    rwa [(tasks a (other first)).2.2, (tasks b (other second)).2.2]
  · intro l lt ne u member
    refine links u (fun also => ne ?_)
    exact (((queued.member l lt u).mp member).2).symm.trans ((queued.member level valid u).mp also).2

/-- Taking the first task of a queue out of it. -/
def dequeueAt (s : SchedState) (level : Nat) (t : Slot) : SchedState :=
  let s := setHead s level (s.tasks t).next
  let s := if s.readyHead level = none then setTail s level none else s
  setNext s t none

theorem dequeueAt_fields (s : SchedState) (level : Nat) (t : Slot) :
    (dequeueAt s level t).tasks = Function.update s.tasks t { s.tasks t with next := none } ∧
    (dequeueAt s level t).readyHead = Function.update s.readyHead level (nextOf s t) ∧
    (dequeueAt s level t).readyTail =
      (if nextOf s t = none then Function.update s.readyTail level none else s.readyTail) ∧
    (dequeueAt s level t).enqueues = s.enqueues ∧ (dequeueAt s level t).idleTask = s.idleTask := by
  simp only [dequeueAt, setHead, Function.update_self, nextOf]
  split
  · rename_i last
    simp [setNext, setTask, setTail, last]
  · rename_i more
    simp [setNext, setTask, more]

theorem Queued.dequeue (queued : Queued s q) (valid : level < prioCount) (eq : q level = t :: post)
    {f : Task → Task} (leaves : ∀ k, (f k).state ≠ .ready) :
    Queued (setTask (dequeueAt s level t) t f) (Function.update q level post) := by
  obtain ⟨tasks, head, tail, count, -⟩ := dequeueAt_fields s level t
  have old := queued.path level valid
  have ends := queued.tail level valid
  have nodup := old.nodup
  rw [eq] at old nodup ends
  have other {u : Slot} (ne : u ≠ t) : (setTask (dequeueAt s level t) t f).tasks u = s.tasks u := by
    simp [ne, tasks]
  refine queued.remove valid (show q level = [] ++ t :: post from eq) ?_ ?_ ?_ ?_ ?_ ?_ ?_ ?_
  · change Route _ ((dequeueAt s level t).readyHead level) post none
    rw [head, Function.update_self]
    refine old.2.frame ?_
    intro u member
    rw [nextOf, other, nextOf]
    rintro rfl
    exact (List.nodup_cons.mp nodup).1 member
  · change (dequeueAt s level t).readyTail level = post.getLast?
    rw [tail, old.2.head_eq]
    cases post with
    | nil => simp
    | cons p post => simpa [List.getLast?_cons] using ends
  · simpa [Ready] using leaves _
  · intro u ne
    rw [other ne]
    exact ⟨rfl, rfl, rfl⟩
  · exact count
  · intro l ne
    change (dequeueAt s level t).readyHead l = _
    rw [head, Function.update_of_ne ne]
  · intro l ne
    change (dequeueAt s level t).readyTail l = _
    rw [tail]
    split
    · rw [Function.update_of_ne ne]
    · rfl
  · intro u outside
    rw [nextOf, other, nextOf]
    rintro rfl
    exact outside (by simp [eq])

/-- unlinkNode in the order it writes: the link that skips the task, the tail, and
the link of the task itself. -/
theorem unlinkNode_fields (s : SchedState) (level : Nat) (prev : Option Slot) (t : Slot) :
    (∀ u, ((unlinkNode s level prev t).tasks u).state = (s.tasks u).state ∧
      ((unlinkNode s level prev t).tasks u).priority = (s.tasks u).priority ∧
      ((unlinkNode s level prev t).tasks u).enqueuedAt = (s.tasks u).enqueuedAt) ∧
    (∀ u, u ≠ t → prev ≠ some u → nextOf (unlinkNode s level prev t) u = nextOf s u) ∧
    (unlinkNode s level prev t).readyTail =
      (if s.readyTail level = some t then Function.update s.readyTail level prev else s.readyTail) ∧
    (unlinkNode s level prev t).enqueues = s.enqueues := by
  cases prev with
  | none =>
    by_cases tail : s.readyTail level = some t
    · have eq : unlinkNode s level none t =
          setNext (setTail (setHead s level (s.tasks t).next) level none) t none := by
        simp [unlinkNode, setHead, tail]
      rw [eq, if_pos tail]
      exact ⟨fun u => ⟨setNext_state _, setNext_priority _, setNext_stamp _⟩,
        fun u ne _ => nextOf_setNext_other ne, rfl, rfl⟩
    · have eq : unlinkNode s level none t = setNext (setHead s level (s.tasks t).next) t none := by
        simp [unlinkNode, setHead, tail]
      rw [eq, if_neg tail]
      exact ⟨fun u => ⟨setNext_state _, setNext_priority _, setNext_stamp _⟩,
        fun u ne _ => nextOf_setNext_other ne, rfl, rfl⟩
  | some p =>
    have inner (u : Slot) : ((setNext s p (s.tasks t).next).tasks u).state = (s.tasks u).state ∧
        ((setNext s p (s.tasks t).next).tasks u).priority = (s.tasks u).priority ∧
        ((setNext s p (s.tasks t).next).tasks u).enqueuedAt = (s.tasks u).enqueuedAt :=
      ⟨setNext_state _, setNext_priority _, setNext_stamp _⟩
    have skipped (u : Slot) (before : some p ≠ some u) :
        nextOf (setNext s p (s.tasks t).next) u = nextOf s u :=
      nextOf_setNext_other (fun same => before (by rw [same]))
    by_cases tail : s.readyTail level = some t
    · have eq : unlinkNode s level (some p) t =
          setNext (setTail (setNext s p (s.tasks t).next) level (some p)) t none := by
        simp [unlinkNode, setNext, setTask, tail]
      rw [eq, if_pos tail]
      refine ⟨fun u => ?_, fun u ne before => (nextOf_setNext_other ne).trans (skipped u before), rfl, rfl⟩
      rw [setNext_state, setNext_priority, setNext_stamp]
      exact inner u
    · have eq : unlinkNode s level (some p) t = setNext (setNext s p (s.tasks t).next) t none := by
        simp [unlinkNode, setNext, setTask, tail]
      rw [eq, if_neg tail]
      refine ⟨fun u => ?_, fun u ne before => (nextOf_setNext_other ne).trans (skipped u before), rfl, rfl⟩
      rw [setNext_state, setNext_priority, setNext_stamp]
      exact inner u

theorem unlinkNode_head (s : SchedState) (level : Nat) (t : Slot) :
    (unlinkNode s level none t).readyHead = Function.update s.readyHead level (nextOf s t) := by
  by_cases tail : s.readyTail level = some t <;>
    simp [unlinkNode, setNext, setTask, setTail, setHead, tail, nextOf]

theorem unlinkNode_link (s : SchedState) (level : Nat) {p : Slot} (ne : p ≠ t) :
    nextOf (unlinkNode s level (some p) t) p = nextOf s t ∧
    (unlinkNode s level (some p) t).readyHead = s.readyHead := by
  by_cases tail : s.readyTail level = some t <;>
    simp [unlinkNode, setNext, setTask, setTail, tail, nextOf, ne]

theorem unlinkNode_path (queued : Queued s q) (valid : level < prioCount) (eq : q level = pre ++ t :: post) :
    Route (nextOf (unlinkNode s level pre.getLast? t)) ((unlinkNode s level pre.getLast? t).readyHead level)
      (pre ++ post) none := by
  have old := queued.path level valid
  have nodup := old.nodup
  rw [eq] at old nodup
  obtain ⟨-, links, -, -⟩ := unlinkNode_fields s level pre.getLast? t
  rcases List.eq_nil_or_concat' pre with rfl | ⟨ys, p, rfl⟩
  · have apart : t ∉ post := (List.nodup_cons.mp nodup).1
    change Route _ ((unlinkNode s level none t).readyHead level) post none
    rw [unlinkNode_head, Function.update_self]
    refine old.2.frame (fun u member => links u ?_ (by simp))
    rintro rfl
    exact apart member
  · rw [List.append_assoc, List.singleton_append] at old nodup
    rw [List.append_assoc, List.singleton_append]
    simp only [List.getLast?_concat] at links ⊢
    obtain ⟨-, back, across⟩ := List.nodup_append.mp nodup
    obtain ⟨first, back⟩ := List.nodup_cons.mp back
    have last := (List.nodup_cons.mp back).1
    have behind : p ≠ t := by
      rintro rfl
      exact first List.mem_cons_self
    obtain ⟨link, heads⟩ := unlinkNode_link s level behind
    rw [heads]
    refine old.unlink link ?_ ?_
    · intro y member
      refine links y ?_ ?_
      · exact across y member t (by simp)
      · intro same
        exact across y member p (by simp) (Option.some.inj same).symm
    · intro y member
      refine links y ?_ ?_
      · rintro rfl
        exact last member
      · intro same
        rw [Option.some.inj same] at first
        exact first (List.mem_cons_of_mem _ member)

theorem Queued.unlink (queued : Queued s q) (valid : level < prioCount) (eq : q level = pre ++ t :: post)
    {f : Task → Task} (leaves : ∀ k, (f k).state ≠ .ready) (link : ∀ k, (f k).next = k.next) :
    Queued (setTask (unlinkNode s level pre.getLast? t) t f) (Function.update q level (pre ++ post)) := by
  obtain ⟨tasks, links, tail, count⟩ := unlinkNode_fields s level pre.getLast? t
  have other {u : Slot} (ne : u ≠ t) :
      (setTask (unlinkNode s level pre.getLast? t) t f).tasks u = (unlinkNode s level pre.getLast? t).tasks u :=
    setTask_other ne
  have next (u : Slot) : nextOf (setTask (unlinkNode s level pre.getLast? t) t f) u =
      nextOf (unlinkNode s level pre.getLast? t) u := by
    by_cases same : u = t
    · subst u
      simp [nextOf, link]
    · rw [nextOf, other same, nextOf]
  have ends := queued.tail level valid
  have nodup := (queued.path level valid).nodup
  refine queued.remove valid eq ?_ ?_ ?_ ?_ ?_ ?_ ?_ ?_
  · exact (unlinkNode_path queued valid eq).frame (fun u _ => next u)
  · change (unlinkNode s level pre.getLast? t).readyTail level = _
    rw [tail]
    rw [eq] at ends nodup
    cases post with
    | nil =>
      rw [List.getLast?_concat] at ends
      rw [if_pos ends, Function.update_self, List.append_nil]
    | cons p post =>
      have last : (pre ++ p :: post).getLast? = (pre ++ t :: p :: post).getLast? := by
        simp [List.getLast?_append, List.getLast?_cons]
      have kept : s.readyTail level ≠ some t := by
        rw [ends, ← last]
        intro same
        have distinct := List.nodup_middle.mp nodup
        exact (List.nodup_cons.mp distinct).1 (List.mem_of_getLast? same)
      rw [if_neg kept, ends, last]
  · simpa [Ready] using leaves _
  · intro u ne
    rw [other ne]
    exact tasks u
  · exact count
  · intro l ne
    change (unlinkNode s level pre.getLast? t).readyHead l = _
    rcases List.eq_nil_or_concat' pre with rfl | ⟨ys, p, rfl⟩
    · change (unlinkNode s level none t).readyHead l = _
      rw [unlinkNode_head, Function.update_of_ne ne]
    · have behind : p ≠ t := by
        rw [eq] at nodup
        rintro rfl
        have distinct := List.nodup_middle.mp nodup
        exact (List.nodup_cons.mp distinct).1 (by simp)
      rw [List.getLast?_concat, (unlinkNode_link s level behind).2]
  · intro l ne
    change (unlinkNode s level pre.getLast? t).readyTail l = _
    rw [tail]
    split
    · rw [Function.update_of_ne ne]
    · rfl
  · intro u outside
    rw [next]
    refine links u ?_ ?_
    · rintro rfl
      exact outside (by simp [eq])
    · intro last
      exact outside (by simp [eq, List.mem_of_getLast? last])

end Remove

section Walks
variable {s : SchedState} {q : Nat → List Slot} {t : Slot}

theorem unlinkFrom_absent (level : Nat) (prev : Option Slot) {fuel : Nat} {xs : List Slot} {head : Option Slot}
    (path : Route (nextOf s) head xs none) (absent : t ∉ xs) (enough : xs.length < fuel) :
    unlinkFrom t level fuel s prev head = .ok none := by
  induction xs generalizing prev head fuel with
  | nil =>
    obtain ⟨fuel, rfl⟩ := Nat.exists_eq_add_of_lt enough
    cases (path : head = none)
    simp [unlinkFrom]
  | cons x xs ih =>
    cases fuel with
    | zero => exact absurd enough (by simp)
    | succ fuel =>
      cases path.1
      have other : x ≠ t := by
        rintro rfl
        exact absent List.mem_cons_self
      simp only [unlinkFrom, if_neg other]
      exact ih _ path.2 (fun member => absent (List.mem_cons_of_mem _ member)) (Nat.lt_of_succ_lt_succ enough)

theorem unlinkFrom_found (level : Nat) (prev : Option Slot) {fuel : Nat} {pre post : List Slot}
    {head : Option Slot} (path : Route (nextOf s) head (pre ++ t :: post) none) (absent : t ∉ pre)
    (enough : (pre ++ t :: post).length < fuel) :
    unlinkFrom t level fuel s prev head = .ok (some (unlinkNode s level (pre.getLast?.or prev) t)) := by
  induction pre generalizing prev head fuel with
  | nil =>
    cases fuel with
    | zero => exact absurd enough (by simp)
    | succ fuel =>
      cases path.1
      simp [unlinkFrom]
  | cons x pre ih =>
    cases fuel with
    | zero => exact absurd enough (by simp)
    | succ fuel =>
      cases path.1
      have other : x ≠ t := by
        rintro rfl
        exact absent List.mem_cons_self
      have last : (x :: pre).getLast?.or prev = pre.getLast?.or (some x) := by
        cases h : pre.getLast? <;> simp [List.getLast?_cons, h]
      simp only [unlinkFrom, if_neg other, last]
      exact ih _ path.2 (fun member => absent (List.mem_cons_of_mem _ member)) (Nat.lt_of_succ_lt_succ enough)

theorem Queued.short (queued : Queued s q) {level : Nat} (valid : level < prioCount) :
    (q level).length < maxTasks + 1 := by
  have bound := (queued.path level valid).nodup.length_le_card
  rw [Fintype.card_fin] at bound
  omega

theorem unlinkLevels_absent (queued : Queued s q) (levels : List Nat) (valid : ∀ l ∈ levels, l < prioCount)
    (absent : ∀ l ∈ levels, t ∉ q l) : unlinkLevels t levels s = .ok s := by
  induction levels with
  | nil => rfl
  | cons l levels ih =>
    have here := valid l List.mem_cons_self
    have walk := unlinkFrom_absent l none (queued.path l here)
      (absent l List.mem_cons_self) (queued.short here)
    have rest := ih (fun k member => valid k (List.mem_cons_of_mem _ member))
      (fun k member => absent k (List.mem_cons_of_mem _ member))
    simp only [unlinkLevels, walk]
    exact rest

theorem unlinkLevels_found (queued : Queued s q) {level : Nat} {pre post : List Slot}
    (eq : q level = pre ++ t :: post) (levels : List Nat) (valid : ∀ l ∈ levels, l < prioCount)
    (member : level ∈ levels) : unlinkLevels t levels s = .ok (unlinkNode s level pre.getLast? t) := by
  induction levels with
  | nil => exact absurd member (by simp)
  | cons l levels ih =>
    have here := valid l List.mem_cons_self
    by_cases same : l = level
    · subst l
      have path := queued.path level here
      have enough := queued.short here
      rw [eq] at path enough
      have fresh : t ∉ pre := by
        intro again
        have distinct := List.nodup_middle.mp path.nodup
        exact (List.nodup_cons.mp distinct).1 (by simp [again])
      have walk := unlinkFrom_found level none path fresh enough
      simp only [unlinkLevels, walk, Option.or_none]
      rfl
    · have inner : level ∈ levels := by
        rcases List.mem_cons.mp member with rfl | inner
        · exact absurd rfl same
        · exact inner
      have absent : t ∉ q l := by
        intro also
        have lt := valid level member
        have there := ((queued.member level lt t).mp (by simp [eq])).2
        exact same (((queued.member l here t).mp also).2.symm.trans there)
      have walk := unlinkFrom_absent l none (queued.path l here) absent (queued.short here)
      have rest := ih (fun k inside => valid k (List.mem_cons_of_mem _ inside)) inner
      simp only [unlinkLevels, walk]
      exact rest

end Walks

end Qito.Sched
