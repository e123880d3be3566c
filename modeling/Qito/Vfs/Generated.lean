import Qito.Vfs.Extremes
import Qito.Vfs.Handles
import Qito.Vfs.WholeFile

/-! The generated files of procfs.c. A refresh writes its text into whatever buffer
the node has and takes it to be PROC_BUFFER bytes long; a write or a truncation
that comes before the first refresh leaves a smaller one. -/
namespace Qito.Vfs
open Buffers Runs Words

abbrev qeNotdir : Int := 20

structure Dirent where
  name : Bytes
  type : NodeType
  size : Nat

/-- The child that fs_readdir stops at. -/
def childAt : Nat → FsState → Option NodeId → Nat → Option (Option NodeId)
  | 0, _, _, _ => none
  | _ + 1, _, none, _ => some none
  | _ + 1, _, some child, 0 => some (some child)
  | fuel + 1, s, some child, index + 1 => do
    let node ← s.nodes child
    childAt fuel s node.sibling index

def fsReaddir (env : Env) (s : FsState) (dir : Option NodeId) (index : Int) :
    Option (Except Int Dirent × FsState) := do
  match dir with
  | none => return (.error (-qeNotdir), s)
  | some id =>
    let node ← s.nodes id
    if node.type ≠ .dir ∨ index < 0 then return (.error (-qeNotdir), s)
    match ← childAt (walkFuel s) s node.children index.toNat with
    | none => return (.error (-qeNoent), s)
    | some child =>
      let entry ← s.nodes child
      let entry ← refresh env child entry
      return (.ok { name := strlcpy entry.name fsNameMax, type := entry.type, size := entry.size },
        putNode s child entry)

def fsReaddirPath (env : Env) (s : FsState) (path : Bytes) (index : Int) :
    Option (Except Int Dirent × FsState) := do
  fsReaddir env s (← fsLookup s path) index

/-- The text a refresh generates for a node, cut to the buffer it is meant for. -/
def generated (env : Env) (id : NodeId) : Bytes := (env.procText id).take (procBuffer - 1)

/-- The node has no buffer yet, or one with room for the text and its terminator. -/
def TextFits (env : Env) (id : NodeId) (n : FsNode) : Prop :=
  n.capacity = 0 ∨ (generated env id).length < n.capacity

section Refresh
variable {env : Env} {s : FsState} {id : NodeId} {n m : FsNode}

theorem generated_short (env : Env) (id : NodeId) : (generated env id).length < procBuffer := by
  rw [generated, List.length_take]
  exact Nat.lt_of_le_of_lt (Nat.min_le_left _ _) (by decide)

/-- A refresh that had a buffer, or got one, leaves the text in it. -/
structure Renewed (env : Env) (id : NodeId) (n m : FsNode) : Prop where
  ops : m.ops = n.ops
  type : m.type = n.type
  backing : m.backing = n.backing
  capacity : m.capacity = if n.capacity = 0 then procBuffer else n.capacity
  text : bytes m.data m.size = generated env id
  fits : m.size < m.capacity
  outside : n.capacity ≠ 0 → ∀ i, m.capacity ≤ i → m.data i = n.data i

/-- The node a refresh writes into. -/
def buffered (env : Env) (n : FsNode) : FsNode :=
  if n.capacity = 0 then { n with data := env.junk, capacity := procBuffer } else n

/-- The text in the buffer of a node, with its terminator. -/
def filled (env : Env) (id : NodeId) (n : FsNode) : FsNode :=
  { n with
    data := fun i => if i < (generated env id).length then (generated env id).getD i 0
      else if i = (generated env id).length then 0 else n.data i
    size := (generated env id).length }

theorem refresh_proc (proc : n.ops = some .proc) (backed : n.backing ≠ none) :
    refresh env id n = if n.capacity = 0 ∧ env.dataAlloc = false then some n
      else if (generated env id).length < (buffered env n).capacity then some (filled env id (buffered env n)) else none := by
  have turn (k : FsNode) : (if ((env.procText id).take (procBuffer - 1)).length + 1 > k.capacity then none
      else some (filled env id k)) = if (generated env id).length < k.capacity then some (filled env id k) else none := by
    by_cases fits : (generated env id).length < k.capacity
    · rw [if_pos fits]
      exact if_neg (Nat.not_lt.mpr fits)
    · rw [if_neg fits]
      exact if_pos (Nat.lt_succ_of_le (Nat.le_of_not_lt fits))
  unfold refresh
  split
  case h_1 ops => exact absurd (ops.symm.trans proc) (by decide)
  case h_2 =>
    rw [if_neg backed]
    have same : (n.capacity = 0 ∧ (!env.dataAlloc) = true) ↔ (n.capacity = 0 ∧ env.dataAlloc = false) := by simp
    by_cases broke : n.capacity = 0 ∧ env.dataAlloc = false
    · rw [if_pos (same.mpr broke), if_pos broke]
    · rw [if_neg (fun both => broke (same.mp both)), if_neg broke]
      exact turn (buffered env n)
  case h_3 other => exact (other proc).elim

theorem buffered_capacity : (buffered env n).capacity = if n.capacity = 0 then procBuffer else n.capacity := by
  unfold buffered
  split
  · rfl
  · rfl

theorem textFits_buffered : TextFits env id n ↔ (generated env id).length < (buffered env n).capacity := by
  have short := generated_short env id
  rw [buffered_capacity, TextFits]
  by_cases none_ : n.capacity = 0
  · rw [if_pos none_]
    exact ⟨fun _ => short, fun _ => Or.inl none_⟩
  · rw [if_neg none_]
    exact ⟨fun fits => fits.resolve_left none_, Or.inr⟩

theorem refresh_returns (proc : n.ops = some .proc) (backed : n.backing ≠ none) :
    (∃ m, refresh env id n = some m) ↔ TextFits env id n := by
  rw [refresh_proc proc backed]
  split
  · rename_i broke
    exact ⟨fun _ => Or.inl broke.1, fun _ => ⟨n, rfl⟩⟩
  · rw [textFits_buffered]
    split
    · rename_i fits
      exact ⟨fun _ => fits, fun _ => ⟨_, rfl⟩⟩
    · rename_i full
      refine ⟨fun run => ?_, fun fits => absurd fits full⟩
      obtain ⟨m, run⟩ := run
      cases run

theorem refresh_renewed (proc : n.ops = some .proc) (backed : n.backing ≠ none) (run : refresh env id n = some m) :
    (n.capacity = 0 ∧ env.dataAlloc = false ∧ m = n) ∨
      (¬ (n.capacity = 0 ∧ env.dataAlloc = false) ∧ Renewed env id n m) := by
  rw [refresh_proc proc backed] at run
  split at run
  · rename_i broke
    exact Or.inl ⟨broke.1, broke.2, (Option.some.inj run).symm⟩
  · rename_i memory
    split at run
    · rename_i fits
      rw [← Option.some.inj run]
      have same : (buffered env n).ops = n.ops ∧ (buffered env n).type = n.type ∧ (buffered env n).backing = n.backing := by
        unfold buffered
        split
        · exact ⟨rfl, rfl, rfl⟩
        · exact ⟨rfl, rfl, rfl⟩
      refine Or.inr ⟨memory, same.1, same.2.1, same.2.2, buffered_capacity, ?_, fits, ?_⟩
      · apply List.ext_getElem
        · simp [filled]
        · intro i _ inside
          simp [bytes, filled, inside]
      · intro owns i beyond
        have past : (generated env id).length < i := Nat.lt_of_lt_of_le fits beyond
        simp [filled, buffered, owns, Nat.lt_asymm past, Nat.ne_of_gt past]
    · cases run

theorem fsRead_generated {h : FileId} {f : File} {len : Nat} {code : Int} {got : Bytes} {t : FsState}
    (handle : s.files h = some f) (live : s.nodes f.node = some n) (proc : n.ops = some .proc) (backed : n.backing ≠ none)
    (fits : n.size ≤ n.capacity) (run : fsRead env s h len = some (code, got, t)) :
    got = if f.flags &&& oRdwr = oWronly ∨ (n.capacity = 0 ∧ env.dataAlloc = false) then []
      else readAt f.offset len (generated env f.node) := by
  simp only [fsRead, handle, live, Option.bind_eq_bind, Option.bind_some] at run
  split at run
  · rename_i refused
    cases Option.some.inj run
    rw [if_pos (Or.inl refused)]
  rename_i readable
  obtain ⟨m, renewed, rest⟩ := Option.bind_eq_some_iff.mp run
  -- what proc_read copies out of a node that holds its text
  have copy {k : FsNode} (ops : k.ops = some .proc) (room : k.size ≤ k.capacity) :
      opsRead env k f.offset len = some (some (readAt f.offset len (bytes k.data k.size))) := by
    rw [opsRead, ops, readAt_bytes]
    simp only [readData]
    split
    · rename_i past
      have nothing : min len (k.size - f.offset) = 0 := by omega
      rw [nothing]
      rfl
    · rename_i inside
      rw [if_neg (by omega)]
      rfl
  rcases refresh_renewed proc backed renewed with ⟨none_, broke, rfl⟩ | ⟨memory, fresh⟩
  · have empty : m.size = 0 := Nat.le_zero.mp (none_ ▸ fits)
    simp only [copy proc fits, Option.bind_some] at rest
    cases Option.some.inj rest
    rw [if_pos (Or.inr ⟨none_, broke⟩), empty]
    simp [readAt, bytes]
  · simp only [copy (fresh.ops.trans proc) (Nat.le_of_lt fresh.fits), fresh.text, Option.bind_some] at rest
    cases Option.some.inj rest
    rw [if_neg (not_or.mpr ⟨readable, memory⟩)]

end Refresh

section Changes
variable {env : Env} {s t : FsState} {asked : NodeId → FsNode → Nat → Prop} {id x : NodeId} {b : Body}

/-- The generated files have a generator and lie in their buffers. -/
def Body.Proper (b : Body) : Prop := b.backing ≠ none ∧ b.size ≤ b.capacity ∧ b.capacity < 2 ^ 64

def Proper (s : FsState) : Prop := ∀ id b, bodies s id = some b → b.ops = some .proc → b.Proper

theorem Proper.node (proper : Proper s) {n : FsNode} (live : s.nodes id = some n) (proc : n.ops = some .proc) :
    n.backing ≠ none ∧ n.size ≤ n.capacity ∧ n.capacity < 2 ^ 64 :=
  proper id n.body (bodies_live live) proc

/-- Where the body b of a generated file comes from: its buffer was asked to hold
some size, or the file was refreshed. -/
def Comes (env : Env) (s : FsState) (asked : NodeId → FsNode → Nat → Prop) (id : NodeId) (b : Body) : Prop :=
  ∃ n, s.nodes id = some n ∧ n.ops = some .proc ∧
    ((∃ needed, (needed = 0 ∨ asked id n needed) ∧ Resized env n needed b) ∨ ∃ m, refresh env id n = some m ∧ b = m.body)

/-- The generated files after a call, all from those before it. -/
def Renews (env : Env) (s : FsState) (asked : NodeId → FsNode → Nat → Prop) (t : FsState) : Prop :=
  ∀ id b, bodies t id = some b → b.ops = some .proc → Comes env s asked id b

theorem Renews.same (proper : Proper s) (table : bodies t = bodies s) : Renews env s asked t := by
  intro id b here proc
  rw [table] at here
  obtain ⟨n, live, rfl⟩ := live_of_body here
  obtain ⟨-, fits, word⟩ := proper.node live proc
  exact ⟨n, live, proc, Or.inl ⟨0, Or.inl rfl, .same n.size fits word⟩⟩

theorem Renews.update (proper : Proper s) (table : bodies t = Function.update (bodies s) x (some b))
    (one : b.ops = some .proc → Comes env s asked x b) : Renews env s asked t := by
  intro id b' here proc
  rw [table] at here
  by_cases same : id = x
  · subst id
    rw [Function.update_self] at here
    cases Option.some.inj here
    exact one proc
  · rw [Function.update_of_ne same] at here
    exact Renews.same proper rfl id b' here proc

theorem Renews.refresh (proper : Proper s) {n m : FsNode} (live : s.nodes x = some n) (renewed : refresh env x n = some m)
    (table : bodies t = Function.update (bodies s) x (some m.body)) : Renews env s asked t := by
  refine .update proper table fun proc => ?_
  have ops : m.ops = n.ops := congrArg Prod.snd (refresh_frame renewed).1
  exact ⟨n, live, ops.symm.trans proc, Or.inr ⟨m, renewed, rfl⟩⟩

theorem Renews.proper (renews : Renews env s asked t) (proper : Proper s) : Proper t := by
  intro id b here proc
  obtain ⟨n, live, generated_, ⟨needed, -, resized⟩ | ⟨m, renewed, rfl⟩⟩ := renews id b here proc
  · obtain ⟨backed, -⟩ := proper.node live generated_
    exact ⟨resized.backing ▸ backed, resized.fits, resized.word⟩
  · obtain ⟨backed, fits, word⟩ := proper.node live generated_
    rcases refresh_renewed generated_ backed renewed with ⟨-, -, rfl⟩ | ⟨-, fresh⟩
    · exact ⟨backed, fits, word⟩
    · refine ⟨?_, Nat.le_of_lt fresh.fits, ?_⟩
      · change m.backing ≠ none
        rw [fresh.backing]
        exact backed
      · change m.capacity < 2 ^ 64
        rw [fresh.capacity]
        split
        · decide
        · exact word

/-- No generated file has a buffer smaller than the generator thinks. -/
def Wide (s : FsState) : Prop := ∀ id b, bodies s id = some b → b.ops = some .proc → b.capacity = 0 ∨ procBuffer ≤ b.capacity

theorem doubleCapacity_power {fuel capacity needed c : Nat} (power : capacity = 0 ∨ ∃ j, capacity = 2 ^ j)
    (run : doubleCapacity fuel capacity needed = some c) : c = 0 ∨ ∃ j, c = 2 ^ j := by
  induction fuel generalizing capacity with
  | zero => cases run
  | succ fuel ih =>
    unfold doubleCapacity at run
    split at run
    · refine ih ?_ run
      rcases power with rfl | ⟨j, rfl⟩
      · exact Or.inl rfl
      · rw [wrap64, ← Nat.pow_succ]
        by_cases small : j + 1 < 64
        · exact Or.inr ⟨j + 1, Nat.mod_eq_of_lt (Nat.pow_lt_pow_right (by decide) small)⟩
        · exact Or.inl (Nat.mod_eq_zero_of_dvd (Nat.pow_dvd_pow 2 (Nat.le_of_not_lt small)))
    · cases Option.some.inj run
      exact power

theorem doubleCapacity_wide {fuel needed c : Nat} (large : 4096 < needed) (run : doubleCapacity fuel 256 needed = some c) :
    procBuffer ≤ c := by
  obtain ⟨enough, -⟩ := doubleCapacity_enough (by decide) run
  rcases doubleCapacity_power (Or.inr ⟨8, rfl⟩) run with rfl | ⟨j, rfl⟩
  · omega
  · have high : 12 < j := (Nat.pow_lt_pow_iff_right (by decide : 1 < 2)).mp (Nat.lt_of_lt_of_le large enough)
    exact Nat.pow_le_pow_right (by decide : 0 < 2) high

theorem Renews.wide (renews : Renews env s asked t) (proper : Proper s) (wide : Wide s)
    (tidy : ∀ id n needed, s.nodes id = some n → n.ops = some .proc → n.capacity = 0 → asked id n needed →
      needed = 0 ∨ 4096 < needed ∨ env.dataAlloc = false) : Wide t := by
  intro id b here proc
  obtain ⟨n, live, generated_, ⟨needed, asks, resized⟩ | ⟨m, renewed, rfl⟩⟩ := renews id b here proc
  · have before : n.capacity = 0 ∨ procBuffer ≤ n.capacity := wide id n.body (bodies_live live) generated_
    rcases resized.capacity with same | ⟨small, memory, doubled⟩
    · rw [same]
      exact before
    · right
      obtain ⟨-, -, word⟩ := proper.node live generated_
      obtain ⟨enough, -⟩ := doubleCapacity_enough (firstCapacity_word word) doubled
      rcases before with none_ | wide'
      · rcases asks with rfl | asks
        · exact absurd small (Nat.not_lt_zero _)
        rcases tidy id n needed live generated_ none_ asks with rfl | large | broke
        · exact absurd small (Nat.not_lt_zero _)
        · rw [firstCapacity, if_pos none_] at doubled
          exact doubleCapacity_wide large doubled
        · rw [memory] at broke
          cases broke
      · exact Nat.le_trans wide' (Nat.le_trans (Nat.le_of_lt small) enough)
  · obtain ⟨backed, -⟩ := proper.node live generated_
    have before : n.capacity = 0 ∨ procBuffer ≤ n.capacity := wide id n.body (bodies_live live) generated_
    rcases refresh_renewed generated_ backed renewed with ⟨-, -, rfl⟩ | ⟨-, fresh⟩
    · exact before
    · change m.capacity = 0 ∨ procBuffer ≤ m.capacity
      rw [fresh.capacity]
      split
      · exact Or.inr (Nat.le_refl _)
      · rename_i some_
        exact Or.inr (before.resolve_left some_)

end Changes

section Runs
variable {env : Env} {σ τ : Session} {reply : Reply} {s t : FsState}

/-- The size a call asks the buffer of a node to hold. -/
def Asked (σ : Session) (op : Op) (id : NodeId) (n : FsNode) (needed : Nat) : Prop :=
  match op with
  | .call (.write h buf) => h ∈ σ.mine ∧ ∃ f, σ.fs.files h = some f ∧ f.node = id ∧
      has f.flags (oWronly ||| oRdwr) = true ∧ needed = wrap64 (writeOffset f n + buf.length)
  | .truncate path size => fsLookup σ.fs path = some (some id) ∧ needed = size
  | _ => False

theorem fsOpen_renews {asked : NodeId → FsNode → Nat → Prop} (proper : Proper s) {path : Bytes} {flags : Nat}
    {got : Option FileId} (run : fsOpen env s path flags = some (got, t)) : Renews env s asked t := by
  have created {b : Body} (plain : b.ops = (newBody env).ops) {u : FsState}
      (table : bodies u = Function.update (bodies s) s.nextInode (some b)) : Renews env s asked u := by
    refine .update proper table fun proc => ?_
    have none_ : b.ops = none := plain.trans (newBody_empty env).2.2
    rw [none_] at proc
    cases proc
  rcases fsOpen_cases run with ⟨-, rfl⟩ | ⟨id, n, -, -, live, -, opened⟩ |
    ⟨s₁, n, -, -, made, live, body, ⟨-, rfl⟩ | ⟨-, opened⟩⟩
  · exact .same proper rfl
  · refine .update proper opened.table fun proc => ?_
    have ops : n.ops = some .proc := by
      rw [← proc]
      unfold truncated
      split
      · rfl
      · rfl
    obtain ⟨-, fits, word⟩ := proper.node live ops
    refine ⟨n, live, ops, Or.inl ⟨0, Or.inl rfl, ?_⟩⟩
    unfold truncated
    split
    · exact .same 0 (Nat.zero_le _) word
    · exact .same n.size fits word
  · exact created rfl made.table
  · have table := opened.table
    rw [made.table, Function.update_idem] at table
    refine created ?_ table
    rw [← body]
    unfold truncated
    split
    · rfl
    · rfl

theorem fsWrite_renews (proper : Proper σ.fs) {h : FileId} {buf : Bytes} {code : Int} (held : h ∈ σ.mine)
    (run : fsWrite env σ.fs h buf = some (code, t)) : Renews env σ.fs (Asked σ (.call (.write h buf))) t := by
  obtain ⟨f, handle, -, -, -, -, same | ⟨n, b, live, -, memory, -, -, table⟩⟩ := fsWrite_cases run
  · exact .same proper same
  by_cases proc : n.ops = some .proc
  · obtain ⟨-, fits, word⟩ := proper.node live proc
    obtain ⟨-, -, -, -, needed, b', asks, resized, table'⟩ := fsWrite_room handle live memory fits word run
    refine .update proper table' fun _ => ⟨n, live, proc, Or.inl ⟨needed, ?_, resized⟩⟩
    exact asks.imp_right fun ⟨armed, eq⟩ => ⟨held, f, handle, rfl, armed, eq⟩
  · refine .update proper table fun generated_ => ?_
    obtain ⟨m, here, -, ops⟩ := (fsWrite_still handle run).live live
    have body : bodies t f.node = some b := by
      rw [table]
      exact Function.update_self ..
    rw [bodies_live here] at body
    cases Option.some.inj body
    exact absurd (ops.symm.trans generated_) proc

theorem fsTruncate_cases {path : Bytes} {size : Nat} {code : Int} (run : fsTruncate env s path size = some (code, t)) :
    t = s ∨ ∃ (id : NodeId) (n m : FsNode), fsLookup s path = some (some id) ∧ s.nodes id = some n ∧ m.ops = n.ops ∧
      bodies t = Function.update (bodies s) id (some m.body) := by
  obtain ⟨found, search, rest⟩ := Option.bind_eq_some_iff.mp run
  cases found with
  | none =>
    cases Option.some.inj rest
    exact Or.inl rfl
  | some id =>
    obtain ⟨n, live, rest⟩ := Option.bind_eq_some_iff.mp rest
    split at rest
    · cases Option.some.inj rest
      exact Or.inl rfl
    split at rest
    · obtain ⟨⟨error, m⟩, grow, rest⟩ := Option.bind_eq_some_iff.mp rest
      have ops : m.ops = n.ops := congrArg Prod.snd (ensureCapacity_frame grow)
      simp only at rest
      split at rest
      · cases Option.some.inj rest
        exact Or.inl rfl
      split at rest
      · cases rest
      · cases Option.some.inj rest
        refine Or.inr ⟨id, n, _, search, live, ?_, bodies_putNode live⟩
        exact ops
    · cases Option.some.inj rest
      refine Or.inr ⟨id, n, _, search, live, ?_, bodies_putNode live⟩
      rfl

theorem fsTruncate_renews (proper : Proper σ.fs) {path : Bytes} {size : Nat} {code : Int}
    (run : fsTruncate env σ.fs path size = some (code, t)) : Renews env σ.fs (Asked σ (.truncate path size)) t := by
  rcases fsTruncate_cases run with rfl | ⟨id, n, m, search, live, ops, table⟩
  · exact .same proper rfl
  by_cases proc : n.ops = some .proc
  · obtain ⟨-, fits, word⟩ := proper.node live proc
    obtain ⟨-, -, -, -, b, resized, table'⟩ := fsTruncate_room search live fits word run
    exact .update proper table' fun _ => ⟨n, live, proc, Or.inl ⟨size, Or.inr ⟨search, rfl⟩, resized⟩⟩
  · exact .update proper table fun generated_ => absurd (ops.symm.trans generated_) proc

theorem runOp_renews (proper : Proper σ.fs) {op : Op} (run : runOp env σ op = some (reply, τ)) :
    Renews env σ.fs (Asked σ op) τ.fs := by
  cases op with
  | call c =>
    have calls : perform env σ c = some (reply, τ) := run
    cases perform_cases calls with
    | opened opens => exact fsOpen_renews proper opens
    | read held reads =>
      obtain ⟨f, handle, -, -, -, -, same | ⟨n, m, live, renewed, table⟩⟩ := fsRead_refreshed reads
      · exact .same proper same
      · exact .refresh proper live renewed table
    | written held writes => exact fsWrite_renews proper held writes
    | sought held seeks =>
      obtain ⟨f, -, nodes, -⟩ := fsSeek_cases seeks
      exact .same proper (bodies_nodes nodes)
    | closed held closes => exact .same proper (fsClose_cases closes).1
    | refused => exact .same proper rfl
  | truncate path size =>
    obtain ⟨⟨code, t⟩, truncates, rest⟩ := Option.bind_eq_some_iff.mp run
    cases Option.some.inj rest
    exact fsTruncate_renews proper truncates
  | stat path =>
    obtain ⟨⟨result, t⟩, stats, rest⟩ := Option.bind_eq_some_iff.mp run
    have fs : τ.fs = t := by
      cases result with
      | ok size =>
        cases Option.some.inj rest
        rfl
      | error code =>
        cases Option.some.inj rest
        rfl
    rw [fs]
    obtain ⟨found, -, stats⟩ := Option.bind_eq_some_iff.mp stats
    cases found with
    | none =>
      cases Option.some.inj stats
      exact .same proper rfl
    | some id =>
      obtain ⟨n, live, stats⟩ := Option.bind_eq_some_iff.mp stats
      obtain ⟨m, renewed, stats⟩ := Option.bind_eq_some_iff.mp stats
      cases Option.some.inj stats
      exact .refresh proper live renewed (bodies_putNode live)

theorem fsReaddir_renews {asked : NodeId → FsNode → Nat → Prop} (proper : Proper s) {dir : Option NodeId} {index : Int}
    {got : Except Int Dirent} (run : fsReaddir env s dir index = some (got, t)) : Renews env s asked t := by
  cases dir with
  | none =>
    cases Option.some.inj run
    exact .same proper rfl
  | some d =>
    obtain ⟨nd, -, rest⟩ := Option.bind_eq_some_iff.mp run
    split at rest
    · cases Option.some.inj rest
      exact .same proper rfl
    obtain ⟨child, -, rest⟩ := Option.bind_eq_some_iff.mp rest
    cases child with
    | none =>
      cases Option.some.inj rest
      exact .same proper rfl
    | some id =>
      obtain ⟨n, live, rest⟩ := Option.bind_eq_some_iff.mp rest
      obtain ⟨m, renewed, rest⟩ := Option.bind_eq_some_iff.mp rest
      cases Option.some.inj rest
      exact .refresh proper live renewed (bodies_putNode live)

/-- A filesystem in which no generated file was used yet. -/
def ProcStart (σ : Session) : Prop :=
  ∀ id n, σ.fs.nodes id = some n → n.ops = some .proc → n.backing ≠ none ∧ n.size = 0 ∧ n.capacity = 0

/-- A task of the root user. -/
def Env.Root (env : Env) : Prop := ∃ cred, env.task = some cred ∧ cred.uid = 0

/-- A filesystem call of a root task that meets the condition ok. -/
inductive ProcStep (ok : Env → Session → Op → Prop) (σ : Session) : Session → Prop where
  | op {env : Env} {op : Op} {reply : Reply} {τ : Session} (root : env.Root) (meets : ok env σ op)
      (run : runOp env σ op = some (reply, τ)) : ProcStep ok σ τ
  | readdir {env : Env} {path : Bytes} {index : Int} {got : Except Int Dirent} {s : FsState} (root : env.Root)
      (run : fsReaddirPath env σ.fs path index = some (got, s)) : ProcStep ok σ { fs := s, mine := σ.mine }

def Any (_ : Env) (_ : Session) (_ : Op) : Prop := True

/-- A generated file without a buffer is asked to hold nothing, or more than half
of what its generator needs, or there is no memory for it. -/
def Tidy (env : Env) (σ : Session) (op : Op) : Prop :=
  ∀ id n needed, σ.fs.nodes id = some n → n.ops = some .proc → n.capacity = 0 → Asked σ op id n needed →
    needed = 0 ∨ 4096 < needed ∨ env.dataAlloc = false

variable {ok : Env → Session → Op → Prop}

theorem ProcStep.proper (moves : ProcStep ok σ τ) (proper : Proper σ.fs) : Proper τ.fs := by
  cases moves with
  | op root meets run => exact (runOp_renews proper run).proper proper
  | readdir root run =>
    obtain ⟨dir, -, reads⟩ := Option.bind_eq_some_iff.mp run
    exact (@fsReaddir_renews _ _ _ (fun _ _ _ => False) proper _ _ _ reads).proper proper

theorem ProcStep.wide (moves : ProcStep Tidy σ τ) (proper : Proper σ.fs) (wide : Wide σ.fs) : Wide τ.fs := by
  cases moves with
  | op root meets run => exact (runOp_renews proper run).wide proper wide meets
  | readdir root run =>
    obtain ⟨dir, -, reads⟩ := Option.bind_eq_some_iff.mp run
    exact (fsReaddir_renews proper reads).wide proper wide fun _ _ _ _ _ _ never => False.elim never

theorem proper_reached (reached : Reachable ProcStart (ProcStep ok) σ) : Proper σ.fs := by
  refine reached.induct (fun σ => Proper σ.fs) ?_ (fun _ _ proper moves => moves.proper proper)
  intro σ start id b here proc
  obtain ⟨n, live, rfl⟩ := live_of_body here
  obtain ⟨backed, size, capacity⟩ := start id n live proc
  refine ⟨backed, Nat.le_of_eq (size.trans capacity.symm), Nat.lt_of_le_of_lt (Nat.le_of_eq capacity) (by decide)⟩

theorem wide_reached (reached : Reachable ProcStart (ProcStep Tidy) σ) : Wide σ.fs := by
  have both : Proper σ.fs ∧ Wide σ.fs := by
    refine reached.induct (fun σ => Proper σ.fs ∧ Wide σ.fs) ?_ ?_
    · intro σ start
      refine ⟨proper_reached (@Runs.Reachable.start _ _ (ProcStep Tidy) _ start), fun id b here proc => ?_⟩
      obtain ⟨n, live, rfl⟩ := live_of_body here
      exact Or.inl (start id n live proc).2.2
    · intro σ τ both moves
      exact ⟨moves.proper both.1, moves.wide both.1 both.2⟩
  exact both.2

/-- Over every run, a refresh stays in the buffer exactly when the node has none
yet or one with room for the text, and then reads return a part of the text. Over
the runs whose writes and truncations are tidy that is always so. -/
theorem generated_in_bounds (σ : Session) (env : Env) (id : NodeId) (n : FsNode) (live : σ.fs.nodes id = some n)
    (proc : n.ops = some .proc) :
    (Reachable ProcStart (ProcStep Any) σ →
      ((∃ m, refresh env id n = some m) ↔ TextFits env id n) ∧
      (∀ m, refresh env id n = some m →
        m.size ≤ m.capacity ∧ (n.capacity ≠ 0 → ∀ i, m.capacity ≤ i → m.data i = n.data i)) ∧
      ∀ h f len code got s, σ.fs.files h = some f → f.node = id → fsRead env σ.fs h len = some (code, got, s) →
        got = if f.flags &&& oRdwr = oWronly ∨ (n.capacity = 0 ∧ env.dataAlloc = false) then []
          else readAt f.offset len (generated env id)) ∧
    (Reachable ProcStart (ProcStep Tidy) σ → ∃ m, refresh env id n = some m) := by
  constructor
  · intro reached
    obtain ⟨backed, fits, -⟩ := (proper_reached reached).node live proc
    refine ⟨refresh_returns proc backed, ?_, ?_⟩
    · intro m run
      rcases refresh_renewed proc backed run with ⟨-, -, rfl⟩ | ⟨-, fresh⟩
      · exact ⟨fits, fun _ _ _ => rfl⟩
      · exact ⟨Nat.le_of_lt fresh.fits, fresh.outside⟩
    · rintro h f len code got s handle rfl run
      exact fsRead_generated handle live proc backed fits run
  · intro reached
    obtain ⟨backed, -⟩ := (proper_reached reached).node live proc
    refine (refresh_returns proc backed).mpr ?_
    rcases wide_reached reached id n.body (bodies_live live) proc with none_ | wide
    · exact Or.inl none_
    · exact Or.inr (Nat.lt_of_lt_of_le (generated_short env id) wide)

/-- The filesystem after boot with one generated file. -/
def procBoot : Option Session :=
  (fsInit bootEnv fun _ => bootEnv).bind fun s =>
    (fsRegisterNode bootEnv s (ascii "/proc") (ascii "meminfo") .file (some .proc) (some 0)).map fun r =>
      { fs := r.2, mine := [] }

theorem procBoot_start (boot : procBoot = some σ) : ProcStart σ := by
  have all : (procBoot.map fun σ => (σ.fs.nextInode, (List.range 16).all fun id => (σ.fs.nodes id).all fun n =>
      decide (n.ops = some .proc → n.backing ≠ none ∧ n.size = 0 ∧ n.capacity = 0))) = some (16, true) := by
    decide +kernel
  rw [boot, Option.map_some] at all
  obtain ⟨next, all⟩ := Prod.mk.inj (Option.some.inj all)
  obtain ⟨s, started, rest⟩ := Option.bind_eq_some_iff.mp boot
  obtain ⟨⟨got, t⟩, register, rfl⟩ := Option.map_eq_some_iff.mp rest
  have bare : Fresh bareFs := by
    intro c n live
    cases live
  have fresh : Fresh t := by
    have booted := (fsInit_undisturbed started).fresh bare
    exact (fsRegisterNode_undisturbed booted register).fresh booted
  intro id n live proc
  have below : id < 16 := next ▸ fresh id n live
  have plain := List.all_eq_true.mp all id (List.mem_range.mpr below)
  rw [live, Option.all_some] at plain
  exact of_decide_eq_true plain proc

example : (procBoot.bind fun σ => (σ.fs.nodes 15).map FsNode.ops) = some (some .proc) := by decide +kernel

theorem generated_in_bounds_at_boot : ∃ σ n m, procBoot = some σ ∧ σ.fs.nodes 15 = some n ∧ n.ops = some .proc ∧
    refresh rootEnv 15 n = some m := by
  have made : (procBoot.map fun σ => (σ.fs.nodes 15).map FsNode.ops) = some (some (some .proc)) := by decide +kernel
  obtain ⟨σ, boot, there⟩ := Option.map_eq_some_iff.mp made
  obtain ⟨n, live, proc⟩ := Option.map_eq_some_iff.mp there
  obtain ⟨m, run⟩ := (generated_in_bounds σ rootEnv 15 n live proc).2 (.start (procBoot_start boot))
  exact ⟨σ, n, m, boot, live, proc, run⟩

/-- The root task when the generators produce three hundred bytes. -/
def longEnv : Env := { rootEnv with procText := fun _ => List.replicate 300 65 }

example : (procBoot.map fun σ => σ.fs.nextInode) = some 16 := by decide +kernel

/-- One byte written to a generated file before its first refresh. -/
theorem write_shrinks_buffer :
    ¬ ∀ σ, Reachable ProcStart (ProcStep Any) σ → ∀ env id n, env.Root → σ.fs.nodes id = some n →
      n.ops = some .proc → ∃ m, refresh env id n = some m := by
  intro always
  have root : rootEnv.Root := ⟨_, rfl, rfl⟩
  have attack : (procBoot.bind fun σ₀ =>
      (runOp rootEnv σ₀ (.call (.open (ascii "/proc/meminfo") oWronly))).bind fun r₁ =>
        (runOp rootEnv r₁.2 (.call (.write 0 [120]))).map fun r₂ =>
          (r₂.2.fs.nodes 15).map fun n => (n.ops, (refresh longEnv 15 n).isSome)) =
      some (some (some .proc, false)) := by
    decide +kernel
  obtain ⟨σ₀, boot, rest⟩ := Option.bind_eq_some_iff.mp attack
  obtain ⟨⟨reply₁, σ₁⟩, opens, rest⟩ := Option.bind_eq_some_iff.mp rest
  obtain ⟨⟨reply₂, σ₂⟩, writes, there⟩ := Option.map_eq_some_iff.mp rest
  obtain ⟨n, live, facts⟩ := Option.map_eq_some_iff.mp there
  obtain ⟨proc, stuck⟩ := Prod.mk.inj facts
  have first : Reachable ProcStart (ProcStep Any) σ₁ := .next (.start (procBoot_start boot)) (.op root trivial opens)
  have second : Reachable ProcStart (ProcStep Any) σ₂ := .next first (.op root trivial writes)
  obtain ⟨m, run⟩ := always σ₂ second longEnv 15 n ⟨_, rfl, rfl⟩ live proc
  rw [run] at stuck
  cases stuck

end Runs

end Qito.Vfs
