import Qito.Vfs.Contents

/-! The buffers of the filesystem against the byte sequences of Ideal. -/
namespace Qito.Vfs
open Buffers Runs Words

/-- A root task with all the memory it asks for. -/
structure Plenty (env : Env) : Prop where
  root : ∃ cred, env.task = some cred ∧ cred.uid = 0
  nodes : env.nodeAlloc = true
  files : env.fileAlloc = true
  data : env.dataAlloc = true

/-- The path names an in-memory regular file, if it names anything. -/
def OnFile (s : FsState) (path : Bytes) : Prop :=
  ∀ found ∈ fsLookup s path, ∀ id ∈ found, ∀ n ∈ s.nodes id, n.body.Regular

instance (s : FsState) (path : Bytes) : Decidable (OnFile s path) :=
  inferInstanceAs (Decidable (∀ found ∈ fsLookup s path, ∀ id ∈ found, ∀ n ∈ s.nodes id, n.body.Regular))

/-- Where fs_write starts. -/
def writeOffset (f : File) (n : FsNode) : Nat := if has f.flags oAppend then n.size else f.offset

/-- Offsets and lengths below 2^40, on in-memory regular files. -/
def InRange (σ : Session) : Op → Prop
  | .call (.open path _) => OnFile σ.fs path
  | .call (.read h len) => len < 2 ^ 40 ∧ ∀ f ∈ σ.fs.files h, f.offset < 2 ^ 40
  | .call (.write h buf) => buf.length < 2 ^ 40 ∧
      ∀ f ∈ σ.fs.files h, ∀ n ∈ σ.fs.nodes f.node, writeOffset f n < 2 ^ 40
  | .call (.seek h offset _) => -2 ^ 40 < offset ∧ offset < 2 ^ 40 ∧ ∀ f ∈ σ.fs.files h, f.offset < 2 ^ 40
  | .call (.close _) => True
  | .truncate path size => OnFile σ.fs path ∧ size < 2 ^ 40
  | .stat path => OnFile σ.fs path

instance (σ : Session) : (op : Op) → Decidable (InRange σ op)
  | .call (.open path _) => inferInstanceAs (Decidable (OnFile σ.fs path))
  | .call (.read h len) => inferInstanceAs (Decidable (len < 2 ^ 40 ∧ ∀ f ∈ σ.fs.files h, f.offset < 2 ^ 40))
  | .call (.write h buf) => inferInstanceAs (Decidable (buf.length < 2 ^ 40 ∧
      ∀ f ∈ σ.fs.files h, ∀ n ∈ σ.fs.nodes f.node, writeOffset f n < 2 ^ 40))
  | .call (.seek h offset _) => inferInstanceAs (Decidable (-2 ^ 40 < offset ∧ offset < 2 ^ 40 ∧
      ∀ f ∈ σ.fs.files h, f.offset < 2 ^ 40))
  | .call (.close _) => inferInstanceAs (Decidable True)
  | .truncate path size => inferInstanceAs (Decidable (OnFile σ.fs path ∧ size < 2 ^ 40))
  | .stat path => inferInstanceAs (Decidable (OnFile σ.fs path))

/-- A write past the end that fits the buffer finds zeros between the end of the
file and its own first byte. -/
def GapOk (σ : Session) : Op → Prop
  | .call (.write h buf) => h ∈ σ.mine → ∀ f ∈ σ.fs.files h, ∀ n ∈ σ.fs.nodes f.node,
      has f.flags (oWronly ||| oRdwr) = true → writeOffset f n + buf.length ≤ n.capacity →
      ∀ i < writeOffset f n, n.size ≤ i → n.data i = 0
  | _ => True

structure Refines (σ : Session) (α : Ideal) : Prop where
  tree : ∃ kids, Tree σ.fs kids
  files : ∀ id b, bodies σ.fs id = some b → b.Regular → b.Sound ∧ α.files id = b.contents
  unborn : ∀ id, σ.fs.nextInode ≤ id → α.files id = []
  held : ∀ h ∈ σ.mine, h < σ.fs.nextFile ∧ ∃ f b, σ.fs.files h = some f ∧ f.refs = 1 ∧
    bodies σ.fs f.node = some b ∧ b.Regular ∧
    α.handles h = some { node := f.node, offset := f.offset, flags := f.flags }
  loose : ∀ h, h ∉ σ.mine → α.handles h = none

section Buffer
variable {env : Env}

theorem doubleCapacity_spec {fuel capacity needed : Nat} (room : needed ≤ 2 ^ 62)
    (enough : needed ≤ capacity * 2 ^ fuel) :
    ∃ c, doubleCapacity (fuel + 1) capacity needed = some c ∧ needed ≤ c := by
  induction fuel generalizing capacity with
  | zero =>
    have fits : ¬ capacity < needed := by omega
    exact ⟨capacity, by simp [doubleCapacity, fits], by omega⟩
  | succ fuel ih =>
    by_cases small : capacity < needed
    · have exact' : wrap64 (capacity * 2) = capacity * 2 := Nat.mod_eq_of_lt (by omega)
      have wide : needed ≤ capacity * 2 * 2 ^ fuel := by
        rwa [Nat.pow_succ', ← Nat.mul_assoc] at enough
      obtain ⟨c, run, fits⟩ := ih wide
      refine ⟨c, ?_, fits⟩
      rw [doubleCapacity, if_pos small, exact']
      exact run
    · exact ⟨capacity, by simp [doubleCapacity, small], by omega⟩

theorem ensureCapacity_spec {n : FsNode} {needed : Nat} (memory : env.dataAlloc = true) (room : needed ≤ 2 ^ 62) :
    (needed ≤ n.capacity ∧ ensureCapacity env n needed = some (0, n)) ∨
    (n.capacity < needed ∧ ∃ c, needed ≤ c ∧ ensureCapacity env n needed =
      some (0, { n with data := fun i => if i < n.size then n.data i else 0, capacity := c })) := by
  by_cases fits : needed ≤ n.capacity
  · exact Or.inl ⟨fits, by simp [ensureCapacity, fits]⟩
  · right
    have start : needed ≤ (if n.capacity = 0 then 256 else n.capacity) * 2 ^ 64 := by
      split
      · omega
      · omega
    obtain ⟨c, run, enough⟩ := doubleCapacity_spec room start
    exact ⟨by omega, c, enough, by simp [ensureCapacity, fits, run, memory]⟩

theorem contents_node (n : FsNode) : n.contents = n.body.contents := by
  simp [FsNode.contents, Body.contents, slice, bytes, FsNode.body]

end Buffer

section Steps
variable {env : Env} {σ : Session} {α : Ideal} {s : FsState}

theorem Refines.replace (refines : Refines σ α) {id : NodeId} {b b' : Body} (tree : ∃ kids, Tree s kids)
    (inode : s.nextInode = σ.fs.nextInode) (next : s.nextFile = σ.fs.nextFile) (files : s.files = σ.fs.files)
    (old : bodies σ.fs id = some b) (regular : b'.Regular) (sound : b'.Sound)
    (table : bodies s = Function.update (bodies σ.fs) id (some b')) :
    Refines { σ with fs := s } { α with files := Function.update α.files id b'.contents } := by
  have younger : id < σ.fs.nextInode := by
    obtain ⟨n, live, -⟩ := live_of_body old
    obtain ⟨kids, before⟩ := refines.tree
    exact before.fresh _ _ (shapes_live live)
  constructor
  · exact tree
  · intro c k body reg
    rw [table] at body
    by_cases same : c = id
    · subst c
      rw [Function.update_self] at body
      cases Option.some.inj body
      exact ⟨sound, Function.update_self ..⟩
    · rw [Function.update_of_ne same] at body
      obtain ⟨good, bytes⟩ := refines.files c k body reg
      exact ⟨good, (Function.update_of_ne same _ _).trans bytes⟩
  · intro c late
    have late' : σ.fs.nextInode ≤ c := inode ▸ late
    have same : c ≠ id := Nat.ne_of_gt (Nat.lt_of_lt_of_le younger late')
    exact (Function.update_of_ne same _ _).trans (refines.unborn c late')
  · intro k member
    obtain ⟨older, g, k', here, refs, body, reg, ideal⟩ := refines.held k member
    refine ⟨by rw [next]; exact older, ?_⟩
    by_cases same : g.node = id
    · exact ⟨g, b', by rw [files]; exact here, refs, by rw [table, same, Function.update_self], regular, ideal⟩
    · exact ⟨g, k', by rw [files]; exact here, refs, by rw [table, Function.update_of_ne same]; exact body, reg, ideal⟩
  · exact refines.loose

theorem Refines.move (refines : Refines σ α) {h : FileId} {f : File} {offset : Nat} (tree : ∃ kids, Tree s kids)
    (inode : s.nextInode = σ.fs.nextInode) (next : s.nextFile = σ.fs.nextFile) (held : h ∈ σ.mine)
    (handle : σ.fs.files h = some f)
    (files : s.files = Function.update σ.fs.files h (some { f with offset := offset })) (table : bodies s = bodies σ.fs) :
    Refines { σ with fs := s } { α with
      handles := Function.update α.handles h (some { node := f.node, offset := offset, flags := f.flags }) } := by
  constructor
  · exact tree
  · intro c k body reg
    exact refines.files c k (by rw [← table]; exact body) reg
  · intro c late
    exact refines.unborn c (inode ▸ late)
  · intro k member
    obtain ⟨older, g, b, here, refs, body, reg, ideal⟩ := refines.held k member
    refine ⟨by rw [next]; exact older, ?_⟩
    by_cases same : k = h
    · subst k
      cases Option.some.inj (handle.symm.trans here)
      exact ⟨{ f with offset := offset }, b, by rw [files, Function.update_self], refs, by rw [table]; exact body, reg,
        Function.update_self ..⟩
    · exact ⟨g, b, by rw [files, Function.update_of_ne same]; exact here, refs, by rw [table]; exact body, reg,
        (Function.update_of_ne same _ _).trans ideal⟩
  · intro k outside
    have same : k ≠ h := fun eq => outside (eq ▸ held)
    exact (Function.update_of_ne same _ _).trans (refines.loose k outside)

theorem Refines.change (refines : Refines σ α) {h : FileId} {f : File} {offset : Nat} {b b' : Body}
    (tree : ∃ kids, Tree s kids) (inode : s.nextInode = σ.fs.nextInode) (next : s.nextFile = σ.fs.nextFile)
    (held : h ∈ σ.mine) (handle : σ.fs.files h = some f)
    (files : s.files = Function.update σ.fs.files h (some { f with offset := offset }))
    (old : bodies σ.fs f.node = some b) (regular : b'.Regular) (sound : b'.Sound)
    (table : bodies s = Function.update (bodies σ.fs) f.node (some b')) :
    Refines { σ with fs := s } {
      files := Function.update α.files f.node b'.contents
      handles := Function.update α.handles h (some { node := f.node, offset := offset, flags := f.flags }) } :=
  (refines.replace (s := { s with files := σ.fs.files }) tree inode next rfl old regular sound table).move (s := s) tree
    rfl rfl held handle files rfl

theorem Refines.node (refines : Refines σ α) {h : FileId} (held : h ∈ σ.mine) :
    ∃ f n, σ.fs.files h = some f ∧ f.refs = 1 ∧ σ.fs.nodes f.node = some n ∧ n.type = .file ∧ n.ops = none ∧
      n.size ≤ n.capacity ∧ n.size < 2 ^ 41 ∧ α.files f.node = bytes n.data n.size ∧
      α.handles h = some { node := f.node, offset := f.offset, flags := f.flags } := by
  obtain ⟨-, f, b, handle, refs, body, regular, ideal⟩ := refines.held h held
  obtain ⟨n, live, rfl⟩ := live_of_body body
  obtain ⟨⟨fits, small⟩, same⟩ := refines.files f.node n.body body regular
  exact ⟨f, n, handle, refs, live, regular.1, regular.2, fits, small, same, ideal⟩

theorem ssize_small {n : Nat} (small : n < 2 ^ 63) : ssize n = n := if_pos small

theorem fsRead_regular (env : Env) {h : FileId} {f : File} {n : FsNode} (len : Nat) (handle : s.files h = some f)
    (readable : f.flags &&& oRdwr ≠ oWronly) (live : s.nodes f.node = some n) (notDir : n.type ≠ .dir)
    (memory : n.ops = none) (fits : n.size ≤ n.capacity) (near : f.offset + n.size < 2 ^ 63) :
    ∃ (got : Bytes) (t : FsState), got = readAt f.offset len (bytes n.data n.size) ∧
      fsRead env s h len = some ((got.length : Int), got, t) ∧ bodies t = bodies s ∧ shapes t = shapes s ∧
      t.root = s.root ∧ t.nextInode = s.nextInode ∧ t.nextFile = s.nextFile ∧
      t.files = Function.update s.files h (some { f with offset := f.offset + got.length }) := by
  have put : bodies (putNode s f.node n) = bodies s := by
    rw [bodies_putNode live, ← bodies_live live, Function.update_eq_self]
  have shape : shapes (putNode s f.node n) = shapes s := shapes_putNode live rfl
  rw [readAt_bytes]
  by_cases past : n.size ≤ f.offset
  · have nothing : min len (n.size - f.offset) = 0 := by omega
    refine ⟨[], putNode s f.node n, by rw [nothing]; rfl, ?_, put, shape, rfl, rfl, rfl, ?_⟩
    · simp [fsRead, handle, readable, live, refresh, memory, opsRead, notDir, readData, past]
    · rw [List.length_nil, Nat.add_zero, ← handle]
      exact (Function.update_eq_self h s.files).symm
  · have inside : ¬ n.capacity < f.offset + min len (n.size - f.offset) := by omega
    have data : readData n f.offset len = some (slice n f.offset (min len (n.size - f.offset))) := by
      simp [readData, past, inside]
    obtain ⟨got, eq⟩ : ∃ got, slice n f.offset (min len (n.size - f.offset)) = got := ⟨_, rfl⟩
    have length : got.length = min len (n.size - f.offset) := by simp [← eq, slice]
    have small : got.length < 2 ^ 63 := by omega
    have exact' : wrap64 (f.offset + got.length) = f.offset + got.length := Nat.mod_eq_of_lt (by omega)
    rw [eq] at data
    refine ⟨got, setNode (setFile (putNode s f.node n) h fun f => { f with offset := wrap64 (f.offset + got.length) })
        f.node fun n => { n with accessed := env.now }, eq.symm, ?_, ?_, ?_, rfl, rfl, rfl, ?_⟩
    · simp [fsRead, handle, readable, live, refresh, memory, opsRead, notDir, past, data, ssize_small small]
    · refine (bodies_touch ?_).trans put
      exact fun m => rfl
    · refine (shapes_touch ?_).trans shape
      exact fun m => rfl
    · refine (files_setFile (s := putNode s f.node n) handle).trans ?_
      rw [exact']
      rfl

theorem read_refined (refines : Refines σ α) {h : FileId} {len : Nat} (range : InRange σ (.call (.read h len))) :
    ∃ τ, perform env σ (.read h len) = some ((α.step (.read h len)).1, τ) ∧ Refines τ (α.step (.read h len)).2 := by
  by_cases held : h ∈ σ.mine
  · obtain ⟨f, n, handle, -, live, file, memory, fits, small, same, ideal⟩ := refines.node held
    obtain ⟨kids, tree⟩ := refines.tree
    by_cases refused : f.flags &&& oRdwr = oWronly
    · refine ⟨σ, ?_, ?_⟩
      · simp [perform, held, fsRead, handle, refused, Ideal.step, ideal, Ideal.badHandle]
      · simpa [Ideal.step, ideal, refused] using refines
    have near : f.offset + n.size < 2 ^ 63 := by
      have bound := range.2 f handle
      omega
    obtain ⟨got, t, eq, run, table, shape, root, inode, next, files⟩ :=
      fsRead_regular env len handle refused live (by rw [file]; decide) memory fits near
    rw [← same] at eq
    refine ⟨{ σ with fs := t }, ?_, ?_⟩
    · simp [perform, held, run, Ideal.step, ideal, refused, ← eq]
    · have moved := refines.move ⟨kids, tree.of_shapes shape root inode⟩ inode next held handle files table
      simpa [Ideal.step, ideal, refused, ← eq] using moved
  · refine ⟨σ, ?_, ?_⟩
    · simp [perform, held, Ideal.step, refines.loose h held, Ideal.badHandle]
    · simpa [Ideal.step, refines.loose h held] using refines

theorem fsWrite_regular {h : FileId} {f : File} {n : FsNode} (buf : Bytes) (plenty : Plenty env)
    (handle : s.files h = some f) (writable : has f.flags (oWronly ||| oRdwr) = true) (live : s.nodes f.node = some n)
    (file : n.type = .file) (memory : n.ops = none) (fits : n.size ≤ n.capacity)
    (near : writeOffset f n + buf.length < 2 ^ 62)
    (gap : writeOffset f n + buf.length ≤ n.capacity → ∀ i, n.size ≤ i → i < writeOffset f n → n.data i = 0) :
    ∃ (t : FsState) (b : Body), fsWrite env s h buf = some ((buf.length : Int), t) ∧ b.Regular ∧
      b.size = max n.size (writeOffset f n + buf.length) ∧ b.size ≤ b.capacity ∧
      b.contents = writeAt 0 (writeOffset f n) buf (bytes n.data n.size) ∧
      bodies t = Function.update (bodies s) f.node (some b) ∧ shapes t = shapes s ∧ t.root = s.root ∧
      t.nextInode = s.nextInode ∧ t.nextFile = s.nextFile ∧
      t.files = Function.update s.files h (some { f with offset := writeOffset f n + buf.length }) := by
  have notDir : n.type ≠ .dir := by
    rw [file]
    decide
  obtain ⟨offset, eq⟩ : ∃ offset, writeOffset f n = offset := ⟨_, rfl⟩
  rw [eq] at near gap ⊢
  have exact' : wrap64 (offset + buf.length) = offset + buf.length := Nat.mod_eq_of_lt (by omega)
  -- the node after ensure_capacity: its bytes, and zeros where it got a new buffer
  have room : ∃ m : FsNode, ensureCapacity env n (offset + buf.length) = some (0, m) ∧ m.shape = n.shape ∧
      m.body.Regular ∧ m.size = n.size ∧ n.size ≤ m.capacity ∧ offset + buf.length ≤ m.capacity ∧
      (∀ i, i < n.size → m.data i = n.data i) ∧ (∀ i, n.size ≤ i → i < offset → m.data i = 0) := by
    rcases ensureCapacity_spec (n := n) plenty.data (Nat.le_of_lt near) with ⟨inside, run⟩ | ⟨outside, c, enough, run⟩
    · exact ⟨n, run, rfl, ⟨file, memory⟩, rfl, fits, inside, fun i _ => rfl, gap inside⟩
    · refine ⟨_, run, rfl, ⟨file, memory⟩, rfl, Nat.le_trans fits (Nat.le_trans (Nat.le_of_lt outside) enough), enough,
        ?_, ?_⟩
      · intro i below
        exact if_pos below
      · intro i above _
        exact if_neg (Nat.not_lt.mpr above)
  obtain ⟨m, grows, shape, regular, size, below, enough, kept, zeros⟩ := room
  let after : FsNode := { m with
    data := overlay m.data offset buf
    size := max m.size (offset + buf.length)
    modified := env.now }
  let moved := setFile (setFile s h fun f => { f with offset := offset }) h fun f => { f with
    offset := offset + buf.length }
  have run : fsWrite env s h buf = some ((buf.length : Int), putNode moved f.node after) := by
    have small : buf.length < 2 ^ 63 := by omega
    have devices : opsWrites n.ops = false := by simp [memory, opsWrites]
    have start : (if has f.flags oAppend = true then n.size else f.offset) = offset := eq
    have inside : ¬ m.capacity < offset + buf.length := Nat.not_lt.mpr enough
    simp [fsWrite, handle, writable, live, devices, notDir, start, exact', grows, ssize_small small, inside, moved, after]
  have live' : moved.nodes f.node = some n := live
  refine ⟨_, after.body, run, ⟨regular.1, regular.2⟩, ?_, ?_, ?_, bodies_putNode live', shapes_putNode live' shape,
    rfl, rfl, rfl, ?_⟩
  · rw [← size]
    rfl
  · exact max_le (size.trans_le below) enough
  · have stored : writeAt 0 offset buf (bytes n.data n.size) =
        bytes (overlay m.data offset buf) (max n.size (offset + buf.length)) := by
      apply writeAt_bytes
      · exact fun i low high => if_pos ⟨low, high⟩
      · exact fun i inside outside => (if_neg outside).trans (kept i inside)
      · intro i above before
        have outside : ¬ (offset ≤ i ∧ i < offset + buf.length) := fun both => Nat.not_lt.mpr both.1 before
        exact (if_neg outside).trans (zeros i above before)
    rw [stored, ← size]
    rfl
  · simp [moved, setFile, handle, putNode, setNode]

theorem write_refined (refines : Refines σ α) (plenty : Plenty env) {h : FileId} {buf : Bytes}
    (range : InRange σ (.call (.write h buf))) (gap : GapOk σ (.call (.write h buf))) :
    ∃ τ, perform env σ (.write h buf) = some ((α.step (.write h buf)).1, τ) ∧ Refines τ (α.step (.write h buf)).2 := by
  by_cases held : h ∈ σ.mine
  · obtain ⟨f, n, handle, -, live, file, memory, fits, small, same, ideal⟩ := refines.node held
    obtain ⟨kids, tree⟩ := refines.tree
    cases writable : has f.flags (oWronly ||| oRdwr) with
    | false =>
      refine ⟨σ, ?_, ?_⟩
      · simp [perform, held, fsWrite, handle, writable, Ideal.step, ideal, Ideal.badHandle]
      · simpa [Ideal.step, ideal, writable] using refines
    | true =>
      have bound := range.2 f handle n live
      have short := range.1
      obtain ⟨t, b, run, regular, size, inside, bytes, table, shape, root, inode, next, files⟩ :=
        fsWrite_regular buf plenty handle writable live file memory fits (by omega)
          (fun inside i above before => gap held f handle n live writable inside i before above)
      have start : (if has f.flags oAppend = true then (α.files f.node).length else f.offset) = writeOffset f n := by
        rw [same, bytes_length]
        rfl
      have sound : b.Sound := ⟨inside, by rw [size]; omega⟩
      refine ⟨{ σ with fs := t }, ?_, ?_⟩
      · simp [perform, held, run, Ideal.step, ideal, writable]
      · have changed := refines.change ⟨kids, tree.of_shapes shape root inode⟩ inode next held handle files
          (bodies_live live) regular sound table
        rw [bytes, ← same] at changed
        simpa [Ideal.step, ideal, writable, start] using changed
  · refine ⟨σ, ?_, ?_⟩
    · simp [perform, held, Ideal.step, refines.loose h held, Ideal.badHandle]
    · simpa [Ideal.step, refines.loose h held] using refines

theorem int64_small {n : Int} (low : -2 ^ 63 ≤ n) (high : n < 2 ^ 63) : int64 n = n := by
  rw [int64, Int.emod_eq_of_lt (by omega) (by omega)]
  omega

theorem seek_refined (refines : Refines σ α) {h : FileId} {offset : Int} {origin : Origin}
    (range : InRange σ (.call (.seek h offset origin))) :
    ∃ τ, perform env σ (.seek h offset origin) = some ((α.step (.seek h offset origin)).1, τ) ∧
      Refines τ (α.step (.seek h offset origin)).2 := by
  by_cases held : h ∈ σ.mine
  · obtain ⟨f, n, handle, -, live, file, memory, fits, small, same, ideal⟩ := refines.node held
    obtain ⟨kids, tree⟩ := refines.tree
    obtain ⟨low, high, bound⟩ := range
    have near := bound f handle
    -- what fs_seek does once it knows its base
    have moved (start : Nat) (close : start < 2 ^ 41) (base : α.base { node := f.node, offset := f.offset, flags := f.flags }
        origin = some (start : Int)) (run : fsSeek σ.fs h offset origin = some
          (if int64 (int64 start + offset) < 0 then (-qeInval, σ.fs)
          else (int64 (int64 start + offset),
            setFile σ.fs h fun f => { f with offset := (int64 (int64 start + offset)).toNat }))) :
        ∃ τ, perform env σ (.seek h offset origin) = some ((α.step (.seek h offset origin)).1, τ) ∧
          Refines τ (α.step (.seek h offset origin)).2 := by
      rw [int64_small (n := start) (by omega) (by omega), int64_small (by omega) (by omega)] at run
      by_cases negative : (start : Int) + offset < 0
      · refine ⟨σ, ?_, ?_⟩
        · simp [perform, held, run, negative, Ideal.step, ideal, base]
        · simpa [Ideal.step, ideal, base, negative] using refines
      · refine ⟨{ σ with fs := setFile σ.fs h fun f => { f with offset := ((start : Int) + offset).toNat } }, ?_, ?_⟩
        · simp [perform, held, run, negative, Ideal.step, ideal, base]
        · have done := refines.move (s := setFile σ.fs h fun f => { f with offset := ((start : Int) + offset).toNat })
            ⟨kids, tree⟩ rfl rfl held handle (files_setFile handle) rfl
          simpa [Ideal.step, ideal, base, negative] using done
    cases origin with
    | set => exact moved 0 (by omega) rfl (by simp [fsSeek, handle, live])
    | cur => exact moved f.offset (by omega) rfl (by simp [fsSeek, handle, live])
    | fromEnd =>
      refine moved n.size small ?_ (by simp [fsSeek, handle, live])
      simp [Ideal.base, same]
    | other =>
      refine ⟨σ, ?_, ?_⟩
      · simp [perform, held, fsSeek, handle, live, Ideal.step, ideal, Ideal.base]
      · simpa [Ideal.step, ideal, Ideal.base] using refines
  · refine ⟨σ, ?_, ?_⟩
    · simp [perform, held, Ideal.step, refines.loose h held, Ideal.badHandle]
    · simpa [Ideal.step, refines.loose h held] using refines

theorem close_refined (refines : Refines σ α) {h : FileId} :
    ∃ τ, perform env σ (.close h) = some ((α.step (.close h)).1, τ) ∧ Refines τ (α.step (.close h)).2 := by
  by_cases held : h ∈ σ.mine
  · obtain ⟨f, n, handle, refs, live, -, -, -, -, -, ideal⟩ := refines.node held
    obtain ⟨kids, tree⟩ := refines.tree
    let t : FsState := { setNode σ.fs f.node (fun n => { n with openCount := n.openCount - 1 }) with
      files := Function.update σ.fs.files h none
      openFileCount := σ.fs.openFileCount - 1 }
    have run : fsClose σ.fs h = some t := by
      simp [fsClose, handle, refs, live, t, setNode]
    have table : bodies t = bodies σ.fs := bodies_touch (s := σ.fs) (fun n => rfl)
    have shape : shapes t = shapes σ.fs := shapes_touch (s := σ.fs) (fun n => rfl)
    refine ⟨{ fs := t, mine := σ.mine.filter (· ≠ h) }, ?_, ?_⟩
    · simp [perform, held, run, Ideal.step, ideal]
    · have step : (α.step (.close h)).2 = { α with handles := Function.update α.handles h none } := by
        simp [Ideal.step, ideal]
      rw [step]
      constructor
      · exact ⟨kids, tree.of_shapes shape rfl rfl⟩
      · intro id b body regular
        exact refines.files id b (by rw [← table]; exact body) regular
      · exact refines.unborn
      · intro k member
        obtain ⟨old, other⟩ := List.mem_filter.mp member
        have ne : k ≠ h := by simpa using other
        obtain ⟨older, g, b, here, refs', body, regular, same⟩ := refines.held k old
        exact ⟨older, g, b, (Function.update_of_ne ne _ _).trans here, refs', by rw [table]; exact body, regular,
          (Function.update_of_ne ne _ _).trans same⟩
      · intro k outside
        by_cases same : k = h
        · rw [same]
          exact Function.update_self ..
        · refine (Function.update_of_ne same _ _).trans (refines.loose k fun old => outside ?_)
          exact List.mem_filter.mpr ⟨old, by simpa using same⟩
  · refine ⟨σ, ?_, ?_⟩
    · simp [perform, held, Ideal.step, refines.loose h held, Ideal.badHandle]
    · simpa [Ideal.step, refines.loose h held] using refines

theorem fsLookup_onFile {kids : NodeId → List NodeId} (tree : Tree s kids) {path : Bytes} (range : OnFile s path) :
    fsLookup s path = some none ∨ ∃ id n, fsLookup s path = some (some id) ∧ s.nodes id = some n ∧ n.body.Regular := by
  obtain ⟨found, search, alive⟩ := fsLookup_spec tree path
  cases found with
  | none => exact Or.inl search
  | some id =>
    obtain ⟨n, live⟩ := alive id rfl
    exact Or.inr ⟨id, n, search, live, range _ search id rfl n live⟩

theorem fsTruncate_regular {path : Bytes} {id : NodeId} {n : FsNode} (size : Nat) (plenty : Plenty env)
    (search : fsLookup s path = some (some id)) (live : s.nodes id = some n) (regular : n.body.Regular)
    (fits : n.size ≤ n.capacity) (near : size < 2 ^ 62) :
    ∃ (t : FsState) (b : Body), fsTruncate env s path size = some (0, t) ∧ b.Regular ∧ b.size = size ∧
      b.size ≤ b.capacity ∧ b.contents = resize 0 size (bytes n.data n.size) ∧
      bodies t = Function.update (bodies s) id (some b) ∧ shapes t = shapes s ∧ t.root = s.root ∧
      t.nextInode = s.nextInode ∧ t.nextFile = s.nextFile ∧ t.files = s.files := by
  have file : n.type = .file := regular.1
  by_cases grows : n.size < size
  · have room : ∃ m : FsNode, ensureCapacity env n size = some (0, m) ∧ m.shape = n.shape ∧ m.body.Regular ∧
        size ≤ m.capacity ∧ ∀ i, i < n.size → m.data i = n.data i := by
      rcases ensureCapacity_spec (n := n) plenty.data (Nat.le_of_lt near) with ⟨inside, run⟩ | ⟨-, c, enough, run⟩
      · exact ⟨n, run, rfl, regular, inside, fun i _ => rfl⟩
      · exact ⟨_, run, rfl, regular, enough, fun i below => if_pos below⟩
    obtain ⟨m, run, shape, regular', enough, kept⟩ := room
    let after : FsNode := { m with
      data := fun i => if n.size ≤ i ∧ i < size then 0 else m.data i
      size := size
      modified := env.now }
    have inside : ¬ m.capacity < size := Nat.not_lt.mpr enough
    refine ⟨putNode s id after, after.body, ?_, regular', rfl, enough, ?_, bodies_putNode live,
      shapes_putNode live shape, rfl, rfl, rfl, rfl⟩
    · simp [fsTruncate, search, live, file, grows, run, inside, after]
    · refine (resize_bytes 0 ?_ ?_).symm
      · intro i below _
        have outside : ¬ (n.size ≤ i ∧ i < size) := fun both => Nat.not_lt.mpr both.1 below
        exact (if_neg outside).trans (kept i below)
      · exact fun i above before => if_pos ⟨above, before⟩
  · let after : FsNode := { n with size := size, modified := env.now }
    have below : size ≤ n.size := Nat.le_of_not_lt grows
    refine ⟨putNode s id after, after.body, ?_, regular, rfl, Nat.le_trans below fits, ?_, bodies_putNode live,
      shapes_putNode live rfl, rfl, rfl, rfl, rfl⟩
    · simp [fsTruncate, search, live, file, grows, after]
    · refine (resize_bytes 0 (fun i _ _ => rfl) ?_).symm
      intro i above before
      exact absurd (Nat.lt_of_lt_of_le before below) (Nat.not_lt.mpr above)

theorem newBody_empty (env : Env) : (newBody env).size = 0 ∧ (newBody env).Regular := by
  cases task : env.task with
  | none => simp [newBody, owned, task, freshNode, FsNode.body, Body.Regular]
  | some cred => simp [newBody, owned, task, freshNode, FsNode.body, Body.Regular]

theorem Refines.born (refines : Refines σ α) (tree : ∃ kids, Tree s kids) (created : Created env σ.fs s) :
    Refines { σ with fs := s } α := by
  have empty := newBody_empty env
  constructor
  · exact tree
  · intro id b body regular
    rw [created.table] at body
    by_cases same : id = σ.fs.nextInode
    · subst id
      rw [Function.update_self] at body
      cases Option.some.inj body
      refine ⟨⟨by rw [empty.1]; exact Nat.zero_le _, by rw [empty.1]; decide⟩, ?_⟩
      rw [refines.unborn _ (Nat.le_refl _), Body.contents, empty.1]
      rfl
    · rw [Function.update_of_ne same] at body
      exact refines.files id b body regular
  · intro id late
    have older : σ.fs.nextInode ≤ id := by
      have bound : s.nextInode ≤ id := late
      rw [created.inode] at bound
      exact Nat.le_of_succ_le bound
    exact refines.unborn id older
  · intro h member
    obtain ⟨older, f, b, handle, refs, body, regular, ideal⟩ := refines.held h member
    have apart : f.node ≠ σ.fs.nextInode := by
      obtain ⟨n, live, -⟩ := live_of_body body
      obtain ⟨kids, before⟩ := refines.tree
      exact Nat.ne_of_lt (before.fresh _ _ (shapes_live live))
    exact ⟨by rw [created.nextFile]; exact older, f, b, by rw [created.files]; exact handle, refs,
      by rw [created.table, Function.update_of_ne apart]; exact body, regular, ideal⟩
  · exact refines.loose

theorem Refines.add (refines : Refines σ α) {f : File} {b : Body} (tree : ∃ kids, Tree s kids)
    (inode : s.nextInode = σ.fs.nextInode) (next : s.nextFile = σ.fs.nextFile + 1)
    (files : s.files = Function.update σ.fs.files σ.fs.nextFile (some f)) (table : bodies s = bodies σ.fs)
    (refs : f.refs = 1) (body : bodies σ.fs f.node = some b) (regular : b.Regular) :
    Refines { fs := s, mine := σ.fs.nextFile :: σ.mine } { α with
      handles := Function.update α.handles σ.fs.nextFile (some { node := f.node, offset := f.offset, flags := f.flags }) } := by
  constructor
  · exact tree
  · intro c k here reg
    exact refines.files c k (by rw [← table]; exact here) reg
  · intro c late
    exact refines.unborn c (inode ▸ late)
  · intro k member
    rcases List.mem_cons.mp member with rfl | old
    · exact ⟨by rw [next]; exact Nat.lt_succ_self _, f, b, by rw [files, Function.update_self], refs,
        by rw [table]; exact body, regular, Function.update_self ..⟩
    · obtain ⟨older, g, c, here, refs', there, reg, ideal⟩ := refines.held k old
      have same : k ≠ σ.fs.nextFile := Nat.ne_of_lt older
      exact ⟨by rw [next]; exact Nat.lt_succ_of_lt older, g, c, by rw [files, Function.update_of_ne same]; exact here,
        refs', by rw [table]; exact there, reg, (Function.update_of_ne same _ _).trans ideal⟩
  · intro k outside
    have same : k ≠ σ.fs.nextFile := fun eq => outside (eq ▸ List.mem_cons_self)
    exact (Function.update_of_ne same _ _).trans
      (refines.loose k fun old => outside (List.mem_cons_of_mem _ old))

theorem Refines.grant (refines : Refines σ α) {id : NodeId} {n : FsNode} {flags : Nat} {got : Option FileId}
    (memory : env.fileAlloc = true) (live : σ.fs.nodes id = some n) (regular : n.body.Regular)
    (opened : Opened env σ.fs id n flags got s) :
    got = some σ.fs.nextFile ∧ (∃ f, s.files σ.fs.nextFile = some f ∧ f.node = id) ∧
      Refines { fs := s, mine := σ.fs.nextFile :: σ.mine } (α.step (.open σ.fs.nextFile id flags)).2 := by
  obtain ⟨kids, tree⟩ := refines.tree
  have tree' := tree.of_shapes opened.shape opened.root opened.inode
  obtain ⟨⟨fits, small⟩, same⟩ := refines.files id n.body (bodies_live live) regular
  have kept : (truncated flags n).body.contents = if has flags oTrunc then [] else α.files id := by
    rw [same]
    have file : n.type = .file := regular.1
    cases cut : has flags oTrunc with
    | false => simp [truncated, cut]
    | true => simp [truncated, cut, file, Body.contents, FsNode.body, bytes]
  have length : (truncated flags n).size = (if has flags oTrunc then [] else α.files id : Bytes).length := by
    rw [← kept]
    exact (bytes_length _ _).symm
  have below : (truncated flags n).size ≤ n.size := by
    rw [truncated]
    split
    · exact Nat.zero_le _
    · exact Nat.le_refl _
  have shaped : (truncated flags n).body.Regular ∧ (truncated flags n).capacity = n.capacity := by
    rw [truncated]
    split
    · exact ⟨regular, rfl⟩
    · exact ⟨regular, rfl⟩
  have sound : (truncated flags n).body.Sound :=
    ⟨Nat.le_trans below (by rw [show (truncated flags n).body.capacity = n.capacity from shaped.2]; exact fits),
      Nat.lt_of_le_of_lt below small⟩
  rcases opened.handle with ⟨full, -⟩ | ⟨rfl, next, files⟩
  · rw [memory] at full
    exact absurd full (by decide)
  · have cutFirst := refines.replace (s := { s with files := σ.fs.files, nextFile := σ.fs.nextFile }) ⟨kids, tree'⟩
      opened.inode rfl rfl (bodies_live live) shaped.1 sound opened.table
    have body : bodies s id = some (truncated flags n).body := by rw [opened.table, Function.update_self]
    have added := cutFirst.add (s := s) ⟨kids, tree'⟩ rfl next files rfl rfl body shaped.1
    refine ⟨rfl, ⟨_, by rw [files, Function.update_self], rfl⟩, ?_⟩
    rw [kept, length] at added
    exact added

theorem openNode_total (env : Env) {id : NodeId} {n : FsNode} (flags : Nat) (live : s.nodes id = some n) :
    ∃ got t, openNode env s id flags = some (got, t) := by
  simp only [openNode, live, Option.bind_eq_bind, Option.bind_some]
  split
  · exact ⟨_, _, rfl⟩
  split
  · exact ⟨_, _, rfl⟩
  split
  · exact ⟨_, _, rfl⟩
  split
  · exact ⟨_, _, rfl⟩
  · exact ⟨_, _, rfl⟩

theorem fsOpen_total (env : Env) {kids : NodeId → List NodeId} (tree : Tree s kids) (path : Bytes) (flags : Nat) :
    ∃ got t, fsOpen env s path flags = some (got, t) := by
  have target : ∃ got t, openTarget env s path flags = some (got, t) ∧ ∀ id, got = some id → ∃ n, t.nodes id = some n := by
    obtain ⟨found, search, alive⟩ := fsLookup_spec tree path
    cases found with
    | none =>
      cases create : has flags oCreate with
      | false => exact ⟨none, s, by simp [openTarget, search, create], by simp⟩
      | true =>
        obtain ⟨got, t, -, run, -⟩ := fsCreate_tree env tree path .file 0o644
        refine ⟨got, t, by simp [openTarget, search, create, run], ?_⟩
        rintro id rfl
        obtain ⟨-, -, -, ⟨none', -⟩ | ⟨same, -, table⟩⟩ := fsCreate_bodies run
        · exact absurd none' (by simp)
        · cases Option.some.inj same
          obtain ⟨n, live, -⟩ := live_of_body (by rw [table, Function.update_self] : bodies t s.nextInode = some _)
          exact ⟨n, live⟩
    | some id =>
      cases refused : has flags oExcl && has flags oCreate with
      | false =>
        refine ⟨some id, s, by simp [openTarget, search, refused], ?_⟩
        rintro x same
        cases Option.some.inj same
        exact alive id rfl
      | true => exact ⟨none, s, by simp [openTarget, search, refused], by simp⟩
  obtain ⟨got, t, aim, alive⟩ := target
  cases got with
  | none => exact ⟨none, t, by simp [fsOpen, aim]⟩
  | some id =>
    obtain ⟨n, live⟩ := alive id rfl
    obtain ⟨got, u, run⟩ := openNode_total env flags live
    exact ⟨got, u, by simp [fsOpen, aim, run]⟩

/-- The reply is the one of the file operation the call stands for. -/
def Agrees (α : Ideal) (σ τ : Session) (op : Op) (reply : Reply) : Prop :=
  ∀ file, resolve σ τ op reply = some file → reply = (α.step file).1

def Ideal.follow (α : Ideal) : Option FileOp → Ideal
  | none => α
  | some file => (α.step file).2

theorem open_refined (refines : Refines σ α) (plenty : Plenty env) {path : Bytes} (flags : Nat)
    (range : OnFile σ.fs path) :
    ∃ reply τ, perform env σ (.open path flags) = some (reply, τ) ∧ Agrees α σ τ (.call (.open path flags)) reply ∧
      Refines τ (α.follow (resolve σ τ (.call (.open path flags)) reply)) := by
  obtain ⟨kids, tree⟩ := refines.tree
  obtain ⟨got, t, run⟩ := fsOpen_total env tree path flags
  have done : perform env σ (.open path flags) = some (.handle got, { fs := t, mine := got.toList ++ σ.mine }) := by
    simp [perform, run]
  have granted {β : Session} {id : NodeId} {n : FsNode} (mine : β.mine = σ.mine) (base : Refines β α)
      (live : β.fs.nodes id = some n) (regular : n.body.Regular) (opened : Opened env β.fs id n flags got t) :
      ∃ reply τ, perform env σ (.open path flags) = some (reply, τ) ∧ Agrees α σ τ (.call (.open path flags)) reply ∧
        Refines τ (α.follow (resolve σ τ (.call (.open path flags)) reply)) := by
    obtain ⟨rfl, ⟨f, handle, node⟩, refined⟩ := base.grant plenty.files live regular opened
    have stands : resolve σ { fs := t, mine := β.fs.nextFile :: σ.mine } (.call (.open path flags))
        (.handle (some β.fs.nextFile)) = some (.open β.fs.nextFile id flags) := by
      simp [resolve, handle, node]
    refine ⟨_, _, done, ?_, ?_⟩
    · intro file same
      cases Option.some.inj (stands.symm.trans same)
      rfl
    · rw [mine] at refined
      simp only [Option.toList_some, List.singleton_append, stands, Ideal.follow]
      exact refined
  have created' {s₁ : FsState} {id : Option NodeId} (creates : fsCreate env σ.fs path .file 0o644 = some (id, s₁)) :
      ∃ kids, Tree s₁ kids := by
    obtain ⟨id', s₂, kids', creates', tree'⟩ := fsCreate_tree env tree path .file 0o644
    cases Option.some.inj (creates.symm.trans creates')
    exact ⟨kids', tree'⟩
  rcases fsOpen_cases run with ⟨rfl, rfl⟩ | ⟨id, n, search, -, live, -, opened⟩ |
    ⟨s₁, n, -, creates, created, live, body, ⟨rfl, rfl⟩ | ⟨-, opened⟩⟩
  · exact ⟨_, _, done, fun file same => absurd same (by simp [resolve]), refines⟩
  · exact granted rfl refines live (range _ search id rfl n live) opened
  · obtain ⟨kids', tree'⟩ := created' creates
    exact ⟨_, _, done, fun file same => absurd same (by simp [resolve]), refines.born ⟨kids', tree'⟩ created⟩
  · obtain ⟨kids', tree'⟩ := created' creates
    have regular : n.body.Regular := by
      rw [body]
      exact (newBody_empty env).2
    exact granted (β := { σ with fs := s₁ }) rfl (refines.born ⟨kids', tree'⟩ created) live regular opened

theorem truncate_refined (refines : Refines σ α) (plenty : Plenty env) {path : Bytes} {size : Nat}
    (range : InRange σ (.truncate path size)) :
    ∃ reply τ, runOp env σ (.truncate path size) = some (reply, τ) ∧ Agrees α σ τ (.truncate path size) reply ∧
      Refines τ (α.follow (resolve σ τ (.truncate path size) reply)) := by
  obtain ⟨kids, tree⟩ := refines.tree
  rcases fsLookup_onFile tree range.1 with search | ⟨id, n, search, live, regular⟩
  · have stands (τ : Session) (reply : Reply) : resolve σ τ (.truncate path size) reply = none := by
      simp [resolve, search]
    refine ⟨.code (-qeNoent) [], σ, by simp [runOp, fsTruncate, search], ?_, ?_⟩
    · exact fun file same => absurd ((stands _ _).symm.trans same) (by simp)
    · rw [stands]
      exact refines
  · obtain ⟨⟨fits, small⟩, same⟩ := refines.files id n.body (bodies_live live) regular
    have short := range.2
    obtain ⟨t, b, run, regular', eq, inside, bytes, table, shape, root, inode, next, files⟩ :=
      fsTruncate_regular size plenty search live regular fits (by omega)
    have stands (τ : Session) (reply : Reply) :
        resolve σ τ (.truncate path size) reply = some (.truncate id size) := by
      simp [resolve, search]
    refine ⟨.code 0 [], { σ with fs := t }, by simp [runOp, run], ?_, ?_⟩
    · intro file found
      cases Option.some.inj ((stands _ _).symm.trans found)
      rfl
    · rw [stands]
      have replaced := refines.replace ⟨kids, tree.of_shapes shape root inode⟩ inode next files (bodies_live live)
        regular' ⟨inside, by omega⟩ table
      rw [bytes, show Buffers.bytes n.data n.size = α.files id from same.symm] at replaced
      exact replaced

theorem stat_refined (refines : Refines σ α) {path : Bytes} (range : InRange σ (.stat path)) :
    ∃ reply τ, runOp env σ (.stat path) = some (reply, τ) ∧ Agrees α σ τ (.stat path) reply ∧
      Refines τ (α.follow (resolve σ τ (.stat path) reply)) := by
  obtain ⟨kids, tree⟩ := refines.tree
  rcases fsLookup_onFile tree range with search | ⟨id, n, search, live, regular⟩
  · have stands (τ : Session) (reply : Reply) : resolve σ τ (.stat path) reply = none := by
      simp [resolve, search]
    refine ⟨.code (-qeNoent) [], σ, by simp [runOp, fsStat, search], ?_, ?_⟩
    · exact fun file same => absurd ((stands _ _).symm.trans same) (by simp)
    · rw [stands]
      exact refines
  · obtain ⟨sound, same⟩ := refines.files id n.body (bodies_live live) regular
    have memory : n.ops = none := regular.2
    have stands (τ : Session) (reply : Reply) : resolve σ τ (.stat path) reply = some (.stat id) := by
      simp [resolve, search]
    have put : bodies (putNode σ.fs id n) = Function.update (bodies σ.fs) id (some n.body) := bodies_putNode live
    refine ⟨.code n.size [], { σ with fs := putNode σ.fs id n }, ?_, ?_, ?_⟩
    · simp [runOp, fsStat, search, live, refresh, memory]
    · intro file found
      cases Option.some.inj ((stands _ _).symm.trans found)
      simp [Ideal.step, same, Body.contents, FsNode.body]
    · rw [stands]
      have replaced := refines.replace ⟨kids, tree.of_shapes (shapes_putNode live rfl) rfl rfl⟩ rfl rfl rfl
        (bodies_live live) regular sound put
      rwa [← same, Function.update_eq_self] at replaced

theorem runOp_refined (refines : Refines σ α) (plenty : Plenty env) {op : Op} (range : InRange σ op) (gap : GapOk σ op) :
    ∃ reply τ, runOp env σ op = some (reply, τ) ∧ Agrees α σ τ op reply ∧
      Refines τ (α.follow (resolve σ τ op reply)) := by
  have plain {c : Call} {file : FileOp} (stands : ∀ τ reply, resolve σ τ (.call c) reply = some file)
      (run : ∃ τ, perform env σ c = some ((α.step file).1, τ) ∧ Refines τ (α.step file).2) :
      ∃ reply τ, runOp env σ (.call c) = some (reply, τ) ∧ Agrees α σ τ (.call c) reply ∧
        Refines τ (α.follow (resolve σ τ (.call c) reply)) := by
    obtain ⟨τ, done, refined⟩ := run
    refine ⟨_, τ, done, ?_, ?_⟩
    · intro found same
      cases Option.some.inj ((stands _ _).symm.trans same)
      rfl
    · rw [stands]
      exact refined
  cases op with
  | call c =>
    cases c with
    | «open» path flags => exact open_refined refines plenty flags range
    | read h len => exact plain (fun _ _ => rfl) (read_refined refines range)
    | write h buf => exact plain (fun _ _ => rfl) (write_refined refines plenty range gap)
    | seek h offset origin => exact plain (fun _ _ => rfl) (seek_refined refines range)
    | close h => exact plain (fun _ _ => rfl) (close_refined refines)
  | truncate path size => exact truncate_refined refines plenty range
  | stat path => exact stat_refined refines range

end Steps

section Run

/-- The byte sequences a filesystem holds when no file is open. -/
def idealOf (s : FsState) : Ideal where
  files := fun id =>
    match s.nodes id with
    | some n => if n.body.Regular then n.contents else []
    | none => []
  handles := fun _ => none

/-- A filesystem between calls. -/
structure Settled (s : FsState) : Prop where
  tree : ∃ kids, Tree s kids
  sound : ∀ id n, s.nodes id = some n → n.body.Regular → n.body.Sound

def FileStart (p : Session × Ideal) : Prop := p.1.mine = [] ∧ Settled p.1.fs ∧ p.2 = idealOf p.1.fs

/-- A call of a root task on regular files, and the file operation it stands for. -/
def FileMove (p q : Session × Ideal) : Prop :=
  ∃ env op reply, Plenty env ∧ InRange p.1 op ∧ runOp env p.1 op = some (reply, q.1) ∧
    q.2 = p.2.follow (resolve p.1 q.1 op reply)

def FileStep (p q : Session × Ideal) : Prop :=
  ∃ env op reply, Plenty env ∧ InRange p.1 op ∧ GapOk p.1 op ∧ runOp env p.1 op = some (reply, q.1) ∧
    q.2 = p.2.follow (resolve p.1 q.1 op reply)

theorem refines_start {p : Session × Ideal} (start : FileStart p) : Refines p.1 p.2 := by
  obtain ⟨none', settled, eq⟩ := start
  obtain ⟨kids, tree⟩ := settled.tree
  rw [eq]
  constructor
  · exact ⟨kids, tree⟩
  · intro id b body regular
    obtain ⟨n, live, rfl⟩ := live_of_body body
    refine ⟨settled.sound id n live regular, ?_⟩
    simp [idealOf, live, regular, contents_node]
  · intro id late
    have unborn : p.1.fs.nodes id = none := by
      cases live : p.1.fs.nodes id with
      | none => rfl
      | some n => exact absurd (tree.fresh id n.shape (shapes_live live)) (Nat.not_lt.mpr late)
    simp [idealOf, unborn]
  · rw [none']
    simp
  · exact fun _ _ => rfl

theorem refines_reached {p : Session × Ideal} (reached : Reachable FileStart FileStep p) : Refines p.1 p.2 := by
  refine reached.induct (fun p => Refines p.1 p.2) (fun p start => refines_start start) ?_
  rintro p q refines ⟨env, op, reply, plenty, range, gap, run, follow⟩
  obtain ⟨reply', τ, run', -, refined⟩ := runOp_refined refines plenty range gap
  obtain ⟨rfl, same⟩ := Prod.mk.inj (Option.some.inj (run.symm.trans run'))
  rw [follow, same]
  exact refined

def rootEnv : Env := { bootEnv with task := some { uid := 0, gid := 0 } }

theorem rootEnv_plenty : Plenty rootEnv := ⟨⟨_, rfl, rfl⟩, rfl, rfl, rfl⟩

/-- A list of calls of the root task, as far as they are in range. -/
def replay : Session × Ideal → List Op → Option (Session × Ideal)
  | p, [] => some p
  | p, op :: rest =>
    if InRange p.1 op then do
      let (reply, τ) ← runOp rootEnv p.1 op
      replay (τ, p.2.follow (resolve p.1 τ op reply)) rest
    else none

theorem replay_reached {p q : Session × Ideal} {ops : List Op} (run : replay p ops = some q)
    (reached : Reachable FileStart FileMove p) : Reachable FileStart FileMove q := by
  induction ops generalizing p with
  | nil =>
    cases Option.some.inj run
    exact reached
  | cons op rest ih =>
    rw [replay] at run
    split at run
    · rename_i range
      obtain ⟨⟨reply, τ⟩, moves, rest'⟩ := Option.bind_eq_some_iff.mp run
      exact ih rest' (.next reached ⟨rootEnv, op, reply, rootEnv_plenty, range, moves, rfl⟩)
    · contradiction

theorem boot_settled {s : FsState} (started : fsInit bootEnv (fun _ => bootEnv) = some s) : Settled s := by
  obtain ⟨s', kids, started', tree⟩ := fsInit_tree bootEnv (fun _ => bootEnv) rfl
  obtain rfl : s = s' := Option.some.inj (started.symm.trans started')
  have dirs : ((fsInit bootEnv fun _ => bootEnv).map fun s => (s.nextInode, (List.range 15).all fun id =>
      (s.nodes id).all fun n => !decide n.body.Regular)) = some (15, true) := by
    decide +kernel
  rw [started, Option.map_some] at dirs
  obtain ⟨next, none'⟩ := Prod.mk.inj (Option.some.inj dirs)
  refine ⟨⟨kids, tree⟩, fun id n live regular => ?_⟩
  have below : id < 15 := next ▸ tree.fresh id n.shape (shapes_live live)
  have plain := List.all_eq_true.mp none' id (List.mem_range.mpr below)
  simp [live, regular] at plain

example : ((fsInit bootEnv fun _ => bootEnv).map fun s => s.nextInode) = some 15 := by decide +kernel

/-- Write abc, cut the file to nothing, and write z at offset 2. -/
def staleGap : List Op :=
  [.call (.open (ascii "/tmp/f") (oCreate ||| oRdwr)), .call (.write 0 (ascii "abc")), .truncate (ascii "/tmp/f") 0,
    .call (.seek 0 2 .set), .call (.write 0 (ascii "z")), .call (.seek 0 0 .set)]

example : ((fsInit bootEnv fun _ => bootEnv).bind fun s =>
    replay ({ fs := s, mine := [] }, idealOf s) staleGap).isSome = true := by decide +kernel

end Run

end Qito.Vfs
