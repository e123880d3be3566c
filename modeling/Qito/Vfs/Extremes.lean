import Qito.Vfs.Refinement

/-! Offsets and sizes from the whole 64-bit range. The doubling of a capacity is
modulo 2^64 and so is the sum of an offset and a length; a call returns and stays
inside the buffer exactly when neither of the two wraps past what it is for. -/
namespace Qito.Vfs
open Runs Words

/-- The capacity that ensure_capacity starts to double. -/
def firstCapacity (capacity : Nat) : Nat := if capacity = 0 then 256 else capacity

/-- Some doubling of a capacity in 64-bit arithmetic reaches the needed size. -/
def Reaches (capacity needed : Nat) : Prop := ∃ i ≤ 64, needed ≤ wrap64 (firstCapacity capacity * 2 ^ i)

section Doubling
variable {env : Env} {n m : FsNode} {capacity needed : Nat} {code : Int}

theorem doubleCapacity_reaches {fuel : Nat} (word : capacity < 2 ^ 64) :
    (∃ c, doubleCapacity (fuel + 1) capacity needed = some c) ↔ ∃ i ≤ fuel, needed ≤ wrap64 (capacity * 2 ^ i) := by
  have now : wrap64 (capacity * 2 ^ 0) = capacity := by
    rw [Nat.pow_zero, Nat.mul_one]
    exact Nat.mod_eq_of_lt word
  induction fuel generalizing capacity with
  | zero =>
    unfold doubleCapacity
    constructor
    · rintro ⟨c, run⟩
      refine ⟨0, Nat.le_refl 0, ?_⟩
      rw [now]
      by_contra small
      rw [if_pos (Nat.lt_of_not_le small)] at run
      cases run
    · rintro ⟨i, none, enough⟩
      obtain rfl : i = 0 := Nat.le_zero.mp none
      rw [now] at enough
      exact ⟨capacity, if_neg (Nat.not_lt.mpr enough)⟩
  | succ fuel ih =>
    have shift (i : Nat) : wrap64 (wrap64 (capacity * 2) * 2 ^ i) = wrap64 (capacity * 2 ^ (i + 1)) := by
      have twice : 2 ^ (i + 1) = 2 * 2 ^ i := Nat.pow_succ'
      rw [twice, ← Nat.mul_assoc]
      exact Nat.mod_mul_mod ..
    by_cases small : capacity < needed
    · have next : wrap64 (capacity * 2) < 2 ^ 64 := Nat.mod_lt _ (by decide)
      have start : wrap64 (wrap64 (capacity * 2) * 2 ^ 0) = wrap64 (capacity * 2) := by
        rw [Nat.pow_zero, Nat.mul_one]
        exact Nat.mod_eq_of_lt next
      have rest := ih next start
      rw [doubleCapacity, if_pos small]
      constructor
      · intro run
        obtain ⟨i, few, enough⟩ := rest.mp run
        rw [shift] at enough
        exact ⟨i + 1, Nat.succ_le_succ few, enough⟩
      · rintro ⟨i, few, enough⟩
        apply rest.mpr
        cases i with
        | zero =>
          rw [now] at enough
          exact absurd small (Nat.not_lt.mpr enough)
        | succ i =>
          refine ⟨i, Nat.le_of_succ_le_succ few, ?_⟩
          rw [shift]
          exact enough
    · refine ⟨fun _ => ⟨0, Nat.zero_le _, ?_⟩, fun _ => ⟨capacity, by rw [doubleCapacity, if_neg small]⟩⟩
      rw [now]
      exact Nat.le_of_not_lt small

theorem doubleCapacity_enough {fuel c : Nat} (word : capacity < 2 ^ 64)
    (run : doubleCapacity fuel capacity needed = some c) : needed ≤ c ∧ c < 2 ^ 64 := by
  induction fuel generalizing capacity with
  | zero => cases run
  | succ fuel ih =>
    unfold doubleCapacity at run
    split at run
    · exact ih (Nat.mod_lt _ (by decide)) run
    · rename_i fits
      cases Option.some.inj run
      exact ⟨Nat.le_of_not_lt fits, word⟩

theorem firstCapacity_word (word : capacity < 2 ^ 64) : firstCapacity capacity < 2 ^ 64 := by
  unfold firstCapacity
  split
  · decide
  · exact word

theorem reaches_half (half : needed ≤ 2 ^ 63) (word : capacity < 2 ^ 64) : Reaches capacity needed := by
  have positive : 0 < firstCapacity capacity := by
    unfold firstCapacity
    split
    · decide
    · rename_i some_
      exact Nat.pos_of_ne_zero some_
  have first := firstCapacity_word word
  -- the largest doubling that does not wrap
  have climb : ∀ k c, 0 < c → c < 2 ^ 64 → 2 ^ 63 ≤ c * 2 ^ k → ∃ i ≤ k, 2 ^ 63 ≤ wrap64 (c * 2 ^ i) := by
    intro k
    induction k with
    | zero =>
      intro c _ word large
      refine ⟨0, Nat.le_refl 0, ?_⟩
      rw [Nat.pow_zero, Nat.mul_one] at large ⊢
      rw [wrap64, Nat.mod_eq_of_lt word]
      exact large
    | succ k ih =>
      intro c positive word large
      by_cases done : 2 ^ 63 ≤ c
      · refine ⟨0, Nat.zero_le _, ?_⟩
        rw [Nat.pow_zero, Nat.mul_one, wrap64, Nat.mod_eq_of_lt word]
        exact done
      · have twice (i : Nat) : c * 2 ^ (i + 1) = c * 2 * 2 ^ i := by
          rw [Nat.mul_assoc, Nat.pow_succ']
        rw [twice] at large
        obtain ⟨i, few, high⟩ := ih (c * 2) (by omega) (by omega) large
        refine ⟨i + 1, Nat.succ_le_succ few, ?_⟩
        rw [twice]
        exact high
  obtain ⟨i, few, high⟩ := climb 64 (firstCapacity capacity) positive first (by omega)
  exact ⟨i, few, Nat.le_trans half high⟩

theorem ensureCapacity_returns (word : n.capacity < 2 ^ 64) :
    (∃ r, ensureCapacity env n needed = some r) ↔ needed ≤ n.capacity ∨ Reaches n.capacity needed := by
  have first := firstCapacity_word word
  by_cases fits : needed ≤ n.capacity
  · exact ⟨fun _ => Or.inl fits, fun _ => ⟨(0, n), by simp [ensureCapacity, fits]⟩⟩
  · have loop := @doubleCapacity_reaches _ needed 64 first
    constructor
    · rintro ⟨r, run⟩
      rw [ensureCapacity, if_neg fits] at run
      obtain ⟨c, doubled, -⟩ := Option.bind_eq_some_iff.mp run
      exact Or.inr (loop.mp ⟨c, doubled⟩)
    · rintro (inside | reaches)
      · exact absurd inside fits
      · obtain ⟨c, doubled⟩ := loop.mpr reaches
        unfold firstCapacity at doubled
        cases memory : env.dataAlloc with
        | true => exact ⟨_, by simp [ensureCapacity, fits, doubled, memory]; rfl⟩
        | false => exact ⟨_, by simp [ensureCapacity, fits, doubled, memory]; rfl⟩

/-- A file whose buffer was made large enough for the needed size: the buffer is
the old one, or a new one that the doubling found and there was memory for. -/
structure Resized (env : Env) (n : FsNode) (needed : Nat) (b : Body) : Prop where
  type : b.type = n.type
  ops : b.ops = n.ops
  backing : b.backing = n.backing
  fits : b.size ≤ b.capacity
  word : b.capacity < 2 ^ 64
  capacity : b.capacity = n.capacity ∨ (n.capacity < needed ∧ env.dataAlloc = true ∧
    doubleCapacity 65 (firstCapacity n.capacity) needed = some b.capacity)

/-- What ensure_capacity leaves: a buffer with the needed room, in which the bytes
of the file still lie, or no memory for it. -/
theorem ensureCapacity_cases (fits : n.size ≤ n.capacity) (word : n.capacity < 2 ^ 64)
    (run : ensureCapacity env n needed = some (code, m)) :
    (code = 0 ∧ needed ≤ m.capacity ∧ m.shape = n.shape ∧ m.size = n.size ∧ Resized env n needed m.body) ∨
    (code = -qeNomem ∧ m = n ∧ n.capacity < needed ∧ env.dataAlloc = false) := by
  have first := firstCapacity_word word
  unfold ensureCapacity at run
  split at run
  · rename_i large
    cases Option.some.inj run
    exact Or.inl ⟨rfl, large, rfl, rfl, rfl, rfl, rfl, fits, word, Or.inl rfl⟩
  · rename_i large
    have small := Nat.lt_of_not_le large
    obtain ⟨c, doubled, rest⟩ := Option.bind_eq_some_iff.mp run
    obtain ⟨enough, word'⟩ := doubleCapacity_enough first doubled
    split at rest
    · rename_i memory
      cases Option.some.inj rest
      exact Or.inr ⟨rfl, rfl, small, by simpa using memory⟩
    · rename_i memory
      cases Option.some.inj rest
      refine Or.inl ⟨rfl, enough, rfl, rfl, rfl, rfl, rfl, ?_, word', Or.inr ⟨small, by simpa using memory, doubled⟩⟩
      exact Nat.le_trans fits (Nat.le_trans (Nat.le_of_lt small) enough)

theorem Resized.same {needed : Nat} (size : Nat) (fits : size ≤ n.capacity) (word : n.capacity < 2 ^ 64) :
    Resized env n needed { n.body with size := size } :=
  ⟨rfl, rfl, rfl, fits, word, Or.inl rfl⟩

end Doubling

section Calls
variable {env : Env} {s t : FsState} {h : FileId} {f : File} {n : FsNode}

/-- The end of a write and the room the node has for it. -/
def WriteFits (env : Env) (n : FsNode) (stop : Nat) : Prop :=
  (stop < 2 ^ 64 ∧ (stop ≤ n.capacity ∨ Reaches n.capacity stop)) ∨
    (2 ^ 64 ≤ stop ∧ n.capacity < wrap64 stop ∧ Reaches n.capacity (wrap64 stop) ∧ env.dataAlloc = false)

theorem fsWrite_returns {buf : Bytes} (handle : s.files h = some f) (live : s.nodes f.node = some n)
    (notDir : n.type ≠ .dir) (memory : opsWrites n.ops = false) (fits : n.size ≤ n.capacity) (word : n.capacity < 2 ^ 64) :
    (∃ r, fsWrite env s h buf = some r) ↔
      (has f.flags (oWronly ||| oRdwr) = true → WriteFits env n (writeOffset f n + buf.length)) := by
  cases writable : has f.flags (oWronly ||| oRdwr) with
  | false =>
    refine ⟨fun _ armed => absurd armed (by decide), fun _ => ⟨(-qeBadf, s), ?_⟩⟩
    simp [fsWrite, handle, writable]
  | true =>
    obtain ⟨stop, eq⟩ : ∃ stop, writeOffset f n + buf.length = stop := ⟨_, rfl⟩
    have start : (if has f.flags oAppend = true then n.size else f.offset) = writeOffset f n := rfl
    have returns := @ensureCapacity_returns env _ (wrap64 stop) word
    simp only [fsWrite, handle, writable, live, memory, notDir, start, eq, Option.bind_eq_bind, Option.bind_some,
      Bool.not_true, Bool.false_eq_true, if_false, forall_const, gt_iff_lt]
    cases grow : ensureCapacity env n (wrap64 stop) with
    | none =>
      rw [grow] at returns
      have short : ¬ (wrap64 stop ≤ n.capacity ∨ Reaches n.capacity (wrap64 stop)) := by
        intro room
        obtain ⟨r, run⟩ := returns.mpr room
        cases run
      constructor
      · rintro ⟨r, run⟩
        cases run
      · rintro (⟨near, room⟩ | ⟨-, -, reaches, -⟩)
        · rw [wrap64, Nat.mod_eq_of_lt near] at short
          exact absurd room short
        · exact absurd (Or.inr reaches) short
    | some r =>
      obtain ⟨code, m⟩ := r
      have room : wrap64 stop ≤ n.capacity ∨ Reaches n.capacity (wrap64 stop) := returns.mp ⟨_, grow⟩
      rcases ensureCapacity_cases fits word grow with ⟨rfl, enough, -, -, resized⟩ | ⟨rfl, rfl, small, broke⟩
      · by_cases near : stop < 2 ^ 64
        · have whole : wrap64 stop = stop := Nat.mod_eq_of_lt near
          rw [whole] at enough room
          refine ⟨fun _ => Or.inl ⟨near, room⟩, fun _ => ?_⟩
          simp only [Option.bind_some, ne_eq, not_true_eq_false, if_false, if_neg (Nat.not_lt.mpr enough)]
          exact ⟨_, rfl⟩
        · have past : m.capacity < stop := Nat.lt_of_lt_of_le resized.word (Nat.le_of_not_lt near)
          constructor
          · rintro ⟨r, run⟩
            simp [past] at run
          · rintro (⟨inside, -⟩ | ⟨-, small, -, broke⟩)
            · exact absurd inside near
            · rcases resized.capacity with same | ⟨-, memory, -⟩
              · have kept : m.capacity = n.capacity := same
                rw [kept] at enough
                exact absurd enough (Nat.not_le.mpr small)
              · rw [memory] at broke
                cases broke
      · refine ⟨fun _ => ?_, fun _ => ?_⟩
        swap
        · rw [Option.bind_some, if_pos (by decide : -qeNomem ≠ 0)]
          exact ⟨_, rfl⟩
        by_cases near : stop < 2 ^ 64
        · rw [wrap64, Nat.mod_eq_of_lt near] at room
          exact Or.inl ⟨near, room⟩
        · rcases room with inside | reaches
          · exact absurd inside (Nat.not_le.mpr small)
          · exact Or.inr ⟨Nat.le_of_not_lt near, small, reaches, broke⟩

/-- What fs_write leaves of a file in memory: at most its own body changed, and
the bytes of the file lie in its buffer. -/
theorem fsWrite_room {buf : Bytes} {code : Int} (handle : s.files h = some f) (live : s.nodes f.node = some n)
    (memory : opsWrites n.ops = false) (fits : n.size ≤ n.capacity) (word : n.capacity < 2 ^ 64)
    (run : fsWrite env s h buf = some (code, t)) :
    shapes t = shapes s ∧ t.root = s.root ∧ t.nextInode = s.nextInode ∧
      (∃ offset, (f.offset < 2 ^ 64 → offset < 2 ^ 64) ∧
        t.files = Function.update s.files h (some { f with offset := offset })) ∧
      ∃ needed b, (needed = 0 ∨ has f.flags (oWronly ||| oRdwr) = true ∧ needed = wrap64 (writeOffset f n + buf.length)) ∧
        Resized env n needed b ∧ bodies t = Function.update (bodies s) f.node (some b) := by
  have same : s.files = Function.update s.files h (some { f with offset := f.offset }) := by
    rw [← handle]
    exact (Function.update_eq_self h s.files).symm
  have still : bodies s = Function.update (bodies s) f.node (some n.body) := by
    rw [← bodies_live live]
    exact (Function.update_eq_self f.node (bodies s)).symm
  have kept : Resized env n 0 n.body := .same n.size fits word
  obtain ⟨f', handle', rest⟩ := Option.bind_eq_some_iff.mp run
  cases Option.some.inj (handle.symm.trans handle')
  split at rest
  · cases Option.some.inj rest
    exact ⟨rfl, rfl, rfl, ⟨f.offset, id, same⟩, 0, n.body, Or.inl rfl, kept, still⟩
  rename_i armed
  have writable : has f.flags (oWronly ||| oRdwr) = true := by simpa using armed
  obtain ⟨n', live', rest⟩ := Option.bind_eq_some_iff.mp rest
  cases Option.some.inj (live.symm.trans live')
  rw [memory] at rest
  simp only [Bool.false_eq_true, if_false] at rest
  split at rest
  · cases Option.some.inj rest
    exact ⟨rfl, rfl, rfl, ⟨f.offset, id, same⟩, 0, n.body, Or.inl rfl, kept, still⟩
  have start : (if has f.flags oAppend = true then n.size else f.offset) = writeOffset f n := rfl
  have near : f.offset < 2 ^ 64 → writeOffset f n < 2 ^ 64 := by
    intro near
    unfold writeOffset
    split
    · exact Nat.lt_of_le_of_lt fits word
    · exact near
  rw [start] at rest
  obtain ⟨⟨error, m⟩, grow, rest⟩ := Option.bind_eq_some_iff.mp rest
  rcases ensureCapacity_cases fits word grow with ⟨rfl, -, shape, size, resized⟩ | ⟨rfl, rfl, -⟩
  · simp only [ne_eq, not_true_eq_false, if_false] at rest
    split at rest
    · cases rest
    rename_i inside
    cases Option.some.inj rest
    have enough : writeOffset f n + buf.length ≤ m.capacity := Nat.le_of_not_lt inside
    refine ⟨shapes_putNode live shape, rfl, rfl, ⟨writeOffset f n + buf.length,
      fun _ => Nat.lt_of_le_of_lt enough resized.word, ?_⟩, _, _, Or.inr ⟨writable, rfl⟩, ?_, bodies_putNode live⟩
    · simp [putNode, setNode, setFile, handle]
    · exact { resized with fits := max_le resized.fits enough }
  · simp only [ne_eq, qeNomem, Int.reduceNeg, Int.reduceEq, not_false_eq_true, if_true] at rest
    cases Option.some.inj rest
    exact ⟨rfl, rfl, rfl, ⟨_, near, files_setFile handle⟩, 0, m.body, Or.inl rfl, kept, still⟩

theorem fsTruncate_returns {path : Bytes} {id : NodeId} {size : Nat} (search : fsLookup s path = some (some id))
    (live : s.nodes id = some n) (file : n.type = .file) (fits : n.size ≤ n.capacity) (word : n.capacity < 2 ^ 64) :
    (∃ r, fsTruncate env s path size = some r) ↔ size ≤ n.capacity ∨ Reaches n.capacity size := by
  have returns := @ensureCapacity_returns env _ size word
  simp only [fsTruncate, search, live, file, Option.bind_eq_bind, Option.bind_some, ne_eq, not_true_eq_false, if_false,
    gt_iff_lt]
  by_cases grows : n.size < size
  · rw [if_pos grows]
    cases grow : ensureCapacity env n size with
    | none =>
      rw [grow] at returns
      constructor
      · rintro ⟨r, run⟩
        cases run
      · intro room
        obtain ⟨r, run⟩ := returns.mpr room
        cases run
    | some r =>
      obtain ⟨code, m⟩ := r
      refine ⟨fun _ => returns.mp ⟨_, grow⟩, fun _ => ?_⟩
      rcases ensureCapacity_cases fits word grow with ⟨rfl, enough, -⟩ | ⟨rfl, -⟩
      · simp only [Option.bind_some, not_true_eq_false, if_false, if_neg (Nat.not_lt.mpr enough)]
        exact ⟨_, rfl⟩
      · rw [Option.bind_some, if_pos (by decide : ¬ -qeNomem = 0)]
        exact ⟨_, rfl⟩
  · rw [if_neg grows]
    exact ⟨fun _ => Or.inl (Nat.le_trans (Nat.le_of_not_lt grows) fits), fun _ => ⟨_, rfl⟩⟩

theorem fsTruncate_room {path : Bytes} {id : NodeId} {size : Nat} {code : Int}
    (search : fsLookup s path = some (some id)) (live : s.nodes id = some n) (fits : n.size ≤ n.capacity)
    (word : n.capacity < 2 ^ 64) (run : fsTruncate env s path size = some (code, t)) :
    shapes t = shapes s ∧ t.root = s.root ∧ t.nextInode = s.nextInode ∧ t.files = s.files ∧
      ∃ b, Resized env n size b ∧ bodies t = Function.update (bodies s) id (some b) := by
  have still : bodies s = Function.update (bodies s) id (some n.body) := by
    rw [← bodies_live live]
    exact (Function.update_eq_self id (bodies s)).symm
  have kept : Resized env n size n.body := .same n.size fits word
  simp only [fsTruncate, search, live, Option.bind_eq_bind, Option.bind_some, gt_iff_lt] at run
  split at run
  · cases Option.some.inj run
    exact ⟨rfl, rfl, rfl, rfl, n.body, kept, still⟩
  split at run
  · obtain ⟨⟨error, m⟩, grow, rest⟩ := Option.bind_eq_some_iff.mp run
    rcases ensureCapacity_cases fits word grow with ⟨rfl, enough, shape, -, resized⟩ | ⟨rfl, rfl, -⟩
    · simp only [ne_eq, not_true_eq_false, if_false, if_neg (Nat.not_lt.mpr enough)] at rest
      cases Option.some.inj rest
      refine ⟨shapes_putNode live shape, rfl, rfl, rfl, _, ?_, bodies_putNode live⟩
      exact { resized with fits := enough }
    · simp only [ne_eq, qeNomem, Int.reduceNeg, Int.reduceEq, not_false_eq_true, if_true] at rest
      cases Option.some.inj rest
      exact ⟨rfl, rfl, rfl, rfl, m.body, kept, still⟩
  · rename_i shrinks
    cases Option.some.inj run
    have below : size ≤ n.capacity := Nat.le_trans (Nat.le_of_not_lt shrinks) fits
    exact ⟨shapes_putNode live rfl, rfl, rfl, rfl, _, .same size below word, bodies_putNode live⟩

theorem int64_word (a : Int) : int64 a < 2 ^ 63 := by
  unfold int64
  omega

theorem fsSeek_word (handle : s.files h = some f) (live : s.nodes f.node = some n) (near : f.offset < 2 ^ 64)
    (offset : Int) (origin : Origin) :
    ∃ code t, fsSeek s h offset origin = some (code, t) ∧ t.nodes = s.nodes ∧ t.root = s.root ∧
      t.nextInode = s.nextInode ∧ ∃ o < 2 ^ 64, t.files = Function.update s.files h (some { f with offset := o }) := by
  have same : s.files = Function.update s.files h (some { f with offset := f.offset }) := by
    rw [← handle]
    exact (Function.update_eq_self h s.files).symm
  have moved (base : Nat) : ∃ code t, some (if int64 (int64 base + offset) < 0 then (-qeInval, s)
      else (int64 (int64 base + offset), setFile s h fun f => { f with offset := (int64 (int64 base + offset)).toNat })) =
        some (code, t) ∧ t.nodes = s.nodes ∧ t.root = s.root ∧ t.nextInode = s.nextInode ∧
      ∃ o < 2 ^ 64, t.files = Function.update s.files h (some { f with offset := o }) := by
    have top := int64_word (int64 base + offset)
    split
    · exact ⟨_, _, rfl, rfl, rfl, rfl, f.offset, near, same⟩
    · exact ⟨_, _, rfl, rfl, rfl, rfl, _, by omega, files_setFile handle⟩
  simp only [fsSeek, handle, live, Option.bind_eq_bind, Option.bind_some]
  cases origin with
  | set => exact moved 0
  | cur => exact moved f.offset
  | fromEnd => exact moved n.size
  | other => exact ⟨_, _, rfl, rfl, rfl, rfl, f.offset, near, same⟩

end Calls

section Runs
variable {env : Env} {σ τ : Session} {reply : Reply} {s : FsState}

/-- A seek, a write or a truncation of a file in memory by any 64-bit number. -/
def Extreme (σ : Session) : Op → Prop
  | .call (.seek _ offset _) => -2 ^ 63 ≤ offset ∧ offset < 2 ^ 63
  | .call (.write _ buf) => buf.length < 2 ^ 64
  | .truncate path size => OnFile σ.fs path ∧ size < 2 ^ 64
  | _ => False

/-- The numbers of a call fit the file it works on. -/
def OpFits (env : Env) (σ : Session) : Op → Prop
  | .call (.write h buf) => h ∈ σ.mine → ∀ f ∈ σ.fs.files h, ∀ n ∈ σ.fs.nodes f.node,
      has f.flags (oWronly ||| oRdwr) = true → WriteFits env n (writeOffset f n + buf.length)
  | .truncate path size => ∀ id, fsLookup σ.fs path = some (some id) → ∀ n ∈ σ.fs.nodes id,
      size ≤ n.capacity ∨ Reaches n.capacity size
  | _ => True

/-- Every file in memory lies in its buffer, and the handles are on such files. -/
structure Roomy (σ : Session) : Prop where
  tree : ∃ kids, Tree σ.fs kids
  room : ∀ id b, bodies σ.fs id = some b → b.Regular → b.size ≤ b.capacity ∧ b.capacity < 2 ^ 64
  held : ∀ h ∈ σ.mine, ∃ f b, σ.fs.files h = some f ∧ f.offset < 2 ^ 64 ∧ bodies σ.fs f.node = some b ∧ b.Regular

theorem shapes_nodes {s t : FsState} (same : t.nodes = s.nodes) : shapes t = shapes s := by
  funext c
  simp only [shapes, same]

theorem Roomy.node (roomy : Roomy σ) {h : FileId} (held : h ∈ σ.mine) :
    ∃ f n, σ.fs.files h = some f ∧ f.offset < 2 ^ 64 ∧ σ.fs.nodes f.node = some n ∧ n.body.Regular ∧
      n.size ≤ n.capacity ∧ n.capacity < 2 ^ 64 := by
  obtain ⟨f, b, handle, near, body, regular⟩ := roomy.held h held
  obtain ⟨n, live, rfl⟩ := live_of_body body
  obtain ⟨fits, word⟩ := roomy.room f.node n.body body regular
  exact ⟨f, n, handle, near, live, regular, fits, word⟩

theorem Roomy.move (roomy : Roomy σ) {h : FileId} {f : File} {offset : Nat} (handle : σ.fs.files h = some f)
    (near : offset < 2 ^ 64) (files : s.files = Function.update σ.fs.files h (some { f with offset := offset }))
    (shape : shapes s = shapes σ.fs) (root : s.root = σ.fs.root) (inode : s.nextInode = σ.fs.nextInode)
    (table : bodies s = bodies σ.fs) : Roomy { σ with fs := s } where
  tree := by
    obtain ⟨kids, tree⟩ := roomy.tree
    exact ⟨kids, tree.of_shapes shape root inode⟩
  room := by
    rw [table]
    exact roomy.room
  held := by
    intro k member
    obtain ⟨g, b, handle', near', body, regular⟩ := roomy.held k member
    rw [files, table]
    by_cases same : k = h
    · subst k
      cases Option.some.inj (handle.symm.trans handle')
      exact ⟨_, b, Function.update_self .., near, body, regular⟩
    · exact ⟨g, b, (Function.update_of_ne same _ _).trans handle', near', body, regular⟩

theorem Roomy.change (roomy : Roomy σ) {id : NodeId} {n : FsNode} {needed : Nat} {b : Body}
    (live : σ.fs.nodes id = some n) (resized : Resized env n needed b)
    (table : bodies s = Function.update (bodies σ.fs) id (some b)) (shape : shapes s = shapes σ.fs)
    (root : s.root = σ.fs.root) (inode : s.nextInode = σ.fs.nextInode) (files : s.files = σ.fs.files) :
    Roomy { σ with fs := s } where
  tree := by
    obtain ⟨kids, tree⟩ := roomy.tree
    exact ⟨kids, tree.of_shapes shape root inode⟩
  room := by
    intro c b' body regular
    change bodies s c = some b' at body
    rw [table] at body
    by_cases same : c = id
    · subst c
      rw [Function.update_self] at body
      cases Option.some.inj body
      exact ⟨resized.fits, resized.word⟩
    · rw [Function.update_of_ne same] at body
      exact roomy.room c b' body regular
  held := by
    intro k member
    obtain ⟨g, b', handle, near, body, regular⟩ := roomy.held k member
    change ∃ f c, s.files k = some f ∧ f.offset < 2 ^ 64 ∧ bodies s f.node = some c ∧ c.Regular
    rw [files, table]
    by_cases same : g.node = id
    · rw [same, bodies_live live] at body
      cases Option.some.inj body
      refine ⟨g, b, handle, near, ?_, resized.type.trans regular.1, resized.ops.trans regular.2⟩
      rw [same]
      exact Function.update_self ..
    · exact ⟨g, b', handle, near, (Function.update_of_ne same _ _).trans body, regular⟩

theorem Roomy.returns (roomy : Roomy σ) {op : Op} (extreme : Extreme σ op) :
    (∃ r, runOp env σ op = some r) ↔ OpFits env σ op := by
  cases op with
  | call c =>
    cases c with
    | «open» path flags => exact extreme.elim
    | read h len => exact extreme.elim
    | write h buf =>
      by_cases held : h ∈ σ.mine
      · obtain ⟨f, n, handle, -, live, regular, fits, word⟩ := roomy.node held
        obtain ⟨file, plain⟩ : n.type = .file ∧ n.ops = none := regular
        have notDir : n.type ≠ .dir := by
          rw [file]
          decide
        have memory : opsWrites n.ops = false := by
          rw [plain]
          rfl
        have exact' := @fsWrite_returns env _ _ _ _ buf handle live notDir memory fits word
        have run : (∃ r, runOp env σ (.call (.write h buf)) = some r) ↔ ∃ r, fsWrite env σ.fs h buf = some r := by
          simp only [runOp, perform, if_pos held]
          cases fsWrite env σ.fs h buf with
          | none => simp
          | some r => simp
        rw [run, exact']
        constructor
        · intro fits _ f' handle' n' live' armed
          cases Option.some.inj (handle.symm.trans handle')
          cases Option.some.inj (live.symm.trans live')
          exact fits armed
        · intro fits armed
          exact fits held f handle n live armed
      · have refused : runOp env σ (.call (.write h buf)) = some (.code (-qeBadf) [], σ) := by
          simp [runOp, perform, held]
        exact ⟨fun _ member => absurd member held, fun _ => ⟨_, refused⟩⟩
    | seek h offset origin =>
      refine ⟨fun _ => trivial, fun _ => ?_⟩
      by_cases held : h ∈ σ.mine
      · obtain ⟨f, n, handle, near, live, -⟩ := roomy.node held
        obtain ⟨code, t, run, -⟩ := fsSeek_word handle live near offset origin
        exact ⟨_, by simp only [runOp, perform, if_pos held, run]; rfl⟩
      · exact ⟨_, by simp only [runOp, perform, if_neg held]; rfl⟩
    | close h => exact extreme.elim
  | truncate path size =>
    obtain ⟨kids, tree⟩ := roomy.tree
    have run : (∃ r, runOp env σ (.truncate path size) = some r) ↔ ∃ r, fsTruncate env σ.fs path size = some r := by
      simp only [runOp]
      cases fsTruncate env σ.fs path size with
      | none => simp
      | some r => simp
    rw [run]
    rcases fsLookup_onFile tree extreme.1 with absent | ⟨id, n, search, live, regular⟩
    · refine ⟨fun _ id found => absurd (absent.symm.trans found) (by simp), fun _ => ⟨(-qeNoent, σ.fs), ?_⟩⟩
      simp [fsTruncate, absent]
    · obtain ⟨fits, word⟩ := roomy.room id n.body (bodies_live live) regular
      rw [fsTruncate_returns search live regular.1 fits word]
      constructor
      · intro room id' search' n' live'
        cases Option.some.inj (Option.some.inj (search.symm.trans search'))
        cases Option.some.inj (live.symm.trans live')
        exact room
      · intro room
        exact room id search n live
  | stat path => exact extreme.elim

theorem Roomy.step (roomy : Roomy σ) {op : Op} (extreme : Extreme σ op) (run : runOp env σ op = some (reply, τ)) :
    Roomy τ := by
  cases op with
  | call c =>
    cases c with
    | «open» path flags => exact extreme.elim
    | read h len => exact extreme.elim
    | write h buf =>
      have calls : perform env σ (.write h buf) = some (reply, τ) := run
      cases perform_cases calls with
      | written held writes =>
        obtain ⟨f, n, handle, near, live, regular, fits, word⟩ := roomy.node held
        have plain : n.ops = none := regular.2
        have memory : opsWrites n.ops = false := by
          rw [plain]
          rfl
        obtain ⟨shape, root, inode, ⟨offset, small, files⟩, needed, b, -, resized, table⟩ :=
          fsWrite_room handle live memory fits word writes
        let moved : FsState := { σ.fs with files := Function.update σ.fs.files h (some { f with offset := offset }) }
        have first : Roomy { σ with fs := moved } := roomy.move handle (small near) rfl rfl rfl rfl rfl
        exact first.change live resized table shape root inode files
      | refused => exact roomy
    | seek h offset origin =>
      have calls : perform env σ (.seek h offset origin) = some (reply, τ) := run
      cases perform_cases calls with
      | sought held seeks =>
        obtain ⟨f, n, handle, near, live, -⟩ := roomy.node held
        obtain ⟨code, t, run', nodes, root, inode, o, small, files⟩ := fsSeek_word handle live near offset origin
        obtain ⟨-, rfl⟩ := Prod.mk.inj (Option.some.inj (seeks.symm.trans run'))
        exact roomy.move handle small files (shapes_nodes nodes) root inode (bodies_nodes nodes)
      | refused => exact roomy
    | close h => exact extreme.elim
  | truncate path size =>
    obtain ⟨⟨code, t⟩, truncates, rest⟩ := Option.bind_eq_some_iff.mp run
    cases Option.some.inj rest
    obtain ⟨kids, tree⟩ := roomy.tree
    rcases fsLookup_onFile tree extreme.1 with absent | ⟨id, n, search, live, regular⟩
    · have none_ : fsTruncate env σ.fs path size = some (-qeNoent, σ.fs) := by simp [fsTruncate, absent]
      obtain ⟨-, rfl⟩ := Prod.mk.inj (Option.some.inj (truncates.symm.trans none_))
      exact roomy
    · obtain ⟨fits, word⟩ := roomy.room id n.body (bodies_live live) regular
      obtain ⟨shape, root, inode, files, b, resized, table⟩ := fsTruncate_room search live fits word truncates
      exact roomy.change live resized table shape root inode files
  | stat path => exact extreme.elim

def ExtremeStep (σ τ : Session) : Prop :=
  ∃ env op reply, Extreme σ op ∧ OpFits env σ op ∧ runOp env σ op = some (reply, τ)

theorem roomy_reached (reached : Reachable Roomy ExtremeStep σ) : Roomy σ :=
  reached.induct Roomy (fun _ roomy => roomy) fun _ _ roomy ⟨_, _, _, extreme, _, run⟩ => roomy.step extreme run

/-- Along every run the bytes of a file lie in its buffer, and the next call
returns without leaving the buffer exactly when its numbers fit. -/
theorem extremes_fit (reached : Reachable Roomy ExtremeStep σ) :
    (∀ id n, σ.fs.nodes id = some n → n.body.Regular → n.size ≤ n.capacity) ∧
    ∀ env op, Extreme σ op → ((∃ r, runOp env σ op = some r) ↔ OpFits env σ op) := by
  have roomy := roomy_reached reached
  exact ⟨fun id n live regular => (roomy.room id n.body (bodies_live live) regular).1,
    fun _ _ extreme => roomy.returns extreme⟩

/-- The filesystem after boot with one new file. -/
def scratch : Option Session :=
  (fsInit bootEnv fun _ => bootEnv).bind fun s =>
    (fsCreate rootEnv s (ascii "/tmp/f") .file 0o644).map fun r => { fs := r.2, mine := [] }

theorem scratch_roomy (boot : scratch = some σ) : Roomy σ := by
  obtain ⟨s, started, rest⟩ := Option.bind_eq_some_iff.mp boot
  obtain ⟨⟨got, t⟩, create, rfl⟩ := Option.map_eq_some_iff.mp rest
  obtain ⟨s', kids, started', tree⟩ := fsInit_tree bootEnv (fun _ => bootEnv) rfl
  cases Option.some.inj (started.symm.trans started')
  obtain ⟨got', t', kids', create', tree'⟩ := fsCreate_tree rootEnv tree (ascii "/tmp/f") .file 0o644
  obtain ⟨rfl, rfl⟩ := Prod.mk.inj (Option.some.inj (create.symm.trans create'))
  have empty : (scratch.map fun σ => (σ.fs.nextInode, (List.range 16).all fun id => (σ.fs.nodes id).all fun n =>
      decide (n.size = 0 ∧ n.capacity = 0))) = some (16, true) := by
    decide +kernel
  rw [boot, Option.map_some] at empty
  obtain ⟨next, all⟩ := Prod.mk.inj (Option.some.inj empty)
  refine ⟨⟨kids', tree'⟩, fun id b body _ => ?_, fun h member => absurd member (List.not_mem_nil)⟩
  obtain ⟨n, live, rfl⟩ := live_of_body body
  have below : id < 16 := next ▸ tree'.fresh id n.shape (shapes_live live)
  have plain := List.all_eq_true.mp all id (List.mem_range.mpr below)
  rw [show t.nodes id = some n from live, Option.all_some] at plain
  obtain ⟨size, capacity⟩ := of_decide_eq_true plain
  constructor
  · exact Nat.le_of_eq (size.trans capacity.symm)
  · exact Nat.lt_of_le_of_lt (Nat.le_of_eq capacity) (by decide)

example : (scratch.map fun σ => σ.fs.nextInode) = some 16 := by decide +kernel

theorem extremes_fit_scratch : ∃ σ, scratch = some σ ∧ ∃ r, runOp rootEnv σ (.truncate (ascii "/tmp/f") (2 ^ 63)) = some r := by
  have boot : (scratch.map fun σ => decide (OnFile σ.fs (ascii "/tmp/f"))) = some true := by decide +kernel
  obtain ⟨σ, started, range⟩ := Option.map_eq_some_iff.mp boot
  have roomy := scratch_roomy started
  have file : OnFile σ.fs (ascii "/tmp/f") := of_decide_eq_true range
  have extreme : Extreme σ (.truncate (ascii "/tmp/f") (2 ^ 63)) := ⟨file, by decide⟩
  refine ⟨σ, started, ((extremes_fit (.start roomy)).2 rootEnv _ extreme).mpr ?_⟩
  intro id search n live
  have regular := file (some id) search id rfl n live
  exact Or.inr (reaches_half (Nat.le_refl _) (roomy.room id n.body (bodies_live live) regular).2)

example : (scratch.map fun σ => decide (OnFile σ.fs (ascii "/tmp/f"))) = some true := by decide +kernel

/-- A file cut to one byte more than half the address space: the capacity doubles
to zero and stays there. -/
theorem truncate_never_ends :
    ¬ ∀ σ, Reachable Roomy (fun σ τ => ∃ env op reply, Extreme σ op ∧ runOp env σ op = some (reply, τ)) σ →
      ∀ env op, Extreme σ op → ∃ r, runOp env σ op = some r := by
  intro always
  have attack : (scratch.map fun σ => (decide (OnFile σ.fs (ascii "/tmp/f")),
      (runOp rootEnv σ (.truncate (ascii "/tmp/f") (2 ^ 63 + 1))).isSome)) = some (true, false) := by
    decide +kernel
  obtain ⟨σ, started, facts⟩ := Option.map_eq_some_iff.mp attack
  obtain ⟨range, stuck⟩ := Prod.mk.inj facts
  obtain ⟨r, run⟩ := always σ (.start (scratch_roomy started)) rootEnv (.truncate (ascii "/tmp/f") (2 ^ 63 + 1))
    ⟨of_decide_eq_true range, by decide⟩
  rw [run] at stuck
  cases stuck

end Runs

end Qito.Vfs
