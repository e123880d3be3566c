import Qito.Heap.Model

/- Headers as records. Each setter changes one field of its own block, and
nothing of a header that starts at least a header away. -/
namespace Qito.Heap
open ByteMemory Words

section Header
variable (m : Memory) (b : Nat) {v : Nat}

@[simp] theorem block_setMagic (small : v < 2 ^ 64) :
    block (setMagic m b v) b = { block m b with magic := v } := by
  simp (disch := omega) [block, setMagic, load_store_same, load_store_apart]
  exact small

@[simp] theorem block_setSize (small : v < 2 ^ 64) :
    block (setSize m b v) b = { block m b with size := v } := by
  simp (disch := omega) [block, setSize, load_store_same, load_store_apart]
  exact small

@[simp] theorem block_setNext (small : v < 2 ^ 64) :
    block (setNext m b v) b = { block m b with next := v } := by
  simp (disch := omega) [block, setNext, load_store_same, load_store_apart]
  exact small

@[simp] theorem block_setPrev (small : v < 2 ^ 64) :
    block (setPrev m b v) b = { block m b with prev := v } := by
  simp (disch := omega) [block, setPrev, load_store_same, load_store_apart]
  exact small

@[simp] theorem block_setFree (f : Bool) :
    block (setFree m b f) b = { block m b with free := f } := by
  cases f <;> simp (disch := omega) [block, setFree, load_store_same, load_store_apart]

theorem block_congr {m m' : Memory} {b : Nat}
    (same : ∀ x, b ≤ x → x < b + headerSize → m' x = m x) : block m' b = block m b := by
  have width : headerSize = 48 := rfl
  have word (a k : Nat) (lo : b ≤ a) (hi : a + k ≤ b + headerSize) : load m' a k = load m a k :=
    load_congr (fun x h1 h2 => same x (by omega) (by omega))
  simp only [block, word b 8 (by omega) (by omega), word (b + 8) 8 (by omega) (by omega),
    word (b + 16) 8 (by omega) (by omega), word (b + 24) 8 (by omega) (by omega),
    word (b + 32) 4 (by omega) (by omega)]

variable {m b} (v) {c : Nat} (apart : Apart b headerSize c headerSize)
include apart

@[simp] theorem block_setMagic_apart : block (setMagic m b v) c = block m c := by
  have width : headerSize = 48 := rfl
  simp (disch := omega) only [block, setMagic, load_store_apart]

@[simp] theorem block_setSize_apart : block (setSize m b v) c = block m c := by
  have width : headerSize = 48 := rfl
  simp (disch := omega) only [block, setSize, load_store_apart]

@[simp] theorem block_setNext_apart : block (setNext m b v) c = block m c := by
  have width : headerSize = 48 := rfl
  simp (disch := omega) only [block, setNext, load_store_apart]

@[simp] theorem block_setPrev_apart : block (setPrev m b v) c = block m c := by
  have width : headerSize = 48 := rfl
  simp (disch := omega) only [block, setPrev, load_store_apart]

@[simp] theorem block_setFree_apart (f : Bool) : block (setFree m b f) c = block m c := by
  have width : headerSize = 48 := rfl
  simp (disch := omega) only [block, setFree, load_store_apart]

end Header

/-- A block as the layout sees it; its address follows from those before it. -/
structure Chunk where
  size : Nat
  free : Bool

def span : List Chunk → Nat
  | [] => 0
  | c :: cs => headerSize + c.size + span cs

@[simp] theorem span_nil : span [] = 0 := rfl

@[simp] theorem span_cons (c : Chunk) (cs : List Chunk) :
    span (c :: cs) = headerSize + c.size + span cs := rfl

@[simp] theorem span_append (xs ys : List Chunk) : span (xs ++ ys) = span xs + span ys := by
  induction xs with
  | nil => simp
  | cons x xs ih => simp [ih, Nat.add_assoc]

def magicOf (free : Bool) : Nat := if free then blockMagicFree else blockMagicUsed

/-- The next pointer in front of the chunks cs at a, when e follows them all. -/
def nextLink (a : Nat) (cs : List Chunk) (e : Nat) : Nat :=
  match cs with
  | [] => e
  | _ :: _ => a

/-- The address of the last of the chunks cs at a, when p precedes them all. -/
def lastAddr : Nat → Nat → List Chunk → Nat
  | _, p, [] => p
  | a, _, c :: cs => lastAddr (a + headerSize + c.size) a cs

def headerOf (a p : Nat) (c : Chunk) (cs : List Chunk) (e : Nat) : Block where
  magic := magicOf c.free
  size := c.size
  next := nextLink (a + headerSize + c.size) cs e
  prev := p
  free := c.free

/-- Memory holds the headers of the chunks cs, tiled from a on, linked behind p
and in front of e. -/
def Seg (m : Memory) : Nat → Nat → List Chunk → Nat → Prop
  | _, _, [], _ => True
  | a, p, c :: cs, e =>
    block m a = headerOf a p c cs e ∧ Seg m (a + headerSize + c.size) a cs e

theorem nextLink_append (a : Nat) (xs ys : List Chunk) (e : Nat) :
    nextLink a (xs ++ ys) e = nextLink a xs (nextLink (a + span xs) ys e) := by
  cases xs <;> simp [nextLink]

theorem seg_append (m : Memory) (a p : Nat) (xs ys : List Chunk) (e : Nat) :
    Seg m a p (xs ++ ys) e ↔
      Seg m a p xs (nextLink (a + span xs) ys e) ∧ Seg m (a + span xs) (lastAddr a p xs) ys e := by
  induction xs generalizing a p with
  | nil => simp [Seg, lastAddr]
  | cons x xs ih =>
    have shift : a + headerSize + x.size + span xs = a + span (x :: xs) := by
      simp only [span_cons]; omega
    simp only [List.cons_append, Seg, lastAddr, headerOf, nextLink_append, ih, shift, and_assoc]

theorem seg_frame {m m' : Memory} {a p e : Nat} {cs : List Chunk}
    (same : ∀ b, a ≤ b → b + headerSize ≤ a + span cs → block m' b = block m b)
    (seg : Seg m a p cs e) : Seg m' a p cs e := by
  induction cs generalizing a p with
  | nil => trivial
  | cons c cs ih =>
    simp only [span_cons] at same
    refine ⟨(same a (by omega) (by omega)).trans seg.1, ?_⟩
    exact ih (fun b lo hi => same b (by omega) (by omega)) seg.2

theorem seg_relink {m m' : Memory} {a p q e : Nat} {cs : List Chunk} (seg : Seg m a p cs e)
    (first : cs ≠ [] → block m' a = { block m a with prev := q })
    (rest : ∀ b, a + headerSize ≤ b → b + headerSize ≤ a + span cs → block m' b = block m b) :
    Seg m' a q cs e := by
  cases cs with
  | nil => trivial
  | cons c cs =>
    refine ⟨?_, seg_frame (fun b lo hi => rest b (by omega) ?_) seg.2⟩
    · rw [first (by simp), seg.1]
      rfl
    · simp only [span_cons]
      omega

end Qito.Heap
