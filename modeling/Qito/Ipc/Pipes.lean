import Qito.Lib.Runs
import Qito.Lib.Rings
import Qito.Lib.Words
import Qito.Ipc.Ports

/-! The pipes of sys/ipc.c as queues of bytes. Every call holds the lock of the pipe
from its first to its last access and is one step; a pipe is one that pipe_create
has returned, with the bytes kmalloc gave it. -/
namespace Qito.Ipc
open Runs Rings Words

structure Pipe where
  buffer : Nat → UInt8
  capacity : Nat
  head : Nat
  tail : Nat
  used : Nat

/-- The memory of the buffer is what kmalloc left in it, or none. -/
def pipeCreate (memory : Option (Nat → UInt8)) (capacity : Nat) : Option Pipe :=
  memory.map fun buffer => { buffer := buffer, capacity := capacity, head := 0, tail := 0, used := 0 }

/-- A size_t as ssize_t, and back. -/
def ssize (n : Nat) : Int := if n < 2 ^ 63 then n else n - 2 ^ 64

def size (n : Int) : Nat := (n % 2 ^ 64).toNat

def next (p : Pipe) (i : Nat) : Nat := wrap64 (i + 1) % p.capacity

/-- One round of the loop of pipe_write. -/
def putByte (p : Pipe) (byte : UInt8) : Pipe :=
  { p with buffer := Function.update p.buffer p.head byte, head := next p p.head }

def pipeWrite (p : Pipe) (data : Source) (len : Nat) : Int × Pipe :=
  match data with
  | none => (-qeInval, p)
  | some bytes =>
    let space := sub64 p.capacity p.used
    let written := min len space
    let p := (List.range written).foldl (fun p i => putByte p (bytes i)) p
    (ssize written, { p with used := wrap64 (p.used + written) })

/-- One round of the loop of pipe_read; the bytes are those stored so far. -/
def takeByte (out : Bytes × Pipe) : Bytes × Pipe :=
  (out.1 ++ [out.2.buffer out.2.tail], { out.2 with tail := next out.2 out.2.tail })

/-- The code, and what is stored into the caller's buffer. -/
def pipeRead (p : Pipe) (out : Bool) (len : Nat) : Int × Bytes × Pipe :=
  if !out then (-qeInval, [], p)
  else
    let count := min len p.used
    let (bytes, p) := Nat.iterate takeByte count ([], p)
    (ssize count, bytes, { p with used := sub64 p.used count })

def pipeAvailable (p : Pipe) : Nat := p.used

inductive PipeCall where
  | write (data : Source) (len : Nat)
  | read (out : Bool) (len : Nat)

structure PipeEvent where
  call : PipeCall
  code : Int
  bytes : Bytes

def pipePerform (p : Pipe) : PipeCall → PipeEvent × Pipe
  | .write data len => (⟨.write data len, (pipeWrite p data len).1, []⟩, (pipeWrite p data len).2)
  | .read out len => (⟨.read out len, (pipeRead p out len).1, (pipeRead p out len).2.1⟩, (pipeRead p out len).2.2)

/-- The first written bytes of a write. -/
def PipeEvent.accepts (e : PipeEvent) : Bytes :=
  match e.call with
  | .write (some memory) _ => (List.range (size e.code)).map memory
  | _ => []

/-- The pipe and the calls on it so far, the last one first. -/
structure PipeSession where
  pipe : Pipe
  history : List PipeEvent

def PipeSession.accepted (s : PipeSession) : Bytes := s.history.reverse.flatMap (·.accepts)

def PipeSession.returned (s : PipeSession) : Bytes := s.history.reverse.flatMap (·.bytes)

def Created (capacity : Nat) (s : PipeSession) : Prop :=
  ∃ memory, pipeCreate memory capacity = some s.pipe ∧ s.history = []

def pipePerformed (s : PipeSession) (call : PipeCall) : PipeSession where
  pipe := (pipePerform s.pipe call).2
  history := (pipePerform s.pipe call).1 :: s.history

def PipeStep (s t : PipeSession) : Prop := ∃ call, t = pipePerformed s call

section Loops
variable {p : Pipe} {queue : Bytes}

/-- The pipe holds this queue, and its numbers agree with it. -/
structure Piped (p : Pipe) (queue : Bytes) : Prop where
  holds : Holds p.capacity p.buffer p.tail queue
  head : p.head = (p.tail + queue.length) % p.capacity
  word : p.capacity < 2 ^ 64

theorem Piped.next (piped : Piped p queue) {i : Nat} (inside : i < p.capacity) : next p i = (i + 1) % p.capacity := by
  have small : i + 1 < 2 ^ 64 := Nat.lt_of_le_of_lt inside piped.word
  rw [Ipc.next, wrap64_of_lt small]

theorem Piped.put (piped : Piped p queue) (room : queue.length < p.capacity) (byte : UInt8) :
    Piped (putByte p byte) (queue ++ [byte]) where
  holds := by
    have pushed := piped.holds.push room byte
    rw [← piped.head] at pushed
    exact pushed
  head := by
    have inside : p.head < p.capacity := by
      rw [piped.head]
      exact Nat.mod_lt _ (Nat.zero_lt_of_lt room)
    change Ipc.next p p.head = (p.tail + (queue ++ [byte]).length) % p.capacity
    rw [piped.next inside, piped.head, Nat.mod_add_mod, List.length_append, List.length_singleton, Nat.add_assoc]
  word := piped.word

theorem putByte_used (p : Pipe) (byte : UInt8) : (putByte p byte).used = p.used := rfl

theorem putByte_capacity (p : Pipe) (byte : UInt8) : (putByte p byte).capacity = p.capacity := rfl

theorem Piped.puts (piped : Piped p queue) (bytes : Nat → UInt8) {n : Nat} (room : queue.length + n ≤ p.capacity) :
    Piped ((List.range n).foldl (fun p i => putByte p (bytes i)) p) (queue ++ (List.range n).map bytes) ∧
      ((List.range n).foldl (fun p i => putByte p (bytes i)) p).used = p.used ∧
      ((List.range n).foldl (fun p i => putByte p (bytes i)) p).capacity = p.capacity := by
  induction n with
  | zero =>
    rw [List.range_zero, List.map_nil, List.append_nil]
    exact ⟨piped, rfl, rfl⟩
  | succ n ih =>
    obtain ⟨before, used, capacity⟩ := ih (by omega)
    rw [List.range_succ, List.foldl_append, List.map_append, ← List.append_assoc]
    refine ⟨before.put ?_ (bytes n), used, capacity⟩
    rw [capacity, List.length_append, List.length_map, List.length_range]
    omega

theorem Piped.take {byte : UInt8} {rest : Bytes} (piped : Piped p (byte :: rest)) (out : Bytes) :
    takeByte (out, p) = (out ++ [byte], { p with tail := Ipc.next p p.tail }) ∧
      Piped { p with tail := Ipc.next p p.tail } rest := by
  have turn : Ipc.next p p.tail = (p.tail + 1) % p.capacity := piped.next piped.holds.inside
  constructor
  · rw [takeByte, piped.holds.front]
  · constructor
    · rw [turn]
      exact piped.holds.pop
    · rw [turn]
      change p.head = _
      rw [piped.head, List.length_cons, Nat.mod_add_mod, Nat.add_assoc, Nat.add_comm 1]
    · exact piped.word

theorem Piped.takes {out : Bytes} {n : Nat} (piped : Piped p queue) (enough : n ≤ queue.length) :
    ∃ q, Nat.iterate takeByte n (out, p) = (out ++ queue.take n, q) ∧ Piped q (queue.drop n) ∧ q.used = p.used ∧
      q.capacity = p.capacity := by
  induction n generalizing p queue out with
  | zero => exact ⟨p, by rw [List.take_zero, List.append_nil]; rfl, piped, rfl, rfl⟩
  | succ n ih =>
    cases queue with
    | nil => cases enough
    | cons byte rest =>
      obtain ⟨taken, left⟩ := piped.take out
      obtain ⟨q, run, rested, used, capacity⟩ := ih left (Nat.le_of_succ_le_succ enough)
      refine ⟨q, ?_, rested, used, capacity⟩
      rw [Function.iterate_succ_apply, taken, run, List.take_succ_cons, List.append_assoc]
      rfl

end Loops

section Calls
variable {p : Pipe} {queue : Bytes}

/-- The queue of the pipe between two calls. -/
structure Carries (p : Pipe) (queue : Bytes) : Prop where
  piped : Piped p queue
  used : p.used = queue.length

theorem Carries.fits (carries : Carries p queue) : queue.length ≤ p.capacity := carries.piped.holds.fits

theorem Carries.write (carries : Carries p queue) (memory : Nat → UInt8) (len : Nat) :
    (pipeWrite p (some memory) len).1 = ssize (min len (p.capacity - queue.length)) ∧
      Carries (pipeWrite p (some memory) len).2
        (queue ++ (List.range (min len (p.capacity - queue.length))).map memory) ∧
      (pipeWrite p (some memory) len).2.capacity = p.capacity := by
  have fits := carries.fits
  have space : sub64 p.capacity p.used = p.capacity - queue.length := by
    rw [carries.used]
    exact sub64_of_le fits carries.piped.word
  have room : queue.length + min len (p.capacity - queue.length) ≤ p.capacity := by omega
  obtain ⟨piped, used, capacity⟩ := carries.piped.puts memory room
  have small : queue.length + min len (p.capacity - queue.length) < 2 ^ 64 := Nat.lt_of_le_of_lt room carries.piped.word
  simp only [pipeWrite, space]
  refine ⟨trivial, ⟨⟨piped.holds, piped.head, piped.word⟩, ?_⟩, capacity⟩
  rw [used, carries.used, wrap64_of_lt small, List.length_append, List.length_map, List.length_range]

theorem Carries.read (carries : Carries p queue) (len : Nat) :
    (pipeRead p true len).1 = ssize (min len queue.length) ∧ (pipeRead p true len).2.1 = queue.take len ∧
      Carries (pipeRead p true len).2.2 (queue.drop len) ∧ (pipeRead p true len).2.2.capacity = p.capacity := by
  obtain ⟨q, run, piped, used, capacity⟩ :=
    @Piped.takes _ _ [] (min len queue.length) carries.piped (Nat.min_le_right ..)
  have small : queue.length < 2 ^ 64 := Nat.lt_of_le_of_lt carries.fits carries.piped.word
  have taken : queue.take (min len queue.length) = queue.take len := by
    rw [← List.take_take, List.take_length]
  have dropped : queue.drop (min len queue.length) = queue.drop len := by
    rcases Nat.le_total len queue.length with short | long
    · rw [Nat.min_eq_left short]
    · rw [Nat.min_eq_right long, List.drop_length, List.drop_eq_nil_of_le long]
  rw [taken] at run
  rw [dropped] at piped
  simp only [pipeRead, carries.used, run, Bool.not_true]
  refine ⟨rfl, rfl, ⟨⟨piped.holds, piped.head, piped.word⟩, ?_⟩, capacity⟩
  change sub64 q.used (min len queue.length) = (queue.drop len).length
  rw [used, carries.used, sub64_of_le (Nat.min_le_right ..) small, List.length_drop]
  omega

end Calls

section Sessions
variable {capacity : Nat} {s t : PipeSession}

theorem size_ssize {n : Nat} (small : n < 2 ^ 64) : size (ssize n) = n := by
  unfold size ssize
  split
  · rw [Int.emod_eq_of_lt (Int.natCast_nonneg n) (by omega), Int.toNat_natCast]
  · omega

theorem Carries.accepts {p : Pipe} {queue : Bytes} (carries : Carries p queue) (memory : Nat → UInt8) (len : Nat) :
    (pipePerform p (.write (some memory) len)).1.accepts = (List.range (min len (p.capacity - queue.length))).map memory := by
  have small : min len (p.capacity - queue.length) < 2 ^ 64 :=
    Nat.lt_of_le_of_lt (Nat.min_le_right ..) (Nat.lt_of_le_of_lt (Nat.sub_le ..) carries.piped.word)
  simp only [pipePerform, PipeEvent.accepts, (carries.write memory len).1, size_ssize small]

/-- What the pipe holds is what has been accepted and not returned. -/
structure Matches (capacity : Nat) (s : PipeSession) : Prop where
  carries : ∃ queue, Carries s.pipe queue ∧ s.accepted = s.returned ++ queue
  sized : s.pipe.capacity = capacity

theorem accepted_performed (s : PipeSession) (call : PipeCall) :
    (pipePerformed s call).accepted = s.accepted ++ (pipePerform s.pipe call).1.accepts := by
  simp [PipeSession.accepted, pipePerformed]

theorem returned_performed (s : PipeSession) (call : PipeCall) :
    (pipePerformed s call).returned = s.returned ++ (pipePerform s.pipe call).1.bytes := by
  simp [PipeSession.returned, pipePerformed]

theorem Matches.step (agree : Matches capacity s) (step : PipeStep s t) : Matches capacity t := by
  obtain ⟨call, rfl⟩ := step
  obtain ⟨⟨queue, carries, whole⟩, sized⟩ := agree
  have still {e : PipeEvent} (same : pipePerform s.pipe call = (e, s.pipe)) (none_ : e.accepts = []) (nothing : e.bytes = []) :
      Matches capacity (pipePerformed s call) := by
    constructor
    · refine ⟨queue, ?_, ?_⟩
      · rw [pipePerformed, same]
        exact carries
      · rw [accepted_performed, returned_performed, same, none_, nothing, List.append_nil, List.append_nil]
        exact whole
    · rw [pipePerformed, same]
      exact sized
  cases call with
  | write data len =>
    cases data with
    | none => exact still rfl rfl rfl
    | some memory =>
      obtain ⟨-, after, same⟩ := carries.write memory len
      have accepts := carries.accepts memory len
      have nothing : (pipePerform s.pipe (.write (some memory) len)).1.bytes = [] := rfl
      refine ⟨⟨_, after, ?_⟩, same.trans sized⟩
      rw [accepted_performed, returned_performed, accepts, nothing, whole, List.append_nil, List.append_assoc]
  | read out len =>
    cases out with
    | false => exact still rfl rfl rfl
    | true =>
      obtain ⟨-, bytes, after, same⟩ := carries.read len
      refine ⟨⟨_, after, ?_⟩, same.trans sized⟩
      have given : (pipePerform s.pipe (.read true len)).1.bytes = queue.take len := bytes
      have none_ : (pipePerform s.pipe (.read true len)).1.accepts = [] := rfl
      rw [accepted_performed, returned_performed, none_, given, List.append_nil, List.append_assoc, List.take_append_drop]
      exact whole

theorem created_matches (positive : 0 < capacity) (word : capacity < 2 ^ 64) (created : Created capacity s) :
    Matches capacity s := by
  obtain ⟨memory, made, empty⟩ := created
  obtain ⟨buffer, -, same⟩ := Option.map_eq_some_iff.mp made
  have carries : Carries s.pipe [] := by
    rw [← same]
    exact ⟨⟨holds_nil positive, (Nat.zero_mod capacity).symm, word⟩, rfl⟩
  refine ⟨⟨[], carries, ?_⟩, ?_⟩
  · rw [PipeSession.accepted, PipeSession.returned, empty]
    rfl
  · rw [← same]

/-- Five bytes are offered to a pipe of three, two are read, two more written. -/
def threeBytes : PipeSession :=
  pipePerformed (pipePerformed (pipePerformed ⟨⟨fun _ => 0, 3, 0, 0, 0⟩, []⟩
    (.write (some fun i => UInt8.ofNat (10 + i)) 5)) (.read true 2)) (.write (some fun i => UInt8.ofNat (20 + i)) 2)

theorem threeBytes_reached : Reachable (Created 3) PipeStep threeBytes := by
  refine Reachable.next ?_ ⟨_, rfl⟩
  refine Reachable.next ?_ ⟨_, rfl⟩
  refine Reachable.next ?_ ⟨_, rfl⟩
  exact Reachable.start ⟨some fun _ => 0, rfl, rfl⟩

end Sessions

end Qito.Ipc
