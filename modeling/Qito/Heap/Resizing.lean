import Qito.Heap.Frees
import Qito.Heap.Writes

/-! What krealloc does to the data: the old bytes are found in the block it returns,
and no other allocation notices. -/
namespace Qito.Heap
open ByteMemory Words Runs

/-- A pointer whose block is in the list and in use. -/
def InUse (s : HeapState) (p : Nat) : Prop :=
  ∃ bs, heapBlocks s = some bs ∧ ∃ b ∈ bs, p = b + headerSize ∧ (block s.mem b).free = false

/-- The bytes of the whole payload behind p. -/
def payload (s : HeapState) (p : Nat) : List UInt8 :=
  (List.range (block s.mem (sub64 p headerSize)).size).map fun i => s.mem (p + i)

/-- The allocation at p is still there, with its size and its bytes. -/
def Intact (s t : HeapState) (p : Nat) : Prop := InUse t p ∧ payload t p = payload s p

/-- A krealloc of p that returned NULL: every allocation is intact and there is no other.
Only the committed range may have grown. -/
structure Refused (s t : HeapState) : Prop where
  intact : ∀ x, InUse s x → Intact s t x
  others : ∀ x, InUse t x → InUse s x
  still : t.heapCommitted = s.heapCommitted → t = s

/-- A krealloc of p to n bytes that returned q. -/
structure Moved (s t : HeapState) (p n q : Nat) : Prop where
  live : InUse t q
  room : n ≤ (payload t q).length
  data : (payload t q).take (min (payload s p).length n) = (payload s p).take (min (payload s p).length n)
  gone : InUse t p → p = q
  intact : ∀ x, InUse s x → x ≠ p → Intact s t x
  others : ∀ x, InUse t x → x = q ∨ InUse s x
  fresh : InUse s q → q = p

def ReallocKeeps (s t : HeapState) (p n q : Nat) : Prop := if q = 0 then Refused s t else Moved s t p n q

section Payloads
variable {s t : HeapState} {L M : Layout} {p n : Nat}

theorem Represents.inUse (rep : Represents s L) : InUse s p ↔ ∃ n, (p, n) ∈ allocations heapBase L.chunks := by
  constructor
  · rintro ⟨bs, walked, b, member, rfl, busy⟩
    cases Option.some.inj (walked.symm.trans rep.blocks)
    obtain ⟨pre, c, post, eq, rfl, header⟩ := rep.header member
    have used : c.free = false := by
      rw [header] at busy
      exact busy
    refine ⟨c.size, ?_⟩
    rw [eq, allocations_append, allocations, used, if_neg Bool.false_ne_true]
    exact List.mem_append_right _ List.mem_cons_self
  · rintro ⟨n, used⟩
    refine ⟨_, rep.blocks, ?_⟩
    obtain ⟨pre, post, eq, rfl⟩ := allocations_split used
    have seg := rep.seg
    rw [eq] at seg ⊢
    refine ⟨heapBase + span pre, mem_addresses .., rfl, ?_⟩
    rw [((seg_append ..).mp seg).2.1]
    rfl

theorem Represents.payload (rep : Represents s L) (used : (p, n) ∈ allocations heapBase L.chunks) :
    payload s p = (List.range n).map fun i => s.mem (p + i) := by
  rw [Heap.payload, (live_header rep used).2.2]

theorem intact_of_bytes (rep : Represents s L) (rep' : Represents t M) (used : (p, n) ∈ allocations heapBase L.chunks)
    (used' : (p, n) ∈ allocations heapBase M.chunks) (bytes : ∀ x, p ≤ x → x < p + n → t.mem x = s.mem x) : Intact s t p := by
  refine ⟨rep'.inUse.mpr ⟨n, used'⟩, ?_⟩
  rw [rep.payload used, rep'.payload used']
  apply List.map_congr_left
  intro i member
  have low := List.mem_range.mp member
  exact bytes (p + i) (by omega) (by omega)

end Payloads

section Call
variable {s t : HeapState} {L : Layout} {page : Nat → PageOutcome} {p n q : Nat}

theorem kmalloc_refused (rep : Represents s L) (ok : RequestOk s n) (run : kmalloc page s n = some (0, t))
    (still : t.heapCommitted = s.heapCommitted) : t = s := by
  rcases kmalloc_still rep ok run still with ⟨-, same⟩ | ⟨pre, c, post, -, -, -, null, -⟩
  · exact same
  · have base : 0 < heapBase := by decide
    omega

theorem allocations_disjoint {x j y i : Nat} (first : (x, j) ∈ allocations heapBase L.chunks)
    (second : (y, i) ∈ allocations heapBase L.chunks) (other : x ≠ y) : Apart x j y i := by
  obtain ⟨before, after, eq⟩ := List.append_of_mem second
  have rest : (x, j) ∈ before ++ after := by
    rw [eq] at first
    rcases List.mem_append.mp first with left | right
    · exact List.mem_append_left _ left
    · rcases List.mem_cons.mp right with same | right
      · exact absurd (Prod.mk.inj same).1 other
      · exact List.mem_append_right _ right
  exact (allocations_unique eq rest).1

theorem copy_then_free {k room : Nat} (rep : Represents s L) (old : (p, k) ∈ allocations heapBase L.chunks)
    (new : (q, room) ∈ allocations heapBase L.chunks) (other : q ≠ p) (fits : k ≤ room) :
    ∃ t M, kfree { s with mem := copy s.mem q p k } p = some t ∧ Represents t M ∧
      (allocations heapBase L.chunks).Perm ((p, k) :: allocations heapBase M.chunks) ∧
      (∀ i < k, t.mem (q + i) = s.mem (p + i)) ∧
      ∀ x j, (x, j) ∈ allocations heapBase L.chunks → x ≠ q → ∀ y, x ≤ y → y < x + j → t.mem y = s.mem y := by
  have rep' : Represents { s with mem := copy s.mem q p k } L := by
    refine rep.write new fun x outside => ?_
    have beyond : ¬ (q ≤ x ∧ x < q + k) := by omega
    rw [copy, if_neg beyond]
  obtain ⟨t, M, run, repM, fewer⟩ := kfree_live rep' old
  have bytes : ∀ x j, (x, j) ∈ allocations heapBase L.chunks → ∀ y, x ≤ y → y < x + j → t.mem y = copy s.mem q p k y := by
    obtain ⟨pre, post, eq, rfl⟩ := allocations_split old
    exact (kfree_tidy rep' eq run).1.bytes
  refine ⟨t, M, run, repM, fewer, fun i low => ?_, fun x j there apart y low high => ?_⟩
  · have inside : q ≤ q + i ∧ q + i < q + k := by omega
    rw [bytes q room new (q + i) (by omega) (by omega), copy, if_pos inside, Nat.add_sub_cancel_left]
  · have disjoint := allocations_disjoint there new apart
    have outside : ¬ (q ≤ y ∧ y < q + k) := by omega
    rw [bytes x j there y low high, copy, if_neg outside]

theorem krealloc_keeps (rep : Represents s L) (ok : RequestOk s n) (used : InUse s p) (positive : 0 < n) :
    ∃ q t, krealloc page s p n = some (q, t) ∧ ReallocKeeps s t p n q := by
  obtain ⟨k, live⟩ := rep.inUse.mp used
  have nonzero := live_positive live
  obtain ⟨-, magic, size⟩ := live_header rep live
  have content := rep.payload live
  have length : (payload s p).length = k := by rw [content, List.length_map, List.length_range]
  rcases Nat.lt_or_ge k n with short | enough
  · obtain ⟨q, s₁, run, L₁, rep₁, outcome⟩ := kmalloc_spec rep ok page
    have serves := kmalloc_serves rep ok run
    rcases outcome with ⟨rfl, same⟩ | ⟨room, large, more⟩
    · refine ⟨0, s₁, ?_, ?_⟩
      · simp [krealloc, nonzero, Nat.ne_of_gt positive, magic, size, Nat.not_le.mpr short, run]
      · rw [ReallocKeeps, if_pos rfl]
        refine ⟨fun x before => ?_, fun x after => ?_, kmalloc_refused rep ok run⟩
        · obtain ⟨j, there⟩ := rep.inUse.mp before
          exact intact_of_bytes rep rep₁ there (same ▸ there) (serves.bytes x j there)
        · exact rep.inUse.mpr (same ▸ rep₁.inUse.mp after)
    · have fresh : (q, room) ∈ allocations heapBase L₁.chunks := more.mem_iff.mpr List.mem_cons_self
      have kept {x j : Nat} (there : (x, j) ∈ allocations heapBase L.chunks) : (x, j) ∈ allocations heapBase L₁.chunks :=
        more.mem_iff.mpr (List.mem_cons_of_mem _ there)
      have distinct : ((q, room) :: allocations heapBase L.chunks).map Prod.fst |>.Nodup :=
        (more.map Prod.fst).nodup_iff.mp (allocations_nodup ..)
      have unused {j : Nat} : (q, j) ∉ allocations heapBase L.chunks := fun there =>
        (List.nodup_cons.mp distinct).1 (List.mem_map.mpr ⟨_, there, rfl⟩)
      have other : q ≠ p := by
        rintro rfl
        exact unused live
      obtain ⟨t, M, freed, repM, fewer, moved, apart⟩ := copy_then_free rep₁ (kept live) fresh other (by omega)
      have copied := (live_header rep₁ (kept live)).2.2
      refine ⟨q, t, ?_, ?_⟩
      · simp [krealloc, nonzero, Nat.ne_of_gt positive, magic, size, Nat.not_le.mpr short, run, live_positive fresh, copied, freed]
      · have after {x j : Nat} (there : (x, j) ∈ allocations heapBase L₁.chunks) (apart : x ≠ p) :
            (x, j) ∈ allocations heapBase M.chunks := by
          rcases List.mem_cons.mp (fewer.mem_iff.mp there) with same | later
          · exact absurd (Prod.mk.inj same).1 apart
          · exact later
        have back {x j : Nat} (there : (x, j) ∈ allocations heapBase M.chunks) :
            (x, j) = (q, room) ∨ (x, j) ∈ allocations heapBase L.chunks :=
          List.mem_cons.mp (more.mem_iff.mp (fewer.mem_iff.mpr (List.mem_cons_of_mem _ there)))
        have target := repM.payload (after fresh other)
        rw [ReallocKeeps, if_neg (live_positive fresh)]
        constructor
        · exact repM.inUse.mpr ⟨room, after fresh other⟩
        · rw [target, List.length_map, List.length_range]
          exact large
        · rw [length, Nat.min_eq_left (Nat.le_of_lt short), target, content, ← List.map_take, ← List.map_take, List.take_range,
            List.take_range, Nat.min_eq_left (by omega), Nat.min_self]
          apply List.map_congr_left
          intro i member
          have low := List.mem_range.mp member
          rw [moved i low]
          exact serves.bytes p k live (p + i) (by omega) (by omega)
        · intro stays
          obtain ⟨j, there⟩ := repM.inUse.mp stays
          have nodup := (fewer.map Prod.fst).nodup_iff.mp (allocations_nodup heapBase L₁.chunks)
          exact absurd (List.mem_map.mpr ⟨_, there, rfl⟩) (List.nodup_cons.mp nodup).1
        · intro x before notP
          obtain ⟨j, there⟩ := rep.inUse.mp before
          have notQ : x ≠ q := by
            rintro rfl
            exact unused there
          refine intact_of_bytes rep repM there (after (kept there) notP) fun y low high => ?_
          exact (apart x j (kept there) notQ y low high).trans (serves.bytes x j there y low high)
        · intro x stays
          obtain ⟨j, there⟩ := repM.inUse.mp stays
          exact (back there).imp (fun same => (Prod.mk.inj same).1) fun before => rep.inUse.mpr ⟨j, before⟩
        · intro before
          obtain ⟨j, there⟩ := rep.inUse.mp before
          exact absurd there unused
  · refine ⟨p, s, ?_, ?_⟩
    · simp [krealloc, nonzero, Nat.ne_of_gt positive, magic, size, enough]
    · rw [ReallocKeeps, if_neg nonzero]
      exact ⟨used, length ▸ enough, rfl, fun _ => rfl, fun x before _ => ⟨before, rfl⟩, fun x after => Or.inr after, fun _ => rfl⟩

end Call

section Reached
variable {r : HeapRun}

/-- In every run whose requests heap.c handles as meant, a krealloc of the same kind
keeps the data. -/
theorem realloc_keeps_data (reached : Reached OpOk r) {p n : Nat} (live : p ∈ r.live) (positive : 0 < n)
    (ok : RequestOk r.heap n) (page : Nat → PageOutcome) :
    ∃ q t, krealloc page r.heap p n = some (q, t) ∧ ReallocKeeps r.heap t p n q := by
  obtain ⟨L, rep, held⟩ := reached_represented (fun _ _ _ _ ok => ok) reached
  exact krealloc_keeps rep ok (rep.inUse.mpr (held.payload live)) positive

theorem realloc_keeps_data_at_boot : ∃ s p s', heapInit onePage zeroed = some s ∧ call onePage s (.kmalloc 100) = some (p, s') ∧
    ∃ q t, krealloc onePage s' p 200 = some (q, t) ∧ ReallocKeeps s' t p 200 q := by
  have runs : ((heapInit onePage zeroed).bind fun s => (call onePage s (.kmalloc 100)).map fun r =>
      (r.1, s.heapCommitted, r.2.heapCommitted)) = some (heapBase + headerSize, 4096, 4096) := by decide
  obtain ⟨s, started, called⟩ := Option.bind_eq_some_iff.mp runs
  obtain ⟨⟨p, s'⟩, run, result⟩ := Option.map_eq_some_iff.mp called
  obtain ⟨rfl, committed⟩ := Prod.mk.inj result
  obtain ⟨first, second⟩ := Prod.mk.inj committed
  have small {u : HeapState} (whole : u.heapCommitted = 4096) {n : Nat} (less : n < 2 ^ 63) : RequestOk u n :=
    RequestOk.of_small less (by rw [whole]; decide)
  have ok : OpOk s (.kmalloc 100) := small (n := 100) first (by decide)
  have reached : Reached OpOk ⟨s', [heapBase + headerSize]⟩ :=
    .next (.start (s := ⟨s, []⟩) ⟨rfl, onePage, zeroed, started⟩) ⟨onePage, .kmalloc 100, _, trivial, ok, run, rfl⟩
  exact ⟨s, _, s', started, run, realloc_keeps_data reached List.mem_cons_self (by decide) (small second (by decide)) onePage⟩

/-- A krealloc to 2^64 - 1 bytes returns an empty payload. -/
theorem realloc_loses_room : ¬ ∀ r, Reached WordRequest r → ∀ p ∈ r.live, ∀ n, 0 < n → n < 2 ^ 64 → ∀ page q t,
    krealloc page r.heap p n = some (q, t) → ReallocKeeps r.heap t p n q := by
  intro all
  have runs : ((heapInit onePage zeroed).bind fun s => (call onePage s (.kmalloc 96)).bind fun a =>
      (krealloc onePage a.2 a.1 (2 ^ 64 - 1)).map fun b => (a.1, b.1, (block b.2.mem (sub64 b.1 headerSize)).size)) =
      some (heapBase + headerSize, heapBase + 192, 0) := by decide
  obtain ⟨s, started, runs⟩ := Option.bind_eq_some_iff.mp runs
  obtain ⟨⟨p, s₁⟩, first, runs⟩ := Option.bind_eq_some_iff.mp runs
  obtain ⟨⟨q, t⟩, second, result⟩ := Option.map_eq_some_iff.mp runs
  obtain ⟨rfl, rest⟩ := Prod.mk.inj result
  obtain ⟨rfl, size⟩ := Prod.mk.inj rest
  have reached : Reached WordRequest ⟨s₁, [heapBase + headerSize]⟩ :=
    .next (.start (s := ⟨s, []⟩) ⟨rfl, onePage, zeroed, started⟩)
      ⟨onePage, .kmalloc 96, _, trivial, (by decide : 96 < 2 ^ 64), first, rfl⟩
  have keeps := all _ reached _ List.mem_cons_self (2 ^ 64 - 1) (by decide) (by decide) onePage _ t second
  rw [ReallocKeeps, if_neg (by decide)] at keeps
  have room := keeps.room
  rw [payload, List.length_map, List.length_range, size] at room
  exact absurd room (by decide)

end Reached
end Qito.Heap
