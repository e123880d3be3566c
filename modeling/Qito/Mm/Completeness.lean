import Qito.Mm.Startup

/-! Which runs of free frames pmm_alloc_pages looks at. Its first pass starts at the
hint and its second one ends there, so a run across the hint is in neither. -/
namespace Qito.Mm
open Words Bitmaps Runs

section Search
variable {b : Bitmap}

theorem freeRun_stops {frame count : Nat} (short : freeRun b frame count ≠ count) :
    freeRun b frame count < count ∧ b.test (frame + freeRun b frame count) = true := by
  induction count generalizing frame with
  | zero => exact absurd rfl short
  | succ count ih =>
    unfold freeRun at short ⊢
    split
    · rename_i taken
      exact ⟨Nat.succ_pos _, taken⟩
    · rename_i free
      rw [if_neg free] at short
      obtain ⟨less, taken⟩ := ih fun whole => short (congrArg Nat.succ whole)
      refine ⟨Nat.succ_lt_succ less, ?_⟩
      rw [← Nat.add_assoc, Nat.add_right_comm]
      exact taken

theorem searchRun_none {count limit frame : Nat} (some_ : 0 < count) (fails : searchRun b count limit frame = none)
    (first : Nat) (low : frame ≤ first) (fits : first + count ≤ limit) : ∃ j, first ≤ j ∧ j < first + count ∧ b.test j = true := by
  induction frame using searchRun.induct b count limit with
  | case1 frame inside taken ih =>
    unfold searchRun at fails
    simp only [inside, taken, if_true] at fails
    rcases Nat.eq_or_lt_of_le low with rfl | above
    · exact ⟨frame, Nat.le_refl _, Nat.lt_add_of_pos_right some_, taken⟩
    · exact ih fails above
  | case2 frame inside free whole =>
    unfold searchRun at fails
    simp only [inside, free, whole, if_true] at fails
    cases fails
  | case3 frame inside free short ih =>
    unfold searchRun at fails
    simp only [inside, free, short, if_true, if_false] at fails
    obtain ⟨less, taken⟩ := freeRun_stops short
    -- the frame that ended the rejected run is in every run the loop skips
    by_cases skipped : first ≤ frame + freeRun b frame count
    · exact ⟨frame + freeRun b frame count, skipped, by omega, taken⟩
    · exact ih fails (by omega)
  | case4 frame outside => omega

end Search

section Allocation
variable {s : Pmm}

theorem allocPages_search (sound : PmmSound s) {count : Nat} (some_ : 0 < count) :
    (pmmAllocPages s count).1 = 0 ∧ searchRun s.frameBitmap count s.frameCount s.lastAllocHint = none ∧
        searchRun s.frameBitmap count s.lastAllocHint lowFrames = none ∨
      (pmmAllocPages s count).1 ≠ 0 ∧ ∃ frame, Available s frame count ∧ (s.lastAllocHint ≤ frame ∨ frame + count ≤ s.lastAllocHint) := by
  have address {frame : Nat} (above : lowFrames ≤ frame) : frame * pageSize ≠ 0 :=
    Nat.mul_ne_zero (Nat.ne_of_gt (Nat.lt_of_lt_of_le (by decide) above)) (by decide)
  unfold pmmAllocPages
  rw [if_neg (Nat.ne_of_gt some_), Option.orElse_eq_orElse, Option.orElse_eq_or]
  cases first : searchRun s.frameBitmap count s.frameCount s.lastAllocHint with
  | some frame =>
    obtain ⟨low, high, free⟩ := searchRun_spec _ _ _ _ first
    have above := Nat.le_trans sound.above low
    exact Or.inr ⟨address above, frame, ⟨some_, above, high, free⟩, Or.inl low⟩
  | none =>
    cases second : searchRun s.frameBitmap count s.lastAllocHint lowFrames with
    | some frame =>
      obtain ⟨low, high, free⟩ := searchRun_spec _ _ _ _ second
      exact Or.inr ⟨address low, frame, ⟨some_, low, Nat.le_trans high sound.below, free⟩, Or.inr high⟩
    | none => exact Or.inl ⟨rfl, rfl, rfl⟩

theorem allocPages_fails_iff (sound : PmmSound s) {count : Nat} (some_ : 0 < count) : (pmmAllocPages s count).1 = 0 ↔
    ∀ first, Available s first count → first < s.lastAllocHint ∧ s.lastAllocHint < first + count := by
  rcases allocPages_search sound some_ with ⟨fails, upper, lower⟩ | ⟨finds, frame, available, side⟩
  · refine ⟨fun _ first available => ?_, fun _ => fails⟩
    constructor
    · apply Nat.lt_of_not_le
      intro after
      obtain ⟨j, low, high, taken⟩ := searchRun_none some_ upper first after available.below
      exact Bool.false_ne_true ((available.free j low high).symm.trans taken)
    · apply Nat.lt_of_not_le
      intro before
      obtain ⟨j, low, high, taken⟩ := searchRun_none some_ lower first available.above before
      exact Bool.false_ne_true ((available.free j low high).symm.trans taken)
  · refine ⟨fun fails => absurd fails finds, fun across => ?_⟩
    have both := across frame available
    omega

end Allocation

/-- Any call of the allocator. Callers free what they were given, and no request is
so long that a frame number plus its length wraps. -/
def Ledger.Permits (l : Ledger) : PmmOp → Prop
  | .allocPage => True
  | .allocPages count => l.pmm.frameCount + count < 2 ^ 64
  | .freePage addr => HandedOut l addr 1
  | .freePages addr count => HandedOut l addr count
  | .reserveRegion base length => base < 2 ^ 64 ∧ length < 2 ^ 64

def CallStep (l m : Ledger) : Prop := ∃ op, l.Permits op ∧ m = l.perform op

theorem calls_sound {l : Ledger} (reached : Reachable LedgerStart CallStep l) : LedgerSound l := by
  apply reached.induct LedgerSound
  · intro l start
    exact ledger_sound (.start start)
  · rintro l m sound ⟨op, permitted, rfl⟩
    cases op with
    | allocPage => exact recordAlloc_sound sound 1
    | allocPages count => exact recordAlloc_sound sound count
    | freePage addr => exact recordFree_sound sound permitted
    | freePages addr count => exact recordFree_sound sound permitted
    | reserveRegion base length => exact recordReserve_sound sound base length

/-- An allocation fails only for want of a run. -/
def Complete (s : Pmm) (count : Nat) : Prop := (pmmAllocPages s count).1 = 0 → ¬ ∃ first, Available s first count

/-- Where some run of count frames is free, one of them does not lie across the hint. -/
def Unsplit (s : Pmm) (count : Nat) : Prop := (∃ first, Available s first count) →
  ∃ first, Available s first count ∧ (first + count ≤ s.lastAllocHint ∨ s.lastAllocHint ≤ first)

/-- After any run of calls an allocation misses exactly the runs across the hint. -/
theorem alloc_complete_iff {l : Ledger} (reached : Reachable LedgerStart CallStep l) {count : Nat} (some_ : 1 ≤ count)
    (_ : count ≤ 2 ^ 32) : Complete l.pmm count ↔ Unsplit l.pmm count := by
  have fails_iff := allocPages_fails_iff (calls_sound reached).pmm some_
  constructor
  · rintro complete whole
    by_contra split
    refine complete (fails_iff.mpr fun first available => ?_) whole
    have neither : ¬ (first + count ≤ l.pmm.lastAllocHint ∨ l.pmm.lastAllocHint ≤ first) :=
      fun side => split ⟨first, available, side⟩
    omega
  · rintro unsplit fails whole
    obtain ⟨first, available, side⟩ := unsplit whole
    have across := fails_iff.mp fails first available
    omega

theorem alloc_complete_after_boot : ∃ s, pmmInit smallBoot = some s ∧
    (Complete (pmmAllocPages s 3).2 2 ↔ Unsplit (pmmAllocPages s 3).2 2) := by
  have boots : (pmmInit smallBoot).isSome = true := by decide
  obtain ⟨s, start⟩ := Option.isSome_iff_exists.mp boots
  have first : Reachable LedgerStart CallStep { pmm := s, handed := [], live := [] } :=
    .start ⟨⟨smallBoot, start⟩, rfl, rfl⟩
  have narrow := (pmmInit_sound start).narrow
  have permitted : Ledger.Permits { pmm := s, handed := [], live := [] } (.allocPages 3) := by
    change s.frameCount + 3 < 2 ^ 64
    omega
  have next := @alloc_complete_iff _ (.next first ⟨.allocPages 3, permitted, rfl⟩) 2 (by decide) (by decide)
  have same : (Ledger.perform { pmm := s, handed := [], live := [] } (.allocPages 3)).pmm = (pmmAllocPages s 3).2 := by
    change (recordAlloc _ _ _).pmm = _
    unfold recordAlloc
    split <;> rfl
  exact ⟨s, start, same ▸ next⟩

section Twins

/-- Two allocators that agree on the frames they track. What the rest of the bitmap
holds decides nothing. -/
structure Alike (s t : Pmm) : Prop where
  frames : s.frameCount = t.frameCount
  hint : s.lastAllocHint = t.lastAllocHint
  tests : ∀ j < s.frameCount, s.frameBitmap.test j = t.frameBitmap.test j

variable {s t : Pmm}

theorem freeRun_congr {b c : Bitmap} {limit : Nat} (tests : ∀ j < limit, b.test j = c.test j) {frame count : Nat}
    (inside : frame + count ≤ limit) : freeRun b frame count = freeRun c frame count := by
  induction count generalizing frame with
  | zero => rfl
  | succ count ih =>
    unfold freeRun
    rw [tests frame (by omega), ih (by omega)]

theorem searchRun_congr {b c : Bitmap} {limit : Nat} (tests : ∀ j < limit, b.test j = c.test j) {count : Nat} (some_ : 0 < count)
    (frame : Nat) : searchRun b count limit frame = searchRun c count limit frame := by
  induction frame using searchRun.induct b count limit with
  | case1 frame inside taken ih =>
    have taken' := (tests frame (by omega)).symm.trans taken
    unfold searchRun
    simp only [inside, taken, taken', if_true]
    exact ih
  | case2 frame inside free whole =>
    have free' : ¬ c.test frame = true := tests frame (by omega) ▸ free
    have whole' := (freeRun_congr tests inside).symm.trans whole
    unfold searchRun
    simp only [inside, free, free', whole, whole', if_true, Bool.false_eq_true, if_false]
  | case3 frame inside free short ih =>
    have free' : ¬ c.test frame = true := tests frame (by omega) ▸ free
    have same := freeRun_congr tests inside
    unfold searchRun
    simp only [inside, free, free', ← same, short, if_true, if_false]
    exact ih
  | case4 frame outside =>
    unfold searchRun
    simp only [outside, if_false]

theorem allocPages_alike (sound : PmmSound s) (alike : Alike s t) (count : Nat) :
    (pmmAllocPages s count).1 = (pmmAllocPages t count).1 ∧ Alike (pmmAllocPages s count).2 (pmmAllocPages t count).2 := by
  rcases Nat.eq_zero_or_pos count with rfl | some_
  · exact ⟨rfl, alike⟩
  · have upper := searchRun_congr alike.tests some_ s.lastAllocHint
    have lower := @searchRun_congr _ _ s.lastAllocHint (fun j less => alike.tests j (Nat.lt_of_lt_of_le less sound.below)) _ some_ lowFrames
    unfold pmmAllocPages
    rw [if_neg (Nat.ne_of_gt some_), if_neg (Nat.ne_of_gt some_), ← alike.frames, ← alike.hint, ← upper, ← lower]
    split
    · exact ⟨rfl, alike⟩
    · refine ⟨rfl, rfl, rfl, fun j low => ?_⟩
      change (s.frameBitmap.setRun _ _).test j = (t.frameBitmap.setRun _ _).test j
      rw [Bitmap.test_setRun, Bitmap.test_setRun, alike.tests j low]

theorem freePages_alike (alike : Alike s t) (addr count : Nat) :
    Alike (pmmFreePages s addr count) (pmmFreePages t addr count) := by
  rcases Nat.eq_zero_or_pos addr with rfl | some_
  · exact alike
  · refine ⟨?_, ?_, fun j low => ?_⟩
    · rw [freePages_frames, freePages_frames, alike.frames]
    · unfold pmmFreePages
      split
      · exact alike.hint
      · dsimp only
        rw [alike.hint]
    · rw [freePages_frames] at low
      rw [freePages_test (Nat.ne_of_gt some_), freePages_test (Nat.ne_of_gt some_), ← alike.frames, alike.tests j low]

theorem reserveRegion_alike (alike : Alike s t) (base length : Nat) :
    Alike (pmmReserveRegion s base length) (pmmReserveRegion t base length) := by
  unfold pmmReserveRegion
  split
  · exact alike
  · have same (first last : Nat) : tracked s first last = tracked t first last := by
      unfold tracked
      rw [alike.frames]
    have bounds {u : Pmm} (frames : List Nat) := foldl_bounds reserveFrame_bounds frames u
    refine ⟨?_, ?_, fun j low => ?_⟩
    · exact (congrArg Prod.fst (bounds _)).trans (alike.frames.trans (congrArg Prod.fst (bounds _)).symm)
    · exact (congrArg Prod.snd (bounds _)).trans (alike.hint.trans (congrArg Prod.snd (bounds _)).symm)
    · have inside : j < s.frameCount := Nat.lt_of_lt_of_eq low (congrArg Prod.fst (bounds _))
      rw [foldl_reserve_test, foldl_reserve_test, same, alike.tests j inside]

/-- Ledgers of such allocators with the same runs handed out. -/
structure Twins (l m : Ledger) : Prop where
  pmm : Alike l.pmm m.pmm
  handed : l.handed = m.handed

instance (l : Ledger) (addr count : Nat) : Decidable (HandedOut l addr count) :=
  inferInstanceAs (Decidable (∃ run ∈ l.handed, _))

instance (l : Ledger) : (op : PmmOp) → Decidable (l.Permits op)
  | .allocPage => .isTrue trivial
  | .allocPages count => inferInstanceAs (Decidable (l.pmm.frameCount + count < 2 ^ 64))
  | .freePage addr => inferInstanceAs (Decidable (HandedOut l addr 1))
  | .freePages addr count => inferInstanceAs (Decidable (HandedOut l addr count))
  | .reserveRegion base length => inferInstanceAs (Decidable (base < 2 ^ 64 ∧ length < 2 ^ 64))

theorem recordAlloc_twins {l m : Ledger} (sound : LedgerSound l) (twins : Twins l m) (count : Nat) :
    Twins (recordAlloc l count (pmmAllocPages l.pmm count)) (recordAlloc m count (pmmAllocPages m.pmm count)) := by
  obtain ⟨address, alike⟩ := allocPages_alike sound.pmm twins.pmm count
  unfold recordAlloc
  rw [address]
  split
  · exact ⟨alike, twins.handed⟩
  · refine ⟨alike, ?_⟩
    change _ :: l.handed = _ :: m.handed
    rw [twins.handed]

theorem perform_twins {l m : Ledger} (sound : LedgerSound l) (twins : Twins l m) (op : PmmOp) :
    Twins (l.perform op) (m.perform op) := by
  cases op with
  | allocPage => exact recordAlloc_twins sound twins 1
  | allocPages count => exact recordAlloc_twins sound twins count
  | freePage addr => exact ⟨freePages_alike twins.pmm addr 1, twins.handed⟩
  | freePages addr count => exact ⟨freePages_alike twins.pmm addr count, twins.handed⟩
  | reserveRegion base length => exact ⟨reserveRegion_alike twins.pmm base length, twins.handed⟩

theorem permits_twins {l m : Ledger} (twins : Twins l m) {op : PmmOp} (permitted : m.Permits op) : l.Permits op := by
  cases op with
  | allocPages count =>
    change l.pmm.frameCount + count < 2 ^ 64
    rw [twins.pmm.frames]
    exact permitted
  | freePage addr =>
    unfold Ledger.Permits HandedOut at permitted ⊢
    rw [twins.handed]
    exact permitted
  | freePages addr count =>
    unfold Ledger.Permits HandedOut at permitted ⊢
    rw [twins.handed]
    exact permitted
  | _ => exact permitted

/-- Calls that each find what they free handed out. -/
def Runnable (l : Ledger) : List PmmOp → Prop
  | [] => True
  | op :: ops => l.Permits op ∧ Runnable (l.perform op) ops

instance runnableDecidable (l : Ledger) : (ops : List PmmOp) → Decidable (Runnable l ops)
  | [] => .isTrue trivial
  | op :: ops =>
    have := runnableDecidable (l.perform op) ops
    inferInstanceAs (Decidable (l.Permits op ∧ Runnable (l.perform op) ops))

theorem runnable_twins {l m : Ledger} (reached : Reachable LedgerStart CallStep l) (twins : Twins l m) {ops : List PmmOp}
    (runnable : Runnable m ops) :
    Reachable LedgerStart CallStep (ops.foldl Ledger.perform l) ∧ Twins (ops.foldl Ledger.perform l) (ops.foldl Ledger.perform m) := by
  induction ops generalizing l m with
  | nil => exact ⟨reached, twins⟩
  | cons op ops ih =>
    have next : Reachable LedgerStart CallStep (l.perform op) := .next reached ⟨op, permits_twins twins runnable.1, rfl⟩
    exact ih next (perform_twins (calls_sound reached) twins op) runnable.2

end Twins

/-- A machine with six frames above the first MiB, one of them the kernel's and one the bitmap's. -/
def tinyBoot : BootInfo := { smallBoot with mmap := [{ base := 0, length := 0x106000, type := memUsable }] }

/-- What its allocator starts with. -/
def tinyLedger : Ledger where
  pmm :=
    { frameBitmap := fun byte => if byte = 32 then 0b11000011#8 else 0xFF#8
      frameCount := 262
      usedFrames := 258
      lastAllocHint := 256 }
  handed := []
  live := []

/-- Frames 258 and 259 are taken one at a time, then 260 and 261 together. The first and the
pair are freed, the pair is taken again, and the second is freed. -/
def tinyCalls : List PmmOp :=
  [.allocPages 1, .allocPages 1, .allocPages 2, .freePages (258 * 4096) 1, .freePages (260 * 4096) 2, .allocPages 2,
    .freePages (259 * 4096) 1]

theorem alloc_misses_split_run : ∃ l, Reachable LedgerStart CallStep l ∧ ¬ Complete l.pmm 2 := by
  have placed : bitmapPhys tinyBoot ≠ 0 := by decide
  obtain ⟨s, start⟩ := pmmInit_boots placed
  obtain ⟨frames, free⟩ := pmmInit_free start
  have count : s.frameCount = 262 := by
    rw [frames]
    decide
  have bits : ∀ j < 262, tinyLedger.pmm.frameBitmap.test j = false ↔
      (∃ e ∈ tinyBoot.mmap, Released e j) ∧ ¬ Reserved tinyBoot j := by
    decide +kernel
  have alike : Alike s tinyLedger.pmm := by
    refine ⟨count, pmmInit_hint start, fun j low => ?_⟩
    have same := (free j low).trans (bits j (count ▸ low)).symm
    cases h : s.frameBitmap.test j with
    | false => exact (same.mp h).symm
    | true =>
      have taken : ¬ tinyLedger.pmm.frameBitmap.test j = false := fun isFree => Bool.false_ne_true ((same.mpr isFree).symm.trans h)
      exact (Bool.eq_true_of_not_eq_false taken).symm
  obtain ⟨reached, twins⟩ := @runnable_twins { pmm := s, handed := [], live := [] } tinyLedger
    (.start ⟨⟨tinyBoot, start⟩, rfl, rfl⟩) ⟨alike, rfl⟩ tinyCalls (by decide +kernel)
  refine ⟨_, reached, fun complete => ?_⟩
  have fails : (pmmAllocPages (tinyCalls.foldl Ledger.perform tinyLedger).pmm 2).1 = 0 := by decide +kernel
  have same := (allocPages_alike (calls_sound reached).pmm twins.pmm 2).1
  apply complete (same.trans fails)
  have tracked : (tinyCalls.foldl Ledger.perform tinyLedger).pmm.frameCount = 262 := by decide +kernel
  have freed : ∀ j < 260, 258 ≤ j → (tinyCalls.foldl Ledger.perform tinyLedger).pmm.frameBitmap.test j = false := by decide +kernel
  refine ⟨258, by decide, by decide, ?_, fun j low high => ?_⟩
  · rw [twins.pmm.frames, tracked]
    decide
  · have inside : j < (tinyCalls.foldl Ledger.perform { pmm := s, handed := [], live := [] }).pmm.frameCount := by
      rw [twins.pmm.frames, tracked]
      omega
    rw [twins.pmm.tests j inside]
    exact freed j high low

end Qito.Mm
