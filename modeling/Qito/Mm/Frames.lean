import Qito.Lib.Runs
import Qito.Mm.Pmm
import Mathlib.Data.Finset.Basic
import Mathlib.Order.Interval.Finset.Nat

/-! Runs of the physical memory manager: the counter, the runs handed out and
the search hint agree with the bitmap after every sequence of calls. -/
namespace Qito.Mm
open Words Bitmaps Runs

section Loops
variable {s : Pmm}

/-- used_frames counts the set bits. -/
def Counted (s : Pmm) : Prop := s.usedFrames = s.frameBitmap.count s.frameCount

/-- The fields the loops over frames leave alone. -/
def Pmm.bounds (s : Pmm) : Nat × Nat := (s.frameCount, s.lastAllocHint)

theorem reserveFrame_bounds (s : Pmm) (frame : Nat) : (reserveFrame s frame).bounds = s.bounds := by
  unfold reserveFrame
  split <;> rfl

theorem releaseFrame_bounds (s : Pmm) (frame : Nat) : (releaseFrame s frame).bounds = s.bounds := by
  unfold releaseFrame
  split <;> rfl

theorem reserveFrame_counted {frame : Nat} (counted : Counted s) (low : frame < s.frameCount) :
    Counted (reserveFrame s frame) := by
  unfold reserveFrame
  split
  · exact counted
  · rename_i free
    unfold Counted
    rw [Bitmap.count_set low (by simpa using free), counted]

theorem releaseFrame_counted {frame : Nat} (counted : Counted s) (low : frame < s.frameCount) :
    Counted (releaseFrame s frame) := by
  unfold releaseFrame
  split
  · rename_i taken
    have less := Bitmap.count_clear low taken
    unfold Counted at counted ⊢
    change s.usedFrames - 1 = (s.frameBitmap.clear frame).count s.frameCount
    omega
  · exact counted

theorem reserveFrame_test (s : Pmm) (frame j : Nat) :
    (reserveFrame s frame).frameBitmap.test j = (decide (j = frame) || s.frameBitmap.test j) := by
  unfold reserveFrame
  split
  · rename_i taken
    by_cases same : j = frame
    · simp [same, taken]
    · simp [same]
  · exact Bitmap.test_set _ _ _

theorem releaseFrame_test (s : Pmm) (frame j : Nat) :
    (releaseFrame s frame).frameBitmap.test j = (!decide (j = frame) && s.frameBitmap.test j) := by
  unfold releaseFrame
  split
  · exact Bitmap.test_clear _ _ _
  · rename_i free
    by_cases same : j = frame
    · simpa [same] using free
    · simp [same]

theorem foldl_bounds {f : Pmm → Nat → Pmm} (bounds : ∀ s frame, (f s frame).bounds = s.bounds) (frames : List Nat) (s : Pmm) :
    (frames.foldl f s).bounds = s.bounds := by
  induction frames generalizing s with
  | nil => rfl
  | cons frame rest ih => exact (ih (f s frame)).trans (bounds s frame)

theorem foldl_counted {f : Pmm → Nat → Pmm} (bounds : ∀ s frame, (f s frame).bounds = s.bounds)
    (keeps : ∀ s frame, Counted s → frame < s.frameCount → Counted (f s frame)) (frames : List Nat) (counted : Counted s)
    (low : ∀ frame ∈ frames, frame < s.frameCount) : Counted (frames.foldl f s) ∧ (frames.foldl f s).bounds = s.bounds := by
  refine ⟨?_, foldl_bounds bounds frames s⟩
  induction frames generalizing s with
  | nil => exact counted
  | cons frame rest ih =>
    have here := keeps s frame counted (low frame List.mem_cons_self)
    have count : (f s frame).frameCount = s.frameCount := congrArg Prod.fst (bounds s frame)
    apply ih here
    intro g member
    rw [count]
    exact low g (List.mem_cons_of_mem _ member)

theorem foldl_release_test (frames : List Nat) (s : Pmm) (j : Nat) :
    (frames.foldl releaseFrame s).frameBitmap.test j = (!decide (j ∈ frames) && s.frameBitmap.test j) := by
  induction frames generalizing s with
  | nil => simp
  | cons frame rest ih =>
    rw [List.foldl_cons, ih, releaseFrame_test, ← Bool.and_assoc, ← Bool.not_or, ← Bool.decide_or]
    simp only [List.mem_cons, or_comm]

theorem foldl_reserve_test (frames : List Nat) (s : Pmm) (j : Nat) :
    (frames.foldl reserveFrame s).frameBitmap.test j = (decide (j ∈ frames) || s.frameBitmap.test j) := by
  induction frames generalizing s with
  | nil => simp
  | cons frame rest ih =>
    rw [List.foldl_cons, ih, reserveFrame_test, ← Bool.or_assoc, ← Bool.decide_or]
    simp only [List.mem_cons, or_comm]

theorem mem_tracked {first last frame : Nat} :
    frame ∈ tracked s first last ↔ first ≤ frame ∧ frame < last ∧ frame < s.frameCount := by
  rw [tracked, List.mem_range'_1]
  omega

theorem tracked_low {first last frame : Nat} (member : frame ∈ tracked s first last) : frame < s.frameCount :=
  (mem_tracked.mp member).2.2

end Loops

/-- What holds between calls: the counter is right and the hint in range, the
first MiB is taken, and the frames lie below 4 GiB. -/
structure PmmSound (s : Pmm) : Prop where
  counted : Counted s
  above : lowFrames ≤ s.lastAllocHint
  below : s.lastAllocHint ≤ s.frameCount
  narrow : s.frameCount ≤ 2 ^ 20
  low : ∀ frame, frame < lowFrames → s.frameBitmap.test frame = true

section Start
variable {boot : BootInfo} {s : Pmm}

theorem reserveRegion_counted (base length : Nat) (counted : Counted s) :
    Counted (pmmReserveRegion s base length) ∧ (pmmReserveRegion s base length).bounds = s.bounds := by
  unfold pmmReserveRegion
  split
  · exact ⟨counted, rfl⟩
  · exact foldl_counted reserveFrame_bounds (fun _ _ => reserveFrame_counted) _ counted fun _ => tracked_low

theorem reserveRegion_test (s : Pmm) (base length j : Nat) (taken : s.frameBitmap.test j = true) :
    (pmmReserveRegion s base length).frameBitmap.test j = true := by
  unfold pmmReserveRegion
  split
  · exact taken
  · rw [foldl_reserve_test, taken, Bool.or_true]

theorem reserveLow_test (s : Pmm) {frame : Nat} (first : frame < lowFrames) (low : frame < s.frameCount) :
    (pmmReserveRegion s 0 0x100000).frameBitmap.test frame = true := by
  have inside : frame ∈ tracked s (0 / pageSize) (wrap64 (0 + 0x100000 + pageSize - 1) / pageSize) := by
    refine mem_tracked.mpr ⟨by simp, ?_, low⟩
    exact first
  unfold pmmReserveRegion
  rw [if_neg (by decide), foldl_reserve_test, decide_eq_true inside, Bool.true_or]

theorem reserveRamdisk_test (boot : BootInfo) {s : Pmm} {j : Nat} (taken : s.frameBitmap.test j = true) :
    (reserveRamdisk boot s).frameBitmap.test j = true := by
  unfold reserveRamdisk
  split
  · exact reserveRegion_test _ _ _ _ taken
  · exact taken

theorem reserveFramebuffer_test (boot : BootInfo) {s : Pmm} {j : Nat} (taken : s.frameBitmap.test j = true) :
    (reserveFramebuffer boot s).frameBitmap.test j = true := by
  unfold reserveFramebuffer
  split
  · exact reserveRegion_test _ _ _ _ taken
  · exact taken

theorem releaseRegion_counted (e : MmapEntry) (counted : Counted s) :
    Counted (releaseRegion s e) ∧ (releaseRegion s e).bounds = s.bounds := by
  unfold releaseRegion
  split
  · exact foldl_counted releaseFrame_bounds (fun _ _ => releaseFrame_counted) _ counted fun _ => tracked_low
  · exact ⟨counted, rfl⟩

theorem releaseRegions_counted (mmap : List MmapEntry) (counted : Counted s) :
    Counted (mmap.foldl releaseRegion s) ∧ (mmap.foldl releaseRegion s).bounds = s.bounds := by
  induction mmap generalizing s with
  | nil => exact ⟨counted, rfl⟩
  | cons e rest ih =>
    obtain ⟨here, same⟩ := releaseRegion_counted e counted
    obtain ⟨counted', same'⟩ := ih here
    exact ⟨counted', same'.trans same⟩

theorem allReserved_test (boot : BootInfo) {frame : Nat} (low : frame < frameCountOf boot) :
    (allReserved boot).frameBitmap.test frame = true := by
  have byte : frame / 8 < bitmapBytes boot := by
    unfold bitmapBytes
    omega
  have ones : ∀ k : Fin 8, (0xFF#8).getLsbD k.val = true := by decide
  rw [Bitmap.test_eq, allReserved]
  simp only [if_pos byte]
  exact ones ⟨frame % 8, Nat.mod_lt frame (by decide)⟩

theorem allReserved_counted (boot : BootInfo) : Counted (allReserved boot) :=
  (Nat.count_of_forall fun _ low => allReserved_test boot low).symm

theorem highestUsable_foldl (mmap : List MmapEntry) (start : Nat) :
    let highest := mmap.foldl (fun highest e => if e.type = memUsable ∧ regionEnd e > highest then regionEnd e else highest) start
    start ≤ highest ∧ ∀ e ∈ mmap, e.type = memUsable → regionEnd e ≤ highest := by
  induction mmap generalizing start with
  | nil => exact ⟨Nat.le_refl _, by simp⟩
  | cons e rest ih =>
    obtain ⟨above, all⟩ := ih (if e.type = memUsable ∧ regionEnd e > start then regionEnd e else start)
    refine ⟨?_, ?_⟩
    · refine Nat.le_trans ?_ above
      split <;> omega
    · intro r member usable
      rcases List.mem_cons.mp member with rfl | later
      · refine Nat.le_trans ?_ above
        split
        · exact Nat.le_refl _
        · rename_i low
          simp only [usable, true_and] at low
          omega
      · exact all r later usable

theorem alignUp_page (v : Nat) : alignUp v 4096 % 4096 = 0 ∧ alignUp v 4096 < 2 ^ 64 ∧
    (v < 2 ^ 64 → alignUp v 4096 = 0 ∨ v ≤ alignUp v 4096) := by
  have eq : alignUp v 4096 = wrap64 (v + 4096 - 1) / 4096 * 4096 := alignUp_eq (k := 12) (by decide)
  rw [eq, wrap64]
  omega

theorem bitmapBase_spec (boot : BootInfo) (e : MmapEntry) : bitmapBase boot e % 4096 = 0 ∧
    bitmapBase boot e < 2 ^ 64 ∧ (bitmapBase boot e = 0 ∨ 0x100000 ≤ bitmapBase boot e) := by
  have region := alignUp_page e.base
  have kernel := alignUp_page boot.kernelPhysEnd
  have disk := alignUp_page (ramdiskEnd boot)
  have bound : ramdiskEnd boot < 2 ^ 64 := wrap64_lt _
  simp only [bitmapBase, kernelEnd, pageSize]
  split <;> split <;> split <;> omega

theorem placeBitmap_spec (boot : BootInfo) (bytes : Nat) (mmap : List MmapEntry) (found : placeBitmap boot bytes mmap ≠ 0) :
    ∃ e ∈ mmap, placeBitmap boot bytes mmap = bitmapBase boot e ∧ e.type = memUsable ∧
      wrap64 (bitmapBase boot e + bytes) ≤ regionEnd e ∧ wrap64 (bitmapBase boot e + bytes) ≤ 0x100000000 := by
  induction mmap with
  | nil => exact absurd rfl found
  | cons e rest ih =>
    unfold placeBitmap at found ⊢
    split at found
    · rename_i fits
      exact ⟨e, List.mem_cons_self, if_pos fits, fits⟩
    · rename_i short
      obtain ⟨r, member, same, facts⟩ := ih found
      exact ⟨r, List.mem_cons_of_mem _ member, (if_neg short).trans same, facts⟩

theorem frameCountOf_low (found : placeBitmap boot (bitmapBytes boot) boot.mmap ≠ 0) : lowFrames ≤ frameCountOf boot := by
  obtain ⟨e, member, same, usable, fits, -⟩ := placeBitmap_spec boot _ boot.mmap found
  have some_ : bitmapBase boot e ≠ 0 := same ▸ found
  obtain ⟨whole, small, high⟩ := bitmapBase_spec boot e
  have top : regionEnd e ≤ highestUsable boot.mmap := (highestUsable_foldl boot.mmap 0).2 e member usable
  have count : frameCountOf boot = min (highestUsable boot.mmap) 4294967296 / 4096 := rfl
  have bytes : bitmapBytes boot = (frameCountOf boot + 7) / 8 := rfl
  change 256 ≤ frameCountOf boot
  by_cases wraps : bitmapBase boot e + bitmapBytes boot < 2 ^ 64
  · rw [wrap64_of_lt wraps] at fits
    omega
  · omega

theorem pmmInit_sound (start : pmmInit boot = some s) : PmmSound s := by
  unfold pmmInit at start
  simp only at start
  split at start
  · cases start
  · rename_i room
    have released := releaseRegions_counted boot.mmap (allReserved_counted boot)
    have low := reserveRegion_counted 0 0x100000 released.1
    have kernel := reserveRegion_counted boot.kernelPhysStart (sub64 (kernelEnd boot) boot.kernelPhysStart) low.1
    have bitmap := reserveRegion_counted (placeBitmap boot (bitmapBytes boot) boot.mmap) (bitmapBytes boot) kernel.1
    have ramdisk {t : Pmm} (counted : Counted t) : Counted (reserveRamdisk boot t) ∧ (reserveRamdisk boot t).bounds = t.bounds := by
      unfold reserveRamdisk
      split
      · exact reserveRegion_counted _ _ counted
      · exact ⟨counted, rfl⟩
    have framebuffer {t : Pmm} (counted : Counted t) :
        Counted (reserveFramebuffer boot t) ∧ (reserveFramebuffer boot t).bounds = t.bounds := by
      unfold reserveFramebuffer
      split
      · exact reserveRegion_counted _ _ counted
      · exact ⟨counted, rfl⟩
    have disk := ramdisk bitmap.1
    have tables := reserveRegion_counted 0x20000 (6 * pageSize) disk.1
    have screen := framebuffer tables.1
    have bounds := screen.2.trans (tables.2.trans (disk.2.trans (bitmap.2.trans (kernel.2.trans (low.2.trans released.2)))))
    cases Option.some.inj start
    have frames := congrArg Prod.fst bounds
    refine ⟨screen.1, Nat.le_refl _, ?_, ?_, fun frame first => ?_⟩
    · exact Nat.le_trans (frameCountOf_low room) (Nat.le_of_eq frames.symm)
    · refine Nat.le_trans (Nat.le_of_eq frames) ?_
      change min (highestUsable boot.mmap) 4294967296 / 4096 ≤ 2 ^ 20
      omega
    · have tracked : frame < (boot.mmap.foldl releaseRegion (allReserved boot)).frameCount := by
        refine Nat.lt_of_lt_of_le first (Nat.le_trans (frameCountOf_low room) ?_)
        exact Nat.le_of_eq (congrArg Prod.fst released.2).symm
      apply reserveFramebuffer_test
      apply reserveRegion_test
      apply reserveRamdisk_test
      apply reserveRegion_test
      apply reserveRegion_test
      exact reserveLow_test _ first tracked

end Start

section Calls
variable {s t : Pmm}

theorem freeRun_free {b : Bitmap} {frame count : Nat} (whole : freeRun b frame count = count) :
    ∀ j, frame ≤ j → j < frame + count → b.test j = false := by
  induction count generalizing frame with
  | zero =>
    intro j low high
    omega
  | succ count ih =>
    unfold freeRun at whole
    split at whole
    · cases whole
    · rename_i free
      intro j low high
      rcases Nat.eq_or_lt_of_le low with rfl | above
      · simpa using free
      · exact ih (Nat.succ.inj whole) j above (by omega)

theorem searchRun_spec (b : Bitmap) (count limit frame : Nat) {found : Nat}
    (run : searchRun b count limit frame = some found) :
    frame ≤ found ∧ found + count ≤ limit ∧ ∀ j, found ≤ j → j < found + count → b.test j = false := by
  induction frame using searchRun.induct b count limit with
  | case1 frame inside taken ih =>
    unfold searchRun at run
    simp only [inside, taken, if_true] at run
    obtain ⟨low, rest⟩ := ih run
    exact ⟨by omega, rest⟩
  | case2 frame inside free whole =>
    unfold searchRun at run
    simp only [inside, free, whole, if_true] at run
    cases run
    exact ⟨Nat.le_refl _, inside, freeRun_free whole⟩
  | case3 frame inside free short ih =>
    unfold searchRun at run
    simp only [inside, free, short, if_true, if_false] at run
    obtain ⟨low, rest⟩ := ih run
    exact ⟨by omega, rest⟩
  | case4 frame outside =>
    unfold searchRun at run
    simp only [outside, if_false] at run
    cases run

/-- The state after a run was handed out. -/
def handOut (s : Pmm) (frame count : Nat) : Pmm :=
  { s with
    frameBitmap := s.frameBitmap.setRun frame count
    usedFrames := s.usedFrames + count
    lastAllocHint := frame + count }

/-- A run that lies in the tracked frames above the first MiB, all of them free. -/
structure Available (s : Pmm) (frame count : Nat) : Prop where
  some_ : 0 < count
  above : lowFrames ≤ frame
  below : frame + count ≤ s.frameCount
  free : ∀ j, frame ≤ j → j < frame + count → s.frameBitmap.test j = false

theorem allocPages_cases (sound : PmmSound s) (count : Nat) : pmmAllocPages s count = (0, s) ∨
    ∃ frame, pmmAllocPages s count = (frame * pageSize, handOut s frame count) ∧ Available s frame count := by
  unfold pmmAllocPages
  split
  · exact Or.inl rfl
  · rename_i some_
    split
    · exact Or.inl rfl
    · rename_i frame found
      have pos := Nat.pos_of_ne_zero some_
      rw [Option.orElse_eq_orElse, Option.orElse_eq_or] at found
      refine Or.inr ⟨frame, rfl, ?_⟩
      rcases Option.or_eq_some_iff.mp found with first | ⟨-, second⟩
      · obtain ⟨low, high, free⟩ := searchRun_spec _ _ _ _ first
        exact ⟨pos, Nat.le_trans sound.above low, high, free⟩
      · obtain ⟨low, high, free⟩ := searchRun_spec _ _ _ _ second
        exact ⟨pos, low, Nat.le_trans high sound.below, free⟩

theorem handOut_sound {frame count : Nat} (sound : PmmSound s) (available : Available s frame count) :
    PmmSound (handOut s frame count) where
  counted := by
    unfold Counted handOut
    rw [Bitmap.count_setRun available.below available.free, sound.counted]
  above := Nat.le_trans available.above (Nat.le_add_right _ _)
  below := available.below
  narrow := sound.narrow
  low frame first := by
    unfold handOut
    rw [Bitmap.test_setRun, sound.low frame first, Bool.or_true]

theorem freePages_frames (s : Pmm) (addr count : Nat) : (pmmFreePages s addr count).frameCount = s.frameCount := by
  unfold pmmFreePages
  split
  · rfl
  · exact congrArg Prod.fst (foldl_bounds releaseFrame_bounds _ s)

theorem freePages_test {addr count : Nat} (some_ : addr ≠ 0) (j : Nat) : (pmmFreePages s addr count).frameBitmap.test j =
    (!decide (addr / pageSize ≤ j ∧ j < addr / pageSize + count ∧ j < s.frameCount) && s.frameBitmap.test j) := by
  unfold pmmFreePages
  split
  · rename_i nothing
    have none_ : count = 0 := nothing.resolve_left some_
    have outside : ¬ (addr / pageSize ≤ j ∧ j < addr / pageSize + count ∧ j < s.frameCount) := by omega
    rw [decide_eq_false outside, Bool.not_false, Bool.true_and]
  · change ((tracked s _ _).foldl releaseFrame s).frameBitmap.test j = _
    rw [foldl_release_test, decide_eq_decide.mpr mem_tracked]

theorem freePages_sound {addr count : Nat} (sound : PmmSound s) (high : lowFrames ≤ addr / pageSize) :
    PmmSound (pmmFreePages s addr count) := by
  unfold pmmFreePages
  split
  · exact sound
  · obtain ⟨counted, bounds⟩ := foldl_counted releaseFrame_bounds (fun _ _ => releaseFrame_counted)
      (tracked s (addr / pageSize) (addr / pageSize + count)) sound.counted fun _ => tracked_low
    have frames := congrArg Prod.fst bounds
    have below := sound.below
    have above := sound.above
    refine ⟨counted, ?_, ?_, Nat.le_trans (Nat.le_of_eq frames) sound.narrow, ?_⟩
    · change lowFrames ≤ if addr / pageSize < s.lastAllocHint then addr / pageSize else s.lastAllocHint
      split
      · exact high
      · exact above
    · change (if addr / pageSize < s.lastAllocHint then addr / pageSize else s.lastAllocHint) ≤ _
      refine Nat.le_trans ?_ (Nat.le_trans below (Nat.le_of_eq frames.symm))
      split
      · rename_i less
        exact Nat.le_of_lt less
      · exact Nat.le_refl _
    · intro frame first
      change ((tracked s _ _).foldl releaseFrame s).frameBitmap.test frame = true
      have outside : frame ∉ tracked s (addr / pageSize) (addr / pageSize + count) := by
        intro member
        have after := (mem_tracked.mp member).1
        omega
      rw [foldl_release_test, decide_eq_false outside, sound.low frame first]
      rfl

theorem freePages_handOut {frame count : Nat} (sound : PmmSound s) (available : Available s frame count) :
    (pmmFreePages (handOut s frame count) (frame * pageSize) count).frameBitmap = s.frameBitmap ∧
      (pmmFreePages (handOut s frame count) (frame * pageSize) count).usedFrames = s.usedFrames := by
  have above := available.above
  have some_ : frame * pageSize ≠ 0 := by
    change frame * 4096 ≠ 0
    have low : 256 ≤ frame := above
    omega
  have page : frame * pageSize / pageSize = frame := Nat.mul_div_cancel frame (by decide)
  have bitmap : (pmmFreePages (handOut s frame count) (frame * pageSize) count).frameBitmap = s.frameBitmap := by
    apply Bitmap.ext_test
    intro j
    rw [freePages_test some_, page]
    change (_ && (s.frameBitmap.setRun frame count).test j) = _
    rw [Bitmap.test_setRun]
    by_cases inside : frame ≤ j ∧ j < frame + count
    · have tracked : j < s.frameCount := Nat.lt_of_lt_of_le inside.2 available.below
      rw [decide_eq_true (show _ ∧ _ ∧ j < (handOut s frame count).frameCount from ⟨inside.1, inside.2, tracked⟩)]
      exact (available.free j inside.1 inside.2).symm
    · rw [decide_eq_false inside, decide_eq_false (fun whole => inside ⟨whole.1, whole.2.1⟩)]
      rfl
  refine ⟨bitmap, ?_⟩
  have sound' : PmmSound (pmmFreePages (handOut s frame count) (frame * pageSize) count) :=
    freePages_sound (handOut_sound sound available) (page.symm ▸ above)
  rw [sound'.counted, bitmap, freePages_frames, sound.counted]
  rfl

end Calls

/-- The allocator with what its callers were given: every run ever handed out,
and for each one the frames that were not freed since. -/
structure Ledger where
  pmm : Pmm
  handed : List (Nat × Nat)
  live : List (Finset Nat)

inductive PmmOp where
  | allocPage
  | allocPages (count : Nat)
  | freePage (addr : Nat)
  | freePages (addr count : Nat)
  | reserveRegion (base length : Nat)

def recordAlloc (l : Ledger) (count : Nat) (result : Nat × Pmm) : Ledger :=
  if result.1 = 0 then { l with pmm := result.2 }
  else
    { pmm := result.2
      handed := (result.1 / pageSize, count) :: l.handed
      live := Finset.Ico (result.1 / pageSize) (result.1 / pageSize + count) :: l.live }

def recordFree (l : Ledger) (addr count : Nat) (after : Pmm) : Ledger :=
  { l with
    pmm := after
    live := l.live.map fun run => run \ Finset.Ico (addr / pageSize) (addr / pageSize + count) }

def Ledger.perform (l : Ledger) : PmmOp → Ledger
  | .allocPage => recordAlloc l 1 (pmmAllocPage l.pmm)
  | .allocPages count => recordAlloc l count (pmmAllocPages l.pmm count)
  | .freePage addr => recordFree l addr 1 (pmmFreePage l.pmm addr)
  | .freePages addr count => recordFree l addr count (pmmFreePages l.pmm addr count)
  | .reserveRegion base length => { l with pmm := pmmReserveRegion l.pmm base length }

/-- A part of a run that was handed out. -/
def HandedOut (l : Ledger) (addr count : Nat) : Prop :=
  ∃ run ∈ l.handed, run.1 ≤ addr / pageSize ∧ addr / pageSize + count ≤ run.1 + run.2

/-- The callers' side: they free only what they were given, and ask for fewer than
2^32 pages at a time. -/
def Ledger.Allows (l : Ledger) : PmmOp → Prop
  | .allocPage => True
  | .allocPages count => count < 2 ^ 32
  | .freePage addr => HandedOut l addr 1
  | .freePages addr count => HandedOut l addr count
  | .reserveRegion base length => base + length < 2 ^ 64

def LedgerStart (l : Ledger) : Prop := (∃ boot, pmmInit boot = some l.pmm) ∧ l.handed = [] ∧ l.live = []

def LedgerStep (l m : Ledger) : Prop := ∃ op, l.Allows op ∧ m = l.perform op

structure LedgerSound (l : Ledger) : Prop where
  pmm : PmmSound l.pmm
  handed : ∀ run ∈ l.handed, lowFrames ≤ run.1
  taken : ∀ run ∈ l.live, ∀ frame ∈ run, l.pmm.frameBitmap.test frame = true
  apart : l.live.Pairwise Disjoint

section Ledger
variable {l : Ledger}

theorem recordAlloc_sound (sound : LedgerSound l) (count : Nat) :
    LedgerSound (recordAlloc l count (pmmAllocPages l.pmm count)) := by
  rcases allocPages_cases sound.pmm count with fails | ⟨frame, run, available⟩
  · rw [fails]
    exact sound
  · have above : 256 ≤ frame := available.above
    have some_ : frame * pageSize ≠ 0 := by
      change frame * 4096 ≠ 0
      omega
    have page : frame * pageSize / pageSize = frame := Nat.mul_div_cancel frame (by decide)
    rw [run, recordAlloc, if_neg some_]
    simp only [page]
    refine ⟨handOut_sound sound.pmm available, ?_, ?_, ?_⟩
    · intro r member
      rcases List.mem_cons.mp member with rfl | old
      · exact available.above
      · exact sound.handed r old
    · intro r member j inside
      change (l.pmm.frameBitmap.setRun frame count).test j = true
      rw [Bitmap.test_setRun]
      rcases List.mem_cons.mp member with rfl | old
      · rw [decide_eq_true (Finset.mem_Ico.mp inside), Bool.true_or]
      · rw [sound.taken r old j inside, Bool.or_true]
    · refine List.pairwise_cons.mpr ⟨fun r old => ?_, sound.apart⟩
      -- what is live has its bits set, and the new run had none set
      refine Finset.disjoint_left.mpr fun j new taken => ?_
      have bounds := Finset.mem_Ico.mp new
      exact Bool.false_ne_true ((available.free j bounds.1 bounds.2).symm.trans (sound.taken r old j taken))

theorem recordFree_sound {addr count : Nat} (sound : LedgerSound l) (given : HandedOut l addr count) :
    LedgerSound (recordFree l addr count (pmmFreePages l.pmm addr count)) := by
  obtain ⟨run, member, low, -⟩ := given
  have high : lowFrames ≤ addr / pageSize := Nat.le_trans (sound.handed run member) low
  have some_ : addr ≠ 0 := by
    rintro rfl
    exact absurd high (by decide)
  refine ⟨freePages_sound sound.pmm high, sound.handed, ?_, ?_⟩
  · intro r mapped j inside
    obtain ⟨old, before, rfl⟩ := List.mem_map.mp mapped
    obtain ⟨inOld, outside⟩ := Finset.mem_sdiff.mp inside
    have spared : ¬ (addr / pageSize ≤ j ∧ j < addr / pageSize + count ∧ j < l.pmm.frameCount) :=
      fun whole => outside (Finset.mem_Ico.mpr ⟨whole.1, whole.2.1⟩)
    change (pmmFreePages l.pmm addr count).frameBitmap.test j = true
    rw [freePages_test some_, decide_eq_false spared, sound.taken old before j inOld]
    rfl
  · refine List.pairwise_map.mpr (sound.apart.imp fun apart => ?_)
    exact apart.mono Finset.sdiff_subset Finset.sdiff_subset

theorem recordReserve_sound (sound : LedgerSound l) (base length : Nat) :
    LedgerSound { l with pmm := pmmReserveRegion l.pmm base length } := by
  obtain ⟨counted, bounds⟩ := reserveRegion_counted base length sound.pmm.counted
  refine ⟨⟨counted, ?_, ?_, ?_, ?_⟩, sound.handed, fun r member j inside => ?_, sound.apart⟩
  · exact Nat.le_trans sound.pmm.above (Nat.le_of_eq (congrArg Prod.snd bounds).symm)
  · have same : (pmmReserveRegion l.pmm base length).lastAllocHint ≤ (pmmReserveRegion l.pmm base length).frameCount := by
      have hint := congrArg Prod.snd bounds
      have frames := congrArg Prod.fst bounds
      have below := sound.pmm.below
      simp only [Pmm.bounds] at hint frames
      omega
    exact same
  · exact Nat.le_trans (Nat.le_of_eq (congrArg Prod.fst bounds)) sound.pmm.narrow
  · exact fun frame first => reserveRegion_test _ _ _ _ (sound.pmm.low frame first)
  · exact reserveRegion_test _ _ _ _ (sound.taken r member j inside)

theorem perform_sound {op : PmmOp} (sound : LedgerSound l) (allowed : l.Allows op) : LedgerSound (l.perform op) := by
  cases op with
  | allocPage => exact recordAlloc_sound sound 1
  | allocPages count => exact recordAlloc_sound sound count
  | freePage addr => exact recordFree_sound sound allowed
  | freePages addr count => exact recordFree_sound sound allowed
  | reserveRegion base length => exact recordReserve_sound sound base length

theorem ledger_sound (reached : Reachable LedgerStart LedgerStep l) : LedgerSound l := by
  refine reached.induct LedgerSound ?_ ?_
  · rintro l ⟨⟨boot, start⟩, handed, live⟩
    refine ⟨pmmInit_sound start, ?_, ?_, ?_⟩
    · simp [handed]
    · simp [live]
    · simp [live]
  · rintro l m sound ⟨op, allowed, rfl⟩
    exact perform_sound sound allowed

end Ledger

/-- What a successful allocation of count pages at addr does, and what freeing it
at once undoes. -/
structure Allocates (s t : Pmm) (count addr : Nat) : Prop where
  aligned : addr % pageSize = 0
  above : lowFrames ≤ addr / pageSize
  below : addr / pageSize + count ≤ s.frameCount
  before : ∀ j, addr / pageSize ≤ j → j < addr / pageSize + count → s.frameBitmap.test j = false
  after : ∀ j, t.frameBitmap.test j = (decide (addr / pageSize ≤ j ∧ j < addr / pageSize + count) || s.frameBitmap.test j)
  bitmapBack : (pmmFreePages t addr count).frameBitmap = s.frameBitmap
  usedBack : (pmmFreePages t addr count).usedFrames = s.usedFrames

/-- After any run the counter is the number of set bits and the live runs are
apart, and the next allocation takes free frames and no others. -/
theorem pmm_sound {l : Ledger} (reached : Reachable LedgerStart LedgerStep l) :
    l.pmm.usedFrames = l.pmm.frameBitmap.count l.pmm.frameCount ∧ l.live.Pairwise Disjoint ∧
      ∀ count addr t, count < 2 ^ 32 → pmmAllocPages l.pmm count = (addr, t) → addr ≠ 0 → Allocates l.pmm t count addr := by
  have sound := ledger_sound reached
  refine ⟨sound.pmm.counted, sound.apart, fun count addr t _ run success => ?_⟩
  rcases allocPages_cases sound.pmm count with fails | ⟨frame, found, available⟩
  · rw [fails] at run
    exact absurd (congrArg Prod.fst run).symm success
  · obtain ⟨rfl, rfl⟩ := Prod.mk.inj (found.symm.trans run)
    have page : frame * pageSize / pageSize = frame := Nat.mul_div_cancel frame (by decide)
    obtain ⟨bitmap, used⟩ := freePages_handOut sound.pmm available
    constructor
    · exact Nat.mul_mod_left frame pageSize
    · rw [page]
      exact available.above
    · rw [page]
      exact available.below
    · rw [page]
      exact available.free
    · rw [page]
      exact Bitmap.test_setRun _ _ _
    · exact bitmap
    · exact used

/-- A machine with 2 MiB of memory and a kernel of one page. -/
def smallBoot : BootInfo where
  mmap := [{ base := 0, length := 0x200000, type := memUsable }]
  ramdiskPhys := 0
  ramdiskSize := 0
  fbValid := false
  fbAddr := 0
  fbPitch := 0
  fbHeight := 0
  kernelPhysStart := 0x100000
  kernelPhysEnd := 0x101000

theorem pmm_sound_after_alloc : ∃ s, pmmInit smallBoot = some s ∧
    let l := Ledger.perform { pmm := s, handed := [], live := [] } (.allocPages 3)
    l.pmm.usedFrames = l.pmm.frameBitmap.count l.pmm.frameCount ∧ l.live.Pairwise Disjoint ∧
      ∀ count addr t, count < 2 ^ 32 → pmmAllocPages l.pmm count = (addr, t) → addr ≠ 0 → Allocates l.pmm t count addr := by
  have boots : (pmmInit smallBoot).isSome = true := by decide
  obtain ⟨s, start⟩ := Option.isSome_iff_exists.mp boots
  have first : Reachable LedgerStart LedgerStep { pmm := s, handed := [], live := [] } :=
    .start ⟨⟨smallBoot, start⟩, rfl, rfl⟩
  have allowed : Ledger.Allows { pmm := s, handed := [], live := [] } (.allocPages 3) := by
    change 3 < 2 ^ 32
    decide
  exact ⟨s, start, pmm_sound (.next first ⟨.allocPages 3, allowed, rfl⟩)⟩

end Qito.Mm
