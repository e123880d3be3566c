import Qito.Mm.Frames

/-! What pmm_init leaves free. Each loop over frames takes or releases a set of
them; the free frames are those that some loop released and none took. -/
namespace Qito.Mm
open Words Bitmaps Runs

/-- The loop of pmm_init over an entry releases the frame. -/
def Released (e : MmapEntry) (frame : Nat) : Prop :=
  e.type = memUsable ∧ alignUp e.base pageSize / pageSize ≤ frame ∧ frame < regionEnd e / pageSize

/-- pmm_reserve_region takes the frame. -/
@[grind =] def Taken (base length frame : Nat) : Prop :=
  length ≠ 0 ∧ base / pageSize ≤ frame ∧ frame < wrap64 (base + length + pageSize - 1) / pageSize

def bitmapPhys (boot : BootInfo) : Nat := placeBitmap boot (bitmapBytes boot) boot.mmap

@[grind =] def ramdiskTaken (boot : BootInfo) (frame : Nat) : Prop :=
  boot.ramdiskSize ≠ 0 ∧ Taken boot.ramdiskPhys boot.ramdiskSize frame

def framebufferTaken (boot : BootInfo) (frame : Nat) : Prop :=
  (boot.fbValid ∧ boot.fbAddr < min (highestUsable boot.mmap) 0x100000000) ∧ Taken boot.fbAddr (boot.fbPitch * boot.fbHeight) frame

/-- One of the reservations at the end of pmm_init takes the frame. -/
def Reserved (boot : BootInfo) (frame : Nat) : Prop :=
  Taken 0 0x100000 frame ∨ Taken boot.kernelPhysStart (sub64 (kernelEnd boot) boot.kernelPhysStart) frame ∨
    Taken (bitmapPhys boot) (bitmapBytes boot) frame ∨ ramdiskTaken boot frame ∨ Taken 0x20000 (6 * pageSize) frame ∨
    framebufferTaken boot frame

instance (e : MmapEntry) (frame : Nat) : Decidable (Released e frame) :=
  inferInstanceAs (Decidable (_ ∧ _ ∧ _))

instance (base length frame : Nat) : Decidable (Taken base length frame) :=
  inferInstanceAs (Decidable (_ ∧ _ ∧ _))

instance (boot : BootInfo) (frame : Nat) : Decidable (Reserved boot frame) :=
  inferInstanceAs (Decidable (_ ∨ _ ∨ _ ∨ (_ ∧ Taken _ _ _) ∨ _ ∨ (_ ∧ Taken _ _ _)))

section Loops
variable {s t u : Pmm} {P Q : Nat → Prop}

/-- Of the tracked frames, those of the set are taken and the others left. -/
structure Reserves (s t : Pmm) (P : Nat → Prop) : Prop where
  frames : t.frameCount = s.frameCount
  free : ∀ frame < s.frameCount, t.frameBitmap.test frame = false ↔ s.frameBitmap.test frame = false ∧ ¬ P frame

theorem Reserves.trans (first : Reserves s t P) (second : Reserves t u Q) : Reserves s u fun frame => P frame ∨ Q frame where
  frames := second.frames.trans first.frames
  free frame low := by
    rw [second.free frame (first.frames ▸ low), first.free frame low, and_assoc, not_or]

theorem reserveRegion_reserves (s : Pmm) (base length : Nat) : Reserves s (pmmReserveRegion s base length) (Taken base length) := by
  unfold pmmReserveRegion
  by_cases empty : length = 0
  · rw [if_pos empty]
    refine ⟨rfl, fun frame low => ?_⟩
    have spared : ¬ Taken base length frame := fun taken => taken.1 empty
    simp only [spared, not_false_eq_true, and_true]
  · rw [if_neg empty]
    refine ⟨congrArg Prod.fst (foldl_bounds reserveFrame_bounds _ s), fun frame low => ?_⟩
    rw [foldl_reserve_test, Bool.or_eq_false_iff, decide_eq_false_iff_not, mem_tracked, and_comm]
    unfold Taken
    simp only [empty, ne_eq, not_false_eq_true, true_and, low, and_true]

theorem reserveRamdisk_reserves (boot : BootInfo) (s : Pmm) : Reserves s (reserveRamdisk boot s) (ramdiskTaken boot) := by
  have region := reserveRegion_reserves s boot.ramdiskPhys boot.ramdiskSize
  unfold reserveRamdisk ramdiskTaken
  by_cases some_ : boot.ramdiskSize ≠ 0
  · rw [if_pos some_]
    simpa only [some_, ne_eq, not_false_eq_true, true_and] using region
  · rw [if_neg some_]
    exact ⟨rfl, fun frame low => by simp only [some_, false_and, not_false_eq_true, and_true]⟩

theorem reserveFramebuffer_reserves (boot : BootInfo) (s : Pmm) :
    Reserves s (reserveFramebuffer boot s) (framebufferTaken boot) := by
  have region := reserveRegion_reserves s boot.fbAddr (boot.fbPitch * boot.fbHeight)
  unfold reserveFramebuffer framebufferTaken
  by_cases inside : boot.fbValid ∧ boot.fbAddr < min (highestUsable boot.mmap) 0x100000000
  · rw [if_pos inside]
    exact ⟨region.frames, fun frame low => by simpa only [inside, true_and] using region.free frame low⟩
  · rw [if_neg inside]
    exact ⟨rfl, fun frame low => by simp only [inside, false_and, not_false_eq_true, and_true]⟩

theorem releaseRegion_free (s : Pmm) (e : MmapEntry) {frame : Nat} (low : frame < s.frameCount) :
    (releaseRegion s e).frameBitmap.test frame = false ↔ s.frameBitmap.test frame = false ∨ Released e frame := by
  unfold releaseRegion Released
  by_cases usable : e.type = memUsable
  · rw [if_pos usable, foldl_release_test, Bool.and_eq_false_iff, Bool.not_eq_false', decide_eq_true_iff, mem_tracked, or_comm]
    simp only [usable, true_and, low, and_true]
  · rw [if_neg usable]
    simp only [usable, false_and, or_false]

theorem releaseRegions_free (mmap : List MmapEntry) (s : Pmm) {frame : Nat} (low : frame < s.frameCount) :
    (mmap.foldl releaseRegion s).frameBitmap.test frame = false ↔
      s.frameBitmap.test frame = false ∨ ∃ e ∈ mmap, Released e frame := by
  induction mmap generalizing s with
  | nil => simp
  | cons e rest ih =>
    have count : (releaseRegion s e).frameCount = s.frameCount := by
      unfold releaseRegion
      split
      · exact congrArg Prod.fst (foldl_bounds releaseFrame_bounds _ s)
      · rfl
    rw [List.foldl_cons, ih _ (count ▸ low), releaseRegion_free s e low, or_assoc]
    simp only [List.mem_cons, exists_eq_or_imp]

theorem released_frames (boot : BootInfo) :
    (boot.mmap.foldl releaseRegion (allReserved boot)).frameCount = frameCountOf boot :=
  congrArg Prod.fst (releaseRegions_counted boot.mmap (allReserved_counted boot)).2

theorem pmmInit_free {boot : BootInfo} (start : pmmInit boot = some s) : s.frameCount = frameCountOf boot ∧
    ∀ frame < s.frameCount, s.frameBitmap.test frame = false ↔ (∃ e ∈ boot.mmap, Released e frame) ∧ ¬ Reserved boot frame := by
  unfold pmmInit at start
  simp only at start
  split at start
  · cases start
  · cases Option.some.inj start
    have low := reserveRegion_reserves (boot.mmap.foldl releaseRegion (allReserved boot)) 0 0x100000
    have kernel := reserveRegion_reserves (pmmReserveRegion (boot.mmap.foldl releaseRegion (allReserved boot)) 0 0x100000)
      boot.kernelPhysStart (sub64 (kernelEnd boot) boot.kernelPhysStart)
    have all := low.trans (kernel.trans ((reserveRegion_reserves _ (bitmapPhys boot) (bitmapBytes boot)).trans
      ((reserveRamdisk_reserves boot _).trans ((reserveRegion_reserves _ 0x20000 (6 * pageSize)).trans
        (reserveFramebuffer_reserves boot _)))))
    have frames := all.frames.trans (released_frames boot)
    refine ⟨frames, fun frame inside => ?_⟩
    have tracked : frame < frameCountOf boot := Nat.lt_of_lt_of_le inside (Nat.le_of_eq frames)
    have taken : ¬ (allReserved boot).frameBitmap.test frame = false := by
      rw [allReserved_test boot tracked]
      decide
    have free := all.free frame ((released_frames boot).symm ▸ tracked)
    rw [releaseRegions_free boot.mmap (allReserved boot) tracked, or_iff_right taken] at free
    exact free

end Loops

section Ranges
variable {boot : BootInfo} {s : Pmm} {frame : Nat}

/-- Some byte of the frame lies in the range. -/
def Meets (frame base length : Nat) : Prop :=
  ∃ a, frame * pageSize ≤ a ∧ a < (frame + 1) * pageSize ∧ base ≤ a ∧ a < base + length

/-- Every byte of the frame lies in the entry. -/
def Within (frame : Nat) (e : MmapEntry) : Prop := e.base ≤ frame * pageSize ∧ (frame + 1) * pageSize ≤ e.base + e.length

/-- A byte of the frame is not to be handed out. -/
def Withheld (boot : BootInfo) (frame : Nat) : Prop :=
  Meets frame 0 0x100000 ∨ Meets frame boot.kernelPhysStart (boot.kernelPhysEnd - boot.kernelPhysStart) ∨
    Meets frame (bitmapPhys boot) (bitmapBytes boot) ∨ Meets frame boot.ramdiskPhys boot.ramdiskSize ∨
    Meets frame 0x20000 (6 * pageSize) ∨ (boot.fbValid ∧ Meets frame boot.fbAddr (boot.fbPitch * boot.fbHeight))

/-- The ranges do not wrap, the kernel has some bytes, and the fields of the
framebuffer have the widths of boot/bootinfo.h. -/
structure NonWrapping (boot : BootInfo) : Prop where
  entries : ∀ e ∈ boot.mmap, e.base + e.length < 2 ^ 64
  kernel : boot.kernelPhysStart < boot.kernelPhysEnd ∧ boot.kernelPhysEnd < 2 ^ 64
  ramdisk : boot.ramdiskPhys + boot.ramdiskSize < 2 ^ 64
  framebuffer : boot.fbAddr + boot.fbPitch * boot.fbHeight < 2 ^ 64
  pitch : boot.fbPitch < 2 ^ 32
  height : boot.fbHeight < 2 ^ 16

/-- No range reaches so near to the end of the address space that rounding it to
pages wraps. -/
structure Rounds (boot : BootInfo) : Prop where
  entries : ∀ e ∈ boot.mmap, e.type = memUsable → e.base + pageSize ≤ 2 ^ 64
  kernel : boot.kernelPhysEnd + pageSize ≤ 2 ^ 64
  ramdisk : boot.ramdiskSize ≠ 0 → boot.ramdiskPhys + boot.ramdiskSize + pageSize ≤ 2 ^ 64
  bitmap : bitmapPhys boot + bitmapBytes boot < 2 ^ 64

theorem meets_iff (frame base length : Nat) :
    Meets frame base length ↔ base < (frame + 1) * pageSize ∧ frame * pageSize < base + length ∧ 0 < length := by
  constructor
  · rintro ⟨a, low, high, after, before⟩
    omega
  · rintro ⟨low, high, some_⟩
    by_cases first : base ≤ frame * pageSize
    · exact ⟨frame * pageSize, Nat.le_refl _, by change _ < (frame + 1) * 4096; change _ * 4096 < _; omega, first, high⟩
    · exact ⟨base, by omega, low, Nat.le_refl _, by omega⟩

theorem alignUp_small {v : Nat} (small : v + pageSize ≤ 2 ^ 64) : alignUp v pageSize = (v + 4095) / 4096 * 4096 := by
  have eq : alignUp v 4096 = wrap64 (v + 4096 - 1) / 4096 * 4096 := alignUp_eq (k := 12) (by decide)
  change v + 4096 ≤ 2 ^ 64 at small
  change alignUp v 4096 = _
  rw [eq, wrap64_of_lt (by omega)]
  omega

theorem released_within {e : MmapEntry} (small : e.base + e.length < 2 ^ 64)
    (rounds : e.type = memUsable → e.base + pageSize ≤ 2 ^ 64) :
    Released e frame ↔ e.type = memUsable ∧ Within frame e := by
  unfold Released Within
  apply and_congr_right
  intro usable
  rw [alignUp_small (rounds usable), regionEnd, wrap64_of_lt small]
  change (e.base + 4095) / 4096 * 4096 / 4096 ≤ frame ∧ frame < (e.base + e.length) / 4096 ↔
    e.base ≤ frame * 4096 ∧ (frame + 1) * 4096 ≤ e.base + e.length
  omega

theorem taken_meets {base length : Nat} (small : length ≠ 0 → base + length + pageSize ≤ 2 ^ 64) :
    Taken base length frame ↔ Meets frame base length := by
  rw [meets_iff]
  by_cases some_ : length = 0
  · simp [Taken, some_]
  · have fits : base + length + 4096 ≤ 2 ^ 64 := small some_
    have wrapped : wrap64 (base + length + pageSize - 1) = base + length + 4095 := by
      change wrap64 (base + length + 4096 - 1) = _
      rw [wrap64_of_lt (by omega)]
      omega
    rw [Taken, wrapped]
    change length ≠ 0 ∧ base / 4096 ≤ frame ∧ frame < (base + length + 4095) / 4096 ↔
      base < (frame + 1) * 4096 ∧ frame * 4096 < base + length ∧ 0 < length
    omega

theorem kernel_meets (ranges : NonWrapping boot) (rounds : Rounds boot) :
    Taken boot.kernelPhysStart (sub64 (kernelEnd boot) boot.kernelPhysStart) frame ↔
      Meets frame boot.kernelPhysStart (boot.kernelPhysEnd - boot.kernelPhysStart) := by
  have some_ := ranges.kernel.1
  have fits : boot.kernelPhysEnd + 4096 ≤ 2 ^ 64 := rounds.kernel
  have top : kernelEnd boot = (boot.kernelPhysEnd + 4095) / 4096 * 4096 := alignUp_small rounds.kernel
  have length : sub64 (kernelEnd boot) boot.kernelPhysStart = kernelEnd boot - boot.kernelPhysStart :=
    sub64_of_le (by omega) (by omega)
  have wrapped : wrap64 (boot.kernelPhysStart + (kernelEnd boot - boot.kernelPhysStart) + pageSize - 1) / pageSize =
      kernelEnd boot / 4096 := by
    change wrap64 (boot.kernelPhysStart + (kernelEnd boot - boot.kernelPhysStart) + 4096 - 1) / 4096 = _
    rw [wrap64]
    omega
  rw [meets_iff, length, Taken, wrapped]
  change _ ∧ boot.kernelPhysStart / 4096 ≤ frame ∧ _ ↔ boot.kernelPhysStart < (frame + 1) * 4096 ∧ frame * 4096 < _ ∧ _
  omega

/-- The framebuffer is reserved when it starts below the top of the memory, and no
tracked frame lies above that. -/
theorem framebuffer_meets (ranges : NonWrapping boot) (low : frame < frameCountOf boot) :
    framebufferTaken boot frame ↔ boot.fbValid ∧ Meets frame boot.fbAddr (boot.fbPitch * boot.fbHeight) := by
  have area : boot.fbPitch * boot.fbHeight < 2 ^ 32 * 2 ^ 16 :=
    Nat.mul_lt_mul'' ranges.pitch ranges.height
  have top : frameCountOf boot = min (highestUsable boot.mmap) 4294967296 / 4096 := rfl
  unfold framebufferTaken
  by_cases inside : boot.fbAddr < min (highestUsable boot.mmap) 0x100000000
  · rw [taken_meets (fun _ => by change _ + _ + 4096 ≤ _; omega)]
    simp only [inside, and_true]
  · have apart : ¬ Meets frame boot.fbAddr (boot.fbPitch * boot.fbHeight) := by
      rw [meets_iff]
      change ¬ (_ < (frame + 1) * 4096 ∧ _)
      omega
    simp only [inside, apart, and_false, false_and]

theorem reserved_withheld (ranges : NonWrapping boot) (rounds : Rounds boot) (placed : bitmapPhys boot ≠ 0)
    (low : frame < frameCountOf boot) : Reserved boot frame ↔ Withheld boot frame := by
  obtain ⟨e, -, same, -, -, below⟩ := placeBitmap_spec boot _ boot.mmap placed
  have bitmap : bitmapPhys boot + bitmapBytes boot ≤ 0x100000000 := by
    have fits := rounds.bitmap
    change bitmapPhys boot = _ at same
    rw [← same, wrap64_of_lt fits] at below
    exact below
  have disk : ramdiskTaken boot frame ↔ Meets frame boot.ramdiskPhys boot.ramdiskSize := by
    rw [ramdiskTaken, taken_meets rounds.ramdisk, meets_iff]
    omega
  unfold Reserved Withheld
  rw [taken_meets (by decide), kernel_meets ranges rounds,
    @taken_meets _ (bitmapPhys boot) _ (fun _ => by change _ + _ + 4096 ≤ _; omega), disk,
    @taken_meets _ 0x20000 _ (by decide), framebuffer_meets ranges low]

/-- The place for the bitmap is behind the kernel and the ramdisk, or in a region
that ends before them. -/
theorem bitmapBase_clear (boot : BootInfo) (e : MmapEntry) (ranges : NonWrapping boot) (rounds : Rounds boot) :
    (boot.kernelPhysEnd ≤ bitmapBase boot e ∨ regionEnd e ≤ boot.kernelPhysStart) ∧
      (boot.ramdiskSize = 0 ∨ boot.ramdiskPhys + boot.ramdiskSize ≤ bitmapBase boot e ∨ regionEnd e ≤ boot.ramdiskPhys) := by
  have kernel : kernelEnd boot = (boot.kernelPhysEnd + 4095) / 4096 * 4096 := alignUp_small rounds.kernel
  have disk : ramdiskEnd boot = boot.ramdiskPhys + boot.ramdiskSize := wrap64_of_lt ranges.ramdisk
  have rounded (some_ : boot.ramdiskSize ≠ 0) : alignUp (ramdiskEnd boot) pageSize = (ramdiskEnd boot + 4095) / 4096 * 4096 := by
    apply alignUp_small
    rw [disk]
    exact rounds.ramdisk some_
  unfold bitmapBase
  dsimp only
  generalize (if alignUp e.base pageSize < 0x100000 then 0x100000 else alignUp e.base pageSize) = base
  by_cases some_ : boot.ramdiskSize = 0
  · have skip : ¬ (boot.ramdiskSize ≠ 0 ∧ (if base < kernelEnd boot ∧ regionEnd e > boot.kernelPhysStart then kernelEnd boot
        else base) < ramdiskEnd boot ∧ regionEnd e > boot.ramdiskPhys) := fun all => all.1 some_
    rw [if_neg skip]
    refine ⟨?_, Or.inl some_⟩
    split <;> omega
  · have up := rounded some_
    constructor
    · split <;> split <;> omega
    · right
      split <;> split <;> omega

end Ranges

/-- What is to hold right after pmm_init: the frames that are free, the counter,
and where the bitmap lies. -/
structure InitialFrames (boot : BootInfo) (s : Pmm) : Prop where
  free : ∀ frame < s.frameCount, s.frameBitmap.test frame = false ↔
    (∃ e ∈ boot.mmap, e.type = memUsable ∧ Within frame e) ∧ ¬ Withheld boot frame
  used : s.usedFrames = s.frameBitmap.count s.frameCount
  bitmap : ∀ a, bitmapPhys boot ≤ a → a < bitmapPhys boot + bitmapBytes boot →
    ¬ (boot.kernelPhysStart ≤ a ∧ a < boot.kernelPhysEnd) ∧
    ¬ (boot.ramdiskPhys ≤ a ∧ a < boot.ramdiskPhys + boot.ramdiskSize)

theorem pmmInit_placed {boot : BootInfo} {s : Pmm} (start : pmmInit boot = some s) : bitmapPhys boot ≠ 0 := by
  intro none_
  change placeBitmap boot (bitmapBytes boot) boot.mmap = 0 at none_
  unfold pmmInit at start
  simp only at start
  rw [if_pos none_] at start
  cases start

theorem pmmInit_boots {boot : BootInfo} (placed : bitmapPhys boot ≠ 0) : ∃ s, pmmInit boot = some s := by
  change placeBitmap boot (bitmapBytes boot) boot.mmap ≠ 0 at placed
  unfold pmmInit
  dsimp only
  rw [if_neg placed]
  exact ⟨_, rfl⟩

theorem pmmInit_hint {boot : BootInfo} {s : Pmm} (start : pmmInit boot = some s) : s.lastAllocHint = lowFrames := by
  unfold pmmInit at start
  simp only at start
  split at start
  · cases start
  · cases Option.some.inj start
    rfl

/-- The frames are right where no rounding wraps. In a map with a gap, an entry in
the last page makes them wrong. -/
theorem initial_frames {boot : BootInfo} {s : Pmm} (ranges : NonWrapping boot) (start : pmmInit boot = some s) :
    (Rounds boot → InitialFrames boot s) ∧
    (InitialFrames boot s → ∀ frame < s.frameCount, ¬ Reserved boot frame →
      (∀ e ∈ boot.mmap, e.type = memUsable → ¬ Within frame e) →
      ∀ e ∈ boot.mmap, e.type = memUsable → e.base + pageSize ≤ 2 ^ 64) := by
  obtain ⟨frames, free⟩ := pmmInit_free start
  have placed := pmmInit_placed start
  constructor
  · intro rounds
    refine ⟨?_, (pmmInit_sound start).counted, ?_⟩
    · intro frame low
      have released : (∃ e ∈ boot.mmap, Released e frame) ↔ ∃ e ∈ boot.mmap, e.type = memUsable ∧ Within frame e := by
        constructor
        · rintro ⟨e, member, inside⟩
          exact ⟨e, member, (released_within (ranges.entries e member) (rounds.entries e member)).mp inside⟩
        · rintro ⟨e, member, inside⟩
          exact ⟨e, member, (released_within (ranges.entries e member) (rounds.entries e member)).mpr inside⟩
      rw [free frame low, released, reserved_withheld ranges rounds placed (frames ▸ low)]
    · intro a after before
      obtain ⟨e, -, same, -, inside, -⟩ := placeBitmap_spec boot _ boot.mmap placed
      change bitmapPhys boot = _ at same
      rw [← same, wrap64_of_lt rounds.bitmap] at inside
      obtain ⟨kernel, disk⟩ := bitmapBase_clear boot e ranges rounds
      rw [← same] at kernel disk
      omega
  · intro exact_ frame low spared gap e member usable
    by_contra high
    have released : Released e frame := by
      have small := ranges.entries e member
      have few := (pmmInit_sound start).narrow
      have wraps : alignUp e.base 4096 = wrap64 (e.base + 4096 - 1) / 4096 * 4096 := alignUp_eq (k := 12) (by decide)
      change ¬ e.base + 4096 ≤ 2 ^ 64 at high
      refine ⟨usable, ?_, ?_⟩
      · change alignUp e.base 4096 / 4096 ≤ frame
        rw [wraps, wrap64]
        omega
      · rw [regionEnd, wrap64_of_lt small]
        change frame < (e.base + e.length) / 4096
        omega
    have isFree := (free frame low).mpr ⟨⟨e, member, released⟩, spared⟩
    obtain ⟨⟨u, listed, usable', inside⟩, -⟩ := (exact_.free frame low).mp isFree
    exact gap u listed usable' inside

theorem initial_frames_small : ∃ s, pmmInit smallBoot = some s ∧ InitialFrames smallBoot s := by
  have boots : (pmmInit smallBoot).isSome = true := by decide
  obtain ⟨s, start⟩ := Option.isSome_iff_exists.mp boots
  have ranges : NonWrapping smallBoot := ⟨by decide, by decide, by decide, by decide, by decide, by decide⟩
  have rounds : Rounds smallBoot := ⟨by decide, by decide, by decide, by decide⟩
  exact ⟨s, start, (initial_frames ranges start).1 rounds⟩

/-- 64 MiB of memory, and an entry of one byte in the last page. -/
def lastPageBoot : BootInfo where
  mmap := [{ base := 0, length := 0x4000000, type := memUsable }, { base := 2 ^ 64 - 4095, length := 1, type := memUsable }]
  ramdiskPhys := 0
  ramdiskSize := 0
  fbValid := false
  fbAddr := 0
  fbPitch := 0
  fbHeight := 0
  kernelPhysStart := 0x100000
  kernelPhysEnd := 0x200000

/-- The first frame above the memory is free. -/
theorem last_page_frees_all : NonWrapping lastPageBoot ∧ ∃ s, pmmInit lastPageBoot = some s ∧ 0x4000 < s.frameCount ∧
    s.frameBitmap.test 0x4000 = false ∧ (∀ e ∈ lastPageBoot.mmap, ¬ Within 0x4000 e) ∧ ¬ InitialFrames lastPageBoot s := by
  have ranges : NonWrapping lastPageBoot := ⟨by decide, by decide, by decide, by decide, by decide, by decide⟩
  have placed : bitmapPhys lastPageBoot ≠ 0 := by decide
  obtain ⟨s, start⟩ := pmmInit_boots placed
  obtain ⟨frames, free⟩ := pmmInit_free start
  have low : 0x4000 < s.frameCount := by
    rw [frames]
    decide
  have spared : ¬ Reserved lastPageBoot 0x4000 := by
    simp only [Reserved, ramdiskTaken, framebufferTaken, Taken]
    decide
  have released : ∃ e ∈ lastPageBoot.mmap, Released e 0x4000 := by
    refine ⟨_, List.mem_cons_of_mem _ List.mem_cons_self, ?_⟩
    simp only [Released]
    decide
  have gap : ∀ e ∈ lastPageBoot.mmap, ¬ Within 0x4000 e := by
    unfold Within
    decide
  have isFree := (free 0x4000 low).mpr ⟨released, spared⟩
  refine ⟨ranges, s, start, low, isFree, gap, fun exact_ => ?_⟩
  obtain ⟨⟨e, member, -, inside⟩, -⟩ := (exact_.free 0x4000 low).mp isFree
  exact gap e member inside

section Firmware
variable {boot : BootInfo} {s : Pmm}

/-- The frame has a byte of an entry of another type than usable. -/
def Unusable (boot : BootInfo) (frame : Nat) : Prop := ∃ e ∈ boot.mmap, e.type ≠ memUsable ∧ Meets frame e.base e.length

/-- The frames of a usable entry that entries of other types reach into are
reserved anyway. -/
def Apart (boot : BootInfo) : Prop :=
  ∀ u ∈ boot.mmap, ∀ frame < frameCountOf boot, Released u frame → Unusable boot frame → Reserved boot frame

/-- The ledger that starts with a state of the allocator. -/
def StartsWith (s : Pmm) (l : Ledger) : Prop := l.pmm = s ∧ l.handed = [] ∧ l.live = []

/-- Every frame that is free or was handed out was free at the start. -/
structure Drawn (s : Pmm) (l : Ledger) : Prop where
  frames : l.pmm.frameCount = s.frameCount
  free : ∀ frame < s.frameCount, l.pmm.frameBitmap.test frame = false → s.frameBitmap.test frame = false
  handed : ∀ run ∈ l.handed, ∀ frame, run.1 ≤ frame → frame < run.1 + run.2 → s.frameBitmap.test frame = false
  inside : ∀ run ∈ l.handed, run.1 + run.2 ≤ s.frameCount

theorem recordAlloc_drawn {l : Ledger} (sound : LedgerSound l) (drawn : Drawn s l) (count : Nat) :
    Drawn s (recordAlloc l count (pmmAllocPages l.pmm count)) := by
  rcases allocPages_cases sound.pmm count with fails | ⟨frame, run, available⟩
  · rw [fails]
    exact drawn
  · have above : 256 ≤ frame := available.above
    have some_ : frame * pageSize ≠ 0 := by
      change frame * 4096 ≠ 0
      omega
    have page : frame * pageSize / pageSize = frame := Nat.mul_div_cancel frame (by decide)
    have below := available.below
    rw [drawn.frames] at below
    rw [run, recordAlloc, if_neg some_]
    simp only [page]
    refine ⟨drawn.frames, ?_, ?_, ?_⟩
    · intro j low free
      change (l.pmm.frameBitmap.setRun frame count).test j = false at free
      rw [Bitmap.test_setRun, Bool.or_eq_false_iff] at free
      exact drawn.free j low free.2
    · intro r member j first last
      rcases List.mem_cons.mp member with rfl | old
      · exact drawn.free j (Nat.lt_of_lt_of_le last below) (available.free j first last)
      · exact drawn.handed r old j first last
    · intro r member
      rcases List.mem_cons.mp member with rfl | old
      · exact below
      · exact drawn.inside r old

theorem recordFree_drawn {l : Ledger} {addr count : Nat} (sound : LedgerSound l) (drawn : Drawn s l)
    (given : HandedOut l addr count) : Drawn s (recordFree l addr count (pmmFreePages l.pmm addr count)) := by
  obtain ⟨run, member, low, high⟩ := given
  have some_ : addr ≠ 0 := by
    rintro rfl
    have above := sound.handed run member
    change run.1 ≤ 0 at low
    change 256 ≤ run.1 at above
    omega
  refine ⟨(freePages_frames l.pmm addr count).trans drawn.frames, ?_, drawn.handed, drawn.inside⟩
  intro j tracked free
  change (pmmFreePages l.pmm addr count).frameBitmap.test j = false at free
  rw [freePages_test some_, Bool.and_eq_false_iff, Bool.not_eq_false', decide_eq_true_iff] at free
  rcases free with ⟨first, last, -⟩ | before
  · exact drawn.handed run member j (Nat.le_trans low first) (by omega)
  · exact drawn.free j tracked before

theorem perform_drawn {l : Ledger} {op : PmmOp} (sound : LedgerSound l) (drawn : Drawn s l) (allowed : l.Allows op) :
    Drawn s (l.perform op) := by
  cases op with
  | allocPage => exact recordAlloc_drawn sound drawn 1
  | allocPages count => exact recordAlloc_drawn sound drawn count
  | freePage addr => exact recordFree_drawn sound drawn allowed
  | freePages addr count => exact recordFree_drawn sound drawn allowed
  | reserveRegion base length =>
    have region := reserveRegion_reserves l.pmm base length
    refine ⟨region.frames.trans drawn.frames, fun j low free => ?_, drawn.handed, drawn.inside⟩
    exact drawn.free j low ((region.free j (drawn.frames ▸ low)).mp free).1

theorem run_drawn {l : Ledger} (start : pmmInit boot = some s) (reached : Reachable (StartsWith s) LedgerStep l) :
    LedgerSound l ∧ Drawn s l := by
  refine reached.induct (fun l => LedgerSound l ∧ Drawn s l) ?_ ?_
  · rintro l ⟨rfl, handed, live⟩
    refine ⟨ledger_sound (.start ⟨⟨boot, start⟩, handed, live⟩), rfl, fun _ _ free => free, ?_, ?_⟩
    · simp [handed]
    · simp [handed]
  · rintro l m ⟨sound, drawn⟩ ⟨op, allowed, rfl⟩
    exact ⟨perform_sound sound allowed, perform_drawn sound drawn allowed⟩

/-- No frame that is free after pmm_init has a byte of an entry of another type,
nor has one that is handed out in any run. -/
def FirmwareSafe (boot : BootInfo) (s : Pmm) : Prop :=
  (∀ frame < s.frameCount, s.frameBitmap.test frame = false → ¬ Unusable boot frame) ∧
  ∀ l, Reachable (StartsWith s) LedgerStep l → ∀ run ∈ l.handed, ∀ frame, run.1 ≤ frame → frame < run.1 + run.2 →
    ¬ Unusable boot frame

theorem firmware_safe_iff (start : pmmInit boot = some s) : FirmwareSafe boot s ↔ Apart boot := by
  obtain ⟨frames, free⟩ := pmmInit_free start
  constructor
  · rintro ⟨safe, -⟩ u member frame low released unusable
    by_contra spared
    rw [← frames] at low
    exact safe frame low ((free frame low).mpr ⟨⟨u, member, released⟩, spared⟩) unusable
  · intro apart
    have safe : ∀ frame < s.frameCount, s.frameBitmap.test frame = false → ¬ Unusable boot frame := by
      intro frame low isFree unusable
      obtain ⟨⟨u, member, released⟩, spared⟩ := (free frame low).mp isFree
      exact spared (apart u member frame (frames ▸ low) released unusable)
    refine ⟨safe, fun l reached run member frame first last => ?_⟩
    have drawn := (run_drawn start reached).2
    exact safe frame (Nat.lt_of_lt_of_le last (drawn.inside run member)) (drawn.handed run member frame first last)

theorem firmware_safe_small : ∃ s, pmmInit smallBoot = some s ∧ FirmwareSafe smallBoot s := by
  have boots : (pmmInit smallBoot).isSome = true := by decide
  obtain ⟨s, start⟩ := Option.isSome_iff_exists.mp boots
  refine ⟨s, start, (firmware_safe_iff start).mpr ?_⟩
  rintro u - frame - - ⟨e, member, other, -⟩
  cases List.mem_singleton.mp member
  exact absurd rfl other

/-- 64 MiB of memory with 1 MiB of it reserved by a second entry. -/
def overlappingBoot : BootInfo where
  mmap := [{ base := 0, length := 0x4000000, type := memUsable }, { base := 0x3000000, length := 0x100000, type := 2 }]
  ramdiskPhys := 0
  ramdiskSize := 0
  fbValid := false
  fbAddr := 0
  fbPitch := 0
  fbHeight := 0
  kernelPhysStart := 0x100000
  kernelPhysEnd := 0x200000

theorem overlapped_frame_free : ∃ s, pmmInit overlappingBoot = some s ∧ 0x3000 < s.frameCount ∧
    s.frameBitmap.test 0x3000 = false ∧ Unusable overlappingBoot 0x3000 ∧ ¬ FirmwareSafe overlappingBoot s := by
  have placed : bitmapPhys overlappingBoot ≠ 0 := by decide
  obtain ⟨s, start⟩ := pmmInit_boots placed
  obtain ⟨frames, free⟩ := pmmInit_free start
  have low : 0x3000 < s.frameCount := by
    rw [frames]
    decide
  have spared : ¬ Reserved overlappingBoot 0x3000 := by
    simp only [Reserved, ramdiskTaken, framebufferTaken, Taken]
    decide
  have released : ∃ e ∈ overlappingBoot.mmap, Released e 0x3000 := by
    refine ⟨_, List.mem_cons_self, ?_⟩
    simp only [Released]
    decide
  have unusable : Unusable overlappingBoot 0x3000 := by
    refine ⟨_, List.mem_cons_of_mem _ List.mem_cons_self, by decide, ?_⟩
    rw [meets_iff]
    decide
  have isFree := (free 0x3000 low).mpr ⟨released, spared⟩
  exact ⟨s, start, low, isFree, unusable, fun safe => safe.1 0x3000 low isFree unusable⟩

end Firmware
end Qito.Mm
