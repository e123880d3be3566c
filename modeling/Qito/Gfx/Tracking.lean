import Qito.Gfx.Lines

/-! What is on the screen. Every pixel where the two buffers differ is dirty, over
any run of drawing calls, clip changes and flushes, and a flush leaves none. -/
namespace Qito.Fb
open Canvas

section Runs
variable {s s' : Screen} {call : Call}

/-- Coordinates and sizes below 2^28 in magnitude; the size of a character is that of
its cell on the screen. -/
def Call.Bounded : Call → Prop
  | .clear _ => True
  | .putPixel x y _ => Small x ∧ Small y
  | .fillRect x y w h _ => Small x ∧ Small y ∧ Small w ∧ Small h
  | .fillRectAlpha x y w h _ _ => Small x ∧ Small y ∧ Small w ∧ Small h
  | .drawLine x0 y0 x1 y1 _ => Small x0 ∧ Small y0 ∧ Small x1 ∧ Small y1
  | .fillRoundRect x y w h radius _ => Small x ∧ Small y ∧ Small w ∧ Small h ∧ Small radius
  | .blit x y w h _ _ => Small x ∧ Small y ∧ Small w ∧ Small h
  | .blitAlpha x y w h _ _ => Small x ∧ Small y ∧ Small w ∧ Small h
  | .blendPixel x y _ _ => Small x ∧ Small y
  | .drawCharIn font x y _ _ scale =>
    Small x ∧ Small y ∧ ∀ f, font = some f → f.width.toNat * scale < 2 ^ 28 ∧ f.height.toNat * scale < 2 ^ 28
  | .setClip x y w h => Small x ∧ Small y ∧ Small w ∧ Small h
  | .resetClip => True
  | .flush => True

/-- Where the buffers differ, the screen is dirty. -/
structure Tracked (s : Screen) : Prop where
  tidy : Tidy s
  differs : ∀ x y, s.Visible x y → s.front (y * s.pitch + x) ≠ s.back (y * s.pitch + x) → s.IsDirty x y

theorem Drawn.tracked (drawn : Drawn s s') (tracked : Tracked s) : Tracked s' where
  tidy := drawn.tidy
  differs := by
    intro x y visible differ
    have front : s'.front = s.front := by rw [drawn.same]
    have pitch : s'.pitch = s.pitch := by rw [drawn.same]
    have width : s'.width = s.width := by rw [drawn.same]
    have height : s'.height = s.height := by rw [drawn.same]
    unfold Screen.Visible at visible
    rw [width, height] at visible
    rw [front, pitch] at differ
    by_cases same : s'.back (y * s.pitch + x) = s.back (y * s.pitch + x)
    · rw [same] at differ
      exact drawn.kept x y (tracked.differs x y visible differ)
    · -- the changed cell is the place of one pixel only
      obtain ⟨px, py, has, place, dirty⟩ := drawn.changed _ same
      obtain ⟨⟨left, right⟩, top, bottom⟩ := clip_visible tracked.tidy has
      have within := tracked.tidy.pitch
      obtain ⟨rfl, rfl⟩ := row_unique ⟨visible.1.1, by omega⟩ ⟨left, by omega⟩ place
      exact dirty

theorem allDirty_tracked (tidy : Tidy s) : Tracked (fbMarkAllDirty s) where
  tidy := ⟨tidy.ready, tidy.width, tidy.height, tidy.pitch, tidy.cells, tidy.clipX, tidy.clipY,
    fun _ => ⟨Int.le_refl 0, tidy.width.1, Int.le_of_eq (Int.zero_add _)⟩,
    fun _ => ⟨Int.le_refl 0, tidy.height.1, Int.le_of_eq (Int.zero_add _)⟩⟩
  differs := by
    intro x y visible _
    obtain ⟨⟨left, right⟩, top, bottom⟩ := visible
    refine ⟨rfl, ⟨left, ?_⟩, top, ?_⟩
    · rwa [fbMarkAllDirty, Int.zero_add]
    · rwa [fbMarkAllDirty, Int.zero_add]

theorem clear_tracked (tracked : Tracked s) (color : Color) : Tracked (fbClear s color) := by
  have tidy := tracked.tidy
  unfold fbClear
  split
  · exact tracked
  · exact allDirty_tracked ⟨tidy.ready, tidy.width, tidy.height, tidy.pitch, tidy.cells, tidy.clipX, tidy.clipY,
      tidy.dirtyX, tidy.dirtyY⟩

theorem clip_tracked {clip : Rect} (tracked : Tracked s) (clipX : Span clip.x clip.w s.width)
    (clipY : Span clip.y clip.h s.height) : Tracked { s with clip := clip } where
  tidy :=
    have tidy := tracked.tidy
    ⟨tidy.ready, tidy.width, tidy.height, tidy.pitch, tidy.cells, clipX, clipY, tidy.dirtyX, tidy.dirtyY⟩
  differs := tracked.differs

theorem setClip_span {a n limit : Int} (start : Small a) (size : Small n) (bound : 0 ≤ limit ∧ limit < 2 ^ 16) :
    Span (max a 0) (max (int (min (int (a + n)) limit - max a 0)) 0) limit := by
  obtain ⟨low, high⟩ := start
  obtain ⟨low', high'⟩ := size
  have end_ : int (a + n) = a + n := int_id (by omega) (by omega)
  have width : int (min (a + n) limit - max a 0) = min (a + n) limit - max a 0 := int_id (by omega) (by omega)
  rw [end_, width]
  exact ⟨by omega, by omega, by omega⟩

theorem flush_agrees (tracked : Tracked s) (x y : Int) (visible : s.Visible x y) :
    (fbFlush s).front (y * s.pitch + x) = s.back (y * s.pitch + x) := by
  have tidy := tracked.tidy
  have same : ¬ s.IsDirty x y → s.front (y * s.pitch + x) = s.back (y * s.pitch + x) := by
    intro clean
    by_contra differ
    exact clean (tracked.differs x y visible differ)
  unfold fbFlush
  rw [tidy.ready]
  cases valid : s.dirtyValid with
  | false =>
    apply same
    rintro ⟨dirty, -⟩
    rw [valid] at dirty
    cases dirty
  | true =>
    obtain ⟨startX, sizeX, insideX⟩ := tidy.dirtyX valid
    obtain ⟨startY, sizeY, insideY⟩ := tidy.dirtyY valid
    have width := tidy.width
    have height := tidy.height
    have right : int (s.dirty.x + s.dirty.w) = s.dirty.x + s.dirty.w := int_id (by omega) (by omega)
    have bottom : int (s.dirty.y + s.dirty.h) = s.dirty.y + s.dirty.h := int_id (by omega) (by omega)
    simp only [Bool.not_true, Bool.or_self, Bool.false_eq_true, if_false]
    unfold fbFlushRect
    rw [right, bottom, tidy.ready]
    simp only [Bool.not_true, Bool.false_eq_true, if_false]
    split
    · -- an empty rectangle
      apply same
      rintro ⟨-, inX, inY⟩
      omega
    · by_cases dirty : s.dirty.Has x y
      · obtain ⟨inX, inY⟩ := dirty
        have row : (y - max s.dirty.y 0).toNat ∈ rows (min (s.dirty.y + s.dirty.h) s.height - max s.dirty.y 0) := by
          apply List.mem_range.mpr
          omega
        have line : max s.dirty.y 0 + ((y - max s.dirty.y 0).toNat : Int) = y := by omega
        have copied := @copyRows_inside _ s.pitch (max s.dirty.x 0) (max s.dirty.y 0)
          (min (s.dirty.x + s.dirty.w) s.width - max s.dirty.x 0) s.front s.back _ _ x row ⟨by omega, by omega⟩
        rw [line] at copied
        exact copied
      · have clean : ¬ s.IsDirty x y := fun isDirty => dirty isDirty.2
        exact (copyRows_either _ _ _ _).elim id fun left => left.trans (same clean)

theorem flush_same (s : Screen) :
    fbFlush s = { s with front := (fbFlush s).front, dirtyValid := (fbFlush s).dirtyValid, frames := (fbFlush s).frames } := by
  unfold fbFlush fbFlushRect
  dsimp only
  split
  · rfl
  · split
    · rfl
    · split <;> rfl

theorem flush_tracked (tracked : Tracked s) : Tracked (fbFlush s) := by
  have tidy := tracked.tidy
  have same := flush_same s
  have agrees := flush_agrees tracked
  have kept : (fbFlush s).dirtyValid = true → s.dirtyValid = true := by
    unfold fbFlush
    split
    · exact id
    · nofun
  rw [same]
  constructor
  case tidy =>
    exact ⟨tidy.ready, tidy.width, tidy.height, tidy.pitch, tidy.cells, tidy.clipX, tidy.clipY,
      fun valid => tidy.dirtyX (kept valid), fun valid => tidy.dirtyY (kept valid)⟩
  case differs =>
    intro x y visible differ
    exact absurd (agrees x y visible) differ

theorem draw_cases (tidy : Tidy s) (bounded : call.Bounded) (ran : draw s call = some s') :
    Drawn s s' ∨ (∃ color, call = .clear color ∧ s' = fbClear s color) ∨ (call = .flush ∧ s' = fbFlush s) ∨
    ∃ clip, Span clip.x clip.w s.width ∧ Span clip.y clip.h s.height ∧ s' = { s with clip := clip } := by
  cases call with
  | clear color => exact .inr (.inl ⟨color, rfl, (Option.some.inj ran).symm⟩)
  | putPixel x y color =>
    cases Option.some.inj ran
    exact .inl (putPixel_drawn tidy x y color)
  | fillRect x y w h color =>
    cases Option.some.inj ran
    exact .inl (fillRect_drawn tidy x y w h color)
  | fillRectAlpha x y w h color alpha =>
    cases Option.some.inj ran
    exact .inl (fillRectAlpha_drawn tidy x y w h color alpha)
  | drawLine x0 y0 x1 y1 color => exact .inl (lineLoop_drawn tidy ran)
  | fillRoundRect x y w h radius color => exact .inl (fillRoundRect_drawn tidy ran)
  | blit x y w h src srcPitch =>
    cases Option.some.inj ran
    exact .inl (blit_drawn tidy x y w h src srcPitch)
  | blitAlpha x y w h src srcPitch =>
    cases Option.some.inj ran
    exact .inl (blitAlpha_drawn tidy x y w h src srcPitch)
  | blendPixel x y color alpha =>
    cases Option.some.inj ran
    exact .inl (blendPixel_drawn tidy x y color alpha)
  | drawCharIn font x y c fg scale =>
    obtain ⟨smallX, smallY, sizes⟩ := bounded
    cases Option.some.inj ran
    exact .inl (drawCharIn_drawn tidy smallX smallY sizes c fg)
  | setClip x y w h =>
    obtain ⟨smallX, smallY, smallW, smallH⟩ := bounded
    exact .inr (.inr (.inr ⟨_, setClip_span smallX smallW tidy.width, setClip_span smallY smallH tidy.height,
      (Option.some.inj ran).symm⟩))
  | resetClip =>
    have width := tidy.width
    have height := tidy.height
    have spanX : Span 0 s.width s.width := ⟨by decide, width.1, .inr (Int.le_of_eq (Int.zero_add _))⟩
    have spanY : Span 0 s.height s.height := ⟨by decide, height.1, .inr (Int.le_of_eq (Int.zero_add _))⟩
    exact .inr (.inr (.inr ⟨⟨0, 0, s.width, s.height⟩, spanX, spanY, (Option.some.inj ran).symm⟩))
  | flush => exact .inr (.inr (.inl ⟨rfl, (Option.some.inj ran).symm⟩))

theorem draw_tracked (tracked : Tracked s) (bounded : call.Bounded) (ran : draw s call = some s') : Tracked s' := by
  obtain drawn | ⟨color, -, rfl⟩ | ⟨-, rfl⟩ | ⟨clip, clipX, clipY, rfl⟩ := draw_cases tracked.tidy bounded ran
  · exact drawn.tracked tracked
  · exact clear_tracked tracked color
  · exact flush_tracked tracked
  · exact clip_tracked tracked clipX clipY

theorem run_tracked {calls : List Call} (tracked : Tracked s) (bounded : ∀ call ∈ calls, call.Bounded)
    (ran : calls.foldlM draw s = some s') : Tracked s' := by
  induction calls generalizing s with
  | nil =>
    cases Option.some.inj ran
    exact tracked
  | cons call calls ih =>
    rw [List.foldlM_cons] at ran
    obtain ⟨next, now, later⟩ := Option.bind_eq_some_iff.mp ran
    have step : Tracked next := draw_tracked tracked (bounded call List.mem_cons_self) now
    exact ih step (fun c member => bounded c (List.mem_cons_of_mem call member)) later

theorem draw_within (tidy : Tidy s) (bounded : call.Bounded) (other : ∀ color, call ≠ .clear color)
    (ran : draw s call = some s') {i : Int} (changed : s'.back i ≠ s.back i) :
    ∃ x y, s.clip.Has x y ∧ i = y * s.pitch + x := by
  obtain drawn | ⟨color, clear, -⟩ | ⟨-, rfl⟩ | ⟨clip, -, -, rfl⟩ := draw_cases tidy bounded ran
  · obtain ⟨x, y, has, place, -⟩ := drawn.changed i changed
    exact ⟨x, y, has, place⟩
  · exact absurd clear (other color)
  · rw [flush_same s] at changed
    exact absurd rfl changed
  · exact absurd rfl changed

theorem init_tracked {memory : Nat} {video : Buffer UInt32} {boot : BootInfo} (started : fbInit memory video boot = some s)
    (wide : s.width ≤ s.pitch) : Tracked s := by
  unfold fbInit at started
  dsimp only at started
  split at started
  · cases started
  · split at started
    · cases started
    · rename_i depth
      split at started
      · cases started
      · rename_i room
        have bpp : boot.fbBpp.toNat = 32 := by simp [not_not.mp depth]
        have bytes := boot.fbPitch.toNat_lt
        have width := boot.fbWidth.toNat_lt
        have height := boot.fbHeight.toNat_lt
        have pitch : int (boot.fbPitch.toNat / (boot.fbBpp.toNat / 8) : Nat) = (boot.fbPitch.toNat / 4 : Nat) := by
          rw [bpp]
          exact int_id (by omega) (by omega)
        rw [bpp] at room
        change ¬ (boot.fbPitch.toNat / 4 * boot.fbHeight.toNat * 4 = 0 ∨
          boot.fbPitch.toNat / 4 * boot.fbHeight.toNat * 4 > min memory (256 * 1024 * 1024)) at room
        cases Option.some.inj started
        have cells : ((boot.fbPitch.toNat / 4 : Nat) : Int) * (boot.fbHeight.toNat : Nat) ≤ 2 ^ 26 := by
          rw [← Int.natCast_mul]
          omega
        have across : 0 ≤ (boot.fbWidth.toNat : Int) ∧ (boot.fbWidth.toNat : Int) < 2 ^ 16 := ⟨by omega, by omega⟩
        have along : 0 ≤ (boot.fbHeight.toNat : Int) ∧ (boot.fbHeight.toNat : Int) < 2 ^ 16 := ⟨by omega, by omega⟩
        have spanX : Span 0 (boot.fbWidth.toNat : Int) boot.fbWidth.toNat := ⟨by decide, by omega, by omega⟩
        have spanY : Span 0 (boot.fbHeight.toNat : Int) boot.fbHeight.toNat := ⟨by decide, by omega, by omega⟩
        apply allDirty_tracked
        simp only [fbMarkAllDirty, fbResetClip, pitch] at wide ⊢
        exact ⟨rfl, across, along, wide, cells, spanX, spanY, nofun, nofun⟩

end Runs

section Ending

theorem arcExtent_returns {limit dx : Int} {fuel : Nat} (small : limit < 46340 * 46340) (start : 0 ≤ dx ∧ dx < 46340)
    (enough : 46340 ≤ dx + fuel) : (arcExtent limit fuel dx).isSome := by
  induction fuel generalizing dx with
  | zero => omega
  | succ fuel ih =>
    have next : int (dx + 1) = dx + 1 := int_id (by omega) (by omega)
    have bound : (dx + 1) * (dx + 1) ≤ 46340 * 46340 := Int.mul_le_mul (by omega) (by omega) (by omega) (by decide)
    have positive : 0 ≤ (dx + 1) * (dx + 1) := Int.mul_nonneg (by omega) (by omega)
    have square : int ((dx + 1) * (dx + 1)) = (dx + 1) * (dx + 1) := int_id (by omega) (by omega)
    unfold arcExtent
    rw [next, square]
    split
    · rename_i within
      have further : dx + 1 < 46340 := by
        by_contra last
        have largest : dx + 1 = 46340 := by omega
        rw [largest] at within
        omega
      exact ih ⟨by omega, further⟩ (by omega)
    · rfl

theorem fillRoundRect_returns (s : Screen) (x y w h : Int) {radius : Int} (color : Color) (small : radius ≤ 46340) :
    (fbFillRoundRect s x y w h radius color).isSome := by
  unfold fbFillRoundRect
  split
  · rfl
  · dsimp only
    split
    · rfl
    · rename_i positive
      generalize corner : min radius (min (w.tdiv 2) (h.tdiv 2)) = r at positive
      have bound : r ≤ 46340 := by omega
      have inside : ∀ row ∈ rows r, 0 ≤ (row : Int) ∧ (row : Int) < r := fun row member => rows_inside member
      generalize fbFillRect s x (int (y + r)) w (int (h - int (2 * r))) color = s'
      generalize rows r = lines at inside
      induction lines generalizing s' with
      | nil => rfl
      | cons row lines ih =>
        obtain ⟨first, last⟩ := inside row List.mem_cons_self
        have whole : r * r ≤ 46340 * 46340 := Int.mul_le_mul bound bound (by omega) (by decide)
        have below : 1 * 1 ≤ (r - row) * (r - row) := Int.mul_le_mul (by omega) (by omega) (by decide) (by omega)
        have above : (r - row) * (r - row) ≤ r * r := Int.mul_le_mul (by omega) (by omega) (by omega) (by omega)
        have limit : int (int (r * r) - int ((r - row) * (r - row))) = r * r - (r - row) * (r - row) := by
          rw [int_id (n := r * r) (by omega) (by omega), int_id (n := (r - row) * (r - row)) (by omega) (by omega)]
          exact int_id (by omega) (by omega)
        have extent : (arcExtent (r * r - (r - row) * (r - row)) (2 ^ 31) 0).isSome :=
          arcExtent_returns (by omega) (by decide) (by decide)
        obtain ⟨dx, found⟩ := Option.isSome_iff_exists.mp extent
        rw [List.foldlM_cons, roundRow]
        simp only [limit, found]
        exact ih _ fun row' member => inside row' (List.mem_cons_of_mem row member)

theorem draw_returns (s : Screen) {call : Call} (bounded : call.Bounded)
    (round : ∀ x y w h radius color, call = .fillRoundRect x y w h radius color → radius ≤ 46340) : (draw s call).isSome := by
  cases call with
  | drawLine x0 y0 x1 y1 color =>
    obtain ⟨smallX0, smallY0, smallX1, smallY1⟩ := bounded
    exact drawLine_returns s color smallX0 smallY0 smallX1 smallY1
  | fillRoundRect x y w h radius color => exact fillRoundRect_returns s x y w h color (round x y w h radius color rfl)
  | _ => rfl

end Ending

/-- Over any run, a flush brings the whole picture to the screen, and a primitive
stays inside the clip rectangle. -/
theorem screen_consistent (memory : Nat) (video : Buffer UInt32) (boot : BootInfo) (start s : Screen) (calls : List Call)
    (started : fbInit memory video boot = some start) (wide : start.width ≤ start.pitch)
    (bounded : ∀ call ∈ calls, call.Bounded) (ran : calls.foldlM draw start = some s) :
    (∀ x y, s.Visible x y → (fbFlush s).front (y * s.pitch + x) = (fbFlush s).back (y * s.pitch + x)) ∧
    ∀ call s', call.Bounded → (∀ color, call ≠ .clear color) → draw s call = some s' →
      ∀ i, s'.back i ≠ s.back i → ∃ x y, s.clip.Has x y ∧ i = y * s.pitch + x := by
  have tracked : Tracked s := run_tracked (init_tracked started wide) bounded ran
  constructor
  · intro x y visible
    have back : (fbFlush s).back = s.back := by rw [flush_same s]
    rw [back]
    exact flush_agrees tracked x y visible
  · intro call s' small other drawn i changed
    exact draw_within tracked.tidy small other drawn changed

/-- Four by two pixels: a pixel, a smaller clip rectangle, and a rectangle that sticks
out of it. -/
theorem small_screen_consistent :
    ∃ start s, fbInit 4096 (fun _ => 7) ⟨true, 0xE0000000, 16, 4, 2, 32, 16, 8, 0⟩ = some start ∧
      [Call.putPixel 1 1 0xFF0000, .setClip 0 0 2 2, .fillRect (-5) 0 7 9 0x00FF00].foldlM draw start = some s ∧
      (∀ x y, s.Visible x y → (fbFlush s).front (y * s.pitch + x) = (fbFlush s).back (y * s.pitch + x)) ∧
      ∀ call s', call.Bounded → (∀ color, call ≠ .clear color) → draw s call = some s' →
        ∀ i, s'.back i ≠ s.back i → ∃ x y, s.clip.Has x y ∧ i = y * s.pitch + x := by
  refine ⟨_, _, rfl, rfl, screen_consistent 4096 (fun _ => 7) ⟨true, 0xE0000000, 16, 4, 2, 32, 16, 8, 0⟩ _ _
    [.putPixel 1 1 0xFF0000, .setClip 0 0 2 2, .fillRect (-5) 0 7 9 0x00FF00] rfl (by decide) ?_ rfl⟩
  simp [Call.Bounded, Small]

end Qito.Fb
