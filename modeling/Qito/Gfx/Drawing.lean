import Qito.Gfx.Screen

/-! What a primitive does to the screen. Drawn says it once for all of them: pixels
inside the clip rectangle change, and every one of them is dirty afterwards. The
arithmetic is that of int; a rectangle that was clipped cannot overflow it. -/
namespace Qito.Fb
open Canvas

theorem int_id {n : Int} (low : -2 ^ 31 ≤ n) (high : n < 2 ^ 31) : int n = n := by
  unfold int
  rw [Int.bmod_def]
  omega

def Rect.Has (r : Rect) (x y : Int) : Prop := (r.x ≤ x ∧ x < r.x + r.w) ∧ r.y ≤ y ∧ y < r.y + r.h

def Screen.IsDirty (s : Screen) (x y : Int) : Prop := s.dirtyValid = true ∧ s.dirty.Has x y

def Screen.Visible (s : Screen) (x y : Int) : Prop := (0 ≤ x ∧ x < s.width) ∧ 0 ≤ y ∧ y < s.height

/-- Below 2^28 in magnitude. -/
def Small (n : Int) : Prop := -2 ^ 28 < n ∧ n < 2 ^ 28

/-- One dimension of a clip rectangle: empty, or within the screen. -/
structure Span (a n limit : Int) : Prop where
  start : 0 ≤ a ∧ a < 2 ^ 28
  size : 0 ≤ n
  inside : n = 0 ∨ a + n ≤ limit

/-- One dimension of the dirty rectangle. -/
structure Inner (a n limit : Int) : Prop where
  start : 0 ≤ a
  size : 0 ≤ n
  inside : a + n ≤ limit

structure Tidy (s : Screen) : Prop where
  ready : s.ready = true
  width : 0 ≤ s.width ∧ s.width < 2 ^ 16
  height : 0 ≤ s.height ∧ s.height < 2 ^ 16
  pitch : s.width ≤ s.pitch
  cells : s.pitch * s.height ≤ 2 ^ 26
  clipX : Span s.clip.x s.clip.w s.width
  clipY : Span s.clip.y s.clip.h s.height
  dirtyX : s.dirtyValid = true → Inner s.dirty.x s.dirty.w s.width
  dirtyY : s.dirtyValid = true → Inner s.dirty.y s.dirty.h s.height

/-- What fb_mark_dirty does, whatever the rectangle. -/
structure Marked (s s' : Screen) (x y w h : Int) : Prop where
  same : s' = { s with dirty := s'.dirty, dirtyValid := s'.dirtyValid }
  dirtyX : s'.dirtyValid = true → Inner s'.dirty.x s'.dirty.w s'.width
  dirtyY : s'.dirtyValid = true → Inner s'.dirty.y s'.dirty.h s'.height
  kept : ∀ px py, s.IsDirty px py → s'.IsDirty px py
  marked : ∀ px py, s.Visible px py → x ≤ px ∧ px < x + w → y ≤ py ∧ py < y + h → s'.IsDirty px py

section Marking
variable {s : Screen} {x y w h : Int}

theorem markDirty_marked (width : 0 ≤ s.width ∧ s.width < 2 ^ 16) (height : 0 ≤ s.height ∧ s.height < 2 ^ 16)
    (dirtyX : s.dirtyValid = true → Inner s.dirty.x s.dirty.w s.width)
    (dirtyY : s.dirtyValid = true → Inner s.dirty.y s.dirty.h s.height)
    (smallX : Small x) (smallY : Small y) (smallW : w < 2 ^ 28) (smallH : h < 2 ^ 28) :
    Marked s (fbMarkDirty s x y w h) x y w h := by
  obtain ⟨xLow, xHigh⟩ := smallX
  obtain ⟨yLow, yHigh⟩ := smallY
  unfold fbMarkDirty
  split
  · rename_i empty
    exact ⟨rfl, dirtyX, dirtyY, fun _ _ dirty => dirty, fun px py _ inX inY => by omega⟩
  · rename_i filled
    have right : int (x + w) = x + w := int_id (by omega) (by omega)
    have bottom : int (y + h) = y + h := int_id (by omega) (by omega)
    dsimp only
    rw [right, bottom]
    split
    · rename_i hidden
      refine ⟨rfl, dirtyX, dirtyY, fun _ _ dirty => dirty, ?_⟩
      intro px py visible inX inY
      unfold Screen.Visible at visible
      omega
    · rename_i shown
      have across : int (min (x + w) s.width - max x 0) = min (x + w) s.width - max x 0 := int_id (by omega) (by omega)
      have along : int (min (y + h) s.height - max y 0) = min (y + h) s.height - max y 0 := int_id (by omega) (by omega)
      split
      · -- the first rectangle since the last flush
        rename_i first
        have innerX : Inner (max x 0) (min (x + w) s.width - max x 0) s.width := ⟨by omega, by omega, by omega⟩
        have innerY : Inner (max y 0) (min (y + h) s.height - max y 0) s.height := ⟨by omega, by omega, by omega⟩
        rw [across, along]
        refine ⟨rfl, fun _ => innerX, fun _ => innerY, ?_, ?_⟩
        · rintro px py ⟨valid, -⟩
          rw [valid] at first
          cases first
        · intro px py ⟨visibleX, visibleY⟩ inX inY
          refine ⟨rfl, ⟨?_, ?_⟩, ?_, ?_⟩
          all_goals dsimp only
          all_goals omega
      · -- the rectangle around the old one and the new one
        rename_i more
        have valid : s.dirtyValid = true := by simpa using more
        obtain ⟨startX, sizeX, insideX⟩ := dirtyX valid
        obtain ⟨startY, sizeY, insideY⟩ := dirtyY valid
        have oldX : int (s.dirty.x + s.dirty.w) = s.dirty.x + s.dirty.w := int_id (by omega) (by omega)
        have oldY : int (s.dirty.y + s.dirty.h) = s.dirty.y + s.dirty.h := int_id (by omega) (by omega)
        have innerX : Inner (min s.dirty.x (max x 0))
            (max (s.dirty.x + s.dirty.w) (min (x + w) s.width) - min s.dirty.x (max x 0)) s.width :=
          ⟨by omega, by omega, by omega⟩
        have innerY : Inner (min s.dirty.y (max y 0))
            (max (s.dirty.y + s.dirty.h) (min (y + h) s.height) - min s.dirty.y (max y 0)) s.height :=
          ⟨by omega, by omega, by omega⟩
        rw [oldX, oldY, int_id (by omega) (by omega), int_id (by omega) (by omega)]
        refine ⟨rfl, fun _ => innerX, fun _ => innerY, ?_, ?_⟩
        · rintro px py ⟨-, ⟨left, right⟩, top, bottom⟩
          refine ⟨valid, ⟨?_, ?_⟩, ?_, ?_⟩
          all_goals dsimp only
          all_goals omega
        · intro px py ⟨visibleX, visibleY⟩ inX inY
          refine ⟨valid, ⟨?_, ?_⟩, ?_, ?_⟩
          all_goals dsimp only
          all_goals omega

end Marking

/-- What a primitive does: pixels inside the clip rectangle change, and every one of
them is dirty afterwards. -/
structure Drawn (s s' : Screen) : Prop where
  same : s' = { s with back := s'.back, dirty := s'.dirty, dirtyValid := s'.dirtyValid }
  tidy : Tidy s'
  kept : ∀ x y, s.IsDirty x y → s'.IsDirty x y
  changed : ∀ i, s'.back i ≠ s.back i → ∃ x y, s.clip.Has x y ∧ i = y * s.pitch + x ∧ s'.IsDirty x y

section Primitives
variable {s a b c : Screen} {x y w h : Int}

theorem Drawn.refl (tidy : Tidy s) : Drawn s s where
  same := rfl
  tidy := tidy
  kept := fun _ _ dirty => dirty
  changed := fun _ changed => absurd rfl changed

theorem Drawn.trans (first : Drawn a b) (then_ : Drawn b c) : Drawn a c where
  same := by
    rw [then_.same, first.same]
  tidy := then_.tidy
  kept := fun x y dirty => then_.kept x y (first.kept x y dirty)
  changed := by
    intro i changed
    have clip : b.clip = a.clip := by rw [first.same]
    have pitch : b.pitch = a.pitch := by rw [first.same]
    by_cases same : c.back i = b.back i
    · rw [same] at changed
      obtain ⟨x, y, has, place, dirty⟩ := first.changed i changed
      exact ⟨x, y, has, place, then_.kept x y dirty⟩
    · rw [← clip, ← pitch]
      exact then_.changed i same

theorem clip_visible (tidy : Tidy s) (has : s.clip.Has x y) : s.Visible x y := by
  obtain ⟨⟨left, right⟩, top, bottom⟩ := has
  obtain ⟨startX, sizeX, insideX⟩ := tidy.clipX
  obtain ⟨startY, sizeY, insideY⟩ := tidy.clipY
  exact ⟨⟨by omega, by omega⟩, by omega, by omega⟩

/-- Pixels of a rectangle change inside the clip rectangle, and the rectangle is marked. -/
theorem marked_drawn (tidy : Tidy s) {back : Buffer UInt32} (smallX : Small x) (smallY : Small y) (smallW : w < 2 ^ 28)
    (smallH : h < 2 ^ 28)
    (touches : Touches (fun i => ∃ px py, s.clip.Has px py ∧ (x ≤ px ∧ px < x + w) ∧ (y ≤ py ∧ py < y + h) ∧
      i = py * s.pitch + px) s.back back) :
    Drawn s (fbMarkDirty { s with back := back } x y w h) := by
  have marked : Marked { s with back := back } (fbMarkDirty { s with back := back } x y w h) x y w h :=
    markDirty_marked tidy.width tidy.height tidy.dirtyX tidy.dirtyY smallX smallY smallW smallH
  generalize fbMarkDirty { s with back := back } x y w h = s' at marked
  obtain ⟨same, dirtyX, dirtyY, kept, new⟩ := marked
  constructor
  case same =>
    rw [same]
  case tidy =>
    rw [same] at dirtyX dirtyY ⊢
    exact ⟨tidy.ready, tidy.width, tidy.height, tidy.pitch, tidy.cells, tidy.clipX, tidy.clipY, dirtyX, dirtyY⟩
  case kept => exact kept
  case changed =>
    intro i changed
    have drawn : s'.back = back := by rw [same]
    rw [drawn] at changed
    obtain ⟨px, py, has, inX, inY, place⟩ := touches i changed
    have visible : s.Visible px py := clip_visible tidy has
    exact ⟨px, py, has, place, new px py visible inX inY⟩

theorem clipRect_inside (tidy : Tidy s) {r : Rect} (found : clipRect s.clip x y w h = some r) :
    (s.clip.x ≤ r.x ∧ 0 < r.w ∧ r.x + r.w ≤ s.clip.x + s.clip.w) ∧
    s.clip.y ≤ r.y ∧ 0 < r.h ∧ r.y + r.h ≤ s.clip.y + s.clip.h := by
  obtain ⟨startX, sizeX, insideX⟩ := tidy.clipX
  obtain ⟨startY, sizeY, insideY⟩ := tidy.clipY
  have width := tidy.width
  have height := tidy.height
  have right : int (s.clip.x + s.clip.w) = s.clip.x + s.clip.w := int_id (by omega) (by omega)
  have bottom : int (s.clip.y + s.clip.h) = s.clip.y + s.clip.h := int_id (by omega) (by omega)
  unfold clipRect at found
  dsimp only at found
  rw [right, bottom] at found
  generalize int (x + w) = end_ at found
  generalize int (y + h) = below at found
  split at found
  · cases found
  · rename_i shown
    cases Option.some.inj found
    dsimp only
    rw [int_id (by omega) (by omega), int_id (by omega) (by omega)]
    omega

theorem painted_drawn (tidy : Tidy s) {paint : Rect → Buffer UInt32}
    (each : ∀ r, Touches (Cells s.pitch r.x r.y r.w r.h) s.back (paint r)) : Drawn s (painted s x y w h paint) := by
  unfold painted
  split
  · exact Drawn.refl tidy
  · split
    · exact Drawn.refl tidy
    · rename_i r found
      obtain ⟨⟨left, across, right⟩, top, along, bottom⟩ := clipRect_inside tidy found
      obtain ⟨startX, sizeX, insideX⟩ := tidy.clipX
      obtain ⟨startY, sizeY, insideY⟩ := tidy.clipY
      have width := tidy.width
      have height := tidy.height
      apply marked_drawn tidy ⟨by omega, by omega⟩ ⟨by omega, by omega⟩ (by omega) (by omega)
      refine Touches.mono (each r) ?_
      rintro i ⟨px, py, inX, inY, place⟩
      exact ⟨px, py, ⟨⟨by omega, by omega⟩, by omega, by omega⟩, inX, inY, place⟩

theorem rows_inside {n : Int} {row : Nat} (member : row ∈ rows n) : 0 ≤ (row : Int) ∧ (row : Int) < n := by
  have bound := List.mem_range.mp member
  omega

theorem fillRect_drawn (tidy : Tidy s) (x y w h : Int) (color : Color) : Drawn s (fbFillRect s x y w h color) := by
  apply painted_drawn tidy
  intro r
  apply Touches.fold
  intro row member back
  exact (fill_touches back _ _ _).mono fun i here => cells_row (rows_inside member) here

theorem cells_pixel {pitch : Int} {row col : Nat} (row_ : row ∈ rows h) (col_ : col ∈ rows w) :
    Cells pitch x y w h ((y + row) * pitch + x + col) := by
  have column := rows_inside col_
  exact cells_row (rows_inside row_) ⟨by omega, by omega⟩

theorem fillRectAlpha_drawn (tidy : Tidy s) (x y w h : Int) (color : Color) (alpha : UInt8) :
    Drawn s (fbFillRectAlpha s x y w h color alpha) := by
  apply painted_drawn tidy
  intro r
  apply Touches.fold
  intro row row_ back
  apply Touches.fold
  intro col col_ back'
  exact poke_touches (cells_pixel row_ col_) back' _

theorem blit_drawn (tidy : Tidy s) (x y w h : Int) (src : Buffer UInt32) (srcPitch : Int) :
    Drawn s (fbBlit s x y w h src srcPitch) := by
  apply painted_drawn tidy
  intro r
  apply Touches.fold
  intro row member back
  exact (copy_touches back _ _ _ _).mono fun i here => cells_row (rows_inside member) here

theorem blitAlpha_drawn (tidy : Tidy s) (x y w h : Int) (src : Buffer UInt32) (srcPitch : Int) :
    Drawn s (fbBlitAlpha s x y w h src srcPitch) := by
  apply painted_drawn tidy
  intro r
  apply Touches.fold
  intro row row_ back
  apply Touches.fold
  intro col col_ back'
  dsimp only
  split
  · exact Touches.refl back'
  · exact poke_touches (cells_pixel row_ col_) back' _

theorem inside_clip (tidy : Tidy s) (inside : ¬ outsideClip s x y = true) : s.clip.Has x y := by
  obtain ⟨startX, sizeX, insideX⟩ := tidy.clipX
  obtain ⟨startY, sizeY, insideY⟩ := tidy.clipY
  have width := tidy.width
  have height := tidy.height
  have right : int (s.clip.x + s.clip.w) = s.clip.x + s.clip.w := int_id (by omega) (by omega)
  have bottom : int (s.clip.y + s.clip.h) = s.clip.y + s.clip.h := int_id (by omega) (by omega)
  unfold outsideClip at inside
  rw [right, bottom] at inside
  simp only [Bool.or_eq_true, decide_eq_true_eq] at inside
  exact ⟨⟨by omega, by omega⟩, by omega, by omega⟩

theorem pixel_drawn (tidy : Tidy s) (has : s.clip.Has x y) (value : UInt32) :
    Drawn s (fbMarkDirty { s with back := poke s.back (y * s.pitch + x) value } x y 1 1) := by
  obtain ⟨⟨left, right⟩, top, bottom⟩ := clip_visible tidy has
  have width := tidy.width
  have height := tidy.height
  apply marked_drawn tidy ⟨by omega, by omega⟩ ⟨by omega, by omega⟩ (by decide) (by decide)
  exact poke_touches ⟨x, y, has, ⟨by omega, by omega⟩, ⟨by omega, by omega⟩, rfl⟩ _ _

theorem place_int (tidy : Tidy s) (visible : s.Visible x y) : int (int (y * s.pitch) + x) = y * s.pitch + x := by
  obtain ⟨⟨left, right⟩, top, bottom⟩ := visible
  have pitch := tidy.pitch
  have cells := tidy.cells
  have positive : 0 ≤ s.pitch := by omega
  have below : (y + 1) * s.pitch ≤ s.height * s.pitch := Int.mul_le_mul_of_nonneg_right (by omega) positive
  have start : 0 ≤ y * s.pitch := Int.mul_nonneg top positive
  rw [Int.mul_comm s.height, Int.add_mul, Int.one_mul] at below
  have line : int (y * s.pitch) = y * s.pitch := int_id (by omega) (by omega)
  rw [line, int_id (by omega) (by omega)]

theorem putPixel_drawn (tidy : Tidy s) (x y : Int) (color : Color) : Drawn s (fbPutPixel s x y color) := by
  unfold fbPutPixel
  split
  · exact Drawn.refl tidy
  · split
    · exact Drawn.refl tidy
    · rename_i inside
      have has := inside_clip tidy inside
      rw [place_int tidy (clip_visible tidy has)]
      exact pixel_drawn tidy has _

theorem blendPixel_drawn (tidy : Tidy s) (x y : Int) (color : Color) (alpha : UInt8) :
    Drawn s (fbBlendPixel s x y color alpha) := by
  unfold fbBlendPixel
  split
  · exact Drawn.refl tidy
  · split
    · exact Drawn.refl tidy
    · rename_i inside
      exact pixel_drawn tidy (inside_clip tidy inside) _

theorem scaled_place {n scale : Int} {k sub : Nat} (small : Small x) (size : n * scale < 2 ^ 28) (k_ : k ∈ rows n)
    (sub_ : sub ∈ rows scale) :
    x ≤ int (int (x + int (k * scale)) + sub) ∧ int (int (x + int (k * scale)) + sub) < x + n * scale := by
  obtain ⟨low, high⟩ := small
  obtain ⟨start, before⟩ := rows_inside k_
  obtain ⟨first, within⟩ := rows_inside sub_
  have positive : 0 ≤ scale := by omega
  have front : 0 ≤ (k : Int) * scale := Int.mul_nonneg start positive
  have below : ((k : Int) + 1) * scale ≤ n * scale := Int.mul_le_mul_of_nonneg_right (by omega) positive
  rw [Int.add_mul, Int.one_mul] at below
  have offset : int (k * scale) = k * scale := int_id (by omega) (by omega)
  have corner : int (x + k * scale) = x + k * scale := int_id (by omega) (by omega)
  have pixel : int (x + k * scale + sub) = x + k * scale + sub := int_id (by omega) (by omega)
  rw [offset, corner, pixel]
  omega

theorem glyph_touches (tidy : Tidy s) {font : Font} {scale : Int} (smallX : Small x) (smallY : Small y)
    (sizeX : font.width.toNat * scale < 2 ^ 28) (sizeY : font.height.toNat * scale < 2 ^ 28) (value : UInt32) (glyph : Int) :
    Touches (fun i => ∃ px py, s.clip.Has px py ∧ (x ≤ px ∧ px < x + font.width.toNat * scale) ∧
        (y ≤ py ∧ py < y + font.height.toNat * scale) ∧ i = py * s.pitch + px)
      s.back ((rows font.height.toNat).foldl (drawGlyphRow s font x y scale value glyph) s.back) := by
  obtain ⟨clipX, clipW, insideX⟩ := tidy.clipX
  obtain ⟨clipY, clipH, insideY⟩ := tidy.clipY
  have width := tidy.width
  have height := tidy.height
  have right : int (s.clip.x + s.clip.w) = s.clip.x + s.clip.w := int_id (by omega) (by omega)
  have bottom : int (s.clip.y + s.clip.h) = s.clip.y + s.clip.h := int_id (by omega) (by omega)
  apply Touches.fold
  intro row row_ back
  unfold drawGlyphRow
  dsimp only
  split
  · exact Touches.refl back
  · apply Touches.fold
    intro sub sub_ back
    have inY := scaled_place smallY sizeY row_ sub_
    rw [bottom]
    split
    · exact Touches.refl back
    · rename_i onLine
      apply Touches.fold
      intro col col_ back
      unfold drawColumn
      split
      · exact Touches.refl back
      · apply Touches.fold
        intro xsub xsub_ back
        have inX := scaled_place smallX sizeX col_ xsub_
        dsimp only
        rw [right]
        split
        · exact Touches.refl back
        · rename_i onColumn
          exact poke_touches ⟨_, _, ⟨⟨by omega, by omega⟩, by omega, by omega⟩, inX, inY, rfl⟩ back value

theorem drawCharIn_drawn (tidy : Tidy s) {font : Option Font} {scale : Int} (smallX : Small x) (smallY : Small y)
    (sizes : ∀ f, font = some f → f.width.toNat * scale < 2 ^ 28 ∧ f.height.toNat * scale < 2 ^ 28) (c : UInt8) (fg : Color) :
    Drawn s (fbDrawCharIn s font x y c fg scale) := by
  unfold fbDrawCharIn
  split
  · exact Drawn.refl tidy
  · rename_i font
    obtain ⟨sizeX, sizeY⟩ := sizes font rfl
    split
    · exact Drawn.refl tidy
    · have cellX := font.width.toNat_lt
      have cellY := font.height.toNat_lt
      dsimp only
      generalize grown : (if scale < 1 then 1 else scale) = scale'
      have positive : 1 ≤ scale' ∧ (scale' = 1 ∨ scale' = scale) := by
        split at grown <;> omega
      have sizeX' : font.width.toNat * scale' < 2 ^ 28 := by
        obtain one | same := positive.2
        · rw [one, Int.mul_one]
          omega
        · rw [same]
          exact sizeX
      have sizeY' : font.height.toNat * scale' < 2 ^ 28 := by
        obtain one | same := positive.2
        · rw [one, Int.mul_one]
          omega
        · rw [same]
          exact sizeY
      have nonnegX : 0 ≤ (font.width.toNat : Int) * scale' := Int.mul_nonneg (by omega) (by omega)
      have nonnegY : 0 ≤ (font.height.toNat : Int) * scale' := Int.mul_nonneg (by omega) (by omega)
      rw [int_id (by omega) (by omega), int_id (by omega) (by omega)]
      exact marked_drawn tidy smallX smallY sizeX' sizeY' (glyph_touches tidy smallX smallY sizeX' sizeY' _ _)

theorem roundRow_drawn (tidy : Tidy a) {x y w h radius : Int} {color : Color} {row : Nat}
    (ran : roundRow x y w h radius color a row = some b) : Drawn a b := by
  unfold roundRow at ran
  simp only [Option.bind_eq_bind, Option.bind_eq_some_iff, Option.pure_def] at ran
  obtain ⟨dx, -, last⟩ := ran
  cases Option.some.inj last
  have first := fillRect_drawn tidy (int (x + int (radius - dx))) (int (y + row)) (int (w - int (2 * int (radius - dx)))) 1 color
  exact first.trans (fillRect_drawn first.tidy _ _ _ _ _)

theorem roundRows_drawn (tidy : Tidy a) {x y w h radius : Int} {color : Color} {rows : List Nat}
    (ran : rows.foldlM (roundRow x y w h radius color) a = some b) : Drawn a b := by
  induction rows generalizing a with
  | nil =>
    cases Option.some.inj ran
    exact Drawn.refl tidy
  | cons row rows ih =>
    rw [List.foldlM_cons] at ran
    obtain ⟨next, now, later⟩ := Option.bind_eq_some_iff.mp ran
    have drawn := roundRow_drawn tidy now
    exact drawn.trans (ih drawn.tidy later)

theorem fillRoundRect_drawn (tidy : Tidy a) {x y w h radius : Int} {color : Color}
    (ran : fbFillRoundRect a x y w h radius color = some b) : Drawn a b := by
  unfold fbFillRoundRect at ran
  dsimp only at ran
  split at ran
  · cases Option.some.inj ran
    exact Drawn.refl tidy
  · split at ran
    · cases Option.some.inj ran
      exact fillRect_drawn tidy _ _ _ _ _
    · have band := fillRect_drawn tidy x (int (y + min radius (min (w.tdiv 2) (h.tdiv 2)))) w
        (int (h - int (2 * min radius (min (w.tdiv 2) (h.tdiv 2))))) color
      exact band.trans (roundRows_drawn band.tidy ran)

theorem lineLoop_drawn (tidy : Tidy a) {x1 y1 dx dy sx sy : Int} {color : Color} {fuel : Nat} {x0 y0 err : Int}
    (ran : lineLoop x1 y1 dx dy sx sy color fuel a x0 y0 err = some b) : Drawn a b := by
  induction fuel generalizing a x0 y0 err with
  | zero => cases ran
  | succ fuel ih =>
    have pixel := putPixel_drawn tidy x0 y0 color
    unfold lineLoop at ran
    dsimp only at ran
    split at ran
    · cases Option.some.inj ran
      exact pixel
    · exact pixel.trans (ih pixel.tidy ran)

end Primitives

end Qito.Fb
