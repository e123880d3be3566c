import Qito.Lib.Canvas

/-! The framebuffer of gfx/fb.c: the back buffer that is drawn to, the front buffer
in video memory, the clip rectangle and the dirty rectangle. A buffer is addressed
in words from its start. A drawing call returns none where its loop does not end. -/
namespace Qito.Fb
open Canvas

abbrev Color := UInt32
abbrev heapMaxSize : Nat := 256 * 1024 * 1024

/-- The value of a computation in int. -/
def int (n : Int) : Int := n.bmod (2 ^ 32)

structure Rect where
  x : Int
  y : Int
  w : Int
  h : Int

structure Layout where
  shiftR : UInt8
  shiftG : UInt8
  shiftB : UInt8

structure Screen where
  back : Buffer UInt32
  front : Buffer UInt32
  width : Int
  height : Int
  pitch : Int
  ready : Bool
  frames : Nat
  layout : Layout
  clip : Rect
  dirty : Rect
  dirtyValid : Bool

structure BootInfo where
  fbValid : Bool
  fbAddr : UInt64
  fbPitch : UInt32
  fbWidth : UInt16
  fbHeight : UInt16
  fbBpp : UInt8
  fbRedShift : UInt8
  fbGreenShift : UInt8
  fbBlueShift : UInt8

/-- Eight bits of a colour. -/
def channel (c shift : UInt32) : UInt32 := (c >>> shift) &&& 0xFF

def pack (layout : Layout) (c : Color) : UInt32 :=
  if layout.shiftR = 16 ∧ layout.shiftG = 8 ∧ layout.shiftB = 0 then c
  else
    (channel c 16 <<< layout.shiftR.toUInt32) ||| (channel c 8 <<< layout.shiftG.toUInt32) |||
      (channel c 0 <<< layout.shiftB.toUInt32)

def fbResetClip (s : Screen) : Screen := { s with clip := ⟨0, 0, s.width, s.height⟩ }

def fbMarkAllDirty (s : Screen) : Screen := { s with dirty := ⟨0, 0, s.width, s.height⟩, dirtyValid := true }

/-- The screen after a successful fb_init: memory is the largest block the heap
can hand out, video what stands in video memory. -/
def fbInit (memory : Nat) (video : Buffer UInt32) (boot : BootInfo) : Option Screen :=
  let pitch := boot.fbPitch.toNat / (boot.fbBpp.toNat / 8)
  let backBytes := pitch * boot.fbHeight.toNat * 4
  if !boot.fbValid || boot.fbAddr == 0 then none
  else if boot.fbBpp ≠ 32 then none
  else if backBytes = 0 ∨ backBytes > min memory heapMaxSize then none
  else
    some (fbMarkAllDirty (fbResetClip {
      back := fun _ => 0, front := video, width := boot.fbWidth.toNat, height := boot.fbHeight.toNat, pitch := int pitch,
      ready := true, frames := 0, layout := ⟨boot.fbRedShift, boot.fbGreenShift, boot.fbBlueShift⟩,
      clip := ⟨0, 0, 0, 0⟩, dirty := ⟨0, 0, 0, 0⟩, dirtyValid := false }))

def fbSetClip (s : Screen) (x y w h : Int) : Screen :=
  let x0 := max x 0
  let y0 := max y 0
  let x1 := min (int (x + w)) s.width
  let y1 := min (int (y + h)) s.height
  { s with clip := ⟨x0, y0, max (int (x1 - x0)) 0, max (int (y1 - y0)) 0⟩ }

def fbMarkDirty (s : Screen) (x y w h : Int) : Screen :=
  if w ≤ 0 ∨ h ≤ 0 then s
  else
    let x0 := max x 0
    let y0 := max y 0
    let x1 := min (int (x + w)) s.width
    let y1 := min (int (y + h)) s.height
    if x1 ≤ x0 ∨ y1 ≤ y0 then s
    else if !s.dirtyValid then { s with dirty := ⟨x0, y0, int (x1 - x0), int (y1 - y0)⟩, dirtyValid := true }
    else
      let dx1 := max (int (s.dirty.x + s.dirty.w)) x1
      let dy1 := max (int (s.dirty.y + s.dirty.h)) y1
      let x := min s.dirty.x x0
      let y := min s.dirty.y y0
      { s with dirty := ⟨x, y, int (dx1 - x), int (dy1 - y)⟩ }

def fbClear (s : Screen) (color : Color) : Screen :=
  if !s.ready then s
  else fbMarkAllDirty { s with back := fill s.back 0 (s.pitch * s.height) (pack s.layout color) }

/-- The test that fb_put_pixel and fb_blend_pixel make. -/
def outsideClip (s : Screen) (x y : Int) : Bool :=
  decide (x < s.clip.x) || decide (y < s.clip.y) || decide (x ≥ int (s.clip.x + s.clip.w)) ||
    decide (y ≥ int (s.clip.y + s.clip.h))

def fbPutPixel (s : Screen) (x y : Int) (color : Color) : Screen :=
  if !s.ready then s
  else if outsideClip s x y then s
  else fbMarkDirty { s with back := poke s.back (int (int (y * s.pitch) + x)) (pack s.layout color) } x y 1 1

/-- The part of a rectangle inside the clip rectangle. -/
def clipRect (clip : Rect) (x y w h : Int) : Option Rect :=
  let x0 := max x clip.x
  let y0 := max y clip.y
  let x1 := min (int (x + w)) (int (clip.x + clip.w))
  let y1 := min (int (y + h)) (int (clip.y + clip.h))
  if x1 ≤ x0 ∨ y1 ≤ y0 then none else some ⟨x0, y0, int (x1 - x0), int (y1 - y0)⟩

/-- A drawing call that paints the part of a rectangle that is not clipped. -/
def painted (s : Screen) (x y w h : Int) (paint : Rect → Buffer UInt32) : Screen :=
  if !s.ready then s
  else
    match clipRect s.clip x y w h with
    | none => s
    | some r => fbMarkDirty { s with back := paint r } r.x r.y r.w r.h

def rows (h : Int) : List Nat := List.range h.toNat

def fbFillRect (s : Screen) (x y w h : Int) (color : Color) : Screen :=
  painted s x y w h fun r =>
    (rows r.h).foldl (fun back (row : Nat) => fill back ((r.y + row) * s.pitch + r.x) r.w (pack s.layout color)) s.back

def blend (dst src : UInt32) (alpha : UInt8) : UInt32 :=
  if alpha = 255 then src
  else if alpha = 0 then dst
  else
    let inv := 255 - alpha.toUInt32
    let r := (channel src 16 * alpha.toUInt32 + channel dst 16 * inv) / 255
    let g := (channel src 8 * alpha.toUInt32 + channel dst 8 * inv) / 255
    let b := (channel src 0 * alpha.toUInt32 + channel dst 0 * inv) / 255
    (r <<< 16) ||| (g <<< 8) ||| b

def fbFillRectAlpha (s : Screen) (x y w h : Int) (color : Color) (alpha : UInt8) : Screen :=
  painted s x y w h fun r =>
    (rows r.h).foldl (fun back (row : Nat) =>
      (rows r.w).foldl (fun back (col : Nat) =>
        let place := (r.y + row) * s.pitch + r.x + col
        poke back place (blend (back place) (pack s.layout color) alpha)) back) s.back

/-- The loop that looks for the extent of the corner arc; dx counts up to the
largest int. -/
def arcExtent (limit : Int) : Nat → Int → Option Int
  | 0, _ => none
  | fuel + 1, dx =>
    if int (int (dx + 1) * int (dx + 1)) ≤ limit then arcExtent limit fuel (int (dx + 1)) else some dx

/-- One row of the two corners. -/
def roundRow (x y w h radius : Int) (color : Color) (s : Screen) (row : Nat) : Option Screen := do
  let dy := radius - row
  let limit := int (int (radius * radius) - int (dy * dy))
  let dx ← arcExtent limit (2 ^ 31) 0
  let inset := int (radius - dx)
  let s := fbFillRect s (int (x + inset)) (int (y + row)) (int (w - int (2 * inset))) 1 color
  return fbFillRect s (int (x + inset)) (int (int (int (y + h) - 1) - row)) (int (w - int (2 * inset))) 1 color

def fbFillRoundRect (s : Screen) (x y w h radius : Int) (color : Color) : Option Screen :=
  if w ≤ 0 ∨ h ≤ 0 then some s
  else
    let radius := min radius (min (w.tdiv 2) (h.tdiv 2))
    if radius ≤ 0 then some (fbFillRect s x y w h color)
    else
      let s := fbFillRect s x (int (y + radius)) w (int (h - int (2 * radius))) color
      (rows radius).foldlM (roundRow x y w h radius color) s

/-- The loop of fb_draw_line, for at most fuel pixels. -/
def lineLoop (x1 y1 dx dy sx sy : Int) (color : Color) : Nat → Screen → Int → Int → Int → Option Screen
  | 0, _, _, _, _ => none
  | fuel + 1, s, x0, y0, err =>
    let s := fbPutPixel s x0 y0 color
    if x0 = x1 ∧ y0 = y1 then some s
    else
      let e2 := int (err * 2)
      let right := decide (e2 > -dy)
      let down := decide (e2 < dx)
      let err := if right then int (err - dy) else err
      let x0 := if right then int (x0 + sx) else x0
      let err := if down then int (err + dx) else err
      let y0 := if down then int (y0 + sy) else y0
      lineLoop x1 y1 dx dy sx sy color fuel s x0 y0 err

def fbDrawLine (s : Screen) (x0 y0 x1 y1 : Int) (color : Color) : Option Screen :=
  let dx := if x1 > x0 then int (x1 - x0) else int (x0 - x1)
  let dy := if y1 > y0 then int (y1 - y0) else int (y0 - y1)
  let sx := if x0 < x1 then 1 else -1
  let sy := if y0 < y1 then 1 else -1
  lineLoop x1 y1 dx dy sx sy color (max dx dy).toNat.succ s x0 y0 (int (dx - dy))

def fbBlit (s : Screen) (x y w h : Int) (src : Buffer UInt32) (srcPitch : Int) : Screen :=
  painted s x y w h fun r =>
    let skipX := int (r.x - x)
    let skipY := int (r.y - y)
    (rows r.h).foldl (fun back (row : Nat) =>
      copy back ((r.y + row) * s.pitch + r.x) src ((skipY + row) * srcPitch + skipX) r.w) s.back

def fbBlitAlpha (s : Screen) (x y w h : Int) (src : Buffer UInt32) (srcPitch : Int) : Screen :=
  painted s x y w h fun r =>
    let skipX := int (r.x - x)
    let skipY := int (r.y - y)
    (rows r.h).foldl (fun back (row : Nat) =>
      (rows r.w).foldl (fun back (col : Nat) =>
        let place := (r.y + row) * s.pitch + r.x + col
        let pixel := src ((skipY + row) * srcPitch + skipX + col)
        let alpha := (pixel >>> 24).toUInt8
        if alpha = 0 then back else poke back place (blend (back place) (pixel &&& 0xFFFFFF) alpha)) back) s.back

def fbBlendPixel (s : Screen) (x y : Int) (color : Color) (alpha : UInt8) : Screen :=
  if !s.ready then s
  else if outsideClip s x y then s
  else
    let place := y * s.pitch + x
    fbMarkDirty { s with back := poke s.back place (blend (s.back place) (pack s.layout color &&& 0xFFFFFF) alpha) } x y 1 1

structure Font where
  width : UInt8
  height : UInt8
  first : UInt8
  count : UInt16
  glyphs : Int → UInt8

/-- Where the rows of a character start in the table of a font. -/
def fontGlyph (font : Font) (character : UInt8) : Int :=
  if character.toNat < font.first.toNat ∨ character.toNat ≥ font.first.toNat + font.count.toNat then
    ((font.count.toNat : Int) - 1) * font.height.toNat
  else ((character.toNat : Int) - font.first.toNat) * font.height.toNat

/-- The pixels of one column of a glyph in one line of the screen. -/
def drawColumn (s : Screen) (x py scale : Int) (value : UInt32) (bits : UInt8) (back : Buffer UInt32) (col : Nat) : Buffer UInt32 :=
  if bits.toNat &&& (0x80 >>> col) = 0 then back
  else
    (rows scale).foldl (fun back (xsub : Nat) =>
      let px := int (int (x + int (col * scale)) + xsub)
      if px < s.clip.x ∨ px ≥ int (s.clip.x + s.clip.w) then back else poke back (py * s.pitch + px) value) back

/-- One row of a glyph, scaled. -/
def drawGlyphRow (s : Screen) (font : Font) (x y scale : Int) (value : UInt32) (glyph : Int) (back : Buffer UInt32) (row : Nat) :
    Buffer UInt32 :=
  let bits := font.glyphs (glyph + row)
  if bits = 0 then back
  else
    (rows scale).foldl (fun back (sub : Nat) =>
      let py := int (int (y + int (row * scale)) + sub)
      if py < s.clip.y ∨ py ≥ int (s.clip.y + s.clip.h) then back
      else (rows font.width.toNat).foldl (drawColumn s x py scale value bits) back) back

def fbDrawCharIn (s : Screen) (font : Option Font) (x y : Int) (c : UInt8) (fg : Color) (scale : Int) : Screen :=
  match font with
  | none => s
  | some font =>
    if !s.ready then s
    else
      let scale := if scale < 1 then 1 else scale
      let back := (rows font.height.toNat).foldl (drawGlyphRow s font x y scale (pack s.layout fg) (fontGlyph font c)) s.back
      fbMarkDirty { s with back := back } x y (int (font.width.toNat * scale)) (int (font.height.toNat * scale))

def fbFlushRect (s : Screen) (x y w h : Int) : Screen :=
  if !s.ready then s
  else
    let x0 := max x 0
    let y0 := max y 0
    let x1 := min (int (x + w)) s.width
    let y1 := min (int (y + h)) s.height
    if x1 ≤ x0 ∨ y1 ≤ y0 then s
    else { s with front := copyRows s.pitch s.front s.back x0 y0 (x1 - x0) (rows (y1 - y0)) }

def fbFlush (s : Screen) : Screen :=
  if !s.ready || !s.dirtyValid then s
  else
    let s := fbFlushRect s s.dirty.x s.dirty.y s.dirty.w s.dirty.h
    { s with dirtyValid := false, frames := s.frames + 1 }

inductive Call where
  | clear (color : Color)
  | putPixel (x y : Int) (color : Color)
  | fillRect (x y w h : Int) (color : Color)
  | fillRectAlpha (x y w h : Int) (color : Color) (alpha : UInt8)
  | drawLine (x0 y0 x1 y1 : Int) (color : Color)
  | fillRoundRect (x y w h radius : Int) (color : Color)
  | blit (x y w h : Int) (src : Buffer UInt32) (srcPitch : Int)
  | blitAlpha (x y w h : Int) (src : Buffer UInt32) (srcPitch : Int)
  | blendPixel (x y : Int) (color : Color) (alpha : UInt8)
  | drawCharIn (font : Option Font) (x y : Int) (c : UInt8) (fg : Color) (scale : Int)
  | setClip (x y w h : Int)
  | resetClip
  | flush

def draw (s : Screen) : Call → Option Screen
  | .clear color => some (fbClear s color)
  | .putPixel x y color => some (fbPutPixel s x y color)
  | .fillRect x y w h color => some (fbFillRect s x y w h color)
  | .fillRectAlpha x y w h color alpha => some (fbFillRectAlpha s x y w h color alpha)
  | .drawLine x0 y0 x1 y1 color => fbDrawLine s x0 y0 x1 y1 color
  | .fillRoundRect x y w h radius color => fbFillRoundRect s x y w h radius color
  | .blit x y w h src srcPitch => some (fbBlit s x y w h src srcPitch)
  | .blitAlpha x y w h src srcPitch => some (fbBlitAlpha s x y w h src srcPitch)
  | .blendPixel x y color alpha => some (fbBlendPixel s x y color alpha)
  | .drawCharIn font x y c fg scale => some (fbDrawCharIn s font x y c fg scale)
  | .setClip x y w h => some (fbSetClip s x y w h)
  | .resetClip => some (fbResetClip s)
  | .flush => some (fbFlush s)

end Qito.Fb
