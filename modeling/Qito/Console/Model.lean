import Qito.Lib.Faults
import Qito.Lib.Signed

/-! The character console of gfx/console.c: the grid of cells, the cursor, and the
parser for ANSI escape sequences. Arithmetic in int wraps, and a computation stops
at the first index outside the object it names. -/
namespace Qito.Console
open Signed

abbrev Color := UInt32
abbrev consoleColsMax : Int := 256
abbrev consoleRowsMax : Int := 128
/-- The number of entries of esc_params. -/
abbrev paramSlots : Int := 8

/-- An index that its object does not have. -/
inductive Fault where
  | cell (index : Int)
  | param (index : Int)

structure Cell where
  ch : UInt8
  fg : Color
  bg : Color

inductive EscState where
  | none
  | start
  | csi
  deriving DecidableEq

structure Grid where
  cells : Int → Cell
  cols : Int
  rows : Int
  cursorX : Int
  cursorY : Int
  currentFg : Color
  currentBg : Color
  defaultFg : Color
  defaultBg : Color
  escState : EscState
  escParams : Int → Int
  escParamCount : Int

def rgb (r g b : UInt32) : Color := (r <<< 16) ||| (g <<< 8) ||| b

/-- The standard 16 ANSI colours. -/
def ansiColors : List Color :=
  [rgb 30 32 40, rgb 220 80 80, rgb 120 200 120, rgb 220 200 100,
   rgb 90 150 230, rgb 190 120 220, rgb 90 200 210, rgb 200 205 215,
   rgb 90 95 110, rgb 250 120 120, rgb 160 230 160, rgb 250 230 140,
   rgb 130 185 250, rgb 220 160 250, rgb 130 230 240, rgb 245 248 255]

def ansi (index : Int) : Color := ansiColors.getD index.toNat 0

/-- The number of cells that console_init allocates. -/
def Grid.area (s : Grid) : Int := s.cols * s.rows

/-- A store to one cell. -/
def setCell (s : Grid) (index : Int) (change : Cell → Cell) : Except Fault Grid :=
  if 0 ≤ index ∧ index < s.area then .ok { s with cells := Function.update s.cells index (change (s.cells index)) }
  else .error (.cell index)

/-- Stores to count cells that follow one another. -/
def setCells (s : Grid) (start count : Int) (change : Cell → Cell) : Except Fault Grid :=
  (List.range count.toNat).foldlM (fun s (i : Nat) => setCell s (start + i) change) s

/-- The memmove of count cells from one place in the grid to another. -/
def moveCells (s : Grid) (target source count : Int) : Except Fault Grid :=
  if target < 0 ∨ source < 0 ∨ s.area < target + count then .error (.cell (target + count))
  else if s.area < source + count then .error (.cell (source + count))
  else
    .ok { s with cells := fun i => if target ≤ i ∧ i < target + count then s.cells (i - target + source) else s.cells i }

def readParam (s : Grid) (index : Int) : Except Fault Int :=
  if 0 ≤ index ∧ index < paramSlots then .ok (s.escParams index) else .error (.param index)

def setParam (s : Grid) (index value : Int) : Except Fault Grid :=
  if 0 ≤ index ∧ index < paramSlots then .ok { s with escParams := Function.update s.escParams index value }
  else .error (.param index)

/-- The cell that clearing leaves. -/
def blank (s : Grid) : Cell := ⟨' '.toUInt8, s.currentFg, s.currentBg⟩

def consoleResetColor (s : Grid) : Grid := { s with currentFg := s.defaultFg, currentBg := s.defaultBg }

def consoleClear (s : Grid) : Except Fault Grid := do
  let s ← setCells s 0 s.area fun _ => blank s
  return { s with cursorX := 0, cursorY := 0 }

/-- The console after console_init with the text size of the screen, when the grid
could be allocated. -/
def consoleInit (columns rows : Int) : Except Fault Grid :=
  consoleClear {
    cells := fun _ => ⟨0, 0, 0⟩, cols := min columns consoleColsMax, rows := min rows consoleRowsMax
    cursorX := 0, cursorY := 0
    currentFg := rgb 205 212 225, currentBg := rgb 18 20 28, defaultFg := rgb 205 212 225, defaultBg := rgb 18 20 28
    escState := .none, escParams := fun _ => 0, escParamCount := 0 }

def scrollUp (s : Grid) : Except Fault Grid := do
  let s ← moveCells s 0 s.cols ((s.rows - 1) * s.cols)
  let s ← setCells s ((s.rows - 1) * s.cols) s.cols fun _ => blank s
  return { s with cursorY := s.rows - 1 }

def newline (s : Grid) : Except Fault Grid :=
  let s := { s with cursorX := 0, cursorY := int32 (s.cursorY + 1) }
  if s.cursorY ≥ s.rows then scrollUp s else return s

/-- One parameter of a Select Graphic Rendition sequence. -/
def applyCode (s : Grid) (code : Int) : Grid :=
  if code = 0 then consoleResetColor s
  else if code = 1 then
    -- bold: the bright variant of the first colour that is the current one
    match (List.range 8).find? fun c => s.currentFg = ansi c with
    | some c => { s with currentFg := ansi (c + 8) }
    | none => s
  else if code = 7 then { s with currentFg := s.currentBg, currentBg := s.currentFg }
  else if code ≥ 30 ∧ code ≤ 37 then { s with currentFg := ansi (code - 30) }
  else if code ≥ 90 ∧ code ≤ 97 then { s with currentFg := ansi (code - 90 + 8) }
  else if code ≥ 40 ∧ code ≤ 47 then { s with currentBg := ansi (code - 40) }
  else if code ≥ 100 ∧ code ≤ 107 then { s with currentBg := ansi (code - 100 + 8) }
  else if code = 39 then { s with currentFg := s.defaultFg }
  else if code = 49 then { s with currentBg := s.defaultBg }
  else s

def applySgr (s : Grid) : Except Fault Grid :=
  if s.escParamCount = 0 then return consoleResetColor s
  else
    (List.range s.escParamCount.toNat).foldlM (fun s (i : Nat) => do
      let code ← readParam s i
      return applyCode s code) s

def clamp (v lo hi : Int) : Int := min (max v lo) hi

/-- The int index of a cell. -/
def Grid.place (s : Grid) (x : Int) : Int := int32 (int32 (s.cursorY * s.cols) + x)

/-- The column of a cursor position, 1 where the sequence does not give it. -/
def columnParam (s : Grid) : Except Fault Int := if s.escParamCount > 1 then readParam s 1 else return 1

/-- The final byte of a control sequence. -/
def finish (s : Grid) (c : UInt8) : Except Fault Grid :=
  if c = 'm'.toUInt8 then applySgr s
  else if c = 'H'.toUInt8 ∨ c = 'f'.toUInt8 then do
    let row ← readParam s 0
    let s := { s with cursorY := clamp (int32 (row - 1)) 0 (s.rows - 1) }
    let column ← columnParam s
    return { s with cursorX := clamp (int32 (column - 1)) 0 (s.cols - 1) }
  else if c = 'J'.toUInt8 then consoleClear s
  else if c = 'K'.toUInt8 then
    (List.range (s.cols - s.cursorX).toNat).foldlM (fun t (i : Nat) =>
      setCell t (t.place (s.cursorX + i)) fun cell => { cell with ch := ' '.toUInt8, bg := t.currentBg }) s
  else if c = 'A'.toUInt8 then do
    let steps ← readParam s 0
    return { s with cursorY := max (int32 (s.cursorY - max steps 1)) 0 }
  else if c = 'B'.toUInt8 then do
    let steps ← readParam s 0
    return { s with cursorY := min (int32 (s.cursorY + max steps 1)) (s.rows - 1) }
  else if c = 'C'.toUInt8 then do
    let steps ← readParam s 0
    return { s with cursorX := min (int32 (s.cursorX + max steps 1)) (s.cols - 1) }
  else if c = 'D'.toUInt8 then do
    let steps ← readParam s 0
    return { s with cursorX := max (int32 (s.cursorX - max steps 1)) 0 }
  else return s

/-- Feeds one character through the escape sequence state machine. The answer is
true when the character was consumed as part of a sequence. -/
def handleEscape (s : Grid) (c : UInt8) : Except Fault (Bool × Grid) :=
  match s.escState with
  | .none =>
    if c = 27 then return (true, { s with escState := .start, escParamCount := 0, escParams := fun _ => 0 })
    else return (false, s)
  | .start => return (true, { s with escState := if c = '['.toUInt8 then .csi else .none })
  | .csi =>
    if c ≥ '0'.toUInt8 ∧ c ≤ '9'.toUInt8 then do
      let s := if s.escParamCount = 0 then { s with escParamCount := 1 } else s
      let value ← readParam s (s.escParamCount - 1)
      let s ← setParam s (s.escParamCount - 1) (int32 (int32 (value * 10) + (c.toNat - '0'.toNat)))
      return (true, s)
    else if c = ';'.toUInt8 then
      return (true, if s.escParamCount < paramSlots then { s with escParamCount := s.escParamCount + 1 } else s)
    else do
      let s ← finish s c
      return (true, { s with escState := .none })

/-- Goes on to a new line where the cursor is behind the last column. -/
def wrapLine (s : Grid) : Except Fault Grid := if s.cursorX ≥ s.cols then newline s else return s

/-- A byte that is not part of an escape sequence. -/
def putPlain (s : Grid) (c : UInt8) : Except Fault Grid :=
  if c = '\n'.toUInt8 then newline s
  else if c = '\r'.toUInt8 then return { s with cursorX := 0 }
  else if c = '\t'.toUInt8 then
    -- & ~7 rounds down to a multiple of eight
    wrapLine { s with cursorX := int32 (s.cursorX + 8) / 8 * 8 }
  else if c = 8 then
    if s.cursorX > 0 then
      setCell { s with cursorX := s.cursorX - 1 } (s.place (s.cursorX - 1)) fun cell => { cell with ch := ' '.toUInt8 }
    else return s
  else if c = 0 then return s
  else do
    let s ← wrapLine s
    let s ← setCell s (s.place s.cursorX) fun _ => ⟨c, s.currentFg, s.currentBg⟩
    return { s with cursorX := int32 (s.cursorX + 1) }

def consolePutc (s : Grid) (c : UInt8) : Except Fault Grid := do
  let (consumed, s) ← handleEscape s c
  if consumed then return s else putPlain s c

/-- console_write where no hook takes the text. -/
def consoleWrite (s : Grid) (text : List UInt8) : Except Fault Grid := text.foldlM consolePutc s

end Qito.Console
