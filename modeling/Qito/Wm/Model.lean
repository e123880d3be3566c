import Qito.Lib.Lists
import Mathlib.Logic.Function.Basic
import Mathlib.Tactic.Common

/-! The window manager of desktop/desktop.c. The windows are slots of an array of
which the first window_total are live; a pointer to a window is the number of its
slot, and closing a window moves those behind it down. What is drawn, titles and
the state of the applications are not part of the model. -/
namespace Qito.Wm

abbrev maxWindows : Nat := 24

abbrev titlebarHeight : Int := 28
abbrev borderWidth : Int := 1
abbrev panelHeight : Int := 32
abbrev resizeHandle : Int := 14
abbrev menuButtonW : Int := 96

abbrev keyTab : Nat := 0x09
abbrev keyEnter : Nat := 0x0A
abbrev keyEscape : Nat := 0x1B
abbrev keyUp : Nat := 0x100
abbrev keyDown : Nat := 0x101
abbrev keyF4 : Nat := 0x113
abbrev keyF12 : Nat := 0x11B

/-- The value an int holds after n was assigned to it. -/
def wrapInt (n : Int) : Int := (n + 2 ^ 31) % 2 ^ 32 - 2 ^ 31

abbrev intMax : Int := 2 ^ 31 - 1

def clamp (v lo hi : Int) : Int := min (max v lo) hi

inductive WindowState where
  | normal
  | minimised
  | maximised
deriving DecidableEq

structure Application where
  name : String
  defaultWidth : Int
  defaultHeight : Int
  showInMenu : Bool
  stateSize : Nat
  /-- The hooks that are not NULL. -/
  onMouse : Bool
  onKey : Bool

structure Window where
  id : Int
  x : Int
  y : Int
  w : Int
  h : Int
  restoreX : Int
  restoreY : Int
  restoreW : Int
  restoreH : Int
  state : WindowState
  visible : Bool
  focused : Bool
  resizable : Bool
  app : Option Application
  zOrder : Int

/-- A slot as memset leaves it. -/
def blankWindow : Window := ⟨0, 0, 0, 0, 0, 0, 0, 0, 0, .normal, false, false, false, none, 0⟩

/-- The screen and the applications that are registered. -/
structure Env where
  fbWidth : Int
  fbHeight : Int
  applications : List Application

structure Desktop where
  windows : Nat → Window
  windowTotal : Nat
  nextWindowId : Int
  focusedWindow : Option Nat
  dragWindow : Option Nat
  dragOffsetX : Int
  dragOffsetY : Int
  resizing : Bool
  menuOpen : Bool
  menuHover : Int
  menuX : Int
  menuY : Int
  menuW : Int
  menuH : Int
  previousButtons : Nat

/-- The static objects before the first event. -/
def desktopStart : Desktop where
  windows := fun _ => blankWindow
  windowTotal := 0
  nextWindowId := 1
  focusedWindow := none
  dragWindow := none
  dragOffsetX := 0
  dragOffsetY := 0
  resizing := false
  menuOpen := false
  menuHover := -1
  menuX := 0
  menuY := 0
  menuW := 0
  menuH := 0
  previousButtons := 0

def Desktop.setWindow (s : Desktop) (i : Nat) (f : Window → Window) : Desktop :=
  { s with windows := Function.update s.windows i (f (s.windows i)) }

/-- The highest z_order of a live window, at least 0. -/
def topOrder (s : Desktop) : Int :=
  (List.range s.windowTotal).foldl (fun top i => if (s.windows i).zOrder > top then (s.windows i).zOrder else top) 0

/-- focused_window loses its flag unless it is the window to focus. -/
def unfocus (s : Desktop) (i : Nat) : Desktop :=
  match s.focusedWindow with
  | some j => if j ≠ i then s.setWindow j fun win => { win with focused := false } else s
  | none => s

/-- The window goes to the top of the stack. -/
def raise (s : Desktop) (i : Nat) : Desktop :=
  { s.setWindow i fun win => { win with zOrder := wrapInt (topOrder s + 1), focused := true } with focusedWindow := some i }

def windowFocus (s : Desktop) (i : Nat) : Desktop :=
  if (s.windows i).visible = false then s else raise (unfocus s i) i

/-- The topmost visible window, the first of equals. -/
def topmost (s : Desktop) : Option Nat :=
  (List.range s.windowTotal).foldl (fun top i =>
    if (s.windows i).visible ∧ (∀ j ∈ top, (s.windows i).zOrder > (s.windows j).zOrder) then some i else top) none

def focusTopmost (s : Desktop) : Desktop :=
  match topmost s with
  | some i => windowFocus s i
  | none => s

def newWindow (env : Env) (id : Int) (app : Application) (x y : Int) : Window :=
  let w := min app.defaultWidth (env.fbWidth - 40)
  let h := min app.defaultHeight (env.fbHeight - panelHeight - 40)
  { blankWindow with
    id := id
    app := some app
    w := w
    h := h
    x := clamp x 0 (max (env.fbWidth - w) 0)
    y := clamp y (panelHeight + 4) (max (env.fbHeight - h - 4) (panelHeight + 4))
    visible := true
    resizable := true
    state := .normal }

/-- memory says whether kzalloc has room for the state of the application. -/
def windowCreateAt (env : Env) (s : Desktop) (name : String) (x y : Int) (memory : Bool) : Desktop :=
  match env.applications.find? fun app => app.name = name with
  | none => s
  | some app =>
    if s.windowTotal ≥ maxWindows then s
    else
      let t := { s with
        windows := Function.update s.windows s.windowTotal (newWindow env s.nextWindowId app x y)
        nextWindowId := wrapInt (s.nextWindowId + 1) }
      if app.stateSize ≠ 0 ∧ memory = false then t
      else windowFocus { t with windowTotal := s.windowTotal + 1 } s.windowTotal

/-- New windows are cascaded. -/
def windowCreate (env : Env) (s : Desktop) (name : String) (memory : Bool) : Desktop :=
  let offset : Int := (s.windowTotal % 8 : Nat) * 26
  windowCreateAt env s name (70 + offset) (panelHeight + 30 + offset) memory

/-- The windows behind the slot move down by one. -/
def removeWindow (s : Desktop) (i : Nat) : Desktop :=
  { s with
    windows := fun j => if i ≤ j ∧ j < s.windowTotal - 1 then s.windows (j + 1) else s.windows j
    windowTotal := s.windowTotal - 1 }

def windowClose (s : Desktop) (i : Nat) : Desktop :=
  let t := removeWindow s i
  focusTopmost { t with
    windows := fun j => if j < t.windowTotal then { t.windows j with focused := false } else t.windows j
    focusedWindow := none }

def windowMinimise (s : Desktop) (i : Nat) : Desktop :=
  let t := s.setWindow i fun win => { win with state := .minimised, visible := false, focused := false }
  if s.focusedWindow = some i then focusTopmost { t with focusedWindow := none } else t

def windowRestore (s : Desktop) (i : Nat) : Desktop :=
  windowFocus (s.setWindow i fun win =>
    let back := if win.state = .maximised then
      { win with x := win.restoreX, y := win.restoreY, w := win.restoreW, h := win.restoreH } else win
    { back with state := .normal, visible := true }) i

def windowMaximise (env : Env) (s : Desktop) (i : Nat) : Desktop :=
  if (s.windows i).state = .maximised then windowRestore s i
  else
    s.setWindow i fun win => { win with
      restoreX := win.x
      restoreY := win.y
      restoreW := win.w
      restoreH := win.h
      x := 0
      y := panelHeight
      w := env.fbWidth
      h := env.fbHeight - panelHeight
      state := .maximised }

def covers (win : Window) (x y : Int) : Prop := win.x ≤ x ∧ x < win.x + win.w ∧ win.y ≤ y ∧ y < win.y + win.h

instance (win : Window) (x y : Int) : Decidable (covers win x y) :=
  inferInstanceAs (Decidable (_ ∧ _ ∧ _ ∧ _))

/-- The topmost visible window with the point. -/
def windowHitTest (s : Desktop) (x y : Int) : Option Nat :=
  (List.range s.windowTotal).foldl (fun best i =>
    if (s.windows i).visible ∧ covers (s.windows i) x y ∧ (∀ j ∈ best, (s.windows i).zOrder > (s.windows j).zOrder) then some i
    else best) none

inductive Hit where
  | none
  | titlebar
  | close
  | maximise
  | minimise
  | resize
  | client
deriving DecidableEq

def hitTestWindow (win : Window) (x y : Int) : Hit :=
  if ¬ covers win x y then .none
  else if y < win.y + titlebarHeight then
    let right := win.x + win.w - 12
    let cy := win.y + titlebarHeight / 2
    if cy - 9 ≤ y ∧ y ≤ cy + 9 ∧ right - 14 ≤ x ∧ x ≤ right then .close
    else if cy - 9 ≤ y ∧ y ≤ cy + 9 ∧ right - 34 ≤ x ∧ x ≤ right - 20 then .maximise
    else if cy - 9 ≤ y ∧ y ≤ cy + 9 ∧ right - 54 ≤ x ∧ x ≤ right - 40 then .minimise
    else .titlebar
  else if win.resizable ∧ win.state ≠ .maximised ∧ x ≥ win.x + win.w - resizeHandle ∧ y ≥ win.y + win.h - resizeHandle then
    .resize
  else .client

def menuApps (env : Env) : List Application := env.applications.filter Application.showInMenu

/-- A row that is negative or past the last opens nothing. -/
def openMenuItem (env : Env) (s : Desktop) (row : Int) (memory : Bool) : Desktop :=
  match (if row < 0 then none else (menuApps env)[row.toNat]?) with
  | some app => windowCreate env s app.name memory
  | none => s

/-- The slot whose button in the task list has the point. -/
def taskButton (s : Desktop) (x : Int) : Option Nat :=
  (List.range s.windowTotal).find? fun i =>
    menuButtonW + 8 + 134 * (i : Int) ≤ x ∧ x < menuButtonW + 8 + 134 * (i : Int) + 128

/-- The button of a window raises it, or minimises it if it has the focus. -/
def clickTask (s : Desktop) (x : Int) : Desktop :=
  match taskButton s x with
  | none => s
  | some i =>
    if (s.windows i).visible ∧ (s.windows i).focused then windowMinimise s i
    else
      windowFocus (s.setWindow i fun win => { win with
        visible := true
        state := if win.state = .minimised then .normal else win.state }) i

/-- What Alt+Tab selects: the lowest visible window but the focused one. -/
def lowest (s : Desktop) : Option Nat :=
  ((List.range s.windowTotal).foldl (fun found i =>
    if (s.windows i).visible = false ∨ s.focusedWindow = some i then found
    else if (s.windows i).zOrder < found.2 then (some i, (s.windows i).zOrder) else found) ((none : Option Nat), intMax)).1

def altTab (s : Desktop) : Desktop :=
  if s.windowTotal > 1 then
    match lowest s with
    | some i => windowFocus s i
    | none => s
  else s

/-- What an application does with an event it is given: it may open a window. -/
def react (env : Env) (s : Desktop) (opens : Option String) (memory : Bool) : Desktop :=
  match opens with
  | some name => windowCreate env s name memory
  | none => s

end Qito.Wm
