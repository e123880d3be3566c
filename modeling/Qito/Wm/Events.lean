import Qito.Wm.Model

/-! The events of the desktop: handle_mouse and handle_key, branch by branch, and
the calls other code makes. -/
namespace Qito.Wm

/-- A mouse event, with the setting wm.snap_to_edges, whether there is memory, and
the window the application would open if the event gets to it. -/
structure MouseEvent where
  x : Int
  y : Int
  buttons : Nat
  snap : Bool
  memory : Bool
  opens : Option String

structure KeyEvent where
  key : Nat
  modifiers : Nat
  memory : Bool
  opens : Option String

/-- MOUSE_LEFT is the lowest bit. -/
def left (buttons : Nat) : Bool := buttons.testBit 0

def modAlt (modifiers : Nat) : Bool := modifiers.testBit 2
def modSuper (modifiers : Nat) : Bool := modifiers.testBit 3

def pressed (s : Desktop) (e : MouseEvent) : Bool := left e.buttons && !left s.previousButtons

def released (s : Desktop) (e : MouseEvent) : Bool := !left e.buttons && left s.previousButtons

/-- The window in the drag follows the pointer. -/
def dragMove (env : Env) (s : Desktop) (i : Nat) (e : MouseEvent) : Desktop :=
  if s.resizing then
    s.setWindow i fun win => { win with
      w := clamp (e.x - win.x + s.dragOffsetX) 220 (env.fbWidth - win.x)
      h := clamp (e.y - win.y + s.dragOffsetY) 120 (env.fbHeight - win.y) }
  else
    s.setWindow i fun win => { win with
      x := clamp (e.x - s.dragOffsetX) (-(win.w - 80)) (env.fbWidth - 80)
      y := clamp (e.y - s.dragOffsetY) panelHeight (env.fbHeight - titlebarHeight) }

/-- The end of a drag; at the top edge the window is maximised. -/
def endDrag (env : Env) (s : Desktop) (e : MouseEvent) : Desktop :=
  let t := match s.dragWindow with
    | some i => if s.resizing = false ∧ e.snap ∧ e.y ≤ panelHeight + 2 then windowMaximise env s i else s
    | none => s
  { t with dragWindow := none, resizing := false }

/-- The menu with the pointer over it or beside it; true when the click was its. -/
def menuMouse (env : Env) (s : Desktop) (e : MouseEvent) (press : Bool) : Desktop × Bool :=
  if s.menuOpen = false then (s, false)
  else if s.menuX ≤ e.x ∧ e.x < s.menuX + s.menuW ∧ s.menuY ≤ e.y ∧ e.y < s.menuY + s.menuH then
    let row := Int.tdiv (e.y - s.menuY - 8) 26
    if press then (openMenuItem env { s with menuOpen := false, menuHover := -1 } row e.memory, true)
    else ({ s with menuHover := row }, false)
  else if press then ({ s with menuOpen := false, menuHover := -1 }, false)
  else (s, false)

def panelMouse (s : Desktop) (e : MouseEvent) (press : Bool) : Desktop :=
  if press = false then s
  else if e.x < menuButtonW then { s with menuOpen := !s.menuOpen, menuHover := -1 }
  else clickTask s e.x

/-- The event goes to the application of the window, if it is right of and below
the corner of the client area. -/
def deliver (env : Env) (s : Desktop) (i : Nat) (e : MouseEvent) : Desktop :=
  match (s.windows i).app with
  | some app =>
    if app.onMouse ∧ (s.windows i).x + borderWidth ≤ e.x ∧ (s.windows i).y + titlebarHeight ≤ e.y then react env s e.opens e.memory
    else s
  | none => s

/-- A press on a window. -/
def pressWindow (env : Env) (s : Desktop) (i : Nat) (e : MouseEvent) : Desktop :=
  let t := windowFocus s i
  match hitTestWindow (t.windows i) e.x e.y with
  | .close => windowClose t i
  | .maximise => windowMaximise env t i
  | .minimise => windowMinimise t i
  | .titlebar => { t with
      dragWindow := some i
      resizing := false
      dragOffsetX := e.x - (t.windows i).x
      dragOffsetY := e.y - (t.windows i).y }
  | .resize => { t with
      dragWindow := some i
      resizing := true
      dragOffsetX := (t.windows i).x + (t.windows i).w - e.x
      dragOffsetY := (t.windows i).y + (t.windows i).h - e.y }
  | .client | .none => deliver env t i e

def windowMouse (env : Env) (s : Desktop) (e : MouseEvent) (press : Bool) : Desktop :=
  match windowHitTest s e.x e.y with
  | none => s
  | some i => if press then pressWindow env s i e else deliver env s i e

/-- The branches after those for a drag. -/
def idleMouse (env : Env) (s : Desktop) (e : MouseEvent) (press : Bool) : Desktop :=
  let t := menuMouse env s e press
  if t.2 then t.1
  else if e.y < panelHeight then panelMouse t.1 e press
  else windowMouse env t.1 e press

def handleMouse (env : Env) (s : Desktop) (e : MouseEvent) : Desktop :=
  let t := match s.dragWindow, left e.buttons with
    | some i, true => dragMove env s i e
    | _, _ => idleMouse env (if released s e then endDrag env s e else s) e (pressed s e)
  { t with previousButtons := e.buttons }

def closeFocused (s : Desktop) : Desktop :=
  match s.focusedWindow with
  | some i => windowClose s i
  | none => s

def menuKey (env : Env) (s : Desktop) (k : KeyEvent) : Option Desktop :=
  if s.menuOpen = false then none
  else if k.key = keyEscape then some { s with menuOpen := false }
  else if k.key = keyUp ∨ k.key = keyDown then
    let hover := s.menuHover + if k.key = keyDown then 1 else -1
    some { s with menuHover := clamp hover 0 (max ((menuApps env).length - 1) 0) }
  else if k.key = keyEnter ∧ 0 ≤ s.menuHover then some (openMenuItem env { s with menuOpen := false } s.menuHover k.memory)
  else none

def deliverKey (env : Env) (s : Desktop) (k : KeyEvent) : Desktop :=
  match s.focusedWindow with
  | some i =>
    match (s.windows i).app with
    | some app => if app.onKey then react env s k.opens k.memory else s
    | none => s
  | none => s

def handleKey (env : Env) (s : Desktop) (k : KeyEvent) : Desktop :=
  if k.key = keyF12 then s
  else if modSuper k.modifiers ∧ k.key = 32 then { s with menuOpen := !s.menuOpen, menuHover := -1 }
  else if modSuper k.modifiers ∧ (k.key = 116 ∨ k.key = 84) then windowCreate env s "Terminal" k.memory
  else if modSuper k.modifiers ∧ (k.key = 113 ∨ k.key = 81) then closeFocused s
  else if modAlt k.modifiers ∧ k.key = keyTab then altTab s
  else if modAlt k.modifiers ∧ k.key = keyF4 then closeFocused s
  else (menuKey env s k).getD (deliverKey env s k)

/-- draw_menu sets where the menu is. -/
def drawMenu (env : Env) (s : Desktop) : Desktop :=
  if s.menuOpen then
    { s with menuX := 0, menuY := panelHeight, menuW := 230, menuH := ((menuApps env).length : Int) * 26 + 16 }
  else s

/-- The calls of the interface on a window, by its slot. -/
inductive Call where
  | create (name : String) (memory : Bool)
  | createAt (name : String) (x y : Int) (memory : Bool)
  | close (i : Nat)
  | minimise (i : Nat)
  | maximise (i : Nat)
  | restore (i : Nat)
  | focus (i : Nat)

def Call.run (env : Env) (s : Desktop) : Call → Desktop
  | .create name memory => windowCreate env s name memory
  | .createAt name x y memory => windowCreateAt env s name x y memory
  | .close i => windowClose s i
  | .minimise i => windowMinimise s i
  | .maximise i => windowMaximise env s i
  | .restore i => windowRestore s i
  | .focus i => windowFocus s i

/-- The window a call is on. -/
def Call.target : Call → Option Nat
  | .create _ _ | .createAt _ _ _ _ => none
  | .close i | .minimise i | .maximise i | .restore i | .focus i => some i

/-- Callers hold pointers to live windows. -/
def Call.Live (s : Desktop) (c : Call) : Prop := ∀ i ∈ c.target, i < s.windowTotal

end Qito.Wm
