import Qito.Wm.Dragging

/-! Where a window is after it was maximised, minimised and brought back. The place it
had before is saved when it is maximised, and read back only while its state says so. -/
namespace Qito.Wm
open Runs

structure Rect where
  x : Int
  y : Int
  w : Int
  h : Int
deriving DecidableEq

def Window.rect (win : Window) : Rect := ⟨win.x, win.y, win.w, win.h⟩

def Window.saved (win : Window) : Rect := ⟨win.restoreX, win.restoreY, win.restoreW, win.restoreH⟩

/-- The screen below the panel. -/
def screen (env : Env) : Rect := ⟨0, panelHeight, env.fbWidth, env.fbHeight - panelHeight⟩

/-- Where the window is when it is neither maximised nor hidden. -/
def Window.home (win : Window) : Rect := if win.state = .maximised then win.saved else win.rect

/-- The operations on a window; a click is at some point of the task list. -/
inductive Op where
  | maximise
  | minimise
  | restore
  | click (x : Int)

def Op.run (env : Env) (s : Desktop) (i : Nat) : Op → Desktop
  | .maximise => windowMaximise env s i
  | .minimise => windowMinimise s i
  | .restore => windowRestore s i
  | .click x => clickTask s x

/-- A click is on the button of the window. -/
def Op.On (s : Desktop) (i : Nat) : Op → Prop
  | .click x => taskButton s x = some i
  | _ => True

/-- The operation minimises the window. -/
def Op.Hides (s : Desktop) (i : Nat) : Op → Prop
  | .minimise => True
  | .click _ => (s.windows i).visible = true ∧ (s.windows i).focused = true
  | _ => False

/-- A step of a sequence on the window. -/
def Operates (env : Env) (i : Nat) (s t : Desktop) : Prop := ∃ op : Op, op.On s i ∧ t = op.run env s i

/-- A step that does not minimise the window while it is maximised. -/
def Careful (env : Env) (i : Nat) (s t : Desktop) : Prop :=
  ∃ op : Op, op.On s i ∧ t = op.run env s i ∧ ((s.windows i).state = .maximised → ¬ op.Hides s i)

/-- A normal window is at home, a maximised one covers the screen. -/
structure Placed (env : Env) (home : Rect) (win : Window) : Prop where
  normal : win.state = .normal → win.rect = home
  maximised : win.state = .maximised → win.rect = screen env

/-- The place of a window that is to be brought back home. -/
inductive Kept (env : Env) (home : Rect) (win : Window) : Prop where
  | here (open_ : win.state ≠ .maximised) (at_ : win.rect = home)
  | there (wide : win.state = .maximised) (at_ : win.rect = screen env) (back : win.saved = home)

section Places
variable {env : Env} {home : Rect} {s t : Desktop} {i : Nat}

theorem Kept.placed {win : Window} (kept : Kept env home win) : Placed env home win := by
  cases kept with
  | here open_ at_ => exact ⟨fun _ => at_, fun wide => absurd wide open_⟩
  | there wide at_ back =>
    refine ⟨fun normal => ?_, fun _ => at_⟩
    rw [wide] at normal
    cases normal

/-- Where a window is, what is saved of it, and its state. -/
def Window.geometry (win : Window) : Rect × Rect × WindowState := (win.rect, win.saved, win.state)

theorem Kept.same {win other : Window} (kept : Kept env home win) (same : other.geometry = win.geometry) : Kept env home other := by
  obtain ⟨rect, rest⟩ := Prod.mk.inj same
  obtain ⟨saved, state⟩ := Prod.mk.inj rest
  cases kept with
  | here open_ at_ => exact .here (state ▸ open_) (rect.trans at_)
  | there wide at_ back => exact .there (state.trans wide) (rect.trans at_) (saved.trans back)

theorem windowFocus_geometry (s : Desktop) (i j : Nat) : ((windowFocus s i).windows j).geometry = (s.windows j).geometry :=
  windowFocus_field Window.geometry (fun _ _ _ => rfl) s i j

theorem focusTopmost_geometry (s : Desktop) (j : Nat) : ((focusTopmost s).windows j).geometry = (s.windows j).geometry := by
  unfold focusTopmost
  cases topmost s with
  | none => rfl
  | some i => exact windowFocus_geometry s i j

theorem windowMinimise_geometry (s : Desktop) (i : Nat) :
    ((windowMinimise s i).windows i).geometry = ((s.windows i).rect, (s.windows i).saved, .minimised) := by
  have hidden : ((s.setWindow i fun win => { win with state := .minimised, visible := false, focused := false }).windows i).geometry =
      ((s.windows i).rect, (s.windows i).saved, .minimised) := by
    rw [setWindow_self]
    rfl
  unfold windowMinimise
  dsimp only
  split
  · rw [focusTopmost_geometry]
    exact hidden
  · exact hidden

theorem windowRestore_geometry (s : Desktop) (i : Nat) :
    ((windowRestore s i).windows i).geometry = ((s.windows i).home, (s.windows i).saved, .normal) := by
  unfold windowRestore
  rw [windowFocus_geometry, setWindow_self, Window.home]
  split
  · rfl
  · rfl

theorem windowMaximise_geometry (wide : (s.windows i).state ≠ .maximised) :
    ((windowMaximise env s i).windows i).geometry = (screen env, (s.windows i).rect, .maximised) := by
  unfold windowMaximise
  rw [if_neg wide, setWindow_self]
  rfl

theorem clickTask_on {x : Int} (on : taskButton s x = some i) : clickTask s x =
    if (s.windows i).visible ∧ (s.windows i).focused then windowMinimise s i
    else windowFocus (s.setWindow i fun win => { win with
      visible := true
      state := if win.state = .minimised then .normal else win.state }) i := by
  unfold clickTask
  rw [on]

theorem Kept.restore (kept : Kept env home (s.windows i)) : Kept env home ((windowRestore s i).windows i) := by
  have geometry := windowRestore_geometry s i
  obtain ⟨rect, rest⟩ := Prod.mk.inj geometry
  have state : ((windowRestore s i).windows i).state = .normal := (Prod.mk.inj rest).2
  refine .here (by rw [state]; decide) (rect.trans ?_)
  cases kept with
  | here open_ at_ => rw [Window.home, if_neg open_, at_]
  | there wide at_ back => rw [Window.home, if_pos wide, back]

theorem Kept.minimise (kept : Kept env home (s.windows i)) (open_ : (s.windows i).state ≠ .maximised) :
    Kept env home ((windowMinimise s i).windows i) := by
  obtain ⟨rect, rest⟩ := Prod.mk.inj (windowMinimise_geometry s i)
  have state : ((windowMinimise s i).windows i).state = .minimised := (Prod.mk.inj rest).2
  refine .here (by rw [state]; decide) (rect.trans ?_)
  cases kept with
  | here _ at_ => exact at_
  | there wide => exact absurd wide open_

theorem Kept.maximise (kept : Kept env home (s.windows i)) : Kept env home ((windowMaximise env s i).windows i) := by
  by_cases wide : (s.windows i).state = .maximised
  · unfold windowMaximise
    rw [if_pos wide]
    exact kept.restore
  · obtain ⟨rect, rest⟩ := Prod.mk.inj (@windowMaximise_geometry env s i wide)
    obtain ⟨saved, state⟩ := Prod.mk.inj rest
    refine .there state rect (saved.trans ?_)
    cases kept with
    | here _ at_ => exact at_
    | there wide' => exact absurd wide' wide

theorem Kept.step (kept : Kept env home (s.windows i)) (moves : Careful env i s t) : Kept env home (t.windows i) := by
  obtain ⟨op, on, rfl, spared⟩ := moves
  cases op with
  | maximise => exact kept.maximise
  | minimise => exact kept.minimise fun wide => spared wide trivial
  | restore => exact kept.restore
  | click x =>
    change Kept env home ((clickTask s x).windows i)
    rw [clickTask_on on]
    split
    · rename_i shown
      exact kept.minimise fun wide => spared wide shown
    · apply Kept.same _ (windowFocus_geometry _ i i)
      rw [setWindow_self]
      cases kept with
      | here open_ at_ =>
        refine .here ?_ at_
        dsimp only
        split
        · decide
        · exact open_
      | there wide at_ back =>
        refine .there ?_ at_ back
        dsimp only
        rw [wide]
        rfl

/-- A window that is minimised where it covers the screen is normal when it is brought back,
and still as large as the screen. -/
theorem minimised_wide (at_ : (s.windows i).rect = screen env) {op : Op} (on : op.On s i)
    (hides : op.Hides s i) : ((windowRestore (op.run env s i) i).windows i).state = .normal ∧
      ((windowRestore (op.run env s i) i).windows i).rect = screen env := by
  have ran : op.run env s i = windowMinimise s i := by
    cases op with
    | minimise => rfl
    | click x => exact (clickTask_on on).trans (if_pos hides)
    | maximise => exact hides.elim
    | restore => exact hides.elim
  rw [ran]
  obtain ⟨rect, rest⟩ := Prod.mk.inj (windowRestore_geometry (windowMinimise s i) i)
  obtain ⟨rect', rest'⟩ := Prod.mk.inj (windowMinimise_geometry s i)
  have hidden : ((windowMinimise s i).windows i).state ≠ .maximised := by
    rw [show ((windowMinimise s i).windows i).state = .minimised from (Prod.mk.inj rest').2]
    decide
  refine ⟨(Prod.mk.inj rest).2, ?_⟩
  rw [rect, Window.home, if_neg hidden, rect', at_]

end Places

/-- As long as the window is not minimised while it is maximised, it comes back to where it
was; once it is, restoring it leaves it as large as the screen. -/
theorem geometry_restored (env : Env) (i : Nat) (s : Desktop)
    (start : (s.windows i).state = .maximised → (s.windows i).rect = screen env) :
    (∀ t, Reachable (· = s) (Careful env i) t → Placed env (s.windows i).home (t.windows i)) ∧
    ∀ t (op : Op), Reachable (· = s) (Careful env i) t → (t.windows i).state = .maximised → op.On t i → op.Hides t i →
      ((windowRestore (op.run env t i) i).windows i).state = .normal ∧
        ((windowRestore (op.run env t i) i).windows i).rect = screen env := by
  have first : Kept env (s.windows i).home (s.windows i) := by
    by_cases wide : (s.windows i).state = .maximised
    · exact .there wide (start wide) (by rw [Window.home, if_pos wide])
    · exact .here wide (by rw [Window.home, if_neg wide])
  have kept : ∀ t, Reachable (· = s) (Careful env i) t → Kept env (s.windows i).home (t.windows i) := by
    intro t reached
    apply reached.induct fun t => Kept env (s.windows i).home (t.windows i)
    · rintro t rfl
      exact first
    · exact fun _ _ kept moves => kept.step moves
  exact ⟨fun t reached => (kept t reached).placed,
    fun t op reached wide on hides => minimised_wide ((kept t reached).placed.maximised wide) on hides⟩

/-- A screen with one application. -/
def plainEnv : Env := ⟨1024, 768, [⟨"Notes", 400, 300, true, 0, false, false⟩]⟩

def oneWindow : Desktop := windowCreate plainEnv desktopStart "Notes" true

/-- A window that is maximised and brought back from there. -/
theorem geometry_restored_maximise : Placed plainEnv ⟨70, 62, 400, 300⟩
    ((windowMaximise plainEnv (windowMaximise plainEnv oneWindow 0) 0).windows 0) := by
  have wide : Reachable (· = oneWindow) (Careful plainEnv 0) (windowMaximise plainEnv oneWindow 0) :=
    .next (.start rfl) ⟨.maximise, trivial, rfl, fun _ => not_false⟩
  have back : Reachable (· = oneWindow) (Careful plainEnv 0) (windowMaximise plainEnv (windowMaximise plainEnv oneWindow 0) 0) :=
    .next wide ⟨.maximise, trivial, rfl, fun _ => not_false⟩
  have placed := (geometry_restored plainEnv 0 oneWindow (by decide)).1 _ back
  have home : (oneWindow.windows 0).home = ⟨70, 62, 400, 300⟩ := by decide
  rw [home] at placed
  exact placed

/-- Maximised, minimised and brought back by its button, the window is normal but covers
the screen. -/
theorem minimised_stays_wide : ¬ ∀ (env : Env) (i : Nat) (s t : Desktop), (s.windows i).state = .normal →
    Reachable (· = s) (Operates env i) t → Placed env (s.windows i).rect (t.windows i) := by
  intro all
  have wide : Reachable (· = oneWindow) (Operates plainEnv 0) (windowMaximise plainEnv oneWindow 0) :=
    .next (.start rfl) ⟨.maximise, trivial, rfl⟩
  have hidden : Reachable (· = oneWindow) (Operates plainEnv 0) (windowMinimise (windowMaximise plainEnv oneWindow 0) 0) :=
    .next wide ⟨.minimise, trivial, rfl⟩
  have back : Reachable (· = oneWindow) (Operates plainEnv 0)
      (clickTask (windowMinimise (windowMaximise plainEnv oneWindow 0) 0) 110) :=
    .next hidden ⟨.click 110, show taskButton _ 110 = some 0 by decide, rfl⟩
  have placed := all plainEnv 0 oneWindow _ (by decide) back
  exact absurd (placed.normal (by decide)) (by decide)

end Qito.Wm
