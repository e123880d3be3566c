import Qito.Wm.Stacking

/-! Drags over runs of events. drag_window is a slot number that outlives the event
that set it; beside the desktop a run keeps the id of the window that the current
press of the button took hold of. -/
namespace Qito.Wm
open Runs

inductive Event where
  | mouse (e : MouseEvent)
  | key (k : KeyEvent)
  | drawMenu
  | call (c : Call)

def handle (env : Env) (s : Desktop) : Event → Desktop
  | .mouse e => handleMouse env s e
  | .key k => handleKey env s k
  | .drawMenu => drawMenu env s
  | .call c => c.run env s

/-- The window whose title bar or resize corner is under the pointer. -/
def grabbed (s : Desktop) (x y : Int) : Option Int :=
  match windowHitTest s x y with
  | some i =>
    if hitTestWindow (s.windows i) x y = .titlebar ∨ hitTestWindow (s.windows i) x y = .resize then some (s.windows i).id else none
  | none => none

/-- The desktop with the id of the window the button was pressed on. -/
structure Session where
  desktop : Desktop
  holding : Option Int

/-- A press takes hold of what is under the pointer and a release lets it go. -/
def holdingAfter (u : Session) : Event → Option Int
  | .mouse e => if pressed u.desktop e then grabbed u.desktop e.x e.y else if left e.buttons then u.holding else none
  | _ => u.holding

def Session.next (env : Env) (u : Session) (event : Event) : Session where
  desktop := handle env u.desktop event
  holding := holdingAfter u event

def sessionStart : Session := ⟨desktopStart, none⟩

/-- The key closes the focused window. -/
def closesKey (k : KeyEvent) : Bool :=
  k.key ≠ keyF12 ∧ ((modSuper k.modifiers ∧ (k.key = 113 ∨ k.key = 81)) ∨ (modAlt k.modifiers ∧ k.key = keyF4))

/-- The slot that an event other than a mouse event closes. -/
def closes (s : Desktop) : Event → Option Nat
  | .key k => if closesKey k then s.focusedWindow else none
  | .call (.close i) => some i
  | _ => none

/-- A window closed in the middle of a drag is behind the dragged one. -/
def Spares (s : Desktop) (event : Event) : Prop := ∀ d ∈ s.dragWindow, ∀ i ∈ closes s event, d < i

def Event.Live (s : Desktop) : Event → Prop
  | .call c => c.Live s
  | _ => True

def EventStep (env : Env) (u v : Session) : Prop := ∃ event : Event, event.Live u.desktop ∧ v = u.next env event

def SparingStep (env : Env) (u v : Session) : Prop :=
  ∃ event : Event, event.Live u.desktop ∧ Spares u.desktop event ∧ v = u.next env event

section Keeping
variable {s t u : Desktop} {i : Nat}

def FocusLive (s : Desktop) : Prop := ∀ f, s.focusedWindow = some f → f < s.windowTotal

/-- The drag stays as it is, and the slots hold the windows they held. -/
structure Keeps (s t : Desktop) : Prop where
  drag : t.dragWindow = s.dragWindow
  buttons : t.previousButtons = s.previousButtons
  total : s.windowTotal ≤ t.windowTotal
  ids : ∀ i < s.windowTotal, (t.windows i).id = (s.windows i).id
  focus : FocusLive s → FocusLive t

theorem Keeps.refl (s : Desktop) : Keeps s s := ⟨rfl, rfl, Nat.le_refl _, fun _ _ => rfl, id⟩

theorem Keeps.trans (first : Keeps s t) (second : Keeps t u) : Keeps s u where
  drag := second.drag.trans first.drag
  buttons := second.buttons.trans first.buttons
  total := Nat.le_trans first.total second.total
  ids i low := (second.ids i (Nat.lt_of_lt_of_le low first.total)).trans (first.ids i low)
  focus live := second.focus (first.focus live)

theorem setWindow_keeps (s : Desktop) (i : Nat) {f : Window → Window} (same : ∀ win, (f win).id = win.id) :
    Keeps s (s.setWindow i f) := by
  refine ⟨rfl, rfl, Nat.le_refl _, fun j low => ?_, id⟩
  by_cases here : j = i
  · rw [here, setWindow_self, same]
  · rw [setWindow_other here]

theorem unfocus_keeps (s : Desktop) (i : Nat) : Keeps s (unfocus s i) := by
  unfold unfocus
  split
  · split
    · exact setWindow_keeps s _ fun _ => rfl
    · exact Keeps.refl s
  · exact Keeps.refl s

theorem raise_keeps (live : i < s.windowTotal) : Keeps s (raise s i) := by
  have set := @setWindow_keeps s i (fun win => { win with zOrder := wrapInt (topOrder s + 1), focused := true }) fun _ => rfl
  refine ⟨rfl, rfl, Nat.le_refl _, set.ids, ?_⟩
  intro _ f here
  cases here
  exact live

theorem windowFocus_keeps (live : i < s.windowTotal) : Keeps s (windowFocus s i) := by
  unfold windowFocus
  split
  · exact Keeps.refl s
  · exact (unfocus_keeps s i).trans (raise_keeps (Nat.lt_of_lt_of_le live (unfocus_keeps s i).total))

theorem focusTopmost_keeps (s : Desktop) : Keeps s (focusTopmost s) := by
  have spec := topmost_spec s
  unfold focusTopmost
  split at spec <;> rename_i found
  · rw [found]
    exact Keeps.refl s
  · rw [found]
    exact windowFocus_keeps spec.1

theorem windowCreateAt_keeps (env : Env) (s : Desktop) (name : String) (x y : Int) (memory : Bool) :
    Keeps s (windowCreateAt env s name x y memory) := by
  unfold windowCreateAt
  split
  · exact Keeps.refl s
  · rename_i app _
    split
    · exact Keeps.refl s
    · have old : ∀ j < s.windowTotal,
          (Function.update s.windows s.windowTotal (newWindow env s.nextWindowId app x y) j).id = (s.windows j).id := by
        intro j low
        rw [Function.update_of_ne (Nat.ne_of_lt low)]
      dsimp only
      split
      · exact ⟨rfl, rfl, Nat.le_refl _, old, id⟩
      · refine Keeps.trans ?_ (windowFocus_keeps (Nat.lt_succ_self _))
        exact ⟨rfl, rfl, Nat.le_succ _, old, fun live f here => Nat.lt_succ_of_lt (live f here)⟩

theorem windowCreate_keeps (env : Env) (s : Desktop) (name : String) (memory : Bool) : Keeps s (windowCreate env s name memory) :=
  windowCreateAt_keeps env s name _ _ memory

theorem windowMinimise_keeps (s : Desktop) (i : Nat) : Keeps s (windowMinimise s i) := by
  have set := @setWindow_keeps s i (fun win => { win with state := .minimised, visible := false, focused := false }) fun _ => rfl
  unfold windowMinimise
  dsimp only
  split
  · refine Keeps.trans ?_ (focusTopmost_keeps _)
    refine ⟨rfl, rfl, Nat.le_refl _, set.ids, fun _ f here => ?_⟩
    cases here
  · exact set

theorem windowRestore_keeps (live : i < s.windowTotal) : Keeps s (windowRestore s i) := by
  refine (setWindow_keeps s i fun win => ?_).trans (windowFocus_keeps live)
  dsimp only
  split <;> rfl

theorem windowMaximise_keeps (env : Env) (live : i < s.windowTotal) : Keeps s (windowMaximise env s i) := by
  unfold windowMaximise
  split
  · exact windowRestore_keeps live
  · exact setWindow_keeps s i fun _ => rfl

theorem clickTask_keeps (s : Desktop) (x : Int) : Keeps s (clickTask s x) := by
  unfold clickTask
  split
  · exact Keeps.refl s
  · rename_i i found
    split
    · exact windowMinimise_keeps s i
    · refine Keeps.trans ?_ (windowFocus_keeps (List.mem_range.mp (List.mem_of_find?_eq_some found)))
      exact setWindow_keeps s i fun _ => rfl

theorem altTab_keeps (s : Desktop) : Keeps s (altTab s) := by
  unfold altTab
  split
  · split
    · rename_i i found
      apply windowFocus_keeps
      obtain ⟨-, from_, -⟩ := lowest_foldl s (List.range s.windowTotal) (none, intMax)
      rcases from_ with start | ⟨j, member, is, -⟩
      · cases found.symm.trans (congrArg Prod.fst start)
      · cases found.symm.trans (congrArg Prod.fst is)
        exact List.mem_range.mp member
    · exact Keeps.refl s
  · exact Keeps.refl s

theorem react_keeps (env : Env) (s : Desktop) (opens : Option String) (memory : Bool) : Keeps s (react env s opens memory) := by
  unfold react
  split
  · exact windowCreate_keeps env s _ memory
  · exact Keeps.refl s

theorem openMenuItem_keeps (env : Env) (s : Desktop) (row : Int) (memory : Bool) : Keeps s (openMenuItem env s row memory) := by
  unfold openMenuItem
  split
  · exact windowCreate_keeps env s _ memory
  · exact Keeps.refl s

theorem deliver_keeps (env : Env) (s : Desktop) (i : Nat) (e : MouseEvent) : Keeps s (deliver env s i e) := by
  unfold deliver
  split
  · split
    · exact react_keeps env s _ _
    · exact Keeps.refl s
  · exact Keeps.refl s

theorem deliverKey_keeps (env : Env) (s : Desktop) (k : KeyEvent) : Keeps s (deliverKey env s k) := by
  unfold deliverKey
  split
  · split
    · split
      · exact react_keeps env s _ _
      · exact Keeps.refl s
    · exact Keeps.refl s
  · exact Keeps.refl s

theorem menuKey_keeps (env : Env) (k : KeyEvent) (taken : menuKey env s k = some t) : Keeps s t := by
  unfold menuKey at taken
  split at taken
  · cases taken
  · split at taken
    · cases taken
      exact ⟨rfl, rfl, Nat.le_refl _, fun _ _ => rfl, id⟩
    · split at taken
      · cases taken
        exact ⟨rfl, rfl, Nat.le_refl _, fun _ _ => rfl, id⟩
      · split at taken
        · cases taken
          refine Keeps.trans ?_ (openMenuItem_keeps env _ _ _)
          exact ⟨rfl, rfl, Nat.le_refl _, fun _ _ => rfl, id⟩
        · cases taken

theorem windowClose_keeps {d : Nat} (live : i < s.windowTotal) (before : d < i) :
    d < (windowClose s i).windowTotal ∧ ((windowClose s i).windows d).id = (s.windows d).id := by
  have rest := focusTopmost_keeps { removeWindow s i with
    windows := fun j => if j < (removeWindow s i).windowTotal then { (removeWindow s i).windows j with focused := false }
      else (removeWindow s i).windows j
    focusedWindow := none }
  have inside : d < (removeWindow s i).windowTotal := show d < s.windowTotal - 1 by omega
  refine ⟨Nat.lt_of_lt_of_le inside rest.total, ?_⟩
  refine (rest.ids d inside).trans ?_
  dsimp only
  rw [if_pos inside]
  dsimp only
  rw [removeWindow_slot s i inside, if_pos before]

theorem windowClose_focus (s : Desktop) (i : Nat) : FocusLive (windowClose s i) ∧
    (windowClose s i).dragWindow = s.dragWindow ∧ (windowClose s i).previousButtons = s.previousButtons := by
  have rest := focusTopmost_keeps { removeWindow s i with
    windows := fun j => if j < (removeWindow s i).windowTotal then { (removeWindow s i).windows j with focused := false }
      else (removeWindow s i).windows j
    focusedWindow := none }
  refine ⟨rest.focus fun f here => ?_, rest.drag, rest.buttons⟩
  cases here

end Keeping

section Presses
variable {s t : Desktop}

/-- Which window it is, where it is and how a press on it is taken. -/
def Window.frame (win : Window) : Int × Int × Int × Int × Int × Bool × WindowState :=
  (win.id, win.x, win.y, win.w, win.h, win.resizable, win.state)

theorem windowHitTest_live {x y : Int} {i : Nat} (found : windowHitTest s x y = some i) : i < s.windowTotal := by
  have inside : ∀ (is : List Nat) (start : Option Nat), (∀ j ∈ start, j < s.windowTotal) → (∀ j ∈ is, j < s.windowTotal) →
      ∀ j ∈ is.foldl (fun best i =>
        if (s.windows i).visible ∧ covers (s.windows i) x y ∧ (∀ j ∈ best, (s.windows i).zOrder > (s.windows j).zOrder) then some i
        else best) start, j < s.windowTotal := by
    intro is
    induction is with
    | nil => exact fun start old _ => old
    | cons i is ih =>
      intro start old all
      rw [List.foldl_cons]
      refine ih _ ?_ fun j later => all j (List.mem_cons_of_mem _ later)
      split
      · intro j here
        cases here
        exact all i List.mem_cons_self
      · exact old
  exact inside (List.range s.windowTotal) none (by simp) (fun j member => List.mem_range.mp member) i found

theorem windowFocus_field {α : Type*} (read : Window → α)
    (same : ∀ win order focus, read { win with zOrder := order, focused := focus } = read win) (s : Desktop) (i j : Nat) :
    read ((windowFocus s i).windows j) = read (s.windows j) := by
  have set (s : Desktop) (k : Nat) {f : Window → Window} (kept : ∀ win, read (f win) = read win) :
      read ((s.setWindow k f).windows j) = read (s.windows j) := by
    by_cases here : j = k
    · rw [here, setWindow_self, kept]
    · rw [setWindow_other here]
  have kept : read ((unfocus s i).windows j) = read (s.windows j) := by
    unfold unfocus
    split
    · split
      · exact set s _ fun win => same win win.zOrder false
      · rfl
    · rfl
  unfold windowFocus
  split
  · rfl
  · refine Eq.trans ?_ kept
    exact @set (unfocus s i) i (fun win => { win with zOrder := wrapInt (topOrder (unfocus s i) + 1), focused := true })
      fun win => same win _ true

theorem windowFocus_frame (s : Desktop) (i j : Nat) : ((windowFocus s i).windows j).frame = (s.windows j).frame :=
  windowFocus_field Window.frame (fun _ _ _ => rfl) s i j

theorem hitTestWindow_frame {win other : Window} (x y : Int) (same : win.frame = other.frame) :
    hitTestWindow win x y = hitTestWindow other x y ∧ win.id = other.id := by
  simp only [Window.frame, Prod.mk.injEq] at same
  obtain ⟨id, hx, hy, hw, hh, hr, hs⟩ := same
  refine ⟨?_, id⟩
  simp only [hitTestWindow, covers, hx, hy, hw, hh, hr, hs]

/-- After an event that found no drag there is none, unless a press took hold of a window. -/
structure Taken (s t : Desktop) (press : Bool) (x y : Int) : Prop where
  focus : FocusLive t
  drag : ∀ d, t.dragWindow = some d → press = true ∧ d < t.windowTotal ∧ grabbed s x y = some (t.windows d).id

theorem Keeps.taken (keeps : Keeps s t) (live : FocusLive s) (none_ : s.dragWindow = none) (u : Desktop) (press : Bool) (x y : Int) :
    Taken u t press x y where
  focus := keeps.focus live
  drag d here := by
    rw [keeps.drag, none_] at here
    cases here

theorem pressWindow_taken (env : Env) {i : Nat} (e : MouseEvent) (live : FocusLive s) (none_ : s.dragWindow = none)
    (found : windowHitTest s e.x e.y = some i) : Taken s (pressWindow env s i e) true e.x e.y := by
  have inside := windowHitTest_live found
  have focused := @windowFocus_keeps s i inside
  have liveThere := focused.focus live
  have noneThere := focused.drag.trans none_
  have total := Nat.lt_of_lt_of_le inside focused.total
  obtain ⟨hit, id⟩ := hitTestWindow_frame e.x e.y (windowFocus_frame s i i)
  unfold pressWindow
  dsimp only
  split <;> rename_i area
  · obtain ⟨focus, drag, -⟩ := windowClose_focus (windowFocus s i) i
    refine ⟨focus, fun d here => ?_⟩
    rw [drag, noneThere] at here
    cases here
  · exact (windowMaximise_keeps env total).taken liveThere noneThere _ _ _ _
  · exact (windowMinimise_keeps _ i).taken liveThere noneThere _ _ _ _
  · refine ⟨liveThere, fun d here => ?_⟩
    cases here
    refine ⟨rfl, total, ?_⟩
    rw [hit] at area
    simp only [grabbed, found, area, true_or, if_true]
    rw [id]
  · refine ⟨liveThere, fun d here => ?_⟩
    cases here
    refine ⟨rfl, total, ?_⟩
    rw [hit] at area
    simp only [grabbed, found, area, or_true, if_true]
    rw [id]
  · exact (deliver_keeps env _ i e).taken liveThere noneThere _ _ _ _
  · exact (deliver_keeps env _ i e).taken liveThere noneThere _ _ _ _

theorem windowMouse_taken (env : Env) (e : MouseEvent) (press : Bool) (live : FocusLive s) (none_ : s.dragWindow = none) :
    Taken s (windowMouse env s e press) press e.x e.y := by
  unfold windowMouse
  split
  · exact (Keeps.refl s).taken live none_ _ _ _ _
  · rename_i i found
    cases press with
    | true => exact pressWindow_taken env e live none_ found
    | false => exact (deliver_keeps env s i e).taken live none_ _ _ _ _

theorem menuMouse_keeps (env : Env) (s : Desktop) (e : MouseEvent) (press : Bool) : Keeps s (menuMouse env s e press).1 ∧
    ((menuMouse env s e press).2 = false → (menuMouse env s e press).1.windows = s.windows ∧
      (menuMouse env s e press).1.windowTotal = s.windowTotal) := by
  have fields {t : Desktop} (drag : t.dragWindow = s.dragWindow) (buttons : t.previousButtons = s.previousButtons)
      (windows : t.windows = s.windows) (total : t.windowTotal = s.windowTotal) (focus : t.focusedWindow = s.focusedWindow) :
      Keeps s t := by
    refine ⟨drag, buttons, Nat.le_of_eq total.symm, fun i _ => by rw [windows], fun live f here => ?_⟩
    rw [focus] at here
    exact total.symm ▸ live f here
  unfold menuMouse
  split
  · exact ⟨Keeps.refl s, fun _ => ⟨rfl, rfl⟩⟩
  · split
    · dsimp only
      split
      · refine ⟨Keeps.trans ?_ (openMenuItem_keeps env _ _ _), fun stays => ?_⟩
        · exact fields rfl rfl rfl rfl rfl
        · cases stays
      · exact ⟨fields rfl rfl rfl rfl rfl, fun _ => ⟨rfl, rfl⟩⟩
    · split
      · exact ⟨fields rfl rfl rfl rfl rfl, fun _ => ⟨rfl, rfl⟩⟩
      · exact ⟨Keeps.refl s, fun _ => ⟨rfl, rfl⟩⟩

theorem grabbed_windows {x y : Int} (windows : t.windows = s.windows) (total : t.windowTotal = s.windowTotal) :
    grabbed t x y = grabbed s x y := by
  unfold grabbed windowHitTest
  rw [windows, total]

theorem panelMouse_keeps (s : Desktop) (e : MouseEvent) (press : Bool) : Keeps s (panelMouse s e press) := by
  unfold panelMouse
  split
  · exact Keeps.refl s
  · split
    · exact ⟨rfl, rfl, Nat.le_refl _, fun _ _ => rfl, id⟩
    · exact clickTask_keeps s e.x

theorem idleMouse_taken (env : Env) (e : MouseEvent) (press : Bool) (live : FocusLive s) (none_ : s.dragWindow = none) :
    Taken s (idleMouse env s e press) press e.x e.y := by
  obtain ⟨menu, unmoved⟩ := menuMouse_keeps env s e press
  have liveThere := menu.focus live
  have noneThere := menu.drag.trans none_
  unfold idleMouse
  dsimp only
  split
  · exact menu.taken live none_ _ _ _ _
  · rename_i passes
    obtain ⟨windows, total⟩ := unmoved (by simpa using passes)
    split
    · exact (panelMouse_keeps _ e press).taken liveThere noneThere _ _ _ _
    · have taken := windowMouse_taken env e press liveThere noneThere
      refine ⟨taken.focus, fun d here => ?_⟩
      rw [← grabbed_windows windows total]
      exact taken.drag d here

end Presses

section Drags
variable {env : Env} {s t : Desktop}

/-- What an event leaves of a drag: the slot is live and holds the window it held. -/
structure Follows (s t : Desktop) : Prop where
  focus : FocusLive s → FocusLive t
  drag : t.dragWindow = s.dragWindow
  buttons : t.previousButtons = s.previousButtons
  slot : ∀ d, s.dragWindow = some d → d < s.windowTotal → d < t.windowTotal ∧ (t.windows d).id = (s.windows d).id

theorem Keeps.follows (keeps : Keeps s t) : Follows s t where
  focus := keeps.focus
  drag := keeps.drag
  buttons := keeps.buttons
  slot d _ low := ⟨Nat.lt_of_lt_of_le low keeps.total, keeps.ids d low⟩

theorem windowClose_follows {i : Nat} (live : i < s.windowTotal) (spares : ∀ d ∈ s.dragWindow, d < i) : Follows s (windowClose s i) where
  focus _ := (windowClose_focus s i).1
  drag := (windowClose_focus s i).2.1
  buttons := (windowClose_focus s i).2.2
  slot _ here _ := windowClose_keeps live (spares _ here)

theorem closeFocused_follows (live : FocusLive s) (spares : ∀ d ∈ s.dragWindow, ∀ i ∈ s.focusedWindow, d < i) :
    Follows s (closeFocused s) := by
  unfold closeFocused
  split
  · rename_i i here
    exact windowClose_follows (live i here) fun d drag => spares d drag i here
  · exact (Keeps.refl s).follows

theorem handleKey_follows {k : KeyEvent} (live : FocusLive s) (spares : Spares s (.key k)) : Follows s (handleKey env s k) := by
  have closing (closed : closesKey k = true) : Follows s (closeFocused s) := by
    apply closeFocused_follows live
    intro d drag i focus
    apply spares d drag i
    simpa only [closes, closed, if_true] using focus
  unfold handleKey
  split
  · exact (Keeps.refl s).follows
  · rename_i notShot
    split
    · exact ⟨id, rfl, rfl, fun _ _ low => ⟨low, rfl⟩⟩
    · split
      · exact (windowCreate_keeps env s _ _).follows
      · split
        · rename_i quits
          exact closing (decide_eq_true ⟨notShot, .inl quits⟩)
        · split
          · exact (altTab_keeps s).follows
          · split
            · rename_i quits
              exact closing (decide_eq_true ⟨notShot, .inr quits⟩)
            · cases menu : menuKey env s k with
              | none => exact (deliverKey_keeps env s k).follows
              | some t => exact (menuKey_keeps env k menu).follows

theorem call_follows {c : Call} (called : c.Live s) (spares : Spares s (.call c)) : Follows s (c.run env s) := by
  cases c with
  | create name memory => exact (windowCreate_keeps env s name memory).follows
  | createAt name x y memory => exact (windowCreateAt_keeps env s name x y memory).follows
  | close i => exact windowClose_follows (called i rfl) fun d drag => spares d drag i rfl
  | minimise i => exact (windowMinimise_keeps s i).follows
  | maximise i => exact (windowMaximise_keeps env (called i rfl)).follows
  | restore i => exact (windowRestore_keeps (called i rfl)).follows
  | focus i => exact (windowFocus_keeps (called i rfl)).follows

theorem drawMenu_follows (env : Env) (s : Desktop) : Follows s (drawMenu env s) := by
  unfold drawMenu
  split
  · exact ⟨id, rfl, rfl, fun _ _ low => ⟨low, rfl⟩⟩
  · exact (Keeps.refl s).follows

theorem dragMove_keeps (env : Env) (s : Desktop) (i : Nat) (e : MouseEvent) : Keeps s (dragMove env s i e) := by
  unfold dragMove
  split
  · exact setWindow_keeps s i fun _ => rfl
  · exact setWindow_keeps s i fun _ => rfl

theorem dragMove_other (env : Env) (s : Desktop) (e : MouseEvent) {i j : Nat} (other : j ≠ i) :
    (dragMove env s i e).windows j = s.windows j := by
  unfold dragMove
  split
  · exact setWindow_other other
  · exact setWindow_other other

theorem endDrag_spec (env : Env) (e : MouseEvent) (live : FocusLive s) (low : ∀ d, s.dragWindow = some d → d < s.windowTotal) :
    FocusLive (endDrag env s e) ∧ (endDrag env s e).dragWindow = none := by
  refine ⟨?_, rfl⟩
  unfold endDrag
  cases drag : s.dragWindow with
  | none => exact live
  | some i =>
    dsimp only
    split
    · exact (windowMaximise_keeps env (low i drag)).focus live
    · exact live

/-- The drag of a session is on the live window that the button took hold of. -/
structure Tracked (u : Session) : Prop where
  focus : FocusLive u.desktop
  drag : ∀ d, u.desktop.dragWindow = some d →
    d < u.desktop.windowTotal ∧ left u.desktop.previousButtons = true ∧ u.holding = some (u.desktop.windows d).id

theorem Follows.tracked {u : Session} (tracked : Tracked u) (follows : Follows u.desktop t) : Tracked ⟨t, u.holding⟩ := by
  refine ⟨follows.focus tracked.focus, fun d here => ?_⟩
  have here' : u.desktop.dragWindow = some d := follows.drag.symm.trans here
  obtain ⟨low, down, holding⟩ := tracked.drag d here'
  obtain ⟨low', id⟩ := follows.slot d here' low
  exact ⟨low', (congrArg left follows.buttons).trans down, holding.trans (congrArg some id.symm)⟩

theorem handleMouse_tracked {u : Session} (tracked : Tracked u) (e : MouseEvent) : Tracked (u.next env (.mouse e)) := by
  have idle (start : Desktop) (live : FocusLive start) (none_ : start.dragWindow = none)
      (same : pressed u.desktop e = true → start = u.desktop) :
      Tracked ⟨{ idleMouse env start e (pressed u.desktop e) with previousButtons := e.buttons }, holdingAfter u (.mouse e)⟩ := by
    have taken := idleMouse_taken env e (pressed u.desktop e) live none_
    refine ⟨taken.focus, fun d here => ?_⟩
    obtain ⟨press, low, grabs⟩ := taken.drag d here
    rw [same press] at grabs
    refine ⟨low, (Bool.and_eq_true_iff.mp press).1, ?_⟩
    dsimp only [holdingAfter]
    rw [if_pos press, grabs, same press]
  have ended := endDrag_spec env e tracked.focus fun d here => (tracked.drag d here).1
  have pressedNot (up : left e.buttons = false) : pressed u.desktop e = true → False := by
    simp [pressed, up]
  cases drag : u.desktop.dragWindow with
  | none =>
    have start := idle (if released u.desktop e then endDrag env u.desktop e else u.desktop)
    simp only [Session.next, handle, handleMouse, drag]
    apply start
    · split
      · exact ended.1
      · exact tracked.focus
    · split
      · exact ended.2
      · exact drag
    · intro press
      apply if_neg
      simp [released, (Bool.and_eq_true_iff.mp press).1]
  | some d =>
    obtain ⟨low, down, holding⟩ := tracked.drag d drag
    cases held : left e.buttons with
    | true =>
      -- the button was down before, so this is no press and the hold goes on
      have keeps := dragMove_keeps env u.desktop d e
      have noPress : pressed u.desktop e = false := by simp [pressed, down]
      have holds : holdingAfter u (.mouse e) = u.holding := by simp [holdingAfter, noPress, held]
      simp only [Session.next, handle, handleMouse, drag, held, holds]
      refine ⟨keeps.focus tracked.focus, fun d' here => ?_⟩
      obtain ⟨low', -, holding'⟩ := (keeps.follows.tracked tracked).drag d' here
      exact ⟨low', held, holding'⟩
    | false =>
      have let_ : released u.desktop e = true := by simp [released, held, down]
      simp only [Session.next, handle, handleMouse, drag, held, let_]
      exact idle _ ended.1 ended.2 fun press => (pressedNot held press).elim

theorem sessionStart_tracked : Tracked sessionStart := by
  refine ⟨fun f here => ?_, fun d here => ?_⟩
  · cases here
  · cases here

theorem step_tracked {u v : Session} (tracked : Tracked u) (step : SparingStep env u v) : Tracked v := by
  obtain ⟨event, live, spares, rfl⟩ := step
  cases event with
  | mouse e => exact handleMouse_tracked tracked e
  | key k => exact (handleKey_follows tracked.focus spares).tracked tracked
  | drawMenu => exact (drawMenu_follows env u.desktop).tracked tracked
  | call c => exact (call_follows live spares).tracked tracked

theorem run_tracked {u : Session} (reached : Reachable (· = sessionStart) (SparingStep env) u) : Tracked u := by
  apply reached.induct Tracked
  · rintro s rfl
    exact sessionStart_tracked
  · exact fun s t tracked step => step_tracked tracked step

end Drags

section Places
variable {env : Env} {s : Desktop}

def Window.place (win : Window) : Int × Int × Int × Int := (win.x, win.y, win.w, win.h)

theorem Window.place_frame {win other : Window} (same : win.frame = other.frame) : win.place = other.place := by
  simp only [Window.frame, Prod.mk.injEq] at same
  simp only [Window.place, same]

theorem windowCreateAt_frame (env : Env) (name : String) (x y : Int) (memory : Bool) {j : Nat} (low : j < s.windowTotal) :
    ((windowCreateAt env s name x y memory).windows j).frame = (s.windows j).frame := by
  unfold windowCreateAt
  split
  · rfl
  · split
    · rfl
    · dsimp only
      split
      · dsimp only
        rw [Function.update_of_ne (Nat.ne_of_lt low)]
      · rw [windowFocus_frame]
        dsimp only
        rw [Function.update_of_ne (Nat.ne_of_lt low)]

theorem windowMaximise_frame (env : Env) (s : Desktop) {i j : Nat} (other : j ≠ i) :
    ((windowMaximise env s i).windows j).frame = (s.windows j).frame := by
  unfold windowMaximise
  split
  · unfold windowRestore
    rw [windowFocus_frame, setWindow_other other]
  · rw [setWindow_other other]

theorem endDrag_frame (env : Env) (e : MouseEvent) {d j : Nat} (drag : s.dragWindow = some d) (other : j ≠ d) :
    ((endDrag env s e).windows j).frame = (s.windows j).frame := by
  unfold endDrag
  rw [drag]
  dsimp only
  split
  · exact windowMaximise_frame env s other
  · rfl

theorem deliver_frame (env : Env) (i : Nat) (e : MouseEvent) {j : Nat} (low : j < s.windowTotal) :
    ((deliver env s i e).windows j).frame = (s.windows j).frame := by
  unfold deliver
  split
  · split
    · unfold react
      split
      · exact windowCreateAt_frame env _ _ _ _ low
      · rfl
    · rfl
  · rfl

theorem idleMouse_frame (env : Env) (e : MouseEvent) {j : Nat} (low : j < s.windowTotal) :
    ((idleMouse env s e false).windows j).frame = (s.windows j).frame := by
  have passes : (menuMouse env s e false).2 = false := by
    unfold menuMouse
    split
    · rfl
    · split <;> rfl
  obtain ⟨windows, total⟩ := (menuMouse_keeps env s e false).2 passes
  unfold idleMouse
  dsimp only
  rw [passes, if_neg Bool.false_ne_true]
  split
  · exact congrArg (fun all => (all j).frame) windows
  · unfold windowMouse
    split
    · exact congrArg (fun all => (all j).frame) windows
    · rename_i i _
      have delivered := @deliver_frame (menuMouse env s e false).1 env i e j (total ▸ low)
      exact delivered.trans (congrArg (fun all => (all j).frame) windows)

theorem endDrag_total (env : Env) (e : MouseEvent) {d : Nat} (drag : s.dragWindow = some d) (low : d < s.windowTotal) :
    s.windowTotal ≤ (endDrag env s e).windowTotal := by
  unfold endDrag
  rw [drag]
  dsimp only
  split
  · exact (windowMaximise_keeps env low).total
  · exact Nat.le_refl _

end Places

/-- A drag is on the live window that the press took hold of, and while the button is
down or let go no other window changes its place. -/
structure DragSound (env : Env) (u : Session) : Prop where
  live : ∀ d, u.desktop.dragWindow = some d → d < u.desktop.windowTotal ∧ u.holding = some (u.desktop.windows d).id
  moves : ∀ (e : MouseEvent) (j : Nat), u.desktop.dragWindow ≠ none → left e.buttons = true →
    (handleMouse env u.desktop e).windows j ≠ u.desktop.windows j →
    j < u.desktop.windowTotal ∧ u.holding = some (u.desktop.windows j).id
  drops : ∀ (e : MouseEvent) (j : Nat), u.desktop.dragWindow ≠ none → left e.buttons = false → j < u.desktop.windowTotal →
    ((handleMouse env u.desktop e).windows j).place ≠ (u.desktop.windows j).place → u.holding = some (u.desktop.windows j).id

theorem drag_sound {env : Env} {u : Session} (reached : Reachable (· = sessionStart) (SparingStep env) u) : DragSound env u := by
  have tracked := run_tracked reached
  refine ⟨fun d here => ?_, fun e j on down moved => ?_, fun e j on up low moved => ?_⟩
  · obtain ⟨low, -, holding⟩ := tracked.drag d here
    exact ⟨low, holding⟩
  · obtain ⟨d, drag⟩ := Option.ne_none_iff_exists'.mp on
    obtain ⟨low, -, holding⟩ := tracked.drag d drag
    simp only [handleMouse, drag, down] at moved
    have here : j = d := by
      by_contra other
      exact moved (dragMove_other env u.desktop e other)
    exact here ▸ ⟨low, holding⟩
  · obtain ⟨d, drag⟩ := Option.ne_none_iff_exists'.mp on
    obtain ⟨inside, down, holding⟩ := tracked.drag d drag
    have noPress : pressed u.desktop e = false := by simp [pressed, up]
    have lets : released u.desktop e = true := by simp [released, up, down]
    simp only [handleMouse, drag, up, noPress, lets, if_true] at moved
    have here : j = d := by
      by_contra other
      apply moved
      apply Window.place_frame
      rw [idleMouse_frame env e (Nat.lt_of_lt_of_le low (endDrag_total env e drag inside)), endDrag_frame env e drag other]
    exact here ▸ holding

/-- Two windows, and the button goes down on the title bar of the first. -/
def dragFirst : List Event :=
  [.call (.create "Clock" true), .call (.create "Clock" true), .mouse ⟨80, 70, 1, false, true, none⟩]

theorem drag_sound_of_two_windows : (dragFirst.foldl (Session.next oneApp) sessionStart).desktop.dragWindow = some 0 ∧
    DragSound oneApp (dragFirst.foldl (Session.next oneApp) sessionStart) := by
  refine ⟨by decide, ?_⟩
  apply drag_sound
  refine .next (.next (.next (.start rfl) ⟨_, ?_, ?_, rfl⟩) ⟨_, ?_, ?_, rfl⟩) ⟨_, ?_, ?_, rfl⟩
  · intro i target
    cases target
  · intro d _ i closed
    cases closed
  · intro i target
    cases target
  · intro d _ i closed
    cases closed
  · trivial
  · intro d _ i closed
    cases closed

/-- Alt+F4 in the middle of the drag: the second window moves into the slot. -/
def dragClosed : List Event := dragFirst ++ [.key ⟨keyF4, 4, true, none⟩]

theorem drag_stale : Reachable (· = sessionStart) (EventStep oneApp) (dragClosed.foldl (Session.next oneApp) sessionStart) ∧
    ¬ DragSound oneApp (dragClosed.foldl (Session.next oneApp) sessionStart) := by
  refine ⟨?_, fun sound => ?_⟩
  · refine .next (.next (.next (.next (.start rfl) ⟨_, ?_, rfl⟩) ⟨_, ?_, rfl⟩) ⟨_, ?_, rfl⟩) ⟨_, ?_, rfl⟩
    · intro i target
      cases target
    · intro i target
      cases target
    · trivial
    · trivial
  · have stale : (dragClosed.foldl (Session.next oneApp) sessionStart).desktop.dragWindow = some 0 ∧
        (dragClosed.foldl (Session.next oneApp) sessionStart).holding = some 1 ∧
        ((dragClosed.foldl (Session.next oneApp) sessionStart).desktop.windows 0).id = 2 := by decide
    obtain ⟨drag, holding, id⟩ := stale
    have same := (sound.live 0 drag).2
    rw [holding, id] at same
    exact absurd same (by decide)

end Qito.Wm
