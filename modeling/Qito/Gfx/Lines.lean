import Mathlib.Tactic.Ring
import Qito.Gfx.Drawing

/-! The points of a line of gfx/fb.c. A walk is told by how many steps it has made
along each axis; a is the number of steps in x, b the number in y. -/
namespace Qito.Fb

/-- The arguments of the fb_put_pixel calls of lineLoop. -/
def loopPoints (x1 y1 dx dy sx sy : Int) : Nat → Int → Int → Int → Option (List (Int × Int))
  | 0, _, _, _ => none
  | fuel + 1, x0, y0, err =>
    if x0 = x1 ∧ y0 = y1 then some [(x0, y0)]
    else
      let e2 := int (err * 2)
      let right := decide (e2 > -dy)
      let down := decide (e2 < dx)
      let err := if right then int (err - dy) else err
      let x := if right then int (x0 + sx) else x0
      let err := if down then int (err + dx) else err
      let y := if down then int (y0 + sy) else y0
      (loopPoints x1 y1 dx dy sx sy fuel x y err).map fun points => (x0, y0) :: points

/-- The points that fb_draw_line plots, in their order. -/
def linePoints (x0 y0 x1 y1 : Int) : Option (List (Int × Int)) :=
  let dx := if x1 > x0 then int (x1 - x0) else int (x0 - x1)
  let dy := if y1 > y0 then int (y1 - y0) else int (y0 - y1)
  let sx := if x0 < x1 then 1 else -1
  let sy := if y0 < y1 then 1 else -1
  loopPoints x1 y1 dx dy sx sy (max dx dy).toNat.succ x0 y0 (int (dx - dy))

def plot (color : Color) (s : Screen) (points : List (Int × Int)) : Screen :=
  points.foldl (fun s p => fbPutPixel s p.1 p.2 color) s

theorem lineLoop_plots (x1 y1 dx dy sx sy : Int) (color : Color) (fuel : Nat) (s : Screen) (x0 y0 err : Int) :
    lineLoop x1 y1 dx dy sx sy color fuel s x0 y0 err =
      (loopPoints x1 y1 dx dy sx sy fuel x0 y0 err).map (plot color s) := by
  induction fuel generalizing s x0 y0 err with
  | zero => rfl
  | succ fuel ih =>
    unfold lineLoop loopPoints
    dsimp only
    split
    · rfl
    · rw [ih, Option.map_map]
      rfl

theorem drawLine_plots (s : Screen) (x0 y0 x1 y1 : Int) (color : Color) :
    fbDrawLine s x0 y0 x1 y1 color = (linePoints x0 y0 x1 y1).map (plot color s) := lineLoop_plots ..

/-- A horizontal, vertical or diagonal step to a neighbouring point. -/
def Neighbours (p q : Int × Int) : Prop := (q.1 - p.1).natAbs ≤ 1 ∧ (q.2 - p.2).natAbs ≤ 1 ∧ p ≠ q

/-- The distance from the ideal line along the minor axis is at most one half: both
sides are multiplied by twice the length along the major axis. -/
def NearLine (x0 y0 x1 y1 : Int) (p : Int × Int) : Prop :=
  2 * ((p.2 - y0) * (x1 - x0) - (p.1 - x0) * (y1 - y0)).natAbs ≤ max (x1 - x0).natAbs (y1 - y0).natAbs

section Walks

/-- A walk that is n steps from its end, near the line all the way. -/
def Straight (dx dy : Int) : Nat → Int → Int → Int → Prop
  | 0, a, b, _ => a = dx ∧ b = dy
  | n + 1, a, b, err =>
    ¬ (a = dx ∧ b = dy) ∧ 2 * (b * dx - a * dy).natAbs ≤ (max dx dy).toNat ∧ (-2 ^ 30 < err ∧ err < 2 ^ 30) ∧
      (2 * err > -dy ∨ 2 * err < dx) ∧
      Straight dx dy n (if 2 * err > -dy then a + 1 else a) (if 2 * err < dx then b + 1 else b)
        (err - (if 2 * err > -dy then dy else 0) + if 2 * err < dx then dx else 0)

variable {dx dy : Int} {n : Nat} {a b err : Int}

theorem Straight.swap (straight : Straight dy dx n b a (-err)) : Straight dx dy n a b err := by
  induction n generalizing a b err with
  | zero => exact straight.symm
  | succ n ih =>
    obtain ⟨going, near, range, moves, later⟩ := straight
    have right : (2 * -err < dy) = (2 * err > -dy) := propext ⟨by omega, by omega⟩
    have down : (2 * -err > -dx) = (2 * err < dx) := propext ⟨by omega, by omega⟩
    have same : b * dx - a * dy = -(a * dy - b * dx) := by omega
    refine ⟨fun ended => going ended.symm, ?_, by omega, by omega, ih ?_⟩
    · rw [same, Int.natAbs_neg, Int.max_comm]
      exact near
    · simp only [right, down] at later
      have next : -err - (if 2 * err < dx then dx else 0) + (if 2 * err > -dy then dy else 0) =
          -(err - (if 2 * err > -dy then dy else 0) + if 2 * err < dx then dx else 0) := by omega
      rw [next] at later
      exact later

/-- A flat line makes a step in x for every pixel; the deviation stays within half a pixel. -/
theorem flat_straight (flat : dy ≤ dx) (small : dx < 2 ^ 29) (some_ : 0 < dx) (level : 0 ≤ dy) (rest : a + n = dx)
    (error : err = dx - dy + (b * dx - a * dy)) (low : -dx ≤ 2 * (b * dx - a * dy)) (high : 2 * (b * dx - a * dy) ≤ dx) :
    Straight dx dy n a b err := by
  induction n generalizing a b err with
  | zero =>
    have ended : a = dx := by omega
    subst ended
    have close : b * a - a * dy = (b - dy) * a := by rw [Int.sub_mul, Int.mul_comm a dy]
    rw [close] at low high
    refine ⟨rfl, ?_⟩
    by_contra off
    rcases Int.lt_or_gt_of_ne off with below | above
    · have least : (b - dy) * a ≤ -1 * a := Int.mul_le_mul_of_nonneg_right (by omega) (by omega)
      omega
    · have most : 1 * a ≤ (b - dy) * a := Int.mul_le_mul_of_nonneg_right (by omega) (by omega)
      omega
  | succ n ih =>
    have right : 2 * err > -dy := by
      by_cases steep : dx = dy
      · -- on the diagonal the deviation is a multiple of dx
        subst steep
        rw [← Int.sub_mul] at error low high
        have never : -1 < b - a := by
          by_contra behind
          have least : (b - a) * dx ≤ -1 * dx := Int.mul_le_mul_of_nonneg_right (by omega) (by omega)
          omega
        have ahead : 0 * dx ≤ (b - a) * dx := Int.mul_le_mul_of_nonneg_right (by omega) (by omega)
        omega
      · omega
    have across : (a + 1) * dy = a * dy + dy := by rw [Int.add_mul, Int.one_mul]
    have along : (b + 1) * dx = b * dx + dx := by rw [Int.add_mul, Int.one_mul]
    refine ⟨by omega, by omega, ⟨by omega, by omega⟩, .inl right, ?_⟩
    rw [if_pos right, if_pos right]
    by_cases down : 2 * err < dx
    · rw [if_pos down, if_pos down]
      exact ih (by omega) (by omega) (by omega) (by omega)
    · rw [if_neg down, if_neg down]
      exact ih (by omega) (by omega) (by omega) (by omega)

theorem straight_start (across : 0 ≤ dx ∧ dx < 2 ^ 29) (along : 0 ≤ dy ∧ dy < 2 ^ 29) :
    Straight dx dy (max dx dy).toNat 0 0 (dx - dy) := by
  by_cases point : dx = 0 ∧ dy = 0
  · obtain ⟨rfl, rfl⟩ := point
    exact ⟨rfl, rfl⟩
  · by_cases flat : dy ≤ dx
    · have count : (max dx dy).toNat = dx.toNat := by omega
      rw [count]
      exact flat_straight flat across.2 (by omega) along.1 (by omega) (by omega) (by omega) (by omega)
    · have count : (max dx dy).toNat = dy.toNat := by omega
      rw [count]
      apply Straight.swap
      exact flat_straight (by omega) along.2 (by omega) across.1 (by omega) (by omega) (by omega) (by omega)

end Walks

section Points
variable {x0 y0 sx sy dx dy : Int}

/-- The point after a steps in x and b steps in y. -/
def after (x0 y0 sx sy a b : Int) : Int × Int := (x0 + sx * a, y0 + sy * b)

theorem near_of_steps (sideways : sx = 1 ∨ sx = -1) (downwards : sy = 1 ∨ sy = -1) {a b : Int}
    (near : 2 * (b * dx - a * dy).natAbs ≤ (max dx dy).toNat) (across : 0 ≤ dx) (along : 0 ≤ dy) :
    NearLine x0 y0 (x0 + sx * dx) (y0 + sy * dy) (after x0 y0 sx sy a b) := by
  have product : (y0 + sy * b - y0) * (x0 + sx * dx - x0) - (x0 + sx * a - x0) * (y0 + sy * dy - y0) =
      sx * sy * (b * dx - a * dy) := by
    simp only [Int.add_comm x0, Int.add_comm y0, Int.add_sub_cancel]
    ring
  have one : (sx * sy).natAbs = 1 := by
    rcases sideways with rfl | rfl <;> rcases downwards with rfl | rfl <;> rfl
  have wide : (x0 + sx * dx - x0).natAbs = dx.natAbs := by
    rcases sideways with rfl | rfl <;> omega
  have high : (y0 + sy * dy - y0).natAbs = dy.natAbs := by
    rcases downwards with rfl | rfl <;> omega
  have longest : max dx.natAbs dy.natAbs = (max dx dy).toNat := by
    clear near product wide high
    omega
  unfold NearLine after
  dsimp only
  rw [product, Int.natAbs_mul, one, Nat.one_mul, wide, high, longest]
  exact near

theorem unit_step {x s a : Int} {n : Nat} (unit : s = 1 ∨ s = -1)
    (small : -2 ^ 31 < x + s * a - (n + 1 : Nat) ∧ x + s * a + (n + 1 : Nat) < 2 ^ 31) :
    int (x + s * a + s) = x + s * (a + 1) := by
  rw [Int.mul_add, Int.mul_one]
  rcases unit with rfl | rfl
  · rw [int_id (by omega) (by omega)]
    omega
  · rw [int_id (by omega) (by omega)]
    omega

theorem unit_room {x s a a' : Int} {n : Nat} (unit : s = 1 ∨ s = -1) (moved : a' = a ∨ a' = a + 1)
    (small : -2 ^ 31 < x + s * a - (n + 1 : Nat) ∧ x + s * a + (n + 1 : Nat) < 2 ^ 31) :
    -2 ^ 31 < x + s * a' - n ∧ x + s * a' + n < 2 ^ 31 := by
  rcases unit with rfl | rfl <;> rcases moved with rfl | rfl <;> omega

theorem unit_near {x s a a' : Int} (unit : s = 1 ∨ s = -1) (moved : a' = a ∨ a' = a + 1) :
    (x + s * a' - (x + s * a)).natAbs ≤ 1 ∧ (x + s * a = x + s * a' → a' = a) := by
  rcases unit with rfl | rfl <;> rcases moved with rfl | rfl <;> omega

theorem neighbours_after (sideways : sx = 1 ∨ sx = -1) (downwards : sy = 1 ∨ sy = -1) {a b a' b' : Int}
    (wide : a' = a ∨ a' = a + 1) (deep : b' = b ∨ b' = b + 1) (moved : a' = a + 1 ∨ b' = b + 1) :
    Neighbours (after x0 y0 sx sy a b) (after x0 y0 sx sy a' b') := by
  obtain ⟨nearX, sameX⟩ := unit_near (x := x0) sideways wide
  obtain ⟨nearY, sameY⟩ := unit_near (x := y0) downwards deep
  refine ⟨nearX, nearY, fun same => ?_⟩
  have stayX := sameX (congrArg Prod.fst same)
  have stayY := sameY (congrArg Prod.snd same)
  omega

theorem loopPoints_straight (x0 y0 : Int) (sideways : sx = 1 ∨ sx = -1) (downwards : sy = 1 ∨ sy = -1) (across : 0 ≤ dx ∧ dx < 2 ^ 29)
    (along : 0 ≤ dy ∧ dy < 2 ^ 29) {n : Nat} {a b err : Int} (straight : Straight dx dy n a b err)
    (smallX : -2 ^ 31 < x0 + sx * a - n ∧ x0 + sx * a + n < 2 ^ 31)
    (smallY : -2 ^ 31 < y0 + sy * b - n ∧ y0 + sy * b + n < 2 ^ 31) :
    ∃ points, loopPoints (x0 + sx * dx) (y0 + sy * dy) dx dy sx sy (n + 1) (x0 + sx * a) (y0 + sy * b) err =
        some (after x0 y0 sx sy a b :: points) ∧ points.length = n ∧
      (after x0 y0 sx sy a b :: points).getLast? = some (x0 + sx * dx, y0 + sy * dy) ∧
      (after x0 y0 sx sy a b :: points).IsChain Neighbours ∧
      ∀ p ∈ after x0 y0 sx sy a b :: points, NearLine x0 y0 (x0 + sx * dx) (y0 + sy * dy) p := by
  induction n generalizing a b err with
  | zero =>
    obtain ⟨rfl, rfl⟩ := straight
    have near : 2 * (b * a - a * b).natAbs ≤ (max a b).toNat := by
      rw [Int.mul_comm, Int.sub_self]
      exact Nat.zero_le _
    refine ⟨[], if_pos ⟨rfl, rfl⟩, rfl, rfl, List.IsChain.singleton _, ?_⟩
    exact List.forall_mem_singleton.mpr (near_of_steps sideways downwards near across.1 along.1)
  | succ n ih =>
    obtain ⟨going, near, ⟨low, high⟩, moves, later⟩ := straight
    have running : ¬ (x0 + sx * a = x0 + sx * dx ∧ y0 + sy * b = y0 + sy * dy) := by
      rintro ⟨x, y⟩
      apply going
      rcases sideways with rfl | rfl <;> rcases downwards with rfl | rfl <;> omega
    have double : int (err * 2) = 2 * err := by
      rw [int_id (by omega) (by omega), Int.mul_comm]
    have less : int (err - dy) = err - dy := int_id (by omega) (by omega)
    have more : int (err + dx) = err + dx := int_id (by omega) (by omega)
    have both : int (err - dy + dx) = err - dy + dx := int_id (by omega) (by omega)
    have stepX := unit_step sideways smallX
    have stepY := unit_step downwards smallY
    -- the next point of the loop is the one after the walk's next step
    have walk (a' b' err' : Int) (wide : a' = a ∨ a' = a + 1) (deep : b' = b ∨ b' = b + 1) (moved : a' = a + 1 ∨ b' = b + 1)
        (run : loopPoints (x0 + sx * dx) (y0 + sy * dy) dx dy sx sy (n + 1 + 1) (x0 + sx * a) (y0 + sy * b) err =
          (loopPoints (x0 + sx * dx) (y0 + sy * dy) dx dy sx sy (n + 1) (x0 + sx * a') (y0 + sy * b') err').map
            fun points => after x0 y0 sx sy a b :: points)
        (straight : Straight dx dy n a' b' err') :
        ∃ points, loopPoints (x0 + sx * dx) (y0 + sy * dy) dx dy sx sy (n + 1 + 1) (x0 + sx * a) (y0 + sy * b) err =
            some (after x0 y0 sx sy a b :: points) ∧ points.length = n + 1 ∧
          (after x0 y0 sx sy a b :: points).getLast? = some (x0 + sx * dx, y0 + sy * dy) ∧
          (after x0 y0 sx sy a b :: points).IsChain Neighbours ∧
          ∀ p ∈ after x0 y0 sx sy a b :: points, NearLine x0 y0 (x0 + sx * dx) (y0 + sy * dy) p := by
      obtain ⟨points, later, length, last, chain, close⟩ :=
        ih straight (unit_room sideways wide smallX) (unit_room downwards deep smallY)
      have step : Neighbours (after x0 y0 sx sy a b) (after x0 y0 sx sy a' b') :=
        neighbours_after sideways downwards wide deep moved
      refine ⟨after x0 y0 sx sy a' b' :: points, ?_, congrArg (· + 1) length, ?_, List.IsChain.cons_cons step chain, ?_⟩
      · rw [run, later, Option.map_some]
      · rw [List.getLast?_cons_cons]
        exact last
      · exact List.forall_mem_cons.mpr ⟨near_of_steps sideways downwards near across.1 along.1, close⟩
    have round (right down : Bool) (isRight : right = decide (2 * err > -dy)) (isDown : down = decide (2 * err < dx)) :
        loopPoints (x0 + sx * dx) (y0 + sy * dy) dx dy sx sy (n + 1 + 1) (x0 + sx * a) (y0 + sy * b) err =
          (loopPoints (x0 + sx * dx) (y0 + sy * dy) dx dy sx sy (n + 1) (if right then x0 + sx * (a + 1) else x0 + sx * a)
            (if down then y0 + sy * (b + 1) else y0 + sy * b)
            (if down then int ((if right then err - dy else err) + dx) else if right then err - dy else err)).map
              fun points => after x0 y0 sx sy a b :: points := by
      rw [loopPoints, if_neg running, isRight, isDown]
      simp only [double, less, stepX, stepY]
      rfl
    by_cases right : 2 * err > -dy <;> by_cases down : 2 * err < dx
    all_goals simp only [right, down, if_true, if_false, Int.sub_zero, Int.add_zero] at later
    · exact walk (a + 1) (b + 1) (err - dy + dx) (.inr rfl) (.inr rfl) (.inl rfl)
        ((round true true (decide_eq_true right).symm (decide_eq_true down).symm).trans (by simp only [both, if_true])) later
    · exact walk (a + 1) b (err - dy) (.inr rfl) (.inl rfl) (.inl rfl)
        (round true false (decide_eq_true right).symm (decide_eq_false down).symm) later
    · exact walk a (b + 1) (err + dx) (.inl rfl) (.inr rfl) (.inr rfl)
        ((round false true (decide_eq_false right).symm (decide_eq_true down).symm).trans
          (by simp only [more, if_true, Bool.false_eq_true, if_false])) later
    · exact absurd moves (by omega)

theorem loopPoints_drawn {x1 y1 : Int} {dx dy : Nat} (sideways : sx = 1 ∨ sx = -1) (downwards : sy = 1 ∨ sy = -1)
    (toX : x1 = x0 + sx * dx) (toY : y1 = y0 + sy * dy) (smallX : Small x0) (smallY : Small y0) (shortX : dx < 2 ^ 29)
    (shortY : dy < 2 ^ 29) :
    ∃ points, loopPoints x1 y1 dx dy sx sy (max (dx : Int) dy).toNat.succ x0 y0 (int (dx - dy)) = some ((x0, y0) :: points) ∧
      points.length = max dx dy ∧ ((x0, y0) :: points).getLast? = some (x1, y1) ∧
      ((x0, y0) :: points).IsChain Neighbours ∧ ∀ p ∈ (x0, y0) :: points, NearLine x0 y0 x1 y1 p := by
  have error : int ((dx : Int) - dy) = dx - dy := int_id (by omega) (by omega)
  have count : (max (dx : Int) dy).toNat = max dx dy := by omega
  have straight := @straight_start dx dy ⟨by omega, by omega⟩ ⟨by omega, by omega⟩
  rw [count] at straight
  have room (x s : Int) (small : Small x) : -2 ^ 31 < x + s * 0 - (max dx dy : Nat) ∧ x + s * 0 + (max dx dy : Nat) < 2 ^ 31 := by
    obtain ⟨low, high⟩ := small
    rw [Int.mul_zero]
    omega
  have walk := loopPoints_straight x0 y0 sideways downwards ⟨by omega, by omega⟩ ⟨by omega, by omega⟩ straight
    (room x0 sx smallX) (room y0 sy smallY)
  simp only [after, Int.mul_zero, Int.add_zero, ← toX, ← toY] at walk
  rw [error, count]
  exact walk

theorem linePoints_drawn {x0 y0 x1 y1 : Int} (smallX0 : Small x0) (smallY0 : Small y0) (smallX1 : Small x1)
    (smallY1 : Small y1) : ∃ points, linePoints x0 y0 x1 y1 = some ((x0, y0) :: points) ∧
      points.length = max (x1 - x0).natAbs (y1 - y0).natAbs ∧ ((x0, y0) :: points).getLast? = some (x1, y1) ∧
      ((x0, y0) :: points).IsChain Neighbours ∧ ∀ p ∈ (x0, y0) :: points, NearLine x0 y0 x1 y1 p := by
  obtain ⟨lowX0, highX0⟩ := smallX0
  obtain ⟨lowY0, highY0⟩ := smallY0
  obtain ⟨lowX1, highX1⟩ := smallX1
  obtain ⟨lowY1, highY1⟩ := smallY1
  have across : (if x1 > x0 then int (x1 - x0) else int (x0 - x1)) = (x1 - x0).natAbs := by
    rw [int_id (by omega) (by omega), int_id (by omega) (by omega)]
    split <;> omega
  have along : (if y1 > y0 then int (y1 - y0) else int (y0 - y1)) = (y1 - y0).natAbs := by
    rw [int_id (by omega) (by omega), int_id (by omega) (by omega)]
    split <;> omega
  have toX : x1 = x0 + (if x0 < x1 then 1 else -1) * (x1 - x0).natAbs := by split <;> omega
  have toY : y1 = y0 + (if y0 < y1 then 1 else -1) * (y1 - y0).natAbs := by split <;> omega
  have sideways : (if x0 < x1 then (1 : Int) else -1) = 1 ∨ (if x0 < x1 then (1 : Int) else -1) = -1 := by split <;> simp
  have downwards : (if y0 < y1 then (1 : Int) else -1) = 1 ∨ (if y0 < y1 then (1 : Int) else -1) = -1 := by split <;> simp
  unfold linePoints
  dsimp only
  rw [across, along]
  exact loopPoints_drawn sideways downwards toX toY ⟨lowX0, highX0⟩ ⟨lowY0, highY0⟩ (by omega) (by omega)

theorem drawLine_returns (s : Screen) {x0 y0 x1 y1 : Int} (color : Color) (smallX0 : Small x0) (smallY0 : Small y0)
    (smallX1 : Small x1) (smallY1 : Small y1) : (fbDrawLine s x0 y0 x1 y1 color).isSome := by
  obtain ⟨points, run, -⟩ := linePoints_drawn smallX0 smallY0 smallX1 smallY1
  rw [drawLine_plots, run]
  rfl

/-- Between any two points of a screen the loop ends after one point for every step
along the major axis, next to each other, and near the ideal line. -/
theorem line_points {x0 y0 x1 y1 : Int} (smallX0 : Small x0) (smallY0 : Small y0) (smallX1 : Small x1) (smallY1 : Small y1) :
    ∃ points, (∀ s color, fbDrawLine s x0 y0 x1 y1 color = some (plot color s points)) ∧
      linePoints x0 y0 x1 y1 = some points ∧
      points.length = max (x1 - x0).natAbs (y1 - y0).natAbs + 1 ∧
      points.head? = some (x0, y0) ∧ points.getLast? = some (x1, y1) ∧
      points.IsChain Neighbours ∧ ∀ p ∈ points, NearLine x0 y0 x1 y1 p := by
  obtain ⟨points, run, length, last, chain, near⟩ := linePoints_drawn smallX0 smallY0 smallX1 smallY1
  refine ⟨(x0, y0) :: points, fun s color => ?_, run, congrArg (· + 1) length, rfl, last, chain, near⟩
  rw [drawLine_plots, run, Option.map_some]

theorem line_points_steep : ∃ points, (∀ s color, fbDrawLine s 3 0 1 5 color = some (plot color s points)) ∧
    linePoints 3 0 1 5 = some points ∧ points.length = max (1 - 3 : Int).natAbs (5 - 0 : Int).natAbs + 1 ∧
    points.head? = some (3, 0) ∧ points.getLast? = some (1, 5) ∧
    points.IsChain Neighbours ∧ ∀ p ∈ points, NearLine 3 0 1 5 p :=
  line_points ⟨by decide, by decide⟩ ⟨by decide, by decide⟩ ⟨by decide, by decide⟩ ⟨by decide, by decide⟩

end Points

end Qito.Fb
