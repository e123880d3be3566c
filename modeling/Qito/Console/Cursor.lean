import Qito.Console.Model
import Mathlib.Tactic.Linarith

/-! The cursor of the console under every byte stream: it stays in the grid, and no
store leaves the grid or the parameter table, exactly as long as no relative move
overflows int. -/
namespace Qito.Console
open Signed Faults

/-- The cursor stands on a cell, or just behind the last cell of a row. -/
structure Inside (s : Grid) : Prop where
  row : 0 ≤ s.cursorY ∧ s.cursorY < s.rows
  column : 0 ≤ s.cursorX ∧ s.cursorX ≤ s.cols

/-- After each byte the cursor is in the grid, and no byte makes a store outside it
or uses an entry that esc_params does not have. -/
def StaysInside (s : Grid) (text : List UInt8) : Prop :=
  ∀ before after, text = before ++ after → ∃ t, consoleWrite s before = .ok t ∧ Inside t

/-- A move down or right from here by the first parameter exceeds the largest int. -/
def Overflows (s : Grid) (c : UInt8) : Prop :=
  s.escState = .csi ∧
    (c = 'B'.toUInt8 ∧ 2 ^ 31 ≤ s.cursorY + max (s.escParams 0) 1 ∨
      c = 'C'.toUInt8 ∧ 2 ^ 31 ≤ s.cursorX + max (s.escParams 0) 1)

/-- No byte of the stream is the end of a move that overflows. -/
def Calm (s : Grid) (text : List UInt8) : Prop :=
  ∀ before c after t, text = before ++ c :: after → consoleWrite s before = .ok t → ¬ Overflows t c

/-- The sizes that console_init sets and the ranges of the parser's variables. -/
structure Sized (s : Grid) : Prop where
  width : 1 ≤ s.cols ∧ s.cols ≤ consoleColsMax
  height : 1 ≤ s.rows ∧ s.rows ≤ consoleRowsMax
  count : 0 ≤ s.escParamCount ∧ s.escParamCount ≤ paramSlots
  params : ∀ k, -2 ^ 31 ≤ s.escParams k ∧ s.escParams k < 2 ^ 31

section
variable {s : Grid}

theorem Sized.other (sized : Sized s) {f : Int → Cell} {x y : Int} {fg bg : Color} {state : EscState} :
    Sized { s with cells := f, cursorX := x, cursorY := y, currentFg := fg, currentBg := bg, escState := state } :=
  ⟨sized.width, sized.height, sized.count, sized.params⟩

theorem Sized.area_le (sized : Sized s) : s.area ≤ 32768 := by
  have ⟨wide, narrow⟩ := sized.width
  have ⟨high, low⟩ := sized.height
  unfold Grid.area
  nlinarith

theorem Sized.place_inside (sized : Sized s) (row : 0 ≤ s.cursorY ∧ s.cursorY < s.rows) {x : Int} (low : 0 ≤ x)
    (high : x < s.cols) : 0 ≤ s.place x ∧ s.place x < s.area := by
  have ⟨wide, _⟩ := sized.width
  have ⟨above, below⟩ := row
  have whole := sized.area_le
  have start : 0 ≤ s.cursorY * s.cols := by positivity
  have behind : s.cursorY * s.cols + s.cols ≤ s.area := by
    unfold Grid.area
    nlinarith
  unfold Grid.place
  rw [int32_id (n := s.cursorY * s.cols) (by omega) (by omega), int32_id (by omega) (by omega)]
  omega

theorem setCell_ok {index : Int} (change : Cell → Cell) (inside : 0 ≤ index ∧ index < s.area) :
    ∃ cells, setCell s index change = .ok { s with cells := cells } := ⟨_, if_pos inside⟩

theorem stores_ok {n : Nat} (index : Grid → Nat → Int) (change : Grid → Cell → Cell)
    (inside : ∀ i < n, ∀ cells, 0 ≤ index { s with cells := cells } i ∧ index { s with cells := cells } i < s.area) :
    ∃ cells, (List.range n).foldlM (fun t i => setCell t (index t i) (change t)) s = .ok { s with cells := cells } := by
  have loop : ∃ t, (List.range n).foldlM (fun t i => setCell t (index t i) (change t)) s = .ok t ∧
      ∃ cells, t = { s with cells := cells } := fold_invariant (fun _ t => ∃ cells, t = { s with cells := cells }) ?_ ⟨s.cells, rfl⟩
  · obtain ⟨t, run, cells, rfl⟩ := loop
    exact ⟨cells, run⟩
  · rintro before i after t split ⟨cells, rfl⟩
    have below : i < n := List.mem_range.mp (split ▸ by simp)
    obtain ⟨cells', stored⟩ := setCell_ok (s := { s with cells := cells }) (change _) (inside i below cells)
    exact ⟨_, stored, cells', rfl⟩

theorem setCells_ok (start count : Int) (change : Cell → Cell) (low : 0 ≤ start) (high : start + count ≤ s.area) :
    ∃ cells, setCells s start count change = .ok { s with cells := cells } :=
  stores_ok (fun _ i => start + i) (fun _ => change) fun i below cells => by omega

theorem consoleClear_ok (s : Grid) : ∃ cells, consoleClear s = .ok { s with cells := cells, cursorX := 0, cursorY := 0 } := by
  obtain ⟨cells, cleared⟩ := setCells_ok (s := s) 0 s.area (fun _ => blank s) (by omega) (by omega)
  exact ⟨cells, bind_ok.mpr ⟨_, cleared, rfl⟩⟩

theorem scrollUp_ok (sized : Sized s) : ∃ cells, scrollUp s = .ok { s with cells := cells, cursorY := s.rows - 1 } := by
  have ⟨wide, _⟩ := sized.width
  have ⟨high, _⟩ := sized.height
  have upper : 0 ≤ (s.rows - 1) * s.cols := by
    have := Int.sub_nonneg_of_le high
    positivity
  have whole : (s.rows - 1) * s.cols + s.cols = s.area := by
    unfold Grid.area
    rw [Int.sub_mul, Int.one_mul, Int.mul_comm]
    omega
  have moved : ∃ cells, moveCells s 0 s.cols ((s.rows - 1) * s.cols) = .ok { s with cells := cells } := by
    unfold moveCells
    rw [if_neg (by omega), if_neg (by omega)]
    exact ⟨_, rfl⟩
  obtain ⟨cells, moved⟩ := moved
  obtain ⟨cells', cleared⟩ := setCells_ok (s := { s with cells := cells }) ((s.rows - 1) * s.cols) s.cols
    (fun _ => blank { s with cells := cells }) upper (Int.le_of_eq whole)
  unfold scrollUp
  exact ⟨cells', bind_ok.mpr ⟨_, moved, bind_ok.mpr ⟨_, cleared, rfl⟩⟩⟩

theorem newline_ok (sized : Sized s) (row : 0 ≤ s.cursorY ∧ s.cursorY < s.rows) :
    ∃ cells y, newline s = .ok { s with cells := cells, cursorX := 0, cursorY := y } ∧ 0 ≤ y ∧ y < s.rows := by
  have high : s.rows ≤ 128 := sized.height.2
  have step : int32 (s.cursorY + 1) = s.cursorY + 1 := int32_id (by omega) (by omega)
  unfold newline
  rw [step]
  by_cases last : s.cursorY + 1 ≥ s.rows
  · obtain ⟨cells, scrolled⟩ := scrollUp_ok (s := { s with cursorX := 0, cursorY := s.cursorY + 1 }) (sized.other (f := s.cells))
    exact ⟨cells, s.rows - 1, (if_pos last).trans scrolled, by omega, by omega⟩
  · exact ⟨s.cells, s.cursorY + 1, if_neg last, by omega, by omega⟩

/-- Two states that differ in their colours only. -/
def Recoloured (s t : Grid) : Prop := ∃ fg bg, t = { s with currentFg := fg, currentBg := bg }

theorem applyCode_recoloured (s : Grid) (code : Int) : Recoloured s (applyCode s code) := by
  unfold applyCode
  refine iteInduction (motive := Recoloured s) (fun _ => ⟨_, _, rfl⟩) fun _ => ?_
  refine iteInduction (motive := Recoloured s) (fun _ => ?_) fun _ => ?_
  · split
    · exact ⟨_, _, rfl⟩
    · exact ⟨_, _, rfl⟩
  repeat refine iteInduction (motive := Recoloured s) (fun _ => ⟨_, _, rfl⟩) fun _ => ?_
  exact ⟨_, _, rfl⟩

/-- The colours and the parser's parameters are read within bounds, and only colours change. -/
theorem applySgr_ok (sized : Sized s) : ∃ t, applySgr s = .ok t ∧ Recoloured s t := by
  unfold applySgr
  split
  · exact ⟨_, rfl, _, _, rfl⟩
  · refine fold_invariant (fun _ t => Recoloured s t) ?_ ⟨_, _, rfl⟩
    rintro before i after t cut ⟨fg, bg, rfl⟩
    have below : i < s.escParamCount.toNat := List.mem_range.mp (cut ▸ by simp)
    have few : s.escParamCount ≤ 8 := sized.count.2
    obtain ⟨fg', bg', same⟩ := applyCode_recoloured { s with currentFg := fg, currentBg := bg } (s.escParams i)
    refine ⟨_, ?_, fg', bg', same⟩
    unfold readParam
    rw [if_pos ⟨by omega, show (i : Int) < 8 by omega⟩]
    rfl

end

/-- What every step keeps while no move overflows. -/
structure Placed (s : Grid) : Prop extends Inside s, Sized s

section
variable {s : Grid} {c : UInt8}

theorem Sized.placed (sized : Sized s) {cells : Int → Cell} {x y : Int} {fg bg : Color} {state : EscState}
    (row : 0 ≤ y ∧ y < s.rows) (column : 0 ≤ x ∧ x ≤ s.cols) :
    Placed { s with cells := cells, cursorX := x, cursorY := y, currentFg := fg, currentBg := bg, escState := state } :=
  ⟨⟨row, column⟩, sized.other⟩

theorem Placed.state (placed : Placed s) (state : EscState) : Placed { s with escState := state } :=
  placed.toSized.placed placed.row placed.column

theorem Placed.parameters (placed : Placed s) {count : Int} {params : Int → Int} (few : 0 ≤ count ∧ count ≤ 8)
    (range : ∀ k, -2 ^ 31 ≤ params k ∧ params k < 2 ^ 31) {state : EscState} :
    Placed { s with escState := state, escParams := params, escParamCount := count } :=
  ⟨⟨placed.row, placed.column⟩, placed.width, placed.height, few, range⟩

theorem clamp_range {v hi : Int} (room : 1 ≤ hi) : 0 ≤ clamp v 0 (hi - 1) ∧ clamp v 0 (hi - 1) < hi := by
  unfold clamp
  omega

theorem readParam_ok {k : Int} (low : 0 ≤ k) (high : k < 8) : readParam s k = .ok (s.escParams k) := if_pos ⟨low, high⟩

/-- Nothing stops the computation, and the cursor stays in the grid. -/
def Stays (m : Except Fault Grid) : Prop := ∃ t, m = .ok t ∧ Placed t

/-- The final byte of a sequence keeps the cursor in the grid unless it ends a move
that overflows. -/
theorem finish_ok (placed : Placed s) (down : c = 'B'.toUInt8 → s.cursorY + max (s.escParams 0) 1 < 2 ^ 31)
    (right : c = 'C'.toUInt8 → s.cursorX + max (s.escParams 0) 1 < 2 ^ 31) : Stays (finish s c) := by
  have sized := placed.toSized
  have row := placed.row
  have column := placed.column
  have wide : 1 ≤ s.cols ∧ s.cols ≤ 256 := sized.width
  have high : 1 ≤ s.rows ∧ s.rows ≤ 128 := sized.height
  have first := sized.params 0
  have param := readParam_ok (s := s) (k := 0) (by omega) (by omega)
  unfold finish
  refine iteInduction (motive := Stays) (fun letter => ?_) fun _ => ?_
  · obtain ⟨t, run, fg, bg, rfl⟩ := applySgr_ok sized
    exact ⟨_, run, sized.placed row column⟩
  refine iteInduction (motive := Stays) (fun letter => ?_) fun _ => ?_
  · have second (y : Int) : ∃ column, columnParam { s with cursorY := y } = .ok column := by
      unfold columnParam
      split
      · exact ⟨_, readParam_ok (by omega) (by omega)⟩
      · exact ⟨1, rfl⟩
    obtain ⟨column, second⟩ := second (clamp (int32 (s.escParams 0 - 1)) 0 (s.rows - 1))
    have left := clamp_range (v := int32 (column - 1)) wide.1
    exact ⟨_, bind_ok.mpr ⟨_, param, bind_ok.mpr ⟨_, second, rfl⟩⟩,
      sized.placed (clamp_range high.1) ⟨left.1, Int.le_of_lt left.2⟩⟩
  refine iteInduction (motive := Stays) (fun letter => ?_) fun _ => ?_
  · obtain ⟨cells, run⟩ := consoleClear_ok s
    exact ⟨_, run, sized.placed (by omega) (by omega)⟩
  refine iteInduction (motive := Stays) (fun letter => ?_) fun _ => ?_
  · have painted := stores_ok (s := s) (n := (s.cols - s.cursorX).toNat) (fun t i => t.place (s.cursorX + i))
      (fun t cell => { cell with ch := ' '.toUInt8, bg := t.currentBg })
      fun i below cells => sized.other.place_inside row (by omega) (show s.cursorX + i < s.cols by omega)
    obtain ⟨cells, run⟩ := painted
    exact ⟨_, run, sized.placed row column⟩
  refine iteInduction (motive := Stays) (fun letter => ?_) fun _ => ?_
  · have back : int32 (s.cursorY - max (s.escParams 0) 1) = s.cursorY - max (s.escParams 0) 1 :=
      int32_id (by omega) (by omega)
    exact ⟨_, bind_ok.mpr ⟨_, param, rfl⟩, sized.placed (by omega) column⟩
  refine iteInduction (motive := Stays) (fun letter => ?_) fun _ => ?_
  · have steps : int32 (s.cursorY + max (s.escParams 0) 1) = s.cursorY + max (s.escParams 0) 1 :=
      int32_id (by omega) (down letter)
    exact ⟨_, bind_ok.mpr ⟨_, param, rfl⟩, sized.placed (by omega) column⟩
  refine iteInduction (motive := Stays) (fun letter => ?_) fun _ => ?_
  · have steps : int32 (s.cursorX + max (s.escParams 0) 1) = s.cursorX + max (s.escParams 0) 1 :=
      int32_id (by omega) (right letter)
    exact ⟨_, bind_ok.mpr ⟨_, param, rfl⟩, sized.placed row (by omega)⟩
  refine iteInduction (motive := Stays) (fun letter => ?_) fun _ => ?_
  · have back : int32 (s.cursorX - max (s.escParams 0) 1) = s.cursorX - max (s.escParams 0) 1 :=
      int32_id (by omega) (by omega)
    exact ⟨_, bind_ok.mpr ⟨_, param, rfl⟩, sized.placed row (by omega)⟩
  · exact ⟨s, rfl, placed⟩

theorem handleEscape_ok (placed : Placed s) (calm : ¬ Overflows s c) :
    ∃ consumed t, handleEscape s c = .ok (consumed, t) ∧ Placed t := by
  have count : 0 ≤ s.escParamCount ∧ s.escParamCount ≤ 8 := placed.count
  unfold handleEscape
  split
  · split
    · exact ⟨true, _, rfl, placed.parameters ⟨by decide, by decide⟩ fun k => by decide⟩
    · exact ⟨false, s, rfl, placed⟩
  · exact ⟨true, _, rfl, placed.state _⟩
  case _ csi =>
    split
    · -- the first digit makes the first parameter
      obtain ⟨started, begun, positive, few⟩ : ∃ n, (if s.escParamCount = 0 then { s with escParamCount := 1 } else s) =
          { s with escParamCount := n } ∧ 1 ≤ n ∧ n ≤ 8 := by
        split
        · exact ⟨1, rfl, by omega, by omega⟩
        · exact ⟨s.escParamCount, rfl, by omega, by omega⟩
      rw [begun]
      have reading := readParam_ok (s := { s with escParamCount := started }) (k := started - 1) (by omega) (by omega)
      have writing (value : Int) : setParam { s with escParamCount := started } (started - 1) value =
          .ok { s with escParamCount := started, escParams := Function.update s.escParams (started - 1) value } :=
        if_pos ⟨by omega, show started - 1 < 8 by omega⟩
      refine ⟨true, _, bind_ok.mpr ⟨_, reading, bind_ok.mpr ⟨_, writing _, rfl⟩⟩, placed.parameters (by omega) fun k => ?_⟩
      rw [Function.update_apply]
      split
      · exact int32_range _
      · exact placed.params k
    split
    · refine ⟨true, _, rfl, ?_⟩
      split
      · have room : s.escParamCount < 8 := ‹_›
        exact placed.parameters (by omega) placed.params
      · exact placed
    · obtain ⟨t, run, kept⟩ := finish_ok placed (c := c)
        (fun isB => by_contra fun big => calm ⟨csi, .inl ⟨isB, by omega⟩⟩)
        (fun isC => by_contra fun big => calm ⟨csi, .inr ⟨isC, by omega⟩⟩)
      exact ⟨true, _, bind_ok.mpr ⟨t, run, rfl⟩, kept.state _⟩

theorem wrapLine_ok (sized : Sized s) (row : 0 ≤ s.cursorY ∧ s.cursorY < s.rows) (column : 0 ≤ s.cursorX) :
    ∃ t, wrapLine s = .ok t ∧ Placed t ∧ t.cursorX < t.cols := by
  unfold wrapLine
  split
  · obtain ⟨cells, y, run, below⟩ := newline_ok sized row
    have wide : 1 ≤ s.cols := sized.width.1
    exact ⟨_, run, sized.placed below (by omega), wide⟩
  · exact ⟨s, rfl, ⟨⟨row, by omega⟩, sized⟩, by omega⟩

theorem putPlain_ok (placed : Placed s) (c : UInt8) : Stays (putPlain s c) := by
  have sized := placed.toSized
  have row := placed.row
  have column := placed.column
  have wide : 1 ≤ s.cols ∧ s.cols ≤ 256 := sized.width
  unfold putPlain
  refine iteInduction (motive := Stays) (fun _ => ?_) fun _ => ?_
  · obtain ⟨cells, y, run, below⟩ := newline_ok sized row
    exact ⟨_, run, sized.placed below (by omega)⟩
  refine iteInduction (motive := Stays) (fun _ => ?_) fun _ => ?_
  · exact ⟨_, rfl, sized.placed row (by omega)⟩
  refine iteInduction (motive := Stays) (fun _ => ?_) fun _ => ?_
  · have next : int32 (s.cursorX + 8) = s.cursorX + 8 := int32_id (by omega) (by omega)
    obtain ⟨t, run, kept, _⟩ := wrapLine_ok (s := { s with cursorX := int32 (s.cursorX + 8) / 8 * 8 }) sized.other row
      (show 0 ≤ int32 (s.cursorX + 8) / 8 * 8 by omega)
    exact ⟨t, run, kept⟩
  refine iteInduction (motive := Stays) (fun _ => ?_) fun _ => ?_
  · refine iteInduction (motive := Stays) (fun _ => ?_) fun _ => ?_
    · obtain ⟨cells, stored⟩ := setCell_ok (s := { s with cursorX := s.cursorX - 1 })
        (fun cell => { cell with ch := ' '.toUInt8 })
        (sized.place_inside row (x := s.cursorX - 1) (by omega) (by omega))
      exact ⟨_, stored, sized.placed row (x := s.cursorX - 1) (by omega)⟩
    · exact ⟨s, rfl, placed⟩
  refine iteInduction (motive := Stays) (fun _ => ?_) fun _ => ?_
  · exact ⟨s, rfl, placed⟩
  · obtain ⟨t, run, kept, room⟩ := wrapLine_ok sized row column.1
    have column' := kept.column
    have wide' : 1 ≤ t.cols ∧ t.cols ≤ 256 := kept.width
    obtain ⟨cells, stored⟩ := setCell_ok (fun _ => ⟨c, t.currentFg, t.currentBg⟩)
      (kept.place_inside kept.row column'.1 room)
    have next : int32 (t.cursorX + 1) = t.cursorX + 1 := int32_id (by omega) (by omega)
    refine ⟨_, bind_ok.mpr ⟨t, run, bind_ok.mpr ⟨_, stored, rfl⟩⟩, kept.placed kept.row ?_⟩
    rw [next]
    omega

theorem consolePutc_ok (placed : Placed s) (calm : ¬ Overflows s c) : Stays (consolePutc s c) := by
  obtain ⟨consumed, t, escape, kept⟩ := handleEscape_ok placed calm
  cases consumed with
  | true => exact ⟨t, bind_ok.mpr ⟨_, escape, rfl⟩, kept⟩
  | false =>
    obtain ⟨u, plain, kept'⟩ := putPlain_ok kept c
    exact ⟨u, bind_ok.mpr ⟨_, escape, plain⟩, kept'⟩

theorem consolePutc_leaves (placed : Placed s) (overflows : Overflows s c) :
    ∃ t, consolePutc s c = .ok t ∧ ¬ Inside t := by
  obtain ⟨csi, which⟩ := overflows
  have first := placed.params 0
  have param := readParam_ok (s := s) (k := 0) (by omega) (by omega)
  have wrapped (n : Int) (low : 2 ^ 31 ≤ n) (high : n < 2 ^ 31 + 256) : int32 n = n - 2 ^ 32 := by
    unfold int32
    rw [Int.bmod_def]
    omega
  have wide : 1 ≤ s.cols ∧ s.cols ≤ 256 := placed.width
  have high : 1 ≤ s.rows ∧ s.rows ≤ 128 := placed.height
  have row := placed.row
  have column := placed.column
  -- the byte is the final one of a sequence, so nothing is printed
  have final (t : Grid) (letter : c = 'B'.toUInt8 ∨ c = 'C'.toUInt8) (run : finish s c = .ok t) :
      consolePutc s c = .ok { t with escState := .none } := by
    have ending : handleEscape s c = .ok (true, { t with escState := .none }) := by
      unfold handleEscape
      rw [csi]
      have digit : ¬ (c ≥ '0'.toUInt8 ∧ c ≤ '9'.toUInt8) ∧ c ≠ ';'.toUInt8 := by
        rcases letter with rfl | rfl <;> decide
      simp only [if_neg digit.1, if_neg digit.2]
      exact bind_ok.mpr ⟨t, run, rfl⟩
    exact bind_ok.mpr ⟨_, ending, rfl⟩
  rcases which with ⟨rfl, big⟩ | ⟨rfl, big⟩
  · have down : int32 (s.cursorY + max (s.escParams 0) 1) < 0 := by
      rw [wrapped _ big (by omega)]
      omega
    have run : finish s 'B'.toUInt8 = .ok { s with cursorY := min (int32 (s.cursorY + max (s.escParams 0) 1)) (s.rows - 1) } :=
      bind_ok.mpr ⟨_, param, rfl⟩
    refine ⟨_, final _ (.inl rfl) run, fun inside => ?_⟩
    have low : 0 ≤ min (int32 (s.cursorY + max (s.escParams 0) 1)) (s.rows - 1) := inside.row.1
    omega
  · have right : int32 (s.cursorX + max (s.escParams 0) 1) < 0 := by
      rw [wrapped _ big (by omega)]
      omega
    have run : finish s 'C'.toUInt8 = .ok { s with cursorX := min (int32 (s.cursorX + max (s.escParams 0) 1)) (s.cols - 1) } :=
      bind_ok.mpr ⟨_, param, rfl⟩
    refine ⟨_, final _ (.inr rfl) run, fun inside => ?_⟩
    have low : 0 ≤ min (int32 (s.cursorX + max (s.escParams 0) 1)) (s.cols - 1) := inside.column.1
    omega

theorem staysInside_cons {text : List UInt8} :
    StaysInside s (c :: text) ↔ Inside s ∧ ∃ t, consolePutc s c = .ok t ∧ StaysInside t text := by
  constructor
  · intro stays
    obtain ⟨_, here, inside⟩ := stays [] (c :: text) rfl
    cases Except.ok.inj here
    refine ⟨inside, ?_⟩
    obtain ⟨u, first, _⟩ := stays [c] text rfl
    obtain ⟨t, run, _⟩ := bind_ok.mp first
    refine ⟨t, run, fun before after cut => ?_⟩
    obtain ⟨u, whole, inside'⟩ := stays (c :: before) after (congrArg (c :: ·) cut)
    obtain ⟨t', run', rest⟩ := bind_ok.mp whole
    cases Except.ok.inj (run.symm.trans run')
    exact ⟨u, rest, inside'⟩
  · rintro ⟨inside, t, run, stays⟩ before after cut
    cases before with
    | nil => exact ⟨s, rfl, inside⟩
    | cons c' before =>
      obtain ⟨rfl, cut'⟩ := List.cons.inj cut
      obtain ⟨u, rest, inside'⟩ := stays before after cut'
      exact ⟨u, bind_ok.mpr ⟨t, run, rest⟩, inside'⟩

theorem calm_cons {text : List UInt8} :
    Calm s (c :: text) ↔ ¬ Overflows s c ∧ ∀ t, consolePutc s c = .ok t → Calm t text := by
  constructor
  · intro calm
    refine ⟨calm [] c text s rfl rfl, fun t run before c' after u cut rest => ?_⟩
    exact calm (c :: before) c' after u (congrArg (c :: ·) cut) (bind_ok.mpr ⟨t, run, rest⟩)
  · rintro ⟨here, later⟩ before c' after u cut run
    cases before with
    | nil =>
      cases Except.ok.inj run
      exact (List.cons.inj cut).1 ▸ here
    | cons d before =>
      obtain ⟨rfl, cut'⟩ := List.cons.inj cut
      obtain ⟨t, first, rest⟩ := bind_ok.mp run
      exact later t first before c' after u cut' rest

theorem Placed.stays_iff (placed : Placed s) (text : List UInt8) : StaysInside s text ↔ Calm s text := by
  induction text generalizing s with
  | nil =>
    refine iff_of_true (fun before after cut => ?_) fun before c after t cut => ?_
    · obtain ⟨rfl, _⟩ := List.append_eq_nil_iff.mp cut.symm
      exact ⟨s, rfl, placed.toInside⟩
    · exact absurd cut (by simp)
  | cons c text ih =>
    rw [staysInside_cons, calm_cons]
    constructor
    · rintro ⟨_, t, run, stays⟩
      have calm : ¬ Overflows s c := fun overflows => by
        obtain ⟨t', run', outside⟩ := consolePutc_leaves placed overflows
        cases Except.ok.inj (run.symm.trans run')
        obtain ⟨_, here, inside⟩ := stays [] text rfl
        cases Except.ok.inj here
        exact outside inside
      obtain ⟨t', run', placed'⟩ := consolePutc_ok placed calm
      refine ⟨calm, fun u same => ?_⟩
      cases Except.ok.inj (run.symm.trans run')
      cases Except.ok.inj (run.symm.trans same)
      exact (ih placed').mp stays
    · rintro ⟨calm, later⟩
      obtain ⟨t, run, placed'⟩ := consolePutc_ok placed calm
      exact ⟨placed.toInside, t, run, (ih placed').mpr (later t run)⟩

theorem consoleInit_placed (columns rows : Int) (wide : 1 ≤ columns) (high : 1 ≤ rows) :
    ∃ s, consoleInit columns rows = .ok s ∧ Placed s := by
  obtain ⟨cells, run⟩ := consoleClear_ok {
    cells := fun _ => ⟨0, 0, 0⟩, cols := min columns consoleColsMax, rows := min rows consoleRowsMax
    cursorX := 0, cursorY := 0
    currentFg := rgb 205 212 225, currentBg := rgb 18 20 28, defaultFg := rgb 205 212 225, defaultBg := rgb 18 20 28
    escState := .none, escParams := fun _ => 0, escParamCount := 0 }
  have cols : 1 ≤ min columns 256 ∧ min columns 256 ≤ 256 := by omega
  have lines : 1 ≤ min rows 128 ∧ min rows 128 ≤ 128 := by omega
  refine ⟨_, run, ⟨⟨?_, ?_⟩, cols, lines, show 0 ≤ (0 : Int) ∧ (0 : Int) ≤ 8 by decide,
    fun k => show -2 ^ 31 ≤ (0 : Int) ∧ (0 : Int) < 2 ^ 31 by decide⟩⟩
  · exact show 0 ≤ (0 : Int) ∧ 0 < min rows 128 by omega
  · exact show 0 ≤ (0 : Int) ∧ 0 ≤ min columns 256 by omega

/-- A console of any size of at least one row and column stays in its grid exactly
where no move down or right by a parameter exceeds the largest int. -/
theorem console_stays_inside (columns rows : Int) (wide : 1 ≤ columns) (high : 1 ≤ rows) (text : List UInt8) :
    ∃ s, consoleInit columns rows = .ok s ∧ (StaysInside s text ↔ Calm s text) := by
  obtain ⟨s, run, placed⟩ := consoleInit_placed columns rows wide high
  exact ⟨s, run, placed.stays_iff text⟩

theorem console_stays_inside_line : ∃ s, consoleInit 80 25 = .ok s ∧ (StaysInside s [10] ↔ Calm s [10]) :=
  console_stays_inside 80 25 (by decide) (by decide) [10]

/-- A line feed and a move down by the largest int: the cursor ends above the grid. -/
theorem cursor_wraps_above : ∃ s, consoleInit 1 2 = .ok s ∧
    ¬ StaysInside s [10, 27, 91, 50, 49, 52, 55, 52, 56, 51, 54, 52, 55, 66] := by
  obtain ⟨s, run, -⟩ := consoleInit_placed 1 2 (by decide) (by decide)
  refine ⟨s, run, fun stays => ?_⟩
  obtain ⟨t, written, inside⟩ := stays _ [] (List.append_nil _).symm
  have last : ((consoleInit 1 2).bind fun s => (consoleWrite s [10, 27, 91, 50, 49, 52, 55, 52, 56, 51, 54, 52, 55, 66]).bind
      fun t => .ok t.cursorY).toOption = some (-2147483648) := by decide +kernel
  rw [run] at last
  have above : ((consoleWrite s [10, 27, 91, 50, 49, 52, 55, 52, 56, 51, 54, 52, 55, 66]).bind
      fun t => .ok t.cursorY).toOption = some (-2147483648) := last
  rw [written] at above
  have place : t.cursorY = -2147483648 := Option.some.inj above
  have low := inside.row.1
  omega

end

end Qito.Console
