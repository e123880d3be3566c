import Qito.Shells.Model

/-! What earlier lines have left in the buffers does not matter: from one world a
line leads to one world and one status, and it leaves one patch in the buffers. -/
namespace Qito.Shells
open Rows

variable {σ : Type}

def rowSize : Row → Nat
  | .entry _ _ => shellLineMax
  | .scratch => shellScratchSize

/-- A patch of strings that fit their rows. -/
structure Proper (patch : Patch Row) : Prop where
  ended : ∀ r, Ended (patch r)
  sized : ∀ r, (patch r).length ≤ rowSize r

/-- Behind a patch the computation depends on the world alone, and extends the patch. -/
def Settled (before : Patch Row) (f : State σ → State σ × Int) : Prop :=
  ∀ w, ∃ w' status after, Proper after ∧ (∀ r, (before r).length ≤ (after r).length) ∧
    ∀ mem, f ⟨w, apply before mem⟩ = (⟨w', apply after mem⟩, status)

section Patches
variable {new old patch : Patch Row} {f : State σ → State σ × Int}

theorem overlay_length (new old : Patch Row) (r : Row) : (overlay new old r).length = max (new r).length (old r).length :=
  cover_length

theorem Proper.overlay (new_ : Proper new) (old_ : Proper old) : Proper (overlay new old) where
  ended r := (new_.ended r).cover (old_.ended r)
  sized r := by
    rw [overlay_length]
    exact Nat.max_le.mpr ⟨new_.sized r, old_.sized r⟩

theorem proper_untouched : Proper untouched := ⟨fun _ => ended_nil, fun _ => Nat.zero_le _⟩

theorem proper_scratchText (text : Bytes) : Proper (scratchText text) := by
  constructor
  · intro r
    unfold scratchText strcpy
    split
    · exact ended_string _
    · exact ended_nil
  · intro r
    unfold scratchText strcpy
    split
    · rename_i scratch
      rw [scratch, List.length_append, List.length_take, List.length_singleton]
      exact Nat.succ_le_of_lt (Nat.lt_of_le_of_lt (Nat.min_le_left _ _) (by decide))
    · exact Nat.zero_le _

theorem proper_fillTable (table : Table) (separator : UInt8) (line : Bytes) :
    Proper (fillTable table (splitOn separator line)) := by
  constructor
  · intro r
    cases r with
    | scratch => exact ended_nil
    | entry t i =>
      simp only [fillTable]
      split
      · cases (splitOn separator line)[i]? with
        | none => exact ended_nil
        | some text => exact ended_string text
      · exact ended_nil
  · intro r
    cases r with
    | scratch => exact Nat.zero_le _
    | entry t i =>
      simp only [fillTable, splitOn]
      split
      · rw [List.getElem?_map]
        cases ((parts separator line).take shellPipeMax)[i]? with
        | none => exact Nat.zero_le _
        | some text =>
          simp only [Option.map_some, Option.elim_some, List.length_append, List.length_take, List.length_singleton]
          exact Nat.succ_le_of_lt (Nat.lt_of_le_of_lt (Nat.min_le_left _ _) (Nat.sub_one_lt (by decide)))
      · exact Nat.zero_le _

theorem Settled.behind (settled : Settled untouched f) (proper : Proper patch) : Settled patch f := by
  intro w
  obtain ⟨w', status, after, good, -, run⟩ := settled w
  refine ⟨w', status, overlay after patch, good.overlay proper, fun r => ?_, fun mem => ?_⟩
  · rw [overlay_length]
    exact Nat.le_max_right _ _
  · rw [apply_overlay]
    exact run (apply patch mem)

theorem Settled.filled (settled : Settled (overlay new old) f) :
    Settled old fun state => f { state with mem := apply new state.mem } := by
  intro w
  obtain ⟨w', status, after, good, grows, run⟩ := settled w
  refine ⟨w', status, after, good, fun r => Nat.le_trans ?_ (grows r), fun mem => ?_⟩
  · rw [overlay_length]
    exact Nat.le_max_right _ _
  · have here := run mem
    rw [apply_overlay] at here
    exact here

end Patches

section Lines
variable {cells : List UInt8} {save n k : Nat}

theorem passOver_cover (skip : UInt8 → Bool) (stops : skip 0 = false) (ended : Ended cells) (inside : k < cells.length)
    (room : cells.length ≤ k + n) :
    ∃ j, k ≤ j ∧ j < cells.length ∧ ∀ rest, passOver (cover cells rest) skip n k = j := by
  induction n generalizing k with
  | zero => omega
  | succ n ih =>
    by_cases here : skip (cells.get ⟨k, inside⟩) = true
    · have full : cells[k] ≠ 0 := by
        intro zero
        rw [List.get_eq_getElem, zero, stops] at here
        cases here
      have next := ended.next inside full
      obtain ⟨j, above, below, run⟩ := ih next (by omega)
      refine ⟨j, by omega, below, fun rest => ?_⟩
      rw [passOver, cover_inside inside, if_pos here]
      exact run rest
    · refine ⟨k, Nat.le_refl k, inside, fun rest => ?_⟩
      rw [passOver, cover_inside inside, if_neg here]

theorem strtok_cover (ended : Ended cells) (inside : save < cells.length) (room : cells.length ≤ shellScratchSize) :
    (∀ rest, strtok (cover cells rest) save = none) ∨
    ∃ line cells' save', Ended cells' ∧ cells'.length = cells.length ∧ save' < cells.length ∧
      ∀ rest, strtok (cover cells rest) save = some (line, cover cells' rest, save') := by
  obtain ⟨start, above, below, first⟩ := passOver_cover (· == 10) (n := shellScratchSize - save) (by decide) ended
    inside (by omega)
  obtain ⟨stop, after, under, second⟩ := passOver_cover (fun c => c != 10 && c != 0) (n := shellScratchSize - start)
    (by decide) ended below (by omega)
  have long : ¬ shellScratchSize ≤ start := by omega
  by_cases zero : cells[start] = 0
  · refine .inl fun rest => ?_
    have here : cover cells rest start = 0 := (cover_inside below).trans zero
    simp only [strtok, first rest, here, true_or, if_true]
  have full (rest : Nat → UInt8) : ¬ (cover cells rest start = 0 ∨ shellScratchSize ≤ start) := by
    rw [cover_inside below]
    exact fun either => either.elim zero long
  have line (rest : Nat → UInt8) : ((List.range (stop - start)).map fun i => cover cells rest (start + i)) =
      (cells.drop start).take (stop - start) := by
    apply List.ext_getElem
    · simp only [List.length_map, List.length_range, List.length_take, List.length_drop]
      omega
    · intro i left right
      have bound : start + i < cells.length := by
        simp only [List.length_map, List.length_range] at left
        omega
      rw [List.getElem_map, List.getElem_range, cover_inside bound, List.getElem_take, List.getElem_drop]
      rfl
  right
  by_cases last : cells[stop] = 0
  · refine ⟨(cells.drop start).take (stop - start), cells, stop, ended, rfl, under, fun rest => ?_⟩
    have here : cover cells rest stop = 0 := (cover_inside under).trans last
    simp only [strtok, first rest, if_neg (full rest), second rest, here, if_true, line rest]
  · have next := ended.next under last
    refine ⟨(cells.drop start).take (stop - start), cells.set stop 0, stop + 1, ended.set next, List.length_set, next,
      fun rest => ?_⟩
    have there : ¬ cover cells rest stop = 0 := fun zero => last ((cover_inside under).symm.trans zero)
    have put : (fun k => if k = stop then 0 else cover cells rest k) = cover (cells.set stop 0) rest := by
      funext k
      rw [cover, cover, List.getD_eq_getElem?_getD, List.getD_eq_getElem?_getD, List.getElem?_set]
      by_cases same : stop = k
      · simp [← same, under]
      · simp [same, Ne.symm same]
    simp only [strtok, first rest, if_neg (full rest), second rest, if_neg there, line rest, put]

end Lines

/-- Every line that exec runs settles. -/
def LinesSettle (exec : Exec σ) : Prop := ∀ line, Settled untouched fun state => exec state line

section Commands
variable {K : Kernel σ} {commands : List (ShellCommand σ)} {exec : Exec σ} {before : Patch Row}

theorem LinesSettle.line (lines : LinesSettle exec) (proper : Proper before) (w : World σ) (line : Bytes) :
    ∃ w' status after, Proper after ∧ (∀ r, (before r).length ≤ (after r).length) ∧
      ∀ mem, exec ⟨w, apply before mem⟩ line = (⟨w', apply after mem⟩, status) := (lines line).behind proper w

theorem runProg_settled (lines : LinesSettle exec) (prog : Prog σ) (proper : Proper before) :
    ∃ w' status after, Proper after ∧ (∀ r, (before r).length ≤ (after r).length) ∧
      ∀ mem, runProg exec prog (apply before mem) = (⟨w', apply after mem⟩, status) := by
  induction prog generalizing before with
  | done w status => exact ⟨w, status, before, proper, fun _ => Nat.le_refl _, fun _ => rfl⟩
  | call w line next ih =>
    obtain ⟨w', status, middle, good, grows, run⟩ := lines.line proper w line
    obtain ⟨w'', status', after, fine, more, rest⟩ := ih w' status good
    refine ⟨w'', status', after, fine, fun r => Nat.le_trans (grows r) (more r), fun mem => ?_⟩
    rw [runProg, run mem]
    exact rest mem
  | load text next ih =>
    obtain ⟨w', status, after, good, grows, run⟩ := ih ((proper_scratchText text).overlay proper)
    refine ⟨w', status, after, good, fun r => Nat.le_trans ?_ (grows r), fun mem => ?_⟩
    · rw [overlay_length]
      exact Nat.le_max_right _ _
    · rw [runProg, ← apply_overlay]
      exact run mem

section Loop
variable {n save save' : Nat} {status : Int} {w : World σ} {mem : Row → Nat → UInt8} {line : Bytes} {cells : Nat → UInt8}

theorem sourceLines_none (last : strtok (mem .scratch) save = none) :
    sourceLines K exec (n + 1) save status ⟨w, mem⟩ = (⟨w, mem⟩, status) := by
  simp only [sourceLines, last]

theorem sourceLines_some (next : strtok (mem .scratch) save = some (line, cells, save')) :
    sourceLines K exec (n + 1) save status ⟨w, mem⟩ =
      sourceLines K exec n save' (exec ⟨echoLine K line w, setScratch cells mem⟩ line).2
        (exec ⟨echoLine K line w, setScratch cells mem⟩ line).1 := by
  simp only [sourceLines, next]

end Loop

theorem setScratch_apply (cells : List UInt8) (mem : Row → Nat → UInt8) :
    setScratch (cover cells (mem .scratch)) (apply before mem) = apply (Function.update before .scratch cells) mem := by
  funext r
  by_cases scratch : r = .scratch
  · simp [setScratch, apply, scratch]
  · simp [setScratch, apply, scratch]

theorem sourceLines_settled (lines : LinesSettle exec) (n : Nat) (status : Int) {save : Nat}
    (proper : Proper before) (inside : save < (before .scratch).length) :
    Settled before (sourceLines K exec n save status) := by
  induction n generalizing save status before with
  | zero => exact fun w => ⟨w, status, before, proper, fun _ => Nat.le_refl _, fun _ => rfl⟩
  | succ n ih =>
    intro w
    rcases strtok_cover (proper.ended .scratch) inside (proper.sized .scratch) with
      none_ | ⟨line, cells, save', ended, length, below, token⟩
    · exact ⟨w, status, before, proper, fun _ => Nat.le_refl _, fun mem => sourceLines_none (none_ (mem .scratch))⟩
    · have same (r : Row) : (Function.update before .scratch cells r).length = (before r).length := by
        by_cases scratch : r = .scratch
        · rw [scratch, Function.update_self, length]
        · rw [Function.update_of_ne scratch]
      have cut : Proper (Function.update before .scratch cells) := by
        constructor
        · intro r
          by_cases scratch : r = .scratch
          · rw [scratch, Function.update_self]
            exact ended
          · rw [Function.update_of_ne scratch]
            exact proper.ended r
        · intro r
          rw [same]
          exact proper.sized r
      obtain ⟨w', status', middle, good, grows, run⟩ := lines.line cut (echoLine K line w) line
      have grows (r : Row) : (before r).length ≤ (middle r).length := by
        rw [← same]
        exact grows r
      obtain ⟨w'', last, after, fine, more, rest⟩ :=
        ih status' good (Nat.lt_of_lt_of_le below (grows .scratch)) w'
      refine ⟨w'', last, after, fine, fun r => Nat.le_trans (grows r) (more r), fun mem => ?_⟩
      rw [sourceLines_some (token (mem .scratch)), setScratch_apply, run mem]
      exact rest mem

theorem cmdSource_settled (lines : LinesSettle exec) (argv : List Bytes) (proper : Proper before) :
    Settled before (cmdSource K exec argv) := by
  intro w
  unfold cmdSource
  split
  · rename_i name script more
    cases scratch : shellScratch K w with
    | mk there w' =>
      cases there with
      | false => exact ⟨_, 1, before, proper, fun _ => Nat.le_refl _, fun mem => by simp only [scratch]; rfl⟩
      | true =>
        cases read : K.readFile w'.sys (K.resolvePath w.sh.cwd script) with
        | mk text sys =>
          cases text with
          | none => exact ⟨_, 1, before, proper, fun _ => Nat.le_refl _, fun mem => by simp only [scratch, read]; rfl⟩
          | some text =>
            have loaded := (proper_scratchText text).overlay proper
            have grown (r : Row) : (before r).length ≤ (overlay (scratchText text) before r).length := by
              rw [overlay_length]
              exact Nat.le_max_right _ _
            have inside : 0 < (overlay (scratchText text) before .scratch).length := by
              rw [overlay_length, scratchText, strcpy, if_pos rfl, List.length_append, List.length_singleton]
              omega
            obtain ⟨w'', status, after, good, grows, run⟩ :=
              sourceLines_settled (K := K) lines shellScratchSize 0 loaded inside { w' with sys := sys }
            refine ⟨w'', status, after, good, fun r => Nat.le_trans (grown r) (grows r), fun mem => ?_⟩
            have here := run mem
            rw [apply_overlay] at here
            simp only [scratch, read]
            exact here
  · exact ⟨shellError K w (ascii "usage: source <script>"), 1, before, proper, fun _ => Nat.le_refl _, fun _ => rfl⟩

theorem runSimple_settled (K : Kernel σ) (commands : List (ShellCommand σ)) (lines : LinesSettle exec) (argv : List Bytes)
    (proper : Proper before) : Settled before (runSimple K commands exec argv) := by
  intro w
  unfold runSimple
  cases argv with
  | nil => exact ⟨w, 0, before, proper, fun _ => Nat.le_refl _, fun _ => rfl⟩
  | cons name args =>
    cases search : commands.find? fun c => c.name == name with
    | none => exact ⟨notFound K name w, 127, before, proper, fun _ => Nat.le_refl _, fun mem => by simp only [search]; rfl⟩
    | some command =>
      cases denied : command.privileged && !K.privileged w.sys with
      | true =>
        exact ⟨shellError K w (command.name ++ ascii ": permission denied (requires root)"), 126, before, proper,
          fun _ => Nat.le_refl _, fun mem => by simp only [search, denied, if_true]; rfl⟩
      | false =>
        cases handler : command.handler with
        | source =>
          obtain ⟨w', status, after, good, grows, run⟩ := cmdSource_settled lines (name :: args) proper (countRun w)
          refine ⟨w', status, after, good, grows, fun mem => ?_⟩
          simp only [search, denied, handler, Bool.false_eq_true, if_false]
          exact run mem
        | other prog =>
          obtain ⟨w', status, after, good, grows, run⟩ := runProg_settled lines (prog (name :: args) (countRun w)) proper
          refine ⟨w', status, after, good, grows, fun mem => ?_⟩
          simp only [search, denied, handler, Bool.false_eq_true, if_false]
          exact run mem

end Commands

section Stages
variable {K : Kernel σ} {commands : List (ShellCommand σ)} {exec : Exec σ} {before : Patch Row}

theorem readInput_settled (raw : Bytes) (w : World σ) (proper : Proper before) :
    ∃ opened w' after, Proper after ∧ (∀ r, (before r).length ≤ (after r).length) ∧
      ∀ mem, readInput K raw ⟨w, apply before mem⟩ = (opened, ⟨w', apply after mem⟩) := by
  unfold readInput
  cases scratch : shellScratch K w with
  | mk there w' =>
    cases there with
    | false =>
      exact ⟨false, _, before, proper, fun _ => Nat.le_refl _, fun mem => by simp only [scratch]; rfl⟩
    | true =>
      cases read : K.readFile w'.sys (K.resolvePath w.sh.cwd raw) with
      | mk text sys =>
        cases text with
        | none => exact ⟨false, _, before, proper, fun _ => Nat.le_refl _, fun mem => by simp only [scratch, read]; rfl⟩
        | some text =>
          refine ⟨true, setPipe (text.take (shellScratchSize - 1)) { w' with sys := sys }, overlay (scratchText text) before,
            (proper_scratchText text).overlay proper, fun r => ?_, fun mem => ?_⟩
          · rw [overlay_length]
            exact Nat.le_max_right _ _
          · simp only [scratch, read, apply_overlay]
            rfl

theorem wordsOf_settled (pipe : Option Bytes) (redirect : Option (Bytes × Bool)) (text : Bytes) (w : World σ) :
    ∃ stage w', ∀ mem, wordsOf pipe redirect text ⟨w, mem⟩ = (stage, ⟨w', mem⟩) := by
  cases pipe with
  | none => exact ⟨(wordsOf none redirect text ⟨w, fun _ _ => 0⟩).1, w, fun _ => rfl⟩
  | some input => exact ⟨(wordsOf (some input) redirect text ⟨w, fun _ _ => 0⟩).1, setPipe input w, fun _ => rfl⟩

theorem prepareStage_settled (segment : Bytes) (pipe : Option Bytes) (w : World σ) (proper : Proper before) :
    ∃ stage w' after, Proper after ∧ (∀ r, (before r).length ≤ (after r).length) ∧
      ∀ mem, prepareStage K segment pipe ⟨w, apply before mem⟩ = (stage, ⟨w', apply after mem⟩) := by
  unfold prepareStage
  simp only
  split
  · obtain ⟨stage, w', run⟩ := wordsOf_settled pipe _ _ w
    exact ⟨stage, w', before, proper, fun _ => Nat.le_refl _, fun mem => run _⟩
  · rename_i i _
    obtain ⟨opened, w', after, good, grows, read⟩ := readInput_settled (K := K) (inputName _ i) w proper
    cases opened with
    | false => exact ⟨.failed, w', after, good, grows, fun mem => by rw [read mem]⟩
    | true =>
      obtain ⟨stage, w'', run⟩ := wordsOf_settled pipe _ _ w'
      refine ⟨stage, w'', after, good, grows, fun mem => ?_⟩
      rw [read mem]
      exact run _

theorem entryText_settled {table : Table} {i col : Nat} (w : World σ) (proper : Proper before)
    (inside : col < (before (.entry table i)).length) :
    ∃ text, col + text.length < (before (.entry table i)).length ∧
      ∀ mem, entryText table i col ⟨w, apply before mem⟩ = text := by
  have sized : (before (.entry table i)).length ≤ shellLineMax := proper.sized _
  refine ⟨((before (.entry table i)).drop col).takeWhile (· ≠ 0), ?_, fun mem => ?_⟩
  · exact (proper.ended _).short inside
  · exact scan_cover (proper.ended _) inside (by omega)

theorem deliver_settled (redirect : Option (Bytes × Bool)) (output : Bytes) (w : World σ) (status : Int) :
    ∃ w' status' pipe, ∀ mem, deliver K redirect output (⟨w, mem⟩, status) = (⟨w', mem⟩, status', pipe) := by
  cases redirect with
  | none => exact ⟨w, status, some output, fun _ => rfl⟩
  | some target =>
    unfold deliver
    cases written : K.writeFile w.sys target.1 target.2 output with
    | mk ok sys =>
      cases ok with
      | true => exact ⟨{ w with sys := sys }, status, none, fun mem => by simp only [written]; rfl⟩
      | false =>
        exact ⟨shellError K { w with sys := sys } (target.1 ++ ascii ": cannot open for writing"), 1, none,
          fun mem => by simp only [written]; rfl⟩

theorem runStage_settled (K : Kernel σ) (commands : List (ShellCommand σ)) (lines : LinesSettle exec) (text : Bytes)
    (piped : Bool) (w : World σ) (status : Int) (pipe : Option Bytes) (stopped : Bool) (proper : Proper before) :
    ∃ w' status' pipe' stopped' after, Proper after ∧ (∀ r, (before r).length ≤ (after r).length) ∧
      ∀ mem, runStage K commands exec text piped ⟨⟨w, apply before mem⟩, status, pipe, stopped⟩ =
        ⟨⟨w', apply after mem⟩, status', pipe', stopped'⟩ := by
  obtain ⟨stage, w', middle, good, grows, prepared⟩ := prepareStage_settled (K := K) text pipe w proper
  cases stage with
  | failed =>
    refine ⟨w', 1, none, true, middle, good, grows, fun mem => ?_⟩
    simp only [runStage, prepared mem]
  | empty =>
    refine ⟨w', status, pipe, stopped, middle, good, grows, fun mem => ?_⟩
    simp only [runStage, prepared mem]
  | ready argv redirect =>
    cases captured : piped || redirect.isSome with
    | true =>
      cases allocated : (K.kmalloc w'.sys).1 with
      | false =>
        refine ⟨shellError K { w' with sys := (K.kmalloc w'.sys).2 } (ascii "out of memory setting up the pipeline"), 1, none,
          true, middle, good, grows, fun mem => ?_⟩
        simp only [runStage, prepared mem, captured, allocated]
        rfl
      | true =>
        obtain ⟨u, done, after, fine, longer, run⟩ := runSimple_settled K commands lines argv good
          (setSink (some ⟨[], false⟩) { w' with sys := (K.kmalloc w'.sys).2 })
        obtain ⟨v, status', pipe', delivered⟩ := deliver_settled (K := K) redirect ((u.sh.sink.map Sink.buffer).getD [])
          (setSink w'.sh.sink u) done
        refine ⟨v, status', pipe', false, after, fine, fun r => Nat.le_trans (grows r) (longer r), fun mem => ?_⟩
        have ran := run mem
        have sent := delivered (apply after mem)
        simp only [runStage, prepared mem, captured, allocated, if_true]
        simp only [State.map] at ran sent ⊢
        simp only [ran, sent]
    | false =>
      obtain ⟨u, done, after, fine, longer, run⟩ := runSimple_settled K commands lines argv good w'
      refine ⟨u, done, none, false, after, fine, fun r => Nat.le_trans (grows r) (longer r), fun mem => ?_⟩
      simp only [runStage, prepared mem, captured, Bool.false_eq_true, if_false, run mem]

theorem runStages_settled (K : Kernel σ) (commands : List (ShellCommand σ)) (lines : LinesSettle exec) (count : Nat)
    (more : List Nat) (w : World σ) (status : Int) (pipe : Option Bytes) (stopped : Bool) (proper : Proper before)
    (filled : ∀ k ∈ more, 0 < (before (.entry .stages k)).length) :
    ∃ w' status' pipe' stopped' after, Proper after ∧ (∀ r, (before r).length ≤ (after r).length) ∧
      ∀ mem, runStages K commands exec count more ⟨⟨w, apply before mem⟩, status, pipe, stopped⟩ =
        ⟨⟨w', apply after mem⟩, status', pipe', stopped'⟩ := by
  induction more generalizing w status pipe stopped before with
  | nil => exact ⟨w, status, pipe, stopped, before, proper, fun _ => Nat.le_refl _, fun _ => rfl⟩
  | cons k more ih =>
    cases stopped with
    | true => exact ⟨w, status, pipe, true, before, proper, fun _ => Nat.le_refl _, fun _ => rfl⟩
    | false =>
      obtain ⟨text, -, read⟩ := entryText_settled w proper (filled k List.mem_cons_self)
      obtain ⟨w', status', pipe', stop, middle, good, grows, run⟩ :=
        runStage_settled K commands lines text (decide (k + 1 < count)) w status pipe false proper
      have later : ∀ k ∈ more, 0 < (middle (.entry .stages k)).length := fun j member =>
        Nat.lt_of_lt_of_le (filled j (List.mem_cons_of_mem _ member)) (grows _)
      obtain ⟨w'', status'', pipe'', stop', after, fine, longer, rest⟩ := ih w' status' pipe' stop good later
      refine ⟨w'', status'', pipe'', stop', after, fine, fun r => Nat.le_trans (grows r) (longer r), fun mem => ?_⟩
      simp only [runStages, read mem, run mem, Bool.false_eq_true, if_false]
      exact rest mem

end Stages

section Statements
variable {K : Kernel σ} {commands : List (ShellCommand σ)} {exec : Exec σ} {before : Patch Row}

theorem strstr_bound {needle text : Bytes} {i : Nat} (found : strstr needle text = some i) :
    i + needle.length ≤ text.length := by
  induction text generalizing i with
  | nil => simp [strstr] at found
  | cons c rest ih =>
    unfold strstr at found
    split at found
    · rename_i here
      cases Option.some.inj found
      rw [Nat.zero_add]
      exact (List.isPrefixOf_iff_prefix.mp here).length_le
    · obtain ⟨j, later, rfl⟩ := Option.map_eq_some_iff.mp found
      have bound := ih later
      rw [List.length_cons]
      omega

theorem chainAt_bound {text : Bytes} {useAnd : Bool} {split : Nat} (chain : chainAt text = some (useAnd, split)) :
    split + 2 ≤ text.length := by
  unfold chainAt at chain
  split at chain
  · cases chain
  · rename_i i and_ or_
    cases chain
    exact strstr_bound and_
  · rename_i j and_ or_
    cases chain
    exact strstr_bound or_
  · rename_i i j and_ or_
    split at chain
    · cases chain
      exact strstr_bound and_
    · cases chain
      exact strstr_bound or_

theorem fillTable_filled {table : Table} {entries : List Bytes} {i : Nat} (inside : i < entries.length) (old : Patch Row) :
    0 < (overlay (fillTable table entries) old (.entry table i)).length := by
  rw [overlay_length, fillTable, if_pos rfl, List.getElem?_eq_getElem inside, Option.elim_some, List.length_append,
    List.length_singleton]
  omega

theorem runPipeline_settled (lines : LinesSettle exec) (text : Bytes) (proper : Proper before) :
    Settled before (runPipeline K commands exec text) := by
  apply Settled.filled (f := fun state => endPipeline (runStages K commands exec _ _ ⟨state, 0, none, false⟩))
  intro w
  obtain ⟨w', status, pipe, stopped, after, good, grows, run⟩ := runStages_settled K commands lines (splitOn 124 text).length
    (List.range (splitOn 124 text).length) w 0 none false ((proper_fillTable .stages 124 text).overlay proper)
    fun k member => fillTable_filled (List.mem_range.mp member) before
  cases stopped with
  | true => exact ⟨w', status, after, good, grows, fun mem => congrArg endPipeline (run mem)⟩
  | false =>
    exact ⟨{ w' with sh := shellUnsetVar w'.sh pipeInput }, status, after, good, grows,
      fun mem => congrArg endPipeline (run mem)⟩

theorem runText_settled (K : Kernel σ) (commands : List (ShellCommand σ)) (lines : LinesSettle exec) {text : Bytes}
    {right : Nat → State σ → Bytes} (proper : Proper before)
    (reads : ∀ useAnd split middle w, chainAt text = some (useAnd, split) → Proper middle →
      (∀ r, (before r).length ≤ (middle r).length) → ∃ line, ∀ mem, right (split + 2) ⟨w, apply middle mem⟩ = line) :
    Settled before (runText K commands exec text right) := by
  intro w
  cases chain : chainAt text with
  | none =>
    have pipeline : Settled before (runPipeline K commands exec text) := runPipeline_settled lines text proper
    obtain ⟨w', status, after, good, grows, run⟩ := pipeline w
    refine ⟨setStatus status w', status, after, good, grows, fun mem => ?_⟩
    simp only [runText, chain, run mem]
    rfl
  | some found =>
    obtain ⟨useAnd, split⟩ := found
    obtain ⟨w', status, middle, good, grows, run⟩ := lines.line proper w (text.take split)
    by_cases goOn : useAnd = decide (status = 0)
    · obtain ⟨line, again⟩ := reads useAnd split middle (setStatus status w') chain good grows
      obtain ⟨w'', status', after, fine, longer, rest⟩ := lines.line good (setStatus status w') line
      refine ⟨setStatus status' w'', status', after, fine, fun r => Nat.le_trans (grows r) (longer r), fun mem => ?_⟩
      have here := again mem
      have next := rest mem
      simp only [runText, chain, run mem, if_pos goOn, State.map]
      simp only [here, next]
    · refine ⟨setStatus status w', status, middle, good, grows, fun mem => ?_⟩
      simp only [runText, chain, run mem, if_neg goOn]
      rfl

theorem runStatement_settled (K : Kernel σ) (commands : List (ShellCommand σ)) (lines : LinesSettle exec) {s : Nat}
    (proper : Proper before) (filled : 0 < (before (.entry .statements s)).length) :
    Settled before (runStatement K commands exec s) := by
  intro w
  obtain ⟨text, inside, read⟩ := entryText_settled w proper filled
  have settled : Settled before (runText K commands exec text (entryText .statements s)) := by
    apply runText_settled K commands lines proper
    intro useAnd split middle w' chain good grows
    have bound := chainAt_bound chain
    have there : split + 2 < (middle (.entry .statements s)).length :=
      Nat.lt_of_lt_of_le (Nat.lt_of_le_of_lt (by omega) inside) (grows _)
    obtain ⟨line, -, again⟩ := entryText_settled w' good there
    exact ⟨line, again⟩
  obtain ⟨w', status, after, good, grows, run⟩ := settled w
  refine ⟨w', status, after, good, grows, fun mem => ?_⟩
  rw [runStatement, read mem]
  exact run mem

theorem runStatements_settled (K : Kernel σ) (commands : List (ShellCommand σ)) (lines : LinesSettle exec) (more : List Nat)
    (status : Int) (proper : Proper before) (filled : ∀ s ∈ more, 0 < (before (.entry .statements s)).length) :
    Settled before (runStatements K commands exec more status) := by
  induction more generalizing status before with
  | nil => exact fun w => ⟨w, status, before, proper, fun _ => Nat.le_refl _, fun _ => rfl⟩
  | cons s more ih =>
    intro w
    obtain ⟨w', status', middle, good, grows, run⟩ :=
      runStatement_settled K commands lines proper (filled s List.mem_cons_self) w
    have later : ∀ s ∈ more, 0 < (middle (.entry .statements s)).length := fun j member =>
      Nat.lt_of_lt_of_le (filled j (List.mem_cons_of_mem _ member)) (grows _)
    obtain ⟨w'', status'', after, fine, longer, rest⟩ := ih status' good later w'
    refine ⟨w'', status'', after, fine, fun r => Nat.le_trans (grows r) (longer r), fun mem => ?_⟩
    rw [runStatements, run mem]
    exact rest mem

theorem shellExecuteLine_settled (K : Kernel σ) (commands : List (ShellCommand σ)) (room : Nat) :
    LinesSettle (shellExecuteLine K commands room) := by
  induction room with
  | zero =>
    intro line w
    unfold shellExecuteLine
    split
    · exact ⟨w, w.sh.lastStatus, untouched, proper_untouched, fun _ => Nat.le_refl _, fun _ => rfl⟩
    · exact ⟨shellError K w (ascii "maximum command nesting depth exceeded"), 1, untouched, proper_untouched,
        fun _ => Nat.le_refl _, fun _ => rfl⟩
  | succ room ih =>
    intro line w
    unfold shellExecuteLine
    split
    · exact ⟨w, w.sh.lastStatus, untouched, proper_untouched, fun _ => Nat.le_refl _, fun _ => rfl⟩
    · have all : Settled untouched fun state => runStatements K commands (shellExecuteLine K commands room)
          (List.range (splitOn 59 (line.dropWhile isSpace)).length) w.sh.lastStatus
          { state with mem := apply (fillTable .statements (splitOn 59 (line.dropWhile isSpace))) state.mem } := by
        apply Settled.filled
        apply runStatements_settled K commands ih _ _ ((proper_fillTable .statements 59 _).overlay proper_untouched)
        exact fun s member => fillTable_filled (List.mem_range.mp member) untouched
      exact all w

end Statements

end Qito.Shells
