import Mathlib.Data.List.Perm.Basic
import Qito.Shells.Effects
import Qito.Shells.Handover

/-! What a call of run_pipeline leaves behind. Its buffers are accounted for along the run;
a stage that ends the pipeline early passes by what the last lines of the function release. -/
namespace Qito.Shells
open Rows

variable {σ : Type}

/-- No variable is readonly, and the one that hands data over exists once at most. -/
structure Orderly (sh : Shell) : Prop where
  writable : ∀ v ∈ sh.vars, v.readonly = false
  once : sh.vars.countP (fun v => v.name == pipeInput) ≤ 1

/-- The same sink, with more in it perhaps. -/
def Grown : Option Sink → Option Sink → Prop
  | none, none => True
  | some sink, some sink' => sink.buffer <+: sink'.buffer
  | _, _ => False

/-- The buffers of a call, each named by the stage that it was allocated for: those that
are allocated, and the one that pipe_buffer points to. -/
structure Held where
  live : List Nat
  pipe : Option Nat

/-- kfree(pipe_buffer) where there is one. -/
def freePipe (held : Held) : Held :=
  match held.pipe with
  | some k => ⟨held.live.erase k, none⟩
  | none => held

/-- The buffers after the round for stage k. -/
def holdStage (K : Kernel σ) (k : Nat) (text : Bytes) (piped : Bool) (flow : Flow σ) (held : Held) : Held :=
  match prepareStage K text flow.pipe flow.state with
  | (.failed, _) => held
  | (.empty, _) => held
  | (.ready _ redirect, state) =>
    if piped || redirect.isSome then
      if (K.kmalloc state.world.sys).1 then
        let held := freePipe { held with live := k :: held.live }
        if redirect.isSome then { held with live := held.live.erase k } else { held with pipe := some k }
      else freePipe held
    else freePipe held

section Run
variable (K : Kernel σ) (commands : List (ShellCommand σ)) (exec : Exec σ)

/-- The buffers before stage k. -/
def heldAt (text : Bytes) (state : State σ) : Nat → Held
  | 0 => ⟨[], none⟩
  | k + 1 =>
    let flow := flowAt K commands exec text state k
    if flow.stopped then heldAt text state k
    else holdStage K k (entryText .stages k 0 flow.state) (decide (k + 1 < (splitOn 124 text).length)) flow (heldAt text state k)

/-- The buffers when run_pipeline returns. -/
def heldAfter (text : Bytes) (state : State σ) : Held :=
  let count := (splitOn 124 text).length
  if (flowAt K commands exec text state count).stopped then heldAt K commands exec text state count
  else freePipe (heldAt K commands exec text state count)

/-- The sink of the entry, no variable, and no buffer. -/
structure Clean (before after : State σ) (held : Held) : Prop where
  sink : Grown before.world.sh.sink after.world.sh.sink
  unset : shellGetVar after.world.sh pipeInput = none
  freed : held.live = []

/-- The stage ends the pipeline while something is pending: the input cannot be opened
with a buffer or the variable there, or there is no buffer for the output with the variable set. -/
def Abandons (text : Bytes) (piped : Bool) (flow : Flow σ) : Prop :=
  match prepareStage K text flow.pipe flow.state with
  | (.failed, _) => flow.pipe ≠ none ∨ shellGetVar flow.state.world.sh pipeInput ≠ none
  | (.empty, _) => False
  | (.ready _ redirect, state) =>
    (piped || redirect.isSome) = true ∧ (K.kmalloc state.world.sys).1 = false ∧ shellGetVar state.world.sh pipeInput ≠ none

end Run

section Variables
variable {sh sh' : Shell} {front back : List ShellVar} {v : ShellVar} {name : Bytes}

theorem modify_middle (front : List ShellVar) (v : ShellVar) (back : List ShellVar) (f : ShellVar → ShellVar) :
    (front ++ v :: back).modify front.length f = front ++ f v :: back := by
  rw [List.modify_eq_take_drop, List.take_left, List.drop_left]
  rfl

theorem swapped_perm (front : List ShellVar) (v : ShellVar) (back : List ShellVar) :
    (((front ++ v :: back).modify front.length fun w => (front ++ v :: back).getLastD w).dropLast).Perm (front ++ back) := by
  rw [modify_middle]
  obtain rfl | ⟨back, last, rfl⟩ := List.eq_nil_or_concat back
  · rw [List.dropLast_concat, List.append_nil]
  · have same : (front ++ v :: back.concat last).getLastD v = last := by
      rw [List.concat_eq_append, ← List.cons_append, ← List.append_assoc, List.getLastD_concat]
    rw [same, List.concat_eq_append, ← List.cons_append, ← List.append_assoc, List.dropLast_concat]
    exact (List.perm_append_singleton last back).symm.append_left front

theorem findIdx_split {i : Nat} (found : (sh.vars.findIdx? fun v => v.name == name) = some i) :
    ∃ front v back, sh.vars = front ++ v :: back ∧ i = front.length ∧ v.name = name := by
  obtain ⟨inside, here, -⟩ := List.findIdx?_eq_some_iff_getElem.mp found
  refine ⟨sh.vars.take i, sh.vars[i], sh.vars.drop (i + 1), ?_, ?_, beq_iff_eq.mp here⟩
  · rw [← List.drop_eq_getElem_cons inside, List.take_append_drop]
  · rw [List.length_take, Nat.min_eq_left (Nat.le_of_lt inside)]

theorem shellUnsetVar_cases (sh : Shell) (name : Bytes) :
    shellUnsetVar sh name = sh ∧ ((∀ v ∈ sh.vars, v.name ≠ name) ∨ ∃ v ∈ sh.vars, v.readonly = true) ∨
      ∃ front v back, sh.vars = front ++ v :: back ∧ v.name = name ∧ (shellUnsetVar sh name).vars.Perm (front ++ back) := by
  unfold shellUnsetVar
  split
  · rename_i none_
    refine .inl ⟨rfl, .inl fun v member same => ?_⟩
    exact absurd (List.findIdx?_eq_none_iff.mp none_ v member) (by simp [same])
  · rename_i i found
    obtain ⟨front, v, back, split, rfl, named⟩ := findIdx_split found
    split
    · rename_i readonly
      refine .inl ⟨rfl, .inr ⟨v, split ▸ by simp, ?_⟩⟩
      simpa [split] using readonly
    · refine .inr ⟨front, v, back, split, named, ?_⟩
      dsimp only
      rw [split]
      exact swapped_perm front v back

theorem Orderly.unset (orderly : Orderly sh) (name : Bytes) : Orderly (shellUnsetVar sh name) := by
  rcases shellUnsetVar_cases sh name with ⟨same, -⟩ | ⟨front, v, back, split, -, perm⟩
  · rw [same]
    exact orderly
  · have sub : (front ++ back).Sublist sh.vars := by
      rw [split]
      exact (List.sublist_cons_self v back).append_left front
    constructor
    · intro w member
      exact orderly.writable w (sub.subset (perm.mem_iff.mp member))
    · rw [perm.countP_eq]
      exact Nat.le_trans (sub.countP_le) orderly.once

theorem Orderly.gone (orderly : Orderly sh) : shellGetVar (shellUnsetVar sh pipeInput) pipeInput = none := by
  unfold shellGetVar
  rw [Option.map_eq_none_iff, List.find?_eq_none]
  rcases shellUnsetVar_cases sh pipeInput with ⟨same, none_ | ⟨v, member, readonly⟩⟩ | ⟨front, v, back, split, named, perm⟩
  · rw [same]
    intro v member
    simpa using none_ v member
  · rw [orderly.writable v member] at readonly
    cases readonly
  · have once := orderly.once
    rw [split, List.countP_append, List.countP_cons, named, beq_self_eq_true, if_pos rfl] at once
    have left : (front ++ back).countP (fun v => v.name == pipeInput) = 0 := by
      rw [List.countP_append]
      omega
    intro w member
    exact List.countP_eq_zero.mp left w (perm.mem_iff.mp member)

theorem Orderly.set (orderly : Orderly sh) (plain : 0 ∉ name) (value : Bytes) : Orderly (shellSetVar sh name value) := by
  unfold shellSetVar
  split
  · rename_i i found
    obtain ⟨front, v, back, split, rfl, -⟩ := findIdx_split found
    have writable := orderly.writable
    have once := orderly.once
    rw [split] at writable once
    have here : v.readonly = false := writable v (by simp)
    constructor
    · dsimp only
      rw [split, modify_middle, here]
      intro w member
      simp only [Bool.false_eq_true, if_false, List.mem_append, List.mem_cons] at member
      rcases member with early | rfl | late
      · exact writable w (by simp [early])
      · rfl
      · exact writable w (by simp [late])
    · dsimp only
      rw [split, modify_middle, here]
      rw [List.countP_append, List.countP_cons] at once ⊢
      exact once
  · rename_i none_
    split
    · constructor
      · intro w member
        rcases List.mem_append.mp member with old | new
        · exact orderly.writable w old
        · rw [List.mem_singleton.mp new]
      · dsimp only
        rw [List.countP_append, List.countP_singleton]
        split
        · -- a name that is cut is longer than this one
          rename_i cut
          have same : name = pipeInput := by
            have lengths := congrArg List.length (beq_iff_eq.mp cut)
            rw [beq_iff_eq, strlcpy, cstr_plain plain] at cut
            rw [strlcpy, cstr_plain plain, List.length_take] at lengths
            have short : pipeInput.length = 15 := by decide
            have small : name.length ≤ shellNameMax - 1 := by
              rw [short] at lengths
              change min 31 name.length = 15 at lengths
              change name.length ≤ 31
              omega
            rwa [List.take_of_length_le small] at cut
          have absent : sh.vars.countP (fun v => v.name == pipeInput) = 0 := by
            rw [List.countP_eq_zero]
            intro v member
            rw [← same, List.findIdx?_eq_none_iff.mp none_ v member]
            exact Bool.false_ne_true
          omega
        · exact orderly.once
    · exact orderly

theorem Touched.orderly (touched : Touched sh sh') (orderly : Orderly sh) : Orderly sh' := by
  induction touched with
  | start => exact orderly
  | write _ _ _ _ ih => exact ⟨ih.writable, ih.once⟩
  | set value _ plain ih => exact ih.set plain value
  | unset name _ ih => exact ih.unset name
  | other _ vars _ ih => exact ⟨vars ▸ ih.writable, vars ▸ ih.once⟩

theorem grown_refl (sink : Option Sink) : Grown sink sink := by
  cases sink with
  | none => trivial
  | some sink => exact List.prefix_refl _

theorem Touched.grown (touched : Touched sh sh') : Grown sh.sink sh'.sink := by
  induction touched with
  | start => exact grown_refl _
  | @write sh' sink more truncated _ there ih =>
    rw [there] at ih
    revert ih
    cases sh.sink with
    | none => exact id
    | some first => exact fun before => before.trans (List.prefix_append _ _)
  | @set sh' name value _ _ ih =>
    have same : (shellSetVar sh' name value).sink = sh'.sink := by
      unfold shellSetVar
      split
      · rfl
      · split
        · rfl
        · rfl
    rw [same]
    exact ih
  | @unset sh' name _ ih =>
    have same : (shellUnsetVar sh' name).sink = sh'.sink := by
      unfold shellUnsetVar
      split
      · rfl
      · split
        · rfl
        · rfl
    rw [same]
    exact ih
  | other _ _ sink ih =>
    rw [sink]
    exact ih

end Variables

section Stages
variable {K : Kernel σ} {commands : List (ShellCommand σ)} {exec : Exec σ}

theorem shellWrite_vars (w : World σ) (text : Bytes) : (shellWrite K w text).sh.vars = w.sh.vars := by
  unfold shellWrite
  split
  · rfl
  · rfl

theorem shellPrintf_vars (w : World σ) (text : Bytes) : (shellPrintf K w text).sh.vars = w.sh.vars := by
  unfold shellPrintf
  split
  · rfl
  · exact shellWrite_vars w _

theorem shellColor_vars (w : World σ) (text : Bytes) : (shellColor K w text).sh.vars = w.sh.vars := by
  unfold shellColor
  split
  · exact shellWrite_vars w _
  · rfl

theorem shellError_vars (w : World σ) (message : Bytes) : (shellError K w message).sh.vars = w.sh.vars :=
  ((shellColor_vars _ _).trans (shellPrintf_vars _ _)).trans (shellColor_vars w _)

theorem shellGetVar_vars {sh sh' : Shell} (same : sh'.vars = sh.vars) (name : Bytes) : shellGetVar sh' name = shellGetVar sh name := by
  unfold shellGetVar
  rw [same]

theorem readInput_failed {raw : Bytes} {state after : State σ} (failed : readInput K raw state = (false, after)) :
    after.world.sh.vars = state.world.sh.vars := by
  have kept := shellScratch_sh (K := K) state.world
  unfold readInput at failed
  cases scratch : shellScratch K state.world with
  | mk there w =>
    rw [scratch] at kept failed
    simp only at kept failed
    rw [← kept]
    cases there with
    | false =>
      rw [← (Prod.mk.inj failed).2]
      exact shellError_vars w _
    | true =>
      cases read : K.readFile w.sys (K.resolvePath state.world.sh.cwd raw) with
      | mk text sys =>
        cases text with
        | none =>
          simp only [read, Bool.not_true, Bool.false_eq_true, if_false] at failed
          rw [← (Prod.mk.inj failed).2]
          exact shellError_vars { w with sys := sys } _
        | some text =>
          simp only [read, Bool.not_true, Bool.false_eq_true, if_false] at failed
          cases (Prod.mk.inj failed).1

theorem wordsOf_not_failed (pipe : Option Bytes) (redirect : Option (Bytes × Bool)) (text : Bytes) (state after : State σ) :
    wordsOf pipe redirect text state ≠ (.failed, after) := by
  intro failed
  have first := congrArg Prod.fst failed
  unfold wordsOf at first
  dsimp only at first
  split at first
  · cases first
  · cases first

theorem prepareStage_failed {segment : Bytes} {pipe : Option Bytes} {state after : State σ}
    (failed : prepareStage K segment pipe state = (.failed, after)) : after.world.sh.vars = state.world.sh.vars := by
  unfold prepareStage at failed
  dsimp only at failed
  split at failed
  · exact absurd failed (wordsOf_not_failed _ _ _ _ _)
  · split at failed
    · rename_i missing
      rw [← (Prod.mk.inj failed).2]
      exact readInput_failed missing
    · exact absurd failed (wordsOf_not_failed _ _ _ _ _)

/-- While the loop goes on, the buffer of the stage before is the only one. -/
structure Accounted (flow : Flow σ) (held : Held) : Prop where
  live : held.live = held.pipe.toList
  pipe : held.pipe.isSome = flow.pipe.isSome

theorem freePipe_clear {held : Held} (live : held.live = held.pipe.toList) : freePipe held = ⟨[], none⟩ := by
  obtain ⟨live_, pipe⟩ := held
  obtain rfl : live_ = pipe.toList := live
  cases pipe with
  | none => rfl
  | some k => simp [freePipe]

theorem freePipe_keeps {held : Held} (live : held.live = held.pipe.toList) (k : Nat) :
    freePipe { held with live := k :: held.live } = ⟨[k], none⟩ := by
  obtain ⟨live_, pipe⟩ := held
  obtain rfl : live_ = pipe.toList := live
  cases pipe with
  | none => rfl
  | some j =>
    by_cases same : k = j
    · subst same
      simp [freePipe]
    · simp [freePipe, same]

theorem deliver_pipe (redirect : Option (Bytes × Bool)) (output : Bytes) (ran : State σ × Int) :
    (deliver K redirect output ran).2.2 = if redirect.isSome then none else some output := by
  unfold deliver
  split
  · rfl
  · split
    · rfl
    · rfl

/-- A round goes on with its buffers accounted for, or it ends the pipeline, and then all
is released just where the stage does not abandon anything. -/
theorem stage_accounted {k : Nat} {text : Bytes} {piped : Bool} {flow : Flow σ} {held : Held} (going : flow.stopped = false)
    (accounted : Accounted flow held) :
    (runStage K commands exec text piped flow).stopped = false ∧ ¬ Abandons K text piped flow ∧
        Accounted (runStage K commands exec text piped flow) (holdStage K k text piped flow held) ∨
      (runStage K commands exec text piped flow).stopped = true ∧
        (¬ Abandons K text piped flow ↔ (holdStage K k text piped flow held).live = [] ∧
          shellGetVar (runStage K commands exec text piped flow).state.world.sh pipeInput = none) := by
  cases prepared : prepareStage K text flow.pipe flow.state with
  | mk stage state =>
    unfold runStage holdStage Abandons
    rw [prepared]
    cases stage with
    | failed =>
      right
      refine ⟨rfl, ?_⟩
      simp only
      rw [shellGetVar_vars (prepareStage_failed prepared), accounted.live, not_or, not_not, not_not]
      have none_ : flow.pipe = none ↔ held.pipe.toList = [] := by
        rw [← Option.isNone_iff_eq_none, ← Option.not_isSome, ← accounted.pipe]
        cases held.pipe with
        | none => simp
        | some k => simp
      rw [none_]
    | empty => exact .inl ⟨going, not_false, accounted.live, accounted.pipe⟩
    | ready argv redirect =>
      simp only
      by_cases capture : (piped || redirect.isSome) = true
      · rw [if_pos capture, if_pos capture]
        cases memory : (K.kmalloc state.world.sys).1 with
        | true =>
          left
          rw [if_pos rfl, if_pos rfl]
          refine ⟨rfl, fun both => Bool.false_ne_true both.2.1.symm, ?_⟩
          rw [freePipe_keeps accounted.live]
          constructor
          · cases redirect with
            | none => rfl
            | some target => simp
          · dsimp only
            rw [deliver_pipe]
            cases redirect with
            | none => rfl
            | some target => rfl
        | false =>
          right
          rw [if_neg Bool.false_ne_true, if_neg Bool.false_ne_true]
          refine ⟨rfl, ?_⟩
          rw [freePipe_clear accounted.live]
          have same := shellGetVar_vars (shellError_vars (K := K) { state.world with sys := (K.kmalloc state.world.sys).2 }
            (ascii "out of memory setting up the pipeline")) pipeInput
          simp only [capture, true_and, not_not]
          exact same ▸ Iff.rfl
      · left
        rw [if_neg capture, if_neg capture]
        refine ⟨rfl, fun both => capture both.1, ?_⟩
        rw [freePipe_clear accounted.live]
        exact ⟨rfl, rfl⟩

end Stages

section Pipelines
variable {K : Kernel σ} {commands : List (ShellCommand σ)} {exec : Exec σ} {text : Bytes} {state : State σ}

/-- No stage of the first k abandons anything. -/
def Tidy (K : Kernel σ) (commands : List (ShellCommand σ)) (exec : Exec σ) (text : Bytes) (state : State σ) (k : Nat) : Prop :=
  ∀ j < k, (flowAt K commands exec text state j).stopped = false →
    ¬ Abandons K (entryText .stages j 0 (flowAt K commands exec text state j).state) (decide (j + 1 < (splitOn 124 text).length))
      (flowAt K commands exec text state j)

theorem flowAt_succ (k : Nat) : flowAt K commands exec text state (k + 1) =
    if (flowAt K commands exec text state k).stopped then flowAt K commands exec text state k
    else runStage K commands exec (entryText .stages k 0 (flowAt K commands exec text state k).state)
      (decide (k + 1 < (splitOn 124 text).length)) (flowAt K commands exec text state k) := by
  rw [flowAt, List.range_succ, runStages_append, ← flowAt, runStages]
  rfl

theorem pipeline_accounted (k : Nat) :
    ((flowAt K commands exec text state k).stopped = false →
      Accounted (flowAt K commands exec text state k) (heldAt K commands exec text state k) ∧ Tidy K commands exec text state k) ∧
    ((flowAt K commands exec text state k).stopped = true →
      (Tidy K commands exec text state k ↔ (heldAt K commands exec text state k).live = [] ∧
        shellGetVar (flowAt K commands exec text state k).state.world.sh pipeInput = none)) := by
  induction k with
  | zero => exact ⟨fun _ => ⟨⟨rfl, rfl⟩, nofun⟩, nofun⟩
  | succ k ih =>
    have tidy_succ : Tidy K commands exec text state (k + 1) ↔ Tidy K commands exec text state k ∧
        ((flowAt K commands exec text state k).stopped = false →
          ¬ Abandons K (entryText .stages k 0 (flowAt K commands exec text state k).state)
            (decide (k + 1 < (splitOn 124 text).length)) (flowAt K commands exec text state k)) := by
      unfold Tidy
      rw [Nat.forall_lt_succ_right]
    rw [tidy_succ, flowAt_succ, heldAt]
    cases stopped : (flowAt K commands exec text state k).stopped with
    | true =>
      rw [if_pos rfl, if_pos rfl]
      refine ⟨fun going => absurd (stopped.symm.trans going) (by decide), fun _ => ?_⟩
      rw [← ih.2 stopped]
      exact and_iff_left nofun
    | false =>
      rw [if_neg Bool.false_ne_true, if_neg Bool.false_ne_true]
      obtain ⟨accounted, tidy⟩ := ih.1 stopped
      rcases stage_accounted (K := K) (k := k) stopped accounted with
        ⟨going, kept, next⟩ | ⟨left, released⟩
      · exact ⟨fun _ => ⟨next, tidy, fun _ => kept⟩, fun ends => absurd (going.symm.trans ends) (by decide)⟩
      · refine ⟨fun goes => absurd (left.symm.trans goes) (by decide), fun _ => ?_⟩
        rw [← released]
        exact ⟨fun both => both.2 rfl, fun kept => ⟨tidy, fun _ => kept⟩⟩

end Pipelines

/-- run_pipeline returns with its sink, its buffers and the variable released just where no
stage leaves early with one of them pending. -/
theorem pipelines_clean_iff (K : Kernel σ) (commands : List (ShellCommand σ)) (room : Nat) (text : Bytes) (state : State σ)
    (tame : CommandsTouch commands) (orderly : Orderly state.world.sh) :
    Clean state (runPipeline K commands (shellExecuteLine K commands room) text state).1
        (heldAfter K commands (shellExecuteLine K commands room) text state) ↔
      Tidy K commands (shellExecuteLine K commands room) text state (splitOn 124 text).length := by
  have lines := shellExecuteLine_touches K tame room
  have touched := runPipeline_touches (K := K) tame lines text state
  have ended : runPipeline K commands (shellExecuteLine K commands room) text state =
      endPipeline (flowAt K commands (shellExecuteLine K commands room) text state (splitOn 124 text).length) := rfl
  have held : heldAfter K commands (shellExecuteLine K commands room) text state =
      if (flowAt K commands (shellExecuteLine K commands room) text state (splitOn 124 text).length).stopped then
        heldAt K commands (shellExecuteLine K commands room) text state (splitOn 124 text).length
      else freePipe (heldAt K commands (shellExecuteLine K commands room) text state (splitOn 124 text).length) := rfl
  obtain ⟨goes, stops⟩ := pipeline_accounted (K := K) (splitOn 124 text).length
  have inside : Touched state.world.sh (flowAt K commands (shellExecuteLine K commands room) text state
      (splitOn 124 text).length).state.world.sh :=
    runStages_touches tame lines _ _ ⟨{ state with mem := apply (fillTable .stages (splitOn 124 text)) state.mem }, 0, none, false⟩
  rw [ended] at touched ⊢
  rw [held]
  generalize flowAt K commands (shellExecuteLine K commands room) text state (splitOn 124 text).length = flow
    at touched goes stops inside ⊢
  unfold endPipeline at touched ⊢
  cases stopped : flow.stopped with
  | true =>
    rw [stopped] at touched
    simp only [if_true] at touched ⊢
    rw [stops stopped]
    exact ⟨fun clean => ⟨clean.freed, clean.unset⟩, fun both => ⟨touched.grown, both.2, both.1⟩⟩
  | false =>
    rw [stopped] at touched
    simp only [Bool.false_eq_true, if_false] at touched ⊢
    obtain ⟨accounted, tidy⟩ := goes stopped
    refine iff_of_true ⟨touched.grown, (inside.orderly orderly).gone, ?_⟩ tidy
    rw [freePipe_clear accounted.live]

section Samples

theorem echoAndRepeat_touch : CommandsTouch echoAndRepeat := by
  intro command member run handler argv w
  simp only [echoAndRepeat, List.mem_cons, List.not_mem_nil, or_false] at member
  rcases member with rfl | rfl
  · cases handler
    exact cmdEcho_touches argv w
  · cases handler
    exact cmdRepeat_touches argv w

theorem pipelines_clean_echo :
    Clean freshState (runPipeline console echoAndRepeat (shellExecuteLine console echoAndRepeat 8) (ascii "echo a | echo b") freshState).1
        (heldAfter console echoAndRepeat (shellExecuteLine console echoAndRepeat 8) (ascii "echo a | echo b") freshState) ↔
      Tidy console echoAndRepeat (shellExecuteLine console echoAndRepeat 8) (ascii "echo a | echo b") freshState
        (splitOn 124 (ascii "echo a | echo b")).length :=
  pipelines_clean_iff console echoAndRepeat 8 (ascii "echo a | echo b") freshState echoAndRepeat_touch ⟨nofun, by decide⟩

/-- The input of the second stage is missing, and the output of the first one stays allocated. -/
theorem missing_input_keeps_buffer :
    ¬ ∀ (text : Bytes) (state : State Bytes), Orderly state.world.sh →
      Clean state (runPipeline console echoAndRepeat (shellExecuteLine console echoAndRepeat 8) text state).1
        (heldAfter console echoAndRepeat (shellExecuteLine console echoAndRepeat 8) text state) := by
  intro all
  have freed := (all (ascii "echo a | echo < f") freshState ⟨nofun, by decide⟩).freed
  revert freed
  decide

end Samples

end Qito.Shells
