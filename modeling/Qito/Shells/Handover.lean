import Qito.Shells.Sequencing

/-! What one stage of a pipeline writes is what the next one reads exactly when the
variable that hands it over can take it. -/
namespace Qito.Shells
open Rows

variable {σ : Type}

section Capture

/-- A command writes texts, and does other things that leave the sink alone. -/
inductive Wrote (K : Kernel σ) (w : World σ) : List Bytes → World σ → Prop
  | start : Wrote K w [] w
  | write {texts : List Bytes} {w' : World σ} (text : Bytes) : Wrote K w texts w' → Wrote K w (texts ++ [text]) (shellWrite K w' text)
  | other {texts : List Bytes} {w' w'' : World σ} : Wrote K w texts w' → w''.sh.sink = w'.sh.sink → Wrote K w texts w''

variable {K : Kernel σ} {w w' : World σ} {texts : List Bytes}

theorem Wrote.sink (wrote : Wrote K w texts w') (fresh : w.sh.sink = some ⟨[], false⟩) :
    ∃ truncated, w'.sh.sink = some ⟨texts.flatten.take (pipeBufferSize - 1), truncated⟩ := by
  induction wrote with
  | start => exact ⟨false, fresh⟩
  | other _ same ih =>
    obtain ⟨truncated, sink⟩ := ih
    exact ⟨truncated, same.trans sink⟩
  | @write texts w' text _ ih =>
    obtain ⟨truncated, sink⟩ := ih
    refine ⟨truncated || decide (pipeBufferSize - (texts.flatten.take (pipeBufferSize - 1)).length - 1 < text.length), ?_⟩
    have room : pipeBufferSize - (texts.flatten.take (pipeBufferSize - 1)).length - 1 =
        pipeBufferSize - 1 - (texts.flatten.take (pipeBufferSize - 1)).length := by omega
    have whole : texts.flatten.take (pipeBufferSize - 1) ++
        text.take (pipeBufferSize - 1 - (texts.flatten.take (pipeBufferSize - 1)).length) =
        (texts ++ [text]).flatten.take (pipeBufferSize - 1) := by
      rw [List.flatten_append, List.flatten_singleton, List.take_append, List.length_take]
      by_cases full : pipeBufferSize - 1 ≤ texts.flatten.length
      · rw [Nat.min_eq_left full, Nat.sub_self, Nat.sub_eq_zero_of_le full]
      · rw [Nat.min_eq_right (Nat.le_of_not_le full)]
    simp only [shellWrite, sink]
    rw [room, whole]

end Capture

section Variable

/-- The variable exists and can be set, or there is room for one more, and the text fits. -/
def Receives (sh : Shell) (text : Bytes) : Prop :=
  match sh.vars.find? fun v => v.name == pipeInput with
  | some v => if v.readonly then v.value = text else text.length < shellValueMax
  | none => sh.vars.length < shellVarsMax ∧ text.length < shellValueMax

variable {α : Type} {p : α → Bool} {f : α → α} {l : List α} {i : Nat}

theorem find_modify (found : l.findIdx? p = some i) (same : ∀ a, p (f a) = p a) : (l.modify i f).find? p = (l.find? p).map f := by
  induction l generalizing i with
  | nil => cases found
  | cons a rest ih =>
    rw [List.findIdx?_cons] at found
    split at found
    · rename_i here
      cases found
      simp [same, here]
    · rename_i other
      obtain ⟨j, later, rfl⟩ := Option.map_eq_some_iff.mp found
      rw [List.modify_succ_cons, List.find?_cons, List.find?_cons]
      simp only [other]
      exact ih later

theorem findIdx_find (found : l.findIdx? p = some i) : (l.find? p).isSome = true := by
  rw [List.find?_isSome]
  obtain ⟨here, holds, -⟩ := List.findIdx?_eq_some_iff_getElem.mp found
  exact ⟨l[i], List.getElem_mem here, holds⟩

variable {sh : Shell} {text : Bytes}

theorem strlcpy_eq (clean : 0 ∉ text) : strlcpy text shellValueMax = text ↔ text.length < shellValueMax := by
  have whole : cstr text = text := by
    apply List.takeWhile_eq_self_iff.mpr
    intro c member
    apply bne_iff_ne.mpr
    rintro rfl
    exact clean member
  rw [strlcpy, whole]
  constructor
  · intro same
    have length := congrArg List.length same
    rw [List.length_take] at length
    change min 255 text.length = text.length at length
    change text.length < 256
    omega
  · intro short
    exact List.take_of_length_le (Nat.le_sub_one_of_lt short)

theorem find_set (text : Bytes) : ((shellSetVar sh pipeInput text).vars.find? fun v => v.name == pipeInput) =
    match sh.vars.find? fun v => v.name == pipeInput with
    | some v => some (if v.readonly then v else { v with value := strlcpy text shellValueMax })
    | none =>
      if sh.vars.length < shellVarsMax then some ⟨strlcpy pipeInput shellNameMax, strlcpy text shellValueMax, false⟩
      else none := by
  unfold shellSetVar
  cases found : sh.vars.findIdx? fun v => v.name == pipeInput with
  | some i =>
    obtain ⟨v, there⟩ := Option.isSome_iff_exists.mp (findIdx_find found)
    rw [find_modify found, there]
    · rfl
    · intro v
      cases v.readonly with
      | true => rfl
      | false => rfl
  | none =>
    have nowhere : (sh.vars.find? fun v => v.name == pipeInput) = none := by
      rw [List.find?_eq_none]
      intro v member
      rw [List.findIdx?_eq_none_iff.mp found v member]
      exact Bool.false_ne_true
    rw [nowhere]
    by_cases room : sh.vars.length < shellVarsMax
    · have name : (strlcpy pipeInput shellNameMax == pipeInput) = true := by decide
      simp only [if_pos room]
      rw [List.find?_append, nowhere, Option.none_or, List.find?_cons, name]
    · simp only [if_neg room]
      exact nowhere

theorem shellGetVar_set (clean : 0 ∉ text) :
    shellGetVar (shellSetVar sh pipeInput text) pipeInput = some text ↔ Receives sh text := by
  unfold shellGetVar Receives
  rw [find_set]
  cases sh.vars.find? fun v => v.name == pipeInput with
  | some v =>
    cases readonly : v.readonly with
    | true => simp [readonly]
    | false => simp [readonly, strlcpy_eq clean]
  | none =>
    by_cases room : sh.vars.length < shellVarsMax
    · simp [room, strlcpy_eq clean]
    · simp [room]

theorem receives_set (other : Bytes) : Receives (shellSetVar sh pipeInput other) text ↔ Receives sh text := by
  unfold Receives
  rw [find_set]
  cases found : sh.vars.find? fun v => v.name == pipeInput with
  | some v =>
    cases readonly : v.readonly with
    | true => simp [readonly]
    | false => simp [readonly]
  | none =>
    have nowhere : (sh.vars.findIdx? fun v => v.name == pipeInput) = none := by
      rw [List.findIdx?_eq_none_iff]
      intro v member
      exact Bool.eq_false_iff.mpr (List.find?_eq_none.mp found v member)
    by_cases room : sh.vars.length < shellVarsMax
    · simp [room]
    · simp [room, shellSetVar, nowhere]

end Variable

section Stages
variable (K : Kernel σ) (commands : List (ShellCommand σ)) (exec : Exec σ)

/-- A pipeline before its stage k. -/
def flowAt (text : Bytes) (state : State σ) (k : Nat) : Flow σ :=
  runStages K commands exec (splitOn 124 text).length (List.range k)
    ⟨{ state with mem := apply (fillTable .stages (splitOn 124 text)) state.mem }, 0, none, false⟩

/-- What the first half of the round for stage k comes to. -/
def preparedAt (text : Bytes) (state : State σ) (k : Nat) : Stage × State σ :=
  let flow := flowAt K commands exec text state k
  prepareStage K (entryText .stages k 0 flow.state) flow.pipe flow.state

/-- Where a command starts whose output is captured. -/
def capturing (w : World σ) : World σ := setSink (some ⟨[], false⟩) { w with sys := (K.kmalloc w.sys).2 }

variable {K commands exec}

theorem runStages_append (count : Nat) (front back : List Nat) (flow : Flow σ) :
    runStages K commands exec count (front ++ back) flow =
      runStages K commands exec count back (runStages K commands exec count front flow) := by
  induction front generalizing flow with
  | nil => rfl
  | cons k more ih =>
    rw [List.cons_append, runStages, runStages]
    cases stopped : flow.stopped with
    | false => exact ih _
    | true =>
      cases back with
      | nil => rfl
      | cons j rest => simp [runStages, stopped]

theorem flowAt_captured {text : Bytes} {state started : State σ} {k : Nat} {argv : List Bytes} {texts : List Bytes}
    (inside : k + 1 < (splitOn 124 text).length) (going : (flowAt K commands exec text state k).stopped = false)
    (ready : preparedAt K commands exec text state k = (.ready argv none, started))
    (memory : (K.kmalloc started.world.sys).1 = true)
    (wrote : Wrote K (capturing K started.world) texts
      (runSimple K commands exec argv (started.map (capturing K))).1.world)
    (short : texts.flatten.length < pipeBufferSize) :
    (flowAt K commands exec text state (k + 1)).pipe = some texts.flatten := by
  obtain ⟨truncated, sink⟩ := wrote.sink rfl
  rw [List.take_of_length_le (Nat.le_sub_one_of_lt short)] at sink
  unfold preparedAt at ready
  have captured : (true || (none : Option (Bytes × Bool)).isSome) = true := rfl
  rw [flowAt, List.range_succ, runStages_append, ← flowAt, runStages, runStages]
  simp only [going, Bool.false_eq_true, if_false, inside, decide_true]
  unfold runStage
  rw [ready]
  simp only [captured, memory, if_true]
  unfold capturing at sink
  simp only [State.map] at sink ⊢
  rw [sink]
  rfl

theorem prepareStage_set {segment out : Bytes} {state started : State σ} {argv : List Bytes} {redirect : Option (Bytes × Bool)}
    (ready : prepareStage K segment (some out) state = (.ready argv redirect, started)) :
    ∃ sh, started.world.sh = shellSetVar sh pipeInput out ∧
      (sh = state.world.sh ∨ ∃ other, sh = shellSetVar state.world.sh pipeInput other) := by
  have words (redirect' : Option (Bytes × Bool)) (text : Bytes) (state' : State σ)
      (ready : wordsOf (some out) redirect' text state' = (.ready argv redirect, started)) :
      started.world.sh = shellSetVar state'.world.sh pipeInput out := by
    unfold wordsOf at ready
    rw [← (Prod.mk.inj ready).2]
    rfl
  unfold prepareStage at ready
  simp only at ready
  split at ready
  · exact ⟨_, words _ _ _ ready, .inl rfl⟩
  · split at ready
    · cases ready
    · rename_i opened
      refine ⟨_, words _ _ _ ready, .inr ?_⟩
      unfold readInput at opened
      have keeps : (shellScratch K state.world).2.sh = state.world.sh := by
        unfold shellScratch
        split
        · rfl
        · rfl
      simp only at opened
      split at opened
      · cases opened
      · split at opened
        · cases opened
        · rename_i content sys _
          rw [← (Prod.mk.inj opened).2, ← keeps]
          exact ⟨content.take (shellScratchSize - 1), rfl⟩

/-- In every pipeline a stage reads what the stage before it has written exactly when the variable can take it. -/
theorem stage_reads_what_was_written (K : Kernel σ) (commands : List (ShellCommand σ)) (exec : Exec σ) (text : Bytes)
    (state : State σ) (k : Nat) (inside : k + 1 < (splitOn 124 text).length)
    (going : (flowAt K commands exec text state k).stopped = false) (argv : List Bytes) (started : State σ)
    (ready : preparedAt K commands exec text state k = (.ready argv none, started))
    (memory : (K.kmalloc started.world.sys).1 = true) (texts : List Bytes)
    (wrote : Wrote K (capturing K started.world) texts (runSimple K commands exec argv (started.map (capturing K))).1.world)
    (clean : 0 ∉ texts.flatten) (short : texts.flatten.length < pipeBufferSize)
    (argv' : List Bytes) (redirect : Option (Bytes × Bool)) (next : State σ)
    (ready' : preparedAt K commands exec text state (k + 1) = (.ready argv' redirect, next)) :
    shellGetVar next.world.sh pipeInput = some texts.flatten ↔
      Receives (flowAt K commands exec text state (k + 1)).state.world.sh texts.flatten := by
  have piped := flowAt_captured inside going ready memory wrote short
  unfold preparedAt at ready'
  simp only [piped] at ready'
  obtain ⟨sh, set, same | ⟨other, same⟩⟩ := prepareStage_set ready'
  · rw [set, shellGetVar_set clean, same]
  · rw [set, shellGetVar_set clean, same, receives_set]

end Stages

section Samples

/-- All variables are in use. -/
def crowdedState : State Bytes :=
  ⟨⟨{ freshShell with vars := (List.range 64).map fun i => ⟨[120, UInt8.ofNat (i + 48)], [], false⟩ }, [], false⟩, noBuffers⟩

def echoInto (text : Bytes) : Bytes := ascii "echo " ++ text ++ ascii " | echo b"

/-- The second stage finds nothing where the table of variables is full. -/
theorem output_is_lost :
    (flowAt console echoAndRepeat (shellExecuteLine console echoAndRepeat 8) (echoInto [97]) crowdedState 1).pipe = some [97, 10] ∧
      shellGetVar (preparedAt console echoAndRepeat (shellExecuteLine console echoAndRepeat 8) (echoInto [97])
        crowdedState 1).2.world.sh pipeInput ≠ some [97, 10] := by
  constructor
  · decide
  · decide

theorem echo_is_read :
    shellGetVar (preparedAt console echoAndRepeat (shellExecuteLine console echoAndRepeat 8) (echoInto [97])
        freshState 1).2.world.sh pipeInput = some [97, 10] := by
  have receives : Receives (flowAt console echoAndRepeat (shellExecuteLine console echoAndRepeat 8) (echoInto [97])
      freshState 1).state.world.sh [97, 10] := by
    have room : (flowAt console echoAndRepeat (shellExecuteLine console echoAndRepeat 8) (echoInto [97])
      freshState 1).state.world.sh.vars = [] := by decide
    simp only [Receives, room, List.find?_nil]
    decide
  exact (stage_reads_what_was_written console echoAndRepeat (shellExecuteLine console echoAndRepeat 8) (echoInto [97]) freshState 0
    (by decide) rfl [ascii "echo", [97]]
    (preparedAt console echoAndRepeat (shellExecuteLine console echoAndRepeat 8) (echoInto [97]) freshState 0).2
    (Prod.ext (by decide) rfl) rfl [[97], [10]]
    (.other (.write [10] (.write [97] .start)) (by decide)) (by decide) (by decide)
    [ascii "echo", ascii "b"] none
    (preparedAt console echoAndRepeat (shellExecuteLine console echoAndRepeat 8) (echoInto [97]) freshState 1).2
    (Prod.ext (by decide) rfl)).mpr receives

end Samples

end Qito.Shells
