import Qito.Shells.Leftovers

/-! How a line falls into parts, and that blanks before a statement change nothing
as long as its expansion has room for them. -/
namespace Qito.Shells
open Rows

variable {σ : Type}

/-- The quote that is open after a text, as split_on keeps it. -/
def quoteAfter : Option UInt8 → Bytes → Option UInt8
  | q, [] => q
  | some q, c :: rest => quoteAfter (if c = q then none else some q) rest
  | none, c :: rest => quoteAfter (if c = 34 ∨ c = 39 then some c else none) rest

def Blank (text : Bytes) : Prop := ∀ c ∈ text, isSpace c = true

section Parts
variable {separator : UInt8} {q : Option UInt8} {part front text : Bytes}

theorem isSpace_plain {c : UInt8} (blank : isSpace c = true) :
    c ≠ 34 ∧ c ≠ 39 ∧ c ≠ 36 ∧ c ≠ 38 ∧ c ≠ 59 ∧ c ≠ 60 ∧ c ≠ 62 ∧ c ≠ 92 ∧ c ≠ 124 ∧ c ≠ 126 := by
  refine ⟨?_, ?_, ?_, ?_, ?_, ?_, ?_, ?_, ?_, ?_⟩ <;> (rintro rfl; revert blank; decide)

theorem partsFrom_front : partsFrom separator q (front ++ part) text =
    (partsFrom separator q part text).modifyHead (front ++ ·) := by
  induction text generalizing q part with
  | nil => simp [partsFrom]
  | cons c rest ih =>
    cases q with
    | some q =>
      simp only [partsFrom, List.append_assoc]
      exact ih
    | none =>
      simp only [partsFrom]
      split
      · rw [List.append_assoc]
        exact ih
      · split
        · rfl
        · rw [List.append_assoc]
          exact ih

theorem partsFrom_split (closed : quoteAfter q front = none) (plain : separator ≠ 34 ∧ separator ≠ 39) :
    partsFrom separator q part (front ++ separator :: text) = partsFrom separator q part front ++ parts separator text := by
  induction front generalizing q part with
  | nil =>
    cases closed
    simp [partsFrom, plain.1, plain.2, parts]
  | cons c rest ih =>
    cases q with
    | some q =>
      simp only [List.cons_append, partsFrom]
      exact ih closed
    | none =>
      simp only [List.cons_append, partsFrom]
      simp only [quoteAfter] at closed
      split
      · rename_i quote
        rw [if_pos quote] at closed
        exact ih closed
      · rename_i quote
        rw [if_neg quote] at closed
        split
        · rw [ih closed, List.cons_append]
        · exact ih closed

theorem parts_blank (blank : Blank front) (plain : isSpace separator = false) :
    parts separator (front ++ text) = (parts separator text).modifyHead (front ++ ·) := by
  have run (part : Bytes) : partsFrom separator none part (front ++ text) = partsFrom separator none (part ++ front) text := by
    induction front generalizing part with
    | nil => simp
    | cons c rest ih =>
      obtain ⟨here, later⟩ := List.forall_mem_cons.mp blank
      obtain ⟨double, single, -⟩ := isSpace_plain here
      have other : c ≠ separator := by
        rintro rfl
        rw [here] at plain
        cases plain
      rw [List.cons_append, partsFrom, if_neg (by simp [double, single]), if_neg other, ih later, List.append_assoc]
      rfl
  have whole := run []
  rw [List.nil_append] at whole
  rw [parts, whole, ← List.append_nil front, partsFrom_front, List.append_nil]
  rfl

theorem partsFrom_length : ∀ p ∈ partsFrom separator q part text, p.length ≤ part.length + text.length := by
  induction text generalizing q part with
  | nil => simp [partsFrom]
  | cons c rest ih =>
    intro p member
    have step (q : Option UInt8) (there : p ∈ partsFrom separator q (part ++ [c]) rest) :
        p.length ≤ part.length + (c :: rest).length := by
      have bound := ih p there
      rw [List.length_append, List.length_singleton] at bound
      rw [List.length_cons]
      omega
    cases q with
    | some q => exact step _ member
    | none =>
      simp only [partsFrom] at member
      split at member
      · exact step _ member
      · split at member
        · rcases List.mem_cons.mp member with rfl | later
          · exact Nat.le_add_right _ _
          · have bound := ih p later
            rw [List.length_nil] at bound
            rw [List.length_cons]
            omega
        · exact step _ member

theorem partsFrom_mem {c : UInt8} : ∀ p ∈ partsFrom separator q part text, c ∈ p → c ∈ part ∨ c ∈ text := by
  induction text generalizing q part with
  | nil => simp [partsFrom]
  | cons d rest ih =>
    intro p member inside
    have step (q : Option UInt8) (there : p ∈ partsFrom separator q (part ++ [d]) rest) : c ∈ part ∨ c ∈ d :: rest := by
      rcases ih p there inside with old | later
      · rcases List.mem_append.mp old with earlier | new
        · exact .inl earlier
        · exact .inr (List.mem_cons.mpr (.inl (List.mem_singleton.mp new)))
      · exact .inr (List.mem_cons_of_mem _ later)
    cases q with
    | some q => exact step _ member
    | none =>
      simp only [partsFrom] at member
      split at member
      · exact step _ member
      · split at member
        · rcases List.mem_cons.mp member with rfl | later
          · exact .inl inside
          · rcases ih p later inside with impossible | there
            · cases impossible
            · exact .inr (List.mem_cons_of_mem _ there)
        · exact step _ member

theorem partsFrom_ne_nil : partsFrom separator q part text ≠ [] := by
  induction text generalizing q part with
  | nil => simp [partsFrom]
  | cons c rest ih =>
    cases q with
    | some q => exact ih
    | none =>
      simp only [partsFrom]
      split
      · exact ih
      · split
        · exact List.cons_ne_nil _ _
        · exact ih

end Parts

section Shifts
variable {front text needle : Bytes}

theorem strstr_blank (blank : Blank front) (solid : ∀ c ∈ needle.head?, isSpace c = false) (filled : needle ≠ []) :
    strstr needle (front ++ text) = (strstr needle text).map (· + front.length) := by
  induction front with
  | nil => simp
  | cons c rest ih =>
    obtain ⟨here, later⟩ := List.forall_mem_cons.mp blank
    cases needle with
    | nil => exact absurd rfl filled
    | cons d more =>
      have other : (d == c) = false := by
        rw [beq_eq_false_iff_ne]
        rintro rfl
        rw [solid d rfl] at here
        cases here
      simp only [List.cons_append, strstr, List.isPrefixOf, other, Bool.false_and, Bool.false_eq_true, if_false]
      rw [ih later, Option.map_map, List.length_cons]
      rfl

theorem chainAt_blank (blank : Blank front) :
    chainAt (front ++ text) = (chainAt text).map fun found => (found.1, found.2 + front.length) := by
  unfold chainAt
  rw [strstr_blank blank (by simp [isSpace]) (by decide), strstr_blank blank (by simp [isSpace]) (by decide)]
  cases strstr [38, 38] text with
  | none => cases strstr [124, 124] text <;> rfl
  | some i =>
    cases strstr [124, 124] text with
    | none => rfl
    | some j =>
      simp only [Option.map_some, Nat.add_lt_add_iff_right]
      split <;> rfl

theorem findIdx_blank (blank : Blank front) {d : UInt8} (solid : isSpace d = false) :
    (front ++ text).findIdx? (· == d) = (text.findIdx? (· == d)).map (· + front.length) := by
  have nowhere : front.findIdx? (· == d) = none := by
    rw [List.findIdx?_eq_none_iff]
    intro c member
    rw [beq_eq_false_iff_ne]
    rintro rfl
    rw [blank c member] at solid
    cases solid
  rw [List.findIdx?_append, nowhere, Option.none_or]

theorem arrowAt_blank (blank : Blank front) :
    arrowAt (front ++ text) = (arrowAt text).map fun arrow => (arrow.1 + front.length, arrow.2) := by
  unfold arrowAt
  rw [strstr_blank blank (by simp [isSpace]) (by decide), findIdx_blank blank (by simp [isSpace])]
  cases strstr [62, 62] text with
  | some i => rfl
  | none => cases text.findIdx? (· == 62) <;> rfl

theorem drop_shift (i n : Nat) : (front ++ text).drop (i + front.length + n) = text.drop (i + n) := by
  rw [show i + front.length + n = front.length + (i + n) by omega, List.drop_length_add_append]

theorem take_shift (i : Nat) : (front ++ text).take (i + front.length) = front ++ text.take i := by
  rw [Nat.add_comm, List.take_length_add_append]

theorem redirectName_blank (arrow : Nat × Bool) :
    redirectName (front ++ text) (arrow.1 + front.length, arrow.2) = redirectName text arrow := by
  unfold redirectName
  simp only [drop_shift]

theorem inputName_blank (arrow : Nat) : inputName (front ++ text) (arrow + front.length) = inputName text arrow := by
  unfold inputName
  rw [drop_shift]

theorem expandFrom_blank (sh : Shell) (pid : Int) (blank : Blank front) :
    expandFrom sh pid 0 false true (front ++ text) = front ++ expandFrom sh pid 0 false true text := by
  induction front with
  | nil => rfl
  | cons c rest ih =>
    obtain ⟨here, later⟩ := List.forall_mem_cons.mp blank
    obtain ⟨-, single, dollar_, -, -, -, -, backslash, -, tilde⟩ := isSpace_plain here
    rw [List.cons_append, expandFrom]
    simp only [single, backslash, tilde, dollar_, ne_eq, not_false_eq_true, Bool.false_eq_true, false_and, if_false, if_true,
      here, ih later, List.cons_append]

theorem tokensFrom_blank (blank : Blank front) : tokensFrom none none false (front ++ text) = tokensFrom none none false text := by
  induction front with
  | nil => rfl
  | cons c rest ih =>
    obtain ⟨here, later⟩ := List.forall_mem_cons.mp blank
    rw [List.cons_append, tokensFrom, if_pos ⟨rfl, here⟩, ih later]

end Shifts

section Stages
variable {K : Kernel σ} {commands : List (ShellCommand σ)} {exec : Exec σ} {front text : Bytes} {w : World σ}

/-- The expansion of a text, with its blanks, has room in the line. -/
def Fits (K : Kernel σ) (w : World σ) (text : Bytes) : Prop :=
  (expandFrom w.sh (K.currentPid w.sys) 0 false true text).length < shellLineMax

instance (K : Kernel σ) (w : World σ) (text : Bytes) : Decidable (Fits K w text) := Nat.decLt _ _

theorem wordsOf_blank (blank : Blank front) (pipe : Option Bytes) (redirect : Option (Bytes × Bool)) (state : State σ) :
    wordsOf pipe redirect (front ++ text) state = wordsOf pipe redirect text state := by
  unfold wordsOf shellTokenize
  rw [tokensFrom_blank blank]

theorem prepareStage_blank (blank : Blank front) (pipe : Option Bytes) {state : State σ}
    (fits : Fits K state.world (front ++ text)) : prepareStage K (front ++ text) pipe state = prepareStage K text pipe state := by
  unfold Fits at fits
  rw [expandFrom_blank _ _ blank, List.length_append] at fits
  have long : shellExpand state.world.sh (K.currentPid state.world.sys) (front ++ text) =
      front ++ shellExpand state.world.sh (K.currentPid state.world.sys) text := by
    unfold shellExpand
    rw [expandFrom_blank _ _ blank, List.take_of_length_le, List.take_of_length_le]
    · exact Nat.le_sub_one_of_lt (Nat.lt_of_le_of_lt (Nat.le_add_left _ _) fits)
    · rw [List.length_append]
      exact Nat.le_sub_one_of_lt fits
  unfold prepareStage
  rw [long]
  generalize shellExpand state.world.sh (K.currentPid state.world.sys) text = expanded
  simp only [arrowAt_blank blank]
  cases arrow : arrowAt expanded with
  | none =>
    simp only [Option.map_none, findIdx_blank blank (d := 60) (by decide)]
    cases expanded.findIdx? (· == 60) with
    | none => exact wordsOf_blank blank pipe none state
    | some i =>
      simp only [Option.map_some, inputName_blank, take_shift, wordsOf_blank blank]
  | some a =>
    simp only [Option.map_some, redirectName_blank, take_shift, findIdx_blank blank (d := 60) (by decide)]
    cases (expanded.take a.1).findIdx? (· == 60) with
    | none => exact wordsOf_blank blank pipe _ state
    | some i =>
      simp only [Option.map_some, inputName_blank, take_shift, wordsOf_blank blank]

theorem runStage_blank (blank : Blank front) (piped : Bool) {flow : Flow σ} (fits : Fits K flow.state.world (front ++ text)) :
    runStage K commands exec (front ++ text) piped flow = runStage K commands exec text piped flow := by
  unfold runStage
  rw [prepareStage_blank blank flow.pipe fits]

end Stages

section Entries
variable {separator : UInt8} {line : Bytes}

theorem splitOn_short (short : line.length < shellLineMax) : splitOn separator line = (parts separator line).take shellPipeMax := by
  unfold splitOn
  rw [List.map_congr_left (g := id), List.map_id]
  intro p member
  have bound := partsFrom_length p (List.mem_of_mem_take member)
  rw [List.length_nil, Nat.zero_add] at bound
  exact List.take_of_length_le (Nat.le_sub_one_of_lt (Nat.lt_of_le_of_lt bound short))

theorem takeWhile_clean {text : Bytes} (clean : 0 ∉ text) : (text ++ [0]).takeWhile (· ≠ 0) = text := by
  have full : ∀ c ∈ text, decide (c ≠ 0) = true := by
    intro c member
    apply decide_eq_true
    rintro rfl
    exact clean member
  rw [List.takeWhile_append_of_pos full]
  exact List.append_nil text

theorem scan_fill {table : Table} {entries : List Bytes} {i : Nat} {text : Bytes} (here : entries[i]? = some text)
    (clean : 0 ∉ text) (short : text.length < shellLineMax) (mem : Row → Nat → UInt8) :
    scan (apply (fillTable table entries) mem (.entry table i)) shellLineMax 0 = text := by
  have cells : fillTable table entries (.entry table i) = text ++ [0] := by
    rw [fillTable, if_pos rfl, here, Option.elim_some]
  unfold apply
  rw [cells, scan_cover (ended_string text)]
  · rw [List.drop_zero, takeWhile_clean clean]
  · rw [List.length_append, List.length_singleton]
    omega
  · rw [List.length_append, List.length_singleton, Nat.zero_add]
    exact short

theorem parts_clean (separator : UInt8) (clean : 0 ∉ line) : ∀ p ∈ parts separator line, 0 ∉ p := by
  intro p member zero
  rcases partsFrom_mem p member zero with impossible | inside
  · cases impossible
  · exact clean inside

theorem parts_short (separator : UInt8) (short : line.length < shellLineMax) : ∀ p ∈ parts separator line, p.length < shellLineMax := by
  intro p member
  have bound := partsFrom_length p member
  rw [List.length_nil, Nat.zero_add] at bound
  exact Nat.lt_of_le_of_lt bound short

end Entries

/-- Two computations end in one world with one status. -/
def Agree (one other : State σ × Int) : Prop := one.1.world = other.1.world ∧ one.2 = other.2

section Pipelines
variable {K : Kernel σ} {commands : List (ShellCommand σ)} {exec : Exec σ} {front text first : Bytes} {rest : List Bytes}

/-- The stages but the first. -/
def behindFirst (entries : List Bytes) : Patch Row := fun r =>
  if r = .entry .stages 0 then [] else fillTable .stages entries r

theorem proper_behindFirst {entries : List Bytes} (proper : Proper (fillTable .stages entries)) :
    Proper (behindFirst entries) := by
  constructor
  · intro r
    unfold behindFirst
    split
    · exact ended_nil
    · exact proper.ended r
  · intro r
    unfold behindFirst
    split
    · exact Nat.zero_le _
    · exact proper.sized r

theorem apply_fill (other : Bytes) (mem : Row → Nat → UInt8) : apply (fillTable .stages (first :: rest)) mem =
    apply (behindFirst (other :: rest)) (apply (strcpy (.entry .stages 0) first) mem) := by
  funext r
  unfold apply behindFirst strcpy
  by_cases zero : r = .entry .stages 0
  · simp [zero, fillTable]
  · rw [if_neg zero, if_neg zero, cover_nil]
    cases r with
    | scratch => rfl
    | entry t i =>
      cases i with
      | succ i => rfl
      | zero =>
        have elsewhere : t ≠ .stages := by
          rintro rfl
          exact zero rfl
        simp [fillTable, elsewhere]

/-- What is left of a pipeline after its first stage does not depend on how that stage was written. -/
theorem runPipeline_first (lines : LinesSettle exec) {one other : Bytes} {w : World σ} (mem : Row → Nat → UInt8)
    (proper : Proper (fillTable .stages (other :: rest)))
    (readOne : ∀ mem : Row → Nat → UInt8, entryText .stages 0 0 ⟨w, apply (fillTable .stages (one :: rest)) mem⟩ = one)
    (readOther : ∀ mem : Row → Nat → UInt8, entryText .stages 0 0 ⟨w, apply (fillTable .stages (other :: rest)) mem⟩ = other)
    (same : ∀ piped (mem : Row → Nat → UInt8), runStage K commands exec one piped ⟨⟨w, mem⟩, 0, none, false⟩ =
      runStage K commands exec other piped ⟨⟨w, mem⟩, 0, none, false⟩) :
    Agree
      (endPipeline (runStages K commands exec (rest.length + 1) (List.range (rest.length + 1))
        ⟨⟨w, apply (fillTable .stages (one :: rest)) mem⟩, 0, none, false⟩))
      (endPipeline (runStages K commands exec (rest.length + 1) (List.range (rest.length + 1))
        ⟨⟨w, apply (fillTable .stages (other :: rest)) mem⟩, 0, none, false⟩)) := by
  have good := proper_behindFirst proper
  obtain ⟨w', status, pipe, stopped, middle, fine, grows, run⟩ := runStage_settled K commands lines other
    (decide (0 + 1 < rest.length + 1)) w 0 none false good
  have filled : ∀ k ∈ (List.range rest.length).map Nat.succ, 0 < (middle (.entry .stages k)).length := by
    intro k member
    obtain ⟨i, inside, rfl⟩ := List.mem_map.mp member
    apply Nat.lt_of_lt_of_le _ (grows _)
    have bound : i < rest.length := List.mem_range.mp inside
    simp [behindFirst, fillTable, bound]
  obtain ⟨w'', status', pipe', stopped', after, -, -, runs⟩ := runStages_settled K commands lines (rest.length + 1)
    ((List.range rest.length).map Nat.succ) w' status pipe stopped fine filled
  rw [List.range_succ_eq_map]
  simp only [runStages, Bool.false_eq_true, if_false, readOne, readOther, same]
  rw [apply_fill other, apply_fill other, run, run, runs, runs]
  cases stopped' with
  | true => exact ⟨rfl, rfl⟩
  | false => exact ⟨rfl, rfl⟩

theorem runPipeline_blank (lines : LinesSettle exec) (blank : Blank front) (clean : 0 ∉ front ++ text)
    (short : (front ++ text).length < shellLineMax) {w : World σ}
    (fits : Fits K w (front ++ (parts 124 text).headD [])) (mem : Row → Nat → UInt8) :
    Agree (runPipeline K commands exec (front ++ text) ⟨w, mem⟩) (runPipeline K commands exec text ⟨w, mem⟩) := by
  have shorter : text.length < shellLineMax := by
    rw [List.length_append] at short
    omega
  have cleaner : 0 ∉ text := fun member => clean (List.mem_append_right front member)
  have proper := proper_fillTable .stages 124 text
  unfold runPipeline
  rw [splitOn_short shorter] at proper
  rw [splitOn_short short, splitOn_short shorter]
  have cleanOne := parts_clean 124 clean
  have shortOne := parts_short 124 short
  have cleanOther := parts_clean 124 cleaner
  have shortOther := parts_short 124 shorter
  rw [parts_blank blank (by decide)] at cleanOne shortOne ⊢
  cases stages : parts 124 text with
  | nil => exact absurd stages partsFrom_ne_nil
  | cons first rest =>
    rw [stages] at fits proper cleanOther shortOther cleanOne shortOne
    rw [List.headD_cons] at fits
    rw [List.modifyHead_cons] at cleanOne shortOne ⊢
    have all (entry : Bytes) : (entry :: rest).take shellPipeMax = entry :: rest.take 7 := rfl
    rw [all] at proper
    rw [all, all]
    apply runPipeline_first lines mem proper
    · intro mem
      exact scan_fill rfl (cleanOne _ List.mem_cons_self) (shortOne _ List.mem_cons_self) mem
    · intro mem
      exact scan_fill rfl (cleanOther _ List.mem_cons_self) (shortOther _ List.mem_cons_self) mem
    · intro piped mem
      exact runStage_blank blank piped fits

end Pipelines

end Qito.Shells
