import Qito.Lib.Lists
import Mathlib.Data.List.Sort
import Mathlib.Data.List.Basic
import Mathlib.Data.List.Perm.Subperm
import Mathlib.Data.List.TakeWhile
import Mathlib.Algebra.BigOperators.Group.List.Basic

/-! The sort command of ultrashell.c: the text is in the scratch buffer, up to its
terminator, and what is printed is one text. -/
namespace Qito.Shells

abbrev sortMaxLines : Nat := 512
abbrev scratchSize : Nat := 16384
abbrev printfSize : Nat := 2048

/-- strtok_r with a newline as the only delimiter: the token, and where the next one is searched. -/
def strtokLine (text : List UInt8) : Option (List UInt8 × List UInt8) :=
  match text.dropWhile (· = 10) with
  | [] => none
  | c :: rest => some ((c :: rest).takeWhile (· ≠ 10), ((c :: rest).dropWhile (· ≠ 10)).tail)

/-- The loop that splits the text, with room for so many lines. -/
def splitLines : Nat → List UInt8 → List (List UInt8)
  | 0, _ => []
  | room + 1, text =>
    match strtokLine text with
    | none => []
    | some (token, rest) => token :: splitLines room rest

def strcmp : List UInt8 → List UInt8 → Int
  | [], [] => 0
  | [], d :: _ => -(d.toNat : Int)
  | c :: _, [] => c.toNat
  | c :: a, d :: b => if c = d then strcmp a b else (c.toNat : Int) - d.toNat

/-- The test of the inner loop. -/
def staysBehind (reverse : Bool) (line key : List UInt8) : Bool :=
  if reverse then decide (strcmp line key < 0) else decide (strcmp line key > 0)

/-- The inner loop: the lines before the key, the last one first. -/
def insertLine (reverse : Bool) (key : List UInt8) : List (List UInt8) → List (List UInt8)
  | [] => [key]
  | line :: before => if staysBehind reverse line key then line :: insertLine reverse key before else key :: line :: before

def sortLines (reverse : Bool) (lines : List (List UInt8)) : List (List UInt8) :=
  (lines.foldl (fun sorted key => insertLine reverse key sorted) []).reverse

/-- The lines that the last loop prints; previous is the line before. -/
def keptLines (unique : Bool) : Option (List UInt8) → List (List UInt8) → List (List UInt8)
  | _, [] => []
  | previous, line :: lines =>
    if unique && previous.any (fun p => strcmp line p = 0) then keptLines unique (some line) lines
    else line :: keptLines unique (some line) lines

/-- shell_printf of a line and a newline. -/
def printLine (line : List UInt8) : List UInt8 := (line ++ [10]).take (printfSize - 1)

def cmdSort (reverse unique : Bool) (text : List UInt8) : List UInt8 :=
  (keptLines unique none (sortLines reverse (splitLines sortMaxLines (text.take (scratchSize - 1))))).flatMap printLine

/-- The lines of a text; the newline of the last one may be missing. -/
def textLines (text : List UInt8) : List (List UInt8) :=
  let pieces := text.splitOn 10
  if pieces.getLast? = some [] then pieces.dropLast else pieces

/-- The order that is asked for. -/
def Before (reverse : Bool) (a b : List UInt8) : Prop := if reverse then b ≤ a else a ≤ b

instance (reverse : Bool) : DecidableRel (Before reverse) := fun a b =>
  inferInstanceAs (Decidable (if reverse then b ≤ a else a ≤ b))

/-- What sort is to print for these lines. -/
def Sorted (reverse unique : Bool) (lines : List (List UInt8)) (out : List UInt8) : Prop :=
  ∃ sorted : List (List UInt8), (if unique then sorted.Nodup ∧ ∀ line, line ∈ sorted ↔ line ∈ lines else sorted.Perm lines) ∧
    sorted.Pairwise (Before reverse) ∧ out = sorted.flatMap (· ++ [10])

section Order
variable {a b : List UInt8}

theorem strcmp_zero (wholeA : 0 ∉ a) (wholeB : 0 ∉ b) : strcmp a b = 0 ↔ a = b := by
  induction a generalizing b with
  | nil =>
    cases b with
    | nil => exact iff_of_true rfl rfl
    | cons d b =>
      have some_ : d ≠ 0 := fun same => wholeB (by simp [same])
      have byte : d.toNat ≠ 0 := fun zero => some_ (UInt8.toNat_inj.mp zero)
      simp only [strcmp, List.nil_eq, reduceCtorEq, iff_false]
      omega
  | cons c a ih =>
    cases b with
    | nil =>
      have some_ : c ≠ 0 := fun same => wholeA (by simp [same])
      have byte : c.toNat ≠ 0 := fun zero => some_ (UInt8.toNat_inj.mp zero)
      simp only [strcmp, reduceCtorEq, iff_false]
      omega
    | cons d b =>
      rw [strcmp, List.cons.injEq]
      split
      · rename_i same
        rw [ih (fun m => wholeA (List.mem_cons_of_mem _ m)) (fun m => wholeB (List.mem_cons_of_mem _ m))]
        exact ⟨fun rest => ⟨same, rest⟩, fun both => both.2⟩
      · rename_i other
        have bytes : c.toNat ≠ d.toNat := fun same => other (UInt8.toNat_inj.mp same)
        exact iff_of_false (by omega) fun both => other both.1

theorem strcmp_swap (a b : List UInt8) : strcmp a b = -strcmp b a := by
  induction a generalizing b with
  | nil => cases b <;> simp [strcmp]
  | cons c a ih =>
    cases b with
    | nil => simp [strcmp]
    | cons d b =>
      rw [strcmp, strcmp, ih b]
      by_cases same : c = d
      · rw [if_pos same, if_pos same.symm]
      · rw [if_neg same, if_neg (Ne.symm same)]
        omega

theorem strcmp_le (wholeA : 0 ∉ a) (wholeB : 0 ∉ b) : strcmp a b ≤ 0 ↔ a ≤ b := by
  induction a generalizing b with
  | nil =>
    have least : strcmp [] b ≤ 0 := by
      cases b with
      | nil => exact Int.le_refl 0
      | cons d b =>
        rw [strcmp]
        omega
    exact iff_of_true least (List.nil_le b)
  | cons c a ih =>
    cases b with
    | nil =>
      have some_ : c ≠ 0 := fun same => wholeA (by simp [same])
      have byte : c.toNat ≠ 0 := fun zero => some_ (UInt8.toNat_inj.mp zero)
      have more : ¬ strcmp (c :: a) [] ≤ 0 := by
        rw [strcmp]
        omega
      exact iff_of_false more (by simp)
    | cons d b =>
      rw [strcmp, List.cons_le_cons_iff]
      split
      · rename_i same
        subst same
        rw [ih (fun m => wholeA (List.mem_cons_of_mem _ m)) (fun m => wholeB (List.mem_cons_of_mem _ m))]
        exact ⟨fun rest => .inr ⟨rfl, rest⟩, fun either => either.elim (fun less => absurd less (UInt8.lt_irrefl c)) And.right⟩
      · rename_i other
        have bytes : c.toNat ≠ d.toNat := fun same => other (UInt8.toNat_inj.mp same)
        have less : (c.toNat : Int) - d.toNat ≤ 0 ↔ c < d := by
          rw [UInt8.lt_iff_toNat_lt]
          omega
        rw [less]
        exact ⟨.inl, fun either => either.elim id fun both => absurd both.1 other⟩

end Order

section Splitting

theorem splitLines_eq (room : Nat) (text : List UInt8) :
    splitLines room text = ((text.splitOn 10).filter (· ≠ [])).take room := by
  induction room generalizing text with
  | zero => simp [splitLines]
  | succ room ih =>
    have skip : (text.splitOn 10).filter (· ≠ []) = ((text.dropWhile (· = 10)).splitOn 10).filter (· ≠ []) := by
      induction text with
      | nil => rfl
      | cons c text ih =>
        by_cases blank : c = 10
        · subst blank
          rw [List.dropWhile_cons_of_pos (by simp), ← ih]
          simp [List.splitOn_cons_eq_if_modifyHead]
        · rw [List.dropWhile_cons_of_neg (by simpa using blank)]
    rw [splitLines, strtokLine, skip]
    generalize first : text.dropWhile (· = 10) = left
    cases left with
    | nil => simp
    | cons c rest =>
      have solid : c ≠ 10 := by
        have head := List.head?_dropWhile_not (· = 10) text
        rw [first] at head
        simpa using head
      have token : (c :: rest).takeWhile (· ≠ 10) ≠ [] := by simp [solid]
      have clean : 10 ∉ (c :: rest).takeWhile (· ≠ 10) := fun member => by simpa using List.mem_takeWhile_imp member
      have whole := List.takeWhile_append_dropWhile (p := (· ≠ 10)) (l := c :: rest)
      have next := List.head?_dropWhile_not (· ≠ 10) (c :: rest)
      dsimp only
      rw [ih]
      generalize (c :: rest).takeWhile (· ≠ 10) = line at token clean whole ⊢
      generalize (c :: rest).dropWhile (· ≠ 10) = tail at whole next ⊢
      rw [← whole]
      cases tail with
      | nil =>
        rw [List.append_nil, List.splitOn_eq_singleton clean]
        simp [token]
      | cons d tail =>
        have ends : d = 10 := by simpa using next
        subst ends
        rw [List.splitOn_append_cons_self, List.splitOn_eq_singleton clean]
        simp [token]

theorem textLines_filter (text : List UInt8) : (textLines text).filter (· ≠ []) = (text.splitOn 10).filter (· ≠ []) := by
  rw [textLines]
  split
  · rename_i last
    obtain ⟨front, same⟩ := List.getLast?_eq_some_iff.mp last
    rw [same]
    simp
  · rfl

end Splitting

section Sorting
variable {reverse : Bool} {lines : List (List UInt8)}

theorem before_total (a b : List UInt8) : Before reverse a b ∨ Before reverse b a := by
  cases reverse with
  | false => exact List.le_total a b
  | true => exact List.le_total b a

theorem before_trans {a b c : List UInt8} (first : Before reverse a b) (second : Before reverse b c) : Before reverse a c := by
  cases reverse with
  | false => exact List.le_trans first second
  | true => exact List.le_trans second first

theorem before_antisymm {a b : List UInt8} (first : Before reverse a b) (second : Before reverse b a) : a = b := by
  cases reverse with
  | false => exact List.le_antisymm first second
  | true => exact List.le_antisymm second first

/-- The other way round, as the inner loop goes through the lines. -/
def Behind (reverse : Bool) (a b : List UInt8) : Prop := Before reverse b a

instance (reverse : Bool) : DecidableRel (Behind reverse) := fun a b => inferInstanceAs (Decidable (Before reverse b a))

instance (reverse : Bool) : Std.Total (Behind reverse) := ⟨fun a b => before_total b a⟩

instance (reverse : Bool) : IsTrans (List UInt8) (Behind reverse) := ⟨fun _ _ _ first second => before_trans second first⟩

theorem staysBehind_iff (reverse : Bool) {line key : List UInt8} (wholeL : 0 ∉ line) (wholeK : 0 ∉ key) :
    staysBehind reverse line key = true ↔ ¬ Behind reverse key line := by
  cases reverse with
  | false =>
    change decide (strcmp line key > 0) = true ↔ ¬ line ≤ key
    rw [decide_eq_true_eq, ← strcmp_le wholeL wholeK]
    omega
  | true =>
    change decide (strcmp line key < 0) = true ↔ ¬ key ≤ line
    rw [decide_eq_true_eq, ← strcmp_le wholeK wholeL, strcmp_swap key line]
    omega

theorem insertLine_eq {key : List UInt8} {before : List (List UInt8)} (wholeK : 0 ∉ key) (whole : ∀ line ∈ before, 0 ∉ line) :
    insertLine reverse key before = before.orderedInsert (Behind reverse) key := by
  induction before with
  | nil => rfl
  | cons line before ih =>
    have moves := staysBehind_iff reverse (whole line List.mem_cons_self) wholeK
    rw [insertLine, List.orderedInsert_cons, ih fun l member => whole l (List.mem_cons_of_mem _ member)]
    by_cases behind : Behind reverse key line
    · rw [if_pos behind, if_neg fun stays => moves.mp stays behind]
    · rw [if_neg behind, if_pos (moves.mpr behind)]

theorem sortLines_sorted (reverse : Bool) (whole : ∀ line ∈ lines, 0 ∉ line) :
    (sortLines reverse lines).Perm lines ∧ (sortLines reverse lines).Pairwise (Before reverse) := by
  have loop (lines before : List (List UInt8)) (whole : ∀ line ∈ lines, 0 ∉ line) (whole' : ∀ line ∈ before, 0 ∉ line)
      (sorted : before.Pairwise (Behind reverse)) :
      (lines.foldl (fun sorted key => insertLine reverse key sorted) before).Perm (lines ++ before) ∧
        (lines.foldl (fun sorted key => insertLine reverse key sorted) before).Pairwise (Behind reverse) := by
    induction lines generalizing before with
    | nil => exact ⟨.refl _, sorted⟩
    | cons key lines ih =>
      have here := whole key List.mem_cons_self
      have perm := List.perm_orderedInsert (Behind reverse) key before
      rw [List.foldl_cons, insertLine_eq here whole']
      obtain ⟨same, sorted'⟩ := ih (before.orderedInsert (Behind reverse) key) (fun l member => whole l (List.mem_cons_of_mem _ member))
        (fun l member => (List.mem_cons.mp (perm.mem_iff.mp member)).elim (fun same => same ▸ here) (whole' l))
        (sorted.orderedInsert key before)
      exact ⟨same.trans ((perm.append_left lines).trans List.perm_middle), sorted'⟩
  obtain ⟨perm, sorted⟩ := loop lines [] whole (by simp) .nil
  rw [List.append_nil] at perm
  exact ⟨(List.reverse_perm _).trans perm, List.pairwise_reverse.mpr sorted⟩

theorem keptLines_all (previous : Option (List UInt8)) (lines : List (List UInt8)) : keptLines false previous lines = lines := by
  induction lines generalizing previous with
  | nil => rfl
  | cons line lines ih => rw [keptLines, Bool.false_and, if_neg Bool.false_ne_true, ih]

theorem keptLines_unique {previous : Option (List UInt8)} (whole : ∀ line ∈ lines, 0 ∉ line) (whole' : ∀ p ∈ previous, 0 ∉ p)
    (sorted : lines.Pairwise (Before reverse)) (behind : ∀ p ∈ previous, ∀ line ∈ lines, Before reverse p line) :
    (keptLines true previous lines).Pairwise (Before reverse) ∧ (keptLines true previous lines).Nodup ∧
      ∀ line, line ∈ keptLines true previous lines ↔ line ∈ lines ∧ previous ≠ some line := by
  induction lines generalizing previous with
  | nil => simp [keptLines]
  | cons line lines ih =>
    have here := whole line List.mem_cons_self
    obtain ⟨first, sorted⟩ := List.pairwise_cons.mp sorted
    obtain ⟨pairs, once, members⟩ := @ih (some line) (fun l member => whole l (List.mem_cons_of_mem _ member))
      (by simpa using here) sorted (by simpa using first)
    have again : (previous.any fun p => strcmp line p = 0) = true ↔ previous = some line := by
      cases previous with
      | none => simp
      | some p =>
        rw [Option.any_some, decide_eq_true_eq, strcmp_zero here (whole' p rfl), Option.some.injEq]
        exact eq_comm
    rw [keptLines, Bool.true_and]
    split
    · rename_i printed
      rw [again] at printed
      subst printed
      refine ⟨pairs, once, fun l => ?_⟩
      rw [members, List.mem_cons]
      constructor
      · exact fun both => ⟨.inr both.1, both.2⟩
      · rintro ⟨rfl | member, other⟩
        · exact absurd rfl other
        · exact ⟨member, other⟩
    · rename_i printed
      rw [again] at printed
      refine ⟨List.pairwise_cons.mpr ⟨fun l member => first l ((members l).mp member).1, pairs⟩,
        List.nodup_cons.mpr ⟨fun member => ((members line).mp member).2 rfl, once⟩, fun l => ?_⟩
      rw [List.mem_cons, members, List.mem_cons]
      constructor
      · rintro (rfl | ⟨member, other⟩)
        · exact ⟨.inl rfl, printed⟩
        · refine ⟨.inr member, ?_⟩
          rintro rfl
          have back := behind l rfl line List.mem_cons_self
          exact other (congrArg some (before_antisymm (first l member) back))
      · rintro ⟨rfl | member, other⟩
        · exact .inl rfl
        · by_cases same : l = line
          · exact .inl same
          · exact .inr ⟨member, fun equal => same (Option.some.inj equal).symm⟩

end Sorting

section Printing
variable {reverse unique : Bool} {text : List UInt8} {lines : List (List UInt8)}

/-- The lines that the loop which splits the text keeps. -/
def tokens (lines : List (List UInt8)) : List (List UInt8) := (lines.filter (· ≠ [])).take sortMaxLines

/-- No line is empty or longer than what one shell_printf prints, and there is room for all of them. -/
def Sortable (unique : Bool) (lines : List (List UInt8)) : Prop :=
  [] ∉ lines ∧ (∀ line ∈ lines, line.length < printfSize - 1) ∧
    if unique then ∀ line ∈ lines, line ∈ lines.take sortMaxLines else lines.length ≤ sortMaxLines

theorem printLine_length (line : List UInt8) : (printLine line).length ≤ line.length + 1 := by
  rw [printLine, List.length_take, List.length_append, List.length_singleton]
  omega

theorem printLine_short {line : List UInt8} (short : line.length < printfSize - 1) : printLine line = line ++ [10] :=
  List.take_of_length_le (by rw [List.length_append, List.length_singleton]; omega)

theorem printed_length (lines : List (List UInt8)) :
    (lines.flatMap printLine).length ≤ (lines.flatMap (· ++ [10])).length ∧
      ((lines.flatMap printLine).length = (lines.flatMap (· ++ [10])).length →
        ∀ line ∈ lines, line.length < printfSize - 1) := by
  induction lines with
  | nil => simp
  | cons line lines ih =>
    have here := printLine_length line
    have cut : (printLine line).length = min (printfSize - 1) (line.length + 1) := by simp [printLine]
    simp only [List.flatMap_cons, List.length_append, List.length_singleton]
    refine ⟨by omega, fun same l member => ?_⟩
    rcases List.mem_cons.mp member with rfl | later
    · omega
    · exact ih.2 (by omega) l later

theorem mem_splitOn {piece : List UInt8} (member : piece ∈ text.splitOn 10) : ∀ c ∈ piece, c ∈ text := by
  induction text generalizing piece with
  | nil => simp_all
  | cons d text ih =>
    rw [List.splitOn_cons_eq_if_modifyHead] at member
    intro c inside
    split at member
    · rcases List.mem_cons.mp member with rfl | later
      · cases inside
      · exact List.mem_cons_of_mem _ (ih later c inside)
    · obtain ⟨p, ps, pieces⟩ := List.exists_cons_of_ne_nil (List.splitOn_ne_nil 10 text)
      rw [pieces, List.modifyHead_cons] at member
      rcases List.mem_cons.mp member with rfl | later
      · rcases List.mem_cons.mp inside with rfl | rest
        · exact List.mem_cons_self
        · exact List.mem_cons_of_mem _ (ih (by simp [pieces]) c rest)
      · exact List.mem_cons_of_mem _ (ih (by simp [pieces, later]) c inside)

theorem textLines_clean (whole : 0 ∉ text) : ∀ line ∈ textLines text, 0 ∉ line := by
  intro line member zero
  rw [textLines] at member
  split at member
  · exact whole (mem_splitOn (List.dropLast_subset _ member) 0 zero)
  · exact whole (mem_splitOn member 0 zero)

theorem cmdSort_kept (reverse unique : Bool) (whole : 0 ∉ text) (fits : text.length < scratchSize) :
    ∃ kept : List (List UInt8), cmdSort reverse unique text = kept.flatMap printLine ∧ kept.Pairwise (Before reverse) ∧
      if unique then kept.Nodup ∧ ∀ line, line ∈ kept ↔ line ∈ tokens (textLines text)
      else kept.Perm (tokens (textLines text)) := by
  have split : splitLines sortMaxLines (text.take (scratchSize - 1)) = tokens (textLines text) := by
    rw [List.take_of_length_le (Nat.le_sub_one_of_lt fits), splitLines_eq, ← textLines_filter, tokens]
  have clean : ∀ line ∈ tokens (textLines text), 0 ∉ line := fun line member =>
    textLines_clean whole line (List.mem_of_mem_filter (List.mem_of_mem_take member))
  obtain ⟨perm, sorted⟩ := sortLines_sorted reverse clean
  rw [cmdSort, split]
  refine ⟨_, rfl, ?_⟩
  cases unique with
  | false =>
    rw [keptLines_all]
    exact ⟨sorted, perm⟩
  | true =>
    obtain ⟨pairs, once, members⟩ := @keptLines_unique reverse _ none (fun l member => clean l (perm.mem_iff.mp member))
      (by simp) sorted (by simp)
    exact ⟨pairs, once, fun l => (members l).trans (by simp [perm.mem_iff])⟩

/-- sort prints the lines of the text in order just where no line is empty or too long,
and no more than fit its table. -/
theorem sort_prints_iff (reverse unique : Bool) (text : List UInt8) (whole : 0 ∉ text) (fits : text.length < scratchSize) :
    Sorted reverse unique (textLines text) (cmdSort reverse unique text) ↔ Sortable unique (textLines text) := by
  obtain ⟨kept, prints, order, what⟩ := cmdSort_kept reverse unique whole fits
  rw [prints]
  generalize textLines text = lines at what ⊢
  have inside : tokens lines ⊆ lines := fun l member => List.mem_of_mem_filter (List.mem_of_mem_take member)
  constructor
  · rintro ⟨sorted, all, -, same⟩
    have part : kept.Subperm sorted := by
      cases unique with
      | false => exact (what.subperm.trans ((List.take_sublist ..).trans List.filter_sublist).subperm).trans all.symm.subperm
      | true => exact List.subperm_of_subset what.1 fun l member => (all.2 l).mpr (inside ((what.2 l).mp member))
    obtain ⟨kept', perm, sub⟩ := part
    obtain ⟨rest, whole⟩ := sub.exists_perm_append
    have lengths := (whole.flatMap_right (· ++ [(10 : UInt8)])).length_eq
    have lengths' := (perm.flatMap_right (· ++ [(10 : UInt8)])).length_eq
    obtain ⟨cut, uncut⟩ := printed_length kept
    rw [same] at cut uncut
    rw [List.flatMap_append, List.length_append] at lengths
    have nothing : rest = [] := by
      cases rest with
      | nil => rfl
      | cons l rest =>
        simp only [List.flatMap_cons, List.length_append, List.length_singleton] at lengths
        omega
    subst nothing
    rw [List.append_nil] at whole
    rw [List.flatMap_nil, List.length_nil] at lengths
    have short := uncut (by omega)
    have back : ∀ l ∈ lines, l ∈ kept := by
      intro l member
      apply (whole.trans perm).mem_iff.mp
      cases unique with
      | false => exact all.mem_iff.mpr member
      | true => exact (all.2 l).mpr member
    have token : ∀ l ∈ lines, l ∈ tokens lines := by
      intro l member
      cases unique with
      | false => exact what.mem_iff.mp (back l member)
      | true => exact (what.2 l).mp (back l member)
    have solid : [] ∉ lines := fun member => by simpa using List.of_mem_filter (List.mem_of_mem_take (token [] member))
    have every : lines.filter (· ≠ []) = lines := List.filter_eq_self.mpr fun l member => by
      simpa using fun empty : l = [] => solid (empty ▸ member)
    refine ⟨solid, fun l member => short l (back l member), ?_⟩
    rw [tokens, every] at what token
    cases unique with
    | false =>
      have count := ((all.symm.trans whole).trans perm).trans what
      rw [if_neg Bool.false_ne_true, count.length_eq, List.length_take]
      exact Nat.min_le_left _ _
    | true => exact token
  · rintro ⟨solid, short, room⟩
    have every : lines.filter (· ≠ []) = lines := List.filter_eq_self.mpr fun l member => by
      simpa using fun empty : l = [] => solid (empty ▸ member)
    rw [tokens, every] at what
    have shorts : ∀ l ∈ kept, l.length < printfSize - 1 := by
      intro l member
      apply short
      cases unique with
      | false => exact List.mem_of_mem_take (what.mem_iff.mp member)
      | true => exact List.mem_of_mem_take ((what.2 l).mp member)
    refine ⟨kept, ?_, order, List.flatMap_congr fun l member => printLine_short (shorts l member)⟩
    cases unique with
    | false => exact what.trans (List.Perm.of_eq (List.take_of_length_le room))
    | true => exact ⟨what.1, fun l => (what.2 l).trans ⟨List.mem_of_mem_take, room l⟩⟩

theorem sort_prints_two : Sorted false false (textLines [98, 10, 97, 10]) (cmdSort false false [98, 10, 97, 10]) ↔
    Sortable false (textLines [98, 10, 97, 10]) :=
  sort_prints_iff false false [98, 10, 97, 10] (by decide) (by decide)

/-- The empty line between a and b is not printed. -/
theorem empty_line_lost : ¬ ∀ (reverse unique : Bool) (text : List UInt8), 0 ∉ text → text.length < scratchSize →
    Sorted reverse unique (textLines text) (cmdSort reverse unique text) := by
  intro always
  obtain ⟨sorted, perm, -, prints⟩ := always false false [97, 10, 10, 98, 10] (by decide) (by decide)
  have lines : textLines [97, 10, 10, 98, 10] = [[97], [], [98]] := by decide
  have out : cmdSort false false [97, 10, 10, 98, 10] = [97, 10, 98, 10] := by decide
  rw [if_neg Bool.false_ne_true, lines] at perm
  have length := (perm.flatMap_right (· ++ [(10 : UInt8)])).length_eq
  rw [← prints, out] at length
  exact absurd length (by decide)

end Printing

end Qito.Shells
