import Qito.Shells.Chains

/-! Five scanners read a line before it is cut into words, each with its own notion of
a quote. The marks are the ones of shell_tokenize; on a calm line no character that
they protect is an operator to any of the scanners. -/
namespace Qito.Shells

inductive Mark where
  | bare
  | single
  | double
  | escaped
deriving DecidableEq

/-- Where shell_tokenize is: the open quote, and whether the next character is taken as it is. -/
structure Scan where
  quote : Option UInt8
  escaped : Bool
deriving DecidableEq

def Scan.start : Scan := ⟨none, false⟩

def scanStep : Scan → UInt8 → Scan
  | ⟨q, true⟩, _ => ⟨q, false⟩
  | ⟨some q, false⟩, c => if c = q then ⟨none, false⟩ else ⟨some q, c == 92 && q != 39⟩
  | ⟨none, false⟩, c => if c = 34 ∨ c = 39 then ⟨some c, false⟩ else ⟨none, c == 92⟩

def markOf : Scan → UInt8 → Mark
  | ⟨_, true⟩, _ => .escaped
  | ⟨some q, false⟩, c => if c = q then .bare else if q = 39 then .single else .double
  | ⟨none, false⟩, _ => .bare

def annotateFrom : Scan → Bytes → List (UInt8 × Mark)
  | _, [] => []
  | s, c :: rest => (c, markOf s c) :: annotateFrom (scanStep s c) rest

/-- A text with the marks of its characters. -/
def annotate (text : Bytes) : List (UInt8 × Mark) := annotateFrom .start text

def scanAfter (s : Scan) (text : Bytes) : Scan := text.foldl scanStep s

section Scanning
variable {s : Scan} {c : UInt8} {rest : Bytes}

/-- Only quotes are open. -/
def Scan.Sane (s : Scan) : Prop := s.quote = none ∨ s.quote = some 34 ∨ s.quote = some 39

theorem scanStep_sane (sane : s.Sane) (c : UInt8) : (scanStep s c).Sane := by
  obtain ⟨quote, escaped⟩ := s
  cases escaped with
  | true => exact sane
  | false =>
    cases quote with
    | none =>
      by_cases opens : c = 34 ∨ c = 39
      · simp only [scanStep, if_pos opens, Scan.Sane]
        rcases opens with rfl | rfl
        · exact .inr (.inl rfl)
        · exact .inr (.inr rfl)
      · simp only [scanStep, if_neg opens]
        exact .inl rfl
    | some q =>
      by_cases closes : c = q
      · simp only [scanStep, if_pos closes]
        exact .inl rfl
      · simp only [scanStep, if_neg closes]
        exact sane

/-- A token has begun wherever the scan is not where it starts. -/
def Live (token : Option Bytes) (s : Scan) : Prop := s = .start ∨ token ≠ none

/-- The scan is the one that shell_tokenize makes. A backslash is passed over only where
more follows it. -/
theorem tokensFrom_step {token : Option Bytes} (live : Live token s) (c : UInt8) :
    ∃ tokens token', Live token' (scanStep s c) ∧ ∀ rest, (rest ≠ [] ∨ (scanStep s c).escaped = false) →
      tokensFrom token s.quote s.escaped (c :: rest) =
        tokens ++ tokensFrom token' (scanStep s c).quote (scanStep s c).escaped rest := by
  obtain ⟨quote, escaped⟩ := s
  cases escaped with
  | true => exact ⟨[], some (token.getD [] ++ [c]), .inr (Option.some_ne_none _), fun _ _ => rfl⟩
  | false =>
    simp only [tokensFrom]
    by_cases skips : token = none ∧ isSpace c = true
    · obtain ⟨double, single, -, -, -, -, -, backslash, -⟩ := isSpace_plain skips.2
      have plain : (c == 92) = false := beq_eq_false_iff_ne.mpr backslash
      obtain ⟨rfl, -⟩ := Scan.mk.inj (live.resolve_right fun some_ => some_ skips.1)
      have stays : scanStep ⟨none, false⟩ c = ⟨none, false⟩ := by simp [scanStep, double, single, plain]
      rw [stays]
      refine ⟨[], none, .inl rfl, fun rest _ => ?_⟩
      rw [if_pos skips]
      rfl
    simp only [if_neg skips]
    by_cases closes : quote = some c
    · subst closes
      have start : scanStep ⟨some c, false⟩ c = ⟨none, false⟩ := if_pos rfl
      rw [start]
      refine ⟨[], some (token.getD []), .inl rfl, fun rest _ => ?_⟩
      rw [if_pos rfl]
      rfl
    simp only [if_neg closes]
    by_cases opens : quote = none ∧ (c = 34 ∨ c = 39)
    · obtain ⟨rfl, quotes⟩ := opens
      refine ⟨[], some (token.getD []), .inr (Option.some_ne_none _), fun rest _ => ?_⟩
      rw [if_pos ⟨rfl, quotes⟩, scanStep, if_pos quotes]
      rfl
    simp only [if_neg opens]
    by_cases ends : quote = none ∧ isSpace c = true
    · obtain ⟨rfl, blank⟩ := ends
      obtain ⟨double, single, -, -, -, -, -, backslash, -⟩ := isSpace_plain blank
      have plain : (c == 92) = false := beq_eq_false_iff_ne.mpr backslash
      have stays : scanStep ⟨none, false⟩ c = ⟨none, false⟩ := by simp [scanStep, double, single, plain]
      rw [stays]
      refine ⟨[token.getD []], none, .inl rfl, fun rest _ => ?_⟩
      rw [if_pos ⟨rfl, blank⟩]
      rfl
    simp only [if_neg ends]
    have next : scanStep ⟨quote, false⟩ c = ⟨quote, c == 92 && quote != some 39⟩ := by
      cases quote with
      | none =>
        have other : ¬ (c = 34 ∨ c = 39) := fun either => opens ⟨rfl, either⟩
        simp [scanStep, other]
      | some q =>
        have other : ¬ c = q := fun same => closes (congrArg some same.symm)
        rw [scanStep, if_neg other]
        rfl
    rw [next]
    by_cases escapes : (c == 92 && quote != some 39) = true
    · rw [escapes]
      refine ⟨[], some (token.getD []), .inr (Option.some_ne_none _), fun rest more => ?_⟩
      rw [Bool.and_eq_true, beq_iff_eq, bne_iff_ne] at escapes
      rw [if_pos ⟨escapes.1, escapes.2, more.resolve_right (Bool.noConfusion ·)⟩]
      rfl
    · rw [Bool.eq_false_iff.mpr escapes]
      refine ⟨[], some (token.getD [] ++ [c]), .inr (Option.some_ne_none _), fun rest _ => ?_⟩
      rw [Bool.and_eq_true, beq_iff_eq, bne_iff_ne] at escapes
      rw [if_neg fun all => escapes ⟨all.1, all.2.1⟩]
      rfl

theorem annotateFrom_append (s : Scan) (front rest : Bytes) :
    annotateFrom s (front ++ rest) = annotateFrom s front ++ annotateFrom (scanAfter s front) rest := by
  induction front generalizing s with
  | nil => rfl
  | cons c front ih =>
    rw [List.cons_append, annotateFrom, ih]
    rfl

theorem scanAfter_append (s : Scan) (front rest : Bytes) : scanAfter s (front ++ rest) = scanAfter (scanAfter s front) rest :=
  List.foldl_append

theorem annotateFrom_fst (s : Scan) (text : Bytes) : (annotateFrom s text).map Prod.fst = text := by
  induction text generalizing s with
  | nil => rfl
  | cons c rest ih => rw [annotateFrom, List.map_cons, ih]

theorem scanAfter_sane (sane : s.Sane) (text : Bytes) : (scanAfter s text).Sane := by
  induction text generalizing s with
  | nil => exact sane
  | cons c rest ih => exact ih (scanStep_sane sane c)

theorem markOf_bare (sane : s.Sane) (bare : markOf s c = .bare) (plain : c ≠ 34 ∧ c ≠ 39) : s = .start := by
  obtain ⟨quote, escaped⟩ := s
  cases escaped with
  | true => cases bare
  | false =>
    cases quote with
    | none => rfl
    | some q =>
      simp only [markOf] at bare
      split at bare
      · rename_i closes
        subst closes
        rcases sane with none_ | double | single
        · cases none_
        · exact absurd (Option.some.inj double) plain.1
        · exact absurd (Option.some.inj single) plain.2
      · split at bare
        · cases bare
        · cases bare

theorem start_sane : Scan.start.Sane := .inl rfl

end Scanning

/-- Protected characters that the scanners take care of: no < or > and no doubled & or | is protected, no
quote, ; or | is escaped, and no single quote stands in double quotes. -/
def CalmMarks (marks : List (UInt8 × Mark)) : Prop :=
  ∀ front c m rest, marks = front ++ (c, m) :: rest → m ≠ .bare →
    c ≠ 60 ∧ c ≠ 62 ∧ (c = 38 ∨ c = 124 → rest.head?.map Prod.fst ≠ some c) ∧
    (m = .escaped → c ≠ 34 ∧ c ≠ 39 ∧ c ≠ 59 ∧ c ≠ 124) ∧ (m = .double → c ≠ 39)

def Calm (text : Bytes) : Prop := CalmMarks (annotate text)

section Calming
variable {marks part : List (UInt8 × Mark)}

theorem CalmMarks.infix_ (calm : CalmMarks marks) (before after : List (UInt8 × Mark)) (inside : marks = before ++ part ++ after) :
    CalmMarks part := by
  intro front c m rest whole protected_
  obtain ⟨less, greater, doubled, others⟩ := calm (before ++ front) c m (rest ++ after) (by rw [inside, whole]; simp) protected_
  refine ⟨less, greater, fun either head => doubled either ?_, others⟩
  cases rest with
  | nil => cases head
  | cons next rest => exact head

theorem CalmMarks.tail {x : UInt8 × Mark} (calm : CalmMarks (x :: marks)) : CalmMarks marks :=
  calm.infix_ [x] [] (by simp)

theorem CalmMarks.head {c : UInt8} {m : Mark} (calm : CalmMarks ((c, m) :: marks)) (protected_ : m ≠ .bare) :
    c ≠ 60 ∧ c ≠ 62 ∧ (c = 38 ∨ c = 124 → marks.head?.map Prod.fst ≠ some c) ∧
    (m = .escaped → c ≠ 34 ∧ c ≠ 39 ∧ c ≠ 59 ∧ c ≠ 124) ∧ (m = .double → c ≠ 39) := calm [] c m marks rfl protected_

end Calming

section Cutting
variable {separator : UInt8}

/-- The line is its parts, each scanned on its own, with bare separators between them. -/
def CutsBare (separator : UInt8) (line : Bytes) : Prop :=
  annotate line = List.intercalate [(separator, Mark.bare)] ((parts separator line).map annotate)

theorem intercalate_cons {α : Type} (between first : List α) {rest : List (List α)} (more : rest ≠ []) :
    List.intercalate between (first :: rest) = first ++ between ++ List.intercalate between rest := by
  cases rest with
  | nil => exact absurd rfl more
  | cons next rest => simp [List.intercalate]

theorem intercalate_infix {α : Type} (between : List α) {x : List α} {l : List (List α)} (member : x ∈ l) :
    ∃ before after, List.intercalate between l = before ++ x ++ after := by
  induction l with
  | nil => cases member
  | cons first rest ih =>
    cases more : rest with
    | nil =>
      rw [more] at member
      cases List.mem_singleton.mp member
      exact ⟨[], [], by simp [List.intercalate]⟩
    | cons next others =>
      rw [← more, intercalate_cons between first (by simp [more])]
      rcases List.mem_cons.mp member with rfl | later
      · exact ⟨[], between ++ List.intercalate between rest, by simp⟩
      · obtain ⟨before, after, split⟩ := ih later
        exact ⟨first ++ between ++ before, after, by simp [split]⟩

theorem partsFrom_annotate (which : separator = 59 ∨ separator = 124) {s : Scan} (sane : s.Sane) (part line : Bytes)
    (here : scanAfter .start part = s) (calm : CalmMarks (annotateFrom s line)) :
    annotate part ++ annotateFrom s line =
      List.intercalate [(separator, Mark.bare)] ((partsFrom separator s.quote part line).map annotate) := by
  induction line generalizing s part with
  | nil => simp [annotateFrom, partsFrom, List.intercalate]
  | cons c rest ih =>
    have noQuote : separator ≠ 34 ∧ separator ≠ 39 ∧ separator ≠ 92 := by
      rcases which with rfl | rfl
      · decide
      · decide
    have sane' := scanStep_sane sane c
    have later := calm.tail
    have here' : scanAfter .start (part ++ [c]) = scanStep s c := by
      rw [scanAfter_append, here]
      rfl
    have grown : annotate (part ++ [c]) = annotate part ++ [(c, markOf s c)] := by
      unfold annotate
      rw [annotateFrom_append, here]
      rfl
    -- the character goes to the part
    have step (same : partsFrom separator s.quote part (c :: rest) = partsFrom separator (scanStep s c).quote (part ++ [c]) rest) :
        annotate part ++ annotateFrom s (c :: rest) =
          List.intercalate [(separator, Mark.bare)] ((partsFrom separator s.quote part (c :: rest)).map annotate) := by
      rw [same, ← ih sane' (part ++ [c]) here' later, grown, annotateFrom, List.append_assoc]
      rfl
    obtain ⟨quote, escaped⟩ := s
    cases escaped with
    | true =>
      obtain ⟨double, single, semicolon, bar⟩ := (calm.head (by simp [markOf])).2.2.2.1 rfl
      apply step
      cases quote with
      | none =>
        have other : c ≠ separator := by
          rcases which with rfl | rfl
          · exact semicolon
          · exact bar
        simp [partsFrom, scanStep, double, single, other]
      | some q =>
        have other : c ≠ q := by
          rcases sane with none_ | double_ | single_
          · cases none_
          · cases double_
            exact double
          · cases single_
            exact single
        simp [partsFrom, scanStep, other]
    | false =>
      cases quote with
      | some q =>
        apply step
        by_cases closes : c = q
        · simp [partsFrom, scanStep, closes]
        · simp [partsFrom, scanStep, closes]
      | none =>
        by_cases opens : c = 34 ∨ c = 39
        · apply step
          simp [partsFrom, scanStep, opens]
        · by_cases cuts : c = separator
          · subst cuts
            have stays : scanStep ⟨none, false⟩ c = .start := by
              have plain : (c == 92) = false := beq_eq_false_iff_ne.mpr noQuote.2.2
              simp [scanStep, opens, plain, Scan.start]
            have fresh := ih start_sane [] rfl (by rw [stays] at later; exact later)
            have more : (partsFrom c none [] rest).map annotate ≠ [] := by
              rw [Ne, List.map_eq_nil_iff]
              exact partsFrom_ne_nil
            simp only [partsFrom, if_neg opens, if_true, List.map_cons]
            rw [intercalate_cons _ _ more, annotateFrom, stays]
            have rest_ : annotateFrom .start rest = List.intercalate [(c, Mark.bare)] ((partsFrom c none [] rest).map annotate) := fresh
            rw [rest_]
            simp [markOf]
          · apply step
            simp [partsFrom, scanStep, opens, cuts]

theorem Calm.cuts {line : Bytes} (calm : Calm line) (which : separator = 59 ∨ separator = 124) : CutsBare separator line :=
  partsFrom_annotate which start_sane [] line rfl calm

theorem Calm.part {line part : Bytes} (calm : Calm line) (which : separator = 59 ∨ separator = 124)
    (member : part ∈ parts separator line) : Calm part := by
  have cuts := calm.cuts which
  obtain ⟨before, after, whole⟩ := intercalate_infix [(separator, Mark.bare)] (List.mem_map_of_mem (f := annotate) member)
  exact CalmMarks.infix_ calm _ _ (cuts.trans whole)

end Cutting

section Chaining

theorem strstr_spec {needle text : Bytes} {i : Nat} (found : strstr needle text = some i) :
    text = text.take i ++ (needle ++ text.drop (i + needle.length)) := by
  induction text generalizing i with
  | nil => cases found
  | cons c rest ih =>
    unfold strstr at found
    split at found
    · rename_i here
      cases Option.some.inj found
      obtain ⟨back, whole⟩ := List.isPrefixOf_iff_prefix.mp here
      rw [← whole]
      simp
    · obtain ⟨j, later, rfl⟩ := Option.map_eq_some_iff.mp found
      have split := ih later
      rw [List.take_succ_cons, List.cons_append, Nat.succ_add, List.drop_succ_cons, ← split]

theorem chainAt_spec {text : Bytes} {useAnd : Bool} {i : Nat} (chain : chainAt text = some (useAnd, i)) :
    text = text.take i ++ (operator useAnd ++ text.drop (i + 2)) := by
  unfold chainAt at chain
  split at chain
  · cases chain
  · rename_i and_ or_
    cases chain
    exact strstr_spec and_
  · rename_i and_ or_
    cases chain
    exact strstr_spec or_
  · rename_i and_ or_
    split at chain
    · cases chain
      exact strstr_spec and_
    · cases chain
      exact strstr_spec or_

theorem Calm.doubled {front back : Bytes} {x : UInt8} (calm : Calm (front ++ x :: x :: back)) (which : x = 38 ∨ x = 124) :
    annotate (front ++ x :: x :: back) = annotate front ++ ([(x, .bare), (x, .bare)] ++ annotate back) := by
  have split : annotate (front ++ x :: x :: back) = annotate front ++ annotateFrom (scanAfter .start front) (x :: x :: back) :=
    annotateFrom_append .start front _
  have sane := scanAfter_sane start_sane front
  have plain : x ≠ 34 ∧ x ≠ 39 ∧ (x == 92) = false := by
    rcases which with rfl | rfl
    · decide
    · decide
  have bare : markOf (scanAfter .start front) x = .bare := by
    by_contra protected_
    unfold Calm at calm
    rw [split] at calm
    exact (calm _ x _ _ rfl protected_).2.2.1 which rfl
  have outside := markOf_bare sane bare ⟨plain.1, plain.2.1⟩
  have stays : scanStep .start x = .start := by
    simp [scanStep, Scan.start, plain]
  rw [split, outside, annotateFrom, annotateFrom, stays, stays]
  rfl

theorem Calm.chain {text : Bytes} (calm : Calm text) {useAnd : Bool} {i : Nat} (chain : chainAt text = some (useAnd, i)) :
    annotate text = annotate (text.take i) ++ ((operator useAnd).map (·, Mark.bare) ++ annotate (text.drop (i + 2))) := by
  have split := chainAt_spec chain
  cases useAnd with
  | true =>
    have whole : text = text.take i ++ 38 :: 38 :: text.drop (i + 2) := split
    have marks := Calm.doubled (whole ▸ calm) (.inl rfl)
    rw [← whole] at marks
    exact marks
  | false =>
    have whole : text = text.take i ++ 124 :: 124 :: text.drop (i + 2) := split
    have marks := Calm.doubled (whole ▸ calm) (.inr rfl)
    rw [← whole] at marks
    exact marks

theorem Calm.left {text : Bytes} (calm : Calm text) {useAnd : Bool} {i : Nat} (chain : chainAt text = some (useAnd, i)) :
    Calm (text.take i) := CalmMarks.infix_ calm [] _ (by rw [calm.chain chain]; rfl)

theorem Calm.right {text : Bytes} (calm : Calm text) {useAnd : Bool} {i : Nat} (chain : chainAt text = some (useAnd, i)) :
    Calm (text.drop (i + 2)) := CalmMarks.infix_ calm _ [] (by rw [calm.chain chain, ← List.append_assoc, List.append_nil])

end Chaining

/-- What shell_expand does with a text: a character is copied, a character of a value is put in, or an
expansion starts. -/
inductive Event where
  | copied (c : UInt8) (m : Mark)
  | inserted (c : UInt8)
  | expanded (m : Mark)

/-- A character of the output, and its mark if it comes from the line. -/
def Event.output : Event → Option (UInt8 × Option Mark)
  | .copied c m => some (c, some m)
  | .inserted c => some (c, none)
  | .expanded _ => none

section Expanding
variable (sh : Shell) (pid : Int)

/-- The loop of shell_expand on a marked text. -/
def expandEvents : Nat → Bool → Bool → List (UInt8 × Mark) → List Event
  | _, _, _, [] => []
  | skip + 1, single, _, (c, _) :: rest => expandEvents skip single (isSpace c) rest
  | 0, single, start, (c, m) :: rest =>
    if c = 39 then .copied c m :: expandEvents 0 (!single) (isSpace c) rest
    else if single then .copied c m :: expandEvents 0 single (isSpace c) rest
    else if c = 92 ∧ rest ≠ [] then
      .copied c m :: (rest.take 1).map (fun next => .copied next.1 next.2) ++ expandEvents 1 single (isSpace c) rest
    else if c = 126 ∧ start ∧ (rest = [] ∨ (rest.map Prod.fst).head? = some 47 ∨ ((rest.map Prod.fst).head?.map isSpace).getD false) ∧
        (shellGetVar sh (ascii "HOME")).isSome then
      .expanded m :: ((shellGetVar sh (ascii "HOME")).getD []).map .inserted ++ expandEvents 0 single (isSpace c) rest
    else if c ≠ 36 then .copied c m :: expandEvents 0 single (isSpace c) rest
    else
      match dollar sh pid (rest.map Prod.fst) with
      | none => .copied c m :: expandEvents 0 single (isSpace c) rest
      | some (text, used) => .expanded m :: text.map .inserted ++ expandEvents used single (isSpace c) rest

/-- The text that the redirections are searched in, with the marks of what comes from the line. -/
def expandedMarks (text : Bytes) : List (UInt8 × Option Mark) :=
  ((expandEvents sh pid 0 false true (annotate text)).filterMap Event.output).take (shellLineMax - 1)

variable {sh pid}

theorem output_inserted (text : Bytes) : ((text.map Event.inserted).filterMap Event.output).map Prod.fst = text := by
  induction text with
  | nil => rfl
  | cons c rest ih =>
    rw [List.map_cons, List.filterMap_cons]
    simp only [Event.output]
    rw [List.map_cons, ih]

theorem expandEvents_text (skip : Nat) (single start : Bool) (marks : List (UInt8 × Mark)) :
    ((expandEvents sh pid skip single start marks).filterMap Event.output).map Prod.fst =
      expandFrom sh pid skip single start (marks.map Prod.fst) := by
  induction marks generalizing skip single start with
  | nil => cases skip <;> rfl
  | cons x rest ih =>
    obtain ⟨c, m⟩ := x
    cases skip with
    | succ skip => exact ih skip single (isSpace c)
    | zero =>
      have empty : (rest = []) = (rest.map Prod.fst = []) := by simp
      unfold expandEvents
      rw [List.map_cons, expandFrom]
      simp only [empty, ne_eq]
      split
      · simp [Event.output, ih]
      · split
        · simp [Event.output, ih]
        · split
          · cases rest with
            | nil => simp_all
            | cons next rest =>
              have step := ih 1 single (isSpace c)
              rw [List.cons_append, List.filterMap_cons]
              simp only [Event.output, List.filterMap_append, List.map_append, List.map_cons] at step ⊢
              rw [step]
              rfl
          · split
            · rw [List.cons_append, List.filterMap_cons]
              simp only [Event.output, List.filterMap_append, List.map_append, output_inserted, ih]
            · split
              · simp [Event.output, ih]
              · cases found : dollar sh pid (rest.map Prod.fst) with
                | none => simp [Event.output, ih]
                | some read =>
                  obtain ⟨text, used⟩ := read
                  dsimp only
                  rw [List.cons_append, List.filterMap_cons]
                  simp only [Event.output, List.filterMap_append, List.map_append, output_inserted, ih]

theorem expandedMarks_text (text : Bytes) : (expandedMarks sh pid text).map Prod.fst = shellExpand sh pid text := by
  unfold expandedMarks shellExpand
  rw [List.map_take, expandEvents_text, annotate, annotateFrom_fst]

theorem isNameChar_plain {c : UInt8} (name : isNameChar c = true) : c ≠ 34 ∧ c ≠ 39 ∧ c ≠ 92 := by
  refine ⟨?_, ?_, ?_⟩ <;> (rintro rfl; revert name; decide)

theorem dollar_plain {rest text : Bytes} {used : Nat} (found : dollar sh pid rest = some (text, used)) :
    ∀ c ∈ rest.take used, c ≠ 34 ∧ c ≠ 39 ∧ c ≠ 92 := by
  have named (start : Bytes) : ∀ c ∈ start.take ((start.takeWhile isNameChar).take (shellNameMax - 1)).length,
      c ≠ 34 ∧ c ≠ 39 ∧ c ≠ 92 := by
    intro c member
    have front : (start.takeWhile isNameChar).take (shellNameMax - 1) <+: start :=
      (List.take_prefix _ _).trans (List.takeWhile_prefix _)
    rw [← List.prefix_iff_eq_take.mp front] at member
    exact isNameChar_plain (List.mem_takeWhile_imp (List.mem_of_mem_take member))
  unfold dollar at found
  split at found
  · rename_i question
    cases found
    obtain ⟨back, rfl⟩ := List.head?_eq_some_iff.mp question
    simp
  · split at found
    · rename_i twice
      cases found
      obtain ⟨back, rfl⟩ := List.head?_eq_some_iff.mp twice
      simp
    · by_cases braced : rest.head? = some 123
      · obtain ⟨back, rfl⟩ := List.head?_eq_some_iff.mp braced
        simp only [List.head?_cons, if_true, List.tail_cons, true_and] at found
        split at found
        · cases found
        · split at found
          · cases found
          · rename_i closed
            rw [not_not] at closed
            cases found
            rw [List.take_succ_cons]
            intro c member
            rcases List.mem_cons.mp member with rfl | later
            · decide
            · rw [List.head?_drop] at closed
              rw [List.take_add_one, closed] at later
              rcases List.mem_append.mp later with inside | last
              · exact named back c inside
              · cases List.mem_singleton.mp last
                decide
      · simp only [if_neg braced] at found
        split at found
        · cases found
        · split at found
          · rename_i brace
            exact absurd brace.1 braced
          · cases found
            exact named rest

/-- Where shell_expand is while shell_tokenize is at s: both know of a single quote, and what is skipped is escaped or plain. -/
structure InStep (s : Scan) (skip : Nat) (single : Bool) (text : Bytes) : Prop where
  quoted : single = decide (s.quote = some 39)
  escaped : s.escaped = true → skip = 1
  plain : s.escaped = false → ∀ c ∈ text.take skip, c ≠ 34 ∧ c ≠ 39 ∧ c ≠ 92

theorem scanStep_plain {s : Scan} {c : UInt8} (sane : s.Sane) (free : s.escaped = false) (plain : c ≠ 34 ∧ c ≠ 39 ∧ c ≠ 92) :
    scanStep s c = s := by
  obtain ⟨quote, escaped⟩ := s
  cases free
  have backslash : (c == 92) = false := beq_eq_false_iff_ne.mpr plain.2.2
  rcases sane with none_ | double | single
  · cases none_
    simp [scanStep, plain.1, plain.2.1, backslash]
  · cases double
    simp [scanStep, plain.1, backslash]
  · cases single
    simp [scanStep, plain.2.1]

theorem InStep.skipped_ {s : Scan} {skip : Nat} {single : Bool} {c : UInt8} {rest : Bytes} (sane : s.Sane)
    (step : InStep s (skip + 1) single (c :: rest)) : InStep (scanStep s c) skip single rest := by
  obtain ⟨quote, escaped⟩ := s
  cases escaped with
  | true =>
    cases Nat.succ.inj (step.escaped rfl)
    exact ⟨step.quoted, nofun, fun _ => by simp⟩
  | false =>
    have plain := step.plain rfl
    rw [List.take_succ_cons] at plain
    obtain ⟨here, later⟩ := List.forall_mem_cons.mp plain
    rw [scanStep_plain sane rfl here]
    exact ⟨step.quoted, nofun, fun _ => later⟩

theorem scanStep_other {quote : Option UInt8} {c : UInt8} (sane : Scan.Sane ⟨quote, false⟩) (single : c ≠ 39) (backslash : c ≠ 92) :
    (scanStep ⟨quote, false⟩ c).escaped = false ∧ ((scanStep ⟨quote, false⟩ c).quote = some 39 ↔ quote = some 39) := by
  have plain : (c == 92) = false := beq_eq_false_iff_ne.mpr backslash
  rcases sane with none_ | double | single_
  · cases none_
    by_cases opens : c = 34
    · simp [scanStep, opens]
    · simp [scanStep, opens, single, plain]
  · cases double
    by_cases closes : c = 34
    · simp [scanStep, closes]
    · simp [scanStep, closes, plain]
  · cases single_
    simp [scanStep, single]

theorem scanStep_single {quote : Option UInt8} (sane : Scan.Sane ⟨quote, false⟩) (outside : quote ≠ some 34) :
    (scanStep ⟨quote, false⟩ 39).escaped = false ∧ ((scanStep ⟨quote, false⟩ 39).quote = some 39 ↔ ¬ quote = some 39) := by
  rcases sane with none_ | double | single
  · cases none_
    decide
  · exact absurd double outside
  · cases single
    decide

theorem markOf_outside {quote : Option UInt8} (c : UInt8) (outside : quote ≠ some 39) :
    markOf ⟨quote, false⟩ c ≠ .single ∧ markOf ⟨quote, false⟩ c ≠ .escaped := by
  cases quote with
  | none => exact ⟨nofun, nofun⟩
  | some q =>
    have other : q ≠ 39 := fun same => outside (congrArg some same)
    simp only [markOf, if_neg other]
    split
    · exact ⟨nofun, nofun⟩
    · exact ⟨nofun, nofun⟩

theorem expandEvents_calm {s : Scan} (sane : s.Sane) {skip : Nat} {single start : Bool} {text : Bytes} (step : InStep s skip single text)
    (calm : CalmMarks (annotateFrom s text)) :
    ∀ m, Event.expanded m ∈ expandEvents sh pid skip single start (annotateFrom s text) → m ≠ .single ∧ m ≠ .escaped := by
  induction text generalizing s skip single start with
  | nil =>
    intro m member
    cases skip <;> cases member
  | cons c rest ih =>
    intro m member
    have sane' := scanStep_sane sane c
    have later := calm.tail
    cases skip with
    | succ skip => exact ih sane' (step.skipped_ sane) later m member
    | zero =>
      have free : s.escaped = false := by
        by_contra on
        exact absurd (step.escaped (Bool.not_eq_false _ ▸ on)) (by decide)
      have quoted := step.quoted
      obtain ⟨quote, escaped⟩ := s
      cases free
      -- nothing is skipped next
      have fresh {single' : Bool} (same : single' = decide ((scanStep ⟨quote, false⟩ c).quote = some 39))
          (free : (scanStep ⟨quote, false⟩ c).escaped = false) : InStep (scanStep ⟨quote, false⟩ c) 0 single' rest :=
        ⟨same, fun on => absurd (free.symm.trans on) (by decide), fun _ => by simp⟩
      rw [annotateFrom, expandEvents] at member
      split at member
      · rename_i here
        subst here
        have outside : quote ≠ some 34 := by
          rintro rfl
          exact (calm.head (by decide)).2.2.2.2 (by decide) rfl
        obtain ⟨free, flips⟩ := scanStep_single sane outside
        rcases List.mem_cons.mp member with impossible | member
        · cases impossible
        · exact ih sane' (fresh (by simp [quoted, flips]) free) later m member
      rename_i other
      split at member
      · rename_i inside
        have here : quote = some 39 := by
          rw [quoted] at inside
          exact of_decide_eq_true inside
        subst here
        have stays : scanStep ⟨some 39, false⟩ c = ⟨some 39, false⟩ := by simp [scanStep, other]
        rcases List.mem_cons.mp member with impossible | member
        · cases impossible
        · exact ih sane' (fresh (by rw [stays]; exact quoted) (by rw [stays])) later m member
      rename_i off
      have outside : quote ≠ some 39 := by
        intro here
        rw [quoted, here] at off
        exact off rfl
      have single_ : single = false := Bool.eq_false_iff.mpr off
      split at member
      · rename_i escapes
        obtain ⟨rfl, -⟩ := escapes
        have next : scanStep ⟨quote, false⟩ 92 = ⟨quote, true⟩ := by
          rcases sane with none_ | double | impossible
          · cases none_
            rfl
          · cases double
            rfl
          · exact absurd impossible outside
        rw [List.cons_append] at member
        rcases List.mem_cons.mp member with impossible | member
        · cases impossible
        rcases List.mem_append.mp member with impossible | member
        · obtain ⟨next, -, same⟩ := List.mem_map.mp impossible
          cases same
        · refine ih sane' ⟨?_, fun _ => rfl, fun free => ?_⟩ later m member
          · rw [next]
            exact quoted
          · rw [next] at free
            cases free
      rename_i noEscape
      by_cases last : c = 92
      · -- a backslash at the end of the text
        have empty : rest = [] := by
          by_contra more
          apply noEscape
          refine ⟨last, ?_⟩
          cases rest with
          | nil => exact absurd rfl more
          | cons d rest => exact List.cons_ne_nil _ _
        subst last empty
        rw [if_neg (by simp), if_pos (by decide)] at member
        rcases List.mem_cons.mp member with impossible | impossible
        · cases impossible
        · cases impossible
      obtain ⟨free, keeps⟩ := scanStep_other sane other last
      have next : InStep (scanStep ⟨quote, false⟩ c) 0 single rest := fresh (by simp [quoted, keeps]) free
      have copied (member : Event.expanded m ∈ Event.copied c (markOf ⟨quote, false⟩ c) ::
          expandEvents sh pid 0 single (isSpace c) (annotateFrom (scanStep ⟨quote, false⟩ c) rest)) : m ≠ .single ∧ m ≠ .escaped := by
        rcases List.mem_cons.mp member with impossible | member
        · cases impossible
        · exact ih sane' next later m member
      have started {text : Bytes} {events : List Event} (quiet : Event.expanded m ∈ events → m ≠ .single ∧ m ≠ .escaped)
          (member : Event.expanded m ∈ Event.expanded (markOf ⟨quote, false⟩ c) :: text.map Event.inserted ++ events) :
          m ≠ .single ∧ m ≠ .escaped := by
        rw [List.cons_append] at member
        rcases List.mem_cons.mp member with here | member
        · cases here
          exact markOf_outside c outside
        rcases List.mem_append.mp member with impossible | member
        · obtain ⟨d, -, same⟩ := List.mem_map.mp impossible
          cases same
        · exact quiet member
      split at member
      · exact started (ih sane' next later m) member
      · split at member
        · exact copied member
        · split at member
          · exact copied member
          · rename_i text used found
            rw [annotateFrom_fst] at found
            refine started (ih sane' ⟨next.quoted, ?_, fun _ => dollar_plain found⟩ later m) member
            intro on
            rw [free] at on
            cases on

end Expanding

section Values
variable {sh : Shell} {pid : Int} {line part : Bytes}

/-- No variable that is named behind a dollar, or that a tilde stands for, has a < or > in its value. -/
def ValuesCalm (sh : Shell) (line : Bytes) : Prop :=
  ∀ v ∈ sh.vars, 60 ∈ v.value ∨ 62 ∈ v.value →
    ¬ (36 :: v.name) <:+: line ∧ ¬ (36 :: 123 :: v.name) <:+: line ∧ (v.name = ascii "HOME" → 126 ∉ line)

theorem ValuesCalm.infix_ (values : ValuesCalm sh line) (inside : part <:+: line) : ValuesCalm sh part := by
  intro v member arrows
  obtain ⟨plain, braced, home⟩ := values v member arrows
  exact ⟨fun there => plain (there.trans inside), fun there => braced (there.trans inside),
    fun named there => home named (inside.subset there)⟩

theorem toDigits_plain (n : Nat) : ∀ c ∈ Nat.toDigits 10 n, UInt8.ofNat c.toNat ≠ 60 ∧ UInt8.ofNat c.toNat ≠ 62 := by
  intro c member
  have digit := Nat.isDigit_of_mem_toDigits (by decide) (by decide) member
  simp only [Char.isDigit, Bool.and_eq_true, decide_eq_true_eq] at digit
  have low : 48 ≤ c.toNat := digit.1
  have high : c.toNat ≤ 57 := digit.2
  constructor
  · intro same
    have value := congrArg UInt8.toNat same
    rw [UInt8.toNat_ofNat'] at value
    change c.toNat % 256 = 60 at value
    omega
  · intro same
    have value := congrArg UInt8.toNat same
    rw [UInt8.toNat_ofNat'] at value
    change c.toNat % 256 = 62 at value
    omega

theorem ascii_number (n : Int) : 60 ∉ ascii (toString n) ∧ 62 ∉ ascii (toString n) := by
  have digits (n : Nat) : ∀ c ∈ ascii (toString n), c ≠ 60 ∧ c ≠ 62 := by
    intro c member
    obtain ⟨d, inside, rfl⟩ := List.mem_map.mp member
    rw [Nat.toString_eq_repr, Nat.toList_repr] at inside
    exact toDigits_plain n d inside
  have all : ∀ c ∈ ascii (toString n), c ≠ 60 ∧ c ≠ 62 := by
    cases n with
    | ofNat n => exact digits n
    | negSucc n =>
      have whole : ascii (toString (Int.negSucc n)) = 45 :: ascii (toString (n + 1)) := by
        have text : toString (Int.negSucc n) = "-" ++ toString (n + 1) := rfl
        rw [ascii, text, String.toList_append, List.map_append]
        rfl
      rw [whole]
      intro c member
      rcases List.mem_cons.mp member with rfl | later
      · decide
      · exact digits (n + 1) c later
  exact ⟨fun there => (all 60 there).1 rfl, fun there => (all 62 there).2 rfl⟩

theorem shellGetVar_mem {name value : Bytes} (found : shellGetVar sh name = some value) :
    ∃ v ∈ sh.vars, v.name = name ∧ v.value = value := by
  obtain ⟨v, search, rfl⟩ := Option.map_eq_some_iff.mp found
  refine ⟨v, List.mem_of_find?_eq_some search, ?_, rfl⟩
  have same := List.find?_some search
  exact beq_iff_eq.mp same

theorem dollar_value {rest text : Bytes} {used : Nat} (found : dollar sh pid rest = some (text, used)) :
    (60 ∉ text ∧ 62 ∉ text) ∨ ∃ v ∈ sh.vars, v.value = text ∧ (v.name <+: rest ∨ (123 :: v.name) <+: rest) := by
  have front (start : Bytes) : (start.takeWhile isNameChar).take (shellNameMax - 1) <+: start :=
    (List.take_prefix _ _).trans (List.takeWhile_prefix _)
  have value (name : Bytes) (prefix_ : name <+: rest ∨ (123 :: name) <+: rest) (same : (shellGetVar sh name).getD [] = text) :
      (60 ∉ text ∧ 62 ∉ text) ∨ ∃ v ∈ sh.vars, v.value = text ∧ (v.name <+: rest ∨ (123 :: v.name) <+: rest) := by
    cases search : shellGetVar sh name with
    | none =>
      rw [search] at same
      subst same
      exact .inl ⟨List.not_mem_nil, List.not_mem_nil⟩
    | some there =>
      rw [search] at same
      obtain ⟨v, member, named, holds⟩ := shellGetVar_mem search
      exact .inr ⟨v, member, holds.trans same, by rw [named]; exact prefix_⟩
  unfold dollar at found
  split at found
  · cases found
    exact .inl (ascii_number _)
  · split at found
    · cases found
      exact .inl (ascii_number _)
    · by_cases braced : rest.head? = some 123
      · obtain ⟨back, rfl⟩ := List.head?_eq_some_iff.mp braced
        simp only [List.head?_cons, if_true, List.tail_cons, true_and] at found
        split at found
        · cases found
        · split at found
          · cases found
          · obtain ⟨same, -⟩ := Prod.mk.inj (Option.some.inj found)
            exact value _ (.inr ((List.prefix_cons_inj 123).mpr (front back))) same
      · simp only [if_neg braced] at found
        split at found
        · cases found
        · split at found
          · cases found
          · obtain ⟨same, -⟩ := Prod.mk.inj (Option.some.inj found)
            exact value _ (.inl (front rest)) same

theorem expandEvents_arrows {skip : Nat} {single start : Bool} {marks : List (UInt8 × Mark)} (calm : CalmMarks marks)
    (values : ValuesCalm sh (marks.map Prod.fst)) :
    ∀ e ∈ (expandEvents sh pid skip single start marks).filterMap Event.output, e.1 = 60 ∨ e.1 = 62 → e.2 = some .bare := by
  induction marks generalizing skip single start with
  | nil =>
    intro e member
    cases skip <;> cases member
  | cons x rest ih =>
    obtain ⟨c, m⟩ := x
    intro e member arrow
    have later := calm.tail
    have behind : ValuesCalm sh (rest.map Prod.fst) := values.infix_ ⟨[c], [], by simp⟩
    have bare {c : UInt8} {m : Mark} {rest : List (UInt8 × Mark)} (calm : CalmMarks ((c, m) :: rest)) (arrow : c = 60 ∨ c = 62) :
        m = .bare := by
      by_contra protected_
      obtain ⟨less, greater, -⟩ := calm.head protected_
      exact arrow.elim less greater
    have copied {events : List Event} (quiet : e ∈ events.filterMap Event.output → e.2 = some .bare)
        (member : e ∈ (Event.copied c m :: events).filterMap Event.output) : e.2 = some .bare := by
      rw [List.filterMap_cons] at member
      rcases List.mem_cons.mp member with here | member
      · rw [here] at arrow ⊢
        exact congrArg some (bare calm arrow)
      · exact quiet member
    have inserted {text : Bytes} {events : List Event} (plain : 60 ∉ text ∧ 62 ∉ text)
        (quiet : e ∈ events.filterMap Event.output → e.2 = some .bare)
        (member : e ∈ (Event.expanded m :: text.map Event.inserted ++ events).filterMap Event.output) : e.2 = some .bare := by
      rw [List.cons_append, List.filterMap_cons] at member
      simp only [Event.output, List.filterMap_append] at member
      rcases List.mem_append.mp member with here | member
      · obtain ⟨event, there, same⟩ := List.mem_filterMap.mp here
        obtain ⟨d, inside, rfl⟩ := List.mem_map.mp there
        cases same
        rcases arrow with less | greater
        · cases less
          exact absurd inside plain.1
        · cases greater
          exact absurd inside plain.2
      · exact quiet member
    have calmValue (v : ShellVar) (there : v ∈ sh.vars) (stands : (36 :: v.name) <:+: ((c, m) :: rest).map Prod.fst ∨
        (36 :: 123 :: v.name) <:+: ((c, m) :: rest).map Prod.fst ∨ v.name = ascii "HOME" ∧ 126 ∈ ((c, m) :: rest).map Prod.fst) :
        60 ∉ v.value ∧ 62 ∉ v.value := by
      by_contra arrows
      have either : 60 ∈ v.value ∨ 62 ∈ v.value := by
        by_contra none_
        exact arrows (not_or.mp none_)
      obtain ⟨plain, braced, home⟩ := values v there either
      rcases stands with first | second | ⟨named, tilde⟩
      · exact plain first
      · exact braced second
      · exact home named tilde
    cases skip with
    | succ skip => exact ih later behind e member arrow
    | zero =>
      unfold expandEvents at member
      split at member
      · exact copied (fun member => ih later behind e member arrow) member
      split at member
      · exact copied (fun member => ih later behind e member arrow) member
      split at member
      · rw [List.cons_append] at member
        refine copied (fun member => ?_) member
        rw [List.filterMap_append] at member
        rcases List.mem_append.mp member with here | member
        · obtain ⟨event, there, same⟩ := List.mem_filterMap.mp here
          obtain ⟨next, inside, rfl⟩ := List.mem_map.mp there
          cases same
          cases rest with
          | nil => cases inside
          | cons first others =>
            cases List.mem_singleton.mp inside
            exact congrArg some (bare later arrow)
        · exact ih later behind e member arrow
      split at member
      · rename_i tilde
        refine inserted ?_ (fun member => ih later behind e member arrow) member
        obtain ⟨home, found⟩ := Option.isSome_iff_exists.mp tilde.2.2.2
        obtain ⟨v, there, named, holds⟩ := shellGetVar_mem found
        rw [found, Option.getD_some, ← holds]
        apply calmValue v there
        refine .inr (.inr ⟨named, ?_⟩)
        rw [List.map_cons, tilde.1]
        exact List.mem_cons_self
      split at member
      · exact copied (fun member => ih later behind e member arrow) member
      rename_i dollar_
      rw [not_not] at dollar_
      split at member
      · exact copied (fun member => ih later behind e member arrow) member
      · rename_i text used found
        refine inserted ?_ (fun member => ih later behind e member arrow) member
        rcases dollar_value found with plain | ⟨v, there, holds, place⟩
        · exact plain
        · rw [← holds]
          apply calmValue v there
          rw [List.map_cons, dollar_]
          rcases place with first | second
          · exact .inl ((List.prefix_cons_inj 36).mpr first).isInfix
          · exact .inr (.inl ((List.prefix_cons_inj 36).mpr second).isInfix)

end Values

section Uniform
variable (sh : Shell) (pid : Int)

/-- No expansion of a stage starts in single quotes or behind a backslash, and where a redirection is found
there is a bare arrow of the line. -/
structure StageRespected (text : Bytes) : Prop where
  expansions : ∀ m, Event.expanded m ∈ expandEvents sh pid 0 false true (annotate text) → m ≠ .single ∧ m ≠ .escaped
  output : ∀ arrow, arrowAt (shellExpand sh pid text) = some arrow → (expandedMarks sh pid text)[arrow.1]? = some (62, some .bare)
  input : ∀ i, ((shellExpand sh pid text).take (((arrowAt (shellExpand sh pid text)).map Prod.fst).getD shellLineMax)).findIdx?
    (· == 60) = some i → (expandedMarks sh pid text)[i]? = some (60, some .bare)

/-- Statements, chains and pipelines are cut at bare operators, and the same for what they are cut into. -/
def Respected : Nat → Bytes → Prop
  | 0, _ => True
  | room + 1, line => CutsBare 59 (line.dropWhile isSpace) ∧ ∀ text ∈ parts 59 (line.dropWhile isSpace),
    (∀ useAnd i, chainAt text = some (useAnd, i) →
      annotate text = annotate (text.take i) ++ ((operator useAnd).map (·, Mark.bare) ++ annotate (text.drop (i + 2))) ∧
      Respected room (text.take i) ∧ Respected room (text.drop (i + 2))) ∧
    (chainAt text = none → CutsBare 124 text ∧ ∀ stage ∈ parts 124 text, StageRespected sh pid stage)

variable {sh pid}

theorem stage_respected {text : Bytes} (calm : Calm text) (values : ValuesCalm sh text) : StageRespected sh pid text := by
  have arrows : ∀ e ∈ expandedMarks sh pid text, e.1 = 60 ∨ e.1 = 62 → e.2 = some .bare := by
    intro e member
    apply expandEvents_arrows calm _ e (List.mem_of_mem_take member)
    rw [annotate, annotateFrom_fst]
    exact values
  have place {i : Nat} {c : UInt8} (there : (shellExpand sh pid text)[i]? = some c) (arrow : c = 60 ∨ c = 62) :
      (expandedMarks sh pid text)[i]? = some (c, some .bare) := by
    rw [← expandedMarks_text, List.getElem?_map] at there
    obtain ⟨e, here, rfl⟩ := Option.map_eq_some_iff.mp there
    rw [here, ← arrows e (List.mem_of_getElem? here) arrow]
  refine ⟨expandEvents_calm start_sane ⟨rfl, nofun, fun _ => by simp⟩ calm, ?_, ?_⟩
  · intro arrow found
    apply place _ (.inr rfl)
    unfold arrowAt at found
    split at found
    · rename_i i twice
      cases found
      have split := strstr_spec twice
      have bound := strstr_bound twice
      rw [List.length_cons] at bound
      rw [split, List.getElem?_append_right (by rw [List.length_take]; omega), List.length_take, Nat.min_eq_left (by omega), Nat.sub_self]
      rfl
    · obtain ⟨i, single, rfl⟩ := Option.map_eq_some_iff.mp found
      obtain ⟨inside, here, -⟩ := List.findIdx?_eq_some_iff_getElem.mp single
      rw [List.getElem?_eq_getElem inside, beq_iff_eq.mp here]
  · intro i found
    apply place _ (.inl rfl)
    obtain ⟨inside, here, -⟩ := List.findIdx?_eq_some_iff_getElem.mp found
    have less := beq_iff_eq.mp here
    rw [List.getElem_take] at less
    rw [List.length_take] at inside
    rw [List.getElem?_eq_getElem (by omega), less]

theorem part_inside {separator : UInt8} {line part : Bytes} (calm : Calm line) (which : separator = 59 ∨ separator = 124)
    (member : part ∈ parts separator line) : part <:+: line := by
  obtain ⟨before, after, whole⟩ := intercalate_infix [(separator, Mark.bare)] (List.mem_map_of_mem (f := annotate) member)
  have text := congrArg (List.map Prod.fst) ((calm.cuts which).trans whole)
  rw [List.map_append, List.map_append, annotate, annotate, annotateFrom_fst, annotateFrom_fst] at text
  exact ⟨_, _, text.symm⟩

theorem Calm.trim {line : Bytes} (calm : Calm line) : Calm (line.dropWhile isSpace) := by
  have blank := blank_takeWhile line
  have stays : scanAfter .start (line.takeWhile isSpace) = .start := by
    generalize line.takeWhile isSpace = front at blank
    induction front with
    | nil => rfl
    | cons c rest ih =>
      obtain ⟨here, later⟩ := List.forall_mem_cons.mp blank
      obtain ⟨double, single, -, -, -, -, -, backslash, -⟩ := isSpace_plain here
      rw [scanAfter, List.foldl_cons, scanStep_plain start_sane rfl ⟨double, single, backslash⟩]
      exact ih later
  have split : annotate line = annotate (line.takeWhile isSpace) ++ annotate (line.dropWhile isSpace) := by
    conv_lhs => rw [← List.takeWhile_append_dropWhile (p := isSpace) (l := line)]
    rw [annotate, annotateFrom_append, stays]
    rfl
  exact CalmMarks.infix_ calm _ [] (by rw [split, List.append_nil])

end Uniform

section Samples

/-- Whether the marks are calm, one after another. -/
def calmCheck : List (UInt8 × Mark) → Bool
  | [] => true
  | (c, m) :: rest =>
    (m == .bare || (c != 60 && c != 62 && !((c == 38 || c == 124) && rest.head?.map Prod.fst == some c) &&
      (m != .escaped || (c != 34 && c != 39 && c != 59 && c != 124)) && (m != .double || c != 39))) && calmCheck rest

theorem calm_of_check {marks : List (UInt8 × Mark)} (check : calmCheck marks = true) : CalmMarks marks := by
  intro front
  induction front generalizing marks with
  | nil =>
    rintro c m rest rfl protected_
    rw [List.nil_append, calmCheck] at check
    simp only [Bool.and_eq_true, Bool.or_eq_true, bne_iff_ne, beq_iff_eq, Bool.not_eq_true', Bool.and_eq_false_iff,
      Bool.or_eq_false_iff, beq_eq_false_iff_ne] at check
    grind
  | cons x front ih =>
    rintro c m rest rfl protected_
    rw [List.cons_append, calmCheck, Bool.and_eq_true] at check
    exact ih check.2 c m rest rfl protected_

end Samples

end Qito.Shells
