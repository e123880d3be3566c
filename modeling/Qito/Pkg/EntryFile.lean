import Qito.Pkg.Grammar

/-! The whole entry.var: what qtpkg_parse_entry_file returns against what the lines
of the text say. -/
namespace Qito.Pkg

def linesOf (content : Bytes) : List Bytes := (cstr content).splitOn 10

def Good (line : Bytes) : Prop := ∃ e, Documented line e

/-- The entries that lines of the syntax make, with the numbers of their lines. -/
inductive Listed : Nat → List Bytes → List Entry → Prop where
  | done {n : Nat} : Listed n [] []
  | nothing {n : Nat} {line : Bytes} {lines : List Bytes} {entries : List Entry} (documented : Documented line none)
    (rest : Listed (n + 1) lines entries) : Listed n (line :: lines) entries
  | entry {n : Nat} {line : Bytes} {lines : List Bytes} {entries : List Entry} {e : Entry}
    (documented : Documented line (some (e.name, e.versions))) (number : e.line = n) (rest : Listed (n + 1) lines entries) :
    Listed n (line :: lines) (e :: entries)

/-- A text of the syntax gives its entries, any other the number of its first bad line. -/
structure Exact (content : Bytes) (maxEntries : Nat) : Prop where
  accepts : ∀ entries, Listed 1 (linesOf content) entries → qtpkgParseEntryFile content maxEntries = .ok entries
  rejects : ∀ before bad after, linesOf content = before ++ bad :: after → (∀ line ∈ before, Good line) → ¬ Good bad →
    ∃ complaint, qtpkgParseEntryFile content maxEntries = .error ⟨before.length + 1, complaint⟩

/-- The entries before the first bad line fit the table, and their fields the buffers. -/
def Within (content : Bytes) (maxEntries : Nat) : Prop :=
  ∀ before after entries, linesOf content = before ++ after → Listed 1 before entries →
    entries.length ≤ maxEntries ∧ ∀ e ∈ entries, Fitting e.name e.versions

/-- No line up to the first bad one is longer than line_buf. -/
def Short (content : Bytes) : Prop :=
  ∀ before line after, linesOf content = before ++ line :: after → (∀ l ∈ before, Good l) → line.length ≤ 1023

/-- A line with a name, an = and a semicolon behind it. -/
def Headed (line : Bytes) : Prop := ∃ (h : Heading) (rest : Bytes), h.Sound ∧ line = h.text ++ rest ∧ 59 ∈ rest

/-- No line up to the first bad one is stray, and if the table is full there that line has
no heading with a semicolon. -/
def Plain (content : Bytes) (maxEntries : Nat) : Prop :=
  ∀ before line after, linesOf content = before ++ line :: after → (∀ l ∈ before, Good l) →
    ¬ Stray line ∧ (¬ Good line → ∀ entries, Listed 1 before entries → entries.length = maxEntries → ¬ Headed line)

section Rounds
variable {maxEntries fuel n : Nat} {text line rest : Bytes} {acc : List Entry}

theorem takeLine_newline (whole : 10 ∉ line) (short : line.length ≤ n) (rest : Bytes) : takeLine n (line ++ 10 :: rest) = (line, rest) := by
  induction line generalizing n with
  | nil =>
    cases n with
    | zero => rfl
    | succ n => rfl
  | cons c line ih =>
    obtain ⟨other, whole⟩ := List.ne_and_not_mem_of_not_mem_cons whole
    obtain ⟨n, rfl⟩ : ∃ m, n = m + 1 := ⟨n - 1, by rw [List.length_cons] at short; omega⟩
    rw [List.length_cons] at short
    rw [List.cons_append, takeLine, if_neg (Ne.symm other), ih whole (by omega)]

theorem takeLine_last (whole : 10 ∉ line) (short : line.length ≤ n) : takeLine n line = (line, []) := by
  induction line generalizing n with
  | nil =>
    cases n with
    | zero => rfl
    | succ n => rfl
  | cons c line ih =>
    obtain ⟨other, whole⟩ := List.ne_and_not_mem_of_not_mem_cons whole
    obtain ⟨n, rfl⟩ : ∃ m, n = m + 1 := ⟨n - 1, by rw [List.length_cons] at short; omega⟩
    rw [List.length_cons] at short
    rw [takeLine, if_neg (Ne.symm other), ih whole (by omega)]

theorem parseFrom_nothing (some_ : text ≠ []) (taken : takeLine 1023 text = (line, rest)) (head : parseHead n line = .ok none) :
    parseFrom maxEntries (fuel + 1) text n acc = parseFrom maxEntries fuel rest (n + 1) acc := by
  obtain ⟨c, cs, rfl⟩ := List.exists_cons_of_ne_nil some_
  rw [parseFrom, taken]
  dsimp only
  rw [head]
  rfl

theorem parseFrom_full (some_ : text ≠ []) (taken : takeLine 1023 text = (line, rest))
    {found : { name : Bytes // ∀ c ∈ name, nameChar c = true } × Bytes} (head : parseHead n line = .ok (some found))
    (full : maxEntries ≤ acc.length) : parseFrom maxEntries (fuel + 1) text n acc = .ok acc := by
  obtain ⟨c, cs, rfl⟩ := List.exists_cons_of_ne_nil some_
  rw [parseFrom, taken]
  dsimp only
  rw [head]
  exact if_pos full

theorem parseFrom_body (some_ : text ≠ []) (taken : takeLine 1023 text = (line, rest))
    {name : { name : Bytes // ∀ c ∈ name, nameChar c = true }} {body : Bytes} (head : parseHead n line = .ok (some (name, body)))
    (room : acc.length < maxEntries) : ∃ result : Except ParseError (List Version),
      parseLine n line = result.map (fun vs => some (name.1, vs)) ∧
      parseFrom maxEntries (fuel + 1) text n acc = result.bind fun vs => parseFrom maxEntries fuel rest (n + 1) (acc ++
        [⟨strlcpy name.1 64, vs, n, fun c member => name.2 c (List.mem_of_mem_take member)⟩]) := by
  obtain ⟨c, cs, rfl⟩ := List.exists_cons_of_ne_nil some_
  rw [parseFrom, taken, parseLine]
  dsimp only
  rw [head]
  by_cases nothing : body = [] ∨ body.head? = some 35
  · refine ⟨.ok [], ?_, ?_⟩
    · exact (if_pos nothing).trans rfl
    · refine (if_neg (Nat.not_le.mpr room)).trans ?_
      exact (if_pos nothing).trans rfl
  · refine ⟨parseVersions n name.1 (body.length + 1) body [], ?_, ?_⟩
    · refine (if_neg nothing).trans ?_
      cases parseVersions n name.1 (body.length + 1) body [] with
      | error e => rfl
      | ok vs => rfl
    · refine (if_neg (Nat.not_le.mpr room)).trans ?_
      exact (if_neg nothing).trans rfl

theorem parseFrom_entry (some_ : text ≠ []) (taken : takeLine 1023 text = (line, rest)) {name : Bytes} {vs : List Version}
    (parsed : parseLine n line = .ok (some (name, vs))) (room : acc.length < maxEntries) :
    ∃ e : Entry, e.name = strlcpy name 64 ∧ e.versions = vs ∧ e.line = n ∧
      parseFrom maxEntries (fuel + 1) text n acc = parseFrom maxEntries fuel rest (n + 1) (acc ++ [e]) := by
  cases head : parseHead n line with
  | error e =>
    rw [parseLine, head] at parsed
    cases parsed
  | ok found =>
    cases found with
    | none =>
      rw [parseLine, head] at parsed
      cases parsed
    | some pair =>
      obtain ⟨result, is, round⟩ := @parseFrom_body maxEntries fuel n text line rest acc some_ taken pair.1 pair.2 head room
      rw [is] at parsed
      cases result with
      | error e => cases parsed
      | ok vs' =>
        cases parsed
        exact ⟨_, rfl, rfl, rfl, round⟩

theorem parseFrom_fails (some_ : text ≠ []) (taken : takeLine 1023 text = (line, rest)) {e : ParseError}
    (failed : parseLine n line = .error e) (seen : acc.length < maxEntries ∨ ∀ found, parseHead n line ≠ .ok (some found)) :
    parseFrom maxEntries (fuel + 1) text n acc = .error e := by
  cases head : parseHead n line with
  | error e' =>
    rw [parseLine, head] at failed
    cases failed
    obtain ⟨c, cs, rfl⟩ := List.exists_cons_of_ne_nil some_
    rw [parseFrom, taken]
    dsimp only
    rw [head]
    rfl
  | ok found =>
    cases found with
    | none =>
      rw [parseLine, head] at failed
      cases failed
    | some pair =>
      rcases seen with room | unseen
      · obtain ⟨result, is, round⟩ := @parseFrom_body maxEntries fuel n text line rest acc some_ taken pair.1 pair.2 head room
        rw [is] at failed
        cases result with
        | error e' =>
          cases failed
          exact round
        | ok vs => cases failed
      · exact absurd head (unseen pair)

theorem parseFrom_line {e : ParseError} (failed : parseFrom maxEntries fuel text n acc = .error e) : n ≤ e.line := by
  induction fuel generalizing text n acc with
  | zero => cases failed
  | succ fuel ih =>
    by_cases some_ : text = []
    · subst some_
      cases failed
    · have taken : takeLine 1023 text = ((takeLine 1023 text).1, (takeLine 1023 text).2) := rfl
      cases parsed : parseLine n (takeLine 1023 text).1 with
      | error e' =>
        have number := parseLine_error parsed
        by_cases seen : acc.length < maxEntries ∨ ∀ found, parseHead n (takeLine 1023 text).1 ≠ .ok (some found)
        · rw [parseFrom_fails some_ taken parsed seen] at failed
          cases failed
          exact Nat.le_of_eq number.symm
        · obtain ⟨full, head⟩ := not_or.mp seen
          obtain ⟨found, head⟩ := not_forall_not.mp head
          rw [parseFrom_full some_ taken head (Nat.le_of_not_lt full)] at failed
          cases failed
      | ok found =>
        cases head : parseHead n (takeLine 1023 text).1 with
        | error e' =>
          rw [parseLine, head] at parsed
          cases parsed
        | ok pair =>
          cases pair with
          | none =>
            rw [parseFrom_nothing some_ taken head] at failed
            exact Nat.le_of_succ_le (ih failed)
          | some pair =>
            by_cases room : acc.length < maxEntries
            · obtain ⟨result, is, round⟩ := @parseFrom_body maxEntries fuel n text _ _ acc some_ taken pair.1 pair.2 head room
              rw [is] at parsed
              rw [round] at failed
              cases result with
              | error e' => cases parsed
              | ok vs => exact Nat.le_of_succ_le (ih failed)
            · rw [parseFrom_full some_ taken head (Nat.le_of_not_lt room)] at failed
              cases failed

end Rounds

section Lists
variable {n : Nat} {lines : List Bytes} {entries : List Entry}

theorem Documented.named {line name : Bytes} {versions : List Version} (documented : Documented line (some (name, versions))) :
    ∀ c ∈ name, nameChar c = true := by
  cases documented with
  | bare sound _ => exact sound.name.chars
  | entry sound _ _ _ => exact sound.name.chars

theorem Documented.empty {e : Option (Bytes × List Version)} (documented : Documented [] e) : e = none := by
  generalize shape : ([] : Bytes) = line at documented
  cases documented with
  | nothing _ => rfl
  | bare _ _ => simp at shape
  | entry _ _ _ _ => simp at shape

theorem Listed.good (listed : Listed n lines entries) : ∀ line ∈ lines, Good line := by
  induction listed with
  | done => simp
  | nothing documented _ ih => exact List.forall_mem_cons.mpr ⟨⟨_, documented⟩, ih⟩
  | entry documented _ _ ih => exact List.forall_mem_cons.mpr ⟨⟨_, documented⟩, ih⟩

theorem listed_exists (good : ∀ line ∈ lines, Good line) (n : Nat) : ∃ entries, Listed n lines entries := by
  induction lines generalizing n with
  | nil => exact ⟨[], .done⟩
  | cons line lines ih =>
    obtain ⟨⟨e, documented⟩, good⟩ := List.forall_mem_cons.mp good
    obtain ⟨entries, rest⟩ := ih good (n + 1)
    cases e with
    | none => exact ⟨entries, .nothing documented rest⟩
    | some pair => exact ⟨⟨pair.1, pair.2, n, documented.named⟩ :: entries, .entry documented rfl rest⟩

theorem Listed.snoc (listed : Listed n lines entries) {line : Bytes} {e : Entry}
    (documented : Documented line (some (e.name, e.versions))) (number : e.line = n + lines.length) :
    Listed n (lines ++ [line]) (entries ++ [e]) := by
  induction listed with
  | done => exact .entry documented number .done
  | nothing here _ ih => exact .nothing here (ih (by rw [number, List.length_cons]; omega))
  | entry here at_ _ ih => exact .entry here at_ (ih (by rw [number, List.length_cons]; omega))

theorem first_bad (lines : List Bytes) : (∀ line ∈ lines, Good line) ∨
    ∃ before bad after, lines = before ++ bad :: after ∧ (∀ line ∈ before, Good line) ∧ ¬ Good bad := by
  induction lines with
  | nil => exact .inl (by simp)
  | cons line lines ih =>
    by_cases good : Good line
    · rcases ih with all | ⟨before, bad, after, rfl, goods, isBad⟩
      · exact .inl (List.forall_mem_cons.mpr ⟨good, all⟩)
      · exact .inr ⟨line :: before, bad, after, rfl, List.forall_mem_cons.mpr ⟨good, goods⟩, isBad⟩
    · exact .inr ⟨[], line, lines, rfl, by simp, good⟩

theorem lines_whole (text : Bytes) : ∀ line ∈ text.splitOn 10, 10 ∉ line := by
  induction text with
  | nil => simp
  | cons c text ih =>
    intro line member
    obtain ⟨first, others, split⟩ := List.exists_cons_of_ne_nil (List.splitOn_ne_nil 10 text)
    rw [List.splitOn_cons_eq_if_modifyHead] at member
    rw [split] at ih member
    by_cases newline : c = 10
    · rw [if_pos (by simp [newline])] at member
      rcases List.mem_cons.mp member with rfl | later
      · simp
      · exact ih line later
    · rw [if_neg (by simp [newline]), List.modifyHead_cons] at member
      rcases List.mem_cons.mp member with rfl | later
      · exact List.not_mem_cons_of_ne_of_not_mem (Ne.symm newline) (ih first List.mem_cons_self)
      · exact ih line (List.mem_cons_of_mem _ later)

theorem takeLine_first {line : Bytes} (whole : 10 ∉ line) (short : line.length ≤ 1023) (lines : List Bytes) :
    takeLine 1023 ([10].intercalate (line :: lines)) = (line, [10].intercalate lines) := by
  cases lines with
  | nil =>
    rw [List.intercalate_singleton]
    exact takeLine_last whole short
  | cons next lines =>
    rw [List.intercalate_cons_cons, List.append_assoc]
    exact takeLine_newline whole short _

theorem text_some_of_line {line : Bytes} (some_ : line ≠ []) (lines : List Bytes) : [10].intercalate (line :: lines) ≠ [] := by
  obtain ⟨c, cs, rfl⟩ := List.exists_cons_of_ne_nil some_
  simp

theorem text_rest (line : Bytes) (lines : List Bytes) (some_ : [10].intercalate (line :: lines) ≠ []) :
    ([10].intercalate lines).length < ([10].intercalate (line :: lines)).length := by
  cases lines with
  | nil =>
    rw [List.intercalate_singleton] at some_ ⊢
    exact List.length_pos_of_ne_nil some_
  | cons next lines =>
    rw [List.intercalate_cons_cons, List.length_append, List.length_append, List.length_singleton]
    omega

end Lists

section Runs
variable {maxEntries fuel n : Nat} {lines before after : List Bytes} {entries acc : List Entry}

/-- A line that the loop can take whole and on which it does what the syntax says. -/
structure Tidy (line : Bytes) : Prop where
  whole : 10 ∉ line
  short : line.length ≤ 1023
  plain : ¬ Stray line

theorem parseFrom_empty (fuel n : Nat) (acc : List Entry) : parseFrom maxEntries fuel [] n acc = .ok acc := by
  cases fuel with
  | zero => rfl
  | succ fuel => rfl

/-- The lines of the syntax at the start of a text leave the loop behind them, with their entries. -/
theorem parseFrom_before (listed : Listed n before entries) (tidy : ∀ line ∈ before, Tidy line)
    (fits : ∀ e ∈ entries, Fitting e.name e.versions) (room : acc.length + entries.length ≤ maxEntries)
    (enough : ([10].intercalate (before ++ after)).length ≤ fuel) :
    ∃ fuel', ([10].intercalate after).length ≤ fuel' ∧ parseFrom maxEntries fuel ([10].intercalate (before ++ after)) n acc =
      parseFrom maxEntries fuel' ([10].intercalate after) (n + before.length) (acc ++ entries) := by
  induction listed generalizing fuel acc with
  | done => exact ⟨fuel, enough, by rw [List.append_nil]; rfl⟩
  | @nothing n line lines entries documented rest ih =>
    obtain ⟨here, tidy⟩ := List.forall_mem_cons.mp tidy
    rw [List.cons_append] at enough ⊢
    have number : n + (line :: lines).length = n + 1 + lines.length := by
      rw [List.length_cons]
      omega
    rw [number]
    by_cases some_ : [10].intercalate (line :: (lines ++ after)) = []
    · have nothing : [10].intercalate (lines ++ after) = [] := by
        cases both : lines ++ after with
        | nil => rfl
        | cons next others =>
          rw [both, List.intercalate_cons_cons] at some_
          simp at some_
      obtain ⟨fuel', enough', round⟩ := @ih fuel acc tidy fits room (by rw [nothing]; simp)
      refine ⟨fuel', enough', ?_⟩
      rw [← round, some_, nothing, parseFrom_empty, parseFrom_empty]
    · have shorter := text_rest line (lines ++ after) some_
      obtain ⟨fuel, rfl⟩ : ∃ m, fuel = m + 1 := ⟨fuel - 1, by omega⟩
      obtain ⟨fuel', enough', round⟩ := @ih fuel acc tidy fits room (by omega)
      refine ⟨fuel', enough', ?_⟩
      cases documented with
      | nothing trail => rw [parseFrom_nothing some_ (takeLine_first here.whole here.short _) (parseHead_trail trail n), round]
  | @entry n line lines entries e documented number rest ih =>
    obtain ⟨here, tidy⟩ := List.forall_mem_cons.mp tidy
    obtain ⟨fit, fits⟩ := List.forall_mem_cons.mp fits
    rw [List.length_cons] at room
    have parsed : parseLine n line = .ok (some (e.name, e.versions)) := by
      refine parseLine_documented documented here.plain (fun name versions same => ?_) n
      cases same
      exact fit
    have some_ : line ≠ [] := by
      rintro rfl
      cases documented.empty
    have text_ := text_some_of_line some_ (lines ++ after)
    have shorter := text_rest line (lines ++ after) text_
    rw [List.cons_append] at enough ⊢
    obtain ⟨fuel, rfl⟩ : ∃ m, fuel = m + 1 := ⟨fuel - 1, by omega⟩
    obtain ⟨e', name, versions, number', taken⟩ :=
      @parseFrom_entry maxEntries fuel n _ line _ acc text_ (takeLine_first here.whole here.short _) _ _ parsed (by omega)
    have same : e' = e := by
      obtain ⟨_, _, _, _⟩ := e
      obtain ⟨_, _, _, _⟩ := e'
      dsimp only at name versions number number' fit
      rw [strlcpy, List.take_of_length_le (by have := fit.name; omega)] at name
      subst name versions number number'
      rfl
    have more : (acc ++ [e]).length + entries.length ≤ maxEntries := by
      rw [List.length_append, List.length_singleton]
      omega
    obtain ⟨fuel', enough', round⟩ := @ih fuel (acc ++ [e]) tidy fits more (by omega)
    refine ⟨fuel', enough', ?_⟩
    rw [taken, same, round, List.append_assoc, List.length_cons, Nat.add_assoc, Nat.add_comm 1]
    rfl

theorem parse_before {content : Bytes} (within : Within content maxEntries) (split : linesOf content = before ++ after)
    (tidy : ∀ line ∈ before, Tidy line) (listed : Listed 1 before entries) :
    ∃ fuel, ([10].intercalate after).length ≤ fuel ∧
      qtpkgParseEntryFile content maxEntries = parseFrom maxEntries fuel ([10].intercalate after) (before.length + 1) entries := by
  obtain ⟨few, fits⟩ := within before after entries split listed
  have text : [10].intercalate (before ++ after) = cstr content := by
    rw [← split]
    exact List.intercalate_splitOn 10
  have enough : ([10].intercalate (before ++ after)).length ≤ (cstr content).length := Nat.le_of_eq (congrArg List.length text)
  obtain ⟨fuel, enough', round⟩ := @parseFrom_before maxEntries _ 1 before after entries [] listed tidy fits
    (by rw [List.length_nil, Nat.zero_add]; exact few) enough
  refine ⟨fuel, enough', ?_⟩
  rw [text, List.nil_append, Nat.add_comm 1] at round
  exact round

end Runs

section Files
variable {content : Bytes} {maxEntries : Nat} {before after : List Bytes} {line : Bytes} {entries : List Entry}

theorem line_whole (split : linesOf content = before ++ after) : ∀ line ∈ before ++ after, 10 ∉ line := by
  rw [← split]
  exact lines_whole _

theorem tidy_before (split : linesOf content = before ++ after) (good : ∀ l ∈ before, Good l) (short : Short content)
    (plain : ∀ early line late, linesOf content = early ++ line :: late → (∀ l ∈ early, Good l) → early.length < before.length → ¬ Stray line) :
    ∀ l ∈ before, Tidy l := by
  intro l member
  obtain ⟨early, late, parts⟩ := List.append_of_mem member
  have split' : linesOf content = early ++ l :: (late ++ after) := by
    rw [split, parts]
    simp
  have good' : ∀ l ∈ early, Good l := fun l here => good l (by rw [parts]; exact List.mem_append_left _ here)
  refine ⟨line_whole split l (List.mem_append_left _ member), short early l _ split' good', plain early l _ split' good' ?_⟩
  rw [parts, List.length_append, List.length_cons]
  omega

theorem Good.empty : Good [] := ⟨none, .nothing ⟨[], by simp [Space], .inl rfl⟩⟩

theorem Headed.found (headed : Headed line) (n : Nat) : ∃ found, parseHead n line = .ok (some found) := by
  obtain ⟨h, rest, sound, rfl, semicolon⟩ := headed
  obtain ⟨inside, after, rfl, closed⟩ := List.eq_append_cons_of_mem semicolon
  rw [parseHead_heading sound, cut_at closed]
  exact ⟨_, rfl⟩

theorem headed_of_found {n : Nat} {found : { name : Bytes // ∀ c ∈ name, nameChar c = true } × Bytes}
    (head : parseHead n line = .ok (some found)) : Headed line := by
  obtain ⟨name, body⟩ := found
  obtain ⟨h, inside, after, sound, is, -⟩ := parseHead_some head
  exact ⟨h, inside ++ 59 :: after, sound, is, by simp⟩

theorem parse_next (within : Within content maxEntries) (split : linesOf content = before ++ line :: after)
    (tidy : ∀ l ∈ before, Tidy l) (short : line.length ≤ 1023) (some_ : line ≠ []) (listed : Listed 1 before entries) :
    ∃ fuel text, text ≠ [] ∧ takeLine 1023 text = (line, [10].intercalate after) ∧
      qtpkgParseEntryFile content maxEntries = parseFrom maxEntries (fuel + 1) text (before.length + 1) entries := by
  obtain ⟨fuel, enough, round⟩ := parse_before within split tidy listed
  have text_ := text_some_of_line some_ after
  obtain ⟨fuel, rfl⟩ : ∃ m, fuel = m + 1 := ⟨fuel - 1, by have := text_rest line after text_; omega⟩
  exact ⟨fuel, _, text_, takeLine_first (line_whole split line (by simp)) short after, round⟩

theorem exact_of_plain (within : Within content maxEntries) (short : Short content) (plain : Plain content maxEntries) :
    Exact content maxEntries := by
  constructor
  · intro entries listed
    have split : linesOf content = linesOf content ++ [] := (List.append_nil _).symm
    have tidy := tidy_before split listed.good short fun early line late split good _ => (plain early line late split good).1
    obtain ⟨fuel, -, round⟩ := parse_before within split tidy listed
    rw [round]
    exact parseFrom_empty _ _ _
  · intro before bad after split good isBad
    have tidy := tidy_before split good short fun early line late split good _ => (plain early line late split good).1
    obtain ⟨entries, listed⟩ := listed_exists good 1
    have some_ : bad ≠ [] := fun empty => isBad (empty ▸ Good.empty)
    obtain ⟨fuel, text, text_, taken, round⟩ := parse_next within split tidy (short before bad after split good) some_ listed
    obtain ⟨notStray, unseen⟩ := plain before bad after split good
    obtain ⟨e, failed⟩ := parseLine_undocumented (fun d documented => isBad ⟨d, documented⟩) notStray (before.length + 1)
    have seen : entries.length < maxEntries ∨ ∀ found, parseHead (before.length + 1) bad ≠ .ok (some found) := by
      rcases Nat.lt_or_eq_of_le (within before _ entries split listed).1 with room | full
      · exact .inl room
      · exact .inr fun found head => unseen isBad entries listed full (headed_of_found head)
    rw [round, parseFrom_fails text_ taken failed seen]
    have number := parseLine_error failed
    obtain ⟨at_, complaint⟩ := e
    subst number
    exact ⟨complaint, rfl⟩

theorem Stray.some (stray : Stray line) : line ≠ [] := by
  rintro rfl
  obtain ⟨e, failed⟩ := (parseLine_stray stray 0).1 Good.empty
  cases failed

theorem parse_stray (within : Within content maxEntries) (split : linesOf content = before ++ line :: after)
    (tidy : ∀ l ∈ before, Tidy l) (short : line.length ≤ 1023) (listed : Listed 1 before entries) (stray : Stray line) (good : Good line) :
    ∃ complaint, qtpkgParseEntryFile content maxEntries = .error ⟨before.length + 1, complaint⟩ := by
  obtain ⟨fuel, text, text_, taken, round⟩ := parse_next within split tidy short stray.some listed
  obtain ⟨e, failed⟩ := (parseLine_stray stray (before.length + 1)).1 good
  have room : entries.length < maxEntries := by
    obtain ⟨d, documented⟩ := good
    cases d with
    | none =>
      cases documented with
      | nothing trail =>
        rw [parseLine_trail trail] at failed
        cases failed
    | some pair =>
      have more := listed.snoc (e := ⟨pair.1, pair.2, 1 + before.length, documented.named⟩) documented rfl
      have few := (within (before ++ [line]) after _ (by rw [split]; simp) more).1
      rw [List.length_append, List.length_singleton] at few
      exact few
  rw [round, parseFrom_fails text_ taken failed (.inl room)]
  have number := parseLine_error failed
  obtain ⟨at_, complaint⟩ := e
  subst number
  exact ⟨complaint, rfl⟩

/-- A line that the parser takes, or that it does not get to for want of room, is not the one it complains of. -/
theorem parse_passes (within : Within content maxEntries) (split : linesOf content = before ++ line :: after)
    (tidy : ∀ l ∈ before, Tidy l) (short : line.length ≤ 1023) (some_ : line ≠ []) (listed : Listed 1 before entries)
    (passes : (∃ e, parseLine (before.length + 1) line = .ok (some e)) ∨ (entries.length = maxEntries ∧ Headed line)) (complaint : Complaint) :
    qtpkgParseEntryFile content maxEntries ≠ .error ⟨before.length + 1, complaint⟩ := by
  obtain ⟨fuel, text, text_, taken, round⟩ := parse_next within split tidy short some_ listed
  have few := (within before _ entries split listed).1
  have full : entries.length = maxEntries → Headed line →
      parseFrom maxEntries (fuel + 1) text (before.length + 1) entries ≠ .error ⟨before.length + 1, complaint⟩ := by
    intro full headed failed
    obtain ⟨found, head⟩ := headed.found (before.length + 1)
    rw [parseFrom_full text_ taken head (Nat.le_of_eq full.symm)] at failed
    cases failed
  rw [round]
  rcases passes with ⟨⟨name, versions⟩, parsed⟩ | ⟨isFull, headed⟩
  · rcases Nat.lt_or_eq_of_le few with room | isFull
    · obtain ⟨e, -, -, -, next⟩ := @parseFrom_entry maxEntries fuel _ text line _ entries text_ taken _ _ parsed room
      intro failed
      rw [next] at failed
      exact Nat.not_succ_le_self _ (parseFrom_line (e := ⟨before.length + 1, complaint⟩) failed)
    · apply full isFull
      cases head : parseHead (before.length + 1) line with
      | error e =>
        rw [parseLine, head] at parsed
        cases parsed
      | ok found =>
        cases found with
        | none =>
          rw [parseLine, head] at parsed
          cases parsed
        | some found => exact headed_of_found head
  · exact full isFull headed

theorem plain_of_exact (within : Within content maxEntries) (short : Short content) (is_exact : Exact content maxEntries) :
    Plain content maxEntries := by
  intro before line after split good
  -- by induction on the number of lines before this one, none of which is stray then
  induction number : before.length using Nat.strong_induction_on generalizing before line after with
  | _ number_ ih =>
    subst number
    have tidy := tidy_before split good short fun early line late split' good' shorter =>
      (ih early.length shorter early line late split' good' rfl).1
    have here := short before line after split good
    obtain ⟨entries, listed⟩ := listed_exists good 1
    constructor
    · intro stray
      by_cases good' : Good line
      · obtain ⟨complaint, failed⟩ := parse_stray within split tidy here listed stray good'
        rcases first_bad after with all | ⟨early, bad, late, rfl, goods, isBad⟩
        · have goods : ∀ l ∈ linesOf content, Good l := by
            rw [split]
            exact List.forall_mem_append.mpr ⟨good, List.forall_mem_cons.mpr ⟨good', all⟩⟩
          obtain ⟨entries', listed'⟩ := listed_exists goods 1
          rw [is_exact.accepts entries' listed'] at failed
          cases failed
        · obtain ⟨complaint', failed'⟩ := is_exact.rejects (before ++ line :: early) bad late (by rw [split]; simp)
            (List.forall_mem_append.mpr ⟨good, List.forall_mem_cons.mpr ⟨good', goods⟩⟩) isBad
          rw [failed', List.length_append, List.length_cons] at failed
          injection failed with same
          injection same with same
          omega
      · obtain ⟨complaint, failed⟩ := is_exact.rejects before line after split good good'
        have taken := (parseLine_stray stray (before.length + 1)).2 fun d documented => good' ⟨d, documented⟩
        exact parse_passes within split tidy here stray.some listed (.inl taken) complaint failed
    · intro isBad entries' listed' full headed
      obtain ⟨complaint, failed⟩ := is_exact.rejects before line after split good isBad
      have some_ : line ≠ [] := fun empty => isBad (empty ▸ Good.empty)
      exact parse_passes within split tidy here some_ listed' (.inr ⟨full, headed⟩) complaint failed

/-- The parser is exact on a text if no line up to the first bad one is longer than its
buffer or stray and a full table does not hide that line, and among the texts with no
longer line only then. -/
theorem entry_file_exact (content : Bytes) (maxEntries : Nat) (within : Within content maxEntries) :
    (Short content ∧ Plain content maxEntries → Exact content maxEntries) ∧
      (Short content → Exact content maxEntries → Plain content maxEntries) :=
  ⟨fun ⟨short, plain⟩ => exact_of_plain within short plain, fun short is_exact => plain_of_exact within short is_exact⟩

theorem joined_length {pairs : List Pair} :
    6 * pairs.length ≤ (joined pairs).length + 2 * pairs.length ∧ ∀ p ∈ pairs, p.text.length ≤ (joined pairs).length := by
  induction pairs with
  | nil => simp
  | cons p pairs ih =>
    obtain ⟨many, each⟩ := ih
    have here : 4 ≤ p.text.length := by
      simp only [Pair.text, List.length_append, List.length_cons]
      omega
    by_cases some_ : pairs = []
    · subst some_
      simp only [joined, List.length_singleton, List.mem_singleton, forall_eq]
      omega
    · rw [joined_cons p some_, List.length_append, List.length_cons, List.length_cons]
      constructor
      · omega
      · intro q member
        rcases List.mem_cons.mp member with rfl | later
        · omega
        · have := each q later
          omega

theorem Documented.bounds {name : Bytes} {versions : List Version} (documented : Documented line (some (name, versions))) :
    name.length ≤ line.length ∧ 4 * versions.length ≤ line.length ∧
      ∀ v ∈ versions, v.version.length ≤ line.length ∧ v.url.length ≤ line.length := by
  cases documented with
  | bare _ _ =>
    simp only [Heading.text, List.length_append, List.length_nil, List.not_mem_nil, false_implies, implies_true, and_true]
    omega
  | @entry h pairs after _ _ _ _ =>
    obtain ⟨many, each⟩ := @joined_length pairs
    simp only [Heading.text, List.length_append, List.length_cons, List.length_map, List.mem_map]
    refine ⟨by omega, by omega, ?_⟩
    rintro v ⟨p, member, rfl⟩
    have := each p member
    simp only [Pair.text, List.length_append, List.length_cons] at this
    dsimp only [Pair.release]
    omega

theorem Listed.bounds {n : Nat} {lines : List Bytes} (listed : Listed n lines entries) : entries.length ≤ lines.length ∧
    ∀ e ∈ entries, ∃ line ∈ lines, Documented line (some (e.name, e.versions)) := by
  induction listed with
  | done => simp
  | nothing _ _ ih =>
    refine ⟨Nat.le_succ_of_le ih.1, fun e member => ?_⟩
    obtain ⟨line, here, documented⟩ := ih.2 e member
    exact ⟨line, List.mem_cons_of_mem _ here, documented⟩
  | entry documented _ _ ih =>
    refine ⟨Nat.succ_le_succ ih.1, fun e member => ?_⟩
    rcases List.mem_cons.mp member with rfl | later
    · exact ⟨_, List.mem_cons_self, documented⟩
    · obtain ⟨line, here, documented⟩ := ih.2 e later
      exact ⟨line, List.mem_cons_of_mem _ here, documented⟩

theorem within_of_small (few : (linesOf content).length ≤ maxEntries) (small : ∀ line ∈ linesOf content, line.length < 32) :
    Within content maxEntries := by
  intro before after entries split listed
  obtain ⟨many, each⟩ := listed.bounds
  rw [split, List.length_append] at few
  refine ⟨by omega, fun e member => ?_⟩
  obtain ⟨line, here, documented⟩ := each e member
  have short := small line (split ▸ List.mem_append_left _ here)
  obtain ⟨name, versions, fields⟩ := documented.bounds
  refine ⟨by omega, by rw [qtpkgMaxVersions]; omega, fun v member => ?_⟩
  have := fields v member
  omega

end Files

/-- A text of one entry, which the parser returns. -/
theorem entry_file_exact_one : Within (ascii "pkg = [1.0] (https);") 128 ∧ Exact (ascii "pkg = [1.0] (https);") 128 := by
  have line : linesOf (ascii "pkg = [1.0] (https);") = [ascii "pkg = [1.0] (https);"] := by decide
  have within : Within (ascii "pkg = [1.0] (https);") 128 := by
    apply within_of_small
    · rw [line]
      decide
    · rw [line]
      decide
  have good : Good (ascii "pkg = [1.0] (https);") := by
    have pair : Pair.Sound ⟨ascii " ", [], ascii "1.0", [], ascii " ", [], ascii "https", [], []⟩ := by
      refine ⟨?_, ?_, ⟨?_, ?_, ?_, ?_⟩, ?_, ?_, ?_, ⟨?_, ?_, ?_, ?_⟩, ?_⟩ <;> decide +kernel
    have entry := @Documented.entry ⟨[], ascii "pkg", ascii " "⟩ [_] [] ⟨by decide, ⟨by decide, by decide⟩, by decide⟩
      (List.cons_ne_nil _ _) (List.forall_mem_singleton.mpr ⟨pair, by decide⟩) ⟨[], by decide, .inl rfl⟩
    exact ⟨_, entry⟩
  have tidy : ¬ Stray (ascii "pkg = [1.0] (https);") := by
    intro stray
    obtain ⟨e, failed⟩ := (parseLine_stray stray 1).1 good
    have parsed : (parseLine 1 (ascii "pkg = [1.0] (https);")).isOk = true := by decide
    rw [failed] at parsed
    cases parsed
  -- the text has one line
  have only : ∀ before line after, linesOf (ascii "pkg = [1.0] (https);") = before ++ line :: after → line = ascii "pkg = [1.0] (https);" := by
    intro before l after split
    have member : l ∈ linesOf (ascii "pkg = [1.0] (https);") := by
      rw [split]
      simp
    rw [line] at member
    exact List.mem_singleton.mp member
  refine ⟨within, (entry_file_exact _ _ within).1 ⟨?_, ?_⟩⟩
  · intro before l after split _
    rw [only before l after split]
    decide
  · intro before l after split _
    rw [only before l after split]
    exact ⟨tidy, fun isBad => absurd good isBad⟩

/-- The line of the manual for a package that is not there yet has no semicolon, which the
parser asks for. -/
theorem entry_file_unimplemented :
    Within (ascii "pkg2 = # not implemented yet") 128 ∧ ¬ Exact (ascii "pkg2 = # not implemented yet") 128 := by
  have line : linesOf (ascii "pkg2 = # not implemented yet") = [ascii "pkg2 = # not implemented yet"] := by decide
  constructor
  · apply within_of_small
    · rw [line]
      decide
    · rw [line]
      decide
  · intro is_exact
    have bare := @Documented.bare ⟨[], ascii "pkg2", ascii " "⟩ (ascii " ") (ascii " not implemented yet")
      ⟨by decide, ⟨by decide, by decide⟩, by decide⟩ (by decide)
    have listed : Listed 1 (linesOf (ascii "pkg2 = # not implemented yet")) [⟨ascii "pkg2", [], 1, by decide⟩] := by
      rw [line]
      exact .entry bare rfl .done
    have failed : (qtpkgParseEntryFile (ascii "pkg2 = # not implemented yet") 128).isOk = false := by decide
    rw [is_exact.accepts _ listed] at failed
    cases failed

end Qito.Pkg
