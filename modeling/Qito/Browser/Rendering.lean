import Qito.Browser.Wrapping

/-! A page as the runs of text that render_html wraps: it stays in its buffers when
every run does. -/
namespace Qito.Browser
open Http Search Traces

section Attributes

theorem findAttribute_runs {name : Bytes} (filled : name ≠ []) {n : Nat} {before cursor : Bytes} (rounds : cursor.length < n) :
    Runs Inside (findAttribute name n before cursor) True fun _ => True := by
  induction n generalizing before cursor with
  | zero => exact absurd rounds (Nat.not_lt_zero _)
  | succ n ih =>
    unfold findAttribute
    cases found : find name cursor with
    | none => exact runs_pure trivial
    | some i =>
      obtain ⟨front, back, rfl, rfl⟩ := find_some found
      dsimp only
      split
      · exact runs_pure trivial
      · apply ih
        have some_ := List.length_pos_iff.mpr filled
        simp only [List.length_drop, List.length_append] at rounds ⊢
        omega

theorem tagAttribute_runs {tag name : Bytes} (filled : name ≠ []) : Runs Inside (tagAttribute tag name) True fun _ => True := by
  unfold tagAttribute
  refine (findAttribute_runs filled (Nat.lt_succ_self _)).follow ?_
  rintro (_ | value) -
  · exact runs_pure trivial
  · exact (copyInto_runs .href _).follow fun _ _ => runs_pure trivial

theorem resolveLink_fits (base href : Bytes) : (resolveLink base href Buffer.link.size).length < Buffer.link.size := by
  unfold resolveLink
  split
  · exact strlcpy_fits .link _
  · split
    · exact strlcpy_fits .link _
    · split
      · exact strlcpy_fits .link _
      · exact strlcpy_fits .link _

end Attributes

section Pieces

/-- A piece of HTML: what stands between '<' and '>', or a character. -/
inductive Piece where
  | tag (text : Bytes)
  | char (c : UInt8)

/-- A tag behind a '<', and what follows it. -/
def tagAt (cursor : Bytes) : Bytes × Bytes :=
  let tag := (cursor.takeWhile (· != 62)).take 511
  (tag, if (cursor.drop tag.length).head? = some 62 then (cursor.drop tag.length).tail else cursor.drop tag.length)

def nameOf (tag : Bytes) : Bytes :=
  let slash : Bytes := if tag.head? = some 47 then [47] else []
  slash ++ (((tag.drop slash.length).takeWhile fun c => c != 32 && c != 47).take (23 - slash.length)).map tolower

def piecesFrom : Nat → Bytes → List Piece
  | 0, _ => []
  | _ + 1, [] => []
  | n + 1, c :: cursor =>
    if c = 60 then .tag (tagAt cursor).1 :: piecesFrom n (tagAt cursor).2 else .char c :: piecesFrom n cursor

def pieces (html : Bytes) : List Piece := piecesFrom (html.length + 1) html

/-- The text of a run so far, and whether it is read at all. -/
structure Mode where
  text : Bytes
  inScript : Bool
  inStyle : Bool
  inPre : Bool

def Mode.skips (m : Mode) : Bool := m.inScript || m.inStyle

def Mode.empty (m : Mode) : Mode := { m with text := [] }

/-- The tags that end a run. -/
def breaksRun (name : Bytes) : Bool :=
  decide (name ∈ blockTags) || (headingLevel name).isSome || closesHeading name ||
    decide (name ∈ [ascii "li", ascii "hr", ascii "pre", ascii "/pre", ascii "a", ascii "/a"])

def preAfter (name : Bytes) (inPre : Bool) : Bool :=
  if name = ascii "pre" then true else if name = ascii "/pre" then false else inPre

/-- Whether a tag ends the run, and what it leaves. -/
def Mode.tag (name : Bytes) (m : Mode) : Bool × Mode :=
  if name = ascii "script" then (false, { m with inScript := true })
  else if name = ascii "/script" then (false, { m with inScript := false })
  else if name = ascii "style" then (false, { m with inStyle := true })
  else if name = ascii "/style" then (false, { m with inStyle := false })
  else if name = ascii "title" then (true, m.empty)
  else if name = ascii "/title" then (false, m.empty)
  else if m.skips then (false, m)
  else if breaksRun name then (true, { m.empty with inPre := preAfter name m.inPre })
  else (false, m)

/-- The same for a character. -/
def Mode.char (c : UInt8) (m : Mode) : Bool × Mode :=
  if m.skips then (false, m)
  else if m.inPre && c == 10 then (true, m.empty)
  else (false, { m with text := (m.text ++ [c]).take 719 })

def Mode.read (m : Mode) : Piece → Bool × Mode
  | .tag tag => if tag.head? = some 33 then (false, m) else m.tag (nameOf tag)
  | .char c => m.char c

/-- The runs of text that end inside the page, and what is left of it. -/
def runsFrom : List Piece → Mode → List Bytes × Mode
  | [], m => ([], m)
  | piece :: more, m =>
    let later := runsFrom more (m.read piece).2
    (if (m.read piece).1 then m.text :: later.1 else later.1, later.2)

/-- The runs of text of a page. -/
def runs (html : Bytes) : List Bytes :=
  let read := runsFrom (pieces html) ⟨[], false, false, false⟩
  read.1 ++ [read.2.text]

/-- A run fits into lines of so many columns, once its entities are decoded. -/
def RunFits (columns : Nat) (run : Bytes) : Prop :=
  ∀ text, Ends (decodeEntities run) text → Fits columns 0 (starts true text)

end Pieces

section Reading
variable {columns n : Nat} {r : Reader} {tag name cursor : Bytes} {c : UInt8}

def Reader.mode (r : Reader) : Mode := ⟨r.text, r.inScript, r.inStyle, r.inPre⟩

theorem runFits_nil (columns : Nat) : RunFits columns [] := by
  intro text ends
  cases ends.unique decodeEntities_nil
  trivial

theorem flush_runs (short : r.text.length < 720) :
    Runs Inside (flush columns r) (RunFits columns r.text) fun r' => r'.mode = r.mode.empty := by
  unfold flush
  split
  · rename_i none_
    have kept : r.mode = r.mode.empty := by
      unfold Reader.mode Mode.empty
      rw [none_]
    rw [none_]
    have done : Runs Inside (pure r : Rendering Reader) True fun r' => r'.mode = r.mode.empty := runs_pure kept
    exact done.congr (iff_of_true trivial (runFits_nil columns))
  · have room : r.text.length + 1 ≤ Buffer.text.size := Nat.succ_le_of_lt short
    refine (store_runs room).follow fun _ _ => ?_
    refine Runs.congr ((decodeEntities_runs short).bind_value (D := fun text => Fits columns 0 (starts true text)) fun text _ => ?_) ?_
    · exact (emitWrapped_runs text r.pendingKind r.pendingLink columns r.page).lead fun page _ => runs_pure rfl
    · rw [true_and]
      rfl

theorem addToPage_runs (text : Bytes) (kind : LineKind) (r : Reader) :
    Runs Inside (addToPage text kind r) True fun r' => r'.mode = r.mode :=
  (addLine_runs text kind none r.page).follow fun _ _ => runs_pure rfl

theorem openLink_runs (tag : Bytes) (r : Reader) : Runs Inside (openLink tag r) True fun r' => r'.mode = r.mode := by
  unfold openLink
  refine (tagAttribute_runs (by decide)).follow ?_
  rintro (_ | href) -
  · exact runs_pure rfl
  · dsimp only
    split
    · rename_i room
      have inside : r.page.links.length + 1 ≤ Buffer.links.size := Nat.succ_le_of_lt room.1
      refine (store_runs inside).follow fun _ _ => ?_
      refine (storeText_runs (resolveLink_fits _ _)).follow fun _ _ => ?_
      exact runs_pure rfl
    · exact runs_pure rfl

theorem endTitle_runs (short : r.text.length < 720) : Runs Inside (endTitle r) True fun r' => r'.mode = r.mode.empty := by
  have room : r.text.length + 1 ≤ Buffer.text.size := Nat.succ_le_of_lt short
  refine (store_runs room).follow fun _ _ => ?_
  refine (decodeEntities_runs short).follow fun text _ => ?_
  exact (copyInto_runs .title text).follow fun _ _ => runs_pure rfl

theorem after_flush {f : Reader → Rendering Reader} (short : r.text.length < 720) {m : Mode}
    (next : ∀ r', r'.mode = r.mode.empty → Runs Inside (f r') True fun r'' => r''.mode = m) :
    Runs Inside (flush columns r >>= f) (RunFits columns r.text) fun r' => r'.mode = m :=
  (flush_runs short).lead next

theorem differ {p : Bytes → Bool} {other : Bytes} (here : p name = true) (there : p other = false) : name ≠ other := by
  rintro rfl
  rw [here] at there
  cases there

/-- The mode of a reader whose run has ended at a tag that has nothing to do with preformatted text. -/
theorem mode_ended {r' : Reader} (ended : r'.mode = r.mode.empty) (pre : name ≠ ascii "pre") (endPre : name ≠ ascii "/pre") :
    r'.mode = { r.mode.empty with inPre := preAfter name r.inPre } := by
  unfold preAfter
  rw [if_neg pre, if_neg endPre]
  exact ended

theorem mode_pre {r' : Reader} (ended : r'.mode = r.mode.empty) (inPre : Bool) :
    { r' with inPre := inPre, pendingKind := .text }.mode = { r.mode.empty with inPre := inPre } :=
  congrArg (fun m : Mode => { m with inPre := inPre }) ended

theorem blockTag_runs (short : r.text.length < 720) (breaks : breaksRun name = true) :
    Runs Inside (blockTag columns tag name r) (RunFits columns r.text) fun r' =>
      r'.mode = { r.mode.empty with inPre := preAfter name r.inPre } := by
  unfold blockTag
  refine runs_ite (fun block => ?_) fun block => ?_
  · have pre : name ≠ ascii "pre" := differ (p := fun n => decide (n ∈ blockTags)) (decide_eq_true block) (by decide)
    have endPre : name ≠ ascii "/pre" := differ (p := fun n => decide (n ∈ blockTags)) (decide_eq_true block) (by decide)
    refine after_flush short fun r' ended => runs_ite (fun _ => ?_) fun _ => ?_
    · exact (addToPage_runs [] .blank _).mono fun r'' same => mode_ended (same.trans ended) pre endPre
    · exact runs_pure (mode_ended ended pre endPre)
  refine runs_ite (fun heading => ?_) fun heading => ?_
  · have pre : name ≠ ascii "pre" := differ (p := fun n => (headingLevel n).isSome) heading (by decide)
    have endPre : name ≠ ascii "/pre" := differ (p := fun n => (headingLevel n).isSome) heading (by decide)
    refine after_flush short fun r' ended => ?_
    exact (addToPage_runs [] .blank r').follow fun r'' same => runs_pure (mode_ended (same.trans ended) pre endPre)
  refine runs_ite (fun closes => ?_) fun closes => ?_
  · have pre : name ≠ ascii "pre" := differ closes (by decide)
    have endPre : name ≠ ascii "/pre" := differ closes (by decide)
    exact after_flush short fun r' ended => runs_pure (mode_ended ended pre endPre)
  refine runs_ite (fun li => ?_) fun li => ?_
  · subst li
    exact after_flush short fun r' ended => runs_pure (mode_ended ended (by decide) (by decide))
  refine runs_ite (fun hr => ?_) fun hr => ?_
  · subst hr
    refine after_flush short fun r' ended => ?_
    exact (addToPage_runs [] .rule r').mono fun r'' same =>
      mode_ended (same.trans ended) (by decide) (by decide)
  refine runs_ite (fun pre => ?_) fun pre => ?_
  · subst pre
    exact after_flush short fun r' ended => runs_pure (mode_pre ended true)
  refine runs_ite (fun endPre => ?_) fun endPre => ?_
  · subst endPre
    exact after_flush short fun r' ended => runs_pure (mode_pre ended false)
  refine runs_ite (fun a => ?_) fun a => ?_
  · subst a
    refine after_flush short fun r' ended => ?_
    exact (openLink_runs tag r').mono fun r'' same => mode_ended (same.trans ended) (by decide) (by decide)
  refine runs_ite (fun endA => ?_) fun endA => ?_
  · subst endA
    exact after_flush short fun r' ended => runs_pure (mode_ended ended (by decide) (by decide))
  · simp [breaksRun, block, heading, closes, li, hr, pre, endPre, a, endA] at breaks

theorem blockTag_other (kept : breaksRun name = false) : blockTag columns tag name r = pure r := by
  unfold breaksRun at kept
  simp only [Bool.or_eq_false_iff, decide_eq_false_iff_not, List.mem_cons, List.not_mem_nil, or_false, not_or] at kept
  obtain ⟨⟨⟨block, heading⟩, closes⟩, li, hr, pre, endPre, a, endA⟩ := kept
  unfold blockTag
  rw [if_neg block, if_neg (by simp [heading]), if_neg (by simp [closes]), if_neg li, if_neg hr, if_neg pre, if_neg endPre,
    if_neg a, if_neg endA]

/-- A tag leaves the mode of x, and ends the run if x says so. -/
def Reads (columns : Nat) (r : Reader) (m : Rendering Reader) (x : Bool × Mode) : Prop :=
  Runs Inside m (x.1 = true → RunFits columns r.text) fun r' => r'.mode = x.2

theorem reads_ite {c : Prop} [Decidable c] {m m' : Rendering Reader} {x x' : Bool × Mode} (yes : c → Reads columns r m x)
    (no : ¬ c → Reads columns r m' x') : Reads columns r (if c then m else m') (if c then x else x') := by
  by_cases holds : c
  · rw [if_pos holds, if_pos holds]
    exact yes holds
  · rw [if_neg holds, if_neg holds]
    exact no holds

theorem handleTag_runs (short : r.text.length < 720) : Reads columns r (handleTag columns tag (nameOf tag) r) (r.mode.read (.tag tag)) := by
  have plain {r' : Reader} {m : Mode} (same : r'.mode = m) : Reads columns r (pure r') (false, m) := by
    have done : Runs Inside (pure r' : Rendering Reader) True fun r'' => r''.mode = m := runs_pure same
    exact done.congr (iff_of_true trivial nofun)
  unfold handleTag Mode.read
  dsimp only
  unfold Mode.tag
  generalize nameOf tag = name
  refine reads_ite (fun _ => plain rfl) fun _ => ?_
  refine reads_ite (fun _ => plain rfl) fun _ => reads_ite (fun _ => plain rfl) fun _ => ?_
  refine reads_ite (fun _ => plain rfl) fun _ => reads_ite (fun _ => plain rfl) fun _ => ?_
  refine reads_ite (fun _ => (flush_runs short).congr ⟨fun fits _ => fits, fun fits => fits rfl⟩) fun _ => ?_
  refine reads_ite (fun _ => (endTitle_runs short).congr (iff_of_true trivial nofun)) fun _ => ?_
  refine reads_ite (fun _ => plain rfl) fun _ => ?_
  cases breaks : breaksRun name with
  | true => exact (blockTag_runs short breaks).congr ⟨fun fits _ => fits, fun fits => fits rfl⟩
  | false =>
    rw [blockTag_other breaks]
    exact plain rfl

theorem handleChar_runs (short : r.text.length < 720) :
    Runs Inside (handleChar columns c r) ((r.mode.read (.char c)).1 = true → RunFits columns r.text)
      fun r' => r'.mode = (r.mode.read (.char c)).2 := by
  have plain {m : Rendering Reader} {after : Mode} (done : Runs Inside m True fun r' => r'.mode = after) :
      Runs Inside m (false = true → RunFits columns r.text) fun r' => r'.mode = after :=
    done.congr (iff_of_true trivial nofun)
  have mode : r.mode.skips = (r.inScript || r.inStyle) := rfl
  unfold handleChar Mode.read
  dsimp only
  unfold Mode.char
  rw [mode]
  split
  · exact plain (runs_pure rfl)
  · have pre : r.mode.inPre = r.inPre := rfl
    rw [pre]
    split
    · exact (flush_runs short).congr ⟨fun fits _ => fits, fun fits => fits rfl⟩
    · split
      · rename_i room
        have less : r.text.length < 719 := room
        have inside : r.text.length + 1 ≤ Buffer.text.size := Nat.succ_le_of_lt short
        have whole : (r.text ++ [c]).take 719 = r.text ++ [c] := List.take_of_length_le (by simp; omega)
        apply plain
        refine (store_runs inside).follow fun _ _ => runs_pure ?_
        unfold Reader.mode
        dsimp only
        rw [whole]
      · rename_i full
        have more : 719 ≤ r.text.length := Nat.le_of_not_lt full
        have whole : (r.text ++ [c]).take 719 = r.text := by
          rw [List.take_append_of_le_length more]
          exact List.take_of_length_le (by omega)
        apply plain
        apply runs_pure
        unfold Reader.mode
        dsimp only
        rw [whole]

theorem readTag_runs (cursor : Bytes) : Runs Inside (readTag cursor) True fun read => read = tagAt cursor := by
  have fits : ((cursor.takeWhile (· != 62)).take 511).length < Buffer.tag.size := by
    rw [List.length_take]
    exact Nat.lt_succ_of_le (Nat.min_le_left ..)
  exact (storeText_runs fits).follow fun _ _ => runs_pure rfl

theorem tagName_runs (tag : Bytes) : Runs Inside (tagName tag) True fun name => name = nameOf tag := by
  have fits : (nameOf tag).length < Buffer.name.size := by
    have size : Buffer.name.size = 24 := rfl
    unfold nameOf
    dsimp only
    split
    · simp only [List.length_append, List.length_map, List.length_take, List.length_cons, List.length_nil]
      omega
    · simp only [List.length_append, List.length_map, List.length_take, List.length_nil]
      omega
  exact (storeText_runs fits).follow fun _ _ => runs_pure rfl

theorem tag_short {m : Mode} (short : m.text.length < 720) (none_ : m.empty.text.length < 720) : (m.tag name).2.text.length < 720 := by
  have either {c : Prop} [Decidable c] {x x' : Bool × Mode} (yes : x.2.text.length < 720) (no : x'.2.text.length < 720) :
      (if c then x else x').2.text.length < 720 := by
    by_cases holds : c
    · rwa [if_pos holds]
    · rwa [if_neg holds]
  unfold Mode.tag
  refine either short (either short (either short (either short ?_)))
  exact either none_ (either none_ (either short (either none_ short)))

theorem Mode.read_short {m : Mode} (short : m.text.length < 720) (piece : Piece) : (m.read piece).2.text.length < 720 := by
  have none_ : m.empty.text.length < 720 := Nat.zero_lt_succ _
  cases piece with
  | tag tag =>
    unfold Mode.read
    dsimp only
    split
    · exact short
    · exact tag_short short none_
  | char c =>
    unfold Mode.read Mode.char
    dsimp only
    split_ifs
    · exact short
    · exact none_
    · rw [List.length_take]
      omega

theorem tagAt_shorter (cursor : Bytes) : (tagAt cursor).2.length ≤ cursor.length := by
  unfold tagAt
  dsimp only
  split
  · rw [List.length_tail, List.length_drop]
    omega
  · rw [List.length_drop]
    omega

theorem renderFrom_runs (short : r.text.length < 720) (rounds : cursor.length < n) :
    Runs Inside (renderFrom columns n cursor r) (∀ run ∈ (runsFrom (piecesFrom n cursor) r.mode).1, RunFits columns run)
      fun r' => r'.mode = (runsFrom (piecesFrom n cursor) r.mode).2 ∧ r'.text.length < 720 := by
  induction n generalizing cursor r with
  | zero => exact absurd rounds (Nat.not_lt_zero _)
  | succ n ih =>
    cases cursor with
    | nil =>
      have done : Runs Inside (pure r : Rendering Reader) True fun r' => r'.mode = r.mode ∧ r'.text.length < 720 :=
        runs_pure ⟨rfl, short⟩
      exact done.congr (iff_of_true trivial nofun)
    | cons c cursor =>
      -- One piece, and the rest of the page.
      have then_ (piece : Piece) (rest : Bytes) (less : rest.length < n) {m : Rendering Reader}
          (first : Runs Inside m ((r.mode.read piece).1 = true → RunFits columns r.text) fun r' => r'.mode = (r.mode.read piece).2) :
          Runs Inside (m >>= fun r' => renderFrom columns n rest r')
            (∀ run ∈ (runsFrom (piece :: piecesFrom n rest) r.mode).1, RunFits columns run)
            fun r' => r'.mode = (runsFrom (piece :: piecesFrom n rest) r.mode).2 ∧ r'.text.length < 720 := by
        refine Runs.congr (first.bind (D := ∀ run ∈ (runsFrom (piecesFrom n rest) (r.mode.read piece).2).1, RunFits columns run)
          fun r' same => ?_) ?_
        · have kept : r'.text.length < 720 := by
            have text : r'.text = (r.mode.read piece).2.text := congrArg Mode.text same
            rw [text]
            exact Mode.read_short (m := r.mode) short piece
          have later := ih (r := r') kept less
          rw [same] at later
          exact later
        · rw [runsFrom]
          dsimp only
          cases (r.mode.read piece).1 with
          | false => simp
          | true =>
            rw [if_pos rfl, List.forall_mem_cons]
            exact and_congr_left fun _ => ⟨fun fits => fits rfl, fun fits _ => fits⟩
      rw [List.length_cons] at rounds
      unfold renderFrom piecesFrom
      split
      · refine (readTag_runs cursor).follow ?_
        rintro _ rfl
        refine (tagName_runs _).follow ?_
        rintro _ rfl
        have less := tagAt_shorter cursor
        exact then_ (.tag (tagAt cursor).1) (tagAt cursor).2 (by omega) (handleTag_runs short)
      · exact then_ (.char c) cursor (by omega) (handleChar_runs short)

end Reading

/-- A page is rendered in bounds just when its runs fit. -/
theorem rendering_in_bounds_iff (url html : Bytes) (columns : Nat) :
    ((∃ page, Ends (renderHtml url html columns) page) ∧ Within Inside (renderHtml url html columns)) ↔
      ∀ run ∈ runs html, RunFits columns run := by
  have whole : Runs Inside (renderHtml url html columns) (∀ run ∈ runs html, RunFits columns run) fun _ => True := by
    have first := @renderFrom_runs columns _ (startReader url) _ (Nat.zero_lt_succ _) (Nat.lt_succ_self html.length)
    refine Runs.congr (first.bind (D := RunFits columns (runsFrom (pieces html) ⟨[], false, false, false⟩).2.text)
      fun r read => ?_) ?_
    · have text : r.text = (runsFrom (pieces html) ⟨[], false, false, false⟩).2.text := congrArg Mode.text read.1
      rw [← text]
      refine (flush_runs read.2).lead fun r' _ => ?_
      split
      · exact addLine_runs _ _ _ _
      · exact runs_pure trivial
    · unfold runs
      rw [List.forall_mem_append, List.forall_mem_singleton]
      rfl
  obtain ⟨⟨page, ends, -⟩, within⟩ := whole
  rw [within]
  exact and_iff_right ⟨page, ends⟩

theorem narrow_page_in_bounds (url html : Bytes) {columns : Nat} (narrow : columns ≤ 180) :
    (∃ page, Ends (renderHtml url html columns) page) ∧ Within Inside (renderHtml url html columns) :=
  (rendering_in_bounds_iff url html columns).mpr fun _ _ _ _ => fits_narrow narrow starts_solid

/-- A full line, and a word for which there are columns but no room. -/
def crowdedPage : Bytes := List.replicate 179 97 ++ [32, 98]

theorem crowded_page_overflows : ¬ ∀ (url html : Bytes) (columns : Nat), 20 ≤ columns →
    (∃ page, Ends (renderHtml url html columns) page) ∧ Within Inside (renderHtml url html columns) := by
  intro all
  have outside : ((renderHtml [] crowdedPage 181).events.all fun s => decide (Inside s)) = false := by decide +kernel
  have inside := (all [] crowdedPage 181 (by decide)).2
  rw [List.all_eq_true.mpr fun s member => decide_eq_true (inside s member)] at outside
  cases outside

end Qito.Browser
