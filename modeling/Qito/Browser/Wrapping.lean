import Qito.Browser.Model

/-! Where decode_entities, add_line and emit_wrapped store. The buffer that a line is
put together in is written within its bounds as long as no line is full when the next
word still fits into the columns. -/
namespace Qito.Browser
open Http Search Traces

/-- A store that stays in its buffer. -/
def Inside (s : Store) : Prop := s.offset + s.length ≤ s.buffer.size

instance (s : Store) : Decidable (Inside s) := inferInstanceAs (Decidable (_ ≤ _))

section Copies
variable {buffer : Buffer} {text : Bytes}

theorem store_runs {offset length : Nat} (fits : offset + length ≤ buffer.size) :
    Runs Inside (emit ⟨buffer, offset, length⟩ : Rendering Unit) True fun _ => True :=
  (runs_emit _ trivial).congr (iff_of_true fits trivial)

theorem storeText_runs (fits : text.length < buffer.size) : Runs Inside (storeText buffer text) True fun _ => True := by
  apply store_runs
  omega

theorem strlcpy_fits (buffer : Buffer) (text : Bytes) : (strlcpy text buffer.size).length < buffer.size := by
  have some_ : 0 < buffer.size := by
    cases buffer <;> decide
  unfold strlcpy
  rw [List.length_take]
  omega

theorem copyInto_runs (buffer : Buffer) (text : Bytes) :
    Runs Inside (copyInto buffer text) True fun out => out = strlcpy text buffer.size :=
  (storeText_runs (strlcpy_fits buffer text)).follow fun _ _ => runs_pure rfl

theorem addLine_runs (text : Bytes) (kind : LineKind) (link : Option Nat) (page : Page) :
    Runs Inside (addLine text kind link page) True fun _ => True := by
  unfold addLine
  split
  · exact runs_pure trivial
  · rename_i room
    have inside : page.lines.length + 1 ≤ Buffer.lines.size := Nat.succ_le_of_lt (Nat.lt_of_not_le room)
    refine (store_runs inside).follow fun _ _ => ?_
    exact (copyInto_runs .lineText text).follow fun _ _ => runs_pure trivial

end Copies

section Decoding
variable {e : Entity} {n : Nat} {text : Bytes}

theorem decodeEntity_runs (shrinks : e.replacement.length < e.entity.length) (fits : text.length < Buffer.text.size)
    (rounds : text.length < n) : Runs Inside (decodeEntity e n text) True fun after => after.length ≤ text.length := by
  induction n generalizing text with
  | zero => exact absurd rounds (Nat.not_lt_zero _)
  | succ n ih =>
    unfold decodeEntity
    cases found : find e.entity text with
    | none => exact runs_pure (Nat.le_refl _)
    | some i =>
      obtain ⟨front, back, rfl, rfl⟩ := find_some found
      have rest : (front ++ (e.entity ++ back)).drop (front.length + e.entity.length) = back := by
        rw [← List.append_assoc, ← List.length_append, List.drop_left]
      dsimp only
      rw [rest, List.take_left]
      simp only [List.length_append] at fits rounds
      have moved : front.length + e.replacement.length + (back.length + 1) ≤ Buffer.text.size := by omega
      have copied : front.length + e.replacement.length ≤ Buffer.text.size := by omega
      refine (store_runs moved).follow fun _ _ => (store_runs copied).follow fun _ _ => ?_
      have shorter : (front ++ (e.replacement ++ back)).length < (front ++ (e.entity ++ back)).length := by
        simp only [List.length_append]
        omega
      apply (ih (shorter.trans (by simpa using fits)) (by simp only [List.length_append] at shorter ⊢; omega)).mono
      exact fun after shortened => shortened.trans shorter.le

theorem decodeEntities_runs (fits : text.length < Buffer.text.size) :
    Runs Inside (decodeEntities text) True fun after => after.length ≤ text.length := by
  have all : ∀ e ∈ entities, e.replacement.length < e.entity.length := by decide
  unfold decodeEntities
  generalize entities = es at all
  induction es generalizing text with
  | nil => exact runs_pure (Nat.le_refl _)
  | cons e es ih =>
    have pass := decodeEntity_runs (all e List.mem_cons_self) fits (Nat.lt_succ_self _)
    refine pass.follow fun next shorter => ?_
    apply (ih (shorter.trans_lt fits) fun f member => all f (List.mem_cons_of_mem _ member)).mono
    exact fun after shortened => shortened.trans shorter

theorem decodeEntities_nil : Ends (decodeEntities []) [] := by decide

end Decoding

section Wrapping
variable {kind : LineKind} {link : Option Nat} {columns : Nat} {text buffer : Bytes} {pending : Bool} {page : Page}

/-- The texts that begin with the words of a text; between says that a word may begin. -/
def starts : Bool → Bytes → List Bytes
  | _, [] => []
  | between, c :: rest =>
    if isBlank c then starts true rest
    else if between then (c :: rest) :: starts false rest
    else starts false rest

/-- The characters up to the next blank. -/
def solid (text : Bytes) : Nat := (text.takeWhile fun c => !isBlank c).length

/-- Lines are filled with words, 179 characters at most: where a word goes on in a
line, the line was not full. -/
def Fits (columns : Nat) : Nat → List Bytes → Prop
  | _, [] => True
  | filled, word :: words =>
    if filled = 0 ∨ columns < filled + 1 + wordLength word then Fits columns (min 179 (solid word)) words
    else filled < 179 ∧ Fits columns (min 179 (filled + 1 + solid word)) words

theorem solid_blank {c : UInt8} (blank : isBlank c = true) : solid (c :: text) = 0 := by
  unfold solid
  rw [List.takeWhile_cons_of_neg (by simp [blank])]
  rfl

theorem solid_char {c : UInt8} (char : isBlank c = false) : solid (c :: text) = solid text + 1 := by
  unfold solid
  rw [List.takeWhile_cons_of_pos (by simp [char]), List.length_cons]

theorem putChar_runs (c : UInt8) (buffer : Bytes) :
    Runs Inside (putChar c buffer) True fun b => b = if buffer.length < 179 then buffer ++ [c] else buffer := by
  unfold putChar
  have size : Buffer.wrapped.size - 1 = 179 := rfl
  rw [size]
  split
  · rename_i room
    have inside : buffer.length + 1 ≤ Buffer.wrapped.size := Nat.succ_le_succ (Nat.le_of_lt room)
    exact (store_runs inside).follow fun _ _ => runs_pure rfl
  · exact runs_pure rfl

theorem endLine_runs (kind : LineKind) (link : Option Nat) (buffer : Bytes) (page : Page) :
    Runs Inside (endLine kind link buffer page) (buffer.length < 180) fun _ => True := by
  have stored : Runs Inside (emit ⟨.wrapped, buffer.length, 1⟩ : Rendering Unit) (buffer.length < 180) fun _ => True :=
    (runs_emit _ trivial).congr Nat.succ_le_iff
  apply (stored.bind fun _ _ => addLine_runs buffer kind link page).congr
  rw [and_true]

theorem ends_then {α β : Type} {m : Rendering α} {f : α → Rendering β} (first : ∃ a, Ends m a)
    (second : ∀ a, ∃ b, Ends (f a) b) : ∃ b, Ends (m >>= f) b := by
  obtain ⟨a, ends⟩ := first
  obtain ⟨b, later⟩ := second a
  exact ⟨b, (ends_bind b).mpr ⟨a, ends, later⟩⟩

theorem wrapFrom_ends (kind : LineKind) (link : Option Nat) (columns : Nat) (text buffer : Bytes) (pending : Bool) (page : Page) :
    ∃ after, Ends (wrapFrom kind link columns text buffer pending page) after := by
  have puts (c : UInt8) (buffer : Bytes) : ∃ b, Ends (putChar c buffer) b := (putChar_runs c buffer).1.imp fun _ => And.left
  have lines (buffer : Bytes) (page : Page) : ∃ after, Ends (endLine kind link buffer page) after :=
    (endLine_runs kind link buffer page).1.imp fun _ => And.left
  induction text generalizing buffer pending page with
  | nil =>
    unfold wrapFrom
    split
    · exact ⟨page, (ends_pure _ _).mpr rfl⟩
    · exact lines buffer page
  | cons c rest ih =>
    unfold wrapFrom
    split
    · exact ih buffer _ page
    · split
      · split
        · exact ends_then (lines buffer page) fun page => ends_then (puts c []) fun buffer => ih buffer false page
        · exact ends_then ⟨(), (ends_emit _ _).mpr trivial⟩ fun _ => ends_then (puts c _) fun buffer => ih buffer false page
      · exact ends_then (puts c buffer) fun buffer => ih buffer pending page

theorem wrapFrom_overfull (overfull : 180 ≤ buffer.length) :
    Runs Inside (wrapFrom kind link columns text buffer pending page) False fun _ => True := by
  obtain ⟨after, ends⟩ := wrapFrom_ends kind link columns text buffer pending page
  refine ⟨⟨after, ends, trivial⟩, iff_false_intro ?_⟩
  clear ends after
  have filled : buffer ≠ [] := by
    rintro rfl
    exact absurd overfull (by decide)
  have outside : ¬ buffer.length < 180 := Nat.not_lt_of_le overfull
  induction text generalizing pending page with
  | nil =>
    unfold wrapFrom
    rw [if_neg filled]
    exact fun within => outside ((endLine_runs kind link buffer page).2.mp within)
  | cons c rest ih =>
    unfold wrapFrom
    split
    · exact ih
    · split
      · split
        · intro within
          exact outside ((endLine_runs kind link buffer page).2.mp (within_bind.mp within).1)
        · intro within
          have stored : Inside ⟨.wrapped, buffer.length, 1⟩ := (within_emit _).mp (within_bind.mp within).1
          exact outside stored
      · intro within
        have same := (putChar_runs c buffer).1
        rw [if_neg fun room => outside (Nat.lt_trans room (by decide))] at same
        obtain ⟨_, ends, rfl⟩ := same
        exact ih ((within_bind.mp within).2 _ ends)

theorem wrapFrom_runs (text : Bytes) :
    (∀ (buffer : Bytes) (page : Page), buffer.length ≤ 179 →
      Runs Inside (wrapFrom kind link columns text buffer (decide (buffer ≠ [])) page)
        (Fits columns buffer.length (starts true text)) fun _ => True) ∧
    ∀ (buffer : Bytes) (page : Page), buffer ≠ [] → buffer.length ≤ 179 →
      Runs Inside (wrapFrom kind link columns text buffer false page)
        (Fits columns (min 179 (buffer.length + solid text)) (starts false text)) fun _ => True := by
  have line {buffer : Bytes} (page : Page) (short : buffer.length ≤ 179) :
      Runs Inside (endLine kind link buffer page) True fun _ => True :=
    (endLine_runs kind link buffer page).congr (iff_of_true (Nat.lt_succ_of_le short) trivial)
  induction text with
  | nil =>
    refine ⟨fun buffer page short => ?_, fun buffer page filled short => ?_⟩
    · unfold wrapFrom
      split
      · exact runs_pure trivial
      · exact line page short
    · unfold wrapFrom
      rw [if_neg filled]
      exact line page short
  | cons c rest ih =>
    obtain ⟨between, within⟩ := ih
    -- The first character of a word that begins a line.
    have begins (page : Page) (char : isBlank c = false) : Runs Inside (do
        let buffer ← putChar c []
        wrapFrom kind link columns rest buffer false page)
        (Fits columns (min 179 (solid (c :: rest))) (starts false rest)) fun _ => True := by
      refine (putChar_runs c []).follow ?_
      rintro _ rfl
      rw [solid_char char, Nat.add_comm]
      exact within [c] page nofun (Nat.succ_le_succ (Nat.zero_le 178))
    constructor
    · intro buffer page short
      unfold wrapFrom starts
      cases blank : isBlank c with
      | true =>
        simp only [if_true, Bool.or_self]
        exact between buffer page short
      | false =>
        simp only [Bool.false_eq_true, if_false, if_true, decide_eq_true_eq, and_self]
        unfold Fits
        rcases eq_or_ne buffer [] with rfl | filled
        · have none_ : ¬ ([] : Bytes) ≠ [] := fun some_ => some_ rfl
          rw [if_neg none_, if_pos (.inl rfl)]
          exact begins page blank
        · have some_ : buffer.length ≠ 0 := fun zero => filled (List.length_eq_zero_iff.mp zero)
          rw [if_pos filled]
          rcases Nat.lt_or_ge columns (buffer.length + 1 + wordLength (c :: rest)) with wide | fits
          · rw [if_pos wide, if_pos (.inr wide)]
            exact (line page short).follow fun page _ => begins page blank
          · rw [if_neg (Nat.not_lt_of_le fits), if_neg (not_or.mpr ⟨some_, Nat.not_lt_of_le fits⟩)]
            refine (store_runs (Nat.succ_le_succ short)).follow fun _ _ => ?_
            refine (putChar_runs c (buffer ++ [32])).follow ?_
            rintro _ rfl
            rw [List.length_append, List.length_singleton, solid_char blank]
            split
            · rename_i room
              have less : buffer.length < 179 := by omega
              have next := within (buffer ++ [32] ++ [c]) page (by simp) (by simp; omega)
              apply next.congr
              rw [List.length_append, List.length_append, List.length_singleton, List.length_singleton,
                and_iff_right less, show buffer.length + 1 + 1 + solid rest = buffer.length + 1 + (solid rest + 1) by omega]
            · rename_i full
              rcases Nat.lt_or_ge buffer.length 179 with less | more
              · have next := within (buffer ++ [32]) page (by simp) (by simp; omega)
                apply next.congr
                have one : min 179 (buffer.length + 1 + solid rest) = 179 := by omega
                have other : min 179 (buffer.length + 1 + (solid rest + 1)) = 179 := by omega
                rw [List.length_append, List.length_singleton, and_iff_right less, one, other]
              · have overfull := @wrapFrom_overfull kind link columns rest (buffer ++ [32]) false page (by simp; omega)
                exact overfull.congr (iff_of_false id fun both => absurd both.1 (Nat.not_lt_of_le more))
    · intro buffer page filled short
      unfold wrapFrom starts
      cases blank : isBlank c with
      | true =>
        have later := between buffer page short
        simp only [decide_eq_true filled] at later
        have same : min 179 (buffer.length + solid (c :: rest)) = buffer.length := by
          rw [solid_blank blank]
          omega
        rw [same]
        simpa [filled] using later
      | false =>
        simp only [Bool.false_eq_true, if_false, false_and]
        refine (putChar_runs c buffer).follow ?_
        rintro _ rfl
        rw [solid_char blank]
        split
        · rename_i room
          have next := within (buffer ++ [c]) page (by simp) (by simp; omega)
          rw [List.length_append, List.length_singleton] at next
          rwa [show buffer.length + 1 + solid rest = buffer.length + (solid rest + 1) by omega] at next
        · rename_i full
          have next := within buffer page filled short
          have one : min 179 (buffer.length + solid rest) = 179 := by omega
          have other : min 179 (buffer.length + (solid rest + 1)) = 179 := by omega
          rwa [one, ← other] at next

theorem emitWrapped_runs (text : Bytes) (kind : LineKind) (link : Option Nat) (columns : Nat) (page : Page) :
    Runs Inside (emitWrapped text kind link columns page) (Fits columns 0 (starts true text)) fun _ => True :=
  (wrapFrom_runs text).1 [] page (Nat.zero_le _)

theorem starts_solid {between : Bool} : ∀ word ∈ starts between text, 0 < wordLength word := by
  induction text generalizing between with
  | nil => exact nofun
  | cons c rest ih =>
    unfold starts
    split
    · exact ih
    · rename_i char
      split
      · rintro word (_ | ⟨_, member⟩)
        · have scanned : (c != 32 && c != 10 && c != 9) = true := by
            simp only [isBlank, Bool.or_eq_true, not_or, beq_iff_eq] at char
            simp [char]
          unfold wordLength
          rw [List.takeWhile_cons_of_pos (p := fun c => c != 32 && c != 10 && c != 9) scanned]
          exact Nat.succ_pos _
        · exact ih word member
      · exact ih

theorem fits_narrow {filled : Nat} {words : List Bytes} (narrow : columns ≤ 180) (solid : ∀ word ∈ words, 0 < wordLength word) :
    Fits columns filled words := by
  induction words generalizing filled with
  | nil => trivial
  | cons word words ih =>
    have some_ := solid word List.mem_cons_self
    have later (filled : Nat) : Fits columns filled words := ih fun w member => solid w (List.mem_cons_of_mem _ member)
    unfold Fits
    split
    · exact later _
    · rename_i fits
      rw [not_or, Nat.not_lt] at fits
      exact ⟨by omega, later _⟩

end Wrapping

end Qito.Browser
