import Mathlib.Algebra.BigOperators.Group.List.Basic
import Qito.Shells.Quoting
import Qito.Shells.Tokens

/-! Alias substitution in run_pipeline. The arguments, which have lost their quotes, are
pasted behind the alias text and cut into words a second time. -/
namespace Qito.Shells

variable {σ : Type}

/-- The arguments as strlcat appends them, each behind a blank. -/
@[grind =] def pasted (args : List Bytes) : Bytes := (args.map ([32] ++ ·)).flatten

/-- The alias text ends outside of quotes and not with an escape; the arguments have none
of the characters that shell_tokenize acts on, but for a backslash at the very end; and
the line and argv have room. -/
structure Pastable (expansion : Bytes) (args : List Bytes) : Prop where
  closed : scanAfter .start expansion = .start
  filled : ∀ a ∈ args, a ≠ []
  plain : ∀ a ∈ args, ∀ c ∈ a, isSpace c = false ∧ c ≠ 34 ∧ c ≠ 39
  backslash : 92 ∉ args.flatten.dropLast
  line : (expansion ++ pasted args).length < shellLineMax
  few : (tokensFrom none none false expansion).length + args.length < shellArgsMax

section Splitting
variable {s : Scan} {token : Option Bytes} {text more : Bytes}

theorem tokensFrom_append (live : Live token s) (text : Bytes) :
    ∃ tokens token', Live token' (scanAfter s text) ∧ ∀ more, (more ≠ [] ∨ (scanAfter s text).escaped = false) →
      tokensFrom token s.quote s.escaped (text ++ more) =
        tokens ++ tokensFrom token' (scanAfter s text).quote (scanAfter s text).escaped more := by
  induction text generalizing s token with
  | nil => exact ⟨[], token, live, fun _ _ => rfl⟩
  | cons c rest ih =>
    obtain ⟨tokens₁, token₁, live₁, step⟩ := tokensFrom_step live c
    obtain ⟨tokens₂, token₂, live₂, run⟩ := ih live₁
    refine ⟨tokens₁ ++ tokens₂, token₂, live₂, fun more going => ?_⟩
    have here : rest ++ more ≠ [] ∨ (scanStep s c).escaped = false := by
      cases rest with
      | nil => exact going
      | cons d rest => exact .inl (List.cons_ne_nil _ _)
    rw [List.cons_append, step _ here, run more going, List.append_assoc]
    rfl

theorem tokensFrom_longer (token : Bytes) (quote : Option UInt8) (escaped : Bool) (text : Bytes) :
    ∃ word words, tokensFrom (some token) quote escaped text = word :: words ∧ token <+: word := by
  induction text generalizing token quote escaped with
  | nil => exact ⟨token, [], by simp [tokensFrom], List.prefix_refl _⟩
  | cons c rest ih =>
    have grown : token <+: token ++ [c] := List.prefix_append _ _
    cases escaped with
    | true =>
      rw [tokensFrom]
      obtain ⟨word, words, same, longer⟩ := ih (token ++ [c]) quote false
      exact ⟨word, words, same, grown.trans longer⟩
    | false =>
      rw [tokensFrom, if_neg (by simp)]
      split
      · exact ih token none false
      split
      · exact ih token (some c) false
      split
      · exact ⟨token, _, rfl, List.prefix_refl _⟩
      split
      · exact ih token quote true
      · obtain ⟨word, words, same, longer⟩ := ih (token ++ [c]) quote false
        exact ⟨word, words, same, grown.trans longer⟩

theorem tokensFrom_closed (closed : scanAfter .start text = .start) (more : Bytes) :
    tokensFrom none none false (text ++ 32 :: more) = tokensFrom none none false text ++ tokensFrom none none false more := by
  obtain ⟨tokens, token, -, split⟩ := tokensFrom_append (s := .start) (.inl rfl) text
  rw [closed] at split
  have whole : tokensFrom none none false text = tokens ++ token.toList := by
    have alone := split [] (.inr rfl)
    rw [List.append_nil, tokensFrom] at alone
    exact alone
  have longer : tokensFrom none none false (text ++ 32 :: more) = tokens ++ tokensFrom token none false (32 :: more) :=
    split (32 :: more) (.inr rfl)
  rw [longer, whole, List.append_assoc]
  cases token with
  | none => simp [tokensFrom, isSpace]
  | some token => simp [tokensFrom, isSpace]

theorem scanStep_escapes {c : UInt8} (escapes : (scanStep s c).escaped = true) :
    s.escaped = false ∧ c = 92 ∧ s.quote ≠ some 39 ∧ s.quote ≠ some 92 ∧ (scanStep s c).quote = s.quote := by
  obtain ⟨quote, escaped⟩ := s
  cases escaped with
  | true => cases escapes
  | false =>
    cases quote with
    | none =>
      rw [scanStep] at escapes ⊢
      split at escapes
      · cases escapes
      · rename_i other
        rw [if_neg other]
        exact ⟨rfl, beq_iff_eq.mp escapes, by simp, by simp, rfl⟩
    | some q =>
      rw [scanStep] at escapes ⊢
      split at escapes
      · cases escapes
      · rename_i other
        rw [if_neg other]
        rw [Bool.and_eq_true, beq_iff_eq, bne_iff_ne] at escapes
        refine ⟨rfl, escapes.1, ?_, ?_, rfl⟩
        · exact fun same => escapes.2 (Option.some.inj same)
        · exact fun same => other (escapes.1.trans (Option.some.inj same).symm)

/-- Behind a text that leaves a quote open, or an escape, a blank goes into its last token. -/
theorem tokensFrom_open (open_ : scanAfter .start text ≠ .start) (more : Bytes) :
    ∃ front token longer words, tokensFrom none none false text = front ++ [token] ∧
      tokensFrom none none false (text ++ 32 :: more) = front ++ longer :: words ∧ longer ≠ token := by
  have differs {token word : Bytes} (grown : token ++ [32] <+: word) : word ≠ token ∧ word ≠ token ++ [92] := by
    obtain ⟨rest, rfl⟩ := grown
    rw [List.append_assoc]
    constructor
    · intro same
      exact absurd (List.append_right_eq_self.mp same) (List.cons_ne_nil _ _)
    · intro same
      exact absurd (List.cons.inj (List.append_cancel_left same)).1 (by decide)
  cases escapes : (scanAfter .start text).escaped with
  | false =>
    obtain ⟨tokens, token, live, split⟩ := @tokensFrom_append .start none (.inl rfl) text
    have sane := scanAfter_sane (s := .start) (.inl rfl) text
    generalize scanAfter .start text = s at open_ escapes live split sane
    obtain ⟨quote, escaped⟩ := s
    cases escapes
    obtain ⟨token, rfl⟩ := Option.ne_none_iff_exists'.mp (live.resolve_left open_)
    obtain ⟨longer, words, same, grown⟩ := tokensFrom_longer (token ++ [32]) quote false more
    have alone := split [] (.inr rfl)
    have longer_ := split (32 :: more) (.inr rfl)
    rw [List.append_nil] at alone
    refine ⟨tokens, token, longer, words, alone, longer_.trans ?_, (differs grown).1⟩
    rcases sane with none_ | double | single
    · exact absurd (congrArg (Scan.mk · false) none_) open_
    · cases double
      exact congrArg (tokens ++ ·) (by simpa [tokensFrom] using same)
    · cases single
      exact congrArg (tokens ++ ·) (by simpa [tokensFrom] using same)
  | true =>
    obtain rfl | ⟨front, c, rfl⟩ := List.eq_nil_or_concat text
    · exact absurd rfl open_
    rw [List.concat_eq_append] at escapes ⊢
    have last : scanAfter .start (front ++ [c]) = scanStep (scanAfter .start front) c := by
      unfold scanAfter
      rw [List.foldl_append]
      rfl
    rw [last] at escapes
    obtain ⟨here, rfl, single, itself, -⟩ := scanStep_escapes escapes
    obtain ⟨tokens, token, -, split⟩ := @tokensFrom_append .start none (.inl rfl) front
    generalize scanAfter .start front = s at here single itself split
    obtain ⟨quote, escaped⟩ := s
    cases here
    have alone := split [92] (.inr rfl)
    have longer_ := split (92 :: 32 :: more) (.inr rfl)
    obtain ⟨longer, words, same, grown⟩ := tokensFrom_longer (token.getD [] ++ [32]) quote false more
    refine ⟨tokens, token.getD [] ++ [92], longer, words, ?_, ?_, (differs grown).2⟩
    · refine alone.trans (congrArg (tokens ++ ·) ?_)
      simp [tokensFrom, isSpace, itself]
    · rw [List.append_assoc]
      refine longer_.trans (congrArg (tokens ++ ·) ?_)
      rw [← same]
      simp [tokensFrom, isSpace, itself, single]

end Splitting

section Counting
variable {token a more : Bytes} {words args : List Bytes}

/-- The characters of some words, with one more for each. -/
@[grind =] def weight (words : List Bytes) : Nat := (words.map (·.length + 1)).sum

@[simp] theorem weight_cons (word : Bytes) (words : List Bytes) : weight (word :: words) = word.length + 1 + weight words := by
  unfold weight
  rw [List.map_cons, List.sum_cons]

theorem weight_take (n : Nat) (words : List Bytes) : weight (words.take n) ≤ weight words := by
  induction words generalizing n with
  | nil => simp [weight]
  | cons word words ih =>
    cases n with
    | zero => exact Nat.zero_le _
    | succ n =>
      rw [List.take_succ_cons, weight_cons, weight_cons]
      exact Nat.add_le_add_left (ih n) _

theorem pasted_cons (a : Bytes) (args : List Bytes) : pasted (a :: args) = 32 :: (a ++ pasted args) := rfl

theorem pasted_length (args : List Bytes) : (pasted args).length = weight args := by
  induction args with
  | nil => rfl
  | cons a args ih =>
    rw [pasted_cons, weight_cons, List.length_cons, List.length_append, ih]
    omega

theorem weight_tokensFrom (token : Option Bytes) (quote : Option UInt8) (escaped : Bool) (text : Bytes) :
    weight (tokensFrom token quote escaped text) ≤ (token.getD []).length + text.length + 1 := by
  induction text generalizing token quote escaped with
  | nil =>
    cases token with
    | none => exact Nat.zero_le _
    | some token => simp [tokensFrom, weight]
  | cons c rest ih =>
    have taken := ih (some (token.getD [] ++ [c])) quote false
    rw [Option.getD_some, List.length_append, List.length_singleton] at taken
    rw [List.length_cons]
    cases escaped with
    | true =>
      rw [tokensFrom]
      omega
    | false =>
      rw [tokensFrom]
      split
      · exact Nat.le_trans (ih none quote false) (by rw [Option.getD_none, List.length_nil]; omega)
      split
      · exact Nat.le_trans (ih (some (token.getD [])) none false) (by rw [Option.getD_some]; omega)
      split
      · exact Nat.le_trans (ih (some (token.getD [])) (some c) false) (by rw [Option.getD_some]; omega)
      split
      · have rest_ := ih none none false
        rw [weight_cons]
        simp only [Option.getD_none, List.length_nil] at rest_
        omega
      split
      · exact Nat.le_trans (ih (some (token.getD [])) quote true) (by rw [Option.getD_some]; omega)
      · omega

theorem weight_blank (text : Bytes) : weight (tokensFrom none none false (32 :: text)) ≤ text.length + 1 := by
  have bound := weight_tokensFrom none none false text
  simpa [tokensFrom, isSpace] using bound

theorem weight_full {n : Nat} (same : weight (words.take n) = weight words) : words.take n = words := by
  induction words generalizing n with
  | nil => exact List.take_nil
  | cons word words ih =>
    cases n with
    | zero =>
      rw [List.take_zero, weight_cons] at same
      exact absurd same (by simp [weight]; omega)
    | succ n =>
      rw [List.take_succ_cons, weight_cons, weight_cons] at same
      rw [List.take_succ_cons, ih (Nat.add_left_cancel same)]

end Counting

section Plain
variable {token a more : Bytes} {args : List Bytes} {c : UInt8} {rest : Bytes}

/-- A character that shell_tokenize takes as it is, with the text behind it. -/
def Bare (c : UInt8) (rest : Bytes) : Prop := (isSpace c = false ∧ c ≠ 34 ∧ c ≠ 39) ∧ (c = 92 → rest = [])

/-- All characters of a text are bare, with more behind it. -/
def Bares : Bytes → Bytes → Prop
  | [], _ => True
  | c :: rest, more => Bare c (rest ++ more) ∧ Bares rest more

def BareArgs : List Bytes → Prop
  | [] => True
  | a :: args => a ≠ [] ∧ Bares a (pasted args) ∧ BareArgs args

theorem Bare.taken (bare : Bare c rest) (token : Bytes) :
    tokensFrom (some token) none false (c :: rest) = tokensFrom (some (token ++ [c])) none false rest := by
  obtain ⟨⟨space, double, single⟩, last⟩ := bare
  rw [tokensFrom, if_neg (by simp), if_neg (by simp), if_neg (fun both => both.2.elim double single),
    if_neg (fun both => Bool.false_ne_true (space.symm.trans both.2)), if_neg fun all => all.2.2 (last all.1)]
  rfl

theorem Bares.taken (bares : Bares a more) (token : Bytes) :
    tokensFrom (some token) none false (a ++ more) = tokensFrom (some (token ++ a)) none false more := by
  induction a generalizing token with
  | nil => rw [List.append_nil, List.nil_append]
  | cons c a ih =>
    rw [List.cons_append, bares.1.taken, ih bares.2, List.append_assoc]
    rfl

/-- Where no character but the separators is lost, a word that comes out as it was is bare. -/
theorem bares_of_tight (tight : token.length + (a ++ more).length + 1 ≤ weight (tokensFrom (some token) none false (a ++ more)))
    (first : ∃ words, tokensFrom (some token) none false (a ++ more) = (token ++ a) :: words) : Bares a more := by
  induction a generalizing token with
  | nil => exact trivial
  | cons c a ih =>
    rw [List.cons_append, List.length_cons] at tight
    rw [List.cons_append] at first
    rw [tokensFrom, if_neg (by simp), if_neg (by simp)] at tight first
    split at tight
    · -- a quote is lost
      have bound := weight_tokensFrom (some token) (some c) false (a ++ more)
      rw [Option.getD_some] at bound
      exact absurd tight (by rw [Option.getD_some]; omega)
    rename_i unquoted
    rw [if_neg unquoted] at first
    split at tight
    · rename_i ends
      rw [if_pos ends] at first
      obtain ⟨words, same⟩ := first
      exact absurd (List.append_right_eq_self.mp (List.cons.inj same).1.symm) (List.cons_ne_nil _ _)
    rename_i inside
    rw [if_neg inside] at first
    split at tight
    · have bound := weight_tokensFrom (some token) none true (a ++ more)
      rw [Option.getD_some] at bound
      exact absurd tight (by rw [Option.getD_some]; omega)
    rename_i literal
    rw [if_neg literal] at first
    refine ⟨⟨⟨?_, ?_, ?_⟩, ?_⟩, @ih (token ++ [c]) ?_ ?_⟩
    · exact Bool.eq_false_iff.mpr fun blank => inside ⟨rfl, blank⟩
    · exact fun double => unquoted ⟨rfl, .inl double⟩
    · exact fun single => unquoted ⟨rfl, .inr single⟩
    · intro backslash
      by_contra follows
      exact literal ⟨backslash, by simp, follows⟩
    · rw [List.length_append, List.length_singleton]
      rw [Option.getD_some] at tight
      omega
    · rw [List.append_assoc]
      exact first

theorem word_pasted (a : Bytes) (args : List Bytes) :
    tokensFrom (some a) none false (pasted args) = a :: tokensFrom none none false (pasted args) := by
  cases args with
  | nil => rfl
  | cons b args =>
    rw [pasted_cons]
    simp [tokensFrom, isSpace]

/-- The words that come out of the pasted arguments are the arguments just where all of
their characters are bare. -/
theorem pasted_tokens_iff : tokensFrom none none false (pasted args) = args ↔ BareArgs args := by
  induction args with
  | nil => exact iff_of_true rfl trivial
  | cons a args ih =>
    have skipped : tokensFrom none none false (pasted (a :: args)) = tokensFrom none none false (a ++ pasted args) := by
      rw [pasted_cons, tokensFrom, if_pos ⟨rfl, rfl⟩]
    rw [skipped]
    have length : (a ++ pasted args).length + 1 = weight (a :: args) := by
      rw [List.length_append, pasted_length, weight_cons]
      omega
    constructor
    · intro same
      cases a with
      | nil =>
        -- an empty argument leaves only its blank
        exfalso
        rw [List.nil_append] at same length
        cases args with
        | nil => cases same
        | cons b args =>
          have bound := weight_blank (b ++ pasted args)
          rw [← pasted_cons, same, ← length, pasted_cons, List.length_cons] at bound
          omega
      | cons c a =>
        have other : isSpace c = false := by
          by_contra blank
          have bound := weight_tokensFrom none none false (a ++ pasted args)
          rw [List.cons_append, tokensFrom, if_pos ⟨rfl, (Bool.not_eq_false _).mp blank⟩] at same
          rw [same, ← length, Option.getD_none, List.cons_append, List.length_cons, List.length_nil] at bound
          omega
        rw [List.cons_append, tokensFrom_fresh other, ← List.cons_append] at same
        have bares : Bares (c :: a) (pasted args) := by
          apply bares_of_tight
          · rw [same, ← length, List.length_nil, Nat.zero_add]
          · exact ⟨args, same⟩
        rw [bares.taken, List.nil_append, word_pasted] at same
        exact ⟨List.cons_ne_nil _ _, bares, ih.mp (List.cons.inj same).2⟩
    · rintro ⟨filled, bares, later⟩
      cases a with
      | nil => exact absurd rfl filled
      | cons c a =>
        rw [List.cons_append, tokensFrom_fresh bares.1.1.1, ← List.cons_append, bares.taken, List.nil_append, word_pasted,
          ih.mpr later]

theorem bares_iff : Bares a more ↔
    (∀ c ∈ a, isSpace c = false ∧ c ≠ 34 ∧ c ≠ 39) ∧ 92 ∉ if more = [] then a.dropLast else a := by
  induction a with
  | nil => simp [Bares]
  | cons c a ih =>
    rw [Bares, ih, Bare, List.forall_mem_cons]
    by_cases last : more = []
    · subst last
      rw [if_pos rfl, if_pos rfl, List.append_nil]
      cases a with
      | nil => simp
      | cons d a =>
        rw [List.dropLast_cons_cons, List.mem_cons, not_or]
        constructor
        · rintro ⟨⟨here, backslash⟩, later, rest⟩
          exact ⟨⟨here, later⟩, fun same => absurd (backslash same.symm) (List.cons_ne_nil _ _), rest⟩
        · rintro ⟨⟨here, later⟩, backslash, rest⟩
          exact ⟨⟨here, fun same => absurd same.symm backslash⟩, later, rest⟩
    · rw [if_neg last, if_neg last, List.mem_cons, not_or]
      constructor
      · rintro ⟨⟨here, backslash⟩, later, rest⟩
        exact ⟨⟨here, later⟩, fun same => last (List.append_eq_nil_iff.mp (backslash same.symm)).2, rest⟩
      · rintro ⟨⟨here, later⟩, backslash, rest⟩
        exact ⟨⟨here, fun same => absurd same.symm backslash⟩, later, rest⟩

theorem bareArgs_iff : BareArgs args ↔
    (∀ a ∈ args, a ≠ []) ∧ (∀ a ∈ args, ∀ c ∈ a, isSpace c = false ∧ c ≠ 34 ∧ c ≠ 39) ∧ 92 ∉ args.flatten.dropLast := by
  induction args with
  | nil => simp [BareArgs]
  | cons a args ih =>
    rw [BareArgs, ih, bares_iff, List.forall_mem_cons, List.forall_mem_cons, List.flatten_cons]
    cases args with
    | nil => simp [pasted]
    | cons b args =>
      rw [if_neg (by rw [pasted_cons]; exact List.cons_ne_nil _ _)]
      constructor
      · rintro ⟨filled, ⟨here, backslash⟩, others, later, rest⟩
        have some_ : (b :: args).flatten ≠ [] := fun none_ =>
          others b List.mem_cons_self (List.flatten_eq_nil_iff.mp none_ b List.mem_cons_self)
        refine ⟨⟨filled, others⟩, ⟨here, later⟩, ?_⟩
        rw [List.dropLast_append_of_ne_nil some_, List.mem_append, not_or]
        exact ⟨backslash, rest⟩
      · rintro ⟨⟨filled, others⟩, ⟨here, later⟩, rest⟩
        have some_ : (b :: args).flatten ≠ [] := fun none_ =>
          others b List.mem_cons_self (List.flatten_eq_nil_iff.mp none_ b List.mem_cons_self)
        rw [List.dropLast_append_of_ne_nil some_, List.mem_append, not_or] at rest
        exact ⟨filled, ⟨here, rest.1⟩, others, later, rest.2⟩

theorem cut_tokens {m r : Nat} (same : (tokensFrom none none false ((pasted args).take r)).take m = args) :
    (pasted args).length ≤ r ∧ tokensFrom none none false (pasted args) = args := by
  have length : weight args = (pasted args).length := (pasted_length args).symm
  have kept := weight_take m (tokensFrom none none false ((pasted args).take r))
  have bound : weight (tokensFrom none none false ((pasted args).take r)) ≤ ((pasted args).take r).length := by
    cases args with
    | nil => simp [pasted, tokensFrom, weight]
    | cons a args =>
      cases r with
      | zero => exact Nat.le_refl 0
      | succ r =>
        rw [pasted_cons, List.take_succ_cons, List.length_cons]
        exact weight_blank _
  rw [same] at kept
  have whole : (pasted args).length ≤ r := by
    rw [List.length_take] at bound
    omega
  rw [List.take_of_length_le whole] at same kept bound
  refine ⟨whole, ?_⟩
  exact (weight_full (by rw [same]; omega)).symm.trans same

end Plain

section Substitution
variable {sh : Shell} {name expansion : Bytes} {args : List Bytes}

theorem take_differs {α : Type} {n : Nat} {front : List α} {x y : α} {more rest : List α} (differ : x ≠ y)
    (inside : front.length < n) : (front ++ x :: more).take n ≠ front ++ y :: rest := by
  intro same
  have here := congrArg (·[front.length]?) same
  simp only [List.getElem?_take_of_lt inside, List.getElem?_append_right (Nat.le_refl _), Nat.sub_self, List.getElem?_cons_zero] at here
  exact differ (Option.some.inj here)

theorem withAlias_cut (alias_ : shellGetAlias sh name = some expansion) (args : List Bytes) :
    withAlias sh (name :: args) = shellTokenize ((expansion ++ pasted args).take (shellLineMax - 1)) := by
  rw [withAlias, alias_]
  rfl

theorem withAlias_iff (alias_ : shellGetAlias sh name = some expansion) (stored : expansion.length < shellValueMax) :
    withAlias sh (name :: args) = shellTokenize expansion ++ args ↔ args = [] ∨ Pastable expansion args := by
  have short : expansion.length < shellLineMax - 1 := Nat.lt_of_lt_of_le stored (by decide)
  rw [withAlias_cut alias_]
  cases args with
  | nil =>
    refine iff_of_true ?_ (.inl rfl)
    rw [pasted, List.map_nil, List.flatten_nil, List.append_nil, List.append_nil, List.take_of_length_le (Nat.le_of_lt short)]
  | cons a args =>
    -- at least the first blank stands behind the alias text
    have split : ((expansion ++ pasted (a :: args)).take (shellLineMax - 1)) =
        expansion ++ (pasted (a :: args)).take (shellLineMax - 1 - expansion.length) := by
      rw [List.take_append, List.take_of_length_le (Nat.le_of_lt short)]
    obtain ⟨r, room⟩ := Nat.exists_eq_succ_of_ne_zero (Nat.ne_of_gt (Nat.sub_pos_of_lt short))
    have blank : (pasted (a :: args)).take (shellLineMax - 1 - expansion.length) = 32 :: (a ++ pasted args).take r := by
      rw [room, pasted_cons, List.take_succ_cons]
    have skipped : tokensFrom none none false ((a ++ pasted args).take r) =
        tokensFrom none none false ((pasted (a :: args)).take (shellLineMax - 1 - expansion.length)) := by
      rw [blank, tokensFrom, if_pos ⟨rfl, rfl⟩]
    rw [split]
    unfold shellTokenize
    constructor
    · intro same
      right
      have few : (tokensFrom none none false expansion).length + (a :: args).length ≤ shellArgsMax - 1 := by
        have lengths := congrArg List.length same
        have cut := List.length_take_le (shellArgsMax - 1)
          (tokensFrom none none false (expansion ++ (pasted (a :: args)).take (shellLineMax - 1 - expansion.length)))
        rw [lengths, List.length_append, List.length_take, List.length_cons] at cut
        rw [List.length_cons]
        omega
      have whole : (tokensFrom none none false expansion).take (shellArgsMax - 1) = tokensFrom none none false expansion :=
        List.take_of_length_le (Nat.le_trans (Nat.le_add_right _ _) few)
      rw [whole, blank] at same
      have closed : scanAfter .start expansion = .start := by
        by_contra open_
        obtain ⟨front, token, longer, words, alone, more, differ⟩ := tokensFrom_open open_ ((a ++ pasted args).take r)
        rw [alone, more, List.append_assoc] at same
        rw [alone, List.length_append, List.length_singleton] at few
        exact take_differs differ (by omega) same
      rw [tokensFrom_closed closed, List.take_append, whole, skipped] at same
      obtain ⟨fits, tokens⟩ := cut_tokens (List.append_cancel_left same)
      obtain ⟨filled, plain, backslash⟩ := bareArgs_iff.mp (pasted_tokens_iff.mp tokens)
      refine ⟨closed, filled, plain, backslash, ?_, ?_⟩
      · rw [List.length_append]
        omega
      · exact Nat.lt_of_le_of_lt few (by decide)
    · rintro (none_ | pastable)
      · cases none_
      · have tokens := pasted_tokens_iff.mpr (bareArgs_iff.mpr ⟨pastable.filled, pastable.plain, pastable.backslash⟩)
        have fits := pastable.line
        rw [List.length_append] at fits
        have few : (tokensFrom none none false expansion).length + (a :: args).length ≤ shellArgsMax - 1 :=
          Nat.le_sub_one_of_lt pastable.few
        have whole : (pasted (a :: args)).take (shellLineMax - 1 - expansion.length) = pasted (a :: args) :=
          List.take_of_length_le (by omega)
        rw [blank, tokensFrom_closed pastable.closed, skipped, whole, tokens,
          List.take_of_length_le (by rw [List.length_append]; exact few),
          List.take_of_length_le (Nat.le_trans (Nat.le_add_right _ _) few)]

theorem shellSetVar_alias (sh : Shell) (variable_ value name : Bytes) :
    shellGetAlias (shellSetVar sh variable_ value) name = shellGetAlias sh name := by
  unfold shellSetVar
  split
  · rfl
  · split
    · rfl
    · rfl

end Substitution

/-- The vector that run_pipeline executes for an alias is the words of the alias text and
the arguments as they were only where there are none or they can be pasted behind it. -/
theorem alias_keeps_arguments_iff {σ : Type} (state : State σ) (pipe : Option Bytes) (redirect : Option (Bytes × Bool))
    (text name : Bytes) (args : List Bytes) (expansion : Bytes) (cut : shellTokenize text = name :: args)
    (alias_ : shellGetAlias state.world.sh name = some expansion) (stored : expansion.length < shellValueMax) :
    (wordsOf pipe redirect text state).1 = .ready (shellTokenize expansion ++ args) redirect ↔
      args = [] ∨ Pastable expansion args := by
  unfold wordsOf
  dsimp only
  rw [cut, if_neg (List.cons_ne_nil _ _), Stage.ready.injEq]
  refine (and_iff_left rfl).trans (withAlias_iff ?_ stored)
  cases pipe with
  | none => exact alias_
  | some piped => exact (shellSetVar_alias _ _ _ _).trans alias_

def listing : Shell := { freshShell with aliases := [⟨ascii "ll", ascii "ls -l"⟩] }

theorem alias_keeps_arguments_plain :
    (wordsOf none none (ascii "ll /tmp") ⟨⟨listing, (), false⟩, fun _ _ => 0⟩).1 =
        .ready (shellTokenize (ascii "ls -l") ++ [ascii "/tmp"]) none ↔
      [ascii "/tmp"] = [] ∨ Pastable (ascii "ls -l") [ascii "/tmp"] :=
  alias_keeps_arguments_iff ⟨⟨listing, (), false⟩, fun _ _ => 0⟩ none none (ascii "ll /tmp") (ascii "ll") [ascii "/tmp"] (ascii "ls -l")
    (by decide) (by decide) (by decide)

/-- The blank of a quoted argument makes two of it. -/
theorem alias_splits_argument :
    ¬ ∀ (state : State Unit) (pipe : Option Bytes) (redirect : Option (Bytes × Bool)) (text name : Bytes) (args : List Bytes)
      (expansion : Bytes), shellTokenize text = name :: args → shellGetAlias state.world.sh name = some expansion →
        (wordsOf pipe redirect text state).1 = .ready (shellTokenize expansion ++ args) redirect := by
  intro all
  have kept := all ⟨⟨listing, (), false⟩, fun _ _ => 0⟩ none none (ascii "ll 'a b'") (ascii "ll") [ascii "a b"] (ascii "ls -l")
    (by decide) (by decide)
  revert kept
  decide

end Qito.Shells
