import Mathlib.Data.List.TakeWhile
import Mathlib.Data.List.Basic
import Qito.Pkg.Registry

/-! The lines of entry.var: those of the syntax in docs/QTPKG.md and those that the
scanner of qtpkg_parse_entry_file takes. Blanks are spaces and tabs; at the ends of
a line a carriage return is one too. -/
namespace Qito.Pkg

def Blanks (text : Bytes) : Prop := ∀ c ∈ text, blank c = true

def Space (text : Bytes) : Prop := ∀ c ∈ text, blankOrReturn c = true

instance (text : Bytes) : Decidable (Blanks text) := inferInstanceAs (Decidable (∀ c ∈ text, blank c = true))

instance (text : Bytes) : Decidable (Space text) := inferInstanceAs (Decidable (∀ c ∈ text, blankOrReturn c = true))

/-- A field that is closed by this character, without the blanks around it. -/
structure Field (close : UInt8) (text : Bytes) : Prop where
  some : text ≠ []
  whole : close ∉ text
  front : ∀ c ∈ text.head?, blank c = false
  back : ∀ c ∈ text.getLast?, blank c = false

structure Name (text : Bytes) : Prop where
  some : text ≠ []
  chars : ∀ c ∈ text, nameChar c = true

/-- A pair [version] (url) with the blanks around its parts and what stands behind it. -/
structure Pair where
  before : Bytes
  versionFront : Bytes
  version : Bytes
  versionBack : Bytes
  between : Bytes
  urlFront : Bytes
  url : Bytes
  urlBack : Bytes
  tail : Bytes

def Pair.text (p : Pair) : Bytes :=
  p.before ++ 91 :: (p.versionFront ++ p.version ++ p.versionBack ++ 93 :: (p.between ++ 40 :: (p.urlFront ++ p.url ++ p.urlBack ++ 41 :: p.tail)))

structure Pair.Sound (p : Pair) : Prop where
  before : Blanks p.before
  versionFront : Blanks p.versionFront
  version : Field 93 p.version
  versionBack : Blanks p.versionBack
  between : Blanks p.between
  urlFront : Blanks p.urlFront
  url : Field 41 p.url
  urlBack : Blanks p.urlBack

def Pair.release (p : Pair) : Version := ⟨p.version, p.url⟩

/-- Pairs with commas between them. -/
def joined : List Pair → Bytes
  | [] => []
  | [p] => p.text
  | p :: q :: ps => p.text ++ 44 :: joined (q :: ps)

/-- Nothing, or a comment. -/
def Trail (text : Bytes) : Prop := ∃ front, Space front ∧ (text = front ∨ ∃ comment, text = front ++ 35 :: comment)

/-- A name and the = behind it. -/
structure Heading where
  front : Bytes
  name : Bytes
  gap : Bytes

def Heading.text (h : Heading) : Bytes := h.front ++ (h.name ++ (h.gap ++ [61]))

structure Heading.Sound (h : Heading) : Prop where
  front : Space h.front
  name : Name h.name
  gap : Blanks h.gap

/-- The lines of the documented syntax, with the entry each one makes. -/
inductive Documented : Bytes → Option (Bytes × List Version) → Prop where
  | nothing {text : Bytes} (trail : Trail text) : Documented text none
  | bare {h : Heading} {gap comment : Bytes} (sound : h.Sound) (blanks : Blanks gap) :
    Documented (h.text ++ (gap ++ 35 :: comment)) (some (h.name, []))
  | entry {h : Heading} {pairs : List Pair} {after : Bytes} (sound : h.Sound) (some_ : pairs ≠ [])
    (pairsSound : ∀ p ∈ pairs, p.Sound ∧ Blanks p.tail) (trail : Trail after) :
    Documented (h.text ++ (joined pairs ++ 59 :: after)) (some (h.name, pairs.map Pair.release))

/-- The lines that the scanner takes for entries with no comment for a body: text behind a
pair or behind the semicolon does not matter to it, nor does a comma before the semicolon. -/
inductive Loose : Bytes → Prop where
  | empty {h : Heading} {gap after : Bytes} (sound : h.Sound) (blanks : Blanks gap) : Loose (h.text ++ (gap ++ 59 :: after))
  | entry {h : Heading} {pairs : List Pair} {comma after : Bytes} (sound : h.Sound) (some_ : pairs ≠ [])
    (pairsSound : ∀ p ∈ pairs, p.Sound ∧ 44 ∉ p.text ∧ 59 ∉ p.text) (few : pairs.length ≤ qtpkgMaxVersions)
    (last : comma = [] ∨ comma = [44]) : Loose (h.text ++ (joined pairs ++ (comma ++ 59 :: after)))

/-- The lines on which the scanner and the syntax part: an entry without versions that has
no semicolon, a comma or semicolon in a version or url, and a loose line that is not of the syntax. -/
inductive Stray : Bytes → Prop where
  | bare {h : Heading} {gap comment : Bytes} (sound : h.Sound) (blanks : Blanks gap) (open_ : 59 ∉ comment) :
    Stray (h.text ++ (gap ++ 35 :: comment))
  | separator {h : Heading} {pairs : List Pair} {after : Bytes} (sound : h.Sound) (pairsSound : ∀ p ∈ pairs, p.Sound ∧ Blanks p.tail)
    (trail : Trail after) (inside : ∃ p ∈ pairs, 44 ∈ p.version ∨ 59 ∈ p.version ∨ 44 ∈ p.url ∨ 59 ∈ p.url) :
    Stray (h.text ++ (joined pairs ++ 59 :: after))
  | loose {text : Bytes} (loose : Loose text) (other : ∀ e, ¬ Documented text e) : Stray text

/-- What the scanner makes of a line, the limit on entries apart. -/
def parseLine (line : Nat) (text : Bytes) : Except ParseError (Option (Bytes × List Version)) := do
  match ← parseHead line text with
  | none => .ok none
  | some (⟨name, _⟩, body) =>
    let versions ← if body = [] ∨ body.head? = some 35 then .ok [] else parseVersions line name (body.length + 1) body []
    .ok (some (name, versions))

section Cutting
variable {a b text : Bytes} {c : UInt8}

theorem cut_at (whole : c ∉ a) (b : Bytes) : cut c (a ++ c :: b) = some (a, b) := by
  induction a with
  | nil => simp [cut]
  | cons d a ih =>
    obtain ⟨other, whole⟩ := List.ne_and_not_mem_of_not_mem_cons whole
    rw [List.cons_append, cut, if_neg (Ne.symm other), ih whole]
    rfl

theorem cut_missing (whole : c ∉ text) : cut c text = none := by
  induction text with
  | nil => rfl
  | cons d text ih =>
    obtain ⟨other, whole⟩ := List.ne_and_not_mem_of_not_mem_cons whole
    rw [cut, if_neg (Ne.symm other), ih whole]
    rfl

theorem cut_cases (c : UInt8) (text : Bytes) :
    (c ∉ text ∧ cut c text = none) ∨ ∃ a b, text = a ++ c :: b ∧ c ∉ a ∧ cut c text = some (a, b) := by
  by_cases member : c ∈ text
  · obtain ⟨a, b, rfl, whole⟩ := List.eq_append_cons_of_mem member
    exact .inr ⟨a, b, rfl, whole, cut_at whole b⟩
  · exact .inl ⟨member, cut_missing member⟩

theorem blanks_missing (blanks : Blanks text) (solid : blank c = false) : c ∉ text := fun member =>
  absurd (blanks c member) (by simp [solid])

theorem dropWhile_front {p : UInt8 → Bool} (all : ∀ c ∈ a, p c = true) (stop : ∀ c ∈ b.head?, p c = false) :
    (a ++ b).dropWhile p = b := by
  rw [List.dropWhile_append_of_pos all]
  cases b with
  | nil => rfl
  | cons c b => exact List.dropWhile_cons_of_neg (by simp [stop c rfl])

theorem trimEnd_back {p : UInt8 → Bool} (all : ∀ c ∈ b, p c = true) (stop : ∀ c ∈ a.getLast?, p c = false) :
    trimEnd p (a ++ b) = a := by
  unfold trimEnd
  rw [List.reverse_append, dropWhile_front (fun c member => all c (List.mem_reverse.mp member)), List.reverse_reverse]
  intro c head
  rw [List.head?_reverse] at head
  exact stop c head

theorem trimmed (text : Bytes) : ∃ front back, text = front ++ (trimEnd blank (text.dropWhile blank) ++ back) ∧ Blanks front ∧ Blanks back ∧
    (∀ c ∈ (trimEnd blank (text.dropWhile blank)).head?, blank c = false) ∧
    ∀ c ∈ (trimEnd blank (text.dropWhile blank)).getLast?, blank c = false := by
  have whole : text.dropWhile blank =
      trimEnd blank (text.dropWhile blank) ++ ((text.dropWhile blank).reverse.takeWhile blank).reverse := by
    rw [trimEnd, ← List.reverse_append, List.takeWhile_append_dropWhile, List.reverse_reverse]
  have head : ∀ (xs : Bytes) (c : UInt8), (xs.dropWhile blank).head? = some c → blank c = false := by
    intro xs c here
    have stop := List.head?_dropWhile_not blank xs
    rw [here] at stop
    simpa using stop
  refine ⟨text.takeWhile blank, ((text.dropWhile blank).reverse.takeWhile blank).reverse, ?_, ?_, ?_, ?_, ?_⟩
  · rw [← whole, List.takeWhile_append_dropWhile]
  · exact fun c member => List.mem_takeWhile_imp member
  · exact fun c member => List.mem_takeWhile_imp (List.mem_reverse.mp member)
  · intro c here
    apply head text c
    rw [whole, List.head?_append, Option.mem_def.mp here]
    rfl
  · intro c here
    rw [trimEnd, List.getLast?_reverse] at here
    exact head _ c here

end Cutting

section Pairs
variable {p : Pair} {token : Bytes}

/-- What the scanner keeps of a pair. -/
def Pair.kept (p : Pair) : Version := ⟨strlcpy p.version 32, strlcpy p.url 256⟩

theorem field_trimmed {close : UInt8} {front field back : Bytes} (blanks : Blanks front) (sound : Field close field) (blanks' : Blanks back) :
    trimEnd blank ((front ++ field ++ back).dropWhile blank) = field := by
  rw [List.append_assoc, dropWhile_front blanks, trimEnd_back blanks' sound.back]
  intro c head
  cases field with
  | nil => exact absurd rfl sound.some
  | cons d field => exact sound.front c head

theorem Pair.Sound.version_whole (sound : p.Sound) : 93 ∉ 91 :: (p.versionFront ++ p.version ++ p.versionBack) := by
  simp [blanks_missing sound.versionFront (c := 93) (by decide), blanks_missing sound.versionBack (c := 93) (by decide),
    sound.version.whole]

theorem Pair.Sound.url_whole (sound : p.Sound) : 41 ∉ 40 :: (p.urlFront ++ p.url ++ p.urlBack) := by
  simp [blanks_missing sound.urlFront (c := 41) (by decide), blanks_missing sound.urlBack (c := 41) (by decide), sound.url.whole]

theorem parseVersion_pair (sound : p.Sound) (line : Nat) : parseVersion line p.text = .ok p.kept := by
  have front : p.text.dropWhile blank = (91 :: (p.versionFront ++ p.version ++ p.versionBack)) ++
      93 :: (p.between ++ 40 :: (p.urlFront ++ p.url ++ p.urlBack ++ 41 :: p.tail)) :=
    dropWhile_front sound.before fun c head => by
      cases head
      decide
  have middle : (p.between ++ 40 :: (p.urlFront ++ p.url ++ p.urlBack ++ 41 :: p.tail)).dropWhile blank =
      (40 :: (p.urlFront ++ p.url ++ p.urlBack)) ++ 41 :: p.tail :=
    dropWhile_front sound.between fun c head => by
      cases head
      decide
  have version : trimEnd blank (((91 :: (p.versionFront ++ p.version ++ p.versionBack)).drop 1).dropWhile blank) = p.version :=
    field_trimmed sound.versionFront sound.version sound.versionBack
  have url : trimEnd blank (((40 :: (p.urlFront ++ p.url ++ p.urlBack)).drop 1).dropWhile blank) = p.url :=
    field_trimmed sound.urlFront sound.url sound.urlBack
  unfold parseVersion
  dsimp only
  rw [front, if_neg (by simp), cut_at sound.version_whole]
  dsimp only
  rw [middle, if_neg (by simp), cut_at sound.url_whole]
  dsimp only
  rw [version, url, if_neg (by simp [sound.version.some, sound.url.some])]
  rfl

theorem bracketed {open_ close : UInt8} (differ : close ≠ open_) {text inside after : Bytes} (head : text.head? = some open_)
    (found : cut close text = some (inside, after)) (some_ : trimEnd blank ((inside.drop 1).dropWhile blank) ≠ []) :
    ∃ front field back, text = open_ :: (front ++ field ++ back ++ close :: after) ∧ Blanks front ∧ Field close field ∧ Blanks back ∧
      trimEnd blank ((inside.drop 1).dropWhile blank) = field := by
  rcases cut_cases close text with ⟨-, none_⟩ | ⟨a, b, parts, closed, found'⟩
  · cases none_.symm.trans found
  obtain ⟨rfl, rfl⟩ := Prod.mk.inj (Option.some.inj (found'.symm.trans found))
  cases a with
  | nil =>
    rw [parts] at head
    exact absurd (Option.some.inj head) differ
  | cons c inner =>
    rw [parts] at head
    cases head
    rw [List.drop_one, List.tail_cons] at some_ ⊢
    obtain ⟨front, back, shape, blanks, blanks', first, last⟩ := trimmed inner
    obtain ⟨field, is⟩ : ∃ field, trimEnd blank (inner.dropWhile blank) = field := ⟨_, rfl⟩
    rw [is] at some_ shape first last
    refine ⟨front, field, back, ?_, blanks, ⟨some_, ?_, first, last⟩, blanks', is⟩
    · rw [parts, shape]
      simp
    · intro member
      apply closed
      rw [shape]
      simp [member]

theorem parseVersion_ok {line : Nat} {v : Version} (parsed : parseVersion line token = .ok v) :
    ∃ p : Pair, p.Sound ∧ token = p.text ∧ v = p.kept := by
  unfold parseVersion at parsed
  dsimp only at parsed
  split at parsed
  · cases parsed
  rename_i bracket
  split at parsed
  · cases parsed
  rename_i inside after found
  split at parsed
  · cases parsed
  rename_i paren
  split at parsed
  · cases parsed
  rename_i inside' tail found'
  split at parsed
  · cases parsed
  rename_i some_
  obtain ⟨someVersion, someUrl⟩ := not_or.mp some_
  obtain ⟨front, version, back, shape, blanks, field, blanks', is⟩ :=
    bracketed (by decide) (Decidable.not_not.mp bracket) found someVersion
  obtain ⟨front', url, back', shape', blanks'', field', blanks''', is'⟩ :=
    bracketed (by decide) (Decidable.not_not.mp paren) found' someUrl
  refine ⟨⟨token.takeWhile blank, front, version, back, after.takeWhile blank, front', url, back', tail⟩,
    ⟨fun c member => List.mem_takeWhile_imp member, blanks, field, blanks', fun c member => List.mem_takeWhile_imp member,
      blanks'', field', blanks'''⟩, ?_, ?_⟩
  · dsimp only [Pair.text]
    rw [← shape', List.takeWhile_append_dropWhile, ← shape, List.takeWhile_append_dropWhile]
  · rw [is, is'] at parsed
    exact (Except.ok.inj parsed).symm

theorem parseVersion_error {line : Nat} {e : ParseError} (failed : parseVersion line token = .error e) : e.line = line := by
  unfold parseVersion at failed
  dsimp only at failed
  split at failed
  · cases failed
    rfl
  split at failed
  · cases failed
    rfl
  split at failed
  · cases failed
    rfl
  split at failed
  · cases failed
    rfl
  split at failed
  · cases failed
    rfl
  · cases failed

end Pairs

section Bodies
variable {line fuel : Nat} {name body : Bytes} {acc : List Version}

theorem text_some (p : Pair) : ∃ c cs, p.text = c :: cs :=
  List.exists_cons_of_ne_nil (by simp [Pair.text])

theorem parseVersions_comma {p : Pair} (sound : p.Sound) (whole : 44 ∉ p.text) (rest : Bytes) (few : acc.length < qtpkgMaxVersions) :
    parseVersions line name (fuel + 1) (p.text ++ 44 :: rest) acc = parseVersions line name fuel rest (acc ++ [p.kept]) := by
  have found := cut_at whole rest
  have parsed := parseVersion_pair sound line
  obtain ⟨c, cs, shape⟩ := text_some p
  rw [shape] at found parsed
  rw [shape, List.cons_append, parseVersions, ← List.cons_append, found]
  simp only [Option.getD_some, parsed, Nat.not_le.mpr few, if_false]
  rfl

theorem parseVersions_last {p : Pair} (sound : p.Sound) (whole : 44 ∉ p.text) (few : acc.length < qtpkgMaxVersions) :
    parseVersions line name (fuel + 1) p.text acc = .ok (acc ++ [p.kept]) := by
  have missing := cut_missing whole
  have parsed := parseVersion_pair sound line
  obtain ⟨c, cs, shape⟩ := text_some p
  rw [shape] at missing parsed
  rw [shape, parseVersions, missing]
  simp only [Option.getD_none, parsed, Nat.not_le.mpr few, if_false]
  cases fuel with
  | zero => rfl
  | succ fuel => rfl

theorem parseVersions_pairs {pairs : List Pair} {comma : Bytes} (some_ : pairs ≠ []) (sound : ∀ p ∈ pairs, p.Sound ∧ 44 ∉ p.text)
    (last : comma = [] ∨ comma = [44]) (enough : (joined pairs).length < fuel) (few : acc.length + pairs.length ≤ qtpkgMaxVersions) :
    parseVersions line name fuel (joined pairs ++ comma) acc = .ok (acc ++ pairs.map Pair.kept) := by
  induction pairs generalizing fuel acc with
  | nil => exact absurd rfl some_
  | cons p pairs ih =>
    obtain ⟨here, whole⟩ := sound p List.mem_cons_self
    rw [List.length_cons] at few
    obtain ⟨fuel, rfl⟩ : ∃ n, fuel = n + 1 := ⟨fuel - 1, by omega⟩
    cases pairs with
    | nil =>
      rcases last with rfl | rfl
      · rw [List.append_nil]
        exact parseVersions_last here whole (by omega)
      · rw [joined, parseVersions_comma here whole [] (by omega)]
        cases fuel with
        | zero => rfl
        | succ fuel => rfl
    | cons q ps =>
      rw [joined, List.length_append, List.length_cons] at enough
      rw [joined, List.append_assoc, List.cons_append, parseVersions_comma here whole _ (by omega),
        ih (by simp) (fun r later => sound r (List.mem_cons_of_mem _ later)) (by omega)
          (by rw [List.length_append, List.length_singleton]; omega),
        List.append_assoc]
      rfl

theorem parseVersions_round {token rest : Bytes} {c : UInt8} {cs : Bytes} {vs : List Version}
    (split : (cut 44 (c :: cs)).getD (c :: cs, []) = (token, rest))
    (parsed : parseVersions line name (fuel + 1) (c :: cs) acc = .ok vs) :
    ∃ p : Pair, p.Sound ∧ token = p.text ∧ acc.length < qtpkgMaxVersions ∧
      parseVersions line name fuel rest (acc ++ [p.kept]) = .ok vs := by
  rw [parseVersions, split] at parsed
  dsimp only at parsed
  cases first : parseVersion line token with
  | error e =>
    rw [first] at parsed
    cases parsed
  | ok v =>
    rw [first] at parsed
    obtain ⟨p, sound, shape, rfl⟩ := parseVersion_ok first
    change (if acc.length ≥ qtpkgMaxVersions then _ else _) = _ at parsed
    split at parsed
    · cases parsed
    · rename_i few
      exact ⟨p, sound, shape, Nat.lt_of_not_le few, parsed⟩

theorem joined_cons (p : Pair) {pairs : List Pair} (some_ : pairs ≠ []) : joined (p :: pairs) = p.text ++ 44 :: joined pairs := by
  cases pairs with
  | nil => exact absurd rfl some_
  | cons q ps => rfl

theorem parseVersions_ok {vs : List Version} (parsed : parseVersions line name fuel body acc = .ok vs) (enough : body.length < fuel) :
    ∃ pairs comma, body = joined pairs ++ comma ∧ (∀ p ∈ pairs, p.Sound ∧ 44 ∉ p.text) ∧ (comma = [] ∨ comma = [44] ∧ pairs ≠ []) ∧
      (pairs ≠ [] → acc.length + pairs.length ≤ qtpkgMaxVersions) := by
  induction fuel generalizing body acc with
  | zero => exact absurd enough (Nat.not_lt_zero _)
  | succ fuel ih =>
    cases body with
    | nil => exact ⟨[], [], rfl, by simp, .inl rfl, fun some_ => absurd rfl some_⟩
    | cons c cs =>
      rcases cut_cases 44 (c :: cs) with ⟨whole, none_⟩ | ⟨token, rest, parts, whole, found⟩
      · have split : (cut 44 (c :: cs)).getD (c :: cs, []) = (c :: cs, []) := by rw [none_, Option.getD_none]
        obtain ⟨p, sound, shape, few, -⟩ := parseVersions_round split parsed
        refine ⟨[p], [], by rw [shape, List.append_nil]; rfl, ?_, .inl rfl, fun _ => few⟩
        intro q member
        cases List.mem_singleton.mp member
        exact ⟨sound, shape ▸ whole⟩
      · have split : (cut 44 (c :: cs)).getD (c :: cs, []) = (token, rest) := by rw [found, Option.getD_some]
        obtain ⟨p, sound, rfl, few, rest_⟩ := parseVersions_round split parsed
        rw [parts, List.length_append, List.length_cons] at enough
        obtain ⟨pairs, comma, shape, sounds, last, fewer⟩ := ih rest_ (by omega)
        have all : ∀ q ∈ p :: pairs, q.Sound ∧ 44 ∉ q.text := by
          intro q member
          rcases List.mem_cons.mp member with rfl | later
          · exact ⟨sound, whole⟩
          · exact sounds q later
        by_cases none_ : pairs = []
        · subst none_
          rcases last with rfl | ⟨-, some_⟩
          · refine ⟨[p], [44], ?_, all, .inr ⟨rfl, by simp⟩, fun _ => few⟩
            rw [parts, shape]
            rfl
          · exact absurd rfl some_
        · refine ⟨p :: pairs, comma, ?_, all, last.imp_right fun both => ⟨both.1, by simp⟩, fun _ => ?_⟩
          · rw [parts, shape, joined_cons p none_]
            simp
          · have less := fewer none_
            rw [List.length_append, List.length_singleton] at less
            rw [List.length_cons]
            omega

theorem parseVersions_error {e : ParseError} (failed : parseVersions line name fuel body acc = .error e) : e.line = line := by
  induction fuel generalizing body acc with
  | zero => cases failed
  | succ fuel ih =>
    cases body with
    | nil => cases failed
    | cons c cs =>
      rw [parseVersions] at failed
      cases first : parseVersion line ((cut 44 (c :: cs)).getD (c :: cs, [])).1 with
      | error e' =>
        dsimp only at failed
        rw [first] at failed
        cases failed
        exact parseVersion_error first
      | ok v =>
        dsimp only at failed
        rw [first] at failed
        change (if acc.length ≥ qtpkgMaxVersions then _ else _) = _ at failed
        split at failed
        · cases failed
          rfl
        · exact ih failed

end Bodies

section Heads
variable {line : Nat} {text rest : Bytes} {h : Heading}

theorem nameChar_solid : ∀ c : UInt8, nameChar c = true → blankOrReturn c = false ∧ blank c = false ∧ c ≠ 35 ∧ c ≠ 61 := by
  have all : ∀ n < 256, nameChar (UInt8.ofNat n) = true → blankOrReturn (UInt8.ofNat n) = false ∧ blank (UInt8.ofNat n) = false ∧
      UInt8.ofNat n ≠ 35 ∧ UInt8.ofNat n ≠ 61 := by decide +kernel
  intro c
  simpa using all c.toNat c.toNat_lt

theorem parseHead_heading (sound : h.Sound) (line : Nat) (rest : Bytes) : parseHead line (h.text ++ rest) =
    match cut 59 rest with
    | none => .error ⟨line, .missingSemicolon⟩
    | some (body, _) => .ok (some (⟨h.name, sound.name.chars⟩, body.dropWhile blank)) := by
  obtain ⟨c, cs, shape⟩ := List.exists_cons_of_ne_nil sound.name.some
  have first := nameChar_solid c (sound.name.chars c (shape ▸ List.mem_cons_self))
  have start : (h.text ++ rest).dropWhile blankOrReturn = (h.name ++ h.gap) ++ 61 :: rest := by
    have parts : h.text ++ rest = h.front ++ ((h.name ++ h.gap) ++ 61 :: rest) := by simp [Heading.text]
    rw [parts]
    apply dropWhile_front sound.front
    intro d head
    rw [shape] at head
    cases head
    exact first.1
  have whole : 61 ∉ h.name ++ h.gap := by
    intro member
    rcases List.mem_append.mp member with inside | inside
    · exact (nameChar_solid 61 (sound.name.chars 61 inside)).2.2.2 rfl
    · exact blanks_missing sound.gap (by decide) inside
  have name : trimEnd blank (h.name ++ h.gap) = h.name := by
    apply trimEnd_back sound.gap
    intro d last
    exact (nameChar_solid d (sound.name.chars d (List.mem_of_getLast? last))).2.1
  have solid : ¬ ((h.name ++ h.gap) ++ 61 :: rest = [] ∨ ((h.name ++ h.gap) ++ 61 :: rest).head? = some 35) := by
    rw [shape]
    simp [first.2.2.1]
  unfold parseHead
  dsimp only
  rw [start, if_neg solid, cut_at whole]
  dsimp only
  cases cut 59 rest with
  | none => simp only [name, sound.name.some, if_false, dif_pos sound.name.chars]
  | some parts => simp only [name, sound.name.some, if_false, dif_pos sound.name.chars]

theorem parseHead_trail (trail : Trail text) (line : Nat) : parseHead line text = .ok none := by
  obtain ⟨front, space, rfl | ⟨comment, rfl⟩⟩ := trail
  · have all := dropWhile_front space (b := []) (by simp)
    rw [List.append_nil] at all
    unfold parseHead
    dsimp only
    rw [all, if_pos (.inl rfl)]
  · have all := dropWhile_front space (b := 35 :: comment) (fun c head => by
      cases head
      decide)
    unfold parseHead
    dsimp only
    rw [all, if_pos (.inr rfl)]

theorem parseHead_none (parsed : parseHead line text = .ok none) : Trail text := by
  have whole : text = text.takeWhile blankOrReturn ++ text.dropWhile blankOrReturn := List.takeWhile_append_dropWhile.symm
  have space : Space (text.takeWhile blankOrReturn) := fun c member => List.mem_takeWhile_imp member
  unfold parseHead at parsed
  dsimp only at parsed
  split at parsed
  · rename_i nothing
    refine ⟨_, space, ?_⟩
    rcases nothing with empty | comment
    · left
      rwa [empty, List.append_nil] at whole
    · right
      obtain ⟨comment, is⟩ := List.head?_eq_some_iff.mp comment
      rw [is] at whole
      exact ⟨comment, whole⟩
  · exfalso
    split at parsed
    · cases parsed
    · split at parsed
      · cases parsed
      · split at parsed
        · split at parsed
          · cases parsed
          · cases parsed
        · cases parsed

theorem parseHead_some {name : { name : Bytes // ∀ c ∈ name, nameChar c = true }} {body : Bytes}
    (parsed : parseHead line text = .ok (some (name, body))) :
    ∃ (h : Heading) (inside after : Bytes), h.Sound ∧ text = h.text ++ (inside ++ 59 :: after) ∧ 59 ∉ inside ∧ name.1 = h.name ∧ body = inside.dropWhile blank := by
  have whole : text = text.takeWhile blankOrReturn ++ text.dropWhile blankOrReturn := List.takeWhile_append_dropWhile.symm
  have space : Space (text.takeWhile blankOrReturn) := fun c member => List.mem_takeWhile_imp member
  unfold parseHead at parsed
  dsimp only at parsed
  split at parsed
  · cases parsed
  · rcases cut_cases 61 (text.dropWhile blankOrReturn) with ⟨-, none_⟩ | ⟨front, rest, parts, -, found⟩
    · rw [none_] at parsed
      cases parsed
    rw [found] at parsed
    dsimp only at parsed
    split at parsed
    · cases parsed
    rename_i some_
    split at parsed
    · rename_i named
      rcases cut_cases 59 rest with ⟨-, none_⟩ | ⟨inside, after, parts', closed, found'⟩
      · rw [none_] at parsed
        cases parsed
      rw [found'] at parsed
      obtain ⟨rfl, rfl⟩ := Prod.mk.inj (Option.some.inj (Except.ok.inj parsed))
      have trims : front = trimEnd blank front ++ (front.reverse.takeWhile blank).reverse := by
        rw [trimEnd, ← List.reverse_append, List.takeWhile_append_dropWhile, List.reverse_reverse]
      refine ⟨⟨text.takeWhile blankOrReturn, trimEnd blank front, (front.reverse.takeWhile blank).reverse⟩, inside, after,
        ⟨space, ⟨some_, named⟩, fun c member => List.mem_takeWhile_imp (List.mem_reverse.mp member)⟩, ?_, closed, rfl, rfl⟩
      rw [← parts']
      dsimp only [Heading.text]
      rw [← List.append_assoc (trimEnd blank front), ← trims, List.append_assoc, List.append_assoc, List.singleton_append, ← parts, ← whole]
    · cases parsed

theorem parseHead_error {e : ParseError} (failed : parseHead line text = .error e) : e.line = line := by
  unfold parseHead at failed
  dsimp only at failed
  split at failed
  · cases failed
  split at failed
  · cases failed
    rfl
  split at failed
  · cases failed
    rfl
  split at failed
  · split at failed
    · cases failed
      rfl
    · cases failed
  · cases failed
    rfl

end Heads

section Lines
variable {line : Nat} {text gap comment after : Bytes} {h : Heading} {pairs : List Pair}

theorem parseLine_head (sound : h.Sound) (line : Nat) {inside : Bytes} (closed : 59 ∉ inside) (after : Bytes) :
    parseLine line (h.text ++ (inside ++ 59 :: after)) =
      (if inside.dropWhile blank = [] ∨ (inside.dropWhile blank).head? = some 35 then .ok []
        else parseVersions line h.name ((inside.dropWhile blank).length + 1) (inside.dropWhile blank) []).map fun vs => some (h.name, vs) := by
  unfold parseLine
  rw [parseHead_heading sound line, cut_at closed]
  by_cases nothing : inside.dropWhile blank = [] ∨ (inside.dropWhile blank).head? = some 35
  · change (if inside.dropWhile blank = [] ∨ (inside.dropWhile blank).head? = some 35 then _ else _) = _
    rw [if_pos nothing, if_pos nothing]
    rfl
  · change (if inside.dropWhile blank = [] ∨ (inside.dropWhile blank).head? = some 35 then _ else _) = _
    rw [if_neg nothing, if_neg nothing]
    cases parseVersions line h.name ((inside.dropWhile blank).length + 1) (inside.dropWhile blank) [] with
    | error e => rfl
    | ok vs => rfl

theorem parseLine_trail (trail : Trail text) (line : Nat) : parseLine line text = .ok none := by
  rw [parseLine, parseHead_trail trail]
  rfl

theorem parseLine_bare (sound : h.Sound) (blanks : Blanks gap) (closed : 59 ∈ comment) (line : Nat) :
    parseLine line (h.text ++ (gap ++ 35 :: comment)) = .ok (some (h.name, [])) := by
  obtain ⟨front, back, rfl, whole⟩ := List.eq_append_cons_of_mem closed
  have parts : gap ++ 35 :: (front ++ 59 :: back) = (gap ++ 35 :: front) ++ 59 :: back := by simp
  have clear : 59 ∉ gap ++ 35 :: front := by
    simp [blanks_missing blanks (c := 59) (by decide), whole]
  have drops : (gap ++ 35 :: front).dropWhile blank = 35 :: front := dropWhile_front blanks fun c head => by
    cases head
    decide
  rw [parts, parseLine_head sound line clear, drops, if_pos (.inr rfl)]
  rfl

theorem parseLine_open (sound : h.Sound) {rest : Bytes} (open_ : 59 ∉ rest) (line : Nat) :
    parseLine line (h.text ++ rest) = .error ⟨line, .missingSemicolon⟩ := by
  rw [parseLine, parseHead_heading sound line, cut_missing open_]
  rfl

theorem parseLine_empty (sound : h.Sound) (blanks : Blanks gap) (line : Nat) (after : Bytes) :
    parseLine line (h.text ++ (gap ++ 59 :: after)) = .ok (some (h.name, [])) := by
  have drops := dropWhile_front blanks (b := []) (by simp)
  rw [List.append_nil] at drops
  rw [parseLine_head sound line (blanks_missing blanks (by decide)), drops, if_pos (.inl rfl)]
  rfl

theorem joined_before (p : Pair) (pairs : List Pair) : joined (p :: pairs) = p.before ++ joined ({ p with before := [] } :: pairs) := by
  cases pairs with
  | nil => rfl
  | cons q ps =>
    rw [joined, joined, ← List.append_assoc]
    rfl

theorem joined_head (p : Pair) (pairs : List Pair) (rest : Bytes) : (joined ({ p with before := [] } :: pairs) ++ rest).head? = some 91 := by
  cases pairs with
  | nil => rfl
  | cons q ps => rfl

theorem joined_missing {c : UInt8} (comma : c ≠ 44) (missing : ∀ p ∈ pairs, c ∉ p.text) : c ∉ joined pairs := by
  induction pairs with
  | nil => simp [joined]
  | cons p pairs ih =>
    by_cases none_ : pairs = []
    · subst none_
      exact missing p List.mem_cons_self
    · rw [joined_cons p none_]
      simp [missing p List.mem_cons_self, comma, ih fun q later => missing q (List.mem_cons_of_mem _ later)]

theorem mem_joined {c : UInt8} {p : Pair} (member : p ∈ pairs) (inside : c ∈ p.text) : c ∈ joined pairs := by
  induction pairs with
  | nil => cases member
  | cons q pairs ih =>
    by_cases none_ : pairs = []
    · subst none_
      cases List.mem_singleton.mp member
      exact inside
    · rw [joined_cons q none_]
      rcases List.mem_cons.mp member with rfl | later
      · exact List.mem_append_left _ inside
      · exact List.mem_append_right _ (List.mem_cons_of_mem _ (ih later))

theorem parseLine_pairs (sound : h.Sound) (some_ : pairs ≠ []) (pairsSound : ∀ p ∈ pairs, p.Sound ∧ 44 ∉ p.text ∧ 59 ∉ p.text)
    (few : pairs.length ≤ qtpkgMaxVersions) {comma : Bytes} (last : comma = [] ∨ comma = [44]) (line : Nat) (after : Bytes) :
    parseLine line (h.text ++ (joined pairs ++ (comma ++ 59 :: after))) = .ok (some (h.name, pairs.map Pair.kept)) := by
  obtain ⟨p, ps, rfl⟩ := List.exists_cons_of_ne_nil some_
  obtain ⟨here, whole, whole'⟩ := pairsSound p List.mem_cons_self
  have clear : 59 ∉ joined (p :: ps) ++ comma := by
    have first := joined_missing (c := 59) (by decide) fun q member => (pairsSound q member).2.2
    rcases last with rfl | rfl
    · simpa using first
    · simpa using first
  have drops : (joined (p :: ps) ++ comma).dropWhile blank = joined ({ p with before := [] } :: ps) ++ comma := by
    rw [joined_before, List.append_assoc]
    apply dropWhile_front here.before
    intro c head
    rw [joined_head] at head
    cases head
    decide
  have parts : joined (p :: ps) ++ (comma ++ 59 :: after) = (joined (p :: ps) ++ comma) ++ 59 :: after := by simp
  have head := joined_head p ps comma
  have solid : ¬ (joined ({ p with before := [] } :: ps) ++ comma = [] ∨
      (joined ({ p with before := [] } :: ps) ++ comma).head? = some 35) := by
    rintro (empty | comment)
    · rw [empty] at head
      cases head
    · rw [head] at comment
      cases comment
  have sounds : ∀ q ∈ { p with before := [] } :: ps, q.Sound ∧ 44 ∉ q.text := by
    intro q member
    rcases List.mem_cons.mp member with rfl | later
    · refine ⟨⟨by simp [Blanks], here.versionFront, here.version, here.versionBack, here.between, here.urlFront, here.url, here.urlBack⟩, ?_⟩
      intro inside
      exact whole (List.mem_append_right p.before inside)
    · obtain ⟨sound, whole, -⟩ := pairsSound q (List.mem_cons_of_mem _ later)
      exact ⟨sound, whole⟩
  rw [parts, parseLine_head sound line clear, drops, if_neg solid,
    parseVersions_pairs (by simp) sounds last (by rw [List.length_append]; omega) (by simpa using few)]
  rfl

theorem parseLine_loose (loose : Loose text) (line : Nat) : ∃ e, parseLine line text = .ok (some e) := by
  cases loose with
  | empty sound blanks => exact ⟨_, parseLine_empty sound blanks line _⟩
  | entry sound some_ pairsSound few last => exact ⟨_, parseLine_pairs sound some_ pairsSound few last line _⟩

theorem parseLine_ok {e : Option (Bytes × List Version)} (parsed : parseLine line text = .ok e) :
    (∃ d, Documented text d) ∨ Loose text := by
  cases head : parseHead line text with
  | error e =>
    rw [parseLine, head] at parsed
    cases parsed
  | ok found =>
    cases found with
    | none => exact .inl ⟨none, .nothing (parseHead_none head)⟩
    | some pair =>
      obtain ⟨h, inside, after, sound, rfl, closed, -, -⟩ := parseHead_some head
      rw [parseLine_head sound line closed] at parsed
      have whole : inside = inside.takeWhile blank ++ inside.dropWhile blank := List.takeWhile_append_dropWhile.symm
      have blanks : Blanks (inside.takeWhile blank) := fun c member => List.mem_takeWhile_imp member
      split at parsed
      · rename_i nothing
        rcases nothing with empty | mark
        · right
          rw [empty, List.append_nil] at whole
          exact whole ▸ .empty sound (whole ▸ blanks)
        · left
          obtain ⟨comment, is⟩ := List.head?_eq_some_iff.mp mark
          rw [is] at whole
          rw [whole, List.append_assoc]
          exact ⟨_, .bare sound blanks⟩
      · rename_i something
        cases versions : parseVersions line h.name ((inside.dropWhile blank).length + 1) (inside.dropWhile blank) [] with
        | error e =>
          rw [versions] at parsed
          cases parsed
        | ok vs =>
          obtain ⟨pairs, comma, shape, sounds, last, few⟩ := parseVersions_ok versions (Nat.lt_succ_self _)
          cases pairs with
          | nil =>
            rcases last with rfl | ⟨-, some_⟩
            · exact absurd (.inl shape) something
            · exact absurd rfl some_
          | cons p ps =>
            have moved : inside = joined ({ p with before := inside.takeWhile blank ++ p.before } :: ps) ++ comma := by
              rw [shape, joined_before, ← List.append_assoc, ← List.append_assoc] at whole
              rw [joined_before]
              exact whole
            have clear : ∀ q ∈ { p with before := inside.takeWhile blank ++ p.before } :: ps, 59 ∉ q.text := by
              intro q member semicolon
              apply closed
              rw [moved]
              exact List.mem_append_left _ (mem_joined member semicolon)
            obtain ⟨here, comma_⟩ := sounds p List.mem_cons_self
            have sounds' : ∀ q ∈ { p with before := inside.takeWhile blank ++ p.before } :: ps, q.Sound ∧ 44 ∉ q.text ∧ 59 ∉ q.text := by
              intro q member
              rcases List.mem_cons.mp member with rfl | later
              · refine ⟨⟨?_, here.versionFront, here.version, here.versionBack, here.between, here.urlFront, here.url, here.urlBack⟩,
                  ?_, clear _ member⟩
                · intro c inside_
                  exact (List.mem_append.mp inside_).elim (blanks c) (here.before c)
                · have split : ({ p with before := inside.takeWhile blank ++ p.before } : Pair).text = inside.takeWhile blank ++ p.text :=
                    List.append_assoc ..
                  rw [split, List.mem_append]
                  exact not_or.mpr ⟨blanks_missing blanks (by decide), comma_⟩
              · obtain ⟨sound, whole⟩ := sounds q (List.mem_cons_of_mem _ later)
                exact ⟨sound, whole, clear _ member⟩
            right
            rw [moved, List.append_assoc]
            exact .entry sound (by simp) sounds' (by simpa using few (by simp)) (last.imp_right And.left)

theorem first_unique {c : UInt8} {a b a' b' : Bytes} (whole : c ∉ a) (whole' : c ∉ a') (same : a ++ c :: b = a' ++ c :: b') :
    a = a' ∧ b = b' := by
  have both := cut_at whole b
  rw [same, cut_at whole'] at both
  obtain ⟨rfl, rfl⟩ := Prod.mk.inj (Option.some.inj both)
  exact ⟨rfl, rfl⟩

theorem first_later {a s x : Bytes} {b b' : Bytes} (whole : 59 ∉ a ++ s) (whole' : 59 ∉ b) (same : (a ++ s) ++ x = b ++ 59 :: b') :
    ∃ c, b = (a ++ s) ++ c ∧ x = c ++ 59 :: b' := by
  have member : 59 ∈ x := by
    have total : 59 ∈ (a ++ s) ++ x := by simp [same]
    exact (List.mem_append.mp total).resolve_left whole
  obtain ⟨c, d, rfl, open_⟩ := List.eq_append_cons_of_mem member
  have clear : 59 ∉ (a ++ s) ++ c := by
    rw [List.mem_append]
    exact not_or.mpr ⟨whole, open_⟩
  rw [← List.append_assoc] at same
  obtain ⟨rfl, rfl⟩ := first_unique clear whole' same
  exact ⟨c, rfl, rfl⟩

def Separates (c : UInt8) : Prop := c = 44 ∨ c = 59

theorem first_separator (some_ : ∃ c ∈ text, Separates c) :
    ∃ front c back, text = front ++ c :: back ∧ Separates c ∧ ∀ d ∈ front, ¬ Separates d := by
  induction text with
  | nil =>
    obtain ⟨c, member, -⟩ := some_
    cases member
  | cons d text ih =>
    by_cases here : Separates d
    · exact ⟨[], d, text, rfl, here, by simp⟩
    · obtain ⟨c, member, separates⟩ := some_
      have later : c ∈ text := (List.mem_cons.mp member).resolve_left fun same => here (same ▸ separates)
      obtain ⟨front, c', back, rfl, separates', clear⟩ := ih ⟨c, later, separates⟩
      refine ⟨d :: front, c', back, rfl, separates', fun x inside => ?_⟩
      rcases List.mem_cons.mp inside with rfl | inside
      · exact here
      · exact clear x inside

theorem blanks_clear (blanks : Blanks gap) : ∀ d ∈ gap, ¬ Separates d := by
  rintro d member (rfl | rfl)
  · exact absurd (blanks 44 member) (by decide)
  · exact absurd (blanks 59 member) (by decide)

theorem parseVersion_unclosed {before inside : Bytes} (blanks : Blanks before) (open_ : 93 ∉ inside) (line : Nat) :
    parseVersion line (before ++ 91 :: inside) = .error ⟨line, .missingBracket⟩ := by
  have drops : (before ++ 91 :: inside).dropWhile blank = 91 :: inside := dropWhile_front blanks fun c head => by
    cases head
    decide
  unfold parseVersion
  dsimp only
  rw [drops, if_neg (by simp), cut_missing (by simp [open_])]

theorem parseVersion_uncalled {before version between inside : Bytes} (blanks : Blanks before) (closed : 93 ∉ version)
    (blanks' : Blanks between) (open_ : 41 ∉ inside) (line : Nat) :
    ∃ e, parseVersion line (before ++ 91 :: (version ++ 93 :: (between ++ 40 :: inside))) = .error e := by
  have drops : (before ++ 91 :: (version ++ 93 :: (between ++ 40 :: inside))).dropWhile blank =
      (91 :: version) ++ 93 :: (between ++ 40 :: inside) := dropWhile_front blanks fun c head => by
    cases head
    decide
  have drops' : (between ++ 40 :: inside).dropWhile blank = 40 :: inside := dropWhile_front blanks' fun c head => by
    cases head
    decide
  unfold parseVersion
  dsimp only
  rw [drops, if_neg (by simp), cut_at (by simp [closed])]
  dsimp only
  rw [drops', if_neg (by simp), cut_missing (by simp [open_])]
  exact ⟨_, rfl⟩

theorem field_broken {p : Pair} (sound : p.Sound) (inside : 44 ∈ p.version ∨ 59 ∈ p.version ∨ 44 ∈ p.url ∨ 59 ∈ p.url) :
    ∃ front c back, p.text = front ++ c :: back ∧ Separates c ∧ (∀ d ∈ front, ¬ Separates d) ∧ front ≠ [] ∧
      ∀ line, ∃ e, parseVersion line front = .error e := by
  by_cases early : ∃ c ∈ p.version, Separates c
  · obtain ⟨v, c, w, shape, separates, clear⟩ := first_separator early
    have open_ : 93 ∉ p.versionFront ++ v := by
      rw [List.mem_append]
      refine not_or.mpr ⟨blanks_missing sound.versionFront (by decide), fun member => sound.version.whole ?_⟩
      rw [shape]
      exact List.mem_append_left _ member
    refine ⟨p.before ++ 91 :: (p.versionFront ++ v), c,
      w ++ (p.versionBack ++ 93 :: (p.between ++ 40 :: (p.urlFront ++ p.url ++ p.urlBack ++ 41 :: p.tail))), ?_, separates, ?_, by simp,
      fun line => ⟨_, parseVersion_unclosed sound.before open_ line⟩⟩
    · rw [Pair.text, shape]
      simp
    · intro d member
      simp only [List.mem_append, List.mem_cons] at member
      rcases member with member | rfl | member | member
      · exact blanks_clear sound.before d member
      · rintro (same | same) <;> cases same
      · exact blanks_clear sound.versionFront d member
      · exact clear d member
  · have late : ∃ c ∈ p.url, Separates c := by
      rcases inside with member | member | member | member
      · exact absurd ⟨44, member, .inl rfl⟩ early
      · exact absurd ⟨59, member, .inr rfl⟩ early
      · exact ⟨44, member, .inl rfl⟩
      · exact ⟨59, member, .inr rfl⟩
    obtain ⟨v, c, w, shape, separates, clear⟩ := first_separator late
    have closed : 93 ∉ p.versionFront ++ p.version ++ p.versionBack := fun member =>
      sound.version_whole (List.mem_cons_of_mem _ member)
    have open_ : 41 ∉ p.urlFront ++ v := by
      rw [List.mem_append]
      refine not_or.mpr ⟨blanks_missing sound.urlFront (by decide), fun member => sound.url.whole ?_⟩
      rw [shape]
      exact List.mem_append_left _ member
    refine ⟨p.before ++ 91 :: (p.versionFront ++ p.version ++ p.versionBack ++ 93 :: (p.between ++ 40 :: (p.urlFront ++ v))), c,
      w ++ (p.urlBack ++ 41 :: p.tail), ?_, separates, ?_, by simp,
      fun line => parseVersion_uncalled sound.before closed sound.between open_ line⟩
    · rw [Pair.text, shape]
      simp
    · intro d member
      simp only [List.mem_append, List.mem_cons] at member
      rcases member with member | rfl | ((member | member) | member) | rfl | member | rfl | member | member
      · exact blanks_clear sound.before d member
      · rintro (same | same) <;> cases same
      · exact blanks_clear sound.versionFront d member
      · exact fun separates => early ⟨d, member, separates⟩
      · exact blanks_clear sound.versionBack d member
      · rintro (same | same) <;> cases same
      · exact blanks_clear sound.between d member
      · rintro (same | same) <;> cases same
      · exact blanks_clear sound.urlFront d member
      · exact clear d member

theorem text_clear {p : Pair} (sound : p.Sound) (blanks : Blanks p.tail)
    (none_ : ¬ (44 ∈ p.version ∨ 59 ∈ p.version ∨ 44 ∈ p.url ∨ 59 ∈ p.url)) : 44 ∉ p.text ∧ 59 ∉ p.text := by
  simp only [not_or] at none_
  obtain ⟨a, b, c, d⟩ := none_
  have gaps {gap : Bytes} (blanks : Blanks gap) : 44 ∉ gap ∧ 59 ∉ gap :=
    ⟨blanks_missing blanks (by decide), blanks_missing blanks (by decide)⟩
  unfold Pair.text
  simp [a, b, c, d, gaps sound.before, gaps sound.versionFront, gaps sound.versionBack, gaps sound.between, gaps sound.urlFront,
    gaps sound.urlBack, gaps blanks]

theorem parseVersions_broken {name inner after' : Bytes} {fuel : Nat} {acc vs : List Version}
    (pairsSound : ∀ p ∈ pairs, p.Sound ∧ Blanks p.tail)
    (inside : ∃ p ∈ pairs, 44 ∈ p.version ∨ 59 ∈ p.version ∨ 44 ∈ p.url ∨ 59 ∈ p.url)
    (split : joined pairs ++ 59 :: after = inner ++ 59 :: after') (closed : 59 ∉ inner) (enough : inner.length < fuel) :
    parseVersions line name fuel inner acc ≠ .ok vs := by
  induction pairs generalizing inner fuel acc with
  | nil =>
    obtain ⟨p, member, -⟩ := inside
    cases member
  | cons p pairs ih =>
    obtain ⟨sound, blanks⟩ := pairsSound p List.mem_cons_self
    obtain ⟨fuel, rfl⟩ : ∃ n, fuel = n + 1 := ⟨fuel - 1, by omega⟩
    obtain ⟨rest, shape⟩ : ∃ rest, joined (p :: pairs) = p.text ++ rest := by
      cases pairs with
      | nil => exact ⟨[], by rw [List.append_nil]; rfl⟩
      | cons q ps => exact ⟨_, rfl⟩
    intro parsed
    by_cases here : 44 ∈ p.version ∨ 59 ∈ p.version ∨ 44 ∈ p.url ∨ 59 ∈ p.url
    · obtain ⟨front, c, back, parts, separates, clear, some_, fails⟩ := field_broken sound here
      have clear44 : 44 ∉ front := fun member => clear 44 member (.inl rfl)
      have clear59 : 59 ∉ front := fun member => clear 59 member (.inr rfl)
      -- the token of this round is the front part, with or without a comma behind it
      have token : ∃ d ds rest, inner = d :: ds ∧ (cut 44 (d :: ds)).getD (d :: ds, []) = (front, rest) := by
        rw [shape, parts] at split
        obtain ⟨d, ds, nonempty⟩ := List.exists_cons_of_ne_nil some_
        rcases separates with rfl | rfl
        · have split' : (front ++ [44]) ++ (back ++ (rest ++ 59 :: after)) = inner ++ 59 :: after' := by
            rw [← split]
            simp
          obtain ⟨later, is, -⟩ := first_later (by simp [clear59]) closed split'
          refine ⟨d, ds ++ 44 :: later, later, by rw [is, nonempty]; simp, ?_⟩
          have found := cut_at clear44 later
          rw [nonempty, List.cons_append] at found
          rw [found, nonempty]
          rfl
        · have split' : front ++ 59 :: (back ++ (rest ++ 59 :: after)) = inner ++ 59 :: after' := by
            rw [← split]
            simp
          obtain ⟨is, -⟩ := first_unique clear59 closed split'
          refine ⟨d, ds, [], by rw [← is, nonempty], ?_⟩
          have missing := cut_missing clear44
          rw [nonempty] at missing
          rw [missing, nonempty]
          rfl
      obtain ⟨d, ds, rest, rfl, token⟩ := token
      obtain ⟨p', sound', rfl, -⟩ := parseVersions_round token parsed
      obtain ⟨e, failed⟩ := fails line
      rw [parseVersion_pair sound'] at failed
      cases failed
    · obtain ⟨clear44, clear59⟩ := text_clear sound blanks here
      have inside' : ∃ q ∈ pairs, 44 ∈ q.version ∨ 59 ∈ q.version ∨ 44 ∈ q.url ∨ 59 ∈ q.url := by
        obtain ⟨q, member, field⟩ := inside
        rcases List.mem_cons.mp member with rfl | later
        · exact absurd field here
        · exact ⟨q, later, field⟩
      have some_ : pairs ≠ [] := by
        rintro rfl
        obtain ⟨q, member, -⟩ := inside'
        cases member
      have split' : (p.text ++ [44]) ++ (joined pairs ++ 59 :: after) = inner ++ 59 :: after' := by
        rw [← split, joined_cons p some_]
        simp
      obtain ⟨later, rfl, split''⟩ := first_later (by simp [clear59]) closed split'
      obtain ⟨d, ds, nonempty⟩ := text_some p
      have token : (cut 44 (d :: (ds ++ 44 :: later))).getD (d :: (ds ++ 44 :: later), []) = (p.text, later) := by
        have found := cut_at clear44 later
        rw [nonempty, List.cons_append] at found
        rw [found, nonempty]
        rfl
      rw [List.append_assoc, nonempty, List.singleton_append, List.cons_append] at parsed closed enough
      obtain ⟨p', -, -, -, next⟩ := parseVersions_round token parsed
      refine ih (fun q member => pairsSound q (List.mem_cons_of_mem _ member)) inside' split'' (fun member => closed ?_) ?_ next
      · simp [member]
      · rw [List.length_cons, List.length_append, List.length_cons] at enough
        omega

theorem parseLine_separator (sound : h.Sound) (pairsSound : ∀ p ∈ pairs, p.Sound ∧ Blanks p.tail)
    (inside : ∃ p ∈ pairs, 44 ∈ p.version ∨ 59 ∈ p.version ∨ 44 ∈ p.url ∨ 59 ∈ p.url) (e : Option (Bytes × List Version)) :
    parseLine line (h.text ++ (joined pairs ++ 59 :: after)) ≠ .ok e := by
  cases pairs with
  | nil =>
    obtain ⟨p, member, -⟩ := inside
    cases member
  | cons p ps =>
    have here := (pairsSound p List.mem_cons_self).1
    have semicolon : 59 ∈ joined ({ p with before := [] } :: ps) ++ 59 :: after := by simp
    obtain ⟨inner, after', split, closed⟩ := List.eq_append_cons_of_mem semicolon
    have start : ∀ c ∈ inner.head?, c = 91 := by
      intro c head
      have first := joined_head p ps (59 :: after)
      rw [split, List.head?_append, head] at first
      exact Option.some.inj first
    have some_ : inner ≠ [] := by
      rintro rfl
      have first := joined_head p ps (59 :: after)
      rw [split] at first
      cases first
    have drops : (p.before ++ inner).dropWhile blank = inner := dropWhile_front here.before fun c head => by
      rw [start c head]
      decide
    have clear : 59 ∉ p.before ++ inner := by
      rw [List.mem_append]
      exact not_or.mpr ⟨blanks_missing here.before (by decide), closed⟩
    have sounds : ∀ q ∈ { p with before := [] } :: ps, q.Sound ∧ Blanks q.tail := by
      intro q member
      rcases List.mem_cons.mp member with rfl | later
      · exact ⟨⟨by simp [Blanks], here.versionFront, here.version, here.versionBack, here.between, here.urlFront, here.url, here.urlBack⟩,
          (pairsSound p List.mem_cons_self).2⟩
      · exact pairsSound q (List.mem_cons_of_mem _ later)
    have inside' : ∃ q ∈ { p with before := [] } :: ps, 44 ∈ q.version ∨ 59 ∈ q.version ∨ 44 ∈ q.url ∨ 59 ∈ q.url := by
      obtain ⟨q, member, field⟩ := inside
      rcases List.mem_cons.mp member with rfl | later
      · exact ⟨_, List.mem_cons_self, field⟩
      · exact ⟨q, List.mem_cons_of_mem _ later, field⟩
    have whole : joined (p :: ps) ++ 59 :: after = (p.before ++ inner) ++ 59 :: after' := by
      rw [joined_before, List.append_assoc, split, List.append_assoc]
    rw [whole, parseLine_head sound line clear, drops, if_neg]
    · cases versions : parseVersions line h.name (inner.length + 1) inner [] with
      | error e' => exact fun same => by cases same
      | ok vs => exact absurd versions (parseVersions_broken sounds inside' split closed (Nat.lt_succ_self _))
    · rintro (empty | mark)
      · exact some_ empty
      · exact absurd (start 35 mark) (by decide)

theorem parseLine_error {e : ParseError} (failed : parseLine line text = .error e) : e.line = line := by
  cases head : parseHead line text with
  | error e' =>
    rw [parseLine, head] at failed
    cases failed
    exact parseHead_error head
  | ok found =>
    cases found with
    | none =>
      rw [parseLine, head] at failed
      cases failed
    | some pair =>
      obtain ⟨h, inside, after, sound, rfl, closed, -, -⟩ := parseHead_some head
      rw [parseLine_head sound line closed] at failed
      split at failed
      · cases failed
      · cases versions : parseVersions line h.name ((inside.dropWhile blank).length + 1) (inside.dropWhile blank) [] with
        | error e' =>
          rw [versions] at failed
          cases failed
          exact parseVersions_error versions
        | ok vs =>
          rw [versions] at failed
          cases failed

/-- The fields of an entry fit their buffers. -/
structure Fitting (name : Bytes) (versions : List Version) : Prop where
  name : name.length < 64
  few : versions.length ≤ qtpkgMaxVersions
  fields : ∀ v ∈ versions, v.version.length < 32 ∧ v.url.length < 256

theorem kept_release {p : Pair} (fits : p.version.length < 32 ∧ p.url.length < 256) : p.kept = p.release := by
  unfold Pair.kept Pair.release strlcpy
  rw [List.take_of_length_le (by omega), List.take_of_length_le (by omega)]

/-- On a line of the syntax that is not stray the scanner makes the entry the line says. -/
theorem parseLine_documented {e : Option (Bytes × List Version)} (documented : Documented text e) (tidy : ¬ Stray text)
    (fits : ∀ name versions, e = some (name, versions) → Fitting name versions) (line : Nat) : parseLine line text = .ok e := by
  cases documented with
  | nothing trail => exact parseLine_trail trail line
  | @bare h gap comment sound blanks =>
    apply parseLine_bare sound blanks
    by_contra open_
    exact tidy (.bare sound blanks open_)
  | @entry h pairs after sound some_ pairsSound trail =>
    have fitting := fits _ _ rfl
    have clear : ∀ p ∈ pairs, p.Sound ∧ 44 ∉ p.text ∧ 59 ∉ p.text := by
      intro p member
      obtain ⟨here, blanks⟩ := pairsSound p member
      refine ⟨here, text_clear here blanks fun field => tidy ?_⟩
      exact .separator sound pairsSound trail ⟨p, member, field⟩
    have parsed := parseLine_pairs sound some_ clear (by simpa using fitting.few) (.inl rfl) line after
    rw [List.nil_append] at parsed
    rw [parsed]
    have same : pairs.map Pair.kept = pairs.map Pair.release :=
      List.map_congr_left fun p member => kept_release (fitting.fields p.release (List.mem_map_of_mem member))
    rw [same]

theorem parseLine_stray (stray : Stray text) (line : Nat) :
    ((∃ d, Documented text d) → ∃ e, parseLine line text = .error e) ∧
      ((∀ d, ¬ Documented text d) → ∃ e, parseLine line text = .ok (some e)) := by
  cases stray with
  | @bare h gap comment sound blanks open_ =>
    refine ⟨fun _ => ⟨_, parseLine_open sound ?_ line⟩, fun other => absurd (.bare sound blanks) (other _)⟩
    simp [blanks_missing blanks (c := 59) (by decide), open_]
  | @separator h pairs after sound pairsSound trail inside =>
    have some_ : pairs ≠ [] := by
      rintro rfl
      obtain ⟨p, member, -⟩ := inside
      cases member
    refine ⟨fun _ => ?_, fun other => absurd (.entry sound some_ pairsSound trail) (other _)⟩
    cases parsed : parseLine line (h.text ++ (joined pairs ++ 59 :: after)) with
    | error e => exact ⟨e, rfl⟩
    | ok e => exact absurd parsed (parseLine_separator sound pairsSound inside e)
  | loose loose other => exact ⟨fun ⟨d, documented⟩ => absurd documented (other d), fun _ => parseLine_loose loose line⟩

theorem parseLine_undocumented (other : ∀ d, ¬ Documented text d) (tidy : ¬ Stray text) (line : Nat) :
    ∃ e, parseLine line text = .error e := by
  cases parsed : parseLine line text with
  | error e => exact ⟨e, rfl⟩
  | ok e =>
    rcases parseLine_ok parsed with ⟨d, documented⟩ | loose
    · exact absurd documented (other d)
    · exact absurd (.loose loose other) tidy

end Lines
end Qito.Pkg
