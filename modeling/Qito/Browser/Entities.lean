import Qito.Browser.Model

/-! decode_entities undoes escaping for just the texts in which no entity stands. -/
namespace Qito.Browser
open Http Search Traces

/-- The characters that are escaped, with the entities that stand for them behind '&'. -/
def escapes : List (UInt8 × Bytes) :=
  [(38, ascii "amp;"), (60, ascii "lt;"), (62, ascii "gt;"), (34, ascii "quot;"), (39, ascii "#39;")]

def escapeChar (es : List (UInt8 × Bytes)) (c : UInt8) : Bytes :=
  match es.find? fun e => e.1 == c with
  | some e => 38 :: e.2
  | none => [c]

def escape (text : Bytes) : Bytes := text.flatMap (escapeChar escapes)

section Escaped
variable {es : List (UInt8 × Bytes)} {c d : UInt8} {x text : Bytes}

theorem escapeChar_cases (c : UInt8) : (∃ e ∈ es, e.1 = c ∧ escapeChar es c = 38 :: e.2) ∨ escapeChar es c = [c] := by
  unfold escapeChar
  cases found : es.find? fun e => e.1 == c with
  | none => exact .inr rfl
  | some e =>
    have same : (e.1 == c) = true := List.find?_some (p := fun e : UInt8 × Bytes => e.1 == c) found
    exact .inl ⟨e, List.mem_of_find?_eq_some found, eq_of_beq same, rfl⟩

theorem prefix_escaped (plain : 38 ∉ x) (leads : x <+: text.flatMap (escapeChar es)) : x <+: text := by
  induction text generalizing x with
  | nil => exact leads
  | cons c text ih =>
    cases x with
    | nil => exact List.nil_prefix
    | cons a x =>
      rw [List.flatMap_cons] at leads
      rcases escapeChar_cases c with ⟨e, -, -, shape⟩ | shape
      · rw [shape, List.cons_append, List.cons_prefix_cons] at leads
        exact absurd (leads.1 ▸ List.mem_cons_self) plain
      · rw [shape, List.singleton_append, List.cons_prefix_cons] at leads
        rw [List.cons_prefix_cons]
        exact ⟨leads.1, ih (fun member => plain (List.mem_cons_of_mem _ member)) leads.2⟩

theorem infix_behind {front back : Bytes} (plain : 38 ∉ front) (within : 38 :: x <:+: front ++ back) : 38 :: x <:+: back := by
  induction front with
  | nil => exact within
  | cons a front ih =>
    rcases List.infix_cons_iff.mp within with leads | behind
    · exact absurd ((List.cons_prefix_cons.mp leads).1 ▸ List.mem_cons_self) plain
    · exact ih (fun member => plain (List.mem_cons_of_mem _ member)) behind

/-- The names of the other entities do not begin alike. -/
def Apart (d : UInt8) (x : Bytes) (es : List (UInt8 × Bytes)) : Prop :=
  38 ∉ x ∧ ∀ e ∈ es, e.1 ≠ d ∧ 38 ∉ e.2 ∧ ¬ x <+: e.2 ∧ ¬ e.2 <+: x

theorem not_infix_escaped (apart : Apart d x es) (absent : ¬ 38 :: x <:+: text) :
    ¬ 38 :: x <:+: text.flatMap (escapeChar es) := by
  induction text with
  | nil => exact absent
  | cons c text ih =>
    rw [List.infix_cons_iff, not_or] at absent
    rw [List.flatMap_cons]
    intro within
    rcases escapeChar_cases c with ⟨e, member, -, shape⟩ | shape
    · obtain ⟨-, plain, one, other⟩ := apart.2 e member
      rw [shape, List.cons_append] at within
      rcases List.infix_cons_iff.mp within with leads | behind
      · have front := (List.cons_prefix_cons.mp leads).2
        rcases List.prefix_or_prefix_of_prefix front (List.prefix_append _ _) with shorter | longer
        · exact one shorter
        · exact other longer
      · exact ih absent.2 (infix_behind plain behind)
    · rw [shape, List.singleton_append] at within
      rcases List.infix_cons_iff.mp within with leads | behind
      · obtain ⟨rfl, front⟩ := List.cons_prefix_cons.mp leads
        exact absent.1 (List.cons_prefix_cons.mpr ⟨rfl, prefix_escaped apart.1 front⟩)
      · exact ih absent.2 behind

theorem escapeChar_self : escapeChar ((d, x) :: es) d = 38 :: x := by
  unfold escapeChar
  rw [List.find?_cons_of_pos (by simp)]

theorem escapeChar_other (other : c ≠ d) : escapeChar ((d, x) :: es) c = escapeChar es c := by
  unfold escapeChar
  rw [List.find?_cons_of_neg (by simpa using other.symm)]

theorem Apart.escapeChar_unescaped (apart : Apart d x es) : escapeChar es d = [d] := by
  rcases escapeChar_cases d with ⟨e, member, same, -⟩ | shape
  · exact absurd same (apart.2 e member).1
  · exact shape

theorem flatMap_other (absent : d ∉ text) : text.flatMap (escapeChar ((d, x) :: es)) = text.flatMap (escapeChar es) :=
  List.flatMap_congr fun _ member => escapeChar_other fun same => absent (same ▸ member)

theorem length_le_escaped (es : List (UInt8 × Bytes)) (text : Bytes) :
    text.length ≤ (text.flatMap (escapeChar es)).length := by
  induction text with
  | nil => exact Nat.le_refl 0
  | cons c text ih =>
    have some_ : 0 < (escapeChar es c).length := by
      rcases escapeChar_cases c with ⟨e, -, -, shape⟩ | shape
      · rw [shape, List.length_cons]
        exact Nat.succ_pos _
      · rw [shape]
        exact Nat.one_pos
    rw [List.flatMap_cons, List.length_append, List.length_cons]
    omega

end Escaped

section Passes
variable {e : Entity} {es : List (UInt8 × Bytes)} {d : UInt8} {n : Nat} {x text done after : Bytes}

theorem decodeEntity_absent (filled : e.entity ≠ []) (absent : ¬ e.entity <:+: text) :
    Ends (decodeEntity e (n + 1) text) text := by
  unfold decodeEntity
  rw [(find_none filled).mpr absent]
  exact (ends_pure _ _).mpr rfl

theorem decodeEntity_step {front back : Bytes} (found : find e.entity (front ++ (e.entity ++ back)) = some front.length) :
    Ends (decodeEntity e (n + 1) (front ++ (e.entity ++ back))) after ↔
      Ends (decodeEntity e n (front ++ (e.replacement ++ back))) after := by
  have rest : (front ++ (e.entity ++ back)).drop (front.length + e.entity.length) = back := by
    rw [← List.append_assoc, ← List.length_append, List.drop_left]
  conv_lhs => unfold decodeEntity
  rw [found]
  simp [rest]

theorem decodeEntity_unescapes (apart : Apart d x es) (absent : ¬ 38 :: x <:+: done ++ text) (rounds : text.count d < n) :
    Ends (decodeEntity ⟨38 :: x, [d]⟩ n (done.flatMap (escapeChar es) ++ text.flatMap (escapeChar ((d, x) :: es))))
      ((done ++ text).flatMap (escapeChar es)) := by
  induction n generalizing done text with
  | zero => exact absurd rounds (Nat.not_lt_zero _)
  | succ n ih =>
    rcases Classical.em (d ∈ text) with member | none_
    · obtain ⟨front, back, rfl, fresh⟩ := List.eq_append_cons_of_mem member
      have whole : done.flatMap (escapeChar es) ++ (front ++ d :: back).flatMap (escapeChar ((d, x) :: es)) =
          (done ++ front).flatMap (escapeChar es) ++ (38 :: x ++ back.flatMap (escapeChar ((d, x) :: es))) := by
        rw [List.flatMap_append, List.flatMap_append, List.flatMap_cons, flatMap_other fresh, escapeChar_self,
          List.append_assoc]
      have before : ¬ 38 :: x <:+: done ++ front := by
        intro within
        apply absent
        rw [← List.append_assoc]
        exact within.trans (List.prefix_append _ _).isInfix
      have next : (done ++ front).flatMap (escapeChar es) ++ ([d] ++ back.flatMap (escapeChar ((d, x) :: es))) =
          (done ++ (front ++ [d])).flatMap (escapeChar es) ++ back.flatMap (escapeChar ((d, x) :: es)) := by
        rw [← List.append_assoc done, @List.flatMap_append _ _ (done ++ front), List.flatMap_singleton,
          apart.escapeChar_unescaped, List.append_assoc]
      have split : done ++ (front ++ d :: back) = done ++ (front ++ [d]) ++ back := by simp
      rw [whole, decodeEntity_step (find_first apart.1 (not_infix_escaped apart before)), next, split]
      apply ih
      · rwa [← split]
      · rw [List.count_append, List.count_cons_self] at rounds
        omega
    · rw [flatMap_other none_, ← List.flatMap_append]
      exact decodeEntity_absent nofun (not_infix_escaped apart absent)

theorem decodeEntity_clears (filled : e.entity ≠ []) (ends : Ends (decodeEntity e n text) after) : ¬ e.entity <:+: after := by
  induction n generalizing text with
  | zero => exact absurd ends (by simp [decodeEntity])
  | succ n ih =>
    cases found : find e.entity text with
    | none =>
      rw [decodeEntity, found] at ends
      rw [← (ends_pure _ _).mp ends]
      exact (find_none filled).mp found
    | some i =>
      obtain ⟨front, back, rfl, rfl⟩ := find_some found
      exact ih ((decodeEntity_step found).mp ends)

/-- A replacement is no part of another entity. -/
def Harmless (entity replacement : Bytes) : Prop := replacement ≠ [] ∧ ∀ c ∈ replacement, c ∉ entity

instance (entity replacement : Bytes) : Decidable (Harmless entity replacement) := inferInstanceAs (Decidable (_ ∧ _))

theorem Harmless.sides {entity replacement front back : Bytes} (harmless : Harmless entity replacement)
    (within : entity <:+: front ++ (replacement ++ back)) : entity <:+: front ∨ entity <:+: back := by
  obtain ⟨filled, all⟩ := harmless
  induction replacement generalizing front with
  | nil => exact absurd rfl filled
  | cons c replacement ih =>
    rcases infix_around within (all c List.mem_cons_self) with left | right
    · exact .inl left
    · cases replacement with
      | nil => exact .inr right
      | cons b replacement =>
        rcases @ih [] right nofun fun c member => all c (List.mem_cons_of_mem _ member) with none_ | behind
        · rw [List.infix_nil] at none_
          rw [none_]
          exact .inl List.nil_infix
        · exact .inr behind

theorem decodeEntity_keeps (harmless : Harmless x e.replacement) (ends : Ends (decodeEntity e n text) after)
    (absent : ¬ x <:+: text) : ¬ x <:+: after := by
  induction n generalizing text with
  | zero => exact absurd ends (by simp [decodeEntity])
  | succ n ih =>
    cases found : find e.entity text with
    | none =>
      rw [decodeEntity, found] at ends
      rwa [← (ends_pure _ _).mp ends]
    | some i =>
      obtain ⟨front, back, rfl, rfl⟩ := find_some found
      apply ih ((decodeEntity_step found).mp ends)
      intro within
      rcases harmless.sides within with left | right
      · exact absent (left.trans (List.prefix_append _ _).isInfix)
      · exact absent (right.trans ((List.suffix_append _ _).trans (List.suffix_append _ _)).isInfix)

end Passes

section Decoding
variable {text after : Bytes}

def decodePass (text : Bytes) (e : Entity) : Rendering Bytes := decodeEntity e (text.length + 1) text

theorem decode_escaped {es : List (UInt8 × Bytes)} {later : List Entity}
    (apart : es.Pairwise fun e f => e.1 ≠ f.1 ∧ ¬ e.2 <+: f.2 ∧ ¬ f.2 <+: e.2) (plain : ∀ e ∈ es, 38 ∉ e.2)
    (absent : ∀ e ∈ es, ¬ 38 :: e.2 <:+: text) (rest : Ends (fold decodePass text later) after) :
    Ends (fold decodePass (text.flatMap (escapeChar es)) ((es.map fun e => ⟨38 :: e.2, [e.1]⟩) ++ later)) after := by
  induction es with
  | nil =>
    have same : text.flatMap (escapeChar []) = text := by
      unfold escapeChar
      simp
    rwa [same]
  | cons e es ih =>
    obtain ⟨d, x⟩ := e
    obtain ⟨first, apart⟩ := List.pairwise_cons.mp apart
    have rounds : text.count d < (text.flatMap (escapeChar ((d, x) :: es))).length + 1 := by
      have longer := length_le_escaped ((d, x) :: es) text
      have count : text.count d ≤ text.length := List.count_le_length
      omega
    have others : Apart d x es := by
      refine ⟨plain _ List.mem_cons_self, fun f member => ?_⟩
      obtain ⟨keys, one, other⟩ := first f member
      exact ⟨keys.symm, plain f (List.mem_cons_of_mem _ member), one, other⟩
    refine (ends_bind _).mpr ⟨text.flatMap (escapeChar es), ?_, ?_⟩
    · have pass := @decodeEntity_unescapes _ _ _ _ _ [] others (absent _ List.mem_cons_self) rounds
      rwa [List.nil_append] at pass
    · exact ih apart (fun f member => plain f (List.mem_cons_of_mem _ member))
        fun f member => absent f (List.mem_cons_of_mem _ member)

theorem decode_absent {es : List Entity} (filled : ∀ e ∈ es, e.entity ≠ []) (absent : ∀ e ∈ es, ¬ e.entity <:+: text) :
    Ends (fold decodePass text es) text := by
  induction es with
  | nil => exact (ends_pure _ _).mpr rfl
  | cons e es ih =>
    refine (ends_bind _).mpr ⟨text, ?_, ?_⟩
    · exact decodeEntity_absent (filled e List.mem_cons_self) (absent e List.mem_cons_self)
    · exact ih (fun f member => filled f (List.mem_cons_of_mem _ member)) fun f member => absent f (List.mem_cons_of_mem _ member)

theorem decode_keeps {x : Bytes} {es : List Entity} (harmless : ∀ e ∈ es, Harmless x e.replacement)
    (ends : Ends (fold decodePass text es) after) (absent : ¬ x <:+: text) : ¬ x <:+: after := by
  induction es generalizing text with
  | nil => rwa [← (ends_pure _ _).mp ends]
  | cons e es ih =>
    obtain ⟨next, pass, rest⟩ := (ends_bind _).mp ends
    exact ih (fun f member => harmless f (List.mem_cons_of_mem _ member)) rest
      (decodeEntity_keeps (harmless e List.mem_cons_self) pass absent)

theorem decode_clears {es : List Entity} (filled : ∀ e ∈ es, e.entity ≠ [])
    (harmless : es.Pairwise fun e f => Harmless e.entity f.replacement) (ends : Ends (fold decodePass text es) after) :
    ∀ e ∈ es, ¬ e.entity <:+: after := by
  induction es generalizing text with
  | nil => exact nofun
  | cons e es ih =>
    obtain ⟨first, harmless⟩ := List.pairwise_cons.mp harmless
    obtain ⟨next, pass, rest⟩ := (ends_bind _).mp ends
    rintro f (_ | ⟨_, member⟩)
    · exact decode_keeps first rest (decodeEntity_clears (filled e List.mem_cons_self) pass)
    · exact ih (fun f member => filled f (List.mem_cons_of_mem _ member)) harmless rest f member

end Decoding

/-- The entities in the order in which they are decoded: the five that are escaped, and the others. -/
theorem entities_split : entities = (escapes.map fun e => ⟨38 :: e.2, [e.1]⟩) ++ entities.drop 5 := by rfl

/-- Escaping is undone just where no entity stands in the text. -/
theorem escaping_undone_iff (text : Bytes) : Ends (decodeEntities (escape text)) text ↔ ∀ e ∈ entities, ¬ e.entity <:+: text := by
  have filled : ∀ e ∈ entities, e.entity ≠ [] := by decide
  constructor
  · intro ends
    exact decode_clears filled (by decide) ends
  · intro absent
    have rest : Ends (fold decodePass text (entities.drop 5)) text :=
      decode_absent (fun e member => filled e (List.mem_of_mem_drop member)) fun e member => absent e (List.mem_of_mem_drop member)
    change Ends (fold decodePass (text.flatMap (escapeChar escapes)) entities) text
    rw [entities_split]
    apply decode_escaped (by decide) (by decide) _ rest
    intro e member
    have listed : (⟨38 :: e.2, [e.1]⟩ : Entity) ∈ entities := by
      rw [entities_split]
      exact List.mem_append_left _ (List.mem_map_of_mem member)
    exact absent _ listed

/-- An entity that was escaped is decoded twice. -/
theorem escaped_entity_lost : ¬ ∀ text, Ends (decodeEntities (escape text)) text := by
  intro all
  have decoded : Ends (decodeEntities (escape (ascii "&lt;"))) (ascii "<") := by decide
  have same : Except.ok (ascii "<") = Except.ok (ascii "&lt;") := decoded.symm.trans (all (ascii "&lt;"))
  exact absurd (Except.ok.inj same) (by decide)

end Qito.Browser
