import Qito.Config.Model
import Qito.Gfx.Readback
import Qito.Lib.Runs
import Qito.Vfs.Saved

/-! Saving the settings and loading them again. The text of the table goes through
two buffers of 8192 bytes: entries that would start in the last 256 bytes are not
written, and of the others the file keeps what is in its first 8191 bytes. -/
namespace Qito.Config
open Runs
open Vfs (Bytes FsState Env ascii ascii_ofList strlcpy overlay)

/-- A key of 1 to 63 characters without blanks and '=', not a comment. -/
def GoodKey (key : Bytes) : Prop :=
  key ≠ [] ∧ key.length < keyMax ∧ (∀ c ∈ key, isspace c = false ∧ c ≠ 61 ∧ c ≠ 0) ∧ key.head? ≠ some 35 ∧ key.head? ≠ some 59

/-- A value of 1 to 191 printable characters with no blank at its ends. -/
def GoodValue (value : Bytes) : Prop :=
  value ≠ [] ∧ value.length < valueMax ∧ (∀ c ∈ value, 32 ≤ c ∧ c ≤ 126) ∧ value.head? ≠ some 32 ∧ value.getLast? ≠ some 32

def GoodDescription (text : Bytes) : Prop := text ≠ [] ∧ text.length < descriptionMax ∧ ∀ c ∈ text, c ≠ 10 ∧ c ≠ 0

instance (key : Bytes) : Decidable (GoodKey key) := inferInstanceAs (Decidable (_ ∧ _ ∧ _ ∧ _ ∧ _))
instance (value : Bytes) : Decidable (GoodValue value) := inferInstanceAs (Decidable (_ ∧ _ ∧ _ ∧ _ ∧ _))
instance (text : Bytes) : Decidable (GoodDescription text) := inferInstanceAs (Decidable (_ ∧ _ ∧ _))

structure Entry.Good (e : Entry) : Prop where
  key : GoodKey e.key
  value : GoodValue e.value
  description : GoodDescription e.description

def Setting.Good : Setting → Prop
  | .string key value => GoodKey key ∧ GoodValue value
  | .int key _ => GoodKey key
  | .bool key _ => GoodKey key

/-- A call that returned 0. -/
def SetStep (t u : Table) : Prop := ∃ setting : Setting, setting.Good ∧ setting.run t = (0, u)

@[grind =] def keys (t : Table) : List Bytes := t.map Entry.key

section Tables
variable {t u : Table} {key k value : Bytes} {i : Nat}

theorem find_none (none_ : find t key = none) : key ∉ keys t := by
  intro member
  obtain ⟨e, inside, rfl⟩ := List.mem_map.mp member
  have all := List.findIdx?_eq_none_iff.mp none_ e inside
  simp at all

theorem find_some (found : find t key = some i) : ∃ e, t[i]? = some e ∧ e.key = key := by
  obtain ⟨low, here, -⟩ := List.findIdx?_eq_some_iff_getElem.mp found
  exact ⟨t[i], List.getElem?_eq_getElem low, by simpa using here⟩

theorem find_here {e : Entry} (unique : (keys t).Nodup) (here : t[i]? = some e) : find t e.key = some i := by
  obtain ⟨low, same⟩ := List.getElem?_eq_some_iff.mp here
  apply List.findIdx?_eq_some_iff_getElem.mpr
  refine ⟨low, by simp [same], fun j before equal => ?_⟩
  have other := List.nodup_iff_injective_get.mp unique
  have low' : i < (keys t).length := by simpa [keys] using low
  have clash := @other ⟨j, Nat.lt_trans before low'⟩ ⟨i, low'⟩ (by simpa [keys, same] using equal)
  exact absurd (congrArg Fin.val clash) (Nat.ne_of_lt before)

theorem get_eq (unique : (keys t).Nodup) : configGetString t k = some value ↔ ∃ e ∈ t, e.key = k ∧ e.value = value := by
  constructor
  · intro held
    obtain ⟨i, found, rest⟩ := Option.bind_eq_some_iff.mp held
    obtain ⟨e, here, is⟩ := find_some found
    rw [here] at rest
    exact ⟨e, List.mem_of_getElem? here, is, Option.some.inj rest⟩
  · rintro ⟨e, member, rfl, rfl⟩
    obtain ⟨i, here⟩ := List.mem_iff_getElem?.mp member
    rw [configGetString, find_here unique here, Option.bind_some, here]
    rfl

theorem get_none (unique : (keys t).Nodup) : configGetString t k = none ↔ k ∉ keys t := by
  constructor
  · intro none_ member
    obtain ⟨e, inside, rfl⟩ := List.mem_map.mp member
    rw [(get_eq unique).mpr ⟨e, inside, rfl, rfl⟩] at none_
    cases none_
  · intro absent
    cases held : configGetString t k with
    | none => rfl
    | some value =>
      obtain ⟨e, inside, rfl, -⟩ := (get_eq unique).mp held
      exact absurd (List.mem_map_of_mem inside) absent

/-- What storing a value leaves: the entry of the key with the value, or a new entry. -/
inductive Stored (t : Table) (key value : Bytes) : Table → Prop where
  | replaced {before after : Table} {e : Entry} (whole : t = before ++ e :: after) (same : e.key = key) :
    Stored t key value (before ++ { e with value := value } :: after)
  | new (absent : key ∉ keys t) (room : t.length < maxEntries) : Stored t key value (t ++ [⟨key, value, ascii "user defined"⟩])

theorem setValue_stored (found : find t key = some i) (short : value.length < valueMax) : Stored t key value (setValue t i value) := by
  obtain ⟨e, here, same⟩ := find_some found
  obtain ⟨low, is⟩ := List.getElem?_eq_some_iff.mp here
  have whole : t = t.take i ++ e :: t.drop (i + 1) := by
    rw [← is, List.cons_getElem_drop_succ, List.take_append_drop]
  have uncut : strlcpy value valueMax = value := List.take_of_length_le (Nat.le_sub_one_of_lt short)
  have result : setValue t i value = t.take i ++ { e with value := value } :: t.drop (i + 1) := by
    rw [setValue, List.modify_eq_take_cons_drop low, is, uncut]
  rw [result]
  exact .replaced whole same

set_option maxRecDepth 100000 in
theorem insert_stored (none_ : find t key = none) (short : key.length < keyMax) (short' : value.length < valueMax) :
    (t.length < maxEntries ∧ ∃ u, insert t key value (ascii "user defined") = some u ∧ Stored t key value u) ∨
      (maxEntries ≤ t.length ∧ insert t key value (ascii "user defined") = none) := by
  by_cases full : t.length ≥ maxEntries
  · exact .inr ⟨full, by simp only [insert, none_, if_pos full]⟩
  · have uncut : strlcpy key keyMax = key := List.take_of_length_le (Nat.le_sub_one_of_lt short)
    have uncut' : strlcpy value valueMax = value := List.take_of_length_le (Nat.le_sub_one_of_lt short')
    have plain : strlcpy (ascii "user defined") descriptionMax = ascii "user defined" := by decide
    refine .inl ⟨Nat.lt_of_not_le full, t ++ [⟨key, value, ascii "user defined"⟩], ?_, .new (find_none none_) (Nat.lt_of_not_le full)⟩
    simp only [insert, none_, if_neg full, uncut, uncut', plain]

theorem configSetString_stored (short : key.length < keyMax) (short' : value.length < valueMax)
    (done : configSetString t key value = (0, u)) : Stored t key value u := by
  unfold configSetString at done
  cases found : find t key with
  | some i =>
    rw [found] at done
    cases done
    exact setValue_stored found short'
  | none =>
    rw [found] at done
    rcases insert_stored found short short' with ⟨-, v, taken, stored⟩ | ⟨-, full⟩
    · rw [taken] at done
      cases done
      exact stored
    · rw [full] at done
      cases done

theorem assign_stored (short : key.length < keyMax) (short' : value.length < valueMax) (room : key ∉ keys t → t.length < maxEntries) :
    Stored t key value (assign t (key, value)) := by
  unfold assign
  cases found : find t key with
  | some i => exact setValue_stored found short'
  | none =>
    rcases insert_stored found short short' with ⟨-, v, taken, stored⟩ | ⟨full, -⟩
    · dsimp only
      rw [taken]
      exact stored
    · exact absurd (room (find_none found)) (Nat.not_lt.mpr full)

theorem Stored.keys (stored : Stored t key value u) : Config.keys u = Config.keys t ∨
    (key ∉ Config.keys t ∧ t.length < maxEntries ∧ Config.keys u = Config.keys t ++ [key]) := by
  cases stored with
  | replaced whole same =>
    left
    rw [whole]
    simp [Config.keys]
  | new absent room => exact .inr ⟨absent, room, by simp [Config.keys]⟩

theorem Stored.unique (stored : Stored t key value u) (unique : (Config.keys t).Nodup) : (Config.keys u).Nodup := by
  rcases stored.keys with same | ⟨absent, -, longer⟩
  · rw [same]
    exact unique
  · rw [longer]
    exact List.Nodup.append unique (List.nodup_singleton key) (by simpa using absent)

theorem Stored.mem (stored : Stored t key value u) {e : Entry} (other : e.key ≠ key) : e ∈ u ↔ e ∈ t := by
  cases stored with
  | @replaced before after old whole here =>
    have apart : e ≠ { old with value := value } := fun same => other ((congrArg Entry.key same).trans here)
    have apart' : e ≠ old := fun same => other ((congrArg Entry.key same).trans here)
    simp [whole, apart, apart']
  | new absent room =>
    have apart : e ≠ ⟨key, value, ascii "user defined"⟩ := fun same => other (congrArg Entry.key same)
    simp [apart]

theorem Stored.get (stored : Stored t key value u) (unique : (Config.keys t).Nodup) (k : Bytes) :
    configGetString u k = if k = key then some value else configGetString t k := by
  have unique' := stored.unique unique
  split
  · rename_i same
    apply (get_eq unique').mpr
    cases stored with
    | replaced whole here => exact ⟨_, List.mem_append_right _ List.mem_cons_self, here.trans same.symm, rfl⟩
    | new absent room => exact ⟨_, List.mem_append_right _ (List.mem_singleton_self _), same.symm, rfl⟩
  · rename_i other
    apply Option.ext
    intro v
    rw [get_eq unique', get_eq unique]
    constructor
    · rintro ⟨e, member, rfl, holds⟩
      exact ⟨e, (stored.mem other).mp member, rfl, holds⟩
    · rintro ⟨e, member, rfl, holds⟩
      exact ⟨e, (stored.mem other).mpr member, rfl, holds⟩

end Tables

/-- What every table that calls have set looks like. -/
structure Sound (t : Table) : Prop where
  good : ∀ e ∈ t, e.Good
  unique : (keys t).Nodup
  few : t.length ≤ maxEntries
  base : defaults.map (fun e => (e.key, e.description)) <+: t.map fun e => (e.key, e.description)

section Setting
variable {t u : Table} {key value : Bytes}

set_option maxRecDepth 100000 in
theorem defaults_facts : (∀ e ∈ defaults, GoodKey e.key ∧ GoodValue e.value ∧ GoodDescription e.description) ∧ (keys defaults).Nodup ∧
    ((defaults.map fun e => (e.key, e.description)).map fun p => p.2.length + p.1.length + 199).sum < 5600 := by
  rw [defaults]
  repeat rw [ascii_ofList]
  decide

example : (keys defaults).length = 23 := by decide +kernel

theorem defaults_sound : Sound defaults where
  good e member := by
    obtain ⟨key, value, description⟩ := defaults_facts.1 e member
    exact ⟨key, value, description⟩
  unique := defaults_facts.2.1
  few := by
    have many : defaults.length = 23 := rfl
    rw [many]
    decide
  base := List.prefix_refl _

theorem foldl_insert {later : Table} (good : ∀ e ∈ later, e.Good) (unique : (keys (t ++ later)).Nodup)
    (room : (t ++ later).length ≤ maxEntries) :
    later.foldl (fun t e => (insert t e.key e.value e.description).getD t) t = t ++ later := by
  induction later generalizing t with
  | nil => exact (List.append_nil t).symm
  | cons e later ih =>
    have shape : t ++ e :: later = (t ++ [e]) ++ later := by simp
    obtain ⟨key, value, description⟩ := good e List.mem_cons_self
    have fresh : find t e.key = none := by
      cases found : find t e.key with
      | none => rfl
      | some i =>
        obtain ⟨e', here, same⟩ := find_some found
        rw [keys, List.map_append] at unique
        have inside : e.key ∈ t.map Entry.key := same ▸ List.mem_map_of_mem (List.mem_of_getElem? here)
        exact absurd (List.mem_map_of_mem List.mem_cons_self) (List.disjoint_of_nodup_append unique inside)
    have open_ : ¬ t.length ≥ maxEntries := by
      rw [List.length_append, List.length_cons] at room
      omega
    have uncut : strlcpy e.key keyMax = e.key := List.take_of_length_le (Nat.le_sub_one_of_lt key.2.1)
    have uncut' : strlcpy e.value valueMax = e.value := List.take_of_length_le (Nat.le_sub_one_of_lt value.2.1)
    have uncut'' : strlcpy e.description descriptionMax = e.description :=
      List.take_of_length_le (Nat.le_sub_one_of_lt description.2.1)
    have inserted : insert t e.key e.value e.description = some (t ++ [e]) := by
      simp only [insert, fresh, if_neg open_, uncut, uncut', uncut'']
    rw [List.foldl_cons, inserted, Option.getD_some, shape]
    rw [shape] at unique room
    exact ih (fun e later => good e (List.mem_cons_of_mem _ later)) unique room

theorem configResetDefaults_eq : configResetDefaults = defaults :=
  foldl_insert defaults_sound.good defaults_sound.unique defaults_sound.few

theorem userDefined_good : GoodDescription (ascii "user defined") := by decide

theorem Stored.sound (stored : Stored t key value u) (sound : Sound t) (goodKey : GoodKey key) (goodValue : GoodValue value) :
    Sound u := by
  refine ⟨?_, stored.unique sound.unique, ?_, ?_⟩
  · intro e member
    cases stored with
    | replaced whole here =>
      subst whole
      rcases List.mem_append.mp member with front | back
      · exact sound.good e (List.mem_append_left _ front)
      · rcases List.mem_cons.mp back with rfl | back
        · have old := sound.good _ (List.mem_append_right _ List.mem_cons_self)
          exact ⟨old.key, goodValue, old.description⟩
        · exact sound.good e (List.mem_append_right _ (List.mem_cons_of_mem _ back))
    | new absent room =>
      rcases List.mem_append.mp member with front | back
      · exact sound.good e front
      · cases List.mem_singleton.mp back
        exact ⟨goodKey, goodValue, userDefined_good⟩
  · have few := sound.few
    cases stored with
    | replaced whole here =>
      subst whole
      simpa using few
    | new absent room =>
      rw [List.length_append]
      exact room
  · have base := sound.base
    cases stored with
    | replaced whole here =>
      subst whole
      simpa using base
    | new absent room =>
      rw [List.map_append]
      exact base.trans (List.prefix_append _ _)

set_option maxRecDepth 100000 in
theorem intText_good (value : Int) : GoodValue (intText value) := by
  have digits : ∀ c : UInt8, Gfx.isDigit c = true ∨ c = 45 → 32 ≤ c ∧ c ≤ 126 ∧ c ≠ 32 := by
    have all : ∀ n < 256, Gfx.isDigit (UInt8.ofNat n) = true ∨ UInt8.ofNat n = 45 →
        32 ≤ UInt8.ofNat n ∧ UInt8.ofNat n ≤ 126 ∧ UInt8.ofNat n ≠ 32 := by decide
    intro c
    simpa using all c.toNat c.toNat_lt
  have text : ∀ c ∈ intText value, Gfx.isDigit c = true ∨ c = 45 := by
    intro c member
    rcases List.mem_append.mp (List.mem_of_mem_take member) with sign | digit
    · split at sign
      · exact .inr (by simpa [ascii] using sign)
      · cases sign
    · exact .inl (Gfx.decimal_digits _ c digit)
  refine ⟨?_, ?_, fun c member => ?_, ?_, ?_⟩
  · unfold intText
    intro empty
    rw [List.take_eq_nil_iff] at empty
    rcases empty with zero | empty
    · cases zero
    · exact Gfx.decimal_some _ (List.append_eq_nil_iff.mp empty).2
  · exact Nat.lt_of_le_of_lt (List.length_take_le _ _) (by decide)
  · obtain ⟨low, high, -⟩ := digits c (text c member)
    exact ⟨low, high⟩
  · intro blank
    exact (digits 32 (text 32 (List.mem_of_mem_head? (by simp [blank])))).2.2 rfl
  · intro blank
    exact (digits 32 (text 32 (List.mem_of_getLast? blank))).2.2 rfl

theorem boolText_good (value : Bool) : GoodValue (if value then ascii "1" else ascii "0") := by
  cases value with
  | false => decide
  | true => decide

theorem step_sound (sound : Sound t) (step : SetStep t u) : Sound u := by
  obtain ⟨setting, good, run⟩ := step
  cases setting with
  | string key value => exact (configSetString_stored good.1.2.1 good.2.2.1 run).sound sound good.1 good.2
  | int key value =>
    have text := intText_good value
    exact (configSetString_stored good.2.1 text.2.1 run).sound sound good text
  | bool key value =>
    have text := boolText_good value
    exact (configSetString_stored good.2.1 text.2.1 run).sound sound good text

theorem run_sound (reached : Reachable (· = configResetDefaults) SetStep t) : Sound t := by
  apply reached.induct Sound
  · rintro s rfl
    rw [configResetDefaults_eq]
    exact defaults_sound
  · exact fun s t sound step => step_sound sound step

end Setting

section Loading
variable {t : Table} {ps : List (Bytes × Bytes)}

theorem load_get {all : List Bytes} (few : all.length ≤ maxEntries) (unique : (keys t).Nodup) (known : keys t ⊆ all)
    (known' : ∀ p ∈ ps, p.1 ∈ all) (short : ∀ p ∈ ps, p.1.length < keyMax ∧ p.2.length < valueMax) (once : (ps.map Prod.fst).Nodup) :
    (keys (ps.foldl assign t)).Nodup ∧ ∀ k, configGetString (ps.foldl assign t) k = (ps.lookup k).or (configGetString t k) := by
  induction ps generalizing t with
  | nil => exact ⟨unique, fun k => rfl⟩
  | cons p ps ih =>
    obtain ⟨shortKey, shortValue⟩ := short p List.mem_cons_self
    have here := known' p List.mem_cons_self
    have room : p.1 ∉ keys t → t.length < maxEntries := by
      intro absent
      have both : (p.1 :: keys t).Nodup := List.nodup_cons.mpr ⟨absent, unique⟩
      have within := (both.subperm (List.cons_subset.mpr ⟨here, known⟩)).length_le
      simp only [List.length_cons, keys, List.length_map] at within
      omega
    have stored := assign_stored shortKey shortValue room
    have known'' : keys (assign t p) ⊆ all := by
      rcases stored.keys with same | ⟨-, -, longer⟩
      · rw [same]
        exact known
      · rw [longer]
        exact List.append_subset.mpr ⟨known, List.cons_subset.mpr ⟨here, List.nil_subset _⟩⟩
    obtain ⟨fresh, once'⟩ := List.nodup_cons.mp once
    obtain ⟨unique', gets⟩ := ih (stored.unique unique) known'' (fun q later => known' q (List.mem_cons_of_mem _ later))
      (fun q later => short q (List.mem_cons_of_mem _ later)) once'
    refine ⟨unique', fun k => ?_⟩
    rw [List.foldl_cons, gets k, stored.get unique k, List.lookup_cons]
    by_cases same : k = p.1
    · have later : ps.lookup k = none := by
        rw [List.lookup_eq_none_iff]
        intro q member
        have apart : q.1 ≠ p.1 := fun equal => fresh (equal ▸ List.mem_map_of_mem member)
        simpa [same] using Ne.symm apart
      have equal : (k == p.1) = true := by simpa using same
      rw [later, if_pos same, equal]
      rfl
    · have apart : (k == p.1) = false := by simpa using same
      rw [if_neg same, apart]

end Loading

section Lines
variable {a b : Bytes}

theorem settings_append (a b : Bytes) : settings (a ++ 10 :: b) = settings a ++ settings b := by
  simp only [settings, lines, List.splitOn_append_cons_self, List.filter_append, List.filterMap_append]

theorem settings_line (whole : 10 ∉ a) : settings a = (assignment a).toList := by
  unfold settings lines
  rw [List.splitOn_eq_singleton whole]
  cases a with
  | nil => rfl
  | cons c cs =>
    rw [List.filter_cons_of_pos (by simp), List.filter_nil]
    cases set : assignment (c :: cs) with
    | none => rw [List.filterMap_cons_none set, List.filterMap_nil, Option.toList_none]
    | some p => rw [List.filterMap_cons_some set, List.filterMap_nil, Option.toList_some]

theorem settings_newlines (n : Nat) (whole : 10 ∉ a) : settings (a ++ List.replicate n 10) = settings a := by
  induction n generalizing a with
  | zero => rw [List.replicate_zero, List.append_nil]
  | succ n ih =>
    have none_ := @ih [] (by simp)
    rw [List.nil_append] at none_
    rw [List.replicate_succ, settings_append, none_]
    exact List.append_nil _

theorem assignment_comment (text : Bytes) : assignment (35 :: text) = none := by
  unfold assignment
  rw [List.dropWhile_cons_of_neg (by decide)]
  simp

theorem assignment_missing (none_ : 61 ∉ a) : assignment a = none := by
  have fewer : 61 ∉ a.dropWhile isspace := fun member => none_ ((List.dropWhile_suffix isspace).subset member)
  unfold assignment
  simp only [fewer, not_false_eq_true, if_true, ite_self]

theorem assignment_key {key : Bytes} (good : GoodKey key) (rest : Bytes) :
    assignment (key ++ 32 :: 61 :: rest) = some (key, (rest.dropWhile isspace).rdropWhile isspace) := by
  obtain ⟨some_, -, clean, notHash, notSemi⟩ := good
  cases key with
  | nil => exact absurd rfl some_
  | cons c cs =>
    have solid := (clean c List.mem_cons_self).1
    have front : ∀ d ∈ c :: cs ++ [32], decide (d ≠ 61) = true := by
      intro d member
      rcases List.mem_append.mp member with inside | last
      · simpa using (clean d inside).2.1
      · cases List.mem_singleton.mp last
        decide
    have shape : c :: cs ++ 32 :: 61 :: rest = (c :: cs ++ [32]) ++ 61 :: rest := by simp
    have kept : (c :: cs ++ 32 :: 61 :: rest).dropWhile isspace = c :: cs ++ 32 :: 61 :: rest :=
      List.dropWhile_cons_of_neg (by simp [solid])
    have taken : ((c :: cs ++ [32]) ++ 61 :: rest).takeWhile (· ≠ 61) = c :: cs ++ [32] := by
      rw [List.takeWhile_append_of_pos front, List.takeWhile_cons_of_neg (by simp), List.append_nil]
    have left : ((c :: cs ++ [32]) ++ 61 :: rest).dropWhile (· ≠ 61) = 61 :: rest := by
      rw [List.dropWhile_append_of_pos front, List.dropWhile_cons_of_neg (by simp)]
    have trimmed : (c :: cs ++ [32]).rdropWhile isspace = c :: cs := by
      rw [List.rdropWhile_concat_pos _ _ _ (by decide)]
      apply List.rdropWhile_eq_self_iff.mpr
      intro some_
      simpa using (clean _ (List.getLast_mem some_)).1
    have heads : ¬ ((c :: cs ++ 32 :: 61 :: rest).head? = none ∨ (c :: cs ++ 32 :: 61 :: rest).head? = some 35 ∨
        (c :: cs ++ 32 :: 61 :: rest).head? = some 59) := by
      simp only [List.head?_cons, List.cons_append] at notHash notSemi ⊢
      simp [notHash, notSemi]
    unfold assignment
    dsimp only
    rw [kept, if_neg heads, if_neg (by simp), shape, taken, left, trimmed]
    rfl

end Lines

/-- A line without its newlines. -/
@[grind =] def Entry.body (e : Entry) : Bytes := e.key ++ 32 :: 61 :: 32 :: e.value

@[grind =] def Entry.text (e : Entry) : Bytes := e.comment ++ e.line

/-- The text of the file when nothing is cut. -/
@[grind =] def text (t : Table) : Bytes := header ++ t.flatMap Entry.text

section Texts
variable {e : Entry} {t : Table}

theorem line_eq (e : Entry) : e.line = e.body ++ List.replicate 2 10 := by
  have equals : ascii " = " = [32, 61, 32] := by decide
  have ends : ascii "\n\n" = List.replicate 2 10 := by decide
  unfold Entry.line Entry.body
  rw [equals, ends]
  simp

theorem comment_eq (e : Entry) : e.comment = (35 :: 32 :: e.description) ++ [10] := by
  have mark : ascii "# " = [35, 32] := by decide
  have ends : ascii "\n" = [10] := by decide
  unfold Entry.comment
  rw [mark, ends]
  rfl

theorem Entry.Good.key_whole (good : e.Good) : 10 ∉ e.key := fun member =>
  absurd (good.key.2.2.1 10 member).1 (by decide)

theorem Entry.Good.value_whole (good : e.Good) : 10 ∉ e.value := fun member =>
  absurd (good.value.2.2.1 10 member).1 (by decide)

theorem Entry.Good.body_whole (good : e.Good) : 10 ∉ e.body := by
  simp [Entry.body, good.key_whole, good.value_whole]

set_option maxRecDepth 100000 in
theorem Entry.Good.value_trimmed (good : e.Good) : ((32 :: e.value).dropWhile isspace).rdropWhile isspace = e.value := by
  obtain ⟨some_, -, printable, front, back⟩ := good.value
  have blank : ∀ c : UInt8, 32 ≤ c ∧ c ≤ 126 → c ≠ 32 → isspace c = false := by
    have all : ∀ n < 256, 32 ≤ UInt8.ofNat n ∧ UInt8.ofNat n ≤ 126 → UInt8.ofNat n ≠ 32 → isspace (UInt8.ofNat n) = false := by
      decide
    intro c
    simpa using all c.toNat c.toNat_lt
  have first : (32 :: e.value).dropWhile isspace = e.value := by
    rw [List.dropWhile_cons_of_pos (by decide)]
    cases value : e.value with
    | nil => rfl
    | cons c cs =>
      rw [value] at printable front
      have solid := blank c (printable c List.mem_cons_self) fun same => front (by simp [same])
      exact List.dropWhile_cons_of_neg (by simp [solid])
  rw [first]
  apply List.rdropWhile_eq_self_iff.mpr
  intro some_
  have solid := blank _ (printable _ (List.getLast_mem some_)) fun same => back (by
    rw [List.getLast?_eq_some_getLast some_, same])
  simp [solid]

theorem settings_comment (good : GoodDescription e.description) (rest : Bytes) : settings (e.comment ++ rest) = settings rest := by
  have whole : 10 ∉ 35 :: 32 :: e.description := by
    simpa using fun member : 10 ∈ e.description => (good.2.2 10 member).1 rfl
  rw [comment_eq, List.append_assoc, List.singleton_append, settings_append, settings_line whole, assignment_comment]
  rfl

theorem settings_body (good : e.Good) : settings e.body = [(e.key, e.value)] := by
  rw [settings_line good.body_whole, Entry.body, assignment_key good.key, good.value_trimmed]
  rfl

set_option maxRecDepth 100000 in
theorem header_facts : (header = header.dropLast ++ [10] ∧ settings header.dropLast = []) ∧ 0 ∉ header ∧ header.length < 200 := by
  rw [header, ascii_ofList]
  decide

theorem settings_text (good : ∀ e ∈ t, e.Good) (rest : Bytes) :
    settings (text t ++ rest) = t.map (fun e => (e.key, e.value)) ++ settings rest := by
  have top := header_facts.1
  have body : settings (t.flatMap Entry.text ++ rest) = t.map (fun e => (e.key, e.value)) ++ settings rest := by
    induction t with
    | nil => rfl
    | cons e t ih =>
      have here := good e List.mem_cons_self
      have ends : settings (10 :: (t.flatMap Entry.text ++ rest)) = settings (t.flatMap Entry.text ++ rest) :=
        settings_append [] _
      rw [List.flatMap_cons, Entry.text, List.append_assoc, List.append_assoc, settings_comment here.description, line_eq,
        List.append_assoc]
      change settings (e.body ++ 10 :: 10 :: (t.flatMap Entry.text ++ rest)) = _
      rw [settings_append, settings_body here, ends, ih fun e later => good e (List.mem_cons_of_mem _ later)]
      rfl
  rw [text, top.1, List.append_assoc, List.append_assoc, List.singleton_append, settings_append, top.2, body]
  rfl

theorem settings_cut (good : e.Good) (k : Nat) :
    (e.body.length ≤ k ∧ settings (e.line.take k) = [(e.key, e.value)]) ∨
    (k < e.body.length ∧ (settings (e.line.take k) = [] ∨
      ∃ v, v.length < e.value.length ∧ settings (e.line.take k) = [(e.key, v)])) := by
  by_cases fits : e.body.length ≤ k
  · refine .inl ⟨fits, ?_⟩
    rw [line_eq, List.take_append, List.take_of_length_le fits, List.take_replicate, settings_newlines _ good.body_whole, settings_body good]
  · have short := Nat.lt_of_not_le fits
    refine .inr ⟨short, ?_⟩
    rw [line_eq, List.take_append_of_le_length (Nat.le_of_lt short)]
    have whole : 10 ∉ e.body.take k := fun member => good.body_whole (List.mem_of_mem_take member)
    rw [settings_line whole]
    by_cases early : k ≤ e.key.length + 1
    · left
      have shape : e.body = (e.key ++ [32]) ++ 61 :: 32 :: e.value := by simp [Entry.body]
      rw [shape, List.take_append_of_le_length (by simpa using early), assignment_missing, Option.toList_none]
      intro member
      rcases List.mem_append.mp (List.mem_of_mem_take member) with inside | last
      · exact (good.key.2.2.1 61 inside).2.1 rfl
      · exact absurd (List.mem_singleton.mp last) (by decide)
    · right
      obtain ⟨n, rfl⟩ : ∃ n, k = e.key.length + 2 + n := ⟨k - (e.key.length + 2), by omega⟩
      have shape : e.body.take (e.key.length + 2 + n) = e.key ++ 32 :: 61 :: (32 :: e.value).take n := by
        have parts : e.body = (e.key ++ [32, 61]) ++ 32 :: e.value := by simp [Entry.body]
        rw [parts, List.take_append, List.take_of_length_le (by simp)]
        simp
      rw [shape, assignment_key good.key, Option.toList_some]
      refine ⟨_, ?_, rfl⟩
      have fewer : n ≤ e.value.length := by
        simp only [Entry.body, List.length_append, List.length_cons] at short
        omega
      have trims (xs : Bytes) : ((xs.dropWhile isspace).rdropWhile isspace).length ≤ xs.length :=
        Nat.le_trans (List.rdropWhile_prefix isspace _).length_le (List.dropWhile_suffix isspace).length_le
      cases n with
      | zero => exact List.length_pos_of_ne_nil good.value.1
      | succ n =>
        rw [List.take_succ_cons, List.dropWhile_cons_of_pos (by decide)]
        exact Nat.lt_of_le_of_lt (trims _) (Nat.lt_of_le_of_lt (List.length_take_le _ _) fewer)

end Texts

/-- The entries that config_save gets to, from this pos on. -/
@[grind =] def written (pos : Nat) : Table → Table
  | [] => []
  | e :: t => if pos < bufferSize - 256 then e :: written (pos + e.text.length) t else []

/-- The text is printed: what of it is in the buffer, and pos. -/
structure Prints (out : Output) (text : Bytes) : Prop where
  pos : out.pos = text.length
  shown : ∀ i < text.length, i < bufferSize - 1 → out.buffer i = text.getD i 0

section Printing
variable {out : Output} {before more : Bytes}

theorem Prints.print (prints : Prints out before) (more : Bytes) : Prints (out.print more) (before ++ more) := by
  refine ⟨by rw [Output.print, List.length_append, prints.pos], fun i low inside => ?_⟩
  change overlay out.buffer out.pos (more.take (bufferSize - out.pos - 1) ++ [0]) i = _
  have length : (more.take (bufferSize - out.pos - 1) ++ [0]).length = min (bufferSize - out.pos - 1) more.length + 1 := by
    simp
  rw [overlay, length, prints.pos]
  rw [List.length_append] at low
  by_cases old : i < before.length
  · rw [if_neg (by omega), List.getD_append _ _ _ _ old]
    exact prints.shown i old inside
  · have later : i - before.length < (more.take (bufferSize - before.length - 1)).length := by
      rw [List.length_take]
      omega
    rw [if_pos (by omega), List.getD_append _ _ _ _ later, List.getD_append_right _ _ _ _ (Nat.le_of_not_lt old)]
    rw [List.getD_eq_getElem _ _ later, List.getElem_take, List.getD_eq_getElem]

theorem saveEntry_prints (prints : Prints out before) {e : Entry} (good : e.Good) : Prints (saveEntry out e) (before ++ e.text) := by
  unfold saveEntry
  rw [if_pos good.description.1, Entry.text, ← List.append_assoc]
  exact (prints.print _).print _

theorem saveEntries_prints {t : Table} (prints : Prints out before) (good : ∀ e ∈ t, e.Good) :
    Prints (saveEntries out t) (before ++ (written out.pos t).flatMap Entry.text) := by
  induction t generalizing out before with
  | nil => simpa [saveEntries, written] using prints
  | cons e t ih =>
    unfold saveEntries written
    split
    · have next := saveEntry_prints prints (good e List.mem_cons_self)
      have pos : (saveEntry out e).pos = out.pos + e.text.length := by
        rw [next.pos, prints.pos, List.length_append]
      rw [← pos, List.flatMap_cons, ← List.append_assoc]
      exact ih next fun e later => good e (List.mem_cons_of_mem _ later)
    · simpa using prints

theorem saved_prints {t : Table} (stack : Nat → UInt8) (good : ∀ e ∈ t, e.Good) :
    Prints (saveEntries (Output.print ⟨stack, 0⟩ header) t) (text (written header.length t)) := by
  have empty : Prints ⟨stack, 0⟩ [] := ⟨rfl, fun i low => absurd low (Nat.not_lt_zero i)⟩
  have pos : (Output.print ⟨stack, 0⟩ header).pos = header.length := Nat.zero_add _
  have first := empty.print header
  rw [List.nil_append] at first
  rw [text, ← pos]
  exact saveEntries_prints first good

theorem Prints.front {text : Bytes} (prints : Prints out text) :
    ((List.range out.pos).map out.buffer).take (bufferSize - 1) = text.take (bufferSize - 1) := by
  apply List.ext_getElem
  · simp [prints.pos]
  · intro i left right
    simp only [List.length_take, List.length_map, List.length_range] at left right
    rw [List.getElem_take, List.getElem_map, List.getElem_range, List.getElem_take, prints.shown i (by omega) (by omega),
      List.getD_eq_getElem]

end Printing

section Written
variable {t : Table}

theorem text_append (a b : Table) : text (a ++ b) = text a ++ b.flatMap Entry.text := by
  rw [text, text, List.flatMap_append, List.append_assoc]

theorem written_part (pos : Nat) (t : Table) : written pos t <+: t := by
  induction t generalizing pos with
  | nil => exact List.prefix_refl _
  | cons e t ih =>
    unfold written
    split
    · exact List.cons_prefix_cons.mpr ⟨rfl, ih _⟩
    · exact List.nil_prefix

theorem written_last {pos : Nat} {es : Table} {e : Entry} (is : written pos t = es ++ [e]) :
    pos + (es.flatMap Entry.text).length < bufferSize - 256 := by
  induction t generalizing pos es with
  | nil => exact absurd is.symm (by simp [written])
  | cons d t ih =>
    unfold written at is
    split at is
    · rename_i low
      cases es with
      | nil => simpa using low
      | cons d' es =>
        obtain ⟨rfl, rest⟩ := List.cons.inj is
        have later := ih rest
        rw [List.flatMap_cons, List.length_append]
        omega
    · exact absurd is.symm (by simp)

theorem written_all {pos : Nat} {front back : Table} (low : pos + (front.flatMap Entry.text).length < bufferSize - 256) :
    written pos (front ++ back) = front ++ written (pos + (front.flatMap Entry.text).length) back := by
  induction front generalizing pos with
  | nil => rfl
  | cons e front ih =>
    rw [List.flatMap_cons, List.length_append] at low ⊢
    rw [List.cons_append, written, if_pos (by omega), ih (by omega), Nat.add_assoc]
    rfl

theorem text_length (e : Entry) : e.text.length = e.description.length + e.key.length + e.value.length + 8 := by
  simp only [Entry.text, line_eq, comment_eq, Entry.body, List.length_append, List.length_cons, List.length_replicate, List.length_nil]
  omega

theorem Sound.base_short (sound : Sound t) : (text (t.take defaults.length)).length < 5800 := by
  have bound : ∀ es : Table, (∀ e ∈ es, e.Good) →
      (es.flatMap Entry.text).length ≤ ((es.map fun e => (e.key, e.description)).map fun p => p.2.length + p.1.length + 199).sum := by
    intro es good
    induction es with
    | nil => exact Nat.le_refl _
    | cons e es ih =>
      have value := (good e List.mem_cons_self).value.2.1
      have rest := ih fun e later => good e (List.mem_cons_of_mem _ later)
      rw [List.flatMap_cons, List.length_append, text_length]
      simp only [List.map_cons, List.sum_cons]
      change e.value.length < 192 at value
      omega
  have labels : (t.take defaults.length).map (fun e => (e.key, e.description)) = defaults.map fun e => (e.key, e.description) := by
    rw [List.map_take, ← List.length_map (fun e : Entry => (e.key, e.description))]
    exact (List.prefix_iff_eq_take.mp sound.base).symm
  have short := bound (t.take defaults.length) fun e member => sound.good e (List.mem_of_mem_take member)
  rw [labels] at short
  have sum := defaults_facts.2.2
  have top := header_facts.2.2
  rw [text, List.length_append]
  omega

theorem Sound.keys_base (sound : Sound t) : keys defaults <+: keys t := by
  have base := sound.base.map Prod.fst
  rwa [List.map_map, List.map_map] at base

theorem Sound.base_written (sound : Sound t) : keys defaults <+: keys (written header.length t) := by
  have short := sound.base_short
  have front : t.take defaults.length <+: written header.length t := by
    rw [text, List.length_append] at short
    have all := @written_all header.length (t.take defaults.length) (t.drop defaults.length) (Nat.lt_trans short (by decide))
    rw [List.take_append_drop] at all
    exact ⟨_, all.symm⟩
  have same : keys defaults = keys (t.take defaults.length) := by
    rw [keys, keys, List.map_take, ← List.length_map (Entry.key)]
    exact List.prefix_iff_eq_take.mp sound.keys_base
  rw [same]
  exact front.map Entry.key

theorem text_clean (good : ∀ e ∈ t, e.Good) : 0 ∉ text t := by
  have top := header_facts.2.1
  intro member
  rcases List.mem_append.mp member with front | inside
  · exact top front
  · obtain ⟨e, here, inside⟩ := List.mem_flatMap.mp inside
    obtain ⟨key, value, description⟩ := good e here
    have inKey : 0 ∉ e.key := fun member => (key.2.2.1 0 member).2.2 rfl
    have inValue : 0 ∉ e.value := fun member => absurd (value.2.2.1 0 member).1 (by decide)
    have inDescription : 0 ∉ e.description := fun member => (description.2.2 0 member).2 rfl
    rw [Entry.text, comment_eq, line_eq, Entry.body] at inside
    simp [inKey, inValue, inDescription] at inside

set_option maxRecDepth 100000 in
/-- What the file sets when it is loaded: the entries before the last whole, the last
as far as it is in the buffer. -/
theorem settings_saved (sound : Sound t) : ∃ es e, written header.length t = es ++ [e] ∧
    (text es).length < bufferSize - 256 ∧ (text (es ++ [e])).length = (text es).length + e.comment.length + e.body.length + 2 ∧
    e.comment.length ≤ 98 ∧
    settings (((text (written header.length t)).take (bufferSize - 1)).takeWhile (· ≠ 0)) =
      es.map (fun e => (e.key, e.value)) ++ settings (e.line.take (bufferSize - 1 - (text es).length - e.comment.length)) := by
  have some_ : written header.length t ≠ [] := by
    intro empty
    have base := sound.base_written
    rw [empty] at base
    exact absurd (List.prefix_nil.mp base) (by decide)
  obtain ⟨es, e, is⟩ := (List.eq_nil_or_concat' _).resolve_left some_
  have low : (text es).length < bufferSize - 256 := by
    rw [text, List.length_append]
    exact written_last is
  have part : es ++ [e] <+: t := is ▸ written_part header.length t
  have good : ∀ d ∈ es ++ [e], d.Good := fun d member => sound.good d (part.subset member)
  have last := good e (List.mem_append_right _ (List.mem_singleton_self e))
  have comment : e.comment.length ≤ 98 := by
    have short := last.description.2.1
    rw [comment_eq, List.length_append]
    simp only [List.length_cons, List.length_nil]
    change e.description.length < 96 at short
    omega
  have whole : text (es ++ [e]) = text es ++ (e.comment ++ e.line) := by
    rw [text_append, List.flatMap_singleton, Entry.text]
  refine ⟨es, e, is, low, ?_, comment, ?_⟩
  · rw [whole, line_eq]
    simp only [List.length_append, List.length_replicate]
    omega
  · have clean : ∀ c ∈ (text (es ++ [e])).take (bufferSize - 1), decide (c ≠ 0) = true := by
      intro c member
      apply decide_eq_true
      rintro rfl
      exact text_clean good (List.mem_of_mem_take member)
    have cut : (text (es ++ [e])).take (bufferSize - 1) =
        text es ++ (e.comment ++ e.line.take (bufferSize - 1 - (text es).length - e.comment.length)) := by
      change (text es).length < 7936 at low
      have before : (text es).length ≤ bufferSize - 1 := show _ ≤ 8191 by omega
      have before' : e.comment.length ≤ bufferSize - 1 - (text es).length := show _ ≤ 8191 - _ by omega
      rw [whole, List.take_append, List.take_of_length_le before, List.take_append, List.take_of_length_le before']
    rw [is, List.takeWhile_eq_self_iff.mpr clean, cut, settings_text fun d member => good d (List.mem_append_left _ member),
      settings_comment last.description]

end Written

/-- All entries start before the last 256 bytes of the buffer, and the last one ends in it. -/
def Whole (t : Table) : Prop := (text t.dropLast).length < bufferSize - 256 ∧ (text t).length ≤ bufferSize + 1

instance (t : Table) : Decidable (Whole t) := inferInstanceAs (Decidable (_ ∧ _))

/-- After the load every key has the value it had, and keys are unique. -/
structure Persists (t u : Table) : Prop where
  gets : ∀ key, configGetString u key = configGetString t key
  unique : (keys t).Nodup
  unique' : (keys u).Nodup

section Persistence
variable {t : Table}

theorem lookup_mem {ps : List (Bytes × Bytes)} {k v : Bytes} (once : (ps.map Prod.fst).Nodup) (member : (k, v) ∈ ps) :
    ps.lookup k = some v := by
  induction ps with
  | nil => cases member
  | cons p ps ih =>
    obtain ⟨fresh, once⟩ := List.nodup_cons.mp once
    rw [List.lookup_cons]
    rcases List.mem_cons.mp member with rfl | later
    · simp
    · have apart : (k == p.1) = false := by
        apply beq_eq_false_iff_ne.mpr
        rintro rfl
        exact fresh (List.mem_map.mpr ⟨_, later, rfl⟩)
      rw [apart]
      exact ih once later

theorem lookup_settings (unique : (keys t).Nodup) (k : Bytes) :
    (t.map fun e => (e.key, e.value)).lookup k = configGetString t k := by
  cases held : configGetString t k with
  | some v =>
    obtain ⟨e, member, rfl, rfl⟩ := (get_eq unique).mp held
    apply lookup_mem
    · rw [List.map_map]
      exact unique
    · exact List.mem_map_of_mem member
  | none =>
    have absent := (get_none unique).mp held
    rw [List.lookup_eq_none_iff]
    intro p member
    obtain ⟨e, inside, rfl⟩ := List.mem_map.mp member
    apply bne_iff_ne.mpr
    rintro rfl
    exact absent (List.mem_map_of_mem inside)

theorem load_among (sound : Sound t) {w : Table} (part : w <+: t) {last : List (Bytes × Bytes)}
    (short : ∀ p ∈ last, p.1.length < keyMax ∧ p.2.length < valueMax) (known : ∀ p ∈ last, p.1 ∈ keys t)
    (once : (keys w ++ last.map Prod.fst).Nodup) :
    (keys ((w.map (fun e => (e.key, e.value)) ++ last).foldl assign configResetDefaults)).Nodup ∧
    ∀ k, configGetString ((w.map (fun e => (e.key, e.value)) ++ last).foldl assign configResetDefaults) k =
      ((w.map (fun e => (e.key, e.value)) ++ last).lookup k).or (configGetString defaults k) := by
  rw [configResetDefaults_eq]
  have few : (keys t).length ≤ maxEntries := by
    rw [keys, List.length_map]
    exact sound.few
  apply load_get few defaults_sound.unique sound.keys_base.subset
  · intro p member
    rcases List.mem_append.mp member with front | back
    · obtain ⟨e, inside, rfl⟩ := List.mem_map.mp front
      exact List.mem_map_of_mem (part.subset inside)
    · exact known p back
  · intro p member
    rcases List.mem_append.mp member with front | back
    · obtain ⟨e, inside, rfl⟩ := List.mem_map.mp front
      have good := sound.good e (part.subset inside)
      exact ⟨good.key.2.1, good.value.2.1⟩
    · exact short p back
  · rw [List.map_append, List.map_map]
    exact once

/-- The table after the load of what was saved. -/
def reloaded (t : Table) : Table :=
  (settings (((text (written header.length t)).take (bufferSize - 1)).takeWhile (· ≠ 0))).foldl assign configResetDefaults

theorem reloaded_whole (sound : Sound t) (whole : Whole t) : Persists t (reloaded t) := by
  obtain ⟨es, e, is, low, length, comment, sets⟩ := settings_saved sound
  have some_ : t ≠ [] := by
    rintro rfl
    exact absurd is (by simp [written])
  have all : written header.length t = t := by
    have start := whole.1
    rw [text, List.length_append] at start
    have front := @written_all header.length t.dropLast [t.getLast some_] start
    rw [List.dropLast_append_getLast] at front
    rw [front, written, if_pos start]
    exact List.dropLast_append_getLast some_
  have ends : t = es ++ [e] := all.symm.trans is
  have good := sound.good e (ends ▸ List.mem_append_right _ (List.mem_singleton_self e))
  have loads : settings (((text (written header.length t)).take (bufferSize - 1)).takeWhile (· ≠ 0)) =
      t.map (fun e => (e.key, e.value)) ++ [] := by
    have total : (text t).length ≤ 8193 := whole.2
    rw [ends, length] at total
    change (text es).length < 7936 at low
    rcases settings_cut good (bufferSize - 1 - (text es).length - e.comment.length) with ⟨-, line⟩ | ⟨cut, -⟩
    · rw [sets, line, List.append_nil, ends, List.map_append]
      rfl
    · change 8191 - _ - _ < _ at cut
      omega
  obtain ⟨unique, gets⟩ := @load_among t sound t (List.prefix_refl t) [] (by simp) (by simp) (by simpa using sound.unique)
  unfold reloaded
  rw [loads]
  refine ⟨fun k => ?_, sound.unique, unique⟩
  rw [gets k, List.append_nil, lookup_settings sound.unique]
  cases held : configGetString t k with
  | some v => rfl
  | none =>
    have absent := (get_none sound.unique).mp held
    rw [Option.none_or]
    exact (get_none defaults_sound.unique).mpr fun member => absent (sound.keys_base.subset member)

theorem lost_after (sound : Sound t) {w rest : Table} {d : Entry} (parts : t = w ++ d :: rest) (base : keys defaults <+: keys w)
    {last : List (Bytes × Bytes)} (short : last = [] ∨ ∃ v, v.length < d.value.length ∧ last = [(d.key, v)]) :
    configGetString ((w.map (fun e => (e.key, e.value)) ++ last).foldl assign configResetDefaults) d.key ≠ configGetString t d.key := by
  have here : d ∈ t := parts ▸ List.mem_append_right _ List.mem_cons_self
  have good := sound.good d here
  have fresh : d.key ∉ keys w := by
    have unique := sound.unique
    rw [parts, keys, List.map_append, List.map_cons] at unique
    exact fun member => (List.disjoint_of_nodup_append unique) member List.mem_cons_self
  have once : (keys w).Nodup := by
    have unique := sound.unique
    rw [parts, keys, List.map_append] at unique
    exact unique.of_append_left
  have lastKeys : ∀ p ∈ last, p.1 = d.key ∧ p.2.length < d.value.length := by
    rcases short with rfl | ⟨v, less, rfl⟩
    · simp
    · simpa using less
  obtain ⟨-, gets⟩ := @load_among t sound w ⟨d :: rest, parts.symm⟩ last
    (fun p member => by
      obtain ⟨same, less⟩ := lastKeys p member
      exact ⟨same ▸ good.key.2.1, Nat.lt_trans less good.value.2.1⟩)
    (fun p member => (lastKeys p member).1 ▸ List.mem_map_of_mem here)
    (by
      rcases short with rfl | ⟨v, -, rfl⟩
      · simpa using once
      · exact List.Nodup.append once (List.nodup_singleton _) (by simpa using fresh))
  have before : (w.map fun e => (e.key, e.value)).lookup d.key = none := by
    rw [lookup_settings once]
    exact (get_none once).mpr fresh
  have default_ : configGetString defaults d.key = none :=
    (get_none defaults_sound.unique).mpr fun member => fresh (base.subset member)
  have held : configGetString t d.key = some d.value := (get_eq sound.unique).mpr ⟨d, here, rfl, rfl⟩
  rw [gets, List.lookup_append, before, default_, held, Option.none_or, Option.or_none]
  rcases short with rfl | ⟨v, less, rfl⟩
  · simp
  · simp only [List.lookup_cons, beq_self_eq_true]
    intro same
    exact absurd (congrArg List.length (Option.some.inj same)) (Nat.ne_of_lt less)

theorem reloaded_cut (sound : Sound t) (cut : ¬ Whole t) : ¬ Persists t (reloaded t) := by
  obtain ⟨es, e, is, low, length, comment, sets⟩ := settings_saved sound
  intro persists
  have base := sound.base_written
  obtain ⟨rest, parts⟩ := written_part header.length t
  rw [is] at base parts
  have good := sound.good e (parts ▸ List.mem_append_left _ (List.mem_append_right _ (List.mem_singleton_self e)))
  change (text es).length < 7936 at low
  rcases settings_cut good (bufferSize - 1 - (text es).length - e.comment.length) with ⟨fits, line⟩ | ⟨early, short⟩
  · change _ ≤ 8191 - _ - _ at fits
    cases rest with
    | nil =>
      rw [List.append_nil] at parts
      apply cut
      rw [← parts]
      refine ⟨by rw [List.dropLast_concat]; exact low, ?_⟩
      rw [length]
      change _ ≤ 8193
      omega
    | cons d rest =>
      -- the entry after the last that is written is not in the file at all
      have lost := @lost_after t sound (es ++ [e]) rest d parts.symm base [] (.inl rfl)
      rw [List.append_nil, List.map_append, List.map_singleton, ← line, ← sets] at lost
      exact lost (persists.gets d.key)
  · -- the last entry is cut, so it comes after the defaults
    have behind : keys defaults <+: keys es := by
      apply List.prefix_of_prefix_length_le base
      · rw [keys, keys, List.map_append]
        exact List.prefix_append _ _
      · by_contra few
        have short := sound.base_short
        have exactly_ : (es ++ [e]).length = defaults.length := by
          have most := base.length_le
          simp only [keys, List.length_map, List.length_append, List.length_singleton] at few most ⊢
          omega
        rw [← parts, ← exactly_, List.take_left, length] at short
        change 8191 - _ - _ < _ at early
        omega
    have whole : t = es ++ e :: rest := by
      rw [← parts, List.append_assoc]
      rfl
    have lost := @lost_after t sound es rest e whole behind _ short
    rw [← sets] at lost
    exact lost (persists.gets e.key)

theorem text_written_short (sound : Sound t) : (text (written header.length t)).length < 8300 := by
  obtain ⟨es, e, is, low, length, comment, -⟩ := settings_saved sound
  have here : e ∈ t := (written_part header.length t).subset (is ▸ List.mem_append_right _ (List.mem_singleton_self e))
  obtain ⟨⟨-, key, -⟩, ⟨-, value, -⟩, -⟩ := sound.good e here
  rw [is, length, Entry.body]
  simp only [List.length_append, List.length_cons]
  change (text es).length < 7936 at low
  change e.key.length < 64 at key
  change e.value.length < 192 at value
  omega

theorem saved_short (stack : Nat → UInt8) (sound : Sound t) :
    ((List.range (saveEntries (Output.print ⟨stack, 0⟩ header) t).pos).map
      (saveEntries (Output.print ⟨stack, 0⟩ header) t).buffer).length < 2 ^ 62 := by
  rw [List.length_map, List.length_range, (saved_prints stack sound.good).pos]
  exact Nat.lt_trans (text_written_short sound) (by decide)

theorem plain_path : Vfs.Plain configPath := by decide +kernel

/-- config_save and config_load with config_reset_defaults between them, both successful. -/
theorem saved_reloaded {env env' : Env} {stack : Nat → UInt8} {s s' s'' : FsState} {kids : Vfs.NodeId → List Vfs.NodeId} {u : Table}
    (sound : Sound t) (tree : Vfs.Tree s kids) (fits : Vfs.Fits s) (ordinary : Vfs.Ordinary s configPath)
    (saves : configSave env stack s t = some (0, s')) (loads : configLoad env' s' configResetDefaults = some (0, s'', u)) :
    u = reloaded t := by
  obtain ⟨kids', -, fits', content⟩ := Vfs.fsWriteFile_content tree fits plain_path ordinary (saved_short stack sound) saves
  obtain ⟨⟨code, got, v⟩, reads, rest⟩ := Option.bind_eq_some_iff.mp loads
  dsimp only at rest
  split at rest
  · exact absurd (congrArg Prod.fst (Option.some.inj rest)) (by simp)
  · rename_i done
    cases Decidable.not_not.mp done
    have shown := Vfs.fsReadFile_content fits' content reads
    rw [(saved_prints stack sound.good).front] at shown
    have loaded : (settings (got.takeWhile (· ≠ 0))).foldl assign configResetDefaults = u :=
      congrArg (fun result => result.2.2) (Option.some.inj rest)
    rw [← loaded, shown]
    rfl

/-- After saving and loading every key has its value exactly if the settings fit the buffers. -/
theorem settings_persist_iff {env env' : Env} {stack : Nat → UInt8} {s s' s'' : FsState} {kids : Vfs.NodeId → List Vfs.NodeId}
    {u : Table} (reached : Reachable (· = configResetDefaults) SetStep t) (tree : Vfs.Tree s kids) (fits : Vfs.Fits s)
    (ordinary : Vfs.Ordinary s configPath) (saves : configSave env stack s t = some (0, s'))
    (loads : configLoad env' s' configResetDefaults = some (0, s'', u)) : Persists t u ↔ Whole t := by
  have sound := run_sound reached
  rw [saved_reloaded sound tree fits ordinary saves loads]
  constructor
  · intro persists
    by_contra cut
    exact reloaded_cut sound cut persists
  · exact reloaded_whole sound

theorem boot_config : ∃ s kids, Vfs.Tree s kids ∧ Vfs.Fits s ∧ Vfs.contentAt s configPath = some [] := by
  obtain ⟨s, kids, started, tree⟩ := Vfs.fsInit_tree Vfs.bootEnv (fun _ => Vfs.bootEnv) rfl
  obtain ⟨got, t, kids', create, tree'⟩ := Vfs.fsCreate_tree Vfs.bootEnv tree configPath .file 0o644
  have facts : ((Vfs.fsInit Vfs.bootEnv fun _ => Vfs.bootEnv).bind fun s =>
      (Vfs.fsCreate Vfs.bootEnv s configPath .file 0o644).map fun r => (r.2.nextInode, (List.range 16).all fun id =>
        (r.2.nodes id).all fun n => n.size == 0, Vfs.contentAt r.2 configPath)) = some (16, true, some []) := by
    decide +kernel
  rw [started, Option.bind_some, create, Option.map_some] at facts
  simp only [Option.some.injEq, Prod.mk.injEq] at facts
  obtain ⟨next, empty, content⟩ := facts
  refine ⟨t, kids', tree', fun id b body _ => ?_, content⟩
  obtain ⟨n, live, rfl⟩ := Vfs.live_of_body body
  have below : id < 16 := next ▸ tree'.fresh id n.shape (Vfs.shapes_live live)
  have zero := List.all_eq_true.mp empty id (List.mem_range.mpr below)
  simp only [live, Option.all_some, beq_iff_eq] at zero
  change n.size ≤ n.capacity ∧ n.size < 2 ^ 63
  omega

theorem boot_persists (sound : Sound t) : ∃ s kids s' s'' u, Vfs.Tree s kids ∧ Vfs.Fits s ∧ Vfs.Ordinary s configPath ∧
    configSave Vfs.bootEnv (fun _ => 0) s t = some (0, s') ∧ configLoad Vfs.bootEnv s' configResetDefaults = some (0, s'', u) := by
  obtain ⟨s, kids, tree, fits, content⟩ := boot_config
  obtain ⟨s', saves⟩ := @Vfs.fsWriteFile_kernel Vfs.bootEnv s kids configPath _ tree fits plain_path _ content rfl rfl rfl
    (saved_short (fun _ => 0) sound)
  have ordinary := Vfs.ordinary_of_content content
  obtain ⟨kids', -, fits', content'⟩ := Vfs.fsWriteFile_content tree fits plain_path ordinary (saved_short (fun _ => 0) sound) saves
  obtain ⟨got, s'', reads⟩ := @Vfs.fsReadFile_kernel Vfs.bootEnv s' configPath fits' _ (bufferSize - 1) content' rfl rfl
  have shown := Vfs.fsReadFile_content fits' content' reads
  rw [(saved_prints (fun _ => 0) sound.good).front] at shown
  have applied : (settings (got.takeWhile (· ≠ 0))).length > 0 := by
    obtain ⟨es, e, is, -, -, -, sets⟩ := settings_saved sound
    have base := sound.base_written.length_le
    have many : (keys defaults).length = 23 := by decide +kernel
    rw [is, many] at base
    rw [shown, sets, List.length_append, List.length_map]
    simp only [keys, List.length_map, List.length_append, List.length_singleton] at base
    omega
  refine ⟨s, kids, s', s'', (settings (got.takeWhile (· ≠ 0))).foldl assign configResetDefaults, tree, fits, ordinary, saves, ?_⟩
  simp only [configLoad, reads, Option.bind_eq_bind, Option.bind_some, ne_eq, not_true_eq_false, if_false, if_pos applied]
  rfl

theorem defaults_persist : ∃ s kids s' s'' u, Vfs.Tree s kids ∧ configSave Vfs.bootEnv (fun _ => 0) s configResetDefaults = some (0, s') ∧
    configLoad Vfs.bootEnv s' configResetDefaults = some (0, s'', u) ∧ Persists configResetDefaults u := by
  have start : Reachable (· = configResetDefaults) SetStep configResetDefaults := .start rfl
  obtain ⟨s, kids, s', s'', u, tree, fits, ordinary, saves, loads⟩ := boot_persists (run_sound start)
  have whole : Whole configResetDefaults := by
    rw [configResetDefaults_eq]
    have short := defaults_sound.base_short
    rw [List.take_length] at short
    have front : (text defaults.dropLast).length ≤ (text defaults).length := by
      conv => rhs; rw [← List.dropLast_append_getLast (l := defaults) nofun, text_append, List.length_append]
      omega
    exact ⟨Nat.lt_of_le_of_lt front (Nat.lt_trans short (by decide)), Nat.le_trans (Nat.le_of_lt short) (by decide)⟩
  exact ⟨s, kids, s', s'', u, tree, saves, loads, (settings_persist_iff start tree fits ordinary saves loads).mpr whole⟩

/-- Forty settings with the longest values. -/
def crowd : List Setting := (List.range 40).map fun i => .string [107, UInt8.ofNat (65 + i)] (List.replicate 191 118)

def crowded : Table := crowd.foldl (fun t setting => (setting.run t).2) configResetDefaults

/-- All the calls return 0. -/
def allSet : Table → List Setting → Bool
  | _, [] => true
  | t, setting :: later => (setting.run t).1 = 0 && allSet (setting.run t).2 later

example : allSet configResetDefaults crowd = true := by decide +kernel

theorem allSet_reached {sets : List Setting} (reached : Reachable (· = configResetDefaults) SetStep t) (good : ∀ setting ∈ sets, setting.Good)
    (done : allSet t sets = true) :
    Reachable (· = configResetDefaults) SetStep (sets.foldl (fun t setting => (setting.run t).2) t) := by
  induction sets generalizing t with
  | nil => exact reached
  | cons setting sets ih =>
    obtain ⟨code, rest⟩ := Bool.and_eq_true_iff.mp done
    have step : SetStep t (setting.run t).2 := ⟨setting, good setting List.mem_cons_self, Prod.ext (of_decide_eq_true code) rfl⟩
    exact ih (.next reached step) (fun later member => good later (List.mem_cons_of_mem _ member)) rest

theorem crowded_reached : Reachable (· = configResetDefaults) SetStep crowded := by
  apply allSet_reached (.start rfl)
  · intro setting member
    obtain ⟨i, low, rfl⟩ := List.mem_map.mp member
    have keys : ∀ i < 40, GoodKey [107, UInt8.ofNat (65 + i)] := by decide +kernel
    exact ⟨keys i (List.mem_range.mp low), by decide +kernel⟩
  · decide +kernel

example : crowded.length = 63 := by decide +kernel

theorem crowded_lost : ∃ s kids s' s'' u, Reachable (· = configResetDefaults) SetStep crowded ∧ Vfs.Tree s kids ∧ Vfs.Fits s ∧
    Vfs.Ordinary s configPath ∧ configSave Vfs.bootEnv (fun _ => 0) s crowded = some (0, s') ∧
    configLoad Vfs.bootEnv s' configResetDefaults = some (0, s'', u) ∧ ¬ Persists crowded u := by
  have sound := run_sound crowded_reached
  obtain ⟨s, kids, s', s'', u, tree, fits, ordinary, saves, loads⟩ := boot_persists sound
  refine ⟨s, kids, s', s'', u, crowded_reached, tree, fits, ordinary, saves, loads, ?_⟩
  rw [saved_reloaded sound tree fits ordinary saves loads]
  refine reloaded_cut sound fun whole => absurd whole.2 (Nat.not_le.mpr ?_)
  -- the forty entries alone are longer than the buffer
  have long : ((crowded.drop 23).map fun e => e.description.length + e.key.length + e.value.length + 8).sum = 8520 := by decide +kernel
  have parts := congrArg (fun t => (text t).length) (List.take_append_drop 23 crowded)
  simp only [text_append, List.length_append, List.length_flatMap, text_length, long] at parts
  rw [← parts]
  change 8193 < _
  omega

end Persistence
end Qito.Config
