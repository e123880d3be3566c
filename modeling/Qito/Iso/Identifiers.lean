import Qito.Iso.Image

/-! The identifiers in a directory of the primary tree, and the path table. -/
namespace Qito.Iso

section Names
variable {text name other : Text} {c : Char}

theorem allowed_ascii : ∀ c ∈ allowed, 48 ≤ c.toNat ∧ c.toNat < 128 := by
  have all : (allowed.all fun c => decide (48 ≤ c.toNat ∧ c.toNat < 128)) = true := by decide
  exact fun c member => of_decide_eq_true (List.all_eq_true.mp all c member)

theorem sanitiseChar_allowed (c : Char) : ∀ d ∈ sanitiseChar c, d ∈ allowed := by
  intro d member
  unfold sanitiseChar at member
  split at member
  · rename_i here
    rw [List.mem_singleton.mp member]
    exact here
  · split at member
    · rename_i letter
      have capitals : ∀ n < 123, 97 ≤ n → Char.ofNat (n - 32) ∈ allowed := by decide
      rw [List.mem_singleton.mp member]
      exact capitals c.toNat (by omega) letter.1
    · split at member
      · rename_i range found
        have all : (expansions.all fun range => range.2.2.all fun d => decide (d ∈ allowed)) = true := by decide
        have inside := List.all_eq_true.mp all range (List.mem_of_find?_eq_some found)
        exact of_decide_eq_true (List.all_eq_true.mp inside d member)
      · rw [List.mem_singleton.mp member]
        decide

theorem sanitise_allowed : ∀ c ∈ sanitise text, c ∈ allowed := by
  intro c member
  obtain ⟨d, -, inside⟩ := List.mem_flatMap.mp member
  exact sanitiseChar_allowed d c inside

theorem short_allowed (n : Nat) : ∀ c ∈ short n text, c ∈ allowed := by
  intro c member
  unfold short at member
  split at member
  · rw [List.mem_singleton.mp member]
    decide
  · rename_i d ds shape
    rw [← shape] at member
    exact sanitise_allowed c (List.mem_of_mem_take member)

theorem short_some (n : Nat) (text : Text) : short n text ≠ [] := by
  unfold short
  split
  · exact List.cons_ne_nil _ _
  · exact List.cons_ne_nil _ _

theorem isoName_file (name : Text) :
    isoName name false = short 8 (stemOf name) ++ '.' :: ((sanitise (extOf name)).take 3 ++ [';', '1']) := by
  unfold isoName
  rw [if_neg (by decide)]
  split
  · rename_i none_
    rw [none_]
    rfl
  · rename_i d ds shape
    rw [shape]
    simp

theorem isoName_dir (name : Text) : isoName name true = short 8 name := rfl

/-- Identifiers are made of ASCII characters from the digits on, but for the dot of a file. -/
theorem isoName_ascii (name : Text) (isDir : Bool) : ∀ c ∈ isoName name isDir, c.toNat < 128 := by
  intro c member
  cases isDir with
  | true => exact (allowed_ascii c (short_allowed 8 c member)).2
  | false =>
    rw [isoName_file] at member
    rcases List.mem_append.mp member with stem | rest
    · exact (allowed_ascii c (short_allowed 8 c stem)).2
    · rcases List.mem_cons.mp rest with rfl | rest
      · decide
      · rcases List.mem_append.mp rest with ext | tail
        · exact (allowed_ascii c (sanitise_allowed c (List.mem_of_mem_take ext))).2
        · rcases List.mem_pair.mp tail with rfl | rfl
          · decide
          · decide

theorem isoName_front (name : Text) (isDir : Bool) : ∃ c cs, isoName name isDir = c :: cs ∧ 48 ≤ c.toNat := by
  have front : ∀ text : Text, ∃ c cs, short 8 text = c :: cs ∧ 48 ≤ c.toNat := by
    intro text
    obtain ⟨c, cs, shape⟩ := List.exists_cons_of_ne_nil (short_some 8 text)
    exact ⟨c, cs, shape, (allowed_ascii c (@short_allowed text 8 c (shape ▸ List.mem_cons_self))).1⟩
  cases isDir with
  | true => exact front name
  | false =>
    obtain ⟨c, cs, shape, least⟩ := front (stemOf name)
    rw [isoName_file, shape]
    exact ⟨c, _, rfl, least⟩

/-- Two nodes that get one identifier. -/
def Alike (x y : Node) : Prop :=
  x.isDir = y.isDir ∧
    if x.isDir then short 8 x.name = short 8 y.name
    else short 8 (stemOf x.name) = short 8 (stemOf y.name) ∧ (sanitise (extOf x.name)).take 3 = (sanitise (extOf y.name)).take 3

instance (x y : Node) : Decidable (Alike x y) :=
  inferInstanceAs (Decidable (_ ∧ if x.isDir = true then _ else _))

theorem dotless (text : Text) : '.' ∉ short 8 text := fun member => absurd (short_allowed 8 '.' member) (by decide)

theorem isoName_apart (name other : Text) : isoName name true ≠ isoName other false := by
  intro same
  apply dotless name
  rw [← isoName_dir, same, isoName_file]
  simp

theorem isoName_eq (x y : Node) : isoName x.name x.isDir = isoName y.name y.isDir ↔ Alike x y := by
  obtain ⟨name, isDir, _, _⟩ := x
  obtain ⟨name', isDir', _, _⟩ := y
  dsimp only [Alike]
  cases isDir with
  | true =>
    cases isDir' with
    | true => simp [isoName_dir]
    | false => simpa using isoName_apart name name'
  | false =>
    cases isDir' with
    | true => simpa using (isoName_apart name' name).symm
    | false =>
      have tail : '.' ∉ (sanitise (extOf name)).take 3 ++ [';', '1'] := by
        intro member
        rcases List.mem_append.mp member with ext | end_
        · exact absurd (sanitise_allowed '.' (List.mem_of_mem_take ext)) (by decide)
        · exact absurd end_ (by decide)
      rw [isoName_file, isoName_file, List.append_cons_inj_of_notMem (dotless _) tail]
      simp

theorem encodeAscii_lt (ascii : ∀ c ∈ name, c.toNat < 128) (ascii' : ∀ c ∈ other, c.toNat < 128) :
    encodeAscii name < encodeAscii other ↔ name < other := by
  induction name generalizing other with
  | nil =>
    cases other with
    | nil => simp [encodeAscii]
    | cons d ds => simp [encodeAscii]
  | cons c cs ih =>
    cases other with
    | nil => simp [encodeAscii]
    | cons d ds =>
      obtain ⟨small, ascii⟩ := List.forall_mem_cons.mp ascii
      obtain ⟨small', ascii'⟩ := List.forall_mem_cons.mp ascii'
      have byte : ∀ n < 128, (UInt8.ofNat n).toNat = n := by decide
      have less : UInt8.ofNat c.toNat < UInt8.ofNat d.toNat ↔ c < d := by
        rw [UInt8.lt_iff_toNat_lt, byte _ small, byte _ small']
        exact Iff.rfl
      have equal : UInt8.ofNat c.toNat = UInt8.ofNat d.toNat ↔ c = d := by
        rw [← UInt8.toNat_inj, byte _ small, byte _ small', Char.toNat_inj]
      change UInt8.ofNat c.toNat :: encodeAscii cs < UInt8.ofNat d.toNat :: encodeAscii ds ↔ _
      rw [List.cons_lt_cons_iff, List.cons_lt_cons_iff, less, equal, ih ascii ascii']

end Names

namespace IsoBuilder
variable {b : IsoBuilder} {d : Nat} {a : Layout}

theorem sortedChildren_ordered (b : IsoBuilder) (d : Nat) : (b.sortedChildren d).Pairwise fun x y => b.key x ≤ b.key y := by
  have total : Std.Total fun x y => b.key x ≤ b.key y := ⟨fun x y => le_total _ _⟩
  have trans_ : IsTrans Nat fun x y => b.key x ≤ b.key y := ⟨fun x y z => le_trans⟩
  exact List.pairwise_insertionSort _ _

theorem identifiers_eq (b : IsoBuilder) (a : Layout) (d : Nat) :
    (b.entries a false d).map Entry.identifier = [0] :: [1] :: (b.sortedChildren d).map fun c => encodeAscii (b.key c) := by
  simp [entries, entryOf, identifier, key, Function.comp_def]

theorem identifiers_ascending (a : Layout) : ((b.entries a false d).map Entry.identifier).Pairwise (· < ·) ↔
    (b.children d).Pairwise fun x y => ¬ Alike (b.node x) (b.node y) := by
  have small : ∀ c, ([0] : Bytes) < encodeAscii (b.key c) ∧ ([1] : Bytes) < encodeAscii (b.key c) := by
    intro c
    obtain ⟨first, rest, shape, least⟩ := isoName_front (b.node c).name (b.node c).isDir
    have most := isoName_ascii (b.node c).name (b.node c).isDir first (shape ▸ List.mem_cons_self)
    have byte : ∀ n < 128, 48 ≤ n → (0 : UInt8) < UInt8.ofNat n ∧ (1 : UInt8) < UInt8.ofNat n := by decide
    rw [key, shape]
    change [0] < UInt8.ofNat first.toNat :: _ ∧ [1] < UInt8.ofNat first.toNat :: _
    rw [List.cons_lt_cons_iff, List.cons_lt_cons_iff]
    exact ⟨.inl (byte _ most least).1, .inl (byte _ most least).2⟩
  have less : ∀ x y, encodeAscii (b.key x) < encodeAscii (b.key y) ↔ b.key x < b.key y := fun x y =>
    encodeAscii_lt (isoName_ascii _ _) (isoName_ascii _ _)
  have apart : ((b.sortedChildren d).map fun c => encodeAscii (b.key c)).Pairwise (· < ·) ↔
      (b.sortedChildren d).Pairwise fun x y => ¬ Alike (b.node x) (b.node y) := by
    rw [List.pairwise_map]
    constructor
    · intro ascending
      refine ascending.imp fun {x y} before same => ?_
      rw [less] at before
      exact absurd ((isoName_eq (b.node x) (b.node y)).mpr same) (ne_of_lt before)
    · intro differ
      refine ((b.sortedChildren_ordered d).and differ).imp fun {x y} both => ?_
      rw [less]
      exact lt_of_le_of_ne both.1 fun same => both.2 ((isoName_eq (b.node x) (b.node y)).mp same)
  have symmetric : ∀ {x y}, ¬ Alike (b.node x) (b.node y) → ¬ Alike (b.node y) (b.node x) := by
    intro x y differ same
    exact differ ((isoName_eq _ _).mp ((isoName_eq _ _).mpr same).symm)
  rw [identifiers_eq, List.pairwise_cons, List.pairwise_cons, apart]
  constructor
  · rintro ⟨-, -, differ⟩
    exact (List.Perm.pairwise_iff symmetric (List.perm_insertionSort _ _)).mp differ
  · intro differ
    refine ⟨?_, ?_, (List.Perm.pairwise_iff symmetric (List.perm_insertionSort _ _)).mpr differ⟩
    · intro other member
      rcases List.mem_cons.mp member with rfl | later
      · decide
      · obtain ⟨c, -, rfl⟩ := List.mem_map.mp later
        exact (small c).1
    · intro other member
      obtain ⟨c, -, rfl⟩ := List.mem_map.mp member
      exact (small c).2

/-- What a record of a path table says. -/
structure PathRecord where
  identifier : Bytes
  extent : Nat
  parent : Nat

/-- A path table, read record by record. -/
def readPathTable (little : Bool) : Nat → Bytes → List PathRecord
  | fuel + 1, n :: _ :: rest =>
    ⟨(rest.drop 6).take n.toNat, unpackAs (!little) (rest.take 4), unpackAs (!little) ((rest.drop 4).take 2)⟩ ::
      readPathTable little fuel (rest.drop (6 + n.toNat + n.toNat % 2))
  | _, _ => []

theorem readPathTable_record {joliet little : Bool} {record : Bytes} (packed : b.pathRecord a joliet little d = some record) (fuel : Nat)
    (rest : Bytes) : readPathTable little (fuel + 1) (record ++ rest) =
      ⟨b.tableIdentifier joliet d, if joliet then a.jolietExtent d else a.extent d, b.parentNumber d⟩ :: readPathTable little fuel rest := by
  unfold pathRecord at packed
  dsimp only at packed
  split at packed
  · rename_i short_
    simp only [Option.bind_eq_bind, Option.bind_eq_some_iff, Option.some.injEq] at packed
    obtain ⟨extent, isExtent, parent, isParent, rfl⟩ := packed
    obtain ⟨-, four, isExtent⟩ := pack_spec isExtent
    obtain ⟨-, two, isParent⟩ := pack_spec isParent
    have count : (UInt8.ofNat (b.tableIdentifier joliet d).length).toNat = (b.tableIdentifier joliet d).length := by
      rw [UInt8.toNat_ofNat']
      omega
    generalize b.tableIdentifier joliet d = name at count
    have whole : extent ++ parent ++ name ++ List.replicate (name.length % 2) 0 ++ rest =
        extent ++ (parent ++ (name ++ (List.replicate (name.length % 2) 0 ++ rest))) := by simp
    rw [List.cons_append, List.cons_append, whole, readPathTable, count]
    have skip : (extent ++ (parent ++ (name ++ (List.replicate (name.length % 2) 0 ++ rest)))).drop 4 =
        parent ++ (name ++ (List.replicate (name.length % 2) 0 ++ rest)) := by rw [← four, List.drop_left]
    have skip' : (extent ++ (parent ++ (name ++ (List.replicate (name.length % 2) 0 ++ rest)))).drop 6 =
        name ++ (List.replicate (name.length % 2) 0 ++ rest) := by
      rw [← List.append_assoc]
      exact List.drop_left' (by rw [List.length_append, four, two])
    have skip'' : (extent ++ (parent ++ (name ++ (List.replicate (name.length % 2) 0 ++ rest)))).drop (6 + name.length + name.length % 2) = rest := by
      rw [← List.append_assoc, ← List.append_assoc, ← List.append_assoc]
      refine List.drop_left' ?_
      rw [List.length_append, List.length_append, List.length_append, List.length_replicate, four, two]
    rw [skip, skip', skip'', ← isExtent, ← isParent, List.take_left, List.take_left' four, List.take_left' two]
  · cases packed

theorem readPathTable_all {joliet little : Bool} {dirs : List Nat} {records : List Bytes}
    (packed : List.Forall₂ (fun d record => b.pathRecord a joliet little d = some record) dirs records) {fuel : Nat}
    (enough : records.flatten.length ≤ fuel) : readPathTable little fuel records.flatten =
      dirs.map fun d => ⟨b.tableIdentifier joliet d, if joliet then a.jolietExtent d else a.extent d, b.parentNumber d⟩ := by
  induction packed generalizing fuel with
  | nil =>
    cases fuel with
    | zero => rfl
    | succ fuel => rfl
  | @cons d record dirs records here _ ih =>
    rw [List.flatten_cons, List.length_append] at enough
    have some_ : 0 < record.length := by
      unfold pathRecord at here
      dsimp only at here
      split at here
      · simp only [Option.bind_eq_bind, Option.bind_eq_some_iff, Option.some.injEq] at here
        obtain ⟨extent, -, parent, -, rfl⟩ := here
        exact Nat.succ_pos _
      · cases here
    obtain ⟨fuel, rfl⟩ : ∃ f, fuel = f + 1 := ⟨fuel - 1, by omega⟩
    rw [List.flatten_cons, readPathTable_record here, ih (by omega)]
    rfl

/-- The records are those of the directories, each once and after its parent, with the number of its parent. -/
def ListsDirs (b : IsoBuilder) (a : Layout) (records : List PathRecord) : Prop :=
  ∃ dirs : List Nat, dirs.Nodup ∧ (∀ d, d ∈ dirs ↔ b.IsDir d) ∧ records.length = dirs.length ∧
    ∀ k d record, dirs[k]? = some d → records[k]? = some record →
      record.identifier = b.tableIdentifier false d ∧ record.extent = a.extent d ∧
      ((d = 0 ∧ record.parent = 1) ∨ ∃ j, j < k ∧ dirs[j]? = some (b.node d).parent ∧ record.parent = j + 1)

theorem pathTable_lists {little : Bool} {table : Bytes} (packed : b.pathTable a false little = some table) :
    ListsDirs b a (readPathTable little table.length table) := by
  simp only [pathTable, Option.bind_eq_bind, Option.bind_eq_some_iff, Option.some.injEq] at packed
  obtain ⟨records, each, rfl⟩ := packed
  rw [readPathTable_all (mapM_some_iff.mp each) (Nat.le_refl _)]
  refine ⟨b.allDirs, b.allDirs_nodup, fun d => mem_allDirs, List.length_map _, ?_⟩
  intro k d record there read
  rw [List.getElem?_map, there] at read
  cases read
  refine ⟨rfl, rfl, ?_⟩
  rcases Nat.eq_zero_or_pos k with rfl | positive
  · rw [b.spread.first] at there
    cases there
    exact .inl ⟨rfl, rfl⟩
  · exact .inr (parent_before positive there)

/-- The records of a directory are in ascending order of their identifiers, all different,
and the path table has every directory once, after its parent. -/
structure Identified (b : IsoBuilder) (d : Nat) : Prop where
  ascending : ∀ a, ((b.entries a false d).map Entry.identifier).Pairwise (· < ·)
  table : ∀ a little bytes, b.pathTable a false little = some bytes → ListsDirs b a (readPathTable little bytes.length bytes)

theorem Identified.differ (identified : Identified b d) : (b.children d).Pairwise fun x y => ¬ Alike (b.node x) (b.node y) :=
  (identifiers_ascending b.initialLayout).mp (identified.ascending b.initialLayout)

/-- This holds of a directory exactly if no two of its children get one identifier. -/
theorem identified_iff (b : IsoBuilder) (d : Nat) : Identified b d ↔ (b.children d).Pairwise fun x y => ¬ Alike (b.node x) (b.node y) := by
  constructor
  · exact Identified.differ
  · intro differ
    exact ⟨fun a => (identifiers_ascending a).mpr differ, fun a little bytes packed => pathTable_lists packed⟩

/-- Two names that differ in a character which is not allowed. -/
theorem identified_folded : ∃ first b : IsoBuilder,
    (IsoBuilder.empty [] [] ⟨2024, 1, 1, 0, 0, 0, by decide, by decide⟩).addFile "a-b.txt".toList [] = some first ∧
    first.addFile "a_b.txt".toList [] = some b ∧ ((b.children 0).map fun c => (b.node c).name).Nodup ∧ ¬ Identified b 0 := by
  refine ⟨_, _, rfl, rfl, by decide, ?_⟩
  intro identified
  have differ := identified.differ
  revert differ
  decide

end IsoBuilder
end Qito.Iso
