import Qito.Qdl.Linking
import Qito.Qtx.Safety

/-! How a load goes from its file to the table: rules for qtx_load_memory, for
qdl_load in each of its endings, and for a search in /lib. -/
namespace Qito.Qdl
open Nesting Qtx Words

section Reading
variable {must : Prop} {env : Env} {limit : Nat} {path : Bytes} {s : State}

/-- The size of a file that both loads find acceptable. -/
def sized (v : Volume) (limit : Nat) (path : Bytes) : Option Nat :=
  (v.stat path).filter fun size => decide (headerSize ≤ size ∧ size ≤ limit)

/-- The file a load reads, if it has the memory. -/
def fileAt (v : Volume) (limit : Nat) (path : Bytes) : Option Bytes :=
  (sized v limit path).bind fun size => (v.readFile path size).filter fun data => data.length == size

theorem fileAt_mono {v : Volume} {more : Nat} {data : Bytes} (larger : limit ≤ more) (found : fileAt v limit path = some data) :
    fileAt v more path = some data := by
  obtain ⟨size, fits, read⟩ := Option.bind_eq_some_iff.mp found
  obtain ⟨stat, range⟩ := Option.filter_eq_some_iff.mp fits
  have wider : headerSize ≤ size ∧ size ≤ limit := of_decide_eq_true range
  exact Option.bind_eq_some_iff.mpr ⟨size, Option.filter_eq_some_iff.mpr ⟨stat, decide_eq_true ⟨wider.1, wider.2.trans larger⟩⟩, read⟩

@[simp] theorem after_request {size : Nat} {Q : Option Nat → State → Prop} :
    After must (request env size) s Q ↔ Q (env.kmalloc s.requests size) { s with requests := s.requests + 1 } := by
  unfold After
  exact Iff.rfl

theorem readImage_unsized (none_ : sized env.volume limit path = none) : readImage env limit path = pure none := by
  unfold readImage
  rw [sized] at none_
  cases stat : env.volume.stat path with
  | none => rfl
  | some size =>
    rw [stat] at none_
    have out : size < headerSize ∨ limit < size := by
      simp [Option.filter] at none_
      omega
    exact if_pos out

theorem readImage_sized {size : Nat} (fits : sized env.volume limit path = some size) :
    After must (readImage env limit path) s fun r s' =>
      r = ((env.kmalloc s.requests size).bind fun _ => fileAt env.volume limit path) ∧
        s' = { s with requests := s.requests + 1 } := by
  have file : fileAt env.volume limit path = (env.volume.readFile path size).filter fun data => data.length == size := by
    rw [fileAt, fits]
    rfl
  obtain ⟨stat, range⟩ := Option.filter_eq_some_iff.mp fits
  have room : ¬ (size < headerSize ∨ limit < size) := by
    have both : headerSize ≤ size ∧ size ≤ limit := of_decide_eq_true range
    omega
  unfold readImage
  rw [stat]
  simp only [if_neg room, after_bind, after_request]
  cases env.kmalloc s.requests size with
  | none => simp
  | some _ => simp [file]

theorem readImage_reads : After must (readImage env limit path) s fun r s' =>
    (∃ n, s' = { s with requests := n }) ∧ ∀ data, r = some data → fileAt env.volume limit path = some data := by
  cases fits : sized env.volume limit path with
  | none =>
    rw [readImage_unsized fits, after_pure]
    exact ⟨⟨s.requests, rfl⟩, nofun⟩
  | some size =>
    apply (readImage_sized fits).mono
    rintro r s' ⟨rfl, rfl⟩
    refine ⟨⟨_, rfl⟩, fun data read => ?_⟩
    obtain ⟨_, -, found⟩ := Option.bind_eq_some_iff.mp read
    exact found

/-- qtx_load_memory gets as far as asking for a buffer. -/
def Addressable (data : Bytes) : Prop :=
  Traces.Ends (qtxValidate data) () ∧ (bounds (sections data)).1 < (bounds (sections data)).2 ∧
    (bounds (sections data)).2 - (bounds (sections data)).1 ≤ sizeLimit

instance (data : Bytes) : Decidable (Addressable data) := inferInstanceAs (Decidable (_ ∧ _ ∧ _))

variable {needed : Bytes → Call State Bool} {data : Bytes}

theorem qtxLoadMemory_rejected (rejected : ¬ Addressable data) : qtxLoadMemory env needed data = pure none := by
  unfold qtxLoadMemory
  rcases Classical.em (Traces.Ends (qtxValidate data) ()) with valid | invalid
  · rcases Nat.lt_or_ge (bounds (sections data)).1 (bounds (sections data)).2 with some_ | empty
    · have large : sizeLimit < (bounds (sections data)).2 - (bounds (sections data)).1 :=
        Nat.lt_of_not_le fun fits => rejected ⟨valid, some_, fits⟩
      simp only [valid, not_true_eq_false, if_false, if_neg (Nat.not_le_of_lt some_), if_pos large]
    · simp only [valid, not_true_eq_false, if_false, if_pos empty]
  · simp only [if_pos invalid]

/-- The image qtx_load_memory returns. -/
def linkedImage (data : Bytes) (base : Nat) (linked : Linked) : Image where
  name := imageName data
  base := base
  size := (bounds (sections data)).2 - (bounds (sections data)).1
  deps := linked.deps
  links := linked.links

theorem qtxLoadMemory_eq (fits : Addressable data) : qtxLoadMemory env needed data = (do
    match ← request env ((bounds (sections data)).2 - (bounds (sections data)).1) with
    | none => pure none
    | some base =>
      match ← linkImports env needed data ⟨[], []⟩ (List.range (header data).importCount) with
      | none => pure none
      | some linked => pure (some (linkedImage data base linked))) := by
  obtain ⟨valid, some_, small⟩ := fits
  unfold qtxLoadMemory
  simp only [valid, not_true_eq_false, if_false, if_neg (Nat.not_le_of_lt some_), if_neg (Nat.not_lt_of_le small)]
  rfl

/-- Linking finds every import that it reaches in the table. -/
def Quiet (t : Table) (data : Bytes) : Prop :=
  Addressable data → ∀ i < (header data).importCount, (∀ j < i, inside data j = true) → Resolved t (importName data i)

theorem range_split {n i : Nat} {before after : List Nat} (whole : List.range n = before ++ i :: after) :
    before = List.range i ∧ i < n := by
  rw [List.range_eq_range', List.range'_eq_append_iff] at whole
  obtain ⟨k, le, front, back⟩ := whole
  obtain ⟨rfl, -, -⟩ := List.range'_eq_cons_iff.mp back.symm
  have long := congrArg List.length back
  simp only [List.length_cons, List.length_range'] at long
  rw [Nat.zero_add, Nat.mul_one]
  exact ⟨front.trans List.range_eq_range'.symm, by omega⟩

theorem range_cut {n i : Nat} (small : i < n) :
    List.range n = List.range i ++ i :: (List.range (n - (i + 1))).map (i + 1 + ·) := by
  have total : n = i + 1 + (n - (i + 1)) := by omega
  conv_lhs => rw [total, List.range_add, List.range_succ, List.append_assoc]
  rfl

theorem qtxLoadMemory_quiet (quiet : Quiet s.table data) :
    After must (qtxLoadMemory env needed data) s fun r s' => ∃ n deps, Plain { s with requests := n } deps s' ∧
      ∀ image, r = some image → image.deps = deps ∧ Addressable data ∧ ∀ i < (header data).importCount, inside data i = true := by
  rcases Classical.em (Addressable data) with fits | rejected
  · rw [qtxLoadMemory_eq fits, after_bind, after_request]
    cases env.kmalloc s.requests _ with
    | none => exact (after_pure _).mpr ⟨_, [], Plain.start _, nofun⟩
    | some base =>
      rw [after_bind]
      apply After.mono (linkImports_plain (Plain.start _) ?_)
      · rintro (_ | linked) s' outcome
        · obtain ⟨-, deps, plain⟩ := outcome
          exact (after_pure _).mpr ⟨_, deps, plain, nofun⟩
        · obtain ⟨all, plain⟩ := outcome
          refine (after_pure _).mpr ⟨_, linked.deps, plain, ?_⟩
          intro image made
          cases Option.some.inj made
          exact ⟨rfl, fits, fun i small => all i (List.mem_range.mpr small)⟩
      · intro before i after whole reached
        obtain ⟨rfl, small⟩ := range_split whole
        exact quiet fits i small fun j earlier => reached j (List.mem_range.mpr earlier)
  · rw [qtxLoadMemory_rejected rejected, after_pure]
    exact ⟨s.requests, [], Plain.start s, nofun⟩

theorem after_qtxLoadMemory (Inv : Linked → State → Prop) (asked : ∀ n, Inv ⟨[], []⟩ { s with requests := n })
    (search : ∀ linked i s, i < (header data).importCount → Inv linked s → ¬ Resolved s.table (importName data i) →
      After must (needed (importName data i)) s fun _ s' => Inv linked s')
    (link : ∀ linked i target s, Inv linked s → Resolved s.table (importName data i) →
      After must (retainProvider { linked with links := linked.links ++ [newLink data i target s] }
        (qdlFindExporter s.table (importName data i))) s Inv) :
    After must (qtxLoadMemory env needed data) s fun r s' => ∃ l, Inv l s' ∧
      ∀ image, r = some image → ∃ base, image = linkedImage data base l := by
  rcases Classical.em (Addressable data) with fits | rejected
  · rw [qtxLoadMemory_eq fits, after_bind, after_request]
    cases env.kmalloc s.requests _ with
    | none => exact (after_pure _).mpr ⟨_, asked _, nofun⟩
    | some base =>
      rw [after_bind]
      apply (after_linkImports Inv (fun linked i s member => search linked i s (List.mem_range.mp member)) link (asked _)).mono
      rintro (_ | linked) s' ⟨l, kept, same⟩
      · exact (after_pure _).mpr ⟨l, kept, nofun⟩
      · cases same linked rfl
        exact (after_pure _).mpr ⟨linked, kept, fun image made => ⟨base, (Option.some.inj made).symm⟩⟩
  · rw [qtxLoadMemory_rejected rejected, after_pure]
    exact ⟨_, asked s.requests, nofun⟩

end Reading

section Loading
variable {env : Env} {unload : Image → Call State Unit} {load : Asked × Bytes → Call State Bool} {asked : Asked}
  {path data : Bytes} {slot : Slot} {s : State} {must : Prop} {Q : Bool → State → Prop}

/-- A file that qdl_load takes for a library. -/
def Library (data : Bytes) : Prop := Traces.Ends (qtxValidate data) () ∧ (header data).format = 0x44

theorem copySymbols_asks : After must (copySymbols env data) s fun _ s' => ∃ n, s' = { s with requests := n } := by
  unfold copySymbols
  split
  · exact (after_pure _).mpr ⟨s.requests, rfl⟩
  · simp

/-- What follows the linking of a library, in each of its endings. -/
def Recorded (must : Prop) (unload : Image → Call State Unit) (asked : Asked) (path data : Bytes) (slot : Slot)
    (Q : Bool → State → Prop) : Option Image → State → Prop
  | none, s => Q false s
  | some image, s => ∀ n,
    Q true (setSlot slot (some (newEntry path data image)) (.recorded asked slot (newEntry path data image))
      { s with requests := n }) ∧
    After must (unload image) { s with requests := n } fun _ s' => Q false s'

theorem after_loadLibrary (linking : After must (qtxLoadMemory env (qdlLoadNeeded env load) data) s
    (Recorded must unload asked path data slot Q)) : After must (loadLibrary env unload load asked path data slot) s Q := by
  unfold loadLibrary
  rw [after_bind]
  apply linking.mono
  rintro (_ | image) s' outcome
  · exact (after_pure _).mpr outcome
  · rw [after_bind]
    apply copySymbols_asks.mono
    rintro copied s'' ⟨n, rfl⟩
    obtain ⟨recorded, dropped⟩ := outcome n
    cases copied with
    | true => simpa using recorded
    | false => simpa using dropped

theorem after_loadBody (again : ∀ k, findPath s.table path = some k → After must (qdlRetain k) s fun _ s' => Q true s')
    (failed : ∀ n, Q false { s with requests := n })
    (fresh : ∀ data slot n, fileAt env.volume qdlLimit path = some data → Library data → findFreeSlot s.table = some slot →
      After must (loadLibrary env unload load asked path data slot) { s with requests := n } Q) :
    After must (loadBody env unload load (asked, path)) s Q := by
  unfold loadBody
  rw [after_bind, after_look]
  cases found : findPath s.table path with
  | some k =>
    rw [after_bind]
    exact (again k found).mono fun _ _ holds => (after_pure _).mpr holds
  | none =>
    rw [after_bind]
    apply readImage_reads.mono
    rintro (_ | data) s' ⟨⟨n, rfl⟩, read⟩
    · exact (after_pure _).mpr (failed n)
    · dsimp only
      split
      · exact (after_pure _).mpr (failed n)
      · rename_i valid
        split
        · exact (after_pure _).mpr (failed n)
        · rename_i format
          rw [after_bind, after_look]
          cases free : findFreeSlot s.table with
          | none => exact (after_pure _).mpr (failed n)
          | some slot => exact fresh data slot n (read data rfl) ⟨not_not.mp valid, not_not.mp format⟩ free

theorem after_tryLibraries (Inv : State → Prop) {files : List Bytes} {name : Bytes}
    (loads : ∀ file ∈ files, isLibrary file = true → ∀ s, Inv s → findPath s.table (libPath file) = none →
      After must (load (.need, libPath file)) s fun _ s' => Inv s')
    (inv : Inv s) : After must (tryLibraries load name files) s fun _ s' => Inv s' := by
  induction files generalizing s with
  | nil => exact (after_pure _).mpr inv
  | cons file rest ih =>
    have later {s : State} (inv : Inv s) : After must (tryLibraries load name rest) s fun _ s' => Inv s' :=
      ih (fun file member => loads file (List.mem_cons_of_mem _ member)) inv
    unfold tryLibraries
    split
    · exact later inv
    · rename_i library
      have kind : isLibrary file = true := by simpa using library
      rw [after_bind, after_look]
      split
      · rw [after_bind, after_look]
        split
        · exact (after_pure _).mpr inv
        · exact later inv
      · rename_i unloaded
        have fresh : findPath s.table (libPath file) = none := by simpa using unloaded
        rw [after_bind]
        apply (loads file List.mem_cons_self kind s inv fresh).mono
        intro loaded s' kept
        rw [after_bind, after_look]
        split
        · exact (after_pure _).mpr kept
        · exact later kept

/-- The files that a search tries to load. -/
def Listed (v : Volume) (file : Bytes) : Prop := ∃ files, v.lib = some files ∧ file ∈ files ∧ isLibrary file = true

theorem after_qdlLoadNeeded (Inv : State → Prop) {name : Bytes} (loads : ∀ file, Listed env.volume file → ∀ s, Inv s →
      findPath s.table (libPath file) = none → After must (load (.need, libPath file)) s fun _ s' => Inv s')
    (inv : Inv s) : After must (qdlLoadNeeded env load name) s fun _ s' => Inv s' := by
  unfold qdlLoadNeeded
  cases listed : env.volume.lib with
  | none => exact (after_pure _).mpr inv
  | some files =>
    apply after_tryLibraries Inv _ inv
    intro file member library
    exact loads file ⟨files, listed, member, library⟩

/-- A file for which qdl_load asks the allocator. -/
def takesMemory (v : Volume) (file : Bytes) : Bool := isLibrary file && (sized v qdlLimit (libPath file)).isSome

theorem refused_load (fresh : findPath s.table path = none)
    (refused : (sized env.volume qdlLimit path).isSome → ∀ size, env.kmalloc s.requests size = none) :
    After must (loadBody env unload load (asked, path)) s fun loaded s' => loaded = false ∧
      s' = { s with requests := s.requests + (sized env.volume qdlLimit path).isSome.toNat } := by
  unfold loadBody
  rw [after_bind, after_look, fresh]
  dsimp only
  rw [after_bind]
  cases fits : sized env.volume qdlLimit path with
  | none =>
    rw [readImage_unsized fits, after_pure, after_pure]
    exact ⟨rfl, rfl⟩
  | some size =>
    apply (readImage_sized fits).mono
    rintro r s' ⟨rfl, rfl⟩
    rw [refused (by rw [fits]; rfl) size]
    exact (after_pure _).mpr ⟨rfl, rfl⟩

theorem after_passed {before rest : List Bytes} {name : Bytes} (fresh : ∀ file ∈ before, findPath s.table (libPath file) = none)
    (refused : ∀ file ∈ before, ∀ n, ((sized env.volume qdlLimit (libPath file)).isSome → s.requests ≤ n ∧
        n < s.requests + before.countP (takesMemory env.volume)) →
      After must (load (.need, libPath file)) { s with requests := n } fun loaded s' => loaded = false ∧
        s' = { s with requests := n + (sized env.volume qdlLimit (libPath file)).isSome.toNat })
    (last : After must (tryLibraries load name rest) { s with requests := s.requests + before.countP (takesMemory env.volume) } Q) :
    After must (tryLibraries load name (before ++ rest)) s Q := by
  induction before generalizing s with
  | nil => exact last
  | cons file before ih =>
    rw [List.countP_cons] at refused last
    rw [List.cons_append]
    unfold tryLibraries
    split
    · rename_i other
      have free : takesMemory env.volume file = false := by
        rw [takesMemory, Bool.and_eq_false_iff]
        exact .inl (by simpa using other)
      rw [free] at refused last
      exact ih (fun f member => fresh f (List.mem_cons_of_mem _ member))
        (fun f member => refused f (List.mem_cons_of_mem _ member)) last
    · rename_i library
      have kind : isLibrary file = true := by simpa using library
      have cost : takesMemory env.volume file = (sized env.volume qdlLimit (libPath file)).isSome := by
        rw [takesMemory, kind, Bool.true_and]
      rw [cost] at refused last
      rw [after_bind, after_look, fresh file List.mem_cons_self]
      simp only [Option.isSome_none, Bool.false_eq_true, if_false]
      rw [after_bind]
      apply (refused file List.mem_cons_self s.requests fun takes => by rw [if_pos takes]; omega).mono
      rintro loaded s' ⟨rfl, rfl⟩
      rw [after_bind, after_look]
      simp only [Bool.false_and, Bool.false_eq_true, if_false]
      apply ih
      · exact fun f member => fresh f (List.mem_cons_of_mem _ member)
      · intro f member n window
        apply refused f (List.mem_cons_of_mem _ member) n
        intro takes
        obtain ⟨from_, below⟩ := window takes
        simp only [Bool.toNat, Bool.cond_eq_ite] at from_ below
        omega
      · simp only [Bool.toNat, Bool.cond_eq_ite, Nat.add_assoc]
        rwa [Nat.add_comm (List.countP _ before)] at last

end Loading

section Images

/-- An image with one section of 64 bytes at 0x1000, and its import and symbol tables. -/
def imageBytes (format : UInt8) (flags : Nat) (name : String) (imports symbols : List (String × Nat)) (checksum : Nat) : Bytes :=
  let tables := headerSize + sectionSize
  let total := tables + importSize * imports.length + symbolSize * symbols.length
  [0x51, 0x58, format, 1] ++ number qtxMachine 2 ++ number flags 2 ++ number headerSize 4 ++ number total 4 ++
    number 0 8 ++ number 0 8 ++ number 1 4 ++ number headerSize 4 ++ number imports.length 4 ++ number tables 4 ++
    number symbols.length 4 ++ number (tables + importSize * imports.length) 4 ++ number checksum 4 ++ number 0 4 ++
    ascii name ++ List.replicate (qtxNameMax - name.length) 0 ++ sectionBytes ⟨2, 0x01, 0x1000, 0, 0, 64⟩ ++
    imports.flatMap (fun m => importBytes m.1 m.2) ++ symbols.flatMap (fun m => importBytes m.1 m.2)

def libraryBytes (name : String) (imports symbols : List (String × Nat)) : Bytes :=
  imageBytes 0x44 flagLibrary name imports symbols (computeChecksum (imageBytes 0x44 flagLibrary name imports symbols 0))

def programBytes (name : String) (imports : List (String × Nat)) : Bytes :=
  imageBytes 0x58 0 name imports [] (computeChecksum (imageBytes 0x58 0 name imports [] 0))

/-- A volume with these names in /lib and these files. -/
def volumeOf (lib : List String) (files : List (String × Bytes)) : Volume where
  lib := some (lib.map ascii)
  stat path := ((files.find? fun f => ascii f.1 == path).map (·.2.length))
  readFile path size := ((files.find? fun f => ascii f.1 == path).map (·.2.take size))

/-- Every request is served, at addresses that grow. -/
def servingEnv (v : Volume) : Env := ⟨v, fun n _ => some (0x10000 * (n + 1)), fun _ => 0x8000⟩

end Images
end Qito.Qdl
