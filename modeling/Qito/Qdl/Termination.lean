import Qito.Qdl.Loading

/-! Whether a load returns. A library is recorded once its imports are linked, so
a search in /lib that comes to a library that is still being loaded loads it
again. Loads return, whatever is loaded and whatever the allocator answers, just
when no search is nested in another. -/
namespace Qito.Qdl
open Nesting Qtx Words

section Quiet
variable {must : Prop} {t t' t'' : Table} {s s' : State} {env : Env} {load : Asked × Bytes → Call State Bool}
  {asked : Asked} {path : Bytes} {depth : Nat} {deps : List Slot}

/-- Libraries stay, and are counted no less. -/
structure Grows (t t' : Table) : Prop where
  counted : Counted t'
  kept : ∀ k e, t k = some e → ∃ e', t' k = some e' ∧ e.refcount ≤ e'.refcount

theorem Grows.refl (counted : Counted t) : Grows t t := ⟨counted, fun _ e held => ⟨e, held, Nat.le_refl _⟩⟩

theorem Grows.trans (first : Grows t t') (second : Grows t' t'') : Grows t t'' := by
  refine ⟨second.counted, fun k e held => ?_⟩
  obtain ⟨e', there, le⟩ := first.kept k e held
  obtain ⟨e'', last, le'⟩ := second.kept k e' there
  exact ⟨e'', last, le.trans le'⟩

theorem Grows.update {k : Slot} {e : Entry} (counted : Counted t) (some_ : 0 < e.refcount)
    (more : ∀ e', t k = some e' → e'.refcount ≤ e.refcount) : Grows t (Function.update t k (some e)) := by
  constructor
  · intro j e' held
    rcases eq_or_ne j k with rfl | other
    · rw [Function.update_self] at held
      cases Option.some.inj held
      exact some_
    · rw [Function.update_of_ne other] at held
      exact counted j e' held
  · intro j e' held
    rcases eq_or_ne j k with rfl | other
    · exact ⟨e, Function.update_self .., more e' held⟩
    · exact ⟨e', (Function.update_of_ne other ..).trans held, Nat.le_refl _⟩

theorem qdlRetain_grows (counted : Counted s.table) (k : Slot) :
    After must (qdlRetain k) s fun _ s' => Grows s.table s'.table := by
  rw [qdlRetain, after_update]
  cases held : s.table k with
  | none => exact Grows.refl counted
  | some e =>
    apply Grows.update counted (Nat.succ_pos _)
    intro e' here
    cases Option.some.inj (held.symm.trans here)
    exact Nat.le_succ _

theorem Plain.grows (plain : Plain s deps s') (counted : Counted s.table) : Grows s.table s'.table := by
  constructor
  · exact (plain.moves fun _ => False).counted counted
  · intro k e held
    exact ⟨_, by rw [plain.table, bump_at held], Nat.le_add_right _ _⟩

theorem quiet_load (counted : Counted s.table)
    (quiet : ∀ data, fileAt env.volume qdlLimit path = some data → Library data → Quiet s.table data) :
    After must (loadBody env (qtxUnload (depth + 1)) load (asked, path)) s fun _ s' => Grows s.table s'.table := by
  apply after_loadBody
  · intro k _
    exact qdlRetain_grows counted k
  · exact fun _ => Grows.refl counted
  · intro data slot n file library free
    apply after_loadLibrary
    apply (qtxLoadMemory_quiet (s := { s with requests := n }) (quiet data file library)).mono
    rintro (_ | image) s' ⟨n', deps, plain, made⟩
    · exact plain.grows counted
    · obtain ⟨rfl, -⟩ := made image rfl
      have grown : Grows s.table s'.table := plain.grows counted
      intro m
      constructor
      · apply grown.trans
        apply Grows.update grown.counted Nat.one_pos
        intro e' here
        have empty : s.table slot = none := Option.isNone_iff_eq_none.mp (firstSlot_some free)
        have none_ : bump image.deps s.table slot = none := by rw [bump, recount, empty]; rfl
        have table : s'.table = bump image.deps s.table := plain.table
        rw [← table, here] at none_
        cases none_
      · apply ((plain.ask m).unload counted).mono
        rintro _ s'' ⟨table, -⟩
        have same : s''.table = s.table := table
        change Grows s.table s''.table
        rw [same]
        exact Grows.refl counted

end Quiet

section Endings
variable {must : Prop} {s s' : State} {env : Env} {needed : Bytes → Call State Bool} {data name : Bytes} {linked : Linked}
  {load : Asked × Bytes → Call State Bool} {depth : Nat}

/-- Libraries retained for an image that is being linked. -/
structure Pinned (t : Table) (deps : List Slot) : Prop where
  nodup : deps.Nodup
  spare : ∀ k ∈ deps, ∃ e, t k = some e ∧ 1 < e.refcount

theorem Pinned.nil (t : Table) : Pinned t [] := ⟨List.nodup_nil, fun _ member => absurd member List.not_mem_nil⟩

theorem Pinned.grow {t t' : Table} {deps : List Slot} (pinned : Pinned t deps) (grows : Grows t t') : Pinned t' deps := by
  refine ⟨pinned.nodup, fun k member => ?_⟩
  obtain ⟨e, held, spare⟩ := pinned.spare k member
  obtain ⟨e', there, le⟩ := grows.kept k e held
  exact ⟨e', there, spare.trans_le le⟩

theorem retainProvider_pins (counted : Counted s.table) (pinned : Pinned s.table linked.deps) {provider : Option Slot}
    (loaded : ∀ k, provider = some k → ∃ e, s.table k = some e) :
    After must (retainProvider linked provider) s fun l s' => Grows s.table s'.table ∧ Pinned s'.table l.deps := by
  unfold retainProvider
  split
  · exact (after_pure _).mpr ⟨Grows.refl counted, pinned⟩
  · rename_i k
    split
    · rename_i fresh
      obtain ⟨e, held⟩ := loaded k rfl
      have some_ := counted k e held
      rw [after_bind, qdlRetain, after_update, after_pure, held]
      have grows : Grows s.table (Function.update s.table k (some { e with refcount := e.refcount + 1 })) := by
        apply Grows.update counted (Nat.succ_pos _)
        intro e' here
        cases Option.some.inj (held.symm.trans here)
        exact Nat.le_succ _
      refine ⟨grows, ?_, ?_⟩
      · exact List.nodup_append.mpr ⟨pinned.nodup, List.nodup_singleton k, by
          rintro j old _ new rfl
          exact fresh.1 (List.mem_singleton.mp new ▸ old)⟩
      · intro j member
        rcases List.mem_append.mp member with old | new
        · exact (pinned.grow grows).spare j old
        · cases List.mem_singleton.mp new
          exact ⟨_, Function.update_self .., Nat.succ_lt_succ some_⟩
    · exact (after_pure _).mpr ⟨Grows.refl counted, pinned⟩

/-- A search returns, with no library lost. -/
def SearchEnds (must : Prop) (needed : Bytes → Call State Bool) : Prop :=
  ∀ name s, Counted s.table → After must (needed name) s fun _ s' => Grows s.table s'.table

theorem qtxLoadMemory_ends (searches : SearchEnds must needed) (counted : Counted s.table) :
    After must (qtxLoadMemory env needed data) s fun r s' =>
      Counted s'.table ∧ ∀ image, r = some image → Pinned s'.table image.deps := by
  apply (after_qtxLoadMemory (fun linked s => Counted s.table ∧ Pinned s.table linked.deps) ?_ ?_ ?_).mono
  · rintro r s' ⟨linked, ⟨counted', pinned⟩, made⟩
    refine ⟨counted', fun image same => ?_⟩
    obtain ⟨base, rfl⟩ := made image same
    exact pinned
  · exact fun _ => ⟨counted, Pinned.nil _⟩
  · rintro linked i s - ⟨counted, pinned⟩ -
    apply (searches _ s counted).mono
    exact fun _ s' grows => ⟨grows.counted, pinned.grow grows⟩
  · rintro linked i target s ⟨counted, pinned⟩ -
    apply After.mono (retainProvider_pins counted ?_ ?_)
    · exact fun l s' kept => ⟨kept.1.counted, kept.2⟩
    · exact pinned
    · intro k found
      obtain ⟨e, held, -⟩ := findExporter_loaded found
      exact ⟨e, held⟩

end Endings

section Returning
variable {env : Env} {v : Volume} {path data : Bytes} {s : State} {depth : Nat}

/-- Linking comes to an import that the kernel does not export. -/
def Asks (data : Bytes) : Prop :=
  Addressable data ∧ ∃ i < (header data).importCount, served (importName data i) = false ∧
    ∀ j < i, inside data j = true ∧ served (importName data j) = true

instance (data : Bytes) : Decidable (Asks data) := inferInstanceAs (Decidable (_ ∧ _))

/-- The image at the path asks for more than the kernel exports. -/
def ImageAsks (v : Volume) (path : Bytes) : Prop := ∃ data, fileAt v qtxLimit path = some data ∧ Asks data

/-- A library in /lib asks for more than the kernel exports. -/
def LibraryAsks (v : Volume) : Prop :=
  ∃ file, Listed v file ∧ ∃ data, fileAt v qdlLimit (libPath file) = some data ∧ Library data ∧ Asks data

theorem quiet_of_not_asks (silent : ¬ Asks data) (t : Table) : Quiet t data := by
  intro fits i small placed
  have all : ∀ j ≤ i, served (importName data j) = true := by
    intro j
    induction j using Nat.strong_induction_on with
    | _ j ih =>
      intro le
      by_contra unserved
      refine silent ⟨fits, j, le.trans_lt small, by simpa using unserved, fun l earlier => ?_⟩
      exact ⟨placed l (earlier.trans_le le), ih l earlier (earlier.le.trans le)⟩
  exact .inl (all i (Nat.le_refl i))

theorem searches_end (silent : ¬ LibraryAsks env.volume) (must : Prop) (load : Asked × Bytes → Call State Bool) :
    SearchEnds must (qdlLoadNeeded env (loadBody env (qtxUnload (depth + 1)) load)) := by
  intro name s counted
  apply after_qdlLoadNeeded (fun s' => Grows s.table s'.table) _ (Grows.refl counted)
  intro file listed s' grows _
  apply After.mono (quiet_load grows.counted ?_) fun _ _ more => grows.trans more
  intro data found kind
  apply quiet_of_not_asks
  intro asks
  exact silent ⟨file, listed, data, found, kind, asks⟩

theorem qtxLoad_ends {must : Prop} (linking : ∀ data n, fileAt env.volume qtxLimit path = some data →
      After must (qtxLoadMemory env (qdlLoadNeeded env (qdlLoad env depth)) data) { s with requests := n } fun _ _ => True) :
    After must (qtxLoad env depth path) s fun _ _ => True := by
  unfold qtxLoad
  rw [after_bind]
  apply readImage_reads.mono
  rintro (_ | data) s' ⟨⟨n, rfl⟩, read⟩
  · exact (after_pure _).mpr trivial
  · exact linking data n (read data rfl)

theorem quiet_returns (silent : ¬ ImageAsks env.volume path) (counted : Counted s.table) :
    Returns (qtxLoad env 0 path) s ∧ Returns (qdlLoad env 1 (.caller, path)) s := by
  have quiet (data : Bytes) (found : fileAt env.volume qtxLimit path = some data) (t : Table) : Quiet t data :=
    quiet_of_not_asks (fun asks => silent ⟨data, found, asks⟩) t
  rw [returns_iff, returns_iff]
  constructor
  · apply qtxLoad_ends
    intro data n found
    exact (qtxLoadMemory_quiet (quiet data found _)).mono fun _ _ _ => trivial
  · apply After.mono (quiet_load counted ?_) fun _ _ _ => trivial
    intro data found _
    exact quiet data (fileAt_mono (by decide) found) _

theorem search_returns (silent : ¬ LibraryAsks env.volume) (counted : Counted s.table) :
    Returns (qtxLoad env 1 path) s ∧ Returns (qdlLoad env 2 (.caller, path)) s := by
  rw [returns_iff, returns_iff]
  constructor
  · apply qtxLoad_ends
    intro data n _
    apply After.mono (qtxLoadMemory_ends (searches_end silent _ _) ?_) fun _ _ _ => trivial
    exact counted
  · apply after_loadBody
    · intro k _
      exact (qdlRetain_grows counted k).mono fun _ _ _ => trivial
    · exact fun _ => trivial
    · intro data slot n _ _ _
      apply after_loadLibrary
      apply After.mono (qtxLoadMemory_ends (searches_end silent _ _) ?_)
      · rintro (_ | image) s' ⟨-, pins⟩
        · trivial
        · intro m
          have pinned := pins image rfl
          refine ⟨trivial, ?_⟩
          have spare : ∀ k ∈ image.deps, ∃ e, s'.table k = some e ∧ image.deps.count k < e.refcount := by
            intro k member
            rw [List.count_eq_one_of_mem pinned.nodup member]
            exact pinned.spare k member
          exact (release_all (s := { s' with requests := m }) spare).mono fun _ _ _ => trivial
      · exact counted

end Returning

section Divergence
variable {env : Env} {needed : Bytes → Call State Bool} {unload : Image → Call State Unit}
  {load : Asked × Bytes → Call State Bool} {s : State} {path name data : Bytes} {linked : Linked} {depth : Nat}

/-- Nothing is loaded. -/
def Empty (s : State) : Prop := ∀ k, s.table k = none

theorem Empty.first (empty : Empty s) {p : Option Entry → Bool} (blind : p none = false) : firstSlot s.table p = none :=
  firstSlot_none.mpr fun k => by rw [empty k, blind]

theorem Empty.slot (empty : Empty s) : ∃ slot, findFreeSlot s.table = some slot := by
  cases free : findFreeSlot s.table with
  | some slot => exact ⟨slot, rfl⟩
  | none =>
    have full := firstSlot_none.mp free 0
    rw [empty 0] at full
    exact absurd full (by decide)

theorem Empty.resolve (empty : Empty s) (name : Bytes) : qdlResolveSymbol s.table name = none := by
  rw [resolveSymbol_eq, qdlFindExporter, empty.first rfl]
  rfl

theorem refused_nest {n : Nat} (empty : Empty s) (refused : (sized env.volume qdlLimit path).isSome → ∀ size, env.kmalloc n size = none) :
    After False (nest (loadBody env unload) depth (.need, path)) { s with requests := n } fun loaded s' => loaded = false ∧
      s' = { s with requests := n + (sized env.volume qdlLimit path).isSome.toNat } := by
  cases depth with
  | zero => exact after_none.mpr not_false
  | succ depth => exact refused_load (empty.first rfl) refused

theorem linkImports_diverges {before after : List Nat} {i : Nat} (empty : Empty s) (unlinked : linked.deps = [])
    (passed : ∀ j ∈ before, inside data j = true ∧ served (importName data j) = true)
    (unserved : served (importName data i) = false)
    (lost : ∀ s', Empty s' → s'.requests = s.requests → Diverges (needed (importName data i)) s') :
    Diverges (linkImports env needed data linked (before ++ i :: after)) s := by
  induction before generalizing linked s with
  | nil =>
    have none_ : qtxResolveExport (services env) (importName data i) = none := by
      rw [← Option.isNone_iff_eq_none, ← Option.isSome_eq_false_iff, resolveExport_isSome, unserved]
    have search : Diverges (resolveImport env needed (importName data i)) s := by
      unfold resolveImport
      rw [none_]
      dsimp only
      rw [diverges_bind, after_look, empty.resolve]
      exact (lost s empty rfl).bind
    have first : Diverges (linkImport env needed data linked i) s := by
      unfold linkImport
      exact search.bind
    rw [List.nil_append, linkImports]
    exact first.bind
  | cons j before ih =>
    obtain ⟨fits, known⟩ := passed j List.mem_cons_self
    have start : Plain s linked.deps s := unlinked ▸ Plain.start s
    rw [List.cons_append, linkImports, diverges_bind]
    apply (linkImport_plain start (.inl known)).mono
    rintro (_ | l) s' outcome
    · exact absurd (fits.symm.trans outcome.1) (by simp)
    · have plain := outcome.2
      have none_ : l.deps = [] := by
        rw [List.eq_nil_iff_forall_not_mem]
        intro k member
        obtain ⟨e, held⟩ := plain.held k member
        exact absurd ((empty k).symm.trans held) (by simp)
      apply ih (s := s') _ none_ fun j member => passed j (List.mem_cons_of_mem _ member)
      · intro s'' empty' requests
        exact lost s'' empty' (requests.trans plain.requests)
      · intro k
        rw [plain.table, none_, bump_nil]
        exact empty k

/-- A library in /lib that asks for more than the kernel exports, and an allocator
that serves it and refuses those listed before it. -/
structure Trap (env : Env) where
  before : List Bytes
  file : Bytes
  after : List Bytes
  data : Bytes
  listed : env.volume.lib = some (before ++ file :: after)
  library : isLibrary file = true
  found : fileAt env.volume qdlLimit (libPath file) = some data
  kind : Library data
  asks : Asks data
  early : ∀ n size, n % (before.countP (takesMemory env.volume) + 2) < 2 → ∃ base, env.kmalloc n size = some base
  late : ∀ n size, 2 ≤ n % (before.countP (takesMemory env.volume) + 2) → env.kmalloc n size = none

namespace Trap
variable (trap : Trap env)

/-- How often the allocator is asked until the library is loaded again. -/
def period : Nat := trap.before.countP (takesMemory env.volume) + 2

theorem serves {c r : Nat} (first : r < 2) (size : Nat) : ∃ base, env.kmalloc (c * trap.period + r) size = some base := by
  have small : r < trap.period := Nat.lt_of_lt_of_le first (Nat.le_add_left 2 _)
  apply trap.early
  change (c * trap.period + r) % trap.period < 2
  rw [Nat.mul_add_mod', Nat.mod_eq_of_lt small]
  exact first

theorem refuses {c r : Nat} (later : 2 ≤ r) (small : r < trap.period) (size : Nat) :
    env.kmalloc (c * trap.period + r) size = none := by
  apply trap.late
  change 2 ≤ (c * trap.period + r) % trap.period
  rw [Nat.mul_add_mod', Nat.mod_eq_of_lt small]
  exact later

theorem search_diverges {c : Nat} (empty : Empty s) (requests : s.requests = c * trap.period + 2)
    (again : ∀ s', Empty s' → s'.requests = (c + 1) * trap.period →
      Diverges (nest (loadBody env unload) depth (.need, libPath trap.file)) s') :
    Diverges (qdlLoadNeeded env (nest (loadBody env unload) depth) name) s := by
  have whole : trap.period = trap.before.countP (takesMemory env.volume) + 2 := rfl
  unfold qdlLoadNeeded
  rw [trap.listed]
  rw [diverges_iff]
  apply after_passed
  · exact fun file _ => empty.first rfl
  · intro file _ n window
    apply refused_nest empty
    intro takes size
    obtain ⟨from_, below⟩ := window takes
    obtain ⟨r, rfl⟩ := Nat.exists_eq_add_of_le (show c * trap.period ≤ n by omega)
    exact trap.refuses (by omega) (by omega) size
  · unfold tryLibraries
    rw [trap.library]
    simp only [Bool.not_true, Bool.false_eq_true, if_false]
    rw [after_bind, after_look, findPath, Empty.first (s := { s with requests := _ }) empty rfl]
    simp only [Option.isSome_none, Bool.false_eq_true, if_false]
    apply diverges_iff.mp
    apply Diverges.bind
    refine again _ ?_ ?_
    · exact empty
    · change s.requests + _ = _
      rw [requests, Nat.succ_mul]
      omega

theorem linking_diverges {c : Nat} (asks : Asks data) (empty : Empty s) (requests : s.requests = c * trap.period + 1)
    (again : ∀ s', Empty s' → s'.requests = (c + 1) * trap.period →
      Diverges (nest (loadBody env unload) depth (.need, libPath trap.file)) s') :
    Diverges (qtxLoadMemory env (qdlLoadNeeded env (nest (loadBody env unload) depth)) data) s := by
  obtain ⟨fits, i, small, unserved, passed⟩ := asks
  obtain ⟨base, answer⟩ := trap.serves (c := c) (r := 1) (by decide) ((bounds (sections data)).2 - (bounds (sections data)).1)
  rw [qtxLoadMemory_eq fits, diverges_bind, after_request, requests, answer, range_cut small]
  apply (linkImports_diverges ?_ rfl ?_ unserved ?_).bind
  · exact empty
  · exact fun j member => passed j (List.mem_range.mp member)
  · intro s' empty' more
    exact trap.search_diverges empty' more again

theorem load_diverges (depth : Nat) : ∀ (asked : Asked) (s : State), Empty s → (∃ c, s.requests = c * trap.period) →
    Diverges (nest (loadBody env unload) depth (asked, libPath trap.file)) s := by
  induction depth with
  | zero => exact fun _ _ _ _ => rfl
  | succ depth ih =>
    rintro asked s empty ⟨c, requests⟩
    obtain ⟨slot, free⟩ := empty.slot
    obtain ⟨size, fits, -⟩ := Option.bind_eq_some_iff.mp trap.found
    unfold nest loadBody
    rw [diverges_bind, after_look, findPath, empty.first rfl]
    dsimp only
    rw [diverges_bind]
    apply (readImage_sized fits).mono
    rintro r s' ⟨rfl, rfl⟩
    obtain ⟨base, answer⟩ := trap.serves (c := c) (r := 0) (by decide) size
    rw [requests, show env.kmalloc (c * trap.period) size = some base from answer, Option.bind_some, trap.found]
    simp only [trap.kind.1, trap.kind.2, not_true_eq_false, if_false, ne_eq]
    rw [diverges_bind, after_look, free]
    unfold loadLibrary
    apply (trap.linking_diverges trap.asks ?_ ?_ fun s' empty' last => ih .need s' empty' ⟨c + 1, last⟩).bind
    · exact empty
    · rfl

theorem image_diverges (trap : Trap env) (found : fileAt env.volume qtxLimit path = some data) (asks : Asks data) (depth : Nat) :
    Diverges (qtxLoad env depth path) qdlInit := by
  obtain ⟨size, fits, -⟩ := Option.bind_eq_some_iff.mp found
  have empty : Empty qdlInit := fun _ => rfl
  have start : qdlInit.requests = 0 * trap.period + 0 := (Nat.zero_mul _).symm
  unfold qtxLoad
  rw [diverges_bind]
  apply (readImage_sized fits).mono
  rintro r s' ⟨rfl, rfl⟩
  obtain ⟨base, answer⟩ := trap.serves (c := 0) (r := 0) (by decide) size
  rw [start, answer, Option.bind_some, found]
  exact trap.linking_diverges (c := 0) asks empty rfl fun s' empty' last => trap.load_diverges depth .need s' empty' ⟨_, last⟩

end Trap

end Divergence

/-- Both loads of a path return, whatever is loaded and whatever the allocator
answers, just when the image or else every library in /lib asks for nothing but
what the kernel exports. -/
theorem loads_return_iff (v : Volume) (path : Bytes) :
    (∀ (env : Env) (s : State), env.volume = v → Counted s.table →
      (∃ depth, Returns (qtxLoad env depth path) s) ∧ ∃ depth, Returns (qdlLoad env depth (.caller, path)) s) ↔
    ¬ (ImageAsks v path ∧ LibraryAsks v) := by
  constructor
  · rintro all ⟨⟨data, found, asks⟩, file, ⟨files, listed, member, library⟩, data', found', kind, asks'⟩
    obtain ⟨before, after, rfl⟩ := List.append_of_mem member
    let env : Env := ⟨v, fun n _ => if n % (before.countP (takesMemory v) + 2) < 2 then some 1 else none, fun _ => 1⟩
    have trap : Trap env := ⟨before, file, after, data', listed, library, found', kind, asks',
      fun _ _ soon => ⟨1, if_pos soon⟩, fun _ _ late => if_neg (Nat.not_lt_of_le late)⟩
    obtain ⟨⟨depth, returns⟩, -⟩ := all env qdlInit rfl nofun
    exact (trap.image_diverges found asks depth).not_returns returns
  · rintro silent env s rfl counted
    rcases Classical.em (ImageAsks env.volume path) with asks | quiet
    · obtain ⟨first, second⟩ := search_returns (fun libraries => silent ⟨asks, libraries⟩) counted
      exact ⟨⟨1, first⟩, 2, second⟩
    · obtain ⟨first, second⟩ := quiet_returns quiet counted
      exact ⟨⟨0, first⟩, 1, second⟩

/-- A library that needs a symbol nobody has. -/
def lonelyLibrary : Bytes := libraryBytes "a" [("nobody", 0x1000)] []

def lonelyEnv : Env := servingEnv (volumeOf ["a.qdl"] [("/lib/a.qdl", lonelyLibrary)])

theorem lonelyLibrary_asks : Library lonelyLibrary ∧ Asks lonelyLibrary := by
  unfold Library
  decide +kernel

theorem lonelyLibrary_found : fileAt lonelyEnv.volume qdlLimit (ascii "/lib/a.qdl") = some lonelyLibrary := by
  decide +kernel

theorem lonelyPath : libPath (ascii "a.qdl") = ascii "/lib/a.qdl" := by decide

def lonelyTrap : Trap lonelyEnv where
  before := []
  file := ascii "a.qdl"
  after := []
  data := lonelyLibrary
  listed := rfl
  library := by decide
  found := by rw [lonelyPath]; exact lonelyLibrary_found
  kind := lonelyLibrary_asks.1
  asks := lonelyLibrary_asks.2
  early n _ _ := ⟨0x10000 * (n + 1), rfl⟩
  late n _ late := absurd (Nat.mod_lt n (by decide)) (Nat.not_lt_of_le late)

/-- Each attempt to find the symbol loads the only library in /lib, which is the
one that needs it, from the start. -/
theorem lonely_never_loaded : (¬ ∃ depth, Returns (qtxLoad lonelyEnv depth (ascii "/lib/a.qdl")) qdlInit) ∧
    ¬ ∃ depth, Returns (qdlLoad lonelyEnv depth (.caller, ascii "/lib/a.qdl")) qdlInit := by
  have found : fileAt lonelyEnv.volume qtxLimit (ascii "/lib/a.qdl") = some lonelyLibrary :=
    fileAt_mono (by decide) lonelyLibrary_found
  rw [← lonelyPath] at found ⊢
  constructor
  · apply not_exists.mpr
    intro depth
    apply Diverges.not_returns
    exact lonelyTrap.image_diverges found lonelyLibrary_asks.2 depth
  · apply not_exists.mpr
    intro depth
    apply Diverges.not_returns
    exact lonelyTrap.load_diverges depth .caller qdlInit (fun _ => rfl) ⟨0, (Nat.zero_mul _).symm⟩

end Qito.Qdl
