import Qito.Qdl.Loading

/-! Whether qdl_load keeps every library. The slot of a library is chosen before
its imports are linked; a library loaded meanwhile takes the same slot and is
overwritten. This happens to every library that is loaded for another one. -/
namespace Qito.Qdl
open Nesting Qtx Words

section Keeping
variable {W : Bytes → Prop} {s s' : State} {events : List Event} {k : Slot} {e : Entry}

def Event.records (k : Slot) : Event → Bool
  | .recorded _ j _ => j == k
  | _ => false

@[grind =] def Event.removes (k : Slot) : Event → Bool
  | .removed j => j == k
  | _ => false

def Event.retains (k : Slot) : Event → Bool
  | .retained j => j == k
  | _ => false

def Event.releases (k : Slot) : Event → Bool
  | .released j => j == k
  | _ => false

/-- A library in slot k before a call or put there by it, with what the call did
after that. -/
inductive Present (s : State) (events : List Event) (k : Slot) (e : Entry) : List Event → Prop where
  | loaded (held : s.table k = some e) : Present s events k e events
  | recorded {before after : List Event} (asked : Asked) (whole : events = before ++ .recorded asked k e :: after) :
    Present s events k e after

/-- Every library present at some time of a call, and not removed later, is in its
slot at the end with its own image and symbols, no other was put there, and it is
counted as often as it was retained. -/
def Kept (s s' : State) : Prop :=
  ∃ events, s'.account = s.account ++ events ∧ ∀ k e after, Present s events k e after →
    (∀ event ∈ after, event.removes k = false) →
      (∀ event ∈ after, event.records k = false) ∧ ∃ n, s'.table k = some { e with refcount := n } ∧
        n + after.countP (·.releases k) = e.refcount + after.countP (·.retains k)

theorem Kept.refl (s : State) (n : Nat) : Kept s { s with requests := n } := by
  refine ⟨[], (List.append_nil _).symm, ?_⟩
  intro k e after present _
  cases present with
  | loaded held => exact ⟨by simp, e.refcount, held, by simp⟩
  | recorded asked whole => simp at whole

theorem Present.last {last : Event} {after : List Event} (present : Present s (events ++ [last]) k e after) :
    (∃ earlier, after = earlier ++ [last] ∧ Present s events k e earlier) ∨
      after = [] ∧ ∃ asked, last = .recorded asked k e := by
  cases present with
  | loaded held => exact .inl ⟨events, rfl, .loaded held⟩
  | @recorded before _ asked whole =>
    rcases List.eq_nil_or_concat after with rfl | ⟨earlier, final, rfl⟩
    · obtain ⟨-, same⟩ := List.append_inj' whole rfl
      exact .inr ⟨rfl, asked, List.singleton_inj.mp same⟩
    · have regroup : events ++ [last] = (before ++ .recorded asked k e :: earlier) ++ [final] := by
        simpa using whole
      obtain ⟨front, same⟩ := List.append_inj' regroup rfl
      cases List.singleton_inj.mp same
      exact .inl ⟨earlier, List.concat_eq_append, .recorded asked front⟩

theorem Kept.append {t u : State} {last : Event} (kept : Kept s t) (account : u.account = t.account ++ [last])
    (old : ∀ k e, t.table k = some e → last.removes k = false → last.records k = false ∧
      ∃ n, u.table k = some { e with refcount := n } ∧ n + (last.releases k).toNat = e.refcount + (last.retains k).toNat)
    (new : ∀ asked k e, last = .recorded asked k e → u.table k = some e) : Kept s u := by
  obtain ⟨events, whole, all⟩ := kept
  refine ⟨events ++ [last], by rw [account, whole, List.append_assoc], ?_⟩
  intro k e after present stays
  rcases present.last with ⟨earlier, rfl, sooner⟩ | ⟨rfl, asked, same⟩
  · obtain ⟨unrecorded, n, held, count⟩ := all k e earlier sooner fun event member =>
      stays event (List.mem_append_left _ member)
    obtain ⟨silent, n', held', count'⟩ := old k _ held (stays last (List.mem_append_right _ (List.mem_singleton_self _)))
    refine ⟨fun event member => ?_, n', held', ?_⟩
    · rcases List.mem_append.mp member with before | here
      · exact unrecorded event before
      · exact List.mem_singleton.mp here ▸ silent
    · change n' + (last.releases k).toNat = n + (last.retains k).toNat at count'
      rw [List.countP_append, List.countP_append, List.countP_singleton, List.countP_singleton]
      simp only [Bool.toNat, Bool.cond_eq_ite] at count'
      omega
  · refine ⟨by simp, e.refcount, new asked k e same, by simp⟩

theorem Move.kept {t u : State} (kept : Kept s t) (move : Move W t u) : Kept s u := by
  cases move with
  | request n => exact kept
  | @retain j e held =>
    apply kept.append rfl
    · intro k e' here _
      refine ⟨rfl, ?_⟩
      rcases eq_or_ne k j with rfl | other
      · cases Option.some.inj (held.symm.trans here)
        exact ⟨e.refcount + 1, setSlot_self, by simp [Event.releases, Event.retains]⟩
      · exact ⟨e'.refcount, (setSlot_other other).trans here, by simp [Event.releases, Event.retains, other.symm]⟩
    · exact nofun
  | @release j e held spare =>
    apply kept.append rfl
    · intro k e' here _
      refine ⟨rfl, ?_⟩
      rcases eq_or_ne k j with rfl | other
      · cases Option.some.inj (held.symm.trans here)
        refine ⟨e.refcount - 1, setSlot_self, ?_⟩
        simp only [Event.releases, Event.retains, beq_self_eq_true, Bool.toNat_true, Bool.toNat_false]
        omega
      · exact ⟨e'.refcount, (setSlot_other other).trans here, by simp [Event.releases, Event.retains, other.symm]⟩
    · exact nofun
  | @record j e asked free fresh known =>
    apply kept.append rfl
    · intro k e' here _
      have other : k ≠ j := by
        rintro rfl
        exact absurd (free.symm.trans here) nofun
      refine ⟨by simpa [Event.records] using other.symm, e'.refcount, (setSlot_other other).trans here, ?_⟩
      simp [Event.releases, Event.retains]
    · intro asked' k e' same
      cases same
      exact setSlot_self

theorem Moves.kept (moves : Moves W s s') : Kept s s' := by
  induction moves with
  | refl => exact Kept.refl s s.requests
  | tail _ last ih => exact last.kept ih

theorem Moves.unremoved (moves : Moves W s s') (account : s'.account = s.account ++ events) :
    ∀ event ∈ events, ∀ k, event.removes k = false := by
  induction moves generalizing events with
  | refl =>
    obtain rfl : events = [] := List.self_eq_append_right.mp account
    simp
  | @tail t u before last ih =>
    obtain ⟨earlier, front, -⟩ := Moves.kept before
    have none_ := ih front
    have one (event : Event) (grown : u.account = t.account ++ [event]) (silent : ∀ k, event.removes k = false) :
        ∀ event ∈ events, ∀ k, event.removes k = false := by
      obtain rfl : events = earlier ++ [event] := by
        apply @List.append_cancel_left _ s.account
        rw [← account, grown, front, List.append_assoc]
      intro ev member
      rcases List.mem_append.mp member with old | new
      · exact none_ ev old
      · exact List.mem_singleton.mp new ▸ silent
    cases last with
    | request n => exact ih account
    | retain held => exact one _ rfl fun _ => rfl
    | release held spare => exact one _ rfl fun _ => rfl
    | record asked free fresh known => exact one _ rfl fun _ => rfl

end Keeping

section Volumes
variable {v : Volume} {data path name : Bytes}

/-- A file that qdl_load loads, if its imports are found and it has the memory. -/
structure Loadable (v : Volume) (path data : Bytes) : Prop where
  found : fileAt v qdlLimit path = some data
  kind : Library data
  fits : Addressable data
  placed : ∀ i < (header data).importCount, inside data i = true

/-- An image imports the name, and the kernel does not export it. -/
def Needs (data name : Bytes) : Prop := served name = false ∧ ∃ i < (header data).importCount, importName data i = name

def offers (data name : Bytes) : Bool := (symbols data).any (cstr ·.name == name)

/-- A library on the volume needs the name. -/
def Wanted (v : Volume) (name : Bytes) : Prop := ∃ path data, Loadable v path data ∧ Needs data name

/-- A library in /lib has the name, and does not need it itself. -/
def Offered (v : Volume) (name : Bytes) : Prop :=
  ∃ file, Listed v file ∧ ∃ data, Loadable v (libPath file) data ∧ offers data name = true ∧ ¬ Needs data name

end Volumes

section Loads
variable {env : Env} {load : Asked × Bytes → Call State Bool} {needed : Bytes → Call State Bool} {V : Bytes → Prop}
  {s₀ s : State} {data path : Bytes} {linked : Linked} {asked : Asked} {depth : Nat}

/-- Loads for a search lose nothing, and bring no name that a library on the
volume needs. -/
def Careful (v : Volume) (load : Asked × Bytes → Call State Bool) : Prop :=
  ∀ file, Listed v file → ∀ s, Counted s.table → After False (load (.need, libPath file)) s fun _ s' => Moves (Wanted v) s s'

theorem Careful.search (careful : Careful env.volume load) (counted : Counted s.table) (name : Bytes) :
    After False (qdlLoadNeeded env load name) s fun _ s' => Moves (Wanted env.volume) s s' := by
  apply after_qdlLoadNeeded (Moves (Wanted env.volume) s) _ .refl
  intro file listed s' moves _
  exact (careful file listed s' (moves.counted counted)).mono fun _ _ more => moves.trans more

theorem retainProvider_moves {must : Prop} {provider : Option Slot}
    (loaded : ∀ k, provider = some k → ∃ e, s.table k = some e) :
    After must (retainProvider linked provider) s fun _ s' => Moves V s s' := by
  unfold retainProvider
  split
  · exact (after_pure _).mpr .refl
  · rename_i k
    split
    · obtain ⟨e, held⟩ := loaded k rfl
      rw [after_bind, qdlRetain, after_update, after_pure, held]
      exact .single (.retain held)
    · exact (after_pure _).mpr .refl

theorem qtxLoadMemory_moves (careful : Careful env.volume load) (counted : Counted s.table) :
    After False (qtxLoadMemory env (qdlLoadNeeded env load) data) s fun _ s' => Moves (Wanted env.volume) s s' := by
  apply (after_qtxLoadMemory (fun _ s' => Moves (Wanted env.volume) s s') ?_ ?_ ?_).mono
  · rintro r s' ⟨-, moves, -⟩
    exact moves
  · exact fun n => .single (.request n)
  · intro _ i s' _ moves _
    exact (careful.search (moves.counted counted) _).mono fun _ _ more => moves.trans more
  · intro linked i target s' moves _
    apply After.mono (retainProvider_moves ?_) fun _ _ more => moves.trans more
    intro k found
    obtain ⟨e, held, -⟩ := findExporter_loaded found
    exact ⟨e, held⟩

theorem linkImport_fails {i : Nat} (missing : ¬ Resolved s.table (importName data i))
    (search : After False (needed (importName data i)) s fun _ s' => qdlResolveSymbol s'.table (importName data i) = none) :
    After False (linkImport env needed data linked i) s fun r _ => r = none := by
  unfold linkImport
  rw [after_bind]
  apply after_resolveImport
  · exact fun target found => absurd found missing
  · intro _
    apply search.mono
    intro found s' unresolved
    have none_ : (if found then qdlResolveSymbol s'.table (cstr (import_ data i).name) else none) = none := by
      split
      · exact unresolved
      · rfl
    rw [none_]
    exact (after_pure _).mpr rfl

/-- A load that succeeds, of a library whose imports no search brings, was made
without a search. -/
theorem linkImports_success {is : List Nat} (careful : Careful env.volume load) (counted : Counted s₀.table)
    (wanted : ∀ i ∈ is, served (importName data i) = true ∨ Wanted env.volume (importName data i))
    (plain : Plain s₀ linked.deps s) :
    After False (linkImports env (qdlLoadNeeded env load) data linked is) s fun r s' =>
      ∀ l, r = some l → Plain s₀ l.deps s' ∧ ∀ i ∈ is, Resolved s₀.table (importName data i) := by
  induction is generalizing linked s with
  | nil =>
    rw [linkImports, after_pure]
    intro l same
    cases Option.some.inj same
    exact ⟨plain, by simp⟩
  | cons i rest ih =>
    rw [linkImports, after_bind]
    rcases Classical.em (Resolved s₀.table (importName data i)) with found | missing
    · apply (linkImport_plain plain found).mono
      rintro (_ | l) s' outcome
      · exact (after_pure _).mpr (by simp)
      · apply (ih (fun j member => wanted j (List.mem_cons_of_mem _ member)) outcome.2).mono
        intro r s'' success l' same
        obtain ⟨kept, rest⟩ := success l' same
        exact ⟨kept, List.forall_mem_cons.mpr ⟨found, rest⟩⟩
    · have here : ¬ Resolved s.table (importName data i) := by rwa [plain.table, bump, resolved_recount]
      have name : Wanted env.volume (importName data i) :=
        (wanted i List.mem_cons_self).resolve_left fun known => missing (.inl known)
      have unresolved : qdlResolveSymbol s.table (importName data i) = none := by
        rw [← Option.isNone_iff_eq_none, ← Option.isSome_eq_false_iff, Bool.eq_false_iff]
        exact fun some_ => here (.inr some_)
      have counted' : Counted s.table := (plain.moves fun _ => False).counted counted
      apply (linkImport_fails here ((careful.search counted' _).mono fun _ _ moves => moves.unresolved name unresolved)).mono
      rintro r s' rfl
      exact (after_pure _).mpr (by simp)

theorem linkImports_placed (is : List Nat) : After False (linkImports env needed data linked is) s fun r _ =>
    ∀ l, r = some l → ∀ i ∈ is, inside data i = true := by
  induction is generalizing linked s with
  | nil => exact after_any (by simp)
  | cons i rest ih =>
    rw [linkImports, after_bind]
    have first : After False (linkImport env needed data linked i) s fun r _ => ∀ l, r = some l → inside data i = true := by
      unfold linkImport
      rw [after_bind]
      apply after_any
      rintro (_ | target) s'
      · exact (after_pure _).mpr (by simp)
      · apply after_linkTarget
        · exact fun _ => by simp
        · exact fun placed => after_any fun _ _ _ _ => placed
    apply first.mono
    rintro (_ | l) s' here
    · exact (after_pure _).mpr (by simp)
    · exact ih.mono fun _ _ later l' same => List.forall_mem_cons.mpr ⟨here l rfl, later l' same⟩

/-- What is known of a library that was linked. -/
structure LinkedFrom (s : State) (data : Bytes) (image : Image) (s' : State) : Prop where
  fits : Addressable data
  placed : ∀ i < (header data).importCount, inside data i = true
  resolved : ∀ i < (header data).importCount, Resolved s.table (importName data i)
  plain : ∃ n, Plain { s with requests := n } image.deps s'

theorem qtxLoadMemory_success (careful : Careful env.volume load) (counted : Counted s.table)
    (found : fileAt env.volume qdlLimit path = some data) (kind : Library data) :
    After False (qtxLoadMemory env (qdlLoadNeeded env load) data) s fun r s' =>
      ∀ image, r = some image → LinkedFrom s data image s' := by
  rcases Classical.em (Addressable data) with fits | rejected
  · rw [qtxLoadMemory_eq fits, after_bind, after_request]
    cases env.kmalloc s.requests _ with
    | none => exact (after_pure _).mpr nofun
    | some base =>
      rw [after_bind]
      rcases Classical.em (∀ i < (header data).importCount, inside data i = true) with placed | outside
      · have wanted : ∀ i ∈ List.range (header data).importCount, served (importName data i) = true ∨
            Wanted env.volume (importName data i) := by
          intro i member
          rcases Bool.eq_false_or_eq_true (served (importName data i)) with known | unserved
          · exact .inl known
          · exact .inr ⟨path, data, ⟨found, kind, fits, placed⟩, unserved, i, List.mem_range.mp member, rfl⟩
        apply After.mono (linkImports_success careful ?_ wanted (Plain.start _))
        · rintro (_ | linked) s' success
          · exact (after_pure _).mpr nofun
          · obtain ⟨plain, resolved⟩ := success linked rfl
            refine (after_pure _).mpr fun image same => ?_
            cases Option.some.inj same
            exact ⟨fits, placed, fun i small => resolved i (List.mem_range.mpr small), _, plain⟩
        · exact counted
      · apply (linkImports_placed _).mono
        rintro (_ | linked) s' all
        · exact (after_pure _).mpr nofun
        · exact absurd (fun i small => all linked rfl i (List.mem_range.mpr small)) outside
  · rw [qtxLoadMemory_rejected rejected, after_pure]
    exact nofun

/-- What a library records helps with no name in V that was missing. -/
def Helpless (v : Volume) (V : Bytes → Prop) (path : Bytes) : Prop :=
  ∀ data t, Loadable v path data → (∀ i < (header data).importCount, Resolved t (importName data i)) →
    ∀ name, V name → offers data name = true → (qdlResolveSymbol t name).isSome = true

theorem load_moves (careful : Careful env.volume load) (counted : Counted s.table) (less : ∀ name, V name → Wanted env.volume name)
    (helpless : Helpless env.volume V path) :
    After False (loadBody env (qtxUnload (depth + 1)) load (asked, path)) s fun _ s' => Moves V s s' := by
  apply after_loadBody
  · intro k found
    have some_ := firstSlot_some found
    obtain ⟨e, held, -⟩ := Option.any_eq_true _ _ |>.mp some_
    rw [qdlRetain, after_update, held]
    exact .single (.retain held)
  · exact fun n => .single (.request n)
  · intro data slot n found kind free
    have start : Moves V s { s with requests := n } := .single (.request n)
    have counted' : Counted ({ s with requests := n } : State).table := counted
    apply after_loadLibrary
    apply ((qtxLoadMemory_moves careful counted').and (qtxLoadMemory_success careful counted' found kind)).mono
    rintro (_ | image) s' ⟨moves, success⟩
    · exact start.trans (moves.mono less)
    · obtain ⟨fits, placed, resolved, n', plain⟩ := success image rfl
      intro m
      have asks : Moves V s { s' with requests := m } := (start.trans (moves.mono less)).tail (.request m)
      have table : s'.table = bump image.deps s.table := plain.table
      constructor
      · apply asks.tail
        apply Move.record asked _ rfl
        · intro name wanted offered
          change (qdlResolveSymbol s'.table name).isSome = true
          rw [table, bump, resolveSymbol_recount]
          exact helpless data s.table ⟨found, kind, fits, placed⟩ resolved name wanted offered
        · change s'.table slot = none
          have empty : s.table slot = none := Option.isNone_iff_eq_none.mp (firstSlot_some free)
          rw [table, bump, recount, empty]
          rfl
      · apply ((plain.ask m).unload counted).mono
        rintro _ s'' ⟨-, -, released⟩
        exact asks.trans (released V)

theorem helpless_listed {file : Bytes} (apart : ∀ name, Wanted env.volume name → ¬ Offered env.volume name)
    (listed : Listed env.volume file) : Helpless env.volume (Wanted env.volume) (libPath file) := by
  intro data t loadable resolved name wanted offered
  rcases Classical.em (Needs data name) with ⟨unserved, i, small, rfl⟩ | spare
  · exact (resolved i small).resolve_left (by simp [unserved])
  · exact absurd ⟨file, listed, data, loadable, offered, spare⟩ (apart name wanted)

theorem careful_nest (apart : ∀ name, Wanted env.volume name → ¬ Offered env.volume name) (n : Nat) :
    Careful env.volume (nest (loadBody env (qtxUnload (depth + 1))) n) := by
  apply nest_induct (Careful env.volume)
  · exact fun _ _ _ _ => after_none.mpr not_false
  · intro load careful file listed s counted
    exact load_moves careful counted (fun _ wanted => wanted) (helpless_listed apart listed)

theorem qdlLoad_kept (apart : ∀ name, Wanted env.volume name → ¬ Offered env.volume name) (counted : Counted s.table) :
    After False (qdlLoad env depth (asked, path)) s fun _ s' => Kept s s' := by
  cases depth with
  | zero => exact after_none.mpr not_false
  | succ depth =>
    apply (load_moves (V := fun _ => False) (careful_nest apart depth) counted nofun (fun _ _ _ _ _ => False.elim)).mono
    exact fun _ _ moves => moves.kept

end Loads

section Recounting
variable {must : Prop} {env : Env} {needed : Bytes → Call State Bool} {s s' s'' : State} {data name : Bytes} {linked : Linked}

/-- Counts have changed, and nothing else. -/
structure Recounted (s s' : State) : Prop where
  table : ∃ f, s'.table = recount f s.table
  moves : ∀ V, Moves V s s'
  requests : s'.requests = s.requests

theorem Recounted.refl (s : State) : Recounted s s := by
  refine ⟨⟨fun _ n => n, ?_⟩, fun _ => .refl, rfl⟩
  funext k
  rw [recount]
  cases s.table k with
  | none => rfl
  | some e => rfl

theorem Recounted.trans (first : Recounted s s') (second : Recounted s' s'') : Recounted s s'' := by
  obtain ⟨f, table⟩ := first.table
  obtain ⟨g, table'⟩ := second.table
  refine ⟨⟨fun k n => g k (f k n), ?_⟩, fun V => (first.moves V).trans (second.moves V), second.requests.trans first.requests⟩
  funext k
  rw [table', table, recount, recount, recount]
  cases s.table k with
  | none => rfl
  | some e => rfl

theorem Recounted.resolved (recounted : Recounted s s') : Resolved s'.table name ↔ Resolved s.table name := by
  obtain ⟨f, table⟩ := recounted.table
  rw [table, resolved_recount]

theorem linkTarget_recounted {i target : Nat} (placed : inside data i = true) :
    After must (linkTarget env data linked i target) s fun r s' => r.isSome = true ∧ Recounted s s' := by
  apply after_linkTarget
  · exact fun outside => absurd (placed.symm.trans outside) nofun
  · intro _
    unfold retainProvider
    split
    · exact (after_pure _).mpr ⟨rfl, .refl s⟩
    · rename_i k found
      split
      · obtain ⟨e, held, -⟩ := findExporter_loaded found
        rw [after_bind, qdlRetain, after_update, after_pure, held]
        refine ⟨rfl, ⟨_, update_count held _⟩, fun V => .single (.retain held), rfl⟩
      · exact (after_pure _).mpr ⟨rfl, .refl s⟩

theorem linkImports_recounted {is : List Nat} (resolved : ∀ i ∈ is, Resolved s.table (importName data i))
    (placed : ∀ i ∈ is, inside data i = true) :
    After must (linkImports env needed data linked is) s fun r s' => r.isSome = true ∧ Recounted s s' := by
  induction is generalizing linked s with
  | nil =>
    rw [linkImports, after_pure]
    exact ⟨rfl, .refl s⟩
  | cons i rest ih =>
    rw [linkImports, linkImport, after_bind, after_bind]
    apply (resolveImport_resolved (resolved i List.mem_cons_self)).mono
    rintro r s' ⟨found, rfl⟩
    obtain ⟨target, rfl⟩ := Option.isSome_iff_exists.mp found
    apply (linkTarget_recounted (placed i List.mem_cons_self)).mono
    rintro r s'' ⟨linked', first⟩
    obtain ⟨l, rfl⟩ := Option.isSome_iff_exists.mp linked'
    apply After.mono (ih ?_ fun j member => placed j (List.mem_cons_of_mem _ member))
    · exact fun _ _ later => ⟨later.1, first.trans later.2⟩
    · exact fun j member => first.resolved.mpr (resolved j (List.mem_cons_of_mem _ member))

theorem after_linkImports_append {before after : List Nat} {Q : Option Linked → State → Prop}
    (first : After must (linkImports env needed data linked before) s fun r s' => ∃ l, r = some l ∧
      After must (linkImports env needed data l after) s' Q) :
    After must (linkImports env needed data linked (before ++ after)) s Q := by
  induction before generalizing linked s with
  | nil =>
    obtain ⟨l, same, rest⟩ := (after_pure _).mp first
    cases Option.some.inj same
    exact rest
  | cons i before ih =>
    rw [linkImports, after_bind] at first
    rw [List.cons_append, linkImports, after_bind]
    apply first.mono
    rintro (_ | l) s' rest
    · obtain ⟨l, same, -⟩ := (after_pure _).mp rest
      cases same
    · exact ih rest

end Recounting

section Loss
variable {must : Prop} {env : Env} {load : Asked × Bytes → Call State Bool} {unload : Image → Call State Unit}
  {asked : Asked} {s : State} {data path name : Bytes} {slot : Slot} {base : Nat} {P : State → Prop}

/-- A library that is linked and has all its memory is recorded in the slot chosen
before. -/
theorem served_load (loadable : Loadable env.volume path data) (fresh : findPath s.table path = none)
    (free : findFreeSlot s.table = some slot) (first : ∀ size, env.kmalloc s.requests size = some base)
    (second : ∀ size, env.kmalloc (s.requests + 1) size = some base)
    (links : After must (linkImports env (qdlLoadNeeded env load) data ⟨[], []⟩ (List.range (header data).importCount))
      { s with requests := s.requests + 2 } fun r s' => r.isSome = true ∧ P s')
    (third : ∀ s', P s' → ∀ size, env.kmalloc s'.requests size = some base) :
    After must (loadBody env unload load (asked, path)) s fun loaded s' => loaded = true ∧ ∃ image s₁ n, image.base = base ∧
      P s₁ ∧ s₁.requests ≤ n ∧ s' = setSlot slot (some (newEntry path data image))
        (.recorded asked slot (newEntry path data image)) { s₁ with requests := n } := by
  obtain ⟨size, fits, -⟩ := Option.bind_eq_some_iff.mp loadable.found
  unfold loadBody
  rw [after_bind, after_look, fresh]
  dsimp only
  rw [after_bind]
  apply (readImage_sized fits).mono
  rintro r s' ⟨rfl, rfl⟩
  rw [first, Option.bind_some, loadable.found]
  simp only [loadable.kind.1, loadable.kind.2, not_true_eq_false, if_false, ne_eq]
  rw [after_bind, after_look, free]
  unfold loadLibrary
  rw [after_bind, qtxLoadMemory_eq loadable.fits, after_bind, after_request, second, after_bind]
  apply links.mono
  rintro r s' ⟨some_, holds⟩
  obtain ⟨l, rfl⟩ := Option.isSome_iff_exists.mp some_
  rw [after_pure]
  dsimp only
  rw [after_bind]
  unfold copySymbols
  split
  · rw [after_pure, if_pos rfl, after_bind, after_update, after_pure]
    exact ⟨rfl, linkedImage data base l, s', s'.requests, rfl, holds, Nat.le_refl _, rfl⟩
  · rw [after_bind, after_request, third s' holds, after_pure, if_pos Option.isSome_some, after_bind, after_update, after_pure]
    exact ⟨rfl, linkedImage data base l, s', s'.requests + 1, rfl, holds, Nat.le_succ _, rfl⟩

theorem resolves_recorded {t : Table} {e : Entry} (only : ∀ k e, t k = some e → e.exports name = false)
    (exported : e.exports name = true) (address : e.resolve name ≠ some 0) :
    (qdlResolveSymbol (Function.update t slot (some e)) name).isSome = true := by
  have found : ∃ k, qdlFindExporter (Function.update t slot (some e)) name = some k := by
    cases search : qdlFindExporter (Function.update t slot (some e)) name with
    | some k => exact ⟨k, rfl⟩
    | none =>
      have silent := firstSlot_none.mp search slot
      rw [Function.update_self] at silent
      exact absurd (exported.symm.trans silent) nofun
  obtain ⟨k, found⟩ := found
  obtain ⟨e', held, exports⟩ := findExporter_loaded found
  have here : k = slot := by
    by_contra other
    rw [Function.update_of_ne other] at held
    exact absurd (exports.symm.trans (only k e' held)) nofun
  subst here
  rw [Function.update_self] at held
  cases Option.some.inj held
  rw [resolveSymbol_eq, found, Option.bind_some, Function.update_self, Option.bind_some]
  have some_ : (e.resolve name).isSome = true := (resolve_isSome e name).trans exported
  obtain ⟨target, same⟩ := Option.isSome_iff_exists.mp some_
  have nonzero : target ≠ 0 := fun zero => address (zero ▸ same)
  rw [same]
  simp [nonzero]

theorem resolves_first {t : Table} {e : Entry} (held : t 0 = some e) (exported : e.exports name = true)
    (address : e.resolve name ≠ some 0) : (qdlResolveSymbol t name).isSome = true := by
  have found : qdlFindExporter t name = some 0 := by
    rw [qdlFindExporter, firstSlot, show List.finRange maxLoaded = 0 :: (List.finRange 31).map Fin.succ from List.finRange_succ]
    apply List.find?_cons_of_pos
    rw [held]
    exact exported
  rw [resolveSymbol_eq, found, Option.bind_some, held, Option.bind_some]
  have some_ : (e.resolve name).isSome = true := (resolve_isSome e name).trans exported
  obtain ⟨target, same⟩ := Option.isSome_iff_exists.mp some_
  have nonzero : target ≠ 0 := fun zero => address (zero ▸ same)
  rw [same]
  simp [nonzero]

theorem recorded_twice {s' : State} {before between : List Event} {e e' : Entry} {asked' : Asked}
    (account : s'.account = s.account ++ (before ++ .recorded asked slot e :: (between ++ [.recorded asked' slot e'])))
    (stays : ∀ event ∈ between, event.removes slot = false) : ¬ Kept s s' := by
  rintro ⟨events, whole, kept⟩
  have split : events = before ++ .recorded asked slot e :: (between ++ [.recorded asked' slot e']) :=
    List.append_cancel_left (whole.symm.trans account)
  have stays' : ∀ event ∈ between ++ [.recorded asked' slot e'], event.removes slot = false := by
    intro event member
    rcases List.mem_append.mp member with inner | last
    · exact stays event inner
    · rw [List.mem_singleton.mp last]
      rfl
  obtain ⟨unrecorded, -⟩ := kept slot e _ (.recorded asked split) stays'
  have last := unrecorded _ (List.mem_append_right _ (List.mem_singleton_self _))
  simp [Event.records] at last

theorem Moves.overwritten {V : Bytes → Prop} {s₁ s₂ : State} {e e' : Entry} {asked' : Asked} (first : Moves V s s₁)
    (second : Moves V (setSlot slot (some e) (.recorded asked slot e) s₁) s₂) :
    ¬ Kept s (setSlot slot (some e') (.recorded asked' slot e') s₂) := by
  obtain ⟨before, account, -⟩ := first.kept
  obtain ⟨between, account', -⟩ := second.kept
  refine @recorded_twice asked s slot _ before between e e' asked' ?_ ?_
  · change s₂.account ++ _ = _
    rw [account']
    change s₁.account ++ _ ++ _ ++ _ = _
    rw [account]
    simp
  · exact fun event member => second.unremoved account' event member slot

end Loss

section Helpers
variable {names : List Bytes} {path name : Bytes} {n : Nat}

/-- A loaded library that has these names. -/
def helper (names : List Bytes) (path : Bytes) (n : Nat) : Entry where
  name := []
  path := path
  image := ⟨[], 1, 0, [], []⟩
  symbols := names.map fun m => ⟨m, 0⟩
  refcount := n
  lowestVa := 0

theorem helper_exports (plain : ∀ m ∈ names, cstr m = m) : (helper names path n).exports name = true ↔ name ∈ names := by
  rw [Entry.exports, List.any_eq_true]
  constructor
  · rintro ⟨symbol, member, same⟩
    obtain ⟨m, known, rfl⟩ := List.mem_map.mp member
    have equal : cstr m = name := by simpa using same
    rwa [← equal, plain m known]
  · intro member
    exact ⟨⟨name, 0⟩, List.mem_map_of_mem member, by simpa using plain name member⟩

theorem helper_resolve : (helper names path n).resolve name ≠ some 0 := by
  intro zero
  obtain ⟨symbol, found, address⟩ := Option.map_eq_some_iff.mp zero
  obtain ⟨m, -, rfl⟩ := List.mem_map.mp (List.mem_of_find?_eq_some found)
  have one : (helper names path n).translate ⟨m, 0⟩ = 1 := by
    simp [Entry.translate, helper, wrap64, sub64]
  exact absurd (one.symm.trans address) (by decide)

theorem cstr_cstr (name : Bytes) : cstr (cstr name) = cstr name := by
  rw [cstr, cstr, List.takeWhile_takeWhile]
  congr 1
  funext b
  simp only [and_self, Bool.decide_eq_true]

theorem libPath_slash (file : Bytes) : ∃ rest, libPath file = 0x2f :: rest := by
  have front : ascii "/lib/" = 0x2f :: ascii "lib/" := by decide
  exact ⟨_, by rw [libPath, front]; rfl⟩

end Helpers

/-- A library on the volume needs a name that one in /lib has. -/
structure Clash (v : Volume) where
  name : Bytes
  path : Bytes
  data : Bytes
  loadable : Loadable v path data
  needs : Needs data name
  before : List Bytes
  file : Bytes
  after : List Bytes
  listed : v.lib = some (before ++ file :: after)
  library : isLibrary file = true
  other : Bytes
  loadable' : Loadable v (libPath file) other
  offers : offers other name = true
  spare : ¬ Needs other name

namespace Clash
variable {v : Volume} (c : Clash v)

def imports : List Bytes :=
  (List.range (header c.data).importCount).map (importName c.data) ++
    (List.range (header c.other).importCount).map (importName c.other)

/-- Every name that the two import, but the one. -/
def names : List Bytes := c.imports.filter (· != c.name)

/-- A path that neither of the two has. -/
def elsewhere : Bytes := if c.path = [] then [1] else []

/-- A library is loaded that has these names. -/
def start : State where
  table k := if k = 0 then some (helper c.names c.elsewhere 1) else none
  requests := 0
  account := []

/-- Where the name lies in the second library. -/
def offset : Nat :=
  ((symbols c.other).find? (cstr ·.name == c.name)).elim 0 fun s => sub64 s.address (bounds (sections c.other)).1

/-- An address at which the name does not come to lie at zero. -/
def base : Nat := if wrap64 (1 + c.offset) = 0 then 2 else 1

/-- The libraries listed before the second one get no memory. -/
def env : Env where
  volume := v
  kmalloc n _ := if 2 ≤ n ∧ n < 2 + c.before.countP (takesMemory v) then none else some c.base
  address _ := 1

theorem names_plain : ∀ m ∈ c.names, cstr m = m := by
  intro m member
  obtain ⟨either, -⟩ := List.mem_filter.mp member
  rcases List.mem_append.mp either with first | second
  · obtain ⟨i, -, rfl⟩ := List.mem_map.mp first
    exact cstr_cstr _
  · obtain ⟨i, -, rfl⟩ := List.mem_map.mp second
    exact cstr_cstr _

theorem start_counted : Counted c.start.table := by
  intro k e held
  change (if k = 0 then _ else none) = some e at held
  split at held
  · cases Option.some.inj held
    exact Nat.one_pos
  · exact absurd held nofun

/-- The helper is in the first slot. -/
def Helped (t : Table) : Prop := ∃ n, t 0 = some (helper c.names c.elsewhere n)

/-- The helper is loaded, and no other library. -/
def Alone (t : Table) : Prop := c.Helped t ∧ ∀ k, k ≠ 0 → t k = none

theorem start_alone : c.Alone c.start.table := ⟨⟨1, rfl⟩, fun _ other => if_neg other⟩

variable {c} {t : Table}

theorem Helped.recount (helped : c.Helped t) (f : Slot → Nat → Nat) : c.Helped (recount f t) := by
  obtain ⟨n, held⟩ := helped
  exact ⟨f 0 n, by rw [Qdl.recount, held]; rfl⟩

theorem Alone.recount (alone : c.Alone t) (f : Slot → Nat → Nat) : c.Alone (recount f t) :=
  ⟨alone.1.recount f, fun k other => by rw [Qdl.recount, alone.2 k other]; rfl⟩

theorem Alone.silent (alone : c.Alone t) (k : Slot) (e : Entry) (held : t k = some e) : e.exports c.name = false := by
  obtain ⟨⟨n, first⟩, empty⟩ := alone
  rcases eq_or_ne k 0 with rfl | other
  · cases Option.some.inj (first.symm.trans held)
    rw [Bool.eq_false_iff]
    intro exported
    have member := (helper_exports c.names_plain).mp exported
    simpa using (List.mem_filter.mp member).2
  · exact absurd ((empty k other).symm.trans held) nofun

theorem Alone.missing (alone : c.Alone t) : qdlResolveSymbol t c.name = none := by
  have none_ : qdlFindExporter t c.name = none := by
    apply firstSlot_none.mpr
    intro k
    cases held : t k with
    | none => rfl
    | some e => exact alone.silent k e held
  rw [resolveSymbol_eq, none_]
  rfl

theorem Alone.unlisted (alone : c.Alone t) {path : Bytes} (other : path ≠ c.elsewhere) : findPath t path = none := by
  obtain ⟨⟨n, first⟩, empty⟩ := alone
  apply firstSlot_none.mpr
  intro k
  rcases eq_or_ne k 0 with rfl | apart
  · rw [first]
    exact beq_eq_false_iff_ne.mpr other.symm
  · rw [empty k apart]
    rfl

theorem Helped.known (helped : c.Helped t) {m : Bytes} (imported : m ∈ c.imports) (other : m ≠ c.name) : Resolved t m := by
  obtain ⟨n, held⟩ := helped
  have member : m ∈ c.names := List.mem_filter.mpr ⟨imported, by simpa using other⟩
  exact .inr (resolves_first held ((helper_exports c.names_plain).mpr member) helper_resolve)

theorem served_at {n : Nat} (outside : n < 2 ∨ 2 + c.before.countP (takesMemory v) ≤ n) (size : Nat) :
    c.env.kmalloc n size = some c.base := by
  change (if 2 ≤ n ∧ n < 2 + c.before.countP (takesMemory v) then none else some c.base) = some c.base
  rw [if_neg]
  omega

theorem refused_at {n : Nat} (late : 2 ≤ n) (early : n < 2 + c.before.countP (takesMemory v)) (size : Nat) :
    c.env.kmalloc n size = none :=
  if_pos ⟨late, early⟩

theorem libPath_elsewhere (file : Bytes) : libPath file ≠ c.elsewhere := by
  obtain ⟨rest, same⟩ := libPath_slash file
  rw [same, elsewhere]
  split <;> simp

theorem path_elsewhere : c.path ≠ c.elsewhere := by
  rw [elsewhere]
  split
  · rename_i empty
    rw [empty]
    exact nofun
  · rename_i other
    exact other

theorem newEntry_resolve {image : Image} (base : image.base = c.base) :
    (newEntry (libPath c.file) c.other image).resolve c.name ≠ some 0 := by
  intro zero
  obtain ⟨symbol, found, address⟩ := Option.map_eq_some_iff.mp zero
  have same : (symbols c.other).find? (cstr ·.name == c.name) = some symbol := found
  have place : c.offset = sub64 symbol.address (bounds (sections c.other)).1 := by rw [offset, same]; rfl
  have small : c.offset < 2 ^ 64 := place ▸ Nat.mod_lt _ (by decide)
  change wrap64 (image.base + sub64 symbol.address (bounds (sections c.other)).1) = 0 at address
  rw [← place, base, Clash.base] at address
  split at address
  · rename_i first
    rw [wrap64] at first address
    omega
  · rename_i first
    exact first address

/-- What the search for the name leaves: the second library is in the slot that
was free. -/
structure Found (s : State) (slot : Slot) (s' : State) : Prop where
  recorded : ∃ e s₁, (∀ V, Moves V s s₁) ∧ s' = setSlot slot (some e) (.recorded .need slot e) s₁
  requests : 2 + c.before.countP (takesMemory v) ≤ s'.requests
  helped : c.Helped s'.table
  resolved : Resolved s'.table c.name

theorem search_finds {s : State} {slot : Slot} {unload : Image → Call State Unit} {load : Asked × Bytes → Call State Bool}
    (alone : c.Alone s.table) (free : findFreeSlot s.table = some slot) (requests : s.requests = 2) :
    After True (qdlLoadNeeded c.env (loadBody c.env unload load) c.name) s fun found s' => found = true ∧ Found (c := c) s slot s' := by
  unfold qdlLoadNeeded
  rw [show c.env.volume.lib = some (c.before ++ c.file :: c.after) from c.listed]
  apply after_passed
  · exact fun file _ => alone.unlisted (libPath_elsewhere file)
  · intro file _ n window
    apply refused_load
    · exact alone.unlisted (libPath_elsewhere file)
    · intro takes size
      obtain ⟨late, early⟩ := window takes
      rw [requests] at late early
      exact refused_at late early size
  · rw [requests]
    have fresh : findPath s.table (libPath c.file) = none := alone.unlisted (libPath_elsewhere _)
    have resolved : ∀ i ∈ List.range (header c.other).importCount, Resolved s.table (importName c.other i) := by
      intro i member
      rcases Bool.eq_false_or_eq_true (served (importName c.other i)) with kernel | unserved
      · exact .inl kernel
      · apply alone.1.known
        · exact List.mem_append_right _ (List.mem_map_of_mem member)
        · exact fun same => c.spare ⟨same ▸ unserved, i, List.mem_range.mp member, same⟩
    have placed : ∀ i ∈ List.range (header c.other).importCount, inside c.other i = true := fun i member =>
      c.loadable'.placed i (List.mem_range.mp member)
    unfold tryLibraries
    rw [c.library]
    simp only [Bool.not_true, Bool.false_eq_true, if_false]
    rw [after_bind, after_look, fresh]
    simp only [Option.isSome_none, Bool.false_eq_true, if_false]
    rw [after_bind]
    let s₀ : State := { s with requests := 2 + c.before.countP (takesMemory v) }
    apply After.mono (served_load (s := s₀) (P := Recounted { s₀ with requests := s₀.requests + 2 }) c.loadable' fresh free ?_ ?_
      (linkImports_recounted resolved placed) ?_)
    · rintro loaded s' ⟨rfl, image, s₁, n, base, recounted, le, rfl⟩
      obtain ⟨f, table⟩ := recounted.table
      have alone' : c.Alone s₁.table := table ▸ alone.recount f
      have apart : slot ≠ 0 := by
        rintro rfl
        obtain ⟨m, held⟩ := alone.1
        have none_ := firstSlot_some free
        rw [held] at none_
        cases none_
      have resolves : (qdlResolveSymbol (Function.update s₁.table slot
          (some (newEntry (libPath c.file) c.other image))) c.name).isSome = true :=
        resolves_recorded alone'.silent c.offers (newEntry_resolve base)
      rw [after_bind, after_look]
      have found : (true && (qdlResolveSymbol (setSlot slot (some (newEntry (libPath c.file) c.other image))
          (.recorded .need slot (newEntry (libPath c.file) c.other image)) { s₁ with requests := n }).table c.name).isSome) = true :=
        resolves
      rw [if_pos found, after_pure]
      refine ⟨rfl, ⟨_, { s₁ with requests := n }, fun V => ?_, rfl⟩, ?_, ?_, .inr resolves⟩
      · exact ((Relation.ReflTransGen.single (.request _)).trans (recounted.moves V)).tail (.request n)
      · have count : s₁.requests = 2 + c.before.countP (takesMemory v) + 2 := recounted.requests
        change _ ≤ n
        omega
      · obtain ⟨m, held⟩ := alone'.1
        exact ⟨m, (Function.update_of_ne apart.symm ..).trans held⟩
    · exact served_at (.inr (Nat.le_refl _))
    · exact served_at (.inr (Nat.le_succ _))
    · intro s' recounted
      apply served_at
      have count : s'.requests = 2 + c.before.countP (takesMemory v) + 2 := recounted.requests
      omega

/-- The first library is linked after the second one was put into the slot that
waits for it. -/
theorem links {s : State} {slot : Slot} {unload : Image → Call State Unit} {load : Asked × Bytes → Call State Bool}
    (alone : c.Alone s.table) (free : findFreeSlot s.table = some slot) (requests : s.requests = 2) :
    After True (linkImports c.env (qdlLoadNeeded c.env (loadBody c.env unload load)) c.data ⟨[], []⟩
      (List.range (header c.data).importCount)) s fun r s' => r.isSome = true ∧ ∃ e s₁, (∀ V, Moves V s s₁) ∧
        (∀ V, Moves V (setSlot slot (some e) (.recorded .need slot e) s₁) s') ∧
          2 + c.before.countP (takesMemory v) ≤ s'.requests := by
  obtain ⟨unserved, used⟩ := c.needs
  -- The first import of the name is the one that is searched for.
  obtain ⟨i, ⟨small, same⟩, least⟩ : ∃ i, (i < (header c.data).importCount ∧ importName c.data i = c.name) ∧
      ∀ j < i, ¬ (j < (header c.data).importCount ∧ importName c.data j = c.name) :=
    ⟨Nat.find used, Nat.find_spec used, fun _ => Nat.find_min used⟩
  have placed (j : Nat) (member : j ∈ List.range (header c.data).importCount) : inside c.data j = true :=
    c.loadable.placed j (List.mem_range.mp member)
  have imported (j : Nat) (member : j ∈ List.range (header c.data).importCount) : importName c.data j ∈ c.imports :=
    List.mem_append_left _ (List.mem_map_of_mem member)
  have split := range_cut small
  rw [split] at placed imported ⊢
  apply after_linkImports_append
  apply After.mono (linkImports_recounted ?_ fun j member => placed j (List.mem_append_left _ member))
  · rintro r s₁ ⟨some_, before⟩
    obtain ⟨l, rfl⟩ := Option.isSome_iff_exists.mp some_
    refine ⟨l, rfl, ?_⟩
    obtain ⟨f, table⟩ := before.table
    have alone₁ : c.Alone s₁.table := table ▸ alone.recount f
    have free₁ : findFreeSlot s₁.table = some slot := by rw [table, findFreeSlot_recount, free]
    have missing : ¬ Resolved s₁.table (importName c.data i) := by
      rw [same]
      simp [Resolved, unserved, alone₁.missing]
    rw [linkImports, linkImport, after_bind, after_bind]
    apply after_resolveImport
    · exact fun _ found => absurd found missing
    · intro _
      rw [show cstr (import_ c.data i).name = c.name from same]
      apply (search_finds alone₁ free₁ (before.requests.trans requests)).mono
      rintro _ s₃ ⟨rfl, found⟩
      obtain ⟨e, s₂, moves, rfl⟩ := found.recorded
      obtain ⟨target, address⟩ := Option.isSome_iff_exists.mp (found.resolved.resolve_left (by simp [unserved]))
      rw [if_pos rfl, address]
      apply (linkTarget_recounted (placed i (List.mem_append_right _ List.mem_cons_self))).mono
      rintro r s₄ ⟨some_, here⟩
      obtain ⟨l, rfl⟩ := Option.isSome_iff_exists.mp some_
      apply After.mono (linkImports_recounted ?_ fun j member =>
        placed j (List.mem_append_right _ (List.mem_cons_of_mem _ member)))
      · rintro r s₅ ⟨some_, rest⟩
        refine ⟨some_, e, s₂, fun V => (before.moves V).trans (moves V), fun V => (here.moves V).trans (rest.moves V), ?_⟩
        have last := found.requests
        rw [rest.requests, here.requests]
        exact last
      · intro j member
        apply here.resolved.mpr
        rcases eq_or_ne (importName c.data j) c.name with again | other
        · exact again ▸ found.resolved
        · exact found.helped.known (imported j (List.mem_append_right _ (List.mem_cons_of_mem _ member))) other
  · intro j member
    have earlier := List.mem_range.mp member
    exact alone.1.known (imported j (List.mem_append_left _ member)) fun again =>
      least j earlier ⟨earlier.trans small, again⟩

theorem loses (c : Clash v) : ∃ s', qdlLoad c.env 2 (.caller, c.path) c.start = some (true, s') ∧ ¬ Kept c.start s' := by
  have alone := c.start_alone
  have free : ∃ slot, findFreeSlot c.start.table = some slot := by
    cases here : findFreeSlot c.start.table with
    | some slot => exact ⟨slot, rfl⟩
    | none =>
      have full := firstSlot_none.mp here 1
      rw [alone.2 1 (by decide)] at full
      exact absurd full nofun
  obtain ⟨slot, free⟩ := free
  have start : Move (fun _ => False) c.start { c.start with requests := 2 } := .request 2
  have run : After True (qdlLoad c.env 2 (.caller, c.path)) c.start fun loaded s' => loaded = true ∧ ¬ Kept c.start s' := by
    apply After.mono (served_load c.loadable (alone.unlisted path_elsewhere) free (served_at (.inl Nat.zero_lt_two))
      (served_at (.inl Nat.one_lt_two)) (links alone free rfl) ?_)
    · rintro _ _ ⟨rfl, image, s₁, n, -, ⟨e, s₂, first, second, -⟩, -, rfl⟩
      exact ⟨rfl, Moves.overwritten ((Relation.ReflTransGen.single start).trans (first _)) ((second _).tail (.request n))⟩
    · rintro s' ⟨-, -, -, -, late⟩
      exact served_at (.inr late)
  obtain ⟨loaded, s', outcome, rfl, lost⟩ := after_true.mp run
  exact ⟨s', outcome, lost⟩

end Clash

/-- qdl_load loses nothing, whatever is loaded, just when no library in /lib has a
name that a library on the volume needs, without needing it itself. -/
theorem qdlLoad_kept_iff (v : Volume) :
    (∀ (env : Env) (s : State) (depth : Nat) (path : Bytes) (loaded : Bool) (s' : State), env.volume = v → Counted s.table →
      qdlLoad env depth (.caller, path) s = some (loaded, s') → Kept s s') ↔ ∀ name, Wanted v name → ¬ Offered v name := by
  constructor
  · rintro all name ⟨path, data, loadable, needs⟩ ⟨file, ⟨files, listed, member, library⟩, other, loadable', offers, spare⟩
    obtain ⟨before, after, rfl⟩ := List.append_of_mem member
    let c : Clash v := ⟨name, path, data, loadable, needs, before, file, after, listed, library, other, loadable', offers, spare⟩
    obtain ⟨s', run, lost⟩ := c.loses
    exact lost (all c.env c.start 2 path true s' rfl c.start_counted run)
  · rintro apart env s depth path loaded s' rfl counted run
    exact after_false.mp (qdlLoad_kept apart counted) loaded s' run

/-- Two libraries, the second of which needs a symbol of the first. -/
def nestedEnv : Env :=
  servingEnv (volumeOf ["b.qdl", "a.qdl"] [("/lib/a.qdl", libraryBytes "a" [("f", 0x1000)] [("g", 0x1008)]),
    ("/lib/b.qdl", libraryBytes "b" [] [("f", 0x1010)])])

def Event.shape : Event → Nat × Nat
  | .recorded _ k _ => (0, k)
  | .retained k => (1, k)
  | .released k => (2, k)
  | .removed k => (3, k)

theorem shape_recorded {event : Event} (shape : event.shape = (0, 0)) : ∃ asked e, event = .recorded asked 0 e := by
  cases event with
  | recorded asked k e =>
    obtain rfl : k = 0 := Fin.ext (congrArg Prod.snd shape)
    exact ⟨asked, e, rfl⟩
  | retained k => exact absurd (congrArg Prod.fst shape) nofun
  | released k => exact absurd (congrArg Prod.fst shape) nofun
  | removed k => exact absurd (congrArg Prod.fst shape) nofun

/-- Both libraries are recorded in slot 0. -/
theorem nested_overwritten : ¬ ∀ (env : Env) (s : State) (depth : Nat) (path : Bytes) (loaded : Bool) (s' : State),
    Counted s.table → qdlLoad env depth (.caller, path) s = some (loaded, s') → Kept s s' := by
  intro all
  have shape : (qdlLoad nestedEnv 2 (.caller, ascii "/lib/a.qdl") qdlInit).map (fun r => r.2.account.map Event.shape) =
      some [(0, 0), (1, 0), (0, 0)] := by decide +kernel
  obtain ⟨⟨loaded, s'⟩, run, events⟩ := Option.map_eq_some_iff.mp shape
  obtain ⟨first, rest, account, kind, events⟩ := List.map_eq_cons_iff.mp events
  obtain ⟨second, rest, rfl, kind', events⟩ := List.map_eq_cons_iff.mp events
  obtain ⟨third, rest, rfl, kind'', events⟩ := List.map_eq_cons_iff.mp events
  obtain rfl := List.map_eq_nil_iff.mp events
  obtain ⟨asked, e, rfl⟩ := shape_recorded kind
  obtain ⟨asked', e', rfl⟩ := shape_recorded kind''
  refine @recorded_twice asked qdlInit 0 s' [] [second] e e' asked' account ?_
    (all nestedEnv qdlInit 2 (ascii "/lib/a.qdl") loaded s' nofun run)
  intro event member
  rw [List.mem_singleton.mp member]
  cases second with
  | removed k => exact absurd (congrArg Prod.fst kind') nofun
  | _ => rfl

end Qito.Qdl
