import Mathlib.Logic.Relation
import Qito.Qdl.Model

/-! What linking does to the table. As long as every import is found in it, only
the counts of the libraries retained go up, and unloading the image takes them
down again. -/
namespace Qito.Qdl
open Nesting Qtx Words

section Slots
variable {s : State} {j k : Slot} {e : Option Entry} {event : Event}

@[simp] theorem setSlot_self : (setSlot k e event s).table k = e := by
  unfold setSlot
  exact Function.update_self ..

theorem setSlot_other (other : j ≠ k) : (setSlot k e event s).table j = s.table j := by
  unfold setSlot
  exact Function.update_of_ne other ..

end Slots

section Lookups
variable {t : Table} {p : Option Entry → Bool} {k : Slot} {name : Bytes}

theorem firstSlot_none : firstSlot t p = none ↔ ∀ k, p (t k) = false := by
  simp [firstSlot]

theorem firstSlot_some (found : firstSlot t p = some k) : p (t k) = true :=
  List.find?_some (p := fun k => p (t k)) found

theorem findSome_find {α β : Type} {p : α → Bool} {g : α → Option β} (same : ∀ x, (g x).isSome = p x) (xs : List α) :
    xs.findSome? g = (xs.find? p).bind g := by
  induction xs with
  | nil => rfl
  | cons x xs ih =>
    cases here : g x with
    | none =>
      have no : p x = false := by rw [← same x, here]; rfl
      rw [List.findSome?_cons_of_isNone (by rw [here]; rfl), List.find?_cons_of_neg (by simp [no]), ih]
    | some b =>
      have yes : p x = true := by rw [← same x, here]; rfl
      rw [List.findSome?_cons_of_isSome (by rw [here]; rfl), List.find?_cons_of_pos yes, Option.bind_some]

theorem resolve_isSome (e : Entry) (name : Bytes) : (e.resolve name).isSome = e.exports name := by
  rw [Entry.resolve, Entry.exports, Option.isSome_map, List.isSome_find?]

theorem resolveSymbol_eq (t : Table) (name : Bytes) : qdlResolveSymbol t name =
    ((qdlFindExporter t name).bind fun k => (t k).bind (·.resolve name)).filter (· != 0) := by
  rw [qdlResolveSymbol, qdlFindExporter, firstSlot]
  congr 1
  apply findSome_find
  intro k
  cases t k with
  | none => rfl
  | some e => exact resolve_isSome e name

theorem findExporter_loaded (found : qdlFindExporter t name = some k) : ∃ e, t k = some e ∧ e.exports name = true := by
  have some_ := firstSlot_some found
  rwa [Option.any_eq_true] at some_

end Lookups

section Counts
variable {t : Table} {name : Bytes}

/-- The table with its counts changed. -/
def recount (f : Slot → Nat → Nat) (t : Table) : Table := fun k => (t k).map fun e => { e with refcount := f k e.refcount }

/-- Every library in ks is retained once more. -/
def bump (ks : List Slot) : Table → Table := recount fun k n => n + ks.count k

theorem firstSlot_recount {p : Option Entry → Bool} (f : Slot → Nat → Nat) (t : Table)
    (blind : ∀ e n, p (some { e with refcount := n }) = p (some e)) : firstSlot (recount f t) p = firstSlot t p := by
  rw [firstSlot, firstSlot]
  congr 1
  funext k
  rw [recount]
  cases t k with
  | none => rfl
  | some e => exact blind e (f k e.refcount)

@[simp] theorem findFreeSlot_recount (f : Slot → Nat → Nat) (t : Table) : findFreeSlot (recount f t) = findFreeSlot t :=
  firstSlot_recount f t fun _ _ => rfl

@[simp] theorem findExporter_recount (f : Slot → Nat → Nat) (t : Table) (name : Bytes) :
    qdlFindExporter (recount f t) name = qdlFindExporter t name := firstSlot_recount f t fun _ _ => rfl

@[simp] theorem resolveSymbol_recount (f : Slot → Nat → Nat) (t : Table) (name : Bytes) :
    qdlResolveSymbol (recount f t) name = qdlResolveSymbol t name := by
  rw [qdlResolveSymbol, qdlResolveSymbol]
  congr 2
  funext k
  rw [recount]
  cases t k with
  | none => rfl
  | some e => rfl

@[simp] theorem bump_nil (t : Table) : bump [] t = t := by
  funext k
  rw [bump, recount]
  cases t k with
  | none => rfl
  | some e => rfl

theorem bump_at {ks : List Slot} {k : Slot} {e : Entry} (held : t k = some e) :
    bump ks t k = some { e with refcount := e.refcount + ks.count k } := by
  rw [bump, recount, held]
  rfl

theorem update_bump {ks : List Slot} {k : Slot} {e : Entry} (held : bump ks t k = some e) :
    Function.update (bump ks t) k (some { e with refcount := e.refcount + 1 }) = bump (ks ++ [k]) t := by
  funext j
  rcases eq_or_ne j k with rfl | other
  · rw [Function.update_self, bump, recount]
    rw [bump, recount] at held
    obtain ⟨e₀, here, same⟩ := Option.map_eq_some_iff.mp held
    rw [here, ← same]
    simp [Nat.add_assoc]
  · rw [Function.update_of_ne other, bump, bump, recount, recount]
    have none_ : List.count j [k] = 0 := List.count_eq_zero.mpr fun member => other (List.mem_singleton.mp member)
    rw [List.count_append, none_, Nat.add_zero]

end Counts

/-- A change of the table that loses no library. What is recorded goes to a free
slot, and exports no symbol in W for which there was no address before. -/
inductive Move (W : Bytes → Prop) : State → State → Prop where
  | request {s : State} (n : Nat) : Move W s { s with requests := n }
  | retain {s : State} {k : Slot} {e : Entry} (held : s.table k = some e) :
    Move W s (setSlot k (some { e with refcount := e.refcount + 1 }) (.retained k) s)
  | release {s : State} {k : Slot} {e : Entry} (held : s.table k = some e) (spare : 1 < e.refcount) :
    Move W s (setSlot k (some { e with refcount := e.refcount - 1 }) (.released k) s)
  | record {s : State} {k : Slot} {e : Entry} (asked : Asked) (free : s.table k = none) (fresh : e.refcount = 1)
    (known : ∀ name, W name → e.exports name = true → (qdlResolveSymbol s.table name).isSome) :
    Move W s (setSlot k (some e) (.recorded asked k e) s)

def Moves (W : Bytes → Prop) : State → State → Prop := Relation.ReflTransGen (Move W)

section Linking
variable {must : Prop} {env : Env} {needed : Bytes → Call State Bool} {data name : Bytes} {s₀ s : State} {linked : Linked}

/-- The kernel exports the name. -/
def served (name : Bytes) : Bool := exports.any fun e => ascii e == cstr name

theorem resolveExport_isSome (env : Qtx.Env) (name : Bytes) : (qtxResolveExport env name).isSome = served name := by
  rw [qtxResolveExport, served, Option.isSome_map, List.isSome_find?]

/-- An import is found without a search in /lib. -/
def Resolved (t : Table) (name : Bytes) : Prop := served name = true ∨ (qdlResolveSymbol t name).isSome = true

instance (t : Table) (name : Bytes) : Decidable (Resolved t name) := inferInstanceAs (Decidable (_ ∨ _))

theorem resolved_recount (f : Slot → Nat → Nat) (t : Table) : Resolved (recount f t) name ↔ Resolved t name := by
  rw [Resolved, Resolved, resolveSymbol_recount]

theorem resolveImport_resolved (resolved : Resolved s.table name) :
    After must (resolveImport env needed name) s fun r s' => r.isSome = true ∧ s' = s := by
  unfold resolveImport
  split
  · simp
  · rename_i none_
    have unserved : served name = false := by rw [← resolveExport_isSome (services env), none_]; rfl
    have found := resolved.resolve_left (by simp [unserved])
    rw [after_bind, after_look]
    cases here : qdlResolveSymbol s.table name with
    | none => simp [here] at found
    | some target => simp

/-- The imports linked so far were all found in the table of s₀. -/
structure Plain (s₀ : State) (deps : List Slot) (s : State) : Prop where
  table : s.table = bump deps s₀.table
  nodup : deps.Nodup
  held : ∀ k ∈ deps, ∃ e, s₀.table k = some e
  requests : s.requests = s₀.requests
  moves : ∀ W, Moves W s₀ s

theorem Plain.start (s : State) : Plain s [] s :=
  ⟨(bump_nil s.table).symm, List.nodup_nil, by simp, rfl, fun _ => .refl⟩

theorem Plain.ask {deps : List Slot} (plain : Plain s₀ deps s) (n : Nat) :
    Plain { s₀ with requests := n } deps { s with requests := n } := by
  refine ⟨plain.table, plain.nodup, plain.held, rfl, fun W => ?_⟩
  have back : Move W { s₀ with requests := n } s₀ := .request s₀.requests
  exact ((Relation.ReflTransGen.single back).trans (plain.moves W)).tail (.request n)

theorem retainProvider_plain (plain : Plain s₀ linked.deps s) {provider : Option Slot}
    (loaded : ∀ k, provider = some k → ∃ e, s₀.table k = some e) :
    After must (retainProvider linked provider) s fun l s' => Plain s₀ l.deps s' := by
  unfold retainProvider
  split
  · exact (after_pure _).mpr plain
  · rename_i k
    split
    · rename_i fresh
      obtain ⟨e, held⟩ := loaded k rfl
      have here : s.table k = some { e with refcount := e.refcount + linked.deps.count k } := by
        rw [plain.table, bump_at held]
      rw [after_bind, qdlRetain, after_update, after_pure, here]
      refine ⟨?_, ?_, ?_, plain.requests, fun W => (plain.moves W).tail (.retain here)⟩
      · change Function.update s.table k _ = _
        rw [plain.table] at here ⊢
        exact update_bump here
      · exact List.nodup_append.mpr ⟨plain.nodup, List.nodup_singleton k, by
          rintro j old _ new rfl
          exact fresh.1 (List.mem_singleton.mp new ▸ old)⟩
      · intro j member
        rcases List.mem_append.mp member with old | new
        · exact plain.held j old
        · exact List.mem_singleton.mp new ▸ ⟨e, held⟩
    · exact (after_pure _).mpr plain

/-- Whether import i patches a slot in the image. -/
def inside (data : Bytes) (i : Nat) : Bool :=
  patchInside (bounds (sections data)).1 (bounds (sections data)).2 (import_ data i).patchAddress

def importName (data : Bytes) (i : Nat) : Bytes := cstr (import_ data i).name

/-- What linking import i stores. -/
def newLink (data : Bytes) (i target : Nat) (s : State) : Link where
  patchAddress := (import_ data i).patchAddress
  target := target
  provider := if served (importName data i) then none else qdlFindExporter s.table (importName data i)
  since := s.account.length

theorem after_linkTarget {i target : Nat} {Q : Option Linked → State → Prop} (outside : inside data i = false → Q none s)
    (link : inside data i = true → After must (retainProvider { linked with links := linked.links ++ [newLink data i target s] }
      (qdlFindExporter s.table (importName data i))) s fun l s' => Q (some l) s') :
    After must (linkTarget env data linked i target) s Q := by
  unfold linkTarget
  dsimp only
  split
  · rename_i out
    exact (after_pure _).mpr (outside (by simpa [inside] using out))
  · rename_i placed
    rw [after_bind, after_look, after_bind, after_look, after_bind, resolveExport_isSome]
    apply (link (by simpa [inside] using placed)).mono
    exact fun l s' holds => (after_pure _).mpr holds

theorem linkImport_plain (plain : Plain s₀ linked.deps s) {i : Nat} (resolved : Resolved s₀.table (importName data i)) :
    After must (linkImport env needed data linked i) s fun r s' =>
      match r with
      | none => inside data i = false ∧ s' = s
      | some l => inside data i = true ∧ Plain s₀ l.deps s' := by
  have here : Resolved s.table (importName data i) := by rwa [plain.table, bump, resolved_recount]
  have exporter (k : Slot) (found : qdlFindExporter s.table (importName data i) = some k) : ∃ e, s₀.table k = some e := by
    rw [plain.table, bump, findExporter_recount] at found
    obtain ⟨e, held, -⟩ := findExporter_loaded found
    exact ⟨e, held⟩
  unfold linkImport
  rw [after_bind]
  apply (resolveImport_resolved here).mono
  rintro r s' ⟨found, rfl⟩
  cases r with
  | none => simp at found
  | some target =>
    apply after_linkTarget
    · exact fun outside => ⟨outside, rfl⟩
    · intro placed
      apply After.mono (retainProvider_plain ?_ exporter)
      · exact fun l s'' kept => ⟨placed, kept⟩
      · exact plain

theorem linkImports_plain {is : List Nat} (plain : Plain s₀ linked.deps s)
    (resolved : ∀ before i after, is = before ++ i :: after → (∀ j ∈ before, inside data j = true) →
      Resolved s₀.table (importName data i)) :
    After must (linkImports env needed data linked is) s fun r s' =>
      match r with
      | none => (∃ i ∈ is, inside data i = false) ∧ ∃ deps, Plain s₀ deps s'
      | some l => (∀ i ∈ is, inside data i = true) ∧ Plain s₀ l.deps s' := by
  induction is generalizing linked s with
  | nil => simpa [linkImports] using plain
  | cons i rest ih =>
    rw [linkImports, after_bind]
    apply (linkImport_plain plain (resolved [] i rest rfl (by simp))).mono
    rintro (_ | l) s' outcome
    · obtain ⟨outside, rfl⟩ := outcome
      rw [after_pure]
      exact ⟨⟨i, List.mem_cons_self, outside⟩, linked.deps, plain⟩
    · obtain ⟨fits, kept⟩ := outcome
      apply (ih kept fun before j after whole reached => resolved (i :: before) j after (by rw [whole]; rfl) (by
        rw [List.forall_mem_cons]
        exact ⟨fits, reached⟩)).mono
      rintro (_ | l') s'' outcome
      · obtain ⟨⟨j, member, outside⟩, last⟩ := outcome
        exact ⟨⟨j, List.mem_cons_of_mem _ member, outside⟩, last⟩
      · exact ⟨List.forall_mem_cons.mpr ⟨fits, outcome.1⟩, outcome.2⟩

theorem after_resolveImport {Q : Option Nat → State → Prop} (known : ∀ target, Resolved s.table name → Q (some target) s)
    (search : ¬ Resolved s.table name → After must (needed name) s fun found s' =>
      Q (if found then qdlResolveSymbol s'.table name else none) s') :
    After must (resolveImport env needed name) s Q := by
  unfold resolveImport
  split
  · rename_i address found
    have kernel : served name = true := by rw [← resolveExport_isSome (services env), found]; rfl
    exact (after_pure _).mpr (known address (.inl kernel))
  · rename_i none_
    have unserved : served name = false := by rw [← resolveExport_isSome (services env), none_]; rfl
    rw [after_bind, after_look]
    cases here : qdlResolveSymbol s.table name with
    | some target => exact (after_pure _).mpr (known target (.inr (by rw [here]; rfl)))
    | none =>
      have missing : ¬ Resolved s.table name := by simp [Resolved, unserved, here]
      rw [after_bind]
      apply (search missing).mono
      intro found s' holds
      cases found with
      | true => simpa using holds
      | false => simpa using holds

theorem after_linkImport (Inv : Linked → State → Prop) {i : Nat}
    (search : ¬ Resolved s.table (importName data i) → After must (needed (importName data i)) s fun _ s' => Inv linked s')
    (link : ∀ target s, Inv linked s → Resolved s.table (importName data i) →
      After must (retainProvider { linked with links := linked.links ++ [newLink data i target s] }
        (qdlFindExporter s.table (importName data i))) s Inv)
    (inv : Inv linked s) : After must (linkImport env needed data linked i) s fun r s' => ∃ l, Inv l s' ∧ ∀ l', r = some l' → l = l' := by
  have both (target : Nat) (s : State) (inv : Inv linked s) (found : Resolved s.table (importName data i)) :
      After must (linkTarget env data linked i target) s fun r s' => ∃ l, Inv l s' ∧ ∀ l', r = some l' → l = l' := by
    apply after_linkTarget
    · exact fun _ => ⟨linked, inv, nofun⟩
    · intro _
      apply (link target s inv found).mono
      exact fun l s' kept => ⟨l, kept, fun l' same => Option.some.inj same⟩
  unfold linkImport
  rw [after_bind]
  apply after_resolveImport
  · intro target found
    exact both target s inv found
  · intro missing
    apply (search missing).mono
    intro found s' kept
    cases here : (if found then qdlResolveSymbol s'.table (cstr (import_ data i).name) else none) with
    | none => exact (after_pure _).mpr ⟨linked, kept, nofun⟩
    | some target =>
      apply both target s' kept
      cases found with
      | false => exact absurd here nofun
      | true =>
        right
        rw [importName, show qdlResolveSymbol s'.table (cstr (import_ data i).name) = some target from here]
        rfl

theorem after_linkImports (Inv : Linked → State → Prop) {is : List Nat}
    (search : ∀ linked i s, i ∈ is → Inv linked s → ¬ Resolved s.table (importName data i) →
      After must (needed (importName data i)) s fun _ s' => Inv linked s')
    (link : ∀ linked i target s, Inv linked s → Resolved s.table (importName data i) →
      After must (retainProvider { linked with links := linked.links ++ [newLink data i target s] }
        (qdlFindExporter s.table (importName data i))) s Inv)
    (inv : Inv linked s) :
    After must (linkImports env needed data linked is) s fun r s' => ∃ l, Inv l s' ∧ ∀ l', r = some l' → l = l' := by
  induction is generalizing linked s with
  | nil =>
    rw [linkImports, after_pure]
    exact ⟨linked, inv, fun l' same => Option.some.inj same⟩
  | cons i rest ih =>
    rw [linkImports, after_bind]
    apply (after_linkImport Inv (search linked i s List.mem_cons_self inv) (link linked i) inv).mono
    rintro (_ | l) s' ⟨l', kept, same⟩
    · exact (after_pure _).mpr ⟨l', kept, nofun⟩
    · cases same l rfl
      exact ih (fun linked j s member => search linked j s (List.mem_cons_of_mem i member)) kept

end Linking

section Unloading
variable {must : Prop} {s₀ s s' : State} {k : Slot} {e : Entry} {depth : Nat}

/-- Every library in the table is counted at least once. -/
def Counted (t : Table) : Prop := ∀ k e, t k = some e → 0 < e.refcount

theorem update_count {t : Table} (held : t k = some e) (n : Nat) :
    Function.update t k (some { e with refcount := n }) = recount (fun j m => if j = k then n else m) t := by
  funext j
  rcases eq_or_ne j k with rfl | other
  · rw [Function.update_self, recount, held]
    simp
  · rw [Function.update_of_ne other, recount]
    cases t j with
    | none => rfl
    | some e' => simp [other]

theorem release_spare (held : s.table k = some e) (spare : 1 < e.refcount) :
    After must (qdlReleaseByIndex (depth + 1) k) s fun _ s' =>
      s' = setSlot k (some { e with refcount := e.refcount - 1 }) (.released k) s := by
  have left : e.refcount - 1 ≠ 0 := by omega
  change After must (releaseBody _ k) s _
  unfold releaseBody
  rw [after_bind, after_look, held]
  simp only [after_bind, after_update, if_neg left, after_pure]

theorem release_all {ks : List Slot} (spare : ∀ k ∈ ks, ∃ e, s.table k = some e ∧ ks.count k < e.refcount) :
    After must (each (qdlReleaseByIndex (depth + 1)) ks) s fun _ s' =>
      s'.table = recount (fun k n => n - ks.count k) s.table ∧ s'.requests = s.requests ∧ ∀ W, Moves W s s' := by
  induction ks generalizing s with
  | nil =>
    rw [each, after_pure]
    refine ⟨?_, rfl, fun _ => .refl⟩
    funext k
    rw [recount]
    cases s.table k with
    | none => rfl
    | some e => rfl
  | cons k ks ih =>
    obtain ⟨e, held, many⟩ := spare k List.mem_cons_self
    rw [List.count_cons_self] at many
    have more : 1 < e.refcount := by omega
    rw [each, after_bind]
    apply (release_spare held more).mono
    rintro _ _ rfl
    have others : ∀ j ∈ ks, ∃ e', (setSlot k (some { e with refcount := e.refcount - 1 }) (.released k) s).table j = some e' ∧
        ks.count j < e'.refcount := by
      intro j member
      rcases eq_or_ne j k with rfl | apart
      · refine ⟨_, setSlot_self, ?_⟩
        dsimp only
        omega
      · obtain ⟨e', there, enough⟩ := spare j (List.mem_cons_of_mem _ member)
        rw [List.count_cons_of_ne apart.symm] at enough
        exact ⟨e', (setSlot_other apart).trans there, enough⟩
    apply (ih others).mono
    rintro _ s' ⟨table, requests, moves⟩
    refine ⟨?_, requests, fun W => (Relation.ReflTransGen.single (.release held more)).trans (moves W)⟩
    rw [table]
    change recount _ (Function.update s.table k _) = _
    rw [update_count held]
    funext j
    rw [recount, recount, recount]
    rcases eq_or_ne j k with rfl | other
    · rw [held]
      simp [Nat.sub_sub, Nat.add_comm]
    · cases s.table j with
      | none => rfl
      | some e' => simp [other, other.symm]

theorem Plain.unload {deps : List Slot} (plain : Plain s₀ deps s) (counted : Counted s₀.table) :
    After must (each (qdlReleaseByIndex (depth + 1)) deps) s fun _ s' =>
      s'.table = s₀.table ∧ s'.requests = s₀.requests ∧ ∀ W, Moves W s s' := by
  have spare : ∀ k ∈ deps, ∃ e, s.table k = some e ∧ deps.count k < e.refcount := by
    intro k member
    obtain ⟨e, held⟩ := plain.held k member
    have here := counted k e held
    refine ⟨_, by rw [plain.table, bump_at held], ?_⟩
    change deps.count k < e.refcount + deps.count k
    omega
  apply (release_all spare).mono
  rintro _ s' ⟨table, requests, moves⟩
  refine ⟨?_, requests.trans plain.requests, moves⟩
  funext k
  rw [table, recount, plain.table, bump, recount]
  cases s₀.table k with
  | none => rfl
  | some e => simp

end Unloading

section Changes
variable {W : Bytes → Prop} {s s' : State} {name : Bytes}

theorem Move.mono {V : Bytes → Prop} (weaker : ∀ name, V name → W name) (move : Move W s s') : Move V s s' := by
  cases move with
  | request n => exact .request n
  | retain held => exact .retain held
  | release held spare => exact .release held spare
  | record asked free fresh known => exact .record asked free fresh fun name wanted => known name (weaker name wanted)

theorem Moves.mono {V : Bytes → Prop} (weaker : ∀ name, V name → W name) (moves : Moves W s s') : Moves V s s' :=
  Relation.ReflTransGen.mono (fun _ _ (move : Move W _ _) => move.mono weaker) _ _ moves

theorem Move.counted (move : Move W s s') (counted : Counted s.table) : Counted s'.table := by
  have change {k : Slot} {e : Entry} (some_ : 0 < e.refcount) : Counted (Function.update s.table k (some e)) := by
    intro j e' held
    rcases eq_or_ne j k with rfl | other
    · rw [Function.update_self] at held
      cases Option.some.inj held
      exact some_
    · rw [Function.update_of_ne other] at held
      exact counted j e' held
  cases move with
  | request n => exact counted
  | retain held => exact change (Nat.succ_pos _)
  | release held spare => exact change (Nat.sub_pos_of_lt spare)
  | record asked free fresh known => exact change (by omega)

theorem Moves.counted (moves : Moves W s s') (counted : Counted s.table) : Counted s'.table := by
  induction moves with
  | refl => exact counted
  | tail _ last ih => exact last.counted ih

theorem resolveSymbol_record {t : Table} {k : Slot} {e : Entry} (free : t k = none) (silent : e.exports name = false) :
    qdlResolveSymbol (Function.update t k (some e)) name = qdlResolveSymbol t name := by
  rw [qdlResolveSymbol, qdlResolveSymbol]
  congr 2
  funext j
  rcases eq_or_ne j k with rfl | other
  · rw [Function.update_self, free, Option.bind_some, Option.bind_none]
    rwa [← resolve_isSome, Option.isSome_eq_false_iff, Option.isNone_iff_eq_none] at silent
  · rw [Function.update_of_ne other]

theorem Moves.unresolved (moves : Moves W s s') (wanted : W name) (missing : qdlResolveSymbol s.table name = none) :
    qdlResolveSymbol s'.table name = none := by
  induction moves with
  | refl => exact missing
  | tail _ last ih =>
    cases last with
    | request n => exact ih
    | retain held =>
      change qdlResolveSymbol (Function.update _ _ _) name = none
      rwa [update_count held, resolveSymbol_recount]
    | release held spare =>
      change qdlResolveSymbol (Function.update _ _ _) name = none
      rwa [update_count held, resolveSymbol_recount]
    | @record k e asked free fresh known =>
      have silent : e.exports name = false := by
        rw [Bool.eq_false_iff]
        intro exported
        have found := known name wanted exported
        rw [ih] at found
        exact absurd found nofun
      exact (resolveSymbol_record free silent).trans ih

end Changes

end Qito.Qdl
