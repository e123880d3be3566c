import Mathlib.Algebra.BigOperators.Fin
import Qito.Qdl.Slots

/-! Reference counts over runs. A library is counted once for its own load and once
for every image that lists it among its dependencies, so a slot that an image lists
is not emptied while the image is loaded. The count of the load is the caller's; for
a library that was loaded on demand nobody gives it back. -/
namespace Qito.Qdl
open Nesting Qtx Words

section Balance
variable {t : Table} {H : List Linked} {l : Linked} {j k : Slot} {e : Entry}

/-- How often images list a slot. -/
def heldBy (H : List Linked) (k : Slot) : Nat := (H.map fun l => l.deps.count k).sum

def weight (k : Slot) (entry : Option Entry) : Nat := entry.elim 0 fun e => e.image.deps.count k

/-- How often the images of libraries list it. -/
def stored (t : Table) (k : Slot) : Nat := ∑ j, weight k (t j)

/-- The count of a library beyond its own load. -/
def surplus (entry : Option Entry) : Nat := entry.elim 0 (·.refcount - 1)

/-- A library is counted for each image that lists it, besides its own load. -/
def Covered (H : List Linked) (t : Table) : Prop := ∀ k, heldBy H k + stored t k ≤ surplus (t k)

@[simp] theorem heldBy_cons : heldBy (l :: H) k = l.deps.count k + heldBy H k := by simp [heldBy]

theorem heldBy_erase {n : Nat} {l : Linked} (there : H[n]? = some l) (k : Slot) :
    heldBy H k = l.deps.count k + heldBy (H.eraseIdx n) k := by
  induction H generalizing n with
  | nil => simp at there
  | cons first H ih =>
    cases n with
    | zero =>
      cases Option.some.inj there
      rw [heldBy_cons, List.eraseIdx_cons_zero]
    | succ n =>
      rw [List.eraseIdx_cons_succ, heldBy_cons, heldBy_cons, ih there]
      omega

theorem stored_update (t : Table) (j : Slot) (entry : Option Entry) (k : Slot) :
    stored (Function.update t j entry) k + weight k (t j) = stored t k + weight k entry := by
  have apart : ∀ i ∈ Finset.univ.erase j, weight k (Function.update t j entry i) = weight k (t i) := by
    intro i member
    rw [Function.update_of_ne (Finset.ne_of_mem_erase member)]
  unfold stored
  rw [← Finset.add_sum_erase _ _ (Finset.mem_univ j), ← Finset.add_sum_erase _ (fun i => weight k (t i)) (Finset.mem_univ j),
    Finset.sum_congr rfl apart, Function.update_self]
  omega

theorem stored_recount (f : Slot → Nat → Nat) (t : Table) (k : Slot) : stored (recount f t) k = stored t k := by
  unfold stored
  apply Finset.sum_congr rfl
  intro j _
  rw [recount]
  cases t j with
  | none => rfl
  | some e => rfl

theorem Covered.drop (covered : Covered (l :: H) t) : Covered H t := by
  intro k
  have all := covered k
  rw [heldBy_cons] at all
  omega

theorem Covered.listed (covered : Covered (l :: H) t) (member : k ∈ l.deps) : ∃ e, t k = some e ∧ l.deps.count k < e.refcount := by
  have all := covered k
  have some_ : 0 < l.deps.count k := List.count_pos_iff.mpr member
  rw [heldBy_cons] at all
  cases here : t k with
  | none =>
    rw [here] at all
    change _ ≤ 0 at all
    omega
  | some e =>
    rw [here] at all
    change _ ≤ e.refcount - 1 at all
    exact ⟨e, rfl, by omega⟩

theorem Covered.recount {f : Slot → Nat → Nat} {H' : List Linked} (covered : Covered H t)
    (more : ∀ k, heldBy H k + stored t k ≤ surplus (t k) → ∀ e, t k = some e → heldBy H' k + stored t k ≤ f k e.refcount - 1)
    (none_ : ∀ k, t k = none → heldBy H' k ≤ heldBy H k) : Covered H' (recount f t) := by
  intro k
  have all := covered k
  rw [stored_recount]
  cases here : t k with
  | none =>
    have fewer := none_ k here
    rw [here] at all
    change _ ≤ 0 at all
    omega
  | some e =>
    have enough := more k all e here
    rw [Qdl.recount, here]
    exact enough

theorem Covered.retain (covered : Covered (l :: H) t) (counted : Counted t) (held : t k = some e) :
    Covered ({ l with deps := l.deps ++ [k] } :: H) (Function.update t k (some { e with refcount := e.refcount + 1 })) := by
  rw [update_count held]
  apply covered.recount
  · intro j all e' here
    have some_ := counted j e' here
    rw [here] at all
    change _ ≤ e'.refcount - 1 at all
    rw [heldBy_cons] at all ⊢
    rw [List.count_append]
    rcases eq_or_ne j k with rfl | other
    · cases Option.some.inj (held.symm.trans here)
      rw [if_pos rfl, List.count_singleton_self]
      omega
    · rw [if_neg other, List.count_singleton, if_neg (by simpa using other.symm)]
      omega
  · intro j free
    have other : j ≠ k := by
      rintro rfl
      exact absurd (free.symm.trans held) nofun
    rw [heldBy_cons, heldBy_cons, List.count_append, List.count_singleton, if_neg (by simpa using other.symm)]
    omega

theorem Covered.grow (covered : Covered H t) (held : t k = some e) :
    Covered H (Function.update t k (some { e with refcount := e.refcount + 1 })) := by
  rw [update_count held]
  apply covered.recount
  · intro j all e' here
    rw [here] at all
    change _ ≤ e'.refcount - 1 at all
    split
    · rename_i same
      subst same
      cases Option.some.inj (held.symm.trans here)
      omega
    · exact all
  · exact fun _ _ => Nat.le_refl _

theorem Covered.release (covered : Covered (l :: H) t) :
    Covered H (Qdl.recount (fun k n => n - l.deps.count k) t) := by
  apply covered.recount
  · intro j all e' here
    rw [here, heldBy_cons] at all
    change _ ≤ e'.refcount - 1 at all
    omega
  · intro j _
    rw [heldBy_cons]
    omega

theorem Covered.record (covered : Covered (l :: H) t) (free : t k = none) (deps : e.image.deps = l.deps) :
    Covered H (Function.update t k (some e)) := by
  intro j
  have all := covered j
  have new := stored_update t k (some e) j
  have none_ : weight j (t k) = 0 := by
    rw [free]
    rfl
  have some_ : weight j (some e) = l.deps.count j := by
    rw [← deps]
    rfl
  rw [heldBy_cons] at all
  rcases eq_or_ne j k with rfl | other
  · rw [free] at all
    change _ ≤ 0 at all
    omega
  · rw [Function.update_of_ne other]
    omega

/-- A library that nobody lists is taken out, after its image has released what it
lists. -/
theorem Covered.remove (covered : Covered H t) (held : t k = some e) (last : e.refcount ≤ 1) :
    Covered H (Function.update (Qdl.recount (fun j n => n - e.image.deps.count j) t) k none) := by
  intro j
  have all := covered j
  have out := stored_update (Qdl.recount (fun j n => n - e.image.deps.count j) t) k none j
  have gone : weight j (Qdl.recount (fun j n => n - e.image.deps.count j) t k) = e.image.deps.count j := by
    rw [Qdl.recount, held]
    rfl
  rw [stored_recount, gone] at out
  change _ = _ + 0 at out
  rcases eq_or_ne j k with rfl | other
  · rw [held] at all
    change _ ≤ e.refcount - 1 at all
    rw [Function.update_self]
    change _ ≤ 0
    omega
  · rw [Function.update_of_ne other, Qdl.recount]
    cases here : t j with
    | none =>
      rw [here] at all
      change _ ≤ 0 at all
      change _ ≤ 0
      omega
    | some e' =>
      rw [here] at all
      change _ ≤ e'.refcount - 1 at all
      change _ ≤ e'.refcount - e.image.deps.count j - 1
      omega

end Balance

section Sound
variable {W : Bytes → Prop} {must : Prop} {s s' : State} {H : List Linked} {l linked : Linked} {k : Slot} {e : Entry} {link : Link}

/-- Changes that lose no library. -/
abbrev Onward : State → State → Prop := Moves fun _ => False

/-- The library that a patched slot leads to is still the one that was there. -/
def Alive (s : State) (link : Link) : Prop := ∀ k, link.provider = some k →
  (s.table k).isSome = true ∧ ∀ event ∈ s.account.drop link.since, event.records k = false ∧ event.removes k = false

/-- Of the table and of images loaded besides: every library is counted for the
images that list it, and every patched slot leads to a library that is there. -/
structure Sound (H : List Linked) (s : State) : Prop where
  counted : Counted s.table
  covered : Covered H s.table
  held : ∀ l ∈ H, ∀ link ∈ l.links, Alive s link
  inside : ∀ k e, s.table k = some e → ∀ link ∈ e.image.links, Alive s link

theorem Alive.append {event : Event} (alive : Alive s link) (account : s'.account = s.account ++ [event])
    (there : ∀ k, link.provider = some k → (s.table k).isSome = true →
      (s'.table k).isSome = true ∧ event.records k = false ∧ event.removes k = false) : Alive s' link := by
  intro k provider
  obtain ⟨occupied, quiet⟩ := alive k provider
  obtain ⟨still, last⟩ := there k provider occupied
  refine ⟨still, ?_⟩
  rw [account, List.drop_append]
  intro ev member
  rcases List.mem_append.mp member with old | new
  · exact quiet ev old
  · have same : ev = event := List.mem_singleton.mp (List.mem_of_mem_drop new)
    exact same ▸ last

theorem Move.alive (move : Move W s s') (alive : Alive s link) : Alive s' link := by
  have changed {k : Slot} {e e' : Entry} {event : Event} (held : s.table k = some e) (silent : ∀ j, event.records j = false ∧ event.removes j = false) :
      Alive (setSlot k (some e') event s) link := by
    apply alive.append rfl
    intro j _ occupied
    refine ⟨?_, silent j⟩
    rcases eq_or_ne j k with rfl | other
    · rw [setSlot_self]
      rfl
    · rwa [setSlot_other other]
  cases move with
  | request n => exact alive
  | retain held => exact changed held fun _ => ⟨rfl, rfl⟩
  | release held spare => exact changed held fun _ => ⟨rfl, rfl⟩
  | @record k e asked free fresh known =>
    apply alive.append rfl
    intro j _ occupied
    have other : j ≠ k := by
      rintro rfl
      rw [free] at occupied
      cases occupied
    exact ⟨by rwa [setSlot_other other], by simpa [Event.records] using other.symm, rfl⟩

theorem Moves.alive (moves : Moves W s s') (alive : Alive s link) : Alive s' link := by
  induction moves with
  | refl => exact alive
  | tail _ last ih => exact last.alive ih

theorem Moves.images (moves : Moves W s s') (held : s.table k = some e) : ∃ e', s'.table k = some e' ∧ e'.image = e.image := by
  obtain ⟨events, account, all⟩ := moves.kept
  obtain ⟨-, n, there, -⟩ := all k e events (.loaded held) fun event member => moves.unremoved account event member k
  exact ⟨_, there, rfl⟩

theorem Sound.ask (sound : Sound H s) (n : Nat) : Sound H { s with requests := n } :=
  ⟨sound.counted, sound.covered, sound.held, sound.inside⟩

theorem Sound.drop (sound : Sound (l :: H) s) : Sound H s :=
  ⟨sound.counted, sound.covered.drop, fun l' member => sound.held l' (List.mem_cons_of_mem l member), sound.inside⟩

theorem Sound.start (sound : Sound H s) : Sound (⟨[], []⟩ :: H) s := by
  refine ⟨sound.counted, ?_, ?_, sound.inside⟩
  · intro k
    rw [heldBy_cons, List.count_nil, Nat.zero_add]
    exact sound.covered k
  · rintro l member
    rcases List.mem_cons.mp member with rfl | old
    · exact nofun
    · exact sound.held l old

theorem Sound.moved {H' : List Linked} (sound : Sound H s) (onward : Onward s s') (covered : Covered H' s'.table)
    (links : ∀ l ∈ H', ∃ l' ∈ H, l.links = l'.links)
    (images : ∀ k e', s'.table k = some e' → ∃ e, s.table k = some e ∧ e'.image = e.image) : Sound H' s' := by
  refine ⟨onward.counted sound.counted, covered, ?_, ?_⟩
  · intro l member link there
    obtain ⟨l', member', same⟩ := links l member
    rw [same] at there
    exact onward.alive (sound.held l' member' link there)
  · intro k e' here link there
    obtain ⟨e, old, same⟩ := images k e' here
    rw [same] at there
    exact onward.alive (sound.inside k e old link there)

theorem images_recount {f : Slot → Nat → Nat} {t : Table} {e' : Entry} (here : recount f t k = some e') :
    ∃ e, t k = some e ∧ e'.image = e.image := by
  rw [recount] at here
  obtain ⟨e, there, rfl⟩ := Option.map_eq_some_iff.mp here
  exact ⟨e, there, rfl⟩

theorem images_update {n : Nat} (held : s.table k = some e) {j : Slot} {e' : Entry} {event : Event}
    (here : (setSlot k (some { e with refcount := n }) event s).table j = some e') : ∃ e, s.table j = some e ∧ e'.image = e.image := by
  change Function.update s.table k _ j = some e' at here
  rw [update_count held] at here
  exact images_recount here

theorem Sound.retain (sound : Sound H s) (held : s.table k = some e) :
    Sound H (setSlot k (some { e with refcount := e.refcount + 1 }) (.retained k) s) :=
  sound.moved (.single (.retain held)) (sound.covered.grow held) (fun l member => ⟨l, member, rfl⟩) fun _ _ => images_update held

theorem retainProvider_sound (sound : Sound (linked :: H) s) {provider : Option Slot}
    (loaded : ∀ k, provider = some k → ∃ e, s.table k = some e) :
    After must (retainProvider linked provider) s fun l s' => Sound (l :: H) s' ∧ Onward s s' := by
  unfold retainProvider
  split
  · exact (after_pure _).mpr ⟨sound, .refl⟩
  · rename_i k
    split
    · obtain ⟨e, held⟩ := loaded k rfl
      rw [after_bind, qdlRetain, after_update, after_pure, held]
      have onward : Onward s (setSlot k (some { e with refcount := e.refcount + 1 }) (.retained k) s) := .single (.retain held)
      refine ⟨sound.moved onward (sound.covered.retain sound.counted held) ?_ fun _ _ => images_update held, onward⟩
      intro l member
      rcases List.mem_cons.mp member with rfl | old
      · exact ⟨linked, List.mem_cons_self, rfl⟩
      · exact ⟨l, List.mem_cons_of_mem _ old, rfl⟩
    · exact (after_pure _).mpr ⟨sound, .refl⟩

theorem Sound.patch (sound : Sound (linked :: H) s) (data : Bytes) (i target : Nat) :
    Sound ({ linked with links := linked.links ++ [newLink data i target s] } :: H) s := by
  refine ⟨sound.counted, sound.covered, ?_, sound.inside⟩
  intro l member link there
  rcases List.mem_cons.mp member with rfl | old
  · rcases List.mem_append.mp there with before | new
    · exact sound.held linked List.mem_cons_self link before
    · obtain rfl := List.mem_singleton.mp new
      intro k provider
      unfold newLink at provider
      dsimp only at provider
      split at provider
      · cases provider
      · obtain ⟨e, held, -⟩ := findExporter_loaded provider
        refine ⟨by rw [held]; rfl, ?_⟩
        intro event member
        rw [newLink, List.drop_length] at member
        cases member
  · exact sound.held l (List.mem_cons_of_mem _ old) link there

theorem releases_spare {depth : Nat} {ks : List Slot} (spare : ∀ k ∈ ks, ∃ e, s.table k = some e ∧ ks.count k < e.refcount) :
    After False (each (qdlReleaseByIndex depth) ks) s fun _ s' =>
      s'.table = recount (fun k n => n - ks.count k) s.table ∧ ∀ W, Moves W s s' := by
  cases depth with
  | succ depth => exact (release_all spare).mono fun _ _ ⟨table, _, moves⟩ => ⟨table, moves⟩
  | zero =>
    cases ks with
    | nil =>
      refine (after_pure _).mpr ⟨?_, fun _ => .refl⟩
      funext k
      rw [recount]
      cases s.table k with
      | none => rfl
      | some e => rfl
    | cons k ks => exact after_none.mpr not_false

theorem releases_sound {depth : Nat} (sound : Sound (l :: H) s) :
    After False (each (qdlReleaseByIndex depth) l.deps) s fun _ s' => Sound H s' ∧ Onward s s' := by
  apply (releases_spare fun k member => sound.covered.listed member).mono
  rintro _ s' ⟨table, moves⟩
  refine ⟨?_, moves _⟩
  apply sound.moved (moves _)
  · rw [table]
    exact sound.covered.release
  · exact fun l' member => ⟨l', List.mem_cons_of_mem l member, rfl⟩
  · intro k e' here
    rw [table] at here
    exact images_recount here

theorem Sound.record (sound : Sound (l :: H) s) (free : s.table k = none) (fresh : e.refcount = 1) (deps : e.image.deps = l.deps)
    (links : e.image.links = l.links) (asked : Asked) : Sound H (setSlot k (some e) (.recorded asked k e) s) := by
  have move : Move (fun _ => False) s (setSlot k (some e) (.recorded asked k e) s) := .record asked free fresh fun _ => False.elim
  refine ⟨move.counted sound.counted, sound.covered.record free deps, ?_, ?_⟩
  · intro l' member link there
    exact move.alive (sound.held l' (List.mem_cons_of_mem l member) link there)
  · intro j e' here link there
    rcases eq_or_ne j k with rfl | other
    · rw [setSlot_self] at here
      cases Option.some.inj here
      rw [links] at there
      exact move.alive (sound.held l List.mem_cons_self link there)
    · rw [setSlot_other other] at here
      exact move.alive (sound.inside j e' here link there)

end Sound

section Loads
variable {env : Env} {load : Asked × Bytes → Call State Bool} {needed : Bytes → Call State Bool} {s : State} {H : List Linked}
  {data path : Bytes} {asked : Asked} {depth : Nat}

def Image.linked (image : Image) : Linked := ⟨image.links, image.deps⟩

/-- What a load makes of an image, and of the table on the way. -/
def Made (H : List Linked) (s : State) (r : Option Image) (s' : State) : Prop :=
  Onward s s' ∧ Sound H s' ∧ ∀ image, r = some image → Sound (image.linked :: H) s'

/-- Every import is exported by the kernel or by a loaded library. -/
def Settled (t : Table) (data : Bytes) : Prop := ∀ i < (header data).importCount, Resolved t (importName data i)

theorem exporter_loaded {name : Bytes} (k : Slot) (found : qdlFindExporter s.table name = some k) : ∃ e, s.table k = some e := by
  obtain ⟨e, held, -⟩ := findExporter_loaded found
  exact ⟨e, held⟩

theorem settled_made (sound : Sound H s) (settled : Settled s.table data) :
    After False (qtxLoadMemory env needed data) s fun r s' => Made H s r s' ∧
      ∀ image, r = some image → ∃ n, Plain { s with requests := n } image.deps s' := by
  apply (after_qtxLoadMemory (fun linked s' => (Sound (linked :: H) s' ∧ Onward s s') ∧
    ∃ n, Plain { s with requests := n } linked.deps { s' with requests := n }) ?_ ?_ ?_).mono
  · rintro r s' ⟨l, ⟨⟨sound', onward⟩, n, plain⟩, made⟩
    refine ⟨⟨onward, sound'.drop, ?_⟩, ?_⟩
    · intro image same
      obtain ⟨base, rfl⟩ := made image same
      exact sound'
    · intro image same
      obtain ⟨base, rfl⟩ := made image same
      exact ⟨s'.requests, plain.ask s'.requests⟩
  · exact fun n => ⟨⟨(sound.ask n).start, .single (.request n)⟩, n, Plain.start _⟩
  · rintro linked i s' small ⟨-, n, plain⟩ missing
    have table : s'.table = bump linked.deps s.table := plain.table
    rw [table, bump, resolved_recount] at missing
    exact absurd (settled i small) missing
  · rintro linked i target s' ⟨⟨sound', onward⟩, n, plain⟩ -
    have loaded : ∀ k, qdlFindExporter s'.table (importName data i) = some k → ∃ e, s.table k = some e := by
      intro k found
      have table : s'.table = bump linked.deps s.table := plain.table
      rw [table, bump, findExporter_recount] at found
      exact exporter_loaded k found
    have plain' : Plain { s with requests := s'.requests }
        ({ linked with links := linked.links ++ [newLink data i target s'] } : Linked).deps s' := plain.ask s'.requests
    apply ((retainProvider_sound (sound'.patch data i target) exporter_loaded).and (retainProvider_plain plain' loaded)).mono
    rintro l s'' ⟨⟨sound'', further⟩, plain''⟩
    exact ⟨⟨sound'', onward.trans further⟩, s''.requests, plain''.ask s''.requests⟩

/-- Loads for a search keep everything sound. -/
def Keeps (v : Volume) (load : Asked × Bytes → Call State Bool) : Prop :=
  ∀ file, Listed v file → ∀ H s, Sound H s → After False (load (.need, libPath file)) s fun _ s' => Sound H s' ∧ Onward s s'

theorem searching_made (keeps : Keeps env.volume load) (sound : Sound H s) :
    After False (qtxLoadMemory env (qdlLoadNeeded env load) data) s (Made H s) := by
  apply (after_qtxLoadMemory (fun linked s' => Sound (linked :: H) s' ∧ Onward s s') ?_ ?_ ?_).mono
  · rintro r s' ⟨l, ⟨sound', onward⟩, made⟩
    refine ⟨onward, sound'.drop, ?_⟩
    intro image same
    obtain ⟨base, rfl⟩ := made image same
    exact sound'
  · exact fun n => ⟨(sound.ask n).start, .single (.request n)⟩
  · rintro linked i s' - inv -
    apply after_qdlLoadNeeded (fun s'' => Sound (linked :: H) s'' ∧ Onward s s'') _ inv
    rintro file listed s'' ⟨sound'', onward⟩ -
    apply (keeps file listed _ s'' sound'').mono
    exact fun _ _ ⟨sound₃, further⟩ => ⟨sound₃, onward.trans further⟩
  · rintro linked i target s' ⟨sound', onward⟩ -
    apply (retainProvider_sound (sound'.patch data i target) exporter_loaded).mono
    exact fun _ _ ⟨sound'', further⟩ => ⟨sound'', onward.trans further⟩

theorem loadBody_sound (sound : Sound H s)
    (linking : ∀ data n, fileAt env.volume qdlLimit path = some data → Library data →
      After False (qtxLoadMemory env (qdlLoadNeeded env load) data) { s with requests := n } fun r s' =>
        Made H { s with requests := n } r s' ∧ ∀ image, r = some image → ∀ slot, s.table slot = none → s'.table slot = none) :
    After False (loadBody env (qtxUnload depth) load (asked, path)) s fun _ s' => Sound H s' ∧ Onward s s' := by
  apply after_loadBody
  · intro k found
    obtain ⟨e, held, -⟩ := (Option.any_eq_true _ _).mp (firstSlot_some found)
    rw [qdlRetain, after_update, held]
    exact ⟨sound.retain held, .single (.retain held)⟩
  · exact fun n => ⟨sound.ask n, .single (.request n)⟩
  · intro data slot n found kind free
    have start : Onward s { s with requests := n } := .single (.request n)
    apply after_loadLibrary
    apply (linking data n found kind).mono
    rintro (_ | image) s' ⟨⟨onward, sound', made⟩, untouched⟩
    · exact ⟨sound', start.trans onward⟩
    · intro m
      have empty : s'.table slot = none := untouched image rfl slot (Option.isNone_iff_eq_none.mp (firstSlot_some free))
      have linked : Sound (image.linked :: H) { s' with requests := m } := (made image rfl).ask m
      have sofar : Onward s { s' with requests := m } := (start.trans onward).tail (.request m)
      constructor
      · refine ⟨linked.record empty rfl rfl rfl asked, sofar.tail ?_⟩
        exact .record asked empty rfl fun _ => False.elim
      · apply (releases_sound linked).mono
        exact fun _ _ later => ⟨later.1, sofar.trans later.2⟩

theorem plain_free {n : Nat} {deps : List Slot} {s' : State} (plain : Plain { s with requests := n } deps s') {slot : Slot}
    (free : s.table slot = none) : s'.table slot = none := by
  rw [plain.table, bump, recount]
  change Option.map _ (s.table slot) = none
  rw [free]
  rfl

theorem settled_load (sound : Sound H s)
    (settled : ∀ data, fileAt env.volume qdlLimit path = some data → Settled s.table data) :
    After False (loadBody env (qtxUnload depth) load (asked, path)) s fun _ s' => Sound H s' ∧ Onward s s' := by
  apply loadBody_sound sound
  intro data n found _
  apply (settled_made (sound.ask n) (settled data found)).mono
  rintro r s' ⟨made, plain⟩
  refine ⟨made, ?_⟩
  intro image same slot free
  obtain ⟨m, plain⟩ := plain image same
  exact plain_free plain free

/-- A volume on which no library in /lib helps another one. -/
def Apart (v : Volume) : Prop := ∀ name, Wanted v name → ¬ Offered v name

theorem apart_load (careful : Careful env.volume load) (keeps : Keeps env.volume load) (sound : Sound H s) :
    After False (loadBody env (qtxUnload depth) load (asked, path)) s fun _ s' => Sound H s' ∧ Onward s s' := by
  apply loadBody_sound sound
  intro data n found kind
  have counted : Counted ({ s with requests := n } : State).table := sound.counted
  apply ((searching_made keeps (sound.ask n)).and (qtxLoadMemory_success careful counted found kind)).mono
  rintro r s' ⟨made, success⟩
  refine ⟨made, ?_⟩
  intro image same slot free
  obtain ⟨-, -, -, m, plain⟩ := success image same
  exact plain_free plain free

theorem keeps_nest (apart : Apart env.volume) (n : Nat) : Keeps env.volume (nest (loadBody env (qtxUnload (depth + 1))) n) := by
  induction n with
  | zero => exact fun _ _ _ _ _ => after_none.mpr not_false
  | succ n ih =>
    intro file listed H s sound
    exact apart_load (careful_nest apart n) ih sound

theorem keeps_load (apart : Apart env.volume) : Keeps env.volume (qdlLoad env depth) := by
  cases depth with
  | zero => exact fun _ _ _ _ _ => after_none.mpr not_false
  | succ depth => exact keeps_nest apart (depth + 1)

/-- A load on which nothing is lost: there is no search, or no library in
/lib helps another one. -/
def Safe (v : Volume) (t : Table) (limit : Nat) (path : Bytes) : Prop :=
  (∀ data, fileAt v limit path = some data → Settled t data) ∨ Apart v

theorem qdlLoad_sound (sound : Sound H s) (safe : Safe env.volume s.table qdlLimit path) :
    After False (qdlLoad env depth (asked, path)) s fun _ s' => Sound H s' ∧ Onward s s' := by
  cases depth with
  | zero => exact after_none.mpr not_false
  | succ depth =>
    obtain settled | apart := safe
    · exact settled_load sound settled
    · exact apart_load (careful_nest apart depth) (keeps_nest apart depth) sound

theorem qtxLoad_sound (sound : Sound H s) (safe : Safe env.volume s.table qtxLimit path) :
    After False (qtxLoad env depth path) s (Made H s) := by
  unfold qtxLoad
  rw [after_bind]
  apply readImage_reads.mono
  rintro (_ | data) s' ⟨⟨n, rfl⟩, read⟩
  · exact (after_pure _).mpr ⟨.single (.request n), sound.ask n, nofun⟩
  · have start : Onward s { s with requests := n } := .single (.request n)
    have later {r : Option Image} {s' : State} (made : Made H { s with requests := n } r s') : Made H s r s' :=
      ⟨start.trans made.1, made.2⟩
    obtain settled | apart := safe
    · exact (settled_made (sound.ask n) (settled data (read data rfl))).mono fun _ _ ⟨made, _⟩ => later made
    · exact (searching_made (keeps_load apart) (sound.ask n)).mono fun _ _ made => later made

end Loads

section Worlds

/-- The loader and the images that its callers hold. -/
structure World where
  state : State
  held : List Image

inductive Op where
  | qtxLoad (path : Bytes)
  | qtxUnload (n : Nat)
  | qdlLoad (path : Bytes)
  | qdlUnload (name : Bytes)

/-- qtx_unload of one of the images held. -/
def unloadHeld (depth : Nat) (w : World) (n : Nat) : Option World :=
  match w.held[n]? with
  | none => some w
  | some image => (qtxUnload depth image w.state).map fun r => ⟨r.2, w.held.eraseIdx n⟩

def perform (env : Env) (depth : Nat) (w : World) : Op → Option World
  | .qtxLoad path => (qtxLoad env depth path w.state).map fun r => ⟨r.2, r.1.toList ++ w.held⟩
  | .qtxUnload n => unloadHeld depth w n
  | .qdlLoad path => (qdlLoad env depth (.caller, path) w.state).map fun r => ⟨r.2, w.held⟩
  | .qdlUnload name => (qdlUnload depth name w.state).map fun r => ⟨r.2, w.held⟩

def Image.ImportsFrom (image : Image) (k : Slot) : Prop := ∃ link ∈ image.links, link.provider = some k

/-- A loaded image imports from the library in a slot. -/
def World.Imported (w : World) (k : Slot) : Prop :=
  (∃ image ∈ w.held, image.ImportsFrom k) ∨ ∃ j e, w.state.table j = some e ∧ e.image.ImportsFrom k

def Event.asks (k : Slot) : Event → Option Asked
  | .recorded asked j _ => if j = k then some asked else none
  | _ => none

/-- The library in a slot was loaded by a search. -/
def World.OnDemand (w : World) (k : Slot) : Prop :=
  (w.state.table k).isSome = true ∧ w.state.account.reverse.findSome? (Event.asks k) = some .need

/-- Every patched slot of a loaded image leads to a library that is still loaded. -/
def World.Intact (w : World) : Prop :=
  (∀ image ∈ w.held, ∀ link ∈ image.links, Alive w.state link) ∧
    ∀ k e, w.state.table k = some e → ∀ link ∈ e.image.links, Alive w.state link

/-- In a step, a library that was loaded on demand goes just when its last importer
goes. -/
def Exact (w w' : World) : Prop := ∀ k, w.OnDemand k →
  (.removed k ∈ w'.state.account.drop w.state.account.length ↔ w.Imported k ∧ ¬ w'.Imported k)

/-- The condition on a step, in the world before it. -/
def Allowed (env : Env) (w : World) : Op → Prop
  | .qtxLoad path => Safe env.volume w.state.table qtxLimit path
  | .qdlLoad path => Safe env.volume w.state.table qdlLimit path
  | .qtxUnload n => ∀ image, w.held[n]? = some image → ∀ k, w.OnDemand k → image.ImportsFrom k →
      World.Imported ⟨w.state, w.held.eraseIdx n⟩ k
  | .qdlUnload name => ∀ k e, qdlFind w.state.table name = some k → w.state.table k = some e → e.refcount ≤ 1 →
      ¬ w.OnDemand k ∧
      (∀ image ∈ w.held, image.ImportsFrom k → k ∈ image.deps) ∧
      (∀ j e', w.state.table j = some e' → e'.image.ImportsFrom k → k ∈ e'.image.deps) ∧
      ∀ i, w.OnDemand i → e.image.ImportsFrom i →
        World.Imported ⟨{ w.state with table := Function.update w.state.table k none }, w.held⟩ i

/-- The worlds that steps which meet the condition lead to. -/
inductive Reached : World → Prop where
  | start : Reached ⟨qdlInit, []⟩
  | step {env : Env} {depth : Nat} {w w' : World} {op : Op} (before : Reached w) (allowed : Allowed env w op)
    (performed : perform env depth w op = some w') : Reached w'

def Steady (w : World) : Prop := Sound (w.held.map Image.linked) w.state

variable {env : Env} {depth : Nat} {w w' : World}

theorem Steady.intact (steady : Steady w) : w.Intact := by
  refine ⟨?_, steady.inside⟩
  intro image member link there
  exact steady.held image.linked (List.mem_map_of_mem member) link there

theorem exact_onward (onward : Onward w.state w'.state) (kept : ∀ k, w.OnDemand k → w.Imported k → w'.Imported k) : Exact w w' := by
  intro k demand
  obtain ⟨events, account, -⟩ := onward.kept
  constructor
  · intro removed
    rw [account, List.drop_left] at removed
    have silent := onward.unremoved account _ removed k
    rw [Event.removes, beq_self_eq_true] at silent
    cases silent
  · rintro ⟨imported, lost⟩
    exact absurd (kept k demand imported) lost

theorem imported_onward (onward : Onward w.state w'.state) (held : ∀ image ∈ w.held, image ∈ w'.held) {k : Slot}
    (imported : w.Imported k) : w'.Imported k := by
  obtain ⟨image, member, imports⟩ | ⟨j, e, there, imports⟩ := imported
  · exact .inl ⟨image, held image member, imports⟩
  · obtain ⟨e', there', same⟩ := onward.images there
    exact .inr ⟨j, e', there', same ▸ imports⟩

theorem qtxLoad_steady {path : Bytes} (steady : Steady w) (safe : Safe env.volume w.state.table qtxLimit path)
    (performed : perform env depth w (.qtxLoad path) = some w') : Steady w' ∧ Exact w w' := by
  obtain ⟨⟨r, s'⟩, run, rfl⟩ := Option.map_eq_some_iff.mp performed
  obtain ⟨onward, sound, made⟩ := after_false.mp (qtxLoad_sound steady safe) r s' run
  constructor
  · cases r with
    | none => exact sound
    | some image => exact made image rfl
  · apply exact_onward onward
    intro k _ imported
    exact imported_onward onward (fun image member => List.mem_append_right _ member) imported

theorem qdlLoad_steady {path : Bytes} (steady : Steady w) (safe : Safe env.volume w.state.table qdlLimit path)
    (performed : perform env depth w (.qdlLoad path) = some w') : Steady w' ∧ Exact w w' := by
  obtain ⟨⟨r, s'⟩, run, rfl⟩ := Option.map_eq_some_iff.mp performed
  obtain ⟨sound, onward⟩ := after_false.mp (qdlLoad_sound steady safe) r s' run
  refine ⟨sound, exact_onward onward ?_⟩
  intro k _ imported
  exact @imported_onward w ⟨s', w.held⟩ onward (fun image member => member) k imported

theorem Sound.front {H : List Linked} {s : State} {n : Nat} {l : Linked} (sound : Sound H s) (there : H[n]? = some l) :
    Sound (l :: H.eraseIdx n) s := by
  refine ⟨sound.counted, ?_, ?_, sound.inside⟩
  · intro k
    rw [heldBy_cons, ← heldBy_erase there]
    exact sound.covered k
  · intro l' member
    rcases List.mem_cons.mp member with rfl | other
    · exact sound.held l' (List.mem_of_getElem? there)
    · exact sound.held l' (List.mem_of_mem_eraseIdx other)

theorem qtxUnload_steady {n : Nat} (steady : Steady w) (allowed : Allowed env w (.qtxUnload n))
    (performed : perform env depth w (.qtxUnload n) = some w') : Steady w' ∧ Exact w w' := by
  change unloadHeld depth w n = some w' at performed
  unfold unloadHeld at performed
  cases there : w.held[n]? with
  | none =>
    rw [there] at performed
    cases Option.some.inj performed
    exact ⟨steady, exact_onward .refl fun _ _ imported => imported⟩
  | some image =>
    rw [there] at performed
    obtain ⟨⟨r, s'⟩, run, rfl⟩ := Option.map_eq_some_iff.mp performed
    have linked : (w.held.map Image.linked)[n]? = some image.linked := by rw [List.getElem?_map, there, Option.map_some]
    obtain ⟨sound, onward⟩ := after_false.mp (releases_sound (steady.front linked)) r s' run
    constructor
    · change Sound ((w.held.eraseIdx n).map Image.linked) s'
      rw [← List.eraseIdx_map]
      exact sound
    · apply exact_onward onward
      intro k demand imported
      -- the importer that goes is not the only one
      have rest : World.Imported ⟨w.state, w.held.eraseIdx n⟩ k := by
        obtain ⟨image', member, imports⟩ | inside := imported
        · rcases List.mem_iff_getElem?.mp member with ⟨m, place⟩
          rcases eq_or_ne m n with rfl | other
          · cases Option.some.inj (there.symm.trans place)
            exact allowed image there k demand imports
          · exact .inl ⟨image', List.mem_eraseIdx_iff_getElem?.mpr ⟨m, other, place⟩, imports⟩
        · exact .inr inside
      exact @imported_onward ⟨w.state, w.held.eraseIdx n⟩ ⟨s', w.held.eraseIdx n⟩ onward (fun image member => member) k rest

/-- What is left when a library that nobody lists has been released. -/
structure Taken (s : State) (k : Slot) (e : Entry) (s' : State) : Prop where
  table : s'.table = Function.update (recount (fun j n => n - e.image.deps.count j) s.table) k none
  counted : Counted s'.table
  account : ∃ events, s'.account = s.account ++ events ∧ ∀ event ∈ events, ∀ j ≠ k, event.removes j = false
  alive : ∀ link, link.provider ≠ some k → Alive s link → Alive s' link

theorem Covered.stored {H : List Linked} {t : Table} {j k : Slot} {e : Entry} (covered : Covered H t) (held : t k = some e)
    (member : j ∈ e.image.deps) : ∃ e', t j = some e' ∧ e.image.deps.count j < e'.refcount := by
  have all := covered j
  have out := stored_update t k none j
  change _ = _ + 0 at out
  have count : weight j (t k) = e.image.deps.count j := by
    rw [held]
    rfl
  have some_ : 0 < e.image.deps.count j := List.count_pos_iff.mpr member
  cases here : t j with
  | none =>
    rw [here] at all
    change _ ≤ 0 at all
    omega
  | some e' =>
    rw [here] at all
    change _ ≤ e'.refcount - 1 at all
    exact ⟨e', rfl, by omega⟩

theorem release_taken {H : List Linked} {s : State} {k : Slot} {e : Entry} (sound : Sound H s) (held : s.table k = some e)
    (last : e.refcount ≤ 1) : After False (qdlReleaseByIndex depth k) s fun _ s' => Taken s k e s' := by
  cases depth with
  | zero => exact after_none.mpr not_false
  | succ depth =>
    have zero : e.refcount - 1 = 0 := by omega
    have own : k ∉ e.image.deps := by
      intro member
      obtain ⟨e', there, more⟩ := sound.covered.stored held member
      cases Option.some.inj (held.symm.trans there)
      have some_ : 0 < e.image.deps.count k := List.count_pos_iff.mpr member
      omega
    have spare : ∀ j ∈ e.image.deps, ∃ e', (setSlot k (some { e with refcount := e.refcount - 1 }) (.released k) s).table j = some e' ∧
        e.image.deps.count j < e'.refcount := by
      intro j member
      obtain ⟨e', there, more⟩ := sound.covered.stored held member
      have other : j ≠ k := fun same => own (same ▸ member)
      exact ⟨e', (setSlot_other other).trans there, more⟩
    change After False (releaseBody _ k) s _
    unfold releaseBody
    rw [after_bind, after_look, held]
    simp only [after_bind, after_update, if_pos zero]
    apply (releases_spare spare).mono
    rintro _ s₁ ⟨table, moves⟩
    obtain ⟨events, account, -⟩ := (moves fun _ => False).kept
    have final : (setSlot k none (.removed k) s₁).table =
        Function.update (recount (fun j n => n - e.image.deps.count j) s.table) k none := by
      change Function.update s₁.table k none = _
      rw [table]
      funext j
      rcases eq_or_ne j k with rfl | other
      · rw [Function.update_self, Function.update_self]
      · rw [Function.update_of_ne other, Function.update_of_ne other, recount, recount, setSlot_other other]
    refine ⟨final, ?_, ?_, ?_⟩
    · rw [final]
      intro j e' here
      rcases eq_or_ne j k with rfl | other
      · rw [Function.update_self] at here
        cases here
      · rw [Function.update_of_ne other, recount] at here
        obtain ⟨e₀, there, rfl⟩ := Option.map_eq_some_iff.mp here
        change 0 < e₀.refcount - e.image.deps.count j
        rcases Classical.em (j ∈ e.image.deps) with listed | unlisted
        · obtain ⟨e₁, there', more⟩ := sound.covered.stored held listed
          cases Option.some.inj (there.symm.trans there')
          omega
        · rw [List.count_eq_zero.mpr unlisted]
          exact sound.counted j e₀ there
    · refine ⟨.released k :: events ++ [.removed k], ?_, ?_⟩
      · change s₁.account ++ [.removed k] = _
        rw [account]
        change s.account ++ [.released k] ++ events ++ [.removed k] = _
        simp
      · intro event member j other
        rcases List.mem_append.mp member with early | late
        · rcases List.mem_cons.mp early with rfl | between
          · rfl
          · exact (moves fun _ => False).unremoved account event between j
        · cases List.mem_singleton.mp late
          simpa [Event.removes] using other.symm
    · intro link elsewhere alive
      have released : Alive (setSlot k (some { e with refcount := e.refcount - 1 }) (.released k) s) link := by
        apply alive.append rfl
        intro j provider occupied
        have other : j ≠ k := by
          rintro rfl
          exact elsewhere provider
        exact ⟨by rwa [setSlot_other other], rfl, rfl⟩
      apply ((moves fun _ => False).alive released).append rfl
      intro j provider occupied
      have other : j ≠ k := by
        rintro rfl
        exact elsewhere provider
      exact ⟨by rwa [setSlot_other other], rfl, by simpa [Event.removes] using other.symm⟩

theorem Covered.unlisted {H : List Linked} {t : Table} {k : Slot} {e : Entry} (covered : Covered H t) (held : t k = some e)
    (last : e.refcount ≤ 1) : (∀ l ∈ H, k ∉ l.deps) ∧ ∀ j e', t j = some e' → k ∉ e'.image.deps := by
  have all := covered k
  rw [held] at all
  change _ ≤ e.refcount - 1 at all
  constructor
  · intro l member listed
    have some_ : 0 < l.deps.count k := List.count_pos_iff.mpr listed
    obtain ⟨n, there⟩ := List.mem_iff_getElem?.mp member
    have part := heldBy_erase there k
    omega
  · intro j e' there listed
    obtain ⟨e₁, there', more⟩ := covered.stored there listed
    cases Option.some.inj (held.symm.trans there')
    have some_ : 0 < e'.image.deps.count k := List.count_pos_iff.mpr listed
    omega

theorem taken_steady {k : Slot} {e : Entry} {s' : State} (steady : Steady w) (held : w.state.table k = some e)
    (last : e.refcount ≤ 1) (taken : Taken w.state k e s')
    (allowed : ¬ w.OnDemand k ∧ (∀ image ∈ w.held, image.ImportsFrom k → k ∈ image.deps) ∧
      (∀ j e', w.state.table j = some e' → e'.image.ImportsFrom k → k ∈ e'.image.deps) ∧
      ∀ i, w.OnDemand i → e.image.ImportsFrom i →
        World.Imported ⟨{ w.state with table := Function.update w.state.table k none }, w.held⟩ i) :
    Steady ⟨s', w.held⟩ ∧ Exact w ⟨s', w.held⟩ := by
  obtain ⟨asked, heldLists, storedLists, others⟩ := allowed
  obtain ⟨free, freeStored⟩ := steady.covered.unlisted held last
  have table {j : Slot} {e' : Entry} (here : s'.table j = some e') : ∃ e₀, w.state.table j = some e₀ ∧ e'.image = e₀.image := by
    rw [taken.table] at here
    rcases eq_or_ne j k with rfl | other
    · rw [Function.update_self] at here
      cases here
    · rw [Function.update_of_ne other] at here
      exact images_recount here
  constructor
  · refine ⟨taken.counted, ?_, ?_, ?_⟩
    · rw [taken.table]
      exact steady.covered.remove held last
    · intro l member link there
      obtain ⟨image, member', rfl⟩ := List.mem_map.mp member
      apply taken.alive link _ (steady.held _ member link there)
      intro provider
      exact free _ member (heldLists image member' ⟨link, there, provider⟩)
    · intro j e' here link there
      obtain ⟨e₀, old, same⟩ := table here
      rw [same] at there
      apply taken.alive link _ (steady.inside j e₀ old link there)
      intro provider
      exact freeStored j e₀ old (storedLists j e₀ old ⟨link, there, provider⟩)
  · intro i demand
    have other : i ≠ k := by
      rintro rfl
      exact asked demand
    have stays {j : Slot} {e₀ : Entry} (apart : j ≠ k) (there : w.state.table j = some e₀) (imports : e₀.image.ImportsFrom i) :
        World.Imported ⟨s', w.held⟩ i := by
      refine .inr ⟨j, { e₀ with refcount := e₀.refcount - e.image.deps.count j }, ?_, imports⟩
      rw [taken.table, Function.update_of_ne apart, recount, there]
      rfl
    constructor
    · intro removed
      obtain ⟨events, account, silent⟩ := taken.account
      rw [account, List.drop_left] at removed
      have kept := silent _ removed i other
      rw [Event.removes, beq_self_eq_true] at kept
      cases kept
    · rintro ⟨imported, lost⟩
      refine absurd ?_ lost
      obtain inside | ⟨j, e₀, there, imports⟩ := imported
      · exact .inl inside
      · rcases eq_or_ne j k with rfl | apart
        · -- the library that goes imports from it, and another image does
          cases Option.some.inj (held.symm.trans there)
          obtain inside | ⟨j', e₁, there', imports'⟩ := others i demand imports
          · exact .inl inside
          · change Function.update w.state.table j none j' = some e₁ at there'
            have apart : j' ≠ j := by
              rintro rfl
              rw [Function.update_self] at there'
              cases there'
            rw [Function.update_of_ne apart] at there'
            exact stays apart there' imports'
        · exact stays apart there imports

theorem qdlUnload_steady {name : Bytes} (steady : Steady w) (allowed : Allowed env w (.qdlUnload name))
    (performed : perform env depth w (.qdlUnload name) = some w') : Steady w' ∧ Exact w w' := by
  obtain ⟨⟨r, s'⟩, run, rfl⟩ := Option.map_eq_some_iff.mp performed
  have unchanged : Steady ⟨w.state, w.held⟩ ∧ Exact w ⟨w.state, w.held⟩ :=
    ⟨steady, exact_onward .refl fun _ _ imported => imported⟩
  have outcome : After False (qdlUnload depth name) w.state fun _ s' => Steady ⟨s', w.held⟩ ∧ Exact w ⟨s', w.held⟩ := by
    unfold qdlUnload
    rw [after_bind, after_look]
    cases found : qdlFind w.state.table name with
    | none => exact (after_pure _).mpr unchanged
    | some k =>
      obtain ⟨e, held, -⟩ := (Option.any_eq_true _ _).mp (firstSlot_some found)
      rw [after_bind, after_look, held]
      split
      · exact (after_pure _).mpr unchanged
      · rename_i few
        have last : e.refcount ≤ 1 := by simpa using few
        rw [after_bind]
        apply (release_taken steady held last).mono
        intro _ s' taken
        exact (after_pure _).mpr (taken_steady steady held last taken (allowed k e found held last))
  exact after_false.mp outcome r s' run

theorem perform_steady {op : Op} (steady : Steady w) (allowed : Allowed env w op) (performed : perform env depth w op = some w') :
    Steady w' ∧ Exact w w' := by
  cases op with
  | qtxLoad path => exact qtxLoad_steady steady allowed performed
  | qtxUnload n => exact qtxUnload_steady steady allowed performed
  | qdlLoad path => exact qdlLoad_steady steady allowed performed
  | qdlUnload name => exact qdlUnload_steady steady allowed performed

theorem Reached.steady (reached : Reached w) : Steady w := by
  induction reached with
  | start =>
    refine ⟨nofun, ?_, nofun, nofun⟩
    intro k
    change 0 + stored (fun _ => none) k ≤ 0
    simp [stored, weight]
  | step _ allowed performed ih => exact (perform_steady ih allowed performed).1

end Worlds

/-- A library, and a program that needs it. -/
def demandEnv : Env :=
  servingEnv (volumeOf ["b.qdl"] [("/lib/b.qdl", libraryBytes "b" [] [("f", 0x1010)]), ("/p", programBytes "p" [("f", 0x1000)])])

end Qito.Qdl
