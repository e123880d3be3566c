import Qito.Mm.PageMap

/-! The frames of an address space from vmm_create_space to vmm_destroy_space.
With the pages that vmm_alloc_at maps counted as the fourth level, the trie of a
space holds just the frames that were allocated for it, and each of them once. -/
namespace Qito.Mm
open Words Bitmaps Tries

/-- The allocated frames are those of others, in base, and those of the space. -/
structure Account (base : Nat → Prop) (root : Nat) (s : Vm) : Prop where
  tabled : Tabled 4 root s
  owns : ∀ f, s.pmm.frameBitmap.test f = true ↔ base f ∨ TableOf 4 root s.mem (f * pageSize)
  apart : ∀ a, TableOf 4 root s.mem a → ¬ base (a / pageSize)
  small : ∀ p ∈ lowerPaths 3, p.length = 3 → ∀ i e, leafAt root s.mem p i = some e → has e pteHuge = false

theorem page_inj {f g : Nat} : f * pageSize = g * pageSize ↔ f = g :=
  ⟨fun same => Nat.eq_of_mul_eq_mul_right (by decide) same, fun same => by rw [same]⟩

section Accounts
variable {base : Nat → Prop} {root : Nat} {s t : Vm}

theorem Account.page (account : Account base root s) {a : Nat} (reached : TableOf 4 root s.mem a) : a / pageSize * pageSize = a :=
  Nat.div_mul_cancel (Nat.dvd_of_mod_eq_zero (account.tabled.held a reached).aligned.1)

theorem extends_account (account : Account base root s) (grows : Extends 4 root s t) : Account base root t where
  tabled := grows.tabled
  owns f := by
    have keeps : TableOf 4 root s.mem (f * pageSize) → TableOf 4 root t.mem (f * pageSize) := by
      rintro ⟨p, inside, ends⟩
      exact ⟨p, inside, grows.keeps p inside _ ends⟩
    rw [grows.taken, account.owns]
    tauto
  apart a reached := by
    rcases grows.fresh a reached with before | free
    · exact account.apart a before
    · intro others
      have taken := (account.owns (a / pageSize)).mpr (Or.inl others)
      exact Bool.false_ne_true (free.symm.trans taken)
  small p inside whole i e leaf := by
    rw [grows.leaf p inside whole] at leaf
    exact account.small p inside whole i e leaf

theorem Account.unreached (account : Account base root s) {frame : Nat} (free : s.pmm.frameBitmap.test frame = false) :
    ¬ TableOf 4 root s.mem (frame * pageSize) := by
  intro reached
  exact Bool.false_ne_true (free.symm.trans ((account.owns frame).mpr (Or.inr reached)))

section Claims
variable {frame : Nat} (account : Account base root s) (available : Available s.pmm frame 1)
include account available

theorem claim_mem {c : Nat} (reached : TableOf 4 root s.mem c) : (claimPage s frame).mem c = s.mem c := by
  have other : c ≠ frame * pageSize := by
    rintro rfl
    exact account.unreached (claimed account.tabled.pmm available).free reached
  exact Function.update_of_ne other _ _

theorem claim_follow {q : List Nat} (member : q ∈ lowerPaths 4) :
    follow (tableStep (claimPage s frame).mem) root q = follow (tableStep s.mem) root q := by
  refine follow_congr (lowerPaths_closed 4) (fun q j inside c ends => ?_) member
  unfold tableStep
  rw [claim_mem account available ⟨q, lowerPaths_closed 4 q j inside, ends⟩]

theorem claim_tableOf {a : Nat} : TableOf 4 root (claimPage s frame).mem a ↔ TableOf 4 root s.mem a := by
  constructor
  · rintro ⟨q, member, at_⟩
    exact ⟨q, member, (claim_follow account available member).symm.trans at_⟩
  · rintro ⟨q, member, at_⟩
    exact ⟨q, member, (claim_follow account available member).trans at_⟩

theorem claim_leaf {p : List Nat} (inside : p ∈ lowerPaths 3) (i : Nat) :
    leafAt root (claimPage s frame).mem p i = leafAt root s.mem p i := by
  have within := lowerPaths_mono (show 3 ≤ 4 by decide) inside
  rw [leafAt, leafAt, claim_follow account available within]
  cases at_ : follow (tableStep s.mem) root p with
  | none => rfl
  | some c => rw [Option.bind_some, Option.bind_some, claim_mem account available ⟨p, within, at_⟩]

theorem claim_account : Account (fun f => base f ∨ f = frame) root (claimPage s frame) := by
  have reached {a : Nat} := claim_tableOf account available (a := a)
  have deep := lowerPaths_mono (show 3 ≤ 4 by decide)
  constructor
  · constructor
    · exact handOut_sound account.tabled.pmm available
    · exact account.tabled.unshared.of_follow fun q member => claim_follow account available member
    · intro q c i inside at_ there
      have front := deep (lowerPaths_closed 3 q i inside)
      rw [claim_follow account available front] at at_
      rw [claim_mem account available ⟨q, front, at_⟩] at there ⊢
      exact account.tabled.plain q c i inside at_ there
    · intro a member
      obtain ⟨aligned, taken, tracked⟩ := account.tabled.held a (reached.mp member)
      refine ⟨aligned, ?_, tracked⟩
      rw [claimPage_test, taken, Bool.or_true]
  · intro f
    rw [claimPage_test, Bool.or_eq_true, decide_eq_true_eq, account.owns, reached]
    tauto
  · rintro a member (others | new)
    · exact account.apart a (reached.mp member) others
    · have page := account.page (reached.mp member)
      rw [new] at page
      rw [← page] at member
      exact account.unreached (claimed account.tabled.pmm available).free (reached.mp member)
  · intro p inside whole i e leaf
    rw [claim_leaf account available inside] at leaf
    exact account.small p inside whole i e leaf

end Claims

theorem claim_resolve {space : AddressSpace} (account : Account base space.pml4 s) {frame virt : Nat}
    (available : Available s.pmm frame 1) (lower : virt < lowerHalf) :
    vmmResolve (claimPage s frame) space virt = vmmResolve s space virt := by
  have leaf := claim_leaf account available (indices_lower lower) (ptIndex virt)
  rw [vmmResolve_spec (claim_account account available).tabled lower, vmmResolve_spec account.tabled lower, leaf]

theorem leaf_account {frame virt table flags : Nat} (account : Account (fun f => base f ∨ f = frame) root s) (lower : virt < lowerHalf)
    (at_ : follow (tableStep s.mem) root (indices virt) = some table) (blank : ∀ j, s.mem (frame * pageSize) j = 0)
    (absent : leafAt root s.mem (indices virt) (ptIndex virt) = none) (use : InUse s.pmm (frame * pageSize)) (new : ¬ base frame)
    (plain : has flags pteHuge = false) :
    Account base root (s.write table (ptIndex virt) (leafEntry (frame * pageSize) flags)) := by
  have deep := lowerPaths_mono (show 3 ≤ 4 by decide)
  have inside := indices_lower lower
  have within : indices virt ++ [ptIndex virt] ∈ lowerPaths 4 := by
    refine ⟨Nat.le_refl 4, fun i member => ?_, inside.2.2⟩
    rcases List.mem_append.mp member with front | last
    · exact inside.2.1 i front
    · rw [List.mem_singleton.mp last]
      exact ptIndex_lt virt
  have unreached {a : Nat} (reached : TableOf 4 root s.mem a) : a ≠ frame * pageSize := by
    rintro rfl
    exact account.apart _ reached (Or.inr (page_frame frame))
  have other : frame * pageSize ≠ table := fun same => unreached ⟨_, deep inside, at_⟩ same.symm
  have gap : tableStep s.mem table (ptIndex virt) = none := by
    rw [leafAt, at_, Option.bind_some] at absent
    unfold tableStep
    split at absent
    · cases absent
    · rename_i missing
      rw [if_neg missing]
  have step : tableStep (s.write table (ptIndex virt) (leafEntry (frame * pageSize) flags)).mem table (ptIndex virt) =
      some (frame * pageSize) := by
    rw [tableStep, write_same, leafEntry_present, leafEntry_addr flags use.aligned]
    rfl
  have leaf (j : Nat) : tableStep (s.write table (ptIndex virt) (leafEntry (frame * pageSize) flags)).mem (frame * pageSize) j = none := by
    have zero : (s.write table (ptIndex virt) (leafEntry (frame * pageSize) flags)).mem (frame * pageSize) j = 0 := by
      rw [write_mem, if_neg fun both => other both.1, blank]
    rw [tableStep, zero]
    rfl
  have same (c j : Nat) (_ : TableOf 4 root s.mem c) (apart : ¬ (c = table ∧ j = ptIndex virt)) :
      tableStep (s.write table (ptIndex virt) (leafEntry (frame * pageSize) flags)).mem c j = tableStep s.mem c j := by
    unfold tableStep
    rw [write_mem, if_neg apart]
  have ends {q : List Nat} (member : q ∈ lowerPaths 4) :
      follow (tableStep (s.write table (ptIndex virt) (leafEntry (frame * pageSize) flags)).mem) root q =
        if q = indices virt ++ [ptIndex virt] then some (frame * pageSize) else follow (tableStep s.mem) root q :=
    follow_graft (lowerPaths_closed 4) account.tabled.unshared (deep inside) at_ gap step leaf same member
  have before : follow (tableStep s.mem) root (indices virt ++ [ptIndex virt]) = none := by
    rw [follow_concat, at_]
    exact gap
  have shallow {q : List Nat} (member : q ∈ lowerPaths 3) :
      follow (tableStep (s.write table (ptIndex virt) (leafEntry (frame * pageSize) flags)).mem) root q =
        follow (tableStep s.mem) root q := by
    rw [ends (deep member), if_neg]
    rintro rfl
    exact absurd member.1 (by simp [indices])
  have reached {a : Nat} : TableOf 4 root (s.write table (ptIndex virt) (leafEntry (frame * pageSize) flags)).mem a ↔
      a = frame * pageSize ∨ TableOf 4 root s.mem a := by
    constructor
    · rintro ⟨q, member, ends'⟩
      rw [ends member] at ends'
      split at ends'
      · exact Or.inl (Option.some.inj ends').symm
      · exact Or.inr ⟨q, member, ends'⟩
    · rintro (rfl | ⟨q, member, old⟩)
      · exact ⟨_, within, by rw [ends within, if_pos rfl]⟩
      · refine ⟨q, member, ?_⟩
        rw [ends member, if_neg, old]
        rintro rfl
        exact absurd (before.symm.trans old) (by simp)
  constructor
  · constructor
    · exact account.tabled.pmm
    · exact account.tabled.unshared.graft (fun reached => unreached reached rfl) fun q member => ends member
    · intro q c i member ends' there
      rw [shallow (lowerPaths_closed 3 q i member)] at ends'
      have above := account.tabled.above_leaves (by decide) member ends' inside (indices_length virt) at_
      rw [write_mem, if_neg fun both => above both.1.symm] at there ⊢
      exact account.tabled.plain q c i member ends' there
    · intro a member
      rcases reached.mp member with rfl | old
      · exact use
      · exact account.tabled.held a old
  · intro f
    rw [reached, page_inj]
    refine (account.owns f).trans ?_
    tauto
  · intro a member others
    rcases reached.mp member with rfl | old
    · rw [page_frame] at others
      exact new others
    · exact account.apart a old (Or.inl others)
  · intro p member whole i e found
    rw [leafAt, shallow member] at found
    obtain ⟨c, at', entry⟩ := Option.bind_eq_some_iff.mp found
    by_cases here : c = table ∧ i = ptIndex virt
    · rw [write_mem, if_pos here, leafEntry_present] at entry
      rw [← Option.some.inj entry, leafEntry_huge]
      exact plain
    · rw [write_mem, if_neg here] at entry
      refine account.small p member whole i e ?_
      rw [leafAt, at', Option.bind_some]
      exact entry

end Accounts

section Frees
variable {s : Vm} {a : Nat}

theorem InUse.frame_low (use : InUse s.pmm a) (high : lowFrames ≤ a / pageSize) : a ≠ 0 := by
  rintro rfl
  exact absurd high (by decide)

theorem freePage_test (use : InUse s.pmm a) (high : lowFrames ≤ a / pageSize) (f : Nat) :
    (s.freePage a).pmm.frameBitmap.test f = (!decide (f = a / pageSize) && s.pmm.frameBitmap.test f) := by
  refine (freePages_test (use.frame_low high) f).trans ?_
  congr 2
  apply decide_eq_decide.mpr
  have tracked := use.tracked
  omega

/-- Every free was of an allocated frame that was free when the run began. -/
def Clean (start : Bitmap) (s : Vm) : Prop := ∀ e ∈ s.frees, e.2 = true ∧ start.test e.1 = false

theorem freePage_clean {start : Bitmap} (clean : Clean start s) (use : InUse s.pmm a) (ours : start.test (a / pageSize) = false) :
    Clean start (s.freePage a) := by
  intro e member
  rcases List.mem_cons.mp member with rfl | old
  · exact ⟨use.taken, ours⟩
  · exact clean e old

theorem drop_account {base : Nat → Prop} {root frame : Nat} (account : Account (fun f => base f ∨ f = frame) root s)
    (use : InUse s.pmm (frame * pageSize)) (high : lowFrames ≤ frame) (new : ¬ base frame) :
    Account base root (s.freePage (frame * pageSize)) := by
  have above : lowFrames ≤ frame * pageSize / pageSize := by
    rw [page_frame]
    exact high
  have test (f : Nat) := freePage_test use above f
  rw [page_frame] at test
  have unreached : ¬ TableOf 4 root s.mem (frame * pageSize) := fun reached =>
    account.apart _ reached (Or.inr (page_frame frame))
  constructor
  · refine ⟨freePages_sound account.tabled.pmm above, account.tabled.unshared, account.tabled.plain, fun a reached => ?_⟩
    have old : TableOf 4 root s.mem a := reached
    obtain ⟨aligned, taken, tracked⟩ := account.tabled.held a old
    have other : a / pageSize ≠ frame := by
      intro same
      have page := account.page old
      rw [same] at page
      rw [← page] at old
      exact unreached old
    refine ⟨aligned, ?_, ?_⟩
    · rw [test, decide_eq_false other, taken]
      rfl
    · exact Nat.lt_of_lt_of_eq tracked (freePages_frames s.pmm _ 1).symm
  · intro f
    change _ ↔ base f ∨ TableOf 4 root s.mem (f * pageSize)
    rw [test, Bool.and_eq_true, account.owns]
    by_cases same : f = frame
    · rw [same]
      simp [new, unreached]
    · simp [same]
  · exact fun a reached others => account.apart a reached (Or.inl others)
  · exact account.small

end Frees

/-- A call of vmm_alloc_at. -/
structure AllocCall where
  virt : Nat
  size : Nat
  flags : Nat

/-- A range of the lower half, and flags among PRESENT, WRITE, USER and NX. -/
def AllocCall.Allowed (c : AllocCall) : Prop :=
  c.virt + c.size ≤ lowerHalf ∧ c.flags &&& (ptePresent ||| pteWrite ||| pteUser ||| pteNx) = c.flags

/-- The calls of one owner, who goes on after one that failed. -/
def allocAll (s : Vm) (space : AddressSpace) : List AllocCall → Vm × AddressSpace
  | [] => (s, space)
  | c :: rest =>
    let (_, s, space) := vmmAllocAt s space c.virt c.size c.flags
    allocAll s space rest

/-- The life of a space. -/
def lifetime (s : Vm) (memory : Bool) (calls : List AllocCall) : Vm :=
  match vmmCreateSpace s memory with
  | (none, s) => s
  | (some space, s) =>
    let (s, space) := allocAll s space calls
    (vmmDestroySpace s space).2

section Allocation
variable {start : Bitmap} {root : Nat} {s t : Vm} {space space' : AddressSpace} {flags : Nat}

/-- The state of a space between the calls of its owner. -/
structure Kept (start : Bitmap) (kernel : Nat) (space : AddressSpace) (s : Vm) : Prop where
  account : Account (fun f => start.test f = true) space.pml4 s
  clean : Clean start s
  kernel : s.kernelPml4 = kernel
  once : space.refCount = 1

theorem unresolved_absent {base : Nat → Prop} {virt : Nat} (account : Account base space.pml4 s)
    (low : ∀ f, f < lowFrames → base f) (lower : virt < lowerHalf) (unmapped : vmmResolve s space virt = 0) :
    leafAt space.pml4 s.mem (indices virt) (ptIndex virt) = none := by
  rw [vmmResolve_spec account.tabled lower] at unmapped
  cases leaf : leafAt space.pml4 s.mem (indices virt) (ptIndex virt) with
  | none => rfl
  | some e =>
    rw [leaf, leafAddr] at unmapped
    have zero : e &&& pteAddrMask = 0 := (Nat.or_eq_zero_iff.mp unmapped).1
    unfold leafAt at leaf
    obtain ⟨table, at_, entry⟩ := Option.bind_eq_some_iff.mp leaf
    split at entry
    · rename_i present
      cases Option.some.inj entry
      -- the page of the entry would be frame 0, which is not the space's
      have inside := indices_lower lower
      have reached : TableOf 4 space.pml4 s.mem 0 := by
        refine ⟨indices virt ++ [ptIndex virt], ⟨Nat.le_refl 4, fun i member => ?_, inside.2.2⟩, ?_⟩
        · rcases List.mem_append.mp member with front | last
          · exact inside.2.1 i front
          · rw [List.mem_singleton.mp last]
            exact ptIndex_lt virt
        · refine follow_concat_some.mpr ⟨table, at_, ?_⟩
          rw [tableStep, if_pos present, zero]
      exact absurd (low 0 (by decide)) (account.apart 0 reached)
    · cases entry

theorem vmmMap_account {base : Nat → Prop} {frame virt : Nat} {code : Int}
    (account : Account (fun f => base f ∨ f = frame) space.pml4 s) (lower : virt < lowerHalf)
    (blank : ∀ j, s.mem (frame * pageSize) j = 0) (absent : leafAt space.pml4 s.mem (indices virt) (ptIndex virt) = none)
    (use : InUse s.pmm (frame * pageSize)) (new : ¬ base frame) (plain : has flags pteHuge = false)
    (run : vmmMap s space virt (frame * pageSize) flags = (code, t, space')) :
    space'.pml4 = space.pml4 ∧ space'.refCount = space.refCount ∧ t.kernelPml4 = s.kernelPml4 ∧ t.frees = s.frees ∧
      (code ≠ 0 ∧ Account (fun f => base f ∨ f = frame) space.pml4 t ∧ InUse t.pmm (frame * pageSize) ∨
        code = 0 ∧ Account base space.pml4 t) := by
  unfold vmmMap at run
  obtain ⟨r, u, walked⟩ : ∃ r u, walk s space (pageAlignDown virt) true flags = (r, u) := ⟨_, _, rfl⟩
  obtain ⟨grows, arrives, -⟩ := walk_spec account.tabled (by decide) lower true walked
  have account' := extends_account account grows
  have unreached : ¬ TableOf 4 space.pml4 s.mem (frame * pageSize) := fun reached =>
    account.apart _ reached (Or.inr (page_frame frame))
  have use' : InUse u.pmm (frame * pageSize) := by
    refine ⟨use.aligned, ?_, ?_⟩
    · rw [page_frame]
      exact (grows.taken frame).mpr (Or.inl (by simpa [page_frame] using use.taken))
    · rw [grows.frames]
      exact use.tracked
  rw [walked] at run
  cases r with
  | none =>
    simp only [Prod.mk.injEq] at run
    obtain ⟨rfl, rfl, rfl⟩ := run
    exact ⟨rfl, rfl, grows.kernel, grows.frees, Or.inl ⟨by decide, account', use'⟩⟩
  | some table =>
    simp only [Prod.mk.injEq] at run
    obtain ⟨rfl, rfl, rfl⟩ := run
    refine ⟨rfl, rfl, grows.kernel, grows.frees, Or.inr ⟨rfl, ?_⟩⟩
    rw [alignDown_ptIndex, ← leafEntry]
    refine leaf_account account' lower (arrives table rfl).table ?_ ?_ use' new plain
    · intro j
      rw [grows.outside (frame * pageSize) use.taken unreached]
      exact blank j
    · rw [grows.leaf _ (indices_lower lower) (indices_length virt)]
      exact absent

theorem allowed_plain {c : AllocCall} (allowed : c.Allowed) : has (c.flags ||| ptePresent) pteHuge = false := by
  have bit : (ptePresent ||| pteWrite ||| pteUser ||| pteNx).testBit 7 = false := by decide
  have one : ptePresent.testBit 7 = false := by decide
  rw [has_huge, Nat.testBit_or, one, Bool.or_false, ← allowed.2, Nat.testBit_and, bit, Bool.and_false]

theorem allocPagesAt_kept {kernel : Nat} {pages : List Nat} {code : Int} (low : ∀ f, f < lowFrames → start.test f = true)
    (kept : Kept start kernel space s) (lower : ∀ page ∈ pages, page < lowerHalf)
    (plain : has (flags ||| ptePresent) pteHuge = false) (run : allocPagesAt s space flags pages = (code, t, space')) :
    Kept start kernel space' t := by
  induction pages generalizing s space with
  | nil =>
    simp only [allocPagesAt, Prod.mk.injEq] at run
    obtain ⟨-, rfl, rfl⟩ := run
    exact kept
  | cons page rest ih =>
    have later : ∀ page ∈ rest, page < lowerHalf := fun page member => lower page (List.mem_cons_of_mem _ member)
    have here := lower page List.mem_cons_self
    unfold allocPagesAt at run
    split at run
    · exact ih kept later run
    · rename_i unmapped
      rcases allocPage_cases kept.account.tabled.pmm with fails | ⟨frame, claims, available⟩
      · rw [fails] at run
        simp only [if_true, Prod.mk.injEq] at run
        obtain ⟨-, rfl, rfl⟩ := run
        exact kept
      · obtain ⟨aligned, some_, free⟩ := claimed kept.account.tabled.pmm available
        have account := claim_account kept.account available
        have new : ¬ start.test frame = true := fun taken =>
          Bool.false_ne_true (free.symm.trans ((kept.account.owns frame).mpr (Or.inl taken)))
        have use : InUse (claimPage s frame).pmm (frame * pageSize) := by
          refine ⟨aligned, ?_, ?_⟩
          · rw [page_frame, claimPage_test, decide_eq_true rfl, Bool.true_or]
          · rw [page_frame]
            exact available.below
        have absent : leafAt space.pml4 (claimPage s frame).mem (indices page) (ptIndex page) = none := by
          refine unresolved_absent account (fun f first => Or.inl (low f first)) here ?_
          have same := claim_resolve kept.account available here
          rw [same]
          simpa using unmapped
        obtain ⟨mapCode, u, space₂, mapped⟩ : ∃ mapCode u space₂,
          vmmMap (claimPage s frame) space page (frame * pageSize) (flags ||| ptePresent) = (mapCode, u, space₂) := ⟨_, _, _, rfl⟩
        have blank : ∀ j, (claimPage s frame).mem (frame * pageSize) j = 0 := by
          intro j
          change Function.update s.mem (frame * pageSize) (fun _ => 0) (frame * pageSize) j = 0
          rw [Function.update_self]
        obtain ⟨same, count, kernel', frees, outcome⟩ := vmmMap_account account here blank absent use new plain mapped
        have clean : Clean start u := by
          intro e member
          rw [frees] at member
          exact kept.clean e member
        have high : lowFrames ≤ frame := available.above
        rw [claims] at run
        simp only [if_neg some_, mapped] at run
        rcases outcome with ⟨failed, account', use'⟩ | ⟨success, account'⟩
        · rw [if_pos failed] at run
          simp only [Prod.mk.injEq] at run
          obtain ⟨-, rfl, rfl⟩ := run
          refine ⟨?_, freePage_clean clean use' (by rw [page_frame]; simpa using new), kernel'.trans kept.kernel,
            count.trans kept.once⟩
          rw [same]
          exact drop_account account' use' high new
        · rw [if_neg (by simpa using success)] at run
          refine ih ⟨?_, clean, kernel'.trans kept.kernel, count.trans kept.once⟩ later run
          rw [same]
          exact account'

theorem vmmAllocAt_kept {kernel : Nat} {c : AllocCall} {code : Int} (low : ∀ f, f < lowFrames → start.test f = true)
    (kept : Kept start kernel space s) (allowed : c.Allowed)
    (run : vmmAllocAt s space c.virt c.size c.flags = (code, t, space')) : Kept start kernel space' t := by
  refine allocPagesAt_kept low kept (fun page member => ?_) (allowed_plain allowed) run
  have bound : c.virt + c.size ≤ 2 ^ 47 := allowed.1
  obtain ⟨k, inside, rfl⟩ := List.mem_range'.mp member
  have stop : alignUp (wrap64 (c.virt + c.size)) pageSize = (c.virt + c.size + 4095) / 4096 * 4096 := by
    have eq : alignUp (wrap64 (c.virt + c.size)) pageSize = wrap64 (wrap64 (c.virt + c.size) + 4096 - 1) / 4096 * 4096 :=
      alignUp_eq (k := 12) (by decide)
    rw [eq, wrap64_of_lt (n := c.virt + c.size) (by omega), wrap64_of_lt (by omega)]
    rfl
  rw [stop] at inside
  change c.virt / 4096 * 4096 + 4096 * k < 2 ^ 47
  change k < ((c.virt + c.size + 4095) / 4096 * 4096 - c.virt / 4096 * 4096) / 4096 at inside
  omega

theorem allocAll_kept {kernel : Nat} {calls : List AllocCall} (low : ∀ f, f < lowFrames → start.test f = true)
    (kept : Kept start kernel space s) (allowed : ∀ c ∈ calls, c.Allowed) :
    Kept start kernel (allocAll s space calls).2 (allocAll s space calls).1 := by
  induction calls generalizing s space with
  | nil => exact kept
  | cons c rest ih =>
    obtain ⟨code, t, space', run⟩ : ∃ code t space', vmmAllocAt s space c.virt c.size c.flags = (code, t, space') := ⟨_, _, _, rfl⟩
    have next := vmmAllocAt_kept low kept (allowed c List.mem_cons_self) run
    have rest' := ih next fun d member => allowed d (List.mem_cons_of_mem _ member)
    simpa [allocAll, run] using rest'

end Allocation

/-- The frames that free_table frees, in its order. -/
def tableFrames (mem : Memory) (table : Nat) : Nat → List Nat
  | 0 => []
  | level + 1 => (List.range 512).flatMap fun i =>
      if !has (mem table i) ptePresent || has (mem table i) pteHuge then []
      else tableFrames mem (mem table i &&& pteAddrMask) level ++ [mem table i &&& pteAddrMask]

/-- The frames that vmm_destroy_space frees. -/
def spaceFrames (mem : Memory) (root : Nat) : List Nat :=
  (List.range 256).flatMap (fun i =>
    if !has (mem root i) ptePresent then []
    else tableFrames mem (mem root i &&& pteAddrMask) 3 ++ [mem root i &&& pteAddrMask]) ++ [root]

section Release

theorem foldl_freePage_mem (frames : List Nat) (s : Vm) : (frames.foldl Vm.freePage s).mem = s.mem := by
  induction frames generalizing s with
  | nil => rfl
  | cons a rest ih => exact ih (s.freePage a)

/-- A loop whose rounds each free a list, chosen by the tables, frees the lists one after the other. -/
theorem foldl_flatMap_free {round : Vm → Nat → Vm} (frames : Memory → Nat → List Nat)
    (rounds : ∀ s i, round s i = (frames s.mem i).foldl Vm.freePage s) (is : List Nat) (s : Vm) :
    is.foldl round s = (is.flatMap (frames s.mem)).foldl Vm.freePage s := by
  induction is generalizing s with
  | nil => rfl
  | cons i rest ih =>
    rw [List.foldl_cons, rounds, ih, foldl_freePage_mem, List.flatMap_cons, List.foldl_append]

theorem freeTable_eq (s : Vm) (table level : Nat) : freeTable s table level = (tableFrames s.mem table level).foldl Vm.freePage s := by
  induction level generalizing s table with
  | zero => rfl
  | succ level ih =>
    unfold freeTable tableFrames
    refine foldl_flatMap_free (fun mem i => if !has (mem table i) ptePresent || has (mem table i) pteHuge then []
      else tableFrames mem (mem table i &&& pteAddrMask) level ++ [mem table i &&& pteAddrMask]) (fun s i => ?_) _ s
    simp only
    split
    · rfl
    · rw [ih, List.foldl_append]
      rfl

theorem vmmDestroySpace_eq {s : Vm} {space : AddressSpace} (other : space.pml4 ≠ s.kernelPml4) (once : space.refCount = 1) :
    vmmDestroySpace s space = (none, (spaceFrames s.mem space.pml4).foldl Vm.freePage s) := by
  unfold vmmDestroySpace spaceFrames
  rw [if_neg other, once, if_neg (by decide), List.foldl_append]
  simp only [Prod.mk.injEq, true_and, List.foldl_cons, List.foldl_nil]
  congr 1
  refine foldl_flatMap_free (fun mem i => if !has (mem space.pml4 i) ptePresent then []
    else tableFrames mem (mem space.pml4 i &&& pteAddrMask) 3 ++ [mem space.pml4 i &&& pteAddrMask]) (fun s i => ?_) _ s
  split
  · rfl
  · rw [freeTable_eq, List.foldl_append]
    rfl

theorem foldl_freePage_spec {start : Bitmap} {frames : List Nat} {s : Vm} (once : frames.Nodup)
    (use : ∀ a ∈ frames, InUse s.pmm a ∧ lowFrames ≤ a / pageSize ∧ start.test (a / pageSize) = false) (clean : Clean start s) :
    (∀ f, (frames.foldl Vm.freePage s).pmm.frameBitmap.test f = (!decide (f * pageSize ∈ frames) && s.pmm.frameBitmap.test f)) ∧
      Clean start (frames.foldl Vm.freePage s) := by
  induction frames generalizing s with
  | nil =>
    refine ⟨fun f => ?_, clean⟩
    simp
  | cons a rest ih =>
    obtain ⟨notIn, once'⟩ := List.nodup_cons.mp once
    obtain ⟨here, high, ours⟩ := use a List.mem_cons_self
    have test := freePage_test here high
    have page {b : Nat} (aligned : Aligned b) : b / pageSize * pageSize = b := Nat.div_mul_cancel (Nat.dvd_of_mod_eq_zero aligned.1)
    have use' : ∀ b ∈ rest, InUse (s.freePage a).pmm b ∧ lowFrames ≤ b / pageSize ∧ start.test (b / pageSize) = false := by
      intro b member
      obtain ⟨⟨aligned, taken, tracked⟩, high', ours'⟩ := use b (List.mem_cons_of_mem _ member)
      have other : b / pageSize ≠ a / pageSize := by
        intro same
        have equal := page aligned
        rw [same, page here.aligned] at equal
        exact notIn (equal ▸ member)
      refine ⟨⟨aligned, ?_, ?_⟩, high', ours'⟩
      · rw [test, decide_eq_false other, taken]
        rfl
      · exact Nat.lt_of_lt_of_eq tracked (freePages_frames s.pmm _ 1).symm
    obtain ⟨tests, clean'⟩ := ih once' use' (freePage_clean clean here ours)
    refine ⟨fun f => ?_, clean'⟩
    rw [List.foldl_cons, tests, test]
    have eq : f = a / pageSize ↔ f * pageSize = a := by
      constructor
      · rintro rfl
        exact page here.aligned
      · rintro rfl
        exact (page_frame f).symm
    rw [← Bool.and_assoc, ← Bool.not_or, ← Bool.decide_or]
    congr 2
    apply decide_eq_decide.mpr
    rw [List.mem_cons, eq]
    exact or_comm

end Release

section Listing
variable {base : Nat → Prop} {root : Nat} {s : Vm}

/-- What lies below a node of the space, at most level steps down. -/
def Below (mem : Memory) (root : Nat) (p : List Nat) (level a : Nat) : Prop :=
  ∃ q, q ≠ [] ∧ p ++ q ∈ lowerPaths (p.length + level) ∧ follow (tableStep mem) root (p ++ q) = some a

theorem Account.entry_small (account : Account base root s) {p : List Nat} {table i : Nat} (inside : p ++ [i] ∈ lowerPaths 4)
    (at_ : follow (tableStep s.mem) root p = some table) (present : has (s.mem table i) ptePresent = true) :
    has (s.mem table i) pteHuge = false := by
  have short := inside.1
  rw [List.length_append, List.length_singleton] at short
  rcases Nat.lt_or_ge p.length 3 with above | last
  · refine account.tabled.plain p table i ⟨?_, inside.2⟩ at_ present
    rw [List.length_append, List.length_singleton]
    omega
  · have whole : p.length = 3 := by omega
    have front := lowerPaths_closed 4 p i inside
    refine account.small p ⟨by omega, front.2⟩ whole i _ ?_
    rw [leafAt, at_, Option.bind_some, if_pos present]

/-- The round for one entry of a table at path p. -/
def entryFrames (mem : Memory) (table level i : Nat) : List Nat :=
  if !has (mem table i) ptePresent then []
  else tableFrames mem (mem table i &&& pteAddrMask) level ++ [mem table i &&& pteAddrMask]

/-- The frames listed below a table are those below it in the trie, each once. -/
structure Lists (mem : Memory) (root : Nat) (p : List Nat) (level : Nat) (frames : List Nat) : Prop where
  once : frames.Nodup
  members : ∀ a, a ∈ frames ↔ Below mem root p level a

theorem entryFrames_lists (account : Account base root s) {p : List Nat} {table level width : Nat}
    (at_ : follow (tableStep s.mem) root p = some table) (depth : p.length + (level + 1) ≤ 4)
    (inside : ∀ i, i < width ↔ p ++ [i] ∈ lowerPaths (p.length + 1))
    (below : ∀ i child, p ++ [i] ∈ lowerPaths (p.length + 1) → follow (tableStep s.mem) root (p ++ [i]) = some child →
      Lists s.mem root (p ++ [i]) level (tableFrames s.mem child level)) :
    Lists s.mem root p (level + 1) ((List.range width).flatMap (entryFrames s.mem table level)) := by
  have step (i : Nat) : follow (tableStep s.mem) root (p ++ [i]) = tableStep s.mem table i := by
    rw [follow_concat, at_]
    rfl
  -- each entry's list: the child after what lies below it
  have entry (i : Nat) (low : i < width) : (entryFrames s.mem table level i).Nodup ∧
      ∀ a, a ∈ entryFrames s.mem table level i ↔ ∃ q, p ++ i :: q ∈ lowerPaths (p.length + (level + 1)) ∧
        follow (tableStep s.mem) root (p ++ i :: q) = some a := by
    have here := (inside i).mp low
    have split (q : List Nat) : p ++ i :: q = p ++ [i] ++ q := by simp
    have within : p ++ [i] ∈ lowerPaths (p.length + (level + 1)) := lowerPaths_mono (by omega) here
    unfold entryFrames
    cases present : has (s.mem table i) ptePresent with
    | false =>
      refine ⟨List.nodup_nil, fun a => ?_⟩
      have missing : follow (tableStep s.mem) root (p ++ [i]) = none := by
        rw [step, tableStep, present]
        rfl
      simp only [Bool.not_false, if_true, List.not_mem_nil, false_iff, not_exists, not_and]
      intro q _ ends
      rw [split, follow_append, missing] at ends
      cases ends
    | true =>
      have child : follow (tableStep s.mem) root (p ++ [i]) = some (s.mem table i &&& pteAddrMask) := by
        rw [step, tableStep, present]
        rfl
      obtain ⟨once, members⟩ := below i _ here child
      have length : (p ++ [i]).length + level = p.length + (level + 1) := by
        rw [List.length_append, List.length_singleton]
        omega
      unfold Below at members
      rw [length] at members
      simp only [Bool.not_true, Bool.false_eq_true, if_false]
      refine ⟨?_, fun a => ?_⟩
      · refine List.nodup_append.mpr ⟨once, List.nodup_singleton _, fun a lower b last => ?_⟩
        rw [List.mem_singleton.mp last]
        rintro rfl
        obtain ⟨q, some_, member, ends⟩ := (members _).mp lower
        have same := account.tabled.unshared _ (lowerPaths_mono depth member) _ (lowerPaths_mono depth within) _ ends child
        rw [List.append_right_eq_self] at same
        exact some_ same
      · rw [List.mem_append, List.mem_singleton, members]
        constructor
        · rintro (⟨q, -, member, ends⟩ | rfl)
          · exact ⟨q, by rw [split]; exact member, by rw [split]; exact ends⟩
          · exact ⟨[], within, child⟩
        · rintro ⟨q, member, ends⟩
          rw [split] at member ends
          cases q with
          | nil =>
            rw [List.append_nil] at ends
            exact Or.inr (Option.some.inj (ends.symm.trans child))
          | cons j rest => exact Or.inl ⟨j :: rest, by simp, member, ends⟩
  constructor
  · refine List.nodup_flatMap.mpr ⟨fun i member => (entry i (List.mem_range.mp member)).1, ?_⟩
    refine List.Pairwise.imp_of_mem (fun {i j} first second differ => ?_) List.nodup_range
    intro a one two
    obtain ⟨q, member, ends⟩ := ((entry i (List.mem_range.mp first)).2 a).mp one
    obtain ⟨r, member', ends'⟩ := ((entry j (List.mem_range.mp second)).2 a).mp two
    have same := account.tabled.unshared _ (lowerPaths_mono depth member) _ (lowerPaths_mono depth member') a ends ends'
    exact differ (List.cons.inj (List.append_cancel_left same)).1
  · intro a
    rw [List.mem_flatMap]
    constructor
    · rintro ⟨i, member, found⟩
      obtain ⟨q, within, ends⟩ := ((entry i (List.mem_range.mp member)).2 a).mp found
      exact ⟨i :: q, by simp, within, ends⟩
    · rintro ⟨q, some_, within, ends⟩
      cases q with
      | nil => exact absurd rfl some_
      | cons i rest =>
        have front : p ++ [i] ∈ lowerPaths (p.length + (level + 1)) := by
          have split : p ++ i :: rest = p ++ [i] ++ rest := by simp
          rw [split] at within
          exact (lowerPaths_closed _).front within
        have low := (inside i).mpr ⟨by rw [List.length_append, List.length_singleton], front.2⟩
        exact ⟨i, List.mem_range.mpr low, ((entry i low).2 a).mpr ⟨rest, within, ends⟩⟩

theorem append_lower {p : List Nat} {i : Nat} (inside : p ∈ lowerPaths p.length) (some_ : p ≠ []) :
    i < 512 ↔ p ++ [i] ∈ lowerPaths (p.length + 1) := by
  constructor
  · intro small
    refine ⟨by rw [List.length_append, List.length_singleton], fun j member => ?_, ?_⟩
    · rcases List.mem_append.mp member with front | last
      · exact inside.2.1 j front
      · rw [List.mem_singleton.mp last]
        exact small
    · cases p with
      | nil => exact absurd rfl some_
      | cons j rest => exact inside.2.2
  · exact fun member => member.2.1 i (by simp)

theorem tableFrames_lists (account : Account base root s) {p : List Nat} {table level : Nat} (inside : p ∈ lowerPaths p.length)
    (some_ : p ≠ []) (depth : p.length + level ≤ 4) (at_ : follow (tableStep s.mem) root p = some table) :
    Lists s.mem root p level (tableFrames s.mem table level) := by
  induction level generalizing p table with
  | zero =>
    refine ⟨List.nodup_nil, fun a => ?_⟩
    simp only [tableFrames, List.not_mem_nil, false_iff]
    rintro ⟨q, longer, member, -⟩
    have short := member.1
    rw [List.length_append] at short
    have pos := List.length_pos_iff.mpr longer
    omega
  | succ level ih =>
    have lists := entryFrames_lists account at_ depth (fun i => append_lower inside some_) fun i child within ends => by
      have length : (p ++ [i]).length = p.length + 1 := by rw [List.length_append, List.length_singleton]
      apply ih
      · rw [length]
        exact within
      · simp
      · rw [length]
        omega
      · exact ends
    have same : tableFrames s.mem table (level + 1) = (List.range 512).flatMap (entryFrames s.mem table level) := by
      unfold tableFrames
      refine List.flatMap_congr fun i member => ?_
      unfold entryFrames
      cases present : has (s.mem table i) ptePresent with
      | false => rfl
      | true =>
        have within := (append_lower inside some_).mp (List.mem_range.mp member)
        rw [account.entry_small (lowerPaths_mono (by omega) within) at_ present]
        rfl
    rw [same]
    exact lists

theorem spaceFrames_spec (account : Account base root s) :
    (spaceFrames s.mem root).Nodup ∧ ∀ a, a ∈ spaceFrames s.mem root ↔ TableOf 4 root s.mem a := by
  have lists : Lists s.mem root [] 4 ((List.range 256).flatMap (entryFrames s.mem root 3)) := by
    refine entryFrames_lists account rfl (by decide) (fun i => ?_) fun i child within ends => ?_
    · constructor
      · intro small
        refine ⟨by simp, fun j member => ?_, fun j member => ?_⟩
        · rw [List.mem_singleton.mp member]
          omega
        · cases member
          exact small
      · exact fun member => member.2.2 i rfl
    · exact tableFrames_lists account within (by simp) (by simp) ends
  obtain ⟨once, members⟩ := lists
  have below (a : Nat) : Below s.mem root [] 4 a ↔ ∃ q, q ≠ [] ∧ q ∈ lowerPaths 4 ∧ follow (tableStep s.mem) root q = some a := by
    unfold Below
    simp
  change ((List.range 256).flatMap (entryFrames s.mem root 3) ++ [root]).Nodup ∧
    ∀ a, a ∈ (List.range 256).flatMap (entryFrames s.mem root 3) ++ [root] ↔ _
  constructor
  · refine List.nodup_append.mpr ⟨once, List.nodup_singleton _, fun a inside b last => ?_⟩
    rw [List.mem_singleton.mp last]
    rintro rfl
    obtain ⟨q, some_, member, ends⟩ := (below a).mp ((members a).mp inside)
    exact some_ (account.tabled.unshared q member [] (nil_lowerPaths 4) a ends rfl)
  · intro a
    rw [List.mem_append, List.mem_singleton, members, below]
    constructor
    · rintro (⟨q, -, member, ends⟩ | rfl)
      · exact ⟨q, member, ends⟩
      · exact ⟨[], nil_lowerPaths 4, rfl⟩
    · rintro ⟨q, member, ends⟩
      cases q with
      | nil => exact Or.inr (Option.some.inj ends).symm
      | cons i rest => exact Or.inl ⟨i :: rest, by simp, member, ends⟩

end Listing

section Lifetime
variable {s : Vm} {memory : Bool} {calls : List AllocCall}

theorem createSpace_kept {space : AddressSpace} {t : Vm} (sound : PmmSound s.pmm) (quiet : s.frees = [])
    (run : vmmCreateSpace s memory = (some space, t)) : Kept s.pmm.frameBitmap s.kernelPml4 space t := by
  obtain ⟨frame, available, rfl, rfl⟩ := createSpace_cases sound run
  have tabled := createSpace_tabled 4 sound available
  have only {a : Nat} : TableOf 4 (frame * pageSize) (kernelHalf (claimPage s frame) (frame * pageSize)).mem a ↔ a = frame * pageSize := by
    constructor
    · rintro ⟨p, inside, ends⟩
      exact (createSpace_follow inside ends).2
    · rintro rfl
      exact ⟨[], nil_lowerPaths 4, rfl⟩
  have test (f : Nat) : (kernelHalf (claimPage s frame) (frame * pageSize)).pmm.frameBitmap.test f =
      (decide (f = frame) || s.pmm.frameBitmap.test f) := claimPage_test s frame f
  refine ⟨⟨tabled, fun f => ?_, fun a reached => ?_, fun p inside whole i e leaf => ?_⟩, ?_, rfl, rfl⟩
  · rw [test, only, page_inj, Bool.or_eq_true, decide_eq_true_eq]
    exact or_comm
  · rw [only.mp reached, page_frame, (claimed sound available).free]
    exact Bool.false_ne_true
  · unfold leafAt at leaf
    obtain ⟨c, ends, -⟩ := Option.bind_eq_some_iff.mp leaf
    rw [(createSpace_follow inside ends).1] at whole
    cases whole
  · intro e member
    change e ∈ s.frees at member
    rw [quiet] at member
    cases member

/-- Once a space is gone the allocated frames are what they were before it was
made, and every free was of a frame of the space that was allocated. -/
theorem frames_conserved (sound : PmmSound s.pmm) (kernel : s.kernelPml4 < 0x100000) (quiet : s.frees = [])
    (allowed : ∀ c ∈ calls, c.Allowed) :
    (∀ f, (lifetime s memory calls).pmm.frameBitmap.test f = s.pmm.frameBitmap.test f) ∧
      Clean s.pmm.frameBitmap (lifetime s memory calls) := by
  unfold lifetime
  obtain ⟨made, t, run⟩ : ∃ made t, vmmCreateSpace s memory = (made, t) := ⟨_, _, rfl⟩
  rw [run]
  cases made with
  | none =>
    have same : t = s := by
      unfold vmmCreateSpace at run
      split at run
      · exact (Prod.mk.inj run).2.symm
      · rcases allocPage_cases sound with fails | ⟨frame, claims, available⟩
        · rw [fails] at run
          exact (Prod.mk.inj run).2.symm
        · rw [claims] at run
          simp only [if_neg (claimed sound available).some_] at run
          cases (Prod.mk.inj run).1
    rw [same]
    refine ⟨fun _ => rfl, fun e member => ?_⟩
    rw [quiet] at member
    cases member
  | some space =>
    have kept := allocAll_kept sound.low (createSpace_kept sound quiet run) allowed
    obtain ⟨u, space', calls'⟩ : ∃ u space', allocAll t space calls = (u, space') := ⟨_, _, rfl⟩
    rw [calls'] at kept
    simp only [calls']
    have reachedRoot : TableOf 4 space'.pml4 u.mem space'.pml4 := ⟨[], nil_lowerPaths 4, rfl⟩
    have high {a : Nat} (reached : TableOf 4 space'.pml4 u.mem a) : lowFrames ≤ a / pageSize := by
      by_contra low
      exact kept.account.apart a reached (sound.low _ (Nat.lt_of_not_le low))
    have other : space'.pml4 ≠ u.kernelPml4 := by
      have above : 256 ≤ space'.pml4 / 4096 := high reachedRoot
      rw [kept.kernel]
      omega
    obtain ⟨once, members⟩ := spaceFrames_spec kept.account
    have use : ∀ a ∈ spaceFrames u.mem space'.pml4, InUse u.pmm a ∧ lowFrames ≤ a / pageSize ∧
        s.pmm.frameBitmap.test (a / pageSize) = false := by
      intro a member
      have reached := (members a).mp member
      exact ⟨kept.account.tabled.held a reached, high reached, by simpa using kept.account.apart a reached⟩
    obtain ⟨tests, clean⟩ := foldl_freePage_spec once use kept.clean
    rw [vmmDestroySpace_eq other kept.once]
    refine ⟨fun f => ?_, clean⟩
    have owns := kept.account.owns f
    have apart := kept.account.apart (f * pageSize)
    rw [page_frame] at apart
    rw [tests]
    by_cases ours : f * pageSize ∈ spaceFrames u.mem space'.pml4
    · have reached := (members _).mp ours
      rw [decide_eq_true ours]
      simpa using apart reached
    · have unreached : ¬ TableOf 4 space'.pml4 u.mem (f * pageSize) := fun reached => ours ((members _).mpr reached)
      rw [decide_eq_false ours, Bool.not_false, Bool.true_and, Bool.eq_iff_iff, owns]
      exact or_iff_left unreached

end Lifetime

theorem frames_conserved_two_pages :
    (∀ f, (lifetime blankVm true [{ virt := 0x400000, size := 8192, flags := pteWrite ||| pteUser }]).pmm.frameBitmap.test f =
      blankVm.pmm.frameBitmap.test f) ∧
      Clean blankVm.pmm.frameBitmap (lifetime blankVm true [{ virt := 0x400000, size := 8192, flags := pteWrite ||| pteUser }]) := by
  refine frames_conserved blankPmm_sound (by decide) rfl fun c member => ?_
  rw [List.mem_singleton.mp member]
  exact ⟨by decide, by decide⟩

end Qito.Mm
