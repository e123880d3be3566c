import Qito.Sys.Model
import Qito.Mm.PageMap
import Qito.Vfs.Tree

/-! The pointers of user tasks. user_pointer_ok covers a buffer of known length
whole, but only the first byte of a string; what is touched of a string ends with
its terminator, wherever that is. -/
namespace Qito.Sys
open Faults Packed

/-- No user byte out of reach was touched. -/
def Clean {α : Type} (m : Except Fault α) : Prop := ∀ addr, m ≠ .error (.page addr)

section Rules
variable {α β : Type} {m : Except Fault α} {f : α → Except Fault β}

theorem clean_ok (a : α) : Clean (.ok a : Except Fault α) := fun _ => nofun

theorem clean_pure (a : α) : Clean (pure a : Except Fault α) := clean_ok a

theorem clean_call (o : Option α) : Clean (call o) := by
  cases o with
  | none => exact fun _ => nofun
  | some a => exact clean_ok a

theorem Clean.bind (first : Clean m) (rest : ∀ a, m = .ok a → Clean (f a)) : Clean (m >>= f) := by
  cases m with
  | error e =>
    intro addr fault
    exact first addr (congrArg Except.error (Except.error.inj fault))
  | ok a => exact rest a rfl

theorem Clean.of_bind (whole : Clean (m >>= f)) : Clean m := by
  intro addr fault
  rw [fault] at whole
  exact whole addr rfl

theorem Clean.returns (returns : Returns m) : Clean m := by
  obtain ⟨a, rfl⟩ := returns
  exact clean_ok a

end Rules

theorem resolveFrom_present {mem : Mm.Memory} {virt : Nat} {is : List Nat} {level table : Nat}
    (found : Mm.resolveFrom mem virt level table is ≠ 0) : presentFrom mem virt table is = true := by
  induction is generalizing level table with
  | nil =>
    unfold Mm.resolveFrom at found
    unfold presentFrom
    by_contra absent
    simp [absent] at found
  | cons i rest ih =>
    unfold Mm.resolveFrom at found
    unfold presentFrom
    cases present : Mm.has (mem table i) Mm.ptePresent with
    | false => simp [present] at found
    | true =>
      cases huge : Mm.has (mem table i) Mm.pteHuge with
      | true => rfl
      | false =>
        simp only [present, huge, Bool.not_true, Bool.false_eq_true, if_false] at found
        exact ih found

theorem mapped_of_resolve {vm : Mm.Vm} {space : Mm.AddressSpace} {page : Nat} (found : Mm.vmmResolve vm space page ≠ 0) :
    mapped vm space page = true := resolveFrom_present found

theorem mem_pagesOf {start stop addr : Nat} (low : start ≤ addr) (high : addr < stop) :
    Mm.pageAlignDown addr ∈ pagesOf start stop := by
  unfold pagesOf Mm.pageAlignDown
  rw [List.mem_range']
  refine ⟨addr / 4096 - start / 4096, ?_, ?_⟩
  · change addr / 4096 - start / 4096 < (stop - start / 4096 * 4096 + 4096 - 1) / 4096
    omega
  · change addr / 4096 * 4096 = start / 4096 * 4096 + 4096 * (addr / 4096 - start / 4096)
    omega

section Access
variable {k k' : Kernel}

theorem accessible_congr (vm : k'.vm = k.vm) (task : k'.task = k.task) (addr : Nat) : accessible k' addr = accessible k addr := by
  unfold accessible
  rw [vm, task]

theorem accessible_of_ok {ptr len : Nat} (user : k.task.isKernel = false) (small : len < 2 ^ 64)
    (ok : userPointerOk k ptr len = true) {i : Nat} (inside : i < len) : accessible k (ptr + i) = true := by
  unfold userPointerOk at ok
  simp only [user, Bool.false_eq_true, if_false] at ok
  split at ok
  · cases ok
  split at ok
  · cases ok
  rename_i bounds
  have exact_ : Words.wrap64 (ptr + len) = ptr + len ∧ ptr + len ≤ userTop := by
    unfold Words.wrap64 at bounds ⊢
    have top : userTop = 2 ^ 47 := rfl
    omega
  rw [exact_.1] at ok
  have page := List.all_eq_true.mp ok _ (mem_pagesOf (by omega : ptr ≤ ptr + i) (by omega))
  have there := mapped_of_resolve (bne_iff_ne.mp page)
  have low : ptr + i < userTop := by omega
  simp [accessible, low, there]

theorem readBytes_returns {addr len : Nat} (inside : ∀ i < len, accessible k (addr + i) = true) :
    Returns (readBytes k addr len) := by
  induction len generalizing addr with
  | zero => exact ⟨[], rfl⟩
  | succ len ih =>
    have first : readByte k addr = .ok (k.memory addr) := if_pos (inside 0 (Nat.succ_pos len))
    obtain ⟨bytes, rest⟩ := ih fun i bound => by
      have there := inside (i + 1) (Nat.succ_lt_succ bound)
      rwa [Nat.add_comm i 1, ← Nat.add_assoc] at there
    exact ⟨k.memory addr :: bytes, by rw [readBytes, first, rest]; rfl⟩

theorem writeBytes_returns {addr : Nat} {bytes : Bytes} (inside : ∀ i < bytes.length, accessible k (addr + i) = true) :
    ∃ k', writeBytes k addr bytes = .ok k' ∧ k'.vm = k.vm ∧ k'.task = k.task ∧ k'.fs = k.fs ∧
      ∀ i < bytes.length, k'.memory (addr + i) = bytes.getD i 0 := by
  have go (bytes : Bytes) : ∀ (k : Kernel) (addr : Nat), (∀ i < bytes.length, accessible k (addr + i) = true) →
      ∃ k', writeBytes k addr bytes = .ok k' ∧ k'.vm = k.vm ∧ k'.task = k.task ∧ k'.fs = k.fs ∧
        (∀ i < bytes.length, k'.memory (addr + i) = bytes.getD i 0) ∧ ∀ a < addr, k'.memory a = k.memory a := by
    induction bytes with
    | nil => exact fun k addr _ => ⟨k, rfl, rfl, rfl, rfl, by simp, fun _ _ => rfl⟩
    | cons byte rest ih =>
      intro k addr inside
      have later (i : Nat) (bound : i < rest.length) :
          accessible { k with memory := Function.update k.memory addr byte } (addr + 1 + i) = true := by
        have there := inside (i + 1) (Nat.succ_lt_succ bound)
        rwa [Nat.add_comm i 1, ← Nat.add_assoc] at there
      obtain ⟨k', run, vm, task, fs, stored, kept⟩ := ih _ (addr + 1) later
      refine ⟨k', ?_, vm, task, fs, fun i bound => ?_, fun a below => ?_⟩
      · have first : accessible k addr = true := inside 0 (Nat.succ_pos _)
        rw [writeBytes, if_pos first]
        exact run
      · cases i with
        | zero => exact (kept addr (Nat.lt_succ_self addr)).trans (Function.update_self _ _ _)
        | succ i =>
          have here := stored i (Nat.lt_of_succ_lt_succ bound)
          rw [Nat.add_comm i 1, ← Nat.add_assoc, here]
          rw [Nat.add_comm 1 i]
          rfl
      · exact (kept a (Nat.lt_succ_of_lt below)).trans (Function.update_of_ne (Nat.ne_of_lt below) _ _)
  obtain ⟨k', run, vm, task, fs, stored, -⟩ := go bytes k addr inside
  exact ⟨k', run, vm, task, fs, stored⟩

end Access

/-- The string at addr ends, and lies in the lower half and in mapped pages up to its end. -/
def Terminated (k : Kernel) (addr : Nat) : Prop :=
  ∃ n, k.memory (addr + n) = 0 ∧ ∀ i ≤ n, accessible k (addr + i) = true

section Strings
variable {k : Kernel} {fuel addr : Nat}

theorem stringFrom_terminated {n : Nat} (fits : n < fuel) (ends : k.memory (addr + n) = 0)
    (inside : ∀ i ≤ n, accessible k (addr + i) = true) : Returns (stringFrom k fuel addr) := by
  induction fuel generalizing addr n with
  | zero => exact absurd fits (Nat.not_lt_zero n)
  | succ fuel ih =>
    have first : readByte k addr = .ok (k.memory addr) := if_pos (inside 0 (Nat.zero_le n))
    unfold stringFrom
    rw [first]
    by_cases zero : k.memory addr = 0
    · exact ⟨[], if_pos zero⟩
    · cases n with
      | zero => exact absurd ends zero
      | succ n =>
        have ends' : k.memory (addr + 1 + n) = 0 := by rwa [Nat.add_assoc, Nat.add_comm 1 n]
        obtain ⟨text, run⟩ := ih (Nat.lt_of_succ_lt_succ fits) ends' fun i bound => by
          rw [Nat.add_assoc, Nat.add_comm 1 i]
          exact inside (i + 1) (Nat.succ_le_succ bound)
        refine ⟨k.memory addr :: text, ?_⟩
        change (if k.memory addr = 0 then _ else _) = _
        rw [if_neg zero, run]
        rfl

theorem accessible_low (user : k.task.isKernel = false) (there : accessible k addr = true) : addr < userTop := by
  simp only [accessible, user, Bool.false_or, Bool.and_eq_true, decide_eq_true_eq] at there
  exact there.1

theorem stringFrom_user (user : k.task.isKernel = false) (low : addr ≤ userTop) (enough : userTop < addr + fuel) :
    Terminated k addr ∨ ∃ a, stringFrom k fuel addr = .error (.page a) := by
  induction fuel generalizing addr with
  | zero => omega
  | succ fuel ih =>
    unfold stringFrom
    cases there : accessible k addr with
    | false => exact Or.inr ⟨addr, by simp [readByte, there, bind, Except.bind]⟩
    | true =>
      have first : readByte k addr = .ok (k.memory addr) := if_pos there
      rw [first]
      by_cases zero : k.memory addr = 0
      · refine Or.inl ⟨0, zero, fun i bound => ?_⟩
        rw [Nat.le_zero.mp bound]
        exact there
      · have below := accessible_low user there
        rcases ih (below : addr + 1 ≤ userTop) (by omega) with ⟨n, ends, inside⟩ | ⟨a, fault⟩
        · have next (i : Nat) : addr + 1 + i = addr + (i + 1) := by omega
          refine Or.inl ⟨n + 1, (next n) ▸ ends, fun i bound => ?_⟩
          cases i with
          | zero => exact there
          | succ i => exact (next i) ▸ inside i (Nat.le_of_succ_le_succ bound)
        · refine Or.inr ⟨a, ?_⟩
          change (if k.memory addr = 0 then _ else _) = _
          rw [if_neg zero, fault]
          rfl

/-- strlen of a user string touches only bytes in reach just when the string ends in reach. -/
theorem stringAt_clean (user : k.task.isKernel = false) (low : addr < userTop) : Clean (stringAt k addr) ↔ Terminated k addr := by
  have top : userTop = 2 ^ 47 := rfl
  constructor
  · intro clean
    rcases stringFrom_user user (Nat.le_of_lt low) (by omega : userTop < addr + (2 ^ 64 - addr)) with done | ⟨a, fault⟩
    · exact done
    · exact absurd fault (clean a)
  · rintro ⟨n, ends, inside⟩
    have bound := accessible_low user (inside n (Nat.le_refl n))
    exact Clean.returns (stringFrom_terminated (by omega) ends inside)

end Strings

/-- What a call must find of the strings it is given: nothing if the checks refuse
its pointers, else the end of the string in reach. getcwd reads back what it wrote,
and with a length of 0 it wrote nothing. -/
def StringsEnd (k : Kernel) : Call → Prop
  | .openAt path _ => userPointerOk k path.toNat 1 = true → Terminated k path.toNat
  | .stat path out => userPointerOk k path.toNat 1 = true → userPointerOk k out.toNat statSize = true → Terminated k path.toNat
  | .readdir path _ out =>
    userPointerOk k path.toNat 1 = true → userPointerOk k out.toNat direntSize = true → Terminated k path.toNat
  | .chdir path => userPointerOk k path.toNat 1 = true → Terminated k path.toNat
  | .mkdir path _ => userPointerOk k path.toNat 1 = true → Terminated k path.toNat
  | .unlink path => userPointerOk k path.toNat 1 = true → Terminated k path.toNat
  | .puts text => userPointerOk k text.toNat 1 = true → Terminated k text.toNat
  | .getcwd buf len => len = 0 → userPointerOk k buf.toNat 0 = true → Terminated k buf.toNat
  | .read _ _ _ => True
  | .write _ _ _ => True

section Calls
variable {env : Vfs.Env} {k : Kernel} {α : Type}

theorem ok_low {ptr len : Nat} (user : k.task.isKernel = false) (ok : userPointerOk k ptr len = true) : ptr < userTop := by
  unfold userPointerOk at ok
  simp only [user, Bool.false_eq_true, if_false] at ok
  split at ok
  · cases ok
  split at ok
  · cases ok
  · omega

theorem resolved_clean (user : k.task.isKernel = false) {path : Nat} (ok : userPointerOk k path 1 = true)
    {f : Bytes → Except Fault α} (rest : ∀ resolved, Clean (f resolved)) :
    Clean (resolvedPath k path >>= f) ↔ Terminated k path := by
  rw [← stringAt_clean user (ok_low user ok)]
  constructor
  · exact fun whole => Clean.of_bind (Clean.of_bind whole)
  · intro string
    exact (string.bind fun _ _ => clean_pure _).bind fun _ _ => rest _

theorem guarded_clean {ok : Bool} {code : Int} {m : Except Fault (Int × Kernel)} :
    Clean (if (!ok) = true then pure (code, k) else m) ↔ (ok = true → Clean m) := by
  cases ok with
  | false => exact ⟨fun _ => nofun, fun _ => clean_pure _⟩
  | true => exact ⟨fun clean _ => clean, fun clean => clean rfl⟩

theorem guarded_clean₂ {ok ok' : Bool} {code : Int} {m : Except Fault (Int × Kernel)} :
    Clean (if (!ok || !ok') = true then pure (code, k) else m) ↔ (ok = true → ok' = true → Clean m) := by
  cases ok with
  | false => exact ⟨fun _ => nofun, fun _ => clean_pure _⟩
  | true =>
    cases ok' with
    | false => exact ⟨fun _ _ => nofun, fun _ => clean_pure _⟩
    | true => exact ⟨fun clean _ _ => clean, fun clean => clean rfl rfl⟩

theorem sysOpen_clean (user : k.task.isKernel = false) (path flags : Nat) :
    Clean (sysOpen env k path flags) ↔ (userPointerOk k path 1 = true → Terminated k path) := by
  unfold sysOpen
  rw [guarded_clean]
  refine forall_congr' fun ok => resolved_clean user ok fun resolved => ?_
  apply (clean_call _).bind
  rintro ⟨file, fs⟩ -
  cases file with
  | none => exact clean_pure _
  | some file =>
    simp only
    split
    · exact clean_pure _
    · exact (clean_call _).bind fun _ _ => clean_pure _

theorem sysChdir_clean (user : k.task.isKernel = false) (path : Nat) :
    Clean (sysChdir k path) ↔ (userPointerOk k path 1 = true → Terminated k path) := by
  unfold sysChdir
  rw [guarded_clean]
  refine forall_congr' fun ok => resolved_clean user ok fun resolved => ?_
  apply (clean_call _).bind
  rintro found -
  cases found with
  | none => exact clean_pure _
  | some id =>
    apply (clean_call _).bind
    rintro node -
    split
    · exact clean_pure _
    · exact clean_pure _

theorem sysMkdir_clean (user : k.task.isKernel = false) (path perms : Nat) :
    Clean (sysMkdir env k path perms) ↔ (userPointerOk k path 1 = true → Terminated k path) := by
  unfold sysMkdir
  rw [guarded_clean]
  refine forall_congr' fun ok => resolved_clean user ok fun resolved => ?_
  exact (clean_call _).bind fun _ _ => clean_pure _

theorem sysUnlink_clean (user : k.task.isKernel = false) (path : Nat) :
    Clean (sysUnlink k path) ↔ (userPointerOk k path 1 = true → Terminated k path) := by
  unfold sysUnlink
  rw [guarded_clean]
  refine forall_congr' fun ok => resolved_clean user ok fun resolved => ?_
  exact (clean_call _).bind fun _ _ => clean_pure _

theorem writeBytes_clean {addr : Nat} {bytes : Bytes} (inside : ∀ i < bytes.length, accessible k (addr + i) = true) :
    Clean (writeBytes k addr bytes) := by
  obtain ⟨k', run, -⟩ := writeBytes_returns inside
  exact Clean.returns ⟨k', run⟩

theorem sysStat_clean (user : k.task.isKernel = false) (path out : Nat) : Clean (sysStat env k path out) ↔
    (userPointerOk k path 1 = true → userPointerOk k out statSize = true → Terminated k path) := by
  unfold sysStat
  rw [guarded_clean₂]
  refine forall_congr' fun ok => forall_congr' fun whole => resolved_clean user ok fun resolved => ?_
  apply (clean_call _).bind
  rintro found -
  cases found with
  | none => exact clean_pure _
  | some id =>
    apply (clean_call _).bind
    rintro node -
    apply (clean_call _).bind
    rintro node -
    refine Clean.bind (writeBytes_clean fun i inside => ?_) fun _ _ => clean_pure _
    have bound : i < statSize := by simpa [statBytes] using inside
    exact accessible_of_ok user (by decide) whole bound

theorem fsReaddir_clean {dir : Option Vfs.NodeId} {index : Int} {out : Nat}
    (inside : ∀ i < direntSize, accessible k (out + i) = true) : Clean (fsReaddir env k dir index out) := by
  unfold fsReaddir
  cases dir with
  | none => exact clean_pure _
  | some dir =>
    apply (clean_call _).bind
    rintro node -
    split
    · exact clean_pure _
    apply (clean_call _).bind
    rintro found -
    cases found with
    | none => exact clean_pure _
    | some id =>
      apply (clean_call _).bind
      rintro child -
      have size : direntSize = 80 := rfl
      have named : ∀ i < (Vfs.strlcpy child.name Vfs.fsNameMax ++ [0]).length, accessible k (out + i) = true := by
        intro i bound
        have cut : (Vfs.strlcpy child.name Vfs.fsNameMax).length ≤ 63 := List.length_take_le _ _
        rw [List.length_append, List.length_singleton] at bound
        exact inside i (by omega)
      obtain ⟨k₁, run₁, vm₁, task₁, -⟩ := writeBytes_returns named
      have typed : ∀ i < (pack 4 (typeCode child.type)).length, accessible k₁ (out + 64 + i) = true := by
        intro i bound
        rw [pack_length] at bound
        rw [accessible_congr vm₁ task₁, Nat.add_assoc]
        exact inside (64 + i) (by omega)
      obtain ⟨k₂, run₂, vm₂, task₂, -⟩ := writeBytes_returns typed
      apply (Clean.returns ⟨k₁, run₁⟩).bind
      rintro k₁' same
      cases Except.ok.inj (run₁.symm.trans same)
      apply (Clean.returns ⟨k₂, run₂⟩).bind
      rintro k₂' same'
      cases Except.ok.inj (run₂.symm.trans same')
      apply (clean_call _).bind
      rintro child' -
      refine Clean.bind (writeBytes_clean fun i bound => ?_) fun _ _ => clean_pure _
      rw [pack_length] at bound
      rw [Nat.add_assoc]
      have there := inside (72 + i) (by omega)
      rw [← accessible_congr vm₁ task₁, ← accessible_congr vm₂ task₂] at there
      exact there

theorem sysReaddir_clean (user : k.task.isKernel = false) (path : Nat) (index : Int) (out : Nat) :
    Clean (sysReaddir env k path index out) ↔
      (userPointerOk k path 1 = true → userPointerOk k out direntSize = true → Terminated k path) := by
  unfold sysReaddir
  rw [guarded_clean₂]
  refine forall_congr' fun ok => forall_congr' fun whole => resolved_clean user ok fun resolved => ?_
  apply (clean_call _).bind
  rintro found -
  exact fsReaddir_clean fun i bound => accessible_of_ok user (by decide) whole bound

theorem stringFrom_inside {fuel addr : Nat} {text : Bytes} (run : stringFrom k fuel addr = .ok text) :
    ∀ i < text.length, accessible k (addr + i) = true := by
  induction fuel generalizing addr text with
  | zero => cases run
  | succ fuel ih =>
    obtain ⟨byte, first, rest⟩ := bind_ok.mp run
    have there : accessible k addr = true := by
      by_contra out
      rw [readByte, if_neg out] at first
      cases first
    split at rest
    · cases Except.ok.inj rest
      exact fun i bound => absurd bound (Nat.not_lt_zero i)
    · obtain ⟨tail, more, whole⟩ := bind_ok.mp rest
      cases Except.ok.inj whole
      intro i bound
      cases i with
      | zero => exact there
      | succ i =>
        have later := ih more i (Nat.lt_of_succ_lt_succ bound)
        rwa [Nat.add_assoc, Nat.add_comm 1 i] at later

theorem sysPuts_clean (user : k.task.isKernel = false) (text : Nat) :
    Clean (sysPuts k text) ↔ (userPointerOk k text 1 = true → Terminated k text) := by
  unfold sysPuts
  rw [guarded_clean]
  refine forall_congr' fun ok => ?_
  rw [← stringAt_clean user (ok_low user ok)]
  refine ⟨fun whole => Clean.of_bind whole, fun string => string.bind fun bytes run => ?_⟩
  exact (Clean.returns (readBytes_returns (stringFrom_inside run))).bind fun _ _ => clean_pure _

theorem sysGetcwd_clean (user : k.task.isKernel = false) {buf len : Nat} (small : len < 2 ^ 64) :
    Clean (sysGetcwd k buf len) ↔ (len = 0 → userPointerOk k buf 0 = true → Terminated k buf) := by
  unfold sysGetcwd
  rw [guarded_clean]
  by_cases empty : len = 0
  · subst empty
    constructor
    · intro clean _ ok
      rw [← stringAt_clean user (ok_low user ok)]
      exact Clean.of_bind (clean ok)
    · intro ends ok
      have string := (stringAt_clean user (ok_low user ok)).mpr (ends rfl ok)
      exact Clean.bind (clean_pure k) fun k' same => by
        cases Except.ok.inj same
        exact string.bind fun _ _ => clean_pure _
  · refine ⟨fun _ zero => absurd zero empty, fun _ ok => ?_⟩
    rw [if_neg empty]
    have fits : (Vfs.strlcpy k.task.cwd len ++ [0]).length ≤ len := by
      have cut : (Vfs.strlcpy k.task.cwd len).length ≤ len - 1 := List.length_take_le _ _
      rw [List.length_append, List.length_singleton]
      omega
    have room : ∀ i < (Vfs.strlcpy k.task.cwd len ++ [0]).length, accessible k (buf + i) = true :=
      fun i bound => accessible_of_ok user small ok (Nat.lt_of_lt_of_le bound fits)
    obtain ⟨k', run, vm, task, -, stored⟩ := writeBytes_returns room
    apply (Clean.returns ⟨k', run⟩).bind
    intro k'' same
    cases Except.ok.inj (run.symm.trans same)
    -- strlcpy has put a terminator into the buffer
    have ends : Terminated k' buf := by
      refine ⟨(Vfs.strlcpy k.task.cwd len).length, ?_, fun i bound => ?_⟩
      · rw [stored _ (by simp)]
        simp
      · rw [accessible_congr vm task]
        rw [List.length_append, List.length_singleton] at fits
        exact accessible_of_ok user small ok (by omega)
    have user' : k'.task.isKernel = false := by
      rw [task]
      exact user
    exact ((stringAt_clean user' (ok_low user ok)).mpr ends).bind fun _ _ => clean_pure _

theorem readData_length {node : Vfs.FsNode} {offset len : Nat} {bytes : Bytes}
    (run : Vfs.readData node offset len = some bytes) : bytes.length ≤ len := by
  unfold Vfs.readData at run
  split at run
  · cases Option.some.inj run
    exact Nat.zero_le len
  · simp only at run
    split at run
    · cases run
    · cases Option.some.inj run
      rw [Vfs.slice, List.length_map, List.length_range]
      exact Nat.min_le_left _ _

theorem opsRead_length {node : Vfs.FsNode} {offset len : Nat} {bytes : Bytes}
    (run : Vfs.opsRead env node offset len = some (some bytes)) : bytes.length ≤ len := by
  unfold Vfs.opsRead at run
  split at run
  case h_1 => cases run
  case h_2 =>
    cases Option.some.inj (Option.some.inj run)
    exact Nat.zero_le len
  case h_3 =>
    cases Option.some.inj (Option.some.inj run)
    rw [List.length_replicate]
  case h_4 | h_5 | h_6 | h_7 =>
    cases Option.some.inj (Option.some.inj run)
    exact List.length_take_le _ _
  case h_8 => exact readData_length (Option.some.inj run)

theorem fsRead_length {s t : Vfs.FsState} {file : Vfs.FileId} {len : Nat} {code : Int} {bytes : Bytes}
    (run : Vfs.fsRead env s file len = some (code, bytes, t)) : bytes.length ≤ len := by
  obtain ⟨f, -, rest⟩ := Option.bind_eq_some_iff.mp run
  split at rest
  · cases Option.some.inj rest
    exact Nat.zero_le len
  obtain ⟨n, -, rest⟩ := Option.bind_eq_some_iff.mp rest
  obtain ⟨m, -, rest⟩ := Option.bind_eq_some_iff.mp rest
  simp only at rest
  split at rest
  · rename_i entry
    obtain ⟨got, reads, rest⟩ := Option.bind_eq_some_iff.mp rest
    cases Option.some.inj rest
    exact opsRead_length (entry.trans (congrArg some reads))
  split at rest
  · cases Option.some.inj rest
    exact Nat.zero_le len
  obtain ⟨got, reads, rest⟩ := Option.bind_eq_some_iff.mp rest
  split at rest
  · cases Option.some.inj rest
    exact Nat.zero_le len
  · cases Option.some.inj rest
    exact readData_length reads

theorem sysRead_clean (user : k.task.isKernel = false) (fd : Int) {buf len : Nat} (small : len < 2 ^ 64) :
    Clean (sysRead env k fd buf len) := by
  unfold sysRead
  rw [guarded_clean]
  intro ok
  split
  · refine Clean.bind (writeBytes_clean fun i bound => ?_) fun _ _ => clean_pure _
    exact accessible_of_ok user small ok (Nat.lt_of_lt_of_le bound (List.length_take_le _ _))
  · apply (clean_call _).bind
    rintro ⟨got, bytes, fs⟩ run
    have within : bytes.length ≤ len := by
      cases reads : Vfs.fsRead env k.fs _ len with
      | none =>
        rw [reads] at run
        cases run
      | some result =>
        rw [reads] at run
        cases Except.ok.inj run
        exact fsRead_length reads
    refine Clean.bind (writeBytes_clean fun i bound => ?_) fun _ _ => clean_pure _
    exact accessible_of_ok user small ok (Nat.lt_of_lt_of_le bound within)
  · exact clean_pure _

theorem sysWrite_clean (user : k.task.isKernel = false) (fd : Int) {buf len : Nat} (small : len < 2 ^ 64) :
    Clean (sysWrite env k fd buf len) := by
  unfold sysWrite
  rw [guarded_clean]
  intro ok
  have bytes := Clean.returns (readBytes_returns fun i bound => accessible_of_ok user small ok bound)
  split
  · exact bytes.bind fun _ _ => clean_pure _
  · exact bytes.bind fun _ _ => (clean_call _).bind fun _ _ => clean_pure _
  · exact clean_pure _

end Calls

/-- A call of a user task touches no byte out of its reach just when the strings
it is given end in reach. -/
theorem pointers_safe_iff (env : Vfs.Env) {k : Kernel} (user : k.task.isKernel = false) (call : Call) :
    (∀ addr, dispatch env k call ≠ .error (.page addr)) ↔ StringsEnd k call := by
  cases call with
  | openAt path flags => exact sysOpen_clean user path.toNat flags.toNat
  | stat path out => exact sysStat_clean user path.toNat out.toNat
  | readdir path index out => exact sysReaddir_clean user path.toNat index.toInt out.toNat
  | chdir path => exact sysChdir_clean user path.toNat
  | mkdir path perms => exact sysMkdir_clean user path.toNat perms.toNat
  | unlink path => exact sysUnlink_clean user path.toNat
  | puts text => exact sysPuts_clean user text.toNat
  | getcwd buf len =>
    have zero : len.toNat = 0 ↔ len = 0 := ⟨fun same => UInt64.toNat_inj.mp same, fun same => congrArg _ same⟩
    refine (sysGetcwd_clean user len.toNat_lt).trans ?_
    rw [zero]
    exact Iff.rfl
  | read fd buf len => exact iff_of_true (sysRead_clean user fd.toInt len.toNat_lt) trivial
  | write fd buf len => exact iff_of_true (sysWrite_clean user fd.toInt len.toNat_lt) trivial

/-- A user task that sees one page, at 0x1000. -/
def onePage (memory : Nat → UInt8) : Kernel where
  fs := Vfs.bareFs
  vm := { Mm.blankVm with mem := fun table i =>
    if table = 0x4000 then (if i = 1 then 0x5007 else 0) else if i = 0 ∧ table < 0x4000 then table + 0x1007 else 0 }
  memory := memory
  task :=
    { isKernel := false
      space := { pml4 := 0x1000, refCount := 1, mappedPages := 1 }
      cwd := [47]
      fds := fun _ => none }

/-- A string of one letter that ends with the page. -/
theorem pointers_safe_one_letter : (onePage fun a => if a = 0x1FFF then 0 else 97).task.isKernel = false ∧
    ∀ addr, dispatch Vfs.bootEnv (onePage fun a => if a = 0x1FFF then 0 else 97) (.puts 0x1FFE) ≠ .error (.page addr) := by
  refine ⟨rfl, (pointers_safe_iff Vfs.bootEnv (by rfl) (.puts 0x1FFE)).mpr ?_⟩
  rintro -
  refine ⟨1, by decide, ?_⟩
  decide

/-- A string that runs on into the next page, of which only the first byte was checked. -/
theorem puts_leaves_page :
    (onePage fun _ => 97).task.isKernel = false ∧ userPointerOk (onePage fun _ => 97) 0x1FFF 1 = true ∧
    mapped (onePage fun _ => 97).vm (onePage fun _ => 97).task.space 0x2000 = false ∧
    dispatch Vfs.bootEnv (onePage fun _ => 97) (.puts 0x1FFF) = .error (.page 0x2000) ∧
    ¬ ∀ (env : Vfs.Env) (k : Kernel), k.task.isKernel = false → ∀ (call : Call) (addr : Nat),
      dispatch env k call ≠ .error (.page addr) := by
  have touched : (match dispatch Vfs.bootEnv (onePage fun _ => 97) (.puts 0x1FFF) with
      | .error fault => some fault
      | .ok _ => none) = some (.page 0x2000) := by decide
  have fault : dispatch Vfs.bootEnv (onePage fun _ => 97) (.puts 0x1FFF) = .error (.page 0x2000) := by
    cases run : dispatch Vfs.bootEnv (onePage fun _ => 97) (.puts 0x1FFF) with
    | error e =>
      rw [run] at touched
      exact congrArg Except.error (Option.some.inj touched)
    | ok result =>
      rw [run] at touched
      cases touched
  exact ⟨rfl, by decide, by decide, fault, fun safe => safe _ _ rfl _ _ fault⟩

end Qito.Sys
