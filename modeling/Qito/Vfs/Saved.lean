import Qito.Vfs.WholeFile

/-! What fs_read_file gives after fs_write_file. -/
namespace Qito.Vfs
open Buffers Words

/-- The path leads nowhere, to a directory or to a regular file in memory. -/
def Ordinary (s : FsState) (path : Bytes) : Prop :=
  ∀ id n, fsLookup s path = some (some id) → s.nodes id = some n → n.type = .dir ∨ n.body.Regular

section Saved
variable {env : Env} {s t : FsState} {kids : NodeId → List NodeId} {path buf : Bytes}

theorem overlay_contents (data : Nat → UInt8) (buf : Bytes) : bytes (overlay data 0 buf) buf.length = buf := by
  apply List.ext_getElem
  · rw [bytes_length]
  · intro i left right
    simp [bytes, overlay, right]

theorem ensureCapacity_error {n m : FsNode} {needed : Nat} {code : Int} (run : ensureCapacity env n needed = some (code, m))
    (failed : code ≠ 0) : code < 0 := by
  unfold ensureCapacity at run
  split at run
  · cases Option.some.inj run
    exact absurd rfl failed
  · obtain ⟨capacity, -, rest⟩ := Option.bind_eq_some_iff.mp run
    split at rest
    · cases Option.some.inj rest
      decide
    · cases Option.some.inj rest
      exact absurd rfl failed

theorem fsWrite_content {h : FileId} {id : NodeId} {n : FsNode} {flags : Nat} {code : Int}
    (handle : s.files h = some { node := id, offset := 0, flags := flags, refs := 1 }) (live : s.nodes id = some n)
    (writable : has flags (oWronly ||| oRdwr) = true) (start : has flags oAppend = false) (regular : n.body.Regular)
    (empty : n.size = 0) (short : buf.length < 2 ^ 62) (run : fsWrite env s h buf = some (code, t)) (done : 0 ≤ code) :
    ∃ m, t.nodes id = some m ∧ m.body.Regular ∧ m.contents = buf := by
  have memory : n.ops = none := regular.2
  have file : n.type = .file := regular.1
  have small : wrap64 buf.length = buf.length := wrap64_of_lt (by omega)
  simp only [fsWrite, handle, live, writable, memory, file, start, opsWrites, Option.bind_eq_bind, Option.bind_some, Nat.zero_add,
    small, reduceCtorEq, Bool.not_true, Bool.false_eq_true, if_false] at run
  obtain ⟨⟨error, m⟩, grows, rest⟩ := Option.bind_eq_some_iff.mp run
  have frame := ensureCapacity_frame grows
  have size := (ensureCapacity_body grows).2.2.2.2.1
  dsimp only at rest
  split at rest
  · rename_i failed
    cases Option.some.inj rest
    exact absurd done (Int.not_le.mpr (ensureCapacity_error grows failed))
  · split at rest
    · cases rest
    · cases Option.some.inj rest
      refine ⟨{ m with data := overlay m.data 0 buf, size := max m.size buf.length, modified := env.now }, ?_, ?_, ?_⟩
      · simp [putNode, setNode, setFile, live]
      · exact ⟨(congrArg (fun f => f.1.type) frame).trans file, (congrArg Prod.snd frame).trans memory⟩
      · rw [contents_node]
        change bytes (overlay m.data 0 buf) (max m.size buf.length) = buf
        rw [size, empty, Nat.zero_max]
        exact overlay_contents m.data buf

theorem fsOpen_emptied (tree : Tree s kids) (fits : Fits s) (plain : Plain path) (ordinary : Ordinary s path) {h : FileId}
    (run : fsOpen env s path (oWronly ||| oCreate ||| oTrunc) = some (some h, t)) :
    ∃ kids' id n, Tree t kids' ∧ Fits t ∧ fsLookup t path = some (some id) ∧ t.nodes id = some n ∧ n.body.Regular ∧ n.size = 0 ∧
      t.files h = some { node := id, offset := 0, flags := oWronly ||| oCreate ||| oTrunc, refs := 1 } := by
  obtain ⟨got, u, kids', run', tree', keeps, fits', -⟩ := fsOpen_spec env tree fits plain (oWronly ||| oCreate ||| oTrunc) (by decide)
  obtain ⟨rfl, rfl⟩ := Prod.mk.inj (Option.some.inj (run.symm.trans run'))
  -- a regular file that was opened has lost its bytes
  have emptied {v : FsState} {id : NodeId} {n : FsNode} (regular : n.body.Regular)
      (opened : Opened env v id n (oWronly ||| oCreate ||| oTrunc) (some h) t) :
      ∃ m, t.nodes id = some m ∧ m.body.Regular ∧ m.size = 0 ∧
        t.files h = some { node := id, offset := 0, flags := oWronly ||| oCreate ||| oTrunc, refs := 1 } := by
    have cut : truncated (oWronly ||| oCreate ||| oTrunc) n = { n with size := 0 } := by
      have file : n.type = .file := regular.1
      simp [truncated, file, has]
    obtain ⟨m, here, body⟩ := live_of_body (show bodies t id = some (truncated _ n).body by rw [opened.table, Function.update_self])
    rw [cut] at body
    refine ⟨m, here, ?_, congrArg Body.size body, ?_⟩
    · rw [body]
      exact regular
    · rcases opened.handle with ⟨-, none_, -⟩ | ⟨given, -, files⟩
      · cases none_
      · cases Option.some.inj given
        rw [files, Function.update_self]
        rfl
  rcases fsOpen_cases run with ⟨none_, -⟩ | ⟨id, n, search, -, live, admitted, opened⟩ |
    ⟨v, n, -, create, created, live, body, ⟨none_, -⟩ | ⟨-, opened⟩⟩
  · cases none_
  · have regular : n.body.Regular := by
      rcases ordinary id n search live with dir | regular
      · exact absurd (admitted.noDirWrite dir) (by decide)
      · exact regular
    obtain ⟨m, here, regular', size, file⟩ := emptied regular opened
    exact ⟨kids', id, m, tree', fits', keeps.toPlaces.lookup tree tree' search, here, regular', size, file⟩
  · cases none_
  · have regular : n.body.Regular := by
      rw [body]
      exact (newBody_empty env).2
    obtain ⟨m, here, regular', size, file⟩ := emptied regular opened
    have unborn : s.nodes s.nextInode = none := by
      cases live' : s.nodes s.nextInode with
      | none => rfl
      | some k => exact absurd (tree.fresh _ k.shape (shapes_live live')) (Nat.lt_irrefl _)
    obtain ⟨q, member, search⟩ := keeps.made _ m unborn here regular'.1
    rw [List.mem_singleton.mp member] at search
    exact ⟨kids', _, m, tree', fits', search, here, regular', size, file⟩

theorem fsWriteFile_content (tree : Tree s kids) (fits : Fits s) (plain : Plain path) (ordinary : Ordinary s path)
    (short : buf.length < 2 ^ 62) (run : fsWriteFile env s path buf = some (0, t)) :
    ∃ kids', Tree t kids' ∧ Fits t ∧ contentAt t path = some buf := by
  obtain ⟨code, t', kids', run', tree', -, fits'⟩ := fsWriteFile_spec env tree fits plain (Nat.le_of_lt short)
  obtain ⟨rfl, rfl⟩ := Prod.mk.inj (Option.some.inj (run.symm.trans run'))
  refine ⟨kids', tree', fits', ?_⟩
  obtain ⟨⟨got, u⟩, opens, rest⟩ := Option.bind_eq_some_iff.mp run
  cases got with
  | none =>
    have code : -qeNoent = 0 := congrArg Prod.fst (Option.some.inj rest)
    exact absurd code (by decide)
  | some h =>
    obtain ⟨kids'', id, n, tree'', fits'', search, live, regular, empty, file⟩ := fsOpen_emptied tree fits plain ordinary opens
    obtain ⟨⟨written, v⟩, writes, rest⟩ := Option.bind_eq_some_iff.mp rest
    obtain ⟨w, closes, rest⟩ := Option.bind_eq_some_iff.mp rest
    obtain ⟨code, rfl⟩ := Prod.mk.inj (Option.some.inj rest)
    have done : 0 ≤ written := by
      by_contra failed
      rw [if_pos (Int.not_le.mp failed)] at code
      omega
    obtain ⟨m, here, regular', contents⟩ := fsWrite_content file live (by decide) (by decide) regular empty short writes done
    have still := (fsWrite_still file writes).trans (fsClose_still _ closes)
    obtain ⟨k, there, body⟩ := live_of_body (show bodies w id = some m.body by rw [(fsClose_cases closes).1, bodies_live here])
    refine contentAt_eq_some.mpr ⟨id, k, still.places.lookup tree'' tree' search, there, ?_, (contents_body body).trans contents⟩
    rw [body]
    exact regular'

theorem fsRead_opened (fits : Fits s) {whole : Bytes} (content : contentAt s path = some whole) {h : FileId}
    (opens : fsOpen env s path oRdonly = some (some h, t)) (max : Nat) :
    ∃ u f n, fsRead env t h max = some (((whole.take max).length : Int), whole.take max, u) ∧
      u.files h = some f ∧ f.refs = 1 ∧ u.nodes f.node = some n := by
  obtain ⟨id, n, search, live, regular, contents⟩ := contentAt_eq_some.mp content
  rcases fsOpen_cases opens with ⟨none_, -⟩ | ⟨id', n', search', -, live', -, opened⟩ | ⟨v, k, absent, -⟩
  · cases none_
  · cases Option.some.inj (Option.some.inj (search.symm.trans search'))
    cases Option.some.inj (live.symm.trans live')
    have kept : truncated oRdonly n = n := by
      simp [truncated, has]
    obtain ⟨m, here, body⟩ := live_of_body (show bodies t id = some (truncated oRdonly n).body by
      rw [opened.table, Function.update_self])
    rw [kept] at body
    have file : t.files h = some { node := id, offset := 0, flags := oRdonly, refs := 1 } := by
      rcases opened.handle with ⟨-, none_, -⟩ | ⟨given, -, files⟩
      · cases none_
      · cases Option.some.inj given
        rw [files, Function.update_self]
        rfl
    have regular' : m.body.Regular := body ▸ regular
    obtain ⟨inside, few⟩ := fits id n.body (bodies_live live) regular.2
    rw [← body] at inside few
    have notDir : m.type ≠ .dir := fun dir => absurd (dir.symm.trans regular'.1) (by decide)
    obtain ⟨got, u, shown, reads, table, -, -, -, -, files⟩ :=
      fsRead_regular env max file (show oRdonly &&& oRdwr ≠ oWronly by decide) here notDir regular'.2 inside
        (by rw [Nat.zero_add]; exact few)
    have front : got = whole.take max := by
      rw [shown, readAt, List.drop_zero, ← contents, ← contents_body body, contents_node]
      rfl
    obtain ⟨k, there, -⟩ := live_of_body (show bodies u id = some m.body by rw [table, bodies_live here])
    rw [front] at reads files
    exact ⟨u, _, k, reads, by rw [files, Function.update_self], rfl, there⟩
  · exact absurd (search.symm.trans absent) (by simp)

theorem fsReadFile_content (fits : Fits s) {max : Nat} {got whole : Bytes} (content : contentAt s path = some whole)
    (run : fsReadFile env s path max = some (0, got, t)) : got = whole.take max := by
  obtain ⟨⟨opened, u⟩, opens, rest⟩ := Option.bind_eq_some_iff.mp run
  cases opened with
  | none =>
    have code : -qeNoent = 0 := congrArg Prod.fst (Option.some.inj rest)
    exact absurd code (by decide)
  | some h =>
    obtain ⟨v, f, n, reads, -⟩ := fsRead_opened fits content opens max
    obtain ⟨⟨code, bytes, v'⟩, reads', rest⟩ := Option.bind_eq_some_iff.mp rest
    obtain ⟨w, -, rest⟩ := Option.bind_eq_some_iff.mp rest
    obtain ⟨rfl, same⟩ := Prod.mk.inj (Option.some.inj (reads'.symm.trans reads))
    obtain ⟨rfl, rfl⟩ := Prod.mk.inj same
    rw [if_neg (by omega)] at rest
    exact (congrArg (fun result => result.2.1) (Option.some.inj rest)).symm

theorem ordinary_of_content {whole : Bytes} (content : contentAt s path = some whole) : Ordinary s path := by
  intro id n search live
  obtain ⟨id', n', search', live', regular, -⟩ := contentAt_eq_some.mp content
  cases Option.some.inj (Option.some.inj (search.symm.trans search'))
  cases Option.some.inj (live.symm.trans live')
  exact .inr regular

theorem fsOpen_kernel {whole : Bytes} (content : contentAt s path = some whole) (kernel : env.task = none)
    (memory : env.fileAlloc = true) {flags : Nat} (notDir : has flags oDir = false) (old : has flags oExcl = false) :
    ∃ t, fsOpen env s path flags = some (some s.nextFile, t) := by
  obtain ⟨id, n, search, live, regular, -⟩ := contentAt_eq_some.mp content
  have file : n.type = .file := regular.1
  simp [fsOpen, openTarget, search, old, openNode, live, notDir, file, fsCanAccess, kernel, memory, putNode, setNode]

theorem fsWriteFile_kernel (tree : Tree s kids) (fits : Fits s) (plain : Plain path) {whole : Bytes}
    (content : contentAt s path = some whole) (kernel : env.task = none) (memory : env.fileAlloc = true)
    (memory' : env.dataAlloc = true) (short : buf.length < 2 ^ 62) : ∃ t, fsWriteFile env s path buf = some (0, t) := by
  obtain ⟨code, t, kids', run, -⟩ := fsWriteFile_spec env tree fits plain (Nat.le_of_lt short)
  obtain ⟨u, opens⟩ := fsOpen_kernel content kernel memory (by decide : has (oWronly ||| oCreate ||| oTrunc) oDir = false) (by decide)
  obtain ⟨kids'', id, n, -, -, -, live, regular, empty, file⟩ := fsOpen_emptied tree fits plain (ordinary_of_content content) opens
  have run' := run
  simp only [fsWriteFile, opens, Option.bind_eq_bind, Option.bind_some] at run'
  obtain ⟨⟨written, v⟩, writes, rest⟩ := Option.bind_eq_some_iff.mp run'
  obtain ⟨w, closes, rest⟩ := Option.bind_eq_some_iff.mp rest
  have done : written = ssize buf.length := by
    have small : wrap64 buf.length = buf.length := wrap64_of_lt (by omega)
    have isFile : n.type = .file := regular.1
    have inMemory : n.ops = none := regular.2
    have writable : has (oWronly ||| oCreate ||| oTrunc) (oWronly ||| oRdwr) = true := by decide
    have start : has (oWronly ||| oCreate ||| oTrunc) oAppend = false := by decide
    simp only [fsWrite, file, live, writable, inMemory, isFile, start, opsWrites, Option.bind_eq_bind, Option.bind_some, Nat.zero_add,
      small, reduceCtorEq, Bool.not_true, Bool.false_eq_true, if_false] at writes
    rcases @ensureCapacity_spec env n buf.length memory' (Nat.le_of_lt short) with ⟨inside, grows⟩ | ⟨-, c, inside, grows⟩
    · simp only [grows, Option.bind_some, ne_eq, not_true_eq_false, if_false, Nat.not_lt.mpr inside, gt_iff_lt] at writes
      exact (congrArg Prod.fst (Option.some.inj writes)).symm
    · simp only [grows, Option.bind_some, ne_eq, not_true_eq_false, if_false, Nat.not_lt.mpr inside, gt_iff_lt] at writes
      exact (congrArg Prod.fst (Option.some.inj writes)).symm
  have zero : (if written < 0 then written else 0) = code := congrArg Prod.fst (Option.some.inj rest)
  rw [done, ssize_small (by omega), if_neg (by omega)] at zero
  exact ⟨t, zero ▸ run⟩

theorem fsReadFile_kernel (fits : Fits s) {whole : Bytes} (max : Nat) (content : contentAt s path = some whole)
    (kernel : env.task = none) (memory : env.fileAlloc = true) : ∃ got t, fsReadFile env s path max = some (0, got, t) := by
  obtain ⟨u, opens⟩ := fsOpen_kernel content kernel memory (by decide : has oRdonly oDir = false) (by decide)
  obtain ⟨v, f, n, reads, handle, once, live⟩ := fsRead_opened fits content opens max
  have closes : ∃ w, fsClose v s.nextFile = some w := by
    simp [fsClose, handle, once, live]
  obtain ⟨w, closes⟩ := closes
  refine ⟨whole.take max, w, ?_⟩
  simp only [fsReadFile, opens, reads, closes, Option.bind_eq_bind, Option.bind_some]
  rw [if_neg (by omega)]
  rfl

end Saved
end Qito.Vfs
