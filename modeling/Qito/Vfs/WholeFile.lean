import Qito.Vfs.Frame

/-! fs_read_file and fs_write_file, and the calls the package manager makes
besides: each adds nodes at most and writes at most the file it names. -/
namespace Qito.Vfs
open Words

def fsReadFile (env : Env) (s : FsState) (path : Bytes) (max : Nat) : Option (Int × Bytes × FsState) := do
  match ← fsOpen env s path oRdonly with
  | (none, s) => return (-qeNoent, [], s)
  | (some file, s) =>
    let (got, bytes, s) ← fsRead env s file max
    let s ← fsClose s file
    if got < 0 then return (got, [], s) else return (0, bytes, s)

def fsWriteFile (env : Env) (s : FsState) (path buf : Bytes) : Option (Int × FsState) := do
  match ← fsOpen env s path (oWronly ||| oCreate ||| oTrunc) with
  | (none, s) => return (-qeNoent, s)
  | (some file, s) =>
    let (written, s) ← fsWrite env s file buf
    let s ← fsClose s file
    return (if written < 0 then written else 0, s)

/-- The place of a node and its ops table. -/
def FsNode.frame (n : FsNode) : Shape × Option OpsTable := (n.shape, n.ops)

def frames (s : FsState) : NodeId → Option (Shape × Option OpsTable) := fun id => (s.nodes id).map FsNode.frame

/-- No node was added, moved or turned into something else, and the regular files
but those excepted hold the bytes they held. -/
structure Still (excepted : NodeId → Prop) (s t : FsState) : Prop where
  root : t.root = s.root
  inode : t.nextInode = s.nextInode
  frame : frames t = frames s
  content : ∀ id n m, s.nodes id = some n → t.nodes id = some m → ¬ excepted id → n.body.Regular →
    m.contents = n.contents

section Still
variable {s t u : FsState} {excepted : NodeId → Prop} {id : NodeId}

theorem frames_live {n : FsNode} (live : s.nodes id = some n) : frames s id = some n.frame := by
  simp [frames, live]

theorem Still.live (still : Still excepted s t) {n : FsNode} (live : s.nodes id = some n) :
    ∃ m, t.nodes id = some m ∧ m.shape = n.shape ∧ m.ops = n.ops := by
  have same := frames_live live
  rw [← still.frame] at same
  obtain ⟨m, here, frame⟩ := Option.map_eq_some_iff.mp same
  exact ⟨m, here, congrArg Prod.fst frame, congrArg Prod.snd frame⟩

theorem Still.dead (still : Still excepted s t) (dead : s.nodes id = none) : t.nodes id = none := by
  have same := congrFun still.frame id
  simp only [frames, dead, Option.map_none, Option.map_eq_none_iff] at same
  exact same

theorem Still.tree (still : Still excepted s t) {kids : NodeId → List NodeId} (tree : Tree s kids) : Tree t kids := by
  have shape : shapes t = shapes s := by
    funext c
    have same := congrArg (Option.map Prod.fst) (congrFun still.frame c)
    simp only [frames, Option.map_map] at same
    exact same
  exact tree.of_shapes shape still.root still.inode

theorem Still.of_nodes (root : t.root = s.root) (inode : t.nextInode = s.nextInode) (nodes : t.nodes = s.nodes) :
    Still excepted s t where
  root := root
  inode := inode
  frame := by
    funext c
    simp only [frames, nodes]
  content c n m live live' _ _ := by
    rw [nodes] at live'
    cases Option.some.inj (live.symm.trans live')
    rfl

theorem Still.trans (first : Still excepted s t) (second : Still excepted t u) : Still excepted s u where
  root := second.root.trans first.root
  inode := second.inode.trans first.inode
  frame := second.frame.trans first.frame
  content c n k live live'' spared regular := by
    obtain ⟨m, here, shape, ops⟩ := first.live live
    have regular' : m.body.Regular := ⟨(congrArg Shape.type shape).trans regular.1, ops.trans regular.2⟩
    exact (second.content c m k here live'' spared regular').trans (first.content c n m live here spared regular)

theorem frames_setNode {f : FsNode → FsNode} (keep : ∀ n, s.nodes id = some n → (f n).frame = n.frame) :
    frames (setNode s id f) = frames s := by
  funext c
  by_cases same : c = id
  · subst c
    cases live : s.nodes id with
    | none => simp [frames, setNode, live]
    | some n => simp [frames, setNode, live, keep n live]
  · simp [frames, setNode, same]

theorem Still.set {f : FsNode → FsNode} (keep : ∀ n, s.nodes id = some n → (f n).frame = n.frame)
    (bytes : ∀ n, s.nodes id = some n → excepted id ∨ (n.body.Regular → (f n).contents = n.contents)) :
    Still excepted s (setNode s id f) where
  root := rfl
  inode := rfl
  frame := frames_setNode keep
  content c n m live live' spared regular := by
    by_cases same : c = id
    · subst c
      simp only [setNode, Function.update_self, live, Option.map_some, Option.some.injEq] at live'
      rw [← live']
      exact (bytes n live).resolve_left spared regular
    · simp only [setNode, Function.update_of_ne same] at live'
      cases Option.some.inj (live.symm.trans live')
      rfl

theorem ensureCapacity_frame {env : Env} {n m : FsNode} {needed : Nat} {code : Int}
    (run : ensureCapacity env n needed = some (code, m)) : m.frame = n.frame := by
  unfold ensureCapacity at run
  split at run
  · cases Option.some.inj run
    rfl
  obtain ⟨capacity, -, rest⟩ := Option.bind_eq_some_iff.mp run
  split at rest
  · cases Option.some.inj rest
    rfl
  · cases Option.some.inj rest
    rfl

theorem refresh_frame {env : Env} {n m : FsNode} (run : refresh env id n = some m) :
    m.frame = n.frame ∧ (n.body.Regular → m = n) := by
  unfold refresh at run
  split at run
  case h_1 ops =>
    cases Option.some.inj run
    exact ⟨rfl, fun regular => absurd (ops.symm.trans regular.2) (by simp)⟩
  case h_2 ops =>
    refine ⟨?_, fun regular => absurd (ops.symm.trans regular.2) (by simp)⟩
    split at run
    · cases Option.some.inj run
      rfl
    split at run
    · cases Option.some.inj run
      rfl
    simp only at run
    split at run
    · split at run
      · cases run
      · cases Option.some.inj run
        rfl
    · split at run
      · cases run
      · cases Option.some.inj run
        rfl
  case h_3 =>
    cases Option.some.inj run
    exact ⟨rfl, fun _ => rfl⟩

theorem Still.put {n m : FsNode} (live : s.nodes id = some n) (frame : m.frame = n.frame)
    (bytes : excepted id ∨ (n.body.Regular → m.contents = n.contents)) : Still excepted s (putNode s id m) := by
  refine Still.set (fun k here => ?_) (fun k here => ?_)
  · cases Option.some.inj (live.symm.trans here)
    exact frame
  · cases Option.some.inj (live.symm.trans here)
    exact bytes

end Still

section Handles
variable {env : Env} {s t : FsState} {h : FileId}

theorem openNode_still {id : NodeId} {flags : Nat} {got : Option FileId} {excepted : NodeId → Prop}
    (run : openNode env s id flags = some (got, t)) (cuts : has flags oTrunc = true → excepted id) : Still excepted s t := by
  obtain ⟨n, live, rest⟩ := Option.bind_eq_some_iff.mp run
  have cut : Still excepted s (putNode s id (truncated flags n)) := by
    apply Still.put live
    · unfold truncated
      split
      · rfl
      · rfl
    · cases asked : has flags oTrunc with
      | true => exact Or.inl (cuts asked)
      | false =>
        right
        intro _
        simp [truncated, asked]
  split at rest
  · cases Option.some.inj rest
    exact Still.of_nodes rfl rfl rfl
  split at rest
  · cases Option.some.inj rest
    exact Still.of_nodes rfl rfl rfl
  split at rest
  · cases Option.some.inj rest
    exact Still.of_nodes rfl rfl rfl
  split at rest
  · cases Option.some.inj rest
    exact cut
  · cases Option.some.inj rest
    have counted : Still excepted (putNode s id (truncated flags n)) (setNode (putNode s id (truncated flags n)) id
        fun n => { n with openCount := (n.openCount + 1) % 2 ^ 32, accessed := env.now }) :=
      Still.set (fun _ _ => rfl) (fun _ _ => Or.inr fun _ => rfl)
    exact (cut.trans counted).trans (Still.of_nodes rfl rfl rfl)

theorem fsWrite_still {f : File} {buf : Bytes} {code : Int} (handle : s.files h = some f)
    (run : fsWrite env s h buf = some (code, t)) : Still (· = f.node) s t := by
  obtain ⟨f', handle', rest⟩ := Option.bind_eq_some_iff.mp run
  cases Option.some.inj (handle.symm.trans handle')
  split at rest
  · cases Option.some.inj rest
    exact Still.of_nodes rfl rfl rfl
  obtain ⟨n, live, rest⟩ := Option.bind_eq_some_iff.mp rest
  split at rest
  · cases Option.some.inj rest
    split
    · exact Still.of_nodes rfl rfl rfl
    · exact Still.of_nodes rfl rfl rfl
  split at rest
  · cases Option.some.inj rest
    exact Still.of_nodes rfl rfl rfl
  simp only at rest
  generalize (if has f.flags oAppend = true then n.size else f.offset) = offset at rest
  obtain ⟨⟨error, m⟩, grow, rest⟩ := Option.bind_eq_some_iff.mp rest
  simp only at rest
  split at rest
  · cases Option.some.inj rest
    exact Still.of_nodes rfl rfl rfl
  split at rest
  · cases rest
  · cases Option.some.inj rest
    have frame : m.frame = n.frame := ensureCapacity_frame grow
    refine Still.trans (Still.put live ?_ (Or.inl rfl)) (Still.of_nodes rfl rfl rfl)
    exact frame

theorem fsRead_still {len : Nat} {code : Int} {bytes : Bytes} (excepted : NodeId → Prop)
    (run : fsRead env s h len = some (code, bytes, t)) : Still excepted s t := by
  obtain ⟨f, handle, rest⟩ := Option.bind_eq_some_iff.mp run
  split at rest
  · cases Option.some.inj rest
    exact Still.of_nodes rfl rfl rfl
  obtain ⟨n, live, rest⟩ := Option.bind_eq_some_iff.mp rest
  obtain ⟨m, renewed, rest⟩ := Option.bind_eq_some_iff.mp rest
  have put : Still excepted s (putNode s f.node m) := by
    obtain ⟨frame, same⟩ := refresh_frame renewed
    exact Still.put live frame (Or.inr fun regular => by rw [same regular])
  simp only at rest
  split at rest
  · obtain ⟨got, -, rest⟩ := Option.bind_eq_some_iff.mp rest
    cases Option.some.inj rest
    split
    · exact put.trans (Still.of_nodes rfl rfl rfl)
    · exact put
  split at rest
  · cases Option.some.inj rest
    exact put
  obtain ⟨got, -, rest⟩ := Option.bind_eq_some_iff.mp rest
  split at rest
  · cases Option.some.inj rest
    exact put
  · cases Option.some.inj rest
    have touched : Still excepted (putNode s f.node m)
        (setNode (putNode s f.node m) f.node fun n => { n with accessed := env.now }) :=
      Still.set (fun _ _ => rfl) (fun _ _ => Or.inr fun _ => rfl)
    exact (put.trans touched).trans (Still.of_nodes rfl rfl rfl)

theorem fsClose_still (excepted : NodeId → Prop) (run : fsClose s h = some t) : Still excepted s t := by
  obtain ⟨f, handle, rest⟩ := Option.bind_eq_some_iff.mp run
  simp only at rest
  split at rest
  · cases Option.some.inj rest
    exact Still.of_nodes rfl rfl rfl
  · obtain ⟨n, -, rest⟩ := Option.bind_eq_some_iff.mp rest
    cases Option.some.inj rest
    have counted : Still excepted s (setNode s f.node fun n => { n with openCount := n.openCount - 1 }) :=
      Still.set (fun _ _ => rfl) (fun _ _ => Or.inr fun _ => rfl)
    exact counted.trans (Still.of_nodes rfl rfl rfl)

theorem fsStat_still {path : Bytes} {answer : Except Int Nat} (excepted : NodeId → Prop)
    (run : fsStat env s path = some (answer, t)) : Still excepted s t := by
  obtain ⟨found, -, rest⟩ := Option.bind_eq_some_iff.mp run
  cases found with
  | none =>
    cases Option.some.inj rest
    exact Still.of_nodes rfl rfl rfl
  | some id =>
    obtain ⟨n, live, rest⟩ := Option.bind_eq_some_iff.mp rest
    obtain ⟨m, renewed, rest⟩ := Option.bind_eq_some_iff.mp rest
    cases Option.some.inj rest
    obtain ⟨frame, same⟩ := refresh_frame renewed
    exact Still.put live frame (Or.inr fun regular => by rw [same regular])

end Handles

section Tokens

theorem tokensFrom_append (token a b : Bytes) : tokensFrom token (a ++ 47 :: b) = tokensFrom token a ++ tokens b := by
  induction a generalizing token with
  | nil =>
    by_cases empty : token = []
    · simp [tokensFrom, empty, tokens]
    · simp [tokensFrom, empty, tokens]
  | cons c cs ih =>
    by_cases slash : c = 47
    · by_cases empty : token = []
      · simp [tokensFrom, slash, empty, ih]
      · simp [tokensFrom, slash, empty, ih]
    · simp [tokensFrom, slash, ih]

theorem tokensFrom_one {token name : Bytes} (whole : 47 ∉ name) (some_ : token ++ name ≠ []) :
    tokensFrom token name = [token ++ name] := by
  induction name generalizing token with
  | nil =>
    rw [List.append_nil] at some_ ⊢
    simp [tokensFrom, some_]
  | cons c cs ih =>
    rw [List.mem_cons, not_or] at whole
    have step : tokensFrom (token ++ [c]) cs = [token ++ [c] ++ cs] := ih whole.2 (by simp)
    simp [tokensFrom, Ne.symm whole.1, step]

theorem splitLast_whole {path : Bytes} :
    (splitLast path = none → 47 ∉ path) ∧ ∀ front name, splitLast path = some (front, name) → 47 ∉ name := by
  induction path with
  | nil => simp [splitLast]
  | cons c cs ih =>
    cases rest : splitLast cs with
    | some parts =>
      obtain ⟨front', name'⟩ := parts
      refine ⟨by simp [splitLast, rest], fun front name split => ?_⟩
      simp only [splitLast, rest, Option.some.injEq, Prod.mk.injEq] at split
      obtain ⟨-, rfl⟩ := split
      exact ih.2 _ _ rest
    | none =>
      have clean := ih.1 rest
      by_cases slash : c = 47
      · refine ⟨by simp [splitLast, rest, slash], fun front name split => ?_⟩
        simp only [splitLast, rest, slash, if_true, Option.some.injEq, Prod.mk.injEq] at split
        obtain ⟨-, rfl⟩ := split
        exact clean
      · refine ⟨fun _ => ?_, by simp [splitLast, rest, slash]⟩
        simp [clean, Ne.symm slash]

/-- A path that names one entry after the other, none of them cut. -/
def Plain (path : Bytes) : Prop := Dotless (steps path) ∧ ∀ token ∈ steps path, token.length < fsNameMax

instance (path : Bytes) : Decidable (Plain path) := inferInstanceAs (Decidable (_ ∧ _))

theorem resolveParent_steps {s : FsState} {path name : Bytes} {d : NodeId} (plain : Plain path) (some_ : name ≠ [])
    (parent : resolveParent s path = some (some d, name)) :
    ∃ ts, steps path = ts ++ [name] ∧ lookupFrom s s.root ts = some (some d) := by
  have uncut {token : Bytes} (member : token ∈ steps path) : strlcpy token fsNameMax = token :=
    List.take_of_length_le (Nat.le_sub_one_of_lt (plain.2 token member))
  cases split : splitLast (strlcpy path fsPathMax) with
  | none =>
    simp only [resolveParent, split] at parent
    obtain ⟨rootSame, cut⟩ := Prod.mk.inj (Option.some.inj parent)
    have nonempty : strlcpy path fsPathMax ≠ [] := by
      intro empty
      rw [empty] at cut
      exact some_ cut.symm
    have whole : steps path = [strlcpy path fsPathMax] :=
      tokensFrom_one (splitLast_whole.1 split) (by simpa using nonempty)
    have member : strlcpy path fsPathMax ∈ steps path := by
      rw [whole]
      exact List.mem_singleton_self _
    have same : strlcpy path fsPathMax = name := (uncut member).symm.trans cut
    refine ⟨[], by rw [whole, same]; rfl, ?_⟩
    rw [← rootSame]
    rfl
  | some parts =>
    obtain ⟨front, last⟩ := parts
    have whole := splitLast_spec split
    have clean := splitLast_whole.2 front last split
    have short : front.length ≤ fsPathMax - 1 := by
      have length := congrArg List.length whole
      have bound : (strlcpy path fsPathMax).length ≤ fsPathMax - 1 := List.length_take_le _ _
      rw [List.length_append, List.length_cons] at length
      omega
    have named : strlcpy last fsNameMax = name := by
      by_cases empty : front = []
      · simp only [resolveParent, split, if_pos empty] at parent
        exact (Prod.mk.inj (Option.some.inj parent)).2
      · simp only [resolveParent, split, if_neg empty] at parent
        obtain ⟨found, -, pair⟩ := Option.bind_eq_some_iff.mp parent
        exact (Prod.mk.inj (Option.some.inj pair)).2
    have nonempty : last ≠ [] := by
      rintro rfl
      exact some_ named.symm
    have tokens_ : steps path = tokens front ++ [last] := by
      rw [steps, tokens, whole, tokensFrom_append]
      exact congrArg (tokens front ++ ·) (tokensFrom_one clean (by simpa using nonempty))
    have member : last ∈ steps path := by
      rw [tokens_]
      exact List.mem_append_right _ (List.mem_singleton_self _)
    have same : last = name := (uncut member).symm.trans named
    refine ⟨tokens front, by rw [tokens_, same], ?_⟩
    by_cases empty : front = []
    · simp only [resolveParent, split, if_pos empty] at parent
      rw [← (Prod.mk.inj (Option.some.inj parent)).1, empty]
      rfl
    · simp only [resolveParent, split, if_neg empty] at parent
      obtain ⟨found, run, pair⟩ := Option.bind_eq_some_iff.mp parent
      rw [(Prod.mk.inj (Option.some.inj pair)).1, fsLookup, strlcpy, List.take_of_length_le short] at run
      exact run

end Tokens

section Creation
variable {env : Env} {s t : FsState} {kids : NodeId → List NodeId}

theorem setNode_nodes (s : FsState) (y id : NodeId) (f : FsNode → FsNode) :
    (setNode s y f).nodes id = (s.nodes id).map (if id = y then f else fun n => n) := by
  by_cases same : id = y
  · subst id
    simp [setNode]
  · simp [setNode, same]

/-- A change of links, clocks and counters. -/
def Minor (f : FsNode → FsNode) : Prop := ∀ n, (f n).name = n.name ∧ (f n).body = n.body ∧ (f n).parent = n.parent

theorem Minor.comp {f g : FsNode → FsNode} (first : Minor f) (second : Minor g) : Minor (g ∘ f) := fun n =>
  ⟨(second _).1.trans (first n).1, (second _).2.1.trans (first n).2.1, (second _).2.2.trans (first n).2.2⟩

theorem Minor.at {f : FsNode → FsNode} (minor : Minor f) (y id : NodeId) : Minor (if id = y then f else fun n => n) := by
  split
  · exact minor
  · exact fun n => ⟨rfl, rfl, rfl⟩

theorem nodeLink_nodes {d x : NodeId} (run : nodeLink s d x = some t) : ∃ change : NodeId → FsNode → FsNode,
    (∀ id, Minor (change id)) ∧
      ∀ id, t.nodes id = ((setNode s x fun n => { n with parent := some d }).nodes id).map (change id) := by
  obtain ⟨dir, -, rest⟩ := Option.bind_eq_some_iff.mp run
  cases children : dir.children with
  | none =>
    simp only [children] at rest
    cases Option.some.inj rest
    refine ⟨_, fun id => Minor.at ?_ d id, fun id => setNode_nodes _ _ _ _⟩
    exact fun n => ⟨rfl, rfl, rfl⟩
  | some entry =>
    simp only [children] at rest
    obtain ⟨last, -, rest⟩ := Option.bind_eq_some_iff.mp rest
    cases Option.some.inj rest
    refine ⟨_, fun id => Minor.at ?_ last id, fun id => setNode_nodes _ _ _ _⟩
    exact fun n => ⟨rfl, rfl, rfl⟩

theorem fsCreate_nodes {path : Bytes} {type : NodeType} {perms : Nat} {got : Option NodeId}
    (run : fsCreate env s path type perms = some (got, t)) : got = none ∧ t = s ∨
    got = some s.nextInode ∧ ∃ d name n, resolveParent s path = some (some d, name) ∧ name ≠ [] ∧
      t.nodes s.nextInode = some n ∧ n.name = strlcpy name fsNameMax ∧ n.parent = some d ∧
      n.body = (owned env (freshNode env name type perms)).body ∧ ∃ change : NodeId → FsNode → FsNode, (∀ id, Minor (change id)) ∧
        ∀ id, id ≠ s.nextInode → t.nodes id = (s.nodes id).map (change id) := by
  obtain ⟨⟨dir, name⟩, resolved, rest⟩ := Option.bind_eq_some_iff.mp run
  cases dir with
  | none =>
    cases Option.some.inj rest
    exact Or.inl ⟨rfl, rfl⟩
  | some d =>
    obtain ⟨nd, -, rest⟩ := Option.bind_eq_some_iff.mp rest
    split at rest
    · cases Option.some.inj rest
      exact Or.inl ⟨rfl, rfl⟩
    rename_i allowed
    obtain ⟨found, -, rest⟩ := Option.bind_eq_some_iff.mp rest
    split at rest
    · cases Option.some.inj rest
      exact Or.inl ⟨rfl, rfl⟩
    cases memory : env.nodeAlloc with
    | false =>
      simp only [nodeAlloc, memory] at rest
      cases Option.some.inj rest
      exact Or.inl ⟨rfl, rfl⟩
    | true =>
      rw [nodeAlloc_grown name type perms memory] at rest
      obtain ⟨s', link, rest⟩ := Option.bind_eq_some_iff.mp rest
      cases Option.some.inj rest
      obtain ⟨change, minor, nodes⟩ := nodeLink_nodes link
      have stamp : Minor fun n => { n with modified := env.now } := fun n => ⟨rfl, rfl, rfl⟩
      have after (id : NodeId) : (setNode s' d fun n => { n with modified := env.now }).nodes id =
          ((setNode (setNode (grown env s name type perms) s.nextInode (owned env)) s.nextInode
            fun n => { n with parent := some d }).nodes id).map
              ((if id = d then fun n => { n with modified := env.now } else fun n => n) ∘ change id) := by
        rw [setNode_nodes, nodes, Option.map_map]
      have small (id : NodeId) := (minor id).comp (stamp.at d id)
      have made : (setNode (setNode (grown env s name type perms) s.nextInode (owned env)) s.nextInode
          fun n => { n with parent := some d }).nodes s.nextInode =
          some { owned env (freshNode env name type perms) with parent := some d } := by
        simp [setNode, grown]
      refine Or.inr ⟨rfl, d, name, _, resolved, fun empty => allowed (Or.inr empty),
        (after _).trans (congrArg _ made), ?_, (small _ _).2.2, (small _ _).2.1, _, small, fun id other => ?_⟩
      · refine (small _ _).1.trans ?_
        change (owned env (freshNode env name type perms)).name = _
        rw [owned]
        split <;> rfl
      · rw [after, setNode_nodes, setNode_nodes]
        simp [grown, other]

theorem Still.places {excepted : NodeId → Prop} (still : Still excepted s t) : Places s t where
  root := still.root
  placed id n live := by
    obtain ⟨m, here, shape, ops⟩ := still.live live
    exact ⟨m, here, congrArg Shape.name shape, congrArg Shape.parent shape, congrArg Shape.type shape, ops⟩

theorem Keeps.still {u : FsState} {kids' : NodeId → List NodeId} {paths : List Bytes} {excepted : NodeId → Prop}
    (keeps : Keeps paths s t) (still : Still excepted t u) (tree : Tree t kids')
    (allowed : ∀ id, excepted id → s.nodes id = none ∨ ∃ q ∈ paths, fsLookup s q = some (some id)) : Keeps paths s u where
  root := still.root.trans keeps.root
  placed id n live := by
    obtain ⟨m, here, a, b, c, d⟩ := keeps.placed id n live
    obtain ⟨k, there, a', b', c', d'⟩ := still.places.placed id m here
    exact ⟨k, there, a'.trans a, b'.trans b, c'.trans c, d'.trans d⟩
  written id n k live live' regular := by
    obtain ⟨m, here, -⟩ := keeps.placed id n live
    by_cases free : excepted id
    · rcases allowed id free with dead | named
      · exact absurd (dead.symm.trans live) (by simp)
      · exact Or.inr named
    · rcases keeps.written id n m live here regular with same | named
      · refine Or.inl (Eq.trans ?_ same)
        exact still.content id m k here live' free ((keeps.regular live here).mpr regular)
      · exact Or.inr named
  made id k dead live' file := by
    cases before : t.nodes id with
    | none => exact absurd ((still.dead before).symm.trans live') (by simp)
    | some m =>
      obtain ⟨k', here, -, -, type, -⟩ := still.places.placed id m before
      cases Option.some.inj (here.symm.trans live')
      obtain ⟨q, member, at_⟩ := keeps.made id m dead before (type.symm.trans file)
      exact ⟨q, member, still.places.lookup tree (still.tree tree) at_⟩
  memory id k dead live' := by
    cases before : t.nodes id with
    | none => exact absurd ((still.dead before).symm.trans live') (by simp)
    | some m =>
      obtain ⟨k', here, -, -, -, ops⟩ := still.places.placed id m before
      cases Option.some.inj (here.symm.trans live')
      exact ops.trans (keeps.memory id m dead before)

theorem fsCreate_keeps {kids' : NodeId → List NodeId} {paths : List Bytes} {path : Bytes} {type : NodeType} {perms : Nat}
    {got : Option NodeId} (tree : Tree s kids) (tree' : Tree t kids') (run : fsCreate env s path type perms = some (got, t))
    (named : type = .file → path ∈ paths ∧ Plain path) : Keeps paths s t := by
  rcases fsCreate_nodes run with ⟨-, rfl⟩ | ⟨-, d, name, n, resolved, some_, live, called, parent, body, change, minor, nodes⟩
  · exact (Keeps.refl t).mono (List.nil_subset _)
  have old {id : NodeId} {k : FsNode} (here : s.nodes id = some k) :
      t.nodes id = some (change id k) ∧ id ≠ s.nextInode := by
    have other : id ≠ s.nextInode := Nat.ne_of_lt (tree.fresh id k.shape (shapes_live here))
    exact ⟨by rw [nodes id other, here]; rfl, other⟩
  have places : Places s t := by
    obtain ⟨root, -⟩ := fsCreate_bodies run
    refine ⟨root, fun id k here => ⟨change id k, (old here).1, (minor id k).1, (minor id k).2.2, ?_, ?_⟩⟩
    · exact congrArg Body.type (minor id k).2.1
    · exact congrArg Body.ops (minor id k).2.1
  have new {id : NodeId} {m : FsNode} (dead : s.nodes id = none) (there : t.nodes id = some m) : id = s.nextInode ∧ m = n := by
    have here : id = s.nextInode := by
      by_contra other
      rw [nodes id other, dead] at there
      cases there
    subst id
    exact ⟨rfl, Option.some.inj (there.symm.trans live)⟩
  refine ⟨places, fun id k m here there _ => ?_, fun id m dead there file => ?_, fun id m dead there => ?_⟩
  · cases Option.some.inj ((old here).1.symm.trans there)
    exact Or.inl (contents_body (minor id k).2.1)
  · obtain ⟨rfl, rfl⟩ := new dead there
    have regular : type = .file := by
      rw [← file, ← show m.body.type = m.type from rfl, body, owned]
      split <;> rfl
    obtain ⟨member, plain⟩ := named regular
    obtain ⟨ts, whole, front⟩ := resolveParent_steps plain some_ resolved
    obtain ⟨r, root, -⟩ := tree.root_live
    refine ⟨path, member, ?_⟩
    have dotless := plain.1
    have short := plain.2 name (by rw [whole]; simp)
    rw [whole] at dotless
    rw [fsLookup, ← steps, whole]
    refine (tree'.descent_last dotless).mpr ⟨d, m, ?_, live, parent, ?_⟩
    · rw [places.root]
      exact places.lookupFrom tree tree' root front
    · rw [called, strlcpy, List.take_of_length_le (Nat.le_sub_one_of_lt short)]
  · obtain ⟨rfl, rfl⟩ := new dead there
    rw [← show m.body.ops = m.ops from rfl, body, owned]
    split <;> rfl

theorem fsMkdir_keeps (env : Env) (tree : Tree s kids) (path : Bytes) (perms : Nat) :
    ∃ code t kids', fsMkdir env s path perms = some (code, t) ∧ Tree t kids' ∧ Keeps [] s t := by
  obtain ⟨found, search, -⟩ := fsLookup_spec tree path
  cases found with
  | some x => exact ⟨-qeExist, s, kids, by simp [fsMkdir, search], tree, Keeps.refl s⟩
  | none =>
    obtain ⟨got, t, kids', run, tree'⟩ := fsCreate_tree env tree path .dir perms
    have keeps : Keeps [] s t := fsCreate_keeps tree tree' run (by simp)
    cases got with
    | none => exact ⟨-qeNoent, t, kids', by simp [fsMkdir, search, run], tree', keeps⟩
    | some id => exact ⟨0, t, kids', by simp [fsMkdir, search, run], tree', keeps⟩

end Creation

/-- The bytes of every node in memory lie in its buffer, and a ssize_t counts them. -/
def Fits (s : FsState) : Prop := ∀ id b, bodies s id = some b → b.ops = none → b.size ≤ b.capacity ∧ b.size < 2 ^ 63

section Whole
variable {env : Env} {s t : FsState} {kids : NodeId → List NodeId}

theorem Fits.update {id : NodeId} {b : Body} (fits : Fits s) (table : bodies t = Function.update (bodies s) id (some b))
    (inside : b.ops = none → b.size ≤ b.capacity ∧ b.size < 2 ^ 63) : Fits t := by
  intro c k live memory
  rw [table] at live
  by_cases same : c = id
  · subst c
    rw [Function.update_self] at live
    cases Option.some.inj live
    exact inside memory
  · rw [Function.update_of_ne same] at live
    exact fits c k live memory

theorem Fits.create {path : Bytes} {type : NodeType} {perms : Nat} {got : Option NodeId} (fits : Fits s)
    (run : fsCreate env s path type perms = some (got, t)) : Fits t := by
  obtain ⟨-, -, -, ⟨-, rfl⟩ | ⟨-, -, table⟩⟩ := fsCreate_bodies run
  · exact fits
  · apply fits.update table
    intro _
    rw [owned]
    split
    · exact ⟨Nat.le_refl 0, Nat.two_pow_pos 63⟩
    · exact ⟨Nat.le_refl 0, Nat.two_pow_pos 63⟩

theorem Fits.mkdir {path : Bytes} {perms : Nat} {code : Int} (fits : Fits s)
    (run : fsMkdir env s path perms = some (code, t)) : Fits t := by
  obtain ⟨found, -, rest⟩ := Option.bind_eq_some_iff.mp run
  split at rest
  · cases Option.some.inj rest
    exact fits
  · obtain ⟨⟨got, u⟩, create, rest⟩ := Option.bind_eq_some_iff.mp rest
    cases got with
    | none =>
      cases Option.some.inj rest
      exact fits.create create
    | some id =>
      cases Option.some.inj rest
      exact fits.create create

theorem Fits.opened {id : NodeId} {n : FsNode} {flags : Nat} {got : Option FileId} (fits : Fits s)
    (live : s.nodes id = some n) (opened : Opened env s id n flags got t) : Fits t := by
  apply fits.update opened.table
  intro memory
  have before := fits id n.body (bodies_live live)
  unfold truncated at memory ⊢
  split at memory
  · rename_i cut
    rw [if_pos cut]
    exact ⟨Nat.zero_le _, Nat.two_pow_pos 63⟩
  · rename_i whole
    rw [if_neg whole]
    exact before memory

/-- What fs_open leaves for the calls on the handle: a file that was at the path, or is new. -/
theorem fsOpen_spec (env : Env) (tree : Tree s kids) (fits : Fits s) {path : Bytes} (plain : Plain path) (flags : Nat)
    (start : has flags oAppend = false) :
    ∃ got t kids', fsOpen env s path flags = some (got, t) ∧ Tree t kids' ∧ Keeps [path] s t ∧ Fits t ∧
      ∀ h, got = some h → ∃ id n, t.files h = some { node := id, offset := 0, flags := flags, refs := 1 } ∧
        t.nodes id = some n ∧ (s.nodes id = none ∨ ∃ q ∈ [path], fsLookup s q = some (some id)) := by
  obtain ⟨got, t, run⟩ := fsOpen_total env tree path flags
  have refl : Keeps [path] s s := (Keeps.refl s).mono (List.nil_subset _)
  -- a node that could be opened, in the state s or with the new node in it
  have opens {u : FsState} {kids' : NodeId → List NodeId} {id : NodeId} {n : FsNode} (tree' : Tree u kids')
      (keeps : Keeps [path] s u) (fits' : Fits u) (live : u.nodes id = some n)
      (allowed : s.nodes id = none ∨ ∃ q ∈ [path], fsLookup s q = some (some id)) (still : Still (· = id) u t)
      (opened : Opened env u id n flags got t) :
      ∃ kids'', Tree t kids'' ∧ Keeps [path] s t ∧ Fits t ∧
        ∀ h, got = some h → ∃ id n, t.files h = some { node := id, offset := 0, flags := flags, refs := 1 } ∧
          t.nodes id = some n ∧ (s.nodes id = none ∨ ∃ q ∈ [path], fsLookup s q = some (some id)) := by
    refine ⟨kids', still.tree tree', keeps.still still tree' ?_, fits'.opened live opened, ?_⟩
    · rintro c rfl
      exact allowed
    · intro h same
      obtain ⟨m, here, -⟩ := still.live live
      rcases opened.handle with ⟨-, none_, -⟩ | ⟨given, -, files⟩
      · exact absurd (same.symm.trans none_) (by simp)
      · cases Option.some.inj (same.symm.trans given)
        refine ⟨id, m, ?_, here, allowed⟩
        rw [files, Function.update_self, start]
        rfl
  rw [fsOpen] at run
  obtain ⟨⟨target, u⟩, aim, rest⟩ := Option.bind_eq_some_iff.mp run
  rw [← fsOpen] at run
  cases target with
  | none =>
    cases Option.some.inj rest
    rcases openTarget_cases aim with ⟨rfl, -⟩ | ⟨given, -⟩
    · exact ⟨none, _, kids, run, tree, refl, fits, by simp⟩
    · exact absurd given (by simp)
  | some id =>
    obtain ⟨n, live, outcome⟩ := openNode_cases rest
    have still : Still (· = id) u t := openNode_still rest fun _ => rfl
    rcases openTarget_cases aim with ⟨rfl, none_ | ⟨id', same, search, -⟩⟩ | ⟨given, -, create, -⟩
    · exact absurd none_ (by simp)
    · cases Option.some.inj same
      rcases outcome with ⟨rfl, rfl⟩ | ⟨-, opened⟩
      · exact ⟨none, _, kids, run, tree, refl, fits, by simp⟩
      · obtain ⟨kids'', after⟩ := opens tree refl fits live (Or.inr ⟨path, List.mem_singleton_self _, search⟩) still opened
        exact ⟨got, t, kids'', run, after⟩
    · cases Option.some.inj given
      obtain ⟨got', u', kids', create', tree'⟩ := fsCreate_tree env tree path .file 0o644
      obtain ⟨-, rfl⟩ := Prod.mk.inj (Option.some.inj (create.symm.trans create'))
      have keeps : Keeps [path] s u := fsCreate_keeps tree tree' create fun _ => ⟨List.mem_singleton_self _, plain⟩
      have fits' := fits.create create
      rcases outcome with ⟨rfl, rfl⟩ | ⟨-, opened⟩
      · exact ⟨none, _, kids', run, tree', keeps, fits', by simp⟩
      · have unborn : s.nodes s.nextInode = none := by
          cases live' : s.nodes s.nextInode with
          | none => rfl
          | some m => exact absurd (tree.fresh _ m.shape (shapes_live live')) (Nat.lt_irrefl _)
        obtain ⟨kids'', after⟩ := opens tree' keeps fits' live (Or.inl unborn) still opened
        exact ⟨got, t, kids'', run, after⟩

theorem ensureCapacity_total (env : Env) {n : FsNode} {needed : Nat} (room : needed ≤ 2 ^ 62) :
    ∃ code m, ensureCapacity env n needed = some (code, m) ∧ (code = 0 → needed ≤ m.capacity) ∧
      m.size = n.size ∧ n.capacity ≤ m.capacity := by
  by_cases fits : needed ≤ n.capacity
  · exact ⟨0, n, by simp [ensureCapacity, fits], fun _ => fits, rfl, Nat.le_refl _⟩
  · cases memory : env.dataAlloc with
    | true =>
      rcases ensureCapacity_spec (n := n) memory room with ⟨inside, -⟩ | ⟨outside, c, enough, run⟩
      · exact absurd inside fits
      · exact ⟨0, _, run, fun _ => enough, rfl, Nat.le_trans (Nat.le_of_lt outside) enough⟩
    | false =>
      have start : needed ≤ (if n.capacity = 0 then 256 else n.capacity) * 2 ^ 64 := by
        split
        · omega
        · omega
      obtain ⟨c, run, -⟩ := doubleCapacity_spec room start
      refine ⟨-qeNomem, n, by simp [ensureCapacity, fits, run, memory], ?_, rfl, Nat.le_refl _⟩
      intro zero
      exact absurd zero (by decide)

theorem fsWrite_spec (env : Env) (fits : Fits s) {h : FileId} {id : NodeId} {n : FsNode} {flags : Nat} {buf : Bytes}
    (handle : s.files h = some { node := id, offset := 0, flags := flags, refs := 1 }) (live : s.nodes id = some n)
    (start : has flags oAppend = false) (short : buf.length ≤ 2 ^ 62) :
    ∃ code t, fsWrite env s h buf = some (code, t) ∧ Fits t := by
  cases allowed : has flags (oWronly ||| oRdwr) with
  | false => exact ⟨-qeBadf, s, by simp [fsWrite, handle, allowed], fits⟩
  | true =>
    cases device : opsWrites n.ops with
    | true =>
      by_cases some_ : ssize buf.length > 0
      · exact ⟨ssize buf.length, setFile s h fun f => { f with offset := wrap64 (f.offset + buf.length) },
          by simp [fsWrite, handle, allowed, live, device, some_], fits⟩
      · exact ⟨ssize buf.length, s, by simp [fsWrite, handle, allowed, live, device, some_], fits⟩
    | false =>
      by_cases dir : n.type = .dir
      · exact ⟨-qeIsdir, s, by simp [fsWrite, handle, allowed, live, device, dir], fits⟩
      · have small : wrap64 buf.length = buf.length := wrap64_of_lt (by omega)
        obtain ⟨code, m, grows, enough, size, wider⟩ := ensureCapacity_total env (n := n) short
        by_cases failed : code = 0
        · subst failed
          have inside := enough rfl
          have room : ¬ m.capacity < buf.length := Nat.not_lt.mpr inside
          refine ⟨ssize buf.length, _, by simp [fsWrite, handle, allowed, live, device, dir, start, small, grows, room]; rfl, ?_⟩
          refine fits.update (bodies_putNode (s := setFile (setFile s h _) h _) live) fun memory => ?_
          have frame := ensureCapacity_frame grows
          have before : n.body.ops = none := (congrArg Prod.snd frame).symm.trans memory
          obtain ⟨bound, short'⟩ := fits id n.body (bodies_live live) before
          have kept : n.size ≤ m.capacity := Nat.le_trans bound wider
          have few : n.size < 2 ^ 63 := short'
          change max m.size buf.length ≤ m.capacity ∧ max m.size buf.length < 2 ^ 63
          rw [size]
          omega
        · exact ⟨code, setFile s h fun f => { f with offset := 0 },
            by simp [fsWrite, handle, allowed, live, device, dir, start, small, grows, failed], fits⟩

theorem fsClose_spec {h : FileId} {f : File} {n : FsNode} (fits : Fits s) (handle : s.files h = some f) (once : f.refs = 1)
    (live : s.nodes f.node = some n) : ∃ t, fsClose s h = some t ∧ Fits t := by
  have run : ∃ t, fsClose s h = some t := by
    simp [fsClose, handle, once, live]
  obtain ⟨t, run⟩ := run
  refine ⟨t, run, ?_⟩
  obtain ⟨table, -⟩ := fsClose_cases run
  unfold Fits
  rw [table]
  exact fits

theorem fsWriteFile_spec (env : Env) (tree : Tree s kids) (fits : Fits s) {path buf : Bytes} (plain : Plain path)
    (short : buf.length ≤ 2 ^ 62) :
    ∃ code t kids', fsWriteFile env s path buf = some (code, t) ∧ Tree t kids' ∧ Keeps [path] s t ∧ Fits t := by
  obtain ⟨got, u, kids', opens, tree', keeps, fits', handle⟩ :=
    fsOpen_spec env tree fits plain (oWronly ||| oCreate ||| oTrunc) (by decide)
  cases got with
  | none => exact ⟨-qeNoent, u, kids', by simp [fsWriteFile, opens], tree', keeps, fits'⟩
  | some h =>
    obtain ⟨id, n, file, live, allowed⟩ := handle h rfl
    obtain ⟨code, v, writes, fits''⟩ := fsWrite_spec env fits' file live (by decide) short
    have still := fsWrite_still file writes
    obtain ⟨f, file', -, -, -, ⟨offset, files⟩, -⟩ := fsWrite_cases writes
    cases Option.some.inj (file.symm.trans file')
    have moved : v.files h = some { node := id, offset := offset, flags := oWronly ||| oCreate ||| oTrunc, refs := 1 } := by
      rw [files, Function.update_self]
    obtain ⟨m, here, -⟩ := still.live live
    obtain ⟨t, closes, fitsLast⟩ := fsClose_spec fits'' moved rfl here
    have whole := still.trans (fsClose_still _ closes)
    refine ⟨_, t, kids', by simp only [fsWriteFile, opens, writes, closes, Option.bind_eq_bind, Option.bind_some]; rfl,
      whole.tree tree', keeps.still whole tree' ?_, fitsLast⟩
    rintro c rfl
    exact allowed

/-- The path names a node in memory, if it names anything. -/
def InMemory (s : FsState) (path : Bytes) : Prop := ∀ id n, fsLookup s path = some (some id) → s.nodes id = some n → n.ops = none

theorem fsReadFile_spec (env : Env) (tree : Tree s kids) (fits : Fits s) {path : Bytes} (max : Nat)
    (memory : InMemory s path) :
    ∃ code bytes t, fsReadFile env s path max = some (code, bytes, t) ∧ Still (fun _ => False) s t ∧ Fits t := by
  have same : Still (fun _ => False) s s := Still.of_nodes rfl rfl rfl
  obtain ⟨found, search, alive⟩ := fsLookup_spec tree path
  cases found with
  | none =>
    refine ⟨-qeNoent, [], s, ?_, same, fits⟩
    simp [fsReadFile, fsOpen, openTarget, search, has]
  | some id =>
    obtain ⟨n, live⟩ := alive id rfl
    have plain := memory id n search live
    obtain ⟨got, u, opens⟩ := openNode_total env oRdonly live
    have run : fsOpen env s path oRdonly = some (got, u) := by
      simp [fsOpen, openTarget, search, has, opens]
    have still : Still (fun _ => False) s u := openNode_still opens (by decide)
    obtain ⟨n', live', outcome⟩ := openNode_cases opens
    cases Option.some.inj (live.symm.trans live')
    rcases outcome with ⟨rfl, rfl⟩ | ⟨-, opened⟩
    · exact ⟨-qeNoent, [], u, by simp [fsReadFile, run], same, fits⟩
    have fits' := fits.opened live opened
    rcases opened.handle with ⟨-, rfl, -⟩ | ⟨rfl, -, files⟩
    · exact ⟨-qeNoent, [], u, by simp [fsReadFile, run], still, fits'⟩
    have handle : u.files s.nextFile = some { node := id, offset := 0, flags := oRdonly, refs := 1 } := by
      rw [files, Function.update_self]
      rfl
    obtain ⟨m, here, shape, ops⟩ := still.live live
    have plain' : m.ops = none := ops.trans plain
    obtain ⟨inside, few⟩ := fits' id m.body (bodies_live here) plain'
    have readable : oRdonly &&& oRdwr ≠ oWronly := by decide
    by_cases dir : m.type = .dir
    · -- a directory opens for reading, and fs_read refuses it
      have reads : fsRead env u s.nextFile max = some (-qeIsdir, [], putNode u id m) := by
        simp only [fsRead, handle, Option.bind_eq_bind, Option.bind_some, if_neg readable, here, refresh, plain', opsRead,
          if_pos dir]
        rfl
      have still' := fsRead_still (fun _ => False) reads
      obtain ⟨k, there, -⟩ := still'.live here
      have fits'' : Fits (putNode u id m) := fits'.update (bodies_putNode here) fun _ => ⟨inside, few⟩
      obtain ⟨t, closes, fitsLast⟩ := fsClose_spec fits'' handle rfl there
      refine ⟨-qeIsdir, [], t, ?_, (still.trans still').trans (fsClose_still _ closes), fitsLast⟩
      simp only [fsReadFile, run, reads, closes, Option.bind_eq_bind, Option.bind_some]
      rfl
    · obtain ⟨bytes, v, -, reads, table, -, -, -, -, files'⟩ :=
        fsRead_regular env max handle readable here dir plain' inside (by rw [Nat.zero_add]; exact few)
      have still' := fsRead_still (fun _ => False) reads
      obtain ⟨k, there, -⟩ := still'.live here
      have fits'' : Fits v := by
        unfold Fits
        rw [table]
        exact fits'
      obtain ⟨t, closes, fitsLast⟩ := fsClose_spec fits'' (by rw [files', Function.update_self]) rfl there
      refine ⟨0, bytes, t, ?_, (still.trans still').trans (fsClose_still _ closes), fitsLast⟩
      have pos : ¬ (bytes.length : Int) < 0 := by omega
      simp only [fsReadFile, run, reads, closes, Option.bind_eq_bind, Option.bind_some, if_neg pos]
      rfl

end Whole

end Qito.Vfs
