import Qito.Ramdisk.Build
import Qito.Vfs.Creation

/-! Mounting an image that mkqitofs built. The loader finds every entry as it was
packed; what it makes of a path depends on how long a name the filesystem keeps. -/
namespace Qito.Ramdisk
open Buffers Faults Packed Words

/-- The filesystem the loader fills, with the number of calls that changed it. -/
structure Volume where
  fs : Vfs.FsState
  calls : Nat

/-- node->data = kmalloc(size). -/
def allocated (env : Vfs.Env) (n : Vfs.FsNode) : Vfs.FsNode :=
  { n with data := if env.dataAlloc then env.junk else fun _ => 0 }

def filled (bytes : Bytes) (n : Vfs.FsNode) : Vfs.FsNode :=
  { n with data := fun i => bytes.getD i 0, size := bytes.length, capacity := bytes.length }

def described (permissions modified uid gid : Nat) (n : Vfs.FsNode) : Vfs.FsNode :=
  { n with permissions := permissions, modified := modified, uid := uid, gid := gid }

/-- fs/vfs.c as the loader uses it; envs answers for the kernel call by call. -/
def volume (envs : Nat → Vfs.Env) : Filesystem Volume Vfs.NodeId where
  lookup v path := Vfs.fsLookup v.fs path
  mkdir v path perms := (Vfs.fsMkdir (envs v.calls) v.fs path perms).map fun (code, s) => (code, ⟨s, v.calls + 1⟩)
  create v path perms := (Vfs.fsCreate (envs v.calls) v.fs path .file perms).map fun (node, s) => (node, ⟨s, v.calls + 1⟩)
  kmalloc v node _ := ((envs v.calls).dataAlloc, ⟨Vfs.setNode v.fs node (allocated (envs v.calls)), v.calls + 1⟩)
  copy v node bytes := { v with fs := Vfs.setNode v.fs node (filled bytes) }
  describe v node permissions modified uid gid :=
    { v with fs := Vfs.setNode v.fs node (described permissions modified uid gid) }

/-- A filesystem as the kernel keeps it. -/
def Kept (v : Volume) : Prop := (∃ kids, Vfs.Tree v.fs kids) ∧ Vfs.Named v.fs

theorem Kept.set {s : Vfs.FsState} {node : Vfs.NodeId} {f : Vfs.FsNode → Vfs.FsNode} {k k' : Nat} (kept : Kept ⟨s, k⟩)
    (keep : ∀ n, (f n).shape = n.shape) : Kept ⟨Vfs.setNode s node f, k'⟩ := by
  obtain ⟨⟨kids, tree⟩, named⟩ := kept
  exact ⟨⟨kids, tree.touch keep⟩, named.set fun n => congrArg Vfs.Shape.name (keep n)⟩

theorem volume_sound (envs : Nat → Vfs.Env) : (volume envs).Sound Kept where
  lookup v path kept := by
    obtain ⟨⟨kids, tree⟩, -⟩ := kept
    obtain ⟨found, search, -⟩ := Vfs.fsLookup_spec tree path
    exact ⟨found, search⟩
  mkdir v path perms kept := by
    obtain ⟨⟨kids, tree⟩, named⟩ := kept
    obtain ⟨code, t, kids', run, tree'⟩ := Vfs.fsMkdir_tree (envs v.calls) tree path perms
    exact ⟨code, ⟨t, v.calls + 1⟩, by simp [volume, run], ⟨kids', tree'⟩, named.mkdir run⟩
  create v path perms kept := by
    obtain ⟨⟨kids, tree⟩, named⟩ := kept
    obtain ⟨got, t, kids', run, tree'⟩ := Vfs.fsCreate_tree (envs v.calls) tree path .file perms
    exact ⟨got, ⟨t, v.calls + 1⟩, by simp [volume, run], ⟨kids', tree'⟩, named.create run⟩
  kmalloc v node size kept := Kept.set kept fun n => rfl
  copy v node bytes kept := Kept.set kept fun n => rfl
  describe v node perms modified uid gid kept := Kept.set kept fun n => rfl

/-- How deep a path is, as collect sorts it. -/
def depth (path : Bytes) : Nat := path.count 47

/-- The shape of what mkqitofs.collect returns. -/
structure Collected (items : List Item) : Prop where
  paths : ∀ item ∈ items, ∃ cs, cs ≠ [] ∧ (∀ c ∈ cs, Vfs.Component c) ∧ item.path = Vfs.absolute cs
  types : ∀ item ∈ items, item.type = typeFile ∨ item.type = typeDir ∧ item.data = []
  distinct : (items.map Item.path).Nodup
  sorted : items.Pairwise fun a b => (a.type = typeFile → b.type = typeFile) ∧ (a.type = b.type → depth a.path ≤ depth b.path)
  parents : ∀ item ∈ items, ∀ front name, Vfs.splitLast item.path = some (front, name) → front ≠ [] →
    ∃ dir ∈ items, dir.type = typeDir ∧ dir.path = front

/-- The listed path leads to a node of the listed type, a file with its bytes. -/
def Mounted (s : Vfs.FsState) (item : Item) : Prop :=
  ∃ id n, Vfs.fsLookup s item.path = some (some id) ∧ s.nodes id = some n ∧ (item.type = typeDir → n.type = .dir) ∧
    (item.type = typeFile → n.type = .file ∧ n.size = item.data.length ∧ n.contents = item.data ∧ n.permissions = item.perms)

/-- No listed file is there already, and what is there of the directories is one. -/
def Apart (items : List Item) (s : Vfs.FsState) : Prop :=
  ∀ item ∈ items, (item.type = typeFile → Vfs.fsLookup s item.path = some none) ∧
    (item.type = typeDir → ∀ id n, Vfs.fsLookup s item.path = some (some id) → s.nodes id = some n → n.type = .dir)

section Reading
variable {σ ν : Type} {F : Filesystem σ ν} {image : Bytes} {header : Header} {s : σ} {i start : Nat} {item : Item}

theorem Found.name (found : Found image start i item) : stringAt image (entryAt i) = .ok item.path := by
  rw [stringAt, if_pos found.ends]
  exact congrArg _ found.path

theorem Found.uncut (found : Found image start i item) : Vfs.strlcpy item.path Vfs.fsPathMax = item.path :=
  List.take_of_length_le (Nat.le_of_lt (Nat.lt_of_lt_of_le found.short (by decide)))

theorem Found.word (found : Found image start i item) (k width : Nat) (inside : k + width ≤ entrySize) :
    wordAt image (entryAt i + k) width = .ok (field image (entryAt i + k) width) := by
  have table := found.table
  exact wordAt_inside (by omega)

theorem unpackEntry_dir (found : Found image start i item) (dir : item.type = typeDir) :
    unpackEntry F image header s i = unpackDir F image i s item.path := by
  have type : field image (entryAt i + 192) 4 = typeDir := found.type.trans dir
  unfold unpackEntry
  rw [found.name, found.word _ _ (by decide), type]
  simp only [bind, Except.bind, found.uncut, if_true]

theorem unpackEntry_file (found : Found image start i item) (file : item.type = typeFile) :
    unpackEntry F image header s i = unpackFile F image header i s item.path := by
  have type : field image (entryAt i + 192) 4 = typeFile := found.type.trans file
  have other : typeFile ≠ typeDir := by decide
  unfold unpackEntry
  rw [found.name, found.word _ _ (by decide), type]
  simp only [bind, Except.bind, found.uncut, if_neg other]

end Reading

/-- The filesystem after these items, from s on. -/
structure Progress (s : Vfs.FsState) (before : List Item) (v : Volume) : Prop where
  tree : ∃ kids, Vfs.Tree v.fs kids
  places : Vfs.Places s v.fs
  back : ∀ us, Vfs.Dotless us → ∀ y, Vfs.lookupFrom v.fs v.fs.root us = some (some y) →
    Vfs.lookupFrom s s.root us = some (some y) ∨ ∃ item ∈ before, Vfs.tokens item.path = us
  mounted : ∀ item ∈ before, Mounted v.fs item

section Items
variable {s : Vfs.FsState} {kids : Vfs.NodeId → List Vfs.NodeId} {before after : List Item} {item : Item} {v : Volume}
  {envs : Nat → Vfs.Env}

theorem Mounted.adds {t u : Vfs.FsState} {kids kids' : Vfs.NodeId → List Vfs.NodeId} {ts : List Vfs.Bytes} {x : Vfs.NodeId}
    (mounted : Mounted t item) (adds : Vfs.Adds t u ts x) (tree : Vfs.Tree t kids) (tree' : Vfs.Tree u kids') : Mounted u item := by
  obtain ⟨id, n, search, live, dir, file⟩ := mounted
  obtain ⟨m, here, -, -, body⟩ := adds.kept id n live
  have type : m.type = n.type := congrArg Vfs.Body.type body
  refine ⟨id, m, adds.places.lookup tree tree' search, here, fun isDir => type.trans (dir isDir), fun isFile => ?_⟩
  obtain ⟨a, b, c, d⟩ := file isFile
  exact ⟨type.trans a, (congrArg Vfs.Body.size body).trans b, (Vfs.contents_body body).trans c,
    (congrArg Vfs.Body.permissions body).trans d⟩

theorem Progress.add {t : Volume} {kids' : Vfs.NodeId → List Vfs.NodeId} {ts : List Vfs.Bytes} {x : Vfs.NodeId}
    (progress : Progress s before v) (adds : Vfs.Adds v.fs t.fs ts x) (tree' : Vfs.Tree t.fs kids') (plain : Vfs.Dotless ts)
    (path : Vfs.tokens item.path = ts) (mounted : Mounted t.fs item) : Progress s (before ++ [item]) t := by
  obtain ⟨kids, tree⟩ := progress.tree
  refine ⟨⟨kids', tree'⟩, progress.places.trans adds.places, fun us dotless y run => ?_, fun other member => ?_⟩
  · rcases adds.back tree tree' plain dotless run with old | rfl
    · rcases progress.back us dotless y old with first | ⟨item', member, same⟩
      · exact Or.inl first
      · exact Or.inr ⟨item', List.mem_append_left _ member, same⟩
    · exact Or.inr ⟨item, List.mem_append_right _ (List.mem_singleton_self _), path⟩
  · rcases List.mem_append.mp member with old | new
    · exact (progress.mounted other old).adds adds tree tree'
    · rw [List.mem_singleton.mp new]
      exact mounted

theorem Progress.untouched {cs : List Vfs.Bytes} (progress : Progress s before v) (shape : Collected (before ++ item :: after))
    (whole : ∀ c ∈ cs, Vfs.Component c) (path : item.path = Vfs.absolute cs) {y : Vfs.NodeId}
    (run : Vfs.lookupFrom v.fs v.fs.root cs = some (some y)) : Vfs.lookupFrom s s.root cs = some (some y) := by
  have plain : Vfs.Dotless cs := fun c member => ⟨(whole c member).2.1, (whole c member).2.2.1⟩
  rcases progress.back cs plain y run with old | ⟨other, member, same⟩
  · exact old
  · obtain ⟨cs', -, whole', path'⟩ := shape.paths other (List.mem_append_left _ member)
    rw [path', Vfs.tokens_absolute whole'] at same
    have twice : other.path = item.path := by rw [path', same, path]
    have distinct := shape.distinct
    rw [List.map_append, List.map_cons] at distinct
    have clash := List.disjoint_of_nodup_append distinct (List.mem_map_of_mem member)
    exact absurd (by rw [twice]; exact List.mem_cons_self) clash

theorem Progress.parent {ts : List Vfs.Bytes} {name : Vfs.Bytes} (progress : Progress s before v)
    (shape : Collected (before ++ item :: after)) (whole : ∀ c ∈ ts ++ [name], Vfs.Component c)
    (path : item.path = Vfs.absolute (ts ++ [name])) (short : item.path.length < 192) :
    ∃ d nd, Vfs.lookupFrom v.fs v.fs.root ts = some (some d) ∧ v.fs.nodes d = some nd ∧ nd.type = .dir := by
  obtain ⟨kids, tree⟩ := progress.tree
  by_cases top : ts = []
  · obtain ⟨r, root, dir, -⟩ := tree.root_live
    exact ⟨v.fs.root, r, by rw [top]; rfl, root, dir⟩
  · have split : Vfs.splitLast item.path = some (Vfs.absolute ts, name) := by
      rw [path, Vfs.absolute_snoc]
      exact Vfs.splitLast_append _ (whole name (by simp)).2.2.2.1
    have inner : Vfs.absolute ts ≠ [] := fun empty => top (Vfs.absolute_eq_nil.mp empty)
    obtain ⟨dir, listed, isDir, dirPath⟩ := shape.parents item (by simp) _ _ split inner
    have longer : item.path = dir.path ++ 47 :: name := by rw [path, Vfs.absolute_snoc, dirPath]
    have earlier : dir ∈ before := by
      rcases List.mem_append.mp listed with done | rest
      · exact done
      · exfalso
        have deeper : depth dir.path < depth item.path := by
          simp [depth, longer]
        rcases List.mem_cons.mp rest with rfl | later
        · exact absurd deeper (Nat.lt_irrefl _)
        · have order := (List.pairwise_cons.mp (List.pairwise_append.mp shape.sorted).2.1).1 dir later
          rcases shape.types item (by simp) with file | ⟨dirType, -⟩
          · exact absurd (isDir.symm.trans (order.1 file)) (by decide)
          · exact absurd (order.2 (dirType.trans isDir.symm)) (Nat.not_le.mpr deeper)
    obtain ⟨d, nd, search, live, type, -⟩ := progress.mounted dir earlier
    have few : (Vfs.absolute ts).length < Vfs.fsPathMax := by
      have length := congrArg List.length longer
      rw [dirPath, List.length_append] at length
      have limit : Vfs.fsPathMax = 512 := rfl
      omega
    rw [dirPath, Vfs.fsLookup, ← Vfs.steps, Vfs.steps_absolute (fun c member => whole c (by simp [member])) few] at search
    exact ⟨d, nd, search, live, type isDir⟩

section Unpacking
variable {image : Bytes} {header : Header} {i : Nat}

theorem unpackDir_progress (start : Vfs.Tree s kids) (found : Found image header.dataOffset i item) (progress : Progress s before v)
    (shape : Collected (before ++ item :: after)) (apart : Apart (before ++ item :: after) s) (dir : item.type = typeDir)
    (memory : ∀ k, (envs k).nodeAlloc = true ∧ (envs k).dataAlloc = true)
    (few : ∀ c ∈ Vfs.tokens item.path, c.length < Vfs.fsNameMax) :
    ∃ t, unpackDir (volume envs) image i v item.path = .ok t ∧ Progress s (before ++ [item]) t := by
  obtain ⟨kids, tree⟩ := progress.tree
  obtain ⟨cs, some_, whole, path⟩ := shape.paths item (by simp)
  have limit : item.path.length < Vfs.fsPathMax := Nat.lt_of_lt_of_le found.short (by decide)
  have notFile : item.type ≠ typeFile := by
    rw [dir]
    decide
  have walk (t : Vfs.FsState) : Vfs.fsLookup t item.path = Vfs.lookupFrom t t.root cs := by
    rw [path] at limit ⊢
    rw [Vfs.fsLookup, ← Vfs.steps, Vfs.steps_absolute whole limit]
  obtain ⟨there, search, alive⟩ := Vfs.fsLookup_spec tree item.path
  unfold unpackDir
  cases there with
  | some y =>
    obtain ⟨m, live⟩ := alive y rfl
    have old := progress.untouched shape whole path (by rw [← walk]; exact search)
    rw [← walk] at old
    obtain ⟨first, search₀, alive₀⟩ := Vfs.fsLookup_spec start item.path
    obtain ⟨n, before_⟩ := alive₀ y (Option.some.inj (search₀.symm.trans old))
    obtain ⟨m', live', -, -, type, -⟩ := progress.places.placed y n before_
    cases Option.some.inj (live.symm.trans live')
    have isDir := (apart item (by simp)).2 dir y n old before_
    refine ⟨v, by simp only [volume, search]; rfl, progress.tree, progress.places, ?_, ?_⟩
    · intro us plain z run
      rcases progress.back us plain z run with first | ⟨other, member, same⟩
      · exact Or.inl first
      · exact Or.inr ⟨other, List.mem_append_left _ member, same⟩
    · intro other member
      rcases List.mem_append.mp member with done | new
      · exact progress.mounted other done
      · rw [List.mem_singleton.mp new]
        exact ⟨y, m, search, live, fun _ => type.trans isDir, fun file => absurd file notFile⟩
  | none =>
    obtain ⟨ts, name, rfl⟩ := (List.eq_nil_or_concat' cs).resolve_left some_
    obtain ⟨d, nd, front, dirLive, isDir⟩ := progress.parent shape whole path found.short
    rw [path, Vfs.tokens_absolute whole] at few
    obtain ⟨t, kids', n, run, tree', adds, made, typed, -⟩ := Vfs.fsCreate_adds tree whole
      (by rwa [← path]) (few name (by simp)) front dirLive isDir (by rwa [← path]) (memory v.calls).1 .dir
      (field image (entryAt i + 196) 4)
    rw [← path] at run
    have makes : Vfs.fsMkdir (envs v.calls) v.fs item.path (field image (entryAt i + 196) 4) = some (0, t) := by
      simp [Vfs.fsMkdir, search, run]
    refine ⟨⟨t, v.calls + 1⟩, ?_, progress.add adds tree' ?_ (by rw [path, Vfs.tokens_absolute whole]) ?_⟩
    · simp only [volume, search, makes, call, bind, Except.bind, found.word 196 4 (by decide)]
      rfl
    · exact fun c member => ⟨(whole c member).2.1, (whole c member).2.2.1⟩
    · exact ⟨_, n, by rw [walk]; exact adds.reached, made, fun _ => typed, fun file => absurd file notFile⟩

theorem getD_bytes (data : Bytes) : (List.range data.length).map (fun i => data.getD (0 + i) 0) = data := by
  apply List.ext_getElem
  · simp
  · intro i left right
    simp [right]

theorem Found.dataAt_eq (found : Found image header.dataOffset i item) (small : image.length < 2 ^ 64) :
    dataAt header (entryOf image i).offset = header.dataOffset + (entryOf image i).offset := by
  have inside := found.inside
  exact wrap64_of_lt (by omega)

theorem fillNode_volume {t : Vfs.FsState} {ts : List Vfs.Bytes} {x : Vfs.NodeId} {n : Vfs.FsNode} {k : Nat}
    (found : Found image header.dataOffset i item) (small : image.length < 2 ^ 64)
    (memory : ∀ k, (envs k).nodeAlloc = true ∧ (envs k).dataAlloc = true) (adds : Vfs.Adds s t ts x) (tree : Vfs.Tree t kids)
    (live : t.nodes x = some n) (empty : n.size = 0) :
    ∃ u m, fillNode (volume envs) image header i (entryOf image i).offset (entryOf image i).size ⟨t, k⟩ x = .ok u ∧
      Vfs.Adds s u.fs ts x ∧ Vfs.Tree u.fs kids ∧ u.fs.nodes x = some m ∧ m.type = n.type ∧ m.size = item.data.length ∧
      m.contents = item.data ∧ m.permissions = item.perms := by
  have permissions : field image (entryAt i + 196) 4 = item.perms := found.permissions
  have at_ {u : Vfs.FsState} {m : Vfs.FsNode} (f : Vfs.FsNode → Vfs.FsNode) (here : u.nodes x = some m) :
      (Vfs.setNode u x f).nodes x = some (f m) := by
    simp [Vfs.setNode, here]
  unfold fillNode
  rw [found.word 196 4 (by decide), found.word 216 8 (by decide), found.word 224 4 (by decide), found.word 228 4 (by decide),
    permissions, found.size]
  by_cases none_ : item.data.length = 0
  · refine ⟨_, described item.perms _ _ _ n, if_pos none_, adds.set tree fun n => ⟨rfl, rfl⟩, tree.touch fun n => rfl,
      at_ _ live, rfl, empty.trans none_.symm, ?_, rfl⟩
    rw [List.eq_nil_of_length_eq_zero none_]
    simp [Vfs.FsNode.contents, Vfs.slice, described, empty]
  · have reads : bytesAt image (dataAt header (entryOf image i).offset) item.data.length = .ok item.data := by
      rw [found.dataAt_eq small, bytesAt_inside found.inside, found.data]
    have first : Vfs.Adds s (Vfs.setNode t x (allocated (envs k))) ts x := adds.set tree fun n => ⟨rfl, rfl⟩
    have tree₁ : Vfs.Tree (Vfs.setNode t x (allocated (envs k))) kids := tree.touch fun n => rfl
    have second : Vfs.Adds s (Vfs.setNode (Vfs.setNode t x (allocated (envs k))) x (filled item.data)) ts x :=
      first.set tree₁ fun n => ⟨rfl, rfl⟩
    have tree₂ : Vfs.Tree (Vfs.setNode (Vfs.setNode t x (allocated (envs k))) x (filled item.data)) kids :=
      tree₁.touch fun n => rfl
    simp only [if_neg none_, volume, (memory k).2, reads]
    exact ⟨_, described item.perms _ _ _ (filled item.data (allocated (envs k) n)), rfl, second.set tree₂ fun n => ⟨rfl, rfl⟩,
      tree₂.touch fun n => rfl, at_ _ (at_ _ (at_ _ live)), rfl, rfl, getD_bytes item.data, rfl⟩

theorem ensureParent_progress {ts : List Vfs.Bytes} {name : Vfs.Bytes} {d : Vfs.NodeId} (path : item.path = Vfs.absolute (ts ++ [name]))
    (whole : ∀ c ∈ ts ++ [name], Vfs.Component c) (short : item.path.length < Vfs.fsPathMax)
    (front : Vfs.lookupFrom v.fs v.fs.root ts = some (some d)) : ensureParent (volume envs) v item.path = .ok v := by
  have split : Vfs.splitLast item.path = some (Vfs.absolute ts, name) := by
    rw [path, Vfs.absolute_snoc]
    exact Vfs.splitLast_append _ (whole name (by simp)).2.2.2.1
  have few : (Vfs.absolute ts).length < Vfs.fsPathMax := by
    rw [path, Vfs.absolute_snoc, List.length_append] at short
    omega
  have search : Vfs.fsLookup v.fs (Vfs.absolute ts) = some (some d) := by
    rw [Vfs.fsLookup, ← Vfs.steps, Vfs.steps_absolute (fun c member => whole c (by simp [member])) few]
    exact front
  simp only [ensureParent, split]
  split
  · rfl
  · simp only [volume, search]
    rfl

theorem unpackFile_progress (found : Found image header.dataOffset i item) (total : header.totalSize = image.length)
    (small : image.length < 2 ^ 64) (progress : Progress s before v) (shape : Collected (before ++ item :: after))
    (apart : Apart (before ++ item :: after) s) (file : item.type = typeFile)
    (memory : ∀ k, (envs k).nodeAlloc = true ∧ (envs k).dataAlloc = true)
    (few : ∀ c ∈ Vfs.tokens item.path, c.length < Vfs.fsNameMax) :
    ∃ t, unpackFile (volume envs) image header i v item.path = .ok t ∧ Progress s (before ++ [item]) t := by
  obtain ⟨kids, tree⟩ := progress.tree
  obtain ⟨cs, some_, whole, path⟩ := shape.paths item (by simp)
  have limit : item.path.length < Vfs.fsPathMax := Nat.lt_of_lt_of_le found.short (by decide)
  have notDir : item.type ≠ typeDir := by
    rw [file]
    decide
  have walk (t : Vfs.FsState) : Vfs.fsLookup t item.path = Vfs.lookupFrom t t.root cs := by
    rw [path] at limit ⊢
    rw [Vfs.fsLookup, ← Vfs.steps, Vfs.steps_absolute whole limit]
  have absent : Vfs.fsLookup v.fs item.path = some none := by
    obtain ⟨there, search, -⟩ := Vfs.fsLookup_spec tree item.path
    cases there with
    | none => exact search
    | some y =>
      have old := progress.untouched shape whole path (by rw [← walk]; exact search)
      rw [← walk, (apart item (by simp)).1 file] at old
      exact absurd (Option.some.inj old) (by simp)
  have passes : ¬ wrap64 (field image (entryAt i + 208) 8 + field image (entryAt i + 200) 8) >
      sub64 header.totalSize header.dataOffset := by
    have size : field image (entryAt i + 200) 8 = item.data.length := found.size
    have inside : header.dataOffset + field image (entryAt i + 208) 8 + item.data.length ≤ image.length := found.inside
    rw [size, total, sub64_of_le (by omega) small, wrap64_of_lt (by omega)]
    omega
  obtain ⟨ts, name, rfl⟩ := (List.eq_nil_or_concat' cs).resolve_left some_
  obtain ⟨d, nd, front, dirLive, isDir⟩ := progress.parent shape whole path found.short
  have tokens := Vfs.tokens_absolute whole
  rw [path, tokens] at few
  obtain ⟨t, kids', n, run, tree', adds, made, typed, empty⟩ := Vfs.fsCreate_adds tree whole (by rwa [← path]) (few name (by simp))
    front dirLive isDir (by rwa [← path]) (memory v.calls).1 .file (field image (entryAt i + 196) 4)
  rw [← path] at run
  obtain ⟨u, m, fill, adds', tree'', live, type, size, bytes, permissions⟩ :=
    fillNode_volume found small memory adds tree' made empty
  refine ⟨u, ?_, progress.add adds' tree'' ?_ (by rw [path, tokens]) ?_⟩
  · have node : fileNode (volume envs) image i v item.path = .ok (some v.fs.nextInode, ⟨t, v.calls + 1⟩) := by
      simp only [fileNode, volume, absent, run, found.word 196 4 (by decide), call, bind, Except.bind, Option.map_some]
    unfold unpackFile
    rw [found.word 208 8 (by decide), found.word 200 8 (by decide), ensureParent_progress path whole limit front]
    simp only [bind, Except.bind, if_neg passes, node]
    exact fill
  · exact fun c member => ⟨(whole c member).2.1, (whole c member).2.2.1⟩
  · refine ⟨_, m, by rw [walk]; exact adds'.reached, live, fun dir => absurd dir notDir, fun _ => ?_⟩
    exact ⟨type.trans typed, size, bytes, permissions⟩

end Unpacking

end Items

section Whole
variable {items : List Item} {image label : Bytes} {packing : Packing}

theorem Collected.clean (shape : Collected items) {item : Item} (member : item ∈ items) : 0 ∉ item.path := by
  obtain ⟨cs, -, whole, path⟩ := shape.paths item member
  rw [path, Vfs.absolute, List.mem_flatMap]
  rintro ⟨c, inside, zero⟩
  rcases List.mem_cons.mp zero with slash | here
  · exact absurd slash (by decide)
  · exact (whole c inside).2.2.2.2 here

theorem Built.small (built : Built items image packing label) : image.length < 2 ^ 64 := by
  rw [built.length]
  exact built.total

theorem Built.announced (built : Built items image packing label) : Announced image := by
  have before := table_before_data items
  have header := built.header
  refine ⟨?_, ?_, ?_, ?_⟩
  · rw [built.length]
    omega
  · rw [header]
  · rw [header]
  · rw [header]

theorem Built.foundAt (built : Built items image packing label) (shape : Collected items) {i : Nat} {item : Item}
    (there : items[i]? = some item) : Found image (headerOf image).dataOffset i item := by
  rw [built.header]
  exact built.found there (shape.clean (List.mem_of_getElem? there))

theorem Built.sum (built : Built items image packing label) (shape : Collected items) :
    payloadSum image = (headerOf image).checksum := by
  have count : (headerOf image).entryCount = items.length := by rw [built.header]
  have sums : (List.range items.length).map (entrySum image) = items.map fun item => (item.data.map UInt8.toNat).sum := by
    apply List.ext_getElem
    · simp
    · intro i left right
      have bound : i < items.length := by simpa using left
      have found := built.foundAt shape (List.getElem?_eq_getElem bound)
      have bytes : payload image i = items[i].data := by
        rw [payload, found.dataAt_eq built.small, found.size, found.data]
      simp only [List.getElem_map, List.getElem_range, entrySum, found.type, bytes]
      rcases shape.types items[i] (List.getElem_mem bound) with file | ⟨dir, none_⟩
      · rw [if_pos file]
      · rw [none_]
        simp
  have stored : (headerOf image).checksum = packing.checksum := by rw [built.header]
  rw [payloadSum, count, sums, stored, built.packs.checksum]

theorem Built.contained (built : Built items image packing label) (shape : Collected items) : Contained image := by
  intro announced
  have count : (headerOf image).entryCount = items.length := by rw [built.header]
  have found {i : Nat} (bound : i < (headerOf image).entryCount) : ∃ item, Found image (headerOf image).dataOffset i item := by
    rw [count] at bound
    exact ⟨items[i], built.foundAt shape (List.getElem?_eq_getElem bound)⟩
  have data {i : Nat} {item : Item} (here : Found image (headerOf image).dataOffset i item) : DataInside image i := by
    rw [DataInside, here.dataAt_eq built.small, here.size]
    exact here.inside
  refine ⟨fun i bound => ?_, fun _ i bound => ?_⟩
  · obtain ⟨item, here⟩ := found bound
    have table : entryAt i + 232 ≤ image.length := here.table
    exact ⟨by omega, fun _ => ⟨by omega, fun _ => ⟨by omega, data here⟩⟩⟩
  · obtain ⟨item, here⟩ := found bound
    have table : entryAt i + 232 ≤ image.length := here.table
    refine ⟨here.ends, by omega, ?_⟩
    split
    · omega
    · exact ⟨by omega, fun _ => ⟨fun _ => data here, table⟩⟩

variable {envs : Nat → Vfs.Env} {v : Volume}

theorem mount_short (built : Built items image packing label) (shape : Collected items) (fresh : Kept v)
    (apart : Apart items v.fs) (memory : ∀ k, (envs k).nodeAlloc = true ∧ (envs k).dataAlloc = true)
    (few : ∀ item ∈ items, ∀ c ∈ Vfs.tokens item.path, c.length < Vfs.fsNameMax) :
    ∃ t, fsMountRamdisk (volume envs) (some image) v = .ok (0, t) ∧ ∀ item ∈ items, Mounted t.fs item := by
  obtain ⟨⟨kids, tree⟩, -⟩ := fresh
  have count : (headerOf image).entryCount = items.length := by rw [built.header]
  have total : (headerOf image).totalSize = image.length := by rw [built.header]
  have round (before : List Nat) (i : Nat) (after : List Nat) (u : Volume) (whole : List.range items.length = before ++ i :: after)
      (progress : Progress v.fs (items.take before.length) u) :
      ∃ t, unpackEntry (volume envs) image (headerOf image) u i = .ok t ∧
        Progress v.fs (items.take (before ++ [i]).length) t := by
    have last : before.length < items.length ∧ i = before.length := by
      have there : (List.range items.length)[before.length]? = some i := by
        rw [whole]
        simp
      obtain ⟨bound, value⟩ := List.getElem?_eq_some_iff.mp there
      rw [List.getElem_range] at value
      rw [List.length_range] at bound
      exact ⟨bound, value.symm⟩
    obtain ⟨bound, rfl⟩ := last
    have parts : items = items.take before.length ++ items[before.length] :: items.drop (before.length + 1) := by
      rw [← List.drop_eq_getElem_cons bound, List.take_append_drop]
    have next : items.take (before ++ [before.length]).length = items.take before.length ++ [items[before.length]] := by
      rw [List.length_append, List.length_singleton, List.take_add_one, List.getElem?_eq_getElem bound]
      rfl
    have found := built.foundAt shape (List.getElem?_eq_getElem bound)
    have member : items[before.length] ∈ items := List.getElem_mem bound
    have names := few _ member
    have kind := shape.types _ member
    generalize items[before.length] = item at *
    rw [next]
    rw [parts] at shape apart
    rcases kind with file | ⟨dir, -⟩
    · rw [unpackEntry_file found file]
      exact unpackFile_progress found total built.small progress shape apart file memory names
    · rw [unpackEntry_dir found dir]
      exact unpackDir_progress tree found progress shape apart dir memory names
  have start : Progress v.fs (items.take ([] : List Nat).length) v :=
    ⟨⟨kids, tree⟩, ⟨rfl, fun id n live => ⟨n, live, rfl, rfl, rfl, rfl⟩⟩, fun us _ y run => Or.inl run, by simp⟩
  obtain ⟨t, run, progress⟩ := fold_invariant (fun before u => Progress v.fs (items.take before.length) u) round start
  rw [List.length_range, List.take_length] at progress
  obtain ⟨summed, -⟩ := built.contained shape built.announced
  refine ⟨t, ?_, progress.mounted⟩
  rw [fsMountRamdisk_announced built.announced, checksum_inside summed]
  change (if payloadSum image ≠ (headerOf image).checksum then _ else _) = _
  rw [if_neg (not_not.mpr (built.sum shape)), count, run, bytesAt_inside built.announced.1]
  rfl

theorem mount_long (built : Built items image packing label) (shape : Collected items) (fresh : Kept v) {item : Item}
    (listed : item ∈ items) {c : Bytes} (member : c ∈ Vfs.tokens item.path) (long : Vfs.fsNameMax ≤ c.length) {code : Int}
    {t : Volume} (run : fsMountRamdisk (volume envs) (some image) v = .ok (code, t)) (id : Vfs.NodeId) :
    Vfs.fsLookup t.fs item.path ≠ some (some id) := by
  obtain ⟨code', t', run', ⟨kids, tree⟩, named⟩ := mount_returns (volume_sound envs) fresh (built.contained shape)
  obtain ⟨-, rfl⟩ := Prod.mk.inj (Except.ok.inj (run.symm.trans run'))
  obtain ⟨cs, -, whole, path⟩ := shape.paths item listed
  obtain ⟨i, bound, rfl⟩ := List.mem_iff_getElem.mp listed
  have found := built.foundAt shape (List.getElem?_eq_getElem bound)
  have limit : (Vfs.absolute cs).length < Vfs.fsPathMax := by
    rw [← path]
    exact Nat.lt_of_lt_of_le found.short (by decide)
  rw [path, Vfs.tokens_absolute whole] at member
  rw [path, Vfs.fsLookup, ← Vfs.steps, Vfs.steps_absolute whole limit]
  exact named.lost tree (fun c inside => ⟨(whole c inside).2.1, (whole c inside).2.2.1⟩) member long id

end Whole

/-- Every listed path is there after the mount, as it was packed, just when no
component of one is cut to the length of a name. -/
theorem mount_roundtrip_iff {clock : Nat → Int} {items : List Item} {label image : Bytes} {envs : Nat → Vfs.Env} {v : Volume}
    (shape : Collected items) (built : build clock items label = .ok image) (fresh : Kept v) (apart : Apart items v.fs)
    (memory : ∀ k, (envs k).nodeAlloc = true ∧ (envs k).dataAlloc = true) :
    (∃ t, fsMountRamdisk (volume envs) (some image) v = .ok (0, t) ∧ ∀ item ∈ items, Mounted t.fs item) ↔
      ∀ item ∈ items, ∀ c ∈ Vfs.tokens item.path, c.length < Vfs.fsNameMax := by
  obtain ⟨packing, built⟩ := build_ok built
  constructor
  · rintro ⟨t, run, mounted⟩ item listed c member
    by_contra long
    obtain ⟨id, n, search, -⟩ := mounted item listed
    exact mount_long built shape fresh listed member (Nat.le_of_not_lt long) run id search
  · exact mount_short built shape fresh apart memory

/-- A tree with one directory and one file in it. -/
def readme : List Item :=
  [{ path := Vfs.ascii "/doc", type := typeDir, perms := 0o755, data := [], modified := none },
    { path := Vfs.ascii "/doc/readme", type := typeFile, perms := 0o644, data := Vfs.ascii "qito", modified := some 7 }]

theorem readme_collected : Collected readme where
  paths := by
    intro item member
    simp only [readme, List.mem_cons, List.not_mem_nil, or_false] at member
    rcases member with rfl | rfl
    · exact ⟨[Vfs.ascii "doc"], by decide, by decide, by decide⟩
    · exact ⟨[Vfs.ascii "doc", Vfs.ascii "readme"], by decide, by decide, by decide⟩
  types := by decide
  distinct := by decide
  sorted := by decide
  parents := by
    intro item member front name split inner
    simp only [readme, List.mem_cons, List.not_mem_nil, or_false] at member
    rcases member with rfl | rfl
    · have whole : Vfs.splitLast (Vfs.ascii "/doc") = some ([], Vfs.ascii "doc") := by decide
      cases Option.some.inj (whole.symm.trans split)
      exact absurd rfl inner
    · have whole : Vfs.splitLast (Vfs.ascii "/doc/readme") = some (Vfs.ascii "/doc", Vfs.ascii "readme") := by decide
      cases Option.some.inj (whole.symm.trans split)
      exact ⟨_, List.mem_cons_self, rfl, rfl⟩

theorem boot_kept : ∃ s, Vfs.fsInit Vfs.bootEnv (fun _ => Vfs.bootEnv) = some s ∧ Kept ⟨s, 0⟩ := by
  obtain ⟨s, kids, started, tree⟩ := Vfs.fsInit_tree Vfs.bootEnv (fun _ => Vfs.bootEnv) rfl
  exact ⟨s, started, ⟨kids, tree⟩, Vfs.fsInit_named started⟩

theorem readme_mounted : ∃ s image t, Vfs.fsInit Vfs.bootEnv (fun _ => Vfs.bootEnv) = some s ∧
    build (fun _ => 7) readme (Vfs.ascii "qitoos-dev") = .ok image ∧
    fsMountRamdisk (volume fun _ => Vfs.bootEnv) (some image) ⟨s, 0⟩ = .ok (0, t) ∧ ∀ item ∈ readme, Mounted t.fs item := by
  obtain ⟨s, started, kept⟩ := boot_kept
  have absent : ((Vfs.fsInit Vfs.bootEnv fun _ => Vfs.bootEnv).map fun s =>
      readme.all fun item => decide (Vfs.fsLookup s item.path = some none)) = some true := by decide +kernel
  rw [started, Option.map_some, Option.some.injEq] at absent
  have apart : Apart readme s := by
    intro item member
    have none_ : Vfs.fsLookup s item.path = some none := of_decide_eq_true (List.all_eq_true.mp absent item member)
    exact ⟨fun _ => none_, fun _ id n search => absurd (none_.symm.trans search) (by simp)⟩
  cases made : build (fun _ => 7) readme (Vfs.ascii "qitoos-dev") with
  | error e =>
    have accepted : (build (fun _ => 7) readme (Vfs.ascii "qitoos-dev")).toOption.isSome = true := by decide +kernel
    rw [made] at accepted
    exact absurd accepted (by simp [Except.toOption])
  | ok image =>
    have memory : ∀ k : Nat, ((fun _ => Vfs.bootEnv : Nat → Vfs.Env) k).nodeAlloc = true ∧
        ((fun _ => Vfs.bootEnv : Nat → Vfs.Env) k).dataAlloc = true := fun _ => ⟨rfl, rfl⟩
    obtain ⟨t, run, mounted⟩ := (mount_roundtrip_iff readme_collected made kept apart memory).mpr (by decide)
    exact ⟨s, image, t, started, rfl, run, mounted⟩

/-- A file with a name of 64 bytes, which mkqitofs packs. -/
def longName : Item :=
  { path := 47 :: List.replicate 64 97, type := typeFile, perms := 0o644, data := [], modified := some 7 }

example : longName.path.length = 65 := by decide +kernel

theorem longName_collected : Collected [longName] where
  paths := by
    intro item member
    rw [List.mem_singleton.mp member]
    exact ⟨[List.replicate 64 97], by decide, by decide, by decide⟩
  types := by decide
  distinct := by decide
  sorted := List.pairwise_singleton _ _
  parents := by
    intro item member front name split inner
    rw [List.mem_singleton.mp member] at split
    have whole : Vfs.splitLast longName.path = some ([], List.replicate 64 97) := by decide
    cases Option.some.inj (whole.symm.trans split)
    exact absurd rfl inner

/-- The mount reports success, and the path leads nowhere. -/
theorem longName_lost : ¬ ∀ (clock : Nat → Int) (items : List Item) (label image : Bytes) (envs : Nat → Vfs.Env) (v : Volume),
    Collected items → build clock items label = .ok image → Kept v → Apart items v.fs →
    (∀ k, (envs k).nodeAlloc = true ∧ (envs k).dataAlloc = true) →
    ∃ t, fsMountRamdisk (volume envs) (some image) v = .ok (0, t) ∧ ∀ item ∈ items, Mounted t.fs item := by
  intro always
  obtain ⟨s, started, kept⟩ := boot_kept
  have absent : ((Vfs.fsInit Vfs.bootEnv fun _ => Vfs.bootEnv).map fun s =>
      decide (Vfs.fsLookup s longName.path = some none)) = some true := by decide +kernel
  rw [started, Option.map_some, Option.some.injEq, decide_eq_true_iff] at absent
  have apart : Apart [longName] s := by
    intro item member
    rw [List.mem_singleton.mp member]
    exact ⟨fun _ => absent, fun _ id n search => absurd (absent.symm.trans search) (by simp)⟩
  cases made : build (fun _ => 7) [longName] (Vfs.ascii "qitoos-dev") with
  | error e =>
    have accepted : (build (fun _ => 7) [longName] (Vfs.ascii "qitoos-dev")).toOption.isSome = true := by decide +kernel
    rw [made] at accepted
    exact absurd accepted (by simp [Except.toOption])
  | ok image =>
    obtain ⟨packing, built⟩ := build_ok made
    obtain ⟨t, run, mounted⟩ := always _ _ _ image (fun _ => Vfs.bootEnv) ⟨s, 0⟩ longName_collected made kept apart
      fun _ => ⟨rfl, rfl⟩
    obtain ⟨id, n, search, -⟩ := mounted longName (List.mem_singleton_self _)
    have member : List.replicate 64 97 ∈ Vfs.tokens longName.path := by decide
    exact mount_long built longName_collected kept (List.mem_singleton_self _) member (by decide) run id search

end Qito.Ramdisk
