import Qito.Iso.Reading
import Qito.Lib.Extents

/-! Where build puts things: one extent after another, from sector 21 on. -/
namespace Qito.Iso.IsoBuilder
open Buffers Extents

/-- The lengths of the records of a directory. -/
def recordLengths (b : IsoBuilder) (joliet : Bool) (d : Nat) : List Nat :=
  34 :: 34 :: (b.sortedChildren d).map fun c => recordLength (identifier (b.node c).name (b.node c).isDir joliet none).length

/-- What a directory takes when its records are counted without what is skipped at the end of a sector. -/
def dirLength (b : IsoBuilder) (joliet : Bool) (d : Nat) : Nat := alignUp (b.recordLengths joliet d).sum sector

def dirExtent (a : Layout) (joliet : Bool) (d : Nat) : Nat := if joliet then a.jolietExtent d else a.extent d

def declaredLength (a : Layout) (joliet : Bool) (d : Nat) : Nat := if joliet then a.jolietLength d else a.length d

section Places
variable {b : IsoBuilder} {a : Layout} {joliet : Bool} {d n : Nat} {s t : Layout × Nat} {dirs files : List Nat}

theorem alignUp_dvd (value : Nat) : sector ∣ alignUp value sector := Nat.dvd_mul_left _ _

theorem alignUp_ge (value : Nat) : value ≤ alignUp value sector := by
  unfold alignUp sector
  omega

theorem nodeRecord_length {special : Option UInt8} {record : Bytes} (packed : b.nodeRecord a joliet special d = some record) :
    record.length = recordLength (identifier (b.node d).name (b.node d).isDir joliet special).length :=
  (dirRecord_recorded packed).length

theorem dirSize_spec (sized : b.dirSize a joliet d = some n) : n = b.dirLength joliet d := by
  simp only [dirSize, Option.bind_eq_bind, Option.bind_eq_some_iff, Option.some.injEq] at sized
  obtain ⟨self, isSelf, up, isUp, records, each, rfl⟩ := sized
  have lengths : records.map List.length =
      (b.sortedChildren d).map fun c => recordLength (identifier (b.node c).name (b.node c).isDir joliet none).length := by
    have packed := mapM_some_iff.mp each
    clear each
    generalize b.sortedChildren d = children at packed
    induction packed with
    | nil => rfl
    | cons here _ ih => rw [List.map_cons, List.map_cons, ih, nodeRecord_length here]
  have first : self.length = 34 := (nodeRecord_length isSelf).trans (by rw [identifier]; rfl)
  have second : up.length = 34 := (nodeRecord_length isUp).trans (by rw [identifier]; rfl)
  rw [dirLength, recordLengths, List.sum_cons, List.sum_cons, ← lengths, first, second, Nat.add_assoc]

/-- What a loop over directories has done to the layout. -/
structure Placed (b : IsoBuilder) (joliet : Bool) (dirs : List Nat) (s t : Layout × Nat) : Prop where
  chained : Chained s.2 (dirs.map fun d => (dirExtent t.1 joliet d, b.dirLength joliet d / sector)) t.2
  lengths : ∀ d ∈ dirs, declaredLength t.1 joliet d = b.dirLength joliet d
  others : ∀ i, i ∉ dirs → dirExtent t.1 joliet i = dirExtent s.1 joliet i ∧ declaredLength t.1 joliet i = declaredLength s.1 joliet i
  apart : dirExtent t.1 (!joliet) = dirExtent s.1 (!joliet) ∧ declaredLength t.1 (!joliet) = declaredLength s.1 (!joliet)

theorem placeDir_spec (placed : b.placeDir joliet s d = some t) :
    dirExtent t.1 joliet = Function.update (dirExtent s.1 joliet) d s.2 ∧
    declaredLength t.1 joliet = Function.update (declaredLength s.1 joliet) d (b.dirLength joliet d) ∧
    dirExtent t.1 (!joliet) = dirExtent s.1 (!joliet) ∧ declaredLength t.1 (!joliet) = declaredLength s.1 (!joliet) ∧
    t.2 = s.2 + b.dirLength joliet d / sector := by
  simp only [placeDir, Option.bind_eq_bind, Option.bind_eq_some_iff, Option.some.injEq] at placed
  obtain ⟨length, sized, rfl⟩ := placed
  rw [dirSize_spec sized]
  cases joliet with
  | true => exact ⟨rfl, rfl, rfl, rfl, rfl⟩
  | false => exact ⟨rfl, rfl, rfl, rfl, rfl⟩

theorem placeDirs_spec (once : dirs.Nodup) (placed : dirs.foldlM (b.placeDir joliet) s = some t) : Placed b joliet dirs s t := by
  induction dirs generalizing s with
  | nil =>
    cases placed
    exact ⟨rfl, by simp, fun i _ => ⟨rfl, rfl⟩, rfl, rfl⟩
  | cons d dirs ih =>
    rw [List.foldlM_cons, Option.bind_eq_bind, Option.bind_eq_some_iff] at placed
    obtain ⟨u, here, rest⟩ := placed
    obtain ⟨fresh, once⟩ := List.nodup_cons.mp once
    obtain ⟨extents, lengths, otherExtents, otherLengths, cursor⟩ := placeDir_spec here
    have later := ih once rest
    have own := later.others d fresh
    rw [extents, lengths, Function.update_self, Function.update_self] at own
    refine ⟨⟨own.1, ?_⟩, ?_, ?_, ?_⟩
    · rw [← cursor]
      exact later.chained
    · exact List.forall_mem_cons.mpr ⟨own.2, later.lengths⟩
    · intro i absent
      obtain ⟨other, absent⟩ := List.ne_and_not_mem_of_not_mem_cons absent
      have same := later.others i absent
      rwa [extents, lengths, Function.update_of_ne other, Function.update_of_ne other] at same
    · exact ⟨later.apart.1.trans otherExtents, later.apart.2.trans otherLengths⟩

/-- What the loop over the files has done. -/
structure FilesPlaced (b : IsoBuilder) (files : List Nat) (s t : Layout × Nat) : Prop where
  chained : Chained s.2 (files.map fun f => (t.1.extent f, alignUp (b.node f).data.length sector / sector)) t.2
  lengths : ∀ f ∈ files, t.1.length f = (b.node f).data.length
  others : ∀ i, i ∉ files → t.1.extent i = s.1.extent i ∧ t.1.length i = s.1.length i
  joliet : t.1.jolietExtent = s.1.jolietExtent ∧ t.1.jolietLength = s.1.jolietLength

theorem placeFiles_spec (once : files.Nodup) (s : Layout × Nat) : FilesPlaced b files s (files.foldl b.placeFile s) := by
  induction files generalizing s with
  | nil => exact ⟨rfl, by simp, fun i _ => ⟨rfl, rfl⟩, rfl, rfl⟩
  | cons f files ih =>
    obtain ⟨fresh, once⟩ := List.nodup_cons.mp once
    have later := ih once (b.placeFile s f)
    have own := later.others f fresh
    have extent : (b.placeFile s f).1.extent = Function.update s.1.extent f s.2 := rfl
    have length : (b.placeFile s f).1.length = Function.update s.1.length f (b.node f).data.length := rfl
    rw [extent, length, Function.update_self, Function.update_self] at own
    refine ⟨⟨own.1, later.chained⟩, List.forall_mem_cons.mpr ⟨own.2, later.lengths⟩, ?_, later.joliet⟩
    intro i absent
    obtain ⟨other, absent⟩ := List.ne_and_not_mem_of_not_mem_cons absent
    have same := later.others i absent
    rwa [extent, length, Function.update_of_ne other, Function.update_of_ne other] at same

end Places

/-- The sectors of everything from sector 21 on, in the order in which they are given out. -/
def spans (b : IsoBuilder) (p : Plan) : List (Nat × Nat) :=
  (b.allDirs.map fun d => (p.layout.extent d, b.dirLength false d / sector)) ++
  (b.allDirs.map fun d => (p.layout.jolietExtent d, b.dirLength true d / sector)) ++
  (p.tables.map fun t => (t.1, alignUp t.2.length sector / sector)) ++
  (b.files.map fun f => (p.layout.extent f, alignUp (b.node f).data.length sector / sector))

structure Planned (b : IsoBuilder) (p : Plan) : Prop where
  chained : ∃ stop, Chained 21 (b.spans p) stop ∧ p.total = max stop 32
  dirLengths : ∀ d, b.IsDir d → p.layout.length d = b.dirLength false d ∧ p.layout.jolietLength d = b.dirLength true d
  fileLengths : ∀ f ∈ b.files, p.layout.length f = (b.node f).data.length

theorem plan_spec {b : IsoBuilder} {p : Plan} (planned : b.plan = some p) : Planned b p := by
  simp only [plan, Option.bind_eq_bind, Option.bind_eq_some_iff, Option.some.injEq, Prod.exists] at planned
  obtain ⟨a, cursor, iso, a', cursor', joliet, ptL, -, ptM, -, jptL, -, jptM, -, rfl⟩ := planned
  have first := placeDirs_spec b.allDirs_nodup iso
  have second := placeDirs_spec b.allDirs_nodup joliet
  obtain ⟨end_, third⟩ : ∃ end_, end_ = cursor' + alignUp ptL.length sector / sector + alignUp ptM.length sector / sector +
    alignUp jptL.length sector / sector + alignUp jptM.length sector / sector := ⟨_, rfl⟩
  have files := @placeFiles_spec b b.files b.files_nodup (a', end_)
  rw [← third]
  generalize b.files.foldl b.placeFile (a', end_) = t at files
  -- the loops for the other tree and for the files leave the extents of a directory alone
  have apart : ∀ d, b.IsDir d → d ∉ b.files := fun d dir member => (mem_files.mp member).2 dir
  have extent : ∀ d, b.IsDir d → t.1.extent d = a.extent d ∧ t.1.length d = a.length d := by
    intro d dir
    obtain ⟨sameExtent, sameLength⟩ := files.others d (apart d dir)
    exact ⟨sameExtent.trans (congrFun second.apart.1 d), sameLength.trans (congrFun second.apart.2 d)⟩
  refine ⟨⟨t.2, ?_, rfl⟩, ?_, files.lengths⟩
  · have tables : Chained cursor' ([(cursor', ptL), (cursor' + alignUp ptL.length sector / sector, ptM),
        (cursor' + alignUp ptL.length sector / sector + alignUp ptM.length sector / sector, jptL),
        (cursor' + alignUp ptL.length sector / sector + alignUp ptM.length sector / sector + alignUp jptL.length sector / sector, jptM)].map
          fun t => (t.1, alignUp t.2.length sector / sector)) end_ := ⟨rfl, rfl, rfl, rfl, third.symm⟩
    have primary : Chained 21 (b.allDirs.map fun d => (t.1.extent d, b.dirLength false d / sector)) cursor := by
      rw [List.map_congr_left fun d member => by rw [(extent d (mem_allDirs.mp member)).1]]
      exact first.chained
    have supplementary : Chained cursor (b.allDirs.map fun d => (t.1.jolietExtent d, b.dirLength true d / sector)) cursor' := by
      rw [files.joliet.1]
      exact second.chained
    exact ((primary.append supplementary).append tables).append files.chained
  · intro d dir
    have member := mem_allDirs.mpr dir
    rw [(extent d dir).2, files.joliet.2]
    exact ⟨first.lengths d member, second.lengths d member⟩

end Qito.Iso.IsoBuilder
