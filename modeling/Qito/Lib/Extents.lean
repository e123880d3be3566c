import Qito.Lib.Buffers

/-! Writing a sequence part by part. Every part has a slot of its own, and the slots are
apart, so that a part that fits its slot cannot spoil another one. -/
namespace Extents
open Buffers

variable {α : Type*}

structure Slot (α : Type*) where
  start : Nat
  size : Nat
  payload : List α

def Slot.Fits (s : Slot α) : Prop := s.payload.length ≤ s.size

def Slot.Apart (s t : Slot α) : Prop := s.start + s.size ≤ t.start ∨ t.start + t.size ≤ s.start

/-- The sequence after the parts have been written, one after another. -/
def fill (zero : α) (image : List α) (slots : List (Slot α)) : List α :=
  slots.foldl (fun image s => writeAt zero s.start s.payload image) image

section Writing
variable {zero : α} {image ys : List α} {slots before after : List (Slot α)} {s : Slot α} {offset i : Nat}

theorem writeAt_length (zero : α) (offset : Nat) (ys xs : List α) : (writeAt zero offset ys xs).length = max xs.length (offset + ys.length) := by
  simp [writeAt]

theorem writeAt_getD (zero : α) (offset : Nat) (ys xs : List α) (i : Nat) : (writeAt zero offset ys xs).getD i zero =
    if offset ≤ i ∧ i < offset + ys.length then ys.getD (i - offset) zero else xs.getD i zero := by
  by_cases inside : i < max xs.length (offset + ys.length)
  · rw [List.getD_eq_getElem _ _ (by rw [writeAt_length]; exact inside)]
    simp [writeAt]
  · rw [List.getD_eq_default _ _ (by rw [writeAt_length]; omega), if_neg (by omega), List.getD_eq_default _ _ (by omega)]

theorem fill_length (zero : α) (image : List α) (slots : List (Slot α)) : image.length ≤ (fill zero image slots).length := by
  induction slots generalizing image with
  | nil => exact Nat.le_refl _
  | cons s slots ih =>
    refine Nat.le_trans ?_ (ih (writeAt zero s.start s.payload image))
    rw [writeAt_length]
    exact Nat.le_max_left _ _

theorem fill_append (zero : α) (image : List α) (before after : List (Slot α)) :
    fill zero image (before ++ after) = fill zero (fill zero image before) after := List.foldl_append

theorem fill_apart (fits : ∀ t ∈ slots, t.Fits) (apart : ∀ t ∈ slots, s.Apart t) (inside : i < s.size) :
    (fill zero image slots).getD (s.start + i) zero = image.getD (s.start + i) zero := by
  induction slots generalizing image with
  | nil => rfl
  | cons t slots ih =>
    obtain ⟨fit, fits⟩ := List.forall_mem_cons.mp fits
    obtain ⟨away, apart⟩ := List.forall_mem_cons.mp apart
    have outside : ¬ (t.start ≤ s.start + i ∧ s.start + i < t.start + t.payload.length) := by
      unfold Slot.Fits at fit
      unfold Slot.Apart at away
      omega
    calc (fill zero image (t :: slots)).getD (s.start + i) zero
        = (writeAt zero t.start t.payload image).getD (s.start + i) zero := ih fits apart
      _ = image.getD (s.start + i) zero := by rw [writeAt_getD, if_neg outside]

/-- A slot has its part in it when the parts written later fit, whether or not this one does. -/
theorem fill_slot (fits : ∀ t ∈ after, t.Fits) (apart : ∀ t ∈ after, s.Apart t) (inside : i < s.size) (written : i < s.payload.length) :
    (fill zero image (before ++ s :: after)).getD (s.start + i) zero = s.payload.getD i zero := by
  rw [fill_append]
  change (fill zero (writeAt zero s.start s.payload (fill zero image before)) after).getD (s.start + i) zero = _
  rw [fill_apart fits apart inside, writeAt_getD, if_pos (by omega), Nat.add_sub_cancel_left]

theorem fill_behind (fits : ∀ t ∈ before ++ after, t.Fits) (apart : ∀ t ∈ before ++ after, s.Apart t) (inside : i < s.size)
    (behind : s.payload.length ≤ i) : (fill zero image (before ++ s :: after)).getD (s.start + i) zero = image.getD (s.start + i) zero := by
  obtain ⟨fitsBefore, fitsAfter⟩ := List.forall_mem_append.mp fits
  obtain ⟨apartBefore, apartAfter⟩ := List.forall_mem_append.mp apart
  rw [fill_append]
  change (fill zero (writeAt zero s.start s.payload (fill zero image before)) after).getD (s.start + i) zero = _
  rw [fill_apart fitsAfter apartAfter inside, writeAt_getD, if_neg (by omega), fill_apart fitsBefore apartBefore inside]

theorem last_unfit (slots : List (Slot α)) : (∀ t ∈ slots, t.Fits) ∨
    ∃ before s after, slots = before ++ s :: after ∧ ¬ s.Fits ∧ ∀ t ∈ after, t.Fits := by
  induction slots with
  | nil => exact .inl (by simp)
  | cons s slots ih =>
    rcases ih with all | ⟨before, t, after, rfl, unfit, fits⟩
    · by_cases fit : s.Fits
      · exact .inl (List.forall_mem_cons.mpr ⟨fit, all⟩)
      · exact .inr ⟨[], s, slots, rfl, fit, all⟩
    · exact .inr ⟨s :: before, t, after, rfl, unfit, fits⟩

theorem readAt_of_getD {xs : List α} {n : Nat} (room : offset + n ≤ xs.length) (length : ys.length = n)
    (same : ∀ i < n, xs.getD (offset + i) zero = ys.getD i zero) : readAt offset n xs = ys := by
  apply List.ext_getElem
  · simp only [readAt, List.length_take, List.length_drop]
    omega
  · intro i left right
    have here := same i (by omega)
    rw [List.getD_eq_getElem _ _ (by omega), List.getD_eq_getElem _ _ right] at here
    simpa [readAt] using here

end Writing

/-- Extents that follow one another, from one place to another. -/
def Chained : Nat → List (Nat × Nat) → Nat → Prop
  | start, [], stop => start = stop
  | start, e :: es, stop => e.1 = start ∧ Chained (start + e.2) es stop

section Chains
variable {start middle stop : Nat} {es fs : List (Nat × Nat)}

theorem Chained.append (first : Chained start es middle) (second : Chained middle fs stop) : Chained start (es ++ fs) stop := by
  induction es generalizing start with
  | nil =>
    cases first
    exact second
  | cons e es ih => exact ⟨first.1, ih first.2⟩

theorem Chained.le (chained : Chained start es stop) : start ≤ stop := by
  induction es generalizing start with
  | nil => exact Nat.le_of_eq chained
  | cons e es ih => exact Nat.le_trans (Nat.le_add_right _ _) (ih chained.2)

theorem Chained.within (chained : Chained start es stop) : ∀ e ∈ es, start ≤ e.1 ∧ e.1 + e.2 ≤ stop := by
  induction es generalizing start with
  | nil => simp
  | cons e es ih =>
    obtain ⟨here, rest⟩ := chained
    refine List.forall_mem_cons.mpr ⟨⟨Nat.le_of_eq here.symm, here ▸ rest.le⟩, fun e' member => ?_⟩
    obtain ⟨low, high⟩ := ih rest e' member
    exact ⟨by omega, high⟩

theorem Chained.apart (chained : Chained start es stop) : es.Pairwise fun e f => e.1 + e.2 ≤ f.1 := by
  induction es generalizing start with
  | nil => exact List.Pairwise.nil
  | cons e es ih =>
    obtain ⟨here, rest⟩ := chained
    refine List.pairwise_cons.mpr ⟨fun f member => ?_, ih rest⟩
    rw [here]
    exact (rest.within f member).1

end Chains
end Extents
