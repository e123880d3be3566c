import Qito.Sys.Model
import Qito.Vfs.Creation

/-! fs_resolve_path against the canonical path it is to produce. The code keeps the
components in an array of 64 entries and drops a name that finds it full, so the
two stacks differ from there on, until enough .. components have emptied both. -/
namespace Qito.Sys
open Vfs (dot dotDot absolute tokens tokensFrom fsPathMax)

/-- The text the tokens of a resolution are taken from, before it is cut. -/
def combined (cwd path : Bytes) : Bytes :=
  if path.head? = some 47 then path
  else if cwd.getLast? = some 47 then cwd ++ path
  else cwd ++ 47 :: path

/-- What one component does to the canonical stack. -/
def canonicalStep (stack : List Bytes) (c : Bytes) : List Bytes :=
  if c = [] ∨ c = dot then stack
  else if c = dotDot then stack.dropLast
  else stack ++ [c]

def canonicalStack (text : Bytes) : List Bytes := (text.splitOn 47).foldl canonicalStep []

def joined (stack : List Bytes) : Bytes := if stack = [] then [47] else absolute stack

def canonical (text : Bytes) : Bytes := joined (canonicalStack text)

/-- The depth of the canonical stack, and whether a name has found 64 entries on it
since it was last empty. -/
def depthStep : Nat × Bool → Bytes → Nat × Bool
  | (depth, lost), c =>
    if c = [] ∨ c = dot then (depth, lost)
    else if c = dotDot then (depth - 1, lost && decide (1 < depth))
    else (depth + 1, lost || decide (64 ≤ depth))

def Unlost (text : Bytes) : Prop := ((text.splitOn 47).foldl depthStep (0, false)).2 = false

instance (text : Bytes) : Decidable (Unlost text) := inferInstanceAs (Decidable (_ = _))

section Tokens

theorem tokensFrom_pieces {token text p : Bytes} {ps : List Bytes} (split : text.splitOn 47 = p :: ps) :
    tokensFrom token text = ((token ++ p) :: ps).filter (· ≠ []) := by
  induction text generalizing token p ps with
  | nil =>
    cases split
    by_cases empty : token = []
    · simp [tokensFrom, empty]
    · simp [tokensFrom, empty]
  | cons c cs ih =>
    obtain ⟨q, qs, rest⟩ := List.exists_cons_of_ne_nil (List.splitOnP_ne_nil (· == (47 : UInt8)) cs)
    change cs.splitOn 47 = q :: qs at rest
    have unfolded : (c :: cs).splitOn 47 = if c = 47 then [] :: q :: qs else (c :: q) :: qs := by
      have step := List.splitOnP_cons_eq_if_modifyHead (p := (· == (47 : UInt8))) c cs
      change (c :: cs).splitOn 47 = if (c == 47) = true then [] :: cs.splitOn 47 else (cs.splitOn 47).modifyHead (List.cons c) at step
      simpa [rest] using step
    rw [split] at unfolded
    by_cases slash : c = 47
    · rw [if_pos slash] at unfolded
      cases unfolded
      have after : tokensFrom [] cs = _ := ih rest
      by_cases empty : token = []
      · simpa [tokensFrom, slash, empty] using after
      · simpa [tokensFrom, slash, empty] using after
    · rw [if_neg slash] at unfolded
      cases unfolded
      have after : tokensFrom (token ++ [c]) cs = _ := ih rest
      simpa [tokensFrom, slash] using after

theorem tokens_pieces (text : Bytes) : tokens text = (text.splitOn 47).filter (· ≠ []) := by
  obtain ⟨p, ps, split⟩ := List.exists_cons_of_ne_nil (List.splitOnP_ne_nil (· == (47 : UInt8)) text)
  change text.splitOn 47 = p :: ps at split
  rw [tokens, tokensFrom_pieces split, split, List.nil_append]

theorem foldl_tokens {σ : Type} (step : σ → Bytes → σ) (still : ∀ a, step a [] = a) (text : Bytes) (a : σ) :
    (tokens text).foldl step a = (text.splitOn 47).foldl step a := by
  rw [tokens_pieces]
  induction text.splitOn 47 generalizing a with
  | nil => rfl
  | cons c cs ih =>
    by_cases empty : c = []
    · simpa [empty, still] using ih a
    · simpa [empty] using ih (step a c)

theorem tokensFrom_whole {token : Bytes} (clean : 47 ∉ token) (text : Bytes) :
    ∀ t ∈ tokensFrom token text, t ≠ [] ∧ 47 ∉ t := by
  induction text generalizing token with
  | nil =>
    intro t member
    by_cases empty : token = []
    · simp [tokensFrom, empty] at member
    · simp only [tokensFrom, if_neg empty, List.mem_singleton] at member
      exact member ▸ ⟨empty, clean⟩
  | cons c cs ih =>
    intro t member
    by_cases slash : c = 47
    · by_cases empty : token = []
      · simp only [tokensFrom, if_pos slash, if_pos empty] at member
        exact ih (by simp) t member
      · simp only [tokensFrom, if_pos slash, if_neg empty, List.mem_cons] at member
        rcases member with rfl | member
        · exact ⟨empty, clean⟩
        · exact ih (by simp) t member
    · simp only [tokensFrom, if_neg slash] at member
      exact ih (by simp [clean, Ne.symm slash]) t member

theorem tokensFrom_short (token text : Bytes) : (absolute (tokensFrom token text)).length ≤ token.length + text.length + 1 := by
  induction text generalizing token with
  | nil =>
    by_cases empty : token = []
    · simp [tokensFrom, empty, absolute]
    · simp [tokensFrom, empty, absolute]
  | cons c cs ih =>
    by_cases slash : c = 47
    · have rest := ih []
      by_cases empty : token = []
      · simp only [tokensFrom, if_pos slash, if_pos empty, List.length_cons]
        simp only [List.length_nil] at rest
        omega
      · simp only [tokensFrom, if_pos slash, if_neg empty, absolute, List.flatMap_cons, List.length_append, List.length_cons]
        simp only [List.length_nil, absolute] at rest
        omega
    · have rest := ih (token ++ [c])
      simp only [tokensFrom, if_neg slash, List.length_cons]
      simp only [List.length_append, List.length_singleton] at rest
      omega

theorem tokens_rooted {text : Bytes} (rooted : text.head? = some 47) : (absolute (tokens text)).length ≤ text.length := by
  cases text with
  | nil => simp at rooted
  | cons c cs =>
    cases Option.some.inj rooted
    have rest := tokensFrom_short [] cs
    simp only [tokens, tokensFrom, if_true, List.length_cons]
    simp only [List.length_nil] at rest
    omega

end Tokens

section Stacks
variable {k c ts : List Bytes} {st : Nat × Bool}

/-- The array and the canonical stack hold the same, or a name is missing from the array. -/
structure Tracks (k c : List Bytes) (st : Nat × Bool) : Prop where
  depth : st.1 = c.length
  same : st.2 = false → k = c ∧ c.length ≤ 64
  short : st.2 = true → k.length < c.length

theorem Tracks.up (tracks : Tracks k c st) : Tracks k.dropLast c.dropLast (st.1 - 1, st.2 && decide (1 < st.1)) where
  depth := by simp [tracks.depth]
  same := by
    intro found
    cases lost : st.2 with
    | false =>
      obtain ⟨rfl, few⟩ := tracks.same lost
      exact ⟨rfl, by simp only [List.length_dropLast]; omega⟩
    | true =>
      -- A name is missing and the canonical stack has at most one: the array is empty already.
      have fewer := tracks.short lost
      have shallow : c.length ≤ 1 := by simpa [lost, tracks.depth] using found
      have bottom : k = [] := List.length_eq_zero_iff.mp (by omega)
      have empty : c.dropLast = [] := List.length_eq_zero_iff.mp (by simp only [List.length_dropLast]; omega)
      exact ⟨by rw [bottom, empty, List.dropLast_nil], by simp [empty]⟩
  short := by
    intro found
    simp only [Bool.and_eq_true, decide_eq_true_eq] at found
    have fewer := tracks.short found.1
    have deep := found.2
    rw [tracks.depth] at deep
    simp only [List.length_dropLast]
    omega

theorem Tracks.push (tracks : Tracks k c st) (t : Bytes) :
    Tracks (if k.length < 64 then k ++ [t] else k) (c ++ [t]) (st.1 + 1, st.2 || decide (64 ≤ st.1)) where
  depth := by simp [tracks.depth]
  same := by
    intro found
    simp only [Bool.or_eq_false_iff, decide_eq_false_iff_not, tracks.depth] at found
    obtain ⟨rfl, -⟩ := tracks.same found.1
    have room : k.length < 64 := by omega
    exact ⟨by rw [if_pos room], by simp only [List.length_append, List.length_singleton]; omega⟩
  short := by
    intro found
    simp only [Bool.or_eq_true, decide_eq_true_eq, tracks.depth] at found
    cases lost : st.2 with
    | false =>
      obtain ⟨rfl, few⟩ := tracks.same lost
      have full : ¬ k.length < 64 := by simp only [lost, Bool.false_eq_true, false_or] at found; omega
      simp [full]
    | true =>
      have fewer := tracks.short lost
      split
      · simpa using fewer
      · simp only [List.length_append, List.length_singleton]
        omega

theorem Tracks.run (tracks : Tracks k c st) (whole : ∀ t ∈ ts, t ≠ []) :
    Tracks (collapse k ts) (ts.foldl canonicalStep c) (ts.foldl depthStep st) := by
  induction ts generalizing k c st with
  | nil => exact tracks
  | cons t ts ih =>
    have some_ : t ≠ [] := whole t (by simp)
    have rest : ∀ u ∈ ts, u ≠ [] := fun u member => whole u (by simp [member])
    simp only [List.foldl_cons, collapse, canonicalStep, depthStep, some_, false_or]
    by_cases stay : t = dot
    · simp only [if_pos stay]
      exact ih tracks rest
    · by_cases up : t = dotDot
      · simp only [if_neg stay, if_pos up]
        exact ih tracks.up rest
      · simp only [if_neg stay, if_neg up]
        have pushed := ih (tracks.push t) rest
        split
        · rwa [if_pos ‹_›] at pushed
        · rwa [if_neg ‹_›] at pushed

theorem collapse_entries {t : Bytes} (member : t ∈ collapse k ts) : t ∈ k ∨ t ∈ ts ∧ t ≠ dot ∧ t ≠ dotDot := by
  induction ts generalizing k with
  | nil => exact Or.inl member
  | cons u us ih =>
    simp only [collapse] at member
    split at member
    · exact (ih member).imp id fun found => ⟨by simp [found.1], found.2⟩
    · split at member
      · exact (ih member).imp List.mem_of_mem_dropLast fun found => ⟨by simp [found.1], found.2⟩
      · rename_i stay up
        split at member
        · rcases ih member with old | found
          · rcases List.mem_append.mp old with old | new
            · exact Or.inl old
            · cases List.mem_singleton.mp new
              exact Or.inr ⟨by simp, stay, up⟩
          · exact Or.inr ⟨by simp [found.1], found.2⟩
        · exact (ih member).imp id fun found => ⟨by simp [found.1], found.2⟩

theorem collapse_few (few : k.length ≤ 64) (ts : List Bytes) : (collapse k ts).length ≤ 64 := by
  induction ts generalizing k with
  | nil => exact few
  | cons t ts ih =>
    simp only [collapse]
    split
    · exact ih few
    · split
      · exact ih (by simp only [List.length_dropLast]; omega)
      · split
        · exact ih (by simp only [List.length_append, List.length_singleton]; omega)
        · exact ih few

theorem absolute_dropLast (k : List Bytes) : (absolute k.dropLast).length ≤ (absolute k).length := by
  induction k using List.reverseRecOn with
  | nil => simp
  | append_singleton ts name _ => simp [Vfs.absolute_snoc]

theorem collapse_short (k ts : List Bytes) : (absolute (collapse k ts)).length ≤ (absolute k).length + (absolute ts).length := by
  induction ts generalizing k with
  | nil => exact Nat.le_add_right _ _
  | cons t ts ih =>
    have longer : (absolute (t :: ts)).length = t.length + 1 + (absolute ts).length := by
      simp only [absolute, List.flatMap_cons, List.length_append, List.length_cons]
    simp only [collapse]
    split
    · have := ih k
      omega
    · split
      · have := ih k.dropLast
        have := absolute_dropLast k
        omega
      · split
        · have := ih (k ++ [t])
          simp only [Vfs.absolute_snoc, List.length_append, List.length_cons] at this
          omega
        · have := ih k
          omega

theorem collapse_plain (plain : Vfs.Dotless ts) (few : k.length + ts.length ≤ 64) : collapse k ts = k ++ ts := by
  induction ts generalizing k with
  | nil => simp [collapse]
  | cons t ts ih =>
    obtain ⟨stay, up⟩ := plain t (by simp)
    simp only [List.length_cons] at few
    have room : k.length < 64 := by omega
    simp only [collapse, if_neg stay, if_neg up, if_pos room]
    rw [ih (fun u member => plain u (by simp [member])) (by simp only [List.length_append, List.length_singleton]; omega),
      List.append_assoc, List.singleton_append]

theorem canonicalStep_entries {t : Bytes} (member : t ∈ ts.foldl canonicalStep c) : t ∈ c ∨ t ∈ ts := by
  induction ts generalizing c with
  | nil => exact Or.inl member
  | cons u us ih =>
    have after := ih member
    unfold canonicalStep at after
    split at after
    · exact after.imp id fun found => by simp [found]
    · split at after
      · exact after.imp List.mem_of_mem_dropLast fun found => by simp [found]
      · rcases after with old | new
        · rcases List.mem_append.mp old with old | new
          · exact Or.inl old
          · exact Or.inr (by simp [List.mem_singleton.mp new])
        · exact Or.inr (by simp [new])

end Stacks

section Resolution
variable {k c : List Bytes} {cwd path : Bytes}

theorem tokens_joined (whole : ∀ t ∈ k, t ≠ [] ∧ 47 ∉ t) : tokens (joined k) = k := by
  unfold joined
  split
  · rename_i empty
    subst empty
    rfl
  · exact Vfs.tokens_segments whole

theorem joined_inj (whole : ∀ t ∈ k, t ≠ [] ∧ 47 ∉ t) (whole' : ∀ t ∈ c, t ≠ [] ∧ 47 ∉ t) (same : joined k = joined c) : k = c := by
  rw [← tokens_joined whole, ← tokens_joined whole', same]

theorem joined_head (k : List Bytes) : (joined k).head? = some 47 := by
  cases k with
  | nil => rfl
  | cons t ts => rfl

theorem joined_length (k : List Bytes) : (joined k).length ≤ max 1 (absolute k).length := by
  unfold joined
  split
  · simp
  · exact Nat.le_max_right _ _

theorem fsResolvePath_joined (rooted : (combined cwd path).head? = some 47) (short : (combined cwd path).length < fsPathMax) :
    fsResolvePath cwd path = joined (collapse [] (tokens (combined cwd path))) := by
  have bound : (absolute (collapse [] (tokens (combined cwd path)))).length < fsPathMax := by
    have all := collapse_short [] (tokens (combined cwd path))
    have text := tokens_rooted rooted
    simp only [absolute, List.flatMap_nil, List.length_nil, Nat.zero_add] at all text ⊢
    omega
  have uncut : Vfs.strlcpy (combined cwd path) fsPathMax = combined cwd path :=
    List.take_of_length_le (Nat.le_sub_one_of_lt short)
  have work : (if path.head? = some 47 then path else if cwd.getLast? = some 47 then cwd ++ path else cwd ++ 47 :: path) =
      combined cwd path := rfl
  simp only [fsResolvePath, work, uncut]
  cases segments : collapse [] (tokens (combined cwd path)) with
  | nil => rfl
  | cons t ts =>
    rw [segments] at bound
    exact List.take_of_length_le (Nat.le_sub_one_of_lt bound)

theorem collapse_whole (text : Bytes) : ∀ t ∈ collapse [] (tokens text), t ≠ [] ∧ 47 ∉ t := by
  intro t member
  rcases collapse_entries member with old | ⟨new, -⟩
  · simp at old
  · exact tokensFrom_whole (by simp) text t new

theorem collapse_dotless (text : Bytes) : Vfs.Dotless (collapse [] (tokens text)) := by
  intro t member
  rcases collapse_entries member with old | ⟨-, found⟩
  · simp at old
  · exact found

theorem collapse_fits {text : Bytes} (rooted : text.head? = some 47) (short : text.length < fsPathMax) :
    (joined (collapse [] (tokens text))).length < fsPathMax := by
  have room : 1 < fsPathMax := by decide
  have one := joined_length (collapse [] (tokens text))
  have all := collapse_short [] (tokens text)
  have pieces := tokens_rooted rooted
  simp only [absolute, List.flatMap_nil, List.length_nil, Nat.zero_add] at one all pieces
  omega

theorem canonicalStack_tokens (text : Bytes) : canonicalStack text = (tokens text).foldl canonicalStep [] :=
  (foldl_tokens canonicalStep (by simp [canonicalStep]) text []).symm

theorem canonical_whole (text : Bytes) : ∀ t ∈ canonicalStack text, t ≠ [] ∧ 47 ∉ t := by
  intro t member
  rw [canonicalStack_tokens] at member
  rcases canonicalStep_entries member with old | new
  · simp at old
  · exact tokensFrom_whole (by simp) text t new

theorem collapse_tracks (text : Bytes) :
    Tracks (collapse [] (tokens text)) (canonicalStack text) ((text.splitOn 47).foldl depthStep (0, false)) := by
  rw [canonicalStack_tokens, ← foldl_tokens depthStep (by simp [depthStep])]
  have start : Tracks [] [] (0, false) := ⟨rfl, fun _ => ⟨rfl, by simp⟩, by simp⟩
  exact start.run fun t member => (tokensFrom_whole (by simp) text t member).1

theorem collapse_canonical (text : Bytes) : collapse [] (tokens text) = canonicalStack text ↔ Unlost text := by
  have tracks := collapse_tracks text
  unfold Unlost
  constructor
  · intro same
    cases lost : ((text.splitOn 47).foldl depthStep (0, false)).2 with
    | false => rfl
    | true =>
      have fewer := tracks.short lost
      rw [same] at fewer
      exact absurd fewer (Nat.lt_irrefl _)
  · intro kept
    exact (tracks.same kept).1

theorem fsResolvePath_again (rooted : (combined cwd path).head? = some 47) (short : (combined cwd path).length < fsPathMax)
    (dir : Bytes) : fsResolvePath dir (fsResolvePath cwd path) = fsResolvePath cwd path := by
  have first := fsResolvePath_joined rooted short
  have whole := collapse_whole (combined cwd path)
  have few : (collapse [] (tokens (combined cwd path))).length ≤ 64 := collapse_few (by simp) _
  have plain := collapse_dotless (combined cwd path)
  have bound := collapse_fits rooted short
  rw [first]
  generalize collapse [] (tokens (combined cwd path)) = k at whole few plain bound
  have text : combined dir (joined k) = joined k := if_pos (joined_head k)
  rw [fsResolvePath_joined (by rw [text]; exact joined_head k) (by rw [text]; exact bound), text, tokens_joined whole,
    collapse_plain plain (by simpa using few), List.nil_append]

theorem resolve_is_canonical (cwd path : Bytes) (rooted : (combined cwd path).head? = some 47)
    (short : (combined cwd path).length < fsPathMax) :
    (fsResolvePath cwd path = canonical (combined cwd path) ∧
      ∀ dir, fsResolvePath dir (fsResolvePath cwd path) = fsResolvePath cwd path) ↔ Unlost (combined cwd path) := by
  rw [← collapse_canonical]
  have first := fsResolvePath_joined rooted short
  constructor
  · rintro ⟨same, -⟩
    rw [first] at same
    exact joined_inj (collapse_whole _) (canonical_whole _) same
  · intro same
    refine ⟨?_, fsResolvePath_again rooted short⟩
    rw [first, same]
    rfl

/-- The path ../lib//./x from /usr/bin. -/
theorem up_and_down_is_canonical :
    fsResolvePath (Vfs.ascii "/usr/bin") (Vfs.ascii "../lib//./x") = Vfs.ascii "/usr/lib/x" := by
  have found := (resolve_is_canonical (Vfs.ascii "/usr/bin") (Vfs.ascii "../lib//./x") (by decide) (by decide)).mpr
    (by decide)
  rw [found.1]
  decide

/-- Sixty-five names deep, the last one is dropped. -/
theorem sixty_five_names : ¬ ∀ cwd path, (combined cwd path).head? = some 47 → (combined cwd path).length < fsPathMax →
    fsResolvePath cwd path = canonical (combined cwd path) := by
  intro always
  have wrong := always [47] ((List.replicate 65 (Vfs.ascii "/a")).flatten) (by decide +kernel) (by decide +kernel)
  revert wrong
  decide +kernel

end Resolution

end Qito.Sys
