import Mathlib.Data.Nat.Digits.Lemmas
import Qito.Gfx.Capture

/-! A capture read back from the serial log. The characters the encoder writes
between its newlines are the base64 text of the runs, the runs expand to the pixels,
and the reader finds the lines again; all but the header, which has to fit its
buffer. -/
namespace Qito.Gfx

section Encoder
variable {state : B64State}

/-- A text without its line breaks. -/
@[grind =] def joinedLines (text : Text) : Text := text.filter (· ≠ newline)

theorem alphabet_symbol : ∀ i < 64, alphabetAt i = Base64.symbol i := by decide

theorem alphabetAt_six (n : Nat) : alphabetAt (n % 64) = Base64.symbol (n % 64) := alphabet_symbol _ (Nat.mod_lt n (by decide))

theorem joinedLines_append (a b : Text) : joinedLines (a ++ b) = joinedLines a ++ joinedLines b := List.filter_append ..

theorem joinedLines_whole {text : Text} (whole : ∀ c ∈ text, Base64.isText c = true) : joinedLines text = text := by
  apply List.filter_eq_self.mpr
  intro c member
  have break_ : Base64.isText newline = false := by decide
  simp only [ne_eq, decide_eq_true_eq]
  rintro rfl
  exact absurd (whole _ member) (by simp [break_])

theorem flush_clean {a b c : UInt8} (three : state.pending = [a, b, c]) :
    joinedLines (b64FlushTriple state).serial =
      joinedLines state.serial ++ Base64.quad (a.toNat * 65536 + b.toNat * 256 + c.toNat) ∧
    (b64FlushTriple state).pending = [] := by
  have quad : [alphabetAt ((a.toNat * 2 ^ 16 + b.toNat * 2 ^ 8 + c.toNat) / 2 ^ 18 % 64),
      alphabetAt ((a.toNat * 2 ^ 16 + b.toNat * 2 ^ 8 + c.toNat) / 2 ^ 12 % 64),
      alphabetAt ((a.toNat * 2 ^ 16 + b.toNat * 2 ^ 8 + c.toNat) / 2 ^ 6 % 64),
      alphabetAt ((a.toNat * 2 ^ 16 + b.toNat * 2 ^ 8 + c.toNat) % 64)] =
      Base64.quad (a.toNat * 65536 + b.toNat * 256 + c.toNat) := by
    simp only [alphabetAt_six]
    rfl
  simp only [b64FlushTriple, three, List.getD_cons_zero, List.getD_cons_succ, quad]
  split
  · simp only [joinedLines_append, joinedLines_whole (Base64.quad_text _)]
    simp [joinedLines]
  · simp only [joinedLines_append, joinedLines_whole (Base64.quad_text _), and_self]

theorem push_clean (few : state.pending.length < 3) (x : UInt8) (rest : Bytes) :
    joinedLines (b64Push state x).serial ++ Base64.encode ((b64Push state x).pending ++ rest) =
      joinedLines state.serial ++ Base64.encode (state.pending ++ x :: rest) ∧ (b64Push state x).pending.length < 3 := by
  obtain ⟨pending, column, serial⟩ := state
  match pending, few with
  | [], _ => exact ⟨rfl, Nat.lt_of_sub_eq_succ rfl⟩
  | [a], _ => exact ⟨rfl, Nat.lt_of_sub_eq_succ rfl⟩
  | [a, b], _ =>
    have full : b64Push ⟨[a, b], column, serial⟩ x = b64FlushTriple ⟨[a, b, x], column, serial⟩ := rfl
    have three : B64State.pending ⟨[a, b, x], column, serial⟩ = [a, b, x] := rfl
    obtain ⟨text, empty⟩ := flush_clean three
    rw [full, text, empty]
    constructor
    · simp only [List.nil_append, List.append_assoc, List.cons_append]
      rfl
    · decide

theorem pushes_clean (few : state.pending.length < 3) (bs : Bytes) :
    joinedLines (bs.foldl b64Push state).serial ++ Base64.encode (bs.foldl b64Push state).pending =
      joinedLines state.serial ++ Base64.encode (state.pending ++ bs) ∧ (bs.foldl b64Push state).pending.length < 3 := by
  induction bs generalizing state with
  | nil => simpa using few
  | cons x bs ih =>
    obtain ⟨text, small⟩ := push_clean few x bs
    obtain ⟨whole, few'⟩ := ih small
    exact ⟨whole.trans text, few'⟩

theorem finish_clean (few : state.pending.length < 3) :
    joinedLines (b64Finish state).serial = joinedLines state.serial ++ Base64.encode state.pending := by
  obtain ⟨pending, column, serial⟩ := state
  have last : (b64Finish ⟨pending, column, serial⟩).serial = serial ++ Base64.encode pending := by
    match pending, few with
    | [], _ => simp [b64Finish, Base64.encode]
    | [a], _ => simp [b64Finish, Base64.encode, alphabetAt_six]
    | [a, b], _ => simp [b64Finish, Base64.encode, alphabetAt_six]
  rw [last, joinedLines_append, joinedLines_whole (Base64.encode_text pending)]

/-- The first character written is not a line break. -/
def Begun (state : B64State) : Prop := state.serial.head? ≠ some newline

theorem begun_append {serial : Text} {i : Nat} {more : Text} (begun : serial.head? ≠ some newline) :
    (serial ++ alphabetAt (i % 64) :: more).head? ≠ some newline := by
  cases serial with
  | nil =>
    have six : ∀ j < 64, Base64.symbol j ≠ newline := by decide
    simpa [alphabetAt_six] using six _ (Nat.mod_lt i (by decide))
  | cons c cs => exact begun

theorem push_begun (begun : Begun state) (x : UInt8) : Begun (b64Push state x) := by
  unfold Begun b64Push b64FlushTriple
  dsimp only
  split
  · split
    · rw [List.append_assoc]
      exact begun_append begun
    · exact begun_append begun
  · exact begun

theorem pushes_begun (begun : Begun state) (bs : Bytes) : Begun (bs.foldl b64Push state) := by
  induction bs generalizing state with
  | nil => exact begun
  | cons x bs ih => exact ih (push_begun begun x)

theorem finish_begun (begun : Begun state) : Begun (b64Finish state) := by
  unfold Begun b64Finish
  split
  · exact begun
  · exact begun_append begun

end Encoder

section Runs

/-- Runs of equal pixels, as they are emitted and as they are read. -/
@[grind =]
def runBytes (runs : List (UInt8 × UInt32)) : Bytes := runs.flatMap fun run => run.1 :: rgb run.2

@[grind =]
def runPixels (runs : List (UInt8 × UInt32)) : Bytes := runs.flatMap fun run => (List.replicate run.1.toNat (rgb run.2)).flatten

theorem rgb_low (raw : UInt32) : rgb (raw &&& 0x00FFFFFF) = rgb raw := by
  have low : (raw &&& 0x00FFFFFF).toNat = raw.toNat % 2 ^ 24 := by
    rw [UInt32.toNat_and]
    exact Nat.and_two_pow_sub_one_eq_mod raw.toNat 24
  have high : ((raw &&& 0x00FFFFFF) >>> 16).toUInt8 = (raw >>> 16).toUInt8 := by
    apply UInt8.toNat_inj.mp
    simp only [UInt32.toNat_toUInt8, UInt32.toNat_shiftRight, low, UInt32.reduceToNat, Nat.reduceMod, Nat.shiftRight_eq_div_pow]
    omega
  have middle : ((raw &&& 0x00FFFFFF) >>> 8).toUInt8 = (raw >>> 8).toUInt8 := by
    apply UInt8.toNat_inj.mp
    simp only [UInt32.toNat_toUInt8, UInt32.toNat_shiftRight, low, UInt32.reduceToNat, Nat.reduceMod, Nat.shiftRight_eq_div_pow]
    omega
  have bottom : (raw &&& 0x00FFFFFF).toUInt8 = raw.toUInt8 := by
    apply UInt8.toNat_inj.mp
    simp only [UInt32.toNat_toUInt8, low]
    omega
  simp only [rgb, high, middle, bottom]

/-- What the loop has done after some pixels: the runs it has emitted and the run
it is in make up the pixels. -/
structure Running (start : B64State) (seen : List UInt32) (c : Capture) : Prop where
  started : c.started = true
  positive : 0 < c.count
  capped : c.count ≤ 255
  emitted : ∃ runs, c.state = (runBytes runs).foldl b64Push start ∧
    runPixels runs ++ (List.replicate c.count (rgb c.current)).flatten = seen.flatMap rgb

theorem emitRun_joins {start st : B64State} {runs : List (UInt8 × UInt32)} (state : st = (runBytes runs).foldl b64Push start)
    (count : UInt8) (pixel : UInt32) :
    emitRun st count pixel = (runBytes (runs ++ [(count, pixel)])).foldl b64Push start := by
  have pushes : emitRun st count pixel = (runBytes [(count, pixel)]).foldl b64Push st := rfl
  rw [pushes, state, ← List.foldl_append]
  simp only [runBytes, List.flatMap_append]

theorem runPixels_joins (runs : List (UInt8 × UInt32)) {count : Nat} (capped : count ≤ 255) (pixel : UInt32) :
    runPixels (runs ++ [(UInt8.ofNat count, pixel)]) = runPixels runs ++ (List.replicate count (rgb pixel)).flatten := by
  have whole : (UInt8.ofNat count).toNat = count := by
    rw [UInt8.toNat_ofNat']
    omega
  simp [runPixels, whole]

theorem Running.first {start : B64State} {c : Capture} (raw : UInt32) (fresh : c.started = false) (state : c.state = start) :
    Running start [raw] (capturePixel c raw) := by
  have step : capturePixel c raw = { c with current := raw &&& 0x00FFFFFF, count := 1, started := true } := by
    simp [capturePixel, fresh]
  rw [step]
  exact ⟨rfl, Nat.one_pos, Nat.le_of_ble_eq_true rfl, [], state, by simp [runPixels, rgb_low]⟩

theorem Running.next {start : B64State} {seen : List UInt32} {c : Capture} (running : Running start seen c) (raw : UInt32) :
    Running start (seen ++ [raw]) (capturePixel c raw) := by
  obtain ⟨started, positive, capped, runs, state, pixels⟩ := running
  obtain ⟨st, current, count, go⟩ := c
  dsimp only at started positive capped state pixels
  subst started
  by_cases same : raw &&& 0x00FFFFFF = current ∧ count < 255
  · have step : capturePixel ⟨st, current, count, true⟩ raw = ⟨st, current, count + 1, true⟩ := by
      simp [capturePixel, same]
    rw [step]
    refine ⟨rfl, Nat.succ_pos _, same.2, runs, state, ?_⟩
    have equal : rgb current = rgb raw := by rw [← same.1, rgb_low]
    rw [List.flatMap_append, ← pixels, List.append_assoc, List.replicate_succ', List.flatten_append]
    simp [equal]
  · have step : capturePixel ⟨st, current, count, true⟩ raw =
        ⟨emitRun st (UInt8.ofNat count) current, raw &&& 0x00FFFFFF, 1, true⟩ := by
      simp only [capturePixel, Bool.not_true, Bool.false_eq_true, if_false, if_neg same]
    rw [step, emitRun_joins state]
    refine ⟨rfl, Nat.one_pos, Nat.le_of_ble_eq_true rfl, _, rfl, ?_⟩
    rw [runPixels_joins runs capped, pixels]
    simp [rgb_low]

theorem Running.loop {start : B64State} {seen : List UInt32} {c : Capture} (running : Running start seen c) (raws : List UInt32) :
    Running start (seen ++ raws) (raws.foldl capturePixel c) := by
  induction raws generalizing seen c with
  | nil => simpa using running
  | cons raw raws ih =>
    have rest := ih (running.next raw)
    rwa [List.append_assoc, List.singleton_append] at rest

theorem expandRuns_all {limit : Nat} {out : Bytes} {runs : List (UInt8 × UInt32)}
    (total : (out ++ runPixels runs).length ≤ limit) : expandRuns limit out (runBytes runs) = out ++ runPixels runs := by
  induction runs generalizing out with
  | nil => simp [runBytes, runPixels, expandRuns]
  | cons run runs ih =>
    have front : runPixels (run :: runs) = (List.replicate run.1.toNat (rgb run.2)).flatten ++ runPixels runs := rfl
    rw [front, ← List.append_assoc] at total ⊢
    rw [List.length_append] at total
    have step : expandRuns limit out (runBytes (run :: runs)) =
        if (out ++ (List.replicate run.1.toNat (rgb run.2)).flatten).length ≥ limit then
          out ++ (List.replicate run.1.toNat (rgb run.2)).flatten
        else expandRuns limit (out ++ (List.replicate run.1.toNat (rgb run.2)).flatten) (runBytes runs) := rfl
    rw [step]
    split
    · -- Nothing is left to expand when the count is reached.
      have empty : runPixels runs = [] := List.length_eq_zero_iff.mp (by omega)
      rw [empty, List.append_nil]
    · exact ih (by rwa [List.length_append])

def startState : B64State := { pending := [], column := 0, serial := [] }

theorem raster_some {fb : FbInfo} (wide : 0 < fb.width) (high : 0 < fb.height) : fb.raster ≠ [] := by
  intro empty
  have member : fb.back (0 * fb.pitch + 0) ∈ fb.raster :=
    List.mem_flatMap.mpr ⟨0, List.mem_range.mpr high, List.mem_map.mpr ⟨0, List.mem_range.mpr wide, rfl⟩⟩
  rw [empty] at member
  cases member

theorem raster_length (fb : FbInfo) : fb.raster.length = fb.width * fb.height := by
  simp [FbInfo.raster, Nat.mul_comm]

theorem captureRuns_text {fb : FbInfo} (some_ : fb.raster ≠ []) : ∃ runs, runs ≠ [] ∧ runPixels runs = fb.raster.flatMap rgb ∧
    joinedLines (captureRuns fb).serial = Base64.encode (runBytes runs) ∧ Begun (captureRuns fb) := by
  obtain ⟨raw, raws, raster⟩ := List.exists_cons_of_ne_nil some_
  have first : Running startState [raw] (capturePixel ⟨startState, 0, 0, false⟩ raw) := .first raw rfl rfl
  have loop : Running startState fb.raster (fb.raster.foldl capturePixel ⟨startState, 0, 0, false⟩) := by
    rw [raster]
    exact first.loop raws
  have run : captureRuns fb = b64Finish
      (let c := fb.raster.foldl capturePixel ⟨startState, 0, 0, false⟩
       if c.started then emitRun c.state (UInt8.ofNat c.count) c.current else c.state) := rfl
  generalize fb.raster.foldl capturePixel ⟨startState, 0, 0, false⟩ = c at loop run
  obtain ⟨st, current, count, go⟩ := c
  obtain ⟨started, positive, capped, runs, state, pixels⟩ := loop
  dsimp only at started positive capped state pixels run
  subst started
  rw [if_pos rfl, emitRun_joins state] at run
  refine ⟨runs ++ [(UInt8.ofNat count, current)], by simp, ?_, ?_, ?_⟩
  · rw [runPixels_joins runs capped, pixels]
  · have few : startState.pending.length < 3 := by decide
    obtain ⟨text, few'⟩ := pushes_clean few (runBytes (runs ++ [(UInt8.ofNat count, current)]))
    rw [run, finish_clean few', text]
    rfl
  · rw [run]
    exact finish_begun (pushes_begun (by simp [Begun, startState]) _)

end Runs

section Lines
variable {text : Text}

theorem splitOn_some (text : Text) : ∃ p ps, text.splitOn newline = p :: ps :=
  List.exists_cons_of_ne_nil (List.splitOn_ne_nil newline text)

theorem splitOn_line {line : Text} (whole : newline ∉ line) {p : Text} {ps : List Text} (split : text.splitOn newline = p :: ps) :
    (line ++ text).splitOn newline = (line ++ p) :: ps := by
  induction line with
  | nil => exact split
  | cons c cs ih =>
    rw [List.mem_cons, not_or] at whole
    have other : (c == newline) = false := beq_eq_false_iff_ne.mpr (Ne.symm whole.1)
    rw [List.cons_append, List.splitOn_cons_eq_if_modifyHead, other, ih whole.2]
    rfl

theorem flatten_splitOn (text : Text) : (text.splitOn newline).flatten = joinedLines text := by
  induction text with
  | nil => rfl
  | cons c cs ih =>
    obtain ⟨p, ps, split⟩ := splitOn_some cs
    rw [List.splitOn_cons_eq_if_modifyHead]
    by_cases break_ : c = newline
    · simpa [break_, joinedLines] using ih
    · rw [split] at ih ⊢
      simpa [break_, joinedLines] using ih

theorem line_text (clean : ∀ c ∈ joinedLines text, Base64.isText c = true) :
    ∀ piece ∈ text.splitOn newline, ∀ c ∈ piece, Base64.isText c = true := by
  intro piece member c inside
  apply clean
  rw [← flatten_splitOn]
  exact List.mem_flatten.mpr ⟨piece, member, inside⟩

end Lines

section Reader
variable {piece : Text} {b : Begin} {acc pieces tail : List Text}

theorem hasEnd_text (clean : ∀ c ∈ piece, Base64.isText c = true) : hasEnd piece = false := by
  have dash : Base64.isText 45 = false := by decide
  simp only [hasEnd, List.any_eq_false, List.mem_tails]
  intro rest suffix found
  have first : (45 : UInt8) ∈ rest := (List.isPrefixOf_iff_prefix.mp found).subset (by decide)
  exact absurd (clean 45 (suffix.subset first)) (by simp [dash])

theorem text_solid {c : UInt8} (text : Base64.isText c = true) : isSpace c = false := by
  have graphic : 33 ≤ c.toNat ∧ c.toNat ≤ 122 := by
    simp only [Base64.isText, Base64.value, Base64.pad, UInt8.le_iff_toNat_le, Bool.or_eq_true, beq_iff_eq, ← UInt8.toNat_inj,
      UInt8.reduceToNat] at text
    rcases text with known | pad
    · split_ifs at known <;> first | omega | cases known
    · omega
  simp only [isSpace, UInt8.le_iff_toNat_le, Bool.or_eq_false_iff, Bool.and_eq_false_iff, decide_eq_false_iff_not,
    beq_eq_false_iff_ne, ne_eq, ← UInt8.toNat_inj, UInt8.reduceToNat]
  omega

theorem strip_text (clean : ∀ c ∈ piece, Base64.isText c = true) : strip piece = piece := by
  have still {text : Text} (clean : ∀ c ∈ text, Base64.isText c = true) : text.dropWhile isSpace = text := by
    cases text with
    | nil => rfl
    | cons c cs => simp [text_solid (clean c (by simp))]
  rw [strip, still clean, still (by simpa using clean), List.reverse_reverse]

theorem extractFrom_block (clean : ∀ piece ∈ pieces, ∀ c ∈ piece, Base64.isText c = true) :
    extractFrom (some (b, acc)) (pieces ++ endMark :: tail) = (frameOf b (acc ++ pieces)).toList ++ extractFrom none tail := by
  induction pieces generalizing acc with
  | nil =>
    have marked : hasEnd endMark = true := by decide
    simp [extractFrom, marked]
  | cons piece pieces ih =>
    have here := clean piece (by simp)
    have rest := @ih (acc ++ [piece]) fun p member => clean p (by simp [member])
    simp only [List.cons_append, extractFrom, hasEnd_text here, strip_text here, Bool.false_eq_true, if_false, rest,
      List.append_assoc, List.nil_append]

theorem extractFrom_quiet {lines : List Text} (quiet : ∀ line ∈ lines, searchBegin line = none) : extractFrom none lines = [] := by
  induction lines with
  | nil => rfl
  | cons line lines ih =>
    simp only [extractFrom, quiet line (by simp)]
    exact ih fun l member => quiet l (by simp [member])

theorem toInt_decimal (n : Nat) : toInt (decimal n) = n := by
  unfold decimal
  split
  · rename_i zero
    subst zero
    rfl
  · have digits (L : List Nat) (small : ∀ d ∈ L, d < 10) :
        L.foldr (fun d n => n * 10 + ((UInt8.ofNat (48 + d)).toNat - 48)) 0 = Nat.ofDigits 10 L := by
      induction L with
      | nil => rfl
      | cons d L ih =>
        have byte : (UInt8.ofNat (48 + d)).toNat = 48 + d := by
          have bound := small d (by simp)
          rw [UInt8.toNat_ofNat']
          omega
        rw [List.foldr_cons, ih fun e member => small e (by simp [member]), byte, Nat.ofDigits_cons]
        omega
    rw [toInt, List.foldl_map, List.foldl_reverse, digits _ fun d member => Nat.digits_lt_base (by decide) member,
      Nat.ofDigits_digits]

theorem decimal_digits (n : Nat) : ∀ c ∈ decimal n, isDigit c = true := by
  have small : ∀ d < 10, isDigit (UInt8.ofNat (48 + d)) = true := by decide
  unfold decimal
  split
  · decide
  · intro c member
    obtain ⟨d, inside, rfl⟩ := List.mem_map.mp member
    exact small d (Nat.digits_lt_base (by decide) (List.mem_reverse.mp inside))

theorem decimal_some (n : Nat) : decimal n ≠ [] := by
  unfold decimal
  split
  · simp
  · rename_i positive
    simpa [Nat.digits_eq_nil_iff_eq_zero] using positive

theorem after_front (literal text : Text) : after literal (literal ++ text) = some text := by
  simp [after]

theorem takeWhile_front {p : UInt8 → Bool} {front rest : Text} (all : ∀ c ∈ front, p c = true)
    (stop : ∀ c ∈ rest.head?, p c = false) : (front ++ rest).takeWhile p = front ∧ (front ++ rest).dropWhile p = rest := by
  rw [List.takeWhile_append_of_pos all, List.dropWhile_append_of_pos all]
  cases rest with
  | nil => simp
  | cons c cs => simp [stop c (by simp)]

theorem some1_front {p : UInt8 → Bool} {front rest : Text} (all : ∀ c ∈ front, p c = true) (some_ : front ≠ [])
    (stop : ∀ c ∈ rest.head?, p c = false) : some1 p (front ++ rest) = some (front, rest) := by
  obtain ⟨taken, left⟩ := takeWhile_front all stop
  simp only [some1, taken, left, if_neg some_]

/-- The header line without the break before it. -/
@[grind =] def lineOf (fb : FbInfo) (label : Text) : Text :=
  ascii "--QITO-FRAME-BEGIN " ++ (decimal fb.width ++ (ascii "x" ++ (decimal fb.height ++
    (ascii " " ++ (ascii "rle24" ++ (ascii " " ++ label))))))

theorem matchBegin_line (fb : FbInfo) {label : Text} (plain : ∀ c ∈ label, isSpace c = false) :
    matchBegin (lineOf fb label) = some ⟨decimal fb.width, decimal fb.height, ascii "rle24", label⟩ := by
  have word : ∀ c ∈ ascii "rle24", isWord c = true := by decide
  have end1 (t : Text) : ∀ c ∈ (ascii "x" ++ t).head?, isDigit c = false := by
    intro c member
    cases Option.some.inj member
    decide
  have end2 (t : Text) : ∀ c ∈ (ascii " " ++ t).head?, isDigit c = false ∧ isWord c = false := by
    intro c member
    cases Option.some.inj member
    decide
  have all : label.takeWhile (fun c => !isSpace c) = label := by
    have solid : ∀ c ∈ label, (!isSpace c) = true := by simpa using plain
    have whole := (@takeWhile_front _ label [] solid (by simp)).1
    rwa [List.append_nil] at whole
  simp only [matchBegin, lineOf, after_front, Option.bind_eq_bind, Option.bind_some,
    some1_front (decimal_digits _) (decimal_some _) (end1 _),
    some1_front (decimal_digits _) (decimal_some _) (fun c member => (end2 _ c member).1),
    some1_front word (by decide) (fun c member => (end2 _ c member).2), all]
  rfl

theorem searchBegin_line (fb : FbInfo) {label : Text} (plain : ∀ c ∈ label, isSpace c = false) :
    searchBegin (lineOf fb label) = some ⟨decimal fb.width, decimal fb.height, ascii "rle24", label⟩ := by
  have found := matchBegin_line fb plain
  have first : ∃ cs, lineOf fb label = 45 :: cs := ⟨_, rfl⟩
  obtain ⟨cs, text⟩ := first
  rw [text] at found ⊢
  rw [searchBegin, found]
  rfl

theorem extractFrom_frame {line : Text} {lines : List Text} (found : searchBegin line = some b)
    (clean : ∀ piece ∈ pieces, ∀ c ∈ piece, Base64.isText c = true) (quiet : ∀ line ∈ lines, searchBegin line = none) :
    extractFrom none ([] :: line :: (pieces ++ endMark :: lines)) = (frameOf b pieces).toList := by
  have empty : searchBegin [] = none := by decide
  simp only [extractFrom, empty, found, extractFrom_block clean, extractFrom_quiet quiet, List.append_nil, List.nil_append]

theorem frameOf_label {payload : List Text} {f : Frame} (made : frameOf b payload = some f) :
    f.label = if b.label = [] then ascii "frame" else b.label := by
  obtain ⟨data, -, made⟩ := Option.bind_eq_some_iff.mp made
  obtain ⟨data', -, made⟩ := Option.bind_eq_some_iff.mp made
  cases Option.some.inj made
  rfl

theorem frameOf_runs {fb : FbInfo} {label : Text} {payload : List Text} {runs : List (UInt8 × UInt32)}
    (pixels : runPixels runs = fb.raster.flatMap rgb) (text : payload.flatten = Base64.encode (runBytes runs)) :
    frameOf ⟨decimal fb.width, decimal fb.height, ascii "rle24", label⟩ payload =
      some (fb.frame (if label = [] then ascii "frame" else label)) := by
  have length : (fb.raster.flatMap rgb).length = fb.width * fb.height * 3 := by
    have three (p : UInt32) : (rgb p).length = 3 := rfl
    simp [List.length_flatMap, three, raster_length]
  have data : decodeRle24 (runBytes runs) (fb.width * fb.height) = fb.raster.flatMap rgb := by
    rw [decodeRle24, expandRuns_all, List.nil_append, pixels]
    rw [List.nil_append, pixels, length]
  simp only [frameOf, toInt_decimal, text, Base64.decode_encode, Option.bind_eq_bind, Option.bind_some, expandAs, if_true, data, length,
    Nat.sub_self, List.replicate_zero, List.append_nil]
  rw [← length, List.take_length]
  rfl

end Reader

/-- The header has room in its buffer, and there is a label to find in it. -/
def Fits (fb : FbInfo) (label : Text) : Prop := label ≠ [] ∧ (headerLine fb label).length + 1 < headerSize

/-- The part of the label that the buffer has no room for. -/
def lost (fb : FbInfo) (label : Text) : Text := (headerLine fb label).drop (headerSize - 1)

section Headers
variable {fb : FbInfo} {label : Text}

theorem headerLine_line (fb : FbInfo) (label : Text) : headerLine fb label = newline :: lineOf fb label := by
  have begins : captureBegin = newline :: ascii "--QITO-FRAME-BEGIN " := by decide
  have middle : ascii " rle24 " = ascii " " ++ (ascii "rle24" ++ ascii " ") := by decide
  simp only [headerLine, lineOf, begins, middle, List.append_assoc, List.cons_append]

theorem lineOf_label (fb : FbInfo) (label : Text) : lineOf fb label = lineOf fb [] ++ label := by
  simp only [lineOf, List.append_assoc, List.append_nil]

theorem decimal_short {n : Nat} (small : n < 2 ^ 31) : (decimal n).length ≤ 10 := by
  unfold decimal
  split
  · simp
  · rw [List.length_map, List.length_reverse, Nat.digits_length_le_iff (by decide)]
    omega

theorem lineOf_short (wide : fb.width < 2 ^ 31) (high : fb.height < 2 ^ 31) : (lineOf fb []).length ≤ 47 := by
  have first := decimal_short wide
  have second := decimal_short high
  have mark : (ascii "--QITO-FRAME-BEGIN ").length = 19 := by decide
  have by_ : (ascii "x").length = 1 := by decide
  have blank : (ascii " ").length = 1 := by decide
  have word : (ascii "rle24").length = 5 := by decide
  simp only [lineOf, List.length_append, mark, by_, blank, word, List.length_nil]
  omega

theorem header_whole (room : (headerLine fb label).length + 1 < headerSize) :
    header fb label = newline :: (lineOf fb label ++ [newline]) := by
  rw [header, List.take_of_length_le, headerLine_line, List.cons_append]
  rw [List.length_append, List.length_singleton]
  exact Nat.le_sub_one_of_lt room

theorem header_cut (short : (lineOf fb []).length ≤ 47) (tooLong : ¬ (headerLine fb label).length + 1 < headerSize) :
    ∃ kept, header fb label = newline :: lineOf fb kept ∧ label = kept ++ lost fb label := by
  have length : (headerLine fb label).length = (lineOf fb []).length + label.length + 1 := by
    rw [headerLine_line, List.length_cons, lineOf_label, List.length_append]
  change ¬ (headerLine fb label).length + 1 < 160 at tooLong
  refine ⟨label.take (158 - (lineOf fb []).length), ?_, ?_⟩
  · change (headerLine fb label ++ [newline]).take 159 = _
    rw [List.take_append_of_le_length (by omega), headerLine_line, List.take_succ_cons, lineOf_label fb label,
      List.take_append, List.take_of_length_le (by omega), lineOf_label fb (label.take _)]
  · change label = _ ++ (headerLine fb label).drop 159
    rw [headerLine_line, List.drop_succ_cons, lineOf_label fb label, List.drop_append, List.drop_eq_nil_of_le (by omega),
      List.nil_append, List.take_append_drop]

theorem serialLine_returns (text : Text) : (serialLine text).filter (· ≠ 13) = text.filter (· ≠ 13) := by
  have other : (newline : UInt8) ≠ 13 := by decide
  induction text with
  | nil => rfl
  | cons c cs ih =>
    have front : (serialLine (c :: cs)) = (if c = newline then [13, newline] else [c]) ++ serialLine cs := rfl
    rw [front, List.filter_append, ih]
    by_cases break_ : c = newline
    · simp [break_, other]
    · rw [if_neg break_, ← List.filter_append, List.singleton_append]

theorem lineOf_plain (plain : ∀ c ∈ label, isSpace c = false) : ∀ c ∈ lineOf fb label, c ≠ 13 ∧ c ≠ newline := by
  have literal (text : String) (fine : (ascii text).all (fun c => c != 13 && c != newline) = true) :
      ∀ c ∈ ascii text, c ≠ 13 ∧ c ≠ newline := by
    intro c member
    simpa using List.all_eq_true.mp fine c member
  have number (n : Nat) : ∀ c ∈ decimal n, c ≠ 13 ∧ c ≠ newline := by
    intro c member
    have digit := decimal_digits n c member
    constructor
    · rintro rfl
      exact absurd digit (by decide)
    · rintro rfl
      exact absurd digit (by decide)
  have label_ : ∀ c ∈ label, c ≠ 13 ∧ c ≠ newline := by
    intro c member
    have solid := plain c member
    constructor
    · rintro rfl
      exact absurd solid (by decide)
    · rintro rfl
      exact absurd solid (by decide)
  intro c member
  simp only [lineOf, List.mem_append] at member
  rcases member with m | m | m | m | m | m | m | m
  · exact literal _ (by decide) c m
  · exact number _ c m
  · exact literal _ (by decide) c m
  · exact number _ c m
  · exact literal _ (by decide) c m
  · exact literal _ (by decide) c m
  · exact literal _ (by decide) c m
  · exact label_ c m

theorem extract_lines {front serial trailer : Text} {p : Text} {ps : List Text} (whole : ∀ c ∈ front, c ≠ 13)
    (clean : ∀ c ∈ joinedLines serial, Base64.isText c = true) (split : (front ++ serial).splitOn newline = p :: ps) :
    extract (newline :: (front ++ serial) ++ captureEnd ++ trailer) =
      extractFrom none ([] :: p :: (ps ++ endMark :: (trailer.filter (· ≠ 13)).splitOn newline)) := by
  have ends : captureEnd = newline :: (endMark ++ [newline]) := by decide
  have marks : ∀ c ∈ endMark, c ≠ 13 ∧ c ≠ newline := by
    have all : endMark.all (fun c => c != 13 && c != newline) = true := by decide
    intro c member
    simpa using List.all_eq_true.mp all c member
  have bytes : ∀ c ∈ serial, c ≠ 13 := by
    rintro c member rfl
    have text := clean 13 (List.mem_filter.mpr ⟨member, by decide⟩)
    exact absurd text (by decide)
  have kept {text : Text} (all : ∀ c ∈ text, c ≠ 13) : text.filter (· ≠ 13) = text :=
    List.filter_eq_self.mpr fun c member => by simpa using all c member
  have filtered : (newline :: (front ++ serial) ++ captureEnd ++ trailer).filter (· ≠ 13) =
      [] ++ newline :: ((front ++ serial) ++ newline :: (endMark ++ newline :: trailer.filter (· ≠ 13))) := by
    have here : ∀ c ∈ newline :: (front ++ serial) ++ captureEnd, c ≠ 13 := by
      intro c member
      rw [ends] at member
      simp only [List.cons_append, List.mem_cons, List.mem_append, List.not_mem_nil, or_false] at member
      rcases member with rfl | (m | m) | rfl | m | rfl
      · decide
      · exact whole c m
      · exact bytes c m
      · decide
      · exact (marks c m).1
      · decide
    rw [List.filter_append, kept here, ends]
    simp
  rw [extract, filtered, List.splitOn_append_cons_self, List.splitOn_append_cons_self, List.splitOn_append_cons_self, split,
    List.splitOn_eq_singleton fun member => (marks _ member).2 rfl]
  rfl

end Headers

/-- The log after the capture has no header of another frame in it. -/
def Quiet (trailer : Text) : Prop := ∀ line ∈ (trailer.filter (· ≠ 13)).splitOn newline, searchBegin line = none

section Capture
variable {fb : FbInfo} {label trailer : Text}

theorem piece_some {serial p : Text} {ps : List Text} (filled : serial ≠ []) (begun : serial.head? ≠ some newline)
    (split : serial.splitOn newline = p :: ps) : p ≠ [] := by
  obtain ⟨c, cs, rfl⟩ := List.exists_cons_of_ne_nil filled
  have other : (c == newline) = false := beq_eq_false_iff_ne.mpr fun same => begun (congrArg some same)
  obtain ⟨q, qs, rest⟩ := splitOn_some cs
  rw [List.splitOn_cons_eq_if_modifyHead, other, rest] at split
  cases split
  simp

theorem capture_whole (wide : 0 < fb.width) (high : 0 < fb.height) (plain : ∀ c ∈ label, isSpace c = false) (quiet : Quiet trailer)
    (room : (headerLine fb label).length + 1 < headerSize) : extract (fbCaptureSerial fb label ++ trailer) =
      [fb.frame (if label = [] then ascii "frame" else label)] := by
  obtain ⟨runs, -, pixels, text, -⟩ := captureRuns_text (raster_some wide high)
  have clean : ∀ c ∈ joinedLines (captureRuns fb).serial, Base64.isText c = true := by
    rw [text]
    exact Base64.encode_text _
  have payload : ((captureRuns fb).serial.splitOn newline).flatten = Base64.encode (runBytes runs) := by
    rw [flatten_splitOn, text]
  have line := @lineOf_plain fb label plain
  have lines : (lineOf fb label ++ [newline] ++ (captureRuns fb).serial).splitOn newline =
      lineOf fb label :: (captureRuns fb).serial.splitOn newline := by
    rw [List.append_assoc, List.singleton_append, List.splitOn_append_cons_self,
      List.splitOn_eq_singleton fun member => (line _ member).2 rfl, List.singleton_append]
  have whole : ∀ c ∈ lineOf fb label ++ [newline], c ≠ 13 := by
    intro c member
    rcases List.mem_append.mp member with m | m
    · exact (line c m).1
    · cases List.mem_singleton.mp m
      decide
  rw [fbCaptureSerial, header_whole room, List.cons_append, extract_lines whole clean lines,
    extractFrom_frame (searchBegin_line fb plain) (line_text clean) quiet, frameOf_runs pixels payload]
  rfl

/-- A header that is cut has no break behind it: the first line of the pixels is
read as the end of the label. -/
theorem capture_cut (wide : 0 < fb.width) (high : 0 < fb.height) (widthInt : fb.width < 2 ^ 31) (heightInt : fb.height < 2 ^ 31)
    (plain : ∀ c ∈ label, isSpace c = false) (quiet : Quiet trailer) (tooLong : ¬ (headerLine fb label).length + 1 < headerSize)
    (found : extract (fbCaptureSerial fb label ++ trailer) = [fb.frame label]) :
    lost fb label ≠ [] ∧ ∀ c ∈ lost fb label, Base64.isText c = true := by
  obtain ⟨runs, some_, -, text, begun⟩ := captureRuns_text (raster_some wide high)
  have clean : ∀ c ∈ joinedLines (captureRuns fb).serial, Base64.isText c = true := by
    rw [text]
    exact Base64.encode_text _
  have filled : (captureRuns fb).serial ≠ [] := by
    intro empty
    rw [empty] at text
    obtain ⟨run, rest, rfl⟩ := List.exists_cons_of_ne_nil some_
    exact absurd text.symm (by simp [runBytes, rgb, Base64.encode, Base64.quad, joinedLines])
  obtain ⟨p, ps, split⟩ := splitOn_some (captureRuns fb).serial
  have pieces := line_text clean
  rw [split] at pieces
  have first := pieces p (by simp)
  obtain ⟨kept, cut, label_⟩ := header_cut (lineOf_short widthInt heightInt) tooLong
  have solid : ∀ c ∈ kept ++ p, isSpace c = false := by
    intro c member
    rcases List.mem_append.mp member with m | m
    · exact plain c (by rw [label_]; exact List.mem_append_left _ m)
    · exact text_solid (first c m)
  have front := @lineOf_plain fb kept fun c m => solid c (List.mem_append_left _ m)
  have lines : (lineOf fb kept ++ (captureRuns fb).serial).splitOn newline = lineOf fb (kept ++ p) :: ps := by
    rw [splitOn_line (fun member => (front _ member).2 rfl) split, lineOf_label fb (kept ++ p), lineOf_label fb kept,
      List.append_assoc]
  rw [fbCaptureSerial, cut, List.cons_append, extract_lines (fun c m => (front c m).1) clean lines,
    extractFrom_frame (searchBegin_line fb solid) (fun piece m => pieces piece (by simp [m])) quiet] at found
  have made : frameOf ⟨decimal fb.width, decimal fb.height, ascii "rle24", kept ++ p⟩ ps = some (fb.frame label) := by
    cases frame : frameOf ⟨decimal fb.width, decimal fb.height, ascii "rle24", kept ++ p⟩ ps with
    | none => simp [frame] at found
    | some f => simpa [frame] using found
  have piece := piece_some filled begun split
  have read := frameOf_label made
  have longer : kept ++ p ≠ [] := by simp [piece]
  rw [if_neg longer] at read
  have same : lost fb label = p := by
    have both : kept ++ lost fb label = kept ++ p := label_.symm.trans read
    exact List.append_cancel_left both
  rw [same]
  exact ⟨piece, first⟩

theorem capture_reads_back (fb : FbInfo) (label trailer : Text) (wide : 0 < fb.width) (high : 0 < fb.height)
    (widthInt : fb.width < 2 ^ 31) (heightInt : fb.height < 2 ^ 31) (plain : ∀ c ∈ label, isSpace c = false)
    (quiet : Quiet trailer) :
    (Fits fb label → extract (fbCaptureSerial fb label ++ trailer) = [fb.frame label] ∧
      extract (serialLine (fbCaptureSerial fb label ++ trailer)) = [fb.frame label]) ∧
    (extract (fbCaptureSerial fb label ++ trailer) = [fb.frame label] →
      Fits fb label ∨ lost fb label ≠ [] ∧ ∀ c ∈ lost fb label, Base64.isText c = true) := by
  constructor
  · rintro ⟨named, room⟩
    have found := capture_whole wide high plain quiet room
    rw [if_neg named] at found
    refine ⟨found, ?_⟩
    rw [extract, serialLine_returns]
    exact found
  · intro found
    by_cases room : (headerLine fb label).length + 1 < headerSize
    · left
      refine ⟨?_, room⟩
      rintro rfl
      rw [capture_whole wide high plain quiet room, if_pos rfl] at found
      have same : ascii "frame" = [] := congrArg Frame.label (List.singleton_inj.mp found)
      exact absurd same (by decide)
    · right
      exact capture_cut wide high widthInt heightInt plain quiet room found

/-- One white pixel. -/
def whitePixel : FbInfo := ⟨1, 1, 1, fun _ => 0xFFFFFFFF⟩

example : (captureRuns whitePixel).serial = ascii "Af///w==" := by decide +kernel

theorem white_pixel_reads_back : extract (fbCaptureSerial whitePixel (ascii "manual")) = [⟨1, 1, ascii "manual", [255, 255, 255]⟩] := by
  have quiet : Quiet [] := by
    intro line member
    cases List.mem_singleton.mp member
    decide
  have found := (capture_reads_back whitePixel (ascii "manual") [] (by decide) (by decide) (by decide) (by decide) (by decide)
    quiet).1 ⟨by decide, by decide⟩
  rw [List.append_nil] at found
  exact found.1

/-- A label of 200 letters does not fit the header. -/
theorem long_label_misread : ¬ ∀ (fb : FbInfo) (label : Text), 0 < fb.width → 0 < fb.height → fb.width ≤ fb.pitch →
    (∀ c ∈ label, isSpace c = false) → ¬ ascii "--QITO-FRAME-BEGIN" <:+: label → ¬ endMark <:+: label →
    extract (fbCaptureSerial fb label) = [fb.frame label] := by
  intro always
  have wrong := always whitePixel (List.replicate 200 97) (by decide) (by decide) (by decide) (by decide +kernel)
    (by decide +kernel) (by decide +kernel)
  revert wrong
  decide +kernel

end Capture

end Qito.Gfx
