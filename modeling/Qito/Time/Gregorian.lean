import Mathlib.Data.Nat.Init
import Mathlib.Tactic.IntervalCases
import Qito.Time.Calendar

/-! The conversions against the proleptic Gregorian calendar. A day is a month and an
offset in it, in a year that is an offset in the years from 1970 on. -/
namespace Qito.Time
open Signed Spans Words

/-- A year with a 29th of February. -/
def Leap (year : Int) : Prop := 4 ∣ year ∧ ¬ 100 ∣ year ∨ 400 ∣ year

instance (year : Int) : Decidable (Leap year) := inferInstanceAs (Decidable (_ ∧ _ ∨ _))

def monthLength (year month : Int) : Int :=
  if month = 2 then if Leap year then 29 else 28
  else if month = 4 ∨ month = 6 ∨ month = 9 ∨ month = 11 then 30
  else 31

structure Valid (t : QitoTime) : Prop where
  month : 1 ≤ t.month ∧ t.month ≤ 12
  day : 1 ≤ t.day ∧ t.day ≤ monthLength t.year t.month
  hour : 0 ≤ t.hour ∧ t.hour < 24
  minute : 0 ≤ t.minute ∧ t.minute < 60
  second : 0 ≤ t.second ∧ t.second < 60

def monthShift (month : Int) : Int := [0, 3, 2, 5, 0, 3, 5, 1, 4, 6, 2, 4].getD (month - 1).toNat 0

/-- The weekday of a date, 0 for Sunday. January and February count with the year before. -/
def weekdayOf (year month day : Int) : Int :=
  let y := if month < 3 then year - 1 else year
  (y + y / 4 - y / 100 + y / 400 + monthShift month + day) % 7

/-- The parts of a date from the year to the second. -/
def fields (t : QitoTime) : List Int := [t.year, t.month, t.day, t.hour, t.minute, t.second]

/-- The days of the n-th year from 1970 on. -/
def yearSpan (n : Nat) : Nat := if Leap (1970 + n) then 366 else 365

/-- The days of a month, counted from 0. -/
def monthSpan (leap : Bool) (m : Nat) : Nat :=
  if m = 1 ∧ leap then daysInMonth.getD m 0 + 1 else daysInMonth.getD m 0

/-- The year of the time is no more than INT_MAX. -/
def FitsInt (t : Nat) : Prop := t / 86400 < start yearSpan (2 ^ 31 - 1970)

theorem yearSpan_parts (n : Nat) : yearSpan n + (if 100 ∣ 1970 + n then 1 else 0) =
    365 + (if 4 ∣ 1970 + n then 1 else 0) + (if 400 ∣ 1970 + n then 1 else 0) := by
  have fourth : (4 : Int) ∣ 1970 + n ↔ 4 ∣ 1970 + n := by omega
  have hundredth : (100 : Int) ∣ 1970 + n ↔ 100 ∣ 1970 + n := by omega
  have last : (400 : Int) ∣ 1970 + n ↔ 400 ∣ 1970 + n := by omega
  have century : 100 ∣ 1970 + n → 4 ∣ 1970 + n := Nat.dvd_trans (by decide)
  have fourthCentury : 400 ∣ 1970 + n → 100 ∣ 1970 + n := Nat.dvd_trans (by decide)
  have leap : Leap (1970 + n) ↔ 4 ∣ 1970 + n ∧ ¬ 100 ∣ 1970 + n ∨ 400 ∣ 1970 + n :=
    or_congr (and_congr fourth (not_congr hundredth)) last
  unfold yearSpan
  simp only [leap]
  by_cases a : 4 ∣ 1970 + n
  · by_cases b : 100 ∣ 1970 + n
    · by_cases c : 400 ∣ 1970 + n
      · simp [a, b, c]
      · simp [a, b, c]
    · simp [a, b, mt fourthCentury b]
  · simp [a, mt century a, mt fourthCentury (mt century a)]

theorem isLeap_iff (year : Int) : isLeap year = true ↔ Leap year := by
  simp only [isLeap, Leap, Bool.or_eq_true, Bool.and_eq_true, beq_iff_eq, bne_iff_ne, Int.dvd_iff_tmod_eq_zero, ne_eq]

theorem isLeap_eq (year : Int) : isLeap year = decide (Leap year) := by
  rw [Bool.eq_iff_iff, isLeap_iff, decide_eq_true_iff]

theorem yearSpan_code (n : Nat) : (if isLeap (1970 + n) then 366 else 365) = yearSpan n := by
  simp only [yearSpan, isLeap_iff]

theorem yearSpan_range (n : Nat) : 0 < yearSpan n ∧ yearSpan n ≤ 366 := by
  unfold yearSpan
  split
  · exact ⟨by decide, by decide⟩
  · exact ⟨by decide, by decide⟩

theorem start_yearSpan_le (n : Nat) : start yearSpan n ≤ 366 * n := start_le fun i _ => (yearSpan_range i).2

theorem monthSpan_year (leap : Bool) : start (monthSpan leap) 12 = if leap then 366 else 365 := by
  cases leap
  · rfl
  · rfl

theorem monthSpan_length {year : Int} {m : Nat} (low : m < 12) : (monthSpan (isLeap year) m : Int) = monthLength year (m + 1) := by
  rw [isLeap_eq]
  unfold monthLength monthSpan
  by_cases leap : Leap year
  · simp only [leap]
    interval_cases m <;> rfl
  · simp only [leap]
    interval_cases m <;> rfl

section Ahead
variable {leap : Bool} {days : Nat}

theorem addYears_eq (k n : Nat) (small : days + 366 * n < 2 ^ 64) :
    addYears n (1970 + k) days + start yearSpan k = days + start yearSpan (k + n) := by
  induction n generalizing k days with
  | zero => rfl
  | succ n ih =>
    have some_ := yearSpan_range k
    have next : wrap64 (days + if isLeap (1970 + k) then 366 else 365) = days + yearSpan k := by
      rw [yearSpan_code, wrap64_of_lt (by omega)]
    have year : (1970 + k : Int) + 1 = 1970 + (k + 1 : Nat) := by omega
    have rest := @ih (days + yearSpan k) (k + 1) (by omega)
    have here : start yearSpan (k + 1) = start yearSpan k + yearSpan k := rfl
    have shift : k + (n + 1) = k + 1 + n := by omega
    rw [addYears, next, year, shift]
    omega

theorem addMonths_eq (k n : Nat) (low : k + n ≤ 12) (small : days + 32 * n < 2 ^ 64) :
    ∃ total, addMonths leap n (k + 1) days = some total ∧ total + start (monthSpan leap) k = days + start (monthSpan leap) (k + n) := by
  induction n generalizing k days with
  | zero => exact ⟨days, rfl, rfl⟩
  | succ n ih =>
    have inside : k < daysInMonth.length := by
      change k < 12
      omega
    have short : daysInMonth.getD k 0 ≤ 31 := by
      have all : ∀ k < 12, daysInMonth.getD k 0 ≤ 31 := by decide
      exact all k inside
    have some_ : daysInMonth[k + 1 - 1]? = some (daysInMonth.getD k 0) := by
      rw [Nat.add_sub_cancel, List.getElem?_eq_getElem inside, List.getD_eq_getElem _ _ inside]
    have next : (if k + 1 = 2 ∧ leap = true then wrap64 (wrap64 (days + daysInMonth.getD k 0) + 1)
        else wrap64 (days + daysInMonth.getD k 0)) = days + monthSpan leap k := by
      have same : (k + 1 = 2 ∧ leap = true) ↔ (k = 1 ∧ leap = true) := and_congr_left fun _ => by omega
      rw [wrap64_of_lt (n := days + daysInMonth.getD k 0) (by omega), wrap64_of_lt (by omega), monthSpan]
      simp only [same]
      split
      · rfl
      · rfl
    have longest : monthSpan leap k ≤ 32 := by
      unfold monthSpan
      split
      · omega
      · omega
    obtain ⟨total, run, sum⟩ := @ih (days + monthSpan leap k) (k + 1) (by omega) (by omega)
    refine ⟨total, ?_, ?_⟩
    · rw [addMonths, some_, Option.bind_eq_bind, Option.bind_some]
      dsimp only
      rw [next]
      exact run
    · have here : start (monthSpan leap) (k + 1) = start (monthSpan leap) k + monthSpan leap k := rfl
      have shift : k + (n + 1) = k + 1 + n := by omega
      rw [shift]
      omega

end Ahead

section Back
variable {leap : Bool} {days : Nat}

theorem findYear_spec (k : Nat) (fits : start yearSpan k + days < start yearSpan (2 ^ 31 - 1970)) :
    ∃ m : Nat, m < 2 ^ 31 - 1970 ∧ (findYear days (1970 + k)).2 = 1970 + m ∧ (findYear days (1970 + k)).1 < yearSpan m ∧
      start yearSpan m + (findYear days (1970 + k)).1 = start yearSpan k + days := by
  have early : k < 2 ^ 31 - 1970 := by
    by_contra late
    have after := @start_mono yearSpan _ _ (Nat.le_of_not_lt late)
    omega
  induction days using Nat.strong_induction_on generalizing k with
  | h days ih =>
    rw [findYear]
    simp only [yearSpan_code]
    by_cases here : days < yearSpan k
    · rw [if_pos here]
      exact ⟨k, early, rfl, here, rfl⟩
    · rw [if_neg here]
      have some_ := yearSpan_range k
      have next : start yearSpan (k + 1) = start yearSpan k + yearSpan k := rfl
      have fits' : start yearSpan (k + 1) + (days - yearSpan k) < start yearSpan (2 ^ 31 - 1970) := by omega
      have early' : k + 1 < 2 ^ 31 - 1970 := by
        by_contra late
        have after := @start_mono yearSpan _ _ (Nat.le_of_not_lt late)
        omega
      have year : int32 (1970 + (k : Int) + 1) = 1970 + (k + 1 : Nat) := by
        rw [int32_id (by omega) (by omega)]
        omega
      rw [year]
      obtain ⟨m, low, is, inside, sum⟩ := ih (days - yearSpan k) (by omega) (k + 1) fits' early'
      exact ⟨m, low, is, inside, by omega⟩

theorem findMonth_spec (n k : Nat) (rounds : k + n = 12) (fits : start (monthSpan leap) k + days < start (monthSpan leap) 12) :
    (findMonth leap n k days).1 < 12 ∧ (findMonth leap n k days).2 < monthSpan leap (findMonth leap n k days).1 ∧
      start (monthSpan leap) (findMonth leap n k days).1 + (findMonth leap n k days).2 = start (monthSpan leap) k + days := by
  induction n generalizing k days with
  | zero =>
    obtain rfl : k = 12 := rounds
    omega
  | succ n ih =>
    have span : (if k = 1 ∧ leap = true then daysInMonth.getD k 0 + 1 else daysInMonth.getD k 0) = monthSpan leap k := rfl
    rw [findMonth, span]
    by_cases here : days < monthSpan leap k
    · rw [if_pos here]
      exact ⟨by dsimp only; omega, here, rfl⟩
    · rw [if_neg here]
      have next : start (monthSpan leap) (k + 1) = start (monthSpan leap) k + monthSpan leap k := rfl
      obtain ⟨low, inside, sum⟩ := @ih (days - monthSpan leap k) (k + 1) (by omega) (by omega)
      exact ⟨low, inside, by omega⟩

end Back

/-- A date as offsets: its year from 1970, its month and its day from 0, and the time of the day. -/
structure Place where
  year : Nat
  month : Nat
  day : Nat
  hour : Nat
  minute : Nat
  second : Nat

namespace Place
variable {p q : Place}

structure Sound (p : Place) : Prop where
  year : p.year < 2 ^ 31 - 1970
  month : p.month < 12
  day : p.day < monthSpan (isLeap (1970 + p.year)) p.month
  hour : p.hour < 24
  minute : p.minute < 60
  second : p.second < 60

def date (p : Place) (weekday : Int) : QitoTime :=
  ⟨1970 + p.year, p.month + 1, p.day + 1, p.hour, p.minute, p.second, weekday⟩

/-- The day of the year. -/
def yearDay (p : Place) : Nat := start (monthSpan (isLeap (1970 + p.year))) p.month + p.day

def days (p : Place) : Nat := start yearSpan p.year + p.yearDay

def seconds (p : Place) : Nat := ((p.days * 24 + p.hour) * 60 + p.minute) * 60 + p.second

theorem Sound.inYear (sound : p.Sound) : p.yearDay < yearSpan p.year := by
  have inside := before_next sound.month sound.day
  rw [monthSpan_year] at inside
  rw [← yearSpan_code]
  exact inside

theorem Sound.early (sound : p.Sound) : p.days < start yearSpan (2 ^ 31 - 1970) := before_next sound.year sound.inYear

theorem Sound.small (sound : p.Sound) : p.days < 2 ^ 41 := by
  have early := sound.early
  have bound := start_yearSpan_le (2 ^ 31 - 1970)
  omega

theorem word_of_nat {n : Nat} (small : n < 2 ^ 64) : word n = n := by
  unfold word
  omega

theorem Sound.toUnix (sound : p.Sound) (weekday : Int) : timeToUnix (p.date weekday) = some p.seconds := by
  obtain ⟨year, month, day, hour, minute, second⟩ := sound
  have years := @addYears_eq 0 0 p.year (by omega)
  have bound := start_yearSpan_le p.year
  rw [Nat.zero_add, Nat.zero_add, start, Nat.add_zero] at years
  obtain ⟨total, run, sum⟩ := @addMonths_eq (isLeap (1970 + p.year)) (start yearSpan p.year) 0 p.month (by omega) (by omega)
  rw [Nat.zero_add, start, Nat.add_zero] at sum
  have days : total + p.day = p.days := by
    rw [Place.days, yearDay]
    omega
  have small := Sound.small ⟨year, month, day, hour, minute, second⟩
  have rounds : (1970 + (p.year : Int) - 1970).toNat = p.year := by omega
  have rounds' : ((p.month : Int) + 1 - 1).toNat = p.month := by omega
  have offset : word ((p.day : Int) + 1 - 1) = p.day := by
    rw [Int.add_sub_cancel]
    exact word_of_nat (by omega)
  unfold timeToUnix
  simp only [date, rounds, rounds', offset]
  change (addMonths (isLeap (1970 + p.year)) p.month 1 (addYears p.year (1970 + (0 : Nat)) 0)).bind _ = _
  rw [years, run, Option.bind_some]
  simp only [Option.pure_def, word_of_nat (Nat.lt_trans hour (by decide)), word_of_nat (Nat.lt_trans minute (by decide)),
    word_of_nat (Nat.lt_trans second (by decide))]
  rw [wrap64_of_lt (n := total + p.day) (by omega), days, wrap64_of_lt (n := p.days * 24 + p.hour) (by omega),
    wrap64_of_lt (n := (p.days * 24 + p.hour) * 60 + p.minute) (by omega), wrap64_of_lt (by omega)]
  rfl

theorem of_unix {t : Nat} (fits : FitsInt t) : ∃ p : Place, p.Sound ∧ p.seconds = t ∧
    timeFromUnix t = p.date ((t / 86400 + 4) % 7 : Nat) := by
  have total : start yearSpan 0 + t / 86400 < start yearSpan (2 ^ 31 - 1970) := by
    rw [start, Nat.zero_add]
    exact fits
  obtain ⟨y, early, year, inYear, sum⟩ := findYear_spec 0 total
  change (findYear (t / 86400) 1970).2 = _ at year
  change (findYear (t / 86400) 1970).1 < _ at inYear
  change start yearSpan y + (findYear (t / 86400) 1970).1 = start yearSpan 0 + _ at sum
  rw [start, Nat.zero_add] at sum
  have inMonths : start (monthSpan (isLeap (1970 + (y : Int)))) 0 + (findYear (t / 86400) 1970).1 <
      start (monthSpan (isLeap (1970 + (y : Int)))) 12 := by
    rw [start, Nat.zero_add, monthSpan_year, yearSpan_code]
    exact inYear
  obtain ⟨month, day, sum'⟩ := findMonth_spec 12 0 rfl inMonths
  rw [start, Nat.zero_add] at sum'
  refine ⟨⟨y, _, _, t % 86400 / 3600, t % 86400 % 3600 / 60, t % 86400 % 60⟩, ⟨early, month, day, ?_, ?_, ?_⟩, ?_, ?_⟩
  · dsimp only
    omega
  · dsimp only
    omega
  · dsimp only
    omega
  · unfold Place.seconds Place.days Place.yearDay
    dsimp only
    rw [sum', sum]
    omega
  · unfold timeFromUnix Place.date
    simp only [year]

theorem of_valid {t : QitoTime} (valid : Valid t) (from_ : 1970 ≤ t.year) (fits : t.year < 2 ^ 31) :
    ∃ p : Place, p.Sound ∧ p.date t.weekday = t := by
  obtain ⟨month, day, hour, minute, second⟩ := valid
  refine ⟨⟨(t.year - 1970).toNat, (t.month - 1).toNat, (t.day - 1).toNat, t.hour.toNat, t.minute.toNat, t.second.toNat⟩, ?_, ?_⟩
  · have year : (1970 + ((t.year - 1970).toNat : Int)) = t.year := by omega
    have low : (t.month - 1).toNat < 12 := by omega
    have back : (((t.month - 1).toNat : Int) + 1) = t.month := by omega
    have length := @monthSpan_length t.year _ low
    rw [back] at length
    constructor
    · dsimp only
      omega
    · exact low
    · dsimp only
      rw [year]
      omega
    · dsimp only
      omega
    · dsimp only
      omega
    · dsimp only
      omega
  · unfold Place.date
    cases t
    simp only [QitoTime.mk.injEq, and_true]
    dsimp only at *
    omega

theorem Sound.valid (sound : p.Sound) (weekday : Int) : Valid (p.date weekday) := by
  obtain ⟨year, month, day, hour, minute, second⟩ := sound
  have length := @monthSpan_length (1970 + p.year) _ month
  constructor
  · dsimp only [date]
    omega
  · dsimp only [date]
    omega
  · dsimp only [date]
    omega
  · dsimp only [date]
    omega
  · dsimp only [date]
    omega

/-- The leap days of the years up to the one before year n from 1970 on, as the divisions count them. -/
theorem start_yearSpan (n : Nat) : start yearSpan n + 477 + (1969 + n) / 100 = 365 * n + (1969 + n) / 4 + (1969 + n) / 400 := by
  induction n with
  | zero => rfl
  | succ n ih =>
    have next : start yearSpan (n + 1) = start yearSpan n + yearSpan n := rfl
    have parts := yearSpan_parts n
    rw [next, ← Nat.add_assoc, Nat.succ_div, Nat.succ_div, Nat.succ_div, Nat.add_right_comm 1969 n 1]
    generalize (if 4 ∣ 1969 + 1 + n then 1 else 0) = fourth at *
    generalize (if 100 ∣ 1969 + 1 + n then 1 else 0) = hundredth at *
    generalize (if 400 ∣ 1969 + 1 + n then 1 else 0) = last at *
    omega

theorem Sound.weekday (sound : p.Sound) : ((p.days + 4) % 7 : Nat) = weekdayOf (1970 + p.year) (p.month + 1) (p.day + 1) := by
  obtain ⟨-, month, -, -, -, -⟩ := sound
  have years := start_yearSpan p.year
  have next := start_yearSpan (p.year + 1)
  have span : start yearSpan (p.year + 1) = start yearSpan p.year + yearSpan p.year := rfl
  rw [span, ← yearSpan_code] at next
  -- the days of the months before this one, and what the formula adds for them
  have months : ∀ leap : Bool, ∀ m < 12,
      ((start (monthSpan leap) m : Int) - monthShift (m + 1) - (if m < 2 then 0 else 1 + leap.toNat)) % 7 = 0 := by decide
  have here := months (isLeap (1970 + p.year)) p.month month
  rw [Place.days, yearDay, weekdayOf]
  generalize start (monthSpan (isLeap (1970 + p.year))) p.month = before at here ⊢
  generalize monthShift (p.month + 1) = shift at here ⊢
  by_cases early : p.month < 2
  · have fourth : (1970 + (p.year : Int) - 1) / 4 = ((1969 + p.year) / 4 : Nat) := by omega
    have hundredth : (1970 + (p.year : Int) - 1) / 100 = ((1969 + p.year) / 100 : Nat) := by omega
    have last : (1970 + (p.year : Int) - 1) / 400 = ((1969 + p.year) / 400 : Nat) := by omega
    rw [if_pos early] at here
    rw [if_pos (by omega)]
    simp only [fourth, hundredth, last]
    clear next span fourth hundredth last
    generalize (1969 + p.year) / 4 = a at years ⊢
    generalize (1969 + p.year) / 100 = b at years ⊢
    generalize (1969 + p.year) / 400 = c at years ⊢
    omega
  · have fourth : (1970 + (p.year : Int)) / 4 = ((1969 + (p.year + 1)) / 4 : Nat) := by omega
    have hundredth : (1970 + (p.year : Int)) / 100 = ((1969 + (p.year + 1)) / 100 : Nat) := by omega
    have last : (1970 + (p.year : Int)) / 400 = ((1969 + (p.year + 1)) / 400 : Nat) := by omega
    rw [if_neg early] at here
    rw [if_neg (by omega)]
    simp only [fourth, hundredth, last]
    clear years span fourth hundredth last
    generalize (1969 + (p.year + 1)) / 4 = a at next ⊢
    generalize (1969 + (p.year + 1)) / 100 = b at next ⊢
    generalize (1969 + (p.year + 1)) / 400 = c at next ⊢
    cases leap : isLeap (1970 + p.year) with
    | false =>
      rw [leap] at here next
      simp only [Bool.toNat_false, Bool.false_eq_true, if_false] at here next
      omega
    | true =>
      rw [leap] at here next
      simp only [Bool.toNat_true, if_true] at here next
      omega

theorem Sound.days_lt (sound : p.Sound)
    (before : p.year < q.year ∨ p.year = q.year ∧ (p.month < q.month ∨ p.month = q.month ∧ p.day < q.day)) : p.days < q.days := by
  rcases before with year | ⟨year, inYear⟩
  · exact place_lt sound.inYear (.inl year)
  · have day := place_lt sound.day inYear
    rw [Place.days, Place.days, yearDay, yearDay, ← year]
    omega

theorem Sound.seconds_lt (sound : p.Sound) {a b : Int} (before : fields (p.date a) < fields (q.date b)) :
    p.seconds < q.seconds := by
  simp only [fields, date, List.cons_lt_cons_iff, List.not_lt_nil, and_false, or_false] at before
  have days : p.days < q.days ∨ p.days = q.days ∧ (p.hour < q.hour ∨ p.hour = q.hour ∧ (p.minute < q.minute ∨
      p.minute = q.minute ∧ p.second < q.second)) := by
    rcases before with year | ⟨year, month | ⟨month, day | ⟨day, time⟩⟩⟩
    · exact .inl (sound.days_lt (.inl (by omega)))
    · exact .inl (sound.days_lt (.inr ⟨by omega, .inl (by omega)⟩))
    · exact .inl (sound.days_lt (.inr ⟨by omega, .inr ⟨by omega, by omega⟩⟩))
    · have sameYear : p.year = q.year := by omega
      have sameMonth : p.month = q.month := by omega
      have sameDay : p.day = q.day := by omega
      refine .inr ⟨?_, by omega⟩
      rw [Place.days, Place.days, yearDay, yearDay, sameYear, sameMonth, sameDay]
  obtain ⟨-, -, -, hour, minute, second⟩ := sound
  unfold Place.seconds
  omega

theorem Sound.day_of (sound : p.Sound) : p.seconds / 86400 = p.days := by
  obtain ⟨-, -, -, hour, minute, second⟩ := sound
  unfold Place.seconds
  omega

theorem Sound.fits (sound : p.Sound) : FitsInt p.seconds := by
  unfold FitsInt
  rw [sound.day_of]
  exact sound.early

theorem Sound.unique (sound : p.Sound) (sound' : q.Sound) (same : p.seconds = q.seconds) : p = q := by
  have hour := sound.hour
  have hour' := sound'.hour
  have minute := sound.minute
  have minute' := sound'.minute
  have second := sound.second
  have second' := sound'.second
  unfold Place.seconds at same
  obtain ⟨year, inYear⟩ := place_unique sound.inYear sound'.inYear (show p.days = q.days by omega)
  have day := sound'.day
  unfold yearDay at inYear
  rw [← year] at inYear day
  obtain ⟨month, day⟩ := place_unique sound.day day inYear
  cases p
  cases q
  simp only [mk.injEq]
  dsimp only at *
  omega

end Place

open Place in
/-- The conversions are inverse to each other, on the times whose year fits in an int and on
the valid dates from 1970 on, with the months, days and weekdays of the Gregorian calendar;
later dates have later times. -/
theorem calendar_conversion :
    (∀ t, FitsInt t → timeToUnix (timeFromUnix t) = some t ∧ Valid (timeFromUnix t) ∧
      (timeFromUnix t).weekday = weekdayOf (timeFromUnix t).year (timeFromUnix t).month (timeFromUnix t).day) ∧
    (∀ d, Valid d → 1970 ≤ d.year → d.year < 2 ^ 31 → ∃ t, timeToUnix d = some t ∧ fields (timeFromUnix t) = fields d ∧
      (d.weekday = weekdayOf d.year d.month d.day → timeFromUnix t = d)) ∧
    ∀ d e, Valid d → Valid e → 1970 ≤ d.year → d.year < 2 ^ 31 → 1970 ≤ e.year → e.year < 2 ^ 31 → fields d < fields e →
      ∃ t u, timeToUnix d = some t ∧ timeToUnix e = some u ∧ t < u := by
  refine ⟨fun t fits => ?_, fun d valid from_ fits => ?_, fun d e valid valid' from_ fits from' fits' before => ?_⟩
  · obtain ⟨p, sound, rfl, date⟩ := of_unix fits
    rw [date, sound.day_of]
    exact ⟨sound.toUnix _, sound.valid _, sound.weekday⟩
  · obtain ⟨p, sound, same⟩ := of_valid valid from_ fits
    refine ⟨p.seconds, same ▸ sound.toUnix _, ?_⟩
    obtain ⟨q, sound', seconds, back⟩ := of_unix sound.fits
    obtain rfl := sound'.unique sound seconds
    refine ⟨by rw [back, ← same]; rfl, fun weekday => ?_⟩
    rw [back, sound'.day_of, sound'.weekday]
    calc
      q.date (weekdayOf (1970 + q.year) (q.month + 1) (q.day + 1)) = q.date d.weekday := by
        rw [weekday, ← same]
        rfl
      _ = d := same
  · obtain ⟨p, sound, same⟩ := of_valid valid from_ fits
    obtain ⟨q, sound', same'⟩ := of_valid valid' from' fits'
    rw [← same, ← same'] at before
    exact ⟨p.seconds, q.seconds, same ▸ sound.toUnix _, same' ▸ sound'.toUnix _, sound.seconds_lt before⟩

/-- The last second of a leap day and the first one of March. -/
theorem calendar_conversion_leap : timeToUnix (timeFromUnix 951868799) = some 951868799 ∧
    (∃ t, timeToUnix ⟨2000, 2, 29, 23, 59, 59, 2⟩ = some t ∧
      fields (timeFromUnix t) = fields ⟨2000, 2, 29, 23, 59, 59, 2⟩ ∧
        (2 = weekdayOf 2000 2 29 → timeFromUnix t = ⟨2000, 2, 29, 23, 59, 59, 2⟩)) ∧
    ∃ t u, timeToUnix ⟨2000, 2, 29, 23, 59, 59, 2⟩ = some t ∧ timeToUnix ⟨2000, 3, 1, 0, 0, 0, 3⟩ = some u ∧ t < u := by
  obtain ⟨back, forth, order⟩ := calendar_conversion
  have last : Valid ⟨2000, 2, 29, 23, 59, 59, 2⟩ :=
    ⟨by decide, by decide, by decide, by decide, by decide⟩
  have first : Valid ⟨2000, 3, 1, 0, 0, 0, 3⟩ :=
    ⟨by decide, by decide, by decide, by decide, by decide⟩
  have fits : FitsInt 951868799 := by
    have year : start yearSpan 31 = 11323 := by decide
    have before : start yearSpan 31 ≤ start yearSpan (2 ^ 31 - 1970) := start_mono (by decide)
    unfold FitsInt
    omega
  exact ⟨(back _ fits).1, forth _ last (by decide) (by decide),
    order _ _ last first (by decide) (by decide) (by decide) (by decide) (by decide)⟩

end Qito.Time
