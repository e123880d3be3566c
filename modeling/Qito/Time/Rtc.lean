import Qito.Time.Gregorian

/-! The CMOS clock of kernel/time/time.c against the calendar. A register may answer
differently at every read; the n-th cmos_read of rtc_read sees the registers cmos n. -/
namespace Qito.Time
open Spans

abbrev Cmos := Nat → UInt8 → UInt8

def rtcUpdating (cmos : Cmos) (reads : Nat) : Bool := cmos reads 0x0A &&& 0x80 != 0

/-- The loop that waits for the end of an update, or until the guard reaches the limit.
Returned are the number of reads and the guard. -/
def waitUpdate (cmos : Cmos) (limit reads guard : Nat) : Nat × Nat :=
  if rtcUpdating cmos reads then
    if guard + 1 < limit then waitUpdate cmos limit (reads + 1) (guard + 1) else (reads + 1, guard + 1)
  else (reads + 1, guard)
termination_by limit - guard

def readClock (cmos : Cmos) (reads : Nat) : QitoTime where
  second := (cmos reads 0x00).toNat
  minute := (cmos (reads + 1) 0x02).toNat
  hour := (cmos (reads + 2) 0x04).toNat
  weekday := (cmos (reads + 3) 0x06).toNat
  day := (cmos (reads + 4) 0x07).toNat
  month := (cmos (reads + 5) 0x08).toNat
  year := (cmos (reads + 6) 0x09).toNat

theorem waitUpdate_guard (cmos : Cmos) (limit reads guard : Nat) : guard ≤ (waitUpdate cmos limit reads guard).2 := by
  fun_induction waitUpdate cmos limit reads guard with
  | case1 reads guard updating more ih => omega
  | case2 reads guard updating last => exact Nat.le_succ _
  | case3 reads guard still => exact Nat.le_refl _

/-- Reads twice, until both agree on all but the weekday or the guard is used up.
Returned are the first reading and the number of reads. -/
def readTwice (cmos : Cmos) (reads guard : Nat) : QitoTime × Nat :=
  let waited := waitUpdate cmos 1000000 reads guard
  let first := readClock cmos waited.1
  let waited' := waitUpdate cmos 2000000 (waited.1 + 7) waited.2
  let second := readClock cmos waited'.1
  if fields first ≠ fields second ∧ waited'.2 + 1 < 3000000 then readTwice cmos (waited'.1 + 7) (waited'.2 + 1)
  else (first, waited'.1 + 7)
termination_by 3000000 - guard
decreasing_by
  have before := waitUpdate_guard cmos 1000000 reads guard
  have after := waitUpdate_guard cmos 2000000 ((waitUpdate cmos 1000000 reads guard).1 + 7) (waitUpdate cmos 1000000 reads guard).2
  have later : guard ≤ waited'.2 := Nat.le_trans before after
  omega

def bcdToBin (value : UInt8) : UInt8 := (value &&& (0x0F : UInt8)) + (value >>> 4) * 10

/-- The low byte of an int. -/
def byte (n : Int) : UInt8 := UInt8.ofNat (n % 256).toNat

/-- A field that was read as binary-coded decimal. -/
def fromBcd (n : Int) : Int := (bcdToBin (byte n)).toNat

/-- The hour of a clock in binary-coded decimal keeps the flag in bit 7. -/
def hourFromBcd (hour : Int) : Int :=
  (bcdToBin (byte hour &&& 0x7F) ||| if byte hour &&& 0x80 ≠ 0 then 0x80 else 0).toNat

def hourFrom12 (hour : Int) : Int := if byte hour &&& 0x80 ≠ 0 then (byte hour &&& 0x7F).toNat % 12 + 12 else hour

def decodeBcd (t : QitoTime) : QitoTime where
  second := fromBcd t.second
  minute := fromBcd t.minute
  day := fromBcd t.day
  month := fromBcd t.month
  year := fromBcd t.year
  weekday := fromBcd t.weekday
  hour := hourFromBcd t.hour

/-- Two-digit years from 70 on are those of the 20th century. -/
def century (year : Int) : Int := if year < 70 then 2000 else 1900

def addCentury (t : QitoTime) : QitoTime := { t with year := t.year + century t.year }

def weekdayFromZero (t : QitoTime) : QitoTime := if t.weekday ≥ 1 then { t with weekday := t.weekday - 1 } else t

/-- The conversion of a reading. -/
def convert (statusB : UInt8) (t : QitoTime) : QitoTime :=
  let isBcd := statusB &&& 0x04 == 0
  let is12h := statusB &&& 0x02 == 0
  let t := if isBcd then decodeBcd t else t
  let t := if is12h then { t with hour := hourFrom12 t.hour } else t
  weekdayFromZero (addCentury t)

def rtcRead (cmos : Cmos) : QitoTime :=
  let readings := readTwice cmos 0 0
  convert (cmos readings.2 0x0B) readings.1

/-- A two-digit number as the clock shows it in binary or in binary-coded decimal. -/
def shown (binary : Bool) (n : Nat) : UInt8 := UInt8.ofNat (if binary then n else n / 10 * 16 + n % 10)

/-- An hour as the clock shows it. In the 12-hour form midnight and noon are 12, and
bit 7 stands for the hours from noon on. -/
def shownHour (binary h24 : Bool) (hour : Nat) : UInt8 :=
  if h24 then shown binary hour
  else shown binary (if hour % 12 = 0 then 12 else hour % 12) ||| if hour < 12 then 0 else 0x80

/-- The clock shows a date in one of its four forms, at every read. -/
structure Shows (cmos : Cmos) (binary h24 : Bool) (d : QitoTime) : Prop where
  second : ∀ n, cmos n 0x00 = shown binary d.second.toNat
  minute : ∀ n, cmos n 0x02 = shown binary d.minute.toNat
  hour : ∀ n, cmos n 0x04 = shownHour binary h24 d.hour.toNat
  day : ∀ n, cmos n 0x07 = shown binary d.day.toNat
  month : ∀ n, cmos n 0x08 = shown binary d.month.toNat
  year : ∀ n, cmos n 0x09 = shown binary (d.year.toNat % 100)
  binary_iff : ∀ n, (cmos n 0x0B &&& 0x04 == 0) = !binary
  h24_iff : ∀ n, (cmos n 0x0B &&& 0x02 == 0) = !h24

/-- The seconds from the start of 1970 to a date from then on. -/
def unixTime (d : QitoTime) : Nat :=
  (((start yearSpan (d.year - 1970).toNat + start (fun m => (monthLength d.year (m + 1)).toNat) (d.month - 1).toNat +
    (d.day - 1).toNat) * 24 + d.hour.toNat) * 60 + d.minute.toNat) * 60 + d.second.toNat

theorem readTwice_still {cmos : Cmos} {t : QitoTime} (still : ∀ n, fields (readClock cmos n) = fields t) :
    fields (readTwice cmos 0 0).1 = fields t := by
  rw [readTwice, if_neg fun differ => differ.1 ((still _).trans (still _).symm)]
  exact still _

theorem shown_decoded : ∀ n < 100, fromBcd (shown false n).toNat = n := by decide

theorem shown_read : ∀ n < 100, ((shown true n).toNat : Int) = n := by decide

theorem hour_decoded : ∀ binary h24 : Bool, ∀ hour < 24,
    (let read := if binary then ((shownHour binary h24 hour).toNat : Int) else hourFromBcd (shownHour binary h24 hour).toNat
      if h24 then read else hourFrom12 read) = if !h24 && hour == 0 then 12 else (hour : Int) := by decide

theorem year_decoded {y : Int} (low : 1970 ≤ y) (high : y ≤ 2069) :
    ((y.toNat % 100 : Nat) : Int) + century (y.toNat % 100 : Nat) = y := by
  unfold century
  split
  · omega
  · omega

theorem fields_weekday (t : QitoTime) : fields (weekdayFromZero t) = fields t := by
  unfold weekdayFromZero
  split <;> rfl

theorem convert_fields (binary h24 : Bool) {statusB : UInt8} (isBcd : (statusB &&& 0x04 == 0) = !binary)
    (is12h : (statusB &&& 0x02 == 0) = !h24) (t : QitoTime) :
    let read := fun n => if binary then n else fromBcd n
    let hour := if binary then t.hour else hourFromBcd t.hour
    fields (convert statusB t) = [read t.year + century (read t.year), read t.month, read t.day,
      if h24 then hour else hourFrom12 hour, read t.minute, read t.second] := by
  unfold convert
  rw [fields_weekday, isBcd, is12h]
  cases binary <;> cases h24 <;> rfl

section Clock
variable {cmos : Cmos} {binary h24 : Bool} {d : QitoTime}

/-- The fields as the registers show them. -/
def registers (binary h24 : Bool) (d : QitoTime) : List Int :=
  [(shown binary (d.year.toNat % 100)).toNat, (shown binary d.month.toNat).toNat, (shown binary d.day.toNat).toNat,
    (shownHour binary h24 d.hour.toNat).toNat, (shown binary d.minute.toNat).toNat, (shown binary d.second.toNat).toNat]

theorem Shows.reading (shows : Shows cmos binary h24 d) (n : Nat) : fields (readClock cmos n) = registers binary h24 d := by
  unfold fields readClock registers
  rw [shows.second, shows.minute, shows.hour, shows.day, shows.month, shows.year]

theorem Shows.convert (shows : Shows cmos binary h24 d) (valid : Valid d) (low : 1970 ≤ d.year) (high : d.year ≤ 2069)
    {t : QitoTime} (reading : fields t = registers binary h24 d) (n : Nat) :
    fields (convert (cmos n 0x0B) t) =
      [d.year, d.month, d.day, if !h24 && d.hour.toNat == 0 then 12 else d.hour, d.minute, d.second] := by
  obtain ⟨month, day, hour, minute, second⟩ := valid
  have length : monthLength d.year d.month ≤ 31 := by
    unfold monthLength
    repeat' split
    all_goals decide
  simp only [fields, registers, List.cons.injEq, and_true] at reading
  obtain ⟨y, mo, da, h, mi, se⟩ := reading
  have number {v read : Int} (low : 0 ≤ v) (high : v < 100) (reads : read = (shown binary v.toNat).toNat) :
      (if binary then read else fromBcd read) = v := by
    have whole : (v.toNat : Int) = v := Int.toNat_of_nonneg low
    rw [reads]
    cases binary with
    | true => exact (shown_read v.toNat (by omega)).trans whole
    | false => exact (shown_decoded v.toNat (by omega)).trans whole
  have hourIs := hour_decoded binary h24 d.hour.toNat (by omega)
  have whole : ((d.hour.toNat : Nat) : Int) = d.hour := by omega
  rw [whole] at hourIs
  have years := number (v := (d.year.toNat % 100 : Nat)) (by omega) (by omega) y
  rw [convert_fields binary h24 (shows.binary_iff n) (shows.h24_iff n)]
  dsimp only
  rw [years, number (by omega) (by omega) mo, number (by omega) (by omega) da, number (by omega) (by omega) mi,
    number (by omega) (by omega) se, year_decoded low high, h]
  exact congrArg (fun hour => [d.year, d.month, d.day, hour, d.minute, d.second]) hourIs

theorem toUnix_valid (valid : Valid d) (low : 1970 ≤ d.year) (high : d.year < 2 ^ 31) : timeToUnix d = some (unixTime d) := by
  obtain ⟨p, sound, same⟩ := Place.of_valid valid low high
  have months : start (fun m => (monthLength (1970 + p.year) (m + 1)).toNat) p.month =
      start (monthSpan (isLeap (1970 + p.year))) p.month := by
    have far : ∀ m ≤ 12, start (fun m => (monthLength (1970 + p.year) (m + 1)).toNat) m =
        start (monthSpan (isLeap (1970 + p.year))) m := by
      intro m
      induction m with
      | zero => exact fun _ => rfl
      | succ m ih =>
        intro low
        have length := @monthSpan_length (1970 + p.year) m (by omega)
        rw [start, start, ih (by omega)]
        omega
    exact far p.month (Nat.le_of_lt sound.month)
  have seconds : unixTime (p.date d.weekday) = p.seconds := by
    have year : (1970 + (p.year : Int) - 1970).toNat = p.year := by omega
    have month : ((p.month : Int) + 1 - 1).toNat = p.month := by omega
    have day : ((p.day : Int) + 1 - 1).toNat = p.day := by omega
    unfold unixTime Place.date Place.seconds Place.days Place.yearDay
    simp only [year, month, day, months, Int.toNat_natCast]
    omega
  rw [← same, seconds]
  exact sound.toUnix _

theorem timeToUnix_fields {t : QitoTime} (same : fields t = fields d) : timeToUnix t = timeToUnix d := by
  simp only [fields, List.cons.injEq, and_true] at same
  obtain ⟨year, month, day, hour, minute, second⟩ := same
  unfold timeToUnix
  rw [year, month, day, hour, minute, second]

theorem Shows.read (shows : Shows cmos binary h24 d) (valid : Valid d) (low : 1970 ≤ d.year) (high : d.year ≤ 2069) :
    fields (rtcRead cmos) =
      [d.year, d.month, d.day, if !h24 && d.hour.toNat == 0 then 12 else d.hour, d.minute, d.second] := by
  have reading := readTwice_still fun n => (shows.reading n).trans (shows.reading 0).symm
  exact shows.convert valid low high (reading.trans (shows.reading 0)) (readTwice cmos 0 0).2

/-- A clock that stands still while it is read gives its date and Unix time in every
form, but for the first hour of the day in the 12-hour form. -/
theorem rtc_decoding (binary h24 : Bool) (cmos : Cmos) (d : QitoTime) (valid : Valid d) (low : 1970 ≤ d.year)
    (high : d.year ≤ 2069) (shows : Shows cmos binary h24 d) :
    fields (rtcRead cmos) = fields d ∧ timeToUnix (rtcRead cmos) = some (unixTime d) ↔ ¬ (h24 = false ∧ d.hour = 0) := by
  have result := shows.read valid low high
  constructor
  · rintro ⟨same, -⟩ ⟨rfl, midnight⟩
    rw [result, midnight] at same
    simp only [fields, List.cons.injEq] at same
    have hour := same.2.2.2.1
    rw [midnight] at hour
    exact absurd hour (by decide)
  · intro other
    have noon : (!h24 && d.hour.toNat == 0) = false := by
      have day := valid.hour
      cases h24 with
      | true => rfl
      | false =>
        have later : d.hour ≠ 0 := fun zero => other ⟨rfl, zero⟩
        exact beq_false_of_ne (by omega)
    rw [noon] at result
    have same : fields (rtcRead cmos) = fields d := result
    exact ⟨same, (timeToUnix_fields same).trans (toUnix_valid valid low (by omega))⟩

def statusOf (binary h24 : Bool) : UInt8 := (if binary then 0x04 else 0) ||| if h24 then 0x02 else 0

theorem statusOf_bits : ∀ binary h24 : Bool,
    (statusOf binary h24 &&& 0x04 == 0) = !binary ∧ (statusOf binary h24 &&& 0x02 == 0) = !h24 := by decide

/-- A clock that shows a date and is never in an update. -/
def showing (binary h24 : Bool) (d : QitoTime) : Cmos := fun _ register =>
  if register = 0x00 then shown binary d.second.toNat
  else if register = 0x02 then shown binary d.minute.toNat
  else if register = 0x04 then shownHour binary h24 d.hour.toNat
  else if register = 0x06 then UInt8.ofNat (d.weekday.toNat + 1)
  else if register = 0x07 then shown binary d.day.toNat
  else if register = 0x08 then shown binary d.month.toNat
  else if register = 0x09 then shown binary (d.year.toNat % 100)
  else if register = 0x0B then statusOf binary h24
  else 0

theorem showing_shows (binary h24 : Bool) (d : QitoTime) : Shows (showing binary h24 d) binary h24 d where
  second _ := rfl
  minute _ := rfl
  hour _ := rfl
  day _ := rfl
  month _ := rfl
  year _ := rfl
  binary_iff _ := (statusOf_bits binary h24).1
  h24_iff _ := (statusOf_bits binary h24).2

/-- Half past eleven in the evening, shown in decimal digits with the flag. -/
theorem rtc_decoding_evening :
    fields (rtcRead (showing false false ⟨2024, 2, 29, 23, 30, 0, 4⟩)) = fields ⟨2024, 2, 29, 23, 30, 0, 4⟩ ∧
      timeToUnix (rtcRead (showing false false ⟨2024, 2, 29, 23, 30, 0, 4⟩)) = some (unixTime ⟨2024, 2, 29, 23, 30, 0, 4⟩) ↔
      ¬ (false = false ∧ (23 : Int) = 0) :=
  rtc_decoding false false (showing false false ⟨2024, 2, 29, 23, 30, 0, 4⟩) ⟨2024, 2, 29, 23, 30, 0, 4⟩
    ⟨by decide, by decide, by decide, by decide, by decide⟩ (by decide) (by decide) (showing_shows _ _ _)

/-- Midnight in the 12-hour form is read as noon. -/
theorem midnight_read_as_noon : Valid ⟨2024, 2, 29, 0, 0, 0, 4⟩ ∧
    Shows (showing false false ⟨2024, 2, 29, 0, 0, 0, 4⟩) false false ⟨2024, 2, 29, 0, 0, 0, 4⟩ ∧
    fields (rtcRead (showing false false ⟨2024, 2, 29, 0, 0, 0, 4⟩)) = [2024, 2, 29, 12, 0, 0] := by
  have valid : Valid ⟨2024, 2, 29, 0, 0, 0, 4⟩ := ⟨by decide, by decide, by decide, by decide, by decide⟩
  have shows := showing_shows false false ⟨2024, 2, 29, 0, 0, 0, 4⟩
  exact ⟨valid, shows, shows.read valid (by decide) (by decide)⟩

end Clock

end Qito.Time
