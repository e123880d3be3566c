import Mathlib.Tactic.IntervalCases
import Qito.Lib.Signed
import Qito.Lib.Spans
import Qito.Lib.Words

/-! Unix time and calendar dates, from kernel/time/time.c. -/
namespace Qito.Time
open Signed Spans Words

structure QitoTime where
  year : Int
  month : Int
  day : Int
  hour : Int
  minute : Int
  second : Int
  weekday : Int

def daysInMonth : List Nat := [31, 28, 31, 30, 31, 30, 31, 31, 30, 31, 30, 31]

def isLeap (year : Int) : Bool := (year.tmod 4 == 0 && year.tmod 100 != 0) || year.tmod 400 == 0

/-- A signed value where an unsigned 64-bit one is asked for. -/
def word (n : Int) : Nat := (n % 2 ^ 64).toNat

/-- The years before the date. -/
def addYears : Nat → Int → Nat → Nat
  | 0, _, days => days
  | n + 1, year, days => addYears n (year + 1) (wrap64 (days + if isLeap year then 366 else 365))

/-- The months before the date; none when days_in_month is read behind its end. -/
def addMonths (leap : Bool) : Nat → Nat → Nat → Option Nat
  | 0, _, days => some days
  | n + 1, month, days => do
    let length ← daysInMonth[month - 1]?
    let days := wrap64 (days + length)
    addMonths leap n (month + 1) (if month = 2 ∧ leap then wrap64 (days + 1) else days)

def timeToUnix (t : QitoTime) : Option Nat := do
  let days := addYears (t.year - 1970).toNat 1970 0
  let days ← addMonths (isLeap t.year) (t.month - 1).toNat 1 days
  let days := wrap64 (days + word (t.day - 1))
  return wrap64 (wrap64 (wrap64 (days * 24 + word t.hour) * 60 + word t.minute) * 60 + word t.second)

def findYear (days : Nat) (year : Int) : Nat × Int :=
  let yearDays := if isLeap year then 366 else 365
  if days < yearDays then (days, year) else findYear (days - yearDays) (int32 (year + 1))
termination_by days
decreasing_by
  have some_ : 0 < yearDays := by
    change 0 < if isLeap year then 366 else 365
    split <;> decide
  omega

def findMonth (leap : Bool) : Nat → Nat → Nat → Nat × Nat
  | 0, month, days => (month, days)
  | n + 1, month, days =>
    let monthDays := daysInMonth.getD month 0
    let monthDays := if month = 1 ∧ leap then monthDays + 1 else monthDays
    if days < monthDays then (month, days) else findMonth leap n (month + 1) (days - monthDays)

def timeFromUnix (unixTime : Nat) : QitoTime :=
  let days := unixTime / 86400
  let seconds := unixTime % 86400
  let inYear := findYear days 1970
  let inMonth := findMonth (isLeap inYear.2) 12 0 inYear.1
  { year := inYear.2
    month := inMonth.1 + 1
    day := inMonth.2 + 1
    hour := (seconds / 3600 : Nat)
    minute := (seconds % 3600 / 60 : Nat)
    second := (seconds % 60 : Nat)
    weekday := ((days + 4) % 7 : Nat) }

end Qito.Time
