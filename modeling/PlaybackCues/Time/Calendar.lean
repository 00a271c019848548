set_option autoImplicit false

/-!
# The calendar

Days are counted from the first of January 1970. A year is taken to start in March, so that the
leap day is its last one; then the days before a month follow one formula, and 400 years are one
cycle of 146097 days.
-/
namespace PlaybackCues

structure CalendarDate where
  year : Int
  month : Nat
  day : Nat
  deriving DecidableEq, Repr

namespace CalendarDate

def isLeapYear (y : Int) : Bool := y % 4 = 0 && (y % 100 ≠ 0 || y % 400 = 0)

def daysInMonth (y : Int) (m : Nat) : Nat :=
  if m = 2 then (if isLeapYear y then 29 else 28)
  else if m = 4 || m = 6 || m = 9 || m = 11 then 30
  else 31

def isValid (d : CalendarDate) : Bool :=
  1 ≤ d.month && d.month ≤ 12 && 1 ≤ d.day && d.day ≤ daysInMonth d.year d.month

/-- The days before a month of a year that starts in March, where March is month zero. -/
def daysBefore (m : Nat) : Nat := (153 * m + 2) / 5

def toDays (d : CalendarDate) : Int :=
  let year := if d.month ≤ 2 then d.year - 1 else d.year
  let month := (d.month + 9) % 12
  let inCycle := year % 400
  year / 400 * 146097 + inCycle * 365 + inCycle / 4 - inCycle / 100 +
    daysBefore month + d.day - 1 - 719468

def ofDays (days : Int) : CalendarDate :=
  let days := days + 719468
  let cycle := days / 146097
  let inCycle := (days % 146097).toNat
  let year := (inCycle - inCycle / 1460 + inCycle / 36524 - inCycle / 146096) / 365
  let inYear := inCycle - (365 * year + year / 4 - year / 100)
  let month := (5 * inYear + 2) / 153
  let calendarMonth := if month < 10 then month + 3 else month - 9
  { year := cycle * 400 + year + (if calendarMonth ≤ 2 then 1 else 0)
    month := calendarMonth
    day := inYear - daysBefore month + 1 }

end CalendarDate

end PlaybackCues
