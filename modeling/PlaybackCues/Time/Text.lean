import PlaybackCues.Number.Powers
import PlaybackCues.Text.Blank
import PlaybackCues.Text.Digits
import PlaybackCues.Time.Calendar
import PlaybackCues.Time.Timestamp

set_option autoImplicit false

/-!
# Timestamps as text

A timestamp is written in UTC, with three, six or nine digits behind the point or without a point,
as few as are exact. Reading takes a date, a time and an offset from UTC; blanks between the parts
and leading zeros left out do not matter. A sixtieth second is a leap second.
-/
namespace PlaybackCues.Timestamp

/-! ## Writing -/

/-- Four digits, or a sign and at least four digits outside four-digit years. -/
def yearText (y : Int) : List Char :=
  if 0 ≤ y && y ≤ 9999 then Digits.padded 4 y.toNat
  else (if y < 0 then '-' else '+') :: Digits.padded 4 y.natAbs

def fractionText (nanos : Nat) : List Char :=
  if nanos = 0 then []
  else if nanos % 1000000 = 0 then '.' :: Digits.padded 3 (nanos / 1000000)
  else if nanos % 1000 = 0 then '.' :: Digits.padded 6 (nanos / 1000)
  else '.' :: Digits.padded 9 nanos

def date (t : Timestamp) : CalendarDate := .ofDays (t.seconds / secondsPerDay)

def toChars (t : Timestamp) : List Char :=
  let clock := (t.seconds % secondsPerDay).toNat
  yearText t.date.year ++ '-' :: Digits.padded 2 t.date.month ++ '-' :: Digits.padded 2 t.date.day ++
    'T' :: Digits.padded 2 (clock / 3600) ++ ':' :: Digits.padded 2 (clock / 60 % 60) ++
    ':' :: Digits.padded 2 (clock % 60 + t.nanos / nanosPerSecond) ++
    fractionText (t.nanos % nanosPerSecond) ++ ['Z']

/-! ## Reading -/

/-- A number of at most `width` digits, after blanks. -/
def number? (width : Nat) (cs : List Char) : Option (Nat × List Char) :=
  let cs := Blank.skip cs
  let ds := (cs.take width).takeWhile Char.isDigit
  if ds = [] then none else some (Digits.value ds, cs.drop ds.length)

/-- A year: four digits, or a sign and any number of them. -/
def year? (cs : List Char) : Option (Int × List Char) :=
  match Blank.skip cs with
  | '-' :: rest => (Digits.run? rest).map fun r => (-(Digits.value r.1 : Int), r.2)
  | '+' :: rest => (Digits.run? rest).map fun r => ((Digits.value r.1 : Int), r.2)
  | rest => (number? 4 rest).map fun r => ((r.1 : Int), r.2)

def mark? (c : Char) (cs : List Char) : Option (List Char) :=
  match Blank.skip cs with
  | d :: rest => if d = c then some rest else none
  | [] => none

/-- The nanoseconds of a fraction; digits after the ninth are dropped. -/
def fraction? : List Char → Option (Nat × List Char)
  | '.' :: rest => (Digits.run? rest).map fun r =>
      (Digits.value (r.1.take 9) * tenTo (9 - r.1.length), r.2)
  | rest => some (0, rest)

def minusSign : Char := '\u2212'

/-- The minutes of an offset, behind its sign and hours. -/
def offsetMinutes? : List Char → Option (Nat × List Char)
  | a :: b :: rest =>
    if a.isDigit && b.isDigit && Digits.value [a, b] < 60 then some (Digits.value [a, b], rest)
    else none
  | _ => none

/-- The seconds of an offset behind its sign, less than a day. -/
def offsetSeconds? : List Char → Option (Nat × List Char)
  | a :: b :: rest =>
    if a.isDigit && b.isDigit then do
      let separated := rest.dropWhile fun c => c = ':' || Blank.isBlank c
      let (minutes, rest) ← offsetMinutes? separated
      let seconds := Digits.value [a, b] * 3600 + minutes * 60
      if seconds < secondsPerDay then some (seconds, rest) else none
    else none
  | _ => none

def offset? (cs : List Char) : Option (Int × List Char) :=
  if (cs.take 3).map Char.toUpper = ['U', 'T', 'C'] then some (0, cs.drop 3)
  else
    match cs with
    | [] => none
    | c :: rest =>
      if c = 'Z' || c = 'z' then some (0, rest)
      else if c = '+' then (offsetSeconds? rest).map fun r => ((r.1 : Int), r.2)
      else if c = '-' || c = minusSign then
        (offsetSeconds? rest).map fun r => (-(r.1 : Int), r.2)
      else none

def firstYear : Int := -262143
def lastYear : Int := 262142

def isYear (y : Int) : Bool := firstYear ≤ y && y ≤ lastYear

def date? (cs : List Char) : Option (CalendarDate × List Char) := do
  let (year, cs) ← year? cs
  let cs ← mark? '-' cs
  let (month, cs) ← number? 2 cs
  let cs ← mark? '-' cs
  let (day, cs) ← number? 2 cs
  let date : CalendarDate := ⟨year, month, day⟩
  if date.isValid && isYear year then some (date, cs) else none

def clock? (cs : List Char) : Option (Nat × Nat × List Char) := do
  let (hour, cs) ← number? 2 cs
  let cs ← mark? ':' cs
  let (minute, cs) ← number? 2 cs
  let cs ← mark? ':' cs
  let (second, cs) ← number? 2 cs
  let (nanos, cs) ← fraction? cs
  if hour < 24 && minute < 60 && second ≤ 60 then
    let leap := second / 60
    some (hour * 3600 + minute * 60 + second - leap, nanos + leap * nanosPerSecond, cs)
  else none

def separator? : List Char → Option (List Char)
  | c :: rest => if c = 'T' || c = 't' || c = ' ' then some rest else none
  | [] => none

/-- The offset may move a moment out of the years that can be told. -/
def read? (cs : List Char) : Option Timestamp := do
  let (date, cs) ← date? cs
  let cs ← separator? cs
  let (clock, nanos, cs) ← clock? cs
  let (offset, cs) ← offset? (Blank.skip cs)
  let t : Timestamp := ⟨date.toDays * secondsPerDay + clock - offset, nanos⟩
  if Blank.skip cs = [] && isYear t.date.year then some t else none

end PlaybackCues.Timestamp
