import PlaybackCues.Number.Binary64
import PlaybackCues.Text.Digits

set_option autoImplicit false

/-!
# Time codes

A time code is hours, minutes and seconds of two digits each, with up to three digits of a
fraction behind a point. It stands for a whole number of milliseconds. Reading takes minutes and
seconds below sixty; writing shows three digits of the fraction and as many of the hours as needed.
-/
namespace PlaybackCues.TimeCode

def ofMillis (ms : Nat) : Seconds := .ofNat ms / 1000

/-- The milliseconds nearest to a time. Negative times count as zero. -/
def toMillis (t : Seconds) : Nat := ((t.max 0) * 1000).round.toNatClamped (twoTo 64 - 1)

def write (ms : Nat) : List Char :=
  let seconds := ms / 1000
  Digits.padded 2 (seconds / 3600) ++ ':' :: Digits.padded 2 (seconds / 60 % 60) ++
    ':' :: Digits.padded 2 (seconds % 60) ++ '.' :: Digits.padded 3 (ms % 1000)

def format (t : Seconds) : List Char := write (toMillis t)

def twoDigits? : List Char → Option (Nat × List Char)
  | a :: b :: rest =>
    if a.isDigit && b.isDigit then some (Digits.value [a, b], rest) else none
  | _ => none

/-- The milliseconds of an optional fraction in front; behind a point stand one to three digits. -/
def fraction? : List Char → Option (Nat × List Char)
  | '.' :: rest =>
    match Digits.split rest with
    | (ds, rest) =>
      if 1 ≤ ds.length && ds.length ≤ 3 then
        some (Digits.value ds * tenTo (3 - ds.length), rest)
      else none
  | rest => some (0, rest)

def colon? : List Char → Option (List Char)
  | ':' :: rest => some rest
  | _ => none

/-- The milliseconds of a time code in front, and the rest. -/
def scan? (cs : List Char) : Option (Nat × List Char) := do
  let (hours, cs) ← twoDigits? cs
  let cs ← colon? cs
  let (minutes, cs) ← twoDigits? cs
  let cs ← colon? cs
  let (seconds, cs) ← twoDigits? cs
  let (millis, cs) ← fraction? cs
  if minutes < 60 && seconds < 60 then
    some (((hours * 60 + minutes) * 60 + seconds) * 1000 + millis, cs)
  else none

def parse? (cs : List Char) : Option Seconds :=
  match scan? cs with
  | some (ms, []) => some (ofMillis ms)
  | _ => none

end PlaybackCues.TimeCode
