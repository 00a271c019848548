import PlaybackCues.Number.Binary64

set_option autoImplicit false

/-!
# Instants and lengths of time

A timestamp is a count of seconds since the start of 1970 in UTC and the nanoseconds within the
second. Between two timestamps lies a length of whole nanoseconds, zero when the second one is
the earlier. A leap second is counted if it lies between the two times of the day.
-/
namespace PlaybackCues

/-- The nanoseconds reach beyond a second only within a leap second. -/
structure Timestamp where
  seconds : Int
  nanos : Nat
  deriving DecidableEq

namespace Timestamp

def ofMillis (ms : Int) : Timestamp := ⟨ms / 1000, (ms % 1000).toNat * 1000000⟩

def secondsPerDay : Nat := 86400
def nanosPerSecond : Nat := 1000000000

def totalNanos (t : Timestamp) : Int := t.seconds * nanosPerSecond + t.nanos

def secondOfDay (t : Timestamp) : Int := t.seconds % secondsPerDay

def inLeapSecond (t : Timestamp) : Bool := nanosPerSecond ≤ t.nanos

/-- The leap second that the count of seconds leaves out from `a` to `b`. -/
def leapSeconds (a b : Timestamp) : Int :=
  if a.secondOfDay < b.secondOfDay && a.inLeapSecond then 1
  else if b.secondOfDay < a.secondOfDay && b.inLeapSecond then -1
  else 0

def elapsed (a b : Timestamp) : Nat :=
  (b.totalNanos - a.totalNanos + a.leapSeconds b * nanosPerSecond).toNat

end Timestamp

/-- A length in nanoseconds as seconds: the whole ones plus the rest divided by a billion. -/
def Seconds.ofNanos (n : Nat) : Seconds :=
  Binary64.ofNat (n / 1000000000) + Binary64.ofNat (n % 1000000000) / 1000000000

def Seconds.ofMillis (n : Nat) : Seconds := Seconds.ofNanos (n * 1000000)

end PlaybackCues
