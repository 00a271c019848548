import PlaybackCues.Number.Text
import PlaybackCues.Settings.Basic
import PlaybackCues.Text.Blank

set_option autoImplicit false

/-!
# Settings from the environment

Four variables change the settings. A value is trimmed of blanks; one that is missing or cannot be
read leaves the default.
-/
namespace PlaybackCues

/-- The variables that are set, by name. -/
abbrev Environment := String → Option String

namespace Environment

def ofList (vars : List (String × String)) : Environment := fun name => vars.lookup name

/-- Variables of the first environment hide those of the second. -/
def layered (first second : Environment) : Environment := fun name => first name <|> second name

/-- Digits with an optional plus sign, as a number of 64 bits. -/
def readWord? (cs : List Char) : Option Nat :=
  let ds := if cs.head? = some '+' then cs.tail else cs
  if ds ≠ [] && ds.all Char.isDigit && Digits.value ds ≤ maxWord then some (Digits.value ds)
  else none

def word (env : Environment) (name : String) (default : Nat) : Nat :=
  ((env name).bind fun v => readWord? (Blank.trim v.toList)).getD default

def double (env : Environment) (name : String) (default : Binary64) : Binary64 :=
  ((env name).bind fun v => Binary64.read? (Blank.trim v.toList)).getD default

end Environment

def Settings.ofEnvironment (env : Environment) : Settings :=
  let base : Settings := {}
  { base with
    pollPeriod := Nat.max 1 (env.word "CUEMARK_POLL_INTERVAL_MS" base.pollPeriod)
    quietPeriod := env.word "CUEMARK_RECONCILE_DEBOUNCE_MS" base.quietPeriod
    tolerances := { base.tolerances with
      seek := env.double "CUEMARK_SEEK_THRESHOLD_SECS" base.tolerances.seek
      activation := env.double "CUEMARK_ACTIVATION_TOLERANCE_SECS" base.tolerances.activation } }

end PlaybackCues
