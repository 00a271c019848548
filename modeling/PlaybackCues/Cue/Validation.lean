import PlaybackCues.Cue.Basic

set_option autoImplicit false

/-!
# What a cue must satisfy

A window is finite, does not start before zero and starts before it ends; a volume is a percentage;
a rate lies between a quarter and two; a pause lasts at least a second. Times are first rounded to
milliseconds and the rate to hundredths. `Invalid` lists every way in which a value is refused, and
`Invalid.message` is what the refusal says.
-/
namespace PlaybackCues

inductive Invalid where
  | unboundedWindow
  | negativeStart (start : Seconds)
  | emptyWindow (start stop : Seconds)
  | volume (given : Nat)
  | unboundedRate
  | rate (given : Binary64)
  | instantPause
  | pauseWithoutLength
  | modeLabel (label : String)
  | column (name : String) (given : Int)
  | foreignContent (id : Uuid)
  | longTitle
  /-- Refused for a reason of its own. -/
  | other (detail : String)
  deriving DecidableEq

def maxVolume : Nat := 100
def minRate : Binary64 := 0.25
def maxRate : Binary64 := 2
def maxTitleLength : Nat := 200

namespace Invalid

def detail : Invalid → String
  | .unboundedWindow => "window bounds must be finite numbers"
  | .negativeStart start => "window start must not be negative, got " ++ start.text
  | .emptyWindow start stop =>
    "window start (" ++ start.text ++ ") must be before end (" ++ stop.text ++ ")"
  | .volume given =>
    "volume must be between 0 and " ++ toString maxVolume ++ ", got " ++ toString given
  | .unboundedRate => "rate must be a finite number"
  | .rate given =>
    "rate must be between " ++ minRate.text ++ " and " ++ maxRate.text ++ ", got " ++ given.text
  | .instantPause => "pause duration must be at least 1 second"
  | .pauseWithoutLength => "pause mode requires a positive duration"
  | .modeLabel label =>
    "Invalid playback mode '" ++ label ++ "'. Must be one of: natural, jump, pause"
  | .column name given => name ++ " out of range: " ++ toString given
  | .foreignContent id => "annotation " ++ id.text ++ " does not match its stored content"
  | .longTitle => "title must be at most " ++ toString maxTitleLength ++ " characters"
  | .other detail => detail

def message (e : Invalid) : String := "Validation failed: " ++ e.detail

end Invalid

/-! ## Checks -/

def checkWindow (start stop : Seconds) : Except Invalid Unit :=
  if !start.isFinite || !stop.isFinite then .error .unboundedWindow
  else if start < 0 then .error (.negativeStart start)
  else if stop ≤ start then .error (.emptyWindow start stop)
  else .ok ()

def checkVolume (volume : Nat) : Except Invalid Unit :=
  if volume ≤ maxVolume then .ok () else .error (.volume volume)

def checkRate (rate : Binary64) : Except Invalid Unit :=
  if !rate.isFinite then .error .unboundedRate
  else if rate.within minRate maxRate then .ok ()
  else .error (.rate rate)

def Mode.check : Mode → Except Invalid Unit
  | .pause 0 => .error .instantPause
  | _ => .ok ()

def Mode.ofParts (label : String) (seconds : Option Nat) : Except Invalid Mode :=
  if label = Mode.natural.label then .ok .natural
  else if label = Mode.jump.label then .ok .jump
  else if label = (Mode.pause 0).label then
    match seconds with
    | some (n + 1) => .ok (.pause (n + 1))
    | _ => .error .pauseWithoutLength
  else .error (.modeLabel label)

/-! ## Building -/

def roundMillis (t : Seconds) : Seconds := (t * 1000).round / 1000

def roundRate (rate : Binary64) : Binary64 := (rate * 100).round / 100

namespace CueSpec

/-- Times to the millisecond and the rate to the hundredth. -/
def rounded (c : CueSpec) : CueSpec :=
  { c with start := roundMillis c.start, stop := roundMillis c.stop, rate := roundRate c.rate }

/-- The first thing that is wrong, looking at the window, the volume, the rate and the mode. -/
def check (c : CueSpec) : Except Invalid Unit := do
  checkWindow c.start c.stop
  checkVolume c.volume
  checkRate c.rate
  c.mode.check

/-- The cue at a place in the notes, with the id that its rounded content gives it. -/
def place (c : CueSpec) (index offset : Nat) : Cue :=
  { c with id := Cue.idOf index c.text, index, offset }

def build (c : CueSpec) (index offset : Nat) : Except Invalid Cue := do
  c.rounded.check
  return c.rounded.place index offset

end CueSpec

end PlaybackCues
