import PlaybackCues.Session.Basic
import PlaybackCues.Settings.Environment

set_option autoImplicit false

/-!
# Playing notes in a simulation

A simulation reconciles a notes file with an empty store, plays a simulated medium over it from the
start, and logs every command that the player received. The clock notices each deadline one
millisecond late.
-/
namespace PlaybackCues.Simulation

inductive Failure where
  | unnamedNotes
  | unreadableNotes (path cause : String)

def Failure.message : Failure → String
  | .unnamedNotes =>
    "Error: CUEMARK_NOTES_FILE environment variable is required\n\nCaused by:\n" ++
      "    environment variable not found"
  | .unreadableNotes path cause =>
    "Error: Failed to read notes file " ++ path ++ "\n\nCaused by:\n    " ++ cause

def missingFile : String := "No such file or directory (os error 2)"

def notesPath (env : Environment) : Except Failure String :=
  match env "CUEMARK_NOTES_FILE" with
  | some path => .ok path
  | none => .error .unnamedNotes

/-- The length of the medium: a positive finite number of seconds, or a minute. -/
def duration (env : Environment) : Seconds :=
  let given := (env "CUEMARK_SIM_DURATION_SECS").bind fun v => Binary64.read? v.toList
  (given.filter fun d => d.isFinite && 0 < d).getD 60

def realtime (env : Environment) : Bool := env "CUEMARK_SIM_REALTIME" ≠ some "false"

/-- The time after the end of the medium, for a last pause to run out. -/
def aftermath : Seconds := 5

def lag : Nat := 1

def session : Int := 1

/-- The whole milliseconds that a length of time takes up; nanoseconds are rounded to nearest. -/
def wholeMillis : Seconds → Nat
  | .finite false units _ => (roundDiv (units * 1000000000) unity + 999999) / 1000000
  | _ => 0

def commands (env : Environment) (notes : List Char) : List (Nat × PlayerCall) :=
  let length := duration env
  let store := Store.empty.put session (Notes.parse notes)
  let player := SimulatedPlayer.playingFrom length 0
  let started := Session.start session (Settings.ofEnvironment env) player store lag
  (started.advance (wholeMillis (length + aftermath) + lag)).state.player.log

/-! ## The log -/

def callText : PlayerCall → String
  | .setVolume volume => "SetVolume(" ++ toString volume ++ ")"
  | .setRate rate => "SetRate(" ++ rate.logText ++ ")"
  | .seek target => "SeekTo(" ++ target.logText ++ ")"
  | .play => "Play"
  | .pause => "Pause"

def headLine (env : Environment) (path : String) (count : Nat) : String :=
  "Starting cuemark-sim notes_path=" ++ path ++ " duration=" ++ (duration env).logText ++
    " realtime=" ++ toString (realtime env) ++ " count=" ++ toString count

def cueLine (c : Cue) : String :=
  "Parsed annotation document_index=" ++ toString c.index ++ " annotation=" ++ c.text

def commandLine (entry : Nat × PlayerCall) : String :=
  "Player command at_ms=" ++ toString entry.1 ++ " call=" ++ callText entry.2

def log (env : Environment) (path : String) (notes : List Char) : List String :=
  let cues := Notes.parse notes
  headLine env path cues.length :: cues.map cueLine ++ (commands env notes).map commandLine

end PlaybackCues.Simulation
