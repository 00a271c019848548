import PlaybackCues.Cue.Validation
import PlaybackCues.Text.Blank
import PlaybackCues.Time.Timestamp

set_option autoImplicit false

/-!
# Recordings

A recording is the list of what a person did to the player: changes of speed and volume, seeks,
pauses and marks, each with the media time and the moment at which it was noticed. It starts from
a volume and a rate, and it may carry a title.
-/
namespace PlaybackCues

inductive EventKind where
  | speed
  | volume
  | seek
  | pause
  | manual
  deriving DecidableEq, Repr

namespace EventKind

def all : List EventKind := [.speed, .volume, .seek, .pause, .manual]

def name : EventKind → String
  | .speed => "speed"
  | .volume => "volume"
  | .seek => "seek"
  | .pause => "pause"
  | .manual => "manual"

def named? (s : String) : Option EventKind := all.find? fun k => k.name = s

/-- Neither moves the playback nor stops it. -/
def isLevel : EventKind → Bool
  | .speed | .volume | .manual => true
  | .seek | .pause => false

end EventKind

structure RecordedEvent where
  id : Uuid
  time : Seconds
  kind : EventKind
  value : Binary64
  previous : Binary64
  captured : Timestamp
  deriving DecidableEq

/-- Where playback goes on after the event: a seek goes on at its destination. -/
def RecordedEvent.resumption (e : RecordedEvent) : Seconds :=
  match e.kind with
  | .seek => e.value
  | _ => e.time

structure Recording where
  id : Uuid
  document : Int
  title : Option String
  duration : Seconds
  volume : Nat
  rate : Binary64
  created : Timestamp
  updated : Timestamp
  events : List RecordedEvent
  deriving DecidableEq

namespace Recording

/-- A title without blanks around it; one of blanks only is no title. -/
def cleanTitle (title : Option String) : Option (List Char) :=
  (title.map fun t => Blank.trim t.toList).filter (· ≠ [])

def rename (r : Recording) (title : Option String) (now : Timestamp) : Except Invalid Recording :=
  let cleaned := cleanTitle title
  if (cleaned.getD []).length ≤ maxTitleLength then
    .ok { r with title := cleaned.map String.ofList, updated := now }
  else .error .longTitle

def count (r : Recording) (kind : EventKind) : Nat := r.events.countP fun e => e.kind = kind

end Recording

end PlaybackCues
