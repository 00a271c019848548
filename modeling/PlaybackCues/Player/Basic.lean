import PlaybackCues.Number.Text

set_option autoImplicit false

/-!
# Players

What a player can report, what it can be told, and how it can fail.
-/
namespace PlaybackCues

inductive PlayerState where
  | unstarted
  | playing
  | paused
  | buffering
  | ended
  deriving DecidableEq, Repr

namespace PlayerState

def all : List PlayerState := [.unstarted, .playing, .paused, .buffering, .ended]

def name : PlayerState → String
  | .unstarted => "unstarted"
  | .playing => "playing"
  | .paused => "paused"
  | .buffering => "buffering"
  | .ended => "ended"

def named? (s : String) : Option PlayerState := all.find? fun k => k.name = s

end PlayerState

structure Snapshot where
  time : Seconds
  volume : Nat
  rate : Binary64
  state : PlayerState
  deriving DecidableEq

inductive PlayerError where
  | unavailable (reason : String)
  | rejected (reason : String)
  deriving DecidableEq

def PlayerError.message : PlayerError → String
  | .unavailable reason => "Player unavailable: " ++ reason
  | .rejected reason => "Player rejected command: " ++ reason

/-- What a player tells of its own accord. -/
inductive Notification where
  | stateChanged (state : PlayerState)
  | trouble (message : String)
  deriving DecidableEq

end PlaybackCues
