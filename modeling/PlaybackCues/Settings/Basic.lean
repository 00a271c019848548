import PlaybackCues.Number.Binary64

set_option autoImplicit false

/-!
# Settings

Periods are in milliseconds, tolerances in seconds of media time, in percent or in rate.
-/
namespace PlaybackCues

structure Tolerances where
  /-- How late a tick may be and still start a cue. -/
  activation : Seconds := 0.5
  /-- A greater distance between two ticks is a seek. -/
  seek : Seconds := 2
  /-- At most here, after having been far from it, playback has restarted. -/
  restart : Seconds := 0.5
  volume : Nat := 1
  rate : Binary64 := 0.01
  /-- The ticks that a seek of the resolver may be in flight. -/
  settleTicks : Nat := 10
  deriving DecidableEq

/-- How often the recorder looks, what counts as a change, and how soon another one may follow. -/
structure Sampling where
  speedPeriod : Nat := 250
  volumePeriod : Nat := 200
  positionPeriod : Nat := 300
  statePeriod : Nat := 100
  speedDelta : Binary64 := 0.01
  volumeDelta : Binary64 := 1
  seekDelta : Seconds := 1.5
  speedDebounce : Nat := 500
  volumeDebounce : Nat := 500
  seekDebounce : Nat := 1000
  pauseDebounce : Nat := 300
  deriving DecidableEq

structure Settings where
  pollPeriod : Nat := 100
  /-- The quiet time after an edit before the notes are read again. -/
  quietPeriod : Nat := 800
  tolerances : Tolerances := {}
  sampling : Sampling := {}
  deriving DecidableEq

end PlaybackCues
