import PlaybackCues.Player.Basic
import PlaybackCues.Recording.Basic
import PlaybackCues.Settings.Basic

set_option autoImplicit false

/-!
# The recorder

The recorder is shown samples of the player and decides which of them are changes. It adds at most
one event for a sample, at the end of its list. Two values are settled later: the destination of
a seek, when another jump follows soon, and the length of a pause, when playback goes on.
-/
namespace PlaybackCues

/-- What the recorder is shown: a signal at a media time and a moment. -/
inductive Sample where
  | volume (time : Seconds) (volume : Nat) (now : Timestamp)
  | rate (time : Seconds) (rate : Binary64) (now : Timestamp)
  | position (time : Seconds) (now : Timestamp)
  | state (time : Seconds) (state : PlayerState) (now : Timestamp)
  | mark (time : Seconds) (now : Timestamp)

/-- The last recorded value of a signal and when it was recorded. -/
structure Tracked where
  recorded : Binary64
  changed : Option Timestamp := none

/-- The moment lies less than `debounce` milliseconds after an earlier one. -/
def Timestamp.soonAfter (now since : Timestamp) (debounce : Nat) : Bool :=
  since.elapsed now < debounce * 1000000

/-- Differences of exactly the least one count in spite of their binary form. -/
def Tracked.slack : Binary64 := 1e-9

/-- The value is far enough from the recorded one, and not too soon after it. -/
def Tracked.accepts (t : Tracked) (value delta : Binary64) (debounce : Nat)
    (now : Timestamp) : Bool :=
  !decide ((value - t.recorded).abs + slack < delta) &&
    !t.changed.any fun since => now.soonAfter since debounce

structure Bookmark where
  index : Nat
  since : Timestamp

structure Recorder where
  sampling : Sampling
  id : Uuid
  document : Int
  started : Timestamp
  /-- The levels before the first event. -/
  initialVolume : Nat
  initialRate : Binary64
  events : List RecordedEvent := []
  volume : Tracked
  rate : Tracked
  /-- The last rate seen, recorded or not. -/
  liveRate : Binary64
  position : Seconds
  positionSeen : Timestamp
  lastSeek : Option Bookmark := none
  paused : Bool
  openPause : Option Bookmark := none
  pauseChanged : Option Timestamp := none

namespace Recorder

def start (sampling : Sampling) (id : Uuid) (document : Int) (first : Snapshot)
    (now : Timestamp) : Recorder where
  sampling := sampling
  id := id
  document := document
  started := now
  initialVolume := first.volume
  initialRate := first.rate
  volume := ⟨.ofNat first.volume, none⟩
  rate := ⟨first.rate, none⟩
  liveRate := first.rate
  position := first.time
  positionSeen := now
  paused := first.state = .paused

def push (r : Recorder) (kind : EventKind) (time : Seconds) (value previous : Binary64)
    (now : Timestamp) : Recorder :=
  let id := Uuid.byName r.id (toString r.events.length)
  { r with events := r.events ++ [⟨id, time, kind, value, previous, now⟩] }

def settleValue (r : Recorder) (index : Nat) (value : Binary64) : Recorder :=
  { r with events := r.events.modify index fun e => { e with value } }

def observeVolume (r : Recorder) (time : Seconds) (volume : Nat) (now : Timestamp) : Recorder :=
  let value := Binary64.ofNat volume
  if r.volume.accepts value r.sampling.volumeDelta r.sampling.volumeDebounce now then
    { r with volume := ⟨value, some now⟩ }.push .volume time value r.volume.recorded now
  else r

def observeRate (r : Recorder) (time : Seconds) (rate : Binary64) (now : Timestamp) : Recorder :=
  let r := { r with liveRate := rate }
  if r.rate.accepts rate r.sampling.speedDelta r.sampling.speedDebounce now then
    { r with rate := ⟨rate, some now⟩ }.push .speed time rate r.rate.recorded now
  else r

def expected (r : Recorder) (now : Timestamp) : Seconds :=
  if r.paused then r.position
  else r.position + Seconds.ofNanos (r.positionSeen.elapsed now) * r.liveRate

/-- The seek that a further jump still belongs to. -/
def recentSeek? (r : Recorder) (now : Timestamp) : Option Bookmark :=
  r.lastSeek.filter fun seek => now.soonAfter seek.since r.sampling.seekDebounce

/-- A position far from the expected one is a seek, or moves the destination of a recent one. -/
def observePosition (r : Recorder) (time : Seconds) (now : Timestamp) : Recorder :=
  let expected := r.expected now
  let r := { r with position := time, positionSeen := now }
  if (time - expected).abs ≤ r.sampling.seekDelta then r
  else
    match r.recentSeek? now with
    | some seek => r.settleValue seek.index time
    | none =>
      let origin := expected.max 0
      { r with lastSeek := some ⟨r.events.length, now⟩ }.push .seek origin time origin now

/-- Gives an open pause the length that it has by now, in whole seconds. -/
def closePause (r : Recorder) (now : Timestamp) : Recorder :=
  match r.openPause with
  | some pause =>
    { r with openPause := none }.settleValue pause.index
      (Seconds.ofNanos (pause.since.elapsed now)).round
  | none => r

/-- Only the changes between playing and paused count. -/
def observeState (r : Recorder) (time : Seconds) (state : PlayerState) (now : Timestamp) :
    Recorder :=
  match state, r.paused with
  | .paused, false =>
    if r.pauseChanged.any fun since => now.soonAfter since r.sampling.pauseDebounce then r
    else
      { r with
        paused := true
        pauseChanged := some now
        openPause := some ⟨r.events.length, now⟩
        position := time
        positionSeen := now }.push .pause time 0 0 now
  | .playing, true =>
    { r with
      paused := false
      pauseChanged := some now
      position := time
      positionSeen := now }.closePause now
  | _, _ => r

def mark (r : Recorder) (time : Seconds) (now : Timestamp) : Recorder :=
  r.push .manual time 0 0 now

def observe (r : Recorder) : Sample → Recorder
  | .volume time volume now => r.observeVolume time volume now
  | .rate time rate now => r.observeRate time rate now
  | .position time now => r.observePosition time now
  | .state time state now => r.observeState time state now
  | .mark time now => r.mark time now

/-- The finished recording of a medium of the given duration. -/
def stop (r : Recorder) (duration : Seconds) (now : Timestamp) : Recording where
  id := r.id
  document := r.document
  title := none
  duration := duration
  volume := r.initialVolume
  rate := r.initialRate
  created := r.started
  updated := now
  events := (r.closePause now).events

end Recorder

end PlaybackCues
