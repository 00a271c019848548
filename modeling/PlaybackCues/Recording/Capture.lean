import PlaybackCues.Clock.EventLoop
import PlaybackCues.Player.Simulated
import PlaybackCues.Recording.Recorder
import PlaybackCues.Session.Basic

set_option autoImplicit false

/-!
# Capturing a recording

A capture samples a player with one ticker for each signal and shows the samples to a recorder.
A sample whose reading fails is skipped. A mark falls back on the last known position, and so does
the duration when the capture is stopped. What is in the inbox by then is handled before.
-/
namespace PlaybackCues

inductive Signal where
  | speed
  | volume
  | position
  | state
  deriving DecidableEq

namespace Signal

/-- The order in which the tickers are armed. -/
def all : List Signal := [.speed, .volume, .position, .state]

def period (s : Sampling) : Signal → Nat
  | .speed => s.speedPeriod
  | .volume => s.volumePeriod
  | .position => s.positionPeriod
  | .state => s.statePeriod

end Signal

inductive CaptureEvent where
  | sample (signal : Signal)
  | mark
  deriving DecidableEq

structure CaptureState where
  player : SimulatedPlayer
  recorder : Recorder

namespace CaptureState

/-- Reads the sample of a signal: the media time and then the signal itself. -/
def readSample (now : Nat) (signal : Signal) (p : SimulatedPlayer) :
    SimulatedPlayer.Reply Sample :=
  let moment := Timestamp.ofMillis now
  SimulatedPlayer.Reply.andThen (p.read now SimulatedPlayer.position) fun time p =>
    match signal with
    | .speed => SimulatedPlayer.Reply.andThen (p.read now SimulatedPlayer.rate)
        fun rate p => (.ok (.rate time rate moment), p)
    | .volume => SimulatedPlayer.Reply.andThen (p.read now SimulatedPlayer.volume)
        fun volume p => (.ok (.volume time volume moment), p)
    | .position => (.ok (.position time moment), p)
    | .state => SimulatedPlayer.Reply.andThen (p.read now SimulatedPlayer.state)
        fun state p => (.ok (.state time state moment), p)

def sample (now : Nat) (signal : Signal) (c : CaptureState) : CaptureState :=
  match readSample now signal c.player with
  | (.ok s, player) => ⟨player, c.recorder.observe s⟩
  | (.error _, player) => { c with player }

/-- A value of the player, or the last known position when it cannot be read. -/
def readOrPosition (now : Nat) (field : SimulatedPlayer → Seconds) (c : CaptureState) :
    Seconds × SimulatedPlayer :=
  match c.player.read now field with
  | (.ok v, player) => (v, player)
  | (.error _, player) => (c.recorder.position, player)

def mark (now : Nat) (c : CaptureState) : CaptureState :=
  let (time, player) := c.readOrPosition now SimulatedPlayer.position
  ⟨player, c.recorder.mark time (Timestamp.ofMillis now)⟩

def finish (now : Nat) (c : CaptureState) : Recording :=
  let (duration, _) := c.readOrPosition now SimulatedPlayer.duration
  c.recorder.stop duration (Timestamp.ofMillis now)

def handle : Handler Signal CaptureEvent CaptureState := fun now e w =>
  match e with
  | .sample signal => (w.1.sample now signal, w.2)
  | .mark => (w.1.mark now, w.2)

end CaptureState

structure Capture where
  loop : EventLoop Signal CaptureEvent CaptureState
  running : Bool := true

namespace Capture

def tickers (s : Sampling) : Timers Signal CaptureEvent :=
  Signal.all.map fun signal => ⟨signal, 0, .sample signal, some (signal.period s)⟩

/-- Starts from one look at the player, which must succeed. Nothing is sampled yet. -/
def launch (sampling : Sampling) (id : Uuid) (document : Int) (player : SimulatedPlayer) :
    Except SessionError Capture :=
  match player.snapshot 0 with
  | (.error e, _) => .error (.player e)
  | (.ok first, player) =>
    let recorder := Recorder.start sampling id document first (Timestamp.ofMillis 0)
    .ok { loop := { timers := tickers sampling, owner := ⟨player, recorder⟩ } }

def now (c : Capture) : Nat := c.loop.now

def player (c : Capture) : SimulatedPlayer := c.loop.owner.player

def setPlayer (c : Capture) (player : SimulatedPlayer) : Capture :=
  { c with loop := { c.loop with owner := { c.loop.owner with player } } }

def mark (c : Capture) : Except SessionError Capture :=
  if c.running then .ok { c with loop := c.loop.post .mark } else .error .closed

def cancel (c : Capture) : Capture :=
  { c with loop := { c.loop with timers := [], inbox := [] }, running := false }

def settle (c : Capture) : Capture :=
  { c with loop := c.loop.settle CaptureState.handle }

def advance (c : Capture) (ms : Nat) : Capture :=
  { c with loop := c.loop.advance CaptureState.handle ms }

/-- A capture that has taken its first samples. -/
def start (sampling : Sampling) (id : Uuid) (document : Int) (player : SimulatedPlayer) :
    Except SessionError Capture :=
  (launch sampling id document player).map settle

def stop (c : Capture) : Except SessionError Recording :=
  if c.running then .ok ((c.loop.drain CaptureState.handle).owner.finish c.now)
  else .error .closed

end Capture

end PlaybackCues
