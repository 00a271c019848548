import PlaybackCues.Cue.Validation
import PlaybackCues.Player.Basic
import PlaybackCues.Time.Timestamp

set_option autoImplicit false

/-!
# A simulated player

The simulated player moves its position with the clock, at its rate, and stops at the end of the
media. Each call first either uses up a failure that was asked for, and then does nothing else, or
brings the position up to the present. Commands that succeed are kept in a log with their time.

Times are counted in grains of the clock, which are milliseconds unless the player is given others.
-/
namespace PlaybackCues

inductive PlayerCall where
  | setVolume (volume : Nat)
  | setRate (rate : Binary64)
  | seek (target : Seconds)
  | play
  | pause
  deriving DecidableEq

structure SimulatedPlayer where
  duration : Seconds
  position : Seconds
  /-- The grain of the clock in nanoseconds. -/
  grain : Nat := 1000000
  /-- When the position was brought up to the present. -/
  anchored : Nat := 0
  rate : Binary64 := 1
  volume : Nat := 100
  state : PlayerState
  failures : Nat := 0
  /-- Commands with their time. -/
  log : List (Nat × PlayerCall) := []

namespace SimulatedPlayer

def unstarted (duration : Seconds) : SimulatedPlayer where
  duration := duration
  position := 0
  state := .unstarted

def playingFrom (duration position : Seconds) : SimulatedPlayer where
  duration := duration
  position := position.clamp 0 duration
  state := .playing

/-- What a call answers, and the player after it. -/
abbrev Reply (α : Type) := Except PlayerError α × SimulatedPlayer

def settle (p : SimulatedPlayer) (now : Nat) : SimulatedPlayer :=
  if p.state = .playing then
    let elapsed := Seconds.ofNanos ((now - p.anchored) * p.grain)
    let position := (p.position + elapsed * p.rate).min p.duration
    { p with
      position
      anchored := now
      state := if p.duration ≤ position then .ended else .playing }
  else { p with anchored := now }

def failure : PlayerError := .unavailable "simulated failure"

/-- Lets a call through to the player as it is now, unless the call is to fail. -/
def call {α : Type} (now : Nat) (act : SimulatedPlayer → Reply α) (p : SimulatedPlayer) : Reply α :=
  if 0 < p.failures then (.error failure, { p with failures := p.failures - 1 })
  else act (p.settle now)

def read {α : Type} (now : Nat) (field : SimulatedPlayer → α) (p : SimulatedPlayer) : Reply α :=
  p.call now fun p => (.ok (field p), p)

/-- Goes on with a further call unless the last one failed. -/
def Reply.andThen {α β : Type} (r : Reply α) (f : α → SimulatedPlayer → Reply β) : Reply β :=
  match r with
  | (.ok a, p) => f a p
  | (.error e, p) => (.error e, p)

def snapshot (now : Nat) (p : SimulatedPlayer) : Reply Snapshot :=
  Reply.andThen (p.read now position) fun time p =>
    Reply.andThen (p.read now volume) fun volume p =>
      Reply.andThen (p.read now rate) fun rate p =>
        Reply.andThen (p.read now state) fun state p => (.ok ⟨time, volume, rate, state⟩, p)

def record (p : SimulatedPlayer) (now : Nat) (c : PlayerCall) : SimulatedPlayer :=
  { p with log := p.log ++ [(now, c)] }

/-- A command on a player whose position is up to the present. -/
def obey (now : Nat) (c : PlayerCall) (p : SimulatedPlayer) : Reply Unit :=
  match c with
  | .setVolume volume => (.ok (), { p with volume := Nat.min volume maxVolume }.record now c)
  | .setRate rate =>
    if rate.within minRate maxRate then (.ok (), { p with rate }.record now c)
    else (.error (.rejected ("unsupported rate " ++ rate.text)), p)
  | .seek target =>
    let position := target.clamp 0 p.duration
    let state := if p.state = .ended && position < p.duration then .paused else p.state
    (.ok (), { p with position, state }.record now c)
  | .play =>
    let state := if p.position < p.duration then .playing else p.state
    (.ok (), { p with state }.record now c)
  | .pause =>
    let state := if p.state = .ended then p.state else .paused
    (.ok (), { p with state }.record now c)

def perform (now : Nat) (c : PlayerCall) (p : SimulatedPlayer) : Reply Unit :=
  p.call now (obey now c)

def failNext (n : Nat) (p : SimulatedPlayer) : SimulatedPlayer := { p with failures := n }

def clearLog (p : SimulatedPlayer) : SimulatedPlayer := { p with log := [] }

end SimulatedPlayer

end PlaybackCues
