import PlaybackCues.Clock.EventLoop

set_option autoImplicit false

/-!
# A desk of timers

A desk hands out tickers and single timers, and has one alarm: a timer that can be armed again and
again, where arming calls off what was pending. Each timer is a task of its own with a token, and
all that cancelling does is to mark the token. The task learns of it when it is polled next, and
ends. But if its time is up by then as well, it has two reasons to go on and follows either, so it
may still post its event. Which one it follows is chosen at random; the desk holds the choices of
all its tasks.

When the whole desk is cancelled every token is, also those that are handed out later. Closing the
desk's inbox loses later events.
-/
namespace PlaybackCues

/-- The token of a task. Each arming of the alarm has one of its own. -/
inductive TimerKey where
  | child (number : Nat)
  | alarm (number : Nat)
  deriving DecidableEq

/-- What the timers have posted and when, and whether anybody still listens. -/
structure Receiver (ε : Type) where
  posted : List (Nat × ε) := []
  closed : Bool := false

def Receiver.take {ε : Type} (r : Receiver ε) (now : Nat) (e : ε) : Receiver ε :=
  if r.closed then r else { r with posted := r.posted ++ [(now, e)] }

structure Desk (ε : Type) where
  loop : EventLoop TimerKey ε (Receiver ε) := { owner := {} }
  children : Nat := 0
  /-- How often the alarm was armed. -/
  armings : Nat := 0
  /-- The token of the alarm, unless it was called off. It stays after the alarm has rung. -/
  pending : Option TimerKey := none
  /-- The tokens that were cancelled one by one. -/
  revoked : List TimerKey := []
  cancelled : Bool := false
  /-- Whether a task that finds its token cancelled and its time up follows its timer. -/
  timerFirst : TimerKey → Bool := fun _ => true

inductive DeskCommand (ε : Type) where
  | ticker (period : Nat) (event : ε)
  | once (delay : Nat) (event : ε)
  | arm (delay : Nat) (event : ε)
  | disarm
  | cancel (number : Nat)
  | cancelAll
  | close
  | advance (ms : Nat)
  | jump (ms : Nat)

namespace Desk

variable {ε : Type}

def handler : Handler TimerKey ε (Receiver ε) := fun now e s => (s.1.take now e, s.2)

def setTimers (d : Desk ε) (f : Timers TimerKey ε → Timers TimerKey ε) : Desk ε :=
  { d with loop := { d.loop with timers := f d.loop.timers } }

def isCancelled (d : Desk ε) (key : TimerKey) : Bool := d.cancelled || d.revoked.contains key

/-- Whether the alarm was armed and has not been cancelled since; that it has rung does not matter. -/
def armed (d : Desk ε) : Bool := d.pending.any fun key => !d.isCancelled key

/-! ## Tasks -/

/-- Sets up the task of a timer, whether or not its token is cancelled already. -/
def spawn (d : Desk ε) (t : Timer TimerKey ε) : Desk ε := d.setTimers fun ts => ts.arm t

/-- What is left of a task that is polled. A cancelled one ends; at best it fires once more. -/
def polled? (d : Desk ε) (t : Timer TimerKey ε) : Option (Timer TimerKey ε) :=
  if d.isCancelled t.key then
    if t.due d.loop.lag ≤ d.loop.now && d.timerFirst t.key then some { t with period := none }
    else none
  else some t

def poll (d : Desk ε) : Desk ε := d.setTimers fun ts => ts.filterMap d.polled?

/-- What can run at this instant does: every task is polled, and what is due fires. -/
def settle (d : Desk ε) : Desk ε :=
  { d.poll with loop := d.poll.loop.settle handler }

/-- Moves the clock and stops at every instant on the way. -/
def advance (d : Desk ε) (ms : Nat) : Desk ε :=
  { d.poll with loop := d.poll.loop.advance handler ms }

/-- Moves the clock, but what is due at the new time has yet to run. -/
def approach (d : Desk ε) (ms : Nat) : Desk ε :=
  { d.poll with loop := d.poll.loop.approach handler ms }

/-- Moves the clock at once, and fires what is due afterwards. -/
def jump (d : Desk ε) (ms : Nat) : Desk ε :=
  settle { d with loop := { d.loop with now := d.loop.now + ms } }

/-! ## Commands -/

def disarm (d : Desk ε) : Desk ε :=
  { d with pending := none, revoked := d.pending.toList ++ d.revoked }

def arm (d : Desk ε) (delay : Nat) (event : ε) : Desk ε :=
  { d.disarm.spawn ⟨.alarm d.armings, d.loop.now + delay, event, none⟩ with
    armings := d.armings + 1
    pending := some (.alarm d.armings) }

/-- Hands out a timer with the next token. -/
def handOut (d : Desk ε) (delay : Nat) (event : ε) (period : Option Nat) : Desk ε :=
  { d.spawn ⟨.child d.children, d.loop.now + delay, event, period⟩ with
    children := d.children + 1 }

def execute (d : Desk ε) : DeskCommand ε → Desk ε
  | .ticker period event => d.handOut 0 event (some period)
  | .once delay event => d.handOut delay event none
  | .arm delay event => d.arm delay event
  | .disarm => d.disarm
  | .cancel number =>
    if number < d.children then { d with revoked := .child number :: d.revoked } else d
  | .cancelAll => { d with cancelled := true }
  | .close => { d with loop := { d.loop with
      owner := { d.loop.owner with closed := true } } }
  | .advance ms => d.advance ms
  | .jump ms => d.jump ms

/-- Carries out a command and everything that can run at the instant after it. -/
def step (d : Desk ε) (c : DeskCommand ε) : Desk ε := (d.execute c).settle

def posted (d : Desk ε) : List (Nat × ε) := d.loop.owner.posted

def received (d : Desk ε) : List ε := d.posted.map Prod.snd

end Desk

end PlaybackCues
