import PlaybackCues.Clock.Timers

set_option autoImplicit false

/-!
# The virtual clock

An event loop has a clock in milliseconds, timers, an inbox and an owner, who handles the events of
the inbox one by one and may arm and cancel timers while doing so. The clock moves from one due
instant to the next. At an instant all timers that are due post their events, the owner handles
everything in the inbox, and this is repeated for what was armed without delay.
-/
namespace PlaybackCues

structure EventLoop (κ ε σ : Type) where
  lag : Nat := 0
  now : Nat := 0
  timers : Timers κ ε := []
  /-- Events to be handled, the oldest first. -/
  inbox : List ε := []
  owner : σ

/-- How an owner handles an event at an instant. -/
abbrev Handler (κ ε σ : Type) := Nat → ε → σ × Timers κ ε → σ × Timers κ ε

namespace EventLoop

variable {κ ε σ : Type}

def post (l : EventLoop κ ε σ) (e : ε) : EventLoop κ ε σ := { l with inbox := l.inbox ++ [e] }

/-- The timers that are due post their events. -/
def fire (l : EventLoop κ ε σ) : EventLoop κ ε σ :=
  { l with
    inbox := l.inbox ++ (l.timers.firing l.lag l.now).map fun t => t.event
    timers := l.timers.afterFiring l.lag l.now }

def drain (handle : Handler κ ε σ) (l : EventLoop κ ε σ) : EventLoop κ ε σ :=
  let after := l.inbox.foldl (fun s e => handle l.now e s) (l.owner, l.timers)
  { l with inbox := [], owner := after.1, timers := after.2 }

def quiet (l : EventLoop κ ε σ) : Bool :=
  l.inbox.isEmpty && l.timers.all fun t => l.now < t.due l.lag

def settleFor (handle : Handler κ ε σ) : Nat → EventLoop κ ε σ → EventLoop κ ε σ
  | 0, l => l
  | k + 1, l => if l.quiet then l else settleFor handle k (l.fire.drain handle)

/-- Runs everything that can run at this instant. An event leads to at most one timer without
delay, and that timer to no further one. -/
def settle (handle : Handler κ ε σ) (l : EventLoop κ ε σ) : EventLoop κ ε σ :=
  settleFor handle (l.inbox.length + l.timers.length + 2) l

/-- Goes through at most `k` instants before `stop`. -/
def visit (handle : Handler κ ε σ) (stop : Nat) : Nat → EventLoop κ ε σ → EventLoop κ ε σ
  | 0, l => l
  | k + 1, l =>
    match l.timers.nextDue? l.lag with
    | some t =>
      if t < stop then visit handle stop k ({ l with now := Nat.max l.now t }.settle handle)
      else l
    | none => l

/-- Moves the clock by `ms` and stops at every instant on the way. Timers due exactly at the new
time have yet to fire. -/
def approach (handle : Handler κ ε σ) (ms : Nat) (l : EventLoop κ ε σ) : EventLoop κ ε σ :=
  let l := l.settle handle
  { visit handle (l.now + ms) ms l with now := l.now + ms }

/-- Moves the clock by `ms`, and fires what is due at the new time too. -/
def advance (handle : Handler κ ε σ) (ms : Nat) (l : EventLoop κ ε σ) : EventLoop κ ε σ :=
  (l.approach handle ms).settle handle

/-! ## What moves the clock -/

theorem fire_now (l : EventLoop κ ε σ) : l.fire.now = l.now := rfl

theorem drain_now (handle : Handler κ ε σ) (l : EventLoop κ ε σ) : (l.drain handle).now = l.now :=
  rfl

theorem settleFor_now (handle : Handler κ ε σ) (k : Nat) (l : EventLoop κ ε σ) :
    (settleFor handle k l).now = l.now := by
  induction k generalizing l with
  | zero => rfl
  | succ k ih =>
    unfold settleFor
    split
    · rfl
    · rw [ih, drain_now, fire_now]

theorem settle_now (handle : Handler κ ε σ) (l : EventLoop κ ε σ) :
    (l.settle handle).now = l.now := settleFor_now _ _ _

end EventLoop

end PlaybackCues
