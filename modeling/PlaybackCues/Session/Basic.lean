import PlaybackCues.Clock.EventLoop
import PlaybackCues.Player.Simulated
import PlaybackCues.Resolver.Tick
import PlaybackCues.Storage.Store

set_option autoImplicit false

/-!
# Playback sessions

A session drives one player over the cues of one document. It owns the resolver and handles its
inbox one event at a time: polls of the player, edits of the notes, seeks and what the player
tells. Edits are reconciled with the store once the notes have been quiet for a while; of several
edits only the newest counts. Failures of the player and the store are passed over, as the next
poll or edit looks at everything again.

A timer that is called off is dropped at once. If its time is up already it could still post its
event, which by then is stale: the quiet period of an older edit, or the end of a pause that is
forgotten.
-/
namespace PlaybackCues

inductive SessionError where
  | player (e : PlayerError)
  | store (e : StoreError)
  | closed
  deriving DecidableEq

def SessionError.message : SessionError → String
  | .player e => e.message
  | .store e => e.message
  | .closed => "Session is closed"

inductive SessionTimer where
  | poll
  | quiet
  | resume
  deriving DecidableEq

inductive SessionEvent where
  | poll
  | textChanged (notes : List Char)
  | quiet (generation : Nat)
  | resumeDue
  | player (n : Notification)
  | seek (target : Seconds)
  | videoChanged
  deriving DecidableEq

structure SessionState where
  id : Int
  settings : Settings
  player : SimulatedPlayer
  store : Store
  resolver : Resolver
  /-- The newest edit, as long as it is not reconciled. -/
  edit : Option (List Char) := none
  generation : Nat := 0

abbrev SessionTimers := Timers SessionTimer SessionEvent

/-- Arms the only timer of a key, `delay` milliseconds from now. -/
def SessionTimers.rearm (ts : SessionTimers) (key : SessionTimer) (now delay : Nat)
    (e : SessionEvent) : SessionTimers :=
  (Timers.cancel ts key).arm ⟨key, now + delay, e, none⟩

abbrev SessionWork := SessionState × SessionTimers

namespace SessionWork

def tell (now : Nat) (c : PlayerCall) (w : SessionWork) : SessionWork :=
  ({ w.1 with player := (w.1.player.perform now c).2 }, w.2)

def follow (now : Nat) (w : SessionWork) : Directive → SessionWork
  | .setVolume volume => w.tell now (.setVolume volume)
  | .setRate rate => w.tell now (.setRate rate)
  | .seek target _ => w.tell now (.seek target)
  | .pause => w.tell now .pause
  | .play => w.tell now .play
  | .resumeAfter seconds => (w.1, w.2.rearm .resume now (seconds * 1000) .resumeDue)

/-- Takes over what the resolver answers and follows its directives in order. -/
def apply (now : Nat) (r : Response) (w : SessionWork) : SessionWork :=
  r.directives.foldl (follow now) ({ w.1 with resolver := r.resolver }, w.2)

/-- Looks at the player; a tick without a complete look is skipped. -/
def poll (now : Nat) (w : SessionWork) : SessionWork :=
  match w.1.player.snapshot now with
  | (.ok s, player) => apply now (w.1.resolver.tick s) ({ w.1 with player }, w.2)
  | (.error _, player) => ({ w.1 with player }, w.2)

def edited (now : Nat) (notes : List Char) (w : SessionWork) : SessionWork :=
  let generation := w.1.generation + 1
  ({ w.1 with edit := some notes, generation },
    w.2.rearm .quiet now w.1.settings.quietPeriod (.quiet generation))

/-- The notes that a quiet period of the given generation is to reconcile. -/
def settledEdit? (generation : Nat) (w : SessionWork) : Option (List Char) :=
  if generation = w.1.generation then w.1.edit else none

/-- Writes the notes to the store and loads them into the resolver; a failure changes neither. -/
def reconcile (now : Nat) (notes : List Char) (w : SessionWork) : SessionWork :=
  match w.1.store.reconcile w.1.id notes with
  | .ok (store, cues) =>
    apply now (w.1.resolver.load cues) ({ w.1 with store, edit := none }, w.2)
  | .error _ => ({ w.1 with edit := none }, w.2)

/-- Calls off a pending resume and takes over the answer of the resolver. -/
def abandon (now : Nat) (r : Response) (w : SessionWork) : SessionWork :=
  apply now r (w.1, Timers.cancel w.2 .resume)

def handle : Handler SessionTimer SessionEvent SessionState := fun now e w =>
  match e with
  | .poll => poll now w
  | .textChanged notes => edited now notes w
  | .quiet generation =>
    match settledEdit? generation w with
    | some notes => reconcile now notes w
    | none => w
  | .resumeDue => apply now w.1.resolver.resumeDue w
  | .player (.stateChanged .ended) => abandon now w.1.resolver.endOfMedia w
  | .player _ => w
  | .seek target => apply now (w.1.resolver.userSeek target) w
  | .videoChanged => abandon now w.1.resolver.reset w

end SessionWork

structure Session where
  loop : EventLoop SessionTimer SessionEvent SessionState
  running : Bool := true

namespace Session

/-- The cues that a session starts with: those in the store, if it can be read. -/
def initialLoad (now : Nat) (w : SessionWork) : SessionWork :=
  match w.1.store.load w.1.id with
  | .ok cues => SessionWork.apply now (w.1.resolver.load cues) w
  | .error _ => w

/-- The ticker of the polls. A ticker without a period does not run. -/
def polls (settings : Settings) : SessionTimers :=
  if settings.pollPeriod = 0 then [] else [⟨.poll, 0, .poll, some settings.pollPeriod⟩]

/-- The loop of a session that has loaded its cues and not yet handled anything. -/
def opening (id : Int) (settings : Settings) (player : SimulatedPlayer) (store : Store)
    (lag : Nat) : EventLoop SessionTimer SessionEvent SessionState :=
  let state : SessionState :=
    { id, settings, player, store, resolver := { tolerances := settings.tolerances } }
  let (owner, timers) := initialLoad 0 (state, [])
  { lag, timers := timers ++ polls settings, owner }

/-- A session before its first poll. -/
def launch (id : Int) (settings : Settings) (player : SimulatedPlayer) (store : Store)
    (lag : Nat) : Session :=
  { loop := opening id settings player store lag }

def state (s : Session) : SessionState := s.loop.owner

def now (s : Session) : Nat := s.loop.now

/-- Changes the state from outside, between two events. -/
def modify (s : Session) (f : SessionState → SessionState) : Session :=
  { s with loop := { s.loop with owner := f s.loop.owner } }

/-- Puts an event into the inbox; a session that is shut down takes none. -/
def send (s : Session) (e : SessionEvent) : Except SessionError Session :=
  if s.running then .ok { s with loop := s.loop.post e } else .error .closed

def shutdown (s : Session) : Session :=
  { s with loop := { s.loop with timers := [], inbox := [] }, running := false }

def settle (s : Session) : Session :=
  { s with loop := s.loop.settle SessionWork.handle }

def advance (s : Session) (ms : Nat) : Session :=
  { s with loop := s.loop.advance SessionWork.handle ms }

/-- Moves the clock, but what is due at the new time has yet to run. -/
def approach (s : Session) (ms : Nat) : Session :=
  { s with loop := s.loop.approach SessionWork.handle ms }

/-- A session that has polled for the first time, if it polls at all. -/
def start (id : Int) (settings : Settings) (player : SimulatedPlayer) (store : Store)
    (lag : Nat) : Session :=
  (launch id settings player store lag).settle

end Session

end PlaybackCues
