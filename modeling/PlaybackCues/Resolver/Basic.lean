import PlaybackCues.Player.Basic
import PlaybackCues.Settings.Basic
import PlaybackCues.Storage.Store

set_option autoImplicit false

/-!
# The resolver

The resolver looks at the player again and again and decides which cue holds. Each look is a tick;
it yields directives for the player and a new state. At most one cue is active. A cue that has been
left, or that playback has passed over, is executed and does not become active again before a seek
of the user, a restart or a reset.

Outside the cues the levels seen on the player are the defaults, which are restored when a cue
ends. A jump leads from one cue straight to the next one in the notes; the seek of a jump is in
flight until a tick shows the player near its target.
-/
namespace PlaybackCues

structure Levels where
  volume : Nat
  rate : Binary64
  deriving DecidableEq

def CueSpec.levels (c : CueSpec) : Levels := ⟨c.volume, c.rate⟩

def Snapshot.levels (s : Snapshot) : Levels := ⟨s.volume, s.rate⟩

inductive SeekOrigin where
  | engine
  | user
  deriving DecidableEq, Repr

inductive Directive where
  | setVolume (volume : Nat)
  | setRate (rate : Binary64)
  | seek (target : Seconds) (origin : SeekOrigin)
  | pause
  | play
  | resumeAfter (seconds : Nat)
  deriving DecidableEq

/-- The directives that bring the player to some levels. -/
def Levels.directives (l : Levels) : List Directive := [.setVolume l.volume, .setRate l.rate]

/-- A seek of the resolver that no tick has shown yet. -/
structure Flight where
  origin : Seconds
  target : Seconds
  waited : Nat
  deriving DecidableEq

inductive Phase where
  | idle
  | active
  | chaining
  | paused
  deriving DecidableEq, Repr

structure Resolver where
  tolerances : Tolerances
  /-- In the order of the indexes. -/
  cues : List Cue := []
  active : Option Uuid := none
  executed : List Uuid := []
  /-- The media time at the end of the last tick. -/
  last : Seconds := 0
  /-- The levels last seen outside every cue. -/
  defaults : Levels := ⟨100, 1⟩
  flight : Option Flight := none
  awaiting : Bool := false
  /-- Levels sent to the player to restore them, and not seen on it since. -/
  restore : Option Levels := none
  deriving DecidableEq

structure Response where
  resolver : Resolver
  directives : List Directive := []

namespace Response

/-- Goes on with a further operation. -/
def andThen (r : Response) (f : Resolver → Response) : Response :=
  ⟨(f r.resolver).resolver, r.directives ++ (f r.resolver).directives⟩

@[simp] theorem andThen_resolver (r : Response) (f : Resolver → Response) :
    (r.andThen f).resolver = (f r.resolver).resolver := rfl

@[simp] theorem andThen_directives (r : Response) (f : Resolver → Response) :
    (r.andThen f).directives = r.directives ++ (f r.resolver).directives := rfl

end Response

namespace Resolver

def find? (r : Resolver) (id : Uuid) : Option Cue := r.cues.find? fun c => c.id = id

def activeCue? (r : Resolver) : Option Cue := r.active.bind r.find?

def phase (r : Resolver) : Phase :=
  if r.awaiting then .paused
  else if r.active.isSome then (if r.flight.isSome then .chaining else .active)
  else .idle

/-! ## Parts of a transition -/

def retire (r : Resolver) (ids : List Uuid) : Resolver :=
  { r with executed := ids.foldl (fun done id => done.insert id) r.executed }

/-- Sends the defaults and remembers that they have to be seen. -/
def restoreDefaults (r : Resolver) : Response :=
  ⟨{ r with restore := some r.defaults }, r.defaults.directives⟩

/-- Leaves the active cue, if there is one, and restores the defaults. -/
def leave (r : Resolver) : Response :=
  if r.active.isSome then { r with active := none }.restoreDefaults else ⟨r, []⟩

/-- Forgets the current pass. -/
def clear (r : Resolver) : Response :=
  r.leave.andThen fun r => ⟨{ r with executed := [], flight := none, awaiting := false }, []⟩

/-- The cues that are over when the user moves to `now`. -/
def passed (r : Resolver) (now : Seconds) : List Uuid :=
  (r.cues.filter fun c => c.start < now && !c.holds now).map fun c => c.id

/-- The user moved to `now`: exactly the cues that are over there count as executed. -/
def moveTo (now : Seconds) (r : Resolver) : Response :=
  r.leave.andThen fun r => ⟨{ r with executed := r.passed now, last := now }, []⟩

/-! ## Operations apart from the tick -/

/-- Takes over a new list of cues. Executed ids that are still there are kept; an active cue that
is gone is left. -/
def load (r : Resolver) (cues : List Cue) : Response :=
  let cues := byIndex cues
  let known (id : Uuid) : Bool := cues.any fun c => c.id = id
  let kept := { r with executed := r.executed.filter known }
  if r.active.all known then ⟨{ kept with cues }, []⟩
  else
    { kept with active := none, flight := none }.restoreDefaults.andThen
      fun r => ⟨{ r with cues }, []⟩

def reset (r : Resolver) : Response := r.clear.andThen fun r => ⟨{ r with last := 0 }, []⟩

def endOfMedia (r : Resolver) : Response := r.reset

/-- The time of a pause is over. Nothing is played if the pause was called off in the meantime. -/
def resumeDue (r : Resolver) : Response :=
  if r.awaiting then ⟨{ r with awaiting := false }, [.play]⟩ else ⟨r, []⟩

def userSeek (r : Resolver) (target : Seconds) : Response :=
  let target := target.max 0
  Response.andThen ⟨{ r with flight := none }, [.seek target .user]⟩ (moveTo target)

end Resolver

end PlaybackCues
