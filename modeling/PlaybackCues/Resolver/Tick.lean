import PlaybackCues.Resolver.Basic

set_option autoImplicit false

/-!
# The tick of the resolver

A tick first settles a seek in flight, then looks for a restart or a seek of the user, then sees
whether the active cue still holds, and at last, when no cue is active, whether one is due.
-/
namespace PlaybackCues.Resolver

def volumeDistance (a b : Nat) : Nat := (a - b) + (b - a)

/-- The volumes differ by more than is tolerated. -/
def volumeOff (r : Resolver) (a b : Nat) : Bool := r.tolerances.volume < volumeDistance a b

/-- The rates differ by more than is tolerated. -/
def rateOff (r : Resolver) (a b : Binary64) : Bool := r.tolerances.rate < (a - b).abs

/-- The directives that are missing to get from the levels seen to those wanted. -/
def correction (r : Resolver) (seen wanted : Levels) : List Directive :=
  (if r.volumeOff seen.volume wanted.volume then [.setVolume wanted.volume] else []) ++
    (if r.rateOff seen.rate wanted.rate then [.setRate wanted.rate] else [])

/-! ## A seek in flight -/

inductive Settling where
  /-- The seek is still in flight, and the tick does nothing else. -/
  | waiting (r : Resolver)
  | done (r : Resolver)

/-- The player is nearer to the target of the flight than to its origin. -/
def landed (r : Resolver) (f : Flight) (now : Seconds) : Bool :=
  (now - f.target).abs ≤ r.tolerances.seek &&
    (!decide ((now - f.origin).abs ≤ r.tolerances.seek) ||
      (now - f.target).abs < (now - f.origin).abs)

def settle (r : Resolver) (now : Seconds) : Settling :=
  match r.flight with
  | none => .done r
  | some f =>
    if r.landed f now then .done { r with flight := none, last := now }
    else if (now - f.origin).abs ≤ r.tolerances.seek && f.waited < r.tolerances.settleTicks then
      .waiting { r with flight := some { f with waited := f.waited + 1 } }
    else .done { r with flight := none }

/-! ## Restarts and seeks of the user -/

/-- Playback is back at the start after having been far from it. -/
def restarted (r : Resolver) (now : Seconds) : Bool :=
  now ≤ r.tolerances.restart && r.tolerances.seek < r.last - now

/-- The time has moved further than playback can. -/
def moved (r : Resolver) (now : Seconds) : Bool := r.tolerances.seek < (now - r.last).abs

def detect (now : Seconds) (r : Resolver) : Response :=
  if r.restarted now then r.clear
  else if r.moved now then r.moveTo now
  else ⟨r, []⟩

/-! ## The active cue -/

/-- The cue still holds; it may have been started a little early. -/
def covers (r : Resolver) (c : Cue) (now : Seconds) : Bool :=
  now ≤ c.stop && c.start - r.tolerances.activation ≤ now

/-- The next cue of the notes that is not executed. -/
def successor? (r : Resolver) (c : Cue) : Option Cue :=
  r.cues.find? fun d => c.index < d.index && !r.executed.contains d.id

/-- The cues between the end of one cue and the start of another, which a jump passes over. -/
def skipped (r : Resolver) (c next : Cue) : List Uuid :=
  (r.cues.filter fun d => d.id ≠ next.id && c.stop < d.start && d.start < next.start).map
    fun d => d.id

/-- Jumps from a cue straight onto another. -/
def chain (r : Resolver) (c next : Cue) (now : Seconds) : Response :=
  let r := if c.stop < next.start then r.retire (r.skipped c next) else r
  ⟨{ r with
      restore := none
      active := some next.id
      last := next.start
      flight := some ⟨now, next.start, 0⟩ },
    next.levels.directives ++ [.seek next.start .engine]⟩

/-- How a tick goes on after the active cue has been looked at. -/
inductive Onward where
  | stop (r : Response)
  | idle (r : Response)

/-- The window of the active cue is over. -/
def expire (r : Resolver) (c : Cue) (now : Seconds) : Onward :=
  let r := { r.retire [c.id] with active := none }
  match c.mode with
  | .natural => .idle r.restoreDefaults
  | .jump =>
    match r.successor? c with
    | some next => .stop (r.chain c next now)
    | none => .idle r.restoreDefaults
  | .pause seconds =>
    .stop <| r.restoreDefaults.andThen fun r =>
      ⟨{ r with awaiting := true, last := now }, [.pause, .resumeAfter seconds]⟩

def continueActive (s : Snapshot) (r : Resolver) : Onward :=
  match r.active with
  | none => .idle ⟨r, []⟩
  | some id =>
    match r.find? id with
    | some c =>
      if r.covers c s.time then .stop ⟨{ r with last := s.time }, r.correction s.levels c.levels⟩
      else r.expire c s.time
    | none => .idle { r with active := none }.restoreDefaults

/-! ## Outside the cues -/

/-- Sends the defaults again as long as they are not seen; afterwards what is seen are the
defaults. -/
def trackDefaults (s : Snapshot) (r : Resolver) : Response :=
  match r.restore with
  | some wanted =>
    if r.correction s.levels wanted = [] then
      ⟨{ r with restore := none, defaults := s.levels }, []⟩
    else ⟨r, r.correction s.levels wanted⟩
  | none => ⟨{ r with defaults := s.levels }, []⟩

/-- The first cue in the order of the notes that has started recently and is not executed. -/
def due? (r : Resolver) (now : Seconds) : Option Cue :=
  r.cues.find? fun c =>
    c.holds now && !r.executed.contains c.id && now - c.start ≤ r.tolerances.activation

/-- The cues before another one in the notes whose start has been passed. -/
def overtaken (r : Resolver) (c : Cue) (now : Seconds) : List Uuid :=
  (r.cues.filter fun d => d.index < c.index && d.start < now).map fun d => d.id

def activate (now : Seconds) (r : Resolver) : Response :=
  match r.due? now with
  | some c =>
    ⟨{ r.retire (r.overtaken c now) with active := some c.id, restore := none },
      c.levels.directives⟩
  | none => ⟨r, []⟩

/-- The end of a tick without an active cue. Levels are only tracked if nothing was sent yet, and
nothing starts during a pause. -/
def idle (quiet : Bool) (s : Snapshot) (r : Resolver) : Response :=
  (if quiet then r.trackDefaults s else ⟨r, []⟩).andThen fun r =>
    (if r.awaiting then ⟨r, []⟩ else r.activate s.time).andThen fun r =>
      ⟨{ r with last := s.time }, []⟩

/-! ## The whole tick -/

/-- A tick with no seek in flight. -/
def evaluate (s : Snapshot) (r : Resolver) : Response :=
  let found := r.detect s.time
  match found.resolver.continueActive s with
  | .stop rest => ⟨rest.resolver, found.directives ++ rest.directives⟩
  | .idle rest =>
    Response.andThen ⟨rest.resolver, found.directives ++ rest.directives⟩
      (idle (found.directives ++ rest.directives).isEmpty s)

/-- The media is over: a pass that has begun is forgotten. -/
def tickEnded (r : Resolver) (now : Seconds) : Response :=
  if r.active.isSome || !r.executed.isEmpty then r.endOfMedia
  else ⟨{ r with last := now }, []⟩

def tick (r : Resolver) (s : Snapshot) : Response :=
  if s.state = .ended then r.tickEnded s.time
  else
    match r.settle s.time with
    | .waiting r => ⟨r, []⟩
    | .done r => r.evaluate s

end PlaybackCues.Resolver
