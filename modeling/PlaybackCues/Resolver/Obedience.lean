import PlaybackCues.Resolver.Tick

set_option autoImplicit false

/-!
# An obedient player

A player that carries out every directive at once, and otherwise only lets time pass. It is the
snapshot that it would show.
-/
namespace PlaybackCues

namespace Snapshot

/-- A player at the start of its media, at full volume and plain speed. -/
def fresh : Snapshot := ⟨0, 100, 1, .playing⟩

def obey (s : Snapshot) : Directive → Snapshot
  | .setVolume volume => { s with volume }
  | .setRate rate => { s with rate }
  | .seek target _ => { s with time := target }
  | .pause => { s with state := .paused }
  | .play => { s with state := .playing }
  | .resumeAfter _ => s

def obeyAll (s : Snapshot) (ds : List Directive) : Snapshot := ds.foldl obey s

/-- Playback goes on by `dt`. -/
def elapse (s : Snapshot) (dt : Seconds) : Snapshot :=
  if s.state = .playing then { s with time := s.time + dt } else s

end Snapshot

end PlaybackCues
