import PlaybackCues.Identity.Uuid
import PlaybackCues.Number.Text
import PlaybackCues.TimeCode

set_option autoImplicit false

/-!
# Cues

A cue is a window of media time with a volume, a rate and a mode that says what happens when the
window ends. Its place in the notes is an index, counted over the cues of the text, and an offset
in characters. Its canonical text is the written form of the window, the levels and the mode; its
id depends on the index and that text alone.
-/
namespace PlaybackCues

inductive Mode where
  | natural
  | jump
  | pause (seconds : Nat)
  deriving DecidableEq, Repr

/-- The longest pause, in seconds. -/
def maxPause : Nat := twoTo 32 - 1

/-- What a cue says, apart from its place. -/
structure CueSpec where
  start : Seconds
  stop : Seconds
  volume : Nat
  rate : Binary64
  mode : Mode
  deriving DecidableEq

structure Cue extends CueSpec where
  id : Uuid
  index : Nat
  offset : Nat
  deriving DecidableEq

namespace Mode

def label : Mode → String
  | .natural => "natural"
  | .jump => "jump"
  | .pause _ => "pause"

def suffix : Mode → List Char
  | .natural => []
  | .jump => ",->".toList
  | .pause seconds => ",|".toList ++ Digits.write seconds

def seconds? : Mode → Option Nat
  | .pause seconds => some seconds
  | _ => none

end Mode

namespace CueSpec

def holds (c : CueSpec) (t : Seconds) : Bool := t.within c.start c.stop

def canonical (c : CueSpec) : List Char :=
  '[' :: TimeCode.format c.start ++ '-' :: TimeCode.format c.stop ++
    ',' :: Digits.write c.volume ++ '%' :: ',' :: c.rate.hundredths ++
    'x' :: c.mode.suffix ++ [']']

def text (c : CueSpec) : String := String.ofList c.canonical

end CueSpec

namespace Cue

def space : Uuid := ⟨0x6f1c2a7e4b3d4e8f9a10c2d45e6f7a8b⟩

def idOf (index : Nat) (canonical : String) : Uuid :=
  Uuid.byName space (String.ofList (Digits.write index) ++ ":" ++ canonical)

end Cue

end PlaybackCues
