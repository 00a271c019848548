import PlaybackCues.Cue.Basic
import PlaybackCues.Json.Reader
import PlaybackCues.Json.Writer
import PlaybackCues.Persistence.Decoding

set_option autoImplicit false

/-!
# Cues in JSON

Reading checks the shape and the ranges of a cue and nothing else. A mode is an object whose kind
tells what else belongs to it, or an array that starts with the kind.
-/
namespace PlaybackCues

/-- How deeply arrays and objects may stand inside each other. -/
def maxNesting : Nat := 127

namespace Mode

def toJson : Mode → Json
  | .pause seconds =>
    .ofMembers [("kind", .ofString (Mode.pause seconds).label), ("seconds", .ofNat seconds)]
  | mode => .ofMembers [("kind", .ofString mode.label)]

/-- The mode of a kind, where `seconds` tries to find the length of a pause. -/
def ofKind? (kind : String) (seconds : Option Nat) : Option Mode :=
  if kind = Mode.natural.label then some .natural
  else if kind = Mode.jump.label then some .jump
  else if kind = (Mode.pause 0).label then seconds.map .pause
  else none

def secondsOf? (members : List (JsonText × Json)) : Option Nat :=
  if Json.occurrences "seconds" members = 1 then
    (Json.member? "seconds" members).bind (Json.natural? maxPause)
  else none

/-- Everything in a mode has to make sense, and it may stand `outer` levels inside. -/
def ofJson? (outer : Nat) (j : Json) : Option Mode :=
  if j.sound (maxNesting - outer) then
    match j with
    | .object members =>
      if Json.occurrences "kind" members = 1 then do
        let kind ← (Json.member? "kind" members).bind Json.chars?
        ofKind? (String.ofList kind) (secondsOf? members)
      else none
    | .array (.text (some kind) :: rest) =>
      match ofKind? (String.ofList kind) (rest.head?.bind (Json.natural? maxPause)) with
      | some (.pause n) => if rest.length = 1 then some (.pause n) else none
      | some mode => if rest = [] then some mode else none
      | none => none
    | _ => none
  else none

end Mode

namespace Cue

def maxIndex : Nat := twoTo 32 - 1

def fieldNames : List String :=
  ["id", "document_index", "source_offset", "start_time", "end_time", "volume", "rate", "mode"]

def toJson (c : Cue) : Json :=
  .ofMembers <| fieldNames.zip
    [.ofChars c.id.toChars, .ofNat c.index, .ofNat c.offset, .ofDouble c.start, .ofDouble c.stop,
     .ofNat c.volume, .ofDouble c.rate, c.mode.toJson]

def ofJson? (j : Json) : Option Cue :=
  match j.fields? fieldNames with
  | some [some id, some index, some offset, some start, some stop, some volume, some rate,
      some mode] => do
    let id ← id.uuid?
    let index ← index.natural? maxIndex
    let offset ← offset.natural? maxWord
    let start ← start.double?
    let stop ← stop.double?
    let volume ← volume.natural? maxByte
    let rate ← rate.double?
    let mode ← Mode.ofJson? 1 mode
    some { start, stop, volume, rate, mode, id, index, offset }
  | _ => none

def encode (c : Cue) : List Char := Json.write c.toJson

def decode? (cs : List Char) : Option Cue := (Json.read? cs).bind ofJson?

end Cue

end PlaybackCues
