import PlaybackCues.Json.Reader
import PlaybackCues.Json.Writer
import PlaybackCues.Persistence.Decoding
import PlaybackCues.Player.Basic
import PlaybackCues.Recording.Basic

set_option autoImplicit false

/-!
# Recordings in JSON

Only the title of a recording may be missing or null.
-/
namespace PlaybackCues

def EventKind.toJson (k : EventKind) : Json := .ofString k.name

def EventKind.ofJson? (j : Json) : Option EventKind := j.name?.bind EventKind.named?

def PlayerState.toJson (s : PlayerState) : Json := .ofString s.name

def PlayerState.ofJson? (j : Json) : Option PlayerState := j.name?.bind PlayerState.named?

namespace RecordedEvent

def fieldNames : List String :=
  ["id", "time", "kind", "value", "previous_value", "captured_at"]

def toJson (e : RecordedEvent) : Json :=
  .ofMembers <| fieldNames.zip
    [.ofChars e.id.toChars, .ofDouble e.time, e.kind.toJson, .ofDouble e.value,
     .ofDouble e.previous, .ofChars e.captured.toChars]

def ofJson? (j : Json) : Option RecordedEvent :=
  match j.fields? fieldNames with
  | some [some id, some time, some kind, some value, some previous, some captured] => do
    let id ← id.uuid?
    let time ← time.double?
    let kind ← EventKind.ofJson? kind
    let value ← value.double?
    let previous ← previous.double?
    let captured ← captured.timestamp?
    some { id, time, kind, value, previous, captured }
  | _ => none

end RecordedEvent

namespace Recording

def minDocument : Int := -(twoTo 63)
def maxDocument : Int := twoTo 63 - 1

def fieldNames : List String :=
  ["id", "document_id", "title", "total_duration", "initial_volume", "initial_rate",
   "created_at", "updated_at", "raw_events"]

def titleToJson : Option String → Json
  | some title => .ofString title
  | none => .null

/-- A title may be missing. -/
def titleOfJson? : Option Json → Option (Option String)
  | none | some .null => some none
  | some j => j.chars?.map fun cs => some (String.ofList cs)

def toJson (r : Recording) : Json :=
  .ofMembers <| fieldNames.zip
    [.ofChars r.id.toChars, .ofInt r.document, titleToJson r.title, .ofDouble r.duration,
     .ofNat r.volume, .ofDouble r.rate, .ofChars r.created.toChars, .ofChars r.updated.toChars,
     .array (r.events.map RecordedEvent.toJson)]

def ofJson? (j : Json) : Option Recording :=
  match j.fields? fieldNames with
  | some [some id, some document, title, some duration, some volume, some rate, some created,
      some updated, some events] => do
    let id ← id.uuid?
    let document ← document.integer? minDocument maxDocument
    let title ← titleOfJson? title
    let duration ← duration.double?
    let volume ← volume.natural? maxByte
    let rate ← rate.double?
    let created ← created.timestamp?
    let updated ← updated.timestamp?
    let events ← events.elements?.bind fun items => items.mapM RecordedEvent.ofJson?
    some { id, document, title, duration, volume, rate, created, updated, events }
  | _ => none

def encode (r : Recording) : List Char := Json.write r.toJson

def decode? (cs : List Char) : Option Recording := (Json.read? cs).bind ofJson?

end Recording

end PlaybackCues
