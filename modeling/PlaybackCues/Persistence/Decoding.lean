import PlaybackCues.Identity.Uuid
import PlaybackCues.Json.Value
import PlaybackCues.Time.Text

set_option autoImplicit false

/-!
# Fields of JSON records

A record is an object with named fields, or an array of the same values in order. Fields that the
record does not know are passed over, but none of its own may stand twice. The readers here take
the values that fields hold.
-/
namespace PlaybackCues.Json

def member? (name : String) (members : List (JsonText × Json)) : Option Json :=
  members.lookup (some name.toList)

def occurrences (name : String) (members : List (JsonText × Json)) : Nat :=
  members.countP fun m => m.1 = some name.toList

/-- The values of the named fields; one that is missing from an object has none. -/
def fields? (names : List String) : Json → Option (List (Option Json))
  | .object members =>
    if members.all (fun m => m.1.isSome) && names.all (fun n => occurrences n members ≤ 1) then
      some (names.map fun n => member? n members)
    else none
  | .array items => if items.length = names.length then some (items.map some) else none
  | _ => none

def natural? (top : Nat) : Json → Option Nat
  | .number (.whole z) => if 0 ≤ z && z ≤ top then some z.toNat else none
  | _ => none

def integer? (low high : Int) : Json → Option Int
  | .number (.whole z) => if low ≤ z && z ≤ high then some z else none
  | _ => none

/-- A double; a whole number stands for the nearest one. -/
def double? : Json → Option Binary64
  | .number (.whole z) => some (.ofInt z)
  | .number (.double x) => some x
  | _ => none

def chars? : Json → Option (List Char)
  | .text t => t
  | _ => none

def uuid? (j : Json) : Option Uuid := j.chars?.bind Uuid.read?

def timestamp? (j : Json) : Option Timestamp := j.chars?.bind Timestamp.read?

/-- A name, or an object whose only member has that name and no value. -/
def name? : Json → Option String
  | .text (some cs) => some (String.ofList cs)
  | .object [(some cs, .null)] => some (String.ofList cs)
  | _ => none

def elements? : Json → Option (List Json)
  | .array items => some items
  | _ => none

end PlaybackCues.Json
