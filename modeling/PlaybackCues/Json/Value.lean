import PlaybackCues.Number.Binary64

set_option autoImplicit false

/-!
# JSON values

A value as it stands in a JSON text. Objects keep the order of their members and repeated names.
A number is whole, if it is written so and fits 64 bits, or else a double, unless it is too large
for one. A text whose escapes name half of a pair of surrogates stands for no characters.
-/
namespace PlaybackCues

inductive JsonNumber where
  | whole (z : Int)
  | double (x : Binary64)
  /-- Written correctly, but beyond every double. -/
  | beyond
  deriving DecidableEq

/-- The characters of a text, if its escapes name some. -/
abbrev JsonText := Option (List Char)

inductive Json where
  | null
  | bool (b : Bool)
  | number (n : JsonNumber)
  | text (t : JsonText)
  | array (items : List Json)
  | object (members : List (JsonText × Json))

namespace Json

instance : Inhabited Json := ⟨.null⟩

def ofNat (n : Nat) : Json := .number (.whole n)

def ofInt (z : Int) : Json := .number (.whole z)

def ofDouble (x : Binary64) : Json := .number (.double x)

def ofChars (cs : List Char) : Json := .text (some cs)

def ofString (s : String) : Json := ofChars s.toList

def ofMembers (ms : List (String × Json)) : Json :=
  .object (ms.map fun m => (some m.1.toList, m.2))

/-- Every number and text within has a meaning, and there are at most `levels` arrays and objects
inside each other. -/
def sound (levels : Nat) : Json → Bool
  | .null | .bool _ => true
  | .number n => n ≠ .beyond
  | .text t => t.isSome
  | .array items =>
    match levels with
    | 0 => false
    | k + 1 => items.all fun v => sound k v
  | .object members =>
    match levels with
    | 0 => false
    | k + 1 => members.all fun m => m.1.isSome && sound k m.2

end Json

end PlaybackCues
