import PlaybackCues.Json.Value
import PlaybackCues.Number.Text

set_option autoImplicit false

/-!
# Writing JSON

Values are written without blanks. Quotes, backslashes and control characters are escaped, all
other characters stand for themselves. A double that is not finite is written as null.
-/
namespace PlaybackCues.Json

def hexDigits (n : Nat) : List Char :=
  let ds := Nat.toDigits 16 n
  List.replicate (4 - ds.length) '0' ++ ds

def escape (c : Char) : List Char :=
  if c = '"' then ['\\', '"']
  else if c = '\\' then ['\\', '\\']
  else if c = '\n' then ['\\', 'n']
  else if c = '\r' then ['\\', 'r']
  else if c = '\t' then ['\\', 't']
  else if c = '\x08' then ['\\', 'b']
  else if c = '\x0c' then ['\\', 'f']
  else if c.toNat < 0x20 then '\\' :: 'u' :: hexDigits c.toNat
  else [c]

def writeText (t : JsonText) : List Char := '"' :: (t.getD []).flatMap escape ++ ['"']

/-- Doubles show an exponent below one hundred-thousandth. -/
def writeNumber : JsonNumber → List Char
  | .whole z => (if z < 0 then ['-'] else []) ++ Digits.write z.natAbs
  | .double x => if x.isFinite then x.pointText (-5) else "null".toList
  | .beyond => "null".toList

mutual

def write : Json → List Char
  | .null => "null".toList
  | .bool true => "true".toList
  | .bool false => "false".toList
  | .number n => writeNumber n
  | .text t => writeText t
  | .array items => '[' :: writeItems items ++ [']']
  | .object members => '\x7b' :: writeMembers members ++ ['\x7d']

def writeItems : List Json → List Char
  | [] => []
  | [v] => write v
  | v :: rest => write v ++ ',' :: writeItems rest

def writeMembers : List (JsonText × Json) → List Char
  | [] => []
  | [(name, v)] => writeText name ++ ':' :: write v
  | (name, v) :: rest => writeText name ++ ':' :: write v ++ ',' :: writeMembers rest

end

end PlaybackCues.Json
