import PlaybackCues.Settings.Environment

set_option autoImplicit false

/-!
# Files of variables

A file sets one variable on each line, as a name, an equals sign and a value. Blank lines and lines
that start with a number sign say nothing, and a name may follow the word export. A value may be
quoted in whole or in part; outside quotes it ends at the first blank. The first line that is
malformed ends the reading, and of several lines for one variable the first counts.
-/
namespace PlaybackCues.VariableFile

def isNameStart (c : Char) : Bool := c.isAlpha || c = '_'

def isNamePart (c : Char) : Bool := c.isAlphanum || c = '_' || c = '.'

/-- What may stand behind a value: blanks and a comment. -/
def isTail (cs : List Char) : Bool :=
  let rest := cs.dropWhile fun c => c = ' ' || c = '\t'
  rest = [] || rest.head? = some '#'

def escape? (c : Char) : Option Char :=
  if c = 'n' then some '\n'
  else if c = '\\' || c = '\'' || c = '"' || c = '$' || c = ' ' then some c
  else none

inductive Quoting where
  | bare
  | single
  | double

def value? : Quoting → List Char → Option (List Char)
  | .bare, [] => some []
  | _, [] => none
  | .single, c :: cs =>
    if c = '\'' then value? .bare cs else (value? .single cs).map (c :: ·)
  | q, '\\' :: c :: cs => (escape? c).bind fun e => (value? q cs).map (e :: ·)
  | .double, c :: cs =>
    if c = '"' then value? .bare cs else (value? .double cs).map (c :: ·)
  | .bare, c :: cs =>
    if c = '\'' then value? .single cs
    else if c = '"' then value? .double cs
    else if c = '\\' then value? .bare cs
    else if c = ' ' || c = '\t' then (if isTail cs then some [] else none)
    else (value? .bare cs).map (c :: ·)

def name? (cs : List Char) : Option (List Char × List Char) :=
  if cs.head?.any isNameStart then
    some (cs.takeWhile isNamePart, Blank.skip (cs.dropWhile isNamePart))
  else none

def assigned? : List Char → Option (List Char)
  | '=' :: rest =>
    let rest := Blank.skip rest
    if rest.head? = some '#' then some [] else value? .bare rest
  | _ => none

def assignment? (cs : List Char) : Option (String × String) := do
  let (name, rest) ← name? cs
  let (name, rest) ←
    if name = "export".toList && rest.head? ≠ some '=' then name? rest else some (name, rest)
  let value ← assigned? rest
  some (String.ofList name, String.ofList value)

def assignments : List (List Char) → List (String × String)
  | [] => []
  | line :: rest =>
    let cs := Blank.skip line
    if cs = [] || cs.head? = some '#' then assignments rest
    else
      match assignment? cs with
      | some a => a :: assignments rest
      | none => []

def lines (text : List Char) : List (List Char) :=
  (text.splitOn '\n').map fun l => if l.getLast? = some '\r' then l.dropLast else l

def read (text : List Char) : Environment := Environment.ofList (assignments (lines text))

end PlaybackCues.VariableFile
