import PlaybackCues.Cue.Validation

set_option autoImplicit false

/-!
# Reading notes

A cue stands in the notes as a bracket with two time codes, a volume in percent, a rate and
possibly a mode. Everything else is prose. `candidate?` reads one bracket; a bracket that is
malformed, or whose values are refused, is prose as well. The cues of a text are numbered in the
order in which they stand.
-/
namespace PlaybackCues.Notes

def expect? (c : Char) : List Char → Option (List Char)
  | d :: rest => if d = c then some rest else none
  | [] => none

def mode? : List Char → Option (Mode × List Char)
  | ',' :: '-' :: '>' :: rest => some (.jump, rest)
  | ',' :: '|' :: rest => do
    let (ds, rest) ← Digits.run? rest
    if Digits.value ds ≤ maxPause then some (.pause (Digits.value ds), rest) else none
  | rest => some (.natural, rest)

/-- Digits, a point and digits in front, as the nearest double. -/
def rate? (cs : List Char) : Option (Binary64 × List Char) := do
  let (whole, cs) ← Digits.run? cs
  let cs ← expect? '.' cs
  let (fraction, cs) ← Digits.run? cs
  some (.ofDecimal false (Digits.value (whole ++ fraction)) (-fraction.length), cs)

def candidate? (cs : List Char) : Option CueSpec := do
  let cs ← expect? '[' cs
  let (start, cs) ← TimeCode.scan? cs
  let cs ← expect? '-' cs
  let (stop, cs) ← TimeCode.scan? cs
  let cs ← expect? ',' cs
  let (volume, cs) ← Digits.run? cs
  let cs ← expect? '%' cs
  let cs ← expect? ',' cs
  let (rate, cs) ← rate? cs
  let cs ← expect? 'x' cs
  let (mode, cs) ← mode? cs
  let _ ← expect? ']' cs
  some ⟨TimeCode.ofMillis start, TimeCode.ofMillis stop, Digits.value volume, rate, mode⟩

/-- Every candidate of a text with its offset, where the text starts at `offset`. -/
def candidates (offset : Nat) : List Char → List (Nat × CueSpec)
  | [] => []
  | c :: cs =>
    match candidate? (c :: cs) with
    | some spec => (offset, spec) :: candidates (offset + 1) cs
    | none => candidates (offset + 1) cs

/-- The candidates that can be built, numbered from `index`. -/
def number (index : Nat) : List (Nat × CueSpec) → List Cue
  | [] => []
  | (offset, spec) :: rest =>
    match spec.build index offset with
    | .ok cue => cue :: number (index + 1) rest
    | .error _ => number index rest

def parse (text : List Char) : List Cue := number 0 (candidates 0 text)

end PlaybackCues.Notes
