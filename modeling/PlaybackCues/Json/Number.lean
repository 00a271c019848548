import PlaybackCues.Json.Value
import PlaybackCues.Text.Digits

set_option autoImplicit false

/-!
# JSON numbers

The digits of a number are collected in a word of 64 bits. Digits before the point that no longer
fit count as powers of ten, and those behind it are dropped. A number that is not whole is the
collected word, multiplied or divided once by a power of ten in double precision.
-/
namespace PlaybackCues

/-- A number as it is written. -/
structure JsonLiteral where
  negative : Bool
  whole : List Char
  fraction : Option (List Char)
  exponent : Option Int

namespace JsonLiteral

/-- Digits in front, if they are the whole part of a number: no zero stands before others. -/
def wholePart? (cs : List Char) : Option (List Char × List Char) :=
  match Digits.run? cs with
  | some ('0' :: _ :: _, _) => none
  | r => r

def fractionPart? : List Char → Option (Option (List Char) × List Char)
  | '.' :: rest => (Digits.run? rest).map fun r => (some r.1, r.2)
  | rest => some (none, rest)

def signPart : List Char → Bool × List Char
  | '-' :: rest => (true, rest)
  | '+' :: rest => (false, rest)
  | rest => (false, rest)

def exponentPart? : List Char → Option (Option Int × List Char)
  | c :: rest =>
    if c = 'e' || c = 'E' then
      (Digits.run? (signPart rest).2).map fun r =>
        (some (if (signPart rest).1 then -(Digits.value r.1 : Int) else Digits.value r.1), r.2)
    else some (none, c :: rest)
  | [] => some (none, [])

def scan? (cs : List Char) : Option (JsonLiteral × List Char) := do
  let negative := cs.head? = some '-'
  let (whole, cs) ← wholePart? (if negative then cs.tail else cs)
  let (fraction, cs) ← fractionPart? cs
  let (exponent, cs) ← exponentPart? cs
  some (⟨negative, whole, fraction, exponent⟩, cs)

/-- Adds digits to a word as long as they fit, and gives the digits that are left. -/
def collect (word : Nat) : List Char → Nat × List Char
  | [] => (word, [])
  | c :: cs =>
    if 10 * word + (c.toNat - 48) ≤ maxWord then collect (10 * word + (c.toNat - 48)) cs
    else (word, c :: cs)

def power (k : Nat) : Binary64 := .ofDecimal false 1 k

/-- A double times ten to the power `e`, in steps that doubles can hold. Two steps down lead any
word to zero. -/
def scale : Nat → Binary64 → Int → JsonNumber
  | steps, x, e =>
    if e.natAbs ≤ 308 then
      if e < 0 then .double (x / power e.natAbs)
      else if (x * power e.natAbs).isFinite then .double (x * power e.natAbs)
      else .beyond
    else if x.position = some 0 then .double x
    else if 0 ≤ e then .beyond
    else
      match steps with
      | 0 => .double 0
      | k + 1 => scale k (x / power 308) (e + 308)

def withSign (negative : Bool) : JsonNumber → JsonNumber
  | .double x => .double (if negative then -x else x)
  | n => n

def inexact (l : JsonLiteral) : JsonNumber :=
  let (word, excess) := collect 0 l.whole
  let fraction := l.fraction.getD []
  let (word, unused) := collect word fraction
  let used : Int := fraction.length - unused.length
  withSign l.negative (scale 3 (.ofNat word) (excess.length - used + l.exponent.getD 0))

def maxNegative : Nat := twoTo 63

/-- A number written without point and exponent is whole if it fits; minus zero is not. -/
def toNumber (l : JsonLiteral) : JsonNumber :=
  let n := Digits.value l.whole
  if l.fraction.isSome || l.exponent.isSome then inexact l
  else if l.negative then (if 0 < n && n ≤ maxNegative then .whole (-n) else inexact l)
  else if n ≤ maxWord then .whole n
  else inexact l

end JsonLiteral

end PlaybackCues
