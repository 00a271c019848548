import PlaybackCues.Number.Shortest
import PlaybackCues.Text.Digits

set_option autoImplicit false

/-!
# Doubles as text

Messages and answers show a double by the fewest digits that read back, without an exponent.
The log shows it with a point always, and with an exponent when it is very large or very small.
A cue shows its rate with exactly two places. `read?` accepts what a person may write: a sign,
digits with an optional point and exponent, or one of the words for infinity and NaN.
-/
namespace PlaybackCues

namespace Decimal

def places (d : Decimal) : List Char × List Char :=
  if 0 ≤ d.exponent then
    (Digits.write d.coefficient ++ List.replicate d.exponent.toNat '0', [])
  else
    let digits := Digits.padded (d.exponent.natAbs + 1) d.coefficient
    digits.splitAt (digits.length - d.exponent.natAbs)

def positional (d : Decimal) : List Char :=
  match d.places with
  | (whole, []) => whole
  | (whole, fraction) => whole ++ '.' :: fraction

def positionalWithPoint (d : Decimal) : List Char :=
  match d.places with
  | (whole, []) => whole ++ ['.', '0']
  | (whole, fraction) => whole ++ '.' :: fraction

/-- One digit, the other digits behind a point, and the exponent of the first. -/
def scientific (d : Decimal) : List Char :=
  let exponent := d.exponent + (Digits.write d.coefficient).length - 1
  let tail := 'e' :: (if exponent < 0 then ['-'] else []) ++ Digits.write exponent.natAbs
  match Digits.write d.coefficient with
  | [] => tail
  | [c] => c :: tail
  | c :: cs => c :: '.' :: cs ++ tail

end Decimal

namespace Binary64

def signedText (negative : Bool) (magnitude : List Char) : List Char :=
  if negative then '-' :: magnitude else magnitude

/-- The texts of NaN and the infinities, which every form shares. -/
def textBy (form : Nat → List Char) : Binary64 → List Char
  | .nan => "NaN".toList
  | .infinite s => signedText s "inf".toList
  | .finite s n _ => signedText s (form n)

/-- The fewest digits that read back, without an exponent. -/
def toChars (a : Binary64) : List Char :=
  a.textBy fun n => if n = 0 then ['0'] else (Shortest.ofUnits n).positional

def text (a : Binary64) : String := String.ofList a.toChars

/-- A point always, and an exponent below ten to the power `smallest` and from ten to the power 16
on. -/
def pointText (smallest : Int) (a : Binary64) : List Char :=
  a.textBy fun n =>
    if n = 0 then "0.0".toList
    else if (ofDecimal false 1 smallest).ble (ofUnits false n 1) && n < tenTo 16 * unity then
      (Shortest.ofUnits n).positionalWithPoint
    else (Shortest.ofUnits n).scientific

/-- The form of the log, with a point from ten thousandths up. -/
def logText (a : Binary64) : String := String.ofList (a.pointText (-4))

/-- Exactly two places, the last one rounded to nearest with ties to even. -/
def hundredths (a : Binary64) : List Char :=
  a.textBy fun n =>
    let c := roundDiv (100 * n) unity
    Digits.write (c / 100) ++ '.' :: Digits.padded 2 (c % 100)

/-! ## Reading -/

def readExponent? : List Char → Option Int
  | '-' :: cs => if cs ≠ [] && cs.all Char.isDigit then some (-(Digits.value cs : Int)) else none
  | '+' :: cs => if cs ≠ [] && cs.all Char.isDigit then some (Digits.value cs : Int) else none
  | cs => if cs ≠ [] && cs.all Char.isDigit then some (Digits.value cs : Int) else none

/-- A number whose digits are `whole` and `fraction`, with what may follow them. -/
def readScaled? (negative : Bool) (whole fraction : List Char) : List Char → Option Binary64
  | [] => some (ofDecimal negative (Digits.value (whole ++ fraction)) (-fraction.length))
  | c :: cs =>
    if c = 'e' || c = 'E' then
      (readExponent? cs).map fun e =>
        ofDecimal negative (Digits.value (whole ++ fraction)) (e - fraction.length)
    else none

/-- A number without its sign; at least one digit stands before or behind the point. -/
def readMagnitude? (negative : Bool) (cs : List Char) : Option Binary64 :=
  let word := cs.map Char.toLower
  if word = "inf".toList || word = "infinity".toList then some (.infinite negative)
  else if word = "nan".toList then some .nan
  else
    match Digits.split cs with
    | (whole, '.' :: rest) =>
      match Digits.split rest with
      | (fraction, tail) =>
        if whole = [] && fraction = [] then none else readScaled? negative whole fraction tail
    | (whole, tail) => if whole = [] then none else readScaled? negative whole [] tail

def read? : List Char → Option Binary64
  | '-' :: cs => readMagnitude? true cs
  | '+' :: cs => readMagnitude? false cs
  | cs => readMagnitude? false cs

end Binary64

end PlaybackCues
