import PlaybackCues.Number.Binary64

set_option autoImplicit false

/-!
# The shortest decimal of a double

A decimal reads back as a double when it lies in the interval of reals that round to it, ends
included when the last binary digit is even. The search goes from coarse decimal grids to fine
ones and tests the two points of a grid around the value: the first grid with a hit has the
fewest digits, the nearer of two hits wins, and of two equally near ones the larger.
Bounds are counted in quarters of a unit.
-/
namespace PlaybackCues

/-- The number `coefficient` times ten to the power `exponent`. -/
structure Decimal where
  coefficient : Nat
  exponent : Int
  deriving DecidableEq, Repr

namespace Shortest

/-- The quarters between the value and the lower end of its interval: half as many just above a
power of two, where the doubles below lie closer together. -/
def lowerReach (n : Nat) : Nat :=
  if n = twoTo n.log2 ∧ 52 < n.log2 then spacing n else 2 * spacing n

def upperReach (n : Nat) : Nat := 2 * spacing n

/-- One step of the grid ten to the power `e`, in quarters of a unit, as a ratio. -/
def step (e : Int) : Nat × Nat :=
  if 0 ≤ e then (tenTo e.toNat * (4 * unity), 1) else (4 * unity, tenTo e.natAbs)

/-- The point `c` of the grid rounds to `n` units. -/
def readsBack (n c : Nat) (e : Int) : Bool :=
  let (num, den) := step e
  let low := (4 * n - lowerReach n) * den
  let high := (4 * n + upperReach n) * den
  if n / spacing n % 2 = 0 then low ≤ c * num && c * num ≤ high
  else low < c * num && c * num < high

/-- The last point of the grid that is not above `n` units. -/
def floorPoint (n : Nat) (e : Int) : Nat :=
  let (num, den) := step e
  4 * n * den / num

/-- The point `c` is strictly nearer to `n` units than the next one. -/
def nearerBelow (n c : Nat) (e : Int) : Bool :=
  let (num, den) := step e
  2 * (4 * n * den) < (2 * c + 1) * num

/-- The better of the two points around the value, if one of them reads back. -/
def onGrid? (n : Nat) (e : Int) : Option Decimal :=
  let c := floorPoint n e
  match readsBack n c e, readsBack n (c + 1) e with
  | true, true => some ⟨if nearerBelow n c e then c else c + 1, e⟩
  | true, false => some ⟨c, e⟩
  | false, true => some ⟨c + 1, e⟩
  | false, false => none

def search (n : Nat) : Nat → Int → Decimal
  | 0, e => ⟨floorPoint n e, e⟩
  | k + 1, e => (onGrid? n e).getD (search n k (e - 1))

/-- How often a value below one is multiplied by ten until it reaches one. -/
def zerosBehindPoint : Nat → Nat → Nat
  | 0, _ => 0
  | k + 1, n => if unity ≤ n then 0 else 1 + zerosBehindPoint k (10 * n)

/-- The exponent of the leading decimal digit. -/
def magnitude (n : Nat) : Int :=
  if unity ≤ n then ((Nat.toDigits 10 (n / unity)).length : Int) - 1
  else -(zerosBehindPoint 324 n : Int)

/-- The shortest decimal that reads back as `n` units. Seventeen digits always suffice. -/
def ofUnits (n : Nat) : Decimal := search n 18 (magnitude n + 1)

end Shortest

end PlaybackCues
