import PlaybackCues.Number.Rounding

set_option autoImplicit false

/-!
# Double-precision numbers

Media times, rates and recorded values are IEEE doubles. A finite one is a sign and a number of
units, and the proof that the units lie on the grid is part of it. Each operation works out the
exact result and rounds it once, so a statement about doubles is a statement about integers.

`position` is the order: it puts every number that is not NaN on the integer line, the
infinities at the first places that no finite number reaches. Comparisons with NaN are false.
-/
namespace PlaybackCues

inductive Binary64 where
  | nan
  | infinite (negative : Bool)
  | finite (negative : Bool) (units : Nat) (exact : Representable units)
  deriving DecidableEq

namespace Binary64

def ofUnits (negative : Bool) (n d : Nat) : Binary64 :=
  if h : nearest n d < limit then .finite negative (nearest n d) (representable_nearest h)
  else .infinite negative

def signed (negative : Bool) (units : Nat) : Int := if negative then -units else units

/-- The double nearest to a whole number of units, where `zeroSign` is the sign of a zero. -/
def ofSigned (zeroSign : Bool) (z : Int) : Binary64 :=
  ofUnits (if z = 0 then zeroSign else z < 0) z.natAbs 1

def ofNat (n : Nat) : Binary64 := ofUnits false (n * unity) 1

def ofInt (z : Int) : Binary64 := ofUnits (z < 0) (z.natAbs * unity) 1

/-- The double nearest to `coefficient` times ten to the power `exponent`. Exponents far beyond
the range are settled without computing the power. -/
def ofDecimal (negative : Bool) (coefficient : Nat) (exponent : Int) : Binary64 :=
  if coefficient = 0 then ofUnits negative 0 1
  else if 310 < exponent then .infinite negative
  else if 0 ≤ exponent then ofUnits negative (coefficient * tenTo exponent.toNat * unity) 1
  else if coefficient.log2 + 1080 < 3 * exponent.natAbs then ofUnits negative 0 1
  else ofUnits negative (coefficient * unity) (tenTo exponent.natAbs)

instance (n : Nat) : OfNat Binary64 n := ⟨ofNat n⟩

instance : OfScientific Binary64 :=
  ⟨fun m sign e => ofDecimal false m (if sign then -(e : Int) else e)⟩

instance : Inhabited Binary64 := ⟨0⟩

/-! ## Arithmetic -/

def neg : Binary64 → Binary64
  | .nan => .nan
  | .infinite s => .infinite !s
  | .finite s n h => .finite (!s) n h

def abs : Binary64 → Binary64
  | .nan => .nan
  | .infinite _ => .infinite false
  | .finite _ n h => .finite false n h

def add : Binary64 → Binary64 → Binary64
  | .nan, _ => .nan
  | _, .nan => .nan
  | .infinite s, .infinite t => if s = t then .infinite s else .nan
  | .infinite s, .finite _ _ _ => .infinite s
  | .finite _ _ _, .infinite t => .infinite t
  | .finite s m _, .finite t n _ => ofSigned (s && t) (signed s m + signed t n)

def sub (a b : Binary64) : Binary64 := add a (neg b)

def mul : Binary64 → Binary64 → Binary64
  | .nan, _ => .nan
  | _, .nan => .nan
  | .infinite s, .infinite t => .infinite (s != t)
  | .infinite s, .finite t n _ => if n = 0 then .nan else .infinite (s != t)
  | .finite s m _, .infinite t => if m = 0 then .nan else .infinite (s != t)
  | .finite s m _, .finite t n _ => ofUnits (s != t) (m * n) unity

def div : Binary64 → Binary64 → Binary64
  | .nan, _ => .nan
  | _, .nan => .nan
  | .infinite _, .infinite _ => .nan
  | .infinite s, .finite t _ _ => .infinite (s != t)
  | .finite s _ _, .infinite t => ofUnits (s != t) 0 1
  | .finite s m _, .finite t n _ =>
    if n = 0 then (if m = 0 then .nan else .infinite (s != t))
    else ofUnits (s != t) (m * unity) n

instance : Neg Binary64 := ⟨neg⟩
instance : Add Binary64 := ⟨add⟩
instance : Sub Binary64 := ⟨sub⟩
instance : Mul Binary64 := ⟨mul⟩
instance : Div Binary64 := ⟨div⟩

/-! ## Order -/

def position : Binary64 → Option Int
  | .nan => none
  | .infinite s => some (signed s limit)
  | .finite s n _ => some (signed s n)

def ble (a b : Binary64) : Bool :=
  match a.position, b.position with
  | some x, some y => x ≤ y
  | _, _ => false

def blt (a b : Binary64) : Bool :=
  match a.position, b.position with
  | some x, some y => x < y
  | _, _ => false

instance : LE Binary64 := ⟨fun a b => a.ble b = true⟩
instance : LT Binary64 := ⟨fun a b => a.blt b = true⟩
instance (a b : Binary64) : Decidable (a ≤ b) := inferInstanceAs (Decidable (a.ble b = true))
instance (a b : Binary64) : Decidable (a < b) := inferInstanceAs (Decidable (a.blt b = true))

def isNaN : Binary64 → Bool
  | .nan => true
  | _ => false

def isFinite : Binary64 → Bool
  | .finite _ _ _ => true
  | _ => false

theorem le_iff {a b : Binary64} :
    a ≤ b ↔ ∃ x y, a.position = some x ∧ b.position = some y ∧ x ≤ y := by
  show a.ble b = true ↔ _
  unfold ble
  cases a.position <;> cases b.position <;> simp

theorem lt_iff {a b : Binary64} :
    a < b ↔ ∃ x y, a.position = some x ∧ b.position = some y ∧ x < y := by
  show a.blt b = true ↔ _
  unfold blt
  cases a.position <;> cases b.position <;> simp

/-- The larger of two numbers; NaN gives way to the other. -/
def max (a b : Binary64) : Binary64 :=
  if a.isNaN then b else if b.isNaN then a else if b < a then a else b

/-- The smaller of two numbers; NaN gives way to the other. -/
def min (a b : Binary64) : Binary64 :=
  if a.isNaN then b else if b.isNaN then a else if b < a then b else a

/-- The nearest number between the bounds; NaN stays what it is. -/
def clamp (a low high : Binary64) : Binary64 :=
  let raised := if a < low then low else a
  if high < raised then high else raised

def within (a low high : Binary64) : Bool := low ≤ a && a ≤ high

/-! ## Whole numbers -/

/-- The nearest whole number; a half goes away from zero. -/
def round : Binary64 → Binary64
  | .finite s n _ => ofUnits s ((2 * n + unity) / (2 * unity) * unity) 1
  | a => a

/-- The whole part, kept between zero and `top`; NaN counts as zero. -/
def toNatClamped (top : Nat) : Binary64 → Nat
  | .nan => 0
  | .infinite negative => if negative then 0 else top
  | .finite negative n _ => if negative then 0 else Nat.min (n / unity) top

end Binary64

abbrev Seconds := Binary64

end PlaybackCues
