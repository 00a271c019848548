import PlaybackCues.Number.Powers

set_option autoImplicit false

/-!
# Rounding on the grid of double precision

A finite double is a whole number of units of two to the power -1074. Not every number of units
is one: at most 53 binary digits are significant, and the largest stays below `limit`. Here
quotients of natural numbers are rounded to that grid, a half going to the even neighbour.
`nearest_dvd` says that the result has at most 53 significant digits.
-/
namespace PlaybackCues

def unitDigits : Nat := 1074

def rangeDigits : Nat := 2098

/-- The units in the number one. -/
def unity : Nat := twoTo unitDigits

/-- No finite double reaches this many units. -/
def limit : Nat := twoTo rangeDigits

/-- The distance between neighbouring doubles around `n` units. -/
def spacing (n : Nat) : Nat := twoTo (n.log2 - 52)

/-- The numbers of units that a double holds exactly. -/
def Representable (n : Nat) : Prop := n < limit ∧ spacing n ∣ n

instance (n : Nat) : Decidable (Representable n) :=
  inferInstanceAs (Decidable (_ ∧ _))

theorem spacing_pos (n : Nat) : 0 < spacing n := twoTo_pos _

theorem limit_pos : 0 < limit := twoTo_pos rangeDigits

theorem unity_pos : 0 < unity := twoTo_pos unitDigits

theorem representable_zero : Representable 0 := ⟨limit_pos, Nat.dvd_zero _⟩

/-- The quotient to the nearest whole number; a half goes to the even neighbour. -/
def roundDiv (n d : Nat) : Nat :=
  if 2 * (n % d) < d ∨ (2 * (n % d) = d ∧ n / d % 2 = 0) then n / d else n / d + 1

theorem roundDiv_le_succ (n d : Nat) : roundDiv n d ≤ n / d + 1 := by
  unfold roundDiv
  split <;> omega

theorem le_roundDiv (n d : Nat) : n / d ≤ roundDiv n d := by
  unfold roundDiv
  split <;> omega

/-- The units nearest to the quotient of `n` by `d`, before any overflow is noticed. -/
def nearest (n d : Nat) : Nat :=
  roundDiv n (d * spacing (n / d)) * spacing (n / d)

theorem div_spacing_lt (q : Nat) : q / spacing q < twoTo 53 := by
  unfold spacing
  rw [Nat.div_lt_iff_lt_mul (twoTo_pos _), ← twoTo_add]
  exact Nat.lt_of_lt_of_le (lt_twoTo_succ_log2 q) (twoTo_le_twoTo (by omega))

theorem roundDiv_spacing_le (n d : Nat) : roundDiv n (d * spacing (n / d)) ≤ twoTo 53 := by
  have h := roundDiv_le_succ n (d * spacing (n / d))
  rw [← Nat.div_div_eq_div_mul] at h
  have := div_spacing_lt (n / d)
  omega

/-- Scaling by a power of two keeps a number of at most 53 digits on the grid. -/
theorem spacing_dvd_mul_twoTo (r k : Nat) (hr : r ≤ twoTo 53) :
    spacing (r * twoTo k) ∣ r * twoTo k := by
  by_cases hz : r = 0
  · simp [hz]
  by_cases he : r = twoTo 53
  · subst he
    rw [← twoTo_add]
    unfold spacing
    rw [log2_twoTo]
    exact twoTo_dvd_twoTo (by omega)
  · have hlt : r * twoTo k < twoTo (53 + k) := by
      rw [twoTo_add]
      exact Nat.mul_lt_mul_of_pos_right (by omega) (twoTo_pos k)
    have hne : r * twoTo k ≠ 0 := Nat.mul_ne_zero hz (Nat.pos_iff_ne_zero.mp (twoTo_pos k))
    have hlog := log2_lt_of_lt_twoTo hne hlt
    exact Nat.dvd_trans (twoTo_dvd_twoTo (by omega)) (Nat.dvd_mul_left _ _)

theorem nearest_dvd (n d : Nat) : spacing (nearest n d) ∣ nearest n d :=
  spacing_dvd_mul_twoTo _ _ (roundDiv_spacing_le n d)

theorem representable_nearest {n d : Nat} (h : nearest n d < limit) :
    Representable (nearest n d) :=
  ⟨h, nearest_dvd n d⟩

theorem roundDiv_mul_self {d : Nat} (hd : 0 < d) (q : Nat) : roundDiv (q * d) d = q := by
  unfold roundDiv
  rw [Nat.mul_mod_left, Nat.mul_div_cancel q hd]
  simp [hd]

/-- Rounding leaves a number that is on the grid where it is. -/
theorem nearest_one_of_dvd {n : Nat} (h : spacing n ∣ n) : nearest n 1 = n := by
  unfold nearest
  rw [Nat.div_one, Nat.one_mul]
  obtain ⟨q, hq⟩ := h
  have hs := spacing_pos n
  generalize spacing n = s at hq hs
  rw [hq, Nat.mul_comm s q, roundDiv_mul_self hs]

end PlaybackCues
