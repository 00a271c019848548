import Mathlib.Tactic.Ring
import PlaybackCues.Proofs.Number.Order

set_option autoImplicit false

/-!
# Fractions with a small denominator

Times are kept in thousandths and rates in hundredths. Such a number is a whole number divided by
a small one and rounded once. The division, and the multiplication that undoes it, are exact up to
one part in two to the power 53, so rounding to the fractions of a denominator gives each of them
back, and they are in the order of their numerators. `parts` is the numerator that a double is
rounded to.
-/
namespace PlaybackCues

/-! ## The error of one rounding -/

theorem roundDiv_error {n d : Nat} (hd : 0 < d) :
    2 * (roundDiv n d * d) ≤ 2 * n + d ∧ 2 * n ≤ 2 * (roundDiv n d * d) + d := by
  have hdiv := Nat.div_add_mod n d
  have hmod := Nat.mod_lt n hd
  rw [Nat.mul_comm] at hdiv
  unfold roundDiv
  split
  · omega
  · rw [Nat.add_mul, Nat.one_mul]
    omega

/-- A rounded quotient is off by at most half the distance of neighbouring doubles. -/
theorem nearest_error {n d : Nat} (hd : 0 < d) :
    2 * (nearest n d * d) ≤ 2 * n + d * spacing (n / d) ∧
      2 * n ≤ 2 * (nearest n d * d) + d * spacing (n / d) := by
  have h := roundDiv_error (n := n) (Nat.mul_pos hd (spacing_pos (n / d)))
  have heq : nearest n d * d = roundDiv n (d * spacing (n / d)) * (d * spacing (n / d)) := by
    rw [nearest, Nat.mul_assoc, Nat.mul_comm (spacing _) d]
  rwa [heq]

/-- What is less than half a unit away from a whole number is rounded to it. -/
theorem roundDiv_eq {n d k : Nat} (hupper : 2 * n < 2 * (k * d) + d)
    (hlower : 2 * (k * d) < 2 * n + d) : roundDiv n d = k := by
  have hd : 0 < d := by omega
  obtain ⟨hle, hge⟩ := roundDiv_error (n := n) hd
  have hlt {a b : Nat} (h : a < b) : a * d + d ≤ b * d := by
    rw [← Nat.succ_mul]
    exact Nat.mul_le_mul_right d h
  rcases Nat.lt_trichotomy (roundDiv n d) k with h | h | h
  · have := hlt h
    omega
  · exact h
  · have := hlt h
    omega

theorem roundDiv_mul_right {n d k : Nat} (hk : 0 < k) :
    roundDiv (n * k) (d * k) = roundDiv n d := by
  have hlt : 2 * (n % d * k) < d * k ↔ 2 * (n % d) < d := by
    rw [← Nat.mul_assoc]
    exact Nat.mul_lt_mul_right hk
  have heq : 2 * (n % d * k) = d * k ↔ 2 * (n % d) = d := by
    rw [← Nat.mul_assoc]
    exact Nat.mul_left_inj (Nat.pos_iff_ne_zero.mp hk)
  unfold roundDiv
  rw [Nat.mul_mod_mul_right, Nat.mul_div_mul_right _ _ hk]
  simp only [hlt, heq]

/-- A factor that the two numbers of a quotient have in common cancels. -/
theorem nearest_mul_right {n d k : Nat} (hk : 0 < k) : nearest (n * k) (d * k) = nearest n d := by
  unfold nearest
  rw [Nat.mul_div_mul_right _ _ hk, Nat.mul_right_comm, roundDiv_mul_right hk]

theorem spacing_le {x bound : Nat} (hx : x ≤ bound) (hb : twoTo 52 ≤ bound) :
    twoTo 52 * spacing x ≤ bound := by
  unfold spacing
  by_cases hl : 52 ≤ x.log2
  · have hne : x ≠ 0 := by
      rintro rfl
      simp at hl
    rw [← twoTo_add, Nat.add_sub_cancel' hl]
    exact Nat.le_trans (Nat.log2_self_le hne) hx
  · rw [Nat.sub_eq_zero_of_le (by omega)]
    exact hb

/-! ## Whole numbers -/

theorem twoTo_lt_twoTo {j k : Nat} (h : j < k) : twoTo j < twoTo k :=
  Nat.pow_lt_pow_right (by decide) h

/-- Numbers of units of at most thirty digits in front of the point are within the range. -/
theorem lt_limit {q : Nat} (h : q ≤ twoTo 30 * unity) : q < limit := by
  have hpow : twoTo (30 + unitDigits) < twoTo rangeDigits := twoTo_lt_twoTo (by decide)
  unfold unity at h
  rw [← twoTo_add] at h
  unfold limit
  exact Nat.lt_of_le_of_lt h hpow

theorem whole_le_unity : twoTo 30 * twoTo 52 ≤ unity := by
  have hle : twoTo (30 + 52) ≤ twoTo unitDigits := twoTo_le_twoTo (by decide)
  rw [twoTo_add] at hle
  unfold unity
  exact hle

theorem nearest_whole {n : Nat} (hn : n ≤ twoTo 30) : nearest (n * unity) 1 = n * unity := by
  have h53 : n ≤ twoTo 53 := Nat.le_trans hn (twoTo_le_twoTo (by decide))
  exact nearest_one_of_dvd (spacing_dvd_mul_twoTo n unitDigits h53)

theorem nearest_le_whole {x n : Nat} (hn : n ≤ twoTo 30) (h : x ≤ n * unity) :
    nearest x 1 ≤ n * unity :=
  nearest_whole hn ▸ nearest_mono h

/-- A sum that is not too large is off by less than a millionth when it is rounded. -/
theorem nearest_sum_error {n : Nat} (h : n ≤ twoTo 30 * unity) :
    1000000 * nearest n 1 ≤ 1000000 * n + unity ∧
      1000000 * n ≤ 1000000 * nearest n 1 + unity := by
  obtain ⟨hupper, hlower⟩ := nearest_error (n := n) Nat.one_pos
  have hbound : twoTo 52 ≤ twoTo 30 * unity :=
    Nat.le_trans (Nat.le_trans (Nat.le_mul_of_pos_left _ (twoTo_pos 30)) whole_le_unity)
      (Nat.le_mul_of_pos_left _ (twoTo_pos 30))
  have hspace := spacing_le h hbound
  have h52 : twoTo 52 = 4503599627370496 := rfl
  have h30 : twoTo 30 = 1073741824 := rfl
  rw [Nat.div_one, Nat.one_mul, Nat.mul_one] at hupper hlower
  rw [h52, h30] at hspace
  omega

namespace Binary64

theorem rounded_error {z : Int} (h0 : 0 ≤ z) (h : z ≤ (twoTo 30 * unity : Nat)) :
    1000000 * rounded z ≤ 1000000 * z + unity ∧ 1000000 * z ≤ 1000000 * rounded z + unity ∧
      (rounded z).natAbs < limit := by
  obtain ⟨n, rfl⟩ := Int.eq_ofNat_of_zero_le h0
  have hn : n ≤ twoTo 30 * unity := by omega
  obtain ⟨hupper, hlower⟩ := nearest_sum_error hn
  have hlim := lt_limit (nearest_le_whole (Nat.le_refl _) hn)
  have hneg : ¬ ((n : Int) < 0) := by omega
  have hrounded : rounded (n : Int) = (nearest n 1 : Nat) := by
    rw [rounded, decide_eq_false hneg, signed_false, Int.natAbs_natCast,
      Nat.min_eq_left (Nat.le_of_lt hlim)]
  rw [hrounded, Int.natAbs_natCast]
  exact ⟨by omega, by omega, hlim⟩

theorem ofUnits_of_lt (negative : Bool) {n d : Nat} (h : nearest n d < limit) :
    ofUnits negative n d = finite negative (nearest n d) (representable_nearest h) := dif_pos h

theorem ofUnits_of_not_lt (negative : Bool) {n d : Nat} (h : ¬ nearest n d < limit) :
    ofUnits negative n d = infinite negative := by
  unfold ofUnits
  rw [dif_neg h]

theorem ofUnits_of_dvd (negative : Bool) {u : Nat} (hdvd : spacing u ∣ u) (hlim : u < limit) :
    ofUnits negative u 1 = finite negative u ⟨hlim, hdvd⟩ := by
  unfold ofUnits
  simp only [nearest_one_of_dvd hdvd, dif_pos hlim]

theorem ofUnits_mul_right (negative : Bool) {n d k : Nat} (hk : 0 < k) :
    ofUnits negative (n * k) (d * k) = ofUnits negative n d := by
  unfold ofUnits
  simp only [nearest_mul_right hk]

theorem mul_finite (s t : Bool) {m n : Nat} (hm : Representable m) (hn : Representable n) :
    finite s m hm * finite t n hn = ofUnits (s != t) (m * n) unity := by
  change mul _ _ = _
  simp only [mul]

theorem div_finite (s t : Bool) {m n : Nat} (hm : Representable m) (hn : Representable n)
    (h : n ≠ 0) : finite s m hm / finite t n hn = ofUnits (s != t) (m * unity) n := by
  change div _ _ = _
  simp only [div, if_neg h]

theorem round_finite (s : Bool) {n : Nat} (hn : Representable n) :
    (finite s n hn).round = ofUnits s ((2 * n + unity) / (2 * unity) * unity) 1 := by
  simp only [round]

theorem ofNat_eq {n : Nat} (hn : n ≤ twoTo 30) : ∃ h, ofNat n = finite false (n * unity) h := by
  have hdvd : spacing (n * unity) ∣ n * unity := by
    unfold unity
    exact spacing_dvd_mul_twoTo n unitDigits (Nat.le_trans hn (twoTo_le_twoTo (by decide)))
  have hlim : n * unity < limit := lt_limit (Nat.mul_le_mul_right unity hn)
  exact ⟨⟨hlim, hdvd⟩, ofUnits_of_dvd false hdvd hlim⟩

theorem isFinite_ofNat {n : Nat} (hn : n ≤ twoTo 30) : (ofNat n).isFinite = true := by
  obtain ⟨_, heq⟩ := ofNat_eq hn
  rw [heq]
  rfl

theorem units_ofNat {n : Nat} (hn : n ≤ twoTo 30) : (ofNat n).units = (n * unity : Nat) := by
  obtain ⟨_, heq⟩ := ofNat_eq hn
  rw [heq, units_finite, signed_false]

/-! ## Fractions -/

def fraction (k g : Nat) : Binary64 := ofNat k / ofNat g

section Fractions

variable {k g : Nat}

/-- A rounded fraction is off by at most a millionth, if its numerator is not too large. -/
theorem fraction_error (hk : k ≤ twoTo 29) (hg : 0 < g) (hg1 : g ≤ twoTo 30) :
    1000000 * (g * nearest (k * unity) g) ≤ 1000000 * (k * unity) + unity ∧
      1000000 * (k * unity) ≤ 1000000 * (g * nearest (k * unity) g) + unity := by
  obtain ⟨hupper, hlower⟩ := nearest_error (n := k * unity) hg
  have hspace := Nat.mul_le_mul_left g
    (spacing_le (Nat.le_add_right (k * unity / g) (twoTo 52)) (Nat.le_add_left _ _))
  have hdiv := Nat.mul_div_le (k * unity) g
  have hg52 : g * twoTo 52 ≤ unity :=
    Nat.le_trans (Nat.mul_le_mul_right _ hg1) whole_le_unity
  have hk29 := Nat.mul_le_mul_right unity hk
  have h52 : twoTo 52 = 4503599627370496 := rfl
  have h29 : twoTo 29 = 536870912 := rfl
  rw [Nat.mul_left_comm, Nat.mul_add] at hspace
  rw [Nat.mul_comm (nearest _ _)] at hupper hlower
  rw [h52] at hspace hg52
  rw [h29] at hk29
  omega

theorem fraction_eq_ofUnits (hk : k ≤ twoTo 30) (hg : 0 < g) (hg1 : g ≤ twoTo 30) :
    fraction k g = ofUnits false (k * unity) g := by
  obtain ⟨hu, hnat⟩ := ofNat_eq hk
  obtain ⟨ht, hden⟩ := ofNat_eq (n := g) hg1
  have hne : g * unity ≠ 0 :=
    Nat.mul_ne_zero (Nat.pos_iff_ne_zero.mp hg) (Nat.pos_iff_ne_zero.mp unity_pos)
  unfold fraction
  rw [hnat, hden, div_finite _ _ _ _ hne, bne_self_eq_false, ofUnits_mul_right _ unity_pos]

theorem fraction_eq (hk : k ≤ twoTo 29) (hg : 0 < g) (hg1 : g ≤ twoTo 30) :
    ∃ h, fraction k g = .finite false (nearest (k * unity) g) h := by
  have hdiv := fraction_eq_ofUnits (Nat.le_trans hk (twoTo_le_twoTo (by decide))) hg hg1
  have hlim : nearest (k * unity) g < limit := by
    obtain ⟨hupper, _⟩ := fraction_error hk hg hg1
    have hself : nearest (k * unity) g ≤ g * nearest (k * unity) g := Nat.le_mul_of_pos_left _ hg
    have hk29 := Nat.mul_le_mul_right unity hk
    have h29 : twoTo 29 = 536870912 := rfl
    have h30 : twoTo 30 = 1073741824 := rfl
    refine lt_limit ?_
    rw [h29] at hk29
    rw [h30]
    omega
  exact ⟨representable_nearest hlim, hdiv.trans (ofUnits_of_lt false hlim)⟩

theorem isFinite_fraction (hk : k ≤ twoTo 29) (hg : 0 < g) (hg1 : g ≤ twoTo 30) :
    (fraction k g).isFinite = true := by
  obtain ⟨_, heq⟩ := fraction_eq hk hg hg1
  rw [heq]
  rfl

theorem units_fraction (hk : k ≤ twoTo 29) (hg : 0 < g) (hg1 : g ≤ twoTo 30) :
    (fraction k g).units = nearest (k * unity) g := by
  obtain ⟨_, heq⟩ := fraction_eq hk hg hg1
  rw [heq, units_finite, signed_false]

theorem not_fraction_lt_zero (hk : k ≤ twoTo 29) (hg : 0 < g) (hg1 : g ≤ twoTo 30) :
    ¬ fraction k g < 0 := by
  rw [lt_iff_units (isFinite_fraction hk hg hg1) isFinite_zero, units_fraction hk hg hg1, units_zero]
  omega

theorem nearest_lt_nearest {j : Nat} (hk : k ≤ twoTo 29) (hg : 0 < g) (hg1 : g ≤ twoTo 30)
    (h : j < k) : nearest (j * unity) g < nearest (k * unity) g := by
  obtain ⟨hupper, _⟩ := fraction_error (Nat.le_trans (Nat.le_of_lt h) hk) hg hg1
  obtain ⟨_, hlower⟩ := fraction_error hk hg hg1
  have hstep : j * unity + unity ≤ k * unity := by
    rw [← Nat.succ_mul]
    exact Nat.mul_le_mul_right unity h
  have hu := unity_pos
  refine Nat.lt_of_mul_lt_mul_left (a := g) ?_
  omega

/-- Fractions of one denominator are in the order of their numerators. -/
theorem fraction_lt_iff {j : Nat} (hj : j ≤ twoTo 29) (hk : k ≤ twoTo 29) (hg : 0 < g)
    (hg1 : g ≤ twoTo 30) : fraction j g < fraction k g ↔ j < k := by
  rw [lt_iff_units (isFinite_fraction hj hg hg1) (isFinite_fraction hk hg hg1),
    units_fraction hj hg hg1, units_fraction hk hg hg1, Int.ofNat_lt]
  constructor
  · intro h
    by_contra hle
    have := nearest_mono (d := g) (Nat.mul_le_mul_right unity (Nat.le_of_not_lt hle))
    omega
  · exact nearest_lt_nearest hk hg hg1

theorem infinite_div_finite (s t : Bool) {n : Nat} (hn : Representable n) :
    infinite s / finite t n hn = infinite (s != t) := by
  change div _ _ = _
  simp only [div]

theorem position_fraction (k : Nat) (hg : 0 < g) (hg1 : g ≤ twoTo 30) :
    (fraction k g).position = some (((if nearest (k * unity) 1 < limit then
      Min.min (nearest (nearest (k * unity) 1) g) limit else limit : Nat)) : Int) := by
  obtain ⟨hd, hden⟩ := ofNat_eq (n := g) hg1
  have hne : g * unity ≠ 0 :=
    Nat.mul_ne_zero (Nat.pos_iff_ne_zero.mp hg) (Nat.pos_iff_ne_zero.mp unity_pos)
  unfold fraction
  rw [hden]
  by_cases h : nearest (k * unity) 1 < limit
  · have hnat : ofNat k = finite false (nearest (k * unity) 1) _ := ofUnits_of_lt false h
    rw [hnat, div_finite _ _ _ _ hne, bne_self_eq_false, ofUnits_mul_right _ unity_pos,
      position_ofUnits, if_pos h, signed_false]
  · have hnat : ofNat k = infinite false := ofUnits_of_not_lt false h
    rw [hnat, if_neg h, infinite_div_finite, bne_self_eq_false]
    simp only [position, signed_false]

/-- However large they are, fractions of one denominator do not get smaller as their numerators
grow. -/
theorem fraction_mono {j : Nat} (hg : 0 < g) (hg1 : g ≤ twoTo 30) (h : j ≤ k) :
    fraction j g ≤ fraction k g := by
  have hle := nearest_mono (d := 1) (Nat.mul_le_mul_right unity h)
  refine le_of_position (position_fraction j hg hg1) (position_fraction k hg hg1) ?_
  have hnext := nearest_mono (d := g) hle
  clear hg1
  split
  · split <;> omega
  · rw [if_neg (by omega)]

/-! ## The nearest fraction -/

/-- The whole number of parts nearest to `m` units, where `g` parts make one; a half goes up. -/
def parts (g m : Nat) : Nat := (2 * nearest (g * m) 1 + unity) / (2 * unity)

theorem parts_mono {m n : Nat} (h : m ≤ n) : parts g m ≤ parts g n := by
  have := nearest_mono (d := 1) (Nat.mul_le_mul_left g h)
  exact Nat.div_le_div_right (by omega)

theorem parts_le {m n : Nat} (hn : n ≤ twoTo 30) (h : g * m ≤ n * unity) : parts g m ≤ n := by
  have hle := nearest_le_whole hn h
  have hu := unity_pos
  have hsucc : (n + 1) * (2 * unity) = 2 * (n * unity) + 2 * unity := by ring
  refine Nat.le_of_lt_add_one ((Nat.div_lt_iff_lt_mul (by omega)).mpr ?_)
  rw [hsucc]
  omega

theorem le_parts {m n : Nat} (hn : n ≤ twoTo 30) (h : n * unity ≤ g * m) : n ≤ parts g m := by
  have hle : nearest (n * unity) 1 ≤ nearest (g * m) 1 := nearest_mono h
  rw [nearest_whole hn] at hle
  have hu := unity_pos
  have hdouble : n * (2 * unity) = 2 * (n * unity) := by ring
  rw [parts, Nat.le_div_iff_mul_le (by omega), hdouble]
  omega

theorem spacing_mono {m n : Nat} (h : m ≤ n) : spacing m ∣ spacing n :=
  twoTo_dvd_twoTo (Nat.sub_le_sub_right (log2_mono h) 52)

/-- What lies more than one part further is rounded to a greater numerator. -/
theorem parts_lt {m n : Nat} (hlt : g * m + unity < g * n) (hm : parts g m ≤ twoTo 30) :
    parts g m < parts g n := by
  -- the rounded products are compared at the half between the two numerators, which is a double
  have hdvd (j : Nat) (hj : j ≤ twoTo 53) := spacing_dvd_mul_twoTo j 1073 hj
  have hh : unity = twoTo 1073 * twoTo 1 := twoTo_add 1073 1
  rw [show twoTo 1 = 2 from rfl] at hh
  generalize twoTo 1073 = h at hdvd hh
  have hpos := unity_pos
  have h30 : twoTo 30 = 1073741824 := rfl
  have h53 : twoTo 53 = 9007199254740992 := rfl
  generalize hk : parts g m = k at hm ⊢
  have hhalf := hdvd (2 * k + 1) (by omega)
  have hlow : 2 * (k * unity) ≤ 2 * nearest (g * m) 1 + unity := by
    have := Nat.div_mul_le_self (2 * nearest (g * m) 1 + unity) (2 * unity)
    change parts g m * (2 * unity) ≤ _ at this
    rw [hk] at this
    calc
      2 * (k * unity) = k * (2 * unity) := by ring
      _ ≤ _ := this
  have hkh : k * unity = 2 * (k * h) := by rw [hh]; ring
  have hexp : (2 * k + 1) * h = 2 * (k * h) + h := by ring
  have hgoal : (2 * k + 1) * h ≤ nearest (g * n) 1 := by
    by_contra hshort
    have hy : g * n < (2 * k + 1) * h := by
      by_contra hge
      have := nearest_mono (d := 1) (Nat.le_of_not_lt hge)
      rw [nearest_one_of_dvd hhalf] at this
      exact hshort this
    obtain ⟨hupper, _⟩ := nearest_error (n := g * m) Nat.one_pos
    obtain ⟨_, hlower⟩ := nearest_error (n := g * n) Nat.one_pos
    rw [Nat.div_one, Nat.one_mul, Nat.mul_one] at hupper hlower
    have hmn : spacing (g * m) ≤ spacing (g * n) :=
      Nat.le_of_dvd (spacing_pos _) (spacing_mono (by omega))
    have hgrid : spacing (g * n) ∣ nearest (g * n) 1 := by
      unfold nearest
      rw [Nat.div_one]
      exact Nat.dvd_mul_left _ _
    have hgrid' : spacing (g * n) ∣ (2 * k + 1) * h :=
      Nat.dvd_trans (spacing_mono (Nat.le_of_lt hy)) hhalf
    have hstep := Nat.le_of_dvd (by omega) (Nat.dvd_sub hgrid' hgrid)
    omega
  have hsucc : (k + 1) * (2 * unity) = 2 * (k * unity) + 2 * unity := by ring
  refine (Nat.le_div_iff_mul_le (by omega)).mpr ?_
  rw [hsucc]
  omega

/-- What is about a fraction is rounded to its numerator. -/
theorem parts_eq {q : Nat} (hk : k ≤ twoTo 29)
    (hupper : 1000000 * (g * q) ≤ 1000000 * (k * unity) + unity)
    (hlower : 1000000 * (k * unity) ≤ 1000000 * (g * q) + unity) : parts g q = k := by
  have hk29 := Nat.mul_le_mul_right unity hk
  have hu := whole_le_unity
  have h30 : twoTo 30 = 1073741824 := rfl
  obtain ⟨hmul, hmul'⟩ := nearest_error (n := g * q) Nat.one_pos
  have hspace := spacing_le (Nat.le_add_right (g * q) (twoTo 52)) (Nat.le_add_left _ _)
  have h52 : twoTo 52 = 4503599627370496 := rfl
  have h29 : twoTo 29 = 536870912 := rfl
  have hcomm : k * (2 * unity) = 2 * (k * unity) := by ring
  have hsucc : (k + 1) * (2 * unity) = 2 * (k * unity) + 2 * unity := by ring
  rw [Nat.div_one, Nat.one_mul, Nat.mul_one] at hmul hmul'
  rw [h52] at hspace hu
  rw [h30] at hu
  rw [h29] at hk29
  refine Nat.div_eq_of_lt_le ?_ ?_
  · rw [hcomm]
    omega
  · rw [hsucc]
    omega

theorem parts_fraction (hk : k ≤ twoTo 29) (hg : 0 < g) (hg1 : g ≤ twoTo 30) :
    parts g (nearest (k * unity) g) = k :=
  have h := fraction_error hk hg hg1
  parts_eq hk h.1 h.2

theorem mul_ofNat (s : Bool) {m : Nat} (hm : Representable m) (hg1 : g ≤ twoTo 30) :
    finite s m hm * ofNat g = ofUnits s (g * m) 1 := by
  obtain ⟨_, hden⟩ := ofNat_eq (n := g) hg1
  have h := ofUnits_mul_right s (n := m * g) (d := 1) unity_pos
  rw [Nat.one_mul] at h
  rw [hden, mul_finite, Bool.bne_false, ← Nat.mul_assoc, h, Nat.mul_comm]

/-- Rounding to the parts of a denominator, up to the division. -/
theorem round_mul_ofNat (s : Bool) {m : Nat} (hm : Representable m) (hg1 : g ≤ twoTo 30)
    (hlim : nearest (g * m) 1 < limit) :
    (finite s m hm * ofNat g).round = ofUnits s (parts g m * unity) 1 := by
  rw [mul_ofNat s hm hg1, ofUnits_of_lt s hlim, round_finite]
  rfl

/-- A number that does not get too large is rounded to the fraction of its parts. -/
theorem round_div_of_lt {m : Nat} (hm : Representable m) (hg1 : g ≤ twoTo 30)
    (hlim : nearest (g * m) 1 < limit) :
    (finite false m hm * ofNat g).round / ofNat g = fraction (parts g m) g := by
  rw [round_mul_ofNat false hm hg1 hlim]
  rfl

theorem round_mul_of_not_lt {m : Nat} (hm : Representable m) (hg1 : g ≤ twoTo 30)
    (hlim : ¬ nearest (g * m) 1 < limit) :
    (finite false m hm * ofNat g).round = infinite false := by
  rw [mul_ofNat false hm hg1, ofUnits_of_not_lt false hlim]
  rfl

theorem round_div_of_not_lt {m : Nat} (hm : Representable m) (hg1 : g ≤ twoTo 30)
    (hlim : ¬ nearest (g * m) 1 < limit) :
    (finite false m hm * ofNat g).round / ofNat g = infinite false := by
  obtain ⟨_, hden⟩ := ofNat_eq (n := g) hg1
  rw [round_mul_of_not_lt hm hg1 hlim, hden, infinite_div_finite]
  rfl

/-- Only a finite number is rounded to a finite one. -/
theorem isFinite_of_round_div {a : Binary64} (hg1 : g ≤ twoTo 30)
    (h : ((a * ofNat g).round / ofNat g).isFinite = true) : a.isFinite = true := by
  cases a with
  | nan => cases h
  | infinite s =>
    obtain ⟨_, hden⟩ := ofNat_eq (n := g) hg1
    have hmul {n : Nat} (hn : Representable n) : infinite s * finite false n hn =
        if n = 0 then nan else infinite (s != false) := rfl
    rw [hden, hmul] at h
    split at h <;> cases h
  | finite s n hn => rfl

theorem round_fraction_mul (hk : k ≤ twoTo 29) (hg : 0 < g) (hg1 : g ≤ twoTo 30) :
    (fraction k g * ofNat g).round = ofNat k := by
  obtain ⟨hq, heq⟩ := fraction_eq hk hg hg1
  have hle : g * nearest (k * unity) g ≤ twoTo 30 * unity := by
    obtain ⟨hupper, _⟩ := fraction_error hk hg hg1
    have hk29 := Nat.mul_le_mul_right unity hk
    have h29 : twoTo 29 = 536870912 := rfl
    have h30 : twoTo 30 = 1073741824 := rfl
    rw [h29] at hk29
    rw [h30]
    omega
  have hlim := lt_limit (nearest_le_whole (Nat.le_refl _) hle)
  rw [heq, round_mul_ofNat false hq hg1 hlim, parts_fraction hk hg hg1]
  rfl

/-- Rounding to the fractions of a denominator does not change one of them. -/
theorem round_fraction (hk : k ≤ twoTo 29) (hg : 0 < g) (hg1 : g ≤ twoTo 30) :
    (fraction k g * ofNat g).round / ofNat g = fraction k g := by
  rw [round_fraction_mul hk hg hg1]
  rfl

end Fractions

/-! ## Signs -/

def sign? : Binary64 → Option Bool
  | .nan => none
  | .infinite s => some s
  | .finite s _ _ => some s

theorem ofUnits_cases (s : Bool) (n d : Nat) :
    (∃ k h, ofUnits s n d = finite s k h) ∨ ofUnits s n d = infinite s := by
  unfold ofUnits
  split
  · rename_i h
    exact .inl ⟨_, representable_nearest h, rfl⟩
  · exact .inr rfl

theorem sign?_ofUnits (s : Bool) (n d : Nat) : (ofUnits s n d).sign? = some s := by
  rcases ofUnits_cases s n d with ⟨k, h, heq⟩ | heq <;> rw [heq] <;> rfl

/-- Rounding to the fractions of a denominator keeps the sign. -/
theorem sign?_round_div {g : Nat} (s : Bool) {m : Nat} (hm : Representable m) (hg : 0 < g)
    (hg1 : g ≤ twoTo 30) : ((finite s m hm * ofNat g).round / ofNat g).sign? = some s := by
  obtain ⟨_, hden⟩ := ofNat_eq (n := g) hg1
  have hne : g * unity ≠ 0 :=
    Nat.mul_ne_zero (Nat.pos_iff_ne_zero.mp hg) (Nat.pos_iff_ne_zero.mp unity_pos)
  have hfinite {k : Nat} (hk : Representable k) : (finite s k hk / ofNat g).sign? = some s := by
    rw [hden, div_finite _ _ _ _ hne, sign?_ofUnits, Bool.bne_false]
  have hinfinite : ((infinite s : Binary64) / ofNat g).sign? = some s := by
    rw [hden, infinite_div_finite, Bool.bne_false]
    rfl
  rw [mul_ofNat s hm hg1]
  rcases ofUnits_cases s (g * m) 1 with ⟨k, hk, heq⟩ | heq
  · rw [heq, round_finite]
    rcases ofUnits_cases s ((2 * k + unity) / (2 * unity) * unity) 1 with ⟨j, hj, heq⟩ | heq
    · rw [heq, hfinite]
    · rw [heq, hinfinite]
  · rw [heq]
    exact hinfinite

theorem position_of_sign? {a : Binary64} {s : Bool} (h : a.sign? = some s) :
    ∃ n : Nat, a.position = some (signed s n) := by
  cases a with
  | nan => cases h
  | infinite t =>
    cases h
    exact ⟨limit, rfl⟩
  | finite t n hn =>
    cases h
    exact ⟨n, rfl⟩

theorem isNaN_of_sign? {a : Binary64} {s : Bool} (h : a.sign? = some s) : a.isNaN = false := by
  cases a with
  | nan => cases h
  | infinite s => rfl
  | finite s n hn => rfl

theorem not_lt_zero {a : Binary64} (h : a.sign? = some false) : ¬ a < 0 := by
  obtain ⟨n, hn⟩ := position_of_sign? h
  refine not_lt_of_le (le_of_position position_zero hn ?_)
  exact Int.natCast_nonneg n

theorem not_zero_lt {a : Binary64} (h : a.sign? = some true) : ¬ 0 < a := by
  obtain ⟨n, hn⟩ := position_of_sign? h
  refine not_lt_of_le (le_of_position hn position_zero ?_)
  simp only [signed, if_true]
  omega

theorem max_zero_of_sign? {a : Binary64} (h : a.sign? = some true) : a.max 0 = 0 := by
  simp [max, isNaN_of_sign? h, isNaN_zero, not_zero_lt h]

theorem max_zero {m : Nat} (hm : Representable m) :
    (finite false m hm).max 0 = finite false m hm := by
  by_cases hlt : 0 < finite false m hm
  · simp [max, isNaN, hlt]
  · have hm0 : m = 0 := by
      rw [lt_iff, position_zero] at hlt
      by_contra hne
      refine hlt ⟨0, m, rfl, rfl, ?_⟩
      omega
    subst hm0
    simp [max, isNaN, zero_eq]

/-- Of the finite numbers with a negative sign only zero is not less than zero. -/
theorem eq_zero_of_sign? {a : Binary64} (hs : a.sign? = some true) (h : ¬ a < 0) :
    ∃ h0, a = finite true 0 h0 := by
  have hzero : ∀ n : Nat, a.position = some (signed true n) → n = 0 := by
    intro n hn
    by_contra hne
    refine h (lt_iff.mpr ⟨_, 0, hn, position_zero, ?_⟩)
    simp only [signed, if_true]
    omega
  cases a with
  | nan => cases hs
  | infinite s =>
    cases hs
    have hlim := limit_pos
    have := hzero limit rfl
    omega
  | finite s n hn =>
    cases hs
    obtain rfl := hzero n rfl
    exact ⟨hn, rfl⟩

end Binary64

end PlaybackCues
