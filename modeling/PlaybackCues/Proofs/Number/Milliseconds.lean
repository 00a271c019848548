import PlaybackCues.Cue.Validation
import PlaybackCues.Proofs.Number.Fractions

set_option autoImplicit false

/-!
# Whole milliseconds as doubles

A time code is a fraction in thousandths, so rounding to milliseconds gives it back. Any other time
is rounded to the time code of its nearest millisecond, unless it lies before zero: then it counts
as zero.
-/
namespace PlaybackCues

namespace TimeCode

open Binary64

theorem isFinite_ofMillis {n : Nat} (hn : n ≤ twoTo 29) : (ofMillis n).isFinite = true :=
  isFinite_fraction hn (by decide) (by decide)

theorem units_ofMillis {n : Nat} (hn : n ≤ twoTo 29) :
    (ofMillis n).units = nearest (n * unity) 1000 :=
  units_fraction hn (by decide) (by decide)

theorem not_ofMillis_lt_zero {n : Nat} (hn : n ≤ twoTo 29) : ¬ ofMillis n < 0 :=
  not_fraction_lt_zero hn (by decide) (by decide)

/-- Time codes are in the order of their milliseconds. -/
theorem ofMillis_lt_iff {a b : Nat} (ha : a ≤ twoTo 29) (hb : b ≤ twoTo 29) :
    ofMillis a < ofMillis b ↔ a < b :=
  fraction_lt_iff ha hb (by decide) (by decide)

theorem ofMillis_le {a b : Nat} (h : a ≤ b) : ofMillis a ≤ ofMillis b :=
  fraction_mono (by decide) (by decide) h

theorem ofMillis_inj {a b : Nat} (ha : a ≤ twoTo 29) (hb : b ≤ twoTo 29) :
    ofMillis a = ofMillis b ↔ a = b := by
  constructor
  · intro h
    have hab := (ofMillis_lt_iff ha hb).not
    have hba := (ofMillis_lt_iff hb ha).not
    rw [h] at hab hba
    have := hab.mp (not_lt_self _)
    have := hba.mp (not_lt_self _)
    omega
  · rintro rfl
    rfl

/-- Rounding to milliseconds does not change a time code. -/
theorem roundMillis_ofMillis {n : Nat} (hn : n ≤ twoTo 29) :
    roundMillis (ofMillis n) = ofMillis n :=
  round_fraction hn (by decide) (by decide)

/-! ## The millisecond nearest to a time -/

theorem le_toNatClamped {n p top : Nat} (hn : n ≤ twoTo 30) (hp : n ≤ p) (htop : n ≤ top) :
    n ≤ (ofNat p).toNatClamped top := by
  have hwhole : nearest (n * unity) 1 ≤ nearest (p * unity) 1 :=
    nearest_mono (Nat.mul_le_mul_right unity hp)
  rw [nearest_whole hn] at hwhole
  unfold ofNat
  by_cases hlim : nearest (p * unity) 1 < limit
  · have hdiv : n ≤ nearest (p * unity) 1 / unity :=
      (Nat.le_div_iff_mul_le unity_pos).mpr hwhole
    rw [ofUnits_of_lt false hlim]
    simp only [toNatClamped, Bool.false_eq_true, if_false]
    exact Nat.le_min.mpr ⟨hdiv, htop⟩
  · rw [ofUnits_of_not_lt false hlim]
    simp only [toNatClamped, Bool.false_eq_true, if_false]
    exact htop

theorem toMillis_of_sign? {t : Seconds} (h : t.sign? = some true) : toMillis t = 0 := by
  have hzero : ((0 : Binary64) * 1000).round.toNatClamped (twoTo 64 - 1) = 0 := by decide +kernel
  unfold toMillis
  rw [max_zero_of_sign? h, hzero]

variable {n : Nat}

theorem toMillis_finite {m : Nat} (hm : Representable m) (hn : n ≤ twoTo 29)
    (h : 1000 * m ≤ n * unity) : toMillis (finite false m hm) = parts 1000 m := by
  have hn30 : n ≤ twoTo 30 := Nat.le_trans hn (twoTo_le_twoTo (by decide))
  have hle := parts_le hn30 h
  have hlim := lt_limit (nearest_le_whole (Nat.le_refl _) (Nat.le_trans h
    (Nat.mul_le_mul_right unity hn30)))
  have hround := round_mul_ofNat false hm (g := 1000) (by decide) hlim
  obtain ⟨hp, hparts⟩ := ofNat_eq (Nat.le_trans hle hn30)
  have hround : (finite false m hm * 1000).round = .finite false (parts 1000 m * unity) hp :=
    hround.trans hparts
  have h64 : twoTo 30 ≤ twoTo 64 - 1 := by decide
  unfold toMillis
  rw [max_zero, hround]
  simp only [toNatClamped, Bool.false_eq_true, if_false]
  rw [Nat.mul_div_cancel _ unity_pos]
  exact Nat.min_eq_left (by omega)

theorem parts_zero (g : Nat) : parts g 0 = 0 := by
  have hu := unity_pos
  unfold parts
  rw [Nat.mul_zero, nearest_zero]
  exact Nat.div_eq_of_lt (by omega)

/-- A time that is not too large has the milliseconds of its units; one before zero has none. -/
theorem toMillis_eq {t : Seconds} (hfin : t.isFinite = true) (hn : n ≤ twoTo 29)
    (h : 1000 * t.units ≤ (n * unity : Nat)) : toMillis t = parts 1000 t.units.toNat := by
  obtain ⟨s, m, hm, rfl⟩ := exists_eq_finite hfin
  cases s with
  | true =>
    have hneg : (finite true m hm).units.toNat = 0 := by
      simp only [units_finite, signed, if_true]
      omega
    rw [toMillis_of_sign? rfl, hneg, parts_zero]
  | false =>
    rw [units_finite, signed_false] at h
    exact toMillis_finite hm hn (by omega)

theorem toMillis_le {t : Seconds} (hfin : t.isFinite = true) (hn : n ≤ twoTo 29)
    (h : 1000 * t.units ≤ (n * unity : Nat)) : toMillis t ≤ n := by
  rw [toMillis_eq hfin hn h]
  exact parts_le (Nat.le_trans hn (twoTo_le_twoTo (by decide))) (by omega)

theorem toMillis_mono {a b : Seconds} (ha : a.isFinite = true) (hb : b.isFinite = true)
    (hn : n ≤ twoTo 29) (h : 1000 * b.units ≤ (n * unity : Nat)) (hab : a ≤ b) :
    toMillis a ≤ toMillis b := by
  have hle := (le_iff_units ha hb).mp hab
  rw [toMillis_eq ha hn (by omega), toMillis_eq hb hn h]
  exact parts_mono (by omega)

/-- Times that are more than a millisecond apart have different milliseconds. -/
theorem toMillis_lt {a b : Seconds} (ha : a.isFinite = true) (hb : b.isFinite = true)
    (ha0 : 0 ≤ a.units) (hn : n ≤ twoTo 29) (h : 1000 * b.units ≤ (n * unity : Nat))
    (hab : 1000 * a.units + unity < 1000 * b.units) : toMillis a < toMillis b := by
  have hle : parts 1000 a.units.toNat ≤ n :=
    parts_le (Nat.le_trans hn (twoTo_le_twoTo (by decide))) (by omega)
  rw [toMillis_eq ha hn (by omega), toMillis_eq hb hn h]
  exact parts_lt (by omega)
    (Nat.le_trans hle (Nat.le_trans hn (twoTo_le_twoTo (by decide))))

theorem units_ofMillis_le (hn : n ≤ twoTo 29) :
    1000 * (ofMillis n).units ≤ ((n + 1) * unity : Nat) := by
  obtain ⟨hupper, _⟩ := fraction_error (g := 1000) hn (by decide) (by decide)
  rw [units_ofMillis hn, Nat.succ_mul]
  omega

theorem toMillis_ofMillis (hn : n < twoTo 29) : toMillis (ofMillis n) = n := by
  have hle := Nat.le_of_lt hn
  rw [toMillis_eq (isFinite_ofMillis hle) hn (units_ofMillis_le hle), units_ofMillis hle,
    Int.toNat_natCast]
  exact parts_fraction hle (by decide) (by decide)

/-- A time lies before every millisecond that is greater than its own. -/
theorem lt_ofMillis {t : Seconds} {j : Nat} (hfin : t.isFinite = true) (hn : n ≤ twoTo 29)
    (h : 1000 * t.units ≤ (n * unity : Nat)) (hj : j < twoTo 29) (hlt : toMillis t < j) :
    t < ofMillis j := by
  have hjfin := isFinite_ofMillis (Nat.le_of_lt hj)
  rw [← not_le_of_isFinite hjfin hfin]
  intro hle
  have hmono := toMillis_mono hjfin hfin hn h hle
  rw [toMillis_ofMillis hj] at hmono
  omega

/-- A time lies behind every millisecond that is less than its own. -/
theorem ofMillis_lt {t : Seconds} {j : Nat} (hfin : t.isFinite = true) (hj : j < twoTo 29)
    (hlt : j < toMillis t) : ofMillis j < t := by
  have hjfin := isFinite_ofMillis (Nat.le_of_lt hj)
  rw [← not_le_of_isFinite hfin hjfin]
  intro hle
  have hmono := toMillis_mono hfin hjfin hj (units_ofMillis_le (Nat.le_of_lt hj)) hle
  rw [toMillis_ofMillis hj] at hmono
  omega

theorem roundMillis_finite {m : Nat} (hm : Representable m) (hn : n ≤ twoTo 29)
    (h : 1000 * m ≤ n * unity) : roundMillis (finite false m hm) = ofMillis (parts 1000 m) := by
  have hn30 : n * unity ≤ twoTo 30 * unity :=
    Nat.mul_le_mul_right unity (Nat.le_trans hn (twoTo_le_twoTo (by decide)))
  have hlim := lt_limit (nearest_le_whole (Nat.le_refl _) (Nat.le_trans h hn30))
  exact round_div_of_lt hm (g := 1000) (by decide) hlim

theorem sign?_roundMillis {t : Seconds} (hfin : t.isFinite = true) :
    (roundMillis t).sign? = t.sign? := by
  obtain ⟨s, m, hm, rfl⟩ := exists_eq_finite hfin
  exact sign?_round_div s hm (g := 1000) (by decide) (by decide)

theorem roundMillis_not_lt_zero {t : Seconds} (hfin : t.isFinite = true) (h : 0 ≤ t.units) :
    ¬ roundMillis t < 0 := by
  have hround := sign?_roundMillis hfin
  obtain ⟨s, m, hm, rfl⟩ := exists_eq_finite hfin
  cases s with
  | false => exact not_lt_zero hround
  | true =>
    have hzero : ¬ roundMillis (finite true 0 representable_zero) < 0 := by decide +kernel
    obtain rfl : m = 0 := by
      simp only [units_finite, signed, if_true] at h
      omega
    exact hzero

/-- Rounding to milliseconds takes a time to the time code of its nearest millisecond, up to the
sign of a zero. -/
theorem roundMillis_eq {t : Seconds} (hfin : t.isFinite = true) (hn : n < twoTo 29)
    (h : 1000 * t.units ≤ (n * unity : Nat)) (hneg : ¬ roundMillis t < 0) :
    (roundMillis t).isFinite = true ∧ (roundMillis t).units = (ofMillis (toMillis t)).units ∧
      toMillis (roundMillis t) = toMillis t := by
  have hle := Nat.le_of_lt hn
  have hround := sign?_roundMillis hfin
  obtain ⟨s, m, hm, rfl⟩ := exists_eq_finite hfin
  cases s with
  | true =>
    obtain ⟨h0, hzero⟩ := eq_zero_of_sign? hround hneg
    have hunits : (ofMillis 0).units = 0 := by
      simp [units_ofMillis, nearest, roundDiv]
    rw [toMillis_of_sign? hround, toMillis_of_sign? rfl, hzero, hunits]
    exact ⟨rfl, rfl, rfl⟩
  | false =>
    rw [units_finite, signed_false] at h
    have hm1000 : 1000 * m ≤ n * unity := by omega
    have hparts := parts_le (Nat.le_trans hle (twoTo_le_twoTo (by decide))) hm1000
    rw [roundMillis_finite hm hle hm1000, toMillis_finite hm hle hm1000]
    exact ⟨isFinite_ofMillis (Nat.le_trans hparts hle), rfl, toMillis_ofMillis (by omega)⟩

theorem isFinite_of_roundMillis {t : Seconds} (h : (roundMillis t).isFinite = true) :
    t.isFinite = true :=
  isFinite_of_round_div (g := 1000) (by decide) h

/-- A rounded time that is not before zero is a time code, up to the sign of a zero. -/
theorem roundMillis_cases {t : Seconds} (hfin : (roundMillis t).isFinite = true)
    (hneg : ¬ roundMillis t < 0) :
    (∃ h0, roundMillis t = finite true 0 h0) ∨ ∃ k, roundMillis t = ofMillis k := by
  have htime := isFinite_of_roundMillis hfin
  obtain ⟨s, m, hm, rfl⟩ := exists_eq_finite htime
  cases s with
  | true => exact .inl (eq_zero_of_sign? (sign?_roundMillis rfl) hneg)
  | false =>
    by_cases hlim : nearest (1000 * m) 1 < limit
    · exact .inr ⟨parts 1000 m, round_div_of_lt hm (g := 1000) (by decide) hlim⟩
    · have hinf : roundMillis (finite false m hm) = infinite false :=
        round_div_of_not_lt hm (g := 1000) (by decide) hlim
      rw [hinf] at hfin
      cases hfin

/-- However late a time is, it has at least the milliseconds that lie before it. -/
theorem le_toMillis {t : Seconds} {n : Nat} (hfin : t.isFinite = true) (hn0 : 0 < n)
    (hn : n ≤ twoTo 30) (h : (n * unity : Nat) ≤ 1000 * t.units) : n ≤ toMillis t := by
  have htop : n ≤ twoTo 64 - 1 := Nat.le_trans hn (by decide)
  have hu := Nat.mul_pos hn0 unity_pos
  obtain ⟨s, m, hm, rfl⟩ := exists_eq_finite hfin
  cases s with
  | true =>
    simp only [units_finite, signed, if_true] at h
    omega
  | false =>
    rw [units_finite, signed_false] at h
    have hm1000 : n * unity ≤ 1000 * m := by omega
    unfold toMillis
    rw [max_zero]
    by_cases hlim : nearest (1000 * m) 1 < limit
    · have hround : (finite false m hm * 1000).round = ofNat (parts 1000 m) :=
        round_mul_ofNat false hm (g := 1000) (by decide) hlim
      rw [hround]
      exact le_toNatClamped hn (le_parts hn hm1000) htop
    · have hround : (finite false m hm * 1000).round = infinite false :=
        round_mul_of_not_lt hm (g := 1000) (by decide) hlim
      rw [hround]
      exact htop

end TimeCode

end PlaybackCues
