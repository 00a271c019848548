import PlaybackCues.Cue.Validation
import PlaybackCues.Proofs.Number.Fractions

set_option autoImplicit false

/-!
# Rates in hundredths

A rate that is kept is a fraction in hundredths, between a quarter and two. It is shown with two
places, and reading these gives it back.
-/
namespace PlaybackCues

open Binary64

theorem minRate_eq : minRate = fraction 25 100 := by decide +kernel

theorem maxRate_eq : maxRate = fraction 200 100 := by decide +kernel

theorem isFinite_of_rate {x : Binary64} (h : x.within minRate maxRate = true) :
    x.isFinite = true := by
  rw [minRate_eq, maxRate_eq] at h
  exact isFinite_of_within (isFinite_fraction (by decide) (by decide) (by decide))
    (isFinite_fraction (by decide) (by decide) (by decide)) h

theorem roundRate_fraction {k : Nat} (hk : k ≤ twoTo 29) :
    roundRate (fraction k 100) = fraction k 100 :=
  round_fraction hk (by decide) (by decide)

/-! ## Rates that are kept -/

/-- A rate that lies within the bounds once it is rounded is then a fraction in hundredths. -/
theorem exists_roundRate {x : Binary64} (h : (roundRate x).within minRate maxRate = true) :
    ∃ k, 25 ≤ k ∧ k ≤ 200 ∧ roundRate x = fraction k 100 := by
  have hround := isFinite_of_rate h
  have hfin : x.isFinite = true := isFinite_of_round_div (g := 100) (by decide) hround
  obtain ⟨hmin, hmax⟩ : minRate ≤ roundRate x ∧ roundRate x ≤ maxRate := by
    simpa [within] using h
  have hfraction {k : Nat} (hk : roundRate x = fraction k 100) : 25 ≤ k ∧ k ≤ 200 := by
    rw [hk] at hmin hmax
    rw [minRate_eq] at hmin
    rw [maxRate_eq] at hmax
    have hle : k ≤ 200 := by
      by_contra hlt
      have h201 := le_trans (fraction_mono (by decide) (by decide) (Nat.lt_of_not_le hlt)) hmax
      exact not_lt_of_le h201
        ((fraction_lt_iff (by decide) (by decide) (by decide) (by decide)).mpr (by decide))
    refine ⟨?_, hle⟩
    by_contra hlt
    have hk29 : k ≤ twoTo 29 := Nat.le_trans hle (by decide)
    exact not_lt_of_le hmin
      ((fraction_lt_iff hk29 (by decide) (by decide) (by decide)).mpr (by omega))
  obtain ⟨s, m, hm, rfl⟩ := exists_eq_finite hfin
  cases s with
  | true =>
    have hsign : (roundRate (finite true m hm)).sign? = some true :=
      sign?_round_div true hm (g := 100) (by decide) (by decide)
    have hpos : 0 < minRate := by decide +kernel
    exact absurd (lt_of_lt_of_le hpos hmin) (not_zero_lt hsign)
  | false =>
    by_cases hlim : nearest (100 * m) 1 < limit
    · have heq : roundRate (finite false m hm) = fraction (parts 100 m) 100 :=
        round_div_of_lt hm (g := 100) (by decide) hlim
      exact ⟨_, (hfraction heq).1, (hfraction heq).2, heq⟩
    · have heq : roundRate (finite false m hm) = infinite false :=
        round_div_of_not_lt hm (g := 100) (by decide) hlim
      rw [heq] at hround
      cases hround

theorem within_hundredths {k : Nat} (hlow : 25 ≤ k) (hhigh : k ≤ 200) :
    (fraction k 100).within minRate maxRate = true := by
  have hmin := fraction_mono (g := 100) (by decide) (by decide) hlow
  have hmax := fraction_mono (g := 100) (by decide) (by decide) hhigh
  rw [← minRate_eq] at hmin
  rw [← maxRate_eq] at hmax
  simp [within, hmin, hmax]

/-! ## Two places -/

theorem hundredths_fraction {k : Nat} (hk : k ≤ twoTo 29) :
    (fraction k 100).hundredths = Digits.write (k / 100) ++ '.' :: Digits.padded 2 (k % 100) := by
  obtain ⟨hq, heq⟩ := fraction_eq (g := 100) hk (by decide) (by decide)
  obtain ⟨hupper, hlower⟩ := fraction_error (g := 100) hk (by decide) (by decide)
  have hu := unity_pos
  have hround : roundDiv (100 * nearest (k * unity) 100) unity = k :=
    roundDiv_eq (by omega) (by omega)
  rw [heq]
  simp only [hundredths, textBy, hround, signedText, Bool.false_eq_true, if_false]

/-- Reading two places gives the fraction back. -/
theorem ofDecimal_hundredths {k : Nat} (hk0 : 0 < k) (hk : k ≤ twoTo 29) :
    ofDecimal false k (-2) = fraction k 100 := by
  obtain ⟨hq, heq⟩ := fraction_eq (g := 100) hk (by decide) (by decide)
  have hsmall : ¬ k.log2 + 1080 < 3 * (-2 : Int).natAbs := by
    have : 3 * (-2 : Int).natAbs = 6 := rfl
    omega
  have hpow : tenTo (-2 : Int).natAbs = 100 := rfl
  unfold ofDecimal
  rw [if_neg (Nat.pos_iff_ne_zero.mp hk0), if_neg (by decide), if_neg (by decide), if_neg hsmall,
    hpow, heq, ofUnits_of_lt false hq.1]

end PlaybackCues
