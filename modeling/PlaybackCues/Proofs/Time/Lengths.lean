import PlaybackCues.Proofs.Number.Sums
import PlaybackCues.Time.Timestamp

set_option autoImplicit false

/-!
# Lengths of time in whole seconds

A length of whole milliseconds, as a number of seconds, is a rounded sum of a whole number and a
rounded fraction. Half a second is exact in it, and any other fraction is so far from a half that
the errors do not matter: the sum is rounded to the same second as the exact length.
-/
namespace PlaybackCues

open Binary64

theorem unity_eq : unity = twoTo 1073 * 2 := by
  have htwo : twoTo 1 = 2 := rfl
  have hdigits : unitDigits = 1073 + 1 := rfl
  rw [unity, hdigits, twoTo_add, htwo]

theorem nearest_half : nearest (500 * unity) 1000 = twoTo 1073 := by
  have hdvd : spacing (1 * twoTo 1073) ∣ 1 * twoTo 1073 := spacing_dvd_mul_twoTo 1 1073 (by decide)
  rw [Nat.one_mul] at hdvd
  calc
    nearest (500 * unity) 1000 = nearest (twoTo 1073 * 1000) (1 * 1000) := by
      rw [unity_eq, Nat.mul_comm 500, Nat.mul_assoc]
    _ = twoTo 1073 := by rw [nearest_mul_right (by decide), nearest_one_of_dvd hdvd]

/-- Half a second behind whole ones is exact. -/
theorem rounded_half {s : Nat} (hs : s ≤ twoTo 29) :
    rounded (s * unity + twoTo 1073 : Nat) = (s * unity + twoTo 1073 : Nat) := by
  have h29 : twoTo 29 = 536870912 := rfl
  have h53 : twoTo 53 = 9007199254740992 := rfl
  have heq : s * unity + twoTo 1073 = (2 * s + 1) * twoTo 1073 := by
    rw [unity_eq, Nat.add_mul, Nat.one_mul, Nat.mul_comm 2 s, Nat.mul_assoc, Nat.mul_comm 2]
  have hdvd : spacing ((2 * s + 1) * twoTo 1073) ∣ (2 * s + 1) * twoTo 1073 :=
    spacing_dvd_mul_twoTo _ _ (by omega)
  have hhalf : 2 * twoTo 1073 = unity := by rw [unity_eq, Nat.mul_comm]
  have hsu := Nat.mul_le_mul_right unity hs
  have hlim : s * unity + twoTo 1073 < limit := by
    refine lt_limit ?_
    have h30 : twoTo 30 = 1073741824 := rfl
    rw [h29] at hsu
    rw [h30]
    omega
  rw [heq] at hlim ⊢
  have hrep : Representable ((2 * s + 1) * twoTo 1073) := ⟨hlim, hdvd⟩
  have hfin := rounded_units (a := finite false _ hrep) rfl
  rwa [units_finite, signed_false] at hfin

theorem ofMillis_split (ms : Nat) :
    Seconds.ofMillis ms = ofNat (ms / 1000) + fraction (ms % 1000) 1000 := by
  have hdiv : ms * 1000000 / 1000000000 = ms / 1000 := by omega
  have hmod : ms * 1000000 % 1000000000 = ms % 1000 * 1000000 := by omega
  have hlt := Nat.mod_lt ms (by decide : 0 < 1000)
  have h30 : twoTo 30 = 1073741824 := rfl
  have hfraction : fraction (ms % 1000 * 1000000) (1000 * 1000000) = fraction (ms % 1000) 1000 := by
    rw [fraction_eq_ofUnits (by omega) (by decide) (by decide),
      fraction_eq_ofUnits (by omega) (by decide) (by decide), Nat.mul_right_comm,
      ofUnits_mul_right _ (by decide)]
  unfold Seconds.ofMillis Seconds.ofNanos
  rw [hdiv, hmod, ← hfraction]
  rfl

/-- The rounded sum of whole seconds and milliseconds is nearest to the right number of seconds. -/
theorem rounded_seconds {s q : Nat} (hs : s ≤ twoTo 29) (hq : q < 1000) {n : Nat}
    (hn : (n : Int) = rounded (s * unity + nearest (q * unity) 1000 : Nat)) :
    (2 * n + unity) / (2 * unity) = if q < 500 then s else s + 1 := by
  have h29 : twoTo 29 = 536870912 := rfl
  have h30 : twoTo 30 = 1073741824 := rfl
  have hu := unity_pos
  have hsu := Nat.mul_le_mul_right unity hs
  have htwo : s * (2 * unity) = 2 * (s * unity) := by rw [Nat.mul_left_comm]
  obtain ⟨hupper, hlower⟩ := fraction_error (k := q) (g := 1000) (by omega) (by decide) (by decide)
  rw [h29] at hsu
  by_cases hhalf : q = 500
  · subst hhalf
    rw [nearest_half, rounded_half hs, Int.natCast_inj] at hn
    have hunity := unity_eq
    rw [if_neg (by decide)]
    refine Nat.div_eq_of_lt_le ?_ ?_ <;> simp only [Nat.add_mul, Nat.one_mul, htwo] <;> omega
  · generalize nearest (q * unity) 1000 = f at hn hupper hlower
    have hqu : q * unity ≤ 999 * unity := Nat.mul_le_mul_right unity (by omega)
    obtain ⟨habove, hbelow, _⟩ := rounded_error (z := (s * unity + f : Nat)) (by omega)
      (by rw [h30]; omega)
    rw [← hn] at habove hbelow
    split
    · have hq499 : q * unity ≤ 499 * unity := Nat.mul_le_mul_right unity (by omega)
      refine Nat.div_eq_of_lt_le ?_ ?_ <;> simp only [Nat.add_mul, Nat.one_mul, htwo] <;> omega
    · have hq501 : 501 * unity ≤ q * unity := Nat.mul_le_mul_right unity (by omega)
      refine Nat.div_eq_of_lt_le ?_ ?_ <;> simp only [Nat.add_mul, Nat.one_mul, htwo] <;> omega

theorem round_seconds {s q : Nat} (hs : s ≤ twoTo 29) (hq : q < 1000) (hne : s ≠ 0 ∨ q ≠ 0) :
    (ofNat s + fraction q 1000).round = ofNat (if q < 500 then s else s + 1) := by
  have h29 : twoTo 29 = 536870912 := rfl
  have h30 : twoTo 30 = 1073741824 := rfl
  have hu := unity_pos
  have hq29 : q ≤ twoTo 29 := by omega
  have hposition := position_add (isFinite_ofNat (n := s) (by omega))
    (isFinite_fraction (g := 1000) hq29 (by decide) (by decide))
  rw [units_ofNat (by omega), units_fraction hq29 (by decide) (by decide),
    ← Int.natCast_add] at hposition
  have hsome : unity ≤ s * unity ∨ unity ≤ q * unity :=
    hne.imp (fun h => Nat.le_mul_of_pos_left _ (by omega))
      fun h => Nat.le_mul_of_pos_left _ (by omega)
  have hsu := Nat.mul_le_mul_right unity hs
  have hqu := Nat.mul_le_mul_right unity (Nat.le_of_lt hq)
  have hseconds := fun n => rounded_seconds hs hq (n := n)
  obtain ⟨hupper, hlower⟩ := fraction_error (g := 1000) hq29 (by decide) (by decide)
  rw [h29] at hsu
  generalize nearest (q * unity) 1000 = f at hposition hseconds hupper hlower
  obtain ⟨_, hbelow, hlim⟩ := rounded_error (z := (s * unity + f : Nat)) (by omega)
    (by rw [h30]; omega)
  generalize ofNat s + fraction q 1000 = t at hposition
  have hunits := units_of_position hposition
  generalize rounded (s * unity + f : Nat) = z at hposition hunits hbelow hlim hseconds
  obtain ⟨n, hn, heq⟩ := exists_finite (isFinite_of_position hposition hlim) (by omega)
  rw [heq, units_finite, signed_false] at hunits
  rw [heq, round_finite, hseconds n hunits]
  rfl

/-- Whole milliseconds are rounded to seconds as they are exactly, for seventeen years. -/
theorem round_ofMillis {ms : Nat} (h : ms ≤ 1000 * twoTo 29) :
    (Seconds.ofMillis ms).round = ofNat ((ms + 500) / 1000) := by
  by_cases hzero : ms = 0
  · subst hzero
    decide +kernel
  have hdiv : (if ms % 1000 < 500 then ms / 1000 else ms / 1000 + 1) = (ms + 500) / 1000 := by
    split <;> omega
  rw [ofMillis_split, round_seconds (Nat.div_le_of_le_mul h) (Nat.mod_lt ms (by decide)) (by omega),
    hdiv]

end PlaybackCues
