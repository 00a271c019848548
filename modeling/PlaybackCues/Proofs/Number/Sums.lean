import PlaybackCues.Proofs.Number.Fractions

set_option autoImplicit false

/-!
# Small steps

A sum is rounded to the double nearest to it, so it ends up no further from the exact sum than
either summand is. A small amount that is added to a double therefore moves it by at most twice that
amount, however coarse the grid is there, and never beyond the range.
-/
namespace PlaybackCues

/-- A double is not greater than the grid line below a number that it does not exceed. -/
theorem le_grid {p x : Nat} (hp : spacing p ∣ p) (hle : p ≤ x) (hlog : 52 ≤ x.log2) :
    p ≤ x / spacing x * spacing x := by
  have hx : x ≠ 0 := by
    rintro rfl
    simp at hlog
  have hdown {q : Nat} (h : spacing x * q ≤ x) : spacing x * q ≤ x / spacing x * spacing x := by
    rw [Nat.mul_comm]
    refine Nat.mul_le_mul_right _ ?_
    rwa [Nat.le_div_iff_mul_le (spacing_pos x), Nat.mul_comm]
  by_contra hlt
  have hpow : twoTo x.log2 ≤ x / spacing x * spacing x := by
    obtain ⟨q, hq⟩ : spacing x ∣ twoTo x.log2 := twoTo_dvd_twoTo (by omega)
    rw [hq]
    exact hdown (hq ▸ Nat.log2_self_le hx)
  -- so both have the same number of digits, and the double lies on the grid of the number
  have hlogp : x.log2 ≤ p.log2 := by
    have hmono := log2_mono (show twoTo x.log2 ≤ p by omega)
    rwa [log2_twoTo] at hmono
  obtain ⟨q, hq⟩ : spacing x ∣ p :=
    Nat.dvd_trans (twoTo_dvd_twoTo (Nat.sub_le_sub_right hlogp 52)) hp
  have := hdown (hq ▸ hle)
  omega

/-- Rounding moves a number no further than to any smaller double. -/
theorem nearest_add_le {p x : Nat} (hp : spacing p ∣ p) (hle : p ≤ x) :
    nearest x 1 + p ≤ 2 * x := by
  by_cases hlog : x.log2 < 52
  · have hone : spacing x = 1 := by
      unfold spacing
      rw [Nat.sub_eq_zero_of_le (Nat.le_of_lt hlog)]
      rfl
    rw [nearest_one_of_dvd (hone ▸ Nat.one_dvd x)]
    omega
  · have hbelow := le_grid hp hle (by omega)
    have hdiv := Nat.div_add_mod x (spacing x)
    rw [Nat.mul_comm] at hdiv
    unfold nearest roundDiv
    rw [Nat.div_one, Nat.one_mul]
    split
    · omega
    · rw [Nat.succ_mul]
      omega

/-- The largest doubles are far apart. -/
theorem Representable.add_le_limit {n : Nat} (h : Representable n) :
    n + twoTo 2045 ≤ limit := by
  obtain ⟨hlt, hdvd⟩ := h
  have hlim : limit = twoTo 2097 + twoTo 2097 := by
    change twoTo (2097 + 1) = _
    rw [twoTo_add, show twoTo 1 = 2 from rfl, Nat.mul_two]
  by_cases hlog : n.log2 < 2097
  · have hn := Nat.lt_of_lt_of_le (lt_twoTo_succ_log2 n) (twoTo_le_twoTo hlog)
    have hle : twoTo 2045 ≤ twoTo 2097 := twoTo_le_twoTo (by decide)
    omega
  · have hgrid : twoTo 2045 ∣ n := Nat.dvd_trans (twoTo_dvd_twoTo (by omega)) hdvd
    have hgrid' : twoTo 2045 ∣ limit := twoTo_dvd_twoTo (by decide)
    have := Nat.le_of_dvd (by omega) (Nat.dvd_sub hgrid' hgrid)
    omega

theorem small_lt_gap : 2 * (twoTo 30 * unity) < twoTo 2045 := by
  have hpow : twoTo (1 + (30 + unitDigits)) < twoTo 2045 := twoTo_lt_twoTo (by decide)
  unfold unity
  rwa [twoTo_add, twoTo_add, show twoTo 1 = 2 from rfl] at hpow

namespace Binary64

theorem natAbs_units_add_le_limit {a : Binary64} (h : a.isFinite = true) :
    a.units.natAbs + twoTo 2045 ≤ limit := by
  obtain ⟨s, n, hn, rfl⟩ := exists_eq_finite h
  rw [units_finite, natAbs_signed]
  exact hn.add_le_limit

theorem spacing_dvd_units {a : Binary64} (h : a.isFinite = true) :
    spacing a.units.natAbs ∣ a.units.natAbs := by
  obtain ⟨s, n, hn, rfl⟩ := exists_eq_finite h
  rw [units_finite, natAbs_signed]
  exact hn.2

/-- A small amount moves a double forward by at most twice as much. -/
theorem add_small {a b : Binary64} (ha : a.isFinite = true) (ha0 : 0 ≤ a.units)
    (hb : b.isFinite = true) (hb0 : 0 ≤ b.units) (hsmall : b.units ≤ (twoTo 30 * unity : Nat)) :
    (a + b).isFinite = true ∧ a.units ≤ (a + b).units ∧
      (a + b).units ≤ a.units + 2 * b.units := by
  have hgap := natAbs_units_add_le_limit ha
  have hsmall' := small_lt_gap
  have hnear := nearest_add_le (spacing_dvd_units ha)
    (show a.units.natAbs ≤ (a.units + b.units).natAbs by omega)
  have hge := nearest_mono (d := 1) (show a.units.natAbs ≤ (a.units + b.units).natAbs by omega)
  rw [nearest_one_of_dvd (spacing_dvd_units ha)] at hge
  have hneg : ¬ (a.units + b.units < 0) := by omega
  have hpos := position_add ha hb
  rw [rounded, decide_eq_false hneg, signed_false, Nat.min_eq_left (by omega)] at hpos
  have hfin := isFinite_of_position hpos (by rw [Int.natAbs_natCast]; omega)
  rw [units_of_position hpos]
  exact ⟨hfin, by omega, by omega⟩

theorem nan_add (a : Binary64) : nan + a = nan := by
  change add _ _ = _
  simp only [add]

theorem nan_sub (a : Binary64) : nan - a = nan := by
  change sub _ _ = _
  simp only [sub, add]

theorem infinite_add {a : Binary64} (s : Bool) (ha : a.isFinite = true) :
    infinite s + a = infinite s := by
  obtain ⟨t, n, hn, rfl⟩ := exists_eq_finite ha
  change add _ _ = _
  simp only [add]

theorem infinite_sub {a : Binary64} (s : Bool) (ha : a.isFinite = true) :
    infinite s - a = infinite s := by
  obtain ⟨t, n, hn, rfl⟩ := exists_eq_finite ha
  change sub _ _ = _
  simp only [sub, neg, add]

theorem zero_add_units {a : Binary64} (ha : a.isFinite = true) :
    (ofNat 0 + a).isFinite = true ∧ (ofNat 0 + a).units = a.units := by
  have hzero : (ofNat 0).units = 0 := units_zero
  have hpos := position_add (isFinite_ofNat (n := 0) (Nat.zero_le _)) ha
  rw [hzero, Int.zero_add, rounded_units ha] at hpos
  have hgap := natAbs_units_add_le_limit ha
  have hpow := twoTo_pos 2045
  exact ⟨isFinite_of_position hpos (by omega), units_of_position hpos⟩

theorem exists_finite {a : Binary64} (h : a.isFinite = true) (h0 : 0 < a.units) :
    ∃ n hn, a = finite false n hn := by
  obtain ⟨s, n, hn, rfl⟩ := exists_eq_finite h
  cases s with
  | false => exact ⟨n, hn, rfl⟩
  | true =>
    rw [units_finite] at h0
    simp only [signed, if_true] at h0
    omega

/-- At most doubling a small number leaves it small. -/
theorem mul_small {m n : Nat} (hm : Representable m) (hn : Representable n)
    (hsmall : 2 * m ≤ twoTo 30 * unity) (hn2 : n ≤ 2 * unity) :
    ∃ k hk, finite false m hm * finite false n hn = finite false k hk ∧ k ≤ nearest (2 * m) 1 := by
  have hmul : m * n ≤ 2 * m * unity := by
    rw [Nat.mul_comm 2 m, Nat.mul_assoc]
    exact Nat.mul_le_mul_left m hn2
  have hle : nearest (m * n) unity ≤ nearest (2 * m) 1 := by
    have hmono := nearest_mono (d := 1 * unity) hmul
    rwa [nearest_mul_right unity_pos, Nat.one_mul] at hmono
  have hlim := lt_limit (nearest_le_whole (Nat.le_refl _) hsmall)
  have hlt := Nat.lt_of_le_of_lt hle hlim
  refine ⟨nearest (m * n) unity, representable_nearest hlt, ?_, hle⟩
  rw [mul_finite, bne_self_eq_false, ofUnits_of_lt false hlt]

end Binary64

end PlaybackCues
