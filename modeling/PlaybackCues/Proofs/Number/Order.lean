import PlaybackCues.Number.Binary64

set_option autoImplicit false

/-!
# The order of doubles and their differences

Away from NaN the order of doubles is the order of their places on the integer line. A difference
of finite doubles is the exact difference of their units, rounded; rounding keeps the order, so a
bound that is itself a double holds of the rounded difference when it holds of the exact one.
-/
namespace PlaybackCues

theorem roundDiv_mono {n m d : Nat} (h : n ≤ m) : roundDiv n d ≤ roundDiv m d := by
  have hdiv : n / d ≤ m / d := Nat.div_le_div_right h
  by_cases heq : n / d = m / d
  · -- within one step of the grid the larger remainder is rounded up if the smaller one is
    have hn := Nat.div_add_mod n d
    have hm := Nat.div_add_mod m d
    have hmod : n % d ≤ m % d := by
      rw [heq] at hn
      omega
    unfold roundDiv
    rw [heq]
    split <;> split <;> omega
  · have := roundDiv_le_succ n d
    have := le_roundDiv m d
    omega

theorem log2_mono {n m : Nat} (h : n ≤ m) : n.log2 ≤ m.log2 := by
  by_cases hn : n = 0
  · subst hn
    exact Nat.zero_le _
  · have hm : m ≠ 0 := by omega
    exact (Nat.le_log2 hm).mpr (Nat.le_trans (Nat.log2_self_le hn) h)

theorem nearest_le_twoTo (n d : Nat) : nearest n d ≤ twoTo ((n / d).log2 + 1) := by
  unfold nearest
  by_cases hl : (n / d).log2 < 52
  · have hs : spacing (n / d) = 1 := by
      unfold spacing
      rw [Nat.sub_eq_zero_of_le (Nat.le_of_lt hl)]
      rfl
    have hr := roundDiv_le_succ n d
    have hlt := lt_twoTo_succ_log2 (n / d)
    rw [hs, Nat.mul_one, Nat.mul_one]
    omega
  · have hp : twoTo ((n / d).log2 + 1) = twoTo 53 * spacing (n / d) := by
      unfold spacing
      rw [← twoTo_add]
      congr 1
      omega
    rw [hp]
    exact Nat.mul_le_mul_right _ (roundDiv_spacing_le n d)

theorem twoTo_le_nearest {n d : Nat} (hn : n / d ≠ 0) : twoTo (n / d).log2 ≤ nearest n d := by
  have hdvd : spacing (n / d) ∣ twoTo (n / d).log2 := twoTo_dvd_twoTo (by omega)
  obtain ⟨q, hq⟩ := hdvd
  have hle : q ≤ n / (d * spacing (n / d)) := by
    rw [← Nat.div_div_eq_div_mul, Nat.le_div_iff_mul_le (spacing_pos _), Nat.mul_comm, ← hq]
    exact Nat.log2_self_le hn
  calc
    twoTo (n / d).log2 = q * spacing (n / d) := by rw [hq, Nat.mul_comm]
    _ ≤ nearest n d := Nat.mul_le_mul_right _ (Nat.le_trans hle (le_roundDiv _ _))

theorem nearest_mono {n m d : Nat} (h : n ≤ m) : nearest n d ≤ nearest m d := by
  have hdiv : n / d ≤ m / d := Nat.div_le_div_right h
  by_cases hlog : (n / d).log2 = (m / d).log2
  · unfold nearest spacing
    rw [hlog]
    exact Nat.mul_le_mul_right _ (roundDiv_mono h)
  · have hlt : (n / d).log2 + 1 ≤ (m / d).log2 := by
      have := log2_mono hdiv
      omega
    have hm : m / d ≠ 0 := by
      intro hzero
      simp [hzero] at hlt
    calc
      nearest n d ≤ twoTo ((n / d).log2 + 1) := nearest_le_twoTo n d
      _ ≤ twoTo (m / d).log2 := twoTo_le_twoTo hlt
      _ ≤ nearest m d := twoTo_le_nearest hm

namespace Binary64

/-! ## The order -/

theorem not_le {a b : Binary64} (ha : a.isNaN = false) (hb : b.isNaN = false) :
    ¬ a ≤ b ↔ b < a := by
  rw [le_iff, lt_iff]
  cases a <;> cases b <;> simp_all [position, isNaN]

theorem isNaN_of_isFinite {a : Binary64} (h : a.isFinite = true) : a.isNaN = false := by
  cases a <;> first | rfl | cases h

theorem exists_eq_finite {a : Binary64} (h : a.isFinite = true) : ∃ s n hn, a = finite s n hn := by
  cases a with
  | nan => cases h
  | infinite s => cases h
  | finite s n hn => exact ⟨s, n, hn, rfl⟩

theorem not_le_of_isFinite {a b : Binary64} (ha : a.isFinite = true) (hb : b.isFinite = true) :
    ¬ a ≤ b ↔ b < a :=
  not_le (isNaN_of_isFinite ha) (isNaN_of_isFinite hb)

theorem lt_trans {a b c : Binary64} (hab : a < b) (hbc : b < c) : a < c := by
  obtain ⟨x, y, hx, hy, hxy⟩ := lt_iff.mp hab
  obtain ⟨y', z, hy', hz, hyz⟩ := lt_iff.mp hbc
  rw [hy] at hy'
  cases hy'
  exact lt_iff.mpr ⟨x, z, hx, hz, Int.lt_trans hxy hyz⟩

theorem not_lt_self (a : Binary64) : ¬ a < a := by
  intro h
  obtain ⟨x, y, hx, hy, hxy⟩ := lt_iff.mp h
  rw [hx] at hy
  cases hy
  exact Int.lt_irrefl x hxy

theorem le_trans {a b c : Binary64} (hab : a ≤ b) (hbc : b ≤ c) : a ≤ c := by
  obtain ⟨x, y, hx, hy, hxy⟩ := le_iff.mp hab
  obtain ⟨y', z, hy', hz, hyz⟩ := le_iff.mp hbc
  rw [hy] at hy'
  cases hy'
  exact le_iff.mpr ⟨x, z, hx, hz, Int.le_trans hxy hyz⟩

theorem lt_of_lt_of_le {a b c : Binary64} (hab : a < b) (hbc : b ≤ c) : a < c := by
  obtain ⟨x, y, hx, hy, hxy⟩ := lt_iff.mp hab
  obtain ⟨y', z, hy', hz, hyz⟩ := le_iff.mp hbc
  rw [hy] at hy'
  cases hy'
  exact lt_iff.mpr ⟨x, z, hx, hz, Int.lt_of_lt_of_le hxy hyz⟩

theorem le_of_position {a b : Binary64} {x y : Int} (ha : a.position = some x)
    (hb : b.position = some y) (h : x ≤ y) : a ≤ b :=
  le_iff.mpr ⟨x, y, ha, hb, h⟩

theorem lt_iff_of_position {a b : Binary64} {x y : Int} (ha : a.position = some x)
    (hb : b.position = some y) : a < b ↔ x < y := by
  rw [lt_iff, ha, hb]
  simp

theorem le_of_lt {a b : Binary64} (h : a < b) : a ≤ b := by
  obtain ⟨x, y, hx, hy, hxy⟩ := lt_iff.mp h
  exact le_of_position hx hy (Int.le_of_lt hxy)

theorem not_lt_of_le {a b : Binary64} (h : b ≤ a) : ¬ a < b := by
  intro hlt
  obtain ⟨y, x, hy, hx, hyx⟩ := le_iff.mp h
  obtain ⟨x', y', hx', hy', hxy⟩ := lt_iff.mp hlt
  rw [hx] at hx'
  rw [hy] at hy'
  cases hx'
  cases hy'
  omega

theorem isNaN_of_position {a : Binary64} {z : Int} (h : a.position = some z) :
    a.isNaN = false := by
  cases a <;> first | rfl | cases h

theorem isNaN_of_le {a b : Binary64} (h : a ≤ b) : a.isNaN = false ∧ b.isNaN = false := by
  obtain ⟨x, y, hx, hy, _⟩ := le_iff.mp h
  exact ⟨isNaN_of_position hx, isNaN_of_position hy⟩

theorem eq_nan {a : Binary64} (h : a.isNaN = true) : a = nan := by
  cases a <;> first | rfl | cases h

theorem le_self {a : Binary64} (h : a.isNaN = false) : a ≤ a := by
  cases a with
  | nan => cases h
  | infinite s => exact le_of_position rfl rfl (Int.le_refl _)
  | finite s n hn => exact le_of_position rfl rfl (Int.le_refl _)

theorem not_nan_lt (a : Binary64) : ¬ nan < a := fun h => by
  obtain ⟨x, y, hx, _⟩ := lt_iff.mp h
  cases hx

theorem not_lt_nan (a : Binary64) : ¬ a < nan := fun h => by
  obtain ⟨x, y, _, hy, _⟩ := lt_iff.mp h
  cases hy

theorem le_of_not_lt {a b : Binary64} (ha : a.isNaN = false) (hb : b.isNaN = false)
    (h : ¬ a < b) : b ≤ a :=
  Decidable.byContradiction fun hle => h ((not_le hb ha).mp hle)

theorem nan_min (a : Binary64) : nan.min a = a := rfl

theorem min_eq {a b : Binary64} (ha : a.isNaN = false) (hb : b.isNaN = false) :
    a.min b = if b < a then b else a := by
  simp [Binary64.min, ha, hb]

theorem nan_max (a : Binary64) : nan.max a = a := rfl

theorem max_eq {a b : Binary64} (ha : a.isNaN = false) (hb : b.isNaN = false) :
    a.max b = if b < a then a else b := by
  simp [Binary64.max, ha, hb]

/-- Only the sign of zero can change. -/
theorem position_max_zero {a : Binary64} (h : 0 ≤ a) : (a.max 0).position = a.position := by
  obtain ⟨hzero, ha⟩ := isNaN_of_le h
  rw [max_eq ha hzero]
  split
  · rfl
  · rename_i hlt
    obtain ⟨x, y, hx, hy, hxy⟩ := le_iff.mp h
    obtain ⟨y', x', hy', hx', hyx⟩ := le_iff.mp (le_of_not_lt hzero ha hlt)
    rw [hy] at hy'
    rw [hx] at hx'
    cases hy'
    cases hx'
    rw [hx, hy, Int.le_antisymm hxy hyx]

theorem min_le_right {a b : Binary64} (hb : b.isNaN = false) : a.min b ≤ b := by
  cases ha : a.isNaN with
  | true =>
    rw [eq_nan ha, nan_min]
    exact le_self hb
  | false =>
    rw [min_eq ha hb]
    split
    · exact le_self hb
    · rename_i hlt
      exact le_of_not_lt hb ha hlt

theorem clamp_between (a : Binary64) {low high : Binary64} (h : low ≤ high) :
    (a.clamp low high).isNaN = true ∨ low ≤ a.clamp low high ∧ a.clamp low high ≤ high := by
  obtain ⟨hlow, hhigh⟩ := isNaN_of_le h
  unfold clamp
  cases ha : a.isNaN with
  | true =>
    rw [eq_nan ha, if_neg (not_nan_lt low), if_neg (not_lt_nan high)]
    exact .inl rfl
  | false =>
    refine .inr ?_
    by_cases hraise : a < low
    · rw [if_pos hraise, if_neg (not_lt_of_le h)]
      exact ⟨le_self hlow, h⟩
    · rw [if_neg hraise]
      dsimp only
      split
      · exact ⟨h, le_self hhigh⟩
      · rename_i hcut
        exact ⟨le_of_not_lt ha hlow hraise, le_of_not_lt hhigh ha hcut⟩

/-! ## Sums and differences -/

def units (a : Binary64) : Int := a.position.getD 0

@[simp] theorem units_finite (s : Bool) (n : Nat) (h : Representable n) :
    (finite s n h).units = signed s n := rfl

theorem position_of_isFinite {a : Binary64} (h : a.isFinite = true) :
    a.position = some a.units := by
  obtain ⟨s, n, hn, rfl⟩ := exists_eq_finite h
  rfl

/-! ### Zero -/

theorem zero_eq : (0 : Binary64) = finite false 0 representable_zero := by decide +kernel

theorem position_zero : (0 : Binary64).position = some 0 := by
  rw [zero_eq]
  rfl

theorem isFinite_zero : (0 : Binary64).isFinite = true := by
  rw [zero_eq]
  rfl

theorem isNaN_zero : (0 : Binary64).isNaN = false := isNaN_of_isFinite isFinite_zero

theorem units_zero : (0 : Binary64).units = 0 := by
  rw [zero_eq]
  rfl

/-! ### Comparing units -/

theorem le_iff_units {a b : Binary64} (ha : a.isFinite = true) (hb : b.isFinite = true) :
    a ≤ b ↔ a.units ≤ b.units := by
  rw [le_iff, position_of_isFinite ha, position_of_isFinite hb]
  simp

theorem le_refl {a : Binary64} (h : a.isFinite = true) : a ≤ a := le_self (isNaN_of_isFinite h)

def rounded (z : Int) : Int := signed (z < 0) (Min.min (nearest z.natAbs 1) limit)

theorem position_ofUnits (negative : Bool) (n d : Nat) :
    (ofUnits negative n d).position = some (signed negative (Min.min (nearest n d) limit)) := by
  unfold ofUnits
  split
  · rename_i h
    rw [Nat.min_eq_left (Nat.le_of_lt h)]
    rfl
  · rename_i h
    rw [Nat.min_eq_right (Nat.le_of_not_lt h)]
    rfl

theorem nearest_zero : nearest 0 1 = 0 := nearest_one_of_dvd (Nat.dvd_zero _)

theorem position_ofSigned (zeroSign : Bool) (z : Int) :
    (ofSigned zeroSign z).position = some (rounded z) := by
  unfold ofSigned rounded
  rw [position_ofUnits]
  by_cases hz : z = 0
  · subst hz
    cases zeroSign <;> simp [nearest_zero, signed]
  · rw [if_neg hz]

theorem sub_finite (s t : Bool) {m n : Nat} (hm : Representable m) (hn : Representable n) :
    finite s m hm - finite t n hn = ofSigned (s && !t) (signed s m + signed (!t) n) := by
  change sub _ _ = _
  simp only [sub, neg, add]

theorem position_sub {a b : Binary64} (ha : a.isFinite = true) (hb : b.isFinite = true) :
    (a - b).position = some (rounded (a.units - b.units)) := by
  obtain ⟨s, m, hm, rfl⟩ := exists_eq_finite ha
  obtain ⟨t, n, hn, rfl⟩ := exists_eq_finite hb
  have hsum : signed s m + signed (!t) n = signed s m - signed t n := by
    cases t <;> simp only [signed, Bool.not_true, Bool.not_false, if_true, Bool.false_eq_true,
      if_false] <;> omega
  rw [sub_finite, position_ofSigned, hsum, units_finite, units_finite]

theorem add_finite (s t : Bool) {m n : Nat} (hm : Representable m) (hn : Representable n) :
    finite s m hm + finite t n hn = ofSigned (s && t) (signed s m + signed t n) := by
  change add _ _ = _
  simp only [add]

theorem position_add {a b : Binary64} (ha : a.isFinite = true) (hb : b.isFinite = true) :
    (a + b).position = some (rounded (a.units + b.units)) := by
  obtain ⟨s, m, hm, rfl⟩ := exists_eq_finite ha
  obtain ⟨t, n, hn, rfl⟩ := exists_eq_finite hb
  rw [add_finite, position_ofSigned, units_finite, units_finite]

theorem signed_false (n : Nat) : signed false n = n := rfl

theorem natAbs_signed (negative : Bool) (n : Nat) : (signed negative n).natAbs = n := by
  cases negative <;> simp [signed]

theorem position_abs {a : Binary64} {x : Int} (h : a.position = some x) :
    a.abs.position = some (x.natAbs : Int) := by
  cases a with
  | nan => cases h
  | infinite s =>
    cases h
    rw [natAbs_signed]
    rfl
  | finite s n hn =>
    cases h
    rw [natAbs_signed]
    rfl

theorem rounded_mono {x y : Int} (h : x ≤ y) : rounded x ≤ rounded y := by
  have hmin : ∀ {m n : Nat}, m ≤ n →
      Min.min (nearest m 1) limit ≤ Min.min (nearest n 1) limit := by
    intro m n hmn
    have : nearest m 1 ≤ nearest n 1 := nearest_mono hmn
    exact Nat.le_min.mpr ⟨Nat.le_trans (Nat.min_le_left _ _) this, Nat.min_le_right _ _⟩
  unfold rounded signed
  by_cases hx : x < 0 <;> by_cases hy : y < 0
  · have := @hmin y.natAbs x.natAbs (by omega)
    simp only [hx, hy, decide_true, if_true]
    omega
  · simp only [hx, hy, decide_true, decide_false, if_true, Bool.false_eq_true, if_false]
    omega
  · omega
  · have := @hmin x.natAbs y.natAbs (by omega)
    simp only [hx, hy, decide_false, Bool.false_eq_true, if_false]
    omega

theorem rounded_zero : rounded 0 = 0 := by
  rw [rounded, Int.natAbs_zero, nearest_zero, Nat.zero_min]
  rfl

theorem natAbs_rounded (z : Int) : ((rounded z).natAbs : Int) = rounded z.natAbs := by
  have hz : ¬ ((z.natAbs : Int) < 0) := by omega
  rw [rounded, rounded, natAbs_signed, decide_eq_false hz, signed_false, Int.natAbs_natCast]

theorem rounded_units {a : Binary64} (h : a.isFinite = true) : rounded a.units = a.units := by
  obtain ⟨s, n, hn, rfl⟩ := exists_eq_finite h
  have hn1 : nearest n 1 = n := nearest_one_of_dvd hn.2
  have hmin : Min.min n limit = n := Nat.min_eq_left (Nat.le_of_lt hn.1)
  rw [units_finite]
  cases s with
  | false =>
    have hneg : ¬ ((n : Int) < 0) := by omega
    simp [rounded, signed, hneg, hn1, hmin]
  | true =>
    by_cases hz : n = 0
    · simp [hz, signed, rounded_zero]
    · have hneg : -(n : Int) < 0 := by omega
      rw [rounded, show signed true n = -(n : Int) from rfl, decide_eq_true hneg,
        Int.natAbs_neg, Int.natAbs_natCast, hn1, hmin]
      rfl

theorem position_distance {a b : Binary64} (ha : a.isFinite = true) (hb : b.isFinite = true) :
    (a - b).abs.position = some (rounded ((a.units - b.units).natAbs : Int)) := by
  rw [position_abs (position_sub ha hb), natAbs_rounded]

/-- In the right order a difference is a distance. -/
theorem position_sub_of_le {a b : Binary64} (ha : a.isFinite = true) (hb : b.isFinite = true)
    (h : a ≤ b) : (a - b).abs.position = (b - a).position := by
  have hle := (le_iff_units ha hb).mp h
  have hnat : ((a.units - b.units).natAbs : Int) = b.units - a.units := by omega
  rw [position_distance ha hb, position_sub hb ha, hnat]

theorem lt_congr {a b c : Binary64} (h : a.position = b.position) : a < c ↔ b < c := by
  rw [lt_iff, lt_iff, h]

theorem le_congr {a b c : Binary64} (h : a.position = b.position) :
    (a ≤ c ↔ b ≤ c) ∧ (c ≤ a ↔ c ≤ b) := by
  simp only [le_iff, h, and_self]

theorem lt_congr_right {a b c : Binary64} (h : a.position = b.position) : c < a ↔ c < b := by
  rw [lt_iff, lt_iff, h]

/-- A bound that is a double holds of a distance if it holds of the exact one, rounded. -/
theorem distance_le {a b c : Binary64} {k : Nat} (ha : a.isFinite = true)
    (hb : b.isFinite = true) (hc : c.isFinite = true) (hk : (a.units - b.units).natAbs ≤ k)
    (h : rounded k ≤ c.units) : (a - b).abs ≤ c :=
  le_of_position (position_distance ha hb) (position_of_isFinite hc)
    (Int.le_trans (rounded_mono (Int.ofNat_le.mpr hk)) h)

theorem not_lt_distance {a b c d : Binary64} (ha : a.isFinite = true) (hb : b.isFinite = true)
    (hc : c.isFinite = true) (hd : d.isFinite = true) :
    ¬ (a - b).abs < (c - d).abs ↔ (c - d).abs ≤ (a - b).abs := by
  rw [← not_le (isNaN_of_position (position_distance hc hd))
    (isNaN_of_position (position_distance ha hb)), Decidable.not_not]

theorem not_lt_distance_self {a b : Binary64} (h : ¬ b < 0) : ¬ b < (a - a).abs := by
  cases a with
  | nan =>
    intro hlt
    obtain ⟨x, y, _, hy, _⟩ := lt_iff.mp hlt
    cases hy
  | infinite s =>
    intro hlt
    obtain ⟨x, y, _, hy, _⟩ := lt_iff.mp hlt
    cases s <;> cases hy
  | finite s n hn =>
    have hdist := position_distance (a := finite s n hn) (b := finite s n hn) rfl rfl
    rw [Int.sub_self, Int.natAbs_zero, Int.natCast_zero, rounded_zero] at hdist
    intro hlt
    obtain ⟨x, y, hx, hy, hxy⟩ := lt_iff.mp hlt
    exact h (lt_iff.mpr ⟨x, y, hx, position_zero.trans (hdist.symm.trans hy), hxy⟩)

theorem not_abs_lt_zero (a : Binary64) : ¬ a.abs < 0 := by
  intro h
  obtain ⟨x, y, hx, hy, hxy⟩ := lt_iff.mp h
  rw [position_zero] at hy
  cases hy
  cases ha : a.position with
  | none => cases a <;> simp_all [position, abs]
  | some z =>
    rw [position_abs ha] at hx
    cases hx
    omega

theorem sub_le {a b c : Binary64} (ha : a.isFinite = true) (hb : b.isFinite = true)
    (hb0 : 0 ≤ b.units) (hac : a ≤ c) : a - b ≤ c := by
  have hself : a - b ≤ a := by
    refine le_of_position (position_sub ha hb) (position_of_isFinite ha) ?_
    rw [← rounded_units ha]
    refine rounded_mono ?_
    rw [rounded_units ha]
    omega
  exact le_trans hself hac

theorem not_lt_sub {a b c : Binary64} (ha : a.isFinite = true) (hb : b.isFinite = true)
    (hc : c.isFinite = true) (hc0 : 0 ≤ c.units) (hab : a ≤ b) : ¬ c < a - b := by
  refine not_lt_of_le (le_of_position (position_sub ha hb) (position_of_isFinite hc) ?_)
  have hle := (le_iff_units ha hb).mp hab
  have hr := rounded_mono (show a.units - b.units ≤ 0 by omega)
  rw [rounded_zero] at hr
  omega

theorem isFinite_of_position {a : Binary64} {z : Int} (h : a.position = some z)
    (hz : z.natAbs < limit) : a.isFinite = true := by
  cases a with
  | nan => cases h
  | infinite s =>
    obtain rfl := Option.some.inj h
    rw [natAbs_signed] at hz
    exact absurd hz (Nat.lt_irrefl limit)
  | finite s n hn => rfl

theorem units_of_position {a : Binary64} {z : Int} (h : a.position = some z) : a.units = z := by
  rw [units, h, Option.getD_some]

theorem natAbs_units_lt_limit {a : Binary64} (h : a.isFinite = true) : a.units.natAbs < limit := by
  obtain ⟨s, n, hn, rfl⟩ := exists_eq_finite h
  rw [units_finite, natAbs_signed]
  exact hn.1

/-- Between two finite numbers there are only finite ones. -/
theorem isFinite_of_within {a low high : Binary64} (hlow : low.isFinite = true)
    (hhigh : high.isFinite = true) (h : a.within low high = true) : a.isFinite = true := by
  obtain ⟨ha, hb⟩ : low ≤ a ∧ a ≤ high := by simpa [within] using h
  obtain ⟨x, y, hx, hy, hxy⟩ := le_iff.mp ha
  obtain ⟨y', z, hy', hz, hyz⟩ := le_iff.mp hb
  obtain rfl := Option.some.inj (hy.symm.trans hy')
  have hxl := natAbs_units_lt_limit hlow
  have hzl := natAbs_units_lt_limit hhigh
  rw [units_of_position hx] at hxl
  rw [units_of_position hz] at hzl
  exact isFinite_of_position hy (by omega)

theorem lt_iff_units {a b : Binary64} (ha : a.isFinite = true) (hb : b.isFinite = true) :
    a < b ↔ a.units < b.units := by
  rw [← not_le_of_isFinite hb ha, le_iff_units hb ha, Int.not_le]

/-! ## Bounds in units -/

def AtLeast (a : Binary64) (k : Int) : Prop :=
  a = .infinite false ∨ a.isFinite = true ∧ k ≤ a.units

theorem AtLeast.mono {a : Binary64} {j k : Int} (h : a.AtLeast k) (hjk : j ≤ k) : a.AtLeast j := by
  rcases h with h | ⟨hfin, hk⟩
  · exact .inl h
  · exact .inr ⟨hfin, Int.le_trans hjk hk⟩

theorem atLeast_zero {a : Binary64} (h : 0 ≤ a) : a.AtLeast 0 := by
  obtain ⟨x, y, hx, hy, hxy⟩ := le_iff.mp h
  rw [position_zero] at hx
  cases hx
  cases a with
  | nan => cases hy
  | infinite negative =>
    cases negative with
    | false => exact .inl rfl
    | true =>
      have := limit_pos
      simp only [position, signed, if_true, Option.some.injEq] at hy
      omega
  | finite s n hn =>
    cases hy
    exact .inr ⟨rfl, hxy⟩

theorem rounded_le_limit (z : Int) : rounded z ≤ limit := by
  have hmin : Min.min (nearest z.natAbs 1) limit ≤ limit := Nat.min_le_right _ _
  unfold rounded signed
  split <;> omega

theorem neg_limit_le_units {a : Binary64} (h : a.isFinite = true) : -(limit : Int) ≤ a.units := by
  obtain ⟨s, n, hn, rfl⟩ := exists_eq_finite h
  have hlt := hn.1
  rw [units_finite]
  unfold signed
  split <;> omega

/-- Rounding an exact result does not take it over a bound that is a double. -/
theorem AtLeast.rounded_le {a b : Binary64} {z k : Int} (h : b.AtLeast k)
    (ha : a.position = some (rounded z)) (hz : z ≤ k) : a ≤ b := by
  rcases h with rfl | ⟨hb, hk⟩
  · exact le_of_position ha rfl (rounded_le_limit z)
  · refine le_of_position ha (position_of_isFinite hb) ?_
    rw [← rounded_units hb]
    exact rounded_mono (Int.le_trans hz hk)

theorem AtLeast.sub_le {a b c : Binary64} {k : Int} (h : c.AtLeast k) (ha : a.isFinite = true)
    (hb : b.isFinite = true) (hk : a.units - b.units ≤ k) : a - b ≤ c :=
  h.rounded_le (position_sub ha hb) hk

theorem AtLeast.distance_le {a b c : Binary64} {k : Int} (h : c.AtLeast k) (ha : a.isFinite = true)
    (hb : b.isFinite = true) (hk : ((a.units - b.units).natAbs : Int) ≤ k) : (a - b).abs ≤ c :=
  h.rounded_le (position_distance ha hb) hk

/-- A tolerance only widens a bound. -/
theorem AtLeast.sub_le_of_le {a b c : Binary64} (h : c.AtLeast 0) (ha : a.isFinite = true)
    (hb : b.isFinite = true) (hab : a ≤ b) : a - c ≤ b := by
  rcases h with rfl | ⟨hc, hc0⟩
  · have hpos : (a - .infinite false).position = some (-(limit : Int)) := by
      obtain ⟨s, n, hn, rfl⟩ := exists_eq_finite ha
      rfl
    exact le_of_position hpos (position_of_isFinite hb) (neg_limit_le_units hb)
  · exact Binary64.sub_le ha hc hc0 hab

end Binary64

end PlaybackCues
