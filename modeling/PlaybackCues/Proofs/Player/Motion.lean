import PlaybackCues.Player.Simulated
import PlaybackCues.Proofs.Number.Sums

set_option autoImplicit false

/-!
# How far a player moves

Between two moments at most 300 ms apart a player moves on by at most 5 ms of media time for each
millisecond: its rate is at most two, and adding the distance to a large position may round it to
twice as much. An infinite position stays where it is. A position that is not a number is left only
by the end of the medium, which a playing player jumps to.
-/
namespace PlaybackCues

open Binary64

/-! ## Distances -/

/-- The second position is the first one, or lies further on by at most what a player can move in
so many milliseconds. -/
def Moves (ms : Nat) (a b : Seconds) : Prop :=
  a = b ∨ a.isFinite = true ∧ b.isFinite = true ∧ a.units ≤ b.units ∧
    1000 * (b.units - a.units) ≤ 5 * (ms * unity : Nat)

namespace Moves

variable {m n : Nat} {a b c : Seconds}

theorem refl (m : Nat) (a : Seconds) : Moves m a a := .inl rfl

theorem trans (hab : Moves m a b) (hbc : Moves n b c) : Moves (m + n) a c := by
  rcases hab with rfl | ⟨ha, hb, hle, hm⟩
  · rcases hbc with rfl | ⟨ha, hc, hle, hn⟩
    · exact refl _ _
    · refine .inr ⟨ha, hc, hle, ?_⟩
      rw [Nat.add_mul]
      omega
  · rcases hbc with rfl | ⟨_, hc, hle', hn⟩
    · refine .inr ⟨ha, hb, hle, ?_⟩
      rw [Nat.add_mul]
      omega
    · refine .inr ⟨ha, hc, Int.le_trans hle hle', ?_⟩
      rw [Nat.add_mul]
      omega

theorem mono (h : Moves m a b) (hmn : m ≤ n) : Moves n a b := by
  obtain ⟨k, rfl⟩ := Nat.exists_eq_add_of_le hmn
  exact h.trans (refl k b)

theorem bounds (h : Moves m a b) (ha : a.isFinite = true) : b.isFinite = true ∧
    a.units ≤ b.units ∧ 1000 * (b.units - a.units) ≤ 5 * (m * unity : Nat) := by
  rcases h with rfl | ⟨_, hb, hle, hm⟩
  · exact ⟨ha, Int.le_refl _, by omega⟩
  · exact ⟨hb, hle, hm⟩

theorem isFinite_iff (h : Moves m a b) : a.isFinite = true ↔ b.isFinite = true := by
  rcases h with rfl | ⟨ha, hb, _⟩
  · rfl
  · exact iff_of_true ha hb

theorem isNaN_eq (h : Moves m a b) : a.isNaN = b.isNaN := by
  rcases h with rfl | ⟨ha, hb, _⟩
  · rfl
  · rw [isNaN_of_isFinite ha, isNaN_of_isFinite hb]

end Moves

theorem ofMillis_eq {dt : Nat} (h : dt ≤ 300) :
    Seconds.ofMillis dt = ofNat 0 + fraction (dt * 1000000) 1000000000 := by
  have hdiv : dt * 1000000 / 1000000000 = 0 := Nat.div_eq_of_lt (by omega)
  have hmod : dt * 1000000 % 1000000000 = dt * 1000000 := Nat.mod_eq_of_lt (by omega)
  unfold Seconds.ofMillis Seconds.ofNanos fraction
  rw [hdiv, hmod]
  rfl

/-- A few milliseconds as seconds. -/
theorem exists_ofMillis {dt : Nat} (h : dt ≤ 300) :
    ∃ m hm, Seconds.ofMillis dt = finite false m hm ∧ 1000000 * m ≤ 1001 * (dt * unity) := by
  by_cases hzero : dt = 0
  · subst hzero
    refine ⟨0, representable_zero, ?_, Nat.zero_le _⟩
    decide +kernel
  have hk : dt * 1000000 ≤ twoTo 29 := Nat.le_trans (Nat.mul_le_mul_right _ h) (by decide)
  have hg1 : 1000000000 ≤ twoTo 30 := by decide
  obtain ⟨hfin, hunits⟩ := zero_add_units (isFinite_fraction hk (by decide) hg1)
  obtain ⟨hupper, hlower⟩ := fraction_error hk (by decide) hg1
  rw [← ofMillis_eq h] at hfin hunits
  rw [units_fraction hk (by decide) hg1] at hunits
  have hmul : dt * 1000000 * unity = 1000000 * (dt * unity) := by
    rw [Nat.mul_comm dt, Nat.mul_assoc]
  have hone : unity ≤ dt * unity := Nat.le_mul_of_pos_left _ (by omega)
  have hu := unity_pos
  rw [hmul] at hupper hlower hunits
  generalize nearest (1000000 * (dt * unity)) 1000000000 = q at hupper hlower hunits
  generalize Seconds.ofMillis dt = t at hfin hunits ⊢
  obtain ⟨m, hm, rfl⟩ := exists_finite hfin (by omega)
  rw [units_finite, signed_false] at hunits
  exact ⟨m, hm, rfl, by omega⟩

theorem exists_rate {rate : Binary64} (h : rate.within minRate maxRate = true) :
    ∃ n hn, rate = finite false n hn ∧ n ≤ 2 * unity := by
  simp only [within, Bool.and_eq_true, decide_eq_true_eq] at h
  obtain ⟨hlow, hhigh⟩ := h
  obtain ⟨x, y, hx, hy, hxy⟩ := le_iff.mp hlow
  obtain ⟨y', z, hy', hz, hyz⟩ := le_iff.mp hhigh
  obtain rfl := Option.some.inj (hy.symm.trans hy')
  have hx0 : 0 < x := by
    have hmin : 0 < minRate.position.getD 0 := by decide +kernel
    rwa [hx, Option.getD_some] at hmin
  have hz2 : z = (2 * unity : Nat) := by
    have hmax : maxRate.position.getD 0 = (2 * unity : Nat) := by decide +kernel
    rwa [hz, Option.getD_some] at hmax
  have hlim : 2 * unity < limit := by decide +kernel
  have hunits := units_of_position hy
  obtain ⟨n, hn, heq⟩ := exists_finite (isFinite_of_position hy (by omega)) (by omega)
  rw [heq, units_finite, signed_false] at hunits
  exact ⟨n, hn, heq, by omega⟩

/-- What a player moves in a few milliseconds, before it is added to the position. -/
theorem stride_units {dt : Nat} (h : dt ≤ 300) {rate : Binary64}
    (hrate : rate.within minRate maxRate = true) :
    (Seconds.ofMillis dt * rate).isFinite = true ∧ 0 ≤ (Seconds.ofMillis dt * rate).units ∧
      2000 * (Seconds.ofMillis dt * rate).units ≤ 5 * (dt * unity : Nat) ∧
      (Seconds.ofMillis dt * rate).units ≤ (twoTo 30 * unity : Nat) := by
  obtain ⟨m, hm, hmillis, hm1⟩ := exists_ofMillis h
  obtain ⟨n, hn, rfl, hn2⟩ := exists_rate hrate
  have hdt := Nat.mul_le_mul_right unity h
  have h30 : twoTo 30 = 1073741824 := rfl
  have hm2 : 2 * m ≤ twoTo 30 * unity := by
    rw [h30]
    omega
  obtain ⟨k, hk, heq, hle⟩ := mul_small hm hn hm2 hn2
  have hk2 : 2000 * k ≤ 5 * (dt * unity) := by
    by_cases hzero : dt = 0
    · subst hzero
      obtain rfl : m = 0 := by omega
      rw [Nat.mul_zero, nearest_zero] at hle
      omega
    · obtain ⟨hupper, _⟩ := nearest_sum_error hm2
      have hone : unity ≤ dt * unity := Nat.le_mul_of_pos_left _ (by omega)
      omega
  rw [hmillis, heq, units_finite, signed_false, h30]
  exact ⟨rfl, by omega, by omega, by omega⟩

theorem zero_le_iff {a : Seconds} (ha : a.isFinite = true) : 0 ≤ a ↔ 0 ≤ a.units := by
  rw [le_iff_units isFinite_zero ha, units_zero]

def Reachable (a : Seconds) : Prop := a.isNaN = true ∨ 0 ≤ a

theorem moves_add {a : Seconds} (ha : Reachable a) {dt : Nat} (h : dt ≤ 300) {rate : Binary64}
    (hrate : rate.within minRate maxRate = true) :
    Moves dt a (a + Seconds.ofMillis dt * rate) := by
  obtain ⟨hfin, hnonneg, hdouble, hsmall⟩ := stride_units h hrate
  generalize Seconds.ofMillis dt * rate = b at hfin hnonneg hdouble hsmall ⊢
  cases a with
  | nan => exact .inl (nan_add b).symm
  | infinite s => exact .inl (infinite_add s hfin).symm
  | finite s n hn =>
    have ha0 : 0 ≤ (finite s n hn).units := (zero_le_iff rfl).mp (ha.resolve_left nofun)
    obtain ⟨hsum, hle, hupper⟩ := add_small (a := finite s n hn) rfl ha0 hfin hnonneg hsmall
    exact .inr ⟨rfl, hsum, hle, by omega⟩

theorem Moves.reachable {ms : Nat} {a b : Seconds} (h : Moves ms a b) (ha : Reachable a) :
    Reachable b := by
  rcases h with rfl | ⟨hfin, hfin', hle, _⟩
  · exact ha
  · have ha0 := (zero_le_iff hfin).mp (ha.resolve_left (by rw [isNaN_of_isFinite hfin]; nofun))
    exact .inr ((zero_le_iff hfin').mpr (by omega))

/-- The end of the medium only shortens a move. -/
theorem Moves.min {ms : Nat} {a b d : Seconds} (h : Moves ms a b) (hd : a ≤ d) :
    Moves ms a (b.min d) := by
  obtain ⟨ha, hdn⟩ := isNaN_of_le hd
  rw [min_eq (h.isNaN_eq ▸ ha) hdn]
  split
  · rename_i hlt
    rcases h with rfl | ⟨hfin, hfin', hle, hms⟩
    · exact absurd hlt (not_lt_of_le hd)
    · obtain ⟨x, z, hx, hz, hxz⟩ := le_iff.mp hd
      obtain ⟨z', y, hz', hy, hzy⟩ := lt_iff.mp hlt
      obtain rfl := Option.some.inj (hz.symm.trans hz')
      have hlim := natAbs_units_add_le_limit hfin
      have hlim' := natAbs_units_add_le_limit hfin'
      have hpow := twoTo_pos 2045
      rw [← units_of_position hx] at hxz
      rw [← units_of_position hy] at hzy
      have hfinite := isFinite_of_position hz (by omega)
      have hunits := units_of_position hz
      exact .inr ⟨hfin, hfinite, by omega, by omega⟩
  · exact h

/-! ## Players -/

namespace SimulatedPlayer

variable {p : SimulatedPlayer} {now : Nat}

/-- What a player keeps as long as no call is to fail. A medium whose length is negative or not
a number cannot be played. -/
structure Sound (p : SimulatedPlayer) : Prop where
  failures : p.failures = 0
  grain : p.grain = 1000000
  rate : p.rate.within minRate maxRate = true
  reachable : Reachable p.position
  playing : p.state = .playing →
    0 ≤ p.duration ∧ (p.position.isNaN = true ∨ p.position ≤ p.duration)

def Steady (p : SimulatedPlayer) : Prop := p.position.isNaN = true → p.state ≠ .playing

theorem settle_log (p : SimulatedPlayer) (now : Nat) :
    (p.settle now).log = p.log ∧ (p.settle now).failures = p.failures := by
  unfold settle
  split <;> exact ⟨rfl, rfl⟩

theorem settle_levels (p : SimulatedPlayer) (now : Nat) :
    (p.settle now).rate = p.rate ∧ (p.settle now).duration = p.duration := by
  unfold settle
  split <;> exact ⟨rfl, rfl⟩

theorem settle_grain (p : SimulatedPlayer) (now : Nat) : (p.settle now).grain = p.grain := by
  unfold settle
  split <;> rfl

theorem settle_anchored (p : SimulatedPlayer) (now : Nat) : (p.settle now).anchored = now := by
  unfold settle
  split <;> rfl

theorem settle_of_not_playing (h : p.state ≠ .playing) :
    p.settle now = { p with anchored := now } :=
  if_neg h

theorem settle_of_playing (h : p.state = .playing) :
    (p.settle now).position =
      (p.position + Seconds.ofNanos ((now - p.anchored) * p.grain) * p.rate).min p.duration := by
  simp only [settle, if_pos h]

theorem Sound.settle_moves (h : p.Sound) (hs : p.Steady) (hgap : now ≤ p.anchored + 300) :
    Moves (now - p.anchored) p.position (p.settle now).position := by
  by_cases hplay : p.state = .playing
  · have hmove := moves_add h.reachable (show now - p.anchored ≤ 300 by omega) h.rate
    rw [settle_of_playing hplay, h.grain]
    exact hmove.min ((h.playing hplay).2.resolve_left fun hnan => hs hnan hplay)
  · rw [settle_of_not_playing hplay]
    exact .refl _ _

theorem Sound.settle_reachable (h : p.Sound) (hgap : now ≤ p.anchored + 300) :
    Reachable (p.settle now).position := by
  by_cases hsteady : p.Steady
  · exact (h.settle_moves hsteady hgap).reachable h.reachable
  · obtain ⟨hnan, hplay⟩ := Classical.not_imp.mp hsteady
    have hplay := not_not.mp hplay
    rw [settle_of_playing hplay, eq_nan hnan, nan_add, nan_min]
    exact .inr (h.playing hplay).1

theorem Sound.settle (h : p.Sound) (hgap : now ≤ p.anchored + 300) : (p.settle now).Sound := by
  obtain ⟨hrate, hduration⟩ := p.settle_levels now
  obtain ⟨_, hfailures⟩ := p.settle_log now
  refine ⟨hfailures.trans h.failures, (p.settle_grain now).trans h.grain, hrate ▸ h.rate,
    h.settle_reachable hgap, fun hplay' => ?_⟩
  rw [hduration]
  by_cases hplay : p.state = .playing
  · obtain ⟨hd, _⟩ := h.playing hplay
    rw [settle_of_playing hplay]
    exact ⟨hd, .inr (min_le_right (isNaN_of_le hd).2)⟩
  · rw [settle_of_not_playing hplay] at hplay' ⊢
    exact absurd hplay' hplay

theorem Sound.settle_steady (h : p.Sound) : (p.settle now).Steady := by
  intro hnan
  by_cases hplay : p.state = .playing
  · rw [settle_of_playing hplay] at hnan
    have hle := min_le_right
      (a := p.position + Seconds.ofNanos ((now - p.anchored) * p.grain) * p.rate)
      (isNaN_of_le (h.playing hplay).1).2
    rw [(isNaN_of_le hle).1] at hnan
    cases hnan
  · rw [settle_of_not_playing hplay]
    exact hplay

/-! ## Calls -/

theorem read_eq {α : Type} (h : p.failures = 0) (now : Nat) (field : SimulatedPlayer → α) :
    p.read now field = (.ok (field (p.settle now)), p.settle now) := by
  simp [read, call, h]

theorem perform_eq (h : p.failures = 0) (now : Nat) (c : PlayerCall) :
    p.perform now c = (p.settle now).obey now c := by
  simp [perform, call, h]

/-- A look at a player whose calls do not fail succeeds and brings the player up to the present four
times. -/
theorem snapshot_eq (h : p.failures = 0) (now : Nat) :
    p.snapshot now =
      (.ok ⟨(p.settle now).position, ((p.settle now).settle now).volume,
        (((p.settle now).settle now).settle now).rate,
        ((((p.settle now).settle now).settle now).settle now).state⟩,
      (((p.settle now).settle now).settle now).settle now) := by
  have hkeep : ∀ q : SimulatedPlayer, q.failures = 0 → (q.settle now).failures = 0 :=
    fun q hq => (q.settle_log now).2.trans hq
  have h1 := hkeep _ h
  have h2 := hkeep _ h1
  have h3 := hkeep _ h2
  rw [snapshot, read_eq h]
  dsimp only [Reply.andThen]
  rw [read_eq h1]
  dsimp only
  rw [read_eq h2]
  dsimp only
  rw [read_eq h3]

theorem snapshot_ok (now : Nat) (h : p.failures = 0) :
    ∃ s q, p.snapshot now = (.ok s, q) ∧ q.log = p.log ∧ q.failures = 0 := by
  refine ⟨_, _, snapshot_eq h now, ?_, ?_⟩
  · rw [(settle_log _ now).1, (settle_log _ now).1, (settle_log _ now).1, (settle_log _ now).1]
  · rw [(settle_log _ now).2, (settle_log _ now).2, (settle_log _ now).2, (settle_log _ now).2, h]

/-! ## Seeks -/

end SimulatedPlayer

def PlayerCall.isSeek : PlayerCall → Bool
  | .seek _ => true
  | _ => false

namespace SimulatedPlayer

variable {p : SimulatedPlayer} {now : Nat}

def seeks (p : SimulatedPlayer) : Nat := p.log.countP fun entry => entry.2.isSeek

theorem settle_seeks (p : SimulatedPlayer) (now : Nat) : (p.settle now).seeks = p.seeks := by
  rw [seeks, (p.settle_log now).1, seeks]

theorem record_seeks (p : SimulatedPlayer) (now : Nat) (c : PlayerCall) :
    (p.record now c).seeks = p.seeks + if c.isSeek then 1 else 0 := by
  simp [seeks, record, List.countP_append, List.countP_singleton]

structure Obeys (p : SimulatedPlayer) (c : PlayerCall) (q : SimulatedPlayer) : Prop where
  sound : q.Sound
  duration : q.duration = p.duration
  anchored : q.anchored = p.anchored
  seeks : q.seeks = p.seeks + if c.isSeek then 1 else 0
  position : c.isSeek = false → q.position = p.position ∧ q.Steady

def Admits (p : SimulatedPlayer) (c : PlayerCall) : Prop := c.isSeek = true → 0 ≤ p.duration

theorem Sound.obey_play (h : p.Sound) (hs : p.Steady) (now : Nat) :
    p.Obeys .play (p.obey now .play).2 := by
  have hstate : (p.obey now .play).2.state =
    if p.position < p.duration then .playing else p.state := rfl
  refine ⟨⟨h.failures, h.grain, h.rate, h.reachable, fun hplay => ?_⟩, rfl, rfl, p.record_seeks now .play,
    fun _ => ⟨rfl, fun hnan => ?_⟩⟩
  · rw [hstate] at hplay
    split at hplay
    · rename_i hlt
      have hle := le_of_lt hlt
      have hpos := h.reachable.resolve_left fun hnan =>
        Bool.noConfusion ((isNaN_of_le hle).1.symm.trans hnan)
      exact ⟨le_trans hpos hle, .inr hle⟩
    · exact h.playing hplay
  · rw [hstate, if_neg]
    · exact hs hnan
    · intro hlt
      exact Bool.noConfusion ((isNaN_of_le (le_of_lt hlt)).1.symm.trans hnan)

theorem Sound.obey_pause (h : p.Sound) (now : Nat) : p.Obeys .pause (p.obey now .pause).2 := by
  have hstate : (p.obey now .pause).2.state = if p.state = .ended then p.state else .paused := rfl
  have hstill : (p.obey now .pause).2.state ≠ .playing := by
    rw [hstate]
    split
    · rename_i hended
      rw [hended]
      nofun
    · nofun
  exact ⟨⟨h.failures, h.grain, h.rate, h.reachable, fun hplay => absurd hplay hstill⟩, rfl, rfl,
    p.record_seeks now .pause, fun _ => ⟨rfl, fun _ => hstill⟩⟩

theorem Sound.obey_seek (h : p.Sound) (hd : 0 ≤ p.duration) (now : Nat) (target : Seconds) :
    p.Obeys (.seek target) (p.obey now (.seek target)).2 := by
  have hclamp := clamp_between target hd
  have hplaying : (target.clamp 0 p.duration).isNaN = true ∨
      target.clamp 0 p.duration ≤ p.duration := hclamp.imp_right And.right
  exact ⟨⟨h.failures, h.grain, h.rate, hclamp.imp_right And.left, fun _ => ⟨hd, hplaying⟩⟩, rfl, rfl,
    p.record_seeks now (.seek target), nofun⟩

theorem Sound.obey (h : p.Sound) (hs : p.Steady) (now : Nat) {c : PlayerCall}
    (hc : p.Admits c) : p.Obeys c (p.obey now c).2 := by
  cases c with
  | setVolume volume =>
    exact ⟨⟨h.failures, h.grain, h.rate, h.reachable, h.playing⟩, rfl, rfl,
      p.record_seeks now (.setVolume volume), fun _ => ⟨rfl, hs⟩⟩
  | setRate rate =>
    by_cases hrate : rate.within minRate maxRate = true
    · simp only [SimulatedPlayer.obey, if_pos hrate]
      exact ⟨⟨h.failures, h.grain, hrate, h.reachable, h.playing⟩, rfl, rfl,
        p.record_seeks now (.setRate rate), fun _ => ⟨rfl, hs⟩⟩
    · simp only [SimulatedPlayer.obey, if_neg hrate]
      exact ⟨h, rfl, rfl, rfl, fun _ => ⟨rfl, hs⟩⟩
  | seek target => exact h.obey_seek (hc rfl) now target
  | play => exact h.obey_play hs now
  | pause => exact h.obey_pause now

/-- What a command makes of a player, which is first brought up to the present. -/
theorem Sound.perform (h : p.Sound) (hgap : now ≤ p.anchored + 300) {c : PlayerCall}
    (hc : p.Admits c) : (p.settle now).Obeys c (p.perform now c).2 := by
  rw [perform_eq h.failures]
  refine (h.settle hgap).obey h.settle_steady now fun hseek => ?_
  rw [(p.settle_levels now).2]
  exact hc hseek

end SimulatedPlayer

end PlaybackCues
