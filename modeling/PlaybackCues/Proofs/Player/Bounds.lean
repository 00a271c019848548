import PlaybackCues.Proofs.Player.Motion

set_option autoImplicit false

/-!
# What a player keeps

However a player is called, and however long it is left alone between two calls, it stays within its
medium. Only a seek moves it back, and only a playing player moves on its own: rounding a sum of two
amounts that are not negative never makes it less than either. A player that has come to the end of
the medium stays there until a seek to an earlier time. A call that is to fail does nothing but use
up the failure.
-/
namespace PlaybackCues

open Binary64

namespace Binary64

/-! ## Amounts -/

def IsAmount (a : Binary64) : Prop := a = .infinite false ∨ ∃ n h, a = .finite false n h

theorem isAmount_ofUnits (n d : Nat) : (ofUnits false n d).IsAmount := by
  unfold ofUnits
  split
  · exact .inr ⟨_, _, rfl⟩
  · exact .inl rfl

variable {a b : Binary64}

theorem IsAmount.add (ha : a.IsAmount) (hb : b.IsAmount) : (a + b).IsAmount := by
  rcases ha with rfl | ⟨m, hm, rfl⟩
  · rcases hb with rfl | ⟨n, hn, rfl⟩
    · exact .inl rfl
    · exact .inl (infinite_add false rfl)
  · rcases hb with rfl | ⟨n, hn, rfl⟩
    · refine .inl ?_
      change Binary64.add _ _ = _
      simp only [Binary64.add]
    · have hsign : (if (signed false m + signed false n : Int) = 0 then false && false
          else decide ((signed false m + signed false n : Int) < 0)) = false := by
        rw [decide_eq_false (by rw [signed_false, signed_false]; omega), Bool.and_self, ite_self]
      rw [add_finite]
      unfold ofSigned
      rw [hsign]
      exact isAmount_ofUnits _ _

theorem IsAmount.mul (ha : a.IsAmount) {n : Nat} (hn : Representable n) (h0 : n ≠ 0) :
    (a * .finite false n hn).IsAmount := by
  rcases ha with rfl | ⟨m, hm, rfl⟩
  · refine .inl ?_
    change Binary64.mul _ _ = _
    simp only [Binary64.mul, if_neg h0, bne_self_eq_false]
  · rw [mul_finite, bne_self_eq_false]
    exact isAmount_ofUnits _ _

theorem isAmount_ofNanos (n : Nat) : (Seconds.ofNanos n).IsAmount := by
  refine (isAmount_ofUnits _ _).add ?_
  have hsmall : n % 1000000000 ≤ twoTo 30 :=
    Nat.le_trans (Nat.le_of_lt (Nat.mod_lt n (by decide))) (by decide)
  have hdiv := fraction_eq_ofUnits (g := 1000000000) hsmall (by decide) (by decide)
  change (fraction (n % 1000000000) 1000000000).IsAmount
  rw [hdiv]
  exact isAmount_ofUnits _ _

/-- The sum is rounded to a double, and the first summand is one that the exact sum has reached. -/
theorem le_add_amount (ha : a.isFinite = true) (hb : b.IsAmount) : a ≤ a + b := by
  rcases hb with rfl | ⟨n, hn, rfl⟩
  · obtain ⟨s, m, hm, rfl⟩ := exists_eq_finite ha
    have hsum : finite s m hm + infinite false = infinite false := by
      change Binary64.add _ _ = _
      simp only [Binary64.add]
    rw [hsum]
    have hlt := hm.1
    refine le_of_position (x := signed s m) (y := limit) rfl rfl ?_
    have := natAbs_signed s m
    omega
  · have hpos := position_add ha (b := .finite false n hn) rfl
    have hle : a.units ≤ a.units + (finite false n hn).units := by
      rw [units_finite, signed_false]
      omega
    have hround := rounded_mono hle
    rw [rounded_units ha] at hround
    exact le_of_position (position_of_isFinite ha) hpos hround

theorem isNaN_clamp {low high : Binary64} (ha : a.isNaN = false) (hlow : low.isNaN = false)
    (hhigh : high.isNaN = false) : (a.clamp low high).isNaN = false := by
  unfold clamp
  by_cases hlow' : a < low
  · rw [if_pos hlow']
    dsimp only
    split
    · exact hhigh
    · exact hlow
  · rw [if_neg hlow']
    dsimp only
    split
    · exact hhigh
    · exact ha

end Binary64

/-! ## Screenings -/

inductive PlayerQuery where
  | time
  | duration
  | rate
  | volume
  | state

structure Screening where
  now : Nat := 0
  player : SimulatedPlayer

inductive PlayerAct where
  | advance (grains : Nat)
  | ask (q : PlayerQuery)
  | perform (c : PlayerCall)
  | failNext (n : Nat)
  | clearLog

namespace PlayerQuery

def Answer : PlayerQuery → Type
  | .time | .duration | .rate => Binary64
  | .volume => Nat
  | .state => PlayerState

def field : (q : PlayerQuery) → SimulatedPlayer → q.Answer
  | .time => SimulatedPlayer.position
  | .duration => SimulatedPlayer.duration
  | .rate => SimulatedPlayer.rate
  | .volume => SimulatedPlayer.volume
  | .state => SimulatedPlayer.state

end PlayerQuery

def PlayerCall.isFinite : PlayerCall → Bool
  | .setRate x | .seek x => Binary64.isFinite x
  | .setVolume _ | .play | .pause => true

def PlayerAct.isFinite : PlayerAct → Bool
  | .perform c => c.isFinite
  | _ => true

namespace Screening

def reply (s : Screening) (q : PlayerQuery) : SimulatedPlayer.Reply q.Answer :=
  s.player.read s.now q.field

def outcome (s : Screening) (c : PlayerCall) : SimulatedPlayer.Reply Unit :=
  s.player.perform s.now c

def act (s : Screening) : PlayerAct → Screening
  | .advance grains => { s with now := s.now + grains }
  | .ask q => { s with player := (s.reply q).2 }
  | .perform c => { s with player := (s.outcome c).2 }
  | .failNext n => { s with player := s.player.failNext n }
  | .clearLog => { s with player := s.player.clearLog }

def run (s : Screening) (acts : List PlayerAct) : Screening := acts.foldl act s

end Screening

namespace SimulatedPlayer

variable {p : SimulatedPlayer} {now : Nat} {duration : Seconds}

/-- The player stays within its medium, and its levels within their ranges. Where it is ended, the two
bounds put its position at the very length of the medium. -/
structure Bounded (duration : Seconds) (p : SimulatedPlayer) : Prop where
  medium : p.duration = duration
  start_le : 0 ≤ p.position
  le_stop : p.position ≤ duration
  rate : p.rate.within minRate maxRate = true
  volume : p.volume ≤ 100
  ended : p.state = .ended → duration ≤ p.position

/-- What anything but a seek makes of a player: it does not go back, does not move unless it plays,
and stays at the end of its medium. -/
structure Onward (p q : SimulatedPlayer) : Prop where
  forward : p.position ≤ q.position
  still : p.state ≠ .playing → q.position = p.position
  ended : p.state = .ended → q.state = .ended

theorem Onward.trans {q r : SimulatedPlayer} (h : p.Onward q) (h' : q.Onward r)
    (hstate : p.state ≠ .playing → q.state ≠ .playing) : p.Onward r where
  forward := le_trans h.forward h'.forward
  still hp := (h'.still (hstate hp)).trans (h.still hp)
  ended hp := h'.ended (h.ended hp)

theorem exists_rate_pos {rate : Binary64} (h : rate.within minRate maxRate = true) :
    ∃ n hn, rate = finite false n hn ∧ n ≠ 0 := by
  obtain ⟨n, hn, rfl, _⟩ := exists_rate h
  refine ⟨n, hn, rfl, ?_⟩
  rintro rfl
  have hzero : (finite false 0 representable_zero).within minRate maxRate = false := by
    decide +kernel
  exact Bool.noConfusion (hzero.symm.trans h)

/-! ### Being brought up to the present -/

theorem settle_state_of_not_playing (h : p.state ≠ .playing) (now : Nat) :
    (p.settle now).state = p.state := by
  rw [settle_of_not_playing h]

theorem settle_ended (h : p.state = .playing) : (p.settle now).state = .ended →
    p.duration ≤ (p.settle now).position := by
  simp only [settle, if_pos h]
  split
  · exact fun _ => ‹_›
  · intro hended
    cases hended

theorem Bounded.isFinite (h : p.Bounded duration) (hd : duration.isFinite = true) :
    p.position.isFinite = true :=
  isFinite_of_within isFinite_zero hd (by simp [within, h.start_le, h.le_stop])

theorem Bounded.le_settle (h : p.Bounded duration) (hd : duration.isFinite = true) (now : Nat) :
    p.position ≤ (p.settle now).position := by
  by_cases hplay : p.state = .playing
  · obtain ⟨n, hn, hrate, h0⟩ := exists_rate_pos h.rate
    have helapsed := isAmount_ofNanos ((now - p.anchored) * p.grain)
    have hmove := le_add_amount (h.isFinite hd) (helapsed.mul hn h0)
    rw [← hrate] at hmove
    rw [settle_of_playing hplay, h.medium, min_eq (isNaN_of_le hmove).2 (isNaN_of_isFinite hd)]
    split
    · exact h.le_stop
    · exact hmove
  · rw [settle_of_not_playing hplay]
    exact le_refl (h.isFinite hd)

theorem Bounded.settle (h : p.Bounded duration) (hd : duration.isFinite = true) (now : Nat) :
    (p.settle now).Bounded duration := by
  obtain ⟨hrate, hmedium⟩ := p.settle_levels now
  refine ⟨hmedium.trans h.medium, le_trans h.start_le (h.le_settle hd now), ?_, hrate ▸ h.rate,
    ?_, ?_⟩
  · by_cases hplay : p.state = .playing
    · rw [settle_of_playing hplay, h.medium]
      exact min_le_right (isNaN_of_isFinite hd)
    · rw [settle_of_not_playing hplay]
      exact h.le_stop
  · by_cases hplay : p.state = .playing
    · simpa only [SimulatedPlayer.settle, if_pos hplay] using h.volume
    · simpa only [SimulatedPlayer.settle, if_neg hplay] using h.volume
  · intro hended
    by_cases hplay : p.state = .playing
    · exact h.medium ▸ settle_ended hplay hended
    · rw [settle_of_not_playing hplay] at hended ⊢
      exact h.ended hended

theorem Bounded.settle_onward (h : p.Bounded duration) (hd : duration.isFinite = true)
    (now : Nat) : p.Onward (p.settle now) where
  forward := h.le_settle hd now
  still hp := by rw [settle_of_not_playing hp]
  ended hp := by rw [settle_of_not_playing (by rw [hp]; nofun), hp]

/-! ### Calls -/

theorem Bounded.obey (h : p.Bounded duration) (hd : duration.isFinite = true)
    (h0 : 0 ≤ duration) (now : Nat) {c : PlayerCall} (hc : c.isFinite = true) :
    (p.obey now c).2.Bounded duration := by
  cases c with
  | setVolume volume =>
    exact ⟨h.medium, h.start_le, h.le_stop, h.rate, Nat.min_le_right volume 100, h.ended⟩
  | setRate rate =>
    by_cases hrate : rate.within minRate maxRate = true
    · simp only [SimulatedPlayer.obey, if_pos hrate]
      exact ⟨h.medium, h.start_le, h.le_stop, hrate, h.volume, h.ended⟩
    · simp only [SimulatedPlayer.obey, if_neg hrate]
      exact h
  | seek target =>
    have hnan := isNaN_clamp (isNaN_of_isFinite hc) (isNaN_of_isFinite isFinite_zero)
      (isNaN_of_isFinite hd)
    obtain ⟨hlow, hhigh⟩ := (clamp_between target h0).resolve_left (by simp [hnan])
    have hposition : (p.obey now (.seek target)).2.position = target.clamp 0 duration := by
      rw [← h.medium]
      rfl
    have hstate : (p.obey now (.seek target)).2.state =
        if p.state = .ended && target.clamp 0 duration < duration then .paused else p.state := by
      rw [← h.medium]
      rfl
    refine ⟨h.medium, hposition ▸ hlow, hposition ▸ hhigh, h.rate, h.volume, fun hended => ?_⟩
    rw [hstate] at hended
    rw [hposition]
    split at hended
    · cases hended
    · rename_i hstay
      refine le_of_not_lt hnan (isNaN_of_isFinite hd) fun hlt => hstay ?_
      rw [decide_eq_true hended, decide_eq_true hlt]
      rfl
  | play =>
    have hstate : (p.obey now .play).2.state =
        if p.position < p.duration then .playing else p.state := rfl
    refine ⟨h.medium, h.start_le, h.le_stop, h.rate, h.volume, fun hended => h.ended ?_⟩
    rw [hstate] at hended
    split at hended
    · cases hended
    · exact hended
  | pause =>
    have hstate : (p.obey now .pause).2.state = if p.state = .ended then p.state else .paused := rfl
    refine ⟨h.medium, h.start_le, h.le_stop, h.rate, h.volume, fun hended => h.ended ?_⟩
    rw [hstate] at hended
    split at hended
    · exact hended
    · cases hended

/-- Only a seek moves a player that is up to the present, or takes it away from the end. -/
theorem Bounded.obey_onward (h : p.Bounded duration) (hd : duration.isFinite = true) (now : Nat)
    {c : PlayerCall} (hc : c.isSeek = false) : p.Onward (p.obey now c).2 := by
  have hrefl := le_refl (h.isFinite hd)
  cases c with
  | setVolume volume => exact ⟨hrefl, fun _ => rfl, id⟩
  | setRate rate =>
    by_cases hrate : rate.within minRate maxRate = true
    · simp only [SimulatedPlayer.obey, if_pos hrate]
      exact ⟨hrefl, fun _ => rfl, id⟩
    · simp only [SimulatedPlayer.obey, if_neg hrate]
      exact ⟨hrefl, fun _ => rfl, id⟩
  | seek target => cases hc
  | play =>
    refine ⟨hrefl, fun _ => rfl, fun hended => ?_⟩
    have hstay : ¬ p.position < p.duration := not_lt_of_le (h.medium ▸ h.ended hended)
    change (if p.position < p.duration then PlayerState.playing else p.state) = .ended
    rw [if_neg hstay, hended]
  | pause =>
    refine ⟨hrefl, fun _ => rfl, fun hended => ?_⟩
    change (if p.state = .ended then p.state else PlayerState.paused) = .ended
    rw [if_pos hended, hended]

/-- A call that is to fail uses up a failure and does nothing else. -/
theorem call_of_failing {α : Type} (h : 0 < p.failures) (now : Nat)
    (act : SimulatedPlayer → Reply α) :
    p.call now act = (.error failure, { p with failures := p.failures - 1 }) :=
  if_pos h

theorem call_of_ready {α : Type} (h : p.failures = 0) (now : Nat)
    (act : SimulatedPlayer → Reply α) : p.call now act = act (p.settle now) :=
  if_neg (by omega)

theorem obey_log (p : SimulatedPlayer) (now : Nat) (c : PlayerCall) : (p.obey now c).2.log =
    if (p.obey now c).1.isOk then p.log ++ [(now, c)] else p.log := by
  cases c with
  | setRate rate =>
    by_cases hrate : rate.within minRate maxRate = true
    · simp only [obey, if_pos hrate]
      rfl
    · simp only [obey, if_neg hrate]
      rfl
  | setVolume volume => rfl
  | seek target => rfl
  | play => rfl
  | pause => rfl

/-- A seek takes a player away from the end only if it leads to an earlier time. -/
theorem lt_of_obey_seek (h : p.Bounded duration) (h0 : 0 ≤ duration) {target : Seconds}
    (hended : p.state = .ended) (hleft : (p.obey now (.seek target)).2.state ≠ .ended) :
    target < duration := by
  have hstate : (p.obey now (.seek target)).2.state =
      if p.state = .ended && target.clamp 0 duration < duration then .paused else p.state := by
    rw [← h.medium]
    rfl
  rw [hstate] at hleft
  split at hleft
  · rename_i hback
    rw [Bool.and_eq_true, decide_eq_true_eq, decide_eq_true_eq] at hback
    have hlt := hback.2
    unfold clamp at hlt
    by_cases hraise : target < 0
    · exact lt_of_lt_of_le hraise h0
    · rw [if_neg hraise] at hlt
      dsimp only at hlt
      split at hlt
      · exact absurd hlt (not_lt_self duration)
      · exact hlt
  · exact absurd hended hleft

theorem one_within : (1 : Binary64).within minRate maxRate = true := by decide +kernel

theorem bounded_unstarted (h0 : 0 ≤ duration) (grain : Nat) :
    Bounded duration { unstarted duration with grain } :=
  ⟨rfl, le_refl isFinite_zero, h0, one_within, Nat.le_refl _, nofun⟩

theorem bounded_playingFrom (hd : duration.isFinite = true) (h0 : 0 ≤ duration)
    {position : Seconds} (hp : position.isFinite = true) (grain : Nat) :
    Bounded duration { playingFrom duration position with grain } := by
  have hnan := isNaN_clamp (isNaN_of_isFinite hp) (isNaN_of_isFinite isFinite_zero)
    (isNaN_of_isFinite hd)
  obtain ⟨hlow, hhigh⟩ := (clamp_between position h0).resolve_left (by simp [hnan])
  exact ⟨rfl, hlow, hhigh, one_within, Nat.le_refl _, nofun⟩

end SimulatedPlayer

/-! ## Runs -/

namespace Screening

open SimulatedPlayer

variable {s : Screening} {duration : Seconds}

def Seeks (s : Screening) (a : PlayerAct) (target : Seconds) : Prop :=
  a = .perform (.seek target) ∧ (s.outcome (.seek target)).1 = .ok ()

/-- The log after an act: only a command that succeeds adds to it. -/
def logAfter (s : Screening) : PlayerAct → List (Nat × PlayerCall)
  | .perform c =>
    if (s.outcome c).1.isOk then s.player.log ++ [(s.now, c)] else s.player.log
  | .clearLog => []
  | .advance _ | .ask _ | .failNext _ => s.player.log

def spent (s : Screening) : SimulatedPlayer :=
  { s.player with failures := s.player.failures - 1 }

theorem outcome_of_failing (h : 0 < s.player.failures) (c : PlayerCall) :
    s.outcome c = (.error failure, s.spent) :=
  call_of_failing h s.now _

theorem reply_of_failing (h : 0 < s.player.failures) (q : PlayerQuery) :
    s.reply q = (.error failure, s.spent) :=
  call_of_failing h s.now _

theorem outcome_of_ready (h : s.player.failures = 0) (c : PlayerCall) :
    s.outcome c = (s.player.settle s.now).obey s.now c :=
  call_of_ready h s.now _

theorem reply_of_ready (h : s.player.failures = 0) (q : PlayerQuery) :
    s.reply q = (.ok (q.field (s.player.settle s.now)), s.player.settle s.now) :=
  call_of_ready h s.now _

theorem act_log (s : Screening) (a : PlayerAct) : (s.act a).player.log = s.logAfter a := by
  cases a with
  | perform c =>
    simp only [act, logAfter]
    rcases Nat.eq_zero_or_pos s.player.failures with h | h
    · rw [outcome_of_ready h, obey_log, (settle_log _ _).1]
    · rw [outcome_of_failing h]
      rfl
  | ask q =>
    simp only [act, logAfter]
    rcases Nat.eq_zero_or_pos s.player.failures with h | h
    · rw [reply_of_ready h]
      exact (settle_log _ _).1
    · rw [reply_of_failing h]
      rfl
  | advance grains => rfl
  | failNext n => rfl
  | clearLog => rfl

theorem act_bounded (h : s.player.Bounded duration) (hd : duration.isFinite = true)
    (h0 : 0 ≤ duration) {a : PlayerAct} (ha : a.isFinite = true) :
    (s.act a).player.Bounded duration := by
  have hspent : s.spent.Bounded duration :=
    ⟨h.medium, h.start_le, h.le_stop, h.rate, h.volume, h.ended⟩
  cases a with
  | advance grains => exact h
  | ask q =>
    simp only [act]
    rcases Nat.eq_zero_or_pos s.player.failures with hf | hf
    · rw [reply_of_ready hf]
      exact h.settle hd s.now
    · rw [reply_of_failing hf]
      exact hspent
  | perform c =>
    simp only [act]
    rcases Nat.eq_zero_or_pos s.player.failures with hf | hf
    · rw [outcome_of_ready hf]
      exact (h.settle hd s.now).obey hd h0 s.now ha
    · rw [outcome_of_failing hf]
      exact hspent
  | failNext n => exact ⟨h.medium, h.start_le, h.le_stop, h.rate, h.volume, h.ended⟩
  | clearLog => exact ⟨h.medium, h.start_le, h.le_stop, h.rate, h.volume, h.ended⟩

theorem act_onward (h : s.player.Bounded duration) (hd : duration.isFinite = true)
    {a : PlayerAct} (ha : ∀ target, ¬ s.Seeks a target) :
    s.player.Onward (s.act a).player := by
  have hstay := le_refl (h.isFinite hd)
  cases a with
  | advance grains => exact ⟨hstay, fun _ => rfl, id⟩
  | ask q =>
    simp only [act]
    rcases Nat.eq_zero_or_pos s.player.failures with hf | hf
    · rw [reply_of_ready hf]
      exact h.settle_onward hd s.now
    · rw [reply_of_failing hf]
      exact ⟨hstay, fun _ => rfl, id⟩
  | perform c =>
    simp only [act]
    rcases Nat.eq_zero_or_pos s.player.failures with hf | hf
    · have hseek : c.isSeek = false := by
        cases c with
        | seek target =>
          exact absurd ⟨rfl, by rw [outcome_of_ready hf]; rfl⟩ (ha target)
        | setVolume volume => rfl
        | setRate rate => rfl
        | play => rfl
        | pause => rfl
      rw [outcome_of_ready hf]
      exact (h.settle_onward hd s.now).trans ((h.settle hd s.now).obey_onward hd s.now hseek)
        fun hplay => by rwa [settle_state_of_not_playing hplay]
    · rw [outcome_of_failing hf]
      exact ⟨hstay, fun _ => rfl, id⟩
  | failNext n => exact ⟨hstay, fun _ => rfl, id⟩
  | clearLog => exact ⟨hstay, fun _ => rfl, id⟩

/-- The end of the medium is left by a seek that succeeds and leads to an earlier time. -/
theorem exists_seek_of_left (h : s.player.Bounded duration) (hd : duration.isFinite = true)
    (h0 : 0 ≤ duration) {a : PlayerAct} (hended : s.player.state = .ended)
    (hleft : (s.act a).player.state ≠ .ended) :
    ∃ target, s.Seeks a target ∧ target < duration := by
  by_cases hseek : ∃ target, s.Seeks a target
  · obtain ⟨target, rfl, hok⟩ := hseek
    refine ⟨target, ⟨rfl, hok⟩, ?_⟩
    have hready : s.player.failures = 0 := by
      by_contra hf
      rw [outcome_of_failing (Nat.pos_of_ne_zero hf)] at hok
      cases hok
    simp only [act, outcome_of_ready hready] at hleft
    exact lt_of_obey_seek (h.settle hd s.now) h0 ((h.settle_onward hd s.now).ended hended) hleft
  · exact absurd ((act_onward h hd fun target ht => hseek ⟨target, ht⟩).ended hended) hleft

theorem run_bounded (h : s.player.Bounded duration) (hd : duration.isFinite = true)
    (h0 : 0 ≤ duration) {acts : List PlayerAct} (hacts : ∀ a ∈ acts, a.isFinite = true) :
    (s.run acts).player.Bounded duration := by
  induction acts generalizing s with
  | nil => exact h
  | cons a acts ih =>
    obtain ⟨ha, hacts⟩ := List.forall_mem_cons.mp hacts
    exact ih (act_bounded h hd h0 ha) hacts

/-- On a medium of finite length a player stays within its bounds at every instant of a run, however
fine the clock is, and when it is ended its position compares equal to that length. The next act
does not move it back, does not move it unless it plays, and does not take it away from the end,
except for a seek that succeeds, and such a seek takes it away only if it leads to an earlier time.
A call that is to fail uses up the failure and changes nothing else; the log grows by the commands
that succeed, each once. -/
theorem screening_keeps {p : SimulatedPlayer} (hd : duration.isFinite = true) (h0 : 0 ≤ duration)
    {grain : Nat} (hp : p = { SimulatedPlayer.unstarted duration with grain } ∨
      ∃ position, position.isFinite = true ∧
        p = { SimulatedPlayer.playingFrom duration position with grain })
    {acts : List PlayerAct} (hacts : ∀ a ∈ acts, a.isFinite = true) :
    let s := Screening.run { player := p } acts
    s.player.Bounded duration ∧
    (0 < s.player.failures → (∀ c, s.outcome c = (.error failure, s.spent)) ∧
      ∀ q, s.reply q = (.error failure, s.spent)) ∧
    ∀ a, ((∀ target, ¬ s.Seeks a target) → s.player.Onward (s.act a).player) ∧
      (s.player.state = .ended → (s.act a).player.state ≠ .ended →
        ∃ target, s.Seeks a target ∧ target < duration) ∧
      (s.act a).player.log = s.logAfter a := by
  intro s
  have hstart : p.Bounded duration := by
    rcases hp with rfl | ⟨position, hposition, rfl⟩
    · exact bounded_unstarted h0 grain
    · exact bounded_playingFrom hd h0 hposition grain
  have hbounded : s.player.Bounded duration := run_bounded hstart hd h0 hacts
  exact ⟨hbounded, fun hf => ⟨outcome_of_failing hf, reply_of_failing hf⟩, fun a =>
    ⟨act_onward hbounded hd, exists_seek_of_left hbounded hd h0, s.act_log a⟩⟩

def pastTheEnd : List PlayerAct :=
  [.perform (.setRate 2), .advance 1500000001, .perform .pause, .failNext 1, .perform (.seek 1)]

theorem pastTheEnd_keeps :
    let p := { SimulatedPlayer.playingFrom 3 1 with grain := 1 }
    let s := Screening.run { player := p } pastTheEnd
    s.player.state = .ended ∧ s.player.Bounded 3 ∧ s.player.Onward (s.act (.perform .play)).player ∧
      (s.act (.perform (.seek 1))).player.state = .paused := by
  have hfinite : ∀ a ∈ pastTheEnd, a.isFinite = true := by decide +kernel
  have hlength : (3 : Seconds).isFinite = true := by decide +kernel
  obtain ⟨hbounded, _, hacts⟩ := screening_keeps hlength (by decide +kernel)
    (.inr ⟨1, by decide +kernel, rfl⟩) hfinite
  have hplay := (hacts (.perform .play)).1 fun target hseek => by cases hseek.1
  exact ⟨by decide +kernel, hbounded, hplay, by decide +kernel⟩

end Screening

end PlaybackCues
