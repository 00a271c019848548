import PlaybackCues.Proofs.Player.Motion
import PlaybackCues.Settings.Basic

set_option autoImplicit false

/-!
# The looks behind a recording

A look at a player says where it is and how many seeks it has carried out by then. Every event of
a recording rests on two looks: one gives its time and one the position from which playback goes on.
For most events both are the look at which the event was noticed. A seek is different: its time is
predicted from the recorder's last look before it, and its destination is that of the look at which
it was noticed, or of a later one that moved it.

A report keeps these looks. As long as no seek comes between two looks, the later one is at most so
far ahead as a player can play in the time between them, and this is all that the times of a
recording depend on.
-/
namespace PlaybackCues

open Binary64

/-! ## Meeting -/

def leap : Seconds := ({} : Sampling).seekDelta

/-- The second position does not lie before the first one by more than a leap. Nothing lies before
what is not a number. -/
def Meets (a b : Seconds) : Prop :=
  a.isNaN = true ∨ a = b ∨
    a.isFinite = true ∧ b.isFinite = true ∧ a.units ≤ b.units + leap.units

theorem leap_units : 1000 * leap.units = 5 * (300 * unity : Nat) := by decide +kernel

namespace Moves

variable {m : Nat} {a b c : Seconds}

theorem meets (h : Moves m a b) : Meets a b := by
  have hleap := leap_units
  rcases h with rfl | ⟨ha, hb, hle, _⟩
  · exact .inr (.inl rfl)
  · exact .inr (.inr ⟨ha, hb, by omega⟩)

/-- Positions that are reached from one position in a short time meet. -/
theorem meets_of_common (hb : Moves 300 a b) (hc : Moves 300 a c) : Meets b c := by
  have hleap := leap_units
  rcases hb with rfl | ⟨ha, hb, hab, hb3⟩
  · exact hc.meets
  · rcases hc with rfl | ⟨_, hc, hac, _⟩
    · exact .inr (.inr ⟨hb, ha, by omega⟩)
    · exact .inr (.inr ⟨hb, hc, by omega⟩)

theorem meets_back (h : Moves 300 a b) : Meets b a := h.meets_of_common (.refl _ _)

theorem not_lt (h : Moves m a b) : ¬ b < a := by
  rcases h with rfl | ⟨ha, hb, hle, _⟩
  · exact not_lt_self _
  · exact not_lt_of_le ((le_iff_units ha hb).mpr hle)

theorem eq_of_not_isFinite (h : Moves m a b) (ha : ¬ a.isFinite = true) : a = b :=
  h.resolve_right fun h => ha h.1

end Moves

theorem leap_isFinite : leap.isFinite = true := by decide +kernel

theorem Meets.move {m : Nat} {a b c : Seconds} (h : Meets a b) (hbc : Moves m b c) :
    Meets a c := by
  rcases h with h | rfl | ⟨ha, hb, hle⟩
  · exact .inl h
  · exact hbc.meets
  · rcases hbc with rfl | ⟨_, hc, hle', _⟩
    · exact .inr (.inr ⟨ha, hb, hle⟩)
    · exact .inr (.inr ⟨ha, hc, by omega⟩)

theorem Meets.cases {a b : Seconds} (h : Meets a b) :
    a = nan ∨ (∃ s, a = .infinite s ∧ b = .infinite s) ∨
      a.isFinite = true ∧ b.isFinite = true ∧ a.units ≤ b.units + leap.units := by
  rcases h with hnan | rfl | hfinite
  · exact .inl (eq_nan hnan)
  · cases a with
    | nan => exact .inl rfl
    | infinite s => exact .inr (.inl ⟨s, rfl, rfl⟩)
    | finite s n hn =>
      have hleap := leap_units
      exact .inr (.inr ⟨rfl, rfl, by omega⟩)
  · exact .inr (.inr hfinite)

theorem Meets.not_lt {a b : Seconds} (h : Meets a b) : ¬ b < a - leap := by
  rcases h.cases with rfl | ⟨s, rfl, rfl⟩ | ⟨ha, hb, hle⟩
  · rw [nan_sub]
    exact not_lt_nan b
  · rw [infinite_sub s leap_isFinite]
    exact not_lt_self _
  · have hself : b.AtLeast b.units := .inr ⟨hb, Int.le_refl _⟩
    exact not_lt_of_le (hself.sub_le ha leap_isFinite (by omega))

theorem Meets.not_add_lt {a b : Seconds} (h : Meets a b) : ¬ b + leap < a := by
  rcases h.cases with rfl | ⟨s, rfl, rfl⟩ | ⟨ha, hb, hle⟩
  · exact not_lt_nan _
  · rw [infinite_add s leap_isFinite]
    exact not_lt_self _
  · refine not_lt_of_le (le_of_position (position_of_isFinite ha)
      (position_add hb leap_isFinite) ?_)
    rw [← rounded_units ha]
    exact rounded_mono hle

/-! ## Looks -/

structure Look where
  /-- In milliseconds. -/
  time : Nat
  position : Seconds
  /-- The seeks that the player has carried out by then. -/
  seeks : Nat

def SimulatedPlayer.look (p : SimulatedPlayer) (now : Nat) : Look :=
  ⟨now, (p.settle now).position, p.seeks⟩

structure Sighting where
  time : Seconds
  seek : Bool
  /-- The look that gave the time of the event. -/
  left : Look
  /-- The look that gave the position from which playback goes on. -/
  arrived : Look

structure Report where
  /-- The recorder's last look that later positions are predicted from. -/
  last : Look
  rows : List Sighting := []
  /-- Where each seek found the player. -/
  departures : List Seconds := []

namespace SimulatedPlayer

variable {p q : SimulatedPlayer} {now : Nat}

structure Advances (p q : SimulatedPlayer) : Prop where
  seeks : q.seeks = p.seeks
  anchored : p.anchored ≤ q.anchored
  moves : p.Steady → Moves (q.anchored - p.anchored) p.position q.position ∧ q.Steady

theorem Sound.settle_advances (h : p.Sound) (hnow : p.anchored ≤ now)
    (hgap : now ≤ p.anchored + 300) : p.Advances (p.settle now) where
  seeks := p.settle_seeks now
  anchored := by
    rw [settle_anchored]
    exact hnow
  moves hs := by
    rw [settle_anchored]
    exact ⟨h.settle_moves hs hgap, h.settle_steady⟩

theorem Obeys.advances {c : PlayerCall} (h : p.Obeys c q) (hc : c.isSeek = false) :
    p.Advances q where
  seeks := by
    rw [h.seeks, hc]
    rfl
  anchored := Nat.le_of_eq h.anchored.symm
  moves _ := by
    rw [(h.position hc).1]
    exact ⟨.refl _ _, (h.position hc).2⟩

end SimulatedPlayer

/-! ## What is known of a look -/

/-- What is known of an earlier look at a player, given the recorder's last look. -/
structure Look.Kept (ℓ last : Look) (p : SimulatedPlayer) : Prop where
  seeks_le : ℓ.seeks ≤ p.seeks
  time_le : ℓ.time ≤ p.anchored
  later : last.seeks < ℓ.seeks → last.time ≤ ℓ.time
  meets : ℓ.seeks = last.seeks → Meets ℓ.position last.position
  moves : ℓ.seeks = p.seeks → Moves (p.anchored - ℓ.time) ℓ.position p.position ∧ p.Steady

structure Look.Shows (ℓ : Look) (p : SimulatedPlayer) : Prop where
  time : ℓ.time = p.anchored
  position : ℓ.position = p.position
  seeks : ℓ.seeks = p.seeks
  steady : p.Steady

namespace Look

variable {ℓ last ℓ' : Look} {p q : SimulatedPlayer}

theorem Kept.advance (h : ℓ.Kept last p) (hpq : p.Advances q) : ℓ.Kept last q where
  seeks_le := hpq.seeks ▸ h.seeks_le
  time_le := Nat.le_trans h.time_le hpq.anchored
  later := h.later
  meets := h.meets
  moves hseeks := by
    obtain ⟨hmove, hsteady⟩ := h.moves (hseeks.trans hpq.seeks)
    obtain ⟨hmove', hsteady'⟩ := hpq.moves hsteady
    have hle := h.time_le
    have hanchored := hpq.anchored
    exact ⟨(hmove.trans hmove').mono (by omega), hsteady'⟩

theorem Kept.depart (h : ℓ.Kept last p) (hseeks : q.seeks = p.seeks + 1)
    (hanchored : p.anchored ≤ q.anchored) : ℓ.Kept last q where
  seeks_le := by
    have := h.seeks_le
    omega
  time_le := Nat.le_trans h.time_le hanchored
  later := h.later
  meets := h.meets
  moves heq := by
    have := h.seeks_le
    omega

/-- An earlier look after a new one has become the last. -/
theorem Kept.anchor (h : ℓ.Kept last p) (hs : ℓ'.Shows p) : ℓ.Kept ℓ' p where
  seeks_le := h.seeks_le
  time_le := h.time_le
  later hlt := by
    have := h.seeks_le
    have := hs.seeks
    omega
  meets heq := by
    rw [hs.position]
    exact (h.moves (heq.trans hs.seeks)).1.meets
  moves := h.moves

theorem Shows.kept (hs : ℓ.Shows p) (hlast : last.Kept last p)
    (hgap : p.anchored ≤ last.time + 300) : ℓ.Kept last p where
  seeks_le := Nat.le_of_eq hs.seeks
  time_le := Nat.le_of_eq hs.time
  later _ := hs.time ▸ hlast.time_le
  meets heq := by
    obtain ⟨hmove, _⟩ := hlast.moves (heq.symm.trans hs.seeks)
    rw [hs.position]
    exact (hmove.mono (by omega)).meets_back
  moves _ := by
    rw [hs.position]
    exact ⟨.refl _ _, hs.steady⟩

theorem Shows.kept_self (hs : ℓ.Shows p) : ℓ.Kept ℓ p where
  seeks_le := Nat.le_of_eq hs.seeks
  time_le := Nat.le_of_eq hs.time
  later _ := Nat.le_refl _
  meets _ := .inr (.inl rfl)
  moves _ := by
    rw [hs.position]
    exact ⟨.refl _ _, hs.steady⟩

end Look

/-! ## What is known of a report -/

/-- Every seek that comes after the look finds the player about where the look saw it. -/
def Look.Departs (ℓ : Look) (departures : List Seconds) : Prop :=
  ∀ q, departures[ℓ.seeks]? = some q → Moves 300 ℓ.position q

/-- The time of a seek that is noticed soon after a look: the position that is predicted then,
or zero where nothing can be predicted. -/
def Foreseen (a t : Seconds) : Prop := a.isNaN = true ∧ t = 0 ∨ Moves 300 a t

theorem Foreseen.meets {a b t : Seconds} (h : Foreseen b t) (hab : Meets a b) : Meets a t := by
  rcases h with ⟨hnan, _⟩ | hmove
  · rcases hab with ha | rfl | ⟨_, hb, _⟩
    · exact .inl ha
    · exact .inl hnan
    · rw [isNaN_of_isFinite hb] at hnan
      cases hnan
  · exact hab.move hmove

structure Sighting.Sound (s : Sighting) (last : Look) (departures : List Seconds)
    (p : SimulatedPlayer) : Prop where
  left : s.left.Kept last p
  arrived : s.arrived.Kept last p
  level : s.seek = false → s.time = s.left.position ∧ s.arrived = s.left
  foreseen : s.seek = true → Foreseen s.left.position s.time
  departs : s.seek = true → s.left.Departs departures
  /-- Only from a position that is not finite a seek can be noticed without one. -/
  unsought : s.seek = true → s.left.seeks = p.seeks → ¬ s.left.position.isFinite = true

namespace Report

/-- Events in a row meet unless a seek comes between their looks. -/
def Meet (rows : List Sighting) : Prop :=
  ∀ i a b, rows[i]? = some a → rows[i + 1]? = some b → a.arrived.seeks = b.left.seeks →
    Meets a.arrived.position b.time

structure Holds (w : Report) (p : SimulatedPlayer) : Prop where
  last : w.last.Kept w.last p
  departs : w.last.Departs w.departures
  rows : ∀ s ∈ w.rows, s.Sound w.last w.departures p
  meet : Meet w.rows
  departures : w.departures.length = p.seeks

def anchor (w : Report) (ℓ : Look) : Report := { w with last := ℓ }

def note (w : Report) (ℓ : Look) : Report :=
  { w with rows := w.rows ++ [⟨ℓ.position, false, ℓ, ℓ⟩] }

def arrive (w : Report) (time : Seconds) (ℓ : Look) : Report :=
  { w with last := ℓ, rows := w.rows ++ [⟨time, true, w.last, ℓ⟩] }

def move (w : Report) (i : Nat) (ℓ : Look) : Report :=
  { w with last := ℓ, rows := w.rows.modify i fun s => { s with arrived := ℓ } }

def depart (w : Report) (position : Seconds) : Report :=
  { w with departures := w.departures ++ [position] }

variable {w : Report} {p q : SimulatedPlayer} {ℓ : Look}

theorem Meet.append {rows : List Sighting} (h : Meet rows) {s : Sighting}
    (hs : ∀ a ∈ rows, a.arrived.seeks = s.left.seeks → Meets a.arrived.position s.time) :
    Meet (rows ++ [s]) := by
  intro i a b ha hb hseeks
  obtain ⟨hlt, _⟩ := List.getElem?_eq_some_iff.mp hb
  rw [List.length_append, List.length_singleton] at hlt
  rw [List.getElem?_append_left (by omega)] at ha
  by_cases hi : i + 1 < rows.length
  · rw [List.getElem?_append_left hi] at hb
    exact h i a b ha hb hseeks
  · rw [List.getElem?_append_right (by omega), show i + 1 - rows.length = 0 by omega] at hb
    obtain rfl := Option.some.inj hb
    exact hs a (List.mem_of_getElem? ha) hseeks

/-- A report of one look at a player that has not been sought in. -/
theorem holds_opening (hs : ℓ.Shows p) (hseeks : p.seeks = 0) : Holds { last := ℓ } p where
  last := hs.kept_self
  departs q hq := by
    rw [List.getElem?_nil] at hq
    cases hq
  rows s hs := by cases hs
  meet i a b ha := by
    rw [List.getElem?_nil] at ha
    cases ha
  departures := hseeks.symm

theorem Holds.advance (h : w.Holds p) (hpq : p.Advances q) : w.Holds q where
  last := h.last.advance hpq
  departs := h.departs
  rows s hs :=
    have hsound := h.rows s hs
    { hsound with
      left := hsound.left.advance hpq
      arrived := hsound.arrived.advance hpq
      unsought := hpq.seeks ▸ hsound.unsought }
  meet := h.meet
  departures := h.departures.trans hpq.seeks.symm

/-- A seek is carried out on a player that has been looked at not long ago. -/
theorem Holds.depart (h : w.Holds p) (hgap : p.anchored ≤ w.last.time + 300)
    (hseeks : q.seeks = p.seeks + 1) (hanchored : p.anchored ≤ q.anchored) :
    (w.depart p.position).Holds q := by
  have hlast := h.last.depart hseeks hanchored
  have hdeparts {ℓ : Look} (hℓ : ℓ.Departs w.departures)
      (hnew : ℓ.seeks = p.seeks → Moves 300 ℓ.position p.position) :
      ℓ.Departs (w.departures ++ [p.position]) := by
    intro position hq
    by_cases hlt : ℓ.seeks < w.departures.length
    · rw [List.getElem?_append_left hlt] at hq
      exact hℓ position hq
    · obtain ⟨hle, _⟩ := List.getElem?_eq_some_iff.mp hq
      rw [List.length_append, List.length_singleton] at hle
      have heq : ℓ.seeks = w.departures.length := by omega
      rw [heq, List.getElem?_concat_length] at hq
      obtain rfl := Option.some.inj hq
      exact hnew (heq.trans h.departures)
  refine ⟨hlast, hdeparts h.departs fun heq => ?_, fun s hs => ?_, h.meet, ?_⟩
  · exact (h.last.moves heq).1.mono (by omega)
  · have hsound := h.rows s hs
    refine { hsound with
      left := hsound.left.depart hseeks hanchored
      arrived := hsound.arrived.depart hseeks hanchored
      departs := fun hseek => hdeparts (hsound.departs hseek) fun heq => ?_
      unsought := fun _ heq => ?_ }
    · have hmove := (hsound.left.moves heq).1
      rw [hmove.eq_of_not_isFinite (hsound.unsought hseek heq)]
      exact .refl _ _
    · have := hsound.left.seeks_le
      omega
  · rw [Report.depart, List.length_append, List.length_singleton, h.departures, hseeks]

theorem Holds.departs_new (h : w.Holds p) (hs : ℓ.Shows p) : ℓ.Departs w.departures := by
  intro position hq
  obtain ⟨hlt, _⟩ := List.getElem?_eq_some_iff.mp hq
  have := hs.seeks
  have := h.departures
  omega

theorem Holds.anchor (h : w.Holds p) (hs : ℓ.Shows p) : (w.anchor ℓ).Holds p where
  last := hs.kept_self
  departs := h.departs_new hs
  rows s hrow :=
    have hsound := h.rows s hrow
    { hsound with left := hsound.left.anchor hs, arrived := hsound.arrived.anchor hs }
  meet := h.meet
  departures := h.departures

theorem Holds.note (h : w.Holds p) (hs : ℓ.Shows p) (hgap : p.anchored ≤ w.last.time + 300) :
    (w.note ℓ).Holds p where
  last := h.last
  departs := h.departs
  rows s hrow := by
    rcases List.mem_append.mp hrow with hrow | hrow
    · exact h.rows s hrow
    · obtain rfl := List.mem_singleton.mp hrow
      exact ⟨hs.kept h.last hgap, hs.kept h.last hgap, fun _ => ⟨rfl, rfl⟩, nofun, nofun, nofun⟩
  meet := h.meet.append fun a ha hseeks => by
    obtain ⟨hmove, _⟩ := (h.rows a ha).arrived.moves (hseeks.trans hs.seeks)
    rw [← hs.position] at hmove
    exact hmove.meets
  departures := h.departures

theorem Holds.arrive (h : w.Holds p) (hs : ℓ.Shows p) (hgap : p.anchored ≤ w.last.time + 300)
    {time : Seconds} (htime : Foreseen w.last.position time)
    (hfar : w.last.seeks = p.seeks → ¬ w.last.position.isFinite = true) :
    (w.arrive time ℓ).Holds p := by
  have hℓ := hs.kept h.last hgap
  have hmeet : Meet (w.rows ++ [⟨time, true, w.last, ℓ⟩]) :=
    h.meet.append fun a ha hseeks => htime.meets ((h.rows a ha).arrived.meets hseeks)
  refine ⟨hs.kept_self, h.departs_new hs, fun s hrow => ?_, hmeet, h.departures⟩
  rcases List.mem_append.mp hrow with hrow | hrow
  · have hsound := h.rows s hrow
    exact { hsound with left := hsound.left.anchor hs, arrived := hsound.arrived.anchor hs }
  · obtain rfl := List.mem_singleton.mp hrow
    exact ⟨h.last.anchor hs, hs.kept_self, nofun, fun _ => htime, fun _ => h.departs, fun _ => hfar⟩

theorem getElem?_move {i j : Nat} {s : Sighting} (h : (w.move i ℓ).rows[j]? = some s) :
    ∃ s', w.rows[j]? = some s' ∧ s = if i = j then { s' with arrived := ℓ } else s' := by
  rw [Report.move, List.getElem?_modify] at h
  obtain ⟨s', hs', heq⟩ := Option.map_eq_some_iff.mp h
  exact ⟨s', hs', heq.symm⟩

/-- An event that was noticed before the destination of a seek is moved to a look, but after that
seek, is met by the look. -/
theorem Holds.move_meets (h : w.Holds p) (hs : ℓ.Shows p) (hgap : p.anchored ≤ w.last.time + 300)
    (hfar : w.last.seeks = p.seeks → ¬ w.last.position.isFinite = true) {b : Sighting}
    (hb : b ∈ w.rows) (hlevel : b.seek = false) (hseeks : ℓ.seeks = b.left.seeks) :
    Meets ℓ.position b.time := by
  have hsound := h.rows b hb
  have heq := hseeks.symm.trans hs.seeks
  obtain ⟨hmove, _⟩ := hsound.left.moves heq
  rw [hs.position, (hsound.level hlevel).1]
  by_cases hlast : w.last.seeks = p.seeks
  · have hfinite := (h.last.moves hlast).1.isFinite_iff.not.mp (hfar hlast)
    rw [hmove.eq_of_not_isFinite (hmove.isFinite_iff.not.mpr hfinite)]
    exact .inr (.inl rfl)
  · have hle := h.last.seeks_le
    have hlater := hsound.left.later (by omega)
    exact (hmove.mono (by omega)).meets_back

theorem Holds.move (h : w.Holds p) (hs : ℓ.Shows p) (hgap : p.anchored ≤ w.last.time + 300)
    {i : Nat} (hseek : ∀ s, w.rows[i]? = some s → s.seek = true)
    (hnext : ∀ s, w.rows[i + 1]? = some s → s.seek = false)
    (hfar : w.last.seeks = p.seeks → ¬ w.last.position.isFinite = true) :
    (w.move i ℓ).Holds p := by
  refine ⟨hs.kept_self, h.departs_new hs, fun s hrow => ?_, fun j a b ha hb hseeks => ?_,
    h.departures⟩
  · obtain ⟨j, hj⟩ := List.mem_iff_getElem?.mp hrow
    obtain ⟨s', hs', rfl⟩ := getElem?_move hj
    have hsound := h.rows s' (List.mem_of_getElem? hs')
    split
    · rename_i hij
      subst hij
      have hlevel : s'.seek = false → s'.time = s'.left.position ∧ ℓ = s'.left :=
        fun hlevel => Bool.noConfusion (hlevel.symm.trans (hseek s' hs'))
      exact { hsound with
        left := hsound.left.anchor hs, arrived := hs.kept_self, level := hlevel }
    · exact { hsound with left := hsound.left.anchor hs, arrived := hsound.arrived.anchor hs }
  · obtain ⟨a', ha', rfl⟩ := getElem?_move ha
    obtain ⟨b', hb', rfl⟩ := getElem?_move hb
    have hb'' := List.mem_of_getElem? hb'
    by_cases hij : i = j
    · subst hij
      rw [if_pos rfl, if_neg (by omega)] at hseeks ⊢
      exact h.move_meets hs hgap hfar hb'' (hnext b' hb') hseeks
    · rw [if_neg hij] at hseeks ⊢
      have hmeets := h.meet j a' b' ha' hb'
      split at hseeks <;> rename_i hnext
      · rw [if_pos hnext]
        exact hmeets hseeks
      · rw [if_neg hnext]
        exact hmeets hseeks

end Report

end PlaybackCues
