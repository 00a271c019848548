import PlaybackCues.Proofs.Recording.Lines

set_option autoImplicit false

/-!
# Recordings of levels

A recording of levels has events that neither move the playback nor stop it, in the order of their
times. An event opens a line unless it comes less than a millisecond after the one that opened the
last line. Each line holds the levels that are in force from its start until the next line starts.
Lines follow each other without a gap exactly where the openings are so far apart that adding a
millisecond to the earlier one does not reach the later one. Where it does, the earlier line goes on
for three seconds over the later one.
-/
namespace PlaybackCues

open Notes Binary64

namespace Transcript

/-! ## Openings and levels in force -/

section Openings

def openingsFrom (since : Seconds) : List RecordedEvent → List Seconds
  | [] => []
  | e :: es =>
    if e.time - since < coincidence then openingsFrom since es
    else e.time :: openingsFrom e.time es

def openings : List RecordedEvent → List Seconds
  | [] => []
  | e :: es => e.time :: openingsFrom e.time es

/-- The events with the moments from which they count: that of the opening which they follow by less
than a millisecond, or their own time. -/
def momentsFrom (since : Seconds) : List RecordedEvent → List (Seconds × RecordedEvent)
  | [] => []
  | e :: es =>
    if e.time - since < coincidence then (since, e) :: momentsFrom since es
    else (e.time, e) :: momentsFrom e.time es

def moments : List RecordedEvent → List (Seconds × RecordedEvent)
  | [] => []
  | e :: es => (e.time, e) :: momentsFrom e.time es

def valueAt (kind : EventKind) (x : Seconds) (initial : Binary64)
    (ms : List (Seconds × RecordedEvent)) : Binary64 :=
  ms.foldl (fun value m => if m.2.kind = kind ∧ m.1 ≤ x then m.2.value else value) initial

end Openings

end Transcript

open Transcript

namespace Recording

def volumeAt (r : Recording) (x : Seconds) : Nat :=
  clampVolume (valueAt .volume x (.ofNat r.volume) (moments r.events))

def rateAt (r : Recording) (x : Seconds) : Binary64 :=
  clampRate (valueAt .speed x r.rate (moments r.events))

/-- Only changes of levels and marks, at times of a recording that are in order. -/
structure OnlyLevels (r : Recording) : Prop where
  kinds : ∀ e ∈ r.events, e.kind.isLevel = true
  times : ∀ e ∈ r.events, e.time.isFinite = true ∧ 0 ≤ e.time ∧ e.time < lastHour
  sorted : r.events.Pairwise fun d e => d.time ≤ e.time
  values : ∀ e ∈ r.events, e.value.isFinite = true
  rate : r.rate.isFinite = true

end Recording

namespace Transcript

/-! ## Levels that a line can show -/

theorem not_lt_clamp {a low high : Binary64} : ¬ high < a.clamp low high := by
  unfold clamp
  dsimp only
  generalize (if a < low then low else a) = raised
  split
  · exact not_lt_self high
  · assumption

theorem clampVolume_le (v : Binary64) : clampVolume v ≤ 100 := by
  have hnot : ¬ ofNat maxVolume < v.round.clamp 0 (ofNat maxVolume) := not_lt_clamp
  unfold clampVolume
  generalize v.round.clamp 0 (ofNat maxVolume) = a at hnot
  cases a with
  | nan => exact Nat.zero_le _
  | infinite s =>
    cases s with
    | true => exact Nat.zero_le _
    | false => exact absurd (by decide +kernel) hnot
  | finite s n hn =>
    cases s with
    | true => exact Nat.zero_le _
    | false =>
      have hle : maxVolume ≤ twoTo 30 := by decide
      rw [lt_iff_units (isFinite_ofNat hle) rfl, units_ofNat hle, units_finite,
        signed_false] at hnot
      have hbound : n ≤ 100 * unity := by
        unfold maxVolume at hnot
        omega
      simp only [toNatClamped, Bool.false_eq_true, if_false]
      refine Nat.le_trans (Nat.min_le_left _ _) ?_
      exact Nat.div_le_of_le_mul (Nat.mul_comm 100 unity ▸ hbound)

/-- A rate is kept between the bounds, in hundredths. -/
theorem exists_clampRate {v : Binary64} (h : v.isNaN = false) :
    ∃ k, 25 ≤ k ∧ k ≤ 200 ∧ clampRate v = fraction k 100 := by
  have hnan : (roundRate v).isNaN = false := by
    cases v with
    | nan => cases h
    | infinite s => cases s <;> decide +kernel
    | finite s m hm =>
      exact isNaN_of_sign? (sign?_round_div s hm (g := 100) (by decide) (by decide))
  have horder : ¬ maxRate < minRate := by decide +kernel
  unfold clampRate clamp
  by_cases hlow : roundRate v < minRate
  · simp only [hlow, if_true, horder, if_false]
    exact ⟨25, by decide, by decide, minRate_eq⟩
  · by_cases hhigh : maxRate < roundRate v
    · simp only [hlow, if_false, hhigh, if_true]
      exact ⟨200, by decide, by decide, maxRate_eq⟩
    · simp only [hlow, if_false, hhigh]
      have hmin : minRate ≤ roundRate v := by
        by_contra hle
        exact hlow ((not_le (by decide +kernel) hnan).mp hle)
      have hmax : roundRate v ≤ maxRate := by
        by_contra hle
        exact hhigh ((not_le hnan (by decide +kernel)).mp hle)
      exact exists_roundRate (by simp [within, hmin, hmax])

/-! ## The lines of levels -/

def Line.opened (t : Seconds) (volume rate : Binary64) : Line :=
  ⟨t, t, clampVolume volume, clampRate rate, .natural⟩

@[simp] theorem opened_volume (t : Seconds) (v w : Binary64) :
    (Line.opened t v w).volume = clampVolume v := by
  simp only [Line.opened]

@[simp] theorem opened_rate (t : Seconds) (v w : Binary64) :
    (Line.opened t v w).rate = clampRate w := by
  simp only [Line.opened]

def laid (t : Seconds) (volume rate : Binary64) : List RecordedEvent → List Line
  | [] => [.opened t volume rate]
  | e :: es =>
    let volume' := if e.kind = .volume then e.value else volume
    let rate' := if e.kind = .speed then e.value else rate
    if e.time - t < coincidence then laid t volume' rate' es
    else .opened t volume rate :: laid e.time volume' rate' es

structure Moment (t : Seconds) : Prop where
  finite : t.isFinite = true
  nonneg : 0 ≤ t.units
  early : ¬ lastHour ≤ t

structure Ahead (t : Seconds) (es : List RecordedEvent) : Prop where
  moment : Moment t
  events : ∀ e ∈ es, e.kind.isLevel = true ∧ Moment e.time ∧ e.value.isFinite = true ∧ t ≤ e.time
  sorted : es.Pairwise fun d e => d.time ≤ e.time

variable {t x : Seconds} {v w : Binary64} {e : RecordedEvent} {es : List RecordedEvent}
  {kind : EventKind}

theorem Ahead.keep (h : Ahead t (e :: es)) : Ahead t es where
  moment := h.moment
  events := fun d hd => h.events d (List.mem_cons_of_mem _ hd)
  sorted := h.sorted.of_cons

theorem Ahead.move (h : Ahead t (e :: es)) : Ahead e.time es where
  moment := (h.events e List.mem_cons_self).2.1
  events := by
    intro d hd
    obtain ⟨hlevel, hmoment, hvalue, _⟩ := h.events d (List.mem_cons_of_mem _ hd)
    exact ⟨hlevel, hmoment, hvalue, List.rel_of_pairwise_cons h.sorted hd⟩
  sorted := h.sorted.of_cons

/-- The rate in force once the first event counts. -/
theorem Ahead.rate (h : Ahead t (e :: es)) (hw : w.isFinite = true) :
    (if e.kind = .speed then e.value else w).isFinite = true := by
  split
  · exact (h.events e List.mem_cons_self).2.2.1
  · exact hw

theorem moment_of_bounds (hfin : t.isFinite = true) (hzero : 0 ≤ t) (hlast : t < lastHour) :
    Moment t := by
  refine ⟨hfin, ?_, fun hle => not_lt_of_le hle hlast⟩
  rw [le_iff_units isFinite_zero hfin, units_zero] at hzero
  exact hzero

theorem ahead_of_levels {r : Recording} (h : r.OnlyLevels) (heq : r.events = e :: es) :
    Ahead e.time es := by
  have hmoment : ∀ d ∈ r.events, Moment d.time := by
    intro d hd
    obtain ⟨hfin, hzero, hlast⟩ := h.times d hd
    exact moment_of_bounds hfin hzero hlast
  rw [heq] at hmoment
  have hsorted := h.sorted
  rw [heq] at hsorted
  refine ⟨hmoment e List.mem_cons_self, fun d hd => ?_, hsorted.of_cons⟩
  have hmem : d ∈ r.events := heq ▸ List.mem_cons_of_mem _ hd
  exact ⟨h.kinds d hmem, hmoment d (List.mem_cons_of_mem _ hd), h.values d hmem,
    List.rel_of_pairwise_cons hsorted hd⟩

/-! ### The fold -/

theorem closing?_of_isLevel (h : e.kind.isLevel = true) : closing? e = none := by
  unfold closing?
  split
  · rename_i hk
    rw [hk] at h
    cases h
  · rename_i hk
    rw [hk] at h
    cases h
  · rfl

theorem resumption_of_isLevel (h : e.kind.isLevel = true) : e.resumption = e.time := by
  unfold RecordedEvent.resumption
  split
  · rename_i hk
    rw [hk] at h
    cases h
  · rfl

theorem joins_opened (hlevel : e.kind.isLevel = true) (ht : t.isFinite = true)
    (he : e.time.isFinite = true) (hle : t ≤ e.time) :
    joins e (.opened t v w) = decide (e.time - t < coincidence) := by
  have hdistance := lt_congr (c := coincidence) (position_sub_of_le ht he hle)
  simp [joins, Line.opened, hlevel, resumption_of_isLevel hlevel, hdistance]

theorem Draft.add_level {older : List Line} (h : Ahead t (e :: es)) :
    Draft.add ⟨clampVolume v, clampRate w, .opened t v w :: older⟩ e =
      let volume := if e.kind = .volume then e.value else v
      let rate := if e.kind = .speed then e.value else w
      if e.time - t < coincidence then
        ⟨clampVolume volume, clampRate rate, .opened t volume rate :: older⟩
      else
        ⟨clampVolume volume, clampRate rate,
          .opened e.time volume rate :: .opened t v w :: older⟩ := by
  obtain ⟨hlevel, hmoment, _, hle⟩ := h.events e List.mem_cons_self
  have hjoins := joins_opened (v := v) (w := w) hlevel h.moment.finite hmoment.finite hle
  have hclose : close e (.opened t v w :: older) = .opened t v w :: older := by
    simp only [close, closing?_of_isLevel hlevel, Option.getD_none]
  simp only [Draft.add, hclose, hjoins, resumption_of_isLevel hlevel, decide_eq_true_eq,
    ← apply_ite clampVolume, ← apply_ite clampRate]
  rfl

theorem foldl_add {older : List Line} (h : Ahead t es) :
    (es.foldl Draft.add ⟨clampVolume v, clampRate w, .opened t v w :: older⟩).lines.reverse =
      older.reverse ++ laid t v w es := by
  induction es generalizing t v w older with
  | nil => simp [laid]
  | cons e es ih =>
    rw [List.foldl_cons, Draft.add_level h]
    simp only [laid]
    split
    · exact ih h.keep
    · rw [ih h.move]
      simp

/-- The lines of a recording of levels, with the levels in force at its first event. -/
theorem lines_of_levels {r : Recording} (h : r.OnlyLevels) (heq : r.events = e :: es) :
    lines r = laid e.time (valueAt .volume e.time (.ofNat r.volume) [(e.time, e)])
      (valueAt .speed e.time r.rate [(e.time, e)]) es := by
  have hlevel := h.kinds e (heq ▸ List.mem_cons_self)
  have hfirst : Draft.add ⟨clampVolume (.ofNat r.volume), clampRate r.rate, []⟩ e =
      ⟨clampVolume (valueAt .volume e.time (.ofNat r.volume) [(e.time, e)]),
        clampRate (valueAt .speed e.time r.rate [(e.time, e)]),
        [.opened e.time (valueAt .volume e.time (.ofNat r.volume) [(e.time, e)])
          (valueAt .speed e.time r.rate [(e.time, e)])]⟩ := by
    have hself := le_refl (ahead_of_levels h heq).moment.finite
    simp only [Draft.add, close, resumption_of_isLevel hlevel, valueAt, List.foldl_cons,
      List.foldl_nil, hself, and_true, ← apply_ite clampVolume, ← apply_ite clampRate]
    rfl
  simp only [lines]
  rw [heq, List.foldl_cons, hfirst, foldl_add (ahead_of_levels h heq)]
  rfl

end Transcript

end PlaybackCues
