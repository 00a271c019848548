import PlaybackCues.Proofs.Recording.Levels

set_option autoImplicit false

/-!
# The timeline of levels

What is read back from the lines of a recording of levels, and when these lines leave no gap.
-/
namespace PlaybackCues

open Notes Binary64

namespace Transcript

variable {t u x : Seconds} {v w : Binary64} {e : RecordedEvent} {es : List RecordedEvent}
  {kind : EventKind} {l : Line} {r : Recording}

/-! ## The levels of a line -/

/-- A line that can be built whatever follows it. -/
structure Line.Sound (l : Line) : Prop where
  moment : Moment l.start
  anchored : Moment l.anchor
  volume : l.volume ≤ 100
  rate : ∃ k, 25 ≤ k ∧ k ≤ 200 ∧ l.rate = fraction k 100
  check : l.mode.check = .ok ()

structure Line.Level (l : Line) : Prop where
  anchor : l.anchor = l.start
  mode : l.mode = .natural
  moment : Moment l.start
  volume : l.volume ≤ 100
  rate : ∃ k, 25 ≤ k ∧ k ≤ 200 ∧ l.rate = fraction k 100

theorem Line.Level.sound (h : l.Level) : l.Sound where
  moment := h.moment
  anchored := h.anchor ▸ h.moment
  volume := h.volume
  rate := h.rate
  check := by rw [h.mode]; rfl

theorem level_opened (ht : Moment t) (hw : w.isFinite = true) : (Line.opened t v w).Level where
  anchor := rfl
  mode := rfl
  moment := ht
  volume := by
    rw [opened_volume]
    exact clampVolume_le v
  rate := by
    rw [opened_rate]
    exact exists_clampRate (isNaN_of_isFinite hw)

theorem level_of_mem_laid (h : Ahead t es) (hw : w.isFinite = true) (hl : l ∈ laid t v w es) :
    l.Level ∧ t ≤ l.start := by
  have hself := le_refl h.moment.finite
  induction es generalizing t v w with
  | nil =>
    obtain rfl := List.mem_singleton.mp hl
    exact ⟨level_opened h.moment hw, hself⟩
  | cons e es ih =>
    obtain ⟨_, hmoment, _, hle⟩ := h.events e List.mem_cons_self
    simp only [laid] at hl
    split at hl
    · exact ih h.keep (h.rate hw) hl hself
    · rcases List.mem_cons.mp hl with rfl | hl
      · exact ⟨level_opened h.moment hw, hself⟩
      · obtain ⟨hlevel, hstart⟩ := ih h.move (h.rate hw) hl (le_refl hmoment.finite)
        exact ⟨hlevel, le_trans hle hstart⟩

theorem laid_starts (t : Seconds) (v w : Binary64) (es : List RecordedEvent) :
    (laid t v w es).map Line.start = t :: openingsFrom t es := by
  induction es generalizing t v w with
  | nil => rfl
  | cons e es ih =>
    simp only [laid, openingsFrom]
    split
    · exact ih t _ _
    · rw [List.map_cons, ih]
      rfl

theorem momentsFrom_ge (h : Ahead t es) {m : Seconds × RecordedEvent}
    (hm : m ∈ momentsFrom t es) : t ≤ m.1 := by
  have hself := le_refl h.moment.finite
  induction es generalizing t with
  | nil => cases hm
  | cons e es ih =>
    obtain ⟨_, hmoment, _, hle⟩ := h.events e List.mem_cons_self
    simp only [momentsFrom] at hm
    split at hm
    · rcases List.mem_cons.mp hm with rfl | hm
      · exact hself
      · exact ih h.keep hm hself
    · rcases List.mem_cons.mp hm with rfl | hm
      · exact hle
      · exact le_trans hle (ih h.move hm (le_refl hmoment.finite))

/-- What counts only later does not change the value. -/
theorem valueAt_of_lt {ms : List (Seconds × RecordedEvent)} (h : ∀ m ∈ ms, x < m.1) :
    valueAt kind x v ms = v := by
  induction ms with
  | nil => rfl
  | cons m ms ih =>
    obtain ⟨hfirst, hrest⟩ := List.forall_mem_cons.mp h
    have hnot : ¬ m.1 ≤ x := fun hle => not_lt_of_le hle hfirst
    unfold valueAt
    rw [List.foldl_cons, if_neg (by simp [hnot])]
    exact ih hrest

theorem valueAt_nil : valueAt kind x v [] = v := rfl

theorem valueAt_cons_of_le (h : t ≤ x) (ms : List (Seconds × RecordedEvent)) :
    valueAt kind x v ((t, e) :: ms) =
      valueAt kind x (if e.kind = kind then e.value else v) ms := by
  simp [valueAt, h]

/-- A line holds the levels in force at any time from its start on, before the next line starts. -/
theorem laid_levels {i : Nat} (h : Ahead t es) (hw : w.isFinite = true)
    (hl : (laid t v w es)[i]? = some l) (hx : l.start ≤ x)
    (hnext : ∀ next, (laid t v w es)[i + 1]? = some next → x < next.start) :
    l.volume = clampVolume (valueAt .volume x v (momentsFrom t es)) ∧
      l.rate = clampRate (valueAt .speed x w (momentsFrom t es)) := by
  induction es generalizing t v w i with
  | nil =>
    cases i with
    | zero =>
      obtain rfl : Line.opened t v w = l := by simpa [laid] using hl
      rw [momentsFrom, valueAt_nil, valueAt_nil, opened_volume, opened_rate]
      exact ⟨rfl, rfl⟩
    | succ i => cases hl
  | cons e es ih =>
    have hw' := h.rate hw
    by_cases hjoin : e.time - t < coincidence
    · simp only [laid, momentsFrom, if_pos hjoin] at hl hnext ⊢
      have htx := le_trans (level_of_mem_laid h.keep hw' (List.mem_of_getElem? hl)).2 hx
      rw [valueAt_cons_of_le htx, valueAt_cons_of_le htx]
      exact ih h.keep hw' hl hnext
    · simp only [laid, momentsFrom, if_neg hjoin] at hl hnext ⊢
      cases i with
      | zero =>
        obtain rfl : Line.opened t v w = l := by simpa using hl
        -- the next line is the one that this event opens, so nothing behind it counts yet
        have hlt : x < e.time := by
          have hstarts := laid_starts e.time (if e.kind = .volume then e.value else v)
            (if e.kind = .speed then e.value else w) es
          cases hrest : laid e.time (if e.kind = .volume then e.value else v)
              (if e.kind = .speed then e.value else w) es with
          | nil =>
            rw [hrest] at hstarts
            cases hstarts
          | cons next rest =>
            rw [hrest] at hstarts hnext
            have hstart : next.start = e.time := (List.cons.inj hstarts).1
            rw [← hstart]
            exact hnext next rfl
        have hlater : ∀ m ∈ (e.time, e) :: momentsFrom e.time es, x < m.1 :=
          List.forall_mem_cons.mpr
            ⟨hlt, fun m hm => lt_of_lt_of_le hlt (momentsFrom_ge h.move hm)⟩
        rw [valueAt_of_lt hlater, valueAt_of_lt hlater, opened_volume, opened_rate]
        exact ⟨rfl, rfl⟩
      | succ i =>
        simp only [List.getElem?_cons_succ] at hl hnext
        have hex := le_trans (level_of_mem_laid h.move hw' (List.mem_of_getElem? hl)).2 hx
        rw [valueAt_cons_of_le hex, valueAt_cons_of_le hex]
        exact ih h.move hw' hl hnext

/-! ## The end of a line -/

theorem coincidence_finite : coincidence.isFinite = true := by decide +kernel

/-- The millisecond of the comparison is a little more than one, as a double. -/
theorem coincidence_units :
    (unity : Int) < 1000 * coincidence.units ∧ 1000 * coincidence.units < 2 * unity := by
  decide +kernel

theorem Moment.units_lt (ht : Moment t) : t.units < (356400 * unity : Nat) :=
  units_lt_lastHour ht.finite ht.early

theorem gap_of_lt (ht : t.isFinite = true) (hu : u.isFinite = true) (h : t + coincidence < u) :
    1000 * t.units + unity < 1000 * u.units := by
  rw [lt_iff_of_position (position_add ht coincidence_finite) (position_of_isFinite hu)] at h
  have hlt : t.units + coincidence.units < u.units := by
    by_contra hle
    have hmono := rounded_mono (Int.not_lt.mp hle)
    rw [rounded_units hu] at hmono
    omega
  have hms := coincidence_units.1
  omega

theorem near_of_not_lt (ht : Moment t) (hu : u.isFinite = true) (h : ¬ t + coincidence < u) :
    u.units ≤ t.units + unity := by
  rw [lt_iff_of_position (position_add ht.finite coincidence_finite) (position_of_isFinite hu)] at h
  have hms := coincidence_units
  have hnonneg := ht.nonneg
  have hlt := ht.units_lt
  have h30 : twoTo 30 = 1073741824 := rfl
  obtain ⟨hupper, _, _⟩ := rounded_error (z := t.units + coincidence.units) (by omega)
    (by rw [h30]; omega)
  omega

theorem trailing_units (ht : Moment t) :
    (t + trailingWindow).isFinite = true ∧
      1000000 * (t.units + (3 * unity : Nat)) ≤ 1000000 * (t + trailingWindow).units + unity := by
  have hnonneg := ht.nonneg
  have hlt := ht.units_lt
  have h30 : twoTo 30 = 1073741824 := rfl
  have hpos := position_trailing ht.finite
  obtain ⟨_, hlower, hlim⟩ := rounded_error (z := t.units + (3 * unity : Nat)) (by omega)
    (by rw [h30]; omega)
  exact ⟨isFinite_of_position hpos hlim, units_of_position hpos ▸ hlower⟩

/-- A line ends more than a millisecond behind its start. -/
theorem Line.Sound.endOf_gap {next : Option Line} (hl : l.Sound) (hnext : ∀ n ∈ next, n.Sound) :
    (endOf l next).isFinite = true ∧ ¬ latest < endOf l next ∧
      1000 * l.start.units + unity < 1000 * (endOf l next).units := by
  obtain ⟨hfin, hunits⟩ := trailing_units hl.moment
  have hu := unity_pos
  have htrailing : 1000 * l.start.units + unity < 1000 * (l.start + trailingWindow).units := by
    omega
  have hlatest := not_latest_lt_add hl.moment.early
  cases next with
  | none => exact ⟨hfin, hlatest, htrailing⟩
  | some n =>
    have hn := (hnext n rfl).anchored
    simp only [endOf]
    split
    · rename_i h
      exact ⟨hn.finite, not_latest_lt hn.early, gap_of_lt hl.moment.finite hn.finite h⟩
    · exact ⟨hfin, hlatest, htrailing⟩

theorem endOf_gap {next : Option Line} (hl : l.Level) (hnext : ∀ n ∈ next, n.Level) :
    (endOf l next).isFinite = true ∧ ¬ latest < endOf l next ∧
      1000 * l.start.units + unity < 1000 * (endOf l next).units :=
  hl.sound.endOf_gap fun n hn => (hnext n hn).sound

/-- Times of a recording keep their order in milliseconds if they are more than one apart. -/
theorem millis_lt {a b : Seconds} (ha : a.isFinite = true) (hb : b.isFinite = true)
    (ha0 : 0 ≤ a.units) (hlatest : ¬ latest < b) (h : 1000 * a.units + unity < 1000 * b.units) :
    TimeCode.toMillis a < TimeCode.toMillis b :=
  TimeCode.toMillis_lt ha hb ha0 (by decide) (units_le_latest hb hlatest) h

theorem millis_le {a : Seconds} (ha : a.isFinite = true) (h : ¬ latest < a) :
    TimeCode.toMillis a ≤ 356403000 :=
  TimeCode.toMillis_le ha (by decide) (units_le_latest ha h)

theorem millis_bound : 356403000 ≤ twoTo 29 := by decide

theorem Line.Level.millis_le (hl : l.Level) : TimeCode.toMillis l.start ≤ twoTo 29 :=
  Nat.le_trans (Transcript.millis_le hl.moment.finite (not_latest_lt hl.moment.early)) millis_bound

/-! ## What is read back -/

theorem Line.Sound.builds {next : Option Line} (hl : l.Sound) (hnext : ∀ n ∈ next, n.Sound) :
    builds ⟨l.start, endOf l next, l.volume, l.rate, l.mode⟩ = true := by
  obtain ⟨hfin, hlatest, hgap⟩ := hl.endOf_gap hnext
  obtain ⟨k, hlow, hhigh, hk⟩ := hl.rate
  have hstart := hl.moment.finite
  have hearly := not_latest_lt hl.moment.early
  have hnonneg := hl.moment.nonneg
  have hneg := TimeCode.roundMillis_not_lt_zero hstart hnonneg
  obtain ⟨hround, hunits, _⟩ := TimeCode.roundMillis_eq hstart (n := 356403000) (by decide)
    (units_le_latest hstart hearly) hneg
  have hneg' := TimeCode.roundMillis_not_lt_zero hfin (t := endOf l next) (by omega)
  obtain ⟨hround', hunits', _⟩ := TimeCode.roundMillis_eq hfin (n := 356403000) (by decide)
    (units_le_latest hfin hlatest) hneg'
  have hle := Nat.le_trans (millis_le hstart hearly) millis_bound
  have hle' := Nat.le_trans (millis_le hfin hlatest) millis_bound
  have hwindow : roundMillis l.start < roundMillis (endOf l next) := by
    rw [lt_iff_units hround hround', hunits, hunits', ← lt_iff_units
      (TimeCode.isFinite_ofMillis hle) (TimeCode.isFinite_ofMillis hle')]
    exact (TimeCode.ofMillis_lt_iff hle hle').mpr (millis_lt hstart hfin hnonneg hlatest hgap)
  rw [builds_iff, CueSpec.check_eq_ok_iff]
  refine ⟨(checkWindow_eq_ok_iff hround hround' hneg).mpr hwindow,
    checkVolume_eq_ok_iff.mpr hl.volume, checkRate_eq_ok_iff.mpr ?_, hl.check⟩
  change (roundRate l.rate).within 0.25 2 = true
  rw [hk, roundRate_fraction (Nat.le_trans hhigh (by decide))]
  exact within_hundredths hlow hhigh

theorem specs_getElem? (ls : List Line) (i : Nat) :
    (specs ls)[i]? = ls[i]?.map fun l =>
      (l.anchor, ⟨l.start, endOf l ls[i + 1]?, l.volume, l.rate, l.mode⟩) := by
  induction ls generalizing i with
  | nil => rfl
  | cons line rest ih =>
    cases i with
    | zero =>
      have hhead : rest.head? = rest[0]? := List.head?_eq_getElem? ..
      simp [specs, hhead]
    | succ i => simp [specs, ih]

theorem length_specs (ls : List Line) : (specs ls).length = ls.length := by
  induction ls with
  | nil => rfl
  | cons line rest ih => simp [specs, ih]

theorem numbered_specs (k : Nat) (es : List Entry) :
    (numbered k es).map Cue.toCueSpec = es.map Entry.spec := by
  induction es generalizing k with
  | nil => rfl
  | cons e es ih => simp only [numbered, List.map_cons, ih]; rfl

theorem early_of_levels (h : r.OnlyLevels) : r.Early := by
  intro e he
  obtain ⟨_, _, hlast⟩ := h.times e he
  refine ⟨fun hle => not_lt_of_le hle hlast, fun hseek => ?_⟩
  have hlevel := h.kinds e he
  rw [hseek] at hlevel
  cases hlevel

theorem builds_of_mem_specs {ls : List Line} (h : ∀ l ∈ ls, l.Sound) :
    ∀ p ∈ specs ls, builds p.2 = true := by
  intro p hp
  obtain ⟨i, hi⟩ := List.mem_iff_getElem?.mp hp
  rw [specs_getElem?] at hi
  obtain ⟨l, hl, rfl⟩ := Option.map_eq_some_iff.mp hi
  exact (h l (List.mem_of_getElem? hl)).builds fun n hn => h n (List.mem_of_getElem? hn)

/-- If all lines are those of levels, then each of them is read back. -/
theorem parse_specs (hearly : r.Early) (h : ∀ l ∈ lines r, l.Level) :
    (parse (write r)).map Cue.toCueSpec = (specs (lines r)).map fun p => p.2.readBack := by
  obtain ⟨es, hes, hspecs⟩ := exists_entries_written hearly
  have hall := builds_of_mem_specs fun l hl => (h l hl).sound
  rw [List.filter_eq_self.mpr hall] at hspecs
  have hparse : (parse (write r)).map Cue.atOrigin = numbered 0 es := (Lists.layout hes).parse
  rw [← hspecs, ← numbered_specs 0, ← hparse, List.map_map]
  rfl

/-! ## The lines of a recording of levels -/

theorem lines_of_nil (h : r.events = []) : lines r = [] := by
  simp [lines, h]

/-- The first line is opened with a finite rate. -/
theorem rate_of_levels (h : r.OnlyLevels) (heq : r.events = e :: es) :
    (valueAt .speed e.time r.rate [(e.time, e)]).isFinite = true := by
  rw [valueAt_cons_of_le (le_refl (ahead_of_levels h heq).moment.finite), valueAt_nil]
  split
  · exact h.values e (heq ▸ List.mem_cons_self)
  · exact h.rate

theorem lines_level (h : r.OnlyLevels) : ∀ l ∈ lines r, l.Level := by
  intro l hl
  cases heq : r.events with
  | nil =>
    rw [lines_of_nil heq] at hl
    cases hl
  | cons e es =>
    rw [lines_of_levels h heq] at hl
    exact (level_of_mem_laid (ahead_of_levels h heq) (rate_of_levels h heq) hl).1

theorem lines_starts (h : r.OnlyLevels) : (lines r).map Line.start = openings r.events := by
  cases heq : r.events with
  | nil => rw [lines_of_nil heq]; rfl
  | cons e es => rw [lines_of_levels h heq, laid_starts]; rfl

theorem lines_levels {i : Nat} (h : r.OnlyLevels) (hl : (lines r)[i]? = some l)
    (hx : l.start ≤ x) (hnext : ∀ next, (lines r)[i + 1]? = some next → x < next.start) :
    l.volume = r.volumeAt x ∧ l.rate = r.rateAt x := by
  have hlevel := lines_level h
  cases heq : r.events with
  | nil =>
    rw [lines_of_nil heq] at hl
    cases hl
  | cons e es =>
    have hself := le_refl (ahead_of_levels h heq).moment.finite
    have hw := rate_of_levels h heq
    rw [lines_of_levels h heq] at hl hnext
    have hmem := List.mem_of_getElem? hl
    have hex := le_trans (level_of_mem_laid (ahead_of_levels h heq) hw hmem).2 hx
    have hlevels := laid_levels (ahead_of_levels h heq) hw hl hx hnext
    unfold Recording.volumeAt Recording.rateAt
    rw [heq, moments, valueAt_cons_of_le hex, valueAt_cons_of_le hex]
    rw [valueAt_cons_of_le hself, valueAt_cons_of_le hself, valueAt_nil, valueAt_nil] at hlevels
    exact hlevels

theorem Line.Level.roundRate (hl : l.Level) : roundRate l.rate = l.rate := by
  obtain ⟨k, _, hhigh, hk⟩ := hl.rate
  rw [hk, roundRate_fraction (Nat.le_trans hhigh (by decide))]

structure ReadFrom (c : Cue) (l : Line) (next : Option Line) : Prop where
  start : c.start = TimeCode.ofMillis (TimeCode.toMillis l.start)
  stop : c.stop = TimeCode.ofMillis (TimeCode.toMillis (endOf l next))
  volume : c.volume = l.volume
  rate : c.rate = l.rate

/-- What is read at a place comes from the line at that place. -/
theorem parse_getElem? {i : Nat} {c : Cue} (h : r.OnlyLevels)
    (hc : (parse (write r))[i]? = some c) :
    ∃ l, (lines r)[i]? = some l ∧ (openings r.events)[i]? = some l.start ∧
      ReadFrom c l (lines r)[i + 1]? := by
  have hspec : ((parse (write r)).map Cue.toCueSpec)[i]? = some c.toCueSpec := by
    rw [List.getElem?_map, hc]
    rfl
  rw [parse_specs (early_of_levels h) (lines_level h), List.getElem?_map, specs_getElem?,
    Option.map_map] at hspec
  obtain ⟨l, hl, hread⟩ := Option.map_eq_some_iff.mp hspec
  have hlevel := lines_level h l (List.mem_of_getElem? hl)
  simp only [Function.comp_apply, CueSpec.readBack, hlevel.roundRate] at hread
  refine ⟨l, hl, ?_, ?_⟩
  · rw [← lines_starts h, List.getElem?_map, hl]
    rfl
  · constructor <;> rw [← hread]

theorem parse_length (h : r.OnlyLevels) :
    (parse (write r)).length = (openings r.events).length := by
  calc
    (parse (write r)).length = ((parse (write r)).map Cue.toCueSpec).length := by simp
    _ = (lines r).length := by
      rw [parse_specs (early_of_levels h) (lines_level h), List.length_map, length_specs]
    _ = (openings r.events).length := by rw [← lines_starts h, List.length_map]

/-! ## The timeline -/

/-- A line ends where the next one starts if and only if the next opening is not reached by adding
a millisecond to this one. Otherwise it goes on for three seconds, over the next one. -/
theorem closes_iff {n : Line} (hl : l.Level) (hn : n.Level) :
    (TimeCode.toMillis (endOf l (some n)) = TimeCode.toMillis n.start ↔
        l.start + coincidence < n.start) ∧
      (TimeCode.toMillis n.start < TimeCode.toMillis (endOf l (some n)) ↔
        ¬ l.start + coincidence < n.start) := by
  by_cases hgap : l.start + coincidence < n.start
  · have hend : endOf l (some n) = n.start := by
      simp only [endOf, hn.anchor, if_pos hgap]
    rw [hend]
    simp [hgap]
  · have hend : endOf l (some n) = l.start + trailingWindow := by
      simp only [endOf, hn.anchor, if_neg hgap]
    have hnear := near_of_not_lt hl.moment hn.moment.finite hgap
    obtain ⟨hfin, hunits⟩ := trailing_units hl.moment
    have hu := unity_pos
    have hlt := millis_lt hn.moment.finite hfin hn.moment.nonneg
      (not_latest_lt_add hl.moment.early) (by omega)
    rw [hend]
    simp [hgap, hlt, Nat.ne_of_gt hlt]

/-- The notes that are written for a recording of levels have one cue for each opening. It starts
at the millisecond of the opening, and it ends where the next cue starts exactly if adding a
millisecond to the opening does not reach the next one; otherwise it overlaps the next cue. At every
millisecond inside its window and before the next cue it has the levels in force. -/
theorem levels_timeline (h : r.OnlyLevels) :
    (parse (write r)).length = (openings r.events).length ∧
      ∀ i c t, (parse (write r))[i]? = some c → (openings r.events)[i]? = some t →
        c.start = TimeCode.ofMillis (TimeCode.toMillis t) ∧
        (∀ d u, (parse (write r))[i + 1]? = some d → (openings r.events)[i + 1]? = some u →
          (c.stop = d.start ↔ t + coincidence < u) ∧
            (d.start < c.stop ↔ ¬ t + coincidence < u)) ∧
        ∀ j, c.start < TimeCode.ofMillis j → TimeCode.ofMillis j < c.stop →
          (∀ d, (parse (write r))[i + 1]? = some d → TimeCode.ofMillis j < d.start) →
          c.volume = r.volumeAt (TimeCode.ofMillis j) ∧
            c.rate = r.rateAt (TimeCode.ofMillis j) := by
  refine ⟨parse_length h, fun i c t hc ht => ?_⟩
  obtain ⟨l, hl, hopening, hread⟩ := parse_getElem? h hc
  obtain rfl : l.start = t := Option.some.inj (hopening.symm.trans ht)
  have hlevel := lines_level h l (List.mem_of_getElem? hl)
  have hnextLevel : ∀ n ∈ (lines r)[i + 1]?, n.Level :=
    fun n hn => lines_level h n (List.mem_of_getElem? hn)
  obtain ⟨hfin, hlatest, _⟩ := endOf_gap hlevel hnextLevel
  have hb := Nat.le_trans (millis_le hfin hlatest) millis_bound
  refine ⟨hread.start, fun d u hd hu => ?_, fun j hj hjstop hjnext => ?_⟩
  · obtain ⟨n, hn, hopening', hread'⟩ := parse_getElem? h hd
    obtain rfl : n.start = u := Option.some.inj (hopening'.symm.trans hu)
    have hlevel' := hnextLevel n hn
    obtain ⟨heq, hlt⟩ := closes_iff hlevel hlevel'
    have hstop := hread.stop
    rw [hn] at hstop hb
    rw [hread'.start, hstop, TimeCode.ofMillis_lt_iff hlevel'.millis_le hb,
      TimeCode.ofMillis_inj hb hlevel'.millis_le]
    exact ⟨heq, hlt⟩
  · rw [hread.stop] at hjstop
    have hjb : j < twoTo 29 := by
      by_contra hlarge
      exact not_lt_of_le (TimeCode.ofMillis_le (Nat.le_trans hb (Nat.le_of_not_lt hlarge))) hjstop
    have hj29 := Nat.le_of_lt hjb
    rw [hread.start, TimeCode.ofMillis_lt_iff hlevel.millis_le hj29] at hj
    have hlj := TimeCode.lt_ofMillis hlevel.moment.finite (n := 356403000) (by decide)
      (units_le_latest hlevel.moment.finite (not_latest_lt hlevel.moment.early)) hjb hj
    rw [hread.volume, hread.rate]
    refine lines_levels h hl (le_of_lt hlj) fun n hn => ?_
    have hlength : i + 1 < (parse (write r)).length := by
      rw [parse_length h, ← lines_starts h, List.length_map]
      exact (List.getElem?_eq_some_iff.mp hn).1
    obtain ⟨n', hn', _, hread'⟩ := parse_getElem? h (List.getElem?_eq_getElem hlength)
    obtain rfl : n' = n := Option.some.inj (hn'.symm.trans hn)
    have hlevel' := hnextLevel n' hn
    have hjn := hjnext _ (List.getElem?_eq_getElem hlength)
    rw [hread'.start, TimeCode.ofMillis_lt_iff hj29 hlevel'.millis_le] at hjn
    exact TimeCode.ofMillis_lt hlevel'.moment.finite hjb hjn

def touching : Recording where
  id := ⟨0⟩
  document := 1
  title := none
  duration := 120
  volume := 100
  rate := 1
  created := .ofMillis 0
  updated := .ofMillis 0
  events := [⟨⟨0⟩, 0, .volume, 50, 100, .ofMillis 0⟩, ⟨⟨1⟩, 0.001, .volume, 60, 50, .ofMillis 1⟩]

theorem touching_overlaps :
    touching.OnlyLevels ∧ openings touching.events = [0, 0.001] ∧
      ∃ c d, (parse (write touching))[0]? = some c ∧ (parse (write touching))[1]? = some d ∧
        d.start < c.stop := by
  have hlevels : touching.OnlyLevels :=
    ⟨by decide +kernel, by decide +kernel, by decide +kernel, by decide +kernel, by decide +kernel⟩
  have hopenings : openings touching.events = [0, 0.001] := by decide +kernel
  obtain ⟨hlength, hcues⟩ := levels_timeline hlevels
  rw [hopenings] at hlength hcues
  simp only [List.length_cons, List.length_nil] at hlength
  have hfirst : 0 < (parse (write touching)).length := by omega
  have hsecond : 0 + 1 < (parse (write touching)).length := by omega
  have hc := List.getElem?_eq_getElem hfirst
  have hd := List.getElem?_eq_getElem hsecond
  obtain ⟨_, hnext, _⟩ := hcues 0 _ 0 hc List.getElem?_cons_zero
  obtain ⟨_, hoverlap⟩ := hnext _ 0.001 hd rfl
  exact ⟨hlevels, hopenings, _, _, hc, hd, hoverlap.mpr (by decide +kernel)⟩

end Transcript

end PlaybackCues
