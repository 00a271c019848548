import PlaybackCues.Proofs.Recording.Kinds
import PlaybackCues.Proofs.Recording.Timeline

set_option autoImplicit false

/-!
# The stretches of a recording

Every event of a recording opens a line of its notes, except the changes of levels and the marks
that fall on the instant of the opening before them. So the events fall into stretches: an opener
and the events that joined its line. A line shows the levels at the end of its stretch, and its mode
is that which the opener of the next stretch gives it. This holds for any mix and order of events,
also when times go back, and the written text shows it.
-/
namespace PlaybackCues

open Notes Binary64

namespace Transcript

/-! ## Stretches -/

section Stretches

/-- The event falls on the instant of the opening, and neither moves the playback nor stops it. -/
def coincides (opener e : RecordedEvent) : Bool :=
  e.kind.isLevel && (opener.time - e.time).abs < coincidence &&
    (opener.resumption - e.resumption).abs < coincidence

structure Stretch where
  opener : RecordedEvent
  joined : List RecordedEvent
  deriving DecidableEq

def Stretch.events (s : Stretch) : List RecordedEvent := s.opener :: s.joined

/-- The stretch of an opener that some events have joined, and the stretches behind it. -/
def stretchesFrom (opener : RecordedEvent) (joined : List RecordedEvent) :
    List RecordedEvent → List Stretch
  | [] => [⟨opener, joined⟩]
  | e :: es =>
    if coincides opener e then stretchesFrom opener (joined ++ [e]) es
    else ⟨opener, joined⟩ :: stretchesFrom e [] es

def stretches : List RecordedEvent → List Stretch
  | [] => []
  | e :: es => stretchesFrom e [] es

def modeBefore (next : Option RecordedEvent) : Mode := (next.bind closing?).getD .natural

end Stretches

end Transcript

open Transcript

namespace Recording

def volumeAfter (r : Recording) (events : List RecordedEvent) : Nat :=
  clampVolume (lastValue .volume (.ofNat r.volume) events)

def rateAfter (r : Recording) (events : List RecordedEvent) : Binary64 :=
  clampRate (lastValue .speed r.rate events)

/-- Every event and every destination of a seek has a time of a recording, and every rate is a
number. The events come in any order, and their other values are arbitrary. -/
structure Timely (r : Recording) : Prop where
  times : ∀ e ∈ r.events, e.time.isFinite = true ∧ 0 ≤ e.time ∧ e.time < lastHour
  destinations : ∀ e ∈ r.events, e.kind = .seek →
    e.value.isFinite = true ∧ 0 ≤ e.value ∧ e.value < lastHour
  speeds : ∀ e ∈ r.events, e.kind = .speed → e.value.isNaN = false
  rate : r.rate.isNaN = false

end Recording

namespace Transcript

variable {r : Recording} {e o : RecordedEvent} {es joined before : List RecordedEvent}
  {s : Stretch}

/-! ### Every event belongs to one stretch -/

theorem head?_stretchesFrom (o : RecordedEvent) (joined es : List RecordedEvent) :
    (stretchesFrom o joined es).head?.map Stretch.opener = some o := by
  induction es generalizing joined with
  | nil => rfl
  | cons e es ih =>
    unfold stretchesFrom
    split
    · exact ih _
    · rfl

theorem flatMap_stretchesFrom (o : RecordedEvent) (joined es : List RecordedEvent) :
    (stretchesFrom o joined es).flatMap Stretch.events = o :: joined ++ es := by
  induction es generalizing o joined with
  | nil => simp [stretchesFrom, Stretch.events]
  | cons e es ih =>
    unfold stretchesFrom
    split
    · rw [ih]
      simp
    · rw [List.flatMap_cons, ih]
      simp [Stretch.events]

theorem flatMap_stretches (es : List RecordedEvent) :
    (stretches es).flatMap Stretch.events = es := by
  cases es with
  | nil => rfl
  | cons e es => exact flatMap_stretchesFrom e [] es

theorem coincides_of_mem_stretchesFrom (hjoined : ∀ d ∈ joined, coincides o d = true)
    (hs : s ∈ stretchesFrom o joined es) : ∀ d ∈ s.joined, coincides s.opener d = true := by
  induction es generalizing o joined with
  | nil =>
    obtain rfl := List.mem_singleton.mp hs
    exact hjoined
  | cons e es ih =>
    unfold stretchesFrom at hs
    split at hs
    · refine ih (fun d hd => ?_) hs
      rcases List.mem_append.mp hd with hd | hd
      · exact hjoined d hd
      · obtain rfl := List.mem_singleton.mp hd
        assumption
    · rcases List.mem_cons.mp hs with rfl | hs
      · exact hjoined
      · exact ih (by simp) hs

/-- What belongs to a line falls on its opening. -/
theorem coincides_of_mem_stretches (hs : s ∈ stretches es) :
    ∀ d ∈ s.joined, coincides s.opener d = true := by
  cases es with
  | nil => cases hs
  | cons e es => exact coincides_of_mem_stretchesFrom (by simp) hs

theorem isChain_stretchesFrom (o : RecordedEvent) (joined es : List RecordedEvent) :
    (stretchesFrom o joined es).IsChain fun s next => coincides s.opener next.opener = false := by
  induction es generalizing o joined with
  | nil => exact .singleton _
  | cons e es ih =>
    unfold stretchesFrom
    split
    · exact ih _ _
    · rename_i hnot
      refine List.isChain_cons.mpr ⟨fun next hnext => ?_, ih e []⟩
      have hopener := head?_stretchesFrom e [] es
      rw [Option.mem_def.mp hnext, Option.map_some, Option.some.injEq] at hopener
      rw [hopener]
      simpa using hnot

/-- What opens a line does not fall on the opening of the line before. -/
theorem isChain_stretches (es : List RecordedEvent) :
    (stretches es).IsChain fun s next => coincides s.opener next.opener = false := by
  cases es with
  | nil => exact .nil
  | cons e es => exact isChain_stretchesFrom e [] es

/-! ### The levels so far -/

theorem volumeAfter_nil (r : Recording) : r.volumeAfter [] = clampVolume (.ofNat r.volume) := by
  rw [Recording.volumeAfter, lastValue_nil]

theorem rateAfter_nil (r : Recording) : r.rateAfter [] = clampRate r.rate := by
  rw [Recording.rateAfter, lastValue_nil]

theorem volumeAfter_concat (r : Recording) (es : List RecordedEvent) (e : RecordedEvent) :
    r.volumeAfter (es ++ [e]) =
      if e.kind = .volume then clampVolume e.value else r.volumeAfter es := by
  simp only [Recording.volumeAfter, lastValue_concat, apply_ite clampVolume]

theorem rateAfter_concat (r : Recording) (es : List RecordedEvent) (e : RecordedEvent) :
    r.rateAfter (es ++ [e]) = if e.kind = .speed then clampRate e.value else r.rateAfter es := by
  simp only [Recording.rateAfter, lastValue_concat, apply_ite clampRate]

/-! ## The lines of stretches -/

def Line.shown (r : Recording) (opener : RecordedEvent) (upTo : List RecordedEvent)
    (next : Option RecordedEvent) : Line :=
  ⟨opener.time, opener.resumption, r.volumeAfter upTo, r.rateAfter upTo, modeBefore next⟩

def drawn (r : Recording) (past : List RecordedEvent) : List Stretch → List Line
  | [] => []
  | s :: rest =>
    .shown r s.opener (past ++ s.events) (rest.head?.map Stretch.opener) ::
      drawn r (past ++ s.events) rest

def Draft.after (r : Recording) (upTo : List RecordedEvent) (ls : List Line) : Draft :=
  ⟨r.volumeAfter upTo, r.rateAfter upTo, ls⟩

variable {upTo : List RecordedEvent} {older : List Line}

theorem modeBefore_of_isLevel (h : e.kind.isLevel = true) : modeBefore (some e) = .natural := by
  simp [modeBefore, closing?_of_isLevel h]

theorem close_shown :
    close e (.shown r o upTo none :: older) = .shown r o upTo (some e) :: older := by
  simp only [close, Line.shown, modeBefore, Option.bind_none, Option.bind_some, Option.getD_none]

theorem joins_shown : joins e (.shown r o upTo (some e)) = coincides o e := by
  unfold joins coincides Line.shown
  cases hlevel : e.kind.isLevel with
  | true => simp [modeBefore_of_isLevel hlevel]
  | false => simp

/-- One event: it joins the newest line, or closes it and opens the next. -/
theorem Draft.add_after :
    (Draft.after r upTo (.shown r o upTo none :: older)).add e =
      .after r (upTo ++ [e])
        (if coincides o e then .shown r o (upTo ++ [e]) none :: older
        else .shown r e (upTo ++ [e]) none :: .shown r o upTo (some e) :: older) := by
  simp only [Draft.add, Draft.after, close_shown, joins_shown, volumeAfter_concat, rateAfter_concat]
  split
  · rename_i h
    have hlevel : e.kind.isLevel = true := by
      simp only [coincides, Bool.and_eq_true] at h
      exact h.1.1
    simp only [Line.shown, modeBefore_of_isLevel hlevel, volumeAfter_concat, rateAfter_concat]
    rfl
  · simp only [Line.shown, volumeAfter_concat, rateAfter_concat]
    rfl

theorem foldl_add_after (r : Recording) (o : RecordedEvent)
    (before joined es : List RecordedEvent) (older : List Line) :
    (es.foldl Draft.add
        (.after r (before ++ o :: joined) (.shown r o (before ++ o :: joined) none :: older))
      ).lines.reverse = older.reverse ++ drawn r before (stretchesFrom o joined es) := by
  induction es generalizing o joined before older with
  | nil => simp [stretchesFrom, drawn, Draft.after, Stretch.events]
  | cons e es ih =>
    rw [List.foldl_cons, Draft.add_after]
    simp only [stretchesFrom]
    split
    · have hsame : before ++ o :: joined ++ [e] = before ++ o :: (joined ++ [e]) := by simp
      rw [hsame, ih]
    · rw [ih]
      simp [drawn, Stretch.events, head?_stretchesFrom]

theorem Draft.add_first :
    Draft.add ⟨clampVolume (.ofNat r.volume), clampRate r.rate, []⟩ e =
      .after r [e] [.shown r e [e] none] := by
  have hvolume := volumeAfter_concat r [] e
  have hrate := rateAfter_concat r [] e
  rw [List.nil_append] at hvolume hrate
  simp only [Draft.add, close, Draft.after, Line.shown, hvolume, hrate, volumeAfter_nil,
    rateAfter_nil, modeBefore, Option.bind_none, Option.getD_none]

/-- A recording has one line for each of its stretches. -/
theorem lines_eq_drawn (r : Recording) : lines r = drawn r [] (stretches r.events) := by
  cases heq : r.events with
  | nil => exact lines_of_nil heq
  | cons e es =>
    have hfold := foldl_add_after r e [] [] es []
    simp only [List.nil_append, List.reverse_nil] at hfold
    simp only [lines, stretches]
    rw [heq, List.foldl_cons, Draft.add_first, hfold]

theorem drawn_getElem? (r : Recording) (past : List RecordedEvent) (ss : List Stretch) (i : Nat) :
    (drawn r past ss)[i]? = ss[i]?.map fun s =>
      .shown r s.opener (past ++ (ss.take (i + 1)).flatMap Stretch.events)
        (ss[i + 1]?.map Stretch.opener) := by
  induction ss generalizing past i with
  | nil => rfl
  | cons s rest ih =>
    cases i with
    | zero =>
      have hhead : rest.head? = rest[0]? := List.head?_eq_getElem? ..
      simp [drawn, hhead]
    | succ i => simp [drawn, ih]

theorem length_drawn (r : Recording) (past : List RecordedEvent) (ss : List Stretch) :
    (drawn r past ss).length = ss.length := by
  induction ss generalizing past with
  | nil => rfl
  | cons s rest ih => simp [drawn, ih]

/-! ## Every line can be built -/

theorem one_le_toNatClamped_max (a : Binary64) {top : Nat} (htop : 1 ≤ top) :
    1 ≤ (a.max 1).toNatClamped top := by
  have hone : 1 ≤ (1 : Binary64).toNatClamped top :=
    TimeCode.le_toNatClamped (by decide) (by decide) htop
  cases hnan : a.isNaN with
  | true => simpa [Binary64.max, hnan] using hone
  | false =>
    rw [max_eq hnan (by decide +kernel)]
    split
    · rename_i hlt
      cases a with
      | nan => cases hnan
      | infinite s =>
        cases s with
        | true => exact absurd hlt (by decide +kernel)
        | false => exact htop
      | finite s n hn =>
        have hunits : (1 : Binary64).units = unity := by decide +kernel
        rw [lt_iff_units (by decide +kernel) rfl, hunits, units_finite] at hlt
        cases s with
        | true =>
          have hnonpos : signed true n ≤ 0 := by simp [signed]
          omega
        | false =>
          rw [signed_false] at hlt
          simp only [toNatClamped, Bool.false_eq_true, if_false]
          exact Nat.le_min.mpr ⟨(Nat.one_le_div_iff unity_pos).mpr (by omega), htop⟩
    · exact hone

theorem one_le_pauseSeconds (v : Binary64) : 1 ≤ pauseSeconds v :=
  one_le_toNatClamped_max v.round (by decide)

theorem modeBefore_eq_jump_iff {next : Option RecordedEvent} :
    modeBefore next = .jump ↔ ∃ o ∈ next, o.kind = .seek := by
  cases next with
  | none => simp [modeBefore]
  | some o => cases hkind : o.kind <;> simp [modeBefore, closing?, hkind]

theorem modeBefore_eq_pause_iff {next : Option RecordedEvent} {n : Nat} :
    modeBefore next = .pause n ↔ ∃ o ∈ next, o.kind = .pause ∧ n = pauseSeconds o.value := by
  cases next with
  | none => simp [modeBefore]
  | some o => cases hkind : o.kind <;> simp [modeBefore, closing?, hkind, eq_comm]

theorem check_modeBefore (next : Option RecordedEvent) : (modeBefore next).check = .ok () := by
  cases hmode : modeBefore next with
  | natural | jump => rfl
  | pause n =>
    obtain ⟨o, _, _, rfl⟩ := modeBefore_eq_pause_iff.mp hmode
    obtain ⟨k, hk⟩ := Nat.exists_eq_add_of_le' (one_le_pauseSeconds o.value)
    rw [hk]
    rfl

theorem early_of_timely (h : r.Timely) : r.Early := by
  intro e he
  refine ⟨fun hle => not_lt_of_le hle (h.times e he).2.2, fun hseek hle => ?_⟩
  exact not_lt_of_le hle (h.destinations e he hseek).2.2

theorem moment_resumption (h : r.Timely) (he : e ∈ r.events) : Moment e.resumption := by
  unfold RecordedEvent.resumption
  split
  · rename_i hseek
    obtain ⟨hfin, hzero, hlast⟩ := h.destinations e he hseek
    exact moment_of_bounds hfin hzero hlast
  · obtain ⟨hfin, hzero, hlast⟩ := h.times e he
    exact moment_of_bounds hfin hzero hlast

theorem exists_rateAfter (h : r.Timely) (hup : ∀ d ∈ upTo, d ∈ r.events) :
    ∃ k, 25 ≤ k ∧ k ≤ 200 ∧ r.rateAfter upTo = fraction k 100 := by
  refine exists_clampRate ?_
  rcases lastValue_cases .speed r.rate upTo with hvalue | ⟨d, hd, hspeed, hvalue⟩
  · rw [hvalue]
    exact h.rate
  · rw [hvalue]
    exact h.speeds d (hup d hd) hspeed

theorem sound_shown {next : Option RecordedEvent} (h : r.Timely) (ho : o ∈ r.events)
    (hup : ∀ d ∈ upTo, d ∈ r.events) : (Line.shown r o upTo next).Sound where
  moment := moment_resumption h ho
  anchored := by
    obtain ⟨hfin, hzero, hlast⟩ := h.times o ho
    exact moment_of_bounds hfin hzero hlast
  volume := by
    simp only [Line.shown, Recording.volumeAfter]
    exact clampVolume_le _
  rate := by
    simp only [Line.shown]
    exact exists_rateAfter h hup
  check := check_modeBefore next

def upToStretch (r : Recording) (i : Nat) : List RecordedEvent :=
  ((stretches r.events).take (i + 1)).flatMap Stretch.events

theorem mem_of_mem_upToStretch {i : Nat} (h : e ∈ upToStretch r i) : e ∈ r.events := by
  obtain ⟨s, hs, he⟩ := List.mem_flatMap.mp h
  rw [← flatMap_stretches r.events]
  exact List.mem_flatMap.mpr ⟨s, List.mem_of_mem_take hs, he⟩

theorem opener_mem (h : s ∈ stretches r.events) : s.opener ∈ r.events := by
  rw [← flatMap_stretches r.events]
  exact List.mem_flatMap.mpr ⟨s, h, List.mem_cons_self⟩

theorem lines_getElem? (r : Recording) (i : Nat) :
    (lines r)[i]? = (stretches r.events)[i]?.map fun s =>
      .shown r s.opener (upToStretch r i) ((stretches r.events)[i + 1]?.map Stretch.opener) := by
  rw [lines_eq_drawn, drawn_getElem?]
  rfl

theorem lines_sound (h : r.Timely) : ∀ l ∈ lines r, l.Sound := by
  intro l hl
  obtain ⟨i, hi⟩ := List.mem_iff_getElem?.mp hl
  rw [lines_getElem?] at hi
  obtain ⟨s, hs, rfl⟩ := Option.map_eq_some_iff.mp hi
  exact sound_shown h (opener_mem (List.mem_of_getElem? hs)) fun d => mem_of_mem_upToStretch

/-! ## The lines of the text -/

theorem textLines_write (h : r.Early) : textLines (write r) = (written r).map Prod.snd := by
  obtain ⟨es, hes, _⟩ := exists_entries_written h
  refine textLines_layout fun line hline => ?_
  rw [hes] at hline
  obtain ⟨e, _, rfl⟩ := List.mem_map.mp hline
  exact ⟨e.text_ne_nil, newline_notMem e⟩

theorem textLines_timely (h : r.Timely) :
    textLines (write r) = (specs (lines r)).map fun p => p.2.rounded.canonical := by
  have hall := builds_of_mem_specs (lines_sound h)
  rw [textLines_write (early_of_timely h), written_eq, List.filter_eq_self.mpr hall, List.map_map]
  rfl

/-- What the line at a place says of the stretch there. -/
structure Depicts (r : Recording) (i : Nat) (s : Stretch) (spec : CueSpec) : Prop where
  start : spec.start = roundMillis s.opener.resumption
  volume : spec.volume = r.volumeAfter (upToStretch r i)
  rate : spec.rate = r.rateAfter (upToStretch r i)
  jump : spec.mode = .jump ↔ ∃ next, (stretches r.events)[i + 1]? = some next ∧
    next.opener.kind = .seek
  pause : ∀ n, spec.mode = .pause n ↔ ∃ next, (stretches r.events)[i + 1]? = some next ∧
    next.opener.kind = .pause ∧ n = pauseSeconds next.opener.value

def shownSpec (r : Recording) (i : Nat) (s : Stretch) (next : Option Line) : CueSpec :=
  let line := Line.shown r s.opener (upToStretch r i)
    ((stretches r.events)[i + 1]?.map Stretch.opener)
  CueSpec.rounded ⟨line.start, endOf line next, line.volume, line.rate, line.mode⟩

theorem depicts_shownSpec {i : Nat} (h : r.Timely) (s : Stretch) (next : Option Line) :
    Depicts r i s (shownSpec r i s next) where
  start := by simp only [shownSpec, CueSpec.rounded, Line.shown]
  volume := by simp only [shownSpec, CueSpec.rounded, Line.shown]
  rate := by
    obtain ⟨k, _, hhigh, hk⟩ := exists_rateAfter h fun d hd => mem_of_mem_upToStretch (i := i) hd
    simp only [shownSpec, CueSpec.rounded, Line.shown, hk]
    exact roundRate_fraction (Nat.le_trans hhigh (by decide))
  jump := by
    simp only [shownSpec, CueSpec.rounded, Line.shown, modeBefore_eq_jump_iff]
    simp
  pause := by
    intro n
    simp only [shownSpec, CueSpec.rounded, Line.shown, modeBefore_eq_pause_iff]
    simp

/-- The events fall into stretches, one for each line of the notes, in their order: what joins a
stretch coincides with its opener, and the next opener does not. A line starts where its opener
resumes, has the levels after the last event of its stretch, and the mode that the next opener
gives it. -/
theorem line_per_stretch (h : r.Timely) :
    (stretches r.events).flatMap Stretch.events = r.events ∧
      (∀ s ∈ stretches r.events, ∀ d ∈ s.joined, coincides s.opener d = true) ∧
      ((stretches r.events).IsChain fun s next => coincides s.opener next.opener = false) ∧
      (textLines (write r)).length = (stretches r.events).length ∧
      ∀ i s, (stretches r.events)[i]? = some s →
        ∃ spec : CueSpec, (textLines (write r))[i]? = some spec.canonical ∧ Depicts r i s spec := by
  refine ⟨flatMap_stretches r.events, fun s hs => coincides_of_mem_stretches hs,
    isChain_stretches r.events, ?_, fun i s hs => ?_⟩
  · rw [textLines_timely h, List.length_map, length_specs, lines_eq_drawn, length_drawn]
  · have hline := lines_getElem? r i
    rw [hs, Option.map_some] at hline
    have htext : (textLines (write r))[i]? = some (shownSpec r i s (lines r)[i + 1]?).canonical := by
      rw [textLines_timely h, List.getElem?_map, specs_getElem?, hline]
      rfl
    exact ⟨_, htext, depicts_shownSpec h s _⟩

def mixed : Recording where
  id := ⟨0⟩
  document := 1
  title := none
  duration := 120
  volume := 80
  rate := 1
  created := .ofMillis 0
  updated := .ofMillis 0
  events := [⟨⟨0⟩, 1, .volume, 50, 80, .ofMillis 0⟩, ⟨⟨1⟩, 1.0005, .speed, 1.255, 1, .ofMillis 1⟩,
    ⟨⟨2⟩, 5, .pause, 2.5, 0, .ofMillis 2⟩, ⟨⟨3⟩, 8, .seek, 3, 8, .ofMillis 3⟩,
    ⟨⟨4⟩, 8, .manual, 0, 0, .ofMillis 4⟩, ⟨⟨5⟩, 2, .volume, 300, 50, .ofMillis 5⟩]

theorem mixed_lines :
    mixed.Timely ∧ (stretches mixed.events).map (fun s => s.joined.length) = [1, 0, 0, 0, 0] ∧
      textLines (write mixed) = ["[00:00:01.000-00:00:05.000,50%,1.25x,|3]".toList,
        "[00:00:05.000-00:00:08.000,50%,1.25x,->]".toList,
        "[00:00:03.000-00:00:08.000,50%,1.25x]".toList,
        "[00:00:08.000-00:00:11.000,50%,1.25x]".toList,
        "[00:00:02.000-00:00:05.000,100%,1.25x]".toList] ∧
      ∀ i s, (stretches mixed.events)[i]? = some s →
        ∃ spec : CueSpec, (textLines (write mixed))[i]? = some spec.canonical ∧
          Depicts mixed i s spec := by
  have htimely : mixed.Timely :=
    ⟨by decide +kernel, by decide +kernel, by decide +kernel, by decide +kernel⟩
  obtain ⟨_, _, _, _, hdepicts⟩ := line_per_stretch htimely
  exact ⟨htimely, by decide +kernel, by decide +kernel, hdepicts⟩

def hugePause : Recording :=
  { mixed with
    events := [⟨⟨0⟩, 1, .volume, 50, 80, .ofMillis 0⟩,
      ⟨⟨1⟩, 5, .pause, 5000000000, 0, .ofMillis 1⟩] }

def grazing : Recording :=
  { mixed with
    events := [⟨⟨0⟩, 0.0006, .volume, 50, 80, .ofMillis 0⟩,
      ⟨⟨1⟩, 0.0015999999999999999, .volume, 60, 50, .ofMillis 1⟩] }

/-- The length of a pause is cut off at the largest one, whatever its rounded value is. And the
double that stands for the distance of two times can be a millisecond where the distance is not. -/
theorem huge_and_grazing_lines :
    (hugePause.Timely ∧ (5000000000 : Binary64).round.max 1 = .ofNat 5000000000 ∧
      textLines (write hugePause) = ["[00:00:01.000-00:00:05.000,50%,1.00x,|4294967295]".toList,
        "[00:00:05.000-00:00:08.000,50%,1.00x]".toList]) ∧
    (grazing.Timely ∧
      1000 * ((0.0015999999999999999 : Binary64).units - (0.0006 : Binary64).units) < unity ∧
      textLines (write grazing) = ["[00:00:00.001-00:00:03.001,50%,1.00x]".toList,
        "[00:00:00.002-00:00:03.002,60%,1.00x]".toList]) := by
  have hhuge : hugePause.Timely :=
    ⟨by decide +kernel, by decide +kernel, by decide +kernel, by decide +kernel⟩
  have hgrazing : grazing.Timely :=
    ⟨by decide +kernel, by decide +kernel, by decide +kernel, by decide +kernel⟩
  exact ⟨⟨hhuge, by decide +kernel, by decide +kernel⟩,
    ⟨hgrazing, by decide +kernel, by decide +kernel⟩⟩

end Transcript

end PlaybackCues
