import PlaybackCues.Proofs.Notes.Values
import PlaybackCues.Proofs.Number.Hundredths
import PlaybackCues.Proofs.Text.Digits

set_option autoImplicit false

/-!
# Cues in whole numbers

An `Entry` is what a cue of some text says: its window in milliseconds, its volume in percent, its
rate in hundredths, and its mode. The canonical text of an entry consists of the fields of a cue,
and these fields say what the entry says. Every cue that is read comes from an entry.
-/
namespace PlaybackCues

namespace Notes

def hundredHours : Nat := 360000000

structure Entry where
  start : Nat
  stop : Nat
  volume : Nat
  hundredths : Nat
  mode : Mode
  window : start < stop ∧ stop < hundredHours
  percent : volume ≤ 100
  range : 25 ≤ hundredths ∧ hundredths ≤ 200
  pause : ∀ n, mode = .pause n → 1 ≤ n ∧ n ≤ maxPause

namespace Entry

def spec (e : Entry) : CueSpec :=
  ⟨TimeCode.ofMillis e.start, TimeCode.ofMillis e.stop, e.volume, .fraction e.hundredths 100,
    e.mode⟩

def text (e : Entry) : List Char := e.spec.canonical

end Entry

/-! ## Time codes -/

open DigitClass

namespace Clock

def ofMillis (ms : Nat) : Clock :=
  ⟨Digits.padded 2 (ms / 1000 / 3600), Digits.padded 2 (ms / 1000 / 60 % 60),
    Digits.padded 2 (ms / 1000 % 60), Digits.padded 3 (ms % 1000)⟩

theorem pointed_of_ne_nil {ds : List Char} (h : ds ≠ []) : pointed ds = '.' :: ds := by
  cases ds with
  | nil => exact absurd rfl h
  | cons d ds => rfl

theorem text_ofMillis (ms : Nat) : (ofMillis ms).text = TimeCode.write ms := by
  simp only [text, ofMillis, TimeCode.write, pointed_of_ne_nil (Digits.padded_ne_nil 3 _),
    List.append_assoc, List.cons_append]

variable {ms : Nat}

theorem shaped_ofMillis (h : ms < hundredHours) : (ofMillis ms).Shaped .decimal := by
  have hrun {width n : Nat} : decimal.Run (Digits.padded width n) :=
    fun c hc => Digits.isDigit_of_mem_padded hc
  have htwo {n : Nat} (hn : n < 100) : (Digits.padded 2 n).length = 2 :=
    Digits.length_padded (by decide) hn
  unfold hundredHours at h
  exact ⟨⟨hrun, htwo (by omega)⟩, ⟨hrun, htwo (by omega)⟩, ⟨hrun, htwo (by omega)⟩,
    ⟨hrun, Nat.le_of_eq (Digits.length_padded (by decide) (Nat.mod_lt ms (by decide)))⟩⟩

theorem inRange_ofMillis (ms : Nat) : (ofMillis ms).InRange := by
  simp only [InRange, ofMillis, Digits.value_padded]
  omega

theorem millis_ofMillis (ms : Nat) : (ofMillis ms).millis = ms := by
  have hlen : (Digits.padded 3 (ms % 1000)).length = 3 :=
    Digits.length_padded (by decide) (Nat.mod_lt ms (by decide))
  simp only [millis, ofMillis, Digits.value_padded, hlen, Nat.sub_self]
  rw [show tenTo 0 = 1 from rfl]
  omega

end Clock

/-! ## Modes -/

namespace Suffix

def ofMode : Mode → Suffix
  | .natural => natural
  | .jump => jump
  | .pause n => pause (Digits.write n)

theorem text_ofMode (m : Mode) : (ofMode m).text = m.suffix := by
  cases m <;> rfl

theorem mode_ofMode (m : Mode) : (ofMode m).mode = m := by
  cases m with
  | natural => rfl
  | jump => rfl
  | pause n => exact congrArg Mode.pause (Digits.value_write n)

theorem shaped_ofMode (m : Mode) : (ofMode m).Shaped .decimal := by
  cases m with
  | natural => trivial
  | jump => trivial
  | pause n => exact ⟨Digits.write_ne_nil n, fun c hc => Digits.isDigit_of_mem_write hc⟩

theorem inRange_ofMode {m : Mode} (h : ∀ n, m = .pause n → n ≤ maxPause) : (ofMode m).InRange := by
  cases m with
  | natural => trivial
  | jump => trivial
  | pause n =>
    have hn := h n rfl
    change Digits.value (Digits.write n) ≤ maxPause
    rwa [Digits.value_write]

end Suffix

/-! ## The fields of an entry -/

namespace Entry

theorem start_lt (e : Entry) : e.start < hundredHours := Nat.lt_trans e.window.1 e.window.2

theorem hundredHours_lt : hundredHours < twoTo 29 := by decide

theorem hundredths_le (e : Entry) : e.hundredths ≤ twoTo 29 := Nat.le_trans e.range.2 (by decide)

def fields (e : Entry) : Fields :=
  ⟨.ofMillis e.start, .ofMillis e.stop, Digits.write e.volume, Digits.write (e.hundredths / 100),
    Digits.padded 2 (e.hundredths % 100), .ofMode e.mode⟩

theorem format_start (e : Entry) : TimeCode.format e.spec.start = TimeCode.write e.start := by
  have hlt := Nat.lt_trans e.start_lt hundredHours_lt
  exact congrArg TimeCode.write (TimeCode.toMillis_ofMillis hlt)

theorem format_stop (e : Entry) : TimeCode.format e.spec.stop = TimeCode.write e.stop := by
  have hlt := Nat.lt_trans e.window.2 hundredHours_lt
  exact congrArg TimeCode.write (TimeCode.toMillis_ofMillis hlt)

theorem text_eq (e : Entry) :
    e.text = '[' :: TimeCode.write e.start ++ '-' :: TimeCode.write e.stop ++
      ',' :: Digits.write e.volume ++ '%' :: ',' :: (Binary64.fraction e.hundredths 100).hundredths ++
      'x' :: e.mode.suffix ++ [']'] := by
  simp only [text, CueSpec.canonical, format_start, format_stop]
  simp only [spec]

theorem text_ne_nil (e : Entry) : e.text ≠ [] := by
  rw [text_eq]
  exact List.cons_ne_nil _ _

theorem fields_text (e : Entry) : e.fields.text = e.text := by
  simp only [text_eq, Fields.text, fields, Clock.text_ofMillis, Suffix.text_ofMode,
    hundredths_fraction e.hundredths_le, List.append_assoc, List.cons_append]

theorem rate_fields (e : Entry) : e.fields.rate = .fraction e.hundredths 100 := by
  have hpos : 0 < e.hundredths := Nat.lt_of_lt_of_le (by decide) e.range.1
  have hlen : (Digits.padded 2 (e.hundredths % 100)).length = 2 :=
    Digits.length_padded (by decide) (Nat.mod_lt _ (by decide))
  have hvalue : Digits.value (Digits.write (e.hundredths / 100) ++
      Digits.padded 2 (e.hundredths % 100)) = e.hundredths := by
    rw [Digits.value_append, Digits.value_write, Digits.value_padded, hlen]
    omega
  simp only [Fields.rate, fields, hvalue, hlen]
  exact ofDecimal_hundredths hpos e.hundredths_le

theorem fields_spec (e : Entry) : e.fields.spec = e.spec := by
  simp only [Fields.spec, Fields.raw, rate_fields, roundRate_fraction e.hundredths_le]
  simp only [fields, spec, Clock.millis_ofMillis, Digits.value_write, Suffix.mode_ofMode]

theorem fields_isCue (e : Entry) : e.fields.IsCue where
  shaped :=
    { start := Clock.shaped_ofMillis e.start_lt
      stop := Clock.shaped_ofMillis e.window.2
      volume := ⟨Digits.write_ne_nil _, fun c hc => Digits.isDigit_of_mem_write hc⟩
      whole := ⟨Digits.write_ne_nil _, fun c hc => Digits.isDigit_of_mem_write hc⟩
      fraction := ⟨Digits.padded_ne_nil _ _, fun c hc => Digits.isDigit_of_mem_padded hc⟩
      suffix := Suffix.shaped_ofMode e.mode }
  start := Clock.inRange_ofMillis e.start
  stop := Clock.inRange_ofMillis e.stop
  suffix := Suffix.inRange_ofMode fun n hn => (e.pause n hn).2
  window := by
    simp only [fields, Clock.millis_ofMillis]
    exact e.window.1
  volume := by
    simp only [fields, Digits.value_write]
    exact e.percent
  rate := by
    rw [rate_fields, roundRate_fraction e.hundredths_le]
    exact within_hundredths e.range.1 e.range.2
  pause := by
    intro ds hds
    have hmode : e.mode = .pause (Digits.value ds) := by
      rw [← Suffix.mode_ofMode e.mode]
      exact congrArg Suffix.mode hds
    exact (e.pause _ hmode).1

end Entry

/-! ## The entry of a cue -/

/-- What the fields of a cue say is what some entry says. -/
theorem Fields.IsCue.exists_entry {f : Fields} (h : f.IsCue) : ∃ e : Entry, f.spec = e.spec := by
  obtain ⟨k, hlow, hhigh, hrate⟩ := exists_roundRate h.rate
  have hpause : ∀ n, f.suffix.mode = .pause n → 1 ≤ n ∧ n ≤ maxPause := by
    intro n hn
    have hsuffix := h.suffix
    cases hs : f.suffix with
    | natural =>
      rw [hs] at hn
      cases hn
    | jump =>
      rw [hs] at hn
      cases hn
    | pause ds =>
      rw [hs] at hn hsuffix
      cases hn
      exact ⟨h.pause ds hs, hsuffix⟩
  refine ⟨⟨f.start.millis, f.stop.millis, Digits.value f.volume, k, f.suffix.mode,
    ⟨h.window, h.shaped.stop.millis_lt h.stop⟩, h.volume, ⟨hlow, hhigh⟩, hpause⟩, ?_⟩
  simp only [Fields.spec, Fields.raw, Entry.spec, hrate]

/-! ## The entry of what is written -/

/-- Nothing that starts before the ninety-ninth hour ends later, with three seconds to spare. -/
def latest : Seconds := 356403

theorem units_le_latest {t : Seconds} (hfin : t.isFinite = true) (h : ¬ latest < t) :
    1000 * t.units ≤ (356403000 * unity : Nat) := by
  have hle : (356403 : Nat) ≤ twoTo 30 := by decide
  have heq : latest = Binary64.ofNat 356403 := rfl
  rw [heq, Binary64.lt_iff_units (Binary64.isFinite_ofNat hle) hfin, Binary64.units_ofNat hle] at h
  omega

end Notes

open Notes Binary64

theorem TimeCode.roundMillis_of_latest {t : Seconds} (hfin : (roundMillis t).isFinite = true)
    (hneg : ¬ roundMillis t < 0) (h : ¬ latest < t) :
    toMillis t ≤ 356403000 ∧ (roundMillis t).units = (ofMillis (toMillis t)).units ∧
      format (roundMillis t) = write (toMillis t) := by
  have hfin' := isFinite_of_roundMillis hfin
  have h29 : 356403000 < twoTo 29 := by decide
  have hunits := units_le_latest hfin' h
  obtain ⟨_, hround, hmillis⟩ := roundMillis_eq hfin' h29 hunits hneg
  exact ⟨toMillis_le hfin' (Nat.le_of_lt h29) hunits, hround, congrArg write hmillis⟩

namespace CueSpec

/-- What is read from the canonical text, if that is a cue: whole milliseconds and hundredths. -/
def readBack (s : CueSpec) : CueSpec :=
  { s with
    start := TimeCode.ofMillis (TimeCode.toMillis s.start)
    stop := TimeCode.ofMillis (TimeCode.toMillis s.stop)
    rate := roundRate s.rate }

theorem window_of_check {s : CueSpec} (h : s.rounded.check = .ok ()) :
    (roundMillis s.start).isFinite = true ∧ (roundMillis s.stop).isFinite = true ∧
      ¬ roundMillis s.start < 0 ∧ roundMillis s.start < roundMillis s.stop := by
  obtain ⟨hfin, hfin', hneg, hle⟩ := checkWindow_eq_ok (checkWindow_of_check h)
  exact ⟨hfin, hfin', hneg, (not_le_of_isFinite hfin' hfin).mp hle⟩

/-- What passes the checks is written like an entry, if its times are those of whole milliseconds
before the hundredth hour. -/
theorem exists_entry_of_millis {s : CueSpec} {a b : Nat} (hb : b < hundredHours)
    (hstart : TimeCode.format (roundMillis s.start) = TimeCode.write a ∧
      (roundMillis s.start).position = (TimeCode.ofMillis a).position)
    (hstop : TimeCode.format (roundMillis s.stop) = TimeCode.write b ∧
      (roundMillis s.stop).position = (TimeCode.ofMillis b).position)
    (hpause : ∀ n, s.mode = .pause n → n ≤ maxPause) (hcheck : s.rounded.check = .ok ()) :
    ∃ e : Entry, e.text = s.rounded.canonical ∧
      e.spec = ⟨TimeCode.ofMillis a, TimeCode.ofMillis b, s.volume, roundRate s.rate, s.mode⟩ := by
  obtain ⟨_, hvolume, hrate, hmode⟩ := check_eq_ok_iff.mp hcheck
  obtain ⟨_, _, _, hlt⟩ := window_of_check hcheck
  rw [lt_congr hstart.2, lt_congr_right hstop.2] at hlt
  have hab : a < b := by
    by_contra hle
    exact not_lt_of_le (TimeCode.ofMillis_le (Nat.le_of_not_lt hle)) hlt
  obtain ⟨k, hlow, hhigh, hk⟩ := exists_roundRate (checkRate_eq_ok_iff.mp hrate)
  have hpause' : ∀ n, s.mode = .pause n → 1 ≤ n ∧ n ≤ maxPause := by
    intro n hn
    refine ⟨?_, hpause n hn⟩
    change s.mode.check = .ok () at hmode
    rw [hn] at hmode
    cases n with
    | zero => cases hmode
    | succ n => exact Nat.succ_pos n
  refine ⟨⟨a, b, s.volume, k, s.mode, ⟨hab, hb⟩, checkVolume_eq_ok_iff.mp hvolume,
    ⟨hlow, hhigh⟩, hpause'⟩, ?_, ?_⟩
  · simp only [Entry.text_eq, canonical, rounded, hstart.1, hstop.1, hk]
  · simp only [Entry.spec, hk]

/-- What passes the checks and ends before the hundredth hour is written like an entry. -/
theorem exists_entry {s : CueSpec} (hstart : ¬ latest < s.start) (hstop : ¬ latest < s.stop)
    (hpause : ∀ n, s.mode = .pause n → n ≤ maxPause) (hcheck : s.rounded.check = .ok ()) :
    ∃ e : Entry, e.text = s.rounded.canonical ∧ e.spec = s.readBack := by
  obtain ⟨hfin, hfin', hneg, hlt⟩ := window_of_check hcheck
  obtain ⟨ha, hunits, hformat⟩ := TimeCode.roundMillis_of_latest hfin hneg hstart
  obtain ⟨hb, hunits', hformat'⟩ :=
    TimeCode.roundMillis_of_latest hfin' (fun h => hneg (lt_trans hlt h)) hstop
  have hposition {t : Seconds} {n : Nat} (ht : t.isFinite = true) (hn : n ≤ 356403000)
      (h : t.units = (TimeCode.ofMillis n).units) :
      t.position = (TimeCode.ofMillis n).position := by
    have hn29 : n ≤ twoTo 29 := Nat.le_trans hn (by decide)
    rw [position_of_isFinite ht, position_of_isFinite (TimeCode.isFinite_ofMillis hn29), h]
  exact exists_entry_of_millis (Nat.lt_of_le_of_lt hb (by decide))
    ⟨hformat, hposition hfin ha hunits⟩ ⟨hformat', hposition hfin' hb hunits'⟩ hpause hcheck

end CueSpec

end PlaybackCues
