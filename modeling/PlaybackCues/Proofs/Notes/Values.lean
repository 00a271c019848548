import PlaybackCues.Proofs.Cue.Built
import PlaybackCues.Proofs.Notes.Reading
import PlaybackCues.Proofs.Number.Hundredths
import PlaybackCues.Proofs.Number.Milliseconds
import PlaybackCues.Proofs.Text.Digits

set_option autoImplicit false

/-!
# The values of readable fields

Readable fields can be built exactly when they are those of a cue. Rounding leaves their times as
they are, so what is built says what the fields say, with the rate rounded.
-/
namespace PlaybackCues

/-! ## Checks -/

namespace CueSpec

theorem check_eq_ok_iff {c : CueSpec} :
    c.check = .ok () ↔ checkWindow c.start c.stop = .ok () ∧ checkVolume c.volume = .ok () ∧
      checkRate c.rate = .ok () ∧ c.mode.check = .ok () := by
  unfold check
  cases checkWindow c.start c.stop <;> cases checkVolume c.volume <;> cases checkRate c.rate <;>
    simp [bind, Except.bind]

end CueSpec

theorem checkWindow_eq_ok_iff {start stop : Seconds} (hstart : start.isFinite = true)
    (hstop : stop.isFinite = true) (hzero : ¬ start < 0) :
    checkWindow start stop = .ok () ↔ start < stop := by
  rw [← Binary64.not_le_of_isFinite hstop hstart]
  simp [checkWindow, hstart, hstop, hzero]

theorem checkVolume_eq_ok_iff {volume : Nat} : checkVolume volume = .ok () ↔ volume ≤ 100 := by
  unfold checkVolume maxVolume
  split <;> simp [*]

theorem checkRate_eq_ok_iff {rate : Binary64} :
    checkRate rate = .ok () ↔ rate.within 0.25 2 = true := by
  have hfinite : rate.within 0.25 2 = true → rate.isFinite = true := isFinite_of_rate
  unfold checkRate minRate maxRate
  split
  · rename_i h
    simp only [Bool.not_eq_true', reduceCtorEq, false_iff] at h ⊢
    intro hwithin
    rw [hfinite hwithin] at h
    cases h
  · split
    · rename_i h
      simp [h]
    · rename_i h
      simp [h]

theorem Notes.Suffix.check_eq_ok_iff {s : Suffix} :
    s.mode.check = .ok () ↔ ∀ ds, s = .pause ds → 1 ≤ Digits.value ds := by
  cases s with
  | natural => simp [mode, Mode.check]
  | jump => simp [mode, Mode.check]
  | pause ds =>
    simp only [mode, pause.injEq, forall_eq']
    cases Digits.value ds with
    | zero => simp [Mode.check]
    | succ n => simp [Mode.check]

/-! ## Fields -/

namespace Notes

theorem Clock.Shaped.fraction_lt {t : Clock} (h : t.Shaped .decimal) :
    Digits.value t.fraction * tenTo (3 - t.fraction.length) < 1000 := by
  have hfraction := Digits.value_lt h.fraction.1
  calc
    Digits.value t.fraction * tenTo (3 - t.fraction.length) <
        10 ^ t.fraction.length * tenTo (3 - t.fraction.length) :=
      Nat.mul_lt_mul_of_pos_right hfraction (tenTo_pos _)
    _ = 10 ^ (t.fraction.length + (3 - t.fraction.length)) := (Nat.pow_add ..).symm
    _ = 10 ^ 3 := by rw [Nat.add_sub_cancel' h.fraction.2]

theorem Clock.Shaped.millis_le {t : Clock} (h : t.Shaped .decimal) : t.millis ≤ twoTo 29 := by
  have hhours := Digits.value_lt h.hours.1
  have hminutes := Digits.value_lt h.minutes.1
  have hseconds := Digits.value_lt h.seconds.1
  have hfraction := h.fraction_lt
  rw [h.hours.2] at hhours
  rw [h.minutes.2] at hminutes
  rw [h.seconds.2] at hseconds
  have h29 : twoTo 29 = 536870912 := rfl
  rw [h29]
  unfold millis
  omega

/-- A time code of two digits of hours lies before the hundredth hour. -/
theorem Clock.Shaped.millis_lt {t : Clock} (h : t.Shaped .decimal) (hrange : t.InRange) :
    t.millis < 360000000 := by
  have hhours := Digits.value_lt h.hours.1
  have hfraction := h.fraction_lt
  obtain ⟨hminutes, hseconds⟩ := hrange
  rw [h.hours.2] at hhours
  unfold millis
  omega

namespace Fields

variable {f : Fields}

theorem Shaped.rounded_raw (h : f.Shaped .decimal) : f.raw.rounded = f.spec := by
  simp only [CueSpec.rounded, raw, spec, TimeCode.roundMillis_ofMillis h.start.millis_le,
    TimeCode.roundMillis_ofMillis h.stop.millis_le]

theorem Readable.check_eq_ok_iff (h : f.Readable) : f.spec.check = .ok () ↔ f.IsCue := by
  have ha := h.shaped.start.millis_le
  have hb := h.shaped.stop.millis_le
  have hwindow : checkWindow f.spec.start f.spec.stop = .ok () ↔ f.start.millis < f.stop.millis :=
    (checkWindow_eq_ok_iff (TimeCode.isFinite_ofMillis ha) (TimeCode.isFinite_ofMillis hb)
      (TimeCode.not_ofMillis_lt_zero ha)).trans (TimeCode.ofMillis_lt_iff ha hb)
  rw [CueSpec.check_eq_ok_iff, hwindow, checkVolume_eq_ok_iff, checkRate_eq_ok_iff]
  constructor
  · rintro ⟨hwindow, hvolume, hrate, hmode⟩
    exact ⟨h, hwindow, hvolume, hrate, Suffix.check_eq_ok_iff.mp hmode⟩
  · rintro ⟨_, hwindow, hvolume, hrate, hpause⟩
    exact ⟨hwindow, hvolume, hrate, Suffix.check_eq_ok_iff.mpr hpause⟩

/-- Readable fields are built if and only if they are those of a cue, and into what they say. -/
theorem Readable.build_eq_ok_iff (h : f.Readable) {index offset : Nat} {c : Cue} :
    f.raw.build index offset = .ok c ↔ f.IsCue ∧ c = f.spec.place index offset := by
  rw [CueSpec.build_eq_ok_iff, h.shaped.rounded_raw, h.check_eq_ok_iff, eq_comm]

end Fields

end Notes

end PlaybackCues
