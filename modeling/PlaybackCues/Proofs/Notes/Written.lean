import PlaybackCues.Proofs.Cue.Texts
import PlaybackCues.Proofs.Notes.Rewriting

set_option autoImplicit false

/-!
# Built cues that can be written

A time is written with as many digits of the hours as it needs, and read with two. So a cue that
was built is read back from its canonical text, with what it says, if it ends before the hundredth
hour; from the text of a later one no cue is read at all. This is `read_back_iff`.
-/
namespace PlaybackCues

open Notes Binary64

/-- The two say the same; their times are the same numbers, though a zero can have lost its sign. -/
structure CueSpec.Restates (d c : CueSpec) : Prop where
  start : d.start.position = c.start.position
  stop : d.stop.position = c.stop.position
  volume : d.volume = c.volume
  rate : d.rate = c.rate
  mode : d.mode = c.mode

/-! ## Times before the hundredth hour -/

def Notes.ceiling : Seconds := 360000

namespace TimeCode

theorem ofMillis_hundredHours : ofMillis hundredHours = ceiling := by decide +kernel

theorem lt_hundredHours {k : Nat} (h : ofMillis k < ceiling) : k < hundredHours := by
  by_contra hle
  rw [← ofMillis_hundredHours] at h
  exact not_lt_of_le (ofMillis_le (Nat.le_of_not_lt hle)) h

/-- A rounded time before the hundredth hour is that of a whole number of milliseconds. -/
theorem exists_millis {t : Seconds} (hfin : (roundMillis t).isFinite = true)
    (hneg : ¬ roundMillis t < 0) (h : roundMillis t < ceiling) :
    ∃ k, k < hundredHours ∧ format (roundMillis t) = write k ∧
      (roundMillis t).position = (ofMillis k).position := by
  rcases roundMillis_cases hfin hneg with ⟨h0, hzero⟩ | ⟨k, hk⟩
  · have hposition : (ofMillis 0).position = some 0 := by decide +kernel
    refine ⟨0, by decide, ?_, ?_⟩
    · rw [hzero, format, toMillis_of_sign? rfl]
    · rw [hzero, hposition]
      rfl
  · rw [hk] at h ⊢
    have hlt := lt_hundredHours h
    exact ⟨k, hlt, congrArg write (toMillis_ofMillis (Nat.lt_trans hlt Entry.hundredHours_lt)), rfl⟩

theorem hundredHours_le_toMillis {t : Seconds} (hfin : t.isFinite = true) (h : ¬ t < ceiling) :
    hundredHours ≤ toMillis t := by
  have heq : ceiling = ofNat 360000 := rfl
  have h30 : 360000 ≤ twoTo 30 := by decide
  rw [heq, lt_iff_units hfin (isFinite_ofNat h30), units_ofNat h30] at h
  have hunits : (hundredHours * unity : Nat) ≤ 1000 * t.units := by
    unfold hundredHours
    omega
  exact le_toMillis hfin (by decide) (by decide) hunits

end TimeCode

/-! ## What is read back -/

namespace Notes

theorem parse_entry (e : Entry) : parse e.text = [e.spec.place 0 0] := by
  have h := number_entry e 0 0 []
  rw [List.append_nil] at h
  exact h

end Notes

namespace CueSpec

variable {s : CueSpec} {index offset : Nat} {c : Cue}

theorem exists_read_back (hbuild : s.build index offset = .ok c)
    (hpause : ∀ n, s.mode = .pause n → n ≤ maxPause) (h : c.stop < ceiling) :
    ∃ d, parse c.canonical = [d] ∧ d.Restates c.toCueSpec := by
  obtain ⟨hcheck, rfl⟩ := build_eq_ok_iff.mp hbuild
  have hbefore : roundMillis s.stop < ceiling := h
  obtain ⟨hfin, hfin', hneg, hlt⟩ := window_of_check hcheck
  obtain ⟨a, _, hstart⟩ := TimeCode.exists_millis hfin hneg (lt_trans hlt hbefore)
  obtain ⟨b, hb, hstop⟩ :=
    TimeCode.exists_millis hfin' (fun hlt' => hneg (lt_trans hlt hlt')) hbefore
  obtain ⟨e, htext, hspec⟩ := exists_entry_of_millis hb hstart hstop hpause hcheck
  have hcanonical : (s.rounded.place index offset).canonical = e.text := htext.symm
  refine ⟨e.spec.place 0 0, by rw [hcanonical, parse_entry], ?_⟩
  rw [hspec]
  exact ⟨hstart.2.symm, hstop.2.symm, rfl, rfl, rfl⟩

end CueSpec

/-! ## What is too late to be read -/

namespace Notes

/-- Two digits of hours are written only before the hundredth hour. -/
theorem Clock.Shaped.lt_hundredHours {t : Clock} {n : Nat} {rest tail : List Char}
    (ht : t.Shaped .decimal) (h : t.text ++ rest = TimeCode.write n ++ tail) : n < hundredHours := by
  have hcolon : DigitClass.decimal.mem ':' = false := DigitClass.mem_mark (by decide)
  simp only [Clock.text, TimeCode.write, List.append_assoc, List.cons_append] at h
  obtain ⟨hhours, _, _⟩ := ht.hours.1.unique (DigitClass.run_padded 2 _) hcolon hcolon h
  have hlt := Digits.value_lt ht.hours.1
  rw [ht.hours.2, hhours, Digits.value_padded] at hlt
  unfold hundredHours
  omega

theorem Clock.Shaped.text_unique {t : Clock} {n : Nat} {c d : Char} {rest tail : List Char}
    (ht : t.Shaped .decimal) (hc : DigitClass.decimal.mem c = false ∧ c ≠ '.')
    (hd : DigitClass.decimal.mem d = false ∧ d ≠ '.')
    (h : t.text ++ c :: rest = TimeCode.write n ++ d :: tail) : rest = tail := by
  have hn := shaped_ofMillis (ht.lt_hundredHours h)
  rw [← Clock.text_ofMillis] at h
  exact (ht.unique hn hc hd h).2.2

theorem candidate?_canonical_lt {s r : CueSpec} (h : candidate? s.canonical = some r) :
    TimeCode.toMillis s.stop < hundredHours := by
  have hdash : DigitClass.decimal.mem '-' = false ∧ '-' ≠ '.' :=
    ⟨DigitClass.mem_mark (by decide), by decide⟩
  obtain ⟨f, hf, ⟨rest, hrest⟩, _⟩ := candidate?_eq_some_iff.mp h
  simp only [Fields.text, CueSpec.canonical, TimeCode.format, List.append_assoc,
    List.cons_append, List.cons.injEq, true_and] at hrest
  exact hf.shaped.stop.lt_hundredHours (hf.shaped.start.text_unique hdash hdash hrest)

theorem bracket_notMem_canonical {s : CueSpec} {k : Nat} (hk : k ≤ twoTo 29)
    (hrate : s.rate = .fraction k 100) : '[' ∉ s.canonical.tail := by
  have hbracket : DigitClass.decimal.mem '[' = false := DigitClass.mem_mark (by decide)
  have hwrite (n : Nat) : '[' ∉ Digits.write n := (DigitClass.run_write n).notMem hbracket
  have hpadded (width n : Nat) : '[' ∉ Digits.padded width n :=
    (DigitClass.run_padded width n).notMem hbracket
  have htime (n : Nat) : '[' ∉ TimeCode.write n := by simp [TimeCode.write, hpadded]
  have hsuffix : '[' ∉ s.mode.suffix := by cases s.mode <;> simp [Mode.suffix, hwrite]
  simp [CueSpec.canonical, TimeCode.format, hrate, hundredths_fraction hk, htime, hwrite, hpadded,
    hsuffix]

theorem parse_canonical_eq_nil {s : CueSpec} {k : Nat} (hk : k ≤ twoTo 29)
    (hrate : s.rate = .fraction k 100) (h : hundredHours ≤ TimeCode.toMillis s.stop) :
    parse s.canonical = [] := by
  have htext : s.canonical = '[' :: s.canonical.tail := rfl
  have hnone : candidate? s.canonical = none := by
    rw [Option.eq_none_iff_forall_ne_some]
    intro r hr
    exact absurd (candidate?_canonical_lt hr) (Nat.not_lt.mpr h)
  have hrest := candidates_append (bracket_notMem_canonical hk hrate) 1 []
  rw [List.append_nil] at hrest
  rw [htext] at hnone
  rw [parse, htext, candidates_cons, hnone, hrest]
  rfl

/-- A built cue is read back from its canonical text, as the one cue there, if and only if it ends
before the hundredth hour. From the text of a later one nothing is read. -/
theorem read_back_iff {s : CueSpec} {index offset : Nat} {c : Cue}
    (hbuild : s.build index offset = .ok c)
    (hpause : ∀ n, s.mode = .pause n → n ≤ maxPause) :
    ((∃ d, parse c.canonical = [d] ∧ d.Restates c.toCueSpec) ↔ c.stop < ceiling) ∧
      (¬ c.stop < ceiling → parse c.canonical = []) := by
  have hlate : ¬ c.stop < ceiling → parse c.canonical = [] := by
    intro h
    obtain ⟨hcheck, rfl⟩ := CueSpec.build_eq_ok_iff.mp hbuild
    obtain ⟨_, _, hrate, _⟩ := CueSpec.check_eq_ok_iff.mp hcheck
    obtain ⟨k, _, hk, hkrate⟩ := exists_roundRate (checkRate_eq_ok_iff.mp hrate)
    obtain ⟨_, hfin, _, _⟩ := CueSpec.window_of_check hcheck
    exact parse_canonical_eq_nil (Nat.le_trans hk (by decide)) hkrate
      (TimeCode.hundredHours_le_toMillis hfin h)
  refine ⟨⟨?_, CueSpec.exists_read_back hbuild hpause⟩, hlate⟩
  rintro ⟨d, hd, _⟩
  by_contra h
  rw [hlate h] at hd
  cases hd

/-- The start is rounded to a negative zero, the end to the last millisecond that can be read. -/
def lastHour : CueSpec := ⟨-0.0001, 359999.9994, 80, 1.004, .pause 5⟩

def tooLate : CueSpec := ⟨359999, 360000, 50, 1, .jump⟩

theorem lastHour_read_back :
    (∃ d, parse (lastHour.rounded.place 3 7).canonical = [d] ∧ d.Restates lastHour.rounded) ∧
      parse (tooLate.rounded.place 3 7).canonical = [] := by
  have hbuild : lastHour.build 3 7 = .ok (lastHour.rounded.place 3 7) :=
    CueSpec.build_eq_ok_iff.mpr ⟨ok_of_toOption (by decide +kernel), rfl⟩
  have hbuild' : tooLate.build 3 7 = .ok (tooLate.rounded.place 3 7) :=
    CueSpec.build_eq_ok_iff.mpr ⟨ok_of_toOption (by decide +kernel), rfl⟩
  have hpause (n : Nat) (h : lastHour.mode = .pause n) : n ≤ maxPause := by
    cases h
    decide
  exact ⟨(read_back_iff hbuild hpause).1.mpr (by decide +kernel),
    (read_back_iff hbuild' nofun).2 (by decide +kernel)⟩

end Notes

end PlaybackCues
