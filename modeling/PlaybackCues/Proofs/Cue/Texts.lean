import PlaybackCues.Proofs.Notes.Entries

set_option autoImplicit false

/-!
# What the text of a cue tells

The canonical text of a built cue tells its volume and its rate. So cues of a list with the same id
have the same levels, though their windows can differ: of a time too late for its milliseconds to
be counted, the text tells no more than that.
-/
namespace PlaybackCues

open Notes

theorem Notes.DigitClass.run_write (n : Nat) : DigitClass.decimal.Run (Digits.write n) :=
  fun _ hc => Digits.isDigit_of_mem_write hc

theorem Notes.DigitClass.run_padded (width n : Nat) :
    DigitClass.decimal.Run (Digits.padded width n) :=
  fun _ hc => Digits.isDigit_of_mem_padded hc

open DigitClass (run_write run_padded mem_mark)

theorem TimeCode.write_unique {m n : Nat} {c : Char} {rest tail : List Char}
    (hc : DigitClass.decimal.mem c = false) (h : write m ++ c :: rest = write n ++ c :: tail) :
    rest = tail := by
  have hcolon : DigitClass.decimal.mem ':' = false := mem_mark (by decide)
  have hpoint : DigitClass.decimal.mem '.' = false := mem_mark (by decide)
  simp only [write, List.append_assoc, List.cons_append] at h
  obtain ⟨_, _, h⟩ := (run_padded 2 _).unique (run_padded 2 _) hcolon hcolon h
  obtain ⟨_, _, h⟩ := (run_padded 2 _).unique (run_padded 2 _) hcolon hcolon h
  obtain ⟨_, _, h⟩ := (run_padded 2 _).unique (run_padded 2 _) hpoint hpoint h
  exact ((run_padded 3 _).unique (run_padded 3 _) hc hc h).2.2

/-- Two places tell the hundredths. -/
theorem hundredths_unique {j k : Nat} (hj : j ≤ twoTo 29) (hk : k ≤ twoTo 29)
    {rest tail : List Char} (h : (Binary64.fraction j 100).hundredths ++ 'x' :: rest =
      (Binary64.fraction k 100).hundredths ++ 'x' :: tail) : j = k := by
  have hpoint : DigitClass.decimal.mem '.' = false := mem_mark (by decide)
  have hx : DigitClass.decimal.mem 'x' = false := mem_mark (by decide)
  simp only [hundredths_fraction hj, hundredths_fraction hk, List.append_assoc,
    List.cons_append] at h
  obtain ⟨hwhole, _, h⟩ := (run_write _).unique (run_write _) hpoint hpoint h
  obtain ⟨hpart, _⟩ := (run_padded 2 _).unique (run_padded 2 _) hx hx h
  have hwhole := congrArg Digits.value hwhole
  have hpart := congrArg Digits.value hpart
  rw [Digits.value_write, Digits.value_write] at hwhole
  rw [Digits.value_padded, Digits.value_padded] at hpart
  omega

theorem CueSpec.levels_of_canonical {c d : CueSpec} {j k : Nat} (hj : j ≤ twoTo 29)
    (hk : k ≤ twoTo 29) (hc : c.rate = .fraction j 100) (hd : d.rate = .fraction k 100)
    (h : c.canonical = d.canonical) : c.volume = d.volume ∧ c.rate = d.rate := by
  simp only [canonical, TimeCode.format, List.append_assoc, List.cons_append] at h
  have h := (List.cons.inj h).2
  have h := TimeCode.write_unique (mem_mark (by decide)) h
  have h := TimeCode.write_unique (mem_mark (by decide)) h
  obtain ⟨hvolume, _, h⟩ :=
    (run_write _).unique (run_write _) (mem_mark (by decide)) (mem_mark (by decide)) h
  have hvolume := congrArg Digits.value hvolume
  rw [Digits.value_write, Digits.value_write] at hvolume
  rw [hc, hd] at h
  have hjk := hundredths_unique hj hk (List.cons.inj h).2
  exact ⟨hvolume, by rw [hc, hd, hjk]⟩

namespace Built

variable {cues : List Cue} {c d : Cue}

theorem exists_rate (h : Built cues) (hc : c ∈ cues) :
    ∃ k, k ≤ twoTo 29 ∧ c.rate = .fraction k 100 := by
  obtain ⟨spec, hspec⟩ := h.built c hc
  obtain ⟨hcheck, hplace⟩ := CueSpec.build_eq_ok_iff.mp hspec
  rw [← hplace]
  have hrate := checkRate_eq_ok_iff.mp (CueSpec.check_eq_ok_iff.mp hcheck).2.2.1
  obtain ⟨k, _, hk, heq⟩ := exists_roundRate hrate
  exact ⟨k, Nat.le_trans hk (by decide), heq⟩

theorem rate_finite (h : Built cues) (hc : c ∈ cues) : c.rate.isFinite = true := by
  obtain ⟨k, hk, hrate⟩ := h.exists_rate hc
  rw [hrate]
  exact Binary64.isFinite_fraction hk (by decide) (by decide)

/-- Cues with the same id have the same levels. -/
theorem levels_eq (h : Built cues) (hc : c ∈ cues) (hd : d ∈ cues) (hid : c.id = d.id) :
    c.volume = d.volume ∧ c.rate = d.rate := by
  obtain ⟨j, hj, hcr⟩ := h.exists_rate hc
  obtain ⟨k, hk, hdr⟩ := h.exists_rate hd
  have htext := String.ofList_injective (h.told c hc d hd hid).2
  exact CueSpec.levels_of_canonical hj hk hcr hdr htext

end Built

end PlaybackCues
