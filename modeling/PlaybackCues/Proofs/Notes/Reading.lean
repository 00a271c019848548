import Mathlib.Data.List.Basic
import PlaybackCues.Proofs.Notes.Grammar

set_option autoImplicit false

/-!
# Reading one cue

`candidate?` reads exactly the readable fields: what it gives comes from fields that stand in
front, and whatever fields stand in front it reads. Each reader below it has these two lemmas, one
for what it accepts and one for what it must accept.
-/
namespace PlaybackCues

/-! ## Runs of digits -/

namespace Digits

def Ends (cs : List Char) : Prop := ∀ c ∈ cs.head?, c.isDigit = false

theorem ends_nil : Ends [] := by
  intro c h
  cases h

theorem ends_cons {c : Char} {cs : List Char} (h : c.isDigit = false) : Ends (c :: cs) := by
  intro d hd
  cases hd
  exact h

theorem split_run {ds rest : List Char} (hds : ∀ c ∈ ds, c.isDigit = true) (hrest : Ends rest) :
    split (ds ++ rest) = (ds, rest) := by
  unfold split
  rw [List.takeWhile_append_of_pos hds, List.dropWhile_append_of_pos hds]
  cases rest with
  | nil => simp
  | cons c rest => simp [hrest c rfl]

theorem run?_run {ds rest : List Char} (hne : ds ≠ []) (hds : ∀ c ∈ ds, c.isDigit = true)
    (hrest : Ends rest) : run? (ds ++ rest) = some (ds, rest) :=
  run?_eq_some_iff.mpr ⟨hne, split_run hds hrest⟩

theorem run_of_run? {cs ds rest : List Char} (h : run? cs = some (ds, rest)) :
    (ds ≠ [] ∧ ∀ c ∈ ds, c.isDigit = true) ∧ cs = ds ++ rest := by
  obtain ⟨hne, hsplit⟩ := run?_eq_some_iff.mp h
  have hdigits : ∀ c ∈ (split cs).1, c.isDigit = true := fun c hc => isDigit_of_mem_split hc
  rw [hsplit] at hdigits
  exact ⟨⟨hne, hdigits⟩, (run?_append h).symm⟩

end Digits

/-! ## Time codes -/

namespace TimeCode

open Notes

theorem twoDigits?_eq_some_iff {cs rest : List Char} {n : Nat} :
    twoDigits? cs = some (n, rest) ↔
      ∃ ds, (DigitClass.decimal.Run ds ∧ ds.length = 2) ∧ n = Digits.value ds ∧
        cs = ds ++ rest := by
  constructor
  · intro h
    unfold twoDigits? at h
    split at h
    · rename_i a b tail
      split at h
      · rename_i hdigits
        cases h
        rw [Bool.and_eq_true] at hdigits
        refine ⟨[a, b], ⟨?_, rfl⟩, rfl, rfl⟩
        intro c hc
        simp only [List.mem_cons, List.not_mem_nil, or_false] at hc
        rcases hc with rfl | rfl
        · exact hdigits.1
        · exact hdigits.2
      · cases h
    · cases h
  · rintro ⟨ds, ⟨hrun, hlen⟩, rfl, rfl⟩
    obtain ⟨a, b, rfl⟩ := List.length_eq_two.mp hlen
    have ha : a.isDigit = true := hrun a (by simp)
    have hb : b.isDigit = true := hrun b (by simp)
    simp [twoDigits?, ha, hb]

theorem colon?_eq_some_iff {cs rest : List Char} : colon? cs = some rest ↔ cs = ':' :: rest := by
  unfold colon?
  split
  · simp
  · rename_i hne
    exact ⟨nofun, fun h => absurd h (hne rest)⟩

theorem fraction?_pointed {ds rest : List Char} (hds : DigitClass.decimal.Run ds)
    (hlen : ds.length ≤ 3) (hrest : Digits.Ends rest) (hpoint : rest.head? ≠ some '.') :
    fraction? (Clock.pointed ds ++ rest) =
      some (Digits.value ds * tenTo (3 - ds.length), rest) := by
  cases ds with
  | nil =>
    unfold Clock.pointed
    rw [List.nil_append]
    unfold fraction?
    split
    · exact absurd rfl hpoint
    · simp [Digits.value]
  | cons d ds =>
    have hsplit := Digits.split_run hds hrest
    rw [List.cons_append] at hsplit
    have hlen : ds.length + 1 ≤ 3 := hlen
    simp only [Clock.pointed, List.cons_append, fraction?, hsplit, List.length_cons]
    simp [hlen]

theorem pointed_of_fraction? {cs rest : List Char} {n : Nat}
    (h : fraction? cs = some (n, rest)) :
    ∃ ds, (DigitClass.decimal.Run ds ∧ ds.length ≤ 3) ∧
      n = Digits.value ds * tenTo (3 - ds.length) ∧ cs = Clock.pointed ds ++ rest := by
  unfold fraction? at h
  split at h
  · rename_i tail
    split at h
    rename_i ds rest' hsplit
    split at h
    · rename_i hlen
      cases h
      simp only [Bool.and_eq_true, decide_eq_true_eq] at hlen
      have happend := Digits.split_append tail
      have hdigits : ∀ c ∈ (Digits.split tail).1, c.isDigit = true :=
        fun c hc => Digits.isDigit_of_mem_split hc
      rw [hsplit] at happend hdigits
      refine ⟨ds, ⟨hdigits, hlen.2⟩, rfl, ?_⟩
      cases ds with
      | nil => simp at hlen
      | cons d ds => exact congrArg ('.' :: ·) happend.symm
    · cases h
  · cases h
    exact ⟨[], ⟨nofun, by decide⟩, by simp [Digits.value], rfl⟩

theorem scan?_clock {t : Clock} {rest : List Char} (ht : t.Shaped .decimal) (hrange : t.InRange)
    (hrest : Digits.Ends rest) (hpoint : rest.head? ≠ some '.') :
    scan? (t.text ++ rest) = some (t.millis, rest) := by
  have htwo : ∀ {ds tail : List Char}, DigitClass.decimal.Run ds ∧ ds.length = 2 →
      twoDigits? (ds ++ tail) = some (Digits.value ds, tail) :=
    fun h => twoDigits?_eq_some_iff.mpr ⟨_, h, rfl, rfl⟩
  have hfraction := fraction?_pointed ht.fraction.1 ht.fraction.2 hrest hpoint
  simp only [scan?, Clock.text, List.append_assoc, List.cons_append, htwo ht.hours,
    htwo ht.minutes, htwo ht.seconds, colon?, hfraction, Option.bind_eq_bind, Option.bind_some]
  rw [if_pos]
  · rfl
  · simp [hrange.1, hrange.2]

theorem clock_of_scan? {cs rest : List Char} {n : Nat} (h : scan? cs = some (n, rest)) :
    ∃ t : Clock, (t.Shaped .decimal ∧ t.InRange) ∧ n = t.millis ∧ cs = t.text ++ rest := by
  simp only [scan?, Option.bind_eq_bind, Option.bind_eq_some_iff, Prod.exists,
    twoDigits?_eq_some_iff, colon?_eq_some_iff] at h
  obtain ⟨_, _, ⟨hours, hhours, rfl, rfl⟩, _, rfl, _, _, ⟨minutes, hminutes, rfl, rfl⟩, _, rfl,
    _, _, ⟨seconds, hseconds, rfl, rfl⟩, millis, tail, hfraction, h⟩ := h
  obtain ⟨fraction, hfrac, rfl, rfl⟩ := pointed_of_fraction? hfraction
  split at h
  · rename_i hrange
    cases h
    rw [Bool.and_eq_true, decide_eq_true_eq, decide_eq_true_eq] at hrange
    refine ⟨⟨hours, minutes, seconds, fraction⟩, ⟨⟨hhours, hminutes, hseconds, hfrac⟩, hrange⟩,
      rfl, ?_⟩
    simp [Clock.text]
  · cases h

end TimeCode

/-! ## Cues -/

namespace Notes

theorem expect?_eq_some_iff {c : Char} {cs rest : List Char} :
    expect? c cs = some rest ↔ cs = c :: rest := by
  cases cs with
  | nil => simp [expect?]
  | cons d cs => simp [expect?, List.cons.injEq]

theorem mode?_suffix {s : Suffix} {rest : List Char} (hs : s.Shaped .decimal) (hrange : s.InRange) :
    mode? (s.text ++ ']' :: rest) = some (s.mode, ']' :: rest) := by
  cases s with
  | natural => rfl
  | jump => rfl
  | pause ds =>
    have hrun : Digits.run? (ds ++ ']' :: rest) = some (ds, ']' :: rest) :=
      Digits.run?_run hs.1 hs.2 (Digits.ends_cons rfl)
    have hrange : Digits.value ds ≤ maxPause := hrange
    simp [Suffix.text, Suffix.mode, mode?, hrun, hrange]

theorem suffix_of_mode? {cs rest : List Char} {m : Mode} (h : mode? cs = some (m, rest)) :
    ∃ s : Suffix, (s.Shaped .decimal ∧ s.InRange) ∧ m = s.mode ∧ cs = s.text ++ rest := by
  unfold mode? at h
  split at h
  · cases h
    exact ⟨.jump, ⟨trivial, trivial⟩, rfl, rfl⟩
  · rename_i tail _
    simp only [Option.bind_eq_bind, Option.bind_eq_some_iff, Prod.exists] at h
    obtain ⟨ds, tail', hrun, h⟩ := h
    obtain ⟨hds, rfl⟩ := Digits.run_of_run? hrun
    split at h
    · rename_i hrange
      cases h
      exact ⟨.pause ds, ⟨hds, hrange⟩, rfl, rfl⟩
    · cases h
  · cases h
    exact ⟨.natural, ⟨trivial, trivial⟩, rfl, rfl⟩

theorem rate?_fields {whole fraction rest : List Char}
    (hwhole : whole ≠ [] ∧ DigitClass.decimal.Run whole)
    (hfraction : fraction ≠ [] ∧ DigitClass.decimal.Run fraction) (hrest : Digits.Ends rest) :
    rate? (whole ++ '.' :: (fraction ++ rest)) =
      some (.ofDecimal false (Digits.value (whole ++ fraction)) (-fraction.length), rest) := by
  have hw : Digits.run? (whole ++ '.' :: (fraction ++ rest)) =
      some (whole, '.' :: (fraction ++ rest)) :=
    Digits.run?_run hwhole.1 hwhole.2 (Digits.ends_cons rfl)
  have hf : Digits.run? (fraction ++ rest) = some (fraction, rest) :=
    Digits.run?_run hfraction.1 hfraction.2 hrest
  simp [rate?, hw, expect?, hf]

theorem fields_of_rate? {cs rest : List Char} {r : Binary64} (h : rate? cs = some (r, rest)) :
    ∃ whole fraction, (whole ≠ [] ∧ DigitClass.decimal.Run whole) ∧
      (fraction ≠ [] ∧ DigitClass.decimal.Run fraction) ∧
      r = .ofDecimal false (Digits.value (whole ++ fraction)) (-fraction.length) ∧
      cs = whole ++ '.' :: (fraction ++ rest) := by
  simp only [rate?, Option.bind_eq_bind, Option.bind_eq_some_iff, Prod.exists,
    expect?_eq_some_iff] at h
  obtain ⟨whole, _, hwhole, _, rfl, fraction, tail, hfraction, h⟩ := h
  cases h
  obtain ⟨hw, rfl⟩ := Digits.run_of_run? hwhole
  obtain ⟨hf, rfl⟩ := Digits.run_of_run? hfraction
  exact ⟨whole, fraction, hw, hf, rfl, rfl⟩

namespace Fields

theorem Readable.candidate? {f : Fields} (h : f.Readable) (rest : List Char) :
    candidate? (f.text ++ rest) = some f.raw := by
  have hstart (tail : List Char) :
      TimeCode.scan? (f.start.text ++ '-' :: tail) = some (f.start.millis, '-' :: tail) :=
    TimeCode.scan?_clock h.shaped.start h.start (Digits.ends_cons rfl) (by simp)
  have hstop (tail : List Char) :
      TimeCode.scan? (f.stop.text ++ ',' :: tail) = some (f.stop.millis, ',' :: tail) :=
    TimeCode.scan?_clock h.shaped.stop h.stop (Digits.ends_cons rfl) (by simp)
  have hvolume (tail : List Char) :
      Digits.run? (f.volume ++ '%' :: tail) = some (f.volume, '%' :: tail) :=
    Digits.run?_run h.shaped.volume.1 h.shaped.volume.2 (Digits.ends_cons rfl)
  have hrate (tail : List Char) :
      rate? (f.whole ++ '.' :: (f.fraction ++ 'x' :: tail)) = some (f.rate, 'x' :: tail) :=
    rate?_fields h.shaped.whole h.shaped.fraction (Digits.ends_cons rfl)
  have hmode : mode? (f.suffix.text ++ ']' :: rest) = some (f.suffix.mode, ']' :: rest) :=
    mode?_suffix h.shaped.suffix h.suffix
  simp [text, Notes.candidate?, expect?, hstart, hstop, hvolume, hrate, hmode, raw]

end Fields

theorem fields_of_candidate? {cs : List Char} {s : CueSpec} (h : candidate? cs = some s) :
    ∃ (f : Fields) (rest : List Char), f.Readable ∧ s = f.raw ∧ cs = f.text ++ rest := by
  simp only [candidate?, Option.bind_eq_bind, Option.bind_eq_some_iff, Prod.exists,
    expect?_eq_some_iff] at h
  obtain ⟨_, rfl, _, _, hstart, _, rfl, _, _, hstop, _, rfl, volume, _, hvolume, _, rfl, _, rfl,
    _, _, hrate, _, rfl, _, _, hmode, rest, rfl, h⟩ := h
  obtain rfl := Option.some.inj h
  obtain ⟨start, ⟨hs, hsr⟩, rfl, rfl⟩ := TimeCode.clock_of_scan? hstart
  obtain ⟨stop, ⟨ht, htr⟩, rfl, rfl⟩ := TimeCode.clock_of_scan? hstop
  obtain ⟨hv, rfl⟩ := Digits.run_of_run? hvolume
  obtain ⟨whole, fraction, hw, hf, rfl, rfl⟩ := fields_of_rate? hrate
  obtain ⟨suffix, ⟨hm, hmr⟩, rfl, rfl⟩ := suffix_of_mode? hmode
  refine ⟨⟨start, stop, volume, whole, fraction, suffix⟩, rest,
    ⟨⟨hs, ht, hv, hw, hf, hm⟩, hsr, htr, hmr⟩, ?_, ?_⟩
  · simp only [Fields.raw, Fields.rate]
  · simp [Fields.text]

theorem candidate?_eq_some_iff {cs : List Char} {s : CueSpec} :
    candidate? cs = some s ↔ ∃ f : Fields, f.Readable ∧ f.text <+: cs ∧ s = f.raw := by
  constructor
  · intro h
    obtain ⟨f, rest, hf, rfl, rfl⟩ := fields_of_candidate? h
    exact ⟨f, hf, List.prefix_append _ _, rfl⟩
  · rintro ⟨f, hf, ⟨rest, rfl⟩, rfl⟩
    exact hf.candidate? rest

end Notes

end PlaybackCues
