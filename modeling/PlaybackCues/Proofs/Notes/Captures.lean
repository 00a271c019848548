import PlaybackCues.Proofs.Notes.Reading

set_option autoImplicit false

/-!
# Captured fields

A match of the pattern is a text of the shape of a cue, with the digits of whatever class the
pattern takes. `Fields.read?` turns the captured runs into values, and only ASCII digits can be
read: it gives something exactly for readable fields whose volume is a byte, and then what the
fields say.
-/
namespace PlaybackCues

namespace Notes

open DigitClass

variable {D : DigitClass}

/-! ## Reading -/

def whole? (top : Nat) (ds : List Char) : Option Nat :=
  if ds ≠ [] && ds.all Char.isDigit && Digits.value ds ≤ top then some (Digits.value ds) else none

def Suffix.read? : Suffix → Option Mode
  | natural => some .natural
  | jump => some .jump
  | pause ds => (whole? maxPause ds).map .pause

def Fields.read? (f : Fields) : Option CueSpec := do
  let start ← TimeCode.parse? f.start.text
  let stop ← TimeCode.parse? f.stop.text
  let volume ← whole? maxByte f.volume
  let rate ← Binary64.read? (f.whole ++ '.' :: f.fraction)
  let mode ← f.suffix.read?
  some ⟨start, stop, volume, rate, mode⟩

theorem whole?_eq_some_iff {top n : Nat} {ds : List Char} :
    whole? top ds = some n ↔
      (ds ≠ [] ∧ decimal.Run ds) ∧ Digits.value ds ≤ top ∧ n = Digits.value ds := by
  have hall : ds.all Char.isDigit = true ↔ decimal.Run ds := List.all_eq_true
  unfold whole?
  split
  · rename_i h
    simp only [Bool.and_eq_true, decide_eq_true_eq, hall] at h
    simp [h, eq_comm]
  · rename_i h
    simp only [Bool.and_eq_true, decide_eq_true_eq, hall] at h
    simp only [reduceCtorEq, false_iff]
    rintro ⟨hds, htop, _⟩
    exact h ⟨hds, htop⟩

theorem Suffix.read?_eq_some_iff {s : Suffix} {m : Mode} :
    s.read? = some m ↔ (s.Shaped .decimal ∧ s.InRange) ∧ m = s.mode := by
  cases s with
  | natural => simp [read?, Shaped, InRange, mode, eq_comm]
  | jump => simp [read?, Shaped, InRange, mode, eq_comm]
  | pause ds =>
    simp only [read?, Option.map_eq_some_iff, whole?_eq_some_iff, Shaped, InRange, mode]
    constructor
    · rintro ⟨_, ⟨hds, hrange, rfl⟩, rfl⟩
      exact ⟨⟨hds, hrange⟩, rfl⟩
    · rintro ⟨⟨hds, hrange⟩, rfl⟩
      exact ⟨_, ⟨hds, hrange, rfl⟩, rfl⟩

/-! ## Time codes -/

theorem Clock.Shaped.parse?_eq_some_iff {t : Clock} {x : Seconds} (ht : t.Shaped D) :
    TimeCode.parse? t.text = some x ↔
      (t.Shaped .decimal ∧ t.InRange) ∧ x = TimeCode.ofMillis t.millis := by
  constructor
  · intro h
    unfold TimeCode.parse? at h
    split at h
    · rename_i millis hscan
      obtain rfl := Option.some.inj h
      obtain ⟨u, ⟨hu, hrange⟩, rfl, heq⟩ := TimeCode.clock_of_scan? hscan
      -- any mark behind them shows the two time codes to be the same
      have hdash : D.mem '-' = false ∧ '-' ≠ '.' := ⟨mem_mark (by decide), by decide⟩
      have htext : t.text ++ '-' :: [] = u.text ++ '-' :: [] := by
        rw [heq, List.append_nil]
      obtain ⟨rfl, _⟩ := ht.unique hu.of_decimal hdash hdash htext
      exact ⟨⟨hu, hrange⟩, rfl⟩
    · cases h
  · rintro ⟨⟨hshape, hrange⟩, hx⟩
    have hscan := TimeCode.scan?_clock hshape hrange Digits.ends_nil (by simp)
    rw [List.append_nil] at hscan
    unfold TimeCode.parse?
    rw [hscan, hx]

/-! ## Rates -/

/-- A run with a digit that is not an ASCII digit is read up to the first of these. -/
theorem split_of_not_decimal {ds : List Char} (hds : D.Run ds) (hne : ¬ decimal.Run ds)
    (rest : List Char) :
    ∃ front c tail, Digits.split (ds ++ rest) = (front, c :: tail) ∧ D.mem c = true ∧
      c.isDigit = false := by
  induction ds with
  | nil => exact absurd (fun c hc => by cases hc) hne
  | cons d ds ih =>
    cases hd : d.isDigit with
    | false =>
      refine ⟨[], d, ds ++ rest, ?_, hds d List.mem_cons_self, hd⟩
      simp [Digits.split, hd]
    | true =>
      have hds' : D.Run ds := fun c hc => hds c (List.mem_cons_of_mem _ hc)
      have hne' : ¬ decimal.Run ds := by
        intro h
        refine hne fun c hc => ?_
        rcases List.mem_cons.mp hc with rfl | hc
        · exact hd
        · exact h c hc
      obtain ⟨front, c, tail, hsplit, hc⟩ := ih hds' hne'
      refine ⟨d :: front, c, tail, ?_, hc⟩
      simp only [Digits.split, Prod.mk.injEq] at hsplit
      simp [Digits.split, hd, hsplit]

theorem ne_of_mem {c d : Char} (hc : D.mem c = true) (hd : d.toNat < 128 ∧ d.isDigit = false) :
    c ≠ d := by
  rintro rfl
  rw [D.ascii c hd.1, hd.2] at hc
  cases hc

theorem readScaled?_eq_none {negative : Bool} {whole fraction tail : List Char} {c : Char}
    (hc : D.mem c = true) : Binary64.readScaled? negative whole fraction (c :: tail) = none := by
  have he : c ≠ 'e' := ne_of_mem hc (by decide)
  have hE : c ≠ 'E' := ne_of_mem hc (by decide)
  simp [Binary64.readScaled?, he, hE]

theorem readMagnitude?_eq_some_iff {negative : Bool} {whole fraction : List Char} {r : Binary64}
    (hwhole : whole ≠ [] ∧ D.Run whole) (hfraction : D.Run fraction) :
    Binary64.readMagnitude? negative (whole ++ '.' :: fraction) = some r ↔
      decimal.Run whole ∧ decimal.Run fraction ∧
        r = .ofDecimal negative (Digits.value (whole ++ fraction)) (-fraction.length) := by
  -- the names of the special values have no point in them
  have hword {name : List Char} (h : '.' ∉ name) :
      (whole ++ '.' :: fraction).map Char.toLower ≠ name := by
    rintro rfl
    exact h (by simp [show Char.toLower '.' = '.' from rfl])
  have hinf : (whole ++ '.' :: fraction).map Char.toLower ≠ "inf".toList := hword (by decide)
  have hinfinity : (whole ++ '.' :: fraction).map Char.toLower ≠ "infinity".toList :=
    hword (by decide)
  have hnan : (whole ++ '.' :: fraction).map Char.toLower ≠ "nan".toList := hword (by decide)
  unfold Binary64.readMagnitude?
  simp only [hinf, hinfinity, hnan, decide_false, Bool.or_self, Bool.false_eq_true, if_false]
  by_cases hw : decimal.Run whole
  · rw [Digits.split_run hw (Digits.ends_cons rfl)]
    by_cases hf : decimal.Run fraction
    · have hsplit := Digits.split_run hf Digits.ends_nil
      rw [List.append_nil] at hsplit
      simp [hsplit, hwhole.1, Binary64.readScaled?, hw, hf, eq_comm]
    · obtain ⟨front, c, tail, hsplit, hc, _⟩ := split_of_not_decimal hfraction hf []
      rw [List.append_nil] at hsplit
      simp [hsplit, readScaled?_eq_none hc, hf]
  · obtain ⟨front, c, tail, hsplit, hc, _⟩ := split_of_not_decimal hwhole.2 hw ('.' :: fraction)
    have hpoint : c ≠ '.' := ne_of_mem hc (by decide)
    rw [hsplit]
    simp only [hw, false_and, iff_false]
    split
    · rename_i heq
      exact absurd (List.cons.inj (Prod.mk.inj heq).2).1 hpoint
    · rename_i heq
      cases heq
      split
      · simp
      · simp [readScaled?_eq_none hc]

theorem read?_rate_eq_some_iff {whole fraction : List Char} {r : Binary64}
    (hwhole : whole ≠ [] ∧ D.Run whole) (hfraction : D.Run fraction) :
    Binary64.read? (whole ++ '.' :: fraction) = some r ↔
      decimal.Run whole ∧ decimal.Run fraction ∧
        r = .ofDecimal false (Digits.value (whole ++ fraction)) (-fraction.length) := by
  rw [← readMagnitude?_eq_some_iff hwhole hfraction]
  cases whole with
  | nil => exact absurd rfl hwhole.1
  | cons c whole =>
    have hc := hwhole.2 c List.mem_cons_self
    have hminus : c ≠ '-' := ne_of_mem hc (by decide)
    have hplus : c ≠ '+' := ne_of_mem hc (by decide)
    rw [List.cons_append]
    unfold Binary64.read?
    split
    · rename_i heq
      exact absurd (List.cons.inj heq).1 hminus
    · rename_i heq
      exact absurd (List.cons.inj heq).1 hplus
    · rfl

/-- What can be read from the fields of a match. -/
theorem Fields.Shaped.read?_eq_some_iff {f : Fields} {s : CueSpec} (hf : f.Shaped D) :
    f.read? = some s ↔ f.Readable ∧ Digits.value f.volume ≤ maxByte ∧ s = f.raw := by
  simp only [Fields.read?, Option.bind_eq_bind, Option.bind_eq_some_iff,
    hf.start.parse?_eq_some_iff, hf.stop.parse?_eq_some_iff, whole?_eq_some_iff,
    read?_rate_eq_some_iff hf.whole hf.fraction.2, Suffix.read?_eq_some_iff]
  constructor
  · rintro ⟨_, ⟨⟨hstart, hsr⟩, hx⟩, _, ⟨⟨hstop, htr⟩, hy⟩, _, ⟨hvolume, hbyte, rfl⟩, _,
      ⟨hwhole, hfraction, hr⟩, _, ⟨⟨hsuffix, hmr⟩, rfl⟩, h⟩
    refine ⟨⟨⟨hstart, hstop, hvolume, ⟨hf.whole.1, hwhole⟩, ⟨hf.fraction.1, hfraction⟩, hsuffix⟩,
      hsr, htr, hmr⟩, hbyte, ?_⟩
    rw [← Option.some.inj h, hx, hy, hr]
    simp only [Fields.raw, Fields.rate]
  · rintro ⟨⟨hshape, hsr, htr, hmr⟩, hbyte, rfl⟩
    exact ⟨_, ⟨⟨hshape.start, hsr⟩, rfl⟩, _, ⟨⟨hshape.stop, htr⟩, rfl⟩, _,
      ⟨hshape.volume, hbyte, rfl⟩, _, ⟨hshape.whole.2, hshape.fraction.2, rfl⟩, _,
      ⟨⟨hshape.suffix, hmr⟩, rfl⟩, rfl⟩

end Notes

end PlaybackCues
