import PlaybackCues.Notes.Parser

set_option autoImplicit false

/-!
# The grammar of cues

`Fields` is a cue as it is written, run of digits by run of digits; `Fields.text` is the
substring it stands for. Which characters count as digits is a parameter of the shape, since a
pattern may take more digits than a number can be read from. Whatever the digits are, a text
starts with at most one substring of the shape. `Fields.IsCue` is the grammar: the shape in ASCII
digits, and what the values have to satisfy.
-/
namespace PlaybackCues.Notes

/-! ## Digits -/

/-- The characters a pattern takes for digits: among the ASCII characters the ten digits, and any
others. -/
structure DigitClass where
  mem : Char → Bool
  ascii : ∀ c : Char, c.toNat < 128 → mem c = c.isDigit

namespace DigitClass

def decimal : DigitClass := ⟨Char.isDigit, fun _ _ => rfl⟩

def marks : List Char := ['[', ':', '.', '-', ',', '%', 'x', '|', ']']

def Run (D : DigitClass) (ds : List Char) : Prop := ∀ c ∈ ds, D.mem c = true

variable {D : DigitClass}

theorem mem_mark {c : Char} (h : c ∈ marks) : D.mem c = false := by
  have hall : marks.all (fun c => c.toNat < 128 && !c.isDigit) = true := by decide
  have hc := List.all_eq_true.mp hall c h
  simp only [Bool.and_eq_true, decide_eq_true_eq, Bool.not_eq_true'] at hc
  rw [D.ascii c hc.1, hc.2]

theorem mem_of_isDigit {c : Char} (h : c.isDigit = true) : D.mem c = true := by
  rw [D.ascii c, h]
  simp only [Char.isDigit, Bool.and_eq_true, decide_eq_true_eq] at h
  have hle : c.toNat ≤ 57 := h.2
  omega

theorem Run.of_decimal {ds : List Char} (h : decimal.Run ds) : D.Run ds :=
  fun c hc => mem_of_isDigit (h c hc)

/-- A run of digits ends where the first other character stands. -/
theorem Run.unique {ds es rest tail : List Char} {c d : Char} (hds : D.Run ds) (hes : D.Run es)
    (hc : D.mem c = false) (hd : D.mem d = false) (h : ds ++ c :: rest = es ++ d :: tail) :
    ds = es ∧ c = d ∧ rest = tail := by
  induction ds generalizing es with
  | nil =>
    cases es with
    | nil =>
      obtain ⟨rfl, rfl⟩ := List.cons.inj h
      exact ⟨rfl, rfl, rfl⟩
    | cons e es =>
      obtain ⟨rfl, _⟩ := List.cons.inj h
      rw [hes c List.mem_cons_self] at hc
      cases hc
  | cons a ds ih =>
    cases es with
    | nil =>
      obtain ⟨rfl, _⟩ := List.cons.inj h
      rw [hds a List.mem_cons_self] at hd
      cases hd
    | cons e es =>
      obtain ⟨rfl, htail⟩ := List.cons.inj h
      obtain ⟨rfl, hrest⟩ := ih (fun c hc => hds c (List.mem_cons_of_mem _ hc))
        (fun c hc => hes c (List.mem_cons_of_mem _ hc)) htail
      exact ⟨rfl, hrest⟩

end DigitClass

/-! ## Time codes -/

structure Clock where
  hours : List Char
  minutes : List Char
  seconds : List Char
  /-- With no digits here there is no point either. -/
  fraction : List Char

namespace Clock

def pointed : List Char → List Char
  | [] => []
  | d :: ds => '.' :: d :: ds

def text (t : Clock) : List Char :=
  t.hours ++ ':' :: (t.minutes ++ ':' :: (t.seconds ++ pointed t.fraction))

structure Shaped (D : DigitClass) (t : Clock) : Prop where
  hours : D.Run t.hours ∧ t.hours.length = 2
  minutes : D.Run t.minutes ∧ t.minutes.length = 2
  seconds : D.Run t.seconds ∧ t.seconds.length = 2
  fraction : D.Run t.fraction ∧ t.fraction.length ≤ 3

def InRange (t : Clock) : Prop := Digits.value t.minutes < 60 ∧ Digits.value t.seconds < 60

def millis (t : Clock) : Nat :=
  ((Digits.value t.hours * 60 + Digits.value t.minutes) * 60 + Digits.value t.seconds) * 1000 +
    Digits.value t.fraction * tenTo (3 - t.fraction.length)

theorem Shaped.of_decimal {D : DigitClass} {t : Clock} (h : t.Shaped .decimal) : t.Shaped D where
  hours := ⟨h.hours.1.of_decimal, h.hours.2⟩
  minutes := ⟨h.minutes.1.of_decimal, h.minutes.2⟩
  seconds := ⟨h.seconds.1.of_decimal, h.seconds.2⟩
  fraction := ⟨h.fraction.1.of_decimal, h.fraction.2⟩

/-- The fraction of a time code ends, or is seen not to be there, at a character that is neither a
digit nor a point. -/
theorem pointed_unique {D : DigitClass} {ds es fs gs rest tail : List Char} {c d : Char}
    (hds : D.Run ds) (hes : D.Run es) (hfs : D.Run fs) (hgs : D.Run gs)
    (hc : D.mem c = false ∧ c ≠ '.') (hd : D.mem d = false ∧ d ≠ '.')
    (h : ds ++ (pointed fs ++ c :: rest) = es ++ (pointed gs ++ d :: tail)) :
    ds = es ∧ fs = gs ∧ c = d ∧ rest = tail := by
  have hpoint : D.mem '.' = false := DigitClass.mem_mark (by decide)
  cases fs with
  | nil =>
    cases gs with
    | nil =>
      obtain ⟨rfl, rfl, rfl⟩ := hds.unique hes hc.1 hd.1 h
      exact ⟨rfl, rfl, rfl, rfl⟩
    | cons g gs => exact absurd (hds.unique hes hc.1 hpoint h).2.1 hc.2
  | cons f fs =>
    cases gs with
    | nil => exact absurd (hds.unique hes hpoint hd.1 h).2.1.symm hd.2
    | cons g gs =>
      obtain ⟨rfl, _, htail⟩ := hds.unique hes hpoint hpoint h
      obtain ⟨hfg, rfl, rfl⟩ := hfs.unique hgs hc.1 hd.1 htail
      exact ⟨rfl, hfg, rfl, rfl⟩

theorem Shaped.unique {D : DigitClass} {t u : Clock} {rest tail : List Char} {c d : Char}
    (ht : t.Shaped D) (hu : u.Shaped D) (hc : D.mem c = false ∧ c ≠ '.')
    (hd : D.mem d = false ∧ d ≠ '.') (h : t.text ++ c :: rest = u.text ++ d :: tail) :
    t = u ∧ c = d ∧ rest = tail := by
  have hcolon : D.mem ':' = false := DigitClass.mem_mark (by decide)
  obtain ⟨hours, minutes, seconds, fraction⟩ := t
  obtain ⟨hours', minutes', seconds', fraction'⟩ := u
  simp only [text, List.append_assoc, List.cons_append] at h
  obtain ⟨rfl, _, h⟩ := ht.hours.1.unique hu.hours.1 hcolon hcolon h
  obtain ⟨rfl, _, h⟩ := ht.minutes.1.unique hu.minutes.1 hcolon hcolon h
  obtain ⟨rfl, rfl, rfl, rfl⟩ := pointed_unique ht.seconds.1 hu.seconds.1 ht.fraction.1
    hu.fraction.1 hc hd h
  exact ⟨rfl, rfl, rfl⟩

end Clock

/-! ## Modes -/

inductive Suffix where
  | natural
  | jump
  | pause (seconds : List Char)

namespace Suffix

def text : Suffix → List Char
  | natural => []
  | jump => [',', '-', '>']
  | pause ds => ',' :: '|' :: ds

def mode : Suffix → Mode
  | natural => .natural
  | jump => .jump
  | pause ds => .pause (Digits.value ds)

def Shaped (D : DigitClass) : Suffix → Prop
  | pause ds => ds ≠ [] ∧ D.Run ds
  | _ => True

def InRange : Suffix → Prop
  | pause ds => Digits.value ds ≤ maxPause
  | _ => True

theorem Shaped.of_decimal {D : DigitClass} {s : Suffix} (h : s.Shaped .decimal) : s.Shaped D := by
  cases s with
  | natural => trivial
  | jump => trivial
  | pause ds => exact ⟨h.1, h.2.of_decimal⟩

theorem Shaped.unique {D : DigitClass} {s t : Suffix} {rest tail : List Char} (hs : s.Shaped D)
    (ht : t.Shaped D) (h : s.text ++ ']' :: rest = t.text ++ ']' :: tail) :
    s = t ∧ rest = tail := by
  have hclose : D.mem ']' = false := DigitClass.mem_mark (by decide)
  cases s <;> cases t
  case pause.pause ds es =>
    obtain ⟨rfl, _, rfl⟩ := hs.2.unique ht.2 hclose hclose (List.cons.inj (List.cons.inj h).2).2
    exact ⟨rfl, rfl⟩
  -- otherwise the first two characters tell the modes apart
  all_goals simp_all [text]

end Suffix

/-! ## Cues -/

structure Fields where
  start : Clock
  stop : Clock
  volume : List Char
  whole : List Char
  fraction : List Char
  suffix : Suffix

namespace Fields

def text (f : Fields) : List Char :=
  '[' :: (f.start.text ++ '-' :: (f.stop.text ++ ',' :: (f.volume ++ '%' :: ',' ::
    (f.whole ++ '.' :: (f.fraction ++ 'x' :: (f.suffix.text ++ [']']))))))

structure Shaped (D : DigitClass) (f : Fields) : Prop where
  start : f.start.Shaped D
  stop : f.stop.Shaped D
  volume : f.volume ≠ [] ∧ D.Run f.volume
  whole : f.whole ≠ [] ∧ D.Run f.whole
  fraction : f.fraction ≠ [] ∧ D.Run f.fraction
  suffix : f.suffix.Shaped D

theorem Shaped.of_decimal {D : DigitClass} {f : Fields} (h : f.Shaped .decimal) : f.Shaped D where
  start := h.start.of_decimal
  stop := h.stop.of_decimal
  volume := ⟨h.volume.1, h.volume.2.of_decimal⟩
  whole := ⟨h.whole.1, h.whole.2.of_decimal⟩
  fraction := ⟨h.fraction.1, h.fraction.2.of_decimal⟩
  suffix := h.suffix.of_decimal

/-- A text starts with at most one substring of the shape of a cue. -/
theorem Shaped.unique {D : DigitClass} {f g : Fields} {rest tail : List Char} (hf : f.Shaped D)
    (hg : g.Shaped D) (h : f.text ++ rest = g.text ++ tail) : f = g ∧ rest = tail := by
  have hmark : ∀ c ∈ DigitClass.marks, D.mem c = false := fun c hc => DigitClass.mem_mark hc
  obtain ⟨start, stop, volume, whole, fraction, suffix⟩ := f
  obtain ⟨start', stop', volume', whole', fraction', suffix'⟩ := g
  simp only [text, List.append_assoc, List.cons_append, List.nil_append, List.cons.injEq,
    true_and] at h
  have hdash : D.mem '-' = false ∧ '-' ≠ '.' := ⟨hmark _ (by decide), by decide⟩
  have hcomma : D.mem ',' = false ∧ ',' ≠ '.' := ⟨hmark _ (by decide), by decide⟩
  have hpercent : D.mem '%' = false := hmark _ (by decide)
  have hpoint : D.mem '.' = false := hmark _ (by decide)
  have hx : D.mem 'x' = false := hmark _ (by decide)
  obtain ⟨rfl, _, h⟩ := hf.start.unique hg.start hdash hdash h
  obtain ⟨rfl, _, h⟩ := hf.stop.unique hg.stop hcomma hcomma h
  obtain ⟨rfl, _, h⟩ := hf.volume.2.unique hg.volume.2 hpercent hpercent h
  obtain ⟨rfl, _, h⟩ := hf.whole.2.unique hg.whole.2 hpoint hpoint (List.cons.inj h).2
  obtain ⟨rfl, _, h⟩ := hf.fraction.2.unique hg.fraction.2 hx hx h
  obtain ⟨rfl, rfl⟩ := hf.suffix.unique hg.suffix h
  exact ⟨rfl, rfl⟩

/-! ## Values -/

def rate (f : Fields) : Binary64 :=
  .ofDecimal false (Digits.value (f.whole ++ f.fraction)) (-f.fraction.length)

def raw (f : Fields) : CueSpec :=
  ⟨TimeCode.ofMillis f.start.millis, TimeCode.ofMillis f.stop.millis, Digits.value f.volume, f.rate,
    f.suffix.mode⟩

def spec (f : Fields) : CueSpec := { f.raw with rate := roundRate f.rate }

/-- Everything that is asked of the written form, apart from the bounds of the values. -/
structure Readable (f : Fields) : Prop where
  shaped : f.Shaped .decimal
  start : f.start.InRange
  stop : f.stop.InRange
  suffix : f.suffix.InRange

/-- The grammar: the fields are those of a cue. -/
structure IsCue (f : Fields) : Prop extends f.Readable where
  window : f.start.millis < f.stop.millis
  volume : Digits.value f.volume ≤ 100
  rate : (roundRate f.rate).within 0.25 2 = true
  pause : ∀ ds, f.suffix = .pause ds → 1 ≤ Digits.value ds

end Fields

end PlaybackCues.Notes
